import Ruda.Lib.Chunks
import Ruda.Rudapack.Writer

/-!
# Quantized data as bytes

A translation of `quantization/bytes.rs` and `quantization/packing.rs`. A scale stands as its
bits. These calls return no error; the type of errors is that of `params_shape`.
-/

namespace Ruda.Tensor

open Rudapack (QuantValue QuantStore QuantLevel QuantScheme RudapackError paramsShape product)

-- Packing

/-- `x as u32` -/
def asU32 (x : Int8) : Nat := (x.toInt % 2 ^ 32).toNat

def packWord (x : List Int8) : Nat := x.zipIdx.foldl (fun acc p => acc ||| ((asU32 p.1 &&& 0xff) <<< (p.2 * 8))) 0

def packI8sToU32s (values : List Int8) : List Nat := (chunks 4 values).map packWord

/-- The `j`-th value of a word, with its sign. -/
def quant (sizeQuant packed j : Nat) : Int8 :=
  let raw := UInt8.ofNat ((packed >>> (j * sizeQuant)) &&& (2 ^ sizeQuant - 1))
  (raw <<< UInt8.ofNat (8 - sizeQuant)).toInt8 >>> Int8.ofNat (8 - sizeQuant)

/-- Words of `sizeStore` bits. -/
def unpackQToI8s (sizeStore : Nat) (values : List Nat) (numel : Nat) (value : QuantValue) : Res RudapackError (List Int8) := do
  let numQuants := sizeStore / value.sizeBits
  let parts ← values.zipIdx.mapM fun p => do
    let left ← subUsize numel (p.2 * numQuants)
    pure ((List.range (min numQuants left)).map (quant value.sizeBits p.1))
  pure parts.flatten

-- Bytes

structure QuantizedBytes where
  bytes : List UInt8
  scheme : QuantScheme
  numElements : Nat

def scaleBytes (scales : List UInt32) : List UInt8 := wordsBytes 4 (scales.map UInt32.toNat)

/-- Words of four bytes; what is left over is dropped. -/
def words (bytes : List UInt8) : List UInt32 := (List.range (bytes.length / 4)).map fun i => .ofNat (readWord 4 bytes i)

namespace QuantizedBytes

/-- The type of the values is `i8`, any other panics. -/
def new (value : List Int8) (scheme : QuantScheme) (scales : List UInt32) : Res RudapackError QuantizedBytes :=
  let bytes := value.map Int8.toUInt8
  match scheme.level with
  | .tensor =>
    match scales[0]? with
    | some scale => .ok ⟨bytes ++ scaleBytes [scale], scheme, value.length⟩
    | none => .error .panic
  | .block _ => .ok ⟨bytes ++ scaleBytes scales, scheme, value.length⟩

/-- A product that overflows would panic as the difference does. -/
def splitI8Values (q : QuantizedBytes) (numParams : Nat) : Res RudapackError (List Int8 × List UInt32) := do
  let values := q.bytes.map UInt8.toInt8
  let valuesEnd ← subUsize values.length (numParams * 4)
  let qparams := words ((values.drop valuesEnd).map Int8.toUInt8)
  let values := values.take valuesEnd
  if values.length ≥ q.numElements then pure (values.take q.numElements, qparams) else throw .panic

/-- Values that are packed in words, with as many words of parameters at the end. -/
def splitPackedValues (q : QuantizedBytes) (numParams : Nat) : Res RudapackError (List Int8 × List UInt32) :=
  if q.bytes.length % 4 = 0 then do
    let valuesEnd ← subUsize (words q.bytes).length numParams
    let values ← unpackQToI8s 32 (((words q.bytes).take valuesEnd).map UInt32.toNat) q.numElements q.scheme.value
    pure (values, (words q.bytes).drop valuesEnd)
  else .error .panic

def splitValuesOff (q : QuantizedBytes) (numParams : Nat) : Res RudapackError (List Int8 × List UInt32) :=
  match q.scheme.store with
  | .native => q.splitI8Values numParams
  | .packedU32 dim =>
    if dim = 0 then
      match q.scheme.value with
      | .q8f | .q8s => q.splitI8Values numParams
      | .q4f | .q4s | .q2f | .q2s => q.splitPackedValues numParams
      | .e4m3 | .e5m2 | .e2m1 => .error .panic
    else .error .panic
  | .packedNative _ => .error .panic

def intoVecI8WithParams (q : QuantizedBytes) (numParams : Nat) : Res RudapackError (List Int8 × List UInt32) := do
  let (values, qparams) ← q.splitValuesOff numParams
  let start ← subUsize (qparams.length * 4) (4 * numParams)
  pure (values, qparams.drop (start / 4))

/-- The blocks by the numbers of elements. -/
def flooredParams (q : QuantizedBytes) : Res RudapackError Nat :=
  match q.scheme.level with
  | .tensor => .ok 1
  | .block sizes => do
    let blockElements ← product (sizes.map UInt8.toNat)
    if blockElements = 0 then .error .panic else .ok (q.numElements / blockElements)

def intoVecI8 (q : QuantizedBytes) : Res RudapackError (List Int8 × List UInt32) := do
  let numParams ← q.flooredParams
  q.intoVecI8WithParams numParams

def intoVecI8WithShape (q : QuantizedBytes) (shape : List Nat) : Res RudapackError (List Int8 × List UInt32) := do
  let n ← product shape
  if n = q.numElements then do
    let params ← paramsShape shape q.scheme.level
    let numParams ← product params
    q.intoVecI8WithParams numParams
  else .error .panic

end QuantizedBytes

-- Reading what was packed

theorem asU32_byte (x : Int8) : asU32 x &&& 0xff = x.toUInt8.toNat := by
  have hint : x.toInt = x.toBitVec.toInt := rfl
  have hnat : x.toUInt8.toNat = x.toBitVec.toNat := rfl
  have hlt : x.toBitVec.toNat < 2 ^ 8 := x.toBitVec.isLt
  rw [show (0xff : Nat) = 2 ^ 8 - 1 from rfl, Nat.and_two_pow_sub_one_eq_mod, asU32, hint, hnat, BitVec.toInt_eq_toNat_cond]
  split <;> omega

theorem packWord_from (x : List Int8) {i acc : Nat} (hacc : acc < 256 ^ i) :
    (x.zipIdx i).foldl (fun acc p => acc ||| ((asU32 p.1 &&& 0xff) <<< (p.2 * 8))) acc =
      acc + 256 ^ i * leValue (x.map Int8.toUInt8) := by
  induction x generalizing i acc with
  | nil => rw [List.zipIdx_nil, List.foldl_nil, List.map_nil, leValue, Nat.mul_zero, Nat.add_zero]
  | cons v x ih =>
    have hpow : 256 ^ i = 2 ^ (i * 8) := by rw [Nat.mul_comm, Nat.pow_mul]
    have hbyte : v.toUInt8.toNat < 256 := v.toUInt8.toNat_lt
    have hor : acc ||| (v.toUInt8.toNat <<< (i * 8)) = acc + 256 ^ i * v.toUInt8.toNat := by
      rw [Nat.lor_comm, ← Nat.shiftLeft_add_eq_or_of_lt (hpow ▸ hacc), Nat.shiftLeft_eq, ← hpow, Nat.add_comm, Nat.mul_comm]
    have hnext : acc + 256 ^ i * v.toUInt8.toNat < 256 ^ (i + 1) := by
      have hmul : 256 ^ i * v.toUInt8.toNat ≤ 256 ^ i * 255 := Nat.mul_le_mul_left _ (by omega)
      rw [Nat.pow_succ]
      omega
    rw [List.zipIdx_cons, List.foldl_cons]
    simp only [asU32_byte]
    rw [hor]
    have hrest := ih hnext
    simp only [asU32_byte] at hrest
    rw [hrest, List.map_cons, leValue, Nat.pow_succ, Nat.mul_add]
    ring

theorem packWord_eq (x : List Int8) : packWord x = leValue (x.map Int8.toUInt8) := by
  rw [packWord, packWord_from x (by decide), Nat.pow_zero, Nat.one_mul, Nat.zero_add]

theorem leValue_byte {bytes : List UInt8} {j : Nat} {b : UInt8} (h : bytes[j]? = some b) : leValue bytes / 256 ^ j % 256 = b.toNat := by
  induction bytes generalizing j with
  | nil => cases h
  | cons c bytes ih =>
    have hc : c.toNat < 256 := c.toNat_lt
    cases j with
    | zero =>
      obtain rfl := Option.some.inj h
      rw [leValue, Nat.pow_zero, Nat.div_one]
      omega
    | succ j =>
      rw [leValue, Nat.pow_succ', ← Nat.div_div_eq_div_mul, show (c.toNat + 256 * leValue bytes) / 256 = leValue bytes by omega]
      exact ih h

theorem quant_packWord {x : List Int8} {j : Nat} {v : Int8} (h : x[j]? = some v) : quant 8 (packWord x) j = v := by
  have hbyte : (x.map Int8.toUInt8)[j]? = some v.toUInt8 := by rw [List.getElem?_map, h, Option.map_some]
  have hraw : (packWord x >>> (j * 8)) &&& (2 ^ 8 - 1) = v.toUInt8.toNat := by
    rw [Nat.and_two_pow_sub_one_eq_mod, Nat.shiftRight_eq_div_pow, Nat.mul_comm, Nat.pow_mul, packWord_eq]
    exact leValue_byte hbyte
  rw [quant, hraw, UInt8.ofNat_toNat]
  change (v.toUInt8 <<< (0 : UInt8)).toInt8 >>> (0 : Int8) = v
  rw [UInt8.shiftLeft_zero, Int8.shiftRight_zero]
  rfl

theorem zipIdx_map_range {α : Type} (g : Nat → α) (k : Nat) : ((List.range k).map g).zipIdx = (List.range k).map fun i => (g i, i) := by
  refine List.ext_getElem? fun i => ?_
  rw [List.getElem?_zipIdx, List.getElem?_map, List.getElem?_map, Option.map_map]
  cases hi : (List.range k)[i]? with
  | none => rfl
  | some m =>
    obtain ⟨hlt, rfl⟩ := List.getElem?_eq_some_iff.mp hi
    rw [List.getElem_range]
    simp

theorem map_quant (x : List Int8) : (List.range x.length).map (quant 8 (packWord x)) = x := by
  refine List.ext_getElem? fun j => ?_
  rw [List.getElem?_map]
  cases hj : x[j]? with
  | none =>
    rw [List.getElem?_eq_none_iff] at hj
    rw [List.getElem?_eq_none (by rwa [List.length_range])]
    rfl
  | some v =>
    obtain ⟨hlt, -⟩ := List.getElem?_eq_some_iff.mp hj
    rw [List.getElem?_range hlt, Option.map_some, quant_packWord hj]

theorem unpack_pack (values : List Int8) {value : QuantValue} (h : value.sizeBits = 8) :
    unpackQToI8s 32 (packI8sToU32s values) values.length value = .ok values := by
  have hparts : (packI8sToU32s values).zipIdx.mapM (fun p => do
      let left ← subUsize values.length (p.2 * 4)
      pure ((List.range (min 4 left)).map (quant 8 p.1)) : Nat × Nat → Res RudapackError (List Int8)) = .ok (chunks 4 values) := by
    rw [mapM_ok, packI8sToU32s, chunks, List.map_map, zipIdx_map_range, List.forall₂_map_left_iff, List.forall₂_map_right_iff,
      List.forall₂_same]
    intro i hi
    have hlt : i * 4 < values.length := by
      have hk : i < divCeil values.length 4 := List.mem_range.mp hi
      exact not_le.mp fun hle => absurd ((divCeil_le_iff (by decide)).mpr hle) (not_le.mpr hk)
    have hsub : (subUsize values.length (i * 4) : Res RudapackError Nat) = .ok (values.length - i * 4) := if_pos hlt.le
    have hlen : min 4 (values.length - i * 4) = (chunk 4 values i).length := by
      rw [chunk, List.length_take, List.length_drop]
    simp only [hsub, ok_bind, Function.comp_apply]
    rw [hlen, map_quant]
    rfl
  rw [unpackQToI8s, h]
  simp only [Nat.reduceDiv]
  rw [hparts, ok_bind, flatten_chunks (by decide)]
  rfl

theorem words_scaleBytes (scales : List UInt32) : words (scaleBytes scales) = scales := by
  refine List.ext_getElem? fun i => ?_
  rw [words, List.getElem?_map]
  have hlen : (scaleBytes scales).length / 4 = scales.length := by
    rw [scaleBytes, wordsBytes_length, List.length_map, Nat.mul_div_cancel _ (by decide)]
  rw [hlen]
  cases hi : scales[i]? with
  | none =>
    rw [List.getElem?_eq_none_iff] at hi
    rw [List.getElem?_eq_none (by rwa [List.length_range])]
    rfl
  | some scale =>
    obtain ⟨hlt, -⟩ := List.getElem?_eq_some_iff.mp hi
    have hword : (scales.map UInt32.toNat)[i]? = some scale.toNat := by rw [List.getElem?_map, hi, Option.map_some]
    have hread := @readWord_wordsBytes 4 _ [] i _ hword (by have := scale.toNat_lt; omega)
    rw [List.append_nil] at hread
    rw [List.getElem?_range hlt, Option.map_some, scaleBytes, hread, UInt32.ofNat_toNat]

-- Reading what was stored

namespace QuantizedBytes

variable {values : List Int8} {scheme : QuantScheme} {scales : List UInt32} {shape : List Nat}

/-- Stored as one byte for each value. -/
def ByteStored (scheme : QuantScheme) : Prop :=
  scheme.store = .native ∨ scheme.store = .packedU32 0 ∧ (scheme.value = .q8f ∨ scheme.value = .q8s)

/-- The bytes of the values, and those of the scales. -/
def stored (values : List Int8) (scheme : QuantScheme) (scales : List UInt32) : QuantizedBytes :=
  ⟨values.map Int8.toUInt8 ++ scaleBytes scales, scheme, values.length⟩

theorem split_stored (hstore : ByteStored scheme) :
    (stored values scheme scales).splitValuesOff scales.length = .ok (values, scales) := by
  have hbytes : ((stored values scheme scales).bytes.map UInt8.toInt8) = values ++ (scaleBytes scales).map UInt8.toInt8 := by
    rw [stored, List.map_append, List.map_map]
    exact congrArg (· ++ _) (List.map_id values)
  have hlen : (values ++ (scaleBytes scales).map UInt8.toInt8).length - scales.length * 4 = values.length := by
    rw [List.length_append, List.length_map, scaleBytes, wordsBytes_length, List.length_map, Nat.add_sub_cancel]
  have hsub : (subUsize (values ++ (scaleBytes scales).map UInt8.toInt8).length (scales.length * 4) : Res RudapackError Nat) =
      .ok values.length := by
    rw [subUsize, hlen, if_pos]
    · rfl
    · rw [List.length_append, List.length_map, scaleBytes, wordsBytes_length, List.length_map]
      exact Nat.le_add_left _ _
  have hback : ((scaleBytes scales).map UInt8.toInt8).map Int8.toUInt8 = scaleBytes scales := by
    rw [List.map_map]
    exact List.map_id _
  have hsplit : (stored values scheme scales).splitI8Values scales.length = .ok (values, scales) := by
    rw [splitI8Values, hbytes, hsub, ok_bind, List.drop_left, List.take_left, hback, words_scaleBytes]
    simp only [stored, ge_iff_le, le_refl, if_true, List.take_length]
    rfl
  rw [splitValuesOff]
  have hscheme : (stored values scheme scales).scheme = scheme := rfl
  rw [hscheme]
  obtain hnative | ⟨hpacked, hvalue | hvalue⟩ := hstore
  · rw [hnative]
    exact hsplit
  · rw [hpacked, hvalue]
    exact hsplit
  · rw [hpacked, hvalue]
    exact hsplit

theorem intoVec_stored (hstore : ByteStored scheme) :
    (stored values scheme scales).intoVecI8WithParams scales.length = .ok (values, scales) := by
  have hsub : (subUsize (scales.length * 4) (4 * scales.length) : Res RudapackError Nat) = .ok 0 := by
    rw [Nat.mul_comm, subUsize, if_pos le_rfl, Nat.sub_self]
    rfl
  rw [intoVecI8WithParams, split_stored hstore, ok_bind]
  simp only
  rw [hsub, ok_bind]
  rfl

/-- One scale for a tensor, one for each of its blocks else. -/
def Matches (shape : List Nat) (scheme : QuantScheme) (scales : List UInt32) : Prop :=
  (paramsShape shape scheme.level >>= product) = .ok scales.length

theorem new_eq (h : Matches shape scheme scales) : new values scheme scales = .ok (stored values scheme scales) := by
  unfold new
  cases hlevel : scheme.level with
  | block sizes => rfl
  | tensor =>
    rw [Matches, hlevel] at h
    match scales with
    | [scale] => rfl
    | [] => exact nomatch (Except.ok.inj h : 1 = 0)
    | _ :: _ :: _ => exact nomatch Nat.succ.inj (Except.ok.inj h : 1 = _ + 1 + 1)

/-- Values and scales come back as they were stored, one byte for each value; by the floored number of
blocks where it is the number of scales; and the words of values come back for any values of eight bits. -/
theorem new_intoVec (values : List Int8) (scheme : QuantScheme) (scales : List UInt32) (shape : List Nat)
    (hstore : ByteStored scheme) (hshape : (product shape : Res RudapackError Nat) = .ok values.length) (hscales : Matches shape scheme scales) :
    (∃ q, new values scheme scales = .ok q ∧ q.intoVecI8WithShape shape = .ok (values, scales) ∧
        (q.flooredParams = .ok scales.length → q.intoVecI8 = .ok (values, scales))) ∧
      ∀ (v : List Int8) (value : QuantValue), value.sizeBits = 8 → unpackQToI8s 32 (packI8sToU32s v) v.length value = .ok v := by
  refine ⟨⟨_, new_eq hscales, ?_, fun hfloor => ?_⟩, fun v value => unpack_pack v⟩
  · rw [intoVecI8WithShape, hshape, ok_bind]
    obtain ⟨params, hparams, hproduct⟩ := bind_eq_ok.mp hscales
    have hcall : (stored values scheme scales).numElements = values.length := rfl
    have hscheme : (stored values scheme scales).scheme = scheme := rfl
    rw [hcall, if_pos rfl, hscheme, hparams, ok_bind, hproduct, ok_bind]
    exact intoVec_stored hstore
  · rw [intoVecI8, hfloor, ok_bind]
    exact intoVec_stored hstore

theorem new_intoVec_blocks :
    (∃ q, new [1, -2, 3] ⟨.q8s, .f32, .native, .block [2]⟩ [10, 20] = .ok q ∧ q.intoVecI8WithShape [3] = .ok ([1, -2, 3], [10, 20]) ∧
        (q.flooredParams = .ok 2 → q.intoVecI8 = .ok ([1, -2, 3], [10, 20]))) ∧
      ∀ (v : List Int8) (value : QuantValue), value.sizeBits = 8 → unpackQToI8s 32 (packI8sToU32s v) v.length value = .ok v :=
  new_intoVec [1, -2, 3] ⟨.q8s, .f32, .native, .block [2]⟩ [10, 20] [3] (.inl rfl) rfl rfl

/-- Values and scales as they are read with the shape, and without it. -/
def readBack (values : List Int8) (scheme : QuantScheme) (scales : List UInt32) (shape : List Nat) :
    Res RudapackError (List Int8 × List UInt32) × Res RudapackError (List Int8 × List UInt32) :=
  (new values scheme scales >>= (intoVecI8WithShape · shape), new values scheme scales >>= intoVecI8)

/-- Packed values of four bits are read from bytes that hold one value each, other packings are not read,
a block that is not full loses a scale, and words of eight bits are no words of four. -/
theorem readBack_differs :
    readBack [1, 2, 3, 4, 5, 6, 7, 0] ⟨.q4s, .f32, .packedU32 0, .tensor⟩ [10] [8] =
        (.ok ([1, 0, 2, 0, 3, 0, 4, 0], [10]), .ok ([1, 0, 2, 0, 3, 0, 4, 0], [10])) ∧
      readBack [1] ⟨.q8s, .f32, .packedNative 0, .tensor⟩ [10] [1] = (.error .panic, .error .panic) ∧
      readBack [1, 2, 3] ⟨.q8s, .f32, .native, .block [2]⟩ [10, 20] [3] = (.ok ([1, 2, 3], [10, 20]), .ok ([1, 2, 3], [20])) ∧
      unpackQToI8s 32 (packI8sToU32s [1, 2]) 2 .q4s = .ok [1, 0] :=
  ⟨rfl, rfl, rfl, rfl⟩

end QuantizedBytes

end Ruda.Tensor
