import Ruda.Args.Metadata
import Ruda.Lib.Rows

/-!
# Metadata is read where it was written

The words that a sequence of registrations leaves behind, section by section, and
what every index function finds in them.
-/

namespace Ruda.Args

variable {w : Nat} {a : AddressType}

-- What is registered

structure Tensor where
  rank : BitVec 64
  shape : List (BitVec 64)
  strides : List (BitVec 64)
  deriving DecidableEq

/-- One argument: its lengths, and for a tensor its extents. -/
structure Registration where
  bufferLen : BitVec 64
  len : BitVec 64
  tensor : Option Tensor
  deriving DecidableEq

def MetadataBuilder.register (b : MetadataBuilder) (r : Registration) (a : AddressType) :
    MetadataBuilder :=
  match r.tensor with
  | none => b.registerArray r.bufferLen r.len a
  | some t => b.registerTensor t.rank r.bufferLen r.len t.shape t.strides a

def registerAll (calls : List (Registration × AddressType)) : MetadataBuilder :=
  calls.foldl (fun b call => b.register call.1 call.2) {}

/-- The arguments registered with address type `a`. -/
def argsOf (a : AddressType) (calls : List (Registration × AddressType)) : List Registration :=
  (calls.filter (·.2 = a)).map Prod.fst

def tensorsOf (args : List Registration) : List Tensor := args.filterMap Registration.tensor

/-- Where the extents of tensor `j` start. -/
def offsetAt (tensors : List Tensor) (j : Nat) : Nat := ((tensors.take j).flatMap Tensor.shape).length

/-- The state that `args` leave behind. -/
def stateOf (w : Nat) (args : List Registration) : State w where
  bufferLens := args.map fun r => r.bufferLen.setWidth w
  lengths := args.map fun r => r.len.setWidth w
  ranks := (tensorsOf args).map fun t => t.rank.setWidth w
  shapes := (tensorsOf args).flatMap fun t => t.shape.map (BitVec.setWidth w)
  strides := (tensorsOf args).flatMap fun t => t.strides.map (BitVec.setWidth w)
  offsets := (List.range (tensorsOf args).length).map (offsetAt (tensorsOf args))

theorem offsets_append (tensors : List Tensor) (t : Tensor) :
    (List.range (tensors ++ [t]).length).map (offsetAt (tensors ++ [t])) =
      (List.range tensors.length).map (offsetAt tensors) ++ [(tensors.flatMap Tensor.shape).length] := by
  rw [List.length_append, List.length_singleton, List.range_succ, List.map_append, List.map_singleton]
  congr 1
  · refine List.map_congr_left fun j hj => ?_
    rw [offsetAt, offsetAt, List.take_append_of_le_length (List.mem_range.mp hj).le]
  · rw [offsetAt, List.take_left]

theorem stateOf_array (args : List Registration) (r : Registration) (h : r.tensor = none) :
    stateOf w (args ++ [r]) = (stateOf w args).registerArray r.bufferLen r.len := by
  have htensors : tensorsOf (args ++ [r]) = tensorsOf args := by simp [tensorsOf, h]
  simp [stateOf, State.registerArray, htensors]

theorem stateOf_tensor (args : List Registration) (r : Registration) (t : Tensor)
    (h : r.tensor = some t) : stateOf w (args ++ [r]) =
      (stateOf w args).registerTensor t.rank r.bufferLen r.len t.shape t.strides := by
  have htensors : tensorsOf (args ++ [r]) = tensorsOf args ++ [t] := by simp [tensorsOf, h]
  have hshapes : (stateOf w args).shapes.length = ((tensorsOf args).flatMap Tensor.shape).length := by
    simp [stateOf, List.length_flatMap]
  simp only [stateOf] at hshapes
  simp only [stateOf, State.registerTensor, htensors, offsets_append, hshapes, List.map_append,
    List.map_singleton, List.flatMap_append, List.flatMap_singleton]

theorem registerAll_append (calls : List (Registration × AddressType)) (call : Registration × AddressType) :
    registerAll (calls ++ [call]) = (registerAll calls).register call.1 call.2 := by
  simp [registerAll]

theorem registerAll_eq (calls : List (Registration × AddressType)) :
    registerAll calls =
      { state32 := stateOf 32 (argsOf .u32 calls), state64 := stateOf 64 (argsOf .u64 calls) } := by
  induction calls using List.reverseRecOn with
  | nil => rfl
  | append_singleton calls call ih =>
    obtain ⟨r, a⟩ := call
    rw [registerAll_append, ih]
    cases ht : r.tensor with
    | none =>
      cases a <;>
        simp [MetadataBuilder.register, ht, MetadataBuilder.registerArray, argsOf, stateOf_array]
    | some t =>
      cases a <;>
        simp [MetadataBuilder.register, ht, MetadataBuilder.registerTensor, argsOf, stateOf_tensor]

-- What is written

variable {σ : Type} {s : σ} {E : Fault → σ → Prop}

theorem put_ok {bytes : List UInt8} {c : Cursor} (h : bytes.length ≤ c.2.length) :
    Triple (put bytes c) s (fun c' s' => s' = s ∧ c' = (c.1 ++ bytes, c.2.drop bytes.length)) E :=
  Triple.ite (fun _ => Triple.pure' ⟨rfl, rfl⟩) fun hno => absurd h hno

theorem putOffsets_ok {base : Nat} {offsets : List Nat} {c : Cursor}
    (hfit : ∀ o ∈ offsets, base + o < 2 ^ w) (h : offsets.length * (w / 8) ≤ c.2.length) :
    Triple (putOffsets w base offsets c) s
      (fun c' s' => s' = s ∧ c' = (c.1 ++ wordsBytes (w / 8) (offsets.map (base + ·)),
        c.2.drop (offsets.length * (w / 8)))) E := by
  induction offsets generalizing c with
  | nil => exact Triple.pure' ⟨rfl, by simp [wordsBytes]⟩
  | cons o offsets ih =>
    have ho := hfit o (by simp)
    have hword : castSlice [BitVec.ofNat w (base + o)] = leBytes (w / 8) (base + o) := by
      simp [castSlice, wordsBytes, Nat.mod_eq_of_lt ho]
    rw [List.length_cons, Nat.succ_mul] at h
    unfold putOffsets wordFrom
    rw [if_pos ho]
    refine Triple.pure_bind (Triple.bind (put_ok ?_) ?_)
    · rw [hword, leBytes_length]
      omega
    rintro c' s' ⟨rfl, rfl⟩
    refine (ih (fun o' ho' => hfit o' (by simp [ho'])) ?_).mono ?_ fun _ _ he => he
    · simp only [hword, leBytes_length, List.length_drop]
      omega
    rintro c'' s'' ⟨rfl, rfl⟩
    refine ⟨rfl, ?_⟩
    rw [hword, leBytes_length, List.drop_drop, List.length_cons, Nat.succ_mul, Nat.add_comm (w / 8)]
    simp [wordsBytes]

/-- The words of the fixed part, section by section. -/
def State.staticWords (s : State w) : List Nat :=
  s.bufferLens.map BitVec.toNat ++ s.lengths.map BitVec.toNat ++ s.ranks.map BitVec.toNat ++
    s.offsets ++ s.offsets.map (s.shapes.length + ·)

def State.dynamicWords (s : State w) : List Nat :=
  s.shapes.map BitVec.toNat ++ s.strides.map BitVec.toNat

theorem finishInner_ok {s : State w} {out : List UInt8 × List UInt8}
    (hstatic : s.staticWords.length * (w / 8) ≤ out.1.length)
    (hdynamic : s.dynamicWords.length * (w / 8) ≤ out.2.length)
    (hfit : ∀ o ∈ s.offsets, s.shapes.length + o < 2 ^ w) :
    Triple (finishInner out) s (fun result s' => s' = {} ∧
      (∃ rest, result.1 = wordsBytes (w / 8) s.staticWords ++ rest) ∧
      ∃ rest, result.2 = wordsBytes (w / 8) s.dynamicWords ++ rest) (fun _ _ => False) := by
  simp only [State.staticWords, State.dynamicWords, List.length_append, List.length_map,
    Nat.add_mul] at hstatic hdynamic
  have hlen : ∀ words : List (BitVec w), (castSlice words).length = words.length * (w / 8) := by
    simp [castSlice]
  have hzero : ∀ o ∈ s.offsets, 0 + o < 2 ^ w := fun o ho => by
    have := hfit o ho
    omega
  unfold finishInner
  refine Triple.get_bind (Triple.bind (put_ok ?_) ?_)
  · simp only [hlen]
    omega
  rintro _ _ ⟨rfl, rfl⟩
  refine Triple.bind (put_ok ?_) ?_
  · simp only [hlen, List.length_drop]
    omega
  rintro _ _ ⟨rfl, rfl⟩
  refine Triple.bind (put_ok ?_) ?_
  · simp only [hlen, List.length_drop]
    omega
  rintro _ _ ⟨rfl, rfl⟩
  refine Triple.set_bind (Triple.bind (putOffsets_ok hzero ?_) ?_)
  · simp only [hlen, List.length_drop]
    omega
  rintro _ _ ⟨rfl, rfl⟩
  refine Triple.bind (putOffsets_ok hfit ?_) ?_
  · simp only [hlen, List.length_drop]
    omega
  rintro _ _ ⟨rfl, rfl⟩
  refine Triple.modify_bind (Triple.bind (put_ok ?_) ?_)
  · simp only [hlen]
    omega
  rintro _ _ ⟨rfl, rfl⟩
  refine Triple.bind (put_ok ?_) ?_
  · simp only [hlen, List.length_drop]
    omega
  rintro _ _ ⟨rfl, rfl⟩
  refine Triple.modify_bind (Triple.pure' ⟨rfl, ⟨_, congrArg₂ (· ++ ·) ?_ rfl⟩,
    ⟨_, congrArg₂ (· ++ ·) ?_ rfl⟩⟩)
  · simp only [State.staticWords, wordsBytes_append, castSlice, List.nil_append, Nat.zero_add,
      List.map_id']
  · simp only [State.dynamicWords, wordsBytes_append, castSlice, List.nil_append]

-- What is read

/-- Every value fits the address type, and positions fit the index arithmetic. -/
structure Fits (a : AddressType) (args : List Registration) : Prop where
  lengths : ∀ r ∈ args, r.bufferLen.toNat < 2 ^ a.bits ∧ r.len.toNat < 2 ^ a.bits
  extents : ∀ t ∈ tensorsOf args, t.rank.toNat < 2 ^ a.bits ∧
    ∀ v ∈ t.shape ++ t.strides, v.toNat < 2 ^ a.bits
  indices : args.length * 2 + (tensorsOf args).length * 3 < 2 ^ 32
  offsets : 2 * ((tensorsOf args).flatMap Tensor.shape).length < 2 ^ a.bits

/-- Strides come with the shape they belong to. -/
def Matched (args : List Registration) : Prop :=
  ∀ t ∈ tensorsOf args, t.strides.length = t.shape.length

instance (args : List Registration) : Decidable (Matched args) :=
  inferInstanceAs (Decidable (∀ t ∈ tensorsOf args, t.strides.length = t.shape.length))

/-- What the compiled kernel finds in the two buffers. -/
structure Decodes (a : AddressType) (args : List Registration) (m : Metadata)
    (sized dynamic : List UInt8) : Prop where
  lengths : ∀ i r, args[i]? = some r →
    readWord a.size sized (m.bufferLenIndex i) = r.bufferLen.toNat ∧
      readWord a.size sized (m.lenIndex i) = r.len.toNat
  extents : ∀ j t, (tensorsOf args)[j]? = some t →
    readWord a.size sized (m.rankIndex j) = t.rank.toNat ∧
      (∀ d v, t.shape[d]? = some v →
        readWord a.size dynamic (readWord a.size sized (m.shapeOffsetIndex j) + d) = v.toNat) ∧
      ∀ d v, t.strides[d]? = some v →
        readWord a.size dynamic (readWord a.size sized (m.strideOffsetIndex j) + d) = v.toNat
  /-- Every index is used once. -/
  static : (List.range args.length).map m.bufferLenIndex ++ (List.range args.length).map m.lenIndex ++
    (List.range (tensorsOf args).length).map m.rankIndex ++
    (List.range (tensorsOf args).length).map m.shapeOffsetIndex ++
    (List.range (tensorsOf args).length).map m.strideOffsetIndex = List.range m.staticLen
  /-- Shapes come before strides, and each tensor before the next. -/
  apart : ∀ j t k u, (tensorsOf args)[j]? = some t → (tensorsOf args)[k]? = some u →
    readWord a.size sized (m.shapeOffsetIndex j) + t.shape.length ≤
      readWord a.size sized (m.strideOffsetIndex k) ∧
    (j < k → readWord a.size sized (m.shapeOffsetIndex j) + t.shape.length ≤
        readWord a.size sized (m.shapeOffsetIndex k) ∧
      readWord a.size sized (m.strideOffsetIndex j) + t.strides.length ≤
        readWord a.size sized (m.strideOffsetIndex k))

theorem AddressType.pow_size (a : AddressType) : 256 ^ a.size = 2 ^ a.bits := by
  rw [bits, Nat.pow_mul]

section
variable {m : Metadata} (h : m.numMeta * 2 + m.numExtendedMeta * 3 < 2 ^ 32)
include h

theorem Metadata.staticLen_eq : m.staticLen = m.numMeta * 2 + m.numExtendedMeta * 3 := by
  unfold staticLen wrap32
  omega

theorem Metadata.bufferLenIndex_eq {i : Nat} (hi : i < m.numMeta) : m.bufferLenIndex i = i := by
  unfold bufferLenIndex offsetOf wrap32
  omega

theorem Metadata.lenIndex_eq {i : Nat} (hi : i < m.numMeta) : m.lenIndex i = m.numMeta + i := by
  unfold lenIndex offsetOf wrap32
  omega

theorem Metadata.rankIndex_eq {j : Nat} (hj : j < m.numExtendedMeta) :
    m.rankIndex j = m.numMeta * 2 + j := by
  unfold rankIndex offsetOfExtended baseLen wrap32
  omega

theorem Metadata.shapeOffsetIndex_eq {j : Nat} (hj : j < m.numExtendedMeta) :
    m.shapeOffsetIndex j = m.numMeta * 2 + m.numExtendedMeta + j := by
  unfold shapeOffsetIndex offsetOfExtended baseLen wrap32
  omega

theorem Metadata.strideOffsetIndex_eq {j : Nat} (hj : j < m.numExtendedMeta) :
    m.strideOffsetIndex j = m.numMeta * 2 + m.numExtendedMeta * 2 + j := by
  unfold strideOffsetIndex offsetOfExtended baseLen wrap32
  omega

theorem Metadata.indices_eq :
    (List.range m.numMeta).map m.bufferLenIndex ++ (List.range m.numMeta).map m.lenIndex ++
    (List.range m.numExtendedMeta).map m.rankIndex ++
    (List.range m.numExtendedMeta).map m.shapeOffsetIndex ++
    (List.range m.numExtendedMeta).map m.strideOffsetIndex = List.range m.staticLen := by
  have hshift : ∀ (n base : Nat) (f : Nat → Nat), (∀ i < n, f i = base + i) →
      (List.range n).map f = (List.range n).map (base + ·) := fun n base f hf =>
    List.map_congr_left fun i hi => hf i (List.mem_range.mp hi)
  rw [hshift _ 0 _ fun i hi => by rw [bufferLenIndex_eq h hi, Nat.zero_add],
    hshift _ _ _ fun i hi => lenIndex_eq h hi, hshift _ _ _ fun i hi => rankIndex_eq h hi,
    hshift _ _ _ fun i hi => shapeOffsetIndex_eq h hi,
    hshift _ _ _ fun i hi => strideOffsetIndex_eq h hi, staticLen_eq h]
  have hsum : m.numMeta * 2 + m.numExtendedMeta * 3 =
      m.numMeta + m.numMeta + m.numExtendedMeta + m.numExtendedMeta + m.numExtendedMeta := by omega
  rw [hsum]
  rw [List.range_add, List.range_add, List.range_add, List.range_add]
  simp only [Nat.zero_add, List.map_id', Nat.mul_two, Nat.add_assoc]

end

theorem offsetAt_le {tensors : List Tensor} {j k : Nat} {t : Tensor} (ht : tensors[j]? = some t)
    (hjk : j < k) : offsetAt tensors j + t.shape.length ≤ offsetAt tensors k := by
  obtain ⟨hj, rfl⟩ := List.getElem?_eq_some_iff.mp ht
  have hsucc : offsetAt tensors (j + 1) = offsetAt tensors j + tensors[j].shape.length := by
    rw [offsetAt, offsetAt, List.take_add_one, List.getElem?_eq_getElem hj, Option.toList_some,
      List.flatMap_append, List.flatMap_singleton, List.length_append]
  rw [← hsucc, offsetAt, offsetAt]
  have hprefix : tensors.take (j + 1) <+: tensors.take k :=
    List.take_prefix_take_left (Nat.succ_le_of_lt hjk)
  obtain ⟨rest, hrest⟩ := hprefix
  rw [← hrest, List.flatMap_append, List.length_append]
  exact Nat.le_add_right _ _

section
variable {args : List Registration}

theorem toNat_setWidth_of_lt {v : BitVec 64} (hv : v.toNat < 2 ^ w) : (v.setWidth w).toNat = v.toNat := by
  rw [BitVec.toNat_setWidth, Nat.mod_eq_of_lt hv]

theorem stateOf_shapes_length (w : Nat) (args : List Registration) :
    (stateOf w args).shapes.length = ((tensorsOf args).flatMap Tensor.shape).length := by
  simp [stateOf, List.length_flatMap]

theorem stateOf_offsets_get {j : Nat} (hj : j < (tensorsOf args).length) :
    (stateOf w args).offsets[j]? = some (offsetAt (tensorsOf args) j) := by
  simp [stateOf, List.getElem?_map, List.getElem?_range hj]

theorem offsetAt_le_total (args : List Registration) (j : Nat) :
    offsetAt (tensorsOf args) j ≤ ((tensorsOf args).flatMap Tensor.shape).length := by
  rw [offsetAt]
  conv_rhs => rw [← List.take_append_drop j (tensorsOf args), List.flatMap_append, List.length_append]
  exact Nat.le_add_right _ _

theorem staticWords_get (i : Nat) (r : Registration) (hr : args[i]? = some r) :
    (stateOf w args).staticWords[i]? = some (r.bufferLen.setWidth w).toNat ∧
      (stateOf w args).staticWords[args.length + i]? = some (r.len.setWidth w).toNat := by
  obtain ⟨hi, rfl⟩ := List.getElem?_eq_some_iff.mp hr
  simp only [State.staticWords, stateOf, List.append_assoc]
  constructor
  · rw [List.getElem?_append_left (by simpa using hi)]
    simp [hi]
  · rw [List.getElem?_append_right (by simp), List.getElem?_append_left (by simpa using hi)]
    simp [hi]

theorem staticWords_tensor (j : Nat) (t : Tensor) (ht : (tensorsOf args)[j]? = some t) :
    (stateOf w args).staticWords[args.length * 2 + j]? = some (t.rank.setWidth w).toNat ∧
      (stateOf w args).staticWords[args.length * 2 + (tensorsOf args).length + j]? =
        some (offsetAt (tensorsOf args) j) ∧
      (stateOf w args).staticWords[args.length * 2 + (tensorsOf args).length * 2 + j]? =
        some ((stateOf w args).shapes.length + offsetAt (tensorsOf args) j) := by
  obtain ⟨hj, rfl⟩ := List.getElem?_eq_some_iff.mp ht
  have hoffsets : (stateOf w args).offsets.length = (tensorsOf args).length := by simp [stateOf]
  have hlens : ((stateOf w args).bufferLens.map BitVec.toNat ++
      (stateOf w args).lengths.map BitVec.toNat).length = args.length * 2 := by
    simp only [stateOf, List.length_append, List.length_map]
    omega
  have hranks : ((stateOf w args).ranks.map BitVec.toNat).length = (tensorsOf args).length := by
    simp [stateOf]
  refine ⟨?_, ?_, ?_⟩
  · rw [State.staticWords, List.append_assoc, List.append_assoc,
      List.getElem?_append_right (by omega), hlens, Nat.add_sub_cancel_left,
      List.getElem?_append_left (by omega)]
    simp [stateOf, hj]
  · rw [State.staticWords, List.append_assoc, List.append_assoc, Nat.add_assoc,
      List.getElem?_append_right (by omega), hlens, Nat.add_sub_cancel_left,
      List.getElem?_append_right (by omega), hranks, Nat.add_sub_cancel_left,
      List.getElem?_append_left (by omega), stateOf_offsets_get hj]
  · have hsum : args.length * 2 + (tensorsOf args).length * 2 + j =
        args.length * 2 + ((tensorsOf args).length + ((tensorsOf args).length + j)) := by omega
    rw [State.staticWords, List.append_assoc, List.append_assoc, hsum,
      List.getElem?_append_right (by omega), hlens, Nat.add_sub_cancel_left,
      List.getElem?_append_right (by omega), hranks, Nat.add_sub_cancel_left,
      List.getElem?_append_right (by omega), hoffsets, Nat.add_sub_cancel_left, List.getElem?_map,
      stateOf_offsets_get hj, Option.map_some]

theorem dynamicWords_shape {j d : Nat} {t : Tensor} {v : BitVec 64}
    (ht : (tensorsOf args)[j]? = some t) (hv : t.shape[d]? = some v) :
    (stateOf w args).dynamicWords[offsetAt (tensorsOf args) j + d]? = some (v.setWidth w).toNat := by
  have hshape := getElem?_flatMap (fun t : Tensor => t.shape.map (BitVec.setWidth w)) ht
    (show (t.shape.map (BitVec.setWidth w))[d]? = some (v.setWidth w) by simp [hv])
  have hstart : (((tensorsOf args).take j).flatMap fun t => t.shape.map (BitVec.setWidth w)).length =
      offsetAt (tensorsOf args) j := by
    simp [offsetAt, List.length_flatMap]
  rw [hstart] at hshape
  have hget : (stateOf w args).shapes[offsetAt (tensorsOf args) j + d]? = some (v.setWidth w) := hshape
  obtain ⟨hlt, -⟩ := List.getElem?_eq_some_iff.mp hget
  rw [State.dynamicWords, List.getElem?_append_left (by simpa using hlt), List.getElem?_map, hget,
    Option.map_some]

theorem dynamicWords_strides {j d : Nat} {t : Tensor} {v : BitVec 64} (hm : Matched args)
    (ht : (tensorsOf args)[j]? = some t) (hv : t.strides[d]? = some v) :
    (stateOf w args).dynamicWords[(stateOf w args).shapes.length + offsetAt (tensorsOf args) j + d]? =
      some (v.setWidth w).toNat := by
  have hstrides := getElem?_flatMap (fun t : Tensor => t.strides.map (BitVec.setWidth w)) ht
    (show (t.strides.map (BitVec.setWidth w))[d]? = some (v.setWidth w) by simp [hv])
  -- strides are as long as shapes, so they start at the same offsets
  have hstart : (((tensorsOf args).take j).flatMap fun t => t.strides.map (BitVec.setWidth w)).length =
      offsetAt (tensorsOf args) j := by
    simp only [offsetAt, List.length_flatMap, List.length_map]
    congr 1
    exact List.map_congr_left fun t ht => hm t (List.mem_of_mem_take ht)
  rw [hstart] at hstrides
  have hget : (stateOf w args).strides[offsetAt (tensorsOf args) j + d]? = some (v.setWidth w) := hstrides
  rw [State.dynamicWords, List.getElem?_append_right (by simp; omega), List.length_map, Nat.add_assoc,
    Nat.add_sub_cancel_left, List.getElem?_map, hget, Option.map_some]

theorem decodes_of_words {sized dynamic rest more : List UInt8} (hfit : Fits a args)
    (hm : Matched args) (hsized : sized = wordsBytes a.size (stateOf a.bits args).staticWords ++ rest)
    (hdynamic : dynamic = wordsBytes a.size (stateOf a.bits args).dynamicWords ++ more) :
    Decodes a args ⟨args.length, (tensorsOf args).length⟩ sized dynamic := by
  have hread : ∀ {i v}, (stateOf a.bits args).staticWords[i]? = some v → v < 2 ^ a.bits →
      readWord a.size sized i = v := fun hv hlt => by
    rw [hsized]
    exact readWord_wordsBytes hv (a.pow_size ▸ hlt)
  have hextent : ∀ {i : Nat} {v : BitVec 64}, v.toNat < 2 ^ a.bits →
      (stateOf a.bits args).dynamicWords[i]? = some (v.setWidth a.bits).toNat →
      readWord a.size dynamic i = v.toNat := fun hlt hv => by
    rw [toNat_setWidth_of_lt hlt] at hv
    rw [hdynamic]
    exact readWord_wordsBytes hv (a.pow_size ▸ hlt)
  have htotal := hfit.offsets
  have hshape : ∀ j t, (tensorsOf args)[j]? = some t → readWord a.size sized
      (Metadata.shapeOffsetIndex ⟨args.length, (tensorsOf args).length⟩ j) =
        offsetAt (tensorsOf args) j := fun j t ht => by
    have hj := (List.getElem?_eq_some_iff.mp ht).1
    have hle := offsetAt_le_total args j
    rw [Metadata.shapeOffsetIndex_eq hfit.indices hj]
    exact hread (staticWords_tensor j t ht).2.1 (by omega)
  have hstride : ∀ j t, (tensorsOf args)[j]? = some t → readWord a.size sized
      (Metadata.strideOffsetIndex ⟨args.length, (tensorsOf args).length⟩ j) =
        (stateOf a.bits args).shapes.length + offsetAt (tensorsOf args) j := fun j t ht => by
    have hj := (List.getElem?_eq_some_iff.mp ht).1
    have hle := offsetAt_le_total args j
    have hlen := stateOf_shapes_length a.bits args
    rw [Metadata.strideOffsetIndex_eq hfit.indices hj]
    exact hread (staticWords_tensor j t ht).2.2 (by omega)
  refine ⟨fun i r hr => ?_, fun j t ht => ⟨?_, fun d v hv => ?_, fun d v hv => ?_⟩,
    Metadata.indices_eq hfit.indices, fun j t k u ht hu => ⟨?_, fun hjk => ?_⟩⟩
  · have hi := (List.getElem?_eq_some_iff.mp hr).1
    obtain ⟨hbuf, hlen⟩ := hfit.lengths r (List.mem_of_getElem? hr)
    obtain ⟨hget, hget'⟩ := staticWords_get (w := a.bits) i r hr
    rw [Metadata.bufferLenIndex_eq hfit.indices hi, Metadata.lenIndex_eq hfit.indices hi]
    rw [toNat_setWidth_of_lt hbuf] at hget
    rw [toNat_setWidth_of_lt hlen] at hget'
    exact ⟨hread hget hbuf, hread hget' hlen⟩
  · have hj := (List.getElem?_eq_some_iff.mp ht).1
    have hrank := (hfit.extents t (List.mem_of_getElem? ht)).1
    have hget := (staticWords_tensor (w := a.bits) j t ht).1
    rw [toNat_setWidth_of_lt hrank] at hget
    rw [Metadata.rankIndex_eq hfit.indices hj]
    exact hread hget hrank
  · rw [hshape j t ht]
    refine hextent ((hfit.extents t (List.mem_of_getElem? ht)).2 v ?_) (dynamicWords_shape ht hv)
    exact List.mem_append_left _ (List.mem_of_getElem? hv)
  · rw [hstride j t ht]
    refine hextent ((hfit.extents t (List.mem_of_getElem? ht)).2 v ?_) (dynamicWords_strides hm ht hv)
    exact List.mem_append_right _ (List.mem_of_getElem? hv)
  · have hend := offsetAt_le ht (List.getElem?_eq_some_iff.mp ht).1
    have hle := offsetAt_le_total args (tensorsOf args).length
    have hlen := stateOf_shapes_length a.bits args
    rw [hshape j t ht, hstride k u hu]
    omega
  · have hend := offsetAt_le ht hjk
    have hsame := hm t (List.mem_of_getElem? ht)
    rw [hshape j t ht, hshape k u hu, hstride j t ht, hstride k u hu]
    omega

theorem staticWords_length :
    (stateOf w args).staticWords.length = args.length * 2 + (tensorsOf args).length * 3 := by
  simp only [State.staticWords, stateOf, List.length_append, List.length_map, List.length_range]
  omega

theorem dynamicWords_length :
    (stateOf w args).dynamicWords.length =
      (stateOf w args).shapes.length + (stateOf w args).strides.length := by
  simp [State.dynamicWords]

theorem stateOf_offsets_fit (hfit : Fits a args) :
    ∀ o ∈ (stateOf a.bits args).offsets, (stateOf a.bits args).shapes.length + o < 2 ^ a.bits := by
  intro o ho
  obtain ⟨j, hj, rfl⟩ := List.mem_map.mp ho
  have hle := offsetAt_le_total args j
  have hlen := stateOf_shapes_length a.bits args
  have htotal := hfit.offsets
  omega

theorem packed_le (a : AddressType) (len : Nat) : len * a.size ≤ divCeil len (8 / a.size) * 8 := by
  cases a with
  | u32 =>
    have := (divCeil_le_iff (a := len) (b := 2) (by decide)).mp le_rfl
    show len * 4 ≤ divCeil len 2 * 8
    omega
  | u64 =>
    have := (divCeil_le_iff (a := len) (b := 1) (by decide)).mp le_rfl
    show len * 8 ≤ divCeil len 1 * 8
    omega

end

/-- Metadata of any mix of arrays and tensors is read where it was written. -/
theorem metadata_read_where_written {calls : List (Registration × AddressType)} (a : AddressType)
    (hm : Matched (argsOf a calls)) (hfit : Fits a (argsOf a calls)) :
    ∃ sized dynamic b, (MetadataBuilder.finishInfo a).exec (registerAll calls) = (.ok (sized, dynamic), b) ∧
      Decodes a (argsOf a calls) ⟨(argsOf a calls).length, (tensorsOf (argsOf a calls)).length⟩
        sized dynamic := by
  have hrun : Triple (MetadataBuilder.finishInfo a) (registerAll calls) (fun out _ =>
      (∃ rest, out.1 = wordsBytes a.size (stateOf a.bits (argsOf a calls)).staticWords ++ rest) ∧
      ∃ rest, out.2 = wordsBytes a.size (stateOf a.bits (argsOf a calls)).dynamicWords ++ rest)
      (fun _ _ => False) := by
    unfold MetadataBuilder.finishInfo MetadataBuilder.finish
    refine Triple.get_bind ?_
    rw [registerAll_eq]
    cases a with
    | u32 =>
      refine Triple.zoom ((finishInner_ok ?_ ?_ (stateOf_offsets_fit hfit)).mono (fun _ _ h => h.2)
        fun _ _ h => h)
      · rw [staticWords_length, List.length_replicate]
        refine (packed_le .u32 _).trans (le_of_eq ?_)
        simp [MetadataBuilder.staticLen, stateOf]
      · rw [dynamicWords_length, List.length_replicate]
        exact packed_le .u32 _
    | u64 =>
      refine Triple.zoom ((finishInner_ok ?_ ?_ (stateOf_offsets_fit hfit)).mono (fun _ _ h => h.2)
        fun _ _ h => h)
      · rw [staticWords_length, List.length_replicate]
        refine (packed_le .u64 _).trans (le_of_eq ?_)
        simp [MetadataBuilder.staticLen, stateOf]
      · rw [dynamicWords_length, List.length_replicate]
        exact packed_le .u64 _
  obtain ⟨⟨sized, dynamic⟩, b, hexec, ⟨rest, hsized⟩, more, hdynamic⟩ := hrun.exists_ok
  exact ⟨sized, dynamic, b, hexec, decodes_of_words hfit hm hsized hdynamic⟩

/-- An array between two tensors of different ranks. -/
def mixedCalls : List (Registration × AddressType) :=
  [(⟨6, 6, some ⟨2, [2, 3], [3, 1]⟩⟩, .u32), (⟨8, 5, none⟩, .u32), (⟨4, 4, some ⟨1, [4], [1]⟩⟩, .u32)]

theorem mixedCalls_fit : Fits .u32 (argsOf .u32 mixedCalls) := by
  refine ⟨by decide +kernel, fun t ht => ?_, by decide +kernel, by decide +kernel⟩
  have ht : t ∈ [⟨2, [2, 3], [3, 1]⟩, ⟨1, [4], [1]⟩] := ht
  simp only [List.mem_cons, List.not_mem_nil, or_false] at ht
  rcases ht with rfl | rfl
  · refine ⟨by decide +kernel, fun v hv => ?_⟩
    simp only [List.cons_append, List.nil_append, List.mem_cons, List.not_mem_nil, or_false] at hv
    rcases hv with rfl | rfl | rfl | rfl <;> decide +kernel
  · refine ⟨by decide +kernel, fun v hv => ?_⟩
    simp only [List.cons_append, List.nil_append, List.mem_cons, List.not_mem_nil, or_false] at hv
    rcases hv with rfl | rfl <;> decide +kernel

theorem metadata_read_where_written_mixed :
    ∃ sized dynamic b, (MetadataBuilder.finishInfo .u32).exec (registerAll mixedCalls) =
      (.ok (sized, dynamic), b) ∧
      Decodes .u32 (argsOf .u32 mixedCalls) ⟨3, 2⟩ sized dynamic :=
  metadata_read_where_written .u32 (by decide) mixedCalls_fit

/-- One array of `2 ^ 32` elements. -/
def longCalls : List (Registration × AddressType) := [(⟨4294967296#64, 4294967296#64, none⟩, .u32)]

/-- A length past `u32::MAX` is cut off in a `u32` layout. -/
theorem metadata_length_truncated : ¬∀ calls a, Matched (argsOf a calls) →
    ∃ sized dynamic b, (MetadataBuilder.finishInfo a).exec (registerAll calls) =
      (.ok (sized, dynamic), b) ∧ Decodes a (argsOf a calls)
        ⟨(argsOf a calls).length, (tensorsOf (argsOf a calls)).length⟩ sized dynamic := by
  intro h
  obtain ⟨sized, dynamic, b, hexec, hdec⟩ := h longCalls .u32 (by decide)
  have hout : ((MetadataBuilder.finishInfo .u32).exec (registerAll longCalls)).1 =
      .ok (List.replicate 8 0, []) := by decide +kernel
  rw [hexec, Except.ok.injEq, Prod.mk.injEq] at hout
  have hread := (hdec.lengths 0 ⟨4294967296#64, 4294967296#64, none⟩ rfl).1
  rw [hout.1] at hread
  have hzero : readWord 4 (List.replicate 8 0) (Metadata.bufferLenIndex ⟨1, 0⟩ 0) = 0 := by
    decide +kernel
  exact absurd (hzero.symm.trans hread) (by decide +kernel)

end Ruda.Args
