import Ruda.Lib.Ravel
import Ruda.Pytorch.LegacyStorage
import Ruda.Rudapack.Format
import Ruda.Tensor.ShapeReshape

/-!
# Rebuilding a tensor

A translation of the `_rebuild_tensor` calls of `pickle_reader/rebuild.rs` and of the closure
that loads the data of a tensor. The values of a tensor stand as their bits.
-/

namespace Ruda.Pytorch

open Rudapack (DType BoolStore)
open Tensor (usizeMul numElements)

-- Text

/-- A character that is not read to its end: its first byte, its bits so far and the bytes
still to come. -/
structure Partial where
  first : Option UInt8
  bits : Nat
  left : Nat

/-- Whether a byte continues a character; the second byte is bounded by the first. -/
def Partial.accepts (p : Partial) (b : UInt8) : Bool :=
  match p.first with
  | some 0xe0 => 0xa0 ≤ b && b ≤ 0xbf
  | some 0xed => 0x80 ≤ b && b ≤ 0x9f
  | some 0xf0 => 0x90 ≤ b && b ≤ 0xbf
  | some 0xf4 => 0x80 ≤ b && b ≤ 0x8f
  | _ => 0x80 ≤ b && b ≤ 0xbf

def replacement : Char := Char.ofNat 0xfffd

/-- A byte that starts a character, or none. -/
def startChar (b : UInt8) : Text × Option Partial :=
  if b < 0x80 then ([Char.ofNat b.toNat], none)
  else if 0xc2 ≤ b ∧ b ≤ 0xdf then ([], some ⟨some b, b.toNat % 0x20, 1⟩)
  else if 0xe0 ≤ b ∧ b ≤ 0xef then ([], some ⟨some b, b.toNat % 0x10, 2⟩)
  else if 0xf0 ≤ b ∧ b ≤ 0xf4 then ([], some ⟨some b, b.toNat % 0x08, 3⟩)
  else ([replacement], none)

def lossyFrom : Option Partial → Bytes → Text
  | none, [] => []
  | some _, [] => [replacement]
  | none, b :: r => (startChar b).1 ++ lossyFrom (startChar b).2 r
  | some p, b :: r =>
    if p.accepts b then
      let bits := p.bits * 64 + b.toNat % 64
      if p.left = 1 then Char.ofNat bits :: lossyFrom none r else lossyFrom (some ⟨none, bits, p.left - 1⟩) r
    else replacement :: ((startChar b).1 ++ lossyFrom (startChar b).2 r)

/-- `String::from_utf8_lossy` -/
def fromUtf8Lossy (bytes : Bytes) : Text := lossyFrom none bytes

def stripPrefix (p s : Text) : Option Text := if p.isPrefixOf s then some (s.drop p.length) else none

def stripSuffix (p s : Text) : Option Text := (stripPrefix p.reverse s.reverse).map List.reverse

/-- `trim_start_matches` with a text, at most `n` times. -/
def trimStartMatches (p : Text) : (n : Nat) → Text → Text
  | 0, s => s
  | n + 1, s =>
    match stripPrefix p s with
    | some s => trimStartMatches p n s
    | none => s

/-- `trim_matches` with a character. -/
def trimMatches (c : Char) (s : Text) : Text := ((s.dropWhile (· = c)).reverse.dropWhile (· = c)).reverse

/-- `split`, with at most `n` separators. -/
def splitAll (p : Text) : (n : Nat) → Text → List Text
  | 0, s => [s]
  | n + 1, s =>
    match Decimal.splitOnce p s with
    | some (part, s) => part :: splitAll p n s
    | none => [s]

-- Tensors

inductive TensorSnapshotError
  | dataError (message : String)
  deriving DecidableEq

theorem numElements_eq {ε : Type} {shape : List Nat} {n : Nat} (h : (numElements shape : Res ε Nat) = .ok n) : shape.prod = n := by
  by_cases hfits : Tensor.Fits 1 shape
  · exact Except.ok.inj ((Tensor.numElements_ok hfits).symm.trans h)
  · rw [Tensor.numElements_panic hfits] at h
    exact nomatch h

/-- As many values as the shape tells. -/
structure TensorData where
  dtype : DType
  shape : List Nat
  values : List Nat
  length_eq : values.length = shape.prod

/-- `TensorData::new`, with its assertion. -/
def TensorData.new {ε : Type} (dtype : DType) (values : List Nat) (shape : List Nat) : Res ε TensorData :=
  match h : (numElements shape : Res ε Nat) with
  | .ok n =>
    if hlen : n = values.length then .ok ⟨dtype, shape, values, hlen ▸ (numElements_eq h).symm⟩
    else .error .panic
  | .error e => .error e

/-- What the closure of a snapshot captures, but for the data source. -/
structure TensorSnapshot where
  dtype : DType
  shape : List Nat
  storageOffset : Nat
  dataFileKey : Text

/-- The types that the closure knows. -/
def supported : DType → Bool
  | .f32 | .f64 | .i64 | .i32 | .i16 | .i8 | .bool .native | .f16 | .bf16 | .u8 | .u16 | .u32 | .u64 => true
  | _ => false

/-- The value of an element's bytes. -/
def element (dtype : DType) (bytes : Bytes) : Nat :=
  match dtype with
  | .bool _ => if leValue bytes = 0 then 0 else 1
  | _ => leValue bytes

/-- The bytes of the `i`-th element. -/
def elementBytes (dtype : DType) (data : Bytes) (i : Nat) : Bytes := (data.drop (i * dtype.size)).take dtype.size

/-- Room for `n` values: no buffer has `2 ^ 63` bytes. -/
def withCapacity {ε : Type} (dtype : DType) (n : Nat) : Res ε Unit :=
  if n * dtype.size < 2 ^ 63 then .ok () else .error .panic

def zeros {ε : Type} (dtype : DType) (n : Nat) (shape : List Nat) : Res ε TensorData := do
  withCapacity dtype n
  TensorData.new dtype (List.replicate n 0) shape

/-- The elements of the data, and zeros up to `n` values. -/
def filled (dtype : DType) (dataSlice : Bytes) (n : Nat) : List Nat :=
  let elementsToRead := min n (dataSlice.length / dtype.size)
  (List.range elementsToRead).map (fun i => element dtype (elementBytes dtype dataSlice i)) ++
    List.replicate (n - elementsToRead) 0

def unsupported {α : Type} : Res TensorSnapshotError α :=
  .error (.err (.dataError "Unsupported dtype for tensor data reading: "))

/-- The closure, with the bytes that the data source gives or none where reading fails. -/
def TensorSnapshot.dataFn (t : TensorSnapshot) : Option Bytes → Res TensorSnapshotError TensorData
  | some data => do
    let n ← numElements t.shape
    let numElements := max n 1
    let offsetBytes ← usizeMul t.storageOffset t.dtype.size
    if offsetBytes ≥ data.length then zeros .f32 numElements t.shape
    else if supported t.dtype then do
      withCapacity t.dtype numElements
      TensorData.new t.dtype (filled t.dtype (data.drop offsetBytes) numElements) t.shape
    else unsupported
  | none => do
    let n ← numElements t.shape
    if supported t.dtype then zeros t.dtype (max n 1) t.shape else unsupported

-- Data sources

/-- The files of an archive with what reading each one gives, none where it fails. -/
inductive LazyDataSource
  | zip (files : List (Text × Option Bytes))
  | tar (storages : List (Text × Option Bytes))
  | legacyMultiStorage (source : LegacyMultiStorageSource) (file : Bytes)

namespace LazyDataSource

def contains : LazyDataSource → Text → Bool
  | zip files, key => files.any (·.1 = key)
  | tar storages, key => storages.any (·.1 = lastComponent key)
  | legacyMultiStorage .., _ => true

def keys : LazyDataSource → List Text
  | zip files => ((files.map Prod.fst).filter fun name => "data/".toList.isPrefixOf name || (Text.find "/data/".toList name).isSome).filter
      fun name => !".pkl".toList.isSuffixOf name && !"/".toList.isSuffixOf name
  | tar storages => storages.map Prod.fst
  | legacyMultiStorage .. => []

/-- None where reading fails. -/
def read : LazyDataSource → Text → Res Empty (Option Bytes)
  | zip files, key => .ok (files.lookup key).join
  | tar storages, key => .ok (storages.lookup (lastComponent key)).join
  | legacyMultiStorage source file, key =>
    match source.read file key with
    | .ok bytes => .ok (some bytes)
    | .error (.err _) => .ok none
    | .error .panic => .error .panic

/-- The file of a storage. -/
def dataFileKey (source : LazyDataSource) (storageKey : Text) : Text :=
  let exactKey := "data/".toList ++ storageKey
  if source.contains exactKey then exactKey
  else ((source.keys.find? fun key => ("/data/".toList ++ storageKey).isSuffixOf key ||
    ((Text.find "/data/".toList key).isSome && lastComponent key = storageKey))).getD exactKey

/-- The bytes used of a storage, by its element count or else by the tensor. -/
def bytesNeeded (dtype : DType) (total : Option Nat) (storageOffset : Nat) (shape : List Nat) : Res Empty Nat :=
  match total with
  | some total => usizeMul total dtype.size
  | none => do
    let n ← numElements shape
    let count ← addUsize storageOffset n
    usizeMul count dtype.size

/-- Only the legacy format tracks its storages. -/
def track (source : LazyDataSource) (storageKey : Text) (needed : Res Empty Nat) : Res Empty LazyDataSource :=
  match source with
  | legacyMultiStorage source file => do
    let needed ← needed
    let source ← source.trackStorageUsage ⟨storageKey, 0, needed⟩
    pure (legacyMultiStorage source file)
  | source => .ok source

end LazyDataSource

-- The calls

/-- `x as usize` -/
def asUsize (n : Int) : Nat := (n % 2 ^ 64).toNat

abbrev Arg := Object TensorSnapshot

def storageTypeToDtype (storageType : String) : Res PickleError DType :=
  match storageType with
  | "FloatStorage" => .ok .f32
  | "DoubleStorage" => .ok .f64
  | "HalfStorage" => .ok .f16
  | "BFloat16Storage" => .ok .bf16
  | "LongStorage" => .ok .i64
  | "IntStorage" => .ok .i32
  | "ShortStorage" => .ok .i16
  | "CharStorage" => .ok .i8
  | "ByteStorage" => .ok .u8
  | "BoolStorage" => .ok (.bool .native)
  | _ => .error (.err (.invalidData s!"Unknown storage type: {storageType}"))

def invalidData {α : Type} (message : String) : Res PickleError α := .error (.err (.invalidData message))

def parseStorageArg (fnName : String) : Arg → Res PickleError (Bytes × Option (List Arg))
  | .persistent data => .ok (data, none)
  | .persistentTuple tuple | .tuple tuple => .ok ([], some tuple)
  | _ => invalidData s!"{fnName}: expected persistent id got "

def parseDim : Arg → Res PickleError Nat
  | .int i => .ok (asUsize i)
  | _ => invalidData "shape must contain ints"

def parseShapeArg (fnName : String) : Arg → Res PickleError (List Nat)
  | .tuple shape => shape.mapM parseDim
  | _ => invalidData s!"{fnName}: expected shape tuple got "

def storageTypeName : Arg → Res PickleError String
  | .string s => .ok s
  | .cls _ name => .ok name
  | _ => invalidData "Expected storage type as String or Class, got "

def storageKeyOf : Arg → Res PickleError String
  | .string s => .ok s
  | _ => invalidData "Expected storage key as String, got "

/-- Type, key and element count of a storage. -/
structure StorageId where
  dtype : DType
  key : Text
  total : Option Nat

def totalOf : Option Arg → Option Nat
  | some (.int n) => some (asUsize n)
  | _ => none

/-- A storage named by a tuple. -/
def storageOfTuple (tuple : List Arg) : Res PickleError StorageId :=
  match tuple with
  | _ :: kind :: key :: rest => do
    let storageType ← storageTypeName kind
    let dtype ← storageTypeToDtype storageType
    let key ← storageKeyOf key
    pure ⟨dtype, key.toList, totalOf rest[1]?⟩
  | _ => invalidData s!"Storage tuple too short, expected at least 3 elements, got {tuple.length}"

/-- A part of the text of a tuple. -/
def tuplePart (s : Text) : Text :=
  let trimmed := trimMatches '"' s
  ((stripPrefix "Object::String(\"".toList trimmed).bind (stripSuffix "\")".toList)).getD trimmed

/-- A storage named by the text of a tuple. -/
def storageOfText (info : Bytes) : Res PickleError StorageId :=
  let text := fromUtf8Lossy info
  if "Tuple(".toList.isPrefixOf text then
    let inner := ((trimStartMatches "Tuple(".toList text.length text).reverse.dropWhile (· = ')')).reverse
    match (splitAll ", ".toList inner.length inner).map tuplePart with
    | _ :: kind :: key :: _ => do
      let dtype ← storageTypeToDtype (String.ofList kind)
      pure ⟨dtype, key, none⟩
    | parts => invalidData s!"Storage info tuple too short, expected at least 3 parts, got {parts.length}"
  else invalidData s!"Invalid storage info format: {String.ofList text}"

def storageOf (info : Bytes) (storageTuple : Option (List Arg)) : Res PickleError StorageId :=
  match storageTuple with
  | some tuple => storageOfTuple tuple
  | none => if info ≠ [] then storageOfText info else invalidData "No storage information available"

/-- A panic of a call that returns no error. -/
def orPanic {ε α : Type} : Res Empty α → Res ε α
  | .ok a => .ok a
  | .error _ => .error .panic

/-- The tensor, and the data source after it was tracked. -/
def rebuildTensorImpl (storageInfo : Bytes) (storageTuple : Option (List Arg)) (storageOffset : Nat) (shape : List Nat)
    (dataSource : Option LazyDataSource) : Res PickleError (TensorSnapshot × LazyDataSource) := do
  let storage ← storageOf storageInfo storageTuple
  let dataSource ← okOr dataSource (PickleError.invalidData "Cannot load tensor data without a data source")
  let dataFileKey := dataSource.dataFileKey storage.key
  let dataSource ← orPanic (dataSource.track storage.key (LazyDataSource.bytesNeeded storage.dtype storage.total storageOffset shape))
  pure (⟨storage.dtype, shape, storageOffset, dataFileKey⟩, dataSource)

def storageOffsetOf : Arg → Nat
  | .int offset => asUsize offset
  | _ => 0

/-- Both calls: their names, and the fewest arguments of each. -/
def rebuildWith (fnName : String) (least : Nat) (args : Arg) (dataSource : Option LazyDataSource) :
    Res PickleError (TensorSnapshot × LazyDataSource) :=
  match args with
  | .tuple args =>
    if args.length < least then invalidData s!"{fnName}: expected at least {least} args, got {args.length}"
    else match args with
      | storage :: offset :: shape :: _ => do
        let info ← parseStorageArg fnName storage
        let shape ← parseShapeArg fnName shape
        rebuildTensorImpl info.1 info.2 (storageOffsetOf offset) shape dataSource
      | _ => .error .panic
  | _ => invalidData s!"{fnName}: expected tuple got "

/-- The calls of versions before 1.6. -/
def rebuildTensor (args : Arg) (dataSource : Option LazyDataSource) : Res PickleError (TensorSnapshot × LazyDataSource) :=
  rebuildWith "rebuild_tensor" 4 args dataSource

/-- The arguments from the stride on are not used. -/
def rebuildTensorV2 (args : Arg) (dataSource : Option LazyDataSource) : Res PickleError (TensorSnapshot × LazyDataSource) :=
  rebuildWith "rebuild_tensor_v2" 5 args dataSource

end Ruda.Pytorch
