import Ruda.Gguf.Format

/-!
# Reading a GGUF file

The reader walks over the bytes of the file and hands on the position where it stands. An
array of arrays is read by nested calls; what ends the process when the stack has no room
for one more of them stands as a panic, as do the panics of arithmetic, of an index and of
a capacity.
-/

namespace Ruda.Gguf

structure Reader where
  content : List UInt8
  endian : GgufEndian
  pos : Nat

/-- `size_of::<GgufValue>()` on 64-bit targets. -/
def valueSize : Nat := 32

/-- `isize::MAX`, and `i64::MAX` for a file position. -/
def isizeMax : Nat := 2 ^ 63 - 1

/-- `Vec::with_capacity(count)` of elements of `size` bytes. -/
def withCapacity (count size : Nat) : Res Unit := if count * size ≤ isizeMax then pure () else throw .panic

/-- `String::from_utf8` -/
def decodeUtf8 (bytes : List UInt8) : Option String := String.fromUTF8? ⟨bytes.toArray⟩

/-- The fewest bytes that an element of an array takes. -/
def minimumBytes (elementType : Nat) : Option Nat :=
  if elementType ∈ [0, 1, 7] then some 1
  else if elementType ∈ [2, 3] then some 2
  else if elementType ∈ [4, 5, 6] then some 4
  else if elementType ∈ [8, 10, 11, 12] then some 8
  else if elementType = 9 then some 12
  else none

namespace GgufEndian

/-- `from_le_bytes` and `from_be_bytes` -/
def value : GgufEndian → List UInt8 → Nat
  | little, bytes => leValue bytes
  | big, bytes => leValue bytes.reverse

end GgufEndian

namespace Reader

def bytes (r : Reader) (n : Nat) : Res (List UInt8 × Reader) :=
  match getRange r.content r.pos (r.pos + n) with
  | some b => pure (b, { r with pos := r.pos + n })
  | none => throw (.err .io)

/-- The number in the next `n` bytes, in the order of the file. -/
def word (r : Reader) (n : Nat) : Res (Nat × Reader) := do
  let (b, r) ← r.bytes n
  pure (r.endian.value b, r)

def u8 (r : Reader) : Res (Nat × Reader) := r.word 1
def u16 (r : Reader) : Res (Nat × Reader) := r.word 2
def u32 (r : Reader) : Res (Nat × Reader) := r.word 4
def u64 (r : Reader) : Res (Nat × Reader) := r.word 8

def count (r : Reader) (count minimumBytes : Nat) : Res Nat := do
  let remaining := r.content.length - r.pos
  failIf (count > remaining / minimumBytes) (GgufError.invalid "GGUF count exceeds remaining file data")
  pure count

def string (r : Reader) : Res (String × Reader) := do
  let (count, r) ← r.u64
  let count ← r.count count 1
  let (bytes, r) ← r.bytes count
  let s ← okOr (decodeUtf8 bytes) GgufError.utf8
  pure (s, r)

/-- The values that are not arrays. -/
def scalar (ty : Nat) (r : Reader) : Res (GgufValue × Reader) :=
  match ty with
  | 0 => do let (v, r) ← r.u8; pure (.u8 (.ofNat v), r)
  | 1 => do let (v, r) ← r.u8; pure (.i8 (UInt8.ofNat v).toInt8, r)
  | 2 => do let (v, r) ← r.u16; pure (.u16 (.ofNat v), r)
  | 3 => do let (v, r) ← r.u16; pure (.i16 (UInt16.ofNat v).toInt16, r)
  | 4 => do let (v, r) ← r.u32; pure (.u32 (.ofNat v), r)
  | 5 => do let (v, r) ← r.u32; pure (.i32 (UInt32.ofNat v).toInt32, r)
  | 6 => do let (v, r) ← r.u32; pure (.f32 (.ofNat v), r)
  | 7 => do
    let (v, r) ← r.u8
    failIf (v ≠ 0 ∧ v ≠ 1) (GgufError.invalid "invalid GGUF boolean")
    pure (.bool (v = 1), r)
  | 8 => do let (v, r) ← r.string; pure (.string v, r)
  | 10 => do let (v, r) ← r.u64; pure (.u64 (.ofNat v), r)
  | 11 => do let (v, r) ← r.u64; pure (.i64 (UInt64.ofNat v).toInt64, r)
  | 12 => do let (v, r) ← r.u64; pure (.f64 (.ofNat v), r)
  | ty => throw (.err (.invalid s!"unknown GGUF metadata type {ty}"))

/-- The head of an array: its element type and the number of its elements. -/
def arrayHead (r : Reader) : Res ((Nat × Nat) × Reader) := do
  let (elementType, r) ← r.u32
  let minimumBytes ← okOr (minimumBytes elementType) (GgufError.invalid "invalid GGUF array element type")
  let (count, r) ← r.u64
  let count ← r.count count minimumBytes
  pure ((elementType, count), r)

/-- `values.push(self.value(element_type)?)` -/
def push (value : Reader → Res (GgufValue × Reader)) (state : List GgufValue × Reader) : Res (List GgufValue × Reader) := do
  let (v, r) ← value state.2
  pure (state.1 ++ [v], r)

/-- The stack has room for `stack` nested calls. -/
def value : (stack ty : Nat) → Reader → Res (GgufValue × Reader)
  | 0, _, _ => throw .panic
  | stack + 1, ty, r =>
    if ty = 9 then do
      let ((elementType, count), r) ← r.arrayHead
      withCapacity count valueSize
      let (values, r) ← times (push (value stack elementType)) count ([], r)
      pure (.array elementType values, r)
    else scalar ty r

end Reader

def isAscii (s : String) : Bool := s.toList.all fun c => decide (c.toNat < 128)

namespace GgufFile

/-- The order of the bytes and the version that the first bytes tell. -/
def readHead (content : List UInt8) : Res (Nat × Reader) := do
  let r : Reader := { content, endian := .little, pos := 0 }
  let (magic, r) ← r.bytes 4
  failIf (magic ≠ "GGUF".toUTF8.toList) (GgufError.invalid "not a GGUF file")
  let (version, r) ← r.bytes 4
  if leValue version = 2 ∨ leValue version = 3 then pure (leValue version, r)
  else do
    let v := leValue version.reverse
    failIf (v ≠ 3) (GgufError.invalid "unsupported GGUF version")
    pure (v, { r with endian := .big })

def readEntry (stack : Nat) (state : Metadata × Reader) : Res (Metadata × Reader) := do
  let (metadata, r) := state
  let (key, r) ← r.string
  failIf (key.utf8ByteSize > u16Max ∨ ¬isAscii key)
    (GgufError.invalid "GGUF metadata keys must be ASCII and at most 65535 bytes")
  let (ty, r) ← r.u32
  let (value, r) ← r.value stack ty
  failIf (key ∈ metadata) (GgufError.invalid "duplicate GGUF metadata key")
  pure (metadata.insert key value, r)

/-- `u32::is_power_of_two` -/
def isPowerOfTwo (n : Nat) : Bool := n ≠ 0 && n &&& (n - 1) == 0

def alignmentValue : GgufValue → Res Nat
  | .u32 value =>
    if isPowerOfTwo value.toNat then pure value.toNat
    else throw (.err (.invalid "GGUF alignment must be a nonzero power-of-two uint32"))
  | _ => throw (.err (.invalid "GGUF alignment must be a nonzero power-of-two uint32"))

def alignmentOf (metadata : Metadata) : Res Nat :=
  match metadata["general.alignment"]? with
  | some value => alignmentValue value
  | none => pure 32

def readDimension (state : List Nat × Reader) : Res (List Nat × Reader) := do
  let (dim, r) ← state.2.u64
  failIf (dim = 0) (GgufError.invalid "empty GGUF tensor dimension")
  pure (state.1 ++ [dim], r)

/-- The size of a tensor from `dimensions[0]` and `dimensions[1..]`. -/
def sizeOf (dtype : GgmlType) (dimensions : List Nat) : Res Nat :=
  match dimensions with
  | [] => throw .panic
  | width :: dims => do
    let rowBytes ← okOr (dtype.rowBytes width) (GgufError.invalid "GGUF row is not block aligned")
    okOr (dims.foldlM checkedMul rowBytes) (GgufError.invalid "GGUF tensor size overflow")

def readTensor (alignment : Nat) (state : TensorInfos × Reader) : Res (TensorInfos × Reader) := do
  let (tensors, r) := state
  let (name, r) ← r.string
  failIf (name.utf8ByteSize > 64) (GgufError.invalid "GGUF tensor name exceeds 64 bytes")
  let (rank, r) ← r.u32
  failIf (¬(1 ≤ rank ∧ rank ≤ 4)) (GgufError.invalid "GGUF tensor rank must be 1..=4")
  let (dimensions, r) ← times readDimension rank ([], r)
  let (id, r) ← r.u32
  let dtype ← okOr (GgmlType.fromId id) (GgufError.invalid s!"unsupported GGML type {id}")
  let byteLen ← sizeOf dtype dimensions
  let (offset, r) ← r.u64
  failIf (offset % alignment ≠ 0) (GgufError.invalid "unaligned GGUF tensor offset")
  failIf (name ∈ tensors) (GgufError.invalid "duplicate GGUF tensor name")
  pure (tensors.insert name { name, dimensions, dtype, offset, byteLen }, r)

/-- The first multiple of the alignment from a position on, by its bits. -/
def dataOffsetOf (position alignment : Nat) : Res Nat := do
  let up ← okOr (checkedAdd position (alignment - 1)) (GgufError.invalid "GGUF offset overflow")
  pure (up &&& (u64Max ^^^ (alignment - 1)))

/-- Where a tensor's bytes start and end. -/
def intervalOf (len dataOffset : Nat) (info : GgufTensorInfo) : Res (Nat × Nat) := do
  let start ← okOr (checkedAdd dataOffset info.offset) (GgufError.invalid "GGUF offset overflow")
  let stop ← okOr (checkedAdd start info.byteLen) (GgufError.invalid "GGUF size overflow")
  let name := info.name
  failIf (stop > len) (GgufError.invalid s!"truncated GGUF tensor {name}")
  pure (start, stop)

def sortIntervals (intervals : List (Nat × Nat)) : List (Nat × Nat) :=
  intervals.mergeSort fun a b => decide (toLex a ≤ toLex b)

/-- `windows(2).any(|pair| pair[0].1 > pair[1].0)` -/
def overlapping (intervals : List (Nat × Nat)) : Bool :=
  (intervals.zip intervals.tail).any fun pair => decide (pair.1.2 > pair.2.1)

/-- `tensors.values()` -/
def values (tensors : TensorInfos) : List GgufTensorInfo := tensors.toList.map Prod.snd

def openFile (stack : Nat) (path : String) (content : List UInt8) : Res GgufFile := do
  let (version, r) ← readHead content
  let (tensorsCount, r) ← r.u64
  let (metadataCount, r) ← r.u64
  let metadataCount ← r.count metadataCount 12
  let (metadata, r) ← times (readEntry stack) metadataCount (∅, r)
  let alignment ← alignmentOf metadata
  let tensorsCount ← r.count tensorsCount 32
  let (tensors, r) ← times (readTensor alignment) tensorsCount (∅, r)
  let dataOffset ← dataOffsetOf r.pos alignment
  let intervals ← (values tensors).mapM (intervalOf content.length dataOffset)
  failIf (overlapping (sortIntervals intervals)) (GgufError.invalid "overlapping GGUF tensor ranges")
  pure { path, version, endian := r.endian, metadata, tensors, dataOffset, file := content }

def architecture (f : GgufFile) : Res String :=
  okOr (f.metadata["general.architecture"]?.bind GgufValue.asStr) (.invalid "missing GGUF general.architecture")

def infoOf (f : GgufFile) (name : String) : Res GgufTensorInfo :=
  okOr f.tensors[name]? (.invalid s!"missing GGUF tensor {name}")

/-- `file.seek(SeekFrom::Start(start))` and `read_exact` of `n` bytes: no position is past
`i64::MAX`. -/
def readAt (file : List UInt8) (start n : Nat) : Res (List UInt8) := do
  failIf (start > isizeMax) GgufError.io
  if n = 0 then pure [] else okOr (getRange file start (start + n)) .io

def readPackedRows (f : GgufFile) (name : String) (rows : Nat × Nat) : Res (List UInt8) := do
  let info ← f.infoOf name
  let all ← info.rows
  failIf (rows.1 > rows.2 ∨ rows.2 > all) (GgufError.invalid "GGUF row range out of bounds")
  let rowBytes ← info.rowBytes
  let len ← mulUsize (rows.2 - rows.1) rowBytes
  withCapacity len 1
  let first ← mulUsize rows.1 rowBytes
  let base ← addUsize f.dataOffset info.offset
  let start ← addUsize base first
  readAt f.file start len

def readPacked (f : GgufFile) (name : String) : Res GgufPackedTensor := do
  let info ← f.infoOf name
  let rows ← info.rows
  let bytes ← f.readPackedRows name (0, rows)
  pure { info, endian := f.endian, bytes }

end GgufFile

end Ruda.Gguf
