import Ruda.Rudapack.Reader

/-!
# Writing Rudapack files

This is a translation of `ruda-store/src/rudapack/writer.rs` and of `data_len` in
`ruda-store/src/tensor_snapshot.rs`. The CBOR encoder is a parameter. A file is the list
of the bytes written to it.
-/

namespace Ruda.Rudapack

-- Data lengths

/-- `shape.iter().product()` -/
def product (dims : List Nat) : Res Nat := dims.foldlM mulUsize 1

/-- `params_shape`; a block size of zero divides by zero. -/
def paramsShape (shape : List Nat) : QuantLevel → Res (List Nat)
  | .tensor => pure [1]
  | .block sizes =>
    let dims := List.replicate (shape.length - sizes.length) 1 ++ (sizes.take shape.length).map UInt8.toNat
    (shape.zip dims).mapM fun d => if d.2 = 0 then throw .panic else pure (divCeil d.1 d.2)

/-- `data_len` -/
def TensorSnapshot.dataLen (s : TensorSnapshot) : Res Nat := do
  let shape := s.shape.map UInt64.toNat
  let numElements ← product shape
  match s.dtype with
  | .qFloat scheme =>
    let valueBytes ← mulUsize (divCeil numElements scheme.numQuants) (scheme.sizeBitsStored / 8)
    let numParams ← product (← paramsShape shape scheme.level)
    let alignedValueBytes ← mulUsize (divCeil valueBytes 4) 4
    let scaleBytes ← mulUsize numParams (quantParamSize scheme.param)
    addUsize alignedValueBytes scaleBytes
  | dtype => mulUsize numElements dtype.size

-- Metadata

structure RudapackWriter where
  snapshots : List TensorSnapshot
  metadata : Std.ExtTreeMap String String compare

/-- One round of the loop of `build_metadata`: the tensors so far and where they end. -/
def describe (state : Tensors × Nat) (s : TensorSnapshot) : Res (Tensors × Nat) := do
  let (tensors, currentOffset) := state
  let dataLen ← s.dataLen
  let alignedStart ← mulUsize (divCeil currentOffset tensorAlignment) tensorAlignment
  let stop ← okOr (checkedAdd alignedStart dataLen)
    (.ioError s!"Tensor offset overflow: {alignedStart} + {dataLen} exceeds maximum")
  let descriptor : TensorDescriptor :=
    { dtype := s.dtype, shape := s.shape, dataOffsets := (.ofNat alignedStart, .ofNat stop), paramId := s.tensorId }
  pure (tensors.insert s.fullPath descriptor, stop)

namespace RudapackWriter

section Encoding

variable (encode : RudapackMetadata → Except String (List UInt8)) (w : RudapackWriter)

def buildMetadata : Res (RudapackMetadata × List UInt8) := do
  let (tensors, _) ← w.snapshots.foldlM describe (∅, 0)
  let metadata : RudapackMetadata := { tensors, metadata := w.metadata }
  match encode metadata with
  | .ok bytes => pure (metadata, bytes)
  | .error what => throw (.err (.ioError what))

def size : Res Nat := do
  let (metadata, metadataBytes) ← w.buildMetadata encode
  addUsize (alignedDataSectionStart metadataBytes.length) metadata.maxDataOffset

def header (metadataBytes : List UInt8) : Res RudapackHeader := do
  let size := metadataBytes.length
  failIf (size > u32Max) (.ioError s!"Metadata size {size} exceeds maximum of {u32Max} bytes")
  pure { magic := magicNumber, version := formatVersion, metadataSize := size }

end Encoding

/-- The data of a snapshot, if it is as long as was expected. -/
def dataOf (s : TensorSnapshot) : Res (List UInt8) := do
  let expectedLen ← s.dataLen
  match s.toData with
  | .error _ => throw (.err (.ioError "Failed to get tensor data"))
  | .ok data =>
    let actualLen := data.bytes.length
    let name := s.fullPath
    failIf (actualLen ≠ expectedLen)
      (.ioError s!"Data corruption: tensor '{name}' has inconsistent length (expected {expectedLen}, got {actualLen})")
    pure data.bytes

def descriptorOf (metadata : RudapackMetadata) (s : TensorSnapshot) : Res TensorDescriptor :=
  let name := s.fullPath
  okOr metadata.tensors[name]? (.ioError s!"Internal error: tensor '{name}' not found in metadata")

-- Writing into a buffer

/-- `buffer[offset..offset + bytes.len()].copy_from_slice(bytes)` -/
def copyTo (buffer : List UInt8) (offset : Nat) (bytes : List UInt8) : Res (List UInt8) :=
  if offset + bytes.length ≤ buffer.length then
    pure (buffer.take offset ++ bytes ++ buffer.drop (offset + bytes.length))
  else throw .panic

/-- Zeros up to `target`, if it is not reached yet. -/
def padTo (state : List UInt8 × Nat) (target : Nat) : Res (List UInt8 × Nat) :=
  if target > state.2 then do
    let buffer ← copyTo state.1 state.2 (List.replicate (target - state.2) 0)
    pure (buffer, target)
  else pure state

/-- One round of the loop of `write_into`. -/
def writeTensor (metadata : RudapackMetadata) (dataSectionStart : Nat) (state : List UInt8 × Nat) (s : TensorSnapshot) :
    Res (List UInt8 × Nat) := do
  let descriptor ← descriptorOf metadata s
  let (buffer, offset) ← padTo state (← addUsize dataSectionStart descriptor.dataOffsets.1.toNat)
  let data ← dataOf s
  let buffer ← copyTo buffer offset data
  pure (buffer, offset + data.length)

variable (encode : RudapackMetadata → Except String (List UInt8)) (w : RudapackWriter)

def writeInto (buffer : List UInt8) : Res (List UInt8) := do
  let (metadata, metadataBytes) ← w.buildMetadata encode
  let header ← header metadataBytes
  let dataSectionStart := alignedDataSectionStart metadataBytes.length
  let totalSize ← addUsize dataSectionStart metadata.maxDataOffset
  let len := buffer.length
  failIf (len < totalSize) (.ioError s!"Buffer too small: need {totalSize} bytes, got {len} bytes")
  let buffer ← copyTo buffer 0 header.intoBytes
  let buffer ← copyTo buffer headerSize metadataBytes
  let state ← padTo (buffer, headerSize + metadataBytes.length) dataSectionStart
  let (buffer, _) ← w.snapshots.foldlM (writeTensor metadata dataSectionStart) state
  pure buffer

def toBytes : Res (List UInt8) := do
  let size ← w.size encode
  w.writeInto encode (List.replicate size 0)

-- Writing to a file

/-- One round of the loop of `write_to_file`: the file and the position in the data. -/
def streamTensor (metadata : RudapackMetadata) (state : List UInt8 × Nat) (s : TensorSnapshot) : Res (List UInt8 × Nat) := do
  let (file, dataOffset) := state
  let descriptor ← descriptorOf metadata s
  let alignedOffset := descriptor.dataOffsets.1.toNat
  let (file, dataOffset) :=
    if alignedOffset > dataOffset then (file ++ List.replicate (alignedOffset - dataOffset) 0, alignedOffset)
    else (file, dataOffset)
  let data ← dataOf s
  pure (file ++ data, dataOffset + data.length)

/-- What `write_to_file` leaves in the file when it succeeds. -/
def writeToFile : Res (List UInt8) := do
  let (metadata, metadataBytes) ← w.buildMetadata encode
  let header ← header metadataBytes
  let file := header.intoBytes ++ metadataBytes
  let dataSectionStart := alignedDataSectionStart metadataBytes.length
  let file :=
    if dataSectionStart > headerSize + metadataBytes.length then
      file ++ List.replicate (dataSectionStart - (headerSize + metadataBytes.length)) 0
    else file
  let (file, _) ← w.snapshots.foldlM (streamTensor metadata) (file, 0)
  pure file

end RudapackWriter

end Ruda.Rudapack
