import Ruda.Rudapack.Format

/-!
# Reading Rudapack files

This is a translation of `ruda-store/src/rudapack/reader.rs` and of `Bytes::split` in
`ruda-core/src/bytes/base.rs`. The CBOR decoder is a parameter, and so is the source of
fresh parameter ids. A file is its content, and reading it does not fail for any reason
other than its end. The two conversions from `u64` to `usize` do nothing on a 64-bit target.
-/

namespace Ruda.Rudapack

-- Bytes

/-- `MAX_ALIGN` -/
def maxAlign : Nat := 16

/-- What holds the memory of a `Bytes`. -/
inductive Controller
  /-- A shared buffer or a memory map; it is split into views. -/
  | shared
  /-- Memory of the native allocator with this alignment. -/
  | native (align : Nat)
  deriving DecidableEq

/-- `Bytes`; no allocation is larger than `isize::MAX`. -/
structure Bytes where
  data : List UInt8
  controller : Controller
  small : data.length < 2 ^ 63

inductive SplitError
  | invalidOffset
  | unsupported
  deriving DecidableEq

/-- `Debug` -/
def SplitError.debug : SplitError → String
  | .invalidOffset => "InvalidOffset"
  | .unsupported => "Unsupported"

def Bytes.left (b : Bytes) (offset : Nat) (controller : Controller) : Bytes where
  data := b.data.take offset
  controller := controller
  small := (List.length_take_le' _ _).trans_lt b.small

def Bytes.right (b : Bytes) (offset : Nat) (controller : Controller) : Bytes where
  data := b.data.drop offset
  controller := controller
  small := by
    rw [List.length_drop]
    exact (Nat.sub_le _ _).trans_lt b.small

/-- `Bytes::split`; the length of the right part is computed before the offset is checked.
Native memory becomes a `Vec<u8>`, which needs an alignment of one, and its parts are then
aligned again. -/
def Bytes.split (b : Bytes) (offset : Nat) : Res (Except SplitError (Bytes × Bytes)) := do
  let _ ← subUsize b.data.length offset
  match b.controller with
  | .shared =>
    if offset > b.data.length then pure (.error .invalidOffset)
    else pure (.ok (b.left offset .shared, b.right offset .shared))
  | .native align =>
    if align ≠ 1 then pure (.error .unsupported)
    else if offset > b.data.length then throw .panic
    else pure (.ok (b.left offset (.native maxAlign), b.right offset (.native maxAlign)))

-- Storage

inductive StorageBackend
  | memory (data : Bytes)
  | fileBuffered (content : List UInt8)

/-- `read_into`, given the length of the buffer. -/
def StorageBackend.readInto (storage : StorageBackend) (len offset : Nat) : Res (List UInt8) :=
  match storage with
  | .memory data => do
    let stop ← okOr (checkedAdd offset len) (.ioError s!"Offset overflow: offset {offset} + length {len} exceeds maximum")
    let size := data.data.length
    failIf (stop > size) (.ioError s!"Read out of bounds: requested {offset}..{stop} but data length is {size}")
    slice data.data offset stop
  | .fileBuffered content => do
    failIf (offset ≥ 2 ^ 63) (.ioError "Failed to seek in file: invalid argument")
    -- `read_exact` of nothing reads nothing, wherever the file is at
    failIf (0 < len ∧ content.length < offset + len) (.ioError "Failed to read from file: failed to fill whole buffer")
    pure ((content.drop offset).take len)

/-- `slice_bytes` -/
def StorageBackend.sliceBytes (storage : StorageBackend) (start stop : Nat) : Res (List UInt8) := do
  failIf (stop < start) (.ioError s!"Invalid slice range: end ({stop}) < start ({start})")
  match storage with
  | .memory data =>
    match ← data.split start with
    | .error e =>
      let what := e.debug
      throw (.err (.ioError s!"Failed to split at start {start}: {what}"))
    | .ok (_, right) =>
      let sliceLen ← subUsize stop start
      match ← right.split sliceLen with
      | .error e =>
        let what := e.debug
        throw (.err (.ioError s!"Failed to split at length {sliceLen}: {what}"))
      | .ok (middle, _) => pure middle.data
  | .fileBuffered _ => throw (.err (.ioError "Zero-copy not supported for buffered file reading. Use from_file() with memmap feature for zero-copy loading."))

-- Opening

structure RudapackReader where
  metadata : RudapackMetadata
  storage : StorageBackend
  dataOffset : Nat

section Opening

variable (decode : List UInt8 → Except String RudapackMetadata)

/-- The checks of the header after its magic number. -/
def checkHeader (header : RudapackHeader) : Res Unit := do
  failIf (header.version > formatVersion) .invalidVersion
  let size := header.metadataSize
  failIf (size > maxMetadataSize)
    (.validationError s!"Metadata size {size} exceeds maximum allowed size of {maxMetadataSize} bytes (potential DoS attack)")

def decodeMetadata (bytes : List UInt8) : Res RudapackMetadata :=
  match decode bytes with
  | .ok metadata => pure metadata
  | .error what => throw (.err (.metadataDeserializationError what))

/-- The tensor count, and that all tensor data fits after the metadata. -/
def checkTensors (metadata : RudapackMetadata) (metadataEnd len : Nat) : Res Unit := do
  let count := metadata.tensors.size
  failIf (count > maxTensorCount)
    (.validationError s!"File contains {count} tensors, exceeding maximum of {maxTensorCount} (potential DoS attack)")
  if metadata.tensors.isEmpty then pure ()
  else do
    let minFileSize ← okOr (checkedAdd metadataEnd metadata.maxDataOffset) (.validationError "File size calculation overflow")
    failIf (len < minFileSize)
      (.validationError s!"File truncated: expected at least {minFileSize} bytes, got {len} bytes")

/-- What `from_bytes` and `from_file_mmap` do with the bytes: the metadata and where the
data section starts. -/
def parse (bytes : List UInt8) : Res (RudapackMetadata × Nat) := do
  failIf (bytes.length < headerSize) .invalidHeader
  let header ← RudapackHeader.fromBytes (bytes.take headerSize)
  failIf (header.magic ≠ magicNumber) .invalidMagicNumber
  checkHeader header
  let metadataEnd ← okOr (checkedAdd headerSize header.metadataSize) (.ioError "Metadata size overflow")
  failIf (bytes.length < metadataEnd) .invalidHeader
  let metadata ← decodeMetadata decode (← slice bytes headerSize metadataEnd)
  checkTensors metadata metadataEnd bytes.length
  pure (metadata, alignedDataSectionStart header.metadataSize)

def fromBytes (bytes : Bytes) : Res RudapackReader := do
  let (metadata, dataOffset) ← parse decode bytes.data
  pure { metadata, storage := .memory bytes, dataOffset }

def fileTooLarge (size : Nat) : RudapackError :=
  .validationError s!"File size {size} bytes exceeds maximum allowed size of {maxFileSize} bytes"

def fromFileMmap (content : List UInt8) : Res RudapackReader :=
  if h : content.length ≤ maxFileSize then do
    let (metadata, dataOffset) ← parse decode content
    let mmap : Bytes := { data := content, controller := .shared, small := h.trans_lt (by decide) }
    pure { metadata, storage := .memory mmap, dataOffset }
  else throw (.err (fileTooLarge content.length))

def fromFileBuffered (content : List UInt8) : Res RudapackReader := do
  failIf (content.length > maxFileSize) (fileTooLarge content.length)
  failIf (content.length < headerSize) (.ioError "failed to fill whole buffer")
  let header ← RudapackHeader.fromBytes (content.take headerSize)
  checkHeader header
  failIf (content.length < headerSize + header.metadataSize) (.ioError "failed to fill whole buffer")
  let metadata ← decodeMetadata decode ((content.drop headerSize).take header.metadataSize)
  let metadataEnd ← okOr (checkedAdd headerSize header.metadataSize) (.ioError "Metadata size overflow")
  checkTensors metadata metadataEnd content.length
  pure { metadata, storage := .fileBuffered content, dataOffset := alignedDataSectionStart header.metadataSize }

end Opening

-- Snapshots

structure TensorData where
  bytes : List UInt8
  shape : List UInt64
  dtype : DType
  deriving DecidableEq

inductive TensorSnapshotError
  | ioError (what : String)
  | panicError (what : String)
  deriving DecidableEq

/-- `TensorSnapshot`; the path is kept joined by dots, and the stack of containers is left
out. `dataFn` is what the closure gives when it is called. -/
structure TensorSnapshot where
  fullPath : String
  dtype : DType
  shape : List UInt64
  tensorId : Option UInt64
  dataFn : Ruda.Res TensorSnapshotError TensorData

/-- `to_data`, which catches a panic of the closure. -/
def TensorSnapshot.toData (s : TensorSnapshot) : Except TensorSnapshotError TensorData :=
  match s.dataFn with
  | .ok data => .ok data
  | .error (.err e) => .error e
  | .error .panic => .error (.panicError "Panic occurred while loading tensor data")

namespace RudapackReader

variable (r : RudapackReader)

/-- Where the data of a tensor is. -/
def tensorRange (name : String) (t : TensorDescriptor) : Res (Nat × Nat) := do
  let base := r.dataOffset
  let offsetStart := t.dataOffsets.1.toNat
  let offsetEnd := t.dataOffsets.2.toNat
  let start ← okOr (checkedAdd base offsetStart)
    (.validationError s!"Tensor '{name}' has corrupted offset data: start offset overflow {base} + {offsetStart}")
  let stop ← okOr (checkedAdd base offsetEnd)
    (.validationError s!"Tensor '{name}' has corrupted offset data: end offset overflow {base} + {offsetEnd}")
  failIf (stop < start)
    (.validationError s!"Tensor '{name}' has corrupted offset data: end offset {stop} < start offset {start}")
  let tensorSize ← subUsize stop start
  failIf (tensorSize > maxTensorSize)
    (.validationError s!"Tensor '{name}' size {tensorSize} exceeds maximum allowed size of {maxTensorSize} bytes (potential DoS attack)")
  pure (start, stop)

/-- The closure of a snapshot. -/
def load (zeroCopy : Bool) (t : TensorDescriptor) (start stop : Nat) : Ruda.Res TensorSnapshotError TensorData :=
  let bytes := if zeroCopy then r.storage.sliceBytes start stop else r.storage.readInto (stop - start) start
  match bytes with
  | .ok bytes => pure { bytes, shape := t.shape, dtype := t.dtype }
  | .error (.err e) =>
    let what := e.display
    throw (.err (.ioError (if zeroCopy then s!"Zero-copy slice failed: {what}" else s!"Failed to read tensor data: {what}")))
  | .error .panic => throw .panic

def snapshot (fresh : String → UInt64) (zeroCopy : Bool) (name : String) (t : TensorDescriptor) : Res TensorSnapshot := do
  let (start, stop) ← r.tensorRange name t
  pure { fullPath := name, dtype := t.dtype, shape := t.shape
         tensorId := some (t.paramId.getD (fresh name)), dataFn := r.load zeroCopy t start stop }

/-- `get_snapshots_internal`, in the order of the map. -/
def getSnapshots (fresh : String → UInt64) (zeroCopy : Bool) : Res (List TensorSnapshot) :=
  r.metadata.tensors.toList.mapM fun t => r.snapshot fresh zeroCopy t.1 t.2

end RudapackReader

end Ruda.Rudapack
