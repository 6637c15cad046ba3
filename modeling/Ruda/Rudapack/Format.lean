import Ruda.Lib.Fallible

/-!
# The Rudapack file format

Header, metadata and tensor descriptors. This is a translation of
`ruda-store/src/rudapack/base.rs`, of the byte sizes in `ruda-store/src/tensor_snapshot.rs`
and of what these need of `DType` and `QuantScheme` in `ruda-core`. Targets are 64-bit.

The CBOR encoding of the metadata is a parameter of the reader and of the writer.
-/

namespace Ruda.Rudapack

def magicNumber : Nat := 0x4255524E
def formatVersion : Nat := 1
/-- Magic number, version and metadata size. -/
def headerSize : Nat := 4 + 2 + 4
def tensorAlignment : Nat := 256
def maxMetadataSize : Nat := 100 * 1024 * 1024
def maxTensorSize : Nat := 10 * 1024 * 1024 * 1024
def maxTensorCount : Nat := 100000
def maxFileSize : Nat := 100 * 1024 * 1024 * 1024

/-- `align_offset`, the smallest multiple of `alignment` from `offset` on. -/
def alignOffset (offset alignment : Nat) : Nat := divCeil offset alignment * alignment

/-- Where the data section starts. -/
def alignedDataSectionStart (metadataSize : Nat) : Nat := alignOffset (headerSize + metadataSize) tensorAlignment

theorem alignOffset_spec {offset alignment : Nat} (h : 0 < alignment) :
    offset ≤ alignOffset offset alignment ∧ alignOffset offset alignment < offset + alignment ∧
      alignment ∣ alignOffset offset alignment := by
  refine ⟨(divCeil_le_iff h).mp le_rfl, ?_, Dvd.intro_left _ rfl⟩
  have := Nat.div_mul_le_self (offset + alignment - 1) alignment
  unfold alignOffset divCeil
  omega

-- Data types

inductive QuantValue
  | q8f | e5m2 | e4m3 | q4f | e2m1 | q2f | q8s | q4s | q2s
  deriving DecidableEq

inductive QuantParam
  | f32 | f16 | bf16 | ue8m0 | ue4m3
  deriving DecidableEq

inductive QuantStore
  | native
  | packedNative (dim : Nat)
  | packedU32 (dim : Nat)
  deriving DecidableEq

inductive QuantLevel
  | tensor
  /-- The sizes of a block along the last dimensions. -/
  | block (sizes : List UInt8)
  deriving DecidableEq

structure QuantScheme where
  value : QuantValue
  param : QuantParam
  store : QuantStore
  level : QuantLevel
  deriving DecidableEq

inductive BoolStore
  | native | u8 | u32
  deriving DecidableEq

inductive DType
  | f64 | f32 | flex32 | f16 | bf16 | i64 | i32 | i16 | i8 | u64 | u32 | u16 | u8
  | bool (store : BoolStore)
  | qFloat (scheme : QuantScheme)
  deriving DecidableEq

def QuantValue.sizeBits : QuantValue → Nat
  | .q8f | .q8s | .e4m3 | .e5m2 => 8
  | .q4f | .q4s | .e2m1 => 4
  | .q2f | .q2s => 2

def QuantValue.nativePacking : QuantValue → Nat
  | .e2m1 => 2
  | _ => 1

def QuantScheme.sizeBitsStored (scheme : QuantScheme) : Nat :=
  match scheme.store with
  | .native => scheme.value.sizeBits
  | .packedNative _ => scheme.value.sizeBits * scheme.value.nativePacking
  | .packedU32 _ => 32

def QuantScheme.numQuants (scheme : QuantScheme) : Nat := scheme.sizeBitsStored / scheme.value.sizeBits

def quantParamSize : QuantParam → Nat
  | .f32 => 4
  | .f16 | .bf16 => 2
  | .ue8m0 | .ue4m3 => 1

/-- `DType::size`; the data length of a quantized type does not use it. -/
def DType.size : DType → Nat
  | .f64 | .i64 | .u64 => 8
  | .f32 | .flex32 | .i32 | .u32 | .bool .u32 => 4
  | .f16 | .bf16 | .i16 | .u16 => 2
  | .i8 | .u8 | .bool .native | .bool .u8 => 1
  | .qFloat scheme =>
    match scheme.store, scheme.value with
    | .native, .q8f | .native, .q8s | .native, .e4m3 | .native, .e5m2 | .native, .e2m1 => 1
    | .native, _ => 0
    | .packedU32 _, _ => 4
    | .packedNative _, .e2m1 => 1
    | .packedNative _, _ => 0

-- Header and metadata

inductive RudapackError
  | invalidHeader
  | invalidMagicNumber
  | invalidVersion
  | metadataDeserializationError (what : String)
  | ioError (what : String)
  | validationError (what : String)
  deriving DecidableEq

/-- `Display` -/
def RudapackError.display : RudapackError → String
  | .invalidHeader => "Invalid header: insufficient bytes"
  | .invalidMagicNumber => "Invalid magic number"
  | .invalidVersion => "Unsupported version"
  | .metadataDeserializationError what => s!"Metadata deserialization error: {what}"
  | .ioError what => s!"I/O error: {what}"
  | .validationError what => s!"Validation error: {what}"

abbrev Res := Ruda.Res RudapackError

structure RudapackHeader where
  magic : Nat
  version : Nat
  metadataSize : Nat

def RudapackHeader.intoBytes (header : RudapackHeader) : List UInt8 :=
  leBytes 4 header.magic ++ leBytes 2 header.version ++ leBytes 4 header.metadataSize

def RudapackHeader.fromBytes (bytes : List UInt8) : Res RudapackHeader := do
  failIf (bytes.length < headerSize) .invalidHeader
  let magic := leValue (bytes.take 4)
  failIf (magic ≠ magicNumber) .invalidMagicNumber
  pure { magic, version := leValue ((bytes.drop 4).take 2), metadataSize := leValue ((bytes.drop 6).take 4) }

structure TensorDescriptor where
  dtype : DType
  shape : List UInt64
  dataOffsets : UInt64 × UInt64
  paramId : Option UInt64
  deriving DecidableEq

abbrev Tensors := Std.ExtTreeMap String TensorDescriptor compare

structure RudapackMetadata where
  tensors : Tensors
  metadata : Std.ExtTreeMap String String compare

/-- `tensors.values().map(|t| t.data_offsets.1).max().unwrap_or(0)` -/
def RudapackMetadata.maxDataOffset (metadata : RudapackMetadata) : Nat :=
  (metadata.tensors.toList.map fun t => t.2.dataOffsets.2.toNat).foldr max 0

theorem le_foldr_max {l : List Nat} {a : Nat} (h : a ∈ l) : a ≤ l.foldr max 0 := by
  induction l with
  | nil => cases h
  | cons b l ih =>
    rw [List.foldr_cons]
    rcases List.mem_cons.mp h with rfl | h
    · exact le_max_left _ _
    · exact (ih h).trans (le_max_right _ _)

theorem le_maxDataOffset {metadata : RudapackMetadata} {name : String} {t : TensorDescriptor}
    (h : metadata.tensors[name]? = some t) : t.dataOffsets.2.toNat ≤ metadata.maxDataOffset :=
  le_foldr_max (List.mem_map_of_mem (Std.ExtTreeMap.mem_toList_iff_getElem?_eq_some.mpr h))

end Ruda.Rudapack
