import Ruda.Lib.Fallible

/-!
# The wire contract

A translation of `rank/protocol.rs` up to `Frame`, and of the counts in `rank/payload.rs`.
Targets are 64-bit. The checksum, CRC-32, is a parameter.
-/

namespace Ruda.Rank

-- Codes

inductive Opcode
  | join | ready | broadcast | allGather | gather | scatter | reduce | allReduce | reduceScatter | allToAll | allToAllV
  | barrier | send | receive | abort | heartbeat | leave | setTimeout | peerEndpoint
  deriving DecidableEq

/-- `self as u8` -/
def Opcode.code : Opcode → UInt8
  | .join => 1
  | .ready => 2
  | .broadcast => 3
  | .allGather => 4
  | .gather => 5
  | .scatter => 6
  | .reduce => 7
  | .allReduce => 8
  | .reduceScatter => 9
  | .allToAll => 10
  | .allToAllV => 11
  | .barrier => 12
  | .send => 13
  | .receive => 14
  | .abort => 15
  | .heartbeat => 16
  | .leave => 17
  | .setTimeout => 18
  | .peerEndpoint => 19

inductive ElementType
  | none | u8 | u32 | i32 | f32 | f16 | bf16 | bool | i8 | i16 | i64 | f64 | u16 | u64 | complex64 | complex128 | f8E4M3Fn
  | f8E5M2 | f8E4M3Fnuz | f8E5M2Fnuz | f8E8M0Fnu | f4E2M1FnX2
  deriving DecidableEq

/-- `self as u8` -/
def ElementType.code : ElementType → UInt8
  | .none => 0
  | .u8 => 1
  | .u32 => 2
  | .i32 => 3
  | .f32 => 4
  | .f16 => 5
  | .bf16 => 6
  | .bool => 7
  | .i8 => 8
  | .i16 => 9
  | .i64 => 10
  | .f64 => 11
  | .u16 => 12
  | .u64 => 13
  | .complex64 => 14
  | .complex128 => 15
  | .f8E4M3Fn => 16
  | .f8E5M2 => 17
  | .f8E4M3Fnuz => 18
  | .f8E5M2Fnuz => 19
  | .f8E8M0Fnu => 20
  | .f4E2M1FnX2 => 21

def ElementType.byteWidth : ElementType → Nat
  | .none => 0
  | .u8 | .bool | .i8 | .f8E4M3Fn | .f8E5M2 | .f8E4M3Fnuz | .f8E5M2Fnuz | .f8E8M0Fnu | .f4E2M1FnX2 => 1
  | .f16 | .bf16 | .i16 | .u16 => 2
  | .u32 | .i32 | .f32 => 4
  | .i64 | .f64 | .u64 | .complex64 => 8
  | .complex128 => 16

-- Errors

structure OperationDescriptor where
  opcode : Opcode
  elementType : ElementType
  rootRank : UInt32
  elementCount : UInt64
  layoutHash : UInt64
  deriving DecidableEq

inductive ProtocolError
  | truncatedHeader (actual : Nat)
  | badMagic (actual : List UInt8)
  | unsupportedVersion (version : UInt16)
  | unsupportedHeaderLength (length : Nat)
  | unknownOpcode (opcode : UInt8)
  | unknownElementType (elementType : UInt8)
  | unknownFlags (flags : UInt16)
  | unexpectedCountsPrefix (opcode : Opcode)
  | unexpectedP2pChannelFlag (opcode : Opcode)
  | emptyWorld
  | rankOutOfRange (name : String) (rank worldSize : UInt32)
  | payloadTooLarge (bytes : Nat)
  | payloadFlagMismatch
  | elementLengthMismatch
  | payloadLengthMismatch (declared actual : Nat)
  | frameLengthMismatch (declared actual : Nat)
  | checksumMismatch (declared actual : UInt32)
  | sequenceMismatch (expected actual : Nat)
  | duplicateSubmission (rank sequence : Nat)
  | collectiveMismatch (sequence : Nat) (expected actual : OperationDescriptor)
  | sequenceOverflow
  deriving DecidableEq

abbrev Res := Ruda.Res ProtocolError

def Opcode.tryFrom (value : UInt8) : Res Opcode :=
  match value with
  | 1 => .ok .join
  | 2 => .ok .ready
  | 3 => .ok .broadcast
  | 4 => .ok .allGather
  | 5 => .ok .gather
  | 6 => .ok .scatter
  | 7 => .ok .reduce
  | 8 => .ok .allReduce
  | 9 => .ok .reduceScatter
  | 10 => .ok .allToAll
  | 11 => .ok .allToAllV
  | 12 => .ok .barrier
  | 13 => .ok .send
  | 14 => .ok .receive
  | 15 => .ok .abort
  | 16 => .ok .heartbeat
  | 17 => .ok .leave
  | 18 => .ok .setTimeout
  | 19 => .ok .peerEndpoint
  | _ => .error (.err (.unknownOpcode value))

def ElementType.tryFrom (value : UInt8) : Res ElementType :=
  match value with
  | 0 => .ok .none
  | 1 => .ok .u8
  | 2 => .ok .u32
  | 3 => .ok .i32
  | 4 => .ok .f32
  | 5 => .ok .f16
  | 6 => .ok .bf16
  | 7 => .ok .bool
  | 8 => .ok .i8
  | 9 => .ok .i16
  | 10 => .ok .i64
  | 11 => .ok .f64
  | 12 => .ok .u16
  | 13 => .ok .u64
  | 14 => .ok .complex64
  | 15 => .ok .complex128
  | 16 => .ok .f8E4M3Fn
  | 17 => .ok .f8E5M2
  | 18 => .ok .f8E4M3Fnuz
  | 19 => .ok .f8E5M2Fnuz
  | 20 => .ok .f8E8M0Fnu
  | 21 => .ok .f4E2M1FnX2
  | _ => .error (.err (.unknownElementType value))

theorem Opcode.tryFrom_code (opcode : Opcode) : tryFrom opcode.code = .ok opcode := by
  cases opcode <;> rfl

theorem Opcode.code_of_tryFrom {value : UInt8} {opcode : Opcode} (h : tryFrom value = .ok opcode) : opcode.code = value := by
  unfold tryFrom at h
  split at h <;> cases h <;> rfl

theorem ElementType.tryFrom_code (elementType : ElementType) : tryFrom elementType.code = .ok elementType := by
  cases elementType <;> rfl

theorem ElementType.code_of_tryFrom {value : UInt8} {elementType : ElementType} (h : tryFrom value = .ok elementType) :
    elementType.code = value := by
  unfold tryFrom at h
  split at h <;> cases h <;> rfl

-- Headers

/-- `b"GXCL"` -/
def protocolMagic : List UInt8 := [0x47, 0x58, 0x43, 0x4c]
def protocolVersion : UInt16 := 3
def frameHeaderBytes : Nat := 80
def maxFramePayloadBytes : Nat := 2 ^ 30
def anyRank : UInt32 := 0xffffffff
def flagPayload : UInt16 := 1
def flagCountsPrefix : UInt16 := 2
def flagP2pChannel : UInt16 := 4

@[ext] structure UniqueId where
  bytes : List UInt8
  length_eq : bytes.length = 16
  deriving DecidableEq

@[ext] structure FrameHeader where
  opcode : Opcode
  elementType : ElementType
  flags : UInt16
  sourceRank : UInt32
  destinationRank : UInt32
  rootRank : UInt32
  worldSize : UInt32
  sequence : UInt64
  tag : UInt64
  elementCount : UInt64
  payloadBytes : UInt64
  uniqueId : UniqueId
  payloadChecksum : UInt32
  deriving DecidableEq

/-- The bytes from `offset` on, `n` of them. -/
def field (bytes : List UInt8) (offset n : Nat) : List UInt8 := (bytes.drop offset).take n

def getU16 (bytes : List UInt8) (offset : Nat) : UInt16 := .ofNat (leValue (field bytes offset 2))
def getU32 (bytes : List UInt8) (offset : Nat) : UInt32 := .ofNat (leValue (field bytes offset 4))
def getU64 (bytes : List UInt8) (offset : Nat) : UInt64 := .ofNat (leValue (field bytes offset 8))

def validateRank (name : String) (rank worldSize : UInt32) (allowAny : Bool) : Res Unit :=
  if (allowAny = true ∧ rank = anyRank) ∨ rank < worldSize then .ok () else .error (.err (.rankOutOfRange name rank worldSize))

namespace FrameHeader

/-- The elements and, with `prefixed`, one count for each rank. -/
def expectedBytes (elementCount : Nat) (width worldSize : Nat) (prefixed : Bool) : Res Nat := do
  let elementBytes ← okOr (checkedMul elementCount width) .elementLengthMismatch
  let prefixBytes ← if prefixed then okOr (checkedMul worldSize 8) .elementLengthMismatch else pure 0
  okOr (checkedAdd elementBytes prefixBytes) .elementLengthMismatch

def validateLength (h : FrameHeader) : Res Unit :=
  if h.elementType = .none then failIf (h.elementCount ≠ 0 ∨ h.payloadBytes ≠ 0) .elementLengthMismatch
  else if h.flags &&& flagPayload ≠ 0 then do
    let expected ← expectedBytes h.elementCount.toNat h.elementType.byteWidth h.worldSize.toNat (h.flags &&& flagCountsPrefix ≠ 0)
    failIf (expected ≠ h.payloadBytes.toNat) .elementLengthMismatch
  else pure ()

/-- What `validate` checks without a payload. -/
def validateHeader (h : FrameHeader) : Res Unit := do
  let unknownFlags := h.flags &&& ~~~(flagPayload ||| flagCountsPrefix ||| flagP2pChannel)
  failIf (unknownFlags ≠ 0) (.unknownFlags unknownFlags)
  failIf (h.flags &&& flagCountsPrefix ≠ 0 ∧ h.opcode ≠ .allToAllV) (.unexpectedCountsPrefix h.opcode)
  failIf (h.flags &&& flagP2pChannel ≠ 0 ∧ ¬(h.opcode = .join ∨ h.opcode = .ready)) (.unexpectedP2pChannelFlag h.opcode)
  failIf (h.worldSize = 0) .emptyWorld
  validateRank "source" h.sourceRank h.worldSize false
  validateRank "destination" h.destinationRank h.worldSize true
  validateRank "root" h.rootRank h.worldSize true
  failIf (h.payloadBytes.toNat > maxFramePayloadBytes) (.payloadTooLarge h.payloadBytes.toNat)
  failIf (decide (h.flags &&& flagPayload ≠ 0) ≠ decide (h.payloadBytes ≠ 0)) .payloadFlagMismatch
  h.validateLength

variable (checksum : List UInt8 → UInt32)

def validate (h : FrameHeader) (payload : Option (List UInt8)) : Res Unit := do
  h.validateHeader
  match payload with
  | none => pure ()
  | some payload => do
    failIf (payload.length ≠ h.payloadBytes.toNat) (.payloadLengthMismatch h.payloadBytes.toNat payload.length)
    failIf (checksum payload ≠ h.payloadChecksum) (.checksumMismatch h.payloadChecksum (checksum payload))

def withPayload (h : FrameHeader) (payload : List UInt8) : Res FrameHeader := do
  failIf (payload.length > maxFramePayloadBytes) (.payloadTooLarge payload.length)
  let h := { h with
    flags := h.flags ||| flagPayload, payloadBytes := .ofNat payload.length, payloadChecksum := checksum payload }
  h.validate checksum none
  pure h

/-- The fields one after the other, at the offsets 0, 4, 6, 8, 9, 10, 12, 16, 20, 24, 28, 36, 44, 52, 60 and 76. -/
def bytes (h : FrameHeader) : List UInt8 :=
  protocolMagic ++ (leBytes 2 protocolVersion.toNat ++ (leBytes 2 frameHeaderBytes ++ (h.opcode.code :: h.elementType.code ::
    (leBytes 2 h.flags.toNat ++ (leBytes 4 h.sourceRank.toNat ++ (leBytes 4 h.destinationRank.toNat ++
    (leBytes 4 h.rootRank.toNat ++ (leBytes 4 h.worldSize.toNat ++ (leBytes 8 h.sequence.toNat ++ (leBytes 8 h.tag.toNat ++
    (leBytes 8 h.elementCount.toNat ++ (leBytes 8 h.payloadBytes.toNat ++ (h.uniqueId.bytes ++
    leBytes 4 h.payloadChecksum.toNat)))))))))))))

def encode (h : FrameHeader) : Res (List UInt8) := do
  h.validate checksum none
  pure h.bytes

/-- The fields of a header that is long enough. -/
def fields (bytes : List UInt8) (hlen : frameHeaderBytes ≤ bytes.length) (opcode : Opcode) (elementType : ElementType) :
    FrameHeader where
  opcode := opcode
  elementType := elementType
  flags := getU16 bytes 10
  sourceRank := getU32 bytes 12
  destinationRank := getU32 bytes 16
  rootRank := getU32 bytes 20
  worldSize := getU32 bytes 24
  sequence := getU64 bytes 28
  tag := getU64 bytes 36
  elementCount := getU64 bytes 44
  payloadBytes := getU64 bytes 52
  uniqueId := ⟨field bytes 60 16, by
    have hlen : 80 ≤ bytes.length := hlen
    rw [field, List.length_take, List.length_drop]
    omega⟩
  payloadChecksum := getU32 bytes 76

def decode (bytes : List UInt8) : Res FrameHeader :=
  if hlen : frameHeaderBytes ≤ bytes.length then do
    failIf (field bytes 0 4 ≠ protocolMagic) (.badMagic (field bytes 0 4))
    failIf (getU16 bytes 4 ≠ protocolVersion) (.unsupportedVersion (getU16 bytes 4))
    failIf ((getU16 bytes 6).toNat ≠ frameHeaderBytes) (.unsupportedHeaderLength (getU16 bytes 6).toNat)
    let opcode ← Opcode.tryFrom (bytes.getD 8 0)
    let elementType ← ElementType.tryFrom (bytes.getD 9 0)
    (fields bytes hlen opcode elementType).validate checksum none
    pure (fields bytes hlen opcode elementType)
  else .error (.err (.truncatedHeader bytes.length))

end FrameHeader

-- Frames

structure Frame where
  header : FrameHeader
  payload : List UInt8
  deriving DecidableEq

namespace Frame

variable (checksum : List UInt8 → UInt32)

def new (header : FrameHeader) (payload : List UInt8) : Res Frame := do
  if payload = [] then
    header.validate checksum (some payload)
    pure ⟨header, payload⟩
  else
    let header ← header.withPayload checksum payload
    pure ⟨header, payload⟩

def encode (f : Frame) : Res (List UInt8) := do
  f.header.validate checksum (some f.payload)
  let bytes ← f.header.encode checksum
  pure (bytes ++ f.payload)

def encodeTransportHeader (f : Frame) : Res (List UInt8) := do
  let declared := f.header.payloadBytes.toNat
  failIf (f.payload.length ≠ declared) (.payloadLengthMismatch declared f.payload.length)
  f.header.encode checksum

def decode (bytes : List UInt8) : Res Frame := do
  let header ← FrameHeader.decode checksum bytes
  let expected ← okOr (checkedAdd frameHeaderBytes header.payloadBytes.toNat) (.payloadTooLarge header.payloadBytes.toNat)
  failIf (bytes.length ≠ expected) (.frameLengthMismatch expected bytes.length)
  let payload := bytes.drop frameHeaderBytes
  header.validate checksum (some payload)
  pure ⟨header, payload⟩

end Frame

-- Counts

inductive RankError
  | overflow (what : String)
  /-- `NetworkError::InvalidConfiguration` -/
  | invalidConfiguration (text : String)
  deriving DecidableEq

def encodeCounts (counts : List UInt64) : List UInt8 := wordsBytes 8 (counts.map UInt64.toNat)

/-- `chunks_exact(8)` of `n` words. -/
def words (bytes : List UInt8) (n : Nat) : List UInt64 := (List.range n).map fun i => .ofNat (readWord 8 bytes i)

/-- `try_fold` with `checked_add` -/
def checkedSum : List UInt64 → Nat → Option Nat
  | [], sum => some sum
  | count :: counts, sum => (checkedAdd sum count.toNat).bind (checkedSum counts)

def decodeCountsResponse (response : Frame) (worldSize elementBytes : Nat) :
    Ruda.Res RankError (List UInt64 × List UInt8) := do
  failIf (response.header.flags &&& flagCountsPrefix = 0) (.invalidConfiguration "TCP all-to-all-v response is missing counts")
  let prefixBytes ← okOr (checkedMul worldSize 8) (.overflow "TCP all-to-all-v counts prefix")
  failIf (response.payload.length < prefixBytes) (.invalidConfiguration "TCP all-to-all-v counts prefix is truncated")
  let head ← slice response.payload 0 prefixBytes
  let counts := words head (head.length / 8)
  let total ← okOr (checkedSum counts 0) (.overflow "TCP all-to-all-v receive count")
  failIf (total ≠ response.header.elementCount.toNat) (.invalidConfiguration
    s!"TCP all-to-all-v counts sum to {total}, header declares {response.header.elementCount}")
  let data ← slice response.payload prefixBytes response.payload.length
  let expected ← okOr (checkedMul total elementBytes) (.overflow "TCP all-to-all-v data")
  failIf (data.length ≠ expected) (.invalidConfiguration
    s!"TCP all-to-all-v data has {data.length} bytes, expected {expected}")
  pure (counts, data)

end Ruda.Rank
