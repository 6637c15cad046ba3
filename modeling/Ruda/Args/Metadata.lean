import Ruda.Lib.Exec
import Ruda.Lib.Machine
import Ruda.Lib.Bytes

/-!
# Kernel argument metadata

A translation of `ruda-core/src/arguments/metadata.rs` and of the buffers that
`InfoBuilder::finish` hands to it. The host registers arguments one by one and
writes words of the address type; the compiler computes where to read from the
numbers of arguments and tensors alone. The two agree on every mix of arrays and
tensors as long as the values fit the address type.
-/

namespace Ruda.Args

-- The reading side

structure Metadata where
  numMeta : Nat
  numExtendedMeta : Nat
  deriving DecidableEq

namespace Metadata

variable (m : Metadata)

def offsetOf (id : Nat) : Nat := wrap32 (m.numMeta * id)

def baseLen : Nat := wrap32 (m.numMeta * 2)

def staticLen : Nat := wrap32 (wrap32 (m.numMeta * 2) + wrap32 (m.numExtendedMeta * 3))

def offsetOfExtended (id : Nat) : Nat := wrap32 (m.baseLen + wrap32 (m.numExtendedMeta * id))

def bufferLenIndex (bufferIdx : Nat) : Nat := wrap32 (m.offsetOf 0 + bufferIdx)

def lenIndex (bufferIdx : Nat) : Nat := wrap32 (m.offsetOf 1 + bufferIdx)

def rankIndex (bufferIdx : Nat) : Nat := wrap32 (m.offsetOfExtended 0 + bufferIdx)

def shapeOffsetIndex (bufferIdx : Nat) : Nat := wrap32 (m.offsetOfExtended 1 + bufferIdx)

def strideOffsetIndex (bufferIdx : Nat) : Nat := wrap32 (m.offsetOfExtended 2 + bufferIdx)

end Metadata

-- The writing side

inductive AddressType
  | u32
  | u64
  deriving DecidableEq

/-- `size_of::<T>()` -/
def AddressType.size : AddressType → Nat
  | u32 => 4
  | u64 => 8

def AddressType.bits (a : AddressType) : Nat := 8 * a.size

/-- Words of `w` bits. -/
structure State (w : Nat) where
  bufferLens : List (BitVec w) := []
  lengths : List (BitVec w) := []
  ranks : List (BitVec w) := []
  shapes : List (BitVec w) := []
  strides : List (BitVec w) := []
  offsets : List Nat := []
  deriving DecidableEq

namespace State

variable {w : Nat}

/-- The arm of `register_array` for words of `w` bits; `as` keeps the low ones. -/
def registerArray (s : State w) (bufferLen len : BitVec 64) : State w :=
  { s with
    bufferLens := s.bufferLens ++ [bufferLen.setWidth w]
    lengths := s.lengths ++ [len.setWidth w] }

def registerTensor (s : State w) (rank bufferLen len : BitVec 64) (shape strides : List (BitVec 64)) :
    State w where
  bufferLens := s.bufferLens ++ [bufferLen.setWidth w]
  lengths := s.lengths ++ [len.setWidth w]
  ranks := s.ranks ++ [rank.setWidth w]
  offsets := s.offsets ++ [s.shapes.length]
  shapes := s.shapes ++ shape.map (BitVec.setWidth w)
  strides := s.strides ++ strides.map (BitVec.setWidth w)

end State

/-- What was written so far, and what is left of the buffer. -/
abbrev Cursor := List UInt8 × List UInt8

/-- `buf[..bytes.len()].copy_from_slice(bytes); buf = &mut buf[bytes.len()..]` -/
def put (bytes : List UInt8) (cursor : Cursor) : M σ Cursor :=
  if bytes.length ≤ cursor.2.length then pure (cursor.1 ++ bytes, cursor.2.drop bytes.length)
  else M.panic "range end index out of range"

/-- `bytemuck::cast_slice` on words of `w` bits. -/
def castSlice {w : Nat} (words : List (BitVec w)) : List UInt8 :=
  wordsBytes (w / 8) (words.map BitVec.toNat)

/-- `T::from(offset).unwrap()` -/
def wordFrom (w offset : Nat) : M σ (BitVec w) :=
  M.expect (if offset < 2 ^ w then some (BitVec.ofNat w offset) else none)
    "called `Option::unwrap()` on a `None` value"

/-- One word for each offset, `base` added. -/
def putOffsets (w base : Nat) : List Nat → Cursor → M σ Cursor
  | [], cursor => pure cursor
  | offset :: offsets, cursor => do
    let word ← wordFrom w (base + offset)
    let cursor ← put (castSlice [word]) cursor
    putOffsets w base offsets cursor

/-- Returns both buffers as they are left. -/
def finishInner {w : Nat} (out : List UInt8 × List UInt8) : M (State w) (List UInt8 × List UInt8) := do
  let s ← get
  let sized ← put (castSlice s.bufferLens) ([], out.1)
  let sized ← put (castSlice s.lengths) sized
  let sized ← put (castSlice s.ranks) sized
  set { s with bufferLens := [], lengths := [], ranks := [] }
  let stridesOffsetBase := s.shapes.length
  let sized ← putOffsets w 0 s.offsets sized
  let sized ← putOffsets w stridesOffsetBase s.offsets sized
  modify fun s => { s with offsets := [] }
  let dynamic ← put (castSlice s.shapes) ([], out.2)
  let dynamic ← put (castSlice s.strides) dynamic
  modify fun s => { s with shapes := [], strides := [] }
  pure (sized.1 ++ sized.2, dynamic.1 ++ dynamic.2)

structure MetadataBuilder where
  state32 : State 32 := {}
  state64 : State 64 := {}
  deriving DecidableEq

namespace MetadataBuilder

def registerArray (bufferLen len : BitVec 64) (a : AddressType) (b : MetadataBuilder) :
    MetadataBuilder :=
  match a with
  | .u64 => { b with state64 := b.state64.registerArray bufferLen len }
  | .u32 => { b with state32 := b.state32.registerArray bufferLen len }

def registerTensor (rank bufferLen len : BitVec 64) (shape strides : List (BitVec 64))
    (a : AddressType) (b : MetadataBuilder) : MetadataBuilder :=
  match a with
  | .u64 => { b with state64 := b.state64.registerTensor rank bufferLen len shape strides }
  | .u32 => { b with state32 := b.state32.registerTensor rank bufferLen len shape strides }

def staticLen (b : MetadataBuilder) : AddressType → Nat
  | .u32 => b.state32.bufferLens.length * 2 + b.state32.ranks.length * 3
  | .u64 => b.state64.bufferLens.length * 2 + b.state64.ranks.length * 3

def dynamicLen (b : MetadataBuilder) : AddressType → Nat
  | .u32 => b.state32.shapes.length + b.state32.strides.length
  | .u64 => b.state64.shapes.length + b.state64.strides.length

def finish (a : AddressType) (out : List UInt8 × List UInt8) :
    M MetadataBuilder (List UInt8 × List UInt8) :=
  match a with
  | .u32 => M.zoom state32 (fun b state32 => { b with state32 }) (finishInner out)
  | .u64 => M.zoom state64 (fun b state64 => { b with state64 }) (finishInner out)

/-- `InfoBuilder::finish` without scalars: two zeroed buffers of whole `u64`s. -/
def finishInfo (a : AddressType) : M MetadataBuilder (List UInt8 × List UInt8) := do
  let b ← get
  let addrPacking := 8 / a.size
  let staticSize := divCeil (b.staticLen a) addrPacking
  let dynamicSize := divCeil (b.dynamicLen a) addrPacking
  finish a (List.replicate (staticSize * 8) 0, List.replicate (dynamicSize * 8) 0)

end MetadataBuilder

end Ruda.Args
