import Ruda.Lib.Machine
import Ruda.Memory.Adaptive

/-!
# Tensor layouts

A translation of `allocator.rs`: how the layout policies divide one allocation among tensors.
`none` stands for a panic: arithmetic that overflows, an index out of range, `clamp` with its
bounds exchanged. Of a handle, only its extent in its allocation is kept.
-/

namespace Ruda.Memory

inductive MemoryLayoutStrategy
  | contiguous
  | optimized
  deriving DecidableEq

structure MemoryLayoutDescriptor where
  strategy : MemoryLayoutStrategy
  shape : List Nat
  elemSize : Nat
  deriving DecidableEq

structure Handle where
  offsetStart : Option Nat
  offsetEnd : Option Nat
  size : Nat
  deriving DecidableEq

structure MemoryLayout where
  memory : Handle
  strides : List Nat
  deriving DecidableEq

namespace Handle

def new (size : Nat) : Handle := ⟨none, none, size⟩

def addStart (h : Handle) (offset : Nat) : Option Handle := do
  let start ← match h.offsetStart with
    | some val => checkedAdd val offset
    | none => some offset
  some { h with offsetStart := some start }

def addEnd (h : Handle) (offset : Nat) : Option Handle := do
  let stop ← match h.offsetEnd with
    | some val => checkedAdd val offset
    | none => some offset
  some { h with offsetEnd := some stop }

end Handle

/-- `a - b` -/
def checkedSub (a b : Nat) : Option Nat := if b ≤ a then some (a - b) else none

/-- `next_power_of_two` -/
def nextPowerOfTwo (n : Nat) : Option Nat :=
  if 2 ^ Nat.clog 2 n ≤ u64Max then some (2 ^ Nat.clog 2 n) else none

/-- `clamp` -/
def clamp (n least most : Nat) : Option Nat :=
  if least ≤ most then some (max least (min n most)) else none

def optimalAlign (shape elemSize bufferAlign : Nat) : Option Nat :=
  if shape = 1 then some elemSize
  else do
    let bytes ← checkedMul shape elemSize
    let power ← nextPowerOfTwo bytes
    clamp power 16 bufferAlign

/-- `iter.product()` -/
def product (dims : List Nat) : Option Nat := dims.foldlM checkedMul 1

/-- `for i in (0..n).rev() { strides[i] = strides[i + 1] * shape[i + 1]; }` -/
def fillStrides (shape : List Nat) : (n : Nat) → (strides : List Nat) → Option (List Nat)
  | 0, strides => some strides
  | i + 1, strides => do
    let stride ← strides[i + 1]?
    let dim ← shape[i + 1]?
    let stride ← checkedMul stride dim
    fillStrides shape i (strides.set i stride)

def contiguousStrides (shape : List Nat) : Option (List Nat) := do
  let rank := shape.length
  let last ← checkedSub rank 1
  fillStrides shape last (List.replicate rank 1)

/-- The loop of `offset_handles`. -/
def offsetHandlesFrom (baseHandle : Handle) (bufferAlign : Nat) : (offset : Nat) → (sizesBytes : List Nat) → Option (List Handle)
  | _, [] => some []
  | offset, size :: sizes => do
    let handle ← baseHandle.addStart offset
    let rest ← checkedSub baseHandle.size offset
    let rest ← checkedSub rest size
    let handle ← handle.addEnd rest
    let padded ← checkedNextMultipleOf size bufferAlign
    let offset ← checkedAdd offset padded
    let handles ← offsetHandlesFrom baseHandle bufferAlign offset sizes
    some (handle :: handles)

def offsetHandles (baseHandle : Handle) (sizesBytes : List Nat) (bufferAlign : Nat) : Option (List Handle) :=
  offsetHandlesFrom baseHandle bufferAlign 0 sizesBytes

/-- The closure over the descriptors, with what it adds to `total_size`. -/
def measure (memAlignment : Nat) (layout : MemoryLayoutDescriptor → Option (Nat × List Nat)) :
    (totalSize : Nat) → List MemoryLayoutDescriptor → Option (Nat × List Nat × List (List Nat))
  | totalSize, [] => some (totalSize, [], [])
  | totalSize, descriptor :: descriptors => do
    let (size, strides) ← layout descriptor
    let padded ← checkedNextMultipleOf size memAlignment
    let totalSize ← checkedAdd totalSize padded
    let (totalSize, sizes, stridess) ← measure memAlignment layout totalSize descriptors
    some (totalSize, size :: sizes, strides :: stridess)

/-- What the two policies share. -/
def apply (memAlignment : Nat) (layout : MemoryLayoutDescriptor → Option (Nat × List Nat))
    (descriptors : List MemoryLayoutDescriptor) : Option (Handle × List MemoryLayout) := do
  let (totalSize, sizes, strides) ← measure memAlignment layout 0 descriptors
  let baseHandle := Handle.new totalSize
  let handles ← offsetHandles baseHandle sizes memAlignment
  some (baseHandle, List.zipWith MemoryLayout.mk handles strides)

namespace PitchedMemoryLayoutPolicy

def pitchAlign (memAlignment : Nat) (descriptor : MemoryLayoutDescriptor) : Option Nat :=
  match descriptor.strategy with
  | .contiguous => some 1
  | .optimized => optimalAlign (descriptor.shape.getLast?.getD 1) descriptor.elemSize memAlignment

def strides (shape : List Nat) (rowStride : Nat) : Option (List Nat) :=
  let rank := shape.length
  let strides := List.replicate rank 1
  let strides := if rank > 1 then strides.set (rank - 2) rowStride else strides
  if rank > 2 then fillStrides shape (rank - 2) strides else some strides

/-- Size in bytes and strides of one tensor. -/
def layout (memAlignment : Nat) (descriptor : MemoryLayoutDescriptor) : Option (Nat × List Nat) := do
  let shape := descriptor.shape
  let pitchAlign ← pitchAlign memAlignment descriptor
  let width := shape.getLast?.getD 1
  let height ← product (shape.reverse.drop 1)
  let height := max height 1
  let widthBytes ← checkedMul width descriptor.elemSize
  let pitch ← checkedNextMultipleOf widthBytes pitchAlign
  let size ← checkedMul height pitch
  let strides ← strides shape (pitch / descriptor.elemSize)
  some (size, strides)

def apply (memAlignment : Nat) (descriptors : List MemoryLayoutDescriptor) : Option (Handle × List MemoryLayout) :=
  Memory.apply memAlignment (layout memAlignment) descriptors

end PitchedMemoryLayoutPolicy

namespace ContiguousMemoryLayoutPolicy

def layout (desc : MemoryLayoutDescriptor) : Option (Nat × List Nat) := do
  let count ← product desc.shape
  let size ← checkedMul count desc.elemSize
  let strides ← contiguousStrides desc.shape
  some (size, strides)

def apply (memAlignment : Nat) (descriptors : List MemoryLayoutDescriptor) : Option (Handle × List MemoryLayout) :=
  Memory.apply memAlignment layout descriptors

end ContiguousMemoryLayoutPolicy

end Ruda.Memory
