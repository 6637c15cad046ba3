import Ruda.Lib.Machine
import Ruda.Lib.Ring

/-!
# Sum all-reduce between local peers

The ring and the tree strategy of the local all-reduce, and the slicing that the
global ring shares with them. This is a translation of
`ruCCL/src/local/all_reduce/{ring,tree}.rs` and of `ring_all_reduce_sum`, `do_cycles`
and `slice_tensor` in `ruCCL/src/global/node/ring.rs`.

A tensor is its device, its shape and its elements by index; elements out of the
shape say nothing. Of the backend only the operations called here are modelled, with
`Slice::to_range`, which clamps a range to the dimension. A dimension fits `isize`, so a
slice keeps the `usize` it is made from. A hash map is the list of its entries in the
order in which it is iterated. Panics are `none`.
-/

namespace Ruda.Collective

abbrev PeerId := Nat
abbrev NodeId := Nat
abbrev DeviceId := Nat

structure Tensor (α : Type) where
  device : DeviceId
  shape : List Nat
  data : List Nat → α

structure Range where
  start : Nat
  stop : Nat
  deriving DecidableEq

/-- `Slice::to_range` -/
def Range.toRange (r : Range) (size : Nat) : Range := { start := min r.start size, stop := min r.stop size }

abbrev TensorMap (α : Type) := List (PeerId × Tensor α)

section Backend
variable {α : Type}

def floatToDevice (t : Tensor α) (device : DeviceId) : Tensor α := { t with device }

/-- Tensors of one device and one shape are added element by element. -/
def floatAdd [Add α] (t u : Tensor α) : Option (Tensor α) :=
  if t.device = u.device ∧ t.shape = u.shape then
    some { t with data := fun idx => t.data idx + u.data idx }
  else none

def floatSlice (t : Tensor α) (slices : List Range) : Tensor α :=
  let ranges := List.zipWith Range.toRange slices t.shape
  { device := t.device
    shape := ranges.map fun r => r.stop - r.start
    data := fun idx => t.data (List.zipWith (fun i r => i + r.start) idx ranges) }

/-- Elements inside the slices come from `value`. -/
def floatSliceAssign (t : Tensor α) (slices : List Range) (value : Tensor α) : Tensor α :=
  let ranges := List.zipWith Range.toRange slices t.shape
  { t with data := fun idx =>
      if (List.zipWith (fun i (r : Range) => decide (r.start ≤ i ∧ i < r.stop)) idx ranges).all id then
        value.data (List.zipWith (fun i r => i - r.start) idx ranges)
      else t.data idx }

/-- The element of tensors standing one after the other along `dim`. -/
def catData (dim : Nat) : (t : Tensor α) → List (Tensor α) → List Nat → α
  | t, [], idx => t.data idx
  | t, u :: rest, idx =>
    if idx.getD dim 0 < t.shape.getD dim 0 then t.data idx
    else catData dim u rest (idx.modify dim (· - t.shape.getD dim 0))

def floatCat (tensors : List (Tensor α)) (dim : Nat) : Option (Tensor α) :=
  match tensors with
  | [] => none
  | t :: rest =>
    some { device := t.device
           shape := t.shape.set dim ((t :: rest).map fun u => u.shape.getD dim 0).sum
           data := catData dim t rest }

end Backend

-- Slices

/-- `max_by` keeps the last of equal elements. -/
def getSliceDim (shape : List Nat) : Option Nat :=
  match shape.zipIdx with
  | [] => none
  | first :: rest => some (rest.foldl (fun best e => if e.1 < best.1 then best else e) first).2

def getRingReduceSliceRanges (sliceDimSize sliceCount : Nat) : Option (List Range) :=
  if sliceCount = 0 then none
  else
    let sliceSize := (sliceDimSize + sliceCount - 1) / sliceCount
    let ranges := (List.range sliceCount).map fun i =>
      let start := wrap64 (i * sliceSize)
      { start, stop := wrap64 (start + sliceSize) : Range }
    some (ranges.modify (sliceCount - 1) fun r => { r with stop := sliceDimSize })

section
variable {α : Type}

def getCommonShape (tensors : TensorMap α) : Option (List Nat) :=
  match tensors with
  | [] => none
  | (_, first) :: rest => if rest.all fun e => e.2.shape = first.shape then some first.shape else none

/-- The slices of one tensor of `slice_tensors`. -/
def sliceAll (shape : List Nat) (sliceDim : Nat) (ranges : List Range) (t : Tensor α) : List (Tensor α) :=
  ranges.map fun range => floatSlice t (shape.zipIdx.map fun (dim, i) => if i = sliceDim then range else ⟨0, dim⟩)

def sliceTensors (tensors : TensorMap α) (shape : List Nat) (sliceDim : Nat) :
    Option (List (PeerId × List (Tensor α))) := do
  let size ← shape[sliceDim]?
  let ranges ← getRingReduceSliceRanges size tensors.length
  some (tensors.map fun (id, t) => (id, sliceAll shape sliceDim ranges t))

/-- `slice_tensor` of the global ring. -/
def sliceTensor (t : Tensor α) (sliceDim : Nat) (sliceRanges : List Range) : List (Tensor α) :=
  let fullRange := t.shape.map fun dim => (⟨0, dim⟩ : Range)
  sliceRanges.map fun range => floatSlice t (fullRange.set sliceDim range)

-- Tree

variable [Add α]

/-- A parent with up to `arity` children, and the children that take part. -/
def sumChildren (parent : Tensor α) : List (PeerId × Tensor α) → Option (Tensor α)
  | [] => some parent
  | (_, child) :: rest => do
    let parent' ← floatAdd parent (floatToDevice child parent.device)
    sumChildren parent' rest

/-- Phase 1: the parents with their sums, and the ids and devices of their children. -/
def sumGroups (arity : Nat) : List (PeerId × Tensor α) →
    Option (List (PeerId × Tensor α) × List (List (PeerId × DeviceId)))
  | [] => some ([], [])
  | (parent, t) :: rest => do
    let sum ← sumChildren t (rest.take arity)
    let (parents, groups) ← sumGroups arity (rest.drop arity)
    some ((parent, sum) :: parents, ((rest.take arity).map fun (id, u) => (id, u.device)) :: groups)
  termination_by tensors => tensors.length
  decreasing_by
    simp only [List.length_drop, List.length_cons]
    omega

/-- Phase 2: the children of each parent get its tensor. -/
def redistribute : List (PeerId × Tensor α) → List (List (PeerId × DeviceId)) → Option (List (PeerId × Tensor α))
  | [], _ => some []
  | _ :: _, [] => none
  | (parent, t) :: rest, children :: groups => do
    let rest ← redistribute rest groups
    some (children.map (fun (child, device) => (child, floatToDevice t device)) ++ (parent, t) :: rest)

/-- The recursion is as deep as `depth` allows. -/
def allReduceSumTreeInner (arity : Nat) : (depth : Nat) → List (PeerId × Tensor α) →
    Option (List (PeerId × Tensor α))
  | 0, _ => none
  | depth + 1, tensors => do
    let (parents, groups) ← sumGroups arity tensors
    let parents ← if 1 < parents.length then allReduceSumTreeInner arity depth parents else some parents
    redistribute parents groups

def allReduceSumTree (tensors : TensorMap α) (arity : Nat) : Option (TensorMap α) :=
  let input := tensors.mergeSort fun a b => a.2.device ≤ b.2.device
  allReduceSumTreeInner arity (input.length + 1) input

-- Ring

/-- What `dest` does with the slice that comes to it. -/
def receiveSlice (isPhaseOne : Bool) (dest src : Tensor α) : Option (Tensor α) :=
  let src := floatToDevice src dest.device
  if isPhaseOne then floatAdd dest src
  else some (floatSliceAssign dest (dest.shape.map fun d => ⟨0, d⟩) src)

/-- Tensor `i` sends one slice to the next. A slice removed and put back at its index is
one that stays; the destination's is replaced. -/
def ringStep (tensorCount : Nat) (isPhaseOne : Bool) (cycle : Nat)
    (slicedTensors : List (PeerId × List (Tensor α))) (i : Nat) : Option (List (PeerId × List (Tensor α))) := do
  let dest := (i + 1) % tensorCount
  let sliceIdx := if isPhaseOne then (i + (tensorCount - 1) * cycle) % tensorCount
    else (i + 1 + (tensorCount - 1) * cycle) % tensorCount
  let (_, srcSlices) ← slicedTensors[i]?
  let srcSlice ← srcSlices[sliceIdx]?
  let (destId, destSlices) ← slicedTensors[dest]?
  let destSlice ← destSlices[sliceIdx]?
  let destSlice ← receiveSlice isPhaseOne destSlice srcSlice
  some (slicedTensors.set dest (destId, destSlices.set sliceIdx destSlice))

def ringCycles (isPhaseOne : Bool) (slicedTensors : List (PeerId × List (Tensor α))) :
    Option (List (PeerId × List (Tensor α))) :=
  let tensorCount := slicedTensors.length
  (List.range (tensorCount - 1)).foldlM (fun slicedTensors cycle =>
    (List.range tensorCount).foldlM (ringStep tensorCount isPhaseOne cycle) slicedTensors) slicedTensors

def allReduceSumRing (tensors : TensorMap α) : Option (TensorMap α) := do
  let shape ← getCommonShape tensors
  let sliceDim ← getSliceDim shape
  let sliceDimSize ← shape[sliceDim]?
  if sliceDimSize < tensors.length then allReduceSumTree tensors 2
  else
    let slicedTensors ← sliceTensors tensors shape sliceDim
    let slicedTensors ← ringCycles true slicedTensors
    let slicedTensors ← ringCycles false slicedTensors
    slicedTensors.mapM fun (id, slices) => do
      let t ← floatCat slices sliceDim
      some (id, t)

-- Global ring

/-- One node in `do_cycles`. -/
structure Node (α : Type) where
  slices : List (Tensor α)
  sendSliceIdx : Nat

/-- What a node makes of a downloaded slice, which is put on its own device. -/
def receiveGlobal (isPhaseOne : Bool) (old received : Tensor α) : Option (Tensor α) :=
  let tensor := floatToDevice received old.device
  if isPhaseOne then floatAdd old tensor
  else if old.shape ≠ tensor.shape then none else some tensor

/-- One cycle of a node; `received` is what the node before it exposed under the same
transfer id. -/
def Node.cycle (isPhaseOne : Bool) (node : Node α) (received : Tensor α) : Option (Node α) := do
  let sliceCount := node.slices.length
  let recvSliceIdx := (node.sendSliceIdx + sliceCount - 1) % sliceCount
  let old ← node.slices[recvSliceIdx]?
  let new ← receiveGlobal isPhaseOne old received
  some { slices := node.slices.set recvSliceIdx new, sendSliceIdx := recvSliceIdx }

/-- One cycle of all nodes of the ring, node `p` downloading from the one before it. -/
def globalCycle (isPhaseOne : Bool) (nodes : List (Node α)) : Option (List (Node α)) :=
  (List.range nodes.length).mapM fun p => do
    let node ← nodes[p]?
    let previous ← nodes[(p + nodes.length - 1) % nodes.length]?
    let send ← previous.slices[previous.sendSliceIdx]?
    node.cycle isPhaseOne send

def doCycles (isPhaseOne : Bool) (nodes : List (Node α)) : Option (List (Node α)) :=
  (List.range (nodes.length - 1)).foldlM (fun nodes _ => globalCycle isPhaseOne nodes) nodes

/-- `ring_all_reduce_sum` on all nodes, in the order of the ring. -/
def ringAllReduceSum (tensors : List (Tensor α)) : Option (List (Tensor α)) := do
  let nodes ← (List.range tensors.length).mapM fun position => do
    let tensor ← tensors[position]?
    let sliceDim ← getSliceDim tensor.shape
    let size ← tensor.shape[sliceDim]?
    if size < tensors.length then none
    else
      let ranges ← getRingReduceSliceRanges size tensors.length
      some ({ slices := sliceTensor tensor sliceDim ranges, sendSliceIdx := position } : Node α)
  let nodes ← doCycles true nodes
  let nodes ← doCycles false nodes
  (nodes.zip tensors).mapM fun (node, tensor) => do
    let sliceDim ← getSliceDim tensor.shape
    floatCat node.slices sliceDim

end

end Ruda.Collective
