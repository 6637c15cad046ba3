import Ruda.Tensor.Shape

/-!
# Reshaping by strides

A translation of `striding/reshape.rs`. What the source keeps as an index into the old
dimensions stands as the dimensions from it on, or up to it.
-/

namespace Ruda.Tensor

/-- The strides of the dimensions and the product of all of them, from the right. -/
def contiguousLoop : (shape : List Nat) → Res Empty (List Nat × Nat)
  | [] => .ok ([], 1)
  | dim :: dims => do
    let r ← contiguousLoop dims
    let current ← usizeMul r.2 dim
    pure (r.2 :: r.1, current)

def contiguousStrides (shape : List Nat) : Res Empty (List Nat) := do
  let r ← contiguousLoop shape
  pure r.1

def isContiguous (shape strides : List Nat) : Res Empty Bool :=
  if shape = [] then .ok true
  else do
    let expected ← contiguousStrides shape
    pure ((expected.zip strides).all fun p => p.1 = p.2)

inductive ReshapeAction
  | updateStrides (strides : List Nat)
  | recompute
  | noChange
  deriving DecidableEq

inductive ReshapeAnalysis
  | isContiguous
  | highlyPermuted
  | broadcasted
  | split
  | smallerRank
  | noChange
  deriving DecidableEq

/-- The numbers of new dimensions and of old ones. -/
def broadcastStrides (nNewBatch rankPrev numElems : Nat) (strides : List Nat) : Res Empty (List Nat) :=
  if strides.length ≤ rankPrev then
    .ok (List.replicate nNewBatch numElems ++ strides ++ List.replicate (rankPrev - strides.length) numElems)
  else .error .panic

/-- An old dimension with its stride, and those before it, the nearest first. -/
structure SplitState where
  old : Nat × Nat
  before : List (Nat × Nat)
  currentStride : Nat
  dimProd : Nat

/-- Passes by dimensions of one element, but not by the first. -/
def skipUnits (old : Nat × Nat) : (before : List (Nat × Nat)) → (Nat × Nat) × List (Nat × Nat)
  | [] => (old, [])
  | prev :: before => if old.1 = 1 then skipUnits prev before else (old, prev :: before)

/-- The state at an old dimension. -/
def SplitState.start (r : (Nat × Nat) × List (Nat × Nat)) : SplitState := ⟨r.1, r.2, r.1.2, 1⟩

/-- The old dimension before, `saturating_sub`. -/
def SplitState.next (st : SplitState) : SplitState :=
  match st.before with
  | prev :: before => .start (skipUnits prev before)
  | [] => .start (skipUnits st.old [])

def splitStep (dim : Nat) (r : List Nat × SplitState) : Res Empty (List Nat × SplitState) := do
  let dimProd ← usizeMul r.2.dimProd dim
  let stridesNew := r.2.currentStride :: r.1
  if dim = 1 then pure (stridesNew, { r.2 with dimProd := dimProd })
  else if dimProd = r.2.old.1 then pure (stridesNew, r.2.next)
  else do
    let currentStride ← usizeMul r.2.currentStride dim
    pure (stridesNew, { r.2 with currentStride := currentStride, dimProd := dimProd })

/-- The new dimensions from the right. -/
def splitLoop (start : SplitState) : (shapeNew : List Nat) → Res Empty (List Nat × SplitState)
  | [] => .ok ([], start)
  | dim :: dims => do
    let r ← splitLoop start dims
    splitStep dim r

def splitStrides (shape strides shapeNew : List Nat) : Res Empty (List Nat) :=
  match (shape.zip strides).reverse with
  | [] => .error .panic
  | old :: before => do
    let r ← splitLoop (.start (skipUnits old before)) shapeNew
    pure r.1

/-- Whether the new dimensions split the old ones, from the left; `dimProd` is the part of the first
old dimension that was found. -/
def splits : (shapeNew : List Nat) → (dimProd : Nat) → (olds : List Nat) → Res Empty Bool
  | [], _, _ => .ok true
  | dim :: dims, dimProd, olds => do
    let dimProd ← usizeMul dimProd dim
    if dim = 1 then splits dims dimProd olds
    else match olds.dropWhile (· = 1) with
      | [] => .ok false
      | old :: rest =>
        if dimProd = old then splits dims 1 rest
        else if dimProd > old then .ok false
        else splits dims dimProd (old :: rest)

def reshapeAnalysis (shape : List Nat) (strides : Option (List Nat)) (shapeNew : List Nat) : Res Empty ReshapeAnalysis := do
  let contiguous ← match strides with
    | some strides => Tensor.isContiguous shape strides
    | none => .ok false
  if contiguous then pure .isContiguous
  else if shapeNew.length < shape.length then pure .smallerRank
  else
    let nNewBatch := shapeNew.length - shape.length
    if nNewBatch > 0 then
      if shape = shapeNew.drop nNewBatch ∧ ∀ dim ∈ shapeNew.take nNewBatch, dim = 1 then pure .broadcasted
      else do
        let split ← splits shapeNew 1 shape
        pure (if split then .split else .highlyPermuted)
    else pure (if shape = shapeNew then .noChange else .highlyPermuted)

def ReshapeAnalysis.action (analysis : ReshapeAnalysis) (shape strides shapeNew : List Nat) : Res Empty ReshapeAction :=
  match analysis with
  | isContiguous => do
    let strides ← contiguousStrides shapeNew
    pure (.updateStrides strides)
  | noChange => .ok .noChange
  | highlyPermuted | smallerRank => .ok .recompute
  | broadcasted => do
    let numElems ← numElements shape
    let stridesNew ← broadcastStrides (shapeNew.length - shape.length) shape.length numElems strides
    pure (.updateStrides stridesNew)
  | split => do
    let stridesNew ← splitStrides shape strides shapeNew
    pure (.updateStrides stridesNew)

def reshapeAction (shape strides shapeNew : List Nat) : Res Empty ReshapeAction := do
  let analysis ← reshapeAnalysis shape (some strides) shapeNew
  analysis.action shape strides shapeNew

/-- The strides of the new tensor, unless it is recomputed. -/
def ReshapeAction.newStrides (strides : List Nat) : ReshapeAction → Option (List Nat)
  | updateStrides stridesNew => some stridesNew
  | recompute => none
  | noChange => some strides

end Ruda.Tensor
