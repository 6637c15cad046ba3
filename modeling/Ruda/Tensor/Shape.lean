import Ruda.Lib.Fallible
import Mathlib.Algebra.BigOperators.Group.List.Basic

/-!
# Shapes

A translation of `Shape::reshape` in `tensor/shape.rs`. Products are of 64 bits and panic
when they overflow, at every factor; the arguments are `isize`s. The reason of an error has
what its text is made of.
-/

namespace Ruda.Tensor

abbrev Shape := List Nat

/-- `*` on `usize`. -/
def usizeMul {ε : Type} (a b : Nat) : Res ε Nat := if a * b < 2 ^ 64 then .ok (a * b) else .error .panic

/-- `MetadataError::Invalid`, of `reshape` -/
inductive Invalid
  | repeated
  | negative
  | sizeDiffers (current : Shape) (target : List Nat)
  | cannotInfer (current : Shape) (target : List Int)
  deriving DecidableEq, Repr

def numElements {ε : Type} (shape : Shape) : Res ε Nat := shape.foldlM usizeMul 1

/-- What the loop over the arguments has. -/
structure Resolved where
  inferIndex : Option Nat
  dims : List Nat
  newSize : Nat
  deriving DecidableEq, Repr

/-- The loop over the arguments from place `idx` on. -/
def resolve (shape : Shape) : (idx : Nat) → Resolved → List Int → Res Invalid Resolved
  | _, st, [] => .ok st
  | idx, st, s :: args =>
    if 0 < s then do
      let newSize ← usizeMul st.newSize s.toNat
      resolve shape (idx + 1) { st with newSize, dims := st.dims ++ [s.toNat] } args
    else if s = 0 then
      -- Past the rank of the source the index panics.
      match shape[idx]? with
      | none => .error .panic
      | some dim => do
        let newSize ← usizeMul st.newSize dim
        resolve shape (idx + 1) { st with newSize, dims := st.dims ++ [dim] } args
    else if s = -1 then
      match st.inferIndex with
      | none => resolve shape (idx + 1) { st with inferIndex := some idx, dims := st.dims ++ [1] } args
      | some _ => .error (.err .repeated)
    else .error (.err .negative)

/-- `a.is_multiple_of(b)`, of zero only zero. -/
def isMultipleOf (a b : Nat) : Bool := if b = 0 then a = 0 else a % b = 0

def reshape (shape : Shape) (args : List Int) : Res Invalid Shape := do
  let st ← resolve shape 0 ⟨none, [], 1⟩ args
  let sourceSize ← numElements shape
  match st.inferIndex with
  | none =>
    if sourceSize ≠ st.newSize then .error (.err (.sizeDiffers shape st.dims)) else .ok st.dims
  | some idx =>
    if ¬isMultipleOf sourceSize st.newSize then .error (.err (.cannotInfer shape args))
    else if st.newSize = 0 then .error .panic
    else .ok (st.dims.set idx (sourceSize / st.newSize))

-- What a reshape should give

/-- `s` is the shape that the arguments stand for. -/
structure Resolves (shape : Shape) (args : List Int) (s : Shape) : Prop where
  rank : s.length = args.length
  allowed : ∀ arg ∈ args, -1 ≤ arg
  once : ∀ i j : Nat, args[i]? = some (-1) → args[j]? = some (-1) → i = j
  kept : ∀ (idx : Nat) (arg : Int), args[idx]? = some arg → 0 < arg → s[idx]? = some arg.toNat
  copied : ∀ idx : Nat, args[idx]? = some 0 → idx < shape.length ∧ s[idx]? = shape[idx]?
  size : s.prod = shape.prod
  inferred : ∀ (idx dim : Nat), args[idx]? = some (-1) → (s.set idx dim).prod = shape.prod → s[idx]? = some dim

/-- The call does not panic, and gives the shape if there is one. -/
structure Specified (shape : Shape) (args : List Int) : Prop where
  total : reshape shape args ≠ .error .panic
  exact : ∀ s, reshape shape args = .ok s ↔ Resolves shape args s

-- When it does

/-- The arguments in front of the first that is an error: a second `-1` or less than that. -/
def accepted : (inferred : Bool) → List Int → List Int
  | _, [] => []
  | inferred, s :: args => if s < -1 ∨ (s = -1 ∧ inferred) then [] else s :: accepted (inferred || s = -1) args

/-- The dimensions before the inferred one is known, which counts as one. -/
def known (shape : Shape) : (idx : Nat) → List Int → List Nat
  | _, [] => []
  | idx, s :: args =>
    (if 0 < s then s.toNat else if s = 0 then (shape[idx]?).getD 0 else 1) :: known shape (idx + 1) args

/-- No product on the way through the factors overflows. -/
def Fits (start : Nat) (factors : List Nat) : Prop := ∀ k, start * (factors.take k).prod < 2 ^ 64

/-- Zeros are in the rank of the source, the products fit, and with a dimension to infer the
rest is not empty where the source is. -/
structure Safe (shape : Shape) (args : List Int) : Prop where
  zeros : ∀ idx : Nat, (accepted false args)[idx]? = some 0 → idx < shape.length
  fits : Fits 1 (known shape 0 (accepted false args))
  source : accepted false args = args → Fits 1 shape
  infer : accepted false args = args → -1 ∈ args → shape.prod = 0 → (known shape 0 args).prod ≠ 0

end Ruda.Tensor
