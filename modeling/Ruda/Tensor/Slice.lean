import Ruda.Lib.Decimal
import Ruda.Serving.ToolCalls

/-!
# Slices

A translation of `tensor/slice/parse.rs` and of the conversions in `base.rs` and
`ranges.rs`. Bounds are `isize`s and their sums panic when they overflow; an error of
`FromStr` has the text it is about.
-/

namespace Ruda.Tensor

open Decimal

/-- `end` is a keyword here. -/
structure Slice where
  start : Int
  stop : Option Int
  step : Int
  deriving DecidableEq, Repr

def IsIsize (n : Int) : Prop := -2 ^ 63 ≤ n ∧ n < 2 ^ 63

instance (n : Int) : Decidable (IsIsize n) := inferInstanceAs (Decidable (_ ∧ _))

/-- `+` on `isize`. -/
def isizeAdd {ε : Type} (a b : Int) : Res ε Int := if IsIsize (a + b) then .ok (a + b) else .error .panic

-- Conversions

def handleSignedInclusiveEnd {ε : Type} (stop : Int) : Res ε (Option Int) :=
  if stop = -1 then .ok none else some <$> isizeAdd stop 1

namespace Slice

def index (idx : Int) : Res Empty Slice := do
  let stop ← handleSignedInclusiveEnd idx
  pure ⟨idx, stop, 1⟩

def ofRange (start stop : Int) : Slice := ⟨start, some stop, 1⟩

def ofRangeInclusive (start stop : Int) : Res Empty Slice := do
  let stop ← handleSignedInclusiveEnd stop
  pure ⟨start, stop, 1⟩

def ofRangeFrom (start : Int) : Slice := ⟨start, none, 1⟩

def ofRangeTo (stop : Int) : Slice := ⟨0, some stop, 1⟩

def ofRangeToInclusive (stop : Int) : Res Empty Slice := do
  let stop ← handleSignedInclusiveEnd stop
  pure ⟨0, stop, 1⟩

def full : Slice := ⟨0, none, 1⟩

/-- `size as isize` -/
def asIsize (size : Nat) : Int := if size < 2 ^ 63 then size else size - 2 ^ 64

def convertSignedIndex (index : Int) (size : Nat) : Res Empty Nat :=
  if index < 0 then do
    let sum ← isizeAdd (asIsize size) index
    pure (max sum 0).toNat
  else .ok (min index.toNat size)

def toRange (s : Slice) (size : Nat) : Res Empty (Nat × Nat) := do
  let start ← convertSignedIndex s.start size
  match s.stop with
  | some stop => do
    let stop ← convertSignedIndex stop size
    pure (start, stop)
  | none => pure (start, size)

-- Text

/-- The part of `Display` for anything but a single index. -/
def displayRange (s : Slice) : Text :=
  (if s.start ≠ 0 then render s.start else []) ++ ['.', '.'] ++
    (match s.stop with
      | some stop => render stop
      | none => []) ++
    if s.step ≠ 1 then ';' :: render s.step else []

def display (s : Slice) : Res Empty Text :=
  match s.stop with
  | some stop =>
    if s.step = 1 then do
      let last ← isizeAdd stop (-1)
      pure (if s.start = last then render s.start else displayRange s)
    else .ok (displayRange s)
  | none => .ok (displayRange s)

/-- `ExpressionError`, of a text that is no expression for a slice. -/
inductive ExpressionError
  | invalidInteger (v source : Text)
  | emptyExpression (source : Text)
  | stepZero (source : Text)
  deriving DecidableEq, Repr

def parseInt (source v : Text) : Res ExpressionError Int :=
  okOr (parse (-2 ^ 63) (2 ^ 63) v) (.invalidInteger v source)

def parseStart (source v : Text) : Res ExpressionError Int := if v = [] then .ok 0 else parseInt source v

def parseStop (source v : Text) : Res ExpressionError (Option Int) :=
  match v with
  | [] => .ok none
  | '=' :: v => do
    let stop ← parseInt source v
    let stop ← isizeAdd stop 1
    pure (some stop)
  | v => do
    let stop ← parseInt source v
    pure (some stop)

/-- The bounds, of the part in front of the step. -/
def parseBounds (source s : Text) : Res ExpressionError (Int × Option Int) :=
  match splitOnce ['.', '.'] s with
  | some (start, stop) => do
    let start ← parseStart source start
    let stop ← parseStop source stop
    pure (start, stop)
  | none => do
    let start ← parseInt source s
    let stop ← isizeAdd start 1
    pure (start, some stop)

def parseWith (source s : Text) (step : Int) : Res ExpressionError Slice := do
  failIf (s = []) (.emptyExpression source)
  let bounds ← parseBounds source s
  failIf (step = 0) (.stepZero source)
  pure ⟨bounds.1, bounds.2, step⟩

def fromStr (source : Text) : Res ExpressionError Slice :=
  match splitOnce [';'] (Serving.trim source) with
  | some (head, tail) => do
    let step ← parseInt source tail
    parseWith source head step
  | none => parseWith source (Serving.trim source) 1

end Slice

-- The notations

/-- An index or a range, as a text and as a Rust value. -/
inductive Notation
  | index (i : Int)
  | range (start stop : Int)
  | rangeInclusive (start stop : Int)
  | rangeFrom (start : Int)
  | rangeTo (stop : Int)
  | rangeToInclusive (stop : Int)
  | full
  deriving DecidableEq, Repr

namespace Notation

def text : Notation → Text
  | .index i => render i
  | .range start stop => render start ++ ['.', '.'] ++ render stop
  | .rangeInclusive start stop => render start ++ ['.', '.'] ++ '=' :: render stop
  | .rangeFrom start => render start ++ ['.', '.'] ++ []
  | .rangeTo stop => [] ++ ['.', '.'] ++ render stop
  | .rangeToInclusive stop => [] ++ ['.', '.'] ++ '=' :: render stop
  | .full => [] ++ ['.', '.'] ++ []

/-- `Slice::from` -/
def slice : Notation → Res Empty Slice
  | .index i => Slice.index i
  | .range start stop => .ok (Slice.ofRange start stop)
  | .rangeInclusive start stop => Slice.ofRangeInclusive start stop
  | .rangeFrom start => .ok (Slice.ofRangeFrom start)
  | .rangeTo stop => .ok (Slice.ofRangeTo stop)
  | .rangeToInclusive stop => Slice.ofRangeToInclusive stop
  | .full => .ok Slice.full

/-- The text with a step after it. -/
def textWith (n : Notation) : Option Int → Text
  | some step => n.text ++ [';'] ++ render step
  | none => n.text

/-- `from_range_stepped` where there is a step. -/
def sliceWith (n : Notation) : Option Int → Res Empty Slice
  | some step => do
    if step = 0 then .error .panic else pure ()
    let slice ← n.slice
    pure { slice with step }
  | none => n.slice

/-- The bounds are `isize`s. -/
def InRange : Notation → Prop
  | .index i => IsIsize i
  | .range start stop | .rangeInclusive start stop => IsIsize start ∧ IsIsize stop
  | .rangeFrom start => IsIsize start
  | .rangeTo stop | .rangeToInclusive stop => IsIsize stop
  | .full => True

/-- The last index selected is neither the last of the dimension, as `-1`, nor the largest. -/
def Exclusive : Notation → Prop
  | .index last | .rangeInclusive _ last | .rangeToInclusive last => last ≠ -1 ∧ last ≠ 2 ^ 63 - 1
  | _ => True

/-- Text and value give slices, with one step and of one range in every dimension. -/
def Agree (n : Notation) (step : Option Int) : Prop :=
  ∃ s t, Slice.fromStr (n.textWith step) = .ok s ∧ n.sliceWith step = .ok t ∧ s.step = t.step ∧
    ∀ size, s.toRange size = t.toRange size

end Notation

/-- The text of the slice gives the slice. -/
def Slice.RoundTrips (s : Slice) : Prop := ∃ text, s.display = .ok text ∧ Slice.fromStr text = .ok s

end Ruda.Tensor
