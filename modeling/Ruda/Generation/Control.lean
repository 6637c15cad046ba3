import Ruda.Lib.Border

/-!
# Stop sequences

A translation of `StopSequenceMatcher` of `generation/control.rs`: one prefix function and
one length for each pattern. Patterns and prefixes are indexed as the source indexes them,
and an index out of range panics.
-/

namespace Ruda.Generation

/-- `list[index]` -/
def at_ {α : Type} (list : List α) (index : Nat) : Res Empty α :=
  match list[index]? with
  | some a => .ok a
  | none => .error .panic

/-- `while length > 0 && pattern[length] != token { length = prefix[length - 1]; }`. A loop that
still goes on after `fuel` passes counts as a panic; one that gets shorter takes at most `length`. -/
def fallBack (pattern : List Int) (prefixes : List Nat) (token : Int) : (fuel length : Nat) → Res Empty Nat
  | 0, length => if length = 0 then .ok 0 else .error .panic
  | fuel + 1, length =>
    if length = 0 then .ok 0
    else do
      let expected ← at_ pattern length
      if expected ≠ token then do
        let shorter ← at_ prefixes (length - 1)
        fallBack pattern prefixes token fuel shorter
      else .ok length

/-- The loop, and the token if it comes next. -/
def lengthen (pattern : List Int) (prefixes : List Nat) (token : Int) (length : Nat) : Res Empty Nat := do
  let length ← fallBack pattern prefixes token length length
  let expected ← at_ pattern length
  .ok (if expected = token then length + 1 else length)

/-- The prefix function of a pattern, entry by entry. -/
def prefixOf (pattern : List Int) : Res Empty (List Nat) :=
  (List.range' 1 (pattern.length - 1)).foldlM (fun prefixes index => do
    let length ← at_ prefixes (index - 1)
    let token ← at_ pattern index
    let length ← lengthen pattern prefixes token length
    .ok (prefixes.set index length)) (List.replicate pattern.length 0)

structure StopSequenceMatcher where
  patterns : List (List Int)
  prefixes : List (List Nat)
  matched : List Nat

namespace StopSequenceMatcher

def new (patterns : List (List Int)) : Res Empty StopSequenceMatcher := do
  let prefixes ← patterns.mapM prefixOf
  .ok ⟨patterns, prefixes, List.replicate patterns.length 0⟩

/-- One pass of the loop of `push`, over pattern `index`. -/
def pushOne (prefixes : List (List Nat)) (token : Int) (state : Option Nat × List Nat) (entry : List Int × Nat) :
    Res Empty (Option Nat × List Nat) := do
  let (firstMatch, matched) := state
  let (pattern, index) := entry
  let table ← at_ prefixes index
  let length ← at_ matched index
  let length ← lengthen pattern table token length
  if length = pattern.length then do
    let shorter ← at_ table (length - 1)
    .ok (firstMatch.or (some index), matched.set index shorter)
  else .ok (firstMatch, matched.set index length)

def push (m : StopSequenceMatcher) (token : Int) : Res Empty (Option Nat × StopSequenceMatcher) := do
  let (firstMatch, matched) ← m.patterns.zipIdx.foldlM (pushOne m.prefixes token) (none, m.matched)
  .ok (firstMatch, { m with matched })

/-- What pushing tokens one by one answers. -/
def pushAll : StopSequenceMatcher → List Int → Res Empty (List (Option Nat))
  | _, [] => .ok []
  | m, token :: tokens => do
    let (answer, m) ← m.push token
    let answers ← m.pushAll tokens
    .ok (answer :: answers)

example : (do (← new [[1, 2, 1], [2, 1], [1]]).pushAll [1, 2, 1, 2, 1]) =
    .ok [some 2, none, some 0, none, some 0] := by decide

end StopSequenceMatcher

end Ruda.Generation
