import Ruda.Lib.Text

/-!
# Stop strings

A translation of `safe_text_end` and of the text loop of `generate_response` in
`serving.rs`, for a streamed answer without tools. The pieces are what the decoder gives
for the tokens, with nothing for a token without text.
-/

namespace Ruda.Serving

open Text

/-- The offsets of `stop` up to which `text` ends with it. -/
def heldOffsets (text stop : Text) : List Nat :=
  (((charIndices stop).map Prod.fst).drop 1).filter fun i =>
    match splitAt? stop i with
    | some (head, _) => head.isSuffixOf text
    -- no offset of `char_indices` is between two bytes of a character
    | none => false

def safeTextEnd (text : Text) (stops : List Text) : Res Empty Nat :=
  subUsize (byteLen text) ((stops.flatMap (heldOffsets text)).max?.getD 0)

/-- The text so far, how much of it is sent, and the chunks sent. -/
structure Progress where
  text : Text
  emitted : Nat
  stopped : Bool
  chunks : List Text
  deriving DecidableEq

namespace Progress

def new : Progress := ⟨[], 0, false, []⟩

def firstStop (stops : List Text) (text : Text) : Option Nat := (stops.filterMap fun stop => find stop text).min?

/-- Sends the text up to `stop`, unless it is sent already. -/
def send (p : Progress) (stop : Nat) : Res Empty Progress :=
  if p.emitted < stop then do
    let chunk ← between p.text p.emitted stop
    .ok { p with emitted := stop, chunks := p.chunks ++ [chunk] }
  else .ok p

/-- One pass of the loop. -/
def push (stops : List Text) (p : Progress) (piece : Text) : Res Empty Progress := do
  let text := p.text ++ piece
  match firstStop stops text with
  | some stop =>
    let text ← upTo text stop
    { p with text, stopped := true }.send (byteLen text)
  | none =>
    let stop ← safeTextEnd text stops
    { p with text }.send stop

/-- The loop, which ends with the pieces or at a stop. -/
def run (stops : List Text) : Progress → List Text → Res Empty Progress
  | p, [] => .ok p
  | p, piece :: pieces => do
    let p ← p.push stops piece
    if p.stopped then .ok p else p.run stops pieces

inductive Refused
  | differsFromEmitted
  | precedesEmitted
  deriving DecidableEq

/-- What a call that cannot return an error does in one that can. -/
def lift {α : Type} : Res Empty α → Res Refused α
  | .ok a => .ok a
  | .error .panic => .error .panic

/-- After the loop, where `complete` is the text of all tokens decoded at once. -/
def finish (stops : List Text) (p : Progress) (complete : Text) : Res Refused Progress := do
  let p ← if p.stopped then .ok p else do
    let sent ← lift (upTo p.text p.emitted)
    failIf (¬sent.isPrefixOf complete) .differsFromEmitted
    match firstStop stops complete with
    | some stop =>
      failIf (stop < p.emitted) .precedesEmitted
      let text ← lift (upTo complete stop)
      .ok { p with text, stopped := true }
    | none => .ok { p with text := complete }
  lift (p.send (byteLen p.text))

end Progress

-- What is held back

variable {text a b : Text} {stops : List Text}

/-- More than nothing and less than all of a stop string begins with `b`. -/
def Begins (stops : List Text) (b : Text) : Prop := b ≠ [] ∧ ∃ rest ≠ [], b ++ rest ∈ stops

theorem mem_heldOffsets {stop : Text} {i : Nat} :
    i ∈ heldOffsets text stop ↔ ∃ b rest, stop = b ++ rest ∧ b ≠ [] ∧ rest ≠ [] ∧ b <:+ text ∧ byteLen b = i := by
  unfold heldOffsets
  rw [List.mem_filter, mem_inner_boundary]
  constructor
  · rintro ⟨⟨b, rest, rfl, hb, hrest, rfl⟩, hends⟩
    rw [splitAt?_append] at hends
    exact ⟨b, rest, rfl, hb, hrest, List.isSuffixOf_iff_suffix.mp hends, rfl⟩
  · rintro ⟨b, rest, rfl, hb, hrest, hends, rfl⟩
    refine ⟨⟨b, rest, rfl, hb, hrest, rfl⟩, ?_⟩
    rw [splitAt?_append]
    exact List.isSuffixOf_iff_suffix.mpr hends

/-- `b` is the longest ending of the text that a stop string may begin with. -/
structure HeldBack (stops : List Text) (a b : Text) : Prop where
  begins : b = [] ∨ Begins stops b
  longest : ∀ a' b', a ++ b = a' ++ b' → Begins stops b' → byteLen a ≤ byteLen a'

theorem safeTextEnd_spec (text : Text) (stops : List Text) :
    ∃ a b, text = a ++ b ∧ safeTextEnd text stops = .ok (byteLen a) ∧ HeldBack stops a b := by
  unfold safeTextEnd
  -- the offsets are the lengths of the endings that a stop string may begin with
  have hmem : ∀ i, i ∈ stops.flatMap (heldOffsets text) ↔ ∃ b, Begins stops b ∧ b <:+ text ∧ byteLen b = i := by
    intro i
    rw [List.mem_flatMap]
    constructor
    · rintro ⟨stop, hstop, hi⟩
      obtain ⟨b, rest, rfl, hb, hrest, hends, rfl⟩ := mem_heldOffsets.mp hi
      exact ⟨b, ⟨hb, rest, hrest, hstop⟩, hends, rfl⟩
    · rintro ⟨b, ⟨hb, rest, hrest, hstop⟩, hends, rfl⟩
      exact ⟨_, hstop, mem_heldOffsets.mpr ⟨b, rest, rfl, hb, hrest, hends, rfl⟩⟩
  cases hmax : (stops.flatMap (heldOffsets text)).max? with
  | none =>
    have hnone := List.max?_eq_none_iff.mp hmax
    refine ⟨text, [], (List.append_nil _).symm, subUsize_ok (Nat.zero_le _), .inl rfl, fun a' b' heq hb' => ?_⟩
    rw [List.append_nil] at heq
    have hin := (hmem _).mpr ⟨b', hb', ⟨a', heq.symm⟩, rfl⟩
    rw [hnone] at hin
    cases hin
  | some held =>
    obtain ⟨hin, hle⟩ := List.max?_eq_some_iff.mp hmax
    obtain ⟨b, hb, ⟨a, rfl⟩, rfl⟩ := (hmem held).mp hin
    refine ⟨a, b, rfl, ?_, .inr hb, fun a' b' heq hb' => ?_⟩
    · rw [Option.getD_some, byteLen_append, subUsize_ok (Nat.le_add_left _ _), Nat.add_sub_cancel]
    · have hshort := hle _ ((hmem _).mpr ⟨b', hb', ⟨a', heq.symm⟩, rfl⟩)
      have hlen := congrArg byteLen heq
      rw [byteLen_append, byteLen_append] at hlen
      omega

end Ruda.Serving
