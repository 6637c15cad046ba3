import Ruda.Lib.Fallible

/-!
# Text by byte offsets

Text as characters, indexed by byte offsets of its UTF-8 encoding. An offset between two
bytes of a character is no boundary, and cutting there panics.
-/

namespace Ruda

abbrev Text := List Char

namespace Text

variable {s a b p : Text} {c : Char} {n : Nat}

/-- `len` -/
def byteLen : Text → Nat
  | [] => 0
  | c :: s => c.utf8Size + byteLen s

@[simp] theorem byteLen_nil : byteLen [] = 0 := rfl

@[simp] theorem byteLen_cons (c : Char) (s : Text) : byteLen (c :: s) = c.utf8Size + byteLen s := rfl

@[simp] theorem byteLen_append (a b : Text) : byteLen (a ++ b) = byteLen a + byteLen b := by
  induction a with
  | nil => simp
  | cons c a ih => simp [ih, Nat.add_assoc]

theorem byteLen_pos (h : s ≠ []) : 0 < byteLen s := by
  cases s with
  | nil => exact absurd rfl h
  | cons c s =>
    have := c.utf8Size_pos
    rw [byteLen_cons]
    omega

theorem byteLen_eq_zero : byteLen s = 0 ↔ s = [] := by
  constructor
  · intro h
    by_contra hne
    exact (byteLen_pos hne).ne' h
  · rintro rfl
    rfl

theorem prefix_of_byteLen_le {a' b' : Text} (h : a ++ b = a' ++ b') (hle : byteLen a ≤ byteLen a') : a <+: a' := by
  induction a generalizing a' with
  | nil => exact List.nil_prefix
  | cons c a ih =>
    have hpos := c.utf8Size_pos
    cases a' with
    | nil =>
      simp only [byteLen_cons, byteLen_nil] at hle
      omega
    | cons c' a' =>
      obtain ⟨rfl, htail⟩ := List.cons.inj h
      simp only [byteLen_cons] at hle
      exact List.cons_prefix_cons.mpr ⟨rfl, ih htail (by omega)⟩

-- Cutting

/-- The two parts at a byte offset, if it is a boundary. -/
def splitAt? : Text → Nat → Option (Text × Text)
  | s, 0 => some ([], s)
  | [], _ + 1 => none
  | c :: s, n + 1 => if c.utf8Size ≤ n + 1 then (splitAt? s (n + 1 - c.utf8Size)).map fun (a, b) => (c :: a, b) else none

theorem splitAt?_append (a b : Text) : splitAt? (a ++ b) (byteLen a) = some (a, b) := by
  induction a with
  | nil => rw [byteLen_nil, splitAt?]; rfl
  | cons c a ih =>
    have hpos := c.utf8Size_pos
    obtain ⟨n, hn⟩ := Nat.exists_eq_succ_of_ne_zero (show byteLen (c :: a) ≠ 0 by rw [byteLen_cons]; omega)
    rw [hn, List.cons_append, splitAt?]
    rw [byteLen_cons] at hn
    rw [if_pos (by omega), show n + 1 - c.utf8Size = byteLen a by omega, ih]
    rfl

/-- `&text[..at]`, or `text.truncate(at)` -/
def upTo (s : Text) (n : Nat) : Res Empty Text :=
  match splitAt? s n with
  | some (a, _) => .ok a
  | none => .error .panic

/-- `&text[from..to]` -/
def between (s : Text) (start stop : Nat) : Res Empty Text := do
  let s ← upTo s stop
  match splitAt? s start with
  | some (_, b) => .ok b
  | none => .error .panic

theorem upTo_append (a b : Text) : upTo (a ++ b) (byteLen a) = .ok a := by
  rw [upTo, splitAt?_append]

theorem between_append (a b d : Text) : between (a ++ b ++ d) (byteLen a) (byteLen (a ++ b)) = .ok b := by
  rw [between, upTo_append, ok_bind, splitAt?_append]

-- Searching

/-- `text.find(p)`, the offset of the first place where `p` is. -/
def find (p : Text) : Text → Option Nat
  | [] => if p = [] then some 0 else none
  | c :: s => if p.isPrefixOf (c :: s) then some 0 else (find p s).map (c.utf8Size + ·)

theorem find_eq_none : find p s = none ↔ ¬p <:+: s := by
  induction s with
  | nil => simp [find]
  | cons c s ih =>
    rw [find, List.infix_cons_iff]
    split
    · next h =>
      exact ⟨nofun, fun hn => absurd (.inl (List.isPrefixOf_iff_prefix.mp h)) hn⟩
    · next h =>
      rw [Option.map_eq_none_iff, ih, not_or]
      exact ⟨fun hs => ⟨fun hp => h (List.isPrefixOf_iff_prefix.mpr hp), hs⟩, fun hs => hs.2⟩

theorem find_eq_some (h : find p s = some n) :
    ∃ a b, s = a ++ p ++ b ∧ byteLen a = n ∧ ∀ a' b', s = a' ++ p ++ b' → byteLen a ≤ byteLen a' := by
  induction s generalizing n with
  | nil =>
    unfold find at h
    split at h
    · next hp =>
      subst hp
      exact ⟨[], [], rfl, Option.some.inj h, fun _ _ _ => Nat.zero_le _⟩
    · cases h
  | cons c s ih =>
    rw [find] at h
    split at h
    · next hp =>
      obtain ⟨b, hb⟩ := List.isPrefixOf_iff_prefix.mp hp
      exact ⟨[], b, hb.symm, Option.some.inj h, fun _ _ _ => Nat.zero_le _⟩
    · next hp =>
      obtain ⟨k, hk, rfl⟩ := Option.map_eq_some_iff.mp h
      obtain ⟨a, b, rfl, rfl, hmin⟩ := ih hk
      refine ⟨c :: a, b, rfl, rfl, fun a' b' heq => ?_⟩
      cases a' with
      | nil => exact absurd (List.isPrefixOf_iff_prefix.mpr ⟨b', heq.symm⟩) hp
      | cons c' a' =>
        obtain ⟨rfl, htail⟩ := List.cons.inj heq
        exact Nat.add_le_add_left (hmin a' b' htail) _

-- Boundaries

def charIndicesFrom : Nat → Text → List (Nat × Char)
  | _, [] => []
  | n, c :: s => (n, c) :: charIndicesFrom (n + c.utf8Size) s

/-- `char_indices` -/
def charIndices (s : Text) : List (Nat × Char) := charIndicesFrom 0 s

theorem mem_charIndicesFrom {i : Nat} {k : Nat} :
    (i, c) ∈ charIndicesFrom k s ↔ ∃ a b, s = a ++ c :: b ∧ i = k + byteLen a := by
  induction s generalizing k with
  | nil => simp [charIndicesFrom]
  | cons d s ih =>
    rw [charIndicesFrom, List.mem_cons, ih]
    constructor
    · rintro (h | ⟨a, b, rfl, rfl⟩)
      · obtain ⟨rfl, rfl⟩ := Prod.mk.inj h
        exact ⟨[], s, rfl, rfl⟩
      · refine ⟨d :: a, b, rfl, ?_⟩
        rw [byteLen_cons, Nat.add_assoc]
    · rintro ⟨a, b, heq, rfl⟩
      cases a with
      | nil =>
        obtain ⟨rfl, rfl⟩ := List.cons.inj heq
        exact .inl rfl
      | cons d' a =>
        obtain ⟨rfl, rfl⟩ := List.cons.inj heq
        refine .inr ⟨a, b, rfl, ?_⟩
        rw [byteLen_cons, Nat.add_assoc]

theorem mem_inner_boundary {i : Nat} : i ∈ ((charIndices s).map Prod.fst).drop 1 ↔
    ∃ a b, s = a ++ b ∧ a ≠ [] ∧ b ≠ [] ∧ byteLen a = i := by
  cases s with
  | nil => simp [charIndices, charIndicesFrom]
  | cons d s =>
    rw [charIndices, charIndicesFrom, List.map_cons, List.drop_one, List.tail_cons, List.mem_map]
    constructor
    · rintro ⟨⟨i, c⟩, hmem, rfl⟩
      obtain ⟨a, b, rfl, rfl⟩ := mem_charIndicesFrom.mp hmem
      exact ⟨d :: a, c :: b, rfl, List.cons_ne_nil _ _, List.cons_ne_nil _ _, by rw [byteLen_cons, Nat.zero_add]⟩
    · rintro ⟨a, b, heq, ha, hb, rfl⟩
      cases a with
      | nil => exact absurd rfl ha
      | cons d' a =>
        obtain ⟨rfl, rfl⟩ := List.cons.inj heq
        cases b with
        | nil => exact absurd rfl hb
        | cons c b =>
          exact ⟨(byteLen (d :: a), c), mem_charIndicesFrom.mpr ⟨a, b, rfl, by rw [byteLen_cons, Nat.zero_add]⟩, rfl⟩

end Text

end Ruda
