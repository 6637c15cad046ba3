import Mathlib

/-!
# Sets as sorted lists of ranges

Half-open ranges over a linear order, and lists of them in canonical form:
nonempty, sorted, with a gap between neighbours (`Apart`). `Covers l x` is the
set such a list denotes. Given are the facts that algorithms on these lists
use: when two ranges meet, what the hull of two touching ranges covers, and
where a range that touches nothing is inserted.
-/

namespace Ruda

/-- `start..stop` -/
structure Range (α : Type) where
  start : α
  stop : α
  deriving DecidableEq, Repr

variable {α : Type} [LinearOrder α]

instance : Membership α (Range α) := ⟨fun r x => r.start ≤ x ∧ x < r.stop⟩

namespace Range

theorem mem_iff {r : Range α} {x : α} : x ∈ r ↔ r.start ≤ x ∧ x < r.stop := Iff.rfl

instance (r : Range α) (x : α) : Decidable (x ∈ r) :=
  decidable_of_iff (r.start ≤ x ∧ x < r.stop) Iff.rfl

def IsEmpty (r : Range α) : Prop := ¬r.start < r.stop

instance (r : Range α) : Decidable r.IsEmpty := inferInstanceAs (Decidable (¬_))

/-- There is a gap between `r` and a later `r'`. -/
def Before (r r' : Range α) : Prop := r.stop < r'.start

/-- The two ranges have a point in common. -/
def Meets (r r' : Range α) : Prop := max r.start r'.start < min r.stop r'.stop

instance (r r' : Range α) : Decidable (r.Meets r') :=
  inferInstanceAs (Decidable (max r.start r'.start < min r.stop r'.stop))

theorem IsEmpty.not_mem {r : Range α} (h : r.IsEmpty) (x : α) : x ∉ r :=
  fun hx => h (hx.1.trans_lt hx.2)

theorem meets_iff {r r' : Range α} : r.Meets r' ↔ ∃ x, x ∈ r ∧ x ∈ r' := by
  constructor
  · intro h
    obtain ⟨h₁, h₂⟩ := lt_min_iff.mp h
    exact ⟨max r.start r'.start, ⟨le_max_left _ _, h₁⟩, ⟨le_max_right _ _, h₂⟩⟩
  · rintro ⟨x, hx, hx'⟩
    exact (max_le hx.1 hx'.1).trans_lt (lt_min hx.2 hx'.2)

theorem mem_hull {r r' : Range α} {x : α} (h : r'.start ≤ r.stop) (h' : r.start ≤ r'.stop) :
    x ∈ (⟨min r.start r'.start, max r.stop r'.stop⟩ : Range α) ↔ x ∈ r ∨ x ∈ r' := by
  simp only [mem_iff, min_le_iff, lt_max_iff]
  constructor
  · rintro ⟨h₁, h₂⟩
    by_cases hx : x < r.stop
    · by_cases hx' : r.start ≤ x
      · exact .inl ⟨hx', hx⟩
      · exact .inr ⟨h₁.resolve_left hx', (not_le.mp hx').trans_le h'⟩
    · exact .inr ⟨h.trans (not_lt.mp hx), h₂.resolve_left hx⟩
  · rintro (⟨h₁, h₂⟩ | ⟨h₁, h₂⟩)
    · exact ⟨.inl h₁, .inl h₂⟩
    · exact ⟨.inr h₁, .inr h₂⟩

end Range

/-- Nonempty ranges in order, each with a gap before the next. -/
def Apart (l : List (Range α)) : Prop := (∀ r ∈ l, r.start < r.stop) ∧ l.Pairwise Range.Before

/-- The points of the ranges in `l`. -/
def Covers (l : List (Range α)) (x : α) : Prop := ∃ r ∈ l, x ∈ r

section
variable {l : List (Range α)} {r : Range α} {x : α}

@[simp] theorem covers_nil : ¬Covers ([] : List (Range α)) x := by simp [Covers]

@[simp] theorem covers_cons : Covers (r :: l) x ↔ x ∈ r ∨ Covers l x := by simp [Covers]

theorem apart_nil : Apart ([] : List (Range α)) := ⟨by simp, .nil⟩

theorem apart_cons : Apart (r :: l) ↔ r.start < r.stop ∧ (∀ r' ∈ l, r.Before r') ∧ Apart l := by
  simp only [Apart, List.forall_mem_cons, List.pairwise_cons]
  tauto

theorem apart_singleton (h : r.start < r.stop) : Apart [r] :=
  apart_cons.mpr ⟨h, by simp, apart_nil⟩

theorem Apart.sublist {l' : List (Range α)} (h : Apart l) (hs : l'.Sublist l) : Apart l' :=
  ⟨fun r hr => h.1 r (hs.subset hr), h.2.sublist hs⟩

theorem Apart.exists_covers (h : Apart l) (hne : l ≠ []) : ∃ x, Covers l x := by
  cases l with
  | nil => exact absurd rfl hne
  | cons r l => exact ⟨r.start, r, by simp, le_rfl, h.1 r (by simp)⟩

/-- Insert before the first range that starts after `r` stops. -/
def insertRange (r : Range α) (l : List (Range α)) : List (Range α) :=
  l.insertIdx (l.findIdx fun r' => decide (r.stop < r'.start)) r

theorem mem_insertRange {r' : Range α} : r' ∈ insertRange r l ↔ r' = r ∨ r' ∈ l :=
  List.mem_insertIdx (List.findIdx_le_length)

theorem covers_insertRange : Covers (insertRange r l) x ↔ x ∈ r ∨ Covers l x := by
  simp only [Covers, mem_insertRange, or_and_right, exists_or, exists_eq_left]

theorem insertRange_cons {r' : Range α} : insertRange r (r' :: l) =
    if r.stop < r'.start then r :: r' :: l else r' :: insertRange r l := by
  unfold insertRange
  rw [List.findIdx_cons]
  by_cases h : r.stop < r'.start
  · simp [h]
  · simp [h]

theorem Apart.insertRange (h : Apart l) (hr : r.start < r.stop)
    (hfree : ∀ r' ∈ l, r'.Before r ∨ r.Before r') : Apart (insertRange r l) := by
  induction l with
  | nil => exact apart_singleton hr
  | cons r' l ih =>
    obtain ⟨hr', hbefore, hl⟩ := apart_cons.mp h
    rw [insertRange_cons]
    split
    · next hlt =>
      refine apart_cons.mpr ⟨hr, ?_, h⟩
      intro r₂ hr₂
      rcases List.mem_cons.mp hr₂ with rfl | hr₂
      · exact hlt
      · exact hlt.trans (hr'.trans (hbefore r₂ hr₂))
    · next hlt =>
      have hleft : r'.Before r := (hfree r' (by simp)).resolve_right hlt
      refine apart_cons.mpr ⟨hr', ?_, ih hl fun r₂ hr₂ => hfree r₂ (List.mem_cons_of_mem _ hr₂)⟩
      intro r₂ hr₂
      rcases mem_insertRange.mp hr₂ with rfl | hr₂
      · exact hleft
      · exact hbefore r₂ hr₂

end

end Ruda
