import Mathlib.Data.List.Infix

/-!
# Greedy segments

A list cut from the front into segments that fit and that no further element fits into. Where
what fits is closed under prefixes there is one such cut.
-/

namespace Ruda

variable {α : Type} {fits : List α → Prop} {l s s' : List α}

/-- A front of the list that fits, and that cannot take the next element. -/
structure Segment (fits : List α → Prop) (l s : List α) : Prop where
  nonempty : s ≠ []
  front : s <+: l
  within : fits s
  maximal : ∀ x, s ++ [x] <+: l → ¬fits (s ++ [x])

/-- What starts with something that fits not, fits not. -/
def PrefixClosed (fits : List α → Prop) : Prop := ∀ a b, fits (a ++ b) → fits a

theorem front_goes_on (h : s <+: l) (h' : s' <+: l) (hlt : s.length < s'.length) : ∃ x rest, s' = s ++ x :: rest := by
  obtain ⟨rest, rfl⟩ := List.prefix_of_prefix_length_le h h' hlt.le
  cases rest with
  | nil => simp at hlt
  | cons x rest => exact ⟨x, rest, rfl⟩

theorem Segment.not_longer (hclosed : PrefixClosed fits) (h : Segment fits l s) (h' : Segment fits l s') :
    ¬s.length < s'.length := by
  intro hlt
  obtain ⟨x, rest, rfl⟩ := front_goes_on h.front h'.front hlt
  have hsplit : s ++ x :: rest = s ++ [x] ++ rest := by simp
  have hfront : s ++ [x] <+: l := (hsplit ▸ List.prefix_append (s ++ [x]) rest).trans h'.front
  exact h.maximal x hfront (hclosed _ rest (hsplit ▸ h'.within))

theorem Segment.unique (hclosed : PrefixClosed fits) (h : Segment fits l s) (h' : Segment fits l s') : s = s' := by
  have hle := not_lt.mp (h'.not_longer hclosed h)
  have hge := not_lt.mp (h.not_longer hclosed h')
  exact (List.prefix_of_prefix_length_le h.front h'.front hle).eq_of_length (le_antisymm hle hge)

-- Cutting a whole list

inductive Segmented (fits : List α → Prop) : List α → List (List α) → Prop
  | nil : Segmented fits [] []
  | cons {s rest : List α} {segs : List (List α)} (head : Segment fits (s ++ rest) s) (tail : Segmented fits rest segs) :
    Segmented fits (s ++ rest) (s :: segs)

namespace Segmented

variable {segs segs' : List (List α)}

theorem flatten (h : Segmented fits l segs) : segs.flatten = l := by
  induction h with
  | nil => rfl
  | cons head tail ih => rw [List.flatten_cons, ih]

theorem fits_mem (h : Segmented fits l segs) : ∀ s ∈ segs, s ≠ [] ∧ fits s := by
  induction h with
  | nil => exact nofun
  | cons head tail ih => exact List.forall_mem_cons.mpr ⟨⟨head.nonempty, head.within⟩, ih⟩

theorem maximal (h : Segmented fits l segs) {before after : List (List α)} (hsplit : segs = before ++ s :: after) {x : α}
    (hx : after.flatten.head? = some x) : ¬fits (s ++ [x]) := by
  induction h generalizing before with
  | nil => simp at hsplit
  | @cons s₁ rest segs head tail ih =>
    cases before with
    | nil =>
      obtain ⟨rfl, rfl⟩ := List.cons.inj hsplit
      rw [tail.flatten] at hx
      obtain ⟨rest, rfl⟩ := List.head?_eq_some_iff.mp hx
      refine head.maximal x ?_
      exact ⟨rest, by simp⟩
    | cons s₂ before => exact ih (List.cons.inj hsplit).2

theorem drop (h : Segmented fits l segs) (n : Nat) :
    Segmented fits (l.drop (segs.take n).flatten.length) (segs.drop n) := by
  induction h generalizing n with
  | nil => simpa using nil
  | @cons s rest segs head tail ih =>
    cases n with
    | zero => exact cons head tail
    | succ n =>
      rw [List.take_succ_cons, List.flatten_cons, List.length_append, List.drop_succ_cons, ← List.drop_drop, List.drop_left]
      exact ih n

theorem unique (hclosed : PrefixClosed fits) (h : Segmented fits l segs) (h' : Segmented fits l segs') : segs = segs' := by
  induction h generalizing segs' with
  | nil =>
    generalize hnil : ([] : List α) = l at h'
    cases h' with
    | nil => rfl
    | cons head tail => exact absurd (List.append_eq_nil_iff.mp hnil.symm).1 head.nonempty
  | @cons s rest segs head tail ih =>
    generalize hl : s ++ rest = l at h'
    cases h' with
    | nil => exact absurd (List.append_eq_nil_iff.mp hl).1 head.nonempty
    | @cons s' rest' segs' head' tail' =>
      obtain rfl : s = s' := (hl ▸ head).unique hclosed head'
      obtain rfl := List.append_cancel_left hl
      rw [ih tail']

theorem exists_of_front {P : α → Prop} (hfront : ∀ l ≠ [], (∀ x ∈ l, P x) → ∃ s, Segment fits l s) (l : List α)
    (hl : ∀ x ∈ l, P x) : ∃ segs, Segmented fits l segs := by
  by_cases hnil : l = []
  · subst hnil
    exact ⟨[], nil⟩
  · obtain ⟨s, hs⟩ := hfront l hnil hl
    obtain ⟨rest, hrest⟩ := hs.front
    have hlt : rest.length < l.length := by
      rw [← hrest, List.length_append]
      have := List.length_pos_of_ne_nil hs.nonempty
      omega
    obtain ⟨segs, hsegs⟩ := exists_of_front hfront rest fun x hx => hl x (hrest ▸ List.mem_append_right s hx)
    subst hrest
    exact ⟨s :: segs, cons hs hsegs⟩
termination_by l.length

end Segmented

end Ruda
