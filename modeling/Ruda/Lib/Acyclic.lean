import Mathlib

/-!
# Acyclic relations

When some nodes of an acyclic relation may be collapsed into one node without a cycle.
-/

namespace Ruda

open Relation (TransGen ReflTransGen)

variable {α : Type} {r : α → α → Prop}

def NoCycle (r : α → α → Prop) : Prop := ∀ a, ¬ TransGen r a a

theorem NoCycle.exists_free (h : NoCycle r) {nodes : Finset α} (hne : nodes.Nonempty) :
    ∃ a ∈ nodes, ∀ b, r a b → b ∉ nodes := by
  let below (a b : nodes) : Prop := TransGen r b a
  have htrans : IsTrans nodes below := ⟨fun _ _ _ hab hbc => hbc.trans hab⟩
  have hirrefl : Std.Irrefl below := ⟨fun a => h a⟩
  obtain ⟨a, -, hmin⟩ := (Finite.wellFounded_of_trans_of_irrefl below).has_min Set.univ
    ⟨⟨hne.choose, hne.choose_spec⟩, trivial⟩
  exact ⟨a, a.2, fun b hb hmem => hmin ⟨b, hmem⟩ trivial (.single hb)⟩

-- Contraction

open Classical in
/-- The node that a node becomes when the nodes of a set are collapsed into one, `none`. -/
noncomputable def collapse (nodes : Set α) (a : α) : Option α := if a ∈ nodes then none else some a

/-- The relation between the nodes that are left; edges inside the collapsed node are gone. -/
def Contracted (nodes : Set α) (r : α → α → Prop) (x y : Option α) : Prop :=
  x ≠ y ∧ ∃ a b, collapse nodes a = x ∧ collapse nodes b = y ∧ r a b

/-- A node outside the set, reached from it and reaching back into it. -/
def Between (nodes : Set α) (r : α → α → Prop) (a : α) : Prop :=
  a ∉ nodes ∧ (∃ b ∈ nodes, TransGen r b a) ∧ ∃ c ∈ nodes, TransGen r a c

variable {nodes : Set α}

theorem collapse_eq_none {a : α} : collapse nodes a = none ↔ a ∈ nodes := by
  unfold collapse
  split <;> simp_all

theorem collapse_eq_some {a b : α} : collapse nodes a = some b ↔ a ∉ nodes ∧ a = b := by
  unfold collapse
  split <;> simp_all

theorem contracted_of_path {a b : α} (h : TransGen r a b) :
    ReflTransGen (Contracted nodes r) (collapse nodes a) (collapse nodes b) := by
  have hedge {a b : α} (h : r a b) : ReflTransGen (Contracted nodes r) (collapse nodes a) (collapse nodes b) := by
    by_cases heq : collapse nodes a = collapse nodes b
    · rw [heq]
    · exact .single ⟨heq, a, b, rfl, rfl, h⟩
  induction h with
  | single h => exact hedge h
  | tail _ h ih => exact ih.trans (hedge h)

theorem path_of_none {a : α} (h : ReflTransGen (Contracted nodes r) none (some a)) :
    a ∉ nodes ∧ ∃ b ∈ nodes, TransGen r b a := by
  generalize hy : some a = y at h
  induction h generalizing a with
  | refl => cases hy
  | @tail x y _ hxy ih =>
    subst hy
    obtain ⟨-, b, c, hb, hc, hr⟩ := hxy
    obtain ⟨hout, rfl⟩ := collapse_eq_some.mp hc
    cases x with
    | none => exact ⟨hout, b, collapse_eq_none.mp hb, .single hr⟩
    | some x =>
      obtain ⟨-, rfl⟩ := collapse_eq_some.mp hb
      obtain ⟨-, u, hu, hpath⟩ := ih rfl
      exact ⟨hout, u, hu, hpath.tail hr⟩

theorem path_of_some {a : α} {y : Option α} (h : TransGen (Contracted nodes r) (some a) y) :
    (∃ b, y = some b ∧ TransGen r a b) ∨
      (∃ c ∈ nodes, TransGen r a c) ∧ ReflTransGen (Contracted nodes r) none y := by
  induction h with
  | single h =>
    obtain ⟨-, b, c, hb, hc, hr⟩ := h
    obtain ⟨-, rfl⟩ := collapse_eq_some.mp hb
    rename_i y
    cases y with
    | none => exact .inr ⟨⟨c, collapse_eq_none.mp hc, .single hr⟩, .refl⟩
    | some y =>
      obtain ⟨-, rfl⟩ := collapse_eq_some.mp hc
      exact .inl ⟨c, rfl, .single hr⟩
  | @tail x y _ hxy ih =>
    obtain ⟨u, rfl, hpath⟩ | ⟨henter, hpath⟩ := ih
    · obtain ⟨-, b, c, hb, hc, hr⟩ := hxy
      obtain ⟨-, rfl⟩ := collapse_eq_some.mp hb
      cases y with
      | none => exact .inr ⟨⟨c, collapse_eq_none.mp hc, hpath.tail hr⟩, .refl⟩
      | some y =>
        obtain ⟨-, rfl⟩ := collapse_eq_some.mp hc
        exact .inl ⟨c, rfl, hpath.tail hr⟩
    · exact .inr ⟨henter, hpath.tail hxy⟩

theorem noCycle_contracted_iff (h : NoCycle r) : NoCycle (Contracted nodes r) ↔ ¬ ∃ a, Between nodes r a := by
  constructor
  · rintro hno ⟨a, hout, ⟨b, hb, hba⟩, c, hc, hac⟩
    have hin := @contracted_of_path _ _ nodes _ _ hba
    have hback := @contracted_of_path _ _ nodes _ _ hac
    rw [collapse_eq_none.mpr hb, collapse_eq_some.mpr ⟨hout, rfl⟩] at hin
    rw [collapse_eq_none.mpr hc, collapse_eq_some.mpr ⟨hout, rfl⟩] at hback
    rcases Relation.reflTransGen_iff_eq_or_transGen.mp hin with heq | hin
    · cases heq
    · exact hno none (hin.trans_left hback)
  · intro hno x hx
    have hsome {a : α} (ha : TransGen (Contracted nodes r) (some a) (some a)) : False := by
      obtain ⟨b, hb, hpath⟩ | ⟨henter, hleave⟩ := path_of_some ha
      · cases hb
        exact h a hpath
      · obtain ⟨hout, hfrom⟩ := path_of_none hleave
        exact hno ⟨a, hout, hfrom, henter⟩
    cases x with
    | some a => exact hsome hx
    | none =>
      obtain ⟨y, hy, hback⟩ := Relation.TransGen.head'_iff.mp hx
      cases y with
      | none => exact hy.1 rfl
      | some a =>
        rcases Relation.reflTransGen_iff_eq_or_transGen.mp hback with heq | hback
        · cases heq
        · exact hsome (hback.tail hy)

end Ruda
