import Ruda.Lib.Kahn

/-!
# Transitive closure of a finite graph

Nodes absorb the sets of the nodes that they depend on. In an order that puts dependencies
first one pass gives the transitive closure; in any order the passes end, and end there.
-/

namespace Ruda

open Relation (TransGen ReflTransGen)

variable {n : Nat} {deps v w : Nat → Finset Nat}

def absorb (deps v : Nat → Finset Nat) (i : Nat) : Nat → Finset Nat :=
  Function.update v i (v i ∪ (deps i).biUnion v)

/-- The sets hold exactly what a node depends on, directly or not. -/
def Closed (deps v : Nat → Finset Nat) : Prop := ∀ i j, j ∈ v i ↔ TransGen (DependsOn deps) i j

theorem absorb_self (deps v : Nat → Finset Nat) (i : Nat) : absorb deps v i i = v i ∪ (deps i).biUnion v :=
  Function.update_self _ _ _

theorem absorb_of_ne {i k : Nat} (h : k ≠ i) : absorb deps v i k = v k := Function.update_of_ne h _ _

theorem le_absorb (deps v : Nat → Finset Nat) (i : Nat) : v ≤ absorb deps v i := by
  intro k
  by_cases h : k = i
  · subst h
    rw [absorb_self]
    exact Finset.subset_union_left
  · rw [absorb_of_ne h]

-- One pass

theorem transGen_iff {i j : Nat} :
    TransGen (DependsOn deps) i j ↔ j ∈ deps i ∨ ∃ k ∈ deps i, TransGen (DependsOn deps) k j := by
  constructor
  · intro h
    obtain ⟨k, hk, hpath⟩ := Relation.TransGen.head'_iff.mp h
    rcases Relation.reflTransGen_iff_eq_or_transGen.mp hpath with rfl | hpath
    · exact .inl hk
    · exact .inr ⟨k, hk, hpath⟩
  · rintro (h | ⟨k, hk, hpath⟩)
    · exact .single h
    · exact .head hk hpath

/-- The nodes passed are complete, the others hold their direct dependencies. -/
structure Passed (deps v : Nat → Finset Nat) (done : List Nat) : Prop where
  complete : ∀ i ∈ done, ∀ j, j ∈ v i ↔ TransGen (DependsOn deps) i j
  direct : ∀ i, i ∉ done → v i = deps i

theorem Passed.absorb {done : List Nat} {i : Nat} (h : Passed deps v done) (hi : i ∉ done)
    (hdeps : ∀ j ∈ deps i, j ∈ done) : Passed deps (absorb deps v i) (done ++ [i]) := by
  refine ⟨fun k hk j => ?_, fun k hk => ?_⟩
  · by_cases hki : k = i
    · subst hki
      rw [absorb_self, h.direct k hi, transGen_iff, Finset.mem_union, Finset.mem_biUnion]
      exact or_congr Iff.rfl (exists_congr fun d => and_congr_right fun hd => h.complete d (hdeps d hd) j)
    · rw [absorb_of_ne hki]
      exact h.complete k (by simpa [hki] using hk) j
  · rw [List.mem_append, not_or, List.mem_singleton] at hk
    rw [absorb_of_ne hk.2]
    exact h.direct k hk.1

theorem Passed.foldl {order done : List Nat} (h : Passed deps v done) (hnodup : (done ++ order).Nodup)
    (hplaced : ∀ i ∈ order, ∀ j ∈ deps i, (done ++ order).idxOf j < (done ++ order).idxOf i) :
    Passed deps (order.foldl (Ruda.absorb deps) v) (done ++ order) := by
  induction order generalizing v done with
  | nil => simpa using h
  | cons i order ih =>
    have hi : i ∉ done := fun hmem => (List.nodup_append'.mp hnodup).2.2 hmem (by simp)
    have hpos : (done ++ i :: order).idxOf i = done.length := by
      rw [List.idxOf_append_of_notMem hi, List.idxOf_cons_self, Nat.add_zero]
    have hdeps (j : Nat) (hj : j ∈ deps i) : j ∈ done := by
      have hlt := hplaced i (by simp) j hj
      rw [hpos] at hlt
      by_contra hout
      rw [List.idxOf_append_of_notMem hout] at hlt
      omega
    have hsame : done ++ i :: order = done ++ [i] ++ order := by simp
    rw [hsame] at hnodup hplaced ⊢
    exact ih (h.absorb hi hdeps) hnodup fun k hk => hplaced k (by simp [hk])

theorem closed_of_linearizes {order : List Nat} (h : Kahn.Linearizes n deps order) (hin : ∀ i j, j ∈ deps i → i < n) :
    Closed deps (order.foldl (absorb deps) deps) := by
  have hstart : Passed deps deps [] := ⟨by simp, by simp⟩
  have hpassed := @Passed.foldl deps deps order [] hstart (by simpa using h.perm.nodup_iff.mpr List.nodup_range)
    fun i _ j hj => by simpa using h.placed i j hj
  intro i j
  by_cases hi : i ∈ order
  · exact hpassed.complete i (by simpa using hi) j
  · -- not a node
    have hout : ∀ k, k ∉ deps i := fun k hk => hi (h.perm.mem_iff.mpr (List.mem_range.mpr (hin i k hk)))
    rw [hpassed.direct i (by simpa using hi), transGen_iff]
    simp [hout]

-- Passes until nothing changes

/-- The sets hold the direct dependencies and nothing that is not reached. -/
structure Reaching (n : Nat) (deps v : Nat → Finset Nat) : Prop where
  direct : deps ≤ v
  sound : ∀ i, ∀ j ∈ v i, TransGen (DependsOn deps) i j
  nodes : ∀ i, v i ⊆ Finset.range n

theorem Reaching.absorb (h : Reaching n deps v) (i : Nat) : Reaching n deps (absorb deps v i) := by
  refine ⟨h.direct.trans (le_absorb deps v i), fun k j hj => ?_, fun k => ?_⟩
  · by_cases hk : k = i
    · subst hk
      rw [absorb_self, Finset.mem_union, Finset.mem_biUnion] at hj
      rcases hj with hj | ⟨d, hd, hj⟩
      · exact h.sound k j hj
      · exact .head hd (h.sound d j hj)
    · rw [absorb_of_ne hk] at hj
      exact h.sound k j hj
  · by_cases hk : k = i
    · subst hk
      rw [absorb_self]
      exact Finset.union_subset (h.nodes k) (Finset.biUnion_subset.mpr fun d _ => h.nodes d)
    · rw [absorb_of_ne hk]
      exact h.nodes k

theorem Reaching.closed (h : Reaching n deps v) (hin : ∀ i j, j ∈ deps i → i < n)
    (hsame : ∀ i < n, Ruda.absorb deps v i = v) : Closed deps v := by
  intro i j
  refine ⟨h.sound i j, fun hpath => ?_⟩
  induction hpath using Relation.TransGen.head_induction_on with
  | single hd => exact h.direct _ hd
  | @head i k hd _ ih =>
    rw [← hsame i (hin i k hd), absorb_self]
    exact Finset.mem_union_right _ (Finset.mem_biUnion.mpr ⟨k, hd, ih⟩)

/-- All the members of the sets, which is what a pass that changes something adds to. -/
def total (n : Nat) (v : Nat → Finset Nat) : Nat := ∑ i ∈ Finset.range n, (v i).card

theorem total_le (h : Reaching n deps v) : total n v ≤ n * n := by
  calc total n v ≤ ∑ _i ∈ Finset.range n, n :=
        Finset.sum_le_sum fun i _ => (Finset.card_le_card (h.nodes i)).trans_eq (Finset.card_range n)
    _ = n * n := by simp

theorem total_mono (h : v ≤ w) : total n v ≤ total n w := Finset.sum_le_sum fun i _ => Finset.card_le_card (h i)

theorem total_lt_absorb {i : Nat} (hi : i < n) (hne : absorb deps v i ≠ v) : total n v < total n (absorb deps v i) := by
  refine Finset.sum_lt_sum (fun k _ => Finset.card_le_card (le_absorb deps v i k)) ⟨i, Finset.mem_range.mpr hi, ?_⟩
  refine Finset.card_lt_card ((le_absorb deps v i i).ssubset_of_ne fun heq => hne ?_)
  funext k
  by_cases hk : k = i
  · subst hk
    exact heq.symm
  · exact absorb_of_ne hk

/-- What a pass over some nodes made of the sets and of the flag that records a change. -/
structure Round (n : Nat) (deps v w : Nat → Finset Nat) (nodes : List Nat) (before after : Bool) : Prop where
  grows : total n v ≤ total n w
  quiet : after = false → before = false ∧ (∀ i ∈ nodes, absorb deps v i = v) ∧ w = v
  busy : after = true → before = true ∨ total n v < total n w

theorem Round.nil (n : Nat) (deps v : Nat → Finset Nat) (flag : Bool) : Round n deps v v [] flag flag :=
  ⟨le_rfl, fun h => ⟨h, by simp, rfl⟩, .inl⟩

theorem Round.cons {nodes : List Nat} {i : Nat} {before changed after : Bool} (hi : i < n)
    (hchanged : changed = true ↔ absorb deps v i ≠ v) (h : Round n deps (absorb deps v i) w nodes (before || changed) after) :
    Round n deps v w (i :: nodes) before after := by
  have hmono : total n v ≤ total n (absorb deps v i) := total_mono (le_absorb deps v i)
  refine ⟨hmono.trans h.grows, fun hafter => ?_, fun hafter => ?_⟩
  · obtain ⟨hbefore, hsame, hend⟩ := h.quiet hafter
    rw [Bool.or_eq_false_iff] at hbefore
    have hi0 : absorb deps v i = v := by
      by_contra hne
      rw [hchanged.mpr hne] at hbefore
      cases hbefore.2
    rw [hi0] at hsame hend
    refine ⟨hbefore.1, fun k hk => ?_, hend⟩
    rcases List.mem_cons.mp hk with rfl | hk
    · exact hi0
    · exact hsame k hk
  · rcases h.busy hafter with hbefore | hlt
    · rcases Bool.or_eq_true_iff.mp hbefore with hbefore | hne
      · exact .inl hbefore
      · exact .inr ((total_lt_absorb hi (hchanged.mp hne)).trans_le h.grows)
    · exact .inr (hmono.trans_lt hlt)

end Ruda
