import Ruda.Lib.OrdMap

/-!
# The steps that a backward needs

`collect_steps` walks from the root over the registered parents. It answers with every step
that it finds, or with a node whose step is gone although it is no leaf.
-/

namespace Ruda.Autodiff

structure Parent where
  id : Nat
  isLeaf : Bool
  deriving DecidableEq

/-- The registered steps, by node, with their parents. -/
abbrev Steps := BTreeMap (List Parent)

/-- `while let Some(parent) = parents.pop()`, with the top of the stack first. -/
def visit (steps : Steps) : Nat → Finset Nat → List Nat → List Parent → Except Nat (List Nat)
  | 0, _, nodes, _ => .ok nodes
  | _, _, nodes, [] => .ok nodes
  | fuel + 1, visited, nodes, parent :: parents =>
    if parent.id ∈ visited then visit steps fuel visited nodes parents
    else
      match steps[parent.id]? with
      | some step =>
        visit steps fuel (insert parent.id visited) (nodes ++ [parent.id]) (step.reverse ++ parents)
      | none =>
        if parent.isLeaf then visit steps fuel (insert parent.id visited) nodes parents
        else .error parent.id

/-- Every step pushes its parents once. -/
def visitFuel (steps : Steps) : Nat := BTreeMap.weight List.length steps

def collectSteps (rootId : Nat) (steps : Steps) : Except Nat (List Nat) :=
  match steps[rootId]? with
  | none => .error rootId
  | some root => visit steps (visitFuel steps) {rootId} [rootId] root.reverse

/-- `y` is a parent of the step of `x`. -/
def StepParent (steps : Steps) (x y : Nat) : Prop := ∃ ps, steps[x]? = some ps ∧ y ∈ ps.map Parent.id

-- The walk

variable {steps : Steps} {root : Nat} {visited : Finset Nat} {nodes : List Nat} {parents : List Parent}

/-- What holds whenever the loop looks at its stack. -/
structure Visiting (steps : Steps) (root : Nat) (visited : Finset Nat) (nodes : List Nat)
    (parents : List Parent) : Prop where
  hasRoot : root ∈ nodes
  nodup : nodes.Nodup
  seen : ∀ n ∈ nodes, n ∈ visited
  found : ∀ n ∈ visited, n ∈ nodes ∨ steps[n]? = none
  present : ∀ n ∈ nodes, ∃ ps, steps[n]? = some ps
  reached : ∀ n ∈ nodes, Relation.ReflTransGen (StepParent steps) root n
  pending : ∀ n ∈ nodes, ∀ ps, steps[n]? = some ps → ∀ p ∈ ps, p.id ∈ visited ∨ p ∈ parents
  stacked : ∀ p ∈ parents, ∃ n ∈ nodes, ∃ ps, steps[n]? = some ps ∧ p ∈ ps

/-- The pops that are left: the stack, and the parents of the steps not yet visited. -/
def toPop (steps : Steps) (visited : Finset Nat) (parents : List Parent) : Nat :=
  parents.length + ((steps.toList.filter fun s => s.1 ∉ visited).map fun s => s.2.length).sum

theorem Visiting.start {ps : List Parent} (h : steps[root]? = some ps) :
    Visiting steps root {root} [root] ps.reverse where
  hasRoot := List.mem_singleton_self root
  nodup := List.nodup_singleton root
  seen := by simp
  found := by simp
  present := by
    intro n hn
    obtain rfl := List.mem_singleton.mp hn
    exact ⟨ps, h⟩
  reached := by
    intro n hn
    obtain rfl := List.mem_singleton.mp hn
    exact .refl
  pending := by
    intro n hn qs hqs p hp
    obtain rfl := List.mem_singleton.mp hn
    rw [h] at hqs
    cases hqs
    exact .inr (List.mem_reverse.mpr hp)
  stacked := fun p hp => ⟨root, List.mem_singleton_self root, ps, h, List.mem_reverse.mp hp⟩

theorem Visiting.skip {p : Parent} (h : Visiting steps root visited nodes (p :: parents)) (hp : p.id ∈ visited) :
    Visiting steps root visited nodes parents :=
  { h with
    pending := by
      intro n hn ps hps q hq
      rcases h.pending n hn ps hps q hq with hv | hs
      · exact .inl hv
      · rcases List.mem_cons.mp hs with rfl | hs
        · exact .inl hp
        · exact .inr hs
    stacked := fun q hq => h.stacked q (List.mem_cons_of_mem _ hq) }

theorem Visiting.missing {p : Parent} (h : Visiting steps root visited nodes (p :: parents))
    (hp : steps[p.id]? = none) : Visiting steps root (insert p.id visited) nodes parents :=
  { h with
    seen := fun n hn => Finset.mem_insert_of_mem (h.seen n hn)
    found := by
      intro n hn
      rcases Finset.mem_insert.mp hn with rfl | hn
      · exact .inr hp
      · exact h.found n hn
    pending := by
      intro n hn ps hps q hq
      rcases h.pending n hn ps hps q hq with hv | hs
      · exact .inl (Finset.mem_insert_of_mem hv)
      · rcases List.mem_cons.mp hs with rfl | hs
        · exact .inl (Finset.mem_insert_self _ _)
        · exact .inr hs
    stacked := fun q hq => h.stacked q (List.mem_cons_of_mem _ hq) }

theorem Visiting.push {p : Parent} {ps : List Parent} (h : Visiting steps root visited nodes (p :: parents))
    (hnew : p.id ∉ visited) (hp : steps[p.id]? = some ps) :
    Visiting steps root (insert p.id visited) (nodes ++ [p.id]) (ps.reverse ++ parents) where
  hasRoot := List.mem_append_left _ h.hasRoot
  nodup := by
    refine List.nodup_append.mpr ⟨h.nodup, List.nodup_singleton _, ?_⟩
    intro n hn m hm hnm
    obtain rfl := List.mem_singleton.mp hm
    exact hnew (hnm ▸ h.seen n hn)
  seen := by
    intro n hn
    rcases List.mem_append.mp hn with hn | hn
    · exact Finset.mem_insert_of_mem (h.seen n hn)
    · obtain rfl := List.mem_singleton.mp hn
      exact Finset.mem_insert_self _ _
  found := by
    intro n hn
    rcases Finset.mem_insert.mp hn with rfl | hn
    · exact .inl (by simp)
    · exact (h.found n hn).imp_left (List.mem_append_left _)
  present := by
    intro n hn
    rcases List.mem_append.mp hn with hn | hn
    · exact h.present n hn
    · obtain rfl := List.mem_singleton.mp hn
      exact ⟨ps, hp⟩
  reached := by
    intro n hn
    rcases List.mem_append.mp hn with hn | hn
    · exact h.reached n hn
    · obtain rfl := List.mem_singleton.mp hn
      obtain ⟨m, hm, qs, hqs, hpm⟩ := h.stacked p List.mem_cons_self
      exact (h.reached m hm).tail ⟨qs, hqs, List.mem_map_of_mem hpm⟩
  pending := by
    intro n hn qs hqs q hq
    rcases List.mem_append.mp hn with hn | hn
    · rcases h.pending n hn qs hqs q hq with hv | hs
      · exact .inl (Finset.mem_insert_of_mem hv)
      · rcases List.mem_cons.mp hs with rfl | hs
        · exact .inl (Finset.mem_insert_self _ _)
        · exact .inr (List.mem_append_right _ hs)
    · obtain rfl := List.mem_singleton.mp hn
      rw [hp] at hqs
      cases hqs
      exact .inr (List.mem_append_left _ (List.mem_reverse.mpr hq))
  stacked := by
    intro q hq
    rcases List.mem_append.mp hq with hq | hq
    · exact ⟨p.id, by simp, ps, hp, List.mem_reverse.mp hq⟩
    · obtain ⟨n, hn, hrest⟩ := h.stacked q (List.mem_cons_of_mem _ hq)
      exact ⟨n, List.mem_append_left _ hn, hrest⟩

theorem sum_filter_insert {l : List (Nat × List Parent)} (hl : (l.map Prod.fst).Nodup) {n : Nat} {ps : List Parent}
    (hn : (n, ps) ∈ l) (hnew : n ∉ visited) :
    ((l.filter fun s => s.1 ∉ insert n visited).map fun s => s.2.length).sum + ps.length =
      ((l.filter fun s => s.1 ∉ visited).map fun s => s.2.length).sum := by
  induction l with
  | nil => simp at hn
  | cons s l ih =>
    rw [List.map_cons, List.nodup_cons] at hl
    rcases List.mem_cons.mp hn with rfl | hn
    · have hsame : (l.filter fun s => s.1 ∉ insert n visited) = l.filter fun s => s.1 ∉ visited := by
        refine List.filter_congr fun s hs => ?_
        have hne : s.1 ≠ n := by
          rintro rfl
          exact hl.1 (List.mem_map.mpr ⟨s, hs, rfl⟩)
        simp [hne]
      rw [List.filter_cons_of_neg (by simp), List.filter_cons_of_pos (by simpa using hnew), hsame, List.map_cons,
        List.sum_cons, Nat.add_comm]
    · have hne : s.1 ≠ n := by
        rintro rfl
        exact hl.1 (List.mem_map.mpr ⟨_, hn, rfl⟩)
      have hrest := ih hl.2 hn
      by_cases hs : s.1 ∈ visited
      · rw [List.filter_cons_of_neg (by simp [hs]), List.filter_cons_of_neg (by simp [hs])]
        exact hrest
      · rw [List.filter_cons_of_pos (by simp [hs, hne]), List.filter_cons_of_pos (by simp [hs]), List.map_cons,
          List.map_cons, List.sum_cons, List.sum_cons]
        omega

theorem toPop_skip {visited' : Finset Nat} (p : Parent) (hsub : visited ⊆ visited') :
    toPop steps visited' parents < toPop steps visited (p :: parents) := by
  have hle : ((steps.toList.filter fun s => s.1 ∉ visited').map fun s => s.2.length).sum ≤
      ((steps.toList.filter fun s => s.1 ∉ visited).map fun s => s.2.length).sum := by
    refine (List.Sublist.map _ (List.monotone_filter_right _ ?_)).sum_le_sum (by simp)
    intro s hs
    simp only [decide_eq_true_eq] at hs ⊢
    exact fun hmem => hs (hsub hmem)
  simp only [toPop, List.length_cons]
  omega

theorem toPop_push {p : Parent} {ps : List Parent} (hnew : p.id ∉ visited) (hp : steps[p.id]? = some ps) :
    toPop steps (insert p.id visited) (ps.reverse ++ parents) < toPop steps visited (p :: parents) := by
  have hsum := sum_filter_insert (BTreeMap.nodup_keys_toList steps) ((BTreeMap.mem_toList _ _ _).mpr hp) hnew
  simp only [toPop, List.length_cons, List.length_append, List.length_reverse]
  omega

theorem toPop_start {ps : List Parent} (h : steps[root]? = some ps) :
    toPop steps {root} ps.reverse ≤ visitFuel steps := by
  have hsum := sum_filter_insert (BTreeMap.nodup_keys_toList steps)
    ((BTreeMap.mem_toList _ _ _).mpr h) (Finset.notMem_empty root)
  simp only [insert_empty_eq, Finset.notMem_empty, not_false_eq_true, decide_true, List.filter_true] at hsum
  simp only [toPop, List.length_reverse, visitFuel, BTreeMap.weight]
  omega

/-- The steps that a walk from the root comes back with. -/
structure Collected (steps : Steps) (root : Nat) (nodes : List Nat) : Prop where
  hasRoot : root ∈ nodes
  nodup : nodes.Nodup
  present : ∀ n ∈ nodes, ∃ ps, steps[n]? = some ps
  reached : ∀ n ∈ nodes, Relation.ReflTransGen (StepParent steps) root n
  closed : ∀ n ∈ nodes, ∀ m, StepParent steps n m → m ∈ nodes ∨ steps[m]? = none

/-- A node without a step that a step needs. -/
structure Missing (steps : Steps) (root m : Nat) : Prop where
  absent : steps[m]? = none
  needed : m = root ∨ ∃ n ps p, Relation.ReflTransGen (StepParent steps) root n ∧ steps[n]? = some ps ∧ p ∈ ps ∧
    p.id = m ∧ p.isLeaf = false

theorem visit_spec {fuel : Nat} (h : Visiting steps root visited nodes parents)
    (hfuel : toPop steps visited parents ≤ fuel) :
    (∀ found, visit steps fuel visited nodes parents = .ok found → Collected steps root found) ∧
      ∀ m, visit steps fuel visited nodes parents = .error m → Missing steps root m := by
  induction fuel generalizing visited nodes parents with
  | zero =>
    have hnil : parents = [] := by
      refine List.length_eq_zero_iff.mp ?_
      unfold toPop at hfuel
      omega
    subst hnil
    refine ⟨fun found hf => ?_, fun m hm => by simp [visit] at hm⟩
    obtain rfl : nodes = found := by simpa [visit] using hf
    refine ⟨h.hasRoot, h.nodup, h.present, h.reached, ?_⟩
    rintro n hn m ⟨ps, hps, hm⟩
    obtain ⟨p, hp, rfl⟩ := List.mem_map.mp hm
    exact h.found _ ((h.pending n hn ps hps p hp).resolve_right List.not_mem_nil)
  | succ fuel ih =>
    cases parents with
    | nil =>
      refine ⟨fun found hf => ?_, fun m hm => by simp [visit] at hm⟩
      obtain rfl : nodes = found := by simpa [visit] using hf
      refine ⟨h.hasRoot, h.nodup, h.present, h.reached, ?_⟩
      rintro n hn m ⟨ps, hps, hm⟩
      obtain ⟨p, hp, rfl⟩ := List.mem_map.mp hm
      exact h.found _ ((h.pending n hn ps hps p hp).resolve_right List.not_mem_nil)
    | cons p parents =>
      rw [visit]
      split
      · next hv =>
        have hless : toPop steps visited parents < toPop steps visited (p :: parents) := toPop_skip p (subset_refl visited)
        exact ih (h.skip hv) (by omega)
      · next hv =>
        cases hstep : steps[p.id]? with
        | some ps =>
          have hless : toPop steps _ (ps.reverse ++ parents) < toPop steps visited (p :: parents) := toPop_push hv hstep
          exact ih (h.push hv hstep) (by omega)
        | none =>
          cases hleaf : p.isLeaf with
          | true =>
            have hless : toPop steps (insert p.id visited) parents < toPop steps visited (p :: parents) :=
              toPop_skip p (Finset.subset_insert p.id visited)
            exact ih (h.missing hstep) (by omega)
          | false =>
            refine ⟨fun found hf => by simp at hf, fun m hm => ?_⟩
            obtain rfl : p.id = m := by simpa using hm
            obtain ⟨n, hn, ps, hps, hp⟩ := h.stacked p List.mem_cons_self
            exact ⟨hstep, .inr ⟨n, ps, p, h.reached n hn, hps, hp, rfl, hleaf⟩⟩

theorem collectSteps_ok (h : collectSteps root steps = .ok nodes) : Collected steps root nodes := by
  cases hroot : steps[root]? with
  | none => simp [collectSteps, hroot] at h
  | some ps =>
    simp only [collectSteps, hroot] at h
    exact (visit_spec (.start hroot) (toPop_start hroot)).1 nodes h

theorem collectSteps_error {m : Nat} (h : collectSteps root steps = .error m) : Missing steps root m := by
  cases hroot : steps[root]? with
  | none =>
    simp only [collectSteps, hroot, Except.error.injEq] at h
    exact ⟨h ▸ hroot, .inl h.symm⟩
  | some ps =>
    simp only [collectSteps, hroot] at h
    exact (visit_spec (.start hroot) (toPop_start hroot)).2 m h

end Ruda.Autodiff
