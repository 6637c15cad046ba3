import Ruda.Fusion.Dag
import Ruda.Fusion.OrderExact
import Ruda.Lib.Reach

/-!
# Reachability and contraction are exact

Linearization is Kahn's algorithm on the transposed edges, the reachable sets are the
transitive closure of the dependencies, and the contraction test asks for a node between the
nodes that are to be collapsed. The valid execution orders of operations that produce each
resource once are the linearizations of their graph.
-/

namespace Ruda.Fusion

open Relation (TransGen)

/-- Node `i` must execute after node `j`. -/
def Depends {N R : Type} [DecidableEq R] [GraphNode N R] (nodes : List N) (i j : Nat) : Prop :=
  i ≠ j ∧ ∃ a b, nodes[i]? = some a ∧ nodes[j]? = some b ∧ dependsOn a b = true

namespace Dag

variable {n : Nat} {d : Dag n}

def deps (d : Dag n) (i : Nat) : Finset Nat := (setAt d.dependencies i).members

-- The edges

theorem mem_deps_addEdge {i j : Fin n} (hne : i ≠ j) {a b : Nat} :
    b ∈ (d.addEdge i j hne).deps a ↔ b ∈ d.deps a ∨ a = i ∧ b = j := by
  have hi : (i : Nat) < d.dependencies.length := by simp [d.dependencies_length]
  rw [deps, deps, addEdge, setAt_modify hi]
  split
  · next h =>
    subst h
    rw [SubGraph.members_insert, Finset.mem_insert]
    simp [or_comm]
  · next h => simp [h]

theorem mem_deps_foldl {γ : Type} (xs : List γ) (f : Dag n → γ → Dag n) (E : γ → Nat → Nat → Prop)
    (hf : ∀ (d : Dag n) (x : γ) (a b : Nat), b ∈ (f d x).deps a ↔ b ∈ d.deps a ∨ E x a b) (d : Dag n) (a b : Nat) :
    b ∈ (xs.foldl f d).deps a ↔ b ∈ d.deps a ∨ ∃ x ∈ xs, E x a b := by
  induction xs generalizing d with
  | nil => simp
  | cons x xs ih =>
    rw [List.foldl_cons, ih, hf]
    simp [or_assoc]

theorem mem_deps_new {N R : Type} [DecidableEq R] [GraphNode N R] (nodes : List N) (a b : Nat) :
    b ∈ (new nodes).deps a ↔ Depends nodes a b := by
  have hrow (i : Fin nodes.length) (d : Dag nodes.length) (j : Fin nodes.length) (a b : Nat) :
      b ∈ (if h : i ≠ j ∧ dependsOn nodes[i] nodes[j] then d.addEdge i j h.1 else d).deps a ↔
        b ∈ d.deps a ∨ (i ≠ j ∧ dependsOn nodes[i] nodes[j] = true) ∧ a = i ∧ b = j := by
    split
    · next h => rw [mem_deps_addEdge, and_iff_right h]
    · next h => rw [iff_false_intro h, false_and, or_false]
  rw [new, mem_deps_foldl _ _ (fun i a b => ∃ j ∈ List.finRange nodes.length,
    (i ≠ j ∧ dependsOn nodes[i] nodes[j] = true) ∧ a = i ∧ b = j) fun d i a b => mem_deps_foldl _ _ _ (hrow i) d a b]
  have hnone : b ∉ (edgeless (nodes.map GraphNode.position) (List.length_map _) : Dag nodes.length).deps a := by
    simp [deps, edgeless, setAt_replicate]
  constructor
  · rintro (h | ⟨i, -, j, -, ⟨hne, hdep⟩, rfl, rfl⟩)
    · exact absurd h hnone
    · exact ⟨fun h => hne (Fin.ext h), nodes[i], nodes[j], by simp, by simp, hdep⟩
  · rintro ⟨hne, x, y, hx, hy, hdep⟩
    obtain ⟨ha, rfl⟩ := List.getElem?_eq_some_iff.mp hx
    obtain ⟨hb, rfl⟩ := List.getElem?_eq_some_iff.mp hy
    exact .inr ⟨⟨a, ha⟩, List.mem_finRange _, ⟨b, hb⟩, List.mem_finRange _,
      ⟨fun h => hne (Fin.mk.inj_iff.mp h), hdep⟩, rfl, rfl⟩

theorem positions_new {N R : Type} [DecidableEq R] [GraphNode N R] (nodes : List N) :
    (new nodes).positions = nodes.map GraphNode.position := by
  have hfold {γ : Type} (xs : List γ) (f : Dag nodes.length → γ → Dag nodes.length)
      (hf : ∀ (d : Dag nodes.length) (x : γ), (f d x).positions = d.positions) (d : Dag nodes.length) :
      (xs.foldl f d).positions = d.positions := by
    induction xs generalizing d with
    | nil => rfl
    | cons x xs ih => rw [List.foldl_cons, ih, hf]
  refine hfold _ _ (fun d i => hfold _ _ (fun d j => ?_) d) _
  split <;> rfl

theorem setAt_of_le {sets : List SubGraph} {i : Nat} (h : sets.length ≤ i) : setAt sets i = SubGraph.empty :=
  List.getD_eq_default _ _ h

theorem inside (d : Dag n) {i j : Nat} (h : j ∈ d.deps i) : i < n ∧ j < n := by
  have hin {sets : List SubGraph} (hlen : sets.length = n) {i j : Nat} (h : j ∈ (setAt sets i).members) : i < n := by
    by_contra hge
    rw [setAt_of_le (by omega)] at h
    simp at h
  exact ⟨hin d.dependencies_length h, hin d.dependents_length ((d.transposed i j).mp h)⟩

theorem transposes (d : Dag n) (hn : n ≤ 2 ^ 32) : Kahn.Transposes n d.deps fun i => (setAt d.dependents i).iter where
  inside i j h := d.inside h
  mem i j := by
    rw [SubGraph.mem_iter]
    exact (d.transposed i j).symm
  nodup j := (SubGraph.iter_sorted _).imp Nat.ne_of_lt
  narrow := by
    unfold u64Max
    omega

theorem deps_subset (d : Dag n) (i : Nat) : d.deps i ⊆ Finset.range n := fun _ hj => Finset.mem_range.mpr (d.inside hj).2

theorem card_deps_lt (d : Dag n) {i : Nat} (hi : i < n) : (d.deps i).card < n := by
  have hsub : d.deps i ⊆ (Finset.range n).erase i := fun j hj =>
    Finset.mem_erase.mpr ⟨fun h => d.irreflexive i (h ▸ hj), d.deps_subset i hj⟩
  have hle := Finset.card_le_card hsub
  rw [Finset.card_erase_of_mem (Finset.mem_range.mpr hi), Finset.card_range] at hle
  omega

theorem pending_eq (d : Dag n) (hn : n ≤ 2 ^ 32) : d.pending = (List.range n).map fun i => (d.deps i).card := by
  refine List.ext_getElem (by simp [pending, d.dependencies_length]) fun i hi hi' => ?_
  have hin : i < d.dependencies.length := by simpa [pending] using hi
  have hset : d.dependencies[i] = setAt d.dependencies i := by simp [setAt, hin]
  have hcard : (setAt d.dependencies i).members.card < n := d.card_deps_lt (d.dependencies_length ▸ hin)
  simp only [pending, List.getElem_map, List.getElem_range, hset, deps]
  exact SubGraph.len_of_lt (by omega)

-- Linearization

theorem linearize_ends {Q : Type} (B : Bag Q) (hn : n ≤ 2 ^ 32) (fuel : Nat) (hfuel : n < fuel) :
    ∃ s, d.linearize B fuel = some s ∧ Kahn.Inv B n d.deps s ∧ B.contents s.ready = [] := by
  rw [linearize, d.pending_eq hn]
  exact Kahn.inv_start.run (d.transposes hn) fuel (by simpa [Kahn.start] using hfuel)

theorem topologicalOrder_cases (hn : n ≤ 2 ^ 32) (fuel : Nat) (hfuel : n < fuel) :
    (∃ order, d.topologicalOrder fuel = some (some order) ∧ Kahn.Linearizes n d.deps order) ∨
      d.topologicalOrder fuel = some none ∧ ¬ NoCycle (DependsOn d.deps) := by
  obtain ⟨s, hs, hinv, hend⟩ := d.linearize_ends (heap d.positions) hn fuel hfuel
  by_cases hlen : s.order.length = n
  · exact .inl ⟨s.order, by simp [topologicalOrder, hs, hlen], hinv.linearizes (d.transposes hn) hlen⟩
  · exact .inr ⟨by simp [topologicalOrder, hs, hlen], fun h => hlen ((hinv.length_eq_iff (d.transposes hn) hend).mpr h)⟩

theorem isAcyclic_eq (hn : n ≤ 2 ^ 32) (fuel : Nat) (hfuel : n < fuel) :
    ∃ acyclic, d.isAcyclic fuel = some acyclic ∧ (acyclic = true ↔ NoCycle (DependsOn d.deps)) := by
  obtain ⟨s, hs, hinv, hend⟩ := d.linearize_ends stack hn fuel hfuel
  exact ⟨_, by rw [isAcyclic, hs]; rfl, by rw [decide_eq_true_iff, hinv.length_eq_iff (d.transposes hn) hend]⟩

-- Reachability

/-- The sets of a vector. -/
def view (sets : List SubGraph) (i : Nat) : Finset Nat := (setAt sets i).members

theorem view_set {sets : List SubGraph} {i : Nat} (hi : i < sets.length) (s : SubGraph) :
    view (sets.set i s) = Function.update (view sets) i s.members := by
  funext k
  simp only [view, setAt, List.getD_eq_getElem?_getD, List.getElem?_set]
  by_cases h : i = k
  · subst h
    simp [hi]
  · simp [h, Function.update_of_ne (Ne.symm h), view, setAt]

theorem members_foldl_unionWith (f : Nat → SubGraph) (nodes : List Nat) (s : SubGraph) :
    (nodes.foldl (fun acc j => acc.unionWith (f j)) s).members =
      s.members ∪ nodes.toFinset.biUnion fun j => (f j).members := by
  induction nodes generalizing s with
  | nil => simp
  | cons j nodes ih =>
    rw [List.foldl_cons, ih, SubGraph.members_unionWith, List.toFinset_cons, Finset.biUnion_insert, Finset.union_assoc]

theorem toFinset_iter (s : SubGraph) : s.iter.toFinset = s.members := by
  ext i
  rw [List.mem_toFinset, SubGraph.mem_iter]

theorem members_absorbNode (d : Dag n) {sets : List SubGraph} {i : Nat} (hi : i < sets.length) :
    (d.absorbNode sets i).1.members = absorb d.deps (view sets) i i := by
  rw [absorb_self, absorbNode, members_foldl_unionWith, toFinset_iter]
  refine congrArg _ (Finset.biUnion_congr rfl fun j hj => ?_)
  have hne : j ≠ i := fun h => d.irreflexive i (h ▸ hj)
  have hview := congrFun (view_set hi SubGraph.empty) j
  rw [Function.update_of_ne hne] at hview
  exact hview

theorem view_absorbNode (d : Dag n) {sets : List SubGraph} {i : Nat} (hi : i < sets.length) :
    view (d.absorbNode sets i).2 = absorb d.deps (view sets) i := by
  have hset : (d.absorbNode sets i).2 = (sets.set i SubGraph.empty).set i (d.absorbNode sets i).1 := rfl
  rw [hset, List.set_set, view_set hi, members_absorbNode d hi, absorb_self]
  rfl

theorem length_absorbNode (d : Dag n) (sets : List SubGraph) (i : Nat) : (d.absorbNode sets i).2.length = sets.length := by
  simp [absorbNode]

theorem foldl_absorbNode (d : Dag n) {order : List Nat} {sets : List SubGraph} (hin : ∀ i ∈ order, i < sets.length) :
    view (order.foldl (fun sets i => (d.absorbNode sets i).2) sets) = order.foldl (absorb d.deps) (view sets) ∧
      (order.foldl (fun sets i => (d.absorbNode sets i).2) sets).length = sets.length := by
  induction order generalizing sets with
  | nil => exact ⟨rfl, rfl⟩
  | cons i order ih =>
    have hlen := d.length_absorbNode sets i
    obtain ⟨hview, hlen'⟩ := @ih (d.absorbNode sets i).2 fun k hk => by
      rw [hlen]
      exact hin k (by simp [hk])
    rw [List.foldl_cons, List.foldl_cons, hview, view_absorbNode d (hin i (by simp))]
    exact ⟨rfl, by rw [hlen', hlen]⟩

/-- One node of a round. -/
def relaxNode (d : Dag n) (state : List SubGraph × Bool) (i : Nat) : List SubGraph × Bool :=
  ((d.absorbNode state.1 i).2, state.2 || (d.absorbNode state.1 i).1.len != (setAt state.1 i).len)

theorem relax_eq (d : Dag n) (sets : List SubGraph) : d.relax sets = (List.range n).foldl d.relaxNode (sets, false) := rfl

theorem len_ne_iff (d : Dag n) (hn : n ≤ 2 ^ 32) {sets : List SubGraph} {i : Nat} (hi : i < sets.length)
    (hreach : Reaching n d.deps (view sets)) :
    ((d.absorbNode sets i).1.len != (setAt sets i).len) = true ↔ absorb d.deps (view sets) i ≠ view sets := by
  have hgrow : (view sets i).card ≤ (absorb d.deps (view sets) i i).card := Finset.card_le_card (le_absorb _ _ _ _)
  have hmax : (absorb d.deps (view sets) i i).card ≤ n :=
    (Finset.card_le_card ((hreach.absorb i).nodes i)).trans_eq (Finset.card_range n)
  -- an empty set has nothing to absorb, and any other one cannot grow by a whole turn of the counter
  have hempty : (view sets i).card = 0 → (absorb d.deps (view sets) i i).card = 0 := by
    intro h0
    have hnone := Finset.card_eq_zero.mp h0
    have hdeps : d.deps i = ∅ := Finset.subset_empty.mp (hnone ▸ hreach.direct i)
    rw [absorb_self, hnone, hdeps]
    rfl
  have hcards : wrap32 (absorb d.deps (view sets) i i).card = wrap32 (view sets i).card ↔
      (absorb d.deps (view sets) i i).card = (view sets i).card := by
    unfold wrap32
    omega
  rw [bne_iff_ne, SubGraph.len_eq, SubGraph.len_eq, members_absorbNode d hi, not_iff_not]
  refine hcards.trans ?_
  constructor
  · intro hcard
    funext k
    by_cases hk : k = i
    · subst hk
      exact (Finset.eq_of_subset_of_card_le (le_absorb _ _ _ _) hcard.le).symm
    · exact absorb_of_ne hk
  · intro h
    rw [h]

theorem foldl_relaxNode (d : Dag n) (hn : n ≤ 2 ^ 32) {nodes : List Nat} {state : List SubGraph × Bool}
    (hlen : state.1.length = n) (hin : ∀ i ∈ nodes, i < n) (hreach : Reaching n d.deps (view state.1)) :
    (nodes.foldl d.relaxNode state).1.length = n ∧ Reaching n d.deps (view (nodes.foldl d.relaxNode state).1) ∧
      Round n d.deps (view state.1) (view (nodes.foldl d.relaxNode state).1) nodes state.2 (nodes.foldl d.relaxNode state).2 := by
  induction nodes generalizing state with
  | nil => exact ⟨hlen, hreach, Round.nil n d.deps _ _⟩
  | cons i nodes ih =>
    have hi : i < n := hin i (by simp)
    have hi' : i < state.1.length := hlen ▸ hi
    have hview : view (d.relaxNode state i).1 = absorb d.deps (view state.1) i := view_absorbNode d hi'
    obtain ⟨hl, hr, hround⟩ := @ih (d.relaxNode state i) (by rw [relaxNode, length_absorbNode, hlen])
      (fun k hk => hin k (by simp [hk])) (hview ▸ hreach.absorb i)
    rw [hview] at hround
    exact ⟨hl, hr, hround.cons hi (len_ne_iff d hn hi' hreach)⟩

theorem fixpoint_ends (d : Dag n) (hn : n ≤ 2 ^ 32) (fuel : Nat) {sets : List SubGraph} (hlen : sets.length = n)
    (hreach : Reaching n d.deps (view sets)) (hfuel : n * n < total n (view sets) + fuel) :
    ∃ found, d.fixpoint fuel sets = some found ∧ found.length = n ∧ Closed d.deps (view found) := by
  induction fuel generalizing sets with
  | zero =>
    have hle := total_le hreach
    omega
  | succ fuel ih =>
    obtain ⟨hl, hr, hround⟩ := @foldl_relaxNode n d hn (List.range n) (sets, false) hlen
      (fun i hi => List.mem_range.mp hi) hreach
    rw [← relax_eq] at hl hr hround
    cases hchanged : (d.relax sets).2 with
    | false =>
      obtain ⟨-, hsame, hend⟩ := hround.quiet hchanged
      refine ⟨(d.relax sets).1, by simp [fixpoint, hchanged], hl, ?_⟩
      rw [hend]
      exact hreach.closed (fun i j h => (d.inside h).1) fun i hi => hsame i (List.mem_range.mpr hi)
    | true =>
      have hlt : total n (view sets) < total n (view (d.relax sets).1) := by
        simpa using hround.busy hchanged
      obtain ⟨found, hfound, hrest⟩ := ih hl hr (by omega)
      exact ⟨found, by simp [fixpoint, hchanged, hfound], hrest⟩

theorem reaching_start (d : Dag n) : Reaching n d.deps (view d.dependencies) :=
  ⟨le_rfl, fun _ _ h => .single h, d.deps_subset⟩

theorem ancestors_exact (d : Dag n) (hn : n ≤ 2 ^ 32) (fuel : Nat) (hfuel : n * n + n < fuel) :
    ∃ found, d.ancestors fuel = some found ∧ found.length = n ∧ Closed d.deps (view found) := by
  have hin (i j : Nat) (h : j ∈ d.deps i) : i < n := (d.inside h).1
  rcases d.topologicalOrder_cases hn fuel (by omega) with ⟨order, horder, hlin⟩ | ⟨hnone, -⟩
  · have hnodes : ∀ i ∈ order, i < d.dependencies.length := fun i hi => by
      rw [d.dependencies_length]
      exact List.mem_range.mp (hlin.perm.mem_iff.mp hi)
    obtain ⟨hview, hlen⟩ := d.foldl_absorbNode hnodes
    refine ⟨order.foldl (fun sets i => (d.absorbNode sets i).2) d.dependencies, by simp only [ancestors, horder],
      by rw [hlen, d.dependencies_length], ?_⟩
    rw [hview]
    exact closed_of_linearizes hlin hin
  · obtain ⟨found, hfound, hrest⟩ := d.fixpoint_ends hn fuel d.dependencies_length d.reaching_start (by omega)
    exact ⟨found, by simp only [ancestors, hnone, hfound], hrest⟩

end Dag

-- Descendants

theorem mem_insertInto (targets : List Nat) (i : Nat) (sets : List SubGraph) (hin : ∀ j ∈ targets, j < sets.length) (a b : Nat) :
    (b ∈ (setAt (targets.foldl (fun sets j => sets.modify j (·.insert i)) sets) a).members ↔
      b ∈ (setAt sets a).members ∨ a ∈ targets ∧ b = i) ∧
    (targets.foldl (fun sets j => sets.modify j (·.insert i)) sets).length = sets.length := by
  induction targets generalizing sets with
  | nil => simp
  | cons j targets ih =>
    have hj : j < sets.length := hin j (by simp)
    obtain ⟨hmem, hlen⟩ := ih (sets.modify j (·.insert i)) fun k hk => by simpa using hin k (by simp [hk])
    refine ⟨?_, by rw [List.foldl_cons, hlen, List.length_modify]⟩
    rw [List.foldl_cons, hmem, setAt_modify hj]
    by_cases h : a = j
    · subst h
      simp only [if_true, SubGraph.members_insert, Finset.mem_insert, List.mem_cons, true_or, true_and]
      tauto
    · simp [h]

theorem mem_transpose {n : Nat} {ancestors : List SubGraph} (hin : ∀ i, ∀ j ∈ (setAt ancestors i).members, j < n) (a b : Nat) :
    b ∈ (setAt (transpose n ancestors) a).members ↔ a ∈ (setAt ancestors b).members := by
  have hfold (sets : List SubGraph) (k : Nat) (descendants : List SubGraph) (hlen : descendants.length = n)
      (hin : ∀ s ∈ sets, ∀ j ∈ s.members, j < n) :
      b ∈ (setAt ((sets.zipIdx k).foldl (fun descendants s =>
        s.1.iter.foldl (fun descendants j => descendants.modify j (·.insert s.2)) descendants) descendants) a).members ↔
        b ∈ (setAt descendants a).members ∨ ∃ i, k + i = b ∧ i < sets.length ∧ a ∈ (setAt sets i).members := by
    induction sets generalizing k descendants with
    | nil => simp
    | cons set sets ih =>
      obtain ⟨hmem, hlen'⟩ := mem_insertInto set.iter k descendants
        (fun j hj => hlen ▸ hin set (by simp) j (SubGraph.mem_iter.mp hj)) a b
      rw [List.zipIdx_cons, List.foldl_cons, ih (k + 1) _ (by rw [hlen', hlen]) fun s hs => hin s (by simp [hs]), hmem,
        SubGraph.mem_iter, or_assoc]
      refine or_congr Iff.rfl ⟨?_, ?_⟩
      · rintro (⟨ha, rfl⟩ | ⟨i, rfl, hi, ha⟩)
        · exact ⟨0, rfl, by simp, ha⟩
        · exact ⟨i + 1, by omega, by simpa using hi, ha⟩
      · rintro ⟨i, rfl, hi, ha⟩
        cases i with
        | zero => exact .inl ⟨ha, rfl⟩
        | succ i => exact .inr ⟨i, by omega, by simpa using hi, ha⟩
  have hall : ∀ s ∈ ancestors, ∀ j ∈ s.members, j < n := by
    intro s hs j hj
    obtain ⟨i, hi, rfl⟩ := List.getElem_of_mem hs
    exact hin i j (by simpa [setAt, hi] using hj)
  refine (hfold ancestors 0 _ List.length_replicate hall).trans ?_
  rw [setAt_replicate]
  simp only [SubGraph.members_empty, Finset.notMem_empty, false_or, Nat.zero_add, exists_eq_left]
  refine ⟨And.right, fun h => ⟨?_, h⟩⟩
  by_contra hge
  rw [Dag.setAt_of_le (by omega)] at h
  simp at h

-- Contraction

theorem foldl_pair (f g : Nat → SubGraph) (nodes : List Nat) (s t : SubGraph) :
    nodes.foldl (fun (s, t) i => (s.unionWith (f i), t.unionWith (g i))) (s, t) =
      (nodes.foldl (fun s i => s.unionWith (f i)) s, nodes.foldl (fun t i => t.unionWith (g i)) t) := by
  induction nodes generalizing s t with
  | nil => rfl
  | cons i nodes ih => exact ih _ _

theorem canContract_iff_between {r : Reachability} {dep : Nat → Nat → Prop}
    (hanc : ∀ i j, j ∈ (setAt r.ancestors i).members ↔ TransGen dep i j)
    (hdesc : ∀ i j, j ∈ (setAt r.descendants i).members ↔ TransGen dep j i) {a b : SubGraph} (ha : a.members.Nonempty)
    (hb : b.members.Nonempty) :
    r.canContract a b = true ↔ ¬ ∃ k, Between ((a.members ∪ b.members : Finset Nat) : Set Nat) dep k := by
  have hne (s : SubGraph) (hs : s.members.Nonempty) : s.isEmpty = false := by
    rw [Bool.eq_false_iff, ne_eq, SubGraph.isEmpty_iff]
    exact hs.ne_empty
  rw [Reachability.canContract, hne a ha, hne b hb]
  simp only [Bool.or_false, Bool.false_eq_true, if_false, foldl_pair]
  rw [SubGraph.isEmpty_iff, SubGraph.members_subtract, SubGraph.members_intersectWith, Dag.members_foldl_unionWith,
    Dag.members_foldl_unionWith, Dag.toFinset_iter, SubGraph.members_unionWith, SubGraph.members_empty, Finset.empty_union,
    Finset.empty_union, ← Finset.not_nonempty_iff_eq_empty, not_iff_not]
  refine exists_congr fun k => ?_
  simp only [Finset.mem_sdiff, Finset.mem_inter, Finset.mem_biUnion, hanc, hdesc, Between, Finset.mem_coe]
  tauto

theorem dependsOn_deps {N R : Type} [DecidableEq R] [GraphNode N R] (nodes : List N) :
    DependsOn (Dag.new nodes).deps = Depends nodes := by
  funext i j
  exact propext (Dag.mem_deps_new nodes i j)

theorem Dag.reachability_exact {n : Nat} (d : Dag n) (hn : n ≤ 2 ^ 32) (fuel : Nat) (hfuel : n * n + n < fuel) :
    ∃ r, d.reachability fuel = some r ∧
      (∀ i j, j ∈ (setAt r.ancestors i).members ↔ TransGen (DependsOn d.deps) i j) ∧
        ∀ i j, j ∈ (setAt r.descendants i).members ↔ TransGen (DependsOn d.deps) j i := by
  obtain ⟨found, hfound, -, hclosed⟩ := d.ancestors_exact hn fuel hfuel
  have hin (i j : Nat) (hj : j ∈ (setAt found i).members) : j < n := by
    obtain ⟨k, -, hk⟩ := Relation.TransGen.tail'_iff.mp ((hclosed i j).mp hj)
    exact (d.inside hk).2
  exact ⟨⟨found, transpose n found⟩, by rw [reachability, hfound]; rfl, hclosed,
    fun i j => (mem_transpose hin i j).trans (hclosed j i)⟩

/-- Linearization, acyclicity, reachability and contraction are those of the dependency relation
of the nodes, and subgraphs are finite sets of naturals, as far as their `u32` counts go. -/
theorem dependency_graph_exact {N R : Type} [DecidableEq R] [GraphNode N R] (nodes : List N) (hn : nodes.length ≤ 2 ^ 32)
    (fuel : Nat) (hfuel : nodes.length * nodes.length + nodes.length < fuel) :
    (∃ found, (Dag.new nodes).topologicalOrder fuel = some found ∧ (Dag.new nodes).isAcyclic fuel = some found.isSome ∧
      (found.isSome = true ↔ NoCycle (Depends nodes)) ∧
        ∀ order, found = some order → order.Perm (List.range nodes.length) ∧
          ∀ i j, Depends nodes i j → order.idxOf j < order.idxOf i) ∧
    (∃ r, (Dag.new nodes).reachability fuel = some r ∧
      (∀ i j, j ∈ (setAt r.ancestors i).members ↔ TransGen (Depends nodes) i j) ∧
      (∀ i j, j ∈ (setAt r.descendants i).members ↔ TransGen (Depends nodes) j i) ∧
      (NoCycle (Depends nodes) → ∀ a b : SubGraph, a.members.Nonempty → b.members.Nonempty →
        (∀ i ∈ a.members ∪ b.members, i < nodes.length) →
          (r.canContract a b = true ↔
            NoCycle (Contracted ((a.members ∪ b.members : Finset Nat) : Set Nat) (Depends nodes))))) ∧
    ∀ (s t : SubGraph) (x : Nat),
      (s.insert x).members = Insert.insert x s.members ∧ (s.unionWith t).members = s.members ∪ t.members ∧
      (s.intersectWith t).members = s.members ∩ t.members ∧ (s.subtract t).members = s.members \ t.members ∧
      s.iter = s.members.sort (· ≤ ·) ∧ (s = t ↔ s.members = t.members) ∧
      (s.members.card < 2 ^ 32 → s.len = s.members.card) := by
  have hdeps := dependsOn_deps nodes
  refine ⟨?_, ?_, fun s t x => ⟨s.members_insert x, s.members_unionWith t, s.members_intersectWith t, s.members_subtract t,
    s.iter_eq, SubGraph.members_inj.symm, SubGraph.len_of_lt⟩⟩
  · obtain ⟨acyclic, hacyclic, hiff⟩ := (Dag.new nodes).isAcyclic_eq hn fuel (by omega)
    rw [hdeps] at hiff
    rcases (Dag.new nodes).topologicalOrder_cases hn fuel (by omega) with ⟨order, horder, hlin⟩ | ⟨hnone, hcycle⟩
    · have hno : NoCycle (Depends nodes) := hdeps ▸ hlin.noCycle
      refine ⟨some order, horder, ?_, by simp [hno], fun order' heq => ?_⟩
      · rw [hacyclic, hiff.mpr hno]
        rfl
      · obtain rfl := Option.some.inj heq
        exact ⟨hlin.perm, fun i j hd => hlin.placed i j ((Dag.mem_deps_new nodes i j).mpr hd)⟩
    · rw [hdeps] at hcycle
      refine ⟨none, hnone, ?_, by simp [hcycle], by simp⟩
      rw [hacyclic, Option.isSome_none, Option.some.injEq, Bool.eq_false_iff, ne_eq, hiff]
      exact hcycle
  · obtain ⟨r, hr, hanc, hdesc⟩ := (Dag.new nodes).reachability_exact hn fuel hfuel
    rw [hdeps] at hanc hdesc
    refine ⟨r, hr, hanc, hdesc, fun hno a b ha hb _ => ?_⟩
    rw [noCycle_contracted_iff hno]
    exact canContract_iff_between hanc hdesc ha hb

/-- A producer and its reader. -/
def chainOfTwo : List OperationNode :=
  [⟨⟨.other, [], [⟨5, .notInit⟩]⟩, 0⟩, ⟨⟨.other, [⟨5, .readOnly⟩], []⟩, 1⟩]

theorem dependency_graph_exact_chain :
    ∃ found, (Dag.new chainOfTwo).topologicalOrder 7 = some found ∧
      (Dag.new chainOfTwo).isAcyclic 7 = some found.isSome ∧ (found.isSome = true ↔ NoCycle (Depends chainOfTwo)) ∧
        ∀ order, found = some order → order.Perm (List.range chainOfTwo.length) ∧
          ∀ i j, Depends chainOfTwo i j → order.idxOf j < order.idxOf i :=
  (dependency_graph_exact chainOfTwo (by decide) 7 (by decide)).1

-- Past the width of the counters

/-- The nodes `64..64 + 64 * words`. -/
def allOfWords (words : Nat) : SubGraph where
  word0 := 0#64
  spill := List.replicate words (BitVec.allOnes 64)
  canonical := by
    rw [List.getLast?_replicate]
    split <;> decide

theorem card_allOfWords (words : Nat) : (allOfWords words).members.card = words * 64 := by
  have hcard : (allOfWords words).members.card = (allOfWords words).iter.length := by
    rw [SubGraph.iter_eq, Finset.length_sort]
  rw [hcard, SubGraph.length_iter, allOfWords]
  simp

/-- A node that frees a tensor, before `readers` nodes that read it. -/
def freedFirst (readers : Nat) : List OperationNode :=
  ⟨⟨.other, [⟨0, .readWrite⟩], []⟩, 0⟩ :: List.replicate readers ⟨⟨.other, [⟨0, .readOnly⟩], []⟩, 1⟩

theorem depends_freedFirst {readers i j : Nat} : Depends (freedFirst readers) i j ↔ i = 0 ∧ 0 < j ∧ j ≤ readers := by
  unfold Depends freedFirst
  cases i with
  | zero =>
    cases j with
    | zero => simp
    | succ j =>
      by_cases hj : j < readers
      · have hdep : dependsOn (⟨⟨.other, [⟨0, .readWrite⟩], []⟩, 0⟩ : OperationNode) ⟨⟨.other, [⟨0, .readOnly⟩], []⟩, 1⟩ = true := by
          decide
        simp [hj, hdep]
      · simp [hj]
  | succ i =>
    have hno (b : OperationNode) (hb : b = ⟨⟨.other, [⟨0, .readWrite⟩], []⟩, 0⟩ ∨ b = ⟨⟨.other, [⟨0, .readOnly⟩], []⟩, 1⟩) :
        dependsOn (⟨⟨.other, [⟨0, .readOnly⟩], []⟩, 1⟩ : OperationNode) b = false := by
      rcases hb with rfl | rfl <;> decide
    constructor
    · rintro ⟨-, a, b, ha, hb, hdep⟩
      rw [List.getElem?_cons_succ, List.getElem?_replicate] at ha
      split at ha
      · obtain rfl := Option.some.inj ha
        have hb' := List.mem_of_getElem? hb
        rw [List.mem_cons, List.mem_replicate] at hb'
        rw [hno b (hb'.imp_right And.right)] at hdep
        cases hdep
      · cases ha
    · simp

theorem noCycle_freedFirst (readers : Nat) : NoCycle (Depends (freedFirst readers)) := by
  intro i hi
  obtain ⟨k, hk, hpath⟩ := Relation.TransGen.head'_iff.mp hi
  obtain ⟨l, -, hl⟩ := Relation.TransGen.tail'_iff.mp hi
  have h0 := (depends_freedFirst.mp hk).1
  have hpos := (depends_freedFirst.mp hl).2.1
  omega

theorem first_ready {positions counts : List Nat} (h0 : counts[0]? = some 0) (hp : positions.getD 0 0 = 0) :
    ∃ rest, (Kahn.start (Dag.heap positions) counts).ready = (0, 0) :: rest := by
  have hkeep (nodes : List Nat) (hpos : ∀ i ∈ nodes, 0 < i) (rest : List (Nat × Nat)) :
      ∃ rest', nodes.foldl (Dag.heap positions).push ((0, 0) :: rest) = (0, 0) :: rest' := by
    induction nodes generalizing rest with
    | nil => exact ⟨rest, rfl⟩
    | cons i nodes ih =>
      have hlater : ¬ Dag.keyLe (positions.getD i 0, i) (0, 0) := by
        have hi := hpos i (by simp)
        simp only [Dag.keyLe]
        omega
      have hpush : (Dag.heap positions).push ((0, 0) :: rest) i =
          (0, 0) :: rest.orderedInsert Dag.keyLe (positions.getD i 0, i) := by
        simp only [Dag.heap, List.orderedInsert_cons, if_neg hlater]
      rw [List.foldl_cons, hpush]
      exact ih (fun k hk => hpos k (by simp [hk])) _
  cases counts with
  | nil => simp at h0
  | cons count counts =>
    have hfirst : (Dag.heap positions).push (Dag.heap positions).empty 0 = [(0, 0)] := by
      simp only [Dag.heap, List.orderedInsert_nil, hp]
    obtain ⟨rest, hrest⟩ := hkeep (((List.range counts.length).map (· + 1)).filter fun i => (count :: counts)[i]? = some 0)
      (fun i hi => by
        obtain ⟨k, -, rfl⟩ := List.mem_map.mp (List.mem_filter.mp hi).1
        omega) []
    refine ⟨rest, ?_⟩
    rw [← hrest, Kahn.start, List.length_cons, List.range_succ_eq_map, List.filter_cons_of_pos (by simpa using h0), Bag.collect,
      List.foldl_cons, hfirst]

theorem order_freedFirst {readers : Nat} (hwrap : wrap32 readers = 0) {fuel : Nat} {order : List Nat}
    (h : (Dag.new (freedFirst readers)).topologicalOrder fuel = some (some order)) : order.idxOf 0 = 0 := by
  let d := Dag.new (freedFirst readers)
  have hdeps : d.deps 0 = (Finset.range (readers + 1)).erase 0 := by
    ext j
    rw [Dag.mem_deps_new, depends_freedFirst, Finset.mem_erase, Finset.mem_range]
    omega
  have hcount : d.pending[0]? = some 0 := by
    have hpos : 0 < d.dependencies.length := by
      rw [d.dependencies_length, freedFirst, List.length_cons]
      omega
    have hset : d.dependencies[0] = setAt d.dependencies 0 := by simp [setAt, hpos]
    have hcard : (setAt d.dependencies 0).members.card = readers := by
      rw [← Dag.deps, hdeps, Finset.card_erase_of_mem (by simp), Finset.card_range, Nat.add_sub_cancel]
    rw [Dag.pending, List.getElem?_map, List.getElem?_eq_getElem hpos, hset, Option.map_some, SubGraph.len_eq, hcard, hwrap]
  have hposition : d.positions.getD 0 0 = 0 := by
    rw [Dag.positions_new]
    rfl
  obtain ⟨rest, hready⟩ := first_ready hcount hposition
  rw [Dag.topologicalOrder, Option.map_eq_some_iff] at h
  obtain ⟨s, hs, hall⟩ := h
  obtain rfl := Option.some.inj (Option.ite_none_right_eq_some.mp hall).2
  cases fuel with
  | zero => simp [Dag.linearize, Kahn.run] at hs
  | succ fuel =>
    have hpop : (Dag.heap d.positions).pop (Kahn.start (Dag.heap d.positions) d.pending).ready = some (0, rest) := by
      rw [hready]
      rfl
    rw [Dag.linearize, Kahn.run, hpop] at hs
    have hprefix := Kahn.run_prefix hs
    rw [Kahn.emit_order] at hprefix
    obtain ⟨later, hlater⟩ := hprefix
    rw [← hlater]
    rfl

theorem counters_wrap :
    (allOfWords (2 ^ 26)).len ≠ (allOfWords (2 ^ 26)).members.card ∧ NoCycle (Depends (freedFirst (2 ^ 32))) ∧
      ∀ fuel order, (Dag.new (freedFirst (2 ^ 32))).topologicalOrder fuel = some (some order) →
        ¬ ∀ i j, Depends (freedFirst (2 ^ 32)) i j → order.idxOf j < order.idxOf i := by
  refine ⟨?_, noCycle_freedFirst _, fun fuel order h hplaced => ?_⟩
  · rw [SubGraph.len_eq, card_allOfWords]
    decide
  · have hlt := hplaced 0 1 (depends_freedFirst.mpr ⟨rfl, by omega, by omega⟩)
    rw [order_freedFirst (by decide) h] at hlt
    omega

-- Orders that the graph allows

/-- Every resource is produced by one operation at most, and before it is read. -/
structure SingleAssignment (nodes : List OperationNode) : Prop where
  positions : (nodes.map OperationNode.position).Nodup
  once : ∀ a ∈ nodes, ∀ b ∈ nodes, ∀ r ∈ a.produced, r ∈ b.produced → a = b
  later : ∀ a ∈ nodes, ∀ b ∈ nodes, ∀ r ∈ a.produced, r ∈ b.read → a.position < b.position

section Orders

variable {nodes order done : List OperationNode} {a b : OperationNode} {r p : Nat}

theorem SingleAssignment.perm (h : SingleAssignment nodes) (hperm : order.Perm nodes) : SingleAssignment order where
  positions := (hperm.map _).nodup_iff.mpr h.positions
  once a ha b hb := h.once a (hperm.subset ha) b (hperm.subset hb)
  later a ha b hb := h.later a (hperm.subset ha) b (hperm.subset hb)

theorem dependsOn_iff : dependsOn a b = true ↔
    (∃ r ∈ a.read, r ∈ b.produced ∧ b.position < a.position) ∨ (∃ r ∈ a.freed, r ∈ b.read) ∨
      orderedEffect a.operation = true ∧ orderedEffect b.operation = true ∧ b.position < a.position := by
  rw [dependsOn, Bool.or_eq_true, Bool.or_eq_true, or_assoc, List.any_eq_true, List.any_eq_true]
  refine or_congr ?_ (or_congr ?_ ?_)
  · simp [GraphNode.read, GraphNode.producesBefore, GraphNode.readPosition]
  · simp [GraphNode.freed, GraphNode.reads]
  · simp only [GraphNode.orderedRange, OperationNode.orderedRange]
    by_cases ha : orderedEffect a.operation <;> by_cases hb : orderedEffect b.operation <;> simp [ha, hb]

theorem freed_subset (n : OperationNode) : n.freed ⊆ n.read := by
  intro r hr
  obtain ⟨tensor, htensor, rfl⟩ := List.mem_map.mp hr
  exact List.mem_map_of_mem (List.mem_filter.mp htensor).1

theorem lastProducer_iff (honce : ∀ x ∈ done, ∀ y ∈ done, r ∈ x.produced → r ∈ y.produced → x = y) :
    lastProducer done r = some p ↔ ∃ m ∈ done, r ∈ m.produced ∧ m.position = p := by
  rw [lastProducer, Option.map_eq_some_iff]
  constructor
  · rintro ⟨m, hm, rfl⟩
    obtain ⟨hm, hr⟩ := List.mem_filter.mp (List.mem_of_getLast? hm)
    exact ⟨m, hm, of_decide_eq_true hr, rfl⟩
  · rintro ⟨m, hm, hr, rfl⟩
    have hmem : m ∈ done.filter fun n => r ∈ n.produced := List.mem_filter.mpr ⟨hm, decide_eq_true hr⟩
    cases hlast : (done.filter fun n => r ∈ n.produced).getLast? with
    | none =>
      rw [List.getLast?_eq_none_iff.mp hlast] at hmem
      cases hmem
    | some x =>
      obtain ⟨hx, hxr⟩ := List.mem_filter.mp (List.mem_of_getLast? hlast)
      exact ⟨x, rfl, by rw [honce x hx m hm (of_decide_eq_true hxr) hr]⟩

theorem mem_of_mem_before {n m : OperationNode} (h : m ∈ before order n) : m ∈ order := (List.takeWhile_sublist _).subset h

/-- The version of a resource that has one producer. -/
theorem SingleAssignment.version_iff (h : SingleAssignment order) (n : OperationNode) :
    version order n r = some p ↔ ∃ m ∈ before order n, r ∈ m.produced ∧ m.position = p :=
  lastProducer_iff fun x hx y hy => h.once x (mem_of_mem_before hx) y (mem_of_mem_before hy) r

/-- In the program, what an operation reads was produced before it. -/
theorem SingleAssignment.version_program (h : SingleAssignment order) (ha : a ∈ order) (hr : r ∈ a.read) :
    version (program order) a r = some p ↔ ∃ m ∈ order, r ∈ m.produced ∧ m.position = p := by
  have hperm : (program order).Perm order := List.mergeSort_perm order _
  have hsorted := sorted_program h.positions
  obtain ⟨pre, post, hsplit⟩ := List.append_of_mem (hperm.mem_iff.mpr ha)
  have hbefore := before_eq_of_split ((hperm.map _).nodup_iff.mpr h.positions) hsplit
  rw [(h.perm hperm).version_iff, hbefore]
  constructor
  · rintro ⟨m, hm, hrest⟩
    exact ⟨m, hperm.subset (hsplit ▸ List.mem_append_left _ hm), hrest⟩
  · rintro ⟨m, hm, hmr, rfl⟩
    have hlt := h.later m hm a ha r hmr hr
    have hm := hperm.mem_iff.mpr hm
    rw [hsplit] at hm hsorted
    rcases List.mem_append.mp hm with hm | hm
    · exact ⟨m, hm, hmr, rfl⟩
    · rcases List.mem_cons.mp hm with rfl | hm
      · exact absurd hlt (lt_irrefl _)
      · exact absurd hlt (lt_asymm ((List.pairwise_cons.mp (List.pairwise_append.mp hsorted).2.1).1 m hm))

theorem pairwise_of_splits {R : OperationNode → OperationNode → Prop}
    (h : ∀ pre b post, order = pre ++ b :: post → ∀ a ∈ pre, R a b) : order.Pairwise R := by
  induction order using List.reverseRecOn with
  | nil => exact .nil
  | append_singleton order x ih =>
    refine List.pairwise_append.mpr ⟨ih fun pre b post hsplit => h pre b (post ++ [x]) ?_, List.pairwise_singleton R x, ?_⟩
    · rw [hsplit, List.append_assoc, List.cons_append]
    · rintro a ha b hb
      rw [List.mem_singleton.mp hb]
      exact h order x [] rfl a ha

/-- A valid order puts every operation after those that it depends on. -/
theorem SingleAssignment.pairwise_of_valid (h : SingleAssignment order) (hvalid : isValidExecutionOrder order = true) :
    order.Pairwise fun a b => dependsOn a b = false := by
  obtain ⟨hversion, hlive, heffects⟩ := (isValidExecutionOrder_iff_of_nodup h.positions).mp hvalid
  have hproduced (a : OperationNode) (ha : a ∈ order) (b : OperationNode) (hb : b ∈ order) (r : Nat) (hr : r ∈ a.read)
      (hbr : r ∈ b.produced) : b ∈ before order a := by
    have hsome := (hversion a ha r hr).trans ((h.version_program ha hr).mpr ⟨b, hb, hbr, rfl⟩)
    obtain ⟨m, hm, hmr, -⟩ := (h.version_iff a).mp hsome
    rwa [h.once b hb m (mem_of_mem_before hm) r hbr hmr]
  refine pairwise_of_splits fun pre b post hsplit a ha => Bool.eq_false_iff.mpr fun hdep => ?_
  have hb : b ∈ order := hsplit ▸ List.mem_append_right _ List.mem_cons_self
  have hmem : a ∈ order := hsplit ▸ List.mem_append_left _ ha
  obtain ⟨front, mid, hpre⟩ := List.append_of_mem ha
  have hnodup := List.Nodup.of_map _ h.positions
  have hfront : before order a = front :=
    before_eq_of_split h.positions (by rw [hsplit, hpre, List.append_assoc, List.cons_append])
  rw [hsplit, hpre, List.append_assoc, List.cons_append] at hnodup
  have hapart := (List.nodup_append'.mp hnodup).2.2
  rcases dependsOn_iff.mp hdep with ⟨r, hr, hbr, -⟩ | ⟨r, hr, hbr⟩ | ⟨heffect, hbeffect, hlt⟩
  · have hearly := hproduced a hmem b hb r hr hbr
    rw [hfront] at hearly
    exact hapart hearly (by simp)
  · have hread := freed_subset a hr
    refine hlive b hb r hbr ⟨front, a, mid, (before_eq_of_split h.positions hsplit).trans hpre, hr, fun hproduces => ?_, fun x hx hproduces => ?_⟩
    · exact absurd (h.later a hmem a hmem r hproduces hread) (lt_irrefl _)
    · have hearly := hproduced a hmem x (hsplit ▸ List.mem_append_left _ (hpre ▸ by simp [hx])) r hread hproduces
      rw [hfront] at hearly
      exact hapart hearly (by simp [hx])
  · rw [effects, hsplit, List.filter_append, List.map_append] at heffects
    have hbefore := (List.pairwise_append.mp heffects).2.2 a.position (List.mem_map_of_mem (List.mem_filter.mpr ⟨ha, heffect⟩)) b.position
      (List.mem_map_of_mem (List.mem_filter.mpr ⟨List.mem_cons_self, hbeffect⟩))
    exact absurd hlt (lt_asymm hbefore)

/-- An order that puts every operation after those that it depends on is valid. -/
theorem SingleAssignment.valid_of_pairwise (h : SingleAssignment order) (hpair : order.Pairwise fun a b => dependsOn a b = false) :
    isValidExecutionOrder order = true := by
  have hbefore (n : OperationNode) (hn : n ∈ order) : (∀ m ∈ before order n, dependsOn m n = false) ∧
      ∀ m ∈ order, m ≠ n → dependsOn n m = true → m ∈ before order n := by
    obtain ⟨pre, post, hsplit⟩ := List.append_of_mem hn
    rw [before_eq_of_split h.positions hsplit]
    rw [hsplit] at hpair ⊢
    obtain ⟨-, hpost, hpre⟩ := List.pairwise_append.mp hpair
    refine ⟨fun m hm => hpre m hm n List.mem_cons_self, fun m hm hne hdep => ?_⟩
    rcases List.mem_append.mp hm with hm | hm
    · exact hm
    · have hfalse := (List.pairwise_cons.mp hpost).1 m ((List.mem_cons.mp hm).resolve_left hne)
      exact nomatch hfalse.symm.trans hdep
  refine (isValidExecutionOrder_iff_of_nodup h.positions).mpr ⟨fun n hn r hr => ?_, fun n hn r hr => ?_, ?_⟩
  · refine Option.ext fun p => ?_
    rw [h.version_program hn hr, h.version_iff]
    constructor
    · rintro ⟨m, hm, hrest⟩
      exact ⟨m, mem_of_mem_before hm, hrest⟩
    · rintro ⟨m, hm, hmr, rfl⟩
      have hlt := h.later m hm n hn r hmr hr
      have hdep := dependsOn_iff.mpr (.inl ⟨r, hr, hmr, hlt⟩)
      exact ⟨m, (hbefore n hn).2 m hm (fun heq => lt_irrefl _ (heq ▸ hlt)) hdep, hmr, rfl⟩
  · rintro ⟨front, m, back, hsplit, hfreed, -⟩
    have hfalse := (hbefore n hn).1 m (hsplit ▸ by simp)
    exact nomatch hfalse.symm.trans (dependsOn_iff.mpr (.inr (.inl ⟨r, hfreed, hr⟩)))
  · refine List.pairwise_map.mpr (List.pairwise_filter.mpr (hpair.imp₂ (fun a b hfalse hne ha hb => ?_) (List.pairwise_map.mp h.positions)))
    refine lt_of_le_of_ne (not_lt.mp fun hlt => ?_) hne
    exact nomatch hfalse.symm.trans (dependsOn_iff.mpr (.inr (.inr ⟨ha, hb, hlt⟩)))

end Orders

/-- The operations of a list of indices. -/
def pick (nodes : List OperationNode) (order : List Nat) : List OperationNode := order.filterMap (nodes[·]?)

theorem pick_range (nodes : List OperationNode) : pick nodes (List.range nodes.length) = nodes := by
  induction nodes with
  | nil => rfl
  | cons n nodes ih =>
    rw [pick, List.length_cons, List.range_succ_eq_map, List.filterMap_cons, List.filterMap_map]
    exact congrArg (n :: ·) ih

/-- The order checker accepts exactly the linearizations of the dependency graph, and the one that is found if there is any. -/
theorem linearization_valid (nodes : List OperationNode) (h : SingleAssignment nodes) (hn : nodes.length ≤ 2 ^ 32) (fuel : Nat)
    (hfuel : nodes.length < fuel) :
    (∀ order, order.Perm nodes →
      (isValidExecutionOrder order = true ↔ order.Pairwise fun a b => dependsOn a b = false)) ∧
    ∃ found, (Dag.new nodes).topologicalOrder fuel = some found ∧
      (found.isSome = true ↔ ∃ order, order.Perm nodes ∧ isValidExecutionOrder order = true) ∧
      ∀ order, found = some order → (pick nodes order).Perm nodes ∧ isValidExecutionOrder (pick nodes order) = true := by
  have hiff (order : List OperationNode) (hperm : order.Perm nodes) :
      isValidExecutionOrder order = true ↔ order.Pairwise fun a b => dependsOn a b = false :=
    ⟨(h.perm hperm).pairwise_of_valid, (h.perm hperm).valid_of_pairwise⟩
  refine ⟨hiff, ?_⟩
  rcases (Dag.new nodes).topologicalOrder_cases hn fuel hfuel with ⟨order, horder, hlin⟩ | ⟨hnone, hcycle⟩
  · have hperm : (pick nodes order).Perm nodes := by
      have hpick := hlin.perm.filterMap (nodes[·]?)
      rwa [← pick, ← pick, pick_range] at hpick
    have hvalid : isValidExecutionOrder (pick nodes order) = true := by
      refine (hiff _ hperm).mpr (List.pairwise_filterMap.mpr (List.pairwise_iff_getElem.mpr fun i j hi hj hij a ha b hb => ?_))
      have hnodup := hlin.perm.nodup_iff.mpr List.nodup_range
      refine Bool.eq_false_iff.mpr fun hdep => ?_
      have hne : order[i] ≠ order[j] := fun heq => hij.ne ((List.Nodup.getElem_inj_iff hnodup).mp heq)
      have hlt := hlin.placed order[i] order[j] ((Dag.mem_deps_new nodes _ _).mpr ⟨hne, a, b, ha, hb, hdep⟩)
      rw [hnodup.idxOf_getElem, hnodup.idxOf_getElem] at hlt
      omega
    refine ⟨some order, horder, iff_of_true rfl ⟨_, hperm, hvalid⟩, fun order' heq => ?_⟩
    rw [← Option.some.inj heq]
    exact ⟨hperm, hvalid⟩
  · refine ⟨none, hnone, iff_of_false Bool.false_ne_true ?_, fun _ heq => nomatch heq⟩
    rintro ⟨order, hperm, hvalid⟩
    have hpair := (hiff order hperm).mp hvalid
    -- the places in a valid order decrease along dependencies
    have hstep {i j : Nat} (hij : Depends nodes i j) : (nodes[j]?.map order.idxOf).getD 0 < (nodes[i]?.map order.idxOf).getD 0 := by
      obtain ⟨hne, a, b, ha, hb, hdep⟩ := hij
      rw [ha, hb, Option.map_some, Option.map_some, Option.getD_some, Option.getD_some]
      have hla := List.idxOf_lt_length_of_mem (hperm.mem_iff.mpr (List.mem_of_getElem? ha))
      have hlb := List.idxOf_lt_length_of_mem (hperm.mem_iff.mpr (List.mem_of_getElem? hb))
      rcases Nat.lt_trichotomy (order.idxOf b) (order.idxOf a) with hlt | heq | hgt
      · exact hlt
      · have hab : a = b := by rw [← List.getElem_idxOf hla, ← List.getElem_idxOf hlb]; simp only [heq]
        obtain ⟨hi, hai⟩ := List.getElem?_eq_some_iff.mp ha
        obtain ⟨hj, hbj⟩ := List.getElem?_eq_some_iff.mp hb
        exact absurd ((List.Nodup.getElem_inj_iff (List.Nodup.of_map _ h.positions)).mp (hai.trans (hab.trans hbj.symm))) hne
      · have hfalse := List.pairwise_iff_getElem.mp hpair _ _ hla hlb hgt
        rw [List.getElem_idxOf, List.getElem_idxOf] at hfalse
        exact nomatch hfalse.symm.trans hdep
    refine hcycle ?_
    rw [dependsOn_deps]
    intro i hi
    have hlt {j : Nat} (hij : TransGen (Depends nodes) i j) : (nodes[j]?.map order.idxOf).getD 0 < (nodes[i]?.map order.idxOf).getD 0 := by
      induction hij with
      | single hd => exact hstep hd
      | tail _ hd ih => exact (hstep hd).trans ih
    exact absurd (hlt hi) (lt_irrefl _)

theorem linearization_valid_chain :
    ∃ found, (Dag.new chainOfTwo).topologicalOrder 7 = some found ∧
      (found.isSome = true ↔ ∃ order, order.Perm chainOfTwo ∧ isValidExecutionOrder order = true) ∧
      ∀ order, found = some order → (pick chainOfTwo order).Perm chainOfTwo ∧ isValidExecutionOrder (pick chainOfTwo order) = true :=
  (linearization_valid chainOfTwo ⟨by decide, by decide, by decide⟩ (by decide) 7 (by decide)).2

end Ruda.Fusion
