import Ruda.Autodiff.Calls

/-!
# When no step is lost in a merge

`STATE` maps every node to a graph, and the graph has the steps. A merge moves the steps of a
graph at once, and the entries of `STATE` with it: of its origin, and of the nodes kept as its
keys. Nothing is lost as long as these are the nodes whose steps it moved, and no thread still
has a handle of the graph that was emptied.
-/

namespace Ruda.Autodiff

/-- The graph that was selected, and that the thread is about to lock. -/
def Pc.pending : Pc → Option GraphId
  | selected _ _ graph | chosen _ graph => some graph
  | _ => none

/-- Nodes whose entries the thread will remove. -/
def Pc.letGo : Pc → List Nat
  | cleaning _ consumed => consumed
  | trying _ removed | dropping removed => removed
  | _ => []

/-- The root of the backward, or a parent of the node that is registered. -/
def Pc.Mentions (pc : Pc) (n : Nat) : Prop :=
  pc.root = some n ∨ ∃ m ps, pc.registers = some (m, ps) ∧ n ∈ ps.map Parent.id

def GraphAnalysis.graphs : GraphAnalysis → List GraphId
  | noCollision graph => [graph]
  | newGraph => []
  | collisions graphs => graphs

namespace Sys

variable (s : Sys)

/-- The registration has returned, and the node was neither consumed nor freed. -/
def Live (n : Nat) : Prop := n ∈ s.history.returned ∧ n ∉ s.history.consumed ∧ n ∉ s.history.freed

instance (n : Nat) : Decidable (s.Live n) := by
  unfold Live
  infer_instance

def parentsOf (n : Nat) : List Parent := s.history.parents[n]?.getD []

/-- An ancestor, over nodes that were not freed. -/
def Above : Nat → Nat → Prop :=
  Relation.ReflTransGen fun x y => x ∉ s.history.freed ∧ y ∈ (s.parentsOf x).map Parent.id

/-- The graph of every live node has its step, and those of its live ancestors. -/
def Kept : Prop :=
  ∀ n, s.Live n → ∃ g ∈ s.locator.graphs[n]?, ∀ a, s.Above n a → s.Live a → (s.heap g).steps[a]? = some (s.parentsOf a)

/-- A backward that is about to enter its graph takes the tape for consumed only if an ancestor is not live. -/
def Honest : Prop :=
  ∀ t root g, s.threads t = .chosen root g → ∀ m, collectSteps root (s.heap g).steps = .error m →
    s.Above root m ∧ ¬s.Live m

/-- A live node, or one that is registered in a graph that was selected for it. -/
def Tracked (n : Nat) : Prop := s.Live n ∨ ∃ t parents g, s.threads t = .selected n parents g

/-- The entries that go over to the main graph are those of the steps that do. -/
def MovesWith (main graph : GraphId) (n : Nat) : Prop :=
  (s.locator.graphs[n]? = some graph → s.locator.Moved s.heap graph n) ∧
    (s.locator.Moved s.heap graph n → s.locator.graphs[n]? = some graph ∨ s.locator.graphs[n]? = some main)

instance (main graph : GraphId) (n : Nat) : Decidable (s.MovesWith main graph n) := by
  unfold MovesWith
  infer_instance

/-- A registration finds the graph of every live parent, nobody has a handle of a graph that a
merge empties, and the entries of `STATE` move with the steps. -/
def Careful (t : Nat) : Prop :=
  match s.threads t with
  | .registering node parents =>
    ∀ p ∈ parents, s.Live p.id → ∃ g ∈ (s.locator.analyse s.heap node parents).graphs, s.locator.graphs[p.id]? = some g
  | .absorbing _ _ main (graph :: _) =>
    (∀ u, (s.threads u).pending ≠ some graph) ∧ ∀ n, s.Tracked n → s.MovesWith main graph n
  | .absorbing _ _ main [] =>
    s.Tracked (s.heap main).origin → s.locator.graphs[(s.heap main).origin]? = some main
  | _ => True

-- What the threads rely on

variable {s} {s' : Sys} {t : Nat} {pc : Pc}

/-- What holds while a thread is at `pc`. -/
structure Relies (s : Sys) (pc : Pc) : Prop where
  letGo : ∀ n ∈ pc.letGo, n ∈ s.history.consumed ∨ n ∈ s.history.freed
  selected : ∀ n ps g, pc = .selected n ps g → s.locator.graphs[n]? = some g ∧
    ∀ p ∈ ps, s.Live p.id → s.locator.graphs[p.id]? = some g
  chosen : ∀ root g, pc = .chosen root g → s.Live root → s.locator.graphs[root]? = some g
  merging : ∀ n ps, pc.registers = some (n, ps) → pc.InState → ∀ p ∈ ps, s.Live p.id →
    ∃ g ∈ pc.merges, s.locator.graphs[p.id]? = some g

theorem Relies.of_letGo (hgo : ∀ n ∈ pc.letGo, n ∈ s.history.consumed ∨ n ∈ s.history.freed)
    (hpending : pc.pending = none) (hin : ¬pc.InState) : Relies s pc := by
  refine ⟨hgo, ?_, ?_, fun n ps _ h => absurd h hin⟩
  · rintro n ps g rfl
    cases hpending
  · rintro root g rfl
    cases hpending

theorem Relies.mono (h : Relies s pc)
    (hgone : ∀ n, n ∈ s.history.consumed ∨ n ∈ s.history.freed → n ∈ s'.history.consumed ∨ n ∈ s'.history.freed)
    (hlive : ∀ n, pc.Mentions n → s'.Live n → s.Live n)
    (hgraph : ∀ (n : Nat) (g : GraphId), g ∈ pc.merges ∨ pc.pending = some g →
      (s'.Live n ∨ ∃ ps, pc = .selected n ps g) → s.locator.graphs[n]? = some g → s'.locator.graphs[n]? = some g) :
    Relies s' pc where
  letGo := fun n hn => hgone n (h.letGo n hn)
  selected := by
    rintro n ps g rfl
    obtain ⟨hn, hp⟩ := h.selected n ps g rfl
    refine ⟨hgraph n g (.inr rfl) (.inr ⟨ps, rfl⟩) hn, fun p hmem hl => ?_⟩
    have hold := hlive p.id (.inr ⟨n, ps, rfl, List.mem_map_of_mem hmem⟩) hl
    exact hgraph p.id g (.inr rfl) (.inl hl) (hp p hmem hold)
  chosen := by
    rintro root g rfl hl
    exact hgraph root g (.inr rfl) (.inl hl) (h.chosen root g rfl (hlive root (.inl rfl) hl))
  merging := by
    intro n ps hreg hin p hmem hl
    have hold := hlive p.id (.inr ⟨n, ps, hreg, List.mem_map_of_mem hmem⟩) hl
    obtain ⟨g, hg, hp⟩ := h.merging n ps hreg hin p hmem hold
    exact ⟨g, hg, hgraph p.id g (.inl hg) (.inl hl) hp⟩

-- The invariant

/-- The steps of a graph are those of the live nodes that `STATE` maps to it, and a node is in the
graph of its live parents. -/
structure Merged (s : Sys) : Prop where
  gone : ∀ n, n ∈ s.history.consumed ∨ n ∈ s.history.freed → n ∈ s.history.returned
  steps : ∀ g (n : Nat) ps, (s.heap g).steps[n]? = some ps →
    s.Live n ∧ ps = s.parentsOf n ∧ s.locator.graphs[n]? = some g
  live : ∀ n, s.Live n → ∃ g, s.locator.graphs[n]? = some g ∧ (s.heap g).steps[n]? = some (s.parentsOf n)
  kin : ∀ n, s.Live n → ∀ p ∈ s.parentsOf n, s.Live p.id → s.locator.graphs[p.id]? = s.locator.graphs[n]?
  consumed : ∀ n ∈ s.history.consumed, ∀ p ∈ s.parentsOf n, ¬s.Live p.id
  threads : ∀ t, Relies s (s.threads t)

theorem Merged.initial : Merged Sys.initial where
  gone := by simp [Sys.initial]
  steps := by simp [Sys.initial]
  live := by simp [Sys.initial, Live]
  kin := by simp [Sys.initial, Live]
  consumed := by simp [Sys.initial]
  threads := fun _ => .of_letGo (by simp [Sys.initial, Pc.letGo]) rfl (by simp [Sys.initial, Pc.InState])

/-- A step after which the nodes `X` are not live: their steps are gone, and everything else is where it was. -/
theorem Merged.shrink (h : Merged s) {X : List Nat} (hthreads : s'.threads = Function.update s.threads t pc)
    (hreturned : s'.history.returned = s.history.returned) (hlive : ∀ n, s'.Live n ↔ s.Live n ∧ n ∉ X)
    (hgone : ∀ n, n ∈ s.history.consumed ∨ n ∈ s.history.freed → n ∈ s'.history.consumed ∨ n ∈ s'.history.freed)
    (hgone' : ∀ n, n ∈ s'.history.consumed ∨ n ∈ s'.history.freed → n ∈ s.history.returned)
    (hparents : ∀ n ∈ s.history.returned, s'.parentsOf n = s.parentsOf n)
    (hsteps : ∀ g (n : Nat), (s'.heap g).steps[n]? = if n ∈ X then none else (s.heap g).steps[n]?)
    (hgraphs : ∀ n : Nat, (s'.Live n ∨ ∃ u ps g, u ≠ t ∧ s.threads u = .selected n ps g) →
      s'.locator.graphs[n]? = s.locator.graphs[n]?)
    (hconsumed : ∀ n ∈ s'.history.consumed, n ∉ s.history.consumed → ∀ p ∈ s.parentsOf n, ¬s'.Live p.id)
    (hpc : Relies s' pc) : Merged s' where
  gone := fun n hn => hreturned ▸ hgone' n hn
  steps := by
    intro g n ps hn
    rw [hsteps] at hn
    split at hn
    · cases hn
    · next hx =>
      obtain ⟨hl, hps, hg⟩ := h.steps g n ps hn
      have hl' : s'.Live n := (hlive n).mpr ⟨hl, hx⟩
      exact ⟨hl', by rw [hparents n hl.1, hps], by rw [hgraphs n (.inl hl'), hg]⟩
  live := by
    intro n hl'
    obtain ⟨hl, hx⟩ := (hlive n).mp hl'
    obtain ⟨g, hg, hn⟩ := h.live n hl
    exact ⟨g, by rw [hgraphs n (.inl hl'), hg], by rw [hsteps, if_neg hx, hn, hparents n hl.1]⟩
  kin := by
    intro n hl' p hp hpl
    obtain ⟨hl, -⟩ := (hlive n).mp hl'
    rw [hparents n hl.1] at hp
    rw [hgraphs p.id (.inl hpl), hgraphs n (.inl hl')]
    exact h.kin n hl p hp ((hlive p.id).mp hpl).1
  consumed := by
    intro n hn p hp hpl
    rw [hparents n (hgone' n (.inl hn))] at hp
    by_cases hold : n ∈ s.history.consumed
    · exact h.consumed n hold p hp ((hlive p.id).mp hpl).1
    · exact hconsumed n hn hold p hp hpl
  threads := by
    intro u
    rw [hthreads]
    by_cases hu : u = t
    · subst hu
      rwa [Function.update_self]
    · rw [Function.update_of_ne hu]
      refine (h.threads u).mono hgone (fun n _ hl => ((hlive n).mp hl).1) ?_
      rintro n g - hn hg
      rw [hgraphs n ?_, hg]
      exact hn.imp_right fun ⟨ps, hps⟩ => ⟨u, ps, g, hu, hps⟩

theorem Merged.stay (h : Merged s) (hthreads : s'.threads = Function.update s.threads t pc)
    (hreturned : s'.history.returned = s.history.returned) (hconsumed : s'.history.consumed = s.history.consumed)
    (hfreed : s'.history.freed = s.history.freed) (hparents : ∀ n ∈ s.history.returned, s'.parentsOf n = s.parentsOf n)
    (hsteps : ∀ g (n : Nat), (s'.heap g).steps[n]? = (s.heap g).steps[n]?)
    (hgraphs : ∀ n : Nat, (s.Live n ∨ ∃ u ps g, u ≠ t ∧ s.threads u = .selected n ps g) →
      s'.locator.graphs[n]? = s.locator.graphs[n]?)
    (hpc : Relies s' pc) : Merged s' := by
  have hlive : ∀ n, s'.Live n ↔ s.Live n := by
    intro n
    rw [Live, Live, hreturned, hconsumed, hfreed]
  refine @Merged.shrink _ _ _ _ h [] hthreads hreturned (by simp [hlive]) ?_ ?_ hparents (by simpa using hsteps) ?_ ?_ hpc
  · rw [hconsumed, hfreed]
    exact fun _ => id
  · rw [hconsumed, hfreed]
    exact h.gone
  · intro n hn
    rw [hlive] at hn
    exact hgraphs n hn
  · rw [hconsumed]
    exact fun n hn hnot => absurd hn hnot

theorem Merged.moveTo (h : Merged s) (hpc : Relies s pc) : Merged (s.moveTo t pc) := by
  refine h.stay rfl rfl rfl rfl (fun _ _ => rfl) (fun _ _ => rfl) (fun _ _ => rfl) ?_
  exact hpc.mono (fun _ => id) (fun _ _ => id) (fun _ _ _ _ => id)

theorem get_eraseAll (steps : Steps) (nodes : List Nat) (n : Nat) :
    (eraseAll steps nodes)[n]? = if n ∈ nodes then none else steps[n]? := by
  unfold eraseAll
  induction nodes generalizing steps with
  | nil => simp
  | cons m nodes ih =>
    rw [List.foldl_cons, ih, BTreeMap.get_erase]
    by_cases hn : n ∈ nodes <;> simp [hn]

theorem Calls.not_live (hc : Calls s) {n : Nat} {ps : List Parent} (h : (s.threads t).registers = some (n, ps)) :
    ¬s.Live n := fun hl => (hc.known t n ps h).2 hl.1

theorem Calls.not_selected (hc : Calls s) {n : Nat} {ps : List Parent} (h : (s.threads t).registers = some (n, ps)) :
    ¬∃ u qs g, u ≠ t ∧ s.threads u = .selected n qs g := by
  rintro ⟨u, qs, g, hu, hsel⟩
  exact hu (hc.one u t n qs ps (by rw [hsel]; rfl) h)

theorem Merged.keep (h : Merged s) (hc : Calls s) (hl : Locks s) (hok : Careful s t) {node : Nat} {parents : List Parent}
    {next : GraphId → Pc} {graph : GraphId} (hpc : Selects (s.threads t) node parents next)
    (hg : s.locator.analyse s.heap node parents = .noCollision graph) :
    Merged { s.moveTo t (next graph) with locator := s.locator.keep s.heap node graph } := by
  generalize hpc' : s.threads t = pc at hpc
  cases hpc with
  | register =>
    have hreg := registers_of_registering hpc'
    have hsame : ∀ n : Nat, n ≠ node → (s.locator.keep s.heap node graph).graphs[n]? = s.locator.graphs[n]? := by
      intro n hn
      rw [GraphLocator.keep_graphs, if_neg fun hand => hn hand.1]
    refine h.stay rfl rfl rfl rfl (fun _ _ => rfl) (fun _ _ => rfl) ?_ ?_
    · rintro n hn
      refine hsame n ?_
      rintro rfl
      rcases hn with hlive | hsel
      · exact hc.not_live hreg hlive
      · exact hc.not_selected hreg hsel
    · refine ⟨by simp [Pc.letGo], ?_, by simp, by simp [Pc.InState]⟩
      rintro n ps g he
      cases he
      -- no graph has the node for its origin before the node is selected
      have horigin : (s.heap graph).origin ≠ node := by
        rintro rfl
        obtain ⟨m, -, hm⟩ := GraphLocator.analyse_noCollision hg
        exact (hc.origins graph (hl.known m graph hm)).2 t parents hpc'
      refine ⟨by simp [GraphLocator.keep_graphs, horigin], fun p hp hlive => ?_⟩
      have hne : p.id ≠ node := by
        rintro he
        exact hc.not_live hreg (he ▸ hlive)
      simp only [Careful, hpc', hg, GraphAnalysis.graphs, List.mem_singleton, exists_eq_left] at hok
      exact (hsame p.id hne).trans (hok p hp hlive)
  | backward =>
    have hroot := GraphLocator.analyse_root_noCollision hg
    have hsame : ∀ n : Nat, (s.locator.keep s.heap node graph).graphs[n]? = s.locator.graphs[n]? := by
      intro n
      rw [GraphLocator.keep_graphs]
      split
      · next hand => rw [hand.1, hroot]
      · rfl
    refine h.stay rfl rfl rfl rfl (fun _ _ => rfl) (fun _ _ => rfl) (fun n _ => hsame n) ?_
    refine ⟨by simp [Pc.letGo], by simp, ?_, by simp [Pc.InState]⟩
    rintro root g he -
    cases he
    exact (hsame _).trans hroot

theorem Merged.fresh_steps (h : Merged s) (hl : Locks s) (n : Nat) : (s.heap s.fresh).steps[n]? = none := by
  by_contra hne
  obtain ⟨ps, hps⟩ := Option.ne_none_iff_exists'.mp hne
  exact lt_irrefl _ (hl.known n _ (h.steps _ n ps hps).2.2)

theorem Merged.new (h : Merged s) (hl : Locks s) {node : Nat} {parents : List Parent}
    {next : GraphId → Pc} (hpc : Selects (s.threads t) node parents next)
    (hg : s.locator.analyse s.heap node parents = .newGraph) :
    Merged { (s.moveTo t (next s.fresh)).setGraph s.fresh { origin := node, owner := none, steps := ∅ } with
      locator := s.locator.newGraph node s.fresh, fresh := s.fresh + 1 } := by
  have hnone := GraphLocator.analyse_newGraph hg
  have hlive : ∀ n ∈ node :: parents.map Parent.id, ¬s.Live n := by
    intro n hn hln
    obtain ⟨g, hg', -⟩ := h.live n hln
    rw [hnone n hn] at hg'
    cases hg'
  refine h.stay rfl rfl rfl rfl (fun _ _ => rfl) ?_ ?_ ?_
  · intro g n
    by_cases hfr : g = s.fresh
    · subst hfr
      simp [setGraph, h.fresh_steps hl n]
    · simp [setGraph, Sys.moveTo, hfr]
  · intro n hn
    have hne : n ≠ node := by
      rintro rfl
      rcases hn with hln | ⟨u, ps, g, -, hsel⟩
      · exact hlive n List.mem_cons_self hln
      · have hmapped := ((h.threads u).selected n ps g hsel).1
        rw [hnone n List.mem_cons_self] at hmapped
        cases hmapped
    simp [hne]
  · generalize hpc' : s.threads t = pc at hpc
    cases hpc with
    | register =>
      refine ⟨by simp [Pc.letGo], ?_, by simp, by simp [Pc.InState]⟩
      rintro n ps g he
      cases he
      refine ⟨by simp, fun p hp hln => ?_⟩
      exact absurd hln (hlive p.id (List.mem_cons_of_mem _ (List.mem_map_of_mem hp)))
    | backward =>
      refine ⟨by simp [Pc.letGo], by simp, ?_, by simp [Pc.InState]⟩
      rintro root g he -
      cases he
      simp

theorem Merged.collide (h : Merged s) (hok : Careful s t) {node : Nat} {parents : List Parent} {main : GraphId}
    {rest graphs : List GraphId} (hpc : s.threads t = .registering node parents)
    (hg : s.locator.analyse s.heap node parents = .collisions graphs) (hperm : (main :: rest).Perm graphs) :
    Merged { s.moveTo t (.merging node parents main rest) with
      locator := s.locator.registerKey (s.heap main).origin node, state := some t } := by
  refine h.stay rfl rfl rfl rfl (fun _ _ => rfl) (fun _ _ => rfl) (fun _ _ => rfl) ?_
  refine ⟨by simp [Pc.letGo], by simp, by simp, ?_⟩
  rintro n ps hreg - p hp hlive
  cases hreg
  simp only [Careful, hpc, hg, GraphAnalysis.graphs] at hok
  obtain ⟨g, hmem, hgp⟩ := hok p hp hlive
  exact ⟨g, hperm.mem_iff.mpr hmem, hgp⟩

theorem setGraph_steps {graph : GraphId} {new : Graph} (h : new.steps = (s.heap graph).steps) (g : GraphId) (n : Nat) :
    ((s.setGraph graph new).heap g).steps[n]? = (s.heap g).steps[n]? := by
  by_cases hg : g = graph
  · subst hg
    simp [setGraph, h]
  · simp [setGraph, hg]

theorem Merged.lockMain (h : Merged s) {node : Nat} {parents : List Parent} {main : GraphId} {rest : List GraphId}
    (hpc : s.threads t = .merging node parents main rest) : Merged (s.lockMain t node parents main rest) := by
  refine h.stay rfl rfl rfl rfl (fun _ _ => rfl) (setGraph_steps rfl) (fun _ _ => rfl) ?_
  refine ⟨by simp [Pc.letGo], by simp, by simp, ?_⟩
  rintro n ps hreg - p hp hlive
  cases hreg
  have hmerging := (h.threads t).merging node parents (by rw [hpc]; rfl) (by rw [hpc]; trivial) p hp hlive
  rw [hpc] at hmerging
  exact hmerging

theorem Merged.endMerge (h : Merged s) (hc : Calls s) (hok : Careful s t) {node : Nat} {parents : List Parent}
    {main : GraphId} (hpc : s.threads t = .absorbing node parents main []) : Merged (s.endMerge t node parents main) := by
  have hreg : (s.threads t).registers = some (node, parents) := by
    rw [hpc]
    rfl
  simp only [Careful, hpc] at hok
  have hsame : ∀ n : Nat, (s.Live n ∨ ∃ u ps g, u ≠ t ∧ s.threads u = .selected n ps g) →
      (s.locator.join s.heap node main).graphs[n]? = s.locator.graphs[n]? := by
    intro n hn
    have hne : n ≠ node := by
      rintro rfl
      rcases hn with hlive | hsel
      · exact hc.not_live hreg hlive
      · exact hc.not_selected hreg hsel
    simp only [GraphLocator.join_graphs, hne, false_or]
    split
    · next he =>
      subst he
      exact (hok (hn.imp_right fun ⟨u, ps, g, _, hsel⟩ => ⟨u, ps, g, hsel⟩)).symm
    · rfl
  refine h.stay rfl rfl rfl rfl (fun _ _ => rfl) (setGraph_steps rfl) hsame ?_
  refine ⟨by simp [Pc.letGo], ?_, by simp, by simp [Pc.InState]⟩
  rintro n ps g he
  cases he
  refine ⟨by simp [Sys.endMerge], fun p hp hlive => ?_⟩
  have hmerging := (h.threads t).merging node parents hreg (by rw [hpc]; trivial) p hp hlive
  rw [hpc] at hmerging
  obtain ⟨g, hg, hgp⟩ := hmerging
  obtain rfl := List.mem_singleton.mp hg
  exact (hsame p.id (.inl hlive)).trans hgp

theorem mem_steps {steps : Steps} {n : Nat} : n ∈ steps ↔ ∃ ps, steps[n]? = some ps := by
  rw [← Option.isSome_iff_exists, Std.ExtTreeMap.isSome_getElem?_iff_mem]

theorem erase_steps {graph g : GraphId} {nodes : List Nat} {new : Graph}
    (hnew : new.steps = eraseAll (s.heap graph).steps nodes)
    (hother : g ≠ graph → ∀ n ∈ nodes, (s.heap g).steps[n]? = none) (n : Nat) :
    ((s.setGraph graph new).heap g).steps[n]? = if n ∈ nodes then none else (s.heap g).steps[n]? := by
  by_cases hg : g = graph
  · subst hg
    simp only [setGraph, Function.update_self, hnew]
    exact get_eraseAll _ _ _
  · simp only [setGraph, Function.update_of_ne hg]
    split
    · next hn => exact hother hg n hn
    · rfl

theorem Merged.other_graph (h : Merged s) {graph g : GraphId} {n : Nat} (hn : n ∈ (s.heap graph).steps) (hg : g ≠ graph) :
    (s.heap g).steps[n]? = none := by
  by_contra hne
  obtain ⟨ps, hps⟩ := Option.ne_none_iff_exists'.mp hne
  obtain ⟨qs, hqs⟩ := mem_steps.mp hn
  have hone := (h.steps g n ps hps).2.2
  rw [(h.steps graph n qs hqs).2.2] at hone
  exact hg (Option.some.inj hone).symm

theorem Merged.backward (h : Merged s) {root : Nat} {graph : GraphId} :
    Merged (s.backward t root graph) := by
  unfold Sys.backward
  split
  · exact h.moveTo (.of_letGo (by simp [Pc.letGo]) rfl (by simp [Pc.InState]))
  · next nodes hnodes =>
    have hcol := collectSteps_ok hnodes
    have hin : ∀ n ∈ nodes, n ∈ (s.heap graph).steps := fun n hn => mem_steps.mpr (hcol.present n hn)
    have hlive : ∀ n ∈ nodes, s.Live n ∧ s.locator.graphs[n]? = some graph := by
      intro n hn
      obtain ⟨ps, hps⟩ := hcol.present n hn
      obtain ⟨hl, -, hg⟩ := h.steps graph n ps hps
      exact ⟨hl, hg⟩
    refine @Merged.shrink _ _ _ _ h nodes rfl rfl ?_ ?_ ?_ (fun _ _ => rfl) ?_ (fun _ _ => rfl) ?_ ?_
    · intro n
      simp only [Live, Finset.mem_union, List.mem_toFinset]
      tauto
    · intro n hn
      simp only [Finset.mem_union, List.mem_toFinset]
      tauto
    · intro n hn
      simp only [Finset.mem_union, List.mem_toFinset] at hn
      rcases hn with (hn | hn) | hn
      · exact h.gone n (.inl hn)
      · exact (hlive n hn).1.1
      · exact h.gone n (.inr hn)
    · exact fun g => @erase_steps (s.moveTo t (.cleaning graph nodes)) graph g nodes
        { s.heap graph with owner := some t, steps := eraseAll (s.heap graph).steps nodes } rfl
        fun hg n hn => h.other_graph (hin n hn) hg
    · -- a live parent of a consumed node was in the graph too, and was consumed with it
      intro n hn hnot p hp hpl
      simp only [Finset.mem_union, List.mem_toFinset] at hn
      have hn := hn.resolve_left hnot
      simp only [Live, Finset.mem_union, List.mem_toFinset, not_or] at hpl
      have hpl' : s.Live p.id := ⟨hpl.1, hpl.2.1.1, hpl.2.2⟩
      obtain ⟨ps, hps⟩ := hcol.present n hn
      have hparents := (h.steps graph n ps hps).2.1
      rcases hcol.closed n hn p.id ⟨ps, hps, List.mem_map_of_mem (hparents ▸ hp)⟩ with hmem | hmissing
      · exact hpl.2.1.2 hmem
      · obtain ⟨g, hg, hstep⟩ := h.live p.id hpl'
        rw [h.kin n (hlive n hn).1 p hp hpl', (hlive n hn).2] at hg
        cases hg
        rw [hmissing] at hstep
        cases hstep
    · refine .of_letGo ?_ rfl (by simp [Pc.InState])
      intro n hn
      simp only [Finset.mem_union, List.mem_toFinset]
      exact .inl (.inr hn)

theorem Merged.free (h : Merged s) {graph : GraphId} {nodes : List Nat} {l : GraphLocator}
    (hnodes : s.Freeable graph nodes)
    (hl : ∀ n : Nat, n ∈ s.history.returned → n ∉ s.history.consumed → n ∉ s.history.freed → n ∉ nodes →
      l.graphs[n]? = s.locator.graphs[n]?)
    (hsel : ∀ n u ps g, u ≠ t → s.threads u = .selected n ps g → l.graphs[n]? = s.locator.graphs[n]?)
    (hgo : ∀ n ∈ pc.letGo, n ∈ s.history.consumed ∨ n ∈ s.history.freed ∨ n ∈ nodes) (hpending : pc.pending = none)
    (hin : ¬pc.InState) : Merged { (s.free graph nodes).moveTo t pc with locator := l } := by
  have hret : ∀ n ∈ nodes, n ∈ s.history.returned := by
    intro n hn
    rcases hnodes n hn with hmem | hgone
    · obtain ⟨ps, hps⟩ := mem_steps.mp hmem
      exact (h.steps graph n ps hps).1.1
    · exact h.gone n hgone
  refine @Merged.shrink _ _ _ _ h nodes rfl rfl ?_ ?_ ?_ (fun _ _ => rfl) ?_ ?_ (fun n hn hnot => absurd hn hnot) ?_
  · intro n
    simp only [Live, Sys.free, setGraph, Sys.moveTo, Finset.mem_union, List.mem_toFinset]
    tauto
  · intro n hn
    simp only [Sys.free, setGraph, Sys.moveTo, Finset.mem_union, List.mem_toFinset]
    tauto
  · intro n hn
    simp only [Sys.free, setGraph, Sys.moveTo, Finset.mem_union, List.mem_toFinset] at hn
    rcases hn with hn | hn | hn
    · exact h.gone n (.inl hn)
    · exact h.gone n (.inr hn)
    · exact hret n hn
  · refine fun g => @erase_steps s graph g nodes
      { s.heap graph with owner := none, steps := eraseAll (s.heap graph).steps nodes } rfl fun hg n hn => ?_
    rcases hnodes n hn with hmem | hgone
    · exact h.other_graph hmem hg
    · by_contra hne
      obtain ⟨ps, hps⟩ := Option.ne_none_iff_exists'.mp hne
      obtain ⟨-, hcons, hfreed⟩ := (h.steps g n ps hps).1
      exact hgone.elim hcons hfreed
  · rintro n (hlive | ⟨u, ps, g, hu, hs⟩)
    · simp only [Live, Sys.free, setGraph, Sys.moveTo, Finset.mem_union, List.mem_toFinset, not_or] at hlive
      exact hl n hlive.1 hlive.2.1 hlive.2.2.1 hlive.2.2.2
    · exact hsel n u ps g hu hs
  · refine .of_letGo (fun n hn => ?_) hpending hin
    simp only [Sys.free, setGraph, Sys.moveTo, Finset.mem_union, List.mem_toFinset]
    have := hgo n hn
    tauto

theorem Merged.cleanup (h : Merged s) (hc : Calls s) {graph : GraphId} {consumed nodes : List Nat}
    (hpc : s.threads t = .cleaning graph consumed) (hnodes : s.Freeable graph nodes) :
    Merged (s.cleanup t graph consumed nodes) := by
  have hgo : ∀ n ∈ consumed, n ∈ s.history.consumed ∨ n ∈ s.history.freed := by
    intro n hn
    exact (h.threads t).letGo n (by rw [hpc]; exact hn)
  refine h.free hnodes ?_ ?_ (by simp [Pc.letGo]) rfl (by simp [Pc.InState])
  · intro n hret hcons hfreed hn
    rw [GraphLocator.removeEntries_graphs, if_neg]
    rw [List.mem_append]
    rintro (hmem | hmem)
    · exact hn hmem
    · exact (hgo n hmem).elim hcons hfreed
  · -- a node that is still registered is neither consumed nor freed
    intro n u ps g hu hsel
    have hnot := (hc.known u n ps (by rw [hsel]; rfl)).2
    rw [GraphLocator.removeEntries_graphs, if_neg]
    rw [List.mem_append]
    rintro (hmem | hmem)
    · rcases hnodes n hmem with hin | hgone
      · obtain ⟨qs, hqs⟩ := mem_steps.mp hin
        exact hnot (h.steps graph n qs hqs).1.1
      · exact hnot (h.gone n hgone)
    · exact hnot (h.gone n (hgo n hmem))

theorem Merged.tryFree (h : Merged s) {graph : GraphId} {graphs : List GraphId} {removed nodes : List Nat}
    (hpc : s.threads t = .trying (graph :: graphs) removed) (hnodes : s.Freeable graph nodes) :
    Merged ((s.free graph nodes).moveTo t (.trying graphs (removed ++ nodes))) := by
  refine h.free hnodes (fun _ _ _ _ _ => rfl) (fun _ _ _ _ _ _ => rfl) ?_ rfl (by simp [Pc.InState])
  intro n hn
  rcases List.mem_append.mp hn with hn | hn
  · exact ((h.threads t).letGo n (by rw [hpc]; exact hn)).imp_right .inl
  · exact .inr (.inr hn)

theorem Merged.drop (h : Merged s) (hc : Calls s) {removed : List Nat} (hpc : s.threads t = .dropping removed) :
    Merged { s.moveTo t .idle with locator := s.locator.removeEntries s.heap removed } := by
  have hgo : ∀ n ∈ removed, n ∈ s.history.consumed ∨ n ∈ s.history.freed := by
    intro n hn
    exact (h.threads t).letGo n (by rw [hpc]; exact hn)
  refine h.stay rfl rfl rfl rfl (fun _ _ => rfl) (fun _ _ => rfl) ?_
    (.of_letGo (by simp [Pc.letGo]) rfl (by simp [Pc.InState]))
  intro n hn
  refine (GraphLocator.removeEntries_graphs _ _).trans (if_neg fun hmem => ?_)
  rcases hn with hlive | ⟨u, ps, g, hu, hsel⟩
  · exact (hgo n hmem).elim hlive.2.1 hlive.2.2
  · exact (hc.known u n ps (by rw [hsel]; rfl)).2 (h.gone n (hgo n hmem))

theorem Merged.register (h : Merged s) (hc : Calls s) {node : Nat} {parents : List Parent} {graph : GraphId}
    (hpc : s.threads t = .selected node parents graph) : Merged (s.register t node parents graph) := by
  have hreg : (s.threads t).registers = some (node, parents) := by
    rw [hpc]
    rfl
  obtain ⟨hparents, hnot⟩ := hc.known t node parents hreg
  obtain ⟨hmapped, hkin⟩ := (h.threads t).selected node parents graph hpc
  have hof : s.parentsOf node = parents := by simp [parentsOf, hparents]
  have hlive : ∀ n, (s.register t node parents graph).Live n ↔ s.Live n ∨ n = node := by
    intro n
    simp only [Live, Sys.register, Finset.mem_insert]
    constructor
    · rintro ⟨rfl | hret, hcons, hfreed⟩
      · exact .inr rfl
      · exact .inl ⟨hret, hcons, hfreed⟩
    · rintro (⟨hret, hcons, hfreed⟩ | rfl)
      · exact ⟨.inr hret, hcons, hfreed⟩
      · exact ⟨.inl rfl, fun hm => hnot (h.gone n (.inl hm)), fun hm => hnot (h.gone n (.inr hm))⟩
  -- parents are returned before, so the new node is no parent
  have hold : ∀ (n : Nat) (ps : List Parent), s.history.parents[n]? = some ps → ∀ p ∈ ps,
      (s.register t node parents graph).Live p.id → s.Live p.id := by
    intro n ps hn p hp hl
    rcases (hlive p.id).mp hl with hl | he
    · exact hl
    · exact absurd (he ▸ hc.parents n ps hn p hp) hnot
  have hparent : ∀ n, ∀ p ∈ s.parentsOf n, (s.register t node parents graph).Live p.id → s.Live p.id := by
    intro n p hp hl
    unfold parentsOf at hp
    cases hn : s.history.parents[n]? with
    | none => simp [hn] at hp
    | some ps => exact hold n ps hn p (by simpa [hn] using hp) hl
  have hsteps : ∀ g (n : Nat), ((s.register t node parents graph).heap g).steps[n]? =
      if g = graph ∧ n = node then some parents else (s.heap g).steps[n]? := by
    intro g n
    by_cases hg : g = graph
    · subst hg
      simp only [Sys.register, setGraph, Function.update_self, BTreeMap.get_insert, true_and]
    · simp [Sys.register, setGraph, Sys.moveTo, hg]
  refine ⟨fun n hn => Finset.mem_insert_of_mem (h.gone n hn), ?_, ?_, ?_, ?_, ?_⟩
  · intro g n ps hn
    rw [hsteps] at hn
    split at hn
    · next hand =>
      obtain ⟨rfl, rfl⟩ := hand
      cases hn
      exact ⟨(hlive n).mpr (.inr rfl), hof.symm, hmapped⟩
    · obtain ⟨hl, hps, hg⟩ := h.steps g n ps hn
      exact ⟨(hlive n).mpr (.inl hl), hps, hg⟩
  · intro n hl
    rcases (hlive n).mp hl with hln | rfl
    · obtain ⟨g, hg, hn⟩ := h.live n hln
      have hne : n ≠ node := by
        rintro rfl
        exact hnot hln.1
      exact ⟨g, hg, by rw [hsteps, if_neg fun hand => hne hand.2]; exact hn⟩
    · refine ⟨graph, hmapped, ?_⟩
      rw [hsteps, if_pos ⟨rfl, rfl⟩]
      exact congrArg some hof.symm
  · intro n hl p hp hpl
    have hpl' := hparent n p hp hpl
    rcases (hlive n).mp hl with hl | rfl
    · exact h.kin n hl p hp hpl'
    · exact (hkin p (hof ▸ hp) hpl').trans hmapped.symm
  · exact fun n hn p hp hpl => h.consumed n hn p hp (hparent n p hp hpl)
  · intro u
    by_cases hu : u = t
    · subst hu
      have hidle : (s.register u node parents graph).threads u = .idle := by simp [Sys.register, setGraph, Sys.moveTo]
      rw [hidle]
      exact .of_letGo (by simp [Pc.letGo]) rfl (by simp [Pc.InState])
    · have hsame : (s.register t node parents graph).threads u = s.threads u := by
        simp [Sys.register, setGraph, Sys.moveTo, hu]
      rw [hsame]
      refine (h.threads u).mono (fun _ => id) ?_ (fun _ _ _ _ => id)
      rintro n (hroot | ⟨m, ps, hm, hn⟩) hl
      · refine ((hlive n).mp hl).resolve_right ?_
        rintro rfl
        exact (hc.roots u n hroot).2 t parents hreg
      · obtain ⟨p, hp, rfl⟩ := List.mem_map.mp hn
        exact hold m ps (hc.known u m ps hm).1 p hp hl

theorem get_emptied {main graph g : GraphId} (n : Nat) :
    (s.emptied main graph g).steps[n]? =
      if g = main then ((s.heap graph).steps[n]?).or ((s.heap main).steps[n]?)
      else if g = graph then none else (s.heap g).steps[n]? := by
  unfold emptied
  by_cases hm : g = main
  · subst hm
    simp [Std.ExtTreeMap.getElem?_union]
  · by_cases hg : g = graph
    · subst hg
      simp [hm]
    · simp [hm, hg]

theorem Merged.mergeTwo (h : Merged s) (hl : Locks s) (hok : Careful s t) {node : Nat} {parents : List Parent}
    {main graph : GraphId} {rest : List GraphId} (hpc : s.threads t = .absorbing node parents main (graph :: rest)) :
    Merged (s.mergeTwo t node parents main graph rest) := by
  have hdistinct := hl.distinct t
  rw [hpc] at hdistinct
  have hne : graph ≠ main := fun he => (List.nodup_cons.mp hdistinct).1 (by simp [he])
  simp only [Careful, hpc] at hok
  obtain ⟨hpending, hmoves⟩ := hok
  -- an entry moves exactly when it was to the graph that is emptied
  have hgraphs : ∀ n : Nat, s.Tracked n → ∀ g, s.locator.graphs[n]? = some g →
      (s.locator.remap s.heap main graph).graphs[n]? = some (if g = graph then main else g) := by
    intro n hn g hg
    obtain ⟨hto, hfrom⟩ := hmoves n hn
    rw [GraphLocator.remap_graphs]
    by_cases hgg : g = graph
    · subst hgg
      rw [if_pos (hto hg), if_pos rfl]
    · rw [if_neg hgg]
      split
      · next hmoved =>
        rcases hfrom hmoved with he | he
        · rw [hg] at he
          exact absurd (Option.some.inj he) hgg
        · rw [← he, hg]
      · exact hg
  refine ⟨h.gone, ?_, ?_, ?_, h.consumed, ?_⟩
  · intro g n ps hn
    have hn : (s.emptied main graph g).steps[n]? = some ps := hn
    rw [get_emptied] at hn
    have hcase : ∃ g', (s.heap g').steps[n]? = some ps ∧ (if g' = graph then main else g') = g := by
      by_cases hm : g = main
      · rw [if_pos hm, Option.or_eq_some_iff] at hn
        rcases hn with hn | ⟨-, hn⟩
        · exact ⟨graph, hn, by rw [if_pos rfl, hm]⟩
        · exact ⟨main, hn, by rw [if_neg hne.symm, hm]⟩
      · rw [if_neg hm] at hn
        split at hn
        · cases hn
        · next hg => exact ⟨g, hn, if_neg hg⟩
    obtain ⟨g', hg', rfl⟩ := hcase
    obtain ⟨hlive, hps, hmapped⟩ := h.steps g' n ps hg'
    exact ⟨hlive, hps, hgraphs n (.inl hlive) g' hmapped⟩
  · intro n hlive
    obtain ⟨g, hg, hn⟩ := h.live n hlive
    refine ⟨_, hgraphs n (.inl hlive) g hg, ?_⟩
    show (s.emptied main graph _).steps[n]? = _
    rw [get_emptied]
    by_cases hgg : g = graph
    · subst hgg
      rw [if_pos rfl, if_pos rfl, hn]
      rfl
    · rw [if_neg hgg]
      by_cases hm : g = main
      · -- the other graph does not have the node
        have hnone := h.other_graph (mem_steps.mpr ⟨_, hn⟩) (Ne.symm hgg)
        rw [if_pos hm, hnone, Option.none_or, ← hm]
        exact hn
      · rw [if_neg hm, if_neg hgg]
        exact hn
  · intro n hlive p hp hpl
    obtain ⟨g, hg, -⟩ := h.live n hlive
    have hgp := (h.kin n hlive p hp hpl).trans hg
    exact (hgraphs p.id (.inl hpl) g hgp).trans (hgraphs n (.inl hlive) g hg).symm
  · intro u
    by_cases hu : u = t
    · subst hu
      have hthread : (s.mergeTwo u node parents main graph rest).threads u = .absorbing node parents main rest := by
        simp [Sys.mergeTwo, Sys.moveTo]
      rw [hthread]
      refine ⟨by simp [Pc.letGo], by simp, by simp, ?_⟩
      rintro n ps hreg - p hp hlive
      cases hreg
      have hmerging := (h.threads u).merging node parents (by rw [hpc]; rfl) (by rw [hpc]; trivial) p hp hlive
      rw [hpc] at hmerging
      obtain ⟨g, hg, hgp⟩ := hmerging
      refine ⟨_, ?_, hgraphs p.id (.inl hlive) g hgp⟩
      simp only [Pc.merges, List.mem_cons] at hg ⊢
      by_cases hgg : g = graph
      · simp [hgg]
      · rw [if_neg hgg]
        tauto
    · have hsame : (s.mergeTwo t node parents main graph rest).threads u = s.threads u := by
        simp [Sys.mergeTwo, Sys.moveTo, hu]
      rw [hsame]
      refine (h.threads u).mono (fun _ => id) (fun _ _ => id) ?_
      rintro n g hwhich hn hg
      have htracked : s.Tracked n := hn.imp id (.intro u <| ·.imp fun _ => .intro g)
      have hnot : g ≠ graph := by
        rintro rfl
        rcases hwhich with hmem | hpend
        · -- only one thread merges
          refine hu (hl.inState_unique (?_ : (s.threads u).InState) (by rw [hpc]; trivial))
          cases hp : s.threads u <;> simp_all [Pc.merges, Pc.InState]
        · exact hpending u hpend
      have hto := hgraphs n htracked g hg
      rwa [if_neg hnot] at hto

theorem Merged.step (h : Merged s) (hc : Calls s) (hl : Locks s) (hok : Careful s t) (hs : Moves s t s') : Merged s' := by
  have hparents : ∀ {m : Nat} {ps : List Parent}, m ∉ s.history.parents → ∀ n ∈ s.history.returned,
      (s.history.parents.insert m ps)[n]?.getD [] = s.parentsOf n := by
    intro m ps hm n hn
    have hne : n ≠ m := by
      rintro rfl
      exact hm (hc.returned n hn)
    simp [parentsOf, hne]
  cases hs with
  | call hpc hnew | untracked hpc hnew =>
    exact h.stay rfl rfl rfl rfl (hparents hnew) (fun _ _ => rfl) (fun _ _ => rfl)
      (.of_letGo (by simp [Pc.letGo]) rfl (by simp [Pc.InState]))
  | root hpc hret => exact h.moveTo (.of_letGo (by simp [Pc.letGo]) rfl (by simp [Pc.InState]))
  | keep hpc hfree hg => exact h.keep hc hl hok hpc hg
  | new hpc hfree hg => exact h.new hl hpc hg
  | collide hpc hfree hg hperm => exact h.collide hok hpc hg hperm
  | lockMain hpc => exact h.lockMain hpc
  | mergeTwo hpc => exact h.mergeTwo hl hok hpc
  | endMerge hpc => exact h.endMerge hc hok hpc
  | register hpc => exact h.register hc hpc
  | backward hpc => exact h.backward
  | cleanup hpc hfree hnodes => exact h.cleanup hc hpc hnodes
  | tryFree hpc hfree hnodes => exact h.tryFree hpc hnodes
  | sweep hpc => exact h.moveTo (.of_letGo (by simp [Pc.letGo]) rfl (by simp [Pc.InState]))
  | skip hpc =>
    refine h.moveTo (.of_letGo (fun n hn => ?_) rfl (by simp [Pc.InState]))
    exact (h.threads t).letGo n (by rw [hpc]; exact hn)
  | tried hpc hcase =>
    rcases hcase with rfl | rfl
    · exact h.moveTo (.of_letGo (by simp [Pc.letGo]) rfl (by simp [Pc.InState]))
    · refine h.moveTo (.of_letGo (fun n hn => ?_) rfl (by simp [Pc.InState]))
      exact (h.threads t).letGo n (by rw [hpc]; exact hn)
  | drop hpc => exact h.drop hc hpc

-- Nothing is lost

theorem Merged.above (h : Merged s) (hc : Calls s) {n a : Nat} (hn : s.Live n) (ha : s.Above n a) (hl : s.Live a) :
    s.locator.graphs[a]? = s.locator.graphs[n]? := by
  -- ancestors of a consumed node are not live, so every node on the way is
  have hway : ∀ a, s.Above n a → (s.Live a ∧ s.locator.graphs[a]? = s.locator.graphs[n]?) ∨
      (a ∈ s.history.consumed ∨ a ∈ s.history.freed) := by
    intro a ha
    induction ha with
    | refl => exact .inl ⟨hn, rfl⟩
    | @tail b c _ hstep ih =>
      obtain ⟨hfreed, hc'⟩ := hstep
      obtain ⟨p, hp, rfl⟩ := List.mem_map.mp hc'
      by_cases hpl : s.Live p.id
      · rcases ih with ⟨hb, hgb⟩ | hgone
        · exact .inl ⟨hpl, (h.kin b hb p hp hpl).trans hgb⟩
        · exact absurd hpl (h.consumed b (hgone.resolve_right hfreed) p hp)
      · refine .inr ?_
        have hret : p.id ∈ s.history.returned := by
          unfold parentsOf at hp
          cases hps : s.history.parents[b]? with
          | none => simp [hps] at hp
          | some ps => exact hc.parents b ps hps p (by simpa [hps] using hp)
        unfold Live at hpl
        tauto
  rcases hway a ha with ⟨-, hg⟩ | hgone
  · exact hg
  · exact absurd hl fun hla => hgone.elim hla.2.1 hla.2.2

theorem Merged.kept (h : Merged s) (hc : Calls s) : Kept s := by
  intro n hn
  obtain ⟨g, hg, -⟩ := h.live n hn
  refine ⟨g, hg, fun a ha hl => ?_⟩
  obtain ⟨g', hg', hstep⟩ := h.live a hl
  have hsame := h.above hc hn ha hl
  rw [hg, hg'] at hsame
  rwa [← Option.some.inj hsame]

theorem Merged.above_of_path (h : Merged s) {g : GraphId} {root n : Nat}
    (hpath : Relation.ReflTransGen (StepParent (s.heap g).steps) root n) : s.Above root n := by
  refine Relation.ReflTransGen.mono ?_ _ _ hpath
  rintro x y ⟨ps, hps, hy⟩
  obtain ⟨hl, rfl, -⟩ := h.steps g x ps hps
  exact ⟨hl.2.2, hy⟩

theorem Merged.honest (h : Merged s) : Honest s := by
  intro t root g hpc m hm
  obtain ⟨habsent, hneeded⟩ := collectSteps_error hm
  rcases hneeded with rfl | ⟨n, ps, p, hpath, hps, hp, rfl, -⟩
  · refine ⟨.refl, fun hl => ?_⟩
    obtain ⟨g', hg', hstep⟩ := h.live m hl
    rw [(h.threads t).chosen m g hpc hl] at hg'
    cases hg'
    rw [habsent] at hstep
    cases hstep
  · obtain ⟨hln, rfl, hgn⟩ := h.steps g n ps hps
    refine ⟨(h.above_of_path hpath).tail ⟨hln.2.2, List.mem_map_of_mem hp⟩, fun hl => ?_⟩
    obtain ⟨g', hg', hstep⟩ := h.live p.id hl
    rw [h.kin n hln p hp hl, hgn] at hg'
    cases hg'
    rw [habsent] at hstep
    cases hstep

/-- In a run whose merges are careful, the graph of every registered node that was neither consumed nor
freed has its step and those of its ancestors, and a backward never takes such a tape for consumed. -/
theorem careful_keeps (h : Run Careful Sys.initial s) : Kept s ∧ Honest s := by
  have hinv : Merged s ∧ Calls s ∧ Locks s := by
    refine h.inv (P := fun s => Merged s ∧ Calls s ∧ Locks s) ⟨.initial, .initial, .initial⟩ ?_
    rintro s t s' ⟨hm, hc, hl⟩ hok hs
    exact ⟨hm.step hc hl hok hs, hc.step hs, hl.step hs⟩
  exact ⟨hinv.1.kept hinv.2.1, hinv.1.honest⟩

-- Two runs of one thread

/-- `Careful`, when no other thread is in a call. -/
def CarefulAlone (s : Sys) (t : Nat) : Prop :=
  t = 0 ∧
    match s.threads t with
    | .registering node parents =>
      ∀ p ∈ parents, s.Live p.id → ∃ g ∈ (s.locator.analyse s.heap node parents).graphs, s.locator.graphs[p.id]? = some g
    | .absorbing _ _ main (graph :: _) => ∀ n ∈ s.history.returned, s.Live n → s.MovesWith main graph n
    | .absorbing _ _ main [] => s.Live (s.heap main).origin → s.locator.graphs[(s.heap main).origin]? = some main
    | _ => True

instance (s : Sys) (t : Nat) : Decidable (CarefulAlone s t) := by
  unfold CarefulAlone
  generalize s.threads t = pc
  rcases pc with _ | _ | _ | ⟨_, _, _, _ | _⟩ | _ | _ | _ | _ | _ | _ | _ <;> dsimp only <;> infer_instance

theorem tracked_of_alone (hidle : ∀ u, u ≠ 0 → s.threads u = .idle) (hpc : ∀ n ps g, s.threads 0 ≠ .selected n ps g)
    {n : Nat} (h : s.Tracked n) : s.Live n := by
  refine h.resolve_right ?_
  rintro ⟨u, ps, g, hu⟩
  by_cases h0 : u = 0
  · exact hpc n ps g (h0 ▸ hu)
  · rw [hidle u h0] at hu
    cases hu

theorem careful_of_alone (hidle : ∀ u, u ≠ 0 → s.threads u = .idle) (h : CarefulAlone s t) : Careful s t := by
  obtain ⟨rfl, h⟩ := h
  unfold Careful
  cases hpc : s.threads 0 with
  | registering node parents =>
    rw [hpc] at h
    exact h
  | absorbing node parents main rest =>
    have htracked : ∀ {n}, s.Tracked n → s.Live n := tracked_of_alone hidle (by simp [hpc])
    rw [hpc] at h
    cases rest with
    | nil => exact fun hn => h (htracked hn)
    | cons graph rest =>
      refine ⟨fun u hu => ?_, fun n hn => h n (htracked hn).1 (htracked hn)⟩
      by_cases h0 : u = 0
      · rw [h0, hpc] at hu
        cases hu
      · rw [hidle u h0] at hu
        cases hu
  | _ => trivial

theorem run_of_alone {s₀ : Sys} (h : Run CarefulAlone s₀ s) (hidle : ∀ u, u ≠ 0 → s₀.threads u = .idle) :
    Run Careful s₀ s := by
  refine h.imp (P := fun s => ∀ u, u ≠ 0 → s.threads u = .idle) hidle ?_ fun s t hi hok => careful_of_alone hi hok
  rintro s t s' hi ⟨rfl, -⟩ hs u hu
  exact (hs.others hu).trans (hi u hu)

/-- The graphs of two nodes are merged for a node on both of them. -/
def mergeOf (n : Nat) (parents : List Parent) (order : List GraphId) : List (Nat × Action) :=
  [(0, .register n parents), (0, .go order), (0, .go []), (0, .go []), (0, .go []), (0, .go [])]

def oneMerge : List (Nat × Action) :=
  registerAll 0 1 [] ++ registerAll 0 2 [] ++ mergeOf 3 [⟨1, true⟩, ⟨2, true⟩] [0, 1]

/-- The second merge empties the graph of node 1, which node 2 was merged into. -/
def twoMerges : List (Nat × Action) :=
  oneMerge ++ registerAll 0 4 [] ++ mergeOf 5 [⟨3, false⟩, ⟨4, true⟩] [2, 0]

theorem careful_keeps_one : ∃ s ∈ after oneMerge Sys.initial, s.Live 3 ∧ Kept s ∧ Honest s := by
  have h : ∃ s ∈ after oneMerge Sys.initial, s.Live 3 := by decide +kernel
  obtain ⟨s, hs, hlive⟩ := h
  exact ⟨s, hs, hlive, careful_keeps (run_of_alone (Run.of_after (by decide +kernel) hs) fun _ _ => rfl)⟩

/-- A thread has selected the graph of node 1 when another thread empties it. -/
def staleHandle : List (Nat × Action) :=
  registerAll 0 1 [] ++ registerAll 0 2 [] ++ [(1, .register 3 [⟨1, true⟩]), (1, .go [])] ++
    mergeOf 4 [⟨1, true⟩, ⟨2, true⟩] [1, 0] ++ [(1, .go [])]

theorem not_kept {n : Nat} {g : GraphId} (hlive : s.Live n) (hgraph : s.locator.graphs[n]? = some g)
    (hstep : (s.heap g).steps[n]? = none) : ¬Kept s := by
  intro hkept
  obtain ⟨g', hg', hall⟩ := hkept n hlive
  rw [hgraph] at hg'
  cases hg'
  have hn := hall n .refl hlive
  rw [hstep] at hn
  cases hn

/-- After two merges node 2 is still mapped to the graph that its step was moved out of first; and a
step that is registered through a stale handle is in a graph that its node is not mapped to. -/
theorem merges_lose :
    (∃ s, Run (fun _ t => t = 0) Sys.initial s ∧ ¬Kept s) ∧ ∃ s, Run (fun _ _ => True) Sys.initial s ∧ ¬Kept s := by
  constructor
  · have h : ∃ s ∈ after twoMerges Sys.initial,
        s.Live 2 ∧ s.locator.graphs[2]? = some 0 ∧ (s.heap 0).steps[2]? = none := by decide +kernel
    obtain ⟨s, hs, hlive, hgraph, hstep⟩ := h
    exact ⟨s, Run.of_after (by decide +kernel) hs, not_kept hlive hgraph hstep⟩
  · have h : ∃ s ∈ after staleHandle Sys.initial,
        s.Live 3 ∧ s.locator.graphs[3]? = some 1 ∧ (s.heap 1).steps[3]? = none := by decide +kernel
    obtain ⟨s, hs, hlive, hgraph, hstep⟩ := h
    exact ⟨s, Run.of_after (by decide +kernel) hs, not_kept hlive hgraph hstep⟩

end Sys

end Ruda.Autodiff
