import Ruda.Autodiff.Threads

/-!
# When locking never deadlocks

Who holds which lock is told by where the threads are. A merge holds `STATE` while it waits for
graphs, and a backward holds its graph while it waits for `STATE`: as long as these two never
meet at one graph, whoever is waited for stands lower in the order selected or chosen, waiting
for `STATE`, merging.
-/

namespace Ruda.Autodiff

/-- The graphs that a merge still has to lock. -/
def Pc.toMerge : Pc → List GraphId
  | merging _ _ main rest => main :: rest
  | absorbing _ _ _ rest => rest
  | _ => []

def Pc.merges : Pc → List GraphId
  | merging _ _ main rest | absorbing _ _ main rest => main :: rest
  | _ => []

def Pc.InState : Pc → Prop
  | merging .. | absorbing .. => True
  | _ => False

def Pc.Holds (g : GraphId) : Pc → Prop
  | absorbing _ _ main _ => g = main
  | cleaning graph _ => g = graph
  | _ => False

def Pc.handles : Pc → List GraphId
  | merging _ _ main rest | absorbing _ _ main rest => main :: rest
  | selected _ _ graph | chosen _ graph | cleaning graph _ => [graph]
  | trying graphs _ => graphs
  | _ => []

namespace Sys

variable {s s' : Sys} {t : Nat} {pc : Pc}

/-- Every handle is of a graph that was made, and the locks are held by the threads that are at
places where they hold them. -/
structure Locks (s : Sys) : Prop where
  known : ∀ (n : Nat) (g : GraphId), s.locator.graphs[n]? = some g → g < s.fresh
  handles : ∀ t, ∀ g ∈ (s.threads t).handles, g < s.fresh
  state : ∀ t, s.state = some t ↔ (s.threads t).InState
  graph : ∀ g t, (s.heap g).owner = some t ↔ (s.threads t).Holds g
  distinct : ∀ t, (s.threads t).merges.Nodup

theorem Locks.initial : Locks Sys.initial where
  known := by simp [Sys.initial]
  handles := by simp [Sys.initial, Pc.handles]
  state := by simp [Sys.initial, Pc.InState]
  graph := by simp [Sys.initial, Pc.Holds]
  distinct := by simp [Sys.initial, Pc.merges]

theorem Locks.move (h : Locks s) (hthreads : s'.threads = Function.update s.threads t pc) (hfresh : s.fresh ≤ s'.fresh)
    (hknown : ∀ (n : Nat) (g : GraphId), s'.locator.graphs[n]? = some g → g < s'.fresh) (hhandles : ∀ g ∈ pc.handles, g < s'.fresh)
    (hstate : s'.state = some t ↔ pc.InState) (hstate' : ∀ u, u ≠ t → (s'.state = some u ↔ s.state = some u))
    (hgraph : ∀ g, (s'.heap g).owner = some t ↔ pc.Holds g)
    (hgraph' : ∀ g u, u ≠ t → ((s'.heap g).owner = some u ↔ (s.heap g).owner = some u))
    (hdistinct : pc.merges.Nodup) : Locks s' := by
  refine ⟨hknown, fun u g hg => ?_, fun u => ?_, fun g u => ?_, fun u => ?_⟩
  all_goals
    by_cases hu : u = t
    · subst hu
      simp_all
  · rw [hthreads, Function.update_of_ne hu] at hg
    exact (h.handles u g hg).trans_le hfresh
  · rw [hthreads, Function.update_of_ne hu, hstate' u hu]
    exact h.state u
  · rw [hthreads, Function.update_of_ne hu, hgraph' g u hu]
    exact h.graph g u
  · rw [hthreads, Function.update_of_ne hu]
    exact h.distinct u

theorem Locks.stay (h : Locks s) (hthreads : s'.threads = Function.update s.threads t pc) (hfresh : s'.fresh = s.fresh)
    (hknown : ∀ (n : Nat) (g : GraphId), s'.locator.graphs[n]? = some g → g < s.fresh) (hhandles : ∀ g ∈ pc.handles, g < s.fresh)
    (hstate : s'.state = s.state) (hgraph : ∀ g, (s'.heap g).owner = (s.heap g).owner)
    (hin : pc.InState ↔ (s.threads t).InState) (hholds : ∀ g, pc.Holds g ↔ (s.threads t).Holds g)
    (hdistinct : pc.merges.Nodup) : Locks s' := by
  refine h.move hthreads hfresh.ge (hfresh ▸ hknown) (hfresh ▸ hhandles) ?_ ?_ ?_ ?_ hdistinct
  · rw [hstate, hin]
    exact h.state t
  · intro u _
    rw [hstate]
  · intro g
    rw [hgraph, hholds]
    exact h.graph g t
  · intro g u _
    rw [hgraph]

theorem Locks.removeEntries (h : Locks s) (nodes : List Nat) :
    ∀ (n : Nat) (g : GraphId), (s.locator.removeEntries s.heap nodes).graphs[n]? = some g → g < s.fresh := by
  intro n g hg
  rw [GraphLocator.removeEntries_graphs] at hg
  split at hg
  · cases hg
  · exact h.known n g hg

theorem Selects.not_locking {node : Nat} {parents : List Parent} {next : GraphId → Pc} (h : Selects pc node parents next)
    (graph : GraphId) :
    ((next graph).InState ↔ pc.InState) ∧ (∀ g, (next graph).Holds g ↔ pc.Holds g) ∧
      (next graph).handles = [graph] ∧ (next graph).merges = [] ∧ (next graph).toMerge = [] := by
  cases h <;> simp [Pc.InState, Pc.Holds, Pc.handles, Pc.merges, Pc.toMerge]

theorem Locks.inState_unique (h : Locks s) {t u : Nat} (ht : (s.threads t).InState) (hu : (s.threads u).InState) :
    t = u := by
  rw [← h.state] at ht hu
  rw [ht] at hu
  exact Option.some.inj hu

theorem Locks.step (h : Locks s) (hs : Moves s t s') : Locks s' := by
  cases hs with
  | call hpc | untracked hpc =>
    exact h.stay rfl rfl h.known (by simp [Pc.handles]) rfl (fun _ => rfl) (by simp [hpc, Pc.InState])
      (by simp [hpc, Pc.Holds]) (by simp [Pc.merges])
  | root hpc | skip hpc =>
    refine h.stay rfl rfl h.known ?_ rfl (fun _ => rfl) (by simp [hpc, Pc.InState]) (by simp [hpc, Pc.Holds])
      (by simp [Pc.merges])
    intro g hg
    exact h.handles t g (by rw [hpc]; simp_all [Pc.handles])
  | tried hpc hcase =>
    rcases hcase with rfl | rfl <;>
      exact h.stay rfl rfl h.known (by simp [Pc.handles]) rfl (fun _ => rfl) (by simp [hpc, Pc.InState])
        (by simp [hpc, Pc.Holds]) (by simp [Pc.merges])
  | @keep node parents next graph hpc hfree hg =>
    obtain ⟨hin, hholds, hhandles, hmerges, -⟩ := hpc.not_locking graph
    obtain ⟨n, -, hn⟩ := GraphLocator.analyse_noCollision hg
    have hknown := h.known n graph hn
    refine h.stay rfl rfl ?_ (by simpa [hhandles] using hknown) rfl (fun _ => rfl) hin hholds (by simp [hmerges])
    intro m g hm
    rw [GraphLocator.keep_graphs] at hm
    split at hm
    · cases hm
      exact hknown
    · exact h.known m g hm
  | @new node parents next hpc hfree hg =>
    obtain ⟨hin, hholds, hhandles, hmerges, -⟩ := hpc.not_locking s.fresh
    -- nobody can hold a graph that is not made yet
    have hnew : ∀ u, (s.heap s.fresh).owner ≠ some u := by
      intro u hu
      rw [h.graph] at hu
      have hmem : s.fresh ∈ (s.threads u).handles := by
        cases hp : s.threads u <;> simp_all [Pc.Holds, Pc.handles]
      exact lt_irrefl _ (h.handles u _ hmem)
    have howner : ∀ g u, ((s.setGraph s.fresh { origin := node, owner := none, steps := ∅ }).heap g).owner = some u ↔
        (s.heap g).owner = some u := by
      intro g u
      by_cases hfr : g = s.fresh
      · subst hfr
        simp [setGraph, hnew u]
      · simp [setGraph, hfr]
    refine h.move rfl (Nat.le_succ _) ?_ ?_ ?_ (fun _ _ => Iff.rfl) ?_ (fun g u _ => howner g u) (by simp [hmerges])
    · intro m g hm
      simp only [GraphLocator.newGraph_graphs] at hm
      split at hm
      · cases hm
        exact Nat.lt_succ_self _
      · exact (h.known m g hm).trans (Nat.lt_succ_self _)
    · simp [hhandles]
    · rw [hin]
      exact h.state t
    · intro g
      rw [hholds, ← h.graph g t]
      exact howner g t
  | @collide node parents main rest graphs hpc hfree hg hperm =>
    have hgraphs := GraphLocator.analyse_collisions hg
    have hnodup : (main :: rest).Nodup := hperm.nodup_iff.mpr (hgraphs ▸ GraphLocator.found_nodup _ _)
    refine h.move rfl le_rfl h.known ?_ (by simp [Pc.InState]) ?_ ?_ (fun _ _ _ => Iff.rfl) hnodup
    · intro g hmem
      obtain ⟨n, -, hn⟩ := GraphLocator.mem_found (hgraphs ▸ hperm.mem_iff.mp hmem)
      exact h.known n g hn
    · intro u hu
      simp [hfree, Ne.symm hu]
    · intro g
      exact (h.graph g t).trans (by simp [hpc, Pc.Holds])
  | @lockMain node parents main rest hpc hfree =>
    refine h.move rfl le_rfl h.known ?_ ?_ (fun _ _ => Iff.rfl) ?_ ?_ ?_
    · intro g hg
      exact h.handles t g (by rw [hpc]; exact hg)
    · exact (h.state t).trans (by simp [hpc, Pc.InState])
    · intro g
      by_cases hgm : g = main
      · subst hgm
        simp [lockMain, setGraph, Pc.Holds]
      · have hown := h.graph g t
        rw [hpc] at hown
        simpa [lockMain, setGraph, moveTo, hgm, Pc.Holds] using hown
    · intro g u hu
      by_cases hgm : g = main
      · subst hgm
        simp [lockMain, setGraph, hfree, Ne.symm hu]
      · simp [lockMain, setGraph, moveTo, hgm]
    · have hd := h.distinct t
      rw [hpc] at hd
      exact hd
  | @mergeTwo node parents main graph rest hpc hfree =>
    have hd := h.distinct t
    rw [hpc] at hd
    have hhand := h.handles t
    rw [hpc] at hhand
    have hne : graph ≠ main := fun he => (List.nodup_cons.mp hd).1 (by simp [he])
    refine h.stay rfl rfl ?_ ?_ rfl ?_ (by simp [hpc, Pc.InState]) (by simp [hpc, Pc.Holds]) ?_
    · intro n g hg
      simp only [mergeTwo, GraphLocator.remap_graphs] at hg
      split at hg
      · cases hg
        exact hhand main (by simp [Pc.handles])
      · exact h.known n g hg
    · intro g hg
      refine hhand g ?_
      simp only [Pc.handles, List.mem_cons] at hg ⊢
      tauto
    · intro g
      by_cases hgm : g = main
      · subst hgm
        simp [mergeTwo, emptied]
      · by_cases hgg : g = graph
        · subst hgg
          simp [mergeTwo, emptied, hgm]
        · simp [mergeTwo, emptied, hgm, hgg]
    · refine List.Nodup.sublist ?_ hd
      exact (List.sublist_cons_self graph rest).cons_cons main
  | @endMerge node parents main hpc =>
    have hhand := h.handles t main (by rw [hpc]; simp [Pc.handles])
    have hstate : s.state = some t := (h.state t).mpr (by rw [hpc]; trivial)
    have howner : (s.heap main).owner = some t := (h.graph main t).mpr (by rw [hpc]; exact rfl)
    refine h.move rfl le_rfl ?_ (by simpa [Pc.handles, endMerge, setGraph, moveTo] using hhand) (by simp [endMerge, Pc.InState]) ?_ ?_ ?_
      (by simp [Pc.merges])
    · intro n g hg
      simp only [endMerge, GraphLocator.join_graphs] at hg
      split at hg
      · cases hg
        exact hhand
      · exact h.known n g hg
    · intro u hu
      simp [endMerge, hstate, Ne.symm hu]
    · intro g
      by_cases hgm : g = main
      · subst hgm
        simp [endMerge, setGraph, Pc.Holds]
      · have hown := h.graph g t
        rw [hpc] at hown
        simpa [endMerge, setGraph, moveTo, hgm, Pc.Holds] using hown
    · intro g u hu
      by_cases hgm : g = main
      · subst hgm
        simp [endMerge, setGraph, howner, Ne.symm hu]
      · simp [endMerge, setGraph, moveTo, hgm]
  | @register node parents graph hpc hfree =>
    refine h.stay rfl rfl h.known (by simp [Pc.handles]) rfl ?_ (by simp [hpc, Pc.InState]) (by simp [hpc, Pc.Holds])
      (by simp [Pc.merges])
    intro g
    by_cases hgg : g = graph
    · subst hgg
      simp [Sys.register, setGraph]
    · simp [Sys.register, setGraph, moveTo, hgg]
  | @backward root graph hpc hfree =>
    unfold Sys.backward
    split
    · exact h.stay rfl rfl h.known (by simp [Pc.handles]) rfl (fun _ => rfl) (by simp [hpc, Pc.InState])
        (by simp [hpc, Pc.Holds]) (by simp [Pc.merges])
    · refine h.move rfl le_rfl h.known ?_ ?_ (fun _ _ => Iff.rfl) ?_ ?_ (by simp [Pc.merges])
      · intro g hg
        exact h.handles t g (by rw [hpc]; exact hg)
      · exact (h.state t).trans (by simp [hpc, Pc.InState])
      · intro g
        by_cases hgg : g = graph
        · subst hgg
          simp [setGraph, Pc.Holds]
        · have hown := h.graph g t
          rw [hpc] at hown
          simpa [setGraph, moveTo, hgg, Pc.Holds] using hown
      · intro g u hu
        by_cases hgg : g = graph
        · subst hgg
          simp [setGraph, hfree, Ne.symm hu]
        · simp [setGraph, moveTo, hgg]
  | @cleanup graph consumed nodes hpc hfree hnodes =>
    have howner : (s.heap graph).owner = some t := (h.graph graph t).mpr (by rw [hpc]; exact rfl)
    refine h.move rfl le_rfl (h.removeEntries _) (by simp [Pc.handles]) ?_ (fun _ _ => Iff.rfl) ?_ ?_
      (by simp [Pc.merges])
    · exact (h.state t).trans (by simp [hpc, Pc.InState])
    · intro g
      by_cases hgg : g = graph
      · subst hgg
        simp [Sys.cleanup, free, setGraph, moveTo, Pc.Holds]
      · have hown := h.graph g t
        rw [hpc] at hown
        simpa [Sys.cleanup, free, setGraph, moveTo, hgg, Pc.Holds] using hown
    · intro g u hu
      by_cases hgg : g = graph
      · subst hgg
        simp [Sys.cleanup, free, setGraph, moveTo, howner, Ne.symm hu]
      · simp [Sys.cleanup, free, setGraph, moveTo, hgg]
  | @sweep graphs hpc hperm =>
    refine h.stay rfl rfl h.known ?_ rfl (fun _ => rfl) (by simp [hpc, Pc.InState]) (by simp [hpc, Pc.Holds])
      (by simp [Pc.merges])
    intro g hg
    obtain ⟨⟨n, g⟩, hmem, rfl⟩ := List.mem_map.mp (hperm.mem_iff.mp hg)
    exact h.known n g ((BTreeMap.mem_toList _ _ _).mp hmem)
  | @tryFree graph graphs removed nodes hpc hfree hnodes =>
    refine h.stay rfl rfl h.known ?_ rfl ?_ (by simp [hpc, Pc.InState]) (by simp [hpc, Pc.Holds]) (by simp [Pc.merges])
    · intro g hg
      exact h.handles t g (by rw [hpc]; exact List.mem_cons_of_mem _ hg)
    · intro g
      by_cases hgg : g = graph
      · subst hgg
        simp [free, setGraph, moveTo, hfree]
      · simp [free, setGraph, moveTo, hgg]
  | drop hpc hfree =>
    exact h.stay rfl rfl (h.removeEntries _) (by simp [Pc.handles]) rfl (fun _ => rfl) (by simp [hpc, Pc.InState])
      (by simp [hpc, Pc.Holds]) (by simp [Pc.merges])

-- The order

/-- The graphs that the merge under way, if there is one, still has to lock. -/
def mergeWaits (s : Sys) : List GraphId :=
  match s.state with
  | some u => (s.threads u).toMerge
  | none => []

/-- A registration begins a merge only when nobody holds one of its graphs, and a backward with a
whole tape enters a graph only when no merge waits for it. -/
def Ordered (s : Sys) (t : Nat) : Prop :=
  match s.threads t with
  | .registering node parents =>
    match s.locator.analyse s.heap node parents with
    | .collisions graphs => ∀ g ∈ graphs, (s.heap g).owner = none
    | _ => True
  | .chosen root graph => (collectSteps root (s.heap graph).steps).toBool = true → graph ∉ s.mergeWaits
  | _ => True

instance (s : Sys) (t : Nat) : Decidable (Ordered s t) := by
  unfold Ordered
  split
  · split <;> infer_instance
  · infer_instance
  · infer_instance

/-- No backward holds a graph that a merge still has to lock. -/
def Apart (s : Sys) : Prop := ∀ t u g consumed, g ∈ (s.threads t).toMerge → s.threads u ≠ .cleaning g consumed

theorem Apart.initial : Apart Sys.initial := by
  intro t u g consumed hg
  simp [Sys.initial, Pc.toMerge] at hg

theorem Apart.move (h : Apart s) (hthreads : s'.threads = Function.update s.threads t pc)
    (hmerge : ∀ g ∈ pc.toMerge, ∀ u, u ≠ t → ∀ consumed, s.threads u ≠ .cleaning g consumed)
    (hclean : ∀ g consumed, pc = .cleaning g consumed → ∀ u, u ≠ t → g ∉ (s.threads u).toMerge) : Apart s' := by
  intro u v g consumed hg hv
  rw [hthreads] at hg hv
  by_cases hu : u = t
  · subst hu
    rw [Function.update_self] at hg
    by_cases hvu : v = u
    · subst hvu
      rw [Function.update_self] at hv
      rw [hv] at hg
      simp [Pc.toMerge] at hg
    · rw [Function.update_of_ne hvu] at hv
      exact hmerge g hg v hvu consumed hv
  · rw [Function.update_of_ne hu] at hg
    by_cases hvt : v = t
    · subst hvt
      rw [Function.update_self] at hv
      exact hclean g consumed hv u hu hg
    · rw [Function.update_of_ne hvt] at hv
      exact h u v g consumed hg hv

theorem Apart.stay (h : Apart s) (hthreads : s'.threads = Function.update s.threads t pc)
    (hmerge : pc.toMerge ⊆ (s.threads t).toMerge) (hclean : ∀ g consumed, pc ≠ .cleaning g consumed) : Apart s' :=
  h.move hthreads (fun g hg u _ consumed => h t u g consumed (hmerge hg))
    fun g consumed hpc => absurd hpc (hclean g consumed)

theorem toMerge_inState {g : GraphId} (h : g ∈ pc.toMerge) : pc.InState := by
  cases pc <;> simp_all [Pc.toMerge, Pc.InState]

theorem Apart.step (h : Apart s) (hl : Locks s) (hok : Ordered s t) (hs : Moves s t s') : Apart s' := by
  cases hs with
  | call hpc | untracked hpc | root hpc | skip hpc | sweep hpc | tryFree hpc | drop hpc | endMerge hpc | register hpc
  | cleanup hpc => exact h.stay rfl (by simp [Pc.toMerge]) (by simp)
  | tried hpc hcase =>
    rcases hcase with rfl | rfl <;>
      exact h.stay rfl (by simp [Pc.toMerge]) (by simp)
  | keep hpc | new hpc =>
    cases hp : s.threads t <;> rw [hp] at hpc <;> cases hpc <;> exact h.stay rfl (by simp [Pc.toMerge]) (by simp)
  | lockMain hpc | mergeTwo hpc =>
    exact h.stay rfl (by rw [hpc]; simp [Pc.toMerge]) (by simp)
  | @collide node parents main rest graphs hpc hfree hg hperm =>
    refine h.move rfl ?_ (by simp)
    intro g hmem u hu consumed hc
    have howner : (s.heap g).owner = none := by
      simp only [Ordered, hpc, hg] at hok
      exact hok g (hperm.mem_iff.mp hmem)
    have hheld := (hl.graph g u).mpr (by rw [hc]; exact rfl)
    rw [howner] at hheld
    cases hheld
  | @backward root graph hpc hfree =>
    unfold Sys.backward
    split
    · exact h.stay rfl (by simp [Pc.toMerge]) (by simp)
    · next nodes hnodes =>
      refine h.move rfl (by simp [Pc.toMerge]) ?_
      rintro g consumed hp u hu hmem
      cases hp
      -- the one merge under way would wait for this graph
      have hstate := (hl.state u).mpr (toMerge_inState hmem)
      simp only [Ordered, hpc, hnodes, mergeWaits, hstate, Except.toBool, true_implies] at hok
      exact hok hmem

/-- A merge waits for nobody: no backward holds its graphs, and another merge would hold `STATE`. -/
theorem merge_waits_for_nobody (hl : Locks s) (ha : Apart s) {u : Nat} (ht : (s.threads t).InState) :
    ¬Waits s.wants s.owner t u := by
  rintro ⟨l, hwants, howner⟩
  have hgraph : ∃ g ∈ (s.threads t).toMerge, l = .graph g ∧ ∀ n ps rest, s.threads t ≠ .absorbing n ps g rest := by
    have hd := hl.distinct t
    unfold wants at hwants
    cases hp : s.threads t with
    | merging node parents main rest =>
      rw [hp] at hwants
      cases hwants
      exact ⟨main, by simp [Pc.toMerge], rfl, by simp⟩
    | absorbing node parents main rest =>
      cases rest with
      | nil =>
        rw [hp] at hwants
        cases hwants
      | cons graph rest =>
        rw [hp] at hwants hd
        cases hwants
        refine ⟨graph, by simp [Pc.toMerge], rfl, ?_⟩
        intro n ps rest' he
        cases he
        simp [Pc.merges] at hd
    | _ => simp [hp, Pc.InState] at ht
  obtain ⟨g, hmem, rfl, hnot⟩ := hgraph
  have hheld := (hl.graph g u).mp howner
  cases hu : s.threads u with
  | cleaning graph consumed =>
    rw [hu] at hheld
    cases hheld
    exact ha t u g consumed hmem hu
  | absorbing node parents main rest =>
    rw [hu] at hheld
    cases hheld
    obtain rfl := hl.inState_unique ht (by rw [hu]; trivial)
    exact hnot _ _ _ hu
  | _ => simp [hu, Pc.Holds] at hheld

/-- Whoever is waited for stands lower. -/
def rank : Pc → Nat
  | .merging .. | .absorbing .. => 0
  | .selected .. | .chosen .. => 2
  | _ => 1

theorem rank_lt (hl : Locks s) (ha : Apart s) {u v : Nat} (htu : Waits s.wants s.owner t u)
    (huv : Waits s.wants s.owner u v) : rank (s.threads u) < rank (s.threads t) := by
  have hu : ¬(s.threads u).InState := fun hin => merge_waits_for_nobody hl ha hin huv
  have ht : ¬(s.threads t).InState := fun hin => merge_waits_for_nobody hl ha hin htu
  obtain ⟨l, hwants, howner⟩ := htu
  cases l with
  | state => exact absurd ((hl.state u).mp howner) hu
  | graph g =>
    have hheld := (hl.graph g u).mp howner
    unfold wants at hwants
    cases hpt : s.threads t <;> cases hpu : s.threads u <;>
      simp_all [Pc.wants, Pc.Holds, Pc.InState, rank]

/-- In a run that keeps the order, no threads ever wait for each other in a circle. -/
theorem ordered_no_deadlock (h : Run Ordered Sys.initial s) : ¬Deadlock s.wants s.owner := by
  have hinv : Locks s ∧ Apart s := by
    refine h.inv (P := fun s => Locks s ∧ Apart s) ⟨.initial, .initial⟩ ?_
    rintro s t s' ⟨hl, ha⟩ hok hs
    exact ⟨hl.step hs, ha.step hl hok hs⟩
  have hrank : ∀ t u v, Waits s.wants s.owner t u → Waits s.wants s.owner u v →
      rank (s.threads u) < rank (s.threads t) := fun t u v => rank_lt hinv.1 hinv.2
  exact no_deadlock hrank

/-- A thread registers a node whose parents are in one graph, and does it to the end. -/
def registerAll (t n : Nat) (parents : List Parent) : List (Nat × Action) :=
  [(t, .register n parents), (t, .go []), (t, .go [])]

/-- Two graphs, and a backward on one of them while another thread registers a node on both. -/
def crossing : List (Nat × Action) :=
  registerAll 0 1 [] ++ registerAll 0 2 [] ++ registerAll 0 3 [⟨1, true⟩] ++
    [(0, .backward 1), (0, .go []), (1, .register 4 [⟨3, false⟩, ⟨2, true⟩])]

/-- The backward comes to its cleanup, and only then the registration begins to merge: the backward
has given its graph back when it waits for the merge. -/
theorem ordered_no_deadlock_crossing :
    ∃ s ∈ after (crossing ++ [(0, .go []), (0, .go []), (1, .go [1, 0]), (1, .go [])]) Sys.initial,
      Waits s.wants s.owner 0 1 ∧ ¬Deadlock s.wants s.owner := by
  have h : ∃ s ∈ after (crossing ++ [(0, .go []), (0, .go []), (1, .go [1, 0]), (1, .go [])]) Sys.initial,
      s.wants 0 = some .state ∧ s.owner .state = some 1 := by decide +kernel
  obtain ⟨s, hs, hwants, howner⟩ := h
  exact ⟨s, hs, ⟨_, hwants, howner⟩, ordered_no_deadlock (Run.of_after (by decide +kernel) hs)⟩

/-- The merge holds `STATE` when the backward, which holds the first graph, comes to its cleanup. -/
theorem crossing_deadlock : ∃ s, Run (fun _ _ => True) Sys.initial s ∧ Deadlock s.wants s.owner := by
  have h : ∃ s ∈ after (crossing ++ [(1, .go [1, 0]), (1, .go []), (0, .go [])]) Sys.initial,
      s.wants 0 = some .state ∧ s.owner .state = some 1 ∧
        s.wants 1 = some (.graph 0) ∧ s.owner (.graph 0) = some 0 := by decide +kernel
  obtain ⟨s, hs, hwants, howner, hwants', howner'⟩ := h
  exact ⟨s, Run.of_after (by decide +kernel) hs, 0, .tail (.single ⟨_, hwants, howner⟩) ⟨_, hwants', howner'⟩⟩

end Sys

end Ruda.Autodiff
