import Ruda.Autodiff.LockOrder

/-!
# Which nodes the threads work on

Every node is registered once, by one thread and after its parents, and a backward runs on a
node that is registered, or on one that never will be.
-/

namespace Ruda.Autodiff

/-- The node that is being registered, with its parents. -/
def Pc.registers : Pc → Option (Nat × List Parent)
  | registering node parents | merging node parents _ _ | absorbing node parents _ _ | selected node parents _ =>
    some (node, parents)
  | _ => none

/-- The root of a backward that did not enter its graph yet. -/
def Pc.root : Pc → Option Nat
  | rooted root | chosen root _ => some root
  | _ => none

namespace Sys

variable {s s' : Sys} {t : Nat} {pc : Pc}

/-- Every node is registered once, after its parents, and a backward runs on a node that is registered
or never will be. -/
structure Calls (s : Sys) : Prop where
  known : ∀ t n ps, (s.threads t).registers = some (n, ps) → s.history.parents[n]? = some ps ∧ n ∉ s.history.returned
  one : ∀ t u n ps qs, (s.threads t).registers = some (n, ps) → (s.threads u).registers = some (n, qs) → t = u
  returned : ∀ n ∈ s.history.returned, n ∈ s.history.parents
  parents : ∀ (n : Nat) ps, s.history.parents[n]? = some ps → ∀ p ∈ ps, p.id ∈ s.history.returned
  roots : ∀ t root, (s.threads t).root = some root →
    root ∈ s.history.parents ∧ ∀ u ps, (s.threads u).registers ≠ some (root, ps)
  origins : ∀ g < s.fresh, (s.heap g).origin ∈ s.history.parents ∧
    ∀ t ps, s.threads t ≠ .registering (s.heap g).origin ps

theorem Calls.initial : Calls Sys.initial where
  known := by simp [Sys.initial, Pc.registers]
  one := by simp [Sys.initial, Pc.registers]
  returned := by simp [Sys.initial]
  parents := by simp [Sys.initial]
  roots := by simp [Sys.initial, Pc.root]
  origins := by simp [Sys.initial]

theorem registers_of_registering {n : Nat} {ps : List Parent} (h : pc = .registering n ps) :
    pc.registers = some (n, ps) := by
  rw [h]
  rfl

theorem Calls.stay (h : Calls s) (hthreads : s'.threads = Function.update s.threads t pc)
    (hhistory : s'.history.parents = s.history.parents) (hreturned : s'.history.returned = s.history.returned)
    (hreg : pc.registers = none ∨ pc.registers = (s.threads t).registers)
    (hroot : pc.root = none ∨ pc.root = (s.threads t).root)
    (hfresh : s'.fresh = s.fresh) (horigin : ∀ g, (s'.heap g).origin = (s.heap g).origin)
    (hnot : ∀ n ps, pc ≠ .registering n ps) : Calls s' := by
  have hregs : ∀ u r, (s'.threads u).registers = some r → (s.threads u).registers = some r := by
    intro u r hr
    rw [hthreads] at hr
    by_cases hu : u = t
    · subst hu
      rw [Function.update_self] at hr
      rcases hreg with hn | he
      · rw [hn] at hr
        cases hr
      · rwa [← he]
    · rwa [Function.update_of_ne hu] at hr
  refine ⟨fun u n ps hr => ?_, fun u v n ps qs hu hv => h.one u v n ps qs (hregs u _ hu) (hregs v _ hv), ?_, ?_, ?_, ?_⟩
  · rw [hhistory, hreturned]
    exact h.known u n ps (hregs u _ hr)
  · rw [hhistory, hreturned]
    exact h.returned
  · rw [hhistory, hreturned]
    exact h.parents
  · intro u root hr
    rw [hhistory]
    have hold : (s.threads u).root = some root := by
      rw [hthreads] at hr
      by_cases hu : u = t
      · subst hu
        rw [Function.update_self] at hr
        rcases hroot with hn | he
        · rw [hn] at hr
          cases hr
        · rwa [← he]
      · rwa [Function.update_of_ne hu] at hr
    refine ⟨(h.roots u root hold).1, fun v ps hv => (h.roots u root hold).2 v ps (hregs v _ hv)⟩
  · intro g hg
    rw [hhistory, horigin]
    rw [hfresh] at hg
    refine ⟨(h.origins g hg).1, fun u ps hu => ?_⟩
    rw [hthreads] at hu
    by_cases hut : u = t
    · subst hut
      rw [Function.update_self] at hu
      exact hnot _ _ hu
    · rw [Function.update_of_ne hut] at hu
      exact (h.origins g hg).2 u ps hu

theorem emptied_origin (main graph g : GraphId) : (s.emptied main graph g).origin = (s.heap g).origin := by
  unfold emptied
  by_cases hm : g = main
  · subst hm
    simp
  · by_cases hg : g = graph
    · subst hg
      simp [hm]
    · simp [hm, hg]

theorem setGraph_origin {graph : GraphId} {new : Graph} (h : new.origin = (s.heap graph).origin) (g : GraphId) :
    ((s.setGraph graph new).heap g).origin = (s.heap g).origin := by
  by_cases hg : g = graph
  · subst hg
    simp [setGraph, h]
  · simp [setGraph, hg]

theorem Selects.calls {node : Nat} {parents : List Parent} {next : GraphId → Pc} (h : Selects pc node parents next)
    (graph : GraphId) :
    (next graph).registers = pc.registers ∧ (next graph).root = pc.root ∧
      (∀ n ps, next graph ≠ .registering n ps) ∧ (pc.registers = some (node, parents) ∨ pc.root = some node) := by
  cases h <;> simp [Pc.registers, Pc.root]

theorem threads_of_ne (hthreads : s'.threads = Function.update s.threads t pc) {u : Nat} (hu : u ≠ t) :
    s'.threads u = s.threads u := by
  rw [hthreads, Function.update_of_ne hu]

theorem mem_parents {n : Nat} : n ∈ s.history.parents ↔ ∃ ps, s.history.parents[n]? = some ps := by
  rw [← Option.isSome_iff_exists, Std.ExtTreeMap.isSome_getElem?_iff_mem]

theorem Calls.begin (h : Calls s) {n : Nat} {ps : List Parent} (hidle : s.threads t = .idle)
    (hnew : n ∉ s.history.parents) (hps : ∀ p ∈ ps, p.id ∈ s.history.returned)
    (hpc : pc = .registering n ps ∨ pc = .rooted n) :
    Calls { s.moveTo t pc with history := { s.history with parents := s.history.parents.insert n ps } } := by
  have hthreads : ∀ u, u ≠ t → ({ s.moveTo t pc with
      history := { s.history with parents := s.history.parents.insert n ps } } : Sys).threads u = s.threads u :=
    fun u hu => threads_of_ne rfl hu
  -- nobody registers the node yet
  have hfresh : ∀ u qs, (s.threads u).registers ≠ some (n, qs) := fun u qs hu =>
    hnew (mem_parents.mpr ⟨qs, (h.known u n qs hu).1⟩)
  have hmine : ∀ m qs, pc.registers = some (m, qs) → m = n ∧ qs = ps := by
    rcases hpc with rfl | rfl <;> simp +contextual [Pc.registers, eq_comm]
  have hroot : ∀ root, pc.root = some root → root = n ∧ ∀ qs, pc.registers ≠ some (n, qs) := by
    rcases hpc with rfl | rfl <;> simp +contextual [Pc.root, Pc.registers, eq_comm]
  refine ⟨fun u m qs hu => ?_, fun u v m qs rs hu hv => ?_, fun m hm => ?_, fun m qs hm => ?_, fun u root hu => ?_, ?_⟩
  · by_cases hut : u = t
    · subst hut
      obtain ⟨rfl, rfl⟩ := hmine m qs (by simpa [moveTo] using hu)
      exact ⟨by simp, fun hret => hnew (h.returned m hret)⟩
    · rw [hthreads u hut] at hu
      obtain ⟨hm, hret⟩ := h.known u m qs hu
      have hne : m ≠ n := by
        rintro rfl
        exact hfresh u qs hu
      exact ⟨by simpa [hne] using hm, hret⟩
  · by_cases hut : u = t <;> by_cases hvt : v = t
    · rw [hut, hvt]
    · subst hut
      rw [hthreads v hvt] at hv
      obtain ⟨rfl, -⟩ := hmine m qs (by simpa [moveTo] using hu)
      exact absurd hv (hfresh v rs)
    · subst hvt
      rw [hthreads u hut] at hu
      obtain ⟨rfl, -⟩ := hmine m rs (by simpa [moveTo] using hv)
      exact absurd hu (hfresh u qs)
    · rw [hthreads u hut] at hu
      rw [hthreads v hvt] at hv
      exact h.one u v m qs rs hu hv
  · exact Std.ExtTreeMap.mem_insert.mpr (.inr (h.returned m hm))
  · rw [BTreeMap.get_insert] at hm
    split at hm
    · cases hm
      exact hps
    · exact h.parents m qs hm
  · by_cases hut : u = t
    · subst hut
      obtain ⟨rfl, hnot⟩ := hroot root (by simpa [moveTo] using hu)
      refine ⟨by simp, fun v qs hv => ?_⟩
      by_cases hvu : v = u
      · subst hvu
        exact hnot qs (by simpa [moveTo] using hv)
      · rw [hthreads v hvu] at hv
        exact hfresh v qs hv
    · rw [hthreads u hut] at hu
      obtain ⟨hmem, hnot⟩ := h.roots u root hu
      refine ⟨Std.ExtTreeMap.mem_insert.mpr (.inr hmem), fun v qs hv => ?_⟩
      by_cases hvt : v = t
      · subst hvt
        obtain ⟨rfl, -⟩ := hmine root qs (by simpa [moveTo] using hv)
        exact hnew hmem
      · rw [hthreads v hvt] at hv
        exact hnot v qs hv
  · intro g hg
    obtain ⟨hmem, hnot⟩ := h.origins g hg
    refine ⟨Std.ExtTreeMap.mem_insert.mpr (.inr hmem), fun u qs hu => ?_⟩
    by_cases hut : u = t
    · subst hut
      obtain ⟨heq, -⟩ := hmine (s.heap g).origin qs (registers_of_registering (by simpa [moveTo] using hu))
      exact hnew (heq ▸ hmem)
    · rw [hthreads u hut] at hu
      exact hnot u qs hu

theorem Calls.root (h : Calls s) {root : Nat} (hret : root ∈ s.history.returned) :
    Calls (s.moveTo t (.rooted root)) := by
  have hregs : ∀ u n ps, ((s.moveTo t (.rooted root)).threads u).registers = some (n, ps) →
      (s.threads u).registers = some (n, ps) := by
    intro u n ps hu
    by_cases hut : u = t
    · subst hut
      simp [moveTo, Pc.registers] at hu
    · simpa [moveTo, hut] using hu
  refine ⟨fun u n ps hu => h.known u n ps (hregs u n ps hu),
    fun u v n ps qs hu hv => h.one u v n ps qs (hregs u n ps hu) (hregs v n qs hv), h.returned, h.parents, ?_, ?_⟩
  · intro u r hu
    by_cases hut : u = t
    · subst hut
      obtain rfl : root = r := by simpa [moveTo, Pc.root] using hu
      exact ⟨h.returned _ hret, fun v ps hv => (h.known v _ ps (hregs v _ ps hv)).2 hret⟩
    · have hu' : (s.threads u).root = some r := by simpa [moveTo, hut] using hu
      exact ⟨(h.roots u r hu').1, fun v ps hv => (h.roots u r hu').2 v ps (hregs v r ps hv)⟩
  · intro g hg
    refine ⟨(h.origins g hg).1, fun u ps hu => ?_⟩
    by_cases hut : u = t
    · subst hut
      simp [moveTo] at hu
    · exact (h.origins g hg).2 u ps (by simpa [moveTo, hut] using hu)

theorem Calls.new (h : Calls s) {node : Nat} {parents : List Parent} {next : GraphId → Pc} {l : GraphLocator}
    (hpc : Selects (s.threads t) node parents next) :
    Calls { (s.moveTo t (next s.fresh)).setGraph s.fresh { origin := node, owner := none, steps := ∅ } with
      locator := l, fresh := s.fresh + 1 } := by
  obtain ⟨hreg, hroot, hnot, hnode⟩ := hpc.calls s.fresh
  have hstay : Calls (s.moveTo t (next s.fresh)) :=
    h.stay rfl rfl rfl (.inr hreg) (.inr hroot) rfl (fun _ => rfl) hnot
  refine { hstay with origins := fun g hg => ?_ }
  by_cases hfr : g = s.fresh
  · subst hfr
    simp only [setGraph, Function.update_self]
    have hmem : node ∈ s.history.parents := by
      rcases hnode with hr | hr
      · exact mem_parents.mpr ⟨_, (h.known t node _ hr).1⟩
      · exact (h.roots t node hr).1
    refine ⟨hmem, fun u ps hu => ?_⟩
    by_cases hut : u = t
    · subst hut
      exact hnot node ps (by simpa [moveTo] using hu)
    · have hu' : s.threads u = .registering node ps := by simpa [moveTo, hut] using hu
      rcases hnode with hr | hr
      · exact hut (h.one u t node _ _ (registers_of_registering hu') hr)
      · exact (h.roots t node hr).2 u _ (registers_of_registering hu')
  · have hlt : g < s.fresh := lt_of_le_of_ne (Nat.lt_succ_iff.mp hg) hfr
    simpa [setGraph, moveTo, hfr] using hstay.origins g hlt

theorem Calls.finish (h : Calls s) {node : Nat} {parents : List Parent} {graph : GraphId}
    (hpc : s.threads t = .selected node parents graph) : Calls (s.register t node parents graph) := by
  have hreg : (s.threads t).registers = some (node, parents) := by
    rw [hpc]
    rfl
  have hstay : Calls (s.moveTo t .idle) :=
    h.stay rfl rfl rfl (.inl rfl) (.inl rfl) rfl (fun _ => rfl) (by simp)
  refine ⟨fun u n ps hu => ?_, hstay.one, fun n hn => ?_, fun n ps hn p hp => ?_, hstay.roots, fun g hg => ?_⟩
  · obtain ⟨hn, hret⟩ := hstay.known u n ps hu
    refine ⟨hn, ?_⟩
    simp only [Sys.register, Finset.mem_insert, not_or]
    refine ⟨?_, hret⟩
    -- the node that returns has no other thread
    rintro rfl
    have hut : u ≠ t := by
      rintro rfl
      simp [Sys.register, setGraph, moveTo, Pc.registers] at hu
    exact hut (h.one u t n _ _ (by simpa [Sys.register, setGraph, moveTo, hut] using hu) hreg)
  · rcases Finset.mem_insert.mp hn with rfl | hn
    · exact mem_parents.mpr ⟨_, (h.known t _ _ hreg).1⟩
    · exact h.returned n hn
  · exact Finset.mem_insert_of_mem (h.parents n ps hn p hp)
  · have horigin : ((s.register t node parents graph).heap g).origin = (s.heap g).origin :=
      @setGraph_origin (s.moveTo t .idle) graph { s.heap graph with steps := (s.heap graph).steps.insert node parents }
        rfl g
    rw [horigin]
    exact hstay.origins g hg

theorem Calls.step (h : Calls s) (hs : Moves s t s') : Calls s' := by
  cases hs with
  | call hpc hnew hret => exact h.begin hpc hnew hret (.inl rfl)
  | root hpc hret => exact h.root hret
  | untracked hpc hnew => exact h.begin hpc hnew (by simp) (.inr rfl)
  | keep hpc =>
    obtain ⟨hreg, hroot, hnot, -⟩ := hpc.calls _
    exact h.stay rfl rfl rfl (.inr hreg) (.inr hroot) rfl (fun _ => rfl) hnot
  | new hpc => exact h.new hpc
  | collide hpc =>
    exact h.stay rfl rfl rfl (.inr (by rw [hpc]; rfl)) (.inl rfl) rfl (fun _ => rfl) (by simp)
  | lockMain hpc | endMerge hpc =>
    exact h.stay rfl rfl rfl (.inr (by rw [hpc]; rfl)) (.inl rfl) rfl (setGraph_origin rfl) (by simp)
  | mergeTwo hpc =>
    exact h.stay rfl rfl rfl (.inr (by rw [hpc]; rfl)) (.inl rfl) rfl (emptied_origin _ _) (by simp)
  | register hpc => exact h.finish hpc
  | backward hpc =>
    unfold Sys.backward
    split
    · exact h.stay rfl rfl rfl (.inl rfl) (.inl rfl) rfl (fun _ => rfl) (by simp)
    · exact h.stay rfl rfl rfl (.inl rfl) (.inl rfl) rfl (setGraph_origin rfl) (by simp)
  | cleanup hpc | tryFree hpc =>
    exact h.stay rfl rfl rfl (.inl rfl) (.inl rfl) rfl (setGraph_origin rfl) (by simp)
  | sweep hpc | skip hpc | drop hpc =>
    exact h.stay rfl rfl rfl (.inl rfl) (.inl rfl) rfl (fun _ => rfl) (by simp)
  | tried hpc hcase =>
    rcases hcase with rfl | rfl <;>
      exact h.stay rfl rfl rfl (.inl rfl) (.inl rfl) rfl (fun _ => rfl) (by simp)

end Sys

end Ruda.Autodiff
