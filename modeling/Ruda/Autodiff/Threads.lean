import Ruda.Autodiff.Locator
import Ruda.Lib.Locks

/-!
# Threads that register nodes and run backward

Any number of threads take turns. A thread is between two places where it may have to wait for
a lock, and a step of it does everything up to the next such place: whatever waits for nothing
happens at once, since the data it touches is under the locks that it holds.

What the code leaves open is the choice of a step: the order in which a hash map is iterated,
and which nodes the memory management of a graph lets go of.
-/

namespace Ruda.Autodiff

inductive Lock
  /-- `STATE` -/
  | state
  | graph (id : GraphId)
  deriving DecidableEq

/-- How far a thread is. -/
inductive Pc
  | idle
  | registering (node : Nat) (parents : List Parent)
  /-- holds `STATE`, and is about to lock the main graph -/
  | merging (node : Nat) (parents : List Parent) (main : GraphId) (rest : List GraphId)
  /-- holds `STATE` and the main graph, and is about to lock the next graph -/
  | absorbing (node : Nat) (parents : List Parent) (main : GraphId) (rest : List GraphId)
  | selected (node : Nat) (parents : List Parent) (graph : GraphId)
  | rooted (root : Nat)
  | chosen (root : Nat) (graph : GraphId)
  /-- holds the graph of the backward, and is about to lock `STATE` -/
  | cleaning (graph : GraphId) (consumed : List Nat)
  | sweeping
  | trying (graphs : List GraphId) (removed : List Nat)
  | dropping (removed : List Nat)
  deriving DecidableEq

def Pc.wants : Pc → Option Lock
  | registering .. | rooted _ | cleaning .. | sweeping | dropping _ => some .state
  | merging _ _ main _ => some (.graph main)
  | absorbing _ _ _ (graph :: _) => some (.graph graph)
  | selected _ _ graph | chosen _ graph => some (.graph graph)
  | idle | absorbing _ _ _ [] | trying .. => none

/-- What has happened to the nodes. -/
structure History where
  /-- the parents of every node that a registration was begun for -/
  parents : BTreeMap (List Parent)
  returned : Finset Nat
  consumed : Finset Nat
  freed : Finset Nat

structure Sys where
  locator : GraphLocator
  /-- who holds `STATE` -/
  state : Option Nat
  heap : GraphId → Graph
  fresh : GraphId
  threads : Nat → Pc
  history : History

/-- What a thread does next: a call, or the next step of its call. -/
inductive Action
  | register (node : Nat) (parents : List Parent)
  | backward (root : Nat)
  | go (choice : List Nat)
  deriving DecidableEq

def eraseAll (steps : Steps) (nodes : List Nat) : Steps := nodes.foldl (fun steps node => steps.erase node) steps

namespace Sys

variable (s : Sys) (t : Nat)

def initial : Sys where
  locator := { graphs := ∅, keys := ∅ }
  state := none
  heap _ := { origin := 0, owner := none, steps := ∅ }
  fresh := 0
  threads _ := .idle
  history := { parents := ∅, returned := ∅, consumed := ∅, freed := ∅ }

def owner : Lock → Option Nat
  | .state => s.state
  | .graph g => (s.heap g).owner

def wants : Option Lock := (s.threads t).wants

def moveTo (pc : Pc) : Sys := { s with threads := Function.update s.threads t pc }

def setGraph (g : GraphId) (graph : Graph) : Sys := { s with heap := Function.update s.heap g graph }

/-- `GraphLocator::select` up to the first graph that it locks. -/
def select (node : Nat) (parents : List Parent) (next : GraphId → Pc) (order : List GraphId) : Option Sys :=
  match s.locator.analyse s.heap node parents with
  | .noCollision graph => some { s.moveTo t (next graph) with locator := s.locator.keep s.heap node graph }
  | .newGraph =>
    some { (s.moveTo t (next s.fresh)).setGraph s.fresh { origin := node, owner := none, steps := ∅ } with
      locator := s.locator.newGraph node s.fresh, fresh := s.fresh + 1 }
  | .collisions graphs =>
    match order with
    | main :: rest =>
      if (main :: rest).Perm graphs then
        some { s.moveTo t (.merging node parents main rest) with
          locator := s.locator.registerKey (s.heap main).origin node, state := some t }
      else none
    | [] => none

/-- `main.state.lock()` -/
def lockMain (node : Nat) (parents : List Parent) (main : GraphId) (rest : List GraphId) : Sys :=
  (s.moveTo t (.absorbing node parents main rest)).setGraph main { s.heap main with owner := some t }

/-- The heap after the steps of `graph` went over to `main`. -/
def emptied (main graph : GraphId) : GraphId → Graph :=
  Function.update (Function.update s.heap graph { s.heap graph with steps := ∅ }) main
    { s.heap main with steps := (s.heap main).steps ∪ (s.heap graph).steps }

def mergeTwo (node : Nat) (parents : List Parent) (main graph : GraphId) (rest : List GraphId) : Sys :=
  { s.moveTo t (.absorbing node parents main rest) with
    heap := s.emptied main graph
    locator := s.locator.remap s.heap main graph }

def endMerge (node : Nat) (parents : List Parent) (main : GraphId) : Sys :=
  { (s.moveTo t (.selected node parents main)).setGraph main { s.heap main with owner := none } with
    locator := s.locator.join s.heap node main, state := none }

/-- `AutodiffServer::register` under the lock of the graph. -/
def register (node : Nat) (parents : List Parent) (graph : GraphId) : Sys :=
  { (s.moveTo t .idle).setGraph graph
      { s.heap graph with steps := (s.heap graph).steps.insert node parents } with
    history := { s.history with returned := insert node s.history.returned } }

/-- `AutodiffServer::backward_local` up to the cleanup. A tape that was consumed before panics, and
the graph is unlocked. -/
def backward (root : Nat) (graph : GraphId) : Sys :=
  match collectSteps root (s.heap graph).steps with
  | .error _ => s.moveTo t .idle
  | .ok nodes =>
    { (s.moveTo t (.cleaning graph nodes)).setGraph graph
        { s.heap graph with owner := some t, steps := eraseAll (s.heap graph).steps nodes } with
      history := { s.history with consumed := s.history.consumed ∪ nodes.toFinset } }

/-- What the memory management of a graph can let go of: a node of the graph, or one that is gone. -/
def Freeable (graph : GraphId) (nodes : List Nat) : Prop :=
  ∀ n ∈ nodes, n ∈ (s.heap graph).steps ∨ n ∈ s.history.consumed ∨ n ∈ s.history.freed

instance (graph : GraphId) (nodes : List Nat) : Decidable (s.Freeable graph nodes) := by
  unfold Freeable
  infer_instance

def free (graph : GraphId) (nodes : List Nat) : Sys :=
  { s.setGraph graph { s.heap graph with owner := none, steps := eraseAll (s.heap graph).steps nodes } with
    history := { s.history with freed := s.history.freed ∪ nodes.toFinset } }

/-- `AutodiffServer::cleanup`, and the end of the backward under its lock. -/
def cleanup (graph : GraphId) (consumed freed : List Nat) : Sys :=
  { (s.free graph freed).moveTo t .sweeping with
    locator := s.locator.removeEntries s.heap (freed ++ consumed) }

/-- One round of `cleanup_orphaned_entries`, with `try_lock`. -/
def tryFree (graph : GraphId) (graphs : List GraphId) (removed nodes : List Nat) : Option Sys :=
  if (s.heap graph).owner = none then
    if s.Freeable graph nodes then some ((s.free graph nodes).moveTo t (.trying graphs (removed ++ nodes)))
    else none
  else some (s.moveTo t (.trying graphs removed))

/-- The next step of a call, when the lock that it needs is free. -/
def advance (choice : List Nat) : Pc → Option Sys
  | .idle => none
  | .registering node parents => s.select t node parents (.selected node parents) choice
  | .merging node parents main rest => some (s.lockMain t node parents main rest)
  | .absorbing node parents main (graph :: rest) => some (s.mergeTwo t node parents main graph rest)
  | .absorbing node parents main [] => some (s.endMerge t node parents main)
  | .selected node parents graph => some (s.register t node parents graph)
  | .rooted root => s.select t root [] (.chosen root) choice
  | .chosen root graph => some (s.backward t root graph)
  | .cleaning graph consumed =>
    if s.Freeable graph choice then some (s.cleanup t graph consumed choice) else none
  | .sweeping =>
    if choice.Perm (s.locator.graphs.toList.map Prod.snd) then some (s.moveTo t (.trying choice [])) else none
  | .trying (graph :: graphs) removed => s.tryFree t graph graphs removed choice
  | .trying [] [] => some (s.moveTo t .idle)
  | .trying [] removed => some (s.moveTo t (.dropping removed))
  | .dropping removed =>
    some { s.moveTo t .idle with locator := s.locator.removeEntries s.heap removed }

/-- The lock that the thread wants is held. -/
def Blocked : Prop := ∃ l ∈ s.wants t, (s.owner l).isSome

instance : Decidable (s.Blocked t) := by
  unfold Blocked
  infer_instance

/-- One step of the thread. Every node is registered once, after its parents; a backward can be
called on any registered node, and on a tensor that is not tracked, whose node never is registered. -/
def step (a : Action) : Option Sys :=
  if s.Blocked t then none
  else
    match s.threads t, a with
    | .idle, .register node parents =>
      if node ∉ s.history.parents ∧ ∀ p ∈ parents, p.id ∈ s.history.returned then
        some { s.moveTo t (.registering node parents) with
          history := { s.history with parents := s.history.parents.insert node parents } }
      else none
    | .idle, .backward root =>
      if root ∈ s.history.returned then some (s.moveTo t (.rooted root))
      else if root ∉ s.history.parents then
        some { s.moveTo t (.rooted root) with
          history := { s.history with parents := s.history.parents.insert root [] } }
      else none
    | pc, .go choice => s.advance t choice pc
    | _, _ => none

/-- The states reached by steps that all meet `ok`. -/
def Run (ok : Sys → Nat → Prop) : Sys → Sys → Prop :=
  Relation.ReflTransGen fun s s' => ∃ t a, ok s t ∧ step s t a = some s'

/-- The state after a list of steps. -/
def after : List (Nat × Action) → Sys → Option Sys
  | [], s => some s
  | (t, a) :: steps, s => (step s t a).bind (after steps)

/-- Whether every step of the list meets `ok`. -/
def meets (ok : Sys → Nat → Prop) [∀ s t, Decidable (ok s t)] : List (Nat × Action) → Sys → Bool
  | [], _ => true
  | (t, a) :: steps, s => decide (ok s t) && ((step s t a).map (meets ok steps)).getD true

-- What a step can do

/-- The two calls that select a graph, and where they go on with it. -/
inductive Selects : Pc → Nat → List Parent → (GraphId → Pc) → Prop
  | register (node : Nat) (parents : List Parent) :
    Selects (.registering node parents) node parents (.selected node parents)
  | backward (root : Nat) : Selects (.rooted root) root [] (.chosen root)

inductive Moves (s : Sys) (t : Nat) : Sys → Prop
  | call {node : Nat} {parents : List Parent} (h : s.threads t = .idle) (hnew : node ∉ s.history.parents)
    (hret : ∀ p ∈ parents, p.id ∈ s.history.returned) :
    Moves s t { s.moveTo t (.registering node parents) with
      history := { s.history with parents := s.history.parents.insert node parents } }
  | root {root : Nat} (h : s.threads t = .idle) (hret : root ∈ s.history.returned) :
    Moves s t (s.moveTo t (.rooted root))
  | untracked {root : Nat} (h : s.threads t = .idle) (hnew : root ∉ s.history.parents) :
    Moves s t { s.moveTo t (.rooted root) with
      history := { s.history with parents := s.history.parents.insert root [] } }
  | keep {node : Nat} {parents : List Parent} {next : GraphId → Pc} {graph : GraphId}
    (h : Selects (s.threads t) node parents next) (hfree : s.state = none)
    (hg : s.locator.analyse s.heap node parents = .noCollision graph) :
    Moves s t { s.moveTo t (next graph) with locator := s.locator.keep s.heap node graph }
  | new {node : Nat} {parents : List Parent} {next : GraphId → Pc}
    (h : Selects (s.threads t) node parents next) (hfree : s.state = none)
    (hg : s.locator.analyse s.heap node parents = .newGraph) :
    Moves s t { (s.moveTo t (next s.fresh)).setGraph s.fresh { origin := node, owner := none, steps := ∅ } with
      locator := s.locator.newGraph node s.fresh, fresh := s.fresh + 1 }
  | collide {node : Nat} {parents : List Parent} {main : GraphId} {rest graphs : List GraphId}
    (h : s.threads t = .registering node parents) (hfree : s.state = none)
    (hg : s.locator.analyse s.heap node parents = .collisions graphs) (hperm : (main :: rest).Perm graphs) :
    Moves s t { s.moveTo t (.merging node parents main rest) with
      locator := s.locator.registerKey (s.heap main).origin node, state := some t }
  | lockMain {node : Nat} {parents : List Parent} {main : GraphId} {rest : List GraphId}
    (h : s.threads t = .merging node parents main rest) (hfree : (s.heap main).owner = none) :
    Moves s t (s.lockMain t node parents main rest)
  | mergeTwo {node : Nat} {parents : List Parent} {main graph : GraphId} {rest : List GraphId}
    (h : s.threads t = .absorbing node parents main (graph :: rest)) (hfree : (s.heap graph).owner = none) :
    Moves s t (s.mergeTwo t node parents main graph rest)
  | endMerge {node : Nat} {parents : List Parent} {main : GraphId}
    (h : s.threads t = .absorbing node parents main []) : Moves s t (s.endMerge t node parents main)
  | register {node : Nat} {parents : List Parent} {graph : GraphId}
    (h : s.threads t = .selected node parents graph) (hfree : (s.heap graph).owner = none) :
    Moves s t (s.register t node parents graph)
  | backward {root : Nat} {graph : GraphId} (h : s.threads t = .chosen root graph)
    (hfree : (s.heap graph).owner = none) : Moves s t (s.backward t root graph)
  | cleanup {graph : GraphId} {consumed nodes : List Nat} (h : s.threads t = .cleaning graph consumed)
    (hfree : s.state = none) (hnodes : s.Freeable graph nodes) : Moves s t (s.cleanup t graph consumed nodes)
  | sweep {graphs : List GraphId} (h : s.threads t = .sweeping)
    (hperm : graphs.Perm (s.locator.graphs.toList.map Prod.snd)) : Moves s t (s.moveTo t (.trying graphs []))
  | tryFree {graph : GraphId} {graphs : List GraphId} {removed nodes : List Nat}
    (h : s.threads t = .trying (graph :: graphs) removed) (hfree : (s.heap graph).owner = none)
    (hnodes : s.Freeable graph nodes) : Moves s t ((s.free graph nodes).moveTo t (.trying graphs (removed ++ nodes)))
  | skip {graph : GraphId} {graphs : List GraphId} {removed : List Nat}
    (h : s.threads t = .trying (graph :: graphs) removed) : Moves s t (s.moveTo t (.trying graphs removed))
  | tried {removed : List Nat} {pc : Pc} (h : s.threads t = .trying [] removed)
    (hpc : pc = .idle ∨ pc = .dropping removed) : Moves s t (s.moveTo t pc)
  | drop {removed : List Nat} (h : s.threads t = .dropping removed) (hfree : s.state = none) :
    Moves s t { s.moveTo t .idle with locator := s.locator.removeEntries s.heap removed }

variable {s : Sys} {t : Nat} {s' : Sys}

theorem free_of_not_blocked {l : Lock} (h : ¬s.Blocked t) (hl : (s.threads t).wants = some l) : s.owner l = none := by
  by_contra hne
  exact h ⟨l, hl, Option.isSome_iff_ne_none.mpr hne⟩

theorem select_moves {node : Nat} {parents : List Parent} {next : GraphId → Pc} {order : List GraphId}
    (hpc : Selects (s.threads t) node parents next) (hfree : s.state = none)
    (h : s.select t node parents next order = some s') : Moves s t s' := by
  unfold select at h
  split at h
  · next graph hg =>
    cases h
    exact .keep hpc hfree hg
  · next hg =>
    cases h
    exact .new hpc hfree hg
  · next graphs hg =>
    split at h
    · split at h
      · next hperm =>
        cases h
        generalize hpc' : s.threads t = pc at hpc
        cases hpc with
        | register => exact .collide hpc' hfree hg hperm
        | backward => exact absurd hg (GraphLocator.analyse_root _ _)
      · cases h
    · cases h

theorem advance_moves {choice : List Nat} (hb : ¬s.Blocked t) (h : s.advance t choice (s.threads t) = some s') :
    Moves s t s' := by
  generalize hpc : s.threads t = pc at h
  have hfree : ∀ l, pc.wants = some l → s.owner l = none := fun l hl => free_of_not_blocked hb (hpc ▸ hl)
  unfold advance at h
  split at h
  · cases h
  · exact select_moves (hpc ▸ .register _ _) (hfree .state rfl) h
  · cases h
    exact .lockMain hpc (hfree (.graph _) rfl)
  · cases h
    exact .mergeTwo hpc (hfree (.graph _) rfl)
  · cases h
    exact .endMerge hpc
  · cases h
    exact .register hpc (hfree (.graph _) rfl)
  · exact select_moves (hpc ▸ .backward _) (hfree .state rfl) h
  · cases h
    exact .backward hpc (hfree (.graph _) rfl)
  · split at h
    · next hnodes =>
      cases h
      exact .cleanup hpc (hfree .state rfl) hnodes
    · cases h
  · split at h
    · next hperm =>
      cases h
      exact .sweep hpc hperm
    · cases h
  · unfold tryFree at h
    split at h
    · next howner =>
      split at h
      · next hnodes =>
        cases h
        exact .tryFree hpc howner hnodes
      · cases h
    · cases h
      exact .skip hpc
  · cases h
    exact .tried hpc (.inl rfl)
  · cases h
    exact .tried hpc (.inr rfl)
  · cases h
    exact .drop hpc (hfree .state rfl)

theorem step_moves {a : Action} (h : s.step t a = some s') : Moves s t s' := by
  unfold step at h
  split at h
  · cases h
  · next hb =>
    split at h
    · next hpc =>
      split at h
      · next hc =>
        cases h
        exact .call hpc hc.1 hc.2
      · cases h
    · next hpc =>
      split at h
      · next hret =>
        cases h
        exact .root hpc hret
      · split at h
        · next hnew =>
          cases h
          exact .untracked hpc hnew
        · cases h
    · exact advance_moves hb h
    · cases h

theorem Run.inv {ok : Sys → Nat → Prop} {P : Sys → Prop} {s₀ : Sys} (h : Run ok s₀ s) (h0 : P s₀)
    (hstep : ∀ s t s', P s → ok s t → Moves s t s' → P s') : P s := by
  induction h with
  | refl => exact h0
  | tail _ hs ih =>
    obtain ⟨t, a, hok, hs⟩ := hs
    exact hstep _ t _ ih hok (step_moves hs)

theorem Run.of_after {ok : Sys → Nat → Prop} [∀ s t, Decidable (ok s t)] {steps : List (Nat × Action)}
    (hok : meets ok steps s = true) (h : after steps s = some s') : Run ok s s' := by
  induction steps generalizing s with
  | nil =>
    cases h
    exact .refl
  | cons step steps ih =>
    obtain ⟨t, a⟩ := step
    obtain ⟨mid, hmid, hrest⟩ := Option.bind_eq_some_iff.mp h
    rw [meets, Bool.and_eq_true, decide_eq_true_eq, hmid] at hok
    exact .head ⟨t, a, hok.1, hmid⟩ (ih hok.2 hrest)

theorem Run.imp {ok ok' : Sys → Nat → Prop} {P : Sys → Prop} {s₀ : Sys} (h : Run ok s₀ s) (h0 : P s₀)
    (hstep : ∀ s t s', P s → ok s t → Moves s t s' → P s') (himp : ∀ s t, P s → ok s t → ok' s t) : Run ok' s₀ s := by
  induction h with
  | refl => exact .refl
  | tail hrun hs ih =>
    obtain ⟨t, a, hok, hs⟩ := hs
    exact ih.tail ⟨t, a, himp _ t (Run.inv hrun h0 hstep) hok, hs⟩

theorem Moves.others (h : Moves s t s') {u : Nat} (hu : u ≠ t) : s'.threads u = s.threads u := by
  cases h with
  | backward hpc =>
    unfold Sys.backward
    split <;> exact Function.update_of_ne hu _ _
  | _ => exact Function.update_of_ne hu _ _

end Sys

end Ruda.Autodiff
