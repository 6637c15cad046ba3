import Ruda.Fusion.Order
import Ruda.Fusion.SubGraph
import Ruda.Lib.Kahn

/-!
# Dependency graphs

A translation of `search/graph/dag.rs` and of the trait of `search/graph/node.rs`. Counters
wrap as in a release build. The loops that are not over a fixed range take fuel.
-/

namespace Ruda.Fusion

/-- Data-flow description of a node in a dependency graph. -/
class GraphNode (N : Type) (R : outParam Type) [DecidableEq R] where
  produced : N → List R
  read : N → List R
  freed : N → List R
  produces : N → R → Bool := fun node resource => (produced node).any (· == resource)
  reads : N → R → Bool := fun node resource => (read node).any (· == resource)
  position : N → Nat
  readPosition : N → R → Nat := fun node _ => position node
  producesBefore : N → R → Nat → Bool := fun node resource at' => produces node resource && position node < at'
  orderedRange : N → Option (Nat × Nat) := fun _ => none

instance : GraphNode OperationNode Nat where
  produced := OperationNode.produced
  read := OperationNode.read
  freed := OperationNode.freed
  position := OperationNode.position
  orderedRange := OperationNode.orderedRange

section

variable {N R : Type} [DecidableEq R] [GraphNode N R]

/-- Whether `node` must execute after `other`. -/
def dependsOn (node other : N) : Bool :=
  ((GraphNode.read node).any fun r => GraphNode.producesBefore other r (GraphNode.readPosition node r)) ||
  ((GraphNode.freed node).any fun r => GraphNode.reads other r) ||
  match GraphNode.orderedRange node, GraphNode.orderedRange other with
  | some (_, last), some (first, _) => last > first
  | _, _ => false

end

def setAt (sets : List SubGraph) (i : Nat) : SubGraph := sets.getD i SubGraph.empty

/-- A dependency graph over a fixed list of nodes. -/
structure Dag (n : Nat) where
  dependencies : List SubGraph
  dependents : List SubGraph
  positions : List Nat
  dependencies_length : dependencies.length = n
  dependents_length : dependents.length = n
  positions_length : positions.length = n
  transposed : ∀ i j, j ∈ (setAt dependencies i).members ↔ i ∈ (setAt dependents j).members
  irreflexive : ∀ i, i ∉ (setAt dependencies i).members

theorem setAt_modify {sets : List SubGraph} {i : Nat} (hi : i < sets.length) (f : SubGraph → SubGraph) (k : Nat) :
    setAt (sets.modify i f) k = if k = i then f (setAt sets i) else setAt sets k := by
  simp only [setAt, List.getD_eq_getElem?_getD, List.getElem?_modify]
  by_cases h : k = i
  · subst h
    simp [List.getElem?_eq_getElem hi]
  · simp [h, Ne.symm h]

theorem setAt_replicate (n k : Nat) : setAt (List.replicate n SubGraph.empty) k = SubGraph.empty := by
  simp only [setAt, List.getD_eq_getElem?_getD, List.getElem?_replicate]
  split <;> rfl

namespace Dag

variable {n : Nat}

def edgeless (positions : List Nat) (h : positions.length = n) : Dag n where
  dependencies := List.replicate n SubGraph.empty
  dependents := List.replicate n SubGraph.empty
  positions
  dependencies_length := List.length_replicate
  dependents_length := List.length_replicate
  positions_length := h
  transposed := by simp [setAt_replicate]
  irreflexive := by simp [setAt_replicate]

/-- `dependencies[i].insert(j)` and `dependents[j].insert(i)` -/
def addEdge (d : Dag n) (i j : Fin n) (hne : i ≠ j) : Dag n where
  dependencies := d.dependencies.modify i (·.insert j)
  dependents := d.dependents.modify j (·.insert i)
  positions := d.positions
  dependencies_length := by rw [List.length_modify, d.dependencies_length]
  dependents_length := by rw [List.length_modify, d.dependents_length]
  positions_length := d.positions_length
  transposed := by
    intro a b
    have hi : (i : Nat) < d.dependencies.length := by simp [d.dependencies_length]
    have hj : (j : Nat) < d.dependents.length := by simp [d.dependents_length]
    have ht := d.transposed
    rw [setAt_modify hi, setAt_modify hj]
    by_cases ha : a = i <;> by_cases hb : b = j <;> simp [ha, hb, ht]
  irreflexive := by
    intro a
    have hi : (i : Nat) < d.dependencies.length := by simp [d.dependencies_length]
    rw [setAt_modify hi]
    split
    · next h =>
      subst h
      rw [SubGraph.members_insert, Finset.mem_insert, not_or]
      exact ⟨fun h => hne (Fin.ext h), d.irreflexive _⟩
    · exact d.irreflexive a

/-- Build the dependency graph of the given nodes. -/
def new {N R : Type} [DecidableEq R] [GraphNode N R] (nodes : List N) : Dag nodes.length :=
  (List.finRange nodes.length).foldl
    (fun d i => (List.finRange nodes.length).foldl
      (fun d j => if h : i ≠ j ∧ dependsOn nodes[i] nodes[j] then d.addEdge i j h.1 else d) d)
    (edgeless (nodes.map GraphNode.position) (List.length_map _))

-- Linearization

/-- The order of the min-heap's keys. -/
def keyLe (a b : Nat × Nat) : Prop := a.1 < b.1 ∨ a.1 = b.1 ∧ a.2 ≤ b.2

instance (a b : Nat × Nat) : Decidable (keyLe a b) := inferInstanceAs (Decidable (_ ∨ _))

/-- Min-heap of the nodes ready to execute, keyed by `(position, index)`. -/
def heap (positions : List Nat) : Bag (List (Nat × Nat)) where
  empty := []
  push ready i := ready.orderedInsert keyLe (positions.getD i 0, i)
  pop
    | [] => none
    | (_, i) :: ready => some (i, ready)
  contents := List.map Prod.snd
  contents_empty := rfl
  contents_push ready i := by simpa using (List.perm_orderedInsert keyLe (positions.getD i 0, i) ready).map Prod.snd
  pop_none ready h := by cases ready <;> simp_all
  pop_some ready ready' i h := by
    cases ready with
    | nil => simp at h
    | cons key ready =>
      simp only [Option.some.injEq, Prod.mk.injEq] at h
      simp [← h.1, ← h.2]

/-- A `Vec` that is pushed and popped at its end. -/
def stack : Bag (List Nat) where
  empty := []
  push ready i := ready ++ [i]
  pop ready := ready.getLast?.map fun i => (i, ready.dropLast)
  contents ready := ready
  contents_empty := rfl
  contents_push ready i := List.perm_append_singleton i ready
  pop_none ready h := by simpa using h
  pop_some ready ready' i h := by
    obtain ⟨last, hlast, heq⟩ := Option.map_eq_some_iff.mp h
    simp only [Prod.mk.injEq] at heq
    obtain ⟨rfl, rfl⟩ := heq
    have hne : ready ≠ [] := by
      rintro rfl
      simp at hlast
    rw [List.getLast?_eq_some_getLast hne, Option.some.injEq] at hlast
    conv_lhs => rw [← List.dropLast_append_getLast hne, hlast]
    exact List.perm_append_singleton _ _

variable (d : Dag n)

def pending : List Nat := d.dependencies.map SubGraph.len

/-- Emit ready nodes until none is left. -/
def linearize {Q : Type} (B : Bag Q) (fuel : Nat) : Option (Kahn Q) :=
  Kahn.run B (fun i => (setAt d.dependents i).iter) fuel (Kahn.start B d.pending)

/-- A valid execution order of the nodes, or `none` if the graph has a cycle. -/
def topologicalOrder (fuel : Nat) : Option (Option (List Nat)) :=
  (d.linearize (heap d.positions) fuel).map fun s => if s.order.length = n then some s.order else none

/-- Whether the graph can be linearized. The order has as many nodes as the loop visits. -/
def isAcyclic (fuel : Nat) : Option Bool :=
  (d.linearize stack fuel).map fun s => decide (s.order.length = n)

-- Reachability

/-- The node's set is taken out, absorbs those of its dependencies and is put back. -/
def absorbNode (ancestors : List SubGraph) (i : Nat) : SubGraph × List SubGraph :=
  let acc := setAt ancestors i
  let ancestors := ancestors.set i SubGraph.empty
  let acc := (setAt d.dependencies i).iter.foldl (fun acc j => acc.unionWith (setAt ancestors j)) acc
  (acc, ancestors.set i acc)

/-- One round over all nodes, and whether it changed a set. -/
def relax (ancestors : List SubGraph) : List SubGraph × Bool :=
  (List.range n).foldl (fun (ancestors, changed) i =>
    let before := (setAt ancestors i).len
    let (acc, ancestors) := d.absorbNode ancestors i
    (ancestors, changed || acc.len != before)) (ancestors, false)

/-- Relax the direct edges to a fixpoint. -/
def fixpoint : (fuel : Nat) → List SubGraph → Option (List SubGraph)
  | 0, _ => none
  | fuel + 1, ancestors =>
    let (ancestors, changed) := d.relax ancestors
    if changed then fixpoint fuel ancestors else some ancestors

def ancestors (fuel : Nat) : Option (List SubGraph) :=
  match d.topologicalOrder fuel with
  | none => none
  | some (some order) => some (order.foldl (fun ancestors i => (d.absorbNode ancestors i).2) d.dependencies)
  | some none => d.fixpoint fuel d.dependencies

end Dag

/-- `for (i, ancestors) in ancestors.iter().enumerate()`, from the sets of no descendants. -/
def transpose (n : Nat) (ancestors : List SubGraph) : List SubGraph :=
  ancestors.zipIdx.foldl (fun descendants (set, i) =>
    set.iter.foldl (fun descendants j => descendants.modify j (·.insert i)) descendants) (List.replicate n SubGraph.empty)

/-- Transitive reachability over a `Dag`. -/
structure Reachability where
  ancestors : List SubGraph
  descendants : List SubGraph

/-- Compute the transitive reachability of the graph. -/
def Dag.reachability {n : Nat} (d : Dag n) (fuel : Nat) : Option Reachability :=
  (d.ancestors fuel).map fun ancestors => { ancestors, descendants := transpose n ancestors }

/-- Whether contracting the two subgraphs into a single node keeps the graph acyclic. -/
def Reachability.canContract (r : Reachability) (a b : SubGraph) : Bool :=
  if a.isEmpty || b.isEmpty then false
  else
    let union := a.unionWith b
    let (ancestors, descendants) := union.iter.foldl
      (fun (ancestors, descendants) i =>
        (ancestors.unionWith (setAt r.ancestors i), descendants.unionWith (setAt r.descendants i)))
      (SubGraph.empty, SubGraph.empty)
    let between := (ancestors.intersectWith descendants).subtract union
    between.isEmpty

end Ruda.Fusion
