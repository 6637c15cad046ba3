import Ruda.Lib.Bisect
import Ruda.Lib.OrdMap

/-!
# Execution orders

A translation of `search/graph/lifetime.rs` and of the operations of `search/graph/tensor.rs`.
An operation stands by its tensors and by what the graph tells apart of its kind.
-/

namespace Ruda.Fusion

inductive TensorStatus
  | readOnly | readWrite | notInit
  deriving DecidableEq

structure TensorIr where
  id : Nat
  status : TensorStatus
  deriving DecidableEq

inductive OperationKind
  | custom | floatRandom | intRandom | distributed | drop | other
  deriving DecidableEq

structure OperationIr where
  kind : OperationKind
  inputs : List TensorIr
  outputs : List TensorIr
  deriving DecidableEq

def orderedEffect (operation : OperationIr) : Bool :=
  match operation.kind with
  | .custom | .floatRandom | .intRandom | .distributed => true
  | .drop | .other => false

/-- One operation with its original source position. -/
structure OperationNode where
  operation : OperationIr
  position : Nat
  deriving DecidableEq

namespace OperationNode

def produced (n : OperationNode) : List Nat := n.operation.outputs.map TensorIr.id

def read (n : OperationNode) : List Nat := n.operation.inputs.map TensorIr.id

def freed (n : OperationNode) : List Nat :=
  (n.operation.inputs.filter fun tensor => n.operation.kind = .drop ∨ tensor.status = .readWrite).map TensorIr.id

def orderedRange (n : OperationNode) : Option (Nat × Nat) :=
  if orderedEffect n.operation then some (n.position, n.position) else none

end OperationNode

-- The check

/-- The first producer of a resource, and all of them where there are several. -/
structure Producers where
  producers : BTreeMap Nat
  repeated : BTreeMap (List Nat)

namespace Producers

def add (ps : Producers) (resource position : Nat) : Producers :=
  match ps.producers[resource]? with
  | none => { ps with producers := ps.producers.insert resource position }
  | some first =>
    if first ≠ position then
      { ps with repeated := ps.repeated.insert resource ((ps.repeated[resource]?.getD [first]) ++ [position]) }
    else ps

def ofOrder (order : List OperationNode) : Producers :=
  order.foldl (fun ps n => n.produced.foldl (fun ps resource => ps.add resource n.position) ps) ⟨∅, ∅⟩

/-- `Vec::dedup` -/
def dedup : List Nat → List Nat
  | [] => []
  | [a] => [a]
  | a :: b :: l => if a = b then dedup (b :: l) else a :: dedup (b :: l)

def sorted (ps : Producers) : Producers :=
  { ps with repeated := ps.repeated.map fun _ positions => dedup (positions.mergeSort fun a b => a ≤ b) }

/-- `partition_point` -/
def partitionPoint (positions : List Nat) (position : Nat) : Nat :=
  bisect (fun k => positions.getD k 0 < position) positions.length

/-- The producer that a read at `position` is to see. -/
def expected (ps : Producers) (resource position : Nat) : Option Nat :=
  match ps.repeated[resource]? with
  | some positions =>
    let before := partitionPoint positions position
    if before = 0 then none else positions[before - 1]?
  | none =>
    match ps.producers[resource]? with
    | some first => if first < position then some first else none
    | none => none

end Producers

structure Cursor where
  current : BTreeMap Nat
  dead : List Nat
  lastEffect : Option Nat

namespace Cursor

/-- `None` where an effect comes too late. -/
def enter (c : Cursor) (n : OperationNode) : Option Cursor :=
  match n.orderedRange with
  | some (first, last) =>
    match c.lastEffect with
    | some previous => if previous > first then none else some { c with lastEffect := some last }
    | none => some { c with lastEffect := some last }
  | none => some c

def readable (c : Cursor) (ps : Producers) (n : OperationNode) (resource : Nat) : Bool :=
  resource ∉ c.dead && c.current[resource]? == ps.expected resource n.position

def free (c : Cursor) (resource : Nat) : Cursor := { c with dead := resource :: c.dead }

def produce (c : Cursor) (position resource : Nat) : Cursor :=
  { c with dead := c.dead.filter (· ≠ resource), current := c.current.insert resource position }

def leave (c : Cursor) (n : OperationNode) : Cursor :=
  n.produced.foldl (fun c resource => c.produce n.position resource) (n.freed.foldl free c)

def check (ps : Producers) : Cursor → List OperationNode → Bool
  | _, [] => true
  | c, n :: order =>
    match c.enter n with
    | none => false
    | some c => n.read.all (c.readable ps n) && check ps (c.leave n) order

end Cursor

/-- Check actual reads against their source producer and last-use lifetimes. -/
def isValidExecutionOrder (order : List OperationNode) : Bool :=
  Cursor.check (Producers.ofOrder order).sorted ⟨∅, [], none⟩ order

-- What an order means

/-- The last producer of a resource among operations that were executed one after the other. -/
def lastProducer (done : List OperationNode) (resource : Nat) : Option Nat :=
  (done.filter fun n => resource ∈ n.produced).getLast?.map OperationNode.position

/-- What is executed before the operation. -/
def before (order : List OperationNode) (n : OperationNode) : List OperationNode :=
  order.takeWhile fun m => m.position ≠ n.position

/-- The version of a resource that the operation finds, `none` where it was there from the start. -/
def version (order : List OperationNode) (n : OperationNode) (resource : Nat) : Option Nat :=
  lastProducer (before order n) resource

/-- The resource was freed and not produced again. -/
def Stale (done : List OperationNode) (resource : Nat) : Prop :=
  ∃ a m b, done = a ++ m :: b ∧ resource ∈ m.freed ∧ resource ∉ m.produced ∧ ∀ x ∈ b, resource ∉ x.produced

/-- The operations in the order of the program. -/
def program (order : List OperationNode) : List OperationNode := order.mergeSort fun a b => a.position ≤ b.position

def effects (order : List OperationNode) : List Nat :=
  (order.filter fun n => orderedEffect n.operation).map OperationNode.position

end Ruda.Fusion
