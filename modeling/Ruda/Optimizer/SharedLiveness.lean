import Ruda.Lib.Machine
import Ruda.Lib.Worklist

/-!
# Shared memory liveness and allocation

The block-level liveness analysis of shared memory and the allocation of its byte
ranges, with the splitting of blocks at `free` markers that comes before. This is a
translation of `mod shared` in
`ruda-compiler/src/optimizer/analyses/liveness.rs` and of `split_free` in
`ruda-compiler/src/optimizer/control_flow.rs`.

Of an instruction only the variables its visitors see are kept, and of a variable
what `shared_memory` reads. The post order, the uniformity analysis, the index that
the graph gives a new node, and the iteration order of every hash map and set are
parameters. `usize` arithmetic wraps as in a release build; a missing map entry and
a zero alignment are the panics, modelled by `none`.
-/

namespace Ruda.Optimizer

abbrev NodeIndex := Nat
abbrev Id := Nat

inductive VariableKind
  | sharedArray (id : Id) (length unrollFactor : Nat) (alignment : Option Nat)
  | shared (id : Id)
  | other
  deriving DecidableEq

structure Variable where
  kind : VariableKind
  /-- `ty.size()` -/
  tySize : Nat
  deriving DecidableEq

/-- `visit_out` and `visit_operation` see the variables of an operation; they see none
of a `free` marker. -/
inductive Instruction
  | op (out : Option Variable) (reads : List Variable)
  | free (var : Variable)
  deriving DecidableEq

/-- `unreachable` says that the control flow is `Unreachable`. -/
structure BasicBlock where
  ops : List Instruction
  unreachable : Bool
  deriving DecidableEq

/-- A control flow graph. -/
structure Program where
  nodeIds : List NodeIndex
  entry : NodeIndex
  edges : List (NodeIndex × NodeIndex)
  block : NodeIndex → BasicBlock
  nodup : nodeIds.Nodup
  entry_mem : entry ∈ nodeIds
  edges_mem : ∀ e ∈ edges, e.1 ∈ nodeIds ∧ e.2 ∈ nodeIds
  /-- Nothing follows an `Unreachable` block. -/
  ends : ∀ e ∈ edges, (block e.1).unreachable = false

namespace Program

def successors (P : Program) (b : NodeIndex) : List NodeIndex :=
  (P.edges.filter fun e => e.1 = b).map Prod.snd

def predecessors (P : Program) (b : NodeIndex) : List NodeIndex :=
  ((P.edges.filter fun e => e.2 = b).map Prod.fst).filter fun p => !(P.block p).unreachable

theorem mem_successors {P : Program} {b c : NodeIndex} : c ∈ P.successors b ↔ (b, c) ∈ P.edges := by
  simp [successors]

theorem mem_predecessors {P : Program} {b c : NodeIndex} : c ∈ P.predecessors b ↔ (c, b) ∈ P.edges := by
  have hmem : c ∈ (P.edges.filter fun e => e.2 = b).map Prod.fst ↔ (c, b) ∈ P.edges := by simp
  rw [predecessors, List.mem_filter, hmem]
  exact ⟨And.left, fun h => ⟨h, by simpa using P.ends _ h⟩⟩

-- Splitting at `free`

def isFree : Instruction → Bool
  | .free _ => true
  | .op .. => false

/-- Split block `b` after its first `n` instructions; `new` is the index that the graph
gives the new node. -/
def splitBlockAfter (P : Program) (b : NodeIndex) (n : Nat) (hb : b ∈ P.nodeIds) (new : NodeIndex)
    (hnew : new ∉ P.nodeIds) : Program where
  nodeIds := P.nodeIds.orderedInsert (· ≤ ·) new
  entry := P.entry
  edges := P.edges.filter (fun e => e.1 ≠ b) ++ (b, new) :: (P.successors b).map fun c => (new, c)
  block := Function.update (Function.update P.block b
    { ops := (P.block b).ops.take n, unreachable := false })
    new { ops := (P.block b).ops.drop n, unreachable := (P.block b).unreachable }
  nodup := (List.perm_orderedInsert _ _ _).nodup_iff.mpr (List.nodup_cons.mpr ⟨hnew, P.nodup⟩)
  entry_mem := (List.perm_orderedInsert _ _ _).mem_iff.mpr (List.mem_cons_of_mem _ P.entry_mem)
  edges_mem := by
    have hold : ∀ c ∈ P.nodeIds, c ∈ P.nodeIds.orderedInsert (· ≤ ·) new := fun c hc =>
      (List.perm_orderedInsert _ _ _).mem_iff.mpr (List.mem_cons_of_mem _ hc)
    have hnew' : new ∈ P.nodeIds.orderedInsert (· ≤ ·) new :=
      (List.perm_orderedInsert _ _ _).mem_iff.mpr List.mem_cons_self
    intro e he
    simp only [List.mem_append, List.mem_filter, List.mem_cons, List.mem_map] at he
    rcases he with ⟨he, -⟩ | rfl | ⟨c, hc, rfl⟩
    · exact ⟨hold _ (P.edges_mem e he).1, hold _ (P.edges_mem e he).2⟩
    · exact ⟨hold _ hb, hnew'⟩
    · exact ⟨hnew', hold _ (P.edges_mem _ (mem_successors.mp hc)).2⟩
  ends := by
    have hne : b ≠ new := fun h => hnew (h ▸ hb)
    intro e he
    simp only [List.mem_append, List.mem_filter, List.mem_cons, List.mem_map] at he
    rcases he with ⟨he, heb⟩ | rfl | ⟨c, hc, rfl⟩
    · have he1 : e.1 ≠ new := fun h => hnew (h ▸ (P.edges_mem e he).1)
      have he2 : e.1 ≠ b := by simpa using heb
      simpa [Function.update_of_ne he1, Function.update_of_ne he2] using P.ends e he
    · simp [Function.update_of_ne hne]
    · simpa using P.ends _ (mem_successors.mp hc)

/-- Where block `b` is split next: before its first `free`, or right after it. -/
def splitPoint (ops : List Instruction) : Option Nat :=
  match ops.findIdx? isFree with
  | none => none
  | some idx => if 0 < idx then some idx else if idx < ops.length - 1 then some (idx + 1) else none

/-- The first block with a `free` that is not alone, and where to split it. -/
def splitSite (P : Program) : List {b // b ∈ P.nodeIds} → Option ({b // b ∈ P.nodeIds} × Nat)
  | [] => none
  | b :: rest =>
    match splitPoint (P.block b).ops with
    | some n => some (b, n)
    | none => P.splitSite rest

/-- A graph's choice of index for a new node. -/
structure Fresh where
  index : List NodeIndex → NodeIndex
  fresh : ∀ l, index l ∉ l

def splitFreeInner (fresh : Fresh) (P : Program) : Option Program :=
  (P.splitSite P.nodeIds.attach).map fun site =>
    P.splitBlockAfter site.1 site.2 site.1.2 (fresh.index P.nodeIds) (fresh.fresh P.nodeIds)

/-- The `while` loop, for at most `n` rounds. -/
def splitFreeFor (fresh : Fresh) : (n : Nat) → Program → Program
  | 0, P => P
  | n + 1, P =>
    match P.splitFreeInner fresh with
    | some P' => splitFreeFor fresh n P'
    | none => P

/-- Every round leaves one instruction less to split off. -/
def splitFree (fresh : Fresh) (P : Program) : Program :=
  P.splitFreeFor fresh (P.nodeIds.map fun b => (P.block b).ops.length).sum

end Program

-- Shared memories

inductive SharedMemory
  | array (id length tySize align : Nat)
  | value (id tySize align : Nat)
  deriving DecidableEq

namespace SharedMemory

def id : SharedMemory → Id
  | array id .. => id
  | value id .. => id

def size : SharedMemory → Nat
  | array _ length tySize _ => wrap64 (length * tySize)
  | value _ tySize _ => tySize

def align : SharedMemory → Nat
  | array _ _ _ align => align
  | value _ _ align => align

end SharedMemory

structure SmemAllocation where
  smem : SharedMemory
  offset : Nat
  deriving DecidableEq

def sharedMemory (var : Variable) : Option SharedMemory :=
  match var.kind with
  | .sharedArray id length unrollFactor alignment =>
    some (.array id (wrap64 (length * unrollFactor)) var.tySize (alignment.getD var.tySize))
  | .shared id => some (.value id var.tySize var.tySize)
  | .other => none

/-- The shared memories that the visitors of an instruction see. -/
def Instruction.memories : Instruction → List SharedMemory
  | .op out reads => (out.toList ++ reads).filterMap sharedMemory
  | .free _ => []

structure BlockSets where
  generated : Finset Id
  kill : Finset Id

/-- One instruction of `calculate_block_sets`. -/
def BlockSets.visit (sets : BlockSets) (inst : Instruction) : BlockSets :=
  let sets := { sets with generated := sets.generated ∪ (inst.memories.map SharedMemory.id).toFinset }
  match inst with
  | .free var =>
    match var.kind with
    | .sharedArray id .. | .shared id =>
      { generated := sets.generated.erase id, kill := insert id sets.kill }
    | .other => sets
  | .op .. => sets

/-- Any use makes a shared memory live, while `free` kills it. -/
def calculateBlockSets (ops : List Instruction) : BlockSets :=
  ops.foldl BlockSets.visit { generated := ∅, kill := ∅ }

/-- `calculate_block_sets` runs once for each block, when the queue first comes to it,
and collects its shared memories: the queue starts with every block once. -/
def collectSharedMemories (P : Program) (blocks : List NodeIndex) : BTreeMap SharedMemory :=
  blocks.foldl (fun memories b =>
    ((P.block b).ops.flatMap Instruction.memories).foldl (fun memories smem =>
      memories.insert smem.id smem) memories) ∅

-- Liveness

namespace Program

/-- `analyze_block` -/
def livenessFlow (P : Program) : Flow NodeIndex Id where
  transfer b liveVars := (calculateBlockSets (P.block b).ops).generated ∪
    (P.predecessors b).toFinset.biUnion fun p => liveVars p \ (calculateBlockSets (P.block b).ops).kill
  dependents := P.successors

/-- `uniformize_block`: divergent liveness extends to the block before. -/
def uniformFlow (P : Program) (uniform : NodeIndex → Bool) : Flow NodeIndex Id where
  transfer b liveVars := liveVars b ∪
    ((P.successors b).filter fun c => !uniform c).toFinset.biUnion liveVars
  dependents := P.predecessors

/-- All ids a block set can hold. -/
def ids (P : Program) : Finset Id :=
  P.nodeIds.toFinset.biUnion fun b => (((P.block b).ops.flatMap Instruction.memories).map SharedMemory.id).toFinset

/-- The loop over a worklist, for as many rounds as it can have. -/
def solve (P : Program) (F : Flow NodeIndex Id) (w : Work NodeIndex Id) : Work NodeIndex Id :=
  F.run (F.potential P.nodeIds.toFinset P.ids w) w

/-- `postOrder` is the post order of the blocks. -/
def analyzeLiveness (P : Program) (postOrder : List NodeIndex) : NodeIndex → Finset Id :=
  (P.solve P.livenessFlow { worklist := postOrder.reverse, value := fun _ => ∅ }).value

def uniformizeLiveness (P : Program) (postOrder : List NodeIndex) (uniform : NodeIndex → Bool)
    (liveVars : NodeIndex → Finset Id) : NodeIndex → Finset Id :=
  (P.solve (P.uniformFlow uniform) { worklist := postOrder, value := liveVars }).value

end Program

-- Allocation

/-- `a.next_multiple_of(b)`, which panics at zero. -/
def nextMultipleOf (a b : Nat) : Option Nat :=
  if b = 0 then none else some (if a % b = 0 then a else wrap64 (a + (b - a % b)))

/-- The orders in which hash sets and maps are iterated. -/
structure HashOrder where
  ids : NodeIndex → Finset Id → List Id
  ids_nodup : ∀ b s, (ids b s).Nodup
  mem_ids : ∀ b s x, x ∈ ids b s ↔ x ∈ s
  slices : NodeIndex → List (Id × SmemAllocation) → List (Id × SmemAllocation)
  slices_perm : ∀ b l, (slices b l).Perm l

/-- The allocations that are live among `live`, sorted by offset. -/
def liveSlices (order : HashOrder) (b : NodeIndex) (live : Finset Id) (allocations : BTreeMap SmemAllocation) :
    List SmemAllocation :=
  (((order.slices b allocations.toList).filter fun e => e.1 ∈ live).map Prod.snd).insertionSort
    fun a b => a.offset ≤ b.offset

/-- A gap between two slices, or the end of the last one. -/
def allocateSlice (size align : Nat) : List SmemAllocation → Option Nat
  | [] => some 0
  | [last] => nextMultipleOf (wrap64 (last.offset + last.smem.size)) align
  | slice0 :: slice1 :: rest => do
    let end0 ← nextMultipleOf (wrap64 (slice0.offset + slice0.smem.size)) align
    if size ≤ slice1.offset - end0 then some end0 else allocateSlice size align (slice1 :: rest)

/-- One live memory of block `b`. -/
def allocateIn (order : HashOrder) (sharedMemories : BTreeMap SharedMemory) (b : NodeIndex)
    (live : Finset Id) (allocations : BTreeMap SmemAllocation) (id : Id) : Option (BTreeMap SmemAllocation) :=
  if allocations.contains id then some allocations
  else do
    let smem ← sharedMemories[id]?
    let offset ← allocateSlice smem.size smem.align (liveSlices order b live allocations)
    some (allocations.insert smem.id { smem, offset })

def allocateSlices (order : HashOrder) (sharedMemories : BTreeMap SharedMemory)
    (liveVars : NodeIndex → Finset Id) (blocks : List NodeIndex) : Option (BTreeMap SmemAllocation) :=
  blocks.foldlM (fun allocations b =>
    (order.ids b (liveVars b)).foldlM (allocateIn order sharedMemories b (liveVars b)) allocations) ∅

structure SharedLiveness where
  liveVars : NodeIndex → Finset Id
  sharedMemories : BTreeMap SharedMemory
  allocations : BTreeMap SmemAllocation

/-- `SharedLiveness::init` -/
def SharedLiveness.init (P : Program) (postOrder : List NodeIndex) (uniform : NodeIndex → Bool)
    (order : HashOrder) : Option SharedLiveness := do
  let sharedMemories := collectSharedMemories P postOrder.reverse
  let liveVars := P.uniformizeLiveness postOrder uniform (P.analyzeLiveness postOrder)
  let allocations ← allocateSlices order sharedMemories liveVars P.nodeIds
  some { liveVars, sharedMemories, allocations }

end Ruda.Optimizer
