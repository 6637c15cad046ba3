import Ruda.Lib.Exec
import Ruda.Memory.Pools

/-!
# The memory manager

A translation of `memory_manage.rs` for the adaptive layout: a storage with its
pools, and the calls that the storage sees. What the storage answers is up to it.
Logs are left out.
-/

namespace Ruda.Memory

/-- A call that changes the storage. -/
inductive StorageCall
  | alloc (size : Nat)
  | dealloc (id : StorageId)
  | flush
  | relocationBarrier
  | relocationCopyBatch (copies : List (StorageHandle × StorageHandle))
  | relocationComplete
  deriving DecidableEq, Repr

/-- The storage: its answers from its state. `false` is an error, and so is `none` of
`alloc`; an allocation ends in the address range. -/
structure ComputeStorage (σ : Type) where
  supportsRelocation : σ → Bool
  availableMemory : σ → Option Nat
  /-- `StorageId::new` -/
  newId : σ → StorageId × σ
  alloc : Nat → σ → Option StorageHandle × σ
  dealloc : StorageId → σ → σ
  flush : σ → σ
  relocationBarrier : σ → Bool × σ
  relocationCopyBatch : List (StorageHandle × StorageHandle) → σ → Bool × σ
  relocationComplete : σ → Bool × σ
  alloc_fits : ∀ size s handle, (alloc size s).1 = some handle → handle.offset + handle.size ≤ u64Max

inductive DynamicPool
  | sliced (pool : SlicedPool)
  | exclusive (pool : ExclusiveMemoryPool)

inductive MemoryAllocationMode
  | auto
  | persistent
  | dedicated
  deriving DecidableEq, Repr

inductive PersistentMemory
  | enabled
  | disabled
  | enforced
  deriving DecidableEq, Repr

structure MemoryCapture where
  forbidAllocations : Bool
  pages : BTreeMap PageRef

structure AdaptiveState where
  alignment : Nat
  maxPageSize : Nat
  minPageSize : Nat
  smallPageSize : Nat
  current : Nat
  outdated : List Nat
  stalled : List MemoryPage.RelocationInput
  stalledValid : Bool

structure MemoryManagement (σ : Type) where
  heap : Heap
  storage : σ
  calls : List StorageCall
  /-- `dry_run()`: pages are reserved without backing. -/
  dryRun : Bool
  recording : BTreeMap MemoryCapture
  captureAllocationsForbidden : Bool
  persistent : PersistentPool
  dedicated : DedicatedAllocations
  pools : List DynamicPool
  adaptive : AdaptiveState
  allocReserveCount : Nat
  mode : MemoryAllocationMode
  baseMode : MemoryAllocationMode
  windows : List MemoryAllocationMode
  config : PersistentMemory

abbrev Mem (σ : Type) := M (MemoryManagement σ)

def IoError.message : IoError → String
  | .unknown description => description
  | .notFound reason => reason
  | .bufferTooBig _ => "BufferTooBig"
  | .unsupportedIoOperation => "UnsupportedIoOperation"
  | .storage => "Storage"

variable {σ α : Type}

namespace Mem

def ofRes : Res IoError α → Mem σ α
  | .ok a => pure a
  | .error (.err e) => M.fail e.message
  | .error .panic => M.panic "panicked"

def onHeap (f : Heap → α × Heap) : Mem σ α := do
  let s ← get
  set { s with heap := (f s.heap).2 }
  pure (f s.heap).1

/-- The handles go out of scope. -/
def dropAll (handles : List ManagedMemoryHandle) : Mem σ Unit :=
  onHeap fun heap => ((), handles.foldl Heap.drop heap)

def onStorage (call : StorageCall) (f : σ → α × σ) : Mem σ α := do
  let s ← get
  set { s with storage := (f s.storage).2, calls := s.calls ++ [call] }
  pure (f s.storage).1

/-- The result as a value, for code that looks at it before `?`. -/
def attempt (m : Mem σ α) : Mem σ (Except String α) :=
  tryCatch (Except.ok <$> m) fun
    | .error message => pure (.error message)
    | .panic message => M.panic message

end Mem

open Mem

variable (S : ComputeStorage σ)

-- Storage

def deallocAll : List StorageId → Mem σ Unit
  | [] => pure ()
  | id :: rest => do
    onStorage (.dealloc id) fun storage => ((), S.dealloc id storage)
    deallocAll rest

def flushStorage : Mem σ Unit := onStorage .flush fun storage => ((), S.flush storage)

/-- `storage.alloc(..)?` -/
def allocStorage (size : Nat) : Mem σ StorageHandle := do
  let answer ← onStorage (.alloc size) (S.alloc size)
  M.need answer IoError.storage.message

def newStorageId : Mem σ StorageId := do
  let s ← get
  set { s with storage := (S.newId s.storage).2 }
  pure (S.newId s.storage).1

/-- `PageMapping::current().allocate(..)?` -/
def allocateMapping (size : Nat) : Mem σ StorageHandle := do
  let s ← get
  if s.dryRun then do
    let id ← newStorageId S
    pure ⟨id, ⟨0, size⟩⟩
  else allocStorage S size

-- Pools

def tryReserveIn (pool : DynamicPool) (size : Nat) : Mem σ (Option ManagedMemoryHandle × DynamicPool) := do
  let s ← get
  match pool with
  | .sliced pool => do
    let (reserved, pool, heap) ← ofRes (pool.tryReserve size s.heap)
    set { s with heap }
    pure (reserved, .sliced pool)
  | .exclusive pool => do
    let (reserved, pool, heap) ← ofRes (pool.tryReserve size s.heap)
    set { s with heap }
    pure (reserved, .exclusive pool)

def allocIn (pool : DynamicPool) (size : Nat) : Mem σ (ManagedMemoryHandle × DynamicPool) :=
  match pool with
  | .sliced pool => do
    M.failIf (u16Max < pool.pages.length) "Sliced pool page index capacity exhausted"
    let storage ← allocateMapping S pool.pageSize
    let s ← get
    let (handle, pool, heap) ← ofRes (pool.alloc size (!s.dryRun) (some storage) s.heap)
    set { s with heap }
    pure (handle, .sliced pool)
  | .exclusive pool => do
    let total ← ofRes (pool.allocSize size)
    let storage ← allocateMapping S total
    let s ← get
    let (handle, pool, heap) ← ofRes (pool.alloc size (!s.dryRun) storage s.heap)
    set { s with heap }
    pure (handle, .exclusive pool)

def cleanupIn (pool : DynamicPool) (allocNr : Nat) (explicit : Bool) : Mem σ DynamicPool := do
  let s ← get
  match pool with
  | .sliced pool => do
    let (pool, freed, heap) := pool.cleanup explicit s.heap
    set { s with heap }
    deallocAll S freed
    flushStorage S
    pure (.sliced pool)
  | .exclusive pool => do
    let (pool, freed, heap) := pool.cleanup allocNr explicit s.heap
    set { s with heap }
    deallocAll S freed
    flushStorage S
    pure (.exclusive pool)

def bindIn (pool : DynamicPool) (reserved assigned : ManagedMemoryHandle) (cursor : Nat) : Mem σ DynamicPool := do
  let s ← get
  match pool with
  | .sliced pool => do
    let (pool, heap) ← ofRes (pool.bind reserved assigned cursor s.heap)
    set { s with heap }
    pure (.sliced pool)
  | .exclusive pool => do
    let (pool, heap) ← ofRes (pool.bind reserved assigned cursor s.heap)
    set { s with heap }
    pure (.exclusive pool)

/-- The storage's answer for a slice that is not mapped yet. -/
def allocUnmapped (mapped : Bool) (size : Nat) : Mem σ (Option StorageHandle) :=
  if mapped then pure none else some <$> allocStorage S size

def materializeIn (pool : DynamicPool) (binding : ManagedMemoryHandle) : Mem σ DynamicPool := do
  let s ← get
  let location := s.heap.location binding
  match pool with
  | .sliced pool => do
    let (page, _) ← M.expect pool.pages[location.page]? "index out of bounds"
    let _ ← ofRes (page.findAt location)
    let answer ← allocUnmapped S page.mapped page.storage.size
    let (pool, _) ← ofRes (pool.materialize binding answer s.heap)
    pure (.sliced pool)
  | .exclusive pool => do
    let slice ← ofRes (pool.findAt location)
    let page ← M.expect pool.pages[location.page]? "index out of bounds"
    let answer ← allocUnmapped S slice.mapped page.allocSize
    let pool ← ofRes (pool.materialize binding answer s.heap)
    pure (.exclusive pool)

def poolAt (index : Nat) : Mem σ DynamicPool := do
  let s ← get
  M.expect s.pools[index]? "index out of bounds"

def setPool (index : Nat) (pool : DynamicPool) : Mem σ Unit :=
  modify fun s => { s with pools := s.pools.set index pool }

def slicedAt (index : Nat) : Mem σ SlicedPool := do
  match ← poolAt index with
  | .sliced pool => pure pool
  | .exclusive _ => M.panic "unreachable"

def tryReserveAt (index size : Nat) : Mem σ (Option ManagedMemoryHandle) := do
  let pool ← poolAt index
  let (reserved, pool) ← tryReserveIn pool size
  setPool index pool
  pure reserved

def allocAt (index size : Nat) : Mem σ ManagedMemoryHandle := do
  let pool ← poolAt index
  let (handle, pool) ← allocIn S pool size
  setPool index pool
  pure handle

def cleanupAt (allocNr : Nat) (explicit : Bool) (index : Nat) : Mem σ Unit := do
  let pool ← poolAt index
  let pool ← cleanupIn S pool allocNr explicit
  setPool index pool

def bindAt (index : Nat) (reserved assigned : ManagedMemoryHandle) (cursor : Nat) : Mem σ Unit := do
  let pool ← poolAt index
  let pool ← bindIn pool reserved assigned cursor
  setPool index pool

def materializeAt (index : Nat) (binding : ManagedMemoryHandle) : Mem σ Unit := do
  let pool ← poolAt index
  let pool ← materializeIn S pool binding
  setPool index pool

end Ruda.Memory
