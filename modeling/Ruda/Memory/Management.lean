import Ruda.Memory.Adaptive

/-!
# Calls of the memory manager

A translation of `MemoryManagement` of `memory_manage.rs` with the adaptive layout:
every call, what owners of handles, guards and pins do between calls, and the states
that these reach from a new manager.
-/

namespace Ruda.Memory

open Mem

variable {σ : Type} (S : ComputeStorage σ)

namespace MemoryManagement

-- Making a manager

/-- `from_configuration` with `MemoryConfiguration::Adaptive`; `provided` is the mode that
the options fix. -/
def fromConfiguration (storage : σ) (heap : Heap) (properties : MemoryDeviceProperties) (config : PersistentMemory)
    (provided : Option MemoryAllocationMode) : Res IoError (MemoryManagement σ) := do
  let adaptive ← AdaptiveState.new properties
  let mode := provided.getD (if config = .enforced then .persistent else .auto)
  .ok { heap, storage
        calls := []
        dryRun := false
        recording := ∅
        captureAllocationsForbidden := false
        persistent := .new properties.maxPageSize properties.alignment 255
        dedicated := .new properties.maxPageSize properties.alignment
        pools := adaptive.layout
        adaptive
        allocReserveCount := 0
        mode
        baseMode := mode
        windows := []
        config }

-- Modes and cleanup

/-- `mode` -/
def setMode (mode : MemoryAllocationMode) : Mem σ Unit :=
  modify fun s =>
    let windows := match mode with
      | .auto => s.windows.dropLast
      | .persistent => s.windows ++ [if s.config = .enabled then mode else s.baseMode]
      | .dedicated => s.windows ++ [mode]
    { s with windows, mode := windows.getLast?.getD s.baseMode }

def cleanupPersistent (explicit : Bool) : Mem σ Unit := do
  let s ← get
  let (persistent, freed, heap) := s.persistent.cleanup explicit s.heap
  set { s with persistent, heap }
  deallocAll S freed
  if explicit then flushStorage S else pure ()

def reclaimDedicated : Mem σ Unit := do
  let s ← get
  let (dedicated, freed, reclaimed, heap) := s.dedicated.reclaim s.heap
  set { s with dedicated, heap }
  deallocAll S freed
  if reclaimed then flushStorage S else pure ()

def cleanupPools (explicit : Bool) : Mem σ Unit := do
  let s ← get
  forEach (cleanupAt S s.allocReserveCount explicit) (List.range s.pools.length)

def cleanup (explicit : Bool) : Mem σ Unit := do
  let s ← get
  if s.recording.isEmpty then do
    cleanupPersistent S explicit
    reclaimDedicated S
    cleanupPools S explicit
  else pure ()

def compact : Mem σ Unit := do
  let s ← get
  M.failIf (s.recording.isEmpty = false) "Cannot relocate memory during graph capture"
  compactAdaptive S
  cleanup S true

-- Finding allocations

def findIn (pool : DynamicPool) (location : MemoryLocation) : Mem σ Slice :=
  match pool with
  | .sliced pool => do
    let (page, _) ← M.expect pool.pages[location.page]? "index out of bounds"
    ofRes (page.findAt location)
  | .exclusive pool => ofRes (pool.findAt location)

def find (binding : ManagedMemoryHandle) : Mem σ Slice := do
  let s ← get
  let location := s.heap.location binding
  M.failIf (location.init = 0) "Memory allocation was not initialized"
  if location.init = 2 then ofRes (s.dedicated.find binding s.heap)
  else if s.pools.length % 2 ^ 8 ≤ location.pool then ofRes (s.persistent.findAt location)
  else do
    let pool ← M.need s.pools[location.pool]? s!"Pool {location.pool} doesn't exist"
    let slice ← findIn pool location
    if slice.handle = binding then pure slice else M.panic "assertion failed"

def materializeSlice (binding : ManagedMemoryHandle) : Mem σ Unit := do
  let s ← get
  M.failIf (s.captureAllocationsForbidden = true)
    "Cannot materialize a lazy page during allocation-free graph capture"
  let location := s.heap.location binding
  if location.init = 2 then do
    let slice ← ofRes (s.dedicated.find binding s.heap)
    let answer ← allocUnmapped S slice.mapped slice.effectiveSize
    let dedicated ← ofRes (s.dedicated.materialize binding answer s.heap)
    modify fun s => { s with dedicated }
  else if s.pools.length % 2 ^ 8 ≤ location.pool then do
    let slice ← ofRes (s.persistent.findAt location)
    let answer ← allocUnmapped S slice.mapped slice.effectiveSize
    let persistent ← ofRes (s.persistent.materialize binding answer s.heap)
    modify fun s => { s with persistent }
  else materializeAt S location.pool binding

def materialize (binding : ManagedMemoryHandle) : Mem σ Unit := do
  let slice ← find binding
  if slice.mapped then pure () else materializeSlice S binding

def getCursor (binding : ManagedMemoryHandle) : Mem σ Nat := do
  let slice ← find binding
  pure slice.cursor

def getStorage (binding : ManagedMemoryHandle) : Mem σ StorageHandle := do
  materialize S binding
  let slice ← find binding
  pure slice.storage

-- Captures

def touchCapture (owner : Nat) (binding : ManagedMemoryHandle) : Mem σ Unit := do
  materialize S binding
  let slice ← find binding
  modify fun s => match s.recording[owner]? with
    | none => s
    | some capture =>
      let pages := if capture.pages.contains slice.storage.id then capture.pages
        else capture.pages.insert slice.storage.id slice.page
      { s with recording := s.recording.insert owner { capture with pages } }

def beginCapture (owner : Nat) (forbidAllocations : Bool) : Mem σ Unit :=
  modify fun s =>
    let capture := s.recording[owner]?.getD ⟨false, ∅⟩
    { s with
      recording := s.recording.insert owner { capture with forbidAllocations := capture.forbidAllocations || forbidAllocations }
      captureAllocationsForbidden := s.captureAllocationsForbidden || forbidAllocations }

/-- The guards of the touched pages go to the caller. -/
def endCapture (owner : Nat) (retain : Bool) : Mem σ Unit :=
  modify fun s =>
    let recording := s.recording.erase owner
    let pages := match s.recording[owner]? with
      | some capture => if retain then capture.pages.toList.map Prod.snd else []
      | none => []
    { s with recording
             captureAllocationsForbidden := recording.toList.any fun capture => capture.2.forbidAllocations
             heap := pages.foldl Heap.guard s.heap }

-- Reserving

def relocationPending (s : MemoryManagement σ) (size : Nat) : Res IoError Bool :=
  if s.mode = .dedicated then .ok false
  else if s.recording.isEmpty = false then .ok false
  else s.adaptive.pending s.pools size s.heap

def allocDedicated (size : Nat) : Mem σ ManagedMemoryHandle := do
  let s ← get
  let total ← ofRes (s.dedicated.allocSize size)
  let storage ← allocateMapping S total
  let s ← get
  let (handle, dedicated, heap) ← ofRes (s.dedicated.alloc size (!s.dryRun) storage s.heap)
  set { s with dedicated, heap }
  pure handle

def reclaimUnlessRecording : Mem σ Unit := do
  let s ← get
  if s.recording.isEmpty then reclaimDedicated S else pure ()

def reserveDedicated (size : Nat) : Mem σ ManagedMemoryHandle := do
  let s ← get
  M.failIf (s.captureAllocationsForbidden = true)
    "Cannot create a dedicated allocation during allocation-free graph capture"
  reclaimUnlessRecording S
  allocDedicated S size

def reservePersistent (size : Nat) : Mem σ (Option ManagedMemoryHandle) := do
  let s ← get
  let (reserved, persistent, heap) ← ofRes (s.persistent.tryReserve size s.heap)
  set { s with persistent, heap }
  pure reserved

def allocPersistent (size : Nat) : Mem σ ManagedMemoryHandle := do
  let s ← get
  let total ← ofRes (s.persistent.allocSize size)
  let storage ← allocateMapping S total
  let s ← get
  let (handle, persistent, heap) ← ofRes (s.persistent.alloc size (!s.dryRun) storage s.heap)
  set { s with persistent, heap }
  pure handle

/-- `accept` of a pool -/
def accepts (pool : DynamicPool) (size : Nat) : Bool :=
  match pool with
  | .sliced pool => size ≤ pool.maxAllocSize || (size ≤ pool.pageSize && wrap64 ((pool.pageSize - size) * 5) < pool.pageSize)
  | .exclusive pool => size ≤ pool.maxAllocSize

/-- The first pool that accepts `size` and has room. -/
def reserveAccepting (size : Nat) : List Nat → Mem σ (Option ManagedMemoryHandle)
  | [] => pure none
  | index :: rest => do
    let pool ← poolAt index
    if accepts pool size then do
      match ← tryReserveAt index size with
      | some handle => pure (some handle)
      | none => reserveAccepting size rest
    else reserveAccepting size rest

/-- Only pages that are already held serve a capture that forbids allocations. -/
def reserveRecording (size : Nat) : Mem σ ManagedMemoryHandle := do
  match ← reservePersistent size with
  | some handle => pure handle
  | none => do
    let s ← get
    match ← reserveAccepting size (List.range s.pools.length) with
    | some handle => pure handle
    | none =>
      if s.captureAllocationsForbidden then
        M.fail s!"Graph capture needs {size} bytes not available in warmed allocation pages"
      else allocPersistent S size

def reserveDynamic (size : Nat) : Mem σ ManagedMemoryHandle := do
  modify fun s => { s with allocReserveCount := wrap64 (s.allocReserveCount + 1) }
  match ← reservePersistent size with
  | some handle => pure handle
  | none => do
    let s ← get
    let sized ← ofRes (s.persistent.hasSize size)
    if s.mode = .persistent ∨ sized then allocPersistent S size else reserveAdaptive S size

def reserve (size : Nat) : Mem σ ManagedMemoryHandle := do
  let s ← get
  if s.mode = .dedicated then reserveDedicated S size
  else if s.recording.isEmpty then reserveDynamic S size
  else reserveRecording S size

-- Binding

def bind (reserved assigned : ManagedMemoryHandle) (cursor : Nat) : Mem σ Unit := do
  let s ← get
  let location := s.heap.location reserved
  M.failIf (location.init = 0) "Reserved memory isn't initialized"
  if location.init = 2 then do
    let (dedicated, heap) ← ofRes (s.dedicated.bind reserved assigned cursor s.heap)
    set { s with dedicated, heap }
  else if s.pools.length ≤ location.pool then do
    let (persistent, heap) ← ofRes (s.persistent.bind reserved assigned cursor s.heap)
    set { s with persistent, heap }
  else bindAt location.pool reserved assigned cursor

-- Runs

inductive Op
  | mode (target : MemoryAllocationMode)
  | dryRun (on : Bool)
  | cleanup (explicit : Bool)
  | compact
  | getStorage (binding : ManagedMemoryHandle)
  | touchCapture (owner : Nat) (binding : ManagedMemoryHandle)
  | beginCapture (owner : Nat) (forbidAllocations : Bool)
  | endCapture (owner : Nat) (retain : Bool)
  | reserve (size : Nat)
  | bind (reserved assigned : ManagedMemoryHandle) (cursor : Nat)
  -- owners of handles, pins and guards
  | newHandle
  | clone (handle : ManagedMemoryHandle)
  | drop (handle : ManagedMemoryHandle)
  | pin (handle : ManagedMemoryHandle)
  | unpin (handle : ManagedMemoryHandle)
  | guard (page : PageRef)
  | unguard (page : PageRef)

/-- Only handles that exist are bound. -/
def Op.Allowed (s : MemoryManagement σ) : Op → Prop
  | .bind reserved assigned _ => reserved < s.heap.counter ∧ assigned < s.heap.counter
  | _ => True

def Op.run (op : Op) : Mem σ Unit := match op with
  | .mode target => setMode target
  | .dryRun on => modify fun s => { s with dryRun := on }
  | .cleanup explicit => MemoryManagement.cleanup S explicit
  | .compact => MemoryManagement.compact S
  | .getStorage binding => do
    let _ ← MemoryManagement.getStorage S binding
  | .touchCapture owner binding => MemoryManagement.touchCapture S owner binding
  | .beginCapture owner forbidAllocations => MemoryManagement.beginCapture owner forbidAllocations
  | .endCapture owner retain => MemoryManagement.endCapture owner retain
  | .reserve size => do
    let _ ← MemoryManagement.reserve S size
  | .bind reserved assigned cursor => MemoryManagement.bind reserved assigned cursor
  | .newHandle => modify fun s => { s with heap := s.heap.newHandle.2 }
  | .clone handle => modify fun s => { s with heap := s.heap.clone handle }
  | .drop handle => modify fun s => { s with heap := s.heap.drop handle }
  | .pin handle => modify fun s => { s with heap := s.heap.pin handle }
  | .unpin handle => modify fun s => { s with heap := s.heap.unpin handle }
  | .guard page => modify fun s => { s with heap := s.heap.guard page }
  | .unguard page => modify fun s => { s with heap := s.heap.unguard page }

/-- The states of an adaptive manager. A call that returns an error leaves what it has
done; owners outside may do more here than handles allow, which only adds states. -/
inductive Reachable : MemoryManagement σ → Prop
  | new {storage : σ} {heap : Heap} {properties : MemoryDeviceProperties} {config : PersistentMemory}
      {provided : Option MemoryAllocationMode} {s : MemoryManagement σ} :
      fromConfiguration storage heap properties config provided = .ok s → Reachable s
  /-- `storage()` hands the storage out. -/
  | touch {s : MemoryManagement σ} (storage : σ) : Reachable s → Reachable { s with storage }
  | step {s : MemoryManagement σ} (op : Op) : Reachable s → op.Allowed s → Reachable ((Op.run S op).next s)

end MemoryManagement

end Ruda.Memory
