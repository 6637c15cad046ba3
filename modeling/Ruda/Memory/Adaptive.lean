import Ruda.Memory.Manager

/-!
# The adaptive layout

A translation of `adaptive.rs`. A request that outgrows the current page size opens a pool
of larger pages, and live allocations of outdated pools move into it.
-/

namespace Ruda.Memory

open Mem

def mib : Nat := 1024 * 1024
def smallSlice : Nat := 64 * 1024
def arenaStart : Nat := 2
def arenaSlots : Nat := 64

/-- `MemoryDeviceProperties`, whose fields are `u64`. -/
structure MemoryDeviceProperties where
  maxPageSize : Nat
  alignment : Nat
  maxPageSize_le : maxPageSize ≤ u64Max
  alignment_le : alignment ≤ u64Max

inductive TargetRoom
  | held
  | mayAllocate
  deriving DecidableEq, Repr

structure Relocation where
  copy : Bool
  allocation : ManagedMemoryHandle
  target : ManagedMemoryHandle
  source : StorageHandle
  destination : StorageHandle
  cursor : Nat

namespace AdaptiveState

/-- `size.max(alignment).next_multiple_of(alignment).min(max_page_size)` -/
def aligned (alignment maxPageSize size : Nat) : Res IoError Nat := do
  let size ← nextMultipleOf (max size alignment) alignment
  .ok (min size maxPageSize)

def new (properties : MemoryDeviceProperties) : Res IoError AdaptiveState := do
  let alignment := properties.alignment
  if alignment = 0 then .error .panic
  else
    let maxPageSize := properties.maxPageSize / alignment * alignment
    if maxPageSize = 0 then .error .panic
    else do
      let minPageSize ← aligned alignment maxPageSize (2 * mib)
      let smallPageSize ← aligned alignment maxPageSize (8 * mib)
      .ok ⟨alignment, maxPageSize, minPageSize, smallPageSize, arenaStart, [], [], false⟩

/-- `pool_options`, with the pools that `from_configuration` makes of them. -/
def layout (state : AdaptiveState) : List DynamicPool :=
  [.exclusive (.new 0 state.alignment u64Max 0),
    .sliced (.new state.smallPageSize (min smallSlice state.smallPageSize) state.alignment 1),
    .sliced (.new state.minPageSize state.minPageSize state.alignment 2)]

def metadataPool (state : AdaptiveState) (size : Nat) : Option Nat :=
  if size = 0 then some 0
  else if size ≤ min smallSlice state.smallPageSize then some 1
  else none

end AdaptiveState

variable {σ : Type} (S : ComputeStorage σ)

def modifyAdaptive (f : AdaptiveState → AdaptiveState) : Mem σ Unit :=
  modify fun s => { s with adaptive := f s.adaptive }

def checkRelocation : Mem σ Unit := do
  let s ← get
  M.failIf (¬S.supportsRelocation s.storage) IoError.unsupportedIoOperation.message

-- Outdated pools

def forEach (f : Nat → Mem σ Unit) : List Nat → Mem σ Unit
  | [] => pure ()
  | index :: rest => do
    f index
    forEach f rest

def isVacant : Option DynamicPool → Bool
  | some (.sliced pool) => pool.pages.isEmpty
  | _ => false

def cleanupOutdated : Mem σ Unit := do
  let s ← get
  forEach (cleanupAt S 0 true) s.adaptive.outdated
  modify fun s => { s with
    adaptive := { s.adaptive with outdated := s.adaptive.outdated.filter fun index => !isVacant s.pools[index]? } }

def sumPages : List Nat → Mem σ Nat
  | [] => pure 0
  | index :: rest => do
    let pool ← slicedAt index
    let others ← sumPages rest
    pure (pool.pages.length + others)

def outdatedPages : Mem σ Nat := do
  let s ← get
  sumPages s.adaptive.outdated

-- Relocation

def offeredPages : List Nat → Mem σ (List MemoryPage.RelocationPage)
  | [] => pure []
  | index :: rest => do
    let pool ← slicedAt index
    let pages ← onHeap (SlicedPool.relocationPages pool.pages)
    let others ← offeredPages rest
    pure (pages ++ others)

/-- The target of one move, and the last error of allocating one. -/
def findTarget (room : TargetRoom) (size : Nat) (error : Option String) :
    Mem σ (Option ManagedMemoryHandle × Option String) := do
  let s ← get
  match ← tryReserveAt s.adaptive.current size with
  | some target => pure (some target, error)
  | none =>
    match room with
    | .held => pure (none, error)
    | .mayAllocate => do
      match ← attempt (allocAt S s.adaptive.current size) with
      | .ok target => pure (some target, error)
      | .error message => pure (none, some message)

/-- `pools[current].find_at(target location)?.storage` -/
def targetStorage (target : ManagedMemoryHandle) : Mem σ StorageHandle := do
  let s ← get
  let pool ← slicedAt s.adaptive.current
  let location := s.heap.location target
  let (page, _) ← M.expect pool.pages[location.page]? "index out of bounds"
  let slice ← ofRes (page.findAt location)
  pure slice.storage

def Relocation.handles (relocation : Relocation) : List ManagedMemoryHandle := [relocation.allocation, relocation.target]

def moveHandles (moves : List Relocation) : List ManagedMemoryHandle := moves.flatMap Relocation.handles

/-- The moves of one page: all of its allocations or none. -/
def planPage (room : TargetRoom) (mapped : Bool) :
    List (ManagedMemoryHandle × StorageHandle × Nat) → List Relocation → Option String →
      Mem σ (List Relocation × Option String)
  | [], moves, error => pure (moves, error)
  | (allocation, source, cursor) :: rest, moves, error => do
    match ← findTarget S room source.size error with
    | (none, error) => do
      dropAll (moveHandles moves ++ allocation :: rest.map Prod.fst)
      pure ([], error)
    | (some target, error) => do
      let destination ← M.onError (targetStorage target)
        (dropAll (moveHandles moves ++ target :: allocation :: rest.map Prod.fst))
      planPage room mapped rest (moves ++ [⟨mapped, allocation, target, source, destination, cursor⟩]) error

def pageHandles (pages : List MemoryPage.RelocationPage) : List ManagedMemoryHandle :=
  pages.flatMap fun page => page.allocations.map Prod.fst

def planPages (room : TargetRoom) :
    List MemoryPage.RelocationPage → List Relocation → Option String → Mem σ (List Relocation × Option String)
  | [], moves, error => pure (moves, error)
  | page :: rest, moves, error => do
    let (planned, error) ← M.onError (planPage S room page.mapped page.allocations [] error)
      (dropAll (moveHandles moves ++ pageHandles rest))
    planPages room rest (moves ++ planned) error

/-- Targets of copied moves are given backing, and their storage is read again. -/
def backTargets : List Relocation → Mem σ (List Relocation)
  | [] => pure []
  | relocation :: rest =>
    if relocation.copy then do
      let s ← get
      materializeAt S s.adaptive.current relocation.target
      let destination ← targetStorage relocation.target
      let others ← backTargets rest
      pure ({ relocation with destination } :: others)
    else do
      let others ← backTargets rest
      pure (relocation :: others)

def barrier : Mem σ Unit := do
  let done ← onStorage .relocationBarrier S.relocationBarrier
  M.failIf (done = false) IoError.storage.message

/-- A failed wait leaks the moves; a failed copy is reported after the wait. -/
def copyMoves (moves : List Relocation) : Mem σ Unit := do
  M.onError (barrier S) (dropAll (moveHandles moves))
  let copies := (moves.filter Relocation.copy).map fun relocation => (relocation.source, relocation.destination)
  let copied ← onStorage (.relocationCopyBatch copies) (S.relocationCopyBatch copies)
  let completed ← onStorage .relocationComplete S.relocationComplete
  M.failIf (completed = false) IoError.storage.message
  M.onError (M.failIf (copied = false) IoError.storage.message) (dropAll (moveHandles moves))

def releaseAt (index : Nat) (allocation : ManagedMemoryHandle) : Mem σ Unit := do
  let pool ← slicedAt index
  let s ← get
  let (pool, heap) ← ofRes (pool.releaseRelocated allocation s.heap)
  set { s with heap, pools := s.pools.set index (.sliced pool) }

def finishMoves : List Relocation → Mem σ Unit
  | [] => pure ()
  | relocation :: rest => do
    let s ← get
    M.onError (releaseAt (s.heap.location relocation.allocation).pool relocation.allocation)
      (dropAll (moveHandles (relocation :: rest)))
    M.onError (bindAt s.adaptive.current relocation.target relocation.allocation relocation.cursor)
      (dropAll (moveHandles rest))
    finishMoves rest

/-- With nothing to move, empty pages are all that can be reclaimed. -/
def reclaimEmpty (pagesBefore : Nat) (allocationError : Option String) : Mem σ Bool := do
  cleanupOutdated S
  let pages ← outdatedPages
  match allocationError with
  | some message => if pages < pagesBefore then pure true else M.fail message
  | none => pure (decide (pages < pagesBefore))

/-- Sources without backing move without a copy. -/
def moveAll (moves : List Relocation) : Mem σ Unit :=
  if moves.any Relocation.copy then do
    let backed ← M.onError (backTargets S moves) (dropAll (moveHandles moves))
    copyMoves S backed
    finishMoves backed
  else finishMoves moves

def relocatePages (room : TargetRoom) : Mem σ Bool := do
  checkRelocation S
  let pagesBefore ← outdatedPages
  let s ← get
  let pages ← offeredPages s.adaptive.outdated
  let pages := pages.mergeSort fun page other => decide (page.liveBytes ≤ other.liveBytes)
  let (moves, allocationError) ← planPages S room pages [] none
  if moves.isEmpty then reclaimEmpty S pagesBefore allocationError
  else do
    moveAll S moves
    cleanupOutdated S
    flushStorage S
    let pages ← outdatedPages
    pure (decide (pages < pagesBefore))

def relocateInner (room : TargetRoom) : Mem σ Bool := do
  let s ← get
  if s.adaptive.outdated.isEmpty then pure false else relocatePages S room

def cleanupTarget (room : TargetRoom) : Mem σ Unit := do
  let s ← get
  match room with
  | .held => pure ()
  | .mayAllocate => cleanupAt S 0 true s.adaptive.current

def relocate (room : TargetRoom) : Mem σ Bool := do
  let result ← attempt (relocateInner S room)
  cleanupTarget S room
  match result with
  | .ok false => pure false
  | .ok true => do
    modifyAdaptive fun state => { state with stalledValid := false }
    pure true
  | .error message => do
    modifyAdaptive fun state => { state with stalledValid := false }
    M.fail message

def compactAdaptive : Mem σ Unit := do
  cleanupOutdated S
  let _ ← relocate S .held

-- Pressure

def outdatedItems : List Nat → Mem σ (List MemoryPage.InputItem)
  | [] => pure []
  | index :: rest => do
    let pool ← slicedAt index
    let s ← get
    let others ← outdatedItems rest
    pure (.input (.pool index) :: pool.relocationInputs true s.heap ++ others)

def relocationItems : Mem σ (List MemoryPage.InputItem) := do
  let s ← get
  let pool ← slicedAt s.adaptive.current
  let others ← outdatedItems s.adaptive.outdated
  pure (.input (.pool s.adaptive.current) :: pool.relocationInputs false s.heap ++ others)

def takeItems : List MemoryPage.InputItem → Mem σ (List MemoryPage.RelocationInput)
  | [] => pure []
  | item :: rest => do
    let input ← onHeap item.take
    let others ← takeItems rest
    pure (input :: others)

/-- `Iterator::eq`, which takes items up to the first that differs. -/
def itemsEqual : List MemoryPage.RelocationInput → List MemoryPage.InputItem → Mem σ Bool
  | [], [] => pure true
  | [], item :: _ => do
    let _ ← onHeap item.take
    pure false
  | _ :: _, [] => pure false
  | input :: inputs, item :: rest => do
    let taken ← onHeap item.take
    if input = taken then itemsEqual inputs rest else pure false

def stalledMatches : Mem σ Bool := do
  let items ← relocationItems
  let s ← get
  itemsEqual s.adaptive.stalled items

def stalledStill : Mem σ Bool := do
  let s ← get
  if s.adaptive.stalledValid then stalledMatches else pure false

/-- An allocation whose pin revision is at the maximum cannot be told apart later. -/
def isCacheable (inputs : List MemoryPage.RelocationInput) : Bool :=
  !inputs.any fun
    | .allocation _ _ _ pinRevision => pinRevision = usizeMax
    | _ => false

/-- Whether a relocation that reclaimed nothing would see the same inputs again. -/
def stalledAgain (reclaimed : Bool) (inputs : List MemoryPage.RelocationInput) : Mem σ Bool :=
  if !reclaimed && isCacheable inputs then stalledMatches else pure false

def relocateStalled : Mem σ Bool := do
  modifyAdaptive fun state => { state with stalledValid := false, stalled := [] }
  let items ← relocationItems
  let inputs ← takeItems items
  modifyAdaptive fun state => { state with stalled := inputs }
  let reclaimed ← relocate S .held
  let valid ← stalledAgain reclaimed inputs
  modifyAdaptive fun state => { state with stalledValid := valid }
  pure reclaimed

def relieve : Mem σ Bool := do
  if ← stalledStill then do
    let s ← get
    if S.supportsRelocation s.storage then pure false
    else do
      modifyAdaptive fun state => { state with stalledValid := false }
      M.fail IoError.unsupportedIoOperation.message
  else relocateStalled S

def underPressure (pageSize : Nat) : Option Nat → Bool
  | some free => free - pageSize < pageSize
  | none => false

def relievePressure (pageSize : Nat) : Mem σ Bool := do
  let s ← get
  if s.adaptive.outdated.isEmpty then pure false
  else if underPressure pageSize (S.availableMemory s.storage) then relieve S
  else pure false

-- Reserving

/-- `checked_next_multiple_of` of a nonzero multiple -/
def checkedNextMultipleOf (value multiple : Nat) : Option Nat :=
  if multiple = 0 then none
  else if value % multiple = 0 then some value
  else checkedAdd value (multiple - value % multiple)

/-- The page size of a pool made for `size`. -/
def largerPageSize (state : AdaptiveState) (size : Nat) : Nat :=
  let wanted := ((checkedNextMultipleOf (min (size + mib) u64Max) mib).bind fun size =>
    checkedNextMultipleOf size state.alignment).getD state.maxPageSize
  min (max wanted state.minPageSize) state.maxPageSize

def vacantFrom (pools : List DynamicPool) : Option Nat :=
  ((List.range pools.length).drop arenaStart).find? fun index => isVacant pools[index]?

/-- The slot of a new pool: a vacant one, a new one, or one that relocation empties. -/
def chooseSlot : Mem σ Nat := do
  let s ← get
  match vacantFrom s.pools with
  | some index => pure index
  | none =>
    if s.pools.length < arenaStart + arenaSlots then pure s.pools.length
    else do
      let _ ← relocate S .mayAllocate
      let s ← get
      M.need (vacantFrom s.pools) "Adaptive page-size slots are all occupied by live allocations"

/-- A failed allocation is tried once more when relocation reclaims pages. -/
def allocRetry (pool : DynamicPool) (size : Nat) : Mem σ (ManagedMemoryHandle × DynamicPool) := do
  match ← attempt (allocIn S pool size) with
  | .ok allocated => pure allocated
  | .error message => do
    if ← relocate S .held then allocIn S pool size else M.fail message

/-- The new pool takes its slot and becomes the current one. -/
def install (index : Nat) (pool : DynamicPool) : Mem σ Unit :=
  modify fun s => { s with
    pools := if index = s.pools.length then s.pools ++ [pool] else s.pools.set index pool
    adaptive := { s.adaptive with
      outdated := if index ≠ s.adaptive.current then s.adaptive.outdated ++ [s.adaptive.current] else s.adaptive.outdated
      current := index } }

def reserveLarger (size : Nat) : Mem σ ManagedMemoryHandle := do
  cleanupOutdated S
  let s ← get
  let pageSize := largerPageSize s.adaptive size
  let _ ← relievePressure S pageSize
  let index ← chooseSlot S
  let s ← get
  let (allocated, pool) ← allocRetry S (.sliced (.new pageSize pageSize s.adaptive.alignment (index % 2 ^ 8))) size
  install index pool
  let _ ← M.onError (relocate S .held) (dropAll [allocated])
  pure allocated

/-- Room found on the second look, after pressure was relieved. -/
def reserveRelieved (current pageSize size : Nat) : Mem σ (Option ManagedMemoryHandle) := do
  if ← relievePressure S pageSize then tryReserveAt current size else pure none

/-- A page is allocated; a failure is made good from what relocation reclaims. -/
def reservePage (current size : Nat) : Mem σ ManagedMemoryHandle := do
  match ← attempt (allocAt S current size) with
  | .ok handle => do
    let _ ← M.onError (relocate S .held) (dropAll [handle])
    pure handle
  | .error message => do
    let reclaimed ← relocate S .held
    match ← tryReserveAt current size with
    | some handle => pure handle
    | none => if reclaimed then allocAt S current size else M.fail message

def reserveCurrent (current pageSize size : Nat) : Mem σ ManagedMemoryHandle := do
  match ← tryReserveAt current size with
  | some handle => pure handle
  | none =>
    match ← reserveRelieved S current pageSize size with
    | some handle => pure handle
    | none => reservePage S current size

def reserveIndexed (index size : Nat) : Mem σ ManagedMemoryHandle := do
  match ← tryReserveAt index size with
  | some handle => pure handle
  | none => allocAt S index size

def reserveAdaptive (size : Nat) : Mem σ ManagedMemoryHandle := do
  checkRelocation S
  let s ← get
  let padding ← ofRes (calculatePadding size s.adaptive.alignment)
  let needed ← M.need ((checkedAdd size padding).filter fun needed => decide (needed ≤ s.adaptive.maxPageSize))
    (IoError.bufferTooBig size).message
  match s.adaptive.metadataPool size with
  | some index => reserveIndexed S index size
  | none => do
    let pool ← slicedAt s.adaptive.current
    if pool.pageSize < needed then reserveLarger S size
    else reserveCurrent S s.adaptive.current pool.pageSize size

/-- `AdaptiveState::pending` -/
def AdaptiveState.pending (state : AdaptiveState) (pools : List DynamicPool) (size : Nat) (heap : Heap) :
    Res IoError Bool :=
  if (state.metadataPool size).isSome then .ok false
  else match pools[state.current]? with
  | some (.sliced pool) => do
    let padding ← calculatePadding size state.alignment
    match checkedAdd size padding with
    | none => .ok false
    | some needed =>
      if state.maxPageSize < needed then .ok false
      else if pool.pageSize < needed then .ok true
      else if state.outdated.isEmpty then .ok false
      else do
        let room ← pool.canReserve size heap
        .ok !room
  | _ => .error .panic

end Ruda.Memory
