import Ruda.Lib.Fallible

/-!
# Memory pages and sliced pools

A translation of `memory_pool/memory_page.rs` and `memory_pool/sliced_pool.rs`, with
`Slice` of `memory_pool/base.rs`, the handles of `memory_pool/handle.rs`, and
`page_guard.rs`. A handle is the id of its descriptor; ids are never used twice,
since the counter behind them panics before it repeats. The heap says what every
descriptor and every page reference holds. Sums of `u64` wrap, as in release builds.
-/

namespace Ruda.Memory

inductive IoError
  | unknown (description : String)
  | notFound (reason : String)
  | bufferTooBig (size : Nat)
  | unsupportedIoOperation
  /-- What the storage answered. -/
  | storage
  deriving DecidableEq, Repr

abbrev ManagedMemoryHandle := Nat
abbrev StorageId := Nat
abbrev PageRef := Nat

structure StorageUtilization where
  offset : Nat
  size : Nat
  deriving DecidableEq, Repr

structure StorageHandle where
  id : StorageId
  utilization : StorageUtilization
  deriving DecidableEq, Repr

def StorageHandle.size (handle : StorageHandle) : Nat := handle.utilization.size
def StorageHandle.offset (handle : StorageHandle) : Nat := handle.utilization.offset

/-- `offset.checked_add(..).expect(..)` and `size.checked_sub(..).expect(..)` -/
def StorageHandle.offsetStart (handle : StorageHandle) (offsetBytes : Nat) : Res IoError StorageHandle :=
  if handle.offset + offsetBytes ≤ u64Max ∧ offsetBytes ≤ handle.size then
    .ok { handle with utilization := ⟨handle.offset + offsetBytes, handle.size - offsetBytes⟩ }
  else .error .panic

structure MemoryLocation where
  pool : Nat
  page : Nat
  slice : Nat
  init : Nat
  deriving DecidableEq, Repr

def MemoryLocation.new (pool page slice : Nat) : MemoryLocation := ⟨pool, page, slice, 1⟩
def MemoryLocation.dedicated (slice : Nat) : MemoryLocation := ⟨0, 0, slice, 2⟩
def MemoryLocation.uninit : MemoryLocation := ⟨0, 0, 0, 0⟩

-- Handles and page references

/-- Descriptors by id, with the strong count of each, and page references with their guards. -/
structure Heap where
  counter : ManagedMemoryHandle
  strong : ManagedMemoryHandle → Nat
  location : ManagedMemoryHandle → MemoryLocation
  pins : ManagedMemoryHandle → Nat
  pinRevisions : ManagedMemoryHandle → Nat
  pages : PageRef
  guards : PageRef → Nat

namespace Heap

def empty : Heap := ⟨0, fun _ => 0, fun _ => .uninit, fun _ => 0, fun _ => 0, 0, fun _ => 0⟩

/-- `ManagedMemoryHandle::new` -/
def newHandle (heap : Heap) : ManagedMemoryHandle × Heap :=
  (heap.counter, { heap with
    counter := heap.counter + 1
    strong := Function.update heap.strong heap.counter 1
    location := Function.update heap.location heap.counter .uninit
    pins := Function.update heap.pins heap.counter 0
    pinRevisions := Function.update heap.pinRevisions heap.counter 0 })

def clone (heap : Heap) (handle : ManagedMemoryHandle) : Heap :=
  { heap with strong := Function.update heap.strong handle (heap.strong handle + 1) }

def drop (heap : Heap) (handle : ManagedMemoryHandle) : Heap :=
  { heap with strong := Function.update heap.strong handle (heap.strong handle - 1) }

def updateLocation (heap : Heap) (handle : ManagedMemoryHandle) (location : MemoryLocation) : Heap :=
  { heap with location := Function.update heap.location handle location }

def updateSlice (heap : Heap) (handle : ManagedMemoryHandle) (slice : Nat) : Heap :=
  heap.updateLocation handle { heap.location handle with slice }

def updatePage (heap : Heap) (handle : ManagedMemoryHandle) (page : Nat) : Heap :=
  heap.updateLocation handle { heap.location handle with page }

/-- `ManagedMemoryHandle::is_free` -/
def isFree (heap : Heap) (handle : ManagedMemoryHandle) : Bool := heap.strong handle ≤ 1

def isPinned (heap : Heap) (handle : ManagedMemoryHandle) : Bool := heap.pins handle ≠ 0

/-- `pin_revision`: a revision that is read for the first time becomes one. -/
def pinRevision (heap : Heap) (handle : ManagedMemoryHandle) : Nat × Heap :=
  if heap.pinRevisions handle = 0 then (1, { heap with pinRevisions := Function.update heap.pinRevisions handle 1 })
  else (heap.pinRevisions handle, heap)

/-- `pin_changed`: counts only once somebody has read the revision, and stays at the maximum. -/
def pinChanged (heap : Heap) (handle : ManagedMemoryHandle) : Heap :=
  if heap.pinRevisions handle ≠ 0 ∧ heap.pinRevisions handle ≠ usizeMax then
    { heap with pinRevisions := Function.update heap.pinRevisions handle (heap.pinRevisions handle + 1) }
  else heap

/-- `ManagedMemoryBinding::pin`; the pin holds a reference. -/
def pin (heap : Heap) (handle : ManagedMemoryHandle) : Heap :=
  { heap with pins := Function.update heap.pins handle (heap.pins handle + 1) }.pinChanged handle |>.clone handle

/-- A `MemoryResourcePin` is dropped. -/
def unpin (heap : Heap) (handle : ManagedMemoryHandle) : Heap :=
  { heap with pins := Function.update heap.pins handle (heap.pins handle - 1) }.pinChanged handle |>.drop handle

/-- `PageRef::default` -/
def newPage (heap : Heap) : PageRef × Heap :=
  (heap.pages, { heap with pages := heap.pages + 1, guards := Function.update heap.guards heap.pages 0 })

def guarded (heap : Heap) (page : PageRef) : Bool := heap.guards page ≠ 0

/-- `PageRef::guard` -/
def guard (heap : Heap) (page : PageRef) : Heap :=
  { heap with guards := Function.update heap.guards page (heap.guards page + 1) }

/-- A `PageGuard` is dropped. -/
def unguard (heap : Heap) (page : PageRef) : Heap :=
  { heap with guards := Function.update heap.guards page (heap.guards page - 1) }

end Heap

-- Slices

structure Slice where
  mapped : Bool
  page : PageRef
  storage : StorageHandle
  handle : ManagedMemoryHandle
  padding : Nat
  cursor : Nat
  deriving DecidableEq, Repr

/-- `Slice::new` with the fields that every caller sets right after. -/
def Slice.new (mapped : Bool) (page : PageRef) (storage : StorageHandle) (padding : Nat) (heap : Heap) :
    Slice × Heap :=
  (⟨mapped, page, storage, heap.newHandle.1, padding, 0⟩, heap.newHandle.2)

def Slice.isFree (slice : Slice) (heap : Heap) : Bool := heap.isFree slice.handle && !heap.guarded slice.page

def Slice.effectiveSize (slice : Slice) : Nat := wrap64 (slice.storage.size + slice.padding)

def calculatePadding (size memoryAlignment : Nat) : Res IoError Nat :=
  if memoryAlignment = 0 then .error .panic
  else
    let remainder := size % memoryAlignment
    .ok (if remainder ≠ 0 then memoryAlignment - remainder else 0)

-- Pages

structure MemoryPage where
  mapped : Bool
  page : PageRef
  storage : StorageHandle
  slices : List Slice
  alignment : Nat
  locationBase : MemoryLocation
  deriving DecidableEq, Repr

namespace MemoryPage

def newWithMapping (storage : StorageHandle) (alignment : Nat) (locationBase : MemoryLocation) (mapped : Bool)
    (heap : Heap) : MemoryPage × Heap :=
  let (page, heap) := heap.newPage
  let (slice, heap) := Slice.new mapped page storage 0 heap
  (⟨mapped, page, storage, [slice], alignment, locationBase⟩,
    heap.updateLocation slice.handle { locationBase with slice := 0 })

/-- `answer` is what `storage.alloc` returns. -/
def materialize (page : MemoryPage) (answer : Option StorageHandle) : Res IoError (StorageId × MemoryPage) :=
  if page.mapped then .ok (page.storage.id, page)
  else match answer with
    | none => .error (.err .storage)
    | some real =>
      let slices := page.slices.map fun slice =>
        { slice with storage := { slice.storage with id := real.id }, mapped := true }
      .ok (real.id, { page with slices, storage := real, mapped := true })

def bind (page : MemoryPage) (reserved new : ManagedMemoryHandle) (cursor : Nat) (heap : Heap) :
    Res IoError (MemoryPage × Heap) :=
  let index := (heap.location reserved).slice
  match page.slices[index]? with
  | none => .error .panic
  | some slice =>
    .ok ({ page with slices := page.slices.set index { slice with cursor, handle := new } },
      ((heap.updateLocation new (heap.location reserved)).drop slice.handle).drop reserved)

/-- `summary(false)`, of which `cleanup` reads the free and the total amount. -/
def amountFree (page : MemoryPage) (heap : Heap) : Nat :=
  page.slices.foldl (fun amount slice => if slice.isFree heap then wrap64 (amount + slice.effectiveSize) else amount) 0

/-- The slices behind a new one get their new index. -/
def renumber : Nat → List Slice → Heap → Heap
  | _, [], heap => heap
  | index, slice :: rest, heap => renumber (index + 1) rest (heap.updateSlice slice.handle (wrap32 index))

/-- The first slice that holds `size`, split when it is larger. -/
def tryReserve (page : MemoryPage) (size : Nat) (heap : Heap) :
    Res IoError (Option ManagedMemoryHandle × MemoryPage × Heap) :=
  if heap.guarded page.page then .ok (none, page, heap)
  else do
    let padding ← calculatePadding size page.alignment
    let effectiveSize := wrap64 (size + padding)
    let unusable := fun slice : Slice => !(decide (effectiveSize ≤ slice.effectiveSize) && heap.isFree slice.handle)
    let before := page.slices.takeWhile unusable
    match page.slices.dropWhile unusable with
    | [] => .ok (none, page, heap)
    | slice :: after =>
      let available := slice.effectiveSize
      let heap := heap.clone slice.handle
      let storageOld := { slice.storage with utilization := ⟨slice.storage.offset, available⟩ }
      let reserved := { slice with
        storage := { slice.storage with utilization := ⟨slice.storage.offset, size⟩ }, padding }
      if effectiveSize < available then
        let storage ← storageOld.offsetStart effectiveSize
        let (newSlice, heap) := Slice.new page.mapped page.page storage 0 heap
        let indexNew := before.length + 1
        let heap := heap.updateLocation newSlice.handle { page.locationBase with slice := wrap32 indexNew }
        .ok (some slice.handle, { page with slices := before ++ reserved :: newSlice :: after },
          renumber (indexNew + 1) after heap)
      else .ok (some slice.handle, { page with slices := before ++ reserved :: after }, heap)

def scanFree (heap : Heap) (needed : Nat) : Nat → List Slice → Bool
  | _, [] => false
  | free, slice :: rest =>
    let free := if slice.isFree heap then min (free + slice.effectiveSize) u64Max else 0
    if needed ≤ free then true else scanFree heap needed free rest

def canReserve (page : MemoryPage) (size : Nat) (heap : Heap) : Res IoError Bool :=
  if heap.guarded page.page then .ok false
  else do
    let padding ← calculatePadding size page.alignment
    match checkedAdd size padding with
    | none => .ok false
    | some needed => .ok (scanFree heap needed 0 page.slices)

/-- `find` and `find_at` -/
def findAt (page : MemoryPage) (location : MemoryLocation) : Res IoError Slice :=
  match page.slices[location.slice]? with
  | none => .error (.err (.notFound s!"Memory slice {location.slice} doesn't exist"))
  | some slice => .ok slice

def updatePage (page : MemoryPage) (position : Nat) (heap : Heap) : MemoryPage × Heap :=
  ({ page with locationBase := { page.locationBase with page := position } },
    page.slices.foldl (fun heap slice => heap.updatePage slice.handle position) heap)

def releaseRelocated (page : MemoryPage) (allocation : ManagedMemoryHandle) (heap : Heap) :
    Res IoError (MemoryPage × Heap) :=
  let location := heap.location allocation
  match page.slices[location.slice]? with
  | none => .error (.err (.notFound "Relocation source slice does not exist"))
  | some slice =>
    if slice.handle ≠ allocation then .error (.err (.notFound "Relocation source identity changed"))
    else
      let (replacement, heap) := heap.newHandle
      let heap := heap.updateLocation replacement location
      .ok ({ page with slices := page.slices.set location.slice { slice with handle := replacement, cursor := 0 } },
        heap.drop slice.handle)

-- Relocation

structure RelocationPage where
  mapped : Bool
  allocations : List (ManagedMemoryHandle × StorageHandle × Nat)
  liveBytes : Nat

/-- What a page offers for relocation: its live slices, whose handles are cloned. -/
def relocationPage (page : MemoryPage) (heap : Heap) : Option RelocationPage × Heap :=
  let live := page.slices.filter fun slice => !slice.isFree heap
  if heap.guarded page.page then (none, heap)
  else if live.any fun slice => heap.isPinned slice.handle then (none, heap)
  else if live.isEmpty then (none, heap)
  else
    (some ⟨page.mapped, live.map fun slice => (slice.handle, slice.storage, slice.cursor),
      live.foldl (fun bytes slice => wrap64 (bytes + slice.storage.size)) 0⟩,
      live.foldl (fun heap slice => heap.clone slice.handle) heap)

/-- `RelocationInput`; a handle's id is the handle. -/
inductive RelocationInput
  | pool (index : Nat)
  | page (id : StorageId)
  | pinnedPage
  | free (size : Nat)
  | allocation (id : ManagedMemoryHandle) (size : Nat) (pinned : Bool) (pinRevision : Nat)
  deriving DecidableEq, Repr

/-- An item of `relocation_inputs`; an allocation's pins are read when the item is taken. -/
inductive InputItem
  | input (known : RelocationInput)
  | allocation (handle : ManagedMemoryHandle) (size : Nat) (source : Bool)

def InputItem.take (item : InputItem) (heap : Heap) : RelocationInput × Heap :=
  match item with
  | .input known => (known, heap)
  | .allocation handle size source =>
    if source then
      let (revision, heap) := heap.pinRevision handle
      (.allocation handle size (heap.isPinned handle) revision, heap)
    else (.allocation handle size false 0, heap)

/-- The slices as items; free neighbours are one item. -/
def sliceItems (source : Bool) (heap : Heap) : Option Nat → List Slice → List InputItem
  | none, [] => []
  | some size, [] => [.input (.free size)]
  | pending, slice :: rest =>
    if slice.isFree heap then
      match pending with
      | none => sliceItems source heap (some slice.effectiveSize) rest
      | some size => sliceItems source heap (some (wrap64 (size + slice.effectiveSize))) rest
    else
      (match pending with
        | none => []
        | some size => [.input (.free size)]) ++
        .allocation slice.handle slice.storage.size source :: sliceItems source heap none rest

def relocationInputs (page : MemoryPage) (source : Bool) (heap : Heap) : List InputItem :=
  let pinned := heap.guarded page.page ||
    (source && page.slices.any fun slice => !slice.isFree heap && heap.isPinned slice.handle)
  .input (.page page.storage.id) ::
    if pinned then [.input .pinnedPage] else sliceItems source heap none page.slices

-- Merging free neighbours

/-- Free slices met in a row: the first of them, their size and how many they are. -/
structure Run where
  first : Slice
  size : Nat
  count : Nat

/-- `flush_run`: several slices become a new one, a single one stays. -/
def flushRun (page : MemoryPage) (run : Run) (output : List Slice) (heap : Heap) : List Slice × Heap :=
  let location := { page.locationBase with slice := wrap32 output.length }
  if 1 < run.count then
    let storage := { page.storage with utilization := ⟨run.first.storage.offset, run.size⟩ }
    let (merged, heap) := Slice.new run.first.mapped run.first.page storage 0 heap
    (output ++ [merged], (heap.updateLocation merged.handle location).drop run.first.handle)
  else (output ++ [run.first], heap.updateLocation run.first.handle location)

def flushPending (page : MemoryPage) : Option Run → List Slice → Heap → List Slice × Heap
  | none, output, heap => (output, heap)
  | some run, output, heap => page.flushRun run output heap

/-- One slice more in a run; all but the first are dropped. -/
def extendRun (slice : Slice) (heap : Heap) : Option Run → Run × Heap
  | none => (⟨slice, slice.effectiveSize, 1⟩, heap)
  | some run => (⟨run.first, wrap64 (run.size + slice.effectiveSize), run.count + 1⟩, heap.drop slice.handle)

def coalesceLoop (page : MemoryPage) : Nat → List Slice → Option Run → List Slice → Heap → List Slice × Heap
  | _, [], pending, output, heap => page.flushPending pending output heap
  | index, slice :: rest, pending, output, heap =>
    if slice.isFree heap then
      let (run, heap) := extendRun slice heap pending
      coalesceLoop page (index + 1) rest (some run) output heap
    else
      let (output, heap) := page.flushPending pending output heap
      let heap := if index ≠ output.length then heap.updateSlice slice.handle (wrap32 output.length) else heap
      coalesceLoop page (index + 1) rest none (output ++ [slice]) heap

/-- `slices.windows(2).any(..)` -/
def freePair (heap : Heap) : List Slice → Bool
  | first :: second :: rest => (first.isFree heap && second.isFree heap) || freePair heap (second :: rest)
  | _ => false

def coalesce (page : MemoryPage) (heap : Heap) : MemoryPage × Heap :=
  if freePair heap page.slices then
    let (slices, heap) := page.coalesceLoop 0 page.slices none [] heap
    ({ page with slices }, heap)
  else (page, heap)

end MemoryPage

-- Sliced pools

structure SlicedPool where
  pages : List (MemoryPage × StorageId)
  pageSize : Nat
  alignment : Nat
  maxAllocSize : Nat
  locationBase : MemoryLocation
  deriving DecidableEq, Repr

namespace SlicedPool

def new (pageSize maxSliceSize alignment poolPos : Nat) : SlicedPool :=
  ⟨[], pageSize, alignment, maxSliceSize, .new poolPos 0 0⟩

/-- `pages.iter().any(..)`, which stops at the first page that can. -/
def anyCanReserve (size : Nat) (heap : Heap) : List (MemoryPage × StorageId) → Res IoError Bool
  | [] => .ok false
  | (page, _) :: rest => do
    if ← page.canReserve size heap then .ok true else anyCanReserve size heap rest

def canReserve (pool : SlicedPool) (size : Nat) (heap : Heap) : Res IoError Bool := anyCanReserve size heap pool.pages

def reservePages (size : Nat) :
    List (MemoryPage × StorageId) → Heap → Res IoError (Option ManagedMemoryHandle × List (MemoryPage × StorageId) × Heap)
  | [], heap => .ok (none, [], heap)
  | (page, id) :: rest, heap => do
    let (page, heap) := page.coalesce heap
    let (reserved, page, heap) ← page.tryReserve size heap
    match reserved with
    | some handle => .ok (some handle, (page, id) :: rest, heap)
    | none => do
      let (reserved, rest, heap) ← reservePages size rest heap
      .ok (reserved, (page, id) :: rest, heap)

def tryReserve (pool : SlicedPool) (size : Nat) (heap : Heap) :
    Res IoError (Option ManagedMemoryHandle × SlicedPool × Heap) := do
  let (reserved, pages, heap) ← reservePages size pool.pages heap
  .ok (reserved, { pool with pages }, heap)

/-- `answer` is what `PageMapping::allocate` returns for a page of `page_size`. -/
def alloc (pool : SlicedPool) (size : Nat) (mapped : Bool) (answer : Option StorageHandle) (heap : Heap) :
    Res IoError (ManagedMemoryHandle × SlicedPool × Heap) :=
  if u16Max < pool.pages.length then .error (.err (.unknown "Sliced pool page index capacity exhausted"))
  else match answer with
  | none => .error (.err .storage)
  | some storage => do
    let locationBase := { pool.locationBase with page := pool.pages.length }
    let (page, heap) := MemoryPage.newWithMapping storage pool.alignment locationBase mapped heap
    let (returned, page, heap) ← page.tryReserve size heap
    match returned with
    | none => .error .panic
    | some handle => .ok (handle, { pool with pages := pool.pages ++ [(page, storage.id)] }, heap)

/-- `relocation_pages`, page by page. -/
def relocationPages : List (MemoryPage × StorageId) → Heap → List MemoryPage.RelocationPage × Heap
  | [], heap => ([], heap)
  | (page, _) :: rest, heap =>
    let (offered, heap) := page.relocationPage heap
    let (others, heap) := relocationPages rest heap
    (offered.toList ++ others, heap)

def relocationInputs (pool : SlicedPool) (source : Bool) (heap : Heap) : List MemoryPage.InputItem :=
  pool.pages.flatMap fun entry => entry.1.relocationInputs source heap

/-- Wholly free pages are given back, the others move up; `freed` are the storages to deallocate. -/
def cleanupPages : Nat → List (MemoryPage × StorageId) → List (MemoryPage × StorageId) → List StorageId → Heap →
    List (MemoryPage × StorageId) × List StorageId × Heap
  | _, [], kept, freed, heap => (kept, freed, heap)
  | index, (page, id) :: rest, kept, freed, heap =>
    let (page, heap) := page.coalesce heap
    if page.amountFree heap = page.storage.size then
      cleanupPages (index + 1) rest kept (if page.mapped then freed ++ [id] else freed)
        (page.slices.foldl (fun heap slice => heap.drop slice.handle) heap)
    else
      let position := kept.length % 2 ^ 16
      let (page, heap) := if index ≠ position then page.updatePage position heap else (page, heap)
      cleanupPages (index + 1) rest (kept ++ [(page, id)]) freed heap

def cleanup (pool : SlicedPool) (explicit : Bool) (heap : Heap) : SlicedPool × List StorageId × Heap :=
  if explicit then
    let (pages, freed, heap) := cleanupPages 0 pool.pages [] [] heap
    ({ pool with pages }, freed, heap)
  else (pool, [], heap)

/-- Run a method of the page at `index`; indexing out of range panics. -/
def withPage (pool : SlicedPool) (index : Nat)
    (method : MemoryPage × StorageId → Res IoError ((MemoryPage × StorageId) × Heap)) : Res IoError (SlicedPool × Heap) :=
  match pool.pages[index]? with
  | none => .error .panic
  | some entry => do
    let (entry, heap) ← method entry
    .ok ({ pool with pages := pool.pages.set index entry }, heap)

def bind (pool : SlicedPool) (reserved assigned : ManagedMemoryHandle) (cursor : Nat) (heap : Heap) :
    Res IoError (SlicedPool × Heap) :=
  pool.withPage (heap.location reserved).page fun (page, id) => do
    let (page, heap) ← page.bind reserved assigned cursor heap
    .ok ((page, id), heap)

def materialize (pool : SlicedPool) (binding : ManagedMemoryHandle) (answer : Option StorageHandle) (heap : Heap) :
    Res IoError (SlicedPool × Heap) :=
  pool.withPage (heap.location binding).page fun (page, _) => do
    let _ ← page.findAt (heap.location binding)
    let (id, page) ← page.materialize answer
    .ok ((page, id), heap)

def releaseRelocated (pool : SlicedPool) (allocation : ManagedMemoryHandle) (heap : Heap) :
    Res IoError (SlicedPool × Heap) :=
  pool.withPage (heap.location allocation).page fun (page, id) => do
    let (page, heap) ← page.releaseRelocated allocation heap
    .ok ((page, id), heap)

end SlicedPool

end Ruda.Memory
