import Ruda.Lib.OrdMap
import Ruda.Memory.Page

/-!
# Pools of whole allocations

A translation of `memory_pool/persistent_pool.rs`, `memory_pool/dedicated.rs` and
`memory_pool/exclusive_pool.rs`: pools whose slices have a storage each. `answer` is
what `PageMapping::allocate` or `storage.alloc` returned, and `freed` are the storages
that a call deallocates. The running average of an exclusive pool, a double in the
source, is exact here; where every size is zero the two do not differ.
-/

namespace Ruda.Memory

/-- The new slice of an allocation: a handle with a location, cloned for the caller. -/
def Slice.allocated (mapped : Bool) (storage : StorageHandle) (size padding : Nat) (location : MemoryLocation)
    (heap : Heap) : Slice × Heap :=
  let (page, heap) := heap.newPage
  let (slice, heap) := Slice.new mapped page { storage with utilization := ⟨0, size⟩ } padding heap
  (slice, (heap.updateLocation slice.handle location).clone slice.handle)

/-- `Slice::materialize` -/
def Slice.materialize (slice : Slice) (answer : Option StorageHandle) : Res IoError Slice :=
  if slice.mapped then .ok slice
  else match answer with
    | none => .error (.err .storage)
    | some real => .ok { slice with storage := { slice.storage with id := real.id }, mapped := true }

/-- The free slices leave, the others are kept in order. -/
def dropFree : List Slice → Heap → List Slice × List StorageId × Heap
  | [], heap => ([], [], heap)
  | slice :: rest, heap =>
    if slice.isFree heap then
      let (kept, freed, heap) := dropFree rest (heap.drop slice.handle)
      (kept, if slice.mapped then slice.storage.id :: freed else freed, heap)
    else
      let (kept, freed, heap) := dropFree rest heap
      (slice :: kept, freed, heap)

/-- Every slice's handle gets the slice's index. -/
def indexSlices : Nat → List Slice → Heap → Heap
  | _, [], heap => heap
  | index, slice :: rest, heap => indexSlices (index + 1) rest (heap.updateSlice slice.handle (wrap32 index))

-- Persistent pools

structure PersistentPool where
  slices : List Slice
  sizes : BTreeMap (List Nat)
  alignment : Nat
  maxAllocSize : Nat
  locationBase : MemoryLocation

namespace PersistentPool

def new (maxAllocSize alignment poolPos : Nat) : PersistentPool :=
  ⟨[], ∅, alignment, maxAllocSize, .new poolPos 0 0⟩

def hasSize (pool : PersistentPool) (size : Nat) : Res IoError Bool := do
  let padding ← calculatePadding size pool.alignment
  .ok (pool.sizes.contains (wrap64 (size + padding)))

def findAt (pool : PersistentPool) (location : MemoryLocation) : Res IoError Slice :=
  match pool.slices[location.slice]? with
  | none => .error (.err (.notFound s!"Memory slice {location.slice} doesn't exist"))
  | some slice => .ok slice

/-- The first free slice among `positions`. -/
def reserveAmong (size padding : Nat) (heap : Heap) (slices : List Slice) :
    List Nat → Res IoError (Option ManagedMemoryHandle × List Slice × Heap)
  | [] => .ok (none, slices, heap)
  | position :: rest =>
    match slices[position]? with
    | none => .error .panic
    | some slice =>
      if slice.isFree heap then
        .ok (some slice.handle,
          slices.set position { slice with storage := { slice.storage with utilization := ⟨0, size⟩ }, padding },
          heap.clone slice.handle)
      else reserveAmong size padding heap slices rest

def tryReserve (pool : PersistentPool) (size : Nat) (heap : Heap) :
    Res IoError (Option ManagedMemoryHandle × PersistentPool × Heap) := do
  let padding ← calculatePadding size pool.alignment
  match pool.sizes[wrap64 (size + padding)]? with
  | none => .ok (none, pool, heap)
  | some positions => do
    let (reserved, slices, heap) ← reserveAmong size padding heap pool.slices positions
    .ok (reserved, { pool with slices }, heap)

/-- The size that `alloc` asks the storage for. -/
def allocSize (pool : PersistentPool) (size : Nat) : Res IoError Nat := do
  let padding ← calculatePadding size pool.alignment
  .ok (wrap64 (size + padding))

/-- `position` joins the positions of its size. -/
def addPosition (sizes : BTreeMap (List Nat)) (effectiveSize position : Nat) : BTreeMap (List Nat) :=
  sizes.insert effectiveSize ((sizes[effectiveSize]?.getD []) ++ [position])

def alloc (pool : PersistentPool) (size : Nat) (mapped : Bool) (storage : StorageHandle) (heap : Heap) :
    Res IoError (ManagedMemoryHandle × PersistentPool × Heap) := do
  let padding ← calculatePadding size pool.alignment
  let position := pool.slices.length
  let (slice, heap) := Slice.allocated mapped storage size padding { pool.locationBase with slice := wrap32 position } heap
  .ok (slice.handle, { pool with
    slices := pool.slices ++ [slice], sizes := addPosition pool.sizes (wrap64 (size + padding)) position }, heap)

def countSizes : Nat → List Slice → BTreeMap (List Nat) → BTreeMap (List Nat)
  | _, [], sizes => sizes
  | index, slice :: rest, sizes => countSizes (index + 1) rest (addPosition sizes slice.effectiveSize index)

def cleanup (pool : PersistentPool) (explicit : Bool) (heap : Heap) : PersistentPool × List StorageId × Heap :=
  if explicit then
    let (slices, freed, heap) := dropFree pool.slices heap
    ({ pool with slices, sizes := countSizes 0 slices ∅ }, freed, indexSlices 0 slices heap)
  else (pool, [], heap)

def bind (pool : PersistentPool) (old new : ManagedMemoryHandle) (cursor : Nat) (heap : Heap) :
    Res IoError (PersistentPool × Heap) :=
  let index := (heap.location old).slice
  match pool.slices[index]? with
  | none => .error .panic
  | some slice =>
    .ok ({ pool with slices := pool.slices.set index { slice with cursor, handle := new } },
      ((heap.updateLocation new (heap.location old)).drop slice.handle).drop old)

/-- `binding`'s slice and the size it is materialized with. -/
def materialize (pool : PersistentPool) (binding : ManagedMemoryHandle) (answer : Option StorageHandle) (heap : Heap) :
    Res IoError PersistentPool := do
  let slice ← pool.findAt (heap.location binding)
  let slice ← slice.materialize answer
  .ok { pool with slices := pool.slices.set (heap.location binding).slice slice }

end PersistentPool

-- Dedicated allocations

structure DedicatedAllocations where
  slices : List Slice
  alignment : Nat
  maxAllocSize : Nat

namespace DedicatedAllocations

def new (maxAllocSize alignment : Nat) : DedicatedAllocations := ⟨[], alignment, maxAllocSize⟩

/-- The size that `alloc` asks the storage for. -/
def allocSize (pool : DedicatedAllocations) (size : Nat) : Res IoError Nat := do
  let padding ← calculatePadding size pool.alignment
  match (checkedAdd size padding).filter fun total => decide (total ≤ pool.maxAllocSize) with
  | none => .error (.err (.bufferTooBig size))
  | some total =>
    if u32Max < pool.slices.length then .error (.err (.unknown "Dedicated allocation table is full")) else .ok total

def alloc (pool : DedicatedAllocations) (size : Nat) (mapped : Bool) (storage : StorageHandle) (heap : Heap) :
    Res IoError (ManagedMemoryHandle × DedicatedAllocations × Heap) := do
  let padding ← calculatePadding size pool.alignment
  let (slice, heap) := Slice.allocated mapped storage size padding (.dedicated pool.slices.length) heap
  .ok (slice.handle, { pool with slices := pool.slices ++ [slice] }, heap)

def find (pool : DedicatedAllocations) (binding : ManagedMemoryHandle) (heap : Heap) : Res IoError Slice :=
  match pool.slices[(heap.location binding).slice]?.filter fun slice => slice.handle == binding with
  | none => .error (.err (.notFound "Dedicated allocation no longer exists"))
  | some slice => .ok slice

def bind (pool : DedicatedAllocations) (reserved assigned : ManagedMemoryHandle) (cursor : Nat) (heap : Heap) :
    Res IoError (DedicatedAllocations × Heap) :=
  let location := heap.location reserved
  match pool.slices[location.slice]?.filter fun slice => slice.handle == reserved with
  | none => .error (.err (.notFound "Dedicated reservation no longer exists"))
  | some slice =>
    .ok ({ pool with slices := pool.slices.set location.slice { slice with cursor, handle := assigned } },
      ((heap.updateLocation assigned location).drop slice.handle).drop reserved)

def materialize (pool : DedicatedAllocations) (binding : ManagedMemoryHandle) (answer : Option StorageHandle)
    (heap : Heap) : Res IoError DedicatedAllocations := do
  let slice ← pool.find binding heap
  let slice ← slice.materialize answer
  .ok { pool with slices := pool.slices.set (heap.location binding).slice slice }

/-- Also whether anything was reclaimed. -/
def reclaim (pool : DedicatedAllocations) (heap : Heap) : DedicatedAllocations × List StorageId × Bool × Heap :=
  let (slices, freed, heap') := dropFree pool.slices heap
  ({ pool with slices }, freed, decide (slices.length < pool.slices.length), indexSlices 0 slices heap')

end DedicatedAllocations

-- Exclusive pools

/-- `MemoryPage` of `exclusive_pool.rs` -/
structure ExclusivePage where
  slice : Slice
  allocSize : Nat
  freeCount : Nat

structure ExclusiveMemoryPool where
  pages : List ExclusivePage
  alignment : Nat
  deallocPeriod : Nat
  lastDeallocCheck : Nat
  maxAllocSize : Nat
  curAvgSize : ℚ
  locationBase : MemoryLocation

def sizeAvgDecay : ℚ := 1 / 100
def allocAfterFree : Nat := 5

def nextMultipleOf (value multiple : Nat) : Res IoError Nat :=
  if multiple = 0 then .error .panic
  else .ok (wrap64 (if value % multiple = 0 then value else value + (multiple - value % multiple)))

namespace ExclusiveMemoryPool

def new (maxAllocSize alignment deallocPeriod poolPos : Nat) : ExclusiveMemoryPool :=
  ⟨[], alignment, deallocPeriod, 0, maxAllocSize, (maxAllocSize : ℚ) / 2, .new poolPos 0 0⟩

/-- The free page of the least free count that holds `size`; a count of zero ends the search. -/
def selectPage (size : Nat) (heap : Heap) : Nat → List ExclusivePage → Option Nat → Nat → Option Nat
  | _, [], selected, _ => selected
  | index, page :: rest, selected, minimum =>
    if size ≤ page.allocSize ∧ (selected = none ∨ page.freeCount < minimum) ∧ page.slice.isFree heap then
      if page.freeCount = 0 then some index else selectPage size heap (index + 1) rest (some index) page.freeCount
    else selectPage size heap (index + 1) rest selected minimum

def findAt (pool : ExclusiveMemoryPool) (location : MemoryLocation) : Res IoError Slice :=
  match pool.pages[location.page]? with
  | none => .error (.err (.notFound s!"Memory page {location.page} doesn't exist"))
  | some page => .ok page.slice

def tryReserve (pool : ExclusiveMemoryPool) (size : Nat) (heap : Heap) :
    Res IoError (Option ManagedMemoryHandle × ExclusiveMemoryPool × Heap) := do
  let pool := { pool with curAvgSize := pool.curAvgSize * (1 - sizeAvgDecay) + size * sizeAvgDecay }
  let padding ← calculatePadding size pool.alignment
  match selectPage size heap 0 pool.pages none u32Max with
  | none => .ok (none, pool, heap)
  | some index =>
    match pool.pages[index]? with
    | none => .error .panic
    | some page =>
      let slice := { page.slice with storage := { page.slice.storage with utilization := ⟨0, size⟩ }, padding }
      .ok (some slice.handle,
        { pool with pages := pool.pages.set index { page with slice, freeCount := page.freeCount - 1 } },
        heap.clone slice.handle)

/-- The size that `alloc` asks the storage for. -/
def allocSize (pool : ExclusiveMemoryPool) (size : Nat) : Res IoError Nat :=
  if pool.maxAllocSize < size then .error (.err (.bufferTooBig size))
  else nextMultipleOf (max pool.curAvgSize.floor.toNat size) pool.alignment

def alloc (pool : ExclusiveMemoryPool) (size : Nat) (mapped : Bool) (storage : StorageHandle) (heap : Heap) :
    Res IoError (ManagedMemoryHandle × ExclusiveMemoryPool × Heap) := do
  let allocSize ← pool.allocSize size
  let padding ← calculatePadding size pool.alignment
  let location := { pool.locationBase with page := pool.pages.length % 2 ^ 16 }
  let (slice, heap) := Slice.allocated mapped storage size padding location heap
  .ok (slice.handle, { pool with pages := pool.pages ++ [⟨slice, allocSize, allocAfterFree - 1⟩] }, heap)

def cleanupPages (explicit : Bool) : List ExclusivePage → List ExclusivePage → List StorageId → Heap →
    List ExclusivePage × List StorageId × Heap
  | [], kept, freed, heap => (kept, freed, heap)
  | page :: rest, kept, freed, heap =>
    let isFree := page.slice.isFree heap
    let page := if isFree then { page with freeCount := wrap32 (page.freeCount + 1) } else page
    if isFree ∧ (allocAfterFree ≤ page.freeCount ∨ explicit) then
      cleanupPages explicit rest kept (if page.slice.mapped then freed ++ [page.slice.storage.id] else freed)
        (heap.drop page.slice.handle)
    else
      cleanupPages explicit rest (kept ++ [page]) freed (heap.updatePage page.slice.handle (kept.length % 2 ^ 16))

def cleanup (pool : ExclusiveMemoryPool) (allocNr : Nat) (explicit : Bool) (heap : Heap) :
    ExclusiveMemoryPool × List StorageId × Heap :=
  if explicit ∨ pool.deallocPeriod / allocAfterFree ≤ wrapSub allocNr pool.lastDeallocCheck then
    let (pages, freed, heap) := cleanupPages explicit pool.pages [] [] heap
    ({ pool with pages, lastDeallocCheck := allocNr }, freed, heap)
  else (pool, [], heap)

def bind (pool : ExclusiveMemoryPool) (old new : ManagedMemoryHandle) (cursor : Nat) (heap : Heap) :
    Res IoError (ExclusiveMemoryPool × Heap) :=
  let index := (heap.location old).page
  match pool.pages[index]? with
  | none => .error .panic
  | some page =>
    .ok ({ pool with pages := pool.pages.set index { page with slice := { page.slice with handle := new, cursor } } },
      ((heap.updateLocation new (heap.location old)).drop page.slice.handle).drop old)

def materialize (pool : ExclusiveMemoryPool) (binding : ManagedMemoryHandle) (answer : Option StorageHandle)
    (heap : Heap) : Res IoError ExclusiveMemoryPool :=
  let index := (heap.location binding).page
  match pool.pages[index]? with
  | none => .error (.err (.notFound s!"Memory page {index} doesn't exist"))
  | some page => do
    let slice ← page.slice.materialize answer
    .ok { pool with pages := pool.pages.set index { page with slice } }

end ExclusiveMemoryPool

end Ruda.Memory
