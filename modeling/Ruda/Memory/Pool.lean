import Ruda.Memory.Reserve

/-!
# Runs of a sliced pool

A pool and the heap that its handles live in, under every call of the pool, the page
methods that the pool does not call on its own, and what owners of handles and page
guards do. In every state reached the pages are in order.
-/

namespace Ruda.Memory

variable {heap heap' : Heap} {page page' : MemoryPage} {pages pages' kept : List (MemoryPage × StorageId)}
variable {alignment size padding : Nat} {result : Option ManagedMemoryHandle}

namespace MemoryPage

-- Page methods

theorem Advances.refl (h : page.Ok heap) : Advances heap page heap page := ⟨h, rfl, le_rfl⟩

theorem Advances.trans (h : Advances heap page heap' page') (h' : Advances heap' page' heap'' page'') :
    Advances heap page heap'' page'' :=
  ⟨h'.ok, h'.alignment.trans h.alignment, h.counter.trans h'.counter⟩

theorem newWithMapping_ok (heap : Heap) (alignment : Nat) (mapped : Bool) (locationBase : MemoryLocation)
    {storage : StorageHandle} (hs : storage.offset + storage.size ≤ u64Max) :
    (newWithMapping storage alignment locationBase mapped heap).1.Ok
      (newWithMapping storage alignment locationBase mapped heap).2 where
  on s hs := by
    obtain rfl := List.mem_singleton.mp hs
    exact ⟨rfl, Nat.lt_succ_self heap.counter⟩
  tiled := by
    refine ⟨storage.offset, storage.offset + storage.size, hs, rfl, ?_⟩
    have hsize : wrap64 (storage.size + 0) = storage.size := wrap64_of_le (by omega)
    exact congrArg (storage.offset + ·) hsize
  nonempty := List.cons_ne_nil _ _

theorem Ok.of_extents (h : page.Ok heap) (hp : page'.page = page.page)
    (hext : page'.slices.map (fun s => (s.page, s.storage.offset, s.effectiveSize)) =
      page.slices.map fun s => (s.page, s.storage.offset, s.effectiveSize))
    (hhandles : ∀ s ∈ page'.slices, s.handle < heap'.counter) : page'.Ok heap' where
  on s hs := by
    refine ⟨?_, hhandles s hs⟩
    have hmem := List.mem_map_of_mem (f := fun s : Slice => (s.page, s.storage.offset, s.effectiveSize)) hs
    rw [hext] at hmem
    obtain ⟨t, ht, he⟩ := List.mem_map.mp hmem
    rw [hp, ← (h.on t ht).page]
    exact (congrArg Prod.fst he).symm
  tiled := by
    obtain ⟨a, b, hb, ht⟩ := h.tiled
    exact ⟨a, b, hb, tiled_congr hext ht⟩
  nonempty hnil := by
    rw [hnil] at hext
    exact h.nonempty (List.map_eq_nil_iff.mp hext.symm)

theorem materialize_advances {answer : Option StorageHandle} {id : StorageId} (h : page.Ok heap)
    (he : page.materialize answer = .ok (id, page')) : Advances heap page heap page' := by
  unfold materialize at he
  split at he
  · obtain ⟨-, rfl⟩ := Prod.mk.inj (Except.ok.inj he)
    exact .refl h
  · cases answer with
    | none => cases he
    | some real =>
      obtain ⟨-, rfl⟩ := Prod.mk.inj (Except.ok.inj he)
      refine ⟨h.of_extents rfl ?_ ?_, rfl, le_rfl⟩
      · rw [List.map_map]
        rfl
      · intro s hs
        obtain ⟨t, ht, rfl⟩ := List.mem_map.mp hs
        exact (h.on t ht).handle

theorem Ok.set {index : Nat} {slice : Slice} {handle : ManagedMemoryHandle} (h : page.Ok heap)
    (hs : page.slices[index]? = some slice) (hc : heap.counter ≤ heap'.counter) (hh : handle < heap'.counter) (cursor : Nat) :
    Ok heap' { page with slices := page.slices.set index { slice with handle, cursor } } := by
  refine h.of_extents rfl ?_ ?_
  · refine List.ext_getElem? fun i => ?_
    rw [List.getElem?_map, List.getElem?_map, List.getElem?_set]
    split
    · next hi =>
      subst hi
      rw [if_pos (List.getElem?_eq_some_iff.mp hs).1, hs]
      rfl
    · rfl
  · intro s hmem
    rcases List.mem_or_eq_of_mem_set hmem with hold | rfl
    · exact (h.on s hold).handle.trans_le hc
    · exact hh

theorem bind_advances {reserved new : ManagedMemoryHandle} {cursor : Nat} (h : page.Ok heap) (hnew : new < heap.counter)
    (he : page.bind reserved new cursor heap = .ok (page', heap')) : Advances heap page heap' page' := by
  unfold bind at he
  simp only at he
  split at he
  · cases he
  · next slice hs =>
    obtain ⟨rfl, rfl⟩ := Prod.mk.inj (Except.ok.inj he)
    exact ⟨(h.set hs le_rfl hnew cursor).mono le_rfl, rfl, le_rfl⟩

theorem releaseRelocated_advances {allocation : ManagedMemoryHandle} (h : page.Ok heap)
    (he : page.releaseRelocated allocation heap = .ok (page', heap')) : Advances heap page heap' page' := by
  unfold releaseRelocated at he
  simp only at he
  split at he
  · cases he
  · next slice hs =>
    split at he
    · cases he
    · obtain ⟨rfl, rfl⟩ := Prod.mk.inj (Except.ok.inj he)
      exact ⟨(h.set hs (Nat.le_succ _) (Nat.lt_succ_self heap.counter) 0 : Ok heap.newHandle.2 _).mono le_rfl, rfl, Nat.le_succ _⟩

theorem updatePage_advances (h : page.Ok heap) (position : Nat) :
    Advances heap page (page.updatePage position heap).2 (page.updatePage position heap).1 := by
  have hcounter : ∀ (slices : List Slice) (heap : Heap),
      (slices.foldl (fun heap slice => heap.updatePage slice.handle position) heap).counter = heap.counter := by
    intro slices
    induction slices with
    | nil => exact fun _ => rfl
    | cons slice rest ih => exact fun heap => ih _
  have hle : heap.counter ≤ (page.updatePage position heap).2.counter := (hcounter page.slices heap).ge
  exact ⟨⟨fun s hs => (h.on s hs).mono hle, h.tiled, h.nonempty⟩, rfl, hle⟩

end MemoryPage

-- Pools

/-- Every page is in order, and aligned as the pool is. -/
def PagesOk (heap : Heap) (alignment : Nat) (pages : List (MemoryPage × StorageId)) : Prop :=
  ∀ entry ∈ pages, entry.1.Ok heap ∧ entry.1.alignment = alignment

namespace PagesOk

theorem mono (h : PagesOk heap alignment pages) (hc : heap.counter ≤ heap'.counter) : PagesOk heap' alignment pages :=
  fun entry he => ⟨(h entry he).1.mono hc, (h entry he).2⟩

theorem cons_iff {entry : MemoryPage × StorageId} : PagesOk heap alignment (entry :: pages) ↔
    (entry.1.Ok heap ∧ entry.1.alignment = alignment) ∧ PagesOk heap alignment pages :=
  List.forall_mem_cons

theorem append (h : PagesOk heap alignment pages) (h' : PagesOk heap alignment pages') :
    PagesOk heap alignment (pages ++ pages') :=
  fun entry he => (List.mem_append.mp he).elim (h entry) (h' entry)

theorem advance {id : StorageId} (h : page.Ok heap ∧ page.alignment = alignment)
    (hadv : MemoryPage.Advances heap page heap' page') : PagesOk heap' alignment [(page', id)] := by
  intro entry he
  obtain rfl := List.mem_singleton.mp he
  exact ⟨hadv.ok, hadv.alignment.trans h.2⟩

theorem set {index : Nat} {id : StorageId} (h : PagesOk heap alignment pages) (hp : pages[index]? = some entry)
    (hadv : MemoryPage.Advances heap entry.1 heap' page') : PagesOk heap' alignment (pages.set index (page', id)) := by
  intro e he
  rcases List.mem_or_eq_of_mem_set he with hold | rfl
  · exact h.mono hadv.counter e hold
  · exact ⟨hadv.ok, hadv.alignment.trans (h entry (List.mem_of_getElem? hp)).2⟩

end PagesOk

namespace SlicedPool

/-- A call of the pool leaves pages in order, forgets no handle and keeps the pool's shape. -/
structure Leaves (heap : Heap) (pool : SlicedPool) (heap' : Heap) (pool' : SlicedPool) : Prop where
  ok : PagesOk heap' pool.alignment pool'.pages
  counter : heap.counter ≤ heap'.counter
  alignment : pool'.alignment = pool.alignment
  pageSize : pool'.pageSize = pool.pageSize

theorem reservePages_spec (h : PagesOk heap alignment pages) (hpad : calculatePadding size alignment = .ok padding)
    (hsize : size + padding ≤ u64Max) : ∃ result pages' heap',
      reservePages size pages heap = .ok (result, pages', heap') ∧
        (result.isSome ↔ ∃ entry ∈ pages, MemoryPage.Reservable heap entry.1 (size + padding)) := by
  induction pages generalizing heap with
  | nil => exact ⟨none, [], heap, rfl, by simp⟩
  | cons entry rest ih =>
    obtain ⟨page, id⟩ := entry
    obtain ⟨⟨hok, halign⟩, hrest⟩ := PagesOk.cons_iff.mp h
    have hreserves := MemoryPage.reserves_iff hok (halign ▸ hpad) hsize
    have hok' := hok.coalesce
    obtain ⟨slices, heap₁, a, b, hc, -, hm⟩ := MemoryPage.coalesce_spec hok
    rw [hc] at hreserves hok'
    have hrest₁ := hrest.mono hm.keeps.counter
    have hkeep : (∃ entry ∈ rest, MemoryPage.Reservable heap₁ entry.1 (size + padding)) ↔
        ∃ entry ∈ rest, MemoryPage.Reservable heap entry.1 (size + padding) :=
      exists_congr fun e => and_congr_right fun he => MemoryPage.Reservable.keep_iff hm.keeps (hrest e he).1
    rw [List.exists_mem_cons_iff, ← hreserves, ← hkeep, reservePages, hc]
    cases hopen : heap₁.guarded page.page with
    | true =>
      have hnone : MemoryPage.tryReserve { page with slices } size heap₁ = .ok (none, { page with slices }, heap₁) := by
        rw [MemoryPage.tryReserve, if_pos hopen]
      obtain ⟨result, pages', heap', hr, hiff⟩ := ih hrest₁
      refine ⟨result, ({ page with slices }, id) :: pages', heap', ?_, ?_⟩
      · simp only [hnone, ok_bind, hr]
      · simp [hnone, hiff]
    | false =>
      rcases MemoryPage.tryReserve_spec hok' hopen (halign ▸ hpad) with ⟨handle, page', heap', hr, -, -⟩ | ⟨hnone, -⟩
      · refine ⟨some handle, (page', id) :: rest, heap', ?_, ?_⟩
        · simp only [hr, ok_bind]
        · simp [hr]
      · obtain ⟨result, pages', heap', hr, hiff⟩ := ih hrest₁
        refine ⟨result, ({ page with slices }, id) :: pages', heap', ?_, ?_⟩
        · simp only [hnone, ok_bind, hr]
        · simp [hnone, hiff]

theorem reservePages_advances (h : PagesOk heap alignment pages)
    (he : reservePages size pages heap = .ok (result, pages', heap')) :
    PagesOk heap' alignment pages' ∧ heap.counter ≤ heap'.counter := by
  induction pages generalizing heap result pages' with
  | nil =>
    obtain ⟨-, hp⟩ := Prod.mk.inj (Except.ok.inj he)
    obtain ⟨rfl, rfl⟩ := Prod.mk.inj hp
    exact ⟨h, le_rfl⟩
  | cons entry rest ih =>
    obtain ⟨page, id⟩ := entry
    obtain ⟨⟨hok, halign⟩, hrest⟩ := PagesOk.cons_iff.mp h
    have hc := MemoryPage.coalesce_advances hok
    rw [reservePages] at he
    obtain ⟨⟨reserved, page₁, heap₁⟩, htry, he⟩ := bind_eq_ok.mp he
    have hadv := hc.trans (MemoryPage.tryReserve_advances hc.ok htry)
    have hfirst : PagesOk heap₁ alignment [(page₁, id)] := PagesOk.advance ⟨hok, halign⟩ hadv
    cases reserved with
    | some handle =>
      obtain ⟨-, hp⟩ := Prod.mk.inj (Except.ok.inj he)
      obtain ⟨rfl, rfl⟩ := Prod.mk.inj hp
      exact ⟨hfirst.append (hrest.mono hadv.counter), hadv.counter⟩
    | none =>
      obtain ⟨⟨r, rest', heap₂⟩, hr, he⟩ := bind_eq_ok.mp he
      obtain ⟨-, hp⟩ := Prod.mk.inj (Except.ok.inj he)
      obtain ⟨rfl, rfl⟩ := Prod.mk.inj hp
      obtain ⟨hok', hle⟩ := ih (hrest.mono hadv.counter) hr
      exact ⟨(hfirst.mono hle).append hok', hadv.counter.trans hle⟩

theorem dropSlices_counter (slices : List Slice) (heap : Heap) :
    (slices.foldl (fun heap slice => heap.drop slice.handle) heap).counter = heap.counter := by
  induction slices generalizing heap with
  | nil => rfl
  | cons slice rest ih => exact ih _

theorem cleanupPages_advances (index : Nat) (freed : List StorageId) (h : PagesOk heap alignment pages)
    (hkept : PagesOk heap alignment kept) :
    PagesOk (cleanupPages index pages kept freed heap).2.2 alignment (cleanupPages index pages kept freed heap).1 ∧
      heap.counter ≤ (cleanupPages index pages kept freed heap).2.2.counter := by
  induction pages generalizing index kept freed heap with
  | nil => exact ⟨hkept, le_rfl⟩
  | cons entry rest ih =>
    obtain ⟨page, id⟩ := entry
    obtain ⟨⟨hok, halign⟩, hrest⟩ := PagesOk.cons_iff.mp h
    have hc := MemoryPage.coalesce_advances hok
    rw [cleanupPages]
    simp only
    split
    · have hle : heap.counter ≤ ((page.coalesce heap).1.slices.foldl
          (fun heap slice => heap.drop slice.handle) (page.coalesce heap).2).counter := by
        rw [dropSlices_counter]
        exact hc.counter
      obtain ⟨hpages, hcount⟩ := ih (index + 1) _ (hrest.mono hle) (hkept.mono hle)
      exact ⟨hpages, hle.trans hcount⟩
    · have hmoved : MemoryPage.Advances heap page
          (if index ≠ kept.length % 2 ^ 16 then (page.coalesce heap).1.updatePage (kept.length % 2 ^ 16) (page.coalesce heap).2
            else page.coalesce heap).2
          (if index ≠ kept.length % 2 ^ 16 then (page.coalesce heap).1.updatePage (kept.length % 2 ^ 16) (page.coalesce heap).2
            else page.coalesce heap).1 := by
        split
        · exact hc.trans (MemoryPage.updatePage_advances hc.ok _)
        · exact hc
      obtain ⟨hpages, hcount⟩ := ih (index + 1) freed (hrest.mono hmoved.counter)
        ((hkept.mono hmoved.counter).append (PagesOk.advance ⟨hok, halign⟩ hmoved))
      exact ⟨hpages, hmoved.counter.trans hcount⟩

variable {pool pool' : SlicedPool}

theorem cleanup_leaves (explicit : Bool) (h : PagesOk heap pool.alignment pool.pages) :
    Leaves heap pool (pool.cleanup explicit heap).2.2 (pool.cleanup explicit heap).1 := by
  cases explicit with
  | false => exact ⟨h, le_rfl, rfl, rfl⟩
  | true =>
    obtain ⟨hok, hle⟩ := cleanupPages_advances 0 [] h (List.forall_mem_nil _)
    exact ⟨hok, hle, rfl, rfl⟩

theorem tryReserve_leaves (h : PagesOk heap pool.alignment pool.pages)
    (he : pool.tryReserve size heap = .ok (result, pool', heap')) : Leaves heap pool heap' pool' := by
  obtain ⟨⟨_, pages, heap₁⟩, hpages, he⟩ := bind_eq_ok.mp he
  obtain ⟨-, hp⟩ := Prod.mk.inj (Except.ok.inj he)
  obtain ⟨rfl, rfl⟩ := Prod.mk.inj hp
  obtain ⟨hok, hle⟩ := reservePages_advances h hpages
  exact ⟨hok, hle, rfl, rfl⟩

theorem alloc_leaves {mapped : Bool} {answer : Option StorageHandle} {handle : ManagedMemoryHandle}
    (h : PagesOk heap pool.alignment pool.pages)
    (ha : ∀ storage, answer = some storage → storage.offset + storage.size ≤ u64Max)
    (he : pool.alloc size mapped answer heap = .ok (handle, pool', heap')) : Leaves heap pool heap' pool' := by
  unfold alloc at he
  split at he
  · cases he
  cases answer with
  | none => cases he
  | some storage =>
    obtain ⟨⟨returned, page, heap₁⟩, htry, he⟩ := bind_eq_ok.mp he
    have hok := MemoryPage.newWithMapping_ok heap pool.alignment mapped
      { pool.locationBase with page := pool.pages.length } (ha storage rfl)
    have hadv := MemoryPage.tryReserve_advances hok htry
    cases returned with
    | none => cases he
    | some returned =>
      obtain ⟨-, hp⟩ := Prod.mk.inj (Except.ok.inj he)
      obtain ⟨rfl, rfl⟩ := Prod.mk.inj hp
      have hle : heap.counter ≤ heap₁.counter := (Nat.le_succ _).trans hadv.counter
      exact ⟨(h.mono hle).append (PagesOk.advance ⟨hok, rfl⟩ hadv), hle, rfl, rfl⟩

theorem withPage_leaves {index : Nat}
    {method : MemoryPage × StorageId → Res IoError ((MemoryPage × StorageId) × Heap)}
    (h : PagesOk heap pool.alignment pool.pages)
    (hm : ∀ page id page' id' heap', page.Ok heap → method (page, id) = .ok ((page', id'), heap') →
      MemoryPage.Advances heap page heap' page')
    (he : pool.withPage index method = .ok (pool', heap')) : Leaves heap pool heap' pool' := by
  unfold withPage at he
  split at he
  · cases he
  · next entry hp =>
    obtain ⟨⟨⟨page', id'⟩, heap₁⟩, hr, he⟩ := bind_eq_ok.mp he
    obtain ⟨rfl, rfl⟩ := Prod.mk.inj (Except.ok.inj he)
    have hadv := hm entry.1 entry.2 page' id' heap₁ (h entry (List.mem_of_getElem? hp)).1 hr
    exact ⟨h.set hp hadv, hadv.counter, rfl, rfl⟩

theorem bind_leaves {reserved assigned cursor : Nat} (h : PagesOk heap pool.alignment pool.pages)
    (ha : assigned < heap.counter) (he : pool.bind reserved assigned cursor heap = .ok (pool', heap')) :
    Leaves heap pool heap' pool' := by
  refine withPage_leaves h (fun page id page' id' heap' hok hb => ?_) he
  obtain ⟨⟨page₁, heap₁⟩, hpage, hb⟩ := bind_eq_ok.mp hb
  obtain ⟨hp, rfl⟩ := Prod.mk.inj (Except.ok.inj hb)
  obtain ⟨rfl, rfl⟩ := Prod.mk.inj hp
  exact MemoryPage.bind_advances hok ha hpage

theorem materialize_leaves {binding : ManagedMemoryHandle} {answer : Option StorageHandle}
    (h : PagesOk heap pool.alignment pool.pages) (he : pool.materialize binding answer heap = .ok (pool', heap')) :
    Leaves heap pool heap' pool' := by
  refine withPage_leaves h (fun page id page' id' heap' hok hb => ?_) he
  obtain ⟨_, -, hb⟩ := bind_eq_ok.mp hb
  obtain ⟨⟨id₁, page₁⟩, hpage, hb⟩ := bind_eq_ok.mp hb
  obtain ⟨hp, rfl⟩ := Prod.mk.inj (Except.ok.inj hb)
  obtain ⟨rfl, rfl⟩ := Prod.mk.inj hp
  exact MemoryPage.materialize_advances hok hpage

theorem materialize_heap {binding : ManagedMemoryHandle} {answer : Option StorageHandle}
    (he : pool.materialize binding answer heap = .ok (pool', heap')) : heap' = heap := by
  unfold materialize withPage at he
  split at he
  · cases he
  · obtain ⟨⟨_, heap₁⟩, hr, he⟩ := bind_eq_ok.mp he
    obtain ⟨-, rfl⟩ := Prod.mk.inj (Except.ok.inj he)
    obtain ⟨_, -, hr⟩ := bind_eq_ok.mp hr
    obtain ⟨_, -, hr⟩ := bind_eq_ok.mp hr
    exact (Prod.mk.inj (Except.ok.inj hr)).2.symm

theorem releaseRelocated_leaves {allocation : ManagedMemoryHandle} (h : PagesOk heap pool.alignment pool.pages)
    (he : pool.releaseRelocated allocation heap = .ok (pool', heap')) : Leaves heap pool heap' pool' := by
  refine withPage_leaves h (fun page id page' id' heap' hok hb => ?_) he
  obtain ⟨⟨page₁, heap₁⟩, hpage, hb⟩ := bind_eq_ok.mp hb
  obtain ⟨hp, rfl⟩ := Prod.mk.inj (Except.ok.inj hb)
  obtain ⟨rfl, rfl⟩ := Prod.mk.inj hp
  exact MemoryPage.releaseRelocated_advances hok hpage

end SlicedPool

-- Runs

structure PoolWorld where
  pool : SlicedPool
  heap : Heap

/-- References to `handle` that slices of the pool hold. -/
def SlicedPool.references (pool : SlicedPool) (handle : ManagedMemoryHandle) : Nat :=
  (pool.pages.flatMap fun entry => entry.1.slices).countP fun slice => slice.handle == handle

/-- Somebody outside the pool holds a reference to `handle`. -/
def PoolWorld.Held (w : PoolWorld) (handle : ManagedMemoryHandle) : Prop :=
  handle < w.heap.counter ∧ w.pool.references handle < w.heap.strong handle

inductive PoolOp
  | tryReserve (size : Nat)
  /-- `answer` is the storage's. -/
  | alloc (size : Nat) (mapped : Bool) (answer : Option StorageHandle)
  | cleanup (explicit : Bool)
  | bind (reserved assigned : ManagedMemoryHandle) (cursor : Nat)
  | materialize (binding : ManagedMemoryHandle) (answer : Option StorageHandle)
  | releaseRelocated (allocation : ManagedMemoryHandle)
  -- methods of one page
  | pageReserve (index size : Nat)
  | pageCoalesce (index : Nat)
  | pageUpdate (index position : Nat)
  -- owners of handles and guards
  | newHandle
  | clone (handle : ManagedMemoryHandle)
  | drop (handle : ManagedMemoryHandle)
  | guard (page : PageRef)
  | unguard (page : PageRef)

/-- A chunk that the storage hands out ends in the address range; only references that
exist are passed on, cloned or dropped. -/
def PoolOp.Allowed (w : PoolWorld) : PoolOp → Prop
  | .alloc _ _ (some storage) => storage.offset + storage.size ≤ u64Max
  | .bind reserved assigned _ => w.Held reserved ∧ w.Held assigned
  | .clone handle => 0 < w.heap.strong handle
  | .drop handle => w.Held handle
  | .unguard page => w.heap.guarded page
  | _ => True

def PoolOp.run (w : PoolWorld) : PoolOp → Res IoError PoolWorld
  | .tryReserve size => do
    let (_, pool, heap) ← w.pool.tryReserve size w.heap
    .ok ⟨pool, heap⟩
  | .alloc size mapped answer => do
    let (_, pool, heap) ← w.pool.alloc size mapped answer w.heap
    .ok ⟨pool, heap⟩
  | .cleanup explicit => .ok ⟨(w.pool.cleanup explicit w.heap).1, (w.pool.cleanup explicit w.heap).2.2⟩
  | .bind reserved assigned cursor => do
    let (pool, heap) ← w.pool.bind reserved assigned cursor w.heap
    .ok ⟨pool, heap⟩
  | .materialize binding answer => do
    let (pool, heap) ← w.pool.materialize binding answer w.heap
    .ok ⟨pool, heap⟩
  | .releaseRelocated allocation => do
    let (pool, heap) ← w.pool.releaseRelocated allocation w.heap
    .ok ⟨pool, heap⟩
  | .pageReserve index size => do
    let (pool, heap) ← w.pool.withPage index fun (page, id) => do
      let (_, page, heap) ← page.tryReserve size w.heap
      .ok ((page, id), heap)
    .ok ⟨pool, heap⟩
  | .pageCoalesce index => do
    let (pool, heap) ← w.pool.withPage index fun (page, id) =>
      .ok (((page.coalesce w.heap).1, id), (page.coalesce w.heap).2)
    .ok ⟨pool, heap⟩
  | .pageUpdate index position => do
    let (pool, heap) ← w.pool.withPage index fun (page, id) =>
      .ok (((page.updatePage position w.heap).1, id), (page.updatePage position w.heap).2)
    .ok ⟨pool, heap⟩
  | .newHandle => .ok ⟨w.pool, w.heap.newHandle.2⟩
  | .clone handle => .ok ⟨w.pool, w.heap.clone handle⟩
  | .drop handle => .ok ⟨w.pool, w.heap.drop handle⟩
  | .guard page => .ok ⟨w.pool, w.heap.guard page⟩
  | .unguard page => .ok ⟨w.pool, w.heap.unguard page⟩

/-- The states of a pool made by `SlicedPool::new` on whatever handles there are. A call
that returns an error leaves the pool as it was. -/
inductive PoolWorld.Reachable : PoolWorld → Prop
  | new (pageSize maxSliceSize alignment poolPos : Nat) (heap : Heap) :
      Reachable ⟨.new pageSize maxSliceSize alignment poolPos, heap⟩
  | step {w w' : PoolWorld} (op : PoolOp) : Reachable w → op.Allowed w → op.run w = .ok w' → Reachable w'

def PoolWorld.Ok (w : PoolWorld) : Prop := PagesOk w.heap w.pool.alignment w.pool.pages

variable {w w' : PoolWorld}

theorem SlicedPool.Leaves.world {pool : SlicedPool} (h : Leaves w.heap w.pool heap pool) : PoolWorld.Ok ⟨pool, heap⟩ := by
  rw [PoolWorld.Ok, h.alignment]
  exact h.ok

theorem PoolOp.run_ok {op : PoolOp} (h : w.Ok) (hallowed : op.Allowed w) (he : op.run w = .ok w') : w'.Ok := by
  cases op with
  | tryReserve size =>
    obtain ⟨⟨_, pool, heap⟩, hr, he⟩ := bind_eq_ok.mp he
    obtain rfl := Except.ok.inj he
    exact (SlicedPool.tryReserve_leaves h hr).world
  | alloc size mapped answer =>
    obtain ⟨⟨_, pool, heap⟩, hr, he⟩ := bind_eq_ok.mp he
    obtain rfl := Except.ok.inj he
    refine (SlicedPool.alloc_leaves h (fun storage hs => ?_) hr).world
    subst hs
    exact hallowed
  | cleanup explicit =>
    obtain rfl := Except.ok.inj he
    exact (SlicedPool.cleanup_leaves explicit h).world
  | bind reserved assigned cursor =>
    obtain ⟨⟨pool, heap⟩, hr, he⟩ := bind_eq_ok.mp he
    obtain rfl := Except.ok.inj he
    exact (SlicedPool.bind_leaves h hallowed.2.1 hr).world
  | materialize binding answer =>
    obtain ⟨⟨pool, heap⟩, hr, he⟩ := bind_eq_ok.mp he
    obtain rfl := Except.ok.inj he
    exact (SlicedPool.materialize_leaves h hr).world
  | releaseRelocated allocation =>
    obtain ⟨⟨pool, heap⟩, hr, he⟩ := bind_eq_ok.mp he
    obtain rfl := Except.ok.inj he
    exact (SlicedPool.releaseRelocated_leaves h hr).world
  | pageReserve index size =>
    obtain ⟨⟨pool, heap⟩, hr, he⟩ := bind_eq_ok.mp he
    obtain rfl := Except.ok.inj he
    refine (SlicedPool.withPage_leaves h (fun page id page' id' heap' hok hb => ?_) hr).world
    obtain ⟨⟨_, page₁, heap₁⟩, hpage, he⟩ := bind_eq_ok.mp hb
    obtain ⟨hp, rfl⟩ := Prod.mk.inj (Except.ok.inj he)
    obtain ⟨rfl, rfl⟩ := Prod.mk.inj hp
    exact MemoryPage.tryReserve_advances hok hpage
  | pageCoalesce index =>
    obtain ⟨⟨pool, heap⟩, hr, he⟩ := bind_eq_ok.mp he
    obtain rfl := Except.ok.inj he
    refine (SlicedPool.withPage_leaves h (fun page id page' id' heap' hok hb => ?_) hr).world
    obtain ⟨hp, rfl⟩ := Prod.mk.inj (Except.ok.inj hb)
    obtain ⟨rfl, rfl⟩ := Prod.mk.inj hp
    exact MemoryPage.coalesce_advances hok
  | pageUpdate index position =>
    obtain ⟨⟨pool, heap⟩, hr, he⟩ := bind_eq_ok.mp he
    obtain rfl := Except.ok.inj he
    refine (SlicedPool.withPage_leaves h (fun page id page' id' heap' hok hb => ?_) hr).world
    obtain ⟨hp, rfl⟩ := Prod.mk.inj (Except.ok.inj hb)
    obtain ⟨rfl, rfl⟩ := Prod.mk.inj hp
    exact MemoryPage.updatePage_advances hok position
  | newHandle =>
    obtain rfl := Except.ok.inj he
    exact h.mono (Nat.le_succ _)
  | clone handle =>
    obtain rfl := Except.ok.inj he
    exact h.mono le_rfl
  | drop handle =>
    obtain rfl := Except.ok.inj he
    exact h.mono le_rfl
  | guard page =>
    obtain rfl := Except.ok.inj he
    exact h.mono le_rfl
  | unguard page =>
    obtain rfl := Except.ok.inj he
    exact h.mono le_rfl

theorem PoolWorld.Reachable.ok (h : w.Reachable) : w.Ok := by
  induction h with
  | new pageSize maxSliceSize alignment poolPos heap => exact nofun
  | step op _ hallowed he ih => exact op.run_ok ih hallowed he

end Ruda.Memory
