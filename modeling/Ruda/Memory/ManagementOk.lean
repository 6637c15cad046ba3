import Ruda.Lib.Maintain
import Ruda.Memory.Management
import Ruda.Memory.Pool

/-!
# Sliced pools of the manager stay in order

Whatever a manager does, relocation included, its sliced pools hold pages in order
and the current pool is a sliced one.
-/

namespace Ruda.Memory

open Mem

variable {σ α β : Type} {S : ComputeStorage σ} {s s' s'' s₀ : MemoryManagement σ} {c alignment size index : Nat}
variable {pool pool' : DynamicPool}

def DynamicPool.isSliced : DynamicPool → Bool
  | .sliced _ => true
  | .exclusive _ => false

def DynamicPool.Ok (heap : Heap) (alignment : Nat) : DynamicPool → Prop
  | .sliced pool => pool.alignment = alignment ∧ pool.pageSize ≤ u64Max ∧ PagesOk heap alignment pool.pages
  | .exclusive _ => True

theorem DynamicPool.Ok.mono {heap heap' : Heap} (h : pool.Ok heap alignment) (hc : heap.counter ≤ heap'.counter) :
    pool.Ok heap' alignment := by
  cases pool with
  | sliced pool => exact ⟨h.1, h.2.1, h.2.2.mono hc⟩
  | exclusive pool => trivial

theorem DynamicPool.Ok.pages {heap : Heap} {pool : SlicedPool} (h : DynamicPool.Ok heap alignment (.sliced pool)) :
    PagesOk heap pool.alignment pool.pages := h.1 ▸ h.2.2

theorem DynamicPool.Ok.leave {heap heap' heap₀ : Heap} {pool pool' : SlicedPool}
    (h : DynamicPool.Ok heap₀ alignment (.sliced pool)) (hl : SlicedPool.Leaves heap pool heap' pool') :
    DynamicPool.Ok heap' alignment (.sliced pool') :=
  ⟨hl.alignment.trans h.1, hl.pageSize ▸ h.2.1, h.1 ▸ hl.ok⟩

-- Pools of whole allocations only add handles

section
variable {heap heap' : Heap} {result : Option ManagedMemoryHandle} {handle : ManagedMemoryHandle}

theorem allocated_counter (mapped : Bool) (storage : StorageHandle) (size padding : Nat) (location : MemoryLocation)
    (heap : Heap) : heap.counter ≤ (Slice.allocated mapped storage size padding location heap).2.counter :=
  Nat.le_succ _

theorem dropFree_counter (slices : List Slice) (heap : Heap) : (dropFree slices heap).2.2.counter = heap.counter := by
  induction slices generalizing heap with
  | nil => rfl
  | cons slice rest ih =>
    rw [dropFree]
    split
    · exact ih _
    · exact ih _

theorem indexSlices_counter (index : Nat) (slices : List Slice) (heap : Heap) :
    (indexSlices index slices heap).counter = heap.counter := by
  induction slices generalizing index heap with
  | nil => rfl
  | cons slice rest ih => exact ih _ _

theorem PersistentPool.tryReserve_counter {pool pool' : PersistentPool}
    (h : pool.tryReserve size heap = .ok (result, pool', heap')) : heap.counter ≤ heap'.counter := by
  have hamong : ∀ {padding slices positions result slices' heap'},
      PersistentPool.reserveAmong size padding heap slices positions = .ok (result, slices', heap') →
        heap.counter ≤ heap'.counter := by
    intro padding slices positions
    induction positions with
    | nil =>
      intro _ _ _ h
      obtain ⟨-, hp⟩ := Prod.mk.inj (Except.ok.inj h)
      obtain ⟨-, rfl⟩ := Prod.mk.inj hp
      exact le_rfl
    | cons position rest ih =>
      intro _ _ _ h
      unfold PersistentPool.reserveAmong at h
      split at h
      · cases h
      · split at h
        · obtain ⟨-, hp⟩ := Prod.mk.inj (Except.ok.inj h)
          obtain ⟨-, rfl⟩ := Prod.mk.inj hp
          exact le_rfl
        · exact ih h
  obtain ⟨padding, -, h⟩ := bind_eq_ok.mp h
  split at h
  · obtain ⟨-, hp⟩ := Prod.mk.inj (Except.ok.inj h)
    obtain ⟨-, rfl⟩ := Prod.mk.inj hp
    exact le_rfl
  · obtain ⟨⟨_, _, _⟩, hr, h⟩ := bind_eq_ok.mp h
    obtain ⟨-, hp⟩ := Prod.mk.inj (Except.ok.inj h)
    obtain ⟨-, rfl⟩ := Prod.mk.inj hp
    exact hamong hr

theorem PersistentPool.alloc_counter {pool pool' : PersistentPool} {mapped : Bool} {storage : StorageHandle}
    (h : pool.alloc size mapped storage heap = .ok (handle, pool', heap')) : heap.counter ≤ heap'.counter := by
  obtain ⟨padding, -, h⟩ := bind_eq_ok.mp h
  obtain ⟨-, hp⟩ := Prod.mk.inj (Except.ok.inj h)
  obtain ⟨-, rfl⟩ := Prod.mk.inj hp
  exact allocated_counter _ _ _ _ _ _

theorem PersistentPool.cleanup_counter (pool : PersistentPool) (explicit : Bool) (heap : Heap) :
    (pool.cleanup explicit heap).2.2.counter = heap.counter := by
  cases explicit with
  | false => rfl
  | true => exact (indexSlices_counter _ _ _).trans (dropFree_counter _ _)

theorem PersistentPool.bind_counter {pool pool' : PersistentPool} {old new cursor : Nat}
    (h : pool.bind old new cursor heap = .ok (pool', heap')) : heap.counter ≤ heap'.counter := by
  unfold PersistentPool.bind at h
  simp only at h
  split at h
  · cases h
  · obtain ⟨-, rfl⟩ := Prod.mk.inj (Except.ok.inj h)
    exact le_rfl

theorem DedicatedAllocations.alloc_counter {pool pool' : DedicatedAllocations} {mapped : Bool} {storage : StorageHandle}
    (h : pool.alloc size mapped storage heap = .ok (handle, pool', heap')) : heap.counter ≤ heap'.counter := by
  obtain ⟨padding, -, h⟩ := bind_eq_ok.mp h
  obtain ⟨-, hp⟩ := Prod.mk.inj (Except.ok.inj h)
  obtain ⟨-, rfl⟩ := Prod.mk.inj hp
  exact allocated_counter _ _ _ _ _ _

theorem DedicatedAllocations.reclaim_counter (pool : DedicatedAllocations) (heap : Heap) :
    (pool.reclaim heap).2.2.2.counter = heap.counter :=
  (indexSlices_counter _ _ _).trans (dropFree_counter _ _)

theorem DedicatedAllocations.bind_counter {pool pool' : DedicatedAllocations} {reserved assigned cursor : Nat}
    (h : pool.bind reserved assigned cursor heap = .ok (pool', heap')) : heap.counter ≤ heap'.counter := by
  unfold DedicatedAllocations.bind at h
  simp only at h
  split at h
  · cases h
  · obtain ⟨-, rfl⟩ := Prod.mk.inj (Except.ok.inj h)
    exact le_rfl

theorem ExclusiveMemoryPool.tryReserve_counter {pool pool' : ExclusiveMemoryPool}
    (h : pool.tryReserve size heap = .ok (result, pool', heap')) : heap.counter ≤ heap'.counter := by
  obtain ⟨padding, -, h⟩ := bind_eq_ok.mp h
  split at h
  · obtain ⟨-, hp⟩ := Prod.mk.inj (Except.ok.inj h)
    obtain ⟨-, rfl⟩ := Prod.mk.inj hp
    exact le_rfl
  · split at h
    · cases h
    · obtain ⟨-, hp⟩ := Prod.mk.inj (Except.ok.inj h)
      obtain ⟨-, rfl⟩ := Prod.mk.inj hp
      exact le_rfl

theorem ExclusiveMemoryPool.alloc_counter {pool pool' : ExclusiveMemoryPool} {mapped : Bool} {storage : StorageHandle}
    (h : pool.alloc size mapped storage heap = .ok (handle, pool', heap')) : heap.counter ≤ heap'.counter := by
  obtain ⟨total, -, h⟩ := bind_eq_ok.mp h
  obtain ⟨padding, -, h⟩ := bind_eq_ok.mp h
  obtain ⟨-, hp⟩ := Prod.mk.inj (Except.ok.inj h)
  obtain ⟨-, rfl⟩ := Prod.mk.inj hp
  exact allocated_counter _ _ _ _ _ _

theorem ExclusiveMemoryPool.cleanup_counter (pool : ExclusiveMemoryPool) (allocNr : Nat) (explicit : Bool) (heap : Heap) :
    (pool.cleanup allocNr explicit heap).2.2.counter = heap.counter := by
  have hpages : ∀ (pages kept : List ExclusivePage) (freed : List StorageId) (heap : Heap),
      (ExclusiveMemoryPool.cleanupPages explicit pages kept freed heap).2.2.counter = heap.counter := by
    intro pages
    induction pages with
    | nil => exact fun _ _ _ => rfl
    | cons page rest ih =>
      intro kept freed heap
      rw [ExclusiveMemoryPool.cleanupPages]
      generalize (if page.slice.isFree heap then { page with freeCount := wrap32 (page.freeCount + 1) } else page) = page'
      split
      · exact ih _ _ _
      · exact ih _ _ _
  unfold ExclusiveMemoryPool.cleanup
  split
  · exact hpages _ _ _ _
  · rfl

theorem ExclusiveMemoryPool.bind_counter {pool pool' : ExclusiveMemoryPool} {old new cursor : Nat}
    (h : pool.bind old new cursor heap = .ok (pool', heap')) : heap.counter ≤ heap'.counter := by
  unfold ExclusiveMemoryPool.bind at h
  simp only at h
  split at h
  · cases h
  · obtain ⟨-, rfl⟩ := Prod.mk.inj (Except.ok.inj h)
    exact le_rfl

end

namespace MemoryManagement

/-- The sliced pools are in order and aligned to `al`, the current one is among them, there are
`n` pools or more, and no handle below `c` is new. -/
structure OkFrom (al n c : Nat) (s : MemoryManagement σ) : Prop where
  pools : ∀ pool ∈ s.pools, pool.Ok s.heap s.adaptive.alignment
  current : s.pools[s.adaptive.current]?.any DynamicPool.isSliced = true
  alignment : s.adaptive.alignment = al
  count : n ≤ s.pools.length
  maxPageSize : s.adaptive.maxPageSize ≤ u64Max
  counter : c ≤ s.heap.counter

/-- Pools and layout stay; handles are only added. -/
structure Grows (s s' : MemoryManagement σ) : Prop where
  pools : s'.pools = s.pools
  adaptive : s'.adaptive = s.adaptive
  counter : s.heap.counter ≤ s'.heap.counter

theorem Grows.refl (s : MemoryManagement σ) : Grows s s := ⟨rfl, rfl, le_rfl⟩

theorem Grows.trans (h : Grows s s') (h' : Grows s' s'') : Grows s s'' :=
  ⟨h'.pools.trans h.pools, h'.adaptive.trans h.adaptive, h.counter.trans h'.counter⟩

theorem OkFrom.grow (h : OkFrom al n c s) (hg : Grows s s') : OkFrom al n c s' where
  pools pool hp := by
    rw [hg.adaptive]
    exact (h.pools pool (hg.pools ▸ hp)).mono hg.counter
  current := by rw [hg.pools, hg.adaptive]; exact h.current
  alignment := by rw [hg.adaptive]; exact h.alignment
  count := by rw [hg.pools]; exact h.count
  maxPageSize := by rw [hg.adaptive]; exact h.maxPageSize
  counter := h.counter.trans hg.counter

theorem OkFrom.own (h : OkFrom al n c s) : OkFrom al n s.heap.counter s := ⟨h.pools, h.current, h.alignment, h.count, h.maxPageSize, le_rfl⟩

theorem OkFrom.recount {n' : Nat} (h : OkFrom al n c s) (hn : n' ≤ s.pools.length) : OkFrom al n' c s :=
  ⟨h.pools, h.current, h.alignment, hn, h.maxPageSize, h.counter⟩

theorem OkFrom.weaken (h : OkFrom al n c s) (hc : c' ≤ c) : OkFrom al n c' s := ⟨h.pools, h.current, h.alignment, h.count, h.maxPageSize, hc.trans h.counter⟩

end MemoryManagement

open MemoryManagement

-- Steps

theorem Triple.ofRes_bind {r : Res IoError α} {f : α → Mem σ β} {R : β → MemoryManagement σ → Prop}
    {E : Fault → MemoryManagement σ → Prop} (hf : ∀ a, r = .ok a → Triple (f a) s R E) (he : ∀ f, E f s) :
    Triple (ofRes r >>= f) s R E := by
  rcases r with (e | _) | a
  · exact he _
  · exact he _
  · exact hf a rfl

theorem maintains_ofRes {P : MemoryManagement σ → Prop} (r : Res IoError α) : Maintains P (ofRes r) := by
  rcases r with (e | _) | a <;> exact fun _ h => h

theorem attempt_spec {m : Mem σ α} {Q : α → MemoryManagement σ → Prop} {E : Fault → MemoryManagement σ → Prop}
    (h : Triple m s Q E) : Triple (attempt m) s
      (fun r s' => (∀ a, r = .ok a → Q a s') ∧ ∀ message, r = .error message → E (.error message) s') E := by
  refine Triple.catch' (Triple.map' (h.mono (fun a s' hq => ⟨fun _ ha => Except.ok.inj ha ▸ hq, nofun⟩) fun _ _ he => he))
    fun f s' he => ?_
  cases f with
  | error message => exact Triple.pure' ⟨nofun, fun _ hm => Except.error.inj hm ▸ he⟩
  | panic message => exact Triple.panic' he

theorem maintains_attempt {P : MemoryManagement σ → Prop} {m : Mem σ α} (h : Maintains P m) :
    Maintains P (attempt m) := by
  refine .tryCatch h.map fun f => ?_
  cases f with
  | error message => exact .pure _
  | panic message => exact .panic message

theorem grows_onHeap {f : Heap → α × Heap} (h : ∀ heap, heap.counter ≤ (f heap).2.counter) :
    Maintains (Grows s₀) (onHeap f) :=
  .read fun s hs => Triple.set_bind (Triple.pure' (hs.trans ⟨rfl, rfl, h s.heap⟩))

theorem grows_onStorage (call : StorageCall) (f : σ → α × σ) : Maintains (Grows s₀) (onStorage call f) :=
  .read fun _ hs => Triple.set_bind (Triple.pure' (hs.trans ⟨rfl, rfl, le_rfl⟩))

theorem foldl_drop_counter (handles : List ManagedMemoryHandle) (heap : Heap) :
    (handles.foldl Heap.drop heap).counter = heap.counter := by
  induction handles generalizing heap with
  | nil => rfl
  | cons handle rest ih => exact ih _

theorem grows_dropAll (handles : List ManagedMemoryHandle) : Maintains (Grows s₀) (dropAll handles) :=
  grows_onHeap fun heap => (foldl_drop_counter handles heap).ge

theorem grows_deallocAll (freed : List StorageId) : Maintains (Grows s₀) (deallocAll S freed) := by
  induction freed with
  | nil => exact .pure ()
  | cons id rest ih => exact .bind (grows_onStorage _ _) fun _ => ih

theorem grows_flushStorage : Maintains (Grows s₀) (flushStorage S) := grows_onStorage _ _

theorem grows_allocStorage (size : Nat) : Maintains (Grows s₀) (allocStorage S size) :=
  .bind (grows_onStorage _ _) fun _ => .need

theorem grows_allocUnmapped (mapped : Bool) (size : Nat) : Maintains (Grows s₀) (allocUnmapped S mapped size) :=
  .ite (fun _ => .pure _) fun _ => (grows_allocStorage size).map

theorem grows_newStorageId : Maintains (Grows s₀) (newStorageId S) :=
  .read fun _ hs => Triple.set_bind (Triple.pure' (hs.trans ⟨rfl, rfl, le_rfl⟩))

theorem allocateMapping_spec (hsize : size ≤ u64Max) (hs : Grows s₀ s) : Triple (allocateMapping S size) s
    (fun storage s' => Grows s₀ s' ∧ storage.offset + storage.size ≤ u64Max) fun _ s' => Grows s₀ s' := by
  refine Triple.get_bind (Triple.ite (fun _ => ?_) fun _ => ?_)
  · refine Triple.bind (grows_newStorageId s hs) fun id s' hs' => Triple.pure' ⟨hs', ?_⟩
    show 0 + size ≤ u64Max
    rwa [Nat.zero_add]
  · unfold allocStorage
    have hcall : Triple (onStorage (.alloc size) (S.alloc size)) s
        (fun answer s' => Grows s₀ s' ∧ ∀ storage, answer = some storage → storage.offset + storage.size ≤ u64Max)
        fun _ s' => Grows s₀ s' :=
      Triple.get_bind (Triple.set_bind (Triple.pure' ⟨hs.trans ⟨rfl, rfl, le_rfl⟩, fun storage ha => S.alloc_fits _ _ _ ha⟩))
    refine Triple.bind hcall fun answer s' h => Triple.need (fun storage ha => ⟨h.1, h.2 storage ha⟩) fun _ => h.1

theorem grows_allocateMapping (size : Nat) : Maintains (Grows s₀) (allocateMapping S size) :=
  .bind .get fun _ => .ite (fun _ => .bind grows_newStorageId fun _ => .pure _) fun _ => grows_allocStorage size

-- One pool

/-- After a call of `pool` only handles, storage and the pool itself have moved. -/
structure Kept (s : MemoryManagement σ) (alignment : Nat) (pool : DynamicPool) (s' : MemoryManagement σ)
    (pool' : DynamicPool) : Prop where
  grows : Grows s s'
  ok : pool'.Ok s'.heap alignment
  sliced : pool'.isSliced = pool.isSliced

theorem tryReserveIn_spec (h : pool.Ok s.heap alignment) (size : Nat) :
    Triple (tryReserveIn pool size) s (fun r s' => Kept s alignment pool s' r.2) fun _ s' => Grows s s' := by
  refine Triple.get_bind ?_
  cases pool with
  | sliced pool =>
    refine Triple.ofRes_bind (fun ⟨reserved, pool', heap⟩ hr => Triple.set_bind (Triple.pure' ?_)) fun _ => .refl s
    have hl := SlicedPool.tryReserve_leaves h.pages hr
    exact ⟨⟨rfl, rfl, hl.counter⟩, h.leave hl, rfl⟩
  | exclusive pool =>
    refine Triple.ofRes_bind (fun ⟨reserved, pool', heap⟩ hr => Triple.set_bind (Triple.pure' ?_)) fun _ => .refl s
    exact ⟨⟨rfl, rfl, ExclusiveMemoryPool.tryReserve_counter hr⟩, trivial, rfl⟩

theorem allocIn_spec (h : pool.Ok s.heap alignment) (size : Nat) :
    Triple (allocIn S pool size) s (fun r s' => Kept s alignment pool s' r.2) fun _ s' => Grows s s' := by
  cases pool with
  | sliced pool =>
    refine Triple.failIf_bind (fun _ => .refl s) fun _ => ?_
    refine Triple.bind (allocateMapping_spec h.2.1 (.refl s)) fun storage s' hs' => Triple.get_bind ?_
    refine Triple.ofRes_bind (fun ⟨handle, pool', heap⟩ hr => Triple.set_bind (Triple.pure' ?_)) fun _ => hs'.1
    have hl := SlicedPool.alloc_leaves (h.pages.mono hs'.1.counter) (fun storage hs => Option.some.inj hs ▸ hs'.2) hr
    exact ⟨hs'.1.trans ⟨rfl, rfl, hl.counter⟩, h.leave hl, rfl⟩
  | exclusive pool =>
    refine Triple.ofRes_bind (fun total _ => ?_) fun _ => .refl s
    refine Triple.bind (grows_allocateMapping total s (.refl s)) fun storage s' hs' => Triple.get_bind ?_
    refine Triple.ofRes_bind (fun ⟨handle, pool', heap⟩ hr => Triple.set_bind (Triple.pure' ?_)) fun _ => hs'
    exact ⟨hs'.trans ⟨rfl, rfl, ExclusiveMemoryPool.alloc_counter hr⟩, trivial, rfl⟩

theorem cleanupIn_spec (h : pool.Ok s.heap alignment) (allocNr : Nat) (explicit : Bool) :
    Triple (cleanupIn S pool allocNr explicit) s (fun pool' s' => Kept s alignment pool s' pool') fun _ s' => Grows s s' := by
  have hflush : ∀ (freed : List StorageId) (pool' : DynamicPool) (t : MemoryManagement σ), Grows s t →
      pool'.Ok t.heap alignment → pool'.isSliced = pool.isSliced →
      Triple (do deallocAll S freed; flushStorage S; pure pool') t (fun pool' s' => Kept s alignment pool s' pool')
        fun _ s' => Grows s s' := by
    intro freed pool' t ht hok hsame
    refine Triple.mono (Q := fun pool'' s' => Grows t s' ∧ pool'' = pool') (E := fun _ s' => Grows t s') ?_ ?_ ?_
    · refine Triple.bind (grows_deallocAll freed t (.refl t)) fun _ t₁ h₁ => ?_
      exact Triple.bind (grows_flushStorage t₁ h₁) fun _ t₂ h₂ => Triple.pure' ⟨h₂, rfl⟩
    · rintro _ s' ⟨hs', rfl⟩
      exact ⟨ht.trans hs', hok.mono hs'.counter, hsame⟩
    · exact fun _ s' hs' => ht.trans hs'
  refine Triple.get_bind ?_
  cases pool with
  | sliced pool =>
    refine Triple.set_bind ?_
    have hl := SlicedPool.cleanup_leaves explicit h.pages
    exact hflush _ _ _ ⟨rfl, rfl, hl.counter⟩ (h.leave hl) rfl
  | exclusive pool =>
    refine Triple.set_bind ?_
    exact hflush _ _ _ ⟨rfl, rfl, (ExclusiveMemoryPool.cleanup_counter pool allocNr explicit s.heap).ge⟩ trivial rfl

theorem bindIn_spec {reserved assigned cursor : Nat} (h : pool.Ok s.heap alignment) (ha : assigned < s.heap.counter) :
    Triple (bindIn pool reserved assigned cursor) s (fun pool' s' => Kept s alignment pool s' pool') fun _ s' => Grows s s' := by
  refine Triple.get_bind ?_
  cases pool with
  | sliced pool =>
    refine Triple.ofRes_bind (fun ⟨pool', heap⟩ hr => Triple.set_bind (Triple.pure' ?_)) fun _ => .refl s
    have hl := SlicedPool.bind_leaves h.pages ha hr
    exact ⟨⟨rfl, rfl, hl.counter⟩, h.leave hl, rfl⟩
  | exclusive pool =>
    refine Triple.ofRes_bind (fun ⟨pool', heap⟩ hr => Triple.set_bind (Triple.pure' ?_)) fun _ => .refl s
    exact ⟨⟨rfl, rfl, ExclusiveMemoryPool.bind_counter hr⟩, trivial, rfl⟩

theorem materializeIn_spec (h : pool.Ok s.heap alignment) (binding : ManagedMemoryHandle) :
    Triple (materializeIn S pool binding) s (fun pool' s' => Kept s alignment pool s' pool') fun _ s' => Grows s s' := by
  refine Triple.get_bind ?_
  cases pool with
  | sliced pool =>
    refine Triple.expect_bind (fun _ => .refl s) fun ⟨page, id⟩ _ => ?_
    refine Triple.ofRes_bind (fun slice _ => ?_) fun _ => .refl s
    refine Triple.bind (grows_allocUnmapped _ _ s (.refl s)) fun answer s' hs' => ?_
    refine Triple.ofRes_bind (fun ⟨pool', heap⟩ hr => Triple.pure' ?_) fun _ => hs'
    have hsame := SlicedPool.materialize_heap hr
    have hok := h.leave (SlicedPool.materialize_leaves h.pages hr)
    exact ⟨hs', hok.mono (hsame ▸ hs'.counter), rfl⟩
  | exclusive pool =>
    refine Triple.ofRes_bind (fun slice _ => ?_) fun _ => .refl s
    refine Triple.expect_bind (fun _ => .refl s) fun page _ => ?_
    refine Triple.bind (grows_allocUnmapped _ _ s (.refl s)) fun answer s' hs' => ?_
    exact Triple.ofRes_bind (fun pool' _ => Triple.pure' ⟨hs', trivial, rfl⟩) fun _ => hs'

-- Pools by index

theorem maintains_of_grows {m : Mem σ α} (h : ∀ s₀, Maintains (Grows s₀) m) : Maintains (OkFrom al n c) m :=
  fun s hs => (h s s (.refl s)).mono (fun _ _ hg => hs.grow hg) fun _ _ hg => hs.grow hg

theorem MemoryManagement.OkFrom.put (h : OkFrom al n c s) (hk : Kept s s.adaptive.alignment pool s' pool')
    (hp : s.pools[index]? = some pool) : OkFrom al n c { s' with pools := s'.pools.set index pool' } where
  pools p hmem := by
    rw [hk.grows.pools] at hmem
    show p.Ok s'.heap s'.adaptive.alignment
    rw [hk.grows.adaptive]
    rcases List.mem_or_eq_of_mem_set hmem with hold | rfl
    · exact (h.pools p hold).mono hk.grows.counter
    · exact hk.ok
  current := by
    have hcurrent := h.current
    show (s'.pools.set index pool')[s'.adaptive.current]?.any DynamicPool.isSliced = true
    rw [hk.grows.pools, hk.grows.adaptive, List.getElem?_set]
    split
    · next hi =>
      rw [if_pos (List.getElem?_eq_some_iff.mp hp).1]
      rw [← hi, hp] at hcurrent
      exact hk.sliced.trans hcurrent
    · exact hcurrent
  alignment := by
    show s'.adaptive.alignment = al
    rw [hk.grows.adaptive]
    exact h.alignment
  count := by
    show n ≤ (s'.pools.set index pool').length
    rw [List.length_set, hk.grows.pools]
    exact h.count
  maxPageSize := by
    show s'.adaptive.maxPageSize ≤ u64Max
    rw [hk.grows.adaptive]
    exact h.maxPageSize
  counter := h.counter.trans hk.grows.counter

theorem poolAt_bind {f : DynamicPool → Mem σ α} {R : α → MemoryManagement σ → Prop} {E : Fault → MemoryManagement σ → Prop}
    (hf : ∀ pool, s.pools[index]? = some pool → Triple (f pool) s R E) (he : ∀ f, E f s) :
    Triple (poolAt index >>= f) s R E :=
  Triple.bind (Q := fun pool s' => s' = s ∧ s.pools[index]? = some pool)
    (Triple.get_bind (Triple.expect (fun _ hp => ⟨rfl, hp⟩) fun _ => he _)) fun pool _ ⟨hs, hp⟩ => hs ▸ hf pool hp

theorem slicedAt_bind {f : SlicedPool → Mem σ α} {R : α → MemoryManagement σ → Prop} {E : Fault → MemoryManagement σ → Prop}
    (hf : ∀ pool, s.pools[index]? = some (.sliced pool) → Triple (f pool) s R E) (he : ∀ f, E f s) :
    Triple (slicedAt index >>= f) s R E := by
  refine Triple.bind (Q := fun pool s' => s' = s ∧ s.pools[index]? = some (.sliced pool))
    (poolAt_bind (fun pool hp => ?_) he) fun pool _ ⟨hs, hp⟩ => hs ▸ hf pool hp
  cases pool with
  | sliced pool => exact Triple.pure' ⟨rfl, hp⟩
  | exclusive pool => exact Triple.panic' (he _)

theorem maintains_at {m : DynamicPool → Mem σ DynamicPool}
    (hm : ∀ s pool, OkFrom al n c s → pool.Ok s.heap s.adaptive.alignment →
      Triple (m pool) s (fun pool' s' => Kept s s.adaptive.alignment pool s' pool') fun _ s' => Grows s s') :
    Maintains (OkFrom al n c) (do
      let pool ← poolAt index
      let pool ← m pool
      setPool index pool) :=
  fun s hs => poolAt_bind (fun pool hp => Triple.bind
    ((hm s pool hs (hs.pools pool (List.mem_of_getElem? hp))).mono (fun _ _ h => h) fun _ _ hg => hs.grow hg)
    fun pool' _ hk => Triple.modify' (hs.put hk hp)) fun _ => hs

theorem maintains_at' {m : DynamicPool → Mem σ (α × DynamicPool)}
    (hm : ∀ s pool, OkFrom al n c s → pool.Ok s.heap s.adaptive.alignment →
      Triple (m pool) s (fun r s' => Kept s s.adaptive.alignment pool s' r.2) fun _ s' => Grows s s') :
    Maintains (OkFrom al n c) (do
      let pool ← poolAt index
      let (a, pool) ← m pool
      setPool index pool
      pure a) :=
  fun s hs => poolAt_bind (fun pool hp => Triple.bind
    ((hm s pool hs (hs.pools pool (List.mem_of_getElem? hp))).mono (fun _ _ h => h) fun _ _ hg => hs.grow hg)
    fun r _ hk => Triple.modify_bind (Triple.pure' (hs.put hk hp))) fun _ => hs

theorem maintains_tryReserveAt (index size : Nat) : Maintains (OkFrom al n c) (tryReserveAt index size : Mem σ _) :=
  maintains_at' fun _ _ _ hok => tryReserveIn_spec hok size

theorem maintains_allocAt (index size : Nat) : Maintains (OkFrom al n c) (allocAt S index size) :=
  maintains_at' fun _ _ _ hok => allocIn_spec hok size

theorem maintains_cleanupAt (allocNr : Nat) (explicit : Bool) (index : Nat) :
    Maintains (OkFrom al n c) (cleanupAt S allocNr explicit index) :=
  maintains_at fun _ _ _ hok => cleanupIn_spec hok allocNr explicit

theorem maintains_bindAt {reserved assigned cursor : Nat} (ha : assigned < c) :
    Maintains (OkFrom al n c) (bindAt index reserved assigned cursor : Mem σ _) :=
  maintains_at fun _ _ hs hok => bindIn_spec hok (ha.trans_le hs.counter)

theorem maintains_materializeAt (index : Nat) (binding : ManagedMemoryHandle) :
    Maintains (OkFrom al n c) (materializeAt S index binding) :=
  maintains_at fun _ _ _ hok => materializeIn_spec hok binding

end Ruda.Memory
