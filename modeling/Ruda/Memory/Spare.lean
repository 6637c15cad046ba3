import Ruda.Memory.Pool
import Ruda.Memory.Pools

/-!
# Reserving spares what is held

A slice whose handle somebody holds keeps its handle and its range while other
slices are reserved or allocated, in every kind of pool.
-/

namespace Ruda.Memory

variable {heap heap' heap'' : Heap} {slices slices' rest : List Slice} {page page' : MemoryPage}
variable {handle : ManagedMemoryHandle} {result : Option ManagedMemoryHandle} {size padding alignment : Nat}

/-- Somebody besides the slice holds `handle`. -/
def Heap.Live (heap : Heap) (handle : ManagedMemoryHandle) : Prop := handle < heap.counter ∧ heap.isFree handle = false

/-- The slices of `handle`. -/
def slicesOf (handle : ManagedMemoryHandle) (slices : List Slice) : List Slice :=
  slices.filter fun slice => slice.handle == handle

theorem Heap.not_live_of_free (h : heap.isFree handle = true) : ¬heap.Live handle := fun hl => by
  rw [hl.2] at h
  cases h

theorem Heap.not_live_counter : ¬heap.Live heap.counter := fun hl => lt_irrefl _ hl.1

/-- Live handles keep their references and their slices. -/
structure Spares (heap : Heap) (slices : List Slice) (heap' : Heap) (slices' : List Slice) : Prop where
  counter : heap.counter ≤ heap'.counter
  strong : ∀ handle, heap.Live handle → heap'.strong handle = heap.strong handle
  slices : ∀ handle, heap.Live handle → slicesOf handle slices' = slicesOf handle slices

theorem slicesOf_append : slicesOf handle (slices ++ rest) = slicesOf handle slices ++ slicesOf handle rest :=
  List.filter_append ..

theorem Heap.Live.ne {free : ManagedMemoryHandle} (h : heap.Live handle) (hf : heap.isFree free = true) : free ≠ handle := by
  rintro rfl
  exact absurd hf (by simp [h.2])

theorem Heap.Live.ne_counter (h : heap.Live handle) : heap.counter ≠ handle := h.1.ne'

namespace Spares

theorem refl (heap : Heap) (slices : List Slice) : Spares heap slices heap slices :=
  ⟨le_rfl, fun _ _ => rfl, fun _ _ => rfl⟩

theorem live (h : Spares heap slices heap' slices') (hl : heap.Live handle) : heap'.Live handle := by
  refine ⟨hl.1.trans_le h.counter, ?_⟩
  have hstrong := h.strong handle hl
  rw [Heap.isFree, hstrong]
  exact hl.2

theorem trans {slices'' : List Slice} (h : Spares heap slices heap' slices') (h' : Spares heap' slices' heap'' slices'') :
    Spares heap slices heap'' slices'' where
  counter := h.counter.trans h'.counter
  strong handle hl := (h'.strong handle (h.live hl)).trans (h.strong handle hl)
  slices handle hl := (h'.slices handle (h.live hl)).trans (h.slices handle hl)

theorem append (h : Spares heap slices heap' slices') (rest : List Slice) :
    Spares heap (slices ++ rest) heap' (slices' ++ rest) :=
  ⟨h.counter, h.strong, fun handle hl => by rw [slicesOf_append, slicesOf_append, h.slices handle hl]⟩

theorem prepend (h : Spares heap slices heap' slices') (front : List Slice) :
    Spares heap (front ++ slices) heap' (front ++ slices') :=
  ⟨h.counter, h.strong, fun handle hl => by rw [slicesOf_append, slicesOf_append, h.slices handle hl]⟩

theorem relocated {location : ManagedMemoryHandle → MemoryLocation} (h : Spares heap slices heap' slices') :
    Spares heap slices { heap' with location } slices' := ⟨h.counter, h.strong, h.slices⟩

theorem clone {free : ManagedMemoryHandle} (hf : heap.isFree free = true) : Spares heap slices (heap.clone free) slices where
  counter := le_rfl
  strong handle hl := by simp [Heap.clone, (hl.ne hf).symm]
  slices _ _ := rfl

theorem drop {free : ManagedMemoryHandle} (hf : heap.isFree free = true) : Spares heap slices (heap.drop free) slices where
  counter := le_rfl
  strong handle hl := by simp [Heap.drop, (hl.ne hf).symm]
  slices _ _ := rfl

theorem newHandle : Spares heap slices heap.newHandle.2 slices where
  counter := Nat.le_succ _
  strong handle hl := by simp [Heap.newHandle, hl.ne_counter.symm]
  slices _ _ := rfl

theorem newPage : Spares heap slices heap.newPage.2 slices := ⟨le_rfl, fun _ _ => rfl, fun _ _ => rfl⟩

theorem other (h : Spares heap slices heap' slices') (rest : List Slice) : Spares heap rest heap' rest :=
  ⟨h.counter, h.strong, fun _ _ => rfl⟩

theorem swap (h : Spares heap slices heap' slices') (front rest old new : List Slice) (hold : ∀ s ∈ old, ¬heap.Live s.handle)
    (hnew : ∀ s ∈ new, ¬heap.Live s.handle) : Spares heap (front ++ old ++ rest) heap' (front ++ new ++ rest) := by
  have hnil : ∀ (changed : List Slice) handle, (∀ s ∈ changed, ¬heap.Live s.handle) → heap.Live handle →
      slicesOf handle changed = [] := by
    intro changed handle hc hl
    refine List.filter_eq_nil_iff.mpr fun s hs he => hc s hs ?_
    rwa [eq_of_beq he]
  refine ⟨h.counter, h.strong, fun handle hl => ?_⟩
  rw [slicesOf_append, slicesOf_append, slicesOf_append, slicesOf_append, hnil old handle hold hl, hnil new handle hnew hl]

end Spares

-- Sliced pools

theorem MemoryPage.coalesce_spares (h : page.Ok heap) :
    Spares heap page.slices (page.coalesce heap).2 (page.coalesce heap).1.slices := by
  obtain ⟨slices, heap', a, b, he, -, hm⟩ := coalesce_spec h
  rw [he]
  have hstrong : ∀ handle, heap.Live handle → heap'.strong handle = heap.strong handle :=
    fun handle hl => hm.keeps.live handle hl.1 hl.2
  refine ⟨hm.keeps.counter, hstrong, fun handle hl => ?_⟩
  have hfilter : ∀ (heap : Heap) (slices : List Slice), heap.isFree handle = false →
      slicesOf handle slices = slicesOf handle (slices.filter fun s => !s.isFree heap) := by
    intro heap slices hlive
    rw [slicesOf, slicesOf, List.filter_filter]
    refine List.filter_congr fun s _ => ?_
    by_cases hs : s.handle = handle
    · simp [hs, Slice.isFree, hlive]
    · simp [hs]
  have hlive' : heap'.isFree handle = false := by
    rw [Heap.isFree, hstrong handle hl]
    exact hl.2
  rw [hfilter heap' slices hlive', hm.live, ← hfilter heap page.slices hl.2]

theorem renumber_spares (index : Nat) (renumbered : List Slice) (h : Spares heap slices heap' slices') :
    Spares heap slices (MemoryPage.renumber index renumbered heap') slices' := by
  induction renumbered generalizing index heap' with
  | nil => exact h
  | cons slice rest ih => exact ih _ h.relocated

theorem MemoryPage.tryReserve_spares (h : page.tryReserve size heap = .ok (result, page', heap')) :
    Spares heap page.slices heap' page'.slices := by
  unfold tryReserve at h
  split at h
  · obtain ⟨-, hp⟩ := Prod.mk.inj (Except.ok.inj h)
    obtain ⟨rfl, rfl⟩ := Prod.mk.inj hp
    exact .refl _ _
  obtain ⟨padding, -, h⟩ := bind_eq_ok.mp h
  simp only at h
  generalize hunusable : (fun slice : Slice =>
    !(decide (wrap64 (size + padding) ≤ slice.effectiveSize) && heap.isFree slice.handle)) = unusable at h
  have hall := List.takeWhile_append_dropWhile (p := unusable) (l := page.slices)
  split at h
  · obtain ⟨-, hp⟩ := Prod.mk.inj (Except.ok.inj h)
    obtain ⟨rfl, rfl⟩ := Prod.mk.inj hp
    exact .refl _ _
  · next slice after hd =>
    have hfree : heap.isFree slice.handle = true := by
      have hhead := List.head_dropWhile_not unusable (l := page.slices) (by simp [hd])
      simp only [hd, List.head_cons] at hhead
      rw [← hunusable] at hhead
      simp only [Bool.not_eq_false', Bool.and_eq_true] at hhead
      exact hhead.2
    have hlive := Heap.not_live_of_free hfree
    rw [hd] at hall
    generalize page.slices.takeWhile unusable = before at h hall
    have hclone : Spares heap [] (heap.clone slice.handle) [] := .clone hfree
    split at h
    · obtain ⟨storage, -, h⟩ := bind_eq_ok.mp h
      obtain ⟨-, hp⟩ := Prod.mk.inj (Except.ok.inj h)
      obtain ⟨rfl, rfl⟩ := Prod.mk.inj hp
      have hnew := (hclone.trans .newHandle).swap before after [slice]
        [{ slice with storage := { slice.storage with utilization := ⟨slice.storage.offset, size⟩ }, padding },
          (Slice.new page.mapped page.page storage 0 (heap.clone slice.handle)).1]
        (by simpa using hlive) (by simpa using ⟨hlive, Heap.not_live_counter⟩)
      rw [List.append_assoc, List.append_assoc] at hnew
      rw [← hall]
      exact renumber_spares _ _ hnew.relocated
    · obtain ⟨-, hp⟩ := Prod.mk.inj (Except.ok.inj h)
      obtain ⟨rfl, rfl⟩ := Prod.mk.inj hp
      have hsame := hclone.swap before after [slice]
        [{ slice with storage := { slice.storage with utilization := ⟨slice.storage.offset, size⟩ }, padding }]
        (by simpa using hlive) (by simpa using hlive)
      rw [← hall]
      simpa using hsame

theorem newWithMapping_spares (storage : StorageHandle) (alignment : Nat) (locationBase : MemoryLocation) (mapped : Bool)
    (heap : Heap) : Spares heap [] (MemoryPage.newWithMapping storage alignment locationBase mapped heap).2
      (MemoryPage.newWithMapping storage alignment locationBase mapped heap).1.slices := by
  have hnew : Spares heap [] heap.newPage.2.newHandle.2 [] := Spares.newPage.trans .newHandle
  exact (hnew.swap [] [] [] [_] nofun (List.forall_mem_singleton.mpr Heap.not_live_counter)).relocated

def SlicedPool.allSlices (pool : SlicedPool) : List Slice := pool.pages.flatMap fun entry => entry.1.slices

section
variable {alignment : Nat} {pages pages' : List (MemoryPage × StorageId)} {pool pool' : SlicedPool}

theorem SlicedPool.reservePages_spares (h : PagesOk heap alignment pages)
    (he : reservePages size pages heap = .ok (result, pages', heap')) :
    Spares heap (pages.flatMap fun entry => entry.1.slices) heap' (pages'.flatMap fun entry => entry.1.slices) := by
  induction pages generalizing heap result pages' with
  | nil =>
    obtain ⟨-, hp⟩ := Prod.mk.inj (Except.ok.inj he)
    obtain ⟨rfl, rfl⟩ := Prod.mk.inj hp
    exact .refl _ _
  | cons entry rest ih =>
    obtain ⟨page, id⟩ := entry
    obtain ⟨⟨hok, -⟩, hrest⟩ := PagesOk.cons_iff.mp h
    have hc := MemoryPage.coalesce_advances hok
    rw [reservePages] at he
    obtain ⟨⟨reserved, page₁, heap₁⟩, htry, he⟩ := bind_eq_ok.mp he
    have hadv := hc.trans (MemoryPage.tryReserve_advances hc.ok htry)
    have hfirst := ((MemoryPage.coalesce_spares hok).trans (MemoryPage.tryReserve_spares htry)).append
      (rest.flatMap fun entry => entry.1.slices)
    cases reserved with
    | some handle =>
      obtain ⟨-, hp⟩ := Prod.mk.inj (Except.ok.inj he)
      obtain ⟨rfl, rfl⟩ := Prod.mk.inj hp
      exact hfirst
    | none =>
      obtain ⟨⟨r, rest', heap₂⟩, hr, he⟩ := bind_eq_ok.mp he
      obtain ⟨-, hp⟩ := Prod.mk.inj (Except.ok.inj he)
      obtain ⟨rfl, rfl⟩ := Prod.mk.inj hp
      exact hfirst.trans ((ih (hrest.mono hadv.counter) hr).prepend _)

theorem SlicedPool.tryReserve_spares (h : PagesOk heap alignment pool.pages)
    (he : pool.tryReserve size heap = .ok (result, pool', heap')) : Spares heap pool.allSlices heap' pool'.allSlices := by
  obtain ⟨⟨_, pages, heap₁⟩, hpages, he⟩ := bind_eq_ok.mp he
  obtain ⟨-, hp⟩ := Prod.mk.inj (Except.ok.inj he)
  obtain ⟨rfl, rfl⟩ := Prod.mk.inj hp
  exact reservePages_spares h hpages

theorem SlicedPool.alloc_spares {mapped : Bool} {answer : Option StorageHandle}
    (he : pool.alloc size mapped answer heap = .ok (handle, pool', heap')) : Spares heap pool.allSlices heap' pool'.allSlices := by
  unfold alloc at he
  split at he
  · cases he
  cases answer with
  | none => cases he
  | some storage =>
    obtain ⟨⟨returned, page, heap₁⟩, htry, he⟩ := bind_eq_ok.mp he
    have hpage := (newWithMapping_spares storage pool.alignment { pool.locationBase with page := pool.pages.length }
      mapped heap).trans (MemoryPage.tryReserve_spares htry)
    cases returned with
    | none => cases he
    | some returned =>
      obtain ⟨-, hp⟩ := Prod.mk.inj (Except.ok.inj he)
      obtain ⟨rfl, rfl⟩ := Prod.mk.inj hp
      have hslices := hpage.prepend pool.allSlices
      simpa [SlicedPool.allSlices] using hslices

end

-- Pools of whole allocations

theorem spares_set {position : Nat} {slice : Slice} (slice' : Slice) (hs : slices[position]? = some slice)
    (hfree : heap.isFree slice.handle = true) (hh : slice'.handle = slice.handle) :
    Spares heap slices (heap.clone slice.handle) (slices.set position slice') := by
  obtain ⟨hlt, hget⟩ := List.getElem?_eq_some_iff.mp hs
  have hlive := Heap.not_live_of_free hfree
  have hclone : Spares heap slices (heap.clone slice.handle) slices := .clone hfree
  have hswap := hclone.swap (slices.take position) (slices.drop (position + 1)) [slice] [slice']
    (by simpa using hlive) (by simpa [hh] using hlive)
  rw [List.set_eq_take_append_cons_drop, if_pos hlt]
  have hall : slices.take position ++ slice :: slices.drop (position + 1) = slices := by
    rw [← hget, List.getElem_cons_drop, List.take_append_drop]
  simpa [hall] using hswap

theorem allocated_spares (mapped : Bool) (storage : StorageHandle) (size padding : Nat) (location : MemoryLocation)
    (heap : Heap) (slices : List Slice) : Spares heap slices (Slice.allocated mapped storage size padding location heap).2
      (slices ++ [(Slice.allocated mapped storage size padding location heap).1]) := by
  have hnew : Spares heap slices heap.newPage.2.newHandle.2 slices := Spares.newPage.trans .newHandle
  have hstrong : ∀ handle, heap.Live handle →
      (Slice.allocated mapped storage size padding location heap).2.strong handle = heap.strong handle := by
    intro handle hl
    rw [← hnew.strong handle hl]
    exact Function.update_of_ne hl.ne_counter.symm _ _
  have hheap : Spares heap slices (Slice.allocated mapped storage size padding location heap).2 slices :=
    ⟨hnew.counter, hstrong, fun _ _ => rfl⟩
  simpa using hheap.swap slices [] [] [_] nofun (List.forall_mem_singleton.mpr Heap.not_live_counter)

theorem dropFree_spares (slices : List Slice) (heap : Heap) :
    Spares heap slices (dropFree slices heap).2.2 (dropFree slices heap).1 := by
  induction slices generalizing heap with
  | nil => exact .refl _ _
  | cons slice rest ih =>
    rw [dropFree]
    split
    · next hfree =>
      have hf : heap.isFree slice.handle = true := (Slice.isFree_iff.mp hfree).1
      have hdrop : Spares heap [] (heap.drop slice.handle) [] := .drop hf
      exact (hdrop.swap [] rest [slice] [] (by simpa using Heap.not_live_of_free hf) nofun).trans (ih _)
    · exact (ih heap).prepend [slice]

theorem indexSlices_spares (index : Nat) (indexed : List Slice) (h : Spares heap slices heap' slices') :
    Spares heap slices (indexSlices index indexed heap') slices' := by
  induction indexed generalizing index heap' with
  | nil => exact h
  | cons slice rest ih => exact ih _ h.relocated

section
variable {pool pool' : PersistentPool}

theorem PersistentPool.reserveAmong_spares {positions : List Nat}
    (h : reserveAmong size padding heap slices positions = .ok (result, slices', heap')) :
    Spares heap slices heap' slices' ∧ (result = none → heap' = heap ∧ slices' = slices) := by
  induction positions with
  | nil =>
    obtain ⟨-, hp⟩ := Prod.mk.inj (Except.ok.inj h)
    obtain ⟨rfl, rfl⟩ := Prod.mk.inj hp
    exact ⟨.refl _ _, fun _ => ⟨rfl, rfl⟩⟩
  | cons position rest ih =>
    unfold reserveAmong at h
    split at h
    · cases h
    · next slice hs =>
      split at h
      · next hfree =>
        obtain ⟨rfl, hp⟩ := Prod.mk.inj (Except.ok.inj h)
        obtain ⟨rfl, rfl⟩ := Prod.mk.inj hp
        exact ⟨spares_set _ hs (Slice.isFree_iff.mp hfree).1 rfl, nofun⟩
      · exact ih h

theorem PersistentPool.tryReserve_spares (h : pool.tryReserve size heap = .ok (result, pool', heap')) :
    Spares heap pool.slices heap' pool'.slices ∧ (result = none → heap' = heap ∧ pool' = pool) := by
  obtain ⟨padding, -, h⟩ := bind_eq_ok.mp h
  split at h
  · obtain ⟨-, hp⟩ := Prod.mk.inj (Except.ok.inj h)
    obtain ⟨rfl, rfl⟩ := Prod.mk.inj hp
    exact ⟨.refl _ _, fun _ => ⟨rfl, rfl⟩⟩
  · obtain ⟨⟨_, slices, heap₁⟩, hr, h⟩ := bind_eq_ok.mp h
    obtain ⟨rfl, hp⟩ := Prod.mk.inj (Except.ok.inj h)
    obtain ⟨rfl, rfl⟩ := Prod.mk.inj hp
    obtain ⟨hspares, hnone⟩ := reserveAmong_spares hr
    refine ⟨hspares, fun hn => ?_⟩
    obtain ⟨rfl, rfl⟩ := hnone hn
    exact ⟨rfl, rfl⟩

theorem PersistentPool.alloc_spares {mapped : Bool} {storage : StorageHandle}
    (h : pool.alloc size mapped storage heap = .ok (handle, pool', heap')) : Spares heap pool.slices heap' pool'.slices := by
  obtain ⟨padding, -, h⟩ := bind_eq_ok.mp h
  obtain ⟨-, hp⟩ := Prod.mk.inj (Except.ok.inj h)
  obtain ⟨rfl, rfl⟩ := Prod.mk.inj hp
  exact allocated_spares _ _ _ _ _ _ _

end

section
variable {pool pool' : DedicatedAllocations}

theorem DedicatedAllocations.alloc_spares {mapped : Bool} {storage : StorageHandle}
    (h : pool.alloc size mapped storage heap = .ok (handle, pool', heap')) : Spares heap pool.slices heap' pool'.slices := by
  obtain ⟨padding, -, h⟩ := bind_eq_ok.mp h
  obtain ⟨-, hp⟩ := Prod.mk.inj (Except.ok.inj h)
  obtain ⟨rfl, rfl⟩ := Prod.mk.inj hp
  exact allocated_spares _ _ _ _ _ _ _

theorem DedicatedAllocations.reclaim_spares (pool : DedicatedAllocations) (heap : Heap) :
    Spares heap pool.slices (pool.reclaim heap).2.2.2 (pool.reclaim heap).1.slices :=
  indexSlices_spares _ _ (dropFree_spares _ _)

end

section
variable {pool pool' : ExclusiveMemoryPool}

def ExclusiveMemoryPool.allSlices (pool : ExclusiveMemoryPool) : List Slice := pool.pages.map ExclusivePage.slice

theorem ExclusiveMemoryPool.selectPage_free {pages : List ExclusivePage} {index minimum found : Nat} {selected : Option Nat}
    (h : selectPage size heap index pages selected minimum = some found) :
    selected = some found ∨ ∃ page, pages[found - index]? = some page ∧ index ≤ found ∧ page.slice.isFree heap = true := by
  induction pages generalizing index selected minimum with
  | nil => exact .inl h
  | cons page rest ih =>
    have hlater : ∀ {selected minimum}, selectPage size heap (index + 1) rest selected minimum = some found →
        selected = some found ∨
          ∃ p, (page :: rest)[found - index]? = some p ∧ index ≤ found ∧ p.slice.isFree heap = true := by
      intro selected minimum h
      rcases ih h with hs | ⟨p, hp, hle, hfree⟩
      · exact .inl hs
      · refine .inr ⟨p, ?_, by omega, hfree⟩
        rw [show found - index = found - (index + 1) + 1 by omega]
        exact hp
    unfold selectPage at h
    split at h
    · next hc =>
      have hhere : ∃ p, (page :: rest)[index - index]? = some p ∧ index ≤ index ∧ p.slice.isFree heap = true :=
        ⟨page, by rw [Nat.sub_self]; rfl, le_rfl, hc.2.2⟩
      split at h
      · obtain rfl := Option.some.inj h
        exact .inr hhere
      · rcases hlater h with hs | hp
        · obtain rfl := Option.some.inj hs
          exact .inr hhere
        · exact .inr hp
    · exact hlater h

theorem ExclusiveMemoryPool.tryReserve_spares (h : pool.tryReserve size heap = .ok (result, pool', heap')) :
    Spares heap pool.allSlices heap' pool'.allSlices := by
  obtain ⟨padding, -, h⟩ := bind_eq_ok.mp h
  split at h
  · obtain ⟨-, hp⟩ := Prod.mk.inj (Except.ok.inj h)
    obtain ⟨rfl, rfl⟩ := Prod.mk.inj hp
    exact .refl _ _
  · next index hselect =>
    split at h
    · cases h
    · next page hpage =>
      obtain ⟨-, hp⟩ := Prod.mk.inj (Except.ok.inj h)
      obtain ⟨rfl, rfl⟩ := Prod.mk.inj hp
      rcases selectPage_free hselect with hs | ⟨p, hat, -, hfree⟩
      · cases hs
      · rw [Nat.sub_zero] at hat
        obtain rfl := Option.some.inj (hat.symm.trans hpage)
        have hslice : (pool.pages.map ExclusivePage.slice)[index]? = some p.slice := by
          rw [List.getElem?_map]
          exact congrArg (Option.map ExclusivePage.slice) hat
        have hset := spares_set { p.slice with
          storage := { p.slice.storage with utilization := ⟨0, size⟩ }, padding } hslice (Slice.isFree_iff.mp hfree).1 rfl
        show Spares heap (pool.pages.map ExclusivePage.slice) _ ((pool.pages.set index _).map ExclusivePage.slice)
        rw [List.map_set]
        exact hset

theorem ExclusiveMemoryPool.alloc_spares {mapped : Bool} {storage : StorageHandle}
    (h : pool.alloc size mapped storage heap = .ok (handle, pool', heap')) : Spares heap pool.allSlices heap' pool'.allSlices := by
  obtain ⟨total, -, h⟩ := bind_eq_ok.mp h
  obtain ⟨padding, -, h⟩ := bind_eq_ok.mp h
  obtain ⟨-, hp⟩ := Prod.mk.inj (Except.ok.inj h)
  obtain ⟨rfl, rfl⟩ := Prod.mk.inj hp
  have halloc := allocated_spares mapped storage size padding
    { pool.locationBase with page := pool.pages.length % 2 ^ 16 } heap pool.allSlices
  show Spares heap (pool.pages.map ExclusivePage.slice) _ ((pool.pages ++ [_]).map ExclusivePage.slice)
  rw [List.map_append]
  exact halloc

end

end Ruda.Memory
