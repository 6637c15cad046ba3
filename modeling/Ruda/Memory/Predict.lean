import Ruda.Memory.Pool

/-!
# What `can_reserve` predicts

In every state that a sliced pool reaches `can_reserve` answers as coalescing and
reserving would, except that it finds room for nothing on every open page.
-/

namespace Ruda.Memory

variable {heap heap' : Heap} {page : MemoryPage} {pages : List (MemoryPage × StorageId)} {w : PoolWorld}
variable {alignment size padding : Nat}

/-- `can_reserve` is true exactly when coalescing and then reserving gives a handle. -/
def MemoryPage.Predicts (heap : Heap) (page : MemoryPage) (size : Nat) : Prop :=
  page.canReserve size heap = .ok true ↔ ∃ handle page' heap',
    (page.coalesce heap).1.tryReserve size (page.coalesce heap).2 = .ok (some handle, page', heap')

def SlicedPool.Predicts (heap : Heap) (pool : SlicedPool) (size : Nat) : Prop :=
  pool.canReserve size heap = .ok true ↔
    ∃ handle pool' heap', pool.tryReserve size heap = .ok (some handle, pool', heap')

/-- Coalescing keeps live slices, their handles and ranges, leaves no free neighbours on an
open page, and a second time does nothing. -/
structure MemoryPage.Coalesces (heap : Heap) (page : MemoryPage) : Prop where
  live : (page.coalesce heap).1.slices.filter (fun s => !s.isFree (page.coalesce heap).2) =
    page.slices.filter fun s => !s.isFree heap
  held : ∀ s ∈ page.slices, heap.isFree s.handle = false →
    (page.coalesce heap).2.strong s.handle = heap.strong s.handle
  spaced : heap.guarded page.page = false → ∀ i s t, (page.coalesce heap).1.slices[i]? = some s →
    (page.coalesce heap).1.slices[i + 1]? = some t →
    ¬(s.isFree (page.coalesce heap).2 = true ∧ t.isFree (page.coalesce heap).2 = true)
  again : (page.coalesce heap).1.coalesce (page.coalesce heap).2 = page.coalesce heap

namespace MemoryPage

theorem coalesces (h : page.Ok heap) : Coalesces heap page := by
  obtain ⟨slices, heap', a, b, he, -, hm⟩ := coalesce_spec h
  have hspaced : Spaced (slices.map (Slice.block heap')) := hm.blocks ▸ spaced_joined _
  have hpair : freePair heap' slices = false := freePair_eq_false.mpr hspaced
  constructor
  · rw [he]
    exact hm.live
  · intro s hs hlive
    rw [he]
    exact hm.keeps.live s.handle (h.on s hs).handle hlive
  · rw [he]
    intro _ i s t hs ht hfree
    have hi : i + 1 < (slices.map (Slice.block heap')).length := by
      rw [List.length_map]
      exact (List.getElem?_eq_some_iff.mp ht).1
    have hstep := List.isChain_iff_getElem.mp hspaced i hi
    simp only [List.getElem_map] at hstep
    obtain ⟨_, rfl⟩ := List.getElem?_eq_some_iff.mp hs
    obtain ⟨_, rfl⟩ := List.getElem?_eq_some_iff.mp ht
    exact hstep hfree
  · rw [he, coalesce, if_neg (by simp [hpair])]

theorem reservable_zero : Reservable heap page 0 ↔
    heap.guarded page.page = false ∧ ∃ s ∈ page.slices, s.isFree heap = true := by
  have hfree : (∃ block ∈ joined (page.slices.map (Slice.block heap)), block.free = true ∧ 0 ≤ block.size) ↔
      ∃ s ∈ page.slices, s.isFree heap = true := by
    simp only [Nat.zero_le, and_true, exists_free_joined, List.mem_map, exists_exists_and_eq_and]
    rfl
  rw [Reservable, hfree]

theorem canReserve_iff (h : page.Ok heap) (hpad : calculatePadding size page.alignment = .ok padding)
    (hsize : size + padding ≤ u64Max) : page.canReserve size heap = .ok true ↔
      heap.guarded page.page = false ∧ (size + padding = 0 ∨ Reservable heap page (size + padding)) := by
  cases hopen : heap.guarded page.page with
  | true => simp [canReserve, hopen]
  | false =>
    rw [canReserve_open hopen hpad hsize, Except.ok.injEq, eq_self, true_and]
    rcases Nat.eq_zero_or_pos (size + padding) with hzero | hpos
    · have hne : page.slices.map (Slice.block heap) ≠ [] := fun hnil => h.nonempty (List.map_eq_nil_iff.mp hnil)
      rw [hzero, scan_zero hne]
      simp
    · rw [scan_pos hpos, Reservable, hopen, eq_self, true_and, or_iff_right hpos.ne']

end MemoryPage

theorem calculatePadding_zero (h : calculatePadding size alignment = .ok padding) : size + padding = 0 ↔ size = 0 := by
  unfold calculatePadding at h
  split at h
  · cases h
  · obtain rfl := Except.ok.inj h
    constructor
    · omega
    · rintro rfl
      simp

theorem MemoryPage.predicts_iff (h : page.Ok heap) (hpad : calculatePadding size page.alignment = .ok padding)
    (hsize : size + padding ≤ u64Max) :
    page.Predicts heap size ↔ size ≠ 0 ∨ heap.guarded page.page = true ∨ ∃ s ∈ page.slices, s.isFree heap = true := by
  rw [Predicts, canReserve_iff h hpad hsize, reserves_iff h hpad hsize, calculatePadding_zero hpad]
  by_cases hzero : size = 0
  · rw [(calculatePadding_zero hpad).mpr hzero, reservable_zero]
    cases heap.guarded page.page <;> simp [hzero]
  · have hopen : Reservable heap page (size + padding) → heap.guarded page.page = false := And.left
    simp only [hzero, false_or, ne_eq, not_false_eq_true, true_or, iff_true]
    exact ⟨And.right, fun hr => ⟨hopen hr, hr⟩⟩

namespace SlicedPool

theorem anyCanReserve_iff (h : ∀ entry ∈ pages, ∃ answer, entry.1.canReserve size heap = .ok answer) :
    anyCanReserve size heap pages = .ok true ↔ ∃ entry ∈ pages, entry.1.canReserve size heap = .ok true := by
  induction pages with
  | nil => simp [anyCanReserve]
  | cons entry rest ih =>
    obtain ⟨page, id⟩ := entry
    obtain ⟨⟨answer, ha⟩, hrest⟩ := List.forall_mem_cons.mp h
    rw [anyCanReserve, ha, ok_bind, List.exists_mem_cons_iff]
    cases answer with
    | true => simp [ha]
    | false => simp [ha, ih hrest]

theorem canReserve_answers (hpad : calculatePadding size page.alignment = .ok padding)
    (hsize : size + padding ≤ u64Max) : ∃ answer, page.canReserve size heap = .ok answer := by
  cases hopen : heap.guarded page.page with
  | true => exact ⟨false, by rw [MemoryPage.canReserve, if_pos hopen]⟩
  | false => exact ⟨_, MemoryPage.canReserve_open hopen hpad hsize⟩

theorem predicts_iff {pool : SlicedPool} (h : PagesOk heap pool.alignment pool.pages)
    (hpad : calculatePadding size pool.alignment = .ok padding) (hsize : size + padding ≤ u64Max) :
    pool.Predicts heap size ↔ size ≠ 0 ∨ (∀ entry ∈ pool.pages, heap.guarded entry.1.page = true) ∨
      ∃ entry ∈ pool.pages, ∃ s ∈ entry.1.slices, s.isFree heap = true := by
  have halign : ∀ entry ∈ pool.pages, calculatePadding size entry.1.alignment = .ok padding :=
    fun entry he => (h entry he).2 ▸ hpad
  have hcan : pool.canReserve size heap = .ok true ↔ ∃ entry ∈ pool.pages,
      heap.guarded entry.1.page = false ∧ (size = 0 ∨ MemoryPage.Reservable heap entry.1 (size + padding)) := by
    rw [canReserve, anyCanReserve_iff fun entry he => canReserve_answers (halign entry he) hsize]
    refine exists_congr fun entry => and_congr_right fun he => ?_
    rw [MemoryPage.canReserve_iff (h entry he).1 (halign entry he) hsize, calculatePadding_zero hpad]
  have htry : (∃ handle pool' heap', pool.tryReserve size heap = .ok (some handle, pool', heap')) ↔
      ∃ entry ∈ pool.pages, MemoryPage.Reservable heap entry.1 (size + padding) := by
    obtain ⟨result, pages', heap', hr, hiff⟩ := reservePages_spec h hpad hsize
    rw [← hiff, tryReserve, hr]
    cases result <;> simp
  rw [Predicts, hcan, htry]
  by_cases hzero : size = 0
  · have hopen : ∀ entry ∈ pool.pages, (∃ s ∈ entry.1.slices, s.isFree heap = true) →
        heap.guarded entry.1.page = false := by
      rintro entry he ⟨s, hs, hfree⟩
      rw [← ((h entry he).1.on s hs).page]
      exact (Slice.isFree_iff.mp hfree).2
    rw [(calculatePadding_zero hpad).mpr hzero]
    simp only [MemoryPage.reservable_zero, hzero, true_or, and_true, ne_eq, not_true_eq_false, false_or]
    constructor
    · intro hiff
      by_cases hall : ∀ entry ∈ pool.pages, heap.guarded entry.1.page = true
      · exact .inl hall
      · push Not at hall
        obtain ⟨entry, he, hg⟩ := hall
        obtain ⟨found, hf, -, hfree⟩ := hiff.mp ⟨entry, he, Bool.eq_false_of_not_eq_true hg⟩
        exact .inr ⟨found, hf, hfree⟩
    · rintro (hall | ⟨found, hf, hfree⟩)
      · constructor
        · rintro ⟨entry, he, hg⟩
          exact absurd (hall entry he) (by simp [hg])
        · rintro ⟨entry, he, hg, -⟩
          exact absurd (hall entry he) (by simp [hg])
      · exact ⟨fun _ => ⟨found, hf, hopen found hf hfree, hfree⟩, fun _ => ⟨found, hf, hopen found hf hfree⟩⟩
  · simp only [hzero, false_or, ne_eq, not_false_eq_true, true_or, iff_true]
    exact exists_congr fun entry => and_congr_right fun _ => ⟨And.right, fun hr => ⟨hr.1, hr⟩⟩

end SlicedPool

/-- In every state reached: coalescing a page keeps its live slices, separates its free ones
and is idempotent; page and pool predict whether reserving succeeds, except for size zero
where an open page is found that no free slice is in. -/
theorem canReserve_predicts (h : w.Reachable) (hpad : calculatePadding size w.pool.alignment = .ok padding)
    (hsize : size + padding ≤ u64Max) :
    (∀ entry ∈ w.pool.pages, entry.1.Coalesces w.heap ∧
      (entry.1.Predicts w.heap size ↔
        size ≠ 0 ∨ w.heap.guarded entry.1.page = true ∨ ∃ s ∈ entry.1.slices, s.isFree w.heap = true)) ∧
      (w.pool.Predicts w.heap size ↔ size ≠ 0 ∨ (∀ entry ∈ w.pool.pages, w.heap.guarded entry.1.page = true) ∨
        ∃ entry ∈ w.pool.pages, ∃ s ∈ entry.1.slices, s.isFree w.heap = true) := by
  have hok := h.ok
  refine ⟨fun entry he => ⟨MemoryPage.coalesces (hok entry he).1, ?_⟩, SlicedPool.predicts_iff hok hpad hsize⟩
  exact MemoryPage.predicts_iff (hok entry he).1 ((hok entry he).2 ▸ hpad) hsize

/-- A pool of 64-byte pages after one request for a whole page. -/
def fullPool : PoolWorld :=
  match PoolOp.run ⟨.new 64 64 4 1, .empty⟩ (.alloc 64 true (some ⟨0, ⟨0, 64⟩⟩)) with
  | .ok w => w
  | .error _ => ⟨.new 64 64 4 1, .empty⟩

theorem fullPool_reachable : fullPool.Reachable :=
  .step (.alloc 64 true (some ⟨0, ⟨0, 64⟩⟩)) (.new 64 64 4 1 .empty) (by show 0 + 64 ≤ u64Max; decide) rfl

theorem canReserve_predicts_full : calculatePadding 5 fullPool.pool.alignment = .ok 3 ∧
    (∀ entry ∈ fullPool.pool.pages, entry.1.Coalesces fullPool.heap) ∧ fullPool.pool.Predicts fullPool.heap 5 := by
  have hpad : calculatePadding 5 fullPool.pool.alignment = .ok 3 := by decide
  have h := canReserve_predicts fullPool_reachable hpad (by decide)
  exact ⟨hpad, fun entry he => (h.1 entry he).1, h.2.mpr (.inl (by decide))⟩

/-- On a full page `can_reserve(0)` is true, and reserving nothing fails. -/
theorem canReserve_zero : ∃ w : PoolWorld, w.Reachable ∧ calculatePadding 0 w.pool.alignment = .ok 0 ∧
    (∃ entry ∈ w.pool.pages, ¬entry.1.Predicts w.heap 0) ∧ ¬w.pool.Predicts w.heap 0 := by
  have hpad : calculatePadding 0 fullPool.pool.alignment = .ok 0 := by decide
  have hok := fullPool_reachable.ok
  have hlive : ∀ entry ∈ fullPool.pool.pages, fullPool.heap.guarded entry.1.page = false ∧
      ∀ s ∈ entry.1.slices, s.isFree fullPool.heap = false := by decide
  obtain ⟨entry, he⟩ := List.exists_mem_of_length_pos (l := fullPool.pool.pages) (by decide)
  refine ⟨fullPool, fullPool_reachable, hpad, ⟨entry, he, ?_⟩, ?_⟩
  · rw [MemoryPage.predicts_iff (hok entry he).1 ((hok entry he).2 ▸ hpad) (by decide)]
    rintro (hne | hguard | ⟨s, hs, hfree⟩)
    · exact hne rfl
    · exact absurd hguard (by simp [(hlive entry he).1])
    · exact absurd hfree (by simp [(hlive entry he).2 s hs])
  · rw [SlicedPool.predicts_iff hok hpad (by decide)]
    rintro (hne | hguard | ⟨found, hf, s, hs, hfree⟩)
    · exact hne rfl
    · exact absurd (hguard entry he) (by simp [(hlive entry he).1])
    · exact absurd hfree (by simp [(hlive found hf).2 s hs])

end Ruda.Memory
