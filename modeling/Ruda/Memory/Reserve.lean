import Ruda.Memory.Coalesce

/-!
# Reserving predicted by `can_reserve`

`can_reserve` adds up neighbouring free slices where reserving first merges them.
The two agree on every state a sliced pool reaches, for every size but zero: a
request for nothing is found on any open page, while reserving needs a free slice.
-/

namespace Ruda.Memory

variable {heap heap' : Heap} {slice : Slice} {slices rest : List Slice} {page page' : MemoryPage}
variable {a b size padding : Nat} {p : PageRef} {result : Option ManagedMemoryHandle}

-- Pages

namespace MemoryPage

/-- A page method leaves a page that is in order, and forgets no handle. -/
structure Advances (heap : Heap) (page : MemoryPage) (heap' : Heap) (page' : MemoryPage) : Prop where
  ok : page'.Ok heap'
  alignment : page'.alignment = page.alignment
  counter : heap.counter ≤ heap'.counter

theorem renumber_counter (index : Nat) (slices : List Slice) (heap : Heap) :
    (renumber index slices heap).counter = heap.counter := by
  induction slices generalizing index heap with
  | nil => rfl
  | cons slice rest ih => exact ih _ _

theorem Ok.split {before after : List Slice} {storage : StorageHandle} (h : page.Ok heap)
    (hs : page.slices = before ++ slice :: after) (hc : heap.counter < heap'.counter)
    (hsize : wrap64 (size + padding) ≤ slice.effectiveSize)
    (ho : storage.offset = slice.storage.offset + wrap64 (size + padding))
    (hrest : storage.size = slice.effectiveSize - wrap64 (size + padding)) :
    Ok heap' { page with
      slices := before ++ { slice with
        storage := { slice.storage with utilization := ⟨slice.storage.offset, size⟩ }, padding } ::
        ⟨page.mapped, page.page, storage, heap.counter, 0, 0⟩ :: after } where
  on s hs' := by
    have hon : ∀ t ∈ before ++ slice :: after, t.On heap' page.page := fun t ht => (h.on t (hs ▸ ht)).mono hc.le
    rcases List.mem_append.mp hs' with hb | hb
    · exact hon s (List.mem_append_left _ hb)
    · rcases List.mem_cons.mp hb with rfl | hb
      · exact ⟨(hon slice (by simp)).page, (hon slice (by simp)).handle⟩
      · rcases List.mem_cons.mp hb with rfl | hb
        · exact ⟨rfl, hc⟩
        · exact hon s (by simp [hb])
  tiled := by
    obtain ⟨a, b, hb, ht⟩ := h.tiled
    obtain ⟨m, hbefore, hm, hafter⟩ := tiled_append.mp (hs ▸ ht)
    refine ⟨a, b, hb, tiled_append.mpr ⟨m, hbefore, hm, ?_, ?_⟩⟩
    · rw [← hm]
      exact ho
    · have hnew : Slice.effectiveSize ⟨page.mapped, page.page, storage, heap.counter, 0, 0⟩ =
          slice.effectiveSize - wrap64 (size + padding) := by
        rw [Slice.effectiveSize, hrest, Nat.add_zero, wrap64_of_le ((Nat.sub_le _ _).trans slice.effectiveSize_le)]
      have hreserved : Slice.effectiveSize { slice with
          storage := { slice.storage with utilization := ⟨slice.storage.offset, size⟩ }, padding } =
          wrap64 (size + padding) := rfl
      rw [hnew, hreserved, Nat.add_assoc, Nat.add_sub_cancel' hsize]
      exact hafter
  nonempty := by simp

theorem Ok.whole {before after : List Slice} (h : page.Ok heap) (hs : page.slices = before ++ slice :: after)
    (hc : heap.counter ≤ heap'.counter) (hsize : wrap64 (size + padding) = slice.effectiveSize) :
    Ok heap' { page with
      slices := before ++ { slice with
        storage := { slice.storage with utilization := ⟨slice.storage.offset, size⟩ }, padding } :: after } where
  on s hs' := by
    have hon : ∀ t ∈ before ++ slice :: after, t.On heap' page.page := fun t ht => (h.on t (hs ▸ ht)).mono hc
    rcases List.mem_append.mp hs' with hb | hb
    · exact hon s (List.mem_append_left _ hb)
    · rcases List.mem_cons.mp hb with rfl | hb
      · exact ⟨(hon slice (by simp)).page, (hon slice (by simp)).handle⟩
      · exact hon s (by simp [hb])
  tiled := by
    obtain ⟨a, b, hb, ht⟩ := h.tiled
    obtain ⟨m, hbefore, hm, hafter⟩ := tiled_append.mp (hs ▸ ht)
    have hreserved : Slice.effectiveSize { slice with
        storage := { slice.storage with utilization := ⟨slice.storage.offset, size⟩ }, padding } =
        slice.effectiveSize := hsize
    exact ⟨a, b, hb, tiled_append.mpr ⟨m, hbefore, hm, by rw [hreserved]; exact hafter⟩⟩
  nonempty := by simp

/-- `slice` can be reserved: it is large enough and nobody holds it. -/
def Usable (heap : Heap) (effectiveSize : Nat) (slice : Slice) : Prop :=
  effectiveSize ≤ slice.effectiveSize ∧ heap.isFree slice.handle = true

/-- An open page in order reserves when some slice is usable, and is left alone otherwise. -/
theorem tryReserve_spec (h : page.Ok heap) (hopen : heap.guarded page.page = false)
    (hpad : calculatePadding size page.alignment = .ok padding) :
    (∃ handle page' heap', page.tryReserve size heap = .ok (some handle, page', heap') ∧
        Advances heap page heap' page' ∧ ∃ s ∈ page.slices, Usable heap (wrap64 (size + padding)) s) ∨
      (page.tryReserve size heap = .ok (none, page, heap) ∧
        ∀ s ∈ page.slices, ¬Usable heap (wrap64 (size + padding)) s) := by
  unfold tryReserve
  rw [if_neg (by simp [hopen]), hpad, ok_bind]
  simp only
  generalize hunusable : (fun slice : Slice =>
    !(decide (wrap64 (size + padding) ≤ slice.effectiveSize) && heap.isFree slice.handle)) = unusable
  have husable : ∀ s, unusable s = false ↔ Usable heap (wrap64 (size + padding)) s := by
    subst hunusable
    simp [Usable]
  have hall := List.takeWhile_append_dropWhile (p := unusable) (l := page.slices)
  cases hd : page.slices.dropWhile unusable with
  | nil =>
    refine .inr ⟨rfl, fun s hs hu => ?_⟩
    have := List.dropWhile_eq_nil_iff.mp hd s hs
    rw [(husable s).mpr hu] at this
    exact absurd this (by decide)
  | cons slice after =>
    rw [hd] at hall
    have hslice : Usable heap (wrap64 (size + padding)) slice := by
      have hhead := List.head_dropWhile_not unusable (l := page.slices) (by simp [hd])
      simp only [hd, List.head_cons] at hhead
      exact (husable slice).mp hhead
    have hmem : slice ∈ page.slices := by
      rw [← hall]
      simp
    refine .inl ?_
    simp only
    split
    · next hlt =>
      obtain ⟨a, b, hb, ht⟩ := h.tiled
      obtain ⟨m, -, hm, hafter⟩ := tiled_append.mp (hall ▸ ht)
      have hfits : slice.storage.offset + wrap64 (size + padding) ≤ u64Max := by
        have := hafter.le
        omega
      rw [StorageHandle.offsetStart, if_pos ⟨hfits, hlt.le⟩, ok_bind]
      refine ⟨_, _, _, rfl, ⟨(h.split hall.symm ?_ hlt.le rfl rfl), rfl, ?_⟩, slice, hmem, hslice⟩
      · rw [renumber_counter]
        exact Nat.lt_succ_self _
      · rw [renumber_counter]
        exact Nat.le_succ _
    · next hge =>
      exact ⟨_, _, _, rfl, ⟨h.whole hall.symm le_rfl (le_antisymm hslice.1 (Nat.not_lt.mp hge)), rfl, le_rfl⟩, slice,
        hmem, hslice⟩

theorem tryReserve_advances (h : page.Ok heap) (he : page.tryReserve size heap = .ok (result, page', heap')) :
    Advances heap page heap' page' := by
  cases hguard : heap.guarded page.page with
  | true =>
    rw [tryReserve, if_pos hguard] at he
    obtain ⟨rfl, rfl⟩ := Prod.mk.inj (Prod.mk.inj (Except.ok.inj he)).2
    exact ⟨h, rfl, le_rfl⟩
  | false =>
    cases hpad : calculatePadding size page.alignment with
    | error stop =>
      rw [tryReserve, if_neg (by simp [hguard]), hpad] at he
      cases he
    | ok padding =>
      rcases tryReserve_spec h hguard hpad with ⟨_, _, _, hr, hadv, -⟩ | ⟨hr, -⟩
      · obtain ⟨-, hp⟩ := Prod.mk.inj (Except.ok.inj (hr.symm.trans he))
        obtain ⟨rfl, rfl⟩ := Prod.mk.inj hp
        exact hadv
      · obtain ⟨-, hp⟩ := Prod.mk.inj (Except.ok.inj (hr.symm.trans he))
        obtain ⟨rfl, rfl⟩ := Prod.mk.inj hp
        exact ⟨h, rfl, le_rfl⟩

theorem coalesce_advances (h : page.Ok heap) : Advances heap page (page.coalesce heap).2 (page.coalesce heap).1 := by
  have hok := h.coalesce
  obtain ⟨slices, heap', a, b, he, -, hm⟩ := coalesce_spec h
  rw [he] at hok ⊢
  exact ⟨hok, rfl, hm.keeps.counter⟩

-- What a page can reserve

/-- The page is open, and one of its runs of free slices holds `needed`. -/
def Reservable (heap : Heap) (page : MemoryPage) (needed : Nat) : Prop :=
  heap.guarded page.page = false ∧
    ∃ block ∈ joined (page.slices.map (Slice.block heap)), block.free = true ∧ needed ≤ block.size

theorem Reservable.keep_iff (hk : heap.Keeps heap') (h : page.Ok heap) :
    Reservable heap' page needed ↔ Reservable heap page needed := by
  rw [Reservable, Reservable, hk.guarded, blocks_keep hk h.on]

theorem scanFree_eq (hneeded : needed ≤ u64Max) :
    scanFree heap needed free slices = scan needed free (slices.map (Slice.block heap)) := by
  induction slices generalizing free with
  | nil => rfl
  | cons slice rest ih =>
    rw [scanFree, List.map_cons, scan]
    cases hfree : slice.isFree heap with
    | false => simp [Slice.block, hfree, ih]
    | true =>
      have hle : needed ≤ min (free + slice.effectiveSize) u64Max ↔ needed ≤ free + slice.effectiveSize := by
        simp [hneeded]
      simp only [Slice.block, hfree, if_true, hle]
      split
      · rfl
      · next hlt => rw [ih, min_eq_left (by omega)]

theorem canReserve_open (hopen : heap.guarded page.page = false)
    (hpad : calculatePadding size page.alignment = .ok padding) (hsize : size + padding ≤ u64Max) :
    page.canReserve size heap = .ok (scan (size + padding) 0 (page.slices.map (Slice.block heap))) := by
  rw [canReserve, if_neg (by simp [hopen]), hpad, ok_bind, checkedAdd_of_le hsize]
  exact congrArg Except.ok (scanFree_eq hsize)

/-- Reserving after coalescing needs an open page with a run that holds the request. -/
theorem reserves_iff (h : page.Ok heap) (hpad : calculatePadding size page.alignment = .ok padding)
    (hsize : size + padding ≤ u64Max) :
    (∃ handle page' heap', (page.coalesce heap).1.tryReserve size (page.coalesce heap).2 = .ok (some handle, page', heap')) ↔
      Reservable heap page (size + padding) := by
  have hok := h.coalesce
  obtain ⟨slices, heap₁, a, b, he, -, hm⟩ := coalesce_spec h
  rw [he] at hok ⊢
  have hguard := hm.keeps.guarded page.page
  rw [Reservable, ← hm.blocks, ← hguard]
  cases hopen : heap₁.guarded page.page with
  | true =>
    refine ⟨?_, fun hr => absurd hr.1 (by decide)⟩
    rintro ⟨handle, page', heap', hr⟩
    rw [tryReserve, if_pos hopen] at hr
    cases hr
  | false =>
    have husable : ∀ s ∈ slices, Usable heap₁ (wrap64 (size + padding)) s ↔
        (s.block heap₁).free = true ∧ size + padding ≤ (s.block heap₁).size := by
      intro s hs
      have hopen' : heap₁.guarded s.page = false := (hm.on s hs).page ▸ hopen
      rw [Usable, wrap64_of_le hsize, Slice.block, Slice.isFree_iff, and_comm]
      simp [hopen']
    simp only [List.mem_map, exists_exists_and_eq_and, true_and]
    rcases tryReserve_spec hok hopen hpad with ⟨handle, page', heap', hr, -, s, hs, hu⟩ | ⟨hr, hnone⟩
    · exact ⟨fun _ => ⟨s, hs, (husable s hs).mp hu⟩, fun _ => ⟨handle, page', heap', hr⟩⟩
    · constructor
      · rintro ⟨handle, page', heap', hr'⟩
        rw [hr] at hr'
        cases hr'
      · rintro ⟨s, hs, hu⟩
        exact absurd ((husable s hs).mpr hu) (hnone s hs)

end MemoryPage

end Ruda.Memory
