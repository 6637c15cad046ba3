import Ruda.Lib.FreeRuns
import Ruda.Memory.Page

/-!
# Coalescing a page

What `coalesce` does to the slices of a page is `joined` on their blocks: live
slices stay as they are and where they are, and every run of free ones becomes one
slice that covers it. Only handles of free slices are dropped, so no slice of any
page becomes free or stops being free.
-/

namespace Ruda.Memory

variable {heap heap' heap'' : Heap} {slice : Slice} {slices rest : List Slice} {page : MemoryPage} {run : MemoryPage.Run}
variable {a b c : Nat} {p : PageRef}

-- Heaps

/-- Old handles stay as free as they were, the strong counts of live ones and all guards stay. -/
structure Heap.Keeps (heap heap' : Heap) : Prop where
  counter : heap.counter ≤ heap'.counter
  free : ∀ h < heap.counter, heap'.isFree h = heap.isFree h
  live : ∀ h < heap.counter, heap.isFree h = false → heap'.strong h = heap.strong h
  guards : heap'.guards = heap.guards

namespace Heap

theorem Keeps.refl (heap : Heap) : heap.Keeps heap := ⟨le_rfl, fun _ _ => rfl, fun _ _ _ => rfl, rfl⟩

theorem Keeps.trans (h : heap.Keeps heap') (h' : heap'.Keeps heap'') : heap.Keeps heap'' where
  counter := h.counter.trans h'.counter
  free x hx := (h'.free x (hx.trans_le h.counter)).trans (h.free x hx)
  live x hx hlive :=
    (h'.live x (hx.trans_le h.counter) ((h.free x hx).trans hlive)).trans (h.live x hx hlive)
  guards := h'.guards.trans h.guards

theorem Keeps.guarded (h : heap.Keeps heap') (p : PageRef) : heap'.guarded p = heap.guarded p := by
  rw [Heap.guarded, Heap.guarded, h.guards]

theorem keeps_newHandle (heap : Heap) : heap.Keeps heap.newHandle.2 where
  counter := Nat.le_succ _
  free x hx := by simp [isFree, newHandle, hx.ne]
  live x hx _ := by simp [newHandle, hx.ne]
  guards := rfl

theorem keeps_updateLocation (heap : Heap) (handle : ManagedMemoryHandle) (location : MemoryLocation) :
    heap.Keeps (heap.updateLocation handle location) := ⟨le_rfl, fun _ _ => rfl, fun _ _ _ => rfl, rfl⟩

theorem keeps_updateSlice (heap : Heap) (handle : ManagedMemoryHandle) (slice : Nat) :
    heap.Keeps (heap.updateSlice handle slice) := keeps_updateLocation _ _ _

theorem keeps_drop {handle : ManagedMemoryHandle} (h : heap.isFree handle = true) :
    heap.Keeps (heap.drop handle) where
  counter := le_rfl
  free x _ := by
    rcases eq_or_ne x handle with rfl | hne
    · have hle : heap.strong x ≤ 1 := by simpa [isFree] using h
      simp [isFree, drop, hle]
    · simp [isFree, drop, hne]
  live x _ hlive := by
    have hne : x ≠ handle := by
      rintro rfl
      exact absurd h (by simp [hlive])
    simp [drop, hne]
  guards := rfl

end Heap

-- Slices

def Slice.block (heap : Heap) (slice : Slice) : Block := ⟨slice.isFree heap, slice.effectiveSize⟩

/-- A slice of the page `p`, with a handle that exists. -/
structure Slice.On (heap : Heap) (p : PageRef) (slice : Slice) : Prop where
  page : slice.page = p
  handle : slice.handle < heap.counter

theorem Slice.On.mono (h : slice.On heap p) (hc : heap.counter ≤ heap'.counter) : slice.On heap' p :=
  ⟨h.page, h.handle.trans_le hc⟩

theorem Slice.On.keep (h : slice.On heap p) (hk : heap.Keeps heap') : slice.On heap' p := h.mono hk.counter

theorem Slice.isFree_iff :
    slice.isFree heap = true ↔ heap.isFree slice.handle = true ∧ heap.guarded slice.page = false := by
  simp [Slice.isFree]

theorem Slice.isFree_keep (hk : heap.Keeps heap') (h : slice.handle < heap.counter) :
    slice.isFree heap' = slice.isFree heap := by
  rw [Slice.isFree, Slice.isFree, hk.free _ h, hk.guarded]

theorem Slice.block_keep (hk : heap.Keeps heap') (h : slice.handle < heap.counter) :
    slice.block heap' = slice.block heap := by
  rw [Slice.block, Slice.block, Slice.isFree_keep hk h]

theorem blocks_keep (hk : heap.Keeps heap') (h : ∀ s ∈ slices, s.On heap p) :
    slices.map (Slice.block heap') = slices.map (Slice.block heap) :=
  List.map_congr_left fun s hs => Slice.block_keep hk (h s hs).handle

theorem live_keep (hk : heap.Keeps heap') (h : ∀ s ∈ slices, s.On heap p) :
    slices.filter (fun s => !s.isFree heap') = slices.filter (fun s => !s.isFree heap) :=
  List.filter_congr fun s hs => by rw [Slice.isFree_keep hk (h s hs).handle]

theorem Slice.effectiveSize_le (slice : Slice) : slice.effectiveSize ≤ u64Max := by
  have hlt : slice.effectiveSize < 2 ^ 64 := Nat.mod_lt _ (by decide)
  unfold u64Max
  omega

/-- The slices cover `a..b` one after the other. -/
def Tiled : Nat → List Slice → Nat → Prop
  | a, [], b => a = b
  | a, slice :: rest, b => slice.storage.offset = a ∧ Tiled (a + slice.effectiveSize) rest b

theorem Tiled.le (h : Tiled a slices b) : a ≤ b := by
  induction slices generalizing a with
  | nil => exact h.le
  | cons slice rest ih => exact (Nat.le_add_right _ _).trans (ih h.2)

theorem tiled_append : Tiled a (slices ++ rest) c ↔ ∃ b, Tiled a slices b ∧ Tiled b rest c := by
  induction slices generalizing a with
  | nil => simp [Tiled]
  | cons slice slices ih => simp only [List.cons_append, Tiled, ih, and_assoc, exists_and_left]

theorem tiled_congr {slices' : List Slice}
    (h : slices'.map (fun s => (s.page, s.storage.offset, s.effectiveSize)) =
      slices.map fun s => (s.page, s.storage.offset, s.effectiveSize)) (ht : Tiled a slices b) : Tiled a slices' b := by
  induction slices generalizing a slices' with
  | nil =>
    obtain rfl := List.map_eq_nil_iff.mp h
    exact ht
  | cons slice rest ih =>
    obtain ⟨slice', rest', rfl, he, hrest⟩ := List.map_eq_cons_iff.mp h
    simp only [Prod.mk.injEq] at he
    exact ⟨he.2.1.trans ht.1, he.2.2 ▸ ih hrest ht.2⟩

-- Runs

namespace MemoryPage

/-- The slice that a run stands for before it is flushed. -/
def Run.spread (run : Run) : Slice :=
  { run.first with storage := { run.first.storage with utilization := ⟨run.first.storage.offset, run.size⟩ }, padding := 0 }

structure Run.Ok (run : Run) (heap : Heap) (p : PageRef) : Prop where
  free : run.first.isFree heap = true
  on : run.first.On heap p
  size : run.size ≤ u64Max
  count : 1 ≤ run.count
  single : ¬1 < run.count → run.size = run.first.effectiveSize

def pendingSlices (pending : Option Run) : List Slice := (pending.map Run.spread).toList

@[simp] theorem pendingSlices_none : pendingSlices none = [] := rfl
@[simp] theorem pendingSlices_some (run : Run) : pendingSlices (some run) = [run.spread] := rfl

theorem Run.effectiveSize_spread (h : run.size ≤ u64Max) : run.spread.effectiveSize = run.size :=
  wrap64_of_le h

theorem Run.Ok.block (h : run.Ok heap p) : run.spread.block heap = ⟨true, run.size⟩ := by
  rw [Slice.block, Run.effectiveSize_spread h.size]
  exact congrArg (Block.mk · run.size) h.free

/-- `new` is `old` with its runs of free slices merged, and covers `a..b`. -/
structure Merged (heap heap' : Heap) (p : PageRef) (a b : Nat) (old new : List Slice) : Prop where
  keeps : heap.Keeps heap'
  on : ∀ s ∈ new, s.On heap' p
  blocks : new.map (Slice.block heap') = joined (old.map (Slice.block heap))
  live : new.filter (fun s => !s.isFree heap') = old.filter fun s => !s.isFree heap
  tiled : Tiled a new b

variable {old new : List Slice}

theorem Merged.none (heap : Heap) (p : PageRef) (h : a = b) : Merged heap heap p a b [] [] :=
  ⟨.refl _, nofun, rfl, rfl, h⟩

theorem Merged.cons_live (h : Merged heap heap' p (slice.storage.offset + slice.effectiveSize) b old new)
    (hon : slice.On heap p) (hlive : slice.isFree heap = false) :
    Merged heap heap' p slice.storage.offset b (slice :: old) (slice :: new) where
  keeps := h.keeps
  on := List.forall_mem_cons.mpr ⟨hon.keep h.keeps, h.on⟩
  blocks := by
    rw [List.map_cons, List.map_cons, joined_live hlive, h.blocks, Slice.block_keep h.keeps hon.handle]
  live := by
    have hlive' : slice.isFree heap' = false := (Slice.isFree_keep h.keeps hon.handle).trans hlive
    rw [List.filter_cons_of_pos (by simp [hlive']), List.filter_cons_of_pos (by simp [hlive]), h.live]
  tiled := ⟨rfl, h.tiled⟩

theorem Merged.cons_free (h : Merged heap heap' p (slice.storage.offset + slice.effectiveSize) b old new)
    (hon : slice.On heap p) (hfree : slice.isFree heap = true)
    (hnext : (joined (old.map (Slice.block heap))).head?.all fun block => !block.free) :
    Merged heap heap' p slice.storage.offset b (slice :: old) (slice :: new) where
  keeps := h.keeps
  on := List.forall_mem_cons.mpr ⟨hon.keep h.keeps, h.on⟩
  blocks := by
    rw [List.map_cons, List.map_cons, h.blocks, Slice.block_keep h.keeps hon.handle, joined_cons]
    cases hj : joined (old.map (Slice.block heap)) with
    | nil => rfl
    | cons block tail =>
      rw [hj] at hnext
      rw [Block.join_before_live (by simpa using hnext)]
  live := by
    have hfree' : slice.isFree heap' = true := (Slice.isFree_keep h.keeps hon.handle).trans hfree
    rw [List.filter_cons_of_neg (by simp [hfree']), List.filter_cons_of_neg (by simp [hfree]), h.live]
  tiled := ⟨rfl, h.tiled⟩

theorem Merged.of_equiv {old' : List Slice} (h : Merged heap' heap'' p a b old' new) (hk : heap.Keeps heap')
    (hblocks : joined (old'.map (Slice.block heap')) = joined (old.map (Slice.block heap)))
    (hlive : old'.filter (fun s => !s.isFree heap') = old.filter fun s => !s.isFree heap) :
    Merged heap heap'' p a b old new where
  keeps := hk.trans h.keeps
  on := h.on
  blocks := h.blocks.trans hblocks
  live := h.live.trans hlive
  tiled := h.tiled

theorem Merged.earlier (h : Merged heap' heap'' p a b old new) (hk : heap.Keeps heap') (hon : ∀ s ∈ old, s.On heap p) :
    Merged heap heap'' p a b old new :=
  h.of_equiv hk (by rw [blocks_keep hk hon]) (live_keep hk hon)

-- The loop

/-- What is flushed for a run: a free slice in the run's place. -/
structure Flushed (heap heap' : Heap) (p : PageRef) (run : Run) (slice : Slice) : Prop where
  keeps : heap.Keeps heap'
  on : slice.On heap' p
  free : slice.isFree heap' = true
  size : slice.effectiveSize = run.size
  offset : slice.storage.offset = run.first.storage.offset

theorem flushRun_spec (page : MemoryPage) (output : List Slice) (h : run.Ok heap p) :
    ∃ slice heap', page.flushRun run output heap = (output ++ [slice], heap') ∧ Flushed heap heap' p run slice := by
  obtain ⟨hfirst, hopen⟩ := Slice.isFree_iff.mp h.free
  unfold flushRun
  split
  · next hcount =>
    have hk : heap.Keeps (heap.newHandle.2.updateLocation heap.counter
        { page.locationBase with slice := wrap32 output.length }) :=
      (Heap.keeps_newHandle heap).trans (Heap.keeps_updateLocation _ _ _)
    have hdrop := hk.trans (Heap.keeps_drop ((hk.free _ h.on.handle).trans hfirst))
    have hne : heap.counter ≠ run.first.handle := h.on.handle.ne'
    refine ⟨_, _, rfl, hdrop, ⟨h.on.page, Nat.lt_succ_self _⟩, Slice.isFree_iff.mpr ⟨?_, hopen⟩, wrap64_of_le h.size, rfl⟩
    simp [Heap.isFree, Heap.drop, Heap.updateLocation, Heap.newHandle, hne]
  · next hcount =>
    have hk := Heap.keeps_updateLocation heap run.first.handle { page.locationBase with slice := wrap32 output.length }
    exact ⟨_, _, rfl, hk, h.on.keep hk, h.free, (h.single hcount).symm, rfl⟩

theorem Flushed.block (h : Flushed heap heap' p run slice) : slice.block heap' = ⟨true, run.size⟩ := by
  rw [Slice.block, h.free, h.size]

theorem Merged.flush (h : Merged heap' heap'' p (slice.storage.offset + slice.effectiveSize) b old new)
    (hf : Flushed heap heap' p run slice) (hrun : run.Ok heap p) (hon : ∀ s ∈ old, s.On heap p)
    (hnext : (joined (old.map (Slice.block heap))).head?.all fun block => !block.free) :
    Merged heap heap'' p run.first.storage.offset b (run.spread :: old) (slice :: new) := by
  have hrest := blocks_keep hf.keeps hon
  have hm := h.cons_free hf.on hf.free (by rwa [hrest])
  rw [hf.offset] at hm
  refine hm.of_equiv hf.keeps ?_ ?_
  · rw [List.map_cons, List.map_cons, hrest, hf.block, hrun.block]
  · have hspread : run.spread.isFree heap = true := hrun.free
    rw [List.filter_cons_of_neg (by simp [hf.free]), List.filter_cons_of_neg (by simp [hspread]),
      live_keep hf.keeps hon]

theorem Merged.extend (h : Merged (heap.drop slice.handle) heap' p a b (Run.spread ⟨run.first, run.size + slice.effectiveSize, n⟩ :: old) new)
    (hrun : run.Ok heap p) (hfree : slice.isFree heap = true) (hsize : run.size + slice.effectiveSize ≤ u64Max)
    (hon : ∀ s ∈ old, s.On heap p) : Merged heap heap' p a b (run.spread :: slice :: old) new := by
  have hk : heap.Keeps (heap.drop slice.handle) := Heap.keeps_drop (Slice.isFree_iff.mp hfree).1
  have hspread : run.spread.isFree heap = true := hrun.free
  have hjoin : (Run.spread ⟨run.first, run.size + slice.effectiveSize, n⟩).isFree (heap.drop slice.handle) = true :=
    (Slice.isFree_keep hk hrun.on.handle).trans hrun.free
  refine h.of_equiv hk ?_ ?_
  · have hblock : (Run.spread ⟨run.first, run.size + slice.effectiveSize, n⟩).block (heap.drop slice.handle) =
        ⟨true, run.size + slice.effectiveSize⟩ := by
      rw [Slice.block, hjoin, Run.effectiveSize_spread hsize]
    rw [List.map_cons, List.map_cons, List.map_cons, blocks_keep hk hon, hblock, hrun.block,
      joined_free_free rfl hfree]
    rfl
  · rw [List.filter_cons_of_neg (by simp [hjoin]), List.filter_cons_of_neg (by simp [hspread]),
      List.filter_cons_of_neg (by simp [hfree]), live_keep hk hon]

theorem Merged.start (h : Merged heap heap' p a b (Run.spread ⟨slice, slice.effectiveSize, 1⟩ :: old) new)
    (hfree : slice.isFree heap = true) : Merged heap heap' p a b (slice :: old) new := by
  have hspread : (Run.spread ⟨slice, slice.effectiveSize, 1⟩).isFree heap = true := hfree
  refine h.of_equiv (.refl heap) ?_ ?_
  · rw [List.map_cons, List.map_cons, Slice.block, Run.effectiveSize_spread slice.effectiveSize_le]
    rfl
  · rw [List.filter_cons_of_neg (by simp [hspread]), List.filter_cons_of_neg (by simp [hfree])]

theorem keeps_position (heap : Heap) (slice : Slice) (index position : Nat) :
    heap.Keeps (if index ≠ position then heap.updateSlice slice.handle (wrap32 position) else heap) := by
  split
  · exact Heap.keeps_updateSlice _ _ _
  · exact .refl heap

theorem coalesceLoop_spec (page : MemoryPage) (index : Nat) (pending : Option Run) (output : List Slice)
    (hpending : ∀ run ∈ pending, run.Ok heap p) (hon : ∀ s ∈ rest, s.On heap p)
    (ht : Tiled a (pendingSlices pending ++ rest) b) (hb : b ≤ u64Max) :
    ∃ tail heap', page.coalesceLoop index rest pending output heap = (output ++ tail, heap') ∧
      Merged heap heap' p a b (pendingSlices pending ++ rest) tail := by
  induction rest generalizing index pending output heap a with
  | nil =>
    cases pending with
    | none => exact ⟨[], heap, by simp [coalesceLoop, flushPending], .none heap p ht⟩
    | some run =>
      have hrun := hpending run rfl
      obtain ⟨flushed, heap₁, hflush, hf⟩ := flushRun_spec page output hrun
      obtain ⟨rfl, ht⟩ := ht
      refine ⟨[flushed], heap₁, hflush, Merged.flush (.none heap₁ p ?_) hf hrun nofun rfl⟩
      rw [hf.offset, hf.size, ← Run.effectiveSize_spread hrun.size]
      exact ht
  | cons slice rest ih =>
    obtain ⟨hslice, hrest⟩ := List.forall_mem_cons.mp hon
    rw [coalesceLoop]
    cases hfree : slice.isFree heap with
    | true =>
      rw [if_pos rfl]
      cases pending with
      | none =>
        have hrun : Run.Ok ⟨slice, slice.effectiveSize, 1⟩ heap p :=
          ⟨hfree, hslice, slice.effectiveSize_le, le_rfl, fun _ => rfl⟩
        have htiled : Tiled a (Run.spread ⟨slice, slice.effectiveSize, 1⟩ :: rest) b := by
          rw [Tiled, Run.effectiveSize_spread slice.effectiveSize_le]
          exact ht
        obtain ⟨tail, heap', hloop, hm⟩ :=
          ih (index + 1) (some ⟨slice, slice.effectiveSize, 1⟩) output (by simpa using hrun) hrest htiled
        exact ⟨tail, heap', hloop, hm.start hfree⟩
      | some run =>
        have hrun := hpending run rfl
        have hk : heap.Keeps (heap.drop slice.handle) := Heap.keeps_drop (Slice.isFree_iff.mp hfree).1
        obtain ⟨hstart, hmiddle, hend⟩ := ht
        rw [Run.effectiveSize_spread hrun.size] at hend
        have hsize : run.size + slice.effectiveSize ≤ u64Max := by have := hend.le; omega
        have hrun' : Run.Ok ⟨run.first, run.size + slice.effectiveSize, run.count + 1⟩ (heap.drop slice.handle) p :=
          ⟨(Slice.isFree_keep hk hrun.on.handle).trans hrun.free, hrun.on.keep hk, hsize, Nat.le_add_left 1 _,
            fun hcount => absurd (Nat.lt_succ_of_le hrun.count) hcount⟩
        have htiled : Tiled a (Run.spread ⟨run.first, run.size + slice.effectiveSize, run.count + 1⟩ :: rest) b := by
          rw [Tiled, Run.effectiveSize_spread hsize, ← Nat.add_assoc]
          exact ⟨hstart, hend⟩
        obtain ⟨tail, heap', hloop, hm⟩ := ih (index + 1)
          (some ⟨run.first, run.size + slice.effectiveSize, run.count + 1⟩) output (by simpa using hrun')
          (fun s hs => (hrest s hs).keep hk) htiled
        refine ⟨tail, heap', ?_, hm.extend hrun hfree hsize hrest⟩
        rw [← hloop, extendRun, wrap64_of_le hsize]
    | false =>
      rw [if_neg (by simp)]
      cases pending with
      | none =>
        obtain ⟨rfl, ht⟩ := ht
        have hk := keeps_position heap slice index output.length
        obtain ⟨tail, heap', hloop, hm⟩ := ih (index + 1) none (output ++ [slice]) nofun
          (fun s hs => (hrest s hs).keep hk) ht
        refine ⟨slice :: tail, heap', ?_, (hm.earlier hk hrest).cons_live hslice hfree⟩
        rw [List.append_cons, ← hloop]
        rfl
      | some run =>
        have hrun := hpending run rfl
        obtain ⟨flushed, heap₁, hflush, hf⟩ := flushRun_spec page output hrun
        obtain ⟨rfl, hmiddle, hend⟩ := ht
        rw [Run.effectiveSize_spread hrun.size] at hmiddle hend
        have hslice₁ := hslice.keep hf.keeps
        have hrest₁ : ∀ s ∈ rest, s.On heap₁ p := fun s hs => (hrest s hs).keep hf.keeps
        have hlive₁ : slice.isFree heap₁ = false := (Slice.isFree_keep hf.keeps hslice.handle).trans hfree
        have hk := keeps_position heap₁ slice index (output ++ [flushed]).length
        obtain ⟨tail, heap', hloop, hm⟩ := ih (index + 1) none (output ++ [flushed] ++ [slice]) nofun
          (fun s hs => (hrest₁ s hs).keep hk) hend
        have hstop : flushed.storage.offset + flushed.effectiveSize = slice.storage.offset := by
          rw [hf.offset, hf.size]
          exact hmiddle.symm
        rw [hmiddle.symm] at hm
        have hlater := (hm.earlier hk hrest₁).cons_live hslice₁ hlive₁
        rw [← hstop] at hlater
        have hnext : (joined ((slice :: rest).map (Slice.block heap))).head?.all fun block => !block.free := by
          rw [List.map_cons, joined_live hfree]
          simp [Slice.block, hfree]
        refine ⟨flushed :: slice :: tail, heap', ?_, hlater.flush hf hrun hon hnext⟩
        have hout : output ++ flushed :: slice :: tail = output ++ [flushed] ++ [slice] ++ tail := by simp
        rw [flushPending, hflush, hout, ← hloop]

-- Pages

/-- The slices of a page cover some of its storage without gaps, and there is one. -/
structure Ok (heap : Heap) (page : MemoryPage) : Prop where
  on : ∀ s ∈ page.slices, s.On heap page.page
  tiled : ∃ a b, b ≤ u64Max ∧ Tiled a page.slices b
  nonempty : page.slices ≠ []

theorem Ok.mono (h : page.Ok heap) (hc : heap.counter ≤ heap'.counter) : page.Ok heap' :=
  ⟨fun s hs => (h.on s hs).mono hc, h.tiled, h.nonempty⟩

theorem freePair_eq_false : freePair heap slices = false ↔ Spaced (slices.map (Slice.block heap)) := by
  induction slices with
  | nil => simp [freePair, Spaced]
  | cons first rest ih =>
    cases rest with
    | nil => simp [freePair, Spaced]
    | cons second rest =>
      have hpair : (first.isFree heap && second.isFree heap) = false ↔
          ¬((first.block heap).free = true ∧ (second.block heap).free = true) := by simp [Slice.block]
      rw [freePair, Bool.or_eq_false_iff, ih, hpair]
      exact spaced_cons_cons.symm

theorem coalesce_spec (h : page.Ok heap) : ∃ slices heap' a b, page.coalesce heap = ({ page with slices }, heap') ∧
    b ≤ u64Max ∧ Merged heap heap' page.page a b page.slices slices := by
  obtain ⟨a, b, hb, ht⟩ := h.tiled
  unfold coalesce
  split
  · obtain ⟨tail, heap', hloop, hm⟩ :=
      coalesceLoop_spec page 0 none [] nofun h.on ht hb
    rw [hloop]
    exact ⟨tail, heap', a, b, rfl, hb, hm⟩
  · next hpair =>
    have hspaced := freePair_eq_false.mp (Bool.eq_false_of_not_eq_true hpair)
    exact ⟨page.slices, heap, a, b, rfl, hb, .refl heap, h.on, (joined_eq_self hspaced).symm, rfl, ht⟩

theorem Ok.coalesce (h : page.Ok heap) : (page.coalesce heap).1.Ok (page.coalesce heap).2 := by
  obtain ⟨slices, heap', a, b, he, hb, hm⟩ := coalesce_spec h
  rw [he]
  refine ⟨hm.on, ⟨a, b, hb, hm.tiled⟩, ?_⟩
  rintro rfl
  have hblocks := hm.blocks
  cases hs : page.slices with
  | nil => exact h.nonempty hs
  | cons slice rest =>
    rw [hs, List.map_cons, joined_cons] at hblocks
    exact Block.join_ne_nil _ _ hblocks.symm

end MemoryPage

end Ruda.Memory
