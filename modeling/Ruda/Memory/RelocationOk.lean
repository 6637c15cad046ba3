import Ruda.Memory.ManagementOk

/-!
# Relocation keeps the pools in order

Every part of the adaptive layout maintains `OkFrom`. Moves bind handles that were
live in an outdated pool, so the plans carry that these handles exist.
-/

namespace Ruda.Memory

open Mem MemoryManagement

variable {σ α : Type} {S : ComputeStorage σ} {s s' : MemoryManagement σ} {c size index : Nat}

-- Parts that only read or only touch the heap

theorem maintains_forEach {P : MemoryManagement σ → Prop} {f : Nat → Mem σ Unit} (hf : ∀ index, Maintains P (f index))
    (indices : List Nat) : Maintains P (forEach f indices) := by
  induction indices with
  | nil => exact .pure ()
  | cons index rest ih => exact .bind (hf index) fun _ => ih

theorem maintains_onHeap {f : Heap → α × Heap} (h : ∀ heap, heap.counter ≤ (f heap).2.counter) :
    Maintains (OkFrom al n c) (onHeap f : Mem σ α) :=
  maintains_of_grows fun _ => grows_onHeap h

theorem maintains_dropAll (handles : List ManagedMemoryHandle) : Maintains (OkFrom al n c) (dropAll handles : Mem σ Unit) :=
  maintains_of_grows fun _ => grows_dropAll handles

theorem maintains_onStorage (call : StorageCall) (f : σ → α × σ) : Maintains (OkFrom al n c) (onStorage call f) :=
  maintains_of_grows fun _ => grows_onStorage call f

theorem maintains_flushStorage : Maintains (OkFrom al n c) (flushStorage S) := maintains_onStorage _ _

theorem maintains_slicedAt {P : MemoryManagement σ → Prop} (index : Nat) : Maintains P (slicedAt index : Mem σ _) :=
  .bind (.bind .get fun _ => .expect) fun pool => by
    cases pool with
    | sliced pool => exact .pure pool
    | exclusive pool => exact .panic _

theorem maintains_checkRelocation : Maintains (OkFrom al n c) (checkRelocation S) := .bind .get fun _ => .failIf

theorem MemoryManagement.OkFrom.relayout {state : AdaptiveState} (h : OkFrom al n c s) (ha : state.alignment = s.adaptive.alignment)
    (hc : state.current = s.adaptive.current) (hm : state.maxPageSize = s.adaptive.maxPageSize) :
    OkFrom al n c { s with adaptive := state } := by
  refine ⟨?_, ?_, ha.trans h.alignment, h.count, ?_, h.counter⟩
  · show ∀ pool ∈ s.pools, pool.Ok s.heap state.alignment
    rw [ha]
    exact h.pools
  · show s.pools[state.current]?.any DynamicPool.isSliced = true
    rw [hc]
    exact h.current
  · show state.maxPageSize ≤ u64Max
    rw [hm]
    exact h.maxPageSize

theorem maintains_sumPages {P : MemoryManagement σ → Prop} (indices : List Nat) : Maintains P (sumPages indices : Mem σ _) := by
  induction indices with
  | nil => exact .pure 0
  | cons index rest ih => exact .bind (maintains_slicedAt index) fun _ => .bind ih fun _ => .pure _

theorem maintains_outdatedPages {P : MemoryManagement σ → Prop} : Maintains P (outdatedPages : Mem σ Nat) :=
  .bind .get fun _ => maintains_sumPages _

theorem maintains_cleanupOutdated : Maintains (OkFrom al n c) (cleanupOutdated S) :=
  .bind .get fun _ => .bind (maintains_forEach (maintains_cleanupAt 0 true) _) fun _ =>
    maintains_modify fun _ hs => hs.relayout rfl rfl rfl

theorem maintains_cleanupTarget (room : TargetRoom) : Maintains (OkFrom al n c) (cleanupTarget S room) := by
  refine .bind .get fun s => ?_
  cases room with
  | held => exact .pure ()
  | mayAllocate => exact maintains_cleanupAt 0 true _

theorem maintains_targetStorage {P : MemoryManagement σ → Prop} (target : ManagedMemoryHandle) :
    Maintains P (targetStorage target : Mem σ _) :=
  .bind .get fun _ => .bind (maintains_slicedAt _) fun _ => .bind .expect fun _ => .bind (maintains_ofRes _) fun _ => .pure _

theorem maintains_findTarget (room : TargetRoom) (size : Nat) (error : Option String) :
    Maintains (OkFrom al n c) (findTarget S room size error) := by
  refine .bind .get fun s => .bind (maintains_tryReserveAt _ _) fun found => ?_
  cases found with
  | some target => exact .pure _
  | none =>
    cases room with
    | held => exact .pure _
    | mayAllocate =>
      refine .bind (maintains_attempt (maintains_allocAt _ _)) fun result => ?_
      cases result with
      | ok target => exact .pure _
      | error message => exact .pure _

-- Plans

/-- Every page offers only handles below `c`. -/
def Offers (c : Nat) (pages : List MemoryPage.RelocationPage) : Prop :=
  ∀ page ∈ pages, ∀ allocation ∈ page.allocations, allocation.1 < c

def Moves (c : Nat) (moves : List Relocation) : Prop := ∀ move ∈ moves, move.allocation < c

theorem foldl_clone_counter (slices : List Slice) (heap : Heap) :
    (slices.foldl (fun heap slice => heap.clone slice.handle) heap).counter = heap.counter := by
  induction slices generalizing heap with
  | nil => rfl
  | cons slice rest ih => exact ih _

theorem relocationPage_spec {page : MemoryPage} {heap : Heap} (h : page.Ok heap) :
    Offers heap.counter (page.relocationPage heap).1.toList ∧ (page.relocationPage heap).2.counter = heap.counter := by
  unfold MemoryPage.relocationPage
  simp only
  split
  · exact ⟨nofun, rfl⟩
  · split
    · exact ⟨nofun, rfl⟩
    · split
      · exact ⟨nofun, rfl⟩
      · refine ⟨fun offered ho allocation ha => ?_, foldl_clone_counter _ _⟩
        obtain rfl := Option.some.inj (Option.mem_toList.mp ho)
        obtain ⟨slice, hs, rfl⟩ := List.mem_map.mp ha
        exact (h.on slice (List.mem_of_mem_filter hs)).handle

theorem relocationPages_spec {pages : List (MemoryPage × StorageId)} {heap : Heap} {alignment : Nat}
    (h : PagesOk heap alignment pages) : Offers heap.counter (SlicedPool.relocationPages pages heap).1 ∧
      (SlicedPool.relocationPages pages heap).2.counter = heap.counter := by
  induction pages generalizing heap with
  | nil => exact ⟨nofun, rfl⟩
  | cons entry rest ih =>
    obtain ⟨hpage, hcount⟩ := relocationPage_spec (h entry List.mem_cons_self).1
    obtain ⟨hrest, hcount'⟩ := ih ((PagesOk.cons_iff.mp h).2.mono hcount.ge)
    rw [hcount] at hrest
    refine ⟨fun page hp => ?_, hcount'.trans hcount⟩
    rcases List.mem_append.mp hp with hp | hp
    · exact hpage page hp
    · exact hrest page hp

theorem Offers.mono (h : Offers c pages) (hc : c ≤ c') : Offers c' pages :=
  fun page hp allocation ha => (h page hp allocation ha).trans_le hc

theorem offeredPages_spec (indices : List Nat) (hs : OkFrom al n c s) : Triple (offeredPages indices) s
    (fun pages s' => OkFrom al n c s' ∧ Offers s'.heap.counter pages) fun _ s' => OkFrom al n c s' := by
  induction indices generalizing s c with
  | nil => exact Triple.pure' ⟨hs, nofun⟩
  | cons index rest ih =>
    refine slicedAt_bind (fun pool hp => ?_) fun _ => hs
    have hok := (hs.pools _ (List.mem_of_getElem? hp)).pages
    obtain ⟨hoffers, hcount⟩ := relocationPages_spec hok
    refine Triple.bind (Q := fun pages s' => OkFrom al n c s' ∧ Offers s'.heap.counter pages) ?_ fun pages s₁ h₁ => ?_
    · refine Triple.get_bind (Triple.set_bind (Triple.pure' ⟨hs.grow ⟨rfl, rfl, hcount.ge⟩, ?_⟩))
      show Offers (SlicedPool.relocationPages pool.pages s.heap).2.counter _
      rw [hcount]
      exact hoffers
    · refine Triple.bind (Q := fun others s' => OkFrom al n s₁.heap.counter s' ∧ OkFrom al n c s' ∧ Offers s'.heap.counter others)
        ?_ fun others s₂ h₂ => ?_
      · refine (ih h₁.1.own).mono (fun others s₂ h₂ => ⟨h₂.1, h₂.1.weaken h₁.1.counter, h₂.2⟩) fun _ s₂ h₂ => h₂.weaken h₁.1.counter
      · refine Triple.pure' ⟨h₂.2.1, fun page hp => ?_⟩
        rcases List.mem_append.mp hp with hp | hp
        · exact h₁.2.mono h₂.1.counter page hp
        · exact h₂.2.2 page hp

theorem Moves.append (h : Moves c moves) (h' : Moves c moves') : Moves c (moves ++ moves') :=
  fun move hm => (List.mem_append.mp hm).elim (h move) (h' move)

/-- A call that maintains `OkFrom` and returns moves of handles below `c`. -/
def Plans (al n c : Nat) (m : Mem σ α) (moves : α → List Relocation) : Prop :=
  ∀ s, OkFrom al n c s → Triple m s (fun r s' => OkFrom al n c s' ∧ Moves c (moves r)) fun _ s' => OkFrom al n c s'

theorem Plans.bind {m : Mem σ β} {f : β → Mem σ α} {moves : α → List Relocation} (hm : Maintains (OkFrom al n c) m)
    (hf : ∀ b, Plans al n c (f b) moves) : Plans al n c (m >>= f) moves :=
  fun s hs => Triple.bind (hm s hs) fun b s' hs' => hf b s' hs'

theorem Plans.onError {m : Mem σ α} {moves : α → List Relocation} {cleanup : Mem σ Unit} (hm : Plans al n c m moves)
    (hc : Maintains (OkFrom al n c) cleanup) : Plans al n c (m.onError cleanup) moves :=
  fun s hs => Triple.onError (hm s hs) (fun _ s' hs' => hc s' hs') fun _ _ hs' => hs'

theorem planPage_plans (room : TargetRoom) (mapped : Bool) {allocations : List (ManagedMemoryHandle × StorageHandle × Nat)}
    {moves : List Relocation} (ha : ∀ allocation ∈ allocations, allocation.1 < c) (hm : Moves c moves) (error : Option String) :
    Plans al n c (planPage S room mapped allocations moves error) Prod.fst := by
  induction allocations generalizing moves error with
  | nil => exact fun s hs => Triple.pure' ⟨hs, hm⟩
  | cons allocation rest ih =>
    obtain ⟨hfirst, hrest⟩ := List.forall_mem_cons.mp ha
    obtain ⟨handle, source, cursor⟩ := allocation
    refine .bind (maintains_findTarget room source.size error) fun found => ?_
    obtain ⟨target, error'⟩ := found
    cases target with
    | none => exact .bind (maintains_dropAll _) fun _ s hs => Triple.pure' ⟨hs, nofun⟩
    | some target =>
      refine .bind (.onError (maintains_targetStorage target) (maintains_dropAll _)) fun destination => ?_
      exact ih hrest (hm.append fun move hmove => List.mem_singleton.mp hmove ▸ hfirst) error'

theorem planPages_plans (room : TargetRoom) {pages : List MemoryPage.RelocationPage} {moves : List Relocation}
    (ho : Offers c pages) (hm : Moves c moves) (error : Option String) :
    Plans al n c (planPages S room pages moves error) Prod.fst := by
  induction pages generalizing moves error with
  | nil => exact fun s hs => Triple.pure' ⟨hs, hm⟩
  | cons page rest ih =>
    obtain ⟨hpage, hrest⟩ := List.forall_mem_cons.mp ho
    have hplan : Plans al n c (M.onError (planPage S room page.mapped page.allocations [] error)
        (dropAll (moveHandles moves ++ pageHandles rest))) Prod.fst :=
      .onError (planPage_plans room page.mapped hpage (List.forall_mem_nil _) error) (maintains_dropAll _)
    exact fun s hs => Triple.bind (hplan s hs) fun planned s' hs' => ih hrest (hm.append hs'.2) planned.2 s' hs'.1

theorem backTargets_plans {moves : List Relocation} (hm : Moves c moves) : Plans al n c (backTargets S moves) id := by
  induction moves with
  | nil => exact fun s hs => Triple.pure' ⟨hs, nofun⟩
  | cons move rest ih =>
    obtain ⟨hmove, hrest⟩ := List.forall_mem_cons.mp hm
    unfold backTargets
    split
    · refine .bind .get fun s => .bind (maintains_materializeAt _ _) fun _ => .bind (maintains_targetStorage _) fun dest => ?_
      exact fun s hs => Triple.bind (ih hrest s hs) fun others s' hs' =>
        Triple.pure' ⟨hs'.1, List.forall_mem_cons.mpr ⟨hmove, hs'.2⟩⟩
    · exact fun s hs => Triple.bind (ih hrest s hs) fun others s' hs' =>
        Triple.pure' ⟨hs'.1, List.forall_mem_cons.mpr ⟨hmove, hs'.2⟩⟩

-- Moving

theorem maintains_barrier : Maintains (OkFrom al n c) (barrier S) := .bind (maintains_onStorage _ _) fun _ => .failIf

theorem maintains_copyMoves (moves : List Relocation) : Maintains (OkFrom al n c) (copyMoves S moves) :=
  .bind (.onError maintains_barrier (maintains_dropAll _)) fun _ => .bind (maintains_onStorage _ _) fun _ =>
    .bind (maintains_onStorage _ _) fun _ => .bind .failIf fun _ => .onError .failIf (maintains_dropAll _)

theorem maintains_releaseAt (index : Nat) (allocation : ManagedMemoryHandle) :
    Maintains (OkFrom al n c) (releaseAt index allocation : Mem σ Unit) := by
  intro s hs
  refine slicedAt_bind (fun pool hp => Triple.get_bind ?_) fun _ => hs
  refine Triple.ofRes_bind (fun ⟨pool', heap⟩ hr => ?_) fun _ => hs
  have hok := hs.pools _ (List.mem_of_getElem? hp)
  have hl := SlicedPool.releaseRelocated_leaves hok.pages hr
  have hk : Kept s s.adaptive.alignment (.sliced pool) { s with heap } (.sliced pool') :=
    ⟨⟨rfl, rfl, hl.counter⟩, hok.leave hl, rfl⟩
  exact Triple.set' (hs.put hk hp)

theorem maintains_finishMoves {moves : List Relocation} (hm : Moves c moves) :
    Maintains (OkFrom al n c) (finishMoves moves : Mem σ Unit) := by
  induction moves with
  | nil => exact .pure ()
  | cons move rest ih =>
    obtain ⟨hmove, hrest⟩ := List.forall_mem_cons.mp hm
    exact .bind .get fun s => .bind (.onError (maintains_releaseAt _ _) (maintains_dropAll _)) fun _ =>
      .bind (.onError (maintains_bindAt hmove) (maintains_dropAll _)) fun _ => ih hrest

theorem maintains_moveAll {moves : List Relocation} (hm : Moves c moves) : Maintains (OkFrom al n c) (moveAll S moves) := by
  refine .ite (fun _ => ?_) fun _ => maintains_finishMoves hm
  have hback : Plans al n c (M.onError (backTargets S moves) (dropAll (moveHandles moves))) id :=
    .onError (backTargets_plans hm) (maintains_dropAll _)
  intro s hs
  refine Triple.bind (hback s hs) fun backed s' hs' => ?_
  exact Triple.bind (maintains_copyMoves backed s' hs'.1) fun _ s'' hs'' => maintains_finishMoves hs'.2 s'' hs''

theorem maintains_reclaimEmpty (pagesBefore : Nat) (error : Option String) :
    Maintains (OkFrom al n c) (reclaimEmpty S pagesBefore error) := by
  refine .bind maintains_cleanupOutdated fun _ => .bind maintains_outdatedPages fun pages => ?_
  cases error with
  | none => exact .pure _
  | some message => exact .ite (fun _ => .pure _) fun _ => .fail _

theorem maintains_relocatePages (room : TargetRoom) : Maintains (OkFrom al n c) (relocatePages S room) := by
  refine .bind maintains_checkRelocation fun _ => .bind maintains_outdatedPages fun pagesBefore => .bind .get fun s₀ => ?_
  intro s hs
  refine Triple.bind (offeredPages_spec _ hs) fun pages s₁ h₁ => ?_
  have hsorted : Offers s₁.heap.counter (pages.mergeSort fun page other => decide (page.liveBytes ≤ other.liveBytes)) :=
    fun page hp => h₁.2 page (List.mem_mergeSort.mp hp)
  have hc := h₁.1.counter
  refine (Triple.bind (planPages_plans room hsorted (List.forall_mem_nil _) none s₁ h₁.1.own) fun planned s₂ h₂ => ?_).mono
    (fun _ _ h => OkFrom.weaken h hc) fun _ _ h => OkFrom.weaken h hc
  have hrest : Maintains (OkFrom al n s₁.heap.counter)
      (if planned.1.isEmpty then reclaimEmpty S pagesBefore planned.2
      else do
        moveAll S planned.1
        cleanupOutdated S
        flushStorage S
        let pages ← outdatedPages
        pure (decide (pages < pagesBefore))) :=
    .ite (fun _ => maintains_reclaimEmpty _ _) fun _ => .bind (maintains_moveAll h₂.2) fun _ =>
      .bind maintains_cleanupOutdated fun _ => .bind maintains_flushStorage fun _ =>
        .bind maintains_outdatedPages fun _ => .pure _
  exact hrest s₂ h₂.1

theorem maintains_relocateInner (room : TargetRoom) : Maintains (OkFrom al n c) (relocateInner S room) :=
  .bind .get fun _ => .ite (fun _ => .pure _) fun _ => maintains_relocatePages room

theorem maintains_modifyAdaptive {f : AdaptiveState → AdaptiveState} (ha : ∀ state, (f state).alignment = state.alignment)
    (hc : ∀ state, (f state).current = state.current) (hm : ∀ state, (f state).maxPageSize = state.maxPageSize) :
    Maintains (OkFrom al n c) (modifyAdaptive f : Mem σ Unit) :=
  maintains_modify fun _ hs => hs.relayout (ha _) (hc _) (hm _)

theorem maintains_relocate (room : TargetRoom) : Maintains (OkFrom al n c) (relocate S room) := by
  refine .bind (maintains_attempt (maintains_relocateInner room)) fun result => .bind (maintains_cleanupTarget room) fun _ => ?_
  have hstalled : Maintains (OkFrom al n c) (modifyAdaptive fun state => { state with stalledValid := false } : Mem σ Unit) :=
    maintains_modifyAdaptive (fun _ => rfl) (fun _ => rfl) fun _ => rfl
  cases result with
  | error message => exact .bind hstalled fun _ => .fail _
  | ok moved =>
    cases moved with
    | false => exact .pure _
    | true => exact .bind hstalled fun _ => .pure _

theorem maintains_compactAdaptive : Maintains (OkFrom al n c) (compactAdaptive S) :=
  .bind maintains_cleanupOutdated fun _ => .bind (maintains_relocate _) fun _ => .pure _

end Ruda.Memory
