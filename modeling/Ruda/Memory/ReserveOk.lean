import Ruda.Memory.RelocationOk

/-!
# Every call of the manager keeps the pools in order

Reserving, binding, captures and cleanup maintain `OkFrom`, and with them every
state that an adaptive manager reaches.
-/

namespace Ruda.Memory

open Mem MemoryManagement

variable {σ α : Type} {S : ComputeStorage σ} {s s' : MemoryManagement σ} {c size index : Nat}

-- Pressure

theorem pinRevision_counter (heap : Heap) (handle : ManagedMemoryHandle) :
    (heap.pinRevision handle).2.counter = heap.counter := by
  unfold Heap.pinRevision
  split <;> rfl

theorem take_counter (item : MemoryPage.InputItem) (heap : Heap) : heap.counter ≤ (item.take heap).2.counter := by
  cases item with
  | input known => exact le_rfl
  | allocation handle size source =>
    unfold MemoryPage.InputItem.take
    cases source with
    | true => exact (pinRevision_counter heap handle).ge
    | false => exact le_rfl

theorem maintains_outdatedItems {P : MemoryManagement σ → Prop} (indices : List Nat) :
    Maintains P (outdatedItems indices : Mem σ _) := by
  induction indices with
  | nil => exact .pure []
  | cons index rest ih => exact .bind (maintains_slicedAt index) fun _ => .bind .get fun _ => .bind ih fun _ => .pure _

theorem maintains_relocationItems {P : MemoryManagement σ → Prop} : Maintains P (relocationItems : Mem σ _) :=
  .bind .get fun _ => .bind (maintains_slicedAt _) fun _ => .bind (maintains_outdatedItems _) fun _ => .pure _

theorem maintains_takeItems (items : List MemoryPage.InputItem) : Maintains (OkFrom al n c) (takeItems items : Mem σ _) := by
  induction items with
  | nil => exact .pure []
  | cons item rest ih => exact .bind (maintains_onHeap (take_counter item)) fun _ => .bind ih fun _ => .pure _

theorem maintains_itemsEqual (inputs : List MemoryPage.RelocationInput) (items : List MemoryPage.InputItem) :
    Maintains (OkFrom al n c) (itemsEqual inputs items : Mem σ Bool) := by
  induction inputs generalizing items with
  | nil =>
    cases items with
    | nil => exact .pure true
    | cons item rest => exact .bind (maintains_onHeap (take_counter item)) fun _ => .pure false
  | cons input inputs ih =>
    cases items with
    | nil => exact .pure false
    | cons item rest =>
      exact .bind (maintains_onHeap (take_counter item)) fun _ => .ite (fun _ => ih rest) fun _ => .pure false

theorem maintains_stalledMatches : Maintains (OkFrom al n c) (stalledMatches : Mem σ Bool) :=
  .bind maintains_relocationItems fun _ => .bind .get fun _ => maintains_itemsEqual _ _

theorem maintains_stalledStill : Maintains (OkFrom al n c) (stalledStill : Mem σ Bool) :=
  .bind .get fun _ => .ite (fun _ => maintains_stalledMatches) fun _ => .pure false

theorem maintains_relocateStalled : Maintains (OkFrom al n c) (relocateStalled S) := by
  have hstalled : ∀ f : AdaptiveState → AdaptiveState, (∀ state, (f state).alignment = state.alignment) →
      (∀ state, (f state).current = state.current) → (∀ state, (f state).maxPageSize = state.maxPageSize) →
      Maintains (OkFrom al n c) (modifyAdaptive f : Mem σ Unit) := fun _ => maintains_modifyAdaptive
  refine .bind (hstalled _ (fun _ => rfl) (fun _ => rfl) fun _ => rfl) fun _ => ?_
  refine .bind maintains_relocationItems fun items => .bind (maintains_takeItems items) fun inputs => ?_
  refine .bind (hstalled _ (fun _ => rfl) (fun _ => rfl) fun _ => rfl) fun _ => ?_
  refine .bind (maintains_relocate _) fun reclaimed => ?_
  refine .bind (.ite (fun _ => maintains_stalledMatches) fun _ => .pure false) fun valid => ?_
  exact .bind (hstalled _ (fun _ => rfl) (fun _ => rfl) fun _ => rfl) fun _ => .pure reclaimed

theorem maintains_relieve : Maintains (OkFrom al n c) (relieve S) :=
  .bind maintains_stalledStill fun _ => .ite
    (fun _ => .bind .get fun _ => .ite (fun _ => .pure false) fun _ =>
      .bind (maintains_modifyAdaptive (fun _ => rfl) (fun _ => rfl) fun _ => rfl) fun _ => .fail _)
    fun _ => maintains_relocateStalled

theorem maintains_relievePressure (pageSize : Nat) : Maintains (OkFrom al n c) (relievePressure S pageSize) :=
  .bind .get fun _ => .ite (fun _ => .pure false) fun _ => .ite (fun _ => maintains_relieve) fun _ => .pure false

-- Reserving

theorem largerPageSize_le (state : AdaptiveState) (size : Nat) : largerPageSize state size ≤ state.maxPageSize :=
  min_le_right _ _

theorem chooseSlot_spec (hs : OkFrom al n c s) : Triple (chooseSlot S) s
    (fun index s' => OkFrom al n c s' ∧ index ≤ s'.pools.length) fun _ s' => OkFrom al n c s' := by
  have hvacant : ∀ {pools index}, vacantFrom pools = some index → index ≤ pools.length := by
    intro pools index h
    have hmem := List.mem_of_mem_drop (List.mem_of_find?_eq_some h)
    exact (List.mem_range.mp hmem).le
  refine Triple.get_bind ?_
  split
  · next index h => exact Triple.pure' ⟨hs, hvacant h⟩
  · refine Triple.ite (fun _ => Triple.pure' ⟨hs, le_rfl⟩) fun _ => ?_
    refine Triple.bind (maintains_relocate _ s hs) fun _ s' hs' => Triple.get_bind ?_
    exact Triple.need (fun index h => ⟨hs', hvacant h⟩) fun _ => hs'

theorem allocRetry_spec {pool : DynamicPool} (hs : OkFrom al n c s) (hok : ∀ heap, pool.Ok heap al) (hsliced : pool.isSliced = true)
    (size : Nat) : Triple (allocRetry S pool size) s
      (fun r s' => OkFrom al n c s' ∧ r.2.Ok s'.heap al ∧ r.2.isSliced = true) fun _ s' => OkFrom al n c s' := by
  have halloc : ∀ t, OkFrom al n c t → Triple (allocIn S pool size) t
      (fun r s' => OkFrom al n c s' ∧ r.2.Ok s'.heap al ∧ r.2.isSliced = true) fun _ s' => OkFrom al n c s' :=
    fun t ht => (allocIn_spec (hok t.heap) size).mono
      (fun _ _ hk => ⟨ht.grow hk.grows, hk.ok, hk.sliced.trans hsliced⟩) fun _ _ hg => ht.grow hg
  refine Triple.bind (attempt_spec (halloc s hs)) fun result s₁ h₁ => ?_
  cases result with
  | ok allocated => exact Triple.pure' (h₁.1 allocated rfl)
  | error message =>
    refine Triple.bind (maintains_relocate _ s₁ (h₁.2 message rfl)) fun moved s₂ h₂ => ?_
    exact Triple.ite (fun _ => halloc s₂ h₂) fun _ => Triple.fail' h₂

theorem install_ok {pool : DynamicPool} (hs : OkFrom al n c s) (hok : pool.Ok s.heap al) (hsliced : pool.isSliced = true)
    (hindex : index ≤ s.pools.length) :
    Triple (install index pool) s (fun _ s' => OkFrom al n c s') fun _ s' => OkFrom al n c s' := by
  refine Triple.modify' ⟨?_, ?_, hs.alignment, ?_, hs.maxPageSize, hs.counter⟩
  · intro p hp
    show p.Ok s.heap s.adaptive.alignment
    have hp' : p ∈ s.pools ∨ p = pool := by
      simp only at hp
      split at hp
      · rcases List.mem_append.mp hp with hp | hp
        · exact .inl hp
        · exact .inr (List.mem_singleton.mp hp)
      · exact List.mem_or_eq_of_mem_set hp
    rcases hp' with hp | rfl
    · exact hs.pools p hp
    · exact hs.alignment ▸ hok
  · show Option.any _ (if index = s.pools.length then s.pools ++ [pool] else s.pools.set index pool)[index]? = true
    split
    · next h =>
      subst h
      simp [hsliced]
    · next h =>
      rw [List.getElem?_set_self (by omega)]
      exact hsliced
  · show n ≤ (if index = s.pools.length then s.pools ++ [pool] else s.pools.set index pool).length
    split
    · rw [List.length_append]
      exact hs.count.trans (Nat.le_add_right _ _)
    · rw [List.length_set]
      exact hs.count

theorem maintains_reserveLarger (size : Nat) : Maintains (OkFrom al n c) (reserveLarger S size) := by
  intro s hs
  refine Triple.bind (maintains_cleanupOutdated s hs) fun _ s₁ h₁ => Triple.get_bind ?_
  refine Triple.bind (maintains_relievePressure _ s₁ h₁) fun _ s₂ h₂ => ?_
  refine Triple.bind (Q := fun index s' => OkFrom al n c s' ∧ index ≤ s'.pools.length) (chooseSlot_spec h₂) fun index s₃ h₃ => ?_
  refine Triple.get_bind ?_
  have hsize : largerPageSize s₁.adaptive size ≤ u64Max := (largerPageSize_le _ _).trans h₁.maxPageSize
  have hnew : ∀ heap, DynamicPool.Ok heap al (.sliced (.new (largerPageSize s₁.adaptive size)
      (largerPageSize s₁.adaptive size) s₃.adaptive.alignment (index % 2 ^ 8))) :=
    fun heap => ⟨h₃.1.alignment, hsize, nofun⟩
  have hcount : OkFrom al (max n index) c s₃ := h₃.1.recount (max_le h₃.1.count h₃.2)
  refine Triple.mono (Q := fun _ s' => OkFrom al (max n index) c s') (E := fun _ s' => OkFrom al (max n index) c s') ?_
    (fun _ _ h => h.recount ((le_max_left _ _).trans h.count)) fun _ _ h => h.recount ((le_max_left _ _).trans h.count)
  refine Triple.bind (allocRetry_spec hcount hnew rfl size) fun r s₄ h₄ => ?_
  refine Triple.bind (install_ok h₄.1 h₄.2.1 h₄.2.2 ((le_max_right _ _).trans h₄.1.count)) fun _ s₅ h₅ => ?_
  exact Triple.bind (Maintains.onError (maintains_relocate _) (maintains_dropAll _) s₅ h₅) fun _ s₆ h₆ => Triple.pure' h₆

theorem maintains_reserveRelieved (current pageSize size : Nat) :
    Maintains (OkFrom al n c) (reserveRelieved S current pageSize size) :=
  .bind (maintains_relievePressure _) fun _ => .ite (fun _ => maintains_tryReserveAt _ _) fun _ => .pure none

theorem maintains_reservePage (current size : Nat) : Maintains (OkFrom al n c) (reservePage S current size) := by
  refine .bind (maintains_attempt (maintains_allocAt _ _)) fun result => ?_
  cases result with
  | ok handle => exact .bind (.onError (maintains_relocate _) (maintains_dropAll _)) fun _ => .pure handle
  | error message =>
    refine .bind (maintains_relocate _) fun reclaimed => .bind (maintains_tryReserveAt _ _) fun found => ?_
    cases found with
    | some handle => exact .pure handle
    | none => exact .ite (fun _ => maintains_allocAt _ _) fun _ => .fail _

theorem maintains_reserveCurrent (current pageSize size : Nat) :
    Maintains (OkFrom al n c) (reserveCurrent S current pageSize size) := by
  refine .bind (maintains_tryReserveAt _ _) fun found => ?_
  cases found with
  | some handle => exact .pure handle
  | none =>
    refine .bind (maintains_reserveRelieved _ _ _) fun found => ?_
    cases found with
    | some handle => exact .pure handle
    | none => exact maintains_reservePage _ _

theorem maintains_reserveIndexed (index size : Nat) : Maintains (OkFrom al n c) (reserveIndexed S index size) := by
  refine .bind (maintains_tryReserveAt _ _) fun found => ?_
  cases found with
  | some handle => exact .pure handle
  | none => exact maintains_allocAt _ _

theorem maintains_reserveAdaptive (size : Nat) : Maintains (OkFrom al n c) (reserveAdaptive S size) := by
  refine .bind maintains_checkRelocation fun _ => .bind .get fun s => .bind (maintains_ofRes _) fun padding =>
    .bind .need fun needed => ?_
  cases s.adaptive.metadataPool size with
  | some index => exact maintains_reserveIndexed index size
  | none =>
    exact .bind (maintains_slicedAt _) fun pool =>
      .ite (fun _ => maintains_reserveLarger size) fun _ => maintains_reserveCurrent _ _ _

-- Other calls

theorem maintains_grow {f : MemoryManagement σ → MemoryManagement σ} (h : ∀ s, Grows s (f s)) :
    Maintains (OkFrom al n c) (modify f : Mem σ Unit) :=
  maintains_modify fun s hs => hs.grow (h s)

theorem maintains_deallocAll (freed : List StorageId) : Maintains (OkFrom al n c) (deallocAll S freed) :=
  maintains_of_grows fun _ => grows_deallocAll freed

theorem maintains_setMode (mode : MemoryAllocationMode) : Maintains (OkFrom al n c) (setMode mode : Mem σ Unit) :=
  maintains_grow fun _ => ⟨rfl, rfl, le_rfl⟩

theorem maintains_cleanupPersistent (explicit : Bool) : Maintains (OkFrom al n c) (cleanupPersistent S explicit) := by
  refine .read fun s hs => Triple.set_bind ?_
  have hcount := PersistentPool.cleanup_counter s.persistent explicit s.heap
  have hrest : Maintains (OkFrom al n c) (do
      deallocAll S (s.persistent.cleanup explicit s.heap).2.1
      if explicit then flushStorage S else pure () : Mem σ Unit) :=
    .bind (maintains_deallocAll _) fun _ => .ite (fun _ => maintains_flushStorage) fun _ => .pure ()
  exact hrest _ (hs.grow ⟨rfl, rfl, hcount.ge⟩)

theorem maintains_reclaimDedicated : Maintains (OkFrom al n c) (reclaimDedicated S) := by
  refine .read fun s hs => Triple.set_bind ?_
  have hcount := DedicatedAllocations.reclaim_counter s.dedicated s.heap
  have hrest : Maintains (OkFrom al n c) (do
      deallocAll S (s.dedicated.reclaim s.heap).2.1
      if (s.dedicated.reclaim s.heap).2.2.1 then flushStorage S else pure () : Mem σ Unit) :=
    .bind (maintains_deallocAll _) fun _ => .ite (fun _ => maintains_flushStorage) fun _ => .pure ()
  exact hrest _ (hs.grow ⟨rfl, rfl, hcount.ge⟩)

theorem maintains_cleanup (explicit : Bool) : Maintains (OkFrom al n c) (MemoryManagement.cleanup S explicit) :=
  .bind .get fun _ => .ite (fun _ => .bind (maintains_cleanupPersistent _) fun _ => .bind maintains_reclaimDedicated fun _ =>
    .bind .get fun _ => maintains_forEach (maintains_cleanupAt _ _) _) fun _ => .pure ()

theorem maintains_compact : Maintains (OkFrom al n c) (MemoryManagement.compact S) :=
  .bind .get fun _ => .bind .failIf fun _ => .bind maintains_compactAdaptive fun _ => maintains_cleanup true

theorem maintains_findIn {P : MemoryManagement σ → Prop} (pool : DynamicPool) (location : MemoryLocation) :
    Maintains P (findIn pool location : Mem σ Slice) := by
  cases pool with
  | sliced pool => exact .bind .expect fun _ => maintains_ofRes _
  | exclusive pool => exact maintains_ofRes _

theorem maintains_find {P : MemoryManagement σ → Prop} (binding : ManagedMemoryHandle) :
    Maintains P (MemoryManagement.find binding : Mem σ Slice) :=
  .bind .get fun _ => .bind .failIf fun _ => .ite (fun _ => maintains_ofRes _) fun _ => .ite (fun _ => maintains_ofRes _)
    fun _ => .bind .need fun _ => .bind (maintains_findIn _ _) fun _ => .ite (fun _ => .pure _) fun _ => .panic _

theorem maintains_allocUnmapped (mapped : Bool) (size : Nat) : Maintains (OkFrom al n c) (allocUnmapped S mapped size) :=
  maintains_of_grows fun _ => grows_allocUnmapped mapped size

theorem maintains_materialize (binding : ManagedMemoryHandle) :
    Maintains (OkFrom al n c) (MemoryManagement.materialize S binding) := by
  refine .bind (maintains_find binding) fun slice => .ite (fun _ => .pure ()) fun _ => ?_
  refine .bind .get fun s => .bind .failIf fun _ => .ite (fun _ => ?_) fun _ => .ite (fun _ => ?_) fun _ =>
    maintains_materializeAt _ _
  · exact .bind (maintains_ofRes _) fun _ => .bind (maintains_allocUnmapped _ _) fun _ => .bind (maintains_ofRes _) fun _ =>
      maintains_grow fun _ => ⟨rfl, rfl, le_rfl⟩
  · exact .bind (maintains_ofRes _) fun _ => .bind (maintains_allocUnmapped _ _) fun _ => .bind (maintains_ofRes _) fun _ =>
      maintains_grow fun _ => ⟨rfl, rfl, le_rfl⟩

theorem maintains_getStorage (binding : ManagedMemoryHandle) :
    Maintains (OkFrom al n c) (MemoryManagement.getStorage S binding) :=
  .bind (maintains_materialize binding) fun _ => .bind (maintains_find binding) fun _ => .pure _

theorem maintains_touchCapture (owner : Nat) (binding : ManagedMemoryHandle) :
    Maintains (OkFrom al n c) (MemoryManagement.touchCapture S owner binding) := by
  refine .bind (maintains_materialize binding) fun _ => .bind (maintains_find binding) fun slice => maintains_grow fun s => ?_
  split
  · exact .refl s
  · exact ⟨rfl, rfl, le_rfl⟩

theorem foldl_guard_counter (pages : List PageRef) (heap : Heap) : (pages.foldl Heap.guard heap).counter = heap.counter := by
  induction pages generalizing heap with
  | nil => rfl
  | cons page rest ih => exact ih _

theorem maintains_endCapture (owner : Nat) (retain : Bool) :
    Maintains (OkFrom al n c) (MemoryManagement.endCapture owner retain : Mem σ Unit) :=
  maintains_grow fun _ => ⟨rfl, rfl, (foldl_guard_counter _ _).ge⟩

-- Reserving outside the layout, and binding

theorem maintains_allocateMapping (size : Nat) : Maintains (OkFrom al n c) (allocateMapping S size) :=
  maintains_of_grows fun _ => grows_allocateMapping size

theorem maintains_allocDedicated (size : Nat) : Maintains (OkFrom al n c) (allocDedicated S size) :=
  .bind .get fun _ => .bind (maintains_ofRes _) fun _ => .bind (maintains_allocateMapping _) fun _ =>
    .read fun s hs => Triple.ofRes_bind (fun ⟨_, _, _⟩ hr => Triple.set_bind (Triple.pure'
      (hs.grow ⟨rfl, rfl, DedicatedAllocations.alloc_counter hr⟩))) fun _ => hs

theorem maintains_reserveDedicated (size : Nat) : Maintains (OkFrom al n c) (reserveDedicated S size) :=
  .bind .get fun _ => .bind .failIf fun _ => .bind
    (.bind .get fun _ => .ite (fun _ => maintains_reclaimDedicated) fun _ => .pure ()) fun _ => maintains_allocDedicated size

theorem maintains_reservePersistent (size : Nat) : Maintains (OkFrom al n c) (reservePersistent size : Mem σ _) :=
  .read fun s hs => Triple.ofRes_bind (fun ⟨_, _, _⟩ hr => Triple.set_bind (Triple.pure'
    (hs.grow ⟨rfl, rfl, PersistentPool.tryReserve_counter hr⟩))) fun _ => hs

theorem maintains_allocPersistent (size : Nat) : Maintains (OkFrom al n c) (allocPersistent S size) :=
  .bind .get fun _ => .bind (maintains_ofRes _) fun _ => .bind (maintains_allocateMapping _) fun _ =>
    .read fun s hs => Triple.ofRes_bind (fun ⟨_, _, _⟩ hr => Triple.set_bind (Triple.pure'
      (hs.grow ⟨rfl, rfl, PersistentPool.alloc_counter hr⟩))) fun _ => hs

theorem maintains_reserveAccepting (size : Nat) (indices : List Nat) :
    Maintains (OkFrom al n c) (reserveAccepting size indices : Mem σ _) := by
  induction indices with
  | nil => exact .pure none
  | cons index rest ih =>
    refine .bind (.bind .get fun _ => .expect) fun pool => .ite (fun _ => ?_) fun _ => ih
    refine .bind (maintains_tryReserveAt _ _) fun found => ?_
    cases found with
    | some handle => exact .pure _
    | none => exact ih

theorem maintains_reserveRecording (size : Nat) : Maintains (OkFrom al n c) (reserveRecording S size) := by
  refine .bind (maintains_reservePersistent _) fun found => ?_
  cases found with
  | some handle => exact .pure _
  | none =>
    refine .bind .get fun s => .bind (maintains_reserveAccepting _ _) fun found => ?_
    cases found with
    | some handle => exact .pure _
    | none => exact .ite (fun _ => .fail _) fun _ => maintains_allocPersistent _

theorem maintains_reserveDynamic (size : Nat) : Maintains (OkFrom al n c) (reserveDynamic S size) := by
  refine .bind (maintains_grow fun _ => ⟨rfl, rfl, le_rfl⟩) fun _ => .bind (maintains_reservePersistent _) fun found => ?_
  cases found with
  | some handle => exact .pure _
  | none =>
    exact .bind .get fun _ => .bind (maintains_ofRes _) fun _ =>
      .ite (fun _ => maintains_allocPersistent _) fun _ => maintains_reserveAdaptive _

theorem maintains_reserve (size : Nat) : Maintains (OkFrom al n c) (MemoryManagement.reserve S size) :=
  .bind .get fun _ => .ite (fun _ => maintains_reserveDedicated _) fun _ =>
    .ite (fun _ => maintains_reserveDynamic _) fun _ => maintains_reserveRecording _

theorem maintains_bind {reserved assigned cursor : Nat} (ha : assigned < c) :
    Maintains (OkFrom al n c) (MemoryManagement.bind reserved assigned cursor : Mem σ Unit) :=
  .read fun s hs => Triple.failIf_bind (fun _ => hs) fun _ => Triple.ite
    (fun _ => Triple.ofRes_bind (fun ⟨_, _⟩ hr => Triple.set'
      (hs.grow ⟨rfl, rfl, DedicatedAllocations.bind_counter hr⟩)) fun _ => hs)
    fun _ => Triple.ite (fun _ => Triple.ofRes_bind (fun ⟨_, _⟩ hr => Triple.set'
      (hs.grow ⟨rfl, rfl, PersistentPool.bind_counter hr⟩)) fun _ => hs)
    fun _ => maintains_bindAt ha s hs

-- Runs

theorem pin_counter (heap : Heap) (handle : ManagedMemoryHandle) : (heap.pin handle).counter = heap.counter := by
  unfold Heap.pin Heap.pinChanged
  simp only
  split <;> rfl

theorem unpin_counter (heap : Heap) (handle : ManagedMemoryHandle) : (heap.unpin handle).counter = heap.counter := by
  unfold Heap.unpin Heap.pinChanged
  simp only
  split <;> rfl

theorem Op.maintains {op : Op} (ha : ∀ reserved assigned cursor, op = .bind reserved assigned cursor → assigned < c) :
    Maintains (OkFrom al n c) (Op.run S op) := by
  cases op with
  | mode target => exact maintains_setMode target
  | dryRun on => exact maintains_grow fun _ => ⟨rfl, rfl, le_rfl⟩
  | cleanup explicit => exact maintains_cleanup explicit
  | compact => exact maintains_compact
  | getStorage binding => exact .bind (maintains_getStorage binding) fun _ => .pure _
  | touchCapture owner binding => exact maintains_touchCapture owner binding
  | beginCapture owner forbid => exact maintains_grow fun _ => ⟨rfl, rfl, le_rfl⟩
  | endCapture owner retain => exact maintains_endCapture owner retain
  | reserve size => exact .bind (maintains_reserve size) fun _ => .pure _
  | bind reserved assigned cursor => exact maintains_bind (ha _ _ _ rfl)
  | newHandle => exact maintains_grow fun s => ⟨rfl, rfl, Nat.le_succ _⟩
  | clone handle => exact maintains_grow fun _ => ⟨rfl, rfl, le_rfl⟩
  | drop handle => exact maintains_grow fun _ => ⟨rfl, rfl, le_rfl⟩
  | pin handle => exact maintains_grow fun _ => ⟨rfl, rfl, (pin_counter _ _).ge⟩
  | unpin handle => exact maintains_grow fun _ => ⟨rfl, rfl, (unpin_counter _ _).ge⟩
  | guard page => exact maintains_grow fun _ => ⟨rfl, rfl, le_rfl⟩
  | unguard page => exact maintains_grow fun _ => ⟨rfl, rfl, le_rfl⟩

theorem adaptiveState_new {properties : MemoryDeviceProperties} {state : AdaptiveState}
    (h : AdaptiveState.new properties = .ok state) :
    state.maxPageSize ≤ u64Max ∧ state.current = arenaStart ∧ state.smallPageSize ≤ state.maxPageSize ∧
      state.minPageSize ≤ state.maxPageSize := by
  have haligned : ∀ {alignment maxPageSize size result}, AdaptiveState.aligned alignment maxPageSize size = .ok result →
      result ≤ maxPageSize := by
    intro alignment maxPageSize size result h
    obtain ⟨_, -, h⟩ := bind_eq_ok.mp h
    obtain rfl := Except.ok.inj h
    exact min_le_right _ _
  unfold AdaptiveState.new at h
  simp only at h
  split at h
  · cases h
  · split at h
    · cases h
    · obtain ⟨minPageSize, hmin, h⟩ := bind_eq_ok.mp h
      obtain ⟨smallPageSize, hsmall, h⟩ := bind_eq_ok.mp h
      obtain rfl := Except.ok.inj h
      exact ⟨(Nat.div_mul_le_self _ _).trans properties.maxPageSize_le, rfl, haligned hsmall, haligned hmin⟩

theorem fromConfiguration_ok {storage : σ} {heap : Heap} {properties : MemoryDeviceProperties} {config : PersistentMemory}
    {provided : Option MemoryAllocationMode} (h : fromConfiguration storage heap properties config provided = .ok s) :
    OkFrom s.adaptive.alignment 0 0 s := by
  obtain ⟨state, hstate, h⟩ := bind_eq_ok.mp h
  obtain rfl := Except.ok.inj h
  obtain ⟨hmax, hcurrent, hsmall, hmin⟩ := adaptiveState_new hstate
  refine ⟨?_, ?_, rfl, Nat.zero_le _, hmax, Nat.zero_le _⟩
  · intro pool hp
    simp only [AdaptiveState.layout, List.mem_cons, List.not_mem_nil, or_false] at hp
    rcases hp with rfl | rfl | rfl
    · trivial
    · exact ⟨rfl, hsmall.trans hmax, nofun⟩
    · exact ⟨rfl, hmin.trans hmax, nofun⟩
  · show state.layout[state.current]?.any DynamicPool.isSliced = true
    rw [hcurrent]
    rfl

theorem MemoryManagement.Reachable.ok (h : Reachable S s) : OkFrom s.adaptive.alignment 0 0 s := by
  suffices hal : ∃ al, OkFrom al 0 0 s by
    obtain ⟨al, hal⟩ := hal
    exact hal.alignment.symm ▸ hal
  induction h with
  | new hnew => exact ⟨_, fromConfiguration_ok hnew⟩
  | touch storage _ ih =>
    obtain ⟨al, hs⟩ := ih
    exact ⟨al, hs.grow ⟨rfl, rfl, le_rfl⟩⟩
  | @step s op _ hallowed ih =>
    obtain ⟨al, hs⟩ := ih
    have hmaintains : Maintains (OkFrom al 0 s.heap.counter) (Op.run S op) := by
      refine Op.maintains fun reserved assigned cursor hop => ?_
      subst hop
      exact hallowed.2
    exact ⟨al, (hmaintains.next hs.own).weaken (Nat.zero_le _)⟩

end Ruda.Memory
