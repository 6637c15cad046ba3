import Ruda.Memory.Predict
import Ruda.Memory.ReserveOk
import Ruda.Memory.Spare

/-!
# When nothing is relocated

`relocation_pending` answers no only where `reserve` makes no call of the relocation
interface and leaves every held allocation where it is: with outdated pools it has
asked the current pool for room, and without any there is nothing to move.
-/

namespace Ruda.Memory

open Mem MemoryManagement

variable {σ α : Type} {S : ComputeStorage σ} {s s' s'' s₀ : MemoryManagement σ} {al size index : Nat}
variable {pool pool' : DynamicPool} {before after : List Slice}

def StorageCall.Relocates : StorageCall → Prop
  | .relocationBarrier | .relocationCopyBatch _ | .relocationComplete => True
  | _ => False

def DynamicPool.allSlices : DynamicPool → List Slice
  | .sliced pool => pool.allSlices
  | .exclusive pool => pool.allSlices

/-- Where a manager keeps slices. -/
inductive Place
  | pool (index : Nat)
  | persistent
  | dedicated

def MemoryManagement.slicesAt (s : MemoryManagement σ) : Place → List Slice
  | .pool index => (s.pools[index]?.map DynamicPool.allSlices).getD []
  | .persistent => s.persistent.slices
  | .dedicated => s.dedicated.slices

/-- No call of the relocation interface between `s` and `s'`. -/
def Unrelocated (s s' : MemoryManagement σ) : Prop :=
  ∃ more, s'.calls = s.calls ++ more ∧ ∀ call ∈ more, ¬call.Relocates

theorem Unrelocated.refl (s : MemoryManagement σ) : Unrelocated s s := ⟨[], (List.append_nil _).symm, List.forall_mem_nil _⟩

theorem Unrelocated.trans (h : Unrelocated s s') (h' : Unrelocated s' s'') : Unrelocated s s'' := by
  obtain ⟨more, hm, hno⟩ := h
  obtain ⟨more', hm', hno'⟩ := h'
  exact ⟨more ++ more', by rw [hm', hm, List.append_assoc], List.forall_mem_append.mpr ⟨hno, hno'⟩⟩

/-- Nothing was relocated, and what is held has stayed in place. -/
structure Quiet (s s' : MemoryManagement σ) : Prop where
  calls : Unrelocated s s'
  adaptive : s'.adaptive = s.adaptive
  spares : ∀ place, Spares s.heap (s.slicesAt place) s'.heap (s'.slicesAt place)

theorem Quiet.refl (s : MemoryManagement σ) : Quiet s s := ⟨.refl s, rfl, fun _ => .refl _ _⟩

theorem Quiet.trans (h : Quiet s s') (h' : Quiet s' s'') : Quiet s s'' :=
  ⟨h.calls.trans h'.calls, h'.adaptive.trans h.adaptive, fun place => (h.spares place).trans (h'.spares place)⟩

/-- Between `s` and `s'` the storage was called, and the slices of one place became others
without being stored yet. -/
structure Beside (s : MemoryManagement σ) (before : List Slice) (s' : MemoryManagement σ) (after : List Slice) : Prop where
  calls : Unrelocated s s'
  adaptive : s'.adaptive = s.adaptive
  pools : s'.pools = s.pools
  persistent : s'.persistent = s.persistent
  dedicated : s'.dedicated = s.dedicated
  spares : Spares s.heap before s'.heap after

namespace Beside

theorem refl (s : MemoryManagement σ) (slices : List Slice) : Beside s slices s slices :=
  ⟨.refl s, rfl, rfl, rfl, rfl, .refl _ _⟩

theorem slicesAt (h : Beside s before s' after) (place : Place) : s'.slicesAt place = s.slicesAt place := by
  cases place with
  | pool index => exact congrArg (fun pools : List DynamicPool => (pools[index]?.map DynamicPool.allSlices).getD []) h.pools
  | persistent => exact congrArg PersistentPool.slices h.persistent
  | dedicated => exact congrArg DedicatedAllocations.slices h.dedicated

theorem elsewhere (h : Beside s before s' after) (place : Place) :
    Spares s.heap (s.slicesAt place) s'.heap (s'.slicesAt place) :=
  h.slicesAt place ▸ h.spares.other _

theorem quiet (h : Beside s before s' after) : Quiet s s' := ⟨h.calls, h.adaptive, h.elsewhere⟩

theorem withHeap {heap : Heap} (h : Beside s before s' before) (hs : Spares s'.heap before heap after) :
    Beside s before { s' with heap } after :=
  ⟨h.calls, h.adaptive, h.pools, h.persistent, h.dedicated, h.spares.trans hs⟩

theorem putPool (h : Beside s pool.allSlices s' pool'.allSlices) (hp : s.pools[index]? = some pool) :
    Quiet s { s' with pools := s'.pools.set index pool' } where
  calls := h.calls
  adaptive := h.adaptive
  spares place := by
    cases place with
    | persistent => exact h.elsewhere .persistent
    | dedicated => exact h.elsewhere .dedicated
    | pool other =>
      by_cases hi : index = other
      · subst hi
        have hlt := (List.getElem?_eq_some_iff.mp hp).1
        have hold : s.slicesAt (.pool index) = pool.allSlices := by simp [MemoryManagement.slicesAt, hp]
        have hnew : MemoryManagement.slicesAt { s' with pools := s'.pools.set index pool' } (.pool index) = pool'.allSlices := by
          simp [MemoryManagement.slicesAt, h.pools, hlt]
        rw [hold, hnew]
        exact h.spares
      · have hsame : MemoryManagement.slicesAt { s' with pools := s'.pools.set index pool' } (.pool other) =
            s'.slicesAt (.pool other) := by
          simp only [MemoryManagement.slicesAt]
          rw [List.getElem?_set_ne hi]
        rw [hsame]
        exact h.elsewhere (.pool other)

theorem putPersistent {persistent : PersistentPool} (h : Beside s s.persistent.slices s' persistent.slices) :
    Quiet s { s' with persistent } where
  calls := h.calls
  adaptive := h.adaptive
  spares place := by
    cases place with
    | pool index => exact h.elsewhere (.pool index)
    | persistent => exact h.spares
    | dedicated => exact h.elsewhere .dedicated

theorem putDedicated {dedicated : DedicatedAllocations} (h : Beside s s.dedicated.slices s' dedicated.slices) :
    Quiet s { s' with dedicated } where
  calls := h.calls
  adaptive := h.adaptive
  spares place := by
    cases place with
    | pool index => exact h.elsewhere (.pool index)
    | persistent => exact h.elsewhere .persistent
    | dedicated => exact h.spares

end Beside

-- Storage calls

theorem beside_onStorage {call : StorageCall} (hc : ¬call.Relocates) (f : σ → α × σ) (slices : List Slice) :
    Triple (onStorage call f) s (fun _ s' => Beside s slices s' slices) fun _ s' => Beside s slices s' slices :=
  Triple.get_bind (Triple.set_bind (Triple.pure'
    ⟨⟨[call], rfl, List.forall_mem_singleton.mpr hc⟩, rfl, rfl, rfl, rfl, .refl _ _⟩))

theorem beside_allocStorage (size : Nat) (slices : List Slice) :
    Triple (allocStorage S size) s (fun _ s' => Beside s slices s' slices) fun _ s' => Beside s slices s' slices :=
  Triple.bind (beside_onStorage id _ slices) fun _ _ h => Triple.need (fun _ _ => h) fun _ => h

theorem beside_allocateMapping (size : Nat) (slices : List Slice) :
    Triple (allocateMapping S size) s (fun _ s' => Beside s slices s' slices) fun _ s' => Beside s slices s' slices := by
  refine Triple.get_bind (Triple.ite (fun _ => ?_) fun _ => beside_allocStorage size slices)
  refine Triple.bind (Q := fun _ s' => Beside s slices s' slices) (Triple.get_bind (Triple.set_bind (Triple.pure' ?_)))
    fun _ _ h => Triple.pure' h
  exact ⟨⟨[], (List.append_nil _).symm, List.forall_mem_nil _⟩, rfl, rfl, rfl, rfl, .refl _ _⟩

-- One pool

theorem beside_tryReserveIn (h : pool.Ok s.heap s.adaptive.alignment) (size : Nat) : Triple (tryReserveIn pool size) s
    (fun r s' => Beside s pool.allSlices s' r.2.allSlices) fun _ s' => Beside s pool.allSlices s' pool.allSlices := by
  refine Triple.get_bind ?_
  cases pool with
  | sliced pool =>
    refine Triple.ofRes_bind (fun ⟨_, _, _⟩ hr => Triple.set_bind (Triple.pure' ?_)) fun _ => .refl s _
    exact (Beside.refl s _).withHeap (SlicedPool.tryReserve_spares h.pages hr)
  | exclusive pool =>
    refine Triple.ofRes_bind (fun ⟨_, _, _⟩ hr => Triple.set_bind (Triple.pure' ?_)) fun _ => .refl s _
    exact (Beside.refl s _).withHeap (ExclusiveMemoryPool.tryReserve_spares hr)

theorem beside_allocIn (pool : DynamicPool) (size : Nat) : Triple (allocIn S pool size) s
    (fun r s' => Beside s pool.allSlices s' r.2.allSlices) fun _ s' => Beside s pool.allSlices s' pool.allSlices := by
  cases pool with
  | sliced pool =>
    refine Triple.failIf_bind (fun _ => .refl s _) fun _ => ?_
    refine Triple.bind (beside_allocateMapping _ pool.allSlices) fun storage s' hs' => Triple.get_bind ?_
    refine Triple.ofRes_bind (fun ⟨_, _, _⟩ hr => Triple.set_bind (Triple.pure' ?_)) fun _ => hs'
    exact hs'.withHeap (SlicedPool.alloc_spares hr)
  | exclusive pool =>
    refine Triple.ofRes_bind (fun total _ => ?_) fun _ => .refl s _
    refine Triple.bind (beside_allocateMapping total pool.allSlices) fun storage s' hs' => Triple.get_bind ?_
    refine Triple.ofRes_bind (fun ⟨_, _, _⟩ hr => Triple.set_bind (Triple.pure' ?_)) fun _ => hs'
    exact hs'.withHeap (ExclusiveMemoryPool.alloc_spares hr)

-- Calls that stay quiet

/-- The state is in order, and nothing that is held has moved since `s₀`. -/
def Safe (al : Nat) (s₀ s : MemoryManagement σ) : Prop := OkFrom al 0 0 s ∧ Quiet s₀ s

theorem maintains_safe {m : Mem σ α} (hok : Maintains (OkFrom al 0 0) m)
    (hquiet : ∀ s, OkFrom al 0 0 s → Triple m s (fun _ s' => Quiet s s') fun _ s' => Quiet s s') :
    Maintains (Safe al s₀) m :=
  fun s ⟨hs, hq⟩ => ((hok s hs).and (hquiet s hs)).mono (fun _ _ h => ⟨h.1, hq.trans h.2⟩) fun _ _ h => ⟨h.1, hq.trans h.2⟩

theorem safe_tryReserveAt (index size : Nat) : Maintains (Safe al s₀) (tryReserveAt index size : Mem σ _) := by
  refine maintains_safe (maintains_tryReserveAt index size) fun s hs => poolAt_bind (fun pool hp => ?_) fun _ => .refl s
  have hok := hs.pools pool (List.mem_of_getElem? hp)
  refine Triple.bind ((beside_tryReserveIn hok size).mono (fun _ _ h => h) fun _ _ h => h.quiet) fun r s' h => ?_
  exact Triple.modify_bind (Triple.pure' (h.putPool hp))

theorem safe_allocAt (index size : Nat) : Maintains (Safe al s₀) (allocAt S index size) := by
  refine maintains_safe (maintains_allocAt index size) fun s hs => poolAt_bind (fun pool hp => ?_) fun _ => .refl s
  refine Triple.bind ((beside_allocIn pool size).mono (fun _ _ h => h) fun _ _ h => h.quiet) fun r s' h => ?_
  exact Triple.modify_bind (Triple.pure' (h.putPool hp))

theorem safe_onStorage {call : StorageCall} (hc : ¬call.Relocates) (f : σ → α × σ) :
    Maintains (Safe al s₀) (onStorage call f) :=
  maintains_safe (maintains_of_grows fun _ => grows_onStorage call f) fun _ _ =>
    (beside_onStorage hc f []).mono (fun _ _ h => h.quiet) fun _ _ h => h.quiet

theorem safe_deallocAll (freed : List StorageId) : Maintains (Safe al s₀) (deallocAll S freed) := by
  induction freed with
  | nil => exact .pure ()
  | cons id rest ih =>
    have hno : ¬(StorageCall.dealloc id).Relocates := fun h => h
    exact .bind (safe_onStorage hno _) fun _ => ih

theorem safe_reclaimDedicated : Maintains (Safe al s₀) (reclaimDedicated S) := by
  refine .read fun s hs => Triple.set_bind ?_
  have hreclaim : Safe al s { s with
      dedicated := (s.dedicated.reclaim s.heap).1, heap := (s.dedicated.reclaim s.heap).2.2.2 } :=
    ⟨hs.1.grow ⟨rfl, rfl, (DedicatedAllocations.reclaim_counter s.dedicated s.heap).ge⟩,
      ((Beside.refl s _).withHeap (DedicatedAllocations.reclaim_spares s.dedicated s.heap)).putDedicated⟩
  have hrest : Maintains (Safe al s) (do
      deallocAll S (s.dedicated.reclaim s.heap).2.1
      if (s.dedicated.reclaim s.heap).2.2.1 then flushStorage S else pure () : Mem σ Unit) :=
    .bind (safe_deallocAll _) fun _ => .ite (fun _ => safe_onStorage id _) fun _ => .pure ()
  exact (hrest _ hreclaim).mono (fun _ _ h => ⟨h.1, hs.2.trans h.2⟩) fun _ _ h => ⟨h.1, hs.2.trans h.2⟩

theorem safe_allocDedicated (size : Nat) : Maintains (Safe al s₀) (allocDedicated S size) := by
  refine maintains_safe (maintains_allocDedicated size) fun s _ => Triple.get_bind ?_
  refine Triple.ofRes_bind (fun total _ => ?_) fun _ => .refl s
  refine Triple.bind ((beside_allocateMapping total s.dedicated.slices).mono (fun _ _ h => h) fun _ _ h => h.quiet)
    fun storage s' hs' => Triple.get_bind ?_
  refine Triple.ofRes_bind (fun ⟨_, _, _⟩ hr => Triple.set_bind (Triple.pure' ?_)) fun _ => hs'.quiet
  exact (hs'.withHeap (hs'.dedicated ▸ DedicatedAllocations.alloc_spares hr)).putDedicated

theorem safe_allocPersistent (size : Nat) : Maintains (Safe al s₀) (allocPersistent S size) := by
  refine maintains_safe (maintains_allocPersistent size) fun s _ => Triple.get_bind ?_
  refine Triple.ofRes_bind (fun total _ => ?_) fun _ => .refl s
  refine Triple.bind ((beside_allocateMapping total s.persistent.slices).mono (fun _ _ h => h) fun _ _ h => h.quiet)
    fun storage s' hs' => Triple.get_bind ?_
  refine Triple.ofRes_bind (fun ⟨_, _, _⟩ hr => Triple.set_bind (Triple.pure' ?_)) fun _ => hs'.quiet
  exact (hs'.withHeap (hs'.persistent ▸ PersistentPool.alloc_spares hr)).putPersistent

theorem safe_reserveDedicated (size : Nat) : Maintains (Safe al s₀) (reserveDedicated S size) :=
  .bind .get fun _ => .bind .failIf fun _ => .bind
    (.bind .get fun _ => .ite (fun _ => safe_reclaimDedicated) fun _ => .pure ()) fun _ => safe_allocDedicated size

theorem safe_reserveIndexed (index size : Nat) : Maintains (Safe al s₀) (reserveIndexed S index size) := by
  refine .bind (safe_tryReserveAt _ _) fun found => ?_
  cases found with
  | some handle => exact .pure handle
  | none => exact safe_allocAt _ _

-- Nothing outdated

theorem relocate_idle (h : s.adaptive.outdated = []) : (relocate S .held).exec s = (.ok false, s) := by
  simp [relocate, relocateInner, attempt, cleanupTarget, M.exec_tryCatch, h]

theorem relievePressure_idle (h : s.adaptive.outdated = []) (pageSize : Nat) :
    (relievePressure S pageSize).exec s = (.ok false, s) := by
  simp [relievePressure, h]

section
variable (hidle : s₀.adaptive.outdated = [])
include hidle

theorem Safe.idle (h : Safe al s₀ s) : s.adaptive.outdated = [] := h.2.adaptive ▸ hidle

theorem safe_relocate : Maintains (Safe al s₀) (relocate S .held) :=
  fun _ hs => Triple.of_exec (relocate_idle (hs.idle hidle)) hs

theorem safe_reservePage (current size : Nat) : Maintains (Safe al s₀) (reservePage S current size) := by
  refine .bind (maintains_attempt (safe_allocAt _ _)) fun result => ?_
  cases result with
  | ok handle =>
    refine .bind (fun s hs => ?_) fun _ => .pure handle
    have hrelocate : Triple (relocate S .held) s (fun _ s' => Safe al s₀ s') fun _ _ => False :=
      Triple.of_exec (relocate_idle (hs.idle hidle)) hs
    exact Triple.onError hrelocate (fun _ _ => False.elim) fun _ _ => False.elim
  | error message =>
    refine .bind (safe_relocate hidle) fun reclaimed => .bind (safe_tryReserveAt _ _) fun found => ?_
    cases found with
    | some handle => exact .pure handle
    | none => exact .ite (fun _ => safe_allocAt _ _) fun _ => .fail _

theorem safe_reserveCurrent (current pageSize size : Nat) :
    Maintains (Safe al s₀) (reserveCurrent S current pageSize size) := by
  refine .bind (safe_tryReserveAt _ _) fun found => ?_
  cases found with
  | some handle => exact .pure handle
  | none =>
    have hrelieved : Maintains (Safe al s₀) (reserveRelieved S current pageSize size) :=
      .bind (fun s hs => Triple.of_exec (relievePressure_idle (hs.idle hidle) pageSize) hs) fun _ =>
        .ite (fun _ => safe_tryReserveAt _ _) fun _ => .pure none
    refine .bind hrelieved fun found => ?_
    cases found with
    | some handle => exact .pure handle
    | none => exact safe_reservePage hidle _ _

end

-- Room in the current pool

theorem tryReserveAt_some {pool : SlicedPool} {padding : Nat} (hs : OkFrom al 0 0 s)
    (hp : s.pools[index]? = some (.sliced pool)) (hpad : calculatePadding size pool.alignment = .ok padding)
    (hsize : size + padding ≤ u64Max) (hpos : size ≠ 0) (hroom : pool.canReserve size s.heap = .ok true) :
    Triple (tryReserveAt index size) s (fun found s' => found.isSome ∧ Safe al s s') fun _ s' => Safe al s s' := by
  have hok : PagesOk s.heap pool.alignment pool.pages := (hs.pools _ (List.mem_of_getElem? hp)).pages
  obtain ⟨handle, pool', heap', hr⟩ := ((SlicedPool.predicts_iff hok hpad hsize).mpr (.inl hpos)).mp hroom
  have hsafe := safe_tryReserveAt index size s (⟨hs, .refl s⟩ : Safe al s s)
  have hsome : Triple (tryReserveAt index size) s (fun found _ => found.isSome) fun _ _ => True := by
    refine poolAt_bind (fun p hp' => ?_) fun _ => trivial
    obtain rfl := Option.some.inj (hp.symm.trans hp')
    refine Triple.bind (Q := fun r _ => r.1.isSome) (Triple.get_bind (Triple.ofRes_bind (fun r hr' => ?_) fun _ => trivial))
      fun r s' h => Triple.modify_bind (Triple.pure' h)
    obtain rfl := Except.ok.inj (hr.symm.trans hr')
    exact Triple.set_bind (Triple.pure' rfl)
  exact (hsome.and hsafe).mono (fun _ _ h => h) fun _ _ h => h.2

theorem metadataPool_none {state : AdaptiveState} (h : state.metadataPool size = none) : size ≠ 0 := by
  rintro rfl
  simp [AdaptiveState.metadataPool] at h

theorem safe_reserveAdaptive (hs : OkFrom al 0 0 s) (hpending : s.adaptive.pending s.pools size s.heap = .ok false) :
    Triple (reserveAdaptive S size) s (fun _ s' => Safe al s s') fun _ s' => Safe al s s' := by
  have hself : Safe al s s := ⟨hs, .refl s⟩
  refine Triple.bind (Q := fun _ s' => s' = s) (Triple.get_bind (Triple.ite (fun _ => hself) fun _ => Triple.pure' rfl)) fun _ t ht => ?_
  obtain rfl : s = t := ht.symm
  refine Triple.get_bind (Triple.ofRes_bind (fun padding hpad => Triple.need_bind (fun _ => hself) fun needed hneeded => ?_) fun _ => hself)
  obtain ⟨hadd, hle⟩ := Option.filter_eq_some_iff.mp hneeded
  have hle : needed ≤ s.adaptive.maxPageSize := of_decide_eq_true hle
  cases hmeta : s.adaptive.metadataPool size with
  | some index => exact safe_reserveIndexed index size s hself
  | none =>
    refine slicedAt_bind (fun pool hp => ?_) fun _ => hself
    have halign : pool.alignment = s.adaptive.alignment := (hs.pools _ (List.mem_of_getElem? hp)).1
    rw [AdaptiveState.pending, hmeta, if_neg (by decide), hp] at hpending
    simp only [hpad, ok_bind, hadd, if_neg (Nat.not_lt.mpr hle)] at hpending
    split at hpending
    · cases hpending
    · next hfits =>
      refine Triple.ite (fun h => absurd h hfits) fun _ => ?_
      split at hpending
      · next hidle => exact safe_reserveCurrent (List.isEmpty_iff.mp hidle) _ _ _ s hself
      · obtain ⟨room, hroom, hno⟩ := bind_eq_ok.mp hpending
        have hroom : pool.canReserve size s.heap = .ok true := by
          rw [hroom, show room = true by simpa using Except.ok.inj hno]
        have hsize := (checkedAdd_eq_some.mp hadd).1
        have htry := tryReserveAt_some hs hp (halign ▸ hpad) hsize (metadataPool_none hmeta) hroom
        refine Triple.bind htry fun found s' h => ?_
        cases found with
        | some handle => exact Triple.pure' h.2
        | none => exact absurd h.1 (by decide)

-- Reserving

theorem safe_reservePersistent (hs : OkFrom al 0 0 s) (size : Nat) : Triple (reservePersistent size) s
    (fun found s' => Safe al s s' ∧ (found = none → s' = s)) fun _ s' => s' = s := by
  refine Triple.get_bind (Triple.ofRes_bind (fun ⟨found, persistent, heap⟩ hr => ?_) fun _ => rfl)
  obtain ⟨hspares, hnone⟩ := PersistentPool.tryReserve_spares hr
  refine Triple.set_bind (Triple.pure' ⟨⟨hs.grow ⟨rfl, rfl, hspares.counter⟩, ?_⟩, fun hn => ?_⟩)
  · exact ((Beside.refl s _).withHeap hspares).putPersistent
  · obtain ⟨rfl, rfl⟩ := hnone hn
    rfl

theorem safe_reserveDynamic (hs : OkFrom al 0 0 s) (hpending : s.adaptive.pending s.pools size s.heap = .ok false) :
    Triple (reserveDynamic S size) s (fun _ s' => Safe al s s') fun _ s' => Safe al s s' := by
  refine Triple.modify_bind ?_
  generalize ht : ({ s with allocReserveCount := wrap64 (s.allocReserveCount + 1) } : MemoryManagement σ) = t
  have hst : Quiet s t := by
    subst ht
    exact ⟨.refl s, rfl, fun _ => .refl _ _⟩
  have hok : OkFrom al 0 0 t := by
    subst ht
    exact hs.grow ⟨rfl, rfl, le_rfl⟩
  have hpending : t.adaptive.pending t.pools size t.heap = .ok false := by
    subst ht
    exact hpending
  refine (?_ : Triple _ t (fun _ s' => Safe al t s') fun _ s' => Safe al t s').mono (fun _ _ h => ⟨h.1, hst.trans h.2⟩)
    fun _ _ h => ⟨h.1, hst.trans h.2⟩
  have hself : Safe al t t := ⟨hok, .refl t⟩
  refine Triple.bind ((safe_reservePersistent hok size).mono (fun _ _ h => h) fun _ _ h => h ▸ hself) fun found s' h => ?_
  cases found with
  | some handle => exact Triple.pure' h.1
  | none =>
    obtain rfl := h.2 rfl
    refine Triple.get_bind (Triple.ofRes_bind (fun sized _ => Triple.ite (fun _ => ?_) fun _ => ?_) fun _ => hself)
    · exact safe_allocPersistent size s' hself
    · exact safe_reserveAdaptive hok hpending

/-- Whatever is reserved while relocation is not pending, no relocation call is made and
every held allocation keeps its slices: place, storage, offset and size. -/
theorem relocationPending_sound (h : Reachable S s) (hrecording : s.recording.isEmpty = true)
    (hpending : relocationPending s size = .ok false) :
    Unrelocated s ((reserve S size).next s) ∧ ∀ handle, s.heap.Live handle →
      ((reserve S size).next s).heap.Live handle ∧ ∀ place,
        slicesOf handle (((reserve S size).next s).slicesAt place) = slicesOf handle (s.slicesAt place) := by
  have hok := h.ok
  have hquiet : Quiet s ((reserve S size).next s) := by
    refine (Triple.next (P := fun s' => Safe s.adaptive.alignment s s') (Triple.get_bind ?_)).2
    refine Triple.ite (fun _ => safe_reserveDedicated size s ⟨hok, .refl s⟩) fun hmode => Triple.ite (fun _ => ?_) fun hne => ?_
    · rw [relocationPending, if_neg hmode, if_neg (by simp [hrecording])] at hpending
      exact safe_reserveDynamic hok hpending
    · exact absurd hrecording hne
  exact ⟨hquiet.calls, fun handle hl => ⟨(hquiet.spares .persistent).live hl, fun place => (hquiet.spares place).slices handle hl⟩⟩

/-- A storage that always has room and numbers what it hands out. -/
def counting : ComputeStorage Nat where
  supportsRelocation _ := true
  availableMemory _ := none
  newId next := (next, next + 1)
  alloc size next := (if size ≤ u64Max then some ⟨next, ⟨0, size⟩⟩ else none, next + 1)
  dealloc _ next := next
  flush next := next
  relocationBarrier next := (true, next)
  relocationCopyBatch _ next := (true, next)
  relocationComplete next := (true, next)
  alloc_fits size s handle h := by
    simp only [Option.ite_none_right_eq_some, Option.some.injEq] at h
    obtain ⟨hle, rfl⟩ := h
    show 0 + size ≤ u64Max
    omega

/-- Two pages are held, of which the first is outdated and stays: the room left in the
second serves the next request. -/
theorem relocationPending_sound_room : ∃ s, Reachable counting s ∧ s.adaptive.outdated = [2] ∧
    relocationPending s (mib / 2) = .ok false ∧ Unrelocated s ((reserve counting (mib / 2)).next s) ∧
    ∀ handle, s.heap.Live handle → ((reserve counting (mib / 2)).next s).heap.Live handle ∧ ∀ place,
      slicesOf handle (((reserve counting (mib / 2)).next s).slicesAt place) = slicesOf handle (s.slicesAt place) := by
  have hrun : ∃ s, fromConfiguration 0 .empty ⟨16 * mib, 256, by decide, by decide⟩ .enabled none = .ok s ∧
      let s := (Op.run counting (.reserve (4 * mib))).next ((Op.run counting (.reserve (2 * mib))).next s)
      s.recording.isEmpty = true ∧ s.adaptive.outdated = [2] ∧ relocationPending s (mib / 2) = .ok false :=
    ⟨_, rfl, by decide +kernel⟩
  obtain ⟨s, hnew, hrecording, houtdated, hpending⟩ := hrun
  have hreach := ((Reachable.new (S := counting) hnew).step (.reserve (2 * mib)) trivial).step (.reserve (4 * mib)) trivial
  exact ⟨_, hreach, houtdated, hpending, relocationPending_sound hreach hrecording hpending⟩

end Ruda.Memory
