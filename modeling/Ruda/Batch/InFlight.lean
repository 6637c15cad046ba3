import Ruda.Batch.Scheduler
import Ruda.Kv.Effects

/-!
# The batch in flight

What the scheduler does to the batch in flight, with nothing assumed about its
state: also after a panic was caught in the middle of a call. `Waits` is what all
of scheduling keeps until the batch is complete; a new batch has all its rows
reserved; and settling a batch either ends it or leaves its reservations as they
were.
-/

namespace Ruda.Batch

open Kv ContinuousBatchScheduler

variable {s s' s'' : ContinuousBatchScheduler} {k k' : PagedKvCacheManager} {α β : Type}

/-- No batch came or went, and batch ids only moved forward. -/
structure Waits (s s' : ContinuousBatchScheduler) : Prop where
  inFlight : s'.inFlight = s.inFlight
  nextBatch : s.nextBatch ≤ s'.nextBatch

@[refl] theorem Waits.refl (s : ContinuousBatchScheduler) : Waits s s := ⟨rfl, le_rfl⟩

theorem Waits.trans (h : Waits s s') (h' : Waits s' s'') : Waits s s'' :=
  ⟨h'.inFlight.trans h.inFlight, h.nextBatch.trans h'.nextBatch⟩

/-- However `m` ends, no batch came or went. -/
def Steady (m : BatchM α) (s : ContinuousBatchScheduler) : Prop :=
  Triple m s (fun _ s' => Waits s s') (fun _ s' => Waits s s')

namespace Steady

theorem bind {m : BatchM α} {f : α → BatchM β} (hm : Steady m s)
    (hf : ∀ a s', Waits s s' → Steady (f a) s') : Steady (m >>= f) s :=
  Triple.bind hm fun a s' h => (hf a s' h).mono (fun _ _ h' => h.trans h') fun _ _ h' => h.trans h'

theorem pure' {a : α} : Steady (pure a) s := .refl s

theorem after {m : BatchM α} (hm : Steady m s') (h : Waits s s') :
    Triple m s' (fun _ t => Waits s t) (fun _ t => Waits s t) :=
  hm.mono (fun _ _ h' => h.trans h') fun _ _ h' => h.trans h'

theorem kv' (m : KvM α) : Steady (kv m) s :=
  Triple.zoom (Triple.always (fun _ _ => ⟨rfl, le_rfl⟩) fun _ _ => ⟨rfl, le_rfl⟩)

theorem need_bind {opt : Option β} {message : String} {f : β → BatchM α}
    (hf : ∀ b, opt = some b → Steady (f b) s) : Steady (M.need opt message >>= f) s :=
  Triple.need_bind (fun _ => .refl s) hf

theorem expect_bind {opt : Option β} {message : String} {f : β → BatchM α}
    (hf : ∀ b, opt = some b → Steady (f b) s) : Steady (M.expect opt message >>= f) s :=
  Triple.expect_bind (fun _ => .refl s) hf

theorem ite {c : Prop} [Decidable c] {m n : BatchM α} (ht : c → Steady m s) (hf : ¬c → Steady n s) :
    Steady (if c then m else n) s :=
  Triple.ite ht hf

end Steady

-- Admission and candidates

theorem promote_steady (chain : ChainHash) (rounds available : Nat) :
    Steady (promote chain rounds available) s := by
  induction rounds generalizing s available with
  | zero => exact .pure'
  | succ rounds ih =>
    unfold promote
    refine Triple.get_bind (Steady.ite (fun _ => ?_) fun _ => .pure')
    cases s.pending.find? s.admissible with
    | none => exact .pure'
    | some request =>
      refine Steady.ite (fun _ => .pure') fun _ => Triple.set_bind ?_
      refine Steady.after (s := s) (Steady.bind (.kv' _) fun _ s₁ _ => ?_) ⟨rfl, le_rfl⟩
      exact Triple.modify_bind ((ih _).after ⟨rfl, le_rfl⟩)

theorem promotePending_steady (chain : ChainHash) : Steady (promotePending chain) s :=
  Triple.get_bind (Steady.need_bind fun _ _ => promote_steady chain _ _)

theorem collect_steady {κ : Type} {select : RequestId → ActiveRequest → BatchM (Option κ)}
    (hselect : ∀ id r s, Steady (select id r) s) (entries : List (RequestId × ActiveRequest)) :
    Steady (collect select entries) s := by
  induction entries generalizing s with
  | nil => exact .pure'
  | cons entry rest ih =>
    refine Steady.bind (hselect _ _ s) fun _ _ _ => ?_
    exact Steady.bind ih fun _ _ _ => .pure'

theorem verifyCandidate_steady (config : SpeculativeConfig) (width : Nat) (id : RequestId)
    (r : ActiveRequest) (s : ContinuousBatchScheduler) : Steady (verifyCandidate config width id r) s := by
  unfold verifyCandidate
  cases r.phase with
  | awaitingDecode token =>
    exact Steady.ite (fun _ => .pure') fun _ => Steady.bind (.kv' _) fun _ _ _ => .pure'
  | _ => exact .pure'

theorem decodeCandidate_steady (id : RequestId) (r : ActiveRequest) (s : ContinuousBatchScheduler) :
    Steady (decodeCandidate id r) s := by
  unfold decodeCandidate
  cases r.phase <;> exact .pure'

theorem prefillChunk_steady (id : RequestId) (r : ActiveRequest) (s : ContinuousBatchScheduler) :
    Steady (prefillChunk id r) s :=
  Steady.bind (.kv' _) fun _ _ _ => Triple.get_bind Steady.pure'

theorem prefillCandidate_steady (id : RequestId) (r : ActiveRequest) (s : ContinuousBatchScheduler) :
    Steady (prefillCandidate id r) s := by
  refine Steady.bind (prefillChunk_steady id r s) fun _ s₁ _ => ?_
  refine Triple.get_bind (Steady.ite (fun _ => ?_) fun _ => .pure')
  exact Steady.bind (.kv' _) fun _ _ _ => .pure'

theorem pageHolder_steady (id : RequestId) (r : ActiveRequest) (s : ContinuousBatchScheduler) :
    Steady (pageHolder id r) s := by
  unfold pageHolder
  cases r.phase with
  | inFlight => exact .pure'
  | _ => exact Steady.bind (.kv' _) fun _ _ _ => .pure'

theorem rollbackScheduledRows_steady (rows : List ScheduledSequence) :
    Steady (rollbackScheduledRows rows) s := .kv' _

-- Reserving the rows

/-- The append of `row` is pending, on the block table given to the device. -/
structure Reserved (k : PagedKvCacheManager) (row : ScheduledSequence) : Prop where
  reservation : ∃ r, k.reservations[row.reservationId]? = some r ∧ r.requestId = row.requestId
  table : ∃ q, k.sequences[row.requestId]? = some q ∧ q.pending = some row.reservationId ∧
    q.pages = row.blockTable

/-- Rows reserved under ids already given out. -/
def AllReserved (k : PagedKvCacheManager) (rows : List ScheduledSequence) : Prop :=
  ∀ row ∈ rows, Reserved k row ∧ row.reservationId < k.nextReservation

/-- One more reservation does not touch the rows before it: theirs are pending, so
it is on another sequence, and its id is new. -/
theorem beginAppend_reserves {id : RequestId} {n : Nat} {rows : List ScheduledSequence}
    (h : AllReserved k rows) (tokens : List Token) :
    Triple (PagedKvCacheManager.beginAppend id n) k
      (fun res k' => AllReserved k' (rows ++ [scheduledSequence res tokens])) (fun _ _ => True) := by
  refine beginAppend_rule (fun _ _ => trivial) fun q hq => ?_
  refine (allocatePages_tables _ _).mono ?_ fun _ _ _ => trivial
  rintro ps k₁ ⟨-, hs⟩
  have hnext : k₁.nextReservation = k.nextReservation + 1 := hs.nextReservation
  intro row hrow
  simp only [List.mem_append, List.mem_singleton] at hrow
  rcases hrow with hrow | rfl
  · obtain ⟨⟨⟨r, hr, hid⟩, q', hq', hpend, hpages⟩, hlt⟩ := h row hrow
    have hne : row.requestId ≠ id := by
      intro heq
      rw [heq, hq.found, Option.some.injEq] at hq'
      rw [← hq', hq.idle] at hpend
      cases hpend
    refine ⟨⟨⟨r, ?_, hid⟩, q', ?_, hpend, hpages⟩, ?_⟩
    · simp only [reserve, BTreeMap.get_insert, hs.reservations, if_neg hlt.ne]
      exact hr
    · rw [reserve_get, if_neg hne, hs.sequences]
      exact hq'
    · show row.reservationId < k₁.nextReservation
      rw [hnext]
      exact Nat.lt_succ_of_lt hlt
  · refine ⟨⟨⟨begun id q n, ?_, rfl⟩, grown q ps k.nextReservation, ?_, rfl, rfl⟩, ?_⟩
    · simp [reserve, scheduledSequence, receipt]
    · rw [reserve_get]
      exact if_pos rfl
    · show k.nextReservation < k₁.nextReservation
      rw [hnext]
      exact Nat.lt_succ_self _

/-- Building the input of a row only reads. -/
def ReadsOnly (m : BatchM α) : Prop :=
  ∀ s, Triple m s (fun _ s' => s' = s) (fun _ s' => s' = s)

theorem reserveRows_reserves {κ : Type} {limit width : Nat} {undo : List ScheduledSequence → BatchM Unit}
    {tokensOf : RequestId → κ → BatchM (List Token)} (hundo : ∀ rows s, Steady (undo rows) s)
    (htokens : ∀ id c, ReadsOnly (tokensOf id c)) (candidates : List (RequestId × κ))
    {rows : List ScheduledSequence} (h : AllReserved s.kvCache rows) :
    Triple (reserveRows limit width undo tokensOf candidates rows) s
      (fun rows' s' => Waits s s' ∧ AllReserved s'.kvCache rows') (fun _ s' => Waits s s') := by
  induction candidates generalizing s rows with
  | nil => exact Triple.pure' ⟨.refl s, h⟩
  | cons candidate rest ih =>
    obtain ⟨id, c⟩ := candidate
    unfold reserveRows
    refine Triple.ite (fun _ => Triple.pure' ⟨.refl s, h⟩) fun _ => ?_
    have hcan : Triple (kv (PagedKvCacheManager.canAppend id width)) s (fun _ s' => s' = s)
        (fun _ s' => Waits s s') :=
      Triple.zoom (canAppend_rule (fun _ _ => .refl s) (fun _ _ => rfl) fun _ => rfl)
    refine Triple.bind hcan ?_
    rintro fits _ rfl
    refine Triple.ite (fun _ => ?_) fun _ => ih h
    refine Triple.bind ((htokens id c _).mono (fun _ _ h => h) ?_) ?_
    · rintro _ _ rfl
      exact .refl _
    rintro tokens s₁ rfl
    have hbegin : Triple (kv (PagedKvCacheManager.beginAppend id width)) s₁
        (fun res s' => Waits s₁ s' ∧ AllReserved s'.kvCache (rows ++ [scheduledSequence res tokens]))
        (fun _ s' => Waits s₁ s') :=
      Triple.zoom ((beginAppend_reserves h tokens).mono (fun _ _ hr => ⟨⟨rfl, le_rfl⟩, hr⟩)
        fun _ _ _ => ⟨rfl, le_rfl⟩)
    refine Triple.bind (Triple.onError hbegin (fun _ s' hw => (hundo rows s').after hw) fun _ _ hw => hw) ?_
    rintro res s₂ ⟨hw, hr⟩
    refine (ih hr).mono ?_ fun _ _ hw' => hw.trans hw'
    rintro rows' s₃ ⟨hw', hr'⟩
    exact ⟨hw.trans hw', hr'⟩

theorem verifyTokens_readsOnly (config : SpeculativeConfig) (candidate : Token × List Token) :
    ReadsOnly (verifyTokens config candidate) := fun _ =>
  Triple.expect_bind (fun _ => rfl) fun _ _ => Triple.pure' rfl

theorem prefillTokens_readsOnly (nextN : Nat) (id : RequestId) : ReadsOnly (prefillTokens nextN id) := by
  intro s
  refine Triple.get_bind (Triple.expect_bind (fun _ => rfl) fun r _ => ?_)
  have hchunk : Triple (prefillChunk id r) s (fun _ s' => s' = s) (fun _ s' => s' = s) := by
    refine Triple.bind (Q := fun _ s' => s' = s) (Triple.zoom ?_) ?_
    · refine Triple.get_bind (sequence_bind (fun _ => rfl) fun _ _ => Triple.pure' rfl)
    · rintro _ _ rfl
      exact Triple.get_bind (Triple.pure' rfl)
  refine Triple.bind hchunk ?_
  rintro _ _ rfl
  refine Triple.ite (fun _ => Triple.panic' rfl) fun _ => ?_
  exact Triple.ite (fun _ => Triple.panic' rfl) fun _ => Triple.pure' rfl

-- A new batch

/-- `batch` was put together from `s`: its id is new and its rows are reserved. -/
structure Planned (s : ContinuousBatchScheduler) (batch : ScheduledBatch) (s' : ContinuousBatchScheduler) :
    Prop where
  fresh : s.nextBatch ≤ batch.id
  used : batch.id < s'.nextBatch
  rows : ∀ row ∈ batch.sequences, Reserved s'.kvCache row

/-- `m` puts at most one batch together and nothing in flight. -/
def Plans (m : BatchM (Option ScheduledBatch)) (s : ContinuousBatchScheduler) : Prop :=
  Triple m s (fun o s' => Waits s s' ∧ ∀ batch, o = some batch → Planned s batch s')
    (fun _ s' => Waits s s')

theorem Planned.after {batch : ScheduledBatch} (h : Waits s s') (hp : Planned s' batch s'') :
    Planned s batch s'' :=
  ⟨h.nextBatch.trans hp.fresh, hp.used, hp.rows⟩

theorem Plans.after {m : BatchM (Option ScheduledBatch)} (hm : Plans m s') (h : Waits s s') :
    Triple m s' (fun o t => Waits s t ∧ ∀ batch, o = some batch → Planned s batch t)
      (fun _ t => Waits s t) := by
  refine hm.mono ?_ fun _ _ h' => h.trans h'
  rintro o t ⟨hw, hp⟩
  exact ⟨h.trans hw, fun batch hb => (hp batch hb).after h⟩

theorem Plans.none : Plans (pure none) s := ⟨.refl s, nofun⟩

theorem Plans.bind {m : BatchM α} {f : α → BatchM (Option ScheduledBatch)} (hm : Steady m s)
    (hf : ∀ a s', Waits s s' → Plans (f a) s') : Plans (m >>= f) s :=
  Triple.bind hm fun a s' h => (hf a s' h).after h

theorem setPhase_keeps {id : RequestId} {phase : RequestPhase} :
    Triple (setPhase id phase) s (fun _ s' => Waits s s' ∧ s'.kvCache = s.kvCache ∧ s'.nextBatch = s.nextBatch)
      (fun _ s' => Waits s s') :=
  Triple.get_bind (Triple.need_bind (fun _ => .refl s) fun _ _ => Triple.set' ⟨⟨rfl, le_rfl⟩, rfl, rfl⟩)

theorem finishSchedule_plans {kind : ScheduledBatchKind} {rows : List ScheduledSequence}
    (h : AllReserved s.kvCache rows) : Plans (finishSchedule kind rows) s := by
  unfold finishSchedule
  refine Triple.ite (fun _ => Plans.none) fun _ => Triple.get_bind ?_
  split
  · exact Triple.bind (rollbackScheduledRows_steady rows) fun _ _ hw => Triple.fail' hw
  · next next hnext =>
    obtain ⟨-, rfl⟩ := checkedAdd_eq_some.mp hnext
    refine Triple.ite (fun _ => ?_) fun _ => Triple.set_bind ?_
    · exact Triple.bind (rollbackScheduledRows_steady rows) fun _ _ hw => Triple.fail' hw
    refine Triple.bind (Q := fun _ s' => Waits s s' ∧ s'.kvCache = s.kvCache ∧
      s'.nextBatch = s.nextBatch + 1) (Triple.forM (I := fun _ s' => Waits s s' ∧
      s'.kvCache = s.kvCache ∧ s'.nextBatch = s.nextBatch + 1) ⟨⟨rfl, Nat.le_succ _⟩, rfl, rfl⟩ ?_) ?_
    · rintro row _ s₁ ⟨hw, hk, hn⟩
      refine setPhase_keeps.mono ?_ fun _ _ hw' => hw.trans hw'
      rintro _ s₂ ⟨hw', hk', hn'⟩
      exact ⟨hw.trans hw', hk'.trans hk, hn'.trans hn⟩
    · rintro _ s₁ ⟨hw, hk, hn⟩
      refine Triple.pure' ⟨hw, ?_⟩
      rintro _ ⟨⟩
      refine ⟨le_rfl, by rw [hn]; exact Nat.lt_succ_self _, fun row hrow => ?_⟩
      rw [hk]
      exact (h row hrow).1

theorem reserve_finish_plans {κ : Type} {limit width : Nat} {undo : List ScheduledSequence → BatchM Unit}
    {tokensOf : RequestId → κ → BatchM (List Token)} {kind : ScheduledBatchKind}
    (hundo : ∀ rows s, Steady (undo rows) s) (htokens : ∀ id c, ReadsOnly (tokensOf id c))
    (candidates : List (RequestId × κ)) :
    Plans (reserveRows limit width undo tokensOf candidates [] >>= finishSchedule kind) s := by
  refine Triple.bind (reserveRows_reserves hundo htokens candidates (by simp [AllReserved])) ?_
  rintro rows s₁ ⟨hw, hr⟩
  exact (finishSchedule_plans hr).after hw

theorem scheduleVerify_plans : Plans scheduleVerify s := by
  refine Triple.get_bind ?_
  cases s.speculative with
  | none => exact Plans.none
  | some config =>
    refine Triple.ite (fun _ => Triple.panic' (.refl s)) fun _ => ?_
    refine Triple.ite (fun _ => Plans.none) fun _ => ?_
    refine Plans.bind (collect_steady (verifyCandidate_steady config _) _) fun _ _ _ => ?_
    exact reserve_finish_plans (fun _ _ => .pure') (fun _ c => verifyTokens_readsOnly config c) _

theorem scheduleDecode_plans : Plans scheduleDecode s := by
  refine Triple.get_bind ?_
  refine Plans.bind (collect_steady decodeCandidate_steady _) fun _ _ _ => ?_
  exact reserve_finish_plans (fun rows _ => rollbackScheduledRows_steady rows)
    (fun _ _ _ => Triple.pure' rfl) _

theorem schedulePrefill_plans : Plans schedulePrefill s := by
  refine Triple.get_bind ?_
  refine Plans.bind (collect_steady prefillCandidate_steady _) fun _ _ _ => ?_
  dsimp only
  split
  · exact .none
  · exact reserve_finish_plans (fun rows _ => rollbackScheduledRows_steady rows)
      (fun id _ => prefillTokens_readsOnly _ id) _

theorem takeTurn_plans {m next : BatchM (Option ScheduledBatch)} {preferPrefill : Bool}
    (hm : Plans m s) (hnext : ∀ s', Plans next s') : Plans (takeTurn m preferPrefill next) s := by
  refine Triple.bind hm ?_
  rintro o s₁ ⟨hw, hp⟩
  cases o with
  | none => exact (hnext s₁).after hw
  | some batch =>
    refine Triple.modify_bind (Triple.pure' ⟨hw.trans ⟨rfl, le_rfl⟩, ?_⟩)
    rintro _ ⟨⟩
    have hb := hp batch rfl
    exact ⟨hb.fresh, hb.used, hb.rows⟩

theorem onlyIf_plans {flag : Bool} {m : BatchM (Option ScheduledBatch)} (hm : Plans m s) :
    Plans (onlyIf flag m) s := by
  cases flag with
  | true => exact hm
  | false => exact .none

theorem trySchedule_plans : Plans trySchedule s := by
  refine Triple.get_bind (takeTurn_plans (onlyIf_plans schedulePrefill_plans) fun s₁ => ?_)
  refine Plans.bind (m := modify _) (Triple.modify' ⟨rfl, le_rfl⟩) fun _ s₂ _ => Triple.get_bind ?_
  refine takeTurn_plans (onlyIf_plans scheduleVerify_plans) fun _ => ?_
  refine takeTurn_plans scheduleDecode_plans fun _ => ?_
  exact takeTurn_plans schedulePrefill_plans fun _ => .none

theorem preemptNewest_steady : Steady preemptNewest s := by
  refine Triple.get_bind (Steady.bind (collect_steady pageHolder_steady _) fun holders s₁ _ => ?_)
  refine Steady.ite (fun _ => .pure') fun _ => Steady.expect_bind fun victim _ => ?_
  refine Steady.bind (.kv' _) fun _ s₂ _ => Steady.bind (.kv' _) fun _ s₃ _ => ?_
  refine Triple.get_bind (Steady.expect_bind fun _ _ => ?_)
  exact Triple.set_bind (Triple.pure' ⟨rfl, le_rfl⟩)

/-- What `schedule` returned: nothing new, or a new batch in flight. -/
def Scheduled (s : ContinuousBatchScheduler) (o : Option ScheduledBatch) (s' : ContinuousBatchScheduler) :
    Prop :=
  match o with
  | none => Waits s s'
  | some batch => s'.inFlight = some batch ∧ Planned s batch s'

theorem Scheduled.after {o : Option ScheduledBatch} (h : Waits s s') (ho : Scheduled s' o s'') :
    Scheduled s o s'' := by
  cases o with
  | none => exact h.trans ho
  | some batch => exact ⟨ho.1, ho.2.after h⟩

theorem scheduleLoop_schedules (rounds : Nat) :
    Triple (scheduleLoop rounds) s (fun o s' => Scheduled s o s') (fun _ s' => Waits s s') := by
  induction rounds generalizing s with
  | zero => exact Triple.panic' (.refl s)
  | succ rounds ih =>
    refine Triple.bind trySchedule_plans ?_
    rintro o s₁ ⟨hw, hp⟩
    cases o with
    | some batch =>
      have hb := hp batch rfl
      exact Triple.modify_bind (Triple.pure' ⟨rfl, hb.fresh, hb.used, hb.rows⟩)
    | none =>
      refine Triple.get_bind (Triple.ite (fun _ => ?_) fun _ => Triple.pure' hw)
      refine Triple.bind (preemptNewest_steady.after hw) fun again s₂ hw₂ => ?_
      refine Triple.ite (fun _ => ?_) fun _ => Triple.pure' hw₂
      exact ih.mono (fun _ _ ho => ho.after hw₂) fun _ _ hw' => hw₂.trans hw'

theorem schedule_schedules {chain : ChainHash} (hnone : s.inFlight = none) :
    Triple (schedule chain) s (fun o s' => Scheduled s o s') (fun _ s' => Waits s s') := by
  refine Triple.get_bind ?_
  rw [hnone]
  refine Triple.failIf_bind (fun _ => .refl s) fun _ => ?_
  refine Triple.bind (promotePending_steady chain) fun _ s₁ hw => Triple.get_bind ?_
  exact (scheduleLoop_schedules _).mono (fun _ _ ho => ho.after hw) fun _ _ hw' => hw.trans hw'

theorem schedule_busy {chain : ChainHash} {batch : ScheduledBatch} (h : s.inFlight = some batch) :
    Triple (schedule chain) s (fun _ _ => False) (fun _ s' => s' = s) := by
  refine Triple.get_bind ?_
  rw [h]
  exact Triple.fail' rfl

-- Settling a batch

/-- No batch is in flight any more. -/
structure Ended (s s' : ContinuousBatchScheduler) : Prop where
  inFlight : s'.inFlight = none
  nextBatch : s.nextBatch ≤ s'.nextBatch

/-- The batch in flight is gone, or still there with all its reservations. -/
structure Concludes (s s' : ContinuousBatchScheduler) : Prop where
  inFlight : s'.inFlight = none ∨ s'.inFlight = s.inFlight ∧ s'.kvCache = s.kvCache
  nextBatch : s.nextBatch ≤ s'.nextBatch

theorem Ended.concludes (h : Ended s s') : Concludes s s' := ⟨.inl h.inFlight, h.nextBatch⟩

theorem Concludes.refl (s : ContinuousBatchScheduler) : Concludes s s := ⟨.inr ⟨rfl, rfl⟩, le_rfl⟩

theorem Steady.ended {m : BatchM α} (hm : Steady m s') (h : Ended s s') :
    Triple m s' (fun _ t => Ended s t) (fun _ t => Concludes s t) :=
  hm.mono (fun _ _ hw => ⟨hw.inFlight.trans h.inFlight, h.nextBatch.trans hw.nextBatch⟩)
    fun _ _ hw => Ended.concludes ⟨hw.inFlight.trans h.inFlight, h.nextBatch.trans hw.nextBatch⟩

theorem takeBatch_bind {batchId : Nat} {f : ScheduledBatch → BatchM α}
    (hf : ∀ batch, s.inFlight = some batch → Triple (f batch) { s with inFlight := none }
      (fun _ t => Ended s t) (fun _ t => Concludes s t)) :
    Triple (takeBatch batchId >>= f) s (fun _ t => Ended s t) (fun _ t => Concludes s t) := by
  refine Triple.bind (Q := fun batch t => s.inFlight = some batch ∧ t = { s with inFlight := none }) ?_ ?_
  · refine Triple.get_bind (Triple.need_bind (fun _ => .refl s) fun batch hb => ?_)
    refine Triple.failIf_bind (fun _ => .refl s) fun _ => ?_
    exact Triple.set_bind (Triple.pure' ⟨hb, rfl⟩)
  · rintro batch _ ⟨hb, rfl⟩
    exact hf batch hb

theorem restore_fails {batch : ScheduledBatch} {message : String} (h : s.inFlight = some batch) :
    Triple (do restore batch; M.fail message : BatchM α) { s with inFlight := none }
      (fun _ t => Ended s t) (fun _ t => Concludes s t) :=
  Triple.modify_bind (Triple.fail' ⟨.inr ⟨h.symm, rfl⟩, le_rfl⟩)

/-- A KV call that fails only before it changes anything. -/
def Atomic (m : KvM α) : Prop :=
  ∀ k, Triple m k (fun _ _ => True) (fun f k' => f.IsPanic ∨ k' = k)

theorem kv_restore {m : KvM α} {batch : ScheduledBatch} (hm : Atomic m) (h : s.inFlight = some batch) :
    Triple ((kv m).onError (restore batch)) { s with inFlight := none }
      (fun _ t => Ended s t) (fun _ t => Concludes s t) := by
  have hkv : Triple (kv m) { s with inFlight := none } (fun _ t => Ended s t)
      (fun f t => Ended s t ∧ (f.IsPanic ∨ t.kvCache = s.kvCache)) :=
    Triple.zoom ((hm _).mono (fun _ _ _ => ⟨rfl, le_rfl⟩) fun _ _ hf => ⟨⟨rfl, le_rfl⟩, hf⟩)
  refine Triple.onError hkv ?_ ?_
  · rintro message t ⟨hend, hk | hk⟩
    · exact hk.elim
    · exact Triple.modify' ⟨.inr ⟨h.symm, hk⟩, hend.nextBatch⟩
  · rintro message t ⟨hend, -⟩
    exact hend.concludes

theorem commitRow_panics (rid : KvReservationId) (count : Nat) :
    Triple (PagedKvCacheManager.commitRow rid count) k (fun _ _ => True) (fun f _ => f.IsPanic) := by
  refine Triple.get_bind (Triple.expect_bind (fun _ => trivial) fun r _ => ?_)
  refine Triple.expect_bind (fun _ => trivial) fun q _ => ?_
  refine Triple.bind (Q := fun _ _ => True) ?_ fun _ _ _ => Triple.set_bind ?_
  · exact Triple.ite (fun _ => Triple.pure' trivial) fun _ => Triple.panic' trivial
  · exact Triple.bind (releasePages_tables _ _ |>.mono (fun _ _ _ => trivial) fun _ _ hf => hf.1)
      fun _ _ _ => Triple.pure' trivial

theorem commitRows_panics (rows : List (KvReservationId × Nat)) :
    Triple (PagedKvCacheManager.commitRows rows) k (fun _ _ => True) (fun f _ => f.IsPanic) := by
  induction rows generalizing k with
  | nil => exact Triple.pure' trivial
  | cons row rows ih =>
    exact Triple.bind (commitRow_panics _ _) fun _ _ _ => Triple.bind ih fun _ _ _ => Triple.pure' trivial

theorem commitAppendPrefixes_atomic (rows : List (KvReservationId × Nat)) :
    Atomic (PagedKvCacheManager.commitAppendPrefixes rows) := fun _ =>
  commitAppendPrefixes_rule (fun _ => .inr rfl) fun _ =>
    (commitRows_panics rows).mono (fun _ _ h => h) fun _ _ hf => .inl hf

theorem expectOk_panics (message : String) (m : KvM α) :
    Triple (PagedKvCacheManager.expectOk message m) k (fun _ _ => True) (fun f _ => f.IsPanic) := by
  have hany : Triple m k (fun _ _ => True) (fun _ _ => True) :=
    Triple.always (fun _ _ => trivial) fun _ _ => trivial
  refine Triple.catch' hany ?_
  intro f k' _
  cases f <;> exact Triple.panic' trivial

theorem cancelAppends_atomic (ids : List KvReservationId) :
    Atomic (PagedKvCacheManager.cancelAppends ids) := by
  intro k
  refine Triple.bind (Q := fun _ _ => True)
    (validateReservationsFrom_rule (fun _ => .inr rfl) fun _ _ _ => trivial) fun _ k₁ _ => ?_
  refine (Triple.forM (I := fun _ _ => True) (E := fun f _ => f.IsPanic) trivial ?_).mono
    (fun _ _ h => h) fun _ _ hf => .inl hf
  exact fun _ _ _ _ => expectOk_panics _ _

theorem forM_steady {f : β → BatchM PUnit} (hf : ∀ b s, Steady (f b) s) (l : List β) :
    Steady (l.forM f) s :=
  Triple.forM (I := fun _ t => Waits s t) (.refl s) fun b _ t hw => (hf b t).after hw

theorem registerRow_steady {chain : ChainHash} (row : ScheduledSequence) (s : ContinuousBatchScheduler) :
    Steady (registerRow chain row) s :=
  Triple.get_bind (Steady.expect_bind fun _ _ => .kv' _)

theorem completeRow_steady (row : ScheduledSequence) (token : Token) (s : ContinuousBatchScheduler) :
    Steady (completeRow row token) s := by
  refine Triple.get_bind (Steady.expect_bind fun r _ => ?_)
  refine Steady.ite (fun _ => Triple.set' ⟨rfl, le_rfl⟩) fun _ => ?_
  refine Steady.ite (fun _ => Triple.modify_bind ?_) fun _ => Triple.modify' ⟨rfl, le_rfl⟩
  refine Steady.after (s := s) (Steady.bind (.kv' _) fun _ _ _ => ?_) ⟨rfl, le_rfl⟩
  exact Triple.modify' ⟨rfl, le_rfl⟩

theorem undoRow_steady (kind : ScheduledBatchKind) (row : ScheduledSequence) (s : ContinuousBatchScheduler) :
    Steady (undoRow kind row) s := by
  have hread : Triple (phaseBefore kind row) s (fun _ t => t = s) (fun _ t => Waits s t) := by
    cases kind with
    | prefill => exact Triple.pure' rfl
    | _ => exact Triple.expect_bind (fun _ => .refl s) fun _ _ => Triple.pure' rfl
  refine Triple.get_bind (Steady.expect_bind fun r _ => ?_)
  refine Triple.bind hread ?_
  rintro phase _ rfl
  exact Triple.set' ⟨rfl, le_rfl⟩

theorem completeBatch_concludes {chain : ChainHash} (batchId : Nat) (tokens : List Token) :
    Triple (completeBatch chain batchId tokens) s (fun _ t => Ended s t) (fun _ t => Concludes s t) := by
  refine takeBatch_bind fun batch hb => ?_
  dsimp only
  refine Triple.ite (fun _ => restore_fails hb) fun _ => Triple.get_bind ?_
  refine Triple.ite (fun _ => restore_fails hb) fun _ => ?_
  split
  · exact restore_fails hb
  · refine Triple.bind (kv_restore (commitAppendPrefixes_atomic _) hb) fun _ t ht => ?_
    refine Steady.ended (Steady.bind (forM_steady registerRow_steady _) fun _ t' _ => ?_) ht
    exact forM_steady (f := fun e : ScheduledSequence × Token => completeRow e.1 e.2)
      (fun e => completeRow_steady e.1 e.2) _

theorem failBatch_concludes (batchId : Nat) :
    Triple (failBatch batchId) s (fun _ t => Ended s t) (fun _ t => Concludes s t) := by
  refine takeBatch_bind fun batch hb => Triple.get_bind ?_
  refine Triple.ite (fun _ => restore_fails hb) fun _ => ?_
  refine Triple.bind (kv_restore (cancelAppends_atomic _) hb) fun _ t ht => ?_
  exact (forM_steady (undoRow_steady batch.kind) _).ended ht

-- Other calls while a batch is in flight

/-- Nothing of `batch` was committed or released, and no block table gained a page. -/
structure Held (batch : ScheduledBatch) (s s' : ContinuousBatchScheduler) : Prop where
  inFlight : s'.inFlight = some batch
  reservations : s'.kvCache.reservations = s.kvCache.reservations
  rows : ∀ row ∈ batch.sequences,
    s'.kvCache.sequences[row.requestId]? = s.kvCache.sequences[row.requestId]?
  tables : ∀ (id : Nat) q, s'.kvCache.sequences[id]? = some q → s.kvCache.sequences[id]? = some q

theorem Held.of_same {batch : ScheduledBatch} (h : s.inFlight = some batch)
    (hf : s'.inFlight = s.inFlight) (hk : s'.kvCache = s.kvCache) : Held batch s s' where
  inFlight := hf.trans h
  reservations := by rw [hk]
  rows := fun _ _ => by rw [hk]
  tables := fun _ _ hq => by rwa [hk] at hq

theorem Held.reserved {batch : ScheduledBatch} {row : ScheduledSequence} (h : Held batch s s')
    (hrow : row ∈ batch.sequences) (hr : Reserved s.kvCache row) : Reserved s'.kvCache row := by
  constructor
  · rw [h.reservations]
    exact hr.reservation
  · rw [h.rows row hrow]
    exact hr.table

/-- At most sequences without a pending append are gone. -/
structure Spares (k k' : PagedKvCacheManager) : Prop where
  reservations : k'.reservations = k.reservations
  pending : ∀ (id : Nat) q, k.sequences[id]? = some q → q.pending ≠ none → k'.sequences[id]? = some q
  tables : ∀ (id : Nat) q, k'.sequences[id]? = some q → k.sequences[id]? = some q

theorem Spares.refl (k : PagedKvCacheManager) : Spares k k := ⟨rfl, fun _ _ h _ => h, fun _ _ h => h⟩

theorem Spares.erase {id : RequestId} {q : SequenceState} (hq : k.sequences[id]? = some q)
    (hidle : q.pending = none) (h : SameTables { k with sequences := k.sequences.erase id } k') :
    Spares k k' := by
  refine ⟨h.reservations, fun j q' hq' hpend => ?_, fun j q' hq' => ?_⟩
  · rw [h.sequences, BTreeMap.get_erase, if_neg ?_]
    · exact hq'
    · rintro rfl
      rw [hq, Option.some.injEq] at hq'
      exact hpend (hq' ▸ hidle)
  · rw [h.sequences, BTreeMap.get_erase] at hq'
    split at hq'
    · cases hq'
    · exact hq'

theorem removeSequence_spares (id : RequestId) :
    Triple (PagedKvCacheManager.removeSequence id) k (fun _ k' => Spares k k')
      (fun _ k' => Spares k k') := by
  refine removeSequence_rule (fun _ _ => .refl k) fun q hq hidle => ?_
  exact (releasePages_tables _ _).mono (fun _ _ h => .erase hq hidle h) fun _ _ h => .erase hq hidle h.2

theorem Spares.held {batch : ScheduledBatch} (hb : s.inFlight = some batch) (hf : s'.inFlight = s.inFlight)
    (hrows : ∀ row ∈ batch.sequences, Reserved s.kvCache row) (h : Spares s.kvCache s'.kvCache) :
    Held batch s s' where
  inFlight := hf.trans hb
  reservations := h.reservations
  rows := fun row hrow => by
    obtain ⟨q, hq, hpend, -⟩ := (hrows row hrow).table
    rw [hq]
    exact h.pending _ q hq (by simp [hpend])
  tables := h.tables

theorem cancel_spares (id : RequestId) :
    Triple (cancel id) s (fun _ t => t.inFlight = s.inFlight ∧ t.nextBatch = s.nextBatch ∧
      Spares s.kvCache t.kvCache) (fun _ t => t.inFlight = s.inFlight ∧ t.nextBatch = s.nextBatch ∧
      Spares s.kvCache t.kvCache) := by
  refine Triple.get_bind ?_
  split
  · exact Triple.set_bind (Triple.pure' ⟨rfl, rfl, .refl _⟩)
  · split
    · exact Triple.pure' ⟨rfl, rfl, .refl _⟩
    · split
      · exact Triple.fail' ⟨rfl, rfl, .refl _⟩
      · refine Triple.bind (Q := fun _ t => t.inFlight = s.inFlight ∧ t.nextBatch = s.nextBatch ∧
          Spares s.kvCache t.kvCache) (Triple.zoom ((removeSequence_spares id).mono
          (fun _ _ h => ⟨rfl, rfl, h⟩) fun _ _ h => ⟨rfl, rfl, h⟩)) ?_
        intro _ t ht
        exact Triple.modify_bind (Triple.pure' ht)

end Ruda.Batch
