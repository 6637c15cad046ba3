import Ruda.Batch.Fenced
import Ruda.Batch.InFlight
import Ruda.Batch.History

/-!
# Pages of unfinished device work

Whatever the device answers, and in whatever order the gate is called: while the
fence of a batch has not been ready, its reservations stay pending, its block
tables stay as they were given to the device, and no table gains a page. A failure
that leaves work behind quarantines the gate, and a quarantined gate never touches
pages again.

Runs carry a log of the batches whose fence has been ready, kept apart from the
flag in the gate.
-/

namespace Ruda.Batch

open Kv ContinuousBatchScheduler FencedBatchScheduler

variable {F α : Type} {chain : ChainHash} {sample : Sample} {g g' g₀ : FencedBatchScheduler F}
  {s t : ContinuousBatchScheduler} {ready : List Nat} {batch : ScheduledBatch}

-- Calls and runs

/-- The public methods that change a gate. -/
inductive Call (F : Type)
  | submit (prompt : List Token) (generation : GreedyGenerationConfig)
  | submitSampled (prompt : List Token) (generation : GreedyGenerationConfig) (rejected : Option String)
  | launch (closure : Submit F)
  | tryCompleteLogits (batchId : Nat) (logits : List Logit) (vocabulary : Nat) (poll : PollComplete F)
  | tryRollback (batchId : Nat) (poll : PollComplete F)
  | cancel (id : RequestId)
  | setBatchTokenLimit (limit : Nat)
  | popFinished

/-- The gate after a call, however it ended. -/
def Call.next (chain : ChainHash) (sample : Sample) (g : FencedBatchScheduler F) :
    Call F → FencedBatchScheduler F
  | submit prompt generation => (g.submit prompt generation).2
  | submitSampled prompt generation rejected => (g.submitSampled prompt generation rejected).2
  | launch closure => (g.launch chain closure).2
  | tryCompleteLogits batchId logits vocabulary poll =>
    (g.tryCompleteLogits chain sample batchId logits vocabulary poll).2
  | tryRollback batchId poll => (g.tryRollback batchId poll).2
  | cancel id => (g.cancel id).2
  | setBatchTokenLimit limit => (g.setBatchTokenLimit limit).2
  | popFinished => g.popFinished.2

/-- What the fence of the tracked batch answers, if `poll_fence(batchId)` asks it. -/
def FencedBatchScheduler.answer (batchId : Nat) (poll : PollComplete F) (g : FencedBatchScheduler F) :
    Option (Outcome (Poll (Except RuntimeError Unit))) :=
  match g.fence with
  | some (id, fence, false) => if g.quarantined = false ∧ id = batchId then some (poll fence).1 else none
  | _ => none

/-- The answer of the fence in a call that polls it. -/
def Call.answer (g : FencedBatchScheduler F) : Call F → Option (Outcome (Poll (Except RuntimeError Unit)))
  | tryCompleteLogits batchId _ _ poll | tryRollback batchId poll => g.answer batchId poll
  | _ => none

/-- `batchId` if its fence becomes ready in this poll. -/
def FencedBatchScheduler.readied (batchId : Nat) (poll : PollComplete F) (g : FencedBatchScheduler F) :
    List Nat :=
  match g.answer batchId poll with
  | some (.returned (.ready (.ok ()))) => [batchId]
  | _ => []

/-- The batch whose fence becomes ready in a call. -/
def Call.becameReady (g : FencedBatchScheduler F) : Call F → List Nat
  | tryCompleteLogits batchId _ _ poll | tryRollback batchId poll => g.readied batchId poll
  | _ => []

/-- The fence does not vouch for the batch and may never do. -/
def Outcome.broken : Outcome (Poll (Except RuntimeError Unit)) → Bool
  | .panicked _ | .returned (.ready (.error _)) => true
  | _ => false

/-- The gate after any sequence of calls on `g₀`, with the batches whose fence has
been ready. -/
inductive Reached (chain : ChainHash) (sample : Sample) (g₀ : FencedBatchScheduler F) :
    FencedBatchScheduler F → List Nat → Prop
  | start : Reached chain sample g₀ g₀ []
  | call {g : FencedBatchScheduler F} {log : List Nat} (call : Call F)
      (h : Reached chain sample g₀ g log) :
      Reached chain sample g₀ (call.next chain sample g) (call.becameReady g ++ log)

-- The invariant

structure GateInv (g : FencedBatchScheduler F) (ready : List Nat) : Prop where
  /-- Outside quarantine the fence is that of the batch in flight. -/
  tracked : g.quarantined = false → ∀ batch, g.scheduler.inFlight = some batch →
    ∃ fence completed, g.fence = some (batch.id, fence, completed)
  completed : ∀ id fence, g.fence = some (id, fence, true) → id ∈ ready
  fenceUsed : ∀ id fence completed, g.fence = some (id, fence, completed) → id < g.scheduler.nextBatch
  readyUsed : ∀ id ∈ ready, id < g.scheduler.nextBatch
  rows : ∀ batch, g.scheduler.inFlight = some batch → ∀ row ∈ batch.sequences,
    Reserved g.scheduler.kvCache row

theorem GateInv.new (h : FencedBatchScheduler.new s = .ok g) : GateInv g [] := by
  unfold FencedBatchScheduler.new at h
  split at h
  · cases h
  · next hnone =>
    obtain rfl : _ = g := Except.ok.inj h
    have hidle : s.inFlight = none := by simpa using hnone
    refine ⟨fun _ batch hb => ?_, nofun, nofun, nofun, fun batch hb => ?_⟩
    · cases hidle.symm.trans hb
    · cases hidle.symm.trans hb

theorem GateInv.settle (h : GateInv g ready) (hc : Concludes g.scheduler t) :
    GateInv { g with scheduler := t } ready where
  tracked := fun hq batch hb => by
    rcases hc.inFlight with hnone | ⟨hsame, -⟩
    · cases hnone.symm.trans hb
    · exact h.tracked hq batch (hsame ▸ hb)
  completed := h.completed
  fenceUsed := fun id f c hf => (h.fenceUsed id f c hf).trans_le hc.nextBatch
  readyUsed := fun id hid => (h.readyUsed id hid).trans_le hc.nextBatch
  rows := fun batch hb => by
    rcases hc.inFlight with hnone | ⟨hsame, hk⟩
    · cases hnone.symm.trans hb
    · show ∀ row ∈ batch.sequences, Reserved t.kvCache row
      rw [hk]
      exact h.rows batch (hsame ▸ hb)

theorem GateInv.release (h : GateInv g ready) (hnone : g.scheduler.inFlight = none)
    {f : Option (Nat × F × Bool)} (hf : f = g.fence ∨ f = none) {q : Bool} :
    GateInv { g with fence := f, quarantined := q } ready where
  tracked := fun _ batch hb => by cases hnone.symm.trans hb
  completed := fun id fence heq => by
    rcases hf with rfl | rfl
    · exact h.completed id fence heq
    · cases heq
  fenceUsed := fun id fence completed heq => by
    rcases hf with rfl | rfl
    · exact h.fenceUsed id fence completed heq
    · cases heq
  readyUsed := h.readyUsed
  rows := fun batch hb => by cases hnone.symm.trans hb

/-- A call that is not about the batch in flight. -/
structure Aside (s t : ContinuousBatchScheduler) : Prop where
  inFlight : t.inFlight = s.inFlight
  nextBatch : t.nextBatch = s.nextBatch
  spares : Spares s.kvCache t.kvCache

/-- `m` leaves the batch in flight alone, however it ends. -/
def Passive (m : BatchM α) : Prop :=
  ∀ s, Triple m s (fun _ t => Aside s t) (fun _ t => Aside s t)

theorem Aside.held (h : Aside s t) (hb : s.inFlight = some batch)
    (hrows : ∀ row ∈ batch.sequences, Reserved s.kvCache row) : Held batch s t :=
  h.spares.held hb h.inFlight hrows

theorem GateInv.aside (h : GateInv g ready) (ha : Aside g.scheduler t) :
    GateInv { g with scheduler := t } ready where
  tracked := fun hq batch hb => h.tracked hq batch (ha.inFlight ▸ hb)
  completed := h.completed
  fenceUsed := fun id f c hf => ha.nextBatch ▸ h.fenceUsed id f c hf
  readyUsed := fun id hid => ha.nextBatch ▸ h.readyUsed id hid
  rows := fun batch hb row hrow =>
    have hb' : g.scheduler.inFlight = some batch := ha.inFlight ▸ hb
    (ha.held hb' (h.rows batch hb')).reserved hrow (h.rows batch hb' row hrow)

theorem Aside.refl (s : ContinuousBatchScheduler) : Aside s s := ⟨rfl, rfl, .refl _⟩

theorem submit_passive (prompt : List Token) (generation : GreedyGenerationConfig) (sampled : Bool) :
    Passive (submitWithSampler prompt generation sampled) := by
  intro s
  refine Triple.get_bind (Triple.failIf_bind (fun _ => .refl s) fun _ => ?_)
  refine Triple.failIf_bind (fun _ => .refl s) fun _ => ?_
  refine Triple.need_bind (fun _ => .refl s) fun total _ => ?_
  refine Triple.failIf_bind (fun _ => .refl s) fun _ => ?_
  refine Triple.failIf_bind (fun _ => .refl s) fun _ => ?_
  refine Triple.failIf_bind (fun _ => .refl s) fun _ => ?_
  refine Triple.failIf_bind (fun _ => .refl s) fun _ => ?_
  refine Triple.need_bind (fun _ => .refl s) fun next _ => ?_
  refine Triple.ite (fun _ => ?_) fun _ => ?_
  · exact Triple.set_bind (Triple.pure' ⟨rfl, rfl, .refl _⟩)
  · exact Triple.set_bind (Triple.pure' ⟨rfl, rfl, .refl _⟩)

theorem setBatchTokenLimit_passive (limit : Nat) :
    Passive (ContinuousBatchScheduler.setBatchTokenLimit limit) := by
  intro s
  refine Triple.get_bind (Triple.failIf_bind (fun _ => .refl s) fun _ => ?_)
  exact Triple.failIf_bind (fun _ => .refl s) fun _ => Triple.set' ⟨rfl, rfl, .refl _⟩

theorem cancel_passive (id : RequestId) : Passive (ContinuousBatchScheduler.cancel id) := fun _ =>
  (cancel_spares id).mono (fun _ _ h => ⟨h.1, h.2.1, h.2.2⟩) fun _ _ h => ⟨h.1, h.2.1, h.2.2⟩

theorem popFinished_exec (s : ContinuousBatchScheduler) :
    Triple ContinuousBatchScheduler.popFinished s (fun _ t => t = { s with finished := t.finished })
      (fun _ t => t = { s with finished := t.finished }) := by
  refine Triple.get_bind ?_
  cases s.finished with
  | nil => exact Triple.pure' rfl
  | cons generation rest => exact Triple.set_bind (Triple.pure' rfl)

theorem popFinished_passive : Passive ContinuousBatchScheduler.popFinished := by
  have haside : ∀ s t : ContinuousBatchScheduler, t = { s with finished := t.finished } → Aside s t := by
    intro s t ht
    rw [ht]
    exact ⟨rfl, rfl, .refl _⟩
  exact fun s => (popFinished_exec s).mono (fun _ t => haside s t) fun _ t => haside s t

theorem rejected_passive (message : String) : Passive (M.fail message : BatchM α) := fun s => Aside.refl s

-- One call

theorem gated_next (m : BatchM α) (g : FencedBatchScheduler F) :
    (g.gated m).2 = if g.quarantined then g else { g with scheduler := m.next g.scheduler } := by
  obtain ⟨s, fence, quarantined⟩ := g
  cases quarantined <;> rfl

/-- What `poll_fence` does: it refuses, knows the answer already, or asks. -/
inductive Polled (g : FencedBatchScheduler F) (batchId : Nat) (poll : PollComplete F) :
    Except Halt (Poll Unit) × FencedBatchScheduler F → Prop
  | refused {halt : Halt} (ha : g.answer batchId poll = none) : Polled g batchId poll (.error halt, g)
  | known {fence : F} (hq : g.quarantined = false) (hf : g.fence = some (batchId, fence, true))
      (ha : g.answer batchId poll = none) :
      Polled g batchId poll (.ok (.ready ()), g)
  | pending {fence : F} (fence' : F) (hq : g.quarantined = false) (hf : g.fence = some (batchId, fence, false))
      (ha : g.answer batchId poll = some (.returned .pending)) :
      Polled g batchId poll (.ok .pending, { g with fence := some (batchId, fence', false) })
  | completed {fence : F} (fence' : F) (hq : g.quarantined = false) (hf : g.fence = some (batchId, fence, false))
      (ha : g.answer batchId poll = some (.returned (.ready (.ok ())))) :
      Polled g batchId poll (.ok (.ready ()), { g with fence := some (batchId, fence', true) })
  | broken {fence : F} (fence' : F) (halt : Halt) {answer : Outcome (Poll (Except RuntimeError Unit))}
      (hf : g.fence = some (batchId, fence, false)) (ha : g.answer batchId poll = some answer)
      (hb : answer.broken = true) : Polled g batchId poll
        (.error halt, { g with quarantined := true, fence := some (batchId, fence', false) })

theorem pollFence_polled (batchId : Nat) (poll : PollComplete F) (g : FencedBatchScheduler F) :
    Polled g batchId poll (g.pollFence batchId poll) := by
  obtain ⟨s, fence, quarantined⟩ := g
  cases quarantined with
  | true =>
    refine .refused ?_
    rcases fence with _ | ⟨id, fence, _ | _⟩ <;> simp [FencedBatchScheduler.answer]
  | false =>
    rcases fence with _ | ⟨id, fence, completed⟩
    · exact .refused rfl
    · by_cases hid : id = batchId
      · subst hid
        have hanswer : ∀ answer, (poll fence).1 = answer →
            FencedBatchScheduler.answer id poll ⟨s, some (id, fence, false), false⟩ = some answer := by
          rintro _ rfl
          simp [FencedBatchScheduler.answer]
        cases completed with
        | true =>
          have hknown : Polled ⟨s, some (id, fence, true), false⟩ id poll (.ok (.ready ()), _) :=
            .known rfl rfl rfl
          simpa [pollFence, ensureHealthy] using hknown
        | false =>
          rcases hpoll : (poll fence).1 with (_ | (e | ⟨⟩)) | message
          · simpa [pollFence, ensureHealthy, hpoll] using
              Polled.pending (poll fence).2 rfl rfl (hanswer _ hpoll)
          · simpa [pollFence, ensureHealthy, hpoll] using
              Polled.broken (poll fence).2 (.error e) rfl (hanswer _ hpoll) rfl
          · simpa [pollFence, ensureHealthy, hpoll] using
              Polled.completed (poll fence).2 rfl rfl (hanswer _ hpoll)
          · simpa [pollFence, ensureHealthy, hpoll] using
              Polled.broken (poll fence).2 (.panic message) rfl (hanswer _ hpoll) rfl
      · have hrefused : Polled ⟨s, some (id, fence, completed), false⟩ batchId poll
            (.error (.error (.invalid "stale or wrong batch fence ID")), _) := .refused (by
          cases completed <;> simp [FencedBatchScheduler.answer, hid])
        simpa [pollFence, ensureHealthy, hid] using hrefused

theorem GateInv.polled {batchId : Nat} {poll : PollComplete F}
    {r : Except Halt (Poll Unit) × FencedBatchScheduler F} (h : GateInv g ready)
    (hp : Polled g batchId poll r) : GateInv r.2 (g.readied batchId poll ++ ready) := by
  have refence : ∀ {fence fence' : F} {completed : Bool} {q : Bool}, g.fence = some (batchId, fence, false) →
      (completed = true → batchId ∈ g.readied batchId poll) → g.quarantined = false ∨ q = true →
      GateInv { g with quarantined := q, fence := some (batchId, fence', completed) }
        (g.readied batchId poll ++ ready) := by
    intro fence fence' completed q hf hc hq
    have hused := h.fenceUsed _ _ _ hf
    refine ⟨fun hq' batch hb => ?_, ?_, ?_, fun id hid => ?_, h.rows⟩
    · have hg : g.quarantined = false := hq.resolve_right (by simp [show q = false from hq'])
      obtain ⟨fence₁, completed₁, heq⟩ := h.tracked hg batch hb
      rw [hf, Option.some.injEq, Prod.mk.injEq] at heq
      exact ⟨fence', completed, by rw [heq.1]⟩
    · rintro id fence₁ ⟨⟩
      exact List.mem_append_left _ (hc rfl)
    · rintro id fence₁ completed₁ ⟨⟩
      exact hused
    · rcases List.mem_append.mp hid with hid | hid
      · unfold FencedBatchScheduler.readied at hid
        split at hid
        · rw [List.mem_singleton.mp hid]
          exact hused
        · cases hid
      · exact h.readyUsed id hid
  cases hp with
  | refused ha =>
    have hno : g.readied batchId poll = [] := by simp [FencedBatchScheduler.readied, ha]
    rw [hno]
    exact h
  | known hq hf ha =>
    have hno : g.readied batchId poll = [] := by simp [FencedBatchScheduler.readied, ha]
    rw [hno]
    exact h
  | pending fence' hq hf ha => exact refence hf nofun (.inl hq)
  | completed fence' hq hf ha =>
    exact refence hf (fun _ => by simp [FencedBatchScheduler.readied, ha]) (.inl hq)
  | broken fence' halt hf ha hb => exact refence hf nofun (.inr rfl)

theorem Polled.scheduler {batchId : Nat} {poll : PollComplete F}
    {r : Except Halt (Poll Unit) × FencedBatchScheduler F} (hp : Polled g batchId poll r) :
    r.2.scheduler = g.scheduler := by
  cases hp <;> rfl

theorem GateInv.ready_of_polled {batchId : Nat} {poll : PollComplete F}
    {r : Except Halt (Poll Unit) × FencedBatchScheduler F} (h : GateInv g ready)
    (hp : Polled g batchId poll r) (hr : r.1 = .ok (.ready ())) :
    batchId ∈ g.readied batchId poll ++ ready ∧ ∃ fence, r.2.fence = some (batchId, fence, true) := by
  cases hp with
  | refused | pending | broken => cases hr
  | @known fence hq hf ha => exact ⟨List.mem_append_right _ (h.completed _ _ hf), fence, hf⟩
  | completed fence' hq hf ha =>
    exact ⟨List.mem_append_left _ (by simp [FencedBatchScheduler.readied, ha]), fence', rfl⟩

/-- The gate after `poll_fence` ended in `r` and the caller, if the fence was
ready, settled the batch. -/
inductive Settling (r : Except Halt (Poll Unit) × FencedBatchScheduler F) : FencedBatchScheduler F → Prop
  | polled : Settling r r.2
  | concluded {t : ContinuousBatchScheduler} (hr : r.1 = .ok (.ready ())) (hc : Concludes r.2.scheduler t) :
      Settling r { r.2 with scheduler := t }
  | ended {t : ContinuousBatchScheduler} (hr : r.1 = .ok (.ready ())) (he : Ended r.2.scheduler t) :
      Settling r { r.2 with scheduler := t, fence := none }

theorem onScheduler_settling {m : BatchM α} {g₁ : FencedBatchScheduler F} {e : Except Halt α}
    (hm : ∀ s, Triple m s (fun _ t => Ended s t) (fun _ t => Concludes s t))
    (hg : g₁.onScheduler m = (e, g)) :
    Settling (.ok (.ready ()), g₁) g ∧
      (e.toBool = true → Settling (.ok (.ready ()), g₁) { g with fence := none }) := by
  have hm := hm g₁.scheduler
  unfold FencedBatchScheduler.onScheduler at hg
  rcases hexec : m.exec g₁.scheduler with ⟨f | a, t⟩
  · rw [hexec] at hg
    obtain ⟨rfl, rfl⟩ := Prod.mk.inj hg
    exact ⟨.concluded rfl (hm.fault hexec), nofun⟩
  · rw [hexec] at hg
    obtain ⟨rfl, rfl⟩ := Prod.mk.inj hg
    exact ⟨.concluded rfl (hm.ok hexec).concludes, fun _ => .ended rfl (hm.ok hexec)⟩

theorem tryRollback_settling (batchId : Nat) (poll : PollComplete F) (g : FencedBatchScheduler F) :
    Settling (g.pollFence batchId poll) (g.tryRollback batchId poll).2 := by
  unfold tryRollback
  generalize g.pollFence batchId poll = r
  rcases r with ⟨_ | (_ | ⟨⟩), g₁⟩
  · exact .polled
  · exact .polled
  · dsimp only
    split
    · next hg => exact (onScheduler_settling (fun _ => failBatch_concludes batchId) hg).1
    · next hg => exact (onScheduler_settling (fun _ => failBatch_concludes batchId) hg).2 rfl

theorem tryCompleteLogits_settling (chain : ChainHash) (sample : Sample) (batchId : Nat) (logits : List Logit) (vocabulary : Nat)
    (poll : PollComplete F) (g : FencedBatchScheduler F) :
    Settling (g.pollFence batchId poll)
      (g.tryCompleteLogits chain sample batchId logits vocabulary poll).2 := by
  unfold tryCompleteLogits
  generalize g.pollFence batchId poll = r
  rcases r with ⟨_ | (_ | ⟨⟩), g₁⟩
  · exact .polled
  · exact .polled
  · dsimp only
    split
    · exact .polled
    · split
      · exact .polled
      · split
        · exact .polled
        · have hcomplete : ∀ e g', g₁.completeLogits chain sample batchId logits vocabulary = (e, g') →
              Settling (.ok (.ready ()), g₁) g' := by
            intro e g' hg
            unfold completeLogits at hg
            split at hg
            · obtain ⟨-, rfl⟩ := Prod.mk.inj hg
              exact .polled
            · next tokens _ =>
              split at hg
              · next hs =>
                obtain ⟨-, rfl⟩ := Prod.mk.inj hg
                exact (onScheduler_settling (fun _ => completeBatch_concludes batchId tokens) hs).1
              · next hs =>
                obtain ⟨-, rfl⟩ := Prod.mk.inj hg
                exact (onScheduler_settling (fun _ => completeBatch_concludes batchId tokens) hs).2 rfl
          split
          · next hg => exact hcomplete _ _ hg
          · next hg => exact hcomplete _ _ hg

theorem GateInv.settling {r : Except Halt (Poll Unit) × FencedBatchScheduler F} (h : GateInv r.2 ready)
    (hs : Settling r g) : GateInv g ready := by
  cases hs with
  | polled => exact h
  | concluded hr hc => exact h.settle hc
  | ended hr he =>
    have h' := (h.settle he.concludes).release (f := none) he.inFlight (.inr rfl) (q := r.2.quarantined)
    exact h'

theorem GateInv.unready {batchId : Nat} {poll : PollComplete F}
    {r : Except Halt (Poll Unit) × FencedBatchScheduler F} (h : GateInv g ready)
    (hp : Polled g batchId poll r) (hs : Settling r g') (hb : g.scheduler.inFlight = some batch)
    (hnot : batch.id ∉ g.readied batchId poll ++ ready) : g'.scheduler = g.scheduler := by
  have hnotReady : r.1 ≠ .ok (.ready ()) := by
    intro hr
    obtain ⟨hmem, fence, hfence⟩ := h.ready_of_polled hp hr
    have h' := h.polled hp
    have hq : r.2.quarantined = false := by
      cases hp with
      | refused | pending | broken => cases hr
      | known hq => exact hq
      | completed _ hq => exact hq
    rw [← hp.scheduler] at hb
    obtain ⟨_, _, heq⟩ := h'.tracked hq batch hb
    rw [hfence, Option.some.injEq, Prod.mk.injEq] at heq
    exact hnot (heq.1 ▸ hmem)
  cases hs with
  | polled => exact hp.scheduler
  | concluded hr | ended hr => exact absurd hr hnotReady

/-- What a launch of `batch`, scheduled in `s`, comes to for each outcome of the
closure. -/
def Launches (s : ContinuousBatchScheduler) (batch : ScheduledBatch) (g' : FencedBatchScheduler F) :
    Outcome (Except BatchLaunchFailure F) → Prop
  | .panicked _ => Held batch s g'.scheduler ∧ g'.quarantined = true
  | .returned (.ok _) => Held batch s g'.scheduler ∧ g'.quarantined = false
  | .returned (.error failure) =>
    if failure.recoverable then g'.quarantined = true ∨ g'.scheduler.inFlight = none
    else Held batch s g'.scheduler ∧ g'.quarantined = true

theorem GateInv.launched (h : GateInv g ready) (hs : s.inFlight = some batch)
    (hp : Planned g.scheduler batch s) : GateInv { g with scheduler := s, quarantined := true } ready := by
  have hle : g.scheduler.nextBatch ≤ s.nextBatch := hp.fresh.trans hp.used.le
  refine ⟨nofun, h.completed, fun id f c hf => (h.fenceUsed id f c hf).trans_le hle,
    fun id hid => (h.readyUsed id hid).trans_le hle, fun batch' hb => ?_⟩
  obtain rfl : batch = batch' := Option.some.inj (hs.symm.trans hb)
  exact hp.rows

theorem GateInv.launch (h : GateInv g ready) (closure : Submit F) (hq : g.quarantined = false)
    (hexec : (schedule chain).exec g.scheduler = (.ok (some batch), s)) :
    s.inFlight = some batch ∧ Planned g.scheduler batch s ∧
      GateInv (g.launch chain closure).2 ready ∧
      Launches s batch (g.launch chain closure).2 (closure batch) := by
  have hidle : g.scheduler.inFlight = none := by
    cases hb : g.scheduler.inFlight with
    | none => rfl
    | some b => exact ((schedule_busy hb).ok hexec).elim
  obtain ⟨hs, hp⟩ : Scheduled g.scheduler (some batch) s := (schedule_schedules hidle).ok hexec
  refine ⟨hs, hp, ?_⟩
  have hinv := h.launched hs hp
  have hheld : Held batch s s := .of_same hs rfl rfl
  have hgate : g.onScheduler (schedule chain) = (.ok (some batch), { g with scheduler := s }) := by
    simp only [onScheduler, hexec, Except.mapError]
  simp only [FencedBatchScheduler.launch, ensureHealthy, hq, Bool.false_eq_true, if_false, hgate]
  rcases closure batch with (failure | fence) | message
  · dsimp only [Launches]
    cases hr : failure.recoverable with
    | false => exact ⟨hinv, hheld, rfl⟩
    | true =>
      simp only [if_true]
      rcases hfail : (failBatch batch.id).exec s with ⟨f | ⟨⟩, t⟩
      · have hc := (failBatch_concludes batch.id).fault hfail
        simp only [onScheduler, hfail, Except.mapError]
        exact ⟨hinv.settle hc, .inl trivial⟩
      · have he := (failBatch_concludes batch.id).ok hfail
        simp only [onScheduler, hfail, Except.mapError]
        exact ⟨(hinv.settle he.concludes).release (q := false) he.inFlight (.inl rfl), .inr he.inFlight⟩
  · refine ⟨⟨fun _ b hb => ?_, ?_, ?_, hinv.readyUsed, hinv.rows⟩, hheld, rfl⟩
    · obtain rfl : batch = b := Option.some.inj (hs.symm.trans hb)
      exact ⟨fence, false, rfl⟩
    · rintro id f ⟨⟩
    · rintro id f c ⟨⟩
      exact hp.used
  · exact ⟨hinv, hheld, rfl⟩

theorem GateInv.launch_none {closure : Submit F} (h : GateInv g ready)
    (hno : ∀ batch s, g.quarantined = false → (schedule chain).exec g.scheduler ≠ (.ok (some batch), s)) :
    GateInv (g.launch chain closure).2 ready ∧
      ∀ batch, g.scheduler.inFlight = some batch → (g.launch chain closure).2.scheduler = g.scheduler := by
  cases hq : g.quarantined with
  | true =>
    simp only [FencedBatchScheduler.launch, ensureHealthy, hq, if_true]
    exact ⟨h, fun _ _ => trivial⟩
  | false =>
    have hmoves : ∀ s, (g.scheduler.inFlight = none → Waits g.scheduler s) →
        (∀ b, g.scheduler.inFlight = some b → s = g.scheduler) →
        GateInv { g with scheduler := s } ready ∧
          ∀ b, g.scheduler.inFlight = some b → s = g.scheduler := by
      intro s hnone hsome
      refine ⟨h.settle ?_, hsome⟩
      cases hb : g.scheduler.inFlight with
      | none => exact ⟨.inl ((hnone hb).inFlight.trans hb), (hnone hb).nextBatch⟩
      | some b =>
        rw [hsome b hb]
        exact .refl _
    rcases hexec : (schedule chain).exec g.scheduler with ⟨f | (_ | batch), s⟩
    · simp only [FencedBatchScheduler.launch, ensureHealthy, hq, Bool.false_eq_true, if_false, onScheduler,
        hexec, Except.mapError]
      simpa only [hq] using hmoves s (fun hb => (schedule_schedules hb).fault hexec)
        fun b hb => (schedule_busy hb).fault hexec
    · simp only [FencedBatchScheduler.launch, ensureHealthy, hq, Bool.false_eq_true, if_false, onScheduler,
        hexec, Except.mapError]
      simpa only [hq] using hmoves s (fun hb => (schedule_schedules hb).ok hexec)
        fun b hb => ((schedule_busy hb).ok hexec).elim
    · exact absurd hexec (hno batch s hq)

theorem GateInv.launch_inv (h : GateInv g ready) (chain : ChainHash) (closure : Submit F) :
    GateInv (g.launch chain closure).2 ready ∧ ∀ batch, g.scheduler.inFlight = some batch →
      (g.launch chain closure).2.scheduler = g.scheduler := by
  by_cases hsome : ∃ batch s, g.quarantined = false ∧
      (schedule chain).exec g.scheduler = (.ok (some batch), s)
  · obtain ⟨batch, s, hq, hexec⟩ := hsome
    obtain ⟨-, -, hinv, -⟩ := h.launch closure hq hexec
    exact ⟨hinv, fun b hb => ((schedule_busy hb).ok hexec).elim⟩
  · exact h.launch_none fun batch s hq hexec => hsome ⟨batch, s, hq, hexec⟩

theorem GateInv.gated {m : BatchM α} (h : GateInv g ready) (hm : Passive m) :
    GateInv (g.gated m).2 ready ∧ ∀ batch, g.scheduler.inFlight = some batch →
      Held batch g.scheduler (g.gated m).2.scheduler := by
  rw [gated_next]
  split
  · exact ⟨h, fun batch hb => .of_same hb rfl rfl⟩
  · have ha : Aside g.scheduler (m.next g.scheduler) := (hm g.scheduler).next
    exact ⟨h.aside ha, fun batch hb => ha.held hb (h.rows batch hb)⟩

/-- Every call keeps the invariant and holds on to a batch whose fence has not been
ready. -/
theorem Call.step (h : GateInv g ready) (call : Call F) :
    GateInv (call.next chain sample g) (call.becameReady g ++ ready) ∧
      ∀ batch, g.scheduler.inFlight = some batch → batch.id ∉ call.becameReady g ++ ready →
        Held batch g.scheduler (call.next chain sample g).scheduler := by
  cases call with
  | submit prompt generation =>
    obtain ⟨hinv, hheld⟩ := h.gated (submit_passive prompt generation false)
    exact ⟨hinv, fun batch hb _ => hheld batch hb⟩
  | submitSampled prompt generation rejected =>
    cases rejected with
    | some message =>
      obtain ⟨hinv, hheld⟩ := h.gated (rejected_passive message)
      exact ⟨hinv, fun batch hb _ => hheld batch hb⟩
    | none =>
      obtain ⟨hinv, hheld⟩ := h.gated (submit_passive prompt generation true)
      exact ⟨hinv, fun batch hb _ => hheld batch hb⟩
  | launch closure =>
    obtain ⟨hinv, hheld⟩ := h.launch_inv chain closure
    refine ⟨hinv, fun batch hb _ => .of_same hb ?_ ?_⟩
    · exact congrArg ContinuousBatchScheduler.inFlight (hheld batch hb)
    · exact congrArg ContinuousBatchScheduler.kvCache (hheld batch hb)
  | tryCompleteLogits batchId logits vocabulary poll =>
    have hp := pollFence_polled batchId poll g
    have hs := tryCompleteLogits_settling chain sample batchId logits vocabulary poll g
    refine ⟨(h.polled hp).settling hs, fun batch hb hnot => ?_⟩
    have hsame := h.unready hp hs hb hnot
    exact .of_same hb (congrArg _ hsame) (congrArg _ hsame)
  | tryRollback batchId poll =>
    have hp := pollFence_polled batchId poll g
    have hs := tryRollback_settling batchId poll g
    refine ⟨(h.polled hp).settling hs, fun batch hb hnot => ?_⟩
    have hsame := h.unready hp hs hb hnot
    exact .of_same hb (congrArg _ hsame) (congrArg _ hsame)
  | cancel id =>
    obtain ⟨hinv, hheld⟩ := h.gated (cancel_passive id)
    exact ⟨hinv, fun batch hb _ => hheld batch hb⟩
  | setBatchTokenLimit limit =>
    obtain ⟨hinv, hheld⟩ := h.gated (setBatchTokenLimit_passive limit)
    exact ⟨hinv, fun batch hb _ => hheld batch hb⟩
  | popFinished =>
    have ha : Aside g.scheduler (ContinuousBatchScheduler.popFinished.next g.scheduler) :=
      (popFinished_passive g.scheduler).next
    exact ⟨h.aside ha, fun batch hb _ => ha.held hb (h.rows batch hb)⟩

theorem Reached.inv (hnew : FencedBatchScheduler.new s = .ok g₀) (h : Reached chain sample g₀ g ready) :
    GateInv g ready := by
  induction h with
  | start => exact .new hnew
  | call call _ ih => exact (call.step ih).1

-- Every run

/-- The gate after a list of calls. -/
def runCalls (chain : ChainHash) (sample : Sample) (g : FencedBatchScheduler F) (calls : List (Call F)) :
    FencedBatchScheduler F :=
  calls.foldl (fun g call => call.next chain sample g) g

/-- What the gate promises about `call`, made in `g` after the fences of the
batches in `ready` have been ready. -/
structure Guarded (chain : ChainHash) (sample : Sample) (call : Call F) (g : FencedBatchScheduler F)
    (ready : List Nat) : Prop where
  /-- The rows of the batch in flight are reserved, on the tables the device was given. -/
  reserved : ∀ batch, g.scheduler.inFlight = some batch → ∀ row ∈ batch.sequences,
    Reserved g.scheduler.kvCache row
  /-- Nothing is committed or released before the fence has been ready. -/
  held : ∀ batch, g.scheduler.inFlight = some batch → batch.id ∉ call.becameReady g ++ ready →
    Held batch g.scheduler (call.next chain sample g).scheduler
  /-- A launched batch is new to the log; only a recoverable failure may roll it back. -/
  launched : ∀ closure batch s, call = .launch closure → g.quarantined = false →
    (schedule chain).exec g.scheduler = (.ok (some batch), s) →
      batch.id ∉ ready ∧ s.inFlight = some batch ∧ (∀ row ∈ batch.sequences, Reserved s.kvCache row) ∧
        Launches s batch (call.next chain sample g) (closure batch)
  /-- A fence that fails quarantines the gate. -/
  broken : ∀ answer, call.answer g = some answer → answer.broken = true →
    (call.next chain sample g).quarantined = true
  /-- A quarantined gate only hands out results that were finished before. -/
  final : g.quarantined = true → ∀ calls : List (Call F),
    (runCalls chain sample g calls).quarantined = true ∧ (runCalls chain sample g calls).fence = g.fence ∧
      ∃ finished, (runCalls chain sample g calls).scheduler = { g.scheduler with finished }

theorem Call.next_quarantined (chain : ChainHash) (sample : Sample) (hq : g.quarantined = true)
    (call : Call F) :
    ∃ finished, call.next chain sample g = { g with scheduler := { g.scheduler with finished } } := by
  have hgated : ∀ {α : Type} (m : BatchM α), (g.gated m).2 = g := fun m => by rw [gated_next, if_pos hq]
  have hpoll : ∀ (batchId : Nat) (poll : PollComplete F),
      ∃ halt, g.pollFence batchId poll = (.error halt, g) := by
    intro batchId poll
    unfold pollFence ensureHealthy
    rw [if_pos hq]
    exact ⟨_, rfl⟩
  cases call with
  | submit prompt generation => exact ⟨g.scheduler.finished, hgated _⟩
  | submitSampled prompt generation rejected => exact ⟨g.scheduler.finished, hgated _⟩
  | cancel id => exact ⟨g.scheduler.finished, hgated _⟩
  | setBatchTokenLimit limit => exact ⟨g.scheduler.finished, hgated _⟩
  | launch closure =>
    have hsame : (g.launch chain closure).2 = g := by
      unfold FencedBatchScheduler.launch ensureHealthy
      rw [if_pos hq]
    exact ⟨g.scheduler.finished, hsame⟩
  | tryCompleteLogits batchId logits vocabulary poll =>
    obtain ⟨halt, hp⟩ := hpoll batchId poll
    have hsame : (g.tryCompleteLogits chain sample batchId logits vocabulary poll).2 = g := by
      unfold FencedBatchScheduler.tryCompleteLogits
      rw [hp]
    exact ⟨g.scheduler.finished, hsame⟩
  | tryRollback batchId poll =>
    obtain ⟨halt, hp⟩ := hpoll batchId poll
    have hsame : (g.tryRollback batchId poll).2 = g := by
      unfold FencedBatchScheduler.tryRollback
      rw [hp]
    exact ⟨g.scheduler.finished, hsame⟩
  | popFinished =>
    have hpop := (popFinished_exec g.scheduler).next
    refine ⟨(ContinuousBatchScheduler.popFinished.next g.scheduler).finished, ?_⟩
    rw [← hpop]
    rfl

theorem runCalls_quarantined (chain : ChainHash) (sample : Sample) (hq : g.quarantined = true)
    (calls : List (Call F)) :
    ∃ finished, runCalls chain sample g calls = { g with scheduler := { g.scheduler with finished } } := by
  induction calls generalizing g with
  | nil => exact ⟨g.scheduler.finished, rfl⟩
  | cons call calls ih =>
    obtain ⟨finished, hnext⟩ := call.next_quarantined chain sample hq
    obtain ⟨finished', hrest⟩ := ih (g := call.next chain sample g) (by rw [hnext]; exact hq)
    refine ⟨finished', ?_⟩
    show runCalls chain sample (call.next chain sample g) calls = _
    rw [hrest, hnext]

theorem Settling.broken {batchId : Nat} {poll : PollComplete F} {answer : Outcome (Poll (Except RuntimeError Unit))}
    (hs : Settling (g.pollFence batchId poll) g') (ha : g.answer batchId poll = some answer)
    (hb : answer.broken = true) : g'.quarantined = true := by
  have hp := pollFence_polled batchId poll g
  generalize g.pollFence batchId poll = r at hp hs
  cases hp with
  | refused ha' | known _ _ ha' | pending _ _ _ ha' | completed _ _ _ ha' =>
    simp only [ha', Option.some.injEq, reduceCtorEq] at ha
    try (subst ha; cases hb)
  | broken fence' halt hf ha' hb' =>
    cases hs with
    | polled => rfl
    | concluded hr | ended hr => cases hr

/-- A gate around eight pages of one token each. -/
def smallGate : FencedBatchScheduler Unit := { scheduler := smallPool, fence := none, quarantined := false }

/-- No request of these runs is sampled. -/
def greedyOnly : Sample := fun _ _ => .error (.error "no sampler")

/-- The adapter submits the batch. -/
def accept : Submit Unit := fun _ => .returned (.ok ())

def oneRequest : Call Unit := .submit [5] { maxNewTokens := 1, eosTokenIds := [] }

/-- Work was submitted and has been drained. -/
def drained : BatchLaunchFailure where
  error := ⟨.outOfMemory, "readback allocation failed"⟩
  work := .quiescent
  committedCacheIntact := true

end Ruda.Batch
