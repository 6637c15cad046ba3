import Ruda.Batch.Scheduler
import Ruda.Kv.Effects

/-!
# The invariant of the scheduler

What holds between two calls, for any choice of three things a `Guarantee`
names: a property of the KV manager that its operations keep, one of every
unfinished request and its output so far, and one of every result. Whether KV
panics are ruled out depends on the first. The three results about the
scheduler are instances.

`Core` is the invariant with the rows of the batch in flight as a parameter:
while a batch is completed row by row, the rows still to come are in flight
although `in_flight` is already empty.
-/

namespace Ruda.Batch

open Kv ContinuousBatchScheduler

structure Guarantee where
  chain : ChainHash
  kv : PagedKvCacheManager → Prop
  /-- Whether a KV operation may panic. -/
  panics : Prop
  /-- Whether reservation ids may run out while a speculative batch is reserved,
  which leaves its first rows reserved. -/
  leaks : Prop
  /-- The admission policies that are meant. -/
  policy : KvAdmissionPolicy → Prop
  /-- What a prefix lookup needs to keep `kv`. -/
  room : PagedKvCacheManager → List Token → Prop
  /-- Prompt, limits and output so far of an unfinished request. -/
  request : RequestId → List Token → GreedyGenerationConfig → List Token → Prop
  result : FinishedGeneration → Prop

/-- The KV operations do what the guarantee says. -/
structure Guarantee.Kept (G : Guarantee) : Prop where
  tables : ∀ k, G.kv k → SeqOk k
  ops : ∀ k (op : KvOp), G.kv k →
    (∀ id tokens, op = .createSequenceWithPrefix id tokens → G.room k tokens) →
    Triple (op.run G.chain) k (fun _ k' => G.kv k') (fun f _ => f.IsPanic → G.panics)

variable {G : Guarantee} {s s' : ContinuousBatchScheduler} {k k' : PagedKvCacheManager}
  {id : RequestId} {r r' : ActiveRequest} {q : SequenceState} {b : Nat} {ids ids' : List RequestId}

/-- A call ends in a permitted panic or in an error with `P`. -/
def Fails (G : Guarantee) (P : σ → Prop) (f : Fault) (s : σ) : Prop :=
  f.IsPanic ∧ G.panics ∨ ¬f.IsPanic ∧ P s

theorem Fails.mono {P Q : σ → Prop} {f : Fault} {t : σ} (h : Fails G P f t) (hPQ : P t → Q t) :
    Fails G Q f t :=
  h.imp_right fun ⟨hf, hp⟩ => ⟨hf, hPQ hp⟩

theorem Fails.error {P : σ → Prop} {msg : String} {t : σ} (h : P t) : Fails G P (.error msg) t :=
  .inr ⟨not_false, h⟩

theorem Fails.never {P : τ → Prop} {f : Fault} {t : σ} {u : τ} (h : Fails G (fun _ => False) f t) :
    Fails G P f u :=
  h.imp_right fun ⟨_, hf⟩ => hf.elim

theorem Guarantee.Kept.call {m : KvM α} {Q : α → PagedKvCacheManager → Prop}
    {R : PagedKvCacheManager → Prop}
    (hkeep : Triple m k (fun _ k' => G.kv k') (fun f _ => f.IsPanic → G.panics))
    (heff : Triple m k Q (fun f k' => f.IsPanic ∨ R k')) :
    Triple m k (fun a k' => Q a k' ∧ G.kv k') (Fails G R) := by
  refine (heff.and hkeep).mono (fun _ _ h => h) ?_
  rintro f k' ⟨hf | hR, hp⟩
  · exact .inl ⟨hf, hp hf⟩
  · by_cases hf : f.IsPanic
    · exact .inl ⟨hf, hp hf⟩
    · exact .inr ⟨hf, hR⟩

/-- `s` with another state of the KV manager. -/
abbrev withKv (s : ContinuousBatchScheduler) (k : PagedKvCacheManager) : ContinuousBatchScheduler :=
  { s with kvCache := k }

theorem kv_onError {m : KvM α} {cleanup : BatchM Unit} {Q : α → PagedKvCacheManager → Prop}
    {R : PagedKvCacheManager → Prop} {P : ContinuousBatchScheduler → Prop}
    (hm : Triple m s.kvCache Q (Fails G R))
    (hclean : ∀ k, R k → Triple cleanup (withKv s k) (fun _ => P) (Fails G P)) :
    Triple ((kv m).onError cleanup) s (fun a s' => ∃ k, s' = withKv s k ∧ Q a k) (Fails G P) := by
  have hkv : Triple (kv m) s (fun a s' => ∃ k, s' = withKv s k ∧ Q a k)
      (Fails G fun s' => ∃ k, s' = withKv s k ∧ R k) :=
    Triple.zoom (hm.mono (fun a k hQ => ⟨k, rfl, hQ⟩) fun f k hf => hf.imp_right fun ⟨hnot, hR⟩ =>
      ⟨hnot, k, rfl, hR⟩)
  refine Triple.onError hkv ?_ ?_
  · rintro msg _ (⟨hf, -⟩ | ⟨-, k, rfl, hR⟩)
    · exact hf.elim
    · exact (hclean k hR).mono (fun _ _ hP => Fails.error hP) fun _ _ hf => hf
  · rintro msg s' (hf | ⟨hf, -⟩)
    · exact .inl hf
    · exact absurd trivial hf

-- The invariant

/-- Pages the longest run of `r` can need. -/
def budgetOf (blockSize : Nat) (r : ActiveRequest) : Nat :=
  requestPageBudget r.promptTokenIds.length r.generation blockSize

structure Waiting (G : Guarantee) (nextRequest : Nat) (config : PagedKvCacheConfig)
    (policy : KvAdmissionPolicy) (p : PendingRequest) : Prop where
  fresh : p.id < nextRequest
  prompt : p.promptTokenIds ≠ []
  more : 0 < p.generation.maxNewTokens
  fits : p.promptTokenIds.length + p.generation.maxNewTokens ≤ config.maxSequenceLength
  affordable : policy = .reserveSequenceCapacity →
    requestPageBudget p.promptTokenIds.length p.generation config.blockSize ≤ config.numPages
  good : G.request p.id p.promptTokenIds p.generation []

structure Running (G : Guarantee) (nextRequest : Nat) (config : PagedKvCacheConfig)
    (id : RequestId) (r : ActiveRequest) : Prop where
  fresh : id < nextRequest
  prompt : r.promptTokenIds ≠ []
  history : r.history = r.promptTokenIds ++ r.generatedTokenIds
  more : r.generatedTokenIds.length < r.generation.maxNewTokens
  fits : r.promptTokenIds.length + r.generation.maxNewTokens ≤ config.maxSequenceLength
  eos : r.eos = r.generation.eosTokenIds.toFinset
  good : G.request id r.promptTokenIds r.generation r.generatedTokenIds

/-- How many tokens of request `id` are committed, by its phase; it may be in
flight only as one of `ids` in batch `b`. -/
def PhaseOk (b : Nat) (ids : List RequestId) (id : RequestId) (r : ActiveRequest) (committed : Nat) :
    Prop :=
  match r.phase with
  | .needsPrefill => committed < r.history.length
  | .awaitingDecode token => r.history.getLast? = some token ∧ committed + 1 = r.history.length
  | .inFlight b' => b' = b ∧ id ∈ ids

/-- What the device executors built on the scheduler may change, as its constructors
leave it: nothing is held back, and chunked prefill and preemption only come with
on-demand admission. -/
structure Setup (G : Guarantee) (policy : KvAdmissionPolicy) (deferred : Finset RequestId) (ceiling : Option RequestId)
    (recompute : Bool) (chunk : Option Nat) : Prop where
  deferred : deferred = ∅
  ceiling : ceiling = none
  meant : G.policy policy
  whole : policy = .reserveSequenceCapacity → recompute = false ∧ chunk = none

structure Core (G : Guarantee) (b : Nat) (ids : List RequestId) (s : ContinuousBatchScheduler) :
    Prop where
  kv : G.kv s.kvCache
  maxActive : 0 < s.config.maxActiveSequences
  maxTokens : 0 < s.config.maxBatchTokens
  waiting : ∀ p ∈ s.pending, Waiting G s.nextRequest s.kvCache.config s.options.kvAdmission p
  queued : (s.pending.map PendingRequest.id).Nodup
  apart : ∀ p ∈ s.pending, s.active[p.id]? = none
  running : ∀ (id : Nat) r, s.active[id]? = some r → Running G s.nextRequest s.kvCache.config id r
  phases : ∀ (id : Nat) r, s.active[id]? = some r →
    ∃ q, s.kvCache.sequences[id]? = some q ∧ PhaseOk b ids id r q.committedTokens
  rows : ∀ id ∈ ids, ∃ r, s.active[id]? = some r ∧ r.phase = .inFlight b
  domain : ∀ (id : Nat) q, s.kvCache.sequences[id]? = some q → ∃ r, s.active[id]? = some r
  finished : ∀ g ∈ s.finished, g.requestId < s.nextRequest ∧ G.result g
  budgets : s.options.kvAdmission = .reserveSequenceCapacity →
    s.active.weight (budgetOf s.kvCache.config.blockSize) ≤ s.kvCache.config.numPages
  setup : Setup G s.options.kvAdmission s.deferredPrefill s.admissionCeiling s.recomputePreemption
    s.prefillChunkTokens

/-- Only sequences among `ids` have an append pending. -/
def Idle (G : Guarantee) (ids : List RequestId) (k : PagedKvCacheManager) : Prop :=
  ¬G.leaks → ∀ (id : Nat) q, k.sequences[id]? = some q → q.pending ≠ none → id ∈ ids

/-- What a row feeds: a chunk of the history, or its last token and a draft. -/
structure RowTokens (kind : ScheduledBatchKind) (row : ScheduledSequence) (r : ActiveRequest) :
    Prop where
  inside : kind ≠ .verify → row.contextLength ≤ r.history.length
  last : kind ≠ .prefill → row.tokenIds.head? = r.history.getLast? ∧
    row.startPosition + 1 = r.history.length

structure RowOk (kind : ScheduledBatchKind) (s : ContinuousBatchScheduler) (row : ScheduledSequence) :
    Prop where
  reserved : ∃ res, s.kvCache.reservations[row.reservationId]? = some res ∧
    res.requestId = row.requestId ∧ res.startPosition = row.startPosition ∧
    res.tokenCount = row.tokenIds.length
  context : row.contextLength = row.startPosition + row.tokenIds.length
  tokens : ∀ r, s.active[row.requestId]? = some r → RowTokens kind row r

def rowIds (s : ContinuousBatchScheduler) : List RequestId :=
  s.inFlight.elim [] fun batch => batch.sequences.map ScheduledSequence.requestId

def batchId (s : ContinuousBatchScheduler) : Nat := s.inFlight.elim 0 ScheduledBatch.id

structure Inv (G : Guarantee) (s : ContinuousBatchScheduler) : Prop where
  core : Core G (batchId s) (rowIds s) s
  idle : Idle G (rowIds s) s.kvCache
  distinct : (rowIds s).Nodup
  rows : ∀ batch, s.inFlight = some batch → batch.sequences ≠ [] ∧ ∀ row ∈ batch.sequences,
    RowOk batch.kind s row ∧ row.tokenIds.length = batch.nextN

-- Phases

theorem PhaseOk.of_ids {c : Nat} (h : PhaseOk b ids id r c) (hids : id ∈ ids → id ∈ ids') :
    PhaseOk b ids' id r c := by
  unfold PhaseOk at h ⊢
  split
  · next hp => simpa [hp] using h
  · next hp => simpa [hp] using h
  · next hp =>
    rw [hp] at h
    exact ⟨h.1, hids h.2⟩

theorem PhaseOk.rebase {c b' : Nat} (h : PhaseOk b [] id r c) : PhaseOk b' [] id r c := by
  unfold PhaseOk at h ⊢
  split
  · next hp => simpa [hp] using h
  · next hp => simpa [hp] using h
  · next hp => simp [hp] at h

theorem PhaseOk.inFlight {c : Nat} (hp : r.phase = .inFlight b) (hid : id ∈ ids) :
    PhaseOk b ids id r c := by
  unfold PhaseOk
  rw [hp]
  exact ⟨rfl, hid⟩

theorem Running.nonempty {n : Nat} {config : PagedKvCacheConfig} (h : Running G n config id r) :
    0 < r.history.length := by
  rw [h.history]
  have := List.length_pos_iff.mpr h.prompt
  simp only [List.length_append]
  omega

-- Changing one part of the state

theorem Core.congr (h : Core G b ids s) (hc : s'.config = s.config) (ho : s'.options = s.options)
    (hk : s'.kvCache = s.kvCache) (hp : s'.pending = s.pending) (ha : s'.active = s.active)
    (hf : s'.finished = s.finished) (hn : s'.nextRequest = s.nextRequest)
    (hset : Setup G s'.options.kvAdmission s'.deferredPrefill s'.admissionCeiling s'.recomputePreemption
      s'.prefillChunkTokens) : Core G b ids s' := by
  constructor
  · rw [hk]; exact h.kv
  · rw [hc]; exact h.maxActive
  · rw [hc]; exact h.maxTokens
  · rw [hp, hn, hk, ho]; exact h.waiting
  · rw [hp]; exact h.queued
  · rw [hp, ha]; exact h.apart
  · rw [ha, hn, hk]; exact h.running
  · rw [ha, hk]; exact h.phases
  · rw [ha]; exact h.rows
  · rw [hk, ha]; exact h.domain
  · rw [hf, hn]; exact h.finished
  · rw [ho, ha, hk]; exact h.budgets
  · exact hset

theorem Core.rebase (h : Core G b [] s) (b' : Nat) : Core G b' [] s where
  kv := h.kv
  maxActive := h.maxActive
  maxTokens := h.maxTokens
  waiting := h.waiting
  queued := h.queued
  apart := h.apart
  running := h.running
  phases := fun id r hr => by
    obtain ⟨q, hq, hp⟩ := h.phases id r hr
    exact ⟨q, hq, hp.rebase⟩
  rows := by simp
  domain := h.domain
  finished := h.finished
  budgets := h.budgets
  setup := h.setup

theorem Core.setKv (h : Core G b ids s) (hk : G.kv k) (hc : k.config = s.kvCache.config)
    (hphases : ∀ (id : Nat) r, s.active[id]? = some r →
      ∃ q, k.sequences[id]? = some q ∧ PhaseOk b ids id r q.committedTokens)
    (hdomain : ∀ (id : Nat) q, k.sequences[id]? = some q → ∃ r, s.active[id]? = some r) :
    Core G b ids { s with kvCache := k } where
  kv := hk
  maxActive := h.maxActive
  maxTokens := h.maxTokens
  waiting := fun p hp => by
    show Waiting G s.nextRequest k.config _ p
    rw [hc]
    exact h.waiting p hp
  queued := h.queued
  apart := h.apart
  running := fun id r hr => by
    show Running G s.nextRequest k.config id r
    rw [hc]
    exact h.running id r hr
  phases := hphases
  rows := h.rows
  domain := hdomain
  finished := h.finished
  budgets := fun hpol => by
    show s.active.weight (budgetOf k.config.blockSize) ≤ k.config.numPages
    rw [hc]
    exact h.budgets hpol
  setup := h.setup

/-- The tables differ only in what phases do not see. -/
structure SameCommitted (k k' : PagedKvCacheManager) : Prop where
  config : k'.config = k.config
  committed : ∀ id : Nat, k'.sequences[id]?.map SequenceState.committedTokens =
    k.sequences[id]?.map SequenceState.committedTokens

@[refl] theorem SameCommitted.refl (k : PagedKvCacheManager) : SameCommitted k k := ⟨rfl, fun _ => rfl⟩

theorem SameCommitted.trans {k'' : PagedKvCacheManager} (h : SameCommitted k k')
    (h' : SameCommitted k' k'') : SameCommitted k k'' :=
  ⟨h'.config.trans h.config, fun id => (h'.committed id).trans (h.committed id)⟩

theorem SameCommitted.get (h : SameCommitted k k') (hq : k.sequences[id]? = some q) :
    ∃ q', k'.sequences[id]? = some q' ∧ q'.committedTokens = q.committedTokens := by
  have := h.committed id
  rwa [hq, Option.map_some, Option.map_eq_some_iff] at this

theorem SameCommitted.get_back (h : SameCommitted k k') (hq : k'.sequences[id]? = some q) :
    ∃ q', k.sequences[id]? = some q' ∧ q'.committedTokens = q.committedTokens := by
  have := h.committed id
  rwa [hq, Option.map_some, eq_comm, Option.map_eq_some_iff] at this

theorem SameCommitted.of_put {o : Option SequenceState}
    (hc : k'.config = k.config) (hget : ∀ j : Nat, k'.sequences[j]? = if j = id then o else k.sequences[j]?)
    (hcom : o.map SequenceState.committedTokens = k.sequences[id]?.map SequenceState.committedTokens) :
    SameCommitted k k' := by
  refine ⟨hc, fun j => ?_⟩
  rw [hget j]
  split
  · next hj => rw [hj, hcom]
  · rfl

theorem Core.sameCommitted (h : Core G b ids s) (hk : G.kv k) (hsame : SameCommitted s.kvCache k) :
    Core G b ids { s with kvCache := k } := by
  refine h.setKv hk hsame.config (fun id r hr => ?_) fun id q hq => ?_
  · obtain ⟨q, hq, hp⟩ := h.phases id r hr
    obtain ⟨q', hq', hcom⟩ := hsame.get hq
    exact ⟨q', hq', hcom ▸ hp⟩
  · obtain ⟨q', hq', -⟩ := hsame.get_back hq
    exact h.domain id q' hq'

theorem putActive_get (j : Nat) :
    (s.putActive id r).active[j]? = if j = id then some r else s.active[j]? :=
  BTreeMap.get_insert ..

theorem Core.put (h : Core G b ids s) (hr : s.active[id]? = some r)
    (hrun : Running G s.nextRequest s.kvCache.config id r')
    (hbudget : budgetOf s.kvCache.config.blockSize r' = budgetOf s.kvCache.config.blockSize r)
    (hq : s.kvCache.sequences[id]? = some q) (hphase : PhaseOk b ids' id r' q.committedTokens)
    (hids : ∀ j ≠ id, j ∈ ids' ↔ j ∈ ids) (hself : id ∈ ids' → r'.phase = .inFlight b) :
    Core G b ids' (s.putActive id r') where
  kv := h.kv
  maxActive := h.maxActive
  maxTokens := h.maxTokens
  waiting := h.waiting
  queued := h.queued
  apart := fun p hp => by
    have hne : p.id ≠ id := by
      intro he
      have := h.apart p hp
      simp [he, hr] at this
    rw [putActive_get, if_neg hne]
    exact h.apart p hp
  running := fun j r₂ hr₂ => by
    rw [putActive_get] at hr₂
    split at hr₂
    · next hj => cases hr₂; exact hj ▸ hrun
    · exact h.running j r₂ hr₂
  phases := fun j r₂ hr₂ => by
    rw [putActive_get] at hr₂
    split at hr₂
    · next hj => cases hr₂; exact ⟨q, hj ▸ hq, hj ▸ hphase⟩
    · next hj =>
      obtain ⟨q₂, hq₂, hp₂⟩ := h.phases j r₂ hr₂
      exact ⟨q₂, hq₂, hp₂.of_ids (hids j hj).mpr⟩
  rows := fun j hj => by
    rw [putActive_get]
    split
    · next he => exact ⟨r', rfl, hself (he ▸ hj)⟩
    · next hne => exact h.rows j ((hids j hne).mp hj)
  domain := fun j q₂ hq₂ => by
    rw [putActive_get]
    split
    · exact ⟨r', rfl⟩
    · exact h.domain j q₂ hq₂
  finished := h.finished
  budgets := fun hpol => by
    have hw := BTreeMap.weight_insert_old (budgetOf s.kvCache.config.blockSize) (v := r') hr
    rw [hbudget, Nat.add_right_cancel_iff] at hw
    exact hw.le.trans (h.budgets hpol)
  setup := h.setup

theorem Core.drop (h : Core G b ids s) (hr : s.active[id]? = some r) (hk : G.kv k)
    (hput : Put s.kvCache id none k) (hids : ∀ j, j ∈ ids' → j ∈ ids ∧ j ≠ id)
    (hids' : ∀ j ≠ id, j ∈ ids → j ∈ ids') :
    Core G b ids' { s with kvCache := k, active := s.active.erase id } where
  kv := hk
  maxActive := h.maxActive
  maxTokens := h.maxTokens
  waiting := fun p hp => by
    show Waiting G s.nextRequest k.config _ p
    rw [hput.config]
    exact h.waiting p hp
  queued := h.queued
  apart := fun p hp => by
    rw [BTreeMap.get_erase]
    split
    · rfl
    · exact h.apart p hp
  running := fun j r₂ hr₂ => by
    show Running G s.nextRequest k.config j r₂
    rw [hput.config]
    rw [BTreeMap.get_erase] at hr₂
    split at hr₂
    · cases hr₂
    · exact h.running j r₂ hr₂
  phases := fun j r₂ hr₂ => by
    rw [BTreeMap.get_erase] at hr₂
    split at hr₂
    · cases hr₂
    · next hj =>
      obtain ⟨q₂, hq₂, hp₂⟩ := h.phases j r₂ hr₂
      exact ⟨q₂, by rw [hput.other hj, hq₂], hp₂.of_ids (hids' j hj)⟩
  rows := fun j hj => by
    obtain ⟨hin, hne⟩ := hids j hj
    rw [BTreeMap.get_erase, if_neg hne]
    exact h.rows j hin
  domain := fun j q₂ hq₂ => by
    rw [hput.get j] at hq₂
    split at hq₂
    · cases hq₂
    · next hj =>
      rw [BTreeMap.get_erase, if_neg hj]
      exact h.domain j q₂ hq₂
  finished := h.finished
  budgets := fun hpol => by
    show BTreeMap.weight (budgetOf k.config.blockSize) (s.active.erase id) ≤ k.config.numPages
    rw [hput.config]
    have hw := BTreeMap.weight_erase (budgetOf s.kvCache.config.blockSize) hr
    have := h.budgets hpol
    omega
  setup := h.setup

theorem Core.addFinished (h : Core G b ids s) {g : FinishedGeneration}
    (hid : g.requestId < s.nextRequest) (hg : G.result g) :
    Core G b ids { s with finished := s.finished ++ [g] } := by
  refine ⟨h.kv, h.maxActive, h.maxTokens, h.waiting, h.queued, h.apart, h.running, h.phases, h.rows,
    h.domain, fun g' hg' => ?_, h.budgets, h.setup⟩
  rcases List.mem_append.mp hg' with hg' | hg'
  · exact h.finished g' hg'
  · rw [List.mem_singleton.mp hg']
    exact ⟨hid, hg⟩

theorem Core.unqueue (h : Core G b ids s) {pending : List PendingRequest}
    (hsub : pending.Sublist s.pending) : Core G b ids { s with pending } :=
  ⟨h.kv, h.maxActive, h.maxTokens, fun p hp => h.waiting p (hsub.subset hp),
    (hsub.map _).nodup h.queued, fun p hp => h.apart p (hsub.subset hp), h.running, h.phases, h.rows,
    h.domain, h.finished, h.budgets, h.setup⟩

-- Between batches

theorem Idle.step (h : Idle G ids k) (hother : ∀ j : Nat, j ≠ id → k'.sequences[j]? = k.sequences[j]?)
    (hself : ∀ q, k'.sequences[id]? = some q → q.pending = none)
    (hids : ∀ j ∈ ids, j ≠ id → j ∈ ids') : Idle G ids' k' := by
  intro hlt j q hq hp
  by_cases hj : j = id
  · exact absurd (hself q (hj ▸ hq)) hp
  · exact hids j (h hlt j q (hother j hj ▸ hq) hp) hj

theorem Inv.of_none (hs : s.inFlight = none) (hcore : Core G b [] s) (hidle : Idle G [] s.kvCache) :
    Inv G s := by
  have hids : rowIds s = [] := by simp [rowIds, hs]
  exact ⟨hids ▸ hcore.rebase _, hids ▸ hidle, by simp [hids], by simp [hs]⟩

theorem Inv.none (h : Inv G s) (hs : s.inFlight = none) : Core G 0 [] s ∧ Idle G [] s.kvCache := by
  have hids : rowIds s = [] := by simp [rowIds, hs]
  exact ⟨(hids ▸ h.core : Core G _ [] s).rebase 0, hids ▸ h.idle⟩

theorem Inv.congr (h : Inv G s) (hc : s'.config = s.config) (ho : s'.options = s.options)
    (hk : s'.kvCache = s.kvCache) (hp : s'.pending = s.pending) (ha : s'.active = s.active)
    (hf : s'.finished = s.finished) (hn : s'.nextRequest = s.nextRequest)
    (hi : s'.inFlight = s.inFlight)
    (hset : Setup G s'.options.kvAdmission s'.deferredPrefill s'.admissionCeiling s'.recomputePreemption
      s'.prefillChunkTokens) : Inv G s' := by
  have hids : rowIds s' = rowIds s := by simp [rowIds, hi]
  have hb : batchId s' = batchId s := by simp [batchId, hi]
  refine ⟨hb ▸ hids ▸ h.core.congr hc ho hk hp ha hf hn hset, hids ▸ hk ▸ h.idle, hids ▸ h.distinct, ?_⟩
  rw [hi]
  intro batch hbatch
  refine ⟨(h.rows batch hbatch).1, fun row hrow => ?_⟩
  obtain ⟨hok, hlen⟩ := (h.rows batch hbatch).2 row hrow
  exact ⟨⟨by rw [hk]; exact hok.reserved, hok.context, by rw [ha]; exact hok.tokens⟩, hlen⟩

end Ruda.Batch
