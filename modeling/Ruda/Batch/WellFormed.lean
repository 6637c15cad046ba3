import Ruda.Batch.Arrays
import Ruda.Batch.History
import Ruda.Batch.InFlight

/-!
# Scheduled batches are well formed

A batch that `schedule` returns is a matrix: rows of one width for distinct
requests, each starting where its sequence ends, and each on a block table that
reaches to its last position. `Yields` follows what a row contains through the
schedulers, with nothing assumed of the state; the invariant says the rest.
-/

namespace Ruda.Batch

open Kv ContinuousBatchScheduler

variable {s s₀ : ContinuousBatchScheduler} {k : PagedKvCacheManager} {chain : ChainHash}
  {P : ContinuousBatchScheduler → ScheduledBatch → Prop} {batch : ScheduledBatch} {row : ScheduledSequence}
  {rows : List ScheduledSequence} {r : ActiveRequest} {q : SequenceState} {kind : ScheduledBatchKind}

-- What a scheduler yields

/-- Whatever batch `m` returns, it and the state after satisfy `P`. -/
def Yields (P : ContinuousBatchScheduler → ScheduledBatch → Prop) (m : BatchM (Option ScheduledBatch)) : Prop :=
  ∀ s, Triple m s (fun o s' => ∀ batch, o = some batch → P s' batch) (fun _ _ => True)

theorem Yields.none : Yields P (pure none) := fun _ => Triple.pure' nofun

theorem Yields.bind {α : Type} {m : BatchM α} {f : α → BatchM (Option ScheduledBatch)} (hf : ∀ a, Yields P (f a)) :
    Yields P (m >>= f) := fun _ =>
  Triple.bind (Triple.always (Q := fun _ _ => True) (fun _ _ => trivial) fun _ _ => trivial) fun a s' _ => hf a s'

theorem Yields.ite {c : Prop} [Decidable c] {m n : BatchM (Option ScheduledBatch)} (ht : Yields P m)
    (hf : Yields P n) : Yields P (if c then m else n) := fun s => Triple.ite (fun _ => ht s) fun _ => hf s

/-- `P` does not look at the fields that the loop of `schedule` sets. -/
structure Settled (P : ContinuousBatchScheduler → ScheduledBatch → Prop) : Prop where
  prefer : ∀ s batch preferPrefill, P s batch → P { s with preferPrefill } batch
  place : ∀ s batch inFlight, P s batch → P { s with inFlight } batch

theorem takeTurn_yields {m next : BatchM (Option ScheduledBatch)} {flag : Bool} (hP : Settled P)
    (hm : Yields P m) (hnext : Yields P next) : Yields P (takeTurn m flag next) := by
  intro s
  refine Triple.bind (hm s) ?_
  rintro (_ | batch) s₁ hb
  · exact hnext s₁
  · refine Triple.modify_bind (Triple.pure' ?_)
    rintro _ ⟨⟩
    exact hP.prefer _ _ _ (hb batch rfl)

theorem onlyIf_yields {m : BatchM (Option ScheduledBatch)} {flag : Bool} (hm : Yields P m) :
    Yields P (onlyIf flag m) := by
  cases flag with
  | true => exact hm
  | false => exact .none

section
variable (hP : Settled P) (hprefill : Yields P schedulePrefill) (hverify : Yields P scheduleVerify)
  (hdecode : Yields P scheduleDecode)
include hP hprefill hverify hdecode

theorem trySchedule_yields : Yields P trySchedule := by
  refine Yields.bind fun _ => takeTurn_yields hP (onlyIf_yields hprefill) ?_
  refine Yields.bind fun _ => Yields.bind fun _ => takeTurn_yields hP (onlyIf_yields hverify) ?_
  exact takeTurn_yields hP hdecode (takeTurn_yields hP hprefill .none)

theorem scheduleLoop_yields (rounds : Nat) : Yields P (scheduleLoop rounds) := by
  induction rounds with
  | zero => exact fun _ => Triple.panic' trivial
  | succ rounds ih =>
    intro s
    refine Triple.bind (trySchedule_yields hP hprefill hverify hdecode s) ?_
    rintro (_ | batch) s₁ hb
    · exact Yields.bind (fun _ => .ite (Yields.bind fun _ => .ite ih .none) .none) s₁
    · refine Triple.modify_bind (Triple.pure' ?_)
      rintro _ ⟨⟩
      exact hP.place _ _ _ (hb batch rfl)

theorem schedule_yields : Yields P (schedule chain) := by
  refine Yields.bind fun s => ?_
  cases s.inFlight with
  | some batch => exact fun _ => Triple.fail' trivial
  | none =>
    refine Yields.bind fun _ => Yields.bind fun _ => Yields.bind fun _ => ?_
    exact scheduleLoop_yields hP hprefill hverify hdecode _

end

-- Rows

/-- Within the token limit, and prefill rows are chunks of the history. -/
structure Filled (s : ContinuousBatchScheduler) (batch : ScheduledBatch) : Prop where
  budget : batch.sequences.length * batch.nextN ≤ s.config.maxBatchTokens
  chunk : batch.kind = .prefill → ∀ row ∈ batch.sequences, ∃ r, s.active[row.requestId]? = some r ∧
    row.tokenIds = (r.history.drop row.startPosition).take batch.nextN

theorem filled_settled : Settled Filled :=
  ⟨fun _ _ _ h => ⟨h.budget, h.chunk⟩, fun _ _ _ h => ⟨h.budget, h.chunk⟩⟩

/-- At most `limit` rows of `width` tokens, each what `T` says of its request and start. -/
structure RowsOf (limit width : Nat) (T : RequestId → Nat → List Token → Prop) (rows : List ScheduledSequence) :
    Prop where
  limit : rows.length ≤ limit
  width : ∀ row ∈ rows, row.tokenIds.length = width
  input : ∀ row ∈ rows, T row.requestId row.startPosition row.tokenIds

theorem beginAppend_starts {id : RequestId} {n : Nat} :
    Triple (PagedKvCacheManager.beginAppend id n) k (fun res _ => res.requestId = id ∧
      ∃ q, k.sequences[id]? = some q ∧ res.startPosition = q.committedTokens) (fun _ _ => True) := by
  refine beginAppend_rule (fun _ _ => trivial) fun q hq => ?_
  exact Triple.always (fun _ _ => ⟨rfl, q, hq.found, rfl⟩) fun _ _ => trivial

theorem reserveRows_fills {κ : Type} {limit width : Nat} {undo : List ScheduledSequence → BatchM Unit}
    {tokensOf : RequestId → κ → BatchM (List Token)} {T : RequestId → Nat → List Token → Prop}
    (htokens : ∀ id c k, Triple (tokensOf id c) (withKv s k) (fun tokens s' => s' = withKv s k ∧
      tokens.length = width ∧ ∀ q, k.sequences[id]? = some q → T id q.committedTokens tokens) (fun _ _ => True))
    (candidates : List (RequestId × κ)) (h : RowsOf limit width T rows) :
    Triple (reserveRows limit width undo tokensOf candidates rows) (withKv s k)
      (fun rows' s' => (∃ k', s' = withKv s k') ∧ RowsOf limit width T rows') (fun _ _ => True) := by
  induction candidates generalizing k rows with
  | nil => exact Triple.pure' ⟨⟨k, rfl⟩, h⟩
  | cons candidate rest ih =>
    obtain ⟨id, c⟩ := candidate
    unfold reserveRows
    refine Triple.ite (fun _ => Triple.pure' ⟨⟨k, rfl⟩, h⟩) fun hroom => ?_
    have hcan : Triple (kv (PagedKvCacheManager.canAppend id width)) (withKv s k)
        (fun _ s' => s' = withKv s k) (fun _ _ => True) :=
      Triple.zoom (canAppend_rule (fun _ _ => trivial) (fun _ _ => rfl) fun _ => rfl)
    refine Triple.bind hcan ?_
    rintro fits _ rfl
    refine Triple.ite (fun _ => ?_) fun _ => ih h
    refine Triple.bind (htokens id c k) ?_
    rintro tokens _ ⟨rfl, hlen, hin⟩
    have hbegin : Triple (kv (PagedKvCacheManager.beginAppend id width)) (withKv s k)
        (fun res s' => (∃ k', s' = withKv s k') ∧ RowsOf limit width T (rows ++ [scheduledSequence res tokens]))
        (fun _ _ => True) := by
      refine Triple.zoom (beginAppend_starts.mono ?_ fun _ _ _ => trivial)
      rintro res k' ⟨hid, q, hq, hstart⟩
      refine ⟨⟨k', rfl⟩, ?_, fun row hrow => ?_, fun row hrow => ?_⟩
      · rw [List.length_append, List.length_singleton]
        omega
      · rcases List.mem_append.mp hrow with hrow | hrow
        · exact h.width row hrow
        · rw [List.mem_singleton.mp hrow]
          exact hlen
      · rcases List.mem_append.mp hrow with hrow | hrow
        · exact h.input row hrow
        · rw [List.mem_singleton.mp hrow]
          show T res.requestId res.startPosition tokens
          rw [hid, hstart]
          exact hin q hq
    refine Triple.bind (Triple.onError hbegin (fun _ _ _ => Triple.always (fun _ _ => trivial) fun _ _ => trivial)
      fun _ _ _ => trivial) ?_
    rintro res _ ⟨⟨k', rfl⟩, hrows⟩
    exact ih hrows

/-- Limits and histories are as they were. -/
structure SameHistories (s s' : ContinuousBatchScheduler) : Prop where
  config : s'.config = s.config
  history : ∀ (id : Nat) r, s.active[id]? = some r → ∃ r', s'.active[id]? = some r' ∧ r'.history = r.history

theorem setPhase_sameHistories {s₁ : ContinuousBatchScheduler} {id : RequestId} {phase : RequestPhase}
    (h : SameHistories s s₁) : Triple (setPhase id phase) s₁ (fun _ s' => SameHistories s s') (fun _ _ => True) := by
  refine Triple.get_bind (Triple.need_bind (fun _ => trivial) fun r₁ hr₁ => Triple.set' ⟨h.config, fun j r hr => ?_⟩)
  obtain ⟨r', hr', hhistory⟩ := h.history j r hr
  rw [putActive_get]
  split
  · next hj =>
    subst hj
    obtain rfl : r₁ = r' := Option.some.inj (hr₁.symm.trans hr')
    exact ⟨_, rfl, hhistory⟩
  · exact ⟨r', hr', hhistory⟩

theorem finishSchedule_keeps : Triple (finishSchedule kind rows) s (fun o s' => ∀ batch, o = some batch →
    batch.kind = kind ∧ batch.sequences = rows ∧ SameHistories s s') (fun _ _ => True) := by
  have hundo : ∀ message s₁, Triple (do rollbackScheduledRows rows; M.fail message : BatchM (Option ScheduledBatch)) s₁
      (fun o s' => ∀ batch, o = some batch → batch.kind = kind ∧ batch.sequences = rows ∧ SameHistories s s')
      (fun _ _ => True) := fun message s₁ =>
    Triple.bind (Triple.always (Q := fun _ _ => True) (fun _ _ => trivial) fun _ _ => trivial) fun _ _ _ =>
      Triple.fail' trivial
  unfold finishSchedule
  refine Triple.ite (fun _ => Triple.pure' nofun) fun _ => Triple.get_bind ?_
  split
  · exact hundo _ _
  refine Triple.ite (fun _ => hundo _ _) fun _ => Triple.set_bind ?_
  refine Triple.bind (Q := fun _ s' => SameHistories s s') (Triple.forM (I := fun _ s' => SameHistories s s')
    ⟨rfl, fun _ r hr => ⟨r, hr, rfl⟩⟩ fun _ _ _ h => setPhase_sameHistories h) ?_
  intro _ s₁ hkept
  refine Triple.pure' ?_
  rintro _ ⟨⟩
  exact ⟨rfl, rfl, hkept⟩

theorem fills {κ : Type} {limit width : Nat} {undo : List ScheduledSequence → BatchM Unit}
    {tokensOf : RequestId → κ → BatchM (List Token)} {T : RequestId → Nat → List Token → Prop}
    (htokens : ∀ id c k, Triple (tokensOf id c) (withKv s k) (fun tokens s' => s' = withKv s k ∧
      tokens.length = width ∧ ∀ q, k.sequences[id]? = some q → T id q.committedTokens tokens) (fun _ _ => True))
    (hlimit : limit * width ≤ s.config.maxBatchTokens)
    (hchunk : kind = .prefill → ∀ id start tokens, T id start tokens → ∃ r, s.active[id]? = some r ∧
      tokens = (r.history.drop start).take width)
    (candidates : List (RequestId × κ)) :
    Triple (do let rows ← reserveRows limit width undo tokensOf candidates []; finishSchedule kind rows) s
      (fun o s' => ∀ batch, o = some batch → Filled s' batch) (fun _ _ => True) := by
  have hnil : RowsOf limit width T [] := ⟨Nat.zero_le _, by simp, by simp⟩
  refine Triple.bind (reserveRows_fills (k := s.kvCache) htokens candidates hnil) ?_
  rintro rows _ ⟨⟨k, rfl⟩, hrows⟩
  refine finishSchedule_keeps.mono ?_ fun _ _ _ => trivial
  rintro o s' hkeeps batch rfl
  obtain ⟨rfl, rfl, hconfig, hkept⟩ := hkeeps batch rfl
  have hwidth : ∀ row ∈ batch.sequences, batch.nextN = width := fun row hrow => by
    cases hseq : batch.sequences with
    | nil => simp [hseq] at hrow
    | cons first rest =>
      rw [ScheduledBatch.nextN, hseq]
      exact hrows.width first (by simp [hseq])
  constructor
  · rw [hconfig]
    cases hseq : batch.sequences with
    | nil => simp
    | cons first rest =>
      rw [← hseq, hwidth first (by simp [hseq])]
      exact (Nat.mul_le_mul_right _ hrows.limit).trans hlimit
  · intro hkind row hrow
    obtain ⟨r, hr, htokens⟩ := hchunk hkind _ _ _ (hrows.input row hrow)
    obtain ⟨r', hr', hhistory⟩ := hkept _ r hr
    exact ⟨r', hr', by rw [hwidth row hrow, hhistory]; exact htokens⟩

-- The schedulers

theorem collect_readsOnly {κ : Type} {select : RequestId → ActiveRequest → BatchM (Option κ)}
    (hselect : ∀ id r, ReadsOnly (select id r)) (l : List (RequestId × ActiveRequest)) :
    ReadsOnly (collect select l) := by
  induction l with
  | nil => exact fun _ => Triple.pure' rfl
  | cons e l ih =>
    intro s
    refine Triple.bind (hselect e.1 e.2 s) ?_
    rintro found _ rfl
    refine Triple.bind (ih _) ?_
    rintro others _ rfl
    exact Triple.pure' rfl

theorem canAppend_readsOnly {id : RequestId} {n : Nat} : ReadsOnly (kv (PagedKvCacheManager.canAppend id n)) :=
  fun _ => Triple.zoom (canAppend_rule (fun _ _ => rfl) (fun _ _ => rfl) fun _ => rfl)

theorem decodeCandidate_readsOnly (id : RequestId) (r : ActiveRequest) : ReadsOnly (decodeCandidate id r) := by
  intro s
  unfold decodeCandidate
  split <;> exact Triple.pure' rfl

theorem verifyCandidate_readsOnly (config : SpeculativeConfig) (width : Nat) (id : RequestId) (r : ActiveRequest) :
    ReadsOnly (verifyCandidate config width id r) := by
  intro s
  unfold verifyCandidate
  split
  · refine Triple.ite (fun _ => Triple.pure' rfl) fun _ => Triple.bind (canAppend_readsOnly s) ?_
    rintro fits _ rfl
    exact Triple.pure' rfl
  · exact Triple.pure' rfl

theorem prefillChunk_reads (id : RequestId) (r : ActiveRequest) (s : ContinuousBatchScheduler) :
    Triple (prefillChunk id r) s (fun chunk s' => s' = s ∧ ∀ q, s.kvCache.sequences[id]? = some q →
      chunk.1 = q.committedTokens) (fun _ s' => s' = s) := by
  refine Triple.bind (Q := fun committed s' => s' = s ∧ ∀ q, s.kvCache.sequences[id]? = some q →
    committed = q.committedTokens) (Triple.zoom ?_) ?_
  · refine Triple.get_bind (sequence_bind (fun _ => rfl) fun q hq => Triple.pure' ⟨rfl, fun q' hq' => ?_⟩)
    rw [Option.some.inj (hq.symm.trans hq')]
  · rintro committed _ ⟨rfl, hcommitted⟩
    exact Triple.get_bind (Triple.pure' ⟨rfl, hcommitted⟩)

theorem prefillCandidate_readsOnly (id : RequestId) (r : ActiveRequest) : ReadsOnly (prefillCandidate id r) := by
  intro s
  refine Triple.bind (prefillChunk_reads id r s) ?_
  rintro chunk _ ⟨rfl, -⟩
  refine Triple.get_bind (Triple.ite (fun _ => ?_) fun _ => Triple.pure' rfl)
  refine Triple.bind (canAppend_readsOnly _) ?_
  rintro fits _ rfl
  exact Triple.pure' rfl

theorem prefillTokens_chunk {n : Nat} (id : RequestId) (k : PagedKvCacheManager) :
    Triple (prefillTokens n id) (withKv s k) (fun tokens s' => s' = withKv s k ∧ tokens.length = n ∧
      ∀ q, k.sequences[id]? = some q → ∃ r, s.active[id]? = some r ∧
        tokens = (r.history.drop q.committedTokens).take n) (fun _ _ => True) := by
  refine Triple.get_bind (Triple.expect_bind (fun _ => trivial) fun r hr => ?_)
  refine Triple.bind ((prefillChunk_reads id r (withKv s k)).mono (fun _ _ h => h) fun _ _ _ => trivial) ?_
  rintro ⟨start, length⟩ _ ⟨rfl, hstart⟩
  refine Triple.ite (fun _ => Triple.panic' trivial) fun hlen => ?_
  refine Triple.ite (fun _ => Triple.panic' trivial) fun hin => Triple.pure' ⟨rfl, ?_, fun q hq => ⟨r, hr, ?_⟩⟩
  · simp only [List.length_take, List.length_drop]
    omega
  · obtain rfl : start = q.committedTokens := hstart q hq
    rw [not_not.mp hlen]

theorem schedulePrefill_fills : Yields Filled schedulePrefill := by
  intro s
  refine Triple.get_bind (Triple.bind ((collect_readsOnly prefillCandidate_readsOnly _ s).mono (fun _ _ h => h)
    fun _ _ _ => trivial) ?_)
  rintro candidates s rfl
  dsimp only
  split
  · exact Triple.pure' nofun
  · next nextN flag ids _ =>
    exact fills (T := fun id start tokens => ∃ r, s.active[id]? = some r ∧ tokens = (r.history.drop start).take nextN)
      (fun id _ k => prefillTokens_chunk id k) (Nat.div_mul_le_self _ _) (fun _ _ _ _ h => h) _

theorem scheduleDecode_fills : Yields Filled scheduleDecode := by
  intro s
  refine Triple.get_bind (Triple.bind ((collect_readsOnly decodeCandidate_readsOnly _ s).mono (fun _ _ h => h)
    fun _ _ _ => trivial) ?_)
  rintro candidates _ rfl
  refine fills (T := fun _ _ _ => True) (fun _ _ _ => ?_) ?_ ?_ _
  · exact Triple.pure' ⟨rfl, rfl, fun _ _ => trivial⟩
  · exact (Nat.mul_one _).le
  · nofun

theorem verifyTokens_length (config : SpeculativeConfig) (candidate : Token × List Token) :
    Triple (verifyTokens config candidate) s (fun tokens s' => s' = s ∧ tokens.length = config.draftTokens + 1)
      (fun _ _ => True) := by
  refine Triple.expect_bind (fun _ => trivial) fun pad _ => Triple.pure' ⟨rfl, ?_⟩
  simp only [List.length_cons, List.length_append, List.length_take, List.length_replicate]
  omega

theorem scheduleVerify_fills : Yields Filled scheduleVerify := by
  intro s
  refine Triple.get_bind ?_
  cases hconfig : s.speculative with
  | none => exact Triple.pure' nofun
  | some config =>
    dsimp only
    refine Triple.ite (fun _ => Triple.panic' trivial) fun hpos => ?_
    have hwidth : wrap64 (config.draftTokens + 1) = config.draftTokens + 1 := by
      have hle := config.draftTokens_le
      unfold wrap64 at hpos ⊢
      unfold usizeMax u64Max at hle
      omega
    refine Triple.ite (fun _ => Triple.pure' nofun) fun _ => ?_
    refine Triple.bind ((collect_readsOnly (verifyCandidate_readsOnly config _) _ s).mono (fun _ _ h => h)
      fun _ _ _ => trivial) ?_
    rintro candidates _ rfl
    refine fills (T := fun _ _ _ => True) (fun id c k => ?_) (Nat.div_mul_le_self _ _) ?_ _
    · refine (verifyTokens_length config c).mono ?_ fun _ _ _ => trivial
      rintro tokens _ ⟨rfl, hlen⟩
      exact ⟨rfl, hlen.trans hwidth.symm, fun _ _ => trivial⟩
    · nofun

theorem schedule_fills : Yields Filled (schedule chain) :=
  schedule_yields filled_settled schedulePrefill_fills scheduleVerify_fills scheduleDecode_fills

-- Well-formed batches

/-- A row of `batch` for the request `r` with sequence `q`. -/
structure RowFits (s : ContinuousBatchScheduler) (batch : ScheduledBatch) (row : ScheduledSequence)
    (r : ActiveRequest) (q : SequenceState) : Prop where
  active : s.active[row.requestId]? = some r
  sequence : s.kvCache.sequences[row.requestId]? = some q
  width : row.tokenIds.length = batch.nextN
  start : row.startPosition = q.committedTokens
  context : row.contextLength = row.startPosition + batch.nextN
  table : row.blockTable = q.pages
  pages : divCeil row.contextLength s.kvCache.config.blockSize ≤ row.blockTable.length
  chunk : batch.kind ≠ .verify → row.tokenIds = (r.history.drop row.startPosition).take batch.nextN
  last : batch.kind = .verify → row.tokenIds.head? = r.history.getLast?

/-- What the device is told of every position of row `i`: its token, its causal length,
and the physical page it is on. -/
structure Located (s : ContinuousBatchScheduler) (batch : ScheduledBatch) (i : Nat) (row : ScheduledSequence)
    (q : SequenceState) : Prop where
  token : ∀ offset token, row.tokenIds[offset]? = some token →
    batch.tokenMatrix[i * batch.nextN + offset]? = some token
  length : ∀ lengths, batch.contextLengths = .ok lengths → ∀ offset < batch.nextN,
    lengths[i * batch.nextN + offset]? = some (row.startPosition + offset + 1)
  page : ∀ reserve table stride, batch.flattenedBlockTable reserve = .ok (table, stride) → ∀ offset < batch.nextN,
    ∃ page, q.pages[(row.startPosition + offset) / s.kvCache.config.blockSize]? = some page ∧
      table[i * stride + (row.startPosition + offset) / s.kvCache.config.blockSize]? = some page

structure WellFormed (s : ContinuousBatchScheduler) (batch : ScheduledBatch) : Prop where
  distinct : (batch.sequences.map ScheduledSequence.requestId).Nodup
  width : 1 ≤ batch.nextN
  budget : batch.batchSize * batch.nextN ≤ s.config.maxBatchTokens
  rows : ∀ (i : Nat) row, batch.sequences[i]? = some row → ∃ r q, RowFits s batch row r q ∧ Located s batch i row q
  /-- Lengths are refused only past `u32::MAX`. -/
  lengths : (∃ lengths, batch.contextLengths = .ok lengths) ↔ ∀ row ∈ batch.sequences, row.contextLength ≤ u32Max
  /-- The page table is refused only for its size. -/
  table : ∀ reserve, (∃ table stride, batch.flattenedBlockTable reserve = .ok (table, stride)) ↔
    batch.batchSize * batch.stride ≤ usizeMax ∧ reserve (batch.batchSize * batch.stride) = none

theorem head_eq_take_one {l : List α} {n : Nat} {tokens : List α} (hlen : tokens.length = 1)
    (hhead : tokens.head? = l.getLast?) (hn : n + 1 = l.length) : tokens = (l.drop n).take 1 := by
  obtain ⟨token, rfl⟩ := List.length_eq_one_iff.mp hlen
  have hlast : l[n]? = some token := by
    rw [List.head?_cons, List.getLast?_eq_getElem?, ← hn, Nat.add_sub_cancel] at hhead
    exact hhead.symm
  obtain ⟨hlt, rfl⟩ := List.getElem?_eq_some_iff.mp hlast
  rw [List.drop_eq_getElem_cons hlt, List.take_succ_cons, List.take_zero]

theorem Inv.rowFits (h : Inv (tablesOnly chain) s) (hb : s.inFlight = some batch) (hplan : Planned s₀ batch s)
    (hfill : Filled s batch) (hrow : row ∈ batch.sequences) :
    ∃ r q, RowFits s batch row r q ∧ 0 < batch.nextN := by
  obtain ⟨hok, hwidth⟩ := (h.rows batch hb).2 row hrow
  obtain ⟨res, hres, hid, hstart, hcount⟩ := hok.reserved
  obtain ⟨q, hq, hpending⟩ := h.core.kv.reserved _ res hres
  rw [hid] at hq
  obtain ⟨r, hr⟩ := h.core.domain _ q hq
  obtain ⟨q', hq', -, hpages⟩ := (hplan.rows row hrow).table
  obtain rfl : q = q' := Option.some.inj (hq.symm.trans hq')
  have htokens := hok.tokens r hr
  have hcontext : row.contextLength = row.startPosition + batch.nextN := by rw [hok.context, hwidth]
  have hpos := hpending.pos
  rw [hcount, hwidth] at hpos
  refine ⟨r, q, ⟨hr, hq, hwidth, ?_, hcontext, hpages.symm, ?_, fun hkind => ?_, fun hkind => ?_⟩, hpos⟩
  · rw [← hstart, hpending.start]
  · rw [← hpages, hpending.length, hstart, hcount, hok.context]
  · cases hk : batch.kind with
    | prefill =>
      obtain ⟨r', hr', hchunk⟩ := hfill.chunk hk row hrow
      obtain rfl : r = r' := Option.some.inj (hr.symm.trans hr')
      exact hchunk
    | decode =>
      have hinside := htokens.inside hkind
      obtain ⟨hhead, hlast⟩ := htokens.last (by simp [hk])
      have hone : batch.nextN = 1 := by omega
      rw [hone]
      exact head_eq_take_one (hwidth.trans hone) hhead hlast
    | verify => exact absurd hk hkind
  · exact (htokens.last (by simp [hkind])).1

theorem RowFits.nonempty (h : RowFits s batch row r q) (hpos : 0 < batch.nextN)
    (hblock : 0 < s.kvCache.config.blockSize) : row.blockTable ≠ [] := by
  intro hnil
  have hpages := h.pages
  have hcontext := h.context
  rw [hnil, List.length_nil, divCeil_le_iff hblock, Nat.zero_mul] at hpages
  omega

theorem RowFits.located {i : Nat} (h : RowFits s batch row r q) (hrow : batch.sequences[i]? = some row)
    (hwidths : ∀ row ∈ batch.sequences, row.tokenIds.length = batch.nextN)
    (hblock : 0 < s.kvCache.config.blockSize) (hstride : batch.sequences ≠ [] → 0 < batch.stride) :
    Located s batch i row q := by
  refine ⟨fun _ _ ht => tokenMatrix_get hwidths hrow ht,
    fun lengths hl offset ho => contextLengths_get hl hwidths hrow ho, fun reserve table stride ht offset ho => ?_⟩
  have hcolumn : (row.startPosition + offset) / s.kvCache.config.blockSize < row.blockTable.length := by
    refine lt_of_lt_of_le ?_ h.pages
    rw [lt_divCeil_iff hblock, h.context]
    exact (Nat.div_mul_le_self _ _).trans_lt (by omega)
  have hin : (row.startPosition + offset) / s.kvCache.config.blockSize < stride := by
    obtain ⟨-, -, rfl, -⟩ := (flattenedBlockTable_ok hstride).mp ht
    exact hcolumn.trans_le (le_stride (List.mem_of_getElem? hrow))
  refine ⟨row.blockTable[(row.startPosition + offset) / s.kvCache.config.blockSize], ?_, ?_⟩
  · rw [← h.table, List.getElem?_eq_getElem hcolumn]
  · rw [flattenedBlockTable_get ht hstride hrow hin, List.getD_eq_getElem?_getD, List.getElem?_eq_getElem hcolumn,
      Option.getD_some]

theorem Inv.wellFormed (h : Inv (tablesOnly chain) s) (hb : s.inFlight = some batch) (hplan : Planned s₀ batch s)
    (hfill : Filled s batch) : WellFormed s batch := by
  have hrows := h.rows batch hb
  have hwidths : ∀ row ∈ batch.sequences, row.tokenIds.length = batch.nextN := fun row hrow => (hrows.2 row hrow).2
  have hfits : ∀ row ∈ batch.sequences, ∃ r q, RowFits s batch row r q ∧ 0 < batch.nextN := fun row hrow =>
    h.rowFits hb hplan hfill hrow
  obtain ⟨first, hfirst⟩ := List.exists_mem_of_ne_nil _ hrows.1
  obtain ⟨r₀, q₀, hfit₀, hpos⟩ := hfits first hfirst
  have hblock := h.core.kv.blockSize
  have hstride : batch.sequences ≠ [] → 0 < batch.stride := fun _ =>
    stride_pos hfirst (hfit₀.nonempty hpos hblock)
  refine ⟨?_, hpos, hfill.budget, fun i row hrow => ?_, ?_, fun reserve => ?_⟩
  · have := h.distinct
    rwa [rowIds, hb] at this
  · obtain ⟨r, q, hfit, -⟩ := hfits row (List.mem_of_getElem? hrow)
    exact ⟨r, q, hfit, hfit.located hrow hwidths hblock hstride⟩
  · constructor
    · rintro ⟨lengths, hl⟩ row hrow
      obtain ⟨r, q, hfit, -⟩ := hfits row hrow
      rw [hfit.context, ← hfit.width]
      exact (contextLengths_ok.mp hl).2 row hrow (List.ne_nil_of_length_pos (by rw [hfit.width]; exact hpos))
    · intro hle
      refine ⟨_, contextLengths_ok.mpr ⟨rfl, fun row hrow _ => ?_⟩⟩
      obtain ⟨r, q, hfit, -⟩ := hfits row hrow
      rw [hfit.width, ← hfit.context]
      exact hle row hrow
  · constructor
    · rintro ⟨table, stride, ht⟩
      obtain ⟨hle, hreserve, -⟩ := (flattenedBlockTable_ok hstride).mp ht
      exact ⟨hle, hreserve⟩
    · rintro ⟨hle, hreserve⟩
      obtain ⟨table, hwrites, -⟩ := writeRows_ok batch.stride 0
        (List.replicate (batch.batchSize * batch.stride) 0) (fun row hr => le_stride hr)
        (by rw [Nat.zero_add, List.length_replicate]; rfl)
      exact ⟨table, batch.stride, (flattenedBlockTable_ok hstride).mpr ⟨hle, hreserve, rfl, hwrites⟩⟩

theorem schedule_wellFormed (h : Inv (tablesOnly chain) s) :
    Triple (schedule chain) s (fun o s' => ∀ batch, o = some batch → WellFormed s' batch) (fun _ _ => True) := by
  by_cases hnone : s.inFlight = none
  · have hinv := schedule_ok (G := tablesOnly chain) tablesOnly_kept h (fun _ _ _ _ _ _ => trivial)
      (fun hno => absurd trivial hno) (fun _ _ _ => trivial)
    refine ((hinv.and (schedule_schedules hnone)).and (schedule_fills s)).mono ?_ fun _ _ _ => trivial
    rintro o s' ⟨⟨hinv', hscheduled⟩, hfill⟩ batch rfl
    obtain ⟨hb, hplan⟩ := hscheduled
    exact hinv'.wellFormed hb hplan (hfill batch rfl)
  · obtain ⟨batch, hb⟩ := Option.ne_none_iff_exists'.mp hnone
    exact (schedule_busy hb).mono (fun _ _ hf => hf.elim) fun _ _ _ => trivial

/-- In every state reached without completing a draft by `complete_batch`. -/
theorem batches_well_formed {s' : ContinuousBatchScheduler} (hnew : Constructed s₀)
    (h : Reach (BatchOp.run chain) PlainCompletion s₀ s) (hs : (schedule chain).exec s = (.ok (some batch), s')) :
    WellFormed s' batch :=
  (schedule_wellFormed (Inv.of_plain_run hnew h)).ok hs batch rfl

/-- The second batch of a run that repeats itself is a draft. -/
theorem batches_well_formed_draft : ∃ batch s',
    (schedule flatHash).exec (runAll (BatchOp.run flatHash) (untilDraft.take 4) smallPool) = (.ok (some batch), s') ∧
      WellFormed s' batch := by
  have hs : ((schedule flatHash).exec (runAll (BatchOp.run flatHash) (untilDraft.take 4) smallPool)).1 =
      .ok (some ⟨2, .verify, [⟨1, [5, 5, 5], 2, 5, [0, 1, 2, 3, 4], 2⟩]⟩) := by decide +kernel
  refine ⟨_, _, M.exec_of_fst hs, batches_well_formed smallPool_constructed (Reach.of_allOk ?_ ?_) (M.exec_of_fst hs)⟩
  · simp only [untilDraft, List.take]
    refine ⟨?_, ?_, ?_, ?_, trivial⟩ <;> rintro _ _ ⟨⟩
    decide +kernel
  · decide +kernel

-- A prompt past the `u32` of the device

section
variable {n : Nat} {prompt : List Token}

/-- One page that takes `n` tokens. -/
def wholePage (n : Nat) (h : n + 1 ≤ usizeMax) : PagedKvCacheConfig where
  blockSize := n
  numPages := 1
  maxSequenceLength := n + 1
  blockSize_le := by omega
  numPages_le := one_le_usizeMax
  maxSequenceLength_le := h

def onePool (n : Nat) (h : n + 1 ≤ usizeMax) : ContinuousBatchScheduler :=
  initial ⟨1, n⟩ (PagedKvCacheManager.initial (wholePage n h)) {}

def lonePrompt (prompt : List Token) : PendingRequest :=
  { id := 1, promptTokenIds := prompt, generation := { maxNewTokens := 1, eosTokenIds := [] }, sampled := false }

/-- With the prompt waiting. -/
def queued (prompt : List Token) (h : prompt.length + 1 ≤ usizeMax) : ContinuousBatchScheduler :=
  { onePool prompt.length h with nextRequest := 2, pending := [lonePrompt prompt] }

def emptyTable (n : Nat) (h : n + 1 ≤ usizeMax) : PagedKvCacheManager :=
  (PagedKvCacheManager.initial (wholePage n h)).putSequence 1 emptySequence

/-- With the prompt admitted. -/
def promoted (prompt : List Token) (h : prompt.length + 1 ≤ usizeMax) : ContinuousBatchScheduler :=
  { onePool prompt.length h with
    nextRequest := 2
    kvCache := emptyTable prompt.length h
    active := (∅ : BTreeMap ActiveRequest).insert 1 (activate (lonePrompt prompt) 0)
    nextAdmission := 1 }

/-- The whole prompt as one row. -/
def wholeRow (prompt : List Token) : ScheduledSequence :=
  scheduledSequence (receipt 1 (begun 1 emptySequence prompt.length) emptySequence [0]) prompt

theorem divCeil_self (hpos : 0 < n) : divCeil n n = 1 := by
  have := divCeil_mul (n := 1) hpos
  rwa [Nat.one_mul] at this

theorem create_lone (h : n + 1 ≤ usizeMax) :
    (PagedKvCacheManager.createSequenceWithPrefix chain 1 prompt).exec (PagedKvCacheManager.initial (wholePage n h)) =
      (.ok 0, emptyTable n h) := by
  simp [PagedKvCacheManager.createSequenceWithPrefix, PagedKvCacheManager.createSequence, PagedKvCacheManager.initial,
    PagedKvCacheManager.putSequence, emptySequence, emptyTable]

theorem committed_lone (h : n + 1 ≤ usizeMax) :
    (PagedKvCacheManager.committedTokens 1).exec (emptyTable n h) = (.ok 0, emptyTable n h) := by
  simp [PagedKvCacheManager.committedTokens, emptyTable, PagedKvCacheManager.sequence,
    PagedKvCacheManager.putSequence, emptySequence]

theorem canAppend_lone (h : n + 1 ≤ usizeMax) (hpos : 0 < n) :
    (PagedKvCacheManager.canAppend 1 n).exec (emptyTable n h) = (.ok true, emptyTable n h) := by
  have hsum : checkedAdd 0 n = some n := by
    rw [checkedAdd_of_le (by unfold usizeMax at h; omega), Nat.zero_add]
  simp [PagedKvCacheManager.canAppend, emptyTable, hpos.ne', PagedKvCacheManager.sequence,
    PagedKvCacheManager.putSequence, emptySequence, hsum, PagedKvCacheManager.initial, wholePage, divCeil_self hpos,
    PagedKvCacheManager.availablePages]

theorem beginAppend_lone (h : n + 1 ≤ usizeMax) (hpos : 0 < n) :
    ((PagedKvCacheManager.beginAppend 1 n).exec (emptyTable n h)).1 =
      .ok (receipt 1 (begun 1 emptySequence n) emptySequence [0]) := by
  have hsum : checkedAdd 0 n = some n := by
    rw [checkedAdd_of_le (by unfold usizeMax at h; omega), Nat.zero_add]
  have hnext : checkedAdd 1 1 = some 2 := by decide
  have hpage : popFirst {0} = some (0, ∅) := by decide
  have hfit : ¬n + 1 < n := by omega
  simp [PagedKvCacheManager.beginAppend, emptyTable, hpos.ne', PagedKvCacheManager.sequence,
    PagedKvCacheManager.putSequence, emptySequence, hsum, PagedKvCacheManager.initial, wholePage, divCeil_self hpos,
    PagedKvCacheManager.availablePages, hnext, PagedKvCacheManager.allocatePages, PagedKvCacheManager.allocatePage,
    hpage, hfit, receipt, begun]

theorem submit_lone (h : prompt.length + 1 ≤ usizeMax) (hne : prompt ≠ []) (hpos : ¬∃ id ∈ prompt, id < 0) :
    (submitWithSampler prompt { maxNewTokens := 1, eosTokenIds := [] } false).exec (onePool prompt.length h) =
      (.ok 1, queued prompt h) := by
  have hsum : checkedAdd prompt.length 1 = some (prompt.length + 1) := checkedAdd_of_le h
  have hnext : checkedAdd 1 1 = some 2 := by decide
  simp [queued, submitWithSampler, onePool, wholePage, initial, hne, M.failIf, PagedKvCacheManager.initial,
    divCeil_self (List.length_pos_iff.mpr hne), hsum, hnext, lonePrompt, hpos]

theorem promote_lone (h : prompt.length + 1 ≤ usizeMax) :
    (promotePending chain).exec (queued prompt h) = (.ok (), promoted prompt h) := by
  simp [promotePending, queued, promoted, onePool, initial, availableBudget, promote, admissible, lonePrompt, kv,
    create_lone, putActive, wrap64]

section
variable (h : prompt.length + 1 ≤ usizeMax)

theorem promoted_kvCache : (promoted prompt h).kvCache = emptyTable prompt.length h := rfl

theorem committed_promoted :
    (kv (PagedKvCacheManager.committedTokens 1)).exec (promoted prompt h) = (.ok 0, promoted prompt h) := by
  rw [kv, M.exec_zoom, promoted_kvCache, committed_lone]
  rfl

theorem canAppend_promoted (hne : prompt ≠ []) :
    (kv (PagedKvCacheManager.canAppend 1 prompt.length)).exec (promoted prompt h) = (.ok true, promoted prompt h) := by
  rw [kv, M.exec_zoom, promoted_kvCache, canAppend_lone h (List.length_pos_iff.mpr hne)]
  rfl

theorem begin_promoted (hne : prompt ≠ []) :
    ∃ k, (kv (PagedKvCacheManager.beginAppend 1 prompt.length)).exec (promoted prompt h) =
      (.ok (receipt 1 (begun 1 emptySequence prompt.length) emptySequence [0]), withKv (promoted prompt h) k) := by
  refine ⟨(PagedKvCacheManager.beginAppend 1 prompt.length).next (emptyTable prompt.length h), ?_⟩
  rw [kv, M.exec_zoom, promoted_kvCache, M.exec_of_fst (beginAppend_lone h (List.length_pos_iff.mpr hne))]

theorem chunk_lone : (prefillChunk 1 (activate (lonePrompt prompt) 0)).exec (promoted prompt h) =
    (.ok (0, prompt.length), promoted prompt h) := by
  have hchunk : (promoted prompt h).prefillChunkTokens = none := rfl
  have hmax : (promoted prompt h).config.maxBatchTokens = prompt.length := rfl
  simp [prefillChunk, committed_promoted, activate, lonePrompt, hchunk, hmax]

theorem collect_lone (hne : prompt ≠ []) :
    (collect prefillCandidate (promoted prompt h).active.toList).exec (promoted prompt h) =
      (.ok [(1, (prompt.length, false))], promoted prompt h) := by
  have hlist : (promoted prompt h).active.toList = [(1, activate (lonePrompt prompt) 0)] := rfl
  have hdeferred : (promoted prompt h).deferredPrefill = ∅ := rfl
  have hphase : (activate (lonePrompt prompt) 0).phase = .needsPrefill := rfl
  rw [hlist]
  simp [collect, prefillCandidate, chunk_lone, canAppend_promoted h hne, List.length_pos_iff.mpr hne, hdeferred, hphase]

theorem finish_lone (k : PagedKvCacheManager) :
    ((finishSchedule .prefill [wholeRow prompt]).exec (withKv (promoted prompt h) k)).1 =
      .ok (some ⟨1, .prefill, [wholeRow prompt]⟩) := by
  simp [finishSchedule, promoted, onePool, initial, wholeRow, scheduledSequence, receipt, begun]
  split
  · simp_all [checkedAdd, u64Max]
  · simp [setPhase]

theorem prefill_lone (hne : prompt ≠ []) :
    ∃ s', schedulePrefill.exec (promoted prompt h) = (.ok (some ⟨1, .prefill, [wholeRow prompt]⟩), s') := by
  have hmax : (promoted prompt h).config.maxBatchTokens = prompt.length := rfl
  have hactive : (promoted prompt h).active[1]? = some (activate (lonePrompt prompt) 0) := by simp [promoted]
  have hhistory : (activate (lonePrompt prompt) 0).history = prompt := rfl
  obtain ⟨k, hk⟩ := begin_promoted h hne
  refine ⟨_, M.exec_of_fst ?_⟩
  simp [schedulePrefill, collect_lone h hne, Buckets.push, maxBy, reserveRows,
    Nat.div_self (List.length_pos_iff.mpr hne), canAppend_promoted h hne, hmax, hactive, prefillTokens, chunk_lone,
    M.onError, M.exec_tryCatch, hhistory, hk]
  exact finish_lone h _

theorem schedule_lone (chain : ChainHash) (h : prompt.length + 1 ≤ usizeMax) (hne : prompt ≠ []) :
    ∃ s', (schedule chain).exec (queued prompt h) = (.ok (some ⟨1, .prefill, [wholeRow prompt]⟩), s') := by
  obtain ⟨s₁, hprefill⟩ := prefill_lone h hne
  have hfree : (queued prompt h).inFlight = none := rfl
  have hbatch : (queued prompt h).nextBatch = 1 := rfl
  have hprefer : (promoted prompt h).preferPrefill = true := rfl
  refine ⟨_, M.exec_of_fst ?_⟩
  simp [schedule, hfree, hbatch, M.failIf, u64Max, promote_lone, scheduleLoop, trySchedule, takeTurn, onlyIf, hprefer,
    hprefill]

end

theorem wholePage_new (h : n + 1 ≤ usizeMax) (hpos : 0 < n) :
    PagedKvCacheManager.new (wholePage n h) = .ok (PagedKvCacheManager.initial (wholePage n h)) := by
  have hvalid : (wholePage n h).validate = .ok () := by
    simp [PagedKvCacheConfig.validate, wholePage, hpos.ne', u32Max]
  rw [PagedKvCacheManager.new, hvalid]
  rfl

theorem onePool_constructed (h : n + 1 ≤ usizeMax) (hpos : 0 < n) : Constructed (onePool n h) := by
  have hnew : withOptions ⟨1, n⟩ (wholePage n h) {} = .ok (onePool n h) := by
    have hvalid : ContinuousBatchConfig.validate ⟨1, n⟩ = .ok () := by
      simp [ContinuousBatchConfig.validate, hpos.ne']
    rw [withOptions, hvalid, wholePage_new h hpos]
    rfl
  exact .withOptions hnew

theorem long_prompt_unlocated (h : n + 1 ≤ usizeMax) (hn : prompt.length = n) (hbig : u32Max < n)
    (hpos : ¬∃ id ∈ prompt, id < 0) : ∃ s s' batch,
    Returns (BatchOp.run chain (.submit prompt { maxNewTokens := 1, eosTokenIds := [] } false)) (onePool n h) s ∧
      (schedule chain).exec s = (.ok (some batch), s') ∧ ∀ lengths, batch.contextLengths ≠ .ok lengths := by
  subst hn
  have hne : prompt ≠ [] := List.ne_nil_of_length_pos (by omega)
  obtain ⟨s', hs'⟩ := schedule_lone chain h hne
  have hsubmit : (BatchOp.run chain (.submit prompt { maxNewTokens := 1, eosTokenIds := [] } false)).exec
      (onePool prompt.length h) = (.ok (), queued prompt h) := by
    simp [BatchOp.run, submit_lone h hne hpos]
  refine ⟨_, s', _, Returns.of_ok hsubmit, hs', fun lengths hl => ?_⟩
  have hfit : 0 + prompt.length ≤ u32Max := (contextLengths_ok.mp hl).2 _ (List.mem_singleton_self _) hne
  omega

/-- A prompt of `2^32` tokens has no context lengths; and after a draft was completed as
a plain batch, the next row is no part of the history. -/
theorem batches_ill_formed :
    (Constructed (onePool (2 ^ 32) (by decide)) ∧ ∃ s s' batch,
      Returns (BatchOp.run flatHash (.submit (List.replicate (2 ^ 32) 0) { maxNewTokens := 1, eosTokenIds := [] } false))
        (onePool (2 ^ 32) (by decide)) s ∧
      (schedule flatHash).exec s = (.ok (some batch), s') ∧ ∀ lengths, batch.contextLengths ≠ .ok lengths) ∧
    ∃ s' batch,
      (schedule flatHash).exec (runAll (BatchOp.run flatHash) (untilDraft ++ [.completeBatch 2 [7]]) smallPool) =
        (.ok (some batch), s') ∧ ¬WellFormed s' batch := by
  refine ⟨⟨onePool_constructed _ (by decide), long_prompt_unlocated _ List.length_replicate (by decide) ?_⟩, ?_⟩
  · rintro ⟨id, hmem, hneg⟩
    rw [List.eq_of_mem_replicate hmem] at hneg
    exact absurd hneg (by decide)
  · have hs : ((schedule flatHash).exec (runAll (BatchOp.run flatHash) (untilDraft ++ [.completeBatch 2 [7]])
        smallPool)).1 = .ok (some ⟨3, .decode, [⟨1, [7], 5, 6, [0, 1, 2, 3, 4, 5], 3⟩]⟩) := by decide +kernel
    have hhistory : ((schedule flatHash).next (runAll (BatchOp.run flatHash) (untilDraft ++ [.completeBatch 2 [7]])
        smallPool)).active[1]?.map ActiveRequest.history = some [5, 5, 5, 7] := by decide +kernel
    refine ⟨_, _, M.exec_of_fst hs, fun hwell => ?_⟩
    obtain ⟨r, q, hfit, -⟩ := hwell.rows 0 _ rfl
    rw [hfit.active, Option.map_some] at hhistory
    have hchunk := hfit.chunk (by decide)
    rw [Option.some.inj hhistory] at hchunk
    exact absurd hchunk (by decide)

end

end Ruda.Batch
