import Ruda.Batch.Steps

/-!
# The cache holds a prefix of every history

Whatever is called in whatever order, the KV sequence of an active request holds
a prefix of its history, phases say how much is missing, and a request is in
flight exactly when it is a row of the batch in flight. The one exception is
`complete_batch` on a verify batch: it commits the draft tokens of every row and
appends a single generated token.
-/

namespace Ruda.Batch

open Kv ContinuousBatchScheduler

variable {s s₀ : ContinuousBatchScheduler} {chain : ChainHash} {id : RequestId} {r : ActiveRequest}

/-- Requests and KV sequences agree. -/
structure HistoryKept (s : ContinuousBatchScheduler) : Prop where
  history : ∀ (id : Nat) r, s.active[id]? = some r → r.history = r.promptTokenIds ++ r.generatedTokenIds
  committed : ∀ (id : Nat) r, s.active[id]? = some r →
    ∃ q, s.kvCache.sequences[id]? = some q ∧ q.committedTokens ≤ r.history.length ∧
      ∀ token, r.phase = .awaitingDecode token →
        r.history.getLast? = some token ∧ q.committedTokens = r.history.length - 1
  inFlight : ∀ (id : Nat) r, s.active[id]? = some r → ∀ b, r.phase = .inFlight b ↔
    ∃ batch, s.inFlight = some batch ∧ batch.id = b ∧ ∃ row ∈ batch.sequences, row.requestId = id
  domain : ∀ (id : Nat) q, s.kvCache.sequences[id]? = some q → ∃ r, s.active[id]? = some r

/-- Well-formed block tables, with nothing asked of the calls. -/
def tablesOnly (chain : ChainHash) : Guarantee where
  chain
  kv := SeqOk
  panics := True
  leaks := True
  policy := fun _ => True
  room := fun _ _ => True
  request := fun _ _ _ _ => True
  result := fun _ => True

theorem tablesOnly_kept : (tablesOnly chain).Kept where
  tables := fun _ h => h
  ops := fun _ op h _ => (op.run_seqOk h).mono (fun _ _ h => h) fun _ _ _ _ => trivial

/-- `complete_batch` is only called on prefill and decode batches. -/
def PlainCompletion (s : ContinuousBatchScheduler) (op : BatchOp) : Prop :=
  ∀ batchId tokens, op = .completeBatch batchId tokens → PlainBatch s batchId

theorem settles_tablesOnly {last : Token} : Settles (tablesOnly chain) id r last := by
  unfold Settles
  split <;> trivial

theorem PlainCompletion.allowed {op : BatchOp} (h : PlainCompletion s op) :
    op.Allowed (tablesOnly chain) s := by
  cases op with
  | submit => exact ⟨fun _ => trivial, fun _ => trivial⟩
  | schedule => exact ⟨fun _ _ _ _ _ _ => trivial, fun hno => absurd trivial hno, fun _ _ _ => trivial⟩
  | completeBatch batchId tokens => exact ⟨h _ _ rfl, fun _ _ _ _ _ _ _ _ => settles_tablesOnly⟩
  | completeVerifyBatch => exact fun _ _ _ _ _ _ _ _ _ _ _ _ _ => settles_tablesOnly
  | _ => trivial

theorem RowOk.committed_le {kind : ScheduledBatchKind} {row : ScheduledSequence} {q : SequenceState}
    (h : RowOk kind s row) (hk : SeqOk s.kvCache) (hr : s.active[row.requestId]? = some r)
    (hq : s.kvCache.sequences[row.requestId]? = some q) : q.committedTokens ≤ r.history.length := by
  obtain ⟨res, hres, hid, hstart, -⟩ := h.reserved
  obtain ⟨q', hq', hok⟩ := hk.reserved _ res hres
  obtain rfl : q' = q := by
    rw [hid, hq] at hq'
    exact (Option.some.inj hq').symm
  have htokens := h.tokens r hr
  have hcontext := h.context
  have hcommitted := hok.start
  by_cases hkind : kind = .verify
  · have hlast := (htokens.last (by simp [hkind])).2
    omega
  · have hinside := htokens.inside hkind
    omega

theorem Inv.historyKept (h : Inv (tablesOnly chain) s) : HistoryKept s where
  history := fun id r hr => (h.core.running id r hr).history
  committed := fun id r hr => by
    obtain ⟨q, hq, hp⟩ := h.core.phases id r hr
    refine ⟨q, hq, ?_, fun token ht => ?_⟩
    · unfold PhaseOk at hp
      split at hp
      · exact hp.le
      · omega
      · obtain ⟨-, hin⟩ := hp
        cases hb : s.inFlight with
        | none => simp [rowIds, hb] at hin
        | some batch =>
          simp only [rowIds, hb, Option.elim_some] at hin
          obtain ⟨row, hrow, rfl⟩ := List.mem_map.mp hin
          exact ((h.rows batch hb).2 row hrow).1.committed_le h.core.kv hr hq
    · simp only [PhaseOk, ht] at hp
      exact ⟨hp.1, by omega⟩
  inFlight := fun id r hr b => by
    obtain ⟨q, hq, hp⟩ := h.core.phases id r hr
    constructor
    · intro hphase
      simp only [PhaseOk, hphase] at hp
      obtain ⟨rfl, hin⟩ := hp
      cases hb : s.inFlight with
      | none => simp [rowIds, hb] at hin
      | some batch =>
        simp only [rowIds, hb, Option.elim_some] at hin
        exact ⟨batch, rfl, by simp [batchId, hb], List.mem_map.mp hin⟩
    · rintro ⟨batch, hb, rfl, row, hrow, rfl⟩
      obtain ⟨r', hr', hphase⟩ := h.core.rows row.requestId (by
        simp only [rowIds, hb, Option.elim_some]
        exact List.mem_map_of_mem hrow)
      obtain rfl : r = r' := by simpa [hr] using hr'
      simpa [batchId, hb] using hphase
  domain := h.core.domain

theorem Inv.of_plain_run (hnew : Constructed s₀) (h : Reach (BatchOp.run chain) PlainCompletion s₀ s) :
    Inv (tablesOnly chain) s := by
  refine h.inv (hnew.inv (fun _ => trivial) fun config hbs _ => SeqOk.initial hbs) fun s op hinv hok => ?_
  refine (BatchOp.run_ok tablesOnly_kept op hinv hok.allowed).mono (fun _ _ h => h) ?_
  exact fun f s' hf => hf.imp And.left And.right

/-- KV sequences hold a prefix of the histories in every state reached. -/
theorem kv_holds_history (hnew : Constructed s₀)
    (h : Reach (BatchOp.run chain) PlainCompletion s₀ s) : HistoryKept s :=
  (Inv.of_plain_run hnew h).historyKept

/-- One request at a time, four tokens a batch, eight pages of one token. -/
def smallPool : ContinuousBatchScheduler :=
  initial ⟨1, 4⟩ (PagedKvCacheManager.initial ⟨1, 8, 8, one_le_usizeMax, eight_le_usizeMax, eight_le_usizeMax⟩) {}

theorem smallPool_constructed : Constructed smallPool :=
  have h : withOptions ⟨1, 4⟩ { blockSize := 1, numPages := 8, maxSequenceLength := 8 } {} =
    .ok smallPool := rfl
  .withOptions h

/-- A prompt that repeats itself, prefilled, so that the next batch is a draft. -/
def untilDraft : List BatchOp :=
  [.setSpeculativeDecoding (some ⟨2, 1, two_le_usizeMax, one_le_usizeMax⟩),
    .submit [5, 5] { maxNewTokens := 3, eosTokenIds := [] } false, .schedule, .completeBatch 1 [5],
    .schedule]

def flatHash : ChainHash := fun _ _ => 0

theorem kv_holds_history_draft :
    HistoryKept (runAll (BatchOp.run flatHash) (untilDraft ++ [.completeVerifyBatch 2 [5, 7, 7]])
      smallPool) := by
  refine @kv_holds_history _ _ flatHash smallPool_constructed (Reach.of_allOk ?_ ?_)
  · simp only [untilDraft, List.cons_append]
    refine ⟨?_, ?_, ?_, ?_, ?_, ?_, trivial⟩ <;> rintro _ _ ⟨⟩
    decide +kernel
  · decide +kernel

/-- `complete_batch` on the draft commits five tokens of a history of four. -/
theorem kv_past_history :
    ∃ s₀ s, Constructed s₀ ∧ Reach (BatchOp.run flatHash) (fun _ _ => True) s₀ s ∧ ¬HistoryKept s := by
  refine ⟨smallPool, runAll (BatchOp.run flatHash) (untilDraft ++ [.completeBatch 2 [7]]) smallPool,
    smallPool_constructed, Reach.of_allOk ?_ ?_, fun h => ?_⟩
  · simp [allMeet, untilDraft]
  · decide +kernel
  · have hlong : ((runAll (BatchOp.run flatHash) (untilDraft ++ [.completeBatch 2 [7]])
        smallPool).active[1]?.map fun r => r.history.length) = some 4 := by decide +kernel
    have hmany : ((runAll (BatchOp.run flatHash) (untilDraft ++ [.completeBatch 2 [7]])
        smallPool).kvCache.sequences[1]?.map fun q => q.committedTokens) = some 5 := by decide +kernel
    obtain ⟨r, hr, hlen⟩ := Option.map_eq_some_iff.mp hlong
    obtain ⟨q, hq, hcommitted⟩ := Option.map_eq_some_iff.mp hmany
    obtain ⟨q', hq', hle, -⟩ := h.committed 1 r hr
    obtain rfl : q = q' := by simpa [hq] using hq'
    omega

end Ruda.Batch
