import Ruda.Batch.Steps

/-!
# Full-sequence admission never gets stuck

Under `ReserveSequenceCapacity` a request is admitted only when the pages of its
longest run fit beside those of every active request. The budgets are never
allocated as such: pages are taken on demand, prefix pages are shared, and a
draft may reserve past the budget until it is completed. Between batches every
table is within its budget, so some request can always be fed.
-/

namespace Ruda.Batch

open Kv ContinuousBatchScheduler

variable {s s₀ : ContinuousBatchScheduler} {k : PagedKvCacheManager} {chain : ChainHash}
  {id : RequestId} {r : ActiveRequest} {q : SequenceState}

-- Counting pages

/-- Entries of all block tables. -/
def tablePages (k : PagedKvCacheManager) : Nat :=
  BTreeMap.weight (fun q : SequenceState => q.pages.length) k.sequences

theorem referenced_card_le : (referenced (occurrences k) k).card ≤ tablePages k := by
  have hsub : referenced (occurrences k) k ⊆
      (k.sequences.toList.flatMap fun e => e.2.pages).toFinset := by
    intro p hp
    obtain ⟨id, q, hq, hpos⟩ := BTreeMap.exists_of_weight_pos _ (Finset.mem_filter.mp hp).2
    rw [List.mem_toFinset, List.mem_flatMap]
    exact ⟨(id, q), (BTreeMap.mem_toList ..).mpr hq, List.count_pos_iff.mp hpos⟩
  refine (Finset.card_le_card hsub).trans ((List.toFinset_card_le _).trans ?_)
  rw [List.length_flatMap]
  exact le_rfl

theorem occurrences_le_tablePages (p : KvPageId) : occurrences k p ≤ tablePages k :=
  BTreeMap.weight_mono _ fun _ _ _ => List.count_le_length

/-- Accounting without panics, for pools within the `u32` range of counts. -/
def accounted (chain : ChainHash) : Guarantee where
  chain
  kv := fun k => Kv.Inv k ∧ k.config.numPages ≤ u32Max
  panics := False
  leaks := False
  policy := (· = .reserveSequenceCapacity)
  room := fun k tokens => ∀ p, k.pageRefs p + (cachedPages chain k tokens).1.count p ≤ u32Max
  request := fun _ _ _ _ => True
  result := fun _ => True

theorem accounted_kept : (accounted chain).Kept where
  tables := fun _ h => h.1.seq
  ops := fun k op h hroom => by
    have hfit : op.RefsFit chain k := by
      cases op with
      | createSequenceWithPrefix id tokens => exact fun _ => hroom id tokens rfl
      | _ => trivial
    refine (op.run_ok h.1 hfit).mono (fun _ k' h' => ⟨h'.1, ?_⟩) fun _ _ h' hpanic => h'.1 hpanic
    rw [h'.2]
    exact h.2

-- Tables and budgets

theorem Core.within_budget {b : Nat} (h : Core (accounted chain) b [] s)
    (hidle : Idle (accounted chain) [] s.kvCache) (hr : s.active[id]? = some r)
    (hq : s.kvCache.sequences[id]? = some q) :
    q.pending = none ∧ q.committedTokens < r.history.length ∧
      r.history.length ≤ r.promptTokenIds.length + (r.generation.maxNewTokens - 1) ∧
      q.pages.length ≤ budgetOf s.kvCache.config.blockSize r := by
  have hpending : q.pending = none := by
    by_contra hne
    cases hidle not_false id q hq hne
  have hrun := h.running id r hr
  have hlen : r.history.length ≤ r.promptTokenIds.length + (r.generation.maxNewTokens - 1) := by
    rw [hrun.history, List.length_append]
    have := hrun.more
    omega
  have hlt : q.committedTokens < r.history.length := by
    obtain ⟨q', hq', hp⟩ := h.phases id r hr
    obtain rfl : q = q' := by simpa [hq] using hq'
    unfold PhaseOk at hp
    split at hp
    · exact hp
    · omega
    · cases hp.2
  refine ⟨hpending, hlt, hlen, ?_⟩
  rw [h.kv.1.seq.settled id q hq hpending]
  exact divCeil_mono h.kv.1.seq.blockSize (hlt.le.trans hlen)

theorem Core.tablePages_le {b : Nat} (h : Core (accounted chain) b [] s)
    (hidle : Idle (accounted chain) [] s.kvCache) :
    tablePages s.kvCache ≤ s.active.weight (budgetOf s.kvCache.config.blockSize) :=
  BTreeMap.weight_le_weight _ fun id q hq => by
    obtain ⟨r, hr⟩ := h.domain id q hq
    exact ⟨r, hr, (h.within_budget hidle hr hq).2.2.2⟩

theorem Core.tablePages_add_le {b : Nat} (h : Core (accounted chain) b [] s)
    (hidle : Idle (accounted chain) [] s.kvCache) (hr : s.active[id]? = some r)
    (hq : s.kvCache.sequences[id]? = some q) :
    tablePages s.kvCache + budgetOf s.kvCache.config.blockSize r ≤
      s.active.weight (budgetOf s.kvCache.config.blockSize) + q.pages.length := by
  have hothers : BTreeMap.weight (fun q : SequenceState => q.pages.length)
      (s.kvCache.sequences.erase id) ≤
      BTreeMap.weight (budgetOf s.kvCache.config.blockSize) (s.active.erase id) := by
    refine BTreeMap.weight_le_weight _ fun j q' hq' => ?_
    rw [BTreeMap.get_erase] at hq'
    split at hq'
    · cases hq'
    next hj =>
    obtain ⟨r', hr'⟩ := h.domain j q' hq'
    exact ⟨r', by rw [BTreeMap.get_erase, if_neg hj, hr'], (h.within_budget hidle hr' hq').2.2.2⟩
  rw [tablePages, BTreeMap.weight_erase _ hq, BTreeMap.weight_erase _ hr]
  omega

theorem roomFor_accounted : RoomFor (accounted chain) s := by
  intro s₁ p hcore hidle _ hpay page
  have hbs := hcore.kv.1.seq.blockSize
  have hlookup : (cachedPages chain s₁.kvCache p.promptTokenIds).1.count page ≤
      requestPageBudget p.promptTokenIds.length p.generation s₁.kvCache.config.blockSize := by
    refine List.count_le_length.trans ((cachedPrefix_length_le ..).trans ?_)
    unfold usableBlocks requestPageBudget
    split
    · refine (div_le_divCeil hbs).trans (divCeil_mono hbs ?_)
      omega
    · exact Nat.zero_le _
  have hrefs : s₁.kvCache.pageRefs page ≤ s₁.active.weight (budgetOf s₁.kvCache.config.blockSize) := by
    rw [hcore.kv.1.pages.refs]
    exact (occurrences_le_tablePages page).trans (hcore.tablePages_le hidle)
  have := hpay hcore.setup.meant
  have := hcore.kv.2
  omega

theorem Core.canAppend {b n : Nat} (h : Core (accounted chain) b [] s)
    (hidle : Idle (accounted chain) [] s.kvCache) (hr : s.active[id]? = some r)
    (hq : s.kvCache.sequences[id]? = some q) (hpos : 0 < n)
    (hn : q.committedTokens + n ≤ r.history.length) : CanAppend s.kvCache id n q := by
  obtain ⟨hpending, -, hlen, -⟩ := h.within_budget hidle hr hq
  have hrun := h.running id r hr
  refine ⟨hq, hpending, hpos, ?_, ?_⟩
  · have := hrun.fits
    have := hrun.more
    omega
  · have hneed : divCeil (q.committedTokens + n) s.kvCache.config.blockSize ≤
        budgetOf s.kvCache.config.blockSize r :=
      divCeil_mono h.kv.1.seq.blockSize (hn.trans hlen)
    have hfree := h.kv.1.pages.available
    have hused := referenced_card_le (k := s.kvCache)
    have hshare := h.tablePages_add_le hidle hr hq
    have hpool := h.budgets h.setup.meant
    unfold newPages
    omega

theorem Ready.not_stuck (h : Ready (accounted chain) s) (hsome : 0 < s.active.size) : ¬Stuck s := by
  intro hstuck
  obtain ⟨⟨id, r⟩, hm⟩ : ∃ e, e ∈ s.active.toList :=
    List.exists_mem_of_length_pos (by simpa using hsome)
  have hr := (BTreeMap.mem_toList ..).mp hm
  obtain ⟨q, hq, hp⟩ := h.core.phases id r hr
  obtain ⟨-, hlt, -, -⟩ := h.core.within_budget h.idle hr hq
  cases hphase : r.phase with
  | needsPrefill =>
    have hwhole := (h.core.setup.whole h.core.setup.meant).2
    have hchunk : 0 < chunkLength s r q.committedTokens := by
      have := h.core.maxTokens
      simp only [chunkLength, hwhole, Option.getD_none]
      omega
    have hle := chunkLength_le s r q.committedTokens
    refine hstuck.prefill id r hr _ q ⟨hphase, ?_, rfl,
      h.core.canAppend h.idle hr hq hchunk (by omega)⟩
    simp [h.core.setup.deferred]
  | awaitingDecode token =>
    exact hstuck.decode id r token hr hphase q (h.core.canAppend h.idle hr hq Nat.one_pos hlt)
  | inFlight b =>
    simp only [PhaseOk, hphase] at hp
    cases hp.2

-- Runs

/-- Neither a verify batch completed as a plain one, nor a draft length whose row
width wraps to zero, nor reservation ids about to run out. -/
def Serviceable (s : ContinuousBatchScheduler) : BatchOp → Prop
  | .completeBatch batchId _ => PlainBatch s batchId
  | .schedule => (∀ config, s.speculative = some config → config.draftTokens < usizeMax) ∧
      s.kvCache.nextReservation + (s.active.size + s.pending.length) < u64Max
  | _ => True

instance (s : ContinuousBatchScheduler) : (op : BatchOp) → Decidable (Serviceable s op)
  | .completeBatch batchId _ => inferInstanceAs (Decidable (PlainBatch s batchId))
  | .schedule => inferInstanceAs (Decidable (
      (∀ config ∈ s.speculative, config.draftTokens < usizeMax) ∧
        s.kvCache.nextReservation + (s.active.size + s.pending.length) < u64Max))
  | .submit .. | .completeVerifyBatch .. | .failBatch _ | .cancel _ | .setBatchTokenLimit _
  | .setSpeculativeDecoding _ | .setPrefixCaching _ | .popFinished => inferInstanceAs (Decidable True)

/-- What full-sequence admission promises of a state. -/
structure Progressing (chain : ChainHash) (s : ContinuousBatchScheduler) : Prop where
  schedules : s.inFlight = none → s.nextBatch < u64Max → 0 < s.active.size + s.pending.length →
    Serviceable s .schedule →
    ∃ batch s', (schedule chain).exec s = (.ok (some batch), s') ∧ batch.sequences ≠ []
  affordable : s.availableBudget ≠ none
  pool : (s.active.toList.map fun e => requestPageBudget e.2.promptTokenIds.length e.2.generation
    s.kvCache.config.blockSize).sum ≤ s.kvCache.config.numPages
  tables : s.inFlight = none → ∀ (id : Nat) r, s.active[id]? = some r →
    ∃ q, s.kvCache.sequences[id]? = some q ∧ q.pages.length ≤
      requestPageBudget r.promptTokenIds.length r.generation s.kvCache.config.blockSize

theorem settles_accounted {last : Token} : Settles (accounted chain) id r last := by
  unfold Settles
  split <;> trivial

theorem Serviceable.allowed {op : BatchOp} (h : Serviceable s op) :
    op.Allowed (accounted chain) s := by
  cases op with
  | submit => exact ⟨fun _ => trivial, fun _ => trivial⟩
  | schedule =>
    refine ⟨roomFor_accounted, fun _ => h.2, fun config hc hmax => ?_⟩
    exact absurd hmax (h.1 config hc).ne
  | completeBatch batchId tokens => exact ⟨h, fun _ _ _ _ _ _ _ _ => settles_accounted⟩
  | completeVerifyBatch => exact fun _ _ _ _ _ _ _ _ _ _ _ _ _ => settles_accounted
  | _ => trivial

theorem schedule_progress (h : Inv (accounted chain) s) (hnone : s.inFlight = none)
    (hbatch : s.nextBatch < u64Max) (hsome : 0 < s.active.size + s.pending.length)
    (hok : Serviceable s .schedule) :
    Triple (schedule chain) s (fun found _ => ∃ batch, found = some batch ∧ batch.sequences ≠ [])
      (fun _ _ => False) := by
  have hcall : BatchOp.Allowed (accounted chain) s .schedule := hok.allowed
  obtain ⟨hcore, hidle⟩ := h.none hnone
  have hready : Ready (accounted chain) s := ⟨hcore, hidle, hnone, hbatch⟩
  have hnofault : ∀ {σ : Type} {P : σ → Prop} {f : Fault} {t : σ}, Fails (accounted chain) P f t →
      (P t → False) → False := by
    rintro σ P f t (⟨-, hp⟩ | ⟨-, hp⟩) hno
    · exact hp
    · exact hno hp
  unfold schedule
  refine Triple.get_bind ?_
  rw [hnone]
  refine Triple.failIf_bind (fun hmax => absurd hmax hbatch.ne) fun _ => ?_
  refine Triple.bind ((promotePending_ok accounted_kept hready hcall.1).mono (fun _ _ h => h)
    fun _ _ hf => hnofault hf id) ?_
  rintro _ s₁ ⟨hready₁, hadm, hfirst⟩
  have hactive : 0 < s₁.active.size := by
    rcases Nat.eq_zero_or_pos s.active.size with hzero | hpos
    · obtain ⟨p, hp⟩ := List.exists_mem_of_length_pos (show 0 < s.pending.length by omega)
      refine hfirst hzero ⟨p, hp, ?_⟩
      simp [admissible, hcore.setup.deferred, hcore.setup.ceiling]
    · exact hpos.trans_le hadm.grows
  have hspec : ∀ config, s₁.speculative = some config → config.draftTokens = usizeMax → False :=
    fun config hc hmax => hcall.2.2 config (hadm.speculative ▸ hc) hmax
  refine Triple.get_bind ?_
  unfold scheduleLoop
  refine Triple.bind ((trySchedule_ok accounted_kept hready₁ (hadm.idsLeft hcall.2.1) hspec).mono
    (fun _ _ h => h) fun _ _ hf => hnofault hf And.right) ?_
  rintro (_ | batch) s₂ hp
  · exact absurd hp.2 (hready₁.not_stuck hactive)
  · exact Triple.modify_bind (Triple.pure' ⟨batch, rfl, hp.1⟩)

theorem Inv.progressing (h : Inv (accounted chain) s) : Progressing chain s where
  schedules := fun hnone hbatch hsome hok => by
    obtain ⟨found, s', hexec, batch, rfl, hne⟩ :=
      (schedule_progress h hnone hbatch hsome hok).exists_ok
    exact ⟨batch, s', hexec, hne⟩
  affordable := by
    have hpol : s.options.kvAdmission = .reserveSequenceCapacity := h.core.setup.meant
    simp only [availableBudget, hpol]
    rw [subtractBudgets_eq (h.core.budgets hpol)]
    simp
  pool := h.core.budgets h.core.setup.meant
  tables := fun hnone id r hr => by
    obtain ⟨hcore, hidle⟩ := h.none hnone
    obtain ⟨q, hq, -⟩ := hcore.phases id r hr
    exact ⟨q, hq, (hcore.within_budget hidle hr hq).2.2.2⟩

def reservedPool : ContinuousBatchScheduler :=
  initial ⟨1, 4⟩ (PagedKvCacheManager.initial ⟨1, 8, 8, one_le_usizeMax, eight_le_usizeMax, eight_le_usizeMax⟩)
    { kvAdmission := .reserveSequenceCapacity }

theorem reservedPool_new : withOptions ⟨1, 4⟩ { blockSize := 1, numPages := 8, maxSequenceLength := 8 }
    { kvAdmission := .reserveSequenceCapacity } = .ok reservedPool := rfl

/-- A prompt that repeats itself is prefilled and its draft scheduled. -/
def draftCalls : List BatchOp :=
  [.setSpeculativeDecoding (some ⟨2, 1, two_le_usizeMax, one_le_usizeMax⟩),
    .submit [5, 5] { maxNewTokens := 3, eosTokenIds := [] } false, .schedule, .completeBatch 1 [5],
    .schedule]

/-- The pool after the draft is verified, which finishes the request. -/
def finishedPool : ContinuousBatchScheduler :=
  runAll (BatchOp.run fun _ _ => 0) (draftCalls ++ [.completeVerifyBatch 2 [5, 7, 7]]) reservedPool

end Ruda.Batch
