import Ruda.Batch.Invariant

/-!
# Completing and failing a batch

Both completions and the failure of a batch take the rows one by one. Each row
turns `Core` for it and the rows after it into `Core` for the rows after it.
-/

namespace Ruda.Batch

open Kv ContinuousBatchScheduler

variable {G : Guarantee} {s s' : ContinuousBatchScheduler} {k k' : PagedKvCacheManager}
  {id : RequestId} {r r' : ActiveRequest} {q : SequenceState} {b : Nat} {ids : List RequestId}
  {row : ScheduledSequence} {kind : ScheduledBatchKind}

/-- Only request `id` and its sequence changed. -/
structure Frame (id : RequestId) (s s' : ContinuousBatchScheduler) : Prop where
  active : ∀ j : Nat, j ≠ id → s'.active[j]? = s.active[j]?
  sequences : ∀ j : Nat, j ≠ id → s'.kvCache.sequences[j]? = s.kvCache.sequences[j]?
  inFlight : s'.inFlight = s.inFlight

theorem Frame.put : Frame id s (s.putActive id r) :=
  ⟨fun j hj => by rw [putActive_get, if_neg hj], fun _ _ => rfl, rfl⟩

/-- `r`, already extended up to `last`, counts as a result if it stops there and
goes on as a request otherwise. -/
def Settles (G : Guarantee) (id : RequestId) (r : ActiveRequest) (last : Token) : Prop :=
  if last ∈ r.eos ∨ r.generation.maxNewTokens ≤ r.generatedTokenIds.length then
    G.result { requestId := id, promptTokenIds := r.promptTokenIds,
               generatedTokenIds := r.generatedTokenIds, stoppedOnEos := last ∈ r.eos }
  else G.request id r.promptTokenIds r.generation r.generatedTokenIds

/-- `r'` is `r` with more tokens generated, the last one `last`. -/
structure Extends (r r' : ActiveRequest) (last : Token) : Prop where
  prompt : r'.promptTokenIds = r.promptTokenIds
  generation : r'.generation = r.generation
  eos : r'.eos = r.eos
  history : r'.history = r'.promptTokenIds ++ r'.generatedTokenIds
  last : r'.history.getLast? = some last

theorem extendRequest_extends {tokens : List Token} {last : Token}
    (hr : r.history = r.promptTokenIds ++ r.generatedTokenIds) (hlast : tokens.getLast? = some last) :
    Extends r (extendRequest r tokens) last where
  prompt := rfl
  generation := rfl
  eos := rfl
  history := by simp only [extendRequest, hr, List.append_assoc]
  last := by simp only [extendRequest, List.getLast?_append, hlast, Option.some_or]

theorem settleRequest_ok {last : Token} (hG : G.Kept) (hcore : Core G b (id :: ids) s)
    (hnew : id ∉ ids) (hr : s.active[id]? = some r) (hq : s.kvCache.sequences[id]? = some q)
    (hp : q.pending = none) (hext : Extends r r' last) (hset : Settles G id r' last)
    (hlen : q.committedTokens + 1 = r'.history.length) :
    Triple (settleRequest id r' last) s
      (fun _ s' => Core G b ids s' ∧ Frame id s s' ∧
        s'.kvCache.reservations = s.kvCache.reservations ∧
        ∀ q, s'.kvCache.sequences[id]? = some q → q.pending = none)
      (Fails G fun _ => False) := by
  have hrun := hcore.running id r hr
  unfold Settles at hset
  unfold settleRequest
  refine Triple.ite (fun hstop => ?_) fun hgo => ?_
  · rw [if_pos hstop] at hset
    have hremove : Triple (PagedKvCacheManager.removeSequence id) s.kvCache
        (fun _ k => Put s.kvCache id none k ∧ G.kv k) (Fails G fun _ => False) := by
      refine Guarantee.Kept.call (hG.ops _ (.removeSequence id) hcore.kv nofun)
        (removeSequence_effect.mono (fun _ _ h => h.2) ?_)
      rintro f k (hf | ⟨-, hno⟩)
      · exact .inl hf
      · exact absurd hp (hno q hq)
    refine Triple.modify_bind (Triple.bind (Q := fun _ s₁ => Core G b ids s₁ ∧ Frame id s s₁ ∧
      s₁.nextRequest = s.nextRequest ∧ s₁.kvCache.reservations = s.kvCache.reservations ∧ s₁.kvCache.sequences[id]? = none)
      (Triple.zoom (hremove.mono ?_ fun _ _ h => h)) ?_)
    · rintro _ k ⟨hput, hk⟩
      refine ⟨hcore.drop hr hk hput ?_ ?_, ⟨fun j hj => ?_, fun j hj => hput.other hj, rfl⟩,
        rfl, hput.reservations, hput.self⟩
      · exact fun j hj => ⟨List.mem_cons_of_mem _ hj, fun he => hnew (he ▸ hj)⟩
      · exact fun j hj hm => (List.mem_cons.mp hm).resolve_left hj
      · rw [BTreeMap.get_erase, if_neg hj]
    · rintro _ s₁ ⟨h₁, hframe, hnext, hres, hnone⟩
      refine Triple.modify' ⟨h₁.addFinished (hnext ▸ hrun.fresh) hset, ⟨hframe.active, hframe.sequences,
        hframe.inFlight⟩, hres, fun q' hq' => ?_⟩
      simp [hnone] at hq'
  · rw [if_neg hgo] at hset
    simp only [not_or, not_le] at hgo
    refine Triple.modify' ⟨?_, Frame.put, rfl, fun q' hq' => ?_⟩
    · refine hcore.put hr ⟨hrun.fresh, ?_, hext.history, hgo.2, ?_, ?_, hset⟩ ?_ hq
        ⟨hext.last, hlen⟩ ?_ fun hm => absurd hm hnew
      · exact hext.prompt ▸ hrun.prompt
      · simp only [hext.prompt, hext.generation]
        exact hrun.fits
      · simp only [hext.eos, hext.generation]
        exact hrun.eos
      · simp only [budgetOf, hext.prompt, hext.generation]
      · exact fun j hj => ⟨List.mem_cons_of_mem _, fun hm => (List.mem_cons.mp hm).resolve_left hj⟩
    · obtain rfl : q' = q := by simpa [putActive, hq] using hq'.symm
      exact hp

-- Taking the batch in flight

theorem takeBatch_rule {batchId : Nat} {Q : ScheduledBatch → ContinuousBatchScheduler → Prop}
    {E : Fault → ContinuousBatchScheduler → Prop} (herr : ∀ msg, E (.error msg) s)
    (hok : ∀ batch, s.inFlight = some batch → batch.id = batchId → Q batch { s with inFlight := none }) :
    Triple (takeBatch batchId) s Q E := by
  unfold takeBatch
  refine Triple.get_bind (Triple.need_bind (fun _ => herr _) fun batch hbatch => ?_)
  refine Triple.failIf_bind (fun _ => herr _) fun hid => ?_
  exact Triple.set_bind (Triple.pure' (hok batch hbatch (not_not.mp hid)))

theorem restore_take {batch : ScheduledBatch} (h : s.inFlight = some batch) :
    ({ s with inFlight := some batch } : ContinuousBatchScheduler) = s := by
  rw [← h]

theorem restore_fail {batch : ScheduledBatch} {msg : String} {Q : α → ContinuousBatchScheduler → Prop}
    (h : s.inFlight = some batch) (hinv : Inv G s) :
    Triple (do restore batch; M.fail msg) { s with inFlight := none } Q (Fails G (Inv G)) := by
  refine Triple.modify_bind (Triple.fail' (Fails.error ?_))
  rw [restore_take h]
  exact hinv

theorem kv_or_restore {batch : ScheduledBatch} {m : KvM α} {Q : α → PagedKvCacheManager → Prop}
    (hb : s.inFlight = some batch) (h : Inv G s)
    (hm : Triple m s.kvCache Q (Fails G fun k => k = s.kvCache)) :
    Triple ((kv m).onError (restore batch)) { s with inFlight := none }
      (fun a s' => ∃ k, s' = { s with inFlight := none, kvCache := k } ∧ Q a k)
      (Fails G (Inv G)) := by
  refine kv_onError (s := { s with inFlight := none }) hm ?_
  rintro _ rfl
  refine Triple.modify' ?_
  rw [restore_take hb]
  exact h

-- Row by row

/-- `rows` are the rows of batch `b` still to be settled, all of them `Ready`. -/
structure Remaining (G : Guarantee) (b : Nat) (idOf : ρ → RequestId)
    (Ready : ContinuousBatchScheduler → ρ → Prop) (rows : List ρ) (s : ContinuousBatchScheduler) :
    Prop where
  core : Core G b (rows.map idOf) s
  idle : Idle G (rows.map idOf) s.kvCache
  distinct : (rows.map idOf).Nodup
  free : s.inFlight = none
  ready : ∀ e ∈ rows, Ready s e

theorem Remaining.step {idOf : ρ → RequestId} {Ready : ContinuousBatchScheduler → ρ → Prop}
    {e : ρ} {rows : List ρ} (h : Remaining G b idOf Ready (e :: rows) s)
    (hcore : Core G b (rows.map idOf) s') (hf : Frame (idOf e) s s')
    (hself : ∀ q, s'.kvCache.sequences[idOf e]? = some q → q.pending = none)
    (hready : ∀ e' ∈ rows, idOf e' ≠ idOf e → Ready s e' → Ready s' e') :
    Remaining G b idOf Ready rows s' := by
  obtain ⟨hnot, hnd⟩ := List.nodup_cons.mp h.distinct
  refine ⟨hcore, h.idle.step hf.sequences hself ?_, hnd,
    hf.inFlight.trans h.free, fun e' he' => ?_⟩
  · exact fun j hj hne => (List.mem_cons.mp hj).resolve_left hne
  · exact hready e' he' (fun heq => hnot (List.mem_map.mpr ⟨e', he', heq⟩))
      (h.ready e' (List.mem_cons_of_mem _ he'))

theorem Remaining.done {idOf : ρ → RequestId} {Ready : ContinuousBatchScheduler → ρ → Prop}
    (h : Remaining G b idOf Ready [] s) : Inv G s :=
  Inv.of_none h.free h.core h.idle

-- Tokens for every row

/-- Row `row` is committed and may get `token`. -/
structure Fed (G : Guarantee) (s : ContinuousBatchScheduler) (row : ScheduledSequence) (token : Token)
    (r : ActiveRequest) (q : SequenceState) : Prop where
  active : s.active[row.requestId]? = some r
  sequence : s.kvCache.sequences[row.requestId]? = some q
  idle : q.pending = none
  committed : q.committedTokens = row.contextLength
  inside : row.contextLength ≤ r.history.length
  settles : r.history.length ≤ row.contextLength →
    Settles G row.requestId (extendRequest r [token]) token

theorem Fed.frame {token : Token} (h : Fed G s row token r q) (hf : Frame id s s')
    (hne : row.requestId ≠ id) : Fed G s' row token r q :=
  ⟨by rw [hf.active _ hne, h.active], by rw [hf.sequences _ hne, h.sequence], h.idle, h.committed,
    h.inside, h.settles⟩

/-- The rows of a completion, each with its token. -/
abbrev Completing (G : Guarantee) (b : Nat) (rows : List (ScheduledSequence × Token))
    (s : ContinuousBatchScheduler) : Prop :=
  Remaining G b (fun e => e.1.requestId) (fun s e => ∃ r q, Fed G s e.1 e.2 r q) rows s

theorem Completing.next {token : Token} {rows : List (ScheduledSequence × Token)}
    (h : Completing G b ((row, token) :: rows) s)
    (hcore : Core G b (rows.map fun e => e.1.requestId) s') (hf : Frame row.requestId s s')
    (hself : ∀ q, s'.kvCache.sequences[row.requestId]? = some q → q.pending = none) :
    Completing G b rows s' :=
  Remaining.step h hcore hf hself fun _ _ hne ⟨r, q, hfed⟩ => ⟨r, q, hfed.frame hf hne⟩

theorem completeRow_ok {token : Token} {rows : List (ScheduledSequence × Token)} (hG : G.Kept)
    (h : Completing G b ((row, token) :: rows) s) :
    Triple (completeRow row token) s (fun _ s' => Completing G b rows s') (Fails G fun _ => False) := by
  obtain ⟨r, q, hfed⟩ := h.ready (row, token) (by simp)
  obtain ⟨hnot, -⟩ := List.nodup_cons.mp h.distinct
  have hrun := h.core.running _ r hfed.active
  unfold completeRow
  refine Triple.get_bind (Triple.expect_bind (fun hno => by simp [hfed.active] at hno) fun r' hr' => ?_)
  obtain rfl : r' = r := by simpa [hfed.active] using hr'.symm
  refine Triple.ite (fun hchunk => Triple.set' ?_) fun hfull => ?_
  · -- a chunk before the last: the rest of the history is still to be prefilled
    refine Completing.next h ?_ Frame.put fun q' hq' => ?_
    · refine h.core.put hfed.active ⟨hrun.fresh, hrun.prompt, hrun.history, hrun.more, hrun.fits,
        hrun.eos, hrun.good⟩ rfl hfed.sequence ?_ ?_ fun hm => absurd hm hnot
      · exact hfed.committed ▸ hchunk
      · exact fun j hj => ⟨List.mem_cons_of_mem _, fun hm => (List.mem_cons.mp hm).resolve_left hj⟩
    · obtain rfl : q' = q := by simpa [putActive, hfed.sequence] using hq'.symm
      exact hfed.idle
  · have hctx : row.contextLength = r'.history.length := le_antisymm hfed.inside (not_lt.mp hfull)
    have hlen : q.committedTokens + 1 = (extendRequest r' [token]).history.length := by
      simp [extendRequest, hfed.committed, hctx]
    refine (settleRequest_ok hG h.core hnot hfed.active hfed.sequence hfed.idle
      (extendRequest_extends hrun.history rfl) (hfed.settles hctx.ge) hlen).mono ?_ fun _ _ hf => hf
    rintro _ s₁ ⟨hcore, hframe, -, hself⟩
    exact Completing.next h hcore hframe hself

theorem register_call {tokens : List Token} (hG : G.Kept) (hk : G.kv k) (hq : k.sequences[id]? = some q) :
    Triple (PagedKvCacheManager.registerPrefix G.chain id tokens) k
      (fun _ k' => (∃ q', SameTable q q' ∧ Put k id (some q') k') ∧ G.kv k')
      (Fails G fun _ => False) :=
  Guarantee.Kept.call (hG.ops _ (.registerPrefix id tokens) hk nofun)
    ((registerPrefix_effect (hG.tables _ hk) hq).mono (fun _ _ h => h) fun _ _ hf => hf.elim)

theorem Core.registered {q' : SequenceState} (h : Core G b ids s) (hk : G.kv k)
    (hq : s.kvCache.sequences[id]? = some q) (hsame : SameTable q q')
    (hput : Put s.kvCache id (some q') k) : Core G b ids { s with kvCache := k } :=
  h.sameCommitted hk (.of_put hput.config hput.get (by simp [hq, hsame.committed]))

theorem registerRow_ok {rows : List (ScheduledSequence × Token)} (hG : G.Kept)
    (h : Completing G b rows s) (hrow : row.requestId ∈ rows.map fun e => e.1.requestId) :
    Triple (registerRow G.chain row) s (fun _ s' => Completing G b rows s')
      (Fails G fun _ => False) := by
  obtain ⟨e, he, hid⟩ := List.mem_map.mp hrow
  obtain ⟨r, q, hfed⟩ := h.ready e he
  unfold registerRow
  refine Triple.get_bind (Triple.expect_bind (fun hno => ?_) fun r' hr' => ?_)
  · simp [← hid, hfed.active] at hno
  have hq : s.kvCache.sequences[row.requestId]? = some q := hid ▸ hfed.sequence
  refine Triple.zoom ((register_call hG h.core.kv hq).mono ?_ fun _ _ hf => hf)
  rintro _ k ⟨⟨q', hsame, hput⟩, hk⟩
  refine ⟨h.core.registered hk hq hsame hput, h.idle.step (fun j hj => hput.other hj) (fun q₂ hq₂ => ?_)
    (fun _ hj _ => hj), h.distinct, h.free, fun e' he' => ?_⟩
  · obtain rfl : q' = q₂ := by simpa [hput.self] using hq₂
    rw [hsame.pending, hfed.idle]
  · obtain ⟨r₂, q₂, hfed₂⟩ := h.ready e' he'
    by_cases hj : e'.1.requestId = row.requestId
    · obtain rfl : q₂ = q := by
        have := hfed₂.sequence
        rw [hj, ← hid, hfed.sequence] at this
        exact (Option.some.inj this).symm
      exact ⟨r₂, q', hfed₂.active, by rw [hj]; exact hput.self, hsame.pending.trans hfed₂.idle,
        hsame.committed.trans hfed₂.committed, hfed₂.inside, hfed₂.settles⟩
    · exact ⟨r₂, q₂, hfed₂.active, (hput.other hj).trans hfed₂.sequence, hfed₂.idle,
        hfed₂.committed, hfed₂.inside, hfed₂.settles⟩

theorem Inv.batch {batch : ScheduledBatch} (h : Inv G s) (hb : s.inFlight = some batch) :
    Core G batch.id (batch.sequences.map ScheduledSequence.requestId) s ∧
      Idle G (batch.sequences.map ScheduledSequence.requestId) s.kvCache ∧
      (batch.sequences.map ScheduledSequence.requestId).Nodup := by
  have hids : rowIds s = batch.sequences.map ScheduledSequence.requestId := by simp [rowIds, hb]
  have hid : batchId s = batch.id := by simp [batchId, hb]
  exact ⟨hid ▸ hids ▸ h.core, hids ▸ h.idle, hids ▸ h.distinct⟩

theorem settled_row {batch : ScheduledBatch} {c : ScheduledSequence → Nat}
    (hs : Settled s.kvCache (batch.sequences.map fun row => (row.reservationId, c row)) k)
    (hrow : row ∈ batch.sequences) (hok : RowOk kind s row) :
    ∃ q, k.sequences[row.requestId]? = some q ∧ q.pending = none ∧
      q.committedTokens = row.startPosition + c row := by
  obtain ⟨res, hres, hid, hstart, -⟩ := hok.reserved
  obtain ⟨q, hq, hp, hc⟩ := hs.done _ (List.mem_map.mpr ⟨row, hrow, rfl⟩) res hres
  exact ⟨q, hid ▸ hq, hp, hstart ▸ hc⟩

theorem settled_other {batch : ScheduledBatch} {c : ScheduledSequence → Nat}
    (hs : Settled s.kvCache (batch.sequences.map fun row => (row.reservationId, c row)) k)
    (hrows : ∀ row ∈ batch.sequences, RowOk kind s row)
    (hid : id ∉ batch.sequences.map ScheduledSequence.requestId) :
    k.sequences[id]? = s.kvCache.sequences[id]? := by
  refine hs.others id fun row hrow res hres => ?_
  obtain ⟨row, hmem, rfl⟩ := List.mem_map.mp hrow
  obtain ⟨res', hres', hreq, -⟩ := (hrows row hmem).reserved
  obtain rfl : res' = res := by simpa [hres] using hres'.symm
  rintro rfl
  exact hid (List.mem_map.mpr ⟨row, hmem, hreq.symm⟩)

theorem Core.settled {batch : ScheduledBatch} {c : ScheduledSequence → Nat} (h : Inv G s)
    (hb : s.inFlight = some batch) (hk : G.kv k)
    (hs : Settled s.kvCache (batch.sequences.map fun row => (row.reservationId, c row)) k) :
    Core G batch.id (batch.sequences.map ScheduledSequence.requestId) { s with kvCache := k } ∧
      Idle G [] k := by
  obtain ⟨hcore, hidle, -⟩ := h.batch hb
  have hrows : ∀ row ∈ batch.sequences, RowOk batch.kind s row := fun row hrow =>
    ((h.rows batch hb).2 row hrow).1
  refine ⟨hcore.setKv hk hs.config (fun id r hr => ?_) fun id q hq => ?_, fun hlt id q hq hp => ?_⟩
  · by_cases hid : id ∈ batch.sequences.map ScheduledSequence.requestId
    · obtain ⟨r', hr', hphase⟩ := hcore.rows id hid
      obtain rfl : r' = r := by simpa [hr] using hr'.symm
      obtain ⟨row, hrow, rfl⟩ := List.mem_map.mp hid
      obtain ⟨q, hq, -⟩ := settled_row hs hrow (hrows row hrow)
      exact ⟨q, hq, .inFlight hphase hid⟩
    · rw [settled_other hs hrows hid]
      exact hcore.phases id r hr
  · by_cases hid : id ∈ batch.sequences.map ScheduledSequence.requestId
    · obtain ⟨r, hr, -⟩ := hcore.rows id hid
      exact ⟨r, hr⟩
    · rw [settled_other hs hrows hid] at hq
      exact hcore.domain id q hq
  · by_cases hid : id ∈ batch.sequences.map ScheduledSequence.requestId
    · obtain ⟨row, hrow, rfl⟩ := List.mem_map.mp hid
      obtain ⟨q', hq', hp', -⟩ := settled_row hs hrow (hrows row hrow)
      obtain rfl : q' = q := by simpa [hq] using hq'.symm
      exact absurd hp' hp
    · rw [settled_other hs hrows hid] at hq
      exact absurd (hidle hlt id q hq hp) hid

theorem completeBatch_ok {batchId : Nat} {tokens : List Token} (hG : G.Kept) (h : Inv G s)
    (hkind : ∀ batch, s.inFlight = some batch → batch.id = batchId → batch.kind ≠ .verify)
    (hset : ∀ batch, s.inFlight = some batch → batch.id = batchId →
      ∀ e ∈ batch.sequences.zip tokens, s.samplesToken e.1 = true →
      ∀ r, s.active[e.1.requestId]? = some r →
        Settles G e.1.requestId (extendRequest r [e.2]) e.2) :
    Triple (completeBatch G.chain batchId tokens) s (fun _ s' => Inv G s') (Fails G (Inv G)) := by
  unfold completeBatch
  refine Triple.bind (Q := fun batch s₁ => s.inFlight = some batch ∧ batch.id = batchId ∧
    s₁ = { s with inFlight := none }) (takeBatch_rule (fun _ => Fails.error h) fun batch hb hid =>
      ⟨hb, hid, rfl⟩) ?_
  rintro batch _ ⟨hb, hid, rfl⟩
  obtain ⟨hcore, -, hnd⟩ := h.batch hb
  have hrows : ∀ row ∈ batch.sequences, RowOk batch.kind s row := fun row hrow =>
    ((h.rows batch hb).2 row hrow).1
  refine Triple.ite (fun _ => restore_fail hb h) fun hlen => ?_
  have hlen : tokens.length = batch.sequences.length := not_not.mp hlen
  refine Triple.get_bind (Triple.ite (fun _ => restore_fail hb h) fun _ => ?_)
  split
  · exact restore_fail hb h
  · have hinside : ∀ row ∈ batch.sequences, ∀ r, s.active[row.requestId]? = some r →
        row.startPosition + row.tokenIds.length ≤ r.history.length := fun row hrow r hr => by
      rw [← (hrows row hrow).context]
      exact ((hrows row hrow).tokens r hr).inside (hkind batch hb hid)
    have hcommit := Guarantee.Kept.call
      (Triple.of_discard (hG.ops _ (.commitAppendPrefixes
        (batch.sequences.map fun row => (row.reservationId, row.tokenIds.length))) hcore.kv nofun))
      (commitAppendPrefixes_effect (hG.tables _ hcore.kv))
    have hmap : (batch.sequences.zip tokens).map (fun e => e.1.requestId) =
        batch.sequences.map ScheduledSequence.requestId := by
      have hfst : (batch.sequences.zip tokens).map Prod.fst = batch.sequences :=
        List.map_fst_zip hlen.ge
      rw [← hfst, List.map_map, hfst]
      rfl
    refine Triple.bind (Q := fun _ s₁ => Completing G batch.id (batch.sequences.zip tokens) s₁)
      ((kv_or_restore hb h hcommit).mono ?_ fun _ _ hf => hf) ?_
    · rintro _ _ ⟨k, rfl, hs, hk⟩
      obtain ⟨hcore', hidle'⟩ := Core.settled h hb hk hs
      refine ⟨?_, fun hlt j q hq hp => absurd (hidle' hlt j q hq hp) (by simp), hmap ▸ hnd, rfl,
        fun e he => ?_⟩
      · rw [hmap]
        exact hcore'.congr rfl rfl rfl rfl rfl rfl rfl hcore'.setup
      · have hmem : e.1 ∈ batch.sequences := (List.of_mem_zip he).1
        obtain ⟨r, hr, -⟩ := hcore.rows e.1.requestId (List.mem_map.mpr ⟨e.1, hmem, rfl⟩)
        obtain ⟨q, hq, hp, hc⟩ := settled_row hs hmem (hrows e.1 hmem)
        have hctx := (hrows e.1 hmem).context
        refine ⟨r, q, hr, hq, hp, hc.trans hctx.symm, hctx ▸ hinside e.1 hmem r hr, fun hle => ?_⟩
        exact hset batch hb hid e he (by simpa [samplesToken, hr] using hle) r hr
    · rintro _ s₁ h₁
      have hsub : ∀ row ∈ batch.sequences,
          row.requestId ∈ (batch.sequences.zip tokens).map fun e => e.1.requestId := fun row hrow => by
        rw [hmap]
        exact List.mem_map.mpr ⟨row, hrow, rfl⟩
      refine Triple.bind (Triple.forM (I := fun rest s₂ => (∀ row ∈ rest, row ∈ batch.sequences) ∧
        Completing G batch.id (batch.sequences.zip tokens) s₂) ⟨fun _ h => h, h₁⟩ ?_) ?_
      · rintro row rest s₂ ⟨hmem, h₂⟩
        refine (registerRow_ok hG h₂ (hsub row (hmem row (by simp)))).mono (fun _ _ h₃ =>
          ⟨fun row' hrow' => hmem row' (List.mem_cons_of_mem _ hrow'), h₃⟩) fun _ _ hf => hf.never
      · rintro _ s₂ ⟨-, h₂⟩
        refine (Triple.forM (I := fun rest s₃ => Completing G batch.id rest s₃) h₂ ?_).mono
          (fun _ _ h₃ => h₃.done) fun _ _ hf => hf
        rintro ⟨row, token⟩ rest s₃ h₃
        exact (completeRow_ok hG h₃).mono (fun _ _ h => h) fun _ _ hf => hf.never

-- Rolling back

/-- Row `row` is rolled back; its request is still marked in flight. -/
structure Undone (kind : ScheduledBatchKind) (s : ContinuousBatchScheduler) (row : ScheduledSequence)
    (r : ActiveRequest) (q : SequenceState) : Prop where
  active : s.active[row.requestId]? = some r
  sequence : s.kvCache.sequences[row.requestId]? = some q
  idle : q.pending = none
  committed : q.committedTokens = row.startPosition
  tokens : RowTokens kind row r
  context : row.contextLength = row.startPosition + row.tokenIds.length
  nonempty : row.tokenIds ≠ []

theorem RowOk.nonempty (hG : G.Kept) (hk : G.kv s.kvCache) (h : RowOk kind s row) :
    row.tokenIds ≠ [] := by
  obtain ⟨res, hres, -, -, hcount⟩ := h.reserved
  obtain ⟨q, -, hok⟩ := (hG.tables _ hk).reserved _ res hres
  rintro hnil
  have := hok.pos
  simp [hcount, hnil] at this

theorem phaseBefore_ok (hu : Undone kind s row r q) :
    Triple (phaseBefore kind row) s
      (fun phase s' => s' = s ∧ PhaseOk b ids row.requestId { r with phase } q.committedTokens)
      (Fails G fun _ => False) := by
  obtain ⟨token, rest, htok⟩ := List.exists_cons_of_ne_nil hu.nonempty
  have hdecode : kind ≠ .prefill → Triple (do
      let token ← M.expect row.tokenIds.head? "index out of bounds"
      pure (RequestPhase.awaitingDecode token)) s
      (fun phase s' => s' = s ∧ PhaseOk b ids row.requestId { r with phase } q.committedTokens)
      (Fails G fun _ => False) := by
    intro hkind
    obtain ⟨hlast, hstart⟩ := hu.tokens.last hkind
    refine Triple.expect_bind (fun hno => by simp [htok] at hno) fun t ht => Triple.pure' ⟨rfl, ?_⟩
    exact ⟨hlast ▸ ht, hu.committed ▸ hstart⟩
  cases kind with
  | prefill =>
    refine Triple.pure' ⟨rfl, ?_⟩
    have hin := hu.tokens.inside nofun
    rw [hu.context, htok, List.length_cons] at hin
    show q.committedTokens < r.history.length
    rw [hu.committed]
    omega
  | decode => exact hdecode nofun
  | verify => exact hdecode nofun

/-- The rows of a failed batch whose requests are still to be restored. -/
abbrev Undoing (G : Guarantee) (b : Nat) (kind : ScheduledBatchKind) (rows : List ScheduledSequence)
    (s : ContinuousBatchScheduler) : Prop :=
  Remaining G b ScheduledSequence.requestId (fun s row => ∃ r q, Undone kind s row r q) rows s

theorem undoRow_ok {rows : List ScheduledSequence} (h : Undoing G b kind (row :: rows) s) :
    Triple (undoRow kind row) s (fun _ s' => Undoing G b kind rows s') (Fails G fun _ => False) := by
  obtain ⟨r, q, hu⟩ := h.ready row (by simp)
  obtain ⟨hnot, -⟩ := List.nodup_cons.mp h.distinct
  have hrun := h.core.running _ r hu.active
  unfold undoRow
  refine Triple.get_bind (Triple.expect_bind (fun hno => by simp [hu.active] at hno) fun r' hr' => ?_)
  obtain rfl : r' = r := by simpa [hu.active] using hr'.symm
  have hbefore : Triple (phaseBefore kind row) s (fun phase s' => s' = s ∧ PhaseOk b
      (rows.map ScheduledSequence.requestId) row.requestId { r' with phase } q.committedTokens)
      (Fails G fun _ => False) := phaseBefore_ok hu
  refine Triple.bind hbefore ?_
  rintro phase _ ⟨rfl, hphase⟩
  refine Triple.set' (h.step ?_ Frame.put (fun q' hq' => ?_) fun e' _ hne ⟨r₂, q₂, hu₂⟩ => ⟨r₂, q₂, ?_⟩)
  · refine h.core.put hu.active ⟨hrun.fresh, hrun.prompt, hrun.history, hrun.more, hrun.fits,
      hrun.eos, hrun.good⟩ rfl hu.sequence hphase ?_ fun hm => absurd hm hnot
    exact fun j hj => ⟨List.mem_cons_of_mem _, fun hm => (List.mem_cons.mp hm).resolve_left hj⟩
  · obtain rfl : q' = q := by simpa [putActive, hu.sequence] using hq'.symm
    exact hu.idle
  · exact ⟨by rw [putActive_get, if_neg hne, hu₂.active], hu₂.sequence, hu₂.idle, hu₂.committed,
      hu₂.tokens, hu₂.context, hu₂.nonempty⟩

theorem failBatch_ok {batchId : Nat} (hG : G.Kept) (h : Inv G s) :
    Triple (failBatch batchId) s (fun _ s' => Inv G s') (Fails G (Inv G)) := by
  unfold failBatch
  refine Triple.bind (Q := fun batch s₁ => s.inFlight = some batch ∧ s₁ = { s with inFlight := none })
    (takeBatch_rule (fun _ => Fails.error h) fun batch hb _ => ⟨hb, rfl⟩) ?_
  rintro batch _ ⟨hb, rfl⟩
  obtain ⟨hcore, -, hnd⟩ := h.batch hb
  have hrows : ∀ row ∈ batch.sequences, RowOk batch.kind s row := fun row hrow =>
    ((h.rows batch hb).2 row hrow).1
  refine Triple.get_bind (Triple.ite (fun _ => restore_fail hb h) fun _ => ?_)
  have hcancel := Guarantee.Kept.call
    (hG.ops _ (.cancelAppends (batch.sequences.map fun row => row.reservationId)) hcore.kv nofun)
    (cancelAppends_effect (hG.tables _ hcore.kv))
  have hzero : cancelRows (batch.sequences.map fun row => row.reservationId) =
      batch.sequences.map fun row => (row.reservationId, 0) := by
    simp [cancelRows]
  refine Triple.bind (Q := fun _ s₁ => Undoing G batch.id batch.kind batch.sequences s₁)
    ((kv_or_restore hb h hcancel).mono ?_ fun _ _ hf => hf) ?_
  · rintro _ _ ⟨k, rfl, hs, hk⟩
    rw [hzero] at hs
    obtain ⟨hcore', hidle'⟩ := Core.settled (c := fun _ => 0) h hb hk hs
    refine ⟨hcore'.congr rfl rfl rfl rfl rfl rfl rfl hcore'.setup,
      fun hlt j q hq hp => absurd (hidle' hlt j q hq hp) (by simp), hnd, rfl, fun row hrow => ?_⟩
    obtain ⟨r, hr, -⟩ := hcore.rows row.requestId (List.mem_map.mpr ⟨row, hrow, rfl⟩)
    obtain ⟨q, hq, hp, hc⟩ := settled_row (c := fun _ => 0) hs hrow (hrows row hrow)
    exact ⟨r, q, hr, hq, hp, hc, (hrows row hrow).tokens r hr, (hrows row hrow).context,
      (hrows row hrow).nonempty hG hcore.kv⟩
  · rintro _ s₁ h₁
    refine (Triple.forM h₁ fun row rest s₂ h₂ => ?_).mono (fun _ _ h₂ => h₂.done) fun _ _ hf => hf
    exact (undoRow_ok h₂).mono (fun _ _ h => h) fun _ _ hf => hf.never

-- Verified rows

theorem acceptDraft_some {remaining width position : Nat} {eos : Finset Token}
    {draft produced predictions : List Token} (hd : draft.length = width)
    (hp : position + predictions.length = width) (hne : predictions ≠ [])
    (hr : produced.length < remaining) :
    ∃ out last, acceptDraft remaining eos width draft position produced predictions = some out ∧
      out.getLast? = some last ∧ produced.length < out.length ∧
      out.length ≤ produced.length + predictions.length ∧ out.length ≤ remaining := by
  induction predictions generalizing position produced with
  | nil => exact absurd rfl hne
  | cons prediction rest ih =>
    have hlen : (produced ++ [prediction]).length = produced.length + 1 := by simp
    -- the loop ends with this prediction
    have hstop : ∃ out last, some (produced ++ [prediction]) = some out ∧ out.getLast? = some last ∧
        produced.length < out.length ∧ out.length ≤ produced.length + (prediction :: rest).length ∧
        out.length ≤ remaining := by
      refine ⟨_, prediction, rfl, by simp, by omega, ?_, by omega⟩
      rw [hlen, List.length_cons]
      omega
    unfold acceptDraft
    dsimp only
    split
    · exact hstop
    · next hgo =>
      split
      · exact hstop
      · next hin =>
        have hlt : position + 1 < draft.length := by omega
        rw [List.getElem?_eq_getElem hlt]
        dsimp only
        split
        · rw [List.length_cons] at hp
          have hrest : rest ≠ [] := by
            rintro rfl
            simp only [List.length_nil] at hp
            omega
          have hmore : (produced ++ [prediction]).length < remaining := by
            rw [not_or] at hgo
            have := hgo.1
            omega
          obtain ⟨out, last, hout, hlast, h1, h2, h3⟩ :=
            ih (by omega : position + 1 + rest.length = width) hrest hmore
          refine ⟨out, last, hout, hlast, by omega, ?_, h3⟩
          rw [List.length_cons]
          omega
        · exact hstop

theorem settleRequest_put {last : Token} {Q : Unit → ContinuousBatchScheduler → Prop}
    {E : Fault → ContinuousBatchScheduler → Prop} (h : Triple (settleRequest id r last) s Q E) :
    Triple (settleRequest id r last) (s.putActive id r') Q E := by
  have hput : ∀ x, (s.putActive id r').putActive id x = s.putActive id x := fun x => by
    simp [putActive, BTreeMap.insert_insert]
  have herase : ({ s.putActive id r' with active := (s.putActive id r').active.erase id } :
      ContinuousBatchScheduler) = { s with active := s.active.erase id } := by
    simp [putActive, BTreeMap.erase_insert]
  unfold Triple at h ⊢
  convert h using 1
  unfold settleRequest
  rw [M.exec_ite, M.exec_ite]
  split
  · simp only [M.exec_bind, M.exec_modify, herase]
  · simp only [M.exec_modify, hput]

/-- Whatever the loop accepts from `predictions` may be generated. -/
def DraftSettles (G : Guarantee) (id : RequestId) (r : ActiveRequest) (draft predictions : List Token) :
    Prop :=
  ∀ produced last, acceptDraft (r.generation.maxNewTokens - r.generatedTokenIds.length) r.eos
    draft.length draft 0 [] predictions = some produced → produced.getLast? = some last →
    Settles G id (extendRequest r produced) last

/-- Row `i` of a verify batch is still reserved, and its argmax may be accepted. -/
structure Drafted (G : Guarantee) (width : Nat) (argmax : List Token) (s : ContinuousBatchScheduler)
    (row : ScheduledSequence) (i : Nat) : Prop where
  reserved : RowOk .verify s row
  uniform : row.tokenIds.length = width
  predictions : (blockOf argmax width i).length = width
  settles : ∀ r, s.active[row.requestId]? = some r →
    DraftSettles G row.requestId r row.tokenIds (blockOf argmax width i)

abbrev Verifying (G : Guarantee) (b width : Nat) (argmax : List Token)
    (rows : List (ScheduledSequence × Nat)) (s : ContinuousBatchScheduler) : Prop :=
  Remaining G b (fun e => e.1.requestId) (fun s e => Drafted G width argmax s e.1 e.2) rows s

theorem verifyRow_ok {width i : Nat} {argmax : List Token} {rows : List (ScheduledSequence × Nat)}
    (hG : G.Kept) (h : Verifying G b width argmax ((row, i) :: rows) s) :
    Triple (verifyRow G.chain width row (blockOf argmax width i)) s
      (fun _ s' => Verifying G b width argmax rows s') (Fails G fun _ => False) := by
  have hd : Drafted G width argmax s row i := h.ready (row, i) (by simp)
  obtain ⟨hnot, -⟩ := List.nodup_cons.mp h.distinct
  obtain ⟨r, hr, hphase⟩ := h.core.rows row.requestId (by simp)
  have hrun := h.core.running _ r hr
  obtain ⟨res, hres, hreq, hstart, hcount⟩ := hd.reserved.reserved
  have hlast := (hd.reserved.tokens r hr).last nofun
  have hne := hd.reserved.nonempty hG h.core.kv
  have hwidth : row.tokenIds.length = width := hd.uniform
  have hremaining : wrapSub r.generation.maxNewTokens r.generatedTokenIds.length =
      r.generation.maxNewTokens - r.generatedTokenIds.length := by
    refine wrapSub_of_le ?_ hrun.more.le
    exact (Nat.le_add_left _ _).trans (hrun.fits.trans s.kvCache.config.maxSequenceLength_le)
  have hpred : blockOf argmax width i ≠ [] := fun hnil =>
    hne (List.length_eq_zero_iff.mp (by rw [hwidth, ← hd.predictions, hnil]; rfl))
  obtain ⟨produced, last, hacc, hlastp, hpos, hle, -⟩ :
      ∃ out last, acceptDraft (r.generation.maxNewTokens - r.generatedTokenIds.length) r.eos width
        row.tokenIds 0 [] (blockOf argmax width i) = some out ∧ out.getLast? = some last ∧
        0 < out.length ∧ out.length ≤ 0 + (blockOf argmax width i).length ∧ _ :=
    acceptDraft_some hwidth ((Nat.zero_add _).trans hd.predictions) hpred (Nat.sub_pos_of_lt hrun.more)
  rw [hd.predictions, Nat.zero_add] at hle
  have hset : Settles G row.requestId (extendRequest r produced) last :=
    hd.settles r hr produced last (hwidth ▸ hacc) hlastp
  unfold verifyRow
  refine Triple.get_bind (Triple.need_bind (fun hno => by simp [hr] at hno) fun r₁ hr₁ => ?_)
  obtain rfl : r = r₁ := by simpa [hr] using hr₁
  dsimp only
  rw [hremaining, hacc]
  refine Triple.pure_bind (Triple.set_bind ?_)
  -- commit what was accepted
  have hcommit := Guarantee.Kept.call (R := fun _ => False)
    (Triple.of_discard (hG.ops _ (.commitAppendPartial row.reservationId produced.length) h.core.kv nofun))
    ((commitAppendPartial_effect (hG.tables _ h.core.kv) hres hpos (hcount ▸ hwidth ▸ hle)).mono
      (fun _ _ h => h) fun _ _ hf => .inl hf)
  refine Triple.bind (Triple.zoom (Q := fun _ s₁ => ∃ k, s₁ = { s with
      draftedTokens := wrap64 (s.draftedTokens + wrapSub width 1)
      acceptedDraftTokens := wrap64 (s.acceptedDraftTokens + wrapSub produced.length 1)
      kvCache := k } ∧ Settled s.kvCache [(row.reservationId, produced.length)] k ∧ G.kv k)
    (hcommit.mono (fun _ k hk => ⟨k, rfl, hk⟩) fun _ _ hf => hf)) ?_
  rintro _ _ ⟨k, rfl, hs, hk⟩
  have hother : ∀ j : Nat, j ≠ row.requestId → k.sequences[j]? = s.kvCache.sequences[j]? := by
    refine fun j hj => hs.others j fun e he res' hres' => ?_
    obtain rfl := List.mem_singleton.mp he
    obtain rfl : res' = res := by simpa [hres] using hres'.symm
    exact fun heq => hj (heq.symm.trans hreq)
  obtain ⟨q, hq, hp, hc⟩ := hs.done _ (List.mem_singleton_self _) res hres
  rw [hreq] at hq
  refine Triple.get_bind (Triple.expect_bind (fun hno => by simp [hr] at hno) fun r₁ hr₁ => ?_)
  obtain rfl : r = r₁ := by simpa [hr] using hr₁
  refine Triple.set_bind ?_
  rw [hlastp]
  refine Triple.pure_bind ?_
  -- publish, then settle
  refine Triple.bind (Triple.zoom (Q := fun _ s₁ => ∃ k' q', s₁ = ({ s with
      draftedTokens := wrap64 (s.draftedTokens + wrapSub width 1)
      acceptedDraftTokens := wrap64 (s.acceptedDraftTokens + wrapSub produced.length 1)
      kvCache := k' } : ContinuousBatchScheduler).putActive row.requestId (extendRequest r produced) ∧
      SameTable q q' ∧ Put k row.requestId (some q') k' ∧ G.kv k')
    ((register_call hG hk hq).mono ?_ fun _ _ hf => hf)) ?_
  · rintro _ k' ⟨⟨q', hsame, hput⟩, hk'⟩
    exact ⟨k', q', rfl, hsame, hput, hk'⟩
  rintro _ _ ⟨k', q', rfl, hsame, hput, hk'⟩
  have hcore : Core G b (row.requestId :: rows.map fun e => e.1.requestId) { s with
      draftedTokens := wrap64 (s.draftedTokens + wrapSub width 1)
      acceptedDraftTokens := wrap64 (s.acceptedDraftTokens + wrapSub produced.length 1)
      kvCache := k' } := by
    refine Core.congr (s := { s with kvCache := k' }) ?_ rfl rfl rfl rfl rfl rfl rfl h.core.setup
    refine h.core.setKv hk' (hput.config.trans hs.config) (fun j r₂ hr₂ => ?_) fun j q₂ hq₂ => ?_
    · by_cases hj : j = row.requestId
      · subst hj
        obtain rfl : r = r₂ := by simpa [hr] using hr₂
        exact ⟨q', hput.self, .inFlight hphase (by simp)⟩
      · obtain ⟨q₂, hq₂, hp₂⟩ := h.core.phases j r₂ hr₂
        exact ⟨q₂, by rw [hput.other hj, hother j hj, hq₂], hp₂⟩
    · by_cases hj : j = row.requestId
      · exact ⟨r, hj ▸ hr⟩
      · rw [hput.other hj, hother j hj] at hq₂
        exact h.core.domain j q₂ hq₂
  have hlen : q'.committedTokens + 1 = (extendRequest r produced).history.length := by
    simp only [extendRequest, List.length_append, hsame.committed, hc, hstart]
    have := hlast.2
    omega
  refine Triple.bind (settleRequest_put (settleRequest_ok hG hcore hnot hr hput.self
    (hsame.pending.trans hp) (extendRequest_extends hrun.history hlastp) hset hlen)) ?_
  rintro _ s₁ ⟨hcore₁, hframe, hres₁, hself⟩
  have hframe₀ : Frame row.requestId s s₁ :=
    ⟨hframe.active, fun j hj => (hframe.sequences j hj).trans ((hput.other hj).trans (hother j hj)),
      hframe.inFlight⟩
  refine Triple.pure' (h.step hcore₁ hframe₀ hself fun e' _ hne' hd' => ?_)
  obtain ⟨res', hres', hreq', hrest'⟩ := hd'.reserved.reserved
  have hrid : e'.1.reservationId ≠ row.reservationId := by
    intro heq
    rw [heq, hres] at hres'
    cases hres'
    exact hne' (hreq'.symm.trans hreq)
  refine ⟨⟨⟨res', ?_, hreq', hrest'⟩, hd'.reserved.context, ?_⟩, hd'.uniform, hd'.predictions, ?_⟩
  · rw [hres₁]
    show k'.reservations[e'.1.reservationId]? = some res'
    rw [hput.reservations, hs.kept _ (by simpa using hrid), hres']
  · rw [hframe₀.active _ hne']
    exact hd'.reserved.tokens
  · rw [hframe₀.active _ hne']
    exact hd'.settles

theorem verifyRows_ok {width i : Nat} {argmax : List Token} {rows : List ScheduledSequence}
    (hG : G.Kept) (h : Verifying G b width argmax (rows.zipIdx i) s) :
    Triple (verifyRows G.chain width argmax i rows) s (fun _ s' => Inv G s')
      (Fails G fun _ => False) := by
  induction rows generalizing i s with
  | nil => exact Triple.pure' h.done
  | cons row rows ih =>
    rw [List.zipIdx_cons] at h
    refine Triple.bind (verifyRow_ok hG h) fun _ s₁ h₁ => ?_
    exact Triple.bind (ih h₁) fun _ _ h₂ => Triple.pure' h₂

theorem completeVerifyBatch_ok {batchId : Nat} {argmax : List Token} (hG : G.Kept) (h : Inv G s)
    (hset : ∀ batch, s.inFlight = some batch → batch.id = batchId → batch.kind = .verify →
      argmax.length = batch.sequences.length * batch.nextN →
      ∀ e ∈ batch.sequences.zipIdx, ∀ r, s.active[e.1.requestId]? = some r →
        DraftSettles G e.1.requestId r e.1.tokenIds (blockOf argmax batch.nextN e.2)) :
    Triple (completeVerifyBatch G.chain batchId argmax) s (fun _ s' => Inv G s') (Fails G (Inv G)) := by
  unfold completeVerifyBatch
  refine Triple.bind (Q := fun batch s₁ => s.inFlight = some batch ∧ batch.id = batchId ∧
    s₁ = { s with inFlight := none }) (takeBatch_rule (fun _ => Fails.error h) fun batch hb hid =>
      ⟨hb, hid, rfl⟩) ?_
  rintro batch _ ⟨hb, hid, rfl⟩
  obtain ⟨hcore, hidle, hnd⟩ := h.batch hb
  refine Triple.ite (fun _ => restore_fail hb h) fun hok => ?_
  simp only [not_or, not_not] at hok
  obtain ⟨hkind, hlen⟩ := hok
  have hids : (batch.sequences.zipIdx.map fun e => e.1.requestId) =
      batch.sequences.map ScheduledSequence.requestId := by
    rw [← List.zipIdx_map_fst 0 batch.sequences, List.map_map, List.zipIdx_map_fst]
    rfl
  refine (verifyRows_ok (b := batch.id) hG ⟨?_, ?_, hids ▸ hnd, rfl, fun e he => ?_⟩).mono
    (fun _ _ h => h) fun _ _ hf => hf.never
  · rw [hids]
    exact hcore.congr rfl rfl rfl rfl rfl rfl rfl hcore.setup
  · rw [hids]
    exact hidle
  · obtain ⟨-, hi, hrow⟩ := List.mem_zipIdx he
    have hmem : e.1 ∈ batch.sequences := hrow ▸ List.getElem_mem _
    obtain ⟨hrowok, hwidth⟩ := (h.rows batch hb).2 e.1 hmem
    rw [hkind] at hrowok
    refine ⟨⟨hrowok.reserved, hrowok.context, hrowok.tokens⟩, hwidth, blockOf_length ?_,
      hset batch hb hid hkind hlen e he⟩
    rw [hlen]
    refine Nat.mul_le_mul_right _ ?_
    simp only [ScheduledBatch.batchSize]
    omega

end Ruda.Batch
