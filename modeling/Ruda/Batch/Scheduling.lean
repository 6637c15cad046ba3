import Ruda.Batch.Completion

/-!
# Building a batch

The three schedulers pick candidates, reserve a row for each that fits and mark
the requests in flight. A scheduler that finds nothing leaves the state as it
was, and says why; an error can only come from reservation ids running out.
-/

namespace Ruda.Batch

open Kv ContinuousBatchScheduler

variable {G : Guarantee} {s s' s₀ : ContinuousBatchScheduler} {k k' : PagedKvCacheManager}
  {id : RequestId} {r r' : ActiveRequest} {q : SequenceState} {b : Nat} {ids : List RequestId}
  {row : ScheduledSequence} {kind : ScheduledBatchKind} {rows : List ScheduledSequence}

-- Candidates

theorem collect_ok {select : RequestId → ActiveRequest → BatchM (Option κ)}
    {Sel : RequestId → ActiveRequest → Option κ → Prop} {l : List (RequestId × ActiveRequest)}
    (hsel : ∀ id r, (id, r) ∈ l →
      Triple (select id r) s (fun found s' => s' = s ∧ Sel id r found) (fun _ _ => False)) :
    Triple (collect select l) s
      (fun cs s' => s' = s ∧ (cs.map Prod.fst).Sublist (l.map Prod.fst) ∧
        (∀ e ∈ cs, ∃ r, (e.1, r) ∈ l ∧ Sel e.1 r (some e.2)) ∧
        ∀ id r, (id, r) ∈ l → (∃ c, (id, c) ∈ cs) ∨ Sel id r none)
      (fun _ _ => False) := by
  induction l with
  | nil => exact Triple.pure' ⟨rfl, .slnil, by simp, by simp⟩
  | cons e l ih =>
    obtain ⟨id, r⟩ := e
    refine Triple.bind (hsel id r (by simp)) ?_
    rintro found _ ⟨rfl, hfound⟩
    refine Triple.bind (ih fun id r hm => hsel id r (List.mem_cons_of_mem _ hm)) ?_
    rintro cs _ ⟨rfl, hsub, hsound, hall⟩
    cases found with
    | none =>
      refine Triple.pure' ⟨rfl, hsub.cons _, fun e he => ?_, fun id' r' hm => ?_⟩
      · obtain ⟨r', hm, hs⟩ := hsound e he
        exact ⟨r', List.mem_cons_of_mem _ hm, hs⟩
      · rcases List.mem_cons.mp hm with heq | hm
        · cases heq
          exact .inr hfound
        · exact hall id' r' hm
    | some c =>
      refine Triple.pure' ⟨rfl, hsub.cons_cons _, fun e he => ?_, fun id' r' hm => ?_⟩
      · rcases List.mem_cons.mp he with rfl | he
        · exact ⟨r, by simp, hfound⟩
        · obtain ⟨r', hm, hs⟩ := hsound e he
          exact ⟨r', List.mem_cons_of_mem _ hm, hs⟩
      · rcases List.mem_cons.mp hm with heq | hm
        · cases heq
          exact .inl ⟨c, by simp⟩
        · refine (hall id' r' hm).imp_left ?_
          rintro ⟨c', hc'⟩
          exact ⟨c', List.mem_cons_of_mem _ hc'⟩

-- Rows

/-- `rows` are reserved, `width` tokens each, and nothing else has changed. -/
structure Reserving (G : Guarantee) (k₀ : PagedKvCacheManager) (width : Nat)
    (I : RequestId → List Token → Prop) (rows : List ScheduledSequence) (k : PagedKvCacheManager) :
    Prop where
  kv : G.kv k
  same : SameCommitted k₀ k
  reserved : ∀ row ∈ rows, ∃ res, k.reservations[row.reservationId]? = some res ∧
    res.requestId = row.requestId ∧ res.startPosition = row.startPosition ∧
    res.tokenCount = row.tokenIds.length
  width : ∀ row ∈ rows, row.tokenIds.length = width
  context : ∀ row ∈ rows, row.contextLength = row.startPosition + row.tokenIds.length
  start : ∀ row ∈ rows, ∃ q, k₀.sequences[row.requestId]? = some q ∧ q.committedTokens = row.startPosition
  input : ∀ row ∈ rows, I row.requestId row.tokenIds
  distinct : (rows.map ScheduledSequence.requestId).Nodup
  idle : Idle G (rows.map ScheduledSequence.requestId) k
  count : k.nextReservation = k₀.nextReservation + rows.length
  untouched : rows = [] → k = k₀

theorem Reserving.nil {width : Nat} {I : RequestId → List Token → Prop} (hk : G.kv k)
    (hidle : Idle G [] k) : Reserving G k width I [] k :=
  ⟨hk, .refl k, by simp, by simp, by simp, by simp, by simp, by simp, hidle, rfl, fun _ => rfl⟩

theorem Reserving.push {k₀ : PagedKvCacheManager} {width : Nat}
    {I : RequestId → List Token → Prop} {ps : List KvPageId} {tokens : List Token} (hG : G.Kept)
    (h : Reserving G k₀ width I rows k) (hq : CanAppend k id width q) (hk' : G.kv k')
    (hb : Begun k id width q ps k') (hid : id ∉ rows.map ScheduledSequence.requestId)
    (hlen : tokens.length = width) (hin : I id tokens) :
    Reserving G k₀ width I
      (rows ++ [scheduledSequence (receipt k.nextReservation (begun id q width) q ps) tokens]) k' := by
  have hfresh : ∀ row ∈ rows, row.reservationId ≠ k.nextReservation := fun row hrow => by
    obtain ⟨res, hres, -⟩ := h.reserved row hrow
    exact ((hG.tables k h.kv).fresh _ res hres).ne
  have hall : ∀ {P : ScheduledSequence → Prop}, (∀ row ∈ rows, P row) →
      P (scheduledSequence (receipt k.nextReservation (begun id q width) q ps) tokens) →
      ∀ row ∈ rows ++ [scheduledSequence (receipt k.nextReservation (begun id q width) q ps) tokens],
        P row := by
    intro P hold hnew row hrow
    rcases List.mem_append.mp hrow with hrow | hrow
    · exact hold row hrow
    · rw [List.mem_singleton.mp hrow]
      exact hnew
  have hmap : (rows ++ [scheduledSequence (receipt k.nextReservation (begun id q width) q ps)
      tokens]).map ScheduledSequence.requestId = rows.map ScheduledSequence.requestId ++ [id] := by
    simp [scheduledSequence, receipt, begun]
  refine ⟨hk', ?_, hall (fun row hrow => ?_) ?_, hall h.width hlen, hall h.context ?_,
    hall h.start ?_, hall h.input hin, ?_, ?_, ?_, by simp⟩
  · refine h.same.trans (.of_put hb.config hb.get ?_)
    simp [hq.found, grown]
  · obtain ⟨res, hres, hrest⟩ := h.reserved row hrow
    refine ⟨res, ?_, hrest⟩
    rw [hb.reservations, if_neg (hfresh row hrow), hres]
  · refine ⟨begun id q width, ?_, rfl, rfl, hlen.symm⟩
    rw [hb.reservations]
    exact if_pos rfl
  · show q.committedTokens + width = q.committedTokens + tokens.length
    rw [hlen]
  · exact h.same.get_back hq.found
  · rw [hmap]
    refine List.nodup_append.mpr ⟨h.distinct, by simp, ?_⟩
    rintro a ha _ hb' rfl
    exact hid (List.mem_singleton.mp hb' ▸ ha)
  · rw [hmap]
    intro hlt j q' hq' hp
    rw [hb.get j] at hq'
    split at hq'
    · next hj => simp [hj]
    · exact List.mem_append_left _ (h.idle hlt j q' hq' hp)
  · rw [hb.nextReservation, h.count, List.length_append, List.length_singleton]
    omega

/-- What is left when a reservation fails: ids have run out, and some rows may stay
reserved. -/
structure Exhausted (G : Guarantee) (s₀ : ContinuousBatchScheduler) (n : Nat)
    (s : ContinuousBatchScheduler) : Prop where
  state : s = withKv s₀ s.kvCache
  kv : G.kv s.kvCache
  same : SameCommitted s₀.kvCache s.kvCache
  ids : u64Max ≤ s.kvCache.nextReservation
  count : s.kvCache.nextReservation ≤ s₀.kvCache.nextReservation + n

theorem reserveRows_ok {limit width n : Nat} {I : RequestId → List Token → Prop}
    {undo : List ScheduledSequence → BatchM Unit} {tokensOf : RequestId → κ → BatchM (List Token)}
    (hG : G.Kept)
    (hundo : ∀ rows k, Reserving G s₀.kvCache width I rows k → rows.length ≤ n →
      u64Max ≤ k.nextReservation →
      Triple (undo rows) (withKv s₀ k) (fun _ => Exhausted G s₀ n) (Fails G (Exhausted G s₀ n)))
    {cs : List (RequestId × κ)}
    (htokens : ∀ e ∈ cs, ∀ k, SameCommitted s₀.kvCache k → Triple (tokensOf e.1 e.2) (withKv s₀ k)
      (fun tokens s' => s' = withKv s₀ k ∧ tokens.length = width ∧ I e.1 tokens) (fun _ _ => False))
    (hfound : ∀ e ∈ cs, ∃ q, s₀.kvCache.sequences[e.1]? = some q)
    (hdistinct : (rows.map ScheduledSequence.requestId ++ cs.map Prod.fst).Nodup)
    (hn : rows.length + cs.length ≤ n) (h : Reserving G s₀.kvCache width I rows k) :
    Triple (reserveRows limit width undo tokensOf cs rows) (withKv s₀ k)
      (fun rows' s' => ∃ k', s' = withKv s₀ k' ∧ Reserving G s₀.kvCache width I rows' k' ∧
        rows'.length ≤ n ∧ (rows' = [] → 0 < limit → rows = [] ∧
          ∀ e ∈ cs, ∀ q, ¬CanAppend s₀.kvCache e.1 width q))
      (Fails G (Exhausted G s₀ n)) := by
  induction cs generalizing rows k with
  | nil => exact Triple.pure' ⟨k, rfl, h, by simpa using hn, fun hnil _ => ⟨hnil, by simp⟩⟩
  | cons e cs ih =>
    obtain ⟨id, c⟩ := e
    have hid : id ∉ rows.map ScheduledSequence.requestId := fun hm =>
      (List.nodup_append.mp hdistinct).2.2 id hm id (by simp) rfl
    have hcs : (rows.map ScheduledSequence.requestId ++ cs.map Prod.fst).Nodup :=
      hdistinct.sublist (List.Sublist.append (.refl _) (List.sublist_cons_self _ _))
    obtain ⟨q₀, hq₀⟩ := hfound (id, c) (by simp)
    obtain ⟨q₁, hq₁, -⟩ := h.same.get hq₀
    rw [List.length_cons] at hn
    unfold reserveRows
    refine Triple.ite (fun hfull => Triple.pure' ⟨k, rfl, h, by omega, fun hnil hpos => ?_⟩) fun _ => ?_
    · simp only [hnil, List.length_nil] at hfull
      omega
    refine Triple.bind (Q := fun fits s' => s' = withKv s₀ k ∧
      if fits then ∃ q, CanAppend k id width q else ∀ q, ¬CanAppend k id width q)
      (Triple.zoom (canAppend_rule (fun hno => by simp [hq₁] at hno) (fun q hq => ⟨rfl, q, hq⟩)
        fun hno => ⟨rfl, hno⟩)) ?_
    rintro fits _ ⟨rfl, hfits⟩
    cases fits with
    | false =>
      refine (ih (fun e he => htokens e (List.mem_cons_of_mem _ he))
        (fun e he => hfound e (List.mem_cons_of_mem _ he)) hcs (by omega) h).mono ?_ fun _ _ hf => hf
      rintro rows' s' ⟨k', rfl, h', hle, hnone⟩
      refine ⟨k', rfl, h', hle, fun hnil hpos => ?_⟩
      obtain ⟨hrows, hrest⟩ := hnone hnil hpos
      refine ⟨hrows, fun e he => ?_⟩
      rcases List.mem_cons.mp he with rfl | he
      · rw [← h.untouched hrows]
        exact hfits
      · exact hrest e he
    | true =>
      obtain ⟨q, hq⟩ := hfits
      refine Triple.bind ((htokens (id, c) (by simp) k h.same).mono (fun _ _ h => h)
        fun _ _ hf => hf.elim) ?_
      rintro tokens _ ⟨rfl, hlen, hin⟩
      have hbegin := Guarantee.Kept.call
        (Triple.of_discard (hG.ops _ (.beginAppend id width) h.kv nofun)) (beginAppend_effect hq)
      refine Triple.bind (kv_onError hbegin (P := Exhausted G s₀ n) ?_) ?_
      · rintro _ ⟨rfl, hids⟩
        exact hundo rows _ h (by omega) hids
      · rintro _ _ ⟨k', rfl, ⟨ps, rfl, hb⟩, hk'⟩
        have hpush := h.push hG hq hk' hb hid hlen hin
        refine (ih (fun e he => htokens e (List.mem_cons_of_mem _ he))
          (fun e he => hfound e (List.mem_cons_of_mem _ he)) ?_ ?_ hpush).mono ?_ fun _ _ hf => hf
        · simpa [scheduledSequence, receipt, begun] using hdistinct
        · rw [List.length_append, List.length_singleton]
          omega
        · rintro rows' s' ⟨k'', rfl, h'', hle, hnone⟩
          exact ⟨k'', rfl, h'', hle, fun hnil hpos => absurd (hnone hnil hpos).1 (by simp)⟩

theorem cancelled_sameCommitted {rids : List KvReservationId} (h : SeqOk k)
    (hs : Settled k (cancelRows rids) k') : SameCommitted k k' := by
  refine ⟨hs.config, fun j => ?_⟩
  by_cases hj : ∃ row ∈ cancelRows rids, ∃ res, k.reservations[row.1]? = some res ∧ res.requestId = j
  · obtain ⟨row, hrow, res, hres, rfl⟩ := hj
    obtain ⟨q', hq', -, hc'⟩ := hs.done row hrow res hres
    obtain ⟨q, hq, hok⟩ := h.reserved _ res hres
    obtain ⟨rid, -, rfl⟩ := List.mem_map.mp hrow
    simp [hq', hq, hc', hok.start]
  · rw [hs.others j fun row hrow res hres heq => hj ⟨row, hrow, res, hres, heq⟩]

theorem rollback_ok {k₀ : PagedKvCacheManager} {width n : Nat}
    {I : RequestId → List Token → Prop} (hG : G.Kept) (hk₀ : k₀ = s₀.kvCache)
    (h : Reserving G k₀ width I rows k) (hn : rows.length ≤ n) (hids : u64Max ≤ k.nextReservation) :
    Triple (rollbackScheduledRows rows) (withKv s₀ k) (fun _ => Exhausted G s₀ n)
      (Fails G (Exhausted G s₀ n)) := by
  subst hk₀
  have hcount : k.nextReservation ≤ s₀.kvCache.nextReservation + n := by
    rw [h.count]
    omega
  have hcancel := Guarantee.Kept.call
    (hG.ops _ (.cancelAppends (rows.map fun row => row.reservationId)) h.kv nofun)
    (cancelAppends_effect (hG.tables _ h.kv))
  unfold rollbackScheduledRows
  refine Triple.zoom (hcancel.mono ?_ ?_)
  · rintro _ k' ⟨hs, hk'⟩
    exact ⟨rfl, hk', h.same.trans (cancelled_sameCommitted (hG.tables _ h.kv) hs),
      hs.nextReservation ▸ hids, hs.nextReservation ▸ hcount⟩
  · rintro f k' hf
    refine hf.imp_right ?_
    rintro ⟨hnot, rfl⟩
    exact ⟨hnot, rfl, h.kv, h.same, hids, hcount⟩

/-- Nothing was scheduled from `s`, for the reason `stuck`, or a batch was. -/
def Placed (G : Guarantee) (s : ContinuousBatchScheduler) (stuck : Prop) (found : Option ScheduledBatch)
    (s' : ContinuousBatchScheduler) : Prop :=
  match found with
  | none => s' = s ∧ stuck
  | some batch => batch.sequences ≠ [] ∧ Inv G { s' with inFlight := some batch }

/-- Marking the rows of batch `b`: `rest` is still to come. -/
structure Marking (G : Guarantee) (s₀ : ContinuousBatchScheduler) (k : PagedKvCacheManager) (b : Nat)
    (rows rest : List ScheduledSequence) (s : ContinuousBatchScheduler) : Prop where
  marked : ∃ done, done ++ rest = rows ∧ Core G b (done.map ScheduledSequence.requestId) s
  kv : s.kvCache = k
  history : ∀ (j : Nat) r, s.active[j]? = some r →
    ∃ r₀, s₀.active[j]? = some r₀ ∧ r.history = r₀.history

theorem setPhase_ok {rest : List ScheduledSequence}
    (hrow : ∃ q, k.sequences[row.requestId]? = some q) (h : Marking G s₀ k b rows (row :: rest) s) :
    Triple (setPhase row.requestId (.inFlight b)) s (fun _ s' => Marking G s₀ k b rows rest s')
      (Fails G fun _ => False) := by
  obtain ⟨done, hsplit, hcore⟩ := h.marked
  obtain ⟨q, hq⟩ := hrow
  rw [← h.kv] at hq
  obtain ⟨r, hr⟩ := hcore.domain _ q hq
  have hrun := hcore.running _ r hr
  unfold setPhase
  refine Triple.get_bind (Triple.need_bind (fun hno => by simp [hr] at hno) fun r' hr' => ?_)
  obtain rfl : r = r' := by simpa [hr] using hr'
  refine Triple.set' ⟨⟨done ++ [row], by simpa using hsplit, ?_⟩, h.kv, fun j r₂ hr₂ => ?_⟩
  · rw [List.map_append, List.map_singleton]
    refine hcore.put hr ⟨hrun.fresh, hrun.prompt, hrun.history, hrun.more, hrun.fits, hrun.eos,
      hrun.good⟩ rfl hq (.inFlight rfl (by simp)) (fun j hj => ?_) fun _ => rfl
    simp [hj]
  · rw [putActive_get] at hr₂
    split at hr₂
    · next hj =>
      cases hr₂
      exact h.history j r (hj ▸ hr)
    · exact h.history j r₂ hr₂

theorem finishSchedule_ok {width : Nat} {I : RequestId → List Token → Prop}
    (hcore : Core G b [] s₀) (hbatch : s₀.nextBatch < u64Max)
    (h : Reserving G s₀.kvCache width I rows k)
    (htokens : ∀ row ∈ rows, ∀ r, s₀.active[row.requestId]? = some r → RowTokens kind row r) :
    Triple (finishSchedule kind rows) (withKv s₀ k) (fun found s' => Placed G s₀ (rows = []) found s')
      (Fails G fun _ => False) := by
  unfold finishSchedule
  refine Triple.ite (fun hnil => Triple.pure' ⟨?_, hnil⟩) fun hne => ?_
  · rw [h.untouched hnil]
  have hfound : ∀ row ∈ rows, ∃ q, k.sequences[row.requestId]? = some q := fun row hrow => by
    obtain ⟨q₀, hq₀, -⟩ := h.start row hrow
    obtain ⟨q, hq, -⟩ := h.same.get hq₀
    exact ⟨q, hq⟩
  refine Triple.get_bind ?_
  dsimp only
  split
  · next hover =>
    rw [checkedAdd_of_le (show s₀.nextBatch + 1 ≤ u64Max from hbatch)] at hover
    cases hover
  next nextBatch hid =>
  refine Triple.ite (fun hno => ?_) fun _ => Triple.set_bind ?_
  · obtain ⟨row, hrow, hnone⟩ := hno
    obtain ⟨q₀, hq₀, -⟩ := h.start row hrow
    obtain ⟨r, hr⟩ := hcore.domain _ q₀ hq₀
    simp [hr] at hnone
  have hstart : Marking G s₀ k s₀.nextBatch rows rows
      { withKv s₀ k with nextBatch, nextBatch_le := checkedAdd_le hid } :=
    ⟨⟨[], rfl, ((hcore.sameCommitted h.kv h.same).rebase _).congr rfl rfl rfl rfl rfl rfl rfl hcore.setup⟩, rfl,
      fun j r hr => ⟨r, hr, rfl⟩⟩
  refine Triple.bind (Triple.forM (I := fun rest s => (∀ row ∈ rest, row ∈ rows) ∧
    Marking G s₀ k s₀.nextBatch rows rest s) ⟨fun _ h => h, hstart⟩ ?_) ?_
  · rintro row rest s ⟨hmem, hm⟩
    exact (setPhase_ok (hfound row (hmem row (by simp))) hm).mono
      (fun _ _ h' => ⟨fun row' hrow' => hmem row' (List.mem_cons_of_mem _ hrow'), h'⟩) fun _ _ hf => hf
  · rintro _ s ⟨-, hm⟩
    obtain ⟨done, hdone, hcore'⟩ := hm.marked
    obtain rfl : done = rows := by simpa using hdone
    have hn : ∀ row ∈ done, row.tokenIds.length =
        ScheduledBatch.nextN { id := s₀.nextBatch, kind, sequences := done } := fun row hrow => by
      obtain ⟨first, rest, rfl⟩ := List.exists_cons_of_ne_nil hne
      rw [h.width row hrow]
      exact (h.width first (by simp)).symm
    refine Triple.pure' ⟨hne, hcore'.congr rfl rfl rfl rfl rfl rfl rfl hcore'.setup, ?_, h.distinct, ?_⟩
    · show Idle G _ s.kvCache
      rw [hm.kv]
      exact h.idle
    · rintro _ ⟨⟩
      refine ⟨hne, fun row hrow => ⟨⟨?_, h.context row hrow, fun r hr => ?_⟩, hn row hrow⟩⟩
      · show ∃ res, s.kvCache.reservations[row.reservationId]? = some res ∧ _
        rw [hm.kv]
        exact h.reserved row hrow
      · obtain ⟨r₀, hr₀, hhist⟩ := hm.history _ r hr
        obtain ⟨hin, hlast⟩ := htokens row hrow r₀ hr₀
        exact ⟨by rw [hhist]; exact hin, by rw [hhist]; exact hlast⟩

-- The schedulers

/-- Between batches, with a batch id left. -/
structure Ready (G : Guarantee) (s : ContinuousBatchScheduler) : Prop where
  core : Core G 0 [] s
  idle : Idle G [] s.kvCache
  free : s.inFlight = none
  batch : s.nextBatch < u64Max

theorem Ready.inv (h : Ready G s) : Inv G s := Inv.of_none h.free h.core h.idle

theorem placeRows_ok {limit width : Nat} {I : RequestId → List Token → Prop}
    {undo : List ScheduledSequence → BatchM Unit} {tokensOf : RequestId → κ → BatchM (List Token)}
    {cs : List (RequestId × κ)} (hG : G.Kept) (h : Ready G s)
    (hundo : ∀ rows k, Reserving G s.kvCache width I rows k → rows.length ≤ s.active.size →
      u64Max ≤ k.nextReservation → Triple (undo rows) (withKv s k)
        (fun _ => Exhausted G s s.active.size) (Fails G (Exhausted G s s.active.size)))
    (htokens : ∀ e ∈ cs, ∀ k, SameCommitted s.kvCache k → Triple (tokensOf e.1 e.2) (withKv s k)
      (fun tokens s' => s' = withKv s k ∧ tokens.length = width ∧ I e.1 tokens) (fun _ _ => False))
    (hsub : (cs.map Prod.fst).Sublist (s.active.toList.map Prod.fst))
    (hinput : ∀ row r q, I row.requestId row.tokenIds → s.active[row.requestId]? = some r →
      s.kvCache.sequences[row.requestId]? = some q → q.committedTokens = row.startPosition →
      row.contextLength = row.startPosition + width → RowTokens kind row r) :
    Triple (do let rows ← reserveRows limit width undo tokensOf cs []; finishSchedule kind rows) s
      (Placed G s (0 < limit → ∀ e ∈ cs, ∀ q, ¬CanAppend s.kvCache e.1 width q))
      (Fails G (Exhausted G s s.active.size)) := by
  have hlen : cs.length ≤ s.active.size := by
    simpa using hsub.length_le
  have hnd : (cs.map Prod.fst).Nodup := (BTreeMap.nodup_keys_toList s.active).sublist hsub
  have hfound : ∀ e ∈ cs, ∃ q, s.kvCache.sequences[e.1]? = some q := fun e he => by
    obtain ⟨⟨id, r⟩, hm, hid⟩ := List.mem_map.mp (hsub.subset (List.mem_map_of_mem he))
    obtain ⟨q, hq, -⟩ := h.core.phases id r ((BTreeMap.mem_toList _ _ _).mp hm)
    exact ⟨q, by rw [← hid]; exact hq⟩
  refine Triple.bind (reserveRows_ok hG hundo htokens hfound (by simpa using hnd)
    (by simpa using hlen) (Reserving.nil h.core.kv h.idle)) ?_
  rintro rows _ ⟨k, rfl, hres, -, hnone⟩
  refine (finishSchedule_ok h.core h.batch hres fun row hrow r hr => ?_).mono ?_
    fun _ _ hf => hf.never
  · obtain ⟨q, hq, hstart⟩ := hres.start row hrow
    refine hinput row r q (hres.input row hrow) hr hq hstart ?_
    rw [hres.context row hrow, hres.width row hrow]
  · rintro (_ | batch) s' hplaced
    · exact ⟨hplaced.1, fun hpos => (hnone hplaced.2 hpos).2⟩
    · exact hplaced

theorem scheduleDecode_ok (hG : G.Kept) (h : Ready G s) :
    Triple scheduleDecode s
      (Placed G s (∀ (id : Nat) r token, s.active[id]? = some r → r.phase = .awaitingDecode token →
        ∀ q, ¬CanAppend s.kvCache id 1 q))
      (Fails G (Exhausted G s s.active.size)) := by
  unfold scheduleDecode
  have hselect : ∀ id r, (id, r) ∈ s.active.toList → Triple (decodeCandidate id r) s
      (fun found s' => s' = s ∧ ∀ token, found = some token ↔ r.phase = .awaitingDecode token)
      (fun _ _ => False) := by
    intro id r _
    unfold decodeCandidate
    split
    · next token hp => exact Triple.pure' ⟨rfl, by simp [hp]⟩
    · next hp => exact Triple.pure' ⟨rfl, fun token => ⟨nofun, fun h => absurd h (hp token)⟩⟩
  refine Triple.get_bind (Triple.bind ((collect_ok hselect).mono (fun _ _ h => h) fun _ _ hf => hf.elim) ?_)
  rintro cs s₁ ⟨hs₁, hsub, hsound, hall⟩
  obtain rfl : s = s₁ := hs₁.symm
  have htokens : ∀ e ∈ cs, ∀ k, SameCommitted s.kvCache k → Triple (pure [e.2] : BatchM (List Token))
      (withKv s k) (fun tokens s' => s' = withKv s k ∧ tokens.length = 1 ∧
        ∃ r token, s.active[e.1]? = some r ∧ r.phase = .awaitingDecode token ∧ tokens = [token])
      (fun _ _ => False) := by
    intro e he k _
    obtain ⟨r, hm, hsel⟩ := hsound e he
    exact Triple.pure' ⟨rfl, rfl, r, e.2, (BTreeMap.mem_toList _ _ _).mp hm, (hsel e.2).mp rfl, rfl⟩
  refine (placeRows_ok (I := fun id tokens => ∃ r token, s.active[id]? = some r ∧
    r.phase = .awaitingDecode token ∧ tokens = [token]) hG h
    (fun rows k hres hn hids => rollback_ok hG rfl hres hn hids) htokens hsub ?_).mono ?_ fun _ _ hf => hf
  · rintro row r q ⟨r', token, hr', hphase, htok⟩ hr hq hstart hctx
    obtain rfl : r = r' := by simpa [hr] using hr'
    obtain ⟨q', hq', hp⟩ := h.core.phases _ r hr
    obtain rfl : q = q' := by simpa [hq] using hq'
    unfold PhaseOk at hp
    rw [hphase] at hp
    obtain ⟨hlast, hlen⟩ := hp
    refine ⟨fun _ => ?_, fun _ => ⟨by rw [htok, hlast]; rfl, ?_⟩⟩ <;> omega
  · rintro (_ | batch) s' hplaced
    · refine ⟨hplaced.1, fun id r token hr hp => ?_⟩
      rcases hall id r ((BTreeMap.mem_toList _ _ _).mpr hr) with ⟨c, hc⟩ | hnone
      · exact hplaced.2 h.core.maxTokens (id, c) hc
      · exact absurd ((hnone token).mpr hp) nofun
    · exact hplaced

theorem verifyTokens_ok {config : SpeculativeConfig} {candidate : Token × List Token}
    (hne : candidate.2 ≠ []) :
    Triple (verifyTokens config candidate) s
      (fun tokens s' => s' = s ∧ tokens.length = config.draftTokens + 1 ∧ tokens.head? = some candidate.1)
      (fun _ _ => False) := by
  unfold verifyTokens
  refine Triple.expect_bind (fun hno => hne (List.getLast?_eq_none_iff.mp hno)) fun pad _ => ?_
  refine Triple.pure' ⟨rfl, ?_, rfl⟩
  simp only [List.length_cons, List.length_append, List.length_take, List.length_replicate]
  omega

theorem scheduleVerify_ok (hG : G.Kept) (h : Ready G s)
    (hspec : ∀ config, s.speculative = some config → config.draftTokens = usizeMax → G.panics) :
    Triple scheduleVerify s (Placed G s True) (Fails G (Exhausted G s s.active.size)) := by
  unfold scheduleVerify
  refine Triple.get_bind ?_
  cases hconfig : s.speculative with
  | none => exact Triple.pure' ⟨rfl, trivial⟩
  | some config =>
    dsimp only
    refine Triple.ite (fun hzero => Triple.panic' (.inl ⟨trivial, hspec config hconfig ?_⟩)) fun hpos => ?_
    · have hle := config.draftTokens_le
      unfold wrap64 at hzero
      unfold usizeMax u64Max at hle ⊢
      omega
    have hwidth : wrap64 (config.draftTokens + 1) = config.draftTokens + 1 := by
      have hle := config.draftTokens_le
      unfold wrap64 at hpos ⊢
      unfold usizeMax u64Max at hle
      omega
    rw [hwidth]
    refine Triple.ite (fun _ => Triple.pure' ⟨rfl, trivial⟩) fun _ => ?_
    have hselect : ∀ id r, (id, r) ∈ s.active.toList →
        Triple (verifyCandidate config (config.draftTokens + 1) id r) s
          (fun found s' => s' = s ∧ ∀ c, found = some c → r.phase = .awaitingDecode c.1 ∧ c.2 ≠ [])
          (fun _ _ => False) := by
      intro id r hm
      obtain ⟨q, hq, -⟩ := h.core.phases id r ((BTreeMap.mem_toList _ _ _).mp hm)
      unfold verifyCandidate
      split
      · next token hp =>
        refine Triple.ite (fun _ => Triple.pure' ⟨rfl, nofun⟩) fun hok => ?_
        simp only [not_or] at hok
        refine Triple.bind (Q := fun _ s' => s' = s) (Triple.zoom (canAppend_rule
          (fun hno => by simp [hq] at hno) (fun _ _ => rfl) fun _ => rfl)) ?_
        rintro fits _ rfl
        refine Triple.pure' ⟨rfl, fun c hc => ?_⟩
        split at hc
        · cases hc
          exact ⟨hp, hok.2.2⟩
        · cases hc
      · exact Triple.pure' ⟨rfl, nofun⟩
    refine Triple.bind ((collect_ok hselect).mono (fun _ _ h => h) fun _ _ hf => hf.elim) ?_
    rintro cs s₁ ⟨hs₁, hsub, hsound, -⟩
    obtain rfl : s = s₁ := hs₁.symm
    have htokens : ∀ e ∈ cs, ∀ k, SameCommitted s.kvCache k → Triple (verifyTokens config e.2)
        (withKv s k) (fun tokens s' => s' = withKv s k ∧ tokens.length = config.draftTokens + 1 ∧
          ∃ r token, s.active[e.1]? = some r ∧ r.phase = .awaitingDecode token ∧
            tokens.head? = some token) (fun _ _ => False) := by
      intro e he k _
      obtain ⟨r, hm, hsel⟩ := hsound e he
      obtain ⟨hp, hne⟩ := hsel e.2 rfl
      refine (verifyTokens_ok hne).mono ?_ fun _ _ hf => hf
      rintro tokens _ ⟨rfl, hlen, hhead⟩
      exact ⟨rfl, hlen, r, e.2.1, (BTreeMap.mem_toList _ _ _).mp hm, hp, hhead⟩
    have hundo : ∀ rows k, Reserving G s.kvCache (config.draftTokens + 1)
        (fun id tokens => ∃ r token, s.active[id]? = some r ∧ r.phase = .awaitingDecode token ∧
          tokens.head? = some token) rows k → rows.length ≤ s.active.size →
        u64Max ≤ k.nextReservation → Triple (pure () : BatchM Unit) (withKv s k)
          (fun _ => Exhausted G s s.active.size) (Fails G (Exhausted G s s.active.size)) :=
      fun rows k hres hn hids => Triple.pure' ⟨rfl, hres.kv, hres.same, hids, by
        rw [hres.count]
        omega⟩
    refine (placeRows_ok hG h hundo htokens hsub ?_).mono ?_ fun _ _ hf => hf
    · rintro row r q ⟨r', token, hr', hphase, htok⟩ hr hq hstart hctx
      obtain rfl : r = r' := by simpa [hr] using hr'
      obtain ⟨q', hq', hp⟩ := h.core.phases _ r hr
      obtain rfl : q = q' := by simpa [hq] using hq'
      unfold PhaseOk at hp
      rw [hphase] at hp
      exact ⟨fun hk => absurd rfl hk, fun _ => ⟨by rw [htok, hp.1], hstart ▸ hp.2⟩⟩
    · rintro (_ | batch) s' hplaced
      · exact ⟨hplaced.1, trivial⟩
      · exact hplaced

/-- Length of the next chunk of `r` when `committed` tokens are in KV. -/
def chunkLength (s : ContinuousBatchScheduler) (r : ActiveRequest) (committed : Nat) : Nat :=
  let remaining := r.history.length - committed
  min (min remaining (s.prefillChunkTokens.getD remaining)) s.config.maxBatchTokens

theorem chunkLength_le (s : ContinuousBatchScheduler) (r : ActiveRequest) (committed : Nat) :
    chunkLength s r committed ≤ r.history.length - committed :=
  (Nat.min_le_left _ _).trans (Nat.min_le_left _ _)

theorem prefillChunk_ok (hq : s.kvCache.sequences[id]? = some q) :
    Triple (prefillChunk id r) s
      (fun chunk s' => s' = s ∧ chunk = (q.committedTokens, chunkLength s r q.committedTokens))
      (fun _ _ => False) := by
  unfold prefillChunk
  have hread : Triple (PagedKvCacheManager.committedTokens id) s.kvCache
      (fun c k => k = s.kvCache ∧ c = q.committedTokens) (fun _ _ => False) := by
    unfold PagedKvCacheManager.committedTokens
    refine Triple.get_bind (Triple.need_bind (fun hno => by simp [hq] at hno) fun q' hq' => ?_)
    obtain rfl : q = q' := by simpa [hq] using hq'
    exact Triple.pure' ⟨rfl, rfl⟩
  refine Triple.bind (Q := fun c s' => s' = s ∧ c = q.committedTokens)
    (Triple.zoom (hread.mono ?_ fun _ _ hf => hf)) ?_
  · rintro c k ⟨rfl, rfl⟩
    exact ⟨rfl, rfl⟩
  · rintro c _ ⟨rfl, rfl⟩
    exact Triple.get_bind (Triple.pure' ⟨rfl, rfl⟩)

theorem prefillTokens_ok {n : Nat} (hr : s.active[id]? = some r)
    (hq : s.kvCache.sequences[id]? = some q) (hn : chunkLength s r q.committedTokens = n)
    (hc : q.committedTokens ≤ r.history.length) :
    Triple (prefillTokens n id) s (fun tokens s' => s' = s ∧ tokens.length = n) (fun _ _ => False) := by
  have hle := chunkLength_le s r q.committedTokens
  unfold prefillTokens
  refine Triple.get_bind (Triple.expect_bind (fun hno => by simp [hr] at hno) fun r' hr' => ?_)
  obtain rfl : r = r' := by simpa [hr] using hr'
  refine Triple.bind (prefillChunk_ok hq) ?_
  rintro _ s₁ ⟨hs₁, rfl⟩
  obtain rfl : s = s₁ := hs₁.symm
  refine Triple.ite (fun hne => absurd hn hne) fun _ => ?_
  refine Triple.ite (fun hbig => by omega) fun _ => Triple.pure' ⟨rfl, ?_⟩
  simp only [List.length_take, List.length_drop]
  omega

-- Buckets

theorem mem_push {key : Nat × Bool} {buckets : Buckets} {bucket : (Nat × Bool) × List RequestId}
    (h : bucket ∈ buckets.push key id) :
    bucket ∈ buckets ∨ bucket.1 = key ∧
      ((∃ ids, (key, ids) ∈ buckets ∧ bucket.2 = ids ++ [id]) ∨ bucket.2 = [id]) := by
  induction buckets with
  | nil =>
    obtain rfl := List.mem_singleton.mp h
    exact .inr ⟨rfl, .inr rfl⟩
  | cons head rest ih =>
    obtain ⟨key', ids⟩ := head
    unfold Buckets.push at h
    split at h
    · rcases List.mem_cons.mp h with rfl | h
      · exact .inr ⟨rfl, .inr rfl⟩
      · exact .inl h
    · next heq =>
      obtain ⟨h1, h2⟩ := Ordering.then_eq_eq.mp heq
      have hkey : key = key' := Prod.ext (Nat.compare_eq_eq.mp h1) (by simpa using h2)
      rcases List.mem_cons.mp h with rfl | h
      · exact .inr ⟨hkey.symm, .inl ⟨ids, by simp [hkey], rfl⟩⟩
      · exact .inl (List.mem_cons_of_mem _ h)
    · rcases List.mem_cons.mp h with rfl | h
      · exact .inl (by simp)
      · rcases ih h with h | ⟨hk, ⟨ids', hm, hb⟩ | hb⟩
        · exact .inl (List.mem_cons_of_mem _ h)
        · exact .inr ⟨hk, .inl ⟨ids', List.mem_cons_of_mem _ hm, hb⟩⟩
        · exact .inr ⟨hk, .inr hb⟩

theorem push_ne_nil {key : Nat × Bool} {buckets : Buckets} : buckets.push key id ≠ [] := by
  cases buckets with
  | nil => simp [Buckets.push]
  | cons head rest =>
    unfold Buckets.push
    split <;> simp

theorem buckets_ok {cs : List (RequestId × (Nat × Bool))} {bucket : (Nat × Bool) × List RequestId}
    (h : bucket ∈ cs.foldl (fun (buckets : Buckets) c => buckets.push c.2 c.1) []) :
    bucket.2 ≠ [] ∧ (∀ id ∈ bucket.2, (id, bucket.1) ∈ cs) ∧ bucket.2.Sublist (cs.map Prod.fst) := by
  induction cs using List.reverseRecOn generalizing bucket with
  | nil => simp at h
  | append_singleton cs c ih =>
    rw [List.foldl_append, List.foldl_cons, List.foldl_nil] at h
    rw [List.map_append, List.map_singleton]
    rcases mem_push h with h | ⟨hkey, ⟨ids, hm, hb⟩ | hb⟩
    · obtain ⟨hne, hmem, hsub⟩ := ih h
      exact ⟨hne, fun id hid => List.mem_append_left _ (hmem id hid),
        hsub.trans (List.sublist_append_left _ _)⟩
    · obtain ⟨-, hmem, hsub⟩ := ih hm
      rw [hb, hkey]
      refine ⟨by simp, fun id hid => ?_, hsub.append (.refl _)⟩
      rcases List.mem_append.mp hid with hid | hid
      · exact List.mem_append_left _ (hmem id hid)
      · rw [List.mem_singleton.mp hid]
        simp
    · rw [hb, hkey]
      refine ⟨by simp, fun id hid => ?_, List.sublist_append_right _ _⟩
      rw [List.mem_singleton.mp hid]
      simp

theorem buckets_eq_nil {cs : List (RequestId × (Nat × Bool))}
    (h : cs.foldl (fun (buckets : Buckets) c => buckets.push c.2 c.1) [] = []) : cs = [] := by
  induction cs using List.reverseRecOn with
  | nil => rfl
  | append_singleton cs c ih =>
    rw [List.foldl_append, List.foldl_cons, List.foldl_nil] at h
    exact absurd h push_ne_nil

/-- `r` can be prefilled with a chunk of `n` tokens. -/
structure Prefillable (s : ContinuousBatchScheduler) (id : RequestId) (r : ActiveRequest) (n : Nat)
    (q : SequenceState) : Prop where
  phase : r.phase = .needsPrefill
  ready : id ∉ s.deferredPrefill
  length : chunkLength s r q.committedTokens = n
  fits : CanAppend s.kvCache id n q

theorem prefillCandidate_ok (hq : s.kvCache.sequences[id]? = some q) :
    Triple (prefillCandidate id r) s
      (fun found s' => s' = s ∧ (∀ c, found = some c → Prefillable s id r c.1 q) ∧
        (found = none → ∀ n, ¬Prefillable s id r n q))
      (fun _ _ => False) := by
  unfold prefillCandidate
  refine Triple.bind (prefillChunk_ok hq) ?_
  rintro _ s₁ ⟨hs₁, rfl⟩
  obtain rfl : s = s₁ := hs₁.symm
  refine Triple.get_bind (Triple.ite (fun hok => ?_) fun hno => Triple.pure' ⟨rfl, nofun, fun _ n h => ?_⟩)
  · refine Triple.bind (Q := fun fits s' => s' = s ∧
      (fits = true ↔ CanAppend s.kvCache id (chunkLength s r q.committedTokens) q))
      (Triple.zoom (canAppend_rule (fun hno => by simp [hq] at hno) (fun q' hq' => ⟨rfl, ?_⟩)
        fun hno => ⟨rfl, by simpa using hno q⟩)) ?_
    · obtain rfl : q = q' := by simpa [hq] using hq'.found
      simpa using hq'
    · rintro fits s₁ ⟨hs₁, hfits⟩
      obtain rfl : s = s₁ := hs₁.symm
      cases fits with
      | true =>
        refine Triple.pure' ⟨rfl, fun c hc => ?_, nofun⟩
        cases hc
        exact ⟨hok.1, hok.2.1, rfl, hfits.mp rfl⟩
      | false =>
        refine Triple.pure' ⟨rfl, nofun, fun _ n h => ?_⟩
        obtain rfl := h.length
        exact absurd (hfits.mpr h.fits) nofun
  · refine hno ⟨h.phase, h.ready, ?_⟩
    show 0 < chunkLength s r q.committedTokens
    rw [h.length]
    exact h.fits.pos

theorem schedulePrefill_ok (hG : G.Kept) (h : Ready G s) :
    Triple schedulePrefill s
      (Placed G s (∀ (id : Nat) r, s.active[id]? = some r → ∀ n q, ¬Prefillable s id r n q))
      (Fails G (Exhausted G s s.active.size)) := by
  unfold schedulePrefill
  have hselect : ∀ id r, (id, r) ∈ s.active.toList → Triple (prefillCandidate id r) s
      (fun found s' => s' = s ∧ (∀ c, found = some c → ∃ q, Prefillable s id r c.1 q) ∧
        (found = none → ∀ n q, ¬Prefillable s id r n q))
      (fun _ _ => False) := by
    intro id r hm
    obtain ⟨q, hq, -⟩ := h.core.phases id r ((BTreeMap.mem_toList _ _ _).mp hm)
    refine (prefillCandidate_ok hq).mono ?_ fun _ _ hf => hf
    rintro found _ ⟨rfl, hsome, hnone⟩
    refine ⟨rfl, fun c hc => ⟨q, hsome c hc⟩, fun hn n q' hp => ?_⟩
    obtain rfl : q = q' := by simpa [hq] using hp.fits.found
    exact hnone hn n hp
  refine Triple.get_bind (Triple.bind ((collect_ok hselect).mono (fun _ _ h => h) fun _ _ hf => hf.elim) ?_)
  rintro cs s₁ ⟨hs₁, hsub, hsound, hall⟩
  obtain rfl : s = s₁ := hs₁.symm
  dsimp only
  split
  · -- no bucket, so no candidate
    next hmax =>
    have hcs : cs = [] := buckets_eq_nil (maxBy_eq_none.mp hmax)
    refine Triple.pure' ⟨rfl, fun id r hr n q => ?_⟩
    rcases hall id r ((BTreeMap.mem_toList _ _ _).mpr hr) with ⟨c, hc⟩ | ⟨-, hnone⟩
    · simp [hcs] at hc
    · exact hnone rfl n q
  · next nextN flag ids hmax =>
    obtain ⟨hne, hmem, hids⟩ := buckets_ok (maxBy_mem hmax)
    -- every id of the bucket can be prefilled with `nextN` tokens
    have hfit : ∀ id ∈ ids, ∃ r q, s.active[id]? = some r ∧ Prefillable s id r nextN q := by
      intro id hid
      obtain ⟨r, hm, hsome, -⟩ := hsound _ (hmem id hid)
      obtain ⟨q, hp⟩ := hsome _ rfl
      exact ⟨r, q, (BTreeMap.mem_toList _ _ _).mp hm, hp⟩
    have hle : ∀ {id r n q}, s.active[id]? = some r → Prefillable s id r n q →
        q.committedTokens + n ≤ r.history.length := by
      intro id r n q hr hp
      have hlen := chunkLength_le s r q.committedTokens
      have hpos := hp.fits.pos
      rw [hp.length] at hlen
      omega
    have htokens : ∀ e ∈ ids.map fun id => (id, ()), ∀ k, SameCommitted s.kvCache k →
        Triple (prefillTokens nextN e.1) (withKv s k)
          (fun tokens s' => s' = withKv s k ∧ tokens.length = nextN ∧
            ∃ r q, s.active[e.1]? = some r ∧ Prefillable s e.1 r nextN q) (fun _ _ => False) := by
      intro e he k hk
      obtain ⟨id, hid, rfl⟩ := List.mem_map.mp he
      obtain ⟨r, q, hr, hp⟩ := hfit id hid
      obtain ⟨q', hq', hc⟩ := hk.get hp.fits.found
      have := hle hr hp
      refine (prefillTokens_ok (s := withKv s k) hr hq' ?_ (by omega)).mono ?_ fun _ _ hf => hf
      · rw [hc]
        exact hp.length
      · rintro tokens _ ⟨rfl, hlen⟩
        exact ⟨rfl, hlen, r, q, hr, hp⟩
    refine (placeRows_ok (I := fun id _ => ∃ r q, s.active[id]? = some r ∧ Prefillable s id r nextN q)
      hG h (fun rows k hres hn hids => rollback_ok hG rfl hres hn hids) htokens ?_ ?_).mono ?_
      fun _ _ hf => hf
    · rw [List.map_map]
      simpa [Function.comp_def] using hids.trans hsub
    · rintro row r q ⟨r', q', hr', hp⟩ hr hq hstart hctx
      obtain rfl : r = r' := by simpa [hr] using hr'
      obtain rfl : q = q' := by simpa [hq] using hp.fits.found
      refine ⟨fun _ => ?_, fun hk => absurd rfl hk⟩
      have := hle hr hp
      omega
    · rintro (_ | batch) s' hplaced
      · -- the first id of the bucket would have been taken
        obtain ⟨id, rest, rfl⟩ := List.exists_cons_of_ne_nil hne
        obtain ⟨r, q, hr, hp⟩ := hfit id (by simp)
        have hlimit : 0 < s.config.maxBatchTokens / nextN := by
          refine Nat.div_pos ?_ hp.fits.pos
          rw [← hp.length]
          exact Nat.min_le_right _ _
        exact absurd hp.fits (hplaced.2 hlimit (id, ()) (by simp) q)
      · exact hplaced

end Ruda.Batch
