import Ruda.Batch.Scheduling

/-!
# Every call of the scheduler keeps the invariant

Admission, preemption and the scheduling loop, then the remaining methods, and
all of them together as `BatchOp`.
-/

namespace Ruda.Batch

open Kv ContinuousBatchScheduler

variable {G : Guarantee} {s s' : ContinuousBatchScheduler} {k k' : PagedKvCacheManager}
  {id : RequestId} {r r' : ActiveRequest} {q : SequenceState} {b : Nat} {ids : List RequestId}

-- One round of scheduling

/-- No request can be fed its next tokens. -/
structure Stuck (s : ContinuousBatchScheduler) : Prop where
  decode : ∀ (id : Nat) r token, s.active[id]? = some r → r.phase = .awaitingDecode token →
    ∀ q, ¬CanAppend s.kvCache id 1 q
  prefill : ∀ (id : Nat) r, s.active[id]? = some r → ∀ n q, ¬Prefillable s id r n q

/-- Reservation ids that a schedule may need, where they must not run out. -/
def IdsLeft (G : Guarantee) (s : ContinuousBatchScheduler) (rows : Nat) : Prop :=
  ¬G.leaks → s.kvCache.nextReservation + rows < u64Max

theorem Exhausted.inv {n : Nat} (h : Ready G s) (hids : IdsLeft G s n) (he : Exhausted G s n s') :
    Inv G s' ∧ G.leaks := by
  have hleaks : G.leaks := by
    by_contra hno
    have := hids hno
    have := he.ids.trans he.count
    omega
  refine ⟨?_, hleaks⟩
  rw [he.state]
  exact Inv.of_none h.free (h.core.sameCommitted he.kv he.same) fun hno => absurd hleaks hno

theorem Ready.turn (h : Ready G s) : Ready G { s with speculativeTurn := !s.speculativeTurn } :=
  ⟨h.core.congr rfl rfl rfl rfl rfl rfl rfl h.core.setup, h.idle, h.free, h.batch⟩

theorem Placed.none {stuck : Prop} (h : stuck) : Placed G s stuck none s := ⟨rfl, h⟩

theorem takeTurn_ok {m next : BatchM (Option ScheduledBatch)} {flag : Bool} {stuck goal : Prop}
    {t t' : ContinuousBatchScheduler} {E : Fault → ContinuousBatchScheduler → Prop}
    (hm : Triple m s (Placed G t stuck) E) (hnext : stuck → Triple next t (Placed G t' goal) E) :
    Triple (takeTurn m flag next) s (Placed G t' goal) E := by
  unfold takeTurn
  refine Triple.bind hm ?_
  rintro (_ | batch) s₁ hp
  · obtain ⟨rfl, hstuck⟩ := hp
    exact hnext hstuck
  · exact Triple.modify_bind (Triple.pure' ⟨hp.1, hp.2.congr rfl rfl rfl rfl rfl rfl rfl rfl hp.2.core.setup⟩)

theorem onlyIf_ok {m : BatchM (Option ScheduledBatch)} {flag : Bool} {stuck : Prop}
    {E : Fault → ContinuousBatchScheduler → Prop} (hm : Triple m s (Placed G s stuck) E) :
    Triple (onlyIf flag m) s (Placed G s True) E := by
  unfold onlyIf
  refine Triple.ite (fun _ => hm.mono ?_ fun _ _ hf => hf) fun _ => Triple.pure' (.none trivial)
  rintro (_ | batch) s₁ hp
  · exact ⟨hp.1, trivial⟩
  · exact hp

theorem trySchedule_ok (hG : G.Kept) (h : Ready G s) (hids : IdsLeft G s s.active.size)
    (hspec : ∀ config, s.speculative = some config → config.draftTokens = usizeMax → G.panics) :
    Triple trySchedule s (Placed G { s with speculativeTurn := !s.speculativeTurn } (Stuck s))
      (Fails G fun s' => Inv G s' ∧ G.leaks) := by
  have hfail : ∀ f t, Fails G (Exhausted G { s with speculativeTurn := !s.speculativeTurn }
      s.active.size) f t →
      Fails G (fun s' => Inv G s' ∧ G.leaks) f t :=
    fun _ _ hf => hf.mono fun he => he.inv h.turn hids
  unfold trySchedule
  refine Triple.get_bind (takeTurn_ok (onlyIf_ok ((schedulePrefill_ok hG h).mono (fun _ _ h => h)
    fun _ _ hf => hf.mono fun he => he.inv h hids)) fun _ => ?_)
  refine Triple.modify_bind (Triple.get_bind (takeTurn_ok (onlyIf_ok
    ((scheduleVerify_ok hG h.turn hspec).mono (fun _ _ h => h) hfail)) fun _ => ?_))
  refine takeTurn_ok ((scheduleDecode_ok hG h.turn).mono (fun _ _ h => h) hfail) fun hdecode => ?_
  refine takeTurn_ok ((schedulePrefill_ok hG h.turn).mono (fun _ _ h => h) hfail) fun hprefill => ?_
  refine Triple.pure' (.none ⟨hdecode, fun id r hr n q hn => ?_⟩)
  exact hprefill id r hr n q ⟨hn.phase, hn.ready, hn.length, hn.fits⟩

-- Preemption

/-- Block tables with pages in them. -/
def tablesHeld (k : PagedKvCacheManager) : Nat :=
  BTreeMap.weight (fun q : SequenceState => if q.pages = [] then 0 else 1) k.sequences

theorem pageHolder_ok (hq : s.kvCache.sequences[id]? = some q) :
    Triple (pageHolder id r) s
      (fun found s' => s' = s ∧ ∀ a, found = some a → q.pages ≠ []) (fun _ _ => False) := by
  have hread : Triple (kv (PagedKvCacheManager.blockTable id)) s
      (fun table s' => s' = s ∧ table = q.pages) (fun _ _ => False) := by
    refine Triple.zoom ?_
    unfold PagedKvCacheManager.blockTable
    refine Triple.get_bind (Triple.need_bind (fun hno => by simp [hq] at hno) fun q' hq' => ?_)
    obtain rfl : q = q' := by simpa [hq] using hq'
    exact Triple.pure' ⟨rfl, rfl⟩
  unfold pageHolder
  split
  · exact Triple.pure' ⟨rfl, nofun⟩
  · refine Triple.bind hread ?_
    rintro _ s₁ ⟨hs₁, rfl⟩
    refine Triple.pure' ⟨hs₁, fun a ha => ?_⟩
    split at ha
    · cases ha
    · next hne => exact hne

theorem Core.restart (h : Core G b [] s) (hr : s.active[id]? = some r) (hk : G.kv k)
    (hc : k.config = s.kvCache.config)
    (hget : ∀ j : Nat, k.sequences[j]? = if j = id then some emptySequence else s.kvCache.sequences[j]?) :
    Core G b [] { s.putActive id { r with phase := .needsPrefill } with kvCache := k } := by
  obtain ⟨q, hq, hp⟩ := h.phases id r hr
  have hrun := h.running id r hr
  have hlt : q.committedTokens < r.history.length := by
    unfold PhaseOk at hp
    split at hp
    · exact hp
    · have := hp.2
      omega
    · simp at hp
  have hput : Core G b [] (s.putActive id { r with phase := .needsPrefill }) := h.put hr ⟨hrun.fresh, hrun.prompt,
    hrun.history, hrun.more, hrun.fits, hrun.eos, hrun.good⟩ rfl hq hlt (fun _ _ => Iff.rfl) (by simp)
  refine hput.setKv hk hc (fun j r₂ hr₂ => ?_) fun j q₂ hq₂ => ?_
  · rw [hget j]
    by_cases hj : j = id
    · subst hj
      obtain rfl : ({ r with phase := .needsPrefill } : ActiveRequest) = r₂ := by
        simpa [putActive_get] using hr₂
      exact ⟨emptySequence, by simp, hrun.nonempty⟩
    · rw [if_neg hj]
      exact hput.phases j r₂ hr₂
  · rw [hget j] at hq₂
    by_cases hj : j = id
    · exact ⟨{ r with phase := .needsPrefill }, by simp [putActive_get, hj]⟩
    · rw [if_neg hj] at hq₂
      exact hput.domain j q₂ hq₂

theorem preemptNewest_ok (hG : G.Kept) (h : Ready G s) :
    Triple preemptNewest s
      (fun found s' => if found then Ready G s' ∧ s'.speculative = s.speculative ∧
        s'.kvCache.nextReservation = s.kvCache.nextReservation ∧ s'.active.size = s.active.size ∧
        tablesHeld s'.kvCache + 1 = tablesHeld s.kvCache else s' = s)
      (Fails G (Inv G)) := by
  unfold preemptNewest
  have hselect : ∀ id r, (id, r) ∈ s.active.toList → Triple (pageHolder id r) s
      (fun found s' => s' = s ∧ ∀ a, found = some a →
        ∃ q, s.kvCache.sequences[id]? = some q ∧ q.pages ≠ []) (fun _ _ => False) := by
    intro id r hm
    obtain ⟨q, hq, -⟩ := h.core.phases id r ((BTreeMap.mem_toList _ _ _).mp hm)
    exact (pageHolder_ok hq).mono (fun _ _ hp => ⟨hp.1, fun a ha => ⟨q, hq, hp.2 a ha⟩⟩) fun _ _ hf => hf
  refine Triple.get_bind (Triple.bind ((collect_ok hselect).mono (fun _ _ h => h) fun _ _ hf => hf.elim) ?_)
  rintro holders s₁ ⟨hs₁, -, hsound, -⟩
  obtain rfl : s = s₁ := hs₁.symm
  refine Triple.ite (fun _ => Triple.pure' rfl) fun hmany => ?_
  refine Triple.expect_bind (fun hno => ?_) fun victim hvictim => ?_
  · simp [maxBy_eq_none.mp hno] at hmany
  obtain ⟨r, hm, hheld⟩ := hsound victim (maxBy_mem hvictim)
  have hr := (BTreeMap.mem_toList _ _ _).mp hm
  obtain ⟨q, hq, hpages⟩ := hheld _ rfl
  have hremove := Guarantee.Kept.call (hG.ops _ (.removeSequence victim.1) h.core.kv nofun)
    (removeSequence_effect.mono (fun _ _ h => h.2) fun _ _ hf => hf.imp_right fun h => h.1)
  refine Triple.bind (Q := fun _ s₁ => ∃ k, s₁ = withKv s k ∧ Put s.kvCache victim.1 none k ∧ G.kv k)
    (Triple.zoom (hremove.mono (fun _ k hk => ⟨k, rfl, hk⟩) fun f k hf => hf.imp_right ?_)) ?_
  · rintro ⟨hnot, rfl⟩
    exact ⟨hnot, h.inv⟩
  rintro _ _ ⟨k, rfl, hput, hk⟩
  have hcreate := Guarantee.Kept.call (R := fun _ => False) (hG.ops _ (.createSequence victim.1) hk nofun)
    ((createSequence_effect hput.self).mono (fun _ _ h => h) fun _ _ hf => hf.elim)
  refine Triple.bind (Q := fun _ s₁ => ∃ k', s₁ = withKv s k' ∧ Put k victim.1 (some emptySequence) k' ∧
    G.kv k') (Triple.zoom (hcreate.mono (fun _ k hk => ⟨k, rfl, hk⟩) fun f k hf => hf.never)) ?_
  rintro _ _ ⟨k', rfl, hput', hk'⟩
  refine Triple.get_bind (Triple.expect_bind (fun hno => by simp [hr] at hno) fun r' hr' => ?_)
  obtain rfl : r = r' := by simpa [hr] using hr'
  have hget : ∀ j : Nat, k'.sequences[j]? =
      if j = victim.1 then some emptySequence else s.kvCache.sequences[j]? := fun j => by
    rw [hput'.get j]
    split
    · rfl
    · next hj => exact hput.other hj
  have hcore := h.core.restart hr hk' (hput'.config.trans hput.config) hget
  refine Triple.set_bind (Triple.pure' ⟨⟨hcore.congr rfl rfl rfl rfl rfl rfl rfl hcore.setup, ?_, h.free, h.batch⟩, rfl,
    hput'.nextReservation.trans hput.nextReservation, BTreeMap.size_insert_old hr, ?_⟩)
  · refine h.idle.step (fun j hj => (hget j).trans (if_neg hj)) (fun q' hq' => ?_)
      (by simp)
    have hq' : k'.sequences[victim.1]? = some q' := hq'
    rw [hget victim.1, if_pos rfl] at hq'
    cases hq'
    rfl
  · have hseq : k'.sequences = s.kvCache.sequences.insert victim.1 emptySequence := by
      apply Std.ExtTreeMap.ext_getElem?
      intro j
      rw [hget j, BTreeMap.get_insert]
    have hw := BTreeMap.weight_insert_old (fun q : SequenceState => if q.pages = [] then 0 else 1)
      (v := emptySequence) hq
    simp only [hpages, ↓reduceIte, emptySequence] at hw
    show tablesHeld k' + 1 = _
    unfold tablesHeld
    rw [hseq]
    exact hw

theorem scheduleLoop_ok {rounds : Nat} (hG : G.Kept) (h : Ready G s)
    (hids : IdsLeft G s s.active.size)
    (hspec : ∀ config, s.speculative = some config → config.draftTokens = usizeMax → G.panics)
    (hrounds : tablesHeld s.kvCache < rounds) :
    Triple (scheduleLoop rounds) s (fun _ s' => Inv G s') (Fails G (Inv G)) := by
  induction rounds generalizing s with
  | zero => simp at hrounds
  | succ rounds ih =>
    unfold scheduleLoop
    refine Triple.bind ((trySchedule_ok hG h hids hspec).mono (fun _ _ h => h)
      fun _ _ hf => hf.mono And.left) ?_
    rintro (_ | batch) s₁ hp
    · obtain ⟨rfl, -⟩ := hp
      refine Triple.get_bind (Triple.ite (fun _ => ?_) fun _ => Triple.pure' h.turn.inv)
      refine Triple.bind (preemptNewest_ok hG h.turn) ?_
      rintro (_ | _) s₂ h₂
      · obtain rfl := h₂
        exact Triple.pure' h.turn.inv
      · obtain ⟨hready, hsame, hnext, hsize, hheld⟩ := h₂
        refine ih hready (fun hno => ?_) (fun config hc => hspec config (hsame ▸ hc)) ?_
        · rw [hnext, hsize]
          exact hids hno
        have : tablesHeld s₂.kvCache + 1 = tablesHeld s.kvCache := hheld
        omega
    · exact Triple.modify_bind (Triple.pure' hp.2)

-- Admission

theorem subtractBudgets_eq {blockSize available : Nat} {l : List (RequestId × ActiveRequest)}
    (h : (l.map fun e => budgetOf blockSize e.2).sum ≤ available) :
    subtractBudgets blockSize l available =
      some (available - (l.map fun e => budgetOf blockSize e.2).sum) := by
  induction l generalizing available with
  | nil => rfl
  | cons e l ih =>
    rw [List.map_cons, List.sum_cons] at h ⊢
    unfold subtractBudgets
    have hle : budgetOf blockSize e.2 ≤ available := by omega
    have hrest : (l.map fun e => budgetOf blockSize e.2).sum ≤ available - budgetOf blockSize e.2 := by
      omega
    refine (if_pos hle).trans ((ih hrest).trans ?_)
    rw [Nat.sub_sub]

theorem find_eraseP {p : PendingRequest → Bool} {l : List PendingRequest} {x : PendingRequest}
    (h : l.find? p = some x) : ∃ l₁ l₂, l = l₁ ++ x :: l₂ ∧ l.eraseP p = l₁ ++ l₂ := by
  obtain ⟨hx, l₁, l₂, rfl, hno⟩ := List.find?_eq_some_iff_append.mp h
  refine ⟨l₁, l₂, rfl, ?_⟩
  rw [List.eraseP_append_right _ fun a ha => by simpa using hno a ha, List.eraseP_cons_of_pos hx]

/-- `p` can be paid for beside the active requests. -/
def Affordable (s : ContinuousBatchScheduler) (p : PendingRequest) : Prop :=
  s.options.kvAdmission = .reserveSequenceCapacity →
    BTreeMap.weight (budgetOf s.kvCache.config.blockSize) s.active +
      requestPageBudget p.promptTokenIds.length p.generation s.kvCache.config.blockSize ≤
        s.kvCache.config.numPages

theorem Core.admitted {p : PendingRequest} {pending : List PendingRequest} {q : SequenceState} {n m : Nat}
    (h : Core G b [] s) (hp : p ∈ s.pending) (hsub : pending.Sublist s.pending)
    (hgone : p.id ∉ pending.map PendingRequest.id) (hpay : Affordable s p) (hk : G.kv k)
    (hput : Put s.kvCache p.id (some q) k) (hq : q.committedTokens < p.promptTokenIds.length) :
    Core G b [] { withKv s k with
      pending
      active := s.active.insert p.id (activate p n)
      nextAdmission := m } := by
  have hw := h.waiting p hp
  have hget : ∀ j : Nat, (s.active.insert p.id (activate p n))[j]? =
      if j = p.id then some (activate p n) else s.active[j]? := fun j => BTreeMap.get_insert ..
  refine ⟨hk, h.maxActive, h.maxTokens, fun p' hp' => ?_, (hsub.map _).nodup h.queued, fun p' hp' => ?_,
    fun j r hr => ?_, fun j r hr => ?_, by simp, fun j q' hq' => ?_, h.finished, fun hpol => ?_, h.setup⟩
  · show Waiting G s.nextRequest k.config _ p'
    rw [hput.config]
    exact h.waiting p' (hsub.subset hp')
  · have hne : p'.id ≠ p.id := fun he => hgone (he ▸ List.mem_map_of_mem hp')
    refine (hget p'.id).trans ((if_neg hne).trans ?_)
    exact h.apart p' (hsub.subset hp')
  · show Running G s.nextRequest k.config j r
    rw [hput.config]
    replace hr := (hget j).symm.trans hr
    split at hr
    · next hj =>
      cases hr
      exact hj ▸ ⟨hw.fresh, hw.prompt, by simp [activate], hw.more, hw.fits, rfl, hw.good⟩
    · exact h.running j r hr
  · replace hr := (hget j).symm.trans hr
    split at hr
    · next hj =>
      cases hr
      exact ⟨q, hj ▸ hput.self, hq⟩
    · next hj =>
      obtain ⟨q', hq', hp'⟩ := h.phases j r hr
      exact ⟨q', (hput.other hj).trans hq', hp'⟩
  · rw [hget j]
    split
    · exact ⟨_, rfl⟩
    · next hj => exact h.domain j q' ((hput.other hj).symm.trans hq')
  · show BTreeMap.weight (budgetOf k.config.blockSize) (s.active.insert p.id (activate p n)) ≤
      k.config.numPages
    rw [hput.config, BTreeMap.weight_insert_new _ (h.apart p hp), Nat.add_comm]
    exact hpay hpol

/-- What a prefix lookup needs is there whenever a request is admitted from `s`. -/
def RoomFor (G : Guarantee) (s : ContinuousBatchScheduler) : Prop :=
  ∀ s₁ p, Core G 0 [] s₁ → Idle G [] s₁.kvCache → s₁.options = s.options → Affordable s₁ p →
    G.room s₁.kvCache p.promptTokenIds

/-- What admission leaves alone, and that it never leaves an admissible request
waiting before an empty table of active ones. -/
structure Admitted (s s' : ContinuousBatchScheduler) : Prop where
  options : s'.options = s.options
  nextReservation : s'.kvCache.nextReservation = s.kvCache.nextReservation
  speculative : s'.speculative = s.speculative
  recompute : s'.recomputePreemption = s.recomputePreemption
  deferred : s'.deferredPrefill = s.deferredPrefill
  total : s'.active.size + s'.pending.length = s.active.size + s.pending.length
  grows : s.active.size ≤ s'.active.size

theorem Admitted.refl (s : ContinuousBatchScheduler) : Admitted s s :=
  ⟨rfl, rfl, rfl, rfl, rfl, rfl, le_rfl⟩

theorem Admitted.trans {s'' : ContinuousBatchScheduler} (h : Admitted s s') (h' : Admitted s' s'') :
    Admitted s s'' :=
  ⟨h'.1.trans h.1, h'.2.trans h.2, h'.3.trans h.3, h'.4.trans h.4, h'.5.trans h.5, h'.6.trans h.6,
    h.7.trans h'.7⟩

theorem Admitted.idsLeft (h : Admitted s s') (hids : IdsLeft G s (s.active.size + s.pending.length)) :
    IdsLeft G s' s'.active.size := by
  intro hno
  have := hids hno
  have := h.total
  rw [h.nextReservation]
  omega

theorem usableBlocks_lt {tokens : List Token} (hne : tokens ≠ []) (n : Nat) (h : n ≤ usableBlocks k tokens) :
    n * k.config.blockSize < tokens.length := by
  have hpos := List.length_pos_iff.mpr hne
  have hmul := Nat.div_mul_le_self (tokens.length - 1) k.config.blockSize
  have hle : n * k.config.blockSize ≤ usableBlocks k tokens * k.config.blockSize :=
    Nat.mul_le_mul_right _ h
  unfold usableBlocks at hle
  split at hle
  · omega
  · omega

theorem promote_ok {rounds available : Nat} (hG : G.Kept) (h : Ready G s) (hroom : RoomFor G s)
    (havail : s.options.kvAdmission = .reserveSequenceCapacity →
      BTreeMap.weight (budgetOf s.kvCache.config.blockSize) s.active + available ≤
        s.kvCache.config.numPages) :
    Triple (promote G.chain rounds available) s
      (fun _ s' => Ready G s' ∧ Admitted s s' ∧
        (0 < rounds → s.active.size = 0 → (∃ p ∈ s.pending, s.admissible p = true) →
          (s.options.kvAdmission = .reserveSequenceCapacity → s.kvCache.config.numPages ≤ available) →
          0 < s'.active.size))
      (Fails G fun _ => False) := by
  induction rounds generalizing s available with
  | zero => exact Triple.pure' ⟨h, .refl s, fun hpos => absurd hpos (lt_irrefl _)⟩
  | succ rounds ih =>
    unfold promote
    refine Triple.get_bind (Triple.ite (fun _ => ?_) fun hfull => Triple.pure' ⟨h, .refl s, fun _ h0 => ?_⟩)
    swap
    · exact absurd (h0 ▸ h.core.maxActive) hfull
    cases hfind : s.pending.find? s.admissible with
    | none =>
      refine Triple.pure' ⟨h, .refl s, fun _ _ ⟨p, hp, hadm⟩ => ?_⟩
      exact absurd hadm (by simpa using List.find?_eq_none.mp hfind p hp)
    | some p =>
      obtain ⟨l₁, l₂, hsplit, herase⟩ := find_eraseP hfind
      have hp : p ∈ s.pending := by simp [hsplit]
      have hw := h.core.waiting p hp
      dsimp only
      refine Triple.ite (fun hbig => Triple.pure' ⟨h, .refl s, fun _ _ _ hall => ?_⟩) fun hpay => ?_
      · -- an admissible request fits an unused pool
        cases hpol : s.options.kvAdmission with
        | onDemand => simp [hpol] at hbig
        | reserveSequenceCapacity =>
          simp only [hpol] at hbig
          have := hw.affordable hpol
          have := hall hpol
          omega
      have hafford : Affordable s p := fun hpol => by
        simp only [hpol, not_lt] at hpay
        have := havail hpol
        omega
      have hnone : s.kvCache.sequences[p.id]? = none := by
        cases hseq : s.kvCache.sequences[p.id]? with
        | none => rfl
        | some q =>
          obtain ⟨r, hr⟩ := h.core.domain _ q hseq
          simp [h.core.apart p hp] at hr
      have hcreate := Guarantee.Kept.call (R := fun _ => False)
        (Triple.of_discard (hG.ops _ (.createSequenceWithPrefix p.id p.promptTokenIds) h.core.kv (by
          rintro _ _ ⟨⟩
          exact hroom s p h.core h.idle rfl hafford)))
        ((createSequenceWithPrefix_effect hnone).mono (fun _ _ h => h) fun _ _ hf => .inl hf)
      refine Triple.set_bind (Triple.bind (Q := fun _ s₁ => ∃ k q,
        s₁ = withKv { s with pending := s.pending.eraseP s.admissible } k ∧
        Put s.kvCache p.id (some q) k ∧ G.kv k ∧ q.pending = none ∧
        q.committedTokens < p.promptTokenIds.length)
        (Triple.zoom (hcreate.mono ?_ fun _ _ hf => hf.never)) ?_)
      · rintro _ k ⟨⟨pages, parent, hlen, hput⟩, hk⟩
        exact ⟨k, _, rfl, hput, hk, rfl, usableBlocks_lt hw.prompt _ hlen⟩
      rintro _ _ ⟨k, q, rfl, hput, hk, hidle, hcom⟩
      have hsub : (s.pending.eraseP s.admissible).Sublist s.pending := List.eraseP_sublist
      have hgone : p.id ∉ (s.pending.eraseP s.admissible).map PendingRequest.id := by
        have hnd := h.core.queued
        rw [hsplit, List.map_append, List.map_cons] at hnd
        rw [herase, List.map_append]
        exact (List.nodup_middle.mp hnd).notMem
      have hsize := BTreeMap.size_insert_new (v := activate p s.nextAdmission) (h.core.apart p hp)
      have hlen : s.pending.length = (s.pending.eraseP s.admissible).length + 1 := by
        rw [herase, hsplit]
        simp
        omega
      refine Triple.modify_bind ((ih ⟨h.core.admitted hp hsub hgone hafford hk hput hcom, ?_, h.free, h.batch⟩
        ?_ ?_).mono ?_ fun _ _ hf => hf)
      · refine h.idle.step (fun j hj => hput.other hj) (fun q' hq' => ?_) (by simp)
        obtain rfl : q = q' := by simpa using hput.self.symm.trans hq'
        exact hidle
      · exact fun s₁ p' hcore hid hopt => hroom s₁ p' hcore hid hopt
      · intro hpol
        have hpol : s.options.kvAdmission = .reserveSequenceCapacity := hpol
        show BTreeMap.weight (budgetOf k.config.blockSize)
          (s.active.insert p.id (activate p s.nextAdmission)) + _ ≤ k.config.numPages
        rw [hput.config, BTreeMap.weight_insert_new _ (h.core.apart p hp)]
        simp only [hpol, not_lt] at hpay ⊢
        have hb : budgetOf s.kvCache.config.blockSize (activate p s.nextAdmission) =
          requestPageBudget p.promptTokenIds.length p.generation s.kvCache.config.blockSize := rfl
        have := havail hpol
        omega
      · rintro _ s' ⟨hready, hadm, -⟩
        refine ⟨hready, Admitted.trans ?_ hadm, fun _ _ _ _ => lt_of_lt_of_le ?_ hadm.grows⟩
        · refine ⟨rfl, hput.nextReservation, rfl, rfl, rfl, ?_, hsize ▸ Nat.le_succ _⟩
          show (s.active.insert p.id (activate p s.nextAdmission)).size +
            (s.pending.eraseP s.admissible).length = _
          rw [hsize, hlen]
          omega
        · show 0 < (s.active.insert p.id (activate p s.nextAdmission)).size
          rw [hsize]
          exact Nat.succ_pos _

theorem promotePending_ok (hG : G.Kept) (h : Ready G s) (hroom : RoomFor G s) :
    Triple (promotePending G.chain) s
      (fun _ s' => Ready G s' ∧ Admitted s s' ∧
        (s.active.size = 0 → (∃ p ∈ s.pending, s.admissible p = true) → 0 < s'.active.size))
      (Fails G fun _ => False) := by
  unfold promotePending
  have hbudget : ∃ available, s.availableBudget = some available ∧
      (s.options.kvAdmission = .reserveSequenceCapacity →
        BTreeMap.weight (budgetOf s.kvCache.config.blockSize) s.active + available =
          s.kvCache.config.numPages) := by
    unfold availableBudget
    cases hpol : s.options.kvAdmission with
    | onDemand => exact ⟨_, rfl, nofun⟩
    | reserveSequenceCapacity =>
      have hle := h.core.budgets hpol
      refine ⟨_, subtractBudgets_eq hle, fun _ => ?_⟩
      exact Nat.add_sub_cancel' hle
  obtain ⟨available, havail, hsum⟩ := hbudget
  refine Triple.get_bind ?_
  rw [havail]
  refine Triple.pure_bind ((promote_ok hG h hroom fun hpol => (hsum hpol).le).mono ?_ fun _ _ hf => hf)
  rintro _ s' ⟨hready, hadm, hpos⟩
  refine ⟨hready, hadm, fun h0 hex => hpos ?_ h0 hex fun hpol => ?_⟩
  · obtain ⟨p, hp, -⟩ := hex
    exact List.length_pos_of_mem hp
  · have hzero : BTreeMap.weight (budgetOf s.kvCache.config.blockSize) s.active = 0 := by
      have hnil : s.active.toList = [] := List.length_eq_zero_iff.mp (by simpa using h0)
      simp [BTreeMap.weight, hnil]
    have := hsum hpol
    omega

theorem schedule_ok (hG : G.Kept) (h : Inv G s) (hroom : RoomFor G s)
    (hids : IdsLeft G s (s.active.size + s.pending.length))
    (hspec : ∀ config, s.speculative = some config → config.draftTokens = usizeMax → G.panics) :
    Triple (schedule G.chain) s (fun _ s' => Inv G s') (Fails G (Inv G)) := by
  unfold schedule
  refine Triple.get_bind ?_
  cases hs : s.inFlight with
  | some batch => exact Triple.fail' (Fails.error h)
  | none =>
    obtain ⟨hcore, hidle⟩ := h.none hs
    refine Triple.failIf_bind (fun _ => Fails.error h) fun hne => ?_
    have hready : Ready G s := ⟨hcore, hidle, hs, lt_of_le_of_ne s.nextBatch_le hne⟩
    refine Triple.bind ((promotePending_ok hG hready hroom).mono (fun _ _ h => h) fun _ _ hf => hf.never) ?_
    rintro _ s₁ ⟨hready₁, hadm, -⟩
    refine Triple.get_bind (scheduleLoop_ok hG hready₁ (hadm.idsLeft hids) (fun config hc => hspec config (hadm.speculative ▸ hc)) ?_)
    refine Nat.lt_succ_of_le (BTreeMap.weight_le_size _ fun q => ?_)
    split <;> omega

-- Requests and settings

theorem Inv.replace (h : Inv G s) (hcore : Core G (batchId s) (rowIds s) s')
    (hi : s'.inFlight = s.inFlight) (hidle : Idle G (rowIds s) s'.kvCache)
    (hres : s'.kvCache.reservations = s.kvCache.reservations)
    (hact : ∀ j ∈ rowIds s, s'.active[j]? = s.active[j]?) : Inv G s' := by
  have hids : rowIds s' = rowIds s := by simp [rowIds, hi]
  have hb : batchId s' = batchId s := by simp [batchId, hi]
  refine ⟨hb ▸ hids ▸ hcore, hids ▸ hidle, hids ▸ h.distinct, fun batch hbatch => ?_⟩
  rw [hi] at hbatch
  refine ⟨(h.rows batch hbatch).1, fun row hrow => ?_⟩
  obtain ⟨hok, hlen⟩ := (h.rows batch hbatch).2 row hrow
  have hmem : row.requestId ∈ rowIds s := by
    simp only [rowIds, hbatch, Option.elim_some]
    exact List.mem_map_of_mem hrow
  exact ⟨⟨hres ▸ hok.reserved, hok.context, fun r hr => hok.tokens r (hact _ hmem ▸ hr)⟩, hlen⟩

theorem Core.enqueue {p : PendingRequest} {nextRequest : Nat} (h : Core G b ids s)
    (hp : Waiting G nextRequest s.kvCache.config s.options.kvAdmission p) (hid : p.id = s.nextRequest)
    (hnext : s.nextRequest ≤ nextRequest) :
    Core G b ids { s with nextRequest, pending := s.pending ++ [p] } := by
  have hold : ∀ p' ∈ s.pending, p'.id ≠ p.id := fun p' hp' he =>
    absurd (h.waiting p' hp').fresh (by rw [he, hid]; exact lt_irrefl _)
  have hmem : ∀ {P : PendingRequest → Prop}, (∀ p' ∈ s.pending, P p') → P p →
      ∀ p' ∈ s.pending ++ [p], P p' := by
    intro P hP hnew p' hp'
    rcases List.mem_append.mp hp' with hp' | hp'
    · exact hP p' hp'
    · exact List.mem_singleton.mp hp' ▸ hnew
  refine ⟨h.kv, h.maxActive, h.maxTokens, hmem (fun p' hp' => ?_) hp, ?_, hmem h.apart ?_,
    fun j r hr => ?_, h.phases, h.rows, h.domain,
    fun g hg => ⟨(h.finished g hg).1.trans_le hnext, (h.finished g hg).2⟩, h.budgets, h.setup⟩
  · have hw := h.waiting p' hp'
    exact ⟨hw.fresh.trans_le hnext, hw.prompt, hw.more, hw.fits, hw.affordable, hw.good⟩
  · rw [List.map_append, List.map_singleton]
    refine List.nodup_append.mpr ⟨h.queued, by simp, ?_⟩
    rintro a ha _ hb rfl
    obtain ⟨p', hp', he⟩ := List.mem_map.mp ha
    exact hold p' hp' (he.trans (List.mem_singleton.mp hb))
  · cases hr : s.active[p.id]? with
    | none => rfl
    | some r => exact absurd (h.running _ r hr).fresh (by rw [hid]; exact lt_irrefl _)
  · have hrun := h.running j r hr
    exact ⟨hrun.fresh.trans_le hnext, hrun.prompt, hrun.history, hrun.more, hrun.fits, hrun.eos,
      hrun.good⟩

theorem Core.advance {nextRequest : Nat} (h : Core G b ids s) (hnext : s.nextRequest ≤ nextRequest) :
    Core G b ids { s with nextRequest } := by
  refine ⟨h.kv, h.maxActive, h.maxTokens, fun p hp => ?_, h.queued, h.apart, fun j r hr => ?_, h.phases,
    h.rows, h.domain, fun g hg => ⟨(h.finished g hg).1.trans_le hnext, (h.finished g hg).2⟩,
    h.budgets, h.setup⟩
  · have hw := h.waiting p hp
    exact ⟨hw.fresh.trans_le hnext, hw.prompt, hw.more, hw.fits, hw.affordable, hw.good⟩
  · have hrun := h.running j r hr
    exact ⟨hrun.fresh.trans_le hnext, hrun.prompt, hrun.history, hrun.more, hrun.fits, hrun.eos,
      hrun.good⟩

theorem submitWithSampler_ok {prompt : List Token} {generation : GreedyGenerationConfig}
    {sampled : Bool} (h : Inv G s)
    (hreq : 0 < generation.maxNewTokens → G.request s.nextRequest prompt generation [])
    (hres : generation.maxNewTokens = 0 → G.result
      { requestId := s.nextRequest, promptTokenIds := prompt, generatedTokenIds := [],
        stoppedOnEos := false }) :
    Triple (submitWithSampler prompt generation sampled) s
      (fun id s' => Inv G s' ∧ id = s.nextRequest ∧ s'.nextRequest = s.nextRequest + 1)
      (fun f s' => ¬f.IsPanic ∧ s' = s) := by
  unfold submitWithSampler
  have herr : ∀ msg, ¬(Fault.error msg).IsPanic ∧ s = s := fun _ => ⟨not_false, rfl⟩
  refine Triple.get_bind (Triple.failIf_bind (fun _ => herr _) fun hne => ?_)
  refine Triple.failIf_bind (fun _ => herr _) fun _ => ?_
  refine Triple.need_bind (fun _ => herr _) fun total htotal => ?_
  refine Triple.failIf_bind (fun _ => herr _) fun hfit => ?_
  refine Triple.failIf_bind (fun _ => herr _) fun _ => ?_
  refine Triple.failIf_bind (fun _ => herr _) fun hpool => ?_
  refine Triple.failIf_bind (fun _ => herr _) fun _ => ?_
  refine Triple.need_bind (fun _ => herr _) fun next hnext => ?_
  obtain ⟨-, rfl⟩ := checkedAdd_eq_some.mp htotal
  obtain ⟨-, rfl⟩ := checkedAdd_eq_some.mp hnext
  dsimp only
  refine Triple.ite (fun hzero => ?_) fun hpos => ?_
  · exact Triple.set_bind (Triple.pure' ⟨h.replace ((h.core.advance (Nat.le_succ _)).addFinished
      (Nat.lt_succ_self _) (hres hzero)) rfl h.idle rfl fun _ _ => rfl, rfl, rfl⟩)
  · have hpos := Nat.pos_of_ne_zero hpos
    refine Triple.set_bind (Triple.pure' ⟨h.replace (h.core.enqueue ⟨Nat.lt_succ_self _, hne, hpos,
      not_lt.mp hfit, fun hpol => ?_, hreq hpos⟩ rfl (Nat.le_succ _)) rfl h.idle rfl fun _ _ => rfl,
      rfl, rfl⟩)
    simp only [hpol, not_and, not_lt] at hpool
    exact hpool hpos

theorem cancel_ok {target : RequestId} (hG : G.Kept) (h : Inv G s) :
    Triple (cancel target) s (fun _ s' => Inv G s') (Fails G (Inv G)) := by
  have hnone : ∀ id, s.deferredPrefill.erase id = ∅ := fun id => by rw [h.core.setup.deferred]; rfl
  have hset : ∀ id, Setup G s.options.kvAdmission (s.deferredPrefill.erase id) s.admissionCeiling
      s.recomputePreemption s.prefillChunkTokens := fun id =>
    ⟨hnone id, h.core.setup.ceiling, h.core.setup.meant, h.core.setup.whole⟩
  unfold cancel
  refine Triple.get_bind ?_
  split
  · refine Triple.set_bind (Triple.pure' (h.replace ?_ rfl h.idle rfl fun _ _ => rfl))
    exact (h.core.unqueue List.eraseP_sublist).congr rfl rfl rfl rfl rfl rfl rfl (hset _)
  split
  · exact Triple.pure' h
  next r hr =>
  split
  · exact Triple.fail' (Fails.error h)
  next hphase =>
  have hout : target ∉ rowIds s := fun hm => by
    obtain ⟨r', hr', hin⟩ := h.core.rows _ hm
    obtain rfl : r = r' := by simpa [hr] using hr'
    exact hphase _ hin
  have hremove := Guarantee.Kept.call (hG.ops _ (.removeSequence target) h.core.kv nofun)
    (removeSequence_effect.mono (fun _ _ h => h.2) fun _ _ hf => hf.imp_right And.left)
  refine Triple.bind (Q := fun _ s₁ => ∃ k, s₁ = withKv s k ∧ Put s.kvCache target none k ∧ G.kv k)
    (Triple.zoom (hremove.mono (fun _ k hk => ⟨k, rfl, hk⟩) fun f k hf => hf.imp_right ?_)) ?_
  · rintro ⟨hnot, rfl⟩
    exact ⟨hnot, h⟩
  rintro _ _ ⟨k, rfl, hput, hk⟩
  have hne : ∀ j ∈ rowIds s, j ≠ target := fun j hj he => hout (he ▸ hj)
  have hcore := h.core.drop hr hk hput (fun j hj => ⟨hj, hne j hj⟩) fun _ _ hj => hj
  refine Triple.modify_bind (Triple.pure' (h.replace
    (hcore.congr rfl rfl rfl rfl rfl rfl rfl (hset _)) rfl ?_ hput.reservations fun j hj => ?_))
  · refine h.idle.step (fun j hj => hput.other hj) (fun q hq => ?_) fun _ hj _ => hj
    cases hput.self.symm.trans hq
  · exact (BTreeMap.get_erase ..).trans (if_neg (hne j hj))

theorem foldr_max_pos (l : List Nat) : 1 ≤ l.foldr max 1 := by
  induction l with
  | nil => exact le_rfl
  | cons a l ih => exact ih.trans (le_max_right _ _)

theorem minimumBatchTokenLimit_pos : 1 ≤ s.minimumBatchTokenLimit := by
  unfold minimumBatchTokenLimit
  split
  · exact le_rfl
  · exact foldr_max_pos _

theorem setBatchTokenLimit_ok {limit : Nat} (h : Inv G s) :
    Triple (setBatchTokenLimit limit) s (fun _ s' => Inv G s') (Fails G (Inv G)) := by
  unfold setBatchTokenLimit
  refine Triple.get_bind (Triple.failIf_bind (fun _ => Fails.error h) fun _ => ?_)
  refine Triple.failIf_bind (fun _ => Fails.error h) fun hmin => ?_
  have hpos := (minimumBatchTokenLimit_pos (s := s)).trans (not_lt.mp hmin)
  have hc := h.core
  exact Triple.set' (h.replace ⟨hc.kv, hc.maxActive, hpos, hc.waiting, hc.queued, hc.apart, hc.running,
    hc.phases, hc.rows, hc.domain, hc.finished, hc.budgets, hc.setup⟩ rfl h.idle rfl fun _ _ => rfl)

theorem setSpeculativeDecoding_ok {config : Option SpeculativeConfig} (h : Inv G s) :
    Triple (setSpeculativeDecoding config) s (fun _ s' => Inv G s') (Fails G (Inv G)) := by
  unfold setSpeculativeDecoding
  refine Triple.failIf_bind (fun _ => Fails.error h) fun _ => ?_
  exact Triple.modify' (h.congr rfl rfl rfl rfl rfl rfl rfl rfl h.core.setup)

theorem setPrefixCaching_ok {enabled : Bool} (hG : G.Kept) (h : Inv G s) :
    Triple (setPrefixCaching enabled) s (fun _ s' => Inv G s') (Fails G (Inv G)) := by
  have hcall := Guarantee.Kept.call (R := fun _ => False)
    (hG.ops _ (.setPrefixCaching enabled) h.core.kv nofun)
    ((setPrefixCaching_effect enabled).mono (fun _ _ h => h) fun _ _ hf => hf.elim)
  unfold setPrefixCaching
  refine Triple.zoom (Triple.mono (m := PagedKvCacheManager.setPrefixCaching enabled) hcall ?_
    fun _ _ hf => hf.never)
  rintro _ k ⟨⟨hc, hq, hr, -⟩, hk⟩
  refine h.replace (h.core.sameCommitted hk ⟨hc, fun id => by rw [hq]⟩) rfl ?_ hr fun _ _ => rfl
  intro hno j q hj
  exact h.idle hno j q (hq ▸ hj)

theorem popFinished_ok (h : Inv G s) :
    Triple popFinished s (fun found s' => Inv G s' ∧ ∀ g, found = some g → G.result g)
      (Fails G (Inv G)) := by
  unfold popFinished
  refine Triple.get_bind ?_
  split
  · exact Triple.pure' ⟨h, nofun⟩
  next g rest hfin =>
  have hc := h.core
  have hall : ∀ g' ∈ g :: rest, g'.requestId < s.nextRequest ∧ G.result g' := hfin ▸ hc.finished
  refine Triple.set_bind (Triple.pure' ⟨h.replace ⟨hc.kv, hc.maxActive, hc.maxTokens, hc.waiting,
    hc.queued, hc.apart, hc.running, hc.phases, hc.rows, hc.domain,
    fun g' hg' => hall g' (List.mem_cons_of_mem _ hg'), hc.budgets, hc.setup⟩ rfl h.idle rfl
    fun _ _ => rfl, ?_⟩)
  rintro _ ⟨⟩
  exact (hall g (by simp)).2

-- Construction

/-- A scheduler as one of its constructors returns it. -/
inductive Constructed : ContinuousBatchScheduler → Prop
  | withOptions {config kvConfig options s} (h : withOptions config kvConfig options = .ok s) :
      Constructed s
  | newPaged {config kvConfig s} (h : newPaged config kvConfig = .ok s) : Constructed s

theorem withOptions_ok {config : ContinuousBatchConfig} {kvConfig : PagedKvCacheConfig}
    {options : ContinuousBatchOptions} (h : withOptions config kvConfig options = .ok s) :
    0 < config.maxActiveSequences ∧ 0 < config.maxBatchTokens ∧
      ∃ k, PagedKvCacheManager.new kvConfig = .ok k ∧ s = initial config k options := by
  unfold withOptions at h
  cases hc : config.validate with
  | error f => simp [hc, bind, Except.bind] at h
  | ok _ =>
    cases ho : options.validate with
    | error f => simp [hc, ho, bind, Except.bind] at h
    | ok _ =>
      cases hk : PagedKvCacheManager.new kvConfig with
      | error f => simp [hc, ho, hk, bind, Except.bind] at h
      | ok k =>
        simp only [hc, ho, hk, bind, Except.bind, pure, Except.pure, Except.ok.injEq] at h
        unfold ContinuousBatchConfig.validate at hc
        split at hc
        · cases hc
        next hpos =>
        simp only [not_or] at hpos
        refine ⟨Nat.pos_of_ne_zero hpos.1, Nat.pos_of_ne_zero hpos.2, k, rfl, h.symm⟩

theorem Inv.initial {config : ContinuousBatchConfig} {kvConfig : PagedKvCacheConfig}
    {options : ContinuousBatchOptions} (hactive : 0 < config.maxActiveSequences)
    (htokens : 0 < config.maxBatchTokens) (hpol : G.policy options.kvAdmission)
    (hk : G.kv (PagedKvCacheManager.initial kvConfig)) :
    Inv G (initial config (PagedKvCacheManager.initial kvConfig) options) := by
  refine Inv.of_none (b := 0) rfl ⟨hk, hactive, htokens, nofun, List.nodup_nil, nofun,
    fun id r hr => ?_, fun id r hr => ?_, nofun, fun id q hq => ?_, nofun, fun _ => Nat.zero_le _,
    ⟨rfl, rfl, hpol, fun _ => ⟨rfl, rfl⟩⟩⟩ fun _ id q hq => ?_
  · cases (BTreeMap.get_empty id).symm.trans hr
  · cases (BTreeMap.get_empty id).symm.trans hr
  · cases (BTreeMap.get_empty id).symm.trans hq
  · cases (BTreeMap.get_empty id).symm.trans hq

theorem Constructed.inv (h : Constructed s) (hpol : ∀ policy, G.policy policy)
    (hk : ∀ config : PagedKvCacheConfig, 0 < config.blockSize → config.numPages ≤ u32Max →
      G.kv (PagedKvCacheManager.initial config)) : Inv G s := by
  cases h with
  | withOptions h =>
    obtain ⟨hactive, htokens, k, hnew, rfl⟩ := withOptions_ok h
    obtain ⟨rfl, hbs, hpages⟩ := new_eq_ok hnew
    exact Inv.initial hactive htokens (hpol _) (hk _ hbs hpages)
  | @newPaged config kvConfig s h =>
    unfold ContinuousBatchScheduler.newPaged ContinuousBatchScheduler.new at h
    cases hw : ContinuousBatchScheduler.withOptions config kvConfig {} with
    | error f => simp [hw, bind, Except.bind] at h
    | ok s₀ =>
      simp only [hw, bind, Except.bind, pure, Except.pure, Except.ok.injEq] at h
      obtain ⟨hactive, htokens, k, hnew, rfl⟩ := withOptions_ok hw
      obtain ⟨rfl, hbs, hpages⟩ := new_eq_ok hnew
      have hinv : Inv G (initial config (PagedKvCacheManager.initial kvConfig) {}) :=
        Inv.initial hactive htokens (hpol _) (hk _ hbs hpages)
      exact h ▸ hinv.congr rfl rfl rfl rfl rfl rfl rfl rfl ⟨rfl, rfl, hpol _, by simp [initial]⟩

-- Every public call

/-- The public methods that change a scheduler. -/
inductive BatchOp
  | submit (prompt : List Token) (generation : GreedyGenerationConfig) (sampled : Bool)
  | schedule
  | completeBatch (batchId : Nat) (tokens : List Token)
  | completeVerifyBatch (batchId : Nat) (argmax : List Token)
  | failBatch (batchId : Nat)
  | cancel (id : RequestId)
  | setBatchTokenLimit (limit : Nat)
  | setSpeculativeDecoding (config : Option SpeculativeConfig)
  | setPrefixCaching (enabled : Bool)
  | popFinished

def BatchOp.run (chain : ChainHash) : BatchOp → BatchM Unit
  | submit prompt generation sampled => do let _ ← submitWithSampler prompt generation sampled
  | schedule => do let _ ← ContinuousBatchScheduler.schedule chain
  | completeBatch batchId tokens => ContinuousBatchScheduler.completeBatch chain batchId tokens
  | completeVerifyBatch batchId argmax => do
    let _ ← ContinuousBatchScheduler.completeVerifyBatch chain batchId argmax
  | failBatch batchId => ContinuousBatchScheduler.failBatch batchId
  | cancel id => do let _ ← ContinuousBatchScheduler.cancel id
  | setBatchTokenLimit limit => ContinuousBatchScheduler.setBatchTokenLimit limit
  | setSpeculativeDecoding config => ContinuousBatchScheduler.setSpeculativeDecoding config
  | setPrefixCaching enabled => ContinuousBatchScheduler.setPrefixCaching enabled
  | popFinished => do let _ ← ContinuousBatchScheduler.popFinished

/-- `complete_batch` is not given a batch that only `complete_verify_batch` checks. -/
def PlainBatch (s : ContinuousBatchScheduler) (batchId : Nat) : Prop :=
  ∀ batch, s.inFlight = some batch → batch.id = batchId → batch.kind ≠ .verify

instance (s : ContinuousBatchScheduler) (batchId : Nat) : Decidable (PlainBatch s batchId) :=
  decidable_of_iff (∀ batch ∈ s.inFlight, batch.id = batchId → batch.kind ≠ .verify) Iff.rfl

/-- What a call must bring along for the guarantee to hold after it. -/
def BatchOp.Allowed (G : Guarantee) (s : ContinuousBatchScheduler) : BatchOp → Prop
  | submit prompt generation _ =>
    (0 < generation.maxNewTokens → G.request s.nextRequest prompt generation []) ∧
      (generation.maxNewTokens = 0 → G.result
        { requestId := s.nextRequest, promptTokenIds := prompt, generatedTokenIds := [],
          stoppedOnEos := false })
  | schedule => RoomFor G s ∧ IdsLeft G s (s.active.size + s.pending.length) ∧
      ∀ config, s.speculative = some config → config.draftTokens = usizeMax → G.panics
  | completeBatch batchId tokens => PlainBatch s batchId ∧
      ∀ batch, s.inFlight = some batch → batch.id = batchId →
        ∀ e ∈ batch.sequences.zip tokens, s.samplesToken e.1 = true →
        ∀ r, s.active[e.1.requestId]? = some r → Settles G e.1.requestId (extendRequest r [e.2]) e.2
  | completeVerifyBatch batchId argmax =>
      ∀ batch, s.inFlight = some batch → batch.id = batchId → batch.kind = .verify →
        argmax.length = batch.sequences.length * batch.nextN →
        ∀ e ∈ batch.sequences.zipIdx, ∀ r, s.active[e.1.requestId]? = some r →
          DraftSettles G e.1.requestId r e.1.tokenIds (blockOf argmax batch.nextN e.2)
  | _ => True

theorem BatchOp.run_ok (hG : G.Kept) (op : BatchOp) (h : Inv G s) (hok : op.Allowed G s) :
    Triple (op.run G.chain) s (fun _ s' => Inv G s') (Fails G (Inv G)) := by
  cases op with
  | submit prompt generation sampled =>
    refine Triple.discard ((submitWithSampler_ok h hok.1 hok.2).mono (fun _ _ h => h.1) ?_)
    rintro f _ ⟨hf, rfl⟩
    exact .inr ⟨hf, h⟩
  | schedule => exact Triple.discard (schedule_ok hG h hok.1 hok.2.1 hok.2.2)
  | completeBatch batchId tokens => exact completeBatch_ok hG h hok.1 hok.2
  | completeVerifyBatch batchId argmax => exact Triple.discard (completeVerifyBatch_ok hG h hok)
  | failBatch batchId => exact failBatch_ok hG h
  | cancel id => exact Triple.discard (cancel_ok hG h)
  | setBatchTokenLimit limit => exact setBatchTokenLimit_ok h
  | setSpeculativeDecoding config => exact setSpeculativeDecoding_ok h
  | setPrefixCaching enabled => exact setPrefixCaching_ok hG h
  | popFinished => exact Triple.discard ((popFinished_ok h).mono (fun _ _ h => h.1) fun _ _ hf => hf)

end Ruda.Batch
