import Ruda.Kv.Effects

/-!
# Appends that fail or are rolled back

An append that is refused leaves the manager as it was, and an append that is begun, extended
and cancelled gives back the table and as many pages as it took. Nothing here asks for correct
reference counts: a page that is handed out has count 1 until it is released, whatever the
counts of other pages are. A page primitive can only fail in one of its `debug_assert`s.
-/

namespace Ruda.Kv

open PagedKvCacheManager

variable {s s' s₀ s₁ : PagedKvCacheManager} {id : RequestId} {rid : KvReservationId} {p : KvPageId}
  {ps qs : List KvPageId} {q : SequenceState} {r : ReservationState} {chain : ChainHash} {config : PagedKvCacheConfig}

/-- The `debug_assert`s of `allocate_page` and `release_page`. -/
def debugAsserts : List String :=
  ["allocated page must be unreferenced", "released page must be referenced", "released page must not already be free"]

def FailsAssert (f : Fault) : Prop := ∃ message ∈ debugAsserts, f = .panic message

theorem FailsAssert.isPanic {f : Fault} (h : FailsAssert f) : f.IsPanic := by
  obtain ⟨_, -, rfl⟩ := h
  trivial

/-- No page waits under a tick that is still to be given out. -/
def TicksFresh (s : PagedKvCacheManager) : Prop := ∀ (t : Nat) p, s.evictable[t]? = some p → t < s.nextTick

theorem TicksFresh.of_eq (h : TicksFresh s) (he : s'.evictable = s.evictable) (ht : s'.nextTick = s.nextTick) :
    TicksFresh s' := by
  intro t p hp
  rw [he] at hp
  rw [ht]
  exact h t p hp

theorem TicksFresh.erase (h : TicksFresh s) {k : Nat} (he : s'.evictable = s.evictable.erase k)
    (ht : s'.nextTick = s.nextTick) : TicksFresh s' := by
  intro t p hp
  rw [he, BTreeMap.get_erase] at hp
  split at hp
  · cases hp
  · rw [ht]
    exact h t p hp

/-- From `s`, the pages `ps` have been handed out, each with one reference. -/
structure Handed (s : PagedKvCacheManager) (ps : List KvPageId) (s' : PagedKvCacheManager) : Prop where
  nodup : ps.Nodup
  refs : ∀ p ∈ ps, s'.pageRefs p = 1
  free : ∀ p ∈ ps, p ∉ s'.freePages
  available : s'.availablePages + ps.length = s.availablePages
  ticks : TicksFresh s'

theorem Handed.refl (h : TicksFresh s) : Handed s [] s := ⟨.nil, by simp, by simp, rfl, h⟩

theorem Handed.of_eq (h : Handed s ps s₁) (hr : s'.pageRefs = s₁.pageRefs) (hf : s'.freePages = s₁.freePages)
    (he : s'.evictable = s₁.evictable) (ht : s'.nextTick = s₁.nextTick) : Handed s ps s' := by
  refine ⟨h.nodup, hr ▸ h.refs, hf ▸ h.free, ?_, h.ticks.of_eq he ht⟩
  rw [← h.available, availablePages, availablePages, hf, he]

theorem Handed.snoc (h : Handed s ps s₁) (hp : s₁.pageRefs p = 0) (hr : s'.pageRefs = Function.update s₁.pageRefs p 1)
    (hf : s'.freePages ⊆ s₁.freePages) (hout : p ∉ s'.freePages) (hav : s'.availablePages + 1 = s₁.availablePages)
    (ht : TicksFresh s') : Handed s (ps ++ [p]) s' := by
  have hnew : p ∉ ps := fun hmem => by simp [h.refs p hmem] at hp
  refine ⟨?_, ?_, ?_, ?_, ht⟩
  · rw [← List.concat_eq_append, List.nodup_concat]
    exact ⟨hnew, h.nodup⟩
  · intro p' hp'
    rw [hr]
    rcases List.mem_append.mp hp' with hp' | hp'
    · have hne : p' ≠ p := fun heq => hnew (heq ▸ hp')
      rw [Function.update_of_ne hne, h.refs p' hp']
    · rw [List.mem_singleton.mp hp', Function.update_self]
  · intro p' hp'
    rcases List.mem_append.mp hp' with hp' | hp'
    · exact fun hmem => h.free p' hp' (hf hmem)
    · rwa [List.mem_singleton.mp hp']
  · rw [List.length_append, List.length_singleton, ← h.available, ← hav]
    omega

theorem allocatePage_handed (h : Handed s ps s₁) (hav : 0 < s₁.availablePages) :
    Triple allocatePage s₁ (fun p s' => Handed s (ps ++ [p]) s' ∧ s'.availablePages + 1 = s₁.availablePages)
      (fun f _ => FailsAssert f) := by
  have hassert : FailsAssert (.panic "allocated page must be unreferenced") := ⟨_, by simp [debugAsserts], rfl⟩
  unfold allocatePage
  refine Triple.get_bind ?_
  cases hf : popFirst s₁.freePages with
  | some e =>
    obtain ⟨p, rest⟩ := e
    obtain ⟨hp, rfl⟩ := popFirst_eq_some hf
    refine Triple.pure_bind (Triple.ite (fun _ => Triple.panic' hassert) fun hr => ?_)
    have hcard := Finset.card_erase_add_one hp
    refine Triple.set_bind (Triple.pure' ?_)
    have hav' : (s₁.freePages.erase p).card + s₁.evictable.size + 1 = s₁.availablePages := by
      rw [availablePages]
      omega
    exact ⟨h.snoc (not_not.mp hr) rfl (Finset.erase_subset _ _) (Finset.notMem_erase _ _) hav' h.ticks, hav'⟩
  | none =>
    have hempty : s₁.freePages = ∅ := popFirst_eq_none.mp hf
    cases he : s₁.evictable.popFirst with
    | none =>
      have := BTreeMap.popFirst_eq_none.mp he
      simp [availablePages, hempty, this] at hav
    | some e =>
      obtain ⟨⟨t, p⟩, rest⟩ := e
      obtain ⟨ht, rfl⟩ := BTreeMap.popFirst_eq_some he
      refine Triple.pure_bind (Triple.ite (fun _ => Triple.panic' hassert) fun hr => ?_)
      simp only [dropCachedBlock_pageRefs, ne_eq, not_not] at hr
      have hmem : s₁.evictable.contains t = true := (BTreeMap.contains_iff _ _).mpr ⟨p, ht⟩
      have hsize : (s₁.evictable.erase t).size + 1 = s₁.evictable.size := by
        have hpos : 0 < s₁.evictable.size := by simpa [availablePages, hempty] using hav
        rw [Std.ExtTreeMap.size_erase, if_pos hmem]
        omega
      refine Triple.set_bind (Triple.pure' ?_)
      refine ⟨h.snoc hr ?_ ?_ ?_ ?_ (h.ticks.erase (k := t) ?_ ?_), ?_⟩
      all_goals simp [availablePages, hempty]
      all_goals omega

theorem allocatePages_handed (n : Nat) (h : Handed s ps s₁) (hav : n ≤ s₁.availablePages) :
    Triple (allocatePages n) s₁ (fun qs s' => Handed s (ps ++ qs) s') (fun f _ => FailsAssert f) := by
  induction n generalizing s₁ ps with
  | zero => exact Triple.pure' (by simpa using h)
  | succ n ih =>
    unfold allocatePages
    refine Triple.bind (allocatePage_handed h (by omega)) ?_
    rintro p s₂ ⟨h₂, hav₂⟩
    refine Triple.bind (ih h₂ (by omega)) ?_
    rintro qs s₃ h₃
    exact Triple.pure' (by simpa using h₃)

theorem releasePage_handed (h : Handed s (p :: ps) s₁) :
    Triple (releasePage p) s₁ (fun _ s' => Handed s ps s') (fun _ _ => False) := by
  obtain ⟨hnew, hnodup⟩ := List.nodup_cons.mp h.nodup
  have hrefs : s₁.pageRefs p = 1 := h.refs p List.mem_cons_self
  have hfree : p ∉ s₁.freePages := h.free p List.mem_cons_self
  have hav : s₁.availablePages + (ps.length + 1) = s.availablePages := h.available
  have hothers : ∀ p' ∈ ps, Function.update s₁.pageRefs p 0 p' = 1 := by
    intro p' hp'
    have hne : p' ≠ p := fun heq => hnew (heq ▸ hp')
    rw [Function.update_of_ne hne, h.refs p' (List.mem_cons_of_mem _ hp')]
  have hthere : ∀ p' ∈ ps, p' ∉ s₁.freePages := fun p' hp' => h.free p' (List.mem_cons_of_mem _ hp')
  unfold releasePage
  refine Triple.get_bind (Triple.ite (fun h0 => by simp [hrefs] at h0) fun _ => ?_)
  refine Triple.ite (fun h0 => by simp [hrefs] at h0) fun _ => ?_
  simp only [hrefs, Nat.sub_self]
  refine Triple.ite (fun _ => Triple.set' ?_) fun _ => ?_
  · have hnone : s₁.evictable.contains s₁.nextTick = false := by
      refine (BTreeMap.contains_eq_false _ _).mpr ?_
      cases ht : s₁.evictable[s₁.nextTick]? with
      | none => rfl
      | some p' => exact absurd (h.ticks _ _ ht) (lt_irrefl _)
    refine ⟨hnodup, hothers, hthere, ?_, ?_⟩
    · simp only [availablePages, Std.ExtTreeMap.size_insert] at hav ⊢
      rw [if_neg (by simp [hnone])]
      omega
    · intro t p' ht
      simp only [BTreeMap.get_insert] at ht
      split at ht
      · next heq => exact heq ▸ Nat.lt_succ_self _
      · exact (h.ticks t p' ht).trans (Nat.lt_succ_self _)
  · refine Triple.ite (fun hmem => absurd (by simpa using hmem) hfree) fun _ => Triple.set' ?_
    refine ⟨hnodup, by simpa using hothers, ?_, ?_, h.ticks.of_eq (by simp) (by simp)⟩
    · intro p' hp' hmem
      simp only [dropCachedBlock_freePages, Finset.mem_insert] at hmem
      rcases hmem with rfl | hmem
      · exact hnew hp'
      · exact hthere p' hp' hmem
    · simp only [availablePages, dropCachedBlock_freePages, dropCachedBlock_evictable,
        Finset.card_insert_of_notMem hfree] at hav ⊢
      omega

theorem releasePages_handed (h : Handed s ps s₁) :
    Triple (releasePages ps) s₁ (fun _ s' => Handed s [] s') (fun _ _ => False) :=
  Triple.forM (I := fun rest s' => Handed s rest s') h fun _ _ _ h' => releasePage_handed h'

-- Ticks along runs

theorem allocatePages_ticks (n : Nat) (h : TicksFresh s) :
    Triple (allocatePages n) s (fun _ s' => TicksFresh s') (fun f _ => f.IsPanic) := by
  induction n generalizing s with
  | zero => exact Triple.pure' h
  | succ n ih =>
    unfold allocatePages
    have hone : Triple allocatePage s (fun _ s' => TicksFresh s') (fun f _ => f.IsPanic) := by
      unfold allocatePage
      refine Triple.get_bind ?_
      cases popFirst s.freePages with
      | some e => exact Triple.pure_bind (Triple.ite (fun _ => Triple.panic' trivial) fun _ => Triple.set_bind (Triple.pure' h))
      | none =>
        cases he : s.evictable.popFirst with
        | none => exact Triple.panic' trivial
        | some e =>
          obtain ⟨⟨t, p⟩, rest⟩ := e
          obtain ⟨-, rfl⟩ := BTreeMap.popFirst_eq_some he
          refine Triple.pure_bind (Triple.ite (fun _ => Triple.panic' trivial) fun _ => ?_)
          exact Triple.set_bind (Triple.pure' (h.erase (k := t) (by simp) (by simp)))
    exact Triple.bind hone fun _ _ h₁ => Triple.bind (ih h₁) fun _ _ h₂ => Triple.pure' h₂

theorem releasePages_ticks (ps : List KvPageId) (h : TicksFresh s) :
    Triple (releasePages ps) s (fun _ s' => TicksFresh s') (fun f _ => FailsAssert f) := by
  refine Triple.forM (I := fun _ s' => TicksFresh s') h fun p _ s₁ h₁ => ?_
  unfold releasePage
  refine Triple.get_bind (Triple.ite (fun _ => Triple.panic' ⟨_, by simp [debugAsserts], rfl⟩) fun _ => ?_)
  refine Triple.ite (fun _ => Triple.set' h₁) fun _ => ?_
  refine Triple.ite (fun _ => Triple.set' ?_) fun _ => ?_
  · intro t p' ht
    simp only [BTreeMap.get_insert] at ht
    split at ht
    · next heq => exact heq ▸ Nat.lt_succ_self _
    · exact (h₁ t p' ht).trans (Nat.lt_succ_self _)
  · refine Triple.ite (fun _ => Triple.panic' ⟨_, by simp [debugAsserts], rfl⟩) fun _ => Triple.set' ?_
    exact h₁.of_eq (by simp) (by simp)

theorem matchPrefix_ticks (tokens : List Token) (n block parent : Nat) (h : TicksFresh s) :
    Triple (matchPrefix chain tokens n block parent) s (fun _ s' => TicksFresh s') (fun f _ => f.IsPanic) := by
  induction n generalizing block parent s with
  | zero => exact Triple.pure' h
  | succ n ih =>
    unfold matchPrefix
    refine Triple.get_bind ?_
    dsimp only
    cases s.blockIndex (parent, blockOf tokens s.config.blockSize block) with
    | none => exact Triple.pure' h
    | some page =>
      have hone : Triple (acquireCached page) s (fun _ s' => TicksFresh s') (fun f _ => f.IsPanic) := by
        unfold acquireCached
        refine Triple.get_bind (Triple.ite (fun _ => Triple.expect_bind (fun _ => trivial) fun b _ => ?_)
          fun _ => Triple.pure_bind (Triple.set' h))
        cases b.lruTick with
        | none => exact Triple.pure_bind (Triple.set' h)
        | some t => exact Triple.pure_bind (Triple.set' (h.erase (k := t) rfl rfl))
      exact Triple.bind hone fun _ _ h₁ => Triple.bind (ih _ _ h₁) fun _ _ h₂ => Triple.pure' h₂

theorem publishBlocks_ticks (tokens : List Token) (pages : List KvPageId) (n block parent : Nat) (h : TicksFresh s) :
    Triple (publishBlocks chain tokens pages n block parent) s (fun _ s' => TicksFresh s') (fun f _ => f.IsPanic) := by
  induction n generalizing block parent s with
  | zero => exact Triple.pure' h
  | succ n ih =>
    unfold publishBlocks
    refine Triple.get_bind (Triple.expect_bind (fun _ => trivial) fun p _ => ?_)
    dsimp only
    split
    · exact Triple.set_bind (ih _ _ h)
    · exact ih _ _ h

/-- The tables and the ticks, in every state reached. -/
structure Sane (s : PagedKvCacheManager) : Prop where
  tables : SeqOk s
  ticks : TicksFresh s

theorem commitRow_ticks {count : Nat} (h : Sane s) (hr : s.reservations[rid]? = some r) (hc : count ≤ r.tokenCount) :
    Triple (commitRow rid count) s (fun _ s' => TicksFresh s') (fun f _ => FailsAssert f) :=
  commitRow_rule h.tables hr hc fun _ _ _ => releasePages_ticks _ h.ticks

theorem commitRows_sane {rows : List (KvReservationId × Nat)} (h : Sane s) (hrows : RowsOk s rows) :
    Triple (commitRows rows) s (fun _ s' => TicksFresh s') (fun f _ => FailsAssert f) := by
  refine (commitRows_rule (J := fun rows s' => Sane s' ∧ RowsOk s' rows) ⟨h, hrows⟩ ?_).mono
    (fun _ _ h => h.1.ticks) fun _ _ h => h
  rintro rid count rest s₁ ⟨h₁, hr₁⟩
  obtain ⟨r, hr, hc⟩ := hr₁.2 (rid, count) (by simp)
  refine ((commitRow_seqOk h₁.tables hr hc).and (commitRow_ticks h₁ hr hc)).mono ?_ fun _ _ hf => hf.2
  rintro _ s₂ ⟨⟨h₂, q, -, -, hs₂⟩, ht₂⟩
  exact ⟨⟨h₂, ht₂⟩, hr₁.tail hs₂⟩

theorem setPrefixCaching_ticks (enabled : Bool) (h : TicksFresh s) :
    Triple (setPrefixCaching enabled) s (fun _ s' => TicksFresh s') (fun _ _ => False) := by
  show TicksFresh _
  cases enabled with
  | true => exact h
  | false =>
    have hdrop : ∀ (pages : List KvPageId) (s : PagedKvCacheManager), s.evictable = ∅ → TicksFresh (pages.foldl
        (fun s page => { s.dropCachedBlock page with freePages := insert page (s.dropCachedBlock page).freePages }) s) := by
      intro pages
      induction pages with
      | nil =>
        intro s hs t p hp
        rw [List.foldl_nil, hs] at hp
        simp at hp
      | cons page pages ih =>
        intro s hs
        exact ih _ (by simpa using hs)
    exact hdrop _ _ rfl

theorem KvOp.run_ticks (op : KvOp) (h : Sane s) :
    Triple (op.run chain) s (fun _ s' => TicksFresh s') (fun f s' => f.IsPanic ∨ s' = s) := by
  have herr : ∀ msg, (Fault.error msg).IsPanic ∨ s = s := fun _ => .inr rfl
  have hrow : ∀ {rid count r}, s.reservations[rid]? = some r → count ≤ r.tokenCount →
      Triple (commitRow rid count) s (fun _ s' => TicksFresh s') (fun f s' => f.IsPanic ∨ s' = s) :=
    fun hr hc => (commitRow_ticks h hr hc).mono (fun _ _ h => h) fun _ _ hf => .inl hf.isPanic
  have hrows : ∀ {rows}, RowsOk s rows →
      Triple (commitRows rows) s (fun _ s' => TicksFresh s') (fun f s' => f.IsPanic ∨ s' = s) :=
    fun hr => (commitRows_sane h hr).mono (fun _ _ h => h) fun _ _ hf => .inl hf.isPanic
  cases op with
  | setPrefixCaching enabled => exact (setPrefixCaching_ticks enabled h.ticks).mono (fun _ _ h => h) nofun
  | createSequence id => exact createSequence_rule (fun _ => herr) fun _ => h.ticks
  | createSequenceWithPrefix id tokens =>
    refine Triple.discard (createSequenceWithPrefix_rule (fun _ => herr) fun _ => ?_)
    exact Triple.mono (matchPrefix_ticks tokens _ _ _ (by exact h.ticks)) (fun _ _ h => h) fun _ _ hf => .inl hf
  | registerPrefix id tokens =>
    refine registerPrefix_rule (fun _ => herr) h.ticks fun q _ _ => ?_
    exact (publishBlocks_ticks tokens _ _ _ _ h.ticks).mono (fun _ _ h => h) fun _ _ hf => .inl hf
  | beginAppend id n =>
    refine Triple.discard (beginAppend_rule (fun _ => herr) fun q _ => ?_)
    exact Triple.mono (allocatePages_ticks _ (by exact h.ticks)) (fun _ _ h => h) fun _ _ hf => .inl hf
  | extendAppend rid n =>
    refine Triple.discard (extendAppend_rule herr fun r q _ _ _ _ _ => ?_)
    exact (allocatePages_ticks _ h.ticks).mono (fun _ _ h => h) fun _ _ hf => .inl hf
  | commitAppend rid => exact Triple.discard (commitAppend_rule h.tables herr fun r hr => hrow hr le_rfl)
  | commitAppendPartial rid n => exact Triple.discard (commitAppendPartial_rule h.tables herr fun r hr _ hc => hrow hr hc)
  | commitAppendPrefixes rows => exact Triple.discard (commitAppendPrefixes_rule herr hrows)
  | commitAppends ids => exact Triple.discard (commitAppends_rule h.tables herr hrows)
  | cancelAppend rid => exact cancelAppend_rule h.tables herr fun r hr => hrow hr (Nat.zero_le _)
  | cancelAppends ids => exact cancelAppends_rule h.tables herr hrows
  | removeSequence id =>
    refine removeSequence_rule (fun _ => herr) fun q _ _ => ?_
    exact Triple.mono (releasePages_ticks _ (by exact h.ticks)) (fun _ _ h => h) fun _ _ hf => .inl hf.isPanic

theorem Sane.of_reach {ok : PagedKvCacheManager → KvOp → Prop} (hnew : new config = .ok s₀)
    (h : Reach (KvOp.run chain) ok s₀ s) : Sane s := by
  obtain ⟨rfl, hbs, -⟩ := new_eq_ok hnew
  refine h.inv ⟨SeqOk.initial hbs, fun t p hp => by simp [initial] at hp⟩ fun s op hs _ => ?_
  refine ((op.run_seqOk hs.tables).and (op.run_ticks hs)).mono (fun _ _ h => ⟨h.1, h.2⟩) ?_
  rintro f s' ⟨hf | rfl, -⟩
  · exact .inl hf
  · exact .inr hs

-- Refused calls

/-- The calls that start, extend and end an append, and the removal of a sequence. -/
def KvOp.IsAppend : KvOp → Prop
  | beginAppend .. | extendAppend .. | commitAppend _ | commitAppendPartial .. | commitAppendPrefixes _ => True
  | commitAppends _ | cancelAppend _ | cancelAppends _ | removeSequence _ => True
  | setPrefixCaching _ | createSequence _ | createSequenceWithPrefix .. | registerPrefix .. => False

/-- An error comes with the state as it was; a panic is a `debug_assert`. -/
def Refused (s : PagedKvCacheManager) (f : Fault) (s' : PagedKvCacheManager) : Prop :=
  match f with
  | .error _ => s' = s
  | .panic message => message ∈ debugAsserts

theorem FailsAssert.refused {f : Fault} (h : FailsAssert f) : Refused s f s' := by
  obtain ⟨_, hm, rfl⟩ := h
  exact hm

theorem KvOp.run_refused (op : KvOp) (hop : op.IsAppend) (h : Sane s) :
    Triple (op.run chain) s (fun _ _ => True) (Refused s) := by
  have herr : ∀ msg, Refused s (.error msg) s := fun _ => rfl
  have hrow : ∀ {rid count r}, s.reservations[rid]? = some r → count ≤ r.tokenCount →
      Triple (commitRow rid count) s (fun _ _ => True) (Refused s) :=
    fun hr hc => (commitRow_ticks h hr hc).mono (fun _ _ _ => trivial) fun _ _ hf => hf.refused
  have hrows : ∀ {rows}, RowsOk s rows → Triple (commitRows rows) s (fun _ _ => True) (Refused s) :=
    fun hr => (commitRows_sane h hr).mono (fun _ _ _ => trivial) fun _ _ hf => hf.refused
  cases op with
  | beginAppend id n =>
    refine Triple.discard (beginAppend_rule (fun _ => herr) fun q hq => ?_)
    exact Triple.mono (allocatePages_handed _ (Handed.refl (by exact h.ticks)) hq.pages) (fun _ _ _ => trivial)
      fun _ _ hf => hf.refused
  | extendAppend rid n =>
    refine Triple.discard (extendAppend_rule herr fun r q _ _ _ _ hav => ?_)
    exact Triple.mono (allocatePages_handed _ (Handed.refl h.ticks) hav) (fun _ _ _ => trivial) fun _ _ hf => hf.refused
  | commitAppend rid => exact Triple.discard (commitAppend_rule h.tables herr fun r hr => hrow hr le_rfl)
  | commitAppendPartial rid n => exact Triple.discard (commitAppendPartial_rule h.tables herr fun r hr _ hc => hrow hr hc)
  | commitAppendPrefixes rows => exact Triple.discard (commitAppendPrefixes_rule herr hrows)
  | commitAppends ids => exact Triple.discard (commitAppends_rule h.tables herr hrows)
  | cancelAppend rid => exact cancelAppend_rule h.tables herr fun r hr => hrow hr (Nat.zero_le _)
  | cancelAppends ids => exact cancelAppends_rule h.tables herr hrows
  | removeSequence id =>
    refine removeSequence_rule (fun _ => herr) fun q _ _ => ?_
    exact Triple.mono (releasePages_ticks _ (by exact h.ticks)) (fun _ _ _ => trivial) fun _ _ hf => hf.refused
  | setPrefixCaching _ => exact hop.elim
  | createSequence _ => exact hop.elim
  | createSequenceWithPrefix _ _ => exact hop.elim
  | registerPrefix _ _ => exact hop.elim

-- Begin, extend, cancel

/-- One `extend_append` after the other. -/
def extendAll (rid : KvReservationId) : List Nat → KvM Unit
  | [] => pure ()
  | extra :: extras => do
    let _ ← extendAppend rid extra
    extendAll rid extras

/-- Since `s`, sequence `id` has grown from `q` under reservation `rid`, and nothing else happened. -/
structure Lent (s : PagedKvCacheManager) (id : RequestId) (q : SequenceState) (rid : KvReservationId)
    (s' : PagedKvCacheManager) : Prop where
  tables : SeqOk s'
  config : s'.config = s.config
  reserved : ∃ r, s'.reservations[rid]? = some r ∧ r.requestId = id ∧ r.startPosition = q.committedTokens
  grew : ∃ ps, Handed s ps s' ∧ ∀ j : Nat, s'.sequences[j]? = if j = id then some (grown q ps rid) else s.sequences[j]?

theorem beginAppend_lent {n : Nat} (h : Sane s) :
    Triple (beginAppend id n) s (fun res s' => ∃ q, CanBegin s id n q ∧ Lent s id q res.id s') (fun _ _ => True) := by
  refine beginAppend_rule (fun _ _ => trivial) fun q hq => ?_
  have hstart : Handed s [] { s with nextReservation := s.nextReservation + 1 } :=
    (Handed.refl h.ticks).of_eq rfl rfl rfl rfl
  refine Triple.mono ((allocatePages_tables ..).and (allocatePages_handed _ hstart hq.pages)) ?_ fun _ _ _ => trivial
  rintro ps s₁ ⟨⟨hlen, hs⟩, hhanded⟩
  refine ⟨q, hq, h.tables.begin hq hlen hs, hs.config, ⟨begun id q n, by simp [reserve, receipt], rfl, rfl⟩, ps, ?_, ?_⟩
  · exact hhanded.of_eq rfl rfl rfl rfl
  · intro j
    rw [reserve_get, hs.sequences]
    rfl

theorem extendAppend_lent {n : Nat} (h : Lent s id q rid s₁) :
    Triple (extendAppend rid n) s₁ (fun _ s' => Lent s id q rid s') (fun _ _ => True) := by
  obtain ⟨r, hr, hid, hstart⟩ := h.reserved
  obtain ⟨ps, hhanded, hget⟩ := h.grew
  refine extendAppend_rule (fun _ => trivial) fun r' q' hr' hq' hp hfit hav => ?_
  obtain rfl : r' = r := by simpa [hr] using hr'.symm
  subst hid
  obtain rfl : q' = grown q ps rid := by simpa [hget] using hq'.symm
  refine Triple.mono ((allocatePages_tables ..).and (allocatePages_handed _ hhanded hav)) ?_ fun _ _ _ => trivial
  rintro ps' s₂ ⟨⟨hlen, hs⟩, hhanded'⟩
  refine ⟨h.tables.extend hr hq' hp hfit hlen hs, hs.config.trans h.config,
    ⟨{ r' with tokenCount := r'.tokenCount + n }, by simp [reserve], rfl, hstart⟩, ps ++ ps', ?_, ?_⟩
  · exact hhanded'.of_eq rfl rfl rfl rfl
  · intro j
    rw [reserve_get, hs.sequences]
    split
    · rw [grown, grown, grown, List.append_assoc]
    · next hj => rw [hget, if_neg hj]

theorem extendAll_lent {extras : List Nat} (h : Lent s id q rid s₁) :
    Triple (extendAll rid extras) s₁ (fun _ s' => Lent s id q rid s') (fun _ _ => True) := by
  induction extras generalizing s₁ with
  | nil => exact Triple.pure' h
  | cons extra extras ih => exact Triple.bind (extendAppend_lent h) fun _ _ h' => ih h'

theorem Lent.cancel (h : Lent s id q rid s₁) (hs : Sane s) (hq : s.sequences[id]? = some q) (hidle : q.pending = none) :
    ∃ s₂, (cancelAppend rid).exec s₁ = (.ok (), s₂) ∧ (∀ j : Nat, s₂.sequences[j]? = s.sequences[j]?) ∧
      s₂.availablePages = s.availablePages := by
  obtain ⟨r, hr, hid, hstart⟩ := h.reserved
  obtain ⟨ps, hhanded, hget⟩ := h.grew
  have hkept : keptPages s₁ r 0 = q.pages.length := by
    rw [keptPages, Nat.add_zero, hstart, h.config]
    exact (hs.tables.settled id q hq hidle).symm
  have hrelease : Triple (commitRow rid 0) s₁ (fun _ s₂ => (∀ j : Nat, s₂.sequences[j]? = s.sequences[j]?) ∧
      s₂.availablePages = s.availablePages) (fun _ _ => False) := by
    refine commitRow_rule h.tables hr (Nat.zero_le _) fun q' hq' _ => ?_
    obtain rfl : q' = grown q ps rid := by simpa [hid, hget] using hq'.symm
    have hdrop : (grown q ps rid).pages.drop (keptPages s₁ r 0) = ps := by rw [hkept, grown, List.drop_left]
    have hback : finished s₁ r (grown q ps rid) 0 = q := by
      rw [finished, hkept, Nat.add_zero, hstart, grown]
      simp [hidle.symm]
    rw [hdrop, hback]
    have hlent : Handed s ps (settle s₁ r.requestId q rid) := hhanded.of_eq rfl rfl rfl rfl
    refine ((releasePages_tables ..).and (releasePages_handed hlent)).mono ?_ fun _ _ hf => hf.2
    rintro _ s₂ ⟨hsame, hdone⟩
    refine ⟨fun j => ?_, hdone.available⟩
    rw [hsame.sequences, settle_get, hid, hget]
    split
    · next hj => rw [hj, hq]
    · rfl
  obtain ⟨_, s₂, hexec, hpost⟩ := hrelease.exists_ok
  refine ⟨s₂, ?_, hpost⟩
  rw [exec_cancelAppend h.tables hr, M.exec_bind, hexec]
  rfl

/-- Two pages of one token. -/
def pairOfPages : PagedKvCacheConfig := ⟨1, 2, 8, one_le_usizeMax, two_le_usizeMax, eight_le_usizeMax⟩

def oneSequence : PagedKvCacheManager := runAll (KvOp.run noHash) [.createSequence 0] (initial pairOfPages)

theorem new_pairOfPages : new pairOfPages = .ok (initial pairOfPages) := rfl

theorem oneSequence_begin :
    (beginAppend 0 1).exec oneSequence =
      (.ok (receipt 1 (begun 0 emptySequence 1) emptySequence [0]), (beginAppend 0 1).next oneSequence) :=
  M.exec_of_fst (by decide +kernel)

theorem oneSequence_extend :
    (extendAll 1 [1]).exec ((beginAppend 0 1).next oneSequence) =
      (.ok (), (extendAll 1 [1]).next ((beginAppend 0 1).next oneSequence)) :=
  M.exec_of_fst (by decide +kernel)

end Ruda.Kv
