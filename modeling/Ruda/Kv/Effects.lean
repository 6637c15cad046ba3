import Ruda.Kv.Safety

/-!
# What a caller of the KV manager sees

The block tables and reservations after each operation, for code that drives the
manager. Everything here rests on `SeqOk` alone, so it also holds where the page
counts have gone wrong; there a page primitive may panic, and nothing else can.
-/

namespace Ruda.Kv

open PagedKvCacheManager

variable {s s' : PagedKvCacheManager} {id : RequestId} {rid : KvReservationId}
  {q : SequenceState} {r : ReservationState} {chain : ChainHash}

/-- The tables of `s'` are those of `s` with sequence `id` set to `q`. -/
structure Put (s : PagedKvCacheManager) (id : RequestId) (q : Option SequenceState)
    (s' : PagedKvCacheManager) : Prop where
  config : s'.config = s.config
  get : ∀ j : Nat, s'.sequences[j]? = if j = id then q else s.sequences[j]?
  reservations : s'.reservations = s.reservations
  nextReservation : s'.nextReservation = s.nextReservation

theorem Put.self (h : Put s id o s') : s'.sequences[id]? = o := by simpa using h.get id

theorem Put.other {j : Nat} (h : Put s id o s') (hj : j ≠ id) :
    s'.sequences[j]? = s.sequences[j]? := by simpa [hj] using h.get j

theorem createSequenceWithPrefix_effect {tokens : List Token} (hnone : s.sequences[id]? = none) :
    Triple (createSequenceWithPrefix chain id tokens) s
      (fun _ s' => ∃ pages parent, pages.length ≤ usableBlocks s tokens ∧
        Put s id (some (adopted s.config.blockSize pages parent)) s')
      (fun f _ => f.IsPanic) := by
  refine createSequenceWithPrefix_rule (fun hne => absurd hnone hne) fun _ => ?_
  refine (matchPrefix_tables ..).mono ?_ (fun _ _ h => h)
  rintro m s₁ ⟨hm, hsame, -⟩
  refine ⟨m.1, m.2, ?_, hsame.config, fun j => ?_, hsame.reservations, hsame.nextReservation⟩
  · rw [hm]
    exact cachedPrefix_length_le ..
  · have hcfg : s₁.config = s.config := hsame.config
    have hget : ∀ i : Nat, s₁.sequences[i]? = if i = id then some emptySequence else s.sequences[i]? :=
      fun i => by rw [hsame.sequences, putSequence_get]
    simp only [adopt, putSequence_get, hcfg, hget]
    split <;> rfl

theorem createSequence_effect (hnone : s.sequences[id]? = none) :
    Triple (createSequence id) s (fun _ s' => Put s id (some emptySequence) s') (fun _ _ => False) :=
  createSequence_rule (fun hne => absurd hnone hne) fun _ =>
    ⟨rfl, fun _ => putSequence_get _, rfl, rfl⟩

theorem removeSequence_effect :
    Triple (removeSequence id) s
      (fun _ s' => (∃ q, s.sequences[id]? = some q) ∧ Put s id none s')
      (fun f s' => f.IsPanic ∨ s' = s ∧ ∀ q, s.sequences[id]? = some q → q.pending ≠ none) := by
  refine removeSequence_rule (fun hno _ => .inr ⟨rfl, hno⟩) fun q hq _ => ?_
  refine (releasePages_tables _ _).mono (fun _ s₁ hs => ?_) fun _ _ hf => .inl hf.1
  refine ⟨⟨q, hq⟩, hs.config, fun j => ?_, hs.reservations, hs.nextReservation⟩
  rw [hs.sequences, BTreeMap.get_erase]

/-- `q'` is `q` as far as appends are concerned. -/
structure SameTable (q q' : SequenceState) : Prop where
  committed : q'.committedTokens = q.committedTokens
  pages : q'.pages = q.pages
  pending : q'.pending = q.pending

theorem registerPrefix_effect {tokens : List Token} (h : SeqOk s) (hq : s.sequences[id]? = some q) :
    Triple (registerPrefix chain id tokens) s
      (fun _ s' => ∃ q', SameTable q q' ∧ Put s id (some q') s') (fun _ _ => False) := by
  have hget : ∀ j : Nat, s.sequences[j]? = if j = id then some q else s.sequences[j]? := fun j => by
    split
    · next hj => rw [hj, hq]
    · rfl
  refine registerPrefix_rule (fun hno => by simp [hq] at hno) ⟨q, ⟨rfl, rfl, rfl⟩, rfl, hget, rfl, rfl⟩
    fun q' _ hq' => ?_
  obtain rfl : q' = q := by simpa [hq] using hq'.symm
  have hcomplete := completeBlocks_le (s := s) (q := q') tokens
  have hcovers := h.covers hq
  have hdiv := div_le_divCeil (a := q'.committedTokens) h.blockSize
  have hreg := (Nat.le_div_iff_mul_le h.blockSize).mpr (h.registered id q' hq)
  refine (publishBlocks_tables ..).mono (fun parent s₁ hs => ?_) fun _ _ hf => by omega
  refine ⟨published q' (completeBlocks s q' tokens) parent, ⟨rfl, rfl, rfl⟩, hs.config, fun j => ?_,
    hs.reservations, hs.nextReservation⟩
  rw [putSequence_get, hs.sequences]

/-- Sequence `id` got a reservation for `n` more tokens. -/
structure Begun (s : PagedKvCacheManager) (id : RequestId) (n : Nat) (q : SequenceState)
    (ps : List KvPageId) (s' : PagedKvCacheManager) : Prop where
  config : s'.config = s.config
  get : ∀ j : Nat, s'.sequences[j]? = if j = id then some (grown q ps s.nextReservation) else s.sequences[j]?
  reservations : ∀ j : Nat,
    s'.reservations[j]? = if j = s.nextReservation then some (begun id q n) else s.reservations[j]?
  nextReservation : s'.nextReservation = s.nextReservation + 1

theorem beginAppend_effect {n : Nat} (hq : CanAppend s id n q) :
    Triple (beginAppend id n) s
      (fun res s' => ∃ ps, res = receipt s.nextReservation (begun id q n) q ps ∧ Begun s id n q ps s')
      (fun f s' => f.IsPanic ∨ s' = s ∧ u64Max ≤ s.nextReservation) := by
  refine beginAppend_rule (fun hno _ => .inr ⟨rfl, ?_⟩) fun q' hq' => ?_
  · by_contra hlt
    exact hno q (hq.begin (Nat.not_le.mp hlt))
  obtain rfl : q' = q := by simpa [hq.found] using hq'.found.symm
  refine (allocatePages_tables _ _).mono ?_ fun _ _ hf => .inl hf
  rintro ps s₁ ⟨-, hs⟩
  refine ⟨ps, rfl, hs.config, fun j => ?_, fun j => ?_, hs.nextReservation⟩
  · rw [reserve_get, hs.sequences]
  · simp only [reserve, BTreeMap.get_insert, hs.reservations]

/-- The rows were settled with the given token counts and nothing else changed. -/
structure Settled (s : PagedKvCacheManager) (rows : List (KvReservationId × Nat))
    (s' : PagedKvCacheManager) : Prop where
  config : s'.config = s.config
  nextReservation : s'.nextReservation = s.nextReservation
  done : ∀ row ∈ rows, ∀ r, s.reservations[row.1]? = some r → ∃ q', s'.sequences[r.requestId]? = some q' ∧
    q'.pending = none ∧ q'.committedTokens = r.startPosition + row.2
  others : ∀ j : Nat, (∀ row ∈ rows, ∀ r, s.reservations[row.1]? = some r → r.requestId ≠ j) →
    s'.sequences[j]? = s.sequences[j]?
  kept : ∀ j : Nat, j ∉ rows.map Prod.fst → s'.reservations[j]? = s.reservations[j]?

theorem SeqOk.distinct {rid' : KvReservationId} {r' : ReservationState} (h : SeqOk s)
    (hr : s.reservations[rid]? = some r) (hr' : s.reservations[rid']? = some r') (hne : rid' ≠ rid) :
    r'.requestId ≠ r.requestId := by
  intro heq
  obtain ⟨q, hq, hok⟩ := h.reserved rid r hr
  obtain ⟨q', hq', hok'⟩ := h.reserved rid' r' hr'
  obtain rfl : q' = q := by simpa [heq, hq] using hq'.symm
  exact hne (by simpa [hok.pending] using hok'.pending.symm)

theorem Settled.cons {rows : List (KvReservationId × Nat)} {s₁ : PagedKvCacheManager}
    {count : Nat} (h : SeqOk s) (hr : s.reservations[rid]? = some r)
    (hs : SameTables (settle s r.requestId (finished s r q count) rid) s₁)
    (hrows : RowsOk s ((rid, count) :: rows)) (hrest : Settled s₁ rows s') :
    Settled s ((rid, count) :: rows) s' := by
  obtain ⟨hnd, -⟩ := hrows
  obtain ⟨hnot, -⟩ := List.nodup_cons.mp hnd
  have hkept : ∀ j : Nat, j ≠ rid → s₁.reservations[j]? = s.reservations[j]? := fun j hj => by
    rw [hs.reservations]
    simp [settle, hj]
  have hne : ∀ row ∈ rows, row.1 ≠ rid := fun row hrow heq =>
    hnot (List.mem_map.mpr ⟨row, hrow, heq⟩)
  -- the rows still to come are on other sequences
  have hother : ∀ row ∈ rows, ∀ r₂, s₁.reservations[row.1]? = some r₂ → r₂.requestId ≠ r.requestId :=
    fun row hrow r₂ hr₂ => h.distinct hr (by rwa [← hkept _ (hne row hrow)]) (hne row hrow)
  refine ⟨hrest.config.trans hs.config, hrest.nextReservation.trans hs.nextReservation, ?_, ?_, ?_⟩
  · intro row hrow r₂ hr₂
    rcases List.mem_cons.mp hrow with rfl | hrow
    · obtain rfl : r₂ = r := by simpa [hr] using hr₂.symm
      refine ⟨finished s r₂ q count, ?_, rfl, rfl⟩
      rw [hrest.others r₂.requestId hother, hs.sequences, settle_get, if_pos rfl]
    · exact hrest.done row hrow r₂ (by rw [hkept _ (hne row hrow), hr₂])
  · intro j hj
    have hjr : j ≠ r.requestId := fun heq => hj (rid, count) (by simp) r hr heq.symm
    rw [hrest.others j fun row hrow r₂ hr₂ => ?_, hs.sequences, settle_get, if_neg hjr]
    exact hj row (List.mem_cons_of_mem _ hrow) r₂ (by rwa [← hkept _ (hne row hrow)])
  · intro j hj
    simp only [List.map_cons, List.mem_cons, not_or] at hj
    rw [hrest.kept j hj.2, hkept j hj.1]

theorem commitRows_effect {rows : List (KvReservationId × Nat)} (h : SeqOk s) (hrows : RowsOk s rows) :
    Triple (commitRows rows) s (fun _ s' => Settled s rows s') (fun f _ => f.IsPanic) := by
  induction rows generalizing s with
  | nil => exact Triple.pure' ⟨rfl, rfl, by simp, fun _ _ => rfl, fun _ _ => rfl⟩
  | cons row rows ih =>
    obtain ⟨r, hr, hc⟩ := hrows.2 row (by simp)
    refine Triple.bind (commitRow_seqOk h hr hc) ?_
    rintro _ s₁ ⟨h₁, q, -, -, hs₁⟩
    refine Triple.bind (ih h₁ (hrows.tail hs₁)) fun _ s₂ h₂ => Triple.pure' ?_
    exact Settled.cons h hr hs₁ hrows h₂

theorem commitAppendPrefixes_effect {rows : List (KvReservationId × Nat)} (h : SeqOk s) :
    Triple (commitAppendPrefixes rows) s (fun _ s' => Settled s rows s')
      (fun f s' => f.IsPanic ∨ s' = s) :=
  commitAppendPrefixes_rule (fun _ => .inr rfl) fun hrows =>
    (commitRows_effect h hrows).mono (fun _ _ h => h) fun _ _ hf => .inl hf

theorem cancelAppends_effect {ids : List KvReservationId} (h : SeqOk s) :
    Triple (cancelAppends ids) s (fun _ s' => Settled s (cancelRows ids) s')
      (fun f s' => f.IsPanic ∨ s' = s) :=
  cancelAppends_rule h (fun _ => .inr rfl) fun hrows =>
    (commitRows_effect h hrows).mono (fun _ _ h => h) fun _ _ hf => .inl hf

theorem commitAppendPartial_effect {count : Nat} (h : SeqOk s) (hr : s.reservations[rid]? = some r)
    (hpos : 0 < count) (hc : count ≤ r.tokenCount) :
    Triple (commitAppendPartial rid count) s (fun _ s' => Settled s [(rid, count)] s')
      (fun f _ => f.IsPanic) := by
  have hrow : Triple (commitRow rid count) s (fun _ s' => Settled s [(rid, count)] s')
      (fun f _ => f.IsPanic) := by
    refine (commitRow_seqOk h hr hc).mono ?_ fun _ _ hf => hf
    rintro _ s₁ ⟨-, q, -, -, hs₁⟩
    exact Settled.cons h hr hs₁ (singleRow_ok hr hc) ⟨rfl, rfl, by simp, fun _ _ => rfl, fun _ _ => rfl⟩
  unfold Triple at hrow ⊢
  rwa [exec_commitAppendPartial h hr hpos hc]

-- Every operation

theorem setPrefixCaching_effect (enabled : Bool) :
    Triple (setPrefixCaching enabled) s
      (fun _ s' => s'.config = s.config ∧ s'.sequences = s.sequences ∧
        s'.reservations = s.reservations ∧ s'.nextReservation = s.nextReservation)
      (fun _ _ => False) := by
  have hdrop : ∀ (pages : List KvPageId) (s₀ : PagedKvCacheManager),
      SameTables s₀ (pages.foldl (fun s page =>
        let s := s.dropCachedBlock page
        { s with freePages := insert page s.freePages }) s₀) := by
    intro pages
    induction pages with
    | nil => exact fun s₀ => .refl s₀
    | cons p ps ih =>
      intro s₀
      have hsame := dropCachedBlock_sameTables s₀ p
      have hstep : SameTables s₀ { s₀.dropCachedBlock p with
          freePages := insert p (s₀.dropCachedBlock p).freePages } :=
        ⟨hsame.1, hsame.2, hsame.3, hsame.4, hsame.5, hsame.6⟩
      exact hstep.trans (ih _)
  refine Triple.modify' ?_
  cases enabled with
  | true => exact ⟨rfl, rfl, rfl, rfl⟩
  | false =>
    have hs := hdrop (s.evictable.toList.map Prod.snd)
      { s with prefixCaching := false, evictable := ∅ }
    exact ⟨hs.config, hs.sequences, hs.reservations, hs.nextReservation⟩

/-- Tables stay well formed under every operation; only a page primitive can panic. -/
theorem KvOp.run_seqOk (op : KvOp) (h : SeqOk s) :
    Triple (op.run chain) s (fun _ s' => SeqOk s') (fun f s' => f.IsPanic ∨ s' = s) := by
  have herr : ∀ msg, (Fault.error msg).IsPanic ∨ s = s := fun _ => .inr rfl
  have hrow : ∀ {rid count r}, s.reservations[rid]? = some r → count ≤ r.tokenCount →
      Triple (commitRow rid count) s (fun _ s' => SeqOk s') (fun f s' => f.IsPanic ∨ s' = s) :=
    fun hr hc => (commitRow_seqOk h hr hc).mono (fun _ _ h => h.1) fun _ _ hf => .inl hf
  have hrows : ∀ {rows}, RowsOk s rows →
      Triple (commitRows rows) s (fun _ s' => SeqOk s') (fun f s' => f.IsPanic ∨ s' = s) := by
    intro rows hr
    refine (commitRows_rule (J := fun rows s' => SeqOk s' ∧ RowsOk s' rows) ⟨h, hr⟩ ?_).mono
      (fun _ _ h => h.1) fun f _ (hf : f.IsPanic) => .inl hf
    rintro rid count rest s₁ ⟨h₁, hr₁⟩
    obtain ⟨r, hr, hc⟩ := hr₁.2 (rid, count) (by simp)
    refine (commitRow_seqOk h₁ hr hc).mono ?_ fun _ _ hf => hf
    rintro _ s₂ ⟨h₂, q, -, -, hs₂⟩
    exact ⟨h₂, hr₁.tail hs₂⟩
  cases op with
  | setPrefixCaching enabled =>
    refine (setPrefixCaching_effect enabled).mono ?_ fun _ _ h => h.elim
    rintro _ s₁ ⟨hc, hq, hr, hn⟩
    exact ⟨hc ▸ h.blockSize, hc ▸ hq ▸ h.settled, hc ▸ hq ▸ h.registered, hq ▸ hr ▸ h.owned,
      hc ▸ hq ▸ hr ▸ h.reserved, hr ▸ hn ▸ h.fresh⟩
  | createSequence id =>
    exact createSequence_rule (fun _ => herr) fun hnone => h.create hnone
  | createSequenceWithPrefix id tokens =>
    refine Triple.discard (createSequenceWithPrefix_rule (fun _ => herr) fun hnone => ?_)
    refine (matchPrefix_tables ..).mono ?_ fun _ _ hf => .inl hf
    rintro m s₁ ⟨-, hs, -⟩
    exact ((h.create hnone).of_sameTables hs).adopt (by rw [hs.sequences]; simp)
  | registerPrefix id tokens =>
    refine registerPrefix_rule (fun _ => herr) h fun q _ hq => ?_
    have hcomplete := completeBlocks_le (s := s) (q := q) tokens
    refine (publishBlocks_tables ..).mono (fun parent s₁ hs => ?_) fun _ _ hf => .inl hf.1
    refine (h.of_sameTables hs).published (by rw [hs.sequences, hq]) ?_
    rw [hs.config]
    exact hcomplete
  | beginAppend id n =>
    refine Triple.discard (beginAppend_rule (fun _ => herr) fun q hq => ?_)
    refine (allocatePages_tables _ _).mono ?_ fun _ _ hf => .inl hf
    rintro ps s₁ ⟨hlen, hs⟩
    exact h.begin hq hlen hs
  | extendAppend rid n =>
    refine Triple.discard (extendAppend_rule herr fun r q hr hq hp hfit hav => ?_)
    refine (allocatePages_tables _ _).mono ?_ fun _ _ hf => .inl hf
    rintro ps s₁ ⟨hlen, hs⟩
    exact h.extend hr hq hp hfit hlen hs
  | commitAppend rid =>
    exact Triple.discard (commitAppend_rule h herr fun r hr => hrow hr le_rfl)
  | commitAppendPartial rid n =>
    exact Triple.discard (commitAppendPartial_rule h herr fun r hr _ hc => hrow hr hc)
  | commitAppendPrefixes rows => exact Triple.discard (commitAppendPrefixes_rule herr hrows)
  | commitAppends ids => exact Triple.discard (commitAppends_rule h herr hrows)
  | cancelAppend rid => exact cancelAppend_rule h herr fun r hr => hrow hr (Nat.zero_le _)
  | cancelAppends ids => exact cancelAppends_rule h herr hrows
  | removeSequence id =>
    refine removeSequence_rule (fun _ => herr) fun q hq hp => ?_
    refine (releasePages_tables _ _).mono (fun _ s₁ hs => ?_) fun _ _ hf => .inl hf.1
    exact (h.erase hq hp).of_sameTables hs

end Ruda.Kv
