import Ruda.Kv.Tables

/-!
# What each operation of the KV manager does

One rule per public operation, in terms of the page primitives it runs. A rule
asks for the postcondition of that primitive alone and settles the argument
checks, the lookups and the table update around it, so that no later proof
unfolds an operation. Every error is raised before anything changes.
-/

namespace Ruda.Kv

open PagedKvCacheManager

variable {s s' : PagedKvCacheManager} {id : RequestId} {rid : KvReservationId}
  {q : SequenceState} {r : ReservationState} {E : Fault → PagedKvCacheManager → Prop}

theorem sequence_bind {f : SequenceState → KvM α} {Q : α → PagedKvCacheManager → Prop}
    (herr : ∀ msg, E (.error msg) s)
    (hs : ∀ q, s'.sequences[id]? = some q → Triple (f q) s Q E) :
    Triple (s'.sequence id >>= f) s Q E :=
  Triple.need_bind (fun _ => herr _) hs

-- Creating and removing

def emptySequence : SequenceState :=
  { committedTokens := 0, pages := [], pending := none, registeredBlocks := 0, chainHash := chainRoot }

theorem createSequence_rule {Q : Unit → PagedKvCacheManager → Prop}
    (herr : s.sequences[id]? ≠ none → ∀ msg, E (.error msg) s)
    (hok : s.sequences[id]? = none → Q () (s.putSequence id emptySequence)) :
    Triple (createSequence id) s Q E := by
  unfold createSequence
  refine Triple.get_bind (Triple.ite (fun h => Triple.fail' (herr ?_ _)) fun h => Triple.set' (hok ?_))
  · obtain ⟨q, hq⟩ := (BTreeMap.contains_iff _ _).mp h
    simp [hq]
  · exact (BTreeMap.contains_eq_false _ _).mp (Bool.eq_false_iff.mpr h)

/-- The sequence that maps `pages` as its cached prefix. -/
def adopted (blockSize : Nat) (pages : List KvPageId) (parent : Nat) : SequenceState :=
  { committedTokens := pages.length * blockSize, pages, pending := none,
    registeredBlocks := pages.length, chainHash := parent }

def adopt (s : PagedKvCacheManager) (id : RequestId) (pages : List KvPageId) (parent : Nat) :
    PagedKvCacheManager :=
  { s.putSequence id (adopted s.config.blockSize pages parent) with
    reusedTokens := s.reusedTokens + pages.length * s.config.blockSize }

theorem SeqOk.create (h : SeqOk s) (hnone : s.sequences[id]? = none) :
    SeqOk (s.putSequence id emptySequence) := by
  refine h.put (fun q₀ hq₀ => by simp [hnone] at hq₀) (fun _ => rfl) (fun _ => ?_) ?_
  · simp [emptySequence, divCeil_zero h.blockSize]
  · simp [emptySequence]

theorem SeqOk.adopt {pages : List KvPageId} {parent : Nat} (h : SeqOk s)
    (hq : s.sequences[id]? = some emptySequence) : SeqOk (Kv.adopt s id pages parent) := by
  have hput : SeqOk (s.putSequence id (adopted s.config.blockSize pages parent)) := by
    refine h.put ?_ (fun _ => rfl) (fun _ => (divCeil_mul h.blockSize).symm) le_rfl
    intro q₀ hq₀
    obtain rfl : q₀ = emptySequence := by simpa [hq] using hq₀.symm
    exact ⟨rfl, fun hne => absurd rfl hne⟩
  exact ⟨hput.blockSize, hput.settled, hput.registered, hput.owned, hput.reserved, hput.fresh⟩

/-- How many blocks of `tokens` a lookup may take from the cache. -/
def usableBlocks (s : PagedKvCacheManager) (tokens : List Token) : Nat :=
  if s.prefixCaching then (tokens.length - 1) / s.config.blockSize else 0

theorem createSequenceWithPrefix_rule {chain : ChainHash} {tokens : List Token}
    {Q : Nat → PagedKvCacheManager → Prop}
    (herr : s.sequences[id]? ≠ none → ∀ msg, E (.error msg) s)
    (hok : s.sequences[id]? = none →
      Triple (matchPrefix chain tokens (usableBlocks s tokens) 0 chainRoot)
        (s.putSequence id emptySequence)
        (fun m s₁ => Q (m.1.length * s.config.blockSize) (adopt s₁ id m.1 m.2)) E) :
    Triple (createSequenceWithPrefix chain id tokens) s Q E := by
  unfold createSequenceWithPrefix
  refine Triple.bind (Q := fun _ s₁ => s.sequences[id]? = none ∧
    s₁ = s.putSequence id emptySequence) (createSequence_rule herr fun h => ⟨h, rfl⟩) ?_
  rintro _ _ ⟨hnone, rfl⟩
  have hok := hok hnone
  refine Triple.get_bind (Triple.ite (fun h => ?_) fun h => ?_)
  · -- nothing is looked up: the empty sequence already stands
    have h0 : usableBlocks s tokens = 0 := by
      unfold usableBlocks
      split
      · next hc =>
        have hlen : tokens.length ≤ 1 := by simpa [putSequence, hc] using h
        rw [Nat.sub_eq_zero_of_le hlen, Nat.zero_div]
      · rfl
    rw [h0] at hok
    refine Triple.pure' ?_
    have hsame : adopt (s.putSequence id emptySequence) id [] chainRoot =
        s.putSequence id emptySequence := by
      simp [adopt, adopted, emptySequence, putSequence, BTreeMap.insert_insert]
    have := Triple.ok hok rfl
    simpa [hsame] using this
  · have hn : usableBlocks s tokens = (tokens.length - 1) / s.config.blockSize := by
      have hc : s.prefixCaching = true := by
        by_contra hc
        simp [putSequence, hc] at h
      simp [usableBlocks, hc]
    rw [hn] at hok
    refine Triple.bind ((matchPrefix_tables ..).and hok |>.mono (fun _ _ h => h) fun _ _ h => h.2) ?_
    rintro ⟨pages, parent⟩ s₁ ⟨⟨-, hs₁, -⟩, hQ⟩
    have hseq : s₁.sequences[id]? = some emptySequence := by simp [hs₁.sequences]
    have hcfg : s₁.config = s.config := hs₁.config
    refine Triple.get_bind (Triple.expect_bind (fun h => by simp [hseq] at h) fun q hq => ?_)
    obtain rfl : q = emptySequence := by simpa [hseq] using hq.symm
    refine Triple.set_bind (Triple.pure' ?_)
    simpa [adopt, adopted, hcfg, putSequence, emptySequence] using hQ

theorem removeSequence_rule {Q : Unit → PagedKvCacheManager → Prop}
    (herr : (∀ q, s.sequences[id]? = some q → q.pending ≠ none) → ∀ msg, E (.error msg) s)
    (hok : ∀ q, s.sequences[id]? = some q → q.pending = none →
      Triple (releasePages q.pages.reverse) { s with sequences := s.sequences.erase id } Q E) :
    Triple (removeSequence id) s Q E := by
  unfold removeSequence
  refine Triple.get_bind (Triple.need_bind (fun hno => herr (by simp [hno]) _) fun q hq => ?_)
  cases hp : q.pending with
  | some rid =>
    refine Triple.fail' (herr (fun q' hq' => ?_) _)
    obtain rfl : q' = q := by simpa [hq] using hq'.symm
    simp [hp]
  | none => exact Triple.set_bind (hok q hq hp)

-- Publishing

/-- Full blocks of a sequence with `q`'s committed tokens that `tokens` covers. -/
def completeBlocks (s : PagedKvCacheManager) (q : SequenceState) (tokens : List Token) : Nat :=
  min q.committedTokens tokens.length / s.config.blockSize

def published (q : SequenceState) (complete parent : Nat) : SequenceState :=
  { q with registeredBlocks := max q.registeredBlocks complete, chainHash := parent }

theorem registerPrefix_rule {chain : ChainHash} {tokens : List Token}
    {Q : Unit → PagedKvCacheManager → Prop}
    (herr : s.sequences[id]? = none → ∀ msg, E (.error msg) s) (hoff : Q () s)
    (hok : ∀ q, s.prefixCaching = true → s.sequences[id]? = some q →
      Triple (publishBlocks chain tokens q.pages (completeBlocks s q tokens - q.registeredBlocks)
        q.registeredBlocks q.chainHash) s
        (fun parent s₁ => Q () (s₁.putSequence id (published q (completeBlocks s q tokens) parent))) E) :
    Triple (registerPrefix chain id tokens) s Q E := by
  unfold registerPrefix
  refine Triple.get_bind (Triple.ite (fun _ => Triple.pure' hoff) fun hc => ?_)
  refine Triple.need_bind (fun hno => herr hno _) fun q hq => ?_
  refine Triple.bind ((publishBlocks_tables ..).and (hok q (by simpa using hc) hq) |>.mono
    (fun _ _ h => h) fun _ _ h => h.2) ?_
  rintro parent s₁ ⟨hs₁, hQ⟩
  have hseq : s₁.sequences[id]? = some q := by rw [hs₁.sequences, hq]
  refine Triple.get_bind (Triple.expect_bind (fun h => by simp [hseq] at h) fun q' hq' => ?_)
  obtain rfl : q' = q := by simpa [hseq] using hq'.symm
  exact Triple.set' hQ

-- Growing

/-- Pages to allocate before `q` can hold `length` tokens. -/
def newPages (s : PagedKvCacheManager) (q : SequenceState) (length : Nat) : Nat :=
  divCeil length s.config.blockSize - q.pages.length

/-- `q` after `ps` was allocated for reservation `rid`. -/
def grown (q : SequenceState) (ps : List KvPageId) (rid : KvReservationId) : SequenceState :=
  { q with pages := q.pages ++ ps, pending := some rid }

/-- The record a caller gets back. -/
def receipt (rid : KvReservationId) (r : ReservationState) (q : SequenceState) (ps : List KvPageId) :
    PagedKvAppendReservation :=
  { id := rid, requestId := r.requestId, startPosition := r.startPosition, tokenCount := r.tokenCount,
    contextLength := r.startPosition + r.tokenCount, newlyAllocatedPages := ps,
    blockTable := q.pages ++ ps }

/-- The reservation `beginAppend` records. -/
def begun (id : RequestId) (q : SequenceState) (tokenCount : Nat) : ReservationState :=
  { requestId := id, previousPageCount := q.pages.length, startPosition := q.committedTokens, tokenCount }

/-- What `begin_append` checks. -/
structure CanBegin (s : PagedKvCacheManager) (id : RequestId) (n : Nat) (q : SequenceState) :
    Prop where
  found : s.sequences[id]? = some q
  idle : q.pending = none
  pos : 0 < n
  fits : q.committedTokens + n ≤ s.config.maxSequenceLength
  pages : newPages s q (q.committedTokens + n) ≤ s.availablePages
  ids : s.nextReservation < u64Max

theorem beginAppend_rule {n : Nat} {Q : PagedKvAppendReservation → PagedKvCacheManager → Prop}
    (herr : (∀ q, ¬CanBegin s id n q) → ∀ msg, E (.error msg) s)
    (hok : ∀ q, CanBegin s id n q →
      Triple (allocatePages (newPages s q (q.committedTokens + n)))
        { s with nextReservation := s.nextReservation + 1 }
        (fun ps s₁ => Q (receipt s.nextReservation (begun id q n) q ps)
          (reserve s₁ id (grown q ps s.nextReservation) s.nextReservation (begun id q n))) E) :
    Triple (beginAppend id n) s Q E := by
  unfold beginAppend
  refine Triple.get_bind (Triple.ite (fun hn => Triple.fail' (herr ?_ _)) fun hn => ?_)
  · exact fun q h => absurd hn h.pos.ne'
  refine Triple.need_bind (fun hno => herr (fun q h => ?_) _) fun q hq => ?_
  · simpa [hno] using h.found
  have hsame : ∀ {q'}, CanBegin s id n q' → q' = q := fun h => by simpa [hq] using h.found.symm
  cases hp : q.pending with
  | some rid =>
    refine Triple.fail' (herr (fun q' h => ?_) _)
    obtain rfl := hsame h
    simpa [hp] using h.idle
  | none =>
    refine Triple.need_bind (fun hno => herr (fun q' h => ?_) _) fun len hlen => ?_
    · obtain rfl := hsame h
      have hle := h.fits.trans s.config.maxSequenceLength_le
      simp [checkedAdd_of_le hle] at hno
    obtain ⟨-, rfl⟩ := checkedAdd_eq_some.mp hlen
    refine Triple.ite (fun hbig => Triple.fail' (herr (fun q' h => ?_) _)) fun hfit => ?_
    · obtain rfl := hsame h
      exact absurd h.fits (Nat.not_le.mpr hbig)
    refine Triple.ite (fun hbig => Triple.fail' (herr (fun q' h => ?_) _)) fun hav => ?_
    · obtain rfl := hsame h
      exact absurd h.pages (Nat.not_le.mpr hbig)
    refine Triple.need_bind (fun hno => herr (fun q' h => ?_) _) fun next hnext => ?_
    · have hle : s.nextReservation + 1 ≤ u64Max := h.ids
      simp [checkedAdd_of_le hle] at hno
    obtain ⟨hids, rfl⟩ := checkedAdd_eq_some.mp hnext
    have hok := hok q ⟨hq, hp, Nat.pos_of_ne_zero hn, Nat.not_lt.mp hfit, Nat.not_lt.mp hav, hids⟩
    refine Triple.set_bind (Triple.bind ((allocatePages_tables ..).and hok |>.mono
      (fun _ _ h => h) fun _ _ h => h.2) ?_)
    rintro ps s₁ ⟨⟨-, hs₁⟩, hQ⟩
    have hseq : s₁.sequences[id]? = some q := by rw [hs₁.sequences]; exact hq
    refine Triple.get_bind (Triple.expect_bind (fun h => by simp [hseq] at h) fun q' hq' => ?_)
    obtain rfl : q' = q := by simpa [hseq] using hq'.symm
    exact Triple.set_bind (Triple.pure' hQ)

/-- What `can_append` tells: `CanBegin` apart from the reservation id. -/
structure CanAppend (s : PagedKvCacheManager) (id : RequestId) (n : Nat) (q : SequenceState) :
    Prop where
  found : s.sequences[id]? = some q
  idle : q.pending = none
  pos : 0 < n
  fits : q.committedTokens + n ≤ s.config.maxSequenceLength
  pages : newPages s q (q.committedTokens + n) ≤ s.availablePages

theorem CanAppend.begin {n : Nat} (h : CanAppend s id n q) (hid : s.nextReservation < u64Max) :
    CanBegin s id n q :=
  ⟨h.found, h.idle, h.pos, h.fits, h.pages, hid⟩

theorem canAppend_rule {n : Nat} {Q : Bool → PagedKvCacheManager → Prop}
    (herr : s.sequences[id]? = none → ∀ msg, E (.error msg) s)
    (hyes : ∀ q, CanAppend s id n q → Q true s) (hno : (∀ q, ¬CanAppend s id n q) → Q false s) :
    Triple (canAppend id n) s Q E := by
  unfold canAppend
  refine Triple.get_bind (Triple.ite (fun hn => Triple.pure' (hno ?_)) fun hn => ?_)
  · exact fun q h => absurd hn h.pos.ne'
  refine Triple.need_bind (fun hnone => herr hnone _) fun q hq => ?_
  have hsame : ∀ {q'}, CanAppend s id n q' → q' = q := fun h => by simpa [hq] using h.found.symm
  refine Triple.ite (fun hp => Triple.pure' (hno fun q' h => ?_)) fun hp => ?_
  · obtain rfl := hsame h
    simp [h.idle] at hp
  cases hlen : checkedAdd q.committedTokens n with
  | none =>
    refine Triple.pure' (hno fun q' h => ?_)
    obtain rfl := hsame h
    simp [checkedAdd_of_le (h.fits.trans s.config.maxSequenceLength_le)] at hlen
  | some len =>
    obtain ⟨-, rfl⟩ := checkedAdd_eq_some.mp hlen
    refine Triple.ite (fun hbig => Triple.pure' (hno fun q' h => ?_)) fun hfit => ?_
    · obtain rfl := hsame h
      exact absurd h.fits (Nat.not_le.mpr hbig)
    refine Triple.pure' ?_
    by_cases hav : newPages s q (q.committedTokens + n) ≤ s.availablePages
    · have hQ := hyes q ⟨hq, by simpa using hp, Nat.pos_of_ne_zero hn, Nat.not_lt.mp hfit, hav⟩
      unfold newPages at hav
      rwa [decide_eq_true hav]
    · have hQ := hno fun q' h => hav (hsame h ▸ h.pages)
      unfold newPages at hav
      rwa [decide_eq_false hav]

theorem validateReservation_rule {Q : Unit → PagedKvCacheManager → Prop}
    (herr : ∀ msg, E (.error msg) s)
    (hok : ∀ r q, s.reservations[rid]? = some r → s.sequences[r.requestId]? = some q →
      q.pending = some rid → q.committedTokens = r.startPosition → Q () s) :
    Triple (validateReservation rid) s Q E := by
  unfold validateReservation
  refine Triple.get_bind (Triple.need_bind (fun _ => herr _) fun r hr => ?_)
  refine sequence_bind herr fun q hq => ?_
  refine Triple.ite (fun _ => Triple.fail' (herr _)) fun hc => ?_
  refine Triple.need_bind (fun _ => herr _) fun _ _ => Triple.pure' ?_
  simp only [not_or, ne_eq, not_not] at hc
  exact hok r q hr hq hc.1 hc.2.1

theorem extendAppend_rule {n : Nat} {Q : PagedKvAppendReservation → PagedKvCacheManager → Prop}
    (herr : ∀ msg, E (.error msg) s)
    (hok : ∀ r q, s.reservations[rid]? = some r → s.sequences[r.requestId]? = some q →
      q.pending = some rid →
      r.startPosition + (r.tokenCount + n) ≤ s.config.maxSequenceLength →
      newPages s q (r.startPosition + (r.tokenCount + n)) ≤ s.availablePages →
      Triple (allocatePages (newPages s q (r.startPosition + (r.tokenCount + n)))) s
        (fun ps s₁ => Q (receipt rid { r with tokenCount := r.tokenCount + n } q ps)
          (reserve s₁ r.requestId (grown q ps rid) rid { r with tokenCount := r.tokenCount + n })) E) :
    Triple (extendAppend rid n) s Q E := by
  unfold extendAppend
  refine Triple.bind (Q := fun _ s₁ => s₁ = s ∧ ∃ r q, s.reservations[rid]? = some r ∧
    s.sequences[r.requestId]? = some q ∧ q.pending = some rid)
    (validateReservation_rule herr fun r q hr hq hp _ => ⟨rfl, r, q, hr, hq, hp⟩) ?_
  rintro _ _ ⟨rfl, r, q, hr, hq, hp⟩
  refine Triple.get_bind (Triple.expect_bind (fun h => by simp [hr] at h) fun r' hr' => ?_)
  obtain rfl : r' = r := by simpa [hr] using hr'.symm
  refine Triple.need_bind (fun _ => herr _) fun count hcount => ?_
  obtain ⟨-, rfl⟩ := checkedAdd_eq_some.mp hcount
  refine Triple.need_bind (fun _ => herr _) fun len hlen => ?_
  obtain ⟨-, rfl⟩ := checkedAdd_eq_some.mp hlen
  refine Triple.ite (fun _ => Triple.fail' (herr _)) fun hfit => ?_
  refine Triple.expect_bind (fun h => by simp [hq] at h) fun q' hq' => ?_
  obtain rfl : q' = q := by simpa [hq] using hq'.symm
  refine Triple.ite (fun _ => Triple.fail' (herr _)) fun hav => ?_
  have hok := hok r' q' hr hq hp (Nat.not_lt.mp hfit) (Nat.not_lt.mp hav)
  refine Triple.bind ((allocatePages_tables ..).and hok |>.mono (fun _ _ h => h) fun _ _ h => h.2) ?_
  rintro ps s₁ ⟨⟨-, hs₁⟩, hQ⟩
  have hseq : s₁.sequences[r'.requestId]? = some q' := by rw [hs₁.sequences, hq]
  refine Triple.get_bind (Triple.expect_bind (fun h => by simp [hseq] at h) fun q₂ hq₂ => ?_)
  obtain rfl : q₂ = q' := by simpa [hseq] using hq₂.symm
  refine Triple.set_bind (Triple.pure' ?_)
  have hg : ({ q₂ with pages := q₂.pages ++ ps } : SequenceState) = grown q₂ ps rid := by
    simp [grown, hp]
  rw [hg]
  exact hQ

theorem SeqOk.begin {s₁ : PagedKvCacheManager} {ps : List KvPageId} {n : Nat} (h : SeqOk s)
    (hq : CanBegin s id n q) (hlen : ps.length = newPages s q (q.committedTokens + n))
    (hs : SameTables { s with nextReservation := s.nextReservation + 1 } s₁) :
    SeqOk (Kv.reserve s₁ id (grown q ps s.nextReservation) s.nextReservation (begun id q n)) := by
  have hnone : s.reservations[s.nextReservation]? = none := by
    cases hr : s.reservations[s.nextReservation]? with
    | none => rfl
    | some r => exact absurd (h.fresh _ r hr) (lt_irrefl _)
  have h₁ : SeqOk { s with nextReservation := s.nextReservation + 1 } := ⟨h.blockSize, h.settled,
    h.registered, h.owned, h.reserved, fun rid r hr => (h.fresh rid r hr).trans (Nat.lt_succ_self _)⟩
  have hpages := h.settled id q hq.found hq.idle
  refine (h₁.of_sameTables hs).reserve (q := q) (by rw [hs.sequences]; exact hq.found)
    (.inl ⟨hq.idle, by rw [hs.reservations]; exact hnone⟩) rfl rfl rfl ?_ ?_
  · rw [hs.config]
    refine ⟨rfl, rfl, hpages, hq.pos, ?_, hq.fits⟩
    have := divCeil_mono h.blockSize (Nat.le_add_right q.committedTokens n)
    simp only [grown, begun, List.length_append, hlen, newPages]
    omega
  · rw [hs.nextReservation]
    exact Nat.lt_succ_self _

theorem SeqOk.extend {s₁ : PagedKvCacheManager} {ps : List KvPageId} {n : Nat} (h : SeqOk s)
    (hr : s.reservations[rid]? = some r) (hq : s.sequences[r.requestId]? = some q)
    (hp : q.pending = some rid)
    (hfit : r.startPosition + (r.tokenCount + n) ≤ s.config.maxSequenceLength)
    (hlen : ps.length = newPages s q (r.startPosition + (r.tokenCount + n))) (hs : SameTables s s₁) :
    SeqOk (Kv.reserve s₁ r.requestId (grown q ps rid) rid
      { r with tokenCount := r.tokenCount + n }) := by
  obtain ⟨q', hq', hok⟩ := h.reserved rid r hr
  obtain rfl : q' = q := by simpa [hq] using hq'.symm
  refine (h.of_sameTables hs).reserve (q := q') (by rw [hs.sequences, hq]) (.inr hp) rfl rfl rfl ?_ ?_
  · rw [hs.config]
    refine ⟨rfl, hok.start, hok.previous, by have := hok.pos; dsimp only; omega, ?_, hfit⟩
    have := divCeil_mono (b := s.config.blockSize) h.blockSize
      (show r.startPosition + r.tokenCount ≤ r.startPosition + (r.tokenCount + n) by omega)
    have := hok.length
    simp only [grown, List.length_append, hlen, newPages]
    omega
  · rw [hs.nextReservation]
    exact h.fresh rid r hr

-- Finishing

/-- Pages a sequence keeps when `count` tokens of `r` are committed. -/
def keptPages (s : PagedKvCacheManager) (r : ReservationState) (count : Nat) : Nat :=
  divCeil (r.startPosition + count) s.config.blockSize

/-- `q` after the first `count` tokens of `r` were committed. -/
def finished (s : PagedKvCacheManager) (r : ReservationState) (q : SequenceState) (count : Nat) :
    SequenceState :=
  { q with
    pages := q.pages.take (keptPages s r count)
    committedTokens := r.startPosition + count
    pending := none }

theorem keptPages_le (h : SeqOk s) (hok : PendingOk s.config rid r q) (hc : count ≤ r.tokenCount) :
    keptPages s r count ≤ q.pages.length := by
  rw [hok.length]
  exact divCeil_mono h.blockSize (by omega)

theorem finished_length (h : SeqOk s) (hok : PendingOk s.config rid r q) (hc : count ≤ r.tokenCount) :
    (finished s r q count).pages.length = keptPages s r count := by
  simpa [finished] using keptPages_le h hok hc

theorem SeqOk.finish (h : SeqOk s) (hr : s.reservations[rid]? = some r)
    (hq : s.sequences[r.requestId]? = some q) (hok : PendingOk s.config rid r q)
    (hc : count ≤ r.tokenCount) : SeqOk (Kv.settle s r.requestId (finished s r q count) rid) := by
  refine h.settle hr rfl hq ?_ rfl (finished_length h hok hc)
  rw [← hok.start]
  exact Nat.le_add_right _ _

theorem exec_commitRow (h : SeqOk s) (hr : s.reservations[rid]? = some r)
    (hq : s.sequences[r.requestId]? = some q) (hok : PendingOk s.config rid r q)
    (hc : count ≤ r.tokenCount) :
    (commitRow rid count).exec s =
      (do releasePages (q.pages.drop (keptPages s r count)); pure (r.startPosition + count)).exec
        (settle s r.requestId (finished s r q count) rid) := by
  have hle : divCeil (r.startPosition + count) s.config.blockSize ≤ q.pages.length :=
    keptPages_le h hok hc
  unfold commitRow
  simp only [M.exec_bind, M.exec_get, hr, M.exec_expect_some, hq, splitOff, hle, ↓reduceIte,
    M.exec_pure, M.exec_set]
  rfl

theorem commitRow_rule {Q : Nat → PagedKvCacheManager → Prop} (h : SeqOk s)
    (hr : s.reservations[rid]? = some r) (hc : count ≤ r.tokenCount)
    (hrel : ∀ q, s.sequences[r.requestId]? = some q → PendingOk s.config rid r q →
      Triple (releasePages (q.pages.drop (keptPages s r count)))
        (settle s r.requestId (finished s r q count) rid)
        (fun _ s₁ => Q (r.startPosition + count) s₁) E) :
    Triple (commitRow rid count) s Q E := by
  obtain ⟨q, hq, hok⟩ := h.reserved rid r hr
  have := Triple.bind (hrel q hq hok) fun _ _ h => Triple.pure' h
  unfold Triple at this ⊢
  rwa [exec_commitRow h hr hq hok hc]

/-- The rows name distinct reservations, each with at most its token count. -/
def RowsOk (s : PagedKvCacheManager) (rows : List (KvReservationId × Nat)) : Prop :=
  (rows.map Prod.fst).Nodup ∧
    ∀ row ∈ rows, ∃ r, s.reservations[row.1]? = some r ∧ row.2 ≤ r.tokenCount

theorem RowsOk.tail {rows : List (KvReservationId × Nat)} {q' : SequenceState}
    (h : RowsOk s ((rid, count) :: rows)) (hs : SameTables (settle s id q' rid) s') : RowsOk s' rows := by
  obtain ⟨hnd, hall⟩ := h
  obtain ⟨hnot, hnd⟩ := List.nodup_cons.mp hnd
  refine ⟨hnd, fun row hrow => ?_⟩
  have hne : row.1 ≠ rid := fun he => hnot (List.mem_map.mpr ⟨row, hrow, he⟩)
  obtain ⟨r, hr, hle⟩ := hall row (List.mem_cons_of_mem _ hrow)
  exact ⟨r, by rw [hs.reservations]; simpa [settle, hne] using hr, hle⟩

theorem takeOwned_exec (hr : s.reservations[rid]? = some r)
    (hq : s.sequences[r.requestId]? = some q) (h : SeqOk s) (hok : PendingOk s.config rid r q) :
    (takeOwned rid).exec s = (.ok (r, q), { s with reservations := s.reservations.erase rid }) := by
  have hprev : ¬q.pages.length < r.previousPageCount := by
    rw [hok.previous, hok.length, hok.start]
    exact Nat.not_lt.mpr (divCeil_mono h.blockSize (Nat.le_add_right _ _))
  have hle : r.startPosition + r.tokenCount ≤ u64Max :=
    hok.fits.trans s.config.maxSequenceLength_le
  simp only [takeOwned, validateReservation, takeReservation, M.exec_bind, M.exec_get, hr,
    M.exec_need_some, PagedKvCacheManager.sequence, hq, hok.pending, hok.start, hprev, ne_eq,
    not_true_eq_false, or_self, ↓reduceIte, checkedAdd_of_le (hok.start ▸ hle), M.exec_pure, M.exec_set]

theorem exec_commitAppend (h : SeqOk s) (hr : s.reservations[rid]? = some r) :
    (commitAppend rid).exec s = (commitRow rid r.tokenCount).exec s := by
  obtain ⟨q, hq, hok⟩ := h.reserved rid r hr
  have hle : r.startPosition + r.tokenCount ≤ u64Max :=
    hok.fits.trans s.config.maxSequenceLength_le
  have hall : keptPages s r r.tokenCount = q.pages.length := hok.length.symm
  rw [exec_commitRow h hr hq hok le_rfl, hall, List.drop_length]
  simp only [commitAppend, M.exec_bind, takeOwned_exec hr hq h hok, checkedAdd_of_le hle,
    M.exec_need_some, M.exec_modify, M.exec_pure, releasePages, finished, hall, List.take_length]
  rfl

theorem exec_cancelAppend (h : SeqOk s) (hr : s.reservations[rid]? = some r) :
    (cancelAppend rid).exec s = (do let _ ← commitRow rid 0; pure ()).exec s := by
  obtain ⟨q, hq, hok⟩ := h.reserved rid r hr
  have hprev : r.previousPageCount = keptPages s r 0 := by
    rw [hok.previous, ← hok.start]
    rfl
  have hle : r.previousPageCount ≤ q.pages.length := hprev ▸ keptPages_le h hok (Nat.zero_le _)
  rw [M.exec_bind, exec_commitRow h hr hq hok (Nat.zero_le _), ← hprev]
  have hq' : ({ q with pages := q.pages.take r.previousPageCount, pending := none } : SequenceState) =
      finished s r q 0 := by
    simp [finished, ← hprev, hok.start]
  simp only [cancelAppend, M.exec_bind, takeOwned_exec hr hq h hok, splitOff, hle, ↓reduceIte,
    M.exec_pure, M.exec_modify, hq']
  show M.exec (releasePages _) (settle s r.requestId (finished s r q 0) rid) = _
  rcases M.exec (releasePages _) (settle s r.requestId (finished s r q 0) rid) with ⟨_ | _, _⟩ <;> rfl

theorem exec_commitAppendPartial (h : SeqOk s) (hr : s.reservations[rid]? = some r)
    (hpos : 0 < count) (hc : count ≤ r.tokenCount) :
    (commitAppendPartial rid count).exec s = (commitRow rid count).exec s := by
  obtain ⟨q, hq, hok⟩ := h.reserved rid r hr
  have hall : keptPages s r r.tokenCount = q.pages.length := hok.length.symm
  have hcommit : (commitAppend rid).exec s =
      (.ok (r.startPosition + r.tokenCount), settle s r.requestId (finished s r q r.tokenCount) rid) := by
    rw [exec_commitAppend h hr, exec_commitRow h hr hq hok le_rfl, hall, List.drop_length]
    rfl
  have hbad : ¬(count = 0 ∨ count > r.tokenCount) := by omega
  have hlt : ¬r.startPosition + r.tokenCount < r.startPosition + count := by omega
  have hput : (settle s r.requestId (finished s r q r.tokenCount) rid).putSequence r.requestId
      (finished s r q count) = settle s r.requestId (finished s r q count) rid := by
    simp [settle, putSequence, BTreeMap.insert_insert]
  have htake : (finished s r q r.tokenCount).pages = q.pages := by simp [finished, hall]
  rw [exec_commitRow h hr hq hok hc]
  simp only [commitAppendPartial, M.exec_bind, M.exec_get, hr, M.exec_need_some, hbad, ↓reduceIte,
    hcommit, hlt]
  have hseq : (settle s r.requestId (finished s r q r.tokenCount) rid).sequences[r.requestId]? =
      some (finished s r q r.tokenCount) := by simp [settle]
  simp only [hseq, M.exec_expect_some, M.exec_set, htake]
  rw [← hput]
  rfl

-- Groups

theorem commitRow_seqOk (h : SeqOk s) (hr : s.reservations[rid]? = some r)
    (hc : count ≤ r.tokenCount) :
    Triple (commitRow rid count) s
      (fun _ s' => SeqOk s' ∧ ∃ q, s.sequences[r.requestId]? = some q ∧ PendingOk s.config rid r q ∧
        SameTables (settle s r.requestId (finished s r q count) rid) s')
      (fun f _ => f.IsPanic) := by
  refine commitRow_rule h hr hc fun q hq hok => ?_
  refine (releasePages_tables _ _).mono (fun _ s₁ hs₁ => ?_) fun _ _ hf => hf.1
  exact ⟨(h.finish hr hq hok hc).of_sameTables hs₁, q, hq, hok, hs₁⟩

theorem commitRows_rule {J : List (KvReservationId × Nat) → PagedKvCacheManager → Prop}
    {rows : List (KvReservationId × Nat)} (h0 : J rows s)
    (hstep : ∀ rid count rest s', J ((rid, count) :: rest) s' →
      Triple (commitRow rid count) s' (fun _ s'' => J rest s'') E) :
    Triple (commitRows rows) s (fun _ s' => J [] s') E := by
  induction rows generalizing s with
  | nil => exact Triple.pure' h0
  | cons row rows ih =>
    refine Triple.bind (hstep row.1 row.2 rows s h0) fun _ s₁ h₁ => ?_
    exact Triple.bind (ih h₁) fun _ _ h => Triple.pure' h

theorem exec_expectOk {m : KvM α} {message : String}
    (h : Triple m s (fun _ _ => True) (fun f _ => f.IsPanic)) :
    (expectOk message m).exec s = m.exec s := by
  unfold expectOk
  rw [M.exec_tryCatch]
  rcases hm : m.exec s with ⟨f | a, s₁⟩
  · cases f with
    | error msg => exact (h.fault hm).elim
    | panic msg => rfl
  · rfl

theorem validateReservationsFrom_rule {ids : List KvReservationId} {seen : Finset KvReservationId}
    {Q : Unit → PagedKvCacheManager → Prop} (herr : ∀ msg, E (.error msg) s)
    (hok : ids.Nodup → (∀ id ∈ ids, id ∉ seen) → (∀ id ∈ ids, ∃ r, s.reservations[id]? = some r) →
      Q () s) : Triple (validateReservationsFrom seen ids) s Q E := by
  induction ids generalizing seen with
  | nil => exact Triple.pure' (hok .nil (by simp) (by simp))
  | cons id ids ih =>
    refine Triple.ite (fun _ => Triple.fail' (herr _)) fun hnew => ?_
    refine Triple.bind (Q := fun _ s₁ => s₁ = s ∧ ∃ r, s.reservations[id]? = some r)
      (validateReservation_rule herr fun r q hr _ _ _ => ⟨rfl, r, hr⟩) ?_
    rintro _ _ ⟨rfl, hr⟩
    refine ih fun hnd hseen hall => hok (List.nodup_cons.mpr ⟨fun hm => ?_, hnd⟩) ?_ ?_
    · simpa using hseen id hm
    · intro j hj
      rcases List.mem_cons.mp hj with rfl | hj
      · exact hnew
      · exact fun hs => hseen j hj (Finset.mem_insert_of_mem hs)
    · intro j hj
      rcases List.mem_cons.mp hj with rfl | hj
      · exact hr
      · exact hall j hj

/-- Every token of each reservation. -/
def fullRows (s : PagedKvCacheManager) (ids : List KvReservationId) : List (KvReservationId × Nat) :=
  ids.map fun id => (id, s.reservations[id]?.elim 0 ReservationState.tokenCount)

theorem fullRows_ok {ids : List KvReservationId} (hnd : ids.Nodup)
    (hall : ∀ id ∈ ids, ∃ r, s.reservations[id]? = some r) : RowsOk s (fullRows s ids) := by
  refine ⟨by simpa [fullRows, Function.comp_def] using hnd, fun row hrow => ?_⟩
  obtain ⟨id, hid, rfl⟩ := List.mem_map.mp hrow
  obtain ⟨r, hr⟩ := hall id hid
  exact ⟨r, hr, by simp [hr]⟩

theorem exec_commitAll {message : String} {ids : List KvReservationId} (h : SeqOk s)
    (hrows : RowsOk s (fullRows s ids)) :
    (ids.mapM fun id => expectOk message (commitAppend id)).exec s =
      (commitRows (fullRows s ids)).exec s := by
  induction ids generalizing s with
  | nil => rfl
  | cons rid ids ih =>
    obtain ⟨r, hr, -⟩ := hrows.2 (rid, s.reservations[rid]?.elim 0 ReservationState.tokenCount)
      (by simp [fullRows])
    have hcons : fullRows s (rid :: ids) = (rid, r.tokenCount) :: fullRows s ids := by
      simp [fullRows, hr]
    rw [hcons] at hrows ⊢
    have hone := exec_commitAppend h hr
    have hstep := commitRow_seqOk h hr le_rfl
    have hpanic : Triple (commitAppend rid) s (fun _ _ => True) (fun f _ => f.IsPanic) := by
      have : Triple (commitRow rid r.tokenCount) s (fun _ _ => True) (fun f _ => f.IsPanic) :=
        hstep.mono (fun _ _ _ => trivial) fun _ _ hf => hf
      unfold Triple at this ⊢
      rwa [hone]
    simp only [List.mapM_cons, commitRows, M.exec_bind, exec_expectOk hpanic, hone]
    rcases hm : (commitRow rid r.tokenCount).exec s with ⟨f | a, s₁⟩
    · rfl
    · obtain ⟨hseq, q, -, -, hsame⟩ := hstep.ok hm
      -- the other reservations keep their counts
      have hrest : fullRows s ids = fullRows s₁ ids := by
        refine List.map_congr_left fun id hid => ?_
        have hne : id ≠ rid := by
          rintro rfl
          exact (List.nodup_cons.mp hrows.1).1 (by simpa [fullRows] using hid)
        rw [hsame.reservations]
        simp [settle, hne]
      dsimp only
      rw [hrest, ih hseq (hrest ▸ hrows.tail hsame)]

theorem commitAppends_rule {ids : List KvReservationId} {Q : List Nat → PagedKvCacheManager → Prop}
    (h : SeqOk s) (herr : ∀ msg, E (.error msg) s)
    (hok : RowsOk s (fullRows s ids) → Triple (commitRows (fullRows s ids)) s Q E) :
    Triple (commitAppends ids) s Q E := by
  unfold commitAppends
  refine Triple.bind (Q := fun _ s₁ => s₁ = s ∧ RowsOk s (fullRows s ids))
    (validateReservationsFrom_rule herr fun hnd _ hall => ⟨rfl, fullRows_ok hnd hall⟩) ?_
  rintro _ _ ⟨rfl, hrows⟩
  have := hok hrows
  unfold Triple at this ⊢
  rwa [exec_commitAll h hrows]

/-- Nothing of each reservation. -/
def cancelRows (ids : List KvReservationId) : List (KvReservationId × Nat) := ids.map fun id => (id, 0)

theorem cancelRows_ok {ids : List KvReservationId} (hnd : ids.Nodup)
    (hall : ∀ id ∈ ids, ∃ r, s.reservations[id]? = some r) : RowsOk s (cancelRows ids) := by
  refine ⟨by simpa [cancelRows, Function.comp_def] using hnd, fun row hrow => ?_⟩
  obtain ⟨id, hid, rfl⟩ := List.mem_map.mp hrow
  obtain ⟨r, hr⟩ := hall id hid
  exact ⟨r, hr, Nat.zero_le _⟩

theorem exec_cancelAll {message : String} {ids : List KvReservationId} (h : SeqOk s)
    (hrows : RowsOk s (cancelRows ids)) :
    (ids.forM fun id => expectOk message (cancelAppend id)).exec s =
      (do let _ ← commitRows (cancelRows ids); pure ()).exec s := by
  induction ids generalizing s with
  | nil => rfl
  | cons rid ids ih =>
    obtain ⟨r, hr, -⟩ := hrows.2 (rid, 0) (by simp [cancelRows])
    dsimp only at hr
    have hone := exec_cancelAppend h hr
    have hstep := commitRow_seqOk h hr (Nat.zero_le _)
    have hpanic : Triple (cancelAppend rid) s (fun _ _ => True) (fun f _ => f.IsPanic) := by
      have := Triple.bind hstep fun _ _ _ => Triple.pure' (a := ()) (Q := fun _ _ => True) trivial
      unfold Triple at this ⊢
      rwa [hone]
    have hcons : cancelRows (rid :: ids) = (rid, 0) :: cancelRows ids := rfl
    rw [hcons] at hrows ⊢
    have hforM : ((rid :: ids).forM fun id => expectOk message (cancelAppend id)) =
        (do expectOk message (cancelAppend rid)
            ids.forM fun id => expectOk message (cancelAppend id)) := rfl
    simp only [hforM, commitRows, M.exec_bind, exec_expectOk hpanic, hone]
    rcases hm : (commitRow rid 0).exec s with ⟨f | a, s₁⟩
    · rfl
    · obtain ⟨hseq, q, -, -, hsame⟩ := hstep.ok hm
      simp only [M.exec_pure]
      rw [ih hseq (hrows.tail hsame), M.exec_bind]
      rcases (commitRows (cancelRows ids)).exec s₁ with ⟨_ | _, _⟩ <;> rfl

theorem cancelAppends_rule {ids : List KvReservationId} {Q : Unit → PagedKvCacheManager → Prop}
    (h : SeqOk s) (herr : ∀ msg, E (.error msg) s)
    (hok : RowsOk s (cancelRows ids) → Triple (commitRows (cancelRows ids)) s (fun _ => Q ()) E) :
    Triple (cancelAppends ids) s Q E := by
  unfold cancelAppends
  refine Triple.bind (Q := fun _ s₁ => s₁ = s ∧ RowsOk s (cancelRows ids))
    (validateReservationsFrom_rule herr fun hnd _ hall => ⟨rfl, cancelRows_ok hnd hall⟩) ?_
  rintro _ _ ⟨rfl, hrows⟩
  have := Triple.bind (hok hrows) fun _ _ hq => Triple.pure' (a := ()) hq
  unfold Triple at this ⊢
  rwa [exec_cancelAll h hrows]

theorem checkConsumed_rule {rows : List (KvReservationId × Nat)}
    {Q : Unit → PagedKvCacheManager → Prop} (herr : ∀ msg, E (.error msg) s)
    (hall : ∀ row ∈ rows, ∃ r, s.reservations[row.1]? = some r)
    (hok : (∀ row ∈ rows, ∃ r, s.reservations[row.1]? = some r ∧ 0 < row.2 ∧ row.2 ≤ r.tokenCount) →
      Q () s) : Triple (checkConsumed rows) s Q E := by
  induction rows with
  | nil => exact Triple.pure' (hok (by simp))
  | cons row rows ih =>
    obtain ⟨r, hr⟩ := hall row (by simp)
    refine Triple.get_bind (Triple.expect_bind (fun h => by simp [hr] at h) fun r' hr' => ?_)
    obtain rfl : r' = r := by simpa [hr] using hr'.symm
    refine Triple.ite (fun _ => Triple.fail' (herr _)) fun hc => ?_
    refine ih (fun row' hrow' => hall row' (List.mem_cons_of_mem _ hrow')) fun hrest => hok ?_
    intro row' hrow'
    rcases List.mem_cons.mp hrow' with rfl | hrow'
    · exact ⟨r', hr, by omega, by omega⟩
    · exact hrest row' hrow'

theorem commitAppendPrefixes_rule {rows : List (KvReservationId × Nat)}
    {Q : List Nat → PagedKvCacheManager → Prop} (herr : ∀ msg, E (.error msg) s)
    (hok : RowsOk s rows → Triple (commitRows rows) s Q E) :
    Triple (commitAppendPrefixes rows) s Q E := by
  unfold commitAppendPrefixes
  refine Triple.bind (Q := fun _ s₁ => s₁ = s ∧ (rows.map Prod.fst).Nodup ∧
      ∀ id ∈ rows.map Prod.fst, ∃ r, s.reservations[id]? = some r)
    (validateReservationsFrom_rule herr fun hnd _ hall => ⟨rfl, hnd, hall⟩) ?_
  rintro _ s₁ ⟨rfl, hnd, hall⟩
  refine Triple.bind (Q := fun _ s₂ => s₂ = s₁ ∧ RowsOk s₁ rows) (checkConsumed_rule herr
    (fun row hrow => hall row.1 (List.mem_map_of_mem hrow)) fun hrows => ⟨rfl, hnd, ?_⟩) ?_
  · intro row hrow
    obtain ⟨r, hr, -, hle⟩ := hrows row hrow
    exact ⟨r, hr, hle⟩
  · rintro _ _ ⟨rfl, hrows⟩
    exact hok hrows

-- The single-reservation calls are groups of one row.

theorem singleRow_ok (hr : s.reservations[rid]? = some r) (hc : count ≤ r.tokenCount) :
    RowsOk s [(rid, count)] :=
  ⟨by simp, by simpa using ⟨r, hr, hc⟩⟩

theorem commitAppend_rule {Q : Nat → PagedKvCacheManager → Prop} (h : SeqOk s)
    (herr : ∀ msg, E (.error msg) s)
    (hok : ∀ r, s.reservations[rid]? = some r → Triple (commitRow rid r.tokenCount) s Q E) :
    Triple (commitAppend rid) s Q E := by
  cases hr : s.reservations[rid]? with
  | none =>
    unfold commitAppend takeOwned validateReservation
    simp only [bind_assoc]
    exact Triple.get_bind (Triple.need_bind (fun _ => herr _) fun r hr' => by simp [hr] at hr')
  | some r =>
    have := hok r hr
    unfold Triple at this ⊢
    rwa [exec_commitAppend h hr]

theorem cancelAppend_rule {Q : Unit → PagedKvCacheManager → Prop} (h : SeqOk s)
    (herr : ∀ msg, E (.error msg) s)
    (hok : ∀ r, s.reservations[rid]? = some r → Triple (commitRow rid 0) s (fun _ => Q ()) E) :
    Triple (cancelAppend rid) s Q E := by
  cases hr : s.reservations[rid]? with
  | none =>
    unfold cancelAppend takeOwned validateReservation
    simp only [bind_assoc]
    exact Triple.get_bind (Triple.need_bind (fun _ => herr _) fun r hr' => by simp [hr] at hr')
  | some r =>
    have := Triple.bind (hok r hr) fun _ _ hq => Triple.pure' (a := ()) hq
    unfold Triple at this ⊢
    rwa [exec_cancelAppend h hr]

theorem commitAppendPartial_rule {Q : Nat → PagedKvCacheManager → Prop} (h : SeqOk s)
    (herr : ∀ msg, E (.error msg) s)
    (hok : ∀ r, s.reservations[rid]? = some r → 0 < count → count ≤ r.tokenCount →
      Triple (commitRow rid count) s Q E) :
    Triple (commitAppendPartial rid count) s Q E := by
  cases hr : s.reservations[rid]? with
  | none =>
    unfold commitAppendPartial
    exact Triple.get_bind (Triple.need_bind (fun _ => herr _) fun r hr' => by simp [hr] at hr')
  | some r =>
    by_cases hbad : count = 0 ∨ count > r.tokenCount
    · unfold commitAppendPartial
      refine Triple.get_bind (Triple.need_bind (fun _ => herr _) fun r' hr' => ?_)
      obtain rfl : r' = r := by simpa [hr] using hr'.symm
      exact Triple.ite (fun _ => Triple.fail' (herr _)) fun hno => absurd hbad hno
    · have hpos : 0 < count := by omega
      have hc : count ≤ r.tokenCount := by omega
      have := hok r hr hpos hc
      unfold Triple at this ⊢
      rwa [exec_commitAppendPartial h hr hpos hc]

end Ruda.Kv
