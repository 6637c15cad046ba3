import Ruda.Kv.Pages

/-!
# Sequences and reservations

`SeqOk s` is what the block tables and reservations satisfy without any word on
reference counts: a settled sequence has exactly the pages its committed tokens
need, a pending one exactly those its reservation needs, and reservations and
pending marks correspond. The page primitives leave all of this alone
(`SameTables`), so it holds even where the page accounting has gone wrong.
Every way to finish an append is `commitRows` on rows it has validated.
-/

namespace Ruda.Kv

open PagedKvCacheManager

variable {s s' : PagedKvCacheManager} {id : RequestId} {rid : KvReservationId}
  {q : SequenceState} {r : ReservationState}

/-- Reservation `rid` with record `r` is the append in flight on `q`. -/
structure PendingOk (config : PagedKvCacheConfig) (rid : KvReservationId) (r : ReservationState)
    (q : SequenceState) : Prop where
  pending : q.pending = some rid
  start : r.startPosition = q.committedTokens
  previous : r.previousPageCount = divCeil q.committedTokens config.blockSize
  pos : 0 < r.tokenCount
  length : q.pages.length = divCeil (r.startPosition + r.tokenCount) config.blockSize
  fits : r.startPosition + r.tokenCount ≤ config.maxSequenceLength

structure SeqOk (s : PagedKvCacheManager) : Prop where
  blockSize : 0 < s.config.blockSize
  settled : ∀ (id : Nat) q, s.sequences[id]? = some q → q.pending = none →
    q.pages.length = divCeil q.committedTokens s.config.blockSize
  registered : ∀ (id : Nat) q, s.sequences[id]? = some q →
    q.registeredBlocks * s.config.blockSize ≤ q.committedTokens
  owned : ∀ (id : Nat) q rid, s.sequences[id]? = some q → q.pending = some rid →
    ∃ r, s.reservations[rid]? = some r ∧ r.requestId = id
  reserved : ∀ (rid : Nat) r, s.reservations[rid]? = some r →
    ∃ q, s.sequences[r.requestId]? = some q ∧ PendingOk s.config rid r q
  fresh : ∀ (rid : Nat) r, s.reservations[rid]? = some r → rid < s.nextReservation

theorem SeqOk.of_sameTables (h : SeqOk s) (hs : SameTables s s') : SeqOk s' := by
  constructor
  · rw [hs.config]; exact h.blockSize
  · rw [hs.config, hs.sequences]; exact h.settled
  · rw [hs.config, hs.sequences]; exact h.registered
  · rw [hs.sequences, hs.reservations]; exact h.owned
  · rw [hs.config, hs.sequences, hs.reservations]; exact h.reserved
  · rw [hs.reservations, hs.nextReservation]; exact h.fresh

theorem SeqOk.initial {config : PagedKvCacheConfig} (h : 0 < config.blockSize) :
    SeqOk (initial config) := by
  constructor <;> simp [PagedKvCacheManager.initial, h]

theorem SeqOk.covers (h : SeqOk s) (hq : s.sequences[id]? = some q) :
    divCeil q.committedTokens s.config.blockSize ≤ q.pages.length := by
  cases hp : q.pending with
  | none => exact (h.settled id q hq hp).ge
  | some rid =>
    obtain ⟨r, hr, rfl⟩ := h.owned id q rid hq hp
    obtain ⟨q', hq', hok⟩ := h.reserved rid r hr
    obtain rfl : q = q' := by simpa [hq] using hq'
    rw [hok.length]
    exact divCeil_mono h.blockSize (by rw [hok.start]; omega)

-- Table updates

@[simp] theorem putSequence_get (j : Nat) :
    (s.putSequence id q).sequences[j]? = if j = id then some q else s.sequences[j]? :=
  BTreeMap.get_insert ..

/-- Sequence `id` becomes `q` and reservation `rid` in flight on it. -/
def reserve (s : PagedKvCacheManager) (id : RequestId) (q : SequenceState) (rid : KvReservationId)
    (r : ReservationState) : PagedKvCacheManager :=
  { s.putSequence id q with reservations := s.reservations.insert rid r }

/-- Sequence `id` becomes `q` and reservation `rid` is gone. -/
def settle (s : PagedKvCacheManager) (id : RequestId) (q : SequenceState) (rid : KvReservationId) :
    PagedKvCacheManager :=
  { s.putSequence id q with reservations := s.reservations.erase rid }

@[simp] theorem reserve_get (j : Nat) :
    (reserve s id q rid r).sequences[j]? = if j = id then some q else s.sequences[j]? :=
  BTreeMap.get_insert ..

@[simp] theorem settle_get (j : Nat) :
    (settle s id q rid).sequences[j]? = if j = id then some q else s.sequences[j]? :=
  BTreeMap.get_insert ..

theorem SeqOk.reserve {q' : SequenceState} (h : SeqOk s) (hq : s.sequences[id]? = some q)
    (hown : q.pending = none ∧ s.reservations[rid]? = none ∨ q.pending = some rid)
    (hc : q'.committedTokens = q.committedTokens) (hreg : q'.registeredBlocks = q.registeredBlocks)
    (hid : r.requestId = id) (hok : PendingOk s.config rid r q') (hfresh : rid < s.nextReservation) :
    SeqOk (reserve s id q' rid r) := by
  -- another sequence is never the owner of `rid`
  have hother : ∀ (j : Nat) q₂, s.sequences[j]? = some q₂ → j ≠ id → q₂.pending ≠ some rid := by
    intro j q₂ hq₂ hj hp
    obtain ⟨r₂, hr₂, rfl⟩ := h.owned j q₂ rid hq₂ hp
    rcases hown with ⟨-, hnone⟩ | hp'
    · simp [hnone] at hr₂
    · obtain ⟨r₃, hr₃, rfl⟩ := h.owned id q rid hq hp'
      simp_all
  constructor
  · exact h.blockSize
  · intro j q₂ hq₂ hp
    simp only [Kv.reserve, putSequence_get] at hq₂
    split at hq₂
    · cases hq₂
      simp [hok.pending] at hp
    · exact h.settled j q₂ hq₂ hp
  · intro j q₂ hq₂
    simp only [Kv.reserve, putSequence_get] at hq₂
    split at hq₂
    · cases hq₂
      rw [hc, hreg]
      exact h.registered id q hq
    · exact h.registered j q₂ hq₂
  · intro j q₂ rid₂ hq₂ hp
    simp only [Kv.reserve, putSequence_get, BTreeMap.get_insert] at hq₂ ⊢
    split at hq₂
    · next hj =>
      cases hq₂
      obtain rfl : rid = rid₂ := by simpa [hok.pending] using hp
      exact ⟨r, by simp, by rw [hid, hj]⟩
    · next hj =>
      have hne : rid₂ ≠ rid := by
        rintro rfl
        exact hother j q₂ hq₂ hj hp
      simpa [hne] using h.owned j q₂ rid₂ hq₂ hp
  · intro rid₂ r₂ hr₂
    simp only [Kv.reserve, putSequence_get, BTreeMap.get_insert] at hr₂ ⊢
    split at hr₂
    · next hrid =>
      cases hr₂
      exact ⟨q', by simp [hid], hrid ▸ hok⟩
    · next hrid =>
      obtain ⟨q₂, hq₂, hok₂⟩ := h.reserved rid₂ r₂ hr₂
      have hne : r₂.requestId ≠ id := by
        rintro hj
        obtain rfl : q = q₂ := by simpa [hj, hq] using hq₂
        rcases hown with ⟨hnone, -⟩ | hp'
        · simp [hok₂.pending] at hnone
        · simp [hok₂.pending, hrid] at hp'
      exact ⟨q₂, by simpa [hne] using hq₂, hok₂⟩
  · intro rid₂ r₂ hr₂
    simp only [Kv.reserve, BTreeMap.get_insert] at hr₂
    split at hr₂
    · next hrid => exact hrid ▸ hfresh
    · exact h.fresh rid₂ r₂ hr₂

theorem SeqOk.settle {q' : SequenceState} (h : SeqOk s) (hr : s.reservations[rid]? = some r)
    (hp : q'.pending = none) (hq : s.sequences[r.requestId]? = some q)
    (hc : q.committedTokens ≤ q'.committedTokens) (hreg : q'.registeredBlocks = q.registeredBlocks)
    (hlen : q'.pages.length = divCeil q'.committedTokens s.config.blockSize) :
    SeqOk (settle s r.requestId q' rid) := by
  constructor
  · exact h.blockSize
  · intro j q₂ hq₂ hp₂
    simp only [Kv.settle, putSequence_get] at hq₂
    split at hq₂
    · cases hq₂
      exact hlen
    · exact h.settled j q₂ hq₂ hp₂
  · intro j q₂ hq₂
    simp only [Kv.settle, putSequence_get] at hq₂
    split at hq₂
    · cases hq₂
      rw [hreg]
      exact (h.registered _ q hq).trans hc
    · exact h.registered j q₂ hq₂
  · intro j q₂ rid₂ hq₂ hp₂
    simp only [Kv.settle, putSequence_get, BTreeMap.get_erase] at hq₂ ⊢
    split at hq₂
    · cases hq₂
      simp [hp] at hp₂
    · next hj =>
      obtain ⟨r₂, hr₂, rfl⟩ := h.owned j q₂ rid₂ hq₂ hp₂
      have hne : rid₂ ≠ rid := by
        rintro rfl
        simp_all
      exact ⟨r₂, by simpa [hne] using hr₂, rfl⟩
  · intro rid₂ r₂ hr₂
    simp only [Kv.settle, putSequence_get, BTreeMap.get_erase] at hr₂ ⊢
    split at hr₂
    · cases hr₂
    · next hrid =>
      obtain ⟨q₂, hq₂, hok₂⟩ := h.reserved rid₂ r₂ hr₂
      obtain ⟨q₃, hq₃, hok₃⟩ := h.reserved rid r hr
      have hne : r₂.requestId ≠ r.requestId := by
        intro hj
        obtain rfl : q₂ = q₃ := by simpa [hj, hq₃] using hq₂.symm
        have := hok₂.pending.symm.trans hok₃.pending
        simp_all
      exact ⟨q₂, by simpa [hne] using hq₂, hok₂⟩
  · intro rid₂ r₂ hr₂
    simp only [Kv.settle, BTreeMap.get_erase] at hr₂
    split at hr₂
    · cases hr₂
    · exact h.fresh rid₂ r₂ hr₂

/-- A settled sequence is created or replaced by another settled one, or a
sequence changes in fields that reservations do not read. -/
theorem SeqOk.put (h : SeqOk s)
    (hold : ∀ q₀, s.sequences[id]? = some q₀ → q.pending = q₀.pending ∧
      (q₀.pending ≠ none → q.committedTokens = q₀.committedTokens ∧ q.pages = q₀.pages))
    (hnew : s.sequences[id]? = none → q.pending = none)
    (hlen : q.pending = none → q.pages.length = divCeil q.committedTokens s.config.blockSize)
    (hreg : q.registeredBlocks * s.config.blockSize ≤ q.committedTokens) :
    SeqOk (s.putSequence id q) := by
  constructor
  · exact h.blockSize
  · intro j q₂ hq₂ hp₂
    rw [putSequence_get] at hq₂
    split at hq₂
    · cases hq₂
      exact hlen hp₂
    · exact h.settled j q₂ hq₂ hp₂
  · intro j q₂ hq₂
    rw [putSequence_get] at hq₂
    split at hq₂
    · cases hq₂
      exact hreg
    · exact h.registered j q₂ hq₂
  · intro j q₂ rid₂ hq₂ hp₂
    rw [putSequence_get] at hq₂
    split at hq₂
    · next hj =>
      cases hq₂
      cases hq₀ : s.sequences[id]? with
      | none => simp [hnew hq₀] at hp₂
      | some q₀ => exact hj ▸ h.owned id q₀ rid₂ hq₀ ((hold q₀ hq₀).1 ▸ hp₂)
    · exact h.owned j q₂ rid₂ hq₂ hp₂
  · intro rid₂ r₂ hr₂
    obtain ⟨q₂, hq₂, hok₂⟩ := h.reserved rid₂ r₂ hr₂
    rw [putSequence_get]
    split
    · next hj =>
      rw [hj] at hq₂
      obtain ⟨hp, hkeep⟩ := hold q₂ hq₂
      obtain ⟨hc, hpages⟩ := hkeep (by simp [hok₂.pending])
      exact ⟨q, rfl, hp ▸ hok₂.pending, hc ▸ hok₂.start, hc ▸ hok₂.previous, hok₂.pos,
        hpages ▸ hok₂.length, hok₂.fits⟩
    · exact ⟨q₂, hq₂, hok₂⟩
  · exact h.fresh

theorem SeqOk.erase (h : SeqOk s) (hq : s.sequences[id]? = some q) (hp : q.pending = none) :
    SeqOk { s with sequences := s.sequences.erase id } := by
  constructor <;> simp only [BTreeMap.get_erase]
  · exact h.blockSize
  · intro j q₂ hq₂
    split at hq₂
    · cases hq₂
    · exact h.settled j q₂ hq₂
  · intro j q₂ hq₂
    split at hq₂
    · cases hq₂
    · exact h.registered j q₂ hq₂
  · intro j q₂ rid₂ hq₂
    split at hq₂
    · cases hq₂
    · exact h.owned j q₂ rid₂ hq₂
  · intro rid₂ r₂ hr₂
    obtain ⟨q₂, hq₂, hok₂⟩ := h.reserved rid₂ r₂ hr₂
    have hne : r₂.requestId ≠ id := by
      intro hj
      obtain rfl : q = q₂ := by simpa [hj, hq] using hq₂
      simpa [hp] using hok₂.pending
    exact ⟨q₂, by simpa [hne] using hq₂, hok₂⟩
  · exact h.fresh

-- The page primitives leave the tables alone

theorem allocatePage_tables (s : PagedKvCacheManager) :
    Triple allocatePage s (fun _ s' => SameTables s s') (fun f _ => f.IsPanic) := by
  unfold allocatePage
  refine Triple.get_bind ?_
  cases popFirst s.freePages with
  | some e =>
    refine Triple.pure_bind (Triple.ite (fun _ => Triple.panic' trivial) fun _ => ?_)
    exact Triple.set_bind (Triple.pure' ⟨rfl, rfl, rfl, rfl, rfl, rfl⟩)
  | none =>
    cases s.evictable.popFirst with
    | none => exact Triple.panic' trivial
    | some e =>
      refine Triple.pure_bind (Triple.ite (fun _ => Triple.panic' trivial) fun _ => ?_)
      have hsame := dropCachedBlock_sameTables { s with evictable := e.2 } e.1.2
      exact Triple.set_bind (Triple.pure' ⟨hsame.1, hsame.2, hsame.3, hsame.4, hsame.5, hsame.6⟩)

theorem allocatePages_tables (n : Nat) (s : PagedKvCacheManager) :
    Triple (allocatePages n) s (fun ps s' => ps.length = n ∧ SameTables s s')
      (fun f _ => f.IsPanic) := by
  induction n generalizing s with
  | zero => exact Triple.pure' ⟨rfl, .refl s⟩
  | succ n ih =>
    unfold allocatePages
    refine Triple.bind (allocatePage_tables s) ?_
    rintro p s₁ h₁
    refine Triple.bind (ih s₁) ?_
    rintro ps s₂ ⟨hlen, h₂⟩
    exact Triple.pure' ⟨by simp [hlen], h₁.trans h₂⟩

theorem acquireCached_tables (p : KvPageId) (s : PagedKvCacheManager) :
    Triple (acquireCached p) s (fun _ s' => SameTables s s' ∧ s'.blockIndex = s.blockIndex)
      (fun f _ => f.IsPanic) := by
  unfold acquireCached
  refine Triple.get_bind (Triple.ite (fun _ => Triple.expect_bind (fun _ => trivial) fun b _ => ?_)
    fun _ => Triple.pure_bind (Triple.set' ⟨⟨rfl, rfl, rfl, rfl, rfl, rfl⟩, rfl⟩))
  cases b.lruTick <;> exact Triple.pure_bind (Triple.set' ⟨⟨rfl, rfl, rfl, rfl, rfl, rfl⟩, rfl⟩)

theorem releasePage_tables (p : KvPageId) (s : PagedKvCacheManager) :
    Triple (releasePage p) s (fun _ s' => SameTables s s')
      (fun f s' => f.IsPanic ∧ SameTables s s') := by
  unfold releasePage
  refine Triple.get_bind (Triple.ite (fun _ => Triple.panic' ⟨trivial, .refl s⟩) fun _ => ?_)
  refine Triple.ite (fun _ => Triple.set' ⟨rfl, rfl, rfl, rfl, rfl, rfl⟩) fun _ => ?_
  refine Triple.ite (fun _ => Triple.set' ⟨rfl, rfl, rfl, rfl, rfl, rfl⟩) fun _ => ?_
  have hsame := dropCachedBlock_sameTables
    { s with pageRefs := Function.update s.pageRefs p (s.pageRefs p - 1) } p
  refine Triple.ite (fun _ => Triple.panic' ⟨trivial, .refl s⟩) fun _ => ?_
  exact Triple.set' ⟨hsame.1, hsame.2, hsame.3, hsame.4, hsame.5, hsame.6⟩

theorem releasePages_tables (ps : List KvPageId) (s : PagedKvCacheManager) :
    Triple (releasePages ps) s (fun _ s' => SameTables s s')
      (fun f s' => f.IsPanic ∧ SameTables s s') :=
  Triple.forM (I := fun _ s' => SameTables s s') (.refl s) fun p _ s' h =>
    (releasePage_tables p s').mono (fun _ _ h' => h.trans h') fun _ _ h' => ⟨h'.1, h.trans h'.2⟩

/-- The walk of `matchPrefix` through an index, without taking references: the
pages met and the chain hash reached. -/
def cachedPrefix (chain : ChainHash) (index : BlockKey → Option KvPageId) (blockSize : Nat)
    (tokens : List Token) : (n block parent : Nat) → List KvPageId × Nat
  | 0, _, parent => ([], parent)
  | n + 1, block, parent =>
    match index (parent, blockOf tokens blockSize block) with
    | none => ([], parent)
    | some page =>
      let rest := cachedPrefix chain index blockSize tokens n (block + 1)
        (chain parent (blockOf tokens blockSize block))
      (page :: rest.1, rest.2)

theorem cachedPrefix_length_le {index : BlockKey → Option KvPageId} (n block parent : Nat) :
    (cachedPrefix chain index blockSize tokens n block parent).1.length ≤ n := by
  induction n generalizing block parent with
  | zero => exact le_rfl
  | succ n ih =>
    unfold cachedPrefix
    split
    · exact Nat.zero_le _
    · exact Nat.succ_le_succ (ih ..)

theorem cachedPrefix_mem {index : BlockKey → Option KvPageId} (n block parent : Nat)
    (h : p ∈ (cachedPrefix chain index blockSize tokens n block parent).1) :
    ∃ k, index k = some p := by
  induction n generalizing block parent with
  | zero => simp [cachedPrefix] at h
  | succ n ih =>
    unfold cachedPrefix at h
    split at h
    · simp at h
    · next page hpage =>
      rcases List.mem_cons.mp h with rfl | h
      · exact ⟨_, hpage⟩
      · exact ih _ _ h

theorem matchPrefix_tables (chain : ChainHash) (tokens : List Token) (n block parent : Nat)
    (s : PagedKvCacheManager) :
    Triple (matchPrefix chain tokens n block parent) s
      (fun m s' => m = cachedPrefix chain s.blockIndex s.config.blockSize tokens n block parent ∧
        SameTables s s' ∧ s'.blockIndex = s.blockIndex) (fun f _ => f.IsPanic) := by
  induction n generalizing block parent s with
  | zero => exact Triple.pure' ⟨rfl, .refl s, rfl⟩
  | succ n ih =>
    unfold matchPrefix cachedPrefix
    refine Triple.get_bind ?_
    dsimp only
    cases s.blockIndex (parent, blockOf tokens s.config.blockSize block) with
    | none => exact Triple.pure' ⟨rfl, .refl s, rfl⟩
    | some page =>
      refine Triple.bind (acquireCached_tables _ s) ?_
      rintro _ s₁ ⟨h₁, hi₁⟩
      refine Triple.bind (ih _ _ s₁) ?_
      rintro _ s₂ ⟨rfl, h₂, hi₂⟩
      rw [hi₁, h₁.config]
      exact Triple.pure' ⟨rfl, h₁.trans h₂, hi₂.trans hi₁⟩

theorem publishBlocks_tables (chain : ChainHash) (tokens : List Token) (pages : List KvPageId)
    (n block parent : Nat) (s : PagedKvCacheManager) :
    Triple (publishBlocks chain tokens pages n block parent) s (fun _ s' => SameTables s s')
      (fun f _ => f.IsPanic ∧ pages.length < block + n) := by
  induction n generalizing block parent s with
  | zero => exact Triple.pure' (.refl s)
  | succ n ih =>
    unfold publishBlocks
    refine Triple.get_bind (Triple.expect_bind (fun h => ?_) fun p _ => ?_)
    · have := List.getElem?_eq_none_iff.mp h
      exact ⟨trivial, by omega⟩
    have hrest : ∀ s₁, SameTables s s₁ → Triple (publishBlocks chain tokens pages n (block + 1)
        (chain parent (blockOf tokens s.config.blockSize block))) s₁ (fun _ s' => SameTables s s')
        (fun f _ => f.IsPanic ∧ pages.length < block + (n + 1)) := fun s₁ h₁ =>
      (ih (block + 1) _ s₁).mono (fun _ _ h₂ => h₁.trans h₂) fun _ _ h => ⟨h.1, by omega⟩
    refine Triple.ite (fun _ => Triple.set_bind (hrest _ ?_)) fun _ => hrest s (.refl s)
    exact ⟨rfl, rfl, rfl, rfl, rfl, rfl⟩

end Ruda.Kv
