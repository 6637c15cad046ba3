import Ruda.Kv.Rules

/-!
# The page accounting invariant

`Inv` joins the tables (`SeqOk`), the page structures (`PagesOk`, with the block
tables as the source of references) and the tail condition: pages past the
committed blocks of a sequence are exclusively its own and unpublished. Every
public operation keeps it and none of them panics, as long as no reference count
passes the `u32` limit.
-/

namespace Ruda.Kv

open PagedKvCacheManager

variable {s s' : PagedKvCacheManager} {id : RequestId} {rid : KvReservationId}
  {q q' : SequenceState} {r : ReservationState} {p : KvPageId}

/-- How often `p` occurs in live block tables. -/
def occurrences (s : PagedKvCacheManager) (p : KvPageId) : Nat :=
  BTreeMap.weight (fun q : SequenceState => q.pages.count p) s.sequences

/-- Pages from the first block that is not fully committed on have one
reference and no cached block. -/
def TailOk (s : PagedKvCacheManager) : Prop :=
  ∀ (id : Nat) q i p, s.sequences[id]? = some q → q.committedTokens / s.config.blockSize ≤ i →
    q.pages[i]? = some p → occurrences s p = 1 ∧ s.pageBlocks p = none

structure Inv (s : PagedKvCacheManager) : Prop where
  seq : SeqOk s
  pages : PagesOk (occurrences s) s
  tail : TailOk s

-- Counting occurrences

theorem occurrences_pos (hq : s.sequences[id]? = some q) (hp : p ∈ q.pages) : 0 < occurrences s p :=
  (List.count_pos_iff.mpr hp).trans_le
    (BTreeMap.le_weight (fun q : SequenceState => q.pages.count p) hq)

theorem occurrences_congr (h : s'.sequences = s.sequences) : occurrences s' = occurrences s := by
  funext p
  rw [occurrences, h]
  rfl

theorem occurrences_put (q' : SequenceState) (p : KvPageId) (hq : s.sequences[id]? = some q) :
    occurrences (s.putSequence id q') p + q.pages.count p = occurrences s p + q'.pages.count p :=
  BTreeMap.weight_insert_old _ hq

theorem occurrences_create (hq : s.sequences[id]? = none) :
    occurrences (s.putSequence id q) p = q.pages.count p + occurrences s p :=
  BTreeMap.weight_insert_new _ hq

theorem occurrences_remove (hq : s.sequences[id]? = some q) :
    occurrences s p = q.pages.count p + occurrences { s with sequences := s.sequences.erase id } p :=
  BTreeMap.weight_erase _ hq

theorem occurrences_two {j : RequestId} {i k : Nat} (hq : s.sequences[id]? = some q)
    (hq' : s.sequences[j]? = some q') (hi : q.pages[i]? = some p) (hk : q'.pages[k]? = some p)
    (hne : (id, i) ≠ (j, k)) : 2 ≤ occurrences s p := by
  by_cases hid : j = id
  · subst hid
    obtain rfl : q = q' := by simpa [hq] using hq'
    have hik : i ≠ k := fun h => hne (by rw [h])
    refine le_trans ?_ (BTreeMap.le_weight (fun q : SequenceState => q.pages.count p) hq)
    rw [← List.duplicate_iff_two_le_count, List.duplicate_iff_exists_distinct_get]
    obtain ⟨hil, hip⟩ := List.getElem?_eq_some_iff.mp hi
    obtain ⟨hkl, hkp⟩ := List.getElem?_eq_some_iff.mp hk
    rcases Nat.lt_or_gt_of_ne hik with hlt | hlt
    · exact ⟨⟨i, hil⟩, ⟨k, hkl⟩, hlt, by simp [hip], by simp [hkp]⟩
    · exact ⟨⟨k, hkl⟩, ⟨i, hil⟩, hlt, by simp [hkp], by simp [hip]⟩
  · refine le_trans ?_ (BTreeMap.add_le_weight (fun q : SequenceState => q.pages.count p) hq hq' hid)
    have := List.count_pos_iff.mpr (List.mem_of_getElem? hi)
    have := List.count_pos_iff.mpr (List.mem_of_getElem? hk)
    omega

theorem TailOk.shrink (h : TailOk s) (hc : s'.config = s.config)
    (hocc : ∀ p, occurrences s' p ≤ occurrences s p) (hb : BlocksShrink s s')
    (htab : ∀ (id : Nat) q' i p, s'.sequences[id]? = some q' →
      q'.committedTokens / s.config.blockSize ≤ i → q'.pages[i]? = some p →
      ∃ q, s.sequences[id]? = some q ∧ q.committedTokens / s.config.blockSize ≤ i ∧
        q.pages[i]? = some p) : TailOk s' := by
  intro id q' i p hq' hi hp
  rw [hc] at hi
  obtain ⟨q, hq, hiq, hpq⟩ := htab id q' i p hq' hi hp
  obtain ⟨h1, hnone⟩ := h id q i p hq hiq hpq
  have hpos := occurrences_pos hq' (List.mem_of_getElem? hp)
  exact ⟨by have := hocc p; omega, hb.none hnone⟩

theorem Inv.initial {config : PagedKvCacheConfig} (h : 0 < config.blockSize) :
    Inv (initial config) := by
  have h0 : ∀ p, occurrences (PagedKvCacheManager.initial config) p = 0 := fun p =>
    BTreeMap.weight_empty _
  refine ⟨SeqOk.initial h, ?_, ?_⟩
  · constructor <;> simp [PagedKvCacheManager.initial]
    · exact fun p => (h0 p).symm
    · exact fun p hp => absurd hp (h0 p).not_gt
    · exact fun p hp => ⟨hp, h0 p⟩
    · exact fun p hp _ => hp
  · intro id q i p hq
    simp [PagedKvCacheManager.initial] at hq

theorem Inv.create (h : Inv s) (hnone : s.sequences[id]? = none) :
    Inv (s.putSequence id emptySequence) := by
  have hocc : ∀ p, occurrences (s.putSequence id emptySequence) p = occurrences s p := fun p => by
    simp [occurrences_create hnone, emptySequence]
  refine ⟨h.seq.create hnone, ?_, ?_⟩
  · exact (h.pages.congr fun p => (hocc p).symm).of_eq rfl rfl rfl rfl rfl rfl rfl
  · refine h.tail.shrink rfl (fun p => (hocc p).le) (.refl s) ?_
    intro j q' i p hq' hi hp
    rw [putSequence_get] at hq'
    split at hq'
    · cases hq'
      simp [emptySequence] at hp
    · exact ⟨q', hq', hi, hp⟩

-- Growing

theorem Inv.grow {ps : List KvPageId} (h : Inv s) (hq : s.sequences[id]? = some q)
    (hs : s'.config = s.config ∧ s'.sequences = s.sequences)
    (hpages : PagesOk (fun p => occurrences s p + ps.count p) s') (hnd : ps.Nodup)
    (hnew : ∀ p ∈ ps, occurrences s p = 0) (hnone : ∀ p ∈ ps, s'.pageBlocks p = none)
    (hb : BlocksShrink s s') (hseq : SeqOk (reserve s' id (grown q ps rid) rid r)) :
    Inv (reserve s' id (grown q ps rid) rid r) := by
  have hq' : s'.sequences[id]? = some q := by rw [hs.2, hq]
  have hocc : ∀ p, occurrences (reserve s' id (grown q ps rid) rid r) p =
      occurrences s p + ps.count p := by
    intro p
    have := occurrences_put (grown q ps rid) p hq'
    rw [occurrences_congr hs.2] at this
    simp only [grown, List.count_append] at this
    show occurrences (s'.putSequence id (grown q ps rid)) p = _
    unfold grown
    omega
  refine ⟨hseq, ?_, ?_⟩
  · exact (hpages.congr fun p => (hocc p).symm).of_eq rfl rfl rfl rfl rfl rfl rfl
  · intro j q₂ i p hq₂ hi hp
    rw [hocc]
    -- an old tail page is not among the new ones
    have hold : ∀ q₀, s.sequences[j]? = some q₀ → q₀.committedTokens / s.config.blockSize ≤ i →
        q₀.pages[i]? = some p → occurrences s p + ps.count p = 1 ∧ s'.pageBlocks p = none := by
      intro q₀ hq₀ hi₀ hp₀
      obtain ⟨h1, hn⟩ := h.tail j q₀ i p hq₀ hi₀ hp₀
      have hnot : p ∉ ps := fun hmem => by have := hnew p hmem; omega
      exact ⟨by rw [List.count_eq_zero.mpr hnot, h1], hb.none hn⟩
    have hi' : q₂.committedTokens / s.config.blockSize ≤ i := by rw [← hs.1]; exact hi
    rw [reserve_get] at hq₂
    split at hq₂
    · next hj =>
      cases hq₂
      rw [hj] at hold
      simp only [grown] at hp hi'
      by_cases hlt : i < q.pages.length
      · rw [List.getElem?_append_left hlt] at hp
        exact hold q hq hi' hp
      · rw [List.getElem?_append_right (Nat.not_lt.mp hlt)] at hp
        have hmem := List.mem_of_getElem? hp
        exact ⟨by rw [hnew p hmem, List.count_eq_one_of_mem hnd hmem], hnone p hmem⟩
    · exact hold q₂ (hs.2 ▸ hq₂) hi' hp

/-- Sequence `id` grew from `q` to `q'` by pages that no table held. -/
structure Grew (s : PagedKvCacheManager) (id : RequestId) (q q' : SequenceState)
    (s' : PagedKvCacheManager) : Prop where
  config : s'.config = s.config
  found : s.sequences[id]? = some q
  sequences : s'.sequences = s.sequences.insert id q'
  blocks : BlocksShrink s s'
  committed : q'.committedTokens = q.committedTokens
  registered : q'.registeredBlocks = q.registeredBlocks
  chainHash : q'.chainHash = q.chainHash
  pages : ∃ ps, q'.pages = q.pages ++ ps ∧ ∀ p ∈ ps, occurrences s p = 0

theorem grew_reserve {ps : List KvPageId} (hq : s.sequences[id]? = some q)
    (hs : s'.config = s.config ∧ s'.sequences = s.sequences) (hb : BlocksShrink s s')
    (hnew : ∀ p ∈ ps, occurrences s p = 0) :
    Grew s id q (grown q ps rid) (reserve s' id (grown q ps rid) rid r) :=
  ⟨hs.1, hq, congrArg (·.insert id (grown q ps rid)) hs.2, hb, rfl, rfl, rfl, ps, rfl, hnew⟩

theorem beginAppend_ok (n : Nat) (h : Inv s) :
    Triple (beginAppend id n) s (fun _ s' => Inv s' ∧ ∃ q q', Grew s id q q' s')
      (fun f s' => ¬f.IsPanic ∧ s' = s) := by
  refine beginAppend_rule (fun _ _ => ⟨not_false, rfl⟩) fun q hq => ?_
  have hp₀ : PagesOk (occurrences s) { s with nextReservation := s.nextReservation + 1 } :=
    h.pages.of_eq rfl rfl rfl rfl rfl rfl rfl
  refine ((allocatePages_tables ..).and (allocatePages_ok _ hp₀ hq.pages)).mono ?_ (fun _ _ h => h.2.elim)
  rintro ps s₁ ⟨⟨hlen, -⟩, hpages, hnd, hnew, hnone, hsame, hb⟩
  refine ⟨h.grow hq.found ⟨hsame.config, hsame.sequences⟩ hpages hnd hnew hnone hb ?_,
    q, _, grew_reserve hq.found ⟨hsame.config, hsame.sequences⟩ hb hnew⟩
  exact h.seq.begin hq hlen hsame

theorem extendAppend_ok (n : Nat) (h : Inv s) :
    Triple (extendAppend rid n) s
      (fun _ s' => Inv s' ∧ ∃ r q q', s.reservations[rid]? = some r ∧ Grew s r.requestId q q' s')
      (fun f s' => ¬f.IsPanic ∧ s' = s) := by
  refine extendAppend_rule (fun _ => ⟨not_false, rfl⟩) fun r q hr hq hp hfit hav => ?_
  refine ((allocatePages_tables ..).and (allocatePages_ok _ h.pages hav)).mono ?_ (fun _ _ h => h.2.elim)
  rintro ps s₁ ⟨⟨hlen, -⟩, hpages, hnd, hnew, hnone, hsame, hb⟩
  refine ⟨h.grow hq ⟨hsame.config, hsame.sequences⟩ hpages hnd hnew hnone hb ?_,
    r, q, _, hr, grew_reserve hq ⟨hsame.config, hsame.sequences⟩ hb hnew⟩
  exact h.seq.extend hr hq hp hfit hlen hsame

-- Finishing

theorem count_take_add_drop (l : List KvPageId) (k : Nat) (p : KvPageId) :
    (l.take k).count p + (l.drop k).count p = l.count p := by
  rw [← List.count_append, List.take_append_drop]

theorem commitRow_ok {count : Nat} (h : Inv s) (hr : s.reservations[rid]? = some r)
    (hc : count ≤ r.tokenCount) :
    Triple (commitRow rid count) s
      (fun _ s' => Inv s' ∧ ∃ q, s.sequences[r.requestId]? = some q ∧ PendingOk s.config rid r q ∧
        SameTables (settle s r.requestId (finished s r q count) rid) s' ∧ BlocksShrink s s')
      (fun _ _ => False) := by
  refine commitRow_rule h.seq hr hc fun q hq hok => ?_
  let s₀ := settle s r.requestId (finished s r q count) rid
  have hocc : ∀ p, occurrences s₀ p + (q.pages.drop (keptPages s r count)).count p = occurrences s p := by
    intro p
    have hput := occurrences_put (finished s r q count) p hq
    have hsplit := count_take_add_drop q.pages (keptPages s r count) p
    have hpages : (finished s r q count).pages = q.pages.take (keptPages s r count) := rfl
    rw [hpages] at hput
    show occurrences (s.putSequence r.requestId (finished s r q count)) p + _ = _
    omega
  have hp₀ : PagesOk (fun p => occurrences s₀ p + (q.pages.drop (keptPages s r count)).count p) s₀ :=
    (h.pages.congr fun p => (hocc p).symm).of_eq rfl rfl rfl rfl rfl rfl rfl
  refine (releasePages_ok _ hp₀).mono ?_ (fun _ _ h => h)
  rintro _ s₁ ⟨hpages, hsame, hb⟩
  have hocc₁ := occurrences_congr hsame.sequences
  refine ⟨⟨(h.seq.finish hr hq hok hc).of_sameTables hsame, hocc₁ ▸ hpages, ?_⟩,
    q, hq, hok, hsame, hb⟩
  refine h.tail.shrink hsame.config (fun p => ?_) hb ?_
  · rw [hocc₁, ← hocc p]
    exact Nat.le_add_right _ _
  · intro j q' i p hq' hi hp
    have hget : (settle s r.requestId (finished s r q count) rid).sequences[j]? = some q' := by
      rw [← hsame.sequences, hq']
    rw [settle_get] at hget
    split at hget
    · next hj =>
      cases hget
      have hstart : q.committedTokens ≤ r.startPosition + count := by rw [hok.start]; omega
      refine ⟨q, hj ▸ hq, (Nat.div_le_div_right hstart).trans hi, ?_⟩
      simp only [finished, List.getElem?_take] at hp
      split at hp
      · exact hp
      · cases hp
    · exact ⟨q', hget, hi, hp⟩

theorem commitRows_ok {rows : List (KvReservationId × Nat)} (h : Inv s) (hrows : RowsOk s rows) :
    Triple (commitRows rows) s (fun _ s' => Inv s' ∧ s'.config = s.config) (fun _ _ => False) := by
  refine (commitRows_rule (J := fun rows s' => (Inv s' ∧ s'.config = s.config) ∧ RowsOk s' rows)
    ⟨⟨h, rfl⟩, hrows⟩ ?_).mono (fun _ _ h => h.1) (fun _ _ h => h)
  rintro rid count rest s₁ ⟨⟨h₁, hc₁⟩, hrows₁⟩
  obtain ⟨r, hr, hc⟩ := hrows₁.2 (rid, count) (by simp)
  refine (commitRow_ok h₁ hr hc).mono ?_ (fun _ _ h => h)
  rintro _ s₂ ⟨h₂, q, -, -, hsame, -⟩
  exact ⟨⟨h₂, hsame.config.trans hc₁⟩, hrows₁.tail hsame⟩

theorem removeSequence_ok (h : Inv s) :
    Triple (removeSequence id) s
      (fun _ s' => Inv s' ∧ SameTables { s with sequences := s.sequences.erase id } s' ∧
        BlocksShrink s s')
      (fun f s' => ¬f.IsPanic ∧ s' = s) := by
  refine removeSequence_rule (fun _ _ => ⟨not_false, rfl⟩) fun q hq hp => ?_
  let s₀ : PagedKvCacheManager := { s with sequences := s.sequences.erase id }
  have hocc : ∀ p, occurrences s p = occurrences s₀ p + q.pages.reverse.count p := by
    intro p
    rw [occurrences_remove hq, List.count_reverse, Nat.add_comm]
  have hp₀ : PagesOk (fun p => occurrences s₀ p + q.pages.reverse.count p) s₀ :=
    (h.pages.congr hocc).of_eq rfl rfl rfl rfl rfl rfl rfl
  refine (releasePages_ok _ hp₀).mono ?_ (fun _ _ h => h.elim)
  rintro _ s₁ ⟨hpages, hsame, hb⟩
  have hocc₁ := occurrences_congr hsame.sequences
  refine ⟨⟨(h.seq.erase hq hp).of_sameTables hsame, hocc₁ ▸ hpages, ?_⟩, hsame, hb⟩
  refine h.tail.shrink hsame.config (fun p => ?_) hb ?_
  · rw [hocc₁, hocc p]
    exact Nat.le_add_right _ _
  · intro j q' i p hq' hi hpage
    have hget : (s.sequences.erase id)[j]? = some q' := by rw [← hq', hsame.sequences]
    rw [BTreeMap.get_erase] at hget
    split at hget
    · cases hget
    · exact ⟨q', hget, hi, hpage⟩

-- Creating

theorem createSequence_ok (h : Inv s) :
    Triple (createSequence id) s (fun _ s' => Inv s' ∧ s' = s.putSequence id emptySequence)
      (fun f s' => ¬f.IsPanic ∧ s' = s) := by
  refine createSequence_rule (fun _ _ => ⟨not_false, rfl⟩) fun hnone => ⟨h.create hnone, rfl⟩

/-- The pages that `create_sequence_with_prefix` would map for `tokens`. -/
def cachedPages (chain : ChainHash) (s : PagedKvCacheManager) (tokens : List Token) :
    List KvPageId × Nat :=
  cachedPrefix chain s.blockIndex s.config.blockSize tokens (usableBlocks s tokens) 0 chainRoot

theorem matchPrefix_ok {occ : KvPageId → Nat} {chain : ChainHash} {tokens : List Token}
    (n block parent : Nat) (h : PagesOk occ s)
    (hroom : ∀ p, occ p + (cachedPrefix chain s.blockIndex s.config.blockSize tokens n block
      parent).1.count p ≤ u32Max) :
    Triple (matchPrefix chain tokens n block parent) s
      (fun m s' => PagesOk (fun p => occ p + m.1.count p) s' ∧ BlocksShrink s s')
      (fun _ _ => False) := by
  induction n generalizing block parent s occ with
  | zero => exact Triple.pure' ⟨by simpa using h, .refl s⟩
  | succ n ih =>
    unfold matchPrefix
    refine Triple.get_bind ?_
    dsimp only
    split
    · exact Triple.pure' ⟨by simpa using h, .refl s⟩
    · next page hpage =>
      simp only [cachedPrefix, hpage] at hroom
      have hlt : occ page < u32Max := by
        have := hroom page
        rw [List.count_cons_self] at this
        omega
      refine Triple.bind (acquireCached_ok h hpage hlt) ?_
      rintro _ s₁ ⟨h₁, hsame, hb, hindex⟩
      refine Triple.bind (ih _ _ h₁ fun p => ?_) ?_
      · rw [hindex, hsame.config]
        have := hroom p
        rw [List.count_cons] at this
        simp only [List.count_cons, List.count_nil]
        omega
      rintro m s₂ ⟨h₂, hb₂⟩
      refine Triple.pure' ⟨h₂.congr fun p => ?_, hb.trans hb₂⟩
      simp only [List.count_cons, List.count_nil]
      omega

theorem createSequenceWithPrefix_ok {chain : ChainHash} {tokens : List Token} (h : Inv s)
    (hroom : s.sequences[id]? = none →
      ∀ p, s.pageRefs p + (cachedPages chain s tokens).1.count p ≤ u32Max) :
    Triple (createSequenceWithPrefix chain id tokens) s
      (fun n s' => Inv s' ∧ n = (cachedPages chain s tokens).1.length * s.config.blockSize ∧
        s'.config = s.config ∧ s'.sequences = s.sequences.insert id (adopted s.config.blockSize
          (cachedPages chain s tokens).1 (cachedPages chain s tokens).2) ∧ BlocksShrink s s')
      (fun f s' => ¬f.IsPanic ∧ s' = s) := by
  refine createSequenceWithPrefix_rule (fun _ _ => ⟨not_false, rfl⟩) fun hnone => ?_
  have h₀ := h.create hnone
  have hocc₀ : ∀ p, occurrences (s.putSequence id emptySequence) p = occurrences s p := fun p => by
    simp [occurrences_create hnone, emptySequence]
  refine ((matchPrefix_tables ..).and (matchPrefix_ok _ 0 chainRoot h₀.pages fun p => ?_)).mono ?_
    (fun _ _ h => h.2.elim)
  · rw [hocc₀, ← h.pages.refs]
    exact hroom hnone p
  rintro m s₁ ⟨⟨hm, hsame, -⟩, hpages, hb⟩
  have hm' : cachedPages chain s tokens = m := hm.symm
  have hcfg : s₁.config = s.config := hsame.config
  have hget : s₁.sequences[id]? = some emptySequence := by rw [hsame.sequences]; simp
  have hocc : ∀ p, occurrences (adopt s₁ id m.1 m.2) p = occurrences s p + m.1.count p := by
    intro p
    have hput := occurrences_put (adopted s₁.config.blockSize m.1 m.2) p hget
    have hpages : (adopted s₁.config.blockSize m.1 m.2).pages = m.1 := rfl
    rw [occurrences_congr hsame.sequences, hocc₀, hpages] at hput
    exact hput
  refine ⟨⟨?_, ?_, ?_⟩, by rw [hm'], hcfg, ?_, hb⟩
  · exact (h₀.seq.of_sameTables hsame).adopt hget
  · refine (hpages.congr fun p => ?_).of_eq rfl rfl rfl rfl rfl rfl rfl
    rw [hocc, hocc₀]
  · -- the new sequence has no tail, and an indexed page is no tail page
    intro j q₂ i p hq₂ hi hp
    have hget₂ : (s₁.putSequence id (adopted s₁.config.blockSize m.1 m.2)).sequences[j]? = some q₂ := hq₂
    rw [putSequence_get] at hget₂
    split at hget₂
    · cases hget₂
      have hi : m.1.length * s₁.config.blockSize / s₁.config.blockSize ≤ i := hi
      rw [Nat.mul_div_cancel _ (hcfg ▸ h.seq.blockSize)] at hi
      have := (List.getElem?_eq_some_iff.mp hp).1
      simp only [adopted] at this
      omega
    · next hj =>
      have hq₀ : (s.putSequence id emptySequence).sequences[j]? = some q₂ := by
        rw [← hget₂, hsame.sequences]
      have hi : q₂.committedTokens / s₁.config.blockSize ≤ i := hi
      rw [hcfg] at hi
      obtain ⟨h1, hn⟩ := h₀.tail j q₂ i p hq₀ hi hp
      have hnot : p ∉ m.1 := by
        intro hmem
        rw [hm] at hmem
        obtain ⟨k, hk⟩ := cachedPrefix_mem _ _ _ hmem
        obtain ⟨b, hb', -⟩ := (h₀.pages.index k p).mp hk
        simp [hn] at hb'
      rw [hocc₀] at h1
      rw [hocc, List.count_eq_zero.mpr hnot, h1]
      exact ⟨rfl, hb.none hn⟩
  · show s₁.sequences.insert id (adopted s₁.config.blockSize m.1 m.2) = _
    rw [hm', hcfg, hsame.sequences]
    exact BTreeMap.insert_insert

-- Publishing

theorem publishBlocks_ok {occ : KvPageId → Nat} {chain : ChainHash} {tokens : List Token}
    {pages : List KvPageId} (n block parent : Nat) (h : PagesOk occ s)
    (hocc : ∀ p ∈ pages, 0 < occ p) (hlen : block + n ≤ pages.length) :
    Triple (publishBlocks chain tokens pages n block parent) s
      (fun _ s' => PagesOk occ s' ∧ ∀ p, s.pageBlocks p = none →
        (∀ i, block ≤ i → i < block + n → pages[i]? ≠ some p) → s'.pageBlocks p = none)
      (fun _ _ => False) := by
  induction n generalizing block parent s with
  | zero => exact Triple.pure' ⟨h, fun p hp _ => hp⟩
  | succ n ih =>
    unfold publishBlocks
    have hlt : block < pages.length := by omega
    refine Triple.get_bind (Triple.expect_bind (fun hno => ?_) fun page hpage => ?_)
    · simp [hlt] at hno
    refine Triple.ite (fun hfree => Triple.set_bind ?_) fun _ => ?_
    · have h₁ := h.publish (hocc page (List.mem_of_getElem? hpage)) hfree.1 hfree.2
      refine (ih (block + 1) _ h₁ (by omega)).mono ?_ (fun _ _ h => h)
      rintro _ s₂ ⟨h₂, hkeep⟩
      refine ⟨h₂, fun p hp hno => hkeep p ?_ fun i hi hi' => hno i (by omega) (by omega)⟩
      have hne : p ≠ page := by
        rintro rfl
        exact hno block le_rfl (by omega) hpage
      simpa [hne] using hp
    · refine (ih (block + 1) _ h (by omega)).mono ?_ (fun _ _ h => h)
      rintro _ s₂ ⟨h₂, hkeep⟩
      exact ⟨h₂, fun p hp hno => hkeep p hp fun i hi hi' => hno i (by omega) (by omega)⟩

theorem completeBlocks_le (tokens : List Token) :
    completeBlocks s q tokens ≤ q.committedTokens / s.config.blockSize :=
  Nat.div_le_div_right (Nat.min_le_left ..)

theorem SeqOk.published {complete parent : Nat} (h : SeqOk s) (hq : s.sequences[id]? = some q)
    (hc : complete ≤ q.committedTokens / s.config.blockSize) :
    SeqOk (s.putSequence id (Kv.published q complete parent)) := by
  refine h.put ?_ (fun hnone => by simp [hq] at hnone) (fun hp => h.settled id q hq hp) ?_
  · intro q₀ hq₀
    obtain rfl : q₀ = q := by simpa [hq] using hq₀.symm
    exact ⟨rfl, fun _ => ⟨rfl, rfl⟩⟩
  · have hreg := h.registered id q hq
    have hdiv := (Nat.le_div_iff_mul_le h.blockSize).mp hc
    simp only [Kv.published]
    rcases Nat.le_total q.registeredBlocks complete with hle | hle
    · rwa [Nat.max_eq_right hle]
    · rwa [Nat.max_eq_left hle]

theorem registerPrefix_ok {chain : ChainHash} {tokens : List Token} (h : Inv s) :
    Triple (registerPrefix chain id tokens) s (fun _ s' => Inv s' ∧ s'.config = s.config)
      (fun f s' => ¬f.IsPanic ∧ s' = s) := by
  refine registerPrefix_rule (fun _ _ => ⟨not_false, rfl⟩) ⟨h, rfl⟩ fun q _ hq => ?_
  have hcomplete := completeBlocks_le (s := s) (q := q) tokens
  have hcovers := h.seq.covers hq
  have hdiv := div_le_divCeil (a := q.committedTokens) h.seq.blockSize
  have hreg := (Nat.le_div_iff_mul_le h.seq.blockSize).mpr (h.seq.registered id q hq)
  refine ((publishBlocks_tables ..).and (publishBlocks_ok _ _ _ h.pages
    (fun p hp => occurrences_pos hq hp) (by omega))).mono ?_ (fun _ _ h => h.2.elim)
  rintro parent s₁ ⟨hsame, hpages, hkeep⟩
  have hget : s₁.sequences[id]? = some q := by rw [hsame.sequences, hq]
  have hcfg := hsame.config
  have hocc : ∀ p, occurrences (s₁.putSequence id (published q (completeBlocks s q tokens) parent)) p =
      occurrences s p := by
    intro p
    have hput := occurrences_put (published q (completeBlocks s q tokens) parent) p hget
    rw [occurrences_congr hsame.sequences] at hput
    exact Nat.add_right_cancel hput
  refine ⟨⟨(h.seq.of_sameTables hsame).published hget (by rwa [hcfg]), ?_, ?_⟩, hcfg⟩
  · exact (hpages.congr fun p => (hocc p).symm).of_eq rfl rfl rfl rfl rfl rfl rfl
  · intro j q₂ i p hq₂ hi hp
    have hi : q₂.committedTokens / s₁.config.blockSize ≤ i := hi
    rw [hcfg] at hi
    -- the tables are those of `s`, up to fields the tail condition does not read
    obtain ⟨q₀, hq₀, hc₀, hp₀⟩ : ∃ q₀, s.sequences[j]? = some q₀ ∧
        q₀.committedTokens / s.config.blockSize ≤ i ∧ q₀.pages[i]? = some p := by
      rw [putSequence_get] at hq₂
      split at hq₂
      · next hj =>
        cases hq₂
        exact ⟨q, hj ▸ hq, hi, hp⟩
      · exact ⟨q₂, by rw [← hq₂, hsame.sequences], hi, hp⟩
    obtain ⟨h1, hn⟩ := h.tail j q₀ i p hq₀ hc₀ hp₀
    refine ⟨(hocc p).trans h1, hkeep p hn fun k hk hk' hpk => ?_⟩
    -- a published page that were also a tail page would occur twice
    have htwo : 2 ≤ occurrences s p := by
      refine occurrences_two hq hq₀ hpk hp₀ fun he => ?_
      obtain ⟨rfl, rfl⟩ := Prod.mk.inj he
      obtain rfl : q₀ = q := by simpa [hq] using hq₀.symm
      omega
    omega

-- Switching the prefix cache

/-- The loop of `set_prefix_caching(false)`. -/
def dropPages (s : PagedKvCacheManager) (pages : List KvPageId) : PagedKvCacheManager :=
  pages.foldl (fun s page =>
    let s := s.dropCachedBlock page
    { s with freePages := insert page s.freePages }) s

/-- What `dropPages` leaves behind, where the index agrees with the slots. -/
structure Dropped (s : PagedKvCacheManager) (pages : List KvPageId) (s' : PagedKvCacheManager) :
    Prop where
  tables : SameTables s s'
  free : ∀ p, p ∈ s'.freePages ↔ p ∈ s.freePages ∨ p ∈ pages
  refs : s'.pageRefs = s.pageRefs
  blocks : ∀ p, s'.pageBlocks p = if p ∈ pages then none else s.pageBlocks p
  index : ∀ k p, s'.blockIndex k = some p ↔ s.blockIndex k = some p ∧ p ∉ pages
  evictable : s'.evictable = s.evictable
  nextTick : s'.nextTick = s.nextTick

theorem dropPages_dropped (pages : List KvPageId)
    (h : ∀ k p, s.blockIndex k = some p ↔ ∃ b, s.pageBlocks p = some b ∧ b.key = k) :
    Dropped s pages (dropPages s pages) := by
  induction pages generalizing s with
  | nil =>
    exact ⟨.refl s, by simp [dropPages], rfl, by simp [dropPages], by simp [dropPages], rfl, rfl⟩
  | cons page pages ih =>
    let s₁ : PagedKvCacheManager :=
      { s.dropCachedBlock page with freePages := insert page (s.dropCachedBlock page).freePages }
    have hindex : ∀ k p, s₁.blockIndex k = some p ↔ s.blockIndex k = some p ∧ p ≠ page :=
      fun k p => dropCachedBlock_index h k p
    have hblocks : s₁.pageBlocks = Function.update s.pageBlocks page none :=
      dropCachedBlock_pageBlocks s page
    have hsame := dropCachedBlock_sameTables s page
    have hrest : Dropped s₁ pages (dropPages s₁ pages) := by
      refine ih fun k p => ?_
      rw [hindex, h, hblocks]
      by_cases hp : p = page <;> simp [hp]
    have hfree : s₁.freePages = insert page s.freePages :=
      congrArg (insert page) (dropCachedBlock_freePages s page)
    show Dropped s (page :: pages) (dropPages s₁ pages)
    have hsame₁ : SameTables s s₁ := ⟨hsame.1, hsame.2, hsame.3, hsame.4, hsame.5, hsame.6⟩
    refine ⟨hsame₁.trans hrest.tables, ?_, hrest.refs.trans (dropCachedBlock_pageRefs s page), ?_, ?_,
      hrest.evictable.trans (dropCachedBlock_evictable s page),
      hrest.nextTick.trans (dropCachedBlock_nextTick s page)⟩
    · intro p
      rw [hrest.free, hfree, Finset.mem_insert, List.mem_cons]
      tauto
    · intro p
      rw [hrest.blocks, hblocks]
      by_cases hp : p = page <;> simp [hp]
    · intro k p
      rw [hrest.index, hindex, List.mem_cons]
      tauto

theorem PagesOk.setPrefixCaching_false {occ : KvPageId → Nat} (h : PagesOk occ s)
    (hd : Dropped { s with evictable := ∅ } (s.evictable.toList.map Prod.snd) s') :
    PagesOk occ s' := by
  have hmem : ∀ p, p ∈ s.evictable.toList.map Prod.snd ↔ ∃ t : Nat, s.evictable[t]? = some p := by
    intro p
    simp
  have hcfg : s'.config = s.config := hd.tables.config
  have hempty : s'.evictable = ∅ := hd.evictable
  -- a page that keeps its block was not in the LRU map
  have hkept : ∀ p b, s'.pageBlocks p = some b →
      p ∉ s.evictable.toList.map Prod.snd ∧ s.pageBlocks p = some b := by
    intro p b hb
    rw [hd.blocks] at hb
    split at hb
    · cases hb
    · next hp => exact ⟨hp, hb⟩
  constructor
  · intro p
    rw [hd.refs]
    exact h.refs p
  · rw [hcfg]
    exact h.inUse
  · intro p hp
    rw [hcfg, hd.blocks]
    rcases (hd.free p).mp hp with hf | he
    · obtain ⟨hlt, h0, hb⟩ := h.free p hf
      refine ⟨hlt, h0, ?_⟩
      split
      · rfl
      · exact hb
    · obtain ⟨t, ht⟩ := (hmem p).mp he
      obtain ⟨b, hb, -⟩ := (h.evict t p).mp ht
      exact ⟨h.cached p b hb, h.idleEvict t p ht, if_pos he⟩
  · intro t p
    rw [hempty, BTreeMap.get_empty]
    refine ⟨nofun, ?_⟩
    rintro ⟨b, hb, hbt⟩
    obtain ⟨hnot, hb⟩ := hkept p b hb
    exact absurd ((hmem p).mpr ⟨t, (h.evict t p).mpr ⟨b, hb, hbt⟩⟩) hnot
  · intro t p ht
    rw [hempty, BTreeMap.get_empty] at ht
    cases ht
  · intro p b hb
    rw [hcfg]
    exact h.cached p b (hkept p b hb).2
  · intro p hp h0
    rw [hcfg] at hp
    refine .inl ((hd.free p).mpr ?_)
    rcases h.idle p hp h0 with hf | he
    · exact .inl hf
    · exact .inr ((hmem p).mpr he)
  · intro k p
    refine (hd.index k p).trans ?_
    have hk : s.blockIndex k = some p ↔ ∃ b, s.pageBlocks p = some b ∧ b.key = k := h.index k p
    constructor
    · rintro ⟨hidx, hnot⟩
      obtain ⟨b, hb, hbk⟩ := hk.mp hidx
      exact ⟨b, by rw [hd.blocks, if_neg hnot]; exact hb, hbk⟩
    · rintro ⟨b, hb, hbk⟩
      obtain ⟨hnot, hb⟩ := hkept p b hb
      exact ⟨hk.mpr ⟨b, hb, hbk⟩, hnot⟩
  · intro t p ht
    rw [hempty, BTreeMap.get_empty] at ht
    cases ht

theorem setPrefixCaching_ok (enabled : Bool) (h : Inv s) :
    Triple (setPrefixCaching enabled) s
      (fun _ s' => Inv s' ∧ s'.config = s.config ∧ s'.sequences = s.sequences ∧ BlocksShrink s s')
      (fun _ _ => False) := by
  unfold setPrefixCaching
  refine Triple.modify' ?_
  cases enabled with
  | true =>
    refine ⟨⟨⟨h.seq.blockSize, h.seq.settled, h.seq.registered, h.seq.owned, h.seq.reserved,
      h.seq.fresh⟩, h.pages.of_eq rfl rfl rfl rfl rfl rfl rfl, h.tail⟩, rfl, rfl, .refl s⟩
  | false =>
    let s₀ : PagedKvCacheManager := { s with prefixCaching := false }
    have hd : Dropped { s₀ with evictable := ∅ } (s.evictable.toList.map Prod.snd)
        (dropPages { s₀ with evictable := ∅ } (s.evictable.toList.map Prod.snd)) :=
      dropPages_dropped _ h.pages.index
    have hp₀ : PagesOk (occurrences s) s₀ := h.pages.of_eq rfl rfl rfl rfl rfl rfl rfl
    have hocc := occurrences_congr (s := s) hd.tables.sequences
    have hb : BlocksShrink s (dropPages { s₀ with evictable := ∅ } (s.evictable.toList.map Prod.snd)) := by
      intro p b hb
      rw [hd.blocks] at hb
      split at hb
      · cases hb
      · exact ⟨b, hb, rfl⟩
    refine ⟨(⟨?_, hocc ▸ hp₀.setPrefixCaching_false hd, ?_⟩ : Inv (dropPages _ _)),
      hd.tables.config, hd.tables.sequences, hb⟩
    · refine SeqOk.of_sameTables (s := { s₀ with evictable := ∅ }) ?_ hd.tables
      exact ⟨h.seq.blockSize, h.seq.settled, h.seq.registered, h.seq.owned, h.seq.reserved, h.seq.fresh⟩
    · refine h.tail.shrink hd.tables.config (fun p => by rw [hocc]) hb ?_
      intro j q' i p hq' hi hp
      exact ⟨q', by rw [← hq', hd.tables.sequences], hi, hp⟩

end Ruda.Kv
