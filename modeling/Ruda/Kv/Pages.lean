import Ruda.Kv.Manager

/-!
# Page accounting

`PagesOk occ s` states how the six redundant page structures agree when each
page `p` is referenced `occ p` times: reference counts, the free set, the LRU
map, the cached-block slots and the hash index. It is relative to `occ`, so it
also describes the middle of an operation, after pages changed hands and before
the block tables are updated. Each page primitive moves `occ` by one.
-/

namespace Ruda.Kv

open PagedKvCacheManager

variable {s s' : PagedKvCacheManager} {occ : KvPageId → Nat} {p : KvPageId}

structure PagesOk (occ : KvPageId → Nat) (s : PagedKvCacheManager) : Prop where
  refs : ∀ p, s.pageRefs p = occ p
  inUse : ∀ p, 0 < occ p → p < s.config.numPages
  free : ∀ p ∈ s.freePages, p < s.config.numPages ∧ occ p = 0 ∧ s.pageBlocks p = none
  evict : ∀ (t : Nat) p, s.evictable[t]? = some p ↔ ∃ b, s.pageBlocks p = some b ∧ b.lruTick = some t
  idleEvict : ∀ (t : Nat) p, s.evictable[t]? = some p → occ p = 0
  cached : ∀ p b, s.pageBlocks p = some b → p < s.config.numPages
  idle : ∀ p < s.config.numPages, occ p = 0 → p ∈ s.freePages ∨ ∃ t : Nat, s.evictable[t]? = some p
  index : ∀ k p, s.blockIndex k = some p ↔ ∃ b, s.pageBlocks p = some b ∧ b.key = k
  tick : ∀ (t : Nat) p, s.evictable[t]? = some p → t < s.nextTick

/-- Only page bookkeeping differs: no sequence, reservation or setting does. -/
structure SameTables (s s' : PagedKvCacheManager) : Prop where
  config : s'.config = s.config
  sequences : s'.sequences = s.sequences
  reservations : s'.reservations = s.reservations
  nextReservation : s'.nextReservation = s.nextReservation
  prefixCaching : s'.prefixCaching = s.prefixCaching
  reusedTokens : s'.reusedTokens = s.reusedTokens

@[refl] theorem SameTables.refl (s : PagedKvCacheManager) : SameTables s s :=
  ⟨rfl, rfl, rfl, rfl, rfl, rfl⟩

theorem SameTables.trans {s'' : PagedKvCacheManager} (h : SameTables s s') (h' : SameTables s' s'') :
    SameTables s s'' :=
  ⟨h'.1.trans h.1, h'.2.trans h.2, h'.3.trans h.3, h'.4.trans h.4, h'.5.trans h.5, h'.6.trans h.6⟩

/-- Cached blocks may be dropped, never created or given another key. -/
def BlocksShrink (s s' : PagedKvCacheManager) : Prop :=
  ∀ p b, s'.pageBlocks p = some b → ∃ b', s.pageBlocks p = some b' ∧ b'.key = b.key

theorem BlocksShrink.refl (s : PagedKvCacheManager) : BlocksShrink s s := fun _ b h => ⟨b, h, rfl⟩

theorem BlocksShrink.trans {s'' : PagedKvCacheManager} (h : BlocksShrink s s')
    (h' : BlocksShrink s' s'') : BlocksShrink s s'' := by
  intro p b hb
  obtain ⟨b', hb', hk'⟩ := h' p b hb
  obtain ⟨b'', hb'', hk''⟩ := h p b' hb'
  exact ⟨b'', hb'', hk''.trans hk'⟩

theorem BlocksShrink.none (h : BlocksShrink s s') (hp : s.pageBlocks p = none) :
    s'.pageBlocks p = none := by
  cases hb : s'.pageBlocks p with
  | none => rfl
  | some b =>
    obtain ⟨b', hb', -⟩ := h p b hb
    simp [hp] at hb'

theorem PagesOk.congr {occ' : KvPageId → Nat} (h : PagesOk occ s) (he : ∀ p, occ p = occ' p) :
    PagesOk occ' s := by
  rwa [← funext he]

theorem PagesOk.of_eq (h : PagesOk occ s) (hc : s'.config = s.config)
    (hf : s'.freePages = s.freePages) (hr : s'.pageRefs = s.pageRefs)
    (hb : s'.pageBlocks = s.pageBlocks) (hi : s'.blockIndex = s.blockIndex)
    (he : s'.evictable = s.evictable) (ht : s'.nextTick = s.nextTick) : PagesOk occ s' := by
  constructor
  · rw [hr]; exact h.refs
  · rw [hc]; exact h.inUse
  · rw [hc, hf, hb]; exact h.free
  · rw [he, hb]; exact h.evict
  · rw [he]; exact h.idleEvict
  · rw [hb, hc]; exact h.cached
  · rw [hc, hf, he]; exact h.idle
  · rw [hi, hb]; exact h.index
  · rw [he, ht]; exact h.tick

-- Dropping a cached block

section
variable (s p)

theorem dropCachedBlock_sameTables : SameTables s (s.dropCachedBlock p) := by
  unfold dropCachedBlock
  split
  · exact .refl s
  · exact ⟨rfl, rfl, rfl, rfl, rfl, rfl⟩

@[simp] theorem dropCachedBlock_config : (s.dropCachedBlock p).config = s.config :=
  (dropCachedBlock_sameTables s p).config

@[simp] theorem dropCachedBlock_freePages : (s.dropCachedBlock p).freePages = s.freePages := by
  unfold dropCachedBlock
  split <;> rfl

@[simp] theorem dropCachedBlock_pageRefs : (s.dropCachedBlock p).pageRefs = s.pageRefs := by
  unfold dropCachedBlock
  split <;> rfl

@[simp] theorem dropCachedBlock_evictable : (s.dropCachedBlock p).evictable = s.evictable := by
  unfold dropCachedBlock
  split <;> rfl

@[simp] theorem dropCachedBlock_nextTick : (s.dropCachedBlock p).nextTick = s.nextTick := by
  unfold dropCachedBlock
  split <;> rfl

@[simp] theorem dropCachedBlock_pageBlocks :
    (s.dropCachedBlock p).pageBlocks = Function.update s.pageBlocks p none := by
  unfold dropCachedBlock
  split
  · next h => rw [← h, Function.update_eq_self]
  · rfl
end

theorem dropCachedBlock_index
    (h : ∀ k p, s.blockIndex k = some p ↔ ∃ b, s.pageBlocks p = some b ∧ b.key = k)
    (k : BlockKey) (q : KvPageId) :
    (s.dropCachedBlock p).blockIndex k = some q ↔ s.blockIndex k = some q ∧ q ≠ p := by
  unfold dropCachedBlock
  split
  · next hp =>
    refine ⟨fun hk => ⟨hk, ?_⟩, fun hk => hk.1⟩
    rintro rfl
    obtain ⟨b, hb, -⟩ := (h k q).mp hk
    simp [hp] at hb
  · next b hp =>
    have hkey : s.blockIndex b.key = some p := (h _ _).mpr ⟨b, hp, rfl⟩
    simp only [hkey, ↓reduceIte, Function.update_apply]
    by_cases hk : k = b.key
    · subst hk
      simp [hkey, eq_comm]
    · simp only [hk, if_false]
      refine ⟨fun hkq => ⟨hkq, ?_⟩, fun hkq => hkq.1⟩
      rintro rfl
      obtain ⟨b', hb', rfl⟩ := (h k q).mp hkq
      simp_all

theorem dropCachedBlock_shrink : BlocksShrink s (s.dropCachedBlock p) := by
  intro q b hb
  rw [dropCachedBlock_pageBlocks, Function.update_apply] at hb
  split at hb
  · cases hb
  · exact ⟨b, hb, rfl⟩

-- One page changes hands

theorem PagesOk.takeFree (h : PagesOk occ s) (hp : p ∈ s.freePages) :
    PagesOk (fun q => occ q + [p].count q)
      { s with freePages := s.freePages.erase p, pageRefs := Function.update s.pageRefs p 1 } := by
  obtain ⟨hlt, h0, hb⟩ := h.free p hp
  have hcount : ∀ q, q ≠ p → [p].count q = 0 := fun _ => count_singleton_of_ne
  constructor <;> dsimp only
  · intro q
    by_cases hq : q = p
    · subst hq; simp [h0]
    · simp [hq, hcount q hq, h.refs q]
  · intro q hq
    by_cases hqp : q = p
    · subst hqp; exact hlt
    · exact h.inUse q (by simpa [hcount q hqp] using hq)
  · intro q hq
    obtain ⟨hne, hq⟩ := Finset.mem_erase.mp hq
    simpa [hcount q hne] using h.free q hq
  · exact h.evict
  · intro t q hq
    have hne : q ≠ p := by
      rintro rfl
      obtain ⟨b, hb', -⟩ := (h.evict t q).mp hq
      simp [hb] at hb'
    simpa [hcount q hne] using h.idleEvict t q hq
  · exact h.cached
  · intro q hq hocc
    have hne : q ≠ p := by
      rintro rfl
      simp at hocc
    rcases h.idle q hq (by simpa [hcount q hne] using hocc) with hf | he
    · exact .inl (Finset.mem_erase.mpr ⟨hne, hf⟩)
    · exact .inr he
  · exact h.index
  · exact h.tick

theorem PagesOk.takeEvicted {t : Nat} (h : PagesOk occ s) (hp : s.evictable[t]? = some p) :
    PagesOk (fun q => occ q + [p].count q)
      { dropCachedBlock { s with evictable := s.evictable.erase t } p with
        pageRefs := Function.update s.pageRefs p 1 } := by
  obtain ⟨b, hb, hbt⟩ := (h.evict t p).mp hp
  have hcount : ∀ q, q ≠ p → [p].count q = 0 := fun _ => count_singleton_of_ne
  have h0 := h.idleEvict t p hp
  -- every other tick names another page
  have hother : ∀ (t' : Nat) q, (s.evictable.erase t)[t']? = some q ↔ s.evictable[t']? = some q ∧ q ≠ p := by
    intro t' q
    rw [BTreeMap.get_erase]
    by_cases ht : t' = t
    · subst ht
      simp [hp, eq_comm]
    · simp only [ht, if_false]
      refine ⟨fun hq => ⟨hq, ?_⟩, fun hq => hq.1⟩
      rintro rfl
      obtain ⟨b', hb', hbt'⟩ := (h.evict t' q).mp hq
      simp_all
  constructor <;> dsimp only <;> try simp only [dropCachedBlock_config, dropCachedBlock_freePages,
    dropCachedBlock_evictable, dropCachedBlock_nextTick, dropCachedBlock_pageBlocks]
  · intro q
    by_cases hq : q = p
    · subst hq; simp [h0]
    · simp [hq, hcount q hq, h.refs q]
  · intro q hq
    by_cases hqp : q = p
    · subst hqp; exact h.cached q b hb
    · exact h.inUse q (by simpa [hcount q hqp] using hq)
  · intro q hq
    have hne : q ≠ p := by
      rintro rfl
      simp [(h.free q hq).2.2] at hb
    simpa [hcount q hne, hne] using h.free q hq
  · intro t' q
    rw [hother, h.evict]
    by_cases hq : q = p <;> simp [hq]
  · intro t' q hq
    obtain ⟨hq, hne⟩ := (hother t' q).mp hq
    simpa [hcount q hne] using h.idleEvict t' q hq
  · intro q b' hq
    by_cases hqp : q = p
    · simp [hqp] at hq
    · exact h.cached q b' (by simpa [hqp] using hq)
  · intro q hq hocc
    have hne : q ≠ p := by
      rintro rfl
      simp at hocc
    rcases h.idle q hq (by simpa [hcount q hne] using hocc) with hf | ⟨t', he⟩
    · exact .inl hf
    · exact .inr ⟨t', (hother t' q).mpr ⟨he, hne⟩⟩
  · intro k q
    refine (dropCachedBlock_index ?_ k q).trans ?_
    · exact h.index
    dsimp only
    rw [h.index]
    by_cases hq : q = p <;> simp [hq]
  · intro t' q hq
    exact h.tick t' q ((hother t' q).mp hq).1

/-- A cached page gains a reference; if it was unreferenced it leaves the LRU map. -/
theorem PagesOk.acquire {b : CachedBlock} (h : PagesOk occ s) (hb : s.pageBlocks p = some b)
    (hroom : occ p < u32Max) :
    PagesOk (fun q => occ q + [p].count q)
      { s with
        pageBlocks := Function.update s.pageBlocks p (some { b with lruTick := none })
        evictable := match b.lruTick with
          | none => s.evictable
          | some t => s.evictable.erase t
        pageRefs := Function.update s.pageRefs p (wrap32 (s.pageRefs p + 1)) } := by
  have hcount : ∀ q, q ≠ p → [p].count q = 0 := fun _ => count_singleton_of_ne
  have hother : ∀ (t : Nat) q, (match b.lruTick with
      | none => s.evictable
      | some t => s.evictable.erase t)[t]? = some q ↔ s.evictable[t]? = some q ∧ q ≠ p := by
    intro t q
    cases hbt : b.lruTick with
    | none =>
      refine ⟨fun hq => ⟨hq, ?_⟩, fun hq => hq.1⟩
      rintro rfl
      obtain ⟨b', hb', hbt'⟩ := (h.evict t q).mp hq
      simp_all
    | some t' =>
      have hp : s.evictable[t']? = some p := (h.evict t' p).mpr ⟨b, hb, hbt⟩
      simp only [BTreeMap.get_erase]
      by_cases ht : t = t'
      · subst ht
        simp [hp, eq_comm]
      · simp only [ht, if_false]
        refine ⟨fun hq => ⟨hq, ?_⟩, fun hq => hq.1⟩
        rintro rfl
        obtain ⟨b', hb', hbt'⟩ := (h.evict t q).mp hq
        simp_all
  constructor <;> dsimp only
  · intro q
    by_cases hq : q = p
    · subst hq
      simp [h.refs q, wrap32_of_le hroom]
    · simp [hq, hcount q hq, h.refs q]
  · intro q hq
    by_cases hqp : q = p
    · subst hqp; exact h.cached q b hb
    · exact h.inUse q (by simpa [hcount q hqp] using hq)
  · intro q hq
    have hne : q ≠ p := by
      rintro rfl
      simp [(h.free q hq).2.2] at hb
    simpa [hcount q hne, hne] using h.free q hq
  · intro t q
    rw [hother, h.evict]
    by_cases hq : q = p <;> simp [hq]
  · intro t q hq
    obtain ⟨hq, hne⟩ := (hother t q).mp hq
    simpa [hcount q hne] using h.idleEvict t q hq
  · intro q b' hq
    by_cases hqp : q = p
    · subst hqp; exact h.cached q b hb
    · exact h.cached q b' (by simpa [hqp] using hq)
  · intro q hq hocc
    have hne : q ≠ p := by
      rintro rfl
      simp at hocc
    rcases h.idle q hq (by simpa [hcount q hne] using hocc) with hf | ⟨t, he⟩
    · exact .inl hf
    · exact .inr ⟨t, (hother t q).mpr ⟨he, hne⟩⟩
  · intro k q
    rw [h.index]
    by_cases hq : q = p
    · subst hq; simp [hb]
    · simp [hq]
  · intro t q hq
    exact h.tick t q ((hother t q).mp hq).1

theorem PagesOk.releaseShared (h : PagesOk (fun q => occ q + [p].count q) s) (hocc : 0 < occ p) :
    PagesOk occ { s with pageRefs := Function.update s.pageRefs p (s.pageRefs p - 1) } := by
  have hcount : ∀ q, q ≠ p → [p].count q = 0 := fun _ => count_singleton_of_ne
  have hle : ∀ q, occ q + [p].count q = 0 ↔ occ q = 0 := by
    intro q
    by_cases hq : q = p
    · subst hq; simp; omega
    · simp [hcount q hq]
  constructor <;> dsimp only
  · intro q
    by_cases hq : q = p
    · subst hq; simp [h.refs q]
    · simpa [hq, hcount q hq] using h.refs q
  · intro q hq
    exact h.inUse q (by omega)
  · intro q hq
    simpa only [hle] using h.free q hq
  · exact h.evict
  · intro t q hq
    exact (hle q).mp (h.idleEvict t q hq)
  · exact h.cached
  · intro q hq h0
    exact h.idle q hq ((hle q).mpr h0)
  · exact h.index
  · exact h.tick

theorem PagesOk.releaseCached {b : CachedBlock} (h : PagesOk (fun q => occ q + [p].count q) s)
    (hocc : occ p = 0) (hb : s.pageBlocks p = some b) :
    PagesOk occ { s with
      pageRefs := Function.update s.pageRefs p (s.pageRefs p - 1)
      nextTick := s.nextTick + 1
      pageBlocks := Function.update s.pageBlocks p (some { b with lruTick := some s.nextTick })
      evictable := s.evictable.insert s.nextTick p } := by
  have hcount : ∀ q, q ≠ p → [p].count q = 0 := fun _ => count_singleton_of_ne
  -- `p` was referenced, so the LRU map did not hold it
  have hnew : ∀ t : Nat, s.evictable[t]? ≠ some p := fun t ht => by
    simpa using h.idleEvict t p ht
  have hfree : p ∉ s.freePages := fun hp => by simpa using (h.free p hp).2.1
  constructor <;> dsimp only
  · intro q
    by_cases hq : q = p
    · subst hq; simp [h.refs q, hocc]
    · simpa [hq, hcount q hq] using h.refs q
  · intro q hq
    exact h.inUse q (by omega)
  · intro q hq
    have hne : q ≠ p := fun he => hfree (he ▸ hq)
    simpa [hcount q hne, hne] using h.free q hq
  · intro t q
    rw [BTreeMap.get_insert]
    by_cases hq : q = p
    · subst hq
      by_cases ht : t = s.nextTick
      · simp [ht]
      · simp [ht, hnew t, eq_comm]
    · rw [Function.update_of_ne hq]
      by_cases ht : t = s.nextTick
      · subst ht
        simp only [if_true, Option.some.injEq, eq_comm (a := p), hq, false_iff]
        intro hx
        have := h.tick _ q ((h.evict _ q).mpr hx)
        omega
      · rw [if_neg ht, h.evict]
  · intro t q hq
    rw [BTreeMap.get_insert] at hq
    split at hq
    · cases hq; exact hocc
    · have := h.idleEvict t q hq
      omega
  · intro q b' hq
    by_cases hqp : q = p
    · subst hqp; exact h.cached q b hb
    · exact h.cached q b' (by simpa [hqp] using hq)
  · intro q hq h0
    by_cases hqp : q = p
    · exact .inr ⟨s.nextTick, by simp [hqp]⟩
    · rcases h.idle q hq (by simpa [hcount q hqp] using h0) with hf | ⟨t, ht⟩
      · exact .inl hf
      · have hne : t ≠ s.nextTick := (h.tick t q ht).ne
        exact .inr ⟨t, by simpa [hne] using ht⟩
  · intro k q
    rw [h.index]
    by_cases hq : q = p
    · subst hq; simp [hb]
    · simp [hq]
  · intro t q hq
    rw [BTreeMap.get_insert] at hq
    split at hq
    · omega
    · have := h.tick t q hq
      omega

theorem PagesOk.releaseFree (h : PagesOk (fun q => occ q + [p].count q) s) (hocc : occ p = 0) :
    PagesOk occ { dropCachedBlock
        { s with pageRefs := Function.update s.pageRefs p (s.pageRefs p - 1) } p with
      freePages := insert p s.freePages } := by
  have hcount : ∀ q, q ≠ p → [p].count q = 0 := fun _ => count_singleton_of_ne
  have hlt : p < s.config.numPages := h.inUse p (by simp)
  have hnew : ∀ t : Nat, s.evictable[t]? ≠ some p := fun t ht => by
    simpa using h.idleEvict t p ht
  constructor <;> dsimp only <;> try simp only [dropCachedBlock_config, dropCachedBlock_pageRefs,
    dropCachedBlock_evictable, dropCachedBlock_nextTick, dropCachedBlock_pageBlocks]
  · intro q
    by_cases hq : q = p
    · subst hq; simp [h.refs q, hocc]
    · simpa [hq, hcount q hq] using h.refs q
  · intro q hq
    exact h.inUse q (by omega)
  · intro q hq
    by_cases hqp : q = p
    · subst hqp; simp [hlt, hocc]
    · have hq : q ∈ s.freePages := by simpa [hqp] using hq
      simpa [hcount q hqp, hqp] using h.free q hq
  · intro t q
    by_cases hq : q = p
    · subst hq; simp [hnew t]
    · rw [Function.update_of_ne hq, h.evict]
  · intro t q hq
    have := h.idleEvict t q hq
    omega
  · intro q b hq
    by_cases hqp : q = p
    · simp [hqp] at hq
    · exact h.cached q b (by simpa [hqp] using hq)
  · intro q hq h0
    by_cases hqp : q = p
    · exact .inl (by simp [hqp])
    · rcases h.idle q hq (by simpa [hcount q hqp] using h0) with hf | he
      · exact .inl (Finset.mem_insert_of_mem hf)
      · exact .inr he
  · intro k q
    refine (dropCachedBlock_index ?_ k q).trans ?_
    · exact h.index
    dsimp only
    rw [h.index]
    by_cases hq : q = p <;> simp [hq]
  · exact h.tick

theorem PagesOk.publish {k : BlockKey} (h : PagesOk occ s) (hocc : 0 < occ p)
    (hk : s.blockIndex k = none) (hb : s.pageBlocks p = none) :
    PagesOk occ { s with
      blockIndex := Function.update s.blockIndex k (some p)
      pageBlocks := Function.update s.pageBlocks p (some { key := k, lruTick := none }) } := by
  have hfree : p ∉ s.freePages := fun hp => by have := (h.free p hp).2.1; omega
  constructor <;> dsimp only
  · exact h.refs
  · exact h.inUse
  · intro q hq
    have hne : q ≠ p := fun he => hfree (he ▸ hq)
    simpa [hne] using h.free q hq
  · intro t q
    rw [h.evict]
    by_cases hq : q = p
    · subst hq; simp [hb]
    · simp [hq]
  · exact h.idleEvict
  · intro q b hq
    by_cases hqp : q = p
    · subst hqp; exact h.inUse q hocc
    · exact h.cached q b (by simpa [hqp] using hq)
  · exact h.idle
  · intro k' q
    by_cases hk' : k' = k
    · subst hk'
      simp only [Function.update_self, Option.some.injEq]
      constructor
      · rintro rfl; exact ⟨_, Function.update_self .., rfl⟩
      · rintro ⟨b, hbq, hbk⟩
        by_contra hne
        rw [Function.update_of_ne (Ne.symm hne)] at hbq
        have := (h.index k' q).mpr ⟨b, hbq, hbk⟩
        simp [hk] at this
    · rw [Function.update_of_ne hk', h.index]
      by_cases hq : q = p
      · subst hq; simp [hb, Ne.symm hk']
      · simp [hq]
  · exact h.tick

-- Nothing is lost

/-- Pages that some block table refers to. -/
def referenced (occ : KvPageId → Nat) (s : PagedKvCacheManager) : Finset KvPageId :=
  (Finset.range s.config.numPages).filter fun p => 0 < occ p

/-- The pages of the LRU map. -/
def evictablePages (s : PagedKvCacheManager) : Finset KvPageId :=
  (s.evictable.toList.map Prod.snd).toFinset

theorem mem_evictablePages : p ∈ evictablePages s ↔ ∃ t : Nat, s.evictable[t]? = some p := by
  simp [evictablePages]

theorem PagesOk.card_evictablePages (h : PagesOk occ s) :
    (evictablePages s).card = s.evictable.size := by
  rw [evictablePages, List.toFinset_card_of_nodup, List.length_map, Std.ExtTreeMap.length_toList]
  refine (List.nodup_map_iff_inj_on (BTreeMap.nodup_toList _)).mpr ?_
  rintro ⟨t, p⟩ ht ⟨t', p'⟩ ht' hp
  obtain rfl : p = p' := hp
  obtain ⟨b, hb, hbt⟩ := (h.evict t p).mp ((BTreeMap.mem_toList _ _ _).mp ht)
  obtain ⟨b', hb', hbt'⟩ := (h.evict t' p).mp ((BTreeMap.mem_toList _ _ _).mp ht')
  simp_all

theorem PagesOk.partition (h : PagesOk occ s) :
    Disjoint s.freePages (evictablePages s) ∧
    Disjoint (s.freePages ∪ evictablePages s) (referenced occ s) ∧
    s.freePages ∪ evictablePages s ∪ referenced occ s = Finset.range s.config.numPages := by
  refine ⟨?_, ?_, ?_⟩
  · rw [Finset.disjoint_left]
    intro p hf he
    obtain ⟨t, ht⟩ := mem_evictablePages.mp he
    obtain ⟨b, hb, -⟩ := (h.evict t p).mp ht
    simp [(h.free p hf).2.2] at hb
  · rw [Finset.disjoint_left]
    intro p hp hr
    have hpos := (Finset.mem_filter.mp hr).2
    rcases Finset.mem_union.mp hp with hf | he
    · have := (h.free p hf).2.1
      omega
    · obtain ⟨t, ht⟩ := mem_evictablePages.mp he
      have := h.idleEvict t p ht
      omega
  · ext p
    simp only [Finset.mem_union, Finset.mem_range, referenced, Finset.mem_filter, mem_evictablePages]
    constructor
    · rintro ((hf | ⟨t, ht⟩) | hr)
      · exact (h.free p hf).1
      · obtain ⟨b, hb, -⟩ := (h.evict t p).mp ht
        exact h.cached p b hb
      · exact hr.1
    · intro hp
      rcases Nat.eq_zero_or_pos (occ p) with h0 | hpos
      · exact .inl (h.idle p hp h0)
      · exact .inr ⟨hp, hpos⟩

theorem PagesOk.available (h : PagesOk occ s) :
    s.availablePages + (referenced occ s).card = s.config.numPages := by
  obtain ⟨hfe, hr, hall⟩ := h.partition
  rw [availablePages, ← h.card_evictablePages, ← Finset.card_union_of_disjoint hfe,
    ← Finset.card_union_of_disjoint hr, hall, Finset.card_range]

-- The primitives keep the invariant

theorem allocatePage_ok (h : PagesOk occ s) (hav : 0 < s.availablePages) :
    Triple allocatePage s
      (fun p s' => PagesOk (fun q => occ q + [p].count q) s' ∧ occ p = 0 ∧ s'.pageBlocks p = none ∧
        SameTables s s' ∧ BlocksShrink s s' ∧ s'.availablePages + 1 = s.availablePages)
      (fun _ _ => False) := by
  unfold allocatePage Triple
  simp only [M.exec_bind, M.exec_get]
  cases hf : popFirst s.freePages with
  | some e =>
    obtain ⟨p, rest⟩ := e
    obtain ⟨hp, rfl⟩ := popFirst_eq_some hf
    obtain ⟨-, h0, hb⟩ := h.free p hp
    have hcard := Finset.card_erase_add_one hp
    have hr : s.pageRefs p = 0 := by rw [h.refs, h0]
    simp only [M.exec_pure, hr, ne_eq, not_true_eq_false, ↓reduceIte, M.exec_bind, M.exec_set]
    refine ⟨h.takeFree hp, h0, hb, ⟨rfl, rfl, rfl, rfl, rfl, rfl⟩, .refl s, ?_⟩
    simp only [availablePages]
    omega
  | none =>
    have hempty : s.freePages = ∅ := popFirst_eq_none.mp hf
    cases he : s.evictable.popFirst with
    | none =>
      have := BTreeMap.popFirst_eq_none.mp he
      simp [availablePages, hempty, this] at hav
    | some e =>
      obtain ⟨⟨t, p⟩, rest⟩ := e
      obtain ⟨ht, rfl⟩ := BTreeMap.popFirst_eq_some he
      have h0 := h.idleEvict t p ht
      have hr : s.pageRefs p = 0 := by rw [h.refs, h0]
      have hmem : s.evictable.contains t = true := (BTreeMap.contains_iff _ _).mpr ⟨p, ht⟩
      have hsize : (s.evictable.erase t).size + 1 = s.evictable.size := by
        have hpos : 0 < s.evictable.size := by simpa [availablePages, hempty] using hav
        rw [Std.ExtTreeMap.size_erase, if_pos hmem]
        omega
      simp only [M.exec_bind, M.exec_expect_some, M.exec_pure, dropCachedBlock_pageRefs, hr, ne_eq,
        not_true_eq_false, ↓reduceIte, M.exec_set]
      have hsame := dropCachedBlock_sameTables { s with evictable := s.evictable.erase t } p
      refine ⟨h.takeEvicted ht, h0, ?_, ⟨hsame.1, hsame.2, hsame.3, hsame.4, hsame.5, hsame.6⟩, ?_, ?_⟩
      · simp
      · exact dropCachedBlock_shrink (s := { s with evictable := s.evictable.erase t })
      · simp only [availablePages, dropCachedBlock_freePages, dropCachedBlock_evictable]
        omega

theorem allocatePages_ok (n : Nat) (h : PagesOk occ s) (hav : n ≤ s.availablePages) :
    Triple (allocatePages n) s
      (fun ps s' => PagesOk (fun q => occ q + ps.count q) s' ∧ ps.Nodup ∧ (∀ p ∈ ps, occ p = 0) ∧
        (∀ p ∈ ps, s'.pageBlocks p = none) ∧ SameTables s s' ∧ BlocksShrink s s')
      (fun _ _ => False) := by
  induction n generalizing s occ with
  | zero => exact Triple.pure' ⟨by simpa using h, by simp, by simp, by simp, .refl s, .refl s⟩
  | succ n ih =>
    unfold allocatePages
    refine Triple.bind (allocatePage_ok h (by omega)) ?_
    rintro p s₁ ⟨h₁, h0, hb, hsame, hshrink, hav₁⟩
    refine Triple.bind (ih h₁ (by omega)) ?_
    rintro ps s₂ ⟨h₂, hnd, hps, hbs, hsame₂, hshrink₂⟩
    have hnot : p ∉ ps := fun hp => by simpa [h0] using hps p hp
    refine Triple.pure' ⟨h₂.congr fun q => ?_, List.nodup_cons.mpr ⟨hnot, hnd⟩, ?_, ?_,
      hsame.trans hsame₂, hshrink.trans hshrink₂⟩
    · simp only [List.count_cons, List.count_nil]
      omega
    · intro q hq
      rcases List.mem_cons.mp hq with rfl | hq
      · exact h0
      · have := hps q hq
        omega
    · intro q hq
      rcases List.mem_cons.mp hq with rfl | hq
      · exact hshrink₂.none hb
      · exact hbs q hq

/-- No reference count is at the `u32` limit for another `n` references to
pages the index maps. -/
def RefRoom (s : PagedKvCacheManager) (n : Nat) : Prop :=
  ∀ k p, s.blockIndex k = some p → s.pageRefs p + n ≤ u32Max

theorem acquireCached_ok {k : BlockKey} (h : PagesOk occ s) (hk : s.blockIndex k = some p)
    (hroom : occ p < u32Max) :
    Triple (acquireCached p) s
      (fun _ s' => PagesOk (fun q => occ q + [p].count q) s' ∧ SameTables s s' ∧
        BlocksShrink s s' ∧ s'.blockIndex = s.blockIndex)
      (fun _ _ => False) := by
  obtain ⟨b, hb, rfl⟩ := (h.index _ _).mp hk
  have hacq := h.acquire hb hroom
  have hshrink : BlocksShrink s { s with
      pageBlocks := Function.update s.pageBlocks p (some { b with lruTick := none }) } := by
    intro q b' hq
    by_cases hqp : q = p
    · subst hqp
      simp only [Function.update_self, Option.some.injEq] at hq
      exact ⟨b, hb, by rw [← hq]⟩
    · exact ⟨b', by simpa [hqp] using hq, rfl⟩
  -- a referenced page has no tick, so it is left as it is
  have hplain : b.lruTick = none →
      Function.update s.pageBlocks p (some { b with lruTick := none }) = s.pageBlocks := by
    intro ht
    rw [← ht, ← hb, Function.update_eq_self]
  unfold acquireCached Triple
  simp only [M.exec_bind, M.exec_get]
  by_cases h0 : s.pageRefs p = 0
  · simp only [h0, ↓reduceIte, M.exec_bind, hb, M.exec_expect_some]
    cases ht : b.lruTick with
    | none =>
      refine ⟨?_, ⟨rfl, rfl, rfl, rfl, rfl, rfl⟩, .refl s, rfl⟩
      simpa [ht, hplain ht, h0] using hacq
    | some t =>
      refine ⟨?_, ⟨rfl, rfl, rfl, rfl, rfl, rfl⟩, hshrink, rfl⟩
      simpa [ht, h0] using hacq
  · have ht : b.lruTick = none := by
      cases ht : b.lruTick with
      | none => rfl
      | some t =>
        have := h.idleEvict t p ((h.evict t p).mpr ⟨b, hb, ht⟩)
        rw [h.refs] at h0
        contradiction
    simp only [h0, ↓reduceIte]
    refine ⟨?_, ⟨rfl, rfl, rfl, rfl, rfl, rfl⟩, .refl s, rfl⟩
    simpa [ht, hplain ht] using hacq

theorem releasePage_ok (h : PagesOk (fun q => occ q + [p].count q) s) :
    Triple (releasePage p) s (fun _ s' => PagesOk occ s' ∧ SameTables s s' ∧ BlocksShrink s s')
      (fun _ _ => False) := by
  have hrefs : s.pageRefs p = occ p + 1 := by simpa using h.refs p
  unfold releasePage Triple
  simp only [M.exec_bind, M.exec_get, hrefs, Nat.add_eq_zero_iff, one_ne_zero, and_false, ↓reduceIte,
    Nat.add_sub_cancel, Function.update_self, ne_eq, M.exec_ite]
  by_cases h0 : occ p = 0
  · simp only [h0, not_true_eq_false, ↓reduceIte]
    have hfree : p ∉ s.freePages := fun hp => by simpa using (h.free p hp).2.1
    have hdrop := h.releaseFree h0
    rw [hrefs, h0] at hdrop
    have hsame := dropCachedBlock_sameTables { s with pageRefs := Function.update s.pageRefs p 0 } p
    have hshrink := dropCachedBlock_shrink (s := { s with pageRefs := Function.update s.pageRefs p 0 })
      (p := p)
    by_cases hc : s.prefixCaching = true ∧ (s.pageBlocks p).isSome = true
    · obtain ⟨b, hb⟩ := Option.isSome_iff_exists.mp hc.2
      have hcached := h.releaseCached h0 hb
      rw [hrefs, h0] at hcached
      rw [if_pos hc, M.exec_set, hb, Option.map_some]
      refine ⟨hcached, ⟨rfl, rfl, rfl, rfl, rfl, rfl⟩, ?_⟩
      intro q b' hq
      by_cases hqp : q = p
      · subst hqp
        simp only [Function.update_self, Option.some.injEq] at hq
        exact ⟨b, hb, by rw [← hq]⟩
      · exact ⟨b', by simpa [hqp] using hq, rfl⟩
    · simp only [hc, ↓reduceIte, dropCachedBlock_freePages, hfree]
      exact ⟨hdrop, ⟨hsame.1, hsame.2, hsame.3, hsame.4, hsame.5, hsame.6⟩, hshrink⟩
  · simp only [h0, not_false_eq_true, ↓reduceIte, M.exec_set]
    have hshared := h.releaseShared (Nat.pos_of_ne_zero h0)
    rw [hrefs] at hshared
    exact ⟨hshared, ⟨rfl, rfl, rfl, rfl, rfl, rfl⟩, .refl s⟩

theorem releasePages_ok (ps : List KvPageId) (h : PagesOk (fun q => occ q + ps.count q) s) :
    Triple (releasePages ps) s (fun _ s' => PagesOk occ s' ∧ SameTables s s' ∧ BlocksShrink s s')
      (fun _ _ => False) := by
  refine Triple.mono (Triple.forM (I := fun rest s' => PagesOk (fun q => occ q + rest.count q) s' ∧
    SameTables s s' ∧ BlocksShrink s s') ⟨h, .refl s, .refl s⟩ ?_) ?_ (fun _ _ h => h)
  · rintro p rest s₁ ⟨h₁, hsame, hshrink⟩
    have h₁ : PagesOk (fun q => (occ q + rest.count q) + [p].count q) s₁ := h₁.congr fun q => by
      simp only [List.count_cons, List.count_nil]
      omega
    refine Triple.mono (releasePage_ok h₁) ?_ (fun _ _ h => h)
    rintro _ s₂ ⟨h₂, hsame₂, hshrink₂⟩
    exact ⟨h₂, hsame.trans hsame₂, hshrink.trans hshrink₂⟩
  · rintro _ s₁ ⟨h₁, hsame, hshrink⟩
    exact ⟨by simpa using h₁, hsame, hshrink⟩

end Ruda.Kv
