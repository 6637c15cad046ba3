import Ruda.Kv.Safety

/-!
# Soundness of the prefix cache

A `World` adds to the manager what the device memory holds. A slot of a page
holds the KV of one token, which depends on that token and all before it, so its
content is named by that prefix of tokens. A reservation makes the slots it may
write unknown, an allocation the whole page, and a commit fills them.

The index is keyed by a chain hash and one block. If the hash tells apart the
pairs that occur and never returns the hash of the empty prefix, a lookup
returns pages whose slots hold exactly the prefixes of the tokens looked up.
Without the second condition it can return a page of another position.
-/

namespace Ruda.Kv

open PagedKvCacheManager

-- Chains of hashed blocks

section
variable {chain : ChainHash} {size : Nat} {T : Set (List Token)} {t t' : List Token} {n m : Nat}

/-- The chain hash after the first `n` blocks. -/
def chainAt (chain : ChainHash) (size : Nat) (tokens : List Token) : Nat → Nat
  | 0 => chainRoot
  | n + 1 => chain (chainAt chain size tokens n) (blockOf tokens size n)

/-- The arguments `chain` is called with for token lists in `T`. -/
def chainPairs (chain : ChainHash) (size : Nat) (T : Set (List Token)) : Set BlockKey :=
  { k | ∃ t ∈ T, ∃ n, (n + 1) * size ≤ t.length ∧ k = (chainAt chain size t n, blockOf t size n) }

/-- `chain` is injective on the pairs that occur. -/
def ChainInjective (chain : ChainHash) (size : Nat) (T : Set (List Token)) : Prop :=
  ∀ k ∈ chainPairs chain size T, ∀ k' ∈ chainPairs chain size T,
    chain k.1 k.2 = chain k'.1 k'.2 → k = k'

/-- `chain` never returns the hash of the empty prefix. -/
def ChainLeavesRoot (chain : ChainHash) (size : Nat) (T : Set (List Token)) : Prop :=
  ∀ k ∈ chainPairs chain size T, chain k.1 k.2 ≠ chainRoot

theorem blockOf_take (h : (n + 1) * size ≤ m) : blockOf (t.take m) size n = blockOf t size n := by
  have hle : size ≤ m - n * size := by
    have : (n + 1) * size = n * size + size := Nat.succ_mul n size
    omega
  rw [blockOf, List.drop_take, List.take_take, Nat.min_eq_left hle]
  rfl

theorem chainAt_take (h : n * size ≤ m) : chainAt chain size (t.take m) n = chainAt chain size t n := by
  induction n with
  | zero => rfl
  | succ n ih =>
    rw [chainAt, chainAt, blockOf_take h, ih]
    exact le_trans (Nat.mul_le_mul_right _ (Nat.le_succ n)) h

theorem chainAt_congr (h : t.take (n * size) = t'.take (n * size)) :
    chainAt chain size t n = chainAt chain size t' n := by
  rw [← chainAt_take (t := t) le_rfl, h, chainAt_take le_rfl]

theorem mem_chainPairs (ht : t ∈ T) (hn : (n + 1) * size ≤ t.length) :
    (chainAt chain size t n, blockOf t size n) ∈ chainPairs chain size T :=
  ⟨t, ht, n, hn, rfl⟩

theorem take_eq_of_chainAt_eq (hinj : ChainInjective chain size T)
    (hroot : ChainLeavesRoot chain size T) (ht : t ∈ T) (ht' : t' ∈ T) (hn : n * size ≤ t.length)
    (hm : m * size ≤ t'.length) (h : chainAt chain size t n = chainAt chain size t' m) :
    n = m ∧ t.take (n * size) = t'.take (n * size) := by
  induction n generalizing m with
  | zero =>
    cases m with
    | zero => simp
    | succ m => exact absurd h.symm (hroot _ (mem_chainPairs ht' hm))
  | succ n ih =>
    cases m with
    | zero => exact absurd h (hroot _ (mem_chainPairs ht hn))
    | succ m =>
      have hpair := hinj _ (mem_chainPairs ht hn) _ (mem_chainPairs ht' hm) h
      obtain ⟨hhash, hblock⟩ := Prod.mk.inj hpair
      have hn' : n * size ≤ t.length := (Nat.mul_le_mul_right _ (Nat.le_succ n)).trans hn
      have hm' : m * size ≤ t'.length := (Nat.mul_le_mul_right _ (Nat.le_succ m)).trans hm
      obtain ⟨rfl, htake⟩ := ih hn' hm' hhash
      exact ⟨rfl, by rw [take_succ_block, take_succ_block, htake, hblock]⟩

theorem cachedPrefix_keys {index : BlockKey → Option KvPageId} (n block : Nat) :
    (cachedPrefix chain index size t n block (chainAt chain size t block)).2 =
      chainAt chain size t (block +
        (cachedPrefix chain index size t n block (chainAt chain size t block)).1.length) ∧
    ∀ i p, (cachedPrefix chain index size t n block (chainAt chain size t block)).1[i]? = some p →
      index (chainAt chain size t (block + i), blockOf t size (block + i)) = some p := by
  induction n generalizing block with
  | zero => simp [cachedPrefix]
  | succ n ih =>
    unfold cachedPrefix
    cases hindex : index (chainAt chain size t block, blockOf t size block) with
    | none => simp
    | some page =>
      obtain ⟨hlast, hkeys⟩ := ih (block + 1)
      refine ⟨?_, fun i p hp => ?_⟩
      · simp only [List.length_cons]
        refine hlast.trans ?_
        congr 1
        simp only [chainAt]
        omega
      · cases i with
        | zero =>
          obtain rfl : page = p := by simpa using hp
          exact hindex
        | succ i =>
          have := hkeys i p hp
          rwa [Nat.add_assoc, Nat.add_comm 1 i] at this

end

-- Device memory

structure World where
  kv : PagedKvCacheManager
  /-- The tokens up to the one whose KV the slot holds, where that is known. -/
  slots : KvPageId → Nat → Option (List Token)
  /-- The tokens committed to each sequence. -/
  tokens : RequestId → List Token

/-- The token position in `start..stop` that a table keeps in slot `o` of page `p`. -/
def slotPosition (pages : List KvPageId) (size start stop : Nat) (p : KvPageId) (o : Nat) : Option Nat :=
  (List.range stop).find? fun i =>
    decide (start ≤ i) && decide (pages[i / size]? = some p) && decide (i % size = o)

namespace World

def initial (config : PagedKvCacheConfig) : World where
  kv := PagedKvCacheManager.initial config
  slots := fun _ _ => none
  tokens := fun _ => []

/-- Sequence `id` was grown in `kv`: its new pages and every slot past its
committed tokens may hold anything until they are committed. -/
def scribble (w : World) (kv : PagedKvCacheManager) (id : RequestId) : World :=
  match w.kv.sequences[id]?, kv.sequences[id]? with
  | some q, some q' => { w with
      kv
      slots := fun p o =>
        if p ∈ q'.pages.drop q.pages.length ∨ (slotPosition q'.pages kv.config.blockSize
            q'.committedTokens (q'.pages.length * kv.config.blockSize) p o).isSome then none
        else w.slots p o }
  | _, _ => { w with kv }

/-- The first `row.2` tokens written for reservation `row.1` are committed;
`s` is the manager before the call. -/
def fill (s : PagedKvCacheManager) (written : KvReservationId → List Token) (w : World)
    (row : KvReservationId × Nat) : World :=
  match s.reservations[row.1]? with
  | none => w
  | some r =>
    match s.sequences[r.requestId]? with
    | none => w
    | some q =>
      let tokens := w.tokens r.requestId ++ (written row.1).take row.2
      { w with
        tokens := Function.update w.tokens r.requestId tokens
        slots := fun p o =>
          match slotPosition q.pages s.config.blockSize r.startPosition
            (r.startPosition + row.2) p o with
          | some i => some (tokens.take (i + 1))
          | none => w.slots p o }

def fillAll (w : World) (kv : PagedKvCacheManager) (written : KvReservationId → List Token)
    (rows : List (KvReservationId × Nat)) : World :=
  { rows.foldl (fill w.kv written) w with kv }

/-- The world after `op` returned and left the manager in state `kv`. -/
def after (w : World) (kv : PagedKvCacheManager) (written : KvReservationId → List Token) :
    KvOp → World
  | .createSequence id => { w with kv, tokens := Function.update w.tokens id [] }
  | .createSequenceWithPrefix id tokens => { w with
      kv
      tokens := Function.update w.tokens id
        (tokens.take (kv.sequences[id]?.elim 0 SequenceState.committedTokens)) }
  | .beginAppend id _ => w.scribble kv id
  | .extendAppend id _ =>
    match w.kv.reservations[id]? with
    | some r => w.scribble kv r.requestId
    | none => { w with kv }
  | .commitAppend id => w.fillAll kv written (fullRows w.kv [id])
  | .commitAppendPartial id tokenCount => w.fillAll kv written [(id, tokenCount)]
  | .commitAppendPrefixes rows => w.fillAll kv written rows
  | .commitAppends ids => w.fillAll kv written (fullRows w.kv ids)
  | _ => { w with kv }

/-- A call of the manager, with the tokens whose KV was written for each pending
reservation. -/
def run (chain : ChainHash) (call : (KvReservationId → List Token) × KvOp) : M World Unit := do
  let w ← get
  M.zoom World.kv (fun w kv => { w with kv }) (call.2.run chain)
  modify fun w' => w.after w'.kv call.1 call.2

/-- The tokens a call passes occur in `T`, and what is registered for a sequence
is what was committed to it. -/
def TokensTrue (T : Set (List Token)) (w : World) : KvOp → Prop
  | .createSequenceWithPrefix _ tokens => tokens ∈ T
  | .registerPrefix id tokens => tokens ∈ T ∧ (tokens <+: w.tokens id ∨ w.tokens id <+: tokens)
  | _ => True

structure CallOk (chain : ChainHash) (T : Set (List Token)) (w : World)
    (call : (KvReservationId → List Token) × KvOp) : Prop where
  refs : call.2.RefsFit chain w.kv
  tokens : TokensTrue T w call.2
  written : ∀ (rid : Nat) r, w.kv.reservations[rid]? = some r → (call.1 rid).length = r.tokenCount

end World

/-- Page `p` holds block `n` of `t`. -/
def Holds (w : World) (p : KvPageId) (t : List Token) (n : Nat) : Prop :=
  ∀ o < w.kv.config.blockSize, w.slots p o = some (t.take (n * w.kv.config.blockSize + o + 1))

structure Sound (chain : ChainHash) (T : Set (List Token)) (w : World) : Prop where
  inv : Inv w.kv
  length : ∀ (id : Nat) q, w.kv.sequences[id]? = some q → (w.tokens id).length = q.committedTokens
  filled : ∀ (id : Nat) q i p, w.kv.sequences[id]? = some q → i < q.committedTokens →
    q.pages[i / w.kv.config.blockSize]? = some p →
    w.slots p (i % w.kv.config.blockSize) = some ((w.tokens id).take (i + 1))
  cached : ∀ p b, w.kv.pageBlocks p = some b → ∃ t ∈ T, ∃ n,
    (n + 1) * w.kv.config.blockSize ≤ t.length ∧
    b.key = (chainAt chain w.kv.config.blockSize t n, blockOf t w.kv.config.blockSize n) ∧ Holds w p t n
  chained : ∀ (id : Nat) q, w.kv.sequences[id]? = some q →
    q.chainHash = chainAt chain w.kv.config.blockSize (w.tokens id) q.registeredBlocks

section
variable {chain : ChainHash} {T : Set (List Token)} {w : World} {kv : PagedKvCacheManager}
  {id : RequestId} {q q' : SequenceState} {p : KvPageId} {t : List Token}

theorem slotPosition_eq_some {pages : List KvPageId} {size start stop o i : Nat}
    (h : slotPosition pages size start stop p o = some i) :
    start ≤ i ∧ i < stop ∧ pages[i / size]? = some p ∧ i % size = o := by
  have hmem := List.mem_of_find?_eq_some h
  have hp := List.find?_some h
  simp only [Bool.and_eq_true, decide_eq_true_eq] at hp
  exact ⟨hp.1.1, List.mem_range.mp hmem, hp.1.2, hp.2⟩

theorem slotPosition_eq_none {pages : List KvPageId} {size start stop o : Nat}
    (h : slotPosition pages size start stop p o = none) (i : Nat) (hs : start ≤ i) (hi : i < stop)
    (hp : pages[i / size]? = some p) : i % size ≠ o := by
  intro ho
  have := List.find?_eq_none.mp h i (List.mem_range.mpr hi)
  simp [hs, hp, ho] at this

theorem Inv.slot_disjoint {s : PagedKvCacheManager} {j : RequestId} {i k : Nat} (h : Inv s)
    (hq : s.sequences[id]? = some q) (hk : q.committedTokens ≤ k)
    (hp : q.pages[k / s.config.blockSize]? = some p) (hq' : s.sequences[j]? = some q')
    (hi : i < q'.committedTokens) (hp' : q'.pages[i / s.config.blockSize]? = some p) :
    i % s.config.blockSize ≠ k % s.config.blockSize := by
  obtain ⟨h1, -⟩ := h.tail id q _ p hq (Nat.div_le_div_right hk) hp
  intro hmod
  have hsame : (id, k / s.config.blockSize) = (j, i / s.config.blockSize) := by
    by_contra hne
    have := occurrences_two hq hq' hp hp' hne
    omega
  obtain ⟨rfl, hdiv⟩ := Prod.mk.inj hsame
  obtain rfl : q = q' := by simpa [hq] using hq'
  have hik : i = k := by
    rw [← Nat.div_add_mod i s.config.blockSize, ← Nat.div_add_mod k s.config.blockSize, hdiv, hmod]
  omega

theorem Sound.shrink (h : Sound chain T w) (hinv : Inv kv) (hc : kv.config = w.kv.config)
    (hb : BlocksShrink w.kv kv)
    (htab : ∀ (id : Nat) q', kv.sequences[id]? = some q' → ∃ q, w.kv.sequences[id]? = some q ∧
      q'.committedTokens = q.committedTokens ∧ q'.registeredBlocks = q.registeredBlocks ∧
      q'.chainHash = q.chainHash ∧ ∀ (i : Nat) p, q'.pages[i]? = some p → q.pages[i]? = some p) :
    Sound chain T { w with kv } := by
  constructor <;> dsimp only
  · exact hinv
  · intro id q' hq'
    obtain ⟨q, hq, hcom, -⟩ := htab id q' hq'
    rw [hcom]
    exact h.length id q hq
  · intro id q' i p hq' hi hp
    obtain ⟨q, hq, hcom, -, -, hpages⟩ := htab id q' hq'
    rw [hc] at hp ⊢
    exact h.filled id q i p hq (hcom ▸ hi) (hpages _ _ hp)
  · intro p b hpb
    obtain ⟨b', hb', hkey⟩ := hb p b hpb
    obtain ⟨t, ht, n, hn, hk, hold⟩ := h.cached p b' hb'
    refine ⟨t, ht, n, by rwa [hc], by rw [← hkey, hk, hc], fun o ho => ?_⟩
    dsimp only at ho ⊢
    rw [hc] at ho ⊢
    exact hold o ho
  · intro id q' hq'
    obtain ⟨q, hq, -, hreg, hchain, -⟩ := htab id q' hq'
    rw [hc, hreg, hchain]
    exact h.chained id q hq

theorem Sound.scribble (h : Sound chain T w) (hinv : Inv kv) (hg : Grew w.kv id q q' kv) :
    Sound chain T (w.scribble kv id) := by
  obtain ⟨ps, hpages, hnew⟩ := hg.pages
  have hget : kv.sequences[id]? = some q' := by rw [hg.sequences]; simp
  have hdrop : q'.pages.drop q.pages.length = ps := by rw [hpages, List.drop_left]
  have hscr : w.scribble kv id = { w with
      kv
      slots := fun p o => if p ∈ ps ∨ (slotPosition q'.pages kv.config.blockSize
        q'.committedTokens (q'.pages.length * kv.config.blockSize) p o).isSome then none
        else w.slots p o } := by
    simp only [World.scribble, hg.found, hget, hdrop]
  -- every sequence keeps its committed tokens and the pages that hold them
  have htab : ∀ (j : Nat) q₂, kv.sequences[j]? = some q₂ → ∃ q₁, w.kv.sequences[j]? = some q₁ ∧
      q₂.committedTokens = q₁.committedTokens ∧ q₂.registeredBlocks = q₁.registeredBlocks ∧
      q₂.chainHash = q₁.chainHash ∧
      ∀ i < q₁.committedTokens, q₂.pages[i / w.kv.config.blockSize]? =
        q₁.pages[i / w.kv.config.blockSize]? := by
    intro j q₂ hq₂
    rw [hg.sequences, BTreeMap.get_insert] at hq₂
    split at hq₂
    · next hj =>
      cases hq₂
      refine ⟨q, hj ▸ hg.found, hg.committed, hg.registered, hg.chainHash, fun i hi => ?_⟩
      have hcov := h.inv.seq.covers hg.found
      have hlt : i / w.kv.config.blockSize < q.pages.length := by
        refine lt_of_lt_of_le ((lt_divCeil_iff h.inv.seq.blockSize).mpr ?_) hcov
        exact (Nat.div_mul_le_self _ _).trans_lt hi
      rw [hpages, List.getElem?_append_left hlt]
    · exact ⟨q₂, hq₂, rfl, rfl, rfl, fun _ _ => rfl⟩
  rw [hscr]
  constructor <;> dsimp only
  · exact hinv
  · intro j q₂ hq₂
    obtain ⟨q₁, hq₁, hcom, -⟩ := htab j q₂ hq₂
    rw [hcom]
    exact h.length j q₁ hq₁
  · intro j q₂ i p hq₂ hi hp
    obtain ⟨q₁, hq₁, hcom, -, -, hsame⟩ := htab j q₂ hq₂
    have hp₁ : q₁.pages[i / w.kv.config.blockSize]? = some p := by
      rw [← hsame i (hcom ▸ hi), ← hp, hg.config]
    rw [if_neg, hg.config]
    · exact h.filled j q₁ i p hq₁ (hcom ▸ hi) hp₁
    · rintro (hmem | hslot)
      · have := occurrences_pos hq₁ (List.mem_of_getElem? hp₁)
        have := hnew p hmem
        omega
      · obtain ⟨k, hk⟩ := Option.isSome_iff_exists.mp hslot
        obtain ⟨hk₁, -, hkp, hkm⟩ := slotPosition_eq_some hk
        exact hinv.slot_disjoint hget hk₁ hkp hq₂ hi hp hkm.symm
  · intro p b hpb
    obtain ⟨b', hb', hkey⟩ := hg.blocks p b hpb
    obtain ⟨t, ht, n, hn, hk, hold⟩ := h.cached p b' hb'
    refine ⟨t, ht, n, by rwa [hg.config], by rw [← hkey, hk, hg.config], fun o ho => ?_⟩
    dsimp only at ho ⊢
    rw [hg.config] at ho ⊢
    rw [if_neg]
    · exact hold o ho
    · -- a published page is neither new nor past the committed tokens
      rintro (hmem | hslot)
      · obtain ⟨k, hk⟩ := List.mem_iff_getElem?.mp hmem
        have hidx : q'.pages[q.pages.length + k]? = some p := by
          rw [hpages, List.getElem?_append_right (Nat.le_add_right _ _), Nat.add_sub_cancel_left, hk]
        have hle : q'.committedTokens / kv.config.blockSize ≤ q.pages.length + k := by
          rw [hg.committed, hg.config]
          exact ((div_le_divCeil h.inv.seq.blockSize).trans (h.inv.seq.covers hg.found)).trans
            (Nat.le_add_right _ _)
        have := (hinv.tail id q' _ p hget hle hidx).2
        simp [hpb] at this
      · obtain ⟨k, hk⟩ := Option.isSome_iff_exists.mp hslot
        rw [← hg.config] at hk
        obtain ⟨hk₁, -, hkp, -⟩ := slotPosition_eq_some hk
        have := (hinv.tail id q' _ p hget (Nat.div_le_div_right hk₁) hkp).2
        simp [hpb] at this
  · intro j q₂ hq₂
    obtain ⟨q₁, hq₁, -, hreg, hchain, -⟩ := htab j q₂ hq₂
    rw [hg.config, hreg, hchain]
    exact h.chained j q₁ hq₁

/-- A row is committed: its slots now hold the extended prefixes. -/
theorem Sound.fill {rid : KvReservationId} {r : ReservationState} {count : Nat}
    (written : KvReservationId → List Token) (h : Sound chain T w)
    (hr : w.kv.reservations[rid]? = some r) (hq : w.kv.sequences[r.requestId]? = some q)
    (hok : PendingOk w.kv.config rid r q) (hlen : (written rid).length = r.tokenCount)
    (hc : count ≤ r.tokenCount) (hinv : Inv kv)
    (hsame : SameTables (settle w.kv r.requestId (finished w.kv r q count) rid) kv)
    (hb : BlocksShrink w.kv kv) :
    Sound chain T { World.fill w.kv written w (rid, count) with kv } := by
  have hcfg : kv.config = w.kv.config := hsame.config
  let new := w.tokens r.requestId ++ (written rid).take count
  have hold : (w.tokens r.requestId).length = r.startPosition := by
    rw [h.length _ q hq, hok.start]
  have hnew : new.length = r.startPosition + count := by
    simp only [new, List.length_append, hold, List.length_take, hlen]
    omega
  have hfill : World.fill w.kv written w (rid, count) = { w with
      tokens := Function.update w.tokens r.requestId new
      slots := fun p o =>
        match slotPosition q.pages w.kv.config.blockSize r.startPosition
          (r.startPosition + count) p o with
        | some i => some (new.take (i + 1))
        | none => w.slots p o } := by
    simp only [World.fill, hr, hq, new]
  have htab : ∀ (j : Nat) q₂, kv.sequences[j]? = some q₂ →
      (j = r.requestId ∧ q₂ = finished w.kv r q count) ∨ (j ≠ r.requestId ∧ w.kv.sequences[j]? = some q₂) := by
    intro j q₂ hq₂
    rw [hsame.sequences, settle_get] at hq₂
    split at hq₂
    · next hj => exact .inl ⟨hj, by simpa using hq₂.symm⟩
    · next hj => exact .inr ⟨hj, hq₂⟩
  -- slots of other committed positions are not written
  have hother : ∀ (j : Nat) q₁ i p, w.kv.sequences[j]? = some q₁ → i < q₁.committedTokens →
      q₁.pages[i / w.kv.config.blockSize]? = some p →
      slotPosition q.pages w.kv.config.blockSize r.startPosition (r.startPosition + count) p
        (i % w.kv.config.blockSize) = none := by
    intro j q₁ i p hq₁ hi hp
    by_contra hne
    obtain ⟨k, hk⟩ := Option.ne_none_iff_exists'.mp hne
    obtain ⟨hk₁, -, hkp, hkm⟩ := slotPosition_eq_some hk
    exact h.inv.slot_disjoint hq (hok.start ▸ hk₁) hkp hq₁ hi hp hkm.symm
  rw [hfill]
  constructor <;> dsimp only
  · exact hinv
  · intro j q₂ hq₂
    rcases htab j q₂ hq₂ with ⟨rfl, rfl⟩ | ⟨hj, hq₁⟩
    · rw [Function.update_self, hnew]
      rfl
    · rw [Function.update_of_ne hj]
      exact h.length j q₂ hq₁
  · intro j q₂ i p hq₂ hi hp
    rw [hcfg] at hp ⊢
    rcases htab j q₂ hq₂ with ⟨rfl, rfl⟩ | ⟨hj, hq₁⟩
    · have hp₁ : q.pages[i / w.kv.config.blockSize]? = some p := by
        simp only [finished, List.getElem?_take] at hp
        split at hp
        · exact hp
        · cases hp
      have hi : i < r.startPosition + count := hi
      rw [Function.update_self]
      by_cases hlt : i < r.startPosition
      · -- committed before
        rw [hother _ q i p hq (hok.start ▸ hlt) hp₁]
        refine (h.filled _ q i p hq (hok.start ▸ hlt) hp₁).trans ?_
        rw [List.take_append_of_le_length (by omega)]
      · cases hk : slotPosition q.pages w.kv.config.blockSize r.startPosition
            (r.startPosition + count) p (i % w.kv.config.blockSize) with
        | none => exact absurd rfl (slotPosition_eq_none hk i (Nat.not_lt.mp hlt) hi hp₁)
        | some k =>
          -- the slot found is the slot of `i`, since the page occurs once
          obtain ⟨hk₁, -, hkp, hkm⟩ := slotPosition_eq_some hk
          have h1 := (h.inv.tail _ q _ p hq (Nat.div_le_div_right (hok.start ▸ hk₁)) hkp).1
          have hdiv : k / w.kv.config.blockSize = i / w.kv.config.blockSize := by
            by_contra hne
            have := occurrences_two hq hq hkp hp₁ fun he => hne (Prod.mk.inj he).2
            omega
          have hki : k = i := by
            rw [← Nat.div_add_mod k w.kv.config.blockSize,
              ← Nat.div_add_mod i w.kv.config.blockSize, hdiv, hkm]
          rw [hki]
    · rw [Function.update_of_ne hj, hother j q₂ i p hq₁ hi hp]
      exact h.filled j q₂ i p hq₁ hi hp
  · intro p b hpb
    obtain ⟨b', hb', hkey⟩ := hb p b hpb
    obtain ⟨t, ht, n, hn, hk, hold⟩ := h.cached p b' hb'
    refine ⟨t, ht, n, by rwa [hcfg], by rw [← hkey, hk, hcfg], fun o ho => ?_⟩
    dsimp only at ho ⊢
    rw [hcfg] at ho ⊢
    cases hk : slotPosition q.pages w.kv.config.blockSize r.startPosition
        (r.startPosition + count) p o with
    | none => exact hold o ho
    | some k =>
      obtain ⟨hk₁, -, hkp, -⟩ := slotPosition_eq_some hk
      have := (h.inv.tail _ q _ p hq (Nat.div_le_div_right (hok.start ▸ hk₁)) hkp).2
      simp [hb'] at this
  · intro j q₂ hq₂
    rw [hcfg]
    rcases htab j q₂ hq₂ with ⟨rfl, rfl⟩ | ⟨hj, hq₁⟩
    · rw [Function.update_self]
      refine (h.chained _ q hq).trans (chainAt_congr ?_)
      have hreg := h.inv.seq.registered _ q hq
      rw [← hok.start, ← hold] at hreg
      exact (List.take_append_of_le_length hreg).symm
    · rw [Function.update_of_ne hj]
      exact h.chained j q₂ hq₁

theorem fill_congr {s s' : PagedKvCacheManager} {written : KvReservationId → List Token}
    {row : KvReservationId × Nat} (hc : s'.config = s.config)
    (hr : s'.reservations[row.1]? = s.reservations[row.1]?)
    (hq : ∀ r, s.reservations[row.1]? = some r → s'.sequences[r.requestId]? = s.sequences[r.requestId]?) :
    World.fill s' written w row = World.fill s written w row := by
  unfold World.fill
  rw [hr]
  cases hr' : s.reservations[row.1]? with
  | none => rfl
  | some r =>
    dsimp only
    rw [hq r hr', hc]

theorem Sound.commitRows {rows : List (KvReservationId × Nat)}
    {written : KvReservationId → List Token} (h : Sound chain T w) (hrows : RowsOk w.kv rows)
    (hwritten : ∀ (rid : Nat) r, w.kv.reservations[rid]? = some r →
      (written rid).length = r.tokenCount) :
    Triple (PagedKvCacheManager.commitRows rows) w.kv
      (fun _ kv => Sound chain T (w.fillAll kv written rows)) (fun _ _ => False) := by
  -- what is left to fill reads the same from the state reached as from the first
  let J : List (KvReservationId × Nat) → PagedKvCacheManager → Prop := fun rest s =>
    ∃ g : World, Sound chain T { g with kv := s } ∧ RowsOk s rest ∧
      (∀ (rid : Nat) r, s.reservations[rid]? = some r → (written rid).length = r.tokenCount) ∧
      rest.foldl (World.fill s written) g = rows.foldl (World.fill w.kv written) w
  refine (commitRows_rule (J := J) ⟨w, h, hrows, hwritten, rfl⟩ ?_).mono ?_ (fun _ _ h => h)
  · rintro rid count rest s ⟨g, hg, hro, hwr, hfold⟩
    obtain ⟨r, hr, hc⟩ := hro.2 (rid, count) (by simp)
    refine (commitRow_ok hg.inv hr hc).mono ?_ (fun _ _ h => h)
    rintro _ s₁ ⟨hinv, q, hq, hok, hsame, hb⟩
    have hfill := hg.fill written hr hq hok (hwr rid r hr) hc hinv hsame hb
    have hres : ∀ j : Nat, s₁.reservations[j]? = if j = rid then none else s.reservations[j]? :=
      fun j => by rw [hsame.reservations]; exact BTreeMap.get_erase ..
    refine ⟨World.fill s written g (rid, count), ?_, hro.tail hsame, ?_, ?_⟩
    · have hkv : World.fill s written { g with kv := s } (rid, count) =
          { World.fill s written g (rid, count) with kv := s } := by
        simp only [World.fill, hr, hq]
      rwa [hkv] at hfill
    · intro j r₂ hr₂
      rw [hres] at hr₂
      split at hr₂
      · cases hr₂
      · exact hwr j r₂ hr₂
    · rw [← hfold, List.foldl_cons]
      refine List.foldl_ext _ _ _ fun g' row hrow => fill_congr hsame.config ?_ fun r₂ hr₂ => ?_
      · have hne : row.1 ≠ rid := fun he =>
          (List.nodup_cons.mp hro.1).1 (List.mem_map.mpr ⟨row, hrow, he⟩)
        rw [hres, if_neg hne]
      · have hne : r₂.requestId ≠ r.requestId := by
          intro hid
          obtain ⟨q₂, hq₂, hok₂⟩ := hg.inv.seq.reserved row.1 r₂ hr₂
          obtain rfl : q₂ = q := by simpa [hid, hq] using hq₂.symm
          have hrid : row.1 = rid := by simpa [hok.pending] using hok₂.pending.symm
          exact (List.nodup_cons.mp hro.1).1 (List.mem_map.mpr ⟨row, hrow, hrid⟩)
        rw [hsame.sequences, settle_get, if_neg hne]
  · rintro _ s₁ ⟨g, hg, -, -, hfold⟩
    have : w.fillAll s₁ written rows = { g with kv := s₁ } := by
      rw [World.fillAll, ← hfold]
      rfl
    rwa [this]

theorem Sound.create (h : Sound chain T w) (hnone : w.kv.sequences[id]? = none) :
    Sound chain T { w with
      kv := w.kv.putSequence id emptySequence, tokens := Function.update w.tokens id [] } := by
  constructor <;> dsimp only
  · exact h.inv.create hnone
  · intro j q hq
    rw [putSequence_get] at hq
    split at hq
    · next hj =>
      cases hq
      simp [hj, emptySequence]
    · next hj =>
      rw [Function.update_of_ne hj]
      exact h.length j q hq
  · intro j q i p hq hi hp
    rw [putSequence_get] at hq
    split at hq
    · cases hq
      simp [emptySequence] at hi
    · next hj =>
      rw [Function.update_of_ne hj]
      exact h.filled j q i p hq hi hp
  · exact h.cached
  · intro j q hq
    rw [putSequence_get] at hq
    split at hq
    · cases hq
      rfl
    · next hj =>
      rw [Function.update_of_ne hj]
      exact h.chained j q hq

theorem Sound.cachedPages (h : Sound chain T w)
    (hinj : ChainInjective chain w.kv.config.blockSize T)
    (hroot : ChainLeavesRoot chain w.kv.config.blockSize T) (ht : t ∈ T) (n : Nat)
    (hp : (Kv.cachedPages chain w.kv t).1[n]? = some p) :
    (n + 1) * w.kv.config.blockSize ≤ t.length ∧ Holds w p t n := by
  have hlt := (List.getElem?_eq_some_iff.mp hp).1
  have husable : n + 1 ≤ usableBlocks w.kv t := hlt.trans_le (cachedPrefix_length_le ..)
  have hlen : (n + 1) * w.kv.config.blockSize ≤ t.length := by
    unfold usableBlocks at husable
    split at husable
    · have := (Nat.le_div_iff_mul_le h.inv.seq.blockSize).mp husable
      omega
    · omega
  have hindex := (cachedPrefix_keys (usableBlocks w.kv t) 0).2 n p hp
  rw [Nat.zero_add] at hindex
  obtain ⟨b, hb, hkey⟩ := (h.inv.pages.index _ p).mp hindex
  obtain ⟨t', ht', m, hm, hk, hold⟩ := h.cached p b hb
  obtain ⟨hhash, hblock⟩ := Prod.mk.inj (hkey.symm.trans hk)
  have hn' := (Nat.mul_le_mul_right w.kv.config.blockSize (Nat.le_succ n)).trans hlen
  have hm' := (Nat.mul_le_mul_right w.kv.config.blockSize (Nat.le_succ m)).trans hm
  obtain ⟨rfl, htake⟩ := take_eq_of_chainAt_eq hinj hroot ht ht' hn' hm' hhash
  refine ⟨hlen, fun o ho => (hold o ho).trans ?_⟩
  -- both lists agree up to the end of this block
  have hblocks : t.take ((n + 1) * w.kv.config.blockSize) = t'.take ((n + 1) * w.kv.config.blockSize) := by
    rw [take_succ_block, take_succ_block, htake, hblock]
  have hle : n * w.kv.config.blockSize + o + 1 ≤ (n + 1) * w.kv.config.blockSize := by
    rw [Nat.succ_mul]
    omega
  have := congrArg (List.take (n * w.kv.config.blockSize + o + 1)) hblocks
  rw [List.take_take, List.take_take, Nat.min_eq_left hle] at this
  rw [this]

theorem Sound.adopt (h : Sound chain T w)
    (hinj : ChainInjective chain w.kv.config.blockSize T)
    (hroot : ChainLeavesRoot chain w.kv.config.blockSize T) (ht : t ∈ T) (hinv : Inv kv)
    (hc : kv.config = w.kv.config) (hb : BlocksShrink w.kv kv)
    (hseq : kv.sequences = w.kv.sequences.insert id (adopted w.kv.config.blockSize
      (Kv.cachedPages chain w.kv t).1 (Kv.cachedPages chain w.kv t).2)) :
    Sound chain T (w.after kv written (.createSequenceWithPrefix id t)) := by
  let pages := (Kv.cachedPages chain w.kv t).1
  have hget : kv.sequences[id]? = some (adopted w.kv.config.blockSize pages
      (Kv.cachedPages chain w.kv t).2) := by rw [hseq]; simp [pages]
  have hlen : pages.length * w.kv.config.blockSize ≤ t.length := by
    cases hn : pages.length with
    | zero => simp
    | succ n =>
      have hp : pages[n]? = some pages[n] := List.getElem?_eq_getElem (by omega)
      exact (h.cachedPages hinj hroot ht n hp).1
  have hafter : w.after kv written (.createSequenceWithPrefix id t) = { w with
      kv, tokens := Function.update w.tokens id (t.take (pages.length * w.kv.config.blockSize)) } := by
    simp only [World.after, hget]
    rfl
  rw [hafter]
  constructor <;> dsimp only
  · exact hinv
  · intro j q hq
    rw [hseq, BTreeMap.get_insert] at hq
    split at hq
    · next hj =>
      cases hq
      rw [hj, Function.update_self, List.length_take, Nat.min_eq_left hlen]
      rfl
    · next hj =>
      rw [Function.update_of_ne hj]
      exact h.length j q hq
  · intro j q i p hq hi hp
    rw [hc] at hp ⊢
    rw [hseq, BTreeMap.get_insert] at hq
    split at hq
    · next hj =>
      cases hq
      have hi : i < pages.length * w.kv.config.blockSize := hi
      obtain ⟨-, hold⟩ := h.cachedPages hinj hroot ht _ hp
      rw [hj, Function.update_self, hold _ (Nat.mod_lt _ h.inv.seq.blockSize), Nat.mul_comm,
        Nat.div_add_mod, List.take_take, Nat.min_eq_left hi]
    · next hj =>
      rw [Function.update_of_ne hj]
      exact h.filled j q i p hq hi hp
  · intro p b hpb
    obtain ⟨b', hb', hkey⟩ := hb p b hpb
    obtain ⟨t, ht, n, hn, hk, hold⟩ := h.cached p b' hb'
    refine ⟨t, ht, n, by rwa [hc], by rw [← hkey, hk, hc], fun o ho => ?_⟩
    dsimp only at ho ⊢
    rw [hc] at ho ⊢
    exact hold o ho
  · intro j q hq
    rw [hseq, BTreeMap.get_insert] at hq
    rw [hc]
    split at hq
    · next hj =>
      cases hq
      rw [hj, Function.update_self]
      refine ((cachedPrefix_keys (usableBlocks w.kv t) 0).1).trans ?_
      rw [Nat.zero_add]
      exact (chainAt_take le_rfl).symm
    · next hj =>
      rw [Function.update_of_ne hj]
      exact h.chained j q hq

theorem publishBlocks_keys {tokens : List Token} {pages : List KvPageId} {s : PagedKvCacheManager}
    (n block : Nat) (size : Nat) (hsize : s.config.blockSize = size) :
    Triple (publishBlocks chain tokens pages n block (chainAt chain size tokens block)) s
      (fun parent s' => parent = chainAt chain size tokens (block + n) ∧
        ∀ p b, s'.pageBlocks p = some b → s.pageBlocks p = some b ∨ ∃ i, block ≤ i ∧ i < block + n ∧
          pages[i]? = some p ∧ b.key = (chainAt chain size tokens i, blockOf tokens size i))
      (fun f _ => f.IsPanic) := by
  induction n generalizing block s with
  | zero => exact Triple.pure' ⟨rfl, fun p b hb => .inl hb⟩
  | succ n ih =>
    unfold publishBlocks
    refine Triple.get_bind (Triple.expect_bind (fun _ => trivial) fun page hpage => ?_)
    rw [hsize]
    refine Triple.ite (fun _ => Triple.set_bind ?_) fun _ => ?_
    · refine (ih (block + 1) (by exact hsize)).mono ?_ (fun _ _ h => h)
      rintro parent s₂ ⟨hparent, hkeys⟩
      refine ⟨by rw [hparent]; congr 1; omega, fun p b hb => ?_⟩
      rcases hkeys p b hb with hb | ⟨i, hi, hi', hp, hk⟩
      · dsimp only at hb
        by_cases hpp : p = page
        · subst hpp
          rw [Function.update_self] at hb
          cases hb
          exact .inr ⟨block, le_rfl, by omega, hpage, rfl⟩
        · rw [Function.update_of_ne hpp] at hb
          exact .inl hb
      · exact .inr ⟨i, by omega, by omega, hp, hk⟩
    · refine (ih (block + 1) (by exact hsize)).mono ?_ (fun _ _ h => h)
      rintro parent s₂ ⟨hparent, hkeys⟩
      refine ⟨by rw [hparent]; congr 1; omega, fun p b hb => ?_⟩
      rcases hkeys p b hb with hb | ⟨i, hi, hi', hp, hk⟩
      · exact .inl hb
      · exact .inr ⟨i, by omega, by omega, hp, hk⟩

theorem registerPrefix_keys {tokens : List Token} {s : PagedKvCacheManager}
    (hchain : ∀ q, s.sequences[id]? = some q → q.registeredBlocks < completeBlocks s q tokens →
      q.chainHash = chainAt chain s.config.blockSize tokens q.registeredBlocks) :
    Triple (PagedKvCacheManager.registerPrefix chain id tokens) s
      (fun _ s' => s' = s ∨ ∃ q parent, s.sequences[id]? = some q ∧ s'.config = s.config ∧
        s'.sequences = s.sequences.insert id (published q (completeBlocks s q tokens) parent) ∧
        parent = (if q.registeredBlocks < completeBlocks s q tokens
          then chainAt chain s.config.blockSize tokens (completeBlocks s q tokens) else q.chainHash) ∧
        ∀ p b, s'.pageBlocks p = some b → s.pageBlocks p = some b ∨ ∃ i,
          i < completeBlocks s q tokens ∧ q.pages[i]? = some p ∧
          b.key = (chainAt chain s.config.blockSize tokens i, blockOf tokens s.config.blockSize i))
      (fun f s' => f.IsPanic ∨ s' = s) := by
  refine registerPrefix_rule (fun _ _ => .inr rfl) (.inl rfl) fun q _ hq => ?_
  by_cases hlt : q.registeredBlocks < completeBlocks s q tokens
  · rw [hchain q hq hlt]
    refine ((publishBlocks_tables ..).and (publishBlocks_keys _ _ _ rfl)).mono ?_
      (fun _ _ h => .inl h.2)
    rintro parent s₁ ⟨hsame, hparent, hkeys⟩
    refine .inr ⟨q, parent, hq, hsame.config, by rw [← hsame.sequences]; rfl, ?_, ?_⟩
    · rw [if_pos hlt, hparent]
      congr 1
      omega
    · intro p b hb
      rcases hkeys p b hb with hb | ⟨i, -, hi, hp, hk⟩
      · exact .inl hb
      · exact .inr ⟨i, by omega, hp, hk⟩
  · rw [Nat.sub_eq_zero_of_le (Nat.not_lt.mp hlt)]
    refine Triple.pure' (.inr ⟨q, _, hq, rfl, rfl, (if_neg hlt).symm, fun p b hb => .inl hb⟩)

theorem take_eq_of_prefix_or {t t' : List Token} {n : Nat} (h : t <+: t' ∨ t' <+: t)
    (hn : n ≤ t.length) (hn' : n ≤ t'.length) : t.take n = t'.take n := by
  rcases h with ⟨rest, rfl⟩ | ⟨rest, rfl⟩
  · rw [List.take_append_of_le_length hn]
  · rw [List.take_append_of_le_length hn']

theorem Sound.registerPrefix (h : Sound chain T w) (ht : t ∈ T)
    (htrue : t <+: w.tokens id ∨ w.tokens id <+: t) :
    Triple (PagedKvCacheManager.registerPrefix chain id t) w.kv
      (fun _ kv => Sound chain T { w with kv }) (fun f kv => ¬f.IsPanic ∧ kv = w.kv) := by
  have hagree : ∀ q n, w.kv.sequences[id]? = some q →
      n * w.kv.config.blockSize ≤ min q.committedTokens t.length →
      t.take (n * w.kv.config.blockSize) = (w.tokens id).take (n * w.kv.config.blockSize) := by
    intro q n hq hn
    have hlen := h.length id q hq
    exact take_eq_of_prefix_or htrue (by omega) (by omega)
  have hcomplete : ∀ q n, n ≤ completeBlocks w.kv q t →
      n * w.kv.config.blockSize ≤ min q.committedTokens t.length := fun q n hn =>
    (Nat.mul_le_mul_right _ hn).trans (Nat.div_mul_le_self _ _)
  have hchain : ∀ q, w.kv.sequences[id]? = some q → q.registeredBlocks < completeBlocks w.kv q t →
      q.chainHash = chainAt chain w.kv.config.blockSize t q.registeredBlocks := fun q hq hlt =>
    (h.chained id q hq).trans (chainAt_congr (hagree q _ hq (hcomplete q _ hlt.le)).symm)
  refine ((registerPrefix_ok h.inv).and (registerPrefix_keys hchain)).mono ?_ fun _ _ h => h.1
  rintro _ kv ⟨⟨hinv, -⟩, rfl | ⟨q, parent, hq, hc, hseq, hparent, hblocks⟩⟩
  · exact h
  have htab : ∀ (j : Nat) q₂, kv.sequences[j]? = some q₂ → ∃ q₁, w.kv.sequences[j]? = some q₁ ∧
      q₂.committedTokens = q₁.committedTokens ∧ q₂.pages = q₁.pages := by
    intro j q₂ hq₂
    rw [hseq, BTreeMap.get_insert] at hq₂
    split at hq₂
    · next hj =>
      cases hq₂
      exact ⟨q, hj ▸ hq, rfl, rfl⟩
    · exact ⟨q₂, hq₂, rfl, rfl⟩
  constructor <;> dsimp only
  · exact hinv
  · intro j q₂ hq₂
    obtain ⟨q₁, hq₁, hcom, -⟩ := htab j q₂ hq₂
    rw [hcom]
    exact h.length j q₁ hq₁
  · intro j q₂ i p hq₂ hi hp
    obtain ⟨q₁, hq₁, hcom, hpages⟩ := htab j q₂ hq₂
    rw [hc] at hp ⊢
    exact h.filled j q₁ i p hq₁ (hcom ▸ hi) (hpages ▸ hp)
  · intro p b hpb
    unfold Holds
    dsimp only
    rw [hc]
    rcases hblocks p b hpb with hb | ⟨i, hi, hp, hk⟩
    · exact h.cached p b hb
    · -- a newly published block holds the tokens committed into it
      have hlen := hcomplete q (i + 1) hi
      refine ⟨t, ht, i, by omega, hk, fun o ho => ?_⟩
      have hpos : i * w.kv.config.blockSize + o + 1 ≤ (i + 1) * w.kv.config.blockSize := by
        rw [Nat.succ_mul]
        omega
      have hdiv : (i * w.kv.config.blockSize + o) / w.kv.config.blockSize = i := by
        rw [Nat.mul_comm, Nat.mul_add_div h.inv.seq.blockSize, Nat.div_eq_of_lt ho, Nat.add_zero]
      have hmod : (i * w.kv.config.blockSize + o) % w.kv.config.blockSize = o := by
        rw [Nat.mul_comm, Nat.mul_add_mod, Nat.mod_eq_of_lt ho]
      have hfilled := h.filled id q (i * w.kv.config.blockSize + o) p hq (by omega) (by rwa [hdiv])
      rw [hmod] at hfilled
      rw [hfilled, take_eq_of_prefix_or htrue (by omega) (by rw [h.length id q hq]; omega)]
  · intro j q₂ hq₂
    rw [hc]
    rw [hseq, BTreeMap.get_insert] at hq₂
    split at hq₂
    · next hj =>
      cases hq₂
      simp only [published, hparent, hj]
      split
      · next hlt =>
        rw [Nat.max_eq_right hlt.le]
        exact chainAt_congr (hagree q _ hq (hcomplete q _ le_rfl))
      · next hlt =>
        rw [Nat.max_eq_left (Nat.not_lt.mp hlt)]
        exact h.chained id q hq
    · exact h.chained j q₂ hq₂

-- Runs

theorem World.run_rule {call : (KvReservationId → List Token) × KvOp} {P : World → Prop}
    (h : Triple (call.2.run chain) w.kv (fun _ kv => P (w.after kv call.1 call.2))
      (fun f kv => ¬f.IsPanic ∧ kv = w.kv)) :
    Triple (World.run chain call) w (fun _ => P) (fun f w' => ¬f.IsPanic ∧ w' = w) := by
  refine Triple.get_bind (Triple.bind (Q := fun _ w' => P (w.after w'.kv call.1 call.2)) ?_ ?_)
  · refine Triple.zoom (h.mono (fun _ _ h => h) ?_)
    rintro f _ ⟨hf, rfl⟩
    exact ⟨hf, rfl⟩
  · exact fun _ w' h => Triple.modify' h

theorem fill_zero {s : PagedKvCacheManager} {written : KvReservationId → List Token}
    {rid : KvReservationId} : World.fill s written w (rid, 0) = w := by
  have hslot : ∀ pages size start p o, slotPosition pages size start (start + 0) p o = none := by
    intro pages size start p o
    cases h : slotPosition pages size start (start + 0) p o with
    | none => rfl
    | some i =>
      obtain ⟨h1, h2, -⟩ := slotPosition_eq_some h
      omega
  unfold World.fill
  cases s.reservations[(rid, 0).1]? with
  | none => rfl
  | some r =>
    cases hq : s.sequences[r.requestId]? with
    | none => simp only [hq]
    | some q => simp only [hq, hslot, List.take_zero, List.append_nil, Function.update_eq_self]

theorem fillAll_cancelRows {written : KvReservationId → List Token} (ids : List KvReservationId) :
    w.fillAll kv written (cancelRows ids) = { w with kv } := by
  have : (cancelRows ids).foldl (World.fill w.kv written) w = w := by
    induction ids with
    | nil => rfl
    | cons id ids ih =>
      rw [show cancelRows (id :: ids) = (id, 0) :: cancelRows ids from rfl, List.foldl_cons, fill_zero, ih]
  rw [World.fillAll, this]

theorem World.run_sound {call : (KvReservationId → List Token) × KvOp} (h : Sound chain T w)
    (hinj : ChainInjective chain w.kv.config.blockSize T)
    (hroot : ChainLeavesRoot chain w.kv.config.blockSize T) (hok : World.CallOk chain T w call) :
    Triple (World.run chain call) w (fun _ w' => Sound chain T w')
      (fun f w' => ¬f.IsPanic ∧ w' = w) := by
  obtain ⟨written, op⟩ := call
  refine World.run_rule ?_
  dsimp only
  have herr : ∀ msg, ¬(Fault.error msg).IsPanic ∧ w.kv = w.kv := fun _ => ⟨not_false, rfl⟩
  have hrows : ∀ {rows}, RowsOk w.kv rows → Triple (commitRows rows) w.kv
      (fun _ kv => Sound chain T (w.fillAll kv written rows)) (fun f kv => ¬f.IsPanic ∧ kv = w.kv) :=
    fun hr => (h.commitRows hr hok.written).mono (fun _ _ h => h) fun _ _ h => h.elim
  have hrow : ∀ {rid count r}, w.kv.reservations[rid]? = some r → count ≤ r.tokenCount →
      Triple (commitRow rid count) w.kv
        (fun _ kv => Sound chain T (w.fillAll kv written [(rid, count)]))
        (fun f kv => ¬f.IsPanic ∧ kv = w.kv) := by
    intro rid count r hr hc
    refine (commitRow_ok h.inv hr hc).mono ?_ fun _ _ h => h.elim
    rintro _ kv ⟨hinv, q, hq, hpend, hsame, hb⟩
    exact h.fill written hr hq hpend (hok.written rid r hr) hc hinv hsame hb
  cases op with
  | setPrefixCaching enabled =>
    refine (setPrefixCaching_ok enabled h.inv).mono ?_ nofun
    rintro _ kv ⟨hinv, hc, hseq, hb⟩
    exact h.shrink hinv hc hb fun id q hq => ⟨q, by rw [← hseq, hq], rfl, rfl, rfl, fun _ _ h => h⟩
  | createSequence id =>
    exact createSequence_rule (fun _ _ => ⟨not_false, rfl⟩) fun hnone => h.create hnone
  | createSequenceWithPrefix id tokens =>
    refine Triple.discard ((createSequenceWithPrefix_ok h.inv hok.refs).mono ?_ fun _ _ h => h)
    rintro n kv ⟨hinv, -, hc, hseq, hb⟩
    exact h.adopt hinj hroot hok.tokens hinv hc hb hseq
  | registerPrefix id tokens => exact h.registerPrefix hok.tokens.1 hok.tokens.2
  | beginAppend id n =>
    refine Triple.discard ((beginAppend_ok n h.inv).mono ?_ fun _ _ h => h)
    rintro _ kv ⟨hinv, q, q', hg⟩
    exact h.scribble hinv hg
  | extendAppend rid n =>
    refine Triple.discard ((extendAppend_ok n h.inv).mono ?_ fun _ _ h => h)
    rintro _ kv ⟨hinv, r, q, q', hr, hg⟩
    have hafter : w.after kv written (.extendAppend rid n) = w.scribble kv r.requestId := by
      simp only [World.after, hr]
    exact hafter ▸ h.scribble hinv hg
  | commitAppend rid =>
    refine Triple.discard (commitAppend_rule h.inv.seq herr fun r hr => ?_)
    have hfull : fullRows w.kv [rid] = [(rid, r.tokenCount)] := by simp [fullRows, hr]
    simp only [World.after, hfull]
    exact hrow hr le_rfl
  | commitAppendPartial rid n =>
    exact Triple.discard (commitAppendPartial_rule h.inv.seq herr fun r hr _ hc => hrow hr hc)
  | commitAppendPrefixes rows => exact Triple.discard (commitAppendPrefixes_rule herr hrows)
  | commitAppends ids => exact Triple.discard (commitAppends_rule h.inv.seq herr hrows)
  | cancelAppend rid =>
    refine cancelAppend_rule h.inv.seq herr fun r hr => ?_
    refine (hrow hr (Nat.zero_le _)).mono (fun _ kv hs => ?_) fun _ _ h => h
    rwa [show [(rid, 0)] = cancelRows [rid] from rfl, fillAll_cancelRows] at hs
  | cancelAppends ids =>
    refine cancelAppends_rule h.inv.seq herr fun hr => ?_
    refine (hrows hr).mono (fun _ kv hs => ?_) fun _ _ h => h
    rwa [fillAll_cancelRows] at hs
  | removeSequence id =>
    refine (removeSequence_ok h.inv).mono ?_ fun _ _ h => h
    rintro _ kv ⟨hinv, hsame, hb⟩
    refine h.shrink hinv hsame.config hb fun j q hq => ⟨q, ?_, rfl, rfl, rfl, fun _ _ h => h⟩
    have hget : (w.kv.sequences.erase id)[j]? = some q := by rw [← hq, hsame.sequences]
    rw [BTreeMap.get_erase] at hget
    split at hget
    · cases hget
    · exact hget

@[simp] theorem World.after_kv (written : KvReservationId → List Token) (op : KvOp) :
    (w.after kv written op).kv = kv := by
  have hscribble : ∀ id, (w.scribble kv id).kv = kv := fun id => by
    unfold World.scribble
    split <;> rfl
  cases op <;> simp only [World.after, World.fillAll, hscribble]
  split
  · exact hscribble _
  · rfl

theorem World.run_config {call : (KvReservationId → List Token) × KvOp} (h : Inv w.kv)
    (hok : World.CallOk chain T w call) :
    Triple (World.run chain call) w (fun _ w' => w'.kv.config = w.kv.config)
      (fun f w' => ¬f.IsPanic ∧ w' = w) := by
  refine World.run_rule ((call.2.run_ok h hok.refs).mono (fun _ kv h => ?_) fun _ _ h => h)
  rw [World.after_kv]
  exact h.2

theorem Sound.initial {config : PagedKvCacheConfig} (h : 0 < config.blockSize) :
    Sound chain T (World.initial config) := by
  refine ⟨Inv.initial h, ?_, ?_, ?_, ?_⟩ <;> simp [World.initial, PagedKvCacheManager.initial]

theorem Sound.of_reach {config : PagedKvCacheConfig} (h0 : 0 < config.blockSize)
    (hinj : ChainInjective chain config.blockSize T) (hroot : ChainLeavesRoot chain config.blockSize T)
    (h : Reach (World.run chain) (World.CallOk chain T) (World.initial config) w) :
    Sound chain T w ∧ w.kv.config = config := by
  refine h.inv (P := fun w => Sound chain T w ∧ w.kv.config = config) ⟨Sound.initial h0, rfl⟩ ?_
  rintro w call ⟨hs, hc⟩ hok
  rw [← hc] at hinj hroot
  refine ((World.run_sound hs hinj hroot hok).and (World.run_config hs.inv hok)).mono ?_ ?_
  · exact fun _ w' h => ⟨h.1, h.2.trans hc⟩
  · rintro f _ ⟨⟨-, rfl⟩, -⟩
    exact .inr ⟨hs, hc⟩

/-- Where the chain hash tells the occurring pairs apart and leaves the root, a
lookup maps exactly the pages that hold the prefixes it was asked for. -/
theorem prefix_cache_sound {config : PagedKvCacheConfig} {s₀ s' : PagedKvCacheManager} {m : Nat}
    (hnew : new config = .ok s₀) (hinj : ChainInjective chain config.blockSize T)
    (hroot : ChainLeavesRoot chain config.blockSize T)
    (h : Reach (World.run chain) (World.CallOk chain T) (World.initial config) w) (ht : t ∈ T)
    (hfit : (KvOp.createSequenceWithPrefix id t).RefsFit chain w.kv)
    (hret : (createSequenceWithPrefix chain id t).exec w.kv = (.ok m, s')) :
    m % config.blockSize = 0 ∧ m < max t.length 1 ∧ ∃ q, s'.sequences[id]? = some q ∧
      ∀ b < m / config.blockSize, ∃ p, q.pages[b]? = some p ∧ Holds w p t b := by
  have hbs := (new_eq_ok hnew).2.1
  obtain ⟨hs, rfl⟩ := Sound.of_reach hbs hinj hroot h
  obtain ⟨-, rfl, -, hseq, -⟩ := (createSequenceWithPrefix_ok hs.inv hfit).ok hret
  have hlen : (cachedPages chain w.kv t).1.length ≤ (t.length - 1) / w.kv.config.blockSize := by
    refine (cachedPrefix_length_le ..).trans ?_
    unfold usableBlocks
    split
    · exact le_rfl
    · exact Nat.zero_le _
  have hle := (Nat.le_div_iff_mul_le hbs).mp hlen
  refine ⟨Nat.mul_mod_left _ _, by omega, _, by rw [hseq, BTreeMap.get_insert, if_pos rfl], fun b hb => ?_⟩
  rw [Nat.mul_div_cancel _ hbs] at hb
  have hp := List.getElem?_eq_getElem hb
  exact ⟨_, hp, (hs.cachedPages hinj hroot ht b hp).2⟩

end

def twoPages : PagedKvCacheConfig := ⟨1, 2, 8, one_le_usizeMax, two_le_usizeMax, eight_le_usizeMax⟩

theorem new_twoPages : new twoPages = .ok (initial twoPages) := rfl

/-- Every call reports that the device wrote token 7. -/
def sevenWritten : KvReservationId → List Token := fun _ => [7]

def sevenHash : ChainHash := fun _ tokens => if tokens = [7] then 1 else 2

def sevenLists : Set (List Token) := {[7], [7, 8]}

theorem mem_chainPairs_seven {k : BlockKey} (h : k ∈ chainPairs sevenHash 1 sevenLists) :
    k = (chainRoot, [7]) ∨ k = (1, [8]) := by
  obtain ⟨t, ht, n, hn, rfl⟩ := h
  rcases ht with rfl | rfl
  · obtain rfl : n = 0 := by simpa using hn
    exact .inl rfl
  · have hn : n < 2 := by simpa using hn
    interval_cases n
    · exact .inl rfl
    · exact .inr rfl

theorem sevenHash_injective : ChainInjective sevenHash 1 sevenLists := by
  intro k hk k' hk' h
  rcases mem_chainPairs_seven hk with rfl | rfl <;> rcases mem_chainPairs_seven hk' with rfl | rfl <;>
    first | rfl | exact absurd h (by decide)

theorem sevenHash_leavesRoot : ChainLeavesRoot sevenHash 1 sevenLists := by
  intro k hk
  rcases mem_chainPairs_seven hk with rfl | rfl <;> decide

def sevenCalls : List ((KvReservationId → List Token) × KvOp) :=
  publishSeven.map fun op => (sevenWritten, op)

theorem sevenCalls_meet : allMeet (World.run sevenHash) (World.CallOk sevenHash sevenLists) sevenCalls
    (World.initial twoPages) := by
  have hnone : ∀ w : World, w.kv.reservations = ∅ → ∀ (rid : Nat) r,
      w.kv.reservations[rid]? = some r → (sevenWritten rid).length = r.tokenCount := by
    intro w hw rid r hr
    simp [hw] at hr
  have hone : ∀ w : World, w.kv.reservations =
      (∅ : BTreeMap ReservationState).insert 1 (begun 0 emptySequence 1) → ∀ (rid : Nat) r,
      w.kv.reservations[rid]? = some r → (sevenWritten rid).length = r.tokenCount := by
    intro w hw rid r hr
    rw [hw, BTreeMap.get_insert, BTreeMap.get_empty] at hr
    split at hr
    · cases hr
      rfl
    · cases hr
  exact ⟨⟨trivial, trivial, hnone _ (by decide)⟩, ⟨trivial, trivial, hnone _ (by decide)⟩,
    ⟨trivial, trivial, hnone _ (by decide)⟩, ⟨trivial, trivial, hone _ (by decide)⟩,
    ⟨trivial, ⟨.inl rfl, .inl (by decide)⟩, hnone _ (by decide)⟩, trivial⟩

/-- The world in which sequence 0 has published token 7. -/
def sevenWorld : World := runAll (World.run sevenHash) sevenCalls (World.initial twoPages)

theorem sevenWorld_refsFit :
    (KvOp.createSequenceWithPrefix 1 [7, 8]).RefsFit sevenHash sevenWorld.kv := by
  intro _ p
  have hrefs : sevenWorld.kv.pageRefs = Function.update (fun _ => 0) 0 1 := rfl
  have hpages : (cachedPages sevenHash sevenWorld.kv [7, 8]).1 = [0] := by decide
  rw [hrefs, hpages, Function.update_apply]
  have hcount := List.count_le_length (a := p) (l := [0])
  have hmax : 2 ≤ u32Max := by decide
  simp only [List.length_singleton] at hcount
  split <;> omega

theorem prefix_cache_sound_seven : ∃ q,
    ((createSequenceWithPrefix sevenHash 1 [7, 8]).next sevenWorld.kv).sequences[1]? = some q ∧
    ∀ b < 1, ∃ p, q.pages[b]? = some p ∧ Holds sevenWorld p [7, 8] b :=
  (prefix_cache_sound (m := 1) new_twoPages sevenHash_injective sevenHash_leavesRoot
    (Reach.of_allOk sevenCalls_meet (by decide)) (.inr rfl) sevenWorld_refsFit rfl).2.2

-- A hash that is injective on the pairs that occur and maps the first block of
-- `[1, 2, 9]` back to the root: block 1 of that list is looked up under the key of
-- block 0 of `[2]`.

def rootHash : ChainHash := fun _ tokens =>
  if tokens = [1] then chainRoot else if tokens = [2] then 5 else 6

def rootLists : Set (List Token) := {[2], [1], [1, 2, 9]}

theorem mem_chainPairs_root {k : BlockKey} (h : k ∈ chainPairs rootHash 1 rootLists) :
    k = (chainRoot, [2]) ∨ k = (chainRoot, [1]) ∨ k = (5, [9]) := by
  obtain ⟨t, ht, n, hn, rfl⟩ := h
  rcases ht with rfl | rfl | rfl
  · obtain rfl : n = 0 := by simpa using hn
    exact .inl rfl
  · obtain rfl : n = 0 := by simpa using hn
    exact .inr (.inl rfl)
  · have hn : n < 3 := by simpa using hn
    interval_cases n
    · exact .inr (.inl rfl)
    · exact .inl rfl
    · exact .inr (.inr rfl)

theorem rootHash_injective : ChainInjective rootHash 1 rootLists := by
  intro k hk k' hk' h
  rcases mem_chainPairs_root hk with rfl | rfl | rfl <;>
    rcases mem_chainPairs_root hk' with rfl | rfl | rfl <;>
    first | rfl | exact absurd h (by decide)

/-- Sequence 0 commits `[2]` under reservation 1, sequence 1 `[1]` under reservation 2. -/
def rootWritten : KvReservationId → List Token := fun rid => if rid = 1 then [2] else [1]

def rootCalls : List ((KvReservationId → List Token) × KvOp) :=
  [.setPrefixCaching true, .createSequence 0, .beginAppend 0 1, .commitAppend 1, .registerPrefix 0 [2],
    .createSequence 1, .beginAppend 1 1, .commitAppend 2, .registerPrefix 1 [1]].map
    fun op => (rootWritten, op)

theorem rootCalls_meet : allMeet (World.run rootHash) (World.CallOk rootHash rootLists) rootCalls
    (World.initial twoPages) := by
  have hnone : ∀ w : World, w.kv.reservations = ∅ → ∀ (rid : Nat) r,
      w.kv.reservations[rid]? = some r → (rootWritten rid).length = r.tokenCount := by
    intro w hw rid r hr
    simp [hw] at hr
  have hone : ∀ (w : World) (j id : Nat), w.kv.reservations =
      (∅ : BTreeMap ReservationState).insert j (begun id emptySequence 1) → ∀ (rid : Nat) r,
      w.kv.reservations[rid]? = some r → (rootWritten rid).length = r.tokenCount := by
    intro w j id hw rid r hr
    rw [hw, BTreeMap.get_insert, BTreeMap.get_empty] at hr
    split at hr
    · cases hr
      unfold rootWritten
      split <;> rfl
    · cases hr
  exact ⟨⟨trivial, trivial, hnone _ (by decide)⟩, ⟨trivial, trivial, hnone _ (by decide)⟩,
    ⟨trivial, trivial, hnone _ (by decide)⟩, ⟨trivial, trivial, hone _ 1 0 (by decide)⟩,
    ⟨trivial, ⟨.inl rfl, .inl (by decide)⟩, hnone _ (by decide)⟩,
    ⟨trivial, trivial, hnone _ (by decide)⟩, ⟨trivial, trivial, hnone _ (by decide)⟩,
    ⟨trivial, trivial, hone _ 2 1 (by decide)⟩,
    ⟨trivial, ⟨.inr (.inl rfl), .inl (by decide)⟩, hnone _ (by decide)⟩, trivial⟩

def rootWorld : World := runAll (World.run rootHash) rootCalls (World.initial twoPages)

theorem prefix_cache_root_collision :
    ChainInjective rootHash 1 rootLists ∧
    Reach (World.run rootHash) (World.CallOk rootHash rootLists) (World.initial twoPages) rootWorld ∧
    [1, 2, 9] ∈ rootLists ∧
    ((createSequenceWithPrefix rootHash 2 [1, 2, 9]).exec rootWorld.kv).1 = .ok 2 ∧
    ((createSequenceWithPrefix rootHash 2 [1, 2, 9]).next rootWorld.kv).sequences[2]?.map
      SequenceState.pages = some [1, 0] ∧
    ¬Holds rootWorld 0 [1, 2, 9] 1 := by
  refine ⟨rootHash_injective, Reach.of_allOk rootCalls_meet (by decide +kernel), .inr (.inr rfl),
    by decide +kernel, by decide +kernel, fun h => ?_⟩
  exact absurd (h 0 (by decide +kernel)) (by decide +kernel)

end Ruda.Kv
