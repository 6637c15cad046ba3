import Ruda.Kv.Accounting

/-!
# Runs of the KV manager

The public operations as one alphabet, and what holds in every state that any
sequence of them reaches. Reference counts are `u32` and `acquire_cached`
increments them unchecked, so the accounting holds along runs in which no lookup
takes a page past `u32::MAX` references (`RefsFit`), and fails without that: a
page shared often enough has count 0 while it is mapped.
-/

namespace Ruda.Kv

open PagedKvCacheManager

variable {s s' s₀ : PagedKvCacheManager} {chain : ChainHash} {config : PagedKvCacheConfig}

inductive KvOp
  | setPrefixCaching (enabled : Bool)
  | createSequence (id : RequestId)
  | createSequenceWithPrefix (id : RequestId) (tokens : List Token)
  | registerPrefix (id : RequestId) (tokens : List Token)
  | beginAppend (id : RequestId) (tokenCount : Nat)
  | extendAppend (id : KvReservationId) (extra : Nat)
  | commitAppend (id : KvReservationId)
  | commitAppendPartial (id : KvReservationId) (tokenCount : Nat)
  | commitAppendPrefixes (rows : List (KvReservationId × Nat))
  | commitAppends (ids : List KvReservationId)
  | cancelAppend (id : KvReservationId)
  | cancelAppends (ids : List KvReservationId)
  | removeSequence (id : RequestId)

/-- The call, with its result dropped. -/
def KvOp.run (chain : ChainHash) : KvOp → KvM Unit
  | setPrefixCaching enabled => PagedKvCacheManager.setPrefixCaching enabled
  | createSequence id => PagedKvCacheManager.createSequence id
  | createSequenceWithPrefix id tokens => do
    let _ ← PagedKvCacheManager.createSequenceWithPrefix chain id tokens
  | registerPrefix id tokens => PagedKvCacheManager.registerPrefix chain id tokens
  | beginAppend id tokenCount => do let _ ← PagedKvCacheManager.beginAppend id tokenCount
  | extendAppend id extra => do let _ ← PagedKvCacheManager.extendAppend id extra
  | commitAppend id => do let _ ← PagedKvCacheManager.commitAppend id
  | commitAppendPartial id tokenCount => do
    let _ ← PagedKvCacheManager.commitAppendPartial id tokenCount
  | commitAppendPrefixes rows => do let _ ← PagedKvCacheManager.commitAppendPrefixes rows
  | commitAppends ids => do let _ ← PagedKvCacheManager.commitAppends ids
  | cancelAppend id => PagedKvCacheManager.cancelAppend id
  | cancelAppends ids => PagedKvCacheManager.cancelAppends ids
  | removeSequence id => PagedKvCacheManager.removeSequence id

/-- A lookup takes no page past the largest `u32` reference count. -/
def KvOp.RefsFit (chain : ChainHash) (s : PagedKvCacheManager) : KvOp → Prop
  | createSequenceWithPrefix id tokens => s.sequences[id]? = none →
      ∀ p, s.pageRefs p + (cachedPages chain s tokens).1.count p ≤ u32Max
  | _ => True

/-- Every operation keeps the invariant, panics nowhere, and fails without effect. -/
theorem KvOp.run_ok (op : KvOp) (h : Inv s) (hfit : op.RefsFit chain s) :
    Triple (op.run chain) s (fun _ s' => Inv s' ∧ s'.config = s.config)
      (fun f s' => ¬f.IsPanic ∧ s' = s) := by
  have herr : ∀ msg, ¬(Fault.error msg).IsPanic ∧ s = s := fun _ => ⟨not_false, rfl⟩
  have hrows : ∀ {rows}, RowsOk s rows → Triple (commitRows rows) s
      (fun _ s' => Inv s' ∧ s'.config = s.config) (fun f s' => ¬f.IsPanic ∧ s' = s) :=
    fun hr => (commitRows_ok h hr).mono (fun _ _ h => h) fun _ _ h => h.elim
  have hrow : ∀ {rid count r}, s.reservations[rid]? = some r → count ≤ r.tokenCount →
      Triple (commitRow rid count) s (fun _ s' => Inv s' ∧ s'.config = s.config)
        (fun f s' => ¬f.IsPanic ∧ s' = s) := by
    intro rid count r hr hc
    refine (commitRow_ok h hr hc).mono ?_ fun _ _ h => h.elim
    rintro _ s' ⟨h', q, -, -, hsame, -⟩
    exact ⟨h', hsame.config⟩
  cases op with
  | setPrefixCaching enabled =>
    exact (setPrefixCaching_ok enabled h).mono (fun _ _ h => ⟨h.1, h.2.1⟩) nofun
  | createSequence id =>
    refine (createSequence_ok h).mono ?_ fun _ _ h => h
    rintro _ _ ⟨h', rfl⟩
    exact ⟨h', rfl⟩
  | createSequenceWithPrefix id tokens =>
    exact Triple.discard ((createSequenceWithPrefix_ok h hfit).mono (fun _ _ h => ⟨h.1, h.2.2.1⟩)
      fun _ _ h => h)
  | registerPrefix id tokens => exact registerPrefix_ok h
  | beginAppend id n =>
    refine Triple.discard ((beginAppend_ok n h).mono ?_ fun _ _ h => h)
    rintro _ s' ⟨h', q, q', hg⟩
    exact ⟨h', hg.config⟩
  | extendAppend rid n =>
    refine Triple.discard ((extendAppend_ok n h).mono ?_ fun _ _ h => h)
    rintro _ s' ⟨h', r, q, q', -, hg⟩
    exact ⟨h', hg.config⟩
  | commitAppend rid =>
    exact Triple.discard (commitAppend_rule h.seq herr fun r hr => hrow hr le_rfl)
  | commitAppendPartial rid n =>
    exact Triple.discard (commitAppendPartial_rule h.seq herr fun r hr _ hc => hrow hr hc)
  | commitAppendPrefixes rows =>
    exact Triple.discard (commitAppendPrefixes_rule herr hrows)
  | commitAppends ids => exact Triple.discard (commitAppends_rule h.seq herr hrows)
  | cancelAppend rid => exact cancelAppend_rule h.seq herr fun r hr => hrow hr (Nat.zero_le _)
  | cancelAppends ids => exact cancelAppends_rule h.seq herr hrows
  | removeSequence id =>
    exact (removeSequence_ok h).mono (fun _ _ h => ⟨h.1, h.2.1.config⟩) fun _ _ h => h

theorem new_eq_ok (h : new config = .ok s₀) :
    s₀ = initial config ∧ 0 < config.blockSize ∧ config.numPages ≤ u32Max := by
  unfold new PagedKvCacheConfig.validate at h
  simp only [bind, Except.bind, pure, Except.pure] at h
  split at h
  · cases h
  · next hv =>
    split at hv
    · cases hv
    · next hpos =>
      split at hv
      · cases hv
      · cases h
        exact ⟨rfl, by omega, by omega⟩

theorem Inv.of_reach (hnew : new config = .ok s₀)
    (h : Reach (KvOp.run chain) (fun s op => op.RefsFit chain s) s₀ s) : Inv s := by
  obtain ⟨rfl, hbs, -⟩ := new_eq_ok hnew
  refine h.inv (Inv.initial hbs) fun s op hinv hfit => ?_
  refine (op.run_ok hinv hfit).mono (fun _ _ h => h.1) ?_
  rintro f _ ⟨-, rfl⟩
  exact .inr hinv

-- Page accounting

/-- The six page structures agree and no page is lost or listed twice. -/
structure Accounted (s : PagedKvCacheManager) : Prop where
  refs : ∀ p < s.config.numPages, s.pageRefs p = occurrences s p
  disjoint : Disjoint s.freePages (evictablePages s)
  idle : s.freePages ∪ evictablePages s =
    (Finset.range s.config.numPages).filter fun p => s.pageRefs p = 0
  evictable : ∀ (t : Nat) p,
    s.evictable[t]? = some p ↔ ∃ b, s.pageBlocks p = some b ∧ b.lruTick = some t
  free : ∀ p ∈ s.freePages, s.pageBlocks p = none
  index : ∀ k p, s.blockIndex k = some p ↔ ∃ b, s.pageBlocks p = some b ∧ b.key = k
  available : s.availablePages + (referenced (occurrences s) s).card = s.config.numPages

theorem Inv.accounted (h : Inv s) : Accounted s := by
  obtain ⟨hfe, hr, hall⟩ := h.pages.partition
  refine ⟨fun p _ => h.pages.refs p, hfe, ?_, h.pages.evict, fun p hp => (h.pages.free p hp).2.2,
    h.pages.index, h.pages.available⟩
  ext p
  rw [Finset.mem_filter, h.pages.refs, ← hall, Finset.mem_union (s := s.freePages ∪ evictablePages s)]
  constructor
  · intro hp
    refine ⟨.inl hp, ?_⟩
    by_contra h0
    have hlt : p < s.config.numPages := h.pages.inUse p (Nat.pos_of_ne_zero h0)
    exact Finset.disjoint_left.mp hr hp
      (Finset.mem_filter.mpr ⟨Finset.mem_range.mpr hlt, Nat.pos_of_ne_zero h0⟩)
  · rintro ⟨hp | hp, h0⟩
    · exact hp
    · exact absurd h0 (Finset.mem_filter.mp hp).2.ne'

/-- One page of one token. -/
def onePage : PagedKvCacheConfig := ⟨1, 1, 8, one_le_usizeMax, one_le_usizeMax, eight_le_usizeMax⟩

theorem new_onePage : new onePage = .ok (initial onePage) := rfl

/-- Sequence 0 publishes its only block, token 7, on page 0. -/
def publishSeven : List KvOp :=
  [.setPrefixCaching true, .createSequence 0, .beginAppend 0 1, .commitAppend 1, .registerPrefix 0 [7]]

def noHash : ChainHash := fun _ _ => 0

/-- Page 0 is published for token 7 and mapped by sequences `0` to `n`. -/
structure Shared (n : Nat) (s : PagedKvCacheManager) : Prop where
  config : s.config = onePage
  caching : s.prefixCaching = true
  index : s.blockIndex (chainRoot, [7]) = some 0
  block : s.pageBlocks 0 = some { key := (chainRoot, [7]), lruTick := none }
  free : s.freePages = ∅
  evictable : s.evictable = ∅
  nextReservation : s.nextReservation = 2
  refs : s.pageRefs 0 = wrap32 (n + 1)
  occ : occurrences s 0 = n + 1
  first : ∃ q, s.sequences[0]? = some q ∧ q.pages = [0] ∧ q.pending = none
  second : 0 < n → ∃ q, s.sequences[1]? = some q ∧ q.pages = [0]
  fresh : ∀ j : Nat, n < j → s.sequences[j]? = none

theorem shared_zero : Shared 0 (runAll (KvOp.run noHash) publishSeven (initial onePage)) where
  config := rfl
  caching := rfl
  index := by decide
  block := by decide
  free := by decide
  evictable := by decide
  nextReservation := by decide
  refs := by decide
  occ := by decide
  first := ⟨_, by rfl, by decide, by decide⟩
  second := nofun
  fresh := by
    intro j hj
    have hseq : (runAll (KvOp.run noHash) publishSeven (initial onePage)).sequences =
        (∅ : BTreeMap SequenceState).insert 0 ⟨1, [0], none, 1, 0⟩ := by decide
    rw [hseq, BTreeMap.get_insert, if_neg hj.ne', BTreeMap.get_empty]

theorem exec_acquireCached_idle {p : KvPageId} {b : CachedBlock} (hb : s.pageBlocks p = some b)
    (hidle : b.lruTick = none) : (acquireCached p).exec s =
      (.ok (), { s with pageRefs := Function.update s.pageRefs p (wrap32 (s.pageRefs p + 1)) }) := by
  unfold acquireCached
  simp only [M.exec_bind, M.exec_get, M.exec_ite, hb, M.exec_expect_some, hidle, M.exec_pure,
    M.exec_set, ite_self]

theorem Shared.share {n : Nat} (h : Shared n s) :
    Triple ((KvOp.createSequenceWithPrefix (n + 1) [7, 8]).run noHash) s
      (fun _ s' => Shared (n + 1) s') (fun _ _ => False) := by
  refine Triple.discard (createSequenceWithPrefix_rule (fun hne => ?_) fun hnone => ?_)
  · exact absurd (h.fresh (n + 1) (Nat.lt_succ_self n)) hne
  have husable : usableBlocks s [7, 8] = 1 := by simp [usableBlocks, h.caching, h.config, onePage]
  have hkey : (s.putSequence (n + 1) emptySequence).blockIndex
      (chainRoot, blockOf [7, 8] (s.putSequence (n + 1) emptySequence).config.blockSize 0) = some 0 := by
    have hbs : (s.putSequence (n + 1) emptySequence).config.blockSize = 1 := by
      simp [putSequence, h.config, onePage]
    rw [hbs]
    exact h.index
  have hexec : (matchPrefix noHash [7, 8] (usableBlocks s [7, 8]) 0 chainRoot).exec
      (s.putSequence (n + 1) emptySequence) = (.ok ([0], 0),
        { s.putSequence (n + 1) emptySequence with
          pageRefs := Function.update s.pageRefs 0 (wrap32 (s.pageRefs 0 + 1)) }) := by
    rw [husable]
    simp only [matchPrefix, M.exec_bind, M.exec_get, hkey]
    rw [exec_acquireCached_idle (s := s.putSequence (n + 1) emptySequence) h.block rfl]
    rfl
  refine Triple.of_exec hexec ?_
  let s₁ : PagedKvCacheManager := { s.putSequence (n + 1) emptySequence with
    pageRefs := Function.update s.pageRefs 0 (wrap32 (s.pageRefs 0 + 1)) }
  have hseq : (adopt s₁ (n + 1) [0] 0).sequences =
      (s.putSequence (n + 1) (adopted s.config.blockSize [0] 0)).sequences :=
    BTreeMap.insert_insert
  have hget : ∀ j : Nat, (adopt s₁ (n + 1) [0] 0).sequences[j]? =
      if j = n + 1 then some (adopted s.config.blockSize [0] 0) else s.sequences[j]? := fun j => by
    rw [hseq, putSequence_get]
  refine ⟨h.config, h.caching, h.index, h.block, h.free, h.evictable, h.nextReservation, ?_, ?_, ?_, ?_, ?_⟩
  · show Function.update s.pageRefs 0 (wrap32 (s.pageRefs 0 + 1)) 0 = _
    rw [Function.update_self, h.refs, wrap32_succ]
  · refine (congrFun (occurrences_congr hseq) 0).trans ?_
    rw [occurrences_create hnone, h.occ, Nat.add_comm]
    rfl
  · obtain ⟨q, hq, hpages⟩ := h.first
    exact ⟨q, (hget 0).trans (by simpa using hq), hpages⟩
  · intro _
    cases n with
    | zero => exact ⟨_, (hget 1).trans (if_pos rfl), rfl⟩
    | succ n =>
      obtain ⟨q, hq, hpages⟩ := h.second (Nat.succ_pos n)
      exact ⟨q, (hget 1).trans (by simpa using hq), hpages⟩
  · intro j hj
    refine (hget j).trans ?_
    rw [if_neg hj.ne', h.fresh j (by omega)]

theorem exists_shared (n : Nat) :
    ∃ s, Reach (KvOp.run noHash) (fun _ _ => True) (initial onePage) s ∧ Shared n s := by
  induction n with
  | zero => exact ⟨_, Reach.of_allOk (by simp [allMeet, publishSeven]) (by decide), shared_zero⟩
  | succ n ih =>
    obtain ⟨s, hs, hn⟩ := ih
    obtain ⟨_, s', hexec, hn'⟩ := hn.share.exists_ok
    exact ⟨s', Relation.ReflTransGen.tail hs ⟨_, trivial, Returns.of_ok hexec⟩, hn'⟩

/-- `p` is held once, by sequence `id` alone, and is not published. -/
structure Exclusive (s : PagedKvCacheManager) (id : RequestId) (q : SequenceState) (p : KvPageId) :
    Prop where
  refs : s.pageRefs p = 1
  once : q.pages.count p = 1
  others : ∀ (j : Nat) q', s.sequences[j]? = some q' → j ≠ id → p ∉ q'.pages
  unpublished : ∀ k, s.blockIndex k ≠ some p

/-- The page of token position `i` may be written under reservation `r`. -/
def Writable (r : ReservationState) (i : Nat) : Prop :=
  r.startPosition ≤ i ∧ i < r.startPosition + r.tokenCount

theorem Inv.exclusive {id : RequestId} {q : SequenceState} {p : KvPageId} {i : Nat} (h : Inv s)
    (hq : s.sequences[id]? = some q) (hi : q.committedTokens / s.config.blockSize ≤ i)
    (hp : q.pages[i]? = some p) : Exclusive s id q p := by
  obtain ⟨h1, hnone⟩ := h.tail id q i p hq hi hp
  have hmem := List.count_pos_iff.mpr (List.mem_of_getElem? hp)
  have hle := BTreeMap.le_weight (fun q : SequenceState => q.pages.count p) hq
  refine ⟨(h.pages.refs p).trans h1, ?_, ?_, ?_⟩
  · unfold occurrences at h1
    omega
  · intro j q' hq' hj hmem'
    have := BTreeMap.add_le_weight (fun q : SequenceState => q.pages.count p) hq hq' hj
    have := List.count_pos_iff.mpr hmem'
    unfold occurrences at h1
    omega
  · intro k hk
    obtain ⟨b, hb, -⟩ := (h.pages.index k p).mp hk
    simp [hnone] at hb

theorem Inv.writable {rid : KvReservationId} {r : ReservationState} (h : Inv s)
    (hr : s.reservations[rid]? = some r) :
    ∃ q, s.sequences[r.requestId]? = some q ∧
      divCeil (r.startPosition + r.tokenCount) s.config.blockSize ≤ q.pages.length ∧
      ∀ i, Writable r i → ∃ p, q.pages[i / s.config.blockSize]? = some p ∧
        Exclusive s r.requestId q p := by
  obtain ⟨q, hq, hok⟩ := h.seq.reserved rid r hr
  refine ⟨q, hq, hok.length.ge, fun i hi => ?_⟩
  have hlt : i / s.config.blockSize < q.pages.length := by
    rw [hok.length, lt_divCeil_iff h.seq.blockSize]
    exact (Nat.div_mul_le_self _ _).trans_lt hi.2
  have hp : q.pages[i / s.config.blockSize]? = some (q.pages[i / s.config.blockSize]) :=
    List.getElem?_eq_getElem hlt
  refine ⟨_, hp, h.exclusive hq (Nat.div_le_div_right ?_) hp⟩
  rw [← hok.start]
  exact hi.1

/-- In every such state, a pending reservation may write only pages that its
sequence holds alone and that are not published; two of them share none. -/
theorem shared_pages_never_written (hnew : new config = .ok s₀)
    (h : Reach (KvOp.run chain) (fun s op => op.RefsFit chain s) s₀ s) :
    (∀ (rid : Nat) r, s.reservations[rid]? = some r → ∃ q, s.sequences[r.requestId]? = some q ∧
      divCeil (r.startPosition + r.tokenCount) s.config.blockSize ≤ q.pages.length ∧
      ∀ i, Writable r i → ∃ p, q.pages[i / s.config.blockSize]? = some p ∧
        Exclusive s r.requestId q p) ∧
    ∀ (rid rid' : Nat) r r' q q' i i', rid ≠ rid' →
      s.reservations[rid]? = some r → s.reservations[rid']? = some r' →
      s.sequences[r.requestId]? = some q → s.sequences[r'.requestId]? = some q' →
      Writable r i → Writable r' i' →
      q.pages[i / s.config.blockSize]? ≠ q'.pages[i' / s.config.blockSize]? := by
  have hinv := Inv.of_reach hnew h
  refine ⟨fun rid r hr => hinv.writable hr, ?_⟩
  intro rid rid' r r' q q' i i' hne hr hr' hq hq' hi hi' heq
  obtain ⟨q₁, hq₁, -, hw⟩ := hinv.writable hr
  obtain rfl : q₁ = q := by simpa [hq] using hq₁.symm
  obtain ⟨q₂, hq₂, -, hw'⟩ := hinv.writable hr'
  obtain rfl : q₂ = q' := by simpa [hq'] using hq₂.symm
  obtain ⟨p, hp, hex⟩ := hw i hi
  have hp' : q₂.pages[i' / s.config.blockSize]? = some p := heq ▸ hp
  refine hex.others r'.requestId q₂ hq' (fun hid => hne ?_) (List.mem_of_getElem? hp')
  -- one sequence has one pending reservation
  obtain ⟨q₃, hq₃, hok⟩ := hinv.seq.reserved rid r hr
  obtain ⟨q₄, hq₄, hok'⟩ := hinv.seq.reserved rid' r' hr'
  obtain rfl : q₃ = q₄ := by simpa [hid, hq₃] using hq₄
  simpa [hok.pending] using hok'.pending

theorem shared_pages_never_written_begin :
    ∃ q, (runAll (KvOp.run noHash) [.createSequence 0, .beginAppend 0 1]
        (initial onePage)).sequences[0]? = some q ∧ 1 ≤ q.pages.length ∧
      ∀ i, Writable (begun 0 emptySequence 1) i → ∃ p, q.pages[i / 1]? = some p ∧
        Exclusive (runAll (KvOp.run noHash) [.createSequence 0, .beginAppend 0 1]
          (initial onePage)) 0 q p :=
  (shared_pages_never_written new_onePage
    (Reach.of_allOk (by simp [allMeet, KvOp.RefsFit]) (by decide))).1 1 (begun 0 emptySequence 1) (by decide)

/-- Sequence 0 leaves a page whose count has wrapped to 1: it becomes evictable
while sequence 1 still maps it. -/
structure Orphaned (s : PagedKvCacheManager) (n : Nat) : Prop where
  config : s.config = onePage
  free : s.freePages = ∅
  evictable : ∃ t : Nat, s.evictable = (∅ : BTreeMap KvPageId).insert t 0
  refs : s.pageRefs 0 = 0
  nextReservation : s.nextReservation = 2
  mapped : ∃ q, s.sequences[1]? = some q ∧ q.pages = [0]
  fresh : s.sequences[n]? = none

theorem Shared.orphan (h : Shared (2 ^ 32) s) :
    Triple ((KvOp.removeSequence 0).run noHash) s (fun _ s' => Orphaned s' (2 ^ 32 + 1))
      (fun _ _ => False) := by
  obtain ⟨q₀, hq₀, hpages, hidle⟩ := h.first
  obtain ⟨q₁, hq₁, hpages₁⟩ := h.second (by decide)
  have hrefs : s.pageRefs 0 = 1 := h.refs
  show Triple (removeSequence 0) s _ _
  unfold removeSequence
  refine Triple.get_bind (Triple.need_bind (fun hno => by simp [hq₀] at hno) fun q hq => ?_)
  obtain rfl : q = q₀ := by simpa [hq₀] using hq.symm
  simp only [hidle]
  refine Triple.set_bind ?_
  simp only [hpages, List.reverse_singleton, releasePages]
  show Triple (releasePage 0 >>= fun _ => pure ()) _ _ _
  refine Triple.bind (Q := fun _ s' => Orphaned s' (2 ^ 32 + 1)) ?_ fun _ _ h => Triple.pure' h
  unfold releasePage
  refine Triple.get_bind (Triple.ite (fun h0 => by simp [hrefs] at h0) fun _ => ?_)
  refine Triple.ite (fun h0 => by simp [hrefs] at h0) fun _ => ?_
  refine Triple.ite (fun _ => Triple.set' ?_) fun hno => by simp [h.caching, h.block] at hno
  refine ⟨h.config, h.free, ⟨s.nextTick, by rw [← h.evictable]⟩, by simp [hrefs], h.nextReservation,
    ⟨q₁, by simpa using hq₁, hpages₁⟩, (BTreeMap.get_erase ..).trans ((if_neg (by decide)).trans (h.fresh _ (by decide)))⟩

theorem Orphaned.steal {n : Nat} (h : Orphaned s n) (hn : n ≠ 1) :
    Triple (do (KvOp.createSequence n).run noHash; (KvOp.beginAppend n 1).run noHash) s
      (fun _ s' => s'.config = onePage ∧ (∃ q, s'.sequences[1]? = some q ∧ 0 ∈ q.pages) ∧
        s'.reservations[2]? = some { requestId := n, previousPageCount := 0, startPosition := 0, tokenCount := 1 } ∧
        ∃ q, s'.sequences[n]? = some q ∧ q.pages = [0]) (fun _ _ => False) := by
  obtain ⟨t, hev⟩ := h.evictable
  obtain ⟨q₁, hq₁, hpages₁⟩ := h.mapped
  refine Triple.bind (Q := fun _ s' => s' = s.putSequence n emptySequence)
    (createSequence_rule (fun hne => absurd h.fresh hne) fun _ => rfl) ?_
  rintro _ _ rfl
  have hbs : (s.putSequence n emptySequence).config.blockSize = 1 := by simp [putSequence, h.config, onePage]
  have hcan : CanBegin (s.putSequence n emptySequence) n 1 emptySequence := by
    refine ⟨by simp, rfl, by decide, ?_, ?_, ?_⟩
    · show 1 ≤ s.config.maxSequenceLength
      rw [h.config]
      decide
    · show newPages (s.putSequence n emptySequence) emptySequence 1 ≤ s.freePages.card + s.evictable.size
      have hsize : ((∅ : BTreeMap KvPageId).insert t 0).size = 1 := by
        simp [Std.ExtTreeMap.size_insert]
      rw [newPages, hbs, hev, hsize]
      exact Nat.le_add_left _ _
    · show s.nextReservation < u64Max
      rw [h.nextReservation]
      decide
  refine Triple.discard (beginAppend_rule (fun hno => absurd hcan (hno _)) fun q hq => ?_)
  obtain rfl : q = emptySequence := by simpa using hq.found.symm
  have hone : newPages (s.putSequence n emptySequence) emptySequence (0 + 1) = 1 := by
    rw [newPages, hbs]
    rfl
  have halloc : Triple allocatePage { s.putSequence n emptySequence with
      nextReservation := (s.putSequence n emptySequence).nextReservation + 1 }
      (fun p s' => p = 0 ∧ s'.config = s.config ∧
        s'.sequences = (s.putSequence n emptySequence).sequences) (fun _ _ => False) := by
    unfold allocatePage
    refine Triple.get_bind ?_
    have hnone : popFirst (s.putSequence n emptySequence).freePages = none :=
      popFirst_eq_none.mpr h.free
    simp only [hnone]
    cases he : (s.putSequence n emptySequence).evictable.popFirst with
    | none =>
      have hsize : s.evictable.size = 0 := BTreeMap.popFirst_eq_none.mp he
      simp [hev, Std.ExtTreeMap.size_insert] at hsize
    | some e =>
      obtain ⟨⟨t', p⟩, rest⟩ := e
      have hp := (BTreeMap.popFirst_eq_some he).1
      obtain ⟨-, rfl⟩ : t' = t ∧ 0 = p := by
        have : s.evictable[t']? = some p := hp
        simpa [hev] using this
      have hsame := dropCachedBlock_sameTables { s.putSequence n emptySequence with
        nextReservation := (s.putSequence n emptySequence).nextReservation + 1, evictable := rest } 0
      refine Triple.pure_bind (Triple.ite (fun h0 => ?_) fun _ => ?_)
      · rw [dropCachedBlock_pageRefs] at h0
        exact absurd h.refs h0
      · exact Triple.set_bind (Triple.pure' ⟨rfl, hsame.config, hsame.sequences⟩)
  rw [show emptySequence.committedTokens = 0 from rfl, hone]
  refine Triple.bind halloc ?_
  rintro p s₁ ⟨rfl, hcfg, hseq⟩
  refine Triple.pure_bind (Triple.pure' ⟨hcfg.trans h.config, ?_, ?_, ?_⟩)
  · refine ⟨q₁, ?_, by simp [hpages₁]⟩
    rw [reserve_get, if_neg hn.symm, hseq, putSequence_get, if_neg hn.symm, hq₁]
  · have hnext : (s.putSequence n emptySequence).nextReservation = 2 := h.nextReservation
    rw [hnext]
    exact (BTreeMap.get_insert ..).trans (if_pos rfl)
  · exact ⟨_, by rw [reserve_get, if_pos rfl], rfl⟩

/-- Mapped `2 ^ 32 + 1` times with count 1, page 0 is released once, evicted and
allocated again: a reservation may write a page that sequence 1 maps. -/
theorem shared_page_written : ∃ s q,
    Reach (KvOp.run noHash) (fun _ _ => True) (initial onePage) s ∧
    s.reservations[2]? = some { requestId := 2 ^ 32 + 1, previousPageCount := 0, startPosition := 0, tokenCount := 1 } ∧
    s.sequences[2 ^ 32 + 1]? = some q ∧ q.pages[0 / s.config.blockSize]? = some 0 ∧
    ¬Exclusive s (2 ^ 32 + 1) q 0 := by
  obtain ⟨s, hs, hn⟩ := exists_shared (2 ^ 32)
  obtain ⟨_, s₁, hexec, horph⟩ := hn.orphan.exists_ok
  obtain ⟨_, s₂, hexec₂, hcfg, ⟨q₁, hq₁, hmem⟩, hr, q, hq, hpages⟩ :=
    (horph.steal (by decide)).exists_ok
  have hs₁ := Relation.ReflTransGen.tail hs ⟨_, trivial, Returns.of_ok hexec⟩
  rw [M.exec_bind] at hexec₂
  rcases hc : ((KvOp.createSequence (2 ^ 32 + 1)).run noHash).exec s₁ with ⟨f | a, s'⟩
  · rw [hc] at hexec₂
    cases hexec₂
  · rw [hc] at hexec₂
    have hs' := Relation.ReflTransGen.tail hs₁ ⟨_, trivial, Returns.of_ok hc⟩
    have hs₂ := Relation.ReflTransGen.tail hs' ⟨_, trivial, Returns.of_ok hexec₂⟩
    refine ⟨s₂, q, hs₂, hr, hq, by rw [hpages, Nat.zero_div]; rfl, fun hex => ?_⟩
    exact hex.others 1 q₁ hq₁ (by decide) hmem

end Ruda.Kv
