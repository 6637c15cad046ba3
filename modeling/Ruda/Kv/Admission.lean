import Ruda.Kv.Effects

/-!
# The admission check

`can_append` and `begin_append` are written separately; callers ask the one and rely on the
other. They agree, and a reservation takes exactly the pages that its context needs and that
no table holds, as long as no reference count has passed `u32::MAX`.
-/

namespace Ruda.Kv

open PagedKvCacheManager

variable {s s' s₀ : PagedKvCacheManager} {id : RequestId} {q : SequenceState} {chain : ChainHash}
  {config : PagedKvCacheConfig} {n : Nat}

theorem canAppend_eq_true : (canAppend id n).exec s = (.ok true, s) ↔ ∃ q, CanAppend s id n q := by
  have hrule : Triple (canAppend id n) s (fun b s' => s' = s ∧ (b = true ↔ ∃ q, CanAppend s id n q))
      (fun _ _ => s.sequences[id]? = none) :=
    canAppend_rule (fun hnone _ => hnone) (fun q hq => ⟨rfl, by simpa using ⟨q, hq⟩⟩)
      fun hno => ⟨rfl, by simpa using hno⟩
  constructor
  · intro hexec
    exact (hrule.ok hexec).2.mp rfl
  · rintro ⟨q, hq⟩
    rcases hm : (canAppend id n).exec s with ⟨f | b, s'⟩
    · simpa [hq.found] using hrule.fault hm
    · obtain ⟨rfl, hb⟩ := hrule.ok hm
      rw [hb.mpr ⟨q, hq⟩]

/-- The pages and the table of the reservation `res` for `n` more tokens of sequence `id`. -/
structure TakesWhatItNeeds (s : PagedKvCacheManager) (id : RequestId) (n : Nat) (res : PagedKvAppendReservation) :
    Prop where
  count : ∃ q, s.sequences[id]? = some q ∧
    q.pages.length + res.newlyAllocatedPages.length = divCeil (q.committedTokens + n) s.config.blockSize
  nodup : res.newlyAllocatedPages.Nodup
  fresh : ∀ p ∈ res.newlyAllocatedPages, ∀ (j : Nat) q, s.sequences[j]? = some q → p ∉ q.pages
  table : res.blockTable.length = divCeil res.contextLength s.config.blockSize

theorem newPages_add (h : SeqOk s) (hq : CanBegin s id n q) :
    q.pages.length + newPages s q (q.committedTokens + n) = divCeil (q.committedTokens + n) s.config.blockSize := by
  have hold := h.settled id q hq.found hq.idle
  have hle := divCeil_mono h.blockSize (Nat.le_add_right q.committedTokens n)
  rw [newPages]
  omega

theorem beginAppend_takes (h : Inv s) :
    Triple (beginAppend id n) s (fun res _ => (∃ q, CanBegin s id n q) ∧ TakesWhatItNeeds s id n res)
      (fun _ _ => ∀ q, ¬CanBegin s id n q) := by
  refine beginAppend_rule (fun hno _ => hno) fun q hq => ?_
  have hpages : PagesOk (occurrences s) { s with nextReservation := s.nextReservation + 1 } :=
    h.pages.of_eq rfl rfl rfl rfl rfl rfl rfl
  refine Triple.mono ((allocatePages_tables ..).and (allocatePages_ok _ hpages hq.pages)) ?_ fun _ _ hf => hf.2.elim
  rintro ps s₁ ⟨⟨hlen, -⟩, -, hnodup, hnew, -⟩
  have hcount := newPages_add h.seq hq
  refine ⟨⟨q, hq⟩, ⟨q, hq.found, ?_⟩, hnodup, fun p hp j q' hq' hmem => ?_, ?_⟩
  · rw [← hcount, ← hlen]
    rfl
  · exact (occurrences_pos hq' hmem).ne' (hnew p hp)
  · rw [receipt, List.length_append, hlen, hcount]
    rfl

/-- The check predicts the reservation, and the reservation takes what it needs. -/
structure Admits (s : PagedKvCacheManager) : Prop where
  agrees : s.nextReservation < u64Max → ∀ id n, (canAppend id n).exec s = (.ok true, s) ↔
    ∃ res s', (beginAppend id n).exec s = (.ok res, s')
  takes : ∀ id n res s', (beginAppend id n).exec s = (.ok res, s') → TakesWhatItNeeds s id n res

theorem Inv.admits (h : Inv s) : Admits s := by
  refine ⟨fun hids id n => ?_, fun id n res s' hexec => ((beginAppend_takes h).ok hexec).2⟩
  rw [canAppend_eq_true]
  constructor
  · rintro ⟨q, hq⟩
    rcases hm : (beginAppend id n).exec s with ⟨f | res, s'⟩
    · exact absurd (hq.begin hids) ((beginAppend_takes h).fault hm q)
    · exact ⟨res, s', rfl⟩
  · rintro ⟨res, s', hexec⟩
    obtain ⟨⟨q, hq⟩, -⟩ := (beginAppend_takes h).ok hexec
    exact ⟨q, hq.found, hq.idle, hq.pos, hq.fits, hq.pages⟩

/-- In every state reached without a lookup passing the `u32` limit. -/
theorem admission_agrees (hnew : new config = .ok s₀)
    (h : Reach (KvOp.run chain) (fun s op => op.RefsFit chain s) s₀ s) : Admits s :=
  (Inv.of_reach hnew h).admits

theorem admission_agrees_created : Admits (runAll (KvOp.run noHash) [.createSequence 0] (initial onePage)) :=
  admission_agrees new_onePage (Reach.of_allOk (by simp [allMeet, KvOp.RefsFit]) (by decide))

theorem beginAppend_grows : Triple (beginAppend id n) s (fun res s' => ∃ q, s.sequences[id]? = some q ∧
    ∀ j : Nat, s'.sequences[j]? = if j = id then some (grown q res.newlyAllocatedPages res.id) else s.sequences[j]?)
    (fun _ _ => True) := by
  refine beginAppend_rule (fun _ _ => trivial) fun q hq => ?_
  refine (allocatePages_tables ..).mono ?_ fun _ _ _ => trivial
  rintro ps s₁ ⟨-, hs⟩
  refine ⟨q, hq.found, fun j => ?_⟩
  rw [reserve_get, hs.sequences]
  rfl

/-- A new sequence is promised one page and given the page that sequence 1 still maps. -/
theorem admission_gives_shared_page : ∃ s,
    Reach (KvOp.run noHash) (fun _ _ => True) (initial onePage) s ∧ ¬Admits s := by
  obtain ⟨s, hs, hn⟩ := exists_shared (2 ^ 32)
  obtain ⟨_, s₁, hexec, horph⟩ := hn.orphan.exists_ok
  obtain ⟨_, s₂, hexec₂, -, ⟨q₁, hq₁, hmem⟩, -, q, hq, hpages⟩ := (horph.steal (by decide)).exists_ok
  have hs₁ := Relation.ReflTransGen.tail hs ⟨_, trivial, Returns.of_ok hexec⟩
  rw [M.exec_bind] at hexec₂
  rcases hc : ((KvOp.createSequence (2 ^ 32 + 1)).run noHash).exec s₁ with ⟨f | a, s'⟩
  · rw [hc] at hexec₂
    cases hexec₂
  rw [hc] at hexec₂
  have hs' := Relation.ReflTransGen.tail hs₁ ⟨_, trivial, Returns.of_ok hc⟩
  refine ⟨s', hs', fun hadmits => ?_⟩
  have hcreated : s' = s₁.putSequence (2 ^ 32 + 1) emptySequence :=
    (createSequence_rule (Q := fun _ s' => s' = s₁.putSequence (2 ^ 32 + 1) emptySequence) (E := fun _ _ => False)
      (fun hne => absurd horph.fresh hne) fun _ => rfl).ok hc
  have hnone : s'.sequences[2 ^ 32 + 1]? = some emptySequence := by simp [hcreated]
  dsimp only [KvOp.run] at hexec₂
  rw [M.exec_bind] at hexec₂
  rcases hb : (beginAppend (2 ^ 32 + 1) 1).exec s' with ⟨f | res, s₃⟩
  · rw [hb] at hexec₂
    cases hexec₂
  rw [hb] at hexec₂
  obtain rfl : s₃ = s₂ := (Prod.mk.inj hexec₂).2
  obtain ⟨q₀, hq₀, hget⟩ := beginAppend_grows.ok hb
  obtain rfl : q₀ = emptySequence := Option.some.inj (hq₀.symm.trans hnone)
  -- page 0 is new for the new sequence, and in the table of sequence 1 before and after
  have hnew : res.newlyAllocatedPages = [0] := by
    rw [hget, if_pos rfl] at hq
    rw [← Option.some.inj hq] at hpages
    exact hpages
  rw [hget, if_neg (by decide)] at hq₁
  exact (hadmits.takes _ _ _ _ hb).fresh 0 (by simp [hnew]) 1 q₁ hq₁ hmem

end Ruda.Kv
