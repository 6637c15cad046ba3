import Ruda.Memory.Taint

/-!
# Runs over taint tables

A `TaintWorld` holds the live tables, the carrier counter of every failure, and
the owner of each byte by definition: the failure of the latest claim that
covers it and has not been overwritten, cleared or released since. In every
state reached, the ranges of a table denote exactly that ownership, in canonical
form, and a failure's counter is the number of tables that carry it.
-/

namespace Ruda.Memory

variable {taint : Taint} {claimed : Claimed} {f g : FailureId} {x : Nat} {range : ByteRange}

/-- Byte `x` is held for failure `f`. -/
def Owns (taint : Taint) (f : FailureId) (x : Nat) : Prop :=
  ∃ entry ∈ taint.entries, entry.failure = f ∧ Covers entry.ranges x

structure TaintOk (taint : Taint) : Prop where
  ranges : ∀ entry ∈ taint.entries, Apart entry.ranges ∧ entry.ranges ≠ []
  allocated : ∀ entry ∈ taint.entries, entry.unallocated = false
  distinct : (taint.entries.map Tainted.failure).Nodup
  disjoint : ∀ f g x, Owns taint f x → Owns taint g x → f = g

/-- How many entries carry `f`. -/
def carries (entries : List Tainted) (f : FailureId) : Nat := (entries.map Tainted.failure).count f

-- `retain_mut`

def keeps (entry : Tainted) : Bool := entry.unallocated || !entry.ranges.isEmpty

theorem retainMut_ok {change : Tainted → Tainted} {entries : List Tainted}
    (hchange : ∀ entry, (change entry).failure = entry.failure)
    (hclaimed : ∀ f, carries entries f ≤ claimed f) :
    Triple (retainMut change entries) claimed
      (fun kept claimed' => kept = (entries.map change).filter keeps ∧
        ∀ f, claimed' f + carries entries f = claimed f + carries kept f)
      (fun _ _ => False) := by
  induction entries generalizing claimed with
  | nil => exact Triple.pure' ⟨rfl, fun f => rfl⟩
  | cons entry entries ih =>
    have hcons : ∀ f, carries (entry :: entries) f = carries entries f + carries [entry] f := by
      intro f
      simp only [carries, List.map_cons, List.map_nil, List.count_cons, List.count_nil]
      omega
    unfold retainMut
    dsimp only
    by_cases hkeep : (change entry).unallocated = true ∨ (change entry).ranges ≠ []
    · rw [if_pos hkeep]
      have hk : keeps (change entry) = true := by simpa [keeps] using hkeep
      refine Triple.bind (ih fun f => ?_) ?_
      · have := hclaimed f
        rw [hcons] at this
        omega
      rintro kept claimed' ⟨rfl, hcount⟩
      refine Triple.pure' ⟨by rw [List.map_cons, List.filter_cons_of_pos hk], fun f => ?_⟩
      have := hcount f
      have hsame : carries [change entry] f = carries [entry] f := by simp [carries, hchange]
      simp only [carries, List.map_cons, List.map_nil, List.count_cons, List.count_nil] at *
      omega
    · rw [if_neg hkeep]
      have hk : ¬keeps (change entry) = true := by simpa [keeps] using hkeep
      have hpos : 0 < claimed entry.failure := by
        have := hclaimed entry.failure
        simp only [carries, List.map_cons, List.count_cons_self] at this
        omega
      rw [hchange]
      refine Triple.bind (Q := fun _ c => c = Function.update claimed entry.failure
        (claimed entry.failure - 1)) ?_ ?_
      · unfold untag
        exact Triple.get_bind (Triple.ite (fun h0 => by omega) fun _ => Triple.set' rfl)
      rintro _ _ rfl
      refine (ih fun f => ?_).mono ?_ (fun _ _ h => h)
      · have := hclaimed f
        rw [hcons] at this
        rw [Function.update_apply]
        split
        · next hf =>
          subst hf
          simp only [carries, List.map_cons, List.map_nil, List.count_cons_self] at this ⊢
          omega
        · omega
      rintro kept claimed' ⟨rfl, hcount⟩
      refine ⟨by rw [List.map_cons, List.filter_cons_of_neg hk], fun f => ?_⟩
      have hf := hcount f
      rw [hcons]
      rw [Function.update_apply] at hf
      split at hf
      · next he =>
        subst he
        have : carries [entry] entry.failure = 1 := by simp [carries]
        omega
      · next he =>
        have : carries [entry] f = 0 := by simp [carries, Ne.symm he]
        omega

/-- A closure that only shrinks ranges. -/
structure Shrinks (change : Tainted → Tainted) : Prop where
  failure : ∀ entry, (change entry).failure = entry.failure
  apart : ∀ entry, Apart entry.ranges → Apart (change entry).ranges
  allocated : ∀ entry, entry.unallocated = false → (change entry).unallocated = false
  covers : ∀ entry x, Covers (change entry).ranges x → Covers entry.ranges x

section
variable {change : Tainted → Tainted}

theorem owns_retain (h : Shrinks change) :
    Owns ⟨(taint.entries.map change).filter keeps⟩ f x ↔
      ∃ entry ∈ taint.entries, entry.failure = f ∧ Covers (change entry).ranges x := by
  constructor
  · rintro ⟨entry', hm, rfl, hx⟩
    obtain ⟨entry, hentry, rfl⟩ := List.mem_map.mp (List.mem_of_mem_filter hm)
    exact ⟨entry, hentry, (h.failure entry).symm, hx⟩
  · rintro ⟨entry, hm, rfl, hx⟩
    refine ⟨change entry, List.mem_filter.mpr ⟨List.mem_map_of_mem hm, ?_⟩, h.failure entry, hx⟩
    obtain ⟨r, hr, -⟩ := hx
    have hne : (change entry).ranges ≠ [] := List.ne_nil_of_mem hr
    simp [keeps, hne]

theorem TaintOk.retain (h : TaintOk taint) (hs : Shrinks change) :
    TaintOk ⟨(taint.entries.map change).filter keeps⟩ := by
  have hmem : ∀ entry' ∈ (taint.entries.map change).filter keeps,
      ∃ entry ∈ taint.entries, change entry = entry' ∧ keeps entry' = true := by
    intro entry' hm
    obtain ⟨hm, hk⟩ := List.mem_filter.mp hm
    obtain ⟨entry, hentry, he⟩ := List.mem_map.mp hm
    exact ⟨entry, hentry, he, hk⟩
  have halloc : ∀ entry' ∈ (taint.entries.map change).filter keeps, entry'.unallocated = false := by
    intro entry' hm
    obtain ⟨entry, hentry, rfl, -⟩ := hmem entry' hm
    exact hs.allocated entry (h.allocated entry hentry)
  refine ⟨?_, halloc, ?_, ?_⟩
  · intro entry' hm
    obtain ⟨entry, hentry, rfl, hk⟩ := hmem entry' hm
    refine ⟨hs.apart entry (h.ranges entry hentry).1, fun hnil => ?_⟩
    simp [keeps, hnil, halloc _ hm] at hk
  · have hmap : (taint.entries.map change).map Tainted.failure = taint.entries.map Tainted.failure := by
      rw [List.map_map]
      exact List.map_congr_left fun entry _ => hs.failure entry
    exact (hmap ▸ h.distinct).sublist (List.Sublist.map _ List.filter_sublist)
  · intro f g x hf hg
    obtain ⟨entry, hm, rfl, hx⟩ := (owns_retain hs).mp hf
    obtain ⟨entry', hm', rfl, hx'⟩ := (owns_retain hs).mp hg
    exact h.disjoint _ _ x ⟨entry, hm, rfl, hs.covers _ _ hx⟩ ⟨entry', hm', rfl, hs.covers _ _ hx'⟩

end

-- The operations on one table

/-- The table became `taint'`, `owns` says who owns each byte of it, and the
counters moved with its entries. -/
structure Moved (taint taint' : Taint) (claimed claimed' : Claimed)
    (owns : FailureId → Nat → Prop) : Prop where
  ok : TaintOk taint'
  owns : ∀ f x, Owns taint' f x ↔ owns f x
  claimed : ∀ f, claimed' f + carries taint.entries f = claimed f + carries taint'.entries f

theorem shrinks_subtract (range : ByteRange) (p : FailureId → Prop) [DecidablePred p] :
    Shrinks (fun entry => if p entry.failure then
      { entry with ranges := subtract entry.ranges range } else entry) := by
  constructor <;> intro entry
  · split <;> rfl
  · intro h
    split
    · exact apart_subtract h
    · exact h
  · intro h
    split <;> exact h
  · intro x hx
    split at hx
    · exact (covers_subtract.mp hx).1
    · exact hx

theorem owns_subtract (range : ByteRange) (p : FailureId → Prop) [DecidablePred p] :
    Owns ⟨(taint.entries.map fun entry => if p entry.failure then
      { entry with ranges := subtract entry.ranges range } else entry).filter keeps⟩ f x ↔
      Owns taint f x ∧ ¬(p f ∧ x ∈ range) := by
  rw [owns_retain (shrinks_subtract range p)]
  constructor
  · rintro ⟨entry, hm, rfl, hx⟩
    split at hx
    · have := covers_subtract.mp hx
      exact ⟨⟨entry, hm, rfl, this.1⟩, fun h => this.2 h.2⟩
    · next hp => exact ⟨⟨entry, hm, rfl, hx⟩, fun h => hp h.1⟩
  · rintro ⟨⟨entry, hm, rfl, hx⟩, hno⟩
    refine ⟨entry, hm, rfl, ?_⟩
    split
    · next hp => exact covers_subtract.mpr ⟨hx, fun hr => hno ⟨hp, hr⟩⟩
    · exact hx

theorem retain_subtract_ok (range : ByteRange) (p : FailureId → Prop) [DecidablePred p]
    (h : TaintOk taint) (hclaimed : ∀ f, carries taint.entries f ≤ claimed f) :
    Triple (retainMut (fun entry => if p entry.failure then
        { entry with ranges := subtract entry.ranges range } else entry) taint.entries) claimed
      (fun kept claimed' => Moved taint ⟨kept⟩ claimed claimed' fun f x =>
        Owns taint f x ∧ ¬(p f ∧ x ∈ range))
      (fun _ _ => False) := by
  have hs := shrinks_subtract range p
  refine (retainMut_ok hs.failure hclaimed).mono ?_ (fun _ _ h => h)
  rintro kept claimed' ⟨rfl, hcount⟩
  exact ⟨h.retain hs, fun f x => owns_subtract range p, hcount⟩

theorem written_ok (h : TaintOk taint) (hclaimed : ∀ f, carries taint.entries f ≤ claimed f) :
    Triple (taint.written range) claimed
      (fun taint' claimed' => Moved taint taint' claimed claimed' fun f x =>
        Owns taint f x ∧ x ∉ range)
      (fun _ _ => False) := by
  refine Triple.ite (fun hempty => Triple.pure' ⟨h, fun f x => ?_, fun f => rfl⟩) fun _ => ?_
  · simp [hempty.not_mem x]
  · have hstep := retain_subtract_ok range (fun _ => True) h hclaimed
    simp only [if_true, true_and] at hstep
    exact Triple.bind hstep fun kept claimed' hm => Triple.pure' hm

theorem retainMut_congr {change change' : Tainted → Tainted} {entries : List Tainted}
    (h : ∀ entry ∈ entries, change entry = change' entry) :
    retainMut change entries = retainMut change' entries := by
  induction entries with
  | nil => rfl
  | cons entry entries ih =>
    unfold retainMut
    rw [h entry (by simp), ih fun e he => h e (List.mem_cons_of_mem _ he)]

theorem release_ok (h : TaintOk taint) (hclaimed : ∀ f, carries taint.entries f ≤ claimed f) :
    Triple (taint.release range g) claimed
      (fun taint' claimed' => Moved taint taint' claimed claimed' fun f x =>
        Owns taint f x ∧ ¬(f = g ∧ x ∈ range))
      (fun _ _ => False) := by
  -- no entry is unallocated, so clearing the mark changes nothing
  have hmark : retainMut (fun entry => if entry.failure = g then
      { entry with ranges := subtract entry.ranges range, unallocated := false } else entry)
      taint.entries = retainMut (fun entry => if entry.failure = g then
        { entry with ranges := subtract entry.ranges range } else entry) taint.entries :=
    retainMut_congr fun entry hm => by rw [h.allocated entry hm]
  unfold Taint.release
  rw [hmark]
  exact Triple.bind (retain_subtract_ok range (fun f => f = g) h hclaimed)
    fun kept claimed' hm => Triple.pure' hm

/-- What `claim` does to the entry of its own failure. -/
def extend (range : ByteRange) (g : FailureId) (entry : Tainted) : Tainted :=
  if entry.failure = g then { entry with ranges := add entry.ranges range } else entry

@[simp] theorem extend_failure (entry : Tainted) : (extend range g entry).failure = entry.failure := by
  unfold extend
  split <;> rfl

@[simp] theorem extend_unallocated (entry : Tainted) :
    (extend range g entry).unallocated = entry.unallocated := by
  unfold extend
  split <;> rfl

theorem covers_extend {entry : Tainted} (h : Apart entry.ranges) (hr : range.start < range.stop) :
    Covers (extend range g entry).ranges x ↔
      entry.failure = g ∧ x ∈ range ∨ Covers entry.ranges x := by
  unfold extend
  split
  · next hg => simp [covers_add h hr, hg]
  · next hg => simp [hg]

theorem apart_extend {entry : Tainted} (h : Apart entry.ranges) (hr : range.start < range.stop) :
    Apart (extend range g entry).ranges := by
  unfold extend
  split
  · exact apart_add h hr
  · exact h

theorem addTo_eq_map {entries : List Tainted} (h : (entries.map Tainted.failure).Nodup) :
    Taint.addTo range g entries = entries.map (extend range g) := by
  induction entries with
  | nil => rfl
  | cons entry entries ih =>
    obtain ⟨hnot, hnd⟩ := List.nodup_cons.mp h
    rw [Taint.addTo, List.map_cons]
    split
    · next hf =>
      have hrest : ∀ e ∈ entries, extend range g e = id e := fun e he =>
        if_neg fun hg => hnot (List.mem_map.mpr ⟨e, he, hg.trans hf.symm⟩)
      rw [List.map_congr_left hrest, List.map_id, extend, if_pos hf]
    · next hf => rw [ih hnd, extend, if_neg hf]

/-- Ownership after a claim. -/
def claimOwns (taint : Taint) (range : ByteRange) (g f : FailureId) (x : Nat) : Prop :=
  if x ∈ range then f = g else Owns taint f x

theorem claimOwns_iff : claimOwns taint range g f x ↔
    f = g ∧ x ∈ range ∨ Owns taint f x ∧ x ∉ range := by
  unfold claimOwns
  split <;> tauto

theorem TaintOk.claimOwns_unique (h : TaintOk taint) {f' : FailureId}
    (hf : claimOwns taint range g f x) (hf' : claimOwns taint range g f' x) : f = f' := by
  rw [claimOwns_iff] at hf hf'
  rcases hf with ⟨rfl, hx⟩ | ⟨hf, hx⟩ <;> rcases hf' with ⟨rfl, hx'⟩ | ⟨hf', hx'⟩
  · rfl
  · exact absurd hx hx'
  · exact absurd hx' hx
  · exact h.disjoint _ _ x hf hf'

section
variable {kept : List Tainted}

theorem TaintOk.claim_join (h : TaintOk taint) (hr : range.start < range.stop)
    (hkept : TaintOk ⟨kept⟩)
    (howns : ∀ f x, Owns ⟨kept⟩ f x ↔ Owns taint f x ∧ ¬(f ≠ g ∧ x ∈ range))
    (hany : g ∈ kept.map Tainted.failure) :
    TaintOk ⟨kept.map (extend range g)⟩ ∧
      ∀ f x, Owns ⟨kept.map (extend range g)⟩ f x ↔ claimOwns taint range g f x := by
  have hmine : ∀ f x, Owns ⟨kept.map (extend range g)⟩ f x ↔ claimOwns taint range g f x := by
    intro f x
    rw [claimOwns_iff]
    constructor
    · rintro ⟨_, hm, rfl, hx⟩
      obtain ⟨entry, hentry, rfl⟩ := List.mem_map.mp hm
      rw [extend_failure]
      rcases (covers_extend (hkept.ranges entry hentry).1 hr).mp hx with hin | hcov
      · exact .inl hin
      · obtain ⟨hold, hno⟩ := (howns _ x).mp ⟨entry, hentry, rfl, hcov⟩
        by_cases hin : x ∈ range
        · exact .inl ⟨not_not.mp fun hg => hno ⟨hg, hin⟩, hin⟩
        · exact .inr ⟨hold, hin⟩
    · rintro (⟨rfl, hin⟩ | ⟨hf, hin⟩)
      · obtain ⟨entry, hentry, hg⟩ := List.mem_map.mp hany
        exact ⟨_, List.mem_map_of_mem hentry, (extend_failure entry).trans hg,
          (covers_extend (hkept.ranges entry hentry).1 hr).mpr (.inl ⟨hg, hin⟩)⟩
      · obtain ⟨entry, hentry, rfl, hcov⟩ := (howns f x).mpr ⟨hf, fun hc => hin hc.2⟩
        exact ⟨_, List.mem_map_of_mem hentry, extend_failure entry,
          (covers_extend (hkept.ranges entry hentry).1 hr).mpr (.inr hcov)⟩
  refine ⟨⟨?_, ?_, ?_, ?_⟩, hmine⟩
  · intro _ hm
    obtain ⟨entry, hentry, rfl⟩ := List.mem_map.mp hm
    obtain ⟨hap, hne⟩ := hkept.ranges entry hentry
    obtain ⟨y, hy⟩ := hap.exists_covers hne
    obtain ⟨r, hmem, -⟩ := (covers_extend (g := g) hap hr).mpr (.inr hy)
    exact ⟨apart_extend hap hr, List.ne_nil_of_mem hmem⟩
  · intro _ hm
    obtain ⟨entry, hentry, rfl⟩ := List.mem_map.mp hm
    exact (extend_unallocated entry).trans (hkept.allocated entry hentry)
  · have hmap : (kept.map (extend range g)).map Tainted.failure = kept.map Tainted.failure := by
      rw [List.map_map]
      exact List.map_congr_left fun entry _ => extend_failure entry
    exact hmap ▸ hkept.distinct
  · exact fun f f' x hf hf' => h.claimOwns_unique ((hmine f x).mp hf) ((hmine f' x).mp hf')

theorem TaintOk.claim_push (h : TaintOk taint) (hr : range.start < range.stop)
    (hkept : TaintOk ⟨kept⟩)
    (howns : ∀ f x, Owns ⟨kept⟩ f x ↔ Owns taint f x ∧ ¬(f ≠ g ∧ x ∈ range))
    (hany : g ∉ kept.map Tainted.failure) :
    TaintOk ⟨kept ++ [⟨g, [range], false⟩]⟩ ∧
      ∀ f x, Owns ⟨kept ++ [⟨g, [range], false⟩]⟩ f x ↔ claimOwns taint range g f x := by
  have hmine : ∀ f x, Owns ⟨kept ++ [⟨g, [range], false⟩]⟩ f x ↔ claimOwns taint range g f x := by
    intro f x
    have hsplit : Owns ⟨kept ++ [⟨g, [range], false⟩]⟩ f x ↔ Owns ⟨kept⟩ f x ∨ f = g ∧ x ∈ range := by
      simp [Owns, or_and_right, exists_or, eq_comm]
    have hnew : ¬Owns ⟨kept⟩ g x := by
      rintro ⟨entry, hm, hg, -⟩
      exact hany (List.mem_map.mpr ⟨entry, hm, hg⟩)
    rw [hsplit, claimOwns_iff, howns]
    constructor
    · rintro (⟨hf, hno⟩ | hin)
      · by_cases hfg : f = g
        · subst hfg
          exact absurd ((howns f x).mpr ⟨hf, hno⟩) hnew
        · exact .inr ⟨hf, fun hin => hno ⟨hfg, hin⟩⟩
      · exact .inl hin
    · rintro (hin | ⟨hf, hin⟩)
      · exact .inr hin
      · exact .inl ⟨hf, fun hc => hin hc.2⟩
  refine ⟨⟨?_, ?_, ?_, ?_⟩, hmine⟩
  · intro entry hm
    rcases List.mem_append.mp hm with hm | hm
    · exact hkept.ranges entry hm
    · obtain rfl := List.mem_singleton.mp hm
      exact ⟨apart_singleton hr, by simp⟩
  · intro entry hm
    rcases List.mem_append.mp hm with hm | hm
    · exact hkept.allocated entry hm
    · obtain rfl := List.mem_singleton.mp hm
      rfl
  · rw [List.map_append]
    refine List.Nodup.append hkept.distinct (List.nodup_singleton _) ?_
    intro a ha hb
    obtain rfl := List.mem_singleton.mp hb
    exact hany ha
  · exact fun f f' x hf hf' => h.claimOwns_unique ((hmine f x).mp hf) ((hmine f' x).mp hf')

end

theorem carries_append (entries : List Tainted) (entry : Tainted) (f : FailureId) :
    carries (entries ++ [entry]) f = carries entries f + if entry.failure = f then 1 else 0 := by
  simp [carries, List.count_append, List.count_singleton]

theorem claim_ok (h : TaintOk taint) (hclaimed : ∀ f, carries taint.entries f ≤ claimed f) :
    Triple (taint.claim range g) claimed
      (fun taint' claimed' => Moved taint taint' claimed claimed' (claimOwns taint range g))
      (fun f _ => f.IsPanic) := by
  refine Triple.ite (fun hempty => Triple.pure' ⟨h, fun f x => ?_, fun f => rfl⟩) fun hr => ?_
  · simp [claimOwns, hempty.not_mem x]
  have hr : range.start < range.stop := not_not.mp hr
  refine Triple.bind ((retain_subtract_ok range (fun f => f ≠ g) h hclaimed).mono
    (fun _ _ h => h) nofun) ?_
  rintro kept claimed₁ ⟨hkept, howns, hcount⟩
  have hany : (kept.any fun entry => entry.failure = g) = true ↔ g ∈ kept.map Tainted.failure := by
    simp only [List.any_eq_true, decide_eq_true_eq, List.mem_map]
  refine Triple.ite (fun hyes => Triple.pure' ?_) fun hno => ?_
  · obtain ⟨hok, hmine⟩ := h.claim_join hr hkept howns (hany.mp hyes)
    rw [addTo_eq_map hkept.distinct]
    refine ⟨hok, hmine, fun f => (hcount f).trans ?_⟩
    simp [carries, Function.comp_def]
  · obtain ⟨hok, hmine⟩ := h.claim_push hr hkept howns fun hm => hno (hany.mpr hm)
    refine Triple.bind (Q := fun _ c => c = Function.update claimed₁ g (claimed₁ g + 1)) ?_ ?_
    · exact Triple.get_bind (Triple.ite (fun _ => Triple.set' rfl) fun _ => Triple.panic' trivial)
    rintro _ _ rfl
    refine Triple.pure' ⟨hok, hmine, fun f => ?_⟩
    have := hcount f
    rw [carries_append, Function.update_apply]
    dsimp only at this ⊢
    split
    · next hf =>
      subst hf
      rw [if_pos rfl]
      omega
    · next hf =>
      rw [if_neg (Ne.symm hf)]
      omega

theorem mem_failures (h : TaintOk taint) : f ∈ taint.failures range ↔ ∃ x ∈ range, Owns taint f x := by
  simp only [Taint.failures, List.mem_map, List.mem_filter, Bool.or_eq_true, List.any_eq_true,
    decide_eq_true_eq, Range.meets_iff]
  constructor
  · rintro ⟨entry, ⟨hm, hheld⟩, rfl⟩
    obtain ⟨held, hr, x, hx, hx'⟩ := hheld.resolve_left (by simp [h.allocated entry hm])
    exact ⟨x, hx', entry, hm, rfl, held, hr, hx⟩
  · rintro ⟨x, hx', entry, hm, rfl, held, hr, hx⟩
    exact ⟨entry, ⟨hm, .inr ⟨held, hr, x, hx, hx'⟩⟩, rfl⟩

-- Tables and owners

structure TaintWorld where
  tables : BTreeMap Taint
  claimed : Claimed
  /-- The failure of the last unresolved claim, by table and byte. -/
  owner : Nat → Nat → Option FailureId

def TaintWorld.initial : TaintWorld where
  tables := ∅
  claimed := fun _ => 0
  owner := fun _ _ => none

inductive TaintOp
  | new (table : Nat)
  | claim (table : Nat) (range : ByteRange) (failure : FailureId)
  | written (table : Nat) (range : ByteRange)
  | release (table : Nat) (range : ByteRange) (failure : FailureId)
  | drop (table : Nat)

/-- Run a method of a live table; a table that does not exist has no methods. -/
def TaintWorld.update (table : Nat) (m : Taint → M Claimed Taint)
    (owns : (Nat → Option FailureId) → Nat → Option FailureId) : M TaintWorld Unit := do
  let w ← get
  match w.tables[table]? with
  | none => pure ()
  | some taint =>
    let taint ← M.zoom TaintWorld.claimed (fun w claimed => { w with claimed }) (m taint)
    modify fun w => { w with
      tables := w.tables.insert table taint
      owner := Function.update w.owner table (owns (w.owner table)) }

def TaintOp.run : TaintOp → M TaintWorld Unit
  | new table => modify fun w =>
    if w.tables.contains table then w
    else { w with
      tables := w.tables.insert table { entries := [] }
      owner := Function.update w.owner table fun _ => none }
  | claim table range failure => TaintWorld.update table (·.claim range failure)
    fun owner x => if x ∈ range then some failure else owner x
  | written table range => TaintWorld.update table (·.written range)
    fun owner x => if x ∈ range then none else owner x
  | release table range failure => TaintWorld.update table (·.release range failure)
    fun owner x => if x ∈ range ∧ owner x = some failure then none else owner x
  | drop table => do
    let w ← get
    match w.tables[table]? with
    | none => pure ()
    | some taint =>
      M.zoom TaintWorld.claimed (fun w claimed => { w with claimed }) taint.drop
      modify fun w => { w with tables := w.tables.erase table }

structure TaintInv (w : TaintWorld) : Prop where
  ok : ∀ (table : Nat) taint, w.tables[table]? = some taint → TaintOk taint
  owner : ∀ (table : Nat) taint, w.tables[table]? = some taint →
    ∀ f x, Owns taint f x ↔ w.owner table x = some f
  claimed : ∀ f, w.claimed f = BTreeMap.weight (fun taint : Taint => carries taint.entries f) w.tables

theorem TaintInv.initial : TaintInv TaintWorld.initial := by
  constructor <;> simp [TaintWorld.initial]

theorem TaintInv.update {w : TaintWorld} {table : Nat} {m : Taint → M Claimed Taint}
    (owns : (Nat → Option FailureId) → Nat → Option FailureId) (h : TaintInv w)
    (hm : ∀ taint, w.tables[table]? = some taint → TaintOk taint →
      (∀ f, carries taint.entries f ≤ w.claimed f) →
      Triple (m taint) w.claimed
        (fun taint' claimed' => Moved taint taint' w.claimed claimed' fun f x =>
          owns (w.owner table) x = some f)
        (fun f _ => f.IsPanic)) :
    Triple (TaintWorld.update table m owns) w (fun _ w' => TaintInv w')
      (fun f w' => f.IsPanic ∨ TaintInv w') := by
  refine Triple.get_bind ?_
  cases ht : w.tables[table]? with
  | none => exact Triple.pure' h
  | some taint =>
    have hle : ∀ f, carries taint.entries f ≤ w.claimed f := fun f => by
      rw [h.claimed]
      exact BTreeMap.le_weight (fun taint : Taint => carries taint.entries f) ht
    have hstep := hm taint ht (h.ok table taint ht) hle
    refine Triple.bind (Q := fun taint' w' => ∃ claimed', w' = { w with claimed := claimed' } ∧
      Moved taint taint' w.claimed claimed' fun f x => owns (w.owner table) x = some f)
      (Triple.zoom (hstep.mono (fun taint' claimed' hmv => ⟨claimed', rfl, hmv⟩) fun _ _ h => .inl h)) ?_
    rintro taint' _ ⟨claimed', rfl, hmv⟩
    refine Triple.modify' ?_
    constructor <;> dsimp only
    · intro j t hj
      rw [BTreeMap.get_insert] at hj
      split at hj
      · cases hj
        exact hmv.ok
      · exact h.ok j t hj
    · intro j t hj f x
      rw [BTreeMap.get_insert] at hj
      split at hj
      · next hjt =>
        cases hj
        rw [hmv.owns, hjt, Function.update_self]
      · next hjt =>
        rw [Function.update_of_ne hjt]
        exact h.owner j t hj f x
    · intro f
      have hw := BTreeMap.weight_insert_old (v := taint')
        (fun taint : Taint => carries taint.entries f) ht
      have := hmv.claimed f
      have := h.claimed f
      omega

theorem Moved.congr {taint' : Taint} {claimed' : Claimed} {owns owns' : FailureId → Nat → Prop}
    (h : Moved taint taint' claimed claimed' owns) (he : ∀ f x, owns f x ↔ owns' f x) :
    Moved taint taint' claimed claimed' owns' :=
  ⟨h.ok, fun f x => (h.owns f x).trans (he f x), h.claimed⟩

theorem drop_ok {entries : List Tainted} (hclaimed : ∀ f, carries entries f ≤ claimed f) :
    Triple (Taint.drop ⟨entries⟩) claimed
      (fun _ claimed' => ∀ f, claimed' f + carries entries f = claimed f) (fun _ _ => False) := by
  refine (Triple.forM (I := fun rest c => ∀ f, c f + carries entries f = claimed f + carries rest f)
    (fun f => rfl) ?_).mono (fun _ c h f => ?_) (fun _ _ h => h)
  · intro entry rest c hc
    have hpos : 0 < c entry.failure := by
      have := hc entry.failure
      have := hclaimed entry.failure
      simp only [carries, List.map_cons, List.count_cons_self] at *
      omega
    refine Triple.get_bind (Triple.ite (fun h0 => absurd h0 hpos.ne') fun _ => Triple.set' fun f => ?_)
    have hf := hc f
    rw [Function.update_apply]
    split
    · next he =>
      subst he
      simp only [carries, List.map_cons, List.count_cons_self] at hf ⊢
      omega
    · next he =>
      simp only [carries, List.map_cons, List.count_cons_of_ne (Ne.symm he)] at hf ⊢
      exact hf
  · simpa [carries] using h f

theorem TaintOp.run_ok {w : TaintWorld} (op : TaintOp) (h : TaintInv w) :
    Triple op.run w (fun _ w' => TaintInv w') (fun f w' => f.IsPanic ∨ TaintInv w') := by
  cases op with
  | new table =>
    refine Triple.modify' ?_
    split
    · exact h
    · next hnew =>
      have hnone := (BTreeMap.contains_eq_false _ _).mp (Bool.eq_false_iff.mpr hnew)
      constructor <;> dsimp only
      · intro j t hj
        rw [BTreeMap.get_insert] at hj
        split at hj
        · cases hj
          exact ⟨by simp, by simp, by simp, fun f g x hf => by simp [Owns] at hf⟩
        · exact h.ok j t hj
      · intro j t hj f x
        rw [BTreeMap.get_insert] at hj
        split at hj
        · next hjt =>
          cases hj
          simp [Owns, hjt]
        · next hjt =>
          rw [Function.update_of_ne hjt]
          exact h.owner j t hj f x
      · intro f
        rw [BTreeMap.weight_insert_new _ hnone, h.claimed]
        simp [carries]
  | claim table range g =>
    refine h.update (fun owner x => if x ∈ range then some g else owner x) fun taint ht hok hle =>
      (claim_ok hok hle).mono (fun _ _ hm => hm.congr ?_) fun _ _ h => h
    intro f x
    rw [claimOwns]
    split
    · simp [eq_comm]
    · exact h.owner table taint ht f x
  | written table range =>
    refine h.update (fun owner x => if x ∈ range then none else owner x) fun taint ht hok hle =>
      (written_ok hok hle).mono (fun _ _ hm => hm.congr ?_) nofun
    intro f x
    rw [h.owner table taint ht]
    split <;> simp [*]
  | release table range g =>
    refine h.update (fun owner x => if x ∈ range ∧ owner x = some g then none else owner x)
      fun taint ht hok hle => (release_ok hok hle).mono (fun _ _ hm => hm.congr ?_) nofun
    intro f x
    rw [h.owner table taint ht]
    split
    · next hc =>
      refine ⟨fun hf => absurd ⟨?_, hc.1⟩ hf.2, nofun⟩
      simpa [hc.2] using hf.1.symm
    · next hc =>
      refine ⟨fun hf => hf.1, fun hf => ⟨hf, ?_⟩⟩
      rintro ⟨rfl, hx⟩
      exact hc ⟨hx, hf⟩
  | drop table =>
    refine Triple.get_bind ?_
    cases ht : w.tables[table]? with
    | none => exact Triple.pure' h
    | some taint =>
      have hle : ∀ f, carries taint.entries f ≤ w.claimed f := fun f => by
        rw [h.claimed]
        exact BTreeMap.le_weight (fun taint : Taint => carries taint.entries f) ht
      refine Triple.bind (Q := fun _ w' => ∃ c, w' = { w with claimed := c } ∧
        ∀ f, c f + carries taint.entries f = w.claimed f)
        (Triple.zoom ((drop_ok hle).mono (fun _ c hc => ⟨c, rfl, hc⟩) nofun)) ?_
      rintro _ _ ⟨c, rfl, hc⟩
      refine Triple.modify' ?_
      constructor <;> dsimp only
      · intro j t hj
        rw [BTreeMap.get_erase] at hj
        split at hj
        · cases hj
        · exact h.ok j t hj
      · intro j t hj
        rw [BTreeMap.get_erase] at hj
        split at hj
        · cases hj
        · exact h.owner j t hj
      · intro f
        have hw := BTreeMap.weight_erase (fun taint : Taint => carries taint.entries f) ht
        have := hc f
        have := h.claimed f
        omega

/-- Along every run over any number of tables: a table reports for a nonempty
range exactly the failures that own a byte of it, once each; its ranges are
canonical and no byte is held twice; and a failure's counter is the number of
tables that carry it. -/
theorem taint_tracks_owners {w : TaintWorld}
    (h : Reach TaintOp.run (fun _ _ => True) TaintWorld.initial w) :
    (∀ (table : Nat) taint, w.tables[table]? = some taint →
      (∀ range : ByteRange, range.start < range.stop → ∀ f,
        f ∈ taint.failures range ↔ ∃ x ∈ range, w.owner table x = some f) ∧
      (∀ range, (taint.failures range).Nodup) ∧
      (∀ entry ∈ taint.entries, Apart entry.ranges ∧ entry.ranges ≠ []) ∧
      ∀ entry ∈ taint.entries, ∀ entry' ∈ taint.entries, entry ≠ entry' →
        ∀ x, ¬(Covers entry.ranges x ∧ Covers entry'.ranges x)) ∧
    ∀ f, w.claimed f = BTreeMap.weight
      (fun taint : Taint => if f ∈ taint.entries.map Tainted.failure then 1 else 0) w.tables := by
  have hinv : TaintInv w := h.inv TaintInv.initial fun w op hw _ => op.run_ok hw
  refine ⟨fun table taint ht => ?_, fun f => ?_⟩
  · have hok := hinv.ok table taint ht
    refine ⟨fun range _ f => ?_, fun range => ?_, hok.ranges, ?_⟩
    · simp only [← hinv.owner table taint ht]
      exact mem_failures hok
    · exact hok.distinct.sublist (List.Sublist.map _ List.filter_sublist)
    · rintro entry hm entry' hm' hne x ⟨hx, hx'⟩
      refine hne (List.inj_on_of_nodup_map hok.distinct hm hm' ?_)
      exact hok.disjoint _ _ x ⟨entry, hm, rfl, hx⟩ ⟨entry', hm', rfl, hx'⟩
  · rw [hinv.claimed]
    refine BTreeMap.weight_congr fun table taint ht => ?_
    exact (hinv.ok table taint ht).distinct.count

/-- A claim, a second one over its middle, and a release of part of the first. -/
def taintCalls : List TaintOp :=
  [.new 0, .claim 0 ⟨0, 8⟩ 1, .claim 0 ⟨2, 4⟩ 2, .release 0 ⟨3, 6⟩ 1]

theorem taint_tracks_owners_split :
    1 ∈ ((runAll TaintOp.run taintCalls TaintWorld.initial).tables[0]?.elim []
      fun taint => taint.failures ⟨4, 7⟩) ∧
    ∃ x ∈ (⟨4, 7⟩ : ByteRange),
      (runAll TaintOp.run taintCalls TaintWorld.initial).owner 0 x = some 1 := by
  refine ⟨by decide, ?_⟩
  have hrun : Reach TaintOp.run (fun _ _ => True) TaintWorld.initial
      (runAll TaintOp.run taintCalls TaintWorld.initial) :=
    Reach.of_allOk (by simp [allMeet, taintCalls]) (by decide)
  have h := (taint_tracks_owners hrun).1 0
    ⟨[⟨1, [⟨0, 2⟩, ⟨6, 8⟩], false⟩, ⟨2, [⟨2, 4⟩], false⟩]⟩ (by decide)
  exact (h.1 ⟨4, 7⟩ (by decide) 1).mp (by decide)

end Ruda.Memory
