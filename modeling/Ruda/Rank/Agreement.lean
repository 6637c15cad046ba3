import Ruda.Rank.Protocol

/-!
# Agreement on the sequence of collectives

The coordinator's table of `rank/protocol.rs`. A submission is refused without a trace, or it is
accepted for the next sequence, unless it completes the last sequence that the counter has:
then the table is emptied before the overflow is seen.
-/

namespace Ruda.Rank

/-- The descriptors of the ranks; the sequences are 64-bit. -/
structure CollectiveAgreement where
  worldSize : Nat
  nextSequence : Nat
  pending : BTreeMap (List (Option OperationDescriptor))

structure Submission where
  rank : Nat
  sequence : Nat
  descriptor : OperationDescriptor

/-- What a call returns. -/
abbrev Answer := Except ProtocolError Bool

namespace CollectiveAgreement

def new (worldSize : Nat) : Except ProtocolError CollectiveAgreement :=
  if worldSize = 0 then .error .emptyWorld else .ok ⟨worldSize, 0, ∅⟩

/-- `entry(sequence).or_insert_with(|| vec![None; self.world_size])` -/
def ranksAt (s : CollectiveAgreement) (sequence : Nat) : List (Option OperationDescriptor) :=
  s.pending[sequence]?.getD (List.replicate s.worldSize none)

/-- The descriptor has a place of its own, which makes it present. -/
def record (s : CollectiveAgreement) (ranks : List (Option OperationDescriptor)) (c : Submission) : CollectiveAgreement × Answer :=
  let ranks := ranks.set c.rank (some c.descriptor)
  if ranks.all Option.isSome then
    let s := { s with pending := s.pending.erase c.sequence }
    if s.nextSequence + 1 ≤ u64Max then ({ s with nextSequence := s.nextSequence + 1 }, .ok true)
    else (s, .error .sequenceOverflow)
  else ({ s with pending := s.pending.insert c.sequence ranks }, .ok false)

/-- The state is left as it is where an error is returned before the descriptor is recorded: a
duplicate and a mismatch both find an entry that is there already. -/
def submit (s : CollectiveAgreement) (c : Submission) : CollectiveAgreement × Answer :=
  if s.worldSize ≤ c.rank then (s, .error (.rankOutOfRange "source" (.ofNat c.rank) (.ofNat s.worldSize)))
  else if c.sequence ≠ s.nextSequence then (s, .error (.sequenceMismatch s.nextSequence c.sequence))
  else
    let ranks := s.ranksAt c.sequence
    let s := { s with pending := s.pending.insert c.sequence ranks }
    if (ranks.getD c.rank none).isSome then (s, .error (.duplicateSubmission c.rank c.sequence))
    else
      match ranks.findSome? id with
      | some expected =>
        if expected ≠ c.descriptor then (s, .error (.collectiveMismatch c.sequence expected c.descriptor))
        else s.record ranks c
      | none => s.record ranks c

-- Runs

/-- The descriptor of the rank is present. -/
def Accepted (s : CollectiveAgreement) (sequence rank : Nat) (descriptor : OperationDescriptor) : Prop :=
  ∃ ranks, s.pending[sequence]? = some ranks ∧ ranks[rank]? = some (some descriptor)

/-- The call that makes the descriptor of every rank present, all of them equal. -/
def Completes (s : CollectiveAgreement) (c : Submission) : Prop :=
  c.rank < s.worldSize ∧ c.sequence = s.nextSequence ∧ (∀ d, ¬s.Accepted c.sequence c.rank d) ∧
    ∀ r < s.worldSize, r ≠ c.rank → s.Accepted c.sequence r c.descriptor

/-- The counter has a next sequence for the call. -/
def HasNext (s : CollectiveAgreement) (c : Submission) : Prop := s.Completes c → s.nextSequence < u64Max

def after (s : CollectiveAgreement) : List Submission → CollectiveAgreement
  | [] => s
  | c :: calls => (s.submit c).1.after calls

def answers (s : CollectiveAgreement) : List Submission → List Answer
  | [] => []
  | c :: calls => (s.submit c).2 :: (s.submit c).1.answers calls

/-- The sequences of the calls that return `Ok(true)`. -/
def readied (s : CollectiveAgreement) : List Submission → List Nat
  | [] => []
  | c :: calls =>
    match (s.submit c).2 with
    | .ok true => c.sequence :: (s.submit c).1.readied calls
    | _ => (s.submit c).1.readied calls

/-- Every step of a run meets the condition. -/
def Counted (s : CollectiveAgreement) : List Submission → Prop
  | [] => True
  | c :: calls => s.HasNext c ∧ (s.submit c).1.Counted calls

theorem after_append (s : CollectiveAgreement) (calls more : List Submission) :
    s.after (calls ++ more) = (s.after calls).after more := by
  induction calls generalizing s with
  | nil => rfl
  | cons c calls ih => exact ih _

-- The table

/-- The descriptors that are there are equal. -/
def Agree (ranks : List (Option OperationDescriptor)) : Prop :=
  ∀ (r : Nat) (d : OperationDescriptor) (r' : Nat) (d' : OperationDescriptor),
    ranks[r]? = some (some d) → ranks[r']? = some (some d') → d = d'

/-- At most the next sequence has an entry, and the descriptors of it agree. -/
structure Ok (s : CollectiveAgreement) : Prop where
  world : 0 < s.worldSize
  entry : ∀ (sequence : Nat) (ranks : List (Option OperationDescriptor)), s.pending[sequence]? = some ranks →
    sequence = s.nextSequence ∧ ranks.length = s.worldSize ∧ Agree ranks

theorem ok_of_empty {worldSize : Nat} (hworld : 0 < worldSize) (nextSequence : Nat) : Ok ⟨worldSize, nextSequence, ∅⟩ := by
  refine ⟨hworld, fun sequence ranks h => ?_⟩
  rw [BTreeMap.get_empty] at h
  cases h

theorem ok_of_new {worldSize : Nat} {s : CollectiveAgreement} (h : new worldSize = .ok s) : s.Ok := by
  unfold new at h
  split at h
  · cases h
  · next hzero =>
    obtain rfl := Except.ok.inj h
    exact ok_of_empty (Nat.pos_of_ne_zero hzero) 0

variable {s : CollectiveAgreement} {c : Submission}

theorem getElem_ranksAt {sequence r : Nat} {d : OperationDescriptor} :
    (s.ranksAt sequence)[r]? = some (some d) ↔ s.Accepted sequence r d := by
  rw [ranksAt, Accepted]
  cases hget : s.pending[sequence]? with
  | none =>
    rw [Option.getD_none, List.getElem?_replicate]
    constructor
    · intro h
      split at h
      · cases h
      · cases h
    · rintro ⟨_, h, -⟩
      cases h
  | some ranks => exact ⟨fun h => ⟨ranks, rfl, h⟩, fun ⟨_, h, hr⟩ => Option.some.inj h ▸ hr⟩

theorem Ok.length_ranksAt (hs : s.Ok) (sequence : Nat) : (s.ranksAt sequence).length = s.worldSize := by
  rw [ranksAt]
  cases hget : s.pending[sequence]? with
  | none => exact List.length_replicate
  | some ranks => exact (hs.entry sequence ranks hget).2.1

theorem Ok.agree_ranksAt (hs : s.Ok) (sequence : Nat) : Agree (s.ranksAt sequence) := by
  intro r d r' d' h h'
  obtain ⟨ranks, hget, hr⟩ := getElem_ranksAt.mp h
  obtain ⟨_, hget', hr'⟩ := getElem_ranksAt.mp h'
  obtain rfl := Option.some.inj (hget.symm.trans hget')
  exact (hs.entry sequence ranks hget).2.2 r d r' d' hr hr'

theorem findSome_eq {ranks : List (Option OperationDescriptor)} {r : Nat} {d : OperationDescriptor}
    (hagree : Agree ranks) (h : ranks[r]? = some (some d)) : ranks.findSome? id = some d := by
  cases hfind : ranks.findSome? id with
  | none => cases List.findSome?_eq_none_iff.mp hfind _ (List.mem_of_getElem? h)
  | some e =>
    obtain ⟨o, hmem, rfl⟩ := List.exists_of_findSome?_eq_some hfind
    obtain ⟨r', hr'⟩ := List.getElem?_of_mem hmem
    rw [hagree r d r' e h hr']

/-- A submission that is accepted: the rank has none yet, and the others have the same. -/
structure Admits (s : CollectiveAgreement) (c : Submission) : Prop where
  rank : c.rank < s.worldSize
  sequence : c.sequence = s.nextSequence
  first : ∀ d, ¬s.Accepted c.sequence c.rank d
  same : ∀ r d, s.Accepted c.sequence r d → d = c.descriptor

theorem record_insert (ranks : List (Option OperationDescriptor)) :
    { s with pending := s.pending.insert c.sequence ranks }.record ranks c = s.record ranks c := by
  simp only [record, BTreeMap.erase_insert, BTreeMap.insert_insert]

theorem insert_ranksAt {sequence r : Nat} {d : OperationDescriptor} (h : s.Accepted sequence r d) :
    { s with pending := s.pending.insert sequence (s.ranksAt sequence) } = s := by
  obtain ⟨ranks, hget, -⟩ := h
  rw [ranksAt, hget, Option.getD_some, BTreeMap.insert_get_self hget]

theorem submit_cases (hs : s.Ok) (c : Submission) :
    (¬s.Admits c ∧ ∃ e, s.submit c = (s, .error e)) ∨ (s.Admits c ∧ s.submit c = s.record (s.ranksAt c.sequence) c) := by
  unfold submit
  split
  · next hrank => exact .inl ⟨fun h => absurd h.rank (not_lt.mpr hrank), _, rfl⟩
  · next hrank =>
    split
    · next hsequence => exact .inl ⟨fun h => hsequence h.sequence, _, rfl⟩
    · next hsequence =>
      have hget : ∀ o, (s.ranksAt c.sequence).getD c.rank none = some o → s.Accepted c.sequence c.rank o := by
        intro o ho
        rw [List.getD_eq_getElem?_getD] at ho
        cases helem : (s.ranksAt c.sequence)[c.rank]? with
        | none =>
          rw [helem] at ho
          cases ho
        | some o' =>
          rw [helem, Option.getD_some] at ho
          exact getElem_ranksAt.mp (helem.trans (congrArg some ho))
      cases hmine : (s.ranksAt c.sequence).getD c.rank none with
      | some d =>
        have haccepted := hget d hmine
        refine .inl ⟨fun h => h.first d haccepted, .duplicateSubmission c.rank c.sequence, ?_⟩
        simp only [hmine, Option.isSome_some, if_true, insert_ranksAt haccepted]
      | none =>
        have hfirst : ∀ d, ¬s.Accepted c.sequence c.rank d := by
          intro d hd
          rw [List.getD_eq_getElem?_getD, getElem_ranksAt.mpr hd] at hmine
          cases hmine
        have hrank : c.rank < s.worldSize := not_le.mp hrank
        have hsequence : c.sequence = s.nextSequence := not_not.mp hsequence
        simp only [hmine, Option.isSome_none, Bool.false_eq_true, if_false]
        cases hfind : (s.ranksAt c.sequence).findSome? id with
        | none =>
          refine .inr ⟨⟨hrank, hsequence, hfirst, fun r d hd => ?_⟩, record_insert _⟩
          rw [findSome_eq (hs.agree_ranksAt _) (getElem_ranksAt.mpr hd)] at hfind
          cases hfind
        | some expected =>
          have hall : ∀ r d, s.Accepted c.sequence r d → d = expected := by
            intro r d hd
            rw [findSome_eq (hs.agree_ranksAt _) (getElem_ranksAt.mpr hd)] at hfind
            exact Option.some.inj hfind
          obtain ⟨o, hmem, rfl⟩ := List.exists_of_findSome?_eq_some hfind
          obtain ⟨r, hr⟩ := List.getElem?_of_mem hmem
          have haccepted := getElem_ranksAt.mp hr
          by_cases hsame : expected = c.descriptor
          · refine .inr ⟨⟨hrank, hsequence, hfirst, fun r d hd => (hall r d hd).trans hsame⟩, ?_⟩
            simp only [hsame, ne_eq, not_true_eq_false, if_false]
            exact record_insert _
          · refine .inl ⟨fun h => hsame (h.same r expected haccepted), .collectiveMismatch c.sequence expected c.descriptor, ?_⟩
            simp only [ne_eq, hsame, not_false_eq_true, if_true, insert_ranksAt haccepted]

-- What is accepted

theorem Ok.completes_iff (hs : s.Ok) :
    s.Completes c ↔ s.Admits c ∧ ∀ r < s.worldSize, r ≠ c.rank → ∃ d, s.Accepted c.sequence r d := by
  constructor
  · rintro ⟨hrank, hsequence, hfirst, hall⟩
    refine ⟨⟨hrank, hsequence, hfirst, fun r d hd => ?_⟩, fun r hr hne => ⟨_, hall r hr hne⟩⟩
    have hr : r < s.worldSize := by
      rw [← hs.length_ranksAt c.sequence]
      exact (List.getElem?_eq_some_iff.mp (getElem_ranksAt.mpr hd)).1
    have hne : r ≠ c.rank := fun h => hfirst d (h ▸ hd)
    exact hs.agree_ranksAt _ r d r _ (getElem_ranksAt.mpr hd) (getElem_ranksAt.mpr (hall r hr hne))
  · rintro ⟨hadmits, hall⟩
    refine ⟨hadmits.rank, hadmits.sequence, hadmits.first, fun r hr hne => ?_⟩
    obtain ⟨d, hd⟩ := hall r hr hne
    exact hadmits.same r d hd ▸ hd

/-- The entry with the new descriptor. -/
def recorded (s : CollectiveAgreement) (c : Submission) : List (Option OperationDescriptor) :=
  (s.ranksAt c.sequence).set c.rank (some c.descriptor)

theorem Ok.getElem_recorded (hs : s.Ok) (hc : s.Admits c) {r : Nat} {d : OperationDescriptor} :
    (s.recorded c)[r]? = some (some d) ↔ s.Accepted c.sequence r d ∨ r = c.rank ∧ d = c.descriptor := by
  rw [recorded, List.getElem?_set, hs.length_ranksAt]
  by_cases hr : c.rank = r
  · subst hr
    rw [if_pos rfl, if_pos hc.rank]
    constructor
    · rintro h
      exact .inr ⟨rfl, (Option.some.inj (Option.some.inj h)).symm⟩
    · rintro (h | ⟨-, rfl⟩)
      · exact absurd h (hc.first d)
      · rfl
  · rw [if_neg hr, getElem_ranksAt]
    exact ⟨.inl, fun h => h.resolve_right fun h => hr h.1.symm⟩

theorem Ok.all_recorded (hs : s.Ok) (hc : s.Admits c) : (s.recorded c).all Option.isSome = true ↔ s.Completes c := by
  have hlength : (s.recorded c).length = s.worldSize := by rw [recorded, List.length_set, hs.length_ranksAt]
  rw [hs.completes_iff, List.all_eq_true]
  constructor
  · intro hall
    refine ⟨hc, fun r hr hne => ?_⟩
    obtain ⟨d, hd⟩ := Option.isSome_iff_exists.mp (hall _ (List.getElem_mem (hlength ▸ hr)))
    have hget : (s.recorded c)[r]? = some (some d) := by rw [List.getElem?_eq_getElem (hlength ▸ hr), hd]
    exact ⟨d, ((hs.getElem_recorded hc).mp hget).resolve_right fun h => hne h.1⟩
  · rintro ⟨-, hall⟩ o ho
    obtain ⟨r, hr, rfl⟩ := List.getElem_of_mem ho
    have hget : ∃ d, (s.recorded c)[r]? = some (some d) := by
      by_cases hne : r = c.rank
      · exact ⟨_, (hs.getElem_recorded hc).mpr (.inr ⟨hne, rfl⟩)⟩
      · obtain ⟨d, hd⟩ := hall r (hlength ▸ hr) hne
        exact ⟨d, (hs.getElem_recorded hc).mpr (.inl hd)⟩
    obtain ⟨d, hd⟩ := hget
    rw [List.getElem?_eq_getElem hr] at hd
    rw [Option.some.inj hd]
    rfl

theorem Ok.erase (hs : s.Ok) (hsequence : c.sequence = s.nextSequence) : s.pending.erase c.sequence = ∅ := by
  apply Std.ExtTreeMap.ext_getElem?
  intro k
  rw [BTreeMap.get_erase, BTreeMap.get_empty]
  split
  · rfl
  · next hk =>
    cases hget : s.pending[k]? with
    | none => rfl
    | some ranks => exact absurd ((hs.entry k ranks hget).1.trans hsequence.symm) hk

theorem Ok.submit_spec (hs : s.Ok) (c : Submission) :
    (¬s.Admits c ∧ ∃ e, s.submit c = (s, .error e)) ∨
    (s.Completes c ∧ s.nextSequence < u64Max ∧ s.submit c = (⟨s.worldSize, s.nextSequence + 1, ∅⟩, .ok true)) ∨
    (s.Completes c ∧ u64Max ≤ s.nextSequence ∧ s.submit c = (⟨s.worldSize, s.nextSequence, ∅⟩, .error .sequenceOverflow)) ∨
    (s.Admits c ∧ ¬s.Completes c ∧ s.submit c = ({ s with pending := s.pending.insert c.sequence (s.recorded c) }, .ok false)) := by
  rcases submit_cases hs c with hrefused | ⟨hc, hsubmit⟩
  · exact .inl hrefused
  · refine .inr ?_
    rw [hsubmit, record]
    by_cases hall : s.Completes c
    · have hready := (hs.all_recorded hc).mpr hall
      rw [recorded] at hready
      simp only [hready, if_true, hs.erase hc.sequence]
      by_cases hroom : s.nextSequence < u64Max
      · exact .inl ⟨hall, hroom, if_pos hroom⟩
      · exact .inr (.inl ⟨hall, not_lt.mp hroom, if_neg hroom⟩)
    · have hready := mt (hs.all_recorded hc).mp hall
      rw [recorded] at hready
      exact .inr (.inr ⟨hc, hall, if_neg hready⟩)

theorem ok_submit (hs : s.Ok) (c : Submission) : (s.submit c).1.Ok := by
  rcases hs.submit_spec c with ⟨-, e, h⟩ | ⟨-, -, h⟩ | ⟨-, -, h⟩ | ⟨hc, -, h⟩
  · rw [h]
    exact hs
  · rw [h]
    exact ok_of_empty hs.world _
  · rw [h]
    exact ok_of_empty hs.world _
  · rw [h]
    refine ⟨hs.world, fun k ranks hget => ?_⟩
    rw [BTreeMap.get_insert] at hget
    split at hget
    · next hk =>
      obtain rfl := Option.some.inj hget
      refine ⟨hk.trans hc.sequence, by rw [recorded, List.length_set, hs.length_ranksAt], fun r d r' d' hd hd' => ?_⟩
      have hsame : ∀ r d, (s.recorded c)[r]? = some (some d) → d = c.descriptor := fun r d hd =>
        ((hs.getElem_recorded hc).mp hd).elim (hc.same r d) And.right
      rw [hsame r d hd, hsame r' d' hd']
    · exact hs.entry k ranks hget

theorem ok_after (hs : s.Ok) (calls : List Submission) : (s.after calls).Ok := by
  induction calls generalizing s with
  | nil => exact hs
  | cons c calls ih => exact ih (ok_submit hs c)

theorem not_accepted_empty {worldSize next k r : Nat} {d : OperationDescriptor} : ¬Accepted ⟨worldSize, next, ∅⟩ k r d := by
  rintro ⟨ranks, h, -⟩
  rw [BTreeMap.get_empty] at h
  cases h

-- Whole runs

theorem readied_eq (hs : s.Ok) (calls : List Submission) (hcounted : s.Counted calls) :
    s.nextSequence ≤ (s.after calls).nextSequence ∧
      s.readied calls = List.range' s.nextSequence ((s.after calls).nextSequence - s.nextSequence) := by
  induction calls generalizing s with
  | nil => exact ⟨le_rfl, by rw [after, Nat.sub_self]; rfl⟩
  | cons c calls ih =>
    obtain ⟨hnext, hcounted⟩ := hcounted
    obtain ⟨hle, hreadied⟩ := ih (ok_submit hs c) hcounted
    rw [after, readied]
    rcases hs.submit_spec c with ⟨-, e, h⟩ | ⟨hall, -, h⟩ | ⟨hall, hfull, h⟩ | ⟨hc, -, h⟩
    · rw [h] at hle hreadied ⊢
      exact ⟨hle, hreadied⟩
    · rw [h] at hle hreadied ⊢
      have hlt : s.nextSequence < (after ⟨s.worldSize, s.nextSequence + 1, ∅⟩ calls).nextSequence := hle
      refine ⟨hlt.le, ?_⟩
      have hsucc : (after ⟨s.worldSize, s.nextSequence + 1, ∅⟩ calls).nextSequence - s.nextSequence =
          (after ⟨s.worldSize, s.nextSequence + 1, ∅⟩ calls).nextSequence - (s.nextSequence + 1) + 1 := by omega
      rw [hsucc, List.range'_succ, ← hreadied, hall.2.1]
    · exact absurd (hnext hall) (not_lt.mpr hfull)
    · rw [h] at hle hreadied ⊢
      exact ⟨hle, hreadied⟩

/-- What a call does to the accepted descriptors, by its answer. -/
def Accounted (s : CollectiveAgreement) (c : Submission) : Answer → Prop
  | .ok true => (s.submit c).1.nextSequence = s.nextSequence + 1 ∧ ∀ k r d, ¬(s.submit c).1.Accepted k r d
  | .ok false => (s.submit c).1.nextSequence = s.nextSequence ∧
      ∀ k r d, (s.submit c).1.Accepted k r d ↔ s.Accepted k r d ∨ k = c.sequence ∧ r = c.rank ∧ d = c.descriptor
  | .error _ => (s.submit c).1.nextSequence = s.nextSequence ∧ (∀ k r d, (s.submit c).1.Accepted k r d ↔ s.Accepted k r d) ∧
      ∀ calls, (s.submit c).1.answers calls = s.answers calls

theorem accounted (hs : s.Ok) (hnext : s.HasNext c) : s.Accounted c (s.submit c).2 := by
  rcases hs.submit_spec c with ⟨-, e, h⟩ | ⟨-, -, h⟩ | ⟨hall, hfull, h⟩ | ⟨hc, -, h⟩
  · rw [h]
    simp only [Accounted, h, implies_true, and_self]
  · rw [h]
    simp only [Accounted, h, true_and]
    exact fun _ _ _ => not_accepted_empty
  · exact absurd (hnext hall) (not_lt.mpr hfull)
  · rw [h]
    simp only [Accounted, h, true_and]
    intro k r d
    rw [Accepted, BTreeMap.get_insert]
    by_cases hk : k = c.sequence
    · subst hk
      rw [if_pos rfl]
      constructor
      · rintro ⟨_, hget, hr⟩
        obtain rfl := Option.some.inj hget
        exact ((hs.getElem_recorded hc).mp hr).imp_right fun h => ⟨rfl, h⟩
      · rintro h
        exact ⟨_, rfl, (hs.getElem_recorded hc).mpr (h.imp_right And.right)⟩
    · rw [if_neg hk]
      exact ⟨.inl, fun h => h.resolve_right fun h => hk h.1⟩

theorem submit_ready_iff (hs : s.Ok) (hnext : s.HasNext c) : (s.submit c).2 = .ok true ↔ s.Completes c := by
  rcases hs.submit_spec c with ⟨hrefused, e, h⟩ | ⟨hall, -, h⟩ | ⟨hall, hfull, h⟩ | ⟨-, hall, h⟩
  · rw [h]
    exact ⟨nofun, fun hall => absurd (hs.completes_iff.mp hall).1 hrefused⟩
  · rw [h]
    exact ⟨fun _ => hall, fun _ => rfl⟩
  · exact absurd (hnext hall) (not_lt.mpr hfull)
  · rw [h]
    exact ⟨fun hready => (by cases hready), fun h => absurd h hall⟩

theorem counted_middle {pre post : List Submission} (h : s.Counted (pre ++ c :: post)) : (s.after pre).HasNext c := by
  induction pre generalizing s with
  | nil => exact h.1
  | cons c' pre ih => exact ih h.2

/-- A barrier of two ranks. -/
def barrier : OperationDescriptor := ⟨.barrier, .none, anyRank, 0, 0⟩

def halfway (n : Nat) : CollectiveAgreement := ⟨2, n, (∅ : BTreeMap _).insert n [some barrier, none]⟩

theorem accepted_halfway {n k r : Nat} {d : OperationDescriptor} :
    (halfway n).Accepted k r d ↔ k = n ∧ r = 0 ∧ d = barrier := by
  rw [Accepted, halfway, BTreeMap.get_insert]
  by_cases hk : k = n
  · rw [if_pos hk]
    constructor
    · rintro ⟨_, hranks, hr⟩
      obtain rfl := Option.some.inj hranks
      match r with
      | 0 => exact ⟨hk, rfl, (Option.some.inj (Option.some.inj hr)).symm⟩
      | 1 => cases hr
      | r + 2 => cases hr
    · rintro ⟨-, rfl, rfl⟩
      exact ⟨_, rfl, rfl⟩
  · rw [if_neg hk, BTreeMap.get_empty]
    exact ⟨fun ⟨_, h, _⟩ => (by cases h), fun h => absurd h.1 hk⟩

theorem submit_first (n : Nat) : submit ⟨2, n, ∅⟩ ⟨0, n, barrier⟩ = (halfway n, .ok false) := by
  have hadmits : Admits ⟨2, n, ∅⟩ ⟨0, n, barrier⟩ :=
    ⟨Nat.two_pos, rfl, fun _ => not_accepted_empty, fun _ _ h => absurd h not_accepted_empty⟩
  have hopen : ¬Completes ⟨2, n, ∅⟩ ⟨0, n, barrier⟩ := fun h => not_accepted_empty (h.2.2.2 1 Nat.one_lt_two Nat.one_ne_zero)
  rcases (ok_of_empty Nat.two_pos n).submit_spec ⟨0, n, barrier⟩ with ⟨h, -⟩ | ⟨h, -⟩ | ⟨h, -⟩ | ⟨-, -, h⟩
  · exact absurd hadmits h
  · exact absurd h hopen
  · exact absurd h hopen
  · rw [h, halfway, recorded, ranksAt, BTreeMap.get_empty]
    rfl

theorem completes_second (n : Nat) : (halfway n).Completes ⟨1, n, barrier⟩ := by
  refine ⟨Nat.one_lt_two, rfl, fun d h => ?_, fun r hr hne => accepted_halfway.mpr ⟨rfl, ?_, rfl⟩⟩
  · exact absurd (accepted_halfway.mp h).2.1 Nat.one_ne_zero
  · have hr : r < 2 := hr
    have hne : r ≠ 1 := hne
    omega

theorem ok_halfway (n : Nat) : (halfway n).Ok := by
  have hok := ok_submit (ok_of_empty Nat.two_pos n) ⟨0, n, barrier⟩
  rwa [submit_first] at hok

/-- In a run that never completes the last sequence of the counter, the sequences are agreed on one after the other, at the
calls that complete them, and a call that fails leaves no trace. -/
theorem run_atomic {worldSize : Nat} {s : CollectiveAgreement} (hnew : new worldSize = .ok s) {calls : List Submission}
    (hcounted : s.Counted calls) :
    s.readied calls = List.range (s.after calls).nextSequence ∧
    ∀ pre c post, calls = pre ++ c :: post →
      (((s.after pre).submit c).2 = .ok true ↔ (s.after pre).Completes c) ∧
      (s.after pre).Accounted c ((s.after pre).submit c).2 := by
  have hs := ok_of_new hnew
  have hzero : s.nextSequence = 0 := by
    unfold new at hnew
    split at hnew
    · cases hnew
    · obtain rfl := Except.ok.inj hnew
      rfl
  refine ⟨?_, fun pre c post hcalls => ?_⟩
  · rw [(readied_eq hs calls hcounted).2, hzero, Nat.sub_zero, List.range_eq_range']
  · have hnext := counted_middle (hcalls ▸ hcounted)
    exact ⟨submit_ready_iff (ok_after hs pre) hnext, accounted (ok_after hs pre) hnext⟩

theorem run_atomic_two : readied ⟨2, 0, ∅⟩ [⟨0, 0, barrier⟩, ⟨1, 0, barrier⟩] =
    List.range (after ⟨2, 0, ∅⟩ [⟨0, 0, barrier⟩, ⟨1, 0, barrier⟩]).nextSequence := by
  have hcounted : Counted ⟨2, 0, ∅⟩ [⟨0, 0, barrier⟩, ⟨1, 0, barrier⟩] := by
    rw [Counted, Counted, Counted, submit_first]
    exact ⟨fun _ => by decide, fun _ => by decide, trivial⟩
  exact (@run_atomic 2 _ rfl _ hcounted).1

-- The last sequence

def rounds (n : Nat) : List Submission := (List.range n).flatMap fun k => [⟨0, k, barrier⟩, ⟨1, k, barrier⟩]

theorem after_rounds {n : Nat} (hn : n ≤ u64Max) : after ⟨2, 0, ∅⟩ (rounds n) = ⟨2, n, ∅⟩ := by
  induction n with
  | zero => rfl
  | succ n ih =>
    have hsplit : rounds (n + 1) = rounds n ++ [⟨0, n, barrier⟩, ⟨1, n, barrier⟩] := by
      rw [rounds, rounds, List.range_succ, List.flatMap_append, List.flatMap_singleton]
    rw [hsplit, after_append, ih (Nat.le_of_succ_le hn), after, after, after, submit_first]
    rcases (ok_halfway n).submit_spec ⟨1, n, barrier⟩ with ⟨h, -⟩ | ⟨-, -, h⟩ | ⟨-, hfull, -⟩ | ⟨-, h, -⟩
    · exact absurd ((ok_halfway n).completes_iff.mp (completes_second n)).1 h
    · rw [h]
      rfl
    · exact absurd hn (not_le.mpr (Nat.lt_succ_of_le hfull))
    · exact absurd (completes_second n) h

/-- The call that would complete the last sequence returns an error and forgets the descriptor of rank 0. -/
theorem run_overflow : ∃ calls c, ((after ⟨2, 0, ∅⟩ calls).submit c).2 = .error .sequenceOverflow ∧
    (after ⟨2, 0, ∅⟩ calls).Accepted c.sequence 0 barrier ∧
    ¬((after ⟨2, 0, ∅⟩ calls).submit c).1.Accepted c.sequence 0 barrier := by
  refine ⟨rounds u64Max ++ [⟨0, u64Max, barrier⟩], ⟨1, u64Max, barrier⟩, ?_⟩
  rw [after_append, after_rounds le_rfl, after, after, submit_first]
  rcases (ok_halfway u64Max).submit_spec ⟨1, u64Max, barrier⟩ with ⟨h, -⟩ | ⟨-, h, -⟩ | ⟨-, -, h⟩ | ⟨-, h, -⟩
  · exact absurd ((ok_halfway _).completes_iff.mp (completes_second _)).1 h
  · exact absurd h (lt_irrefl _)
  · rw [h]
    exact ⟨rfl, accepted_halfway.mpr ⟨rfl, rfl, rfl⟩, not_accepted_empty⟩
  · exact absurd (completes_second _) h

end CollectiveAgreement

end Ruda.Rank
