import Ruda.Data.Resharding

/-!
# Training on changing topologies

The ranks call their samplers in any order. Now and then the states of all ranks are consolidated
and dealt out to as many ranks as there are then.
-/

namespace Ruda.Data

/-- A rank with its sampler, and the state that it captured last. -/
structure Rank where
  sampler : StatefulShardSampler
  saved : SamplerState

inductive Call
  | nextIndices (maximum : Nat)
  | next
  | commit (count : Nat)
  | rewindUncommitted
  | state
  | fromState
  | loadState
  deriving DecidableEq

namespace Rank

def ofSampler (sampler : StatefulShardSampler) : Rank where
  sampler := sampler
  saved := sampler.state

/-- A call, and how it ends. -/
def call (rank : Rank) : Call → Res String Unit × Rank
  | .nextIndices maximum =>
    let (result, sampler) := rank.sampler.nextIndices maximum
    (result.map fun _ => (), { rank with sampler })
  | .next => (.ok (), { rank with sampler := rank.sampler.next.2 })
  | .commit count =>
    let (result, sampler) := rank.sampler.commit count
    (result, { rank with sampler })
  | .rewindUncommitted => (.ok (), { rank with sampler := rank.sampler.rewindUncommitted })
  | .state => (.ok (), { rank with saved := rank.sampler.state })
  | .fromState =>
    match Data.fromState rank.saved with
    | .ok sampler => (.ok (), { rank with sampler })
    | .error error => (.error error, rank)
  | .loadState =>
    let (result, sampler) := rank.sampler.loadState rank.saved
    (result, { rank with sampler })

/-- The rank goes through its part of the layout. -/
structure Fits {e : Epoch} (l : Layout e) (r : Nat) (rank : Rank) : Prop where
  state : rank.sampler.state = l.state r rank.sampler.state.committed
  committed : rank.sampler.state.committed ≤ rank.sampler.issued
  issued : rank.sampler.issued ≤ rank.sampler.state.indices.length
  saved : rank.saved = l.state r rank.saved.committed
  savedLe : rank.saved.committed ≤ (dealt l.world r l.scope).length

variable {e : Epoch} {l : Layout e} {r : Nat} {rank : Rank}

theorem Fits.length (h : rank.Fits l r) : rank.sampler.state.indices.length = (dealt l.world r l.scope).length := by
  rw [h.state]
  rfl

theorem Fits.within (h : rank.Fits l r) : rank.sampler.state.committed ≤ (dealt l.world r l.scope).length :=
  h.length ▸ h.committed.trans h.issued

theorem fits_ofSampler (l : Layout e) (r : Nat) : (ofSampler { state := l.state r 0, issued := 0 }).Fits l r where
  state := rfl
  committed := le_rfl
  issued := Nat.zero_le _
  saved := rfl
  savedLe := Nat.zero_le _

theorem Fits.issue (h : rank.Fits l r) {issued : Nat} (hc : rank.sampler.state.committed ≤ issued)
    (hi : issued ≤ rank.sampler.state.indices.length) :
    ({ rank with sampler := { rank.sampler with issued } } : Rank).Fits l r :=
  { h with committed := hc, issued := hi }

theorem Fits.restore (h : rank.Fits l r) :
    ({ rank with sampler := { state := rank.saved, issued := rank.saved.committed } } : Rank).Fits l r where
  state := h.saved
  committed := le_rfl
  issued := by
    rw [h.saved]
    exact h.savedLe
  saved := h.saved
  savedLe := h.savedLe

theorem nextIndices_cases (sampler : StatefulShardSampler) (maximum : Nat) :
    (∃ result, sampler.nextIndices maximum = (result, sampler) ∧
      (result = .error .panic → sampler.state.indices.length < sampler.issued ∨ usizeMax < sampler.issued)) ∨
    ∃ stop indices, sampler.nextIndices maximum = (.ok (some indices), { sampler with issued := stop }) ∧
      sampler.issued ≤ stop ∧ stop ≤ sampler.state.indices.length := by
  unfold StatefulShardSampler.nextIndices
  split
  · exact .inl ⟨_, rfl, nofun⟩
  · dsimp only
    split
    · exact .inl ⟨_, rfl, nofun⟩
    · split
      · next hlt =>
        refine .inl ⟨_, rfl, fun _ => ?_⟩
        omega
      · next hle => exact .inr ⟨_, _, rfl, not_lt.mp hle, min_le_right _ _⟩

theorem loadState_cases (sampler : StatefulShardSampler) (state : SamplerState) :
    (∃ error, sampler.loadState state = (.error error, sampler) ∧ (error = .panic → state.validate = .error .panic)) ∨
    sampler.loadState state = (.ok (), { state, issued := state.committed }) := by
  unfold StatefulShardSampler.loadState
  split
  · next error herror => exact .inl ⟨error, rfl, fun hpanic => hpanic ▸ herror⟩
  · split
    · exact .inl ⟨_, rfl, nofun⟩
    · exact .inr rfl

theorem commit_cases (sampler : StatefulShardSampler) (count : Nat) :
    (∃ message, sampler.commit count = (.error (.err message), sampler)) ∨
    ∃ committed ≤ sampler.issued,
      sampler.commit count = (.ok (), { sampler with state := { sampler.state with committed } }) := by
  unfold StatefulShardSampler.commit
  split
  · exact .inl ⟨_, rfl⟩
  · split
    · exact .inl ⟨_, rfl⟩
    · next hle => exact .inr ⟨_, not_lt.mp hle, rfl⟩

theorem call_fits (h : rank.Fits l r) (call : Call) : (rank.call call).2.Fits l r := by
  cases call with
  | nextIndices maximum =>
    rcases nextIndices_cases rank.sampler maximum with ⟨result, hcall, -⟩ | ⟨stop, indices, hcall, hle, hstop⟩
    · simp only [Rank.call, hcall]
      exact h
    · simp only [Rank.call, hcall]
      exact h.issue (h.committed.trans hle) hstop
  | next =>
    simp only [Rank.call, StatefulShardSampler.next]
    split
    · next item hitem =>
      obtain ⟨hlt, -⟩ := List.getElem?_eq_some_iff.mp hitem
      exact h.issue (h.committed.trans (Nat.le_succ _)) hlt
    · exact h
  | commit count =>
    rcases commit_cases rank.sampler count with ⟨message, hcall⟩ | ⟨committed, hle, hcall⟩
    · simp only [Rank.call, hcall]
      exact h
    · simp only [Rank.call, hcall]
      exact { h with
        state := by
          rw [h.state]
          rfl
        committed := hle }
  | rewindUncommitted => exact h.issue le_rfl (h.committed.trans h.issued)
  | state => exact { h with saved := h.state, savedLe := h.within }
  | fromState =>
    simp only [Rank.call]
    split
    · next sampler hsampler =>
      obtain ⟨_, -, hsampler⟩ := bind_eq_ok.mp hsampler
      obtain rfl := Except.ok.inj hsampler
      exact h.restore
    · exact h
  | loadState =>
    rcases loadState_cases rank.sampler rank.saved with ⟨error, hcall, -⟩ | hcall
    · simp only [Rank.call, hcall]
      exact h
    · simp only [Rank.call, hcall]
      exact h.restore

theorem call_error {call : Call} {error : Stop String} (h : (rank.call call).1 = .error error) :
    (rank.call call).2 = rank := by
  cases call with
  | nextIndices maximum =>
    rcases nextIndices_cases rank.sampler maximum with ⟨result, hcall, -⟩ | ⟨stop, indices, hcall, -⟩
    · simp only [Rank.call, hcall]
    · simp only [Rank.call, hcall] at h
      cases h
  | next => cases h
  | commit count =>
    rcases commit_cases rank.sampler count with ⟨message, hcall⟩ | ⟨committed, -, hcall⟩
    · simp only [Rank.call, hcall]
    · simp only [Rank.call, hcall] at h
      cases h
  | rewindUncommitted => cases h
  | state => cases h
  | fromState =>
    simp only [Rank.call] at h ⊢
    split at h
    · cases h
    · rfl
  | loadState =>
    rcases loadState_cases rank.sampler rank.saved with ⟨error, hcall, -⟩ | hcall
    · simp only [Rank.call, hcall]
    · simp only [Rank.call, hcall] at h
      cases h

theorem call_noPanic (he : e.Valid) (hr : r < l.world) (h : rank.Fits l r) (call : Call) :
    NoPanic (rank.call call).1 := by
  have hvalid : rank.saved.validate = .ok () := by
    rw [h.saved]
    exact Layout.validate_ok he hr h.savedLe
  cases call with
  | nextIndices maximum =>
    rcases nextIndices_cases rank.sampler maximum with ⟨result, hcall, hpanic⟩ | ⟨stop, indices, hcall, -⟩
    · simp only [Rank.call, hcall]
      have hlen := h.length
      have hissued := h.issued
      have hsub : (dealt l.world r l.scope).length ≤ e.sourceLength :=
        (dealt_sublist.trans l.sublist).length_le.trans he.length
      have hfits := he.fits
      cases result with
      | ok value => exact noPanic_ok ()
      | error error =>
        intro hno
        have := hpanic (congrArg Except.error (Except.error.inj hno))
        omega
    · simp only [Rank.call, hcall]
      exact noPanic_ok ()
  | next => exact noPanic_ok ()
  | commit count =>
    rcases commit_cases rank.sampler count with ⟨message, hcall⟩ | ⟨committed, -, hcall⟩
    · simp only [Rank.call, hcall]
      exact noPanic_err message
    · simp only [Rank.call, hcall]
      exact noPanic_ok ()
  | rewindUncommitted => exact noPanic_ok ()
  | state => exact noPanic_ok ()
  | fromState =>
    have hfrom : Data.fromState rank.saved = .ok { state := rank.saved, issued := rank.saved.committed } :=
      bind_eq_ok.mpr ⟨(), hvalid, rfl⟩
    simp only [Rank.call, hfrom]
    exact noPanic_ok ()
  | loadState =>
    rcases loadState_cases rank.sampler rank.saved with ⟨error, hcall, hpanic⟩ | hcall
    · simp only [Rank.call, hcall]
      intro hno
      have := hpanic (Except.error.inj hno)
      rw [hvalid] at this
      cases this
    · simp only [Rank.call, hcall]
      exact noPanic_ok ()

end Rank

-- Runs

structure Training where
  world : Nat
  ranks : Nat → Rank
  /-- The samples that were committed in the layouts before. -/
  log : List Nat

namespace Training

variable (t : Training)

def state (r : Nat) : SamplerState := (t.ranks r).sampler.state

/-- The samples that are committed in this layout. -/
def committed : List Nat := (List.range t.world).flatMap fun r => (t.state r).indices.take (t.state r).committed

/-- The records hold the state of every rank, in any order and as often as anyone likes. -/
structure Covers (records : List SamplerState) : Prop where
  known : ∀ record ∈ records, ∃ r < t.world, record = t.state r
  all : ∀ r < t.world, t.state r ∈ records

/-- The start of an epoch on a topology. -/
structure Start (shuffle : Nat → List Nat → List Nat) (sourceId : String) (sourceLength epoch : Nat)
    (shuffleSeed : Option Nat) (tail : SampleTail) : Prop where
  pos : 0 < t.world
  log : t.log = []
  ranks : ∀ r < t.world, ∃ sampler,
    newSampler shuffle sourceId sourceLength r t.world epoch shuffleSeed tail = .ok sampler ∧
      t.ranks r = .ofSampler sampler

inductive Step : Training → Training → Prop
  | call (t : Training) (r : Nat) (hr : r < t.world) (c : Call) :
    Step t { t with ranks := Function.update t.ranks r ((t.ranks r).call c).2 }
  | reshard (t : Training) (records : List SamplerState) (hrecords : t.Covers records)
      (consolidated : ConsolidatedSamplerState) (hconsolidated : consolidate records = .ok consolidated)
      (world : Nat) (hworld : 0 < world) (samplers : Nat → StatefulShardSampler)
      (hsamplers : ∀ r < world, reshard consolidated r world = .ok (samplers r)) :
    Step t { world, ranks := fun r => .ofSampler (samplers r), log := t.log ++ t.committed }

/-- Everyone goes through a part of one layout, and what the layout shares out was not committed before. -/
structure Follows {e : Epoch} (l : Layout e) : Prop where
  world : t.world = l.world
  fits : ∀ r < l.world, (t.ranks r).Fits l r
  perm : (t.log ++ l.scope).Perm e.order

variable {t} {e : Epoch} {l : Layout e}

theorem Follows.within (h : t.Follows l) : l.Within fun r => (t.state r).committed := fun r hr => (h.fits r hr).within

theorem Follows.covers (h : t.Follows l) {records : List SamplerState} (hrecords : t.Covers records) :
    l.Covers (fun r => (t.state r).committed) records where
  known record hmem := by
    obtain ⟨r, hr, rfl⟩ := hrecords.known record hmem
    have hr := h.world ▸ hr
    exact ⟨r, hr, (h.fits r hr).state⟩
  all r hr := by
    have hmem := hrecords.all r (h.world ▸ hr)
    rwa [Training.state, (h.fits r hr).state] at hmem

theorem Follows.committed_eq (h : t.Follows l) : t.committed = l.taken fun r => (t.state r).committed := by
  rw [Training.committed, h.world]
  refine List.flatMap_congr fun r hr => ?_
  have hstate : t.state r = l.state r (t.state r).committed := (h.fits r (List.mem_range.mp hr)).state
  rw [hstate]
  rfl

theorem Follows.committed_perm (he : e.Valid) (h : t.Follows l) :
    (t.log ++ t.committed ++ undealt l.world (fun r => (t.state r).committed) l.scope).Perm e.order := by
  rw [List.append_assoc, h.committed_eq]
  exact ((Layout.taken_append he _).append_left t.log).trans h.perm

end Training

/-- What is left of a layout is the scope of the next one. -/
def Layout.next {e : Epoch} (l : Layout e) (he : e.Valid) {committed : Nat → Nat} (hc : l.Within committed)
    {world : Nat} (hworld : 0 < world) : Layout e where
  carried := (l.consolidated committed).consumed
  scope := (l.consolidated committed).remaining
  world := world
  sublist := undealt_sublist.trans l.sublist
  counts := Layout.consumed_add he hc
  pos := hworld

theorem Layout.reshard_ok {e : Epoch} {l : Layout e} (he : e.Valid) {committed : Nat → Nat} (hc : l.Within committed)
    {r world : Nat} (hr : r < world) :
    reshard (l.consolidated committed) r world =
      .ok { state := (l.next he hc (Nat.zero_lt_of_lt hr)).state r 0, issued := 0 } := by
  have hbad : ¬(world = 0 ∨ r ≥ world) := by omega
  refine bind_eq_ok.mpr ⟨(), consolidated_validate he hc, bind_eq_ok.mpr ⟨(), failIf_ok.mpr hbad, ?_⟩⟩
  exact bind_eq_ok.mpr ⟨(), validate_ok (l := l.next he hc (Nat.zero_lt_of_lt hr)) he hr (Nat.zero_le _), rfl⟩

namespace Training

variable {t : Training} {e : Epoch} {l : Layout e}

theorem Follows.step (he : e.Valid) (h : t.Follows l) {t' : Training} (hstep : Step t t') :
    ∃ l' : Layout e, t'.Follows l' := by
  cases hstep with
  | call r hr c =>
    refine ⟨l, { h with fits := fun other ho => ?_ }⟩
    show (Function.update t.ranks r ((t.ranks r).call c).2 other).Fits l other
    by_cases heq : other = r
    · subst heq
      rw [Function.update_self]
      exact Rank.call_fits (h.fits other ho) c
    · rw [Function.update_of_ne heq]
      exact h.fits other ho
  | reshard records hrecords consolidated hconsolidated world hworld samplers hsamplers =>
    have hc := h.within
    have hconsolidate := Layout.consolidate_covers he hc (h.covers hrecords)
    obtain rfl := Except.ok.inj (hconsolidate.symm.trans hconsolidated)
    refine ⟨l.next he hc hworld, rfl, fun r hr => ?_, h.committed_perm he⟩
    have hsampler := Except.ok.inj ((Layout.reshard_ok he hc hr).symm.trans (hsamplers r hr))
    show (Rank.ofSampler (samplers r)).Fits _ r
    rw [← hsampler]
    exact Rank.fits_ofSampler _ r

theorem Follows.run (he : e.Valid) (h : t.Follows l) {t' : Training} (hrun : Relation.ReflTransGen Step t t') :
    ∃ l' : Layout e, t'.Follows l' := by
  induction hrun with
  | refl => exact ⟨l, h⟩
  | tail _ hstep ih =>
    obtain ⟨l', h'⟩ := ih
    exact h'.step he hstep

end Training

-- The first layout

section

variable {shuffle : Nat → List Nat → List Nat} {sourceId : String} {sourceLength epoch : Nat}
  {shuffleSeed : Option Nat} {tail : SampleTail} {world : Nat}

/-- The epoch that a new sampler starts. -/
def newEpoch (shuffle : Nat → List Nat → List Nat) (sourceId : String) (sourceLength world epoch : Nat)
    (shuffleSeed : Option Nat) (tail : SampleTail) : Epoch where
  sourceId := sourceId
  sourceLength := sourceLength
  epoch := epoch
  shuffleSeed := shuffleSeed
  tail := tail
  order := epochOrder shuffle sourceLength world epoch shuffleSeed tail

theorem epochOrder_take (hshuffle : ∀ seed l, (shuffle seed l).Perm l) :
    ∃ order : List Nat, order.Perm (List.range sourceLength) ∧
      epochOrder shuffle sourceLength world epoch shuffleSeed tail = order.take (epochSizeOf tail sourceLength world) := by
  cases shuffleSeed with
  | none => exact ⟨_, .refl _, rfl⟩
  | some seed => exact ⟨_, hshuffle _ _, rfl⟩

theorem epochSizeOf_le : epochSizeOf tail sourceLength world ≤ sourceLength := by
  cases tail with
  | uneven => exact le_rfl
  | drop => exact Nat.div_mul_le_self _ _

theorem length_newEpoch (hshuffle : ∀ seed l, (shuffle seed l).Perm l) :
    (newEpoch shuffle sourceId sourceLength world epoch shuffleSeed tail).order.length =
      epochSizeOf tail sourceLength world := by
  obtain ⟨order, hperm, heq⟩ : ∃ order : List Nat, order.Perm (List.range sourceLength) ∧
      epochOrder shuffle sourceLength world epoch shuffleSeed tail = order.take (epochSizeOf tail sourceLength world) :=
    epochOrder_take hshuffle
  simp only [newEpoch, heq, List.length_take, hperm.length_eq, List.length_range]
  exact min_eq_left epochSizeOf_le

theorem newEpoch_valid (hshuffle : ∀ seed l, (shuffle seed l).Perm l) (hid : sourceId ≠ "")
    (hfits : sourceLength ≤ usizeMax) :
    (newEpoch shuffle sourceId sourceLength world epoch shuffleSeed tail).Valid := by
  obtain ⟨order, hperm, heq⟩ : ∃ order : List Nat, order.Perm (List.range sourceLength) ∧
      epochOrder shuffle sourceLength world epoch shuffleSeed tail = order.take (epochSizeOf tail sourceLength world) :=
    epochOrder_take hshuffle
  have hsub : (newEpoch shuffle sourceId sourceLength world epoch shuffleSeed tail).order.Sublist order := by
    simp only [newEpoch, heq]
    exact List.take_sublist _ _
  exact {
    sourceId := hid
    nodup := (hperm.nodup_iff.mpr List.nodup_range).sublist hsub
    inside := fun index hindex => List.mem_range.mp (hperm.mem_iff.mp (hsub.mem hindex))
    length := (length_newEpoch hshuffle).trans_le epochSizeOf_le
    fits := hfits }

/-- At first everything is left. -/
def Layout.first (e : Epoch) (hworld : 0 < world) : Layout e where
  carried := 0
  scope := e.order
  world := world
  sublist := .refl _
  counts := Nat.zero_add _
  pos := hworld

theorem newSampler_eq {r : Nat} {sampler : StatefulShardSampler} (hshuffle : ∀ seed l, (shuffle seed l).Perm l)
    (hworld : 0 < world) (h : newSampler shuffle sourceId sourceLength r world epoch shuffleSeed tail = .ok sampler) :
    sourceId ≠ "" ∧ sampler =
      { state := (Layout.first (newEpoch shuffle sourceId sourceLength world epoch shuffleSeed tail) hworld).state r 0
        issued := 0 } := by
  obtain ⟨_, hid, h⟩ := bind_eq_ok.mp h
  obtain ⟨_, -, h⟩ := bind_eq_ok.mp h
  obtain rfl := Except.ok.inj h
  have hid := failIf_ok.mp hid
  refine ⟨fun hempty => hid (.inl hempty), ?_⟩
  simp only [Layout.state, Layout.first, length_newEpoch hshuffle]
  rfl

theorem Training.Start.follows {t : Training} (hshuffle : ∀ seed l, (shuffle seed l).Perm l)
    (h : t.Start shuffle sourceId sourceLength epoch shuffleSeed tail) :
    sourceId ≠ "" ∧
      t.Follows (Layout.first (newEpoch shuffle sourceId sourceLength t.world epoch shuffleSeed tail) h.pos) := by
  refine ⟨?_, rfl, fun r hr => ?_, ?_⟩
  · obtain ⟨sampler, hsampler, -⟩ := h.ranks 0 h.pos
    exact (newSampler_eq hshuffle h.pos hsampler).1
  · obtain ⟨sampler, hsampler, heq⟩ := h.ranks r hr
    rw [heq, (newSampler_eq hshuffle h.pos hsampler).2]
    exact Rank.fits_ofSampler _ r
  · rw [h.log]
    exact .refl _

/-- What is committed in all layouts and what consolidation finds left is the epoch, however the ranks and the
topology changed. -/
theorem resharding_exact (hshuffle : ∀ seed l, (shuffle seed l).Perm l) (hfits : sourceLength ≤ usizeMax)
    {t₀ t : Training} (hstart : t₀.Start shuffle sourceId sourceLength epoch shuffleSeed tail)
    (hrun : Relation.ReflTransGen Training.Step t₀ t) :
    (∀ r < t.world, (t.state r).committed ≤ (t.ranks r).sampler.issued ∧
      (t.ranks r).sampler.issued ≤ (t.state r).indices.length ∧
      ∀ call, NoPanic ((t.ranks r).call call).1 ∧
        ∀ error, ((t.ranks r).call call).1 = .error error → ((t.ranks r).call call).2 = t.ranks r) ∧
    ∀ records, t.Covers records → ∃ consolidated,
      consolidate records = .ok consolidated ∧
      (t.log ++ t.committed ++ consolidated.remaining).Perm
        (epochOrder shuffle sourceLength t₀.world epoch shuffleSeed tail) ∧
      (epochOrder shuffle sourceLength t₀.world epoch shuffleSeed tail).Nodup ∧
      consolidated.remaining.Sublist (epochOrder shuffle sourceLength t₀.world epoch shuffleSeed tail) ∧
      consolidated.epochSize = epochSizeOf tail sourceLength t₀.world ∧
      consolidated.consumed + consolidated.remaining.length = consolidated.epochSize ∧
      ∀ world, ∀ r < world, ∃ sampler, reshard consolidated r world = .ok sampler := by
  obtain ⟨hid, hfollows⟩ := hstart.follows hshuffle
  have he : (newEpoch shuffle sourceId sourceLength t₀.world epoch shuffleSeed tail).Valid :=
    newEpoch_valid hshuffle hid hfits
  obtain ⟨l, h⟩ := hfollows.run he hrun
  refine ⟨fun r hr => ?_, fun records hrecords => ?_⟩
  · have hr := h.world ▸ hr
    have hrank := h.fits r hr
    exact ⟨hrank.committed, hrank.issued, fun call => ⟨Rank.call_noPanic he hr hrank call, fun _ => Rank.call_error⟩⟩
  · have hc := h.within
    have hsub : (undealt l.world (fun r => (t.state r).committed) l.scope).Sublist _ := undealt_sublist.trans l.sublist
    refine ⟨_, Layout.consolidate_covers he hc (h.covers hrecords), h.committed_perm he, he.nodup, hsub, length_newEpoch hshuffle, Layout.consumed_add he hc, ?_⟩
    exact fun world r hr => ⟨_, Layout.reshard_ok he hc hr⟩

end

/-- Five samples in reverse, shared by two ranks. -/
def pair : Training where
  world := 2
  ranks r := .ofSampler {
    state := (Layout.first (newEpoch (fun _ => List.reverse) "samples" 5 2 0 (some 7) .uneven) Nat.two_pos).state r 0
    issued := 0 }
  log := []

/-- The four samples that are left after a commit of the first one, for three ranks. -/
def three : Training where
  world := 3
  ranks r := .ofSampler {
    state := { (pair.state r) with
      worldSize := 3, carriedConsumed := 1, scopeSize := 4, indices := dealt 3 r [3, 2, 1, 0] }
    issued := 0 }
  log := [4]

theorem pair_start : pair.Start (fun _ => List.reverse) "samples" 5 0 (some 7) .uneven where
  pos := Nat.two_pos
  log := rfl
  ranks r hr := by
    have hr : r < 2 := hr
    refine ⟨(pair.ranks r).sampler, ?_, rfl⟩
    interval_cases r <;> decide +kernel

theorem pair_three : Relation.ReflTransGen Training.Step pair three := by
  let issued : Training := { pair with ranks := Function.update pair.ranks 0 ((pair.ranks 0).call (.nextIndices 2)).2 }
  let committed : Training := { pair with ranks := Function.update issued.ranks 0 ((issued.ranks 0).call (.commit 1)).2 }
  have hissue : Training.Step pair issued := .call pair 0 Nat.two_pos (.nextIndices 2)
  have hcommit : Training.Step issued committed := .call issued 0 Nat.two_pos (.commit 1)
  have hcovers : committed.Covers [committed.state 1, committed.state 0, committed.state 1] := by
    refine ⟨?_, fun r hr => ?_⟩
    · simp only [List.mem_cons, List.not_mem_nil, or_false]
      rintro record (rfl | rfl | rfl)
      · exact ⟨1, Nat.one_lt_two, rfl⟩
      · exact ⟨0, Nat.two_pos, rfl⟩
      · exact ⟨1, Nat.one_lt_two, rfl⟩
    · have hr : r < 2 := hr
      interval_cases r <;> simp
  let consolidated : ConsolidatedSamplerState := {
    version := 1, sourceId := "samples", sourceLength := 5, epoch := 0, shuffleSeed := some 7, tail := .uneven
    epochSize := 5, consumed := 1, remaining := [3, 2, 1, 0] }
  have hreshard : Training.Step committed three := by
    refine .reshard committed _ hcovers consolidated (by decide +kernel) 3 (by decide)
      (fun r => (three.ranks r).sampler) fun r hr => ?_
    interval_cases r <;> decide +kernel
  exact ((Relation.ReflTransGen.single hissue).tail hcommit).tail hreshard

theorem resharding_exact_three : ∃ consolidated,
    consolidate [three.state 0, three.state 1, three.state 2] = .ok consolidated ∧
      ([4] ++ three.committed ++ consolidated.remaining).Perm [4, 3, 2, 1, 0] := by
  have hcovers : three.Covers [three.state 0, three.state 1, three.state 2] := by
    refine ⟨?_, fun r hr => ?_⟩
    · simp only [List.mem_cons, List.not_mem_nil, or_false]
      rintro record (rfl | rfl | rfl)
      · exact ⟨0, by decide, rfl⟩
      · exact ⟨1, by decide, rfl⟩
      · exact ⟨2, by decide, rfl⟩
    · have hr : r < 3 := hr
      interval_cases r <;> simp
  obtain ⟨consolidated, hok, hperm, -⟩ :=
    (resharding_exact (fun _ l => l.reverse_perm) (by decide) pair_start pair_three).2 _ hcovers
  exact ⟨consolidated, hok, hperm⟩

end Ruda.Data
