import Ruda.Data.TokenBatchPlans

/-!
# Interrupted batching goes on as before

Plans, commits, rewinds and restorations in any order. What was planned since the last rewind or
restoration and what will be planned together cut the order from one position, so that a return
to the end of one of these batches plans the rest of them again.
-/

namespace Ruda.Data

namespace StatefulTokenBatchSampler

/-- The batch samplers that their interface accepts. -/
inductive Accepted (shuffle : Nat → List Nat → List Nat) : StatefulTokenBatchSampler → Prop
  | new {sampler lengths options batches} (hsampler : sampler.Built shuffle)
      (h : StatefulTokenBatchSampler.new sampler lengths options = .ok batches) : Accepted shuffle batches
  | reshard {state rank worldSize batches} (h : StatefulTokenBatchSampler.reshard state rank worldSize = .ok batches) :
    Accepted shuffle batches
  | fromState {state batches} (h : StatefulTokenBatchSampler.fromState state = .ok batches) : Accepted shuffle batches

variable {batches : StatefulTokenBatchSampler} {shuffle : Nat → List Nat → List Nat}

theorem new_ok {sampler : StatefulShardSampler} {lengths : List Nat} {options : TokenBatchOptions} :
    new sampler lengths options = .ok batches ↔ lengths.length = sampler.state.sourceLength ∧
      options.validateLengths lengths = .ok () ∧ batches = { sampler, lengths, options } := by
  constructor
  · intro h
    obtain ⟨_, htable, h⟩ := bind_eq_ok.mp h
    obtain ⟨_, hchecked, h⟩ := bind_eq_ok.mp h
    exact ⟨not_not.mp (failIf_ok.mp htable), hchecked, (Except.ok.inj h).symm⟩
  · rintro ⟨htable, hchecked, rfl⟩
    exact bind_eq_ok.mpr ⟨(), failIf_ok.mpr (not_not.mpr htable), bind_eq_ok.mpr ⟨(), hchecked, rfl⟩⟩

theorem Accepted.sound (h : batches.Accepted shuffle) (hsource : batches.sampler.state.sourceLength ≤ usizeMax)
    (hmaximum : batches.options.maximumTokens ≤ usizeMax) : batches.Sound := by
  have hnew {sampler : StatefulShardSampler} {lengths : List Nat} {options : TokenBatchOptions} (hheld : sampler.Held)
      (h : StatefulTokenBatchSampler.new sampler lengths options = .ok batches) : batches.Sound := by
    obtain ⟨htable, hchecked, rfl⟩ := new_ok.mp h
    exact ⟨hheld, htable, hchecked, hsource, hmaximum⟩
  cases h with
  | new hsampler h => exact hnew hsampler.held h
  | reshard h =>
    obtain ⟨_, -, h⟩ := bind_eq_ok.mp h
    obtain ⟨sampler, hsampler, h⟩ := bind_eq_ok.mp h
    exact hnew (show StatefulShardSampler.Built shuffle sampler from .reshard hsampler).held h
  | fromState h =>
    obtain ⟨_, -, h⟩ := bind_eq_ok.mp h
    obtain ⟨sampler, hsampler, h⟩ := bind_eq_ok.mp h
    exact hnew (StatefulShardSampler.held_fromState hsampler) h

theorem Sound.state_validate (h : batches.Sound) : batches.state.validate = .ok () :=
  bind_eq_ok.mpr ⟨(), h.held.valid,
    bind_eq_ok.mpr ⟨(), failIf_ok.mpr (by simp [state, h.table]), h.checked⟩⟩

theorem Sound.fromState_state (h : batches.Sound) : fromState batches.state = .ok batches.rewindUncommitted := by
  refine bind_eq_ok.mpr ⟨(), h.state_validate, bind_eq_ok.mpr ⟨batches.sampler.rewindUncommitted, ?_, ?_⟩⟩
  · exact bind_eq_ok.mpr ⟨(), h.held.valid, rfl⟩
  · exact new_ok.mpr ⟨h.table, h.checked, rfl⟩

end StatefulTokenBatchSampler

-- Sessions

inductive BatchCall
  | nextPlan
  | commit (examples : Nat)
  | rewindUncommitted
  | state
  | fromState (capture : Nat)
  | loadState (capture : Nat)
  deriving DecidableEq

/-- A batch sampler, the states that were captured, and the plans since the last rewind or restoration. -/
structure BatchSession where
  batches : StatefulTokenBatchSampler
  saved : List TokenBatchState
  log : List TokenBatchPlan
  deriving DecidableEq

namespace BatchSession

def start (batches : StatefulTokenBatchSampler) : BatchSession := { batches, saved := [], log := [] }

/-- What the calls leave. A restoration that fails changes nothing. -/
def call (session : BatchSession) : BatchCall → BatchSession
  | .nextPlan =>
    let (result, batches) := session.batches.nextPlan
    match result with
    | .ok (some plan) => { session with batches, log := session.log ++ [plan] }
    | _ => { session with batches }
  | .commit examples => { session with batches := (session.batches.commit examples).2 }
  | .rewindUncommitted => { session with batches := session.batches.rewindUncommitted, log := [] }
  | .state => { session with saved := session.saved ++ [session.batches.state] }
  | .fromState capture =>
    match session.saved[capture]? with
    | none => session
    | some state =>
      match StatefulTokenBatchSampler.fromState state with
      | .ok batches => { session with batches, log := [] }
      | .error _ => session
  | .loadState capture =>
    match session.saved[capture]? with
    | none => session
    | some state =>
      match session.batches.loadState state with
      | (.ok _, batches) => { session with batches, log := [] }
      | (.error _, batches) => { session with batches }

def after (session : BatchSession) (calls : List BatchCall) : BatchSession := calls.foldl call session

/-- What is issued and not committed are the batches from number `n` of the log on. -/
def Boundary (session : BatchSession) (n : Nat) : Prop :=
  session.batches.sampler.state.committed + ((session.log.drop n).flatMap TokenBatchPlan.indices).length =
    session.batches.sampler.issued

instance (session : BatchSession) (n : Nat) : Decidable (session.Boundary n) := inferInstanceAs (Decidable (_ = _))

/-- The session is at some place of the order that it started with. -/
structure Follows (first : StatefulTokenBatchSampler) (session : BatchSession) (committed issued : Nat) : Prop where
  batches : session.batches = first.at_ committed issued
  ordered : committed ≤ issued
  inOrder : issued ≤ first.sampler.state.indices.length
  saved : ∀ state ∈ session.saved, ∃ place ≤ first.sampler.state.indices.length, state = (first.at_ place place).state
  /-- The log and what follows cut the order from one position on. -/
  log : ∃ start done rest, Segmented first.Within (first.order start) (done ++ rest) ∧
    session.log = done.map first.planOf ∧ start + done.flatten.length = issued

variable {first : StatefulTokenBatchSampler} {session : BatchSession} {committed issued : Nat}

theorem Follows.sound (hfirst : first.Sound) (h : session.Follows first committed issued) : session.batches.Sound :=
  h.batches ▸ hfirst.at_ h.ordered h.inOrder

theorem follows_start (hfirst : first.Sound) :
    (start first).Follows first first.sampler.state.committed first.sampler.issued := by
  obtain ⟨segs, hsegs⟩ := hfirst.segmented first.sampler.issued
  refine ⟨rfl, hfirst.held.committed, hfirst.held.issued, nofun, ?_⟩
  exact ⟨first.sampler.issued, [], segs, hsegs, rfl, rfl⟩

theorem follows_fresh (hfirst : first.Sound) {place : Nat} (hplace : place ≤ first.sampler.state.indices.length)
    {saved : List TokenBatchState}
    (hsaved : ∀ state ∈ saved, ∃ place ≤ first.sampler.state.indices.length, state = (first.at_ place place).state) :
    ({ batches := first.at_ place place, saved, log := [] } : BatchSession).Follows first place place := by
  obtain ⟨segs, hsegs⟩ := hfirst.segmented place
  exact ⟨rfl, le_rfl, hplace, hsaved, place, [], segs, hsegs, rfl, rfl⟩

theorem Follows.rest (h : session.Follows first committed issued) :
    ∃ start done rest, Segmented first.Within (first.order start) (done ++ rest) ∧ session.log = done.map first.planOf ∧
      start + done.flatten.length = issued ∧ Segmented first.Within (first.order issued) rest := by
  obtain ⟨start, done, rest, hsegs, hlog, hissued⟩ := h.log
  refine ⟨start, done, rest, hsegs, hlog, hissued, ?_⟩
  have hrest := StatefulTokenBatchSampler.segmented_from hsegs done.length
  rwa [List.take_left, List.drop_left, hissued] at hrest

theorem Follows.nextPlan (hfirst : first.Sound) (h : session.Follows first committed issued) :
    ∃ issued', (session.call .nextPlan).Follows first committed issued' := by
  obtain ⟨start, done, rest, hsegs, hlog, hissued, hrest⟩ := h.rest
  have hsound := h.sound hfirst
  obtain ⟨batches, saved, log⟩ := session
  obtain rfl : batches = first.at_ committed issued := h.batches
  have hplan := StatefulTokenBatchSampler.nextPlan_spec hsound hrest
  have hnext := hsound.next_le hrest
  rw [call, hplan]
  cases rest with
  | nil => exact ⟨issued, h⟩
  | cons seg rest =>
    refine ⟨issued + seg.length, rfl, h.ordered.trans (Nat.le_add_right _ _), hnext, h.saved, ?_⟩
    refine ⟨start, done ++ [seg], rest, ?_, ?_, ?_⟩
    · rwa [List.append_assoc]
    · rw [List.map_append, ← hlog]
      rfl
    · rw [List.flatten_append, List.length_append, ← Nat.add_assoc, hissued, List.flatten_singleton]

theorem Follows.commit (h : session.Follows first committed issued) (examples : Nat) :
    ∃ committed', (session.call (.commit examples)).Follows first committed' issued := by
  obtain ⟨batches, saved, log⟩ := session
  obtain rfl : batches = first.at_ committed issued := h.batches
  rcases Rank.commit_cases (first.at_ committed issued).sampler examples with ⟨message, hcall⟩ | ⟨committed', hle, hcall⟩
  · refine ⟨committed, ?_⟩
    rw [call, StatefulTokenBatchSampler.commit, hcall]
    exact h
  · refine ⟨committed', ?_⟩
    rw [call, StatefulTokenBatchSampler.commit, hcall]
    exact ⟨rfl, hle, h.inOrder, h.saved, h.log⟩

theorem restore_eq (hfirst : first.Sound) {place : Nat} (hplace : place ≤ first.sampler.state.indices.length) :
    StatefulTokenBatchSampler.fromState (first.at_ place place).state = .ok (first.at_ place place) ∧
      (first.at_ committed issued).loadState (first.at_ place place).state = (.ok (), first.at_ place place) := by
  have hsound := hfirst.at_ (le_refl place) hplace
  refine ⟨hsound.fromState_state, ?_⟩
  have hload : (first.at_ committed issued).sampler.loadState (first.at_ place place).sampler.state =
      (.ok (), (first.at_ place place).sampler) := by
    rw [StatefulShardSampler.loadState, hsound.held.valid]
    exact if_neg (not_not.mpr rfl)
  rw [StatefulTokenBatchSampler.loadState, hsound.state_validate]
  refine (if_neg (not_or.mpr ⟨not_not.mpr rfl, not_not.mpr rfl⟩)).trans ?_
  exact congrArg (fun r => (r.1, { first with sampler := r.2 })) hload

/-- Restoring captured state `capture`, with either call. -/
def Restores (capture : Nat) (c : BatchCall) : Prop := c = .fromState capture ∨ c = .loadState capture

theorem Follows.restore (hfirst : first.Sound) (h : session.Follows first committed issued) {capture place : Nat}
    (hplace : place ≤ first.sampler.state.indices.length)
    (hcapture : session.saved[capture]? = some (first.at_ place place).state) {c : BatchCall} (hc : Restores capture c) :
    (session.call c).batches = first.at_ place place ∧ (session.call c).Follows first place place := by
  obtain ⟨batches, saved, log⟩ := session
  obtain rfl : batches = first.at_ committed issued := h.batches
  have hcapture : saved[capture]? = some (first.at_ place place).state := hcapture
  have hfresh := follows_fresh hfirst hplace h.saved
  obtain ⟨hfrom, hload⟩ : StatefulTokenBatchSampler.fromState (first.at_ place place).state = .ok (first.at_ place place) ∧
      (first.at_ committed issued).loadState (first.at_ place place).state = (.ok (), first.at_ place place) := restore_eq hfirst hplace
  rcases hc with rfl | rfl
  · simp only [call, hcapture, hfrom]
    exact ⟨trivial, hfresh⟩
  · simp only [call, hcapture, hload]
    exact ⟨trivial, hfresh⟩

theorem Follows.call (hfirst : first.Sound) (h : session.Follows first committed issued) (c : BatchCall) :
    ∃ committed' issued', (session.call c).Follows first committed' issued' := by
  have hcaptured (capture : Nat) (hc : Restores capture c) (hnone : session.saved[capture]? = none → session.call c = session) :
      ∃ committed' issued', (session.call c).Follows first committed' issued' := by
    cases hcapture : session.saved[capture]? with
    | none => exact ⟨committed, issued, (hnone hcapture).symm ▸ h⟩
    | some state =>
      obtain ⟨place, hplace, rfl⟩ := h.saved state (List.mem_of_getElem? hcapture)
      exact ⟨place, place, (h.restore hfirst hplace hcapture hc).2⟩
  cases c with
  | nextPlan =>
    obtain ⟨issued', h'⟩ := h.nextPlan hfirst
    exact ⟨committed, issued', h'⟩
  | commit examples =>
    obtain ⟨committed', h'⟩ := h.commit examples
    exact ⟨committed', issued, h'⟩
  | rewindUncommitted =>
    refine ⟨committed, committed, ?_⟩
    rw [BatchSession.call, h.batches]
    exact follows_fresh hfirst (h.ordered.trans h.inOrder) h.saved
  | state =>
    refine ⟨committed, issued, h.batches, h.ordered, h.inOrder, ?_, h.log⟩
    intro state hstate
    rcases List.mem_append.mp hstate with hstate | hstate
    · exact h.saved state hstate
    · obtain rfl := List.mem_singleton.mp hstate
      exact ⟨committed, h.ordered.trans h.inOrder, by rw [h.batches]; rfl⟩
  | fromState capture => exact hcaptured capture (.inl rfl) fun hnone => by rw [BatchSession.call, hnone]
  | loadState capture => exact hcaptured capture (.inr rfl) fun hnone => by rw [BatchSession.call, hnone]

theorem Follows.after (hfirst : first.Sound) (h : session.Follows first committed issued) (calls : List BatchCall) :
    ∃ committed' issued', (session.after calls).Follows first committed' issued' := by
  induction calls generalizing session committed issued with
  | nil => exact ⟨committed, issued, h⟩
  | cons c calls ih =>
    obtain ⟨committed₁, issued₁, h₁⟩ := h.call hfirst c
    exact ih h₁

theorem saved_call (session : BatchSession) (c : BatchCall) : session.saved <+: (session.call c).saved := by
  cases c with
  | nextPlan =>
    rw [call]
    dsimp only
    split <;> exact List.prefix_rfl
  | commit examples => exact List.prefix_rfl
  | rewindUncommitted => exact List.prefix_rfl
  | state => exact List.prefix_append _ _
  | fromState capture =>
    rw [call]
    split
    · exact List.prefix_rfl
    · split <;> exact List.prefix_rfl
  | loadState capture =>
    rw [call]
    split
    · exact List.prefix_rfl
    · split <;> exact List.prefix_rfl

theorem saved_after (session : BatchSession) (calls : List BatchCall) : session.saved <+: (session.after calls).saved := by
  induction calls generalizing session with
  | nil => exact List.prefix_rfl
  | cons c calls ih => exact (saved_call session c).trans (ih (session.call c))

theorem Follows.boundary (hfirst : first.Sound) (h : session.Follows first committed issued) {rest : List (List Nat)}
    (hrest : Segmented first.Within (first.order issued) rest) {n : Nat} (hn : session.Boundary n) :
    (first.at_ committed committed).Gives (session.log.drop n ++ rest.map first.planOf) := by
  obtain ⟨start, done, rest', hsegs, hlog, hissued, hrest'⟩ := h.rest
  obtain rfl := hrest'.unique StatefulTokenBatchSampler.prefixClosed_within hrest
  have hn : committed + ((session.log.drop n).flatMap TokenBatchPlan.indices).length = issued := by
    have := hn
    rwa [Boundary, h.batches] at this
  rw [hlog, ← List.map_drop, StatefulTokenBatchSampler.flatMap_planOf] at hn
  have hsplit : (done.take n).flatten.length + (done.drop n).flatten.length = done.flatten.length := by
    rw [← List.length_append, ← List.flatten_append, List.take_append_drop]
  have hcommitted : start + (done.take n).flatten.length = committed := by omega
  have hcut : Segmented first.Within (first.order committed) (done.drop n ++ rest') := by
    by_cases hle : n ≤ done.length
    · have := StatefulTokenBatchSampler.segmented_from hsegs n
      rwa [List.take_append_of_le_length hle, List.drop_append_of_le_length hle, hcommitted] at this
    · rw [List.drop_of_length_le (not_le.mp hle).le] at hn ⊢
      obtain rfl : committed = issued := by simpa using hn
      exact hrest
  rw [hlog, ← List.map_drop, ← List.map_append]
  exact (hfirst.at_ le_rfl (h.ordered.trans h.inOrder)).gives hcut

end BatchSession

-- The whole

theorem token_batches_exact {shuffle : Nat → List Nat → List Nat} {first : StatefulTokenBatchSampler}
    (hfirst : first.Accepted shuffle) (hsource : first.sampler.state.sourceLength ≤ usizeMax)
    (hmaximum : first.options.maximumTokens ≤ usizeMax) (calls : List BatchCall) :
    let session := (BatchSession.start first).after calls
    session.batches.lengths = first.lengths ∧ session.batches.options = first.options ∧
      session.batches.sampler.state.indices = first.sampler.state.indices ∧
    ∃ plans, session.batches.Gives plans ∧ session.batches.Partition plans ∧
      ∀ n, session.Boundary n →
        session.batches.rewindUncommitted.Gives (session.log.drop n ++ plans) ∧
        (∃ restored, StatefulTokenBatchSampler.fromState session.batches.state = .ok restored ∧
          restored.Gives (session.log.drop n ++ plans)) ∧
        ∀ later c, BatchSession.Restores session.saved.length c →
          (((session.call .state).after later).call c).batches.Gives (session.log.drop n ++ plans) := by
  intro session
  have hsound := hfirst.sound hsource hmaximum
  obtain ⟨committed, issued, h⟩ := (BatchSession.follows_start hsound).after hsound calls
  obtain ⟨rest, hrest⟩ := hsound.segmented issued
  have hbatches : session.batches = first.at_ committed issued := h.batches
  have hsession := h.sound hsound
  refine ⟨by rw [hbatches]; rfl, by rw [hbatches]; rfl, by rw [hbatches]; rfl, rest.map first.planOf, ?_, ?_, ?_⟩
  · rw [hbatches] at hsession ⊢
    exact hsession.gives hrest
  · rw [hbatches]
    exact StatefulTokenBatchSampler.partition_segmented hrest
  · intro n hn
    have hgives := h.boundary hsound hrest hn
    refine ⟨?_, ⟨session.batches.rewindUncommitted, hsession.fromState_state, ?_⟩, ?_⟩
    · rw [hbatches]
      exact hgives
    · rw [hbatches]
      exact hgives
    · intro later c hc
      obtain ⟨committed₁, issued₁, h₁⟩ := h.call hsound .state
      obtain ⟨committed₂, issued₂, h₂⟩ := h₁.after hsound later
      have hplace : committed ≤ first.sampler.state.indices.length := h.ordered.trans h.inOrder
      have hcaptured : (session.call .state).saved[session.saved.length]? = some (first.at_ committed committed).state := by
        show (session.saved ++ [session.batches.state])[session.saved.length]? = _
        rw [List.getElem?_concat_length, hbatches]
        rfl
      have hlater : ((session.call .state).after later).saved[session.saved.length]? =
          some (first.at_ committed committed).state := by
        obtain ⟨more, hmore⟩ := BatchSession.saved_after (session.call .state) later
        obtain ⟨hlt, -⟩ := List.getElem?_eq_some_iff.mp hcaptured
        rw [← hmore, List.getElem?_append_left hlt, hcaptured]
      rw [(h₂.restore hsound hplace hlater hc).1]
      exact hgives

/-- Five samples in rectangular batches of at most two rows and six slots. -/
def fiveSamples : StatefulTokenBatchSampler where
  sampler := {
    state := {
      version := 1, sourceId := "samples", sourceLength := 5, rank := 0, worldSize := 1, epoch := 0, shuffleSeed := none
      tail := .uneven, epochSize := 5, carriedConsumed := 0, scopeSize := 5, indices := [0, 1, 2, 3, 4], committed := 0 }
    issued := 0 }
  lengths := [3, 2, 4, 1, 5]
  options := { maximumTokens := 6, maximumExamples := some 2, layout := .padded }

theorem fiveSamples_accepted : fiveSamples.Accepted fun _ l => l := by
  have hsampler : newSampler (fun _ l => l) "samples" 5 0 1 0 none .uneven = .ok fiveSamples.sampler := by decide +kernel
  have hnew : StatefulTokenBatchSampler.new fiveSamples.sampler fiveSamples.lengths fiveSamples.options = .ok fiveSamples := by
    decide +kernel
  exact .new (.new hsampler) hnew

/-- The first batch is committed and two more are planned: after a rewind these come again. -/
theorem token_batches_exact_five :
    let session := (BatchSession.start fiveSamples).after [.nextPlan, .nextPlan, .commit 2, .nextPlan]
    session.log.map TokenBatchPlan.indices = [[0, 1], [2], [3]] ∧ session.Boundary 1 ∧
      ∃ plans, session.batches.Gives plans ∧ session.batches.rewindUncommitted.Gives (session.log.drop 1 ++ plans) := by
  intro session
  have hboundary : session.Boundary 1 := by decide +kernel
  obtain ⟨-, -, -, plans, hgives, -, hrestore⟩ := token_batches_exact fiveSamples_accepted (by decide) (by decide)
    [.nextPlan, .nextPlan, .commit 2, .nextPlan]
  exact ⟨by decide +kernel, hboundary, plans, hgives, (hrestore 1 hboundary).1⟩

end Ruda.Data
