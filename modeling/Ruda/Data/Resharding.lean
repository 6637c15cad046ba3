import Ruda.Data.Sampler

/-!
# No sample is lost or repeated

In every layout the ranks share out a scope, a part of the epoch in its order. Whatever they
commit, consolidation finds the rest of the scope, which is the scope of the next layout.
-/

namespace Ruda.Data

/-- An epoch: what its samples are, and what does not change while they are shared out. -/
structure Epoch where
  sourceId : String
  sourceLength : Nat
  epoch : Nat
  shuffleSeed : Option Nat
  tail : SampleTail
  order : List Nat

structure Epoch.Valid (e : Epoch) : Prop where
  sourceId : e.sourceId ≠ ""
  nodup : e.order.Nodup
  inside : ∀ index ∈ e.order, index < e.sourceLength
  length : e.order.length ≤ e.sourceLength
  fits : e.sourceLength ≤ usizeMax

/-- A layout of the epoch: what was consumed before, the scope that is left, and the ranks it is dealt to. -/
structure Layout (e : Epoch) where
  carried : Nat
  scope : List Nat
  world : Nat
  sublist : scope.Sublist e.order
  counts : carried + scope.length = e.order.length
  pos : 0 < world

namespace Layout

variable {e : Epoch} (l : Layout e)

def state (rank committed : Nat) : SamplerState where
  version := 1
  sourceId := e.sourceId
  sourceLength := e.sourceLength
  rank := rank
  worldSize := l.world
  epoch := e.epoch
  shuffleSeed := e.shuffleSeed
  tail := e.tail
  epochSize := e.order.length
  carriedConsumed := l.carried
  scopeSize := l.scope.length
  indices := dealt l.world rank l.scope
  committed := committed

def consolidated (committed : Nat → Nat) : ConsolidatedSamplerState where
  version := 1
  sourceId := e.sourceId
  sourceLength := e.sourceLength
  epoch := e.epoch
  shuffleSeed := e.shuffleSeed
  tail := e.tail
  epochSize := e.order.length
  consumed := l.carried + ((List.range l.world).map committed).sum
  remaining := undealt l.world committed l.scope

variable {l}

theorem nodup (he : e.Valid) : l.scope.Nodup := he.nodup.sublist l.sublist

theorem checkIndices_ok (he : e.Valid) {indices : List Nat} (h : indices.Sublist e.order) :
    checkIndices indices e.sourceLength = .ok () :=
  failIf_ok.mpr (not_not.mpr ⟨he.nodup.sublist h, fun index hi => he.inside index (h.mem hi)⟩)

theorem validate_ok (he : e.Valid) {rank committed : Nat} (hr : rank < l.world)
    (hc : committed ≤ (dealt l.world rank l.scope).length) : (l.state rank committed).validate = .ok () := by
  have hpos := l.pos
  have hcounts := l.counts
  have hlen := he.length
  have hfits : e.order.length ≤ u64Max := hlen.trans he.fits
  have hadd : checkedAdd l.carried l.scope.length = some e.order.length :=
    checkedAdd_eq_some.mpr ⟨by omega, hcounts.symm⟩
  have hquota : (dealt l.world rank l.scope).length = quota l.scope.length rank l.world := length_dealt hr
  unfold SamplerState.validate
  refine bind_eq_ok.mpr ⟨(), failIf_ok.mpr ?_, bind_eq_ok.mpr ⟨(), failIf_ok.mpr ?_, ?_⟩⟩
  · rintro (h | h | h | h)
    · exact h rfl
    · exact he.sourceId h
    · exact hpos.ne' h
    · exact Nat.not_le.mpr hr h
  · simp only [state, not_or, not_not, not_lt]
    exact ⟨hlen, hadd, hquota, hc⟩
  · exact checkIndices_ok he (dealt_sublist.trans l.sublist)

/-- The samples that the ranks have committed. -/
def taken (l : Layout e) (committed : Nat → Nat) : List Nat :=
  (List.range l.world).flatMap fun rank => (dealt l.world rank l.scope).take (committed rank)

theorem taken_append (he : e.Valid) (committed : Nat → Nat) :
    (l.taken committed ++ undealt l.world committed l.scope).Perm l.scope :=
  taken_append_undealt l.pos (nodup he)

/-- As many samples as the ranks are allowed to have committed. -/
def Within (l : Layout e) (committed : Nat → Nat) : Prop :=
  ∀ rank < l.world, committed rank ≤ (dealt l.world rank l.scope).length

theorem length_taken {committed : Nat → Nat} (hc : l.Within committed) :
    (l.taken committed).length = ((List.range l.world).map committed).sum := by
  rw [taken, List.length_flatMap]
  congr 1
  refine List.map_congr_left fun rank hr => ?_
  rw [List.length_take, min_eq_left (hc rank (List.mem_range.mp hr))]

theorem consumed_add (he : e.Valid) {committed : Nat → Nat} (hc : l.Within committed) :
    (l.consolidated committed).consumed + (l.consolidated committed).remaining.length = e.order.length := by
  have hlen := (taken_append (l := l) he committed).length_eq
  rw [List.length_append, length_taken hc] at hlen
  have hcounts := l.counts
  simp only [consolidated]
  omega

theorem consolidated_validate (he : e.Valid) {committed : Nat → Nat} (hc : l.Within committed) :
    (l.consolidated committed).validate = .ok () := by
  have hadd := consumed_add he hc
  have hfits : e.order.length ≤ u64Max := he.length.trans he.fits
  unfold ConsolidatedSamplerState.validate
  refine bind_eq_ok.mpr ⟨(), failIf_ok.mpr ?_, ?_⟩
  · simp only [not_or, not_not, not_lt]
    refine ⟨rfl, he.sourceId, he.length, checkedAdd_eq_some.mpr ⟨by omega, ?_⟩⟩
    exact hadd.symm
  · exact checkIndices_ok he (undealt_sublist.trans l.sublist)

-- Consolidation

/-- The records are those of all ranks, each at least once. -/
structure Covers (l : Layout e) (committed : Nat → Nat) (records : List SamplerState) : Prop where
  known : ∀ record ∈ records, ∃ rank < l.world, record = l.state rank (committed rank)
  all : ∀ rank < l.world, l.state rank (committed rank) ∈ records

/-- What the loop over the records has found so far. -/
def Found (l : Layout e) (committed : Nat → Nat) (ranks : BTreeMap SamplerState) : Prop :=
  ∀ (rank : Nat) (state : SamplerState), ranks[rank]? = some state → state = l.state rank (committed rank)

theorem foldlM_addRank (he : e.Valid) {committed : Nat → Nat} (hc : l.Within committed) {first : SamplerState}
    (hfirst : first.scope = (l.state 0 0).scope) {records : List SamplerState} {ranks : BTreeMap SamplerState}
    (hfound : l.Found committed ranks)
    (hknown : ∀ record ∈ records, ∃ rank < l.world, record = l.state rank (committed rank)) :
    ∃ ranks', records.foldlM (addRank first) ranks = .ok ranks' ∧ l.Found committed ranks' ∧
      (∀ rank ∈ ranks, rank ∈ ranks') ∧ ∀ record ∈ records, record.rank ∈ ranks' := by
  induction records generalizing ranks with
  | nil => exact ⟨ranks, rfl, hfound, fun _ => id, by simp⟩
  | cons record records ih =>
    obtain ⟨rank, hr, rfl⟩ := hknown record List.mem_cons_self
    have hadd : addRank first ranks (l.state rank (committed rank)) =
        .ok (ranks.insert rank (l.state rank (committed rank))) := by
      refine bind_eq_ok.mpr ⟨(), validate_ok he hr (hc rank hr), bind_eq_ok.mpr ⟨(), failIf_ok.mpr ?_,
        bind_eq_ok.mpr ⟨(), failIf_ok.mpr ?_, rfl⟩⟩⟩
      · rw [hfirst]
        exact not_not.mpr rfl
      · rintro ⟨old, hold, hne⟩
        exact hne (hfound rank old hold)
    have hfound' : l.Found committed (ranks.insert rank (l.state rank (committed rank))) := by
      intro other state hstate
      rw [BTreeMap.get_insert] at hstate
      split at hstate
      · next heq =>
        cases hstate
        rw [heq]
      · exact hfound other state hstate
    obtain ⟨ranks', hfold, hgood, hsub, hall⟩ :=
      ih hfound' fun record hmem => hknown record (List.mem_cons_of_mem _ hmem)
    refine ⟨ranks', ?_, hgood, fun other hmem => hsub other (Std.ExtTreeMap.mem_insert.mpr (.inr hmem)), ?_⟩
    · rw [List.foldlM_cons, hadd]
      exact hfold
    · intro other hmem
      rcases List.mem_cons.mp hmem with rfl | hmem
      · exact hsub _ (Std.ExtTreeMap.mem_insert_self)
      · exact hall other hmem

/-- After some positions of the scope: their samples were seen, and those that nobody committed are left. -/
theorem foldlM_takePosition (he : e.Valid) {committed : Nat → Nat} {n : Nat} (hn : n ≤ l.scope.length) :
    (List.range n).foldlM (takePosition ((List.range l.world).map fun rank => l.state rank (committed rank)) l.world) (∅, []) =
      .ok ((l.scope.take n).toFinset, undealt l.world committed (l.scope.take n)) := by
  have hpos := l.pos
  induction n with
  | zero => rfl
  | succ n ih =>
    have hlt : n < l.scope.length := hn
    rw [List.range_succ, List.foldlM_append, ih (by omega), ok_bind]
    have hrank : n % l.world < l.world := Nat.mod_lt _ hpos
    have hstate : get ((List.range l.world).map fun rank => l.state rank (committed rank)) (n % l.world) =
        .ok (l.state (n % l.world) (committed (n % l.world))) := by
      simp [get, hrank]
    have hindex : get (l.state (n % l.world) (committed (n % l.world))).indices (n / l.world) = .ok l.scope[n] := by
      have hget : (dealt l.world (n % l.world) l.scope)[n / l.world]? = some l.scope[n] := by
        rw [getElem?_dealt hpos, Nat.mul_comm, Nat.mod_add_div, List.getElem?_eq_getElem hlt]
      simp only [get, state, hget]
    have hnew : l.scope[n] ∉ (l.scope.take n).toFinset := by
      rw [List.mem_toFinset, List.mem_take_iff_getElem]
      rintro ⟨j, hj, heq⟩
      have := (List.Nodup.getElem_inj_iff (nodup he)).mp heq
      omega
    rw [List.foldlM_cons]
    refine bind_eq_ok.mpr ⟨_, bind_eq_ok.mpr ⟨_, hstate, bind_eq_ok.mpr ⟨_, hindex, bind_eq_ok.mpr
      ⟨(), failIf_ok.mpr hnew, rfl⟩⟩⟩, ?_⟩
    have htake : l.scope.take (n + 1) = l.scope.take n ++ [l.scope[n]] := by
      rw [List.take_add_one, List.getElem?_eq_getElem hlt]
      rfl
    rw [htake, undealt_concat, List.length_take, min_eq_left hlt.le]
    refine congrArg Except.ok (Prod.ext ?_ ?_)
    · rw [List.toFinset_append, Finset.union_comm, List.toFinset_cons, List.toFinset_nil]
      rfl
    · simp only [state, ge_iff_le]
      split <;> simp

theorem consolidate_covers (he : e.Valid) {committed : Nat → Nat} (hc : l.Within committed) {records : List SamplerState}
    (hcovers : l.Covers committed records) : consolidate records = .ok (l.consolidated committed) := by
  have hpos := l.pos
  obtain ⟨first, hhead⟩ : ∃ first, records.head? = some first := by
    cases hrecords : records with
    | nil =>
      have hmem := hcovers.all 0 hpos
      rw [hrecords] at hmem
      cases hmem
    | cons first rest => exact ⟨first, rfl⟩
  obtain ⟨rank, hr, rfl⟩ := hcovers.known first (List.mem_of_mem_head? hhead)
  have hempty : l.Found committed ∅ := by simp [Found]
  have hfirst : (l.state rank (committed rank)).scope = (l.state 0 0).scope := rfl
  obtain ⟨ranks, hfold, hfound, -, hall⟩ := foldlM_addRank he hc hfirst hempty hcovers.known
  have hget : ∀ other < l.world, ranks[other]? = some (l.state other (committed other)) := by
    intro other ho
    have hmem : other ∈ ranks := hall _ (hcovers.all other ho)
    obtain ⟨state, hstate⟩ : ∃ state, ranks[other]? = some state := by
      rw [← Option.isSome_iff_exists, Std.ExtTreeMap.isSome_getElem?_iff_mem]
      exact hmem
    rw [hstate, hfound other state hstate]
  have hmissing : ¬∃ other < l.world, other ∉ ranks := by
    rintro ⟨other, ho, hno⟩
    exact hno (hall _ (hcovers.all other ho))
  have hranks : ((List.range l.world).filterMap fun other => ranks[other]?) =
      (List.range l.world).map fun other => l.state other (committed other) := by
    rw [← List.filterMap_eq_map]
    refine List.filterMap_congr fun other ho => ?_
    exact hget other (List.mem_range.mp ho)
  unfold consolidate
  refine bind_eq_ok.mpr ⟨_, okOr_ok.mpr hhead, bind_eq_ok.mpr ⟨(), validate_ok he hr (hc rank hr), bind_eq_ok.mpr
    ⟨_, hfold, bind_eq_ok.mpr ⟨(), failIf_ok.mpr hmissing, ?_⟩⟩⟩⟩
  have hworld : (l.state rank (committed rank)).worldSize = l.world := rfl
  have hsize : (l.state rank (committed rank)).scopeSize = l.scope.length := rfl
  simp only [hworld, hsize, hranks]
  refine bind_eq_ok.mpr ⟨_, foldlM_takePosition he le_rfl, ?_⟩
  have hsum : ((List.range l.world).map fun other => l.state other (committed other)).map SamplerState.committed =
      (List.range l.world).map committed := by
    rw [List.map_map]
    rfl
  simp only [List.take_length, hsum]
  exact bind_eq_ok.mpr ⟨(), consolidated_validate he hc, rfl⟩

end Layout

end Ruda.Data
