import Ruda.Data.Elastic
import Ruda.Data.TokenBatch
import Ruda.Lib.Segments

/-!
# Planned batches partition the order

The next plan is the longest run of samples from the issued position that fits into a batch, so
the plans that follow depend on the position alone, and a restored sampler plans what it would
have planned.
-/

namespace Ruda.Data

-- Samplers

theorem SamplerState.validate_ok {state : SamplerState} : state.validate = .ok () ↔
    ¬(state.version ≠ 1 ∨ state.sourceId = "" ∨ state.worldSize = 0 ∨ state.rank ≥ state.worldSize) ∧
    ¬(state.epochSize > state.sourceLength ∨
      checkedAdd state.carriedConsumed state.scopeSize ≠ some state.epochSize ∨
      state.indices.length ≠ quota state.scopeSize state.rank state.worldSize ∨ state.committed > state.indices.length) ∧
    state.indices.Nodup ∧ ∀ index ∈ state.indices, index < state.sourceLength := by
  constructor
  · intro h
    obtain ⟨_, hid, h⟩ := bind_eq_ok.mp h
    obtain ⟨_, hcounts, hindices⟩ := bind_eq_ok.mp h
    exact ⟨failIf_ok.mp hid, failIf_ok.mp hcounts, not_not.mp (failIf_ok.mp hindices)⟩
  · rintro ⟨hid, hcounts, hindices⟩
    exact bind_eq_ok.mpr ⟨(), failIf_ok.mpr hid, bind_eq_ok.mpr ⟨(), failIf_ok.mpr hcounts, failIf_ok.mpr (not_not.mpr hindices)⟩⟩

/-- What a shard sampler keeps. -/
structure StatefulShardSampler.Held (sampler : StatefulShardSampler) : Prop where
  valid : sampler.state.validate = .ok ()
  committed : sampler.state.committed ≤ sampler.issued
  issued : sampler.issued ≤ sampler.state.indices.length

/-- The samplers that the interface of the shard sampler gives. -/
inductive StatefulShardSampler.Built (shuffle : Nat → List Nat → List Nat) : StatefulShardSampler → Prop
  | new {sourceId sourceLength rank worldSize epoch shuffleSeed tail sampler}
      (h : newSampler shuffle sourceId sourceLength rank worldSize epoch shuffleSeed tail = .ok sampler) :
    Built shuffle sampler
  | fromState {state sampler} (h : Data.fromState state = .ok sampler) : Built shuffle sampler
  | reshard {state rank worldSize sampler} (h : Data.reshard state rank worldSize = .ok sampler) : Built shuffle sampler
  | nextIndices {sampler} (h : Built shuffle sampler) (maximum : Nat) : Built shuffle (sampler.nextIndices maximum).2
  | next {sampler} (h : Built shuffle sampler) : Built shuffle sampler.next.2
  | commit {sampler} (h : Built shuffle sampler) (count : Nat) : Built shuffle (sampler.commit count).2
  | rewindUncommitted {sampler} (h : Built shuffle sampler) : Built shuffle sampler.rewindUncommitted
  | startEpoch {sampler} (h : Built shuffle sampler) (epoch : Nat) : Built shuffle (sampler.startEpoch shuffle epoch).2
  | loadState {sampler} (h : Built shuffle sampler) (state : SamplerState) : Built shuffle (sampler.loadState state).2

namespace StatefulShardSampler

variable {sampler : StatefulShardSampler} {shuffle : Nat → List Nat → List Nat}

theorem valid_at {state : SamplerState} (h : state.validate = .ok ()) {committed : Nat} (hle : committed ≤ state.indices.length) :
    ({ state with committed } : SamplerState).validate = .ok () := by
  obtain ⟨hid, hcounts, hindices⟩ := SamplerState.validate_ok.mp h
  simp only [not_or] at hcounts
  refine SamplerState.validate_ok.mpr ⟨hid, ?_, hindices⟩
  simp only [not_or]
  exact ⟨hcounts.1, hcounts.2.1, hcounts.2.2.1, not_lt.mpr hle⟩

theorem committed_le {state : SamplerState} (h : state.validate = .ok ()) : state.committed ≤ state.indices.length := by
  obtain ⟨-, hcounts, -⟩ := SamplerState.validate_ok.mp h
  simp only [not_or, not_lt] at hcounts
  exact hcounts.2.2.2

theorem length_le {state : SamplerState} (h : state.validate = .ok ()) : state.indices.length ≤ state.sourceLength := by
  obtain ⟨-, -, hnodup, hlt⟩ := SamplerState.validate_ok.mp h
  have hsub : state.indices ⊆ List.range state.sourceLength := fun i hi => List.mem_range.mpr (hlt i hi)
  simpa using (hnodup.subperm hsub).length_le

theorem held_fresh {state : SamplerState} (h : state.validate = .ok ()) :
    Held { state := state, issued := state.committed } :=
  ⟨h, le_rfl, committed_le h⟩

theorem held_fromState {state : SamplerState} (h : fromState state = .ok sampler) : sampler.Held := by
  obtain ⟨_, hvalid, h⟩ := bind_eq_ok.mp h
  obtain rfl := Except.ok.inj h
  exact held_fresh hvalid

theorem held_new {sourceId : String} {sourceLength rank worldSize epoch : Nat} {shuffleSeed : Option Nat} {tail : SampleTail}
    (h : newSampler shuffle sourceId sourceLength rank worldSize epoch shuffleSeed tail = .ok sampler) : sampler.Held := by
  obtain ⟨_, -, h⟩ := bind_eq_ok.mp h
  obtain ⟨_, hvalid, h⟩ := bind_eq_ok.mp h
  obtain rfl := Except.ok.inj h
  exact held_fresh hvalid

theorem Built.held (h : Built shuffle sampler) : sampler.Held := by
  induction h with
  | new h => exact held_new h
  | fromState h => exact held_fromState h
  | reshard h =>
    obtain ⟨_, -, h⟩ := bind_eq_ok.mp h
    obtain ⟨_, -, h⟩ := bind_eq_ok.mp h
    exact held_fromState h
  | @nextIndices sampler _ maximum ih =>
    rcases Rank.nextIndices_cases sampler maximum with ⟨result, hcall, -⟩ | ⟨stop, indices, hcall, hle, hstop⟩
    · exact hcall ▸ ih
    · exact hcall ▸ ⟨ih.valid, ih.committed.trans hle, hstop⟩
  | @next sampler _ ih =>
    rw [StatefulShardSampler.next]
    split
    · next item hitem =>
      obtain ⟨hlt, -⟩ := List.getElem?_eq_some_iff.mp hitem
      exact ⟨ih.valid, ih.committed.trans (Nat.le_succ _), hlt⟩
    · exact ih
  | @commit sampler _ count ih =>
    rcases Rank.commit_cases sampler count with ⟨message, hcall⟩ | ⟨committed, hle, hcall⟩
    · exact hcall ▸ ih
    · exact hcall ▸ ⟨valid_at ih.valid (hle.trans ih.issued), hle, ih.issued⟩
  | rewindUncommitted _ ih => exact ⟨ih.valid, le_rfl, ih.committed.trans ih.issued⟩
  | @startEpoch sampler _ epoch ih =>
    rw [StatefulShardSampler.startEpoch]
    split
    · exact ih
    · next fresh hnew => exact held_new hnew
  | @loadState sampler _ state ih =>
    rw [StatefulShardSampler.loadState]
    split
    · exact ih
    · next _ hvalid =>
      split
      · exact ih
      · exact held_fresh hvalid

end StatefulShardSampler

-- What a batch costs

def longest (rows : List Nat) : Nat := rows.foldl max 0

theorem longest_append (rows : List Nat) (row : Nat) : longest (rows ++ [row]) = max (longest rows) row := by
  rw [longest, List.foldl_append]
  rfl

theorem le_longest {rows : List Nat} : ∀ row ∈ rows, row ≤ longest rows := by
  induction rows using List.reverseRecOn with
  | nil => exact nofun
  | append_singleton rows last ih =>
    intro row hrow
    rw [longest_append]
    rcases List.mem_append.mp hrow with hrow | hrow
    · exact (ih row hrow).trans (le_max_left _ _)
    · exact List.mem_singleton.mp hrow ▸ le_max_right _ _

theorem longest_mono (a b : List Nat) : longest a ≤ longest (a ++ b) := by
  induction b using List.reverseRecOn with
  | nil => rw [List.append_nil]
  | append_singleton b row ih =>
    rw [← List.append_assoc, longest_append]
    exact ih.trans (le_max_left _ _)

namespace TokenBatchLayout

/-- The token slots of rows of these lengths: all of them one after the other, or rows as long as the longest. -/
def cost : TokenBatchLayout → List Nat → Nat
  | .packed, rows => rows.sum
  | .padded, rows => rows.length * longest rows

theorem cost_mono (layout : TokenBatchLayout) (a b : List Nat) : layout.cost a ≤ layout.cost (a ++ b) := by
  cases layout with
  | packed =>
    rw [cost, cost, List.sum_append]
    exact Nat.le_add_right _ _
  | padded =>
    rw [cost, cost, List.length_append]
    exact Nat.mul_le_mul (Nat.le_add_right _ _) (longest_mono a b)

@[simp] theorem cost_singleton (layout : TokenBatchLayout) (row : Nat) : layout.cost [row] = row := by
  cases layout with
  | packed => simp [cost]
  | padded => simp [cost, longest]

theorem sum_le_cost (layout : TokenBatchLayout) (rows : List Nat) : rows.sum ≤ layout.cost rows := by
  cases layout with
  | packed => exact le_rfl
  | padded => simpa [cost] using List.sum_le_card_nsmul rows (longest rows) le_longest

end TokenBatchLayout

namespace TokenBatchOptions

/-- The limits of a batch, for rows of these lengths. -/
structure Within (options : TokenBatchOptions) (rows : List Nat) : Prop where
  tokens : options.layout.cost rows ≤ options.maximumTokens
  examples : ∀ limit, options.maximumExamples = some limit → rows.length ≤ limit

theorem validateLengths_ok {options : TokenBatchOptions} {lengths : List Nat} (h : options.validateLengths lengths = .ok ()) :
    options.maximumTokens ≠ 0 ∧ options.maximumExamples ≠ some 0 ∧
      ∀ length ∈ lengths, 0 < length ∧ length ≤ options.maximumTokens := by
  obtain ⟨_, hlimits, h⟩ := bind_eq_ok.mp h
  obtain ⟨htokens, hexamples⟩ := not_or.mp (failIf_ok.mp hlimits)
  refine ⟨htokens, hexamples, ?_⟩
  intro length hlength
  split at h
  · cases h
  · next hnone =>
    have hok := List.findIdx?_eq_none_iff.mp hnone length hlength
    rw [refused, decide_eq_false_iff_not, not_or] at hok
    exact ⟨Nat.pos_of_ne_zero hok.1, not_lt.mp hok.2⟩

end TokenBatchOptions

namespace StatefulTokenBatchSampler

-- One plan

/-- The lengths of these samples. -/
def rows (batches : StatefulTokenBatchSampler) (indices : List Nat) : List Nat :=
  indices.map fun index => batches.lengths.getD index 0

def Within (batches : StatefulTokenBatchSampler) (indices : List Nat) : Prop := batches.options.Within (batches.rows indices)

/-- The plan of a batch of these samples. -/
def planOf (batches : StatefulTokenBatchSampler) (indices : List Nat) : TokenBatchPlan where
  indices := indices
  realTokens := (batches.rows indices).sum
  maximumSequenceLength := longest (batches.rows indices)
  tokenSlots := batches.options.layout.cost (batches.rows indices)

/-- The samples from this place on. -/
def order (batches : StatefulTokenBatchSampler) (place : Nat) : List Nat := batches.sampler.state.indices.drop place

/-- A table of lengths that was checked, for a sampler of its source. -/
structure Sound (batches : StatefulTokenBatchSampler) : Prop where
  held : batches.sampler.Held
  table : batches.lengths.length = batches.sampler.state.sourceLength
  checked : batches.options.validateLengths batches.lengths = .ok ()
  source : batches.sampler.state.sourceLength ≤ usizeMax
  maximum : batches.options.maximumTokens ≤ usizeMax

variable {batches : StatefulTokenBatchSampler}

theorem rows_append (a b : List Nat) : batches.rows (a ++ b) = batches.rows a ++ batches.rows b := List.map_append

theorem prefixClosed_within : PrefixClosed batches.Within := by
  intro a b h
  have htokens := h.tokens
  have hexamples := h.examples
  rw [rows_append] at htokens hexamples
  refine ⟨(batches.options.layout.cost_mono _ _).trans htokens, ?_⟩
  intro limit hlimit
  have := hexamples limit hlimit
  rw [List.length_append] at this
  omega

theorem Sound.inTable (h : batches.Sound) : ∀ index ∈ batches.sampler.state.indices, index < batches.lengths.length := by
  obtain ⟨-, -, -, hlt⟩ := SamplerState.validate_ok.mp h.held.valid
  intro index hindex
  exact h.table ▸ hlt index hindex

theorem Sound.issued_le (h : batches.Sound) : batches.sampler.state.indices.length ≤ usizeMax :=
  (StatefulShardSampler.length_le h.held.valid).trans h.source

theorem Sound.within_singleton (h : batches.Sound) {index : Nat} (hindex : index < batches.lengths.length) :
    batches.Within [index] := by
  obtain ⟨-, hexamples, hlengths⟩ := TokenBatchOptions.validateLengths_ok h.checked
  have hrow : batches.rows [index] = [batches.lengths.getD index 0] := rfl
  rw [Within, hrow]
  constructor
  · rw [TokenBatchLayout.cost_singleton, List.getD_eq_getElem _ _ hindex]
    exact (hlengths _ (List.getElem_mem hindex)).2
  · intro limit hlimit
    have hne : limit ≠ 0 := fun h0 => hexamples (h0 ▸ hlimit)
    exact Nat.pos_of_ne_zero hne

/-- What the loop of `peek` has counted after these samples. -/
structure Counts (batches : StatefulTokenBatchSampler) (taken : List Nat) (tally : Tally) : Prop where
  realTokens : tally.realTokens = (batches.rows taken).sum
  maximum : tally.maximumSequenceLength = longest (batches.rows taken)
  count : tally.count = taken.length
  slots : tally.tokenSlots = batches.options.layout.cost (batches.rows taken)

theorem filter_checked {m : Nat} (hm : m ≤ usizeMax) (a : Nat) :
    (if a ≤ u64Max then some a else none).filter (· ≤ m) = if a ≤ m then some a else none := by
  by_cases hle : a ≤ m
  · have hfits : a ≤ u64Max := hle.trans hm
    rw [if_pos hfits, if_pos hle, Option.filter_some, if_pos (decide_eq_true hle)]
  · rw [if_neg hle]
    split
    · rw [Option.filter_some, if_neg (by simpa using hle)]
    · rfl

theorem slotsWith_filter (hm : batches.options.maximumTokens ≤ usizeMax) {taken : List Nat} {tally : Tally}
    (ht : batches.Counts taken tally) (index : Nat) :
    (batches.slotsWith tally (batches.lengths.getD index 0)).filter (· ≤ batches.options.maximumTokens) =
      if batches.options.layout.cost (batches.rows (taken ++ [index])) ≤ batches.options.maximumTokens then
        some (batches.options.layout.cost (batches.rows (taken ++ [index])))
      else none := by
  have hrows : batches.rows (taken ++ [index]) = batches.rows taken ++ [batches.lengths.getD index 0] := rows_append _ _
  have hlen : (batches.rows taken).length = taken.length := List.length_map ..
  rw [slotsWith, ← filter_checked hm, hrows]
  cases batches.options.layout with
  | packed => simp only [checkedAdd, TokenBatchLayout.cost, List.sum_append, List.sum_singleton, ht.realTokens]
  | padded =>
    simp only [checkedMul, TokenBatchLayout.cost, List.length_append, List.length_singleton, longest_append, ht.maximum,
      ht.count, hlen]

theorem count_spec (h : batches.Sound) {taken : List Nat} {tally : Tally} (ht : batches.Counts taken tally)
    (hwithin : batches.Within taken) {l : List Nat} (hl : ∀ index ∈ l, index < batches.lengths.length) :
    ∃ more rest tally', l = more ++ rest ∧ batches.count tally l = .ok tally' ∧ batches.Counts (taken ++ more) tally' ∧
      batches.Within (taken ++ more) ∧ ∀ x, rest.head? = some x → ¬batches.Within (taken ++ more ++ [x]) := by
  induction l generalizing taken tally with
  | nil => exact ⟨[], [], tally, rfl, rfl, by simpa using ht, by simpa using hwithin, by simp⟩
  | cons index l ih =>
    obtain ⟨hindex, hl⟩ := List.forall_mem_cons.mp hl
    have hstop (hnot : ¬batches.Within (taken ++ [index])) (hcount : batches.count tally (index :: l) = .ok tally) :
        ∃ more rest tally', index :: l = more ++ rest ∧ batches.count tally (index :: l) = .ok tally' ∧
          batches.Counts (taken ++ more) tally' ∧ batches.Within (taken ++ more) ∧
            ∀ x, rest.head? = some x → ¬batches.Within (taken ++ more ++ [x]) := by
      refine ⟨[], index :: l, tally, rfl, hcount, by simpa using ht, by simpa using hwithin, ?_⟩
      intro x hx
      obtain rfl := Option.some.inj hx
      rwa [List.append_nil]
    have hrows : batches.rows (taken ++ [index]) = batches.rows taken ++ [batches.lengths.getD index 0] := rows_append _ _
    have hlen : (batches.rows taken).length = taken.length := List.length_map ..
    have hget : get batches.lengths index = .ok (batches.lengths.getD index 0) := by
      rw [get, List.getElem?_eq_getElem hindex, List.getD_eq_getElem _ _ hindex]
    by_cases hlimit : batches.options.maximumExamples = some tally.count
    · refine hstop ?_ (by rw [count, if_pos hlimit]; rfl)
      intro hmore
      have := hmore.examples _ hlimit
      rw [hrows, List.length_append, hlen, ht.count, List.length_singleton] at this
      omega
    · have hcount : batches.count tally (index :: l) =
          ((batches.slotsWith tally (batches.lengths.getD index 0)).filter (· ≤ batches.options.maximumTokens)).elim (pure tally)
            fun slots => okOr (checkedAdd tally.realTokens (batches.lengths.getD index 0)) "real token count overflow" >>=
              fun realTokens => batches.count {
                realTokens
                maximumSequenceLength := max tally.maximumSequenceLength (batches.lengths.getD index 0)
                count := tally.count + 1
                tokenSlots := slots } l := by
        rw [count, if_neg hlimit, hget, ok_bind]
        cases Option.filter _ _ <;> rfl
      rw [slotsWith_filter h.maximum ht] at hcount
      by_cases hfits : batches.options.layout.cost (batches.rows (taken ++ [index])) ≤ batches.options.maximumTokens
      · have hsum : tally.realTokens + batches.lengths.getD index 0 = (batches.rows (taken ++ [index])).sum := by
          rw [hrows, List.sum_append, List.sum_singleton, ht.realTokens]
        have hadd : checkedAdd tally.realTokens (batches.lengths.getD index 0) = some (batches.rows (taken ++ [index])).sum := by
          rw [← hsum]
          refine checkedAdd_of_le ?_
          rw [hsum]
          exact (TokenBatchLayout.sum_le_cost _ _).trans (hfits.trans h.maximum)
        have hmore : batches.Within (taken ++ [index]) := by
          refine ⟨hfits, ?_⟩
          intro limit hsome
          have hle := hwithin.examples limit hsome
          have hne : limit ≠ tally.count := fun heq => hlimit (heq ▸ hsome)
          rw [hlen] at hle
          rw [ht.count] at hne
          rw [hrows, List.length_append, List.length_singleton, hlen]
          omega
        have hnext : batches.Counts (taken ++ [index]) {
            realTokens := (batches.rows (taken ++ [index])).sum
            maximumSequenceLength := max tally.maximumSequenceLength (batches.lengths.getD index 0)
            count := tally.count + 1
            tokenSlots := batches.options.layout.cost (batches.rows (taken ++ [index])) } := by
          refine ⟨rfl, ?_, ?_, rfl⟩
          · rw [hrows, longest_append, ht.maximum]
          · rw [List.length_append, List.length_singleton, ht.count]
        obtain ⟨more, rest, tally', rfl, hok, hcounts, hin, hlast⟩ := ih hnext hmore hl
        rw [if_pos hfits, hadd] at hcount
        rw [List.append_assoc, List.singleton_append] at hcounts hin hlast
        exact ⟨index :: more, rest, tally', rfl, hcount.trans hok, hcounts, hin, hlast⟩
      · rw [if_neg hfits] at hcount
        exact hstop (fun hmore => hfits hmore.tokens) hcount

theorem count_front (h : batches.Sound) {l : List Nat} (hne : l ≠ []) (hl : ∀ index ∈ l, index < batches.lengths.length) :
    ∃ seg tally, Segment batches.Within l seg ∧ batches.Counts seg tally ∧
      batches.count { realTokens := 0, maximumSequenceLength := 0, count := 0, tokenSlots := 0 } l = .ok tally := by
  have hempty : batches.Counts [] { realTokens := 0, maximumSequenceLength := 0, count := 0, tokenSlots := 0 } := by
    refine ⟨rfl, rfl, rfl, ?_⟩
    cases hlayout : batches.options.layout <;> rfl
  obtain ⟨first, others, rfl⟩ := List.exists_cons_of_ne_nil hne
  have hfirst := h.within_singleton (hl first List.mem_cons_self)
  obtain ⟨seg, rest, tally, hsplit, hcount, hcounts, hin, hlast⟩ :=
    count_spec h hempty (prefixClosed_within [] [first] hfirst) hl
  rw [List.nil_append] at hcounts hin hlast
  refine ⟨seg, tally, ⟨?_, ⟨rest, hsplit.symm⟩, hin, ?_⟩, hcounts, hcount⟩
  · rintro rfl
    exact hlast first (by rw [← List.nil_append rest, ← hsplit]; rfl) hfirst
  · rintro x ⟨more, hmore⟩
    rw [hsplit, List.append_assoc] at hmore
    exact hlast x (by rw [← List.append_cancel_left hmore]; rfl)

theorem mem_order {place index : Nat} (h : index ∈ batches.order place) : index ∈ batches.sampler.state.indices :=
  List.mem_of_mem_drop h

theorem Sound.segmented (h : batches.Sound) (place : Nat) : ∃ segs, Segmented batches.Within (batches.order place) segs := by
  refine Segmented.exists_of_front (P := (· < batches.lengths.length)) ?_ _ fun index hindex => h.inTable index (mem_order hindex)
  intro l hne hl
  obtain ⟨seg, -, hseg, -⟩ := count_front h hne hl
  exact ⟨seg, hseg⟩

theorem peek_spec (h : batches.Sound) {segs : List (List Nat)}
    (hsegs : Segmented batches.Within (batches.order batches.sampler.issued) segs) :
    batches.peek = .ok (segs.head?.map batches.planOf) := by
  have hunissued : batches.sampler.unissuedIndices = .ok (batches.order batches.sampler.issued) := if_pos h.held.issued
  have hmem : ∀ index ∈ batches.order batches.sampler.issued, index < batches.lengths.length := fun index hindex =>
    h.inTable index (mem_order hindex)
  rw [peek, hunissued, ok_bind]
  generalize batches.order batches.sampler.issued = l at hsegs hmem
  cases hsegs with
  | nil => rfl
  | @cons seg rest segs head tail =>
    have hne : seg ++ rest ≠ [] := fun hnil => head.nonempty (List.append_eq_nil_iff.mp hnil).1
    obtain ⟨seg', tally, hseg, hcounts, hcount⟩ := count_front h hne hmem
    obtain rfl := hseg.unique prefixClosed_within head
    have hpos : ¬tally.count = 0 := by
      rw [hcounts.count]
      exact (List.length_pos_of_ne_nil head.nonempty).ne'
    have htake : (seg' ++ rest).take tally.count = seg' := by rw [hcounts.count, List.take_left]
    simp only [hne, if_false, hcount, pure_bind', ok_bind, failIf, hpos, htake, hcounts.realTokens, hcounts.maximum,
      hcounts.slots]
    rfl

/-- The sampler with both cursors at these places. -/
def at_ (batches : StatefulTokenBatchSampler) (committed issued : Nat) : StatefulTokenBatchSampler :=
  { batches with sampler := { state := { batches.sampler.state with committed }, issued } }

theorem Sound.at_ (h : batches.Sound) {committed issued : Nat} (hle : committed ≤ issued)
    (hissued : issued ≤ batches.sampler.state.indices.length) : (batches.at_ committed issued).Sound where
  held := ⟨StatefulShardSampler.valid_at h.held.valid (hle.trans hissued), hle, hissued⟩
  table := h.table
  checked := h.checked
  source := h.source
  maximum := h.maximum

theorem nextPlan_spec (h : batches.Sound) {segs : List (List Nat)}
    (hsegs : Segmented batches.Within (batches.order batches.sampler.issued) segs) :
    batches.nextPlan = (.ok (segs.head?.map batches.planOf),
      batches.at_ batches.sampler.state.committed (batches.sampler.issued + (segs.head?.getD []).length)) := by
  rw [nextPlan, peek_spec h hsegs]
  generalize horder : batches.order batches.sampler.issued = l at hsegs
  cases hsegs with
  | nil => rfl
  | @cons seg rest segs head tail =>
    have hpos := List.length_pos_of_ne_nil head.nonempty
    have hlen : batches.sampler.issued + (seg.length + rest.length) = batches.sampler.state.indices.length := by
      have hissued := h.held.issued
      have := congrArg List.length horder
      rw [order, List.length_drop, List.length_append] at this
      omega
    have hfits := h.issued_le
    have hstop : min (min (batches.sampler.issued + seg.length) usizeMax) batches.sampler.state.indices.length =
        batches.sampler.issued + seg.length := by omega
    have hcall : batches.sampler.nextIndices seg.length =
        (.ok (some ((batches.order batches.sampler.issued).take seg.length)),
          { batches.sampler with issued := batches.sampler.issued + seg.length }) := by
      rw [StatefulShardSampler.nextIndices, if_neg hpos.ne', hstop, if_neg (by omega), if_neg (by omega),
        Nat.add_sub_cancel_left]
      rfl
    simp only [List.head?_cons, Option.map_some, planOf, hcall]
    rfl

-- The plans that follow

/-- What so many calls of `next_plan` return. -/
def nextPlans : Nat → StatefulTokenBatchSampler → List (Res String (Option TokenBatchPlan))
  | 0, _ => []
  | n + 1, batches => batches.nextPlan.1 :: nextPlans n batches.nextPlan.2

/-- Calls of `next_plan` return these plans, and `None` from then on. -/
def Gives (batches : StatefulTokenBatchSampler) (plans : List TokenBatchPlan) : Prop :=
  ∀ n, nextPlans n batches = (List.range n).map fun k => .ok plans[k]?

theorem order_drop (place n : Nat) : (batches.order place).drop n = batches.order (place + n) := List.drop_drop

theorem segmented_from {place : Nat} {segs : List (List Nat)} (hsegs : Segmented batches.Within (batches.order place) segs)
    (n : Nat) : Segmented batches.Within (batches.order (place + (segs.take n).flatten.length)) (segs.drop n) := by
  rw [← order_drop]
  exact hsegs.drop n

theorem segmented_length {place : Nat} {segs : List (List Nat)} (hsegs : Segmented batches.Within (batches.order place) segs) :
    segs.flatten.length = batches.sampler.state.indices.length - place := by
  rw [hsegs.flatten, order, List.length_drop]

theorem length_take_flatten (segs : List (List Nat)) (n : Nat) : (segs.take n).flatten.length ≤ segs.flatten.length := by
  conv => rhs; rw [← List.take_append_drop n segs, List.flatten_append, List.length_append]
  exact Nat.le_add_right _ _

theorem head_length (segs : List (List Nat)) : (segs.head?.getD []).length = (segs.take 1).flatten.length := by
  cases segs with
  | nil => rfl
  | cons seg segs => simp

theorem Sound.next_le (h : batches.Sound) {segs : List (List Nat)}
    (hsegs : Segmented batches.Within (batches.order batches.sampler.issued) segs) :
    batches.sampler.issued + (segs.head?.getD []).length ≤ batches.sampler.state.indices.length := by
  have hle := length_take_flatten segs 1
  have hlen := segmented_length hsegs
  have hissued := h.held.issued
  rw [head_length]
  omega

theorem Sound.gives (h : batches.Sound) {segs : List (List Nat)}
    (hsegs : Segmented batches.Within (batches.order batches.sampler.issued) segs) :
    batches.Gives (segs.map batches.planOf) := by
  intro n
  induction n generalizing batches segs with
  | zero => rfl
  | succ n ih =>
    have hsound := h.at_ (h.held.committed.trans (Nat.le_add_right _ _)) (h.next_le hsegs)
    have htail := segmented_from hsegs 1
    rw [← head_length] at htail
    rw [nextPlans, nextPlan_spec h hsegs, List.range_succ_eq_map, List.map_cons, List.map_map, ih hsound htail]
    cases segs with
    | nil => rfl
    | cons seg segs => rfl

/-- Plans cut the samples from the issued position on into batches that nothing more fits into. -/
structure Partition (batches : StatefulTokenBatchSampler) (plans : List TokenBatchPlan) : Prop where
  order : plans.flatMap TokenBatchPlan.indices = batches.sampler.state.indices.drop batches.sampler.issued
  nonempty : ∀ plan ∈ plans, plan.indices ≠ []
  exact : ∀ plan ∈ plans, plan = batches.planOf plan.indices
  slots : ∀ plan ∈ plans, plan.tokenSlots ≤ batches.options.maximumTokens
  examples : ∀ plan ∈ plans, ∀ limit, batches.options.maximumExamples = some limit → plan.indices.length ≤ limit
  maximal : ∀ before plan after, plans = before ++ plan :: after → ∀ sample,
    (after.flatMap TokenBatchPlan.indices).head? = some sample → ¬batches.Within (plan.indices ++ [sample])

theorem flatMap_planOf (segs : List (List Nat)) : (segs.map batches.planOf).flatMap TokenBatchPlan.indices = segs.flatten := by
  rw [List.flatMap_map]
  exact List.flatMap_id

theorem partition_segmented {segs : List (List Nat)}
    (hsegs : Segmented batches.Within (batches.order batches.sampler.issued) segs) :
    batches.Partition (segs.map batches.planOf) := by
  have hmem : ∀ plan ∈ segs.map batches.planOf, ∃ seg, plan = batches.planOf seg ∧ seg ≠ [] ∧ batches.Within seg := by
    intro plan hplan
    obtain ⟨seg, hseg, rfl⟩ := List.mem_map.mp hplan
    exact ⟨seg, rfl, hsegs.fits_mem seg hseg⟩
  constructor
  · rw [flatMap_planOf, hsegs.flatten]
    rfl
  · intro plan hplan
    obtain ⟨seg, rfl, hne, -⟩ := hmem plan hplan
    exact hne
  · intro plan hplan
    obtain ⟨seg, rfl, -, -⟩ := hmem plan hplan
    rfl
  · intro plan hplan
    obtain ⟨seg, rfl, -, hwithin⟩ := hmem plan hplan
    exact hwithin.tokens
  · intro plan hplan limit hlimit
    obtain ⟨seg, rfl, -, hwithin⟩ := hmem plan hplan
    have := hwithin.examples limit hlimit
    rwa [rows, List.length_map] at this
  · intro before plan after hsplit sample hsample
    obtain ⟨before', others, rfl, rfl, hothers⟩ := List.map_eq_append_iff.mp hsplit
    obtain ⟨seg, after', rfl, rfl, rfl⟩ := List.map_eq_cons_iff.mp hothers
    rw [flatMap_planOf] at hsample
    exact hsegs.maximal rfl hsample

end StatefulTokenBatchSampler

end Ruda.Data
