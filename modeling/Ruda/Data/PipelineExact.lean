import Ruda.Data.Pipeline
import Ruda.Data.SamplerBalanced

/-!
# What a rejected checkpoint leaves behind

A restore is all or nothing exactly when every component that it reaches before the part that
it rejects is already in the state that the record names for it. The record of a pipeline puts
every pipeline of the same configuration into its state.
-/

namespace Ruda.Data

variable {R S B : Type} (parts : PipelineParts R S)

-- What a record says

mutual
/-- The state that a record names for a pipeline of this configuration. -/
def Source.parse : Source R S → List UInt8 → Option (Source R S)
  | .stateless len, state => if state = [] then some (.stateless len) else none
  | .composed datasets, state =>
    match composedStates parts datasets.lens state with
    | .error _ => none
    | .ok states => (datasets.parseAll states).map .composed
  | .part dataset startIndex endIndex, state =>
    match partState startIndex endIndex state with
    | .error _ => none
    | .ok state => (dataset.parse state).map fun dataset => .part dataset startIndex endIndex
  | .windows dataset size, state =>
    match windowsState parts size state with
    | .error _ => none
    | .ok state => (dataset.parse state).map fun dataset => .windows dataset size
  | .sampler dataset size own, record =>
    match samplerState parts size dataset.len own.isWithReplacement record with
    | .error _ => none
    | .ok (restored, source) => (dataset.parse source).map fun dataset => .sampler dataset size restored
def Sources.parseAll : Sources R S → List (List UInt8) → Option (Sources R S)
  | .nil, _ => some .nil
  | .cons dataset datasets, [] => some (.cons dataset datasets)
  | .cons dataset datasets, state :: states =>
    match dataset.parse state, datasets.parseAll states with
    | some dataset, some datasets => some (.cons dataset datasets)
    | _, _ => none
end

mutual
/-- What precedes the first part that is rejected is in the state that the record names for it. -/
def Source.Settled : Source R S → List UInt8 → Prop
  | .stateless _, _ => True
  | .composed datasets, state =>
    match composedStates parts datasets.lens state with
    | .error _ => True
    | .ok states => datasets.SettledAll states
  | .part dataset startIndex endIndex, state =>
    match partState startIndex endIndex state with
    | .error _ => True
    | .ok state => dataset.Settled state
  | .windows dataset size, state =>
    match windowsState parts size state with
    | .error _ => True
    | .ok state => dataset.Settled state
  | .sampler dataset size own, record =>
    match samplerState parts size dataset.len own.isWithReplacement record with
    | .error _ => True
    | .ok (_, source) => dataset.Settled source
def Sources.SettledAll : Sources R S → List (List UInt8) → Prop
  | .nil, _ => True
  | .cons _ _, [] => True
  | .cons dataset datasets, state :: states =>
    match dataset.parse parts state with
    | none => dataset.Settled state
    | some named => named = dataset ∧ datasets.SettledAll states
end

-- What a restore does

variable {parts}

mutual
theorem Source.restore_of_parse {s s' : Source R S} {state : List UInt8} (h : s.parse parts state = some s') :
    s.restoreCheckpoint parts state = (.ok (), s') := by
  cases s with
  | stateless len =>
    rw [Source.parse] at h
    obtain ⟨hempty, hs⟩ := Option.ite_none_right_eq_some.mp h
    rw [Source.restoreCheckpoint, if_pos hempty, Option.some.inj hs]
  | composed datasets =>
    rw [Source.parse] at h
    rw [Source.restoreCheckpoint]
    split at h
    · cases h
    · next states heq =>
      obtain ⟨datasets', hds, rfl⟩ := Option.map_eq_some_iff.mp h
      simp only [heq, Sources.restore_of_parse hds]
  | part dataset startIndex endIndex =>
    rw [Source.parse] at h
    rw [Source.restoreCheckpoint]
    split at h
    · cases h
    · next inner heq =>
      obtain ⟨dataset', hd, rfl⟩ := Option.map_eq_some_iff.mp h
      simp only [heq, Source.restore_of_parse hd]
  | windows dataset size =>
    rw [Source.parse] at h
    rw [Source.restoreCheckpoint]
    split at h
    · cases h
    · next inner heq =>
      obtain ⟨dataset', hd, rfl⟩ := Option.map_eq_some_iff.mp h
      simp only [heq, Source.restore_of_parse hd]
  | sampler dataset size own =>
    rw [Source.parse] at h
    rw [Source.restoreCheckpoint]
    split at h
    · cases h
    · next restored source heq =>
      obtain ⟨dataset', hd, rfl⟩ := Option.map_eq_some_iff.mp h
      simp only [heq, Source.restore_of_parse hd]
theorem Sources.restore_of_parse {ds ds' : Sources R S} {states : List (List UInt8)} (h : ds.parseAll parts states = some ds') :
    ds.restoreAll parts states = (.ok (), ds') := by
  cases ds with
  | nil =>
    rw [Sources.parseAll] at h
    rw [Sources.restoreAll, Option.some.inj h]
  | cons dataset datasets =>
    cases states with
    | nil =>
      rw [Sources.parseAll] at h
      rw [Sources.restoreAll, Option.some.inj h]
    | cons state states =>
      rw [Sources.parseAll] at h
      rw [Sources.restoreAll]
      split at h
      · next d' ds'' hd hds =>
        cases h
        simp only [Source.restore_of_parse hd, Sources.restore_of_parse hds]
      · cases h
end

mutual
/-- A restore that fails leaves the pipeline as it was exactly when what precedes the failure is settled. -/
theorem Source.restore_of_reject {s : Source R S} {state : List UInt8} (h : s.parse parts state = none) :
    (∃ e, (s.restoreCheckpoint parts state).1 = .error e) ∧ ((s.restoreCheckpoint parts state).2 = s ↔ s.Settled parts state) := by
  cases s with
  | stateless len =>
    rw [Source.parse] at h
    rw [Source.restoreCheckpoint, Source.Settled]
    have hne : state ≠ [] := by
      rintro rfl
      simp at h
    simp [hne]
  | composed datasets =>
    rw [Source.parse] at h
    rw [Source.restoreCheckpoint, Source.Settled]
    split at h
    · next e heq => simp [heq]
    · next states heq =>
      obtain ⟨herr, hiff⟩ := Sources.restore_of_reject (Option.map_eq_none_iff.mp h)
      simp only [heq, Source.composed.injEq]
      exact ⟨herr, hiff⟩
  | part dataset startIndex endIndex =>
    rw [Source.parse] at h
    rw [Source.restoreCheckpoint, Source.Settled]
    split at h
    · next e heq => simp [heq]
    · next inner heq =>
      obtain ⟨herr, hiff⟩ := Source.restore_of_reject (Option.map_eq_none_iff.mp h)
      simp only [heq, Source.part.injEq, and_true]
      exact ⟨herr, hiff⟩
  | windows dataset size =>
    rw [Source.parse] at h
    rw [Source.restoreCheckpoint, Source.Settled]
    split at h
    · next e heq => simp [heq]
    · next inner heq =>
      obtain ⟨herr, hiff⟩ := Source.restore_of_reject (Option.map_eq_none_iff.mp h)
      simp only [heq, Source.windows.injEq, and_true]
      exact ⟨herr, hiff⟩
  | sampler dataset size own =>
    rw [Source.parse] at h
    rw [Source.restoreCheckpoint, Source.Settled]
    split at h
    · next e heq => simp [heq]
    · next restored source heq =>
      obtain ⟨⟨e, herr⟩, hiff⟩ := Source.restore_of_reject (Option.map_eq_none_iff.mp h)
      rcases hpair : dataset.restoreCheckpoint parts source with ⟨answer, left⟩
      rw [hpair] at herr hiff
      obtain rfl : answer = .error e := herr
      simp only [heq, hpair]
      simpa using hiff
theorem Sources.restore_of_reject {ds : Sources R S} {states : List (List UInt8)} (h : ds.parseAll parts states = none) :
    (∃ e, (ds.restoreAll parts states).1 = .error e) ∧ ((ds.restoreAll parts states).2 = ds ↔ ds.SettledAll parts states) := by
  cases ds with
  | nil => simp [Sources.parseAll] at h
  | cons dataset datasets =>
    cases states with
    | nil => simp [Sources.parseAll] at h
    | cons state states =>
      rw [Sources.parseAll] at h
      rw [Sources.restoreAll, Sources.SettledAll]
      cases hd : dataset.parse parts state with
      | none =>
        obtain ⟨⟨e, herr⟩, hiff⟩ := Source.restore_of_reject hd
        have hpair : dataset.restoreCheckpoint parts state = (.error e, (dataset.restoreCheckpoint parts state).2) :=
          Prod.ext herr rfl
        rw [hpair]
        simpa using hiff
      | some named =>
        have hds : datasets.parseAll parts states = none := by
          cases hds : datasets.parseAll parts states with
          | none => rfl
          | some _ => simp [hd, hds] at h
        obtain ⟨herr, hiff⟩ := Sources.restore_of_reject hds
        simp only [Source.restore_of_parse hd, Sources.cons.injEq, hiff]
        exact ⟨herr, trivial⟩
end

-- Configurations and states

mutual
/-- Pipelines that differ in the state of their samplers only. -/
def Source.Alike : Source R S → Source R S → Prop
  | .stateless len, .stateless len' => len = len'
  | .composed datasets, .composed datasets' => datasets.AlikeAll datasets'
  | .part dataset startIndex endIndex, .part dataset' startIndex' endIndex' =>
    startIndex = startIndex' ∧ endIndex = endIndex' ∧ dataset.Alike dataset'
  | .windows dataset size, .windows dataset' size' => size = size' ∧ dataset.Alike dataset'
  | .sampler dataset size state, .sampler dataset' size' state' =>
    size = size' ∧ state.isWithReplacement = state'.isWithReplacement ∧ dataset.Alike dataset'
  | _, _ => False
def Sources.AlikeAll : Sources R S → Sources R S → Prop
  | .nil, .nil => True
  | .cons dataset datasets, .cons dataset' datasets' => dataset.Alike dataset' ∧ datasets.AlikeAll datasets'
  | _, _ => False
end

/-- What a sampler has left to draw is part of one refill. -/
def DrawState.Within (size len : Nat) : DrawState R S → Prop
  | .withReplacement _ => True
  | .withoutReplacement _ remaining => remaining.length ≤ size ∧ ∀ i ∈ remaining, i < len

mutual
/-- Every sampler has draws of a refill left. -/
def Source.Within : Source R S → Prop
  | .stateless _ => True
  | .composed datasets => datasets.WithinAll
  | .part dataset _ _ => dataset.Within
  | .windows dataset _ => dataset.Within
  | .sampler dataset size state => state.Within size dataset.len ∧ dataset.Within
def Sources.WithinAll : Sources R S → Prop
  | .nil => True
  | .cons dataset datasets => dataset.Within ∧ datasets.WithinAll
end

mutual
theorem Source.Alike.refl : (s : Source R S) → s.Alike s
  | .stateless _ => rfl
  | .composed datasets => Sources.AlikeAll.refl datasets
  | .part dataset _ _ => ⟨rfl, rfl, Source.Alike.refl dataset⟩
  | .windows dataset _ => ⟨rfl, Source.Alike.refl dataset⟩
  | .sampler dataset _ _ => ⟨rfl, rfl, Source.Alike.refl dataset⟩
theorem Sources.AlikeAll.refl : (ds : Sources R S) → ds.AlikeAll ds
  | .nil => trivial
  | .cons dataset datasets => ⟨Source.Alike.refl dataset, Sources.AlikeAll.refl datasets⟩
end

mutual
theorem Source.Alike.len_eq {s s' : Source R S} (h : s.Alike s') : s.len = s'.len := by
  cases s <;> cases s' <;> first | exact h.elim | skip
  case stateless.stateless => exact h
  case composed.composed => simp only [Source.len, (Sources.AlikeAll.len_eq h).1]
  case part.part =>
    obtain ⟨rfl, rfl, h⟩ := h
    simp only [Source.len, Source.Alike.len_eq h]
  case windows.windows =>
    obtain ⟨rfl, h⟩ := h
    simp only [Source.len, Source.Alike.len_eq h]
  case sampler.sampler => exact h.1
theorem Sources.AlikeAll.len_eq {ds ds' : Sources R S} (h : ds.AlikeAll ds') : ds.total = ds'.total ∧ ds.lens = ds'.lens := by
  cases ds <;> cases ds' <;> first | exact h.elim | skip
  case nil.nil => exact ⟨rfl, rfl⟩
  case cons.cons =>
    obtain ⟨htotal, hlens⟩ := Sources.AlikeAll.len_eq h.2
    have hlen := Source.Alike.len_eq h.1
    exact ⟨by simp only [Sources.total, hlen, htotal], by simp only [Sources.lens, hlen, hlens]⟩
end

-- Round trip

theorem composedStates_toVec (lens : List Nat) (sources : List (Nat × List UInt8)) (h : sources.map Prod.fst = lens) :
    composedStates parts lens (parts.composed.toVec (1, sources)) = .ok (sources.map Prod.snd) := by
  have hzip : ¬ ((sources.zip lens).any (fun s => s.1.1 ≠ s.2) = true) := by
    subst h
    rw [List.any_eq_true]
    rintro ⟨⟨⟨len, state⟩, own⟩, hmem, hne⟩
    induction sources with
    | nil => simp at hmem
    | cons source sources ih =>
      rw [List.map_cons, List.zip_cons_cons, List.mem_cons] at hmem
      rcases hmem with heq | hmem
      · simp only [Prod.mk.injEq] at heq
        obtain ⟨rfl, rfl⟩ := heq
        simp at hne
      · exact ih hmem
  rw [composedStates, parts.composed.fromSlice_toVec]
  change (if _ then _ else _) = _
  rw [if_neg]
  · rfl
  · rw [not_or, not_or]
    exact ⟨by simp, by simp [← h], hzip⟩

theorem partState_append (startIndex endIndex : Nat) (state : List UInt8) :
    partState startIndex endIndex (leBytes 8 startIndex ++ leBytes 8 endIndex ++ state) = .ok state := by
  have hfirst := leBytes_length 8 startIndex
  have hsecond := leBytes_length 8 endIndex
  rw [partState, if_neg]
  · rw [List.drop_left' (by simp)]
  · rw [not_or, not_or, List.append_assoc]
    refine ⟨?_, by simp, ?_⟩
    · simp only [List.length_append, hfirst, hsecond]
      omega
    rw [List.drop_left' hfirst, List.take_left' hsecond, not_not]

theorem samplerState_toVec {size sourceLen : Nat} {state : DrawState R S} {source : List UInt8} {record : List UInt8}
    (hwithin : state.Within size sourceLen) (h : samplerCheckpoint parts size sourceLen state (.ok source) = .ok record) :
    samplerState parts size sourceLen state.isWithReplacement record = .ok (state, source) := by
  have hstate (rng : R) (replaced : Bool) (remaining : List Nat) (hlength : remaining.length ≤ size)
      (hlt : ∀ i ∈ remaining, i < sourceLen) (hempty : replaced = true → remaining = []) :
      samplerState parts size sourceLen replaced
          (parts.sampler.toVec ⟨1, size, sourceLen, replaced, parts.chacha.serializeState rng, remaining, source⟩) =
        .ok (if replaced then .withReplacement (.checkpoint rng) else .withoutReplacement (.checkpoint rng) remaining, source) := by
    have hrng : SamplerDataset.restoreRng (parts.draws sourceLen) (parts.chacha.serializeState rng) = .ok (.checkpoint rng) :=
      SamplerDataset.restoreRng_serializeState (parts.draws sourceLen) rng
    rw [samplerState, parts.sampler.fromSlice_toVec]
    change (if _ then _ else _) = _
    rw [if_neg]
    · change (SamplerDataset.restoreRng (parts.draws sourceLen) (parts.chacha.serializeState rng) >>= fun rng => _) = _
      rw [hrng]
      rfl
    · simpa [hlength] using ⟨hempty, hlt⟩
  cases state with
  | withReplacement rng =>
    cases rng with
    | supplied rng => cases h
    | checkpoint rng =>
      obtain rfl := Except.ok.inj h
      exact hstate rng true [] (Nat.zero_le _) (by simp) fun _ => rfl
  | withoutReplacement rng remaining =>
    cases rng with
    | supplied rng => cases h
    | checkpoint rng =>
      obtain rfl := Except.ok.inj h
      exact hstate rng false remaining hwithin.1 hwithin.2 (by simp)

theorem samplerCheckpoint_ok {size sourceLen : Nat} {state : DrawState R S} {source : Except String (List UInt8)}
    {record : List UInt8} (h : samplerCheckpoint parts size sourceLen state source = .ok record) :
    ∃ bytes, source = .ok bytes ∧ samplerCheckpoint parts size sourceLen state (.ok bytes) = .ok record := by
  cases source with
  | ok bytes => exact ⟨bytes, rfl, h⟩
  | error e =>
    cases state with
    | withReplacement rng => cases rng <;> cases h
    | withoutReplacement rng remaining => cases rng <;> cases h

mutual
/-- The record of a pipeline names its state, for every pipeline of the configuration. -/
theorem Source.parse_checkpoint {s q : Source R S} {record : List UInt8} (hq : q.Within) (halike : s.Alike q)
    (h : q.checkpoint parts = .ok record) : s.parse parts record = some q := by
  cases q <;> cases s <;> first | exact halike.elim | skip
  case stateless.stateless len len' =>
    obtain rfl : len' = len := halike
    rw [Source.checkpoint] at h
    rw [← Except.ok.inj h, Source.parse, if_pos rfl]
  case composed.composed datasets datasets' =>
    rw [Source.checkpoint] at h
    obtain ⟨sources, hsources, hrecord⟩ := except_bind_eq_ok.mp h
    obtain ⟨hlens, hparse⟩ := Sources.parse_checkpoints hq halike hsources
    rw [← Except.ok.inj hrecord, Source.parse, composedStates_toVec _ _ hlens]
    simp only [hparse, Option.map_some]
  case part.part dataset startIndex endIndex dataset' startIndex' endIndex' =>
    obtain ⟨rfl, rfl, halike⟩ := halike
    rw [Source.checkpoint] at h
    obtain ⟨inner, hinner, hrecord⟩ := except_bind_eq_ok.mp h
    have hwithin : dataset.Within := hq
    rw [← Except.ok.inj hrecord, Source.parse, partState_append]
    simp only [Source.parse_checkpoint hwithin halike hinner, Option.map_some]
  case windows.windows dataset size dataset' size' =>
    obtain ⟨rfl, halike⟩ := halike
    rw [Source.checkpoint] at h
    obtain ⟨inner, hinner, hrecord⟩ := except_bind_eq_ok.mp h
    have hstate : windowsState parts size' (parts.windows.toVec (1, size', inner)) = .ok inner := by
      rw [windowsState, parts.windows.fromSlice_toVec]
      change (if _ then _ else _) = _
      rw [if_neg (by simp)]
      rfl
    have hwithin : dataset.Within := hq
    rw [← Except.ok.inj hrecord, Source.parse, hstate]
    simp only [Source.parse_checkpoint hwithin halike hinner, Option.map_some]
  case sampler.sampler dataset size state dataset' size' state' =>
    obtain ⟨rfl, hmode, halike⟩ := halike
    rw [Source.checkpoint] at h
    obtain ⟨inner, hinner, hrecord⟩ := samplerCheckpoint_ok h
    rw [Source.parse, halike.len_eq, hmode, samplerState_toVec hq.1 hrecord]
    simp only [Source.parse_checkpoint hq.2 halike hinner, Option.map_some]
theorem Sources.parse_checkpoints {ds qs : Sources R S} {sources : List (Nat × List UInt8)} (hqs : qs.WithinAll)
    (halike : ds.AlikeAll qs) (h : qs.checkpoints parts = .ok sources) :
    sources.map Prod.fst = ds.lens ∧ ds.parseAll parts (sources.map Prod.snd) = some qs := by
  cases qs <;> cases ds <;> first | exact halike.elim | skip
  case nil.nil =>
    rw [Sources.checkpoints] at h
    rw [← Except.ok.inj h]
    exact ⟨rfl, by simp [Sources.parseAll]⟩
  case cons.cons dataset datasets dataset' datasets' =>
    rw [Sources.checkpoints] at h
    obtain ⟨state, hstate, h⟩ := except_bind_eq_ok.mp h
    obtain ⟨rest, hrest, h⟩ := except_bind_eq_ok.mp h
    obtain ⟨hlens, hparse⟩ := Sources.parse_checkpoints hqs.2 halike.2 hrest
    rw [← Except.ok.inj h]
    refine ⟨by simp only [List.map_cons, Sources.lens, hlens, halike.1.len_eq], ?_⟩
    simp only [List.map_cons, Sources.parseAll, Source.parse_checkpoint hqs.1 halike.1 hstate, hparse]
end

-- Runs

mutual
/-- A pipeline as its constructors make it. -/
def Source.Fresh : Source R S → Prop
  | .stateless _ => True
  | .composed datasets => datasets.FreshAll
  | .part dataset _ _ => dataset.Fresh
  | .windows dataset _ => dataset.Fresh
  | .sampler dataset _ state => (∀ rng remaining, state = .withoutReplacement rng remaining → remaining = []) ∧ dataset.Fresh
def Sources.FreshAll : Sources R S → Prop
  | .nil => True
  | .cons dataset datasets => dataset.Fresh ∧ datasets.FreshAll
end

mutual
/-- One of the samplers draws an index. -/
def Source.Draws (parts : PipelineParts R S) : Source R S → Source R S → Prop
  | .composed datasets, .composed datasets' => datasets.DrawsOne parts datasets'
  | .part dataset startIndex endIndex, .part dataset' startIndex' endIndex' =>
    startIndex' = startIndex ∧ endIndex' = endIndex ∧ dataset.Draws parts dataset'
  | .windows dataset size, .windows dataset' size' => size' = size ∧ dataset.Draws parts dataset'
  | .sampler dataset size state, .sampler dataset' size' state' =>
    size' = size ∧ (dataset' = dataset ∧ (∃ i, SamplerDataset.index (parts.draws dataset.len) ⟨size, state, ()⟩ =
      .ok (i, ⟨size, state', ()⟩)) ∨ state' = state ∧ dataset.Draws parts dataset')
  | _, _ => False
def Sources.DrawsOne (parts : PipelineParts R S) : Sources R S → Sources R S → Prop
  | .cons dataset datasets, .cons dataset' datasets' =>
    dataset.Draws parts dataset' ∧ datasets' = datasets ∨ dataset' = dataset ∧ datasets.DrawsOne parts datasets'
  | _, _ => False
end

/-- A read draws, and a restore may succeed or fail. -/
def Source.Step (parts : PipelineParts R S) (s s' : Source R S) : Prop :=
  s.Draws parts s' ∨ ∃ state, s' = (s.restoreCheckpoint parts state).2

def Source.Reachable (parts : PipelineParts R S) (s : Source R S) : Prop :=
  ∃ start : Source R S, start.Fresh ∧ Relation.ReflTransGen (Source.Step parts) start s

theorem DrawState.within_index {size len : Nat} {state state' : DrawState R S} {i : Nat} (h : state.Within size len)
    (hdraw : SamplerDataset.index (parts.draws len) ⟨size, state, ()⟩ = .ok (i, ⟨size, state', ()⟩)) :
    state'.Within size len ∧ state.isWithReplacement = state'.isWithReplacement := by
  cases state with
  | withReplacement rng =>
    rw [SamplerDataset.index] at hdraw
    dsimp only at hdraw
    split at hdraw
    · cases hdraw
    · cases hdraw
      exact ⟨trivial, rfl⟩
  | withoutReplacement rng remaining =>
    rw [SamplerDataset.index] at hdraw
    obtain ⟨⟨indices, rng'⟩, havailable, hdraw⟩ := bind_eq_ok.mp hdraw
    -- what is left, or a whole refill
    have hindices : indices.length ≤ size ∧ ∀ i ∈ indices, i < len := by
      rw [SamplerDataset.available] at havailable
      split at havailable
      · have hpos : 0 < len := by
          by_contra h0
          have hzero : (parts.draws len).dataset.len = 0 := Nat.eq_zero_of_not_pos h0
          rw [SamplerDataset.refill, hzero] at havailable
          cases havailable
        obtain ⟨refilled, rng'', hrefill, hlength, hbalanced, -⟩ :=
          @SamplerDataset.refill_ok R S Unit Unit (parts.draws len) len size hpos rng
        obtain ⟨rfl, -⟩ := Prod.mk.inj (Except.ok.inj (hrefill.symm.trans havailable))
        exact ⟨hlength.le, hbalanced.inside⟩
      · obtain ⟨rfl, -⟩ := Prod.mk.inj (Except.ok.inj havailable)
        exact h
    dsimp only at hdraw
    split at hdraw
    · cases hdraw
    · cases hdraw
      refine ⟨⟨?_, fun k hk => hindices.2 k (List.mem_of_mem_dropLast hk)⟩, rfl⟩
      exact (List.length_dropLast.trans_le (Nat.sub_le _ _)).trans hindices.1

mutual
theorem Source.Within.draws {s s' : Source R S} (h : s.Within) (hstep : s.Draws parts s') : s'.Within ∧ s.Alike s' := by
  cases s <;> cases s' <;> first | exact hstep.elim | skip
  case composed.composed => exact Sources.WithinAll.drawsOne h hstep
  case part.part dataset _ _ _ _ _ =>
    have hin : dataset.Within := h
    obtain ⟨rfl, rfl, hstep⟩ := hstep
    obtain ⟨hw, ha⟩ := Source.Within.draws hin hstep
    exact ⟨hw, rfl, rfl, ha⟩
  case windows.windows dataset _ _ _ =>
    have hin : dataset.Within := h
    obtain ⟨rfl, hstep⟩ := hstep
    obtain ⟨hw, ha⟩ := Source.Within.draws hin hstep
    exact ⟨hw, rfl, ha⟩
  case sampler.sampler =>
    obtain ⟨rfl, ⟨rfl, i, hdraw⟩ | ⟨rfl, hstep⟩⟩ := hstep
    · obtain ⟨hw, hmode⟩ := DrawState.within_index h.1 hdraw
      exact ⟨⟨hw, h.2⟩, rfl, hmode, Source.Alike.refl _⟩
    · obtain ⟨hw, ha⟩ := Source.Within.draws h.2 hstep
      refine ⟨⟨?_, hw⟩, rfl, rfl, ha⟩
      rw [← ha.len_eq]
      exact h.1
theorem Sources.WithinAll.drawsOne {ds ds' : Sources R S} (h : ds.WithinAll) (hstep : ds.DrawsOne parts ds') :
    ds'.WithinAll ∧ ds.AlikeAll ds' := by
  cases ds <;> cases ds' <;> first | exact hstep.elim | skip
  case cons.cons =>
    obtain ⟨hstep, rfl⟩ | ⟨rfl, hstep⟩ := hstep
    · obtain ⟨hw, ha⟩ := Source.Within.draws h.1 hstep
      exact ⟨⟨hw, h.2⟩, ha, Sources.AlikeAll.refl _⟩
    · obtain ⟨hw, ha⟩ := Sources.WithinAll.drawsOne h.2 hstep
      exact ⟨⟨h.1, hw⟩, Source.Alike.refl _, ha⟩
end

theorem samplerState_ok {size sourceLen : Nat} {replaced : Bool} {record source : List UInt8} {restored : DrawState R S}
    (h : samplerState parts size sourceLen replaced record = .ok (restored, source)) :
    restored.Within size sourceLen ∧ replaced = restored.isWithReplacement := by
  obtain ⟨checkpoint, -, h⟩ := except_bind_eq_ok.mp h
  split at h
  · cases h
  · next hchecks =>
    obtain ⟨rng, -, h⟩ := except_bind_eq_ok.mp h
    obtain ⟨rfl, -⟩ := Prod.mk.inj (Except.ok.inj h)
    simp only [not_or, not_lt, List.any_eq_true, decide_eq_true_eq, not_exists, not_and, not_le] at hchecks
    obtain ⟨-, -, -, -, hlength, -, hlt⟩ := hchecks
    cases replaced with
    | true => exact ⟨trivial, rfl⟩
    | false => exact ⟨⟨hlength, hlt⟩, rfl⟩

mutual
/-- A restore keeps the configuration and what holds of the samplers, also when it fails. -/
theorem Source.Within.restore {s : Source R S} (h : s.Within) (state : List UInt8) :
    (s.restoreCheckpoint parts state).2.Within ∧ s.Alike (s.restoreCheckpoint parts state).2 := by
  cases s with
  | stateless len =>
    rw [Source.restoreCheckpoint]
    exact ⟨trivial, rfl⟩
  | composed datasets =>
    rw [Source.restoreCheckpoint]
    split
    · exact ⟨h, Source.Alike.refl _⟩
    · exact Sources.WithinAll.restore h _
  | part dataset startIndex endIndex =>
    rw [Source.restoreCheckpoint]
    split
    · exact ⟨h, Source.Alike.refl _⟩
    · next inner _ =>
      have hin : dataset.Within := h
      obtain ⟨hw, ha⟩ := Source.Within.restore hin inner
      exact ⟨hw, rfl, rfl, ha⟩
  | windows dataset size =>
    rw [Source.restoreCheckpoint]
    split
    · exact ⟨h, Source.Alike.refl _⟩
    · next inner _ =>
      have hin : dataset.Within := h
      obtain ⟨hw, ha⟩ := Source.Within.restore hin inner
      exact ⟨hw, rfl, ha⟩
  | sampler dataset size own =>
    rw [Source.restoreCheckpoint]
    split
    · exact ⟨h, Source.Alike.refl _⟩
    · next restored source heq =>
      obtain ⟨hw, ha⟩ := Source.Within.restore h.2 source
      obtain ⟨hrestored, hmode⟩ := samplerState_ok heq
      split
      · next e dataset' hd =>
        rw [hd] at hw ha
        refine ⟨⟨?_, hw⟩, rfl, rfl, ha⟩
        rw [← ha.len_eq]
        exact h.1
      · next dataset' hd =>
        rw [hd] at hw ha
        refine ⟨⟨?_, hw⟩, rfl, hmode, ha⟩
        rw [← ha.len_eq]
        exact hrestored
theorem Sources.WithinAll.restore {ds : Sources R S} (h : ds.WithinAll) (states : List (List UInt8)) :
    (ds.restoreAll parts states).2.WithinAll ∧ ds.AlikeAll (ds.restoreAll parts states).2 := by
  cases ds with
  | nil =>
    rw [Sources.restoreAll]
    exact ⟨trivial, trivial⟩
  | cons dataset datasets =>
    cases states with
    | nil =>
      rw [Sources.restoreAll]
      exact ⟨h, Sources.AlikeAll.refl _⟩
    | cons state states =>
      rw [Sources.restoreAll]
      obtain ⟨hw, ha⟩ := Source.Within.restore h.1 state
      split
      · next e dataset' hd =>
        rw [hd] at hw ha
        exact ⟨⟨hw, h.2⟩, ha, Sources.AlikeAll.refl _⟩
      · next dataset' hd =>
        rw [hd] at hw ha
        obtain ⟨hws, has⟩ := Sources.WithinAll.restore h.2 states
        exact ⟨⟨hw, hws⟩, ha, has⟩
end

mutual
theorem Source.Fresh.within {s : Source R S} (h : s.Fresh) : s.Within := by
  cases s with
  | stateless len => exact trivial
  | composed datasets => exact Sources.FreshAll.within h
  | part dataset startIndex endIndex => exact Source.Fresh.within (s := dataset) h
  | windows dataset size => exact Source.Fresh.within (s := dataset) h
  | sampler dataset size state =>
    refine ⟨?_, Source.Fresh.within h.2⟩
    cases state with
    | withReplacement rng => exact trivial
    | withoutReplacement rng remaining =>
      rw [h.1 rng remaining rfl]
      exact ⟨Nat.zero_le _, by simp⟩
theorem Sources.FreshAll.within {ds : Sources R S} (h : ds.FreshAll) : ds.WithinAll := by
  cases ds with
  | nil => exact trivial
  | cons dataset datasets => exact ⟨Source.Fresh.within h.1, Sources.FreshAll.within h.2⟩
end

theorem Source.Reachable.within {s : Source R S} (h : s.Reachable parts) : s.Within := by
  obtain ⟨start, hstart, hrun⟩ := h
  induction hrun with
  | refl => exact hstart.within
  | tail _ hstep ih =>
    rcases hstep with hdraw | ⟨state, rfl⟩
    · exact (ih.draws hdraw).1
    · exact (ih.restore state).1

-- The loader

theorem restoreRng_checkpointRng (chacha : ChaCha12Rng R) (rng : R) : restoreRng chacha (checkpointRng chacha rng) = .ok rng := by
  have hlength := chacha.serialize_length rng
  have hlast := chacha.serialize_last rng
  rw [restoreRng, if_neg]
  · simp only [checkpointRng, List.cons_append, List.nil_append, List.drop_succ_cons, List.drop_zero, chacha.deserialize_serialize]
  · simp only [checkpointRng, List.cons_append, List.nil_append, List.length_cons, hlength, List.getD_cons_succ, hlast]
    simp

theorem restoreRngs_checkpointRng (chacha : ChaCha12Rng R) (rng : Option R) :
    restoreRngs chacha (rng.map (checkpointRng chacha)) = .ok rng := by
  cases rng with
  | none => rfl
  | some rng =>
    rw [Option.map_some, restoreRngs, restoreRng_checkpointRng]
    rfl

namespace SourceLoader

variable (parts : LoaderParts R S B)

/-- Loaders that differ in the states of their components only. -/
structure Alike (l q : SourceLoader R S B) : Prop where
  dataset : l.dataset.Alike q.dataset
  batchSize : l.batchSize = q.batchSize
  workers : l.workers = q.workers
  batchReading : l.batchReading = q.batchReading
  shuffles : l.rng.isSome = q.rng.isSome

/-- The record is refused before anything is restored, or the dataset is settled, or in the state that the
record names for it, or the batcher takes its part too. -/
def Settled (l : SourceLoader R S B) (bytes : List UInt8) : Prop :=
  match sourceStates parts l bytes with
  | .error _ => True
  | .ok (_, dataset, batcher) =>
    match l.dataset.parse parts.toPipelineParts dataset with
    | none => l.dataset.Settled parts.toPipelineParts dataset
    | some named => named = l.dataset ∨ ∃ b, parts.batcher.restoreCheckpoint l.batcher batcher = .ok b

end SourceLoader

/-- A call that fails leaves everything as it was. -/
def AllOrNothing {A : Type} (restored : Except String Unit × A) (before : A) : Prop :=
  ∀ e, restored.1 = .error e → restored.2 = before

theorem Source.allOrNothing_iff (s : Source R S) (bytes : List UInt8) :
    AllOrNothing (s.restoreCheckpoint parts bytes) s ↔ (s.parse parts bytes).isSome = true ∨ s.Settled parts bytes := by
  cases hparse : s.parse parts bytes with
  | some s' =>
    rw [Source.restore_of_parse hparse]
    simp [AllOrNothing]
  | none =>
    obtain ⟨⟨e, herr⟩, hiff⟩ := Source.restore_of_reject hparse
    rw [← hiff]
    simp [AllOrNothing, herr]

theorem Source.restore_checkpoint {s q : Source R S} {record : List UInt8} (hq : q.Reachable parts) (halike : s.Alike q)
    (h : q.checkpoint parts = .ok record) : s.restoreCheckpoint parts record = (.ok (), q) :=
  Source.restore_of_parse (Source.parse_checkpoint hq.within halike h)

theorem SourceLoader.allOrNothing_iff (parts : LoaderParts R S B) (l : SourceLoader R S B) (bytes : List UInt8) :
    AllOrNothing (l.restoreSource parts bytes) l ↔ l.Settled parts bytes := by
  rw [restoreSource, Settled]
  cases hstates : sourceStates parts l bytes with
  | error e => simp [AllOrNothing]
  | ok states =>
    obtain ⟨rng, dataset, batcher⟩ := states
    have hsame (d : Source R S) : ({ l with dataset := d } : SourceLoader R S B) = l ↔ d = l.dataset := by
      cases l
      simp
    dsimp only
    cases hparse : l.dataset.parse parts.toPipelineParts dataset with
    | none =>
      obtain ⟨⟨e, herr⟩, hiff⟩ := Source.restore_of_reject hparse
      have hpair : l.dataset.restoreCheckpoint parts.toPipelineParts dataset =
          (.error e, (l.dataset.restoreCheckpoint parts.toPipelineParts dataset).2) := Prod.ext herr rfl
      rw [hpair]
      simp [AllOrNothing, hsame, hiff]
    | some named =>
      rw [Source.restore_of_parse hparse]
      dsimp only
      cases hbatcher : parts.batcher.restoreCheckpoint l.batcher batcher with
      | error e => simp [AllOrNothing, hsame]
      | ok b => simp [AllOrNothing]

theorem SourceLoader.restore_checkpoint {parts : LoaderParts R S B} {l q : SourceLoader R S B} {record : List UInt8}
    (hq : q.dataset.Reachable parts.toPipelineParts) (halike : l.Alike q) (h : q.checkpointSource parts = .ok record) :
    l.restoreSource parts record = (.ok (), q) := by
  obtain ⟨dataset, hdataset, h⟩ := except_bind_eq_ok.mp h
  obtain ⟨batcher, hbatcher, h⟩ := except_bind_eq_ok.mp h
  have hstates : sourceStates parts l record = .ok (q.rng, dataset, batcher) := by
    rw [sourceStates, ← Except.ok.inj h, parts.source.decode_encode]
    change (if _ then _ else _) = _
    rw [if_neg]
    · change (restoreRngs parts.chacha (q.rng.map (checkpointRng parts.chacha)) >>= fun rng => _) = _
      rw [restoreRngs_checkpointRng]
      rfl
    · simp [halike.dataset.len_eq, halike.batchSize, halike.workers, halike.batchReading, halike.shuffles]
  have hrestore := Source.restore_checkpoint hq halike.dataset hdataset
  rw [restoreSource, hstates]
  dsimp only
  rw [hrestore]
  dsimp only
  rw [parts.batcher.restore_checkpoint _ l.batcher _ hbatcher]
  obtain ⟨-, hsize, hworkers, hreading, -⟩ := halike
  cases l
  cases q
  simp_all

/-- A restore of a dataset or of a loader is all or nothing, and brings back every state that was recorded for its
configuration, exactly when what precedes the part that it rejects is already in the state that the record names. -/
theorem restore_all_or_nothing_iff (parts : LoaderParts R S B) :
    (∀ (s : Source R S) (bytes : List UInt8),
      (AllOrNothing (s.restoreCheckpoint parts.toPipelineParts bytes) s ∧
        ∀ (q : Source R S) (record : List UInt8), q.Reachable parts.toPipelineParts → s.Alike q →
          q.checkpoint parts.toPipelineParts = .ok record →
            s.restoreCheckpoint parts.toPipelineParts record = (.ok (), q)) ↔
        (s.parse parts.toPipelineParts bytes).isSome = true ∨ s.Settled parts.toPipelineParts bytes) ∧
    ∀ (l : SourceLoader R S B) (bytes : List UInt8),
      (AllOrNothing (l.restoreSource parts bytes) l ∧
        ∀ (q : SourceLoader R S B) (record : List UInt8), q.dataset.Reachable parts.toPipelineParts → l.Alike q →
          q.checkpointSource parts = .ok record → l.restoreSource parts record = (.ok (), q)) ↔
        l.Settled parts bytes := by
  refine ⟨fun s bytes => ?_, fun l bytes => ?_⟩
  · rw [Source.allOrNothing_iff, and_iff_left]
    exact fun q record hq halike h => Source.restore_checkpoint hq halike h
  · rw [SourceLoader.allOrNothing_iff, and_iff_left]
    exact fun q record hq halike h => SourceLoader.restore_checkpoint hq halike h

-- A composition whose last record is damaged

/-- A record by its number. -/
def numberRecord (A : Type) [Encodable A] : RecordCodec A where
  toVec a := List.replicate (Encodable.encode a) 0
  fromSlice l :=
    match (Encodable.decode l.length : Option A) with
    | some a => .ok a
    | none => .error "expected value"
  fromSlice_toVec a := by
    rw [List.length_replicate, Encodable.encodek]

def firstPipelineParts : PipelineParts Unit Unit where
  chacha := SamplerDataset.firstParts.chacha
  std := SamplerDataset.firstRng
  sampler := SamplerDataset.numberCodec
  composed := numberRecord _
  windows := numberRecord _

/-- A sampler over two items, with the given index left to draw, and a stateless source. -/
def samplerAndSource (rng : R) (left : Nat) : Source R S :=
  .composed (.cons (.sampler (.stateless 2) 2 (.withoutReplacement (.checkpoint rng) [left])) (.cons (.stateless 1) .nil))

/-- The record of the sampler with the index `1` left. -/
def samplerRecord (parts : PipelineParts R S) (rng : R) : List UInt8 :=
  parts.sampler.toVec ⟨1, 2, 2, false, parts.chacha.serializeState rng, [1], []⟩

/-- The record of the composition, with a byte too many for the stateless source. -/
def damagedRecord (parts : PipelineParts R S) (rng : R) : List UInt8 :=
  parts.composed.toVec (1, [(2, samplerRecord parts rng), (1, [7])])

theorem parse_samplerRecord (parts : PipelineParts R S) (rng : R) :
    (Source.sampler (.stateless 2) 2 (.withoutReplacement (.checkpoint rng) [0])).parse parts (samplerRecord parts rng) =
      some (.sampler (.stateless 2) 2 (.withoutReplacement (.checkpoint rng) [1])) := by
  have hwithin : (DrawState.withoutReplacement (.checkpoint rng) [1] : DrawState R S).Within 2 2 := ⟨by simp, by simp⟩
  have hrecord : samplerCheckpoint parts 2 2 (.withoutReplacement (.checkpoint rng) [1]) (.ok []) =
      .ok (samplerRecord parts rng) := rfl
  have hstate := samplerState_toVec hwithin hrecord
  simp only [DrawState.isWithReplacement] at hstate
  simp only [Source.parse, Source.len, DrawState.isWithReplacement, hstate, if_true, Option.map_some]

theorem restore_damagedRecord (parts : PipelineParts R S) (rng : R) :
    ¬ AllOrNothing ((samplerAndSource rng 0).restoreCheckpoint parts (damagedRecord parts rng)) (samplerAndSource rng 0) := by
  have hstates : composedStates parts [2, 1] (damagedRecord parts rng) = .ok [samplerRecord parts rng, [7]] :=
    composedStates_toVec _ _ rfl
  have hsource : (Source.stateless 1 : Source R S).parse parts [7] = none := by simp [Source.parse]
  rw [Source.allOrNothing_iff, samplerAndSource, Source.parse, Source.Settled]
  simp only [Sources.lens, Source.len, hstates, Sources.parseAll, Sources.SettledAll, parse_samplerRecord, hsource]
  simp

/-- The second source is refused, and the sampler has been changed. -/
theorem restore_half_done :
    ¬ AllOrNothing ((samplerAndSource () 0).restoreCheckpoint firstPipelineParts (damagedRecord firstPipelineParts ()))
      (samplerAndSource () 0) :=
  restore_damagedRecord firstPipelineParts ()

end Ruda.Data
