import Ruda.Data.SamplerDataset

/-!
# The draws are balanced and can be continued

Every refill holds the source as often as it fits and a sample of it, so a window of draws
between two refills is balanced. A checkpoint holds everything that the next draws depend on.
-/

namespace Ruda.Data.SamplerDataset

variable {R S T I : Type} {parts : SamplerParts R S T I}

-- A refill

theorem sample_spec (rng : SamplerRng R S) (len amount : Nat) :
    (sample parts rng len amount).1.Nodup ∧ (∀ i ∈ (sample parts rng len amount).1, i < len) ∧
      (sample parts rng len amount).1.length = min amount len ∧ (Own (sample parts rng len amount).2 ↔ Own rng) := by
  cases rng with
  | checkpoint rng =>
    exact ⟨parts.chacha.sample_nodup rng len amount, parts.chacha.sample_lt rng len amount, parts.chacha.sample_length rng len amount, .rfl⟩
  | supplied rng =>
    exact ⟨parts.std.sample_nodup rng len amount, parts.std.sample_lt rng len amount, parts.std.sample_length rng len amount, .rfl⟩

theorem shuffle_spec (rng : SamplerRng R S) (indices : List Nat) :
    (shuffle parts rng indices).1.Perm indices ∧ (Own (shuffle parts rng indices).2 ↔ Own rng) := by
  cases rng with
  | checkpoint rng => exact ⟨parts.chacha.shuffle_perm rng indices, .rfl⟩
  | supplied rng => exact ⟨parts.std.shuffle_perm rng indices, .rfl⟩

section Counts

variable {len size : Nat} {chosen : List Nat}

theorem length_full (len q : Nat) : (List.replicate q (List.range len)).flatten.length = q * len := by
  simp

theorem count_full {i : Nat} (hi : i < len) (q : Nat) : (List.replicate q (List.range len)).flatten.count i = q := by
  induction q with
  | zero => rfl
  | succ q ih =>
    rw [List.replicate_succ, List.flatten_cons, List.count_append, ih,
      List.count_eq_one_of_mem List.nodup_range (List.mem_range.mpr hi), Nat.add_comm]

theorem count_chosen (hnodup : chosen.Nodup) (i : Nat) : chosen.count i = if i ∈ chosen then 1 else 0 := by
  split
  · next h => exact List.count_eq_one_of_mem hnodup h
  · next h => exact List.count_eq_zero_of_not_mem h

theorem length_filter_mem (hnodup : chosen.Nodup) (hlt : ∀ i ∈ chosen, i < len) :
    ((List.range len).filter fun i => i ∈ chosen).length = chosen.length := by
  refine List.Perm.length_eq ((List.perm_ext_iff_of_nodup (List.nodup_range.filter _) hnodup).mpr fun i => ?_)
  rw [List.mem_filter, List.mem_range, decide_eq_true_eq]
  exact ⟨And.right, fun h => ⟨hlt i h, h⟩⟩

theorem balanced_full (hnodup : chosen.Nodup) (hlt : ∀ i ∈ chosen, i < len) (hlength : chosen.length = size % len)
    {drawn : List Nat} (hperm : drawn.Perm ((List.replicate (size / len) (List.range len)).flatten ++ chosen)) :
    Balanced len size drawn := by
  have hcount : ∀ i < len, drawn.count i = size / len + if i ∈ chosen then 1 else 0 := by
    intro i hi
    rw [hperm.count_eq, List.count_append, count_full hi, count_chosen hnodup]
  refine ⟨fun i hi => ?_, fun i hi => ?_, ?_⟩
  · rcases List.mem_append.mp (hperm.mem_iff.mp hi) with hi | hi
    · obtain ⟨l, hl, hi⟩ := List.mem_flatten.mp hi
      rw [List.eq_of_mem_replicate hl] at hi
      exact List.mem_range.mp hi
    · exact hlt i hi
  · rw [hcount i hi]
    split
    · exact .inr rfl
    · exact .inl rfl
  · rw [← hlength, ← length_filter_mem hnodup hlt]
    refine congrArg List.length (List.filter_congr fun i hi => ?_)
    rw [hcount i (List.mem_range.mp hi)]
    split <;> simp [*]

end Counts

theorem refill_ok {len size : Nat} (hlen : 0 < len) (rng : SamplerRng R S) :
    ∃ indices rng', refill parts rng size len = .ok (indices, rng') ∧ indices.length = size ∧ Balanced len size indices ∧
      (Own rng' ↔ Own rng) := by
  have hrest : size - size / len * len = size % len := by
    have := Nat.div_add_mod' size len
    omega
  obtain ⟨hnodup, hlt, hlength, hown⟩ := @sample_spec R S T I parts rng len (size % len)
  rw [min_eq_left (Nat.mod_lt size hlen).le] at hlength
  obtain ⟨hperm, hown'⟩ := @shuffle_spec R S T I parts (sample parts rng len (size % len)).2
    ((List.replicate (size / len) (List.range len)).flatten ++ (sample parts rng len (size % len)).1)
  refine ⟨_, _, ?_, ?_, balanced_full hnodup hlt hlength hperm, hown'.trans hown⟩
  · rw [refill, if_neg hlen.ne']
    dsimp only
    rw [length_full, hrest]
    rfl
  · rw [hperm.length_eq, List.length_append, length_full, hlength]
    exact Nat.div_add_mod' size len

-- Draws

theorem emit_add {α σ ε : Type} (f : σ → Res ε (α × σ)) (m n : Nat) (s : σ) :
    emit f (m + n) s = emit f m s >>= fun r => emit f n r.2 >>= fun rs => .ok (r.1 ++ rs.1, rs.2) := by
  induction m generalizing s with
  | zero =>
    rw [Nat.zero_add]
    change _ = emit f n s >>= fun rs => .ok ([] ++ rs.1, rs.2)
    cases emit f n s <;> rfl
  | succ m ih =>
    rw [Nat.succ_add, emit, emit]
    cases f s with
    | error e => rfl
    | ok r =>
      rw [ok_bind, ok_bind, ih]
      cases emit f m r.2 with
      | error e => rfl
      | ok rs =>
        rw [ok_bind, ok_bind, ok_bind]
        cases emit f n rs.2 <;> rfl

variable {size : Nat} {rng rng' : SamplerRng R S} {indices : List Nat} {t : T}

theorem draw_append (size : Nat) (rng : SamplerRng R S) (indices : List Nat) (i : Nat) (t : T) :
    draw parts ⟨size, .withoutReplacement rng (indices ++ [i]), t⟩ =
      .ok ((i, (parts.dataset.get t i).1), ⟨size, .withoutReplacement rng indices, (parts.dataset.get t i).2⟩) := by
  have havail : available parts rng (indices ++ [i]) size parts.dataset.len = .ok (indices ++ [i], rng) := if_neg (by simp)
  simp only [draw, index, havail, ok_bind, List.getLast?_concat, List.dropLast_concat, pure_bind']
  rfl

theorem draw_nil (hrefill : refill parts rng size parts.dataset.len = .ok (indices, rng')) (hne : indices ≠ []) :
    draw parts ⟨size, .withoutReplacement rng [], t⟩ = draw parts ⟨size, .withoutReplacement rng' indices, t⟩ := by
  have hempty : available parts rng [] size parts.dataset.len = .ok (indices, rng') := hrefill
  have hfull : available parts rng' indices size parts.dataset.len = .ok (indices, rng') := if_neg hne
  simp only [draw, index, hempty, hfull, ok_bind]

theorem emit_draw (indices : List Nat) (t : T) :
    ∃ window t', emit (draw parts) indices.length ⟨size, .withoutReplacement rng indices, t⟩ =
      .ok (window, ⟨size, .withoutReplacement rng [], t'⟩) ∧ window.map Prod.fst = indices.reverse := by
  induction indices using List.reverseRecOn generalizing t with
  | nil => exact ⟨[], t, rfl, rfl⟩
  | append_singleton indices i ih =>
    obtain ⟨window, t', hwindow, hmap⟩ := ih (parts.dataset.get t i).2
    refine ⟨(i, (parts.dataset.get t i).1) :: window, t', ?_, ?_⟩
    · rw [List.length_append, List.length_singleton, emit, draw_append, ok_bind, hwindow]
      rfl
    · rw [List.map_cons, hmap, List.reverse_append]
      rfl

theorem emit_window (hlen : 0 < parts.dataset.len) (hsize : 0 < size) (rng : SamplerRng R S) (t : T) :
    ∃ window rng' t', emit (draw parts) size ⟨size, .withoutReplacement rng [], t⟩ =
      .ok (window, ⟨size, .withoutReplacement rng' [], t'⟩) ∧ Balanced parts.dataset.len size (window.map Prod.fst) := by
  obtain ⟨indices, rng', hrefill, hlength, hbalanced, -⟩ := @refill_ok R S T I parts _ size hlen rng
  obtain ⟨window, t', hwindow, hmap⟩ := @emit_draw R S T I parts size rng' indices t
  have hne : indices ≠ [] := fun hnil => by rw [hnil] at hlength; exact hsize.ne hlength
  refine ⟨window, rng', t', ?_, ?_⟩
  · obtain ⟨n, hn⟩ := Nat.exists_eq_succ_of_ne_zero hsize.ne'
    rw [hlength, hn, emit] at hwindow
    rw [hn, emit, ← hn, draw_nil hrefill hne]
    rwa [← hn] at hwindow
  · rw [hmap]
    exact ⟨fun i hi => hbalanced.inside i (List.mem_reverse.mp hi), fun i hi => by rw [List.count_reverse]; exact hbalanced.count i hi,
      by simp only [List.count_reverse]; exact hbalanced.larger⟩

theorem emit_windows (hlen : 0 < parts.dataset.len) (hsize : 0 < size) (rng : SamplerRng R S) (t : T) (k : Nat) :
    ∃ drawn rng' t', emit (draw parts) (k * size) ⟨size, .withoutReplacement rng [], t⟩ =
      .ok (drawn, ⟨size, .withoutReplacement rng' [], t'⟩) := by
  induction k with
  | zero =>
    rw [Nat.zero_mul]
    exact ⟨[], rng, t, rfl⟩
  | succ k ih =>
    obtain ⟨drawn, rng₁, t₁, hdrawn⟩ := ih
    obtain ⟨window, rng₂, t₂, hwindow, -⟩ := emit_window hlen hsize rng₁ t₁
    rw [Nat.succ_mul, emit_add, hdrawn, ok_bind, hwindow]
    exact ⟨_, rng₂, t₂, rfl⟩

-- Continuation

/-- Any point between two draws. -/
structure Point (parts : SamplerParts R S T I) (size : Nat) (s : SamplerDataset R S T) : Prop where
  size_eq : s.size = size
  state : ∃ rng indices, s.state = .withoutReplacement rng indices ∧ Own rng ∧ indices.length ≤ size ∧
    ∀ i ∈ indices, i < parts.dataset.len

theorem Point.draw (hlen : 0 < parts.dataset.len) (hsize : 0 < size) {s : SamplerDataset R S T} (h : Point parts size s) :
    ∃ drawn s', SamplerDataset.draw parts s = .ok (drawn, s') ∧ Point parts size s' := by
  obtain ⟨n, state, t⟩ := s
  obtain ⟨rfl, rng, indices, rfl, hown, hlength, hlt⟩ := h
  have hfull : ∀ (rng : SamplerRng R S) (indices : List Nat), Own rng → indices.length ≤ n → indices ≠ [] →
      (∀ i ∈ indices, i < parts.dataset.len) →
      ∃ drawn s', SamplerDataset.draw parts ⟨n, .withoutReplacement rng indices, t⟩ = .ok (drawn, s') ∧ Point parts n s' := by
    intro rng indices hown hlength hne hlt
    obtain ⟨indices, i, rfl⟩ := (List.eq_nil_or_concat indices).resolve_left hne
    rw [List.concat_eq_append] at hlength hlt ⊢
    refine ⟨_, _, draw_append n rng indices i t, rfl, rng, indices, rfl, hown, ?_, fun j hj => hlt j (List.mem_append_left _ hj)⟩
    rw [List.length_append] at hlength
    exact le_trans (Nat.le_add_right _ _) hlength
  by_cases hnil : indices = []
  · subst hnil
    obtain ⟨indices, rng', hrefill, hlength', hbalanced, hown'⟩ := @refill_ok R S T I parts _ n hlen rng
    have hne : indices ≠ [] := fun hnil => by rw [hnil] at hlength'; exact hsize.ne hlength'
    rw [draw_nil hrefill hne]
    exact hfull rng' indices (hown'.mpr hown) hlength'.le hne hbalanced.inside
  · exact hfull rng indices hown hlength hnil hlt

theorem Point.emit (hlen : 0 < parts.dataset.len) (hsize : 0 < size) {s : SamplerDataset R S T} (h : Point parts size s) (m : Nat) :
    ∃ drawn s', Ruda.emit (SamplerDataset.draw parts) m s = .ok (drawn, s') ∧ Point parts size s' := by
  induction m generalizing s with
  | zero => exact ⟨[], s, rfl, h⟩
  | succ m ih =>
    obtain ⟨d, s₁, hd, h₁⟩ := h.draw hlen hsize
    obtain ⟨ds, s₂, hds, h₂⟩ := ih h₁
    refine ⟨d :: ds, s₂, ?_, h₂⟩
    rw [Ruda.emit, hd, ok_bind, hds]
    rfl

theorem restoreRng_serializeState (parts : SamplerParts R S T I) (rng : R) :
    restoreRng parts (parts.chacha.serializeState rng) = .ok (.checkpoint rng) := by
  rw [restoreRng, if_neg, parts.chacha.deserialize_serialize]
  rw [not_or, not_not, not_not]
  exact ⟨parts.chacha.serialize_length rng, parts.chacha.serialize_last rng⟩

theorem Point.restore {s : SamplerDataset R S T} (h : Point parts size s) (hcontinues : Continues parts.dataset) :
    ∃ record, checkpoint parts s = .ok record ∧ ∀ other : SamplerDataset R S T, other.size = size →
      other.isWithReplacement = false → restoreCheckpoint parts other record = .ok s := by
  obtain ⟨n, state, t⟩ := s
  obtain ⟨rfl, rng, indices, rfl, hown, hlength, hlt⟩ := h
  cases rng with
  | supplied rng => exact hown.elim
  | checkpoint rng =>
    obtain ⟨source, hsource⟩ := hcontinues.checkpoint t
    refine ⟨parts.codec.toVec ⟨1, n, parts.dataset.len, false, parts.chacha.serializeState rng, indices, source⟩, ?_, ?_⟩
    · rw [checkpoint]
      change (parts.dataset.checkpoint t >>= fun source => _) = _
      rw [hsource]
      rfl
    · intro other hother hmode
      have hchecks : ¬((1 : Nat) ≠ 1 ∨ n ≠ other.size ∨ parts.dataset.len ≠ parts.dataset.len ∨ false ≠ other.isWithReplacement ∨
          indices.length > other.size ∨ other.isWithReplacement = true ∧ indices ≠ [] ∨
          indices.any (fun index => index ≥ parts.dataset.len) = true) := by
        rw [hother, hmode]
        simpa [hlength] using hlt
      have hrng := restoreRng_serializeState parts rng
      have hdataset := hcontinues.restore t other.dataset source hsource
      rw [restoreCheckpoint, parts.codec.fromSlice_toVec]
      change (if _ then _ else _) = _
      rw [if_neg hchecks]
      change (restoreRng parts (parts.chacha.serializeState rng) >>= fun rng => _) = _
      rw [hrng]
      change (parts.dataset.restoreCheckpoint other.dataset source >>= fun dataset => _) = _
      rw [hdataset, hmode, hother]
      rfl

/-- Every aligned window of draws without replacement is balanced, and a sampler with a generator of its
own over a dataset that can be continued is continued by its checkpoint. -/
theorem draws_without_replacement (parts : SamplerParts R S T I) (hlen : 1 ≤ parts.dataset.len) (size : Nat) (hsize : 1 ≤ size)
    (rng : SamplerRng R S) (t : T) :
    (∀ k, ∃ drawn s window s', emit (draw parts) (k * size) (new size false rng t) = .ok (drawn, s) ∧
      emit (draw parts) size s = .ok (window, s') ∧ Balanced parts.dataset.len size (window.map Prod.fst)) ∧
    (Own rng → Continues parts.dataset → ∀ m, ∃ drawn s record, emit (draw parts) m (new size false rng t) = .ok (drawn, s) ∧
      checkpoint parts s = .ok record ∧ ∀ other : SamplerDataset R S T, other.size = size → other.isWithReplacement = false →
        ∃ other', restoreCheckpoint parts other record = .ok other' ∧
          ∀ n, emit (draw parts) n other' = emit (draw parts) n s) := by
  constructor
  · intro k
    obtain ⟨drawn, rng', t', hdrawn⟩ := emit_windows hlen hsize rng t k
    obtain ⟨window, rng'', t'', hwindow, hbalanced⟩ := emit_window hlen hsize rng' t'
    exact ⟨drawn, _, window, _, hdrawn, hwindow, hbalanced⟩
  · intro hown hcontinues m
    have hnew : Point parts size (new size false rng t) := ⟨rfl, rng, [], rfl, hown, Nat.zero_le _, fun i hi => by cases hi⟩
    obtain ⟨drawn, s, hdrawn, hs⟩ := hnew.emit hlen hsize m
    obtain ⟨record, hrecord, hrestore⟩ := hs.restore hcontinues
    exact ⟨drawn, s, record, hdrawn, hrecord, fun other hother hmode => ⟨s, hrestore other hother hmode, fun _ => rfl⟩⟩

-- An externally supplied generator

/-- A generator that takes what comes first. -/
def firstRng : Rng Unit where
  uniform _ _ := (0, ())
  sample _ len amount := (List.range (min amount len), ())
  shuffle _ indices := (indices, ())
  uniform_lt _ _ h := h
  sample_nodup _ _ _ := List.nodup_range
  sample_lt _ _ _ _ hi := (List.mem_range.mp hi).trans_le (min_le_right _ _)
  sample_length _ _ _ := List.length_range
  shuffle_perm _ _ := .refl _

instance : Encodable UInt8 := .ofLeftInjection UInt8.toNat (some ∘ UInt8.ofNat) fun n => by simp

instance : Encodable SamplerCheckpoint :=
  .ofLeftInjection (fun c => (c.version, c.size, c.sourceLen, c.withReplacement, c.rng, c.remaining, c.source))
    (fun (a, b, c, d, e, f, g) => some ⟨a, b, c, d, e, f, g⟩) fun _ => rfl

/-- A checkpoint by its number. -/
def numberCodec : CheckpointCodec where
  toVec c := List.replicate (Encodable.encode c) 0
  fromSlice l :=
    match (Encodable.decode l.length : Option SamplerCheckpoint) with
    | some c => .ok c
    | none => .error "expected value"
  fromSlice_toVec c := by
    rw [List.length_replicate, Encodable.encodek]

def firstParts : SamplerParts Unit Unit Unit Nat where
  chacha := { firstRng with
    serializeState := fun _ => List.replicate 49 0
    deserializeState := fun _ => ()
    deserialize_serialize := fun _ => rfl
    serialize_length := fun _ => rfl
    serialize_last := fun _ => rfl }
  std := firstRng
  dataset := ⟨3, fun t i => (some i, t), fun _ => .ok [], fun _ _ => .ok ()⟩
  codec := numberCodec

theorem draws_without_replacement_first :
    (∀ k, ∃ drawn s window s', emit (draw firstParts) (k * 4) (new 4 false (.checkpoint ()) ()) = .ok (drawn, s) ∧
      emit (draw firstParts) 4 s = .ok (window, s') ∧ Balanced firstParts.dataset.len 4 (window.map Prod.fst)) ∧
    (Own (.checkpoint () : SamplerRng Unit Unit) → Continues firstParts.dataset → ∀ m, ∃ drawn s record,
      emit (draw firstParts) m (new 4 false (.checkpoint ()) ()) = .ok (drawn, s) ∧ checkpoint firstParts s = .ok record ∧
        ∀ other : SamplerDataset Unit Unit Unit, other.size = 4 → other.isWithReplacement = false →
          ∃ other', restoreCheckpoint firstParts other record = .ok other' ∧
            ∀ n, emit (draw firstParts) n other' = emit (draw firstParts) n s) :=
  draws_without_replacement firstParts (by decide) 4 (by decide) (.checkpoint ()) ()

/-- With an externally supplied generator there is no checkpoint to continue from. -/
theorem checkpoint_supplied :
    ∃ s : SamplerDataset Unit Unit Unit, s = new 4 false (.supplied ()) () ∧ 1 ≤ firstParts.dataset.len ∧
      ¬ ∃ record, checkpoint firstParts s = .ok record :=
  ⟨_, rfl, by decide, fun ⟨_, h⟩ => nomatch h⟩

end Ruda.Data.SamplerDataset
