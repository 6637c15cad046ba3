import Ruda.Generation.Control

/-!
# Stop sequences are matched as suffixes

The prefix function is a table of longest borders, and the length kept for a pattern is
that of its longest proper beginning that ends the tokens pushed so far.
-/

namespace Ruda.Generation

variable {pattern t : List Int} {prefixes matched : List Nat} {token : Int} {bound length n fuel : Nat}

theorem at_eq {α : Type} {list : List α} {i : Nat} {a : α} (h : list[i]? = some a) : at_ list i = .ok a := by
  rw [at_, h]

/-- The entries below `size` are those of the longest borders. -/
structure Table (pattern : List Int) (prefixes : List Nat) (size : Nat) : Prop where
  length_eq : prefixes.length = pattern.length
  border : ∀ i < size, ∃ n, prefixes[i]? = some n ∧ Longest pattern (pattern.take (i + 1)) i n

-- One token

theorem fallBack_spec (htable : Table pattern prefixes bound) (hlen : bound < pattern.length)
    (hext : Extendable pattern t token bound length) (hends : Ends pattern t length) (hle : length ≤ bound)
    (hfuel : length ≤ fuel) : ∃ n ≤ bound, fallBack pattern prefixes token fuel length = .ok n ∧ Ends pattern t n ∧
      Extendable pattern t token bound n ∧ (n = 0 ∨ pattern[n]? = some token) := by
  induction fuel generalizing length with
  | zero =>
    obtain rfl := Nat.le_zero.mp hfuel
    exact ⟨0, Nat.zero_le _, rfl, hends, hext, .inl rfl⟩
  | succ fuel ih =>
    rw [fallBack]
    by_cases hzero : length = 0
    · rw [if_pos hzero]
      exact ⟨0, Nat.zero_le _, rfl, ends_zero _ _, hzero ▸ hext, .inl rfl⟩
    have hget := List.getElem?_eq_getElem (show length < pattern.length by omega)
    rw [if_neg hzero, at_eq hget, ok_bind]
    split
    · next hne =>
      obtain ⟨shorter, hshorter, hborder⟩ := htable.border (length - 1) (by omega)
      rw [Nat.sub_add_cancel (Nat.pos_of_ne_zero hzero)] at hborder
      rw [at_eq hshorter, ok_bind]
      have hnext : pattern[length]? ≠ some token := fun h => hne (Option.some.inj (hget.symm.trans h))
      have hle' := hborder.le
      exact ih (hext.border hends hnext hborder) ((hborder.border hends).ends) (by omega) (by omega)
    · next heq => exact ⟨length, hle, rfl, hends, hext, .inr (not_not.mp heq ▸ hget)⟩

theorem lengthen_spec (htable : Table pattern prefixes bound) (hlen : bound < pattern.length)
    (h : Longest pattern t bound length) :
    ∃ n, lengthen pattern prefixes token length = .ok n ∧ Longest pattern (t ++ [token]) (bound + 1) n := by
  obtain ⟨n, hn, hloop, hends, hext, hlast⟩ := fallBack_spec htable hlen h.extendable h.ends h.le le_rfl
  have hget := List.getElem?_eq_getElem (show n < pattern.length by omega)
  rw [lengthen, hloop, ok_bind, at_eq hget, ok_bind]
  by_cases hnext : pattern[n]? = some token
  · rw [if_pos (Option.some.inj (hget.symm.trans hnext))]
    exact ⟨n + 1, rfl, hext.hit hends hn hnext⟩
  · obtain rfl := hlast.resolve_right hnext
    rw [if_neg fun h => hnext (hget.trans (congrArg some h))]
    exact ⟨0, rfl, hext.miss hnext⟩

-- The prefix function

theorem Table.set (h : Table pattern prefixes bound) (hlen : bound < pattern.length)
    (hn : Longest pattern (pattern.take (bound + 1)) bound n) : Table pattern (prefixes.set bound n) (bound + 1) := by
  refine ⟨(List.length_set).trans h.length_eq, fun i hi => ?_⟩
  by_cases hib : i = bound
  · rw [hib, List.getElem?_set_self (h.length_eq ▸ hlen)]
    exact ⟨n, rfl, hn⟩
  · rw [List.getElem?_set_ne (Ne.symm hib)]
    exact h.border i (by omega)

theorem prefixOf_spec (pattern : List Int) : ∃ prefixes, prefixOf pattern = .ok prefixes ∧ Table pattern prefixes pattern.length := by
  -- after the first entry, which is zero, every pass adds one
  have hloop : ∀ count start prefixes, Table pattern prefixes start → 0 < start → start + count = pattern.length →
      ∃ prefixes', (List.range' start count).foldlM (fun prefixes index => do
        let length ← at_ prefixes (index - 1)
        let token ← at_ pattern index
        let length ← lengthen pattern prefixes token length
        .ok (prefixes.set index length)) prefixes = .ok prefixes' ∧ Table pattern prefixes' pattern.length := by
    intro count
    induction count with
    | zero =>
      intro start prefixes htable _ hend
      exact ⟨prefixes, rfl, hend ▸ htable⟩
    | succ count ih =>
      intro start prefixes htable hstart hend
      obtain ⟨n, hn, hborder⟩ := htable.border (start - 1) (by omega)
      rw [Nat.sub_add_cancel hstart] at hborder
      have hlt : start < pattern.length := by omega
      have hget := List.getElem?_eq_getElem hlt
      have hshort : Table pattern prefixes (start - 1) := ⟨htable.length_eq, fun i hi => htable.border i (by omega)⟩
      obtain ⟨n', hn', hlongest⟩ := @lengthen_spec _ _ _ pattern[start] _ _ hshort (by omega) hborder
      rw [← take_succ_of hget, Nat.sub_add_cancel hstart] at hlongest
      obtain ⟨prefixes', hrest, htable'⟩ := ih (start + 1) (prefixes.set start n') (htable.set (by omega) hlongest)
        (Nat.succ_pos _) (by omega)
      refine ⟨prefixes', ?_, htable'⟩
      rw [List.range'_succ, List.foldlM_cons, at_eq hn, ok_bind, at_eq hget, ok_bind, hn', ok_bind, ok_bind]
      exact hrest
  cases hlen : pattern.length with
  | zero =>
    refine ⟨[], ?_, hlen.symm, fun i hi => absurd hi (Nat.not_lt_zero i)⟩
    rw [prefixOf, hlen]
    rfl
  | succ len =>
    have hfirst : Table pattern (List.replicate pattern.length 0) 1 := by
      refine ⟨List.length_replicate, fun i hi => ⟨0, ?_, ?_⟩⟩
      · rw [List.getElem?_replicate, if_pos (by omega)]
      · obtain rfl := Nat.lt_one_iff.mp hi
        exact ⟨le_rfl, ends_zero _ _, fun m hm _ => hm⟩
    rw [← hlen]
    exact hloop (pattern.length - 1) 1 _ hfirst one_pos (by omega)

-- All patterns

/-- The pattern's table, and the length for the tokens pushed so far. -/
def Kept (t pattern : List Int) (prefixes : List Nat) (length : Nat) : Prop :=
  Table pattern prefixes pattern.length ∧ Longest pattern t (pattern.length - 1) length

def KeptAt (prefixes : List (List Nat)) (matched : List Nat) (t : List Int) (i : Nat) (pattern : List Int) : Prop :=
  ∃ table length, prefixes[i]? = some table ∧ matched[i]? = some length ∧ Kept t pattern table length

/-- The index of the first pattern that ends the tokens. -/
def naive (patterns : List (List Int)) (t : List Int) : Option Nat := patterns.findIdx? (·.isSuffixOf t)

namespace StopSequenceMatcher

/-- The matcher's state after the tokens `t`. -/
structure After (m : StopSequenceMatcher) (t : List Int) : Prop where
  nonempty : ∀ pattern ∈ m.patterns, pattern ≠ []
  kept : ∀ (i : Nat) pattern, m.patterns[i]? = some pattern → KeptAt m.prefixes m.matched t i pattern

theorem new_spec {patterns : List (List Int)} (hne : ∀ pattern ∈ patterns, pattern ≠ []) :
    ∃ m, new patterns = .ok m ∧ m.patterns = patterns ∧ m.After [] := by
  have hall : ∀ patterns : List (List Int), ∃ prefixes, patterns.mapM prefixOf = .ok prefixes ∧
      List.Forall₂ (fun pattern table => Table pattern table pattern.length) patterns prefixes := by
    intro patterns
    induction patterns with
    | nil => exact ⟨[], rfl, .nil⟩
    | cons pattern patterns ih =>
      obtain ⟨table, htable, hspec⟩ := prefixOf_spec pattern
      obtain ⟨prefixes, hprefixes, hrest⟩ := ih
      refine ⟨table :: prefixes, ?_, .cons hspec hrest⟩
      rw [List.mapM_cons, htable, ok_bind, hprefixes, ok_bind]
      rfl
  obtain ⟨prefixes, hprefixes, hspec⟩ := hall patterns
  refine ⟨⟨patterns, prefixes, List.replicate patterns.length 0⟩, by rw [new, hprefixes, ok_bind], rfl, hne, ?_⟩
  intro i pattern hi
  obtain ⟨hlt, hpattern⟩ := List.getElem?_eq_some_iff.mp hi
  have hlen := hspec.length_eq
  have htable := hspec.get hlt (hlen ▸ hlt)
  have hlt' : i < prefixes.length := hlen ▸ hlt
  refine ⟨prefixes[i], 0, List.getElem?_eq_getElem _, ?_, ?_, longest_nil _ _⟩
  · rw [List.getElem?_replicate, if_pos hlt]
  · rw [← hpattern]
    exact htable

theorem pushOne_spec {prefixes : List (List Nat)} {matched : List Nat} {first : Option Nat} {i : Nat}
    (hne : pattern ≠ []) (h : KeptAt prefixes matched t i pattern) :
    ∃ length, pushOne prefixes token (first, matched) (pattern, i) =
        .ok (if pattern.isSuffixOf (t ++ [token]) then first.or (some i) else first, matched.set i length) ∧
      KeptAt prefixes (matched.set i length) (t ++ [token]) i pattern := by
  obtain ⟨table, length, htable, hlength, hkept, hlongest⟩ := h
  have hpos : 0 < pattern.length := List.length_pos_iff.mpr hne
  have hi : i < matched.length := (List.getElem?_eq_some_iff.mp hlength).1
  have hshort : Table pattern table (pattern.length - 1) := ⟨hkept.length_eq, fun i hi => hkept.border i (by omega)⟩
  obtain ⟨n, hn, hnew⟩ := @lengthen_spec _ _ _ token _ _ hshort (by omega) hlongest
  rw [Nat.sub_add_cancel hpos] at hnew
  simp only [pushOne, at_eq htable, at_eq hlength, hn, ok_bind]
  by_cases hfull : n = pattern.length
  · obtain ⟨shorter, hshorter, hborder⟩ := hkept.border (n - 1) (by omega)
    rw [Nat.sub_add_cancel (hfull ▸ hpos)] at hborder
    have hsuffix := hnew.eq_length_iff.mp hfull
    rw [if_pos hfull, at_eq hshorter, ok_bind, if_pos (List.isSuffixOf_iff_suffix.mpr hsuffix)]
    refine ⟨shorter, rfl, table, shorter, htable, List.getElem?_set_self hi, hkept, ?_⟩
    exact hfull ▸ hborder.border hnew.ends
  · have hsuffix : ¬pattern <:+ t ++ [token] := fun h => hfull (hnew.eq_length_iff.mpr h)
    rw [if_neg hfull, if_neg fun h => hsuffix (List.isSuffixOf_iff_suffix.mp h)]
    refine ⟨n, rfl, table, n, htable, List.getElem?_set_self hi, hkept, ?_⟩
    exact hnew.lower (by have := hnew.le; omega) (Nat.sub_le _ _)

theorem fold_spec {prefixes : List (List Nat)} (rest : List (List Int)) (k : Nat) (first : Option Nat) (matched : List Nat)
    (hne : ∀ pattern ∈ rest, pattern ≠ [])
    (h : ∀ (i : Nat) pattern, rest[i]? = some pattern → KeptAt prefixes matched t (k + i) pattern) :
    ∃ matched', (rest.zipIdx k).foldlM (pushOne prefixes token) (first, matched) =
        .ok (first.or ((naive rest (t ++ [token])).map (· + k)), matched') ∧
      (∀ i < k, matched'[i]? = matched[i]?) ∧
      ∀ (i : Nat) pattern, rest[i]? = some pattern → KeptAt prefixes matched' (t ++ [token]) (k + i) pattern := by
  induction rest generalizing k first matched with
  | nil => exact ⟨matched, by simp [naive]; rfl, fun _ _ => rfl, fun i pattern hi => nomatch hi⟩
  | cons pattern rest ih =>
    obtain ⟨hpattern, hrest⟩ := List.forall_mem_cons.mp hne
    have hzero : KeptAt prefixes matched t k pattern := h 0 pattern rfl
    obtain ⟨length, hone, hkept⟩ := @pushOne_spec pattern t token prefixes matched first k hpattern hzero
    have hlater : ∀ (i : Nat) pattern', rest[i]? = some pattern' → KeptAt prefixes (matched.set k length) t (k + 1 + i) pattern' := by
      intro i pattern' hi
      obtain ⟨table, length', htable, hlength, hold⟩ := h (i + 1) pattern' hi
      rw [Nat.add_comm i 1, ← Nat.add_assoc] at htable hlength
      exact ⟨table, length', htable, (List.getElem?_set_ne (by omega)).trans hlength, hold⟩
    obtain ⟨matched', hfold, hbefore, hafter⟩ := ih (k + 1) _ (matched.set k length) hrest hlater
    refine ⟨matched', ?_, fun i hi => ?_, fun i pattern' hi => ?_⟩
    · rw [List.zipIdx_cons, List.foldlM_cons, hone, ok_bind, hfold]
      congr 2
      rw [naive, naive, List.findIdx?_cons]
      cases hsuffix : pattern.isSuffixOf (t ++ [token]) with
      | true => cases first <;> simp
      | false => cases first <;> simp [Function.comp_def, Nat.add_assoc, Nat.add_comm 1]
    · rw [hbefore i (by omega), List.getElem?_set_ne (by omega)]
    · cases i with
      | zero =>
        obtain rfl := Option.some.inj hi
        obtain ⟨table, length', htable, hlength, hnow⟩ := hkept
        exact ⟨table, length', htable, (hbefore k (Nat.lt_succ_self k)).trans hlength, hnow⟩
      | succ i =>
        rw [Nat.add_comm i 1, ← Nat.add_assoc]
        exact hafter i pattern' hi

theorem push_spec {m : StopSequenceMatcher} (h : m.After t) :
    ∃ m', m.push token = .ok (naive m.patterns (t ++ [token]), m') ∧ m'.patterns = m.patterns ∧ m'.After (t ++ [token]) := by
  obtain ⟨matched', hfold, -, hkept⟩ := @fold_spec t token m.prefixes m.patterns 0 none m.matched h.nonempty
    fun i pattern hi => (Nat.zero_add i).symm ▸ h.kept i pattern hi
  refine ⟨{ m with matched := matched' }, ?_, rfl, h.nonempty, fun i pattern hi => ?_⟩
  · rw [push, hfold]
    simp
  · have := hkept i pattern hi
    rwa [Nat.zero_add] at this

theorem pushAll_spec {m : StopSequenceMatcher} {tokens : List Int} (h : m.After t) :
    m.pushAll tokens = .ok ((tokens.inits.tail).map fun pushed => naive m.patterns (t ++ pushed)) := by
  induction tokens generalizing m t with
  | nil => rfl
  | cons token tokens ih =>
    obtain ⟨m', hpush, hpatterns, hafter⟩ := @push_spec _ token _ h
    rw [pushAll, hpush, ok_bind]
    simp only
    rw [ih hafter, ok_bind, hpatterns]
    cases tokens with
    | nil => simp
    | cons token' tokens => simp [Function.comp_def]

/-- A new matcher answers every push with the index of the first pattern that is a suffix of
the tokens pushed so far, and no index is out of range. -/
theorem matches_suffixes (patterns : List (List Int)) (hne : ∀ pattern ∈ patterns, pattern ≠ []) (tokens : List Int) :
    (do (← new patterns).pushAll tokens) = .ok (tokens.inits.tail.map (naive patterns)) := by
  obtain ⟨m, hnew, hpatterns, hafter⟩ := new_spec hne
  rw [hnew, ok_bind, pushAll_spec hafter, hpatterns]
  rfl

/-- `matches_suffixes`, on patterns that overlap themselves and each other. -/
theorem matches_suffixes_overlapping :
    (do (← new [[1, 2, 1], [2, 1], [1]]).pushAll [1, 2, 1, 2, 1]) =
      .ok ([1, 2, 1, 2, 1].inits.tail.map (naive [[1, 2, 1], [2, 1], [1]])) :=
  matches_suffixes [[1, 2, 1], [2, 1], [1]] (by decide) [1, 2, 1, 2, 1]

end StopSequenceMatcher

end Ruda.Generation
