import Ruda.Store.KeyRemapper

/-!
# When the renumbering merges tensors

The numbers after a text are replaced by their ranks among them. Two paths are merged just when
they first differ in the spelling of a number and nothing later tells them apart.
-/

namespace Ruda.Store

variable {τ : Type}

-- Ranks

section Rank

variable {S : Finset Nat} {m n : Nat}

theorem rank_strictMonoOn (S : Finset Nat) : StrictMonoOn (rank S) S := by
  intro m hm n _ hlt
  refine Finset.card_lt_card ((Finset.ssubset_iff_of_subset fun k hk => ?_).mpr ⟨m, ?_, ?_⟩)
  · obtain ⟨hk, hkm⟩ := Finset.mem_filter.mp hk
    exact Finset.mem_filter.mpr ⟨hk, hkm.trans hlt⟩
  · exact Finset.mem_filter.mpr ⟨hm, hlt⟩
  · exact fun hmm => lt_irrefl m (Finset.mem_filter.mp hmm).2

theorem image_rank (S : Finset Nat) : S.image (rank S) = Finset.range S.card := by
  have hcard : (S.image (rank S)).card = S.card := Finset.card_image_of_injOn (rank_strictMonoOn S).injOn
  refine Finset.eq_of_subset_of_card_le (fun r hr => ?_) (by rw [Finset.card_range, hcard])
  obtain ⟨n, hn, rfl⟩ := Finset.mem_image.mp hr
  refine Finset.mem_range.mpr (Finset.card_lt_card ((Finset.ssubset_iff_of_subset (Finset.filter_subset _ _)).mpr ⟨n, hn, ?_⟩))
  exact fun hmem => lt_irrefl n (Finset.mem_filter.mp hmem).2

theorem rank_le (S : Finset Nat) (n : Nat) : rank S n ≤ n := by
  have hsub : (S.filter fun m => m < n) ⊆ Finset.range n := fun m hm => Finset.mem_range.mpr (Finset.mem_filter.mp hm).2
  exact (Finset.card_le_card hsub).trans_eq (Finset.card_range n)

theorem rank_eq_self (h : ∀ m < n, m ∈ S) : rank S n = n := by
  have heq : (S.filter fun m => m < n) = Finset.range n := by
    ext m
    rw [Finset.mem_filter, Finset.mem_range]
    exact ⟨And.right, fun hlt => ⟨h m hlt, hlt⟩⟩
  rw [rank, heq, Finset.card_range]

end Rank

-- Components

section Components

variable {parts other : List Text} {path : Text} {i j : Nat}

theorem split_ne_nil (path : Text) : split path ≠ [] := List.splitOn_ne_nil '.' path

theorem dot_not_mem_split {part : Text} (h : part ∈ split path) : '.' ∉ part := by
  induction path generalizing part with
  | nil =>
    rw [split, List.splitOn_nil] at h
    rw [List.mem_singleton.mp h]
    exact List.not_mem_nil
  | cons c path ih =>
    rw [split, List.splitOn_cons_eq_if_modifyHead] at h
    split at h
    · rcases List.mem_cons.mp h with rfl | h
      · exact List.not_mem_nil
      · exact ih h
    · next hc =>
      obtain ⟨first, rest, hsplit⟩ := List.exists_cons_of_ne_nil (split_ne_nil path)
      rw [split] at hsplit
      rw [hsplit, List.modifyHead_cons] at h
      have hdot : ∀ p ∈ first :: rest, '.' ∉ p := fun p hp => ih (by rw [split, hsplit]; exact hp)
      rcases List.mem_cons.mp h with rfl | h
      · intro hmem
        rcases List.mem_cons.mp hmem with rfl | hmem
        · exact hc (beq_self_eq_true _)
        · exact hdot first List.mem_cons_self hmem
      · exact hdot part (List.mem_cons_of_mem _ h)

theorem join_split (path : Text) : join (split path) = path := List.intercalate_splitOn '.'

theorem split_join (hdot : ∀ part ∈ parts, '.' ∉ part) (hne : parts ≠ []) : split (join parts) = parts :=
  List.splitOn_intercalate '.' hdot hne

theorem split_before (hdot : ∀ part ∈ parts, '.' ∉ part) (hne : parts ≠ []) (hi : 0 < i) :
    split (before parts i) = parts.take i ++ [[]] := by
  have htake : parts.take i ≠ [] := by
    rw [Ne, List.take_eq_nil_iff, not_or]
    exact ⟨hi.ne', hne⟩
  rw [before, if_pos hi, split, List.splitOn_append_cons_self]
  exact congrArg (· ++ [[]]) (split_join (fun part hpart => hdot part (List.mem_of_mem_take hpart)) htake)

theorem before_inj (hparts : ∀ part ∈ parts, '.' ∉ part) (hother : ∀ part ∈ other, '.' ∉ part) (hne : parts ≠ []) (hne' : other ≠ [])
    (h : before parts i = before other j) : parts.take i = other.take j := by
  rcases Nat.eq_zero_or_pos i with rfl | hi
  · rcases Nat.eq_zero_or_pos j with rfl | hj
    · rfl
    · rw [before, if_neg (lt_irrefl 0), before, if_pos hj] at h
      simp at h
  · rcases Nat.eq_zero_or_pos j with rfl | hj
    · rw [before, if_pos hi, before, if_neg (lt_irrefl 0)] at h
      simp at h
    · have hsplit := congrArg split h
      rw [split_before hparts hne hi, split_before hother hne' hj] at hsplit
      exact List.append_cancel_right hsplit

theorem before_congr (h : parts.take i = other.take i) : before parts i = before other i := by
  rw [before, before, h]

theorem parseUsize_toDigits {n : Nat} (hn : n < 2 ^ 64) : parseUsize (Nat.toDigits 10 n) = some n := by
  have hdigit : ∀ c ∈ Nat.toDigits 10 n, c.isDigit := fun c hc => Nat.isDigit_of_mem_toDigits (by decide) (by decide) hc
  have hmag := Decimal.magnitude_toDigits n
  generalize Nat.toDigits 10 n = s at hdigit hmag
  unfold parseUsize
  split
  · exact absurd (hdigit '+' List.mem_cons_self) (by decide)
  · rw [hmag, Option.filter_some, if_pos (decide_eq_true hn)]

theorem parseUsize_lt {part : Text} {n : Nat} (h : parseUsize part = some n) : n < 2 ^ 64 :=
  of_decide_eq_true (Option.filter_eq_some_iff.mp h).2

theorem dot_not_mem_toDigits (n : Nat) : '.' ∉ Nat.toDigits 10 n := fun h =>
  absurd (Nat.isDigit_of_mem_toDigits (by decide) (by decide) h) (by decide)

end Components

-- The maps of indices

/-- The maps hold these numbers, each under what is before it. -/
def Collects (maps : IndexMaps) (events : List (Text × Nat)) : Prop :=
  ∀ key n, (∃ indices, maps[key]? = some indices ∧ indices.contains n = true) ↔ (key, n) ∈ events

theorem Collects.add {maps : IndexMaps} {events : List (Text × Nat)} (h : Collects maps events) (key : Text) (index : Nat) :
    Collects (maps.add key index) (events ++ [(key, index)]) := by
  intro key' n
  rw [IndexMaps.add, Std.ExtTreeMap.getElem?_insert, List.mem_append, List.mem_singleton, ← h key' n]
  by_cases hkey : key = key'
  · subst hkey
    rw [if_pos Std.ReflCmp.compare_self, Prod.mk.injEq]
    simp only [Option.some.injEq, exists_eq_left', true_and]
    have hold : (∃ indices, maps[key]? = some indices ∧ indices.contains n = true) ↔ (maps[key]?.getD ∅).contains n = true := by
      cases maps[key]? with
      | none => simp
      | some indices => simp
    rw [hold]
    split
    · next hcontains => exact ⟨.inl, fun h => h.elim id fun hn => hn ▸ hcontains⟩
    · rw [Std.ExtTreeMap.contains_insert]
      simp only [Bool.or_eq_true, beq_iff_eq, Nat.compare_eq_eq, eq_comm (a := index)]
      exact or_comm
  · rw [if_neg (by simpa using hkey)]
    exact ⟨.inl, fun h => h.elim id fun he => absurd (Prod.mk.inj he).1.symm hkey⟩

theorem Collects.collect {maps : IndexMaps} {events : List (Text × Nat)} (h : Collects maps events) (path : Text) :
    Collects (maps.collect path) (events ++ numbers path) := by
  unfold IndexMaps.collect numbers
  generalize (split path).zipIdx = l
  induction l generalizing maps events with
  | nil => simpa using h
  | cons e l ih =>
    obtain ⟨part, i⟩ := e
    rw [List.foldl_cons, List.filterMap_cons]
    dsimp only
    cases parseUsize part with
    | none => exact ih h
    | some n =>
      have hrest := ih (h.add (before (split path) i) n)
      rwa [List.append_assoc] at hrest

theorem collects_all (paths : List Text) :
    Collects (paths.foldl IndexMaps.collect (∅ : IndexMaps)) (paths.flatMap numbers) := by
  have hall : ∀ (maps : IndexMaps) (events : List (Text × Nat)), Collects maps events →
      Collects (paths.foldl IndexMaps.collect maps) (events ++ paths.flatMap numbers) := by
    intro maps events h
    induction paths generalizing maps events with
    | nil => simpa using h
    | cons path paths ih =>
      have hrest := ih _ _ (h.collect path)
      rwa [List.append_assoc, ← List.flatMap_cons] at hrest
  exact hall ∅ [] fun key n => by simp

theorem insert_sorted {l : List Nat} (hsorted : l.Pairwise (· < ·)) (k : Nat) (indices : BTreeMap Nat) (n : Nat) :
    ((l.zipIdx k).foldl (fun indices (oldIdx, newIdx) => indices.insert oldIdx newIdx) indices)[n]? =
      if n ∈ l then some (k + (l.filter fun m => m < n).length) else indices[n]? := by
  induction l generalizing k indices with
  | nil => simp
  | cons a l ih =>
    obtain ⟨ha, hl⟩ := List.pairwise_cons.mp hsorted
    rw [List.zipIdx_cons, List.foldl_cons, ih hl, BTreeMap.get_insert]
    by_cases hn : n ∈ l
    · rw [if_pos hn, if_pos (List.mem_cons_of_mem _ hn), List.filter_cons_of_pos (by simpa using ha n hn), List.length_cons]
      congr 1
      omega
    · rw [if_neg hn]
      by_cases hna : n = a
      · subst hna
        have hnone : (l.filter fun m => m < n) = [] := List.filter_eq_nil_iff.mpr fun m hm => by simpa using (ha m hm).le
        rw [if_pos rfl, if_pos List.mem_cons_self, List.filter_cons_of_neg (by simp), hnone]
        rfl
      · rw [if_neg hna, if_neg fun h => (List.mem_cons.mp h).elim hna hn]

theorem contiguous_get (indices : BTreeMap Nat) (n : Nat) :
    (contiguous indices)[n]? = if indices.contains n = true then some (rank indices.keys.toFinset n) else none := by
  have hperm := List.mergeSort_perm indices.keys fun a b => decide (a ≤ b)
  have hnodup : (indices.keys.mergeSort fun a b => a ≤ b).Nodup := hperm.nodup_iff.mpr Std.ExtTreeMap.nodup_keys
  have hsorted : (indices.keys.mergeSort fun a b => a ≤ b).Pairwise (· < ·) := by
    have hle : (indices.keys.mergeSort fun a b => a ≤ b).Pairwise (· ≤ ·) := by
      simpa using List.pairwise_mergeSort' (· ≤ ·) indices.keys
    exact hle.imp₂ (fun _ _ hle hne => lt_of_le_of_ne hle hne) hnodup
  rw [contiguous, insert_sorted hsorted, Nat.zero_add]
  have hmem : n ∈ indices.keys.mergeSort (fun a b => a ≤ b) ↔ indices.contains n = true := by
    rw [hperm.mem_iff, Std.ExtTreeMap.mem_keys, Std.ExtTreeMap.mem_iff_contains]
  by_cases hn : indices.contains n = true
  · have hset : ((indices.keys.mergeSort fun a b => a ≤ b).filter fun m => m < n).toFinset =
        indices.keys.toFinset.filter fun m => m < n := by
      rw [← List.toFinset_eq_of_perm _ _ hperm]
      ext m
      simp
    rw [if_pos (hmem.mpr hn), if_pos hn, rank, ← hset, List.toFinset_card_of_nodup (hnodup.filter _)]
  · rw [if_neg (mt hmem.mp hn), if_neg hn, ← Option.not_isSome_iff_eq_none, ← Std.ExtTreeMap.contains_eq_isSome_getElem?]
    exact hn

-- The new paths

def newPart (paths parts : List Text) (i : Nat) (part : Text) : Text :=
  match parseUsize part with
  | some n => Nat.toDigits 10 (rank (numbersAfter paths (before parts i)) n)
  | none => part

def newParts (paths parts : List Text) : List Text := parts.mapIdx (newPart paths parts)

def newPath (paths : List Text) (path : Text) : Text := join (newParts paths (split path))

section NewPath

variable {paths parts other : List Text} {path part key : Text} {i n : Nat}

theorem mem_numbers : (key, n) ∈ numbers path ↔
    ∃ (i : Nat) (part : Text), (split path)[i]? = some part ∧ parseUsize part = some n ∧ before (split path) i = key := by
  rw [numbers, List.mem_filterMap]
  constructor
  · rintro ⟨⟨part, i⟩, hmem, he⟩
    obtain ⟨m, hm, he⟩ := Option.map_eq_some_iff.mp he
    obtain ⟨rfl, rfl⟩ := Prod.mk.inj he
    exact ⟨i, part, List.mem_zipIdx_iff_getElem?.mp hmem, hm, rfl⟩
  · rintro ⟨i, part, hpart, hn, rfl⟩
    exact ⟨(part, i), List.mem_zipIdx_iff_getElem?.mpr hpart, Option.map_eq_some_iff.mpr ⟨n, hn, rfl⟩⟩

theorem mem_numbersAfter : n ∈ numbersAfter paths key ↔ (key, n) ∈ paths.flatMap numbers := by
  rw [numbersAfter, List.mem_toFinset, List.mem_map]
  constructor
  · rintro ⟨⟨key', n'⟩, hmem, rfl⟩
    obtain ⟨hmem, hkey⟩ := List.mem_filter.mp hmem
    rwa [← of_decide_eq_true hkey]
  · exact fun hmem => ⟨(key, n), List.mem_filter.mpr ⟨hmem, decide_eq_true rfl⟩, rfl⟩

theorem mem_numbersAfter_of (hpath : path ∈ paths) (hpart : (split path)[i]? = some part) (hn : parseUsize part = some n) :
    n ∈ numbersAfter paths (before (split path) i) :=
  mem_numbersAfter.mpr (List.mem_flatMap.mpr ⟨path, hpath, mem_numbers.mpr ⟨i, part, hpart, hn, rfl⟩⟩)

theorem remapPart_eq (hpath : path ∈ paths) (hpart : (split path)[i]? = some part) :
    remapPart ((paths.foldl IndexMaps.collect (∅ : IndexMaps)).map fun _ => contiguous) (split path) i part =
      newPart paths (split path) i part := by
  unfold remapPart newPart
  cases hn : parseUsize part with
  | none => rfl
  | some n =>
    have hmem := mem_numbersAfter_of hpath hpart hn
    obtain ⟨indices, hindices, hcontains⟩ := (collects_all paths _ n).mpr (mem_numbersAfter.mp hmem)
    have hkeys : indices.keys.toFinset = numbersAfter paths (before (split path) i) := by
      ext m
      rw [List.mem_toFinset, mem_numbersAfter, ← collects_all paths, Std.ExtTreeMap.mem_keys, Std.ExtTreeMap.mem_iff_contains]
      constructor
      · exact fun hm => ⟨indices, hindices, hm⟩
      · rintro ⟨indices', hindices', hm⟩
        rwa [Option.some.inj (hindices.symm.trans hindices')]
    simp only [Std.ExtTreeMap.getElem?_map, hindices, Option.map_some, contiguous_get, hcontains, if_true, hkeys]

theorem getElem?_newParts (paths parts : List Text) (i : Nat) :
    (newParts paths parts)[i]? = parts[i]?.map (newPart paths parts i) := List.getElem?_mapIdx

theorem remapAll_eq (hpath : path ∈ paths) :
    remapAllIndicesWithOriginalPrefix path ((paths.foldl IndexMaps.collect (∅ : IndexMaps)).map fun _ => contiguous) =
      newPath paths path := by
  refine congrArg join (List.ext_getElem? fun i => ?_)
  rw [getElem?_newParts, List.getElem?_mapIdx]
  cases hpart : (split path)[i]? with
  | none => rfl
  | some part => exact congrArg some (remapPart_eq hpath hpart)

theorem newPart_of_none (hpart : parseUsize part = none) : newPart paths parts i part = part := by
  rw [newPart, hpart]

theorem newPart_of_some (hpart : parseUsize part = some n) :
    newPart paths parts i part = Nat.toDigits 10 (rank (numbersAfter paths (before parts i)) n) := by
  rw [newPart, hpart]

theorem parseUsize_newPart (paths parts : List Text) (i : Nat) (part : Text) :
    parseUsize (newPart paths parts i part) = (parseUsize part).map (rank (numbersAfter paths (before parts i))) := by
  cases hn : parseUsize part with
  | none => rw [newPart_of_none hn, hn, Option.map_none]
  | some n =>
    rw [newPart_of_some hn, Option.map_some]
    exact parseUsize_toDigits (lt_of_le_of_lt (rank_le _ n) (parseUsize_lt hn))

theorem newPart_eq_iff {part' : Text} {j : Nat} :
    newPart paths parts i part = newPart paths other j part' ↔
      (parseUsize part = none ∧ part = part') ∨ ∃ m n, parseUsize part = some m ∧ parseUsize part' = some n ∧
        rank (numbersAfter paths (before parts i)) m = rank (numbersAfter paths (before other j)) n := by
  constructor
  · intro h
    have hparse := congrArg parseUsize h
    rw [parseUsize_newPart, parseUsize_newPart] at hparse
    cases hm : parseUsize part with
    | none =>
      rw [hm, Option.map_none] at hparse
      have hn := Option.map_eq_none_iff.mp hparse.symm
      rw [newPart_of_none hm, newPart_of_none hn] at h
      exact .inl ⟨rfl, h⟩
    | some m =>
      rw [hm, Option.map_some] at hparse
      obtain ⟨n, hn, hrank⟩ := Option.map_eq_some_iff.mp hparse.symm
      exact .inr ⟨m, n, rfl, hn, hrank.symm⟩
  · rintro (⟨hnone, rfl⟩ | ⟨m, n, hm, hn, hrank⟩)
    · rw [newPart_of_none hnone, newPart_of_none hnone]
    · rw [newPart_of_some hm, newPart_of_some hn, hrank]

theorem newParts_dot (hdot : ∀ part ∈ parts, '.' ∉ part) : ∀ part ∈ newParts paths parts, '.' ∉ part := by
  intro part hpart
  obtain ⟨i, hi, rfl⟩ := List.mem_mapIdx.mp hpart
  unfold newPart
  split
  · exact dot_not_mem_toDigits _
  · exact hdot _ (List.getElem_mem _)

theorem split_newPath (paths : List Text) (path : Text) : split (newPath paths path) = newParts paths (split path) :=
  split_join (newParts_dot fun _ => dot_not_mem_split) (by rw [newParts, Ne, List.mapIdx_eq_nil_iff]; exact split_ne_nil path)

theorem newParts_take (h : parts.take i = other.take i) : (newParts paths parts).take i = (newParts paths other).take i := by
  refine List.ext_getElem? fun j => ?_
  rw [List.getElem?_take, List.getElem?_take, getElem?_newParts, getElem?_newParts]
  split
  · next hj =>
    have hget := congrArg (fun l : List Text => l[j]?) h
    rw [List.getElem?_take_of_lt hj, List.getElem?_take_of_lt hj] at hget
    have htake : parts.take j = other.take j := by
      have hcut := congrArg (List.take j) h
      rwa [List.take_take, List.take_take, min_eq_left hj.le] at hcut
    rw [hget]
    cases other[j]? with
    | none => rfl
    | some part => exact congrArg some (by rw [newPart, newPart, before_congr htake])
  · rfl

theorem newPath_nil (paths : List Text) : newPath paths [] = [] := rfl

-- A second time

theorem mem_numbersAfter_new (hpath : path ∈ paths) (hpart : (split path)[i]? = some part) (hn : parseUsize part = some n) {m : Nat}
    (hm : m < rank (numbersAfter paths (before (split path) i)) n) :
    m ∈ numbersAfter (paths.map (newPath paths)) (before (newParts paths (split path)) i) := by
  have hrank : rank (numbersAfter paths (before (split path) i)) n ∈ Finset.range (numbersAfter paths (before (split path) i)).card := by
    rw [← image_rank]
    exact Finset.mem_image_of_mem _ (mem_numbersAfter_of hpath hpart hn)
  have hmem : m ∈ Finset.range (numbersAfter paths (before (split path) i)).card :=
    Finset.mem_range.mpr (hm.trans (Finset.mem_range.mp hrank))
  rw [← image_rank] at hmem
  obtain ⟨n₀, hn₀, rfl⟩ := Finset.mem_image.mp hmem
  obtain ⟨path₀, hpath₀, hnumbers⟩ := List.mem_flatMap.mp (mem_numbersAfter.mp hn₀)
  obtain ⟨j, part₀, hpart₀, hparse₀, hbefore⟩ := mem_numbers.mp hnumbers
  -- the other path agrees up to the same place
  have htake := before_inj (fun _ => dot_not_mem_split) (fun _ => dot_not_mem_split) (split_ne_nil _) (split_ne_nil _) hbefore
  have hj : j = i := by
    have hlen := congrArg List.length htake
    have hjlt := (List.getElem?_eq_some_iff.mp hpart₀).1
    have hilt := (List.getElem?_eq_some_iff.mp hpart).1
    rwa [List.length_take, List.length_take, min_eq_left hjlt.le, min_eq_left hilt.le] at hlen
  subst hj
  refine mem_numbersAfter.mpr (List.mem_flatMap.mpr ⟨newPath paths path₀, List.mem_map_of_mem hpath₀, mem_numbers.mpr ?_⟩)
  rw [split_newPath]
  refine ⟨j, newPart paths (split path₀) j part₀, ?_, ?_, before_congr (newParts_take htake)⟩
  · rw [getElem?_newParts, hpart₀, Option.map_some]
  · rw [parseUsize_newPart, hparse₀, Option.map_some, hbefore]

theorem newPath_newPath (hpath : path ∈ paths) : newPath (paths.map (newPath paths)) (newPath paths path) = newPath paths path := by
  rw [newPath, split_newPath]
  refine congrArg join (List.ext_getElem? fun i => ?_)
  rw [getElem?_newParts, getElem?_newParts]
  cases hpart : (split path)[i]? with
  | none => rfl
  | some part =>
    rw [Option.map_some, Option.map_some]
    refine congrArg some ?_
    have hparse := parseUsize_newPart paths (split path) i part
    cases hn : parseUsize part with
    | none =>
      rw [hn, Option.map_none] at hparse
      exact newPart_of_none hparse
    | some n =>
      rw [hn, Option.map_some] at hparse
      rw [newPart_of_some hparse, rank_eq_self fun m hm => mem_numbersAfter_new hpath hpart hn hm, newPart_of_some hn]

end NewPath

-- Paths that are merged

section Merge

variable {paths p q : List Text} {i k : Nat}

theorem samePlace_iff (hlen : p.length = q.length) :
    SamePlace paths p q i ↔ (newParts paths p)[i]? = (newParts paths q)[i]? := by
  rw [SamePlace, getElem?_newParts, getElem?_newParts]
  by_cases hi : i < p.length
  · rw [List.getElem?_eq_getElem hi, List.getElem?_eq_getElem (hlen ▸ hi), Option.map_some, Option.map_some, Option.bind_some,
      Option.bind_some, Option.some.injEq, Option.some.injEq, newPart_eq_iff]
  · rw [List.getElem?_eq_none (not_lt.mp hi), List.getElem?_eq_none (hlen ▸ not_lt.mp hi)]
    simp

theorem Respelled.newParts_eq (h : Respelled paths p q k) : newParts paths p = newParts paths q := by
  refine List.ext_getElem? fun i => (samePlace_iff h.length).mp ?_
  rcases Nat.lt_trichotomy i k with hi | rfl | hi
  · refine (samePlace_iff h.length).mpr ?_
    have htake := @newParts_take paths _ _ _ h.before
    have hget := congrArg (fun l : List Text => l[i]?) htake
    rwa [List.getElem?_take_of_lt hi, List.getElem?_take_of_lt hi] at hget
  · obtain ⟨n, hp, hq⟩ := h.number
    exact .inr ⟨n, n, hp, hq, by rw [before_congr h.before]⟩
  · exact h.after i hi

theorem exists_respelled {path path' : Text} (hpath : path ∈ paths) (hpath' : path' ∈ paths) (hne : path ≠ path')
    (h : newPath paths path = newPath paths path') : ∃ k, Respelled paths (split path) (split path') k := by
  have hparts : newParts paths (split path) = newParts paths (split path') := by
    rw [← split_newPath, ← split_newPath, h]
  have hlen : (split path).length = (split path').length := by
    have := congrArg List.length hparts
    rwa [newParts, newParts, List.length_mapIdx, List.length_mapIdx] at this
  have hdiffer : ∃ k : Nat, (split path)[k]? ≠ (split path')[k]? := by
    by_contra hall
    push Not at hall
    have hsplit := List.ext_getElem? hall
    exact hne (by rw [← join_split path, ← join_split path', hsplit])
  have hsame : ∀ i, SamePlace paths (split path) (split path') i := fun i => (samePlace_iff hlen).mpr (by rw [hparts])
  have hfirst : (split path).take (Nat.find hdiffer) = (split path').take (Nat.find hdiffer) := by
    refine List.ext_getElem? fun i => ?_
    rw [List.getElem?_take, List.getElem?_take]
    split
    · next hi => exact not_not.mp (Nat.find_min hdiffer hi)
    · rfl
  refine ⟨Nat.find hdiffer, hlen, hfirst, Nat.find_spec hdiffer, ?_, fun i _ => hsame i⟩
  rcases hsame (Nat.find hdiffer) with ⟨-, heq⟩ | ⟨m, n, hm, hn, hrank⟩
  · exact absurd heq (Nat.find_spec hdiffer)
  · obtain ⟨part, hpart, hparse⟩ := Option.bind_eq_some_iff.mp hm
    obtain ⟨part', hpart', hparse'⟩ := Option.bind_eq_some_iff.mp hn
    have hmem := mem_numbersAfter_of hpath hpart hparse
    have hmem' := mem_numbersAfter_of hpath' hpart' hparse'
    rw [← before_congr hfirst] at hmem' hrank
    obtain rfl := (rank_strictMonoOn _).injOn hmem hmem' hrank
    exact ⟨m, hm, hn⟩

theorem nodup_newPath_iff (hnodup : paths.Nodup) :
    (paths.map (newPath paths)).Nodup ↔
      ∀ path ∈ paths, ∀ path' ∈ paths, ∀ k, ¬ Respelled paths (split path) (split path') k := by
  rw [List.nodup_map_iff_inj_on hnodup]
  constructor
  · intro hinj path hpath path' hpath' k hrespelled
    have heq := hinj path hpath path' hpath' (congrArg join hrespelled.newParts_eq)
    exact hrespelled.differ (by rw [heq])
  · intro hnone path hpath path' hpath' heq
    by_contra hne
    obtain ⟨k, hk⟩ := exists_respelled hpath hpath' hne heq
    exact hnone path hpath path' hpath' k hk

end Merge

-- The snapshots

def renumber (paths : List Text) (s : TensorSnapshot τ) : TensorSnapshot τ :=
  { s with pathStack := if newPath paths s.fullPath ≠ s.fullPath then s.pathStack.map fun _ => split (newPath paths s.fullPath) else s.pathStack }

theorem fullPath_renumber (paths : List Text) (s : TensorSnapshot τ) : (renumber paths s).fullPath = newPath paths s.fullPath := by
  obtain ⟨stack, tensor⟩ := s
  cases stack with
  | none => exact (newPath_nil paths).symm
  | some stack =>
    unfold renumber
    split
    · exact join_split _
    · next heq => exact (not_not.mp heq).symm

theorem renumber_of_eq {paths : List Text} {s : TensorSnapshot τ} (h : newPath paths s.fullPath = s.fullPath) : renumber paths s = s := by
  rw [renumber, if_neg (not_not.mpr h)]

theorem mapIndicesContiguous_eq (tensors : List (TensorSnapshot τ)) :
    mapIndicesContiguous tensors =
      (tensors.map (renumber (tensors.map TensorSnapshot.fullPath)),
        tensors.map fun s => (newPath (tensors.map TensorSnapshot.fullPath) s.fullPath, s.fullPath)) := by
  unfold mapIndicesContiguous
  split
  · next hempty =>
    rw [List.isEmpty_iff.mp hempty]
    rfl
  · have hfold : tensors.foldl (fun maps s => maps.collect s.fullPath) (∅ : IndexMaps) =
        (tensors.map TensorSnapshot.fullPath).foldl IndexMaps.collect ∅ := by
      rw [List.foldl_map]
    have hstep : ∀ s ∈ tensors, remapSnapshot ((tensors.foldl (fun maps s => maps.collect s.fullPath) (∅ : IndexMaps)).map
        fun _ => contiguous) s = (renumber (tensors.map TensorSnapshot.fullPath) s,
          newPath (tensors.map TensorSnapshot.fullPath) s.fullPath, s.fullPath) := by
      intro s hs
      rw [hfold, remapSnapshot, remapAll_eq (List.mem_map_of_mem hs)]
      rfl
    dsimp only
    rw [List.map_congr_left hstep, List.unzip_eq_map, List.map_map, List.map_map]
    rfl

theorem fullPaths_eq (tensors : List (TensorSnapshot τ)) :
    (mapIndicesContiguous tensors).1.map TensorSnapshot.fullPath =
      (tensors.map TensorSnapshot.fullPath).map (newPath (tensors.map TensorSnapshot.fullPath)) := by
  rw [mapIndicesContiguous_eq, List.map_map, List.map_map]
  exact List.map_congr_left fun s _ => fullPath_renumber _ s

/-- The renumbering does what it is to do just when no two paths are spellings of each other. -/
theorem mapIndicesContiguous_renumbers_iff (tensors : List (TensorSnapshot τ)) (h : (tensors.map TensorSnapshot.fullPath).Nodup) :
    Renumbered tensors (mapIndicesContiguous tensors) ↔
      ∀ s ∈ tensors, ∀ s' ∈ tensors, ∀ k,
        ¬ Respelled (tensors.map TensorSnapshot.fullPath) (split s.fullPath) (split s'.fullPath) k := by
  have hpaths := fullPaths_eq tensors
  have hdistinct := nodup_newPath_iff h
  rw [List.forall_mem_map] at hdistinct
  simp only [List.forall_mem_map] at hdistinct
  rw [← hpaths] at hdistinct
  refine ⟨fun hall => hdistinct.mp hall.distinct, fun hnone => ?_⟩
  have hpairs : ∀ e ∈ (mapIndicesContiguous tensors).2,
      e.2 ∈ tensors.map TensorSnapshot.fullPath ∧ e.1 = newPath (tensors.map TensorSnapshot.fullPath) e.2 := by
    rw [mapIndicesContiguous_eq]
    intro e he
    obtain ⟨s, hs, rfl⟩ := List.mem_map.mp he
    exact ⟨List.mem_map_of_mem hs, rfl⟩
  refine ⟨?_, hdistinct.mpr hnone, ?_, fun key => ⟨rank _, rank_strictMonoOn _, image_rank _, ?_⟩, ?_, ?_⟩
  · rw [mapIndicesContiguous_eq, List.map_map]
    rfl
  · rw [hpaths, mapIndicesContiguous_eq, List.map_map, List.zip_map']
    rfl
  · intro e he i part n hpart hn hkey
    obtain ⟨-, hnew⟩ := hpairs e he
    rw [hnew, split_newPath, getElem?_newParts, hpart, Option.map_some, newPart_of_some hn, hkey]
  · intro e he
    obtain ⟨-, hnew⟩ := hpairs e he
    rw [hnew, split_newPath]
    refine ⟨by rw [newParts, List.length_mapIdx], fun i part hpart hn => ?_⟩
    rw [getElem?_newParts, hpart, Option.map_some, newPart_of_none hn]
  · rw [mapIndicesContiguous_eq (mapIndicesContiguous tensors).1, hpaths]
    rw [mapIndicesContiguous_eq, List.map_map]
    refine List.map_congr_left fun s hs => renumber_of_eq ?_
    rw [fullPath_renumber]
    exact newPath_newPath (List.mem_map_of_mem hs)

def weights : List (TensorSnapshot Nat) := [⟨some ["fc".toList, ['0'], ['w']], 0⟩, ⟨some ["fc".toList, ['2'], ['w']], 1⟩]

theorem mapIndicesContiguous_renumbers_iff_weights :
    Renumbered weights (mapIndicesContiguous weights) ↔
      ∀ s ∈ weights, ∀ s' ∈ weights, ∀ k,
        ¬ Respelled (weights.map TensorSnapshot.fullPath) (split s.fullPath) (split s'.fullPath) k :=
  mapIndicesContiguous_renumbers_iff weights (by decide)

/-- `fc.7.w` and `fc.07.w` both become `fc.0.w`. -/
def spellings : List (TensorSnapshot Nat) :=
  [⟨some ["fc".toList, ['7'], ['w']], 0⟩, ⟨some ["fc".toList, ['0', '7'], ['w']], 1⟩]

theorem not_renumbered_spellings :
    (spellings.map TensorSnapshot.fullPath).Nodup ∧ ¬ Renumbered spellings (mapIndicesContiguous spellings) := by
  have hnodup : (spellings.map TensorSnapshot.fullPath).Nodup := by decide
  refine ⟨hnodup, fun h => ?_⟩
  have hdistinct := h.distinct
  rw [fullPaths_eq, nodup_newPath_iff hnodup] at hdistinct
  refine hdistinct _ List.mem_cons_self _ (List.mem_cons_of_mem _ List.mem_cons_self) 1
    ⟨by decide, by decide, by decide, ⟨7, by decide, by decide⟩, fun i hi => .inl ?_⟩
  obtain ⟨j, rfl⟩ := Nat.exists_eq_add_of_lt hi
  cases j with
  | zero => exact ⟨by decide, by decide⟩
  | succ j =>
    rw [List.getElem?_eq_none (by change 3 ≤ _; omega), List.getElem?_eq_none (by change 3 ≤ _; omega)]
    exact ⟨rfl, rfl⟩

end Ruda.Store
