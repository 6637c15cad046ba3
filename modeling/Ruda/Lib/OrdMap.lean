import Mathlib

/-!
# Ordered maps and sums over their values

`BTreeMap ν` is a `std::collections::BTreeMap` with an integer key: lookups,
updates and iteration in key order come from `Std.ExtTreeMap`. Added here is
the sum of a weight over the values, and how an update moves it. Reference
counts, page budgets and table sizes are all sums of this kind.
-/

namespace Ruda

abbrev BTreeMap (ν : Type) := Std.ExtTreeMap Nat ν compare

namespace BTreeMap

variable {ν : Type}

@[simp] theorem get_insert (m : BTreeMap ν) (k j : Nat) (v : ν) :
    (m.insert k v)[j]? = if j = k then some v else m[j]? := by
  rw [Std.ExtTreeMap.getElem?_insert]
  simp only [Nat.compare_eq_eq, eq_comm (a := k)]

@[simp] theorem get_erase (m : BTreeMap ν) (k j : Nat) :
    (m.erase k)[j]? = if j = k then none else m[j]? := by
  rw [Std.ExtTreeMap.getElem?_erase]
  simp only [Nat.compare_eq_eq, eq_comm (a := k)]

@[simp] theorem get_empty (j : Nat) : (∅ : BTreeMap ν)[j]? = none := by simp

theorem contains_iff (m : BTreeMap ν) (k : Nat) : m.contains k = true ↔ ∃ v, m[k]? = some v := by
  rw [Std.ExtTreeMap.contains_eq_isSome_getElem?, Option.isSome_iff_exists]

theorem contains_eq_false (m : BTreeMap ν) (k : Nat) : m.contains k = false ↔ m[k]? = none := by
  rw [Std.ExtTreeMap.contains_eq_isSome_getElem?]
  cases m[k]? <;> simp

theorem mem_toList (m : BTreeMap ν) (k : Nat) (v : ν) : (k, v) ∈ m.toList ↔ m[k]? = some v :=
  Std.ExtTreeMap.mem_toList_iff_getElem?_eq_some

theorem nodup_toList (m : BTreeMap ν) : m.toList.Nodup := by
  refine (Std.ExtTreeMap.distinct_keys_toList (t := m)).imp ?_
  rintro a b h rfl
  simp at h

theorem nodup_keys_toList (m : BTreeMap ν) : (m.toList.map Prod.fst).Nodup := by
  rw [Std.ExtTreeMap.map_fst_toList_eq_keys]
  exact Std.ExtTreeMap.nodup_keys

theorem toList_perm_erase {m : BTreeMap ν} {k : Nat} {v : ν} (h : m[k]? = some v) :
    m.toList.Perm ((k, v) :: (m.erase k).toList) := by
  refine (List.perm_ext_iff_of_nodup (nodup_toList m) ?_).mpr ?_
  · refine List.nodup_cons.mpr ⟨?_, nodup_toList _⟩
    simp
  · rintro ⟨j, w⟩
    rw [List.mem_cons, mem_toList, mem_toList, get_erase]
    by_cases hj : j = k
    · subst hj
      simp [h, eq_comm]
    · simp [hj]

theorem erase_of_get_none {m : BTreeMap ν} {k : Nat} (h : m[k]? = none) : m.erase k = m := by
  apply Std.ExtTreeMap.ext_getElem?
  intro j
  rw [get_erase]
  split
  · next hj => rw [hj, h]
  · rfl

theorem erase_insert {m : BTreeMap ν} {k : Nat} {v : ν} : (m.insert k v).erase k = m.erase k := by
  apply Std.ExtTreeMap.ext_getElem?
  intro j
  simp only [get_erase, get_insert]
  split <;> rfl

theorem insert_insert {m : BTreeMap ν} {k : Nat} {v w : ν} :
    (m.insert k v).insert k w = m.insert k w := by
  apply Std.ExtTreeMap.ext_getElem?
  intro j
  simp only [get_insert]
  split <;> rfl

theorem size_insert_new {m : BTreeMap ν} {k : Nat} {v : ν} (h : m[k]? = none) :
    (m.insert k v).size = m.size + 1 := by
  rw [Std.ExtTreeMap.size_insert, (contains_eq_false m k).mpr h]
  rfl

theorem size_insert_old {m : BTreeMap ν} {k : Nat} {v w : ν} (h : m[k]? = some w) :
    (m.insert k v).size = m.size := by
  rw [Std.ExtTreeMap.size_insert, if_pos ((contains_iff m k).mpr ⟨w, h⟩)]

theorem insert_get_self {m : BTreeMap ν} {k : Nat} {v : ν} (h : m[k]? = some v) :
    m.insert k v = m := by
  apply Std.ExtTreeMap.ext_getElem?
  intro j
  rw [get_insert]
  split
  · next hj => rw [hj, h]
  · rfl

theorem toList_perm_insert_new {m : BTreeMap ν} {k : Nat} {v : ν} (h : m[k]? = none) :
    (m.insert k v).toList.Perm ((k, v) :: m.toList) := by
  have hperm := toList_perm_erase (m := m.insert k v) (k := k) (v := v) (by simp)
  rwa [erase_insert, erase_of_get_none h] at hperm

theorem toList_perm_foldl_insert {entries : List (Nat × ν)} {m : BTreeMap ν} (hnodup : (entries.map Prod.fst).Nodup)
    (hnew : ∀ e ∈ entries, m[e.1]? = none) :
    (entries.foldl (fun m e => m.insert e.1 e.2) m).toList.Perm (m.toList ++ entries) := by
  induction entries generalizing m with
  | nil => simp
  | cons e entries ih =>
    obtain ⟨hfresh, hnodup⟩ := List.nodup_cons.mp hnodup
    have hnew' : ∀ e' ∈ entries, (m.insert e.1 e.2)[e'.1]? = none := by
      intro e' he'
      have hne : e'.1 ≠ e.1 := fun heq => hfresh (heq ▸ List.mem_map_of_mem he')
      rw [get_insert, if_neg hne]
      exact hnew e' (List.mem_cons_of_mem _ he')
    refine (ih hnodup hnew').trans ?_
    refine ((toList_perm_insert_new (hnew e List.mem_cons_self)).append_right _).trans ?_
    exact List.perm_middle.symm

-- Sums of a weight over the values

/-- The sum of `f` over the values of `m`. -/
def weight (f : ν → Nat) (m : BTreeMap ν) : Nat := (m.toList.map fun e => f e.2).sum

variable (f : ν → Nat) {m : BTreeMap ν} {k : Nat} {v : ν}

@[simp] theorem weight_empty : weight f (∅ : BTreeMap ν) = 0 := by
  have h : (∅ : BTreeMap ν).toList = [] := Std.ExtTreeMap.toList_eq_nil_iff.mpr rfl
  rw [weight, h]
  rfl

theorem weight_erase (h : m[k]? = some v) : weight f m = f v + weight f (m.erase k) := by
  rw [weight, ((toList_perm_erase h).map _).sum_eq]
  rfl

theorem weight_insert_new (h : m[k]? = none) : weight f (m.insert k v) = f v + weight f m := by
  have hk : (m.insert k v)[k]? = some v := by simp
  rw [weight_erase f hk, erase_insert, erase_of_get_none h]

theorem weight_insert_old {w : ν} (h : m[k]? = some w) :
    weight f (m.insert k v) + f w = weight f m + f v := by
  have hk : (m.insert k v)[k]? = some v := by simp
  rw [weight_erase f hk, erase_insert, weight_erase f h]
  omega

theorem le_weight (h : m[k]? = some v) : f v ≤ weight f m := by
  rw [weight_erase f h]
  omega

theorem add_le_weight {j : Nat} {w : ν} (hk : m[k]? = some v) (hj : m[j]? = some w) (hne : j ≠ k) :
    f v + f w ≤ weight f m := by
  rw [weight_erase f hk]
  have hj' : (m.erase k)[j]? = some w := by simpa [hne] using hj
  exact Nat.add_le_add_left (le_weight f hj') _

theorem weight_eq_zero : weight f m = 0 ↔ ∀ (k : Nat) v, m[k]? = some v → f v = 0 := by
  constructor
  · intro h k v hk
    have := le_weight f hk
    omega
  · intro h
    rw [weight, List.sum_eq_zero]
    intro n hn
    obtain ⟨⟨k, v⟩, hm, rfl⟩ := List.mem_map.mp hn
    exact h k v ((mem_toList m k v).mp hm)

theorem exists_of_weight_pos (h : 0 < weight f m) : ∃ (k : Nat) (v : ν), m[k]? = some v ∧ 0 < f v := by
  by_contra hno
  have h0 : weight f m = 0 := (weight_eq_zero f).mpr fun k v hk =>
    Nat.eq_zero_of_not_pos fun hp => hno ⟨k, v, hk, hp⟩
  omega

theorem weight_mono {g : ν → Nat} (h : ∀ (k : Nat) v, m[k]? = some v → f v ≤ g v) :
    weight f m ≤ weight g m := by
  apply List.sum_le_sum
  rintro ⟨k, v⟩ hm
  exact h k v ((mem_toList m k v).mp hm)

theorem weight_le_weight {μ : Type} {g : μ → Nat} {m' : BTreeMap μ}
    (h : ∀ (k : Nat) v, m[k]? = some v → ∃ w, m'[k]? = some w ∧ f v ≤ g w) :
    weight f m ≤ weight g m' := by
  induction hn : m.toList.length generalizing m m' with
  | zero => simp [weight, List.length_eq_zero_iff.mp hn]
  | succ n ih =>
    have hpos : 0 < m.toList.length := by omega
    obtain ⟨⟨k, v⟩, hk⟩ := List.exists_mem_of_length_pos hpos
    rw [mem_toList] at hk
    obtain ⟨w, hw, hle⟩ := h k v hk
    rw [weight_erase f hk, weight_erase g hw]
    refine Nat.add_le_add hle (ih (fun j v' hv' => ?_) ?_)
    · rw [get_erase] at hv' ⊢
      split at hv'
      · cases hv'
      · next hj => rw [if_neg hj]; exact h j v' hv'
    · have := (toList_perm_erase hk).length_eq
      simp only [List.length_cons] at this
      omega

theorem weight_le_size (h : ∀ v, f v ≤ 1) : weight f m ≤ m.size := by
  have hone : weight f m ≤ weight (fun _ => 1) m := weight_mono f fun _ v _ => h v
  simpa [weight] using hone

theorem weight_congr {f g : ν → Nat} {m : BTreeMap ν} (h : ∀ (k : Nat) v, m[k]? = some v → f v = g v) :
    weight f m = weight g m :=
  le_antisymm (weight_mono f fun k v hk => (h k v hk).le) (weight_mono g fun k v hk => (h k v hk).ge)

end BTreeMap
end Ruda
