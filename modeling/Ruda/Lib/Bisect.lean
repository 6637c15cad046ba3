import Mathlib

/-!
# Binary search

The halving loop of a lower bound. On a test that holds of a first part of the range
only, it ends where the test stops holding. On any other test it ends at a given index
exactly when it is routed there: at every index that it looks at on the way, the test
holds just when that index is before the given one.
-/

namespace Ruda

variable {less : Nat → Bool} {fuel low high i : Nat}

/-- The index the loop over `low .. high` ends at. -/
def bisectFrom (less : Nat → Bool) : (fuel low high : Nat) → Nat
  | 0, low, _ => low
  | fuel + 1, low, high =>
    if low < high then
      if less (low + (high - low) / 2) then bisectFrom less fuel (low + (high - low) / 2 + 1) high
      else bisectFrom less fuel low (low + (high - low) / 2)
    else low

def bisect (less : Nat → Bool) (len : Nat) : Nat := bisectFrom less len 0 len

/-- The indices that the loop looks at when it is to end at `i`. -/
def probesFrom (i : Nat) : (fuel low high : Nat) → List Nat
  | 0, _, _ => []
  | fuel + 1, low, high =>
    if low < high then
      let mid := low + (high - low) / 2
      mid :: if mid < i then probesFrom i fuel (mid + 1) high else probesFrom i fuel low mid
    else []

def probes (len i : Nat) : List Nat := probesFrom i len 0 len

/-- Every index looked at on the way to `i` sends the loop the right way. -/
def Routed (less : Nat → Bool) (len i : Nat) : Prop := ∀ m ∈ probes len i, less m = true ↔ m < i

theorem bisectFrom_mem (h : low ≤ high) :
    low ≤ bisectFrom less fuel low high ∧ bisectFrom less fuel low high ≤ high := by
  induction fuel generalizing low high with
  | zero => exact ⟨le_rfl, h⟩
  | succ fuel ih =>
    unfold bisectFrom
    split
    · split
      · have := @ih (low + (high - low) / 2 + 1) high (by omega)
        omega
      · have := @ih low (low + (high - low) / 2) (by omega)
        omega
    · exact ⟨le_rfl, h⟩

theorem bisect_le {len : Nat} : bisect less len ≤ len := (bisectFrom_mem (Nat.zero_le _)).2

theorem probesFrom_mem {m : Nat} (h : m ∈ probesFrom i fuel low high) : low ≤ m ∧ m < high := by
  induction fuel generalizing low high with
  | zero => cases h
  | succ fuel ih =>
    unfold probesFrom at h
    split at h
    · rcases List.mem_cons.mp h with rfl | h
      · omega
      · split at h
        · have := ih h
          omega
        · have := ih h
          omega
    · cases h

theorem bisectFrom_eq_iff (hfuel : high - low ≤ fuel) (hlow : low ≤ i) (hhigh : i ≤ high) :
    bisectFrom less fuel low high = i ↔ ∀ m ∈ probesFrom i fuel low high, less m = true ↔ m < i := by
  induction fuel generalizing low high with
  | zero =>
    obtain rfl : low = i := by omega
    exact ⟨fun _ _ h => (nomatch h), fun _ => rfl⟩
  | succ fuel ih =>
    unfold bisectFrom probesFrom
    by_cases hlt : low < high
    · rw [if_pos hlt, if_pos hlt]
      simp only [List.forall_mem_cons]
      by_cases hmid : low + (high - low) / 2 < i
      · rw [if_pos hmid]
        by_cases hless : less (low + (high - low) / 2) = true
        · rw [if_pos hless, ih (by omega) (by omega) hhigh]
          exact ⟨fun h => ⟨⟨fun _ => hmid, fun _ => hless⟩, h⟩, And.right⟩
        · rw [if_neg hless]
          -- the loop goes left of the index and cannot come back
          have hle := (@bisectFrom_mem less fuel low (low + (high - low) / 2) (by omega)).2
          exact ⟨fun h => absurd h (by omega), fun h => absurd (h.1.mpr hmid) hless⟩
      · rw [if_neg hmid]
        by_cases hless : less (low + (high - low) / 2) = true
        · rw [if_pos hless]
          have hge := (@bisectFrom_mem less fuel (low + (high - low) / 2 + 1) high (by omega)).1
          exact ⟨fun h => absurd h (by omega), fun h => absurd (h.1.mp hless) hmid⟩
        · rw [if_neg hless, ih (by omega) hlow (by omega)]
          exact ⟨fun h => ⟨⟨fun h => absurd h hless, fun h => absurd h hmid⟩, h⟩, And.right⟩
    · rw [if_neg hlt, if_neg hlt]
      exact ⟨fun _ _ h => (nomatch h), fun _ => by omega⟩

theorem bisect_eq_iff {len : Nat} (h : i ≤ len) : bisect less len = i ↔ Routed less len i :=
  bisectFrom_eq_iff (by omega) (Nat.zero_le i) h

theorem routed_of_split {len : Nat} (hbefore : ∀ m < i, less m = true) (hafter : ∀ m, i ≤ m → m < len → less m = false) :
    Routed less len i := by
  intro m hm
  have hlt := (probesFrom_mem hm).2
  constructor
  · intro hless
    by_contra hge
    rw [hafter m (by omega) hlt] at hless
    cases hless
  · exact hbefore m

section TakeWhile

variable {α : Type} {p : α → Bool} {l : List α}

theorem getElem_iff_lt_takeWhile (hmono : l.Pairwise fun x y => p y = true → p x = true) {k : Nat} (hk : k < l.length) :
    p l[k] = true ↔ k < (l.takeWhile p).length := by
  induction l generalizing k with
  | nil => cases hk
  | cons a l ih =>
    obtain ⟨ha, hl⟩ := List.pairwise_cons.mp hmono
    by_cases hp : p a = true
    · rw [List.takeWhile_cons_of_pos hp, List.length_cons]
      cases k with
      | zero => exact ⟨fun _ => Nat.succ_pos _, fun _ => hp⟩
      | succ k => exact (ih hl (Nat.lt_of_succ_lt_succ hk)).trans Nat.succ_lt_succ_iff.symm
    · rw [List.takeWhile_cons_of_neg hp]
      refine ⟨fun h => absurd ?_ hp, fun h => absurd h (Nat.not_lt_zero k)⟩
      cases k with
      | zero => exact h
      | succ k => exact ha _ (List.getElem_mem _) h

theorem bisect_takeWhile (d : α) (hmono : l.Pairwise fun x y => p y = true → p x = true) :
    bisect (fun k => p (l.getD k d)) l.length = (l.takeWhile p).length := by
  have hle : (l.takeWhile p).length ≤ l.length := (List.takeWhile_prefix p).length_le
  refine (bisect_eq_iff hle).mpr (routed_of_split (fun m hm => ?_) fun m hm hlt => ?_)
  · have hlt := lt_of_lt_of_le hm hle
    rw [List.getD_eq_getElem _ _ hlt]
    exact (getElem_iff_lt_takeWhile hmono hlt).mpr hm
  · rw [List.getD_eq_getElem _ _ hlt, Bool.eq_false_iff]
    exact fun hp => absurd ((getElem_iff_lt_takeWhile hmono hlt).mp hp) (not_lt.mpr hm)

end TakeWhile

end Ruda
