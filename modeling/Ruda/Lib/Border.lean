import Ruda.Lib.Fallible

/-!
# The longest beginning that is an ending

How much of a pattern a text ends with, and how it changes when the text gets one symbol
longer. A shorter beginning of the pattern ends the text exactly when it ends the longest
one, so a table of the pattern's own borders is enough to go from one text to the next.
-/

namespace Ruda

variable {α : Type} {p t : List α} {c : α} {m n bound : Nat}

/-- The first `n` symbols of `p` end `t`. -/
def Ends (p t : List α) (n : Nat) : Prop := n ≤ p.length ∧ p.take n <:+ t

/-- The longest beginning of `p` that ends `t`, of those up to `bound`. -/
structure Longest (p t : List α) (bound n : Nat) : Prop where
  le : n ≤ bound
  ends : Ends p t n
  max : ∀ m ≤ bound, Ends p t m → m ≤ n

theorem ends_zero (p t : List α) : Ends p t 0 := ⟨Nat.zero_le _, List.nil_suffix⟩

theorem ends_length : Ends p t p.length ↔ p <:+ t := by
  rw [Ends, List.take_length, and_iff_right le_rfl]

theorem take_succ_of (h : p[n]? = some c) : p.take (n + 1) = p.take n ++ [c] := by
  rw [List.take_add_one, h]
  rfl

theorem ends_append : Ends p (t ++ [c]) (n + 1) ↔ Ends p t n ∧ p[n]? = some c := by
  constructor
  · rintro ⟨hlen, hsuffix⟩
    have hget := List.getElem?_eq_getElem hlen
    rw [take_succ_of hget] at hsuffix
    rcases List.suffix_concat_iff.mp hsuffix with hnil | ⟨t', heq, ht'⟩
    · exact absurd hnil (List.append_ne_nil_of_right_ne_nil _ (List.cons_ne_nil _ _))
    · obtain ⟨hinit, hlast⟩ := List.append_inj' heq rfl
      refine ⟨⟨Nat.le_of_succ_le hlen, hinit ▸ ht'⟩, ?_⟩
      rw [hget, List.cons.inj hlast |>.1]
  · rintro ⟨⟨-, ht⟩, hget⟩
    have hlen : n < p.length := (List.getElem?_eq_some_iff.mp hget).1
    rw [Ends, take_succ_of hget]
    exact ⟨hlen, List.suffix_concat_iff.mpr (.inr ⟨_, rfl, ht⟩)⟩

theorem Ends.below (h : Ends p t n) (hm : m ≤ n) : Ends p t m ↔ Ends p (p.take n) m := by
  have hlen : (p.take m).length ≤ (p.take n).length := by
    rw [List.length_take, List.length_take]
    omega
  exact and_congr_right fun _ => ⟨fun hs => List.suffix_of_suffix_length_le hs h.2 hlen, fun hs => hs.trans h.2⟩

theorem longest_nil (p : List α) (bound : Nat) : Longest p [] bound 0 := by
  refine ⟨Nat.zero_le _, ends_zero p [], fun m _ hm => ?_⟩
  have hlen := hm.2.length_le
  rw [List.length_take, List.length_nil] at hlen
  have := hm.1
  omega

theorem Longest.border (h : Ends p t n) (hb : Longest p (p.take n) (n - 1) m) : Longest p t (n - 1) m :=
  ⟨hb.le, (h.below (by have := hb.le; omega)).mpr hb.ends, fun k hk hends => hb.max k hk ((h.below (by omega)).mp hends)⟩

theorem Longest.eq_length_iff (h : Longest p t p.length n) : n = p.length ↔ p <:+ t := by
  rw [← ends_length]
  exact ⟨fun hn => hn ▸ h.ends, fun hends => le_antisymm h.le (h.max _ le_rfl hends)⟩

theorem Longest.lower (h : Longest p t bound n) {lower : Nat} (hn : n ≤ lower) (hb : lower ≤ bound) : Longest p t lower n :=
  ⟨hn, h.ends, fun m hm => h.max m (hm.trans hb)⟩

-- One more symbol

/-- Nothing longer than `n` can be made longer by `c`. -/
def Extendable (p t : List α) (c : α) (bound n : Nat) : Prop := ∀ m ≤ bound, Ends p t m → p[m]? = some c → m ≤ n

theorem Longest.extendable (h : Longest p t bound n) : Extendable p t c bound n := fun m hm hends _ => h.max m hm hends

theorem Extendable.border (h : Extendable p t c bound n) (hends : Ends p t n) (hne : p[n]? ≠ some c)
    (hb : Longest p (p.take n) (n - 1) m) : Extendable p t c bound m := by
  intro k hk hkends hkc
  have hkn := h k hk hkends hkc
  have hlt : k ≠ n := fun heq => hne (heq ▸ hkc)
  exact (hb.border hends).max k (by omega) hkends

theorem Extendable.hit (h : Extendable p t c bound n) (hends : Ends p t n) (hn : n ≤ bound) (hc : p[n]? = some c) :
    Longest p (t ++ [c]) (bound + 1) (n + 1) := by
  refine ⟨Nat.succ_le_succ hn, ends_append.mpr ⟨hends, hc⟩, fun m hm hmends => ?_⟩
  cases m with
  | zero => exact Nat.zero_le _
  | succ m =>
    obtain ⟨hm', hmc⟩ := ends_append.mp hmends
    exact Nat.succ_le_succ (h m (Nat.le_of_succ_le_succ hm) hm' hmc)

theorem Extendable.miss (h : Extendable p t c bound 0) (hne : p[0]? ≠ some c) : Longest p (t ++ [c]) (bound + 1) 0 := by
  refine ⟨Nat.zero_le _, ends_zero _ _, fun m hm hmends => ?_⟩
  cases m with
  | zero => exact le_rfl
  | succ m =>
    obtain ⟨hm', hmc⟩ := ends_append.mp hmends
    obtain rfl := Nat.le_zero.mp (h m (Nat.le_of_succ_le_succ hm) hm' hmc)
    exact absurd hmc hne

end Ruda
