import Mathlib

/-!
# The bits of a word

Loops over the set bits of a word, lowest bit first, and the number of these bits.
-/

namespace Ruda

theorem testBit_and_pred {n k : Nat} (hk : n.testBit k = true) (hlow : ∀ j < k, n.testBit j = false) (i : Nat) :
    (n.testBit i && (n - 1).testBit i) = (n.testBit i && i != k) := by
  induction k generalizing n i with
  | zero =>
    obtain ⟨m, rfl⟩ : ∃ m, n = 2 * m + 1 := ⟨n / 2, by rw [Nat.testBit_zero] at hk; simp at hk; omega⟩
    cases i with
    | zero => simp
    | succ i => simp [Nat.testBit_succ, show (2 * m + 1) / 2 = m by omega]
  | succ k ih =>
    have heven : n % 2 = 0 := by
      have h0 := hlow 0 (by omega)
      simpa [Nat.testBit_zero] using h0
    have hhalf := ih (n := n / 2) (by simpa [Nat.testBit_succ] using hk) fun j hj => by
      simpa [Nat.testBit_succ] using hlow (j + 1) (by omega)
    have hpos : n / 2 ≠ 0 := by
      intro h0
      rw [Nat.testBit_succ, h0] at hk
      simp at hk
    cases i with
    | zero => simp [Nat.testBit_zero, heven]
    | succ i =>
      have hpred : (n - 1) / 2 = n / 2 - 1 := by omega
      simpa [Nat.testBit_succ, hpred] using hhalf i


variable {w : Nat}

theorem getLsbD_and_pred {x : BitVec w} (hx : x ≠ 0#w) (i : Nat) :
    (x &&& (x - 1#w)).getLsbD i = (x.getLsbD i && i != x.ctz.toNat) := by
  have hpos : 1 ≤ x.toNat := Nat.one_le_iff_ne_zero.mpr fun h => hx (BitVec.eq_of_toNat_eq (by simpa using h))
  have hw : 0 < w := by
    rcases Nat.eq_zero_or_pos w with rfl | hw
    · exact absurd (BitVec.eq_nil x |>.trans (BitVec.eq_nil _).symm) hx
    · exact hw
  have hpred : (x - 1#w).toNat = x.toNat - 1 := by
    rw [BitVec.toNat_sub_of_le]
    · rw [BitVec.toNat_one hw]
    · rw [BitVec.le_def, BitVec.toNat_one hw]
      exact hpos
  rw [BitVec.getLsbD_and, BitVec.getLsbD, BitVec.getLsbD, hpred]
  exact testBit_and_pred (BitVec.getLsbD_true_ctz_of_ne_zero hx) (fun j hj => BitVec.getLsbD_false_of_lt_ctz hj) i

theorem and_pred_lt {x : BitVec w} (hx : x ≠ 0#w) : (x &&& (x - 1#w)).toNat < x.toNat := by
  have hle : (x &&& (x - 1#w)).toNat ≤ x.toNat := by
    rw [BitVec.toNat_and]
    exact Nat.and_le_left
  refine lt_of_le_of_ne hle fun heq => ?_
  have hsame : x &&& (x - 1#w) = x := BitVec.eq_of_toNat_eq heq
  have hbit := getLsbD_and_pred hx x.ctz.toNat
  rw [hsame, BitVec.getLsbD_true_ctz_of_ne_zero hx] at hbit
  simp at hbit

/-- The set bits: `trailing_zeros` gives the next one, `bits & (bits - 1)` clears it. -/
def ones (x : BitVec w) : List Nat :=
  if x = 0#w then [] else x.ctz.toNat :: ones (x &&& (x - 1#w))
termination_by x.toNat
decreasing_by exact and_pred_lt ‹_›

theorem mem_ones {x : BitVec w} {i : Nat} : i ∈ ones x ↔ x.getLsbD i = true := by
  induction x using ones.induct with
  | case1 => simp [ones]
  | case2 x hx ih =>
    rw [ones, if_neg hx, List.mem_cons, ih, getLsbD_and_pred hx]
    by_cases h : i = x.ctz.toNat
    · simp [h, BitVec.getLsbD_true_ctz_of_ne_zero hx]
    · simp [h]

theorem ones_sorted (x : BitVec w) : (ones x).Pairwise (· < ·) := by
  induction x using ones.induct with
  | case1 => simp [ones]
  | case2 x hx ih =>
    rw [ones, if_neg hx]
    refine List.pairwise_cons.mpr ⟨fun i hi => ?_, ih⟩
    rw [mem_ones, getLsbD_and_pred hx] at hi
    simp only [Bool.and_eq_true, bne_iff_ne, ne_eq] at hi
    -- below the lowest set bit there is none
    by_contra hle
    have hlow := BitVec.getLsbD_false_of_lt_ctz (x := x) (i := i) (by omega)
    simp [hlow] at hi

theorem ones_lt {x : BitVec w} {i : Nat} (hi : i ∈ ones x) : i < w := BitVec.lt_of_getLsbD (mem_ones.mp hi)

theorem cpopNatRec_eq_length (x : BitVec w) (n : Nat) :
    x.cpopNatRec n 0 = ((List.range n).filter x.getLsbD).length := by
  induction n with
  | zero => rfl
  | succ n ih =>
    rw [BitVec.cpopNatRec_succ, BitVec.cpopNatRec_eq, ih, List.range_succ, List.filter_append, List.length_append]
    cases h : x.getLsbD n <;> simp [h]

theorem ones_eq (x : BitVec w) : ones x = (List.range w).filter x.getLsbD := by
  have hsorted : ((List.range w).filter x.getLsbD).Pairwise (· < ·) := List.pairwise_lt_range.filter _
  refine List.Perm.eq_of_pairwise (fun a b _ _ h h' => absurd h (by omega)) (ones_sorted x) hsorted ?_
  refine (List.perm_ext_iff_of_nodup ((ones_sorted x).imp Nat.ne_of_lt) (hsorted.imp Nat.ne_of_lt)).mpr fun i => ?_
  rw [mem_ones, List.mem_filter, List.mem_range]
  exact ⟨fun h => ⟨BitVec.lt_of_getLsbD h, h⟩, fun h => h.2⟩

theorem length_ones (x : BitVec w) : (ones x).length = x.cpop.toNat := by
  rw [BitVec.toNat_cpop, cpopNatRec_eq_length, ones_eq]

end Ruda
