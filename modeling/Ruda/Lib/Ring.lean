import Mathlib

/-!
# A value passed around a ring

Positions `0 .. n - 1` stand in a ring and each holds a value. A token starts at
one position and moves to the next in every step; the position it comes to combines
its own value with the one of the position before. `carried` is what a position ends
up with, `arrived` is what it holds after so many steps. Summing all values around a
ring and spreading one value over it are both of this kind.
-/

namespace Ruda.Ring

variable {M N : Type} {n p q start d t : Nat}

/-- The position before `p`. -/
def prev (n p : Nat) : Nat := if p = 0 then n - 1 else p - 1

/-- Steps from `start` to `p`. -/
def dist (n start p : Nat) : Nat := if start ≤ p then p - start else p + n - start

theorem prev_lt (hp : p < n) : prev n p < n := by
  unfold prev
  split <;> omega

theorem prev_eq (hp : p < n) : (p + n - 1) % n = prev n p := by
  unfold prev
  split
  · next h => rw [h, Nat.zero_add, Nat.mod_eq_of_lt (by omega)]
  · rw [show p + n - 1 = p - 1 + n by omega, Nat.add_mod_right, Nat.mod_eq_of_lt (by omega)]

theorem prev_next (hp : p < n) : prev n ((p + 1) % n) = p := by
  unfold prev
  by_cases hlast : p + 1 = n
  · rw [hlast, Nat.mod_self, if_pos rfl]
    omega
  · rw [Nat.mod_eq_of_lt (by omega), if_neg (Nat.succ_ne_zero p), Nat.add_sub_cancel]

theorem next_prev (hp : p < n) : (prev n p + 1) % n = p := by
  unfold prev
  split
  · next h => rw [h, Nat.sub_add_cancel (by omega), Nat.mod_self]
  · rw [Nat.sub_add_cancel (by omega), Nat.mod_eq_of_lt hp]

theorem dist_lt (hp : p < n) (hs : start < n) : dist n start p < n := by
  unfold dist
  split <;> omega

@[simp] theorem dist_self : dist n p p = 0 := by simp [dist]

theorem dist_eq_zero (hs : start < n) : dist n start p = 0 ↔ p = start := by
  unfold dist
  split <;> omega

theorem dist_prev (hp : p < n) (hs : start < n) (hne : p ≠ start) :
    dist n start p = dist n start (prev n p) + 1 := by
  unfold dist prev
  split <;> split <;> split <;> omega

theorem dist_prev_self (hp : p < n) : dist n p (prev n p) = n - 1 := by
  unfold dist prev
  split <;> split <;> omega

theorem dist_start_prev (hp : p < n) (hs : start < n) : dist n (prev n start) p = dist n start ((p + 1) % n) := by
  unfold prev
  by_cases hlast : p + 1 = n
  · rw [hlast, Nat.mod_self]
    unfold dist
    split <;> split <;> split <;> omega
  · rw [Nat.mod_eq_of_lt (by omega)]
    unfold dist
    split <;> split <;> split <;> omega

-- What a position ends up with

variable (n) (f : M → M → M) (x : Nat → M)

/-- The value at `p` combined with the `d` values before it, the furthest first. -/
def carried : (p d : Nat) → M
  | p, 0 => x p
  | p, d + 1 => f (x p) (carried (prev n p) d)

/-- What position `p` holds after `t` steps. -/
def arrived (start t p : Nat) : M := carried n f x p (if dist n start p ≤ t then dist n start p else 0)

variable {n f x}

theorem carried_rel {g : N → N → N} {y : Nat → N} {R : M → N → Prop} (hx : ∀ p < n, R (x p) (y p))
    (hop : ∀ a b a' b', R a b → R a' b' → R (f a a') (g b b')) (hp : p < n) (d : Nat) :
    R (carried n f x p d) (carried n g y p d) := by
  induction d generalizing p with
  | zero => exact hx p hp
  | succ d ih => exact hop _ _ _ _ (hx p hp) (ih (prev_lt hp))

theorem arrived_zero : arrived n f x start 0 p = x p := by
  unfold arrived
  split
  · next h =>
    rw [Nat.le_zero.mp h]
    rfl
  · rfl

theorem arrived_succ (hp : p < n) (hs : start < n) : arrived n f x start (t + 1) p =
    if dist n start p = t + 1 then f (arrived n f x start t p) (arrived n f x start t (prev n p))
    else arrived n f x start t p := by
  unfold arrived
  by_cases hat : dist n start p = t + 1
  · have hne : p ≠ start := by
      rintro rfl
      simp at hat
    have hprev := dist_prev hp hs hne
    rw [if_pos hat, if_pos hat.le, if_neg (by omega : ¬dist n start p ≤ t), hat,
      if_pos (by omega : dist n start (prev n p) ≤ t), show dist n start (prev n p) = t by omega]
    rfl
  · rw [if_neg hat]
    by_cases hle : dist n start p ≤ t
    · rw [if_pos hle, if_pos (by omega)]
    · rw [if_neg hle, if_neg (by omega)]

theorem arrived_rel {g : N → N → N} {y : Nat → N} {R : M → N → Prop} (hx : ∀ p < n, R (x p) (y p))
    (hop : ∀ a b a' b', R a b → R a' b' → R (f a a') (g b b')) (hp : p < n) :
    R (arrived n f x start t p) (arrived n g y start t p) := carried_rel hx hop hp _

theorem arrived_all (hp : p < n) (hs : start < n) :
    arrived n f x start (n - 1) p = carried n f x p (dist n start p) := by
  have := dist_lt hp hs
  rw [arrived, if_pos (by omega)]

theorem carried_last (hp : p < n) (hs : start < n) :
    carried n (fun _ b => b) x p (dist n start p) = x start := by
  induction hd : dist n start p generalizing p with
  | zero => rw [(dist_eq_zero hs).mp hd, carried]
  | succ d ih =>
    have hne : p ≠ start := by
      rintro rfl
      simp at hd
    exact ih (prev_lt hp) (by have := dist_prev hp hs hne; omega)

theorem carried_eq_sum {M : Type} [AddCommMonoid M] {x : Nat → M} (hp : p < n) (hd : d < n) :
    carried n (· + ·) x p d = ∑ q ∈ Finset.range n with dist n q p ≤ d, x q := by
  induction d generalizing p with
  | zero =>
    have hset : (Finset.range n).filter (fun q => dist n q p ≤ 0) = {p} := by
      ext q
      simp only [Finset.mem_filter, Finset.mem_range, Nat.le_zero, Finset.mem_singleton]
      constructor
      · rintro ⟨hq, h0⟩
        exact ((dist_eq_zero hq).mp h0).symm
      · rintro rfl
        exact ⟨hp, dist_self⟩
    rw [hset, Finset.sum_singleton, carried]
  | succ d ih =>
    have hset : (Finset.range n).filter (fun q => dist n q p ≤ d + 1) =
        insert p ((Finset.range n).filter fun q => dist n q (prev n p) ≤ d) := by
      ext q
      simp only [Finset.mem_filter, Finset.mem_range, Finset.mem_insert]
      by_cases hq : q = p
      · simp [hq, hp]
      · simp only [hq, false_or]
        refine and_congr_right fun hqn => ?_
        rw [dist_prev hp hqn (Ne.symm hq)]
        omega
    have hnot : p ∉ (Finset.range n).filter fun q => dist n q (prev n p) ≤ d := by
      rw [Finset.mem_filter, dist_prev_self hp]
      omega
    rw [hset, Finset.sum_insert hnot, carried, ih (prev_lt hp) (by omega)]

theorem carried_total {M : Type} [AddCommMonoid M] {x : Nat → M} (hp : p < n) :
    carried n (· + ·) x p (n - 1) = ∑ q ∈ Finset.range n, x q := by
  rw [carried_eq_sum hp (by omega)]
  refine Finset.sum_congr (Finset.filter_true_of_mem fun q hq => ?_) fun _ _ => rfl
  have := dist_lt hp (Finset.mem_range.mp hq)
  omega

-- Chunk indices

/-- Going back `t` positions from `p`. -/
def back (n p t : Nat) : Nat := if t ≤ p then p - t else p + n - t

theorem back_lt (hp : p < n) : back n p t < n := by
  unfold back
  split <;> omega

theorem back_eq (hp : p < n) (ht : t ≤ n) : (p + n - t) % n = back n p t := by
  unfold back
  split
  · rw [show p + n - t = p - t + n by omega, Nat.add_mod_right, Nat.mod_eq_of_lt (by omega)]
  · rw [Nat.mod_eq_of_lt (by omega)]

theorem prev_back (hp : p < n) (ht : t < n) : prev n (back n p t) = back n p (t + 1) := by
  unfold prev back
  split <;> split <;> split <;> omega

theorem back_prev (hp : p < n) (ht : t < n) : back n (prev n p) t = back n p (t + 1) := by
  unfold prev back
  split <;> split <;> split <;> omega

@[simp] theorem back_zero : back n p 0 = p := by simp [back]

theorem back_all (hp : p < n) : back n p (n - 1) = (p + 1) % n := by
  unfold back
  by_cases hlast : p + 1 = n
  · rw [hlast, Nat.mod_self, if_pos (by omega)]
    omega
  · rw [Nat.mod_eq_of_lt (by omega), if_neg (by omega)]
    omega

theorem back_mul (hp : p < n) (ht : t ≤ n) : (p + (n - 1) * t) % n = back n p t := by
  have hmul : (n - 1) * t + t = n * t := by
    obtain ⟨m, rfl⟩ : ∃ m, n = m + 1 := ⟨n - 1, by omega⟩
    rw [Nat.add_sub_cancel, Nat.succ_mul]
  have hsum : p + (n - 1) * t + n = p + n - t + n * t := by omega
  rw [← Nat.add_mod_right, hsum, Nat.add_mul_mod_self_left, back_eq hp ht]

theorem back_eq_iff (hs : start < n) (ht : t < n) : back n p t = start ↔ dist n start p = t := by
  unfold back dist
  split <;> split <;> omega

end Ruda.Ring
