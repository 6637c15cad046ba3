import Ruda.Lib.Fallible

/-!
# Words

Fixed-width integers, signed in two's complement or unsigned, as integers in a range.
Wrapping takes the representative in the range; a checked operation panics outside of it.
-/

namespace Ruda

/-- A word type. Every one has at least one bit. -/
structure Word where
  signed : Bool
  bits : Nat
  bits_pos : 0 < bits
  deriving DecidableEq

namespace Word

variable {t u : Word} {v v' : Int}

def modulus (t : Word) : Int := 2 ^ t.bits

def min (t : Word) : Int := if t.signed then -(2 ^ (t.bits - 1)) else 0

def max (t : Word) : Int := t.min + t.modulus - 1

/-- `v` is a value of the type. -/
def Has (t : Word) (v : Int) : Prop := t.min ≤ v ∧ v ≤ t.max

instance : Decidable (t.Has v) := inferInstanceAs (Decidable (_ ∧ _))

def wrap (t : Word) (v : Int) : Int := t.min + (v - t.min) % t.modulus

def saturate (t : Word) (v : Int) : Int := Max.max t.min (Min.min v t.max)

/-- The result of an operation that panics on overflow. -/
def check (t : Word) (v : Int) : Res Empty Int := if t.Has v then .ok v else .error .panic

theorem modulus_pos (t : Word) : 0 < t.modulus := by
  unfold modulus
  positivity

theorem modulus_eq (t : Word) : t.modulus = 2 * 2 ^ (t.bits - 1) := by
  rw [modulus, ← pow_succ', Nat.sub_add_cancel t.bits_pos]

theorem min_nonpos (t : Word) : t.min ≤ 0 := by
  have : (0 : Int) < 2 ^ (t.bits - 1) := by positivity
  unfold min
  split <;> omega

theorem max_nonneg (t : Word) : 0 ≤ t.max := by
  have h : (0 : Int) < 2 ^ (t.bits - 1) := by positivity
  have := t.modulus_eq
  unfold max min
  split <;> omega

theorem has_zero (t : Word) : t.Has 0 := ⟨t.min_nonpos, t.max_nonneg⟩

theorem has_wrap (t : Word) (v : Int) : t.Has (t.wrap v) := by
  have hnonneg := Int.emod_nonneg (v - t.min) t.modulus_pos.ne'
  have hlt := Int.emod_lt_of_pos (v - t.min) t.modulus_pos
  unfold Has wrap max
  omega

theorem wrap_of_has (h : t.Has v) : t.wrap v = v := by
  obtain ⟨hmin, hmax⟩ := h
  unfold max at hmax
  rw [wrap, Int.emod_eq_of_lt (by omega) (by omega)]
  omega

theorem modulus_dvd_wrap_sub (t : Word) (v : Int) : t.modulus ∣ t.wrap v - v := by
  have h : t.wrap v - v = -(t.modulus * ((v - t.min) / t.modulus)) := by
    have := Int.emod_add_mul_ediv (v - t.min) t.modulus
    unfold wrap
    omega
  rw [h]
  exact (Dvd.intro _ rfl).neg_right

theorem wrap_eq_wrap_iff : t.wrap v = t.wrap v' ↔ t.modulus ∣ v - v' := by
  rw [wrap, wrap, Int.add_right_inj, Int.emod_eq_emod_iff_emod_sub_eq_zero, ← Int.dvd_iff_emod_eq_zero, sub_sub_sub_cancel_right]

theorem modulus_dvd (h : t.bits ≤ u.bits) : t.modulus ∣ u.modulus := pow_dvd_pow 2 h

theorem wrap_wrap (h : t.bits ≤ u.bits) : t.wrap (u.wrap v) = t.wrap v :=
  wrap_eq_wrap_iff.mpr ((modulus_dvd h).trans (modulus_dvd_wrap_sub u v))

theorem wrap_eq_iff (h : t.Has v') : t.wrap v = v' ↔ t.modulus ∣ v - v' := by
  rw [← wrap_eq_wrap_iff, wrap_of_has h]

theorem has_saturate (t : Word) (v : Int) : t.Has (t.saturate v) := by
  have := t.min_nonpos
  have := t.max_nonneg
  unfold Has saturate
  omega

theorem Has.mono (h : t.Has v) (hs : t.signed = u.signed) (hb : t.bits ≤ u.bits) : u.Has v := by
  have hpow : (2 : Int) ^ (t.bits - 1) ≤ 2 ^ (u.bits - 1) := pow_le_pow_right₀ (by decide) (by omega)
  have ht := t.modulus_eq
  have hu := u.modulus_eq
  unfold Has max min at *
  rw [← hs]
  cases hsigned : t.signed with
  | false =>
    simp only [hsigned, Bool.false_eq_true, if_false] at h ⊢
    omega
  | true =>
    simp only [hsigned, if_true] at h ⊢
    omega

theorem Has.abs_lt_modulus (h : t.Has v) : |v| < t.modulus := by
  have hmod := t.modulus_eq
  have hpos : (0 : Int) < 2 ^ (t.bits - 1) := by positivity
  unfold Has max min at h
  rw [abs_lt]
  split at h <;> omega

theorem has_of_lt_bits (h : 0 ≤ v) (hlt : v < t.bits) : t.Has v := by
  have hmod := t.modulus_eq
  have hpow : ((t.bits - 1 : Nat) : Int) < 2 ^ (t.bits - 1) := by exact_mod_cast Nat.lt_two_pow_self
  have hpos := t.bits_pos
  refine ⟨t.min_nonpos.trans h, ?_⟩
  unfold max min
  split <;> omega

/-- The type that holds every product. -/
def double (t : Word) : Word := ⟨t.signed, 2 * t.bits, Nat.mul_pos Nat.two_pos t.bits_pos⟩

theorem Has.mul (h : t.Has v) (h' : t.Has v') : t.double.Has (v * v') := by
  have hpos : (0 : Int) < 2 ^ (t.bits - 1) := by positivity
  have hmod := t.modulus_eq
  have hdouble := t.double.modulus_eq
  have hbits := t.bits_pos
  have hhalf : (2 : Int) ^ (t.double.bits - 1) = 2 * (2 ^ (t.bits - 1) * 2 ^ (t.bits - 1)) := by
    rw [← pow_add, ← pow_succ']
    congr 1
    show 2 * t.bits - 1 = _
    omega
  have hsame : t.double.signed = t.signed := rfl
  rw [hhalf] at hdouble
  unfold Has max min at *
  rw [hsame, hhalf, hdouble]
  rw [hmod] at h h'
  generalize (2 : Int) ^ (t.bits - 1) = half at *
  cases hsigned : t.signed with
  | true =>
    simp only [hsigned, if_true] at h h' ⊢
    constructor <;> nlinarith [h.1, h.2, h'.1, h'.2]
  | false =>
    simp only [hsigned, Bool.false_eq_true, if_false] at h h' ⊢
    constructor <;> nlinarith [h.1, h.2, h'.1, h'.2]

theorem check_eq_ok : t.check v = .ok v' ↔ t.Has v ∧ v' = v := by
  unfold check
  split <;> simp_all [eq_comm]

-- Bits

/-- A count that is negative or too large shifts everything out. -/
def shiftLeft (t : Word) (v count : Int) : Int := if count < 0 ∨ t.bits ≤ count then 0 else v * 2 ^ count.toNat

def shiftRight (t : Word) (v count : Int) : Int :=
  if count < 0 ∨ t.bits ≤ count then (if v < 0 then -1 else 0) else v / 2 ^ count.toNat

/-- How many of the lowest `n` bits are set. -/
def popCount : Nat → Int → Int
  | 0, _ => 0
  | n + 1, v => v % 2 + popCount n (v / 2)

/-- The lowest `n` bits in reverse, from 0 on. -/
def reverseBits : Nat → Int → Int
  | 0, _ => 0
  | n + 1, v => 2 ^ n * (v % 2) + reverseBits n (v / 2)

theorem popCount_add (n k : Nat) (v : Int) : popCount (n + k) v = popCount n v + popCount k (v / 2 ^ n) := by
  induction n generalizing v with
  | zero => simp [popCount]
  | succ n ih =>
    rw [Nat.add_right_comm, popCount, popCount, ih, add_assoc, Int.ediv_ediv_of_nonneg (by decide), pow_succ']

theorem popCount_zero (n : Nat) : popCount n 0 = 0 := by
  induction n with
  | zero => rfl
  | succ n ih => simpa [popCount] using ih

theorem popCount_neg_one (n : Nat) : popCount n (-1) = n := by
  induction n with
  | zero => rfl
  | succ n ih =>
    rw [popCount, show ((-1 : Int) / 2) = -1 from rfl, ih]
    push_cast
    omega

theorem popCount_bounds (n : Nat) (v : Int) : 0 ≤ popCount n v ∧ popCount n v ≤ n := by
  induction n generalizing v with
  | zero => simp [popCount]
  | succ n ih =>
    have := ih (v / 2)
    unfold popCount
    push_cast
    omega

theorem reverseBits_add (n k : Nat) (v : Int) :
    reverseBits (n + k) v = 2 ^ k * reverseBits n v + reverseBits k (v / 2 ^ n) := by
  induction n generalizing v with
  | zero => simp [reverseBits]
  | succ n ih =>
    rw [Nat.add_right_comm, reverseBits, reverseBits, ih, Int.ediv_ediv_of_nonneg (by decide), pow_succ', pow_add]
    ring

theorem reverseBits_bounds (n : Nat) (v : Int) : 0 ≤ reverseBits n v ∧ reverseBits n v < 2 ^ n := by
  induction n generalizing v with
  | zero => simp [reverseBits]
  | succ n ih =>
    have := ih (v / 2)
    have hpow : (0 : Int) < 2 ^ n := by positivity
    unfold reverseBits
    rw [pow_succ']
    rcases Int.emod_two_eq_zero_or_one v with h | h <;> rw [h] <;> omega

theorem reverseBits_zero (n : Nat) : reverseBits n 0 = 0 := by
  induction n with
  | zero => rfl
  | succ n ih => simpa [reverseBits] using ih

theorem reverseBits_neg_one (n : Nat) : reverseBits n (-1) = 2 ^ n - 1 := by
  induction n with
  | zero => rfl
  | succ n ih =>
    rw [reverseBits, show ((-1 : Int) / 2) = -1 from rfl, ih, pow_succ', show ((-1 : Int) % 2) = 1 from rfl]
    ring

theorem reverseBits_eq_zero_iff (n : Nat) (v : Int) : reverseBits n v = 0 ↔ (2 : Int) ^ n ∣ v := by
  induction n generalizing v with
  | zero => simp [reverseBits]
  | succ n ih =>
    have hb := reverseBits_bounds n (v / 2)
    have hpow : (0 : Int) < 2 ^ n := by positivity
    rw [reverseBits, pow_succ']
    rcases Int.emod_two_eq_zero_or_one v with h | h
    · have hv : v = 2 * (v / 2) := by omega
      rw [h, mul_zero, zero_add, ih, hv, Int.mul_ediv_cancel_left _ (by decide)]
      exact (mul_dvd_mul_iff_left (by decide)).symm
    · rw [h, mul_one]
      constructor
      · intro hz
        omega
      · intro hd
        have := (Dvd.intro _ rfl : (2 : Int) ∣ 2 * 2 ^ n).trans hd
        omega

theorem reverseBits_eq_ones_iff (n : Nat) (v : Int) : reverseBits n v = 2 ^ n - 1 ↔ (2 : Int) ^ n ∣ v + 1 := by
  induction n generalizing v with
  | zero => simp [reverseBits]
  | succ n ih =>
    have hb := reverseBits_bounds n (v / 2)
    have hpow : (0 : Int) < 2 ^ n := by positivity
    rw [reverseBits, pow_succ']
    rcases Int.emod_two_eq_zero_or_one v with h | h
    · rw [h, mul_zero, zero_add]
      constructor
      · intro hz
        omega
      · intro hd
        have := (Dvd.intro _ rfl : (2 : Int) ∣ 2 * 2 ^ n).trans hd
        omega
    · have hv : v + 1 = 2 * (v / 2 + 1) := by omega
      rw [hv, mul_dvd_mul_iff_left (by decide), ← ih, h, mul_one]
      omega

end Word

end Ruda
