import Ruda.Lib.Text
import Mathlib.Tactic.ByContra

/-!
# Decimal numbers and separators

Integers as decimal text and back, and a text cut at the first place of a separator.
-/

namespace Ruda.Decimal

/-- `to_string` of an integer. -/
def render : Int → Text
  | .ofNat n => Nat.toDigits 10 n
  | .negSucc n => '-' :: Nat.toDigits 10 (n + 1)

def magnitude (s : Text) : Option Nat :=
  if s ≠ [] ∧ s.all Char.isDigit then some (Nat.ofDigitChars 10 s 0) else none

def signed : Text → Option Int
  | '-' :: s => (magnitude s).map fun n => -Int.ofNat n
  | '+' :: s => (magnitude s).map Int.ofNat
  | s => (magnitude s).map Int.ofNat

/-- `parse` of an integer from `lo` up to and without `hi`. -/
def parse (lo hi : Int) (s : Text) : Option Int := (signed s).filter fun n => lo ≤ n ∧ n < hi

theorem magnitude_toDigits (n : Nat) : magnitude (Nat.toDigits 10 n) = some n := by
  have hall : (Nat.toDigits 10 n).all Char.isDigit := by
    rw [List.all_eq_true]
    exact fun c hc => Nat.isDigit_of_mem_toDigits (by decide) (by decide) hc
  rw [magnitude, if_pos ⟨Nat.toDigits_ne_nil, hall⟩, Nat.ofDigitChars_ten_toDigits]

theorem signed_toDigits (n : Nat) : signed (Nat.toDigits 10 n) = some (Int.ofNat n) := by
  have hdigit : ∀ c ∈ Nat.toDigits 10 n, c.isDigit := fun c hc =>
    Nat.isDigit_of_mem_toDigits (by decide) (by decide) hc
  have hmag := magnitude_toDigits n
  generalize Nat.toDigits 10 n = s at hdigit hmag
  unfold signed
  split
  · exact absurd (hdigit '-' List.mem_cons_self) (by decide)
  · exact absurd (hdigit '+' List.mem_cons_self) (by decide)
  · rw [hmag, Option.map_some]

theorem signed_render (n : Int) : signed (render n) = some n := by
  cases n with
  | ofNat n => exact signed_toDigits n
  | negSucc n => rw [render, signed, magnitude_toDigits, Option.map_some]; rfl

theorem parse_render {lo hi n : Int} (hlo : lo ≤ n) (hhi : n < hi) : parse lo hi (render n) = some n := by
  rw [parse, signed_render, Option.filter_some, if_pos (by simp [hlo, hhi])]

theorem render_mem {n : Int} {c : Char} (h : c ∈ render n) : c = '-' ∨ c.isDigit := by
  cases n with
  | ofNat n => exact .inr (Nat.isDigit_of_mem_toDigits (by decide) (by decide) h)
  | negSucc n =>
    rcases List.mem_cons.mp h with rfl | h
    · exact .inl rfl
    · exact .inr (Nat.isDigit_of_mem_toDigits (by decide) (by decide) h)

theorem render_ne_nil (n : Int) : render n ≠ [] := by
  cases n with
  | ofNat n => exact Nat.toDigits_ne_nil
  | negSucc n => exact List.cons_ne_nil _ _

-- Separators

/-- `split_once`, at the first place of `p`. -/
def splitOnce (p : Text) : Text → Option (Text × Text)
  | [] => if p = [] then some ([], []) else none
  | c :: s =>
    if p.isPrefixOf (c :: s) then some ([], (c :: s).drop p.length)
    else (splitOnce p s).map fun (a, b) => (c :: a, b)

theorem splitOnce_append {c : Char} {p a : Text} (h : c ∉ a) (b : Text) :
    splitOnce (c :: p) (a ++ (c :: p) ++ b) = some (a, b) := by
  induction a with
  | nil =>
    have hprefix : (c :: p).isPrefixOf (c :: (p ++ b)) := List.isPrefixOf_iff_prefix.mpr (List.prefix_append (c :: p) b)
    simp only [List.nil_append, List.cons_append, splitOnce, hprefix, if_true]
    simp
  | cons d a ih =>
    have hne : c ≠ d := fun he => h (he ▸ List.mem_cons_self)
    have hprefix : (c :: p).isPrefixOf (d :: (a ++ (c :: p) ++ b)) = false := by
      simp [List.isPrefixOf, hne]
    rw [List.cons_append, List.cons_append, splitOnce, hprefix, ih fun hc => h (List.mem_cons_of_mem _ hc)]
    rfl

theorem splitOnce_none {c : Char} {p s : Text} (h : c ∉ s) : splitOnce (c :: p) s = none := by
  induction s with
  | nil => rfl
  | cons d s ih =>
    have hne : c ≠ d := fun he => h (he ▸ List.mem_cons_self)
    have hprefix : (c :: p).isPrefixOf (d :: s) = false := by simp [List.isPrefixOf, hne]
    rw [splitOnce, hprefix, ih fun hc => h (List.mem_cons_of_mem _ hc)]
    rfl

end Ruda.Decimal
