import Mathlib

/-!
# Row-major arrays

Arrays stored in row-major order whose rows may be padded: the last dimension is dense, and
`pitch` elements lie between the starts of two rows. Indices within the bounds have positions
of their own, all below the pitch times the number of rows.
-/

namespace Ruda

variable {shape index index' : List Nat} {pitch : Nat}

/-- The stride of each dimension. -/
def rowMajor (pitch : Nat) : (shape : List Nat) → List Nat
  | [] => []
  | [_] => [1]
  | _ :: dim :: dims => pitch * (dim :: dims).dropLast.prod :: rowMajor pitch (dim :: dims)

def InBounds : (index shape : List Nat) → Prop := List.Forall₂ (· < ·)

/-- The element that an index stands for. -/
def position (index strides : List Nat) : Nat := (List.zipWith (· * ·) index strides).sum

/-- A row has room for the last dimension. -/
def RowsFit (pitch : Nat) (shape : List Nat) : Prop := ∀ width, shape.getLast? = some width → width ≤ pitch

theorem length_rowMajor : (rowMajor pitch shape).length = shape.length := by
  induction shape with
  | nil => rfl
  | cons dim dims ih =>
    cases dims with
    | nil => rfl
    | cons dim' dims => exact congrArg (· + 1) ih

theorem getElem?_rowMajor {i : Nat} (hi : i + 1 < shape.length) :
    (rowMajor pitch shape)[i]? = some (pitch * (shape.drop (i + 1)).dropLast.prod) := by
  induction shape generalizing i with
  | nil => exact absurd hi (Nat.not_lt_zero _)
  | cons dim dims ih =>
    cases dims with
    | nil =>
      rw [List.length_singleton] at hi
      omega
    | cons dim' dims =>
      cases i with
      | zero => rfl
      | succ i => exact ih (Nat.lt_of_succ_lt_succ hi)

theorem getElem?_rowMajor_last {n : Nat} (hn : shape.length = n + 1) : (rowMajor pitch shape)[n]? = some 1 := by
  induction shape generalizing n with
  | nil => cases hn
  | cons dim dims ih =>
    cases dims with
    | nil =>
      obtain rfl : n = 0 := (Nat.succ.inj hn).symm
      rfl
    | cons dim' dims =>
      obtain rfl : n = dims.length + 1 := (Nat.succ.inj hn).symm
      exact @ih dims.length rfl

theorem RowsFit.tail {dim dim' : Nat} {dims : List Nat} (h : RowsFit pitch (dim :: dim' :: dims)) : RowsFit pitch (dim' :: dims) :=
  fun width hw => h width (by rwa [List.getLast?_cons_cons])

theorem position_cons {dim dim' : Nat} {dims : List Nat} {i : Nat} :
    position (i :: index) (rowMajor pitch (dim :: dim' :: dims)) =
      i * (pitch * (dim' :: dims).dropLast.prod) + position index (rowMajor pitch (dim' :: dims)) := by
  rw [rowMajor, position, List.zipWith_cons_cons, List.sum_cons, position]

theorem position_lt (hne : shape ≠ []) (hrow : RowsFit pitch shape) (hin : InBounds index shape) :
    position index (rowMajor pitch shape) < pitch * shape.dropLast.prod := by
  induction shape generalizing index with
  | nil => exact absurd rfl hne
  | cons dim dims ih =>
    obtain _ | ⟨hi, hin⟩ := hin
    next i index =>
    cases dims with
    | nil =>
      cases hin
      have hle : dim ≤ pitch := hrow dim rfl
      simp only [rowMajor, position, List.zipWith_cons_cons, List.zipWith_nil_right, List.sum_cons, List.sum_nil,
        List.dropLast_singleton, List.prod_nil]
      omega
    | cons dim' dims =>
      have hrest := ih (List.cons_ne_nil _ _) hrow.tail hin
      rw [position_cons, List.dropLast_cons_cons, List.prod_cons]
      calc i * (pitch * (dim' :: dims).dropLast.prod) + position index (rowMajor pitch (dim' :: dims))
          < (i + 1) * (pitch * (dim' :: dims).dropLast.prod) := by
            rw [Nat.succ_mul]
            omega
        _ ≤ dim * (pitch * (dim' :: dims).dropLast.prod) := Nat.mul_le_mul_right _ hi
        _ = pitch * (dim * (dim' :: dims).dropLast.prod) := Nat.mul_left_comm _ _ _

theorem position_inj (hrow : RowsFit pitch shape) (hin : InBounds index shape) (hin' : InBounds index' shape)
    (heq : position index (rowMajor pitch shape) = position index' (rowMajor pitch shape)) : index = index' := by
  induction shape generalizing index index' with
  | nil =>
    cases hin
    cases hin'
    rfl
  | cons dim dims ih =>
    obtain _ | ⟨hi, hin⟩ := hin
    obtain _ | ⟨hi', hin'⟩ := hin'
    next i index i' index' =>
    cases dims with
    | nil =>
      cases hin
      cases hin'
      have hsame : i * 1 + 0 = i' * 1 + 0 := heq
      rw [show i = i' by omega]
    | cons dim' dims =>
      have hlt := position_lt (List.cons_ne_nil _ _) hrow.tail hin
      have hlt' := position_lt (List.cons_ne_nil _ _) hrow.tail hin'
      rw [position_cons, position_cons] at heq
      generalize pitch * (dim' :: dims).dropLast.prod = stride at heq hlt hlt'
      have hdiv : i = i' := by
        have h := congrArg (· / stride) heq
        have hpos : 0 < stride := Nat.zero_lt_of_lt hlt
        simp only [Nat.mul_comm _ stride, Nat.mul_add_div hpos, Nat.div_eq_of_lt hlt, Nat.div_eq_of_lt hlt', Nat.add_zero] at h
        exact h
      subst hdiv
      rw [ih hrow.tail hin hin' (Nat.add_left_cancel heq)]

end Ruda
