import Ruda.Lib.RowMajor

/-!
# Row-major order

The elements of an array in the order of its indices, the last dimension fastest, and arrays
whose strides give the elements exactly these positions.
-/

namespace Ruda

variable {shape strides index : List Nat} {k : Nat}

/-- The strides of an array without padding. -/
def denseStrides : (shape : List Nat) → List Nat
  | [] => []
  | _ :: dims => dims.prod :: denseStrides dims

/-- The index of the `k`-th element. -/
def unravel : (shape : List Nat) → (k : Nat) → List Nat
  | [], _ => []
  | _ :: dims, k => k / dims.prod :: unravel dims (k % dims.prod)

@[simp] theorem position_nil (strides : List Nat) : position [] strides = 0 := rfl

theorem position_cons_cons (i stride : Nat) (index strides : List Nat) :
    position (i :: index) (stride :: strides) = i * stride + position index strides := by
  rw [position, List.zipWith_cons_cons, List.sum_cons, position]

theorem length_denseStrides (shape : List Nat) : (denseStrides shape).length = shape.length := by
  induction shape with
  | nil => rfl
  | cons dim dims ih => exact congrArg (· + 1) ih

theorem position_dense_lt (hin : InBounds index shape) : position index (denseStrides shape) < shape.prod := by
  induction hin with
  | nil => exact Nat.one_pos
  | @cons i dim index dims hi _ ih =>
    rw [denseStrides, position_cons_cons, List.prod_cons]
    calc i * dims.prod + position index (denseStrides dims)
        < (i + 1) * dims.prod := by rw [Nat.succ_mul]; omega
      _ ≤ dim * dims.prod := Nat.mul_le_mul_right _ hi

theorem unravel_inBounds (hk : k < shape.prod) : InBounds (unravel shape k) shape := by
  induction shape generalizing k with
  | nil => exact .nil
  | cons dim dims ih =>
    rw [List.prod_cons] at hk
    have hpos : 0 < dims.prod := Nat.pos_of_ne_zero fun hz => by simp [hz] at hk
    exact .cons (Nat.div_lt_of_lt_mul (by rwa [Nat.mul_comm])) (ih (Nat.mod_lt k hpos))

theorem position_unravel (hk : k < shape.prod) : position (unravel shape k) (denseStrides shape) = k := by
  induction shape generalizing k with
  | nil => exact (Nat.lt_one_iff.mp hk).symm
  | cons dim dims ih =>
    rw [List.prod_cons] at hk
    have hpos : 0 < dims.prod := Nat.pos_of_ne_zero fun hz => by simp [hz] at hk
    rw [unravel, denseStrides, position_cons_cons, ih (Nat.mod_lt k hpos), Nat.mul_comm]
    exact Nat.div_add_mod k dims.prod

-- Strides

/-- Strides of an array without padding, but for dimensions of one element. -/
def Dense : (shape strides : List Nat) → Prop
  | [], [] => True
  | dim :: dims, stride :: strides => (dim = 1 ∨ stride = dims.prod) ∧ Dense dims strides
  | _, _ => False

theorem Dense.length_eq (h : Dense shape strides) : strides.length = shape.length := by
  induction shape generalizing strides with
  | nil =>
    cases strides with
    | nil => rfl
    | cons stride strides => exact h.elim
  | cons dim dims ih =>
    cases strides with
    | nil => exact h.elim
    | cons stride strides => exact congrArg (· + 1) (ih h.2)

theorem Dense.position_eq (h : Dense shape strides) (hin : InBounds index shape) :
    position index strides = position index (denseStrides shape) := by
  induction hin generalizing strides with
  | nil => rw [position_nil, position_nil]
  | @cons i dim index dims hi _ ih =>
    cases strides with
    | nil => exact h.elim
    | cons stride strides =>
      obtain ⟨hstride, hrest⟩ := h
      rw [denseStrides, position_cons_cons, position_cons_cons, ih hrest]
      obtain rfl | rfl := hstride
      · rw [Nat.lt_one_iff.mp hi, Nat.zero_mul, Nat.zero_mul]
      · rfl

theorem zero_inBounds (hpos : ∀ dim ∈ shape, 0 < dim) : InBounds (List.replicate shape.length 0) shape := by
  induction shape with
  | nil => exact .nil
  | cons dim dims ih =>
    obtain ⟨hdim, hdims⟩ := List.forall_mem_cons.mp hpos
    exact .cons hdim (ih hdims)

theorem position_zero (n : Nat) (strides : List Nat) : position (List.replicate n 0) strides = 0 := by
  induction n generalizing strides with
  | zero => rfl
  | succ n ih =>
    cases strides with
    | nil => rfl
    | cons stride strides => rw [List.replicate_succ, position_cons_cons, ih, Nat.zero_mul]

theorem dense_of_position_eq (hpos : ∀ dim ∈ shape, 0 < dim) (hlen : strides.length = shape.length)
    (h : ∀ index, InBounds index shape → position index strides = position index (denseStrides shape)) : Dense shape strides := by
  induction shape generalizing strides with
  | nil =>
    obtain rfl := List.eq_nil_of_length_eq_zero hlen
    trivial
  | cons dim dims ih =>
    cases strides with
    | nil => cases hlen
    | cons stride strides =>
      obtain ⟨hdim, hdims⟩ := List.forall_mem_cons.mp hpos
      constructor
      · rcases Nat.lt_or_ge 1 dim with hgt | hle
        · -- The second element of this dimension, the first of the others.
          have hsecond := h (1 :: List.replicate dims.length 0) (.cons hgt (zero_inBounds hdims))
          rw [denseStrides, position_cons_cons, position_cons_cons, position_zero, position_zero] at hsecond
          omega
        · exact .inl (by omega)
      · refine ih hdims (Nat.succ.inj hlen) fun index hin => ?_
        have hfirst := h (0 :: index) (.cons hdim hin)
        rw [denseStrides, position_cons_cons, position_cons_cons] at hfirst
        omega

end Ruda
