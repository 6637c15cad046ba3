import Ruda.Lib.Ravel

/-!
# Splitting dimensions

A strided array may be read in other dimensions where every old dimension is a run of new ones
with the strides of its parts, and dimensions of one element stand anywhere. The element at a
place of the row-major order stays the same.
-/

namespace Ruda

variable {done : List (Nat × Nat)} {k : Nat}

/-- The elements of some dimensions. -/
def count (dims : List (Nat × Nat)) : Nat := (dims.map Prod.fst).prod

@[simp] theorem count_nil : count [] = 1 := rfl

@[simp] theorem count_cons (d : Nat × Nat) (dims : List (Nat × Nat)) : count (d :: dims) = d.1 * count dims := rfl

theorem count_append (a b : List (Nat × Nat)) : count (a ++ b) = count a * count b := by
  rw [count, List.map_append, List.prod_append, count, count]

/-- The offset of the `k`-th element. -/
def offsetAt : (dims : List (Nat × Nat)) → (k : Nat) → Nat
  | [], _ => 0
  | (_, stride) :: dims, k => k / count dims * stride + offsetAt dims (k % count dims)

theorem offsetAt_zip {shape strides : List Nat} (hlen : strides.length = shape.length) (k : Nat) :
    offsetAt (shape.zip strides) k = position (unravel shape k) strides := by
  induction shape generalizing strides k with
  | nil => rfl
  | cons dim dims ih =>
    cases strides with
    | nil => cases hlen
    | cons stride strides =>
      have hlen : strides.length = dims.length := Nat.succ.inj hlen
      have hcount : count (dims.zip strides) = dims.prod := by
        rw [count, List.map_fst_zip hlen.ge]
      rw [List.zip_cons_cons, offsetAt, hcount, ih hlen, unravel, position_cons_cons]

/-- The parts of a dimension: the stride of each is that of the dimension times the parts behind it. -/
def Run (stride : Nat) : List (Nat × Nat) → Prop
  | [] => True
  | (dim, stride') :: dims => (dim = 1 ∨ stride' = stride * count dims) ∧ Run stride dims

theorem Run.offset_eq {stride : Nat} {run : List (Nat × Nat)} (h : Run stride run) (hpos : 0 < count done)
    (hk : k < count run * count done) : offsetAt (run ++ done) k = k / count done * stride + offsetAt done (k % count done) := by
  induction run generalizing k with
  | nil =>
    rw [count_nil, Nat.one_mul] at hk
    rw [List.nil_append, Nat.div_eq_of_lt hk, Nat.mod_eq_of_lt hk, Nat.zero_mul, Nat.zero_add]
  | cons d run ih =>
    obtain ⟨dim, stride'⟩ := d
    obtain ⟨hstride, hrun⟩ := h
    have hcount : 0 < count run := by
      rcases Nat.eq_zero_or_pos (count run) with hz | hz
      · rw [count_cons, hz] at hk
        simp at hk
      · exact hz
    have hmod : k % (count run * count done) < count run * count done := Nat.mod_lt _ (Nat.mul_pos hcount hpos)
    rw [List.cons_append, offsetAt, count_append, ih hrun hmod, Nat.mul_comm (count run), Nat.mod_mul_right_div_self,
      Nat.mod_mul_right_mod, ← Nat.div_div_eq_div_mul]
    obtain rfl | rfl := hstride
    · rw [count_cons, Nat.one_mul, Nat.mul_comm] at hk
      have hlt : k / count done < count run := Nat.div_lt_of_lt_mul hk
      rw [Nat.div_eq_of_lt hlt, Nat.mod_eq_of_lt hlt, Nat.zero_mul, Nat.zero_add]
    · have hdiv := Nat.div_add_mod (k / count done) (count run)
      calc k / count done / count run * (stride * count run) +
            (k / count done % count run * stride + offsetAt done (k % count done))
          = (count run * (k / count done / count run) + k / count done % count run) * stride +
              offsetAt done (k % count done) := by ring
        _ = k / count done * stride + offsetAt done (k % count done) := by rw [hdiv]

/-- Old dimensions and new ones that split them. -/
inductive Regroups : (olds news : List (Nat × Nat)) → Prop
  | nil : Regroups [] []
  | oldUnit {olds news : List (Nat × Nat)} (stride : Nat) : Regroups olds news → Regroups ((1, stride) :: olds) news
  | newUnit {olds news : List (Nat × Nat)} (stride : Nat) : Regroups olds news → Regroups olds ((1, stride) :: news)
  | split {olds news : List (Nat × Nat)} {stride : Nat} {run : List (Nat × Nat)} : Run stride run → Regroups olds news →
    Regroups ((count run, stride) :: olds) (run ++ news)

variable {olds news : List (Nat × Nat)}

theorem Regroups.count_eq (h : Regroups olds news) : count olds = count news := by
  induction h with
  | nil => rfl
  | oldUnit stride _ ih => rw [count_cons, Nat.one_mul, ih]
  | newUnit stride _ ih => rw [count_cons, Nat.one_mul, ih]
  | split _ _ ih => rw [count_cons, count_append, ih]

theorem Regroups.offset_eq (h : Regroups olds news) (hk : k < count olds) : offsetAt news k = offsetAt olds k := by
  induction h generalizing k with
  | nil => rfl
  | oldUnit stride h ih =>
    rw [count_cons, Nat.one_mul] at hk
    rw [offsetAt, Nat.div_eq_of_lt hk, Nat.mod_eq_of_lt hk, Nat.zero_mul, Nat.zero_add, ih hk]
  | newUnit stride h ih =>
    have hk' := h.count_eq ▸ hk
    rw [offsetAt, Nat.div_eq_of_lt hk', Nat.mod_eq_of_lt hk', Nat.zero_mul, Nat.zero_add, ih hk]
  | @split olds news stride run hrun h ih =>
    rw [count_cons] at hk
    have hpos : 0 < count olds := Nat.pos_of_ne_zero fun hz => by simp [hz] at hk
    rw [hrun.offset_eq (h.count_eq ▸ hpos) (h.count_eq ▸ hk), offsetAt, ih (h.count_eq ▸ Nat.mod_lt _ hpos), h.count_eq]

theorem Regroups.units (h : Regroups olds news) {units : List (Nat × Nat)} (hunits : ∀ d ∈ units, d.1 = 1) :
    Regroups olds (units ++ news) := by
  induction units with
  | nil => exact h
  | cons d units ih =>
    obtain ⟨hd, hrest⟩ := List.forall_mem_cons.mp hunits
    obtain ⟨dim, stride⟩ := d
    obtain rfl : dim = 1 := hd
    exact .newUnit stride (ih hrest)

theorem Regroups.refl (dims : List (Nat × Nat)) : Regroups dims dims := by
  induction dims with
  | nil => exact .nil
  | cons d dims ih =>
    obtain ⟨dim, stride⟩ := d
    have hrun : Run stride [(dim, stride)] := ⟨.inr (Nat.mul_one stride).symm, trivial⟩
    have h := Regroups.split hrun ih
    rwa [count_cons, count_nil, Nat.mul_one] at h

end Ruda
