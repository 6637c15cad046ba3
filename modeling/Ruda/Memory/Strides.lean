import Ruda.Lib.RowMajor
import Ruda.Memory.Layout

/-!
# What the layout policies compute

When the checked arithmetic of `allocator.rs` goes through, and what it gives then: products of
dimensions, rounded sizes, and the strides of rows that lie `pitch` elements apart.
-/

namespace Ruda.Memory

variable {a n m r elem : Nat} {shape dims strides : List Nat} {d : MemoryLayoutDescriptor} {ds : List MemoryLayoutDescriptor}

-- Arithmetic

/-- The next multiple of `m`. -/
def roundUp (n m : Nat) : Nat := if n % m = 0 then n else n + (m - n % m)

theorem le_roundUp : n ≤ roundUp n m := by
  unfold roundUp
  split <;> omega

theorem dvd_roundUp (hm : 0 < m) : m ∣ roundUp n m := by
  unfold roundUp
  split
  · next h => exact Nat.dvd_of_mod_eq_zero h
  · have hlt := Nat.mod_lt n hm
    have hdiv := Nat.div_add_mod n m
    exact ⟨n / m + 1, by rw [Nat.mul_succ]; omega⟩

theorem roundUp_of_dvd (h : m ∣ n) : roundUp n m = n := if_pos (Nat.mod_eq_zero_of_dvd h)

theorem checkedNextMultipleOf_iff (hm : 0 < m) (hn : n ≤ u64Max) :
    checkedNextMultipleOf n m = some r ↔ roundUp n m ≤ u64Max ∧ r = roundUp n m := by
  unfold checkedNextMultipleOf roundUp
  rw [if_neg (Nat.pos_iff_ne_zero.mp hm)]
  split
  · rw [Option.some.injEq]
    exact ⟨fun h => ⟨hn, h.symm⟩, fun h => h.2.symm⟩
  · exact checkedAdd_eq_some

theorem checkedSub_eq_some : checkedSub n m = some r ↔ m ≤ n ∧ r = n - m := by
  unfold checkedSub
  split <;> simp_all [eq_comm]

theorem pow_clog_le (k : Nat) : 2 ^ Nat.clog 2 n ≤ 2 ^ k ↔ n ≤ 2 ^ k := by
  rw [Nat.pow_le_pow_iff_right (by omega)]
  exact Nat.clog_le_iff_le_pow (by omega)

theorem nextPowerOfTwo_iff : nextPowerOfTwo n = some r ↔ n ≤ 2 ^ 63 ∧ r = 2 ^ Nat.clog 2 n := by
  have hmax : 2 ^ Nat.clog 2 n ≤ u64Max ↔ n ≤ 2 ^ 63 := by
    rw [← pow_clog_le, u64Max]
    constructor
    · intro h
      have hlt : 2 ^ Nat.clog 2 n < 2 ^ 64 := by omega
      have := (Nat.pow_lt_pow_iff_right (by omega)).mp hlt
      exact Nat.pow_le_pow_right (by omega) (by omega)
    · intro h
      omega
  rw [← hmax, nextPowerOfTwo]
  split
  · next h => rw [Option.some.injEq, and_iff_right h, eq_comm]
  · next h => exact ⟨nofun, fun hr => absurd hr.1 h⟩

theorem product_iff : product dims = some r ↔ (∀ k, (dims.take k).prod ≤ u64Max) ∧ r = dims.prod := by
  have hfold (acc : Nat) (hacc : acc ≤ u64Max) :
      dims.foldlM checkedMul acc = some r ↔ (∀ k, acc * (dims.take k).prod ≤ u64Max) ∧ r = acc * dims.prod := by
    induction dims generalizing acc with
    | nil =>
      simp only [List.foldlM_nil, List.take_nil, List.prod_nil, Nat.mul_one]
      exact ⟨fun h => ⟨fun _ => hacc, (Option.some.inj h).symm⟩, fun h => congrArg some h.2.symm⟩
    | cons dim dims ih =>
      rw [List.foldlM_cons, Option.bind_eq_bind, Option.bind_eq_some_iff]
      constructor
      · rintro ⟨_, hmul, hrest⟩
        obtain ⟨hle, rfl⟩ := checkedMul_eq_some.mp hmul
        obtain ⟨hall, rfl⟩ := (ih _ hle).mp hrest
        refine ⟨fun k => ?_, by rw [List.prod_cons, Nat.mul_assoc]⟩
        cases k with
        | zero => simpa using hacc
        | succ k =>
          rw [List.take_succ_cons, List.prod_cons, ← Nat.mul_assoc]
          exact hall k
      · rintro ⟨hall, rfl⟩
        have hle : acc * dim ≤ u64Max := by simpa using hall 1
        refine ⟨_, checkedMul_eq_some.mpr ⟨hle, rfl⟩, (ih _ hle).mpr ⟨fun k => ?_, by rw [List.prod_cons, Nat.mul_assoc]⟩⟩
        have h := hall (k + 1)
        rwa [List.take_succ_cons, List.prod_cons, ← Nat.mul_assoc] at h
  have h := hfold 1 (by decide)
  simp only [Nat.one_mul] at h
  exact h

theorem product_reverse_iff : product dims.reverse = some r ↔ (∀ k, (dims.drop k).prod ≤ u64Max) ∧ r = dims.prod := by
  rw [product_iff, List.prod_reverse]
  refine and_congr_left fun _ => ⟨fun h k => ?_, fun h k => ?_⟩
  · have hk := h (dims.length - k)
    rw [List.take_reverse, List.prod_reverse] at hk
    rcases le_total k dims.length with hle | hle
    · rwa [Nat.sub_sub_self hle] at hk
    · rw [List.drop_eq_nil_of_le hle]
      decide
  · rw [List.take_reverse, List.prod_reverse]
    exact h _

-- Strides

/-- The loop computes any strides in which each is the next one times the next dimension, if
those after the first `n` are there. -/
theorem fillStrides_iff {target : List Nat} {filled : List Nat} (hlen : strides.length = target.length)
    (hrest : ∀ j, n ≤ j → strides[j]? = target[j]?)
    (hnext : ∀ i < n, ∃ stride dim, target[i + 1]? = some stride ∧ shape[i + 1]? = some dim ∧ target[i]? = some (stride * dim)) :
    fillStrides shape n strides = some filled ↔ (∀ i < n, ∀ t, target[i]? = some t → t ≤ u64Max) ∧ filled = target := by
  induction n generalizing strides with
  | zero =>
    have heq : strides = target := List.ext_getElem? fun j => hrest j (Nat.zero_le _)
    rw [fillStrides, heq]
    exact ⟨fun h => ⟨nofun, (Option.some.inj h).symm⟩, fun h => congrArg some h.2.symm⟩
  | succ i ih =>
    obtain ⟨stride, dim, hstride, hdim, htarget⟩ := hnext i (Nat.lt_succ_self _)
    have hi : i < strides.length := by
      rw [hlen]
      exact (List.getElem?_eq_some_iff.mp htarget).1
    have hset : ∀ j, i ≤ j → (strides.set i (stride * dim))[j]? = target[j]? := by
      intro j hj
      rcases Nat.eq_or_lt_of_le hj with rfl | hlt
      · rw [List.getElem?_set_self hi, htarget]
      · rw [List.getElem?_set_ne (Nat.ne_of_lt hlt), hrest j hlt]
    have ih := @ih (strides.set i (stride * dim)) (by rw [List.length_set, hlen]) hset
      fun j hj => hnext j (Nat.lt_succ_of_lt hj)
    rw [fillStrides, hrest (i + 1) le_rfl, hstride, hdim]
    simp only [Option.bind_eq_bind, Option.bind_some]
    rw [Option.bind_eq_some_iff]
    constructor
    · rintro ⟨_, hmul, hfill⟩
      obtain ⟨hle, rfl⟩ := checkedMul_eq_some.mp hmul
      obtain ⟨hall, rfl⟩ := ih.mp hfill
      refine ⟨fun j hj t ht => ?_, rfl⟩
      rcases Nat.lt_succ_iff_lt_or_eq.mp hj with hlt | rfl
      · exact hall j hlt t ht
      · rw [htarget] at ht
        exact Option.some.inj ht ▸ hle
    · rintro ⟨hall, rfl⟩
      have hle := hall i (Nat.lt_succ_self _) _ htarget
      exact ⟨_, checkedMul_eq_some.mpr ⟨hle, rfl⟩, ih.mpr ⟨fun j hj => hall j (Nat.lt_succ_of_lt hj), rfl⟩⟩

theorem dropLast_drop (shape : List Nat) (k : Nat) : (shape.drop k).dropLast = shape.dropLast.drop k := by
  rw [List.dropLast_eq_take, List.dropLast_eq_take, List.length_drop, List.drop_take]
  congr 1
  omega

theorem rowMajor_next {pitch i : Nat} (hi : i + 2 < shape.length) :
    ∃ stride dim, (rowMajor pitch shape)[i + 1]? = some stride ∧ shape[i + 1]? = some dim ∧
      (rowMajor pitch shape)[i]? = some (stride * dim) := by
  refine ⟨_, shape[i + 1], getElem?_rowMajor hi, List.getElem?_eq_getElem (by omega), ?_⟩
  rw [getElem?_rowMajor (by omega), List.drop_eq_getElem_cons (by omega)]
  have hne : shape.drop (i + 2) ≠ [] := by
    rw [Ne, List.drop_eq_nil_iff]
    omega
  rw [List.dropLast_cons_of_ne_nil hne, List.prod_cons, Nat.mul_assoc, Nat.mul_comm (shape[i + 1])]

theorem replicate_one_eq {pitch j : Nat} (hj : shape.length - 1 ≤ j) :
    (List.replicate shape.length 1)[j]? = (rowMajor pitch shape)[j]? := by
  rcases Nat.lt_or_ge j shape.length with hlt | hge
  · rw [List.getElem?_replicate, if_pos hlt, getElem?_rowMajor_last (by omega)]
  · rw [List.getElem?_eq_none (by simpa using hge), List.getElem?_eq_none (by rw [length_rowMajor]; exact hge)]

theorem strides_le_iff {pitch : Nat} (hpitch : pitch ≤ u64Max) :
    (∀ i < shape.length - 2, ∀ t, (rowMajor pitch shape)[i]? = some t → t ≤ u64Max) ↔
      ∀ k, 0 < k → pitch * (shape.dropLast.drop k).prod ≤ u64Max := by
  constructor
  · intro h k hk
    by_cases hin : k ≤ shape.length - 2
    · have hget := @getElem?_rowMajor shape pitch (k - 1) (by omega)
      rw [Nat.sub_add_cancel hk] at hget
      rw [← dropLast_drop]
      exact h _ (by omega) _ hget
    · have hlen : shape.dropLast.length ≤ k := by
        rw [List.length_dropLast]
        omega
      rw [List.drop_eq_nil_of_le hlen, List.prod_nil, Nat.mul_one]
      exact hpitch
  · intro h i hi t ht
    rw [getElem?_rowMajor (by omega), dropLast_drop] at ht
    exact Option.some.inj ht ▸ h (i + 1) (Nat.succ_pos _)

theorem pitchedStrides_iff {pitch : Nat} {filled : List Nat} (hpitch : pitch ≤ u64Max) :
    PitchedMemoryLayoutPolicy.strides shape pitch = some filled ↔
      (∀ k, 0 < k → pitch * (shape.dropLast.drop k).prod ≤ u64Max) ∧ filled = rowMajor pitch shape := by
  rw [← strides_le_iff hpitch]
  have hloop (strides : List Nat) : (if shape.length > 2 then fillStrides shape (shape.length - 2) strides else some strides) =
      fillStrides shape (shape.length - 2) strides := by
    split
    · rfl
    · next h => rw [Nat.sub_eq_zero_of_le (Nat.le_of_not_lt h), fillStrides]
  rw [PitchedMemoryLayoutPolicy.strides, hloop]
  refine fillStrides_iff ?_ ?_ fun i hi => rowMajor_next (by omega)
  · rw [length_rowMajor]
    split <;> simp
  · intro j hj
    split
    · next hrank =>
      rcases Nat.lt_or_ge j (shape.length - 1) with hlt | hge
      · obtain rfl : j = shape.length - 2 := by omega
        have hrow : shape.dropLast.length ≤ shape.length - 2 + 1 := by
          rw [List.length_dropLast]
          omega
        rw [List.getElem?_set_self (by rw [List.length_replicate]; omega), getElem?_rowMajor (by omega), dropLast_drop,
          List.drop_eq_nil_of_le hrow, List.prod_nil, Nat.mul_one]
      · rw [List.getElem?_set_ne (by omega)]
        exact replicate_one_eq hge
    · next hrank => exact replicate_one_eq (by omega)

theorem last_mul_dropLast (hne : dims ≠ []) : dims.getLast hne * dims.dropLast.prod = dims.prod := by
  conv_rhs => rw [← List.dropLast_append_getLast hne, List.prod_append, List.prod_singleton]
  exact Nat.mul_comm _ _

/-- The last dimension of a shape; of a scalar, one. -/
def width (shape : List Nat) : Nat := shape.getLast?.getD 1

theorem width_of_ne_nil (hne : shape ≠ []) : width shape = shape.getLast hne := by
  rw [width, List.getLast?_eq_getLast_of_ne_nil hne, Option.getD_some]

theorem width_mul (shape : List Nat) : width shape * shape.dropLast.prod = shape.prod := by
  by_cases hne : shape = []
  · rw [hne]
    rfl
  · rw [width_of_ne_nil hne, last_mul_dropLast]

theorem width_drop {k : Nat} (hk : k < shape.length) : width (shape.drop k) = width shape := by
  rw [width, List.getLast?_drop, if_neg (by omega), width]

theorem getElem?_dense {i : Nat} (hi : i + 1 < shape.length) :
    (rowMajor (width shape) shape)[i]? = some (shape.drop (i + 1)).prod := by
  rw [getElem?_rowMajor hi, ← width_drop hi, width_mul]

theorem contiguousStrides_iff {filled : List Nat} :
    contiguousStrides shape = some filled ↔
      shape ≠ [] ∧ (∀ k, 0 < k → (shape.drop k).prod ≤ u64Max) ∧ filled = rowMajor (width shape) shape := by
  unfold contiguousStrides
  by_cases hne : shape = []
  · subst hne
    exact ⟨nofun, fun h => absurd rfl h.1⟩
  have hrank := List.length_pos_iff.mpr hne
  have hlast : checkedSub shape.length 1 = some (shape.length - 1) := checkedSub_eq_some.mpr ⟨hrank, rfl⟩
  simp only [hlast, Option.bind_eq_bind, Option.bind_some]
  rw [and_iff_right hne, @fillStrides_iff _ _ _ (rowMajor (width shape) shape) _ (by rw [length_rowMajor, List.length_replicate])
    (fun j hj => replicate_one_eq hj) (fun i hi => ?_)]
  · refine and_congr_left fun _ => ⟨fun h k hk => ?_, fun h i hi t ht => ?_⟩
    · by_cases hin : k < shape.length
      · have hget := @getElem?_dense shape (k - 1) (by omega)
        rw [Nat.sub_add_cancel hk] at hget
        exact h _ (by omega) _ hget
      · rw [List.drop_eq_nil_of_le (Nat.le_of_not_lt hin)]
        decide
    · rw [getElem?_dense (by omega)] at ht
      exact Option.some.inj ht ▸ h (i + 1) (Nat.succ_pos _)
  · rcases Nat.lt_or_ge (i + 2) shape.length with hlt | hge
    · exact rowMajor_next hlt
    · have hi' : i + 1 < shape.length := by omega
      refine ⟨1, shape[i + 1], getElem?_rowMajor_last (by omega), List.getElem?_eq_getElem hi', ?_⟩
      have hnil : shape.drop (i + 2) = [] := List.drop_eq_nil_of_le hge
      rw [getElem?_dense hi', List.drop_eq_getElem_cons hi', hnil, List.prod_singleton, Nat.one_mul]

end Ruda.Memory
