import Ruda.Collective.AllReduce

/-!
# Slices of a tensor and putting them together again

The cut points between the slices, what `float_slice` gives between two of them, and
that `float_cat` of the slices has the shape and the elements of the whole. This holds
for any number of slices, since a range is clamped to the dimension. The ranges
themselves are well formed only while no range before the last one reaches past the
end.
-/

namespace Ruda.Collective

variable {α : Type} {shape idx : List Nat} {dim n k : Nat}

/-- `idx` is the index of an element of `shape`. -/
def InBounds (idx shape : List Nat) : Prop := List.Forall₂ (· < ·) idx shape

theorem inBounds_set {len : Nat} (hdim : dim < shape.length) :
    InBounds idx (shape.set dim len) ↔
      idx.length = shape.length ∧ idx.getD dim 0 < len ∧
        ∀ i, i ≠ dim → ∀ d, shape[i]? = some d → idx.getD i 0 < d := by
  simp only [InBounds, List.forall₂_iff_get, List.length_set, List.get_eq_getElem]
  refine and_congr_right fun hlen => ?_
  constructor
  · intro h
    refine ⟨?_, fun i hi d hd => ?_⟩
    · rw [List.getD_eq_getElem _ _ (hlen ▸ hdim)]
      simpa using h dim (by omega) (by simpa using hdim)
    · obtain ⟨hil, rfl⟩ := List.getElem?_eq_some_iff.mp hd
      rw [List.getD_eq_getElem _ _ (hlen ▸ hil)]
      simpa [List.getElem_set_ne (Ne.symm hi)] using h i (by omega) (by simpa using hil)
  · rintro ⟨hat, hrest⟩ i hi hi'
    by_cases hdi : i = dim
    · subst hdi
      rw [List.getD_eq_getElem _ _ hi] at hat
      simpa using hat
    · have hil : i < shape.length := by simpa using hi'
      have hlt := hrest i hdi shape[i] (List.getElem?_eq_getElem hil)
      rw [List.getD_eq_getElem _ _ hi] at hlt
      simpa [List.getElem_set_ne (Ne.symm hdi)] using hlt

-- One slice

theorem slices_eq (shape : List Nat) (dim : Nat) (r : Range) :
    (shape.zipIdx.map fun (d, i) => if i = dim then r else ⟨0, d⟩) =
      (shape.map fun d => (⟨0, d⟩ : Range)).set dim r := by
  apply List.ext_getElem
  · simp
  · intro i h₁ h₂
    simp only [List.getElem_map, List.getElem_zipIdx, List.getElem_set, Nat.zero_add, eq_comm (a := dim)]

theorem toRange_set (hdim : dim < shape.length) (r : Range) :
    List.zipWith Range.toRange ((shape.map fun d => (⟨0, d⟩ : Range)).set dim r) shape =
      (shape.map fun d => (⟨0, d⟩ : Range)).set dim (r.toRange (shape.getD dim 0)) := by
  apply List.ext_getElem
  · simp
  · intro i h₁ h₂
    simp only [List.getElem_zipWith, List.getElem_set, List.getElem_map]
    by_cases hi : dim = i
    · subst hi
      rw [if_pos rfl, if_pos rfl, List.getD_eq_getElem _ _ hdim]
    · simp [hi, Range.toRange]

theorem floatSlice_shape {t : Tensor α} (hdim : dim < t.shape.length) (r : Range) :
    (floatSlice t ((t.shape.map fun d => (⟨0, d⟩ : Range)).set dim r)).shape =
      t.shape.set dim ((r.toRange (t.shape.getD dim 0)).stop - (r.toRange (t.shape.getD dim 0)).start) := by
  simp only [floatSlice, toRange_set hdim, List.map_set, List.map_map]
  congr 1
  exact (List.map_congr_left fun _ _ => rfl).trans (List.map_id _)

theorem floatSlice_data {t : Tensor α} (hdim : dim < t.shape.length) (r : Range)
    (hidx : idx.length = t.shape.length) :
    (floatSlice t ((t.shape.map fun d => (⟨0, d⟩ : Range)).set dim r)).data idx =
      t.data (idx.modify dim (· + (r.toRange (t.shape.getD dim 0)).start)) := by
  simp only [floatSlice, toRange_set hdim]
  congr 1
  apply List.ext_getElem
  · simp [hidx]
  · intro i h₁ h₂
    simp only [List.getElem_zipWith, List.getElem_set, List.getElem_map, List.getElem_modify]
    split <;> rfl

-- Slices one after the other

/-- Tensors that hold, one after the other along `dim`, the elements of `F` from `a` up
to `b`. -/
def Pieces (shape : List Nat) (dim : Nat) (F : List Nat → α) : Nat → List (Tensor α) → Nat → Prop
  | a, [], b => a = b
  | a, t :: ts, b => ∃ len, t.shape = shape.set dim len ∧
      (∀ idx, InBounds idx (shape.set dim len) → t.data idx = F (idx.modify dim (· + a))) ∧
      Pieces shape dim F (a + len) ts b

theorem Pieces.le {F : List Nat → α} {a b : Nat} {ts : List (Tensor α)} (h : Pieces shape dim F a ts b) :
    a ≤ b := by
  induction ts generalizing a with
  | nil => exact Nat.le_of_eq h
  | cons t ts ih =>
    obtain ⟨len, -, -, h⟩ := h
    have := ih h
    omega

theorem Pieces.sum {F : List Nat → α} {a b : Nat} {ts : List (Tensor α)} (hdim : dim < shape.length)
    (h : Pieces shape dim F a ts b) : a + (ts.map fun u => u.shape.getD dim 0).sum = b := by
  induction ts generalizing a with
  | nil => exact h
  | cons t ts ih =>
    obtain ⟨len, hshape, -, h⟩ := h
    have := ih h
    have hlen : t.shape.getD dim 0 = len := by rw [hshape, List.getD_eq_getElem _ _ (by simpa)]; simp
    rw [List.map_cons, List.sum_cons, hlen]
    omega

theorem Pieces.catData {F : List Nat → α} {a b : Nat} {t : Tensor α} {ts : List (Tensor α)}
    (hdim : dim < shape.length) (h : Pieces shape dim F a (t :: ts) b)
    (hidx : InBounds idx (shape.set dim (b - a))) : catData dim t ts idx = F (idx.modify dim (· + a)) := by
  induction ts generalizing a t idx with
  | nil =>
    obtain ⟨len, -, hdata, h⟩ := h
    obtain rfl : a + len = b := h
    rw [Nat.add_sub_cancel_left] at hidx
    exact hdata idx hidx
  | cons u ts ih =>
    obtain ⟨len, hshape, hdata, h⟩ := h
    have hlen : t.shape.getD dim 0 = len := by rw [hshape, List.getD_eq_getElem _ _ (by simpa)]; simp
    obtain ⟨hidxlen, hat, hrest⟩ := (inBounds_set hdim).mp hidx
    rw [Collective.catData, hlen]
    by_cases hin : idx.getD dim 0 < len
    · rw [if_pos hin]
      exact hdata idx ((inBounds_set hdim).mpr ⟨hidxlen, hin, hrest⟩)
    · -- the element is in one of the pieces after this one
      rw [if_neg hin]
      have hget : ∀ i, (idx.modify dim (· - len)).getD i 0 =
          if i = dim then idx.getD dim 0 - len else idx.getD i 0 := by
        intro i
        simp only [List.getD_eq_getElem?_getD, List.getElem?_modify, eq_comm (a := dim)]
        by_cases hi : i = dim
        · subst hi
          have : i < idx.length := hidxlen ▸ hdim
          simp [this]
        · simp [hi]
      have hle := h.le
      have hidx' : InBounds (idx.modify dim (· - len)) (shape.set dim (b - (a + len))) := by
        refine (inBounds_set hdim).mpr ⟨by simp [hidxlen], ?_, fun i hi d hd => ?_⟩
        · rw [hget, if_pos rfl]
          omega
        · rw [hget, if_neg hi]
          exact hrest i hi d hd
      rw [ih h hidx']
      congr 1
      apply List.ext_getElem
      · simp
      · intro i h₁ h₂
        simp only [List.getElem_modify]
        split
        · next hi =>
          subst hi
          have : idx.getD dim 0 = idx[dim] := List.getD_eq_getElem _ _ (by omega)
          omega
        · rfl

theorem Pieces.cat {F : List Nat → α} {ts : List (Tensor α)} (hdim : dim < shape.length) (hne : ts ≠ [])
    (h : Pieces shape dim F 0 ts (shape.getD dim 0)) :
    ∃ t, floatCat ts dim = some t ∧ (∀ u, ts.head? = some u → t.device = u.device) ∧ t.shape = shape ∧
      ∀ idx, InBounds idx shape → t.data idx = F idx := by
  cases ts with
  | nil => exact absurd rfl hne
  | cons t ts =>
    have hself : shape.set dim (shape.getD dim 0) = shape := by
      rw [List.getD_eq_getElem _ _ hdim, List.set_getElem_self]
    refine ⟨_, rfl, ?_, ?_, fun idx hidx => ?_⟩
    · rintro u ⟨⟩
      rfl
    · obtain ⟨len, hshape, -⟩ := id h
      have hsum := h.sum hdim
      rw [Nat.zero_add] at hsum
      dsimp only
      rw [hsum, hshape, List.set_set, hself]
    · have hidx' : InBounds idx (shape.set dim (shape.getD dim 0 - 0)) := by rwa [Nat.sub_zero, hself]
      refine (h.catData hdim hidx').trans ?_
      congr 1
      exact List.modify_id dim idx

theorem pieces_of_cuts {F : List Nat → α} {c : Nat → Nat} (hc : ∀ i < k, c i ≤ c (i + 1)) {y : Nat → Tensor α}
    (hy : ∀ i < k, (y i).shape = shape.set dim (c (i + 1) - c i) ∧
      ∀ idx, InBounds idx (shape.set dim (c (i + 1) - c i)) → (y i).data idx = F (idx.modify dim (· + c i))) :
    Pieces shape dim F (c 0) ((List.range k).map y) (c k) := by
  have hfrom : ∀ m a, a + m = k → Pieces shape dim F (c a) ((List.range' a m).map y) (c k) := by
    intro m
    induction m with
    | zero =>
      intro a ha
      obtain rfl : a = k := ha
      exact rfl
    | succ m ih =>
      intro a ha
      have hlt : a < k := by omega
      obtain ⟨hshape, hdata⟩ := hy a hlt
      refine ⟨c (a + 1) - c a, hshape, hdata, ?_⟩
      rw [Nat.add_sub_cancel' (hc a hlt)]
      exact ih (a + 1) (by omega)
  rw [List.range_eq_range']
  exact hfrom k 0 (Nat.zero_add k)

-- The ranges

/-- The size of every slice but the last. -/
def sliceSize (n k : Nat) : Nat := (n + k - 1) / k

/-- Where slice `i` starts. -/
def cut (n k i : Nat) : Nat := if i = k then n else min (i * sliceSize n k) n

theorem cut_zero (hk : 0 < k) : cut n k 0 = 0 := by
  rw [cut, if_neg hk.ne, Nat.zero_mul, Nat.zero_min]

@[simp] theorem cut_last : cut n k k = n := if_pos rfl

theorem cut_le_succ {i : Nat} (hi : i < k) : cut n k i ≤ cut n k (i + 1) := by
  have hmul : i * sliceSize n k ≤ (i + 1) * sliceSize n k := Nat.mul_le_mul_right _ (Nat.le_succ i)
  unfold cut
  rw [if_neg hi.ne]
  split <;> omega

theorem mul_sliceSize_le : k * sliceSize n k ≤ n + k - 1 := Nat.mul_div_le _ _

theorem sliceSize_pos (hk : 0 < k) (hn : 0 < n) : 0 < sliceSize n k := Nat.div_pos (by omega) hk

theorem getRanges_cut (hk : 0 < k) (hfit : n + k ≤ u64Max) :
    ∃ ranges, getRingReduceSliceRanges n k = some ranges ∧ ranges.length = k ∧
      ∀ i (hi : i < ranges.length), (ranges[i]).toRange n = { start := cut n k i, stop := cut n k (i + 1) } := by
  refine ⟨_, if_neg hk.ne', by simp, fun i hi => ?_⟩
  have hik : i < k := by simpa using hi
  have hmul : (i + 1) * sliceSize n k ≤ k * sliceSize n k := Nat.mul_le_mul_right _ hik
  have hall := mul_sliceSize_le (n := n) (k := k)
  have hsucc : (i + 1) * sliceSize n k = i * sliceSize n k + sliceSize n k := Nat.succ_mul _ _
  have hstart : wrap64 (i * sliceSize n k) = i * sliceSize n k := wrap64_of_le (by omega)
  have hstop : wrap64 (i * sliceSize n k + sliceSize n k) = i * sliceSize n k + sliceSize n k :=
    wrap64_of_le (by omega)
  unfold sliceSize at hstart hstop
  simp only [List.getElem_modify, List.getElem_map, List.getElem_range, hstart, hstop]
  unfold cut
  rw [if_neg hik.ne]
  by_cases hlast : k - 1 = i
  · rw [if_pos hlast, if_pos (by omega : i + 1 = k)]
    simp [Range.toRange, sliceSize]
  · rw [if_neg hlast, if_neg (by omega : i + 1 ≠ k), hsucc]
    rfl

/-- Ranges in order, each inside the dimension, that cover it. -/
structure RangesOk (n : Nat) (ranges : List Range) : Prop where
  formed : ∀ r ∈ ranges, r.start ≤ r.stop ∧ r.stop ≤ n
  disjoint : ranges.Pairwise fun r r' => r.stop ≤ r'.start
  cover : (ranges.flatMap fun r => List.range' r.start (r.stop - r.start)) = List.range n

theorem flatMap_cuts {c : Nat → Nat} (h0 : c 0 = 0) (hc : ∀ i < k, c i ≤ c (i + 1)) :
    ((List.range k).flatMap fun i => List.range' (c i) (c (i + 1) - c i)) = List.range (c k) := by
  induction k with
  | zero => simp [h0]
  | succ k ih =>
    have hle := hc k (Nat.lt_succ_self k)
    rw [List.range_succ, List.flatMap_append, ih fun i hi => hc i (by omega), List.flatMap_singleton,
      List.range_eq_range', List.range_eq_range']
    have happ := List.range'_append_1 (s := 0) (m := c k) (n := c (k + 1) - c k)
    rwa [Nat.zero_add, Nat.add_sub_cancel' hle] at happ

theorem monotone_cuts {c : Nat → Nat} (hc : ∀ i < k, c i ≤ c (i + 1)) {i j : Nat} (hij : i ≤ j) (hj : j ≤ k) :
    c i ≤ c j := by
  induction j with
  | zero => rw [Nat.le_zero.mp hij]
  | succ j ih =>
    by_cases hlast : i = j + 1
    · rw [hlast]
    · exact (ih (by omega) (by omega)).trans (hc j (by omega))

/-- The ranges are well formed exactly when none before the last reaches past the end. -/
theorem rangesOk_iff (hk : 0 < k) (hkn : k ≤ n) (hn : n ≤ u64Max) :
    (∃ ranges, getRingReduceSliceRanges n k = some ranges ∧ RangesOk n ranges) ↔
      (k - 1) * sliceSize n k ≤ n := by
  have hpos : 0 < sliceSize n k := sliceSize_pos hk (by omega)
  have hsize : sliceSize n k ≤ n := by
    have hle : k * sliceSize n k ≤ n + k - 1 := mul_sliceSize_le
    obtain ⟨m, rfl⟩ : ∃ m, k = m + 1 := ⟨k - 1, by omega⟩
    rw [Nat.succ_mul] at hle
    have : m ≤ m * sliceSize n (m + 1) := Nat.le_mul_of_pos_right m hpos
    omega
  constructor
  · rintro ⟨ranges, hranges, hok⟩
    by_contra hover
    -- the first range that reaches past the end is not the last one
    let i := n / sliceSize n k
    have hi : i * sliceSize n k ≤ n := Nat.div_mul_le_self n _
    have hi' : n < i * sliceSize n k + sliceSize n k := by
      have := Nat.lt_div_mul_add (a := n) hpos
      exact this
    have hik : i < k - 1 := (Nat.div_lt_iff_lt_mul hpos).mpr (by omega)
    rw [getRingReduceSliceRanges, if_neg hk.ne'] at hranges
    obtain rfl := Option.some.inj hranges
    have hstart : wrap64 (i * sliceSize n k) = i * sliceSize n k := wrap64_of_le (by omega)
    have hmem := hok.formed { start := i * sliceSize n k, stop := wrap64 (i * sliceSize n k + sliceSize n k) } ?_
    · unfold wrap64 u64Max at *
      dsimp only at hmem
      omega
    · refine List.mem_iff_getElem.mpr ⟨i, by simp; omega, ?_⟩
      simp only [List.getElem_modify, List.getElem_map, List.getElem_range]
      rw [if_neg (by omega : ¬k - 1 = i)]
      unfold sliceSize at hstart ⊢
      rw [hstart]
  · intro hle
    let c : Nat → Nat := fun i => if i = k then n else i * sliceSize n k
    have hmono : ∀ i < k, c i ≤ c (i + 1) := by
      intro i hi
      have hmul : i * sliceSize n k ≤ (k - 1) * sliceSize n k := Nat.mul_le_mul_right _ (by omega)
      have hmul' : i * sliceSize n k ≤ (i + 1) * sliceSize n k := Nat.mul_le_mul_right _ (Nat.le_succ i)
      simp only [c, if_neg hi.ne]
      split <;> omega
    have h0 : c 0 = 0 := by simp [c, hk.ne]
    have hlast : c k = n := if_pos rfl
    have heq : getRingReduceSliceRanges n k =
        some ((List.range k).map fun i => { start := c i, stop := c (i + 1) }) := by
      rw [getRingReduceSliceRanges, if_neg hk.ne']
      refine congrArg some (List.ext_getElem (by simp) fun i h₁ h₂ => ?_)
      have hik : i < k := by simpa using h₁
      have hmul : i * sliceSize n k ≤ (k - 1) * sliceSize n k := Nat.mul_le_mul_right _ (by omega)
      have hstart : wrap64 (i * sliceSize n k) = i * sliceSize n k := wrap64_of_le (by omega)
      simp only [List.getElem_modify, List.getElem_map, List.getElem_range, c, if_neg hik.ne]
      by_cases hi : k - 1 = i
      · rw [if_pos hi, if_pos (by omega : i + 1 = k)]
        unfold sliceSize at hstart ⊢
        rw [hstart]
      · have hmul' : (i + 1) * sliceSize n k ≤ (k - 1) * sliceSize n k := Nat.mul_le_mul_right _ (by omega)
        rw [Nat.succ_mul] at hmul'
        have hstop : wrap64 (i * sliceSize n k + sliceSize n k) = i * sliceSize n k + sliceSize n k :=
          wrap64_of_le (by omega)
        rw [if_neg hi, if_neg (by omega : i + 1 ≠ k), Nat.succ_mul]
        unfold sliceSize at hstart hstop ⊢
        rw [hstart, hstop]
    refine ⟨_, heq, fun r hr => ?_, ?_, ?_⟩
    · obtain ⟨i, hi, rfl⟩ := List.mem_map.mp hr
      have hi : i < k := List.mem_range.mp hi
      exact ⟨hmono i hi, hlast ▸ monotone_cuts hmono hi le_rfl⟩
    · refine List.pairwise_map.mpr (List.pairwise_lt_range.imp_of_mem fun {i j} _ hj hij => ?_)
      exact monotone_cuts hmono hij (List.mem_range.mp hj).le
    · rw [List.flatMap_map]
      exact (flatMap_cuts h0 hmono).trans (by rw [hlast])

-- Slices of a whole tensor

theorem sliceAll_get {t : Tensor α} (hdim : dim < t.shape.length) {ranges : List Range}
    (hcut : ∀ i (hi : i < ranges.length), (ranges[i]).toRange (t.shape.getD dim 0) =
      { start := cut (t.shape.getD dim 0) k i, stop := cut (t.shape.getD dim 0) k (i + 1) })
    {i : Nat} (hi : i < ranges.length) :
    ∃ u, (sliceAll t.shape dim ranges t)[i]? = some u ∧ u.device = t.device ∧
      u.shape = t.shape.set dim (cut (t.shape.getD dim 0) k (i + 1) - cut (t.shape.getD dim 0) k i) ∧
      ∀ idx, idx.length = t.shape.length → u.data idx = t.data (idx.modify dim (· + cut (t.shape.getD dim 0) k i)) := by
  refine ⟨floatSlice t ((t.shape.map fun d => (⟨0, d⟩ : Range)).set dim ranges[i]), ?_, rfl, ?_,
    fun idx hidx => ?_⟩
  · rw [sliceAll, List.getElem?_map, List.getElem?_eq_getElem hi, Option.map_some, slices_eq]
  · rw [floatSlice_shape hdim, hcut i hi]
  · rw [floatSlice_data hdim _ hidx, hcut i hi]

theorem sliceTensor_eq (t : Tensor α) (ranges : List Range) :
    sliceTensor t dim ranges = sliceAll t.shape dim ranges t := by
  unfold sliceTensor sliceAll
  exact List.map_congr_left fun r _ => by rw [slices_eq]

theorem foldl_max_mem {β : Type} (f : β → β → β) (hf : ∀ a b, f a b = a ∨ f a b = b) (l : List β) (a : β) :
    l.foldl f a ∈ a :: l := by
  induction l generalizing a with
  | nil => exact List.mem_cons_self
  | cons b l ih =>
    rcases List.mem_cons.mp (ih (f a b)) with h | h
    · rw [List.foldl_cons, h]
      rcases hf a b with h | h
      · rw [h]
        exact List.mem_cons_self
      · rw [h]
        exact List.mem_cons_of_mem _ List.mem_cons_self
    · exact List.mem_cons_of_mem _ (List.mem_cons_of_mem _ h)

theorem getSliceDim_ok (h : shape ≠ []) : ∃ dim, getSliceDim shape = some dim ∧ dim < shape.length := by
  cases shape with
  | nil => exact absurd rfl h
  | cons d rest =>
    refine ⟨_, rfl, ?_⟩
    have hmem := foldl_max_mem (fun best e : Nat × Nat => if e.1 < best.1 then best else e)
      (fun a b => by split <;> simp) (rest.zipIdx 1) (d, 0)
    have hidx := List.snd_lt_add_of_mem_zipIdx (l := d :: rest) (k := 0) hmem
    simpa using hidx

end Ruda.Collective
