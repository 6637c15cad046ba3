import Ruda.Collective.Rings

/-!
# Sum all-reduce is right for every number of peers

Both local strategies and the global ring give every participant the elementwise sum of
all tensors, whatever the number of participants: a slice is clamped to the tensor, so
ranges that reach past its end do no harm. The ranges themselves are in order and inside
the dimension only when no range before the last one reaches past the end.
-/

namespace Ruda.Collective

variable {α : Type} [AddCommMonoid α] {shape : List Nat} {dim k : Nat}

/-- A dimension has at most `isize::MAX` elements. -/
def DimsFit (shape : List Nat) : Prop := ∀ d ∈ shape, d < 2 ^ 63

omit [AddCommMonoid α] in
theorem getCommonShape_ok {tensors : TensorMap α} (hne : tensors ≠ []) (h : OfShape shape tensors) :
    getCommonShape tensors = some shape := by
  cases tensors with
  | nil => exact absurd rfl hne
  | cons first rest =>
    have hfirst : first.2.shape = shape := h first List.mem_cons_self
    have hall : (rest.all fun e => e.2.shape = first.2.shape) = true := by
      rw [List.all_eq_true]
      intro e he
      exact decide_eq_true ((h e (List.mem_cons_of_mem _ he)).trans hfirst.symm)
    rw [← hfirst]
    exact if_pos hall

omit [AddCommMonoid α] in
theorem slices_exist (hdim : dim < shape.length) (hk : 0 < k) (hfit : shape.getD dim 0 + k ≤ u64Max)
    {T : Nat → Tensor α} (hT : ∀ p < k, (T p).shape = shape) :
    ∃ ranges, getRingReduceSliceRanges (shape.getD dim 0) k = some ranges ∧ ∃ x : Nat → Nat → Tensor α,
      (∀ p < k, sliceAll shape dim ranges (T p) = (List.range k).map (x p)) ∧
      ∀ p < k, ∀ s < k, (x p s).device = (T p).device ∧
        (x p s).shape = shape.set dim (cut (shape.getD dim 0) k (s + 1) - cut (shape.getD dim 0) k s) ∧
        ∀ idx, idx.length = shape.length →
          (x p s).data idx = (T p).data (idx.modify dim (· + cut (shape.getD dim 0) k s)) := by
  obtain ⟨ranges, hranges, hlen, hcut⟩ := getRanges_cut hk hfit
  have hget : ∀ p s, ∃ u : Tensor α, p < k → s < k → (sliceAll shape dim ranges (T p))[s]? = some u ∧
      u.device = (T p).device ∧
      u.shape = shape.set dim (cut (shape.getD dim 0) k (s + 1) - cut (shape.getD dim 0) k s) ∧
      ∀ idx, idx.length = shape.length → u.data idx = (T p).data (idx.modify dim (· + cut (shape.getD dim 0) k s)) := by
    intro p s
    by_cases h : p < k ∧ s < k
    · have hshape := hT p h.1
      obtain ⟨u, hu⟩ := sliceAll_get (show dim < (T p).shape.length by rw [hshape]; exact hdim)
        (by rw [hshape]; exact hcut) (hlen.symm ▸ h.2)
      rw [hshape] at hu
      exact ⟨u, fun _ _ => hu⟩
    · exact ⟨T p, fun hp hs => absurd ⟨hp, hs⟩ h⟩
  choose x hx using hget
  refine ⟨ranges, hranges, x, fun p hp => ?_, fun p hp s hs => (hx p s hp hs).2⟩
  apply List.ext_getElem?
  intro s
  by_cases hs : s < k
  · rw [(hx p s hp hs).1, map_range_get hs]
  · have h₁ : (sliceAll shape dim ranges (T p)).length = k := by simp [sliceAll, hlen]
    rw [List.getElem?_eq_none (by omega), List.getElem?_eq_none (by simpa using hs)]

theorem cat_sums (hdim : dim < shape.length) (hk : 0 < k) (T y : Nat → Tensor α) (device : DeviceId)
    (hy : ∀ s < k, (y s).device = device ∧
      (y s).shape = shape.set dim (cut (shape.getD dim 0) k (s + 1) - cut (shape.getD dim 0) k s) ∧
      ∀ idx, InBounds idx (shape.set dim (cut (shape.getD dim 0) k (s + 1) - cut (shape.getD dim 0) k s)) →
        (y s).data idx = ∑ q ∈ Finset.range k, (T q).data (idx.modify dim (· + cut (shape.getD dim 0) k s))) :
    ∃ t, floatCat ((List.range k).map y) dim = some t ∧ t.device = device ∧ t.shape = shape ∧
      ∀ idx, InBounds idx shape → t.data idx = ∑ q ∈ Finset.range k, (T q).data idx := by
  have hpieces := pieces_of_cuts (k := k) (y := y) (c := cut (shape.getD dim 0) k)
    (F := fun idx => ∑ q ∈ Finset.range k, (T q).data idx)
    (fun _ hi => cut_le_succ hi) fun s hs => (hy s hs).2
  rw [cut_zero hk, cut_last] at hpieces
  obtain ⟨t, ht, hdev, hshape, hdata⟩ := hpieces.cat hdim (by simpa using hk.ne')
  refine ⟨t, ht, (hdev (y 0) ?_).trans (hy 0 hk).1, hshape, hdata⟩
  rw [List.head?_eq_getElem?, map_range_get hk]

theorem exists_range_map {β : Type} {l : List β} (hne : l ≠ []) :
    ∃ T : Nat → β, l = (List.range l.length).map T ∧ ∀ i < l.length, T i ∈ l := by
  obtain ⟨first, rest, rfl⟩ := List.exists_cons_of_ne_nil hne
  refine ⟨fun i => (first :: rest).getD i first, ?_, fun i hi => ?_⟩
  · apply List.ext_getElem
    · simp
    · intro i h₁ h₂
      rw [List.getElem_map, List.getElem_range, List.getD_eq_getElem _ _ h₁]
  · dsimp only
    rw [List.getD_eq_getElem _ _ hi]
    exact List.getElem_mem hi

theorem sum_range_map (f : Nat → α) (n : Nat) : ((List.range n).map f).sum = ∑ q ∈ Finset.range n, f q := by
  induction n with
  | zero => rfl
  | succ n ih => rw [List.range_succ, List.map_append, List.sum_append, ih, Finset.sum_range_succ]; simp

-- The three all-reduces

theorem allReduceSumRing_ok {tensors : TensorMap α} (hne : tensors ≠ []) (h : OfShape shape tensors)
    (hrank : shape ≠ []) (hdims : DimsFit shape) :
    ∃ out, allReduceSumRing tensors = some out ∧ Reduced shape (sumAt tensors) (homes tensors) out := by
  obtain ⟨dim, hslice, hdim⟩ := getSliceDim_ok hrank
  have hsize : shape[dim]? = some (shape.getD dim 0) := by
    rw [List.getD_eq_getElem _ _ hdim, List.getElem?_eq_getElem hdim]
  have hcommon := getCommonShape_ok hne h
  unfold allReduceSumRing
  simp only [hcommon, hslice, hsize, Option.bind_eq_bind, Option.bind_some]
  by_cases hsmall : shape.getD dim 0 < tensors.length
  · rw [if_pos hsmall]
    exact allReduceSumTree_ok (by decide) hne h
  · rw [if_neg hsmall]
    have hk : 0 < tensors.length := List.length_pos_of_ne_nil hne
    have hlt : shape.getD dim 0 < 2 ^ 63 := by
      rw [List.getD_eq_getElem _ _ hdim]
      exact hdims _ (List.getElem_mem hdim)
    obtain ⟨T, hT, hmem⟩ := exists_range_map hne
    obtain ⟨ranges, hranges, x, hall, hx⟩ := slices_exist (T := fun p => (T p).2) hdim hk
      (by unfold u64Max; omega) fun p hp => h _ (hmem p hp)
    have hsliced : sliceTensors tensors shape dim = some (table tensors.length (fun p => (T p).1) x) := by
      rw [sliceTensors, hsize]
      simp only [hranges, Option.bind_eq_bind, Option.bind_some]
      refine congrArg some ?_
      conv_lhs => rw [hT]
      rw [List.map_map]
      exact List.map_congr_left fun p hp => by rw [← hall p (List.mem_range.mp hp)]; rfl
    obtain ⟨S, hphase1, y, hphase2, hy⟩ := ringCycles_both (fun p => (T p).1) fun p hp s hs => (hx p hp s hs).2.1
    have hcat : ∀ p, ∃ t : Tensor α, p < tensors.length →
        floatCat ((List.range tensors.length).map (y p)) dim = some t ∧ t.device = (T p).2.device ∧
        t.shape = shape ∧
        ∀ idx, InBounds idx shape → t.data idx = ∑ q ∈ Finset.range tensors.length, (T q).2.data idx := by
      intro p
      by_cases hp : p < tensors.length
      · obtain ⟨t, ht⟩ := cat_sums hdim hk (fun p => (T p).2) (y p) (T p).2.device fun s hs => by
          obtain ⟨hdev, hshape, hdata⟩ := hy p hp s hs
          refine ⟨hdev.trans (hx p hp s hs).1, hshape, fun idx hidx => (hdata idx hidx).trans ?_⟩
          refine Finset.sum_congr rfl fun q hq => (hx q (Finset.mem_range.mp hq) s hs).2.2 idx ?_
          simpa using hidx.length_eq
        exact ⟨t, fun _ => ht⟩
      · exact ⟨(T p).2, fun h => absurd h hp⟩
    choose out hout using hcat
    refine ⟨(List.range tensors.length).map fun p => ((T p).1, out p), ?_, ?_, ?_, ?_⟩
    · rw [hsliced]
      simp only [Option.bind_some, hphase1, hphase2]
      refine mapM_range fun p hp => ?_
      simp only [(hout p hp).1, Option.bind_some]
    · have hhomes : homes ((List.range tensors.length).map fun p => ((T p).1, out p)) = homes tensors := by
        conv_rhs => rw [hT]
        simp only [homes, List.map_map]
        refine List.map_congr_left fun p hp => ?_
        simp only [Function.comp_apply, (hout p (List.mem_range.mp hp)).2.1]
      rw [hhomes]
    · intro e he
      obtain ⟨p, hp, rfl⟩ := List.mem_map.mp he
      exact (hout p (List.mem_range.mp hp)).2.2.1
    · intro e he idx hidx
      obtain ⟨p, hp, rfl⟩ := List.mem_map.mp he
      have hsum : sumAt tensors idx = ∑ q ∈ Finset.range tensors.length, (T q).2.data idx := by
        rw [sumAt, ← sum_range_map]
        conv_lhs => rw [hT]
        rw [List.map_map]
        rfl
      rw [hsum]
      exact (hout p (List.mem_range.mp hp)).2.2.2 idx hidx

/-- Cut into `k` slices and put together, a tensor is what it was, in the local and in the
global ring. -/
structure SlicesRestore (t : Tensor α) (dim : Nat) (ranges : List Range) : Prop where
  ring : ∃ u, floatCat (sliceAll t.shape dim ranges t) dim = some u ∧ u.shape = t.shape ∧
    ∀ idx, InBounds idx t.shape → u.data idx = t.data idx
  global : floatCat (sliceTensor t dim ranges) dim = floatCat (sliceAll t.shape dim ranges t) dim

omit [AddCommMonoid α] in
theorem slicesRestore {t : Tensor α} (hrank : t.shape ≠ []) (hdims : DimsFit t.shape) (hk : 0 < k)
    (hle : ∀ dim, getSliceDim t.shape = some dim → k ≤ t.shape.getD dim 0) :
    ∃ dim ranges, getSliceDim t.shape = some dim ∧ getRingReduceSliceRanges (t.shape.getD dim 0) k = some ranges ∧
      SlicesRestore t dim ranges := by
  obtain ⟨dim, hslice, hdim⟩ := getSliceDim_ok hrank
  have hmem : t.shape.getD dim 0 ∈ t.shape := by
    rw [List.getD_eq_getElem _ _ hdim]
    exact List.getElem_mem hdim
  have hlt := hdims _ hmem
  have hkd := hle dim hslice
  obtain ⟨ranges, hranges, x, hall, hx⟩ := slices_exist (T := fun _ => t) hdim hk
    (by unfold u64Max; omega) fun _ _ => rfl
  have hpieces := pieces_of_cuts (k := k) (y := x 0) (c := cut (t.shape.getD dim 0) k) (F := t.data)
    (fun _ hi => cut_le_succ hi) fun s hs =>
      ⟨(hx 0 hk s hs).2.1, fun idx hidx => (hx 0 hk s hs).2.2 idx (by simpa using hidx.length_eq)⟩
  rw [cut_zero hk, cut_last] at hpieces
  obtain ⟨u, hu, -, hshape, hdata⟩ := hpieces.cat hdim (by simpa using hk.ne')
  exact ⟨dim, ranges, hslice, hranges, ⟨u, (hall 0 hk).symm ▸ hu, hshape, hdata⟩, by rw [sliceTensor_eq]⟩

theorem ringAllReduceSum_ok {tensors : List (Tensor α)} (hne : tensors ≠ []) (h : ∀ t ∈ tensors, t.shape = shape)
    (hrank : shape ≠ []) (hdims : DimsFit shape)
    (hle : ∀ dim, getSliceDim shape = some dim → tensors.length ≤ shape.getD dim 0) :
    ∃ out, ringAllReduceSum tensors = some out ∧ List.Forall₂ (fun t t' => t'.device = t.device ∧ t'.shape = shape ∧
      ∀ idx, InBounds idx shape → t'.data idx = (tensors.map fun u => u.data idx).sum) tensors out := by
  obtain ⟨dim, hslice, hdim⟩ := getSliceDim_ok hrank
  have hsize : shape[dim]? = some (shape.getD dim 0) := by
    rw [List.getD_eq_getElem _ _ hdim, List.getElem?_eq_getElem hdim]
  have hk : 0 < tensors.length := List.length_pos_of_ne_nil hne
  have hkd := hle dim hslice
  have hlt : shape.getD dim 0 < 2 ^ 63 := by
    rw [List.getD_eq_getElem _ _ hdim]
    exact hdims _ (List.getElem_mem hdim)
  obtain ⟨T, hT, hmem⟩ := exists_range_map hne
  have hget : ∀ p < tensors.length, tensors[p]? = some (T p) := by
    intro p hp
    have hp' := map_range_get (g := T) hp
    rwa [← hT] at hp'
  obtain ⟨ranges, hranges, x, hall, hx⟩ := slices_exist (T := T) hdim hk (by unfold u64Max; omega)
    fun p hp => h _ (hmem p hp)
  have hnodes : ((List.range tensors.length).mapM fun position => do
      let tensor ← tensors[position]?
      let sliceDim ← getSliceDim tensor.shape
      let size ← tensor.shape[sliceDim]?
      if size < tensors.length then none
      else
        let ranges ← getRingReduceSliceRanges size tensors.length
        some ({ slices := sliceTensor tensor sliceDim ranges, sendSliceIdx := position } : Node α)) =
      some ((List.range tensors.length).map fun p =>
        { slices := (List.range tensors.length).map (x p), sendSliceIdx := p }) := by
    conv_lhs => rw [← List.map_id (List.range tensors.length)]
    refine mapM_range fun p hp => ?_
    have hshape := h _ (hmem p hp)
    simp only [id, hget p hp, Option.bind_eq_bind, Option.bind_some, hshape, hslice, hsize, if_neg (not_lt.mpr hkd),
      hranges, sliceTensor_eq]
    rw [← hall p hp]
  obtain ⟨mid, hphase1, y, send, hphase2, hy⟩ := doCycles_both fun p hp s hs => (hx p hp s hs).2.1
  have hcat : ∀ p, ∃ t : Tensor α, p < tensors.length →
      floatCat ((List.range tensors.length).map (y p)) dim = some t ∧ t.device = (T p).device ∧ t.shape = shape ∧
      ∀ idx, InBounds idx shape → t.data idx = ∑ q ∈ Finset.range tensors.length, (T q).data idx := by
    intro p
    by_cases hp : p < tensors.length
    · obtain ⟨t, ht⟩ := cat_sums hdim hk T (y p) (T p).device fun s hs => by
        obtain ⟨hdev, hshape, hdata⟩ := hy p hp s hs
        refine ⟨hdev.trans (hx p hp s hs).1, hshape, fun idx hidx => (hdata idx hidx).trans ?_⟩
        refine Finset.sum_congr rfl fun q hq => (hx q (Finset.mem_range.mp hq) s hs).2.2 idx ?_
        simpa using hidx.length_eq
      exact ⟨t, fun _ => ht⟩
    · exact ⟨T p, fun h => absurd h hp⟩
  choose out hout using hcat
  refine ⟨(List.range tensors.length).map out, ?_, ?_⟩
  · unfold ringAllReduceSum
    rw [hnodes]
    simp only [Option.bind_eq_bind, Option.bind_some, hphase1, hphase2]
    have hzip : (((List.range tensors.length).map fun p =>
        ({ slices := (List.range tensors.length).map (y p), sendSliceIdx := send p } : Node α)).zip tensors) =
        (List.range tensors.length).map fun p =>
          ({ slices := (List.range tensors.length).map (y p), sendSliceIdx := send p }, T p) := by
      conv_lhs => rw [show tensors = (List.range tensors.length).map T from hT]
      simp only [List.length_map, List.length_range, List.zip_map']
    rw [hzip]
    refine mapM_range fun p hp => ?_
    simp only [h _ (hmem p hp), hslice, Option.bind_some, (hout p hp).1]
  · have hsum : ∀ idx, (tensors.map fun u => u.data idx).sum = ∑ q ∈ Finset.range tensors.length, (T q).data idx := by
      intro idx
      rw [← sum_range_map]
      conv_lhs => rw [hT]
      rw [List.map_map]
      rfl
    refine List.forall₂_iff_get.mpr ⟨by simp, fun p hp hp' => ?_⟩
    obtain ⟨-, hdev, hshape, hdata⟩ := hout p hp
    have hTp : tensors[p] = T p := Option.some.inj ((List.getElem?_eq_getElem hp).symm.trans (hget p hp))
    simp only [List.get_eq_getElem, List.getElem_map, List.getElem_range, hTp, hsum]
    exact ⟨hdev, hshape, hdata⟩

/-- What all strategies make of the tensors of one all-reduce. -/
structure SumsAll (tensors : TensorMap α) (shape : List Nat) (arity : Nat) : Prop where
  ring : ∃ out, allReduceSumRing tensors = some out ∧ Reduced shape (sumAt tensors) (homes tensors) out
  tree : ∃ out, allReduceSumTree tensors arity = some out ∧ Reduced shape (sumAt tensors) (homes tensors) out
  /-- The global ring wants a slice for every node. -/
  global : (∀ dim, getSliceDim shape = some dim → tensors.length ≤ shape.getD dim 0) →
    ∃ out, ringAllReduceSum (tensors.map Prod.snd) = some out ∧
      List.Forall₂ (fun e t' => t'.device = e.2.device ∧ t'.shape = shape ∧
        ∀ idx, InBounds idx shape → t'.data idx = sumAt tensors idx) tensors out
  restore : (∀ dim, getSliceDim shape = some dim → tensors.length ≤ shape.getD dim 0) → ∀ e ∈ tensors,
    ∃ dim ranges, getSliceDim shape = some dim ∧
      getRingReduceSliceRanges (shape.getD dim 0) tensors.length = some ranges ∧ SlicesRestore e.2 dim ranges

theorem sumsAll {tensors : TensorMap α} {arity : Nat} (hne : tensors ≠ []) (h : OfShape shape tensors)
    (hrank : shape ≠ []) (hdims : DimsFit shape) (harity : 0 < arity) : SumsAll tensors shape arity where
  ring := allReduceSumRing_ok hne h hrank hdims
  tree := allReduceSumTree_ok harity hne h
  global hle := by
    obtain ⟨out, hout, hall⟩ := ringAllReduceSum_ok (show tensors.map Prod.snd ≠ [] by simpa using hne)
      (fun t ht => by obtain ⟨e, he, rfl⟩ := List.mem_map.mp ht; exact h e he) hrank hdims
      (by simpa using hle)
    rw [List.forall₂_map_left_iff] at hall
    refine ⟨out, hout, hall.imp fun e t' ⟨hdev, hshape, hdata⟩ => ⟨hdev, hshape, fun idx hidx => ?_⟩⟩
    rw [hdata idx hidx, List.map_map]
    rfl
  restore hle e he := by
    have hshape := h e he
    obtain ⟨dim, ranges, hslice, hranges, hrestore⟩ := slicesRestore (t := e.2) (k := tensors.length)
      (hshape ▸ hrank) (hshape ▸ hdims) (List.length_pos_of_ne_nil hne) (hshape ▸ hle)
    exact ⟨dim, ranges, hshape ▸ hslice, hshape ▸ hranges, hrestore⟩

/-- All strategies are right, and the slice ranges are well formed and cover the dimension
in order, exactly when no range before the last one reaches past its end. -/
theorem all_reduce_sum {tensors : TensorMap α} {arity n k : Nat} (hne : tensors ≠ []) (h : OfShape shape tensors)
    (hrank : shape ≠ []) (hdims : DimsFit shape) (harity : 0 < arity) (hk : 0 < k) (hkn : k ≤ n)
    (hn : n ≤ u64Max) :
    (SumsAll tensors shape arity ∧ ∃ ranges, getRingReduceSliceRanges n k = some ranges ∧ RangesOk n ranges) ↔
      (k - 1) * sliceSize n k ≤ n := by
  rw [← rangesOk_iff hk hkn hn]
  exact and_iff_right (sumsAll hne h hrank hdims harity)

theorem all_reduce_sum_pair :
    (SumsAll (α := Nat) [(0, ⟨0, [3], fun _ => 1⟩), (1, ⟨1, [3], fun _ => 2⟩)] [3] 2 ∧
      ∃ ranges, getRingReduceSliceRanges 5 3 = some ranges ∧ RangesOk 5 ranges) ↔ (3 - 1) * sliceSize 5 3 ≤ 5 :=
  all_reduce_sum (by decide) (by simp [OfShape]) (by decide) (by simp [DimsFit]) (by decide) (by decide) (by decide)
    (by decide)

/-- Four slices of five rows: the third range ends after the last row. -/
theorem ranges_past_end : ¬∃ ranges, getRingReduceSliceRanges 5 4 = some ranges ∧ RangesOk 5 ranges := by
  rintro ⟨ranges, hranges, hok⟩
  have hrun : getRingReduceSliceRanges 5 4 = some [⟨0, 2⟩, ⟨2, 4⟩, ⟨4, 6⟩, ⟨6, 5⟩] := by decide
  obtain rfl := Option.some.inj (hrun.symm.trans hranges)
  exact absurd (hok.formed ⟨4, 6⟩ (by decide)).2 (by decide)

end Ruda.Collective
