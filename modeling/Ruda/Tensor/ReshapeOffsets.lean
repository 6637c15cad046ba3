import Ruda.Lib.Regroup
import Ruda.Tensor.ReshapeAction
import Ruda.Tensor.ShapeReshape

/-!
# Reshaping by strides keeps every element

The analysis finds the new dimensions as runs that multiply to the old ones, from the left; the
strides are computed from the right. Dimensions of one element apart there is one way to split,
so both find the same runs.
-/

namespace Ruda.Tensor

variable {olds news pre run : List Nat} {old dim : Nat}

-- Factors

def factors (l : List Nat) : List Nat := l.filter (· ≠ 1)

/-- The new dimensions other than one, in groups that multiply to the old dimensions. -/
def Factors (olds news : List Nat) : Prop :=
  ∃ groups : List (List Nat), groups.flatten = factors news ∧ groups.map List.prod = olds

theorem prod_factors (l : List Nat) : (factors l).prod = l.prod := by
  induction l with
  | nil => rfl
  | cons x l ih =>
    rw [factors, List.filter_cons]
    split
    · rw [List.prod_cons, List.prod_cons, ← ih, factors]
    · next hx =>
      have hone : x = 1 := by simpa using hx
      rw [List.prod_cons, hone, Nat.one_mul, ← ih, factors]

theorem factors_append (a b : List Nat) : factors (a ++ b) = factors a ++ factors b := List.filter_append _ _

theorem eq_one_of_prod {l : List Nat} (h : l.prod = 1) : ∀ x ∈ l, x = 1 :=
  fun _ hx => Nat.dvd_one.mp (h ▸ List.dvd_prod hx)

theorem eq_nil_of_prod {l : List Nat} (hsub : l ⊆ factors news) (h : l.prod = 1) : l = [] := by
  refine List.eq_nil_iff_forall_not_mem.mpr fun x hx => ?_
  have hne := (List.mem_filter.mp (hsub hx)).2
  simp [eq_one_of_prod h x hx] at hne

theorem units_of_factors {l : List Nat} (h : factors l = []) : ∀ x ∈ l, x = 1 := by
  intro x hx
  have := List.filter_eq_nil_iff.mp h x hx
  simpa using this

theorem factors_units {l : List Nat} (h : ∀ x ∈ l, x = 1) : factors l = [] := by
  refine List.filter_eq_nil_iff.mpr fun x hx => ?_
  simp [h x hx]

theorem Factors.units {units : List Nat} (hunits : ∀ x ∈ units, x = 1) (h : Factors olds news) : Factors (units ++ olds) news := by
  obtain ⟨groups, hflat, hprod⟩ := h
  refine ⟨List.replicate units.length [] ++ groups, ?_, ?_⟩
  · rw [List.flatten_append, List.flatten_replicate_nil, List.nil_append, hflat]
  · rw [List.map_append, hprod, List.map_replicate, List.prod_nil, ← List.eq_replicate_of_mem hunits]

theorem Factors.cons (h : Factors olds news) (run : List Nat) : Factors (run.prod :: olds) (run ++ news) := by
  obtain ⟨groups, hflat, hprod⟩ := h
  refine ⟨factors run :: groups, ?_, ?_⟩
  · rw [List.flatten_cons, hflat, factors_append]
  · rw [List.map_cons, prod_factors, hprod]

theorem Factors.snoc (h : Factors (olds ++ [old]) news) :
    ∃ front group, front ++ group = factors news ∧ group.prod = old ∧ ∃ groups : List (List Nat), groups.flatten = front ∧
      groups.map List.prod = olds := by
  obtain ⟨groups, hflat, hprod⟩ := h
  obtain ⟨front, last, rfl, hfront, hlast⟩ := List.map_eq_append_iff.mp hprod
  obtain ⟨group, rfl, hgroup⟩ := List.map_eq_singleton_iff.mp hlast
  exact ⟨front.flatten, group, by rw [← hflat, List.flatten_append, List.flatten_singleton], hgroup, front, rfl, hfront⟩

theorem Factors.drop_unit (h : Factors (olds ++ [1]) news) : Factors olds news := by
  obtain ⟨front, group, hflat, hgroup, groups, hfront, hprod⟩ := h.snoc
  have hnil : group = [] := eq_nil_of_prod (hflat ▸ List.subset_append_right _ _) hgroup
  exact ⟨groups, by rw [hfront, ← hflat, hnil, List.append_nil], hprod⟩

theorem Factors.units_of_nil (h : Factors [] news) : ∀ x ∈ news, x = 1 := by
  obtain ⟨groups, hflat, hprod⟩ := h
  obtain rfl := List.map_eq_nil_iff.mp hprod
  exact units_of_factors hflat.symm

theorem Factors.not_lt (h : Factors (olds ++ [old]) run) (hpos : 0 < run.prod) : old ≤ run.prod := by
  obtain ⟨front, group, hflat, rfl, -⟩ := h.snoc
  have hprod : front.prod * group.prod = run.prod := by rw [← List.prod_append, hflat, prod_factors]
  exact Nat.le_of_dvd hpos ⟨front.prod, by rw [Nat.mul_comm, hprod]⟩

/-- One more dimension from the right completes the last group, or leaves half of it at least. -/
theorem Factors.last (h : Factors (olds ++ [old]) (pre ++ dim :: run)) (hdim : dim ≠ 1) (hrun : run.prod < old)
    (hpos : 0 < (pre ++ dim :: run).prod) :
    (dim * run.prod = old ∧ Factors olds pre) ∨ 2 * (dim * run.prod) ≤ old := by
  obtain ⟨front, group, hflat, hgroup, groups, hfront, hprod⟩ := h.snoc
  have hcons : factors (dim :: run) = dim :: factors run := List.filter_cons_of_pos (by simpa using hdim)
  rw [factors_append, hcons] at hflat
  have hwhole : ∀ {x}, factors pre = front ++ x → group = x ++ dim :: factors run → (dim * run.prod = old ∧ Factors olds pre) ∨
      2 * (dim * run.prod) ≤ old := by
    intro x hx hg
    have hold : x.prod * (dim * run.prod) = old := by
      rw [← hgroup, hg, List.prod_append, List.prod_cons, prod_factors]
    rcases Nat.lt_or_ge x.prod 2 with hlt | hge
    · have hx0 : x.prod ≠ 0 := by
        intro hz
        rw [List.prod_append, ← prod_factors pre, hx, List.prod_append, hz] at hpos
        simp at hpos
      have hx1 : x.prod = 1 := by omega
      left
      refine ⟨by rw [← hold, hx1, Nat.one_mul], groups, ?_, hprod⟩
      have hnil : x = [] := eq_nil_of_prod (hx ▸ List.subset_append_right _ _) hx1
      rw [hfront, hx, hnil, List.append_nil]
    · right
      rw [← hold]
      exact Nat.mul_le_mul_right _ hge
  obtain ⟨x, hx, hg⟩ | ⟨x, hx, hg⟩ := List.append_eq_append_iff.mp hflat
  · exact hwhole hx hg
  · cases x with
    | nil =>
      rw [List.append_nil] at hx
      exact @hwhole [] (by rw [List.append_nil, hx]) hg.symm
    | cons y x =>
      -- The group would be a part of the run.
      obtain ⟨-, hrest⟩ := List.cons.inj hg
      have hpart : x.prod * old = run.prod := by
        rw [← prod_factors run, hrest, ← hgroup]
        exact List.prod_append.symm
      have hx0 : 0 < x.prod := by
        refine Nat.pos_of_ne_zero fun hz => ?_
        rw [List.prod_append, List.prod_cons, ← hpart, hz] at hpos
        simp at hpos
      have hle : old ≤ x.prod * old := Nat.le_mul_of_pos_left _ hx0
      omega

-- The analysis

theorem usizeMul_le {ε : Type} {a b c : Nat} (h : a * b ≤ c) (hc : c < 2 ^ 64) : (usizeMul a b : Res ε Nat) = .ok (a * b) :=
  usizeMul_ok (h.trans_lt hc)

/-- The analysis does not overflow, and what it takes for a split has factors. `run` is the part of the
first old dimension that was found. -/
theorem splits_spec (news : List Nat) {olds run : List Nat}
    (hopen : run.prod = 1 ∨ ∃ old rest, olds = old :: rest ∧ run.prod < old) (hcount : run.prod * news.prod = olds.prod)
    (hpos : 0 < olds.prod) (hfits : olds.prod < 2 ^ 64) :
    ∃ b, splits news run.prod olds = .ok b ∧ (b = true → Factors olds (run ++ news)) := by
  induction news generalizing olds run with
  | nil =>
    refine ⟨true, rfl, fun _ => ?_⟩
    rw [List.prod_nil, Nat.mul_one] at hcount
    obtain hone | ⟨old, rest, rfl, hlt⟩ := hopen
    · have hrun : factors (run ++ []) = [] := by
        rw [List.append_nil]
        exact factors_units (eq_one_of_prod hone)
      have hunits := eq_one_of_prod (hcount.symm.trans hone)
      rw [← List.append_nil olds]
      exact Factors.units hunits ⟨[], hrun.symm, rfl⟩
    · have hle : old ≤ (old :: rest).prod := Nat.le_of_dvd hpos (List.dvd_prod List.mem_cons_self)
      omega
  | cons dim dims ih =>
    rw [List.prod_cons, ← Nat.mul_assoc] at hcount
    have hdims : 0 < dims.prod := Nat.pos_of_ne_zero fun hz => by
      rw [hz, Nat.mul_zero] at hcount
      omega
    have hmul : (usizeMul run.prod dim : Res Empty Nat) = .ok (run.prod * dim) :=
      usizeMul_le ((Nat.le_mul_of_pos_right _ hdims).trans hcount.le) hfits
    have hsnoc : run.prod * dim = (run ++ [dim]).prod := by rw [List.prod_append, List.prod_singleton]
    rw [splits, hmul, ok_bind, List.append_cons]
    split
    · next hone =>
      rw [hsnoc]
      rw [hsnoc] at hcount
      refine ih ?_ hcount hpos hfits
      rwa [← hsnoc, hone, Nat.mul_one]
    · next hne =>
      have hunits : ∀ x ∈ olds.takeWhile (· = 1), x = 1 := fun x hx => by simpa using List.mem_takeWhile_imp hx
      have hsplit := List.takeWhile_append_dropWhile (p := fun x => decide (x = 1)) (l := olds)
      have hprod : (olds.dropWhile (· = 1)).prod = olds.prod := by
        conv_rhs => rw [← hsplit, List.prod_append, List.prod_eq_one hunits, Nat.one_mul]
      cases hdrop : olds.dropWhile (· = 1) with
      | nil => exact ⟨false, rfl, nofun⟩
      | cons old rest =>
        rw [hdrop] at hprod hsplit
        rw [List.prod_cons] at hprod
        have hfactors : Factors (old :: rest) (run ++ [dim] ++ dims) → Factors olds (run ++ [dim] ++ dims) := by
          intro h
          rw [← hsplit]
          exact h.units hunits
        simp only
        split
        · next heq =>
          have hold : 0 < old := Nat.pos_of_ne_zero fun hz => by
            rw [hz, Nat.zero_mul] at hprod
            omega
          have hrest : dims.prod = rest.prod := by
            rw [← hprod, heq] at hcount
            exact Nat.eq_of_mul_eq_mul_left hold hcount
          have hle : rest.prod ≤ olds.prod := hprod ▸ Nat.le_mul_of_pos_left _ hold
          obtain ⟨b, hb, hall⟩ := @ih rest [] (.inl rfl) (by rw [List.prod_nil, Nat.one_mul, hrest]) (hrest ▸ hdims) (by omega)
          refine ⟨b, hb, fun htrue => hfactors ?_⟩
          have hgroup := (hall htrue).cons (run ++ [dim])
          rwa [← hsnoc, heq, List.nil_append] at hgroup
        · split
          · exact ⟨false, rfl, nofun⟩
          · next hne' hle =>
            have hlt : (run ++ [dim]).prod < old := by
              rw [← hsnoc]
              omega
            obtain ⟨b, hb, hall⟩ := @ih (old :: rest) (run ++ [dim]) (.inr ⟨old, rest, rfl, hlt⟩)
              (by rw [← hsnoc, hcount, ← hprod, List.prod_cons]) (by rw [List.prod_cons]; omega) (by rw [List.prod_cons]; omega)
            rw [hsnoc]
            exact ⟨b, hb, fun htrue => hfactors (hall htrue)⟩

-- The strides of a split

/-- The loop after some of the new dimensions from the right, before those in `pre`: inside a group of an
old dimension, or with nothing but dimensions of one element to come. -/
inductive Progress (all : List (Nat × Nat)) (pre dims strides : List Nat) (st : SplitState) : Prop
  | inside {olds run news : List (Nat × Nat)} (length_eq : strides.length = dims.length) (zip_eq : dims.zip strides = run ++ news)
    (all_eq : all = st.before.reverse ++ st.old :: olds) (runs : Run st.old.2 run) (regroups : Regroups olds news)
    (dimProd_eq : st.dimProd = count run) (currentStride_eq : st.currentStride = st.old.2 * count run)
    (count_lt : count run < st.old.1)
    (rest : Factors (st.before.reverse.map Prod.fst ++ [st.old.1]) (pre ++ run.map Prod.fst))
  | finished (length_eq : strides.length = dims.length) (regroups : Regroups all (dims.zip strides))
    (units : ∀ dim ∈ pre, dim = 1) (dimProd_eq : st.dimProd = 1)

variable {all olds' : List (Nat × Nat)} {dims strides : List Nat} {st : SplitState}

theorem progress_fresh {old : Nat × Nat} {before : List (Nat × Nat)} (hlen : strides.length = dims.length)
    (hregroups : Regroups olds' (dims.zip strides)) (hall : all = before.reverse ++ old :: olds') (hold : 1 < old.1)
    (hrest : Factors (before.reverse.map Prod.fst ++ [old.1]) pre) : Progress all pre dims strides (.start (old, before)) := by
  refine @Progress.inside all pre dims strides (.start (old, before)) olds' [] (dims.zip strides) hlen rfl hall trivial hregroups
    rfl (Nat.mul_one _).symm hold ?_
  rwa [List.map_nil, List.append_nil]

theorem oldUnit_of_one {old : Nat × Nat} {news : List (Nat × Nat)} (hone : old.1 = 1) (h : Regroups olds' news) :
    Regroups (old :: olds') news := by
  obtain ⟨dim, stride⟩ := old
  obtain rfl : dim = 1 := hone
  exact .oldUnit stride h

theorem progress_start {old : Nat × Nat} {before : List (Nat × Nat)} (hlen : strides.length = dims.length)
    (hregroups : Regroups olds' (dims.zip strides)) (hall : all = before.reverse ++ old :: olds')
    (hpos : ∀ d ∈ all, 0 < d.1) (hrest : Factors (before.reverse.map Prod.fst ++ [old.1]) pre) :
    Progress all pre dims strides (.start (skipUnits old before)) := by
  induction before generalizing old olds' with
  | nil =>
    rw [skipUnits]
    by_cases hone : old.1 = 1
    · rw [hone] at hrest
      exact .finished hlen (hall ▸ oldUnit_of_one hone hregroups) (Factors.units_of_nil (Factors.drop_unit hrest)) rfl
    · have hold := hpos old (by rw [hall]; simp)
      exact progress_fresh hlen hregroups hall (by omega) hrest
  | cons prev before ih =>
    rw [skipUnits]
    split
    · next hone =>
      rw [hone, List.reverse_cons, List.map_append] at hrest
      refine ih (oldUnit_of_one hone hregroups) ?_ hrest.drop_unit
      rw [hall, List.reverse_cons, List.append_assoc]
      rfl
    · next hone =>
      have hold := hpos old (by rw [hall]; simp)
      exact progress_fresh hlen hregroups hall (by omega) hrest

theorem progress_next {old : Nat × Nat} {before : List (Nat × Nat)} {currentStride dimProd : Nat}
    (hlen : strides.length = dims.length) (hregroups : Regroups (old :: olds') (dims.zip strides))
    (hall : all = before.reverse ++ old :: olds') (hpos : ∀ d ∈ all, 0 < d.1) (hrest : Factors (before.reverse.map Prod.fst) pre) :
    Progress all pre dims strides (SplitState.mk old before currentStride dimProd).next := by
  cases before with
  | nil => exact .finished hlen (hall ▸ hregroups) hrest.units_of_nil rfl
  | cons prev before =>
    refine progress_start hlen hregroups ?_ hpos ?_
    · rw [hall, List.reverse_cons, List.append_assoc]
      rfl
    · rwa [List.reverse_cons, List.map_append] at hrest

theorem Progress.step (h : Progress all (pre ++ [dim]) dims strides st) (hpos : ∀ d ∈ all, 0 < d.1)
    (hfits : ∀ d ∈ all, d.1 < 2 ^ 64 ∧ (d.1 - 1) * d.2 < 2 ^ 64) (hnews : 0 < (pre ++ dim :: dims).prod) :
    ∃ r, splitStep dim (strides, st) = .ok r ∧ Progress all pre (dim :: dims) r.1 r.2 := by
  have hlen' : ∀ stride, strides.length = dims.length → (stride :: strides).length = (dim :: dims).length := fun _ hlen => congrArg (· + 1) hlen
  cases h with
  | finished hlen hregroups hunits hdimProd =>
    obtain rfl := hunits dim (by simp)
    have hmul : (usizeMul st.dimProd 1 : Res Empty Nat) = .ok 1 := by rw [hdimProd]; rfl
    refine ⟨(st.currentStride :: strides, { st with dimProd := 1 }), by rw [splitStep, hmul, ok_bind, if_pos rfl]; rfl, ?_⟩
    exact .finished (hlen' _ hlen) (.newUnit st.currentStride hregroups) (fun d hd => hunits d (List.mem_append_left _ hd)) rfl
  | @inside olds run news hlen hzip hall hruns hregroups hdimProd hstride hlt hrest =>
    obtain ⟨old, before, currentStride, dimProd⟩ := st
    simp only at hall hruns hdimProd hstride hlt hrest
    obtain ⟨hold, hbound⟩ := hfits old (by rw [hall]; simp)
    rw [List.append_assoc] at hrest
    have hzip' : (dim :: dims).zip (currentStride :: strides) = (dim, currentStride) :: run ++ news := by
      rw [List.zip_cons_cons, hzip, List.cons_append]
    by_cases hone : dim = 1
    · subst hone
      have hmul : (usizeMul dimProd 1 : Res Empty Nat) = .ok dimProd := by
        rw [usizeMul_ok (by omega), Nat.mul_one]
      refine ⟨(currentStride :: strides, ⟨old, before, currentStride, dimProd⟩), by rw [splitStep, hmul, ok_bind, if_pos rfl]; rfl, ?_⟩
      exact @Progress.inside all pre _ _ ⟨old, before, currentStride, dimProd⟩ olds ((1, currentStride) :: run) news (hlen' _ hlen) hzip' hall
        ⟨.inl rfl, hruns⟩ hregroups (by rw [count_cons, Nat.one_mul, hdimProd]) (by rw [count_cons, Nat.one_mul, hstride])
        (by rwa [count_cons, Nat.one_mul]) hrest
    · have hrunPos : 0 < (pre ++ dim :: run.map Prod.fst).prod := by
        have hcount : count run * count news = dims.prod := by
          rw [← count_append, ← hzip, count, List.map_fst_zip hlen.ge]
        rw [List.prod_append, List.prod_cons, ← hcount] at hnews
        rw [List.prod_append, List.prod_cons]
        refine Nat.pos_of_ne_zero fun hz => ?_
        rw [show (run.map Prod.fst).prod = count run from rfl] at hz
        rw [← Nat.mul_assoc, ← Nat.mul_assoc, Nat.mul_assoc pre.prod, hz, Nat.zero_mul] at hnews
        exact lt_irrefl 0 hnews
      have hdimPos : 0 < dim := by
        refine Nat.pos_of_ne_zero fun hz => ?_
        rw [List.prod_append, List.prod_cons, hz, Nat.zero_mul, Nat.mul_zero] at hrunPos
        exact lt_irrefl 0 hrunPos
      have hruns' : Run old.2 ((dim, currentStride) :: run) := ⟨.inr hstride, hruns⟩
      have hcount' : dimProd * dim = count ((dim, currentStride) :: run) := by rw [hdimProd, count_cons, Nat.mul_comm]
      obtain ⟨hdone, hfactors⟩ | hhalf := hrest.last hone hlt hrunPos
      · have hfull : count ((dim, currentStride) :: run) = old.1 := hdone
        have hmul : (usizeMul dimProd dim : Res Empty Nat) = .ok old.1 := by
          rw [usizeMul_ok (by rw [hcount', hfull]; exact hold), hcount', hfull]
        refine ⟨(currentStride :: strides, SplitState.next ⟨old, before, currentStride, dimProd⟩), ?_, ?_⟩
        · rw [splitStep, hmul, ok_bind, if_neg hone, if_pos rfl]
          rfl
        · refine progress_next (hlen' _ hlen) ?_ hall hpos hfactors
          have hsplit := Regroups.split hruns' hregroups
          rwa [hfull, ← hzip'] at hsplit
      · have hcountPos : 0 < count ((dim, currentStride) :: run) := by
          rw [count_cons]
          refine Nat.mul_pos hdimPos (Nat.pos_of_ne_zero fun hz => ?_)
          rw [List.prod_append, List.prod_cons, show (run.map Prod.fst).prod = count run from rfl, hz] at hrunPos
          simp at hrunPos
        have hhalf : 2 * count ((dim, currentStride) :: run) ≤ old.1 := hhalf
        have hlt' : count ((dim, currentStride) :: run) < old.1 := by omega
        have hmul : (usizeMul dimProd dim : Res Empty Nat) = .ok (count ((dim, currentStride) :: run)) := by
          rw [← hcount']
          exact usizeMul_le (hcount'.le.trans (by omega)) hold
        have hnext : currentStride * dim = old.2 * count ((dim, currentStride) :: run) := by
          rw [hstride, count_cons, Nat.mul_assoc, Nat.mul_comm dim]
        have hmul' : (usizeMul currentStride dim : Res Empty Nat) = .ok (old.2 * count ((dim, currentStride) :: run)) := by
          have hle : old.2 * count ((dim, currentStride) :: run) ≤ (old.1 - 1) * old.2 := by
            rw [Nat.mul_comm]
            exact Nat.mul_le_mul_right _ (by omega)
          rw [← hnext]
          exact usizeMul_le (hnext.le.trans hle) hbound
        refine ⟨(currentStride :: strides, ⟨old, before, old.2 * count ((dim, currentStride) :: run), count ((dim, currentStride) :: run)⟩), ?_, ?_⟩
        · rw [splitStep, hmul, ok_bind, if_neg hone, if_neg hlt'.ne, hmul', ok_bind]
          rfl
        · exact @Progress.inside all pre _ _ ⟨old, before, _, _⟩ olds ((dim, currentStride) :: run) news (hlen' _ hlen) hzip' hall
            hruns' hregroups rfl rfl hlt' hrest

theorem splitLoop_progress {start : SplitState} (hpos : ∀ d ∈ all, 0 < d.1)
    (hfits : ∀ d ∈ all, d.1 < 2 ^ 64 ∧ (d.1 - 1) * d.2 < 2 ^ 64) (dims : List Nat) {pre : List Nat}
    (hnews : 0 < (pre ++ dims).prod) (hstart : Progress all (pre ++ dims) [] [] start) :
    ∃ r, splitLoop start dims = .ok r ∧ Progress all pre dims r.1 r.2 := by
  induction dims generalizing pre with
  | nil => exact ⟨([], start), rfl, by rwa [List.append_nil] at hstart⟩
  | cons dim dims ih =>
    rw [List.append_cons] at hstart
    obtain ⟨r, hr, hprogress⟩ := ih (by rwa [List.append_cons] at hnews) hstart
    obtain ⟨r', hr', hprogress'⟩ := hprogress.step hpos hfits hnews
    exact ⟨r', by rw [splitLoop, hr, ok_bind, hr'], hprogress'⟩

theorem Progress.regroups (h : Progress all [] dims strides st) (hpos : 0 < dims.prod) :
    strides.length = dims.length ∧ Regroups all (dims.zip strides) := by
  cases h with
  | finished hlen hregroups _ _ => exact ⟨hlen, hregroups⟩
  | @inside olds run news hlen hzip hall hruns hregroups hdimProd hstride hlt hrest =>
    have hcount : count run * count news = dims.prod := by
      rw [← count_append, ← hzip, count, List.map_fst_zip hlen.ge]
    have hrun : 0 < (run.map Prod.fst).prod := Nat.pos_of_mul_pos_right (hcount ▸ hpos)
    exact absurd hlt (not_lt.mpr (hrest.not_lt hrun))

-- The actions

variable {shape shapeNew stridesNew : List Nat}

/-- The same elements at the same places. -/
def SameOffsets (shape strides shapeNew stridesNew : List Nat) : Prop :=
  ∀ k < shape.prod, position (unravel shapeNew k) stridesNew = position (unravel shape k) strides

theorem sameOffsets_of_regroups (hlen : strides.length = shape.length) (hlen' : stridesNew.length = shapeNew.length)
    (h : Regroups (shape.zip strides) (shapeNew.zip stridesNew)) : SameOffsets shape strides shapeNew stridesNew := by
  intro k hk
  rw [← offsetAt_zip hlen', ← offsetAt_zip hlen]
  refine h.offset_eq ?_
  rwa [count, List.map_fst_zip hlen.ge]

theorem contiguousLoop_ok (hpos : 0 < shape.prod) (hfits : shape.prod < 2 ^ 64) :
    contiguousLoop shape = .ok (denseStrides shape, shape.prod) := by
  induction shape with
  | nil => rfl
  | cons dim dims ih =>
    rw [List.prod_cons] at hpos hfits
    have hdims : 0 < dims.prod := Nat.pos_of_mul_pos_left hpos
    have hdim : 0 < dim := Nat.pos_of_mul_pos_right hpos
    have hle : dims.prod ≤ dim * dims.prod := Nat.le_mul_of_pos_left _ hdim
    have hmul : (usizeMul dims.prod dim : Res Empty Nat) = .ok (dims.prod * dim) := usizeMul_le (Nat.mul_comm _ _).le hfits
    rw [contiguousLoop, ih hdims (hle.trans_lt hfits), ok_bind, hmul, ok_bind, List.prod_cons, Nat.mul_comm dim]
    rfl

theorem contiguousStrides_ok (hpos : 0 < shape.prod) (hfits : shape.prod < 2 ^ 64) :
    contiguousStrides shape = .ok (denseStrides shape) := by
  rw [contiguousStrides, contiguousLoop_ok hpos hfits, ok_bind]
  rfl

theorem eq_of_zip_all {a b : List Nat} (hlen : a.length = b.length) (h : (a.zip b).all (fun p => p.1 = p.2) = true) : a = b := by
  induction a generalizing b with
  | nil => exact (List.eq_nil_of_length_eq_zero hlen.symm).symm
  | cons x a ih =>
    cases b with
    | nil => cases hlen
    | cons y b =>
      rw [List.zip_cons_cons, List.all_cons, Bool.and_eq_true, decide_eq_true_eq] at h
      obtain ⟨hxy, hrest⟩ := h
      rw [show x = y from hxy, ih (Nat.succ.inj hlen) hrest]

theorem isContiguous_spec (hlen : strides.length = shape.length) (hpos : 0 < shape.prod) (hfits : shape.prod < 2 ^ 64) :
    ∃ b, isContiguous shape strides = .ok b ∧ (b = true → strides = denseStrides shape) ∧ (b = false → shape ≠ []) := by
  unfold isContiguous
  split
  · next hnil =>
    subst hnil
    exact ⟨true, rfl, fun _ => List.eq_nil_of_length_eq_zero hlen, nofun⟩
  · next hne =>
    rw [contiguousStrides_ok hpos hfits, ok_bind]
    exact ⟨_, rfl, fun h => (eq_of_zip_all ((length_denseStrides shape).trans hlen.symm) h).symm, fun _ => hne⟩

theorem sameOffsets_contiguous (hcount : shapeNew.prod = shape.prod) :
    SameOffsets shape (denseStrides shape) shapeNew (denseStrides shapeNew) := by
  intro k hk
  rw [position_unravel hk, position_unravel (hcount ▸ hk)]

theorem broadcastStrides_spec {n : Nat} (hlen : strides.length = shape.length) (numElems : Nat) (hdrop : shape = shapeNew.drop n)
    (hn : n ≤ shapeNew.length) (hunits : ∀ dim ∈ shapeNew.take n, dim = 1) :
    ∃ stridesNew, broadcastStrides n shape.length numElems strides = .ok stridesNew ∧ stridesNew.length = shapeNew.length ∧
      SameOffsets shape strides shapeNew stridesNew := by
  have hcall : broadcastStrides n shape.length numElems strides = .ok (List.replicate n numElems ++ strides) := by
    rw [broadcastStrides, if_pos hlen.le, hlen, Nat.sub_self, List.replicate_zero, List.append_nil]
  have hnew : shapeNew = shapeNew.take n ++ shape := by rw [hdrop, List.take_append_drop]
  have htake : (shapeNew.take n).length = (List.replicate n numElems).length := by
    rw [List.length_take, List.length_replicate, min_eq_left hn]
  have hlen' : (List.replicate n numElems ++ strides).length = shapeNew.length := by
    rw [List.length_append, ← htake, hlen, ← List.length_append, ← hnew]
  refine ⟨_, hcall, hlen', sameOffsets_of_regroups hlen hlen' ?_⟩
  rw [hnew, List.zip_append htake]
  refine (Regroups.refl _).units fun d hd => ?_
  exact hunits d.1 (List.of_mem_zip hd).1

theorem splitStrides_spec (hlen : strides.length = shape.length) (hne : shape ≠ []) (hpos : 0 < shape.prod)
    (hcount : shapeNew.prod = shape.prod) (hfits : ∀ d ∈ shape.zip strides, d.1 < 2 ^ 64 ∧ (d.1 - 1) * d.2 < 2 ^ 64)
    (hfactors : Factors shape shapeNew) :
    ∃ stridesNew, splitStrides shape strides shapeNew = .ok stridesNew ∧ stridesNew.length = shapeNew.length ∧
      SameOffsets shape strides shapeNew stridesNew := by
  have hall : ∀ d ∈ shape.zip strides, 0 < d.1 := by
    intro d hd
    refine Nat.pos_of_ne_zero fun hz => ?_
    have hmem := (List.of_mem_zip hd).1
    rw [hz] at hmem
    exact hpos.ne' (List.prod_eq_zero hmem)
  cases hrev : (shape.zip strides).reverse with
  | nil =>
    have hnil := congrArg List.length (List.reverse_eq_nil_iff.mp hrev)
    rw [List.length_zip, hlen, min_self] at hnil
    exact absurd (List.eq_nil_of_length_eq_zero hnil) hne
  | cons old before =>
    have hzip : shape.zip strides = before.reverse ++ [old] := by
      rw [← List.reverse_reverse (shape.zip strides), hrev, List.reverse_cons]
    have hshape : shape = before.reverse.map Prod.fst ++ [old.1] := by
      rw [← List.map_fst_zip hlen.ge, hzip, List.map_append]
      rfl
    have hstart : Progress (shape.zip strides) ([] ++ shapeNew) [] [] (.start (skipUnits old before)) :=
      progress_start rfl .nil hzip hall (hshape ▸ hfactors)
    obtain ⟨r, hr, hprogress⟩ := splitLoop_progress hall hfits shapeNew (by rwa [List.nil_append, hcount]) hstart
    obtain ⟨hlen', hregroups⟩ := hprogress.regroups (hcount ▸ hpos)
    refine ⟨r.1, ?_, hlen', sameOffsets_of_regroups hlen hlen' hregroups⟩
    rw [splitStrides, hrev]
    simp only
    rw [hr, ok_bind]
    rfl

/-- What an analysis says of the shapes. -/
def ReshapeAnalysis.Justified (shape strides shapeNew : List Nat) : ReshapeAnalysis → Prop
  | isContiguous => strides = denseStrides shape
  | highlyPermuted | smallerRank => True
  | broadcasted => shape = shapeNew.drop (shapeNew.length - shape.length) ∧ ∀ dim ∈ shapeNew.take (shapeNew.length - shape.length), dim = 1
  | split => shape ≠ [] ∧ Factors shape shapeNew
  | noChange => shape = shapeNew

theorem reshapeAnalysis_spec (hlen : strides.length = shape.length) (hpos : 0 < shape.prod) (hcount : shapeNew.prod = shape.prod)
    (hfits : shape.prod < 2 ^ 64) :
    ∃ analysis, reshapeAnalysis shape (some strides) shapeNew = .ok analysis ∧ analysis.Justified shape strides shapeNew := by
  obtain ⟨contiguous, hcontiguous, hdense, hne⟩ := isContiguous_spec hlen hpos hfits
  rw [reshapeAnalysis]
  simp only
  rw [hcontiguous, ok_bind]
  cases contiguous with
  | true => exact ⟨.isContiguous, rfl, hdense rfl⟩
  | false =>
    simp only [Bool.false_eq_true, if_false]
    split
    · exact ⟨.smallerRank, rfl, trivial⟩
    · split
      · split
        · next hbatch => exact ⟨.broadcasted, rfl, hbatch⟩
        · obtain ⟨split, hsplit, hfactors⟩ := @splits_spec shapeNew shape [] (.inl rfl)
            (by rw [List.prod_nil, Nat.one_mul, hcount]) hpos hfits
          rw [List.prod_nil] at hsplit
          rw [hsplit, ok_bind]
          cases split with
          | true => exact ⟨.split, rfl, hne rfl, hfactors rfl⟩
          | false => exact ⟨.highlyPermuted, rfl, trivial⟩
      · refine ⟨_, rfl, ?_⟩
        split
        · next heq => exact heq
        · trivial

/-- A reshape to a shape of as many elements does not panic, and where it does not recompute the
buffer every element stays at its offset. -/
theorem reshapeAction_sameOffsets (hlen : strides.length = shape.length) (hpos : 0 < shape.prod) (hcount : shapeNew.prod = shape.prod)
    (hfits : shape.prod < 2 ^ 64) (hstrides : ∀ d ∈ shape.zip strides, (d.1 - 1) * d.2 < 2 ^ 64) :
    ∃ action, reshapeAction shape strides shapeNew = .ok action ∧ ∀ stridesNew, action.newStrides strides = some stridesNew →
      stridesNew.length = shapeNew.length ∧ SameOffsets shape strides shapeNew stridesNew := by
  obtain ⟨analysis, hanalysis, hjustified⟩ := reshapeAnalysis_spec hlen hpos hcount hfits
  rw [reshapeAction, hanalysis, ok_bind]
  cases analysis with
  | isContiguous =>
    obtain rfl := hjustified
    refine ⟨.updateStrides (denseStrides shapeNew), ?_, fun stridesNew hnew => ?_⟩
    · rw [ReshapeAnalysis.action, contiguousStrides_ok (hcount ▸ hpos) (hcount ▸ hfits), ok_bind]
      rfl
    · obtain rfl := Option.some.inj hnew
      exact ⟨length_denseStrides shapeNew, sameOffsets_contiguous hcount⟩
  | highlyPermuted => exact ⟨.recompute, rfl, nofun⟩
  | smallerRank => exact ⟨.recompute, rfl, nofun⟩
  | broadcasted =>
    obtain ⟨hdrop, hunits⟩ := hjustified
    have helements : (numElements shape : Res Empty Nat) = .ok shape.prod :=
      numElements_ok (fun k => by
        rw [Nat.one_mul]
        exact (Nat.le_of_dvd hpos ⟨_, (List.prod_take_mul_prod_drop shape k).symm⟩).trans_lt hfits)
    obtain ⟨stridesNew, hnew, hspec⟩ := broadcastStrides_spec hlen shape.prod hdrop (Nat.sub_le _ _) hunits
    refine ⟨.updateStrides stridesNew, ?_, fun stridesNew' hnew' => ?_⟩
    · rw [ReshapeAnalysis.action, helements, ok_bind, hnew, ok_bind]
      rfl
    · obtain rfl := Option.some.inj hnew'
      exact hspec
  | split =>
    obtain ⟨hne, hfactors⟩ := hjustified
    have hdims : ∀ d ∈ shape.zip strides, d.1 < 2 ^ 64 ∧ (d.1 - 1) * d.2 < 2 ^ 64 := fun d hd =>
      ⟨(Nat.le_of_dvd hpos (List.dvd_prod (List.of_mem_zip hd).1)).trans_lt hfits, hstrides d hd⟩
    obtain ⟨stridesNew, hnew, hspec⟩ := splitStrides_spec hlen hne hpos hcount hdims hfactors
    refine ⟨.updateStrides stridesNew, ?_, fun stridesNew' hnew' => ?_⟩
    · rw [ReshapeAnalysis.action, hnew, ok_bind]
      rfl
    · obtain rfl := Option.some.inj hnew'
      exact hspec
  | noChange =>
    obtain rfl : shape = shapeNew := hjustified
    refine ⟨.noChange, rfl, fun stridesNew hnew => ?_⟩
    obtain rfl := Option.some.inj hnew
    exact ⟨hlen, fun _ _ => rfl⟩

theorem reshapeAction_sameOffsets_permuted :
    ∃ action, reshapeAction [4, 3] [1, 8] [2, 2, 3] = .ok action ∧ ∀ stridesNew, action.newStrides [1, 8] = some stridesNew →
      stridesNew.length = 3 ∧ SameOffsets [4, 3] [1, 8] [2, 2, 3] stridesNew :=
  reshapeAction_sameOffsets rfl (by decide) rfl (by decide) (by decide)

example : reshapeAction [4, 3] [1, 8] [2, 2, 3] = .ok (.updateStrides [2, 1, 8]) := rfl

/-- Strides that reach beyond every address overflow when a dimension is split, and so does the count
of the elements of a large view. -/
theorem reshapeAction_overflows :
    reshapeAction [4] [2 ^ 63] [2, 2] = .error .panic ∧ reshapeAction [2 ^ 32, 2 ^ 32] [0, 0] [2 ^ 32, 2 ^ 32] = .error .panic :=
  ⟨rfl, rfl⟩

end Ruda.Tensor
