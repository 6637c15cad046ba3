import Mathlib

/-!
# Lists dealt out in turn

A list is dealt out to `w` parts, one element each in turn. When every part has given up some of
its first elements, what is left keeps its order in the list, and together with what was taken it
is the whole list.
-/

namespace Ruda

variable {α : Type}

/-- `iter.step_by(step)`, after `skip` more elements. -/
def everyNth (step : Nat) : (skip : Nat) → List α → List α
  | _, [] => []
  | 0, x :: l => x :: everyNth step (step - 1) l
  | skip + 1, _ :: l => everyNth step skip l

theorem getElem?_everyNth {step : Nat} (hstep : 0 < step) (skip : Nat) (l : List α) (k : Nat) :
    (everyNth step skip l)[k]? = l[skip + k * step]? := by
  induction l generalizing skip k with
  | nil => simp [everyNth]
  | cons x l ih =>
    cases skip with
    | zero =>
      cases k with
      | zero => simp [everyNth]
      | succ k =>
        have hpos : 0 + (k + 1) * step = (step - 1 + k * step) + 1 := by
          rw [Nat.succ_mul]
          omega
        rw [everyNth, List.getElem?_cons_succ, ih, hpos, List.getElem?_cons_succ]
    | succ skip =>
      have hpos : skip + 1 + k * step = (skip + k * step) + 1 := by omega
      rw [everyNth, ih, hpos, List.getElem?_cons_succ]

/-- The part of rank `r`: `iter.skip(r).step_by(w)`. -/
def dealt (w r : Nat) (l : List α) : List α := everyNth w 0 (l.drop r)

section

variable {w r : Nat} {l : List α}

theorem getElem?_dealt (hw : 0 < w) (k : Nat) : (dealt w r l)[k]? = l[r + k * w]? := by
  rw [dealt, getElem?_everyNth hw, List.getElem?_drop, Nat.zero_add]

theorem lt_length_dealt (hw : 0 < w) (k : Nat) : k < (dealt w r l).length ↔ r + k * w < l.length := by
  constructor
  · intro h
    by_contra hno
    have hnone : (dealt w r l)[k]? = none := by
      rw [getElem?_dealt hw]
      exact List.getElem?_eq_none (by omega)
    rw [List.getElem?_eq_none_iff] at hnone
    omega
  · intro h
    by_contra hno
    have hnone : (dealt w r l)[k]? = none := List.getElem?_eq_none (by omega)
    rw [getElem?_dealt hw, List.getElem?_eq_none_iff] at hnone
    omega

theorem length_dealt (hr : r < w) : (dealt w r l).length = l.length / w + if r < l.length % w then 1 else 0 := by
  have hw : 0 < w := by omega
  have hdiv : l.length = w * (l.length / w) + l.length % w := (Nat.div_add_mod _ _).symm
  refine le_antisymm ?_ ?_
  · by_contra hlt
    have hin := (lt_length_dealt (l := l) (r := r) hw _).mp (not_le.mp hlt)
    split at hin
    · rw [Nat.add_mul, Nat.mul_comm] at hin
      have := Nat.mod_lt l.length hw
      omega
    · rw [Nat.add_zero, Nat.mul_comm] at hin
      omega
  · by_contra hlt
    have hout := mt (lt_length_dealt (l := l) (r := r) hw ((dealt w r l).length)).mpr (lt_irrefl _)
    have hle : (dealt w r l).length + 1 ≤ l.length / w + if r < l.length % w then 1 else 0 := by omega
    split at hle
    · have hmul : (dealt w r l).length * w ≤ l.length / w * w := Nat.mul_le_mul_right _ (by omega)
      rw [Nat.mul_comm (l.length / w)] at hmul
      omega
    · have hmul : ((dealt w r l).length + 1) * w ≤ l.length / w * w := Nat.mul_le_mul_right _ (by omega)
      rw [Nat.mul_comm (l.length / w), Nat.succ_mul] at hmul
      omega

theorem dealt_sublist : (dealt w r l).Sublist l := by
  have hskip : ∀ (l : List α) skip, (everyNth w skip l).Sublist l := by
    intro l
    induction l with
    | nil => simp [everyNth]
    | cons x l ih =>
      intro skip
      cases skip with
      | zero => exact (ih _).cons_cons x
      | succ skip => exact (ih _).cons x
  exact (hskip _ _).trans (List.drop_sublist _ _)

end

/-- What is left of the list when part `r` has given up its first `taken r` elements. -/
def undealt (w : Nat) (taken : Nat → Nat) (l : List α) : List α :=
  (l.zipIdx.filter fun x => taken (x.2 % w) ≤ x.2 / w).map Prod.fst

section

variable {w : Nat} {taken : Nat → Nat} {l : List α}

theorem undealt_sublist : (undealt w taken l).Sublist l := by
  have hfilter : (l.zipIdx.filter fun x => taken (x.2 % w) ≤ x.2 / w).Sublist l.zipIdx := List.filter_sublist
  have hmap := hfilter.map Prod.fst
  rwa [List.zipIdx_map_fst] at hmap

theorem undealt_concat (x : α) :
    undealt w taken (l ++ [x]) =
      undealt w taken l ++ if taken (l.length % w) ≤ l.length / w then [x] else [] := by
  unfold undealt
  rw [List.zipIdx_append, List.filter_append, List.map_append]
  congr 1
  by_cases h : taken (l.length % w) ≤ l.length / w <;> simp [h]

theorem mem_undealt {x : α} : x ∈ undealt w taken l ↔ ∃ p, l[p]? = some x ∧ taken (p % w) ≤ p / w := by
  unfold undealt
  simp only [List.mem_map, List.mem_filter, decide_eq_true_eq, Prod.exists, exists_and_right, exists_eq_right,
    List.mem_zipIdx_iff_getElem?]

theorem mem_take_dealt {r k : Nat} (hw : 0 < w) {x : α} :
    x ∈ (dealt w r l).take k ↔ ∃ j < k, l[r + j * w]? = some x := by
  rw [List.mem_take_iff_getElem]
  constructor
  · rintro ⟨j, hj, rfl⟩
    have hj := lt_min_iff.mp hj
    refine ⟨j, hj.1, ?_⟩
    rw [← getElem?_dealt hw, List.getElem?_eq_getElem hj.2]
  · rintro ⟨j, hj, hx⟩
    rw [← getElem?_dealt hw] at hx
    obtain ⟨hlt, hx⟩ := List.getElem?_eq_some_iff.mp hx
    exact ⟨j, lt_min hj hlt, hx⟩

theorem taken_append_undealt (hw : 0 < w) (hl : l.Nodup) :
    (((List.range w).flatMap fun r => (dealt w r l).take (taken r)) ++ undealt w taken l).Perm l := by
  have hunique : ∀ {p q : Nat} {x : α}, l[p]? = some x → l[q]? = some x → p = q := by
    intro p q x hp hq
    obtain ⟨hlt, hpx⟩ := List.getElem?_eq_some_iff.mp hp
    exact (List.getElem?_inj hlt hl).mp (hp.trans hq.symm)
  refine (List.perm_ext_iff_of_nodup (List.nodup_append.mpr ⟨?_, ?_, ?_⟩) hl).mpr ?_
  · refine List.nodup_flatMap.mpr ⟨fun r _ => (hl.sublist dealt_sublist).sublist (List.take_sublist _ _), ?_⟩
    refine List.nodup_range.pairwise_of_forall_ne ?_
    intro r hr r' hr' hne x hx hx'
    obtain ⟨j, -, hj⟩ := (mem_take_dealt hw).mp hx
    obtain ⟨j', -, hj'⟩ := (mem_take_dealt hw).mp hx'
    have hpos := congrArg (· % w) (hunique hj hj')
    rw [List.mem_range] at hr hr'
    simp only [Nat.add_mul_mod_self_right, Nat.mod_eq_of_lt hr, Nat.mod_eq_of_lt hr'] at hpos
    exact hne hpos
  · exact hl.sublist undealt_sublist
  · rintro x hx y hy rfl
    obtain ⟨r, hr, hx⟩ := List.mem_flatMap.mp hx
    obtain ⟨j, hj, hjx⟩ := (mem_take_dealt hw).mp hx
    obtain ⟨p, hp, hle⟩ := mem_undealt.mp hy
    obtain rfl := hunique hjx hp
    rw [List.mem_range] at hr
    rw [Nat.add_mul_mod_self_right, Nat.mod_eq_of_lt hr, Nat.add_mul_div_right _ _ hw, Nat.div_eq_of_lt hr] at hle
    omega
  · intro x
    rw [List.mem_append, List.mem_flatMap, mem_undealt]
    constructor
    · rintro (⟨r, -, hx⟩ | ⟨p, hp, -⟩)
      · obtain ⟨j, -, hj⟩ := (mem_take_dealt hw).mp hx
        exact List.mem_of_getElem? hj
      · exact List.mem_of_getElem? hp
    · intro hx
      obtain ⟨p, hp⟩ := List.getElem?_of_mem hx
      by_cases hle : taken (p % w) ≤ p / w
      · exact .inr ⟨p, hp, hle⟩
      · refine .inl ⟨p % w, List.mem_range.mpr (Nat.mod_lt _ hw), (mem_take_dealt hw).mpr ⟨p / w, by omega, ?_⟩⟩
        rw [Nat.mul_comm, Nat.mod_add_div]
        exact hp

end

end Ruda
