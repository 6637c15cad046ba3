import Mathlib

/-!
# Cycles as lists

A cycle is written as a list from any of its places, in either direction. Its edges go from each
element to the next one, and from the last one to the first. With a first element fixed, the
smaller of the two directions stands for the cycle.
-/

namespace Ruda

variable {α : Type} {l l' : List α} {a : α}

def cycleEdges (l : List α) : List (α × α) := l.zip (l.rotate 1)

/-- The same cycle, from another place or in the other direction. -/
def SameCycle (l l' : List α) : Prop := l.IsRotated l' ∨ l.reverse.IsRotated l'

/-- The other direction, from the same first element. -/
def turned (l : List α) : List α := l.take 1 ++ (l.drop 1).reverse

theorem cycleEdges_cons (a : α) (l : List α) : cycleEdges (a :: l) = (a :: l).zip (l ++ [a]) := by
  rw [cycleEdges, List.rotate_cons_succ, List.rotate_zero]

theorem cycleEdges_perm (h : l.IsRotated l') : (cycleEdges l).Perm (cycleEdges l') := by
  obtain ⟨n, rfl⟩ := h
  have hrotate : cycleEdges (l.rotate n) = (cycleEdges l).rotate n := by
    rw [cycleEdges, cycleEdges, List.zip, List.zipWith_rotate_distrib _ _ _ _ (List.length_rotate l 1).symm, List.rotate_rotate,
      List.rotate_rotate, Nat.add_comm]
  rw [hrotate]
  exact (List.rotate_perm _ n).symm

theorem turned_cons (a : α) (l : List α) : turned (a :: l) = a :: l.reverse := rfl

theorem turned_turned (l : List α) : turned (turned l) = l := by
  cases l with
  | nil => rfl
  | cons a l => rw [turned_cons, turned_cons, List.reverse_reverse]

theorem turned_isRotated (l : List α) : l.reverse.IsRotated (turned l) := by
  cases l with
  | nil => exact .refl _
  | cons a l =>
    rw [List.reverse_cons]
    exact List.isRotated_append

theorem turned_perm (l : List α) : (turned l).Perm l := (turned_isRotated l).perm.symm.trans (List.reverse_perm l)

theorem cycleEdges_turned (l : List α) : cycleEdges (turned l) = (cycleEdges l).reverse.map Prod.swap := by
  cases l with
  | nil => rfl
  | cons a l =>
    have hreverse : ((a :: l).zip (l ++ [a])).reverse = (a :: l).reverse.zip (l ++ [a]).reverse :=
      List.reverse_zipWith (by simp)
    rw [turned_cons, cycleEdges_cons, cycleEdges_cons, hreverse, List.zip_swap, List.reverse_append, List.reverse_singleton,
      List.singleton_append, List.reverse_cons]

theorem SameCycle.edges (h : SameCycle l l') :
    (cycleEdges l).Perm (cycleEdges l') ∨ ((cycleEdges l).map Prod.swap).Perm (cycleEdges l') := by
  refine h.imp cycleEdges_perm fun h => ?_
  have hturned := cycleEdges_perm ((turned_isRotated l).symm.trans h)
  rw [cycleEdges_turned] at hturned
  exact (List.Perm.map _ (List.reverse_perm _).symm).trans hturned

theorem SameCycle.perm (h : SameCycle l l') : l.Perm l' :=
  h.elim List.IsRotated.perm fun h => (List.reverse_perm l).symm.trans h.perm

theorem sameCycle_turned (l : List α) : SameCycle l (turned l) := .inr (turned_isRotated l)

theorem eq_of_isRotated (hnodup : (a :: l).Nodup) (h : (a :: l).IsRotated (a :: l')) : l = l' := by
  obtain ⟨n, heq⟩ := h
  rw [← List.rotate_mod] at heq
  have hlt : n % (a :: l).length < (a :: l).length := Nat.mod_lt _ (Nat.succ_pos _)
  have hhead := List.head?_rotate hlt
  rw [heq, List.head?_cons, List.getElem?_eq_getElem hlt] at hhead
  have hzero : n % (a :: l).length = 0 :=
    (List.Nodup.getElem_inj_iff hnodup).mp ((Option.some.inj hhead).symm.trans (List.getElem_cons_zero _ _ (Nat.succ_pos _)).symm)
  rw [hzero, List.rotate_zero] at heq
  exact (List.cons.inj heq).2

theorem SameCycle.eq_of_canonical [LinearOrder α] (h : SameCycle (a :: l) (a :: l')) (hnodup : (a :: l).Nodup)
    (hle : a :: l ≤ turned (a :: l)) (hle' : a :: l' ≤ turned (a :: l')) : a :: l = a :: l' := by
  rcases h with h | h
  · rw [eq_of_isRotated hnodup h]
  · have hturned : a :: l' = turned (a :: l) := by
      have hrotated := (turned_isRotated (a :: l)).symm.trans h
      have hnodup' : (a :: l.reverse).Nodup := (turned_perm (a :: l)).nodup_iff.mpr hnodup
      rw [turned_cons] at hrotated ⊢
      rw [eq_of_isRotated hnodup' hrotated]
    rw [hturned, turned_turned] at hle'
    exact le_antisymm (hturned ▸ hle) (hturned ▸ hle')

end Ruda
