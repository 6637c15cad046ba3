import Mathlib.Data.List.Basic

/-!
# Concatenated rows

Where the elements of a row stand when the rows of a list are written one after
the other.
-/

namespace Ruda

variable {α β : Type}

theorem getElem?_flatMap (f : α → List β) {l : List α} {j d : Nat} {x : α} {v : β}
    (hx : l[j]? = some x) (hv : (f x)[d]? = some v) :
    (l.flatMap f)[((l.take j).flatMap f).length + d]? = some v := by
  obtain ⟨hj, rfl⟩ := List.getElem?_eq_some_iff.mp hx
  obtain ⟨hd, -⟩ := List.getElem?_eq_some_iff.mp hv
  have hsplit : l = l.take j ++ l[j] :: l.drop (j + 1) := by simp
  have hflat : l.flatMap f = (l.take j).flatMap f ++ (f l[j] ++ (l.drop (j + 1)).flatMap f) := by
    rw [← List.flatMap_cons, ← List.flatMap_append, ← hsplit]
  rw [hflat, List.getElem?_append_right (Nat.le_add_right _ _), Nat.add_sub_cancel_left,
    List.getElem?_append_left hd, hv]

theorem length_flatMap_uniform {f : α → List β} {l : List α} {w : Nat} (hw : ∀ x ∈ l, (f x).length = w) :
    (l.flatMap f).length = l.length * w := by
  induction l with
  | nil => simp
  | cons x l ih =>
    rw [List.flatMap_cons, List.length_append, hw x (by simp), ih fun y hy => hw y (List.mem_cons_of_mem _ hy),
      List.length_cons, Nat.succ_mul, Nat.add_comm]

theorem getElem?_flatMap_uniform {f : α → List β} {l : List α} {w j d : Nat} {x : α} {v : β}
    (hw : ∀ x ∈ l, (f x).length = w) (hx : l[j]? = some x) (hv : (f x)[d]? = some v) :
    (l.flatMap f)[j * w + d]? = some v := by
  obtain ⟨hj, -⟩ := List.getElem?_eq_some_iff.mp hx
  have hlen : ((l.take j).flatMap f).length = j * w := by
    rw [length_flatMap_uniform fun x hx => hw x (List.mem_of_mem_take hx), List.length_take, Nat.min_eq_left (Nat.le_of_lt hj)]
  rw [← hlen]
  exact getElem?_flatMap f hx hv

end Ruda
