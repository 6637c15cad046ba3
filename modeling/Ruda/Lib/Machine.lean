import Ruda.Lib.OrdMap

/-!
# Machine integers and standard collections

The parts of Rust's integers and collections that code in this development
relies on: checked and wrapping arithmetic at fixed widths, `pop_first`,
`div_ceil`, ranges of a slice.
-/

namespace Ruda

def u16Max : Nat := 2 ^ 16 - 1
def u32Max : Nat := 2 ^ 32 - 1
def u64Max : Nat := 2 ^ 64 - 1
/-- Targets are 64-bit. -/
def usizeMax : Nat := u64Max

theorem one_le_usizeMax : 1 ≤ usizeMax := by decide
theorem two_le_usizeMax : 2 ≤ usizeMax := by decide
theorem eight_le_usizeMax : 8 ≤ usizeMax := by decide
theorem ten_le_usizeMax : 10 ≤ usizeMax := by decide

/-- An unchecked `u32` result, as release builds compute it. -/
def wrap32 (n : Nat) : Nat := n % 2 ^ 32

theorem wrap32_of_le (h : n ≤ u32Max) : wrap32 n = n :=
  Nat.mod_eq_of_lt (by unfold u32Max at h; omega)

theorem wrap32_succ (n : Nat) : wrap32 (wrap32 n + 1) = wrap32 (n + 1) := by
  rw [wrap32, wrap32, Nat.mod_add_mod]
  rfl

/-- An unchecked `u64` or `usize` result. -/
def wrap64 (n : Nat) : Nat := n % 2 ^ 64

theorem wrap64_of_le (h : n ≤ u64Max) : wrap64 n = n :=
  Nat.mod_eq_of_lt (by unfold u64Max at h; omega)

/-- An unchecked `u64` or `usize` difference. -/
def wrapSub (a b : Nat) : Nat := wrap64 (a + 2 ^ 64 - b)

theorem wrapSub_of_le (ha : a ≤ u64Max) (h : b ≤ a) : wrapSub a b = a - b := by
  unfold u64Max at ha
  have he : a + 2 ^ 64 - b = a - b + 2 ^ 64 := by omega
  rw [wrapSub, wrap64, he, Nat.add_mod_right, Nat.mod_eq_of_lt (by omega)]

/-- `u64::checked_add` and `usize::checked_add`. -/
def checkedAdd (a b : Nat) : Option Nat := if a + b ≤ u64Max then some (a + b) else none

theorem checkedAdd_eq_some : checkedAdd a b = some c ↔ a + b ≤ u64Max ∧ c = a + b := by
  unfold checkedAdd
  split <;> simp_all [eq_comm]

theorem checkedAdd_le (h : checkedAdd a b = some c) : c ≤ u64Max := by
  obtain ⟨hle, rfl⟩ := checkedAdd_eq_some.mp h
  exact hle

theorem checkedAdd_of_le (h : a + b ≤ u64Max) : checkedAdd a b = some (a + b) := by
  simp [checkedAdd, h]

/-- `usize::checked_mul` -/
def checkedMul (a b : Nat) : Option Nat := if a * b ≤ u64Max then some (a * b) else none

theorem checkedMul_eq_some : checkedMul a b = some c ↔ a * b ≤ u64Max ∧ c = a * b := by
  unfold checkedMul
  split <;> simp_all [eq_comm]

/-- `a.div_ceil(b)` -/
def divCeil (a b : Nat) : Nat := (a + b - 1) / b

theorem divCeil_le_iff (hb : 0 < b) : divCeil a b ≤ n ↔ a ≤ n * b := by
  unfold divCeil
  rw [Nat.div_le_iff_le_mul_add_pred hb, Nat.mul_comm]
  omega

theorem lt_divCeil_iff (hb : 0 < b) : n < divCeil a b ↔ n * b < a := by
  rw [← Nat.not_le, divCeil_le_iff hb, Nat.not_le]

theorem divCeil_mono (hb : 0 < b) (h : a ≤ c) : divCeil a b ≤ divCeil c b := by
  rw [divCeil_le_iff hb]
  exact h.trans ((divCeil_le_iff hb).mp le_rfl)

theorem divCeil_mul (hb : 0 < b) : divCeil (n * b) b = n :=
  le_antisymm ((divCeil_le_iff hb).mpr le_rfl)
    (Nat.le_of_mul_le_mul_right ((divCeil_le_iff hb).mp le_rfl) hb)

@[simp] theorem divCeil_zero (hb : 0 < b) : divCeil 0 b = 0 := by
  simpa using divCeil_mul (n := 0) hb

theorem div_le_divCeil (hb : 0 < b) : a / b ≤ divCeil a b :=
  Nat.div_le_div_right (by omega)

/-- `BTreeSet::pop_first` -/
def popFirst (s : Finset Nat) : Option (Nat × Finset Nat) :=
  if h : s.Nonempty then some (s.min' h, s.erase (s.min' h)) else none

theorem popFirst_eq_some {s : Finset Nat} (h : popFirst s = some (p, t)) :
    p ∈ s ∧ t = s.erase p := by
  unfold popFirst at h
  split at h
  · cases h
    exact ⟨Finset.min'_mem _ _, rfl⟩
  · cases h

theorem popFirst_eq_none {s : Finset Nat} : popFirst s = none ↔ s = ∅ := by
  unfold popFirst
  split
  · next h => simp [h.ne_empty]
  · next h => simpa using h

/-- `BTreeMap::pop_first` -/
def BTreeMap.popFirst (m : BTreeMap ν) : Option ((Nat × ν) × BTreeMap ν) :=
  m.toList.head?.map fun e => (e, m.erase e.1)

theorem BTreeMap.popFirst_eq_some {m : BTreeMap ν} (h : m.popFirst = some ((k, v), t)) :
    m[k]? = some v ∧ t = m.erase k := by
  simp only [BTreeMap.popFirst, Option.map_eq_some_iff] at h
  obtain ⟨⟨k', v'⟩, hh, he⟩ := h
  cases he
  exact ⟨(BTreeMap.mem_toList m _ _).mp (List.mem_of_mem_head? hh), rfl⟩

theorem BTreeMap.popFirst_eq_none {m : BTreeMap ν} : m.popFirst = none ↔ m.size = 0 := by
  rw [← Std.ExtTreeMap.length_toList]
  simp only [BTreeMap.popFirst, Option.map_eq_none_iff, List.head?_eq_none_iff,
    List.length_eq_zero_iff]

/-- `Iterator::max_by`: the last of the greatest elements. -/
def maxBy (cmp : α → α → Ordering) : List α → Option α
  | [] => none
  | x :: xs => some (xs.foldl (fun best y => if cmp best y = .gt then best else y) x)

theorem maxBy_mem {cmp : α → α → Ordering} {l : List α} (h : maxBy cmp l = some x) : x ∈ l := by
  have hfold : ∀ (l : List α) (a : α),
      l.foldl (fun best y => if cmp best y = .gt then best else y) a ∈ a :: l := by
    intro l
    induction l with
    | nil => intro a; exact List.mem_singleton_self a
    | cons y ys ih =>
      intro a
      rw [List.foldl_cons]
      split
      · rcases List.mem_cons.mp (ih a) with he | hm
        · rw [he]; exact List.mem_cons_self
        · exact List.mem_cons_of_mem _ (List.mem_cons_of_mem _ hm)
      · exact List.mem_cons_of_mem _ (ih y)
  cases l with
  | nil => cases h
  | cons y ys =>
    cases h
    exact hfold ys y

theorem maxBy_eq_none {cmp : α → α → Ordering} {l : List α} : maxBy cmp l = none ↔ l = [] := by
  cases l <;> simp [maxBy]

theorem count_singleton_of_ne [DecidableEq α] {p q : α} (h : q ≠ p) : [p].count q = 0 :=
  List.count_eq_zero.mpr (by simpa using h)

/-- `&tokens[block * size..(block + 1) * size]` -/
def blockOf (tokens : List α) (size block : Nat) : List α := (tokens.drop (block * size)).take size

theorem blockOf_length {tokens : List α} (h : (block + 1) * size ≤ tokens.length) :
    (blockOf tokens size block).length = size := by
  simp only [blockOf, List.length_take, List.length_drop]
  have : (block + 1) * size = block * size + size := by ring
  omega

theorem take_succ_block (tokens : List α) (size block : Nat) :
    tokens.take ((block + 1) * size) = tokens.take (block * size) ++ blockOf tokens size block := by
  rw [Nat.succ_mul, List.take_add]
  rfl

end Ruda
