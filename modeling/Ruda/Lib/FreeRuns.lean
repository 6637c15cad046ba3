import Mathlib

/-!
# Runs of free blocks

A region cut into blocks, each free or in use. `joined` merges every run of free
blocks into one; `scan` looks for a run of a given size without merging. Both see
the same runs, except that a scan for nothing succeeds on any block.
-/

namespace Ruda

structure Block where
  free : Bool
  size : Nat
  deriving DecidableEq, Repr

/-- Put `b` before blocks that are already merged. -/
def Block.join (b : Block) : List Block → List Block
  | [] => [b]
  | c :: rest => if b.free && c.free then ⟨true, b.size + c.size⟩ :: rest else b :: c :: rest

def joined : List Block → List Block
  | [] => []
  | b :: rest => b.join (joined rest)

/-- Whether some run of free blocks, of which `held` is already counted, reaches `needed`. -/
def scan (needed : Nat) : Nat → List Block → Bool
  | _, [] => false
  | held, b :: rest =>
    let held := if b.free then held + b.size else 0
    if needed ≤ held then true else scan needed held rest

/-- No two neighbours are both free. -/
def Spaced (blocks : List Block) : Prop := blocks.IsChain fun b c => ¬(b.free = true ∧ c.free = true)

variable {blocks : List Block} {b c : Block} {needed held : Nat}

theorem spaced_cons_cons : Spaced (b :: c :: blocks) ↔ ¬(b.free = true ∧ c.free = true) ∧ Spaced (c :: blocks) :=
  List.isChain_cons_cons

@[simp] theorem joined_nil : joined [] = [] := rfl
theorem joined_cons : joined (b :: blocks) = b.join (joined blocks) := rfl

theorem Block.join_live (h : b.free = false) (l : List Block) : b.join l = b :: l := by
  cases l with
  | nil => rfl
  | cons c rest => simp [Block.join, h]

theorem joined_live (h : b.free = false) : joined (b :: blocks) = b :: joined blocks := by
  rw [joined_cons, b.join_live h]

theorem Block.join_before_live (hc : c.free = false) (l : List Block) : b.join (c :: l) = b :: c :: l := by
  simp [Block.join, hc]

theorem Block.join_join (hb : b.free = true) (hc : c.free = true) (l : List Block) :
    b.join (c.join l) = (⟨true, b.size + c.size⟩ : Block).join l := by
  cases l with
  | nil => simp [Block.join, hb, hc]
  | cons d rest =>
    cases hd : d.free <;> simp [Block.join, hb, hc, hd, Nat.add_assoc]

theorem joined_free_free (hb : b.free = true) (hc : c.free = true) :
    joined (b :: c :: blocks) = joined (⟨true, b.size + c.size⟩ :: blocks) := by
  simp only [joined_cons]
  exact Block.join_join hb hc _

theorem Block.join_free_free (hb : b.free = true) (hc : c.free = true) (l : List Block) :
    b.join (c :: l) = ⟨true, b.size + c.size⟩ :: l := by
  simp [Block.join, hb, hc]

theorem Block.join_fits (hb : b.free = true) (hfit : needed ≤ b.size) (l : List Block) :
    ∃ c ∈ b.join l, c.free = true ∧ needed ≤ c.size := by
  cases l with
  | nil => exact ⟨b, List.mem_singleton_self b, hb, hfit⟩
  | cons c rest =>
    cases hc : c.free with
    | true =>
      rw [Block.join_free_free hb hc]
      exact ⟨_, List.mem_cons_self, rfl, Nat.le_add_right_of_le hfit⟩
    | false =>
      rw [Block.join_before_live hc]
      exact ⟨b, List.mem_cons_self, hb, hfit⟩

theorem Block.join_ne_nil (b : Block) (l : List Block) : b.join l ≠ [] := by
  cases l with
  | nil => simp [Block.join]
  | cons c rest =>
    by_cases hfree : b.free && c.free <;> simp [Block.join, hfree]

theorem spaced_join (h : Spaced blocks) : Spaced (b.join blocks) := by
  cases blocks with
  | nil => exact List.isChain_singleton b
  | cons c rest =>
    by_cases hfree : b.free = true ∧ c.free = true
    · rw [Block.join_free_free hfree.1 hfree.2]
      cases rest with
      | nil => exact List.isChain_singleton _
      | cons d rest =>
        obtain ⟨hcd, hrest⟩ := spaced_cons_cons.mp h
        exact spaced_cons_cons.mpr ⟨fun hd => hcd ⟨hfree.2, hd.2⟩, hrest⟩
    · have hkeep : b.join (c :: rest) = b :: c :: rest := by simpa [Block.join] using hfree
      rw [hkeep]
      exact spaced_cons_cons.mpr ⟨hfree, h⟩

theorem spaced_joined (blocks : List Block) : Spaced (joined blocks) := by
  induction blocks with
  | nil => exact List.isChain_nil
  | cons b blocks ih => exact spaced_join ih

theorem joined_eq_self (h : Spaced blocks) : joined blocks = blocks := by
  induction blocks with
  | nil => rfl
  | cons b blocks ih =>
    rw [joined_cons, ih (List.IsChain.tail h)]
    cases blocks with
    | nil => rfl
    | cons c rest =>
      have hbc := (spaced_cons_cons.mp h).1
      simp only [Block.join, Bool.and_eq_true, if_neg hbc]

theorem Block.exists_free_join (b : Block) (l : List Block) :
    (∃ c ∈ b.join l, c.free = true) ↔ b.free = true ∨ ∃ c ∈ l, c.free = true := by
  cases l with
  | nil => simp [Block.join]
  | cons c rest =>
    by_cases hfree : b.free = true ∧ c.free = true
    · rw [Block.join_free_free hfree.1 hfree.2]
      simp [hfree.1]
    · have hkeep : b.join (c :: rest) = b :: c :: rest := by simpa [Block.join] using hfree
      simp [hkeep]

theorem exists_free_joined (blocks : List Block) :
    (∃ b ∈ joined blocks, b.free = true) ↔ ∃ b ∈ blocks, b.free = true := by
  induction blocks with
  | nil => rfl
  | cons b rest ih =>
    rw [joined_cons, Block.exists_free_join, ih]
    simp

theorem joined_empty_front (hneeded : 0 < needed) :
    (∃ b ∈ joined (⟨true, 0⟩ :: blocks), b.free = true ∧ needed ≤ b.size) ↔
      ∃ b ∈ joined blocks, b.free = true ∧ needed ≤ b.size := by
  rw [joined_cons]
  cases joined blocks with
  | nil =>
    refine ⟨?_, nofun⟩
    rintro ⟨b, hb, -, hsize⟩
    obtain rfl := List.mem_singleton.mp hb
    exact absurd hsize (by simpa using hneeded.ne')
  | cons c rest =>
    cases hc : c.free with
    | true =>
      obtain ⟨free, size⟩ := c
      obtain rfl : free = true := hc
      simp [Block.join]
    | false => simp [Block.join_before_live hc, hc, hneeded.ne']

theorem scan_iff (hheld : held < needed) :
    scan needed held blocks = true ↔ ∃ b ∈ joined (⟨true, held⟩ :: blocks), b.free = true ∧ needed ≤ b.size := by
  induction blocks generalizing held with
  | nil => simp [scan, joined_cons, Block.join, Nat.not_le.mpr hheld]
  | cons b rest ih =>
    cases hb : b.free with
    | true =>
      rw [joined_free_free rfl hb, scan, if_pos hb]
      by_cases hfit : needed ≤ held + b.size
      · rw [if_pos hfit, eq_self, true_iff]
        exact Block.join_fits rfl hfit _
      · rw [if_neg hfit]
        exact ih (Nat.not_le.mp hfit)
    | false =>
      have hpos : 0 < needed := Nat.zero_lt_of_lt hheld
      have hstep : scan needed held (b :: rest) = scan needed 0 rest := by simp [scan, hb, hpos.ne']
      rw [hstep, ih hpos, joined_empty_front hpos, joined_cons, joined_live hb, Block.join_before_live hb]
      simp [hb, Nat.not_le.mpr hheld]

theorem scan_pos (hneeded : 0 < needed) :
    scan needed 0 blocks = true ↔ ∃ b ∈ joined blocks, b.free = true ∧ needed ≤ b.size :=
  (scan_iff hneeded).trans (joined_empty_front hneeded)

theorem scan_zero (hne : blocks ≠ []) : scan 0 held blocks = true := by
  cases blocks with
  | nil => exact absurd rfl hne
  | cons b rest => simp [scan]

end Ruda
