import Ruda.Lib.Exec
import Ruda.Lib.Machine
import Ruda.Lib.RangeSet

/-!
# Which bytes carry which failure

A translation of `memory_management/taint.rs` and of the carrier counter of
`error_graph.rs`. A `Taint` lists, per unresolved failure, the byte ranges of an
allocation that the failure left unwritten; a failure counts the tables that
carry it. Failure ids are minted under a lock from one counter, so an id stands
for one shared `ErrorGraph`. Byte offsets are `u64`, of which only the order is
used.
-/

namespace Ruda.Memory

abbrev FailureId := Nat
abbrev ByteRange := Range Nat

structure Tainted where
  failure : FailureId
  ranges : List ByteRange
  unallocated : Bool
  deriving DecidableEq

structure Taint where
  entries : List Tainted
  deriving DecidableEq

/-- `State::claimed` of every failure, a `u32`. -/
abbrev Claimed := FailureId → Nat

-- Range lists

/-- The `retain` of `add`: ranges that touch `new` are taken out and join it. -/
def fuse : List ByteRange → ByteRange → List ByteRange × ByteRange
  | [], new => ([], new)
  | held :: rest, new =>
    if held.start ≤ new.stop ∧ new.start ≤ held.stop then
      fuse rest { start := min new.start held.start, stop := max new.stop held.stop }
    else
      let (kept, new) := fuse rest new
      (held :: kept, new)

def add (ranges : List ByteRange) (new : ByteRange) : List ByteRange :=
  let (kept, new) := fuse ranges new
  insertRange new kept

def subtract : List ByteRange → ByteRange → List ByteRange
  | [], _ => []
  | held :: rest, cut =>
    if held.Meets cut then
      let left : ByteRange := { start := held.start, stop := min cut.start held.stop }
      let right : ByteRange := { start := max cut.stop held.start, stop := held.stop }
      if left.IsEmpty then
        if right.IsEmpty then subtract rest cut else right :: subtract rest cut
      else
        if right.IsEmpty then left :: subtract rest cut else left :: right :: subtract rest cut
    else held :: subtract rest cut

-- Carriers

def tag (failure : FailureId) : M Claimed Unit := do
  let claimed ← get
  if claimed failure + 1 ≤ u32Max then set (Function.update claimed failure (claimed failure + 1))
  else M.panic "too many failure carriers"

def untag (failure : FailureId) : M Claimed Unit := do
  let claimed ← get
  if claimed failure = 0 then M.panic "failure carrier released twice"
  else set (Function.update claimed failure (claimed failure - 1))

/-- `entries.retain_mut(..)`: every closure changes an entry and then keeps it if
it is unallocated or still has ranges; dropping an entry untags its failure. -/
def retainMut (change : Tainted → Tainted) : List Tainted → M Claimed (List Tainted)
  | [] => pure []
  | entry :: entries => do
    let entry := change entry
    if entry.unallocated ∨ entry.ranges ≠ [] then
      let rest ← retainMut change entries
      pure (entry :: rest)
    else
      untag entry.failure
      retainMut change entries

namespace Taint

def addTo (range : ByteRange) (failure : FailureId) : List Tainted → List Tainted
  | [] => []
  | entry :: entries =>
    if entry.failure = failure then { entry with ranges := add entry.ranges range } :: entries
    else entry :: addTo range failure entries

def claim (taint : Taint) (range : ByteRange) (failure : FailureId) : M Claimed Taint :=
  if range.IsEmpty then pure taint
  else do
    let entries ← retainMut (fun entry =>
      if entry.failure ≠ failure then { entry with ranges := subtract entry.ranges range }
      else entry) taint.entries
    if entries.any (fun entry => entry.failure = failure) then
      pure { entries := addTo range failure entries }
    else do
      tag failure
      pure { entries := entries ++ [{ failure, ranges := [range], unallocated := false }] }

def claimUnallocated (taint : Taint) (failure : FailureId) : M Claimed Taint := do
  taint.entries.forM fun entry => untag entry.failure
  tag failure
  pure { entries := [{ failure, ranges := [], unallocated := true }] }

def clearUnallocated (taint : Taint) : M Claimed Taint := do
  let entries ← retainMut (fun entry => { entry with unallocated := false }) taint.entries
  pure { entries }

def failures (taint : Taint) (range : ByteRange) : List FailureId :=
  (taint.entries.filter fun entry =>
    entry.unallocated || entry.ranges.any fun held => held.Meets range).map Tainted.failure

def written (taint : Taint) (range : ByteRange) : M Claimed Taint :=
  if range.IsEmpty then pure taint
  else do
    let entries ← retainMut (fun entry => { entry with ranges := subtract entry.ranges range })
      taint.entries
    pure { entries }

def release (taint : Taint) (range : ByteRange) (failure : FailureId) : M Claimed Taint := do
  let entries ← retainMut (fun entry =>
    if entry.failure = failure then
      { entry with ranges := subtract entry.ranges range, unallocated := false }
    else entry) taint.entries
  pure { entries }

/-- Dropping the table drops its entries. -/
def drop (taint : Taint) : M Claimed Unit := taint.entries.forM fun entry => untag entry.failure

end Taint

-- Range lists denote sets

section
variable {l : List ByteRange} {new cut : ByteRange} {x : Nat}

theorem fuse_of_before (h : ∀ r ∈ l, new.Before r) : fuse l new = (l, new) := by
  induction l with
  | nil => rfl
  | cons held rest ih =>
    have hgap : new.Before held := h held (by simp)
    have hno : ¬(held.start ≤ new.stop ∧ new.start ≤ held.stop) := fun hc =>
      absurd hgap (not_lt.mpr hc.1)
    rw [fuse, if_neg hno, ih fun r hr => h r (List.mem_cons_of_mem _ hr)]

theorem lt_fuse_start {a : Nat} (hnew : a < new.start) (h : ∀ r ∈ l, a < r.start) :
    a < (fuse l new).2.start := by
  induction l generalizing new with
  | nil => exact hnew
  | cons held rest ih =>
    have hrest : ∀ r ∈ rest, a < r.start := fun r hr => h r (List.mem_cons_of_mem _ hr)
    rw [fuse]
    split
    · exact ih (lt_min hnew (h held (by simp))) hrest
    · exact ih hnew hrest

/-- What `fuse` returns: some of the ranges, and one that touches none of them
and covers all that went in. -/
structure Fused (l : List ByteRange) (new : ByteRange) (kept : List ByteRange) (joined : ByteRange) :
    Prop where
  sublist : kept.Sublist l
  nonempty : joined.start < joined.stop
  free : ∀ r ∈ kept, r.Before joined ∨ joined.Before r
  covers : ∀ x, (x ∈ joined ∨ Covers kept x) ↔ (x ∈ new ∨ Covers l x)

theorem fuse_fused (h : Apart l) (hnew : new.start < new.stop) :
    Fused l new (fuse l new).1 (fuse l new).2 := by
  induction l generalizing new with
  | nil => exact ⟨.slnil, hnew, by simp [fuse], by simp [fuse]⟩
  | cons held rest ih =>
    obtain ⟨hheld, hbefore, hrest⟩ := apart_cons.mp h
    by_cases hc : held.start ≤ new.stop ∧ new.start ≤ held.stop
    · rw [fuse, if_pos hc]
      have hhull : min new.start held.start < max new.stop held.stop := by simp [hnew]
      obtain ⟨hsub, hne, hfree, hcov⟩ := ih hrest (show (Range.mk _ _).start < (Range.mk _ _).stop from hhull)
      refine ⟨hsub.cons _, hne, hfree, fun x => (hcov x).trans ?_⟩
      rw [Range.mem_hull hc.1 hc.2, covers_cons]
      tauto
    · rw [fuse, if_neg hc]
      obtain ⟨hsub, hne, hfree, hcov⟩ := ih hrest hnew
      refine ⟨hsub.cons_cons _, hne, ?_, fun x => ?_⟩
      · intro r hr
        rcases List.mem_cons.mp hr with rfl | hr
        · rcases Classical.em (new.stop < r.start) with hleft | hleft
          · -- `new` lies before this range, hence before the rest
            have hall : ∀ r' ∈ rest, new.Before r' := fun r' hr' =>
              hleft.trans (hheld.trans (hbefore r' hr'))
            rw [fuse_of_before hall]
            exact .inr hleft
          · have hright : r.stop < new.start := not_le.mp fun hle => hc ⟨not_lt.mp hleft, hle⟩
            exact .inl (lt_fuse_start hright hbefore)
        · exact hfree r hr
      · have := hcov x
        rw [covers_cons, covers_cons]
        tauto

theorem apart_add (h : Apart l) (hnew : new.start < new.stop) : Apart (add l new) := by
  have hf := fuse_fused h hnew
  exact (h.sublist hf.sublist).insertRange hf.nonempty hf.free

theorem covers_add (h : Apart l) (hnew : new.start < new.stop) :
    Covers (add l new) x ↔ x ∈ new ∨ Covers l x :=
  covers_insertRange.trans ((fuse_fused h hnew).covers x)

theorem covers_subtract : Covers (subtract l cut) x ↔ Covers l x ∧ x ∉ cut := by
  induction l with
  | nil => simp [subtract]
  | cons held rest ih =>
    have hpiece : (x ∈ (⟨held.start, min cut.start held.stop⟩ : ByteRange) ∨
        x ∈ (⟨max cut.stop held.start, held.stop⟩ : ByteRange)) ↔ x ∈ held ∧ x ∉ cut := by
      simp only [Range.mem_iff]
      omega
    rw [subtract, covers_cons]
    split
    · -- an empty piece covers nothing, so it may be left out
      dsimp only
      split_ifs with hl hr hr <;> simp only [covers_cons, ih]
      · have := hl.not_mem x
        have := hr.not_mem x
        tauto
      · have := hl.not_mem x
        tauto
      · have := hr.not_mem x
        tauto
      · tauto
    · next hmeets =>
      have hout : x ∈ held → x ∉ cut := fun hx hx' => hmeets (Range.meets_iff.mpr ⟨x, hx, hx'⟩)
      rw [covers_cons, ih]
      tauto

theorem mem_subtract {r : ByteRange} (h : r ∈ subtract l cut) :
    ∃ held ∈ l, held.start ≤ r.start ∧ r.stop ≤ held.stop := by
  induction l with
  | nil => simp [subtract] at h
  | cons held rest ih =>
    have hrest : r ∈ subtract rest cut → ∃ held' ∈ held :: rest, held'.start ≤ r.start ∧ r.stop ≤ held'.stop := by
      intro hr
      obtain ⟨held', hm, hle⟩ := ih hr
      exact ⟨held', List.mem_cons_of_mem _ hm, hle⟩
    have hleft : r = ⟨held.start, min cut.start held.stop⟩ →
        ∃ held' ∈ held :: rest, held'.start ≤ r.start ∧ r.stop ≤ held'.stop := by
      rintro rfl
      exact ⟨held, by simp, le_rfl, min_le_right _ _⟩
    have hright : r = ⟨max cut.stop held.start, held.stop⟩ →
        ∃ held' ∈ held :: rest, held'.start ≤ r.start ∧ r.stop ≤ held'.stop := by
      rintro rfl
      exact ⟨held, by simp, le_max_right _ _, le_rfl⟩
    rw [subtract] at h
    split at h
    · dsimp only at h
      split_ifs at h
      · exact hrest h
      · exact (List.mem_cons.mp h).elim hright hrest
      · exact (List.mem_cons.mp h).elim hleft hrest
      · exact (List.mem_cons.mp h).elim hleft fun h => (List.mem_cons.mp h).elim hright hrest
    · rcases List.mem_cons.mp h with rfl | h
      · exact ⟨r, by simp, le_rfl, le_rfl⟩
      · exact hrest h

theorem apart_subtract (h : Apart l) : Apart (subtract l cut) := by
  induction l with
  | nil => exact apart_nil
  | cons held rest ih =>
    obtain ⟨hheld, hbefore, hrest⟩ := apart_cons.mp h
    have ih := ih hrest
    -- whatever stops with `held` lies before what is left of the rest
    have hnext : ∀ r : ByteRange, r.stop ≤ held.stop → ∀ r' ∈ subtract rest cut, r.Before r' := by
      intro r hr r' hr'
      obtain ⟨held', hm, hle, -⟩ := mem_subtract hr'
      exact hr.trans_lt ((hbefore held' hm).trans_le hle)
    rw [subtract]
    split
    · next hmeets =>
      have hcut : cut.start < cut.stop :=
        (le_max_right _ _).trans_lt (hmeets.trans_le (min_le_right _ _))
      dsimp only
      split_ifs with hl hr hr
      · exact ih
      · exact apart_cons.mpr ⟨not_not.mp hr, hnext _ le_rfl, ih⟩
      · exact apart_cons.mpr ⟨not_not.mp hl, hnext _ (min_le_right _ _), ih⟩
      · refine apart_cons.mpr ⟨not_not.mp hl, ?_, apart_cons.mpr ⟨not_not.mp hr, hnext _ le_rfl, ih⟩⟩
        intro r hr'
        rcases List.mem_cons.mp hr' with rfl | hr'
        · exact (min_le_left _ _).trans_lt (hcut.trans_le (le_max_left _ _))
        · exact hnext _ (min_le_right _ _) r hr'
    · exact apart_cons.mpr ⟨hheld, hnext held le_rfl, ih⟩

end

end Ruda.Memory
