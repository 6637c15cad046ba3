import Ruda.Passes.Composite
import Mathlib.Data.List.Sort

/-!
# Groups of component writes

The groups that are merged in a block, and what one merge does to its runs. A merged group
is right when it has every component once and nothing else touches the local, or writes
what is written to it, from the first of its writes to the last.
-/

namespace Ruda.BasicBlock

variable {E C O V W : Type} [AsU32 C]

-- The groups of a block

/-- What the pass makes of `assigns` at a place, which the merges before it have no part in. -/
def record (idx : Nat) (inst : Instruction E C O) (assigns : Id → List (Assignment E C)) :
    Id → List (Assignment E C) :=
  let assigns := resetReads inst.operation assigns
  match componentWrite inst with
  | none => assigns
  | some (id, item, index, value) =>
    if item.vectorSize > 1 then
      let pending := assigns id ++ [⟨idx, index, value⟩]
      Function.update assigns id (if pending.length = item.vectorSize then [] else pending)
    else assigns

/-- The component writes that are pending in front of a place. -/
def pendingAt (block : Ops E C O) : Nat → Id → List (Assignment E C)
  | 0 => fun _ => []
  | idx + 1 =>
    match block[idx]? with
    | some (some inst) => record idx inst (pendingAt block idx)
    | _ => pendingAt block idx

/-- `group` has as many component writes of the local as it has components, the last at `last`. -/
def Merged (block : Ops E C O) (last : Nat) (id : Id) (item : Ty E) (group : List (Assignment E C)) : Prop :=
  ∃ inst index value, block[last]? = some (some inst) ∧ componentWrite inst = some (id, item, index, value) ∧
    1 < item.vectorSize ∧ group = resetReads inst.operation (pendingAt block last) id ++ [⟨last, index, value⟩] ∧
    group.length = item.vectorSize

/-- Every component is written once, and nothing else in between touches the local or writes
one of the values. -/
structure Consecutive (block : Ops E C O) (last : Nat) (id : Id) (item : Ty E) (group : List (Assignment E C)) :
    Prop where
  components : (group.map (·.index)).Perm (List.range item.vectorSize)
  alone : ∀ idx inst, block[idx]? = some (some inst) → idx < last → (∃ a ∈ group, a.idx < idx) →
    (∀ a ∈ group, a.idx ≠ idx) →
    ¬inst.reads (.localMut id) ∧ ¬inst.writes (.localMut id) ∧ ∀ a ∈ group, ¬inst.writes a.value.kind

structure Mergeable (block : Ops E C O) : Prop where
  groups : ∀ last id item group, Merged block last id item group → Consecutive block last id item group
  scalars : ∀ (idx : Nat) (inst : Instruction E C O) id item index value, block[idx]? = some (some inst) →
    componentWrite inst = some (id, item, index, value) → item.vectorSize ≤ 1 → index = 0

/-- The blocks end in the same state, and whatever reads a local reads the same of it. -/
structure Keeps [DecidableEq C] (m : Semantics E C O V W) (block ops : Ops E C O) : Prop where
  run : ∀ s, m.run ops s = m.run block s
  reads : ∀ idx inst id, block[idx]? = some (some inst) → inst.reads (.localMut id) →
    ops[idx]? = some (some inst) ∧
      ∀ s, (m.before ops idx s).value (.localMut id) = (m.before block idx s).value (.localMut id)

-- Component writes

theorem componentWrite_eq {inst : Instruction E C O} {id : Id} {item : Ty E} {index : Nat} {value : Variable E C}
    (h : componentWrite inst = some (id, item, index, value)) :
    ∃ i const, inst = ⟨.indexAssign i value, some ⟨.localMut id, item⟩⟩ ∧ i.asConst = some const ∧
      index = AsU32.asU32 const ∧ value.isImmutable := by
  obtain ⟨operation, out⟩ := inst
  unfold componentWrite at h
  split at h
  · rename_i i x id' item' hop hout
    split at h
    · rename_i hx
      obtain ⟨const, hc, he⟩ := Option.map_eq_some_iff.mp h
      simp only [Prod.mk.injEq] at he
      obtain ⟨rfl, rfl, rfl, rfl⟩ := he
      simp only at hop hout
      exact ⟨i, const, by rw [hop, hout], hc, rfl, hx⟩
    · cases h
  · cases h

theorem componentWrite_reads {inst : Instruction E C O} {id : Id} {item : Ty E} {index : Nat} {value : Variable E C}
    (h : componentWrite inst = some (id, item, index, value)) (other : Id) : ¬inst.reads (.localMut other) := by
  obtain ⟨i, const, rfl, hc, -, hx⟩ := componentWrite_eq h
  rintro ⟨var, hvar, hk⟩
  simp only [Operation.args, List.mem_cons, List.not_mem_nil, or_false] at hvar
  rcases hvar with rfl | rfl
  · exact Variable.asConst_ne hc _ hk
  · exact Variable.isImmutable_ne hx _ hk

theorem componentWrite_writes {inst : Instruction E C O} {id : Id} {item : Ty E} {index : Nat}
    {value : Variable E C} (h : componentWrite inst = some (id, item, index, value)) {kind : VariableKind C} :
    inst.writes kind ↔ kind = .localMut id := by
  obtain ⟨i, const, rfl, -⟩ := componentWrite_eq h
  simp [Instruction.writes, eq_comm]

theorem exec_componentWrite [DecidableEq C] (m : Semantics E C O V W) {inst : Instruction E C O} {id : Id}
    {item : Ty E} {index : Nat} {value : Variable E C} (h : componentWrite inst = some (id, item, index, value))
    (s : State C V W) :
    m.exec inst s =
      ⟨Function.update s.value (.localMut id)
        (Function.update (s.value (.localMut id)) index (s.value value.kind 0)), s.world⟩ := by
  obtain ⟨i, const, rfl, hc, rfl, -⟩ := componentWrite_eq h
  simp only [Semantics.exec, Semantics.outValue, Semantics.worldAfter, Semantics.indexOf, hc, State.arg]

-- One merge

omit [AsU32 C] in
theorem sorted_getElem? {group : List (Assignment E C)} {n : Nat}
    (h : (group.map (·.index)).Perm (List.range n)) {a : Assignment E C} (ha : a ∈ group) :
    (group.mergeSort fun a b => a.index ≤ b.index)[a.index]? = some a := by
  have hperm : (group.mergeSort fun a b => a.index ≤ b.index).Perm group := List.mergeSort_perm _ _
  have hsorted : ((group.mergeSort fun a b => a.index ≤ b.index).map (·.index)).Pairwise (· ≤ ·) := by
    have hs := @List.pairwise_mergeSort _ (fun a b : Assignment E C => decide (a.index ≤ b.index))
      (fun a b c hab hbc => by simp only [decide_eq_true_eq] at *; omega)
      (fun a b => by simp only [Bool.or_eq_true, decide_eq_true_eq]; omega) group
    exact List.pairwise_map.mpr (hs.imp fun hab => of_decide_eq_true hab)
  have hrange : (group.mergeSort fun a b => a.index ≤ b.index).map (·.index) = List.range n :=
    ((hperm.map _).trans h).eq_of_pairwise (fun _ _ _ _ hab hba => le_antisymm hab hba) hsorted
      (List.pairwise_lt_range.imp le_of_lt)
  have hlt : a.index < n := List.mem_range.mp (h.mem_iff.mp (List.mem_map_of_mem ha))
  have hget : ((group.mergeSort fun a b => a.index ≤ b.index).map (·.index))[a.index]? = some a.index := by
    rw [hrange, List.getElem?_range hlt]
  rw [List.getElem?_map, Option.map_eq_some_iff] at hget
  obtain ⟨b, hb, hba⟩ := hget
  have hnodup : (group.map (·.index)).Nodup := h.nodup_iff.mpr List.nodup_range
  rw [hb, List.inj_on_of_nodup_map hnodup (hperm.mem_iff.mp (List.mem_of_getElem? hb)) ha hba]

/-- The vector constructor that a group is merged into. -/
def constructor (id : Id) (item : Ty E) (group : List (Assignment E C)) : Instruction E C O :=
  ⟨.initVector ((group.mergeSort fun a b => a.index ≤ b.index).map (·.value)), some ⟨.localMut id, item⟩⟩

/-- `ops'` has the group of `ops` merged. -/
structure Merge (ops ops' : Ops E C O) (last : Nat) (id : Id) (item : Ty E) (group : List (Assignment E C)) :
    Prop where
  length : ops'.length = ops.length
  last_mem : ∃ a ∈ group, a.idx = last
  le_last : ∀ a ∈ group, a.idx ≤ last
  write : ∀ a ∈ group, ∃ inst item', ops[a.idx]? = some (some inst) ∧
    componentWrite inst = some (id, item', a.index, a.value)
  consecutive : Consecutive ops last id item group
  dropped : ∀ a ∈ group, a.idx ≠ last → ops'[a.idx]? = some none
  merged : ops'[last]? = some (some (constructor id item group))
  other : ∀ idx, (∀ a ∈ group, a.idx ≠ idx) → ops'[idx]? = ops[idx]?

/-- The states before a place up to the last write: what is written already is missing in
one of them, and that is the only difference. -/
structure During (id : Id) (group : List (Assignment E C)) (idx : Nat) (s t : State C V W) : Prop where
  off : AgreeOff (· = .localMut id) s t
  written : ∀ a ∈ group, a.idx < idx → s.value (.localMut id) a.index = s.value a.value.kind 0
  rest : ∀ lane, (∀ a ∈ group, a.idx < idx → a.index ≠ lane) →
    t.value (.localMut id) lane = s.value (.localMut id) lane

namespace Merge

variable {ops ops' : Ops E C O} {last : Nat} {id : Id} {item : Ty E} {group : List (Assignment E C)}

theorem index_inj (h : Merge ops ops' last id item group) {a b : Assignment E C} (ha : a ∈ group) (hb : b ∈ group)
    (hab : a.index = b.index) : a = b :=
  List.inj_on_of_nodup_map (h.consecutive.components.nodup_iff.mpr List.nodup_range) ha hb hab

theorem value_ne (h : Merge ops ops' last id item group) {a : Assignment E C} (ha : a ∈ group) (other : Id) :
    a.value.kind ≠ .localMut other := by
  obtain ⟨inst, item', -, hc⟩ := h.write a ha
  obtain ⟨-, -, -, -, -, hx⟩ := componentWrite_eq hc
  exact Variable.isImmutable_ne hx _

theorem eq_of_idx (h : Merge ops ops' last id item group) {a b : Assignment E C} (ha : a ∈ group) (hb : b ∈ group)
    (hab : a.idx = b.idx) : a = b := by
  obtain ⟨inst, item', hi, hc⟩ := h.write a ha
  obtain ⟨inst', item'', hi', hc'⟩ := h.write b hb
  rw [hab, hi', Option.some_inj, Option.some_inj] at hi
  rw [hi, hc, Option.some_inj] at hc'
  simp only [Prod.mk.injEq] at hc'
  exact h.index_inj ha hb hc'.2.2.1

theorem last_lt (h : Merge ops ops' last id item group) : last < ops.length := by
  obtain ⟨a, ha, rfl⟩ := h.last_mem
  obtain ⟨inst, item', hi, -⟩ := h.write a ha
  exact (List.getElem?_eq_some_iff.mp hi).1

variable [DecidableEq C] {m : Semantics E C O V W}

theorem during_write (h : Merge ops ops' last id item group) {a : Assignment E C} (ha : a ∈ group)
    {inst : Instruction E C O} {item' : Ty E} (hc : componentWrite inst = some (id, item', a.index, a.value))
    {s t : State C V W} (hd : During id group a.idx s t) : During id group (a.idx + 1) (m.exec inst s) t := by
  rw [exec_componentWrite m hc]
  refine ⟨⟨hd.off.world, fun k hk => ?_⟩, fun b hb hlt => ?_, fun lane hlane => ?_⟩
  · simp only [hd.off.value k hk, Function.update_of_ne hk]
  · simp only [Function.update_self, Function.update_of_ne (h.value_ne hb id)]
    by_cases hba : b.index = a.index
    · rw [h.index_inj hb ha hba, Function.update_self]
    · have hne : b.idx ≠ a.idx := fun he => hba (congrArg _ (h.eq_of_idx hb ha he))
      rw [Function.update_of_ne hba]
      exact hd.written b hb (by omega)
  · simp only [Function.update_self, Function.update_of_ne (Ne.symm (hlane a ha (Nat.lt_succ_self _)))]
    exact hd.rest lane fun b hb hlt => hlane b hb (by omega)

theorem during_other (h : Merge ops ops' last id item group) {idx : Nat} (hidx : ∀ a ∈ group, a.idx ≠ idx)
    (hlast : idx < last) {op : Option (Instruction E C O)} (hop : ops[idx]? = some op) {s t : State C V W}
    (hd : During id group idx s t) : During id group (idx + 1) (m.execAt op s) (m.execAt op t) := by
  have hold : ∀ a ∈ group, a.idx < idx + 1 → a.idx < idx := fun a ha hlt => by
    have := hidx a ha
    omega
  cases op with
  | none => exact ⟨hd.off, fun a ha hlt => hd.written a ha (hold a ha hlt),
      fun lane hlane => hd.rest lane fun a ha hlt => hlane a ha (by omega)⟩
  | some inst =>
    by_cases hstarted : ∃ a ∈ group, a.idx < idx
    · -- Between the writes of the group nothing touches the local or the values.
      obtain ⟨hr, hw, hv⟩ := h.consecutive.alone idx inst hop hlast hstarted hidx
      have hoff := hd.off.exec (m := m) (by rintro k rfl; exact hr) (by rintro k rfl; exact hw)
      refine ⟨hoff, fun a ha hlt => ?_, fun lane hlane => ?_⟩
      · show (m.exec inst s).value _ _ = (m.exec inst s).value _ _
        rw [m.exec_value hw, m.exec_value (hv a ha)]
        exact hd.written a ha (hold a ha hlt)
      · show (m.exec inst t).value _ _ = (m.exec inst s).value _ _
        rw [m.exec_value hw, m.exec_value hw]
        exact hd.rest lane fun a ha hlt => hlane a ha (by omega)
    · have heq : t = s := hd.off.eq (funext fun lane => hd.rest lane fun a ha hlt => absurd ⟨a, ha, hlt⟩ hstarted)
      subst heq
      exact ⟨.refl _, fun a ha hlt => absurd ⟨a, ha, hold a ha hlt⟩ hstarted, fun _ _ => rfl⟩

theorem during_last (h : Merge ops ops' last id item group) {a : Assignment E C} (ha : a ∈ group)
    (hlast : a.idx = last) {inst : Instruction E C O} {item' : Ty E}
    (hc : componentWrite inst = some (id, item', a.index, a.value)) {s t : State C V W}
    (hd : During id group last s t) : m.exec (constructor id item group) t = m.exec inst s := by
  subst hlast
  have hs : During id group (a.idx + 1) (m.exec inst s) t := h.during_write ha hc hd
  refine @AgreeOff.eq _ _ _ _ _ (.localMut id) ⟨hs.off.world, fun k hk => ?_⟩ (funext fun lane => ?_)
  · rw [← hs.off.value k hk]
    exact Function.update_of_ne hk _ _
  · show Function.update t.value _ _ _ lane = _
    rw [Function.update_self]
    by_cases hlane : ∃ b ∈ group, b.index = lane
    · obtain ⟨b, hb, rfl⟩ := hlane
      have hin := sorted_getElem? h.consecutive.components hb
      simp only [constructor, Semantics.outValue, List.getElem?_map, hin, Option.map_some, State.arg]
      rw [hs.off.value _ (h.value_ne hb id)]
      exact (hs.written b hb (Nat.lt_succ_of_le (h.le_last b hb))).symm
    · have hnone : ((group.mergeSort fun a b => a.index ≤ b.index).map (·.value))[lane]? = none := by
        rw [List.getElem?_eq_none_iff, List.length_map, List.length_mergeSort, ← List.length_map (f := (·.index)),
          h.consecutive.components.length_eq, List.length_range]
        by_contra hlt
        obtain ⟨b, hb, hbl⟩ := List.mem_map.mp (h.consecutive.components.mem_iff.mpr
          (List.mem_range.mpr (Nat.lt_of_not_le hlt)))
        exact hlane ⟨b, hb, hbl⟩
      simp only [constructor, Semantics.outValue, hnone]
      exact hs.rest lane fun b hb _ hbl => hlane ⟨b, hb, hbl⟩

theorem during_step (h : Merge ops ops' last id item group) {idx : Nat} (hlast : idx < last) {s t : State C V W}
    (hd : During id group idx s t) {op op' : Option (Instruction E C O)} (hop : ops[idx]? = some op)
    (hop' : ops'[idx]? = some op') : During id group (idx + 1) (m.execAt op s) (m.execAt op' t) := by
  by_cases hidx : ∃ a ∈ group, a.idx = idx
  · obtain ⟨a, ha, rfl⟩ := hidx
    obtain ⟨inst, item', hi, hc⟩ := h.write a ha
    rw [h.dropped a ha (Nat.ne_of_lt hlast), Option.some_inj] at hop'
    rw [hi, Option.some_inj] at hop
    subst hop hop'
    exact h.during_write ha hc hd
  · push Not at hidx
    rw [h.other idx hidx, hop, Option.some_inj] at hop'
    subst hop'
    exact h.during_other hidx hlast hop hd

theorem during_before (h : Merge ops ops' last id item group) (s : State C V W) (idx : Nat) (hlast : idx ≤ last) :
    During id group idx (m.before ops idx s) (m.before ops' idx s) := by
  induction idx with
  | zero => exact ⟨.refl s, fun a _ hlt => absurd hlt (Nat.not_lt_zero _), fun _ _ => rfl⟩
  | succ idx ih =>
    have hlt := h.last_lt
    have hlen := h.length
    have hop : ops[idx]? = some ops[idx] := List.getElem?_eq_getElem (by omega)
    have hop' : ops'[idx]? = some ops'[idx] := List.getElem?_eq_getElem (by omega)
    rw [m.before_succ hop, m.before_succ hop']
    exact h.during_step (by omega) (ih (by omega)) hop hop'

theorem before_eq (h : Merge ops ops' last id item group) (s : State C V W) (idx : Nat) (hlast : last < idx) :
    m.before ops' idx s = m.before ops idx s := by
  induction idx, hlast using Nat.le_induction with
  | base =>
    obtain ⟨a, ha, hal⟩ := h.last_mem
    obtain ⟨inst, item', hi, hc⟩ := h.write a ha
    rw [m.before_succ h.merged, m.before_succ (hal ▸ hi)]
    exact h.during_last ha hal hc (h.during_before s last le_rfl)
  | succ idx hlast ih =>
    have hne : ∀ a ∈ group, a.idx ≠ idx := fun a ha he => by
      have := h.le_last a ha
      omega
    cases hop : ops[idx]? with
    | some op => rw [m.before_succ hop, m.before_succ ((h.other idx hne).trans hop), ih]
    | none =>
      have hop' : ops'[idx]? = none := (h.other idx hne).trans hop
      rw [List.getElem?_eq_none_iff] at hop hop'
      rw [m.before_of_length_le (by omega), m.before_of_length_le (by omega)] at ih
      rw [m.before_of_length_le (by omega), m.before_of_length_le (by omega), ih]

theorem keeps (h : Merge ops ops' last id item group) : Keeps m ops ops' := by
  refine ⟨fun s => ?_, fun idx inst other hi hr => ?_⟩
  · rw [← m.before_of_length_le h.length.le, ← m.before_of_length_le le_rfl]
    exact h.before_eq s _ h.last_lt
  · have hidx : ∀ a ∈ group, a.idx ≠ idx := by
      rintro a ha rfl
      obtain ⟨inst', item', hi', hc⟩ := h.write a ha
      rw [hi, Option.some_inj, Option.some_inj] at hi'
      exact componentWrite_reads hc other (hi' ▸ hr)
    refine ⟨(h.other idx hidx).trans hi, fun s => ?_⟩
    rcases Nat.lt_or_ge last idx with hlast | hlast
    · rw [h.before_eq s idx hlast]
    · have hd := h.during_before (m := m) s idx hlast
      by_cases hother : other = id
      · subst hother
        have hlt : idx < last := by
          obtain ⟨a, ha, hal⟩ := h.last_mem
          have := hidx a ha
          omega
        refine funext fun lane => hd.rest lane fun a ha hlt' _ => ?_
        exact (h.consecutive.alone idx inst hi hlt ⟨a, ha, hlt'⟩ hidx).1 hr
      · exact hd.off.value _ fun he => hother (VariableKind.localMut.inj he)

end Merge

theorem Keeps.refl [DecidableEq C] {m : Semantics E C O V W} (block : Ops E C O) : Keeps m block block :=
  ⟨fun _ => rfl, fun _ _ _ hi _ => ⟨hi, fun _ => rfl⟩⟩

theorem Keeps.trans [DecidableEq C] {m : Semantics E C O V W} {a b c : Ops E C O} (hab : Keeps m a b)
    (hbc : Keeps m b c) : Keeps m a c := by
  refine ⟨fun s => (hbc.run s).trans (hab.run s), fun idx inst id hi hr => ?_⟩
  obtain ⟨hi', hv⟩ := hab.reads idx inst id hi hr
  obtain ⟨hi'', hv'⟩ := hbc.reads idx inst id hi' hr
  exact ⟨hi'', fun s => (hv' s).trans (hv s)⟩

theorem Keeps.set [DecidableEq C] {m : Semantics E C O V W} {ops : Ops E C O} {idx : Nat} {inst inst' : Instruction E C O}
    (hi : ops[idx]? = some (some inst)) (hr : ∀ id, ¬inst.reads (.localMut id))
    (hexec : ∀ s, m.exec inst' s = m.exec inst s) : Keeps m ops (ops.set idx (some inst')) := by
  have hbefore : ∀ s k, m.before (ops.set idx (some inst')) k s = m.before ops k s := by
    intro s k
    induction k with
    | zero => rfl
    | succ k ih =>
      rcases Nat.lt_or_ge k ops.length with hk | hk
      · have hop : ops[k]? = some ops[k] := List.getElem?_eq_getElem hk
        by_cases hki : idx = k
        · subst hki
          rw [m.before_succ (List.getElem?_set_self hk), m.before_succ hi, ih]
          exact hexec _
        · rw [m.before_succ ((List.getElem?_set_ne hki).trans hop), m.before_succ hop, ih]
      · have hk' : (ops.set idx (some inst')).length ≤ k := by rwa [List.length_set]
        rw [m.before_of_length_le (by omega), m.before_of_length_le (by omega)] at ih ⊢
        exact ih
  refine ⟨fun s => ?_, fun k other id hk hread => ⟨?_, fun s => by rw [hbefore]⟩⟩
  · have hlen : (ops.set idx (some inst')).length ≤ ops.length := List.length_set.le
    rw [← m.before_of_length_le hlen, ← m.before_of_length_le le_rfl, hbefore]
  · by_cases hki : idx = k
    · subst hki
      rw [hi, Option.some_inj, Option.some_inj] at hk
      exact absurd (hk ▸ hread) (hr id)
    · rw [List.getElem?_set_ne hki, hk]

end Ruda.BasicBlock
