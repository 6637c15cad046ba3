import Ruda.Optimizer.SharedLive

/-!
# The memories that the analysis records

After `split_free` every `free` marker is alone in its block. A block that uses a
memory then frees nothing, so the memory is live at it: whatever the analysis records
is live somewhere, and whatever is live is recorded.
-/

namespace Ruda.Optimizer

variable {P : Program} {postOrder : List NodeIndex} {uniform : NodeIndex → Bool} {x : Id} {b : NodeIndex}

namespace Program

-- Splitting at `free`

/-- No block is left to split. -/
def Split (P : Program) : Prop := ∀ b ∈ P.nodeIds, splitPoint (P.block b).ops = none

/-- Instructions that can still be split off from the block they are in. -/
def splitsLeft (P : Program) : Nat := (P.nodeIds.map fun b => (P.block b).ops.length - 1).sum

theorem splitPoint_bounds {ops : List Instruction} {n : Nat} (h : splitPoint ops = some n) :
    0 < n ∧ n < ops.length := by
  unfold splitPoint at h
  split at h
  · cases h
  · next idx hidx =>
    have hlt : idx < ops.length := (List.findIdx?_eq_some_iff_getElem.mp hidx).1
    split at h
    · next hpos =>
      obtain rfl := Option.some.inj h
      exact ⟨hpos, hlt⟩
    · split at h
      · obtain rfl := Option.some.inj h
        omega
      · cases h

theorem splitPoint_none {ops : List Instruction} (h : splitPoint ops = none) :
    (∀ inst ∈ ops, isFree inst = false) ∨ ∃ var, ops = [.free var] := by
  unfold splitPoint at h
  split at h
  · next hidx => exact .inl (List.findIdx?_eq_none_iff.mp hidx)
  · next idx hidx =>
    obtain ⟨hlt, hfree, -⟩ := List.findIdx?_eq_some_iff_getElem.mp hidx
    split at h
    · cases h
    · split at h
      · cases h
      · right
        obtain ⟨inst, rfl⟩ : ∃ inst, ops = [inst] := List.length_eq_one_iff.mp (by omega)
        obtain rfl : idx = 0 := by omega
        cases inst with
        | op out reads => cases hfree
        | free var => exact ⟨var, rfl⟩

theorem splitSite_some {blocks : List {b // b ∈ P.nodeIds}} {site : {b // b ∈ P.nodeIds} × Nat}
    (h : P.splitSite blocks = some site) : splitPoint (P.block site.1).ops = some site.2 := by
  induction blocks with
  | nil => cases h
  | cons b rest ih =>
    unfold splitSite at h
    split at h
    · next n hn =>
      obtain rfl := Option.some.inj h
      exact hn
    · exact ih h

theorem splitSite_none {blocks : List {b // b ∈ P.nodeIds}} (h : P.splitSite blocks = none) :
    ∀ b ∈ blocks, splitPoint (P.block b).ops = none := by
  induction blocks with
  | nil => exact nofun
  | cons b rest ih =>
    unfold splitSite at h
    split at h
    · cases h
    · next hb =>
      intro c hc
      rcases List.mem_cons.mp hc with rfl | hc
      · exact hb
      · exact ih h c hc

theorem splitBlockAfter_left {n : Nat} {new : NodeIndex} (hb : b ∈ P.nodeIds) (hnew : new ∉ P.nodeIds)
    (hpos : 0 < n) (hlt : n < (P.block b).ops.length) :
    (P.splitBlockAfter b n hb new hnew).splitsLeft + 1 = P.splitsLeft := by
  have hperm : P.nodeIds.Perm (b :: P.nodeIds.erase b) := List.perm_cons_erase hb
  have hne : b ≠ new := fun h => hnew (h ▸ hb)
  have hrest : ∀ c ∈ P.nodeIds.erase b,
      ((P.splitBlockAfter b n hb new hnew).block c).ops.length - 1 = (P.block c).ops.length - 1 := by
    intro c hc
    have hcb : c ≠ b := ((List.Nodup.mem_erase_iff P.nodup).mp hc).1
    have hcnew : c ≠ new := fun h => hnew (h ▸ List.mem_of_mem_erase hc)
    simp only [splitBlockAfter, Function.update_of_ne hcnew, Function.update_of_ne hcb]
  have hb' : ((P.splitBlockAfter b n hb new hnew).block b).ops.length = n := by
    simp only [splitBlockAfter, Function.update_of_ne hne, Function.update_self, List.length_take]
    omega
  have hnew' : ((P.splitBlockAfter b n hb new hnew).block new).ops.length = (P.block b).ops.length - n := by
    simp only [splitBlockAfter, Function.update_self, List.length_drop]
  have hafter : (P.splitBlockAfter b n hb new hnew).nodeIds.Perm (new :: b :: P.nodeIds.erase b) :=
    (List.perm_orderedInsert _ _ _).trans (hperm.cons new)
  unfold splitsLeft
  rw [(hafter.map _).sum_eq, (hperm.map _).sum_eq]
  simp only [List.map_cons, List.sum_cons, hb', hnew', List.map_congr_left hrest]
  omega

theorem splitFreeFor_split (fresh : Fresh) (n : Nat) (P : Program) (h : P.splitsLeft ≤ n) :
    (P.splitFreeFor fresh n).Split := by
  induction n generalizing P with
  | zero =>
    intro b hb
    have hle : (P.block b).ops.length - 1 ≤ P.splitsLeft :=
      List.le_sum_of_mem (List.mem_map.mpr ⟨b, hb, rfl⟩)
    cases hpt : splitPoint (P.block b).ops with
    | none => exact hpt
    | some n =>
      have := splitPoint_bounds hpt
      omega
  | succ n ih =>
    unfold splitFreeFor
    cases hsite : P.splitSite P.nodeIds.attach with
    | none =>
      rw [splitFreeInner, hsite]
      exact fun b hb => splitSite_none hsite ⟨b, hb⟩ (List.mem_attach _ _)
    | some site =>
      rw [splitFreeInner, hsite]
      obtain ⟨hpos, hlt⟩ := splitPoint_bounds (splitSite_some hsite)
      have hleft := splitBlockAfter_left site.1.2 (fresh.fresh P.nodeIds) hpos hlt
      exact ih _ (Nat.le_of_succ_le_succ (hleft.trans_le h))

theorem splitFree_split (fresh : Fresh) (P : Program) : (P.splitFree fresh).Split := by
  refine splitFreeFor_split fresh _ P (List.sum_le_sum ?_)
  exact fun b _ => Nat.sub_le _ _

-- Recorded memories

/-- Instructions of block `b` name the memory `m`. -/
def Names (P : Program) (b : NodeIndex) (m : SharedMemory) : Prop :=
  ∃ inst ∈ (P.block b).ops, m ∈ inst.memories

theorem foldl_visit_generated {ops : List Instruction} (hops : ∀ inst ∈ ops, isFree inst = false)
    (sets : BlockSets) : (ops.foldl BlockSets.visit sets).generated =
      sets.generated ∪ ((ops.flatMap Instruction.memories).map SharedMemory.id).toFinset := by
  induction ops generalizing sets with
  | nil => simp
  | cons inst ops ih =>
    cases inst with
    | free var => cases hops (.free var) List.mem_cons_self
    | op out reads =>
      rw [List.foldl_cons, ih fun i hi => hops i (List.mem_cons_of_mem _ hi)]
      simp [BlockSets.visit, Finset.union_assoc]

theorem Split.liveIn (h : P.Split) {m : SharedMemory} (hb : P.Reachable b) (hm : P.Names b m) :
    P.LiveIn m.id b := by
  obtain ⟨inst, hi, hm⟩ := hm
  rcases splitPoint_none (h b hb.mem) with hops | ⟨var, hops⟩
  · refine .use hb ?_
    rw [generated, calculateBlockSets, foldl_visit_generated hops]
    refine Finset.mem_union_right _ (List.mem_toFinset.mpr (List.mem_map.mpr ⟨m, ?_, rfl⟩))
    exact List.mem_flatMap.mpr ⟨inst, hi, hm⟩
  · rw [hops, List.mem_singleton] at hi
    rw [hi] at hm
    cases hm

theorem LiveIn.named (h : P.LiveIn x b) : ∃ c m, P.Reachable c ∧ P.Names c m ∧ m.id = x := by
  induction h with
  | @use b hb hx =>
    have hsub : P.generated b ⊆ (((P.block b).ops.flatMap Instruction.memories).map SharedMemory.id).toFinset :=
      foldl_visit_memories _ _ (Finset.empty_subset _) fun inst hi m hm =>
        List.mem_toFinset.mpr (List.mem_map.mpr ⟨m, List.mem_flatMap.mpr ⟨inst, hi, hm⟩, rfl⟩)
    obtain ⟨m, hm, hid⟩ := List.mem_map.mp (List.mem_toFinset.mp (hsub hx))
    exact ⟨b, m, hb, List.mem_flatMap.mp hm, hid⟩
  | flow _ _ _ ih => exact ih

theorem LiveAt.named (h : P.LiveAt uniform x b) : ∃ c m, P.Reachable c ∧ P.Names c m ∧ m.id = x := by
  induction h with
  | live h => exact h.named
  | diverge _ _ _ _ ih => exact ih
  | woken _ _ _ _ _ _ _ ih => exact ih

end Program

section
variable {memories : BTreeMap SharedMemory} {m : SharedMemory}

/-- Inserting memories under their ids. -/
def recordAll (memories : BTreeMap SharedMemory) (l : List SharedMemory) : BTreeMap SharedMemory :=
  l.foldl (fun memories smem => memories.insert smem.id smem) memories

theorem recordAll_sound {l : List SharedMemory} (h : (recordAll memories l)[x]? = some m) :
    memories[x]? = some m ∨ m ∈ l ∧ m.id = x := by
  induction l generalizing memories with
  | nil => exact .inl h
  | cons smem l ih =>
    rcases ih h with h | ⟨hm, hid⟩
    · rw [BTreeMap.get_insert] at h
      split at h
      · next hx =>
        obtain rfl := Option.some.inj h
        exact .inr ⟨List.mem_cons_self, hx.symm⟩
      · exact .inl h
    · exact .inr ⟨List.mem_cons_of_mem _ hm, hid⟩

theorem recordAll_complete {l : List SharedMemory}
    (h : (∃ m', memories[x]? = some m') ∨ ∃ m' ∈ l, m'.id = x) :
    ∃ m', (recordAll memories l)[x]? = some m' := by
  induction l generalizing memories with
  | nil => exact h.elim (fun h => h) fun ⟨_, hm, _⟩ => absurd hm List.not_mem_nil
  | cons smem l ih =>
    refine ih ?_
    rw [BTreeMap.get_insert]
    by_cases hx : x = smem.id
    · exact .inl ⟨smem, if_pos hx⟩
    · rw [if_neg hx]
      refine h.imp_right ?_
      rintro ⟨m', hm', hid⟩
      rcases List.mem_cons.mp hm' with rfl | hm'
      · exact absurd hid.symm hx
      · exact ⟨m', hm', hid⟩

theorem collectSharedMemories_eq (blocks : List NodeIndex) : collectSharedMemories P blocks =
    recordAll ∅ (blocks.flatMap fun b => (P.block b).ops.flatMap Instruction.memories) := by
  unfold collectSharedMemories recordAll
  generalize (∅ : BTreeMap SharedMemory) = start
  induction blocks generalizing start with
  | nil => rfl
  | cons b blocks ih => rw [List.foldl_cons, List.flatMap_cons, List.foldl_append, ih]

theorem collected_sound (hpost : ∀ b, b ∈ postOrder ↔ P.Reachable b)
    (h : (collectSharedMemories P postOrder.reverse)[x]? = some m) :
    m.id = x ∧ ∃ b, P.Reachable b ∧ P.Names b m := by
  rw [collectSharedMemories_eq] at h
  rcases recordAll_sound h with h | ⟨hm, hid⟩
  · cases (BTreeMap.get_empty x).symm.trans h
  · obtain ⟨b, hb, hm⟩ := List.mem_flatMap.mp hm
    exact ⟨hid, b, (hpost b).mp (List.mem_reverse.mp hb), List.mem_flatMap.mp hm⟩

theorem collected_complete (hpost : ∀ b, b ∈ postOrder ↔ P.Reachable b) (hb : P.Reachable b)
    (hm : P.Names b m) : ∃ m', (collectSharedMemories P postOrder.reverse)[m.id]? = some m' := by
  rw [collectSharedMemories_eq]
  refine recordAll_complete (.inr ⟨m, List.mem_flatMap.mpr ⟨b, ?_, List.mem_flatMap.mpr hm⟩, rfl⟩)
  exact List.mem_reverse.mpr ((hpost b).mpr hb)

end

end Ruda.Optimizer
