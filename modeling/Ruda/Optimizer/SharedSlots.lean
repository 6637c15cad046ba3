import Ruda.Optimizer.SharedMemories

/-!
# Shared memories that are live together do not overlap

Offsets are given out block by block, each against the allocations live at the block
where its memory is first met. That is enough when every memory that is already
placed, and is live together with the new one anywhere, is live at that block. The
allocator does not see to it: two memories first met in the two arms of a branch are
both placed at offset zero, and both are live after the join.
-/

namespace Ruda.Optimizer

variable {P : Program} {postOrder : List NodeIndex} {uniform : NodeIndex → Bool} {order : HashOrder}

/-- The byte ranges `[offset, offset + size)` of two allocations have nothing in common. -/
def Apart (a a' : SmemAllocation) : Prop :=
  a.offset + a.smem.size ≤ a'.offset ∨ a'.offset + a'.smem.size ≤ a.offset

theorem Apart.symm {a a' : SmemAllocation} (h : Apart a a') : Apart a' a := Or.symm h

-- One slice

theorem nextMultipleOf_ok {a b : Nat} (hb : 0 < b) (hle : a + b ≤ u64Max) :
    ∃ c, nextMultipleOf a b = some c ∧ a ≤ c ∧ c < a + b ∧ b ∣ c := by
  unfold nextMultipleOf
  rw [if_neg hb.ne']
  have hlt := Nat.mod_lt a hb
  by_cases hzero : a % b = 0
  · rw [if_pos hzero]
    exact ⟨a, rfl, le_rfl, by omega, Nat.dvd_of_mod_eq_zero hzero⟩
  · rw [if_neg hzero, wrap64_of_le (by omega)]
    refine ⟨_, rfl, by omega, by omega, ?_⟩
    have hsum : a + (b - a % b) = b * (a / b) + b := by
      have := Nat.div_add_mod a b
      omega
    rw [hsum]
    exact Dvd.dvd.add (Nat.dvd_mul_right _ _) dvd_rfl

/-- Slices one after the other, none reaching past the next. -/
def InRow (slices : List SmemAllocation) : Prop :=
  slices.Pairwise fun a a' => a.offset + a.smem.size ≤ a'.offset

/-- The chosen offset is aligned, after the first slice, clear of every slice, and at
most one alignment past the end of some slice. -/
theorem allocateSlice_ok {size align : Nat} (halign : 0 < align) (hsize : 0 < size)
    {slices : List SmemAllocation} (hrow : InRow slices)
    (hfit : ∀ a ∈ slices, a.offset + a.smem.size + align ≤ u64Max) :
    ∃ offset, allocateSlice size align slices = some offset ∧ align ∣ offset ∧
      (∀ a, slices.head? = some a → a.offset + a.smem.size ≤ offset) ∧
      (∀ a ∈ slices, offset + size ≤ a.offset ∨ a.offset + a.smem.size ≤ offset) ∧
      (offset = 0 ∨ ∃ a ∈ slices, offset < a.offset + a.smem.size + align) := by
  induction slices with
  | nil => exact ⟨0, rfl, dvd_zero _, nofun, nofun, .inl rfl⟩
  | cons slice0 rest ih =>
    have hfit0 := hfit slice0 List.mem_cons_self
    have hwrap : wrap64 (slice0.offset + slice0.smem.size) = slice0.offset + slice0.smem.size :=
      wrap64_of_le (by omega)
    obtain ⟨end0, hend, hle, hlt, hdvd⟩ := nextMultipleOf_ok halign hfit0
    have hhead : ∀ {offset : Nat}, slice0.offset + slice0.smem.size ≤ offset →
        ∀ a, (slice0 :: rest).head? = some a → a.offset + a.smem.size ≤ offset := by
      rintro offset h a ⟨⟩
      exact h
    cases rest with
    | nil =>
      refine ⟨end0, by rw [allocateSlice, hwrap, hend], hdvd, hhead hle, ?_,
        .inr ⟨slice0, by simp, hlt⟩⟩
      intro a ha
      rw [List.mem_singleton.mp ha]
      exact .inr hle
    | cons slice1 rest =>
      obtain ⟨hbefore, hrest⟩ := List.pairwise_cons.mp hrow
      by_cases hgap : size ≤ slice1.offset - end0
      · refine ⟨end0, ?_, hdvd, hhead hle, ?_, .inr ⟨slice0, by simp, hlt⟩⟩
        · rw [allocateSlice, hwrap, hend]
          exact if_pos hgap
        · intro a ha
          rcases List.mem_cons.mp ha with rfl | ha
          · exact .inr hle
          · -- the slices after the gap start no earlier than the first of them
            have hstart : slice1.offset ≤ a.offset := by
              rcases List.mem_cons.mp ha with rfl | ha
              · exact le_rfl
              · have := (List.pairwise_cons.mp hrest).1 a ha
                omega
            exact .inl (by omega)
      · obtain ⟨offset, hoff, hdvd', hhead', hclear, hbound⟩ :=
          ih hrest fun a ha => hfit a (List.mem_cons_of_mem _ ha)
        have hfirst := hhead' slice1 rfl
        have hnext := hbefore slice1 List.mem_cons_self
        have hpast : slice0.offset + slice0.smem.size ≤ offset := by omega
        refine ⟨offset, ?_, hdvd', hhead hpast, ?_, hbound.imp_right ?_⟩
        · rw [allocateSlice, hwrap, hend]
          exact (if_neg hgap).trans hoff
        · intro a ha
          rcases List.mem_cons.mp ha with rfl | ha
          · exact .inr hpast
          · exact hclear a ha
        · rintro ⟨a, ha, hlt'⟩
          exact ⟨a, List.mem_cons_of_mem _ ha, hlt'⟩

theorem mem_liveSlices {b : NodeIndex} {live : Finset Id} {allocations : BTreeMap SmemAllocation}
    {a : SmemAllocation} :
    a ∈ liveSlices order b live allocations ↔ ∃ x ∈ live, allocations[x]? = some a := by
  rw [liveSlices, (List.perm_insertionSort _ _).mem_iff]
  simp only [List.mem_map, List.mem_filter, (order.slices_perm b _).mem_iff, decide_eq_true_eq, Prod.exists,
    exists_eq_right, BTreeMap.mem_toList]
  exact exists_congr fun _ => and_comm

theorem liveSlices_inRow {b : NodeIndex} {live : Finset Id} {allocations : BTreeMap SmemAllocation}
    (hsize : ∀ (x : Id) (a : SmemAllocation), allocations[x]? = some a → 0 < a.smem.size)
    (hapart : ∀ x ∈ live, ∀ y ∈ live, x ≠ y → ∀ a a', allocations[x]? = some a →
      allocations[y]? = some a' → Apart a a') : InRow (liveSlices order b live allocations) := by
  have hkeys : (order.slices b allocations.toList).Pairwise fun e e' => e.1 ≠ e'.1 := by
    have hnd := ((order.slices_perm b allocations.toList).map Prod.fst).nodup_iff.mpr
      (BTreeMap.nodup_keys_toList allocations)
    exact List.pairwise_map.mp hnd
  have hpair : (((order.slices b allocations.toList).filter fun e => e.1 ∈ live).map Prod.snd).Pairwise
      Apart := by
    refine List.pairwise_map.mpr ((hkeys.filter _).imp_of_mem ?_)
    intro e e' he he' hne
    simp only [List.mem_filter, (order.slices_perm b _).mem_iff, decide_eq_true_eq] at he he'
    exact hapart e.1 he.2 e'.1 he'.2 hne e.2 e'.2 ((BTreeMap.mem_toList _ _ _).mp he.1)
      ((BTreeMap.mem_toList _ _ _).mp he'.1)
  have hsorted := List.pairwise_insertionSort (fun a b : SmemAllocation => a.offset ≤ b.offset)
    (((order.slices b allocations.toList).filter fun e => e.1 ∈ live).map Prod.snd)
  have hsymm : (liveSlices order b live allocations).Pairwise Apart :=
    ((List.perm_insertionSort _ _).pairwise_iff fun h => Apart.symm h).mpr hpair
  refine (hsorted.and hsymm).imp_of_mem ?_
  rintro a a' ha ha' ⟨hle, hap⟩
  obtain ⟨y, -, hy⟩ := mem_liveSlices.mp ha'
  have hpos := hsize y a' hy
  rcases hap with hap | hap
  · exact hap
  · omega

-- All slices

section
variable {blocks : List NodeIndex} {liveVars : NodeIndex → Finset Id} {memories : BTreeMap SharedMemory}
  {allocations : BTreeMap SmemAllocation}

/-- Bytes a memory can take up, padding included. -/
def footprint (m : SharedMemory) : Nat := m.size + m.align

/-- `x` and `y` are live at a common block. -/
def Together (blocks : List NodeIndex) (Live : Id → NodeIndex → Prop) (x y : Id) : Prop :=
  ∃ b ∈ blocks, Live x b ∧ Live y b

/-- Where a memory is live for the first time, every memory seen before that is ever
live together with it is live too. -/
def SeenTogether (blocks : List NodeIndex) (Live : Id → NodeIndex → Prop) : Prop :=
  ∀ before b after, blocks = before ++ b :: after → ∀ y, Live y b → (∀ d ∈ before, ¬Live y d) →
    ∀ x, (∃ d ∈ before, Live x d) → Together blocks Live x y → Live x b

/-- Being in the set that the analysis has for a block. -/
abbrev InSet (liveVars : NodeIndex → Finset Id) (x : Id) (b : NodeIndex) : Prop := x ∈ liveVars b

/-- What the analysis hands to the allocator. -/
structure Placeable (blocks : List NodeIndex) (liveVars : NodeIndex → Finset Id)
    (memories : BTreeMap SharedMemory) : Prop where
  known : ∀ b ∈ blocks, ∀ x ∈ liveVars b, ∃ m, memories[x]? = some m
  keyed : ∀ (x : Id) (m : SharedMemory), memories[x]? = some m → m.id = x ∧ 0 < m.size ∧ 0 < m.align
  fits : memories.weight footprint ≤ u64Max
  seen : SeenTogether blocks (InSet liveVars)

/-- The slots given out so far. -/
structure SlotInv (blocks : List NodeIndex) (liveVars : NodeIndex → Finset Id)
    (memories : BTreeMap SharedMemory) (allocations : BTreeMap SmemAllocation) : Prop where
  entry : ∀ (x : Id) (a : SmemAllocation), allocations[x]? = some a →
    memories[x]? = some a.smem ∧ a.smem.align ∣ a.offset ∧
      a.offset + a.smem.size ≤ allocations.weight fun a => footprint a.smem
  apart : ∀ (x y : Id) (a a' : SmemAllocation), x ≠ y → allocations[x]? = some a →
    allocations[y]? = some a' → Together blocks (InSet liveVars) x y → Apart a a'

theorem SlotInv.weight_add_le (h : SlotInv blocks liveVars memories allocations) {x : Id} {m : SharedMemory}
    (hx : memories[x]? = some m) (hnew : allocations[x]? = none) :
    footprint m + allocations.weight (fun a => footprint a.smem) ≤ memories.weight footprint := by
  rw [BTreeMap.weight_erase footprint hx]
  refine Nat.add_le_add_left (BTreeMap.weight_le_weight _ fun j a ha => ⟨a.smem, ?_, le_rfl⟩) _
  have hj : j ≠ x := by
    rintro rfl
    cases hnew.symm.trans ha
  rw [BTreeMap.get_erase, if_neg hj]
  exact (h.entry j a ha).1

theorem SlotInv.place (order : HashOrder) {b : NodeIndex} {y : Id} {m : SharedMemory}
    (hp : Placeable blocks liveVars memories) (h : SlotInv blocks liveVars memories allocations)
    (hb : b ∈ blocks) (hm : memories[y]? = some m) (hnew : allocations[y]? = none)
    (hseen : ∀ (x : Id) (a : SmemAllocation), allocations[x]? = some a → Together blocks (InSet liveVars) x y →
      x ∈ liveVars b) :
    ∃ offset, allocateSlice m.size m.align (liveSlices order b (liveVars b) allocations) = some offset ∧
      SlotInv blocks liveVars memories (allocations.insert y { smem := m, offset }) := by
  obtain ⟨-, hsize, halign⟩ := hp.keyed y m hm
  have hroom := (h.weight_add_le hm hnew).trans hp.fits
  have hfit : ∀ a ∈ liveSlices order b (liveVars b) allocations, a.offset + a.smem.size + m.align ≤ u64Max := by
    intro a ha
    obtain ⟨x, -, hx⟩ := mem_liveSlices.mp ha
    have hend := (h.entry x a hx).2.2
    unfold footprint at hroom hend
    omega
  have hrow : InRow (liveSlices order b (liveVars b) allocations) := by
    refine liveSlices_inRow (fun x a ha => (hp.keyed x _ (h.entry x a ha).1).2.1) ?_
    exact fun x hx x' hx' hne a a' ha ha' => h.apart x x' a a' hne ha ha' ⟨b, hb, hx, hx'⟩
  obtain ⟨offset, hoff, hdvd, -, hclear, hbound⟩ := allocateSlice_ok halign hsize hrow hfit
  have hweight : BTreeMap.weight (fun a => footprint a.smem)
      (allocations.insert y { smem := m, offset }) =
      footprint m + allocations.weight (fun a => footprint a.smem) := BTreeMap.weight_insert_new _ hnew
  have hend : offset + m.size ≤ footprint m + allocations.weight (fun a => footprint a.smem) := by
    unfold footprint
    rcases hbound with rfl | ⟨a, ha, hlt⟩
    · omega
    · obtain ⟨x, -, hx⟩ := mem_liveSlices.mp ha
      have := (h.entry x a hx).2.2
      unfold footprint at this
      omega
  -- the new slot against one placed before
  have hnewApart : ∀ (x : Id) (a : SmemAllocation), allocations[x]? = some a →
      Together blocks (InSet liveVars) x y → Apart a { smem := m, offset } := by
    intro x a ha htog
    have hmem : a ∈ liveSlices order b (liveVars b) allocations :=
      mem_liveSlices.mpr ⟨x, hseen x a ha htog, ha⟩
    exact (hclear a hmem).symm
  refine ⟨offset, hoff, fun x a ha => ?_, fun x x' a a' hne ha ha' htog => ?_⟩
  · rw [hweight]
    rw [BTreeMap.get_insert] at ha
    split at ha
    · next hx =>
      obtain rfl := Option.some.inj ha
      exact ⟨hx ▸ hm, hdvd, hend⟩
    · obtain ⟨hsm, hal, hle⟩ := h.entry x a ha
      exact ⟨hsm, hal, hle.trans (Nat.le_add_left _ _)⟩
  · rw [BTreeMap.get_insert] at ha ha'
    split at ha
    · next hx =>
      obtain rfl := Option.some.inj ha
      rw [if_neg fun hx' => hne (hx.trans hx'.symm)] at ha'
      obtain ⟨d, hd, hxd, hx'd⟩ := htog
      exact (hnewApart x' a' ha' ⟨d, hd, hx'd, hx ▸ hxd⟩).symm
    · split at ha'
      · next hx' =>
        obtain rfl := Option.some.inj ha'
        exact hnewApart x a ha (hx' ▸ htog)
      · exact h.apart x x' a a' hne ha ha' htog

/-- After the blocks `done` and the ids `ids` of the next one, exactly their memories
have a slot. -/
structure Placed (blocks : List NodeIndex) (liveVars : NodeIndex → Finset Id)
    (memories : BTreeMap SharedMemory) (done : List NodeIndex) (ids : List Id)
    (allocations : BTreeMap SmemAllocation) : Prop where
  slots : SlotInv blocks liveVars memories allocations
  domain : ∀ x : Id, (∃ a, allocations[x]? = some a) ↔ (∃ d ∈ done, x ∈ liveVars d) ∨ x ∈ ids

theorem Placed.step (order : HashOrder) {done after : List NodeIndex} {b : NodeIndex} {ids : List Id} {y : Id}
    (hp : Placeable blocks liveVars memories) (hblocks : blocks = done ++ b :: after)
    (hids : ∀ x ∈ ids, x ∈ liveVars b) (hy : y ∈ liveVars b)
    (h : Placed blocks liveVars memories done ids allocations) :
    ∃ allocations', allocateIn order memories b (liveVars b) allocations y = some allocations' ∧
      Placed blocks liveVars memories done (ids ++ [y]) allocations' := by
  have hb : b ∈ blocks := by simp [hblocks]
  have hadd : ∀ x, ((∃ d ∈ done, x ∈ liveVars d) ∨ x ∈ ids ++ [y]) ↔
      ((∃ d ∈ done, x ∈ liveVars d) ∨ x ∈ ids) ∨ x = y := by
    intro x
    rw [List.mem_append, List.mem_singleton, or_assoc]
  unfold allocateIn
  cases hold : allocations[y]? with
  | some a =>
    rw [if_pos ((BTreeMap.contains_iff _ _).mpr ⟨a, hold⟩)]
    refine ⟨allocations, rfl, h.slots, fun x => ?_⟩
    rw [hadd, ← h.domain x]
    refine ⟨.inl, fun hx => hx.elim (fun hx => hx) ?_⟩
    rintro rfl
    exact ⟨a, hold⟩
  | none =>
    obtain ⟨m, hm⟩ := hp.known b hb y hy
    have hkey := (hp.keyed y m hm).1
    have hfirst : ∀ d ∈ done, y ∉ liveVars d := by
      intro d hd hyd
      obtain ⟨a, ha⟩ := (h.domain y).mpr (.inl ⟨d, hd, hyd⟩)
      cases hold.symm.trans ha
    have hseen : ∀ (x : Id) (a : SmemAllocation), allocations[x]? = some a →
        Together blocks (InSet liveVars) x y → x ∈ liveVars b := by
      intro x a ha htog
      rcases (h.domain x).mp ⟨a, ha⟩ with hx | hx
      · exact hp.seen done b after hblocks y hy hfirst x hx htog
      · exact hids x hx
    obtain ⟨offset, hoff, hslots⟩ := h.slots.place order hp hb hm hold hseen
    rw [(BTreeMap.contains_eq_false _ _).mpr hold, if_neg Bool.false_ne_true]
    refine ⟨allocations.insert y { smem := m, offset }, ?_, hslots, fun x => ?_⟩
    · simp only [hm, Option.bind_eq_bind, Option.bind_some, hoff, hkey]
    · rw [hadd, ← h.domain x, BTreeMap.get_insert]
      split
      · next hx => simp [hx]
      · next hx => simp [hx]

theorem Placed.block (order : HashOrder) {done after : List NodeIndex} {b : NodeIndex} {ids : List Id}
    (hp : Placeable blocks liveVars memories) (hblocks : blocks = done ++ b :: after)
    (hids : ∀ x ∈ ids, x ∈ liveVars b) (todo : List Id) (htodo : ∀ x ∈ todo, x ∈ liveVars b)
    (h : Placed blocks liveVars memories done ids allocations) :
    ∃ allocations', todo.foldlM (allocateIn order memories b (liveVars b)) allocations = some allocations' ∧
      Placed blocks liveVars memories done (ids ++ todo) allocations' := by
  induction todo generalizing ids allocations with
  | nil => exact ⟨allocations, rfl, by simpa using h⟩
  | cons y todo ih =>
    have hy := htodo y List.mem_cons_self
    obtain ⟨allocations₁, hstep, h₁⟩ := h.step order hp hblocks hids hy
    have hids₁ : ∀ x ∈ ids ++ [y], x ∈ liveVars b := by
      intro x hx
      rcases List.mem_append.mp hx with hx | hx
      · exact hids x hx
      · rw [List.mem_singleton.mp hx]
        exact hy
    obtain ⟨allocations₂, hrest, h₂⟩ := ih hids₁ (fun x hx => htodo x (List.mem_cons_of_mem _ hx)) h₁
    refine ⟨allocations₂, ?_, by simpa using h₂⟩
    rw [List.foldlM_cons, hstep]
    exact hrest

theorem Placed.all (hp : Placeable blocks liveVars memories) {done : List NodeIndex}
    (todo : List NodeIndex) (hblocks : blocks = done ++ todo)
    (h : Placed blocks liveVars memories done [] allocations) :
    ∃ allocations', todo.foldlM (fun allocations b => (order.ids b (liveVars b)).foldlM
        (allocateIn order memories b (liveVars b)) allocations) allocations = some allocations' ∧
      Placed blocks liveVars memories blocks [] allocations' := by
  induction todo generalizing done allocations with
  | nil =>
    obtain rfl : blocks = done := by simpa using hblocks
    exact ⟨allocations, rfl, h⟩
  | cons b todo ih =>
    obtain ⟨allocations₁, hblock, h₁⟩ := h.block order hp hblocks
      (fun _ hx => absurd hx List.not_mem_nil)
      (order.ids b (liveVars b)) fun x hx => (order.mem_ids _ _ _).mp hx
    have hdone : Placed blocks liveVars memories (done ++ [b]) [] allocations₁ := by
      refine ⟨h₁.slots, fun x => ?_⟩
      rw [h₁.domain x]
      simp [order.mem_ids, or_and_right, exists_or]
    have hblocks' : blocks = (done ++ [b]) ++ todo := by simpa using hblocks
    obtain ⟨allocations₂, hrest, h₂⟩ := ih hblocks' hdone
    refine ⟨allocations₂, ?_, h₂⟩
    rw [List.foldlM_cons, hblock]
    exact hrest

theorem allocateSlices_ok (order : HashOrder) (hp : Placeable blocks liveVars memories) :
    ∃ allocations, allocateSlices order memories liveVars blocks = some allocations ∧
      Placed blocks liveVars memories blocks [] allocations := by
  have hstart : Placed blocks liveVars memories [] [] ∅ := by
    refine ⟨⟨fun x a ha => ?_, fun x y a a' _ ha => ?_⟩, fun x => ?_⟩
    · cases (BTreeMap.get_empty x).symm.trans ha
    · cases (BTreeMap.get_empty x).symm.trans ha
    · simp
  exact Placed.all hp blocks rfl hstart

end

-- The whole analysis

namespace Program

/-- Memories named in reachable blocks have a size and an alignment. -/
def Sized (P : Program) : Prop := ∀ b m, P.Reachable b → P.Names b m → 0 < m.size ∧ 0 < m.align

/-- The memories named anywhere. -/
def memories (P : Program) : Finset SharedMemory :=
  P.nodeIds.toFinset.biUnion fun b => ((P.block b).ops.flatMap Instruction.memories).toFinset

theorem Names.mem_memories {b : NodeIndex} {m : SharedMemory} (hb : b ∈ P.nodeIds) (h : P.Names b m) :
    m ∈ P.memories := by
  refine Finset.mem_biUnion.mpr ⟨b, by simpa using hb, ?_⟩
  exact List.mem_toFinset.mpr (List.mem_flatMap.mpr h)

theorem LiveAt.mem {x : Id} {b : NodeIndex} (h : P.LiveAt uniform x b) : b ∈ P.nodeIds := by
  cases h with
  | live h => exact h.reachable.mem
  | diverge _ he => exact (P.edges_mem _ he).1
  | woken _ _ _ he => exact (P.edges_mem _ he).1

end Program

theorem weight_le_sum {memories : BTreeMap SharedMemory} {s : Finset SharedMemory}
    (h : ∀ (x : Id) (m : SharedMemory), memories[x]? = some m → m.id = x ∧ m ∈ s) :
    memories.weight footprint ≤ ∑ m ∈ s, footprint m := by
  have hnd : (memories.toList.map Prod.snd).Nodup := by
    refine List.Nodup.map_on ?_ (BTreeMap.nodup_toList memories)
    rintro ⟨x, m⟩ hx ⟨y, m'⟩ hy rfl
    rw [BTreeMap.mem_toList] at hx hy
    rw [← (h x m hx).1, ← (h y m hy).1]
  have hsub : (memories.toList.map Prod.snd).toFinset ⊆ s := by
    intro m hm
    obtain ⟨⟨x, m⟩, hx, rfl⟩ := List.mem_map.mp (List.mem_toFinset.mp hm)
    exact (h x m ((BTreeMap.mem_toList _ _ _).mp hx)).2
  calc memories.weight footprint = ((memories.toList.map Prod.snd).map footprint).sum := by
        rw [List.map_map]
        rfl
    _ = ∑ m ∈ (memories.toList.map Prod.snd).toFinset, footprint m := (List.sum_toFinset _ hnd).symm
    _ ≤ ∑ m ∈ s, footprint m := Finset.sum_le_sum_of_subset hsub

/-- What the analysis guarantees about its slots. -/
structure SlotsApart (P : Program) (L : SharedLiveness) : Prop where
  allocated : ∀ (x : Id) (m : SharedMemory), L.sharedMemories[x]? = some m →
    ∃ a, L.allocations[x]? = some a ∧ a.smem = m ∧ 0 < m.align ∧ m.align ∣ a.offset
  apart : ∀ b ∈ P.nodeIds, ∀ x ∈ L.liveVars b, ∀ y ∈ L.liveVars b, x ≠ y → ∀ a a',
    L.allocations[x]? = some a → L.allocations[y]? = some a' → Apart a a'

/-- After `split_free`, slots of memories that are live together are apart when every
memory is first met where all it meets later are live. -/
theorem slots_apart (fresh : Program.Fresh) (P₀ : Program) (h : P = P₀.splitFree fresh)
    (hpost : ∀ b, b ∈ postOrder ↔ P.Reachable b) (hsized : P.Sized)
    (hfits : ∑ m ∈ P.memories, footprint m ≤ u64Max) (hseen : SeenTogether P.nodeIds (P.LiveAt uniform)) :
    ∃ L, SharedLiveness.init P postOrder uniform order = some L ∧ SlotsApart P L := by
  have hsplit : P.Split := h ▸ Program.splitFree_split fresh P₀
  let memories := collectSharedMemories P postOrder.reverse
  let liveVars := P.uniformizeLiveness postOrder uniform (P.analyzeLiveness postOrder)
  have hlive : InSet liveVars = P.LiveAt uniform := by
    funext x b
    exact propext (Program.mem_liveVars hpost)
  have hnamed : ∀ (x : Id) (m : SharedMemory), memories[x]? = some m →
      m.id = x ∧ ∃ b, P.Reachable b ∧ P.Names b m := fun x m hm => collected_sound hpost hm
  have hp : Placeable P.nodeIds liveVars memories := by
    refine ⟨fun b _ x hx => ?_, fun x m hm => ?_, ?_, hlive ▸ hseen⟩
    · obtain ⟨c, m, hc, hm, rfl⟩ := ((Program.mem_liveVars hpost).mp hx).named
      exact collected_complete hpost hc hm
    · obtain ⟨hid, b, hb, hm⟩ := hnamed x m hm
      exact ⟨hid, hsized b m hb hm⟩
    · refine (weight_le_sum fun x m hm => ?_).trans hfits
      obtain ⟨hid, b, hb, hm⟩ := hnamed x m hm
      exact ⟨hid, hm.mem_memories hb.mem⟩
  obtain ⟨allocations, halloc, hplaced⟩ := allocateSlices_ok order hp
  refine ⟨{ liveVars, sharedMemories := memories, allocations }, ?_, fun x m hm => ?_, ?_⟩
  · simp only [SharedLiveness.init, halloc, memories, liveVars, Option.bind_eq_bind, Option.bind_some]
  · obtain ⟨hid, b, hb, hnames⟩ := hnamed x m hm
    have hlive : x ∈ liveVars b := (Program.mem_liveVars hpost).mpr (.live (hid ▸ hsplit.liveIn hb hnames))
    obtain ⟨a, ha⟩ := (hplaced.domain x).mpr (.inl ⟨b, hb.mem, hlive⟩)
    obtain ⟨hsmem, hdvd, -⟩ := hplaced.slots.entry x a ha
    obtain rfl : m = a.smem := Option.some.inj (hm.symm.trans hsmem)
    exact ⟨a, ha, rfl, (hp.keyed x _ hm).2.2, hdvd⟩
  · intro b hb x hx y hy hne a a' ha ha'
    exact hplaced.slots.apart x y a a' hne ha ha' ⟨b, hb, hx, hy⟩

-- Two programs

theorem Program.Reachable.inside {b : NodeIndex} (h : P.Reachable b) {blocks : List NodeIndex}
    (hentry : P.entry ∈ blocks) (hedges : ∀ e ∈ P.edges, e.1 ∈ blocks → e.2 ∈ blocks) : b ∈ blocks := by
  induction h with
  | refl => exact hentry
  | tail _ he ih => exact hedges _ he ih

/-- New nodes get the next index. -/
def nextIndex : Program.Fresh where
  index l := l.sum + 1
  fresh l := fun h => absurd (List.le_sum_of_mem h) (Nat.not_succ_le_self l.sum)

/-- Sets and maps iterated in ascending order. -/
def ascending : HashOrder where
  ids _ s := (List.range (s.sup id + 1)).filter (· ∈ s)
  ids_nodup _ _ := List.Nodup.filter _ List.nodup_range
  mem_ids _ s x := by
    simp only [List.mem_filter, List.mem_range, decide_eq_true_eq, and_iff_right_iff_imp]
    exact fun hx => Nat.lt_succ_of_le (Finset.le_sup (f := id) hx)
  slices _ l := l
  slices_perm _ _ := .refl _

/-- A use of shared memory `id`, an array of four 4-byte elements. -/
def useOf (id : Id) : Instruction := .op none [⟨.sharedArray id 4 1 none, 4⟩]

/-- One block that uses a memory, frees it, and uses another. -/
def straight : Program where
  nodeIds := [0]
  entry := 0
  edges := []
  block _ := { ops := [useOf 0, .free ⟨.sharedArray 0 4 1 none, 4⟩, useOf 1], unreachable := false }
  nodup := by decide
  entry_mem := by decide
  edges_mem := by decide
  ends := by decide

/-- A branch whose arms each use a memory of their own. -/
def branches : Program where
  nodeIds := [0, 1, 2, 3]
  entry := 0
  edges := [(0, 1), (0, 2), (1, 3), (2, 3)]
  block b := { ops := if b = 1 then [useOf 0] else if b = 2 then [useOf 1] else [], unreachable := false }
  nodup := by decide
  entry_mem := by decide
  edges_mem := by decide
  ends := by decide

theorem straight_postOrder (b : NodeIndex) : b ∈ [2, 1, 0] ↔ (straight.splitFree nextIndex).Reachable b := by
  have h01 : (0, 1) ∈ (straight.splitFree nextIndex).edges := by decide +kernel
  have h12 : (1, 2) ∈ (straight.splitFree nextIndex).edges := by decide +kernel
  constructor
  · intro hb
    simp only [List.mem_cons, List.not_mem_nil, or_false] at hb
    rcases hb with rfl | rfl | rfl
    · exact (Relation.ReflTransGen.refl.tail h01).tail h12
    · exact Relation.ReflTransGen.refl.tail h01
    · exact .refl
  · exact fun h => h.inside (by decide +kernel) (by decide +kernel)

theorem branches_postOrder (b : NodeIndex) :
    b ∈ [3, 1, 2, 0] ↔ (branches.splitFree nextIndex).Reachable b := by
  have h01 : (0, 1) ∈ (branches.splitFree nextIndex).edges := by decide +kernel
  have h02 : (0, 2) ∈ (branches.splitFree nextIndex).edges := by decide +kernel
  have h13 : (1, 3) ∈ (branches.splitFree nextIndex).edges := by decide +kernel
  constructor
  · intro hb
    simp only [List.mem_cons, List.not_mem_nil, or_false] at hb
    rcases hb with rfl | rfl | rfl | rfl
    · exact (Relation.ReflTransGen.refl.tail h01).tail h13
    · exact Relation.ReflTransGen.refl.tail h01
    · exact Relation.ReflTransGen.refl.tail h02
    · exact .refl
  · exact fun h => h.inside (by decide +kernel) (by decide +kernel)

theorem straight_liveAt {x : Id} {b : NodeIndex}
    (h : (straight.splitFree nextIndex).LiveAt (fun _ => true) x b) : x = 0 ∧ b = 0 ∨ x = 1 ∧ b = 2 := by
  have hb : b ∈ [0, 1, 2] := by
    rw [show [0, 1, 2] = (straight.splitFree nextIndex).nodeIds by decide +kernel]
    exact h.mem
  have hall : ∀ b ∈ [0, 1, 2], ∀ x ∈ (straight.splitFree nextIndex).uniformizeLiveness [2, 1, 0]
      (fun _ => true) ((straight.splitFree nextIndex).analyzeLiveness [2, 1, 0]) b,
      x = 0 ∧ b = 0 ∨ x = 1 ∧ b = 2 := by decide +kernel
  exact hall b hb x ((Program.mem_liveVars straight_postOrder).mpr h)

theorem slots_apart_straight : ∃ L,
    SharedLiveness.init (straight.splitFree nextIndex) [2, 1, 0] (fun _ => true) ascending = some L ∧
      SlotsApart (straight.splitFree nextIndex) L := by
  refine slots_apart nextIndex straight rfl straight_postOrder ?_ (by decide +kernel) ?_
  · have hall : ∀ b ∈ [2, 1, 0], ∀ inst ∈ ((straight.splitFree nextIndex).block b).ops,
        ∀ m ∈ inst.memories, 0 < m.size ∧ 0 < m.align := by decide +kernel
    rintro b m hb ⟨inst, hi, hm⟩
    exact hall b ((straight_postOrder b).mpr hb) inst hi m hm
  · rintro before b after - y hy hfirst x ⟨d, hd, hx⟩ ⟨c, -, hxc, hyc⟩
    -- each memory is live in one block only, so two live together are one memory
    obtain rfl : x = y := by
      rcases straight_liveAt hxc with ⟨rfl, rfl⟩ | ⟨rfl, rfl⟩ <;>
        rcases straight_liveAt hyc with ⟨rfl, hc⟩ | ⟨rfl, hc⟩ <;> first | rfl | cases hc
    exact absurd hx (hfirst d hd)

/-- The memories of the two arms share bytes and are both live after the join. -/
theorem branch_slots_overlap : (∀ b, b ∈ [3, 1, 2, 0] ↔ (branches.splitFree nextIndex).Reachable b) ∧
    ∃ L, SharedLiveness.init (branches.splitFree nextIndex) [3, 1, 2, 0] (fun _ => true) ascending = some L ∧
      ¬SlotsApart (branches.splitFree nextIndex) L := by
  refine ⟨branches_postOrder, ?_⟩
  have hrun : ((SharedLiveness.init (branches.splitFree nextIndex) [3, 1, 2, 0] (fun _ => true) ascending).map
      fun L => (L.liveVars 3, L.allocations[0]?, L.allocations[1]?)) =
      some ({0, 1}, some ⟨.array 0 4 4 4, 0⟩, some ⟨.array 1 4 4 4, 0⟩) := by decide +kernel
  obtain ⟨L, hL, hslots⟩ := Option.map_eq_some_iff.mp hrun
  simp only [Prod.mk.injEq] at hslots
  obtain ⟨hlive, h0, h1⟩ := hslots
  refine ⟨L, hL, fun h => ?_⟩
  have hapart := h.apart 3 (by decide +kernel) 0 (by simp [hlive]) 1 (by simp [hlive]) (by decide) _ _ h0 h1
  unfold Apart at hapart
  exact absurd hapart (by decide +kernel)

end Ruda.Optimizer
