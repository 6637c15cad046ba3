import Ruda.Optimizer.SharedLiveness

/-!
# What the analysis computes

Liveness of shared memory along the paths of the graph, and that the two passes of
the analysis compute exactly it. A memory is live from a use on, along every edge,
until it is freed; divergent liveness then extends to the blocks before.
-/

namespace Ruda.Optimizer

variable {P : Program} {postOrder : List NodeIndex} {uniform : NodeIndex → Bool} {x y : Id}
  {b c : NodeIndex}

namespace Program

/-- Ids used in block `b` and not freed after that. -/
def generated (P : Program) (b : NodeIndex) : Finset Id := (calculateBlockSets (P.block b).ops).generated

def kill (P : Program) (b : NodeIndex) : Finset Id := (calculateBlockSets (P.block b).ops).kill

/-- Some path leads from the entry to `b`. -/
def Reachable (P : Program) : NodeIndex → Prop :=
  Relation.ReflTransGen (fun a c => (a, c) ∈ P.edges) P.entry

theorem Reachable.mem (h : P.Reachable b) : b ∈ P.nodeIds := by
  cases h with
  | refl => exact P.entry_mem
  | tail _ he => exact (P.edges_mem _ he).2

/-- `x` is used on a path to `b` and not freed since. -/
inductive LiveIn (P : Program) (x : Id) : NodeIndex → Prop
  | use {b : NodeIndex} (hb : P.Reachable b) (hx : x ∈ P.generated b) : LiveIn P x b
  | flow {a b : NodeIndex} (ha : LiveIn P x a) (he : (a, b) ∈ P.edges) (hx : x ∉ P.kill b) : LiveIn P x b

theorem LiveIn.reachable (h : P.LiveIn x b) : P.Reachable b := by
  induction h with
  | use hb _ => exact hb
  | flow _ he _ ih => exact ih.tail he

/-- `x` is live at `b`, or at a divergent block after it. A block that no path leads to
is only looked at when the set of a block after it has changed. -/
inductive LiveAt (P : Program) (uniform : NodeIndex → Bool) : Id → NodeIndex → Prop
  | live {x : Id} {b : NodeIndex} (h : P.LiveIn x b) : LiveAt P uniform x b
  | diverge {x : Id} {b c : NodeIndex} (hb : P.Reachable b) (he : (b, c) ∈ P.edges)
      (hc : uniform c = false) (h : LiveAt P uniform x c) : LiveAt P uniform x b
  | woken {x y : Id} {b c d : NodeIndex} (hd : (b, d) ∈ P.edges) (hy : LiveAt P uniform y d)
      (hnew : ¬P.LiveIn y d) (he : (b, c) ∈ P.edges) (hc : uniform c = false)
      (h : LiveAt P uniform x c) : LiveAt P uniform x b

-- The first pass

theorem mem_livenessFlow {v : NodeIndex → Finset Id} :
    x ∈ P.livenessFlow.transfer b v ↔
      x ∈ P.generated b ∨ ∃ a, (a, b) ∈ P.edges ∧ x ∈ v a ∧ x ∉ P.kill b := by
  simp [livenessFlow, generated, kill, mem_predecessors]

theorem visit_memories (sets : BlockSets) (inst : Instruction) {ids : Finset Id}
    (hs : sets.generated ⊆ ids) (hi : ∀ m ∈ inst.memories, m.id ∈ ids) :
    (sets.visit inst).generated ⊆ ids := by
  have hunion : sets.generated ∪ (inst.memories.map SharedMemory.id).toFinset ⊆ ids := by
    refine Finset.union_subset hs fun j hj => ?_
    obtain ⟨m, hm, rfl⟩ := by simpa using hj
    exact hi m hm
  cases inst with
  | op out reads => exact hunion
  | free var =>
    unfold BlockSets.visit
    dsimp only
    split
    · exact (Finset.erase_subset _ _).trans hunion
    · exact (Finset.erase_subset _ _).trans hunion
    · exact hunion

theorem foldl_visit_memories (ops : List Instruction) (sets : BlockSets) {ids : Finset Id}
    (hs : sets.generated ⊆ ids) (hi : ∀ inst ∈ ops, ∀ m ∈ inst.memories, m.id ∈ ids) :
    (ops.foldl BlockSets.visit sets).generated ⊆ ids := by
  induction ops generalizing sets with
  | nil => exact hs
  | cons inst ops ih =>
    refine ih (sets.visit inst) (visit_memories sets inst hs (hi inst List.mem_cons_self)) ?_
    exact fun i hi' => hi i (List.mem_cons_of_mem _ hi')

theorem mem_ids (hb : b ∈ P.nodeIds) {inst : Instruction} (hi : inst ∈ (P.block b).ops) {m : SharedMemory}
    (hm : m ∈ inst.memories) : m.id ∈ P.ids := by
  simp only [ids, Finset.mem_biUnion, List.mem_toFinset, List.mem_map, List.mem_flatMap]
  exact ⟨b, hb, m, ⟨inst, hi, hm⟩, rfl⟩

theorem generated_subset (hb : b ∈ P.nodeIds) : P.generated b ⊆ P.ids :=
  foldl_visit_memories _ _ (Finset.empty_subset _) fun _ hi _ hm => mem_ids hb hi hm

theorem LiveIn.mem_ids (h : P.LiveIn x b) : x ∈ P.ids := by
  induction h with
  | use hb hx => exact generated_subset hb.mem hx
  | flow _ _ _ ih => exact ih

theorem livenessFlow_monotone : P.livenessFlow.Monotone P.nodeIds.toFinset P.ids where
  mono := fun n v v' h x hx => by
    rw [mem_livenessFlow] at hx ⊢
    exact hx.imp_right fun ⟨a, he, hx, hk⟩ => ⟨a, he, h a hx, hk⟩
  inside := fun n hn v h x hx => by
    rw [mem_livenessFlow] at hx
    rcases hx with hx | ⟨a, -, hx, -⟩
    · exact generated_subset (by simpa using hn) hx
    · exact h a hx
  reads := fun n m v s hn x hx => by
    rw [mem_livenessFlow] at hx
    refine Finset.mem_union_left _ (mem_livenessFlow.mpr (hx.imp_right ?_))
    rintro ⟨a, he, hx, hk⟩
    have hne : a ≠ m := by
      rintro rfl
      exact hn (mem_successors.mpr he)
    rw [Function.update_of_ne hne] at hx
    exact ⟨a, he, hx, hk⟩
  nodes := fun n _ m hm => by
    simpa using (P.edges_mem _ (mem_successors.mp hm)).2

theorem mem_analyzeLiveness (hpost : ∀ b, b ∈ postOrder ↔ P.Reachable b) :
    x ∈ P.analyzeLiveness postOrder b ↔ P.LiveIn x b := by
  have hasc : P.livenessFlow.Ascending P.nodeIds.toFinset P.ids
      { worklist := postOrder.reverse, value := fun _ => ∅ } :=
    ⟨fun n hn => by simpa using ((hpost n).mp (by simpa using hn)).mem, fun _ => Finset.empty_subset _,
      fun _ => Finset.empty_subset _⟩
  have hclosed := (Flow.run_closed livenessFlow_monotone hasc le_rfl).2
  constructor
  · refine fun hx => Flow.run_least livenessFlow_monotone hasc (P := fun b x => P.LiveIn x b)
      (fun _ _ hx => absurd hx (Finset.notMem_empty _)) ?_ _ b x hx
    intro n hn v hv x hx
    rcases mem_livenessFlow.mp hx with hgen | ⟨a, he, hx, hk⟩
    · refine .use ?_ hgen
      rcases hn with hn | ⟨m, y, hy, -, hm⟩
      · exact (hpost n).mp (by simpa using hn)
      · exact hy.reachable.tail (mem_successors.mp hm)
    · exact .flow (hv a x hx) he hk
  · intro hx
    induction hx with
    | @use b hb hx =>
      exact hclosed b (.inl (by simpa using (hpost b).mpr hb)) (mem_livenessFlow.mpr (.inl hx))
    | @flow a b _ he hk ih =>
      refine hclosed b (.inr ⟨a, x, ih, Finset.notMem_empty _, mem_successors.mpr he⟩) ?_
      exact mem_livenessFlow.mpr (.inr ⟨a, he, ih, hk⟩)

-- The second pass

theorem mem_uniformFlow {v : NodeIndex → Finset Id} :
    x ∈ (P.uniformFlow uniform).transfer b v ↔
      x ∈ v b ∨ ∃ c, (b, c) ∈ P.edges ∧ uniform c = false ∧ x ∈ v c := by
  simp [uniformFlow, mem_successors, and_assoc]

theorem uniformFlow_monotone : (P.uniformFlow uniform).Monotone P.nodeIds.toFinset P.ids where
  mono := fun n v v' h x hx => by
    rw [mem_uniformFlow] at hx ⊢
    exact hx.imp (fun hx => h n hx) fun ⟨c, he, hc, hx⟩ => ⟨c, he, hc, h c hx⟩
  inside := fun n _ v h x hx => by
    rw [mem_uniformFlow] at hx
    rcases hx with hx | ⟨c, -, -, hx⟩
    · exact h n hx
    · exact h c hx
  reads := fun n m v s hn x hx => by
    rw [mem_uniformFlow] at hx
    rcases hx with hx | ⟨c, he, hc, hx⟩
    · exact Finset.mem_union_right _ hx
    · have hne : c ≠ m := by
        rintro rfl
        exact hn (mem_predecessors.mpr he)
      rw [Function.update_of_ne hne] at hx
      exact Finset.mem_union_left _ (mem_uniformFlow.mpr (.inr ⟨c, he, hc, hx⟩))
  nodes := fun n _ m hm => by
    simpa using (P.edges_mem _ (mem_predecessors.mp hm)).1

theorem mem_liveVars (hpost : ∀ b, b ∈ postOrder ↔ P.Reachable b) :
    x ∈ P.uniformizeLiveness postOrder uniform (P.analyzeLiveness postOrder) b ↔ P.LiveAt uniform x b := by
  have hin : ∀ {x b}, x ∈ P.analyzeLiveness postOrder b ↔ P.LiveIn x b := mem_analyzeLiveness hpost
  have hids : ∀ b, P.analyzeLiveness postOrder b ⊆ P.ids := fun b x hx => (hin.mp hx).mem_ids
  have hasc : (P.uniformFlow uniform).Ascending P.nodeIds.toFinset P.ids
      { worklist := postOrder, value := P.analyzeLiveness postOrder } :=
    ⟨fun n hn => by simpa using ((hpost n).mp hn).mem, hids,
      fun n x hx => mem_uniformFlow.mpr (.inl hx)⟩
  obtain ⟨hgrows, hclosed⟩ := Flow.run_closed uniformFlow_monotone hasc le_rfl
  constructor
  · refine fun hx => Flow.run_least uniformFlow_monotone hasc (P := fun b x => P.LiveAt uniform x b)
      (fun _ _ hx => .live (hin.mp hx)) ?_ _ b x hx
    intro n hn v hv x hx
    rcases mem_uniformFlow.mp hx with hx | ⟨c, he, hc, hx⟩
    · exact hv n x hx
    · rcases hn with hn | ⟨d, y, hy, hnew, hd⟩
      · exact .diverge ((hpost n).mp hn) he hc (hv c x hx)
      · exact .woken (mem_predecessors.mp hd) hy (fun h => hnew (hin.mpr h)) he hc (hv c x hx)
  · intro hx
    induction hx with
    | live h => exact hgrows _ (hin.mpr h)
    | @diverge x b c hb he hc _ ih =>
      exact hclosed b (.inl ((hpost b).mpr hb)) (mem_uniformFlow.mpr (.inr ⟨c, he, hc, ih⟩))
    | @woken x y b c d hd _ hnew he hc _ ihy ihx =>
      refine hclosed b (.inr ⟨d, y, ihy, fun h => hnew (hin.mp h), mem_predecessors.mpr hd⟩) ?_
      exact mem_uniformFlow.mpr (.inr ⟨c, he, hc, ihx⟩)

end Program
end Ruda.Optimizer
