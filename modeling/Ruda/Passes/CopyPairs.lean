import Ruda.Passes.CopyTransform

/-!
# Loads and stores that are fused

What the scan of a block finds, and where a value that is fused is used: in its store, as
the value that is stored, and nowhere else.
-/

namespace Ruda.BasicBlock

variable {E C O : Type}

-- What is fused

/-- A value is defined once, and used under its type by what comes later. -/
structure Ssa (block : Ops E C O) : Prop where
  unique : ∀ (i j : Nat) (a b : Instruction E C O) x y id, block[i]? = some (some a) → block[j]? = some (some b) →
    a.out = some x → b.out = some y → asVersioned x = some id → asVersioned y = some id → i = j
  used : ∀ (i j : Nat) (a b : Instruction E C O) x id, block[i]? = some (some a) → block[j]? = some (some b) →
    a.out = some x → asVersioned x = some id → ∀ var ∈ b.operation.args, asVersioned var = some id → var = x ∧ i < j

theorem asVersioned_congr {x y : Variable E C} (h : x.kind = y.kind) : asVersioned x = asVersioned y := by
  rw [asVersioned, asVersioned, h]

theorem memory_ne {x y : Variable E C} {id : Versioned} (hx : x.isMemory) (hy : asVersioned y = some id) :
    x.kind ≠ y.kind := by
  intro h
  unfold asVersioned at hy
  unfold Variable.isMemory at hx
  rw [h] at hx
  split at hy
  · rename_i hk; simp [hk] at hx
  · rename_i hk; simp [hk] at hx
  · cases hy

theorem memory_ne_local {x : Variable E C} (hx : x.isMemory) (id : Id) : x.kind ≠ .localMut id := by
  intro h
  simp [Variable.isMemory, h] at hx

variable [DecidableEq E] [DecidableEq C]

/-- `read` is the load of `value`, the only visit of which comes elsewhere. -/
structure Loads (elsewhere : Variable E C → Nat) (block : Ops E C O) (id : Versioned) (read : Access E C)
    (value : Variable E C) : Prop where
  inst : block[read.idx]? = some (some ⟨.index read.list read.index, some value⟩)
  memory : read.list.isMemory
  ty : read.list.ty = value.ty
  once : ¬isReused elsewhere block value
  versioned : asVersioned value = some id

structure Stores (block : Ops E C O) (id : Versioned) (write : Access E C) (value : Variable E C) : Prop where
  inst : block[write.idx]? = some (some ⟨.indexAssign write.index value, some write.list⟩)
  memory : write.list.isMemory
  ty : write.list.ty = value.ty
  versioned : asVersioned value = some id

/-- The load and the store of a value that the pass fuses. -/
structure Fuses (elsewhere : Variable E C → Nat) (block : Ops E C O) (id : Versioned) (read write : Access E C)
    (value : Variable E C) : Prop where
  loads : Loads elsewhere block id read value
  stores : Stores block id write value
  valid : valid block read write

-- Visits

theorem add_le_sum {l : List Nat} {i j a b : Nat} (hij : i < j) (hi : l[i]? = some a) (hj : l[j]? = some b) :
    a + b ≤ l.sum := by
  induction l generalizing i j with
  | nil => cases hi
  | cons n l ih =>
    obtain ⟨j, rfl⟩ : ∃ k, j = k + 1 := ⟨j - 1, by omega⟩
    rw [List.getElem?_cons_succ] at hj
    rw [List.sum_cons]
    cases i with
    | zero =>
      have hb := List.le_sum_of_mem (List.mem_of_getElem? hj)
      rw [List.getElem?_cons_zero, Option.some_inj] at hi
      omega
    | succ i =>
      have := ih (Nat.lt_of_succ_lt_succ hij) (by simpa using hi) hj
      omega

theorem count_le_visits {block : Ops E C O} {i : Nat} {inst : Instruction E C O} (hi : block[i]? = some (some inst))
    (var : Variable E C) : inst.operation.args.count var ≤ visits block var := by
  refine List.le_sum_of_mem (List.mem_of_getElem? (i := i) ?_)
  rw [List.getElem?_map, hi]
  rfl

theorem counts_le_visits {block : Ops E C O} {i j : Nat} {a b : Instruction E C O} (hij : i ≠ j)
    (hi : block[i]? = some (some a)) (hj : block[j]? = some (some b)) (var : Variable E C) :
    a.operation.args.count var + b.operation.args.count var ≤ visits block var := by
  rcases Nat.lt_or_gt_of_ne hij with hlt | hlt
  · exact add_le_sum hlt (by rw [List.getElem?_map, hi]; rfl) (by rw [List.getElem?_map, hj]; rfl)
  · rw [Nat.add_comm]
    exact add_le_sum hlt (by rw [List.getElem?_map, hj]; rfl) (by rw [List.getElem?_map, hi]; rfl)

-- The scan

/-- What one place adds to the loads and stores that are found. -/
theorem scan_cases {elsewhere : Variable E C → Nat} {block : Ops E C O} {found found' : Accesses E C} {idx : Nat}
    (h : scan elsewhere block found idx = some found') :
    (∃ id read value, read.idx = idx ∧ Loads elsewhere block id read value ∧
      found' = { found with reads := Function.update found.reads id (some read) }) ∨
    (∃ id write value, write.idx = idx ∧ Stores block id write value ∧
      found' = { found with writes := Function.update found.writes id (some write) }) ∨
    found' = found ∧ (∀ id read value, Loads elsewhere block id read value → read.idx ≠ idx) ∧
      ∀ id write value, Stores block id write value → write.idx ≠ idx := by
  cases hop : (block[idx]?).join with
  | none =>
    simp only [scan, hop] at h
    cases h
    refine .inr (.inr ⟨rfl, fun id read value hl he => ?_, fun id write value hs he => ?_⟩)
    · rw [← he, hl.inst] at hop
      cases hop
    · rw [← he, hs.inst] at hop
      cases hop
  | some inst =>
    have hi := Option.join_eq_some_iff.mp hop
    obtain ⟨operation, out⟩ := inst
    cases operation with
    | index list index =>
      have hstore : ∀ id write value, Stores block id write value → write.idx ≠ idx := by
        intro id write value hs he
        have := hs.inst
        rw [he, hi] at this
        cases this
      have hload : ∀ id read value, Loads elsewhere block id read value → read.idx = idx →
          list.isMemory ∧ ∃ o, out = some o ∧ list.ty = o.ty ∧ ¬isReused elsewhere block o ∧ (asVersioned o).isSome := by
        intro id read value hl he
        have heq := hl.inst
        rw [he, hi] at heq
        cases heq
        exact ⟨hl.memory, value, rfl, hl.ty, hl.once, by rw [hl.versioned]; rfl⟩
      simp only [scan, hop] at h
      split at h
      · rename_i hmem
        cases out with
        | none => cases h
        | some o =>
          simp only at h
          split at h
          · rename_i hcond
            cases hv : asVersioned o with
            | some id =>
              rw [hv] at h
              cases h
              exact .inl ⟨id, ⟨idx, list, index⟩, o, rfl, ⟨hi, hmem, hcond.1, hcond.2, hv⟩, rfl⟩
            | none =>
              rw [hv] at h
              cases h
              refine .inr (.inr ⟨rfl, fun id read value hl he => ?_, hstore⟩)
              obtain ⟨-, o', ho, -, -, hs⟩ := hload id read value hl he
              cases ho
              rw [hv] at hs
              cases hs
          · rename_i hcond
            cases h
            refine .inr (.inr ⟨rfl, fun id read value hl he => ?_, hstore⟩)
            obtain ⟨-, o', ho, hty, honce, -⟩ := hload id read value hl he
            cases ho
            exact hcond ⟨hty, honce⟩
      · rename_i hmem
        cases h
        exact .inr (.inr ⟨rfl, fun id read value hl he => hmem (hload id read value hl he).1, hstore⟩)
    | indexAssign index value =>
      have hload : ∀ id read value, Loads elsewhere block id read value → read.idx ≠ idx := by
        intro id read value hl he
        have := hl.inst
        rw [he, hi] at this
        cases this
      have hstore : ∀ id write stored, Stores block id write stored → write.idx = idx →
          ∃ o, out = some o ∧ o.isMemory ∧ o.ty = value.ty ∧ (asVersioned value).isSome := by
        intro id write stored hs he
        have heq := hs.inst
        rw [he, hi] at heq
        cases heq
        exact ⟨write.list, rfl, hs.memory, hs.ty, by rw [hs.versioned]; rfl⟩
      simp only [scan, hop] at h
      cases out with
      | none => cases h
      | some o =>
        simp only at h
        split at h
        · rename_i hcond
          cases hv : asVersioned value with
          | some id =>
            rw [hv] at h
            cases h
            exact .inr (.inl ⟨id, ⟨idx, o, index⟩, value, rfl, ⟨hi, hcond.1, hcond.2, hv⟩, rfl⟩)
          | none =>
            rw [hv] at h
            cases h
            refine .inr (.inr ⟨rfl, hload, fun id write stored hs he => ?_⟩)
            obtain ⟨o', -, -, -, hsome⟩ := hstore id write stored hs he
            rw [hv] at hsome
            cases hsome
        · rename_i hcond
          cases h
          refine .inr (.inr ⟨rfl, hload, fun id write stored hs he => ?_⟩)
          obtain ⟨o', ho, hmem, hty, -⟩ := hstore id write stored hs he
          cases ho
          exact hcond ⟨hmem, hty⟩
    | copy | initVector | copyMemory | nativeStore | typedStore | pointerStore | pointerAtomic | other =>
      simp only [scan, hop] at h
      cases h
      refine .inr (.inr ⟨rfl, fun id read value hl he => ?_, fun id write value hs he => ?_⟩)
      · have := hl.inst
        rw [he, hi] at this
        cases this
      · have := hs.inst
        rw [he, hi] at this
        cases this

/-- The scan in front of a place has the loads and stores so far, and nothing else. -/
structure Found (elsewhere : Variable E C → Nat) (block : Ops E C O) (idx : Nat) (found : Accesses E C) : Prop where
  reads : ∀ id read, found.reads id = some read → ∃ value, Loads elsewhere block id read value
  writes : ∀ id write, found.writes id = some write → ∃ value, Stores block id write value
  allReads : ∀ id read value, Loads elsewhere block id read value → read.idx < idx → (found.reads id).isSome
  allWrites : ∀ id write value, Stores block id write value → write.idx < idx → (found.writes id).isSome

theorem Found.scan {elsewhere : Variable E C → Nat} {block : Ops E C O} {idx : Nat} {found found' : Accesses E C}
    (hf : Found elsewhere block idx found) (h : scan elsewhere block found idx = some found') :
    Found elsewhere block (idx + 1) found' := by
  rcases scan_cases h with ⟨id, read, value, rfl, hl, rfl⟩ | ⟨id, write, value, rfl, hs, rfl⟩ | ⟨rfl, hl, hs⟩
  · refine ⟨fun id' read' h' => ?_, hf.writes, fun id' read' value' hl' hlt => ?_, fun id' write' value' hs' hlt => ?_⟩
    · by_cases hid : id' = id
      · subst hid
        simp only [Function.update_self, Option.some_inj] at h'
        exact ⟨value, h' ▸ hl⟩
      · simp only [Function.update_of_ne hid] at h'
        exact hf.reads id' read' h'
    · by_cases hid : id' = id
      · subst hid
        simp only [Function.update_self, Option.isSome_some]
      · simp only [Function.update_of_ne hid]
        refine hf.allReads id' read' value' hl' (Nat.lt_of_le_of_ne (Nat.le_of_lt_succ hlt) fun he => hid ?_)
        have heq := hl'.inst
        rw [he, hl.inst] at heq
        simp only [Option.some_inj, Instruction.mk.injEq] at heq
        exact Option.some_inj.mp (hl'.versioned.symm.trans (heq.2 ▸ hl.versioned))
    · refine hf.allWrites id' write' value' hs' (Nat.lt_of_le_of_ne (Nat.le_of_lt_succ hlt) fun he => ?_)
      have heq := hs'.inst
      rw [he, hl.inst] at heq
      cases heq
  · refine ⟨hf.reads, fun id' write' h' => ?_, fun id' read' value' hl' hlt => ?_, fun id' write' value' hs' hlt => ?_⟩
    · by_cases hid : id' = id
      · subst hid
        simp only [Function.update_self, Option.some_inj] at h'
        exact ⟨value, h' ▸ hs⟩
      · simp only [Function.update_of_ne hid] at h'
        exact hf.writes id' write' h'
    · refine hf.allReads id' read' value' hl' (Nat.lt_of_le_of_ne (Nat.le_of_lt_succ hlt) fun he => ?_)
      have heq := hl'.inst
      rw [he, hs.inst] at heq
      cases heq
    · by_cases hid : id' = id
      · subst hid
        simp only [Function.update_self, Option.isSome_some]
      · simp only [Function.update_of_ne hid]
        refine hf.allWrites id' write' value' hs' (Nat.lt_of_le_of_ne (Nat.le_of_lt_succ hlt) fun he => hid ?_)
        have heq := hs'.inst
        rw [he, hs.inst] at heq
        simp only [Option.some_inj, Instruction.mk.injEq, Operation.indexAssign.injEq] at heq
        exact Option.some_inj.mp (hs'.versioned.symm.trans (heq.1.2 ▸ hs.versioned))
  · exact ⟨hf.reads, hf.writes,
      fun id read value hl' hlt => hf.allReads id read value hl'
        (Nat.lt_of_le_of_ne (Nat.le_of_lt_succ hlt) (hl id read value hl')),
      fun id write value hs' hlt => hf.allWrites id write value hs'
        (Nat.lt_of_le_of_ne (Nat.le_of_lt_succ hlt) (hs id write value hs'))⟩

theorem accesses_found {elsewhere : Variable E C → Nat} {block : Ops E C O} {found : Accesses E C}
    (h : accesses elsewhere block = some found) : Found elsewhere block block.length found := by
  refine @foldlM_indices _ _ _ _ _ (Found elsewhere block) _ _ _ ?_ (fun idx inst st st' _ hf hst => hf.scan hst)
    (fun idx st hi hf => ?_) h
  · exact ⟨fun _ _ h => (nomatch h), fun _ _ h => (nomatch h), fun _ _ _ _ h => absurd h (Nat.not_lt_zero _),
      fun _ _ _ _ h => absurd h (Nat.not_lt_zero _)⟩
  · refine ⟨hf.reads, hf.writes, fun id read value hl hlt => ?_, fun id write value hs hlt => ?_⟩
    · have hne : read.idx ≠ idx := fun he => hi _ (he ▸ hl.inst)
      exact hf.allReads id read value hl (by omega)
    · have hne : write.idx ≠ idx := fun he => hi _ (he ▸ hs.inst)
      exact hf.allWrites id write value hs (by omega)

-- The uses of a fused value

section Uses

variable {elsewhere : Variable E C → Nat} {block : Ops E C O} {id : Versioned} {read write : Access E C}
  {value : Variable E C}

theorem Loads.unique (hssa : Ssa block) {read' : Access E C} {value' : Variable E C}
    (h : Loads elsewhere block id read value) (h' : Loads elsewhere block id read' value') :
    read' = read ∧ value' = value := by
  have hidx : read.idx = read'.idx := hssa.unique _ _ _ _ _ _ id h.inst h'.inst rfl rfl h.versioned h'.versioned
  have heq := h'.inst
  rw [← hidx, h.inst] at heq
  simp only [Option.some_inj, Instruction.mk.injEq, Operation.index.injEq] at heq
  obtain ⟨idx, list, index⟩ := read
  obtain ⟨idx', list', index'⟩ := read'
  simp only at hidx heq
  rw [hidx, heq.1.1, heq.1.2, heq.2]
  exact ⟨rfl, rfl⟩

omit [DecidableEq E] [DecidableEq C] in
theorem Stores.eq_of_idx {write' : Access E C} {stored stored' : Variable E C} (h : Stores block id write stored)
    (h' : Stores block id write' stored') (hidx : write.idx = write'.idx) : write = write' := by
  have heq := h'.inst
  rw [← hidx, h.inst] at heq
  simp only [Option.some_inj, Instruction.mk.injEq, Operation.indexAssign.injEq] at heq
  obtain ⟨idx, list, index⟩ := write
  obtain ⟨idx', list', index'⟩ := write'
  simp only at hidx heq
  rw [hidx, heq.1.1, heq.2]

theorem Loads.visit (hssa : Ssa block) (h : Loads elsewhere block id read value) {idx idx' : Nat}
    {inst inst' : Instruction E C O} (hi : block[idx]? = some (some inst)) (hi' : block[idx']? = some (some inst'))
    (hr : inst.reads value.kind) (hr' : inst'.reads value.kind) :
    idx' = idx ∧ inst.operation.args.count value = 1 ∧ elsewhere value = 0 := by
  have hcount : ∀ {j : Nat} {a : Instruction E C O}, block[j]? = some (some a) → a.reads value.kind → 0 < a.operation.args.count value := by
    rintro j a hj ⟨var, hvar, hkind⟩
    have hv : asVersioned var = some id := (asVersioned_congr hkind).trans h.versioned
    rw [(hssa.used _ _ _ _ _ id h.inst hj rfl h.versioned var hvar hv).1] at hvar
    exact List.count_pos_iff.mpr hvar
  have honce := h.once
  simp only [isReused, decide_eq_true_eq, Nat.not_lt] at honce
  have h1 := hcount hi hr
  have h2 := hcount hi' hr'
  have hle := count_le_visits hi value
  refine ⟨?_, by omega, by omega⟩
  by_contra hne
  have := counts_le_visits hne hi' hi value
  omega

theorem Fuses.lt (hssa : Ssa block) (h : Fuses elsewhere block id read write value) : read.idx < write.idx :=
  (hssa.used _ _ _ _ _ id h.loads.inst h.stores.inst rfl h.loads.versioned value
    (List.mem_cons_of_mem _ (List.mem_singleton_self _)) h.loads.versioned).2

omit [DecidableEq E] [DecidableEq C] in
theorem assign_reads (index value out : Variable E C) :
    (⟨.indexAssign index value, some out⟩ : Instruction E C O).reads value.kind :=
  ⟨value, List.mem_cons_of_mem _ (List.mem_singleton_self _), rfl⟩

theorem Fuses.reads_at (hssa : Ssa block) (h : Fuses elsewhere block id read write value) {idx : Nat}
    {inst : Instruction E C O} (hi : block[idx]? = some (some inst)) (hr : inst.reads value.kind) : idx = write.idx :=
  (h.loads.visit hssa h.stores.inst hi (assign_reads ..) hr).1

theorem Fuses.unused (hssa : Ssa block) (h : Fuses elsewhere block id read write value) : elsewhere value = 0 :=
  (h.loads.visit hssa h.stores.inst h.stores.inst (assign_reads ..) (assign_reads ..)).2.2

theorem Fuses.index_ne (hssa : Ssa block) (h : Fuses elsewhere block id read write value) :
    write.index.kind ≠ value.kind := by
  intro hkind
  have hv : asVersioned write.index = some id := (asVersioned_congr hkind).trans h.loads.versioned
  have heq := (hssa.used _ _ _ _ _ id h.loads.inst h.stores.inst rfl h.loads.versioned write.index
    (List.mem_cons_self ..) hv).1
  have hcount := (h.loads.visit hssa h.stores.inst h.stores.inst (assign_reads ..) (assign_reads ..)).2.1
  simp [Operation.args, heq] at hcount

theorem Fuses.writes_at (hssa : Ssa block) (h : Fuses elsewhere block id read write value) {idx : Nat}
    {inst : Instruction E C O} (hi : block[idx]? = some (some inst)) (hw : inst.writes value.kind) : idx = read.idx := by
  obtain ⟨out, ho, hkind⟩ := hw
  exact hssa.unique _ _ _ _ _ _ id hi h.loads.inst ho rfl ((asVersioned_congr hkind).trans h.loads.versioned)
    h.loads.versioned

theorem Fuses.unique (hssa : Ssa block) {read' write' : Access E C} {value' : Variable E C}
    (h : Fuses elsewhere block id read write value) (h' : Fuses elsewhere block id read' write' value') :
    read' = read ∧ write' = write ∧ value' = value := by
  obtain ⟨hread, hvalue⟩ := h.loads.unique hssa h'.loads
  subst hread hvalue
  have hidx : write'.idx = write.idx := h.reads_at hssa h'.stores.inst (assign_reads ..)
  exact ⟨rfl, h'.stores.eq_of_idx h.stores hidx, rfl⟩

end Uses

end Ruda.BasicBlock
