import Ruda.Passes.CopyPairs

/-!
# When copying in memory changes nothing

The load moves down to the store, past everything that `valid` does not know to store
something: barriers, stores under another type or to an array that aliases, writes of a
variable that the index is in. The states of a block and of the block with its copies differ
in the values that are no longer loaded, and in nothing else if and only if each store
would store the same at its own place.
-/

namespace Ruda.BasicBlock

variable {E C O V W : Type} [DecidableEq E] [DecidableEq C]

-- What the pass writes

/-- `ops` has the pairs in `done` fused. -/
structure Fused (elsewhere : Variable E C → Nat) (block : Ops E C O) (done : Versioned → Prop) (ops : Ops E C O) :
    Prop where
  length : ops.length = block.length
  read : ∀ id read write value, done id → Fuses elsewhere block id read write value → ops[read.idx]? = some none
  write : ∀ id read write value, done id → Fuses elsewhere block id read write value →
    ops[write.idx]? = some (some ⟨.copyMemory write.index read.list read.index, some write.list⟩)
  other : ∀ idx, (∀ id read write value, done id → Fuses elsewhere block id read write value →
    idx ≠ read.idx ∧ idx ≠ write.idx) → ops[idx]? = block[idx]?

section Fused

variable {elsewhere : Variable E C → Nat} {block ops : Ops E C O} {done : Versioned → Prop}

theorem Fused.start (elsewhere : Variable E C → Nat) (block : Ops E C O) : Fused elsewhere block (fun _ => False) block :=
  ⟨rfl, fun _ _ _ _ h => h.elim, fun _ _ _ _ h => h.elim, fun _ _ => rfl⟩

theorem Fused.passes_eq (h : Fused elsewhere block done ops) {input out : Variable E C} (hin : input.isMemory)
    (hout : out.isMemory) (idx : Nat) : passes ops input out idx = passes block input out idx := by
  by_cases htouched : ∃ id read write value, done id ∧ Fuses elsewhere block id read write value ∧
      (idx = read.idx ∨ idx = write.idx)
  · obtain ⟨id, read, write, value, hd, hf, rfl | rfl⟩ := htouched
    · have hne : ∀ var : Variable E C, var.isMemory → value ≠ var := fun var hvar he =>
        memory_ne hvar hf.loads.versioned (congrArg _ he.symm)
      simp [passes, h.read id read write value hd hf, hf.loads.inst, Operation.stores, hne _ hin, hne _ hout]
    · simp [passes, h.write id read write value hd hf, hf.stores.inst, Operation.stores]
  · have hsame := h.other idx fun id read write value hd hf =>
      ⟨fun he => htouched ⟨id, read, write, value, hd, hf, .inl he⟩,
        fun he => htouched ⟨id, read, write, value, hd, hf, .inr he⟩⟩
    rw [passes, passes, hsame]

theorem Fused.valid_eq (h : Fused elsewhere block done ops) {read write : Access E C} (hin : read.list.isMemory)
    (hout : write.list.isMemory) : valid ops read write = valid block read write := by
  rw [valid, valid]
  exact List.all_congr rfl fun idx => h.passes_eq hin hout idx

theorem Fused.fuse_pair (hssa : Ssa block) (h : Fused elsewhere block done ops) {id : Versioned}
    {read write : Access E C} {value : Variable E C} (hf : Fuses elsewhere block id read write value) :
    Fused elsewhere block (fun other => done other ∨ other = id)
      ((ops.set read.idx none).set write.idx
        (some ⟨.copyMemory write.index read.list read.index, some write.list⟩)) := by
  have hlt := hf.lt hssa
  have hw : write.idx < block.length := (List.getElem?_eq_some_iff.mp hf.stores.inst).1
  have hr : read.idx < ops.length := by
    rw [h.length]
    omega
  have hw' : write.idx < (ops.set read.idx (none : Option (Instruction E C O))).length := by
    rw [List.length_set, h.length]
    exact hw
  -- A load and a store have no place in common.
  have hapart : ∀ {id read write value id' read' write' value'}, Fuses elsewhere block id read write value →
      Fuses elsewhere block id' read' write' value' → read.idx ≠ write'.idx := by
    intro id read write value id' read' write' value' hf hf' he
    have heq := hf.loads.inst
    rw [he, hf'.stores.inst] at heq
    cases heq
  refine ⟨by rw [List.length_set, List.length_set, h.length], fun id' read' write' value' hd hf' => ?_,
    fun id' read' write' value' hd hf' => ?_, fun idx hidx => ?_⟩
  · rw [List.getElem?_set_ne (hapart hf' hf).symm]
    by_cases he : read.idx = read'.idx
    · rw [← he, List.getElem?_set_self hr]
    · rw [List.getElem?_set_ne he]
      rcases hd with hd | rfl
      · exact h.read id' read' write' value' hd hf'
      · exact absurd (congrArg _ (hf.unique hssa hf').1.symm) he
  · by_cases he : write.idx = write'.idx
    · have hid : id' = id := by
        have heq := hf'.stores.inst
        rw [← he, hf.stores.inst] at heq
        simp only [Option.some_inj, Instruction.mk.injEq, Operation.indexAssign.injEq] at heq
        exact Option.some_inj.mp (hf'.stores.versioned.symm.trans (heq.1.2 ▸ hf.stores.versioned))
      subst hid
      obtain ⟨rfl, rfl, -⟩ := hf.unique hssa hf'
      rw [List.getElem?_set_self hw']
    · rw [List.getElem?_set_ne he, List.getElem?_set_ne (hapart hf hf')]
      rcases hd with hd | rfl
      · exact h.write id' read' write' value' hd hf'
      · exact absurd (congrArg _ (hf.unique hssa hf').2.1.symm) he
  · obtain ⟨hne, hne'⟩ := hidx id read write value (.inr rfl) hf
    rw [List.getElem?_set_ne hne'.symm, List.getElem?_set_ne hne.symm]
    exact h.other idx fun id' read' write' value' hd hf' => hidx id' read' write' value' (.inl hd) hf'

theorem Fused.fuse (hssa : Ssa block) {found : Accesses E C} (hfound : Found elsewhere block block.length found)
    {st : Ops E C O × Nat} (h : Fused elsewhere block done st.1) (id : Versioned) :
    Fused elsewhere block (fun other => done other ∨ other = id) (fuse found st id).1 := by
  -- Where the pass does nothing, there is no pair.
  have hstay : (∀ read write value, ¬Fuses elsewhere block id read write value) →
      Fused elsewhere block (fun other => done other ∨ other = id) st.1 := by
    intro hno
    refine ⟨h.length, fun id' read write value hd hf => ?_, fun id' read write value hd hf => ?_, fun idx hidx => ?_⟩
    · rcases hd with hd | rfl
      · exact h.read id' read write value hd hf
      · exact absurd hf (hno read write value)
    · rcases hd with hd | rfl
      · exact h.write id' read write value hd hf
      · exact absurd hf (hno read write value)
    · exact h.other idx fun id' read write value hd hf => hidx id' read write value (.inl hd) hf
  unfold BasicBlock.fuse
  split
  · rename_i read write hr hw
    obtain ⟨value, hl⟩ := hfound.reads id read hr
    obtain ⟨stored, hs⟩ := hfound.writes id write hw
    obtain rfl : stored = value :=
      (hssa.used _ _ _ _ _ id hl.inst hs.inst rfl hl.versioned stored
        (List.mem_cons_of_mem _ (List.mem_singleton_self _)) hs.versioned).1
    rw [h.valid_eq hl.memory hs.memory]
    split
    · rename_i hvalid
      exact h.fuse_pair hssa ⟨hl, hs, hvalid⟩
    · rename_i hvalid
      refine hstay fun read' write' value' hf => hvalid ?_
      obtain rfl := (hf.loads.unique hssa hl).1
      obtain rfl : stored = value' := (hf.loads.unique hssa hl).2
      have hidx : write.idx = write'.idx := hf.reads_at hssa hs.inst (assign_reads ..)
      obtain rfl := hs.eq_of_idx hf.stores hidx
      exact hf.valid
  · rename_i hnone
    refine hstay fun read write value hf => ?_
    obtain ⟨read', hr⟩ := Option.isSome_iff_exists.mp
      (hfound.allReads id read value hf.loads (List.getElem?_eq_some_iff.mp hf.loads.inst).1)
    obtain ⟨write', hw⟩ := Option.isSome_iff_exists.mp
      (hfound.allWrites id write value hf.stores (List.getElem?_eq_some_iff.mp hf.stores.inst).1)
    exact hnone read' write' hr hw

end Fused

theorem copyTransform_fused {elsewhere : Variable E C → Nat} {block ops : Ops E C O} (hssa : Ssa block)
    {order : List Versioned} (horder : ∀ id read write value, Fuses elsewhere block id read write value → id ∈ order)
    {changes changes' : Nat} (h : copyTransform elsewhere block order changes = some (ops, changes')) :
    Fused elsewhere block (fun _ => True) ops := by
  obtain ⟨found, hfound, hops⟩ := Option.map_eq_some_iff.mp h
  have hfold : ∀ (ids : List Versioned) (st : Ops E C O × Nat) (done : Versioned → Prop),
      Fused elsewhere block done st.1 →
      Fused elsewhere block (fun id => done id ∨ id ∈ ids) (ids.foldl (fuse found) st).1 := by
    intro ids
    induction ids with
    | nil =>
      intro st done hd
      simpa using hd
    | cons id ids ih =>
      intro st done hd
      have := ih _ _ (hd.fuse hssa (accesses_found hfound) id)
      simpa only [List.foldl_cons, List.mem_cons, or_assoc] using this
  have hall := hfold order (block, changes) _ (.start elsewhere block)
  rw [hops] at hall
  exact ⟨hall.length, fun id read write value _ hf => hall.read id read write value (.inr (horder _ _ _ _ hf)) hf,
    fun id read write value _ hf => hall.write id read write value (.inr (horder _ _ _ _ hf)) hf,
    fun idx hidx => hall.other idx fun id read write value _ hf => hidx id read write value trivial hf⟩

-- Runs

/-- The values that are no longer loaded. -/
def Delayed (elsewhere : Variable E C → Nat) (block : Ops E C O) (kind : VariableKind C) : Prop :=
  ∃ id read write value, Fuses elsewhere block id read write value ∧ value.kind = kind

/-- In the run from `s`, the store leaves the same memory with the element that is in the
array when it stores as with the element that was loaded. -/
def SameStore [AsU32 C] (m : Semantics E C O V W) (block : Ops E C O) (s : State C V W) (read write : Access E C) :
    Prop :=
  let atRead := m.before block read.idx s
  let atWrite := m.before block write.idx s
  m.store write.list (m.indexOf atWrite write.index)
      (m.load read.list (m.indexOf atWrite read.index) atWrite.world) atWrite.world =
    m.store write.list (m.indexOf atWrite write.index)
      (m.load read.list (m.indexOf atRead read.index) atRead.world) atWrite.world

/-- At every place and at the end the memory is the same and so is every value that is still
loaded; the other instructions are in their places, and no instruction reads the rest. -/
structure CopyKeeps [AsU32 C] (m : Semantics E C O V W) (elsewhere : Variable E C → Nat) (block ops : Ops E C O)
    (s : State C V W) : Prop where
  states : ∀ idx, AgreeOff (Delayed elsewhere block) (m.before block idx s) (m.before ops idx s)
  exit : AgreeOff (Delayed elsewhere block) (m.run block s) (m.run ops s)
  others : ∀ idx, (∀ id read write value, Fuses elsewhere block id read write value →
    idx ≠ read.idx ∧ idx ≠ write.idx) → ops[idx]? = block[idx]?
  unread : ∀ (idx : Nat) (inst : Instruction E C O), ops[idx]? = some (some inst) →
    ∀ kind, Delayed elsewhere block kind → ¬inst.reads kind
  unused : ∀ id read write value, Fuses elsewhere block id read write value → elsewhere value = 0

section Runs

variable [AsU32 C] {m : Semantics E C O V W} {elsewhere : Variable E C → Nat} {block ops : Ops E C O}
  {id : Versioned} {read write : Access E C} {value : Variable E C}

theorem exec_load (hl : Loads elsewhere block id read value) (s : State C V W) :
    m.exec ⟨.index read.list read.index, some value⟩ s =
      ⟨Function.update s.value value.kind (m.load read.list (m.indexOf s read.index) s.world), s.world⟩ := by
  simp only [Semantics.exec, Semantics.outValue, Semantics.worldAfter, if_pos hl.memory]

omit [DecidableEq E] in
theorem exec_store (hs : Stores block id write value) (s : State C V W) :
    m.exec ⟨.indexAssign write.index value, some write.list⟩ s =
      ⟨s.value, m.store write.list (m.indexOf s write.index) (s.arg value) s.world⟩ := by
  have hout : m.outValue (.indexAssign write.index value) write.list s = s.value write.list.kind := by
    simp only [Semantics.outValue]
    split
    · exact absurd ‹_› (memory_ne_local hs.memory _)
    · rfl
  have hworld : m.worldAfter (.indexAssign write.index value) (some write.list) s =
      m.store write.list (m.indexOf s write.index) (s.arg value) s.world := by
    simp only [Semantics.worldAfter]
    split
    · exact absurd ‹_› (memory_ne_local hs.memory _)
    · rfl
  simp only [Semantics.exec, hout, hworld, Function.update_eq_self]

omit [DecidableEq E] in
theorem exec_copyMemory (outIndex input inIndex out : Variable E C) (s : State C V W) :
    m.exec ⟨.copyMemory outIndex input inIndex, some out⟩ s =
      ⟨s.value, m.store out (m.indexOf s outIndex) (m.load input (m.indexOf s inIndex) s.world) s.world⟩ := by
  simp only [Semantics.exec, Semantics.outValue, Semantics.worldAfter, State.arg, Function.update_eq_self]

theorem Fuses.arg_eq (hssa : Ssa block) (hf : Fuses elsewhere block id read write value) (s : State C V W) :
    (m.before block write.idx s).arg value =
      m.load read.list (m.indexOf (m.before block read.idx s) read.index) (m.before block read.idx s).world := by
  have hkeep : (m.before block write.idx s).value value.kind = (m.before block (read.idx + 1) s).value value.kind :=
    m.before_value (hf.lt hssa) (fun idx inst hlo _ hi hw => by
      have := hf.writes_at hssa hi hw
      omega) s
  rw [State.arg, hkeep, m.before_succ hf.loads.inst, Semantics.execAt, exec_load hf.loads]
  exact Function.update_self ..

omit [AsU32 C] in
theorem Fuses.load_index (hssa : Ssa block) (hf : Fuses elsewhere block id read write value) :
    ¬Delayed elsewhere block read.index.kind := by
  rintro ⟨id', read', write', value', hf', hkind⟩
  have hr : (⟨.index read.list read.index, some value⟩ : Instruction E C O).reads value'.kind :=
    ⟨read.index, List.mem_cons_of_mem _ (List.mem_singleton_self _), hkind.symm⟩
  have heq := hf.loads.inst
  rw [hf'.reads_at hssa hf.loads.inst hr, hf'.stores.inst] at heq
  cases heq

omit [AsU32 C] in
theorem Fuses.store_index (hssa : Ssa block) (hf : Fuses elsewhere block id read write value) :
    ¬Delayed elsewhere block write.index.kind := by
  rintro ⟨id', read', write', value', hf', hkind⟩
  have hr : (⟨.indexAssign write.index value, some write.list⟩ : Instruction E C O).reads value'.kind :=
    ⟨write.index, List.mem_cons_self .., hkind.symm⟩
  have heq := hf'.stores.inst
  rw [← hf'.reads_at hssa hf.stores.inst hr, hf.stores.inst] at heq
  simp only [Option.some_inj, Instruction.mk.injEq, Operation.indexAssign.injEq] at heq
  exact hf.index_ne hssa (hkind.symm.trans (congrArg _ heq.1.2.symm))

omit [AsU32 C] in
theorem delayed_untouched (hssa : Ssa block) {idx : Nat} {inst : Instruction E C O} (hi : block[idx]? = some (some inst))
    (hidx : ∀ id read write value, Fuses elsewhere block id read write value → idx ≠ read.idx ∧ idx ≠ write.idx)
    (kind : VariableKind C) (hd : Delayed elsewhere block kind) : ¬inst.reads kind ∧ ¬inst.writes kind := by
  obtain ⟨id, read, write, value, hf, rfl⟩ := hd
  obtain ⟨hr, hw⟩ := hidx id read write value hf
  exact ⟨fun h => hw (hf.reads_at hssa hi h), fun h => hr (hf.writes_at hssa hi h)⟩

theorem Fuses.copy_iff (hssa : Ssa block) (hf : Fuses elsewhere block id read write value) {s t : State C V W}
    (h : AgreeOff (Delayed elsewhere block) (m.before block write.idx s) t) :
    AgreeOff (Delayed elsewhere block) (m.exec ⟨.indexAssign write.index value, some write.list⟩
        (m.before block write.idx s))
      (m.exec ⟨.copyMemory write.index read.list read.index, some write.list⟩ t) ↔
      SameStore m block s read write := by
  rw [exec_store hf.stores, exec_copyMemory, hf.arg_eq hssa, h.indexOf (hf.store_index hssa),
    h.indexOf (hf.load_index hssa), h.world]
  exact ⟨fun ha => ha.world, fun hs => ⟨hs, h.value⟩⟩

theorem Fused.step (hssa : Ssa block) (hfused : Fused elsewhere block (fun _ => True) ops) {idx : Nat}
    {s : State C V W} (h : AgreeOff (Delayed elsewhere block) (m.before block idx s) (m.before ops idx s))
    (hsame : ∀ id read write value, Fuses elsewhere block id read write value → write.idx = idx →
      SameStore m block s read write) :
    AgreeOff (Delayed elsewhere block) (m.before block (idx + 1) s) (m.before ops (idx + 1) s) := by
  by_cases hpair : ∃ id read write value, Fuses elsewhere block id read write value ∧
      (idx = read.idx ∨ idx = write.idx)
  · obtain ⟨id, read, write, value, hf, rfl | rfl⟩ := hpair
    · rw [m.before_succ hf.loads.inst, m.before_succ (hfused.read id read write value trivial hf), Semantics.execAt,
        Semantics.execAt, exec_load hf.loads]
      refine ⟨h.world, fun k hk => ?_⟩
      have hne : k ≠ value.kind := fun he => hk ⟨id, read, write, value, hf, he.symm⟩
      rw [h.value k hk]
      exact (Function.update_of_ne hne _ _).symm
    · rw [m.before_succ hf.stores.inst, m.before_succ (hfused.write id read write value trivial hf)]
      exact (hf.copy_iff hssa h).mpr (hsame id read write value hf rfl)
  · push Not at hpair
    have hother := hfused.other idx fun id read write value _ hf => hpair id read write value hf
    cases hop : block[idx]? with
    | none =>
      have hop' : ops[idx]? = none := hother.trans hop
      rw [List.getElem?_eq_none_iff] at hop hop'
      rw [m.before_of_length_le hop, m.before_of_length_le hop'] at h
      rwa [m.before_of_length_le (by omega), m.before_of_length_le (by omega)]
    | some slot =>
      rw [m.before_succ hop, m.before_succ (hother.trans hop)]
      cases slot with
      | none => exact h
      | some inst =>
        have htouch := delayed_untouched hssa hop hpair
        exact h.exec (fun k hk => (htouch k hk).1) fun k hk => (htouch k hk).2

omit [AsU32 C] in
theorem Fused.unread (hssa : Ssa block) (hfused : Fused elsewhere block (fun _ => True) ops) {idx : Nat}
    {inst : Instruction E C O} (hi : ops[idx]? = some (some inst)) {kind : VariableKind C}
    (hd : Delayed elsewhere block kind) : ¬inst.reads kind := by
  by_cases hpair : ∃ id read write value, Fuses elsewhere block id read write value ∧
      (idx = read.idx ∨ idx = write.idx)
  · obtain ⟨id, read, write, value, hf, rfl | rfl⟩ := hpair
    · rw [hfused.read id read write value trivial hf] at hi
      cases hi
    · rw [hfused.write id read write value trivial hf, Option.some_inj, Option.some_inj] at hi
      subst hi
      rintro ⟨var, hvar, rfl⟩
      simp only [Operation.args, List.mem_cons, List.not_mem_nil, or_false] at hvar
      rcases hvar with rfl | rfl | rfl
      · obtain ⟨id', read', write', value', hf', hkind⟩ := hd
        exact memory_ne hf.loads.memory hf'.loads.versioned hkind.symm
      · exact hf.load_index hssa hd
      · exact hf.store_index hssa hd
  · push Not at hpair
    rw [hfused.other idx fun id read write value _ hf => hpair id read write value hf] at hi
    exact (delayed_untouched hssa hi hpair kind hd).1

end Runs

theorem copyTransform_keeps_iff [AsU32 C] (m : Semantics E C O V W) (elsewhere : Variable E C → Nat)
    (block ops : Ops E C O) (order : List Versioned) (changes changes' : Nat) (hssa : Ssa block)
    (horder : ∀ id read write value, Fuses elsewhere block id read write value → id ∈ order)
    (h : copyTransform elsewhere block order changes = some (ops, changes')) (s : State C V W) :
    CopyKeeps m elsewhere block ops s ↔
      ∀ id read write value, Fuses elsewhere block id read write value → SameStore m block s read write := by
  have hfused := copyTransform_fused hssa horder h
  constructor
  · intro hk id read write value hf
    have hnext := hk.states (write.idx + 1)
    rw [m.before_succ hf.stores.inst, m.before_succ (hfused.write id read write value trivial hf)] at hnext
    exact (hf.copy_iff hssa (hk.states write.idx)).mp hnext
  · intro hsame
    have hstates : ∀ idx, AgreeOff (Delayed elsewhere block) (m.before block idx s) (m.before ops idx s) := by
      intro idx
      induction idx with
      | zero => exact .refl s
      | succ idx ih => exact hfused.step hssa ih fun id read write value hf _ => hsame id read write value hf
    refine ⟨hstates, ?_, fun idx hidx => hfused.other idx fun id read write value _ => hidx id read write value,
      fun idx inst hi kind hd => hfused.unread hssa hi hd, fun id read write value hf => hf.unused hssa⟩
    rw [← m.before_of_length_le le_rfl, ← m.before_of_length_le hfused.length.le]
    exact hstates block.length


-- Two blocks

/-- One shared array of numbers. At the barrier the other thread stores 9 in its first place. -/
def twoThreads : Semantics Unit Nat Unit Nat (Nat → Nat) where
  asIndex value := value
  load _ i world _ := world i
  store _ i value world := Function.update world i (value 0)
  result _ _ _ old _ := old
  effect operation _ _ world :=
    match operation with
    | .other () _ => Function.update world 0 9
    | _ => world

def number (n : Nat) : Variable Unit Nat := ⟨.constant n, ⟨(), 1, false⟩⟩

def shared : Variable Unit Nat := ⟨.sharedArray 0 2 1 none, ⟨(), 1, false⟩⟩

def loaded : Variable Unit Nat := ⟨.localConst 1, ⟨(), 1, false⟩⟩

/-- `x = shared[0]; sync; shared[1] = x`, of the thread that the other one changes places with. -/
def swap : Ops Unit Nat Unit :=
  [some ⟨.index shared (number 0), some loaded⟩, some ⟨.other () [], none⟩,
    some ⟨.indexAssign (number 1) loaded, some shared⟩]

/-- `x = shared[0]; y = 3; shared[1] = x` -/
def forward : Ops Unit Nat Unit :=
  [some ⟨.index shared (number 0), some loaded⟩, some ⟨.copy (number 3), some ⟨.localMut 2, ⟨(), 1, false⟩⟩⟩,
    some ⟨.indexAssign (number 1) loaded, some shared⟩]

def start : State Nat Nat (Nat → Nat) where
  value _ _ := 0
  world i := if i = 0 then 1 else 9

theorem swap_fused : copyTransform (fun _ => 0) swap [(1, 0)] 0 =
    some ([none, some ⟨.other () [], none⟩, some ⟨.copyMemory (number 1) shared (number 0), some shared⟩], 1) := by
  decide

/-- The numbers `1, 9` end as `9, 1` and, after the pass, as `9, 9`. -/
theorem copyTransform_crosses_barrier :
    ¬∃ res, copyTransform (fun _ => 0) swap [(1, 0)] 0 = some res ∧
      CopyKeeps twoThreads (fun _ => 0) swap res.1 start := by
  rintro ⟨res, hres, hk⟩
  rw [swap_fused, Option.some_inj] at hres
  subst hres
  have hworld := congrFun hk.exit.world 1
  revert hworld
  decide

theorem forward_ssa : Ssa forward where
  unique i j a b x y id hi hj hx hy hvx hvy := by
    have hzero : ∀ (k : Nat) (c : Instruction Unit Nat Unit) z, forward[k]? = some (some c) → c.out = some z →
        (asVersioned z).isSome → k = 0 := by
      intro k c z hk hz hv
      match k with
      | 0 => rfl
      | 1 | 2 =>
        simp only [forward, List.getElem?_cons_succ, List.getElem?_cons_zero, Option.some_inj] at hk
        subst hk
        cases hz
        simp [asVersioned, shared] at hv
      | k + 3 => simp [forward] at hk
    rw [hzero i a x hi hx (by rw [hvx]; rfl), hzero j b y hj hy (by rw [hvy]; rfl)]
  used i j a b x id hi hj hx hvx var hvar hv := by
    have hread : ∀ (k : Nat) (c : Instruction Unit Nat Unit), forward[k]? = some (some c) →
        ∀ z ∈ c.operation.args, (asVersioned z).isSome → z = loaded ∧ k = 2 := by
      intro k c hk z hz hs
      match k with
      | 0 | 1 | 2 =>
        simp only [forward, List.getElem?_cons_succ, List.getElem?_cons_zero, Option.some_inj] at hk
        subst hk
        simp only [Operation.args, List.mem_cons, List.not_mem_nil, or_false] at hz
        grind [asVersioned, shared, number, loaded]
      | k + 3 => simp [forward] at hk
    have hout : ∀ (k : Nat) (c : Instruction Unit Nat Unit) z, forward[k]? = some (some c) → c.out = some z →
        (asVersioned z).isSome → z = loaded ∧ k = 0 := by
      intro k c z hk hz hs
      match k with
      | 0 | 1 | 2 =>
        simp only [forward, List.getElem?_cons_succ, List.getElem?_cons_zero, Option.some_inj] at hk
        subst hk
        cases hz
        simp_all [asVersioned, shared, loaded]
      | k + 3 => simp [forward] at hk
    obtain ⟨rfl, rfl⟩ := hread j b hj var hvar (by rw [hv]; rfl)
    obtain ⟨rfl, rfl⟩ := hout i a x hi hx (by rw [hvx]; rfl)
    exact ⟨rfl, by decide⟩

theorem forward_pair {elsewhere : Variable Unit Nat → Nat} {id : Versioned} {read write : Access Unit Nat}
    {value : Variable Unit Nat} (hf : Fuses elsewhere forward id read write value) :
    id = (1, 0) ∧ read = ⟨0, shared, number 0⟩ ∧ write = ⟨2, shared, number 1⟩ := by
  obtain ⟨idx, list, index⟩ := read
  obtain ⟨idx', list', index'⟩ := write
  have hl := hf.loads.inst
  have hs := hf.stores.inst
  have hv := hf.loads.versioned
  match idx, idx' with
  | 0, 2 =>
    simp only [forward, List.getElem?_cons_succ, List.getElem?_cons_zero, Option.some_inj, Instruction.mk.injEq,
      Operation.index.injEq, Operation.indexAssign.injEq] at hl hs
    obtain ⟨⟨rfl, rfl⟩, rfl⟩ := hl
    obtain ⟨⟨rfl, -⟩, rfl⟩ := hs
    simp only [asVersioned, loaded, Option.some_inj] at hv
    exact ⟨hv.symm, rfl, rfl⟩
  | 1, _ | 2, _ | n + 3, _ => simp [forward] at hl
  | _, 0 | _, 1 | _, n + 3 => simp [forward] at hs

theorem copyTransform_keeps_forward : CopyKeeps twoThreads (fun _ => 0) forward
    [none, some ⟨.copy (number 3), some ⟨.localMut 2, ⟨(), 1, false⟩⟩⟩,
      some ⟨.copyMemory (number 1) shared (number 0), some shared⟩] start :=
  (copyTransform_keeps_iff twoThreads (fun _ => 0) forward _ [(1, 0)] 0 1 forward_ssa
    (fun id read write value hf => by rw [(forward_pair hf).1]; exact List.mem_singleton_self _) (by decide) start).mpr
    fun id read write value hf => by
      obtain ⟨-, rfl, rfl⟩ := forward_pair hf
      rfl

end Ruda.BasicBlock
