import Mathlib

/-!
# Basic blocks

The instructions of one basic block with everything that passes over a block look at:
`ir/variable.rs`, `ir/operator.rs` and the operands that `visit_operation` visits. Element
types, constants and the operations that no such pass tells apart are parameters. A run
of a block is that of one thread, and what other threads do meanwhile is part of the
effects.
-/

namespace Ruda.BasicBlock

abbrev Id := Nat

/-- `Type`; a semantic type has vectors of size zero. -/
structure Ty (E : Type) where
  elem : E
  vectorSize : Nat
  isAtomic : Bool
  deriving DecidableEq

/-- `VariableKind`, without the layout of matrices, stages and levels. -/
inductive VariableKind (C : Type)
  | globalInputArray (id : Id)
  | globalOutputArray (id : Id)
  | globalScalar (id : Id)
  | tensorMapInput (id : Id)
  | tensorMapOutput (id : Id)
  | localArray (id : Id) (length unrollFactor : Nat)
  | localMut (id : Id)
  | localConst (id : Id)
  | versioned (id : Id) (version : Nat)
  | constant (value : C)
  | constantArray (id : Id) (length unrollFactor : Nat)
  | sharedArray (id : Id) (length unrollFactor : Nat) (alignment : Option Nat)
  | shared (id : Id)
  | matrix (id : Id)
  | builtin (number : Nat)
  | pipeline (id : Id)
  | barrierToken (id : Id)
  deriving DecidableEq

structure Variable (E C : Type) where
  kind : VariableKind C
  ty : Ty E
  deriving DecidableEq

/-- `ConstantValue::as_u32` -/
class AsU32 (C : Type) where
  asU32 : C → Nat

/-- Constants that are `u64`s. -/
instance : AsU32 Nat := ⟨fun value => value % 2 ^ 32⟩

namespace Variable

variable {E C : Type}

def isImmutable (var : Variable E C) : Bool :=
  match var.kind with
  | .globalOutputArray _ => false
  | .tensorMapInput _ => true
  | .tensorMapOutput _ => false
  | .localMut _ => false
  | .sharedArray .. => false
  | .shared _ => false
  | .matrix _ => false
  | .localArray .. => false
  | .globalInputArray _ => false
  | .globalScalar _ => true
  | .versioned .. => true
  | .localConst _ => true
  | .constant _ => true
  | .constantArray .. => true
  | .builtin _ => true
  | .pipeline _ => false
  | .barrierToken _ => false

def isMemory (var : Variable E C) : Bool :=
  match var.kind with
  | .globalInputArray _ | .globalOutputArray _ | .sharedArray .. => true
  | _ => false

def asConst (var : Variable E C) : Option C :=
  match var.kind with
  | .constant value => some value
  | _ => none

/-- `local_variable_id` -/
def localVariableId (var : Variable E C) : Option Id :=
  match var.kind with
  | .localMut id => if var.ty.isAtomic then none else some id
  | _ => none

theorem isImmutable_ne {var : Variable E C} (h : var.isImmutable) (id : Id) : var.kind ≠ .localMut id := by
  intro hk
  simp [isImmutable, hk] at h

theorem asConst_ne {var : Variable E C} {const : C} (h : var.asConst = some const) (id : Id) :
    var.kind ≠ .localMut id := by
  intro hk
  simp [asConst, hk] at h

end Variable

/-- `Operation`; `other` has the operands that are visited. -/
inductive Operation (E C O : Type)
  | copy (input : Variable E C)
  | index (list index : Variable E C)
  | indexAssign (index value : Variable E C)
  | initVector (inputs : List (Variable E C))
  | copyMemory (outIndex input inIndex : Variable E C)
  | nativeStore (address value : Variable E C)
  | typedStore (base index value : Variable E C)
  | pointerStore (pointer value : Variable E C)
  | pointerAtomic (pointer : Variable E C) (values : List (Variable E C))
  | other (op : O) (args : List (Variable E C))
  deriving DecidableEq

structure Instruction (E C O : Type) where
  operation : Operation E C O
  out : Option (Variable E C)
  deriving DecidableEq

variable {E C O V W : Type}

/-- The operands `visit_operation` visits; the array of an `IndexAssign` is not one. -/
def Operation.args : Operation E C O → List (Variable E C)
  | .copy input => [input]
  | .index list i => [list, i]
  | .indexAssign i value => [i, value]
  | .initVector inputs => inputs
  | .copyMemory outIndex input inIndex => [input, inIndex, outIndex]
  | .nativeStore address value => [address, value]
  | .typedStore base i value => [value, base, i]
  | .pointerStore pointer value => [pointer, value]
  | .pointerAtomic pointer values => pointer :: values
  | .other _ args => args

def Instruction.reads (inst : Instruction E C O) (kind : VariableKind C) : Prop :=
  ∃ var ∈ inst.operation.args, var.kind = kind

def Instruction.writes (inst : Instruction E C O) (kind : VariableKind C) : Prop :=
  ∃ out, inst.out = some out ∧ out.kind = kind

/-- The instructions as a `StableVec`, with its holes. -/
abbrev Ops (E C O : Type) := List (Option (Instruction E C O))

/-- The occupied places. -/
def indices (ops : Ops E C O) : List Nat := (List.range ops.length).filter fun idx => (ops[idx]?).join.isSome

theorem foldlM_indices {β : Type} {step : β → Nat → Option β} {inv : Nat → β → Prop} {ops : Ops E C O} {init fin : β}
    (hinit : inv 0 init)
    (hstep : ∀ idx inst st st', ops[idx]? = some (some inst) → inv idx st → step st idx = some st' → inv (idx + 1) st')
    (hhole : ∀ idx st, (∀ inst, ops[idx]? ≠ some (some inst)) → inv idx st → inv (idx + 1) st)
    (h : (indices ops).foldlM step init = some fin) : inv ops.length fin := by
  have hprefix : ∀ k st, ((List.range k).filter fun idx => (ops[idx]?).join.isSome).foldlM step init = some st →
      inv k st := by
    intro k
    induction k with
    | zero =>
      intro st hst
      cases hst
      exact hinit
    | succ k ih =>
      intro st hst
      rw [List.range_succ, List.filter_append, List.foldlM_append, Option.bind_eq_bind, Option.bind_eq_some_iff] at hst
      obtain ⟨mid, hmid, hst⟩ := hst
      match hop : ops[k]? with
      | none =>
        simp only [List.filter_singleton, hop, Option.join_none, Option.isSome_none, cond_false] at hst
        cases hst
        exact hhole k _ (by simp [hop]) (ih _ hmid)
      | some none =>
        simp only [List.filter_singleton, hop, Option.join_some, Option.isSome_none, cond_false] at hst
        cases hst
        exact hhole k _ (by simp [hop]) (ih _ hmid)
      | some (some inst) =>
        simp only [List.filter_singleton, hop, Option.join_some, Option.isSome_some, cond_true] at hst
        exact hstep k inst mid st hop (ih mid hmid) (by simpa using hst)
  exact hprefix ops.length fin h

-- States

/-- The value of every variable that is no array, lane by lane, and all the rest. -/
structure State (C V W : Type) where
  value : VariableKind C → Nat → V
  world : W

def State.arg (s : State C V W) (var : Variable E C) : Nat → V := s.value var.kind

def State.args (s : State C V W) (vars : List (Variable E C)) : List (Nat → V) := vars.map s.arg

-- States that differ in some variables

/-- The states are the same but for the values of variables in `off`. -/
structure AgreeOff (off : VariableKind C → Prop) (s t : State C V W) : Prop where
  world : t.world = s.world
  value : ∀ k, ¬off k → t.value k = s.value k

namespace AgreeOff

variable {off : VariableKind C → Prop} {s t : State C V W}

theorem refl (s : State C V W) : AgreeOff off s s := ⟨rfl, fun _ _ => rfl⟩

theorem eq {kind : VariableKind C} (h : AgreeOff (· = kind) s t) (hv : t.value kind = s.value kind) : t = s := by
  obtain ⟨value, world⟩ := s
  obtain ⟨value', world'⟩ := t
  have hvalue : value' = value := by
    funext k
    by_cases hk : k = kind
    · exact hk ▸ hv
    · exact h.value k hk
  rw [State.mk.injEq]
  exact ⟨hvalue, h.world⟩

theorem args (h : AgreeOff off s t) {vars : List (Variable E C)} (hv : ∀ var ∈ vars, ¬off var.kind) :
    t.args vars = s.args vars :=
  List.map_congr_left fun var hvar => h.value _ (hv var hvar)

end AgreeOff

-- Runs

/-- The meaning of what the passes do not look into: `result` is what an operation puts in
its output, given the operands and what was in it, and `effect` what it does to the rest. -/
structure Semantics (E C O V W : Type) where
  asIndex : V → Nat
  load : Variable E C → Nat → W → Nat → V
  store : Variable E C → Nat → (Nat → V) → W → W
  result : Operation E C O → Variable E C → List (Nat → V) → (Nat → V) → W → Nat → V
  effect : Operation E C O → Option (Variable E C) → List (Nat → V) → W → W

variable [AsU32 C] (m : Semantics E C O V W)

namespace Semantics

/-- The number an index stands for. -/
def indexOf (s : State C V W) (index : Variable E C) : Nat :=
  match index.asConst with
  | some value => AsU32.asU32 value
  | none => m.asIndex (s.arg index 0)

/-- What `out` holds after `operation`. -/
def outValue (operation : Operation E C O) (out : Variable E C) (s : State C V W) : Nat → V :=
  match operation with
  | .copy input => fun lane => if lane < max out.ty.vectorSize 1 then s.arg input lane else s.arg out lane
  | .index list index =>
    if list.isMemory then m.load list (m.indexOf s index) s.world
    else m.result (.index list index) out (s.args [list, index]) (s.arg out) s.world
  | .indexAssign index value =>
    match out.kind with
    | .localMut _ => Function.update (s.arg out) (m.indexOf s index) (s.arg value 0)
    | _ => s.arg out
  | .initVector inputs => fun lane =>
    match inputs[lane]? with
    | some input => s.arg input 0
    | none => s.arg out lane
  | .copyMemory .. => s.arg out
  | operation => m.result operation out (s.args operation.args) (s.arg out) s.world

def worldAfter (operation : Operation E C O) (out : Option (Variable E C)) (s : State C V W) : W :=
  match operation, out with
  | .copy _, _ | .initVector _, _ => s.world
  | .index list index, out =>
    if list.isMemory then s.world else m.effect (.index list index) out (s.args [list, index]) s.world
  | .indexAssign index value, some out =>
    match out.kind with
    | .localMut _ => s.world
    | _ => m.store out (m.indexOf s index) (s.arg value) s.world
  | .copyMemory outIndex input inIndex, some out =>
    m.store out (m.indexOf s outIndex) (m.load input (m.indexOf s inIndex) s.world) s.world
  | operation, out => m.effect operation out (s.args operation.args) s.world

variable [DecidableEq C]

def exec (inst : Instruction E C O) (s : State C V W) : State C V W where
  value :=
    match inst.out with
    | some out => Function.update s.value out.kind (m.outValue inst.operation out s)
    | none => s.value
  world := m.worldAfter inst.operation inst.out s

def execAt (op : Option (Instruction E C O)) (s : State C V W) : State C V W :=
  match op with
  | some inst => m.exec inst s
  | none => s

/-- The run of a block from its first instruction to its last. -/
def run (ops : Ops E C O) (s : State C V W) : State C V W := ops.foldl (fun s op => m.execAt op s) s

/-- The state that the instruction at `idx` starts from. -/
def before (ops : Ops E C O) (idx : Nat) (s : State C V W) : State C V W := m.run (ops.take idx) s

theorem run_append (front back : Ops E C O) (s : State C V W) :
    m.run (front ++ back) s = m.run back (m.run front s) :=
  List.foldl_append

@[simp] theorem before_zero (ops : Ops E C O) (s : State C V W) : m.before ops 0 s = s := rfl

theorem before_succ {ops : Ops E C O} {idx : Nat} {op : Option (Instruction E C O)} (h : ops[idx]? = some op)
    (s : State C V W) : m.before ops (idx + 1) s = m.execAt op (m.before ops idx s) := by
  rw [before, before, List.take_add_one, h, run_append]
  rfl

theorem before_of_length_le {ops : Ops E C O} {idx : Nat} (h : ops.length ≤ idx) (s : State C V W) :
    m.before ops idx s = m.run ops s := by
  rw [before, List.take_of_length_le h]

theorem exec_value {inst : Instruction E C O} {kind : VariableKind C} (h : ¬inst.writes kind) (s : State C V W) :
    (m.exec inst s).value kind = s.value kind := by
  obtain ⟨operation, _ | out⟩ := inst
  · rfl
  · have hne : kind ≠ out.kind := fun he => h ⟨out, rfl, he.symm⟩
    exact Function.update_of_ne hne _ _

theorem before_value {ops : Ops E C O} {kind : VariableKind C} {start stop : Nat} (hle : start ≤ stop)
    (h : ∀ idx inst, start ≤ idx → idx < stop → ops[idx]? = some (some inst) → ¬inst.writes kind) (s : State C V W) :
    (m.before ops stop s).value kind = (m.before ops start s).value kind := by
  induction stop, hle using Nat.le_induction with
  | base => rfl
  | succ stop hle ih =>
    rw [← ih fun idx inst hidx hlt => h idx inst hidx (by omega)]
    match hop : ops[stop]? with
    | none =>
      rw [List.getElem?_eq_none_iff] at hop
      rw [m.before_of_length_le hop, m.before_of_length_le (by omega)]
    | some none => rw [m.before_succ hop, execAt]
    | some (some inst) => rw [m.before_succ hop, execAt, m.exec_value (h stop inst hle (Nat.lt_succ_self _) hop)]

end Semantics

namespace AgreeOff

variable {off : VariableKind C → Prop} {s t : State C V W} {m}

theorem indexOf (h : AgreeOff off s t) {index : Variable E C} (hi : ¬off index.kind) :
    m.indexOf t index = m.indexOf s index := by
  rw [Semantics.indexOf, Semantics.indexOf, State.arg, State.arg, h.value _ hi]

theorem outValue (h : AgreeOff off s t) {operation : Operation E C O} (hr : ∀ var ∈ operation.args, ¬off var.kind)
    {out : Variable E C} (ho : ¬off out.kind) : m.outValue operation out t = m.outValue operation out s := by
  have hout : t.arg out = s.arg out := h.value _ ho
  have hargs : t.args operation.args = s.args operation.args := h.args hr
  have harg : ∀ var ∈ operation.args, t.arg var = s.arg var := fun var hvar => h.value _ (hr var hvar)
  cases operation with
  | copy input => simp only [Semantics.outValue, hout, harg input (List.mem_singleton_self _)]
  | index list i =>
    simp only [Operation.args, List.mem_cons, List.not_mem_nil, or_false, forall_eq_or_imp, forall_eq] at hr hargs
    simp only [Semantics.outValue, hout, hargs, h.world, h.indexOf hr.2]
  | indexAssign i value =>
    simp only [Operation.args, List.mem_cons, List.not_mem_nil, or_false, forall_eq_or_imp, forall_eq] at hr harg
    simp only [Semantics.outValue, hout, h.indexOf hr.1, harg.2]
  | initVector inputs =>
    funext lane
    simp only [Semantics.outValue, hout]
    cases hl : inputs[lane]? with
    | none => rfl
    | some input => exact congrFun (harg input (List.mem_of_getElem? hl)) 0
  | copyMemory => exact hout
  | nativeStore | typedStore | pointerStore | pointerAtomic | other =>
    simp only [Semantics.outValue, hout, hargs, h.world]

theorem worldAfter (h : AgreeOff off s t) {operation : Operation E C O}
    (hr : ∀ var ∈ operation.args, ¬off var.kind) (out : Option (Variable E C)) :
    m.worldAfter operation out t = m.worldAfter operation out s := by
  have hargs : t.args operation.args = s.args operation.args := h.args hr
  have harg : ∀ var ∈ operation.args, t.arg var = s.arg var := fun var hvar => h.value _ (hr var hvar)
  cases operation with
  | copy | initVector => exact h.world
  | index list i =>
    have hargs : t.args [list, i] = s.args [list, i] := hargs
    simp only [Semantics.worldAfter, hargs, h.world]
  | indexAssign i value =>
    simp only [Operation.args, List.mem_cons, List.not_mem_nil, or_false, forall_eq_or_imp, forall_eq] at hr harg
    cases out with
    | none => simp only [Semantics.worldAfter, hargs, h.world]
    | some out => simp only [Semantics.worldAfter, h.world, h.indexOf hr.1, harg.2]
  | copyMemory outIndex input inIndex =>
    simp only [Operation.args, List.mem_cons, List.not_mem_nil, or_false, forall_eq_or_imp, forall_eq] at hr
    cases out with
    | none => simp only [Semantics.worldAfter, hargs, h.world]
    | some out => simp only [Semantics.worldAfter, h.world, h.indexOf hr.2.1, h.indexOf hr.2.2]
  | nativeStore | typedStore | pointerStore | pointerAtomic | other =>
    simp only [Semantics.worldAfter, hargs, h.world]

theorem exec [DecidableEq C] (h : AgreeOff off s t) {inst : Instruction E C O} (hr : ∀ k, off k → ¬inst.reads k)
    (hw : ∀ k, off k → ¬inst.writes k) :
    AgreeOff off (m.exec inst s) (m.exec inst t) := by
  have hargs : ∀ var ∈ inst.operation.args, ¬off var.kind := fun var hvar ho => hr _ ho ⟨var, hvar, rfl⟩
  refine ⟨h.worldAfter hargs inst.out, fun k hk => ?_⟩
  obtain ⟨operation, _ | out⟩ := inst
  · exact h.value k hk
  · have hout : ¬off out.kind := fun ho => hw _ ho ⟨out, rfl, rfl⟩
    show Function.update t.value out.kind _ k = Function.update s.value out.kind _ k
    rw [h.outValue hargs hout]
    by_cases hk' : k = out.kind
    · subst hk'; rw [Function.update_self, Function.update_self]
    · rw [Function.update_of_ne hk', Function.update_of_ne hk', h.value k hk]

end AgreeOff

end Ruda.BasicBlock
