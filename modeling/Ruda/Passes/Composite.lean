import Ruda.Ir.BasicBlock

/-!
# Merging component writes

A translation of `CompositeMerge` in `optimizer/passes/composite.rs` on one block. Writes
of constant components of a local gather until there are as many as the local has, and
then give way to one `InitVector` at the place of the last.
-/

namespace Ruda.BasicBlock

variable {E C O : Type} [AsU32 C]

/-- An entry of `assigns`. -/
structure Assignment (E C : Type) where
  idx : Nat
  index : Nat
  value : Variable E C

/-- What the pass goes over a block with, the types `program.variables` among it. -/
structure CompositeMerge (E C O : Type) where
  ops : Ops E C O
  assigns : Id → List (Assignment E C)
  variableTypes : Id → Option (Ty E)
  changes : Nat

omit [AsU32 C] in
/-- Reset writes when read. -/
def resetReads (operation : Operation E C O) (assigns : Id → List (Assignment E C)) : Id → List (Assignment E C) :=
  fun id => if operation.args.any (·.localVariableId = some id) then [] else assigns id

/-- The local, its type, the component and the value of a write that the pass looks at. -/
def componentWrite (inst : Instruction E C O) : Option (Id × Ty E × Nat × Variable E C) :=
  match inst.operation, inst.out with
  | .indexAssign index value, some ⟨.localMut id, item⟩ =>
    if value.isImmutable then index.asConst.map fun const => (id, item, AsU32.asU32 const, value) else none
  | _, _ => none

def mergeAssigns (ops : Ops E C O) (assigns : List (Assignment E C)) (id : Id) (item : Ty E) : Ops E C O :=
  let ops := assigns.foldl (fun ops assignment => ops.set assignment.idx none) ops
  let last := (assigns.map (·.idx)).foldl max 0
  let inputs := (assigns.mergeSort fun a b => a.index ≤ b.index).map (·.value)
  ops.set last (some ⟨.initVector inputs, some ⟨.localMut id, item⟩⟩)

namespace CompositeMerge

/-- One place; `none` where the pass panics. -/
def step (st : CompositeMerge E C O) (idx : Nat) : Option (CompositeMerge E C O) :=
  match st.ops[idx]? with
  | some (some inst) =>
    let assigns := resetReads inst.operation st.assigns
    match componentWrite inst with
    | none => some { st with assigns }
    | some (id, item, index, value) =>
      if item.vectorSize > 1 then
        let pending := assigns id ++ [⟨idx, index, value⟩]
        if pending.length = item.vectorSize then
          some {
            ops := mergeAssigns st.ops pending id item
            assigns := Function.update assigns id []
            variableTypes := Function.update st.variableTypes id (some item)
            changes := st.changes + 1 }
        else some { st with assigns := Function.update assigns id pending }
      else if index = 0 then
        some {
          ops := st.ops.set idx (some ⟨.copy value, some ⟨.localMut id, item⟩⟩)
          assigns
          variableTypes := Function.update st.variableTypes id (some item)
          changes := st.changes + 1 }
      else none
  | _ => none

section Step

variable {st : CompositeMerge E C O} {idx : Nat} {inst : Instruction E C O} {id : Id} {item : Ty E} {index : Nat}
  {value : Variable E C}

theorem step_other (hi : st.ops[idx]? = some (some inst)) (hc : componentWrite inst = none) :
    st.step idx = some { st with assigns := resetReads inst.operation st.assigns } := by
  simp only [step, hi, hc]

theorem step_full {pending : List (Assignment E C)} (hi : st.ops[idx]? = some (some inst))
    (hc : componentWrite inst = some (id, item, index, value)) (hv : item.vectorSize > 1)
    (hp : resetReads inst.operation st.assigns id ++ [⟨idx, index, value⟩] = pending)
    (hlen : pending.length = item.vectorSize) :
    st.step idx = some {
      ops := mergeAssigns st.ops pending id item
      assigns := Function.update (resetReads inst.operation st.assigns) id []
      variableTypes := Function.update st.variableTypes id (some item)
      changes := st.changes + 1 } := by
  simp only [step, hi, hc, if_pos hv, hp, if_pos hlen]

theorem step_pending {pending : List (Assignment E C)} (hi : st.ops[idx]? = some (some inst))
    (hc : componentWrite inst = some (id, item, index, value)) (hv : item.vectorSize > 1)
    (hp : resetReads inst.operation st.assigns id ++ [⟨idx, index, value⟩] = pending)
    (hlen : pending.length ≠ item.vectorSize) :
    st.step idx = some { st with assigns := Function.update (resetReads inst.operation st.assigns) id pending } := by
  simp only [step, hi, hc, if_pos hv, hp, if_neg hlen]

theorem step_scalar (hi : st.ops[idx]? = some (some inst)) (hc : componentWrite inst = some (id, item, 0, value))
    (hv : ¬item.vectorSize > 1) :
    st.step idx = some {
      ops := st.ops.set idx (some ⟨.copy value, some ⟨.localMut id, item⟩⟩)
      assigns := resetReads inst.operation st.assigns
      variableTypes := Function.update st.variableTypes id (some item)
      changes := st.changes + 1 } := by
  simp only [step, hi, hc, if_neg hv, if_true]

end Step

end CompositeMerge

/-- The pass over a block, after earlier blocks have left the types and `changes`. -/
def compositeMerge (block : Ops E C O) (variableTypes : Id → Option (Ty E)) (changes : Nat) :
    Option (CompositeMerge E C O) :=
  (indices block).foldlM CompositeMerge.step ⟨block, fun _ => [], variableTypes, changes⟩

end Ruda.BasicBlock
