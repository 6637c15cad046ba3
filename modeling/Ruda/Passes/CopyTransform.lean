import Ruda.Ir.BasicBlock

/-!
# Copies in memory

A translation of `CopyTransform` in `optimizer/passes/index_merge.rs` on one block. A value
that is loaded from one array, stored in another and used nowhere else is copied in place of
the store, and the load disappears. `none` is a panic, of a load or a store without an output.
-/

namespace Ruda.BasicBlock

/-- What stands for a value in SSA form. -/
abbrev Versioned := Id × Nat

variable {E C O : Type}

def asVersioned (var : Variable E C) : Option Versioned :=
  match var.kind with
  | .localConst id => some (id, 0)
  | .versioned id version => some (id, version)
  | _ => none

/-- An entry of `reads` or `writes`. -/
structure Access (E C : Type) where
  idx : Nat
  list : Variable E C
  index : Variable E C

structure Accesses (E C : Type) where
  reads : Versioned → Option (Access E C)
  writes : Versioned → Option (Access E C)

/-- The operations that `valid` knows to store something. -/
def Operation.stores : Operation E C O → Bool
  | .nativeStore .. | .typedStore .. | .pointerStore .. | .pointerAtomic .. => true
  | _ => false

variable [DecidableEq E] [DecidableEq C]

/-- How often the block visits `var` as an operand. -/
def visits (ops : Ops E C O) (var : Variable E C) : Nat :=
  (ops.map fun op =>
    match op with
    | some inst => inst.operation.args.count var
    | none => 0).sum

/-- `elsewhere` are the visits of the other blocks, of phi nodes and of control flow. -/
def isReused (elsewhere : Variable E C → Nat) (ops : Ops E C O) (var : Variable E C) : Bool :=
  1 < elsewhere var + visits ops var

def scan (elsewhere : Variable E C → Nat) (ops : Ops E C O) (found : Accesses E C) (idx : Nat) :
    Option (Accesses E C) :=
  match (ops[idx]?).join with
  | some ⟨.index list index, out⟩ =>
    if list.isMemory then
      match out with
      | none => none
      | some out =>
        if list.ty = out.ty ∧ ¬isReused elsewhere ops out then
          match asVersioned out with
          | some id => some { found with reads := Function.update found.reads id (some ⟨idx, list, index⟩) }
          | none => some found
        else some found
    else some found
  | some ⟨.indexAssign index value, out⟩ =>
    match out with
    | none => none
    | some out =>
      if out.isMemory ∧ out.ty = value.ty then
        match asVersioned value with
        | some id => some { found with writes := Function.update found.writes id (some ⟨idx, out, index⟩) }
        | none => some found
      else some found
  | _ => some found

/-- One place of the way from the load to the store. -/
def passes (ops : Ops E C O) (input out : Variable E C) (idx : Nat) : Bool :=
  match (ops[idx]?).join with
  | some inst =>
    !inst.operation.stores &&
      match inst.out with
      | some write => write ≠ input && write ≠ out
      | none => true
  | none => true

def valid (ops : Ops E C O) (read write : Access E C) : Bool :=
  (List.range' read.idx (write.idx - read.idx)).all (passes ops read.list write.list)

def fuse (found : Accesses E C) (st : Ops E C O × Nat) (id : Versioned) : Ops E C O × Nat :=
  match found.reads id, found.writes id with
  | some read, some write =>
    if valid st.1 read write then
      ((st.1.set read.idx none).set write.idx
        (some ⟨.copyMemory write.index read.list read.index, some write.list⟩), st.2 + 1)
    else st
  | _, _ => st

def accesses (elsewhere : Variable E C → Nat) (block : Ops E C O) : Option (Accesses E C) :=
  (indices block).foldlM (scan elsewhere block) ⟨fun _ => none, fun _ => none⟩

/-- The pass over a block; `order` is in what order the hash set has what is both loaded and
stored. -/
def copyTransform (elsewhere : Variable E C → Nat) (block : Ops E C O) (order : List Versioned) (changes : Nat) :
    Option (Ops E C O × Nat) :=
  (accesses elsewhere block).map fun found => order.foldl (fuse found) (block, changes)

end Ruda.BasicBlock
