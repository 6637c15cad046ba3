import Ruda.Pytorch.Sharing

/-!
# The pickle machine

The machine that a pickle is written for: marks are no objects, the memo holds references to
the containers themselves, and an integer has the value of all of its bytes. It does not do
what imports or calls. Beside each entry of the memo stand the containers filled since the
entry was made, and on a run of the machine the conditions under which copies do for
references.
-/

namespace Ruda.Pytorch

structure Entry where
  value : Value
  filled : List Nat

/-- A mark on the stack is `none`. -/
structure Machine where
  stack : List (Option Value)
  memo : List (Nat × Entry)
  heap : Heap

/-- Two's complement of all bytes. -/
def exactLong (data : Bytes) : Int :=
  match data.getLast? with
  | some b => if b.toNat < 0x80 then leValue data else leValue data - 2 ^ (8 * data.length)
  | none => 0

/-- The values above the last mark from the bottom up, and the stack under it. -/
def aboveMark : List Value → List (Option Value) → Option (List Value × List (Option Value))
  | _, [] => none
  | above, none :: stack => some (above, stack)
  | above, some v :: stack => aboveMark (v :: above) stack

def dictKey : Value → Option String
  | .atom (.string s) => some s
  | .atom (.int n) => some (toString n)
  | _ => none

def putPairs : List Value → List (String × Value) → Option (List (String × Value))
  | [], entries => some entries
  | [_], _ => none
  | k :: v :: rest, entries => (dictKey k).bind fun key => putPairs rest (hashInsert key v entries)

namespace Machine

def new : Machine := ⟨[], [], []⟩

def push (m : Machine) (v : Value) : Machine := { m with stack := some v :: m.stack }

def pop (m : Machine) : Option (Value × Machine) :=
  match m.stack with
  | some v :: stack => some (v, { m with stack })
  | _ => none

def popToMark (m : Machine) : Option (List Value × Machine) :=
  (aboveMark [] m.stack).map fun found => (found.1, { m with stack := found.2 })

/-- A new container on the stack. -/
def alloc (m : Machine) (c : Cell) : Machine :=
  { m with stack := some (.ref m.heap.length) :: m.stack, heap := m.heap ++ [c] }

def put (m : Machine) (index : Nat) : Option Machine :=
  match m.stack with
  | some v :: _ => some { m with memo := hashInsert index ⟨v, []⟩ m.memo }
  | _ => none

def get (m : Machine) (index : Nat) : Option Machine := (m.memo.lookup index).map fun e => m.push e.value

/-- The container at an address is another from now on. -/
def fill (m : Machine) (a : Nat) (c : Cell) : Machine :=
  { m with heap := m.heap.set a c, memo := m.memo.map fun e => (e.1, { e.2 with filled := a :: e.2.filled }) }

def extendList (m : Machine) (more : List Value) : Option Machine :=
  match m.stack with
  | some (.ref a) :: _ =>
    match m.heap[a]? with
    | some (.list items) => some (m.fill a (.list (items ++ more)))
    | _ => none
  | _ => none

def extendDict (m : Machine) (pairs : List Value) : Option Machine :=
  match m.stack with
  | some (.ref a) :: _ =>
    match m.heap[a]? with
    | some (.dict entries) => (putPairs pairs entries).map fun entries => m.fill a (.dict entries)
    | _ => none
  | _ => none

def act (op : OpCode) (m : Machine) : Option Machine :=
  match op with
  | .none => some (m.push (.atom .none))
  | .newTrue => some (m.push (.atom (.bool true)))
  | .newFalse => some (m.push (.atom (.bool false)))
  | .emptyTuple => some (m.push (.tuple []))
  | .emptyList => some (m.alloc (.list []))
  | .emptyDict => some (m.alloc (.dict []))
  | .tuple => m.popToMark.map fun found => found.2.push (.tuple found.1)
  | .tuple1 => do
    let a ← m.pop
    pure (a.2.push (.tuple [a.1]))
  | .tuple2 => do
    let b ← m.pop
    let a ← b.2.pop
    pure (a.2.push (.tuple [a.1, b.1]))
  | .tuple3 => do
    let c ← m.pop
    let b ← c.2.pop
    let a ← b.2.pop
    pure (a.2.push (.tuple [a.1, b.1, c.1]))
  | .append => do
    let v ← m.pop
    v.2.extendList [v.1]
  | .appends => do
    let found ← m.popToMark
    found.2.extendList found.1
  | .setItem => do
    let v ← m.pop
    let k ← v.2.pop
    k.2.extendDict [k.1, v.1]
  | .setItems => do
    let found ← m.popToMark
    found.2.extendDict found.1
  | .mark => some { m with stack := none :: m.stack }
  | .dict => do
    let found ← m.popToMark
    let entries ← putPairs found.1 []
    pure (found.2.alloc (.dict entries))
  | .list => m.popToMark.map fun found => found.2.alloc (.list found.1)
  | .memoize => m.put (m.memo.length % 2 ^ 32)
  | _ => none

/-- One opcode other than `STOP`, from what follows it in the stream. -/
def step (op : OpCode) (r : Bytes) (m : Machine) : Option (Machine × Bytes) :=
  match op with
  | .proto => do
    let version ← (readU8 r).toOption
    if version.1 > 5 then none else some (m, version.2)
  | .binInt => do
    let v ← (readLe 4 r).toOption
    pure (m.push (.atom (.int (signed 32 v.1))), v.2)
  | .int => do
    let text ← (bufToStr (readToNewline r).1).toOption
    let n ← Decimal.signed text.toList
    pure (m.push (.atom (.int n)), (readToNewline r).2)
  | .binInt1 => do
    let v ← (readU8 r).toOption
    pure (m.push (.atom (.int v.1.toNat)), v.2)
  | .binInt2 => do
    let v ← (readLe 2 r).toOption
    pure (m.push (.atom (.int v.1)), v.2)
  | .binFloat => do
    let data ← (readExact 8 r).toOption
    pure (m.push (.atom (.float (leValue data.1.reverse))), data.2)
  | .binUnicode => do
    let len ← (readLe 4 r).toOption
    let data ← (readExact len.1 len.2).toOption
    let text ← (bufToStr data.1).toOption
    pure (m.push (.atom (.string text)), data.2)
  | .shortBinString => do
    let len ← (readU8 r).toOption
    let data ← (readExact len.1.toNat len.2).toOption
    let text ← (bufToStr data.1).toOption
    pure (m.push (.atom (.string text)), data.2)
  | .long1 => do
    let len ← (readU8 r).toOption
    let data ← (readExact len.1.toNat len.2).toOption
    pure (m.push (.atom (.int (exactLong data.1))), data.2)
  | .binPut => do
    let index ← (readU8 r).toOption
    let m ← m.put index.1.toNat
    pure (m, index.2)
  | .longBinPut => do
    let index ← (readLe 4 r).toOption
    let m ← m.put index.1
    pure (m, index.2)
  | .binGet => do
    let index ← (readU8 r).toOption
    let m ← m.get index.1.toNat
    pure (m, index.2)
  | .longBinGet => do
    let index ← (readLe 4 r).toOption
    let m ← m.get index.1
    pure (m, index.2)
  | op => do
    let m ← act op m
    pure (m, r)

def loop : Nat → Bytes → Machine → Option (Value × Machine × Bytes)
  | 0, _, _ => none
  | _ + 1, [], _ => none
  | n + 1, b :: r, m => do
    let op ← OpCode.tryFrom b
    if op = .stop then do
      let v ← m.pop
      pure (v.1, v.2, r)
    else do
      let next ← step op r m
      loop n next.2 next.1

/-- The value of a stream, with the machine it belongs to and the bytes after it. -/
def run (r : Bytes) : Option (Value × Machine × Bytes) := loop r.length r new

-- Conditions on a run

/-- How many objects an opcode takes or copies from the top of the stack. -/
def taken : OpCode → Nat
  | .tuple1 | .append | .binPut | .longBinPut | .memoize | .stop => 1
  | .tuple2 | .setItem => 2
  | .tuple3 => 3
  | _ => 0

/-- The container that an opcode fills, what it fills it with, and the stack under it. -/
def filling (op : OpCode) (m : Machine) : Option (Nat × List Value × List (Option Value)) :=
  match op, m.stack with
  | .append, some v :: some (.ref a) :: stack => some (a, [v], stack)
  | .setItem, some v :: some k :: some (.ref a) :: stack => some (a, [k, v], stack)
  | .appends, stack | .setItems, stack =>
    match aboveMark [] stack with
    | some (above, some (.ref a) :: stack) => some (a, above, stack)
    | _ => none
  | _, _ => none

/-- The place of the memo that an opcode fetches. -/
def fetched (op : OpCode) (r : Bytes) : Option Nat :=
  match op with
  | .binGet => (readU8 r).toOption.map fun index => index.1.toNat
  | .longBinGet => (readLe 4 r).toOption.map Prod.fst
  | _ => none

/-- The bytes of a long integer. -/
def longData (op : OpCode) (r : Bytes) : Option Bytes :=
  match op with
  | .long1 => do
    let len ← (readU8 r).toOption
    let data ← (readExact len.1.toNat len.2).toOption
    pure data.1
  | _ => none

/-- The condition on one step: no mark is taken for an object, an integer has 64 bits, what is
filled has no other place on the stack, and what is fetched is as it was when it went into
the memo. -/
structure Meets (op : OpCode) (r : Bytes) (m : Machine) : Prop where
  unmarked : none ∉ m.stack.take (taken op)
  fits : ∀ data ∈ longData op r, -2 ^ 63 ≤ exactLong data ∧ exactLong data < 2 ^ 63
  alone : ∀ a more stack, filling op m = some (a, more, stack) →
    (∀ v ∈ more, ¬Reaches m.heap a v) ∧ ∀ v, some v ∈ stack → ¬Reaches m.heap a v
  fresh : ∀ index ∈ fetched op r, ∀ e ∈ m.memo.lookup index, ∀ a ∈ e.filled, ¬Reaches m.heap a e.value

/-- Opcodes of the stack, the memo, containers and numbers. -/
def Core (op : OpCode) : Prop := op ∉ [OpCode.global, .binPersId, .reduce, .build, .newObj]

instance (op : OpCode) : Decidable (Core op) := inferInstanceAs (Decidable (op ∉ _))

/-- Every step of a run meets the condition. -/
def Disciplined : Nat → Bytes → Machine → Prop
  | 0, _, _ => True
  | _ + 1, [], _ => True
  | n + 1, b :: r, m => ∀ op, OpCode.tryFrom b = some op → Core op ∧ Meets op r m ∧
    (op ≠ .stop → ∀ m' r', step op r m = some (m', r') → Disciplined n r' m')

end Machine

end Ruda.Pytorch
