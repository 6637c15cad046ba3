import Ruda.Lib.Decimal

/-!
# Reading a pickle

A translation of `pickle_reader/mod.rs`: the opcodes, the stack with its memo, and the loop
over a stream. What `REDUCE` calls is a parameter; so is the type of a tensor. A hash map
stands as its entries, and the `Debug` text of an object at the end of a message is left out.
-/

namespace Ruda.Pytorch

inductive OpCode
  | proto | global | binPut | longBinPut | emptyTuple | reduce | mark | binUnicode | shortBinString | binInt | int
  | tuple | binPersId | binInt1 | binInt2 | tuple1 | tuple2 | tuple3 | newTrue | newFalse | none | binGet | longBinGet
  | setItem | setItems | emptyDict | dict | build | stop | newObj | emptyList | list | binFloat | append | appends
  | long1 | memoize
  deriving DecidableEq, Repr

namespace OpCode

def tryFrom : UInt8 → Option OpCode
  | 0x80 => some proto
  | 0x63 => some global
  | 0x71 => some binPut
  | 0x72 => some longBinPut
  | 0x29 => some emptyTuple
  | 0x52 => some reduce
  | 0x28 => some mark
  | 0x58 => some binUnicode
  | 0x55 => some shortBinString
  | 0x4a => some binInt
  | 0x49 => some int
  | 0x74 => some tuple
  | 0x51 => some binPersId
  | 0x4b => some binInt1
  | 0x4d => some binInt2
  | 0x4e => some none
  | 0x85 => some tuple1
  | 0x86 => some tuple2
  | 0x87 => some tuple3
  | 0x88 => some newTrue
  | 0x89 => some newFalse
  | 0x68 => some binGet
  | 0x6a => some longBinGet
  | 0x73 => some setItem
  | 0x75 => some setItems
  | 0x7d => some emptyDict
  | 0x64 => some dict
  | 0x62 => some build
  | 0x2e => some stop
  | 0x81 => some newObj
  | 0x5d => some emptyList
  | 0x6c => some list
  | 0x47 => some binFloat
  | 0x61 => some append
  | 0x65 => some appends
  | 0x8a => some long1
  | 0x94 => some memoize
  | _ => Option.none

end OpCode

inductive PickleError
  | io
  | invalidOpCode (code : UInt8)
  | invalidProtocol (version : UInt8)
  | unexpectedOpCode (op : OpCode)
  | unsupportedType (type : String)
  | invalidData (message : String)
  | stackUnderflow
  | memoNotFound (index : Nat)
  deriving DecidableEq, Repr

/-- A float as its bits. -/
inductive Object (τ : Type)
  | cls (moduleName name : String)
  | string (s : String)
  | int (n : Int)
  | float (bits : Nat)
  | bool (b : Bool)
  | none
  | tuple (items : List (Object τ))
  | list (items : List (Object τ))
  | dict (entries : List (String × Object τ))
  | persistent (bytes : List UInt8)
  | persistentTuple (items : List (Object τ))
  | reduce (callable args : Object τ)
  | build (callable args : Object τ)
  | torchParam (tensor : τ)

-- Bytes

abbrev Bytes := List UInt8

/-- `read_exact`, with the bytes after. -/
def readExact (n : Nat) (r : Bytes) : Res PickleError (Bytes × Bytes) :=
  if n ≤ r.length then .ok (r.take n, r.drop n) else .error (.err .io)

def readU8 : Bytes → Res PickleError (UInt8 × Bytes)
  | [] => .error (.err .io)
  | b :: r => .ok (b, r)

/-- A little-endian number of `n` bytes. -/
def readLe (n : Nat) (r : Bytes) : Res PickleError (Nat × Bytes) := do
  let data ← readExact n r
  pure (leValue data.1, data.2)

/-- `read_until`, with the delimiter if it is there. -/
def readUntil (delimiter : UInt8) : Bytes → Bytes × Bytes
  | [] => ([], [])
  | b :: r => if b = delimiter then ([b], r) else ((readUntil delimiter r).1.cons b, (readUntil delimiter r).2)

/-- A newline is `10`, a carriage return `13`. -/
def readToNewline (r : Bytes) : Bytes × Bytes :=
  let data := (readUntil 10 r).1.dropLast
  (if data.getLast? = some 13 then data.dropLast else data, (readUntil 10 r).2)

def bufToStr (buf : Bytes) : Res PickleError String :=
  okOr (String.fromUTF8? ⟨buf.toArray⟩) (.invalidData "Invalid UTF-8")

/-- `as i64` of `bits` bits in two's complement. -/
def signed (bits value : Nat) : Int := if value < 2 ^ (bits - 1) then value else value - 2 ^ bits

/-- The bytes that `read_long1` puts together, eight of them at most. -/
def long1Value (data : Bytes) : Int :=
  if data.length < 8 then
    match data.getLast? with
    | some b => if b.toNat < 0x80 then leValue data else leValue data - 2 ^ (8 * data.length)
    | none => 0
  else signed 64 (leValue (data.take 8))

variable {τ : Type}

-- The stack

/-- The top of the stack is its first element. -/
structure Stack (τ : Type) where
  stack : List (Object τ)
  memo : List (Nat × Object τ)

/-- `insert` of a hash map. -/
def hashInsert {κ α : Type} [DecidableEq κ] (k : κ) (v : α) : List (κ × α) → List (κ × α)
  | [] => [(k, v)]
  | (k', v') :: entries => if k = k' then (k, v) :: entries else (k', v') :: hashInsert k v entries

def Object.markObject : Object τ := .cls "mark" "mark"

def Object.isMark : Object τ → Bool
  | .cls moduleName name => moduleName = "mark" && name = "mark"
  | _ => false

/-- The objects above the last mark from the bottom up, and the stack under it. -/
def aboveMarker : List (Object τ) → List (Object τ) → Option (List (Object τ) × List (Object τ))
  | _, [] => none
  | above, o :: stack => if o.isMark then some (above, stack) else aboveMarker (o :: above) stack

namespace Stack

def new : Stack τ := ⟨[], []⟩

def push (s : Stack τ) (o : Object τ) : Stack τ := { s with stack := o :: s.stack }

def pop (s : Stack τ) : Res PickleError (Object τ × Stack τ) :=
  match s.stack with
  | [] => .error (.err .stackUnderflow)
  | o :: stack => .ok (o, { s with stack })

def top (s : Stack τ) : Res PickleError (Object τ) := okOr s.stack.head? .stackUnderflow

def popToMarker (s : Stack τ) : Res PickleError (List (Object τ) × Stack τ) := do
  let found ← okOr (aboveMarker [] s.stack) (.invalidData "marker not found")
  pure (found.1, { s with stack := found.2 })

def memoGet (s : Stack τ) (index : Nat) : Res PickleError (Object τ) := okOr (s.memo.lookup index) (.memoNotFound index)

/-- The top of the stack goes into the memo. -/
def memoTop (s : Stack τ) (index : Nat) : Res PickleError (Stack τ) := do
  let o ← s.top
  pure { s with memo := hashInsert index o s.memo }

/-- The list on the top of the stack grows. -/
def extendList (s : Stack τ) (op : OpCode) (more : List (Object τ)) : Res PickleError (Stack τ) :=
  match s.stack with
  | [] => .error (.err .stackUnderflow)
  | .list items :: stack => .ok { s with stack := .list (items ++ more) :: stack }
  | _ :: _ => .error (.err (.unexpectedOpCode op))

end Stack

def getDictKey : Object τ → Res PickleError String
  | .string s => .ok s
  | .int n => .ok (toString n)
  | _ => .error (.err (.invalidData "dict key must be a valid type"))

/-- Keys and values in turn. -/
def insertPairs : List (Object τ) → List (String × Object τ) → Res PickleError (List (String × Object τ))
  | k :: v :: rest, entries => do
    let key ← getDictKey k
    insertPairs rest (hashInsert key v entries)
  | _, entries => .ok entries

-- Opcodes

def readGlobal (r : Bytes) (s : Stack τ) : Res PickleError (Stack τ × Bytes) := do
  let moduleName ← bufToStr (readToNewline r).1
  let name ← bufToStr (readToNewline (readToNewline r).2).1
  pure (s.push (.cls moduleName name), (readToNewline (readToNewline r).2).2)

def readLong1 (r : Bytes) (s : Stack τ) : Res PickleError (Stack τ × Bytes) := do
  let len ← readU8 r
  let data ← readExact len.1.toNat len.2
  pure (s.push (.int (long1Value data.1)), data.2)

def readString (n : Nat) (r : Bytes) (s : Stack τ) : Res PickleError (Stack τ × Bytes) := do
  let data ← readExact n r
  let text ← bufToStr data.1
  pure (s.push (.string text), data.2)

def readInt (r : Bytes) (s : Stack τ) : Res PickleError (Stack τ × Bytes) := do
  let text ← bufToStr (readToNewline r).1
  let n ← okOr (Decimal.parse (-2 ^ 63) (2 ^ 63) text.toList) (.invalidData "Invalid INT value")
  pure (s.push (.int n), (readToNewline r).2)

def binPersId (s : Stack τ) : Res PickleError (Stack τ) := do
  let pid ← s.pop
  match pid.1 with
  | .string text => .ok (pid.2.push (.persistent text.toUTF8.toList))
  | .tuple items => .ok (pid.2.push (.persistentTuple items))
  | _ => .error (.err (.invalidData "persistent id must be a string or tuple"))

/-- The pairs that `OrderedDict` is made of. -/
def orderedItems : Object τ → List (Object τ)
  | .tuple (.list items :: _) => items
  | .list items => items
  | _ => []

def orderedEntry (entries : List (String × Object τ)) : Object τ → List (String × Object τ)
  | .list (.string key :: value :: _) | .tuple (.string key :: value :: _) => hashInsert key value entries
  | _ => entries

/-- What `REDUCE` calls for anything but an `OrderedDict`. -/
abbrev Rebuild (τ : Type) := Object τ → Object τ → Res PickleError (Object τ)

def reduce (rebuild : Rebuild τ) (s : Stack τ) : Res PickleError (Stack τ) := do
  let args ← s.pop
  let callable ← args.2.pop
  match callable.1 with
  | .cls "collections" "OrderedDict" =>
    .ok (callable.2.push (.dict ((orderedItems args.1).foldl orderedEntry [])))
  | _ => do
    let o ← rebuild callable.1 args.1
    pure (callable.2.push o)

def setItem (s : Stack τ) : Res PickleError (Stack τ) := do
  let value ← s.pop
  let key ← value.2.pop
  match key.2.stack with
  | [] => .error (.err .stackUnderflow)
  | .dict entries :: stack =>
    match key.1 with
    | .string k => .ok { key.2 with stack := .dict (hashInsert k value.1 entries) :: stack }
    | _ => .error (.err (.invalidData "dict key must be a string"))
  | _ :: _ => .error (.err (.unexpectedOpCode .setItem))

def setItems (s : Stack τ) : Res PickleError (Stack τ) := do
  let objs ← s.popToMarker
  failIf (objs.1.length % 2 ≠ 0) (.invalidData "setitems requires even number of objects")
  match objs.2.stack with
  | [] => .error (.err .stackUnderflow)
  | .dict entries :: stack => do
    let entries ← insertPairs objs.1 entries
    pure { objs.2 with stack := .dict entries :: stack }
  | _ :: _ => .error (.err (.unexpectedOpCode .setItems))

def build (s : Stack τ) : Res PickleError (Stack τ) := do
  let args ← s.pop
  let o ← args.2.pop
  match o.1 with
  | .dict entries =>
    match args.1 with
    | .dict update => .ok (o.2.push (.dict (update.foldl (fun entries e => hashInsert e.1 e.2 entries) entries)))
    | _ => .ok (o.2.push (.dict entries))
  | callable => .ok (o.2.push (.build callable args.1))

def dict (s : Stack τ) : Res PickleError (Stack τ) := do
  let objs ← s.popToMarker
  failIf (objs.1.length % 2 ≠ 0) (.invalidData "dict requires even number of objects")
  let entries ← insertPairs objs.1 []
  pure (objs.2.push (.dict entries))

/-- An opcode without operand. -/
def act (rebuild : Rebuild τ) (op : OpCode) (s : Stack τ) : Res PickleError (Stack τ) :=
  match op with
  | .none => .ok (s.push .none)
  | .newTrue => .ok (s.push (.bool true))
  | .newFalse => .ok (s.push (.bool false))
  | .emptyTuple => .ok (s.push (.tuple []))
  | .emptyList => .ok (s.push (.list []))
  | .emptyDict => .ok (s.push (.dict []))
  | .tuple => do
    let objs ← s.popToMarker
    pure (objs.2.push (.tuple objs.1))
  | .tuple1 => do
    let a ← s.pop
    pure (a.2.push (.tuple [a.1]))
  | .tuple2 => do
    let b ← s.pop
    let a ← b.2.pop
    pure (a.2.push (.tuple [a.1, b.1]))
  | .tuple3 => do
    let c ← s.pop
    let b ← c.2.pop
    let a ← b.2.pop
    pure (a.2.push (.tuple [a.1, b.1, c.1]))
  | .append => do
    let value ← s.pop
    value.2.extendList .append [value.1]
  | .appends => do
    let objs ← s.popToMarker
    objs.2.extendList .appends objs.1
  | .setItem => setItem s
  | .setItems => setItems s
  | .mark => .ok (s.push .markObject)
  | .binPersId => binPersId s
  | .reduce => reduce rebuild s
  | .build => build s
  | .newObj => do
    let args ← s.pop
    let callable ← args.2.pop
    pure (callable.2.push (.reduce callable.1 args.1))
  | .dict => dict s
  | .list => do
    let objs ← s.popToMarker
    pure (objs.2.push (.list objs.1))
  | .memoize => s.memoTop (s.memo.length % 2 ^ 32)
  | _ => .ok s

/-- One opcode other than `STOP`, from what follows it in the stream. -/
def step (rebuild : Rebuild τ) (op : OpCode) (r : Bytes) (s : Stack τ) : Res PickleError (Stack τ × Bytes) :=
  match op with
  | .proto => do
    let version ← readU8 r
    failIf (version.1 > 5) (.invalidProtocol version.1)
    pure (s, version.2)
  | .global => readGlobal r s
  | .binInt => do
    let v ← readLe 4 r
    pure (s.push (.int (signed 32 v.1)), v.2)
  | .int => readInt r s
  | .binInt1 => do
    let v ← readU8 r
    pure (s.push (.int v.1.toNat), v.2)
  | .binInt2 => do
    let v ← readLe 2 r
    pure (s.push (.int v.1), v.2)
  | .binFloat => do
    let data ← readExact 8 r
    pure (s.push (.float (leValue data.1.reverse)), data.2)
  | .binUnicode => do
    let len ← readLe 4 r
    readString len.1 len.2 s
  | .shortBinString => do
    let len ← readU8 r
    readString len.1.toNat len.2 s
  | .long1 => readLong1 r s
  | .binPut => do
    let index ← readU8 r
    let s ← s.memoTop index.1.toNat
    pure (s, index.2)
  | .longBinPut => do
    let index ← readLe 4 r
    let s ← s.memoTop index.1
    pure (s, index.2)
  | .binGet => do
    let index ← readU8 r
    let o ← s.memoGet index.1.toNat
    pure (s.push o, index.2)
  | .longBinGet => do
    let index ← readLe 4 r
    let o ← s.memoGet index.1
    pure (s.push o, index.2)
  | op => do
    let s ← act rebuild op s
    pure (s, r)

/-- The loop. Every pass takes a byte at least, so that `n` bytes are the end of it. -/
def readLoop (rebuild : Rebuild τ) : Nat → Bytes → Stack τ → Res PickleError (Object τ × Bytes)
  | 0, _, _ => .error (.err .io)
  | n + 1, r, s => do
    let code ← readU8 r
    let op ← okOr (OpCode.tryFrom code.1) (.invalidOpCode code.1)
    if op = .stop then do
      let o ← s.pop
      pure (o.1, code.2)
    else do
      let next ← step rebuild op code.2 s
      readLoop rebuild n next.2 next.1

def readPickle (rebuild : Rebuild τ) (r : Bytes) : Res PickleError (Object τ × Bytes) :=
  readLoop rebuild r.length r Stack.new

end Ruda.Pytorch
