import Ruda.Ir.Eval

/-!
# Constant folding

A translation of `ConstEval` of `passes/constant_prop.rs`. Constants are folded in 64 bits
and cut down to the output type. Overflow, a shift count out of range and a clamp
between bounds in the wrong order panic, and so does a pair of constants that no arm takes.
-/

namespace Ruda.Passes

open Ir

abbrev Folded := Res Empty (Option ConstantValue)

/-- `const_eval!` and `const_eval_int!`, with the operation on `i64` and on `u64`. -/
def evalBoth (ofInt ofUInt : Int → Int → Res Empty Int) (lhs rhs : Variable) : Folded :=
  match lhs.asConst, rhs.asConst with
  | some x, some y =>
    match x, y.castTo lhs.ty.elem with
    | .int x, .int y => do
      let value ← ofInt x y
      .ok (some (.int value))
    | .uint x, .uint y => do
      let value ← ofUInt x y
      .ok (some (.uint value))
    | _, _ => .error .panic
  | _, _ => .ok none

/-- `const_eval_cmp!` -/
def evalCmp (rel : Int → Int → Bool) (lhs rhs : Variable) : Folded :=
  match lhs.asConst, rhs.asConst with
  | some x, some y =>
    match x, y with
    | .int x, .int y => .ok (some (.bool (rel x y)))
    | .uint x, .uint y => .ok (some (.bool (rel x y)))
    | _, _ => .error .panic
  | _, _ => .ok none

/-- `const_eval_bool!` -/
def evalBool (f : Bool → Bool → Bool) (lhs rhs : Variable) : Folded :=
  match lhs.asConst, rhs.asConst with
  | some x, some y =>
    match x, y with
    | .bool x, .bool y => .ok (some (.bool (f x y)))
    | _, _ => .error .panic
  | _, _ => .ok none

def evalOne (ofInt ofUInt : Int → Res Empty Int) (input : Variable) : Folded :=
  match input.asConst with
  | some (.int x) => do
    let value ← ofInt x
    .ok (some (.int value))
  | some (.uint x) => do
    let value ← ofUInt x
    .ok (some (.uint value))
  | some (.bool _) => .error .panic
  | none => .ok none

-- Operators of the host

def hostDiv (t : Word) (x y : Int) : Res Empty Int := if y = 0 then .error .panic else t.check (x.tdiv y)

/-- The remainder panics where the quotient overflows. -/
def hostRem (t : Word) (x y : Int) : Res Empty Int :=
  if y = 0 then .error .panic
  else do
    let _ ← t.check (x.tdiv y)
    .ok (x.tmod y)

def hostShiftLeft (t : Word) (x count : Int) : Res Empty Int :=
  if 0 ≤ count ∧ count < t.bits then .ok (t.wrap (x * 2 ^ count.toNat)) else .error .panic

def hostShiftRight (t : Word) (x count : Int) : Res Empty Int :=
  if 0 ≤ count ∧ count < t.bits then .ok (x / 2 ^ count.toNat) else .error .panic

/-- `(lhs * rhs) >> 32`, as a 32-bit number -/
def hostMulHi (t narrow : Word) (x y : Int) : Res Empty Int := do
  let mul ← t.check (x * y)
  .ok (narrow.wrap (mul / 2 ^ 32))

/-- `Ord::clamp` -/
def hostClamp (x min max : Int) : Res Empty Int :=
  if min ≤ max then .ok (if x < min then min else if max < x then max else x) else .error .panic

-- The pass

def hasIntZeroDivisor (op : BinaryOperator) : Bool := op.rhs.isConstant 0

def evalClamp (op : ClampOperator) : Folded :=
  match op.input.asConst, op.minValue.asConst, op.maxValue.asConst with
  | some a, some b, some c =>
    match a, b.castTo op.input.ty.elem, c.castTo op.input.ty.elem with
    | .int a, .int b, .int c => do
      let value ← hostClamp a b c
      .ok (some (.int value))
    | .uint a, .uint b, .uint c => do
      let value ← hostClamp a b c
      .ok (some (.uint value))
    | _, _, _ => .error .panic
  | _, _, _ => .ok none

def tryConstEvalArithmetic : Arithmetic → Folded
  | .add op => evalBoth (fun x y => i64.check (x + y)) (fun x y => u64.check (x + y)) op.lhs op.rhs
  | .sub op => evalBoth (fun x y => i64.check (x - y)) (fun x y => u64.check (x - y)) op.lhs op.rhs
  | .mul op | .dot op => evalBoth (fun x y => i64.check (x * y)) (fun x y => u64.check (x * y)) op.lhs op.rhs
  | .div op => if hasIntZeroDivisor op then .ok none else evalBoth (hostDiv i64) (hostDiv u64) op.lhs op.rhs
  -- saturating operators only support 32 bits
  | .saturatingAdd op => evalBoth (fun x y => .ok (i32.saturate (i32.wrap x + i32.wrap y)))
      (fun x y => .ok (u32.saturate (u32.wrap x + u32.wrap y))) op.lhs op.rhs
  | .saturatingSub op => evalBoth (fun x y => .ok (i32.saturate (i32.wrap x - i32.wrap y)))
      (fun x y => .ok (u32.saturate (u32.wrap x - u32.wrap y))) op.lhs op.rhs
  | .modulo op | .remainder op =>
    if hasIntZeroDivisor op then .ok none else evalBoth (hostRem i64) (hostRem u64) op.lhs op.rhs
  | .mulHi op => evalBoth (hostMulHi i64 i32) (hostMulHi u64 u32) op.lhs op.rhs
  | .max op => evalBoth (fun x y => .ok (Max.max x y)) (fun x y => .ok (Max.max x y)) op.lhs op.rhs
  | .min op => evalBoth (fun x y => .ok (Min.min x y)) (fun x y => .ok (Min.min x y)) op.lhs op.rhs
  | .abs op => evalOne (fun x => i64.check |x|) (fun _ => .error .panic) op.input
  | .neg op => evalOne (fun x => i64.check (-x)) (fun _ => .error .panic) op.input
  | .clamp op => evalClamp op

def tryConstEvalCmp : Comparison → Folded
  | .equal op => evalCmp (fun x y => x = y) op.lhs op.rhs
  | .notEqual op => evalCmp (fun x y => x ≠ y) op.lhs op.rhs
  | .lower op => evalCmp (fun x y => x < y) op.lhs op.rhs
  | .greater op => evalCmp (fun x y => y < x) op.lhs op.rhs
  | .lowerEqual op => evalCmp (fun x y => x ≤ y) op.lhs op.rhs
  | .greaterEqual op => evalCmp (fun x y => y ≤ x) op.lhs op.rhs
  -- integers and booleans are neither
  | .isNan op | .isInf op => .ok (op.input.asConst.map fun _ => .bool false)

def tryConstEvalBitwise : Bitwise → Folded
  | .bitwiseAnd op => evalBoth (fun x y => .ok (Int.land x y)) (fun x y => .ok (Int.land x y)) op.lhs op.rhs
  | .bitwiseOr op => evalBoth (fun x y => .ok (Int.lor x y)) (fun x y => .ok (Int.lor x y)) op.lhs op.rhs
  | .bitwiseXor op => evalBoth (fun x y => .ok (Int.xor x y)) (fun x y => .ok (Int.xor x y)) op.lhs op.rhs
  | .shiftLeft op => evalBoth (hostShiftLeft i64) (hostShiftLeft u64) op.lhs op.rhs
  | .shiftRight op => evalBoth (hostShiftRight i64) (hostShiftRight u64) op.lhs op.rhs
  | .bitwiseNot op => evalOne (fun x => .ok (-x - 1)) (fun x => .ok (u64.wrap (-x - 1))) op.input
  | .countOnes op => evalOne (fun x => .ok (Word.popCount 64 x)) (fun x => .ok (Word.popCount 64 x)) op.input
  | .reverseBits op =>
    evalOne (fun x => .ok (i64.wrap (Word.reverseBits 64 x))) (fun x => .ok (Word.reverseBits 64 x)) op.input

def tryConstEvalOperator (out : Ty) : Operator → Folded
  | .and op => evalBool (· && ·) op.lhs op.rhs
  | .or op => evalBool (· || ·) op.lhs op.rhs
  | .not op =>
    match op.input.asConst with
    | some (.bool input) => .ok (some (.bool !input))
    | some _ => .error .panic
    | none => .ok none
  | .cast op => .ok (op.input.asConst.map fun val => val.castTo out.elem)
  | .select _ => .ok none

def tryConstEval (inst : Instruction) : Folded :=
  match inst.operation with
  | .arithmetic op => tryConstEvalArithmetic op
  | .comparison op => tryConstEvalCmp op
  | .bitwise op => tryConstEvalBitwise op
  | .operator op => tryConstEvalOperator inst.out.ty op
  | .copy _ => .ok none

/-- `ConstEval`, on one instruction. -/
def constEval (inst : Instruction) : Res Empty Instruction := do
  match ← tryConstEval inst with
  | some value => .ok { inst with operation := .copy (.const value inst.out.ty) }
  | none => .ok inst

end Ruda.Passes
