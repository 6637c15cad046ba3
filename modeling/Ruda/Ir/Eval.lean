import Ruda.Ir.Instruction

/-!
# What instructions compute

The run-time meaning of an instruction, lane by lane, as the backends lower it: numbers
wrap to the output type, shifts by the width or more shift everything out, `Remainder`
has the sign of the divisor, and `Clamp` is a maximum of a minimum. A scalar operand of
a vector instruction is read in every lane.
-/

namespace Ruda.Ir

namespace ConstantValue

/-- `value` is one of the type's. -/
def Has : ElemType → ConstantValue → Prop
  | .int kind, .int value => kind.word.Has value
  | .uint kind, .uint value => kind.word.Has value
  | .bool, .bool _ => True
  | _, _ => False

instance (ty : ElemType) (value : ConstantValue) : Decidable (value.Has ty) := by
  cases ty <;> cases value <;> unfold Has <;> infer_instance

def toInt : ConstantValue → Int
  | .int value => value
  | .uint value => value
  | .bool value => value.toNat

end ConstantValue

/-- The value of the type that `v` wraps to; any number but zero is true. -/
def ElemType.value : ElemType → Int → ConstantValue
  | .int kind, v => .int (kind.word.wrap v)
  | .uint kind, v => .uint (kind.word.wrap v)
  | .bool, v => .bool (v ≠ 0)

/-- The values of all variables, in every lane. -/
abbrev Env := Variable → Nat → ConstantValue

def Variable.lane (var : Variable) (env : Env) (lane : Nat) : ConstantValue :=
  match var.kind with
  | .constant value => value
  | _ => env var (if var.ty.vectorSize = 1 then 0 else lane)

variable (arg : Variable → Nat → Int) (w : Word) (lane : Nat)

def Arithmetic.eval : Arithmetic → Int
  | .add op => arg op.lhs lane + arg op.rhs lane
  | .saturatingAdd op => w.saturate (arg op.lhs lane + arg op.rhs lane)
  | .sub op => arg op.lhs lane - arg op.rhs lane
  | .saturatingSub op => w.saturate (arg op.lhs lane - arg op.rhs lane)
  | .mul op => arg op.lhs lane * arg op.rhs lane
  | .div op => (arg op.lhs lane).tdiv (arg op.rhs lane)
  | .abs op => |arg op.input lane|
  | .clamp op => Max.max (arg op.minValue lane) (Min.min (arg op.maxValue lane) (arg op.input lane))
  | .modulo op => (arg op.lhs lane).tmod (arg op.rhs lane)
  | .neg op => -arg op.input lane
  | .max op => Max.max (arg op.lhs lane) (arg op.rhs lane)
  | .min op => Min.min (arg op.lhs lane) (arg op.rhs lane)
  | .remainder op => (arg op.lhs lane).fmod (arg op.rhs lane)
  | .dot op => ((List.range (Max.max op.lhs.ty.vectorSize op.rhs.ty.vectorSize)).map fun i => arg op.lhs i * arg op.rhs i).sum
  | .mulHi op => arg op.lhs lane * arg op.rhs lane / w.modulus

def Comparison.eval : Comparison → Bool
  | .lower op => arg op.lhs lane < arg op.rhs lane
  | .lowerEqual op => arg op.lhs lane ≤ arg op.rhs lane
  | .equal op => arg op.lhs lane = arg op.rhs lane
  | .notEqual op => arg op.lhs lane ≠ arg op.rhs lane
  | .greaterEqual op => arg op.rhs lane ≤ arg op.lhs lane
  | .greater op => arg op.rhs lane < arg op.lhs lane
  | .isNan _ | .isInf _ => false

/-- `w` is the type of what is shifted, counted or reversed. -/
def Bitwise.eval : Bitwise → Int
  | .bitwiseAnd op => Int.land (arg op.lhs lane) (arg op.rhs lane)
  | .bitwiseOr op => Int.lor (arg op.lhs lane) (arg op.rhs lane)
  | .bitwiseXor op => Int.xor (arg op.lhs lane) (arg op.rhs lane)
  | .shiftLeft op => w.shiftLeft (arg op.lhs lane) (arg op.rhs lane)
  | .shiftRight op => w.shiftRight (arg op.lhs lane) (arg op.rhs lane)
  | .countOnes op => Word.popCount w.bits (arg op.input lane)
  | .reverseBits op => Word.reverseBits w.bits (arg op.input lane)
  | .bitwiseNot op => -arg op.input lane - 1

/-- The type that a bitwise operation works on. -/
def Bitwise.elem : Bitwise → ElemType
  | .bitwiseAnd op | .bitwiseOr op | .bitwiseXor op | .shiftLeft op | .shiftRight op => op.lhs.ty.elem
  | .countOnes op | .reverseBits op | .bitwiseNot op => op.input.ty.elem

def Operation.eval (env : Env) (out : ElemType) (lane : Nat) : Operation → ConstantValue
  | .copy var => var.lane env lane
  | .arithmetic op => out.value (op.eval (fun var i => (var.lane env i).toInt) out.word lane)
  | .comparison op => .bool (op.eval (fun var i => (var.lane env i).toInt) lane)
  | .bitwise op =>
    match out with
    | .bool => .bool (Word.wrap out.word (op.eval (fun var i => (var.lane env i).toInt) op.elem.word lane) ≠ 0)
    | _ => out.value (op.eval (fun var i => (var.lane env i).toInt) op.elem.word lane)
  | .operator (.and op) => .bool ((op.lhs.lane env lane).asBool && (op.rhs.lane env lane).asBool)
  | .operator (.or op) => .bool ((op.lhs.lane env lane).asBool || (op.rhs.lane env lane).asBool)
  | .operator (.not op) => .bool !(op.input.lane env lane).asBool
  | .operator (.cast op) => out.value (op.input.lane env lane).toInt
  | .operator (.select op) => if (op.cond.lane env lane).asBool then op.thenValue.lane env lane else op.orElse.lane env lane

/-- What the instruction writes to a lane of its output. -/
def Instruction.eval (inst : Instruction) (env : Env) (lane : Nat) : ConstantValue :=
  inst.operation.eval env inst.out.ty.elem lane

-- Types of operands

/-- An operand of element type `elem` that vectors of `size` lanes can take. -/
structure Variable.Fits (var : Variable) (elem : ElemType) (size : Nat) : Prop where
  elem_eq : var.ty.elem = elem
  size_eq : var.ty.vectorSize = 1 ∨ var.ty.vectorSize = size
  const : ∀ value, var.kind = .constant value → value.Has elem

/-- `U32` and `U64` may be compared with each other. -/
def comparable : ElemType → ElemType → Prop
  | .uint .u32, .uint .u64 | .uint .u64, .uint .u32 => True
  | lhs, rhs => lhs = rhs

/-- The operands that the backends accept. -/
def Operation.Typed (out : Ty) : Operation → Prop
  | .copy var => var.Fits out.elem out.vectorSize
  | .arithmetic (.dot op) => out.elem ≠ .bool ∧ out.vectorSize = 1 ∧ ∃ size, 0 < size ∧
      ∀ var ∈ [op.lhs, op.rhs], var.Fits out.elem size
  | .arithmetic op => out.elem ≠ .bool ∧ ∀ var ∈ op.args, var.Fits out.elem out.vectorSize
  | .comparison op => out.elem = .bool ∧ ∃ elems : Variable → ElemType,
      (∀ var ∈ op.args, var.Fits (elems var) out.vectorSize) ∧
      ∀ var ∈ op.args, ∀ var' ∈ op.args, comparable (elems var) (elems var')
  | .bitwise (.shiftLeft op) | .bitwise (.shiftRight op) => out.elem ≠ .bool ∧ op.lhs.Fits out.elem out.vectorSize ∧
      ∃ elem, elem ≠ .bool ∧ op.rhs.Fits elem out.vectorSize
  | .bitwise (.countOnes op) => out.elem = .uint .u32 ∧ ∃ elem, elem ≠ .bool ∧ op.input.Fits elem out.vectorSize
  | .bitwise (.reverseBits op) => out.elem ≠ .bool ∧ op.input.Fits out.elem out.vectorSize
  | .bitwise op => ∀ var ∈ op.args, var.Fits out.elem out.vectorSize
  | .operator (.and op) | .operator (.or op) => out.elem = .bool ∧ ∀ var ∈ [op.lhs, op.rhs], var.Fits .bool out.vectorSize
  | .operator (.not op) => out.elem = .bool ∧ op.input.Fits .bool out.vectorSize
  | .operator (.cast op) => ∃ elem, op.input.Fits elem out.vectorSize
  | .operator (.select op) => op.cond.Fits .bool out.vectorSize ∧
      ∀ var ∈ [op.thenValue, op.orElse], var.Fits out.elem out.vectorSize

def Instruction.Typed (inst : Instruction) : Prop := inst.operation.Typed inst.out.ty

/-- Every variable has values of its type. -/
def Env.Typed (env : Env) : Prop := ∀ var lane, (env var lane).Has var.ty.elem

/-- A rewriting is exact: it does not panic, keeps the output, and writes the same to every
lane whatever the values of the operands. -/
def Exact (rewritten : Res Empty Instruction) (inst : Instruction) : Prop :=
  ∃ inst', rewritten = .ok inst' ∧ inst'.out = inst.out ∧ ∀ env : Env, env.Typed → ∀ lane, inst'.eval env lane = inst.eval env lane

end Ruda.Ir
