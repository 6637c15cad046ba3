import Ruda.Lib.Word

/-!
# Instructions

A translation of what the constant passes look at of `ir/type.rs`, `ir/variable.rs` and the
operations. Types have integers or booleans as elements; floats, packed, atomic and opaque
types are left out, and with them the operations on floats only. 64-bit integers are
integers in range.
-/

namespace Ruda.Ir

abbrev Id := Nat

-- Types

inductive IntKind
  | i8 | i16 | i32 | i64
  deriving DecidableEq, Repr

inductive UIntKind
  | u8 | u16 | u32 | u64
  deriving DecidableEq, Repr

inductive ElemType
  | int (kind : IntKind)
  | uint (kind : UIntKind)
  | bool
  deriving DecidableEq, Repr

def IntKind.word : IntKind → Word
  | .i8 => ⟨true, 8, by decide⟩
  | .i16 => ⟨true, 16, by decide⟩
  | .i32 => ⟨true, 32, by decide⟩
  | .i64 => ⟨true, 64, by decide⟩

def UIntKind.word : UIntKind → Word
  | .u8 => ⟨false, 8, by decide⟩
  | .u16 => ⟨false, 16, by decide⟩
  | .u32 => ⟨false, 32, by decide⟩
  | .u64 => ⟨false, 64, by decide⟩

def i32 : Word := IntKind.i32.word
def u32 : Word := UIntKind.u32.word
def i64 : Word := IntKind.i64.word
def u64 : Word := UIntKind.u64.word

/-- The elements as numbers, of which a boolean is one of a single bit. -/
def ElemType.word : ElemType → Word
  | .int kind => kind.word
  | .uint kind => kind.word
  | .bool => ⟨false, 1, by decide⟩

/-- `Type`, scalar for a vector size of one. -/
structure Ty where
  elem : ElemType
  vectorSize : Nat
  deriving DecidableEq, Repr

def Ty.scalar (elem : ElemType) : Ty := ⟨elem, 1⟩

/-- `is_int` counts booleans in, as the source does. -/
def Ty.isInt (ty : Ty) : Bool :=
  match ty.elem with
  | .int _ | .uint _ | .bool => true

-- Constants

/-- `ConstantValue`, with an `i64` or a `u64`. -/
inductive ConstantValue
  | int (value : Int)
  | uint (value : Int)
  | bool (value : Bool)
  deriving DecidableEq, Repr

namespace ConstantValue

def asI64 : ConstantValue → Int
  | .uint value => i64.wrap value
  | .int value => value
  | .bool value => value.toNat

def asU64 : ConstantValue → Int
  | .uint value => value
  | .int value => u64.wrap value
  | .bool value => value.toNat

def asU32 (value : ConstantValue) : Int := u32.wrap value.asU64

def asBool : ConstantValue → Bool
  | .uint value => value ≠ 0
  | .int value => value ≠ 0
  | .bool value => value

def castTo (value : ConstantValue) : ElemType → ConstantValue
  | .int kind => .int (kind.word.wrap value.asI64)
  | .uint kind => .uint (kind.word.wrap value.asU64)
  | .bool => .bool value.asBool

end ConstantValue

-- Variables

/-- `VariableKind`, without the layout of matrices, stages and levels. -/
inductive VariableKind
  | globalInputArray (id : Id)
  | globalOutputArray (id : Id)
  | globalScalar (id : Id)
  | tensorMapInput (id : Id)
  | tensorMapOutput (id : Id)
  | localArray (id : Id) (length : Nat)
  | localMut (id : Id)
  | localConst (id : Id)
  | versioned (id : Id) (version : Nat)
  | constant (value : ConstantValue)
  | constantArray (id : Id) (length : Nat)
  | sharedArray (id : Id) (length : Nat)
  | shared (id : Id)
  | matrix (id : Id)
  | builtin (number : Nat)
  | pipeline (id : Id)
  | barrierToken (id : Id)
  deriving DecidableEq, Repr

structure Variable where
  kind : VariableKind
  ty : Ty
  deriving DecidableEq, Repr

namespace Variable

/-- `Variable::constant` -/
def const (value : ConstantValue) (ty : Ty) : Variable := ⟨.constant (value.castTo ty.elem), ty⟩

/-- `From<u32>` and `From<bool>` -/
def ofU32 (value : Int) : Variable := const (.uint value) (.scalar (.uint .u32))

def ofBool (value : Bool) : Variable := const (.bool value) (.scalar .bool)

def asConst (var : Variable) : Option ConstantValue :=
  match var.kind with
  | .constant value => some value
  | _ => none

def isConstant (var : Variable) (value : Int) : Bool :=
  match var.kind with
  | .constant (.int val) => val = value
  | .constant (.uint val) => i64.wrap val = value
  | _ => false

def isTrue (var : Variable) : Bool :=
  match var.kind with
  | .constant (.bool val) => val
  | _ => false

def isFalse (var : Variable) : Bool :=
  match var.kind with
  | .constant (.bool val) => !val
  | _ => false

end Variable

-- Operations

structure BinaryOperator where
  lhs : Variable
  rhs : Variable
  deriving DecidableEq, Repr

structure UnaryOperator where
  input : Variable
  deriving DecidableEq, Repr

structure ClampOperator where
  input : Variable
  minValue : Variable
  maxValue : Variable
  deriving DecidableEq, Repr

/-- `Select`, whose `then` is a keyword here. -/
structure Select where
  cond : Variable
  thenValue : Variable
  orElse : Variable
  deriving DecidableEq, Repr

inductive Arithmetic
  | add (op : BinaryOperator)
  | saturatingAdd (op : BinaryOperator)
  | sub (op : BinaryOperator)
  | saturatingSub (op : BinaryOperator)
  | mul (op : BinaryOperator)
  | div (op : BinaryOperator)
  | abs (op : UnaryOperator)
  | clamp (op : ClampOperator)
  | modulo (op : BinaryOperator)
  | neg (op : UnaryOperator)
  | max (op : BinaryOperator)
  | min (op : BinaryOperator)
  | remainder (op : BinaryOperator)
  | dot (op : BinaryOperator)
  | mulHi (op : BinaryOperator)
  deriving DecidableEq, Repr

inductive Comparison
  | lower (op : BinaryOperator)
  | lowerEqual (op : BinaryOperator)
  | equal (op : BinaryOperator)
  | notEqual (op : BinaryOperator)
  | greaterEqual (op : BinaryOperator)
  | greater (op : BinaryOperator)
  | isNan (op : UnaryOperator)
  | isInf (op : UnaryOperator)
  deriving DecidableEq, Repr

/-- `LeadingZeros`, `TrailingZeros` and `FindFirstSet`, which no pass rewrites, are left out. -/
inductive Bitwise
  | bitwiseAnd (op : BinaryOperator)
  | bitwiseOr (op : BinaryOperator)
  | bitwiseXor (op : BinaryOperator)
  | shiftLeft (op : BinaryOperator)
  | shiftRight (op : BinaryOperator)
  | countOnes (op : UnaryOperator)
  | reverseBits (op : UnaryOperator)
  | bitwiseNot (op : UnaryOperator)
  deriving DecidableEq, Repr

/-- The operators on values; those on memory are not rewritten. -/
inductive Operator
  | and (op : BinaryOperator)
  | or (op : BinaryOperator)
  | not (op : UnaryOperator)
  | cast (op : UnaryOperator)
  | select (op : Select)
  deriving DecidableEq, Repr

inductive Operation
  | copy (var : Variable)
  | arithmetic (op : Arithmetic)
  | comparison (op : Comparison)
  | bitwise (op : Bitwise)
  | operator (op : Operator)
  deriving DecidableEq, Repr

/-- An instruction with an output. -/
structure Instruction where
  operation : Operation
  out : Variable
  deriving DecidableEq, Repr

def Arithmetic.args : Arithmetic → List Variable
  | .add op | .saturatingAdd op | .sub op | .saturatingSub op | .mul op | .div op | .modulo op | .max op | .min op
  | .remainder op | .dot op | .mulHi op => [op.lhs, op.rhs]
  | .abs op | .neg op => [op.input]
  | .clamp op => [op.input, op.minValue, op.maxValue]

def Comparison.args : Comparison → List Variable
  | .lower op | .lowerEqual op | .equal op | .notEqual op | .greaterEqual op | .greater op => [op.lhs, op.rhs]
  | .isNan op | .isInf op => [op.input]

def Bitwise.args : Bitwise → List Variable
  | .bitwiseAnd op | .bitwiseOr op | .bitwiseXor op | .shiftLeft op | .shiftRight op => [op.lhs, op.rhs]
  | .countOnes op | .reverseBits op | .bitwiseNot op => [op.input]

def Operator.args : Operator → List Variable
  | .and op | .or op => [op.lhs, op.rhs]
  | .not op | .cast op => [op.input]
  | .select op => [op.cond, op.thenValue, op.orElse]

def Operation.args : Operation → List Variable
  | .copy var => [var]
  | .arithmetic op => op.args
  | .comparison op => op.args
  | .bitwise op => op.args
  | .operator op => op.args

end Ruda.Ir
