import Ruda.Lib.Fallible

/-!
# The parts of a GGUF file

The tensor types with their blocks, the metadata values, and what is kept of a tensor and
of a file. Floats are kept as their bits.
-/

namespace Ruda.Gguf

inductive GgmlType
  | f32 | f16 | q4_0 | q4_1 | q5_0 | q5_1 | q8_0 | q8_1 | q2_k | q3_k | q4_k | q5_k | q6_k | q8_k
  | iq2_xxs | iq2_xs | iq3_xxs | iq1_s | iq4_nl | iq3_s | iq2_s | iq4_xs
  | i8 | i16 | i32 | i64 | f64 | iq1_m | bf16 | tq1_0 | tq2_0 | mxfp4 | nvfp4 | q1_0 | q2_0
  deriving DecidableEq

namespace GgmlType

def fromId : Nat → Option GgmlType
  | 0 => some f32 | 1 => some f16 | 2 => some q4_0 | 3 => some q4_1
  | 6 => some q5_0 | 7 => some q5_1 | 8 => some q8_0 | 9 => some q8_1
  | 10 => some q2_k | 11 => some q3_k | 12 => some q4_k | 13 => some q5_k
  | 14 => some q6_k | 15 => some q8_k | 16 => some iq2_xxs | 17 => some iq2_xs
  | 18 => some iq3_xxs | 19 => some iq1_s | 20 => some iq4_nl | 21 => some iq3_s
  | 22 => some iq2_s | 23 => some iq4_xs | 24 => some i8 | 25 => some i16
  | 26 => some i32 | 27 => some i64 | 28 => some f64 | 29 => some iq1_m
  | 30 => some bf16 | 34 => some tq1_0 | 35 => some tq2_0
  | 39 => some mxfp4 | 40 => some nvfp4 | 41 => some q1_0 | 42 => some q2_0
  | _ => none

/-- The elements and the bytes of a block. -/
def blockLayout : GgmlType → Nat × Nat
  | f32 | i32 => (1, 4)
  | f16 | bf16 | i16 => (1, 2)
  | i8 => (1, 1)
  | i64 | f64 => (1, 8)
  | q4_0 | iq4_nl => (32, 18)
  | q4_1 => (32, 20)
  | q5_0 => (32, 22)
  | q5_1 => (32, 24)
  | q8_0 => (32, 34)
  | q8_1 => (32, 36)
  | q2_k => (256, 84)
  | q3_k => (256, 110)
  | q4_k => (256, 144)
  | q5_k => (256, 176)
  | q6_k => (256, 210)
  | q8_k => (256, 292)
  | iq2_xxs => (256, 66)
  | iq2_xs => (256, 74)
  | iq3_xxs => (256, 98)
  | iq1_s => (256, 50)
  | iq3_s => (256, 110)
  | iq2_s => (256, 82)
  | iq4_xs => (256, 136)
  | iq1_m => (256, 56)
  | tq1_0 => (256, 54)
  | tq2_0 => (256, 66)
  | mxfp4 => (32, 17)
  | nvfp4 => (64, 36)
  | q1_0 => (128, 18)
  | q2_0 => (64, 18)

def rowBytes (t : GgmlType) (width : Nat) : Option Nat :=
  if width % t.blockLayout.1 ≠ 0 then none else checkedMul (width / t.blockLayout.1) t.blockLayout.2

def isQuantized (t : GgmlType) : Bool := t.blockLayout.1 ≠ 1

theorem blockLayout_pos (t : GgmlType) : 0 < t.blockLayout.1 ∧ 0 < t.blockLayout.2 := by
  cases t <;> decide

theorem rowBytes_pos {t : GgmlType} {width bytes : Nat} (h : t.rowBytes width = some bytes) (hw : 0 < width) :
    0 < bytes := by
  obtain ⟨helements, hbytes⟩ := t.blockLayout_pos
  unfold rowBytes at h
  split at h
  · cases h
  · next hmod =>
    obtain ⟨-, rfl⟩ := checkedMul_eq_some.mp h
    have hdvd : t.blockLayout.1 ∣ width := Nat.dvd_of_mod_eq_zero (not_not.mp hmod)
    exact Nat.mul_pos (Nat.div_pos (Nat.le_of_dvd hw hdvd) helements) hbytes

end GgmlType

inductive GgufEndian
  | little
  | big
  deriving DecidableEq

inductive GgufValue
  | u8 (v : UInt8)
  | i8 (v : Int8)
  | u16 (v : UInt16)
  | i16 (v : Int16)
  | u32 (v : UInt32)
  | i32 (v : Int32)
  | f32 (bits : UInt32)
  | bool (v : Bool)
  | string (v : String)
  | array (elementType : Nat) (values : List GgufValue)
  | u64 (v : UInt64)
  | i64 (v : Int64)
  | f64 (bits : UInt64)

namespace GgufValue

/-- `u64::try_from(v).ok()` of a signed value. -/
def unsigned (v : Int) : Option Nat := if 0 ≤ v then some v.toNat else none

def asU64 : GgufValue → Option Nat
  | u8 v => some v.toNat
  | u16 v => some v.toNat
  | u32 v => some v.toNat
  | u64 v => some v.toNat
  | i8 v => unsigned v.toInt
  | i16 v => unsigned v.toInt
  | i32 v => unsigned v.toInt
  | i64 v => unsigned v.toInt
  | _ => none

def asStr : GgufValue → Option String
  | string v => some v
  | _ => none

/-- `==` of two floats, whose bits below the sign are below `magnitude`: a NaN, which is
above infinity there, equals nothing, and the zeros are equal. -/
def floatEq (mantissa magnitude a b : Nat) : Bool :=
  let nan (bits : Nat) := bits % magnitude > magnitude - 2 ^ mantissa
  !nan a && !nan b && (a == b || a % magnitude == 0 && b % magnitude == 0)

mutual
/-- The derived `PartialEq`. -/
def eq : GgufValue → GgufValue → Bool
  | u8 a, u8 b => a == b
  | i8 a, i8 b => a == b
  | u16 a, u16 b => a == b
  | i16 a, i16 b => a == b
  | u32 a, u32 b => a == b
  | i32 a, i32 b => a == b
  | f32 a, f32 b => floatEq 23 (2 ^ 31) a.toNat b.toNat
  | bool a, bool b => a == b
  | string a, string b => a == b
  | array t a, array s b => t == s && eqAll a b
  | u64 a, u64 b => a == b
  | i64 a, i64 b => a == b
  | f64 a, f64 b => floatEq 52 (2 ^ 63) a.toNat b.toNat
  | _, _ => false
def eqAll : List GgufValue → List GgufValue → Bool
  | [], [] => true
  | a :: as, b :: bs => eq a b && eqAll as bs
  | _, _ => false
end

end GgufValue

/-- `io::Error`: a failed read, or `invalid` with its message. The text that names the byte
where UTF-8 ends is left out. -/
inductive GgufError
  | io
  | utf8
  | invalid (message : String)
  deriving DecidableEq

abbrev Res (α : Type) := Ruda.Res GgufError α

structure GgufTensorInfo where
  name : String
  dimensions : List Nat
  dtype : GgmlType
  offset : Nat
  byteLen : Nat

namespace GgufTensorInfo

def shape (info : GgufTensorInfo) : List Nat := info.dimensions.reverse

/-- A dimension that is not there and a failed `expect` panic. -/
def rowBytes (info : GgufTensorInfo) : Res Nat :=
  match info.dimensions with
  | [] => throw .panic
  | width :: _ =>
    match info.dtype.rowBytes width with
    | some bytes => pure bytes
    | none => throw .panic

/-- `self.dimensions[1..].iter().product()` -/
def rows (info : GgufTensorInfo) : Res Nat :=
  match info.dimensions with
  | [] => throw .panic
  | _ :: dims => dims.foldlM mulUsize 1

end GgufTensorInfo

abbrev Metadata := Std.ExtTreeMap String GgufValue compare
abbrev TensorInfos := Std.ExtTreeMap String GgufTensorInfo compare

/-- An open file, with the bytes that its handle reads. -/
structure GgufFile where
  path : String
  version : Nat
  endian : GgufEndian
  metadata : Metadata
  tensors : TensorInfos
  dataOffset : Nat
  file : List UInt8

structure GgufPackedTensor where
  info : GgufTensorInfo
  endian : GgufEndian
  bytes : List UInt8

end Ruda.Gguf
