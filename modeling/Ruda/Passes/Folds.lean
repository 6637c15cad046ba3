import Ruda.Passes.ConstEval

/-!
# When constant folding is exact

Folding panics where the 64-bit operator does and on operands that its arms leave out,
and it is wrong where cutting down to the width comes too late: in saturating operators,
the high half of a product, bit counts and reversals of narrow numbers, and a remainder
whose operands differ in sign. `Folds` is the condition under which neither happens.
-/

namespace Ruda.Passes

open Ir

-- The condition

/-- The number that a constant operand stands for. -/
def number (var : Variable) : Int := (var.asConst.map ConstantValue.toInt).getD 0

/-- The type that constants of the element type are folded in. -/
def host : ElemType → Word
  | .int _ => i64
  | _ => u64

/-- The type that saturating operators are folded in. -/
def narrow : ElemType → Word
  | .int _ => i32
  | _ => u32

/-- The sum or difference, of the operands and of their lowest 32 bits, is in range or below
zero in an unsigned type. -/
def SaturatingFolds (elem : ElemType) (exact low : Int) : Prop :=
  elem.word.bits = 32 ∨ (elem.word.Has exact ∧ (narrow elem).Has exact ∧ (narrow elem).Has low) ∨
    (elem.word.signed = false ∧ exact ≤ 0 ∧ low ≤ 0)

def ArithmeticFolds (elem : ElemType) : Arithmetic → Prop
  | .add op => (host elem).Has (number op.lhs + number op.rhs)
  | .sub op => (host elem).Has (number op.lhs - number op.rhs)
  | .mul op => (host elem).Has (number op.lhs * number op.rhs)
  | .div op | .modulo op => number op.rhs = 0 ∨ (host elem).Has ((number op.lhs).tdiv (number op.rhs))
  | .remainder op => number op.rhs = 0 ∨ ((host elem).Has ((number op.lhs).tdiv (number op.rhs)) ∧
      (number op.rhs ∣ number op.lhs ∨ (0 ≤ number op.lhs ↔ 0 ≤ number op.rhs)))
  | .saturatingAdd op => SaturatingFolds elem (number op.lhs + number op.rhs)
      ((narrow elem).wrap (number op.lhs) + (narrow elem).wrap (number op.rhs))
  | .saturatingSub op => SaturatingFolds elem (number op.lhs - number op.rhs)
      ((narrow elem).wrap (number op.lhs) - (narrow elem).wrap (number op.rhs))
  -- a vector of equal numbers has as many products as lanes
  | .dot op => (host elem).Has (number op.lhs * number op.rhs) ∧ elem.word.modulus ∣
      ((Max.max op.lhs.ty.vectorSize op.rhs.ty.vectorSize : Nat) - 1) * (number op.lhs * number op.rhs)
  | .mulHi op => elem.word.bits = 32 ∨ ((host elem).Has (number op.lhs * number op.rhs) ∧
      -2 ^ Min.min elem.word.bits 32 ≤ number op.lhs * number op.rhs ∧
      number op.lhs * number op.rhs < 2 ^ Min.min elem.word.bits 32)
  | .abs op | .neg op => elem.word.signed = true ∧ (host elem).Has (-number op.input)
  | .clamp op => number op.minValue ≤ number op.maxValue
  | .max _ | .min _ => True

/-- No arm takes booleans. -/
def ComparisonFolds : Comparison → Prop
  | .lower op | .lowerEqual op | .equal op | .notEqual op | .greaterEqual op | .greater op => op.lhs.ty.elem ≠ .bool
  | .isNan _ | .isInf _ => True

/-- The count as the type of what is shifted has it. -/
def castCount (op : BinaryOperator) : Int := op.lhs.ty.elem.word.wrap (number op.rhs)

def BitwiseFolds : Bitwise → Prop
  | .bitwiseAnd op | .bitwiseOr op | .bitwiseXor op => op.lhs.ty.elem ≠ .bool
  | .bitwiseNot op => op.input.ty.elem ≠ .bool
  | .shiftLeft op => 0 ≤ castCount op ∧ castCount op < 64 ∧
      (castCount op = number op.rhs ∨ op.lhs.ty.elem.word.modulus ∣ number op.lhs * 2 ^ (castCount op).toNat)
  | .shiftRight op => 0 ≤ castCount op ∧ castCount op < 64 ∧ (castCount op = number op.rhs ∨
      (-2 ^ (castCount op).toNat ≤ number op.lhs ∧ number op.lhs < 2 ^ (castCount op).toNat))
  | .countOnes op => op.input.ty.elem.word.bits = 64 ∨ 0 ≤ number op.input
  | .reverseBits op => op.input.ty.elem.word.bits = 64 ∨ number op.input = 0 ∨ number op.input = -1

/-- Folding is exact on an instruction with constant operands. -/
def Folds (inst : Instruction) : Prop :=
  match inst.operation with
  | .arithmetic op => ArithmeticFolds inst.out.ty.elem op
  | .comparison op => ComparisonFolds op
  | .bitwise op => BitwiseFolds op
  | .operator _ | .copy _ => True

variable {elem elem' : ElemType} {lhs rhs var : Variable} {value : ConstantValue} {size lane : Nat} {env : Env}
variable {inst : Instruction} {x y v spec : Int}

-- Types

theorem bits_cases (he : elem ≠ .bool) :
    elem.word.bits = 8 ∨ elem.word.bits = 16 ∨ elem.word.bits = 32 ∨ elem.word.bits = 64 := by
  cases elem with
  | int kind => cases kind <;> decide
  | uint kind => cases kind <;> decide
  | bool => exact absurd rfl he

theorem host_bits (elem : ElemType) : (host elem).bits = 64 := by
  cases elem <;> rfl

theorem bits_le (elem : ElemType) : elem.word.bits ≤ 64 := by
  by_cases he : elem = .bool
  · rw [he]
    decide
  · have := bits_cases he
    omega

theorem bits_le_host (elem : ElemType) : elem.word.bits ≤ (host elem).bits := (bits_le elem).trans (host_bits elem).ge

theorem value_eq_value_iff (he : elem ≠ .bool) : elem.value v = elem.value spec ↔ elem.word.wrap v = elem.word.wrap spec := by
  cases elem with
  | int kind => exact ConstantValue.int.injEq _ _ ▸ Iff.rfl
  | uint kind => exact ConstantValue.uint.injEq _ _ ▸ Iff.rfl
  | bool => exact absurd rfl he

/-- The constant that an arm of the element type makes. -/
def raw : ElemType → Int → ConstantValue
  | .int _, v => .int v
  | .uint _, v => .uint v
  | .bool, v => .bool (v ≠ 0)

theorem castTo_eq_value (h : value.Has elem) (elem' : ElemType) : value.castTo elem' = elem'.value value.toInt := by
  have hu : ∀ (kind : UIntKind) (v : Int), kind.word.wrap (u64.wrap v) = kind.word.wrap v := fun kind v =>
    Word.wrap_wrap (bits_le (.uint kind))
  have hi : ∀ (kind : IntKind) (v : Int), kind.word.wrap (i64.wrap v) = kind.word.wrap v := fun kind v =>
    Word.wrap_wrap (bits_le (.int kind))
  cases elem' with
  | int kind => cases value <;> simp [ConstantValue.castTo, ConstantValue.asI64, ElemType.value, ConstantValue.toInt, hi]
  | uint kind => cases value <;> simp [ConstantValue.castTo, ConstantValue.asU64, ElemType.value, ConstantValue.toInt, hu]
  | bool =>
    cases value with
    | bool b => cases b <;> rfl
    | _ => rfl

theorem castTo_raw (elem : ElemType) (v : Int) (elem' : ElemType) (he' : elem' ≠ .bool) (he : elem ≠ .bool) :
    (raw elem v).castTo elem' = elem'.value v := by
  have hu : ∀ (kind : UIntKind), kind.word.wrap (u64.wrap v) = kind.word.wrap v := fun kind =>
    Word.wrap_wrap (bits_le (.uint kind))
  have hi : ∀ (kind : IntKind), kind.word.wrap (i64.wrap v) = kind.word.wrap v := fun kind =>
    Word.wrap_wrap (bits_le (.int kind))
  cases elem' with
  | int kind => cases elem <;> simp_all [raw, ConstantValue.castTo, ConstantValue.asI64, ElemType.value]
  | uint kind => cases elem <;> simp_all [raw, ConstantValue.castTo, ConstantValue.asU64, ElemType.value]
  | bool => exact absurd rfl he'

theorem value_castTo (elem : ElemType) (v : Int) : (elem.value v).castTo elem = elem.value v := by
  cases elem with
  | int kind => exact congrArg ConstantValue.int (Word.wrap_wrap le_rfl)
  | uint kind => exact congrArg ConstantValue.uint (Word.wrap_wrap le_rfl)
  | bool => rfl

theorem eq_raw (h : value.Has elem) (he : elem ≠ .bool) : value = raw elem value.toInt ∧ elem.word.Has value.toInt := by
  cases elem with
  | int kind => cases value <;> first | exact ⟨rfl, h⟩ | exact h.elim
  | uint kind => cases value <;> first | exact ⟨rfl, h⟩ | exact h.elim
  | bool => exact absurd rfl he

theorem eq_bool (h : value.Has .bool) : ∃ b, value = .bool b := by
  cases value with
  | bool b => exact ⟨b, rfl⟩
  | _ => exact h.elim

-- Constant operands

theorem kind_of_asConst (h : var.asConst = some value) : var.kind = .constant value := by
  unfold Variable.asConst at h
  split at h
  · next hk => rw [hk, Option.some.inj h]
  · cases h

theorem lane_of_asConst (h : var.asConst = some value) : var.lane env lane = value := by
  rw [Variable.lane, kind_of_asConst h]

theorem number_of_asConst (h : var.asConst = some value) : number var = value.toInt := by
  rw [number, h]
  rfl

theorem Fits.has (h : var.Fits elem size) (hc : var.asConst = some value) : value.Has elem := h.const value (kind_of_asConst hc)

theorem numeric (h : var.Fits elem size) (he : elem ≠ .bool) (hc : var.asConst.isSome) :
    var.asConst = some (raw elem (number var)) ∧ elem.word.Has (number var) ∧
      ∀ env lane, (var.lane env lane).toInt = number var := by
  obtain ⟨value, hv⟩ := Option.isSome_iff_exists.mp hc
  obtain ⟨hraw, hhas⟩ := eq_raw (Fits.has h hv) he
  rw [number_of_asConst hv, hv]
  exact ⟨congrArg some hraw, hhas, fun env lane => by rw [lane_of_asConst hv]⟩

theorem isConstant_zero (h : var.Fits elem size) (he : elem ≠ .bool) (hc : var.asConst.isSome) :
    var.isConstant 0 = decide (number var = 0) := by
  obtain ⟨hv, hhas, -⟩ := numeric h he hc
  unfold Variable.isConstant
  rw [kind_of_asConst hv]
  cases elem with
  | int kind => rfl
  | uint kind =>
    have hwrap : i64.wrap (number var) = 0 ↔ number var = 0 := by
      rw [Word.wrap_eq_iff i64.has_zero, sub_zero]
      have hrange := hhas.mono (u := u64) (by cases kind <;> rfl) (bits_le (.uint kind))
      have hlow : 0 ≤ number var := hrange.1
      have hhigh : number var ≤ 2 ^ 64 - 1 := by simpa [Word.max, Word.min, u64, UIntKind.word, Word.modulus] using hrange.2
      constructor
      · intro hd
        exact Int.eq_zero_of_dvd_of_nonneg_of_lt hlow (by simp only [Word.modulus, i64, IntKind.word]; omega) hd
      · intro hz
        rw [hz]
        exact dvd_zero _
    simp [raw, hwrap]
  | bool => exact absurd rfl he

-- Folding to a number

theorem env_typed_zero : Env.Typed fun var _ => var.ty.elem.value 0 := by
  intro var lane
  show (var.ty.elem.value 0).Has var.ty.elem
  cases var.ty.elem with
  | int kind => exact kind.word.has_wrap 0
  | uint kind => exact kind.word.has_wrap 0
  | bool => trivial

theorem exact_self (h : tryConstEval inst = .ok none) : Exact (constEval inst) inst :=
  ⟨inst, by rw [constEval, h]; rfl, rfl, fun _ _ _ => rfl⟩

theorem not_exact_panic (h : tryConstEval inst = .error .panic) : ¬Exact (constEval inst) inst := by
  rintro ⟨inst', hr, -⟩
  rw [constEval, h] at hr
  cases hr

theorem exact_const_iff {spec : ConstantValue} (h : tryConstEval inst = .ok (some value))
    (hspec : ∀ env lane, inst.eval env lane = spec) :
    Exact (constEval inst) inst ↔ value.castTo inst.out.ty.elem = spec := by
  have hfold : constEval inst = .ok { inst with operation := .copy (.const value inst.out.ty) } := by
    rw [constEval, h]
    rfl
  rw [hfold]
  constructor
  · rintro ⟨inst', hr, -, heval⟩
    have hsame := heval _ env_typed_zero 0
    rw [hspec] at hsame
    rw [← hsame, ← Except.ok.inj hr]
    rfl
  · rintro rfl
    exact ⟨_, rfl, rfl, fun env _ lane => (hspec env lane).symm⟩

theorem exact_number_iff {r : Res Empty Int} (he : elem ≠ .bool) (hout : inst.out.ty.elem ≠ .bool)
    (h : tryConstEval inst = (do let v ← r; .ok (some (raw elem v))))
    (hspec : ∀ env lane, inst.eval env lane = inst.out.ty.elem.value spec) :
    Exact (constEval inst) inst ↔ ∃ v, r = .ok v ∧ inst.out.ty.elem.word.wrap v = inst.out.ty.elem.word.wrap spec := by
  match r with
  | .ok v =>
    rw [exact_const_iff h hspec, castTo_raw _ _ _ hout he, value_eq_value_iff hout]
    exact ⟨fun hv => ⟨v, rfl, hv⟩, fun ⟨v', hv', hw⟩ => by rw [Except.ok.inj hv', hw]⟩
  | .error .panic =>
    exact iff_of_false (not_exact_panic h) fun ⟨_, hv, _⟩ => nomatch hv

theorem evalBoth_eq {ofInt ofUInt : Int → Int → Res Empty Int} {size' : Nat} (hl : lhs.Fits elem size)
    (hr : rhs.Fits elem' size') (he : elem ≠ .bool) (he' : elem' ≠ .bool) (hx : lhs.asConst.isSome) (hy : rhs.asConst.isSome) :
    evalBoth ofInt ofUInt lhs rhs =
      (do let v ← (if elem.word.signed then ofInt else ofUInt) (number lhs) (elem.word.wrap (number rhs)); .ok (some (raw elem v))) := by
  obtain ⟨hlc, -, -⟩ := numeric hl he hx
  obtain ⟨hrc, -, -⟩ := numeric hr he' hy
  rw [evalBoth, hlc, hrc]
  simp only
  rw [castTo_raw _ _ _ (hl.elem_eq ▸ he) he', hl.elem_eq]
  cases elem with
  | int kind => cases kind <;> rfl
  | uint kind => cases kind <;> rfl
  | bool => exact absurd rfl he

theorem evalBoth_bool {ofInt ofUInt : Int → Int → Res Empty Int} (hl : lhs.Fits .bool size) (hx : lhs.asConst.isSome) (hy : rhs.asConst.isSome) :
    evalBoth ofInt ofUInt lhs rhs = .error .panic := by
  obtain ⟨x, hx⟩ := Option.isSome_iff_exists.mp hx
  obtain ⟨y, hy⟩ := Option.isSome_iff_exists.mp hy
  obtain ⟨b, rfl⟩ := eq_bool (Fits.has hl hx)
  rw [evalBoth, hx, hy]

theorem evalOne_eq {ofInt ofUInt : Int → Res Empty Int} (h : var.Fits elem size) (he : elem ≠ .bool)
    (hc : var.asConst.isSome) : evalOne ofInt ofUInt var =
      (do let v ← (if elem.word.signed then ofInt else ofUInt) (number var); .ok (some (raw elem v))) := by
  obtain ⟨hv, -, -⟩ := numeric h he hc
  rw [evalOne, hv]
  cases elem with
  | int kind => cases kind <;> rfl
  | uint kind => cases kind <;> rfl
  | bool => exact absurd rfl he

theorem evalOne_bool {ofInt ofUInt : Int → Res Empty Int} (h : var.Fits .bool size) (hc : var.asConst.isSome) :
    evalOne ofInt ofUInt var = .error .panic := by
  obtain ⟨value, hv⟩ := Option.isSome_iff_exists.mp hc
  obtain ⟨b, rfl⟩ := eq_bool (Fits.has h hv)
  rw [evalOne, hv]

theorem pick_host {α : Type} (f : Word → α) (he : elem ≠ .bool) :
    (if elem.word.signed then f i64 else f u64) = f (host elem) := by
  cases elem with
  | int kind => cases kind <;> rfl
  | uint kind => cases kind <;> rfl
  | bool => exact absurd rfl he

-- Numbers

/-- Folding to `r` is exact for a number that wraps to `spec`. -/
def Agrees (w : Word) (r : Res Empty Int) (spec : Int) : Prop := ∃ v, r = .ok v ∧ w.wrap v = w.wrap spec

theorem agrees_ok {w : Word} : Agrees w (.ok v) spec ↔ w.wrap v = w.wrap spec := by
  simp [Agrees]

theorem agrees_check {w t : Word} : Agrees w (t.check v) spec ↔ t.Has v ∧ w.wrap v = w.wrap spec := by
  simp only [Agrees, Word.check_eq_ok, and_assoc]
  exact ⟨fun ⟨_, h, he, hw⟩ => ⟨h, he ▸ hw⟩, fun ⟨h, hw⟩ => ⟨v, h, rfl, hw⟩⟩

theorem saturating_iff (he : elem ≠ .bool) {exact low : Int}
    (hrange : (∃ x y, elem.word.Has x ∧ elem.word.Has y ∧ exact = x + y ∧ low = (narrow elem).wrap x + (narrow elem).wrap y) ∨
      ∃ x y, elem.word.Has x ∧ elem.word.Has y ∧ exact = x - y ∧ low = (narrow elem).wrap x - (narrow elem).wrap y) :
    elem.word.wrap ((narrow elem).saturate low) = elem.word.wrap (elem.word.saturate exact) ↔ SaturatingFolds elem exact low := by
  rw [Word.wrap_of_has (Word.has_saturate _ _)]
  unfold SaturatingFolds
  rcases hrange with ⟨x, y, hx, hy, rfl, rfl⟩ | ⟨x, y, hx, hy, rfl, rfl⟩
  all_goals
    cases elem with
    | bool => exact absurd rfl he
    | int kind =>
      cases kind <;>
        simp only [ElemType.word, IntKind.word, narrow, i32, Word.Has, Word.saturate, Word.wrap, Word.min, Word.max,
          Word.modulus] at hx hy ⊢ <;>
        norm_num at hx hy ⊢ <;> omega
    | uint kind =>
      cases kind <;>
        simp only [ElemType.word, UIntKind.word, narrow, u32, Word.Has, Word.saturate, Word.wrap, Word.min, Word.max,
          Word.modulus] at hx hy ⊢ <;>
        norm_num at hx hy ⊢ <;> omega

theorem mulHi_iff (he : elem ≠ .bool) {p : Int} (hp : elem.word.double.Has p) :
    ((host elem).Has p ∧ elem.word.wrap ((narrow elem).wrap (p / 2 ^ 32)) = elem.word.wrap (p / elem.word.modulus)) ↔
      elem.word.bits = 32 ∨ ((host elem).Has p ∧ -2 ^ Min.min elem.word.bits 32 ≤ p ∧ p < 2 ^ Min.min elem.word.bits 32) := by
  cases elem with
  | bool => exact absurd rfl he
  | int kind =>
    cases kind <;>
      simp only [ElemType.word, IntKind.word, narrow, i32, i64, host, Word.double, Word.Has, Word.wrap, Word.min, Word.max,
        Word.modulus] at hp ⊢ <;>
      norm_num at hp ⊢ <;> omega
  | uint kind =>
    cases kind <;>
      simp only [ElemType.word, UIntKind.word, narrow, u32, u64, host, Word.double, Word.Has, Word.wrap, Word.min, Word.max,
        Word.modulus] at hp ⊢ <;>
      norm_num at hp ⊢ <;> omega

theorem agrees_mulHi (he : elem ≠ .bool) (hx : elem.word.Has x) (hy : elem.word.Has y) :
    Agrees elem.word (hostMulHi (host elem) (narrow elem) x y) (x * y / elem.word.modulus) ↔
      elem.word.bits = 32 ∨ ((host elem).Has (x * y) ∧ -2 ^ Min.min elem.word.bits 32 ≤ x * y ∧
        x * y < 2 ^ Min.min elem.word.bits 32) := by
  rw [← mulHi_iff he (hx.mul hy)]
  unfold hostMulHi Word.check
  split
  · next h => rw [ok_bind, agrees_ok, and_iff_right h]
  · next h => exact iff_of_false (fun ⟨_, hv, _⟩ => nomatch hv) fun hh => h hh.1

theorem agrees_div (hy : y ≠ 0) (elem : ElemType) :
    Agrees elem.word (hostDiv (host elem) x y) (x.tdiv y) ↔ (host elem).Has (x.tdiv y) := by
  rw [hostDiv, if_neg hy, agrees_check, and_iff_left rfl]

theorem agrees_rem (hy : y ≠ 0) (elem : ElemType) (spec : Int) : Agrees elem.word (hostRem (host elem) x y) spec ↔
    (host elem).Has (x.tdiv y) ∧ elem.word.wrap (x.tmod y) = elem.word.wrap spec := by
  rw [hostRem, if_neg hy]
  unfold Word.check
  split
  · next h => rw [ok_bind, agrees_ok, and_iff_right h]
  · next h => exact iff_of_false (fun ⟨_, hv, _⟩ => nomatch hv) fun hh => h hh.1

theorem wrap_tmod_iff {w : Word} (hy : w.Has y) (hne : y ≠ 0) :
    w.wrap (x.tmod y) = w.wrap (x.fmod y) ↔ y ∣ x ∨ (0 ≤ x ↔ 0 ≤ y) := by
  have hlt := hy.abs_lt_modulus
  have hapart : ∀ d : Int, d = y ∨ d = -y → ¬w.modulus ∣ d := by
    rintro d (rfl | rfl) hd
    · exact hne (Int.eq_zero_of_abs_lt_dvd hd hlt)
    · exact hne (Int.eq_zero_of_abs_lt_dvd (dvd_neg.mp hd) hlt)
  rw [Word.wrap_eq_wrap_iff, Int.tmod_eq_fmod]
  by_cases hdvd : y ∣ x
  · simp [hdvd]
  rw [if_neg hdvd, or_iff_right hdvd]
  by_cases hx : 0 ≤ x
  · rw [if_pos hx]
    by_cases hy0 : 0 ≤ y
    · simp [hx, hy0]
    · rw [if_neg hy0]
      exact iff_of_false (hapart _ (by omega)) (by omega)
  · rw [if_neg hx]
    by_cases hy0 : 0 ≤ y
    · rw [if_pos hy0]
      exact iff_of_false (hapart _ (by omega)) (by omega)
    · rw [if_neg hy0, Int.toNat_of_nonpos (by omega)]
      simp [hx, hy0]

theorem agrees_clamp {w : Word} {min max : Int} :
    Agrees w (hostClamp x min max) (Max.max min (Min.min max x)) ↔ min ≤ max := by
  unfold hostClamp
  split
  · next h =>
    rw [agrees_ok]
    refine iff_of_true (congrArg w.wrap ?_) h
    split
    · omega
    · split <;> omega
  · next h => exact iff_of_false (fun ⟨_, hv, _⟩ => nomatch hv) h

-- Bits of numbers

theorem count_out {w : Word} {count : Int} (h : w.wrap count ≠ count) : count < 0 ∨ w.bits ≤ count := by
  by_contra hin
  exact h (Word.wrap_of_has (Word.has_of_lt_bits (by omega) (by omega)))

theorem agrees_shiftLeft {w t : Word} {count : Int} (hbits : w.bits ≤ t.bits) :
    Agrees w (hostShiftLeft t x (w.wrap count)) (w.shiftLeft x count) ↔ 0 ≤ w.wrap count ∧ w.wrap count < t.bits ∧
      (w.wrap count = count ∨ w.modulus ∣ x * 2 ^ (w.wrap count).toNat) := by
  unfold hostShiftLeft
  split
  · next h =>
    rw [agrees_ok, Word.wrap_wrap hbits, and_iff_right h.1, and_iff_right h.2]
    by_cases hcount : w.wrap count = count
    · refine iff_of_true ?_ (.inl hcount)
      rw [hcount] at h ⊢
      unfold Word.shiftLeft
      split
      · next hout =>
        rw [Word.wrap_eq_wrap_iff, sub_zero]
        exact Dvd.dvd.mul_left (pow_dvd_pow 2 (by omega)) x
      · rfl
    · rw [or_iff_right hcount, Word.shiftLeft, if_pos (count_out hcount), Word.wrap_eq_wrap_iff, sub_zero]
  · next h => exact iff_of_false (fun ⟨_, hv, _⟩ => nomatch hv) fun hh => h ⟨hh.1, hh.2.1⟩

theorem ediv_eq_fill_iff {count : Nat} :
    x / 2 ^ count = (if x < 0 then -1 else 0) ↔ -2 ^ count ≤ x ∧ x < 2 ^ count := by
  have hpos : (0 : Int) < 2 ^ count := by positivity
  have hlow : x / 2 ^ count = -1 ↔ -2 ^ count ≤ x ∧ x < 0 := by
    rw [Int.ediv_eq_iff_of_pos hpos]
    omega
  have hhigh : x / 2 ^ count = 0 ↔ 0 ≤ x ∧ x < 2 ^ count := by
    rw [Int.ediv_eq_iff_of_pos hpos]
    omega
  split
  · rw [hlow]
    omega
  · rw [hhigh]
    omega

theorem ediv_pow_bits {w : Word} (hx : w.Has x) {count : Nat} (h : w.bits ≤ count) : x / 2 ^ count = if x < 0 then -1 else 0 := by
  have habs := abs_lt.mp hx.abs_lt_modulus
  have hpow : w.modulus ≤ 2 ^ count := pow_le_pow_right₀ (by decide) h
  exact ediv_eq_fill_iff.mpr ⟨by omega, by omega⟩

theorem has_shiftRight {w : Word} (hx : w.Has x) (count : Nat) : w.Has (x / 2 ^ count) := by
  have hpos : (0 : Int) < 2 ^ count := by positivity
  obtain ⟨hmin, hmax⟩ := hx
  have hmin0 := w.min_nonpos
  have hmax0 := w.max_nonneg
  constructor
  · rw [Int.le_ediv_iff_mul_le hpos]
    nlinarith
  · rw [← Int.lt_add_one_iff, Int.ediv_lt_iff_lt_mul hpos]
    nlinarith

theorem has_fill {w : Word} (hx : w.Has x) : w.Has (if x < 0 then -1 else 0) := by
  have := w.max_nonneg
  split
  · exact ⟨by have := hx.1; omega, by omega⟩
  · exact w.has_zero

theorem agrees_shiftRight {w t : Word} {count : Int} (hx : w.Has x) :
    Agrees w (hostShiftRight t x (w.wrap count)) (w.shiftRight x count) ↔ 0 ≤ w.wrap count ∧ w.wrap count < t.bits ∧
      (w.wrap count = count ∨ (-2 ^ (w.wrap count).toNat ≤ x ∧ x < 2 ^ (w.wrap count).toNat)) := by
  unfold hostShiftRight
  split
  · next h =>
    rw [agrees_ok, and_iff_right h.1, and_iff_right h.2]
    by_cases hcount : w.wrap count = count
    · refine iff_of_true ?_ (.inl hcount)
      rw [hcount] at h ⊢
      unfold Word.shiftRight
      split
      · next hout =>
        rw [ediv_pow_bits hx (by omega)]
      · rfl
    · rw [or_iff_right hcount, Word.shiftRight, if_pos (count_out hcount), Word.wrap_of_has (has_shiftRight hx _),
        Word.wrap_of_has (has_fill hx), ediv_eq_fill_iff]
  · next h => exact iff_of_false (fun ⟨_, hv, _⟩ => nomatch hv) fun hh => h ⟨hh.1, hh.2.1⟩

theorem has_popCount (n : Nat) (h : n ≤ 64) (v : Int) : u32.Has (Word.popCount n v) := by
  obtain ⟨hlow, hhigh⟩ := Word.popCount_bounds n v
  simp only [u32, UIntKind.word, Word.Has, Word.min, Word.max, Word.modulus]
  norm_num
  omega

theorem agrees_countOnes (hx : elem.word.Has x) :
    Agrees u32 (.ok (Word.popCount 64 x)) (Word.popCount elem.word.bits x) ↔ elem.word.bits = 64 ∨ 0 ≤ x := by
  have hbits := bits_le elem
  have hsplit := Word.popCount_add elem.word.bits (64 - elem.word.bits) x
  rw [Nat.add_sub_cancel' hbits, ediv_pow_bits hx le_rfl] at hsplit
  rw [agrees_ok, Word.wrap_of_has (has_popCount _ le_rfl x), Word.wrap_of_has (has_popCount _ hbits x), hsplit]
  split
  · rw [Word.popCount_neg_one]
    omega
  · rw [Word.popCount_zero]
    omega

theorem reverseBits_iff (he : elem ≠ .bool) (hx : elem.word.Has x) :
    elem.word.wrap (Word.reverseBits 64 x) = elem.word.wrap (Word.reverseBits elem.word.bits x) ↔
      elem.word.bits = 64 ∨ x = 0 ∨ x = -1 := by
  by_cases hwide : elem.word.bits = 64
  · simp [hwide]
  have hbits : elem.word.bits ≤ 64 - elem.word.bits := by
    have := bits_cases he
    omega
  have hsplit := Word.reverseBits_add (64 - elem.word.bits) elem.word.bits x
  rw [Nat.sub_add_cancel (bits_le elem), ediv_pow_bits hx hbits] at hsplit
  have habs := abs_lt.mp hx.abs_lt_modulus
  have hrev := Word.reverseBits_bounds elem.word.bits x
  have hmod : elem.word.modulus = 2 ^ elem.word.bits := rfl
  rw [or_iff_right hwide, hsplit, Word.wrap_eq_wrap_iff, add_sub_assoc,
    dvd_add_right (Dvd.intro _ rfl : elem.word.modulus ∣ 2 ^ elem.word.bits * _)]
  split
  · next hneg =>
    rw [Word.reverseBits_neg_one]
    have hones := Word.reverseBits_eq_ones_iff elem.word.bits x
    constructor
    · intro hd
      have hz := Int.eq_zero_of_abs_lt_dvd hd (abs_lt.mpr ⟨by omega, by omega⟩)
      have hdvd := hones.mp (by omega)
      have := Int.eq_zero_of_abs_lt_dvd hdvd (abs_lt.mpr ⟨by omega, by omega⟩)
      omega
    · rintro (rfl | rfl)
      · omega
      · rw [Word.reverseBits_neg_one, sub_self]
        exact dvd_zero _
  · next hpos =>
    rw [Word.reverseBits_zero]
    have hzeros := Word.reverseBits_eq_zero_iff elem.word.bits x
    constructor
    · intro hd
      have hz := Int.eq_zero_of_abs_lt_dvd hd (abs_lt.mpr ⟨by omega, by omega⟩)
      have hdvd := hzeros.mp (by omega)
      exact .inl (Int.eq_zero_of_abs_lt_dvd hdvd hx.abs_lt_modulus)
    · rintro (rfl | rfl)
      · rw [Word.reverseBits_zero, sub_self]
        exact dvd_zero _
      · omega

theorem agrees_dot {w t : Word} {n : Nat} {p : Int} :
    Agrees w (t.check p) (n * p) ↔ t.Has p ∧ w.modulus ∣ (n - 1) * p := by
  rw [agrees_check, eq_comm, Word.wrap_eq_wrap_iff, sub_mul, one_mul]

theorem abs_has_iff (hsigned : elem.word.signed = true) (hx : elem.word.Has x) :
    (host elem).Has |x| ↔ (host elem).Has (-x) := by
  cases elem with
  | int kind =>
    have hrange := hx.mono (u := i64) (by cases kind <;> rfl) (bits_le (.int kind))
    simp only [i64, IntKind.word, Word.Has, Word.min, Word.max, Word.modulus, host] at hrange ⊢
    norm_num at hrange ⊢
    rcases abs_cases x with ⟨habs, _⟩ | ⟨habs, _⟩ <;> rw [habs] <;> omega
  | uint kind => cases kind <;> cases hsigned
  | bool => cases hsigned

end Ruda.Passes
