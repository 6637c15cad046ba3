import Ruda.Passes.Folds

/-!
# Constant folding is exact where it folds

One lemma for each family of operations, and from them that folding an instruction with
constant operands is exact exactly under `Folds`.
-/

namespace Ruda.Passes

open Ir

variable {elem elem' : ElemType} {out lhs rhs var : Variable} {size size' : Nat} {inst : Instruction} {spec : Int}

-- Arms

theorem exact_evalBoth_iff {ofInt ofUInt : Int → Int → Res Empty Int} (hl : lhs.Fits inst.out.ty.elem size)
    (hr : rhs.Fits elem' size') (he : inst.out.ty.elem ≠ .bool) (he' : elem' ≠ .bool) (hx : lhs.asConst.isSome)
    (hy : rhs.asConst.isSome) (h : tryConstEval inst = evalBoth ofInt ofUInt lhs rhs)
    (hspec : ∀ env lane, inst.eval env lane = inst.out.ty.elem.value spec) :
    Exact (constEval inst) inst ↔ Agrees inst.out.ty.elem.word
      ((if inst.out.ty.elem.word.signed then ofInt else ofUInt) (number lhs) (inst.out.ty.elem.word.wrap (number rhs))) spec :=
  exact_number_iff he he (h.trans (evalBoth_eq hl hr he he' hx hy)) hspec

theorem exact_evalOne_iff {ofInt ofUInt : Int → Res Empty Int} (hv : var.Fits elem size) (he : elem ≠ .bool)
    (hout : inst.out.ty.elem ≠ .bool) (hx : var.asConst.isSome) (h : tryConstEval inst = evalOne ofInt ofUInt var)
    (hspec : ∀ env lane, inst.eval env lane = inst.out.ty.elem.value spec) :
    Exact (constEval inst) inst ↔
      Agrees inst.out.ty.elem.word ((if elem.word.signed then ofInt else ofUInt) (number var)) spec :=
  exact_number_iff he hout (h.trans (evalOne_eq hv he hx)) hspec

-- Arithmetic

theorem exact_arithmetic_iff {a : Arithmetic} {op : BinaryOperator} {ofInt ofUInt : Int → Int → Res Empty Int}
    (he : out.ty.elem ≠ .bool) (hfits : ∀ var ∈ [op.lhs, op.rhs], var.Fits out.ty.elem size)
    (hc : ∀ var ∈ [op.lhs, op.rhs], var.asConst.isSome) (h : tryConstEvalArithmetic a = evalBoth ofInt ofUInt op.lhs op.rhs)
    (hspec : ∀ (arg : Variable → Nat → Int) lane, (∀ lane, arg op.lhs lane = number op.lhs) →
      (∀ lane, arg op.rhs lane = number op.rhs) → a.eval arg out.ty.elem.word lane = spec) :
    Exact (constEval ⟨.arithmetic a, out⟩) ⟨.arithmetic a, out⟩ ↔ Agrees out.ty.elem.word
      ((if out.ty.elem.word.signed then ofInt else ofUInt) (number op.lhs) (number op.rhs)) spec := by
  have hl := hfits op.lhs (by simp)
  have hr := hfits op.rhs (by simp)
  obtain ⟨-, -, hlane⟩ := numeric hl he (hc op.lhs (by simp))
  obtain ⟨-, hhas, hlane'⟩ := numeric hr he (hc op.rhs (by simp))
  have heval (env : Env) (lane : Nat) : Instruction.eval ⟨.arithmetic a, out⟩ env lane = out.ty.elem.value spec :=
    congrArg out.ty.elem.value (hspec _ lane (hlane env) (hlane' env))
  refine Iff.trans (exact_evalBoth_iff hl hr he he (hc op.lhs (by simp)) (hc op.rhs (by simp)) h heval) ?_
  rw [Word.wrap_of_has hhas]

theorem exact_unary_iff {a : Arithmetic} {op : UnaryOperator} {ofInt ofUInt : Int → Res Empty Int}
    (hfits : op.input.Fits out.ty.elem size) (he : out.ty.elem ≠ .bool) (hc : op.input.asConst.isSome)
    (h : tryConstEvalArithmetic a = evalOne ofInt ofUInt op.input)
    (hspec : ∀ (arg : Variable → Nat → Int) lane, arg op.input lane = number op.input →
      a.eval arg out.ty.elem.word lane = spec) :
    Exact (constEval ⟨.arithmetic a, out⟩) ⟨.arithmetic a, out⟩ ↔ Agrees out.ty.elem.word
      ((if out.ty.elem.word.signed then ofInt else ofUInt) (number op.input)) spec := by
  obtain ⟨-, -, hlane⟩ := numeric hfits he hc
  have heval (env : Env) (lane : Nat) : Instruction.eval ⟨.arithmetic a, out⟩ env lane = out.ty.elem.value spec :=
    congrArg out.ty.elem.value (hspec _ lane (hlane env lane))
  exact exact_evalOne_iff hfits he he hc h heval

theorem host_of_signed (h : elem.word.signed = true) : host elem = i64 := by
  cases elem with
  | int kind => rfl
  | uint kind => cases kind <;> cases h
  | bool => cases h

theorem pick_narrow {α : Type} (f : Word → α) (he : elem ≠ .bool) :
    (if elem.word.signed then f i32 else f u32) = f (narrow elem) := by
  cases elem with
  | int kind => cases kind <;> rfl
  | uint kind => cases kind <;> rfl
  | bool => exact absurd rfl he

theorem divisor_zero {op : BinaryOperator} (he : out.ty.elem ≠ .bool) (hfits : ∀ var ∈ [op.lhs, op.rhs], var.Fits out.ty.elem size)
    (hc : ∀ var ∈ [op.lhs, op.rhs], var.asConst.isSome) : hasIntZeroDivisor op = decide (number op.rhs = 0) :=
  isConstant_zero (hfits op.rhs (by simp)) he (hc op.rhs (by simp))

theorem number_has {elem : ElemType} (he : elem ≠ .bool) (h : var.Fits elem size) (hc : var.asConst.isSome) :
    elem.word.Has (number var) := (numeric h he hc).2.1

theorem arithmetic_exact_iff {a : Arithmetic} (hty : Operation.Typed out.ty (.arithmetic a))
    (hc : ∀ var ∈ a.args, var.asConst.isSome) :
    Exact (constEval ⟨.arithmetic a, out⟩) ⟨.arithmetic a, out⟩ ↔ ArithmeticFolds out.ty.elem a := by
  have pick (f : Word → Int → Int → Res Empty Int) (he : out.ty.elem ≠ .bool) :
      (if out.ty.elem.word.signed then f i64 else f u64) = f (host out.ty.elem) := pick_host f he
  cases a with
  | add op =>
    obtain ⟨he, hfits⟩ := hty
    rw [exact_arithmetic_iff he hfits hc rfl fun arg lane hl hr => by rw [Arithmetic.eval, hl, hr],
      pick (fun t x y => t.check (x + y)) he, agrees_check, and_iff_left rfl]
    rfl
  | sub op =>
    obtain ⟨he, hfits⟩ := hty
    rw [exact_arithmetic_iff he hfits hc rfl fun arg lane hl hr => by rw [Arithmetic.eval, hl, hr],
      pick (fun t x y => t.check (x - y)) he, agrees_check, and_iff_left rfl]
    rfl
  | mul op =>
    obtain ⟨he, hfits⟩ := hty
    rw [exact_arithmetic_iff he hfits hc rfl fun arg lane hl hr => by rw [Arithmetic.eval, hl, hr],
      pick (fun t x y => t.check (x * y)) he, agrees_check, and_iff_left rfl]
    rfl
  | saturatingAdd op =>
    obtain ⟨he, hfits⟩ := hty
    have hx := number_has he (hfits op.lhs (by simp [Arithmetic.args])) (hc op.lhs (by simp [Arithmetic.args]))
    have hy := number_has he (hfits op.rhs (by simp [Arithmetic.args])) (hc op.rhs (by simp [Arithmetic.args]))
    rw [exact_arithmetic_iff he hfits hc rfl fun arg lane hl hr => by rw [Arithmetic.eval, hl, hr]]
    have hpick := pick_narrow (fun t (x y : Int) => (Except.ok (t.saturate (t.wrap x + t.wrap y)) : Res Empty Int)) he
    rw [hpick, agrees_ok]
    exact saturating_iff he (.inl ⟨_, _, hx, hy, rfl, rfl⟩)
  | saturatingSub op =>
    obtain ⟨he, hfits⟩ := hty
    have hx := number_has he (hfits op.lhs (by simp [Arithmetic.args])) (hc op.lhs (by simp [Arithmetic.args]))
    have hy := number_has he (hfits op.rhs (by simp [Arithmetic.args])) (hc op.rhs (by simp [Arithmetic.args]))
    rw [exact_arithmetic_iff he hfits hc rfl fun arg lane hl hr => by rw [Arithmetic.eval, hl, hr]]
    have hpick := pick_narrow (fun t (x y : Int) => (Except.ok (t.saturate (t.wrap x - t.wrap y)) : Res Empty Int)) he
    rw [hpick, agrees_ok]
    exact saturating_iff he (.inr ⟨_, _, hx, hy, rfl, rfl⟩)
  | div op =>
    obtain ⟨he, hfits⟩ := hty
    have hzero := divisor_zero he hfits hc
    by_cases hy : number op.rhs = 0
    · refine iff_of_true (exact_self ?_) (.inl hy)
      simp [tryConstEval, tryConstEvalArithmetic, hzero, hy]
    · rw [exact_arithmetic_iff he hfits hc (by simp only [tryConstEvalArithmetic, hzero, hy]; rfl)
        fun arg lane hl hr => by rw [Arithmetic.eval, hl, hr], pick hostDiv he, agrees_div hy]
      exact (or_iff_right hy).symm
  | modulo op =>
    obtain ⟨he, hfits⟩ := hty
    have hzero := divisor_zero he hfits hc
    by_cases hy : number op.rhs = 0
    · refine iff_of_true (exact_self ?_) (.inl hy)
      simp [tryConstEval, tryConstEvalArithmetic, hzero, hy]
    · rw [exact_arithmetic_iff he hfits hc (by simp only [tryConstEvalArithmetic, hzero, hy]; rfl)
        fun arg lane hl hr => by rw [Arithmetic.eval, hl, hr], pick hostRem he, agrees_rem hy, and_iff_left rfl]
      exact (or_iff_right hy).symm
  | remainder op =>
    obtain ⟨he, hfits⟩ := hty
    have hzero := divisor_zero he hfits hc
    by_cases hy : number op.rhs = 0
    · refine iff_of_true (exact_self ?_) (.inl hy)
      simp [tryConstEval, tryConstEvalArithmetic, hzero, hy]
    · have hhas := number_has he (hfits op.rhs (by simp [Arithmetic.args])) (hc op.rhs (by simp [Arithmetic.args]))
      rw [exact_arithmetic_iff he hfits hc (by simp only [tryConstEvalArithmetic, hzero, hy]; rfl)
        fun arg lane hl hr => by rw [Arithmetic.eval, hl, hr], pick hostRem he, agrees_rem hy, wrap_tmod_iff hhas hy]
      exact (or_iff_right hy).symm
  | mulHi op =>
    obtain ⟨he, hfits⟩ := hty
    have hx := number_has he (hfits op.lhs (by simp [Arithmetic.args])) (hc op.lhs (by simp [Arithmetic.args]))
    have hy := number_has he (hfits op.rhs (by simp [Arithmetic.args])) (hc op.rhs (by simp [Arithmetic.args]))
    rw [exact_arithmetic_iff he hfits hc rfl fun arg lane hl hr => by rw [Arithmetic.eval, hl, hr]]
    have hpick : (if out.ty.elem.word.signed then hostMulHi i64 i32 else hostMulHi u64 u32) =
        hostMulHi (host out.ty.elem) (narrow out.ty.elem) := by
      cases hel : out.ty.elem with
      | int kind => cases kind <;> rfl
      | uint kind => cases kind <;> rfl
      | bool => exact absurd hel he
    rw [hpick]
    exact agrees_mulHi he hx hy
  | max op =>
    obtain ⟨he, hfits⟩ := hty
    rw [exact_arithmetic_iff he hfits hc rfl fun arg lane hl hr => by rw [Arithmetic.eval, hl, hr], ite_self, agrees_ok]
    exact iff_of_true rfl trivial
  | min op =>
    obtain ⟨he, hfits⟩ := hty
    rw [exact_arithmetic_iff he hfits hc rfl fun arg lane hl hr => by rw [Arithmetic.eval, hl, hr], ite_self, agrees_ok]
    exact iff_of_true rfl trivial
  | dot op =>
    obtain ⟨he, -, size, -, hfits⟩ := hty
    have hspec (arg : Variable → Nat → Int) (lane : Nat) (hl : ∀ lane, arg op.lhs lane = number op.lhs)
        (hr : ∀ lane, arg op.rhs lane = number op.rhs) : Arithmetic.eval arg out.ty.elem.word lane (.dot op) =
          (Max.max op.lhs.ty.vectorSize op.rhs.ty.vectorSize : Nat) * (number op.lhs * number op.rhs) := by
      rw [Arithmetic.eval]
      simp only [hl, hr, List.map_const', List.sum_replicate, List.length_range, nsmul_eq_mul]
    rw [exact_arithmetic_iff he hfits hc rfl hspec, pick (fun t x y => t.check (x * y)) he, agrees_dot]
    rfl
  | abs op =>
    obtain ⟨he, hfits⟩ := hty
    rw [exact_unary_iff (hfits op.input (by simp [Arithmetic.args])) he (hc op.input (by simp [Arithmetic.args])) rfl
      fun arg lane hx => by rw [Arithmetic.eval, hx]]
    cases hsigned : out.ty.elem.word.signed with
    | true =>
      have hhas := number_has he (hfits op.input (by simp [Arithmetic.args])) (hc op.input (by simp [Arithmetic.args]))
      rw [if_pos rfl, ← host_of_signed hsigned, agrees_check, and_iff_left rfl, abs_has_iff hsigned hhas]
      exact (and_iff_right hsigned).symm
    | false => exact iff_of_false (fun ⟨_, hv, _⟩ => nomatch hv) fun h => nomatch hsigned.symm.trans h.1
  | neg op =>
    obtain ⟨he, hfits⟩ := hty
    rw [exact_unary_iff (hfits op.input (by simp [Arithmetic.args])) he (hc op.input (by simp [Arithmetic.args])) rfl
      fun arg lane hx => by rw [Arithmetic.eval, hx]]
    cases hsigned : out.ty.elem.word.signed with
    | true =>
      rw [if_pos rfl, ← host_of_signed hsigned, agrees_check, and_iff_left rfl]
      exact (and_iff_right hsigned).symm
    | false => exact iff_of_false (fun ⟨_, hv, _⟩ => nomatch hv) fun h => nomatch hsigned.symm.trans h.1
  | clamp op =>
    obtain ⟨he, hfits⟩ := hty
    have hinput := hfits op.input (by simp [Arithmetic.args])
    obtain ⟨hx, -, hxl⟩ := numeric hinput he (hc op.input (by simp [Arithmetic.args]))
    obtain ⟨hmin, hminhas, hminl⟩ := numeric (hfits op.minValue (by simp [Arithmetic.args])) he (hc op.minValue (by simp [Arithmetic.args]))
    obtain ⟨hmax, hmaxhas, hmaxl⟩ := numeric (hfits op.maxValue (by simp [Arithmetic.args])) he (hc op.maxValue (by simp [Arithmetic.args]))
    have hfold : evalClamp op = (do
        let v ← hostClamp (number op.input) (number op.minValue) (number op.maxValue)
        .ok (some (raw out.ty.elem v))) := by
      rw [evalClamp, hx, hmin, hmax]
      simp only [hinput.elem_eq]
      rw [castTo_raw _ _ _ he he, castTo_raw _ _ _ he he]
      cases hel : out.ty.elem with
      | bool => exact absurd hel he
      | _ =>
        rw [hel] at hminhas hmaxhas
        simp only [raw, ElemType.value]
        erw [Word.wrap_of_has hminhas, Word.wrap_of_has hmaxhas]
    have heval (env : Env) (lane : Nat) : Instruction.eval ⟨.arithmetic (.clamp op), out⟩ env lane = out.ty.elem.value
        (Max.max (number op.minValue) (Min.min (number op.maxValue) (number op.input))) := by
      show out.ty.elem.value (Arithmetic.eval _ _ _ _) = _
      rw [Arithmetic.eval, hxl, hminl, hmaxl]
    exact Iff.trans (exact_number_iff he he hfold heval) agrees_clamp

-- Comparisons

theorem evalCmp_eq {rel : Int → Int → Bool} (hl : lhs.Fits elem size) (hr : rhs.Fits elem' size)
    (hsame : comparable elem elem') (he : elem ≠ .bool) (hx : lhs.asConst.isSome) (hy : rhs.asConst.isSome) :
    evalCmp rel lhs rhs = .ok (some (.bool (rel (number lhs) (number rhs)))) := by
  have he' : elem' ≠ .bool := by
    rintro rfl
    cases elem with
    | int kind => cases kind <;> cases hsame
    | uint kind => cases kind <;> cases hsame
    | bool => exact he rfl
  obtain ⟨hlc, -, -⟩ := numeric hl he hx
  obtain ⟨hrc, -, -⟩ := numeric hr he' hy
  rw [evalCmp, hlc, hrc]
  cases elem with
  | bool => exact absurd rfl he
  | int kind =>
    cases elem' with
    | int kind' => rfl
    | uint kind' => cases kind <;> cases kind' <;> cases hsame
    | bool => exact absurd rfl he'
  | uint kind =>
    cases elem' with
    | int kind' => cases kind <;> cases kind' <;> cases hsame
    | uint kind' => rfl
    | bool => exact absurd rfl he'

theorem evalCmp_bool {rel : Int → Int → Bool} (hl : lhs.Fits .bool size) (hx : lhs.asConst.isSome)
    (hy : rhs.asConst.isSome) : evalCmp rel lhs rhs = .error .panic := by
  obtain ⟨x, hx⟩ := Option.isSome_iff_exists.mp hx
  obtain ⟨y, hy⟩ := Option.isSome_iff_exists.mp hy
  obtain ⟨b, rfl⟩ := eq_bool (Fits.has hl hx)
  rw [evalCmp, hx, hy]

theorem exact_cmp_iff {c : Comparison} {op : BinaryOperator} {rel : Int → Int → Bool} {elems : Variable → ElemType}
    (hout : out.ty.elem = .bool) (hfits : ∀ var ∈ [op.lhs, op.rhs], var.Fits (elems var) size)
    (hsame : ∀ var ∈ [op.lhs, op.rhs], ∀ var' ∈ [op.lhs, op.rhs], comparable (elems var) (elems var'))
    (hc : ∀ var ∈ [op.lhs, op.rhs], var.asConst.isSome) (h : tryConstEvalCmp c = evalCmp rel op.lhs op.rhs)
    (hspec : ∀ (arg : Variable → Nat → Int) lane, c.eval arg lane = rel (arg op.lhs lane) (arg op.rhs lane)) :
    Exact (constEval ⟨.comparison c, out⟩) ⟨.comparison c, out⟩ ↔ op.lhs.ty.elem ≠ .bool := by
  have hl := hfits op.lhs (by simp)
  have hr := hfits op.rhs (by simp)
  have hlc := hc op.lhs (by simp)
  have hrc := hc op.rhs (by simp)
  have hcomp := hsame op.lhs (by simp) op.rhs (by simp)
  rw [hl.elem_eq]
  by_cases he : elems op.lhs = .bool
  · rw [he] at hl
    exact iff_of_false (not_exact_panic (h.trans (evalCmp_bool hl hlc hrc))) (not_not.mpr he)
  · have he' : elems op.rhs ≠ .bool := by
      intro hb
      have hback := hsame op.rhs (by simp) op.lhs (by simp)
      rw [hb] at hback
      revert hback he
      cases elems op.lhs with
      | bool => exact fun he _ => he rfl
      | _ => exact fun _ hback => nomatch hback
    obtain ⟨-, -, hxl⟩ := numeric hl he hlc
    obtain ⟨-, -, hyl⟩ := numeric hr he' hrc
    have heval (env : Env) (lane : Nat) : Instruction.eval ⟨.comparison c, out⟩ env lane =
        .bool (rel (number op.lhs) (number op.rhs)) := by
      show ConstantValue.bool (Comparison.eval _ _ _) = _
      rw [hspec, hxl, hyl]
    have hfold : tryConstEval ⟨.comparison c, out⟩ = _ := h.trans (evalCmp_eq hl hr hcomp he hlc hrc)
    refine iff_of_true ((exact_const_iff hfold heval).mpr ?_) he
    show ConstantValue.castTo _ out.ty.elem = _
    rw [hout]
    rfl

theorem comparison_exact_iff {c : Comparison} (hty : Operation.Typed out.ty (.comparison c))
    (hc : ∀ var ∈ c.args, var.asConst.isSome) :
    Exact (constEval ⟨.comparison c, out⟩) ⟨.comparison c, out⟩ ↔ ComparisonFolds c := by
  obtain ⟨hout, elems, hfits, hsame⟩ := hty
  -- neither test is true of an integer or a boolean
  have htest (op : UnaryOperator) (hi : op.input.asConst.isSome)
      (h : tryConstEval ⟨.comparison c, out⟩ = .ok (op.input.asConst.map fun _ => .bool false))
      (heval : ∀ arg lane, c.eval arg lane = false) : Exact (constEval ⟨.comparison c, out⟩) ⟨.comparison c, out⟩ := by
    obtain ⟨value, hvalue⟩ := Option.isSome_iff_exists.mp hi
    rw [hvalue] at h
    refine (exact_const_iff h fun env lane => congrArg ConstantValue.bool (heval _ lane)).mpr ?_
    show ConstantValue.castTo _ out.ty.elem = _
    rw [hout]
    rfl
  cases c with
  | isNan op => exact iff_of_true (htest op (hc op.input (by simp [Comparison.args])) rfl fun _ _ => rfl) trivial
  | isInf op => exact iff_of_true (htest op (hc op.input (by simp [Comparison.args])) rfl fun _ _ => rfl) trivial
  | lower op => exact exact_cmp_iff hout hfits hsame hc rfl fun _ _ => rfl
  | lowerEqual op => exact exact_cmp_iff hout hfits hsame hc rfl fun _ _ => rfl
  | equal op => exact exact_cmp_iff hout hfits hsame hc rfl fun _ _ => rfl
  | notEqual op => exact exact_cmp_iff hout hfits hsame hc rfl fun _ _ => rfl
  | greaterEqual op => exact exact_cmp_iff hout hfits hsame hc rfl fun _ _ => rfl
  | greater op => exact exact_cmp_iff hout hfits hsame hc rfl fun _ _ => rfl

-- Bits

theorem eval_bitwise {b : Bitwise} {env : Env} {lane : Nat} (he : out.ty.elem ≠ .bool) :
    Instruction.eval ⟨.bitwise b, out⟩ env lane =
      out.ty.elem.value (b.eval (fun var i => (var.lane env i).toInt) b.elem.word lane) := by
  rw [Instruction.eval, Operation.eval]
  exact he

theorem exact_pair_iff {b : Bitwise} {op : BinaryOperator} {f : Int → Int → Int}
    (hfits : ∀ var ∈ [op.lhs, op.rhs], var.Fits out.ty.elem size) (hc : ∀ var ∈ [op.lhs, op.rhs], var.asConst.isSome)
    (h : tryConstEvalBitwise b = evalBoth (fun x y => .ok (f x y)) (fun x y => .ok (f x y)) op.lhs op.rhs)
    (hspec : ∀ (arg : Variable → Nat → Int) w lane, b.eval arg w lane = f (arg op.lhs lane) (arg op.rhs lane)) :
    Exact (constEval ⟨.bitwise b, out⟩) ⟨.bitwise b, out⟩ ↔ op.lhs.ty.elem ≠ .bool := by
  have hl := hfits op.lhs (by simp)
  have hr := hfits op.rhs (by simp)
  have hlc := hc op.lhs (by simp)
  have hrc := hc op.rhs (by simp)
  rw [hl.elem_eq]
  by_cases he : out.ty.elem = .bool
  · rw [he] at hl
    exact iff_of_false (not_exact_panic (h.trans (evalBoth_bool hl hlc hrc))) (not_not.mpr he)
  · obtain ⟨-, -, hxl⟩ := numeric hl he hlc
    obtain ⟨-, hy, hyl⟩ := numeric hr he hrc
    have heval (env : Env) (lane : Nat) : Instruction.eval ⟨.bitwise b, out⟩ env lane =
        out.ty.elem.value (f (number op.lhs) (number op.rhs)) := by
      rw [eval_bitwise he, hspec, hxl, hyl]
    refine Iff.trans (exact_evalBoth_iff hl hr he he hlc hrc h heval) (iff_of_true ?_ he)
    rw [Word.wrap_of_has hy, ite_self, agrees_ok]

theorem bitwise_exact_iff {b : Bitwise} (hty : Operation.Typed out.ty (.bitwise b))
    (hc : ∀ var ∈ b.args, var.asConst.isSome) :
    Exact (constEval ⟨.bitwise b, out⟩) ⟨.bitwise b, out⟩ ↔ BitwiseFolds b := by
  cases b with
  | bitwiseAnd op => exact exact_pair_iff hty hc rfl fun _ _ _ => rfl
  | bitwiseOr op => exact exact_pair_iff hty hc rfl fun _ _ _ => rfl
  | bitwiseXor op => exact exact_pair_iff hty hc rfl fun _ _ _ => rfl
  | bitwiseNot op =>
    have hfits := hty op.input (by simp [Bitwise.args])
    have hi := hc op.input (by simp [Bitwise.args])
    show _ ↔ op.input.ty.elem ≠ .bool
    rw [hfits.elem_eq]
    by_cases he : out.ty.elem = .bool
    · rw [he] at hfits
      have hpanic : tryConstEval ⟨.bitwise (.bitwiseNot op), out⟩ = .error .panic := evalOne_bool hfits hi
      exact iff_of_false (not_exact_panic hpanic) (not_not.mpr he)
    · obtain ⟨-, -, hxl⟩ := numeric hfits he hi
      have heval (env : Env) (lane : Nat) : Instruction.eval ⟨.bitwise (.bitwiseNot op), out⟩ env lane =
          out.ty.elem.value (-number op.input - 1) := by
        rw [eval_bitwise he, Bitwise.eval, hxl]
      refine Iff.trans (exact_evalOne_iff hfits he he hi rfl heval) (iff_of_true ?_ he)
      split
      · rw [agrees_ok]
      · rw [agrees_ok]
        exact Word.wrap_wrap (bits_le out.ty.elem)
  | shiftLeft op =>
    obtain ⟨he, hl, elem, he', hr⟩ := hty
    have hlc := hc op.lhs (by simp [Bitwise.args])
    have hrc := hc op.rhs (by simp [Bitwise.args])
    obtain ⟨-, -, hxl⟩ := numeric hl he hlc
    obtain ⟨-, -, hyl⟩ := numeric hr he' hrc
    have heval (env : Env) (lane : Nat) : Instruction.eval ⟨.bitwise (.shiftLeft op), out⟩ env lane =
        out.ty.elem.value (out.ty.elem.word.shiftLeft (number op.lhs) (number op.rhs)) := by
      rw [eval_bitwise he, Bitwise.eval, hxl, hyl, Bitwise.elem, hl.elem_eq]
    refine Iff.trans (exact_evalBoth_iff hl hr he he' hlc hrc rfl heval) ?_
    rw [pick_host hostShiftLeft he, agrees_shiftLeft (bits_le_host _), host_bits]
    rw [BitwiseFolds, castCount, hl.elem_eq]
    rfl
  | shiftRight op =>
    obtain ⟨he, hl, elem, he', hr⟩ := hty
    have hlc := hc op.lhs (by simp [Bitwise.args])
    have hrc := hc op.rhs (by simp [Bitwise.args])
    obtain ⟨-, hx, hxl⟩ := numeric hl he hlc
    obtain ⟨-, -, hyl⟩ := numeric hr he' hrc
    have heval (env : Env) (lane : Nat) : Instruction.eval ⟨.bitwise (.shiftRight op), out⟩ env lane =
        out.ty.elem.value (out.ty.elem.word.shiftRight (number op.lhs) (number op.rhs)) := by
      rw [eval_bitwise he, Bitwise.eval, hxl, hyl, Bitwise.elem, hl.elem_eq]
    refine Iff.trans (exact_evalBoth_iff hl hr he he' hlc hrc rfl heval) ?_
    rw [pick_host hostShiftRight he, agrees_shiftRight hx, host_bits]
    rw [BitwiseFolds, castCount, hl.elem_eq]
    rfl
  | countOnes op =>
    obtain ⟨hout, elem, he, hfits⟩ := hty
    have hi := hc op.input (by simp [Bitwise.args])
    obtain ⟨-, hx, hxl⟩ := numeric hfits he hi
    have hnum : out.ty.elem ≠ .bool := by
      rw [hout]
      decide
    have heval (env : Env) (lane : Nat) : Instruction.eval ⟨.bitwise (.countOnes op), out⟩ env lane =
        out.ty.elem.value (Word.popCount elem.word.bits (number op.input)) := by
      rw [eval_bitwise hnum, Bitwise.eval, hxl, Bitwise.elem, hfits.elem_eq]
    refine Iff.trans (exact_evalOne_iff hfits he hnum hi rfl heval) ?_
    rw [BitwiseFolds, ite_self, hout, hfits.elem_eq]
    exact agrees_countOnes hx
  | reverseBits op =>
    obtain ⟨he, hfits⟩ := hty
    have hi := hc op.input (by simp [Bitwise.args])
    obtain ⟨-, hx, hxl⟩ := numeric hfits he hi
    have heval (env : Env) (lane : Nat) : Instruction.eval ⟨.bitwise (.reverseBits op), out⟩ env lane =
        out.ty.elem.value (Word.reverseBits out.ty.elem.word.bits (number op.input)) := by
      rw [eval_bitwise he, Bitwise.eval, hxl, Bitwise.elem, hfits.elem_eq]
    refine Iff.trans (exact_evalOne_iff hfits he he hi rfl heval) ?_
    rw [BitwiseFolds, hfits.elem_eq, ← reverseBits_iff he hx]
    split
    · rw [agrees_ok, Word.wrap_wrap (bits_le out.ty.elem)]
    · rw [agrees_ok]

-- Operators and the pass

theorem exact_bool_iff {o : Operator} {op : BinaryOperator} {f : Bool → Bool → Bool} (hout : out.ty.elem = .bool)
    (hfits : ∀ var ∈ [op.lhs, op.rhs], var.Fits .bool size) (hc : ∀ var ∈ [op.lhs, op.rhs], var.asConst.isSome)
    (h : tryConstEvalOperator out.ty o = evalBool f op.lhs op.rhs)
    (hspec : ∀ env lane, Instruction.eval ⟨.operator o, out⟩ env lane =
      .bool (f (op.lhs.lane env lane).asBool (op.rhs.lane env lane).asBool)) :
    Exact (constEval ⟨.operator o, out⟩) ⟨.operator o, out⟩ := by
  obtain ⟨x, hx⟩ := Option.isSome_iff_exists.mp (hc op.lhs (by simp))
  obtain ⟨y, hy⟩ := Option.isSome_iff_exists.mp (hc op.rhs (by simp))
  obtain ⟨b, rfl⟩ := eq_bool (Fits.has (hfits op.lhs (by simp)) hx)
  obtain ⟨b', rfl⟩ := eq_bool (Fits.has (hfits op.rhs (by simp)) hy)
  rw [evalBool, hx, hy] at h
  have hfold : tryConstEval ⟨.operator o, out⟩ = _ := h
  have heval (env : Env) (lane : Nat) : Instruction.eval ⟨.operator o, out⟩ env lane = .bool (f b b') := by
    rw [hspec, lane_of_asConst hx, lane_of_asConst hy]
    rfl
  refine (exact_const_iff hfold heval).mpr ?_
  show ConstantValue.castTo _ out.ty.elem = _
  rw [hout]
  rfl

theorem operator_exact {o : Operator} (hty : Operation.Typed out.ty (.operator o)) (hc : ∀ var ∈ o.args, var.asConst.isSome) :
    Exact (constEval ⟨.operator o, out⟩) ⟨.operator o, out⟩ := by
  cases o with
  | and op => exact exact_bool_iff hty.1 hty.2 hc rfl fun _ _ => rfl
  | or op => exact exact_bool_iff hty.1 hty.2 hc rfl fun _ _ => rfl
  | not op =>
    obtain ⟨x, hx⟩ := Option.isSome_iff_exists.mp (hc op.input (by simp [Operator.args]))
    obtain ⟨b, rfl⟩ := eq_bool (Fits.has hty.2 hx)
    have hfold : tryConstEval ⟨.operator (.not op), out⟩ = .ok (some (.bool (!b))) := by
      simp [tryConstEval, tryConstEvalOperator, hx]
    have heval (env : Env) (lane : Nat) : Instruction.eval ⟨.operator (.not op), out⟩ env lane = .bool (!b) := by
      show ConstantValue.bool (!(op.input.lane env lane).asBool) = _
      rw [lane_of_asConst hx]
      rfl
    refine (exact_const_iff hfold heval).mpr ?_
    show ConstantValue.castTo _ out.ty.elem = _
    rw [hty.1]
    rfl
  | cast op =>
    obtain ⟨elem, hfits⟩ := hty
    obtain ⟨x, hx⟩ := Option.isSome_iff_exists.mp (hc op.input (by simp [Operator.args]))
    have hfold : tryConstEval ⟨.operator (.cast op), out⟩ = .ok (some (x.castTo out.ty.elem)) := by
      simp [tryConstEval, tryConstEvalOperator, hx]
    have heval (env : Env) (lane : Nat) : Instruction.eval ⟨.operator (.cast op), out⟩ env lane =
        out.ty.elem.value x.toInt := by
      show out.ty.elem.value (op.input.lane env lane).toInt = _
      rw [lane_of_asConst hx]
    refine (exact_const_iff hfold heval).mpr ?_
    show (x.castTo out.ty.elem).castTo out.ty.elem = _
    rw [castTo_eq_value (Fits.has hfits hx), value_castTo]
  | select op => exact exact_self rfl

/-- Folding an instruction with constant operands does not panic and gives what the instruction
computes, exactly under `Folds`. -/
theorem constEval_exact_iff {inst : Instruction} (hty : inst.Typed) (hc : ∀ var ∈ inst.operation.args, var.asConst.isSome) :
    Exact (constEval inst) inst ↔ Folds inst := by
  obtain ⟨operation, out⟩ := inst
  cases operation with
  | copy var => exact iff_of_true (exact_self rfl) trivial
  | arithmetic a => exact arithmetic_exact_iff hty hc
  | comparison c => exact comparison_exact_iff hty hc
  | bitwise b => exact bitwise_exact_iff hty hc
  | operator o => exact iff_of_true (operator_exact hty hc) trivial

/-- `1` with the bits of an octet in reverse. -/
def reversedOne : Instruction := ⟨.bitwise (.reverseBits ⟨.const (.uint 1) (.scalar (.uint .u8))⟩), ⟨.localConst 0, .scalar (.uint .u8)⟩⟩

theorem reversedOne_typed : reversedOne.Typed := by
  refine ⟨by decide, rfl, .inl rfl, ?_⟩
  rintro value hv
  cases hv
  exact show (UIntKind.u8.word).Has _ by decide

/-- Folded it is zero, and not 128. -/
theorem reversed_one_lost : reversedOne.Typed ∧ (∀ var ∈ reversedOne.operation.args, var.asConst.isSome) ∧
    (constEval reversedOne).map (fun inst => inst.eval (fun var _ => var.ty.elem.value 0) 0) = .ok (.uint 0) ∧
    reversedOne.eval (fun var _ => var.ty.elem.value 0) 0 = .uint 128 ∧ ¬Exact (constEval reversedOne) reversedOne := by
  refine ⟨reversedOne_typed, by decide, by decide +kernel, by decide +kernel, ?_⟩
  rintro ⟨inst', hr, -, heval⟩
  have hsame := heval _ env_typed_zero 0
  have hfolded : (constEval reversedOne).map (fun inst => inst.eval (fun var _ => var.ty.elem.value 0) 0) = .ok (.uint 0) := by
    decide +kernel
  rw [hr] at hfolded
  have hzero := Except.ok.inj hfolded
  have hone : reversedOne.eval (fun var _ => var.ty.elem.value 0) 0 = .uint 128 := by decide +kernel
  have := hzero.symm.trans (hsame.trans hone)
  cases this

/-- `constEval_exact_iff`, on three times four. -/
theorem constEval_exact_iff_product :
    let inst : Instruction := ⟨.arithmetic (.mul ⟨.const (.uint 3) (.scalar (.uint .u32)), .const (.uint 4) (.scalar (.uint .u32))⟩),
      ⟨.localConst 0, .scalar (.uint .u32)⟩⟩
    Exact (constEval inst) inst ↔ Folds inst := by
  refine constEval_exact_iff ⟨by decide, ?_⟩ (by decide)
  rintro var hv
  simp only [Arithmetic.args, List.mem_cons, List.not_mem_nil, or_false] at hv
  rcases hv with rfl | rfl
  all_goals
    refine ⟨rfl, .inl rfl, ?_⟩
    rintro value hv
    cases hv
    exact show (UIntKind.u32.word).Has _ by decide

end Ruda.Passes
