import Ruda.Pytorch.Pickle

/-!
# Skipping a pickle

A translation of `skip_pickle`, which knows of every opcode only how many bytes follow it,
and its agreement with the reader.
-/

namespace Ruda.Pytorch

def skipLine (r : Bytes) : Bytes := (readUntil 10 r).2

/-- Read in pieces into one buffer. -/
def skipLengthPrefixed (length : Nat) (r : Bytes) : Res PickleError Bytes := do
  let data ← readExact length r
  pure data.2

/-- The operand of an opcode. -/
def skipOperand (byte : UInt8) (r : Bytes) : Res PickleError Bytes :=
  if byte ∈ [0x63, 0x69] then .ok (skipLine (skipLine r))
  else if byte ∈ [0x53, 0x46, 0x49, 0x4c, 0x50] then .ok (skipLine r)
  else if byte ∈ [0x43, 0x55, 0x8c] then do
    let length ← readU8 r
    skipLengthPrefixed length.1.toNat length.2
  else if byte ∈ [0x42, 0x54, 0x58, 0x56] then do
    let length ← readLe 4 r
    skipLengthPrefixed length.1 length.2
  else if byte ∈ [0x8d, 0x8e] then do
    let length ← readLe 8 r
    skipLengthPrefixed length.1 length.2
  else if byte = 0x4b then skipLengthPrefixed 1 r
  else if byte = 0x4d then skipLengthPrefixed 2 r
  else if byte = 0x4a then skipLengthPrefixed 4 r
  else if byte = 0x47 then skipLengthPrefixed 8 r
  else if byte = 0x8a then do
    let length ← readU8 r
    skipLengthPrefixed length.1.toNat length.2
  else if byte = 0x8b then do
    let length ← readLe 4 r
    skipLengthPrefixed length.1 length.2
  else if byte ∈ [0x71, 0x68] then skipLengthPrefixed 1 r
  else if byte ∈ [0x72, 0x6a] then skipLengthPrefixed 4 r
  else if byte ∈ [0x67, 0x70] then .ok (skipLine r)
  else if byte = 0x82 then skipLengthPrefixed 1 r
  else if byte = 0x83 then skipLengthPrefixed 2 r
  else if byte = 0x84 then skipLengthPrefixed 4 r
  else if byte = 0x95 then skipLengthPrefixed 8 r
  else .ok r

def skipLoop : Nat → Bytes → Res PickleError Bytes
  | 0, _ => .error (.err .io)
  | n + 1, r => do
    let byte ← readU8 r
    if byte.1 = 0x2e then .ok byte.2
    else do
      let r ← skipOperand byte.1 byte.2
      skipLoop n r

/-- A first byte that is not the marker of the protocol is the first opcode of the loop. -/
def skipPickle (r : Bytes) : Res PickleError Bytes := do
  let first ← readU8 r
  if first.1 = 0x80 then do
    let version ← readU8 first.2
    skipLoop version.2.length version.2
  else skipLoop r.length r

-- Agreement

/-- The byte of an opcode. -/
def OpCode.byte : OpCode → UInt8
  | proto => 0x80
  | global => 0x63
  | binPut => 0x71
  | longBinPut => 0x72
  | emptyTuple => 0x29
  | reduce => 0x52
  | mark => 0x28
  | binUnicode => 0x58
  | shortBinString => 0x55
  | binInt => 0x4a
  | int => 0x49
  | tuple => 0x74
  | binPersId => 0x51
  | binInt1 => 0x4b
  | binInt2 => 0x4d
  | none => 0x4e
  | tuple1 => 0x85
  | tuple2 => 0x86
  | tuple3 => 0x87
  | newTrue => 0x88
  | newFalse => 0x89
  | binGet => 0x68
  | longBinGet => 0x6a
  | setItem => 0x73
  | setItems => 0x75
  | emptyDict => 0x7d
  | dict => 0x64
  | build => 0x62
  | stop => 0x2e
  | newObj => 0x81
  | emptyList => 0x5d
  | list => 0x6c
  | binFloat => 0x47
  | append => 0x61
  | appends => 0x65
  | long1 => 0x8a
  | memoize => 0x94

theorem tryFrom_byte {b : UInt8} {op : OpCode} (h : OpCode.tryFrom b = some op) : b = op.byte := by
  unfold OpCode.tryFrom at h
  split at h <;> cases h <;> rfl

variable {τ : Type} {rebuild : Rebuild τ} {s s' : Stack τ} {r r' : Bytes}

theorem skipLengthPrefixed_of {n : Nat} {data : Bytes × Bytes} (h : readExact n r = .ok data) :
    skipLengthPrefixed n r = .ok data.2 := by
  rw [skipLengthPrefixed, h]
  rfl

theorem readLe_rest {n : Nat} {v : Nat × Bytes} (h : readLe n r = .ok v) : skipLengthPrefixed n r = .ok v.2 := by
  obtain ⟨data, hdata, hv⟩ := bind_eq_ok.mp h
  obtain rfl := Except.ok.inj hv
  exact skipLengthPrefixed_of hdata

theorem readU8_rest {v : UInt8 × Bytes} (h : readU8 r = .ok v) : skipLengthPrefixed 1 r = .ok v.2 := by
  cases r with
  | nil => exact nomatch h
  | cons b r =>
    obtain rfl := Except.ok.inj h
    rfl

theorem readString_rest {n : Nat} (h : readString n r s = .ok (s', r')) : skipLengthPrefixed n r = .ok r' := by
  obtain ⟨data, hdata, h⟩ := bind_eq_ok.mp h
  obtain ⟨text, -, h⟩ := bind_eq_ok.mp h
  obtain ⟨-, rfl⟩ := Prod.mk.inj (Except.ok.inj h)
  exact skipLengthPrefixed_of hdata

theorem act_rest {op : OpCode} (h : (act rebuild op s >>= fun s => (pure (s, r) : Res PickleError _)) = .ok (s', r')) :
    r = r' := by
  obtain ⟨s₁, -, h⟩ := bind_eq_ok.mp h
  exact (Prod.mk.inj (Except.ok.inj h)).2

theorem skipOperand_step {op : OpCode} (hproto : op ≠ .proto) (h : step rebuild op r s = .ok (s', r')) :
    skipOperand op.byte r = .ok r' := by
  cases op with
  | proto => exact absurd rfl hproto
  | global =>
    obtain ⟨moduleName, -, h⟩ := bind_eq_ok.mp h
    obtain ⟨name, -, h⟩ := bind_eq_ok.mp h
    obtain ⟨-, rfl⟩ := Prod.mk.inj (Except.ok.inj h)
    rfl
  | binInt =>
    obtain ⟨v, hv, h⟩ := bind_eq_ok.mp h
    obtain ⟨-, rfl⟩ := Prod.mk.inj (Except.ok.inj h)
    exact readLe_rest hv
  | int =>
    obtain ⟨text, -, h⟩ := bind_eq_ok.mp h
    obtain ⟨n, -, h⟩ := bind_eq_ok.mp h
    obtain ⟨-, rfl⟩ := Prod.mk.inj (Except.ok.inj h)
    rfl
  | binInt1 =>
    obtain ⟨v, hv, h⟩ := bind_eq_ok.mp h
    obtain ⟨-, rfl⟩ := Prod.mk.inj (Except.ok.inj h)
    exact readU8_rest hv
  | binInt2 =>
    obtain ⟨v, hv, h⟩ := bind_eq_ok.mp h
    obtain ⟨-, rfl⟩ := Prod.mk.inj (Except.ok.inj h)
    exact readLe_rest hv
  | binFloat =>
    obtain ⟨data, hdata, h⟩ := bind_eq_ok.mp h
    obtain ⟨-, rfl⟩ := Prod.mk.inj (Except.ok.inj h)
    exact skipLengthPrefixed_of hdata
  | binUnicode =>
    obtain ⟨len, hlen, h⟩ := bind_eq_ok.mp h
    exact bind_eq_ok.mpr ⟨len, hlen, readString_rest h⟩
  | shortBinString =>
    obtain ⟨len, hlen, h⟩ := bind_eq_ok.mp h
    exact bind_eq_ok.mpr ⟨len, hlen, readString_rest h⟩
  | long1 =>
    obtain ⟨len, hlen, h⟩ := bind_eq_ok.mp h
    obtain ⟨data, hdata, h⟩ := bind_eq_ok.mp h
    obtain ⟨-, rfl⟩ := Prod.mk.inj (Except.ok.inj h)
    exact bind_eq_ok.mpr ⟨len, hlen, skipLengthPrefixed_of hdata⟩
  | binPut =>
    obtain ⟨index, hindex, h⟩ := bind_eq_ok.mp h
    obtain ⟨s₁, -, h⟩ := bind_eq_ok.mp h
    obtain ⟨-, rfl⟩ := Prod.mk.inj (Except.ok.inj h)
    exact readU8_rest hindex
  | longBinPut =>
    obtain ⟨index, hindex, h⟩ := bind_eq_ok.mp h
    obtain ⟨s₁, -, h⟩ := bind_eq_ok.mp h
    obtain ⟨-, rfl⟩ := Prod.mk.inj (Except.ok.inj h)
    exact readLe_rest hindex
  | binGet =>
    obtain ⟨index, hindex, h⟩ := bind_eq_ok.mp h
    obtain ⟨o, -, h⟩ := bind_eq_ok.mp h
    obtain ⟨-, rfl⟩ := Prod.mk.inj (Except.ok.inj h)
    exact readU8_rest hindex
  | longBinGet =>
    obtain ⟨index, hindex, h⟩ := bind_eq_ok.mp h
    obtain ⟨o, -, h⟩ := bind_eq_ok.mp h
    obtain ⟨-, rfl⟩ := Prod.mk.inj (Except.ok.inj h)
    exact readLe_rest hindex
  | emptyTuple | reduce | mark | tuple | binPersId | tuple1 | tuple2 | tuple3 | newTrue | newFalse | none | setItem
  | setItems | emptyDict | dict | build | stop | newObj | emptyList | list | append | appends | memoize =>
    obtain rfl := act_rest h
    rfl

theorem step_proto (h : step rebuild .proto r s = .ok (s', r')) : ∃ version, version ≤ 5 ∧ r = version :: r' := by
  obtain ⟨version, hversion, h⟩ := bind_eq_ok.mp h
  obtain ⟨_, hle, h⟩ := bind_eq_ok.mp h
  obtain ⟨-, rfl⟩ := Prod.mk.inj (Except.ok.inj h)
  cases r with
  | nil => exact nomatch hversion
  | cons b r =>
    obtain rfl := Except.ok.inj hversion
    exact ⟨b, UInt8.not_lt.mp (failIf_ok.mp hle), rfl⟩

theorem skipOperand_version {version : UInt8} (h : version ≤ 5) (r : Bytes) :
    skipOperand version r = .ok r ∧ version ≠ 0x2e := by
  have hcases : version = 0 ∨ version = 1 ∨ version = 2 ∨ version = 3 ∨ version = 4 ∨ version = 5 := by
    have hle : version.toNat ≤ 5 := h
    simp only [← UInt8.toNat_inj]
    simp
    omega
  rcases hcases with rfl | rfl | rfl | rfl | rfl | rfl <;> exact ⟨rfl, by decide⟩

theorem readU8_ok {v : UInt8 × Bytes} (h : readU8 r = .ok v) : r = v.1 :: v.2 := by
  cases r with
  | nil => exact nomatch h
  | cons b r =>
    obtain rfl := Except.ok.inj h
    rfl

theorem length_readExact {n : Nat} {data : Bytes × Bytes} (h : readExact n r = .ok data) : data.2.length ≤ r.length := by
  unfold readExact at h
  split at h
  · obtain rfl := Except.ok.inj h
    rw [List.length_drop]
    exact Nat.sub_le _ _
  · exact nomatch h

theorem length_readLe {n : Nat} {v : Nat × Bytes} (h : readLe n r = .ok v) : v.2.length ≤ r.length := by
  obtain ⟨data, hdata, hv⟩ := bind_eq_ok.mp h
  obtain rfl := Except.ok.inj hv
  exact length_readExact hdata

theorem length_skipLengthPrefixed {n : Nat} (h : skipLengthPrefixed n r = .ok r') : r'.length ≤ r.length := by
  obtain ⟨data, hdata, hr⟩ := bind_eq_ok.mp h
  obtain rfl := Except.ok.inj hr
  exact length_readExact hdata

theorem length_readUntil (delimiter : UInt8) (r : Bytes) : (readUntil delimiter r).2.length ≤ r.length := by
  induction r with
  | nil => exact le_rfl
  | cons b r ih =>
    rw [readUntil]
    split
    · exact Nat.le_succ _
    · exact ih.trans (Nat.le_succ _)

theorem length_step {op : OpCode} (h : step rebuild op r s = .ok (s', r')) : r'.length ≤ r.length := by
  cases op with
  | proto =>
    obtain ⟨version, -, rfl⟩ := step_proto h
    exact Nat.le_succ _
  | global =>
    have hskip := Except.ok.inj (skipOperand_step (by decide) h)
    rw [← hskip]
    exact (length_readUntil 10 _).trans (length_readUntil 10 _)
  | int =>
    have hskip := Except.ok.inj (skipOperand_step (by decide) h)
    rw [← hskip]
    exact length_readUntil 10 _
  | binUnicode =>
    obtain ⟨len, hlen, hskip⟩ := bind_eq_ok.mp (skipOperand_step (by decide) h)
    exact (length_skipLengthPrefixed hskip).trans (length_readLe hlen)
  | shortBinString | long1 =>
    obtain ⟨len, hlen, hskip⟩ := bind_eq_ok.mp (skipOperand_step (by decide) h)
    exact (length_skipLengthPrefixed hskip).trans (length_skipLengthPrefixed (readU8_rest hlen))
  | binInt | binInt1 | binInt2 | binFloat | binPut | longBinPut | binGet | longBinGet =>
    exact length_skipLengthPrefixed (skipOperand_step (by decide) h)
  | emptyTuple | reduce | mark | tuple | binPersId | tuple1 | tuple2 | tuple3 | newTrue | newFalse | none | setItem
  | setItems | emptyDict | dict | build | stop | newObj | emptyList | list | append | appends | memoize =>
    rw [act_rest h]

theorem byte_ne_stop {op : OpCode} (h : op ≠ .stop) : op.byte ≠ 0x2e := by
  cases op with
  | stop => exact absurd rfl h
  | _ => decide

theorem skipLoop_cons {m : Nat} {byte : UInt8} (hbyte : byte ≠ 0x2e) (hskip : skipOperand byte r = .ok r') :
    skipLoop (m + 1) (byte :: r) = skipLoop m r' := by
  rw [skipLoop, readU8, ok_bind, if_neg hbyte, hskip, ok_bind]

theorem skipLoop_of_readLoop {n : Nat} {o : Object τ} (h : readLoop rebuild n r s = .ok (o, r')) {m : Nat}
    (hm : r.length ≤ m) : skipLoop m r = .ok r' := by
  induction n generalizing r s m with
  | zero => exact nomatch h
  | succ n ih =>
    obtain ⟨⟨byte, rest⟩, hcode, h⟩ := bind_eq_ok.mp h
    obtain ⟨op, hop, h⟩ := bind_eq_ok.mp h
    have hr : r = byte :: rest := readU8_ok hcode
    have hbyte : byte = op.byte := tryFrom_byte (okOr_ok.mp hop)
    rw [hr, List.length_cons] at hm
    obtain ⟨m, rfl⟩ : ∃ k, m = k + 1 := ⟨m - 1, by omega⟩
    have hlen : rest.length ≤ m := Nat.le_of_succ_le_succ hm
    rw [hr]
    by_cases hstop : op = .stop
    · rw [if_pos hstop] at h
      obtain ⟨o', -, h⟩ := bind_eq_ok.mp h
      obtain ⟨-, rfl⟩ := Prod.mk.inj (Except.ok.inj h)
      rw [skipLoop, readU8, ok_bind, if_pos (by rw [hbyte, hstop]; rfl)]
    · rw [if_neg hstop] at h
      obtain ⟨⟨s₁, r₁⟩, hstep, h⟩ := bind_eq_ok.mp h
      have hlen₁ := length_step hstep
      by_cases hproto : op = .proto
      · -- The marker is an opcode of its own here, and so is its version.
        rw [hproto] at hstep hbyte
        obtain ⟨version, hversion, hrest⟩ : ∃ version, version ≤ 5 ∧ rest = version :: r₁ := step_proto hstep
        obtain ⟨hskip, hne⟩ := skipOperand_version hversion r₁
        rw [hrest, List.length_cons] at hlen
        obtain ⟨m, rfl⟩ : ∃ k, m = k + 1 := ⟨m - 1, by omega⟩
        have hmarker : skipOperand OpCode.proto.byte (version :: r₁) = .ok (version :: r₁) := rfl
        rw [hbyte, hrest, skipLoop_cons (by decide) hmarker, skipLoop_cons hne hskip]
        exact ih h (Nat.le_of_succ_le_succ hlen)
      · rw [hbyte, skipLoop_cons (byte_ne_stop hstop) (skipOperand_step hproto hstep)]
        exact ih h (hlen₁.trans hlen)

/-- Where the reader returns an object, the skipper ends at the same byte. -/
theorem skipPickle_of_readPickle {τ : Type} (rebuild : Rebuild τ) {r rest : Bytes} {o : Object τ}
    (h : readPickle rebuild r = .ok (o, rest)) : skipPickle r = .ok rest := by
  cases r with
  | nil => exact nomatch h
  | cons byte r =>
    rw [skipPickle, readU8, ok_bind]
    by_cases hproto : byte = 0x80
    · subst hproto
      obtain ⟨⟨s₁, r₁⟩, hstep, h⟩ := bind_eq_ok.mp (show (step rebuild .proto r Stack.new >>= fun next =>
        readLoop rebuild r.length next.2 next.1) = .ok (o, rest) from h)
      obtain ⟨version, -, rfl⟩ := step_proto hstep
      rw [if_pos rfl, readU8, ok_bind]
      exact skipLoop_of_readLoop h le_rfl
    · rw [if_neg hproto]
      exact skipLoop_of_readLoop h le_rfl

/-- A string with a stop byte in it, a protocol marker in the middle and a byte left over. -/
theorem skipPickle_string : skipPickle [0x80, 2, 0x55, 2, 0x2e, 0x2e, 0x80, 3, 0x2e, 7] = .ok [7] :=
  @skipPickle_of_readPickle Empty (fun _ _ => .error .panic) _ _ (.string "..")
    (show readPickle _ _ = .ok (.string "..", [7]) from by
      have hutf8 : String.fromUTF8? ⟨#[0x2e, 0x2e]⟩ = some ".." := by decide +kernel
      simp [readPickle, readLoop, readU8, OpCode.tryFrom, step, failIf, readString, readExact, bufToStr, hutf8, okOr,
        Stack.push, Stack.pop, Stack.new])

end Ruda.Pytorch
