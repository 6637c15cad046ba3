import Ruda.Gguf.Layout

/-!
# The reader reads what stands there

Values and entries are read exactly where they stand, and a value panics exactly where it
overruns the room for nested calls or the capacity of a vector.
-/

namespace Ruda.Gguf.Reader

variable {r r' : Reader} {n ty stop : Nat}

theorem noPanic_bytes : NoPanic (r.bytes n) := by
  unfold bytes
  split
  · exact noPanic_ok _
  · exact noPanic_err _

theorem noPanic_word : NoPanic (r.word n) := noPanic_bytes.bind fun _ _ => noPanic_ok _

theorem noPanic_count {least : Nat} : NoPanic (r.count n least) := (noPanic_failIf _ _).bind fun _ _ => noPanic_ok _

theorem noPanic_string : NoPanic r.string :=
  noPanic_word.bind fun _ _ => noPanic_count.bind fun _ _ => noPanic_bytes.bind fun _ _ =>
    (noPanic_okOr _ _).bind fun _ _ => noPanic_ok _

theorem noPanic_arrayHead : NoPanic r.arrayHead :=
  noPanic_word.bind fun _ _ => (noPanic_okOr _ _).bind fun _ _ => noPanic_word.bind fun _ _ =>
    noPanic_count.bind fun _ _ => noPanic_ok _

-- Values that are not arrays

theorem noPanic_scalar : NoPanic (scalar ty r) := by
  unfold scalar
  split
  case h_8 => exact noPanic_word.bind fun _ _ => (noPanic_failIf _ _).bind fun _ _ => noPanic_ok _
  case h_9 => exact noPanic_string.bind fun _ _ => noPanic_ok _
  case h_13 => exact noPanic_err _
  all_goals exact noPanic_word.bind fun _ _ => noPanic_ok _

theorem word_map {w : Nat} {f : Nat × Reader → Res (GgufValue × Reader)} (hf : ∀ n r, ∃ v, f (n, r) = .ok (v, r)) :
    (∃ v, (r.word w >>= f) = .ok (v, r')) ↔ ∃ n, WordAt r.content r.endian w r.pos n ∧ r' = r.seek (r.pos + w) := by
  constructor
  · rintro ⟨v, h⟩
    obtain ⟨⟨n, r₁⟩, hn, h⟩ := bind_eq_ok.mp h
    obtain ⟨hword, rfl⟩ := word_ok.mp hn
    obtain ⟨v', hv'⟩ := hf n (r.seek (r.pos + w))
    obtain ⟨-, rfl⟩ := Prod.mk.inj (Except.ok.inj (hv'.symm.trans h))
    exact ⟨n, hword, rfl⟩
  · rintro ⟨n, hword, rfl⟩
    obtain ⟨v, hv⟩ := hf n (r.seek (r.pos + w))
    exact ⟨v, bind_eq_ok.mpr ⟨_, word_ok.mpr ⟨hword, rfl⟩, hv⟩⟩

theorem scalarAt_word {w : Nat} (hw : scalarWidth ty = some w) (hbool : ty ≠ 7) (htext : ty ≠ 8) :
    (∃ stop, ScalarAt r.content r.endian ty r.pos stop ∧ r' = r.seek stop) ↔
      ∃ n, WordAt r.content r.endian w r.pos n ∧ r' = r.seek (r.pos + w) := by
  constructor
  · rintro ⟨stop, h, rfl⟩
    rw [ScalarAt, if_neg htext] at h
    obtain ⟨w', n, hw', hword, -, rfl⟩ := h
    obtain rfl := Option.some.inj (hw.symm.trans hw')
    exact ⟨n, hword, rfl⟩
  · rintro ⟨n, hword, rfl⟩
    refine ⟨_, ?_, rfl⟩
    rw [ScalarAt, if_neg htext]
    exact ⟨w, n, hw, hword, fun h => absurd h hbool, rfl⟩

theorem scalar_ok (hty : ty ≠ 9) : (∃ v, scalar ty r = .ok (v, r')) ↔
    ∃ stop, ScalarAt r.content r.endian ty r.pos stop ∧ r' = r.seek stop := by
  unfold scalar
  split
  case h_8 =>
    constructor
    · rintro ⟨v, h⟩
      obtain ⟨⟨n, r₁⟩, hn, h⟩ := bind_eq_ok.mp h
      obtain ⟨hword, rfl⟩ := word_ok.mp hn
      obtain ⟨_, hbool, h⟩ := bind_eq_ok.mp h
      obtain ⟨-, rfl⟩ := Prod.mk.inj (Except.ok.inj h)
      exact ⟨_, ⟨1, n, rfl, hword, fun _ => by have := failIf_ok.mp hbool; omega, rfl⟩, rfl⟩
    · rintro ⟨stop, ⟨w, n, hw, hword, hbool, rfl⟩, rfl⟩
      obtain rfl : w = 1 := (Option.some.inj hw).symm
      refine ⟨.bool (n = 1), bind_eq_ok.mpr ⟨_, word_ok.mpr ⟨hword, rfl⟩, bind_eq_ok.mpr ⟨(), failIf_ok.mpr ?_, rfl⟩⟩⟩
      have := hbool rfl
      omega
  case h_9 =>
    constructor
    · rintro ⟨v, h⟩
      obtain ⟨⟨s, r₁⟩, hs, h⟩ := bind_eq_ok.mp h
      obtain ⟨stop, htext, rfl⟩ := string_ok.mp hs
      obtain ⟨-, rfl⟩ := Prod.mk.inj (Except.ok.inj h)
      exact ⟨stop, ⟨s, htext⟩, rfl⟩
    · rintro ⟨stop, ⟨s, htext⟩, rfl⟩
      exact ⟨.string s, bind_eq_ok.mpr ⟨_, string_ok.mpr ⟨stop, htext, rfl⟩, rfl⟩⟩
  case h_13 =>
    have hwidth : scalarWidth ty = none := by simp_all [scalarWidth]
    refine ⟨nofun, ?_⟩
    rintro ⟨stop, h, -⟩
    rw [ScalarAt, if_neg (by assumption)] at h
    obtain ⟨w, n, hw, -⟩ := h
    cases hwidth.symm.trans hw
  all_goals
    refine (word_map fun _ _ => ⟨_, rfl⟩).trans (scalarAt_word ?_ ?_ ?_).symm
    · rfl
    · decide
    · decide

-- Values of all kinds

section Elements

variable {value : Reader → Res (GgufValue × Reader)} {thing : Nat → Nat → Prop}

theorem push_ok (hvalue : ∀ pos r', (∃ v, value (r.seek pos) = .ok (v, r')) ↔ ∃ stop, thing pos stop ∧ r' = r.seek stop)
    {vs : List GgufValue} {pos : Nat} : (∃ vs', push value (vs, r.seek pos) = .ok (vs', r')) ↔
      ∃ stop, thing pos stop ∧ r' = r.seek stop := by
  rw [← hvalue]
  constructor
  · rintro ⟨vs', h⟩
    obtain ⟨⟨v, r₁⟩, hv, h⟩ := bind_eq_ok.mp h
    obtain ⟨-, rfl⟩ := Prod.mk.inj (Except.ok.inj h)
    exact ⟨v, hv⟩
  · rintro ⟨v, hv⟩
    exact ⟨vs ++ [v], bind_eq_ok.mpr ⟨_, hv, rfl⟩⟩

theorem times_push_ok
    (hvalue : ∀ pos r', (∃ v, value (r.seek pos) = .ok (v, r')) ↔ ∃ stop, thing pos stop ∧ r' = r.seek stop)
    {vs : List GgufValue} {pos : Nat} : (∃ vs', times (push value) n (vs, r.seek pos) = .ok (vs', r')) ↔
      ∃ stop, Run thing n pos stop ∧ r' = r.seek stop := by
  induction n generalizing vs pos with
  | zero =>
    constructor
    · rintro ⟨vs', h⟩
      obtain ⟨-, rfl⟩ := Prod.mk.inj (Except.ok.inj h)
      exact ⟨pos, rfl, rfl⟩
    · rintro ⟨stop, rfl, rfl⟩
      exact ⟨vs, rfl⟩
  | succ n ih =>
    constructor
    · rintro ⟨vs', h⟩
      obtain ⟨⟨vs₁, r₁⟩, hfirst, h⟩ := bind_eq_ok.mp h
      obtain ⟨mid, hmid, rfl⟩ := (push_ok hvalue).mp ⟨vs₁, hfirst⟩
      obtain ⟨stop, hrun, hr⟩ := ih.mp ⟨vs', h⟩
      exact ⟨stop, ⟨mid, hmid, hrun⟩, hr⟩
    · rintro ⟨stop, ⟨mid, hmid, hrun⟩, hr⟩
      obtain ⟨vs₁, hfirst⟩ := (@push_ok _ _ _ _ hvalue vs _).mpr ⟨mid, hmid, rfl⟩
      obtain ⟨vs', h⟩ := (@ih vs₁ _).mpr ⟨stop, hrun, hr⟩
      exact ⟨vs', bind_eq_ok.mpr ⟨_, hfirst, h⟩⟩

theorem push_panic {vs : List GgufValue} :
    push value (vs, r) = .error .panic ↔ value r = .error .panic := by
  unfold push
  rw [bind_eq_panic]
  exact or_iff_left fun ⟨_, _, h⟩ => nomatch h

end Elements

theorem withCapacity_ok {size : Nat} : withCapacity n size = .ok () ↔ n * size ≤ isizeMax := by
  unfold withCapacity
  split
  · next h => exact ⟨fun _ => h, fun _ => rfl⟩
  · next h => exact ⟨nofun, fun hle => absurd hle h⟩

theorem withCapacity_panic {size : Nat} : withCapacity n size = .error .panic ↔ isizeMax < n * size := by
  unfold withCapacity
  split
  · next h => exact ⟨nofun, fun hlt => absurd hlt (not_lt.mpr h)⟩
  · next h => exact ⟨fun _ => not_le.mp h, fun _ => rfl⟩

theorem value_ok {stack : Nat} : (∃ v, value stack ty r = .ok (v, r')) ↔
    ∃ stop, ValueAt r.content r.endian stack ty r.pos stop ∧ r' = r.seek stop := by
  induction stack generalizing ty r r' with
  | zero => exact ⟨nofun, nofun⟩
  | succ stack ih =>
    by_cases hty : ty = 9
    · rw [value, if_pos hty]
      simp only [ValueAt, if_pos hty]
      have helements : ∀ e pos r', (∃ v, value stack e (r.seek pos) = .ok (v, r')) ↔
          ∃ stop, ValueAt r.content r.endian stack e pos stop ∧ r' = r.seek stop := fun e pos r' => ih
      constructor
      · rintro ⟨v, h⟩
        obtain ⟨⟨⟨e, count⟩, r₁⟩, hhead, h⟩ := bind_eq_ok.mp h
        obtain ⟨hat, rfl⟩ := arrayHead_ok.mp hhead
        obtain ⟨_, hcapacity, h⟩ := bind_eq_ok.mp h
        obtain ⟨⟨vs, r₂⟩, hvalues, h⟩ := bind_eq_ok.mp h
        obtain ⟨-, rfl⟩ := Prod.mk.inj (Except.ok.inj h)
        obtain ⟨stop, hrun, rfl⟩ := (times_push_ok (helements e)).mp ⟨vs, hvalues⟩
        exact ⟨stop, ⟨e, count, hat, withCapacity_ok.mp hcapacity, hrun⟩, rfl⟩
      · rintro ⟨stop, ⟨e, count, hat, hcapacity, hrun⟩, rfl⟩
        obtain ⟨vs, hvalues⟩ := (@times_push_ok _ _ _ _ _ (helements e) [] _).mpr ⟨stop, hrun, rfl⟩
        exact ⟨.array e vs, bind_eq_ok.mpr ⟨_, arrayHead_ok.mpr ⟨hat, rfl⟩,
          bind_eq_ok.mpr ⟨(), withCapacity_ok.mpr hcapacity, bind_eq_ok.mpr ⟨_, hvalues, rfl⟩⟩⟩⟩
    · rw [value, if_neg hty]
      simp only [ValueAt, if_neg hty]
      exact scalar_ok hty

theorem value_panic {stack : Nat} :
    value stack ty r = .error .panic ↔ Overruns r.content r.endian stack ty r.pos := by
  induction stack generalizing ty r with
  | zero => exact ⟨fun _ => trivial, fun _ => rfl⟩
  | succ stack ih =>
    by_cases hty : ty = 9
    · rw [value, if_pos hty, bind_eq_panic, or_iff_right noPanic_arrayHead]
      have helements : ∀ e pos r', (∃ v, value stack e (r.seek pos) = .ok (v, r')) ↔
          ∃ stop, ValueAt r.content r.endian stack e pos stop ∧ r' = r.seek stop := fun e pos r' => value_ok
      constructor
      · rintro ⟨⟨⟨e, count⟩, r₁⟩, hhead, h⟩
        obtain ⟨hat, rfl⟩ := arrayHead_ok.mp hhead
        refine ⟨hty, e, count, hat, ?_⟩
        rcases bind_eq_panic.mp h with h | ⟨_, -, h⟩
        · exact .inl (withCapacity_panic.mp h)
        · obtain h := (bind_eq_panic.mp h).resolve_right fun ⟨_, _, h⟩ => nomatch h
          obtain ⟨k, hk, ⟨vs, r₂⟩, hvalues, h⟩ := times_panic.mp h
          obtain ⟨mid, hrun, rfl⟩ := (times_push_ok (helements e)).mp ⟨vs, hvalues⟩
          exact .inr ⟨k, hk, mid, hrun, ih.mp (push_panic.mp h)⟩
      · rintro ⟨-, e, count, hat, h⟩
        refine ⟨_, arrayHead_ok.mpr ⟨hat, rfl⟩, bind_eq_panic.mpr ?_⟩
        by_cases hcapacity : isizeMax < count * valueSize
        · exact .inl (withCapacity_panic.mpr hcapacity)
        · obtain ⟨k, hk, mid, hrun, h⟩ := h.resolve_left hcapacity
          obtain ⟨vs, hvalues⟩ := (@times_push_ok _ _ _ _ _ (helements e) [] _).mpr ⟨mid, hrun, rfl⟩
          exact .inr ⟨(), withCapacity_ok.mpr (not_lt.mp hcapacity),
            bind_eq_panic.mpr (.inl (times_panic.mpr ⟨k, hk, _, hvalues, push_panic.mpr (ih.mpr h)⟩))⟩
    · rw [value, if_neg hty]
      exact ⟨fun h => absurd h noPanic_scalar, fun h => absurd h.1 hty⟩

end Ruda.Gguf.Reader
