import Ruda.Lib.Bytes
import Ruda.Lib.Machine

/-!
# Calls that fail or panic

A call ends with a value, with an error that it returns, or with a panic: a slice index
out of range, an arithmetic overflow, a failed assertion.
-/

namespace Ruda

/-- How a call ends without a value. -/
inductive Stop (ε : Type)
  | err (e : ε)
  | panic
  deriving DecidableEq

abbrev Res (ε α : Type) := Except (Stop ε) α

variable {ε α β : Type}

@[simp] theorem ok_bind (a : α) (f : α → Res ε β) : (Except.ok a >>= f) = f a := rfl
@[simp] theorem pure_bind' (a : α) (f : α → Res ε β) : ((pure a : Res ε α) >>= f) = f a := rfl
@[simp] theorem error_bind (e : Stop ε) (f : α → Res ε β) : ((Except.error e : Res ε α) >>= f) = .error e := rfl

theorem bind_eq_ok {m : Res ε α} {f : α → Res ε β} {r : β} : (m >>= f) = .ok r ↔ ∃ a, m = .ok a ∧ f a = .ok r := by
  cases m with
  | ok a => exact ⟨fun h => ⟨a, rfl, h⟩, fun ⟨a', ha, h⟩ => Except.ok.inj ha ▸ h⟩
  | error e => exact ⟨nofun, fun ⟨_, ha, _⟩ => nomatch ha⟩

theorem except_bind_eq_ok {m : Except ε α} {f : α → Except ε β} {r : β} :
    (m >>= f) = .ok r ↔ ∃ a, m = .ok a ∧ f a = .ok r := by
  cases m with
  | ok a => exact ⟨fun h => ⟨a, rfl, h⟩, fun ⟨a', ha, h⟩ => Except.ok.inj ha ▸ h⟩
  | error e => exact ⟨nofun, fun ⟨_, ha, _⟩ => nomatch ha⟩

/-- `if bad { return Err(e) }`, in a call that cannot panic. -/
def refuseIf (bad : Prop) [Decidable bad] (e : ε) : Except ε Unit := if bad then .error e else .ok ()

theorem refuseIf_ok {bad : Prop} [Decidable bad] {e : ε} : refuseIf bad e = .ok () ↔ ¬bad := by
  unfold refuseIf
  split
  · next h => exact ⟨nofun, fun hn => absurd h hn⟩
  · next h => exact ⟨fun _ => h, fun _ => rfl⟩

theorem mapM_ok {f : α → Res ε β} {l : List α} {l' : List β} :
    l.mapM f = .ok l' ↔ List.Forall₂ (fun x y => f x = .ok y) l l' := by
  induction l generalizing l' with
  | nil => exact ⟨fun h => Except.ok.inj h ▸ .nil, fun h => by cases h; rfl⟩
  | cons x l ih =>
    rw [List.mapM_cons, bind_eq_ok]
    constructor
    · rintro ⟨y, hy, h⟩
      obtain ⟨ys, hys, h⟩ := bind_eq_ok.mp h
      obtain rfl := Except.ok.inj h
      exact .cons hy (ih.mp hys)
    · rintro (_ | ⟨hy, hys⟩)
      exact ⟨_, hy, bind_eq_ok.mpr ⟨_, ih.mpr hys, rfl⟩⟩

theorem mapM_mem {f : α → Res ε β} {l : List α} {l' : List β} (h : l.mapM f = .ok l') {y : β} (hy : y ∈ l') :
    ∃ x ∈ l, f x = .ok y := by
  induction mapM_ok.mp h with
  | nil => cases hy
  | @cons x y' l l' hx hl ih =>
    rcases List.mem_cons.mp hy with rfl | hy
    · exact ⟨x, List.mem_cons_self, hx⟩
    · obtain ⟨x', hx', hy'⟩ := ih (mapM_ok.mpr hl) hy
      exact ⟨x', List.mem_cons_of_mem _ hx', hy'⟩

theorem mapM_mem_of {f : α → Res ε β} {l : List α} {l' : List β} (h : l.mapM f = .ok l') {x : α} (hx : x ∈ l) :
    ∃ y ∈ l', f x = .ok y := by
  induction mapM_ok.mp h with
  | nil => cases hx
  | @cons x' y l l' hy hl ih =>
    rcases List.mem_cons.mp hx with rfl | hx
    · exact ⟨y, List.mem_cons_self, hy⟩
    · obtain ⟨y', hy', hx'⟩ := ih (mapM_ok.mpr hl) hx
      exact ⟨y', List.mem_cons_of_mem _ hy', hx'⟩

/-- `opt.ok_or(e)?` -/
def okOr (opt : Option α) (e : ε) : Res ε α :=
  match opt with
  | some a => pure a
  | none => throw (.err e)

theorem okOr_ok {opt : Option α} {e : ε} {a : α} : okOr opt e = .ok a ↔ opt = some a := by
  cases opt with
  | none => exact ⟨nofun, nofun⟩
  | some a' => exact ⟨fun h => congrArg some (Except.ok.inj h), fun h => congrArg Except.ok (Option.some.inj h)⟩

/-- `if bad { return Err(e) }` -/
def failIf (bad : Prop) [Decidable bad] (e : ε) : Res ε Unit := if bad then throw (.err e) else pure ()

theorem failIf_ok {bad : Prop} [Decidable bad] {e : ε} : failIf bad e = .ok () ↔ ¬bad := by
  unfold failIf
  split
  · next h => exact ⟨nofun, fun hn => absurd h hn⟩
  · next h => exact ⟨fun _ => h, fun _ => rfl⟩

/-- The call ends with a value or an error. -/
def NoPanic (m : Res ε α) : Prop := m ≠ .error .panic

theorem bind_eq_panic {m : Res ε α} {f : α → Res ε β} :
    (m >>= f) = .error .panic ↔ m = .error .panic ∨ ∃ a, m = .ok a ∧ f a = .error .panic := by
  cases m with
  | ok a => exact ⟨fun h => .inr ⟨a, rfl, h⟩, fun h => h.elim nofun fun ⟨_, ha, h⟩ => Except.ok.inj ha ▸ h⟩
  | error e => exact ⟨fun h => .inl (congrArg _ (Except.error.inj h)), fun h => h.elim (fun h => congrArg _ (Except.error.inj h)) nofun⟩

theorem NoPanic.bind {m : Res ε α} {f : α → Res ε β} (hm : NoPanic m) (hf : ∀ a, m = .ok a → NoPanic (f a)) :
    NoPanic (m >>= f) := by
  intro h
  rcases bind_eq_panic.mp h with h | ⟨a, ha, h⟩
  · exact hm h
  · exact hf a ha h

theorem noPanic_ok (a : α) : NoPanic (.ok a : Res ε α) := nofun

theorem noPanic_err (e : ε) : NoPanic (.error (.err e) : Res ε α) := nofun

theorem noPanic_okOr (opt : Option α) (e : ε) : NoPanic (okOr opt e) := by
  cases opt with
  | none => exact noPanic_err e
  | some a => exact noPanic_ok a

theorem noPanic_failIf (bad : Prop) [Decidable bad] (e : ε) : NoPanic (failIf bad e) := by
  unfold failIf
  split
  · exact noPanic_err e
  · exact noPanic_ok ()

theorem noPanic_mapM {f : α → Res ε β} {l : List α} (h : ∀ a ∈ l, NoPanic (f a)) : NoPanic (l.mapM f) := by
  induction l with
  | nil => exact noPanic_ok []
  | cons a l ih =>
    obtain ⟨ha, hl⟩ := List.forall_mem_cons.mp h
    rw [List.mapM_cons]
    exact ha.bind fun _ _ => (ih hl).bind fun _ _ => noPanic_ok _

/-- `for _ in 0..n` -/
def times {σ : Type} (f : σ → Res ε σ) : Nat → σ → Res ε σ
  | 0, s => pure s
  | n + 1, s => f s >>= times f n

theorem times_panic {σ : Type} {f : σ → Res ε σ} {n : Nat} {s : σ} :
    times f n s = .error .panic ↔ ∃ k < n, ∃ s', times f k s = .ok s' ∧ f s' = .error .panic := by
  induction n generalizing s with
  | zero => exact ⟨nofun, fun ⟨_, hk, _⟩ => absurd hk (Nat.not_lt_zero _)⟩
  | succ n ih =>
    rw [times, bind_eq_panic]
    constructor
    · rintro (h | ⟨s₁, hs₁, h⟩)
      · exact ⟨0, Nat.succ_pos n, s, rfl, h⟩
      · obtain ⟨k, hk, s', hs', hpanic⟩ := ih.mp h
        exact ⟨k + 1, Nat.succ_lt_succ hk, s', bind_eq_ok.mpr ⟨s₁, hs₁, hs'⟩, hpanic⟩
    · rintro ⟨k, hk, s', hs', hpanic⟩
      cases k with
      | zero =>
        obtain rfl := Except.ok.inj hs'
        exact .inl hpanic
      | succ k =>
        obtain ⟨s₁, hs₁, hs'⟩ := bind_eq_ok.mp hs'
        exact .inr ⟨s₁, hs₁, ih.mpr ⟨k, Nat.lt_of_succ_lt_succ hk, s', hs', hpanic⟩⟩

theorem times_keeps {σ : Type} {f : σ → Res ε σ} {P : σ → Prop} {n : Nat} {s s' : σ}
    (hstep : ∀ s s', P s → f s = .ok s' → P s') (hs : P s) (h : times f n s = .ok s') : P s' := by
  induction n generalizing s with
  | zero =>
    obtain rfl := Except.ok.inj h
    exact hs
  | succ n ih =>
    obtain ⟨s₁, hs₁, h⟩ := bind_eq_ok.mp h
    exact ih (hstep s s₁ hs hs₁) h

/-- `usize` arithmetic without a check panics where it leaves the range. -/
def addUsize (a b : Nat) : Res ε Nat := if a + b ≤ usizeMax then pure (a + b) else throw .panic

def mulUsize (a b : Nat) : Res ε Nat := if a * b ≤ usizeMax then pure (a * b) else throw .panic

def subUsize (a b : Nat) : Res ε Nat := if b ≤ a then pure (a - b) else throw .panic

theorem addUsize_iff {a b c : Nat} : (addUsize a b : Res ε Nat) = .ok c ↔ a + b = c ∧ c ≤ usizeMax := by
  unfold addUsize
  split
  · next h => exact ⟨fun hc => Except.ok.inj hc ▸ ⟨rfl, h⟩, fun hc => congrArg Except.ok hc.1⟩
  · next h => exact ⟨nofun, fun hc => absurd (hc.1 ▸ hc.2) h⟩

theorem mulUsize_iff {a b c : Nat} : (mulUsize a b : Res ε Nat) = .ok c ↔ a * b = c ∧ c ≤ usizeMax := by
  unfold mulUsize
  split
  · next h => exact ⟨fun hc => Except.ok.inj hc ▸ ⟨rfl, h⟩, fun hc => congrArg Except.ok hc.1⟩
  · next h => exact ⟨nofun, fun hc => absurd (hc.1 ▸ hc.2) h⟩

theorem subUsize_ok {a b : Nat} (h : b ≤ a) : (subUsize a b : Res ε Nat) = .ok (a - b) := if_pos h

theorem subUsize_panic {a b : Nat} (h : a < b) : (subUsize a b : Res ε Nat) = .error .panic := if_neg (not_le.mpr h)

/-- `bytes.get(start..end)` -/
def getRange (bytes : List UInt8) (start stop : Nat) : Option (List UInt8) :=
  if start ≤ stop ∧ stop ≤ bytes.length then some ((bytes.drop start).take (stop - start)) else none

theorem getRange_some {bytes s : List UInt8} {start stop : Nat} :
    getRange bytes start stop = some s ↔
      start ≤ stop ∧ stop ≤ bytes.length ∧ (bytes.drop start).take (stop - start) = s := by
  unfold getRange
  split
  · next h => exact ⟨fun hs => ⟨h.1, h.2, Option.some.inj hs⟩, fun hs => congrArg some hs.2.2⟩
  · next h => exact ⟨nofun, fun hs => absurd ⟨hs.1, hs.2.1⟩ h⟩

theorem getRange_mid {bytes pre s post : List UInt8} (h : bytes = pre ++ s ++ post) :
    getRange bytes pre.length (pre.length + s.length) = some s := by
  refine getRange_some.mpr ⟨Nat.le_add_right _ _, ?_, ?_⟩
  · rw [h, List.length_append, List.length_append]
    exact Nat.le_add_right _ _
  · rw [h, List.append_assoc, List.drop_left, Nat.add_sub_cancel_left, List.take_left]

theorem getRange_append {data more s : List UInt8} {start stop : Nat} (h : getRange data start stop = some s) :
    getRange (data ++ more) start stop = some s := by
  obtain ⟨hle, hlen, htake⟩ := getRange_some.mp h
  refine getRange_some.mpr ⟨hle, ?_, ?_⟩
  · rw [List.length_append]
    exact hlen.trans (Nat.le_add_right _ _)
  · rw [List.drop_append_of_le_length (hle.trans hlen), List.take_append_of_le_length, htake]
    rw [List.length_drop]
    exact Nat.sub_le_sub_right hlen start

/-- `&bytes[start..end]` -/
def slice (bytes : List UInt8) (start stop : Nat) : Res ε (List UInt8) :=
  match getRange bytes start stop with
  | some s => pure s
  | none => throw .panic

theorem slice_ok {bytes s : List UInt8} {start stop : Nat} :
    (slice bytes start stop : Res ε _) = .ok s ↔ getRange bytes start stop = some s := by
  unfold slice
  cases getRange bytes start stop with
  | none => exact ⟨nofun, nofun⟩
  | some s' => exact ⟨fun h => congrArg some (Except.ok.inj h), fun h => congrArg Except.ok (Option.some.inj h)⟩

/-- A little-endian `u32`, if four bytes are there. -/
def readU32 (bytes : List UInt8) (at_ : Nat) : Option Nat := (getRange bytes at_ (at_ + 4)).map leValue

theorem readU32_mid {bytes pre post : List UInt8} {v : Nat} (hv : v < 2 ^ 32) (h : bytes = pre ++ leBytes 4 v ++ post) :
    readU32 bytes pre.length = some v := by
  have hrange := getRange_mid h
  rw [leBytes_length] at hrange
  rw [readU32, hrange, Option.map_some, leValue_leBytes hv]

end Ruda
