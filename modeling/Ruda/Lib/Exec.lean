import Mathlib

/-!
# Fallible stateful code

Rust methods on `&mut self` that return a `Result` or panic. A fault keeps the
state reached so far: neither `?` nor an unwinding panic rolls anything back.
`Triple m s Q E` is the pre/postcondition judgement used throughout, with one
postcondition for a return and one for a fault.
-/

namespace Ruda

/-- How a call ends when it does not return a value. -/
inductive Fault
  | error (message : String)
  | panic (message : String)
  deriving DecidableEq, Repr

def Fault.IsPanic : Fault → Prop
  | .error _ => False
  | .panic _ => True

instance (f : Fault) : Decidable f.IsPanic := by
  cases f <;> unfold Fault.IsPanic <;> infer_instance

/-- A method on `&mut σ`. -/
abbrev M (σ : Type) := ExceptT Fault (StateM σ)

namespace M

variable {σ τ α β : Type}

def exec (m : M σ α) (s : σ) : Except Fault α × σ := (ExceptT.run m).run s

def fail (message : String) : M σ α := throw (.error message)

def panic (message : String) : M σ α := throw (.panic message)

/-- `opt.ok_or_else(..)?` -/
def need (opt : Option α) (message : String) : M σ α :=
  match opt with
  | some a => pure a
  | none => fail message

/-- `opt.expect(..)` -/
def expect (opt : Option α) (message : String) : M σ α :=
  match opt with
  | some a => pure a
  | none => panic message

/-- `if bad { return Err(..) }` -/
def failIf (bad : Prop) [Decidable bad] (message : String) : M σ Unit :=
  if bad then fail message else pure ()

/-- `if let Err(error) = m { cleanup; return Err(error) }` -/
def onError (m : M σ α) (cleanup : M σ Unit) : M σ α :=
  tryCatch m fun
    | .error message => do cleanup; fail message
    | .panic message => panic message

/-- Run a method of a field. -/
def zoom (get : σ → τ) (set : σ → τ → σ) (m : M τ α) : M σ α :=
  ExceptT.mk (StateT.mk fun s => let r := m.exec (get s); pure (r.1, set s r.2))

/-- The state after a call, however it ended. -/
def next (m : M σ α) (s : σ) : σ := (m.exec s).2

-- Running

@[simp] theorem exec_pure (a : α) (s : σ) : (pure a : M σ α).exec s = (.ok a, s) := rfl

@[simp] theorem exec_bind (m : M σ α) (f : α → M σ β) (s : σ) :
    (m >>= f).exec s = match m.exec s with
      | (.ok a, s') => (f a).exec s'
      | (.error e, s') => (.error e, s') := by
  simp only [exec, ExceptT.run_bind, StateT.run_bind]
  rcases StateT.run (ExceptT.run m) s with ⟨_ | _, _⟩ <;> rfl

@[simp] theorem exec_map (f : α → β) (m : M σ α) (s : σ) :
    (f <$> m).exec s = match m.exec s with
      | (.ok a, s') => (.ok (f a), s')
      | (.error e, s') => (.error e, s') := by
  rw [map_eq_pure_bind, exec_bind]
  rfl

@[simp] theorem exec_throw (f : Fault) (s : σ) : (throw f : M σ α).exec s = (.error f, s) := rfl
@[simp] theorem exec_fail (m : String) (s : σ) : (fail m : M σ α).exec s = (.error (.error m), s) := rfl
@[simp] theorem exec_panic (m : String) (s : σ) : (panic m : M σ α).exec s = (.error (.panic m), s) := rfl
@[simp] theorem exec_get (s : σ) : (get : M σ σ).exec s = (.ok s, s) := rfl
@[simp] theorem exec_set (s s' : σ) : (set s' : M σ PUnit).exec s = (.ok ⟨⟩, s') := rfl
@[simp] theorem exec_modify (f : σ → σ) (s : σ) : (modify f : M σ PUnit).exec s = (.ok ⟨⟩, f s) := rfl

@[simp] theorem exec_need_some (a : α) (m : String) (s : σ) :
    (need (some a) m : M σ α).exec s = (.ok a, s) := rfl
@[simp] theorem exec_need_none (m : String) (s : σ) :
    (need none m : M σ α).exec s = (.error (.error m), s) := rfl
@[simp] theorem exec_expect_some (a : α) (m : String) (s : σ) :
    (expect (some a) m : M σ α).exec s = (.ok a, s) := rfl
@[simp] theorem exec_expect_none (m : String) (s : σ) :
    (expect none m : M σ α).exec s = (.error (.panic m), s) := rfl

theorem exec_tryCatch (m : M σ α) (handler : Fault → M σ α) (s : σ) :
    (tryCatch m handler).exec s = match m.exec s with
      | (.ok a, s') => (.ok a, s')
      | (.error f, s') => (handler f).exec s' := by
  show StateT.run (ExceptT.tryCatch m handler) s = _
  simp only [exec, ExceptT.tryCatch, ExceptT.run]
  show StateT.run (m >>= _) s = _
  rw [StateT.run_bind]
  rcases StateT.run m s with ⟨_ | _, _⟩ <;> rfl

@[simp] theorem exec_zoom (get : σ → τ) (set : σ → τ → σ) (m : M τ α) (s : σ) :
    (zoom get set m).exec s = ((m.exec (get s)).1, set s (m.exec (get s)).2) := rfl

theorem exec_of_fst {m : M σ α} {s : σ} {r : Except Fault α} (h : (m.exec s).1 = r) :
    m.exec s = (r, m.next s) := by
  rw [← h]
  rfl

theorem exec_ite (c : Prop) [Decidable c] (m n : M σ α) (s : σ) :
    (if c then m else n).exec s = if c then m.exec s else n.exec s := by
  split <;> rfl

end M

-- Pre- and postconditions

section
variable {σ α β : Type} {s : σ} {Q Q' : α → σ → Prop} {E E' : Fault → σ → Prop}

/-- From `s`, `m` returns into `Q` or faults into `E`. -/
def Triple (m : M σ α) (s : σ) (Q : α → σ → Prop) (E : Fault → σ → Prop) : Prop :=
  match m.exec s with
  | (.ok a, s') => Q a s'
  | (.error f, s') => E f s'

namespace Triple

theorem pure' {a : α} (h : Q a s) : Triple (pure a) s Q E := h

theorem throw' {f : Fault} (h : E f s) : Triple (throw f : M σ α) s Q E := h

theorem fail' {m : String} (h : E (.error m) s) : Triple (M.fail m : M σ α) s Q E := h

theorem panic' {m : String} (h : E (.panic m) s) : Triple (M.panic m : M σ α) s Q E := h

theorem get' {Q : σ → σ → Prop} (h : Q s s) : Triple (get : M σ σ) s Q E := h

theorem set' {s' : σ} {Q : PUnit → σ → Prop} (h : Q ⟨⟩ s') : Triple (set s' : M σ PUnit) s Q E := h

theorem modify' {f : σ → σ} {Q : PUnit → σ → Prop} (h : Q ⟨⟩ (f s)) :
    Triple (modify f : M σ PUnit) s Q E := h

theorem bind {m : M σ α} {f : α → M σ β} {R : β → σ → Prop}
    (hm : Triple m s Q E) (hf : ∀ a s', Q a s' → Triple (f a) s' R E) :
    Triple (m >>= f) s R E := by
  unfold Triple at *
  rw [M.exec_bind]
  rcases h : m.exec s with ⟨_ | a, s'⟩ <;> rw [h] at hm
  · exact hm
  · exact hf a s' hm

-- Sequencing after a step whose outcome is known.

theorem pure_bind {a : α} {f : α → M σ β} {R : β → σ → Prop} (h : Triple (f a) s R E) :
    Triple (pure a >>= f) s R E := h

theorem get_bind {f : σ → M σ β} {R : β → σ → Prop} (h : Triple (f s) s R E) :
    Triple (get >>= f) s R E := h

theorem set_bind {s' : σ} {f : PUnit → M σ β} {R : β → σ → Prop} (h : Triple (f ⟨⟩) s' R E) :
    Triple (set s' >>= f) s R E := h

theorem modify_bind {g : σ → σ} {f : PUnit → M σ β} {R : β → σ → Prop}
    (h : Triple (f ⟨⟩) (g s) R E) : Triple (modify g >>= f) s R E := h

theorem need_bind {opt : Option α} {msg : String} {f : α → M σ β} {R : β → σ → Prop}
    (hn : opt = none → E (.error msg) s) (hs : ∀ a, opt = some a → Triple (f a) s R E) :
    Triple (M.need opt msg >>= f) s R E := by
  cases opt with
  | none => exact hn rfl
  | some a => exact hs a rfl

theorem expect_bind {opt : Option α} {msg : String} {f : α → M σ β} {R : β → σ → Prop}
    (hn : opt = none → E (.panic msg) s) (hs : ∀ a, opt = some a → Triple (f a) s R E) :
    Triple (M.expect opt msg >>= f) s R E := by
  cases opt with
  | none => exact hn rfl
  | some a => exact hs a rfl

theorem failIf_bind {bad : Prop} [Decidable bad] {msg : String} {f : Unit → M σ β}
    {R : β → σ → Prop} (hb : bad → E (.error msg) s) (hn : ¬bad → Triple (f ()) s R E) :
    Triple (M.failIf bad msg >>= f) s R E := by
  unfold M.failIf
  split
  · next h => exact hb h
  · next h => exact hn h

theorem ite {c : Prop} [Decidable c] {m n : M σ α} (ht : c → Triple m s Q E)
    (hf : ¬c → Triple n s Q E) : Triple (if c then m else n) s Q E := by
  split
  · next h => exact ht h
  · next h => exact hf h

theorem mono {m : M σ α} (h : Triple m s Q E) (hQ : ∀ a s', Q a s' → Q' a s')
    (hE : ∀ f s', E f s' → E' f s') : Triple m s Q' E' := by
  unfold Triple at *
  generalize m.exec s = r at h ⊢
  rcases r with ⟨_ | a, s'⟩
  · exact hE _ _ h
  · exact hQ _ _ h

theorem always {m : M σ α} (hQ : ∀ a s', Q a s') (hE : ∀ f s', E f s') : Triple m s Q E := by
  unfold Triple
  rcases m.exec s with ⟨_ | a, s'⟩
  · exact hE _ _
  · exact hQ _ _

theorem and {m : M σ α} (h : Triple m s Q E) (h' : Triple m s Q' E') :
    Triple m s (fun a s' => Q a s' ∧ Q' a s') (fun f s' => E f s' ∧ E' f s') := by
  unfold Triple at *
  generalize m.exec s = r at h h' ⊢
  rcases r with ⟨_ | a, s'⟩ <;> exact ⟨h, h'⟩

theorem catch' {m : M σ α} {handler : Fault → M σ α} (hm : Triple m s Q E')
    (hh : ∀ f s', E' f s' → Triple (handler f) s' Q E) : Triple (tryCatch m handler) s Q E := by
  unfold Triple at hm ⊢
  rw [M.exec_tryCatch]
  rcases h : m.exec s with ⟨f | a, s'⟩ <;> rw [h] at hm
  · exact hh f s' hm
  · exact hm

theorem map' {m : M σ α} {f : α → β} {R : β → σ → Prop} (hm : Triple m s (fun a s' => R (f a) s') E) :
    Triple (f <$> m) s R E := by
  unfold Triple at hm ⊢
  rw [M.exec_map]
  rcases h : m.exec s with ⟨e | a, s'⟩ <;> rw [h] at hm <;> exact hm

theorem onError {m : M σ α} {cleanup : M σ Unit} (hm : Triple m s Q E')
    (herr : ∀ msg s', E' (.error msg) s' → Triple cleanup s' (fun _ => E (.error msg)) E)
    (hpanic : ∀ msg s', E' (.panic msg) s' → E (.panic msg) s') : Triple (m.onError cleanup) s Q E := by
  refine catch' hm ?_
  intro f s' hf
  cases f with
  | error msg => exact Triple.bind (herr msg s' hf) fun _ _ he => Triple.fail' he
  | panic msg => exact hpanic msg s' hf

theorem discard {m : M σ α} {P : σ → Prop} (h : Triple m s (fun _ => P) E) :
    Triple (do let _ ← m) s (fun _ => P) E :=
  bind h fun _ _ hp => pure' hp

theorem of_discard {m : M σ α} {P : σ → Prop} (h : Triple (do let _ ← m) s (fun _ => P) E) :
    Triple m s (fun _ => P) E := by
  unfold Triple at h ⊢
  rw [M.exec_bind] at h
  rcases hm : m.exec s with ⟨f | a, s'⟩ <;> rw [hm] at h <;> exact h

theorem of_exec {m : M σ α} {a : α} {s' : σ} (h : m.exec s = (.ok a, s')) (hQ : Q a s') :
    Triple m s Q E := by
  unfold Triple; rw [h]; exact hQ

theorem of_fault {m : M σ α} {f : Fault} {s' : σ} (h : m.exec s = (.error f, s')) (hE : E f s') :
    Triple m s Q E := by
  unfold Triple; rw [h]; exact hE

theorem ok {m : M σ α} {a : α} {s' : σ} (h : Triple m s Q E) (hm : m.exec s = (.ok a, s')) :
    Q a s' := by
  unfold Triple at h; rw [hm] at h; exact h

theorem fault {m : M σ α} {f : Fault} {s' : σ} (h : Triple m s Q E)
    (hm : m.exec s = (.error f, s')) : E f s' := by
  unfold Triple at h; rw [hm] at h; exact h

theorem next {m : M σ α} {P : σ → Prop} (h : Triple m s (fun _ s' => P s') (fun _ s' => P s')) :
    P (m.next s) := by
  unfold Triple at h; unfold M.next
  generalize m.exec s = r at h ⊢
  rcases r with ⟨_ | a, s'⟩ <;> exact h

theorem need {opt : Option α} {msg : String} (hs : ∀ a, opt = some a → Q a s)
    (hn : opt = none → E (.error msg) s) : Triple (M.need opt msg) s Q E := by
  cases opt with
  | none => exact hn rfl
  | some a => exact hs a rfl

theorem expect {opt : Option α} {msg : String} (hs : ∀ a, opt = some a → Q a s)
    (hn : opt = none → E (.panic msg) s) : Triple (M.expect opt msg) s Q E := by
  cases opt with
  | none => exact hn rfl
  | some a => exact hs a rfl

theorem zoom {τ : Type} {get : σ → τ} {set : σ → τ → σ} {m : M τ α}
    (h : Triple m (get s) (fun a t => Q a (set s t)) (fun f t => E f (set s t))) :
    Triple (M.zoom get set m) s Q E := by
  unfold Triple at *
  rw [M.exec_zoom]
  generalize m.exec (get s) = r at h ⊢
  rcases r with ⟨_ | a, s'⟩ <;> exact h

theorem exists_ok {m : M σ α} (h : Triple m s Q (fun _ _ => False)) :
    ∃ a s', m.exec s = (.ok a, s') ∧ Q a s' := by
  rcases hm : m.exec s with ⟨f | a, s'⟩
  · exact (h.fault hm).elim
  · exact ⟨a, s', rfl, h.ok hm⟩

theorem forM {f : α → M σ PUnit} {I : List α → σ → Prop} {l : List α} (h0 : I l s)
    (hstep : ∀ x xs s', I (x :: xs) s' → Triple (f x) s' (fun _ s'' => I xs s'') E) :
    Triple (l.forM f) s (fun _ s' => I [] s') E := by
  induction l generalizing s with
  | nil => exact h0
  | cons x xs ih =>
    exact bind (hstep x xs s h0) fun _ s' h => ih h

end Triple
end

-- Runs

section
variable {σ α ω : Type} {s s' s₀ : σ}

/-- The call comes back to its caller, with a value or an error, in state `s'`. -/
def Returns (m : M σ α) (s s' : σ) : Prop :=
  ∃ r, m.exec s = (r, s') ∧ ∀ f, r = .error f → ¬f.IsPanic

theorem Returns.of_ok {m : M σ α} {a : α} (h : m.exec s = (.ok a, s')) : Returns m s s' :=
  ⟨_, h, nofun⟩

theorem Returns.inv {m : M σ α} {P : σ → Prop} (h : Returns m s s')
    (ht : Triple m s (fun _ t => P t) (fun f t => f.IsPanic ∨ P t)) : P s' := by
  obtain ⟨r | a, hm, hr⟩ := h
  · exact (ht.fault hm).resolve_left (hr _ rfl)
  · exact ht.ok hm

/-- States reached from `s₀` by calls that return, each made under `ok`. -/
def Reach (run : ω → M σ α) (ok : σ → ω → Prop) (s₀ : σ) : σ → Prop :=
  Relation.ReflTransGen (fun s s' => ∃ op, ok s op ∧ Returns (run op) s s') s₀

variable {run : ω → M σ α} {ok : σ → ω → Prop}

theorem Reach.tail {op : ω} (h : Reach run ok s₀ s) (hok : ok s op) (hr : Returns (run op) s s') :
    Reach run ok s₀ s' :=
  Relation.ReflTransGen.tail h ⟨op, hok, hr⟩

theorem Reach.inv {P : σ → Prop} (h : Reach run ok s₀ s) (h0 : P s₀)
    (hstep : ∀ s op, P s → ok s op →
      Triple (run op) s (fun _ t => P t) (fun f t => f.IsPanic ∨ P t)) : P s := by
  induction h with
  | refl => exact h0
  | tail _ hs ih =>
    obtain ⟨op, hok, hr⟩ := hs
    exact hr.inv (hstep _ op ih hok)

/-- The state after a list of calls. -/
def runAll (run : ω → M σ α) (ops : List ω) (s : σ) : σ := ops.foldl (fun s op => (run op).next s) s

/-- Whether every call of the list returns a value. -/
def allOk (run : ω → M σ α) : List ω → σ → Bool
  | [], _ => true
  | op :: ops, s => ((run op).exec s).1.toBool && allOk run ops ((run op).next s)

/-- Whether every call of the list is made under `ok`. -/
def allMeet (run : ω → M σ α) (ok : σ → ω → Prop) : List ω → σ → Prop
  | [], _ => True
  | op :: ops, s => ok s op ∧ allMeet run ok ops ((run op).next s)

instance instDecidableAllMeet (run : ω → M σ α) (ok : σ → ω → Prop) [∀ s op, Decidable (ok s op)] :
    (ops : List ω) → (s : σ) → Decidable (allMeet run ok ops s)
  | [], _ => .isTrue trivial
  | op :: ops, s =>
    have := instDecidableAllMeet run ok ops ((run op).next s)
    inferInstanceAs (Decidable (ok s op ∧ allMeet run ok ops ((run op).next s)))

theorem Reach.of_allOk {ops : List ω} (hok : allMeet run ok ops s)
    (h : allOk run ops s = true) : Reach run ok s (runAll run ops s) := by
  induction ops generalizing s with
  | nil => exact Relation.ReflTransGen.refl
  | cons op ops ih =>
    rw [allOk, Bool.and_eq_true] at h
    refine Relation.ReflTransGen.head ⟨op, hok.1, ?_⟩ (ih hok.2 h.2)
    rcases hm : (run op).exec s with ⟨f | a, s'⟩
    · simp [hm, Except.toBool] at h
    · have hnext : (run op).next s = s' := by rw [M.next, hm]
      show Returns (run op) s ((run op).next s)
      rw [hnext]
      exact Returns.of_ok hm

end

end Ruda
