import Ruda.Lib.Exec

/-!
# What a call maintains

`Maintains P m` says that `m` leaves `P` true from wherever it was, however it ends.
The rules follow the shape of the code, so that a method maintains what its parts do.
-/

namespace Ruda

variable {σ α β : Type} {P Q : σ → Prop}

def Maintains (P : σ → Prop) (m : M σ α) : Prop := ∀ s, P s → Triple m s (fun _ s' => P s') fun _ s' => P s'

theorem maintains_modify {f : σ → σ} (h : ∀ s, P s → P (f s)) : Maintains P (modify f : M σ PUnit) := h

namespace Maintains

theorem pure (a : α) : Maintains P (Pure.pure a : M σ α) := fun _ h => h

theorem fail (message : String) : Maintains P (M.fail message : M σ α) := fun _ h => h

theorem panic (message : String) : Maintains P (M.panic message : M σ α) := fun _ h => h

theorem get : Maintains P (MonadState.get : M σ σ) := fun _ h => h

theorem bind {m : M σ α} {f : α → M σ β} (hm : Maintains P m) (hf : ∀ a, Maintains P (f a)) : Maintains P (m >>= f) :=
  fun s hs => Triple.bind (hm s hs) fun a s' hs' => hf a s' hs'

theorem read {f : σ → M σ β} (h : ∀ s, P s → Triple (f s) s (fun _ s' => P s') fun _ s' => P s') :
    Maintains P (MonadState.get >>= f) :=
  fun s hs => Triple.get_bind (h s hs)

theorem ite {c : Prop} [Decidable c] {m n : M σ α} (ht : c → Maintains P m) (hf : ¬c → Maintains P n) :
    Maintains P (if c then m else n) :=
  fun s hs => Triple.ite (fun h => ht h s hs) fun h => hf h s hs

theorem failIf {bad : Prop} [Decidable bad] {message : String} : Maintains P (M.failIf bad message : M σ Unit) :=
  ite (fun _ => fail message) fun _ => pure ()

theorem need {opt : Option α} {message : String} : Maintains P (M.need opt message : M σ α) :=
  fun _ hs => Triple.need (fun _ _ => hs) fun _ => hs

theorem expect {opt : Option α} {message : String} : Maintains P (M.expect opt message : M σ α) :=
  fun _ hs => Triple.expect (fun _ _ => hs) fun _ => hs

theorem map {f : α → β} {m : M σ α} (hm : Maintains P m) : Maintains P (f <$> m) :=
  fun s hs => Triple.map' (hm s hs)

theorem tryCatch {m : M σ α} {handler : Fault → M σ α} (hm : Maintains P m) (hh : ∀ f, Maintains P (handler f)) :
    Maintains P (MonadExcept.tryCatch m handler) :=
  fun s hs => Triple.catch' (hm s hs) fun f s' hs' => hh f s' hs'

theorem onError {m : M σ α} {cleanup : M σ Unit} (hm : Maintains P m) (hc : Maintains P cleanup) :
    Maintains P (m.onError cleanup) :=
  fun s hs => Triple.onError (hm s hs) (fun _ s' hs' => hc s' hs') fun _ _ hs' => hs'

theorem next {m : M σ α} {s : σ} (hm : Maintains P m) (hs : P s) : P (m.next s) := (hm s hs).next

end Maintains

end Ruda
