import Ruda.Tensor.Shape
import Mathlib.Tactic.Ring

/-!
# When a reshape is as specified

Exactly the calls that are safe neither panic nor give a shape that the arguments do not
stand for: an invalid argument is an error as soon as it is read, and what comes before it
has to resolve without a panic.
-/

namespace Ruda.Tensor

theorem fits_cons {start factor : Nat} {factors : List Nat} (hstart : start < 2 ^ 64) :
    Fits start (factor :: factors) ↔ start * factor < 2 ^ 64 ∧ Fits (start * factor) factors := by
  constructor
  · intro h
    refine ⟨by simpa using h 1, fun k => ?_⟩
    simpa [Nat.mul_assoc] using h (k + 1)
  · rintro ⟨-, h⟩ k
    cases k with
    | zero => simpa using hstart
    | succ k => simpa [Nat.mul_assoc] using h k

theorem usizeMul_ok {ε : Type} {a b : Nat} (h : a * b < 2 ^ 64) : usizeMul a b = (.ok (a * b) : Res ε Nat) :=
  if_pos h

theorem usizeMul_panic {ε : Type} {a b : Nat} (h : ¬a * b < 2 ^ 64) : usizeMul a b = (.error .panic : Res ε Nat) :=
  if_neg h

theorem foldlM_usizeMul {ε : Type} (factors : List Nat) (start : Nat) (hstart : start < 2 ^ 64) :
    (Fits start factors → factors.foldlM usizeMul start = (.ok (start * factors.prod) : Res ε Nat)) ∧
      (¬Fits start factors → factors.foldlM usizeMul start = (.error .panic : Res ε Nat)) := by
  induction factors generalizing start with
  | nil =>
    refine ⟨fun _ => by simp [pure, Except.pure], fun h => absurd (fun k => ?_) h⟩
    simpa using hstart
  | cons factor factors ih =>
    rw [fits_cons hstart, List.foldlM_cons]
    by_cases hmul : start * factor < 2 ^ 64
    · rw [usizeMul_ok hmul, ok_bind]
      obtain ⟨hok, hpanic⟩ := ih (start * factor) hmul
      refine ⟨fun h => ?_, fun h => hpanic fun hf => h ⟨hmul, hf⟩⟩
      rw [hok h.2, List.prod_cons, Nat.mul_assoc]
    · rw [usizeMul_panic hmul]
      exact ⟨fun h => absurd h.1 hmul, fun _ => rfl⟩

theorem numElements_ok {ε : Type} {shape : Shape} (h : Fits 1 shape) : numElements shape = (.ok shape.prod : Res ε Nat) := by
  rw [numElements, (foldlM_usizeMul shape 1 (by decide)).1 h, Nat.one_mul]

theorem numElements_panic {ε : Type} {shape : Shape} (h : ¬Fits 1 shape) :
    numElements shape = (.error .panic : Res ε Nat) :=
  (foldlM_usizeMul shape 1 (by decide)).2 h

/-- Zeros of arguments from place `idx` on that are in the rank of the source. -/
def Zeros (shape : Shape) (idx : Nat) (args : List Int) : Prop :=
  ∀ k : Nat, args[k]? = some 0 → idx + k < shape.length

theorem zeros_cons {shape : Shape} {idx : Nat} {s : Int} {args : List Int} :
    Zeros shape idx (s :: args) ↔ (s = 0 → idx < shape.length) ∧ Zeros shape (idx + 1) args := by
  constructor
  · intro h
    refine ⟨fun hs => by simpa using h 0 (by simp [hs]), fun k hk => ?_⟩
    have := h (k + 1) (by simpa using hk)
    omega
  · rintro ⟨h0, h⟩ k hk
    cases k with
    | zero => simpa using h0 (by simpa using hk)
    | succ k =>
      have := h k (by simpa using hk)
      omega

/-- Where the first `-1` is, from place `idx` on. -/
def inferAt : (idx : Nat) → List Int → Option Nat
  | _, [] => none
  | idx, s :: args => if s = -1 then some idx else inferAt (idx + 1) args

/-- What the loop gives for arguments of which `front` are read. -/
structure Ends (shape : Shape) (idx : Nat) (st : Resolved) (args front : List Int) (res : Res Invalid Resolved) :
    Prop where
  ok : Zeros shape idx front → Fits st.newSize (known shape idx front) → front = args →
    res = .ok ⟨st.inferIndex.or (inferAt idx args), st.dims ++ known shape idx args,
      st.newSize * (known shape idx args).prod⟩
  err : Zeros shape idx front → Fits st.newSize (known shape idx front) → front ≠ args → ∃ e, res = .error (.err e)
  panic : ¬(Zeros shape idx front ∧ Fits st.newSize (known shape idx front)) → res = .error .panic

theorem Ends.cons {shape : Shape} {idx : Nat} {st : Resolved} {s : Int} {args front : List Int} {dim : Nat}
    (hsize : st.newSize < 2 ^ 64) (hzero : s = 0 → idx < shape.length) (hneg : s ≠ -1)
    (hdim : (if 0 < s then s.toNat else if s = 0 then (shape[idx]?).getD 0 else 1) = dim)
    (h : st.newSize * dim < 2 ^ 64 →
      Ends shape (idx + 1) { st with newSize := st.newSize * dim, dims := st.dims ++ [dim] } args front
        (resolve shape (idx + 1) { st with newSize := st.newSize * dim, dims := st.dims ++ [dim] } args)) :
    Ends shape idx st (s :: args) (s :: front) (do
      let newSize ← usizeMul st.newSize dim
      resolve shape (idx + 1) { st with newSize, dims := st.dims ++ [dim] } args) := by
  have hknown : ∀ l, known shape idx (s :: l) = dim :: known shape (idx + 1) l := fun l => by rw [known, hdim]
  by_cases hmul : st.newSize * dim < 2 ^ 64
  · obtain ⟨hok, herr, hpanic⟩ := h hmul
    rw [usizeMul_ok hmul, ok_bind]
    refine ⟨fun hz hf he => ?_, fun hz hf he => ?_, fun hno => ?_⟩
    · rw [zeros_cons] at hz
      rw [hknown, fits_cons hsize] at hf
      rw [hok hz.2 hf.2 (List.cons.inj he).2, hknown, inferAt, if_neg hneg]
      simp [Nat.mul_assoc]
    · rw [zeros_cons] at hz
      rw [hknown, fits_cons hsize] at hf
      exact herr hz.2 hf.2 fun hc => he (by rw [hc])
    · rw [zeros_cons, hknown, fits_cons hsize] at hno
      exact hpanic fun hc => hno ⟨⟨hzero, hc.1⟩, hmul, hc.2⟩
  · rw [usizeMul_panic hmul]
    have hnot : ¬Fits st.newSize (known shape idx (s :: front)) := by
      rw [hknown, fits_cons hsize]
      exact fun hc => hmul hc.1
    exact ⟨fun _ hf => absurd hf hnot, fun _ hf => absurd hf hnot, fun _ => rfl⟩

theorem resolve_ends (shape : Shape) (args : List Int) (idx : Nat) (st : Resolved) (hsize : st.newSize < 2 ^ 64) :
    Ends shape idx st args (accepted st.inferIndex.isSome args) (resolve shape idx st args) := by
  induction args generalizing idx st with
  | nil =>
    refine ⟨fun _ _ _ => ?_, fun _ _ h => absurd rfl h, fun h => absurd ⟨nofun, fun k => ?_⟩ h⟩
    · simp [resolve, inferAt, known]
    · simpa [accepted, known] using hsize
  | cons s args ih =>
    by_cases hpos : 0 < s
    · have hfront : accepted st.inferIndex.isSome (s :: args) = s :: accepted st.inferIndex.isSome args := by
        rw [accepted, if_neg (by omega), decide_eq_false (by omega : s ≠ -1), Bool.or_false]
      rw [hfront, resolve, if_pos hpos]
      exact .cons hsize (fun hz => by omega) (by omega) (if_pos hpos) fun hmul => ih (idx + 1) _ hmul
    · by_cases hzero : s = 0
      · subst hzero
        have hfront : accepted st.inferIndex.isSome (0 :: args) = 0 :: accepted st.inferIndex.isSome args := by
          rw [accepted, if_neg (by omega), decide_eq_false (by omega), Bool.or_false]
        rw [hfront, resolve, if_neg hpos, if_pos rfl]
        by_cases hidx : idx < shape.length
        · rw [List.getElem?_eq_getElem hidx]
          refine .cons hsize (fun _ => hidx) (by omega) ?_ fun hmul => ih (idx + 1) _ hmul
          rw [if_neg hpos, if_pos rfl, List.getElem?_eq_getElem hidx, Option.getD_some]
        · rw [List.getElem?_eq_none (Nat.le_of_not_lt hidx)]
          have hnot : ¬Zeros shape idx (0 :: accepted st.inferIndex.isSome args) := by
            rw [zeros_cons]
            exact fun hc => hidx (hc.1 rfl)
          exact ⟨fun hz => absurd hz hnot, fun hz => absurd hz hnot, fun _ => rfl⟩
      · by_cases hinfer : s = -1
        · subst hinfer
          rw [resolve, if_neg hpos, if_neg hzero, if_pos rfl]
          cases hi : st.inferIndex with
          | some place =>
            have hfront : accepted (some place).isSome (-1 :: args) = [] := by simp [accepted]
            rw [hfront]
            refine ⟨fun _ _ he => (nomatch he), fun _ _ _ => ⟨_, rfl⟩, fun h => absurd ⟨nofun, fun k => ?_⟩ h⟩
            simpa [known] using hsize
          | none =>
            have hfront : accepted (none : Option Nat).isSome (-1 :: args) = -1 :: accepted true args := by
              simp [accepted]
            have hknown : ∀ l, known shape idx (-1 :: l) = 1 :: known shape (idx + 1) l := fun l => by simp [known]
            obtain ⟨hok, herr, hpanic⟩ := ih (idx + 1)
              { st with inferIndex := some idx, dims := st.dims ++ [1] } hsize
            rw [hfront]
            refine ⟨fun hz hf he => ?_, fun hz hf he => ?_, fun hno => ?_⟩
            · rw [zeros_cons] at hz
              rw [hknown, fits_cons hsize, Nat.mul_one] at hf
              simp only [hok hz.2 hf.2 (List.cons.inj he).2, hknown, inferAt, if_true, hi]
              simp
            · rw [zeros_cons] at hz
              rw [hknown, fits_cons hsize, Nat.mul_one] at hf
              exact herr hz.2 hf.2 fun hc => he (congrArg (-1 :: ·) hc)
            · rw [zeros_cons, hknown, fits_cons hsize, Nat.mul_one] at hno
              exact hpanic fun hc => hno ⟨⟨fun h => absurd h (by omega), hc.1⟩, hsize, hc.2⟩
        · have hfront : accepted st.inferIndex.isSome (s :: args) = [] := by
            rw [accepted, if_pos (.inl (by omega))]
          rw [hfront, resolve, if_neg hpos, if_neg hzero, if_neg hinfer]
          refine ⟨fun _ _ he => (nomatch he), fun _ _ _ => ⟨_, rfl⟩, fun h => absurd ⟨nofun, fun k => ?_⟩ h⟩
          simpa [known] using hsize

theorem accepted_eq_iff (inferred : Bool) (args : List Int) :
    accepted inferred args = args ↔ (∀ arg ∈ args, -1 ≤ arg) ∧
      (∀ i j : Nat, args[i]? = some (-1) → args[j]? = some (-1) → i = j) ∧ (inferred → -1 ∉ args) := by
  induction args generalizing inferred with
  | nil => simp [accepted]
  | cons s args ih =>
    rw [accepted]
    split
    · rename_i hbad
      refine ⟨nofun, fun ⟨hall, _, hnone⟩ => ?_⟩
      rcases hbad with hlt | ⟨rfl, hinf⟩
      · have := hall s List.mem_cons_self
        omega
      · exact absurd List.mem_cons_self (hnone hinf)
    · rename_i hgood
      push Not at hgood
      rw [List.cons.injEq, ih]
      constructor
      · rintro ⟨-, hall, hone, hnone⟩
        have hhead : s = -1 → -1 ∉ args := fun hs => hnone (by simp [hs])
        refine ⟨fun arg harg => ?_, fun i j hi hj => ?_, fun hinf hmem => ?_⟩
        · rcases List.mem_cons.mp harg with rfl | harg
          · exact hgood.1
          · exact hall arg harg
        · match i, j with
          | 0, 0 => rfl
          | 0, j + 1 =>
            have hj : args[j]? = some (-1) := by simpa using hj
            exact absurd (List.mem_of_getElem? hj) (hhead (by simpa using hi))
          | i + 1, 0 =>
            have hi : args[i]? = some (-1) := by simpa using hi
            exact absurd (List.mem_of_getElem? hi) (hhead (by simpa using hj))
          | i + 1, j + 1 => exact congrArg _ (hone i j hi hj)
        · rcases List.mem_cons.mp hmem with hs | hmem
          · exact hgood.2 hs.symm hinf
          · exact hnone (by simp [hinf]) hmem
      · rintro ⟨hall, hone, hnone⟩
        refine ⟨rfl, fun arg harg => hall arg (List.mem_cons_of_mem _ harg), fun i j hi hj => ?_, fun hor hmem => ?_⟩
        · have := hone (i + 1) (j + 1) hi hj
          omega
        · rw [Bool.or_eq_true, decide_eq_true_eq] at hor
          rcases hor with hinf | rfl
          · exact hnone hinf (List.mem_cons_of_mem _ hmem)
          · obtain ⟨j, hj⟩ := List.mem_iff_getElem?.mp hmem
            have := hone 0 (j + 1) rfl hj
            omega

theorem known_length (shape : Shape) (args : List Int) (idx : Nat) : (known shape idx args).length = args.length := by
  induction args generalizing idx with
  | nil => rfl
  | cons s args ih => rw [known, List.length_cons, List.length_cons, ih]

theorem known_getElem? (shape : Shape) (args : List Int) (idx k : Nat) :
    (known shape idx args)[k]? = (args[k]?).map fun s =>
      if 0 < s then s.toNat else if s = 0 then (shape[idx + k]?).getD 0 else 1 := by
  induction args generalizing idx k with
  | nil => rfl
  | cons s args ih =>
    cases k with
    | zero => simp [known]
    | succ k => simp [known, ih, Nat.add_comm, Nat.add_left_comm]

theorem inferAt_none {args : List Int} {idx : Nat} : inferAt idx args = none ↔ -1 ∉ args := by
  induction args generalizing idx with
  | nil => simp [inferAt]
  | cons s args ih =>
    rw [inferAt]
    split
    · rename_i hs
      simp [hs]
    · rename_i hs
      simp [ih, Ne.symm hs]

theorem inferAt_some {args : List Int} {idx place : Nat} (h : inferAt idx args = some place) :
    ∃ k, place = idx + k ∧ args[k]? = some (-1) := by
  induction args generalizing idx with
  | nil => cases h
  | cons s args ih =>
    rw [inferAt] at h
    split at h
    · rename_i hs
      cases h
      exact ⟨0, rfl, by simp [hs]⟩
    · obtain ⟨k, rfl, hk⟩ := ih h
      exact ⟨k + 1, by omega, by simpa using hk⟩

theorem prod_set_one {l : List Nat} {k : Nat} (h : l[k]? = some 1) (dim : Nat) : (l.set k dim).prod = l.prod * dim := by
  obtain ⟨hk, h1⟩ := List.getElem?_eq_some_iff.mp h
  have hset : l.set k 1 = l := by
    rw [← h1]
    exact List.set_getElem_self hk
  have hone := List.prod_set l k 1
  rw [hset, if_pos hk, Nat.mul_one] at hone
  rw [List.prod_set, if_pos hk, hone]
  ring

section Result

variable {shape : Shape} {args : List Int} {s : Shape}

theorem Resolves.getElem?_eq (h : Resolves shape args s) {k : Nat} (hk : args[k]? ≠ some (-1)) :
    s[k]? = (known shape 0 args)[k]? := by
  rw [known_getElem?, Nat.zero_add]
  cases ha : args[k]? with
  | none =>
    rw [Option.map_none, List.getElem?_eq_none_iff, h.rank]
    exact List.getElem?_eq_none_iff.mp ha
  | some arg =>
    rw [Option.map_some]
    by_cases hpos : 0 < arg
    · rw [if_pos hpos, h.kept k arg ha hpos]
    · by_cases hzero : arg = 0
      · subst hzero
        obtain ⟨hlt, hs⟩ := h.copied k ha
        rw [if_neg hpos, if_pos rfl, hs, List.getElem?_eq_getElem hlt, Option.getD_some]
      · have := h.allowed arg (List.mem_of_getElem? ha)
        exact absurd (by rw [ha, show arg = -1 by omega]) hk

theorem resolves_of (hacc : accepted false args = args) (hz : Zeros shape 0 args) (hlen : s.length = args.length)
    (hs : ∀ k : Nat, args[k]? ≠ some (-1) → s[k]? = (known shape 0 args)[k]?) (hsize : s.prod = shape.prod)
    (hinf : ∀ (idx dim : Nat), args[idx]? = some (-1) → (s.set idx dim).prod = shape.prod → s[idx]? = some dim) :
    Resolves shape args s := by
  obtain ⟨hall, hone, -⟩ := (accepted_eq_iff false args).mp hacc
  refine ⟨hlen, hall, hone, fun idx arg ha hpos => ?_, fun idx ha => ?_, hsize, hinf⟩
  · rw [hs idx (by rw [ha]; simp; omega), known_getElem?, ha, Option.map_some, if_pos hpos]
  · have hlt := hz idx ha
    rw [Nat.zero_add] at hlt
    refine ⟨hlt, ?_⟩
    rw [hs idx (by rw [ha]; simp), known_getElem?, ha, Option.map_some, if_neg (by omega), if_pos rfl, Nat.zero_add,
      List.getElem?_eq_getElem hlt, Option.getD_some]

theorem resolves_iff_known (hacc : accepted false args = args) (hz : Zeros shape 0 args) (hno : -1 ∉ args) :
    Resolves shape args s ↔ s = known shape 0 args ∧ (known shape 0 args).prod = shape.prod := by
  have hne : ∀ k : Nat, args[k]? ≠ some (-1) := fun k hk => hno (List.mem_of_getElem? hk)
  constructor
  · intro h
    have hs : s = known shape 0 args := List.ext_getElem? fun k => h.getElem?_eq (hne k)
    exact ⟨hs, hs ▸ h.size⟩
  · rintro ⟨rfl, hsize⟩
    exact resolves_of hacc hz (known_length shape args 0) (fun _ _ => rfl) hsize fun k _ hk => absurd hk (hne k)

theorem resolves_iff_set (hacc : accepted false args = args) (hz : Zeros shape 0 args) {place : Nat}
    (hplace : args[place]? = some (-1)) :
    Resolves shape args s ↔ ∃ dim, s = (known shape 0 args).set place dim ∧
      (known shape 0 args).prod * dim = shape.prod ∧ (known shape 0 args).prod ≠ 0 := by
  obtain ⟨-, hone, -⟩ := (accepted_eq_iff false args).mp hacc
  have hk1 : (known shape 0 args)[place]? = some 1 := by
    rw [known_getElem?, hplace, Option.map_some, if_neg (by omega), if_neg (by omega)]
  have hlt : place < (known shape 0 args).length := (List.getElem?_eq_some_iff.mp hk1).1
  constructor
  · intro h
    have hlen : place < s.length := by
      rw [h.rank, ← known_length shape args 0]
      exact hlt
    have hs : s = (known shape 0 args).set place s[place] := by
      refine List.ext_getElem? fun k => ?_
      by_cases hk : place = k
      · subst hk
        rw [List.getElem?_set_self hlt, List.getElem?_eq_getElem hlen]
      · rw [List.getElem?_set_ne hk]
        exact h.getElem?_eq fun hc => hk (hone place k hplace hc)
    have hprod : ∀ dim, (s.set place dim).prod = (known shape 0 args).prod * dim := by
      intro dim
      rw [hs, List.set_set, prod_set_one hk1]
    have hsize : (known shape 0 args).prod * s[place] = shape.prod := by
      rw [← hprod, List.set_getElem_self hlen, h.size]
    refine ⟨s[place], hs, hsize, fun hzero => ?_⟩
    -- An empty rest would leave the dimension open.
    have hany := h.inferred place (s[place] + 1) hplace (by rw [hprod, ← hsize, hzero, Nat.zero_mul, Nat.zero_mul])
    rw [List.getElem?_eq_getElem hlen, Option.some_inj] at hany
    omega
  · rintro ⟨dim, rfl, hsize, hne⟩
    refine resolves_of hacc hz (by rw [List.length_set, known_length]) (fun k hk => ?_)
      ((prod_set_one hk1 dim).trans hsize) (fun idx other hidx hother => ?_)
    · exact List.getElem?_set_ne (by rintro rfl; exact hk hplace)
    · obtain rfl := hone idx place hidx hplace
      rw [List.set_set, prod_set_one hk1, ← hsize] at hother
      rw [List.getElem?_set_self hlt, Nat.eq_of_mul_eq_mul_left (Nat.pos_of_ne_zero hne) hother]

end Result

theorem Safe.specified {shape : Shape} {args : List Int} (h : Safe shape args) : Specified shape args := by
  have hends := resolve_ends shape args 0 ⟨none, [], 1⟩ (by decide)
  have hz : Zeros shape 0 (accepted false args) := fun k hk => by
    rw [Nat.zero_add]
    exact h.zeros k hk
  by_cases hacc : accepted false args = args
  · have hres := hends.ok hz h.fits hacc
    rw [hacc] at hz
    simp only [Option.none_or, List.nil_append, Nat.one_mul] at hres
    have hnum : (numElements shape : Res Invalid Nat) = .ok shape.prod := numElements_ok (h.source hacc)
    cases hinfer : inferAt 0 args with
    | none =>
      have hno := inferAt_none.mp hinfer
      have hcall : reshape shape args = if shape.prod ≠ (known shape 0 args).prod then
          .error (.err (.sizeDiffers shape (known shape 0 args))) else .ok (known shape 0 args) := by
        simp only [reshape, hres, hnum, hinfer, ok_bind]
      refine ⟨?_, fun s => ?_⟩
      · rw [hcall]
        split <;> simp
      · rw [hcall, resolves_iff_known hacc hz hno]
        split
        · rename_i hne
          exact ⟨nofun, fun hs => absurd hs.2.symm hne⟩
        · rename_i heq
          push Not at heq
          exact ⟨fun hs => ⟨(Except.ok.inj hs).symm, heq.symm⟩, fun hs => by rw [hs.1]⟩
    | some place =>
      obtain ⟨k, hk, hplace⟩ := inferAt_some hinfer
      rw [Nat.zero_add] at hk
      subst hk
      have hcall : reshape shape args =
          if ¬isMultipleOf shape.prod (known shape 0 args).prod then .error (.err (.cannotInfer shape args))
          else if (known shape 0 args).prod = 0 then .error .panic
          else .ok ((known shape 0 args).set place (shape.prod / (known shape 0 args).prod)) := by
        simp only [reshape, hres, hnum, hinfer, ok_bind]
      by_cases hzero : (known shape 0 args).prod = 0
      · have hsource : shape.prod ≠ 0 := fun hc => h.infer hacc (List.mem_of_getElem? hplace) hc hzero
        rw [if_pos (by simp [isMultipleOf, hzero, hsource])] at hcall
        refine ⟨by rw [hcall]; simp, fun s => ?_⟩
        rw [hcall, resolves_iff_set hacc hz hplace]
        exact ⟨nofun, fun ⟨_, _, _, hne⟩ => absurd hzero hne⟩
      · rw [if_neg hzero] at hcall
        refine ⟨by rw [hcall]; split <;> simp, fun s => ?_⟩
        rw [hcall, resolves_iff_set hacc hz hplace]
        split
        · rename_i hnot
          refine ⟨nofun, fun ⟨dim, _, hdim, _⟩ => absurd ?_ hnot⟩
          simp [isMultipleOf, hzero, ← hdim]
        · rename_i hmul
          simp only [isMultipleOf, hzero, if_false, decide_eq_true_eq, not_not] at hmul
          constructor
          · intro hs
            exact ⟨_, (Except.ok.inj hs).symm, Nat.mul_div_cancel' (Nat.dvd_of_mod_eq_zero hmul), hzero⟩
          · rintro ⟨dim, rfl, hdim, -⟩
            rw [← hdim, Nat.mul_div_cancel_left dim (Nat.pos_of_ne_zero hzero)]
  · obtain ⟨e, hres⟩ := hends.err hz h.fits hacc
    have hcall : reshape shape args = .error (.err e) := by simp only [reshape, hres, error_bind]
    refine ⟨by rw [hcall]; simp, fun s => ?_⟩
    rw [hcall]
    exact ⟨nofun, fun hr => absurd ((accepted_eq_iff false args).mpr ⟨hr.allowed, hr.once, nofun⟩) hacc⟩

theorem Specified.safe {shape : Shape} {args : List Int} (h : Specified shape args) : Safe shape args := by
  have hends := resolve_ends shape args 0 ⟨none, [], 1⟩ (by decide)
  have hread : Zeros shape 0 (accepted false args) ∧ Fits 1 (known shape 0 (accepted false args)) := by
    by_contra hno
    exact h.total (by simp only [reshape, hends.panic hno, error_bind])
  have hres := fun hacc => hends.ok hread.1 hread.2 hacc
  simp only [Option.none_or, List.nil_append, Nat.one_mul] at hres
  have hsource : accepted false args = args → Fits 1 shape := by
    intro hacc
    by_contra hno
    exact h.total (by simp only [reshape, hres hacc, ok_bind, numElements_panic hno, error_bind])
  refine ⟨fun k hk => ?_, hread.2, hsource, fun hacc hmem hprod hzero => ?_⟩
  · have := hread.1 k hk
    omega
  · cases hinfer : inferAt 0 args with
    | none => exact inferAt_none.mp hinfer hmem
    | some place =>
      refine h.total ?_
      simp only [reshape, hres hacc, hinfer, ok_bind, numElements_ok (hsource hacc), hprod, hzero]
      rfl

theorem reshape_specified_iff (shape : Shape) (args : List Int) : Specified shape args ↔ Safe shape args :=
  ⟨Specified.safe, Safe.specified⟩

/-- A zero past the rank of the source. -/
theorem reshape_zero_panics : ¬Specified [2, 3] [2, 3, 0] := by
  intro h
  exact h.total (by decide)

end Ruda.Tensor
