import Ruda.Lib.Fallible

/-!
# Chunks, and steps that give values

A list in chunks of one length, the last of them as long as what is left, and the values
that a state gives step after step, against a sequence that says which they are.
-/

namespace Ruda

variable {α β ε σ : Type}

def chunk (n : Nat) (l : List α) (k : Nat) : List α := (l.drop (k * n)).take n

def chunks (n : Nat) (l : List α) : List (List α) := (List.range (divCeil l.length n)).map (chunk n l)

theorem flatten_chunks_take {n : Nat} (l : List α) (k : Nat) :
    ((List.range k).map (chunk n l)).flatten = l.take (k * n) := by
  induction k with
  | zero => simp
  | succ k ih =>
    rw [List.range_succ, List.map_append, List.flatten_append, ih, Nat.succ_mul, List.take_add]
    simp [chunk]

theorem flatten_chunks {n : Nat} (hn : 0 < n) (l : List α) : (chunks n l).flatten = l := by
  rw [chunks, flatten_chunks_take, List.take_of_length_le ((divCeil_le_iff hn).mp le_rfl)]

theorem length_chunks (n : Nat) (l : List α) : (chunks n l).length = divCeil l.length n := by
  rw [chunks, List.length_map, List.length_range]

theorem chunks_nil {n : Nat} (hn : 0 < n) : chunks n ([] : List α) = [] := by
  simp [chunks, divCeil, Nat.div_eq_of_lt (by omega : n - 1 < n)]

theorem chunks_cons {n : Nat} (hn : 0 < n) {l : List α} (h : l ≠ []) :
    chunks n l = l.take n :: chunks n (l.drop n) := by
  have hlen : 0 < l.length := List.length_pos_of_ne_nil h
  have hcount : divCeil l.length n = divCeil (l.drop n).length n + 1 := by
    rw [List.length_drop]
    unfold divCeil
    rcases Nat.le_total l.length n with hle | hle
    · rw [Nat.sub_eq_zero_of_le hle, Nat.div_eq_of_lt (by omega : 0 + n - 1 < n)]
      exact (Nat.div_eq_iff hn).mpr ⟨by omega, by omega⟩
    · rw [show l.length + n - 1 = l.length - n + n - 1 + n by omega, Nat.add_div_right _ hn]
  rw [chunks, hcount, List.range_succ_eq_map, List.map_cons, List.map_map]
  refine congrArg₂ _ (by simp [chunk]) (List.map_congr_left fun k _ => ?_)
  simp only [Function.comp, chunk, List.drop_drop, Nat.succ_mul, Nat.add_comm]

theorem flatMap_chunks_perm {n : Nat} (hn : 0 < n) {f : List α → List α} (hf : ∀ l, (f l).Perm l) (l : List α) :
    ((chunks n l).flatMap f).Perm l := by
  have hflat : (chunks n l).flatMap id = l := by rw [List.flatMap_id, flatten_chunks hn]
  conv => rhs; rw [← hflat]
  exact List.Perm.flatMap_left _ fun c _ => hf c

theorem range_mul (a b : Nat) : List.range (a * b) = (List.range a).flatMap fun i => List.range' (i * b) b := by
  induction a with
  | zero => simp
  | succ a ih =>
    rw [Nat.succ_mul, List.range_add, ih, List.range_succ, List.flatMap_append, List.flatMap_singleton,
      List.range'_eq_map_range]

-- Steps that give values

theorem mapM_total {f : α → Res ε β} {l : List α} (h : ∀ a ∈ l, ∃ b, f a = .ok b) : ∃ bs, l.mapM f = .ok bs := by
  induction l with
  | nil => exact ⟨[], rfl⟩
  | cons a l ih =>
    obtain ⟨b, hb⟩ := h a List.mem_cons_self
    obtain ⟨bs, hbs⟩ := ih fun a ha => h a (List.mem_cons_of_mem _ ha)
    exact ⟨b :: bs, mapM_ok.mpr (.cons hb (mapM_ok.mp hbs))⟩

theorem mapM_congr {f g : α → Res ε β} {l : List α} (h : ∀ a ∈ l, f a = g a) : l.mapM f = l.mapM g := by
  induction l with
  | nil => rfl
  | cons a l ih =>
    rw [List.mapM_cons, List.mapM_cons, h a List.mem_cons_self, ih fun a ha => h a (List.mem_cons_of_mem _ ha)]

theorem mapM_getElem? {f : α → Res ε β} {l : List α} {bs : List β} (h : l.mapM f = .ok bs) {k : Nat} {a : α}
    (ha : l[k]? = some a) : ∃ b, bs[k]? = some b ∧ f a = .ok b := by
  induction mapM_ok.mp h generalizing k with
  | nil => exact nomatch ha
  | @cons x y l bs hx hl ih =>
    cases k with
    | zero => exact ⟨y, rfl, Option.some.inj ha ▸ hx⟩
    | succ k => exact ih (mapM_ok.mpr hl) ha

theorem forall₂_getElem? {R : α → β → Prop} {l : List α} {l' : List β} (h : List.Forall₂ R l l') {k : Nat} {b : β}
    (hb : l'[k]? = some b) : ∃ a, l[k]? = some a ∧ R a b := by
  induction h generalizing k with
  | nil => exact nomatch hb
  | @cons x y l l' hxy _ ih =>
    cases k with
    | zero => exact ⟨x, rfl, Option.some.inj hb ▸ hxy⟩
    | succ k => exact ih hb

theorem mapM_flatMap {γ : Type} (f : β → Res ε γ) (g : α → List β) (l : List α) :
    (l.flatMap g).mapM f = List.flatten <$> l.mapM fun a => (g a).mapM f := by
  induction l with
  | nil => rfl
  | cons a l ih =>
    rw [List.flatMap_cons, List.mapM_append, ih, List.mapM_cons]
    cases (g a).mapM f with
    | error e => rfl
    | ok bs =>
      cases l.mapM fun a => (g a).mapM f with
      | error e => rfl
      | ok rows => rfl

-- Lists of options

theorem option_mapM_eq {α β : Type} {f : α → Option β} {l : List α} {l' : List β} :
    l.mapM f = some l' ↔ List.Forall₂ (fun x y => f x = some y) l l' := by
  induction l generalizing l' with
  | nil => exact ⟨fun h => Option.some.inj h ▸ .nil, fun h => by cases h; rfl⟩
  | cons x l ih =>
    rw [List.mapM_cons, Option.bind_eq_bind, Option.bind_eq_some_iff]
    constructor
    · rintro ⟨y, hy, h⟩
      obtain ⟨ys, hys, h⟩ := Option.bind_eq_some_iff.mp h
      obtain rfl := Option.some.inj h
      exact .cons hy (ih.mp hys)
    · rintro (_ | ⟨hy, hys⟩)
      exact ⟨_, hy, Option.bind_eq_some_iff.mpr ⟨_, ih.mpr hys, rfl⟩⟩

theorem option_mapM_congr {α β : Type} {f g : α → Option β} {l : List α} (h : ∀ x ∈ l, f x = g x) : l.mapM f = l.mapM g := by
  induction l with
  | nil => rfl
  | cons x l ih =>
    rw [List.mapM_cons, List.mapM_cons, h x List.mem_cons_self, ih fun x hx => h x (List.mem_cons_of_mem _ hx)]

theorem option_mapM_mono {α β : Type} {f g : α → Option β} (h : ∀ x y, f x = some y → g x = some y) {l : List α} {l' : List β}
    (hl : l.mapM f = some l') : l.mapM g = some l' :=
  option_mapM_eq.mpr ((option_mapM_eq.mp hl).imp h)

theorem option_mapM_mem {α β : Type} {f : α → Option β} {l : List α} {l' : List β} (hl : l.mapM f = some l') {x : α}
    (hx : x ∈ l) : ∃ y, f x = some y := by
  induction option_mapM_eq.mp hl with
  | nil => cases hx
  | @cons y z l l' hy htail ih =>
    rcases List.mem_cons.mp hx with rfl | hx
    · exact ⟨z, hy⟩
    · exact ih (option_mapM_eq.mpr htail) hx

theorem option_mapM_mem_of {α β : Type} {f : α → Option β} {l : List α} {l' : List β} (hl : l.mapM f = some l') {y : β}
    (hy : y ∈ l') : ∃ x, f x = some y := by
  induction option_mapM_eq.mp hl with
  | nil => cases hy
  | @cons x z l l' hx htail ih =>
    rcases List.mem_cons.mp hy with rfl | hy
    · exact ⟨x, hx⟩
    · exact ih (option_mapM_eq.mpr htail) hy

theorem common_fuel {α β : Type} {f : Nat → α → Option β} (hmono : ∀ n x y, f n x = some y → f (n + 1) x = some y)
    {l : List α} {l' : List β} (h : List.Forall₂ (fun x y => ∃ n, f n x = some y) l l') : ∃ n, l.mapM (f n) = some l' := by
  have hle : ∀ n m x y, n ≤ m → f n x = some y → f m x = some y := by
    intro n m x y hnm hn
    induction hnm with
    | refl => exact hn
    | step _ ih => exact hmono _ x y ih
  induction h with
  | nil => exact ⟨0, rfl⟩
  | @cons x y l l' hx _ ih =>
    obtain ⟨n, hn⟩ := hx
    obtain ⟨m, hm⟩ := ih
    refine ⟨max n m, option_mapM_eq.mpr (.cons (hle _ _ x y (le_max_left n m) hn) ?_)⟩
    exact (option_mapM_eq.mp hm).imp fun x y => hle _ _ x y (le_max_right n m)

theorem option_mapM_none {α β : Type} {f : α → Option β} {l : List α} {x : α} (hx : x ∈ l) (hf : f x = none) : l.mapM f = none := by
  cases hl : l.mapM f with
  | none => rfl
  | some l' =>
    obtain ⟨y, hy⟩ := option_mapM_mem hl hx
    exact nomatch hf.symm.trans hy

theorem option_mapM_bind {α β γ : Type} (g : α → Option β) (f : β → Option γ) (l : List α) :
    ((l.mapM g).bind fun l' => l'.mapM f) = l.mapM fun x => (g x).bind f := by
  induction l with
  | nil => rfl
  | cons x l ih =>
    rw [List.mapM_cons, List.mapM_cons, ← ih]
    cases hg : g x with
    | none => rfl
    | some y =>
      cases l.mapM g with
      | none => exact (Option.bind_fun_none (f y)).symm
      | some ys => exact List.mapM_cons

-- Values of steps

/-- The values of `n` steps. -/
def emit (f : σ → Res ε (α × σ)) : Nat → σ → Res ε (List α × σ)
  | 0, s => .ok ([], s)
  | n + 1, s => f s >>= fun r => emit f n r.2 >>= fun rs => .ok (r.1 :: rs.1, rs.2)

/-- From a state at place `p` a step gives value `p`, or stops as the value does. -/
def Follows (f : σ → Res ε (α × σ)) (g : Nat → Res ε α) (At : Nat → σ → Prop) : Prop :=
  ∀ p s, At p s → (∀ a, g p = .ok a → ∃ s', f s = .ok (a, s') ∧ At (p + 1) s') ∧ ∀ e, g p = .error e → f s = .error e

theorem Follows.emit {f : σ → Res ε (α × σ)} {g : Nat → Res ε α} {At : Nat → σ → Prop} (h : Follows f g At) (n : Nat)
    {p : Nat} {s : σ} (hs : At p s) :
    (∀ as, (List.range' p n).mapM g = .ok as → ∃ s', Ruda.emit f n s = .ok (as, s') ∧ At (p + n) s') ∧
      ∀ e, (List.range' p n).mapM g = .error e → Ruda.emit f n s = .error e := by
  induction n generalizing p s with
  | zero =>
    constructor
    · intro as has
      obtain rfl := Except.ok.inj has
      exact ⟨s, rfl, hs⟩
    · exact nofun
  | succ n ih =>
    rw [List.range'_succ, List.mapM_cons, Ruda.emit]
    cases hg : g p with
    | error e =>
      constructor
      · exact nofun
      · rintro _ ⟨⟩
        rw [(h p s hs).2 e hg, error_bind]
    | ok a =>
      obtain ⟨s₁, hf, hs₁⟩ := (h p s hs).1 a hg
      rw [hf, ok_bind, ok_bind]
      obtain ⟨hok, herr⟩ := ih hs₁
      cases hrest : (List.range' (p + 1) n).mapM g with
      | error e =>
        constructor
        · exact nofun
        · rintro _ ⟨⟩
          rw [herr e hrest, error_bind]
      | ok as =>
        obtain ⟨s₂, hemit, hs₂⟩ := hok as hrest
        constructor
        · rintro _ ⟨⟩
          refine ⟨s₂, by rw [hemit, ok_bind], ?_⟩
          rwa [Nat.add_comm n 1, ← Nat.add_assoc]
        · exact nofun

theorem Follows.values {f : σ → Res ε (α × σ)} {g : Nat → Res ε α} {At : Nat → σ → Prop} (h : Follows f g At) (n : Nat)
    {p : Nat} {s : σ} (hs : At p s) : Prod.fst <$> Ruda.emit f n s = (List.range' p n).mapM g := by
  obtain ⟨hok, herr⟩ := h.emit n hs
  cases hg : (List.range' p n).mapM g with
  | ok as =>
    obtain ⟨s', hemit, -⟩ := hok as hg
    rw [hemit]
    rfl
  | error e =>
    rw [herr e hg]
    rfl

theorem Follows.reaches {f : σ → Res ε (α × σ)} {g : Nat → Res ε α} {At : Nat → σ → Prop} (h : Follows f g At) {n : Nat}
    {p : Nat} {s s' : σ} (hs : At p s) {as : List α} (hemit : Ruda.emit f n s = .ok (as, s')) : At (p + n) s' := by
  obtain ⟨hok, herr⟩ := h.emit n hs
  cases hg : (List.range' p n).mapM g with
  | ok as' =>
    obtain ⟨s₁, hs₁, hat⟩ := hok as' hg
    obtain ⟨-, rfl⟩ := Prod.mk.inj (Except.ok.inj (hs₁.symm.trans hemit))
    exact hat
  | error e => exact nomatch (herr e hg).symm.trans hemit

end Ruda
