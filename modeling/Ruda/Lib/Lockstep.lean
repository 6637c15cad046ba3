import Mathlib

/-!
# Programs that meet in collectives

The same program runs on every rank, each rank with its own data, and the ranks meet in
collectives: all of them enter the same one, and every rank goes on with its own answer.
`Joint serves ps Post` says that the ranks never wait for each other in vain, and that they end
with results in `Post`, whatever answers `serves` allows.
-/

namespace Ruda

/-- A program that ends, or enters a collective with an input and goes on with the answer. -/
inductive Prog (K : Type) (In Out : K → Type) (ρ : Type)
  | done (r : ρ)
  | enter (k : K) (x : In k) (next : Out k → Prog K In Out ρ)

variable {K : Type} {In Out : K → Type} {ρ σ ι : Type}

namespace Prog

def bind (p : Prog K In Out ρ) (f : ρ → Prog K In Out σ) : Prog K In Out σ :=
  match p with
  | .done r => f r
  | .enter k x next => .enter k x fun y => (next y).bind f

instance : Monad (Prog K In Out) where
  pure := .done
  bind := bind

@[simp] theorem done_bind (r : ρ) (f : ρ → Prog K In Out σ) : ((.done r : Prog K In Out ρ) >>= f) = f r := rfl

@[simp] theorem pure_eq_done (r : ρ) : (pure r : Prog K In Out ρ) = .done r := rfl

@[simp] theorem enter_bind (k : K) (x : In k) (next : Out k → Prog K In Out ρ) (f : ρ → Prog K In Out σ) :
    (.enter k x next >>= f) = .enter k x fun y => next y >>= f := rfl

end Prog

/-- What a collective may answer to the inputs of all ranks. -/
abbrev Serves (K : Type) (In Out : K → Type) (ι : Type) := (k : K) → (ι → In k) → (ι → Out k) → Prop

variable {serves serves' : Serves K In Out ι}

/-- All ranks end, with these results. -/
inductive Together (serves : Serves K In Out ι) : (ι → Prog K In Out ρ) → (ι → ρ) → Prop
  | done (r : ι → ρ) : Together serves (fun i => .done (r i)) r
  | enter (k : K) (x : ι → In k) (next : (i : ι) → Out k → Prog K In Out ρ) (y : ι → Out k) {r : ι → ρ}
    (h : serves k x y) (hrest : Together serves (fun i => next i (y i)) r) : Together serves (fun i => .enter k (x i) (next i)) r

/-- All ranks end in `Post`, and until then they always enter the same collective, which can be served. -/
inductive Joint (serves : Serves K In Out ι) : (ι → Prog K In Out ρ) → ((ι → ρ) → Prop) → Prop
  | done {r : ι → ρ} {Post : (ι → ρ) → Prop} (h : Post r) : Joint serves (fun i => .done (r i)) Post
  | enter {k : K} {x : ι → In k} {next : (i : ι) → Out k → Prog K In Out ρ} {Post : (ι → ρ) → Prop}
    (hserved : ∃ y, serves k x y) (h : ∀ y, serves k x y → Joint serves (fun i => next i (y i)) Post) :
    Joint serves (fun i => .enter k (x i) (next i)) Post

namespace Joint

variable {ps : ι → Prog K In Out ρ} {Post Post' : (ι → ρ) → Prop}

theorem mono (h : Joint serves ps Post) (hpost : ∀ r, Post r → Post' r) : Joint serves ps Post' := by
  induction h with
  | done hr => exact .done (hpost _ hr)
  | enter hserved _ ih => exact .enter hserved fun y hy => ih y hy hpost

theorem restrict (h : Joint serves ps Post) (hsub : ∀ k x y, serves' k x y → serves k x y)
    (hserved : ∀ k x, (∃ y, serves k x y) → ∃ y, serves' k x y) : Joint serves' ps Post := by
  induction h with
  | done hr => exact .done hr
  | enter hex _ ih => exact .enter (hserved _ _ hex) fun y hy => ih y (hsub _ _ _ hy)

theorem exists_runs (h : Joint serves ps Post) : ∃ r, Together serves ps r ∧ Post r := by
  induction h with
  | done hr => exact ⟨_, .done _, hr⟩
  | enter hserved _ ih =>
    obtain ⟨y, hy⟩ := hserved
    obtain ⟨r, hr, hpost⟩ := ih y hy
    exact ⟨r, .enter _ _ _ y hy hr, hpost⟩

end Joint

theorem Together.of_done [Nonempty ι] {ps : ι → Prog K In Out ρ} {r r' : ι → ρ} (h : Together serves ps r)
    (hps : ps = fun i => .done (r' i)) : r = r' := by
  cases h with
  | done =>
    funext i
    have hi := congrFun hps i
    exact Prog.done.inj hi
  | enter =>
    obtain ⟨i⟩ := ‹Nonempty ι›
    have hi := congrFun hps i
    cases hi

theorem Together.of_enter [Nonempty ι] {ps : ι → Prog K In Out ρ} {r : ι → ρ} (h : Together serves ps r) {k : K}
    {x : ι → In k} {next : (i : ι) → Out k → Prog K In Out ρ} (hps : ps = fun i => .enter k (x i) (next i)) :
    ∃ y, serves k x y ∧ Together serves (fun i => next i (y i)) r := by
  cases h with
  | done =>
    obtain ⟨i⟩ := ‹Nonempty ι›
    have hi := congrFun hps i
    cases hi
  | enter k' x' next' y hy hrest =>
    have hk : k' = k := by
      obtain ⟨i⟩ := ‹Nonempty ι›
      exact (Prog.enter.inj (congrFun hps i)).1
    subst hk
    have hx : x' = x := funext fun i => eq_of_heq (Prog.enter.inj (congrFun hps i)).2.1
    have hnext : next' = next := funext fun i => eq_of_heq (Prog.enter.inj (congrFun hps i)).2.2
    subst hx hnext
    exact ⟨y, hy, hrest⟩

theorem Joint.runs [Nonempty ι] {ps : ι → Prog K In Out ρ} {Post : (ι → ρ) → Prop} {r : ι → ρ}
    (h : Joint serves ps Post) (hr : Together serves ps r) : Post r := by
  induction h with
  | done hpost =>
    rw [hr.of_done rfl]
    exact hpost
  | enter _ _ ih =>
    obtain ⟨y, hy, hrest⟩ := hr.of_enter rfl
    exact ih y hy hrest

end Ruda
