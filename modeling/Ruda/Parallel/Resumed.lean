import Ruda.Parallel.ReductionPlan

/-!
# No stage is applied twice

All ranks resume together, again and again. Between the calls they agree on the next stage, and
the gradients they keep are those of the stages before it, each applied once.
-/

namespace Ruda.Parallel

variable {τ δ dev μ : Type}

/-- Ranks with a plan each, their original gradients, and what a stage that does not fail computes of the
inputs of all ranks. -/
structure Group (n : Nat) (τ μ : Type) where
  plan : Fin n → SelectedGradientReductionPlan μ
  model : Fin n → μ
  gradients : Fin n → GradientsParams τ
  contributions : Fin n → List SelectedGradientContribution
  apply : Nat → (Fin n → GradientsParams τ × SelectedGradientContribution) → Fin n → GradientsParams τ × Nat

namespace Group

variable {n : Nat} (w : Group n τ μ)

/-- The collective comes to its end on every rank. -/
def Delivers : Serves Collective (Collective.In τ) (Collective.Out τ) (Fin n)
  | .gatherWindow, x, y => ∀ i, y i = .ok (List.ofFn x)
  | .gatherOutcome, x, y => ∀ i, y i = .ok (List.ofFn x)
  | .reduce stage, x, y => ∀ i, y i = .ok (w.apply stage x i)

/-- A gather fails on all ranks, and a stage on any subset of them; what it leaves on the others is open. -/
def Fails : (k : Collective) → (Fin n → k.Out τ) → Prop
  | .gatherWindow, y => ∀ i, ∃ error, y i = .error error
  | .gatherOutcome, y => ∀ i, ∃ error, y i = .error error
  | .reduce _, y => ∃ i error, y i = .error error

/-- What the collectives answer, when they may fail or when they may not. -/
def Answers (mayFail : Bool) : Serves Collective (Collective.In τ) (Collective.Out τ) (Fin n) :=
  fun k x y => w.Delivers k x y ∨ mayFail = true ∧ Fails k y

/-- The gradients and the weights after the first stages, each applied once to what the stage before left. -/
def applied : Nat → Fin n → GradientsParams τ × List Nat
  | 0, i => (w.gradients i, [])
  | stage + 1, i =>
    let before := applied stage
    let out := w.apply stage (fun j => ((before j).1, (w.contributions j).getD stage (.sum false))) i
    (out.1, (before i).2 ++ [out.2])

/-- The progress of a rank at the boundary before this stage. -/
def boundary (stage : Nat) (i : Fin n) : GradientReductionProgress τ where
  plan := (w.plan i).contract
  gradients := (w.applied stage i).1
  contributions := w.contributions i
  nextStage := stage
  globalWeights := (w.applied stage i).2

def output (stages : Nat) (i : Fin n) : GradientReductionPlanOutput τ where
  gradients := (w.applied stages i).1
  stageGlobalWeights := (w.applied stages i).2

/-- All ranks fail at the same boundary. -/
def FailAt (stage : Nat) (result : Fin n → Resumed τ) : Prop :=
  ∀ i, ∃ error, result i = .failed { error, progress := w.boundary stage i }

def Finish (stages : Nat) (result : Fin n → Resumed τ) : Prop := ∀ i, result i = .finished (w.output stages i)

variable {w}

theorem applied_length (stage : Nat) (i : Fin n) : (w.applied stage i).2.length = stage := by
  induction stage with
  | zero => rfl
  | succ stage ih => simp [applied, ih]

theorem answers_exist (mayFail : Bool) (k : Collective) (x : Fin n → k.In τ) : ∃ y, w.Answers mayFail k x y := by
  cases k with
  | gatherWindow => exact ⟨fun _ => .ok (List.ofFn x), .inl fun _ => rfl⟩
  | gatherOutcome => exact ⟨fun _ => .ok (List.ofFn x), .inl fun _ => rfl⟩
  | reduce stage => exact ⟨fun i => .ok (w.apply stage x i), .inl fun _ => rfl⟩

-- What the ranks make of the same lists

open SelectedGradientReductionPlan

theorem firstError_eq_none {outcomes : List StageOutcome} (rank : Nat) :
    firstError rank outcomes = none ↔ ∀ outcome ∈ outcomes, outcome.error = none := by
  induction outcomes generalizing rank with
  | nil => simp [firstError]
  | cons outcome outcomes ih =>
    rw [firstError]
    cases he : outcome.error with
    | none => simp [he, ih]
    | some message => simp [he]

theorem checkWindows_eq_none {window : PlanWindow} {windows : List PlanWindow} (rank : Nat) :
    checkWindows window rank windows = none ↔
      ∀ peer ∈ windows, peer.error = none ∧ peer.stages = window.stages ∧ peer.next = window.next := by
  induction windows generalizing rank with
  | nil => simp [checkWindows]
  | cons peer windows ih =>
    rw [checkWindows]
    cases he : peer.error with
    | none =>
      by_cases hs : peer.stages ≠ window.stages ∨ peer.next ≠ window.next
      · simp only [hs, if_true, List.mem_cons, forall_eq_or_imp, reduceCtorEq, false_iff]
        tauto
      · rw [if_neg hs, ih]
        simp only [not_or, not_not] at hs
        simp [he, hs]
    | some message => simp [he]

theorem errorOf_eq_none {α : Type} {result : Except DataParallelError α} :
    errorOf result = none ↔ ∃ value, result = .ok value := by
  cases result <;> simp [errorOf]

-- The stages

theorem loop_boundary {rounds stage : Nat} {i : Fin n} (hlt : stage < (w.contributions i).length) :
    loop (rounds + 1) (w.boundary stage i) =
      .enter (.reduce stage) ((w.applied stage i).1, (w.contributions i).getD stage (.sum false)) fun result =>
        .enter .gatherOutcome { error := errorOf result } fun outcomes =>
          match afterStage stage result outcomes with
          | .error error => .done (.failed { error, progress := w.boundary stage i })
          | .ok (gradients, weight) =>
            loop rounds { w.boundary stage i with
              gradients, globalWeights := (w.applied stage i).2 ++ [weight], nextStage := stage + 1 } := by
  have hsome : (w.contributions i)[stage]? = some ((w.contributions i).getD stage (.sum false)) := by
    rw [List.getElem?_eq_getElem hlt, List.getD_eq_getElem _ _ hlt]
  simp only [loop, boundary, hsome, cloneNative_eq] <;> rfl

/-- The input of a stage, when every rank is at the boundary before it. -/
def stageInput (w : Group n τ μ) (stage : Nat) (j : Fin n) : GradientsParams τ × SelectedGradientContribution :=
  ((w.applied stage j).1, (w.contributions j).getD stage (.sum false))

theorem loop_joint [NeZero n] {mayFail : Bool} {rounds stage : Nat}
    (hlen : ∀ i, (w.contributions i).length = stage + rounds) :
    Joint (w.Answers mayFail) (fun i => loop rounds (w.boundary stage i)) fun result =>
      (mayFail = true ∧ ∃ stage, w.FailAt stage result) ∨ w.Finish (stage + rounds) result := by
  induction rounds generalizing stage with
  | zero => exact .done (.inr fun _ => rfl)
  | succ rounds ih =>
    have hlt : ∀ i, stage < (w.contributions i).length := fun i => by
      have := hlen i
      omega
    rw [funext fun i => loop_boundary (hlt i)]
    refine .enter (answers_exist _ _ _) fun y hy => .enter (answers_exist _ _ _) fun z hz => ?_
    -- when every rank finds an error, all of them keep the gradients from before the stage
    have hfail : mayFail = true → (∀ i, ∃ error, afterStage stage (y i) (z i) = .error error) →
        Joint (w.Answers mayFail) (fun i => match afterStage stage (y i) (z i) with
          | .error error => .done (.failed { error, progress := w.boundary stage i })
          | .ok (gradients, weight) =>
            loop rounds { w.boundary stage i with
              gradients, globalWeights := (w.applied stage i).2 ++ [weight], nextStage := stage + 1 })
          fun result => (mayFail = true ∧ ∃ stage, w.FailAt stage result) ∨ w.Finish (stage + (rounds + 1)) result := by
      intro hmay herror
      choose error herror using herror
      simp only [herror]
      exact .done (.inl ⟨hmay, stage, fun i => ⟨error i, rfl⟩⟩)
    rcases hz with hz | ⟨hmay, hz⟩
    · have hz' : ∀ i, z i = .ok (List.ofFn fun j => { error := errorOf (y j) }) := hz
      cases hfirst : firstError 0 (List.ofFn fun j => ({ error := errorOf (y j) } : StageOutcome)) with
      | some found =>
        obtain ⟨rank, message⟩ := found
        -- a rank told of an error, so the stage did not come to its end
        have hmay : mayFail = true := by
          rcases hy with hy | ⟨hmay, -⟩
          · have hall : firstError 0 (List.ofFn fun j => ({ error := errorOf (y j) } : StageOutcome)) = none := by
              rw [firstError_eq_none]
              intro outcome hmem
              obtain ⟨j, rfl⟩ := List.mem_ofFn.mp hmem
              exact errorOf_eq_none.mpr ⟨_, hy j⟩
            rw [hall] at hfirst
            cases hfirst
          · exact hmay
        refine hfail hmay fun i => ?_
        rw [hz' i]
        cases hyi : y i <;> simp [afterStage, hfirst]
      | none =>
        have hok : ∀ j, ∃ reduced, y j = .ok reduced := by
          rw [firstError_eq_none] at hfirst
          exact fun j => errorOf_eq_none.mp (hfirst _ (List.mem_ofFn.mpr ⟨j, rfl⟩))
        have hdelivered : ∀ i, y i = .ok (w.apply stage (w.stageInput stage) i) := by
          rcases hy with hy | ⟨-, i, error, hi⟩
          · exact hy
          · obtain ⟨reduced, hreduced⟩ := hok i
            rw [hi] at hreduced
            cases hreduced
        have hgo : ∀ i, afterStage stage (y i) (z i) = .ok (w.apply stage (w.stageInput stage) i) := by
          intro i
          simp only [hz' i, hdelivered i, afterStage, hfirst]
        simp only [hgo]
        have hrest := @ih (stage + 1) fun i => by
          have := hlen i
          omega
        rw [Nat.add_assoc, Nat.add_comm 1 rounds] at hrest
        exact hrest
    · refine hfail hmay fun i => ?_
      obtain ⟨error, he⟩ := hz i
      exact ⟨.coordinator error, by rw [he]; rfl⟩

-- One call

theorem validateProgress_ok {plan : GradientReductionPlanContract} {contributions : List SelectedGradientContribution}
    {next : Nat} {weights : List Nat} :
    validateProgress plan contributions next weights = .ok () ↔ plan.validate = .ok () ∧
      (contributions.length = plan.stages.length ∧ next ≤ plan.stages.length ∧ weights.length = next) ∧
      ∀ pair ∈ plan.stages.zip contributions, pair.1.mode.accepts pair.2 = true := by
  unfold validateProgress
  constructor
  · intro h
    obtain ⟨⟨⟩, hplan, h⟩ := except_bind_eq_ok.mp h
    obtain ⟨⟨⟩, hcounts, haccepts⟩ := except_bind_eq_ok.mp h
    rw [refuseIf_ok] at hcounts haccepts
    refine ⟨hplan, by omega, fun pair hpair => ?_⟩
    by_contra hno
    exact haccepts ⟨pair, hpair, by simpa using hno⟩
  · rintro ⟨hplan, hcounts, haccepts⟩
    refine except_bind_eq_ok.mpr ⟨(), hplan, except_bind_eq_ok.mpr ⟨(), refuseIf_ok.mpr (by omega), refuseIf_ok.mpr ?_⟩⟩
    rintro ⟨pair, hpair, hno⟩
    rw [haccepts pair hpair] at hno
    cases hno

/-- Every rank finds its call right, and all have the same number of stages. -/
structure Ready (w : Group n τ μ) (stages stage : Nat) : Prop where
  valid : ∀ i, (w.plan i).validation (w.model i) (w.boundary stage i) = .ok ()
  length : ∀ i, (w.plan i).stages.length = stages

theorem Ready.counts {stages stage : Nat} (h : w.Ready stages stage) (i : Fin n) :
    (w.contributions i).length = stages ∧ stage ≤ stages := by
  obtain ⟨_, hprogress, -⟩ := except_bind_eq_ok.mp (h.valid i)
  obtain ⟨-, ⟨hlen, hnext, -⟩, -⟩ := validateProgress_ok.mp hprogress
  simp only [boundary, SelectedGradientReductionPlan.contract, List.length_map, h.length i] at hlen hnext
  exact ⟨hlen, hnext⟩

theorem Ready.first {stages stage : Nat} (h : w.Ready stages stage) : w.Ready stages 0 where
  length := h.length
  valid := by
    intro i
    obtain ⟨_, hprogress, hrest⟩ := except_bind_eq_ok.mp (h.valid i)
    obtain ⟨hplan, ⟨hlen, -, -⟩, haccepts⟩ := validateProgress_ok.mp hprogress
    exact except_bind_eq_ok.mpr ⟨(), validateProgress_ok.mpr ⟨hplan, ⟨hlen, Nat.zero_le _, rfl⟩, haccepts⟩, hrest⟩

/-- `resume` on every rank, from the same boundary. -/
def calls (w : Group n τ μ) (progress : Fin n → GradientReductionProgress τ) (i : Fin n) : Call τ :=
  (w.plan i).resume (w.model i) (progress i)

theorem ready_joint [NeZero n] {mayFail : Bool} {stages stage : Nat} (h : w.Ready stages stage) :
    Joint (w.Answers mayFail) (w.calls (w.boundary stage)) fun result =>
      (mayFail = true ∧ ∃ stage, w.FailAt stage result) ∨ w.Finish stages result := by
  refine .enter (answers_exist _ _ _) fun y hy => ?_
  rcases hy with hy | ⟨hmay, hy⟩
  · have hgo : ∀ i, checkWindows ((w.plan i).window (w.model i) (w.boundary stage i)) 0
        (List.ofFn fun j => (w.plan j).window (w.model j) (w.boundary stage j)) = none := by
      intro i
      rw [checkWindows_eq_none]
      intro peer hmem
      obtain ⟨j, rfl⟩ := List.mem_ofFn.mp hmem
      refine ⟨errorOf_eq_none.mpr ⟨_, h.valid j⟩, ?_, rfl⟩
      exact (h.length j).trans (h.length i).symm
    have hy' : ∀ i, y i = .ok (List.ofFn fun j => (w.plan j).window (w.model j) (w.boundary stage j)) := hy
    obtain ⟨-, hle⟩ := h.counts 0
    have hrounds : ∀ i, (w.plan i).stages.length - (w.boundary stage i).nextStage = stages - stage := by
      intro i
      rw [h.length i]
      rfl
    simp only [hy', afterWindows, hgo, hrounds]
    have hloop := @loop_joint _ _ _ w _ mayFail (stages - stage) stage fun i => by
      have := (h.counts i).1
      omega
    rwa [Nat.add_sub_cancel' hle] at hloop
  · choose error herror using hy
    simp only [herror, afterWindows]
    exact .done (.inl ⟨hmay, stage, fun i => ⟨_, rfl⟩⟩)

theorem not_ready_joint [NeZero n] {mayFail : Bool} {stage : Nat} (h : ∀ stages, ¬w.Ready stages stage) :
    Joint (w.Answers mayFail) (w.calls (w.boundary stage)) fun result => ∃ stage, w.FailAt stage result := by
  refine .enter (answers_exist _ _ _) fun y hy => ?_
  rcases hy with hy | ⟨-, hy⟩
  · have hy' : ∀ i, y i = .ok (List.ofFn fun j => (w.plan j).window (w.model j) (w.boundary stage j)) := hy
    have hwrong : ∀ i, ∃ error, checkWindows ((w.plan i).window (w.model i) (w.boundary stage i)) 0
        (List.ofFn fun j => (w.plan j).window (w.model j) (w.boundary stage j)) = some error := by
      intro i
      by_contra hnone
      have hnone := Option.eq_none_iff_forall_ne_some.mpr (not_exists.mp hnone)
      rw [checkWindows_eq_none] at hnone
      -- the rank found nothing wrong with any window, so all ranks are ready
      refine h (w.plan i).stages.length ⟨fun j => ?_, fun j => ?_⟩
      · obtain ⟨⟨⟩, hok⟩ := errorOf_eq_none.mp (hnone _ (List.mem_ofFn.mpr ⟨j, rfl⟩)).1
        exact hok
      · exact (hnone _ (List.mem_ofFn.mpr ⟨j, rfl⟩)).2.1
    choose error herror using hwrong
    simp only [hy', afterWindows, herror]
    exact .done ⟨stage, fun i => ⟨_, rfl⟩⟩
  · choose error herror using hy
    simp only [herror, afterWindows]
    exact .done ⟨stage, fun i => ⟨_, rfl⟩⟩

-- Calls again and again

/-- What the ranks hold before a call: at first the progress that `reduce` begins with, and after a call that
failed the progress of its failure, as it was returned or restored from its record. -/
inductive Retried [DecidableEq dev] (w : Group n τ μ) (archive : Archive τ δ dev) (params : Fin n → List (ModelParam dev)) :
    (Fin n → GradientReductionProgress τ) → Prop
  | first : Retried w archive params fun i => (w.plan i).begin (w.gradients i) (w.contributions i)
  | again {progress progress' : Fin n → GradientReductionProgress τ} {failure : Fin n → GradientReductionPlanFailure τ}
    (h : Retried w archive params progress) (hcall : Together (w.Answers true) (w.calls progress) fun i => .failed (failure i))
    (hnext : ∀ i, progress' i = (failure i).progress ∨ ∃ record, (failure i).progress.toRecord archive = .ok record ∧
      record.restoreForModel archive (params i) = .ok (progress' i)) : Retried w archive params progress'

theorem Retried.boundary [NeZero n] [DecidableEq dev] {archive : Archive τ δ dev}
    {params : Fin n → List (ModelParam dev)} (hexact : archive.Exact) {progress : Fin n → GradientReductionProgress τ}
    (h : Retried w archive params progress) : ∃ stage, progress = w.boundary stage := by
  induction h with
  | first => exact ⟨0, rfl⟩
  | @again progress progress' failure _ hcall hnext ih =>
    obtain ⟨stage, rfl⟩ := ih
    have hfail : ∃ stage, w.FailAt stage fun i => .failed (failure i) := by
      by_cases hready : ∃ stages, w.Ready stages stage
      · obtain ⟨stages, hready⟩ := hready
        rcases (ready_joint hready).runs hcall with ⟨-, hfail⟩ | hfinish
        · exact hfail
        · have h0 := hfinish 0
          cases h0
      · exact (not_ready_joint (not_exists.mp hready)).runs hcall
    obtain ⟨stage, hfail⟩ := hfail
    refine ⟨stage, funext fun i => ?_⟩
    obtain ⟨error, herror⟩ := hfail i
    have hprogress : (failure i).progress = w.boundary stage i := by
      rw [Resumed.failed.inj herror]
    rcases hnext i with heq | ⟨record, hto, hfrom⟩
    · rw [heq, hprogress]
    · rw [GradientReductionProgress.roundtrip hexact hto hfrom, hprogress]

/-- However often the ranks resume, and whatever fails: they hold the same next stage, with one weight for every
stage before it, and the gradients that these stages leave when each is applied once. The call that comes next ends on
all ranks, at such a boundary again or with the result of a call in which nothing fails. -/
theorem resume_applies_once [NeZero n] [DecidableEq dev] {archive : Archive τ δ dev}
    {params : Fin n → List (ModelParam dev)} (hexact : archive.Exact) {progress : Fin n → GradientReductionProgress τ}
    (h : Retried w archive params progress) :
    (∃ stage, ∀ i, (progress i).nextStage = stage ∧ (progress i).gradients = (w.applied stage i).1 ∧
      (progress i).globalWeights = (w.applied stage i).2 ∧ (progress i).globalWeights.length = stage) ∧
    Joint (w.Answers true) (w.calls progress) fun result =>
      (∃ stage, w.FailAt stage result) ∨
        ∃ stages, (∀ i, (w.plan i).stages.length = stages) ∧ w.Finish stages result ∧
          Joint w.Delivers (fun i => (w.plan i).reduce (w.model i) (w.gradients i) (w.contributions i)) (· = result) := by
  obtain ⟨stage, rfl⟩ := h.boundary hexact
  refine ⟨⟨stage, fun i => ⟨rfl, rfl, rfl, applied_length stage i⟩⟩, ?_⟩
  by_cases hready : ∃ stages, w.Ready stages stage
  · obtain ⟨stages, hready⟩ := hready
    refine (ready_joint hready).mono ?_
    rintro result (⟨-, hfail⟩ | hfinish)
    · exact .inl hfail
    · refine .inr ⟨stages, hready.length, hfinish, ?_⟩
      have hfirst : Joint (w.Answers false) (w.calls (w.boundary 0)) (· = result) := by
        refine (ready_joint hready.first).mono ?_
        rintro other (⟨hmay, -⟩ | hother)
        · cases hmay
        · exact funext fun i => (hother i).trans (hfinish i).symm
      refine hfirst.restrict (fun _ _ _ hy => .inl hy) fun k x hex => ?_
      obtain ⟨y, hy | ⟨hmay, -⟩⟩ := hex
      · exact ⟨y, hy⟩
      · cases hmay
  · exact (not_ready_joint (not_exists.mp hready)).mono fun _ hfail => .inl hfail

theorem lost_runs (progress : Fin n → GradientReductionProgress τ) (error : DataParallelError) :
    Together (w.Answers true) (w.calls progress) fun i => .failed { error := .coordinator error, progress := progress i } := by
  have hfails : w.Answers true .gatherWindow (fun i => (w.plan i).window (w.model i) (progress i))
      fun _ => .error error := .inr ⟨rfl, fun _ => ⟨error, rfl⟩⟩
  show Together (w.Answers true) (fun i => .enter Collective.gatherWindow ((w.plan i).window (w.model i) (progress i))
    ((w.plan i).afterWindows (w.model i) (progress i))) _
  exact .enter _ _ _ _ hfails (.done _)

/-- Two ranks whose one stage adds the gradients of parameter 7. -/
def pair : Group 2 Nat Unit where
  plan i := {
    stages := [{
      contract := {
        rank := i, world := 2, parameters := [7], schema := [], mode := .sum, missing := .zero, buffers := false }
      validateModel := fun _ => .ok () }]
    coordinatorRank := i
    coordinatorWorld := 2 }
  model _ := ()
  gradients i := (∅ : GradientsParams Nat).insert 7 (10 + i)
  contributions _ := [.sum true]
  apply _ x _ := ((∅ : GradientsParams Nat).insert 7 (((x 0).1[7]?.getD 0) + ((x 1).1[7]?.getD 0)), 2)

def pairArchive : Archive Nat Nat Unit where
  intoData := .ok
  shape _ := []
  fromRecord _ data _ := .ok data

/-- The coordinator failed once, and rank 0 restored its progress from its record. -/
theorem resume_applies_once_pair :
    ∃ result, Together (pair.Answers true) (pair.calls (pair.boundary 0)) result ∧
      ((∃ stage, pair.FailAt stage result) ∨ pair.Finish 1 result) := by
  have hexact : pairArchive.Exact := by
    intro id value data device restored hread hwrite
    cases hread
    cases hwrite
    rfl
  have hretried : Retried pair pairArchive (fun _ => [⟨7, true, true, [], ()⟩]) (pair.boundary 0) := by
    refine .again .first (lost_runs _ (.collective "peer lost")) fun i => ?_
    by_cases h0 : i = 0
    · subst h0
      exact .inr ⟨_, rfl, rfl⟩
    · exact .inl rfl
  obtain ⟨result, hruns, hresult⟩ := (resume_applies_once hexact hretried).2.exists_runs
  refine ⟨result, hruns, hresult.imp id ?_⟩
  rintro ⟨stages, hlength, hfinish, -⟩
  obtain rfl : 1 = stages := hlength 0
  exact hfinish

end Group

end Ruda.Parallel
