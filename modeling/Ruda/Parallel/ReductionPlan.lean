import Ruda.Lib.Lockstep
import Ruda.Parallel.Gradients

/-!
# Ordered gradient reductions that can be resumed

A plan reduces the gradients of a model in stages, each a collective of its own. After every
stage all ranks exchange how it went; when it failed on any of them, every rank gives back the
gradients from before the stage, and a later call resumes there.
-/

namespace Ruda.Parallel

variable {τ δ dev μ : Type}

inductive DataParallelError
  | collective (message : String)
  | contract (message : String)
  deriving DecidableEq

def DataParallelError.toString : DataParallelError → String
  | collective message | contract message => message

inductive SelectedGradientReductionMode
  | sum
  | sumFp32
  | weightedMean
  | weightedMeanFp32
  deriving DecidableEq

inductive SelectedGradientContribution
  | sum (active : Bool)
  | weightedMean (localWeight : Nat)
  deriving DecidableEq

def SelectedGradientReductionMode.accepts : SelectedGradientReductionMode → SelectedGradientContribution → Bool
  | .sum, .sum _ | .sumFp32, .sum _ => true
  | .weightedMean, .weightedMean _ | .weightedMeanFp32, .weightedMean _ => true
  | _, _ => false

inductive MissingGradientPolicy
  | error
  | zero
  deriving DecidableEq

structure ParameterContract where
  path : List String
  shape : List Nat
  dtype : String
  trainable : Bool
  aliasOf : Nat
  deriving DecidableEq

structure GradientReductionStageContract where
  rank : Nat
  world : Nat
  parameters : List Nat
  schema : List ParameterContract
  mode : SelectedGradientReductionMode
  missing : MissingGradientPolicy
  buffers : Bool
  deriving DecidableEq

structure GradientReductionPlanContract where
  version : Nat
  coordinatorRank : Nat
  coordinatorWorld : Nat
  stages : List GradientReductionStageContract
  deriving DecidableEq

def GradientReductionPlanContract.validate (plan : GradientReductionPlanContract) : Except DataParallelError Unit := do
  refuseIf (plan.version ≠ 1 ∨ plan.coordinatorWorld = 0 ∨ plan.coordinatorRank ≥ plan.coordinatorWorld)
    (.contract "invalid original gradient-plan coordinator topology")
  plan.stages.forM fun stage => do
    refuseIf (stage.world = 0 ∨ stage.rank ≥ stage.world ∨ stage.world > plan.coordinatorWorld)
      (.contract "gradient-plan coordinator must cover every original stage")
    refuseIf (¬stage.parameters.Nodup) (.contract "duplicate original selected stage parameter")

def validateProgress (plan : GradientReductionPlanContract) (contributions : List SelectedGradientContribution)
    (next : Nat) (weights : List Nat) : Except DataParallelError Unit := do
  plan.validate
  refuseIf (contributions.length ≠ plan.stages.length ∨ next > plan.stages.length ∨ weights.length ≠ next)
    (.contract "original pending stage/weight/contribution counts differ")
  refuseIf (∃ pair ∈ plan.stages.zip contributions, pair.1.mode.accepts pair.2 = false)
    (.contract "original local contribution kind differs from selected stage arithmetic")

structure GradientReductionProgress (τ : Type) where
  plan : GradientReductionPlanContract
  gradients : GradientsParams τ
  contributions : List SelectedGradientContribution
  nextStage : Nat
  globalWeights : List Nat

def GradientReductionProgress.validate (progress : GradientReductionProgress τ) : Except DataParallelError Unit :=
  validateProgress progress.plan progress.contributions progress.nextStage progress.globalWeights

structure GradientReductionPlanOutput (τ : Type) where
  gradients : GradientsParams τ
  stageGlobalWeights : List Nat

inductive GradientReductionPlanError
  | stage (index : Nat) (error : DataParallelError)
  | peer (index rank : Nat) (message : String)
  | coordinator (error : DataParallelError)

structure GradientReductionPlanFailure (τ : Type) where
  error : GradientReductionPlanError
  progress : GradientReductionProgress τ

structure PlanWindow where
  stages : Nat
  next : Nat
  error : Option String

structure StageOutcome where
  error : Option String

/-- A stage on one rank. Its `reduce` is a collective. -/
structure Stage (μ : Type) where
  contract : GradientReductionStageContract
  validateModel : μ → Except DataParallelError Unit

structure SelectedGradientReductionPlan (μ : Type) where
  stages : List (Stage μ)
  coordinatorRank : Nat
  coordinatorWorld : Nat

-- The collectives

inductive Collective
  | gatherWindow
  | gatherOutcome
  | reduce (stage : Nat)
  deriving DecidableEq

def Collective.In (τ : Type) : Collective → Type
  | gatherWindow => PlanWindow
  | gatherOutcome => StageOutcome
  | reduce _ => GradientsParams τ × SelectedGradientContribution

def Collective.Out (τ : Type) : Collective → Type
  | gatherWindow => Except DataParallelError (List PlanWindow)
  | gatherOutcome => Except DataParallelError (List StageOutcome)
  | reduce _ => Except DataParallelError (GradientsParams τ × Nat)

/-- How a call of `resume` ends. -/
inductive Resumed (τ : Type)
  | finished (output : GradientReductionPlanOutput τ)
  | failed (failure : GradientReductionPlanFailure τ)
  | panicked

abbrev Call (τ : Type) := Prog Collective (Collective.In τ) (Collective.Out τ) (Resumed τ)

namespace SelectedGradientReductionPlan

variable (plan : SelectedGradientReductionPlan μ) (model : μ)

def contract : GradientReductionPlanContract where
  version := 1
  coordinatorRank := plan.coordinatorRank
  coordinatorWorld := plan.coordinatorWorld
  stages := plan.stages.map Stage.contract

def validateContract (saved : GradientReductionPlanContract) : Except DataParallelError Unit := do
  saved.validate
  refuseIf (plan.contract ≠ saved) (.contract "original gradient plan topology, selectors or stage options differ")

/-- What a rank finds wrong with the call before it meets the others. -/
def validation (progress : GradientReductionProgress τ) : Except DataParallelError Unit := do
  progress.validate
  plan.validateContract progress.plan
  plan.stages.forM fun stage => stage.validateModel model

def errorOf {α : Type} : Except DataParallelError α → Option String
  | .error error => some error.toString
  | .ok _ => none

/-- The windows of all ranks, in their order: the first that is wrong. -/
def checkWindows (window : PlanWindow) : Nat → List PlanWindow → Option GradientReductionPlanError
  | _, [] => none
  | rank, peer :: windows =>
    match peer.error with
    | some message => some (.peer window.next rank message)
    | none =>
      if peer.stages ≠ window.stages ∨ peer.next ≠ window.next then
        some (.coordinator (.contract "gradient-plan stage counts or pending positions differ"))
      else checkWindows window (rank + 1) windows

/-- The first rank with an error, and its message. -/
def firstError : Nat → List StageOutcome → Option (Nat × String)
  | _, [] => none
  | rank, peer :: outcomes =>
    match peer.error with
    | some message => some (rank, message)
    | none => firstError (rank + 1) outcomes

/-- What the rank goes on with after all ranks told how the stage went: an end, or the gradients and the weight. -/
def afterStage (index : Nat) (result : Except DataParallelError (GradientsParams τ × Nat))
    (outcomes : Except DataParallelError (List StageOutcome)) :
    Except GradientReductionPlanError (GradientsParams τ × Nat) :=
  match outcomes with
  | .error error => .error (.coordinator error)
  | .ok outcomes =>
    match firstError 0 outcomes, result with
    | some _, .error error => .error (.stage index error)
    | some (rank, message), .ok _ => .error (.peer index rank message)
    | none, .error error => .error (.stage index error)
    | none, .ok reduced => .ok reduced

/-- `while progress.next_stage < self.stages.len()`, with the rounds that are left. -/
def loop : (rounds : Nat) → GradientReductionProgress τ → Call τ
  | 0, progress => .done (.finished { gradients := progress.gradients, stageGlobalWeights := progress.globalWeights })
  | rounds + 1, progress =>
    let original := cloneNative progress.gradients
    match progress.contributions[progress.nextStage]? with
    | none => .done .panicked
    | some contribution =>
      .enter (.reduce progress.nextStage) (progress.gradients, contribution) fun result =>
        .enter .gatherOutcome { error := errorOf result } fun outcomes =>
          match afterStage progress.nextStage result outcomes with
          | .error error => .done (.failed { error, progress := { progress with gradients := original } })
          | .ok (gradients, weight) =>
            loop rounds { progress with
              gradients, globalWeights := progress.globalWeights ++ [weight], nextStage := progress.nextStage + 1 }

def window (progress : GradientReductionProgress τ) : PlanWindow where
  stages := plan.stages.length
  next := progress.nextStage
  error := errorOf (plan.validation model progress)

/-- What a rank goes on with after it has the windows of all ranks. -/
def afterWindows (progress : GradientReductionProgress τ) : Except DataParallelError (List PlanWindow) → Call τ
  | .error error => .done (.failed { error := .coordinator error, progress })
  | .ok windows =>
    match checkWindows (plan.window model progress) 0 windows with
    | some error => .done (.failed { error, progress })
    | none => loop (plan.stages.length - progress.nextStage) progress

def resume (progress : GradientReductionProgress τ) : Call τ :=
  .enter .gatherWindow (plan.window model progress) (plan.afterWindows model progress)

/-- The progress that `reduce` begins with. -/
def begin (gradients : GradientsParams τ) (contributions : List SelectedGradientContribution) :
    GradientReductionProgress τ where
  plan := plan.contract
  gradients := gradients
  contributions := contributions
  nextStage := 0
  globalWeights := []

def reduce (gradients : GradientsParams τ) (contributions : List SelectedGradientContribution) : Call τ :=
  plan.resume model (plan.begin gradients contributions)

end SelectedGradientReductionPlan

-- Records

structure GradientReductionProgressRecord (δ : Type) where
  version : Nat
  plan : GradientReductionPlanContract
  contributions : List SelectedGradientContribution
  nextStage : Nat
  globalWeights : List Nat
  gradients : GradientsParamsRecord δ

/-- `map_err(|error| RecorderError::Unknown(error.to_string()))` -/
def unknown {α : Type} : Except DataParallelError α → Res String α
  | .ok a => .ok a
  | .error error => .error (.err error.toString)

def GradientReductionProgress.toRecord (archive : Archive τ δ dev) (progress : GradientReductionProgress τ) :
    Res String (GradientReductionProgressRecord δ) := do
  unknown progress.validate
  let gradients ← archive.toRecord progress.gradients
  return {
    version := 1
    plan := progress.plan
    contributions := progress.contributions
    nextStage := progress.nextStage
    globalWeights := progress.globalWeights
    gradients }

def GradientReductionProgressRecord.restoreForModel [DecidableEq dev] (archive : Archive τ δ dev)
    (record : GradientReductionProgressRecord δ) (params : List (ModelParam dev)) :
    Res String (GradientReductionProgress τ) := do
  failIf (record.version ≠ 1) "unsupported gradient-plan continuation version"
  unknown (validateProgress record.plan record.contributions record.nextStage record.globalWeights)
  let gradients ← archive.fromRecordForModel params record.gradients
  return {
    plan := record.plan
    contributions := record.contributions
    nextStage := record.nextStage
    globalWeights := record.globalWeights
    gradients }

theorem GradientReductionProgress.roundtrip [DecidableEq dev] {archive : Archive τ δ dev} (hexact : archive.Exact)
    {progress restored : GradientReductionProgress τ} {record : GradientReductionProgressRecord δ}
    {params : List (ModelParam dev)} (hto : progress.toRecord archive = .ok record)
    (hfrom : record.restoreForModel archive params = .ok restored) : restored = progress := by
  obtain ⟨-, -, hto⟩ := bind_eq_ok.mp hto
  obtain ⟨gradients, hgradients, hto⟩ := bind_eq_ok.mp hto
  cases hto
  obtain ⟨-, -, hfrom⟩ := bind_eq_ok.mp hfrom
  obtain ⟨-, -, hfrom⟩ := bind_eq_ok.mp hfrom
  obtain ⟨restoredGradients, hrestored, hfrom⟩ := bind_eq_ok.mp hfrom
  cases hfrom
  rw [record_roundtrip hexact hgradients hrestored]

end Ruda.Parallel
