import Ruda.Batch.Scheduler

/-!
# The fence-gated scheduler

A synchronization gate around the metadata scheduler: a batch is launched through
a closure that returns a completion fence, and its pages are settled only once
that fence is ready. A failure after which device work may still be running
quarantines the gate. This is a translation of
`ruLLM/src/continuous_batch/fenced.rs` and of the token selection it calls.

What the adapter's closure and the fence do is up to the device, so it is an
argument of each call: any outcome, and also a panic, is possible at any time. A
panic leaves the state reached so far, and the caller may catch it and go on.

Logits are `f32` values, told apart as far as the code looks at them. The draw of
a sampled row is a parameter; the random state it advances is not modelled.
-/

namespace Ruda.Batch

open Kv ContinuousBatchScheduler

inductive RuntimeErrorKind
  | invalidInput
  | unsupported
  | driverIncompatible
  | outOfMemory
  | queueFull
  | cancelled
  | numerical
  | deviceLost
  | synchronization
  | workerPanicked
  | closed
  | internal
  deriving DecidableEq

structure RuntimeError where
  kind : RuntimeErrorKind
  message : String
  deriving DecidableEq

def RuntimeError.invalid (message : String) : RuntimeError := ⟨.invalidInput, message⟩

inductive WorkState
  | notSubmitted
  | quiescent
  /-- Includes timeouts and failed synchronization. -/
  | unknown
  deriving DecidableEq

inductive Poll (α : Type)
  | pending
  | ready (value : α)
  deriving DecidableEq

structure BatchLaunchFailure where
  error : RuntimeError
  work : WorkState
  committedCacheIntact : Bool
  deriving DecidableEq

/-- How a call on the gate ends when it does not return a value. -/
inductive Halt
  | error (error : RuntimeError)
  | panic (message : String)
  deriving DecidableEq

/-- What code of the adapter does when it is called. -/
inductive Outcome (α : Type)
  | returned (value : α)
  | panicked (message : String)
  deriving DecidableEq

/-- The closure given to `launch`. -/
abbrev Submit (F : Type) := ScheduledBatch → Outcome (Except BatchLaunchFailure F)

/-- `poll_complete` at the time of a call. -/
abbrev PollComplete (F : Type) := F → Outcome (Poll (Except RuntimeError Unit)) × F

-- Token selection

/-- An `f32`, up to what comparisons see. -/
inductive Logit
  | nan
  | negInfinity
  | finite (value : ℚ)
  | infinity
  deriving DecidableEq

/-- `a > b` -/
def Logit.gt : Logit → Logit → Bool
  | .nan, _ | _, .nan => false
  | .infinity, .infinity => false
  | .infinity, _ => true
  | _, .infinity => false
  | .finite _, .negInfinity => true
  | .finite a, .finite b => decide (b < a)
  | .negInfinity, _ => false

def Logit.isFinite : Logit → Bool
  | .finite _ => true
  | _ => false

/-- `best.is_none_or(|(_, maximum)| x > maximum)` -/
def improves (x : Logit) (best : Option (Nat × Logit)) : Bool := best.all fun b => x.gt b.2

/-- The loop of `checked_argmax`. -/
def checkedArgmaxFrom : (index : Nat) → Option (Nat × Logit) → List Logit → Except RuntimeError Nat
  | _, best, [] =>
    match best with
    | some (i, _) => .ok i
    | none => .error ⟨.numerical, "logits are empty or entirely masked"⟩
  | i, best, x :: rest =>
    if x = .nan ∨ x = .infinity then .error ⟨.numerical, "logits contain NaN or positive infinity"⟩
    else checkedArgmaxFrom (i + 1) (if x.isFinite && improves x best then some (i, x) else best) rest

def checkedArgmax (logits : List Logit) : Except RuntimeError Nat := checkedArgmaxFrom 0 none logits

/-- `for row in logits.chunks_exact(vocabulary) { checked_argmax(row)?; }` -/
def checkRows (logits : List Logit) (vocabulary : Nat) : Nat → Except RuntimeError Unit
  | 0 => .ok ()
  | rows + 1 => do
    checkRows logits vocabulary rows
    let _ ← checkedArgmax (blockOf logits vocabulary rows)

/-- The loop of `greedy_token`. -/
def greedyTokenFrom (row : Nat) : (index : Nat) → Option (Nat × Logit) → List Logit → Except Fault Token
  | _, best, [] =>
    match best with
    | none => .error (.error s!"all vocabulary logits are NaN for batch row {row}")
    | some (index, _) =>
      if index < 2 ^ 31 then .ok index else .error (.error "vocabulary index exceeds i32")
  | i, best, value :: rest =>
    greedyTokenFrom row (i + 1)
      (if value ≠ .nan && improves value best then some (i, value) else best) rest

def greedyToken (values : List Logit) (row : Nat) : Except Fault Token := greedyTokenFrom row 0 none values

/-- Placeholder for rows that do not produce a token. -/
def noToken : Token := -1

/-- `sampler.sample_with_history(values, prompt, generated)` -/
abbrev Sample := ActiveRequest → List Logit → Except Fault Token

section
variable (sample : Sample) (s : ContinuousBatchScheduler)

/-- Which rows hold a sampler; the samplers themselves stay with their requests. -/
def batchSamplingState (batchId : Nat) : Except Fault (BTreeMap Bool) :=
  match s.inFlight.filter fun batch => batch.id = batchId with
  | none => .error (.error s!"batch {batchId} is not in flight")
  | some batch => batch.sequences.foldlM (fun state row =>
      match s.active[row.requestId]? with
      | some request => .ok (state.insert row.requestId request.sampled)
      | none => .error (.error "sampling references missing request")) ∅

/-- One token for `row`, and the samplers still to be used. -/
def selectRow (batchId : Nat) (values : List Logit) (state : BTreeMap Bool) (row : ScheduledSequence) :
    Except Fault (Token × BTreeMap Bool) :=
  let id := row.requestId
  match s.active[id]? with
  | none => .error (.error s!"batch references missing request {id}")
  | some request =>
    if request.phase ≠ .inFlight batchId then
      .error (.error s!"request {id} is not owned by batch {batchId}")
    else if !s.samplesToken row then .ok (noToken, state)
    else match state[id]? with
      | none => .error (.error "missing transactional batch sampler")
      | some sampled => do
        let token ← if sampled then sample request values else greedyToken values 0
        return (token, state.erase id)

/-- The row loop of `select_batch_tokens_with`. -/
def selectRows (batchId : Nat) (logits : List Logit) (vocabulary : Nat) :
    (index : Nat) → BTreeMap Bool → List ScheduledSequence → Except Fault (List Token)
  | _, _, [] => .ok []
  | i, state, row :: rest => do
    let (token, state) ← selectRow sample s batchId (blockOf logits vocabulary i) state row
    let tokens ← selectRows batchId logits vocabulary (i + 1) state rest
    return token :: tokens

/-- `rows.checked_mul(vocabulary) != Some(logits.len())`, or no vocabulary at all. -/
def wrongShape (rows vocabulary : Nat) (logits : List Logit) : Prop :=
  vocabulary = 0 ∨ u64Max < rows * vocabulary ∨ rows * vocabulary ≠ logits.length

instance (rows vocabulary : Nat) (logits : List Logit) : Decidable (wrongShape rows vocabulary logits) :=
  inferInstanceAs (Decidable (_ ∨ _ ∨ _))

def selectBatchTokens (batchId : Nat) (logits : List Logit) (vocabulary : Nat) :
    Except Fault (List Token) := do
  let state ← batchSamplingState s batchId
  match s.inFlight.filter fun batch => batch.id = batchId with
  | none => .error (.error s!"batch {batchId} is not in flight")
  | some batch =>
    if wrongShape batch.sequences.length vocabulary logits then
      .error (.error "logit rows do not match the scheduled batch")
    else selectRows sample s batchId logits vocabulary 0 state batch.sequences

end

-- The gate

/-- `fence` tracks the launched batch: its id, the fence, and whether the fence
has been ready. -/
structure FencedBatchScheduler (F : Type) where
  scheduler : ContinuousBatchScheduler
  fence : Option (Nat × F × Bool)
  quarantined : Bool

/-- A fatal error kind is never rollback-safe. -/
def RuntimeErrorKind.fatal : RuntimeErrorKind → Bool
  | .deviceLost | .synchronization | .workerPanicked | .internal => true
  | _ => false

/-- A launch failure after which the batch may be rolled back. -/
def BatchLaunchFailure.recoverable (failure : BatchLaunchFailure) : Bool :=
  decide (failure.work ≠ .unknown) && failure.committedCacheIntact && !failure.error.kind.fatal

namespace FencedBatchScheduler

variable {F α : Type}

def new (scheduler : ContinuousBatchScheduler) : Except RuntimeError (FencedBatchScheduler F) :=
  if scheduler.inFlight.isSome then
    .error (.invalid "cannot wrap a scheduler with untracked in-flight work")
  else .ok { scheduler, fence := none, quarantined := false }

def ensureHealthy (g : FencedBatchScheduler F) : Except Halt Unit :=
  if g.quarantined then
    .error (.error ⟨.deviceLost, "scheduler is quarantined; device work may still be in flight"⟩)
  else .ok ()

/-- Errors of the scheduler become invalid input; a panic stays one. -/
def mapError : Fault → Halt
  | .error message => .error ⟨.invalidInput, message⟩
  | .panic message => .panic message

/-- A method of `self.scheduler`, with its errors mapped. -/
def onScheduler (m : BatchM α) (g : FencedBatchScheduler F) :
    Except Halt α × FencedBatchScheduler F :=
  let r := m.exec g.scheduler
  (r.1.mapError mapError, { g with scheduler := r.2 })

/-- `self.ensure_healthy()?` and then a method of the scheduler. -/
def gated (m : BatchM α) (g : FencedBatchScheduler F) : Except Halt α × FencedBatchScheduler F :=
  match g.ensureHealthy with
  | .error halt => (.error halt, g)
  | .ok () => g.onScheduler m

def submit (prompt : List Token) (generation : GreedyGenerationConfig) (g : FencedBatchScheduler F) :
    Except Halt RequestId × FencedBatchScheduler F :=
  g.gated (submitWithSampler prompt generation false)

/-- `rejected` is the error of `TokenSampler::new_with_options`, if it has one. -/
def submitSampled (prompt : List Token) (generation : GreedyGenerationConfig) (rejected : Option String)
    (g : FencedBatchScheduler F) : Except Halt RequestId × FencedBatchScheduler F :=
  g.gated (match rejected with
    | some message => M.fail message
    | none => submitWithSampler prompt generation true)

def cancel (id : RequestId) (g : FencedBatchScheduler F) :
    Except Halt (Option CancelledGeneration) × FencedBatchScheduler F :=
  g.gated (ContinuousBatchScheduler.cancel id)

def setBatchTokenLimit (limit : Nat) (g : FencedBatchScheduler F) :
    Except Halt Unit × FencedBatchScheduler F :=
  g.gated (ContinuousBatchScheduler.setBatchTokenLimit limit)

/-- The one method that a quarantine does not stop. -/
def popFinished (g : FencedBatchScheduler F) :
    Except Halt (Option FinishedGeneration) × FencedBatchScheduler F :=
  g.onScheduler ContinuousBatchScheduler.popFinished

section
variable (chain : ChainHash)

/-- The gate is quarantined while the closure runs, and stays so unless the
outcome shows that nothing of the batch can still be running. -/
def launch (submit : Submit F) (g : FencedBatchScheduler F) :
    Except Halt (Option ScheduledBatch) × FencedBatchScheduler F :=
  match g.ensureHealthy with
  | .error halt => (.error halt, g)
  | .ok () =>
    match g.onScheduler (schedule chain) with
    | (.error halt, g) => (.error halt, g)
    | (.ok none, g) => (.ok none, g)
    | (.ok (some batch), g) =>
      let g := { g with quarantined := true }
      match submit batch with
      | .panicked message => (.error (.panic message), g)
      | .returned (.ok fence) =>
        (.ok (some batch), { g with fence := some (batch.id, fence, false), quarantined := false })
      | .returned (.error failure) =>
        if failure.recoverable then
          match g.onScheduler (failBatch batch.id) with
          | (.error halt, g) => (.error halt, g)
          | (.ok (), g) => (.error (.error failure.error), { g with quarantined := false })
        else (.error (.error failure.error), g)

/-- A fence that has been ready is not polled again. -/
def pollFence (batchId : Nat) (poll : PollComplete F) (g : FencedBatchScheduler F) :
    Except Halt (Poll Unit) × FencedBatchScheduler F :=
  match g.ensureHealthy with
  | .error halt => (.error halt, g)
  | .ok () =>
    match g.fence with
    | none => (.error (.error (.invalid "no tracked device batch")), g)
    | some (id, fence, completed) =>
      if id ≠ batchId then (.error (.error (.invalid "stale or wrong batch fence ID")), g)
      else if completed then (.ok (.ready ()), g)
      else
        let g := { g with quarantined := true, fence := some (id, (poll fence).2, false) }
        match (poll fence).1 with
        | .panicked message => (.error (.panic message), g)
        | .returned .pending => (.ok .pending, { g with quarantined := false })
        | .returned (.ready (.ok ())) => (.ok (.ready ()),
            { g with quarantined := false, fence := some (id, (poll fence).2, true) })
        | .returned (.ready (.error error)) => (.error (.error error), g)

variable (sample : Sample)

/-- `select_batch_tokens` and then `complete_selected_batch`. -/
def completeLogits (batchId : Nat) (logits : List Logit) (vocabulary : Nat) (g : FencedBatchScheduler F) :
    Except Halt (List Token) × FencedBatchScheduler F :=
  match selectBatchTokens sample g.scheduler batchId logits vocabulary with
  | .error fault => (.error (mapError fault), g)
  | .ok tokens =>
    match g.onScheduler (completeBatch chain batchId tokens) with
    | (.error halt, g) => (.error halt, g)
    | (.ok (), g) => (.ok tokens, { g with fence := none })

/-- Validate host logits, select the tokens, then commit. -/
def tryCompleteLogits (batchId : Nat) (logits : List Logit) (vocabulary : Nat) (poll : PollComplete F)
    (g : FencedBatchScheduler F) : Except Halt (Poll (List Token)) × FencedBatchScheduler F :=
  match g.pollFence batchId poll with
  | (.error halt, g) => (.error halt, g)
  | (.ok .pending, g) => (.ok .pending, g)
  | (.ok (.ready ()), g) =>
    match g.scheduler.inFlight with
    | none => (.error (.panic "fence tracks an in-flight batch"), g)
    | some batch =>
      if wrongShape batch.batchSize vocabulary logits then
        (.error (.error (.invalid "logit shape does not match the fenced batch")), g)
      else
        match checkRows logits vocabulary batch.batchSize with
        | .error error => (.error (.error error), g)
        | .ok () =>
          match g.completeLogits chain sample batchId logits vocabulary with
          | (.error halt, g) => (.error halt, g)
          | (.ok tokens, g) => (.ok (.ready tokens), g)

end

/-- Roll back a failed tail once its fence is ready. -/
def tryRollback (batchId : Nat) (poll : PollComplete F) (g : FencedBatchScheduler F) :
    Except Halt (Poll Unit) × FencedBatchScheduler F :=
  match g.pollFence batchId poll with
  | (.error halt, g) => (.error halt, g)
  | (.ok .pending, g) => (.ok .pending, g)
  | (.ok (.ready ()), g) =>
    match g.onScheduler (failBatch batchId) with
    | (.error halt, g) => (.error halt, g)
    | (.ok (), g) => (.ok (.ready ()), { g with fence := none })

end FencedBatchScheduler
end Ruda.Batch
