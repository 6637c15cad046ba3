import Ruda.Data.Sampler

/-!
# Batches of a token budget

A sampler that cuts the order of its shard into batches that cost at most so many tokens. The
lengths of the samples are known from the start, so that a batch is planned before it is read.
-/

namespace Ruda.Data

inductive TokenBatchLayout
  | packed
  | padded
  deriving DecidableEq

structure TokenBatchOptions where
  maximumTokens : Nat
  maximumExamples : Option Nat
  layout : TokenBatchLayout
  deriving DecidableEq

namespace TokenBatchOptions

variable (options : TokenBatchOptions)

def refused (length : Nat) : Bool := length = 0 ∨ length > options.maximumTokens

def validateLengths (lengths : List Nat) : Res String Unit := do
  failIf (options.maximumTokens = 0 ∨ options.maximumExamples = some 0) "token batch limits must be positive"
  match lengths.findIdx? options.refused with
  | some index => throw (.err s!"sequence {index} is empty or exceeds the token budget; preprocess explicitly")
  | none => pure ()

end TokenBatchOptions

structure TokenBatchPlan where
  indices : List Nat
  realTokens : Nat
  maximumSequenceLength : Nat
  tokenSlots : Nat
  deriving DecidableEq

structure TokenBatchState where
  version : Nat
  sampler : SamplerState
  lengths : List Nat
  options : TokenBatchOptions
  deriving DecidableEq

structure ConsolidatedTokenBatchState where
  version : Nat
  sampler : ConsolidatedSamplerState
  lengths : List Nat
  options : TokenBatchOptions
  deriving DecidableEq

def TokenBatchState.validate (state : TokenBatchState) : Res String Unit := do
  state.sampler.validate
  failIf (state.version ≠ 1 ∨ state.lengths.length ≠ state.sampler.sourceLength)
    "token batch checkpoint length table/source geometry differs"
  state.options.validateLengths state.lengths

namespace ConsolidatedTokenBatchState

def validate (state : ConsolidatedTokenBatchState) : Res String Unit := do
  state.sampler.validate
  failIf (state.version ≠ 1 ∨ state.lengths.length ≠ state.sampler.sourceLength)
    "consolidated token batch metadata differs from its source"
  state.options.validateLengths state.lengths

def consolidate (states : List TokenBatchState) : Res String ConsolidatedTokenBatchState := do
  let first ← okOr states.head? "supply every data-rank token batch state"
  for state in states do
    state.validate
    failIf (state.lengths ≠ first.lengths ∨ state.options ≠ first.options)
      "data ranks use different encoded lengths or token batch policies"
  let sampler ← Data.consolidate (states.map TokenBatchState.sampler)
  let result : ConsolidatedTokenBatchState := { version := 1, sampler, lengths := first.lengths, options := first.options }
  result.validate
  return result

end ConsolidatedTokenBatchState

structure StatefulTokenBatchSampler where
  sampler : StatefulShardSampler
  lengths : List Nat
  options : TokenBatchOptions
  deriving DecidableEq

/-- What the loop of `peek` counts. -/
structure Tally where
  realTokens : Nat
  maximumSequenceLength : Nat
  count : Nat
  tokenSlots : Nat
  deriving DecidableEq

namespace StatefulTokenBatchSampler

def new (sampler : StatefulShardSampler) (lengths : List Nat) (options : TokenBatchOptions) :
    Res String StatefulTokenBatchSampler := do
  failIf (lengths.length ≠ sampler.state.sourceLength) "supply one encoded length per original source example"
  options.validateLengths lengths
  return { sampler, lengths, options }

def fromState (state : TokenBatchState) : Res String StatefulTokenBatchSampler := do
  state.validate
  new (← Data.fromState state.sampler) state.lengths state.options

def reshard (state : ConsolidatedTokenBatchState) (rank worldSize : Nat) : Res String StatefulTokenBatchSampler := do
  state.validate
  new (← Data.reshard state.sampler rank worldSize) state.lengths state.options

variable (batches : StatefulTokenBatchSampler)

def state : TokenBatchState where
  version := 1
  sampler := batches.sampler.state
  lengths := batches.lengths
  options := batches.options

def loadState (state : TokenBatchState) : Res String Unit × StatefulTokenBatchSampler :=
  match state.validate with
  | .error e => (.error e, batches)
  | .ok _ =>
    if state.lengths ≠ batches.lengths ∨ state.options ≠ batches.options then
      (.error (.err "token batch restoration requires unchanged encoded lengths and limits"), batches)
    else
      let (result, sampler) := batches.sampler.loadState state.sampler
      (result, { batches with sampler })

def commit (examples : Nat) : Res String Unit × StatefulTokenBatchSampler :=
  let (result, sampler) := batches.sampler.commit examples
  (result, { batches with sampler })

def rewindUncommitted : StatefulTokenBatchSampler := { batches with sampler := batches.sampler.rewindUncommitted }

/-- The slots of one row more, if they are a `usize`. -/
def slotsWith (tally : Tally) (length : Nat) : Option Nat :=
  match batches.options.layout with
  | .packed => checkedAdd tally.realTokens length
  | .padded => checkedMul (tally.count + 1) (max tally.maximumSequenceLength length)

/-- The loop of `peek`. -/
def count (tally : Tally) : List Nat → Res String Tally
  | [] => pure tally
  | index :: indices =>
    if batches.options.maximumExamples = some tally.count then pure tally
    else do
      let length ← get batches.lengths index
      match (batches.slotsWith tally length).filter (· ≤ batches.options.maximumTokens) with
      | none => pure tally
      | some slots =>
        let realTokens ← okOr (checkedAdd tally.realTokens length) "real token count overflow"
        count {
          realTokens
          maximumSequenceLength := max tally.maximumSequenceLength length
          count := tally.count + 1
          tokenSlots := slots } indices

def peek : Res String (Option TokenBatchPlan) := do
  let indices ← batches.sampler.unissuedIndices
  if indices = [] then return none
  let tally ← batches.count { realTokens := 0, maximumSequenceLength := 0, count := 0, tokenSlots := 0 } indices
  failIf (tally.count = 0) "next actual sample cannot fit the explicit token budget"
  return some {
    indices := indices.take tally.count
    realTokens := tally.realTokens
    maximumSequenceLength := tally.maximumSequenceLength
    tokenSlots := tally.tokenSlots }

def nextPlan : Res String (Option TokenBatchPlan) × StatefulTokenBatchSampler :=
  match batches.peek with
  | .error e => (.error e, batches)
  | .ok none => (.ok none, batches)
  | .ok (some plan) =>
    let (result, sampler) := batches.sampler.nextIndices plan.indices.length
    (result.map fun _ => some plan, { batches with sampler })

end StatefulTokenBatchSampler

end Ruda.Data
