import Ruda.Lib.Fallible
import Ruda.Lib.Strided

/-!
# A sampler whose shards can be dealt out anew

Every rank goes through its own shard of the epoch and commits what it consumed. The states of
all ranks are consolidated into what no rank has committed, which is dealt out to the ranks of
another topology.
-/

namespace Ruda.Data

inductive SampleTail
  | uneven
  | drop
  deriving DecidableEq

structure SamplerState where
  version : Nat
  sourceId : String
  sourceLength : Nat
  rank : Nat
  worldSize : Nat
  epoch : Nat
  shuffleSeed : Option Nat
  tail : SampleTail
  epochSize : Nat
  carriedConsumed : Nat
  scopeSize : Nat
  indices : List Nat
  committed : Nat
  deriving DecidableEq

structure ConsolidatedSamplerState where
  version : Nat
  sourceId : String
  sourceLength : Nat
  epoch : Nat
  shuffleSeed : Option Nat
  tail : SampleTail
  epochSize : Nat
  consumed : Nat
  remaining : List Nat
  deriving DecidableEq

def quota (length rank world : Nat) : Nat := length / world + if rank < length % world then 1 else 0

def checkIndices (indices : List Nat) (length : Nat) : Res String Unit :=
  failIf (¬(indices.Nodup ∧ ∀ index ∈ indices, index < length))
    "epoch indices repeat or lie outside the immutable dataset"

def SamplerState.validate (state : SamplerState) : Res String Unit := do
  failIf (state.version ≠ 1 ∨ state.sourceId = "" ∨ state.worldSize = 0 ∨ state.rank ≥ state.worldSize)
    "invalid sampler record identity or data topology"
  failIf (state.epochSize > state.sourceLength ∨
      checkedAdd state.carriedConsumed state.scopeSize ≠ some state.epochSize ∨
      state.indices.length ≠ quota state.scopeSize state.rank state.worldSize ∨ state.committed > state.indices.length)
    "sampler record scope/order/consumption counts differ"
  checkIndices state.indices state.sourceLength

def ConsolidatedSamplerState.validate (state : ConsolidatedSamplerState) : Res String Unit := do
  failIf (state.version ≠ 1 ∨ state.sourceId = "" ∨ state.epochSize > state.sourceLength ∨
      checkedAdd state.consumed state.remaining.length ≠ some state.epochSize)
    "invalid consolidated sampler identity or accounting"
  checkIndices state.remaining state.sourceLength

-- Consolidation

/-- The fields in which the states of all ranks agree. -/
structure Scope where
  sourceId : String
  sourceLength : Nat
  worldSize : Nat
  epoch : Nat
  shuffleSeed : Option Nat
  tail : SampleTail
  epochSize : Nat
  carriedConsumed : Nat
  scopeSize : Nat
  deriving DecidableEq

def SamplerState.scope (state : SamplerState) : Scope where
  sourceId := state.sourceId
  sourceLength := state.sourceLength
  worldSize := state.worldSize
  epoch := state.epoch
  shuffleSeed := state.shuffleSeed
  tail := state.tail
  epochSize := state.epochSize
  carriedConsumed := state.carriedConsumed
  scopeSize := state.scopeSize

/-- One state of the loop that finds the state of every rank. -/
def addRank (first : SamplerState) (ranks : BTreeMap SamplerState) (state : SamplerState) :
    Res String (BTreeMap SamplerState) := do
  state.validate
  failIf (state.scope ≠ first.scope) "sampler source, epoch, policy or scope differs between data ranks"
  failIf (∃ old ∈ ranks[state.rank]?, old ≠ state) "duplicate sampler coordinate has different committed state"
  return ranks.insert state.rank state

/-- An index that is out of range panics. -/
def get {α : Type} (l : List α) (i : Nat) : Res String α :=
  match l[i]? with
  | some x => .ok x
  | none => .error .panic

/-- One position of the loop over the scope. -/
def takePosition (ranks : List SamplerState) (world : Nat) (acc : Finset Nat × List Nat) (position : Nat) :
    Res String (Finset Nat × List Nat) := do
  let state ← get ranks (position % world)
  let localPosition := position / world
  let index ← get state.indices localPosition
  failIf (index ∈ acc.1) "data shards contain the same source sample"
  return (insert index acc.1, if localPosition ≥ state.committed then acc.2 ++ [index] else acc.2)

def consolidate (records : List SamplerState) : Res String ConsolidatedSamplerState := do
  let first ← okOr records.head? "consolidation needs every data rank"
  first.validate
  let ranks ← records.foldlM (addRank first) ∅
  failIf (∃ rank < first.worldSize, rank ∉ ranks) "sampler consolidation is missing a data coordinate"
  let ranks := (List.range first.worldSize).filterMap fun rank => ranks[rank]?
  let (_, remaining) ← (List.range first.scopeSize).foldlM (takePosition ranks first.worldSize) (∅, [])
  let result : ConsolidatedSamplerState := {
    version := 1
    sourceId := first.sourceId
    sourceLength := first.sourceLength
    epoch := first.epoch
    shuffleSeed := first.shuffleSeed
    tail := first.tail
    epochSize := first.epochSize
    consumed := first.carriedConsumed + (ranks.map SamplerState.committed).sum
    remaining }
  result.validate
  return result

-- The sampler

structure StatefulShardSampler where
  state : SamplerState
  issued : Nat
  deriving DecidableEq

def epochSizeOf (tail : SampleTail) (sourceLength worldSize : Nat) : Nat :=
  match tail with
  | .uneven => sourceLength
  | .drop => sourceLength / worldSize * worldSize

/-- The samples of the epoch in their order. `shuffle` is the permutation that a seed gives. -/
def epochOrder (shuffle : Nat → List Nat → List Nat) (sourceLength worldSize epoch : Nat) (shuffleSeed : Option Nat)
    (tail : SampleTail) : List Nat :=
  let order := match shuffleSeed with
    | some seed => shuffle (wrap64 (seed + epoch)) (List.range sourceLength)
    | none => List.range sourceLength
  order.take (epochSizeOf tail sourceLength worldSize)

def fromState (state : SamplerState) : Res String StatefulShardSampler := do
  state.validate
  return { state, issued := state.committed }

def newSampler (shuffle : Nat → List Nat → List Nat) (sourceId : String) (sourceLength rank worldSize epoch : Nat)
    (shuffleSeed : Option Nat) (tail : SampleTail) : Res String StatefulShardSampler := do
  failIf (sourceId = "" ∨ worldSize = 0 ∨ rank ≥ worldSize) "supply dataset identity and a valid data rank/world size"
  let state : SamplerState := {
    version := 1
    sourceId
    sourceLength
    rank
    worldSize
    epoch
    shuffleSeed
    tail
    epochSize := epochSizeOf tail sourceLength worldSize
    carriedConsumed := 0
    scopeSize := epochSizeOf tail sourceLength worldSize
    indices := dealt worldSize rank (epochOrder shuffle sourceLength worldSize epoch shuffleSeed tail)
    committed := 0 }
  state.validate
  return { state, issued := 0 }

def reshard (state : ConsolidatedSamplerState) (rank worldSize : Nat) : Res String StatefulShardSampler := do
  state.validate
  failIf (worldSize = 0 ∨ rank ≥ worldSize) "invalid target data coordinate"
  fromState {
    version := 1
    sourceId := state.sourceId
    sourceLength := state.sourceLength
    rank
    worldSize
    epoch := state.epoch
    shuffleSeed := state.shuffleSeed
    tail := state.tail
    epochSize := state.epochSize
    carriedConsumed := state.consumed
    scopeSize := state.remaining.length
    indices := dealt worldSize rank state.remaining
    committed := 0 }

namespace StatefulShardSampler

variable (sampler : StatefulShardSampler)

def nextIndices (maximum : Nat) : Res String (Option (List Nat)) × StatefulShardSampler :=
  if maximum = 0 then (.error (.err "sample batch size must be positive"), sampler)
  else
    let stop := min (min (sampler.issued + maximum) usizeMax) sampler.state.indices.length
    if stop = sampler.issued then (.ok none, sampler)
    else if stop < sampler.issued then (.error .panic, sampler)
    else (.ok (some ((sampler.state.indices.drop sampler.issued).take (stop - sampler.issued))), { sampler with issued := stop })

/-- `&self.state.indices[self.issued..]` -/
def unissuedIndices : Res String (List Nat) :=
  if sampler.issued ≤ sampler.state.indices.length then pure (sampler.state.indices.drop sampler.issued) else throw .panic

/-- `Iterator::next` -/
def next : Option Nat × StatefulShardSampler :=
  match sampler.state.indices[sampler.issued]? with
  | some item => (some item, { sampler with issued := sampler.issued + 1 })
  | none => (none, sampler)

def commit (count : Nat) : Res String Unit × StatefulShardSampler :=
  match checkedAdd sampler.state.committed count with
  | none => (.error (.err "committed sample count overflow"), sampler)
  | some committed =>
    if committed > sampler.issued then (.error (.err "cannot commit samples that have not been issued"), sampler)
    else (.ok (), { sampler with state := { sampler.state with committed } })

def rewindUncommitted : StatefulShardSampler := { sampler with issued := sampler.state.committed }

def startEpoch (shuffle : Nat → List Nat → List Nat) (epoch : Nat) : Res String Unit × StatefulShardSampler :=
  let state := sampler.state
  match newSampler shuffle state.sourceId state.sourceLength state.rank state.worldSize epoch state.shuffleSeed state.tail with
  | .error e => (.error e, sampler)
  | .ok sampler => (.ok (), sampler)

def loadState (state : SamplerState) : Res String Unit × StatefulShardSampler :=
  match state.validate with
  | .error e => (.error e, sampler)
  | .ok _ =>
    if (state.sourceId, state.sourceLength, state.rank, state.worldSize, state.shuffleSeed, state.tail) ≠
        (sampler.state.sourceId, sampler.state.sourceLength, sampler.state.rank, sampler.state.worldSize,
          sampler.state.shuffleSeed, sampler.state.tail) then
      (.error (.err "sampler source, configuration or topology changed; explicitly consolidate and reshard"), sampler)
    else (.ok (), { state, issued := state.committed })

end StatefulShardSampler

end Ruda.Data
