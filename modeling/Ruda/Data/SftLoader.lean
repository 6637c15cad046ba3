import Ruda.Lib.Chunks

/-!
# The loader of training batches

A translation of `training/data.rs`: batches padded to their longest example, the order of
an epoch, and the endless stream of micro-batches over a data set, of which a rank takes
every `world_size`-th.
-/

namespace Ruda.Data

/-- The label of a token that is no target. -/
def ignoreIndex : Int := -100

/-- The labels are aligned with the tokens. -/
structure SftExample where
  inputIds : List Int
  labels : List Int
  aligned : labels.length = inputIds.length
  deriving DecidableEq

/-- A `Vec` has at most `isize::MAX` entries. -/
structure SftDataset where
  examples : List SftExample
  fits : examples.length < 2 ^ 63

structure SftBatch where
  batch : Nat
  length : Nat
  tokens : List Int
  targets : List Int
  targetCount : Nat
  deriving DecidableEq

/-- The longest shifted sequence, one token at the least. -/
def paddedLength (examples : List SftExample) : Nat :=
  max ((examples.map fun e => e.inputIds.length - 1).foldl max 0) 1

/-- One row: what of it are tokens and what are targets. -/
def collateRow (padTokenId : Int) (length : Nat) (e : SftExample) : Res Empty (List Int × List Int) := do
  let inputs := e.inputIds.take (e.inputIds.length - 1)
  let labels := e.labels.drop 1
  let padding ← subUsize length inputs.length
  let ignored ← subUsize length labels.length
  pure (inputs ++ List.replicate padding padTokenId, labels ++ List.replicate ignored ignoreIndex)

def collate (examples : List SftExample) (padTokenId : Int) : Res Empty SftBatch := do
  let length := paddedLength examples
  let rows ← examples.mapM (collateRow padTokenId length)
  let targets := rows.flatMap Prod.snd
  pure ⟨examples.length, length, rows.flatMap Prod.fst, targets, (targets.filter (0 ≤ ·)).length⟩

-- The order of an epoch

/-- The next value and the next state. -/
def splitMix (state : UInt64) : UInt64 × UInt64 :=
  let state := state + 0x9E3779B97F4A7C15
  let value := (state ^^^ (state >>> 30)) * 0xBF58476D1CE4E5B9
  let value := (value ^^^ (value >>> 27)) * 0x94D049BB133111EB
  (value ^^^ (value >>> 31), state)

/-- `order.swap`, with both places in range. -/
def swap (order : List Nat) (i j : Nat) : List Nat :=
  match order[i]?, order[j]? with
  | some a, some b => (order.set i b).set j a
  | _, _ => order

/-- One pass of the shuffle, over the state of the random numbers and the order. -/
def shuffleStep (s : UInt64 × List Nat) (index : Nat) : UInt64 × List Nat :=
  let next := splitMix s.1
  (next.2, swap s.2 index (next.1 % (UInt64.ofNat index + 1)).toNat)

def shuffled (random : UInt64) (count : Nat) : List Nat :=
  ((List.range' 1 (count - 1)).reverse.foldl shuffleStep (random, List.range count)).2

/-- `input_ids.len()` of an example. -/
def SftDataset.lengthAt (dataset : SftDataset) (index : Nat) : Nat :=
  (dataset.examples[index]?).elim 0 fun e => e.inputIds.length

/-- A stable sort, as `sort_by_key` is. -/
def SftDataset.sortWindow (dataset : SftDataset) (window : List Nat) : List Nat :=
  window.mergeSort fun a b => dataset.lengthAt a ≤ dataset.lengthAt b

structure SftLoaderState where
  epoch : Nat
  cursor : Nat
  seed : UInt64
  deriving DecidableEq

def SftDataset.order (dataset : SftDataset) (lengthWindow : Nat) (seed : UInt64) (epoch : Nat) : List Nat :=
  let random := seed ^^^ (UInt64.ofNat epoch * 0xA24BAED4963EE407)
  (chunks lengthWindow (shuffled random dataset.examples.length)).flatMap dataset.sortWindow

-- The loader

structure SftLoader where
  dataset : SftDataset
  microBatch : Nat
  padTokenId : Int
  lengthWindow : Nat
  rank : Nat
  worldSize : Nat
  state : SftLoaderState
  order : List Nat

namespace SftLoader

def reorder (loader : SftLoader) : SftLoader :=
  { loader with order := loader.dataset.order loader.lengthWindow loader.state.seed loader.state.epoch }

def new (dataset : SftDataset) (microBatch : Nat) (padTokenId : Int) (seed : UInt64) : Res Empty SftLoader :=
  if dataset.examples = [] ∨ microBatch = 0 then .error .panic
  else .ok (reorder ⟨dataset, microBatch, padTokenId, 64, 0, 1, ⟨0, 0, seed⟩, []⟩)

def withShard (loader : SftLoader) (rank worldSize : Nat) : Res Empty SftLoader :=
  if worldSize > 0 ∧ rank < worldSize then .ok { loader with rank, worldSize } else .error .panic

def withLengthWindow (loader : SftLoader) (window : Nat) : SftLoader :=
  reorder { loader with lengthWindow := max window 1 }

def restore (loader : SftLoader) (state : SftLoaderState) : SftLoader := reorder { loader with state }

/-- At the end of the order the next epoch begins. -/
def roll (loader : SftLoader) : Res Empty SftLoader :=
  if loader.state.cursor ≥ loader.order.length then
    if loader.state.epoch + 1 < 2 ^ 64 then
      .ok (reorder { loader with state := ⟨loader.state.epoch + 1, 0, loader.state.seed⟩ })
    else .error .panic
  else .ok loader

def exampleAt (dataset : SftDataset) (index : Nat) : Res Empty SftExample :=
  match dataset.examples[index]? with
  | some e => .ok e
  | none => .error .panic

/-- The batch of the examples at some indices. -/
def batchOf (dataset : SftDataset) (padTokenId : Int) (indices : List Nat) : Res Empty SftBatch := do
  let examples ← indices.mapM (exampleAt dataset)
  collate examples padTokenId

def nextGlobal (loader : SftLoader) : Res Empty (SftBatch × SftLoader) := do
  let loader ← loader.roll
  let stop ← addUsize loader.state.cursor loader.microBatch
  let stop := min stop loader.order.length
  let indices := (loader.order.take stop).drop loader.state.cursor
  let batch ← batchOf loader.dataset loader.padTokenId indices
  pure (batch, { loader with state := { loader.state with cursor := stop } })

/-- The passes of `next_batch` from a shard on, with the batch of this rank if it was there. -/
def nextShards : Nat → Nat → Option SftBatch → SftLoader → Res Empty (Option SftBatch × SftLoader)
  | 0, _, batch, loader => .ok (batch, loader)
  | n + 1, shard, batch, loader => do
    let next ← loader.nextGlobal
    nextShards n (shard + 1) (if shard = loader.rank then some next.1 else batch) next.2

def nextBatch (loader : SftLoader) : Res Empty (SftBatch × SftLoader) := do
  let (batch, loader) ← nextShards loader.worldSize 0 none loader
  match batch with
  | some batch => .ok (batch, loader)
  | none => .error .panic

/-- A loader for one rank, with all of its settings. -/
def build (dataset : SftDataset) (microBatch : Nat) (padTokenId : Int) (window rank worldSize : Nat) (seed : UInt64) :
    Res Empty SftLoader := do
  let loader ← new dataset microBatch padTokenId seed
  let loader ← loader.withShard rank worldSize
  pure (loader.withLengthWindow window)

/-- The batches of the first `n` calls. -/
def batches (n : Nat) (loader : SftLoader) : Res Empty (List SftBatch × SftLoader) := emit nextBatch n loader

end SftLoader

end Ruda.Data
