import Ruda.Data.SamplerDataset
import Ruda.Lib.Bytes
import Ruda.Lib.Machine

/-!
# Checkpoints of a data pipeline

A translation of the `checkpoint` and `restore_checkpoint` functions of `dataset/base.rs` (the
stateless dataset) and of `transform/{composed,partial,window,sampler}.rs`, and of
`checkpoint_source` and `restore_source` of `dataloader/resumable.rs`. A restore that fails
returns the pipeline as it leaves it. The codecs of the records, the batcher and the generators
of random numbers are parameters.
-/

namespace Ruda.Data

/-- A library's writer and reader of a record. -/
structure RecordCodec (A : Type) where
  toVec : A → List UInt8
  fromSlice : List UInt8 → Except String A
  fromSlice_toVec : ∀ a, fromSlice (toVec a) = .ok a

/-- What the datasets of a pipeline are made with. -/
structure PipelineParts (R S : Type) where
  chacha : ChaCha12Rng R
  std : Rng S
  sampler : CheckpointCodec
  composed : RecordCodec (Nat × List (Nat × List UInt8))
  windows : RecordCodec (Nat × Nat × List UInt8)

/-- The parts of a sampler over `len` items; the dataset that it samples is a node of its own. -/
def PipelineParts.draws {R S : Type} (parts : PipelineParts R S) (len : Nat) : SamplerParts R S Unit Unit where
  chacha := parts.chacha
  std := parts.std
  dataset := ⟨len, fun t _ => (none, t), fun _ => .ok [], fun _ _ => .ok ()⟩
  codec := parts.sampler

mutual
/-- A dataset over stateless sources. -/
inductive Source (R S : Type) where
  | stateless (len : Nat)
  | composed (datasets : Sources R S)
  | part (dataset : Source R S) (startIndex endIndex : Nat)
  | windows (dataset : Source R S) (size : Nat)
  | sampler (dataset : Source R S) (size : Nat) (state : DrawState R S)
inductive Sources (R S : Type) where
  | nil
  | cons (dataset : Source R S) (datasets : Sources R S)
end

/-- The mode that a sampler is made with. -/
def DrawState.isWithReplacement {R S : Type} : DrawState R S → Bool
  | .withReplacement _ => true
  | .withoutReplacement _ _ => false

/-- `max(len as isize - size as isize + 1, 0) as usize`, in a release build. -/
def windowsLen (len size : Nat) : Nat :=
  let len := wrap64 (wrapSub len size + 1)
  if len < 2 ^ 63 then len else 0

mutual
def Source.len {R S : Type} : Source R S → Nat
  | .stateless len => len
  | .composed datasets => datasets.total
  | .part dataset startIndex endIndex => min (wrapSub endIndex startIndex) dataset.len
  | .windows dataset size => windowsLen dataset.len size
  | .sampler _ size _ => size
def Sources.total {R S : Type} : Sources R S → Nat
  | .nil => 0
  | .cons dataset datasets => wrap64 (dataset.len + datasets.total)
end

def Sources.lens {R S : Type} : Sources R S → List Nat
  | .nil => []
  | .cons dataset datasets => dataset.len :: datasets.lens

section

variable {R S : Type} (parts : PipelineParts R S)

-- Checkpoints

/-- A sampler's record, around the one of its dataset. -/
def samplerCheckpoint (size sourceLen : Nat) (state : DrawState R S) (source : Except String (List UInt8)) :
    Except String (List UInt8) := do
  let (rng, withReplacement, remaining) := match state with
    | .withReplacement rng => (rng, true, [])
    | .withoutReplacement rng remaining => (rng, false, remaining)
  let rng ← SamplerDataset.checkpointRng (parts.draws sourceLen) rng
  let source ← source
  pure (parts.sampler.toVec ⟨1, size, sourceLen, withReplacement, rng, remaining, source⟩)

mutual
def Source.checkpoint : Source R S → Except String (List UInt8)
  | .stateless _ => .ok []
  | .composed datasets => do pure (parts.composed.toVec (1, ← datasets.checkpoints))
  | .part dataset startIndex endIndex => do pure (leBytes 8 startIndex ++ leBytes 8 endIndex ++ (← dataset.checkpoint))
  | .windows dataset size => do pure (parts.windows.toVec (1, size, ← dataset.checkpoint))
  | .sampler dataset size state => samplerCheckpoint parts size dataset.len state dataset.checkpoint
def Sources.checkpoints : Sources R S → Except String (List (Nat × List UInt8))
  | .nil => .ok []
  | .cons dataset datasets => do
    let state ← dataset.checkpoint
    pure ((dataset.len, state) :: (← datasets.checkpoints))
end

-- What a record is checked for

/-- The records of the datasets of a composition. -/
def composedStates (lens : List Nat) (state : List UInt8) : Except String (List (List UInt8)) := do
  let (version, sources) ← parts.composed.fromSlice state
  if version ≠ 1 ∨ sources.length ≠ lens.length ∨ (sources.zip lens).any (fun ((len, _), own) => len ≠ own) then
    .error "Composed dataset sources differ from checkpoint"
  else pure (sources.map Prod.snd)

/-- The record of the dataset of a part. -/
def partState (startIndex endIndex : Nat) (state : List UInt8) : Except String (List UInt8) :=
  if state.length < 16 ∨ state.take 8 ≠ leBytes 8 startIndex ∨ (state.drop 8).take 8 ≠ leBytes 8 endIndex then
    .error "Partial dataset bounds differ from checkpoint"
  else .ok (state.drop 16)

def windowsState (size : Nat) (state : List UInt8) : Except String (List UInt8) := do
  let (version, saved, dataset) ← parts.windows.fromSlice state
  if version ≠ 1 ∨ saved ≠ size then .error "Window dataset size differs from checkpoint" else pure dataset

/-- The state of a sampler and the record of its dataset. -/
def samplerState (size sourceLen : Nat) (withReplacement : Bool) (record : List UInt8) :
    Except String (DrawState R S × List UInt8) := do
  let checkpoint ← parts.sampler.fromSlice record
  if checkpoint.version ≠ 1 ∨ checkpoint.size ≠ size ∨ checkpoint.sourceLen ≠ sourceLen ∨
      checkpoint.withReplacement ≠ withReplacement ∨ checkpoint.remaining.length > size ∨
      withReplacement = true ∧ checkpoint.remaining ≠ [] ∨
      checkpoint.remaining.any (fun index => index ≥ sourceLen) = true then
    .error "Sampler checkpoint does not match the dataset and sampling configuration"
  else
    let rng ← SamplerDataset.restoreRng (parts.draws sourceLen) checkpoint.rng
    pure (if withReplacement then .withReplacement rng else .withoutReplacement rng checkpoint.remaining, checkpoint.source)

-- Restores

mutual
/-- Restore the mutable state, and what the call leaves. -/
def Source.restoreCheckpoint : Source R S → List UInt8 → Except String Unit × Source R S
  | .stateless len, state =>
    (if state = [] then .ok () else .error "Stateless dataset checkpoint is not empty", .stateless len)
  | .composed datasets, state =>
    match composedStates parts datasets.lens state with
    | .error e => (.error e, .composed datasets)
    | .ok states => ((datasets.restoreAll states).1, .composed (datasets.restoreAll states).2)
  | .part dataset startIndex endIndex, state =>
    match partState startIndex endIndex state with
    | .error e => (.error e, .part dataset startIndex endIndex)
    | .ok state =>
      ((dataset.restoreCheckpoint state).1, .part (dataset.restoreCheckpoint state).2 startIndex endIndex)
  | .windows dataset size, state =>
    match windowsState parts size state with
    | .error e => (.error e, .windows dataset size)
    | .ok state => ((dataset.restoreCheckpoint state).1, .windows (dataset.restoreCheckpoint state).2 size)
  | .sampler dataset size own, record =>
    match samplerState parts size dataset.len own.isWithReplacement record with
    | .error e => (.error e, .sampler dataset size own)
    | .ok (restored, source) =>
      match dataset.restoreCheckpoint source with
      | (.error e, dataset) => (.error e, .sampler dataset size own)
      | (.ok (), dataset) => (.ok (), .sampler dataset size restored)
/-- The datasets one after the other, up to the first error. -/
def Sources.restoreAll : Sources R S → List (List UInt8) → Except String Unit × Sources R S
  | .nil, _ => (.ok (), .nil)
  | .cons dataset datasets, [] => (.ok (), .cons dataset datasets)
  | .cons dataset datasets, state :: states =>
    match dataset.restoreCheckpoint state with
    | (.error e, dataset) => (.error e, .cons dataset datasets)
    | (.ok (), dataset) => ((datasets.restoreAll states).1, .cons dataset (datasets.restoreAll states).2)
end

end

-- The loader

section

variable {R S B : Type}

/-- `checkpoint_rng` -/
def checkpointRng (chacha : ChaCha12Rng R) (rng : R) : List UInt8 := [0x52, 0x43, 0x31, 0x32] ++ chacha.serializeState rng

/-- `restore_rng` -/
def restoreRng (chacha : ChaCha12Rng R) (record : List UInt8) : Except String R :=
  if record.length ≠ 53 ∨ record.take 4 ≠ [0x52, 0x43, 0x31, 0x32] ∨ record.getD 52 0 &&& 0xf0 ≠ 0 then
    .error "invalid or incompatible ChaCha12 RNG checkpoint"
  else .ok (chacha.deserializeState (record.drop 4))

/-- `rng.as_deref().map(restore_rng).transpose()` -/
def restoreRngs (chacha : ChaCha12Rng R) : Option (List UInt8) → Except String (Option R)
  | none => .ok none
  | some record => do pure (some (← restoreRng chacha record))

/-- A batcher that can be continued. -/
structure Batcher (B : Type) where
  checkpoint : B → Except String (List UInt8)
  restoreCheckpoint : B → List UInt8 → Except String B
  restore_checkpoint : ∀ b b' record, checkpoint b = .ok record → restoreCheckpoint b' record = .ok b

/-- The record of a data source. -/
structure SourceState where
  version : Nat
  len : Nat
  batchSize : Nat
  workers : Nat
  batchReading : Bool
  rng : Option (List UInt8)
  dataset : List UInt8
  batcher : List UInt8
  deriving DecidableEq

/-- `bincode::serde::{encode_to_vec, decode_from_slice}`, which says how much it has read. -/
structure SourceCodec where
  encode : SourceState → List UInt8
  decode : List UInt8 → Except String (SourceState × Nat)
  decode_encode : ∀ s, decode (encode s) = .ok (s, (encode s).length)

structure LoaderParts (R S B : Type) extends PipelineParts R S where
  batcher : Batcher B
  source : SourceCodec

/-- What a loader is made of that a checkpoint is about. -/
structure SourceLoader (R S B : Type) where
  dataset : Source R S
  batcher : B
  batchSize : Nat
  workers : Nat
  batchReading : Bool
  rng : Option R

namespace SourceLoader

variable (parts : LoaderParts R S B)

def checkpointSource (l : SourceLoader R S B) : Except String (List UInt8) := do
  let dataset ← l.dataset.checkpoint parts.toPipelineParts
  let batcher ← parts.batcher.checkpoint l.batcher
  pure (parts.source.encode
    ⟨1, l.dataset.len, l.batchSize, l.workers, l.batchReading, l.rng.map (checkpointRng parts.chacha), dataset, batcher⟩)

/-- The generator and the records of the dataset and of the batcher. -/
def sourceStates (l : SourceLoader R S B) (bytes : List UInt8) : Except String (Option R × List UInt8 × List UInt8) := do
  let (state, read) ← parts.source.decode bytes
  if read ≠ bytes.length ∨ state.version ≠ 1 ∨ state.len ≠ l.dataset.len ∨ state.batchSize ≠ l.batchSize ∨
      state.workers ≠ l.workers ∨ state.batchReading ≠ l.batchReading ∨ state.rng.isSome ≠ l.rng.isSome then
    .error "Data source configuration differs from checkpoint"
  else
    let rng ← restoreRngs parts.chacha state.rng
    pure (rng, state.dataset, state.batcher)

def restoreSource (l : SourceLoader R S B) (bytes : List UInt8) : Except String Unit × SourceLoader R S B :=
  match sourceStates parts l bytes with
  | .error e => (.error e, l)
  | .ok (rng, dataset, batcher) =>
    match l.dataset.restoreCheckpoint parts.toPipelineParts dataset with
    | (.error e, dataset) => (.error e, { l with dataset })
    | (.ok (), dataset) =>
      match parts.batcher.restoreCheckpoint l.batcher batcher with
      | .error e => (.error e, { l with dataset })
      | .ok batcher => (.ok (), { l with dataset, batcher, rng })

end SourceLoader

end

end Ruda.Data
