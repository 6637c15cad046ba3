import Ruda.Lib.Chunks

/-!
# Draws from a dataset

A translation of `transform/sampler.rs`. The generators of random numbers, the codec of a
checkpoint and the dataset that is sampled are parameters.
-/

namespace Ruda.Data

/-- What the sampler asks of a generator of random numbers. -/
structure Rng (R : Type) where
  uniform : R → (stop : Nat) → Nat × R
  sample : R → (len amount : Nat) → List Nat × R
  shuffle : R → List Nat → List Nat × R
  uniform_lt : ∀ r stop, 0 < stop → (uniform r stop).1 < stop
  sample_nodup : ∀ r len amount, (sample r len amount).1.Nodup
  sample_lt : ∀ r len amount, ∀ i ∈ (sample r len amount).1, i < len
  sample_length : ∀ r len amount, (sample r len amount).1.length = min amount len
  shuffle_perm : ∀ r l, (shuffle r l).1.Perm l

/-- `ChaCha12Rng`, whose state can be written and read. -/
structure ChaCha12Rng (R : Type) extends Rng R where
  serializeState : R → List UInt8
  deserializeState : List UInt8 → R
  deserialize_serialize : ∀ r, deserializeState (serializeState r) = r
  serialize_length : ∀ r, (serializeState r).length = 49
  serialize_last : ∀ r, (serializeState r).getD 48 0 &&& 0xf0 = 0

inductive SamplerRng (R S : Type)
  | checkpoint (rng : R)
  | supplied (rng : S)

structure SamplerCheckpoint where
  version : Nat
  size : Nat
  sourceLen : Nat
  withReplacement : Bool
  rng : List UInt8
  remaining : List Nat
  source : List UInt8
  deriving DecidableEq

/-- The dataset that is sampled, with a state of its own. -/
structure SampledDataset (T I : Type) where
  len : Nat
  get : T → Nat → Option I × T
  checkpoint : T → Except String (List UInt8)
  restoreCheckpoint : T → List UInt8 → Except String T

/-- `serde_json::to_vec` and `from_slice` -/
structure CheckpointCodec where
  toVec : SamplerCheckpoint → List UInt8
  fromSlice : List UInt8 → Except String SamplerCheckpoint
  fromSlice_toVec : ∀ c, fromSlice (toVec c) = .ok c

/-- What a sampler is made with. -/
structure SamplerParts (R S T I : Type) where
  chacha : ChaCha12Rng R
  std : Rng S
  dataset : SampledDataset T I
  codec : CheckpointCodec

inductive DrawState (R S : Type)
  | withReplacement (rng : SamplerRng R S)
  | withoutReplacement (rng : SamplerRng R S) (indices : List Nat)

structure SamplerDataset (R S T : Type) where
  size : Nat
  state : DrawState R S
  dataset : T

namespace SamplerDataset

variable {R S T I : Type}

def isWithReplacement (s : SamplerDataset R S T) : Bool :=
  match s.state with
  | .withReplacement _ => true
  | .withoutReplacement _ _ => false

def new (size : Nat) (replaceSamples : Bool) (rng : SamplerRng R S) (dataset : T) : SamplerDataset R S T :=
  ⟨size, if replaceSamples then .withReplacement rng else .withoutReplacement rng [], dataset⟩

variable (parts : SamplerParts R S T I)

section Rng

def uniform (rng : SamplerRng R S) (stop : Nat) : Nat × SamplerRng R S :=
  match rng with
  | .checkpoint rng => (parts.chacha.uniform rng stop).map id .checkpoint
  | .supplied rng => (parts.std.uniform rng stop).map id .supplied

def sample (rng : SamplerRng R S) (len amount : Nat) : List Nat × SamplerRng R S :=
  match rng with
  | .checkpoint rng => (parts.chacha.sample rng len amount).map id .checkpoint
  | .supplied rng => (parts.std.sample rng len amount).map id .supplied

def shuffle (rng : SamplerRng R S) (indices : List Nat) : List Nat × SamplerRng R S :=
  match rng with
  | .checkpoint rng => (parts.chacha.shuffle rng indices).map id .checkpoint
  | .supplied rng => (parts.std.shuffle rng indices).map id .supplied

def checkpointRng : SamplerRng R S → Except String (List UInt8)
  | .checkpoint rng => .ok (parts.chacha.serializeState rng)
  | .supplied _ => .error "An externally supplied StdRng has no portable state export; construct the sampler with a seed or system RNG for continuation"

def restoreRng (state : List UInt8) : Except String (SamplerRng R S) :=
  if state.length ≠ 49 ∨ state.getD 48 0 &&& 0xf0 ≠ 0 then .error "Invalid sampler ChaCha12 RNG state"
  else .ok (.checkpoint (parts.chacha.deserializeState state))

end Rng

/-- The whole source as often as it fits, and a sample of it for what is left. -/
def refill (rng : SamplerRng R S) (size len : Nat) : Res Empty (List Nat × SamplerRng R S) :=
  if len = 0 then throw .panic
  else
    let indices := (List.replicate (size / len) (List.range len)).flatten
    let (chosen, rng) := sample parts rng len (size - indices.length)
    pure (shuffle parts rng (indices ++ chosen))

/-- Refill the state where nothing is left. -/
def available (rng : SamplerRng R S) (indices : List Nat) (size len : Nat) : Res Empty (List Nat × SamplerRng R S) :=
  if indices = [] then refill parts rng size len else pure (indices, rng)

def index (s : SamplerDataset R S T) : Res Empty (Nat × SamplerDataset R S T) :=
  match s.state with
  | .withReplacement rng =>
    if parts.dataset.len = 0 then throw .panic
    else
      let (i, rng) := uniform parts rng parts.dataset.len
      pure (i, { s with state := .withReplacement rng })
  | .withoutReplacement rng indices => do
    let (indices, rng) ← available parts rng indices s.size parts.dataset.len
    match indices.getLast? with
    | none => throw .panic
    | some i => pure (i, { s with state := .withoutReplacement rng indices.dropLast })

/-- An index, and the item that the dataset has there. -/
def draw (s : SamplerDataset R S T) : Res Empty ((Nat × Option I) × SamplerDataset R S T) := do
  let (i, s) ← index parts s
  let (item, dataset) := parts.dataset.get s.dataset i
  pure ((i, item), { s with dataset })

def get (s : SamplerDataset R S T) (index : Nat) : Res Empty (Option I × SamplerDataset R S T) := do
  if index ≥ s.size then pure (none, s)
  else
    let (drawn, s) ← draw parts s
    pure (drawn.2, s)

def checkpoint (s : SamplerDataset R S T) : Except String (List UInt8) := do
  let (rng, withReplacement, remaining) := match s.state with
    | .withReplacement rng => (rng, true, [])
    | .withoutReplacement rng remaining => (rng, false, remaining)
  let rng ← checkpointRng parts rng
  let source ← parts.dataset.checkpoint s.dataset
  pure (parts.codec.toVec ⟨1, s.size, parts.dataset.len, withReplacement, rng, remaining, source⟩)

def restoreCheckpoint (s : SamplerDataset R S T) (record : List UInt8) : Except String (SamplerDataset R S T) := do
  let checkpoint ← parts.codec.fromSlice record
  if checkpoint.version ≠ 1 ∨ checkpoint.size ≠ s.size ∨ checkpoint.sourceLen ≠ parts.dataset.len ∨
      checkpoint.withReplacement ≠ s.isWithReplacement ∨ checkpoint.remaining.length > s.size ∨
      s.isWithReplacement = true ∧ checkpoint.remaining ≠ [] ∨
      checkpoint.remaining.any (fun index => index ≥ parts.dataset.len) = true then
    .error "Sampler checkpoint does not match the dataset and sampling configuration"
  else
    let rng ← restoreRng parts checkpoint.rng
    let dataset ← parts.dataset.restoreCheckpoint s.dataset checkpoint.source
    pure ⟨s.size, if s.isWithReplacement then .withReplacement rng else .withoutReplacement rng checkpoint.remaining, dataset⟩

-- What the draws are to be

/-- Draws without replacement: no index is drawn more than once more often than another. -/
structure Balanced (len size : Nat) (drawn : List Nat) : Prop where
  inside : ∀ i ∈ drawn, i < len
  count : ∀ i < len, drawn.count i = size / len ∨ drawn.count i = size / len + 1
  larger : ((List.range len).filter fun i => drawn.count i = size / len + 1).length = size % len

/-- The dataset that is sampled can be continued. -/
structure Continues (d : SampledDataset T I) : Prop where
  checkpoint : ∀ t, ∃ record, d.checkpoint t = .ok record
  restore : ∀ t t' record, d.checkpoint t = .ok record → d.restoreCheckpoint t' record = .ok t

/-- The generator is the sampler's own, of a seed or of the system. -/
def Own : SamplerRng R S → Prop
  | .checkpoint _ => True
  | .supplied _ => False

end SamplerDataset

end Ruda.Data
