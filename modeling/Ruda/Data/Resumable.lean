import Ruda.Data.Pipeline
import Ruda.Data.Views

/-!
# The resumable loader

A translation of the iterator of `dataloader/resumable.rs`. A loader and its clones share the
shuffle generator and a cached pool of read workers; every call gives back what it leaves of
them, also when it panics. A worker answers the request sent to it, so what a read returns does
not depend on when the workers run.
-/

namespace Ruda.Data

/-- The dataset of a loader. -/
structure ReadDataset (I : Type) where
  len : Nat
  get : Nat → Checked (Option I)
  getMany : List Nat → Checked (Option (List I))
  isReadOrderIndependent : Bool
  len_le : len ≤ usizeMax

structure DataLoaderState where
  version : Nat
  order : List Nat
  position : Nat
  batchSize : Nat
  shuffleState : Option (List UInt8)
  deriving DecidableEq

/-- Where `next` panics. -/
inductive ReadFault
  | index | stopped | job | batcher
  deriving DecidableEq

/-- A read that panics for want of an item has no other cause to tell. -/
def readDatasetItems {I : Type} (dataset : ReadDataset I) (indices : List Nat) (batchReading : Bool) : Checked (List I) :=
  if batchReading then do
    match ← dataset.getMany indices with
    | none => throw .panic
    | some items => if items.length ≠ indices.length then throw .panic else pure items
  else
    indices.mapM fun index => do
      match ← dataset.get index with
      | none => throw .panic
      | some item => pure item

/-- The threads of a pool, by whether they still run. -/
structure ReadWorkers where
  alive : List Bool

namespace ReadWorkers

def new (count : Nat) : ReadWorkers := ⟨List.replicate count true⟩

/-- `self.senders[worker].send(..)` -/
def send (pool : ReadWorkers) (worker : Nat) : Except ReadFault Unit :=
  match pool.alive[worker]? with
  | none => .error .index
  | some false => .error .stopped
  | some true => .ok ()

/-- `result.recv()`, with the panic of the job where it had one. -/
def recv {I : Type} : Checked (List I) → Except ReadFault (List I)
  | .ok items => .ok items
  | .error _ => .error .job

/-- Send every job to a worker of its own and receive the results in the order of the jobs. -/
def read {I : Type} (pool : ReadWorkers) (jobs : List (Checked (List I))) : Except ReadFault (List I) := do
  forM (List.range jobs.length) pool.send
  let results ← jobs.mapM recv
  pure results.flatten

end ReadWorkers

structure ResumableLoader (R I O : Type) where
  dataset : ReadDataset I
  batch : List I → Checked O
  batchSize : Nat
  workers : Nat
  batchReading : Bool
  chacha : ChaCha12Rng R
  batchSize_pos : 0 < batchSize

/-- What the clones of a loader have in common. -/
structure LoaderShared (R : Type) where
  rng : Option R
  workerPool : Option ReadWorkers

structure ResumableIterator where
  state : DataLoaderState
  workers : Option ReadWorkers
  reuseWorkers : Bool

namespace ResumableLoader

variable {R I O : Type} (l : ResumableLoader R I O)

def initialState (sh : LoaderShared R) : DataLoaderState × LoaderShared R :=
  match sh.rng with
  | none => (⟨1, List.range l.dataset.len, 0, l.batchSize, none⟩, sh)
  | some rng =>
    let (order, rng) := l.chacha.shuffle rng (List.range l.dataset.len)
    (⟨1, order, 0, l.batchSize, some (checkpointRng l.chacha rng)⟩, { sh with rng := some rng })

/-- How many workers may read at once. -/
def count : Nat := if l.dataset.isReadOrderIndependent then l.workers else 1

/-- The iterator's pool, the cached one, or a new one. -/
def takeWorkers (it : ResumableIterator) (sh : LoaderShared R) : ReadWorkers × LoaderShared R :=
  match it.workers with
  | some pool => (pool, sh)
  | none =>
    let (cached, sh) := if it.reuseWorkers then (sh.workerPool, { sh with workerPool := none }) else (none, sh)
    match cached with
    | some pool => if pool.alive.length ≠ l.count then (ReadWorkers.new l.count, sh) else (pool, sh)
    | none => (ReadWorkers.new l.count, sh)

def readItems (it : ResumableIterator) (sh : LoaderShared R) (indices : List Nat) :
    Except ReadFault (List I) × ResumableIterator × LoaderShared R :=
  if l.workers = 0 ∨ indices = [] then
    match readDatasetItems l.dataset indices l.batchReading with
    | .ok items => (.ok items, it, sh)
    | .error _ => (.error .job, it, sh)
  else
    let (pool, sh) := l.takeWorkers it sh
    let chunk := divCeil indices.length (min l.count indices.length)
    let jobs := (chunks chunk indices).map fun indices => readDatasetItems l.dataset indices l.batchReading
    match pool.read jobs with
    | .ok items => (.ok items, { it with workers := some pool }, sh)
    | .error .index => (.error .index, { it with workers := some pool }, sh)
    | .error e => (.error e, { it with workers := none }, sh)

def next (it : ResumableIterator) (sh : LoaderShared R) :
    Except ReadFault (Option O) × ResumableIterator × LoaderShared R :=
  if it.state.position = it.state.order.length then (.ok none, it, sh)
  else
    let stop := min (min (it.state.position + it.state.batchSize) usizeMax) it.state.order.length
    let indices := (it.state.order.drop it.state.position).take (stop - it.state.position)
    match l.readItems it sh indices with
    | (.error e, it, sh) => (.error e, it, sh)
    | (.ok items, it, sh) =>
      match l.batch items with
      | .error _ => (.error .batcher, it, sh)
      | .ok output => (.ok (some output), { it with state := { it.state with position := stop } }, sh)

/-- Keep the workers for the next iterator, but not while the thread unwinds. -/
def dropIterator (it : ResumableIterator) (sh : LoaderShared R) (panicking : Bool) : LoaderShared R :=
  if it.reuseWorkers && !panicking then
    if sh.workerPool.isNone then { sh with workerPool := it.workers } else sh
  else sh

def iter (sh : LoaderShared R) (reuseWorkers : Bool) : ResumableIterator × LoaderShared R :=
  (⟨(l.initialState sh).1, none, reuseWorkers⟩, (l.initialState sh).2)

/-- Whether the indices are in range and differ. -/
def checkOrder : (seen : List Bool) → List Nat → Except String Unit
  | _, [] => .ok ()
  | seen, index :: order =>
    match seen[index]? with
    | none => .error "Invalid shuffled dataset index"
    | some true => .error "Duplicate shuffled dataset index"
    | some false => checkOrder (seen.set index true) order

/-- The generator of a saved state, where all of the state fits the loader. -/
def checkState (sh : LoaderShared R) (state : DataLoaderState) : Except String (Option R) :=
  if state.version ≠ 1 ∨ state.order.length ≠ l.dataset.len ∨ state.position > state.order.length ∨
      state.batchSize ≠ l.batchSize then
    .error "Data loader checkpoint does not match the source or batch configuration"
  else do
    checkOrder (List.replicate state.order.length false) state.order
    let rng ← restoreRngs l.chacha state.shuffleState
    if sh.rng.isSome ≠ rng.isSome then .error "Shuffle configuration differs from the checkpoint" else pure rng

def iterFromCheckpoint (sh : LoaderShared R) (reuseWorkers : Bool) (saved : Option DataLoaderState) :
    Except String ResumableIterator × LoaderShared R :=
  match saved with
  | none => (.ok (l.iter sh reuseWorkers).1, (l.iter sh reuseWorkers).2)
  | some state =>
    match l.checkState sh state with
    | .error e => (.error e, sh)
    | .ok rng => (.ok ⟨state, none, reuseWorkers⟩, { sh with rng })

-- Runs

/-- A loader with all of its clones, and the iterators that are alive. -/
structure System (R : Type) where
  shared : LoaderShared R
  iterators : List ResumableIterator

/-- One call on a clone or on an iterator; a panic of `next` is caught by the caller. -/
inductive Step (l : ResumableLoader R I O) : System R → System R → Prop
  | start (s : System R) (reuse : Bool) (saved : Option DataLoaderState) (it : ResumableIterator)
      (h : (l.iterFromCheckpoint s.shared reuse saved).1 = .ok it) :
      Step l s ⟨(l.iterFromCheckpoint s.shared reuse saved).2, s.iterators ++ [it]⟩
  | reject (s : System R) (reuse : Bool) (saved : Option DataLoaderState) (e : String)
      (h : (l.iterFromCheckpoint s.shared reuse saved).1 = .error e) :
      Step l s ⟨(l.iterFromCheckpoint s.shared reuse saved).2, s.iterators⟩
  | next (s : System R) (k : Nat) (it : ResumableIterator) (h : s.iterators[k]? = some it) :
      Step l s ⟨(l.next it s.shared).2.2, s.iterators.set k (l.next it s.shared).2.1⟩
  | drop (s : System R) (k : Nat) (it : ResumableIterator) (panicking : Bool) (h : s.iterators[k]? = some it) :
      Step l s ⟨dropIterator it s.shared panicking, s.iterators.eraseIdx k⟩

/-- A new loader has no iterators and no workers yet. -/
def Reachable (s : System R) : Prop := ∃ rng, Relation.ReflTransGen l.Step ⟨⟨rng, none⟩, []⟩ s

/-- The order of an epoch after some more epochs. -/
def laterOrder (sh : LoaderShared R) : (epochs : Nat) → List Nat
  | 0 => (l.initialState sh).1.order
  | epochs + 1 => laterOrder (l.initialState sh).2 epochs

end ResumableLoader

end Ruda.Data
