import Ruda.Data.BatchLoader

/-!
# The multi-threaded loader

A translation of `dataloader/multithread.rs`. Every worker iterates over its part of the dataset
and sends batches over a bounded queue to the iterator, which the consumer asks for the next one.
A step of a worker or of the consumer is a call that another thread may see: a look at the flag,
a batch that is made, a message sent or received, the wait for workers that return.
-/

namespace Ruda.Data

variable {R S I O : Type}

def maxQueuedItems : Nat := 100

/-- A message that can be sent between threads. -/
inductive Message (O : Type)
  | batch (index : Nat) (item : O) (progress : Progress)
  | done

/-- How far `run_worker` is. -/
inductive WorkerState (I O : Type)
  | ready
  | looping (iterator : BatchDataloaderIterator I)
  | sending (item : O) (progress : Progress) (iterator : BatchDataloaderIterator I)
  | finishing
  | returned (panicked : Bool)

def WorkerState.hasReturned : WorkerState I O → Bool
  | .returned _ => true
  | _ => false

def WorkerState.hasPanicked : WorkerState I O → Bool
  | .returned panicked => panicked
  | _ => false

/-- `iterator.next()` and the progress after it. -/
def WorkerState.produce (batch : List I → O) (iterator : BatchDataloaderIterator I) : WorkerState I O :=
  match iterator.next batch with
  | .error _ => .returned true
  | .ok none => .finishing
  | .ok (some (item, iterator)) =>
    match iterator.progress with
    | .error _ => .returned true
    | .ok progress => .sending item progress iterator

/-- The threads of the reusable pool. -/
inductive WorkerPoolState
  | uninitialized
  | idle (threads : Nat)
  | inUse
  deriving DecidableEq

structure MultiThreadsDataloaderIterator where
  numDone : Nat
  numWorkers : Nat
  receiver : Bool
  progresses : List Progress
  itemsTotal : Nat
  itemsProcessed : Nat

namespace MultiThreadsDataloaderIterator

/-- `iter().sum()` -/
def sum (counts : List Nat) : Checked Nat := counts.foldlM addUsize 0

def new (progresses : List Progress) : Checked MultiThreadsDataloaderIterator := do
  pure {
    numDone := 0
    numWorkers := progresses.length
    receiver := true
    itemsTotal := ← sum (progresses.map Progress.itemsTotal)
    itemsProcessed := ← sum (progresses.map Progress.itemsProcessed)
    progresses }

/-- The account of a batch that was received. -/
def receiveBatch (it : MultiThreadsDataloaderIterator) (index : Nat) (progress : Progress) :
    Checked MultiThreadsDataloaderIterator :=
  match it.progresses[index]? with
  | none => pure it
  | some current => do
    let itemsProcessed ← addUsize (← subUsize it.itemsProcessed current.itemsProcessed) progress.itemsProcessed
    let itemsTotal ← addUsize (← subUsize it.itemsTotal current.itemsTotal) progress.itemsTotal
    pure { it with itemsProcessed, itemsTotal, progresses := it.progresses.set index progress }

end MultiThreadsDataloaderIterator

/-- Why the iterator shuts down. -/
inductive StopCause
  | finished
  | disconnected
  | dropped
  deriving DecidableEq

/-- How far the consumer is: between two calls, waiting for a message, or in the shutdown. -/
inductive Consumer
  | idle
  | receiving
  | cancelling (cause : StopCause)
  | disconnecting (cause : StopCause)
  | joining (cause : StopCause)
  | panicked
  | dropped
  deriving DecidableEq

/-- An iterator, its workers and the queue between them, and what `next` has returned. -/
structure LoaderEpoch (I O : Type) where
  iterator : MultiThreadsDataloaderIterator
  workers : List (WorkerState I O)
  queue : List (Message O)
  cancelled : Bool
  lease : Option Nat
  consumer : Consumer
  results : List (Option O)

namespace LoaderEpoch

variable (e : LoaderEpoch I O)

def setWorker (i : Nat) (w : WorkerState I O) : LoaderEpoch I O := { e with workers := e.workers.set i w }

/-- A message that fits into the queue, and the worker after it. -/
def enqueue (i : Nat) (m : Message O) (w : WorkerState I O) : LoaderEpoch I O :=
  { e with queue := e.queue ++ [m], workers := e.workers.set i w }

/-- What `next` does with a message. -/
def receive (m : Message O) (queue : List (Message O)) : LoaderEpoch I O :=
  match m with
  | .batch index item progress =>
    match e.iterator.receiveBatch index progress with
    | .error _ => { e with queue, consumer := .panicked }
    | .ok iterator => { e with queue, iterator, consumer := .idle, results := e.results ++ [some item] }
  | .done =>
    { e with
      queue
      iterator := { e.iterator with numDone := e.iterator.numDone + 1 }
      consumer := if e.iterator.numDone + 1 = e.iterator.numWorkers then .cancelling .finished else .receiving }

/-- No sender is left. -/
def AllReturned : Prop := ∀ w ∈ e.workers, w.hasReturned = true

/-- The end of a shutdown, for what it was called. -/
def joined (cause : StopCause) : LoaderEpoch I O :=
  match cause with
  | .finished =>
    if e.workers.any WorkerState.hasPanicked then { e with lease := none, consumer := .panicked }
    else { e with lease := none, consumer := .idle, results := e.results ++ [none] }
  | .disconnected => { e with lease := none, consumer := .panicked }
  | .dropped => { e with lease := none, consumer := .dropped }

/-- The pool goes back to the loader, or is given up with a worker that panicked. -/
def released (pool : WorkerPoolState) : WorkerPoolState :=
  match e.lease with
  | none => pool
  | some threads => if e.workers.any WorkerState.hasPanicked then .uninitialized else .idle threads

end LoaderEpoch

/-- What a loader keeps from one iterator to the next. -/
structure LoaderState (R I : Type) where
  dataloaders : Option (List (BatchDataLoader R I))
  workerPool : WorkerPoolState

/-- A loader with an iterator. -/
structure Running (R I O : Type) where
  dataloaders : List (BatchDataLoader R I)
  workerPool : WorkerPoolState
  epoch : LoaderEpoch I O

def Running.loader (s : Running R I O) : LoaderState R I := ⟨some s.dataloaders, s.workerPool⟩

structure MultiThreadDataLoader (R S I O : Type) where
  gen : LoaderRng R S
  batchSize : Nat
  dataset : Dataset I
  batch : List I → O
  seed : Option S
  numThreads : Nat
  reuseWorkers : Bool
  batchReading : Bool

namespace MultiThreadDataLoader

variable (l : MultiThreadDataLoader R S I O)

/-- One generator for each new dataloader, from the first one. -/
def drawRngs (gen : LoaderRng R S) : Nat → Option R → List (Option R)
  | 0, _ => []
  | n + 1, none => none :: drawRngs gen n none
  | n + 1, some rng => some (gen.seedFromU64 (gen.sample rng).1) :: drawRngs gen n (some (gen.sample rng).2)

/-- The dataset, shuffled before it is split if there is a seed. -/
def source : Checked (Dataset I) :=
  match l.seed with
  | none => pure l.dataset
  | some seed => do
    let (shuffled, _) ← SelectionDataset.newShuffled l.gen l.dataset (l.gen.fromSeed seed)
    pure shuffled.toDataset

def initializeDataloaders : Checked (List (BatchDataLoader R I)) := do
  let datasets ← PartialDataset.splitChunks (← l.source) l.numThreads (if l.batchReading then max l.batchSize 1 else l.batchSize)
  let rngs := drawRngs l.gen l.numThreads (l.seed.map l.gen.fromSeed)
  pure (datasets.zipWith (fun p rng =>
    { batchSize := l.batchSize, dataset := p.toDataset, rng, batchReading := l.batchReading }) rngs)

/-- Force initialization if needed. -/
def getOrInit (s : LoaderState R I) : Checked (List (BatchDataLoader R I)) :=
  match s.dataloaders with
  | some dataloaders => pure dataloaders
  | none => l.initializeDataloaders

/-- The threads of the pool, if it is reused and not in use, and the state of the pool after. -/
def leaseWorkers (pool : WorkerPoolState) (numWorkers : Nat) : Option Nat × WorkerPoolState :=
  if l.reuseWorkers then
    match pool with
    | .inUse => (none, .inUse)
    | .idle threads => (some threads, .inUse)
    | .uninitialized => (some numWorkers, .inUse)
  else (none, pool)

/-- Every leased thread gets the job of one dataloader, or a thread is spawned for each of them. -/
def iter (s : LoaderState R I) : Checked (Running R I O) := do
  let dataloaders ← l.getOrInit s
  let progresses ← dataloaders.mapM fun dataloader => do pure (Progress.mk 0 (← dataloader.dataset.len))
  let iterator ← MultiThreadsDataloaderIterator.new progresses
  let (lease, workerPool) := l.leaseWorkers s.workerPool dataloaders.length
  pure {
    dataloaders
    workerPool
    epoch := {
      iterator
      workers := List.replicate (min (lease.getD dataloaders.length) dataloaders.length) .ready
      queue := []
      cancelled := false
      lease
      consumer := .idle
      results := [] } }

/-- Worker `i` makes its iterator. -/
def started (s : Running R I O) (i : Nat) (dataloader : BatchDataLoader R I) : Running R I O :=
  match dataloader.iter l.gen with
  | .error _ => { s with epoch := s.epoch.setWorker i (.returned true) }
  | .ok (iterator, rng) =>
    { s with dataloaders := s.dataloaders.set i { dataloader with rng }, epoch := s.epoch.setWorker i (.looping iterator) }

/-- Steps of the threads. The flag that cancels may be seen late. -/
inductive Internal : Running R I O → Running R I O → Prop
  | skip {s : Running R I O} {i : Nat} (hw : s.epoch.workers[i]? = some .ready) (hflag : s.epoch.cancelled = true) :
    Internal s { s with epoch := s.epoch.setWorker i (.returned false) }
  | start {s : Running R I O} {i : Nat} {dataloader : BatchDataLoader R I} (hw : s.epoch.workers[i]? = some .ready)
      (hd : s.dataloaders[i]? = some dataloader) : Internal s (l.started s i dataloader)
  | leave {s : Running R I O} {i : Nat} {iterator : BatchDataloaderIterator I}
      (hw : s.epoch.workers[i]? = some (.looping iterator)) (hflag : s.epoch.cancelled = true) :
    Internal s { s with epoch := s.epoch.setWorker i .finishing }
  | produce {s : Running R I O} {i : Nat} {iterator : BatchDataloaderIterator I}
      (hw : s.epoch.workers[i]? = some (.looping iterator)) :
    Internal s { s with epoch := s.epoch.setWorker i (.produce l.batch iterator) }
  | sendBatch {s : Running R I O} {i : Nat} {item : O} {progress : Progress} {iterator : BatchDataloaderIterator I}
      (hw : s.epoch.workers[i]? = some (.sending item progress iterator)) (hopen : s.epoch.iterator.receiver = true)
      (hroom : s.epoch.queue.length < maxQueuedItems) :
    Internal s { s with epoch := s.epoch.enqueue i (.batch i item progress) (.looping iterator) }
  | failBatch {s : Running R I O} {i : Nat} {item : O} {progress : Progress} {iterator : BatchDataloaderIterator I}
      (hw : s.epoch.workers[i]? = some (.sending item progress iterator)) (hclosed : s.epoch.iterator.receiver = false) :
    Internal s { s with epoch := s.epoch.setWorker i (.returned false) }
  | sendDone {s : Running R I O} {i : Nat} (hw : s.epoch.workers[i]? = some .finishing)
      (hopen : s.epoch.iterator.receiver = true) (hroom : s.epoch.queue.length < maxQueuedItems) :
    Internal s { s with epoch := s.epoch.enqueue i .done (.returned false) }
  | failDone {s : Running R I O} {i : Nat} (hw : s.epoch.workers[i]? = some .finishing)
      (hclosed : s.epoch.iterator.receiver = false) :
    Internal s { s with epoch := s.epoch.setWorker i (.returned false) }
  | receive {s : Running R I O} {m : Message O} {queue : List (Message O)} (hc : s.epoch.consumer = .receiving)
      (hq : s.epoch.queue = m :: queue) : Internal s { s with epoch := s.epoch.receive m queue }
  | hangUp {s : Running R I O} (hc : s.epoch.consumer = .receiving) (hq : s.epoch.queue = []) (hw : s.epoch.AllReturned) :
    Internal s { s with epoch := { s.epoch with consumer := .cancelling .disconnected } }
  | cancel {s : Running R I O} {cause : StopCause} (hc : s.epoch.consumer = .cancelling cause) :
    Internal s { s with epoch := { s.epoch with cancelled := true, consumer := .disconnecting cause } }
  | disconnect {s : Running R I O} {cause : StopCause} (hc : s.epoch.consumer = .disconnecting cause) :
    Internal s { s with
      epoch := { s.epoch with iterator := { s.epoch.iterator with receiver := false }, queue := [], consumer := .joining cause } }
  | join {s : Running R I O} {cause : StopCause} (hc : s.epoch.consumer = .joining cause) (hw : s.epoch.AllReturned) :
    Internal s { s with workerPool := s.epoch.released s.workerPool, epoch := s.epoch.joined cause }

/-- Calls of the consumer. -/
inductive Client : Running R I O → Running R I O → Prop
  | nextClosed {s : Running R I O} (hc : s.epoch.consumer = .idle)
      (hclosed : s.epoch.iterator.receiver = false ∨ s.epoch.iterator.numWorkers = 0) :
    Client s { s with epoch := { s.epoch with results := s.epoch.results ++ [none] } }
  | next {s : Running R I O} (hc : s.epoch.consumer = .idle) (hopen : s.epoch.iterator.receiver = true)
      (hworkers : s.epoch.iterator.numWorkers ≠ 0) : Client s { s with epoch := { s.epoch with consumer := .receiving } }
  | drop {s : Running R I O} (hc : s.epoch.consumer = .idle) :
    Client s { s with epoch := { s.epoch with consumer := .cancelling .dropped } }

/-- The states of a loader whose iterators are used one after the other. -/
inductive Reachable : Running R I O → Prop
  | first {s : Running R I O} (h : l.iter ⟨none, .uninitialized⟩ = .ok s) : Reachable s
  | internal {s s' : Running R I O} (hs : Reachable s) (h : l.Internal s s') : Reachable s'
  | client {s s' : Running R I O} (hs : Reachable s) (h : Client s s') : Reachable s'
  | again {s s' : Running R I O} (hs : Reachable s) (hdropped : s.epoch.consumer = .dropped) (h : l.iter s.loader = .ok s') :
    Reachable s'

/-- The loader of one thread over the same dataset, without a seed. -/
def singleThread : BatchDataLoader R I where
  batchSize := l.batchSize
  dataset := l.dataset
  rng := none
  batchReading := l.batchReading

end MultiThreadDataLoader

end Ruda.Data
