import Ruda.Lib.Exec
import Ruda.Lib.Machine

/-!
# The multi-stream scheduler

`SchedulerMultiStream` of `ruda-runtime/src/runtime/stream/scheduler.rs` over
the `StreamPool` of `base.rs`. Logical streams share `max_streams` physical
ones. A registered task waits in the queue of its physical stream until that
stream is executed, which hands the tasks to the backend.

The backend is its call log: `trace` lists the `B::enqueue` and `B::flush`
calls in the order they were made, each with the slot of the backend stream it
was made on. Logging is left out.
-/

namespace Ruda.Stream

/-- A logical stream, a `u64` in the source. -/
structure StreamId where
  value : UInt64
  deriving DecidableEq, Repr

/-- `stream_index`: a remainder by zero panics, so callers go through `indexOf`. -/
def streamIndex (id : StreamId) (maxStreams : Nat) : Nat := id.value.toNat % maxStreams

/-- A call made on the backend stream of a slot. -/
inductive Event (τ : Type)
  | enqueue (task : τ) (slot : Nat)
  | flush (slot : Nat)
  deriving DecidableEq, Repr

inductive SchedulerStrategy
  | interleave
  | sequential
  deriving DecidableEq, Repr

structure SchedulerMultiStreamOptions where
  maxStreams : UInt8
  maxTasks : Nat
  strategy : SchedulerStrategy

/-- The pool holds a task queue for each slot, `none` until the slot is first used. -/
structure SchedulerMultiStream (τ : Type) where
  streams : List (Option (List τ))
  maxStreams : Nat
  strategy : SchedulerStrategy
  maxTasks : Nat
  trace : List (Event τ)

/-- The tasks of one stream still to be enqueued, and how many there were. -/
structure Schedule (τ : Type) where
  tasks : List τ
  numTasks : Nat
  streamIndex : Nat

namespace SchedulerMultiStream

variable {τ α : Type}

def new (options : SchedulerMultiStreamOptions) : SchedulerMultiStream τ where
  streams := List.replicate options.maxStreams.toNat none
  maxStreams := options.maxStreams.toNat
  strategy := options.strategy
  maxTasks := options.maxTasks
  trace := []

/-- `pool.stream_index(id)` -/
def indexOf (id : StreamId) : M (SchedulerMultiStream τ) Nat := do
  let s ← get
  if s.maxStreams = 0 then
    M.panic "attempt to calculate the remainder with a divisor of zero"
  else pure (Stream.streamIndex id s.maxStreams)

/-- `pool.get_mut_index(index)` and what the caller does with the task queue it
borrows. A slot used for the first time starts with an empty queue. -/
def getMutIndex (index : Nat) (use : List τ → α × List τ) : M (SchedulerMultiStream τ) α := do
  let s ← get
  let entry ← M.expect s.streams[index]? "index out of bounds"
  let (result, tasks) := use (entry.getD [])
  set { s with streams := s.streams.set index (some tasks) }
  return result

/-- A borrow for the sake of the backend stream; the queue stays as it is. -/
def borrow (index : Nat) : M (SchedulerMultiStream τ) Unit := getMutIndex index fun tasks => ((), tasks)

/-- `Stream::flush`: take the queue, leaving it empty. -/
def flush (index : Nat) : M (SchedulerMultiStream τ) (List τ) := getMutIndex index fun tasks => (tasks, [])

def backend (event : Event τ) : M (SchedulerMultiStream τ) PUnit :=
  modify fun s => { s with trace := s.trace ++ [event] }

def executeSchedulesSequence (schedules : List (Schedule τ)) : M (SchedulerMultiStream τ) PUnit :=
  schedules.forM fun schedule => do
    borrow schedule.streamIndex
    schedule.tasks.forM fun task => backend (.enqueue task schedule.streamIndex)
    backend (.flush schedule.streamIndex)

/-- `rounds` passes over the schedules, each enqueueing the next task of every
schedule that has one left. -/
def interleaveRounds (executionIndex : Nat) : Nat → List (Schedule τ) → M (SchedulerMultiStream τ) PUnit
  | 0, _ => pure ⟨⟩
  | rounds + 1, schedules => do
    schedules.forM fun schedule =>
      match schedule.tasks with
      | [] => pure ⟨⟩
      | task :: _ => backend (.enqueue task executionIndex)
    interleaveRounds executionIndex rounds
      (schedules.map fun schedule => { schedule with tasks := schedule.tasks.tail })

/-- All tasks go to the stream of the first schedule: the others are flushed
before, that one after. -/
def executeSchedulesInterleave (schedules : List (Schedule τ)) : M (SchedulerMultiStream τ) PUnit := do
  (schedules.drop 1).forM fun schedule => do
    borrow schedule.streamIndex
    backend (.flush schedule.streamIndex)
  let first ← M.expect schedules.head? "At least one stream"
  borrow first.streamIndex
  let numTasksMax ← M.expect (schedules.map (·.numTasks)).max? "At least one schedule"
  interleaveRounds first.streamIndex numTasksMax schedules
  backend (.flush first.streamIndex)

def executeSchedules (schedules : List (Schedule τ)) : M (SchedulerMultiStream τ) PUnit := do
  match (← get).strategy with
  | .interleave => executeSchedulesInterleave schedules
  | .sequential => executeSchedulesSequence schedules

/-- Take a stream's tasks into a schedule. -/
def scheduleOf (index : Nat) : M (SchedulerMultiStream τ) (Schedule τ) := do
  let tasks ← flush index
  return { tasks, numTasks := tasks.length, streamIndex := index }

def executeStreamIndex (index : Nat) : M (SchedulerMultiStream τ) PUnit := do
  let schedule ← scheduleOf index
  executeSchedules [schedule]

/-- The loop of `execute_streams` over the ids, with its bit set of the indices
seen so far: four 64-bit words, one bit an index. -/
def uniqueIndices : List StreamId → List (BitVec 64) → List Nat → M (SchedulerMultiStream τ) (List Nat)
  | [], _, indices => pure indices
  | id :: ids, seen, indices => do
    let index ← indexOf id
    let word ← M.expect seen[index / 64]? "index out of bounds"
    let mask := 1#64 <<< (index % 64)
    if word &&& mask = 0 then
      uniqueIndices ids (seen.set (index / 64) (word ||| mask)) (indices ++ [index])
    else uniqueIndices ids seen indices

def executeStreams (streamIds : List StreamId) : M (SchedulerMultiStream τ) PUnit := do
  match streamIds with
  | [id] =>
    let index ← indexOf id
    executeStreamIndex index
  | _ =>
    let indices ← uniqueIndices streamIds (List.replicate 4 0) []
    match indices with
    | [index] => executeStreamIndex index
    | _ =>
      let schedules ← indices.mapM scheduleOf
      if schedules.isEmpty then pure ⟨⟩ else executeSchedules schedules

/-- The arguments that live on another physical stream than `index`. -/
def toFlush (index : Nat) : List StreamId → M (SchedulerMultiStream τ) (List StreamId)
  | [] => pure []
  | arg :: args => do
    let indexStream ← indexOf arg
    let rest ← toFlush index args
    return if index ≠ indexStream then arg :: rest else rest

def alignStreams (streamId : StreamId) (argsStreams : List StreamId) : M (SchedulerMultiStream τ) PUnit := do
  let index ← indexOf streamId
  let streams ← toFlush index argsStreams
  if streams.isEmpty then pure ⟨⟩ else executeStreams streams

def register (streamId : StreamId) (task : τ) (argsStreams : List StreamId) :
    M (SchedulerMultiStream τ) PUnit := do
  alignStreams streamId argsStreams
  let index ← indexOf streamId
  let len ← getMutIndex index fun tasks => (tasks.length + 1, tasks ++ [task])
  if (← get).maxTasks ≤ len then executeStreamIndex index

end SchedulerMultiStream

end Ruda.Stream
