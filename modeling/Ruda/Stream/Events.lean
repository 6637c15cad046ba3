import Ruda.Stream.Scheduler

/-!
# Synchronization between streams by events

`MultiStream` of `ruda-runtime/src/runtime/stream/event.rs`: before a logical
stream is used with memory that lives on other physical streams, it waits on an
event of each of them, unless its `last_synced` map says that an earlier wait
covers the memory.

The backend is a parameter, with `dependency_event_for` and
`dependency_cursor` as the trait provides them: every dependency flushes the
origin, and the cursor is taken as it is. `waited` records the waits a stream
submitted, each as the origin's slot and its cursor when the event was flushed;
the source keeps no such record. Logging and the `gc` thread are left out.
-/

namespace Ruda.Stream

/-- The message of a `ServerError`. -/
abbrev ServerError := String

/-- `Binding`: the memory and the logical stream it was allocated on. -/
structure Binding where
  memory : Nat
  stream : StreamId
  deriving DecidableEq, Repr

/-- The trait, on a backend whose own state is `Backend`. Streams may hold any
state, so that a failure can happen at any call. -/
structure EventStreamBackend where
  Backend : Type
  RawStream : Type
  Event : Type
  tryCreateStream : Backend → Except ServerError RawStream × Backend
  handleCursor : RawStream → Binding → UInt64
  isHealthy : RawStream → Bool
  flush : RawStream → Event × RawStream
  dependencyFailed : RawStream → ServerError → RawStream
  waitEventChecked : RawStream → Event → Except ServerError Unit × RawStream

/-- `StreamWrapper`, with the record of waits. -/
structure StreamWrapper (B : EventStreamBackend) where
  stream : B.RawStream
  cursor : UInt64
  lastSynced : Nat → Option UInt64
  waited : List (Nat × UInt64)

structure MultiStream (B : EventStreamBackend) where
  backend : B.Backend
  streams : List (Option (StreamWrapper B))
  maxStreams : Nat

/-- The order in which a hash map iterates over its keys. -/
structure KeyOrder where
  keys : List Nat → List Nat
  perm : ∀ l, (keys l).Perm l

/-- `SharedBindingAnalysis`: the memories shared from each origin. -/
abbrev SharedBindingAnalysis := List (Nat × List Nat)

def SharedBindingAnalysis.shared (analysis : SharedBindingAnalysis) (id index : Nat) :
    SharedBindingAnalysis :=
  if index ∈ analysis.map Prod.fst then
    analysis.map fun slice => if slice.1 = index then (index, slice.2 ++ [id]) else slice
  else analysis ++ [(index, [id])]

namespace MultiStream

variable {B : EventStreamBackend}

/-- One slot more than the regular streams, for the collector's stream; the sum saturates. -/
def new (backend : B.Backend) (maxStreams : UInt8) : MultiStream B where
  backend := backend
  streams := List.replicate (min (maxStreams.toNat + 1) 255) none
  maxStreams := maxStreams.toNat

def indexOf (id : StreamId) : M (MultiStream B) Nat := do
  let s ← get
  if s.maxStreams = 0 then
    M.panic "attempt to calculate the remainder with a divisor of zero"
  else pure (Stream.streamIndex id s.maxStreams)

def put (index : Nat) (stream : StreamWrapper B) : M (MultiStream B) PUnit :=
  modify fun s => { s with streams := s.streams.set index (some stream) }

/-- `get_or_create_index` -/
def getOrCreateIndex (index : Nat) : M (MultiStream B) (StreamWrapper B) := do
  let s ← get
  match ← M.expect s.streams[index]? "index out of bounds" with
  | some stream => return stream
  | none =>
    let (result, backend) := B.tryCreateStream s.backend
    set { s with backend }
    match result with
    | .error error => M.fail error
    | .ok stream =>
      let wrapper := { stream, cursor := 0, lastSynced := fun _ => none, waited := [] }
      put index wrapper
      return wrapper

/-- `get_mut_index`: a failed creation panics. -/
def getMutIndex (index : Nat) : M (MultiStream B) (StreamWrapper B) :=
  tryCatch (getOrCreateIndex index) fun
    | .error error => M.panic ("Stream creation failed: " ++ error)
    | .panic message => M.panic message

/-- The first loop of `update_shared_bindings`: the bindings of other physical
streams than `target`, with the cursors the backend gives for them. -/
def sharedBindings (target : Nat) : List Binding → M (MultiStream B) (List (Nat × StreamId × UInt64))
  | [] => pure []
  | handle :: handles => do
    let index ← indexOf handle.stream
    let stream ← getOrCreateIndex index
    let cursorHandle := B.handleCursor stream.stream handle
    let rest ← sharedBindings target handles
    return if index ≠ target then (handle.memory, handle.stream, cursorHandle) :: rest else rest

/-- The second loop: keep what the target has not synced with yet. -/
def analyze (maxStreams : Nat) (current : StreamWrapper B) :
    List (Nat × StreamId × UInt64) → SharedBindingAnalysis → SharedBindingAnalysis
  | [], analysis => analysis
  | (id, stream, cursor) :: pool, analysis =>
    let index := Stream.streamIndex stream maxStreams
    match current.lastSynced index with
    | some lastSynced =>
      if lastSynced < cursor then analyze maxStreams current pool (analysis.shared id index)
      else analyze maxStreams current pool analysis
    | none => analyze maxStreams current pool (analysis.shared id index)

def updateSharedBindings (streamId : StreamId) (handles : List Binding) :
    M (MultiStream B) SharedBindingAnalysis := do
  let target ← indexOf streamId
  let pool ← sharedBindings target handles
  let current ← getOrCreateIndex target
  let s ← get
  return analyze s.maxStreams current pool []

/-- `dependency_event_for` of an origin with its cursor, as the trait provides them. -/
def dependencyEvent (origin : Nat) : M (MultiStream B) (Nat × UInt64 × B.Event) := do
  let wrapper ← getMutIndex origin
  let (event, stream) := B.flush wrapper.stream
  put origin { wrapper with stream }
  return (origin, wrapper.cursor, event)

/-- One round of the second loop of `apply_analysis`: `target` waits on an event. -/
def waitOn (target : Nat) (dependency : Nat × UInt64 × B.Event) : M (MultiStream B) PUnit := do
  let (origin, cursor, event) := dependency
  let wrapper ← getMutIndex target
  let (result, stream) := B.waitEventChecked wrapper.stream event
  match result with
  | .error error =>
    put target { wrapper with stream }
    M.fail error
  | .ok () =>
    put target { wrapper with
      stream
      lastSynced := Function.update wrapper.lastSynced origin (some cursor)
      waited := wrapper.waited ++ [(origin, cursor)] }

def applyAnalysis (order : KeyOrder) (streamId : StreamId) (analysis : SharedBindingAnalysis) :
    M (MultiStream B) SharedBindingAnalysis := do
  if analysis.isEmpty then return analysis
  let target ← indexOf streamId
  let _ ← getMutIndex target
  let events ← (order.keys (analysis.map Prod.fst)).mapM dependencyEvent
  events.forM (waitOn target)
  return analysis

def alignStreams (order : KeyOrder) (streamId : StreamId) (handles : List Binding) :
    M (MultiStream B) SharedBindingAnalysis := do
  let analysis ← updateSharedBindings streamId handles
  applyAnalysis order streamId analysis

/-- `if let Ok(stream) = get_or_create(..) { B::dependency_failed(stream, error) }` -/
def dependencyFailed (streamId : StreamId) (error : ServerError) : M (MultiStream B) PUnit := do
  let index ← indexOf streamId
  let created ← tryCatch (some <$> getOrCreateIndex index) fun
    | .error _ => pure none
    | .panic message => M.panic message
  match created with
  | some wrapper => put index { wrapper with stream := B.dependencyFailed wrapper.stream error }
  | none => pure ⟨⟩

/-- The cursor of the target after the call, for new allocations. -/
def resolve (order : KeyOrder) (streamId : StreamId) (handles : List Binding) (enforceHealthy : Bool) :
    M (MultiStream B) UInt64 := do
  let _ ← tryCatch (alignStreams order streamId handles) fun
    | .error error => do
      dependencyFailed streamId error
      M.fail error
    | .panic message => M.panic message
  let index ← indexOf streamId
  let wrapper ← getOrCreateIndex index
  let stream := { wrapper with cursor := wrapper.cursor + 1 }
  put index stream
  if enforceHealthy && !B.isHealthy stream.stream then
    M.fail "Can't resolve the stream since it is currently in an error state"
  else return stream.cursor

end MultiStream

end Ruda.Stream
