import Ruda.Lib.Machine

/-!
# The double-buffered device channel

`custom_channel` of `ruda-core/src/device/handle/channel.rs`: client threads
claim slots of one buffer by `fetch_add`, write their tasks there and publish
them; the server swaps the buffers once all slots are published, and executes
the other one.

A step is one atomic operation of one thread, so that a run is an interleaving.
Atomics are sequentially consistent. What a thread does between two shared
accesses belongs to the step before. Spinning, yielding and parking do nothing
here: a thread that waits may look again at any time. Submissions are counted
apart from the `CLOSED` bit of their word.
-/

namespace Ruda.Device

def channelMaxTask : Nat := 32

/-- A task: the client thread that enqueued it and how many it had enqueued before. -/
structure TaskId where
  client : Nat
  number : Nat
  deriving DecidableEq, Repr

/-- What a slot holds: a task, or the no-op that `flush` writes. -/
abbrev Content := Option TaskId

/-- A thread that claimed the slots from `start` up to `stop` and writes `content`
to each. `index` is the next one, and `loaded` the buffer that `queue_ptr` gave
for it, once read. -/
structure Fill where
  start : Nat
  stop : Nat
  index : Nat
  content : Content
  loaded : Option Bool
  deriving DecidableEq, Repr

/-- A client call. A flush remembers the tasks accepted before it. -/
inductive Call
  | enqueue (task : TaskId)
  | flush (before : List TaskId)
  deriving DecidableEq, Repr

/-- Where a client thread is: about to claim, to write or publish, to drop its submission. -/
inductive ClientPc
  | idle
  | claim (call : Call)
  | fill (call : Call) (fill : Fill)
  | leave (call : Call)
  deriving DecidableEq, Repr

/-- Where the server's loop is. -/
inductive ServerPc
  | top
  | execute (slot : Nat)
  | loadStopping
  | loadCount (stopping : Bool)
  | storePtr
  | storeCount
  | storeAvailable
  | loadAvailable
  | flushBegin
  | flushClaim
  | flushFill (fill : Fill)
  | flushLeave
  | exited
  deriving DecidableEq, Repr

/-- Where the thread that calls `shutdown` is; the others wait for its lock. -/
inductive CloserPc
  | running
  | await
  | claim
  | fill (fill : Fill)
  | setStopping
  | join
  | done
  deriving DecidableEq, Repr

structure Channel where
  queuePtr : Bool
  availableIndex : Nat
  enqueuedCount : Nat
  submissions : Nat
  closed : Bool
  stopping : Bool
  slots : Bool → Nat → Content
  clientBuf : Bool
  readyToExecute : Bool
  server : ServerPc
  clients : Nat → ClientPc
  closer : CloserPc
  /-- How many tasks each client was let in with. -/
  calls : Nat → Nat
  /-- The tasks whose `enqueue` has returned `Ok`. -/
  accepted : List TaskId
  /-- What the server has run, no-ops included. -/
  executed : List Content

namespace Channel

def new : Channel where
  queuePtr := false
  availableIndex := 0
  enqueuedCount := 0
  submissions := 0
  closed := false
  stopping := false
  slots := fun _ _ => none
  clientBuf := false
  readyToExecute := false
  server := .top
  clients := fun _ => .idle
  closer := .running
  calls := fun _ => 0
  accepted := []
  executed := []

/-- `available_index.fetch_add(count)` -/
def fetchAdd (s : Channel) (count : Nat) : Nat × Channel :=
  (s.availableIndex, { s with availableIndex := wrap32 (s.availableIndex + count) })

/-- One access of `init_task_at`, or the `publish` after the last slot. -/
def fillStep (s : Channel) (fill : Fill) : Option Fill × Channel :=
  if fill.index < fill.stop then
    match fill.loaded with
    | none => (some { fill with loaded := some s.queuePtr }, s)
    | some buffer =>
      let written := Function.update (s.slots buffer) fill.index fill.content
      (some { fill with index := fill.index + 1, loaded := none },
        { s with slots := Function.update s.slots buffer written })
  else (none, { s with enqueuedCount := wrap32 (s.enqueuedCount + (fill.stop - fill.start)) })

/-- The claim of `enqueue`: one slot, retried until the buffer has one. -/
def claimOne (s : Channel) (content : Content) : Option Fill × Channel :=
  let (index, s) := s.fetchAdd 1
  (if index ≥ channelMaxTask then none else some ⟨index, index + 1, index, content, none⟩, s)

/-- The claim of `flush_inner`: the rest of the buffer, if there is one. -/
def claimRest (s : Channel) : Option Fill × Channel :=
  let (index, s) := s.fetchAdd channelMaxTask
  (if index ≥ channelMaxTask then none else some ⟨index, channelMaxTask, index, none, none⟩, s)

/-- What a client may call. -/
inductive Request
  | enqueue
  | flush
  deriving DecidableEq, Repr

/-- `begin_submission` of a client's call; a closed channel turns it away. -/
def begin (s : Channel) (client : Nat) (request : Request) : Option Channel :=
  match s.clients client with
  | .idle =>
    if s.closed then some s else
      let call : Call := match request with
        | .enqueue => .enqueue ⟨client, s.calls client⟩
        | .flush => .flush s.accepted
      some { s with
        submissions := s.submissions + 1
        clients := Function.update s.clients client (.claim call)
        calls := match request with
          | .enqueue => Function.update s.calls client (s.calls client + 1)
          | .flush => s.calls }
  | _ => none

def setClient (s : Channel) (client : Nat) (pc : ClientPc) : Channel :=
  { s with clients := Function.update s.clients client pc }

/-- The next access of a client's call. -/
def clientStep (s : Channel) (client : Nat) : Option Channel :=
  match s.clients client with
  | .idle => none
  | .claim (.enqueue task) =>
    match s.claimOne (some task) with
    | (none, s) => some s
    | (some fill, s) => some (s.setClient client (.fill (.enqueue task) fill))
  | .claim (.flush before) =>
    match s.claimRest with
    | (none, s) => some (s.setClient client (.leave (.flush before)))
    | (some fill, s) => some (s.setClient client (.fill (.flush before) fill))
  | .fill call fill =>
    match s.fillStep fill with
    | (some fill, s) => some (s.setClient client (.fill call fill))
    | (none, s) => some (s.setClient client (.leave call))
  | .leave call =>
    let s := { s with submissions := s.submissions - 1 }.setClient client .idle
    match call with
    | .enqueue task => some { s with accepted := s.accepted ++ [task] }
    | .flush _ => some s

/-- The next access of the server's loop. -/
def serverStep (s : Channel) : Option Channel :=
  match s.server with
  | .top => some { s with server := if s.readyToExecute then .execute 0 else .loadStopping }
  | .execute slot =>
    if slot < channelMaxTask then
      some { s with
        executed := s.executed ++ [s.slots (!s.clientBuf) slot]
        server := .execute (slot + 1) }
    else some { s with readyToExecute := false, server := .loadStopping }
  | .loadStopping => some { s with server := .loadCount s.stopping }
  | .loadCount stopping =>
    if s.enqueuedCount ≥ channelMaxTask then some { s with server := .storePtr }
    else if stopping then some { s with server := .exited }
    else if s.enqueuedCount > 0 then some { s with server := .loadAvailable }
    else some { s with server := .top }
  | .storePtr =>
    some { s with
      clientBuf := !s.clientBuf
      queuePtr := !s.clientBuf
      readyToExecute := true
      server := .storeCount }
  | .storeCount => some { s with enqueuedCount := 0, server := .storeAvailable }
  | .storeAvailable => some { s with availableIndex := 0, server := .top }
  | .loadAvailable =>
    some { s with server := if s.availableIndex < channelMaxTask then .flushBegin else .top }
  | .flushBegin =>
    if s.closed then some { s with server := .top }
    else some { s with submissions := s.submissions + 1, server := .flushClaim }
  | .flushClaim =>
    match s.claimRest with
    | (none, s) => some { s with server := .flushLeave }
    | (some fill, s) => some { s with server := .flushFill fill }
  | .flushFill fill =>
    match s.fillStep fill with
    | (some fill, s) => some { s with server := .flushFill fill }
    | (none, s) => some { s with server := .flushLeave }
  | .flushLeave => some { s with submissions := s.submissions - 1, server := .top }
  | .exited => none

/-- The next access of `shutdown`. -/
def closerStep (s : Channel) : Option Channel :=
  match s.closer with
  | .running => some { s with closed := true, closer := .await }
  | .await => some (if s.submissions = 0 then { s with closer := .claim } else s)
  | .claim =>
    match s.claimRest with
    | (none, s) => some { s with closer := .setStopping }
    | (some fill, s) => some { s with closer := .fill fill }
  | .fill fill =>
    match s.fillStep fill with
    | (some fill, s) => some { s with closer := .fill fill }
    | (none, s) => some { s with closer := .setStopping }
  | .setStopping => some { s with stopping := true, closer := .join }
  | .join => if s.server = .exited then some { s with closer := .done } else none
  | .done => none

/-- Who makes the next step. -/
inductive Action
  | begin (client : Nat) (request : Request)
  | client (client : Nat)
  | server
  | closer
  deriving DecidableEq, Repr

/-- `none` when the thread cannot step. -/
def step (s : Channel) : Action → Option Channel
  | .begin client request => s.begin client request
  | .client client => s.clientStep client
  | .server => s.serverStep
  | .closer => s.closerStep

/-- A run: the state after some actions, each of which was possible. -/
def run (s : Channel) : List Action → Option Channel
  | [] => some s
  | action :: actions => (s.step action).bind fun s => s.run actions

end Channel

end Ruda.Device
