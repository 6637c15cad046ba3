import Ruda.Collective.Local

/-!
# The local collective server

One thread takes the messages of all peers. A call of an operation waits with its callback until
as many calls are there as peers are registered.
-/

namespace Ruda.Collective

/-- The sender half of the channel of one request. -/
abbrev Callback := Nat

inductive ReduceOperation
  | sum
  | mean
  deriving DecidableEq

inductive AllReduceStrategy
  | centralized
  | tree (arity : Nat)
  | ring
  deriving DecidableEq

inductive ReduceStrategy
  | centralized
  | tree (arity : Nat)
  deriving DecidableEq

inductive BroadcastStrategy
  | centralized
  | tree (arity : Nat)
  deriving DecidableEq

inductive CollectiveError
  | invalidConfig
  | multipleUnregister
  | multipleRegister
  | registerParamsMismatch
  | allReduceShapeMismatch
  | allReduceOperationMismatch
  | reduceShapeMismatch
  | reduceOperationMismatch
  | reduceRootMismatch
  | broadcastNoTensor
  | broadcastMultipleTensors
  | localServerMissing
  | registerNotFirstOperation
  | global (error : String)
  deriving DecidableEq

structure GlobalRegisterParams where
  numNodes : Nat
  globalAddress : String
  nodeAddress : String
  dataServicePort : Nat

structure CollectiveConfig where
  numDevices : Nat
  localAllReduceStrategy : AllReduceStrategy
  localReduceStrategy : ReduceStrategy
  localBroadcastStrategy : BroadcastStrategy
  numNodes : Option Nat
  globalAddress : Option String
  nodeAddress : Option String
  dataServicePort : Option Nat
  globalAllReduceStrategy : Option AllReduceStrategy
  globalReduceStrategy : Option ReduceStrategy
  globalBroadcastStrategy : Option BroadcastStrategy
  deriving DecidableEq

namespace CollectiveConfig

def isValid (config : CollectiveConfig) : Bool :=
  match config.numNodes, config.globalAddress, config.nodeAddress, config.dataServicePort with
  | none, none, none, none => true
  | some _, some _, some _, some _ => true
  | _, _, _, _ => false

def globalRegisterParams (config : CollectiveConfig) : Option GlobalRegisterParams :=
  match config.numNodes, config.globalAddress, config.nodeAddress, config.dataServicePort with
  | some numNodes, some globalAddress, some nodeAddress, some dataServicePort =>
    some { numNodes, globalAddress, nodeAddress, dataServicePort }
  | _, _, _, _ => none

end CollectiveConfig

section
variable {α : Type}

/-- What happens around the server while it handles a message: in which order a hash map is iterated, how a
tensor is divided, and what the node for the other hosts answers. -/
structure Host (α : Type) where
  order : (β : Type) → List (PeerId × β) → List (PeerId × β)
  perm : ∀ (β : Type) (entries : List (PeerId × β)), (order β entries).Perm entries
  divScalar : α → Nat → α
  register : List PeerId → GlobalRegisterParams → Except String Unit
  allReduce : Tensor α → AllReduceStrategy → ReduceOperation → Except String (Tensor α)
  reduce : Tensor α → ReduceStrategy → PeerId → ReduceOperation → Except String (Option (Tensor α))
  broadcast : Option (Tensor α) → BroadcastStrategy → DeviceId → Except String (Tensor α)

namespace Host

variable (host : Host α)

/-- `entries.collect()` into a hash map: of equal keys the last entry stays. -/
def collect {β : Type} (entries : List (PeerId × β)) : List (PeerId × β) :=
  host.order β (entries.foldl (fun (map : BTreeMap β) e => map.insert e.1 e.2) ∅).toList

def floatDivScalar (t : Tensor α) (n : Nat) : Tensor α := { t with data := fun idx => host.divScalar (t.data idx) n }

end Host

inductive Reply (α : Type)
  | registered (result : Except CollectiveError Unit)
  | allReduced (result : Except CollectiveError (Tensor α))
  | reduced (result : Except CollectiveError (Option (Tensor α)))
  | broadcasted (result : Except CollectiveError (Tensor α))
  | finished (result : Except CollectiveError Unit)

inductive Message (α : Type)
  | register (deviceId : PeerId) (device : DeviceId) (config : CollectiveConfig) (callback : Callback)
  | allReduce (deviceId : PeerId) (tensor : Tensor α) (op : ReduceOperation) (callback : Callback)
  | reduce (deviceId : PeerId) (tensor : Tensor α) (op : ReduceOperation) (root : PeerId) (callback : Callback)
  | broadcast (deviceId : PeerId) (tensor : Option (Tensor α)) (callback : Callback)
  | reset
  | finish (id : PeerId) (callback : Callback)

/-- A call that waits in an operation. -/
structure OpCall (β : Type) where
  caller : PeerId
  input : β
  resultSender : Callback

/-- What the peers came with. -/
def inputs {β : Type} (calls : List (OpCall β)) : List (PeerId × β) := calls.map fun call => (call.caller, call.input)

/-- Every caller gets the error. -/
def failCalls {β : Type} (reply : CollectiveError → Reply α) (error : CollectiveError) (calls : List (OpCall β)) :
    List (Callback × Reply α) := calls.map fun call => (call.resultSender, reply error)

/-- Every caller gets its tensor, and none may be left. -/
def sendTensors {β : Type} (reply : Tensor α → Reply α) : List (OpCall β) → TensorMap α →
    Option (List (Callback × Reply α))
  | [], tensors => if tensors.length = 0 then some [] else none
  | call :: calls, tensors => do
    let (result, tensors) ← removePeer call.caller tensors
    let sent ← sendTensors reply calls tensors
    some ((call.resultSender, reply result) :: sent)

def broadcastLocal (strategy : BroadcastStrategy) (devices : List (PeerId × DeviceId)) (root : PeerId)
    (tensor : Tensor α) : Option (TensorMap α) :=
  match strategy with
  | .tree arity => broadcastTree devices root tensor arity
  | .centralized => broadcastCentralized devices root tensor

/-- `.await.map_err(CollectiveError::Global)` -/
def mapGlobal {β : Type} (result : Except String β) : Except CollectiveError β :=
  match result with
  | .ok value => .ok value
  | .error error => .error (.global error)

structure BroadcastOp (α : Type) where
  calls : List (OpCall DeviceId)
  tensor : Option (Tensor α)
  root : Option PeerId

namespace BroadcastOp

variable (operation : BroadcastOp α)

def new : BroadcastOp α := { calls := [], tensor := none, root := none }

def registerCall (caller : PeerId) (input : Option (Tensor α)) (resultSender : Callback) (device : DeviceId)
    (peerCount : Nat) : Except CollectiveError (BroadcastOp α × Bool) :=
  if input.isSome ∧ operation.tensor.isSome then .error .broadcastMultipleTensors
  else
    let calls := operation.calls ++ [⟨caller, device, resultSender⟩]
    let operation := if input.isSome then { operation with tensor := input, root := some caller } else operation
    .ok ({ operation with calls }, calls.length = peerCount)

/-- The tensor of all hosts, where there are other hosts. -/
def broadcastGlobal (host : Host α) (config : CollectiveConfig) (globalClient : Bool) (device : DeviceId) :
    Option (Except CollectiveError (Option (Tensor α))) :=
  if globalClient then
    config.globalBroadcastStrategy.map fun strategy =>
      (mapGlobal (host.broadcast operation.tensor strategy device)).map some
  else some (.ok operation.tensor)

def broadcast (host : Host α) (config : CollectiveConfig) (globalClient : Bool) :
    Option (Except CollectiveError (TensorMap α)) := do
  let first ← operation.calls.head?
  match ← operation.broadcastGlobal host config globalClient first.input with
  | .error error => some (.error error)
  | .ok none => some (.error .broadcastNoTensor)
  | .ok (some tensor) =>
    let root := operation.root.getD first.caller
    let peerDevices := host.collect (inputs operation.calls)
    (broadcastLocal config.localBroadcastStrategy peerDevices root tensor).map .ok

def fail (error : CollectiveError) : List (Callback × Reply α) :=
  failCalls (fun error => .broadcasted (.error error)) error operation.calls

def execute (host : Host α) (config : CollectiveConfig) (globalClient : Bool) : Option (List (Callback × Reply α)) := do
  match ← operation.broadcast host config globalClient with
  | .ok tensors => sendTensors (fun t => .broadcasted (.ok t)) operation.calls tensors
  | .error error => some (operation.fail error)

end BroadcastOp

structure AllReduceOp (α : Type) where
  calls : List (OpCall (Tensor α))
  op : ReduceOperation
  shape : List Nat

structure ReduceOp (α : Type) where
  calls : List (OpCall (Tensor α))
  op : ReduceOperation
  root : PeerId
  shape : List Nat

variable [Add α]

def allReduceLocal (strategy : AllReduceStrategy) (tensors : TensorMap α) : Option (TensorMap α) :=
  match strategy with
  | .centralized => allReduceSumCentralized tensors
  | .tree arity => allReduceSumTree tensors arity
  | .ring => allReduceSumRing tensors

def allReduceLocalOnly (host : Host α) (tensors : TensorMap α) (op : ReduceOperation) (config : CollectiveConfig) :
    Option (TensorMap α) := do
  let reduced ← allReduceLocal config.localAllReduceStrategy tensors
  match op with
  | .mean => some (reduced.map fun e => (e.1, host.floatDivScalar e.2 reduced.length))
  | .sum => some reduced

def reduceLocal (strategy : ReduceStrategy) (tensors : TensorMap α) (root : PeerId) : Option (Tensor α) :=
  match strategy with
  | .centralized => reduceSumCentralized tensors root
  | .tree arity => reduceSumTree tensors root arity

/-- The sum on the main device, before the other hosts come in. -/
def reduceMain (strategy : AllReduceStrategy) (tensors : TensorMap α) (mainDevice : PeerId) : Option (Tensor α) :=
  match strategy with
  | .centralized => reduceSumCentralized tensors mainDevice
  | .tree arity => reduceSumTree tensors mainDevice arity
  | .ring => do
    let reduced ← allReduceSumRing tensors
    (removePeer mainDevice reduced).map Prod.fst

def mainBroadcast : AllReduceStrategy → BroadcastStrategy
  | .tree arity => .tree arity
  | .centralized => .centralized
  | .ring => .centralized

def allReduceWithGlobal (host : Host α) (tensors : TensorMap α) (op : ReduceOperation) (config : CollectiveConfig) :
    Option (Except CollectiveError (TensorMap α)) := do
  let peerDevices := tensors.map fun e => (e.1, e.2.device)
  let (mainDevice, _) ← tensors.head?
  let mainTensor ← reduceMain config.localAllReduceStrategy tensors mainDevice
  let globalStrategy ← config.globalAllReduceStrategy
  match mapGlobal (host.allReduce mainTensor globalStrategy op) with
  | .error error => some (.error error)
  | .ok mainTensor =>
    (broadcastLocal (mainBroadcast config.localAllReduceStrategy) peerDevices mainDevice mainTensor).map .ok

namespace AllReduceOp

variable (operation : AllReduceOp α)

def registerCall (caller : PeerId) (input : Tensor α) (resultSender : Callback) (op : ReduceOperation)
    (peerCount : Nat) : Except CollectiveError (AllReduceOp α × Bool) :=
  if operation.shape ≠ input.shape then .error .allReduceShapeMismatch
  else if operation.op ≠ op then .error .allReduceOperationMismatch
  else
    let calls := operation.calls ++ [⟨caller, input, resultSender⟩]
    .ok ({ operation with calls }, calls.length = peerCount)

def allReduce (host : Host α) (config : CollectiveConfig) (globalClient : Bool) :
    Option (Except CollectiveError (TensorMap α)) :=
  let tensors := host.collect (inputs operation.calls)
  if globalClient then allReduceWithGlobal host tensors operation.op config
  else (allReduceLocalOnly host tensors operation.op config).map .ok

def fail (error : CollectiveError) : List (Callback × Reply α) :=
  failCalls (fun error => .allReduced (.error error)) error operation.calls

def execute (host : Host α) (config : CollectiveConfig) (globalClient : Bool) : Option (List (Callback × Reply α)) := do
  match ← operation.allReduce host config globalClient with
  | .ok tensors => sendTensors (fun t => .allReduced (.ok t)) operation.calls tensors
  | .error error => some (operation.fail error)

end AllReduceOp

namespace ReduceOp

variable (operation : ReduceOp α)

def registerCall (caller : PeerId) (input : Tensor α) (resultSender : Callback) (op : ReduceOperation) (root : PeerId)
    (peerCount : Nat) : Except CollectiveError (ReduceOp α × Bool) :=
  if operation.shape ≠ input.shape then .error .reduceShapeMismatch
  else if operation.op ≠ op then .error .reduceOperationMismatch
  else if operation.root ≠ root then .error .reduceRootMismatch
  else
    let calls := operation.calls ++ [⟨caller, input, resultSender⟩]
    .ok ({ operation with calls }, calls.length = peerCount)

/-- The root may be on another host; then the sum is on the first caller's device. -/
def localRoot (globalClient : Bool) : Option PeerId :=
  if operation.calls.any fun call => call.caller = operation.root then some operation.root
  else if globalClient then operation.calls.head?.map OpCall.caller
  else none

/-- The sum of all hosts, or the sum or mean of this one. -/
def reduceGlobal (host : Host α) (config : CollectiveConfig) (globalClient : Bool) (localSum : Tensor α) :
    Option (Except CollectiveError (Option (Tensor α))) :=
  if globalClient then
    config.globalReduceStrategy.map fun strategy =>
      mapGlobal (host.reduce localSum strategy operation.root operation.op)
  else
    match operation.op with
    | .mean => some (.ok (some (host.floatDivScalar localSum operation.calls.length)))
    | .sum => some (.ok (some localSum))

def reduce (host : Host α) (config : CollectiveConfig) (globalClient : Bool) :
    Option (Except CollectiveError (Option (Tensor α))) :=
  let tensors := host.collect (inputs operation.calls)
  match operation.localRoot globalClient with
  | none => some (.error .reduceRootMismatch)
  | some localRoot => do
    let localSum ← reduceLocal config.localReduceStrategy tensors localRoot
    operation.reduceGlobal host config globalClient localSum

def fail (error : CollectiveError) : List (Callback × Reply α) :=
  failCalls (fun error => .reduced (.error error)) error operation.calls

/-- The first call of the root takes the tensor. -/
def sendToRoot (root : PeerId) : Option (Tensor α) → List (OpCall (Tensor α)) → List (Callback × Reply α)
  | _, [] => []
  | result, call :: calls =>
    if call.caller = root then (call.resultSender, .reduced (.ok result)) :: sendToRoot root none calls
    else (call.resultSender, .reduced (.ok none)) :: sendToRoot root result calls

def execute (host : Host α) (root : PeerId) (config : CollectiveConfig) (globalClient : Bool) :
    Option (List (Callback × Reply α)) := do
  match ← operation.reduce host config globalClient with
  | .ok result => some (sendToRoot root result operation.calls)
  | .error error => some (operation.fail error)

end ReduceOp

end

-- The server

structure LocalCollectiveServer (α : Type) where
  config : Option CollectiveConfig
  peers : List PeerId
  callbacksRegister : List Callback
  devices : BTreeMap DeviceId
  allReduceOp : Option (AllReduceOp α)
  reduceOp : Option (ReduceOp α)
  broadcastOp : Option (BroadcastOp α)
  globalClient : Bool

namespace LocalCollectiveServer

variable {α : Type} (server : LocalCollectiveServer α)

def new : LocalCollectiveServer α where
  config := none
  peers := []
  callbacksRegister := []
  devices := ∅
  allReduceOp := none
  reduceOp := none
  broadcastOp := none
  globalClient := false

/-- The server after a message, and what was sent to the callbacks. Where there is none, the server panics. -/
abbrev Handled (α : Type) := LocalCollectiveServer α × List (Callback × Reply α)

def processRegister (host : Host α) (deviceId : PeerId) (device : DeviceId) (config : CollectiveConfig)
    (callback : Callback) : Option (Handled α) :=
  if ¬config.isValid then some (server, [(callback, .registered (.error .invalidConfig))])
  else if deviceId ∈ server.peers then some (server, [(callback, .registered (.error .multipleRegister))])
  else if server.peers ≠ [] ∧ ∃ cfg ∈ server.config, cfg ≠ config then
    some (server, [(callback, .registered (.error .registerParamsMismatch))])
  else
    -- the configuration that is there already is the same, or nobody is registered with it
    let server := { server with
      config := some config
      peers := server.peers ++ [deviceId]
      callbacksRegister := server.callbacksRegister ++ [callback]
      devices := server.devices.insert deviceId device
      globalClient := server.globalClient || config.globalRegisterParams.isSome }
    if server.peers.length = config.numDevices then
      let result := match config.globalRegisterParams with
        | some params => mapGlobal (host.register server.peers params)
        | none => .ok ()
      some ({ server with callbacksRegister := [] }, server.callbacksRegister.map fun tx => (tx, .registered result))
    else some (server, [])

/-- After a call was registered: the last one executes the operation, an error fails it, and otherwise the
operation is put back. -/
def settle {Op : Type} (put : Option Op → LocalCollectiveServer α) (execute : Op → Option (List (Callback × Reply α)))
    (fail : CollectiveError → List (Callback × Reply α)) : Except CollectiveError (Op × Bool) → Option (Handled α)
  | .ok (operation, true) => (execute operation).map fun sent => (put none, sent)
  | .ok (operation, false) => some (put (some operation), [])
  | .error error => some (put none, fail error)

def processAllReduce [Add α] (host : Host α) (peerId : PeerId) (tensor : Tensor α) (op : ReduceOperation)
    (callback : Callback) : Option (Handled α) :=
  if peerId ∉ server.peers then some (server, [(callback, .allReduced (.error .registerNotFirstOperation))])
  else
    let operation := server.allReduceOp.getD { calls := [], op, shape := tensor.shape }
    settle (fun allReduceOp => { server with allReduceOp })
      (fun operation => do operation.execute host (← server.config) server.globalClient)
      operation.fail (operation.registerCall peerId tensor callback op server.peers.length)

def processReduce [Add α] (host : Host α) (peerId : PeerId) (tensor : Tensor α) (op : ReduceOperation) (root : PeerId)
    (callback : Callback) : Option (Handled α) :=
  if root ∉ server.peers then some (server, [(callback, .reduced (.error .registerNotFirstOperation))])
  else
    let operation := server.reduceOp.getD { calls := [], op, root, shape := tensor.shape }
    settle (fun reduceOp => { server with reduceOp })
      (fun operation => do operation.execute host root (← server.config) server.globalClient)
      operation.fail (operation.registerCall peerId tensor callback op root server.peers.length)

def processBroadcast (host : Host α) (caller : PeerId) (tensor : Option (Tensor α)) (callback : Callback) :
    Option (Handled α) :=
  if server.config.isNone then some (server, [(callback, .broadcasted (.error .registerNotFirstOperation))])
  else if caller ∉ server.peers then some (server, [(callback, .broadcasted (.error .registerNotFirstOperation))])
  else do
    let operation := server.broadcastOp.getD .new
    let device ← server.devices[caller]?
    settle (fun broadcastOp => { server with broadcastOp })
      (fun operation => do operation.execute host (← server.config) server.globalClient)
      operation.fail (operation.registerCall caller tensor callback device server.peers.length)

def reset : LocalCollectiveServer α :=
  { server with peers := [], allReduceOp := none, reduceOp := none, broadcastOp := none }

def processFinish (id : PeerId) (callback : Callback) : Handled α :=
  if server.config.isNone then (server, [(callback, .finished (.error .registerNotFirstOperation))])
  else if id ∉ server.peers then (server, [(callback, .finished (.error .multipleUnregister))])
  else
    let peers := server.peers.filter fun peer => peer ≠ id
    ({ server with peers, globalClient := server.globalClient && peers ≠ [] }, [(callback, .finished (.ok ()))])

def processMessage [Add α] (host : Host α) : Message α → Option (Handled α)
  | .register deviceId device config callback => server.processRegister host deviceId device config callback
  | .allReduce deviceId tensor op callback => server.processAllReduce host deviceId tensor op callback
  | .reduce deviceId tensor op root callback => server.processReduce host deviceId tensor op root callback
  | .broadcast deviceId tensor callback => server.processBroadcast host deviceId tensor callback
  | .reset => some (server.reset, [])
  | .finish id callback => some (server.processFinish id callback)

end LocalCollectiveServer

end Ruda.Collective
