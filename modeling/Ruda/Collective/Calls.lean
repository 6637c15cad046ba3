import Ruda.Collective.Server

/-!
# What a call does

A call of an operation is refused, fails everyone who waits in it, waits with them, or is the last
one and answers everyone.
-/

namespace Ruda.Collective

variable {α : Type}

inductive Kind
  | allReduce
  | reduce
  | broadcast
  deriving DecidableEq

/-- A peer and the callback of its call. -/
abbrev Entry := PeerId × Callback

def OpCall.entry {β : Type} (call : OpCall β) : Entry := (call.caller, call.resultSender)

def entries {β : Type} (calls : List (OpCall β)) : List Entry := calls.map OpCall.entry

/-- The operation that a message joins, and as whom. -/
def Message.call? : Message α → Option (Kind × Entry)
  | .allReduce peer _ _ callback => some (.allReduce, peer, callback)
  | .reduce peer _ _ _ callback => some (.reduce, peer, callback)
  | .broadcast peer _ callback => some (.broadcast, peer, callback)
  | _ => none

namespace LocalCollectiveServer

variable (server : LocalCollectiveServer α)

/-- The calls that wait in an operation. -/
def waiting : Kind → List Entry
  | .allReduce => (server.allReduceOp.map fun operation => entries operation.calls).getD []
  | .reduce => (server.reduceOp.map fun operation => entries operation.calls).getD []
  | .broadcast => (server.broadcastOp.map fun operation => entries operation.calls).getD []

/-- The call is not refused. -/
def Admits : Message α → Prop
  | .allReduce peer _ _ _ => peer ∈ server.peers
  | .reduce _ _ _ root _ => root ∈ server.peers
  | .broadcast peer _ _ => peer ∈ server.peers
  | _ => False

/-- The call goes with those that wait. -/
def Matches : Message α → Prop
  | .allReduce _ tensor op _ => ∀ operation ∈ server.allReduceOp, operation.shape = tensor.shape ∧ operation.op = op
  | .reduce _ tensor op root _ =>
    ∀ operation ∈ server.reduceOp, operation.shape = tensor.shape ∧ operation.op = op ∧ operation.root = root
  | .broadcast _ tensor _ => ∀ operation ∈ server.broadcastOp, tensor = none ∨ operation.tensor = none
  | _ => True

/-- The callbacks that the server will still send to. -/
def held : List Callback :=
  server.callbacksRegister ++ ((server.waiting .allReduce).map Prod.snd ++ ((server.waiting .reduce).map Prod.snd ++
    (server.waiting .broadcast).map Prod.snd))

end LocalCollectiveServer

def Reply.error? : Reply α → Option CollectiveError
  | .registered (.error error) => some error
  | .allReduced (.error error) => some error
  | .reduced (.error error) => some error
  | .broadcasted (.error error) => some error
  | .finished (.error error) => some error
  | _ => none

def Reply.IsError (reply : Reply α) : Prop := reply.error?.isSome = true

/-- What the call `e` does to the calls that wait in its operation, and what is sent. -/
inductive Joins (admitted matching : Prop) (peerCount : Nat) (before : List Entry) (e : Entry) (after : List Entry)
    (sent : List (Callback × Reply α)) : Prop
  | refused (reply : Reply α) (herror : reply.IsError) (hafter : after = before) (hsent : sent = [(e.2, reply)])
  | failed (hmismatch : ¬matching) (hafter : after = []) (hsent : sent.map Prod.fst = before.map Prod.snd)
    (herror : ∀ s ∈ sent, s.2.IsError)
  | waits (haccepted : admitted ∧ matching) (hafter : after = before ++ [e]) (hsent : sent = [])
    (hcount : before.length + 1 ≠ peerCount)
  | completes (haccepted : admitted ∧ matching) (hafter : after = [])
    (hsent : sent.map Prod.fst = (before ++ [e]).map Prod.snd) (hcount : before.length + 1 = peerCount)

theorem failCalls_fst {β : Type} (reply : CollectiveError → Reply α) (error : CollectiveError) (calls : List (OpCall β)) :
    (failCalls reply error calls).map Prod.fst = (entries calls).map Prod.snd := by
  simp only [failCalls, entries, List.map_map]
  rfl

theorem sendTensors_fst {β : Type} {reply : Tensor α → Reply α} {calls : List (OpCall β)} {tensors : TensorMap α}
    {sent : List (Callback × Reply α)} (h : sendTensors reply calls tensors = some sent) :
    sent.map Prod.fst = (entries calls).map Prod.snd := by
  induction calls generalizing tensors sent with
  | nil =>
    simp only [sendTensors] at h
    split at h
    · obtain rfl := Option.some.inj h
      rfl
    · cases h
  | cons call calls ih =>
    obtain ⟨⟨result, rest⟩, -, h⟩ := Option.bind_eq_some_iff.mp h
    obtain ⟨sent', hsent', h⟩ := Option.bind_eq_some_iff.mp h
    obtain rfl := Option.some.inj h
    exact congrArg (call.resultSender :: ·) (ih hsent')

theorem sendToRoot_fst [Add α] (root : PeerId) (result : Option (Tensor α)) (calls : List (OpCall (Tensor α))) :
    (ReduceOp.sendToRoot root result calls).map Prod.fst = (entries calls).map Prod.snd := by
  induction calls generalizing result with
  | nil => rfl
  | cons call calls ih =>
    rw [ReduceOp.sendToRoot]
    split
    · exact congrArg (call.resultSender :: ·) (ih none)
    · exact congrArg (call.resultSender :: ·) (ih result)

-- Registering a call

section
variable {peerCount : Nat} {ready : Bool} {callback : Callback}

theorem AllReduceOp.registerCall_ok [Add α] {operation operation' : AllReduceOp α} {caller : PeerId} {input : Tensor α}
    {op : ReduceOperation} (h : operation.registerCall caller input callback op peerCount = .ok (operation', ready)) :
    operation' = { operation with calls := operation.calls ++ [⟨caller, input, callback⟩] } ∧
      (ready = true ↔ operation.calls.length + 1 = peerCount) ∧ operation.shape = input.shape ∧ operation.op = op := by
  unfold registerCall at h
  split at h
  · cases h
  split at h
  · cases h
  next hshape hop =>
    obtain ⟨rfl, rfl⟩ := Prod.ext_iff.mp (Except.ok.inj h)
    exact ⟨rfl, by simp, not_not.mp hshape, not_not.mp hop⟩

theorem ReduceOp.registerCall_ok [Add α] {operation operation' : ReduceOp α} {caller root : PeerId} {input : Tensor α}
    {op : ReduceOperation} (h : operation.registerCall caller input callback op root peerCount = .ok (operation', ready)) :
    operation' = { operation with calls := operation.calls ++ [⟨caller, input, callback⟩] } ∧
      (ready = true ↔ operation.calls.length + 1 = peerCount) ∧
      operation.shape = input.shape ∧ operation.op = op ∧ operation.root = root := by
  unfold registerCall at h
  split at h
  · cases h
  split at h
  · cases h
  split at h
  · cases h
  next hshape hop hroot =>
    obtain ⟨rfl, rfl⟩ := Prod.ext_iff.mp (Except.ok.inj h)
    exact ⟨rfl, by simp, not_not.mp hshape, not_not.mp hop, not_not.mp hroot⟩

theorem BroadcastOp.registerCall_ok {operation operation' : BroadcastOp α} {caller : PeerId}
    {input : Option (Tensor α)} {device : DeviceId}
    (h : operation.registerCall caller input callback device peerCount = .ok (operation', ready)) :
    operation'.calls = operation.calls ++ [⟨caller, device, callback⟩] ∧
      operation'.tensor = (if input.isSome then input else operation.tensor) ∧
      operation'.root = (if input.isSome then some caller else operation.root) ∧
      (ready = true ↔ operation.calls.length + 1 = peerCount) ∧ (input = none ∨ operation.tensor = none) := by
  unfold registerCall at h
  split at h
  · cases h
  next hboth =>
    obtain ⟨rfl, rfl⟩ := Prod.ext_iff.mp (Except.ok.inj h)
    refine ⟨rfl, ?_, ?_, by simp, ?_⟩
    · split <;> rfl
    · split <;> rfl
    · cases input with
      | none => exact .inl rfl
      | some t => exact .inr (by simpa using hboth)

theorem AllReduceOp.execute_fst [Add α] {operation : AllReduceOp α} {host : Host α} {config : CollectiveConfig}
    {globalClient : Bool} {sent : List (Callback × Reply α)} (h : operation.execute host config globalClient = some sent) :
    sent.map Prod.fst = (entries operation.calls).map Prod.snd := by
  obtain ⟨result, -, h⟩ := Option.bind_eq_some_iff.mp h
  cases result with
  | ok tensors => exact sendTensors_fst h
  | error error => exact Option.some.inj h ▸ failCalls_fst _ error _

theorem ReduceOp.execute_fst [Add α] {operation : ReduceOp α} {host : Host α} {root : PeerId} {config : CollectiveConfig}
    {globalClient : Bool} {sent : List (Callback × Reply α)}
    (h : operation.execute host root config globalClient = some sent) :
    sent.map Prod.fst = (entries operation.calls).map Prod.snd := by
  obtain ⟨result, -, h⟩ := Option.bind_eq_some_iff.mp h
  cases result with
  | ok result => exact Option.some.inj h ▸ sendToRoot_fst root result _
  | error error => exact Option.some.inj h ▸ failCalls_fst _ error _

theorem BroadcastOp.execute_fst {operation : BroadcastOp α} {host : Host α} {config : CollectiveConfig}
    {globalClient : Bool} {sent : List (Callback × Reply α)} (h : operation.execute host config globalClient = some sent) :
    sent.map Prod.fst = (entries operation.calls).map Prod.snd := by
  obtain ⟨result, -, h⟩ := Option.bind_eq_some_iff.mp h
  cases result with
  | ok tensors => exact sendTensors_fst h
  | error error => exact Option.some.inj h ▸ failCalls_fst _ error _

end

-- Calls of the server

namespace LocalCollectiveServer

variable {server server' : LocalCollectiveServer α} {host : Host α} {sent : List (Callback × Reply α)}

theorem settle_joins {Op : Type} {admitted : Prop} (hadmitted : admitted) (matching : Prop) (callsOf : Op → List Entry)
    {put : Option Op → LocalCollectiveServer α} {execute : Op → Option (List (Callback × Reply α))}
    {fail : CollectiveError → List (Callback × Reply α)} {result : Except CollectiveError (Op × Bool)}
    {before : List Entry} {e : Entry} {peerCount : Nat} (h : settle put execute fail result = some (server', sent))
    (hok : ∀ operation ready, result = .ok (operation, ready) →
      matching ∧ callsOf operation = before ++ [e] ∧ (ready = true ↔ before.length + 1 = peerCount))
    (herror : ∀ error, result = .error error → ¬matching)
    (hexecute : ∀ operation sent, execute operation = some sent → sent.map Prod.fst = (callsOf operation).map Prod.snd)
    (hfail : ∀ error, (fail error).map Prod.fst = before.map Prod.snd ∧ ∀ s ∈ fail error, s.2.IsError) :
    ∃ operation, server' = put operation ∧ (∀ o ∈ operation, result = .ok (o, false)) ∧
      Joins admitted matching peerCount before e ((operation.map callsOf).getD []) sent := by
  rcases result with error | ⟨operation, _ | _⟩
  · obtain ⟨rfl, rfl⟩ := Prod.ext_iff.mp (Option.some.inj h)
    exact ⟨none, rfl, nofun, .failed (herror error rfl) rfl (hfail error).1 (hfail error).2⟩
  · obtain ⟨rfl, rfl⟩ := Prod.ext_iff.mp (Option.some.inj h)
    obtain ⟨hmatching, hcalls, hready⟩ := hok operation false rfl
    refine ⟨some operation, rfl, fun o ho => by rw [Option.mem_some.mp ho], ?_⟩
    exact .waits ⟨hadmitted, hmatching⟩ hcalls rfl fun hcount => nomatch hready.mpr hcount
  · obtain ⟨sent', hsent', h⟩ := Option.map_eq_some_iff.mp h
    obtain ⟨rfl, rfl⟩ := Prod.ext_iff.mp h
    obtain ⟨hmatching, hcalls, hready⟩ := hok operation true rfl
    refine ⟨none, rfl, nofun, .completes ⟨hadmitted, hmatching⟩ rfl ?_ (hready.mp rfl)⟩
    rw [← hcalls]
    exact hexecute operation sent' hsent'

theorem failCalls_error {β : Type} {f : CollectiveError → Reply α} (hf : ∀ error, (f error).IsError)
    {error : CollectiveError} {calls : List (OpCall β)} : ∀ s ∈ failCalls f error calls, s.2.IsError := by
  intro s hs
  obtain ⟨_, -, rfl⟩ := List.mem_map.mp hs
  exact hf error

theorem entries_concat {β : Type} (calls : List (OpCall β)) (call : OpCall β) :
    entries (calls ++ [call]) = entries calls ++ [call.entry] := List.map_append

-- The operation that a call finds, or starts.

theorem entries_allReduce (server : LocalCollectiveServer α) (op : ReduceOperation) (shape : List Nat) :
    entries (server.allReduceOp.getD { calls := [], op, shape }).calls = server.waiting .allReduce := by
  rw [waiting]
  cases server.allReduceOp <;> rfl

theorem entries_reduce (server : LocalCollectiveServer α) (op : ReduceOperation) (root : PeerId) (shape : List Nat) :
    entries (server.reduceOp.getD { calls := [], op, root, shape }).calls = server.waiting .reduce := by
  rw [waiting]
  cases server.reduceOp <;> rfl

theorem entries_broadcast (server : LocalCollectiveServer α) : entries (server.broadcastOp.getD .new).calls = server.waiting .broadcast := by
  rw [waiting]
  cases server.broadcastOp <;> rfl

theorem matches_allReduce {peer : PeerId} {tensor : Tensor α} {op : ReduceOperation} {callback : Callback} :
    server.Matches (.allReduce peer tensor op callback) ↔
      (server.allReduceOp.getD { calls := [], op, shape := tensor.shape }).shape = tensor.shape ∧
        (server.allReduceOp.getD { calls := [], op, shape := tensor.shape }).op = op := by
  cases hop : server.allReduceOp <;> simp [Matches, hop]

theorem matches_reduce {peer root : PeerId} {tensor : Tensor α} {op : ReduceOperation} {callback : Callback} :
    server.Matches (.reduce peer tensor op root callback) ↔
      (server.reduceOp.getD { calls := [], op, root, shape := tensor.shape }).shape = tensor.shape ∧
        (server.reduceOp.getD { calls := [], op, root, shape := tensor.shape }).op = op ∧
        (server.reduceOp.getD { calls := [], op, root, shape := tensor.shape }).root = root := by
  cases hop : server.reduceOp <;> simp [Matches, hop]

theorem matches_broadcast {peer : PeerId} {tensor : Option (Tensor α)} {callback : Callback} :
    server.Matches (.broadcast peer tensor callback) ↔ tensor = none ∨ (server.broadcastOp.getD .new).tensor = none := by
  cases hop : server.broadcastOp <;> simp [Matches, hop, BroadcastOp.new]

theorem processAllReduce_joins [Add α] {peerId : PeerId} {tensor : Tensor α} {op : ReduceOperation} {callback : Callback}
    (h : server.processAllReduce host peerId tensor op callback = some (server', sent)) :
    Joins (server.Admits (.allReduce peerId tensor op callback)) (server.Matches (.allReduce peerId tensor op callback))
        server.peers.length (server.waiting .allReduce) (peerId, callback) (server'.waiting .allReduce) sent ∧
      server' = { server with allReduceOp := server'.allReduceOp } ∧
      ∀ operation' ∈ server'.allReduceOp, operation' ∈ server.allReduceOp ∨ ∃ operation : AllReduceOp α,
        (operation ∈ server.allReduceOp ∨ operation.calls = []) ∧ operation.shape = tensor.shape ∧ operation.op = op ∧
          operation' = { operation with calls := operation.calls ++ [⟨peerId, tensor, callback⟩] } := by
  unfold processAllReduce at h
  split at h
  · obtain ⟨rfl, rfl⟩ := Prod.ext_iff.mp (Option.some.inj h)
    exact ⟨.refused (.allReduced (.error .registerNotFirstOperation)) rfl rfl rfl, rfl, fun _ => .inl⟩
  next hpeer =>
  have hwaiting := server.entries_allReduce op tensor.shape
  obtain ⟨operation, rfl, hput, hjoins⟩ := settle_joins (show server.Admits (.allReduce peerId tensor op callback) from not_not.mp hpeer)
    (server.Matches (.allReduce peerId tensor op callback)) (fun operation => entries operation.calls) h
    (by
      intro operation ready hok
      obtain ⟨rfl, hready, hsame⟩ := AllReduceOp.registerCall_ok hok
      refine ⟨matches_allReduce.mpr hsame, (entries_concat _ _).trans (congrArg (· ++ _) hwaiting), ?_⟩
      rw [hready, ← hwaiting, entries, List.length_map])
    (by
      intro error herror hmatch
      obtain ⟨hshape, hop⟩ := matches_allReduce.mp hmatch
      rw [AllReduceOp.registerCall, if_neg (not_not.mpr hshape), if_neg (not_not.mpr hop)] at herror
      cases herror)
    (by
      intro operation sent hsent
      obtain ⟨config, -, hsent⟩ := Option.bind_eq_some_iff.mp hsent
      exact AllReduceOp.execute_fst hsent)
    (fun error => ⟨(failCalls_fst _ error _).trans (congrArg (List.map Prod.snd) hwaiting),
      failCalls_error (f := fun error => .allReduced (.error error)) fun _ => rfl⟩)
  refine ⟨hjoins, rfl, fun operation' ho => .inr ⟨_, ?_, (AllReduceOp.registerCall_ok (hput operation' ho)).2.2.1,
    (AllReduceOp.registerCall_ok (hput operation' ho)).2.2.2, (AllReduceOp.registerCall_ok (hput operation' ho)).1⟩⟩
  cases server.allReduceOp with
  | none => exact .inr rfl
  | some operation => exact .inl rfl

theorem processReduce_joins [Add α] {peerId root : PeerId} {tensor : Tensor α} {op : ReduceOperation} {callback : Callback}
    (h : server.processReduce host peerId tensor op root callback = some (server', sent)) :
    Joins (server.Admits (.reduce peerId tensor op root callback)) (server.Matches (.reduce peerId tensor op root callback))
        server.peers.length (server.waiting .reduce) (peerId, callback) (server'.waiting .reduce) sent ∧
      server' = { server with reduceOp := server'.reduceOp } ∧
      ∀ operation' ∈ server'.reduceOp, operation' ∈ server.reduceOp ∨ ∃ operation : ReduceOp α,
        (operation ∈ server.reduceOp ∨ operation.calls = []) ∧
          operation.shape = tensor.shape ∧ operation.op = op ∧ operation.root = root ∧
          operation' = { operation with calls := operation.calls ++ [⟨peerId, tensor, callback⟩] } := by
  unfold processReduce at h
  split at h
  · obtain ⟨rfl, rfl⟩ := Prod.ext_iff.mp (Option.some.inj h)
    exact ⟨.refused (.reduced (.error .registerNotFirstOperation)) rfl rfl rfl, rfl, fun _ => .inl⟩
  next hroot =>
  have hwaiting := server.entries_reduce op root tensor.shape
  obtain ⟨operation, rfl, hput, hjoins⟩ := settle_joins (show server.Admits (.reduce peerId tensor op root callback) from not_not.mp hroot)
    (server.Matches (.reduce peerId tensor op root callback)) (fun operation => entries operation.calls) h
    (by
      intro operation ready hok
      obtain ⟨rfl, hready, hsame⟩ := ReduceOp.registerCall_ok hok
      refine ⟨matches_reduce.mpr hsame, (entries_concat _ _).trans (congrArg (· ++ _) hwaiting), ?_⟩
      rw [hready, ← hwaiting, entries, List.length_map])
    (by
      intro error herror hmatch
      obtain ⟨hshape, hop, hroot⟩ := matches_reduce.mp hmatch
      rw [ReduceOp.registerCall, if_neg (not_not.mpr hshape), if_neg (not_not.mpr hop),
        if_neg (not_not.mpr hroot)] at herror
      cases herror)
    (by
      intro operation sent hsent
      obtain ⟨config, -, hsent⟩ := Option.bind_eq_some_iff.mp hsent
      exact ReduceOp.execute_fst hsent)
    (fun error => ⟨(failCalls_fst _ error _).trans (congrArg (List.map Prod.snd) hwaiting),
      failCalls_error (f := fun error => .reduced (.error error)) fun _ => rfl⟩)
  refine ⟨hjoins, rfl, fun operation' ho => ?_⟩
  obtain ⟨heq, -, hshape, hop, hroot⟩ := ReduceOp.registerCall_ok (hput operation' ho)
  refine .inr ⟨_, ?_, hshape, hop, hroot, heq⟩
  cases server.reduceOp with
  | none => exact .inr rfl
  | some operation => exact .inl rfl

theorem processBroadcast_joins {caller : PeerId} {tensor : Option (Tensor α)} {callback : Callback}
    (h : server.processBroadcast host caller tensor callback = some (server', sent)) :
    Joins (server.Admits (.broadcast caller tensor callback)) (server.Matches (.broadcast caller tensor callback))
        server.peers.length (server.waiting .broadcast) (caller, callback) (server'.waiting .broadcast) sent ∧
      server' = { server with broadcastOp := server'.broadcastOp } ∧
      ∀ operation' ∈ server'.broadcastOp, operation' ∈ server.broadcastOp ∨ ∃ (operation : BroadcastOp α) (device : DeviceId),
        (operation ∈ server.broadcastOp ∨ operation.calls = [] ∧ operation.root = none) ∧
          operation'.calls = operation.calls ++ [⟨caller, device, callback⟩] ∧
          operation'.root = if tensor.isSome then some caller else operation.root := by
  unfold processBroadcast at h
  split at h
  · obtain ⟨rfl, rfl⟩ := Prod.ext_iff.mp (Option.some.inj h)
    exact ⟨.refused (.broadcasted (.error .registerNotFirstOperation)) rfl rfl rfl, rfl, fun _ => .inl⟩
  split at h
  · obtain ⟨rfl, rfl⟩ := Prod.ext_iff.mp (Option.some.inj h)
    exact ⟨.refused (.broadcasted (.error .registerNotFirstOperation)) rfl rfl rfl, rfl, fun _ => .inl⟩
  next hcaller =>
  have hwaiting := server.entries_broadcast
  obtain ⟨device, -, h⟩ := Option.bind_eq_some_iff.mp h
  obtain ⟨operation, rfl, hput, hjoins⟩ := settle_joins (show server.Admits (.broadcast caller tensor callback) from not_not.mp hcaller)
    (server.Matches (.broadcast caller tensor callback)) (fun operation => entries operation.calls) h
    (by
      intro operation ready hok
      obtain ⟨hcalls, -, -, hready, hsame⟩ := BroadcastOp.registerCall_ok hok
      refine ⟨matches_broadcast.mpr hsame, ?_, ?_⟩
      · rw [hcalls]
        exact (entries_concat _ _).trans (congrArg (· ++ _) hwaiting)
      · rw [hready, ← hwaiting, entries, List.length_map])
    (by
      intro error herror hmatch
      have hboth : ¬(tensor.isSome = true ∧ (server.broadcastOp.getD .new).tensor.isSome = true) := by
        rintro ⟨htensor, hother⟩
        rcases matches_broadcast.mp hmatch with hnone | hnone
        · rw [hnone] at htensor
          cases htensor
        · rw [hnone] at hother
          cases hother
      rw [BroadcastOp.registerCall, if_neg hboth] at herror
      cases herror)
    (by
      intro operation sent hsent
      obtain ⟨config, -, hsent⟩ := Option.bind_eq_some_iff.mp hsent
      exact BroadcastOp.execute_fst hsent)
    (fun error => ⟨(failCalls_fst _ error _).trans (congrArg (List.map Prod.snd) hwaiting),
      failCalls_error (f := fun error => .broadcasted (.error error)) fun _ => rfl⟩)
  refine ⟨hjoins, rfl, fun operation' ho => ?_⟩
  obtain ⟨hcalls, -, hroot, -⟩ := BroadcastOp.registerCall_ok (hput operation' ho)
  refine .inr ⟨_, device, ?_, hcalls, hroot⟩
  cases server.broadcastOp with
  | none => exact .inr ⟨rfl, rfl⟩
  | some operation => exact .inl rfl

/-- Only the calls of one operation change. -/
structure SameBut (kind : Kind) (server server' : LocalCollectiveServer α) : Prop where
  config : server'.config = server.config
  peers : server'.peers = server.peers
  callbacksRegister : server'.callbacksRegister = server.callbacksRegister
  devices : server'.devices = server.devices
  others : ∀ other, other ≠ kind → server'.waiting other = server.waiting other

theorem processMessage_joins [Add α] {m : Message α} {kind : Kind} {e : Entry} (hcall : m.call? = some (kind, e))
    (h : server.processMessage host m = some (server', sent)) :
    Joins (server.Admits m) (server.Matches m) server.peers.length (server.waiting kind) e (server'.waiting kind) sent ∧
      SameBut kind server server' := by
  cases m with
  | allReduce =>
    cases hcall
    obtain ⟨hjoins, hsame, -⟩ := processAllReduce_joins h
    refine ⟨hjoins, ?_⟩
    rw [hsame]
    exact ⟨rfl, rfl, rfl, rfl, fun other hne => by cases other <;> first | exact absurd rfl hne | rfl⟩
  | reduce =>
    cases hcall
    obtain ⟨hjoins, hsame, -⟩ := processReduce_joins h
    refine ⟨hjoins, ?_⟩
    rw [hsame]
    exact ⟨rfl, rfl, rfl, rfl, fun other hne => by cases other <;> first | exact absurd rfl hne | rfl⟩
  | broadcast =>
    cases hcall
    obtain ⟨hjoins, hsame, -⟩ := processBroadcast_joins h
    refine ⟨hjoins, ?_⟩
    rw [hsame]
    exact ⟨rfl, rfl, rfl, rfl, fun other hne => by cases other <;> first | exact absurd rfl hne | rfl⟩
  | register => cases hcall
  | reset => cases hcall
  | finish => cases hcall

end LocalCollectiveServer

end Ruda.Collective
