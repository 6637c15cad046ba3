import Ruda.Collective.Completion

/-!
# Every request is answered once

Whoever waits for a request gets its reply, or learns that the server has let go of it. As long as
no peer calls twice and nobody leaves an operation that it joined, both happen in time.
-/

namespace Ruda.Collective

variable {α : Type}

def Message.callback? : Message α → Option Callback
  | .register _ _ _ callback => some callback
  | .allReduce _ _ _ callback => some callback
  | .reduce _ _ _ _ callback => some callback
  | .broadcast _ _ callback => some callback
  | .reset => none
  | .finish _ callback => some callback

/-- Two calls of one operation, with the same shape, reduction and root. -/
def Message.Agrees : Message α → Message α → Prop
  | .allReduce _ tensor op _, .allReduce _ tensor' op' _ => tensor.shape = tensor'.shape ∧ op = op'
  | .reduce _ tensor op root _, .reduce _ tensor' op' root' _ => tensor.shape = tensor'.shape ∧ op = op' ∧ root = root'
  | .broadcast _ _ _, .broadcast _ _ _ => True
  | _, _ => False

/-- A server with the requests it took and all that it sent. -/
structure Session (α : Type) where
  server : LocalCollectiveServer α
  asked : List (Message α)
  sent : List (Callback × Reply α)

/-- What `wait` comes to. -/
inductive Wait (α : Type)
  | blocked
  | received (reply : Reply α)
  | localServerMissing

namespace Session

variable (t : Session α)

def new : Session α := { server := .new, asked := [], sent := [] }

/-- The channel of each request is its own. -/
def Fresh (m : Message α) : Prop := ∀ m' ∈ t.asked, ∀ callback ∈ m.callback?, m'.callback? ≠ some callback

def after (m : Message α) (handled : LocalCollectiveServer.Handled α) : Session α where
  server := handled.1
  asked := t.asked ++ [m]
  sent := t.sent ++ handled.2

/-- `PendingCollectiveOperation::wait`: a channel whose senders are gone gives an error. -/
def wait (callback : Callback) : Wait α :=
  match t.sent.lookup callback with
  | some reply => .received reply
  | none => if callback ∈ t.server.held then .blocked else .localServerMissing

/-- In how many places there is a result for a callback, or a sender that waits for one. -/
def places (callback : Callback) : Nat := t.server.held.count callback + (t.sent.map Prod.fst).count callback

end Session

-- Careful messages

namespace LocalCollectiveServer

variable (server : LocalCollectiveServer α)

/-- The strategies can take the tensors of this last call and of all who wait. -/
def CanExecute : Message α → Prop
  | .allReduce _ tensor _ _ =>
    ∀ config ∈ server.config, config.AllReduceFits server.globalClient tensor.shape server.peers.length
  | .reduce _ _ _ _ _ => ∀ config ∈ server.config, config.ReduceFits server.globalClient server.peers.length
  | .broadcast _ tensor _ =>
    server.globalClient = true ∨ tensor.isSome ∨ (∃ operation ∈ server.broadcastOp, operation.tensor.isSome) →
      ∀ config ∈ server.config, config.BroadcastFits server.globalClient server.peers.length
  | _ => True

/-- A registered peer that does not wait in the operation; and when it is the last one, all who wait are still
registered and the operation can be executed. -/
structure Joinable (kind : Kind) (peer : PeerId) (m : Message α) : Prop where
  registered : peer ∈ server.peers
  once : peer ∉ (server.waiting kind).map Prod.fst
  last : (server.waiting kind).length + 1 = server.peers.length →
    (∀ caller ∈ (server.waiting kind).map Prod.fst, caller ∈ server.peers) ∧ server.CanExecute m

/-- Calls that are not refused and do not fail are joinable, and no registration waits at a reset. -/
def Careful (m : Message α) : Prop :=
  (∀ kind peer callback, m.call? = some (kind, peer, callback) → server.Admits m → server.Matches m →
    server.Joinable kind peer m) ∧
  (m = .reset → server.callbacksRegister = [])

end LocalCollectiveServer

-- Where the results are

namespace LocalCollectiveServer

variable {server server' : LocalCollectiveServer α} {host : Host α} {sent : List (Callback × Reply α)}

/-- No call mismatches, and nobody waits at a reset. -/
def Settled (server : LocalCollectiveServer α) (m : Message α) : Prop :=
  server.Matches m ∧ (m = .reset → server.held = [])

/-- What is sent or held after a message was there before, or belongs to the message. -/
def Keeps (server : LocalCollectiveServer α) (m : Message α) (handled : Handled α) : Prop :=
  ∀ callback,
    handled.1.held.count callback + (handled.2.map Prod.fst).count callback ≤
      server.held.count callback + m.callback?.toList.count callback ∧
    (server.Settled m → handled.1.held.count callback + (handled.2.map Prod.fst).count callback =
      server.held.count callback + m.callback?.toList.count callback)

theorem SameBut.held_count {kind : Kind} (h : SameBut kind server server') (callback : Callback) :
    server'.held.count callback + ((server.waiting kind).map Prod.snd).count callback =
      server.held.count callback + ((server'.waiting kind).map Prod.snd).count callback := by
  have hreg := h.callbacksRegister
  have hothers := h.others
  cases kind with
  | allReduce =>
    simp only [held, List.count_append, hreg, hothers .reduce nofun, hothers .broadcast nofun]
    omega
  | reduce =>
    simp only [held, List.count_append, hreg, hothers .allReduce nofun, hothers .broadcast nofun]
    omega
  | broadcast =>
    simp only [held, List.count_append, hreg, hothers .allReduce nofun, hothers .reduce nofun]
    omega

theorem keeps_call [Add α] {m : Message α} {kind : Kind} {e : Entry} (hcall : m.call? = some (kind, e))
    (h : server.processMessage host m = some (server', sent)) : server.Keeps m (server', sent) := by
  obtain ⟨hjoins, hsame⟩ := processMessage_joins hcall h
  intro callback
  have hheld := hsame.held_count callback
  have hcb : m.callback? = some e.2 := by cases m <;> cases hcall <;> rfl
  simp only [hcb, Option.toList_some]
  rcases hjoins with ⟨reply, -, hafter, hsent⟩ | ⟨hmismatch, hafter, hsent, -⟩ | ⟨-, hafter, hsent, -⟩ |
    ⟨-, hafter, hsent, -⟩
  · rw [hafter] at hheld
    simp only [hsent, List.map_cons, List.map_nil]
    exact ⟨by omega, fun _ => by omega⟩
  · rw [hafter] at hheld
    simp only [List.map_nil, List.count_nil] at hheld
    rw [hsent]
    exact ⟨by omega, fun hsettled => absurd hsettled.1 hmismatch⟩
  · rw [hafter] at hheld
    simp only [List.map_append, List.map_singleton, List.count_append] at hheld
    rw [hsent, List.map_nil, List.count_nil]
    exact ⟨by omega, fun _ => by omega⟩
  · rw [hafter] at hheld
    simp only [List.map_nil, List.count_nil] at hheld
    simp only [hsent, List.map_append, List.map_singleton, List.count_append]
    exact ⟨by omega, fun _ => by omega⟩

theorem processRegister_cases {deviceId : PeerId} {device : DeviceId} {config : CollectiveConfig} {callback : Callback}
    (h : server.processRegister host deviceId device config callback = some (server', sent)) :
    (server' = server ∧ ∃ reply, sent = [(callback, reply)]) ∨
      ∃ callbacksRegister,
        deviceId ∉ server.peers ∧
        server' = { server with
          config := some config
          peers := server.peers ++ [deviceId]
          callbacksRegister
          devices := server.devices.insert deviceId device
          globalClient := server.globalClient || config.globalRegisterParams.isSome } ∧
        callbacksRegister ++ sent.map Prod.fst = server.callbacksRegister ++ [callback] := by
  unfold processRegister at h
  split at h
  · obtain ⟨rfl, rfl⟩ := Prod.ext_iff.mp (Option.some.inj h)
    exact .inl ⟨rfl, _, rfl⟩
  split at h
  · obtain ⟨rfl, rfl⟩ := Prod.ext_iff.mp (Option.some.inj h)
    exact .inl ⟨rfl, _, rfl⟩
  next hnew =>
  split at h
  · obtain ⟨rfl, rfl⟩ := Prod.ext_iff.mp (Option.some.inj h)
    exact .inl ⟨rfl, _, rfl⟩
  dsimp only at h
  split at h
  · obtain ⟨rfl, rfl⟩ := Prod.ext_iff.mp (Option.some.inj h)
    refine .inr ⟨[], hnew, rfl, ?_⟩
    rw [List.nil_append, List.map_map]
    exact List.map_id _
  · obtain ⟨rfl, rfl⟩ := Prod.ext_iff.mp (Option.some.inj h)
    exact .inr ⟨_, hnew, rfl, List.append_nil _⟩

theorem processRegister_exists (server : LocalCollectiveServer α) (host : Host α) (deviceId : PeerId) (device : DeviceId)
    (config : CollectiveConfig) (callback : Callback) :
    ∃ handled, server.processRegister host deviceId device config callback = some handled := by
  unfold processRegister
  split
  · exact ⟨_, rfl⟩
  split
  · exact ⟨_, rfl⟩
  split
  · exact ⟨_, rfl⟩
  dsimp only
  split
  · exact ⟨_, rfl⟩
  · exact ⟨_, rfl⟩

theorem processFinish_cases (server : LocalCollectiveServer α) (id : PeerId) (callback : Callback) :
    ∃ reply peers globalClient, peers.Sublist server.peers ∧
      server.processFinish id callback = ({ server with peers, globalClient }, [(callback, reply)]) := by
  unfold processFinish
  split
  · exact ⟨_, _, _, .refl _, rfl⟩
  split
  · exact ⟨_, _, _, .refl _, rfl⟩
  · exact ⟨_, _, _, List.filter_sublist, rfl⟩

theorem held_reset (server : LocalCollectiveServer α) : server.reset.held = server.callbacksRegister := by
  simp [held, reset, waiting]

theorem keeps [Add α] {m : Message α} (h : server.processMessage host m = some (server', sent)) :
    server.Keeps m (server', sent) := by
  cases m with
  | allReduce => exact keeps_call rfl h
  | reduce => exact keeps_call rfl h
  | broadcast => exact keeps_call rfl h
  | register deviceId device config callback =>
    intro cb
    rcases processRegister_cases h with ⟨rfl, reply, rfl⟩ | ⟨callbacksRegister, -, hserver, hsent⟩
    · exact ⟨le_rfl, fun _ => rfl⟩
    · have hcount := congrArg (List.count cb) hsent
      simp only [List.count_append] at hcount
      have hreg : server'.callbacksRegister = callbacksRegister := by rw [hserver]
      have hwaiting : server'.waiting = server.waiting := by
        rw [hserver]
        rfl
      have heq : server'.held.count cb + (sent.map Prod.fst).count cb = server.held.count cb + [callback].count cb := by
        simp only [held, List.count_append, hreg, hwaiting]
        omega
      exact ⟨heq.le, fun _ => heq⟩
  | reset =>
    intro cb
    obtain ⟨rfl, rfl⟩ := Prod.ext_iff.mp (Option.some.inj h)
    simp only [held_reset, List.map_nil, List.count_nil, Nat.add_zero, Message.callback?, Option.toList_none]
    refine ⟨?_, fun hsettled => ?_⟩
    · simp only [held, List.count_append]
      omega
    · have hnone := hsettled.2 rfl
      rw [hnone, (List.append_eq_nil_iff.mp hnone).1]
  | finish id callback =>
    intro cb
    obtain ⟨reply, peers, globalClient, -, heq⟩ := processFinish_cases server id callback
    obtain ⟨rfl, rfl⟩ := Prod.ext_iff.mp ((Option.some.inj h).symm.trans heq)
    exact ⟨le_rfl, fun _ => rfl⟩

end LocalCollectiveServer

-- The invariant

namespace Session

variable {t : Session α} {host : Host α} {m : Message α} {handled : LocalCollectiveServer.Handled α}

/-- The calls that wait in an operation are requests for it. -/
structure Recorded (server : LocalCollectiveServer α) (asked : List (Message α)) : Prop where
  allReduce : ∀ operation ∈ server.allReduceOp, ∀ call ∈ operation.calls,
    call.input.shape = operation.shape ∧ .allReduce call.caller call.input operation.op call.resultSender ∈ asked
  reduce : ∀ operation ∈ server.reduceOp, ∀ call ∈ operation.calls,
    call.input.shape = operation.shape ∧
      .reduce call.caller call.input operation.op operation.root call.resultSender ∈ asked
  broadcast : ∀ operation ∈ server.broadcastOp,
    (∀ call ∈ operation.calls, ∃ tensor, .broadcast call.caller tensor call.resultSender ∈ asked) ∧
      ∀ root ∈ operation.root, root ∈ operation.calls.map OpCall.caller

theorem Recorded.mono {server : LocalCollectiveServer α} {asked asked' : List (Message α)} (h : Recorded server asked)
    (hsub : asked ⊆ asked') : Recorded server asked' where
  allReduce operation ho call hcall := (h.allReduce operation ho call hcall).imp_right fun hm => hsub hm
  reduce operation ho call hcall := (h.reduce operation ho call hcall).imp_right fun hm => hsub hm
  broadcast operation ho :=
    ⟨fun call hcall => ((h.broadcast operation ho).1 call hcall).imp fun _ hm => hsub hm, (h.broadcast operation ho).2⟩

structure Inv (t : Session α) : Prop where
  once : ∀ callback, t.places callback ≤ 1
  known : ∀ callback, 0 < t.places callback → ∃ m ∈ t.asked, m.callback? = some callback
  peers : t.server.peers.Nodup
  config : t.server.peers ≠ [] → ∃ config, t.server.config = some config
  devices : ∀ peer ∈ t.server.peers, ∃ device, t.server.devices[peer]? = some device
  callers : ∀ kind, ((t.server.waiting kind).map Prod.fst).Nodup
  recorded : Recorded t.server t.asked

theorem inv_new : (new : Session α).Inv where
  once _ := Nat.zero_le _
  known _ h := absurd h (lt_irrefl 0)
  peers := List.nodup_nil
  config h := absurd rfl h
  devices _ h := absurd h List.not_mem_nil
  callers kind := by cases kind <;> exact List.nodup_nil
  recorded := ⟨nofun, nofun, nofun⟩

theorem places_after (callback : Callback) :
    (t.after m handled).places callback =
      (handled.1.held.count callback + (handled.2.map Prod.fst).count callback) + (t.sent.map Prod.fst).count callback := by
  simp only [places, after, List.map_append, List.count_append]
  omega

theorem Inv.once_after [Add α] (h : t.Inv) (hfresh : t.Fresh m) (hm : t.server.processMessage host m = some handled)
    (callback : Callback) : (t.after m handled).places callback ≤ 1 := by
  have hkeep : handled.1.held.count callback + (handled.2.map Prod.fst).count callback ≤
      t.server.held.count callback + m.callback?.toList.count callback := (LocalCollectiveServer.keeps hm callback).1
  have hplaces : t.places callback = t.server.held.count callback + (t.sent.map Prod.fst).count callback := rfl
  have honce := h.once callback
  rw [places_after]
  cases hcb : m.callback? with
  | none =>
    simp only [hcb, Option.toList_none, List.count_nil] at hkeep
    omega
  | some own =>
    simp only [hcb, Option.toList_some, List.count_singleton] at hkeep
    split at hkeep
    · next heq =>
      -- nobody used this channel before
      have hnone : ¬0 < t.places callback := by
        intro hpos
        obtain ⟨m', hm', hcb'⟩ := h.known callback hpos
        exact hfresh m' hm' own hcb (by rw [hcb', beq_iff_eq.mp heq])
      omega
    · omega

theorem Inv.known_after [Add α] (h : t.Inv) (hm : t.server.processMessage host m = some handled) (callback : Callback)
    (hpos : 0 < (t.after m handled).places callback) :
    ∃ m' ∈ (t.after m handled).asked, m'.callback? = some callback := by
  have hkeep : handled.1.held.count callback + (handled.2.map Prod.fst).count callback ≤
      t.server.held.count callback + m.callback?.toList.count callback := (LocalCollectiveServer.keeps hm callback).1
  have hplaces : t.places callback = t.server.held.count callback + (t.sent.map Prod.fst).count callback := rfl
  rw [places_after] at hpos
  by_cases hold : 0 < t.places callback
  · obtain ⟨m', hm', hcb⟩ := h.known callback hold
    exact ⟨m', List.mem_append_left _ hm', hcb⟩
  · have hown : 0 < m.callback?.toList.count callback := by omega
    have hmem := List.count_pos_iff.mp hown
    exact ⟨m, List.mem_append_right _ (List.mem_singleton_self m), Option.mem_toList.mp hmem⟩

theorem callers_after [Add α] (h : t.Inv) (hcareful : t.server.Careful m) {kind : Kind} {e : Entry}
    (hcall : m.call? = some (kind, e)) (hm : t.server.processMessage host m = some handled) (other : Kind) :
    ((handled.1.waiting other).map Prod.fst).Nodup := by
  obtain ⟨hjoins, hsame⟩ := LocalCollectiveServer.processMessage_joins hcall hm
  by_cases hother : other = kind
  · subst hother
    rcases hjoins with ⟨_, -, hafter, -⟩ | ⟨-, hafter, -, -⟩ | ⟨haccepted, hafter, -, -⟩ | ⟨-, hafter, -, -⟩
    · exact hafter ▸ h.callers other
    · exact hafter ▸ List.nodup_nil
    · have hjoin := hcareful.1 other e.1 e.2 hcall haccepted.1 haccepted.2
      rw [hafter, List.map_append, List.map_singleton, ← List.concat_eq_append, List.nodup_concat]
      exact ⟨hjoin.once, h.callers other⟩
    · exact hafter ▸ List.nodup_nil
  · rw [hsame.others other hother]
    exact h.callers other

theorem Inv.call [Add α] (h : t.Inv) (hfresh : t.Fresh m) (hcareful : t.server.Careful m) {kind : Kind} {e : Entry}
    (hcall : m.call? = some (kind, e)) (hm : t.server.processMessage host m = some handled)
    (hrecorded : Recorded handled.1 (t.asked ++ [m])) : (t.after m handled).Inv := by
  obtain ⟨-, hsame⟩ := LocalCollectiveServer.processMessage_joins hcall hm
  exact {
    once := h.once_after hfresh hm
    known := h.known_after hm
    peers := (congrArg List.Nodup hsame.peers).mpr h.peers
    config := fun hne => by
      obtain ⟨config, hconfig⟩ := h.config fun hnil => hne (hsame.peers.trans hnil)
      exact ⟨config, hsame.config.trans hconfig⟩
    devices := fun peer hpeer => by
      obtain ⟨device, hdevice⟩ := h.devices peer (hsame.peers ▸ hpeer)
      exact ⟨device, (congrArg (·[peer]?) hsame.devices).trans hdevice⟩
    callers := callers_after h hcareful hcall hm
    recorded := hrecorded }

theorem recorded_allReduce [Add α] {peer : PeerId} {tensor : Tensor α} {op : ReduceOperation} {callback : Callback}
    (h : t.Inv) (hm : t.server.processMessage host (.allReduce peer tensor op callback) = some handled) :
    Recorded handled.1 (t.asked ++ [.allReduce peer tensor op callback]) := by
  obtain ⟨-, hsame, hop⟩ := LocalCollectiveServer.processAllReduce_joins hm
  have hold := h.recorded.mono (List.subset_append_left t.asked [.allReduce peer tensor op callback])
  have hreduce : handled.1.reduceOp = t.server.reduceOp := by rw [hsame]
  have hbroadcast : handled.1.broadcastOp = t.server.broadcastOp := by rw [hsame]
  refine ⟨fun operation' ho call hcall => ?_, hreduce ▸ hold.reduce, hbroadcast ▸ hold.broadcast⟩
  rcases hop operation' ho with ho | ⟨operation, hbefore, hshape, rfl, rfl⟩
  · exact hold.allReduce operation' ho call hcall
  · rcases List.mem_append.mp hcall with hcall | hcall
    · rcases hbefore with ho | hnil
      · exact hold.allReduce operation ho call hcall
      · exact absurd (hnil ▸ hcall) List.not_mem_nil
    · obtain rfl := List.mem_singleton.mp hcall
      exact ⟨hshape.symm, List.mem_append_right _ (List.mem_singleton_self _)⟩

theorem recorded_reduce [Add α] {peer root : PeerId} {tensor : Tensor α} {op : ReduceOperation} {callback : Callback}
    (h : t.Inv) (hm : t.server.processMessage host (.reduce peer tensor op root callback) = some handled) :
    Recorded handled.1 (t.asked ++ [.reduce peer tensor op root callback]) := by
  obtain ⟨-, hsame, hop⟩ := LocalCollectiveServer.processReduce_joins hm
  have hold := h.recorded.mono (List.subset_append_left t.asked [.reduce peer tensor op root callback])
  have hallReduce : handled.1.allReduceOp = t.server.allReduceOp := by rw [hsame]
  have hbroadcast : handled.1.broadcastOp = t.server.broadcastOp := by rw [hsame]
  refine ⟨hallReduce ▸ hold.allReduce, fun operation' ho call hcall => ?_, hbroadcast ▸ hold.broadcast⟩
  rcases hop operation' ho with ho | ⟨operation, hbefore, hshape, rfl, rfl, rfl⟩
  · exact hold.reduce operation' ho call hcall
  · rcases List.mem_append.mp hcall with hcall | hcall
    · rcases hbefore with ho | hnil
      · exact hold.reduce operation ho call hcall
      · exact absurd (hnil ▸ hcall) List.not_mem_nil
    · obtain rfl := List.mem_singleton.mp hcall
      exact ⟨hshape.symm, List.mem_append_right _ (List.mem_singleton_self _)⟩

theorem recorded_broadcast [Add α] {peer : PeerId} {tensor : Option (Tensor α)} {callback : Callback} (h : t.Inv)
    (hm : t.server.processMessage host (.broadcast peer tensor callback) = some handled) :
    Recorded handled.1 (t.asked ++ [.broadcast peer tensor callback]) := by
  obtain ⟨-, hsame, hop⟩ := LocalCollectiveServer.processBroadcast_joins hm
  have hold := h.recorded.mono (List.subset_append_left t.asked [.broadcast peer tensor callback])
  have hallReduce : handled.1.allReduceOp = t.server.allReduceOp := by rw [hsame]
  have hreduce : handled.1.reduceOp = t.server.reduceOp := by rw [hsame]
  refine ⟨hallReduce ▸ hold.allReduce, hreduce ▸ hold.reduce, fun operation' ho => ?_⟩
  rcases hop operation' ho with ho | ⟨operation, device, ho, hcalls, hroot⟩
  · exact hold.broadcast operation' ho
  · rw [hcalls]
    refine ⟨fun call hcall => ?_, fun root hr => ?_⟩
    · rcases List.mem_append.mp hcall with hcall | hcall
      · rcases ho with ho | ⟨hnil, -⟩
        · exact (hold.broadcast operation ho).1 call hcall
        · exact absurd (hnil ▸ hcall) List.not_mem_nil
      · obtain rfl := List.mem_singleton.mp hcall
        exact ⟨tensor, List.mem_append_right _ (List.mem_singleton_self _)⟩
    · rw [List.map_append, List.mem_append]
      rw [hroot] at hr
      split at hr
      · obtain rfl := Option.some.inj hr
        exact .inr (List.mem_singleton_self _)
      · rcases ho with ho | ⟨-, hnil⟩
        · exact .inl ((hold.broadcast operation ho).2 root hr)
        · rw [hnil] at hr
          cases hr

theorem Inv.step [Add α] (h : t.Inv) (hfresh : t.Fresh m) (hcareful : t.server.Careful m)
    (hm : t.server.processMessage host m = some handled) : (t.after m handled).Inv := by
  cases m with
  | allReduce => exact h.call hfresh hcareful rfl hm (recorded_allReduce h hm)
  | reduce => exact h.call hfresh hcareful rfl hm (recorded_reduce h hm)
  | broadcast => exact h.call hfresh hcareful rfl hm (recorded_broadcast h hm)
  | register deviceId device config callback =>
    have honce := h.once_after hfresh hm
    have hknown := h.known_after hm
    have hrecorded := h.recorded.mono (List.subset_append_left t.asked [.register deviceId device config callback])
    rcases LocalCollectiveServer.processRegister_cases hm with ⟨hserver, -⟩ | ⟨_, hnew, hserver, -⟩
    · have hserver : (t.after (.register deviceId device config callback) handled).server = t.server := hserver
      exact ⟨honce, hknown, hserver ▸ h.peers, hserver ▸ h.config, hserver ▸ h.devices, hserver ▸ h.callers,
        hserver ▸ hrecorded⟩
    · have hserver : (t.after (.register deviceId device config callback) handled).server = _ := hserver
      refine ⟨honce, hknown, ?_, ?_, ?_, ?_, ?_⟩
      · rw [hserver, ← List.concat_eq_append, List.nodup_concat]
        exact ⟨hnew, h.peers⟩
      · rw [hserver]
        exact fun _ => ⟨config, rfl⟩
      · rw [hserver]
        intro peer hpeer
        simp only [BTreeMap.get_insert]
        split
        · exact ⟨device, rfl⟩
        · next hne => exact h.devices peer ((List.mem_append.mp hpeer).resolve_right fun hp => hne (List.mem_singleton.mp hp))
      · rw [hserver]
        exact h.callers
      · rw [hserver]
        exact ⟨hrecorded.allReduce, hrecorded.reduce, hrecorded.broadcast⟩
  | reset =>
    have hserver : handled.1 = t.server.reset := (congrArg Prod.fst (Option.some.inj hm)).symm
    have hserver : (t.after .reset handled).server = t.server.reset := hserver
    refine ⟨h.once_after hfresh hm, h.known_after hm, ?_, ?_, ?_, ?_, ?_⟩
    · rw [hserver]
      exact List.nodup_nil
    · rw [hserver]
      exact fun hne => absurd rfl hne
    · rw [hserver]
      exact fun _ hpeer => absurd hpeer List.not_mem_nil
    · rw [hserver]
      exact fun kind => by cases kind <;> exact List.nodup_nil
    · rw [hserver]
      exact ⟨nofun, nofun, nofun⟩
  | finish id callback =>
    obtain ⟨reply, peers, globalClient, hsub, heq⟩ := LocalCollectiveServer.processFinish_cases t.server id callback
    have hserver : handled.1 = { t.server with peers, globalClient } :=
      congrArg Prod.fst ((Option.some.inj hm).symm.trans heq)
    have hserver : (t.after (.finish id callback) handled).server = { t.server with peers, globalClient } := hserver
    have hrecorded := h.recorded.mono (List.subset_append_left t.asked [.finish id callback])
    refine ⟨h.once_after hfresh hm, h.known_after hm, ?_, ?_, ?_, ?_, ?_⟩
    · rw [hserver]
      exact h.peers.sublist hsub
    · rw [hserver]
      exact fun hne => h.config fun hnil => hne (List.sublist_nil.mp (hnil ▸ hsub))
    · rw [hserver]
      exact fun peer hpeer => h.devices peer (hsub.mem hpeer)
    · rw [hserver]
      exact h.callers
    · rw [hserver]
      exact ⟨hrecorded.allReduce, hrecorded.reduce, hrecorded.broadcast⟩

end Session

end Ruda.Collective
