import Ruda.Collective.Answers

/-!
# Careful runs

No careful message makes the server panic. Who joined an operation is answered when the operation
ends, and it ends well only with one call from every peer.
-/

namespace Ruda.Collective

variable {α : Type}

namespace Session

variable {t : Session α} {host : Host α} {m : Message α}

-- Every careful message is handled

theorem settle_exists {Op : Type} {put : Option Op → LocalCollectiveServer α}
    {execute : Op → Option (List (Callback × Reply α))} {fail : CollectiveError → List (Callback × Reply α)}
    {result : Except CollectiveError (Op × Bool)}
    (h : ∀ operation, result = .ok (operation, true) → ∃ sent, execute operation = some sent) :
    ∃ handled, LocalCollectiveServer.settle put execute fail result = some handled := by
  rcases result with error | ⟨operation, _ | _⟩
  · exact ⟨_, rfl⟩
  · exact ⟨_, rfl⟩
  · obtain ⟨sent, hsent⟩ := h operation rfl
    exact ⟨_, by rw [LocalCollectiveServer.settle, hsent]; rfl⟩

theorem Inv.callers_concat {β : Type} (h : t.Inv) {kind : Kind} {peer : PeerId} {calls : List (OpCall β)} {input : β}
    {callback : Callback} (hcalls : entries calls = t.server.waiting kind) (hjoin : t.server.Joinable kind peer m) :
    ((calls ++ [(⟨peer, input, callback⟩ : OpCall β)]).map OpCall.caller).Nodup := by
  have hmap : calls.map OpCall.caller = (t.server.waiting kind).map Prod.fst := by
    rw [← hcalls, entries, List.map_map]
    rfl
  rw [List.map_append, List.map_singleton, hmap, ← List.concat_eq_append, List.nodup_concat]
  exact ⟨hjoin.once, h.callers kind⟩

theorem Inv.allReduce_exists [AddCommMonoid α] (h : t.Inv) {peer : PeerId} {tensor : Tensor α} {op : ReduceOperation}
    {callback : Callback} (hcareful : t.server.Careful (.allReduce peer tensor op callback)) :
    ∃ handled, t.server.processAllReduce host peer tensor op callback = some handled := by
  unfold LocalCollectiveServer.processAllReduce
  split
  · exact ⟨_, rfl⟩
  next hpeer =>
  have hpeer : peer ∈ t.server.peers := not_not.mp hpeer
  refine settle_exists fun operation hok => ?_
  obtain ⟨config, hconfig⟩ := h.config (List.ne_nil_of_mem hpeer)
  obtain ⟨rfl, hready, hshape, hop⟩ := AllReduceOp.registerCall_ok hok
  have hcalls := t.server.entries_allReduce op tensor.shape
  have hmatches : t.server.Matches (.allReduce peer tensor op callback) :=
    LocalCollectiveServer.matches_allReduce.mpr ⟨hshape, hop⟩
  have hjoin := hcareful.1 .allReduce peer callback rfl hpeer hmatches
  have hcount : (t.server.waiting .allReduce).length + 1 = t.server.peers.length := by
    rw [← hcalls, entries, List.length_map]
    exact hready.mp rfl
  have hfits : config.AllReduceFits t.server.globalClient tensor.shape t.server.peers.length :=
    (hjoin.last hcount).2 config hconfig
  rw [hconfig]
  refine AllReduceOp.execute_ok (List.append_ne_nil_of_right_ne_nil _ (List.cons_ne_nil _ _))
    (h.callers_concat hcalls hjoin) ?_ ?_
  · intro call hcall
    rcases List.mem_append.mp hcall with hcall | hcall
    · cases hold : t.server.allReduceOp with
      | none => simp [hold] at hcall
      | some operation =>
        rw [hold, Option.getD_some] at hcall
        exact (h.recorded.allReduce operation hold call hcall).1
    · obtain rfl := List.mem_singleton.mp hcall
      exact hshape.symm
  · simp only [List.length_append, List.length_singleton, hready.mp rfl, hshape]
    exact hfits

theorem Inv.reduce_exists [AddCommMonoid α] (h : t.Inv) {peer root : PeerId} {tensor : Tensor α} {op : ReduceOperation}
    {callback : Callback} (hcareful : t.server.Careful (.reduce peer tensor op root callback)) :
    ∃ handled, t.server.processReduce host peer tensor op root callback = some handled := by
  unfold LocalCollectiveServer.processReduce
  split
  · exact ⟨_, rfl⟩
  next hroot =>
  have hroot : root ∈ t.server.peers := not_not.mp hroot
  refine settle_exists fun operation hok => ?_
  obtain ⟨config, hconfig⟩ := h.config (List.ne_nil_of_mem hroot)
  obtain ⟨rfl, hready, hsame⟩ := ReduceOp.registerCall_ok hok
  have hcalls := t.server.entries_reduce op root tensor.shape
  have hmatches : t.server.Matches (.reduce peer tensor op root callback) :=
    LocalCollectiveServer.matches_reduce.mpr hsame
  have hjoin := hcareful.1 .reduce peer callback rfl hroot hmatches
  have hcount : (t.server.waiting .reduce).length + 1 = t.server.peers.length := by
    rw [← hcalls, entries, List.length_map]
    exact hready.mp rfl
  have hfits : config.ReduceFits t.server.globalClient t.server.peers.length := (hjoin.last hcount).2 config hconfig
  rw [hconfig]
  refine ReduceOp.execute_ok (h.callers_concat hcalls hjoin) ?_ ?_
  · intro call hcall
    rcases List.mem_append.mp hcall with hcall | hcall
    · cases hold : t.server.reduceOp with
      | none => simp [hold] at hcall
      | some operation =>
        rw [hold, Option.getD_some] at hcall
        exact (h.recorded.reduce operation hold call hcall).1
    · obtain rfl := List.mem_singleton.mp hcall
      exact hsame.1.symm
  · simp only [List.length_append, List.length_singleton, hready.mp rfl]
    exact hfits

theorem Inv.broadcast_exists [AddCommMonoid α] (h : t.Inv) {peer : PeerId} {tensor : Option (Tensor α)}
    {callback : Callback} (hcareful : t.server.Careful (.broadcast peer tensor callback)) :
    ∃ handled, t.server.processBroadcast host peer tensor callback = some handled := by
  unfold LocalCollectiveServer.processBroadcast
  split
  · exact ⟨_, rfl⟩
  split
  · exact ⟨_, rfl⟩
  next hpeer =>
  have hpeer : peer ∈ t.server.peers := not_not.mp hpeer
  obtain ⟨device, hdevice⟩ := h.devices peer hpeer
  simp only [hdevice, Option.bind_eq_bind, Option.bind_some]
  refine settle_exists fun operation hok => ?_
  obtain ⟨config, hconfig⟩ := h.config (List.ne_nil_of_mem hpeer)
  obtain ⟨hcalls', htensor, hroot, hready, hsame⟩ := BroadcastOp.registerCall_ok hok
  have hcalls := t.server.entries_broadcast
  have hmatches : t.server.Matches (.broadcast peer tensor callback) :=
    LocalCollectiveServer.matches_broadcast.mpr hsame
  have hjoin := hcareful.1 .broadcast peer callback rfl hpeer hmatches
  have hcount : (t.server.waiting .broadcast).length + 1 = t.server.peers.length := by
    rw [← hcalls, entries, List.length_map]
    exact hready.mp rfl
  have hfits := (hjoin.last hcount).2
  have hlen : operation.calls.length = t.server.peers.length := by
    rw [hcalls', List.length_append, List.length_singleton]
    exact hready.mp rfl
  rw [hconfig]
  refine BroadcastOp.execute_ok ?_ ?_ ?_ ?_ ?_
  · rw [hcalls']
    exact List.append_ne_nil_of_right_ne_nil _ (List.cons_ne_nil _ _)
  · rw [hcalls']
    exact h.callers_concat hcalls hjoin
  · intro root hr
    rw [hcalls', List.map_append, List.mem_append]
    rw [hroot] at hr
    split at hr
    · obtain rfl := Option.some.inj hr
      exact .inr (List.mem_singleton_self _)
    · cases hold : t.server.broadcastOp with
      | none => simp [hold, BroadcastOp.new] at hr
      | some operation =>
        rw [hold, Option.getD_some] at hr
        exact .inl ((h.recorded.broadcast operation hold).2 root hr)
  · exact fun hglobal => (hfits (.inl hglobal) config hconfig).2 hglobal
  · intro hsome
    rw [hlen]
    refine (hfits ?_ config hconfig).1
    refine hsome.imp_right fun hsome => ?_
    rw [htensor] at hsome
    split at hsome
    · next hgiven => exact .inl hgiven
    · cases hold : t.server.broadcastOp with
      | none => simp [hold, BroadcastOp.new] at hsome
      | some operation =>
        rw [hold, Option.getD_some] at hsome
        exact .inr ⟨operation, rfl, hsome⟩

theorem Inv.exists_handled [AddCommMonoid α] (h : t.Inv) (host : Host α) (hcareful : t.server.Careful m) :
    ∃ handled, t.server.processMessage host m = some handled := by
  cases m with
  | allReduce => exact h.allReduce_exists hcareful
  | reduce => exact h.reduce_exists hcareful
  | broadcast => exact h.broadcast_exists hcareful
  | register => exact t.server.processRegister_exists host _ _ _ _
  | reset => exact ⟨_, rfl⟩
  | finish => exact ⟨_, rfl⟩

-- Runs

/-- The server takes a message. -/
def Handles [Add α] (t : Session α) (m : Message α) (t' : Session α) : Prop :=
  t.Fresh m ∧ ∃ (host : Host α) (handled : LocalCollectiveServer.Handled α),
    t.server.processMessage host m = some handled ∧ t' = t.after m handled

def Step [Add α] (t t' : Session α) : Prop := ∃ m, t.Handles m t'

def CarefulStep [Add α] (t t' : Session α) : Prop := ∃ m, t.Handles m t' ∧ t.server.Careful m

/-- Besides, nobody mismatches, and nobody waits at a reset. -/
def SettledStep [Add α] (t t' : Session α) : Prop := ∃ m, t.Handles m t' ∧ t.server.Careful m ∧ t.server.Settled m

theorem Inv.of_run [Add α] (hrun : Relation.ReflTransGen CarefulStep new t) : t.Inv := by
  induction hrun with
  | refl => exact inv_new
  | tail _ hstep ih =>
    obtain ⟨m, ⟨hfresh, host, handled, hm, rfl⟩, hcareful⟩ := hstep
    exact ih.step hfresh hcareful hm

/-- No result is sent twice or to nobody, and who is blocked will still be sent one. -/
structure Orderly (t : Session α) : Prop where
  once : ∀ callback, t.places callback ≤ 1
  known : ∀ callback ∈ t.sent.map Prod.fst, ∃ m ∈ t.asked, m.callback? = some callback
  blocked : ∀ callback, t.wait callback = .blocked ↔ callback ∈ t.server.held

theorem lookup_eq_none {callback : Callback} {sent : List (Callback × Reply α)} :
    sent.lookup callback = none ↔ callback ∉ sent.map Prod.fst := by
  induction sent with
  | nil => simp
  | cons s sent ih =>
    rw [List.lookup_cons, List.map_cons, List.mem_cons]
    by_cases hs : callback = s.1
    · simp [hs]
    · simp [hs, beq_eq_false_iff_ne.mpr hs, ih]

theorem blocked_iff (h : ∀ callback, t.places callback ≤ 1) (callback : Callback) :
    t.wait callback = .blocked ↔ callback ∈ t.server.held := by
  unfold wait
  constructor
  · intro hwait
    split at hwait
    · cases hwait
    · split at hwait
      · next hheld => exact hheld
      · cases hwait
  · intro hheld
    have hcount := h callback
    have hpos := List.count_pos_iff.mpr hheld
    have hnone : callback ∉ t.sent.map Prod.fst := by
      intro hmem
      have := List.count_pos_iff.mpr hmem
      unfold places at hcount
      omega
    rw [lookup_eq_none.mpr hnone]
    exact if_pos hheld

theorem Inv.orderly (h : t.Inv) : t.Orderly where
  once := h.once
  known callback hmem := h.known callback (by
    have := List.count_pos_iff.mpr hmem
    unfold places
    omega)
  blocked := blocked_iff h.once

theorem wait_missing {callback : Callback} (h : t.wait callback = .localServerMissing) : t.places callback = 0 := by
  unfold wait at h
  split at h
  · cases h
  · next hnone =>
    split at h
    · cases h
    · next hheld =>
      unfold places
      rw [List.count_eq_zero.mpr hheld, List.count_eq_zero.mpr (lookup_eq_none.mp hnone)]

theorem places_of_settled [Add α] (hrun : Relation.ReflTransGen SettledStep new t) :
    t.Inv ∧ ∀ m ∈ t.asked, ∀ callback ∈ m.callback?, 0 < t.places callback := by
  induction hrun with
  | refl => exact ⟨inv_new, fun m hm => absurd hm List.not_mem_nil⟩
  | @tail s _ _ hstep ih =>
    obtain ⟨m, ⟨hfresh, host, handled, hm, rfl⟩, hcareful, hsettled⟩ := hstep
    refine ⟨ih.1.step hfresh hcareful hm, fun m' hm' callback hcb => ?_⟩
    have hkeep : handled.1.held.count callback + (handled.2.map Prod.fst).count callback =
        s.server.held.count callback + m.callback?.toList.count callback :=
      (LocalCollectiveServer.keeps hm callback).2 hsettled
    have hplaces : s.places callback = s.server.held.count callback + (s.sent.map Prod.fst).count callback := rfl
    rw [places_after]
    rcases List.mem_append.mp hm' with hold | hnew
    · have := ih.2 m' hold callback hcb
      omega
    · obtain rfl := List.mem_singleton.mp hnew
      have hone : m'.callback?.toList.count callback = 1 := by
        rw [Option.mem_def.mp hcb]
        simp
      omega

-- What a message brings to an end

/-- What a message brings to an end, and how. -/
structure Ends (t : Session α) (m : Message α) (handled : LocalCollectiveServer.Handled α) : Prop where
  reset : m = .reset → handled.1.held = []
  released : ∀ kind, handled.1.waiting kind = [] → ∀ e ∈ t.server.waiting kind, (t.after m handled).wait e.2 ≠ .blocked
  registered : handled.1.callbacksRegister = [] →
    ∀ callback ∈ t.server.callbacksRegister, (t.after m handled).wait callback ≠ .blocked
  /-- An operation that ends well has one call of every peer, all for the same. -/
  complete : ∀ kind peer callback, m.call? = some (kind, peer, callback) → (∃ s ∈ handled.2, ¬s.2.IsError) →
    ((t.server.waiting kind).map Prod.fst ++ [peer]).Perm t.server.peers ∧
      handled.2.map Prod.fst = (t.server.waiting kind).map Prod.snd ++ [callback] ∧
      ∀ e ∈ t.server.waiting kind ++ [(peer, callback)], ∃ r ∈ t.asked ++ [m], r.call? = some (kind, e) ∧ r.Agrees m
  mismatch : ∀ kind peer callback, m.call? = some (kind, peer, callback) → ¬t.server.Matches m →
    (t.after m handled).wait callback = .localServerMissing ∨
      ∃ reply, (t.after m handled).wait callback = .received reply ∧ reply.IsError

variable {handled : LocalCollectiveServer.Handled α}

theorem count_waiting_le (server : LocalCollectiveServer α) (kind : Kind) (callback : Callback) :
    ((server.waiting kind).map Prod.snd).count callback ≤ server.held.count callback := by
  cases kind <;> simp only [LocalCollectiveServer.held, List.count_append] <;> omega

theorem waiting_of_no_call [Add α] (hcall : m.call? = none) (hm : t.server.processMessage host m = some handled)
    (kind : Kind) : handled.1.waiting kind = t.server.waiting kind ∨ m = .reset := by
  cases m with
  | allReduce => cases hcall
  | reduce => cases hcall
  | broadcast => cases hcall
  | register deviceId device config callback =>
    rcases LocalCollectiveServer.processRegister_cases hm with ⟨hserver, -⟩ | ⟨_, -, hserver, -⟩
    · rw [hserver]
      exact .inl rfl
    · rw [hserver]
      cases kind <;> exact .inl rfl
  | reset => exact .inr rfl
  | finish id callback =>
    obtain ⟨reply, peers, globalClient, -, heq⟩ := LocalCollectiveServer.processFinish_cases t.server id callback
    have hserver : handled.1 = { t.server with peers, globalClient } :=
      congrArg Prod.fst ((Option.some.inj hm).symm.trans heq)
    rw [hserver]
    cases kind <;> exact .inl rfl

theorem Inv.released [Add α] (h : t.Inv) (hcareful : t.server.Careful m) (hafter : (t.after m handled).Inv)
    (hm : t.server.processMessage host m = some handled) {kind : Kind} (hnil : handled.1.waiting kind = []) {e : Entry}
    (he : e ∈ t.server.waiting kind) : (t.after m handled).wait e.2 ≠ .blocked := by
  rw [Ne, blocked_iff hafter.once]
  show e.2 ∉ handled.1.held
  have hin : 0 < ((t.server.waiting kind).map Prod.snd).count e.2 :=
    List.count_pos_iff.mpr (List.mem_map_of_mem he)
  cases hcall : m.call? with
  | none =>
    rcases waiting_of_no_call hcall hm kind with hsame | rfl
    · rw [← hsame, hnil] at he
      cases he
    · obtain rfl := Option.some.inj hm
      rw [LocalCollectiveServer.held_reset, hcareful.2 rfl]
      exact List.not_mem_nil
  | some call =>
    obtain ⟨kind', e'⟩ := call
    obtain ⟨-, hsame⟩ := LocalCollectiveServer.processMessage_joins hcall hm
    by_cases hkind : kind = kind'
    · subst hkind
      have hheld := hsame.held_count e.2
      have honce := h.once e.2
      have hle := count_waiting_le t.server kind e.2
      rw [hnil, List.map_nil, List.count_nil] at hheld
      unfold places at honce
      exact List.count_eq_zero.mp (by omega)
    · rw [← hsame.others kind hkind, hnil] at he
      cases he

theorem registered_after [Add α] (hcareful : t.server.Careful m) (hafter : (t.after m handled).Inv)
    (hm : t.server.processMessage host m = some handled) (hnil : handled.1.callbacksRegister = []) {callback : Callback}
    (hmem : callback ∈ t.server.callbacksRegister) : (t.after m handled).wait callback ≠ .blocked := by
  rw [Ne, blocked_iff hafter.once]
  show callback ∉ handled.1.held
  cases hcall : m.call? with
  | some call =>
    obtain ⟨-, hsame⟩ := LocalCollectiveServer.processMessage_joins hcall hm
    rw [← hsame.callbacksRegister, hnil] at hmem
    cases hmem
  | none =>
    cases m with
    | allReduce => cases hcall
    | reduce => cases hcall
    | broadcast => cases hcall
    | reset =>
      rw [hcareful.2 rfl] at hmem
      cases hmem
    | finish id own =>
      obtain ⟨reply, peers, globalClient, -, heq⟩ := LocalCollectiveServer.processFinish_cases t.server id own
      have hserver : handled.1 = { t.server with peers, globalClient } :=
        congrArg Prod.fst ((Option.some.inj hm).symm.trans heq)
      rw [hserver] at hnil
      rw [hnil] at hmem
      cases hmem
    | register deviceId device config own =>
      rcases LocalCollectiveServer.processRegister_cases hm with ⟨hserver, -⟩ | ⟨register, -, hserver, hsent⟩
      · rw [hserver] at hnil
        rw [hnil] at hmem
        cases hmem
      · -- all registrations were answered
        have hregister : register = [] := by
          rw [hserver] at hnil
          exact hnil
        rw [hregister, List.nil_append] at hsent
        have hin : callback ∈ handled.2.map Prod.fst := by
          rw [hsent]
          exact List.mem_append_left _ hmem
        have hpos := List.count_pos_iff.mpr hin
        have honce := hafter.once callback
        rw [places_after] at honce
        exact List.count_eq_zero.mp (by omega)

/-- Who waits with a call asked for the same. -/
theorem Inv.found_agrees (h : t.Inv) {kind : Kind} {e e' : Entry} (hcall : m.call? = some (kind, e))
    (hmatches : t.server.Matches m) (he : e' ∈ t.server.waiting kind) :
    ∃ r ∈ t.asked, r.call? = some (kind, e') ∧ r.Agrees m := by
  cases m with
  | allReduce peer tensor op callback =>
    cases hcall
    cases hop : t.server.allReduceOp with
    | none => simp [LocalCollectiveServer.waiting, hop] at he
    | some operation =>
      simp only [LocalCollectiveServer.waiting, hop, Option.map_some, Option.getD_some] at he
      obtain ⟨call, hmem, rfl⟩ := List.mem_map.mp he
      obtain ⟨hshape, hasked⟩ := h.recorded.allReduce operation hop call hmem
      obtain ⟨hshape', hop'⟩ := hmatches operation hop
      exact ⟨_, hasked, rfl, hshape.trans hshape', hop'⟩
  | reduce peer tensor op root callback =>
    cases hcall
    cases hop : t.server.reduceOp with
    | none => simp [LocalCollectiveServer.waiting, hop] at he
    | some operation =>
      simp only [LocalCollectiveServer.waiting, hop, Option.map_some, Option.getD_some] at he
      obtain ⟨call, hmem, rfl⟩ := List.mem_map.mp he
      obtain ⟨hshape, hasked⟩ := h.recorded.reduce operation hop call hmem
      obtain ⟨hshape', hsame⟩ := hmatches operation hop
      exact ⟨_, hasked, rfl, hshape.trans hshape', hsame⟩
  | broadcast peer tensor callback =>
    cases hcall
    cases hop : t.server.broadcastOp with
    | none => simp [LocalCollectiveServer.waiting, hop] at he
    | some operation =>
      simp only [LocalCollectiveServer.waiting, hop, Option.map_some, Option.getD_some] at he
      obtain ⟨call, hmem, rfl⟩ := List.mem_map.mp he
      obtain ⟨tensor', hasked⟩ := (h.recorded.broadcast operation hop).1 call hmem
      exact ⟨_, hasked, rfl, trivial⟩
  | register => cases hcall
  | reset => cases hcall
  | finish => cases hcall

theorem agrees_self {kind : Kind} {e : Entry} (hcall : m.call? = some (kind, e)) : m.Agrees m := by
  cases m <;> simp [Message.call?, Message.Agrees] at hcall ⊢

theorem Inv.complete [Add α] (h : t.Inv) (hcareful : t.server.Careful m)
    (hm : t.server.processMessage host m = some handled) {kind : Kind} {peer : PeerId} {callback : Callback}
    (hcall : m.call? = some (kind, peer, callback)) (hgood : ∃ s ∈ handled.2, ¬s.2.IsError) :
    ((t.server.waiting kind).map Prod.fst ++ [peer]).Perm t.server.peers ∧
      handled.2.map Prod.fst = (t.server.waiting kind).map Prod.snd ++ [callback] ∧
      ∀ e ∈ t.server.waiting kind ++ [(peer, callback)],
        ∃ r ∈ t.asked ++ [m], r.call? = some (kind, e) ∧ r.Agrees m := by
  obtain ⟨s, hs, hgood⟩ := hgood
  obtain ⟨hjoins, -⟩ := LocalCollectiveServer.processMessage_joins hcall hm
  rcases hjoins with ⟨reply, herror, -, hsent⟩ | ⟨-, -, -, herror⟩ | ⟨-, -, hsent, -⟩ | ⟨haccepted, -, hsent, hcount⟩
  · obtain rfl := List.mem_singleton.mp (hsent ▸ hs)
    exact absurd herror hgood
  · exact absurd (herror s hs) hgood
  · exact absurd (hsent ▸ hs) List.not_mem_nil
  · have hjoin := hcareful.1 kind peer callback hcall haccepted.1 haccepted.2
    refine ⟨?_, hsent.trans List.map_append, fun e he => ?_⟩
    · -- distinct registered callers, as many as there are peers
      have hnodup : ((t.server.waiting kind).map Prod.fst ++ [peer]).Nodup := by
        rw [← List.concat_eq_append, List.nodup_concat]
        exact ⟨hjoin.once, h.callers kind⟩
      have hsub : (t.server.waiting kind).map Prod.fst ++ [peer] ⊆ t.server.peers := by
        intro caller hcaller
        rcases List.mem_append.mp hcaller with hcaller | hcaller
        · exact (hjoin.last hcount).1 caller hcaller
        · exact List.mem_singleton.mp hcaller ▸ hjoin.registered
      refine (List.subperm_of_subset hnodup hsub).perm_of_length_le ?_
      rw [List.length_append, List.length_map, List.length_singleton, hcount]
    · rcases List.mem_append.mp he with he | he
      · obtain ⟨r, hr, hrcall, hagrees⟩ := h.found_agrees hcall haccepted.2 he
        exact ⟨r, List.mem_append_left _ hr, hrcall, hagrees⟩
      · obtain rfl := List.mem_singleton.mp he
        exact ⟨m, List.mem_append_right _ (List.mem_singleton_self m), hcall, agrees_self hcall⟩

theorem Inv.mismatch [Add α] (h : t.Inv) (hfresh : t.Fresh m) (hm : t.server.processMessage host m = some handled)
    {kind : Kind} {peer : PeerId} {callback : Callback} (hcall : m.call? = some (kind, peer, callback))
    (hmismatch : ¬t.server.Matches m) :
    (t.after m handled).wait callback = .localServerMissing ∨
      ∃ reply, (t.after m handled).wait callback = .received reply ∧ reply.IsError := by
  have hcb : m.callback? = some callback := by cases m <;> cases hcall <;> rfl
  have hnone : t.places callback = 0 := by
    by_contra hpos
    obtain ⟨m', hm', hcb'⟩ := h.known callback (Nat.pos_of_ne_zero hpos)
    exact hfresh m' hm' callback hcb hcb'
  have hplaces : t.places callback = t.server.held.count callback + (t.sent.map Prod.fst).count callback := rfl
  have hsentNone : t.sent.lookup callback = none := lookup_eq_none.mpr (List.count_eq_zero.mp (by omega))
  obtain ⟨hjoins, hsame⟩ := LocalCollectiveServer.processMessage_joins hcall hm
  have hheld := hsame.held_count callback
  rcases hjoins with ⟨reply, herror, -, hsent⟩ | ⟨-, hafter, hsent, -⟩ | ⟨haccepted, -⟩ | ⟨haccepted, -⟩
  · refine .inr ⟨reply, ?_, herror⟩
    simp [wait, after, hsent, List.lookup_append, hsentNone]
  · left
    have hle := count_waiting_le t.server kind callback
    rw [hafter, List.map_nil, List.count_nil] at hheld
    have hgone : handled.2.lookup callback = none := by
      rw [lookup_eq_none, hsent]
      exact List.count_eq_zero.mp (by omega)
    have hheldNone : callback ∉ handled.1.held := List.count_eq_zero.mp (by omega)
    simp [wait, after, List.lookup_append, hsentNone, hgone, hheldNone]
  · exact absurd haccepted.2 hmismatch
  · exact absurd haccepted.2 hmismatch

theorem Inv.ends [Add α] (h : t.Inv) (hfresh : t.Fresh m) (hcareful : t.server.Careful m)
    (hm : t.server.processMessage host m = some handled) : t.Ends m handled where
  reset hreset := by
    subst hreset
    obtain rfl := Option.some.inj hm
    rw [LocalCollectiveServer.held_reset, hcareful.2 rfl]
  released _ hnil _ he := h.released hcareful (h.step hfresh hcareful hm) hm hnil he
  registered hnil _ hmem := registered_after hcareful (h.step hfresh hcareful hm) hm hnil hmem
  complete _ _ _ hcall hgood := h.complete hcareful hm hcall hgood
  mismatch _ _ _ hcall hmismatch := h.mismatch hfresh hm hcall hmismatch

end Session

-- Two peers

/-- Two peers on this host, and the centralized strategies. -/
def twoDevices : CollectiveConfig where
  numDevices := 2
  localAllReduceStrategy := .centralized
  localReduceStrategy := .centralized
  localBroadcastStrategy := .centralized
  numNodes := none
  globalAddress := none
  nodeAddress := none
  dataServicePort := none
  globalAllReduceStrategy := none
  globalReduceStrategy := none
  globalBroadcastStrategy := none

def alone : Host Nat where
  order _ entries := entries
  perm _ _ := .refl _
  divScalar x n := x / n
  register _ _ := .ok ()
  allReduce t _ _ := .ok t
  reduce t _ _ _ := .ok (some t)
  broadcast _ _ _ := .error "no other host"

def ones (device : DeviceId) : Tensor Nat := { device, shape := [3], data := fun _ => 1 }

/-- The first peer is registered. -/
def half : Session Nat where
  server := {
    config := some twoDevices
    peers := [0]
    callbacksRegister := [10]
    devices := (∅ : BTreeMap DeviceId).insert 0 0
    allReduceOp := none
    reduceOp := none
    broadcastOp := none
    globalClient := false }
  asked := [.register 0 0 twoDevices 10]
  sent := []

/-- Both peers are. -/
def whole : Session Nat where
  server := { half.server with
    peers := [0, 1]
    callbacksRegister := []
    devices := half.server.devices.insert 1 1 }
  asked := half.asked ++ [.register 1 1 twoDevices 11]
  sent := [(10, .registered (.ok ())), (11, .registered (.ok ()))]

/-- The first one has called. -/
def waitingPair : Session Nat where
  server := { whole.server with allReduceOp := some { calls := [⟨0, ones 0, 12⟩], op := .sum, shape := [3] } }
  asked := whole.asked ++ [.allReduce 0 (ones 0) .sum 12]
  sent := whole.sent

theorem half_handles : Session.new.Handles (.register 0 0 twoDevices 10) half :=
  ⟨by simp [Session.Fresh, Session.new], alone, _, rfl, rfl⟩

theorem whole_handles : half.Handles (.register 1 1 twoDevices 11) whole :=
  ⟨by simp [Session.Fresh, half, Message.callback?], alone, _, rfl, rfl⟩

theorem waitingPair_handles : whole.Handles (.allReduce 0 (ones 0) .sum 12) waitingPair :=
  ⟨by simp [Session.Fresh, whole, half, Message.callback?], alone, _, rfl, rfl⟩

theorem waitingPair_run : Relation.ReflTransGen Session.SettledStep Session.new waitingPair := by
  have hregister : ∀ (t : Session Nat) (id device callback : Nat),
      t.server.Careful (.register id device twoDevices callback) ∧ t.server.Settled (.register id device twoDevices callback) :=
    fun t id device callback => ⟨⟨nofun, nofun⟩, trivial, nofun⟩
  have hcareful : whole.server.Careful (.allReduce 0 (ones 0) .sum 12) := by
    refine ⟨fun kind peer callback hcall hadmits _ => ?_, nofun⟩
    cases hcall
    exact ⟨hadmits, List.not_mem_nil, fun hcount => absurd hcount (by decide)⟩
  exact ((Relation.ReflTransGen.single ⟨_, half_handles, hregister _ _ _ _⟩).tail
    ⟨_, whole_handles, hregister _ _ _ _⟩).tail ⟨_, waitingPair_handles, hcareful, nofun, nofun⟩

end Ruda.Collective
