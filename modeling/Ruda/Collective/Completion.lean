import Ruda.Collective.Calls

/-!
# The last call comes to its end

When every peer called once, and the strategy can take the tensors, an operation is executed
without a panic.
-/

namespace Ruda.Collective

variable {α : Type}

-- What a strategy can take

/-- The ring slices a dimension; a slice holds `isize`. -/
def AllReduceStrategy.Fits (strategy : AllReduceStrategy) (shape : List Nat) (n : Nat) : Prop :=
  match strategy with
  | .centralized => True
  | .tree arity => ArityFits arity n
  | .ring => shape ≠ [] ∧ DimsFit shape

def ReduceStrategy.Fits (strategy : ReduceStrategy) (n : Nat) : Prop :=
  match strategy with
  | .centralized => True
  | .tree arity => ArityFits arity n

def BroadcastStrategy.Fits (strategy : BroadcastStrategy) (n : Nat) : Prop :=
  match strategy with
  | .centralized => True
  | .tree arity => ArityFits arity n

namespace CollectiveConfig

variable (config : CollectiveConfig)

def AllReduceFits (globalClient : Bool) (shape : List Nat) (n : Nat) : Prop :=
  config.localAllReduceStrategy.Fits shape n ∧ (globalClient = true → config.globalAllReduceStrategy.isSome)

def ReduceFits (globalClient : Bool) (n : Nat) : Prop :=
  config.localReduceStrategy.Fits n ∧ (globalClient = true → config.globalReduceStrategy.isSome)

def BroadcastFits (globalClient : Bool) (n : Nat) : Prop :=
  config.localBroadcastStrategy.Fits n ∧ (globalClient = true → config.globalBroadcastStrategy.isSome)

end CollectiveConfig

-- Maps of all callers

theorem Host.collect_perm {β : Type} (host : Host α) {entries : List (PeerId × β)} (h : (peersOf entries).Nodup) :
    (host.collect entries).Perm entries := by
  refine (host.perm β _).trans ?_
  have hfold := BTreeMap.toList_perm_foldl_insert h fun e _ => BTreeMap.get_empty e.1
  have hempty : (∅ : BTreeMap β).toList = [] := rfl
  rwa [hempty, List.nil_append] at hfold

theorem sendTensors_ok {β : Type} (reply : Tensor α → Reply α) {calls : List (OpCall β)} {tensors : TensorMap α}
    (hnodup : (calls.map OpCall.caller).Nodup) (hperm : (peersOf tensors).Perm (calls.map OpCall.caller)) :
    ∃ sent, sendTensors reply calls tensors = some sent := by
  induction calls generalizing tensors with
  | nil =>
    obtain rfl : tensors = [] := List.map_eq_nil_iff.mp hperm.eq_nil
    exact ⟨[], rfl⟩
  | cons call calls ih =>
    have hmem : call.caller ∈ peersOf tensors := hperm.mem_iff.mpr List.mem_cons_self
    obtain ⟨result, rest, hremove, -, -, hrest⟩ := removePeer_ok hmem (hperm.nodup_iff.mpr hnodup)
    have htail : (peersOf rest).Perm (calls.map OpCall.caller) := (hrest.trans hperm).cons_inv
    obtain ⟨sent, hsent⟩ := ih (List.nodup_cons.mp hnodup).2 htail
    exact ⟨_, by rw [sendTensors, hremove]; show (sendTensors reply calls rest >>= _) = _; rw [hsent]; rfl⟩

theorem broadcastLocal_ok {strategy : BroadcastStrategy} {devices : List (PeerId × DeviceId)} {root : PeerId}
    (tensor : Tensor α) (hfits : strategy.Fits devices.length) (hroot : root ∈ peersOf devices)
    (hnodup : (peersOf devices).Nodup) :
    ∃ out, broadcastLocal strategy devices root tensor = some out ∧ (peersOf out).Perm (peersOf devices) := by
  cases strategy with
  | centralized => exact broadcastCentralized_ok tensor hroot hnodup
  | tree arity => exact broadcastTree_ok tensor hfits hroot hnodup

theorem Host.collect_calls {β : Type} (host : Host α) {calls : List (OpCall β)} (hnodup : (calls.map OpCall.caller).Nodup) :
    (peersOf (host.collect (inputs calls))).Perm (calls.map OpCall.caller) ∧
      (host.collect (inputs calls)).length = calls.length ∧
      ∀ e ∈ host.collect (inputs calls), ∃ call ∈ calls, e = (call.caller, call.input) := by
  have hpeers : peersOf (inputs calls) = calls.map OpCall.caller := by
    simp only [inputs, peersOf, List.map_map]
    rfl
  have hperm : (host.collect (inputs calls)).Perm (inputs calls) := host.collect_perm (hpeers ▸ hnodup)
  refine ⟨hpeers ▸ hperm.map Prod.fst, by rw [hperm.length_eq, inputs, List.length_map], fun e he => ?_⟩
  obtain ⟨call, hcall, rfl⟩ := List.mem_map.mp (hperm.mem_iff.mp he)
  exact ⟨call, hcall, rfl⟩

theorem BroadcastOp.execute_ok {operation : BroadcastOp α} {host : Host α} {config : CollectiveConfig} {globalClient : Bool}
    (hne : operation.calls ≠ []) (hnodup : (operation.calls.map OpCall.caller).Nodup)
    (hroot : ∀ root ∈ operation.root, root ∈ operation.calls.map OpCall.caller)
    (hglobal : globalClient = true → config.globalBroadcastStrategy.isSome)
    (hfits : globalClient = true ∨ operation.tensor.isSome → config.localBroadcastStrategy.Fits operation.calls.length) :
    ∃ sent, operation.execute host config globalClient = some sent := by
  obtain ⟨first, rest, hcalls⟩ := List.exists_cons_of_ne_nil hne
  have hhead : operation.calls.head? = some first := by rw [hcalls]; rfl
  obtain ⟨hkeys, hlen, -⟩ := host.collect_calls hnodup
  have hrootIn : operation.root.getD first.caller ∈ peersOf (host.collect (inputs operation.calls)) := by
    refine hkeys.mem_iff.mpr ?_
    cases hr : operation.root with
    | none => exact List.mem_map.mpr ⟨first, hcalls ▸ List.mem_cons_self, rfl⟩
    | some root => exact hroot root hr
  -- a tensor that is there is handed to everyone
  have hsend : ∀ tensor : Tensor α, config.localBroadcastStrategy.Fits operation.calls.length →
      ∃ out sent, broadcastLocal config.localBroadcastStrategy (host.collect (inputs operation.calls))
        (operation.root.getD first.caller) tensor = some out ∧
          sendTensors (fun t => .broadcasted (.ok t)) operation.calls out = some sent := by
    intro tensor hfits
    obtain ⟨out, hout, houtKeys⟩ := broadcastLocal_ok tensor (hlen.symm ▸ hfits) hrootIn (hkeys.nodup_iff.mpr hnodup)
    obtain ⟨sent, hsent⟩ := sendTensors_ok (fun t => .broadcasted (.ok t)) hnodup (houtKeys.trans hkeys)
    exact ⟨out, sent, hout, hsent⟩
  obtain ⟨result, hresult, htensor⟩ : ∃ result, operation.broadcastGlobal host config globalClient first.input = some result ∧
      ∀ tensor, result = .ok (some tensor) → globalClient = true ∨ operation.tensor.isSome := by
    unfold broadcastGlobal
    cases globalClient with
    | false => exact ⟨_, rfl, fun tensor h => .inr (by rw [Except.ok.inj h]; rfl)⟩
    | true =>
      obtain ⟨strategy, hstrategy⟩ := Option.isSome_iff_exists.mp (hglobal rfl)
      exact ⟨_, by rw [if_pos rfl, hstrategy]; rfl, fun _ _ => .inl rfl⟩
  unfold execute broadcast
  simp only [hhead, hresult, Option.bind_eq_bind, Option.bind_some]
  rcases result with error | _ | tensor
  · exact ⟨_, rfl⟩
  · exact ⟨_, rfl⟩
  · obtain ⟨out, sent, hout, hsent⟩ := hsend tensor (hfits (htensor tensor rfl))
    exact ⟨sent, by simp only [hout, Option.map_some, Option.bind_some, hsent]⟩

-- All-reduce and reduce

section
variable [AddCommMonoid α] {shape : List Nat} {tensors : TensorMap α}

theorem allReduceLocal_ok {strategy : AllReduceStrategy} (hne : tensors ≠ []) (hnodup : (peersOf tensors).Nodup)
    (h : OfShape shape tensors) (hfits : strategy.Fits shape tensors.length) :
    ∃ out, allReduceLocal strategy tensors = some out ∧ (peersOf out).Perm (peersOf tensors) := by
  cases strategy with
  | centralized => exact allReduceSumCentralized_ok hne hnodup h
  | tree arity => exact allReduceSumTree_peers hfits hne h
  | ring =>
    obtain ⟨out, hout, hred⟩ := allReduceSumRing_ok hne h hfits.1 hfits.2
    exact ⟨out, hout, hred.peers⟩

theorem reduceMain_ok {strategy : AllReduceStrategy} {main : PeerId} (hmain : main ∈ peersOf tensors)
    (hnodup : (peersOf tensors).Nodup) (h : OfShape shape tensors) (hfits : strategy.Fits shape tensors.length) :
    ∃ sum, reduceMain strategy tensors main = some sum := by
  cases strategy with
  | centralized =>
    obtain ⟨sum, hsum, -⟩ := reduceSumCentralized_ok hmain hnodup h
    exact ⟨sum, hsum⟩
  | tree arity =>
    obtain ⟨sum, hsum, -⟩ := reduceSumTree_ok hfits hmain hnodup h
    exact ⟨sum, hsum⟩
  | ring =>
    have hne : tensors ≠ [] := by
      rintro rfl
      cases hmain
    obtain ⟨out, hout, hred⟩ := allReduceSumRing_ok hne h hfits.1 hfits.2
    obtain ⟨sum, rest, hremove, -⟩ := removePeer_ok (hred.peers.mem_iff.mpr hmain) (hred.peers.nodup_iff.mpr hnodup)
    refine ⟨sum, ?_⟩
    simp only [reduceMain, hout, Option.bind_eq_bind, Option.bind_some, hremove, Option.map_some]

theorem allReduceLocalOnly_ok {host : Host α} {op : ReduceOperation} {config : CollectiveConfig} (hne : tensors ≠ [])
    (hnodup : (peersOf tensors).Nodup) (h : OfShape shape tensors)
    (hfits : config.localAllReduceStrategy.Fits shape tensors.length) :
    ∃ out, allReduceLocalOnly host tensors op config = some out ∧ (peersOf out).Perm (peersOf tensors) := by
  obtain ⟨out, hout, hpeers⟩ := allReduceLocal_ok hne hnodup h hfits
  unfold allReduceLocalOnly
  simp only [hout, Option.bind_eq_bind, Option.bind_some]
  cases op with
  | sum => exact ⟨out, rfl, hpeers⟩
  | mean =>
    refine ⟨_, rfl, ?_⟩
    have hdiv : peersOf (out.map fun e => (e.1, host.floatDivScalar e.2 out.length)) = peersOf out := by
      simp only [peersOf, List.map_map]
      rfl
    rw [hdiv]
    exact hpeers

theorem mainBroadcast_fits {strategy : AllReduceStrategy} {n : Nat} (h : strategy.Fits shape n) :
    (mainBroadcast strategy).Fits n := by
  cases strategy with
  | centralized => trivial
  | tree arity => exact h
  | ring => trivial

theorem allReduceWithGlobal_ok {host : Host α} {op : ReduceOperation} {config : CollectiveConfig} (hne : tensors ≠ [])
    (hnodup : (peersOf tensors).Nodup) (h : OfShape shape tensors)
    (hfits : config.AllReduceFits true shape tensors.length) :
    ∃ result, allReduceWithGlobal host tensors op config = some result ∧
      ∀ out, result = .ok out → (peersOf out).Perm (peersOf tensors) := by
  obtain ⟨e, rest, rfl⟩ := List.exists_cons_of_ne_nil hne
  have hmain : e.1 ∈ peersOf (e :: rest) := List.mem_cons_self
  obtain ⟨sum, hsum⟩ := reduceMain_ok hmain hnodup h hfits.1
  obtain ⟨strategy, hstrategy⟩ := Option.isSome_iff_exists.mp (hfits.2 rfl)
  have hhomes : peersOf ((e :: rest).map fun e => (e.1, e.2.device)) = peersOf (e :: rest) := by
    rw [peersOf, List.map_map]
    rfl
  unfold allReduceWithGlobal
  simp only [List.head?_cons, hsum, hstrategy, Option.bind_eq_bind, Option.bind_some]
  cases mapGlobal (host.allReduce sum strategy op) with
  | error error => exact ⟨_, rfl, by simp⟩
  | ok t =>
    have hlocal : (mainBroadcast config.localAllReduceStrategy).Fits
        ((e :: rest).map fun e => (e.1, e.2.device)).length := by
      rw [List.length_map]
      exact mainBroadcast_fits hfits.1
    obtain ⟨out, hout, hpeers⟩ := broadcastLocal_ok t hlocal (hhomes ▸ hmain) (hhomes ▸ hnodup)
    refine ⟨.ok out, by simp only [hout, Option.map_some], fun out' hout' => ?_⟩
    obtain rfl := Except.ok.inj hout'
    exact hhomes ▸ hpeers

theorem AllReduceOp.execute_ok {operation : AllReduceOp α} {host : Host α} {config : CollectiveConfig}
    {globalClient : Bool} (hne : operation.calls ≠ []) (hnodup : (operation.calls.map OpCall.caller).Nodup)
    (hshape : ∀ call ∈ operation.calls, call.input.shape = operation.shape)
    (hfits : config.AllReduceFits globalClient operation.shape operation.calls.length) :
    ∃ sent, operation.execute host config globalClient = some sent := by
  obtain ⟨hkeys, hlen, hmem⟩ := host.collect_calls hnodup
  have hne' : host.collect (inputs operation.calls) ≠ [] := by
    rw [← List.length_pos_iff_ne_nil, hlen]
    exact List.length_pos_of_ne_nil hne
  have hof : OfShape operation.shape (host.collect (inputs operation.calls)) := by
    intro e he
    obtain ⟨call, hcall, rfl⟩ := hmem e he
    exact hshape call hcall
  obtain ⟨result, hresult, hout⟩ : ∃ result, operation.allReduce host config globalClient = some result ∧
      ∀ out, result = .ok out → (peersOf out).Perm (peersOf (host.collect (inputs operation.calls))) := by
    unfold allReduce
    rw [← hlen] at hfits
    cases globalClient with
    | false =>
      obtain ⟨out, hrun, hpeers⟩ := allReduceLocalOnly_ok hne' (hkeys.nodup_iff.mpr hnodup) hof hfits.1
      refine ⟨.ok out, ?_, fun out' h => Except.ok.inj h ▸ hpeers⟩
      show (allReduceLocalOnly host _ operation.op config).map Except.ok = _
      rw [hrun]
      rfl
    | true => exact allReduceWithGlobal_ok hne' (hkeys.nodup_iff.mpr hnodup) hof hfits
  unfold execute
  simp only [hresult, Option.bind_eq_bind, Option.bind_some]
  cases result with
  | error error => exact ⟨_, rfl⟩
  | ok out => exact sendTensors_ok _ hnodup ((hout out rfl).trans hkeys)

theorem ReduceOp.execute_ok {operation : ReduceOp α} {host : Host α} {root : PeerId} {config : CollectiveConfig}
    {globalClient : Bool} (hnodup : (operation.calls.map OpCall.caller).Nodup)
    (hshape : ∀ call ∈ operation.calls, call.input.shape = operation.shape)
    (hfits : config.ReduceFits globalClient operation.calls.length) :
    ∃ sent, operation.execute host root config globalClient = some sent := by
  obtain ⟨hkeys, hlen, hmem⟩ := host.collect_calls hnodup
  have hof : OfShape operation.shape (host.collect (inputs operation.calls)) := by
    intro e he
    obtain ⟨call, hcall, rfl⟩ := hmem e he
    exact hshape call hcall
  obtain ⟨result, hresult⟩ : ∃ result, operation.reduce host config globalClient = some result := by
    unfold reduce
    cases hlocal : operation.localRoot globalClient with
    | none => exact ⟨_, rfl⟩
    | some localRoot =>
      have hroot : localRoot ∈ operation.calls.map OpCall.caller := by
        unfold ReduceOp.localRoot at hlocal
        split at hlocal
        · next hany =>
          obtain ⟨call, hcall, hcaller⟩ := List.any_eq_true.mp hany
          exact List.mem_map.mpr ⟨call, hcall, (decide_eq_true_eq.mp hcaller).trans (Option.some.inj hlocal)⟩
        · split at hlocal
          · obtain ⟨first, hfirst, rfl⟩ := Option.map_eq_some_iff.mp hlocal
            exact List.mem_map_of_mem (List.mem_of_mem_head? hfirst)
          · cases hlocal
      obtain ⟨sum, hsum⟩ : ∃ sum, reduceLocal config.localReduceStrategy (host.collect (inputs operation.calls)) localRoot =
          some sum := by
        have hfits := hlen.symm ▸ hfits.1
        unfold reduceLocal
        cases hstrategy : config.localReduceStrategy with
        | centralized =>
          obtain ⟨sum, hsum, -⟩ := reduceSumCentralized_ok (hkeys.mem_iff.mpr hroot) (hkeys.nodup_iff.mpr hnodup) hof
          exact ⟨sum, hsum⟩
        | tree arity =>
          rw [hstrategy] at hfits
          obtain ⟨sum, hsum, -⟩ := reduceSumTree_ok hfits (hkeys.mem_iff.mpr hroot) (hkeys.nodup_iff.mpr hnodup) hof
          exact ⟨sum, hsum⟩
      simp only [hsum, Option.bind_eq_bind, Option.bind_some]
      unfold reduceGlobal
      cases globalClient with
      | false => cases operation.op <;> exact ⟨_, rfl⟩
      | true =>
        obtain ⟨strategy, hstrategy⟩ := Option.isSome_iff_exists.mp (hfits.2 rfl)
        exact ⟨_, by rw [if_pos rfl, hstrategy]; rfl⟩
  unfold execute
  simp only [hresult, Option.bind_eq_bind, Option.bind_some]
  cases result with
  | error error => exact ⟨_, rfl⟩
  | ok result => exact ⟨_, rfl⟩

end

end Ruda.Collective
