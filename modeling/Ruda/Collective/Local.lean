import Ruda.Collective.Sums

/-!
# Reduce and broadcast between local peers

The centralized and the tree strategies of the local reduce and broadcast, and the centralized
all-reduce that is made of them. A strategy that ends has a tensor for every peer that it was
given.
-/

namespace Ruda.Collective

section
variable {α β : Type}

/-- `HashMap::remove` -/
def removePeer (id : PeerId) (entries : List (PeerId × β)) : Option (β × List (PeerId × β)) :=
  (entries.lookup id).map fun value => (value, entries.filter fun e => e.1 != id)

def broadcastCentralized (devices : List (PeerId × DeviceId)) (central : PeerId) (tensor : Tensor α) :
    Option (TensorMap α) := do
  let (_, devices) ← removePeer central devices
  return devices.map (fun (dest, device) => (dest, floatToDevice tensor device)) ++ [(central, tensor)]

/-- The parents of one level, and their children. -/
def groupDevices (arity : Nat) : List (PeerId × DeviceId) → List (PeerId × DeviceId) × List (List (PeerId × DeviceId))
  | [] => ([], [])
  | parent :: rest =>
    let (parents, groups) := groupDevices arity (rest.drop arity)
    (parent :: parents, rest.take arity :: groups)
  termination_by devices => devices.length
  decreasing_by
    simp only [List.length_drop, List.length_cons]
    omega

/-- Every group of children gets the tensor of the next parent. -/
def handDown : List (List (PeerId × DeviceId)) → List (PeerId × Tensor α) → Option (List (PeerId × Tensor α))
  | [], _ => some []
  | _ :: _, [] => none
  | children :: groups, (parent, t) :: rest => do
    let rest ← handDown groups rest
    return children.map (fun (child, device) => (child, floatToDevice t device)) ++ (parent, t) :: rest

/-- The recursion is as deep as `depth` allows. -/
def broadcastTreeInner (arity : Nat) (tensor : Tensor α) : (depth : Nat) → List (PeerId × DeviceId) →
    Option (List (PeerId × Tensor α))
  | 0, _ => none
  | depth + 1, devices => do
    let (parents, groups) := groupDevices arity devices
    let parents ← if 1 < parents.length then broadcastTreeInner arity tensor depth parents
      else parents.head?.map fun root => [(root.1, tensor)]
    handDown groups parents

def broadcastTree (devices : List (PeerId × DeviceId)) (root : PeerId) (tensor : Tensor α) (arity : Nat) :
    Option (TensorMap α) := do
  let (rootDevice, devices) ← removePeer root devices
  let devices := (root, rootDevice) :: devices.mergeSort fun a b => a.2 ≤ b.2
  broadcastTreeInner arity tensor (devices.length + 1) devices

variable [Add α]

def reduceSumCentralized (tensors : TensorMap α) (central : PeerId) : Option (Tensor α) := do
  let (tensor, tensors) ← removePeer central tensors
  sumChildren tensor tensors

/-- The peers stay beside their tensors; nothing depends on them. -/
def reduceSumTreeInner (arity : Nat) : (depth : Nat) → List (PeerId × Tensor α) → Option (Tensor α)
  | 0, _ => none
  | depth + 1, tensors => do
    let (parents, _) ← sumGroups arity tensors
    if 1 < parents.length then reduceSumTreeInner arity depth parents else parents.head?.map Prod.snd

def reduceSumTree (tensors : TensorMap α) (root : PeerId) (arity : Nat) : Option (Tensor α) := do
  let (rootTensor, tensors) ← removePeer root tensors
  let tensors := (root, rootTensor) :: tensors.mergeSort fun a b => a.2.device ≤ b.2.device
  reduceSumTreeInner arity (tensors.length + 1) tensors

def allReduceSumCentralized (tensors : TensorMap α) : Option (TensorMap α) := do
  let (central, _) ← tensors.head?
  let tensor ← reduceSumCentralized tensors central
  broadcastCentralized (tensors.map fun e => (e.1, e.2.device)) central tensor

end

-- Every peer has its tensor

section
variable {α β : Type}

/-- The peers of a map, each once. -/
def peersOf (entries : List (PeerId × β)) : List PeerId := entries.map Prod.fst

theorem removePeer_ok {id : PeerId} {entries : List (PeerId × β)} (hid : id ∈ peersOf entries)
    (hnodup : (peersOf entries).Nodup) :
    ∃ value rest, removePeer id entries = some (value, rest) ∧ (id, value) ∈ entries ∧ rest.Sublist entries ∧
      (id :: peersOf rest).Perm (peersOf entries) := by
  obtain ⟨value, hvalue⟩ : ∃ value, entries.lookup id = some value := by
    rw [← Option.isSome_iff_exists, List.lookup_isSome_iff]
    obtain ⟨e, he, rfl⟩ := List.mem_map.mp hid
    exact ⟨e, he, by simp⟩
  refine ⟨value, entries.filter fun e => e.1 != id, by rw [removePeer, hvalue]; rfl, ?_, List.filter_sublist, ?_⟩
  · obtain ⟨l₁, l₂, rfl, -⟩ := List.lookup_eq_some_iff.mp hvalue
    simp
  · have hrest : peersOf (entries.filter fun e => e.1 != id) = (peersOf entries).filter fun p => p != id := by
      rw [peersOf, peersOf, List.filter_map]
      rfl
    rw [hrest, ← hnodup.erase_eq_filter id]
    exact (List.perm_cons_erase hid).symm

theorem broadcastCentralized_ok {devices : List (PeerId × DeviceId)} {central : PeerId} (tensor : Tensor α)
    (hcentral : central ∈ peersOf devices) (hnodup : (peersOf devices).Nodup) :
    ∃ out, broadcastCentralized devices central tensor = some out ∧ (peersOf out).Perm (peersOf devices) := by
  obtain ⟨_, rest, hremove, -, -, hperm⟩ := removePeer_ok hcentral hnodup
  refine ⟨_, by rw [broadcastCentralized, hremove]; rfl, ?_⟩
  have hout : peersOf (rest.map (fun (dest, device) => (dest, floatToDevice tensor device)) ++ [(central, tensor)]) =
      peersOf rest ++ [central] := by
    simp only [peersOf, List.map_append, List.map_map]
    rfl
  rw [hout]
  exact List.perm_append_singleton _ _ |>.trans hperm

theorem groupDevices_ok (arity : Nat) (devices : List (PeerId × DeviceId)) :
    (groupDevices arity devices).1.length = (groupDevices arity devices).2.length ∧
      ((groupDevices arity devices).1 ++ (groupDevices arity devices).2.flatten).Perm devices ∧
      (devices ≠ [] → (groupDevices arity devices).1 ≠ []) ∧
      (0 < arity → 1 < (groupDevices arity devices).1.length →
        (groupDevices arity devices).1.length < devices.length) ∧
      (groupDevices arity devices).1.length ≤ devices.length := by
  induction hn : devices.length using Nat.strong_induction_on generalizing devices with
  | _ n ih =>
    cases devices with
    | nil => simp [groupDevices]
    | cons parent rest =>
      have hlt : (rest.drop arity).length < n := by
        rw [← hn, List.length_drop, List.length_cons]
        omega
      obtain ⟨hlen, hperm, -, -, hle⟩ := ih _ hlt _ rfl
      rw [groupDevices]
      simp only [List.length_drop, List.length_cons, List.flatten_cons, List.cons_append, ne_eq, reduceCtorEq,
        not_false_eq_true, implies_true, true_and] at hle hn ⊢
      refine ⟨by omega, List.Perm.cons _ ?_, fun harity hmany => by omega, by omega⟩
      have hswap : ((groupDevices arity (rest.drop arity)).1 ++
          (rest.take arity ++ (groupDevices arity (rest.drop arity)).2.flatten)).Perm
            (rest.take arity ++ ((groupDevices arity (rest.drop arity)).1 ++
              (groupDevices arity (rest.drop arity)).2.flatten)) := by
        rw [← List.append_assoc, ← List.append_assoc]
        exact List.perm_append_comm.append_right _
      refine hswap.trans ((hperm.append_left _).trans ?_)
      rw [List.take_append_drop]

theorem handDown_ok {groups : List (List (PeerId × DeviceId))} {parents : List (PeerId × Tensor α)}
    (hlen : parents.length = groups.length) :
    ∃ out, handDown groups parents = some out ∧
      (peersOf out).Perm (peersOf parents ++ peersOf groups.flatten) := by
  induction groups generalizing parents with
  | nil =>
    obtain rfl : parents = [] := List.length_eq_zero_iff.mp hlen
    exact ⟨[], rfl, .refl _⟩
  | cons children groups ih =>
    cases parents with
    | nil => cases hlen
    | cons parent parents =>
      obtain ⟨out, hout, hperm⟩ := ih (Nat.succ.inj hlen)
      refine ⟨_, by rw [handDown, hout]; rfl, ?_⟩
      have hkeys : peersOf (children.map (fun (child, device) => (child, floatToDevice parent.2 device)) ++
          (parent.1, parent.2) :: out) = peersOf children ++ parent.1 :: peersOf out := by
        simp only [peersOf, List.map_append, List.map_map, List.map_cons]
        rfl
      have hparents : peersOf (parent :: parents) = parent.1 :: peersOf parents := rfl
      have hgroups : peersOf (children :: groups).flatten = peersOf children ++ peersOf groups.flatten := by
        simp [peersOf]
      rw [hkeys, hparents, hgroups, List.cons_append]
      refine List.perm_middle.trans (List.Perm.cons _ ?_)
      refine (hperm.append_left _).trans ?_
      rw [← List.append_assoc, ← List.append_assoc]
      exact List.perm_append_comm.append_right _

/-- A tree with an arity of zero never gets smaller, so it can take one peer only. -/
def ArityFits (arity n : Nat) : Prop := 0 < arity ∨ n ≤ 1

theorem broadcastTreeInner_ok {arity depth : Nat} (tensor : Tensor α) {devices : List (PeerId × DeviceId)}
    (harity : ArityFits arity devices.length) (hdepth : devices.length < depth) (hne : devices ≠ []) :
    ∃ out, broadcastTreeInner arity tensor depth devices = some out ∧ (peersOf out).Perm (peersOf devices) := by
  induction depth generalizing devices with
  | zero => exact absurd hdepth (Nat.not_lt_zero _)
  | succ depth ih =>
    obtain ⟨hlen, hperm, hparents, hfewer, hle⟩ := groupDevices_ok arity devices
    obtain ⟨parents, groups, hgroups⟩ : ∃ parents groups, groupDevices arity devices = (parents, groups) := ⟨_, _, rfl⟩
    rw [hgroups] at hlen hperm hparents hfewer hle
    dsimp only at hlen hperm hparents hfewer hle
    have hkeys : (peersOf parents ++ peersOf groups.flatten).Perm (peersOf devices) := by
      have hmap := hperm.map Prod.fst
      rwa [List.map_append] at hmap
    have hup : ∃ up, (if 1 < parents.length then broadcastTreeInner arity tensor depth parents
        else parents.head?.map fun root => [(root.1, tensor)]) = some up ∧ (peersOf up).Perm (peersOf parents) := by
      by_cases hmany : 1 < parents.length
      · rw [if_pos hmany]
        have harity : 0 < arity := harity.resolve_right (by omega)
        exact ih (.inl harity) (by have := hfewer harity hmany; omega) (hparents hne)
      · rw [if_neg hmany]
        obtain ⟨e, rfl⟩ : ∃ e, parents = [e] := by
          refine List.length_eq_one_iff.mp ?_
          have := List.length_pos_of_ne_nil (hparents hne)
          omega
        exact ⟨_, rfl, .refl _⟩
    obtain ⟨up, hup, hupKeys⟩ := hup
    have huplen : up.length = groups.length := by
      have := hupKeys.length_eq
      simp only [peersOf, List.length_map] at this
      rw [this, hlen]
    obtain ⟨out, hout, houtKeys⟩ := handDown_ok huplen
    refine ⟨out, ?_, houtKeys.trans ((hupKeys.append_right _).trans hkeys)⟩
    rw [broadcastTreeInner, hgroups]
    by_cases hmany : 1 < parents.length
    · rw [if_pos hmany] at hup
      simpa only [Option.bind_eq_bind, Option.bind_some, if_pos hmany, hup] using hout
    · rw [if_neg hmany] at hup
      simpa only [Option.bind_eq_bind, Option.bind_some, if_neg hmany, hup] using hout

theorem broadcastTree_ok {devices : List (PeerId × DeviceId)} {root : PeerId} (tensor : Tensor α) {arity : Nat}
    (harity : ArityFits arity devices.length) (hroot : root ∈ peersOf devices) (hnodup : (peersOf devices).Nodup) :
    ∃ out, broadcastTree devices root tensor arity = some out ∧ (peersOf out).Perm (peersOf devices) := by
  obtain ⟨rootDevice, rest, hremove, -, -, hperm⟩ := removePeer_ok hroot hnodup
  have hsort : (rest.mergeSort fun a b => a.2 ≤ b.2).Perm rest := List.mergeSort_perm _ _
  have hlen : ((root, rootDevice) :: rest.mergeSort fun a b => a.2 ≤ b.2).length = devices.length := by
    have := hperm.length_eq
    simp only [peersOf, List.length_cons, List.length_map] at this
    rw [List.length_cons, hsort.length_eq, this]
  obtain ⟨out, hout, hkeys⟩ := broadcastTreeInner_ok tensor (hlen.symm ▸ harity) (Nat.lt_succ_self _)
    (List.cons_ne_nil (root, rootDevice) _)
  refine ⟨out, ?_, hkeys.trans (List.Perm.trans ?_ hperm)⟩
  · rw [broadcastTree, hremove]
    exact hout
  · exact (hsort.map Prod.fst).cons root

end

-- Tensors of one shape can be added

section
variable {α : Type} [AddCommMonoid α] {shape : List Nat} {tensors : TensorMap α}

omit [AddCommMonoid α] in
theorem OfShape.sublist {tensors' : TensorMap α} (h : OfShape shape tensors) (hsub : tensors'.Sublist tensors) :
    OfShape shape tensors' := fun e he => h e (hsub.mem he)

theorem reduceSumCentralized_ok {central : PeerId} (hcentral : central ∈ peersOf tensors)
    (hnodup : (peersOf tensors).Nodup) (h : OfShape shape tensors) :
    ∃ sum, reduceSumCentralized tensors central = some sum ∧ sum.shape = shape := by
  obtain ⟨t, rest, hremove, hmem, hsub, -⟩ := removePeer_ok hcentral hnodup
  obtain ⟨sum, hsum, -, hshape, -⟩ := sumChildren_ok (h _ hmem) (h.sublist hsub)
  refine ⟨sum, ?_, hshape⟩
  rw [reduceSumCentralized, hremove]
  exact hsum

theorem reduceSumTreeInner_ok {arity depth : Nat} (harity : ArityFits arity tensors.length)
    (hdepth : tensors.length < depth) (hne : tensors ≠ []) (h : OfShape shape tensors) :
    ∃ sum, reduceSumTreeInner arity depth tensors = some sum ∧ sum.shape = shape := by
  induction depth generalizing tensors with
  | zero => exact absurd hdepth (Nat.not_lt_zero _)
  | succ depth ih =>
    obtain ⟨parents, groups, hgroups, hg⟩ := sumGroups_ok arity h
    rw [reduceSumTreeInner, hgroups]
    show ∃ sum, (if 1 < parents.length then _ else _) = some sum ∧ _
    by_cases hmany : 1 < parents.length
    · rw [if_pos hmany]
      have hle := hg.le
      have harity : 0 < arity := harity.resolve_right (by omega)
      exact ih (.inl harity) (by have := hg.fewer harity hmany; omega) (hg.nonempty hne) hg.ofShape
    · rw [if_neg hmany]
      cases parents with
      | nil => exact absurd rfl (hg.nonempty hne)
      | cons parent parents => exact ⟨parent.2, rfl, hg.ofShape _ List.mem_cons_self⟩

theorem reduceSumTree_ok {arity : Nat} {root : PeerId} (harity : ArityFits arity tensors.length)
    (hroot : root ∈ peersOf tensors) (hnodup : (peersOf tensors).Nodup) (h : OfShape shape tensors) :
    ∃ sum, reduceSumTree tensors root arity = some sum ∧ sum.shape = shape := by
  obtain ⟨t, rest, hremove, hmem, hsub, hperm⟩ := removePeer_ok hroot hnodup
  have hsort : (rest.mergeSort fun a b => a.2.device ≤ b.2.device).Perm rest := List.mergeSort_perm _ _
  have hlen : ((root, t) :: rest.mergeSort fun a b => a.2.device ≤ b.2.device).length = tensors.length := by
    have := hperm.length_eq
    simp only [peersOf, List.length_cons, List.length_map] at this
    rw [List.length_cons, hsort.length_eq, this]
  have hall : OfShape shape ((root, t) :: rest.mergeSort fun a b => a.2.device ≤ b.2.device) := by
    intro e he
    rcases List.mem_cons.mp he with rfl | he
    · exact h _ hmem
    · exact h e (hsub.mem (hsort.mem_iff.mp he))
  obtain ⟨sum, hsum, hshape⟩ := reduceSumTreeInner_ok (hlen.symm ▸ harity) (Nat.lt_succ_self _)
    (List.cons_ne_nil _ _) hall
  refine ⟨sum, ?_, hshape⟩
  rw [reduceSumTree, hremove]
  exact hsum

theorem allReduceSumCentralized_ok (hne : tensors ≠ []) (hnodup : (peersOf tensors).Nodup) (h : OfShape shape tensors) :
    ∃ out, allReduceSumCentralized tensors = some out ∧ (peersOf out).Perm (peersOf tensors) := by
  obtain ⟨e, rest, rfl⟩ := List.exists_cons_of_ne_nil hne
  have hcentral : e.1 ∈ peersOf (e :: rest) := List.mem_cons_self
  obtain ⟨sum, hsum, -⟩ := reduceSumCentralized_ok hcentral hnodup h
  have hhomes : peersOf ((e :: rest).map fun e => (e.1, e.2.device)) = peersOf (e :: rest) := by
    rw [peersOf, List.map_map]
    rfl
  have hcentral' : e.1 ∈ peersOf ((e :: rest).map fun e => (e.1, e.2.device)) := hhomes ▸ hcentral
  obtain ⟨out, hout, hperm⟩ := broadcastCentralized_ok sum hcentral' (hhomes ▸ hnodup)
  refine ⟨out, ?_, hhomes ▸ hperm⟩
  show (reduceSumCentralized (e :: rest) e.1 >>= fun tensor => broadcastCentralized _ e.1 tensor) = some out
  rw [hsum]
  exact hout

omit [AddCommMonoid α] in
theorem Reduced.peers {total : List Nat → α} {out : TensorMap α} (h : Reduced shape total (homes tensors) out) :
    (peersOf out).Perm (peersOf tensors) := by
  have hkeys : ∀ entries : TensorMap α, (homes entries).map Prod.fst = peersOf entries := by
    intro entries
    rw [homes, List.map_map]
    rfl
  have hmap := h.places.map Prod.fst
  rwa [hkeys, hkeys] at hmap

theorem allReduceSumTree_peers {arity : Nat} (harity : ArityFits arity tensors.length) (hne : tensors ≠ [])
    (h : OfShape shape tensors) :
    ∃ out, allReduceSumTree tensors arity = some out ∧ (peersOf out).Perm (peersOf tensors) := by
  rcases harity with harity | hone
  · obtain ⟨out, hout, hred⟩ := allReduceSumTree_ok harity hne h
    exact ⟨out, hout, hred.peers⟩
  · obtain ⟨e, rest, rfl⟩ := List.exists_cons_of_ne_nil hne
    obtain rfl : rest = [] := List.length_eq_zero_iff.mp (by simpa using hone)
    have hgroups : sumGroups arity [e] = some ([e], [[]]) := by
      rw [sumGroups]
      simp [sumGroups, sumChildren]
    refine ⟨[e], ?_, .refl _⟩
    simp [allReduceSumTree, allReduceSumTreeInner, hgroups, redistribute]

end

end Ruda.Collective
