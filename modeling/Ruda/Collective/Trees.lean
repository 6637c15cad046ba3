import Ruda.Collective.Slices

/-!
# The tree all-reduce

Each level of the tree keeps the sum of all tensors and puts at every parent the part
of its group. On the way back the recursion returns the parents in another order than
they were grouped in, so a group's children may get the tensor of another parent: that
is the same tensor, since each of them is the sum of all.
-/

namespace Ruda.Collective

variable {α : Type} [AddCommMonoid α] {shape : List Nat} {total : List Nat → α} {arity : Nat}
  {tensors : List (PeerId × Tensor α)}

/-- Which peer is on which device. -/
def homes (tensors : List (PeerId × Tensor α)) : List (PeerId × DeviceId) :=
  tensors.map fun e => (e.1, e.2.device)

/-- The elementwise sum. -/
def sumAt (tensors : List (PeerId × Tensor α)) (idx : List Nat) : α := (tensors.map fun e => e.2.data idx).sum

/-- All tensors have the shape. -/
def OfShape (shape : List Nat) (tensors : List (PeerId × Tensor α)) : Prop := ∀ e ∈ tensors, e.2.shape = shape

/-- Each peer of `places`, and no other, has a tensor with the elements of `total`, on
its own device. -/
structure Reduced (shape : List Nat) (total : List Nat → α) (places : List (PeerId × DeviceId))
    (out : List (PeerId × Tensor α)) : Prop where
  places : (homes out).Perm places
  ofShape : OfShape shape out
  data : ∀ e ∈ out, ∀ idx, InBounds idx shape → e.2.data idx = total idx

theorem floatAdd_ok {t u : Tensor α} (hdev : t.device = u.device) (hshape : t.shape = u.shape) :
    floatAdd t u = some { t with data := fun idx => t.data idx + u.data idx } := if_pos ⟨hdev, hshape⟩

theorem sumChildren_ok {parent : Tensor α} (hp : parent.shape = shape) (h : OfShape shape tensors) :
    ∃ sum, sumChildren parent tensors = some sum ∧ sum.device = parent.device ∧ sum.shape = shape ∧
      ∀ idx, sum.data idx = parent.data idx + sumAt tensors idx := by
  induction tensors generalizing parent with
  | nil => exact ⟨parent, rfl, rfl, hp, fun idx => by simp [sumAt]⟩
  | cons e rest ih =>
    have he : e.2.shape = shape := h e List.mem_cons_self
    have hadd := floatAdd_ok (t := parent) (u := floatToDevice e.2 parent.device) rfl (hp.trans he.symm)
    let parent' : Tensor α := { parent with data := fun idx => parent.data idx + e.2.data idx }
    obtain ⟨sum, hsum, hdev, hshape, hdata⟩ :=
      ih (show parent'.shape = shape from hp) fun e' he' => h e' (List.mem_cons_of_mem _ he')
    refine ⟨sum, ?_, hdev, hshape, fun idx => ?_⟩
    · simp only [sumChildren, hadd, Option.bind_eq_bind, Option.bind_some]
      exact hsum
    · have hcons : sumAt (e :: rest) idx = e.2.data idx + sumAt rest idx := rfl
      rw [hdata, hcons, ← add_assoc]

/-- What phase 1 makes of the tensors of one level. -/
structure Grouped (shape : List Nat) (arity : Nat) (tensors parents : List (PeerId × Tensor α))
    (groups : List (List (PeerId × DeviceId))) : Prop where
  length : parents.length = groups.length
  ofShape : OfShape shape parents
  sum : ∀ idx, sumAt parents idx = sumAt tensors idx
  places : (homes parents ++ groups.flatten).Perm (homes tensors)
  nonempty : tensors ≠ [] → parents ≠ []
  fewer : 0 < arity → 1 < parents.length → parents.length < tensors.length
  le : parents.length ≤ tensors.length

theorem sumGroups_ok (arity : Nat) (h : OfShape shape tensors) :
    ∃ parents groups, sumGroups arity tensors = some (parents, groups) ∧
      Grouped shape arity tensors parents groups := by
  induction hn : tensors.length using Nat.strong_induction_on generalizing tensors with
  | _ n ih =>
    cases tensors with
    | nil =>
      refine ⟨[], [], by rw [sumGroups], rfl, nofun, fun _ => rfl, .refl _, ?_, ?_, le_rfl⟩
      · exact fun h => absurd rfl h
      · exact fun _ h => absurd h (by simp)
    | cons e rest =>
      obtain ⟨parent, t⟩ := e
      have hrest : OfShape shape rest := fun e he => h e (List.mem_cons_of_mem _ he)
      have htake : OfShape shape (rest.take arity) := fun e he => hrest e (List.mem_of_mem_take he)
      have hdrop : OfShape shape (rest.drop arity) := fun e he => hrest e (List.mem_of_mem_drop he)
      obtain ⟨sum, hsum, hdev, hshape, hdata⟩ := sumChildren_ok (h (parent, t) List.mem_cons_self) htake
      have hlt : (rest.drop arity).length < n := by
        rw [← hn, List.length_drop, List.length_cons]
        omega
      obtain ⟨parents, groups, hgroups, hg⟩ := ih _ hlt hdrop rfl
      have hsplit : rest.take arity ++ rest.drop arity = rest := List.take_append_drop _ _
      refine ⟨(parent, sum) :: parents, homes (rest.take arity) :: groups, ?_, ?_, ?_, fun idx => ?_, ?_, ?_, ?_, ?_⟩
      · rw [sumGroups, hsum, hgroups]
        rfl
      · rw [List.length_cons, List.length_cons, hg.length]
      · intro e he
        rcases List.mem_cons.mp he with rfl | he
        · exact hshape
        · exact hg.ofShape e he
      · have hparts : sumAt rest idx = sumAt (rest.take arity) idx + sumAt (rest.drop arity) idx := by
          unfold sumAt
          rw [← List.sum_append, ← List.map_append, hsplit]
        have hcons : ∀ (e : PeerId × Tensor α) l, sumAt (e :: l) idx = e.2.data idx + sumAt l idx :=
          fun _ _ => rfl
        rw [hcons, hcons, hg.sum, hdata, hparts, add_assoc]
      · have hhomes : homes rest = homes (rest.take arity) ++ homes (rest.drop arity) := by
          rw [homes, homes, homes, ← List.map_append, hsplit]
        have hcons : homes ((parent, t) :: rest) = (parent, t.device) :: homes rest := rfl
        have hcons' : homes ((parent, sum) :: parents) = (parent, t.device) :: homes parents := by
          rw [homes, List.map_cons, hdev]
          rfl
        rw [hcons, hcons', hhomes, List.flatten_cons, List.cons_append]
        refine List.Perm.cons _ (List.Perm.trans ?_ (hg.places.append_left _))
        have hswap : (homes parents ++ homes (rest.take arity) ++ groups.flatten).Perm
            (homes (rest.take arity) ++ homes parents ++ groups.flatten) := List.perm_append_comm.append_right _
        rwa [List.append_assoc, List.append_assoc] at hswap
      · exact fun _ => List.cons_ne_nil _ _
      · intro harity hmany
        have hle := hg.le
        simp only [List.length_cons, List.length_drop] at hmany hle ⊢
        omega
      · have hle := hg.le
        simp only [List.length_cons, List.length_drop] at hle ⊢
        omega

omit [AddCommMonoid α] in
theorem redistribute_ok {parents : List (PeerId × Tensor α)} {groups : List (List (PeerId × DeviceId))}
    (hlen : parents.length = groups.length) {places : List (PeerId × DeviceId)}
    (h : Reduced shape total places parents) :
    ∃ out, redistribute parents groups = some out ∧ Reduced shape total (places ++ groups.flatten) out := by
  have hout : ∃ out, redistribute parents groups = some out ∧
      Reduced shape total (homes parents ++ groups.flatten) out := by
    replace h := And.intro h.ofShape h.data
    induction parents generalizing groups with
    | nil =>
      obtain rfl : groups = [] := List.length_eq_zero_iff.mp hlen.symm
      exact ⟨[], rfl, .refl _, List.forall_mem_nil _, List.forall_mem_nil _⟩
    | cons e rest ih =>
      obtain ⟨parent, t⟩ := e
      cases groups with
      | nil => cases hlen
      | cons children groups =>
        obtain ⟨out, hout, hred⟩ := ih (Nat.succ.inj hlen)
          ⟨fun e he => h.1 e (List.mem_cons_of_mem _ he), fun e he => h.2 e (List.mem_cons_of_mem _ he)⟩
        have hshape : t.shape = shape := h.1 (parent, t) List.mem_cons_self
        have hdata : ∀ idx, InBounds idx shape → t.data idx = total idx := h.2 (parent, t) List.mem_cons_self
        refine ⟨_, by rw [redistribute, hout]; rfl, ?_, fun e he => ?_, fun e he => ?_⟩
        · have hhomes : homes (children.map (fun child => (child.1, floatToDevice t child.2)) ++
              (parent, t) :: out) = children ++ (parent, t.device) :: homes out := by
            simp only [homes, List.map_append, List.map_map, List.map_cons]
            congr 1
            exact (List.map_congr_left fun _ _ => rfl).trans (List.map_id _)
          have hcons : homes ((parent, t) :: rest) = (parent, t.device) :: homes rest := rfl
          refine (List.Perm.of_eq hhomes).trans ?_
          rw [hcons, List.flatten_cons, List.cons_append]
          refine List.perm_middle.trans (List.Perm.cons _ ?_)
          refine (hred.places.append_left children).trans ?_
          rw [← List.append_assoc, ← List.append_assoc]
          exact List.perm_append_comm.append_right _
        · rcases List.mem_append.mp he with he | he
          · obtain ⟨_, -, rfl⟩ := List.mem_map.mp he
            exact hshape
          · rcases List.mem_cons.mp he with rfl | he
            · exact hshape
            · exact hred.ofShape e he
        · rcases List.mem_append.mp he with he | he
          · obtain ⟨_, -, rfl⟩ := List.mem_map.mp he
            exact hdata
          · rcases List.mem_cons.mp he with rfl | he
            · exact hdata
            · exact hred.data e he
  obtain ⟨out, hrun, hred⟩ := hout
  exact ⟨out, hrun, hred.places.trans (h.places.append_right _), hred.ofShape, hred.data⟩

/-- With a positive arity every level has fewer tensors than the one below, and the sum
of all comes back to each of them. -/
theorem allReduceSumTreeInner_ok (harity : 0 < arity) {depth : Nat} (hdepth : tensors.length < depth)
    (hne : tensors ≠ []) (h : OfShape shape tensors) :
    ∃ out, allReduceSumTreeInner arity depth tensors = some out ∧
      Reduced shape (sumAt tensors) (homes tensors) out := by
  induction depth generalizing tensors with
  | zero => exact absurd hdepth (Nat.not_lt_zero _)
  | succ depth ih =>
    obtain ⟨parents, groups, hgroups, hg⟩ := sumGroups_ok arity h
    have hsum : sumAt parents = sumAt tensors := funext hg.sum
    have hup : ∃ up, (if 1 < parents.length then allReduceSumTreeInner arity depth parents else some parents) =
        some up ∧ Reduced shape (sumAt tensors) (homes parents) up := by
      by_cases hmany : 1 < parents.length
      · rw [if_pos hmany, ← hsum]
        exact ih (by have := hg.fewer harity hmany; omega) (hg.nonempty hne) hg.ofShape
      · rw [if_neg hmany]
        obtain ⟨e, rfl⟩ : ∃ e, parents = [e] := by
          refine List.length_eq_one_iff.mp ?_
          have := List.length_pos_of_ne_nil (hg.nonempty hne)
          omega
        refine ⟨[e], rfl, .refl _, hg.ofShape, fun e' he' idx _ => ?_⟩
        rw [← hsum, List.mem_singleton.mp he']
        simp [sumAt]
    obtain ⟨up, hup, hred⟩ := hup
    have hlen : up.length = groups.length := by
      have := hred.places.length_eq
      simp only [homes, List.length_map] at this
      rw [this, hg.length]
    obtain ⟨out, hout, hred'⟩ := redistribute_ok hlen hred
    refine ⟨out, ?_, hred'.places.trans hg.places, hred'.ofShape, hred'.data⟩
    rw [allReduceSumTreeInner, hgroups]
    by_cases hmany : 1 < parents.length
    · rw [if_pos hmany] at hup
      simpa only [Option.bind_eq_bind, Option.bind_some, if_pos hmany, hup] using hout
    · rw [if_neg hmany] at hup
      obtain rfl := Option.some.inj hup
      simpa only [Option.bind_eq_bind, Option.bind_some, if_neg hmany] using hout

theorem allReduceSumTree_ok (harity : 0 < arity) (hne : tensors ≠ []) (h : OfShape shape tensors) :
    ∃ out, allReduceSumTree tensors arity = some out ∧ Reduced shape (sumAt tensors) (homes tensors) out := by
  have hperm : (tensors.mergeSort fun a b => a.2.device ≤ b.2.device).Perm tensors := List.mergeSort_perm _ _
  obtain ⟨out, hout, hred⟩ := allReduceSumTreeInner_ok harity (Nat.lt_succ_self _)
    (fun h => hne (List.nil_perm.mp (h ▸ hperm))) fun e he => h e (hperm.mem_iff.mp he)
  have hsum : sumAt (tensors.mergeSort fun a b => a.2.device ≤ b.2.device) = sumAt tensors := by
    funext idx
    exact (hperm.map _).sum_eq
  exact ⟨out, hout, hred.places.trans (hperm.map _), hred.ofShape, hsum ▸ hred.data⟩

end Ruda.Collective
