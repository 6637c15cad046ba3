import Ruda.Collective.Trees

/-!
# The ring all-reduce

In both phases slice `s` is a token of the ring: it starts out at one tensor, moves to
the next in every cycle, and the tensors it meets in a cycle are not touched by any
other slice that moves in it. So the cycles can be told slice by slice, although they run
through the tensors in place.
-/

namespace Ruda.Collective

open Ruda.Ring

section
variable {β γ : Type}

theorem foldlM_range {f : β → Nat → Option β} {S : Nat → β} {m : Nat}
    (h : ∀ c < m, f (S c) c = some (S (c + 1))) : (List.range m).foldlM f (S 0) = some (S m) := by
  induction m with
  | zero => rfl
  | succ m ih =>
    rw [List.range_succ, List.foldlM_append, ih fun c hc => h c (by omega)]
    simp only [Option.bind_eq_bind, Option.bind_some, List.foldlM_cons, List.foldlM_nil, h m (Nat.lt_succ_self m)]
    rfl

theorem mapM_range {f : β → Option γ} {g : Nat → β} {h : Nat → γ} {m : Nat}
    (hf : ∀ i < m, f (g i) = some (h i)) : ((List.range m).map g).mapM f = some ((List.range m).map h) := by
  have hall : ∀ l : List Nat, (∀ i ∈ l, f (g i) = some (h i)) → (l.map g).mapM f = some (l.map h) := by
    intro l hl
    induction l with
    | nil => rfl
    | cons i l ih =>
      have hrest := ih fun j hj => hl j (List.mem_cons_of_mem _ hj)
      rw [List.map_cons, List.mapM_cons, hl i List.mem_cons_self, hrest]
      rfl
  exact hall _ fun i hi => hf i (List.mem_range.mp hi)

theorem map_range_set {g : Nat → β} {m i : Nat} {v : β} :
    ((List.range m).map g).set i v = (List.range m).map (Function.update g i v) := by
  apply List.ext_getElem
  · simp
  · intro j h₁ h₂
    simp only [List.getElem_set, List.getElem_map, List.getElem_range, Function.update_apply, eq_comm (a := i)]

theorem map_range_get {g : Nat → β} {m i : Nat} (hi : i < m) : ((List.range m).map g)[i]? = some (g i) := by
  simp [hi]

end

variable {α : Type} [AddCommMonoid α] {n : Nat} {isPhaseOne : Bool} {sh : Nat → List Nat}

-- One slice received

/-- What `receive_slice` makes of two slices of one shape. -/
def receiveOp (isPhaseOne : Bool) (dest src : Tensor α) : Tensor α :=
  if isPhaseOne then { dest with data := fun idx => dest.data idx + src.data idx }
  else floatSliceAssign dest (dest.shape.map fun d => ⟨0, d⟩) (floatToDevice src dest.device)

theorem receiveSlice_ok {dest src : Tensor α} (h : dest.shape = src.shape) :
    receiveSlice isPhaseOne dest src = some (receiveOp isPhaseOne dest src) := by
  cases isPhaseOne with
  | true => exact floatAdd_ok (u := floatToDevice src dest.device) rfl h
  | false => rfl

@[simp] theorem receiveOp_device (dest src : Tensor α) : (receiveOp isPhaseOne dest src).device = dest.device := by
  cases isPhaseOne <;> rfl

@[simp] theorem receiveOp_shape (dest src : Tensor α) : (receiveOp isPhaseOne dest src).shape = dest.shape := by
  cases isPhaseOne <;> rfl

theorem receiveOp_assign {dest src : Tensor α} {idx : List Nat} (h : InBounds idx dest.shape) :
    (receiveOp false dest src).data idx = src.data idx := by
  have hranges : List.zipWith Range.toRange (dest.shape.map fun d => (⟨0, d⟩ : Range)) dest.shape =
      dest.shape.map fun d => (⟨0, d⟩ : Range) := by
    apply List.ext_getElem
    · simp
    · intro i h₁ h₂
      simp [Range.toRange]
  have hlen := h.length_eq
  have hall : (List.zipWith (fun i (r : Range) => decide (r.start ≤ i ∧ i < r.stop)) idx
      (dest.shape.map fun d => (⟨0, d⟩ : Range))).all id = true := by
    rw [List.all_eq_true]
    intro b hb
    obtain ⟨i, hi, rfl⟩ := List.mem_iff_getElem.mp hb
    have hi' : i < idx.length ∧ i < dest.shape.length := by simpa using hi
    have hlt := (List.forall₂_iff_get.mp h).2 i hi'.1 hi'.2
    simpa using hlt
  have hsub : List.zipWith (fun i (r : Range) => i - r.start) idx (dest.shape.map fun d => (⟨0, d⟩ : Range)) = idx := by
    apply List.ext_getElem
    · simp [hlen]
    · intro i h₁ h₂
      simp
  simp only [receiveOp, floatSliceAssign, hranges, hall, hsub, if_true, Bool.false_eq_true, if_false]
  rfl

-- The cycles

/-- Slices of `n` tensors, slice `s` of tensor `p` being `G p s`. -/
def table (n : Nat) (ids : Nat → PeerId) (G : Nat → Nat → Tensor α) : List (PeerId × List (Tensor α)) :=
  (List.range n).map fun p => (ids p, (List.range n).map (G p))

omit [AddCommMonoid α] in
theorem table_congr {ids : Nat → PeerId} {G G' : Nat → Nat → Tensor α} (h : ∀ p < n, ∀ s < n, G p s = G' p s) :
    table n ids G = table n ids G' := by
  refine List.map_congr_left fun p hp => ?_
  congr 1
  exact List.map_congr_left fun s hs => h p (List.mem_range.mp hp) s (List.mem_range.mp hs)

/-- Where slice `s` starts out in a phase. -/
def startOf (n : Nat) (isPhaseOne : Bool) (s : Nat) : Nat := if isPhaseOne then s else prev n s

theorem startOf_lt (isPhaseOne : Bool) {s : Nat} (hs : s < n) : startOf n isPhaseOne s < n := by
  unfold startOf
  split
  · exact hs
  · exact prev_lt hs

/-- The slice that a tensor or node sends in cycle `c` of a phase. -/
def sendIdx (n : Nat) (isPhaseOne : Bool) (i c : Nat) : Nat := back n (if isPhaseOne then i else (i + 1) % n) c

theorem sendIdx_lt (isPhaseOne : Bool) {i c : Nat} (hi : i < n) : sendIdx n isPhaseOne i c < n := by
  cases isPhaseOne with
  | true => exact back_lt hi
  | false => exact back_lt (Nat.mod_lt _ (by omega))

theorem sendIdx_iff (isPhaseOne : Bool) {i c s : Nat} (hi : i < n) (hc : c < n) (hs : s < n) :
    dist n (startOf n isPhaseOne s) i = c ↔ sendIdx n isPhaseOne i c = s := by
  cases isPhaseOne with
  | true => exact (back_eq_iff hs hc).symm
  | false => exact (dist_start_prev hi hs).symm ▸ (back_eq_iff hs hc).symm

theorem sliceIdx_eq (isPhaseOne : Bool) {i c : Nat} (hi : i < n) (hc : c < n) :
    (if isPhaseOne then (i + (n - 1) * c) % n else (i + 1 + (n - 1) * c) % n) = sendIdx n isPhaseOne i c := by
  cases isPhaseOne with
  | true => exact back_mul hi hc.le
  | false =>
    have hnext : (i + 1) % n < n := Nat.mod_lt _ (by omega)
    rw [sendIdx, if_neg Bool.false_ne_true, if_neg Bool.false_ne_true, ← back_mul hnext hc.le, Nat.mod_add_mod]

variable {ids : Nat → PeerId} {x : Nat → Nat → Tensor α}

/-- Slice `s` of tensor `p` after `c` cycles. -/
def sliceAt (n : Nat) (isPhaseOne : Bool) (x : Nat → Nat → Tensor α) (c p s : Nat) : Tensor α :=
  arrived n (receiveOp isPhaseOne) (fun p => x p s) (startOf n isPhaseOne s) c p

theorem sliceAt_shape (isPhaseOne : Bool) (hx : ∀ p < n, ∀ s < n, (x p s).shape = sh s) {c p s : Nat} (hp : p < n) (hs : s < n) :
    (sliceAt n isPhaseOne x c p s).shape = sh s :=
  arrived_rel (f := receiveOp isPhaseOne) (g := fun a _ => a) (x := fun p => x p s) (y := fun _ => ())
    (R := fun (a : Tensor α) (_ : Unit) => a.shape = sh s)
    (fun p hp => hx p hp s hs) (fun a _ b _ ha _ => (receiveOp_shape a b).trans ha) hp

/-- Tensor `i` sends in cycle `c`: everything up to its successor has then gone through the cycle. -/
theorem ringStep_table (hx : ∀ p < n, ∀ s < n, (x p s).shape = sh s) {c i : Nat} (hc : c < n - 1) (hi : i < n) :
    ringStep n isPhaseOne c
        (table n ids fun p => sliceAt n isPhaseOne x (if prev n p < i then c + 1 else c) p) i =
      some (table n ids fun p => sliceAt n isPhaseOne x (if prev n p < i + 1 then c + 1 else c) p) := by
  obtain ⟨s, hidx⟩ : ∃ s, sendIdx n isPhaseOne i c = s := ⟨_, rfl⟩
  have hs : s < n := hidx ▸ sendIdx_lt isPhaseOne hi
  have hon : ∀ s' < n, dist n (startOf n isPhaseOne s') i = c ↔ s = s' := fun s' hs' =>
    hidx ▸ sendIdx_iff isPhaseOne hi (by omega) hs'
  replace hidx := (sliceIdx_eq isPhaseOne hi (by omega)).trans hidx
  have hp : (i + 1) % n < n := Nat.mod_lt _ (by omega)
  have hprev : prev n ((i + 1) % n) = i := prev_next hi
  have hdist : dist n (startOf n isPhaseOne s) i = c := (hon s hs).mpr rfl
  have hstart := startOf_lt isPhaseOne hs
  -- slice `s` reaches the next tensor in this cycle, and is the only one that does
  have hreach : ∀ s' < n, dist n (startOf n isPhaseOne s') ((i + 1) % n) = c + 1 ↔ s = s' := by
    intro s' hs'
    have hstart' := startOf_lt isPhaseOne hs'
    by_cases hfirst : (i + 1) % n = startOf n isPhaseOne s'
    · have hfar := dist_prev_self hp
      rw [hprev] at hfar
      rw [← hfirst, dist_self]
      refine ⟨fun h => absurd h (by omega), ?_⟩
      rintro rfl
      rw [← hfirst] at hdist
      omega
    · rw [dist_prev hp hstart' hfirst, hprev, Nat.add_right_cancel_iff]
      exact hon s' hs'
  have hsrc : sliceAt n isPhaseOne x (if prev n i < i then c + 1 else c) i s = sliceAt n isPhaseOne x c i s := by
    split
    · unfold sliceAt
      rw [arrived_succ hi hstart, if_neg (by omega)]
    · rfl
  have hnew : sliceAt n isPhaseOne x (c + 1) ((i + 1) % n) s =
      receiveOp isPhaseOne (sliceAt n isPhaseOne x c ((i + 1) % n) s) (sliceAt n isPhaseOne x c i s) := by
    unfold sliceAt
    rw [arrived_succ hp hstart, if_pos ((hreach s hs).mpr rfl), hprev]
  have hshapes : (sliceAt n isPhaseOne x c ((i + 1) % n) s).shape = (sliceAt n isPhaseOne x c i s).shape :=
    (sliceAt_shape isPhaseOne hx hp hs).trans (sliceAt_shape isPhaseOne hx hi hs).symm
  unfold ringStep
  simp only [table, map_range_get hi, map_range_get hp, hidx, map_range_get hs, Option.bind_eq_bind, Option.bind_some,
    hsrc, hprev, Nat.lt_irrefl, if_false, receiveSlice_ok hshapes, ← hnew, map_range_set]
  refine congrArg some (List.map_congr_left fun p hpr => ?_)
  have hpn : p < n := List.mem_range.mp hpr
  by_cases hpi : p = (i + 1) % n
  · rw [hpi, Function.update_self]
    congr 1
    refine List.map_congr_left fun s' hs' => ?_
    have hs'n : s' < n := List.mem_range.mp hs'
    rw [hprev, if_pos (Nat.lt_succ_self i)]
    by_cases hss : s' = s
    · rw [hss, Function.update_self]
    · rw [Function.update_of_ne hss]
      unfold sliceAt
      rw [arrived_succ hp (startOf_lt _ hs'n), if_neg fun h => hss ((hreach s' hs'n).mp h).symm]
  · rw [Function.update_of_ne hpi]
    have hne : prev n p ≠ i := by
      rintro rfl
      exact hpi (next_prev hpn).symm
    have hiff : prev n p < i ↔ prev n p < i + 1 := by omega
    simp only [hiff]

theorem ringCycles_table (hx : ∀ p < n, ∀ s < n, (x p s).shape = sh s) :
    ringCycles isPhaseOne (table n ids x) = some (table n ids fun p s =>
      carried n (receiveOp isPhaseOne) (fun p => x p s) p (dist n (startOf n isPhaseOne s) p)) := by
  have hlen : (table n ids x).length = n := by simp [table]
  have hcycles := foldlM_range (S := fun c => table n ids (sliceAt n isPhaseOne x c)) (m := n - 1)
    (f := fun S c => (List.range n).foldlM (ringStep n isPhaseOne c) S) fun c hc => by
      have hsteps := foldlM_range (f := ringStep n isPhaseOne c) (m := n)
        (S := fun i => table n ids fun p => sliceAt n isPhaseOne x (if prev n p < i then c + 1 else c) p)
        fun i hi => ringStep_table hx hc hi
      simp only [Nat.not_lt_zero, if_false] at hsteps
      refine hsteps.trans (congrArg some (table_congr fun p hp s _ => ?_))
      rw [if_pos (prev_lt hp)]
  have hzero : table n ids (sliceAt n isPhaseOne x 0) = table n ids x :=
    table_congr fun p _ s _ => arrived_zero
  simp only [ringCycles, hlen]
  rw [hzero] at hcycles
  refine hcycles.trans (congrArg some (table_congr fun p hp s hs => ?_))
  exact arrived_all hp (startOf_lt _ hs)

omit [AddCommMonoid α] in
theorem carried_shape {f : Tensor α → Tensor α → Tensor α} {y : Nat → Tensor α} {shape : List Nat} {p : Nat}
    (hf : ∀ a b, a.shape = b.shape → (f a b).shape = a.shape ∧ (f a b).device = a.device)
    (hy : ∀ p < n, (y p).shape = shape) (hp : p < n) (d : Nat) :
    (carried n f y p d).shape = shape ∧ (carried n f y p d).device = (y p).device := by
  have hshape : ∀ p < n, ∀ d, (carried n f y p d).shape = shape := fun p hp d =>
    carried_rel (g := fun a _ => a) (y := fun _ => ()) (R := fun (a : Tensor α) (_ : Unit) => a.shape = shape)
      hy (fun a _ b _ ha hb => ((hf a b (ha.trans hb.symm)).1).trans ha) hp d
  refine ⟨hshape p hp d, ?_⟩
  cases d with
  | zero => rfl
  | succ d => exact (hf _ _ ((hy p hp).trans (hshape _ (prev_lt hp) d).symm)).2

/-- Summed in one phase and spread in the next, every slice is the sum of that slice at
every position, on the device it was on. -/
theorem carried_both {f g : Tensor α → Tensor α → Tensor α}
    (hf : ∀ a b, a.shape = b.shape → (f a b).device = a.device ∧ (f a b).shape = a.shape ∧
      ∀ idx, (f a b).data idx = a.data idx + b.data idx)
    (hg : ∀ a b, a.shape = b.shape → (g a b).device = a.device ∧ (g a b).shape = a.shape ∧
      ∀ idx, InBounds idx a.shape → (g a b).data idx = b.data idx)
    (hx : ∀ p < n, ∀ s < n, (x p s).shape = sh s) {z : Nat → Nat → Tensor α}
    (hz : ∀ p s, z p s = carried n f (fun p => x p s) p (dist n (startOf n true s) p)) {p s : Nat} (hp : p < n)
    (hs : s < n) :
    (z p s).shape = sh s ∧ (carried n g (fun p => z p s) p (dist n (startOf n false s) p)).device = (x p s).device ∧
      (carried n g (fun p => z p s) p (dist n (startOf n false s) p)).shape = sh s ∧
      ∀ idx, InBounds idx (sh s) → (carried n g (fun p => z p s) p (dist n (startOf n false s) p)).data idx =
        ∑ q ∈ Finset.range n, (x q s).data idx := by
  have hzs : ∀ p < n, (z p s).shape = sh s ∧ (z p s).device = (x p s).device := by
    intro p hp
    rw [hz]
    exact carried_shape (fun a b h => ⟨(hf a b h).2.1, (hf a b h).1⟩) (fun p hp => hx p hp s hs) hp _
  obtain ⟨hshape, hdevice⟩ := carried_shape (fun a b h => ⟨(hg a b h).2.1, (hg a b h).1⟩)
    (fun p hp => (hzs p hp).1) hp (dist n (startOf n false s) p)
  refine ⟨(hzs p hp).1, hdevice.trans (hzs p hp).2, hshape, fun idx hidx => ?_⟩
  -- phase 2 spreads what the position before the start has, which is the sum
  have hlast := carried_rel (f := g) (g := fun _ b => b) (x := fun p => z p s) (y := fun p => (z p s).data idx)
    (R := fun a b => a.shape = sh s ∧ a.data idx = b) (fun p hp => ⟨(hzs p hp).1, rfl⟩)
    (fun a b a' b' ha hb => by
      obtain ⟨-, hsh, hdata⟩ := hg a a' (ha.1.trans hb.1.symm)
      exact ⟨hsh.trans ha.1, (hdata idx (ha.1.symm ▸ hidx)).trans hb.2⟩) hp (dist n (startOf n false s) p)
  have hprev : prev n s < n := prev_lt hs
  have hsum := carried_rel (f := f) (g := (· + ·)) (x := fun p => x p s) (y := fun p => (x p s).data idx)
    (R := fun a b => a.shape = sh s ∧ a.data idx = b) (fun p hp => ⟨hx p hp s hs, rfl⟩)
    (fun a b a' b' ha hb => by
      obtain ⟨-, hsh, hdata⟩ := hf a a' (ha.1.trans hb.1.symm)
      exact ⟨hsh.trans ha.1, by rw [hdata, ha.2, hb.2]⟩) hprev (n - 1)
  refine hlast.2.trans ((carried_last hp (startOf_lt _ hs)).trans ?_)
  have hfar : dist n (startOf n true s) (prev n s) = n - 1 := dist_prev_self hs
  have hstart : startOf n false s = prev n s := rfl
  rw [hstart, hz, hfar, hsum.2, carried_total hprev]

theorem ringCycles_both (ids : Nat → PeerId) (hx : ∀ p < n, ∀ s < n, (x p s).shape = sh s) :
    ∃ S, ringCycles true (table n ids x) = some S ∧ ∃ y : Nat → Nat → Tensor α,
      ringCycles false S = some (table n ids y) ∧ ∀ p < n, ∀ s < n, (y p s).device = (x p s).device ∧
        (y p s).shape = sh s ∧ ∀ idx, InBounds idx (sh s) →
          (y p s).data idx = ∑ q ∈ Finset.range n, (x q s).data idx := by
  have hboth := fun {p s : Nat} (hp : p < n) (hs : s < n) => carried_both (f := receiveOp true)
    (g := receiveOp false) (fun _ _ _ => ⟨rfl, rfl, fun _ => rfl⟩)
    (fun _ _ _ => ⟨rfl, rfl, fun _ h => receiveOp_assign h⟩) hx
    (z := fun p s => carried n (receiveOp true) (fun p => x p s) p (dist n (startOf n true s) p))
    (fun _ _ => rfl) hp hs
  refine ⟨_, ringCycles_table hx, _, ringCycles_table fun p hp s hs => (hboth hp hs).1, fun p hp s hs => ?_⟩
  exact (hboth hp hs).2

-- The nodes of the global ring

/-- What a node makes of a slice it downloads. -/
def globalOp (isPhaseOne : Bool) (old received : Tensor α) : Tensor α :=
  if isPhaseOne then { old with data := fun idx => old.data idx + received.data idx }
  else floatToDevice received old.device

theorem receiveGlobal_ok {old received : Tensor α} (h : old.shape = received.shape) :
    receiveGlobal isPhaseOne old received = some (globalOp isPhaseOne old received) := by
  cases isPhaseOne with
  | true => exact floatAdd_ok (u := floatToDevice received old.device) rfl h
  | false => exact if_neg fun hne : old.shape ≠ received.shape => hne h

/-- The nodes after `c` cycles. -/
def nodesAt (n : Nat) (isPhaseOne : Bool) (x : Nat → Nat → Tensor α) (c : Nat) : List (Node α) :=
  (List.range n).map fun p =>
    { slices := (List.range n).map fun s =>
        arrived n (globalOp isPhaseOne) (fun p => x p s) (startOf n isPhaseOne s) c p
      sendSliceIdx := sendIdx n isPhaseOne p c }

theorem globalOp_shape {a b : Tensor α} (h : a.shape = b.shape) : (globalOp isPhaseOne a b).shape = a.shape := by
  cases isPhaseOne with
  | true => rfl
  | false => exact h.symm

theorem globalAt_shape (hx : ∀ p < n, ∀ s < n, (x p s).shape = sh s) {c p s : Nat} (hp : p < n) (hs : s < n) :
    (arrived n (globalOp isPhaseOne) (fun p => x p s) (startOf n isPhaseOne s) c p).shape = sh s :=
  arrived_rel (g := fun a _ => a) (y := fun _ => ()) (R := fun (a : Tensor α) (_ : Unit) => a.shape = sh s)
    (fun p hp => hx p hp s hs) (fun _ _ _ _ ha hb => (globalOp_shape (ha.trans hb.symm)).trans ha) hp

theorem globalCycle_nodesAt (hx : ∀ p < n, ∀ s < n, (x p s).shape = sh s) {c : Nat} (hc : c < n - 1) :
    globalCycle isPhaseOne (nodesAt n isPhaseOne x c) = some (nodesAt n isPhaseOne x (c + 1)) := by
  have hlen : (nodesAt n isPhaseOne x c).length = n := by simp [nodesAt]
  rw [globalCycle, hlen, ← List.map_id (List.range n)]
  refine mapM_range fun p hp => ?_
  have hprev : prev n p < n := prev_lt hp
  obtain ⟨s, hs⟩ : ∃ s, sendIdx n isPhaseOne p (c + 1) = s := ⟨_, rfl⟩
  have hsn : s < n := hs ▸ sendIdx_lt isPhaseOne hp
  have hsend : sendIdx n isPhaseOne (prev n p) c = s := by
    rw [← hs]
    cases isPhaseOne with
    | true => exact back_prev hp (by omega)
    | false =>
      have hnext : (p + 1) % n < n := Nat.mod_lt _ (by omega)
      have hback := back_prev (t := c) hnext (by omega)
      rw [prev_next hp] at hback
      simpa only [sendIdx, Bool.false_eq_true, if_false, next_prev hp] using hback
  have hrecv : (sendIdx n isPhaseOne p c + n - 1) % n = s := by
    rw [prev_eq (sendIdx_lt isPhaseOne hp), ← hs]
    cases isPhaseOne with
    | true => exact prev_back hp (by omega)
    | false => exact prev_back (Nat.mod_lt _ (by omega)) (by omega)
  let at' := fun c p s => arrived n (globalOp isPhaseOne) (fun p => x p s) (startOf n isPhaseOne s) c p
  have hold : (at' c p s).shape = (at' c (prev n p) s).shape :=
    (globalAt_shape hx hp hsn).trans (globalAt_shape hx hprev hsn).symm
  have hnew : receiveGlobal isPhaseOne (at' c p s) (at' c (prev n p) s) =
      some (globalOp isPhaseOne (at' c p s) (at' c (prev n p) s)) := receiveGlobal_ok hold
  have hstep : globalOp isPhaseOne (at' c p s) (at' c (prev n p) s) = at' (c + 1) p s := by
    have hdist := (sendIdx_iff isPhaseOne hp (by omega) hsn).mpr hs
    simp only [at']
    rw [arrived_succ hp (startOf_lt _ hsn), if_pos hdist]
  have hcycle : ({ slices := (List.range n).map (at' c p), sendSliceIdx := sendIdx n isPhaseOne p c } : Node α).cycle
      isPhaseOne (at' c (prev n p) s) =
      some { slices := (List.range n).map (at' (c + 1) p), sendSliceIdx := s } := by
    simp only [Node.cycle, List.length_map, List.length_range, hrecv, map_range_get hsn, Option.bind_eq_bind,
      Option.bind_some, hnew, hstep, map_range_set]
    refine congrArg (fun slices => some ({ slices, sendSliceIdx := s } : Node α)) ?_
    refine List.map_congr_left fun s' hs' => ?_
    have hs'n : s' < n := List.mem_range.mp hs'
    by_cases hss : s' = s
    · rw [hss, Function.update_self]
    · rw [Function.update_of_ne hss]
      simp only [at']
      rw [arrived_succ hp (startOf_lt _ hs'n), if_neg fun h => hss
        (((sendIdx_iff isPhaseOne hp (by omega) hs'n).mp h).symm.trans hs)]
  simp only [id, nodesAt, map_range_get hp, prev_eq hp, map_range_get hprev, hsend, map_range_get hsn,
    Option.bind_eq_bind, Option.bind_some, hs]
  exact hcycle

theorem doCycles_nodesAt (hx : ∀ p < n, ∀ s < n, (x p s).shape = sh s) :
    doCycles isPhaseOne (nodesAt n isPhaseOne x 0) = some (nodesAt n isPhaseOne x (n - 1)) := by
  have hlen : (nodesAt n isPhaseOne x 0).length = n := by simp [nodesAt]
  rw [doCycles, hlen]
  exact foldlM_range fun c hc => globalCycle_nodesAt hx hc

theorem doCycles_both (hx : ∀ p < n, ∀ s < n, (x p s).shape = sh s) :
    ∃ mid, doCycles true ((List.range n).map fun p =>
        ({ slices := (List.range n).map (x p), sendSliceIdx := p } : Node α)) = some mid ∧
      ∃ y : Nat → Nat → Tensor α, ∃ send : Nat → Nat,
        doCycles false mid =
          some ((List.range n).map fun p => { slices := (List.range n).map (y p), sendSliceIdx := send p }) ∧
        ∀ p < n, ∀ s < n, (y p s).device = (x p s).device ∧ (y p s).shape = sh s ∧
          ∀ idx, InBounds idx (sh s) → (y p s).data idx = ∑ q ∈ Finset.range n, (x q s).data idx := by
  let z : Nat → Nat → Tensor α := fun p s =>
    carried n (globalOp true) (fun p => x p s) p (dist n (startOf n true s) p)
  have hboth := fun {p s : Nat} (hp : p < n) (hs : s < n) => carried_both (f := globalOp true)
    (g := globalOp false) (fun _ _ _ => ⟨rfl, rfl, fun _ => rfl⟩) (fun _ _ h => ⟨rfl, h.symm, fun _ _ => rfl⟩) hx
    (z := z) (fun _ _ => rfl) hp hs
  have hfirst : nodesAt n true x 0 = (List.range n).map fun p =>
      ({ slices := (List.range n).map (x p), sendSliceIdx := p } : Node α) := by
    simp only [nodesAt, sendIdx, if_true, back_zero, arrived_zero]
  have hmid : nodesAt n true x (n - 1) = nodesAt n false z 0 := by
    refine List.map_congr_left fun p hp => ?_
    have hp : p < n := List.mem_range.mp hp
    have hsend : sendIdx n true p (n - 1) = sendIdx n false p 0 := by
      simp only [sendIdx, if_true, back_all hp, Bool.false_eq_true, if_false, back_zero]
    rw [hsend]
    refine congrArg (fun slices => ({ slices, sendSliceIdx := _ } : Node α)) (List.map_congr_left fun s hs => ?_)
    rw [arrived_zero]
    exact arrived_all hp (startOf_lt _ (List.mem_range.mp hs))
  have hlast : nodesAt n false z (n - 1) = (List.range n).map fun p =>
      ({ slices := (List.range n).map fun s => carried n (globalOp false) (fun p => z p s) p (dist n (startOf n false s) p)
         sendSliceIdx := sendIdx n false p (n - 1) } : Node α) := by
    refine List.map_congr_left fun p hp => ?_
    refine congrArg (fun slices => ({ slices, sendSliceIdx := _ } : Node α)) (List.map_congr_left fun s hs => ?_)
    exact arrived_all (List.mem_range.mp hp) (startOf_lt _ (List.mem_range.mp hs))
  refine ⟨nodesAt n true x (n - 1), hfirst ▸ doCycles_nodesAt hx, _, fun p => sendIdx n false p (n - 1), ?_,
    fun p hp s hs => (hboth hp hs).2⟩
  rw [hmid, doCycles_nodesAt fun p hp s hs => (hboth hp hs).1, hlast]

end Ruda.Collective
