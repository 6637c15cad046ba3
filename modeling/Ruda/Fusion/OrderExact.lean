import Ruda.Fusion.Order

/-!
# The check of an order is exact

An order is accepted just when every operation reads the versions that it reads in the order of
the program, none of them freed before, and the ordered effects keep their order.
-/

namespace Ruda.Fusion

-- The newest of some positions

/-- `v` is the largest of the positions `S` below `p`. -/
def Newest (S : Nat → Prop) (p : Nat) : Option Nat → Prop
  | none => ∀ x, S x → p ≤ x
  | some m => S m ∧ m < p ∧ ∀ x, S x → x < p → x ≤ m

theorem Newest.unique {S : Nat → Prop} {p : Nat} {v w : Option Nat} (hv : Newest S p v) (hw : Newest S p w) : v = w := by
  cases v with
  | none =>
    cases w with
    | none => rfl
    | some m => exact absurd hw.2.1 (not_lt.mpr (hv m hw.1))
  | some n =>
    cases w with
    | none => exact absurd hv.2.1 (not_lt.mpr (hw n hv.1))
    | some m => rw [le_antisymm (hw.2.2 n hv.1 hv.2.1) (hv.2.2 m hw.1 hw.2.1)]

theorem Newest.congr {S T : Nat → Prop} {p : Nat} {v : Option Nat} (h : ∀ x, S x ↔ T x) (hv : Newest S p v) : Newest T p v := by
  cases v with
  | none => exact fun x hx => hv x ((h x).mpr hx)
  | some m => exact ⟨(h m).mp hv.1, hv.2.1, fun x hx => hv.2.2 x ((h x).mpr hx)⟩

namespace Producers

-- Sorted positions

theorem mem_dedup {l : List Nat} {x : Nat} : x ∈ dedup l ↔ x ∈ l := by
  induction l using dedup.induct with
  | case1 => rfl
  | case2 a => rfl
  | case3 a l ih => rw [dedup, if_pos rfl, ih, List.mem_cons, List.mem_cons, List.mem_cons, or_self_left]
  | case4 a b l hne ih => rw [dedup, if_neg hne, List.mem_cons, ih, List.mem_cons (l := b :: l)]

theorem sorted_dedup {l : List Nat} (h : l.Pairwise (· ≤ ·)) : (dedup l).Pairwise (· ≤ ·) := by
  induction l using dedup.induct with
  | case1 => exact h
  | case2 a => exact h
  | case3 a l ih => rw [dedup, if_pos rfl]; exact ih h.of_cons
  | case4 a b l hne ih =>
    rw [dedup, if_neg hne]
    exact List.pairwise_cons.mpr ⟨fun x hx => (List.pairwise_cons.mp h).1 x (mem_dedup.mp hx), ih h.of_cons⟩

theorem lt_iff_of_sorted {q : List Nat} (h : q.Pairwise (· ≤ ·)) {p k : Nat} (hk : k < q.length) :
    q[k] < p ↔ k < partitionPoint q p := by
  have hmono : q.Pairwise fun x y => decide (y < p) = true → decide (x < p) = true :=
    h.imp fun hle hlt => decide_eq_true (lt_of_le_of_lt hle (of_decide_eq_true hlt))
  rw [partitionPoint, bisect_takeWhile 0 hmono, ← getElem_iff_lt_takeWhile hmono hk, decide_eq_true_eq]

theorem newest_of_sorted {q : List Nat} (h : q.Pairwise (· ≤ ·)) (p : Nat) :
    Newest (· ∈ q) p (if partitionPoint q p = 0 then none else q[partitionPoint q p - 1]?) := by
  have hle : partitionPoint q p ≤ q.length := bisect_le
  have hlt : ∀ k (hk : k < q.length), q[k] < p ↔ k < partitionPoint q p := fun k hk => lt_iff_of_sorted h hk
  split
  · next hzero =>
    intro x hx
    obtain ⟨k, hk, rfl⟩ := List.getElem_of_mem hx
    exact not_lt.mp fun hp => by
      have := (hlt k hk).mp hp
      omega
  · next hpos =>
    have hk : partitionPoint q p - 1 < q.length := by omega
    rw [List.getElem?_eq_getElem hk]
    refine ⟨List.getElem_mem _, (hlt _ hk).mpr (by omega), fun x hx hxp => ?_⟩
    obtain ⟨j, hj, rfl⟩ := List.getElem_of_mem hx
    have hj' := (hlt j hj).mp hxp
    rcases Nat.lt_or_eq_of_le (Nat.le_sub_one_of_lt hj') with hjk | hjk
    · exact List.pairwise_iff_getElem.mp h j _ hj hk hjk
    · exact le_of_eq (getElem_congr_idx hjk)

-- The producers that are collected

/-- The positions of a resource among the productions so far. -/
def positionsOf (events : List (Nat × Nat)) (resource : Nat) : List Nat :=
  (events.filter fun e => e.1 = resource).map Prod.snd

theorem positionsOf_append (events : List (Nat × Nat)) (r p resource : Nat) :
    positionsOf (events ++ [(r, p)]) resource = if r = resource then positionsOf events resource ++ [p] else positionsOf events resource := by
  rw [positionsOf, positionsOf, List.filter_append, List.map_append]
  by_cases h : r = resource
  · simp [h]
  · simp [h]

structure Tracks (ps : Producers) (events : List (Nat × Nat)) : Prop where
  first : ∀ r, ps.producers[r]? = (positionsOf events r).head?
  single : ∀ r, ps.repeated[r]? = none → ∀ x ∈ positionsOf events r, (positionsOf events r).head? = some x
  several : ∀ r l, ps.repeated[r]? = some l → positionsOf events r ≠ [] ∧ ∀ x, x ∈ l ↔ x ∈ positionsOf events r

variable {ps : Producers} {events : List (Nat × Nat)}

theorem Tracks.add_first (h : Tracks ps events) {resource : Nat} (position : Nat) (hget : ps.producers[resource]? = none) :
    Tracks { ps with producers := ps.producers.insert resource position } (events ++ [(resource, position)]) := by
  have hempty : positionsOf events resource = [] := List.head?_eq_none_iff.mp ((h.first resource).symm.trans hget)
  refine ⟨fun r => ?_, fun r hr x hx => ?_, fun r l hr => ?_⟩
  · rw [BTreeMap.get_insert, positionsOf_append]
    by_cases hreq : resource = r
    · subst hreq
      rw [if_pos rfl, if_pos rfl, hempty]
      rfl
    · rw [if_neg (Ne.symm hreq), if_neg hreq, h.first r]
  · rw [positionsOf_append] at hx ⊢
    by_cases hreq : resource = r
    · subst hreq
      rw [if_pos rfl, hempty] at hx ⊢
      rw [List.mem_singleton.mp hx]
      rfl
    · rw [if_neg hreq] at hx ⊢
      exact h.single r hr x hx
  · have hne : resource ≠ r := fun hreq => (h.several r l hr).1 (hreq ▸ hempty)
    rw [positionsOf_append, if_neg hne]
    exact h.several r l hr

theorem Tracks.add_again (h : Tracks ps events) {resource position : Nat} (hget : ps.producers[resource]? = some position) :
    Tracks ps (events ++ [(resource, position)]) := by
  have hhead : (positionsOf events resource).head? = some position := (h.first resource).symm.trans hget
  have hne : positionsOf events resource ≠ [] := fun hempty => by rw [hempty] at hhead; cases hhead
  have hmem : position ∈ positionsOf events resource := List.mem_of_mem_head? hhead
  refine ⟨fun r => ?_, fun r hr x hx => ?_, fun r l hr => ?_⟩
  · rw [positionsOf_append]
    split
    · next hreq =>
      subst hreq
      rw [List.head?_append_of_ne_nil _ hne, h.first]
    · exact h.first r
  · rw [positionsOf_append] at hx ⊢
    split at hx
    · next hreq =>
      subst hreq
      rw [if_pos rfl, List.head?_append_of_ne_nil _ hne]
      rcases List.mem_append.mp hx with hx | hx
      · exact h.single _ hr x hx
      · rw [List.mem_singleton.mp hx, hhead]
    · next hreq =>
      rw [if_neg hreq]
      exact h.single r hr x hx
  · rw [positionsOf_append]
    split
    · next hreq =>
      subst hreq
      refine ⟨by simp, fun x => ?_⟩
      rw [List.mem_append, List.mem_singleton, (h.several _ l hr).2]
      exact ⟨.inl, fun hx => hx.elim id fun hx => hx ▸ hmem⟩
    · exact h.several r l hr

theorem Tracks.add_other (h : Tracks ps events) {resource first : Nat} (position : Nat)
    (hget : ps.producers[resource]? = some first) :
    Tracks { ps with repeated := ps.repeated.insert resource ((ps.repeated[resource]?.getD [first]) ++ [position]) }
      (events ++ [(resource, position)]) := by
  have hhead : (positionsOf events resource).head? = some first := (h.first resource).symm.trans hget
  have hne : positionsOf events resource ≠ [] := fun hempty => by rw [hempty] at hhead; cases hhead
  refine ⟨fun r => ?_, fun r hr x hx => ?_, fun r l hr => ?_⟩
  · rw [positionsOf_append]
    split
    · next hreq =>
      subst hreq
      rw [List.head?_append_of_ne_nil _ hne, h.first]
    · exact h.first r
  · rw [BTreeMap.get_insert] at hr
    by_cases hreq : r = resource
    · rw [if_pos hreq] at hr
      cases hr
    · rw [if_neg hreq] at hr
      rw [positionsOf_append, if_neg (Ne.symm hreq)] at hx ⊢
      exact h.single r hr x hx
  · rw [BTreeMap.get_insert] at hr
    rw [positionsOf_append]
    by_cases hreq : r = resource
    · subst hreq
      rw [if_pos rfl] at hr ⊢
      obtain rfl := Option.some.inj hr
      refine ⟨by simp, fun x => ?_⟩
      rw [List.mem_append, List.mem_append]
      refine or_congr_left ?_
      cases hrep : ps.repeated[r]? with
      | some l => exact (h.several r l hrep).2 x
      | none =>
        rw [Option.getD_none, List.mem_singleton]
        constructor
        · rintro rfl
          exact List.mem_of_mem_head? hhead
        · intro hx
          exact (Option.some.inj ((h.single r hrep x hx).symm.trans hhead))
    · rw [if_neg hreq] at hr
      rw [if_neg (Ne.symm hreq)]
      exact h.several r l hr

theorem Tracks.add (h : Tracks ps events) (resource position : Nat) :
    Tracks (ps.add resource position) (events ++ [(resource, position)]) := by
  unfold Producers.add
  cases hget : ps.producers[resource]? with
  | none => exact h.add_first position hget
  | some first =>
    by_cases hfirst : first = position
    · subst hfirst
      simp only [ne_eq, not_true_eq_false, if_false]
      exact h.add_again hget
    · simp only [ne_eq, hfirst, not_false_eq_true, if_true]
      exact h.add_other position hget

/-- The productions of an order, one after the other. -/
def eventsOf (order : List OperationNode) : List (Nat × Nat) := order.flatMap fun n => n.produced.map fun r => (r, n.position)

theorem Tracks.node (n : OperationNode) (h : Tracks ps events) (resources : List Nat) :
    Tracks (resources.foldl (fun ps resource => ps.add resource n.position) ps)
      (events ++ resources.map fun r => (r, n.position)) := by
  induction resources generalizing ps events with
  | nil => rwa [List.map_nil, List.append_nil]
  | cons r resources ih =>
    have hrest := ih (h.add r n.position)
    rwa [List.append_assoc] at hrest

theorem Tracks.order (h : Tracks ps events) (order : List OperationNode) :
    Tracks (order.foldl (fun ps n => n.produced.foldl (fun ps resource => ps.add resource n.position) ps) ps)
      (events ++ eventsOf order) := by
  induction order generalizing ps events with
  | nil => rwa [eventsOf, List.flatMap_nil, List.append_nil]
  | cons n order ih =>
    have hrest := ih (h.node n n.produced)
    rwa [List.append_assoc] at hrest

theorem tracks_ofOrder (order : List OperationNode) : Tracks (ofOrder order) (eventsOf order) := by
  have hempty : Tracks ⟨∅, ∅⟩ [] := by
    refine ⟨fun r => BTreeMap.get_empty r, fun r _ x hx => ?_, fun r l hr => ?_⟩
    · cases hx
    · rw [BTreeMap.get_empty] at hr
      cases hr
  exact hempty.order order

theorem mem_positionsOf {order : List OperationNode} {r x : Nat} :
    x ∈ positionsOf (eventsOf order) r ↔ ∃ n ∈ order, r ∈ n.produced ∧ n.position = x := by
  simp only [positionsOf, eventsOf, List.mem_map, List.mem_filter, List.mem_flatMap, decide_eq_true_eq]
  constructor
  · rintro ⟨⟨r', x'⟩, ⟨⟨n, hn, r'', hr, he⟩, rfl⟩, rfl⟩
    obtain ⟨rfl, rfl⟩ := Prod.mk.inj he
    exact ⟨n, hn, hr, rfl⟩
  · rintro ⟨n, hn, hr, rfl⟩
    exact ⟨(r, n.position), ⟨⟨n, hn, r, hr, rfl⟩, rfl⟩, rfl⟩

theorem Tracks.newest (h : Tracks ps events) (r p : Nat) : Newest (· ∈ positionsOf events r) p (ps.sorted.expected r p) := by
  have hmap : ps.sorted.repeated[r]? = (ps.repeated[r]?).map fun l => dedup (l.mergeSort fun a b => a ≤ b) := by
    rw [sorted, Std.ExtTreeMap.getElem?_map]
  unfold expected
  rw [hmap]
  cases hrep : ps.repeated[r]? with
  | some l =>
    have hsorted : (dedup (l.mergeSort fun a b => a ≤ b)).Pairwise (· ≤ ·) :=
      sorted_dedup (by simpa using List.pairwise_mergeSort' (· ≤ ·) l)
    refine (newest_of_sorted hsorted p).congr fun x => ?_
    rw [mem_dedup, List.mem_mergeSort]
    exact (h.several r l hrep).2 x
  | none =>
    have hsingle := h.single r hrep
    rw [← h.first r] at hsingle
    have hsame : ps.sorted.producers = ps.producers := rfl
    simp only [Option.map_none, hsame]
    cases hfirst : ps.producers[r]? with
    | none => exact fun x hx => by cases (hsingle x hx).symm.trans hfirst
    | some first =>
      have heq : ∀ x ∈ positionsOf events r, x = first := fun x hx => Option.some.inj ((hsingle x hx).symm.trans hfirst)
      have hmem : first ∈ positionsOf events r := List.mem_of_mem_head? ((h.first r).symm.trans hfirst)
      by_cases hlt : first < p
      · simp only [hlt, if_true]
        exact ⟨hmem, hlt, fun x hx _ => le_of_eq (heq x hx)⟩
      · simp only [hlt, if_false]
        exact fun x hx => heq x hx ▸ not_lt.mp hlt

theorem newest_expected (order : List OperationNode) (r p : Nat) :
    Newest (fun x => ∃ n ∈ order, r ∈ n.produced ∧ n.position = x) p ((ofOrder order).sorted.expected r p) :=
  ((tracks_ofOrder order).newest r p).congr fun _ => mem_positionsOf

end Producers

-- One operation more

theorem lastProducer_append (done : List OperationNode) (n : OperationNode) (r : Nat) :
    lastProducer (done ++ [n]) r = if r ∈ n.produced then some n.position else lastProducer done r := by
  rw [lastProducer, lastProducer, List.filter_append]
  by_cases h : r ∈ n.produced
  · simp [h]
  · simp [h]

theorem stale_append {done : List OperationNode} {n : OperationNode} {r : Nat} :
    Stale (done ++ [n]) r ↔ r ∉ n.produced ∧ (r ∈ n.freed ∨ Stale done r) := by
  constructor
  · rintro ⟨a, m, b, hsplit, hfreed, hown, hlater⟩
    rcases List.eq_nil_or_concat b with rfl | ⟨b, x, rfl⟩
    · obtain ⟨rfl, hm⟩ := List.append_inj' hsplit rfl
      obtain rfl := List.singleton_inj.mp hm
      exact ⟨hown, .inl hfreed⟩
    · have hsplit' : done ++ [n] = (a ++ m :: b) ++ [x] := by
        rw [hsplit, List.concat_eq_append, List.append_assoc, List.cons_append]
      obtain ⟨rfl, hx⟩ := List.append_inj' hsplit' rfl
      obtain rfl := List.singleton_inj.mp hx
      rw [List.concat_eq_append] at hlater
      exact ⟨hlater n (by simp), .inr ⟨a, m, b, rfl, hfreed, hown, fun y hy => hlater y (List.mem_append_left _ hy)⟩⟩
  · rintro ⟨hown, hfreed | ⟨a, m, b, rfl, hfreed, hm, hlater⟩⟩
    · exact ⟨done, n, [], rfl, hfreed, hown, fun x hx => by cases hx⟩
    · refine ⟨a, m, b ++ [n], by rw [List.append_assoc, List.cons_append], hfreed, hm, fun x hx => ?_⟩
      rcases List.mem_append.mp hx with hx | hx
      · exact hlater x hx
      · rwa [List.mem_singleton.mp hx]

theorem effects_append (done : List OperationNode) (n : OperationNode) :
    effects (done ++ [n]) = if orderedEffect n.operation then effects done ++ [n.position] else effects done := by
  rw [effects, effects, List.filter_append]
  by_cases h : orderedEffect n.operation
  · simp [h]
  · simp [h]

namespace Cursor

variable {c d : Cursor} {done : List OperationNode} {n : OperationNode}

/-- What the cursor knows of the operations that were executed. -/
structure Follows (c : Cursor) (done : List OperationNode) : Prop where
  current : ∀ r, c.current[r]? = lastProducer done r
  dead : ∀ r, r ∈ c.dead ↔ Stale done r
  lastEffect : c.lastEffect = (effects done).getLast?

theorem foldl_free (resources : List Nat) (c : Cursor) :
    (resources.foldl free c).current = c.current ∧ (resources.foldl free c).lastEffect = c.lastEffect ∧
      ∀ r, r ∈ (resources.foldl free c).dead ↔ r ∈ resources ∨ r ∈ c.dead := by
  induction resources generalizing c with
  | nil => exact ⟨rfl, rfl, fun r => by simp⟩
  | cons a resources ih =>
    obtain ⟨hcurrent, heffect, hdead⟩ := ih (c.free a)
    refine ⟨hcurrent, heffect, fun r => ?_⟩
    rw [List.foldl_cons, hdead, List.mem_cons, free, List.mem_cons]
    tauto

theorem foldl_produce (position : Nat) (resources : List Nat) (c : Cursor) :
    (resources.foldl (fun c r => c.produce position r) c).lastEffect = c.lastEffect ∧
      (∀ r, (resources.foldl (fun c r => c.produce position r) c).current[r]? =
        if r ∈ resources then some position else c.current[r]?) ∧
      ∀ r, r ∈ (resources.foldl (fun c r => c.produce position r) c).dead ↔ r ∉ resources ∧ r ∈ c.dead := by
  induction resources generalizing c with
  | nil => exact ⟨rfl, fun r => by simp, fun r => by simp⟩
  | cons a resources ih =>
    obtain ⟨heffect, hcurrent, hdead⟩ := ih (c.produce position a)
    refine ⟨heffect, fun r => ?_, fun r => ?_⟩
    · rw [List.foldl_cons, hcurrent, produce, BTreeMap.get_insert]
      by_cases hr : r = a <;> by_cases hmem : r ∈ resources <;> simp [hr, hmem]
    · rw [List.foldl_cons, hdead, produce, List.mem_filter, List.mem_cons, not_or]
      simp only [ne_eq, decide_not, Bool.not_eq_true', decide_eq_false_iff_not]
      tauto

/-- An ordered effect does not come before one that was executed. -/
def Enters (done : List OperationNode) (n : OperationNode) : Prop :=
  orderedEffect n.operation = true → ∀ e ∈ (effects done).getLast?, e ≤ n.position

theorem Follows.enter_iff (h : Follows c done) : (∃ d, c.enter n = some d) ↔ Enters done n := by
  unfold enter OperationNode.orderedRange Enters
  rw [h.lastEffect]
  by_cases heffect : orderedEffect n.operation
  · cases hlast : (effects done).getLast? with
    | none => simp [heffect]
    | some e => simp [heffect]
  · simp [heffect]

theorem Follows.enter (h : Follows c done) (hd : c.enter n = some d) :
    d.current = c.current ∧ d.dead = c.dead ∧ d.lastEffect = (effects (done ++ [n])).getLast? := by
  unfold Cursor.enter OperationNode.orderedRange at hd
  rw [effects_append]
  by_cases heffect : orderedEffect n.operation
  · simp only [heffect, if_true] at hd ⊢
    rw [List.getLast?_append, List.getLast?_singleton, Option.some_or]
    split at hd
    · split at hd
      · cases hd
      · cases hd
        exact ⟨rfl, rfl, rfl⟩
    · cases hd
      exact ⟨rfl, rfl, rfl⟩
  · simp only [heffect] at hd ⊢
    cases hd
    exact ⟨rfl, rfl, h.lastEffect⟩

theorem Follows.next (h : Follows c done) (hd : c.enter n = some d) : Follows (d.leave n) (done ++ [n]) := by
  obtain ⟨hcurrent, hdead, heffect⟩ := h.enter hd
  obtain ⟨hfcurrent, hfeffect, hfdead⟩ := foldl_free n.freed d
  obtain ⟨hpeffect, hpcurrent, hpdead⟩ := foldl_produce n.position n.produced (n.freed.foldl free d)
  refine ⟨fun r => ?_, fun r => ?_, ?_⟩
  · rw [leave, hpcurrent, hfcurrent, hcurrent, h.current, lastProducer_append]
  · rw [leave, hpdead, hfdead, hdead, h.dead, stale_append]
  · rw [leave, hpeffect, hfeffect, heffect]

/-- The operation may follow on those that were executed. -/
structure Fits (ps : Producers) (done : List OperationNode) (n : OperationNode) : Prop where
  enters : Enters done n
  live : ∀ r ∈ n.read, ¬ Stale done r
  expected : ∀ r ∈ n.read, lastProducer done r = ps.expected r n.position

theorem Follows.fits_iff (h : Follows c done) (ps : Producers) :
    Fits ps done n ↔ ∃ d, c.enter n = some d ∧ n.read.all (d.readable ps n) = true := by
  have hread : ∀ d, c.enter n = some d →
      (n.read.all (d.readable ps n) = true ↔ ∀ r ∈ n.read, ¬ Stale done r ∧ lastProducer done r = ps.expected r n.position) := by
    intro d hd
    obtain ⟨hcurrent, hdead, -⟩ := h.enter hd
    rw [List.all_eq_true]
    refine forall₂_congr fun r _ => ?_
    rw [readable, Bool.and_eq_true, beq_iff_eq, decide_eq_true_eq, hdead, h.dead, hcurrent, h.current]
  constructor
  · intro hfits
    obtain ⟨d, hd⟩ := h.enter_iff.mpr hfits.enters
    exact ⟨d, hd, (hread d hd).mpr fun r hr => ⟨hfits.live r hr, hfits.expected r hr⟩⟩
  · rintro ⟨d, hd, hall⟩
    have hok := (hread d hd).mp hall
    exact ⟨h.enter_iff.mp ⟨d, hd⟩, fun r hr => (hok r hr).1, fun r hr => (hok r hr).2⟩

theorem Follows.check_iff (h : Follows c done) (ps : Producers) (order : List OperationNode) :
    check ps c order = true ↔ ∀ pre n post, order = pre ++ n :: post → Fits ps (done ++ pre) n := by
  induction order generalizing c done with
  | nil => simp [check]
  | cons n order ih =>
    rw [check]
    constructor
    · intro hcheck pre m post hsplit
      cases hd : c.enter n with
      | none => rw [hd] at hcheck; cases hcheck
      | some d =>
        rw [hd, Bool.and_eq_true] at hcheck
        cases pre with
        | nil =>
          obtain ⟨rfl, rfl⟩ := List.cons.inj hsplit
          rw [List.append_nil]
          exact (h.fits_iff ps).mpr ⟨d, hd, hcheck.1⟩
        | cons x pre =>
          obtain ⟨rfl, rfl⟩ := List.cons.inj hsplit
          have hrest := (ih (h.next hd)).mp hcheck.2 pre m post rfl
          rwa [List.append_assoc] at hrest
    · intro hall
      have hfirst := hall [] n order rfl
      rw [List.append_nil] at hfirst
      obtain ⟨d, hd, hread⟩ := (h.fits_iff ps).mp hfirst
      rw [hd]
      refine Bool.and_eq_true_iff.mpr ⟨hread, (ih (h.next hd)).mpr fun pre m post hsplit => ?_⟩
      have hrest := hall (n :: pre) m post (hsplit ▸ rfl)
      rwa [List.append_assoc]

theorem follows_empty : Follows ⟨∅, [], none⟩ [] := by
  refine ⟨fun r => BTreeMap.get_empty r, fun r => ?_, rfl⟩
  simp [Stale]

theorem forall_split_append {P : List OperationNode → OperationNode → Prop} {order : List OperationNode} :
    (∀ pre m post, order ++ [n] = pre ++ m :: post → P pre m) ↔ (∀ pre m post, order = pre ++ m :: post → P pre m) ∧ P order n := by
  constructor
  · intro h
    refine ⟨fun pre m post hsplit => h pre m (post ++ [n]) ?_, h order n [] rfl⟩
    rw [hsplit, List.append_assoc, List.cons_append]
  · rintro ⟨h, hlast⟩ pre m post hsplit
    rcases List.eq_nil_or_concat post with rfl | ⟨post, x, rfl⟩
    · obtain ⟨rfl, hm⟩ := List.append_inj' hsplit rfl
      obtain rfl := List.singleton_inj.mp hm
      exact hlast
    · have hsplit' : order ++ [n] = (pre ++ m :: post) ++ [x] := by
        rw [hsplit, List.concat_eq_append, List.append_assoc, List.cons_append]
      exact h pre m post (List.append_inj' hsplit' rfl).1

theorem pairwise_effects_iff (order : List OperationNode) :
    (effects order).Pairwise (· ≤ ·) ↔ ∀ pre n post, order = pre ++ n :: post → Enters pre n := by
  induction order using List.reverseRecOn with
  | nil => simp [effects]
  | append_singleton order n ih =>
    rw [forall_split_append, ← ih, effects_append, Enters]
    by_cases heffect : orderedEffect n.operation
    · simp only [heffect, if_true, true_implies]
      rw [List.pairwise_append]
      simp only [List.pairwise_singleton, true_and, List.mem_singleton, forall_eq]
      refine and_congr_right fun hsorted => ⟨fun h e he => h e (List.mem_of_getLast? he), fun h a ha => ?_⟩
      obtain ⟨init, last, hinit⟩ := List.eq_nil_or_concat (effects order) |>.resolve_left (List.ne_nil_of_mem ha)
      rw [List.concat_eq_append] at hinit
      have hlast := h last (by rw [hinit, List.getLast?_concat]; rfl)
      rw [hinit] at ha hsorted
      rcases List.mem_append.mp ha with ha | ha
      · exact le_trans ((List.pairwise_append.mp hsorted).2.2 a ha last (List.mem_singleton_self _)) hlast
      · rwa [List.mem_singleton.mp ha]
    · simp [heffect]

end Cursor

-- The order of the program

section Program

variable {order pre post : List OperationNode} {n : OperationNode}

theorem before_eq_of_split (hnodup : (order.map OperationNode.position).Nodup) (hsplit : order = pre ++ n :: post) :
    before order n = pre := by
  have hne : ∀ m ∈ pre, decide (m.position ≠ n.position) = true := by
    intro m hm
    rw [hsplit, List.map_append, List.map_cons, List.nodup_append'] at hnodup
    refine decide_eq_true fun heq => hnodup.2.2 (List.mem_map_of_mem hm) ?_
    rw [heq]
    exact List.mem_cons_self
  rw [before, hsplit, List.takeWhile_append_of_pos hne, List.takeWhile_cons_of_neg (by simp), List.append_nil]

theorem sorted_program (hnodup : (order.map OperationNode.position).Nodup) :
    (program order).Pairwise fun a b => a.position < b.position := by
  have hle : (program order).Pairwise fun a b => a.position ≤ b.position := by
    have h := @List.pairwise_mergeSort _ (fun a b : OperationNode => decide (a.position ≤ b.position))
      (fun a b c hab hbc => decide_eq_true (le_trans (of_decide_eq_true hab) (of_decide_eq_true hbc)))
      (fun a b => by simpa using le_total a.position b.position) order
    exact h.imp of_decide_eq_true
  have hne : (program order).Pairwise fun a b => a.position ≠ b.position := by
    have hperm : (program order).map OperationNode.position |>.Nodup :=
      ((List.mergeSort_perm order _).map _).nodup_iff.mpr hnodup
    exact List.pairwise_map.mp hperm
  exact hle.imp₂ (fun _ _ hle hne => lt_of_le_of_ne hle hne) hne

theorem newest_lastProducer (hsorted : (pre ++ n :: post).Pairwise fun a b => a.position < b.position) (r : Nat) :
    Newest (fun x => ∃ m ∈ pre ++ n :: post, r ∈ m.produced ∧ m.position = x) n.position (lastProducer pre r) := by
  obtain ⟨hpre, hpost, hbelow⟩ := List.pairwise_append.mp hsorted
  have hsplit : ∀ m ∈ pre ++ n :: post, m.position < n.position → m ∈ pre := by
    intro m hm hlt
    rcases List.mem_append.mp hm with hm | hm
    · exact hm
    · rcases List.mem_cons.mp hm with rfl | hm
      · exact absurd hlt (lt_irrefl _)
      · exact absurd hlt (lt_asymm ((List.pairwise_cons.mp hpost).1 m hm))
  rw [lastProducer]
  cases hlast : (pre.filter fun m => r ∈ m.produced).getLast? with
  | none =>
    rintro x ⟨m, hm, hr, rfl⟩
    refine not_lt.mp fun hlt => ?_
    have hmem : m ∈ pre.filter fun m => r ∈ m.produced := List.mem_filter.mpr ⟨hsplit m hm hlt, decide_eq_true hr⟩
    rw [List.getLast?_eq_none_iff.mp hlast] at hmem
    cases hmem
  | some m =>
    obtain ⟨hm, hr⟩ := List.mem_filter.mp (List.mem_of_getLast? hlast)
    refine ⟨⟨m, List.mem_append_left _ hm, of_decide_eq_true hr, rfl⟩, hbelow m hm n List.mem_cons_self, ?_⟩
    rintro x ⟨y, hy, hyr, rfl⟩ hlt
    have hmem : y ∈ pre.filter fun m => r ∈ m.produced := List.mem_filter.mpr ⟨hsplit y hy hlt, decide_eq_true hyr⟩
    obtain ⟨init, hinit⟩ := List.getLast?_eq_some_iff.mp hlast
    have hfilter := hpre.filter fun m => decide (r ∈ m.produced)
    rw [hinit] at hmem hfilter
    rcases List.mem_append.mp hmem with hmem | hmem
    · exact le_of_lt ((List.pairwise_append.mp hfilter).2.2 y hmem m (List.mem_singleton_self m))
    · rw [List.mem_singleton.mp hmem]

theorem expected_eq_version (hnodup : (order.map OperationNode.position).Nodup) (hn : n ∈ order) (r : Nat) :
    (Producers.ofOrder order).sorted.expected r n.position = version (program order) n r := by
  have hperm : (program order).Perm order := List.mergeSort_perm order _
  obtain ⟨pre, post, hsplit⟩ := List.append_of_mem (hperm.mem_iff.mpr hn)
  have hbefore : before (program order) n = pre :=
    before_eq_of_split ((hperm.map _).nodup_iff.mpr hnodup) hsplit
  have hsorted := sorted_program hnodup
  rw [hsplit] at hsorted
  have hnewest := (newest_lastProducer hsorted r).congr (T := fun x => ∃ m ∈ order, r ∈ m.produced ∧ m.position = x) fun x => by
    simp only [← hsplit, hperm.mem_iff]
  rw [version, hbefore]
  exact (Producers.newest_expected order r n.position).unique hnewest

theorem isValidExecutionOrder_iff_of_nodup (hnodup : (order.map OperationNode.position).Nodup) :
    isValidExecutionOrder order = true ↔
      (∀ n ∈ order, ∀ r ∈ n.read, version order n r = version (program order) n r) ∧
      (∀ n ∈ order, ∀ r ∈ n.read, ¬ Stale (before order n) r) ∧ (effects order).Pairwise (· < ·) := by
  have hstrict : (effects order).Pairwise (· < ·) ↔ (effects order).Pairwise (· ≤ ·) := by
    refine ⟨fun h => h.imp le_of_lt, fun h => ?_⟩
    have hne : (effects order).Nodup := hnodup.sublist (List.filter_sublist.map _)
    exact h.imp₂ (fun _ _ hle hne => lt_of_le_of_ne hle hne) hne
  rw [isValidExecutionOrder, Cursor.follows_empty.check_iff, hstrict, Cursor.pairwise_effects_iff]
  constructor
  · intro hfits
    have hat : ∀ n ∈ order, Cursor.Fits (Producers.ofOrder order).sorted (before order n) n := by
      intro n hn
      obtain ⟨pre, post, hsplit⟩ := List.append_of_mem hn
      rw [before_eq_of_split hnodup hsplit]
      exact hfits pre n post hsplit
    refine ⟨fun n hn r hr => ?_, fun n hn => (hat n hn).live, fun pre n post hsplit => (hfits pre n post hsplit).enters⟩
    rw [← expected_eq_version hnodup hn]
    exact (hat n hn).expected r hr
  · rintro ⟨hversion, hlive, henters⟩ pre n post hsplit
    have hn : n ∈ order := hsplit ▸ List.mem_append_right _ List.mem_cons_self
    have hbefore := before_eq_of_split hnodup hsplit
    refine ⟨henters pre n post hsplit, fun r hr => ?_, fun r hr => ?_⟩
    · rw [List.nil_append, ← hbefore]
      exact hlive n hn r hr
    · rw [expected_eq_version hnodup hn, List.nil_append, ← hbefore]
      exact hversion n hn r hr

end Program

/-- Some operations of a program, in an order of their own. -/
def listed (operations : List OperationIr) (positions : List (Fin operations.length)) : List OperationNode :=
  positions.map fun position : Fin operations.length => ⟨operations[position], position⟩

theorem isValidExecutionOrder_iff (operations : List OperationIr) (positions : List (Fin operations.length))
    (h : positions.Nodup) :
    isValidExecutionOrder (listed operations positions) = true ↔
      (∀ n ∈ listed operations positions, ∀ r ∈ n.read,
        version (listed operations positions) n r = version (program (listed operations positions)) n r) ∧
      (∀ n ∈ listed operations positions, ∀ r ∈ n.read, ¬ Stale (before (listed operations positions) n) r) ∧
      (effects (listed operations positions)).Pairwise (· < ·) := by
  refine isValidExecutionOrder_iff_of_nodup ?_
  rw [listed, List.map_map]
  exact h.map Fin.val_injective

/-- The second of two operations reads what the first one produces. -/
theorem isValidExecutionOrder_iff_two :
    isValidExecutionOrder (listed [⟨.other, [], [⟨1, .notInit⟩]⟩, ⟨.other, [⟨1, .readWrite⟩], [⟨2, .notInit⟩]⟩] [0, 1]) = true ↔
      (∀ n ∈ listed [⟨.other, [], [⟨1, .notInit⟩]⟩, ⟨.other, [⟨1, .readWrite⟩], [⟨2, .notInit⟩]⟩] [0, 1], ∀ r ∈ n.read,
        version (listed [⟨.other, [], [⟨1, .notInit⟩]⟩, ⟨.other, [⟨1, .readWrite⟩], [⟨2, .notInit⟩]⟩] [0, 1]) n r =
          version (program (listed [⟨.other, [], [⟨1, .notInit⟩]⟩, ⟨.other, [⟨1, .readWrite⟩], [⟨2, .notInit⟩]⟩] [0, 1])) n r) ∧
      (∀ n ∈ listed [⟨.other, [], [⟨1, .notInit⟩]⟩, ⟨.other, [⟨1, .readWrite⟩], [⟨2, .notInit⟩]⟩] [0, 1], ∀ r ∈ n.read,
        ¬ Stale (before (listed [⟨.other, [], [⟨1, .notInit⟩]⟩, ⟨.other, [⟨1, .readWrite⟩], [⟨2, .notInit⟩]⟩] [0, 1]) n) r) ∧
      (effects (listed [⟨.other, [], [⟨1, .notInit⟩]⟩, ⟨.other, [⟨1, .readWrite⟩], [⟨2, .notInit⟩]⟩] [0, 1])).Pairwise (· < ·) :=
  isValidExecutionOrder_iff _ _ (by decide)

end Ruda.Fusion
