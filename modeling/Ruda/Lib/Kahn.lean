import Ruda.Lib.Acyclic
import Ruda.Lib.Machine

/-!
# Linearizing a finite graph

Kahn's algorithm over the nodes `0..n`: every node counts the dependencies it still waits
for, and the nodes that wait for none are emitted in whatever order their container gives
them out. The loop ends, no counter underflows, and it emits every node exactly when the
dependencies have no cycle.
-/

namespace Ruda

/-- A node is related to the nodes it depends on. -/
def DependsOn (deps : Nat → Finset Nat) (i j : Nat) : Prop := j ∈ deps i

variable {n : Nat} {deps : Nat → Finset Nat}

/-- A container of nodes, by what it holds and what may be taken out of it. -/
structure Bag (Q : Type) where
  empty : Q
  push : Q → Nat → Q
  pop : Q → Option (Nat × Q)
  contents : Q → List Nat
  contents_empty : contents empty = []
  contents_push : ∀ (q : Q) (i : Nat), (contents (push q i)).Perm (i :: contents q)
  pop_none : ∀ (q : Q), pop q = none → contents q = []
  pop_some : ∀ (q q' : Q) (i : Nat), pop q = some (i, q') → (contents q).Perm (i :: contents q')

namespace Bag

/-- `collect` -/
def collect {Q : Type} (B : Bag Q) (nodes : List Nat) : Q := nodes.foldl B.push B.empty

theorem contents_foldl {Q : Type} (B : Bag Q) (nodes : List Nat) (q : Q) :
    (B.contents (nodes.foldl B.push q)).Perm (nodes ++ B.contents q) := by
  induction nodes generalizing q with
  | nil => exact List.Perm.refl _
  | cons i nodes ih =>
    calc B.contents (nodes.foldl B.push (B.push q i))
      _ |>.Perm (nodes ++ B.contents (B.push q i)) := ih _
      _ |>.Perm (nodes ++ i :: B.contents q) := (B.contents_push q i).append_left nodes
      _ |>.Perm (i :: nodes ++ B.contents q) := List.perm_middle

theorem contents_collect {Q : Type} (B : Bag Q) (nodes : List Nat) : (B.contents (B.collect nodes)).Perm nodes := by
  have h := B.contents_foldl nodes B.empty
  rwa [B.contents_empty, List.append_nil] at h

end Bag

/-- The counters, the nodes that wait for none and the nodes emitted so far. -/
structure Kahn (Q : Type) where
  pending : List Nat
  ready : Q
  order : List Nat

namespace Kahn

variable {Q : Type} (B : Bag Q) (dependents : Nat → List Nat)

/-- One dependency less for a node. -/
def release (s : Kahn Q) (k : Nat) : Kahn Q :=
  let pending := s.pending.modify k fun count => wrapSub count 1
  { s with pending, ready := if pending[k]? = some 0 then B.push s.ready k else s.ready }

def emit (s : Kahn Q) (i : Nat) (ready : Q) : Kahn Q :=
  (dependents i).foldl (release B) { s with ready, order := s.order ++ [i] }

/-- `while let Some(i) = ready.pop()`, with `none` where the fuel runs out. -/
def run : (fuel : Nat) → Kahn Q → Option (Kahn Q)
  | 0, _ => none
  | fuel + 1, s =>
    match B.pop s.ready with
    | none => some s
    | some (i, ready) => run fuel (emit B dependents s i ready)

def start (counts : List Nat) : Kahn Q where
  pending := counts
  ready := B.collect ((List.range counts.length).filter fun i => counts[i]? = some 0)
  order := []

-- One node

variable {B} {dependents} {s : Kahn Q}

theorem modify_counts {c : Nat → Nat} {k : Nat} (f : Nat → Nat) :
    ((List.range n).map c).modify k f = (List.range n).map (Function.update c k (f (c k))) := by
  refine List.ext_getElem? fun i => ?_
  rw [List.getElem?_modify, List.getElem?_map, List.getElem?_map]
  rcases Nat.lt_or_ge i n with hi | hi
  · by_cases h : k = i
    · subst h
      simp [hi]
    · simp [hi, h, Function.update_of_ne (Ne.symm h)]
  · simp [hi]

theorem foldl_release {ks : List Nat} {c : Nat → Nat} (hs : s.pending = (List.range n).map c) (hks : ks.Nodup)
    (hc : ∀ k ∈ ks, k < n ∧ 1 ≤ c k ∧ c k ≤ u64Max) :
    (ks.foldl (release B) s).order = s.order ∧
      (ks.foldl (release B) s).pending = (List.range n).map (fun k => if k ∈ ks then c k - 1 else c k) ∧
      (B.contents (ks.foldl (release B) s).ready).Perm (ks.filter (fun k => c k = 1) ++ B.contents s.ready) := by
  induction ks generalizing s c with
  | nil => simp [hs]
  | cons k ks ih =>
    obtain ⟨hk, hks⟩ := List.nodup_cons.mp hks
    obtain ⟨hkn, hpos, hmax⟩ := hc k (by simp)
    have hpending : (release B s k).pending = (List.range n).map (Function.update c k (c k - 1)) := by
      rw [release, hs, modify_counts, wrapSub_of_le hmax hpos]
    have hready : (B.contents (release B s k).ready).Perm ((if c k = 1 then [k] else []) ++ B.contents s.ready) := by
      have hget : (release B s k).pending[k]? = some (c k - 1) := by
        rw [hpending]
        simp [hkn]
      have hdef : (release B s k).ready = if (release B s k).pending[k]? = some 0 then B.push s.ready k else s.ready := rfl
      rw [hdef, hget]
      by_cases h1 : c k = 1
      · simpa [h1] using B.contents_push s.ready k
      · have h0 : c k - 1 ≠ 0 := by omega
        simp [h1, h0]
    have hne {i : Nat} (hi : i ∈ ks) : i ≠ k := fun h => hk (h ▸ hi)
    obtain ⟨horder, hrest, hcontents⟩ := ih hpending hks fun i hi => by
      rw [Function.update_of_ne (hne hi)]
      exact hc i (by simp [hi])
    refine ⟨horder, ?_, ?_⟩
    · rw [List.foldl_cons, hrest]
      refine List.map_congr_left fun i _ => ?_
      by_cases hi : i = k
      · subst hi
        simp [hk]
      · simp [hi]
    · have hfilter : ks.filter (fun i => Function.update c k (c k - 1) i = 1) = ks.filter (fun i => c i = 1) :=
        List.filter_congr fun i hi => by rw [Function.update_of_ne (hne hi)]
      rw [hfilter] at hcontents
      calc B.contents ((k :: ks).foldl (release B) s).ready
        _ |>.Perm (ks.filter (fun i => c i = 1) ++ B.contents (release B s k).ready) := hcontents
        _ |>.Perm (ks.filter (fun i => c i = 1) ++ ((if c k = 1 then [k] else []) ++ B.contents s.ready)) :=
            hready.append_left _
        _ |>.Perm ((if c k = 1 then [k] else []) ++ ks.filter (fun i => c i = 1) ++ B.contents s.ready) := by
            rw [← List.append_assoc]
            exact List.perm_append_comm.append_right _
        _ |>.Perm ((k :: ks).filter (fun i => c i = 1) ++ B.contents s.ready) := by
            by_cases h1 : c k = 1 <;> simp [h1]

-- The invariant

/-- `dependents` is the transpose of `deps`, over `n` nodes. -/
structure Transposes (n : Nat) (deps : Nat → Finset Nat) (dependents : Nat → List Nat) : Prop where
  inside : ∀ i j, j ∈ deps i → i < n ∧ j < n
  mem : ∀ i j, i ∈ dependents j ↔ j ∈ deps i
  nodup : ∀ j, (dependents j).Nodup
  /-- A counter holds the number of nodes. -/
  narrow : n ≤ u64Max

/-- Counters count what is not emitted yet, and a node is emitted or ready once all it depends on is emitted. -/
structure Inv (B : Bag Q) (n : Nat) (deps : Nat → Finset Nat) (s : Kahn Q) : Prop where
  pending : s.pending = (List.range n).map fun i => (deps i \ s.order.toFinset).card
  nodup : (s.order ++ B.contents s.ready).Nodup
  due : ∀ i, i ∈ s.order ++ B.contents s.ready ↔ i < n ∧ deps i ⊆ s.order.toFinset
  placed : ∀ i ∈ s.order, ∀ j ∈ deps i, s.order.idxOf j < s.order.idxOf i

theorem card_sdiff_append (d : Finset Nat) (order : List Nat) {i : Nat} (hi : i ∉ order) :
    (d \ (order ++ [i]).toFinset).card = if i ∈ d then (d \ order.toFinset).card - 1 else (d \ order.toFinset).card := by
  have hset : d \ (order ++ [i]).toFinset = (d \ order.toFinset).erase i := by
    ext k
    simp only [Finset.mem_sdiff, List.mem_toFinset, List.mem_append, List.mem_singleton, Finset.mem_erase]
    tauto
  rw [hset]
  split
  · next h => exact Finset.card_erase_of_mem (by simp [h, hi])
  · next h => rw [Finset.erase_eq_of_notMem (by simp [h])]

theorem subset_append_iff {d : Finset Nat} {order : List Nat} {i : Nat} (hi : i ∉ order) :
    d ⊆ (order ++ [i]).toFinset ↔ d ⊆ order.toFinset ∨ i ∈ d ∧ (d \ order.toFinset).card = 1 := by
  have hempty : d ⊆ (order ++ [i]).toFinset ↔ (d \ (order ++ [i]).toFinset).card = 0 := by
    rw [Finset.card_eq_zero, Finset.sdiff_eq_empty_iff_subset]
  have hempty' : d ⊆ order.toFinset ↔ (d \ order.toFinset).card = 0 := by
    rw [Finset.card_eq_zero, Finset.sdiff_eq_empty_iff_subset]
  rw [hempty, hempty', card_sdiff_append d order hi]
  by_cases hd : i ∈ d
  · have hpos : 0 < (d \ order.toFinset).card := Finset.card_pos.mpr ⟨i, by simp [hd, hi]⟩
    simp only [hd, if_true, true_and]
    omega
  · simp [hd]

theorem Inv.emit (ht : Transposes n deps dependents) (h : Inv B n deps s) {i : Nat} {ready : Q}
    (hpop : B.pop s.ready = some (i, ready)) : Inv B n deps (emit B dependents s i ready) := by
  have hperm := B.pop_some _ _ _ hpop
  have hnodup : (i :: (s.order ++ B.contents ready)).Nodup :=
    ((hperm.append_left s.order).trans List.perm_middle).nodup_iff.mp h.nodup
  have hi : i ∉ s.order := fun hmem => (List.nodup_cons.mp hnodup).1 (List.mem_append_left _ hmem)
  have hdue := (h.due i).mp (List.mem_append_right _ (hperm.mem_iff.mpr (by simp)))
  -- every dependent still waits for the node
  have hwaits {k : Nat} (hk : k ∈ dependents i) : 0 < (deps k \ s.order.toFinset).card :=
    Finset.card_pos.mpr ⟨i, by simp [(ht.mem k i).mp hk, hi]⟩
  obtain ⟨horder, hpending, hcontents⟩ :=
    foldl_release (B := B) (s := { s with ready, order := s.order ++ [i] }) h.pending (ht.nodup i) fun k hk => by
      refine ⟨(ht.inside k i ((ht.mem k i).mp hk)).1, hwaits hk, ?_⟩
      refine le_trans ?_ ht.narrow
      calc (deps k \ s.order.toFinset).card ≤ (Finset.range n).card :=
            Finset.card_le_card fun j hj => by
              simpa using (ht.inside k j (Finset.mem_sdiff.mp hj).1).2
        _ = n := Finset.card_range n
  rw [← Kahn.emit] at horder hpending hcontents
  set s' := Kahn.emit B dependents s i ready with hs'
  have hall : (s'.order ++ B.contents s'.ready).Perm
      ((dependents i).filter (fun k => (deps k \ s.order.toFinset).card = 1) ++ i :: (s.order ++ B.contents ready)) := by
    rw [horder]
    calc s.order ++ [i] ++ B.contents s'.ready
      _ |>.Perm (s.order ++ [i] ++ ((dependents i).filter (fun k => (deps k \ s.order.toFinset).card = 1) ++
            B.contents ready)) := hcontents.append_left _
      _ |>.Perm ((dependents i).filter (fun k => (deps k \ s.order.toFinset).card = 1) ++ (s.order ++ [i]) ++
            B.contents ready) := by
          rw [← List.append_assoc]
          exact List.perm_append_comm.append_right _
      _ |>.Perm ((dependents i).filter (fun k => (deps k \ s.order.toFinset).card = 1) ++
            i :: (s.order ++ B.contents ready)) := by
          rw [List.append_assoc, List.append_assoc]
          exact List.perm_middle.append_left _
  have hold {k : Nat} : k ∈ i :: (s.order ++ B.contents ready) ↔ k < n ∧ deps k ⊆ s.order.toFinset := by
    rw [← h.due k, ((hperm.append_left s.order).trans List.perm_middle).mem_iff]
  refine ⟨?_, ?_, fun k => ?_, ?_⟩
  · rw [hpending, horder]
    refine List.map_congr_left fun k _ => ?_
    rw [card_sdiff_append _ _ hi]
    by_cases hk : i ∈ deps k <;> simp [ht.mem, hk]
  · refine hall.nodup_iff.mpr (List.nodup_append'.mpr ⟨(ht.nodup i).filter _, hnodup, fun k hk hmem => ?_⟩)
    have hsub := (hold.mp hmem).2
    have h0 := hwaits (List.mem_filter.mp hk).1
    rw [Finset.sdiff_eq_empty_iff_subset.mpr hsub] at h0
    simp at h0
  · rw [hall.mem_iff, List.mem_append, hold, horder, subset_append_iff hi, List.mem_filter, ht.mem]
    constructor
    · rintro (⟨hd, h1⟩ | ⟨hn, hsub⟩)
      · exact ⟨(ht.inside k i hd).1, .inr ⟨hd, by simpa using h1⟩⟩
      · exact ⟨hn, .inl hsub⟩
    · rintro ⟨hn, hsub | ⟨hd, h1⟩⟩
      · exact .inr ⟨hn, hsub⟩
      · exact .inl ⟨hd, by simpa using h1⟩
  · rw [horder]
    intro k hk j hj
    rcases List.mem_append.mp hk with hk | hk
    · have hlt := h.placed k hk j hj
      have hmem : j ∈ s.order := List.idxOf_lt_length_iff.mp (hlt.trans (List.idxOf_lt_length_of_mem hk))
      rwa [List.idxOf_append_of_mem hmem, List.idxOf_append_of_mem hk]
    · rw [List.mem_singleton.mp hk] at hj ⊢
      have hmem : j ∈ s.order := List.mem_toFinset.mp (hdue.2 hj)
      rw [List.idxOf_append_of_mem hmem, List.idxOf_append_of_notMem hi]
      have hlt := List.idxOf_lt_length_of_mem hmem
      omega

theorem inv_start : Inv B n deps (start B ((List.range n).map fun i => (deps i).card)) := by
  have hcontents : (B.contents (start B ((List.range n).map fun i => (deps i).card)).ready).Perm
      ((List.range n).filter fun i => (deps i).card = 0) := by
    refine (B.contents_collect _).trans (List.Perm.of_eq ?_)
    rw [List.length_map, List.length_range]
    refine List.filter_congr fun i hi => ?_
    simp [List.mem_range.mp hi]
  refine ⟨by simp [start], ?_, fun i => ?_, by simp [start]⟩
  · rw [start, List.nil_append]
    exact hcontents.nodup_iff.mpr (List.nodup_range.filter _)
  · rw [show (start B ((List.range n).map fun i => (deps i).card)).order = [] from rfl, List.nil_append, hcontents.mem_iff]
    simp

theorem emit_order (B : Bag Q) (dependents : Nat → List Nat) (s : Kahn Q) (i : Nat) (ready : Q) :
    (Kahn.emit B dependents s i ready).order = s.order ++ [i] := by
  have horder (ks : List Nat) (t : Kahn Q) : (ks.foldl (release B) t).order = t.order := by
    induction ks generalizing t with
    | nil => rfl
    | cons k ks ih => exact ih _
  exact horder _ _

theorem run_prefix {fuel : Nat} {s' : Kahn Q} (h : Kahn.run B dependents fuel s = some s') : s.order <+: s'.order := by
  induction fuel generalizing s with
  | zero => simp [Kahn.run] at h
  | succ fuel ih =>
    rw [Kahn.run] at h
    split at h
    · rw [Option.some.inj h]
    · have hnext := ih h
      rw [emit_order] at hnext
      exact (List.prefix_append _ _).trans hnext

theorem Inv.run (ht : Transposes n deps dependents) (h : Inv B n deps s) (fuel : Nat) (hfuel : n < s.order.length + fuel) :
    ∃ s', Kahn.run B dependents fuel s = some s' ∧ Inv B n deps s' ∧ B.contents s'.ready = [] := by
  induction fuel generalizing s with
  | zero =>
    have hle : s.order.length ≤ n := by
      have hsub : s.order.toFinset ⊆ Finset.range n := fun i hi => by
        simpa using ((h.due i).mp (List.mem_append_left _ (List.mem_toFinset.mp hi))).1
      rw [← List.toFinset_card_of_nodup (h.nodup.sublist (List.sublist_append_left _ _))]
      simpa using Finset.card_le_card hsub
    omega
  | succ fuel ih =>
    cases hpop : B.pop s.ready with
    | none => exact ⟨s, by simp [Kahn.run, hpop], h, B.pop_none _ hpop⟩
    | some next =>
      have hlen : (Kahn.emit B dependents s next.1 next.2).order.length = s.order.length + 1 := by
        rw [emit_order, List.length_append, List.length_singleton]
      obtain ⟨s', hrun, hinv, hnone⟩ := ih (h.emit ht hpop) (by omega)
      exact ⟨s', by simp [Kahn.run, hpop, hrun], hinv, hnone⟩

-- The result

/-- Every node once, each after the nodes that it depends on. -/
structure Linearizes (n : Nat) (deps : Nat → Finset Nat) (order : List Nat) : Prop where
  perm : order.Perm (List.range n)
  placed : ∀ i j, j ∈ deps i → order.idxOf j < order.idxOf i

theorem Linearizes.noCycle {order : List Nat} (h : Linearizes n deps order) : NoCycle (DependsOn deps) := by
  intro i hi
  have hlt {i j : Nat} (hij : Relation.TransGen (DependsOn deps) i j) : order.idxOf j < order.idxOf i := by
    induction hij with
    | single hd => exact h.placed _ _ hd
    | tail _ hd ih => exact (h.placed _ _ hd).trans ih
  exact absurd (hlt hi) (lt_irrefl _)

theorem Inv.linearizes (ht : Transposes n deps dependents) (h : Inv B n deps s) (hlen : s.order.length = n) :
    Linearizes n deps s.order := by
  have hnodup : s.order.Nodup := h.nodup.sublist (List.sublist_append_left _ _)
  have hsub : s.order.toFinset ⊆ Finset.range n := fun i hi => by
    simpa using ((h.due i).mp (List.mem_append_left _ (List.mem_toFinset.mp hi))).1
  have hall : s.order.toFinset = Finset.range n :=
    Finset.eq_of_subset_of_card_le hsub (by rw [List.toFinset_card_of_nodup hnodup, hlen, Finset.card_range])
  have hmem (i : Nat) : i ∈ s.order ↔ i < n := by
    rw [← List.mem_toFinset, hall, Finset.mem_range]
  refine ⟨(List.perm_ext_iff_of_nodup hnodup List.nodup_range).mpr fun i => by rw [hmem, List.mem_range], ?_⟩
  intro i j hd
  exact h.placed i ((hmem i).mpr (ht.inside i j hd).1) j hd

theorem Inv.length_eq_iff (ht : Transposes n deps dependents) (h : Inv B n deps s) (hend : B.contents s.ready = []) :
    s.order.length = n ↔ NoCycle (DependsOn deps) := by
  have hnodup : s.order.Nodup := h.nodup.sublist (List.sublist_append_left _ _)
  have hdue (i : Nat) : i ∈ s.order ↔ i < n ∧ deps i ⊆ s.order.toFinset := by
    rw [← h.due i, hend, List.append_nil]
  have hsub : s.order.toFinset ⊆ Finset.range n := fun i hi => by
    simpa using ((hdue i).mp (List.mem_toFinset.mp hi)).1
  rw [← List.toFinset_card_of_nodup hnodup]
  constructor
  · intro hlen
    exact (h.linearizes ht (by rwa [← List.toFinset_card_of_nodup hnodup])).noCycle
  · intro hcycle
    by_contra hne
    have hleft : (Finset.range n \ s.order.toFinset).Nonempty := by
      rw [Finset.sdiff_nonempty]
      intro hle
      exact hne (by rw [Finset.Subset.antisymm hsub hle, Finset.card_range])
    obtain ⟨i, hi, hfree⟩ := hcycle.exists_free hleft
    rw [Finset.mem_sdiff, Finset.mem_range, List.mem_toFinset] at hi
    refine hi.2 ((hdue i).mpr ⟨hi.1, fun j hj => ?_⟩)
    by_contra hout
    exact hfree j hj (by simpa using ⟨(ht.inside i j hj).2, by simpa using hout⟩)

end Kahn

end Ruda
