import Ruda.Lib.Cycle
import Ruda.Lib.Machine
import Ruda.Lib.ShortestPath

/-!
# Rings of ranks and times of transfers

A translation of the planning of rings and of the shortest transfers of `rank/topology.rs`. A
matrix of links is a function of two ranks, and the ranks that a search used are those of its
order.
-/

namespace Ruda.Topology

structure LinkCost where
  bandwidthMbps : UInt64
  latencyNs : UInt64
  deriving DecidableEq

structure TopologyLink where
  firstRank : Nat
  secondRank : Nat
  bandwidthMbps : UInt64
  latencyNs : UInt64

inductive TopologyError
  | emptyWorld
  | rankOutOfRange (rank worldSize : Nat)
  | selfLink (rank : Nat)
  | zeroBandwidth (firstRank secondRank : Nat)
  | invalidRing (message : String)
  deriving DecidableEq

structure CollectiveTopology where
  worldSize : Nat
  links : Nat → Nat → Option LinkCost
  railLinks : List (Nat → Nat → Option LinkCost)
  nonempty : 0 < worldSize
  symmetric : ∀ a b, links a b = links b a
  irreflexive : ∀ a, links a a = none

namespace CollectiveTopology

def empty (worldSize : UInt32) : Except TopologyError CollectiveTopology :=
  if h : worldSize.toNat = 0 then .error .emptyWorld
  else .ok ⟨worldSize.toNat, fun _ _ => none, [], Nat.pos_of_ne_zero h, fun _ _ => rfl, fun _ => rfl⟩

variable (t : CollectiveTopology)

def validateRank (rank : Nat) : Except TopologyError Unit :=
  if rank ≥ t.worldSize then .error (.rankOutOfRange rank t.worldSize) else .ok ()

def joins (link : TopologyLink) (a b : Nat) : Prop :=
  a = link.firstRank ∧ b = link.secondRank ∨ a = link.secondRank ∧ b = link.firstRank

instance (link : TopologyLink) (a b : Nat) : Decidable (joins link a b) := inferInstanceAs (Decidable (_ ∨ _))

def addLink (link : TopologyLink) : Except TopologyError CollectiveTopology := do
  t.validateRank link.firstRank
  t.validateRank link.secondRank
  if h : link.firstRank = link.secondRank then .error (.selfLink link.firstRank)
  else if link.bandwidthMbps = 0 then .error (.zeroBandwidth link.firstRank link.secondRank)
  else
    .ok { t with
      links := fun a b => if joins link a b then some ⟨link.bandwidthMbps, link.latencyNs⟩ else t.links a b
      symmetric := fun a b => by rw [t.symmetric a b]; exact if_congr (by unfold joins; tauto) rfl rfl
      irreflexive := fun a => by rw [if_neg (by unfold joins; omega), t.irreflexive] }

def link (first second : Nat) : Option LinkCost := t.links first second

def linkOnRail (first second rail : Nat) : Option LinkCost :=
  (t.railLinks[rail]?.bind fun links => links first second).or (t.link first second)

-- The score of a ring

def validateRanks (worldSize : Nat) : (seen : List Nat) → List Nat → Except TopologyError Unit
  | _, [] => .ok ()
  | seen, rank :: order =>
    if rank ≥ worldSize then .error (.rankOutOfRange rank worldSize)
    else if rank ∈ seen then .error (.invalidRing s!"rank {rank} appears more than once")
    else validateRanks worldSize (rank :: seen) order

def validateRingOrder (worldSize : Nat) (order : List Nat) : Except TopologyError Unit :=
  if worldSize = 0 then .error .emptyWorld
  else if order.length ≠ worldSize then .error (.invalidRing s!"contains {order.length} ranks, expected {worldSize}")
  else validateRanks worldSize [] order

end CollectiveTopology

structure RingScore where
  bottleneck : Nat
  totalBandwidth : Nat
  inverseLatency : Nat
  deriving DecidableEq

/-- Scores are compared field by field. -/
def RingScore.key (s : RingScore) : Nat ×ₗ Nat ×ₗ Nat := toLex (s.bottleneck, toLex (s.totalBandwidth, s.inverseLatency))

theorem RingScore.key_injective : Function.Injective RingScore.key := by
  rintro ⟨a, b, c⟩ ⟨a', b', c'⟩ h
  obtain ⟨ha, h⟩ := Prod.mk.inj (toLex.injective h)
  obtain ⟨hb, hc⟩ := Prod.mk.inj (toLex.injective h)
  rw [RingScore.mk.injEq]
  exact ⟨ha, hb, hc⟩

instance : LinearOrder RingScore := LinearOrder.lift' RingScore.key RingScore.key_injective

def u128Max : Nat := 2 ^ 128 - 1

namespace CollectiveTopology

variable (t : CollectiveTopology)

structure Totals where
  bottleneck : Nat
  bandwidth : Nat
  latency : Nat

/-- The edges of a ring go from each position to the next one. -/
def addEdge (s : Totals) (edge : Nat × Nat) : Except TopologyError Totals :=
  match t.link edge.1 edge.2 with
  | none => .error (.invalidRing s!"ring edge {edge.1}-{edge.2} is not connected")
  | some cost => .ok ⟨min s.bottleneck cost.bandwidthMbps.toNat, s.bandwidth + cost.bandwidthMbps.toNat, s.latency + cost.latencyNs.toNat⟩

def ringScore (order : List Nat) : Except TopologyError RingScore := do
  validateRingOrder t.worldSize order
  let totals ← (cycleEdges order).foldlM t.addEdge ⟨u64Max, 0, 0⟩
  pure ⟨totals.bottleneck, totals.bandwidth, u128Max - totals.latency⟩

-- The search for rings

/-- All rings that begin with the order, with `left` ranks to come. -/
def collectRings : (left : Nat) → (order : List Nat) → List (List Nat)
  | 0, order =>
    if (t.link (order.getLastD 0) (order.headD 0)).isNone then []
    else if order ≤ turned order then [order] else []
  | left + 1, order =>
    ((List.range' 1 (t.worldSize - 1)).filter fun candidate =>
      candidate ∉ order ∧ (t.link (order.getLastD 0) candidate).isSome).flatMap fun candidate =>
        collectRings left (order ++ [candidate])

/-- The best link to a rank that is not used; of equal ones, `max_by_key` takes the last. -/
def nextRank (order : List Nat) : Option Nat :=
  ((((List.range t.worldSize).filter fun rank => rank ∉ order).filterMap fun rank =>
    (t.link (order.getLastD 0) rank).map fun cost => (rank, cost)).reverse.argmax fun (rank, cost) =>
      (toLex (cost.bandwidthMbps.toNat, toLex (u64Max - cost.latencyNs.toNat, 2 ^ 32 - 1 - rank)) : Nat ×ₗ Nat ×ₗ Nat)).map Prod.fst

def greedyOrder : (left : Nat) → (order : List Nat) → Option (List Nat)
  | 0, order => some order
  | left + 1, order =>
    match t.nextRank order with
    | none => none
    | some next => greedyOrder left (order ++ [next])

def rotateRingToZero (order : List Nat) : List Nat :=
  let order := match order.findIdx? (· = 0) with
    | some position => order.rotate position
    | none => order
  let reversed := 0 :: (order.drop 1).reverse
  if reversed < order then reversed else order

def greedyRing (start : Nat) : Option (List Nat) :=
  match t.greedyOrder (t.worldSize - 1) [start] with
  | none => none
  | some order => if (t.link (order.getLastD 0) (order.headD 0)).isNone then none else some (rotateRingToZero order)

def greedyRings : List (List Nat) :=
  (List.range t.worldSize).foldl (fun candidates start =>
    match t.greedyRing start with
    | some order => if order ∈ candidates then candidates else candidates ++ [order]
    | none => candidates) []

-- The selection of rings

abbrev EdgeUsage := Nat → Nat → Nat

abbrev RingKey := Nat ×ₗ Nat ×ₗ RingScore

def usageOf (usage : EdgeUsage) (order : List Nat) : Nat × Nat :=
  (cycleEdges order).foldl (fun s edge => (max s.1 (usage edge.1 edge.2), min (s.2 + usage edge.1 edge.2) u64Max)) (0, 0)

def ringKey (usage : EdgeUsage) (order : List Nat) : Except TopologyError RingKey := do
  let score ← t.ringScore order
  pure (toLex (2 ^ 16 - 1 - (usageOf usage order).1, toLex (u64Max - (usageOf usage order).2, score)))

def bestRing (usage : EdgeUsage) : (index : Nat) → (best : Option (RingKey × Nat)) → List (List Nat) →
    Except TopologyError (Option (RingKey × Nat))
  | _, best, [] => .ok best
  | index, best, order :: candidates => do
    let key ← t.ringKey usage order
    bestRing usage (index + 1) (match best with
      | some (current, i) => if key > current then some (key, index) else some (current, i)
      | none => some (key, index)) candidates

def addUsage (usage : EdgeUsage) (first second : Nat) : EdgeUsage := fun a b =>
  if a = first ∧ b = second then min (usage a b + 1) (2 ^ 16 - 1) else usage a b

def useRing (usage : EdgeUsage) (order : List Nat) : EdgeUsage :=
  (cycleEdges order).foldl (fun usage edge => addUsage (addUsage usage edge.1 edge.2) edge.2 edge.1) usage

def selectRings (maximum : Nat) : (n : Nat) → (candidates : List (List Nat)) → EdgeUsage → (selected : List (List Nat)) →
    Except TopologyError (List (List Nat))
  | 0, _, _, selected => .ok selected
  | n + 1, candidates, usage, selected =>
    if selected.length < maximum ∧ candidates ≠ [] then do
      let best ← t.bestRing usage 0 none candidates
      let index := (best.map Prod.snd).getD 0
      match candidates[index]? with
      | none => .ok selected
      | some order => selectRings maximum n (candidates.eraseIdx index) (useRing usage order) (selected ++ [order])
    else .ok selected

def selectDiverseRings (candidates : List (List Nat)) (maximum : Nat) : Except TopologyError (List (List Nat)) :=
  if candidates = [] then .error (.invalidRing "topology does not contain a closed rank ring")
  else
    let candidates := (candidates.mergeSort fun a b => a ≤ b).destutter (· ≠ ·)
    t.selectRings maximum candidates.length candidates (fun _ _ => 0) []

def exactRingSearchMaxRanks : Nat := 9

def bestRingOrders (maximum : Nat) : Except TopologyError (List (List Nat)) :=
  if maximum = 0 then .ok []
  else if t.worldSize = 1 then .ok [[0]]
  else if t.worldSize ≤ exactRingSearchMaxRanks then t.selectDiverseRings (t.collectRings (t.worldSize - 1) [0]) maximum
  else t.selectDiverseRings t.greedyRings maximum

-- Shortest transfers

def transferTimeNsU128 (bytes bandwidthMbps : Nat) : Nat :=
  min (min (bytes * 1000) u128Max + (bandwidthMbps - 1)) u128Max / bandwidthMbps

def transferTimeNs (bytes bandwidthMbps : Nat) : Nat := min (transferTimeNsU128 bytes bandwidthMbps) u64Max

def linkTransferTimeNs (cost : LinkCost) (bytes : Nat) : Nat :=
  min (cost.latencyNs.toNat + transferTimeNs bytes cost.bandwidthMbps.toNat) u64Max

structure Search where
  distances : Nat → Nat
  visited : Nat → Bool

def linkFor (rail : Option Nat) (current next : Nat) : Option LinkCost :=
  match rail with
  | some rail => t.linkOnRail current next rail
  | none => t.links current next

def relax (bytes : Nat) (rail : Option Nat) (current : Nat) (s : Search) (next : Nat) : Search :=
  if s.visited next then s
  else
    match t.linkFor rail current next with
    | none => s
    | some cost =>
      let candidate := min (s.distances current + linkTransferTimeNs cost bytes) u64Max
      { s with distances := fun v => if v = next then min (s.distances next) candidate else s.distances v }

def visit (s : Search) (current : Nat) : Search := { s with visited := fun v => if v = current then true else s.visited v }

def distanceTo (s : Search) (destination : Nat) : Option Nat :=
  if s.distances destination ≠ u64Max then some (s.distances destination) else none

def searchFrom (bytes : Nat) (rail : Option Nat) (destination : Nat) : (n : Nat) → Search → Option Nat
  | 0, s => distanceTo s destination
  | n + 1, s =>
    match ((List.range t.worldSize).filter fun rank => !s.visited rank).argmin s.distances with
    | none => none
    | some current =>
      if s.distances current = u64Max then distanceTo s destination
      else if current = destination then some (s.distances current)
      else searchFrom bytes rail destination n ((List.range t.worldSize).foldl (t.relax bytes rail current) (visit s current))

def shortestTransferTimeNsForRail (source destination bytes : Nat) (rail : Option Nat) : Option Nat :=
  if source = destination then some 0
  else t.searchFrom bytes rail destination t.worldSize ⟨fun v => if v = source then 0 else u64Max, fun _ => false⟩

def shortestTransferTimeNs (source destination bytes : Nat) : Option Nat :=
  t.shortestTransferTimeNsForRail source destination bytes none

-- Shortest paths

open ShortestPath

/-- The links that a search follows, with their transfer times. -/
def edge (bytes : Nat) (rail : Option Nat) (u v : Nat) : Option Nat :=
  if u < t.worldSize ∧ v < t.worldSize then (t.linkFor rail u v).map fun cost => linkTransferTimeNs cost bytes else none

variable {t} {bytes source destination : Nat} {rail : Option Nat} {s : Search}

theorem relax_range (hcurrent : s.visited current = true) (k : Nat) :
    ((List.range k).foldl (t.relax bytes rail current) s).visited = s.visited ∧
    ∀ v, ((List.range k).foldl (t.relax bytes rail current) s).distances v =
      if v < k ∧ s.visited v = false then
        match t.linkFor rail current v with
        | some cost => min (s.distances v) (min u64Max (s.distances current + linkTransferTimeNs cost bytes))
        | none => s.distances v
      else s.distances v := by
  induction k with
  | zero => exact ⟨rfl, fun v => (if_neg (by omega)).symm⟩
  | succ k ih =>
    obtain ⟨hvisited, hdistances⟩ := ih
    have hown : ((List.range k).foldl (t.relax bytes rail current) s).distances current = s.distances current := by
      rw [hdistances, if_neg (by simp [hcurrent])]
    rw [List.range_succ, List.foldl_append, List.foldl_cons, List.foldl_nil]
    generalize (List.range k).foldl (t.relax bytes rail current) s = s' at hvisited hdistances hown
    rw [relax, hvisited]
    split
    · next hk =>
      refine ⟨hvisited, fun v => (hdistances v).trans (if_congr ?_ rfl rfl)⟩
      constructor
      · exact fun ⟨hlt, hv⟩ => ⟨by omega, hv⟩
      · rintro ⟨hlt, hv⟩
        refine ⟨lt_of_le_of_ne (Nat.le_of_lt_succ hlt) ?_, hv⟩
        rintro rfl
        exact absurd (hk.symm.trans hv) Bool.true_eq_false.mp
    · next hk =>
      have hk : s.visited k = false := Bool.eq_false_iff.mpr hk
      have hsame (v : Nat) (hv : v ≠ k) : (v < k + 1 ∧ s.visited v = false) ↔ (v < k ∧ s.visited v = false) :=
        and_congr_left fun _ => by omega
      split
      · next hlink =>
        refine ⟨hvisited, fun v => ?_⟩
        rw [hdistances]
        by_cases hv : v = k
        · subst hv
          rw [if_neg (by omega), if_pos ⟨Nat.lt_succ_self v, hk⟩, hlink]
        · exact if_congr (hsame v hv).symm rfl rfl
      · next cost hlink =>
        refine ⟨rfl, fun v => ?_⟩
        by_cases hv : v = k
        · subst hv
          dsimp only
          rw [if_pos rfl, if_pos ⟨Nat.lt_succ_self v, hk⟩, hlink, hown, hdistances v, if_neg (by omega), min_comm (_ + _)]
        · dsimp only
          rw [if_neg hv, hdistances]
          exact if_congr (hsame v hv).symm rfl rfl

/-- A path leads to ranks. -/
theorem path_lt (hsource : source < t.worldSize) {v c : Nat} (h : Path (t.edge bytes rail) u64Max source v c) : v < t.worldSize := by
  cases h with
  | here => exact hsource
  | @step u _ _ _ _ hedge =>
    rw [edge] at hedge
    split at hedge
    · next h => exact h.2
    · cases hedge

/-- The least time of a path, unless it is at the cap. -/
def IsShortest (t : CollectiveTopology) (bytes : Nat) (rail : Option Nat) (source destination r : Nat) : Prop :=
  r < u64Max ∧ IsLeast {c | Path (t.edge bytes rail) u64Max source destination c} r

theorem searchFrom_eq_some (hsource : source < t.worldSize) (hdestination : destination < t.worldSize) {n : Nat} {s : Search}
    (h : Settles (t.edge bytes rail) u64Max source s.distances fun v => s.visited v = true)
    (hleft : s.visited destination = false) (hn : ((List.range t.worldSize).filter fun rank => !s.visited rank).length = n) (r : Nat) :
    t.searchFrom bytes rail destination n s = some r ↔ IsShortest t bytes rail source destination r := by
  have hmem : destination ∈ (List.range t.worldSize).filter fun rank => !s.visited rank := by
    rw [List.mem_filter]
    exact ⟨List.mem_range.mpr hdestination, by rw [hleft]; rfl⟩
  induction n generalizing s with
  | zero =>
    rw [List.length_eq_zero_iff.mp hn] at hmem
    cases hmem
  | succ n ih =>
    rw [searchFrom]
    cases hcurrent : ((List.range t.worldSize).filter fun rank => !s.visited rank).argmin s.distances with
    | none =>
      rw [List.argmin_eq_none.mp hcurrent] at hmem
      cases hmem
    | some current =>
      obtain ⟨hin, hunvisited⟩ := List.mem_filter.mp (List.argmin_mem hcurrent)
      have hlt := List.mem_range.mp hin
      have hnew : ¬s.visited current = true := by simpa using hunvisited
      -- what is no rank has no path to it
      have hmin : ∀ x, ¬s.visited x = true → s.distances current ≤ s.distances x := by
        intro x hx
        by_cases hrank : x < t.worldSize
        · exact List.le_of_mem_argmin (List.mem_filter.mpr ⟨List.mem_range.mpr hrank, by simpa using hx⟩) hcurrent
        · have hcap := h.le_cap x
          refine (h.le_cap current).trans (not_lt.mp fun hfound => hrank (path_lt hsource (h.found x hfound)))
      dsimp only
      split
      · next hcap =>
        have hnone : s.distances destination = u64Max :=
          le_antisymm (h.le_cap _) (hcap ▸ hmin destination (by rw [hleft]; exact Bool.false_ne_true))
        rw [distanceTo, if_neg (not_not.mpr hnone)]
        refine ⟨nofun, fun ⟨hr, hleast⟩ => ?_⟩
        obtain ⟨x, hx, hle⟩ := h.frontier hleast.1 (by rw [hleft]; exact Bool.false_ne_true)
        have := hmin x hx
        omega
      · next hcap =>
        have hfinite : s.distances current < u64Max := lt_of_le_of_ne (h.le_cap current) hcap
        split
        · next heq =>
          subst heq
          have hleast : IsLeast {c | Path (t.edge bytes rail) u64Max source current c} (s.distances current) :=
            ⟨h.found _ hfinite, fun c hpath => h.nearest hmin hnew hpath⟩
          constructor
          · intro hr
            obtain rfl := Option.some.inj hr
            exact ⟨hfinite, hleast⟩
          · exact fun ⟨_, hr⟩ => congrArg some (hleast.unique hr)
        · next hother =>
          obtain ⟨hvisited, hdistances⟩ := relax_range (t := t) (s := visit s current) (if_pos rfl) t.worldSize
          have hset (v : Nat) : (visit s current).visited v = true ↔ s.visited v = true ∨ v = current := by
            rw [visit]
            by_cases hv : v = current <;> simp [hv]
          have hnow : (fun v => ((List.range t.worldSize).foldl (t.relax bytes rail current) (visit s current)).visited v = true) =
              fun v => s.visited v = true ∨ v = current := funext fun v => by rw [hvisited]; exact propext (hset v)
          have hdestination' : (visit s current).visited destination = false := by
            rw [Bool.eq_false_iff, ne_eq, hset, hleft]
            exact fun h => h.elim Bool.false_ne_true fun heq => hother heq.symm
          refine ih ?_ (hvisited ▸ hdestination') ?_ ?_
          · rw [hnow]
            refine h.settle hmin hnew hfinite (fun v hv => ?_) fun v hv => ?_
            · rw [hdistances, if_neg]
              · rfl
              · rw [(hset v).mpr hv]
                exact fun h => nomatch h.2
            · have hvisit : (visit s current).visited v = false := Bool.eq_false_iff.mpr ((hset v).not.mpr hv)
              rw [hdistances, hvisit, edge]
              by_cases hrank : v < t.worldSize
              · rw [if_pos ⟨hrank, rfl⟩, if_pos ⟨hlt, hrank⟩]
                cases t.linkFor rail current v <;> rfl
              · rw [if_neg (fun h => hrank h.1), if_neg (fun h => hrank h.2)]
                rfl
          · have herase : ((List.range t.worldSize).filter fun rank => !(visit s current).visited rank) =
                ((List.range t.worldSize).filter fun rank => !s.visited rank).erase current := by
              rw [List.Nodup.erase_eq_filter (List.nodup_range.filter _), List.filter_filter]
              refine List.filter_congr fun v _ => ?_
              by_cases hv : v = current <;> simp [visit, hv]
            rw [hvisited, herase, List.length_erase_of_mem (List.argmin_mem hcurrent), hn]
            rfl
          · rw [hvisited, List.mem_filter, hdestination']
            exact ⟨List.mem_range.mpr hdestination, rfl⟩

/-- Three ranks, of which the outer ones are linked by a slow link. -/
def threeRanks : CollectiveTopology where
  worldSize := 3
  links a b := if a < 3 ∧ b < 3 ∧ a ≠ b then some ⟨if a + b = 2 then 10 else 1000, 5⟩ else none
  railLinks := []
  nonempty := by decide
  symmetric a b := by rw [Nat.add_comm]; exact if_congr (by omega) rfl rfl
  irreflexive a := if_neg (by omega)

/-- All ranks in an order in which each is linked to the next one, and the last one to the first. -/
structure IsRing (t : CollectiveTopology) (order : List Nat) : Prop where
  perm : order.Perm (List.range t.worldSize)
  linked : ∀ edge ∈ cycleEdges order, (t.link edge.1 edge.2).isSome

/-- The way to write a ring that a search gives: from rank 0, in the smaller direction. -/
def Canonical (order : List Nat) : Prop := order.head? = some 0 ∧ order ≤ turned order

variable {t : CollectiveTopology} {order order' ring : List Nat}

theorem validateRanks_ok {n : Nat} {seen order : List Nat} (hlt : ∀ r ∈ order, r < n) (hnodup : order.Nodup)
    (hseen : ∀ r ∈ order, r ∉ seen) : validateRanks n seen order = .ok () := by
  induction order generalizing seen with
  | nil => rfl
  | cons r order ih =>
    obtain ⟨hr, hrest⟩ := List.forall_mem_cons.mp hlt
    obtain ⟨hnew, hrestSeen⟩ := List.forall_mem_cons.mp hseen
    obtain ⟨hfresh, hnodup⟩ := List.nodup_cons.mp hnodup
    rw [validateRanks, if_neg (not_le.mpr hr), if_neg hnew]
    refine ih hrest hnodup fun x hx hmem => ?_
    rcases List.mem_cons.mp hmem with rfl | hmem
    · exact hfresh hx
    · exact hrestSeen x hx hmem

def costOf (t : CollectiveTopology) (edge : Nat × Nat) : LinkCost := (t.link edge.1 edge.2).getD ⟨0, 0⟩

def tally (t : CollectiveTopology) (s : Totals) (edge : Nat × Nat) : Totals :=
  ⟨min s.bottleneck (t.costOf edge).bandwidthMbps.toNat, s.bandwidth + (t.costOf edge).bandwidthMbps.toNat,
    s.latency + (t.costOf edge).latencyNs.toNat⟩

/-- The score of a ring from its edges. -/
def scoreOf (t : CollectiveTopology) (order : List Nat) : RingScore :=
  let totals := (cycleEdges order).foldl t.tally ⟨u64Max, 0, 0⟩
  ⟨totals.bottleneck, totals.bandwidth, u128Max - totals.latency⟩

theorem ringScore_eq (h : IsRing t order) : t.ringScore order = .ok (t.scoreOf order) := by
  have hfold : ∀ (edges : List (Nat × Nat)) (s : Totals), (∀ edge ∈ edges, (t.link edge.1 edge.2).isSome) →
      edges.foldlM t.addEdge s = .ok (edges.foldl t.tally s) := by
    intro edges
    induction edges with
    | nil => exact fun _ _ => rfl
    | cons edge edges ih =>
      intro s hedges
      obtain ⟨hedge, hrest⟩ := List.forall_mem_cons.mp hedges
      obtain ⟨cost, hcost⟩ := Option.isSome_iff_exists.mp hedge
      have hadd : t.addEdge s edge = .ok (t.tally s edge) := by
        rw [addEdge, tally, costOf, hcost]
        rfl
      rw [List.foldlM_cons, hadd, List.foldl_cons]
      exact ih _ hrest
  have hvalid : validateRingOrder t.worldSize order = .ok () := by
    have hlen := h.perm.length_eq
    rw [List.length_range] at hlen
    rw [validateRingOrder, if_neg t.nonempty.ne', if_neg (not_not.mpr hlen)]
    exact validateRanks_ok (fun r hr => List.mem_range.mp (h.perm.subset hr)) (h.perm.nodup_iff.mpr List.nodup_range) fun _ _ => nofun
  rw [ringScore, hvalid, hfold _ _ h.linked]
  rfl

theorem tally_comm (s : Totals) (e e' : Nat × Nat) : t.tally (t.tally s e) e' = t.tally (t.tally s e') e := by
  simp only [tally, Totals.mk.injEq]
  exact ⟨min_right_comm _ _ _, Nat.add_right_comm _ _ _, Nat.add_right_comm _ _ _⟩

theorem tally_swap (s : Totals) (e : Nat × Nat) : t.tally s e.swap = t.tally s e := by
  have hcost : t.costOf e.swap = t.costOf e := congrArg (Option.getD · _) (t.symmetric e.2 e.1)
  rw [tally, tally, hcost]

/-- One cycle has one score, in whatever way it is written. -/
theorem scoreOf_same (h : SameCycle order order') : t.scoreOf order = t.scoreOf order' := by
  have hfold : (cycleEdges order).foldl t.tally ⟨u64Max, 0, 0⟩ = (cycleEdges order').foldl t.tally ⟨u64Max, 0, 0⟩ := by
    rcases h.edges with hperm | hperm
    · exact hperm.foldl_eq' (fun _ _ _ _ _ => tally_comm _ _ _) _
    · rw [← hperm.foldl_eq' (fun _ _ _ _ _ => tally_comm _ _ _), List.foldl_map]
      simp only [tally_swap]
  rw [scoreOf, scoreOf, hfold]

theorem IsRing.same (h : IsRing t order) (hsame : SameCycle order order') : IsRing t order' := by
  refine ⟨hsame.perm.symm.trans h.perm, fun edge hedge => ?_⟩
  rcases hsame.edges with hperm | hperm
  · exact h.linked edge (hperm.mem_iff.mpr hedge)
  · obtain ⟨e, he, rfl⟩ := List.mem_map.mp (hperm.mem_iff.mpr hedge)
    have hsym : t.link e.2 e.1 = t.link e.1 e.2 := t.symmetric e.2 e.1
    exact (congrArg Option.isSome hsym).trans (h.linked e he)

/-- The edges of a cycle that begins and ends at one rank. -/
theorem linked_iff {a : Nat} {l : List Nat} :
    (∀ edge ∈ cycleEdges (a :: l), (t.link edge.1 edge.2).isSome) ↔ List.IsChain (fun a b => (t.link a b).isSome) (a :: l ++ [a]) := by
  have hzip : ∀ (x : Nat) (l : List Nat) (b : Nat), (∀ edge ∈ (x :: l).zip (l ++ [b]), (t.link edge.1 edge.2).isSome) ↔
      List.IsChain (fun a b => (t.link a b).isSome) (x :: l ++ [b]) := by
    intro x l b
    induction l generalizing x with
    | nil => simp
    | cons y l ih =>
      rw [List.cons_append, List.zip_cons_cons, List.forall_mem_cons, ih]
      simp only [List.cons_append, List.isChain_cons_cons]
  rw [cycleEdges_cons, hzip]

/-- A ring is a canonical one, written in another way. -/
theorem canonical_rotate (hmem : 0 ∈ order) : Canonical (rotateRingToZero order) ∧ SameCycle order (rotateRingToZero order) := by
  have hfound : ∃ position, order.findIdx? (· = 0) = some position := by
    rw [← Option.isSome_iff_exists, List.findIdx?_isSome, List.any_eq_true]
    exact ⟨0, hmem, by simp⟩
  obtain ⟨position, hposition⟩ := hfound
  obtain ⟨hlt, hzero, -⟩ := List.findIdx?_eq_some_iff_getElem.mp hposition
  have hhead : (order.rotate position).head? = some 0 := by
    rw [List.head?_rotate hlt, List.getElem?_eq_getElem hlt, of_decide_eq_true hzero]
  obtain ⟨l, hl⟩ : ∃ l, order.rotate position = 0 :: l := by
    cases hrotate : order.rotate position with
    | nil => rw [hrotate] at hhead; cases hhead
    | cons a l =>
      rw [hrotate] at hhead
      obtain rfl := Option.some.inj hhead
      exact ⟨l, rfl⟩
  have hrotated : order.IsRotated (0 :: l) := ⟨position, hl⟩
  have hrotate : rotateRingToZero order = if 0 :: l.reverse < 0 :: l then 0 :: l.reverse else 0 :: l := by
    simp only [rotateRingToZero, hposition, hl, List.drop_one, List.tail_cons]
  rw [hrotate]
  split
  · next hless =>
    refine ⟨⟨rfl, ?_⟩, ?_⟩
    · rw [turned_cons, List.reverse_reverse]
      exact hless.le
    · exact .inr (hrotated.reverse.trans (turned_isRotated (0 :: l)))
  · next hless => exact ⟨⟨rfl, not_lt.mp hless⟩, .inl hrotated⟩

/-- Different ranks from one rank on, each linked to the next one. -/
structure Begins (t : CollectiveTopology) (start : Nat) (order : List Nat) : Prop where
  head : order.head? = some start
  nodup : order.Nodup
  lt : ∀ r ∈ order, r < t.worldSize
  linked : List.IsChain (fun a b => (t.link a b).isSome) order

variable {start : Nat}

theorem Begins.last (h : Begins t start order) : order.getLast? = some (order.getLastD 0) := by
  cases order with
  | nil => cases h.head
  | cons a l => rw [List.getLastD_eq_getLast?, List.getLast?_cons]; rfl

theorem Begins.snoc (h : Begins t start order) {c : Nat} (hlt : c < t.worldSize) (hnew : c ∉ order)
    (hlink : (t.link (order.getLastD 0) c).isSome) : Begins t start (order ++ [c]) where
  head := by
    rw [List.head?_append, h.head]
    rfl
  nodup := List.nodup_append.mpr ⟨h.nodup, List.nodup_singleton c, fun a ha b hb heq => by
    rw [List.mem_singleton.mp hb] at heq
    exact hnew (heq ▸ ha)⟩
  lt r hr := (List.mem_append.mp hr).elim (h.lt r) fun hr => List.mem_singleton.mp hr ▸ hlt
  linked := by
    refine List.isChain_append.mpr ⟨h.linked, List.isChain_singleton c, fun x hx y hy => ?_⟩
    rw [h.last] at hx
    obtain rfl := Option.some.inj hx
    obtain rfl := Option.some.inj hy
    exact hlink

theorem Begins.isRing_iff (h : Begins t start order) (hlen : order.length = t.worldSize) :
    IsRing t order ↔ (t.link (order.getLastD 0) (order.headD 0)).isSome := by
  have hlast := h.last
  have hhead := h.head
  have hperm : order.Perm (List.range t.worldSize) := by
    refine (List.subperm_of_subset h.nodup fun r hr => List.mem_range.mpr (h.lt r hr)).perm_of_length_le ?_
    rw [hlen, List.length_range]
  cases order with
  | nil => cases hhead
  | cons a l =>
    have hcycle : IsRing t (a :: l) ↔ List.IsChain (fun a b => (t.link a b).isSome) (a :: l ++ [a]) := by
      rw [← linked_iff]
      exact ⟨IsRing.linked, fun h => ⟨hperm, h⟩⟩
    rw [hcycle, List.isChain_append]
    constructor
    · exact fun ⟨_, _, hlink⟩ => hlink _ hlast _ rfl
    · refine fun hlink => ⟨h.linked, List.isChain_singleton a, fun x hx y hy => ?_⟩
      rw [hlast] at hx
      obtain rfl := Option.some.inj hx
      obtain rfl := Option.some.inj hy
      exact hlink

/-- The search finds every ring that goes on from an order, in its smaller direction. -/
theorem mem_collectRings {left : Nat} (h : Begins t 0 order) (hlen : order.length + left = t.worldSize) :
    ring ∈ t.collectRings left order ↔ order <+: ring ∧ IsRing t ring ∧ ring ≤ turned ring := by
  induction left generalizing order with
  | zero =>
    rw [Nat.add_zero] at hlen
    have hring := h.isRing_iff hlen
    have hsame : order <+: ring ∧ IsRing t ring → ring = order := fun ⟨hbegin, hring⟩ =>
      (hbegin.eq_of_length (by rw [hlen, hring.perm.length_eq, List.length_range])).symm
    rw [collectRings]
    split
    · next hnone =>
      refine ⟨nofun, fun ⟨hbegin, hisRing, _⟩ => ?_⟩
      obtain rfl := hsame ⟨hbegin, hisRing⟩
      rw [Option.isNone_iff_eq_none.mp hnone] at hring
      exact absurd (hring.mp hisRing) Bool.false_ne_true
    · next hlink =>
      have hlink : (t.link (order.getLastD 0) (order.headD 0)).isSome :=
        Option.isSome_iff_ne_none.mpr fun hnone => hlink (Option.isNone_iff_eq_none.mpr hnone)
      split
      · next hle =>
        rw [List.mem_singleton]
        constructor
        · rintro rfl
          exact ⟨List.prefix_refl _, hring.mpr hlink, hle⟩
        · exact fun ⟨hbegin, hisRing, _⟩ => hsame ⟨hbegin, hisRing⟩
      · next hle =>
        refine ⟨nofun, fun ⟨hbegin, hisRing, hcanonical⟩ => ?_⟩
        obtain rfl := hsame ⟨hbegin, hisRing⟩
        exact absurd hcanonical hle
  | succ left ih =>
    rw [collectRings, List.mem_flatMap]
    constructor
    · rintro ⟨c, hc, hring⟩
      obtain ⟨hrange, hc⟩ := List.mem_filter.mp hc
      obtain ⟨hnew, hlink⟩ := of_decide_eq_true hc
      have hlt : c < t.worldSize := by
        have := List.mem_range'_1.mp hrange
        omega
      obtain ⟨hbegin, hrest⟩ := (ih (h.snoc hlt hnew hlink) (by simp; omega)).mp hring
      exact ⟨(List.prefix_append _ _).trans hbegin, hrest⟩
    · rintro ⟨⟨rest, rfl⟩, hring, hcanonical⟩
      have hlength := hring.perm.length_eq
      rw [List.length_append, List.length_range] at hlength
      cases rest with
      | nil =>
        rw [List.length_nil] at hlength
        omega
      | cons c rest =>
        have hnodup := hring.perm.nodup_iff.mpr List.nodup_range
        have hnew : c ∉ order := fun hmem => (List.nodup_append.mp hnodup).2.2 c hmem c List.mem_cons_self rfl
        have hlt : c < t.worldSize := List.mem_range.mp (hring.perm.subset (by simp))
        have hzero : c ≠ 0 := by
          rintro rfl
          exact hnew (List.mem_of_head? h.head)
        have hlink : (t.link (order.getLastD 0) c).isSome := by
          have hlast := h.last
          cases order with
          | nil => cases h.head
          | cons a l =>
            have hchain : List.IsChain (fun a b => (t.link a b).isSome) ((a :: l) ++ (c :: (rest ++ [a]))) := by
              simpa using linked_iff.mp hring.linked
            exact (List.isChain_append.mp hchain).2.2 _ hlast c rfl
        refine ⟨c, List.mem_filter.mpr ⟨List.mem_range'_1.mpr (by omega), decide_eq_true ⟨hnew, hlink⟩⟩, ?_⟩
        refine (ih (h.snoc hlt hnew hlink) (by simp; omega)).mpr ⟨⟨rest, by simp⟩, hring, hcanonical⟩

theorem nextRank_spec {next : Nat} (h : t.nextRank order = some next) :
    next < t.worldSize ∧ next ∉ order ∧ (t.link (order.getLastD 0) next).isSome := by
  obtain ⟨⟨rank, cost⟩, hmax, rfl⟩ := Option.map_eq_some_iff.mp h
  have hmem := List.mem_reverse.mp (List.argmax_mem hmax)
  obtain ⟨rank', hrank, hcost⟩ := List.mem_filterMap.mp hmem
  obtain ⟨cost', hlink, heq⟩ := Option.map_eq_some_iff.mp hcost
  obtain ⟨rfl, rfl⟩ := Prod.mk.inj heq
  obtain ⟨hrange, hnew⟩ := List.mem_filter.mp hrank
  exact ⟨List.mem_range.mp hrange, of_decide_eq_true hnew, Option.isSome_iff_exists.mpr ⟨_, hlink⟩⟩

theorem greedyOrder_begins {left : Nat} (h : Begins t start order) (hring : t.greedyOrder left order = some ring) :
    Begins t start ring ∧ ring.length = order.length + left := by
  induction left generalizing order with
  | zero =>
    obtain rfl := Option.some.inj hring
    exact ⟨h, rfl⟩
  | succ left ih =>
    rw [greedyOrder] at hring
    split at hring
    · cases hring
    · next next hnext =>
      obtain ⟨hlt, hnew, hlink⟩ := nextRank_spec hnext
      obtain ⟨hbegins, hlen⟩ := ih (h.snoc hlt hnew hlink) hring
      refine ⟨hbegins, hlen.trans ?_⟩
      rw [List.length_append, List.length_singleton, Nat.add_assoc, Nat.add_comm 1]

theorem greedyRing_spec (hstart : start < t.worldSize) (h : t.greedyRing start = some ring) : IsRing t ring ∧ Canonical ring := by
  rw [greedyRing] at h
  split at h
  · cases h
  · next order horder =>
    have hone : Begins t start [start] :=
      ⟨rfl, List.nodup_singleton _, fun r hr => List.mem_singleton.mp hr ▸ hstart, List.isChain_singleton _⟩
    obtain ⟨hbegins, hlen⟩ := greedyOrder_begins hone horder
    rw [List.length_singleton] at hlen
    split at h
    · cases h
    · next hlink =>
      obtain rfl := Option.some.inj h
      have hlink := Option.isSome_iff_ne_none.mpr fun hnone => hlink (Option.isNone_iff_eq_none.mpr hnone)
      have hring := (hbegins.isRing_iff (by omega)).mpr hlink
      obtain ⟨hcanonical, hsame⟩ := canonical_rotate (hring.perm.mem_iff.mpr (List.mem_range.mpr t.nonempty))
      exact ⟨hring.same hsame, hcanonical⟩

theorem greedyRings_spec (h : ring ∈ t.greedyRings) : IsRing t ring ∧ Canonical ring := by
  have hfold : ∀ (starts : List Nat) (candidates : List (List Nat)), (∀ start ∈ starts, start < t.worldSize) →
      (∀ r ∈ candidates, IsRing t r ∧ Canonical r) →
      ∀ r ∈ starts.foldl (fun candidates start =>
        match t.greedyRing start with
        | some order => if order ∈ candidates then candidates else candidates ++ [order]
        | none => candidates) candidates, IsRing t r ∧ Canonical r := by
    intro starts
    induction starts with
    | nil => exact fun _ _ hall => hall
    | cons start starts ih =>
      intro candidates hstarts hall
      obtain ⟨hstart, hstarts⟩ := List.forall_mem_cons.mp hstarts
      refine ih _ hstarts ?_
      dsimp only
      split
      · next order horder =>
        split
        · exact hall
        · intro r hr
          rcases List.mem_append.mp hr with hr | hr
          · exact hall r hr
          · exact List.mem_singleton.mp hr ▸ greedyRing_spec hstart horder
      · exact hall
  exact hfold _ [] (fun start hstart => List.mem_range.mp hstart) nofun ring h

theorem mem_destutter_ne {α : Type} [DecidableEq α] {l : List α} {x : α} : x ∈ l.destutter (· ≠ ·) ↔ x ∈ l := by
  refine ⟨fun h => (List.destutter_sublist _ l).subset h, fun h => ?_⟩
  cases l with
  | nil => exact h
  | cons a l =>
    rw [List.destutter_cons']
    induction l generalizing a with
    | nil => exact h
    | cons b l ih =>
      by_cases hab : a ≠ b
      · rw [List.destutter'_cons_pos _ hab]
        rcases List.mem_cons.mp h with rfl | h
        · exact List.mem_cons_self
        · exact List.mem_cons_of_mem _ (ih b h)
      · rw [List.destutter'_cons_neg _ hab]
        obtain rfl := not_not.mp hab
        rcases List.mem_cons.mp h with rfl | h
        · exact ih x List.mem_cons_self
        · exact ih a h

theorem nodup_destutter_ne {α : Type} [PartialOrder α] [DecidableEq α] {l : List α} (h : l.Pairwise (· ≤ ·)) : (l.destutter (· ≠ ·)).Nodup := by
  have hle := (h.sublist (List.destutter_sublist (· ≠ ·) l)).isChain
  have hne := List.isChain_destutter (· ≠ ·) l
  generalize l.destutter (· ≠ ·) = l at hle hne
  have hlt : List.IsChain (· < ·) l := by
    induction l with
    | nil => exact .nil
    | cons a l ih =>
      cases l with
      | nil => exact .singleton a
      | cons b l =>
        obtain ⟨hab, hle⟩ := List.isChain_cons_cons.mp hle
        obtain ⟨hdiff, hne⟩ := List.isChain_cons_cons.mp hne
        exact List.isChain_cons_cons.mpr ⟨lt_of_le_of_ne hab hdiff, ih hle hne⟩
  exact (List.isChain_iff_pairwise.mp hlt).imp fun h => h.ne

/-- What rings are compared by, with the edges that were used so far. -/
def keyOf (t : CollectiveTopology) (usage : EdgeUsage) (order : List Nat) : RingKey :=
  toLex (2 ^ 16 - 1 - (usageOf usage order).1, toLex (u64Max - (usageOf usage order).2, t.scoreOf order))

theorem ringKey_eq (h : IsRing t order) (usage : EdgeUsage) : t.ringKey usage order = .ok (t.keyOf usage order) := by
  rw [ringKey, ringScore_eq h]
  rfl

/-- The best of the candidates that were compared. -/
def IsBest (t : CollectiveTopology) (usage : EdgeUsage) (seen : List (List Nat)) (best : Option (RingKey × Nat)) : Prop :=
  best = none ∧ seen = [] ∨ ∃ i order, best = some (t.keyOf usage order, i) ∧ seen[i]? = some order ∧
    ∀ r ∈ seen, t.keyOf usage r ≤ t.keyOf usage order

theorem bestRing_spec {usage : EdgeUsage} {seen candidates : List (List Nat)} {best : Option (RingKey × Nat)}
    (hrings : ∀ r ∈ candidates, IsRing t r) (hbest : IsBest t usage seen best) :
    ∃ best', t.bestRing usage seen.length best candidates = .ok best' ∧ IsBest t usage (seen ++ candidates) best' := by
  induction candidates generalizing seen best with
  | nil => exact ⟨best, rfl, by rwa [List.append_nil]⟩
  | cons order candidates ih =>
    obtain ⟨hring, hrings⟩ := List.forall_mem_cons.mp hrings
    have hlast : (seen ++ [order])[seen.length]? = some order := by simp
    rw [bestRing, ringKey_eq hring, List.append_cons]
    change ∃ best', t.bestRing usage (seen.length + 1) _ candidates = .ok best' ∧ _
    rw [← List.length_singleton (a := order), ← List.length_append]
    refine ih hrings (.inr ?_)
    rcases hbest with ⟨rfl, rfl⟩ | ⟨i, current, rfl, hi, hall⟩
    · exact ⟨0, order, rfl, rfl, fun r hr => List.mem_singleton.mp hr ▸ le_rfl⟩
    · obtain ⟨hlt, -⟩ := List.getElem?_eq_some_iff.mp hi
      dsimp only
      split
      · next hmore =>
        refine ⟨_, order, rfl, hlast, fun r hr => ?_⟩
        rcases List.mem_append.mp hr with hr | hr
        · exact (hall r hr).trans hmore.le
        · exact List.mem_singleton.mp hr ▸ le_rfl
      · next hless =>
        refine ⟨i, current, rfl, by rwa [List.getElem?_append_left hlt], fun r hr => ?_⟩
        rcases List.mem_append.mp hr with hr | hr
        · exact hall r hr
        · exact List.mem_singleton.mp hr ▸ not_lt.mp hless

theorem selectRings_spec {maximum n : Nat} {usage : EdgeUsage} {candidates selected : List (List Nat)}
    (hrings : ∀ r ∈ candidates, IsRing t r) :
    ∃ more, t.selectRings maximum n candidates usage selected = .ok (selected ++ more) ∧ more.Subperm candidates ∧
      (selected ++ more).length ≤ max maximum selected.length ∧
      (selected.length < maximum → candidates ≠ [] → n ≠ 0 →
        ∃ first rest, more = first :: rest ∧ ∀ r ∈ candidates, t.keyOf usage r ≤ t.keyOf usage first) := by
  induction n generalizing candidates usage selected with
  | zero => exact ⟨[], by rw [List.append_nil]; rfl, List.nil_subperm, by simp, fun _ _ h => absurd rfl h⟩
  | succ n ih =>
    rw [selectRings]
    split
    · next hmore =>
      obtain ⟨best, hbest, hisBest⟩ := bestRing_spec hrings (.inl ⟨rfl, rfl⟩)
      rw [List.length_nil] at hbest
      rw [List.nil_append] at hisBest
      rcases hisBest with ⟨-, hnone⟩ | ⟨i, order, rfl, hi, hall⟩
      · exact absurd hnone hmore.2
      · obtain ⟨hlt, hget⟩ := List.getElem?_eq_some_iff.mp hi
        have hperm : (order :: candidates.eraseIdx i).Perm candidates := by
          rw [← hget]
          exact List.getElem_cons_eraseIdx_perm hlt
        obtain ⟨more, hselect, hsub, hlen, -⟩ := ih
          fun r hr => hrings r (hperm.subset (List.mem_cons_of_mem _ hr))
        rw [hbest]
        refine ⟨order :: more, ?_, ((List.subperm_cons order).mpr hsub).trans hperm.subperm, ?_, fun _ _ _ => ⟨order, more, rfl, hall⟩⟩
        · rw [List.append_cons, ← hselect]
          change (match candidates[i]? with | none => _ | some order => _) = _
          rw [hi]
          rfl
        · rw [List.append_cons]
          refine hlen.trans ?_
          rw [List.length_append, List.length_singleton]
          omega
    · next hless =>
      refine ⟨[], by rw [List.append_nil], List.nil_subperm, by simp, fun hlt hne _ => absurd ⟨hlt, hne⟩ hless⟩

theorem usageOf_zero (order : List Nat) : usageOf (fun _ _ => 0) order = (0, 0) := by
  rw [usageOf]
  induction cycleEdges order with
  | nil => rfl
  | cons edge edges ih => simpa using ih

theorem score_le_of_key_le (h : t.keyOf (fun _ _ => 0) order ≤ t.keyOf (fun _ _ => 0) order') : t.scoreOf order ≤ t.scoreOf order' := by
  rw [keyOf, keyOf, usageOf_zero, usageOf_zero, Prod.Lex.toLex_le_toLex] at h
  rcases h with h | ⟨-, h⟩
  · exact absurd h (lt_irrefl _)
  · rw [Prod.Lex.toLex_le_toLex] at h
    rcases h with h | ⟨-, h⟩
    · exact absurd h (lt_irrefl _)
    · exact h

theorem selectDiverseRings_spec {maximum : Nat} {candidates : List (List Nat)} (hmaximum : 1 ≤ maximum)
    (hrings : ∀ r ∈ candidates, IsRing t r ∧ Canonical r) :
    (candidates = [] ∧ ∃ e, t.selectDiverseRings candidates maximum = .error e) ∨
    ∃ first rest, t.selectDiverseRings candidates maximum = .ok (first :: rest) ∧ (first :: rest).length ≤ maximum ∧
      (∀ r ∈ first :: rest, IsRing t r) ∧ (first :: rest).Pairwise (fun a b => ¬SameCycle a b) ∧
      ∀ r ∈ candidates, t.scoreOf r ≤ t.scoreOf first := by
  rw [selectDiverseRings]
  split
  · next hnone => exact .inl ⟨hnone, _, rfl⟩
  · next hsome =>
    refine .inr ?_
    have hsorted : (candidates.mergeSort fun a b => a ≤ b).Pairwise (· ≤ ·) := by
      have htrans (a b c : List Nat) : decide (a ≤ b) = true → decide (b ≤ c) = true → decide (a ≤ c) = true := by
        simpa using le_trans
      have htotal (a b : List Nat) : (decide (a ≤ b) || decide (b ≤ a)) = true := by simpa using le_total a b
      exact (List.pairwise_mergeSort htrans htotal candidates).imp of_decide_eq_true
    have hmem (r : List Nat) : r ∈ (candidates.mergeSort fun a b => a ≤ b).destutter (· ≠ ·) ↔ r ∈ candidates := by
      rw [mem_destutter_ne, List.mem_mergeSort]
    have hnodup := nodup_destutter_ne hsorted
    generalize (candidates.mergeSort fun a b => a ≤ b).destutter (· ≠ ·) = sorted at hmem hnodup
    have hne : sorted ≠ [] := by
      rintro rfl
      exact hsome (List.eq_nil_iff_forall_not_mem.mpr fun r hr => nomatch (hmem r).mpr hr)
    obtain ⟨more, hselect, hsub, hlen, hfirst⟩ := @selectRings_spec t maximum sorted.length (fun _ _ => 0) sorted []
      fun r hr => (hrings r ((hmem r).mp hr)).1
    obtain ⟨first, rest, rfl, hbest⟩ := hfirst hmaximum hne (List.length_pos_of_ne_nil hne).ne'
    have hall : ∀ r ∈ first :: rest, IsRing t r ∧ Canonical r := fun r hr => hrings r ((hmem r).mp (hsub.subset hr))
    refine ⟨first, rest, hselect, by simpa using hlen, fun r hr => (hall r hr).1, ?_, fun r hr => ?_⟩
    · obtain ⟨sorted', hperm, hsublist⟩ := hsub
      refine (hperm.nodup_iff.mp (hnodup.sublist hsublist)).imp_of_mem fun {a b} ha hb hab hsame => hab ?_
      obtain ⟨hringa, hheada, hlea⟩ := hall a ha
      obtain ⟨hringb, hheadb, hleb⟩ := hall b hb
      cases a with
      | nil => cases hheada
      | cons x a =>
        cases b with
        | nil => cases hheadb
        | cons y b =>
          obtain rfl := Option.some.inj hheada
          obtain rfl := Option.some.inj hheadb
          exact hsame.eq_of_canonical (hringa.perm.nodup_iff.mpr List.nodup_range) hlea hleb
    · exact score_le_of_key_le (hbest r ((hmem r).mpr hr))

/-- Planned rings are different cycles through all ranks. With few ranks one is found if there is one, and the first is the best. -/
theorem best_ring_orders_exact (t : CollectiveTopology) (maximum : Nat) (hworld : 2 ≤ t.worldSize) (hmaximum : 1 ≤ maximum) :
    (∀ rings, t.bestRingOrders maximum = .ok rings → rings ≠ [] ∧ rings.length ≤ maximum ∧ (∀ r ∈ rings, IsRing t r) ∧
      rings.Pairwise fun a b => ¬SameCycle a b) ∧
    (t.worldSize ≤ exactRingSearchMaxRanks →
      ((∃ rings, t.bestRingOrders maximum = .ok rings) ↔ ∃ r, IsRing t r) ∧
      ∀ first rest, t.bestRingOrders maximum = .ok (first :: rest) →
        ∃ best, t.ringScore first = .ok best ∧ ∀ r, IsRing t r → ∃ score, t.ringScore r = .ok score ∧ score ≤ best) := by
  have hone : Begins t 0 [0] :=
    ⟨rfl, List.nodup_singleton _, fun r hr => List.mem_singleton.mp hr ▸ t.nonempty, List.isChain_singleton _⟩
  have hcollect (ring : List Nat) : ring ∈ t.collectRings (t.worldSize - 1) [0] ↔ IsRing t ring ∧ Canonical ring := by
    rw [mem_collectRings hone (by rw [List.length_singleton]; omega)]
    cases ring with
    | nil => exact ⟨fun h => absurd h.1 (by simp), fun h => nomatch h.2.1⟩
    | cons a l => simp [Canonical, and_left_comm, @eq_comm Nat 0]
  rw [bestRingOrders, if_neg (by omega), if_neg (by omega)]
  split
  · next hfew =>
    rcases selectDiverseRings_spec hmaximum fun r hr => (hcollect r).mp hr with ⟨hnone, e, herror⟩ | ⟨first, rest, hok, hlen, hrings, hapart, hbest⟩
    · rw [herror]
      refine ⟨nofun, fun _ => ⟨⟨nofun, fun ⟨r, hr⟩ => ?_⟩, nofun⟩⟩
      obtain ⟨hcanonical, hsame⟩ := canonical_rotate (hr.perm.mem_iff.mpr (List.mem_range.mpr t.nonempty))
      have := (hcollect _).mpr ⟨hr.same hsame, hcanonical⟩
      rw [hnone] at this
      cases this
    · rw [hok]
      refine ⟨fun rings h => ?_, fun _ => ⟨⟨fun _ => ⟨first, hrings first List.mem_cons_self⟩, fun _ => ⟨_, rfl⟩⟩, fun first' rest' h => ?_⟩⟩
      · obtain rfl := Except.ok.inj h
        exact ⟨List.cons_ne_nil _ _, hlen, hrings, hapart⟩
      · obtain ⟨rfl, -⟩ := List.cons.inj (Except.ok.inj h)
        refine ⟨_, ringScore_eq (hrings first List.mem_cons_self), fun r hr => ⟨_, ringScore_eq hr, ?_⟩⟩
        obtain ⟨hcanonical, hsame⟩ := canonical_rotate (hr.perm.mem_iff.mpr (List.mem_range.mpr t.nonempty))
        rw [scoreOf_same hsame]
        exact hbest _ ((hcollect _).mpr ⟨hr.same hsame, hcanonical⟩)
  · next hmany =>
    refine ⟨fun rings h => ?_, fun hfew => absurd hfew hmany⟩
    rcases selectDiverseRings_spec hmaximum fun r hr => greedyRings_spec hr with ⟨-, e, herror⟩ | ⟨first, rest, hok, hlen, hrings, hapart, -⟩
    · exact nomatch herror.symm.trans h
    · obtain rfl := Except.ok.inj (hok.symm.trans h)
      exact ⟨List.cons_ne_nil _ _, hlen, hrings, hapart⟩

theorem best_ring_orders_exact_three : ∃ first rest, threeRanks.bestRingOrders 1 = .ok (first :: rest) ∧
    ∃ best, threeRanks.ringScore first = .ok best ∧ ∀ r, IsRing threeRanks r → ∃ score, threeRanks.ringScore r = .ok score ∧ score ≤ best :=
  have hok : threeRanks.bestRingOrders 1 = .ok [[0, 1, 2]] := by decide +kernel
  ⟨[0, 1, 2], [], hok, ((best_ring_orders_exact threeRanks 1 (by decide) (by decide)).2 (by decide)).2 _ _ hok⟩

end CollectiveTopology

end Ruda.Topology
