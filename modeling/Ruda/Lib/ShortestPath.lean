import Mathlib

/-!
# Shortest paths with saturating sums

Costs of paths are sums that stop at a cap. A search settles the nearest vertex that is left, and
keeps the distances of the others up to date along the edges out of it. At the cap a vertex counts
as not reached.
-/

namespace Ruda.ShortestPath

variable {V : Type} {edge : V → V → Option Nat} {cap : Nat} {source u v : V} {c : Nat}

/-- The cost of a path along edges, summed up from its start. -/
inductive Path (edge : V → V → Option Nat) (cap : Nat) (source : V) : V → Nat → Prop
  | here : Path edge cap source source 0
  | step {u v : V} {c w : Nat} (path : Path edge cap source u c) (h : edge u v = some w) : Path edge cap source v (min cap (c + w))

theorem Path.le_cap (h : Path edge cap source v c) : c ≤ cap := by
  cases h with
  | here => exact Nat.zero_le cap
  | step => exact min_le_left _ _

/-- What a search knows: the distances found so far, and the vertices that are settled. -/
structure Settles (edge : V → V → Option Nat) (cap : Nat) (source : V) (distances : V → Nat) (visited : V → Prop) : Prop where
  start : distances source = 0
  le_cap : ∀ v, distances v ≤ cap
  found : ∀ v, distances v < cap → Path edge cap source v (distances v)
  settled : ∀ v c, visited v → Path edge cap source v c → distances v ≤ c
  relaxed : ∀ u v w, visited u → edge u v = some w → distances v ≤ min cap (distances u + w)

variable {distances distances' : V → Nat} {visited : V → Prop}

theorem settles_start [DecidableEq V] (edge : V → V → Option Nat) (cap : Nat) (source : V) :
    Settles edge cap source (fun v => if v = source then 0 else cap) fun _ => False where
  start := if_pos rfl
  le_cap v := by
    split
    · exact Nat.zero_le cap
    · exact le_rfl
  found v h := by
    split
    · next hv =>
      subst hv
      exact .here
    · next hv =>
      rw [if_neg hv] at h
      exact absurd h (lt_irrefl cap)
  settled _ _ h := h.elim
  relaxed _ _ _ h := h.elim

theorem Settles.frontier (h : Settles edge cap source distances visited) (path : Path edge cap source v c) (hv : ¬visited v) :
    ∃ x, ¬visited x ∧ distances x ≤ c := by
  induction path with
  | here => exact ⟨source, hv, h.start.le⟩
  | @step u v c w path hedge ih =>
    by_cases hu : visited u
    · refine ⟨v, hv, (h.relaxed u v w hu hedge).trans (min_le_min_left cap ?_)⟩
      exact Nat.add_le_add_right (h.settled u c hu path) w
    · obtain ⟨x, hx, hle⟩ := ih hu
      exact ⟨x, hx, le_min (hle.trans path.le_cap) (hle.trans (Nat.le_add_right c w))⟩

theorem Settles.nearest (h : Settles edge cap source distances visited) (hmin : ∀ x, ¬visited x → distances v ≤ distances x)
    (hv : ¬visited v) (path : Path edge cap source v c) : distances v ≤ c := by
  obtain ⟨x, hx, hle⟩ := h.frontier path hv
  exact (hmin x hx).trans hle

theorem Settles.settle (h : Settles edge cap source distances visited) (hmin : ∀ x, ¬visited x → distances u ≤ distances x)
    (hu : ¬visited u) (hlt : distances u < cap) (hkeep : ∀ v, visited v ∨ v = u → distances' v = distances v)
    (hrelax : ∀ v, ¬(visited v ∨ v = u) → distances' v = match edge u v with
      | some w => min (distances v) (min cap (distances u + w))
      | none => distances v) :
    Settles edge cap source distances' fun v => visited v ∨ v = u := by
  have hle : ∀ v, distances' v ≤ distances v := by
    intro v
    by_cases hv : visited v ∨ v = u
    · exact (hkeep v hv).le
    · rw [hrelax v hv]
      split
      · exact min_le_left _ _
      · exact le_rfl
  refine ⟨?_, fun v => (hle v).trans (h.le_cap v), fun v hv => ?_, fun v c hv path => ?_, fun x v w hx hedge => ?_⟩
  · exact Nat.le_zero.mp ((hle source).trans_eq h.start)
  · by_cases hold : visited v ∨ v = u
    · rw [hkeep v hold] at hv ⊢
      exact h.found v hv
    · rw [hrelax v hold] at hv ⊢
      split at hv
      · next w hedge =>
        rcases min_choice (distances v) (min cap (distances u + w)) with heq | heq
        · rw [heq] at hv ⊢
          exact h.found v hv
        · rw [heq]
          exact .step (h.found u hlt) hedge
      · exact h.found v hv
  · rw [hkeep v hv]
    rcases hv with hv | rfl
    · exact h.settled v c hv path
    · exact h.nearest hmin hu path
  · rw [hkeep x hx]
    rcases hx with hx | rfl
    · exact (hle v).trans (h.relaxed x v w hx hedge)
    · by_cases hv : visited v ∨ v = x
      · rw [hkeep v hv]
        rcases hv with hv | rfl
        · exact h.settled v _ hv (.step (h.found x hlt) hedge)
        · exact le_min (h.le_cap v) (Nat.le_add_right _ _)
      · rw [hrelax v hv, hedge]
        exact min_le_right _ _

end Ruda.ShortestPath
