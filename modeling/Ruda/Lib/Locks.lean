import Mathlib

/-!
# Waiting for locks

Threads wait for locks that others hold. When every thread that is waited for either waits
for nothing or stands at a lower rank than the one waiting for it, no threads wait for each
other in a circle.
-/

namespace Ruda

variable {Thread Lock : Type} {wants : Thread → Option Lock} {owner : Lock → Option Thread}

/-- The next thing that `t` does is to take a lock, and `u` holds it. -/
def Waits (wants : Thread → Option Lock) (owner : Lock → Option Thread) (t u : Thread) : Prop :=
  ∃ l, wants t = some l ∧ owner l = some u

/-- Each of these threads waits for a lock that the next holds. -/
def Deadlock (wants : Thread → Option Lock) (owner : Lock → Option Thread) : Prop :=
  ∃ t, Relation.TransGen (Waits wants owner) t t

theorem rank_lt_of_transGen {R : Thread → Thread → Prop} {rank : Thread → Nat}
    (hrank : ∀ t u v, R t u → R u v → rank u < rank t) {t u : Thread} (h : Relation.TransGen R t u) :
    (∃ v, R u v) → rank u < rank t := by
  induction h with
  | single htu =>
    rintro ⟨v, huv⟩
    exact hrank _ _ v htu huv
  | tail _ hlast ih =>
    rintro ⟨v, hv⟩
    exact (hrank _ _ v hlast hv).trans (ih ⟨_, hlast⟩)

theorem no_deadlock {rank : Thread → Nat}
    (hrank : ∀ t u v, Waits wants owner t u → Waits wants owner u v → rank u < rank t) : ¬Deadlock wants owner := by
  rintro ⟨t, h⟩
  -- a thread on a circle waits itself
  obtain ⟨u, hu, -⟩ := Relation.TransGen.head'_iff.mp h
  exact absurd (rank_lt_of_transGen hrank h ⟨u, hu⟩) (lt_irrefl _)

end Ruda
