import Mathlib

/-!
# Worklist algorithms

Dataflow analyses that keep a finite set of facts per node, re-evaluate the nodes
of a queue and enqueue the dependents of every node whose set changed. When the
transfer functions are monotone and the facts come from a finite universe, the
loop ends, and it ends at the least sets closed under the transfer functions of
the nodes it had to look at.
-/

namespace Ruda

/-- What a worklist algorithm evaluates at a node, and whom it then wakes. -/
structure Flow (ν α : Type) where
  transfer : ν → (ν → Finset α) → Finset α
  dependents : ν → List ν

/-- The queue and the facts found so far. -/
structure Work (ν α : Type) where
  worklist : List ν
  value : ν → Finset α

namespace Flow

variable {ν α : Type} [DecidableEq ν] [DecidableEq α] (F : Flow ν α)

/-- One round of `while let Some(node) = worklist.pop_front()`. -/
def step (w : Work ν α) : Work ν α :=
  match w.worklist with
  | [] => w
  | n :: rest =>
    if F.transfer n w.value = w.value n then { w with worklist := rest }
    else { worklist := rest ++ F.dependents n, value := Function.update w.value n (F.transfer n w.value) }

def run : (fuel : Nat) → Work ν α → Work ν α
  | 0, w => w
  | fuel + 1, w => run fuel (F.step w)

theorem run_inv {P : Work ν α → Prop} {w : Work ν α} (h0 : P w) (hstep : ∀ w, P w → P (F.step w))
    (fuel : Nat) : P (F.run fuel w) := by
  induction fuel generalizing w with
  | zero => exact h0
  | succ fuel ih => exact ih (hstep w h0)

/-- The transfer functions are monotone, read only the node itself and nodes that wake
it, and stay among the nodes `N` and facts `U`. -/
structure Monotone (N : Finset ν) (U : Finset α) : Prop where
  mono : ∀ n v v', (∀ m, v m ⊆ v' m) → F.transfer n v ⊆ F.transfer n v'
  inside : ∀ n ∈ N, ∀ v, (∀ m, v m ⊆ U) → F.transfer n v ⊆ U
  reads : ∀ n m v s, n ∉ F.dependents m →
    F.transfer n (Function.update v m s) ⊆ F.transfer n v ∪ Function.update v m s n
  nodes : ∀ n ∈ N, ∀ m ∈ F.dependents n, m ∈ N

/-- The facts only grow and stay inside the universe. -/
structure Ascending (N : Finset ν) (U : Finset α) (w : Work ν α) : Prop where
  queued : ∀ n ∈ w.worklist, n ∈ N
  inside : ∀ n, w.value n ⊆ U
  below : ∀ n, w.value n ⊆ F.transfer n w.value

variable {F} {N : Finset ν} {U : Finset α} {w : Work ν α}

theorem step_cons {n : ν} {rest : List ν} (hw : w.worklist = n :: rest) :
    F.step w = if F.transfer n w.value = w.value n then { w with worklist := rest }
      else { worklist := rest ++ F.dependents n,
             value := Function.update w.value n (F.transfer n w.value) } := by
  unfold step
  rw [hw]

omit [DecidableEq α] in
theorem subset_update (h : F.Ascending N U w) (n m : ν) :
    w.value m ⊆ Function.update w.value n (F.transfer n w.value) m := by
  by_cases hm : m = n
  · subst hm
    rw [Function.update_self]
    exact h.below m
  · rw [Function.update_of_ne hm]

theorem Ascending.step (hF : F.Monotone N U) (h : F.Ascending N U w) : F.Ascending N U (F.step w) := by
  cases hw : w.worklist with
  | nil => simpa [Flow.step, hw] using h
  | cons n rest =>
    have hn : n ∈ N := h.queued n (by simp [hw])
    have hrest : ∀ m ∈ rest, m ∈ N := fun m hm => h.queued m (by simp [hw, hm])
    rw [step_cons hw]
    split
    · exact ⟨hrest, h.inside, h.below⟩
    · refine ⟨fun m hm => ?_, fun m => ?_, fun m => ?_⟩
      · rcases List.mem_append.mp hm with hm | hm
        · exact hrest m hm
        · exact hF.nodes n hn m hm
      · by_cases hm : m = n
        · subst hm
          simpa using hF.inside m hn w.value h.inside
        · simpa [hm] using h.inside m
      · have hup : F.transfer m w.value ⊆
            F.transfer m (Function.update w.value n (F.transfer n w.value)) :=
          hF.mono _ _ _ (subset_update h n)
        by_cases hm : m = n
        · subst hm
          simpa using hup
        · simpa [hm] using (h.below m).trans hup

-- Termination

/-- Rounds still possible: the queue, and every later wake-up. -/
def potential (F : Flow ν α) (N : Finset ν) (U : Finset α) (w : Work ν α) : Nat :=
  w.worklist.length + ∑ n ∈ N, (U.card - (w.value n).card) * (F.dependents n).length

theorem potential_step (hF : F.Monotone N U) (h : F.Ascending N U w) (hw : w.worklist ≠ []) :
    F.potential N U (F.step w) < F.potential N U w := by
  cases hcons : w.worklist with
  | nil => exact absurd hcons hw
  | cons n rest =>
    have hn : n ∈ N := h.queued n (by simp [hcons])
    rw [step_cons hcons]
    split
    · simp only [potential, hcons, List.length_cons]
      omega
    · next hne =>
      have hlt : (w.value n).card < (F.transfer n w.value).card :=
        Finset.card_lt_card ((h.below n).ssubset_of_ne (Ne.symm hne))
      have hle : (F.transfer n w.value).card ≤ U.card := Finset.card_le_card (hF.inside n hn _ h.inside)
      -- the node's own share shrinks by at least what it enqueues
      have hshare : (U.card - (F.transfer n w.value).card) * (F.dependents n).length +
          (F.dependents n).length ≤ (U.card - (w.value n).card) * (F.dependents n).length := by
        rw [← Nat.succ_mul]
        exact Nat.mul_le_mul_right _ (by omega)
      have hothers : ∀ m ∈ N.erase n,
          (U.card - (Function.update w.value n (F.transfer n w.value) m).card) * (F.dependents m).length =
            (U.card - (w.value m).card) * (F.dependents m).length := by
        intro m hm
        rw [Function.update_of_ne (Finset.ne_of_mem_erase hm)]
      simp only [potential, hcons, List.length_append, List.length_cons]
      rw [← Finset.add_sum_erase N _ hn, ← Finset.add_sum_erase N _ hn, Finset.sum_congr rfl hothers,
        Function.update_self]
      omega

theorem run_of_nil (hw : w.worklist = []) (fuel : Nat) : F.run fuel w = w := by
  induction fuel with
  | zero => rfl
  | succ fuel ih =>
    have hsame : F.step w = w := by simp [Flow.step, hw]
    rw [run, hsame, ih]

theorem run_finishes (hF : F.Monotone N U) (h : F.Ascending N U w) {fuel : Nat}
    (hfuel : F.potential N U w ≤ fuel) : (F.run fuel w).worklist = [] := by
  induction fuel generalizing w with
  | zero =>
    have hlen : w.worklist.length = 0 := by
      unfold potential at hfuel
      omega
    exact List.eq_nil_of_length_eq_zero hlen
  | succ fuel ih =>
    by_cases hw : w.worklist = []
    · rw [run_of_nil hw]
      exact hw
    · have hless := potential_step hF h hw
      exact ih (h.step hF) (by omega)

-- The result

/-- `n` is looked at: it was queued at the start, or a fact was added to a node that
wakes it. -/
def Woken (F : Flow ν α) (w₀ : Work ν α) (P : ν → α → Prop) (n : ν) : Prop :=
  n ∈ w₀.worklist ∨ ∃ m x, P m x ∧ x ∉ w₀.value m ∧ n ∈ F.dependents m

variable {w₀ : Work ν α}

/-- Every node that was looked at is queued again or up to date. -/
structure UpToDate (F : Flow ν α) (w₀ w : Work ν α) : Prop where
  grows : ∀ n, w₀.value n ⊆ w.value n
  settled : ∀ n, F.Woken w₀ (fun m x => x ∈ w.value m) n →
    n ∈ w.worklist ∨ F.transfer n w.value ⊆ w.value n

theorem UpToDate.step (hF : F.Monotone N U) (h : F.Ascending N U w) (hu : F.UpToDate w₀ w) :
    F.UpToDate w₀ (F.step w) := by
  cases hw : w.worklist with
  | nil => simpa [Flow.step, hw] using hu
  | cons n rest =>
    rw [step_cons hw]
    split
    · next heq =>
      refine ⟨hu.grows, fun m hm => ?_⟩
      rcases hu.settled m hm with hq | hq
      · rw [hw] at hq
        rcases List.mem_cons.mp hq with rfl | hq
        · exact .inr heq.subset
        · exact .inl hq
      · exact .inr hq
    · refine ⟨fun m => (hu.grows m).trans (subset_update h n m), fun m hm => ?_⟩
      by_cases hdep : m ∈ F.dependents n
      · exact .inl (List.mem_append_right _ hdep)
      · -- a node that `n` does not wake was woken before, and reads nothing new
        have hwoken : F.Woken w₀ (fun m x => x ∈ w.value m) m := by
          rcases hm with hm | ⟨c, x, hx, hnew, hc⟩
          · exact .inl hm
          · have hne : c ≠ n := by
              rintro rfl
              exact hdep hc
            have hx' : x ∈ w.value c := by simpa [hne] using hx
            exact .inr ⟨c, x, hx', hnew, hc⟩
        have hsame := hF.reads m n w.value (F.transfer n w.value) hdep
        by_cases hmn : m = n
        · subst hmn
          refine .inr (hsame.trans ?_)
          simp
        · rw [Function.update_of_ne hmn] at hsame
          rcases hu.settled m hwoken with hq | hq
          · rw [hw] at hq
            exact .inl (List.mem_append_left _ ((List.mem_cons.mp hq).resolve_left hmn))
          · refine .inr ((hsame.trans (Finset.union_subset hq subset_rfl)).trans ?_)
            exact subset_update h n m

theorem run_closed (hF : F.Monotone N U) (h : F.Ascending N U w₀) {fuel : Nat}
    (hfuel : F.potential N U w₀ ≤ fuel) :
    (∀ n, w₀.value n ⊆ (F.run fuel w₀).value n) ∧
      ∀ n, F.Woken w₀ (fun m x => x ∈ (F.run fuel w₀).value m) n →
        F.transfer n (F.run fuel w₀).value ⊆ (F.run fuel w₀).value n := by
  have hstart : F.UpToDate w₀ w₀ := by
    refine ⟨fun _ => subset_rfl, fun n hn => ?_⟩
    rcases hn with hn | ⟨m, x, hx, hnew, -⟩
    · exact .inl hn
    · exact absurd hx hnew
  have hend : F.Ascending N U (F.run fuel w₀) ∧ F.UpToDate w₀ (F.run fuel w₀) :=
    F.run_inv (P := fun w => F.Ascending N U w ∧ F.UpToDate w₀ w) ⟨h, hstart⟩
      (fun w hw => ⟨hw.1.step hF, hw.2.step hF hw.1⟩) fuel
  refine ⟨hend.2.grows, fun n hn => (hend.2.settled n hn).resolve_left ?_⟩
  rw [run_finishes hF h hfuel]
  exact List.not_mem_nil

theorem run_least (hF : F.Monotone N U) (h : F.Ascending N U w₀) {P : ν → α → Prop}
    (h0 : ∀ n, ∀ x ∈ w₀.value n, P n x)
    (hclosed : ∀ n, F.Woken w₀ P n → ∀ v : ν → Finset α, (∀ m, ∀ x ∈ v m, P m x) →
      ∀ x ∈ F.transfer n v, P n x) (fuel : Nat) :
    ∀ n, ∀ x ∈ (F.run fuel w₀).value n, P n x := by
  let Inv (w : Work ν α) : Prop := F.Ascending N U w ∧ (∀ n, w₀.value n ⊆ w.value n) ∧
    (∀ n ∈ w.worklist, F.Woken w₀ P n) ∧ ∀ n, ∀ x ∈ w.value n, P n x
  have hstart : Inv w₀ := ⟨h, fun _ => subset_rfl, fun n hn => .inl hn, h0⟩
  have hstep : ∀ w, Inv w → Inv (F.step w) := by
    rintro w ⟨hasc, hgrows, hq, hv⟩
    refine ⟨hasc.step hF, ?_⟩
    cases hw : w.worklist with
    | nil =>
      have hsame : F.step w = w := by simp [Flow.step, hw]
      rw [hsame]
      exact ⟨hgrows, hq, hv⟩
    | cons n rest =>
      have hn : F.Woken w₀ P n := hq n (by simp [hw])
      have hrest : ∀ m ∈ rest, F.Woken w₀ P m := fun m hm => hq m (by simp [hw, hm])
      have hnew := hclosed n hn w.value hv
      rw [step_cons hw]
      split
      · exact ⟨hgrows, hrest, hv⟩
      · next hne =>
        refine ⟨fun m => (hgrows m).trans (subset_update hasc n m), fun m hm => ?_, fun m x hx => ?_⟩
        · rcases List.mem_append.mp hm with hm | hm
          · exact hrest m hm
          · -- something was added to `n`, so its dependents are woken
            obtain ⟨x, hx, hnot⟩ := Finset.exists_of_ssubset ((hasc.below n).ssubset_of_ne (Ne.symm hne))
            exact .inr ⟨n, x, hnew x hx, fun h0 => hnot (hgrows n h0), hm⟩
        · by_cases hm : m = n
          · subst hm
            exact hnew x (by simpa using hx)
          · exact hv m x (by simpa [hm] using hx)
  exact (F.run_inv hstart hstep fuel).2.2.2

end Flow
end Ruda
