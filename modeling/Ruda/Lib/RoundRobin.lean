import Mathlib

/-!
# Merging keyed queues

Queues under distinct keys, every element of a queue having the queue's key.
Taking the queues one after another and taking one element from each in turn
both keep, for each key, the elements of its queue in their order.
-/

namespace Ruda

variable {κ α : Type}

/-- The queue of a key, empty when there is none. -/
def queueAt [DecidableEq κ] (k : κ) (queues : List (κ × List α)) : List α := (queues.lookup k).getD []

/-- Distinct keys, and every element under its own. -/
structure Keyed (key : α → κ) (queues : List (κ × List α)) : Prop where
  own : ∀ q ∈ queues, ∀ x ∈ q.2, key x = q.1
  distinct : (queues.map Prod.fst).Nodup

/-- `rounds` passes, each taking the next element of every queue that has one. -/
def roundRobin : Nat → List (κ × List α) → List α
  | 0, _ => []
  | rounds + 1, queues =>
    queues.filterMap (fun q => q.2.head?) ++ roundRobin rounds (queues.map fun q => (q.1, q.2.tail))

section
variable {key : α → κ} {k : κ} {q : κ × List α} {queues : List (κ × List α)}

namespace Keyed

theorem of_cons (h : Keyed key (q :: queues)) : Keyed key queues :=
  ⟨fun p hp => h.own p (List.mem_cons_of_mem _ hp), (List.nodup_cons.mp h.distinct).2⟩

theorem tails (h : Keyed key queues) : Keyed key (queues.map fun q => (q.1, q.2.tail)) := by
  constructor
  · intro q hq x hx
    obtain ⟨p, hp, rfl⟩ := List.mem_map.mp hq
    exact h.own p hp x (List.mem_of_mem_tail hx)
  · have hfst : (queues.map fun q => (q.1, q.2.tail)).map Prod.fst = queues.map Prod.fst := by simp
    rw [hfst]
    exact h.distinct

end Keyed

variable [DecidableEq κ]

theorem queueAt_cons : queueAt k (q :: queues) = if q.1 = k then q.2 else queueAt k queues := by
  unfold queueAt
  by_cases h : q.1 = k
  · simp [List.lookup, h]
  · have h' : (k == q.1) = false := by simpa using fun e => h (Eq.symm e)
    simp [List.lookup, h', h]

theorem queueAt_of_not_mem (h : k ∉ queues.map Prod.fst) : queueAt k queues = [] := by
  induction queues with
  | nil => rfl
  | cons q queues ih =>
    simp only [List.map_cons, List.mem_cons, not_or] at h
    rw [queueAt_cons, if_neg (Ne.symm h.1), ih h.2]

theorem queueAt_tails :
    queueAt k (queues.map fun q => (q.1, q.2.tail)) = (queueAt k queues).tail := by
  induction queues with
  | nil => rfl
  | cons q queues ih =>
    rw [List.map_cons, queueAt_cons, queueAt_cons, ih]
    split <;> rfl

namespace Keyed

theorem queueAt_head (h : Keyed key (q :: queues)) (hk : q.1 = k) : queueAt k queues = [] := by
  apply queueAt_of_not_mem
  rw [← hk]
  exact (List.nodup_cons.mp h.distinct).1

theorem filter_own (h : Keyed key (q :: queues)) {l : List α} (hl : ∀ x ∈ l, x ∈ q.2) :
    l.filter (fun x => key x = k) = if q.1 = k then l else [] := by
  have hkey : ∀ x ∈ l, key x = q.1 := fun x hx => h.own q List.mem_cons_self x (hl x hx)
  split
  · next hk =>
    rw [List.filter_eq_self]
    intro x hx
    simp [hkey x hx, hk]
  · next hk =>
    rw [List.filter_eq_nil_iff]
    intro x hx
    simp [hkey x hx, hk]

theorem filter_flatMap (h : Keyed key queues) :
    (queues.flatMap Prod.snd).filter (fun x => key x = k) = queueAt k queues := by
  induction queues with
  | nil => rfl
  | cons q queues ih =>
    rw [List.flatMap_cons, List.filter_append, h.filter_own (fun x hx => hx), ih h.of_cons,
      queueAt_cons]
    split
    · next hk => rw [h.queueAt_head hk, List.append_nil]
    · rfl

theorem filter_heads (h : Keyed key queues) :
    (queues.filterMap fun q => q.2.head?).filter (fun x => key x = k) = (queueAt k queues).take 1 := by
  induction queues with
  | nil => rfl
  | cons q queues ih =>
    have hcons : (q :: queues).filterMap (fun q => q.2.head?) =
        q.2.take 1 ++ queues.filterMap fun q => q.2.head? := by
      rcases q with ⟨_, _ | ⟨x, l⟩⟩ <;> simp [List.filterMap_cons]
    rw [hcons, List.filter_append, h.filter_own (fun x hx => List.mem_of_mem_take hx), ih h.of_cons,
      queueAt_cons]
    split
    · next hk => rw [h.queueAt_head hk, List.take_nil, List.append_nil]
    · rfl

theorem filter_roundRobin (h : Keyed key queues) (rounds : Nat) :
    (roundRobin rounds queues).filter (fun x => key x = k) = (queueAt k queues).take rounds := by
  induction rounds generalizing queues with
  | zero => simp [roundRobin]
  | succ rounds ih =>
    rw [roundRobin, List.filter_append, h.filter_heads, ih h.tails, queueAt_tails]
    cases queueAt k queues <;> simp

end Keyed

theorem mem_queueAt {x : α} (h : x ∈ queueAt k queues) : ∃ q ∈ queues, q.1 = k ∧ queueAt k queues = q.2 := by
  induction queues with
  | nil => cases h
  | cons q queues ih =>
    rw [queueAt_cons] at h ⊢
    split
    · next hk => exact ⟨q, List.mem_cons_self, hk, rfl⟩
    · next hk =>
      rw [if_neg hk] at h
      obtain ⟨p, hp, hpk⟩ := ih h
      exact ⟨p, List.mem_cons_of_mem _ hp, hpk⟩

end

end Ruda
