import Ruda.Lib.Fallible

/-!
# Messages of several senders on one queue

Every sender sends the messages of its script in their order and closes the script with a message
that tells that it is done. What was taken from the queue is a log of messages with their
senders: every sender's share of it is the beginning of its script, and once as many closing
messages as there are senders are in it, it holds all scripts.
-/

namespace Ruda

variable {α ε σ : Type}

/-- A state that gives these values one after the other, and then says that there are no more. -/
inductive Emits (f : σ → Res ε (Option (α × σ))) : σ → List α → Prop
  | done {s : σ} (h : f s = .ok none) : Emits f s []
  | more {s s' : σ} {a : α} {as : List α} (h : f s = .ok (some (a, s'))) (rest : Emits f s' as) : Emits f s (a :: as)

namespace Gather

/-- The messages of one sender. -/
def share (i : Nat) (log : List (Nat × α)) : List α := (log.filter fun m => m.1 = i).map Prod.snd

variable {log : List (Nat × α)} {i j n : Nat} {a : α}

@[simp] theorem share_nil : share i ([] : List (Nat × α)) = [] := rfl

theorem share_append (log more : List (Nat × α)) : share i (log ++ more) = share i log ++ share i more := by
  rw [share, List.filter_append, List.map_append]
  rfl

theorem share_cons_self (log : List (Nat × α)) : share i ((i, a) :: log) = a :: share i log := by
  simp [share]

theorem share_cons_other (h : j ≠ i) (log : List (Nat × α)) : share i ((j, a) :: log) = share i log := by
  simp [share, h]

theorem share_snoc_self : share i (log ++ [(i, a)]) = share i log ++ [a] := by
  rw [share_append, share_cons_self, share_nil]

theorem share_snoc_other (h : j ≠ i) : share i (log ++ [(j, a)]) = share i log := by
  rw [share_append, share_cons_other h, share_nil, List.append_nil]

theorem perm_shares (hlog : ∀ m ∈ log, m.1 < n) : (log.map Prod.snd).Perm ((List.range n).flatMap fun i => share i log) := by
  induction n generalizing log with
  | zero =>
    cases log with
    | nil => exact .refl _
    | cons m log => exact absurd (hlog m List.mem_cons_self) (Nat.not_lt_zero _)
  | succ n ih =>
    have hbelow : ∀ m ∈ log.filter fun m => m.1 < n, m.1 < n := fun m hm => of_decide_eq_true (List.mem_filter.mp hm).2
    have hshares : ((List.range n).flatMap fun i => share i (log.filter fun m => m.1 < n)) =
        (List.range n).flatMap fun i => share i log := by
      refine List.flatMap_congr fun i hi => congrArg (List.map Prod.snd) ?_
      rw [List.filter_filter]
      refine List.filter_congr fun m _ => ?_
      have hi := List.mem_range.mp hi
      by_cases heq : m.1 = i
      · simp [heq, hi]
      · simp [heq]
    have hlast : (log.filter fun m => !decide (m.1 < n)) = log.filter fun m => m.1 = n := by
      refine List.filter_congr fun m hm => ?_
      have := hlog m hm
      rw [← decide_not, decide_eq_decide]
      omega
    have hperm := ((List.filter_append_perm (fun m => m.1 < n) log).map Prod.snd).symm
    rw [List.map_append, hlast] at hperm
    rw [List.range_succ, List.flatMap_append, List.flatMap_singleton]
    exact hperm.trans ((hshares ▸ ih hbelow).append_right _)

theorem sum_le_length {l : List Nat} {c : Nat → Nat} (hc : ∀ i ∈ l, c i ≤ 1) : (l.map c).sum ≤ l.length := by
  induction l with
  | nil => exact le_rfl
  | cons x l ih =>
    obtain ⟨hx, hl⟩ := List.forall_mem_cons.mp hc
    rw [List.map_cons, List.sum_cons, List.length_cons, Nat.add_comm]
    exact Nat.add_le_add (ih hl) hx

theorem all_one {l : List Nat} {c : Nat → Nat} (hc : ∀ i ∈ l, c i ≤ 1) (hsum : (l.map c).sum = l.length) : ∀ i ∈ l, c i = 1 := by
  induction l with
  | nil => exact nofun
  | cons x l ih =>
    obtain ⟨hx, hl⟩ := List.forall_mem_cons.mp hc
    rw [List.map_cons, List.sum_cons, List.length_cons] at hsum
    have hle := sum_le_length hl
    exact List.forall_mem_cons.mpr ⟨by omega, ih hl (by omega)⟩

/-- A script closes with a message of its own. -/
structure Closes (last : α → Bool) (script : List α) : Prop where
  ends : ∃ body stop, script = body ++ [stop] ∧ last stop = true ∧ ∀ a ∈ body, last a = false

theorem Closes.countP_le {last : α → Bool} {script part : List α} (h : Closes last script) (hpart : part <+: script) :
    part.countP last ≤ 1 := by
  obtain ⟨body, stop, rfl, hstop, hbody⟩ := h.ends
  refine hpart.sublist.countP_le.trans ?_
  rw [List.countP_append, List.countP_eq_zero.mpr fun a ha => by rw [hbody a ha]; exact Bool.false_ne_true]
  simp [hstop]

theorem Closes.eq_of_countP {last : α → Bool} {script part : List α} (h : Closes last script) (hpart : part <+: script)
    (hcount : part.countP last = 1) : part = script := by
  obtain ⟨body, stop, rfl, hstop, hbody⟩ := h.ends
  rcases List.prefix_concat_iff.mp hpart with heq | hbefore
  · exact heq
  · have hzero : part.countP last = 0 := List.countP_eq_zero.mpr fun a ha => by
      rw [hbody a (hbefore.subset ha)]
      exact Bool.false_ne_true
    omega

theorem complete {last : α → Bool} {scripts : Nat → List α} (hlog : ∀ m ∈ log, m.1 < n)
    (hscripts : ∀ i < n, Closes last (scripts i)) (hshare : ∀ i < n, share i log <+: scripts i)
    (hcount : (log.map Prod.snd).countP last = n) : ∀ i < n, share i log = scripts i := by
  have hsum : ((List.range n).map fun i => (share i log).countP last).sum = (List.range n).length := by
    have hperm := (perm_shares hlog).countP_eq last
    rw [List.countP_flatMap, hcount] at hperm
    rw [List.length_range]
    exact hperm.symm
  have hle : ∀ i ∈ List.range n, (share i log).countP last ≤ 1 := fun i hi =>
    (hscripts i (List.mem_range.mp hi)).countP_le (hshare i (List.mem_range.mp hi))
  intro i hi
  exact (hscripts i hi).eq_of_countP (hshare i hi) (all_one hle hsum i (List.mem_range.mpr hi))

theorem exists_rest {scripts : Nat → List α} (hshare : ∀ i < n, share i log <+: scripts i) :
    ∃ more : List (Nat × α), (∀ m ∈ more, m.1 < n) ∧ ∀ i < n, share i (log ++ more) = scripts i := by
  have hstep : ∀ k ≤ n, ∃ more : List (Nat × α), (∀ m ∈ more, m.1 < k) ∧ ∀ i < k, share i (log ++ more) = scripts i := by
    intro k
    induction k with
    | zero => exact fun _ => ⟨[], nofun, nofun⟩
    | succ k ih =>
      intro hk
      obtain ⟨more, hmore, hsame⟩ := ih (Nat.le_of_succ_le hk)
      obtain ⟨rest, hrest⟩ := hshare k hk
      have hself : share k (rest.map (k, ·)) = rest := by
        simp [share, List.filter_map, Function.comp_def]
      have hother (i : Nat) (hi : i ≠ k) : share i (rest.map (k, ·)) = [] := by
        simp [share, List.filter_map, Function.comp_def, Ne.symm hi]
      have hbefore : share k more = [] := by
        rw [share, List.filter_eq_nil_iff.mpr, List.map_nil]
        intro m hm
        have := hmore m hm
        simpa using this.ne
      refine ⟨more ++ rest.map (k, ·), ?_, fun i hi => ?_⟩
      · intro m hm
        rcases List.mem_append.mp hm with hm | hm
        · exact (hmore m hm).trans (Nat.lt_succ_self k)
        · obtain ⟨a, -, rfl⟩ := List.mem_map.mp hm
          exact Nat.lt_succ_self k
      · rw [← List.append_assoc, share_append]
        rcases Nat.lt_succ_iff_lt_or_eq.mp hi with hlt | rfl
        · rw [hsame i hlt, hother i hlt.ne, List.append_nil]
        · rw [share_append, hbefore, List.append_nil, hself, hrest]
  exact hstep n le_rfl

/-- A log that holds all scripts has as many closing messages as there are senders. -/
theorem countP_complete {last : α → Bool} {scripts : Nat → List α} (hlog : ∀ m ∈ log, m.1 < n)
    (hscripts : ∀ i < n, Closes last (scripts i)) (hall : ∀ i < n, share i log = scripts i) :
    (log.map Prod.snd).countP last = n := by
  have hone : ∀ i ∈ List.range n, (share i log).countP last = 1 := by
    intro i hi
    obtain ⟨body, stop, hscript, hstop, hbody⟩ := (hscripts i (List.mem_range.mp hi)).ends
    have hzero : body.countP last = 0 := List.countP_eq_zero.mpr fun a ha => by
      rw [hbody a ha]
      exact Bool.false_ne_true
    rw [hall i (List.mem_range.mp hi), hscript, List.countP_append, hzero, List.countP_singleton, if_pos hstop]
  have hsum : ((List.range n).map fun i => (share i log).countP last) = (List.range n).map fun _ => 1 := List.map_congr_left hone
  rw [(perm_shares hlog).countP_eq, List.countP_flatMap]
  change ((List.range n).map fun i => (share i log).countP last).sum = n
  rw [hsum, List.map_const', List.sum_replicate, List.length_range, smul_eq_mul, Nat.mul_one]

end Gather

end Ruda
