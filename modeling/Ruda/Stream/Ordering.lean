import Ruda.Stream.Scheduler
import Ruda.Lib.RoundRobin

/-!
# Task order across streams

What one execution does to the queues and to the backend, and from it the order
in which a whole run hands its tasks to the backend. The `home` of a task is
the slot it is queued on; under the interleaving strategy its tasks may be
enqueued on another slot's stream.
-/

namespace Ruda.Stream

open SchedulerMultiStream

variable {τ : Type}

-- Backend calls

def Event.task? : Event τ → Option τ
  | .enqueue task _ => some task
  | .flush _ => none

/-- The tasks enqueued by some backend calls, in order. -/
def enqueued (events : List (Event τ)) : List τ := events.filterMap Event.task?

@[simp] theorem enqueued_nil : enqueued ([] : List (Event τ)) = [] := rfl

@[simp] theorem enqueued_append (e₁ e₂ : List (Event τ)) :
    enqueued (e₁ ++ e₂) = enqueued e₁ ++ enqueued e₂ := List.filterMap_append

@[simp] theorem enqueued_cons_enqueue (task : τ) (slot : Nat) (events : List (Event τ)) :
    enqueued (.enqueue task slot :: events) = task :: enqueued events := rfl

@[simp] theorem enqueued_cons_flush (slot : Nat) (events : List (Event τ)) :
    enqueued (.flush slot :: events) = enqueued events := rfl

@[simp] theorem enqueued_map_enqueue (tasks : List τ) (slot : Nat) :
    enqueued (tasks.map (.enqueue · slot)) = tasks := by
  induction tasks with
  | nil => rfl
  | cons task tasks ih => rw [List.map_cons, enqueued_cons_enqueue, ih]

@[simp] theorem enqueued_map_flush {β : Type} (l : List β) (slot : β → Nat) :
    enqueued (l.map fun x => (.flush (slot x) : Event τ)) = [] := by
  induction l with
  | nil => rfl
  | cons x l ih => rw [List.map_cons, enqueued_cons_flush, ih]

/-- The task was enqueued and the stream that received it flushed after that. -/
def Flushed (events : List (Event τ)) (task : τ) : Prop :=
  ∃ before slot after, events = before ++ .enqueue task slot :: after ∧ .flush slot ∈ after

theorem Flushed.mem {events : List (Event τ)} {task : τ} (h : Flushed events task) :
    task ∈ enqueued events := by
  obtain ⟨before, slot, after, rfl, -⟩ := h
  simp

theorem Flushed.append {events : List (Event τ)} {task : τ} (h : Flushed events task)
    (more : List (Event τ)) : Flushed (events ++ more) task := by
  obtain ⟨before, slot, after, rfl, hf⟩ := h
  exact ⟨before, slot, after ++ more, by simp, by simp [hf]⟩

theorem Flushed.prepend {events : List (Event τ)} {task : τ} (h : Flushed events task)
    (more : List (Event τ)) : Flushed (more ++ events) task := by
  obtain ⟨before, slot, after, rfl, hf⟩ := h
  exact ⟨more ++ before, slot, after, by simp, hf⟩

/-- Every stream that received a task was flushed after it. -/
def Settled (events : List (Event τ)) : Prop := ∀ task ∈ enqueued events, Flushed events task

theorem Settled.nil : Settled ([] : List (Event τ)) := nofun

theorem Settled.append {e₁ e₂ : List (Event τ)} (h₁ : Settled e₁) (h₂ : Settled e₂) :
    Settled (e₁ ++ e₂) := by
  intro task ht
  rw [enqueued_append, List.mem_append] at ht
  cases ht with
  | inl h => exact (h₁ task h).append e₂
  | inr h => exact (h₂ task h).prepend e₁

theorem Settled.flushes {β : Type} (l : List β) (slot : β → Nat) :
    Settled (l.map fun x => (.flush (slot x) : Event τ)) := by
  intro task ht
  rw [enqueued_map_flush] at ht
  cases ht

theorem Settled.batch (tasks : List τ) (slot : Nat) :
    Settled (tasks.map (.enqueue · slot) ++ [.flush slot]) := by
  intro task ht
  have hmem : task ∈ tasks := by simpa using ht
  obtain ⟨l, r, rfl⟩ := List.append_of_mem hmem
  exact ⟨l.map (.enqueue · slot), slot, r.map (.enqueue · slot) ++ [.flush slot], by simp, by simp⟩

-- Queues

namespace SchedulerMultiStream

/-- The tasks waiting on a slot. -/
def queue (s : SchedulerMultiStream τ) (i : Nat) : List τ := (s.streams[i]?.join).getD []

/-- From `s` to `s'` the backend got the calls `events`, and the queues became `queue`. -/
structure Moves (s : SchedulerMultiStream τ) (events : List (Event τ)) (queue : Nat → List τ)
    (s' : SchedulerMultiStream τ) : Prop where
  trace : s'.trace = s.trace ++ events
  queue : s'.queue = queue
  slots : s'.streams.length = s.streams.length
  maxStreams : s'.maxStreams = s.maxStreams
  maxTasks : s'.maxTasks = s.maxTasks

variable {s s' s'' : SchedulerMultiStream τ} {e e' : List (Event τ)} {q q' : Nat → List τ}

theorem Moves.refl : Moves s [] s.queue s := ⟨by simp, rfl, rfl, rfl, rfl⟩

theorem Moves.trans (h : Moves s e q s') (h' : Moves s' e' q' s'') : Moves s (e ++ e') q' s'' where
  trace := by rw [h'.trace, h.trace, List.append_assoc]
  queue := h'.queue
  slots := h'.slots.trans h.slots
  maxStreams := h'.maxStreams.trans h.maxStreams
  maxTasks := h'.maxTasks.trans h.maxTasks

/-- The slots match the configured number of streams, of which there is at least one. -/
structure Sized (s : SchedulerMultiStream τ) : Prop where
  slots : s.streams.length = s.maxStreams
  pos : 0 < s.maxStreams
  le : s.maxStreams ≤ 255

theorem Sized.moves (h : Sized s) (hm : Moves s e q s') : Sized s' := by
  obtain ⟨hs, hp, hl⟩ := h
  exact ⟨by rw [hm.slots, hm.maxStreams, hs], by rwa [hm.maxStreams], by rwa [hm.maxStreams]⟩

theorem Sized.index_lt (h : Sized s) (id : StreamId) :
    Stream.streamIndex id s.maxStreams < s.streams.length := by
  rw [h.slots]
  exact Nat.mod_lt _ h.pos

/-- Nothing here panics. -/
def NoFault : Fault → SchedulerMultiStream τ → Prop := fun _ _ => False

theorem indexOf_ok (h : Sized s) (id : StreamId) :
    Triple (indexOf id) s (fun i s' => i = Stream.streamIndex id s.maxStreams ∧ s' = s) NoFault := by
  refine Triple.get_bind ?_
  rw [if_neg h.pos.ne']
  exact Triple.pure' ⟨rfl, rfl⟩

theorem getMutIndex_ok {α : Type} {i : Nat} (h : i < s.streams.length) (use : List τ → α × List τ) :
    Triple (getMutIndex i use) s
      (fun a s' => a = (use (s.queue i)).1 ∧
        Moves s [] (Function.update s.queue i (use (s.queue i)).2) s') NoFault := by
  refine Triple.get_bind (Triple.expect_bind ?_ ?_)
  · intro hn
    rw [List.getElem?_eq_none_iff] at hn
    omega
  · intro entry he
    have hq : entry.getD [] = s.queue i := by simp [queue, he]
    refine Triple.set_bind (Triple.pure' ⟨by rw [hq], ?_⟩)
    refine ⟨by simp, ?_, by simp, rfl, rfl⟩
    funext j
    by_cases hj : j = i
    · subst hj
      rw [Function.update_self, ← hq]
      simp [queue, h]
    · simp [queue, Function.update_of_ne hj, List.getElem?_set_ne (Ne.symm hj)]

theorem borrow_ok {i : Nat} (h : i < s.streams.length) :
    Triple (borrow i) s (fun _ s' => Moves s [] s.queue s') NoFault := by
  refine (getMutIndex_ok h _).mono ?_ (fun _ _ hf => hf)
  rintro _ s' ⟨-, hm⟩
  rwa [Function.update_eq_self] at hm

theorem backend_ok (event : Event τ) :
    Triple (backend event) s (fun _ s' => Moves s [event] s.queue s') NoFault :=
  Triple.modify' ⟨rfl, rfl, rfl, rfl, rfl⟩

theorem forM_moves {β : Type} {f : β → M (SchedulerMultiStream τ) PUnit} {e : β → List (Event τ)}
    {l : List β} (h : ∀ x ∈ l, ∀ s' : SchedulerMultiStream τ, s'.streams.length = s.streams.length →
      Triple (f x) s' (fun _ s'' => Moves s' (e x) s'.queue s'') NoFault) :
    Triple (l.forM f) s (fun _ s' => Moves s (l.flatMap e) s.queue s') NoFault := by
  induction l generalizing s with
  | nil => exact Triple.pure' Moves.refl
  | cons x l ih =>
    refine Triple.bind (h x List.mem_cons_self s rfl) ?_
    intro _ s₁ h₁
    refine (ih (s := s₁) ?_).mono ?_ (fun _ _ hf => hf)
    · intro y hy s' hs'
      exact h y (List.mem_cons_of_mem _ hy) s' (hs'.trans h₁.slots)
    · intro _ s₂ h₂
      rw [h₁.queue] at h₂
      exact h₁.trans h₂

theorem enqueueAll_ok (tasks : List τ) (slot : Nat) :
    Triple (tasks.forM fun task => backend (.enqueue task slot)) s
      (fun _ s' => Moves s (tasks.map (.enqueue · slot)) s.queue s') NoFault := by
  rw [← List.flatMap_pure_eq_map]
  exact forM_moves fun task _ s' _ => backend_ok _


-- Executing schedules

/-- The queues a list of schedules was taken from. -/
def taken (schedules : List (Schedule τ)) : List (Nat × List τ) :=
  schedules.map fun schedule => (schedule.streamIndex, schedule.tasks)

theorem interleaveRounds_ok (slot rounds : Nat) (schedules : List (Schedule τ)) :
    Triple (interleaveRounds slot rounds schedules) s
      (fun _ s' => Moves s ((roundRobin rounds (taken schedules)).map (.enqueue · slot)) s.queue s')
      NoFault := by
  induction rounds generalizing s schedules with
  | zero => exact Triple.pure' Moves.refl
  | succ rounds ih =>
    refine Triple.bind (forM_moves (e := fun schedule =>
      (schedule.tasks.head?.toList).map (.enqueue · slot)) ?_) ?_
    · intro schedule _ s' _
      cases schedule.tasks with
      | nil => exact Triple.pure' Moves.refl
      | cons task rest => exact backend_ok _
    · intro _ s₁ h₁
      refine (ih _).mono ?_ (fun _ _ hf => hf)
      intro _ s₂ h₂
      have hheads : (taken schedules).filterMap (fun q => q.2.head?) =
          schedules.flatMap fun schedule => schedule.tasks.head?.toList := by
        rw [taken, List.filterMap_map, List.filterMap_eq_flatMap_toList]
        rfl
      have htails : taken (schedules.map fun schedule =>
          { schedule with tasks := schedule.tasks.tail }) =
          (taken schedules).map fun q => (q.1, q.2.tail) := by
        simp [taken]
      rw [h₁.queue, htails] at h₂
      rw [roundRobin, List.map_append, hheads, List.map_flatMap]
      exact h₁.trans h₂

/-- What executing some queues has to do: each queue reaches the backend whole
and in order, nothing else does, and the streams used are flushed. -/
structure Executes (home : τ → Nat) (queues : List (Nat × List τ)) (events : List (Event τ)) : Prop where
  inOrder : ∀ k, (enqueued events).filter (fun t => home t = k) = queueAt k queues
  settled : Settled events

section
variable {home : τ → Nat} {schedules : List (Schedule τ)}

theorem executeSchedulesSequence_ok (hk : Keyed home (taken schedules))
    (hin : ∀ schedule ∈ schedules, schedule.streamIndex < s.streams.length) :
    Triple (executeSchedulesSequence schedules) s
      (fun _ s' => ∃ events, Moves s events s.queue s' ∧ Executes home (taken schedules) events)
      NoFault := by
  let ev (schedule : Schedule τ) : List (Event τ) :=
    schedule.tasks.map (.enqueue · schedule.streamIndex) ++ [.flush schedule.streamIndex]
  have hev : enqueued (schedules.flatMap ev) = (taken schedules).flatMap Prod.snd := by
    clear hk hin
    induction schedules with
    | nil => rfl
    | cons schedule schedules ih => simp [ev, taken] at ih ⊢; exact ih
  have hsettled : Settled (schedules.flatMap ev) := by
    clear hk hin hev
    induction schedules with
    | nil => exact Settled.nil
    | cons schedule schedules ih =>
      rw [List.flatMap_cons]
      exact (Settled.batch _ _).append ih
  refine (forM_moves (e := ev) ?_).mono ?_ (fun _ _ hf => hf)
  · intro schedule hs s' hs'
    refine Triple.bind (borrow_ok ((hin schedule hs).trans_eq hs'.symm)) ?_
    intro _ s₁ h₁
    refine Triple.bind (enqueueAll_ok _ _) ?_
    intro _ s₂ h₂
    refine (backend_ok _).mono ?_ (fun _ _ hf => hf)
    intro _ s₃ h₃
    rw [h₂.queue] at h₃
    have h := (h₁.trans h₂).trans h₃
    rwa [h₁.queue] at h
  · intro _ s' hm
    exact ⟨_, hm, fun k => by rw [hev, hk.filter_flatMap], hsettled⟩

theorem executeSchedulesInterleave_ok (hk : Keyed home (taken schedules)) (hne : schedules ≠ [])
    (hnum : ∀ schedule ∈ schedules, schedule.numTasks = schedule.tasks.length)
    (hin : ∀ schedule ∈ schedules, schedule.streamIndex < s.streams.length) :
    Triple (executeSchedulesInterleave schedules) s
      (fun _ s' => ∃ events, Moves s events s.queue s' ∧ Executes home (taken schedules) events)
      NoFault := by
  refine Triple.bind (forM_moves (e := fun schedule => [.flush schedule.streamIndex]) ?_) ?_
  · intro schedule hs s' hs'
    refine Triple.bind (borrow_ok ((hin schedule (List.mem_of_mem_drop hs)).trans_eq hs'.symm)) ?_
    intro _ s₁ h₁
    refine (backend_ok _).mono ?_ (fun _ _ hf => hf)
    intro _ s₂ h₂
    rw [h₁.queue] at h₂
    exact h₁.trans h₂
  intro _ s₁ h₁
  refine Triple.expect_bind (fun hn => hne (by simpa using hn)) ?_
  intro first hfirst
  have hmem : first ∈ schedules := List.mem_of_mem_head? hfirst
  refine Triple.bind (borrow_ok ((hin first hmem).trans_eq h₁.slots.symm)) ?_
  intro _ s₂ h₂
  refine Triple.expect_bind (fun hn => hne (by simpa using hn)) ?_
  intro rounds hrounds
  refine Triple.bind (interleaveRounds_ok _ _ _) ?_
  intro _ s₃ h₃
  refine (backend_ok _).mono ?_ (fun _ _ hf => hf)
  intro _ s₄ h₄
  have hflush : (schedules.drop 1).flatMap (fun schedule => [.flush schedule.streamIndex]) =
      (schedules.drop 1).map fun schedule => (.flush schedule.streamIndex : Event τ) :=
    List.flatMap_pure_eq_map _ _
  have hlen : ∀ k, (queueAt k (taken schedules)).length ≤ rounds := by
    intro k
    cases hq : queueAt k (taken schedules) with
    | nil => exact Nat.zero_le _
    | cons t l =>
      obtain ⟨q, hq', -, he⟩ := mem_queueAt (k := k) (hq ▸ List.mem_cons_self)
      obtain ⟨schedule, hs, rfl⟩ := List.mem_map.mp hq'
      rw [← hq, he, ← hnum schedule hs]
      exact (List.max?_eq_some_iff.mp hrounds).2 _ (List.mem_map_of_mem hs)
  have hm := ((h₁.trans h₂).trans h₃).trans h₄
  rw [h₃.queue, h₂.queue, h₁.queue, List.append_nil, List.append_assoc, hflush] at hm
  refine ⟨_, hm, ?_, (Settled.flushes _ _).append (Settled.batch _ _)⟩
  intro k
  rw [enqueued_append, enqueued_append, enqueued_map_flush, enqueued_map_enqueue]
  simp [hk.filter_roundRobin, List.take_of_length_le (hlen k)]

theorem executeSchedules_ok (hk : Keyed home (taken schedules)) (hne : schedules ≠ [])
    (hnum : ∀ schedule ∈ schedules, schedule.numTasks = schedule.tasks.length)
    (hin : ∀ schedule ∈ schedules, schedule.streamIndex < s.streams.length) :
    Triple (executeSchedules schedules) s
      (fun _ s' => ∃ events, Moves s events s.queue s' ∧ Executes home (taken schedules) events)
      NoFault := by
  refine Triple.get_bind ?_
  cases s.strategy with
  | interleave => exact executeSchedulesInterleave_ok hk hne hnum hin
  | sequential => exact executeSchedulesSequence_ok hk hin

end

-- Executing streams

/-- The queues of some slots. -/
def queuesAt (queue : Nat → List τ) (slots : List Nat) : List (Nat × List τ) :=
  slots.map fun i => (i, queue i)

/-- The queues after those of some slots were taken. -/
def without (queue : Nat → List τ) (slots : List Nat) (i : Nat) : List τ :=
  if i ∈ slots then [] else queue i

/-- Tasks wait on their own slot. -/
def AtHome (home : τ → Nat) (queue : Nat → List τ) : Prop := ∀ i, ∀ t ∈ queue i, home t = i

theorem queueAt_queuesAt {queue : Nat → List τ} {slots : List Nat} {k : Nat} :
    queueAt k (queuesAt queue slots) = if k ∈ slots then queue k else [] := by
  induction slots with
  | nil => rfl
  | cons i slots ih =>
    rw [queuesAt, List.map_cons, queueAt_cons, ← queuesAt, ih]
    by_cases hi : i = k
    · simp [hi]
    · simp [hi, Ne.symm hi]

theorem AtHome.keyed {home : τ → Nat} {queue : Nat → List τ} (h : AtHome home queue)
    {slots : List Nat} (hn : slots.Nodup) : Keyed home (queuesAt queue slots) := by
  constructor
  · intro q hq x hx
    obtain ⟨i, -, rfl⟩ := List.mem_map.mp hq
    exact h i x hx
  · have hfst : (queuesAt queue slots).map Prod.fst = slots := by
      rw [queuesAt, List.map_map]
      exact List.map_id slots
    rwa [hfst]

def scheduleFrom (queue : Nat → List τ) (i : Nat) : Schedule τ :=
  { tasks := queue i, numTasks := (queue i).length, streamIndex := i }

theorem scheduleOf_ok {i : Nat} (h : i < s.streams.length) :
    Triple (scheduleOf i) s
      (fun schedule s' => schedule = scheduleFrom s.queue i ∧
        Moves s [] (without s.queue [i]) s') NoFault := by
  refine Triple.bind (getMutIndex_ok h _) ?_
  rintro tasks s' ⟨rfl, hm⟩
  refine Triple.pure' ⟨rfl, ?_⟩
  have hw : without s.queue [i] = Function.update s.queue i [] := by
    funext j
    by_cases hj : j = i
    · simp [without, hj]
    · simp [without, hj]
  rwa [hw]

theorem schedulesOf_ok {slots : List Nat} (hn : slots.Nodup) (hin : ∀ i ∈ slots, i < s.streams.length) :
    Triple (slots.mapM scheduleOf) s
      (fun schedules s' => schedules = slots.map (scheduleFrom s.queue) ∧
        Moves s [] (without s.queue slots) s') NoFault := by
  induction slots generalizing s with
  | nil => exact Triple.pure' ⟨rfl, Moves.refl⟩
  | cons i slots ih =>
    obtain ⟨hi, hn'⟩ := List.nodup_cons.mp hn
    rw [List.mapM_cons]
    refine Triple.bind (scheduleOf_ok (hin i List.mem_cons_self)) ?_
    rintro _ s₁ ⟨rfl, h₁⟩
    refine Triple.bind (ih hn' fun j hj => (hin j (List.mem_cons_of_mem _ hj)).trans_eq h₁.slots.symm) ?_
    rintro _ s₂ ⟨rfl, h₂⟩
    have hrest : slots.map (scheduleFrom s₁.queue) = slots.map (scheduleFrom s.queue) := by
      refine List.map_congr_left fun j hj => ?_
      have hji : j ≠ i := fun e => hi (e ▸ hj)
      simp [scheduleFrom, h₁.queue, without, hji]
    have hqueue : without s₁.queue slots = without s.queue (i :: slots) := by
      funext j
      rw [h₁.queue]
      by_cases hj : j ∈ slots
      · simp [without, hj]
      · simp [without, hj]
    refine Triple.pure' ⟨by rw [hrest, List.map_cons], ?_⟩
    rw [← hqueue]
    exact h₁.trans h₂

section
variable {home : τ → Nat}

/-- The tasks of some slots go to the backend. -/
structure Runs (home : τ → Nat) (s : SchedulerMultiStream τ) (slots : List Nat)
    (s' : SchedulerMultiStream τ) (events : List (Event τ)) : Prop where
  moves : Moves s events (without s.queue slots) s'
  executes : Executes home (queuesAt s.queue slots) events

theorem Runs.none : Runs home s [] s [] := by
  refine ⟨?_, fun k => rfl, Settled.nil⟩
  have hw : without s.queue [] = s.queue := by
    funext i
    simp [without]
  rw [hw]
  exact Moves.refl

theorem executeSlots_ok (hq : AtHome home s.queue) {slots : List Nat} (hn : slots.Nodup)
    (hne : slots ≠ []) (hin : ∀ i ∈ slots, i < s.streams.length) (s₁ : SchedulerMultiStream τ)
    (hm : Moves s [] (without s.queue slots) s₁) :
    Triple (executeSchedules (slots.map (scheduleFrom s.queue))) s₁
      (fun _ s' => ∃ events, Runs home s slots s' events) NoFault := by
  have htaken : taken (slots.map (scheduleFrom s.queue)) = queuesAt s.queue slots := by
    simp [taken, queuesAt, scheduleFrom]
  have hk : Keyed home (taken (slots.map (scheduleFrom s.queue))) := by
    rw [htaken]
    exact hq.keyed hn
  refine (executeSchedules_ok hk (by simpa using hne) ?_ ?_).mono ?_ (fun _ _ hf => hf)
  · intro schedule hs
    obtain ⟨i, -, rfl⟩ := List.mem_map.mp hs
    rfl
  · intro schedule hs
    obtain ⟨i, hi, rfl⟩ := List.mem_map.mp hs
    exact (hin i hi).trans_eq hm.slots.symm
  · rintro _ s' ⟨events, hm', he⟩
    rw [htaken] at he
    rw [hm.queue] at hm'
    exact ⟨events, hm.trans hm', he⟩

theorem executeStreamIndex_ok (hq : AtHome home s.queue) {i : Nat} (h : i < s.streams.length) :
    Triple (executeStreamIndex i) s (fun _ s' => ∃ events, Runs home s [i] s' events) NoFault := by
  refine Triple.bind (scheduleOf_ok h) ?_
  rintro _ s₁ ⟨rfl, h₁⟩
  exact executeSlots_ok hq (List.nodup_singleton i) (by simp) (by simpa using h) s₁ h₁

end

-- The bit set of `execute_streams`

/-- The bit of an index. -/
def seenBit (seen : List (BitVec 64)) (i : Nat) : Bool := ((seen[i / 64]?).getD 0).getLsbD (i % 64)

theorem and_mask_eq_zero (word : BitVec 64) (j : Nat) (hj : j < 64) :
    word &&& 1#64 <<< j = 0 ↔ word.getLsbD j = false := by
  have htwo : 1#64 <<< j = BitVec.twoPow 64 j := (BitVec.twoPow_eq 64 j).symm
  rw [htwo, BitVec.and_twoPow]
  cases word.getLsbD j with
  | false => simp
  | true =>
    simp only [↓reduceIte, Bool.true_eq_false, iff_false]
    intro h
    have hbit := congrArg (fun w => w.getLsbD j) h
    simp [hj] at hbit

theorem seenBit_set {seen : List (BitVec 64)} {i k : Nat} {word : BitVec 64}
    (hw : seen[i / 64]? = some word) :
    seenBit (seen.set (i / 64) (word ||| 1#64 <<< (i % 64))) k = (seenBit seen k || decide (k = i)) := by
  have htwo : 1#64 <<< (i % 64) = BitVec.twoPow 64 (i % 64) := (BitVec.twoPow_eq 64 _).symm
  have hlt : i / 64 < seen.length := (List.getElem?_eq_some_iff.mp hw).1
  unfold seenBit
  by_cases hk : k / 64 = i / 64
  · have hki : k = i ↔ k % 64 = i % 64 := by omega
    rw [hk, List.getElem?_set_self hlt, hw, htwo]
    simp [hki, Nat.mod_lt]
  · have hki : k ≠ i := fun e => hk (by rw [e])
    rw [List.getElem?_set_ne (Ne.symm hk)]
    simp [hki]

theorem uniqueIndices_ok (h : Sized s) (ids : List StreamId) (seen : List (BitVec 64)) (indices : List Nat)
    (hlen : seen.length = 4) (hn : indices.Nodup) (hseen : ∀ i, i < s.maxStreams → (seenBit seen i = true ↔ i ∈ indices)) :
    Triple (uniqueIndices ids seen indices) s
      (fun r s' => s' = s ∧ r.Nodup ∧
        ∀ i, i ∈ r ↔ i ∈ indices ∨ ∃ id ∈ ids, Stream.streamIndex id s.maxStreams = i) NoFault := by
  induction ids generalizing seen indices with
  | nil => exact Triple.pure' ⟨rfl, hn, by simp⟩
  | cons id ids ih =>
    refine Triple.bind (indexOf_ok h id) ?_
    rintro index s₁ ⟨hindex, hs₁⟩
    obtain rfl : s = s₁ := hs₁.symm
    have hi : index < s.maxStreams := hindex ▸ Nat.mod_lt _ h.pos
    have h255 := h.le
    refine Triple.expect_bind ?_ ?_
    · intro hnone
      rw [List.getElem?_eq_none_iff] at hnone
      omega
    intro word hword
    have hbit : word &&& 1#64 <<< (index % 64) = 0 ↔ index ∉ indices := by
      rw [and_mask_eq_zero _ _ (Nat.mod_lt _ (by decide)), ← hseen index hi, seenBit, hword]
      simp
    dsimp only
    refine Triple.ite ?_ ?_
    · intro hzero
      have hnew := hbit.mp hzero
      refine (ih _ _ (by simpa using hlen) ?_ ?_).mono ?_ (fun _ _ hf => hf)
      · rw [List.nodup_append]
        refine ⟨hn, List.nodup_singleton _, fun j hj k hk => ?_⟩
        rw [List.mem_singleton.mp hk]
        exact ne_of_mem_of_not_mem hj hnew
      · intro i hi'
        rw [seenBit_set hword]
        simp [hseen i hi']
      · rintro r s₁ ⟨hs₁, hr, hmem⟩
        refine ⟨hs₁, hr, fun i => ?_⟩
        rw [hmem i]
        simp [← hindex, eq_comm, or_assoc]
    · intro hzero
      have hold : index ∈ indices := by
        by_contra hnew
        exact hzero (hbit.mpr hnew)
      refine (ih _ _ hlen hn hseen).mono ?_ (fun _ _ hf => hf)
      rintro r s₁ ⟨hs₁, hr, hmem⟩
      refine ⟨hs₁, hr, fun i => ?_⟩
      rw [hmem i]
      simp only [List.mem_cons, exists_eq_or_imp, ← hindex]
      constructor
      · rintro (hi' | hids)
        · exact .inl hi'
        · exact .inr (.inr hids)
      · rintro (hi' | rfl | hids)
        · exact .inl hi'
        · exact .inl hold
        · exact .inr hids

section
variable {home : τ → Nat}

theorem executeStreams_ok (h : Sized s) (hq : AtHome home s.queue) (ids : List StreamId) :
    Triple (executeStreams ids) s
      (fun _ s' => ∃ slots events, (∀ id ∈ ids, Stream.streamIndex id s.maxStreams ∈ slots) ∧
        Runs home s slots s' events) NoFault := by
  have hsingle : ∀ i, i < s.streams.length → (∀ id ∈ ids, Stream.streamIndex id s.maxStreams = i) →
      Triple (executeStreamIndex i) s
        (fun _ s' => ∃ slots events, (∀ id ∈ ids, Stream.streamIndex id s.maxStreams ∈ slots) ∧
          Runs home s slots s' events) NoFault := by
    intro i hi hids
    refine (executeStreamIndex_ok hq hi).mono ?_ (fun _ _ hf => hf)
    rintro _ s' ⟨events, hr⟩
    exact ⟨[i], events, by simpa using hids, hr⟩
  have hloop : Triple (uniqueIndices ids (List.replicate 4 0) []) s
      (fun r s' => s' = s ∧ r.Nodup ∧ ∀ i, i ∈ r ↔ ∃ id ∈ ids, Stream.streamIndex id s.maxStreams = i)
      NoFault := by
    refine (uniqueIndices_ok h ids _ _ rfl List.nodup_nil ?_).mono ?_ (fun _ _ hf => hf)
    · intro i _
      have hzero : ((List.replicate 4 (0 : BitVec 64))[i / 64]?).getD 0 = 0 := by
        rw [List.getElem?_replicate]
        split <;> rfl
      rw [seenBit, hzero]
      simp
    · rintro r s' ⟨hs', hr, hmem⟩
      exact ⟨hs', hr, by simpa using hmem⟩
  unfold executeStreams
  split
  · next id =>
    refine Triple.bind (indexOf_ok h id) ?_
    rintro index s₁ ⟨rfl, hs₁⟩
    obtain rfl : s = s₁ := hs₁.symm
    exact hsingle _ (h.index_lt id) (by simp)
  · refine Triple.bind hloop ?_
    rintro indices s₁ ⟨hs₁, hn, hmem⟩
    obtain rfl : s = s₁ := hs₁.symm
    have hin : ∀ i ∈ indices, i < s.streams.length := by
      intro i hi
      obtain ⟨id, -, rfl⟩ := (hmem i).mp hi
      exact h.index_lt id
    have hcover : ∀ id ∈ ids, Stream.streamIndex id s.maxStreams ∈ indices :=
      fun id hid => (hmem _).mpr ⟨id, hid, rfl⟩
    split
    · next index =>
      exact hsingle index (hin index List.mem_cons_self) fun id hid => List.mem_singleton.mp (hcover id hid)
    · refine Triple.bind (schedulesOf_ok hn hin) ?_
      rintro _ s₁ ⟨rfl, h₁⟩
      refine Triple.ite ?_ ?_
      · intro hempty
        have hnil : indices = [] := by simpa using hempty
        subst hnil
        have hr : Runs home s [] s₁ [] := ⟨h₁, Runs.none.executes⟩
        exact Triple.pure' ⟨[], [], hcover, hr⟩
      · intro hne
        have hne' : indices ≠ [] := by simpa using hne
        refine (executeSlots_ok hq hn hne' hin s₁ h₁).mono ?_ (fun _ _ hf => hf)
        rintro _ s' ⟨events, hr⟩
        exact ⟨indices, events, hcover, hr⟩

theorem toFlush_ok (h : Sized s) (index : Nat) (args : List StreamId) :
    Triple (toFlush index args) s
      (fun r s' => r = args.filter (fun a => index ≠ Stream.streamIndex a s.maxStreams) ∧ s' = s)
      NoFault := by
  induction args with
  | nil => exact Triple.pure' ⟨rfl, rfl⟩
  | cons arg args ih =>
    refine Triple.bind (indexOf_ok h arg) ?_
    rintro i s₁ ⟨rfl, hs₁⟩
    obtain rfl : s = s₁ := hs₁.symm
    refine Triple.bind ih ?_
    rintro rest s₁ ⟨rfl, hs₁⟩
    obtain rfl : s = s₁ := hs₁.symm
    refine Triple.pure' ⟨?_, rfl⟩
    rw [List.filter_cons]
    simp

theorem alignStreams_ok (h : Sized s) (hq : AtHome home s.queue) (id : StreamId) (args : List StreamId) :
    Triple (alignStreams id args) s
      (fun _ s' => ∃ slots events, (∀ a ∈ args, Stream.streamIndex a s.maxStreams ≠
          Stream.streamIndex id s.maxStreams → Stream.streamIndex a s.maxStreams ∈ slots) ∧
        Runs home s slots s' events) NoFault := by
  refine Triple.bind (indexOf_ok h id) ?_
  rintro i s₁ ⟨rfl, hs₁⟩
  obtain rfl : s = s₁ := hs₁.symm
  refine Triple.bind (toFlush_ok h _ args) ?_
  rintro streams s₁ ⟨rfl, hs₁⟩
  obtain rfl : s = s₁ := hs₁.symm
  refine Triple.ite ?_ ?_
  · intro hempty
    refine Triple.pure' ⟨[], [], fun a ha hne => ?_, Runs.none⟩
    have hnil := List.filter_eq_nil_iff.mp (List.isEmpty_iff.mp hempty) a ha
    exact absurd hne.symm (by simpa using hnil)
  · intro _
    refine (executeStreams_ok h hq _).mono ?_ (fun _ _ hf => hf)
    rintro _ s' ⟨slots, events, hcover, hr⟩
    refine ⟨slots, events, fun a ha hne => hcover a ?_, hr⟩
    exact List.mem_filter.mpr ⟨ha, by simpa using hne.symm⟩

end

end SchedulerMultiStream

-- Runs

/-- A registered task: its place in the order of registration, and the arguments
of the call that registered it. -/
structure Registered (α : Type) where
  number : Nat
  stream : StreamId
  argsStreams : List StreamId
  task : α
  deriving DecidableEq

inductive Call (α : Type)
  | register (streamId : StreamId) (task : α) (argsStreams : List StreamId)
  | executeStreams (streamIds : List StreamId)

/-- The tasks some calls register, numbered from `n`. -/
def registered {α : Type} : Nat → List (Call α) → List (Registered α)
  | _, [] => []
  | n, .register id task args :: calls => ⟨n, id, args, task⟩ :: registered (n + 1) calls
  | n, .executeStreams _ :: calls => registered n calls

/-- A sequence of calls, on a scheduler whose tasks are tagged with their
registration. The scheduler is generic in its tasks, so the tags change nothing. -/
def runCalls {α : Type} : Nat → List (Call α) → M (SchedulerMultiStream (Registered α)) PUnit
  | _, [] => pure ⟨⟩
  | n, .register id task args :: calls => do
    register id ⟨n, id, args, task⟩ args
    runCalls (n + 1) calls
  | n, .executeStreams ids :: calls => do
    executeStreams ids
    runCalls n calls

section
variable {α : Type} {max : Nat} {s s' : SchedulerMultiStream (Registered α)} {done : List (Registered α)}

/-- The slot a task is queued on. -/
def Registered.home (max : Nat) (t : Registered α) : Nat := streamIndex t.stream max

/-- `t` takes an argument from a stream that `u` was registered on before. -/
def DependsOn (t u : Registered α) : Prop := u.number < t.number ∧ u.stream ∈ t.argsStreams

/-- Every task `t` needs from another physical stream has been enqueued there and flushed. -/
def Ready (max : Nat) (done : List (Registered α)) (events : List (Event (Registered α)))
    (t : Registered α) : Prop :=
  ∀ u ∈ done, DependsOn t u → u.home max ≠ t.home max → Flushed events u

theorem Ready.append {events : List (Event (Registered α))} {t : Registered α}
    (h : Ready max done events t) (more : List (Event (Registered α))) :
    Ready max done (events ++ more) t :=
  fun u hu hd hne => (h u hu hd hne).append more

/-- What holds between calls, after the tasks `done` were registered. -/
structure Ordered (max : Nat) (done : List (Registered α)) (s : SchedulerMultiStream (Registered α)) :
    Prop where
  sized : Sized s
  slots : s.maxStreams = max
  numbers : done.map Registered.number = List.range done.length
  -- the tasks of a slot are those enqueued, then those waiting, in the order of registration
  inOrder : ∀ i, (enqueued s.trace).filter (fun t => t.home max = i) ++ s.queue i =
    done.filter fun t => t.home max = i
  settled : Settled s.trace
  waiting : ∀ i, ∀ t ∈ s.queue i, Ready max done s.trace t
  sent : ∀ before t slot after, s.trace = before ++ .enqueue t slot :: after → Ready max done before t

namespace Ordered

theorem atHome (h : Ordered max done s) : AtHome (Registered.home max) s.queue := by
  intro i t ht
  have hmem : t ∈ done.filter fun t => t.home max = i := by
    rw [← h.inOrder i]
    exact List.mem_append_right _ ht
  simpa using (List.mem_filter.mp hmem).2

theorem runs {slots : List Nat} {events : List (Event (Registered α))} (h : Ordered max done s)
    (hr : Runs (Registered.home max) s slots s' events) : Ordered max done s' where
  sized := h.sized.moves hr.moves
  slots := hr.moves.maxStreams.trans h.slots
  numbers := h.numbers
  inOrder i := by
    rw [hr.moves.trace, hr.moves.queue, enqueued_append, List.filter_append, hr.executes.inOrder,
      queueAt_queuesAt, ← h.inOrder i, List.append_assoc]
    by_cases hi : i ∈ slots
    · simp [without, hi]
    · simp [without, hi]
  settled := by
    rw [hr.moves.trace]
    exact h.settled.append hr.executes.settled
  waiting i t ht := by
    rw [hr.moves.trace]
    refine (h.waiting i t ?_).append events
    rw [hr.moves.queue, without] at ht
    split at ht
    · cases ht
    · exact ht
  sent before t slot after he := by
    rw [hr.moves.trace] at he
    rcases List.append_eq_append_iff.mp he with ⟨more, hb, he'⟩ | ⟨more, hb, he'⟩
    · -- `t` is one of the tasks just executed, so it was waiting
      have ht : t ∈ queueAt (t.home max) (queuesAt s.queue slots) := by
        rw [← hr.executes.inOrder, he']
        simp
      rw [queueAt_queuesAt] at ht
      split at ht
      · rw [hb]
        exact (h.waiting _ t ht).append more
      · cases ht
    · cases more with
      | nil =>
        have ht : t ∈ queueAt (t.home max) (queuesAt s.queue slots) := by
          rw [← hr.executes.inOrder]
          rw [List.nil_append] at he'
          rw [← he']
          simp
        rw [queueAt_queuesAt] at ht
        split at ht
        · rw [List.append_nil] at hb
          rw [← hb]
          exact h.waiting _ t ht
        · cases ht
      | cons e more =>
        rw [List.cons_append, List.cons.injEq] at he'
        obtain ⟨rfl, -⟩ := he'
        exact h.sent before t slot more hb

theorem number_lt (h : Ordered max done s) {t : Registered α} (ht : t ∈ done) : t.number < done.length := by
  rw [← List.mem_range, ← h.numbers]
  exact List.mem_map_of_mem ht

theorem pairwise (h : Ordered max done s) : done.Pairwise fun t u => t.number < u.number := by
  rw [← List.pairwise_map, h.numbers]
  exact List.pairwise_lt_range

theorem mem_enqueued (h : Ordered max done s) {t : Registered α} (ht : t ∈ done)
    (hq : s.queue (t.home max) = []) : t ∈ enqueued s.trace := by
  have hmem : t ∈ done.filter fun u => u.home max = t.home max := by simp [ht]
  rw [← h.inOrder, hq, List.append_nil] at hmem
  exact (List.mem_filter.mp hmem).1

theorem mem_done (h : Ordered max done s) {t : Registered α} (ht : t ∈ enqueued s.trace) : t ∈ done := by
  have hmem : t ∈ (enqueued s.trace).filter fun u => u.home max = t.home max := by simp [ht]
  have hdone := List.mem_append_left (s.queue (t.home max)) hmem
  rw [h.inOrder] at hdone
  exact (List.mem_filter.mp hdone).1

theorem mem_done_of_waiting (h : Ordered max done s) {t : Registered α} {i : Nat} (ht : t ∈ s.queue i) :
    t ∈ done := by
  have hdone := List.mem_append_right ((enqueued s.trace).filter fun u => u.home max = i) ht
  rw [h.inOrder] at hdone
  exact (List.mem_filter.mp hdone).1

theorem ready_grow (h : Ordered max done s) {t u : Registered α} {events : List (Event (Registered α))}
    (ht : t ∈ done) (hu : u.number = done.length) (hr : Ready max done events t) :
    Ready max (done ++ [u]) events t := by
  intro v hv hd hne
  rw [List.mem_append, List.mem_singleton] at hv
  cases hv with
  | inl hv => exact hr v hv hd hne
  | inr hv =>
    have hlt := h.number_lt ht
    have hlt' := hd.1
    rw [hv, hu] at hlt'
    omega

theorem push (h : Ordered max done s) {t : Registered α} (hnum : t.number = done.length)
    (hready : Ready max done s.trace t)
    (hm : Moves s [] (Function.update s.queue (t.home max) (s.queue (t.home max) ++ [t])) s') :
    Ordered max (done ++ [t]) s' := by
  have htrace : s'.trace = s.trace := by rw [hm.trace, List.append_nil]
  refine ⟨h.sized.moves hm, hm.maxStreams.trans h.slots, ?_, ?_, ?_, ?_, ?_⟩
  · simp [h.numbers, hnum, List.range_succ]
  · intro i
    rw [htrace, hm.queue, List.filter_append, ← h.inOrder i]
    by_cases hi : i = t.home max
    · subst hi
      simp
    · simp [Function.update_of_ne hi, Ne.symm hi]
  · rw [htrace]
    exact h.settled
  · intro i u hu
    rw [htrace]
    rw [hm.queue] at hu
    by_cases hold : u ∈ s.queue i
    · exact h.ready_grow (h.mem_done_of_waiting hold) hnum (h.waiting i u hold)
    · have hut : u = t := by
        by_cases hi : i = t.home max
        · subst hi
          simpa [hold] using hu
        · exact absurd (by simpa [Function.update_of_ne hi] using hu) hold
      subst hut
      intro v hv hd hne
      rw [List.mem_append, List.mem_singleton] at hv
      cases hv with
      | inl hv => exact hready v hv hd hne
      | inr hv => exact absurd hd.1 (by rw [hv]; exact lt_irrefl _)
  · intro before u slot after he
    rw [htrace] at he
    refine h.ready_grow (h.mem_done ?_) hnum (h.sent before u slot after he)
    rw [he]
    simp

theorem executeStreams (h : Ordered max done s) (ids : List StreamId) :
    Triple (SchedulerMultiStream.executeStreams ids) s
      (fun _ s' => Ordered max done s' ∧ ∀ id ∈ ids, s'.queue (streamIndex id max) = []) NoFault := by
  refine (executeStreams_ok h.sized h.atHome ids).mono ?_ (fun _ _ hf => hf)
  rintro _ s' ⟨slots, events, hcover, hr⟩
  refine ⟨h.runs hr, fun id hid => ?_⟩
  have hmem := hcover id hid
  rw [h.slots] at hmem
  simp [hr.moves.queue, without, hmem]

theorem register (h : Ordered max done s) {t : Registered α} (hnum : t.number = done.length) :
    Triple (SchedulerMultiStream.register t.stream t t.argsStreams) s
      (fun _ s' => Ordered max (done ++ [t]) s') NoFault := by
  refine Triple.bind (alignStreams_ok h.sized h.atHome t.stream t.argsStreams) ?_
  rintro _ s₁ ⟨slots, events, hcover, hr⟩
  have h₁ := h.runs hr
  have hready : Ready max done s₁.trace t := by
    intro u hu hd hne
    apply h₁.settled
    apply h₁.mem_enqueued hu
    have hslot := hcover u.stream hd.2
    rw [h.slots] at hslot
    have hmem : u.home max ∈ slots := hslot hne
    simp [hr.moves.queue, without, hmem]
  refine Triple.bind (indexOf_ok h₁.sized t.stream) ?_
  rintro index s₂ ⟨hindex, hs₂⟩
  obtain rfl : s₁ = s₂ := hs₂.symm
  have hhome : index = t.home max := by rw [hindex, h₁.slots]; rfl
  subst hhome
  have hin : t.home max < s₁.streams.length := hindex ▸ h₁.sized.index_lt t.stream
  refine Triple.bind (getMutIndex_ok hin _) ?_
  rintro len s₂ ⟨-, hm⟩
  have h₂ := h₁.push hnum hready hm
  refine Triple.get_bind (Triple.ite ?_ ?_)
  · intro _
    refine (executeStreamIndex_ok h₂.atHome (hin.trans_eq hm.slots.symm)).mono ?_ (fun _ _ hf => hf)
    rintro _ s₃ ⟨events', hr'⟩
    exact h₂.runs hr'
  · intro _
    exact Triple.pure' h₂

theorem runCalls (h : Ordered max done s) (calls : List (Call α)) :
    Triple (Stream.runCalls done.length calls) s
      (fun _ s' => Ordered max (done ++ registered done.length calls) s') NoFault := by
  induction calls generalizing done s with
  | nil =>
    refine Triple.pure' ?_
    rwa [registered, List.append_nil]
  | cons call calls ih =>
    cases call with
    | register id task args =>
      refine Triple.bind (h.register (t := ⟨done.length, id, args, task⟩) rfl) ?_
      intro _ s₁ h₁
      have hrest := ih h₁
      rw [List.length_append, List.length_singleton, List.append_assoc] at hrest
      exact hrest
    | executeStreams ids =>
      refine Triple.bind (h.executeStreams ids) ?_
      rintro _ s₁ ⟨h₁, -⟩
      exact ih h₁

theorem new {options : SchedulerMultiStreamOptions} (hpos : 1 ≤ options.maxStreams) :
    Ordered options.maxStreams.toNat [] (SchedulerMultiStream.new options : SchedulerMultiStream (Registered α)) := by
  have hqueue : ∀ i, (SchedulerMultiStream.new options : SchedulerMultiStream (Registered α)).queue i = [] := by
    intro i
    simp only [queue, SchedulerMultiStream.new, List.getElem?_replicate]
    split <;> rfl
  refine ⟨⟨by simp [SchedulerMultiStream.new], ?_, ?_⟩, rfl, rfl, ?_, Settled.nil, ?_, ?_⟩
  · exact UInt8.le_iff_toNat_le.mp hpos
  · exact Nat.le_of_lt_succ options.maxStreams.toNat_lt
  · intro i
    rw [hqueue]
    rfl
  · intro i t ht
    rw [hqueue] at ht
    cases ht
  · intro before t slot after he
    cases before <;> cases he

theorem earlier_on_slot (h : Ordered max done s) {before after : List (Event (Registered α))}
    {t u : Registered α} {slot : Nat} (he : s.trace = before ++ .enqueue t slot :: after) (hu : u ∈ done)
    (hlt : u.number < t.number) (hhome : u.home max = t.home max) : u ∈ enqueued before := by
  have hmem : u ∈ done.filter fun v => v.home max = t.home max := by simp [hu, hhome]
  have hsorted := h.pairwise.filter fun v => v.home max = t.home max
  rw [← h.inOrder, he] at hmem hsorted
  simp only [enqueued_append, enqueued_cons_enqueue, List.filter_append, List.filter_cons, decide_true,
    ↓reduceIte, List.append_assoc, List.cons_append] at hmem hsorted
  cases List.mem_append.mp hmem with
  | inl hb => exact (List.mem_filter.mp hb).1
  | inr hr =>
    -- what follows `t` on its slot has a larger number
    have hlater := (List.pairwise_cons.mp (List.pairwise_append.mp hsorted).2.1).1
    cases List.mem_cons.mp hr with
    | inl htu => exact absurd hlt (by rw [htu]; exact lt_irrefl _)
    | inr hr => exact absurd hlt (Nat.lt_asymm (hlater u hr))

open Classical in
theorem count_enqueued_add (h : Ordered max done s) (t : Registered α) :
    (enqueued s.trace).count t + (s.queue (t.home max)).count t = done.count t := by
  have hsplit := congrArg (List.count t) (h.inOrder (t.home max))
  rwa [List.count_append, List.count_filter (by simp), List.count_filter (by simp)] at hsplit

theorem nodup_done (h : Ordered max done s) : done.Nodup :=
  h.pairwise.imp fun hlt heq => absurd hlt (by rw [heq]; exact lt_irrefl _)

end Ordered

/-- The order in which the backend gets the tasks `done`. -/
structure Delivered (max : Nat) (done : List (Registered α)) (trace : List (Event (Registered α))) :
    Prop where
  once : (enqueued trace).Nodup
  registered : ∀ t ∈ enqueued trace, t ∈ done
  sameStream : ∀ before t slot after, trace = before ++ .enqueue t slot :: after →
    ∀ u ∈ done, u.number < t.number → u.stream = t.stream → u ∈ enqueued before
  dependencies : ∀ before t slot after, trace = before ++ .enqueue t slot :: after →
    ∀ u ∈ done, DependsOn t u →
      u ∈ enqueued before ∧ (u.home max ≠ t.home max → Flushed before u)

theorem Ordered.delivered (h : Ordered max done s) : Delivered max done s.trace where
  once := by
    classical
    rw [List.nodup_iff_count_le_one]
    intro t
    have hcount := h.count_enqueued_add t
    have hdone := List.nodup_iff_count_le_one.mp h.nodup_done t
    omega
  registered _ := h.mem_done
  sameStream before t slot after he u hu hlt hs :=
    h.earlier_on_slot he hu hlt (by rw [Registered.home, hs]; rfl)
  dependencies before t slot after he u hu hd := by
    by_cases hhome : u.home max = t.home max
    · exact ⟨h.earlier_on_slot he hu hd.1 hhome, fun hne => absurd hhome hne⟩
    · have hf := h.sent before t slot after he u hu hd hhome
      exact ⟨hf.mem, fun _ => hf⟩

theorem Ordered.perm (h : Ordered max done s) (hempty : ∀ t ∈ done, s.queue (t.home max) = []) :
    (enqueued s.trace).Perm done := by
  classical
  rw [List.perm_iff_count]
  intro t
  have hcount := h.count_enqueued_add t
  have hnone : (s.queue (t.home max)).count t = 0 := by
    rw [List.count_eq_zero]
    intro ht
    have hq := hempty t (h.mem_done_of_waiting ht)
    rw [hq] at ht
    cases ht
  omega

/-- Whatever the sequence of calls, the number of streams, the bound on a queue
and the strategy: no call panics, every task reaches the backend at most once,
in the order of its logical stream and after the tasks it depends on, which are
flushed if they come from another physical stream. Executing every stream used
then leaves no task behind. -/
theorem tasks_delivered_in_order (options : SchedulerMultiStreamOptions) (hpos : 1 ≤ options.maxStreams)
    (calls : List (Call α)) :
    ∃ s, (runCalls 0 calls).exec (SchedulerMultiStream.new options) = (.ok ⟨⟩, s) ∧
      Delivered options.maxStreams.toNat (registered 0 calls) s.trace ∧
      ∀ ids, (∀ t ∈ registered 0 calls, t.stream ∈ ids) →
        ∃ s', (executeStreams ids).exec s = (.ok ⟨⟩, s') ∧
          Delivered options.maxStreams.toNat (registered 0 calls) s'.trace ∧
          (enqueued s'.trace).Perm (registered 0 calls) := by
  obtain ⟨_, s, hs, h⟩ := ((Ordered.new hpos).runCalls calls).exists_ok
  refine ⟨s, hs, h.delivered, fun ids hids => ?_⟩
  obtain ⟨_, s', hs', h', hempty⟩ := (h.executeStreams ids).exists_ok
  exact ⟨s', hs', h'.delivered, h'.perm fun t ht => hempty t.stream (hids t ht)⟩

/-- Two streams of three share a slot; the third takes an argument of the first. -/
theorem tasks_delivered_in_order_two_slots :
    ∃ s, (runCalls 0 [.register ⟨0⟩ "a" [], .register ⟨2⟩ "b" [], .register ⟨1⟩ "c" [⟨0⟩]]).exec
        (SchedulerMultiStream.new ⟨2, 8, .interleave⟩) = (.ok ⟨⟩, s) ∧
      Delivered 2 [⟨0, ⟨0⟩, [], "a"⟩, ⟨1, ⟨2⟩, [], "b"⟩, ⟨2, ⟨1⟩, [⟨0⟩], "c"⟩] s.trace := by
  obtain ⟨s, hs, hd, -⟩ := tasks_delivered_in_order ⟨2, 8, .interleave⟩ (by decide)
    [.register ⟨0⟩ "a" [], .register ⟨2⟩ "b" [], .register ⟨1⟩ "c" [⟨0⟩]]
  exact ⟨s, hs, hd⟩

end

end Ruda.Stream
