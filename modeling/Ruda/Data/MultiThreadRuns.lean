import Ruda.Data.MultiThreadExact

/-!
# Runs of the multi-threaded loader

In every state that the threads and the consumer reach, an epoch runs, stops or is closed. A step
of a thread takes from the work that is left, some thread can take one while the consumer waits,
and what the consumer was given is the beginning of an epoch with every batch once, until `None`
says that it is one.
-/

namespace Ruda.Data

variable {R S I O : Type} {l : MultiThreadDataLoader R S I O} {items : List I} {parts : List (List I)}
  {s s' : Running R I O} {e e' : LoaderEpoch I O} {complete complete' : Prop}

-- The phases of an epoch

/-- What `next` has returned begins an epoch with every batch once, and is one if it is over. -/
def Account (l : MultiThreadDataLoader R S I O) (items : List I) (complete : Prop) (e : LoaderEpoch I O) : Prop :=
  ∃ delivered rest n, e.results = delivered.map some ++ List.replicate n none ∧ Delivered l items (delivered ++ rest) ∧
    e.iterator.itemsProcessed ≤ items.length ∧ (n ≠ 0 ∨ complete → rest = [] ∧ e.iterator.itemsProcessed = items.length)

theorem Account.mono (h : Account l items complete e) (himp : complete' → complete) (hresults : e'.results = e.results)
    (hprocessed : e'.iterator.itemsProcessed = e.iterator.itemsProcessed) : Account l items complete' e' := by
  obtain ⟨delivered, rest, n, heq, hdelivered, hle, hall⟩ := h
  rw [← hprocessed] at hle hall
  exact ⟨delivered, rest, n, hresults.trans heq, hdelivered, hle, fun hn => hall (hn.imp_right himp)⟩

/-- The end of an epoch that is over. -/
theorem Account.ended (h : Account l items complete e) (hcomplete : complete) (hresults : e'.results = e.results ++ [none])
    (hprocessed : e'.iterator.itemsProcessed = e.iterator.itemsProcessed) : Account l items True e' := by
  obtain ⟨delivered, rest, n, heq, hdelivered, hle, hall⟩ := h
  rw [← hprocessed] at hle hall
  refine ⟨delivered, rest, n + 1, ?_, hdelivered, hle, fun _ => hall (.inr hcomplete)⟩
  rw [hresults, heq, List.append_assoc, List.replicate_succ']

/-- Until the shutdown the consumer waits while not all workers are done. -/
def Awaits (workers numDone : Nat) : Consumer → Prop
  | .idle => numDone < workers ∨ workers = 0
  | .receiving => numDone < workers
  | .cancelling .finished => numDone = workers
  | .cancelling .dropped => True
  | _ => False

inductive Phase (l : MultiThreadDataLoader R S I O) (items : List I) (parts : List (List I)) (e : LoaderEpoch I O) : Prop
  | running {orders : Nat → List I} {got pend : List (Nat × Note I)} (flow : Flow l parts e orders got pend)
      (hcancelled : e.cancelled = false) (hopen : e.iterator.receiver = true)
      (hawaits : Awaits parts.length e.iterator.numDone e.consumer)
  | stopping {cause : StopCause} (hcause : cause ≠ .disconnected) (account : Account l items (cause = .finished) e)
      (hcancelled : e.cancelled = true)
      (hconsumer : e.consumer = .disconnecting cause ∨ e.consumer = .joining cause ∧ e.iterator.receiver = false)
  | closed (account : Account l items (e.consumer = .idle) e) (hclosed : e.iterator.receiver = false)
      (hconsumer : e.consumer = .idle ∨ e.consumer = .cancelling .dropped ∨ e.consumer = .dropped)

/-- What holds of a loader with an iterator after every step. -/
structure EpochInv (l : MultiThreadDataLoader R S I O) (items : List I) (parts : List (List I)) (s : Running R I O) : Prop where
  loads : List.Forall₂ (LoadsPart l) s.dataloaders parts
  pool : MultiThreadDataLoader.PoolFits s.workerPool parts.length
  lease : ∀ threads, s.epoch.lease = some threads → threads = parts.length
  workers : s.epoch.workers.length = parts.length
  steady : ∀ w ∈ s.epoch.workers, Steady l.batchSize parts.flatten.length w
  numWorkers : s.epoch.iterator.numWorkers = parts.length
  itemsTotal : s.epoch.iterator.itemsTotal = parts.flatten.length
  phase : Phase l items parts s.epoch

theorem Flow.holds_account {orders : Nat → List I} {got pend : List (Nat × Note I)} (h : Flow l parts e orders got pend)
    (hbatch : 1 ≤ l.batchSize) (hparts : Parts l items parts) : Account l items (e.iterator.numDone = parts.length) e := by
  obtain ⟨⟨rest, hrest⟩, hle, hall⟩ := h.account hbatch hparts
  obtain ⟨n, hresults, hempty⟩ := h.results
  by_cases hdone : e.iterator.numDone = parts.length
  · obtain ⟨hdelivered, hprocessed⟩ := hall hdone
    exact ⟨_, [], n, hresults, by rwa [List.append_nil], hle, fun _ => ⟨rfl, hprocessed⟩⟩
  · refine ⟨_, rest, n, hresults, hrest, hle, fun hn => absurd ?_ hdone⟩
    rcases hn with hn | hn
    · -- without parts nothing was sent
      have hnone : got = [] := List.eq_nil_iff_forall_not_mem.mpr fun m hm => by
        have := h.tags m (List.mem_append_left _ hm)
        rw [hempty hn] at this
        exact absurd this (Nat.not_lt_zero _)
      rw [h.numDone, hnone, hempty hn]
      rfl
    · exact hn

-- The work that is left

def Consumer.weight : Consumer → Nat
  | .receiving => 4
  | .cancelling _ => 3
  | .disconnecting _ => 2
  | .joining _ => 1
  | _ => 0

/-- More than the steps that the threads can still take before the consumer's next call. -/
def Running.work (total : Nat) (s : Running R I O) : Nat :=
  (s.epoch.workers.map (WorkerState.weight total)).sum + s.epoch.queue.length + s.epoch.consumer.weight

theorem sum_map_set {α : Type} {f : α → Nat} {l : List α} {i : Nat} {a b : α} (h : l[i]? = some a) :
    ((l.set i b).map f).sum + f a = (l.map f).sum + f b := by
  induction l generalizing i with
  | nil => cases h
  | cons x l ih =>
    cases i with
    | zero =>
      obtain rfl := Option.some.inj h
      simp only [List.set_cons_zero, List.map_cons, List.sum_cons]
      omega
    | succ i =>
      have := ih h
      simp only [List.set_cons_succ, List.map_cons, List.sum_cons]
      omega

/-- A step that takes from the work and never takes back progress. -/
structure Advances (l : MultiThreadDataLoader R S I O) (items : List I) (parts : List (List I)) (s s' : Running R I O) : Prop where
  inv : EpochInv l items parts s'
  work : s'.work parts.flatten.length < s.work parts.flatten.length
  progress : s.epoch.iterator.itemsProcessed ≤ s'.epoch.iterator.itemsProcessed

namespace EpochInv

theorem worker (h : EpochInv l items parts s) {i : Nat} {w w' : WorkerState I O} (hw : s.epoch.workers[i]? = some w)
    (hsteady : Steady l.batchSize parts.flatten.length w')
    (hless : w'.weight parts.flatten.length < w.weight parts.flatten.length) {ds : List (BatchDataLoader R I)}
    (hloads : List.Forall₂ (LoadsPart l) ds parts)
    (hflow : ∀ orders got pend, Flow l parts s.epoch orders got pend → s.epoch.cancelled = false →
      s.epoch.iterator.receiver = true → ∃ orders', Flow l parts (s.epoch.setWorker i w') orders' got pend) :
    Advances l items parts s { s with dataloaders := ds, epoch := s.epoch.setWorker i w' } where
  inv := {
    loads := hloads
    pool := h.pool
    lease := h.lease
    workers := (List.length_set ..).trans h.workers
    steady := fun x hx => (List.mem_or_eq_of_mem_set hx).elim (h.steady x) fun hx => hx ▸ hsteady
    numWorkers := h.numWorkers
    itemsTotal := h.itemsTotal
    phase := by
      cases h.phase with
      | running flow hcancelled hopen hawaits =>
        obtain ⟨orders', hflow'⟩ := hflow _ _ _ flow hcancelled hopen
        exact .running hflow' hcancelled hopen hawaits
      | stopping hcause account hcancelled hconsumer => exact .stopping hcause (account.mono id rfl rfl) hcancelled hconsumer
      | closed account hclosed hconsumer => exact .closed (account.mono id rfl rfl) hclosed hconsumer }
  work := by
    have := sum_map_set (f := WorkerState.weight parts.flatten.length) (b := w') hw
    simp only [Running.work, LoaderEpoch.setWorker]
    omega
  progress := le_rfl

theorem send (h : EpochInv l items parts s) {i : Nat} {w w' : WorkerState I O} {m : Message O} (hw : s.epoch.workers[i]? = some w)
    (hopen : s.epoch.iterator.receiver = true) (hsteady : Steady l.batchSize parts.flatten.length w')
    (hless : w'.weight parts.flatten.length + 1 < w.weight parts.flatten.length)
    (hflow : ∀ orders got pend, Flow l parts s.epoch orders got pend →
      ∃ note, Flow l parts (s.epoch.enqueue i m w') orders got (pend ++ [(i, note)])) :
    Advances l items parts s { s with epoch := s.epoch.enqueue i m w' } where
  inv := {
    loads := h.loads
    pool := h.pool
    lease := h.lease
    workers := (List.length_set ..).trans h.workers
    steady := fun x hx => (List.mem_or_eq_of_mem_set hx).elim (h.steady x) fun hx => hx ▸ hsteady
    numWorkers := h.numWorkers
    itemsTotal := h.itemsTotal
    phase := by
      cases h.phase with
      | running flow hcancelled hopen hawaits =>
        obtain ⟨note, hflow'⟩ := hflow _ _ _ flow
        exact .running hflow' hcancelled hopen hawaits
      | stopping hcause account hcancelled hconsumer => exact .stopping hcause (account.mono id rfl rfl) hcancelled hconsumer
      | closed account hclosed hconsumer => exact absurd (hopen.symm.trans hclosed) Bool.true_eq_false.mp }
  work := by
    have := sum_map_set (f := WorkerState.weight parts.flatten.length) (b := w') hw
    simp only [Running.work, LoaderEpoch.enqueue, List.length_append, List.length_singleton]
    omega
  progress := le_rfl

/-- The consumer goes on. -/
theorem consume (h : EpochInv l items parts s) {e : LoaderEpoch I O} {pool : WorkerPoolState}
    (hpool : MultiThreadDataLoader.PoolFits pool parts.length)
    (hlease : e.lease = s.epoch.lease ∨ e.lease = none) (hworkers : e.workers = s.epoch.workers)
    (hnumWorkers : e.iterator.numWorkers = s.epoch.iterator.numWorkers) (htotal : e.iterator.itemsTotal = s.epoch.iterator.itemsTotal)
    (hphase : Phase l items parts e) : EpochInv l items parts { s with workerPool := pool, epoch := e } where
  loads := h.loads
  pool := hpool
  lease threads hthreads := hlease.elim (fun heq => h.lease threads (heq ▸ hthreads)) fun heq => nomatch heq.symm.trans hthreads
  workers := hworkers ▸ h.workers
  steady := hworkers ▸ h.steady
  numWorkers := hnumWorkers.trans h.numWorkers
  itemsTotal := htotal.trans h.itemsTotal
  phase := hphase


theorem not_panicked (h : EpochInv l items parts s) : s.epoch.workers.any WorkerState.hasPanicked = false := by
  rw [List.any_eq_false]
  intro w hw
  rw [(h.steady w hw).not_panicked]
  exact Bool.false_ne_true

theorem loader (h : EpochInv l items parts s) {i : Nat} {w : WorkerState I O} (hw : s.epoch.workers[i]? = some w) :
    ∃ d part, s.dataloaders[i]? = some d ∧ parts[i]? = some part ∧ LoadsPart l d part := by
  obtain ⟨hlt, -⟩ := List.getElem?_eq_some_iff.mp hw
  rw [h.workers] at hlt
  obtain ⟨d, hd, hload⟩ := forall₂_getElem? h.loads (List.getElem?_eq_getElem hlt)
  exact ⟨d, _, hd, List.getElem?_eq_getElem hlt, hload⟩

end EpochInv

theorem LoadsPart.iter {d : BatchDataLoader R I} {part : List I} (h : LoadsPart l d part) :
    ∃ it rng order, d.iter l.gen = .ok (it, rng) ∧ order.Perm part ∧ (l.seed = none → order = part) ∧
      it.At order l.batchSize 0 ∧ LoadsPart l { d with rng } part := by
  have hsize := h.batchSize
  rw [BatchDataLoader.iter]
  split
  · next hrng =>
    refine ⟨_, none, part, rfl, .refl _, fun _ => rfl, ?_, h.holds, h.batchSize, ?_⟩
    · rw [hsize]
      exact BatchDataloaderIterator.at_new h.holds _ _
    · rw [← h.rng, hrng]
  · next rng hrng =>
    obtain ⟨shuffled, rng', order, hnew, hperm, hholds⟩ := h.holds.shuffled rng
    rw [hnew]
    refine ⟨_, some rng', order, rfl, hperm, fun hnone => ?_, ?_, h.holds, h.batchSize, ?_⟩
    · have := h.rng
      rw [hrng, hnone] at this
      exact absurd this Bool.true_eq_false.mp
    · rw [← hsize]
      exact BatchDataloaderIterator.at_new hholds _ _
    · rw [← h.rng, hrng]
      rfl

theorem forall₂_set {α β : Type} {rel : α → β → Prop} {as : List α} {bs : List β} (h : List.Forall₂ rel as bs) {i : Nat} {a : α} {b : β}
    (hb : bs[i]? = some b) (hab : rel a b) : List.Forall₂ rel (as.set i a) bs := by
  induction h generalizing i with
  | nil => cases hb
  | cons hxy hrest ih =>
    cases i with
    | zero =>
      obtain rfl := Option.some.inj hb
      exact .cons hab hrest
    | succ i => exact .cons hxy (ih hb)

namespace EpochInv

/-- A step of a worker, which looks at the flag, makes a batch or sends one. -/
theorem starts (h : EpochInv l items parts s) {i : Nat} {d : BatchDataLoader R I} (hw : s.epoch.workers[i]? = some .ready)
    (hd : s.dataloaders[i]? = some d) : Advances l items parts s (l.started s i d) := by
  obtain ⟨d', part, hd', hpart, hload⟩ := h.loader hw
  obtain rfl := Option.some.inj (hd.symm.trans hd')
  obtain ⟨it, rng, order, hiter, hperm, hordered, hat, hkept⟩ := hload.iter
  have hlen : order.length ≤ parts.flatten.length := by
    rw [hperm.length_eq, List.length_flatten]
    exact List.single_le_sum (fun _ _ => Nat.zero_le _) _ (List.mem_map_of_mem (List.mem_of_getElem? hpart))
  rw [MultiThreadDataLoader.started, hiter]
  refine h.worker hw (.looping hat hlen) ?_ (forall₂_set h.loads hpart hkept) fun orders got pend hflow _ _ =>
    ⟨_, hflow.start hw hpart hperm hordered hat⟩
  have := rest_eq hat
  simp only [WorkerState.weight]
  omega

theorem receives (h : EpochInv l items parts s) (hbatch : 1 ≤ l.batchSize) (hfits : parts.flatten.length ≤ usizeMax)
    (hc : s.epoch.consumer = .receiving) {m : Message O} {queue : List (Message O)} (hq : s.epoch.queue = m :: queue) :
    Advances l items parts s { s with epoch := s.epoch.receive m queue } := by
  cases h.phase with
  | stopping _ _ _ hconsumer => rcases hconsumer with hconsumer | ⟨hconsumer, -⟩ <;> cases hc.symm.trans hconsumer
  | closed _ _ hconsumer => rcases hconsumer with hconsumer | hconsumer | hconsumer <;> cases hc.symm.trans hconsumer
  | @running orders got pend flow hcancelled hopen hawaits =>
    rw [hc] at hawaits
    cases pend with
    | nil => cases hq.symm.trans flow.queue
    | cons note pend =>
      obtain ⟨hm, hqueue⟩ := List.cons.inj (hq.symm.trans flow.queue)
      subst hm hqueue
      obtain ⟨i, _ | ⟨c, progress⟩⟩ := note
      · -- a worker is done
        have hdone := flow.receive_done
        refine ⟨h.consume h.pool (.inl rfl) rfl rfl rfl (.running hdone hcancelled hopen ?_), ?_, le_rfl⟩
        · have hmore : s.epoch.iterator.numDone < parts.length := hawaits
          have hall := h.numWorkers
          simp only [Note.message, LoaderEpoch.receive]
          split
          · next heq => exact heq.trans hall
          · exact (lt_of_le_of_ne hmore fun heq => ‹¬_› (heq.trans hall.symm))
        · simp only [Running.work, Note.message, LoaderEpoch.receive, hq, hc, List.length_cons]
          split <;> simp only [Consumer.weight] <;> omega
      · obtain ⟨hreceive, hflow⟩ := flow.receive_batch hbatch h.itemsTotal hfits
        rw [hreceive]
        refine ⟨h.consume h.pool (.inl rfl) rfl rfl rfl (.running hflow hcancelled hopen (.inl hawaits)), ?_, Nat.le_add_right _ _⟩
        simp only [Running.work, LoaderEpoch.batched, hq, hc, List.length_cons, Consumer.weight]
        omega

/-- While the consumer waits for a message, not all workers have returned with an empty queue. -/
theorem waits (h : EpochInv l items parts s) (hc : s.epoch.consumer = .receiving) (hq : s.epoch.queue = []) :
    ¬s.epoch.AllReturned := by
  cases h.phase with
  | stopping _ _ _ hconsumer => rcases hconsumer with hconsumer | ⟨hconsumer, -⟩ <;> cases hc.symm.trans hconsumer
  | closed _ _ hconsumer => rcases hconsumer with hconsumer | hconsumer | hconsumer <;> cases hc.symm.trans hconsumer
  | @running orders got pend flow hcancelled hopen hawaits =>
    rw [hc] at hawaits
    cases pend with
    | nil => exact flow.busy hawaits
    | cons note pend => cases hq.symm.trans flow.queue

theorem cancels (h : EpochInv l items parts s) (hbatch : 1 ≤ l.batchSize) (hparts : Parts l items parts) {cause : StopCause}
    (hc : s.epoch.consumer = .cancelling cause) :
    Advances l items parts s { s with epoch := { s.epoch with cancelled := true, consumer := .disconnecting cause } } := by
  refine ⟨h.consume h.pool (.inl rfl) rfl rfl rfl ?_, by simp only [Running.work, hc, Consumer.weight]; omega, le_rfl⟩
  cases h.phase with
  | stopping _ _ _ hconsumer => rcases hconsumer with hconsumer | ⟨hconsumer, -⟩ <;> cases hc.symm.trans hconsumer
  | closed account _ hconsumer =>
    rcases hconsumer with hconsumer | hconsumer | hconsumer
    · cases hc.symm.trans hconsumer
    · obtain rfl := Consumer.cancelling.inj (hc.symm.trans hconsumer)
      exact .stopping (nofun : StopCause.dropped ≠ .disconnected) (account.mono nofun rfl rfl) rfl (.inl rfl)
    · cases hc.symm.trans hconsumer
  | running flow hcancelled hopen hawaits =>
    rw [hc] at hawaits
    have account := flow.holds_account hbatch hparts
    cases cause with
    | finished => exact .stopping (nofun : StopCause.finished ≠ .disconnected) (account.mono (fun _ => hawaits) rfl rfl) rfl (.inl rfl)
    | disconnected => exact hawaits.elim
    | dropped => exact .stopping (nofun : StopCause.dropped ≠ .disconnected) (account.mono nofun rfl rfl) rfl (.inl rfl)

theorem disconnects (h : EpochInv l items parts s) {cause : StopCause} (hc : s.epoch.consumer = .disconnecting cause) :
    Advances l items parts s { s with
      epoch := { s.epoch with iterator := { s.epoch.iterator with receiver := false }, queue := [], consumer := .joining cause } } := by
  refine ⟨h.consume h.pool (.inl rfl) rfl rfl rfl ?_, ?_, le_rfl⟩
  · cases h.phase with
    | running _ _ _ hawaits =>
      rw [hc] at hawaits
      exact hawaits.elim
    | closed _ _ hconsumer => rcases hconsumer with hconsumer | hconsumer | hconsumer <;> cases hc.symm.trans hconsumer
    | stopping hcause account hcancelled hconsumer =>
      rcases hconsumer with hconsumer | ⟨hconsumer, -⟩
      · obtain rfl := Consumer.disconnecting.inj (hc.symm.trans hconsumer)
        exact .stopping hcause (account.mono id rfl rfl) hcancelled (.inr ⟨rfl, rfl⟩)
      · cases hc.symm.trans hconsumer
  · simp only [Running.work, hc, List.length_nil, Consumer.weight]
    omega

theorem joins (h : EpochInv l items parts s) {cause : StopCause} (hc : s.epoch.consumer = .joining cause) :
    Advances l items parts s { s with workerPool := s.epoch.released s.workerPool, epoch := s.epoch.joined cause } := by
  have hpool : MultiThreadDataLoader.PoolFits (s.epoch.released s.workerPool) parts.length := by
    rw [LoaderEpoch.released]
    split
    · exact h.pool
    · next threads hlease =>
      rw [h.not_panicked, if_neg Bool.false_ne_true]
      intro threads' hidle
      exact (WorkerPoolState.idle.inj hidle) ▸ h.lease threads hlease
  cases h.phase with
  | running _ _ _ hawaits =>
    rw [hc] at hawaits
    exact hawaits.elim
  | closed _ _ hconsumer => rcases hconsumer with hconsumer | hconsumer | hconsumer <;> cases hc.symm.trans hconsumer
  | stopping hcause account hcancelled hconsumer =>
    rcases hconsumer with hconsumer | ⟨hconsumer, hclosed⟩
    · cases hc.symm.trans hconsumer
    obtain rfl := Consumer.joining.inj (hc.symm.trans hconsumer)
    cases cause with
    | disconnected => exact absurd rfl hcause
    | dropped =>
      refine ⟨h.consume hpool (.inr rfl) rfl rfl rfl (.closed (account.mono nofun rfl rfl) hclosed (.inr (.inr rfl))), ?_, le_rfl⟩
      simp only [Running.work, LoaderEpoch.joined, hc, Consumer.weight]
      omega
    | finished =>
      have hjoined : s.epoch.joined .finished =
          { s.epoch with lease := none, consumer := .idle, results := s.epoch.results ++ [none] } := by
        rw [LoaderEpoch.joined, h.not_panicked]
        rfl
      rw [hjoined]
      have hended : Account l items True { s.epoch with lease := none, consumer := .idle, results := s.epoch.results ++ [none] } :=
        account.ended rfl rfl rfl
      refine ⟨h.consume hpool (.inr rfl) rfl rfl rfl (.closed (hended.mono (fun _ => trivial) rfl rfl) hclosed (.inl rfl)), ?_, le_rfl⟩
      simp only [Running.work, hc, Consumer.weight]
      omega

theorem internal (h : EpochInv l items parts s) (hbatch : 1 ≤ l.batchSize) (hparts : Parts l items parts)
    (hfits : parts.flatten.length ≤ usizeMax) (hstep : l.Internal s s') : Advances l items parts s s' := by
  cases hstep with
  | skip hw hflag =>
    refine h.worker hw .returned (by simp only [WorkerState.weight]; omega) h.loads fun _ _ _ _ hcancelled => ?_
    exact absurd (hflag.symm.trans hcancelled) Bool.true_eq_false.mp
  | start hw hd => exact h.starts hw hd
  | leave hw hflag =>
    refine h.worker hw .finishing (by simp only [WorkerState.weight]; omega) h.loads fun _ _ _ _ hcancelled => ?_
    exact absurd (hflag.symm.trans hcancelled) Bool.true_eq_false.mp
  | produce hw =>
    have hlooping := h.steady _ (List.mem_of_getElem? hw)
    cases hlooping with
    | looping hat hlen =>
      obtain ⟨hsteady, hless⟩ := steady_produce hbatch hat hlen
      refine h.worker hw hsteady hless h.loads fun orders got pend hflow _ _ => ⟨orders, hflow.setWorker hw fun left hleft => ?_⟩
      cases hleft with
      | looping hat => exact left_produce hbatch hat
  | sendBatch hw hopen hroom =>
    have hsending := h.steady _ (List.mem_of_getElem? hw)
    cases hsending with
    | sending hat hlen =>
      refine h.send hw hopen (.looping hat hlen) (by simp only [WorkerState.weight]; omega) fun orders got pend hflow => ?_
      refine hflow.send hw (h.workers ▸ (List.getElem?_eq_some_iff.mp hw).1) fun left hleft => ?_
      cases hleft with
      | sending hat => exact ⟨_, _, rfl, rfl, .looping hat⟩
  | failBatch hw hclosed =>
    refine h.worker hw .returned (by simp only [WorkerState.weight]; omega) h.loads fun _ _ _ _ _ hopen => ?_
    exact absurd (hopen.symm.trans hclosed) Bool.true_eq_false.mp
  | sendDone hw hopen hroom =>
    refine h.send hw hopen .returned (by simp only [WorkerState.weight]; omega) fun orders got pend hflow => ?_
    refine hflow.send hw (h.workers ▸ (List.getElem?_eq_some_iff.mp hw).1) fun left hleft => ?_
    cases hleft
    exact ⟨none, [], rfl, rfl, .returned⟩
  | failDone hw hclosed =>
    refine h.worker hw .returned (by simp only [WorkerState.weight]; omega) h.loads fun _ _ _ _ _ hopen => ?_
    exact absurd (hopen.symm.trans hclosed) Bool.true_eq_false.mp
  | receive hc hq => exact h.receives hbatch hfits hc hq
  | hangUp hc hq hw => exact absurd hw (h.waits hc hq)
  | cancel hc => exact h.cancels hbatch hparts hc
  | disconnect hc => exact h.disconnects hc
  | join hc _ => exact h.joins hc

theorem client (h : EpochInv l items parts s) (hstep : MultiThreadDataLoader.Client s s') : EpochInv l items parts s' := by
  cases hstep with
  | nextClosed hc hclosed =>
    refine h.consume h.pool (.inl rfl) rfl rfl rfl ?_
    cases h.phase with
    | stopping _ _ _ hconsumer => rcases hconsumer with hconsumer | ⟨hconsumer, -⟩ <;> cases hc.symm.trans hconsumer
    | closed account hshut _ =>
      have hended : Account l items True { s.epoch with results := s.epoch.results ++ [none] } := account.ended hc rfl rfl
      exact .closed (hended.mono (fun _ => trivial) rfl rfl) hshut (.inl hc)
    | running flow hcancelled hopen hawaits =>
      have hnone : parts = [] := by
        rcases hclosed with hclosed | hzero
        · exact absurd (hopen.symm.trans hclosed) Bool.true_eq_false.mp
        · exact List.length_eq_zero_iff.mp (h.numWorkers.symm.trans hzero)
      obtain ⟨n, hresults, -⟩ := flow.results
      refine .running { flow with results := ⟨n + 1, ?_, fun _ => hnone⟩ } hcancelled hopen hawaits
      rw [hresults, List.append_assoc, List.replicate_succ']
  | next hc hopen hworkers =>
    refine h.consume h.pool (.inl rfl) rfl rfl rfl ?_
    cases h.phase with
    | stopping _ _ _ hconsumer => rcases hconsumer with hconsumer | ⟨hconsumer, -⟩ <;> cases hc.symm.trans hconsumer
    | closed _ hclosed _ => exact absurd (hopen.symm.trans hclosed) Bool.true_eq_false.mp
    | running flow hcancelled hopen hawaits =>
      rw [hc] at hawaits
      refine .running { flow with } hcancelled hopen (hawaits.resolve_right ?_)
      rwa [← h.numWorkers]
  | drop hc =>
    refine h.consume h.pool (.inl rfl) rfl rfl rfl ?_
    cases h.phase with
    | stopping _ _ _ hconsumer => rcases hconsumer with hconsumer | ⟨hconsumer, -⟩ <;> cases hc.symm.trans hconsumer
    | closed account hclosed _ => exact .closed (account.mono nofun rfl rfl) hclosed (.inr (.inl rfl))
    | running flow hcancelled hopen _ => exact .running { flow with } hcancelled hopen trivial

theorem fresh (hloads : List.Forall₂ (LoadsPart l) s.dataloaders parts) (hpool : MultiThreadDataLoader.PoolFits s.workerPool parts.length)
    {lease : Option Nat} (hlease : ∀ threads, lease = some threads → threads = parts.length)
    (hepoch : s.epoch = MultiThreadDataLoader.fresh parts lease) : EpochInv l items parts s := by
  obtain ⟨ds, pool, epoch⟩ := s
  obtain rfl : epoch = _ := hepoch
  refine ⟨hloads, hpool, hlease, List.length_replicate, fun w hw => ?_, rfl, rfl, ?_⟩
  · rw [List.eq_of_mem_replicate hw]
    exact .ready
  · refine .running (?_ : Flow l parts _ (fun i => parts[i]?.getD []) [] []) rfl rfl ?_
    · refine ⟨fun i part hpart => ?_, rfl, nofun, fun i hi => ?_, rfl, rfl, fun i hi => ?_, 0, rfl, fun hne => absurd rfl hne⟩
      · rw [hpart]
        exact ⟨.refl _, fun _ => rfl⟩
      · exact ⟨.ready, _, List.getElem?_replicate_of_lt hi, .ready, rfl⟩
      · simp [MultiThreadDataLoader.fresh, hi, Note.taken, Note.batches]
    · rcases Nat.eq_zero_or_pos parts.length with hzero | hpos
      · exact .inr hzero
      · exact .inl hpos

theorem moves (h : EpochInv l items parts s) (hidle : s.epoch.consumer ≠ .idle) (hdropped : s.epoch.consumer ≠ .dropped) :
    ∃ s', l.Internal s s' := by
  have hworker (hnot : ¬s.epoch.AllReturned) : ∃ (i : Nat) (w : WorkerState I O), s.epoch.workers[i]? = some w ∧ w.hasReturned = false := by
    rw [LoaderEpoch.AllReturned] at hnot
    push Not at hnot
    obtain ⟨w, hw, hreturned⟩ := hnot
    obtain ⟨i, hi⟩ := List.mem_iff_getElem?.mp hw
    exact ⟨i, w, hi, Bool.eq_false_iff.mpr hreturned⟩
  cases h.phase with
  | running flow hcancelled hopen hawaits =>
    cases hc : s.epoch.consumer with
    | receiving =>
      cases hq : s.epoch.queue with
      | cons m queue => exact ⟨_, .receive hc hq⟩
      | nil =>
        obtain ⟨i, w, hw, hreturned⟩ := hworker (h.waits hc hq)
        have hroom : s.epoch.queue.length < maxQueuedItems := by
          rw [hq]
          exact (by decide : 0 < maxQueuedItems)
        cases w with
        | ready =>
          obtain ⟨d, -, hd, -⟩ := h.loader hw
          exact ⟨_, .start hw hd⟩
        | looping it => exact ⟨_, .produce hw⟩
        | sending item progress it => exact ⟨_, .sendBatch hw hopen hroom⟩
        | finishing => exact ⟨_, .sendDone hw hopen hroom⟩
        | returned panicked => cases hreturned
    | cancelling cause => exact ⟨_, .cancel hc⟩
    | idle => exact absurd hc hidle
    | dropped => exact absurd hc hdropped
    | _ =>
      rw [hc] at hawaits
      exact hawaits.elim
  | closed _ _ hconsumer =>
    rcases hconsumer with hc | hc | hc
    · exact absurd hc hidle
    · exact ⟨_, .cancel hc⟩
    · exact absurd hc hdropped
  | stopping _ _ hcancelled hconsumer =>
    rcases hconsumer with hc | ⟨hc, hclosed⟩
    · exact ⟨_, .disconnect hc⟩
    · by_cases hall : s.epoch.AllReturned
      · exact ⟨_, .join hc hall⟩
      · obtain ⟨i, w, hw, hreturned⟩ := hworker hall
        cases w with
        | ready => exact ⟨_, .skip hw hcancelled⟩
        | looping it => exact ⟨_, .leave hw hcancelled⟩
        | sending item progress it => exact ⟨_, .failBatch hw hclosed⟩
        | finishing => exact ⟨_, .failDone hw hclosed⟩
        | returned panicked => cases hreturned

theorem account (h : EpochInv l items parts s) (hbatch : 1 ≤ l.batchSize) (hparts : Parts l items parts) :
    Account l items False s.epoch := by
  cases h.phase with
  | running flow _ _ _ => exact (flow.holds_account hbatch hparts).mono False.elim rfl rfl
  | stopping _ account _ _ => exact account.mono False.elim rfl rfl
  | closed account _ _ => exact account.mono False.elim rfl rfl

theorem consumer_ne (h : EpochInv l items parts s) : s.epoch.consumer ≠ .panicked := by
  intro hc
  cases h.phase with
  | running _ _ _ hawaits =>
    rw [hc] at hawaits
    exact hawaits.elim
  | stopping _ _ _ hconsumer => rcases hconsumer with hconsumer | ⟨hconsumer, -⟩ <;> cases hc.symm.trans hconsumer
  | closed _ _ hconsumer => rcases hconsumer with hconsumer | hconsumer | hconsumer <;> cases hc.symm.trans hconsumer

end EpochInv

-- Loaders

/-- The batches of an epoch: without a seed those of the loader of one thread, else all items in batches of which at most one
is short. -/
structure Whole (l : MultiThreadDataLoader R S I O) (items : List I) (outputs : List O) : Prop where
  same : l.seed = none → ∃ it rng batches, l.singleThread.iter l.gen = .ok (it, rng) ∧
    Emits (BatchDataloaderIterator.next l.batch) it batches ∧ outputs.Perm batches
  groups : ∃ groups : List (List I), outputs = groups.map l.batch ∧ groups.flatten.Perm items ∧
    (groups.filter fun c => c.length ≠ l.batchSize).length ≤ 1

theorem Delivered.whole (hholds : Holds l.dataset items) (hbatch : 1 ≤ l.batchSize) {outputs : List O} (h : Delivered l items outputs) :
    Whole l items outputs := by
  obtain ⟨order, groups, hperm, hordered, hgroups, rfl⟩ := h
  refine ⟨fun hnone => ?_, groups, rfl, ?_, ?_⟩
  · obtain rfl := hordered hnone
    refine ⟨_, none, (chunks l.batchSize order).map l.batch, rfl, ?_, hgroups.map _⟩
    exact BatchDataloaderIterator.emits hbatch (BatchDataloaderIterator.at_new hholds _ _)
  · have hflatten := hgroups.flatten
    rw [flatten_chunks hbatch] at hflatten
    exact hflatten.trans hperm
  · rw [(hgroups.filter _).length_eq]
    exact short_chunks hbatch order

/-- Every epoch of a loader, with any order of the steps of its threads, is complete. -/
structure EpochsExact (l : MultiThreadDataLoader R S I O) (items : List I) : Prop where
  starts : ∃ s, l.iter ⟨none, .uninitialized⟩ = .ok s
  again : ∀ s, l.Reachable s → ∃ s', l.iter s.loader = .ok s'
  safe : ∀ s, l.Reachable s → s.epoch.consumer ≠ .panicked ∧ ∀ w ∈ s.epoch.workers, w.hasPanicked = false
  moves : ∀ s, l.Reachable s → s.epoch.consumer ≠ .idle → s.epoch.consumer ≠ .dropped → ∃ s', l.Internal s s'
  settles : ∀ run : Nat → Running R I O, l.Reachable (run 0) → ¬∀ k, l.Internal (run k) (run (k + 1))
  results : ∀ s, l.Reachable s → ∃ delivered rest n, s.epoch.results = delivered.map some ++ List.replicate n none ∧
    Whole l items (delivered ++ rest) ∧ (n ≠ 0 → rest = [] ∧ s.epoch.iterator.itemsProcessed = items.length)
  progress : ∀ s, l.Reachable s → s.epoch.iterator.itemsProcessed ≤ items.length ∧ s.epoch.iterator.itemsTotal = items.length
  forward : ∀ s s', l.Reachable s → l.Internal s s' → s.epoch.iterator.itemsProcessed ≤ s'.epoch.iterator.itemsProcessed

namespace MultiThreadDataLoader

theorem Reachable.inv (hds : l.initializeDataloaders = .ok ds) (hloads : List.Forall₂ (LoadsPart l) ds parts) (hparts : Parts l items parts)
    (hbatch : 1 ≤ l.batchSize) (hfits : parts.flatten.length ≤ usizeMax) (h : l.Reachable s) : EpochInv l items parts s := by
  induction h with
  | first hiter =>
    obtain ⟨lease, pool, hok, hlease, hpool⟩ := iter_ok (s := ⟨none, .uninitialized⟩) hds hloads hfits nofun
    obtain rfl := Except.ok.inj (hiter.symm.trans hok)
    exact .fresh hloads hpool hlease rfl
  | internal _ hstep ih => exact (ih.internal hbatch hparts hfits hstep).inv
  | client _ hstep ih => exact ih.client hstep
  | again _ _ hiter ih =>
    obtain ⟨lease, pool, hok, hlease, hpool⟩ := iter_ok (l := l) (s := Running.loader _) rfl ih.loads hfits ih.pool
    obtain rfl := Except.ok.inj (hiter.symm.trans hok)
    exact .fresh ih.loads hpool hlease rfl

end MultiThreadDataLoader

end Ruda.Data
