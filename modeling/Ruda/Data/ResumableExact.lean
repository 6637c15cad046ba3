import Ruda.Data.PipelineExact
import Ruda.Data.Resumable

/-!
# A resumable loader resumes exactly

An epoch is cut from one permutation, however many workers read it, and a saved position with
the generator that follows its shuffle determines the rest of the epoch and all later orders.
-/

namespace Ruda.Data.ResumableLoader

variable {R I O : Type} {l : ResumableLoader R I O}

-- Workers

/-- All workers of the pool run, and there are as many as this loader asks for. -/
def Healthy (l : ResumableLoader R I O) (pool : Option ReadWorkers) : Prop := ∀ p, pool = some p → p = ReadWorkers.new l.count

theorem Healthy.none : l.Healthy none := fun _ h => nomatch h

theorem Healthy.new : l.Healthy (some (ReadWorkers.new l.count)) := fun _ h => (Option.some.inj h).symm

theorem count_pos (h : l.workers ≠ 0) : 0 < l.count := by
  unfold count
  split
  · exact Nat.pos_of_ne_zero h
  · exact one_pos

theorem length_jobs {workers len : Nat} (hworkers : 0 < workers) (hlen : 0 < len) :
    divCeil len (divCeil len (min workers len)) ≤ workers := by
  have hmin : 0 < min workers len := lt_min hworkers hlen
  have hchunk : 0 < divCeil len (min workers len) := (lt_divCeil_iff hmin).mpr (by omega)
  have hle : len ≤ divCeil len (min workers len) * min workers len := (divCeil_le_iff hmin).mp le_rfl
  refine le_trans ((divCeil_le_iff hchunk).mpr ?_) (min_le_left workers len)
  rwa [Nat.mul_comm]

theorem sends_new {count jobs : Nat} (h : jobs ≤ count) : forM (List.range jobs) (ReadWorkers.new count).send = .ok () := by
  have hsend (worker : Nat) (hw : worker < count) : (ReadWorkers.new count).send worker = .ok () := by
    rw [ReadWorkers.send, ReadWorkers.new]
    simp [hw]
  have hall (workers : List Nat) (hw : ∀ w ∈ workers, w < count) : forM workers (ReadWorkers.new count).send = .ok () := by
    induction workers with
    | nil => rfl
    | cons w workers ih =>
      rw [List.forM_cons, hsend w (hw w (by simp))]
      exact ih fun v hv => hw v (by simp [hv])
  exact hall _ fun w hw => (List.mem_range.mp hw).trans_le h

theorem read_new {count : Nat} {jobs : List (Checked (List I))} (h : jobs.length ≤ count) :
    (ReadWorkers.new count).read jobs = (jobs.mapM ReadWorkers.recv).map List.flatten := by
  rw [ReadWorkers.read, sends_new h]
  rfl

theorem recv_cases (jobs : List (Checked (List I))) :
    (∃ results, jobs.mapM ReadWorkers.recv = .ok results) ∨ jobs.mapM ReadWorkers.recv = .error .job := by
  induction jobs with
  | nil => exact .inl ⟨[], rfl⟩
  | cons job jobs ih =>
    rw [List.mapM_cons]
    cases job with
    | error e => exact .inr rfl
    | ok items =>
      rcases ih with ⟨results, hresults⟩ | herr
      · exact .inl ⟨items :: results, by rw [hresults]; rfl⟩
      · exact .inr (by rw [herr]; rfl)

theorem recv_ok (batches : List (List I)) : (batches.map Except.ok).mapM ReadWorkers.recv = .ok batches := by
  induction batches with
  | nil => rfl
  | cons batch batches ih =>
    rw [List.map_cons, List.mapM_cons, ih]
    rfl

theorem takeWorkers_eq {it : ResumableIterator} {sh : LoaderShared R} (hit : l.Healthy it.workers) (hsh : l.Healthy sh.workerPool) :
    (l.takeWorkers it sh).1 = ReadWorkers.new l.count ∧ (l.takeWorkers it sh).2.rng = sh.rng ∧
      l.Healthy (l.takeWorkers it sh).2.workerPool := by
  obtain ⟨state, workers, reuse⟩ := it
  obtain ⟨rng, cached⟩ := sh
  cases workers with
  | some pool => exact ⟨hit pool rfl, rfl, hsh⟩
  | none =>
    cases reuse with
    | false => exact ⟨rfl, rfl, hsh⟩
    | true =>
      cases cached with
      | none => exact ⟨rfl, rfl, Healthy.none⟩
      | some pool =>
        have hpool : pool = ReadWorkers.new l.count := hsh pool rfl
        have hlen : (ReadWorkers.new l.count).alive.length = l.count := List.length_replicate
        subst hpool
        simp only [takeWorkers, if_true, hlen, ne_eq, not_true_eq_false, if_false]
        exact ⟨trivial, trivial, Healthy.none⟩

-- One read

/-- What a call that reads leaves: the generator and the position are as they were, and workers are healthy. -/
structure Reads (l : ResumableLoader R I O) (it it' : ResumableIterator) (sh sh' : LoaderShared R) : Prop where
  rng : sh'.rng = sh.rng
  state : it'.state = it.state
  workers : l.Healthy it'.workers
  pool : l.Healthy sh'.workerPool

theorem readItems_cases {it : ResumableIterator} {sh : LoaderShared R} (hit : l.Healthy it.workers)
    (hsh : l.Healthy sh.workerPool) (indices : List Nat) :
    Reads l it (l.readItems it sh indices).2.1 sh (l.readItems it sh indices).2.2 ∧
      ((∃ items, (l.readItems it sh indices).1 = .ok items) ∨ (l.readItems it sh indices).1 = .error .job) := by
  rw [readItems]
  split
  · cases readDatasetItems l.dataset indices l.batchReading with
    | ok items => exact ⟨⟨rfl, rfl, hit, hsh⟩, .inl ⟨items, rfl⟩⟩
    | error e => exact ⟨⟨rfl, rfl, hit, hsh⟩, .inr rfl⟩
  · next hread =>
    rw [not_or] at hread
    obtain ⟨hpool, hrng, hshared⟩ := takeWorkers_eq hit hsh
    have hcount := count_pos hread.1
    have hjobs : ((chunks (divCeil indices.length (min l.count indices.length)) indices).map fun indices =>
        readDatasetItems l.dataset indices l.batchReading).length ≤ l.count := by
      rw [List.length_map, length_chunks]
      exact length_jobs hcount (List.length_pos_of_ne_nil hread.2)
    dsimp only
    rw [hpool, read_new hjobs]
    rcases recv_cases _ with ⟨results, hresults⟩ | herr
    · rw [hresults]
      exact ⟨⟨hrng, rfl, Healthy.new, hshared⟩, .inl ⟨results.flatten, rfl⟩⟩
    · rw [herr]
      exact ⟨⟨hrng, rfl, Healthy.none, hshared⟩, .inr rfl⟩

/-- The dataset has its items, a read of several is the reads of each, and batching does not fail. -/
structure PureReads (l : ResumableLoader R I O) (item : Nat → I) (output : List I → O) : Prop where
  get : ∀ i < l.dataset.len, l.dataset.get i = .ok (some (item i))
  getMany : ∀ indices, (∀ i ∈ indices, i < l.dataset.len) → l.dataset.getMany indices = .ok (some (indices.map item))
  batch : ∀ items, l.batch items = .ok (output items)

variable {item : Nat → I} {output : List I → O}

theorem PureReads.readDatasetItems (h : PureReads l item output) (batchReading : Bool) {indices : List Nat}
    (hin : ∀ i ∈ indices, i < l.dataset.len) : readDatasetItems l.dataset indices batchReading = .ok (indices.map item) := by
  cases batchReading with
  | true =>
    rw [Data.readDatasetItems, if_pos rfl, h.getMany indices hin, ok_bind]
    simp only [List.length_map, ne_eq, not_true_eq_false, if_false]
    rfl
  | false =>
    rw [Data.readDatasetItems, if_neg (by simp)]
    induction indices with
    | nil => rfl
    | cons i indices ih =>
      rw [List.mapM_cons, h.get i (hin i (by simp)), ih fun k hk => hin k (by simp [hk])]
      rfl

theorem PureReads.readItems (h : PureReads l item output) {it : ResumableIterator} {sh : LoaderShared R}
    (hit : l.Healthy it.workers) (hsh : l.Healthy sh.workerPool) {indices : List Nat} (hin : ∀ i ∈ indices, i < l.dataset.len) :
    (l.readItems it sh indices).1 = .ok (indices.map item) := by
  rw [ResumableLoader.readItems]
  split
  · rw [h.readDatasetItems _ hin]
  · next hread =>
    rw [not_or] at hread
    obtain ⟨hpool, -, -⟩ := takeWorkers_eq hit hsh
    have hcount := count_pos hread.1
    have hlen : 0 < indices.length := List.length_pos_of_ne_nil hread.2
    have hmin : 0 < min l.count indices.length := lt_min hcount hlen
    have hchunk : 0 < divCeil indices.length (min l.count indices.length) := (lt_divCeil_iff hmin).mpr (by omega)
    have hjobs : (chunks (divCeil indices.length (min l.count indices.length)) indices).map (fun indices =>
        Data.readDatasetItems l.dataset indices l.batchReading) =
        ((chunks (divCeil indices.length (min l.count indices.length)) indices).map (List.map item)).map Except.ok := by
      rw [List.map_map]
      refine List.map_congr_left fun part hpart => h.readDatasetItems _ fun i hi => hin i ?_
      rw [← flatten_chunks hchunk indices]
      exact List.mem_flatten.mpr ⟨part, hpart, hi⟩
    have hlength : (((chunks (divCeil indices.length (min l.count indices.length)) indices).map (List.map item)).map
        (Except.ok : List I → Checked (List I))).length ≤ l.count := by
      rw [List.length_map, List.length_map, length_chunks]
      exact length_jobs hcount hlen
    dsimp only
    rw [hpool, hjobs, read_new hlength, recv_ok]
    change Except.ok _ = _
    rw [← List.map_flatten, flatten_chunks hchunk]

-- One batch

/-- What a call of `next` leaves. A panic has moved nothing, and is never for want of a worker. -/
structure Nexts (l : ResumableLoader R I O) (it : ResumableIterator) (sh : LoaderShared R)
    (r : Except ReadFault (Option O) × ResumableIterator × LoaderShared R) : Prop where
  rng : r.2.2.rng = sh.rng
  workers : l.Healthy r.2.1.workers
  pool : l.Healthy r.2.2.workerPool
  none : r.1 = .ok none ↔ it.state.position = it.state.order.length
  still : (∀ o, r.1 ≠ .ok (some o)) → r.2.1.state = it.state
  moved : ∀ o, r.1 = .ok (some o) →
    r.2.1.state = { it.state with position := min (it.state.position + it.state.batchSize) it.state.order.length }
  fault : r.1 ≠ .error .index ∧ r.1 ≠ .error .stopped

theorem stop_eq {st : DataLoaderState} (h : st.order.length = l.dataset.len) :
    min (min (st.position + st.batchSize) usizeMax) st.order.length = min (st.position + st.batchSize) st.order.length := by
  have hle := l.dataset.len_le
  rw [min_assoc, min_eq_right (h.trans_le hle)]

theorem next_nexts {it : ResumableIterator} {sh : LoaderShared R} (hit : l.Healthy it.workers) (hsh : l.Healthy sh.workerPool)
    (hlen : it.state.order.length = l.dataset.len) : Nexts l it sh (l.next it sh) := by
  rw [next]
  split
  · next hend =>
    exact ⟨rfl, hit, hsh, by simp [hend], fun _ => rfl, fun o h => (by cases h), ⟨by simp, by simp⟩⟩
  · next hend =>
    dsimp only
    generalize (it.state.order.drop it.state.position).take
      (min (min (it.state.position + it.state.batchSize) usizeMax) it.state.order.length - it.state.position) = indices
    obtain ⟨hreads, hresult⟩ := readItems_cases hit hsh indices
    rcases hread : l.readItems it sh indices with ⟨result, it', sh'⟩
    rw [hread] at hreads hresult
    rcases hresult with ⟨items, rfl⟩ | rfl
    · cases hbatch : l.batch items with
      | error e =>
        dsimp only
        rw [hbatch]
        exact ⟨hreads.rng, hreads.workers, hreads.pool, by simp [hend], fun _ => hreads.state, fun o h => (by cases h),
          ⟨by simp, by simp⟩⟩
      | ok o =>
        dsimp only
        rw [hbatch]
        refine ⟨hreads.rng, hreads.workers, hreads.pool, by simp [hend], fun h => absurd rfl (h o), fun o' _ => ?_,
          ⟨by simp, by simp⟩⟩
        rw [stop_eq hlen, hreads.state]
    · exact ⟨hreads.rng, hreads.workers, hreads.pool, by simp [hend], fun _ => hreads.state, fun o h => (by cases h),
        ⟨by simp, by simp⟩⟩

theorem next_ok (h : PureReads l item output) {it : ResumableIterator} {sh : LoaderShared R} (hit : l.Healthy it.workers)
    (hsh : l.Healthy sh.workerPool) (hlen : it.state.order.length = l.dataset.len) (hin : ∀ i ∈ it.state.order, i < l.dataset.len)
    (hpos : it.state.position ≠ it.state.order.length) :
    (l.next it sh).1 = .ok (some (output (((it.state.order.drop it.state.position).take
      (min (it.state.position + it.state.batchSize) it.state.order.length - it.state.position)).map item))) := by
  rw [next, if_neg hpos]
  dsimp only
  rw [stop_eq hlen]
  have hslice : ∀ i ∈ (it.state.order.drop it.state.position).take
      (min (it.state.position + it.state.batchSize) it.state.order.length - it.state.position), i < l.dataset.len :=
    fun i hi => hin i (List.mem_of_mem_drop (List.mem_of_mem_take hi))
  have hitems := h.readItems hit hsh hslice
  rcases hread : l.readItems it sh ((it.state.order.drop it.state.position).take
    (min (it.state.position + it.state.batchSize) it.state.order.length - it.state.position)) with ⟨result, it', sh'⟩
  rw [hread] at hitems
  obtain rfl : result = _ := hitems
  simp only [h.batch]

-- States

/-- The state of an iterator fits the loader. -/
structure Valid (l : ResumableLoader R I O) (shuffles : Bool) (st : DataLoaderState) : Prop where
  version : st.version = 1
  order : st.order.Perm (List.range l.dataset.len)
  position : st.position ≤ st.order.length
  batchSize : st.batchSize = l.batchSize
  rng : ∃ rng, restoreRngs l.chacha st.shuffleState = .ok rng ∧ rng.isSome = shuffles

theorem Valid.length {shuffles : Bool} {st : DataLoaderState} (h : l.Valid shuffles st) : st.order.length = l.dataset.len := by
  rw [h.order.length_eq, List.length_range]

theorem Valid.inside {shuffles : Bool} {st : DataLoaderState} (h : l.Valid shuffles st) : ∀ i ∈ st.order, i < l.dataset.len :=
  fun _ hi => List.mem_range.mp (h.order.mem_iff.mp hi)

theorem initialState_spec (l : ResumableLoader R I O) (sh : LoaderShared R) :
    l.Valid sh.rng.isSome (l.initialState sh).1 ∧ (l.initialState sh).1.position = 0 ∧
      (l.initialState sh).2.rng.isSome = sh.rng.isSome ∧ (l.initialState sh).2.workerPool = sh.workerPool ∧
      restoreRngs l.chacha (l.initialState sh).1.shuffleState = .ok (l.initialState sh).2.rng := by
  obtain ⟨rng, pool⟩ := sh
  cases rng with
  | none => exact ⟨⟨rfl, .refl _, Nat.zero_le _, rfl, none, rfl, rfl⟩, rfl, rfl, rfl, rfl⟩
  | some rng =>
    have hrestore := restoreRngs_checkpointRng l.chacha (some (l.chacha.shuffle rng (List.range l.dataset.len)).2)
    exact ⟨⟨rfl, l.chacha.shuffle_perm rng _, Nat.zero_le _, rfl, _, hrestore, rfl⟩, rfl, rfl, rfl, hrestore⟩

theorem checkOrder_iff {seen : List Bool} {order : List Nat} :
    checkOrder seen order = .ok () ↔ order.Nodup ∧ ∀ i ∈ order, seen[i]? = some false := by
  induction order generalizing seen with
  | nil => simp [checkOrder]
  | cons i order ih =>
    rw [checkOrder]
    split
    · next h => simp [h]
    · next h => simp [h]
    · next h =>
      have hlt : i < seen.length := (List.getElem?_eq_some_iff.mp h).1
      rw [ih, List.nodup_cons]
      constructor
      · rintro ⟨hnodup, hall⟩
        have hi : i ∉ order := fun hmem => by
          have := hall i hmem
          rw [List.getElem?_set_self hlt] at this
          cases this
        refine ⟨⟨hi, hnodup⟩, fun k hk => ?_⟩
        rcases List.mem_cons.mp hk with rfl | hk
        · exact h
        · have hne : i ≠ k := fun heq => hi (heq ▸ hk)
          rw [← hall k hk, List.getElem?_set_ne hne]
      · rintro ⟨⟨hi, hnodup⟩, hall⟩
        refine ⟨hnodup, fun k hk => ?_⟩
        have hne : i ≠ k := fun heq => hi (heq ▸ hk)
        rw [List.getElem?_set_ne hne]
        exact hall k (by simp [hk])

theorem checkState_ok {sh : LoaderShared R} {st : DataLoaderState} {rng : Option R} :
    l.checkState sh st = .ok rng ↔ l.Valid sh.rng.isSome st ∧ restoreRngs l.chacha st.shuffleState = .ok rng := by
  rw [checkState]
  split
  · next hbad =>
    constructor
    · intro h
      cases h
    · rintro ⟨hvalid, -⟩
      simp [hvalid.version, hvalid.length, hvalid.batchSize, Nat.not_lt.mpr (hvalid.length ▸ hvalid.position)] at hbad
  · next hgood =>
    simp only [not_or, not_not, not_lt] at hgood
    obtain ⟨hversion, hlength, hposition, hsize⟩ := hgood
    have hchecked : checkOrder (List.replicate st.order.length false) st.order = .ok () ↔
        st.order.Perm (List.range l.dataset.len) := by
      rw [checkOrder_iff]
      constructor
      · rintro ⟨hnodup, hall⟩
        have hsub : st.order ⊆ List.range l.dataset.len := fun i hi => by
          have hlt := (List.getElem?_eq_some_iff.mp (hall i hi)).1
          rwa [List.length_replicate, hlength, ← List.mem_range] at hlt
        exact (List.subperm_of_subset hnodup hsub).perm_of_length_le (by rw [List.length_range, hlength])
      · intro hperm
        refine ⟨hperm.nodup_iff.mpr List.nodup_range, fun i hi => ?_⟩
        have hlt := List.mem_range.mp (hperm.mem_iff.mp hi)
        simp [hlength, hlt]
    rw [except_bind_eq_ok]
    constructor
    · rintro ⟨⟨⟩, hcheck, h⟩
      obtain ⟨restored, hrestored, h⟩ := except_bind_eq_ok.mp h
      split at h
      · cases h
      · next hsame =>
        obtain rfl := Except.ok.inj h
        exact ⟨⟨hversion, hchecked.mp hcheck, hposition, hsize, restored, hrestored, (not_not.mp hsame).symm⟩, hrestored⟩
    · rintro ⟨hvalid, hrestored⟩
      obtain ⟨restored, hrestored', hsame⟩ := hvalid.rng
      obtain rfl := Except.ok.inj (hrestored.symm.trans hrestored')
      refine ⟨(), hchecked.mpr hvalid.order, except_bind_eq_ok.mpr ⟨rng, hrestored, ?_⟩⟩
      rw [if_neg (not_not.mpr hsame.symm)]
      rfl

-- Runs

/-- What holds of a loader and its iterators over a whole run. -/
structure Inv (l : ResumableLoader R I O) (shuffles : Bool) (s : System R) : Prop where
  seeded : s.shared.rng.isSome = shuffles
  pool : l.Healthy s.shared.workerPool
  iterators : ∀ it ∈ s.iterators, l.Healthy it.workers ∧ l.Valid shuffles it.state

theorem Valid.next {shuffles : Bool} {it : ResumableIterator} {sh : LoaderShared R} (h : l.Valid shuffles it.state)
    (hnext : Nexts l it sh (l.next it sh)) : l.Valid shuffles (l.next it sh).2.1.state := by
  by_cases hmoved : ∃ o, (l.next it sh).1 = .ok (some o)
  · obtain ⟨o, ho⟩ := hmoved
    rw [hnext.moved o ho]
    exact ⟨h.version, h.order, min_le_right _ _, h.batchSize, h.rng⟩
  · rw [hnext.still fun o ho => hmoved ⟨o, ho⟩]
    exact h

theorem start_spec {sh : LoaderShared R} (hpool : l.Healthy sh.workerPool) {reuse : Bool} {saved : Option DataLoaderState}
    {it : ResumableIterator} (h : (l.iterFromCheckpoint sh reuse saved).1 = .ok it) :
    l.Healthy it.workers ∧ l.Valid sh.rng.isSome it.state ∧
      (l.iterFromCheckpoint sh reuse saved).2.rng.isSome = sh.rng.isSome ∧
      l.Healthy (l.iterFromCheckpoint sh reuse saved).2.workerPool ∧
      restoreRngs l.chacha it.state.shuffleState = .ok (l.iterFromCheckpoint sh reuse saved).2.rng := by
  cases saved with
  | none =>
    obtain rfl := Except.ok.inj h
    obtain ⟨hvalid, -, hsome, hsame, hrng⟩ := l.initialState_spec sh
    exact ⟨Healthy.none, hvalid, hsome, fun p hp => hpool p (hsame ▸ hp), hrng⟩
  | some state =>
    rw [iterFromCheckpoint] at h ⊢
    cases hcheck : l.checkState sh state with
    | error e =>
      rw [hcheck] at h
      cases h
    | ok rng =>
      rw [hcheck] at h
      obtain rfl := Except.ok.inj h
      obtain ⟨hvalid, hrng⟩ := checkState_ok.mp hcheck
      obtain ⟨restored, hrestored, hsame⟩ := hvalid.rng
      obtain rfl := Except.ok.inj (hrng.symm.trans hrestored)
      exact ⟨Healthy.none, hvalid, hsame, hpool, hrng⟩

theorem reject_spec {sh : LoaderShared R} {reuse : Bool} {saved : Option DataLoaderState} {e : String}
    (h : (l.iterFromCheckpoint sh reuse saved).1 = .error e) : (l.iterFromCheckpoint sh reuse saved).2 = sh := by
  cases saved with
  | none => cases h
  | some state =>
    rw [iterFromCheckpoint] at h ⊢
    cases hcheck : l.checkState sh state with
    | error e => rfl
    | ok rng =>
      rw [hcheck] at h
      cases h

theorem Inv.step {shuffles : Bool} {s s' : System R} (h : l.Inv shuffles s) (hstep : l.Step s s') : l.Inv shuffles s' := by
  cases hstep with
  | start reuse saved it hit =>
    obtain ⟨hworkers, hvalid, hsome, hpool, -⟩ := start_spec h.pool hit
    refine ⟨hsome.trans h.seeded, hpool, fun it' hit' => ?_⟩
    rcases List.mem_append.mp hit' with hit' | hit'
    · exact h.iterators it' hit'
    · rw [List.mem_singleton.mp hit']
      exact ⟨hworkers, h.seeded ▸ hvalid⟩
  | reject reuse saved e he =>
    rw [reject_spec he]
    exact h
  | next k it hit =>
    obtain ⟨hworkers, hvalid⟩ := h.iterators it (List.mem_of_getElem? hit)
    have hnext := next_nexts hworkers h.pool hvalid.length
    refine ⟨by rw [hnext.rng, h.seeded], hnext.pool, fun it' hit' => ?_⟩
    rcases List.mem_or_eq_of_mem_set hit' with hit' | rfl
    · exact h.iterators it' hit'
    · exact ⟨hnext.workers, hvalid.next hnext⟩
  | drop k it panicking hit =>
    obtain ⟨hworkers, -⟩ := h.iterators it (List.mem_of_getElem? hit)
    refine ⟨?_, ?_, fun it' hit' => h.iterators it' (List.mem_of_mem_eraseIdx hit')⟩
    · rw [dropIterator]
      split
      · split <;> exact h.seeded
      · exact h.seeded
    · rw [dropIterator]
      split
      · split
        · exact hworkers
        · exact h.pool
      · exact h.pool

theorem Reachable.inv {s : System R} (h : l.Reachable s) : l.Inv s.shared.rng.isSome s := by
  obtain ⟨rng, hrun⟩ := h
  have hinv : ∃ shuffles, l.Inv shuffles s := by
    induction hrun with
    | refl => exact ⟨rng.isSome, rfl, Healthy.none, fun _ hit => by cases hit⟩
    | tail _ hstep ih =>
      obtain ⟨shuffles, hinv⟩ := ih
      exact ⟨shuffles, hinv.step hstep⟩
  obtain ⟨shuffles, hinv⟩ := hinv
  rwa [hinv.seeded]

-- Epochs

/-- Iterating until `None`, with the shared state as any run of the loader leaves it before every call. -/
inductive Epoch (l : ResumableLoader R I O) : ResumableIterator → List O → Prop
  | done (it : ResumableIterator) (s : System R) (hs : l.Reachable s) (h : (l.next it s.shared).1 = .ok none) : Epoch l it []
  | more (it : ResumableIterator) (s : System R) (o : O) (os : List O) (hs : l.Reachable s)
      (h : (l.next it s.shared).1 = .ok (some o)) (hrest : Epoch l (l.next it s.shared).2.1 os) : Epoch l it (o :: os)

/-- An iterator after some batches. -/
inductive Taken (l : ResumableLoader R I O) : ResumableIterator → Nat → ResumableIterator → Prop
  | zero (it : ResumableIterator) : Taken l it 0 it
  | batch (it it' : ResumableIterator) (k : Nat) (s : System R) (o : O) (hs : l.Reachable s) (htaken : Taken l it k it')
      (h : (l.next it' s.shared).1 = .ok (some o)) : Taken l it (k + 1) (l.next it' s.shared).2.1

/-- The batches that are left, as slices of the order. -/
def batchesFrom (l : ResumableLoader R I O) (item : Nat → I) (output : List I → O) (st : DataLoaderState) : List O :=
  (chunks l.batchSize (st.order.drop st.position)).map fun indices => output (indices.map item)

theorem batchesFrom_cons {shuffles : Bool} {st : DataLoaderState} (h : l.Valid shuffles st) (hpos : st.position ≠ st.order.length) :
    l.batchesFrom item output st =
      output (((st.order.drop st.position).take (min (st.position + st.batchSize) st.order.length - st.position)).map item) ::
        l.batchesFrom item output { st with position := min (st.position + st.batchSize) st.order.length } := by
  have hle := h.position
  have hne : st.order.drop st.position ≠ [] := by
    rw [ne_eq, List.drop_eq_nil_iff]
    omega
  have htake : (st.order.drop st.position).take (min (st.position + st.batchSize) st.order.length - st.position) =
      (st.order.drop st.position).take l.batchSize := by
    rw [List.take_eq_take_iff, List.length_drop, ← h.batchSize]
    omega
  have hdrop : st.order.drop (min (st.position + st.batchSize) st.order.length) =
      (st.order.drop st.position).drop l.batchSize := by
    rw [List.drop_drop, ← h.batchSize]
    rcases Nat.le_total (st.position + st.batchSize) st.order.length with hcase | hcase
    · rw [min_eq_left hcase]
    · rw [min_eq_right hcase, List.drop_length, List.drop_eq_nil_of_le hcase]
  rw [batchesFrom, batchesFrom, chunks_cons l.batchSize_pos hne, List.map_cons, htake, hdrop]

theorem batchesFrom_end {st : DataLoaderState} (h : st.position = st.order.length) : l.batchesFrom item output st = [] := by
  rw [batchesFrom, h, List.drop_length, chunks_nil l.batchSize_pos]
  rfl

theorem reachable_new (l : ResumableLoader R I O) (rng : Option R) : l.Reachable ⟨⟨rng, none⟩, []⟩ := ⟨rng, .refl⟩

theorem next_eq (h : PureReads l item output) {shuffles : Bool} {it : ResumableIterator} (hworkers : l.Healthy it.workers)
    (hvalid : l.Valid shuffles it.state) {s : System R} (hs : l.Reachable s) :
    Nexts l it s.shared (l.next it s.shared) ∧
      ((it.state.position = it.state.order.length ∧ (l.next it s.shared).1 = .ok none) ∨
        ∃ o, it.state.position ≠ it.state.order.length ∧ (l.next it s.shared).1 = .ok (some o) ∧
          l.batchesFrom item output it.state = o :: l.batchesFrom item output (l.next it s.shared).2.1.state) := by
  have hnext := next_nexts hworkers hs.inv.pool hvalid.length
  refine ⟨hnext, ?_⟩
  by_cases hpos : it.state.position = it.state.order.length
  · exact .inl ⟨hpos, hnext.none.mpr hpos⟩
  · have hok := next_ok h hworkers hs.inv.pool hvalid.length hvalid.inside hpos
    refine .inr ⟨_, hpos, hok, ?_⟩
    rw [hnext.moved _ hok]
    exact batchesFrom_cons hvalid hpos

/-- Iterating gives the slices that are left, in whatever runs the calls fall, and it ends. -/
theorem epoch_iff (h : PureReads l item output) {shuffles : Bool} {it : ResumableIterator} (hworkers : l.Healthy it.workers)
    (hvalid : l.Valid shuffles it.state) {os : List O} : l.Epoch it os ↔ os = l.batchesFrom item output it.state := by
  constructor
  · intro hepoch
    induction hepoch with
    | done it s hs hdone =>
      obtain ⟨hnext, -⟩ := next_eq h hworkers hvalid hs
      rw [batchesFrom_end (hnext.none.mp hdone)]
    | more it s o os hs ho _ ih =>
      obtain ⟨hnext, ⟨-, hnone⟩ | ⟨o', -, ho', hcons⟩⟩ := next_eq h hworkers hvalid hs
      · rw [hnone] at ho
        cases ho
      · obtain rfl := Option.some.inj (Except.ok.inj (ho.symm.trans ho'))
        rw [hcons, ih hnext.workers (hvalid.next hnext)]
  · rintro rfl
    generalize hn : (l.batchesFrom item output it.state).length = n
    induction n generalizing it with
    | zero =>
      have hs := l.reachable_new none
      obtain ⟨-, ⟨hpos, hnone⟩ | ⟨o, -, -, hcons⟩⟩ := next_eq h hworkers hvalid hs
      · rw [batchesFrom_end hpos]
        exact .done it _ hs hnone
      · rw [hcons] at hn
        cases hn
    | succ n ih =>
      have hs := l.reachable_new none
      obtain ⟨hnext, ⟨hpos, -⟩ | ⟨o, -, ho, hcons⟩⟩ := next_eq h hworkers hvalid hs
      · rw [batchesFrom_end hpos] at hn
        cases hn
      · rw [hcons, List.length_cons] at hn
        rw [hcons]
        exact .more it _ o _ hs ho (ih hnext.workers (hvalid.next hnext) (by omega))

theorem taken_spec (h : PureReads l item output) {shuffles : Bool} {it it' : ResumableIterator} {k : Nat}
    (hworkers : l.Healthy it.workers) (hvalid : l.Valid shuffles it.state) (htaken : l.Taken it k it') :
    l.Healthy it'.workers ∧ l.Valid shuffles it'.state ∧ it'.state.shuffleState = it.state.shuffleState ∧
      l.batchesFrom item output it'.state = (l.batchesFrom item output it.state).drop k := by
  induction htaken with
  | zero => exact ⟨hworkers, hvalid, rfl, rfl⟩
  | batch it' k s o hs _ ho ih =>
    obtain ⟨hworkers', hvalid', hrng, hbatches⟩ := ih
    obtain ⟨hnext, ⟨-, hnone⟩ | ⟨o', -, ho', hcons⟩⟩ := next_eq h hworkers' hvalid' hs
    · rw [hnone] at ho
      cases ho
    · refine ⟨hnext.workers, hvalid'.next hnext, ?_, ?_⟩
      · rw [hnext.moved o ho]
        exact hrng
      · rw [← List.drop_drop, ← hbatches, hcons, List.drop_one, List.tail_cons]

theorem laterOrder_congr {sh sh' : LoaderShared R} (h : sh.rng = sh'.rng) (epochs : Nat) :
    l.laterOrder sh epochs = l.laterOrder sh' epochs := by
  have hstate (sh sh' : LoaderShared R) (h : sh.rng = sh'.rng) :
      (l.initialState sh).1 = (l.initialState sh').1 ∧ (l.initialState sh).2.rng = (l.initialState sh').2.rng := by
    obtain ⟨rng, pool⟩ := sh
    obtain ⟨rng', pool'⟩ := sh'
    obtain rfl : rng = rng' := h
    cases rng <;> exact ⟨rfl, rfl⟩
  induction epochs generalizing sh sh' with
  | zero => rw [laterOrder, laterOrder, (hstate sh sh' h).1]
  | succ epochs ih =>
    rw [laterOrder, laterOrder]
    exact ih (hstate sh sh' h).2

theorem resume_spec {sh : LoaderShared R} {st : DataLoaderState} (h : l.Valid sh.rng.isSome st) (reuse : Bool) :
    (l.iterFromCheckpoint sh reuse (some st)).1 = .ok ⟨st, none, reuse⟩ := by
  obtain ⟨rng, hrng, -⟩ := h.rng
  rw [iterFromCheckpoint, checkState_ok.mpr ⟨h, hrng⟩]

/-- Whatever is read, a read worker is there for every job and a panic moves nothing; a rejected checkpoint changes
nothing. Where reads are pure, an epoch is the slices of one permutation for every number of workers, and a checkpoint
of any position gives the rest of the epoch and the orders of all later epochs. -/
theorem resumable_loader_exact (l : ResumableLoader R I O) :
    (∀ s, l.Reachable s → ∀ it ∈ s.iterators,
      (l.next it s.shared).1 ≠ .error .index ∧ (l.next it s.shared).1 ≠ .error .stopped ∧
        ∀ e, (l.next it s.shared).1 = .error e → (l.next it s.shared).2.1.state = it.state) ∧
    (∀ s, l.Reachable s → ∀ reuse saved e, (l.iterFromCheckpoint s.shared reuse saved).1 = .error e →
      (l.iterFromCheckpoint s.shared reuse saved).2 = s.shared) ∧
    ∀ item output, PureReads l item output →
      (∀ s, l.Reachable s → ∀ reuse workers batchReading,
        (l.iter s.shared reuse).1.state.order.Perm (List.range l.dataset.len) ∧
        ({ l with workers, batchReading }.iter s.shared reuse).1 = (l.iter s.shared reuse).1 ∧
        ∀ os, { l with workers, batchReading }.Epoch (l.iter s.shared reuse).1 os ↔
          os = (chunks l.batchSize (l.iter s.shared reuse).1.state.order).map fun indices => output (indices.map item)) ∧
      ∀ s, l.Reachable s → ∀ reuse saved it, (l.iterFromCheckpoint s.shared reuse saved).1 = .ok it →
        ∀ k it', l.Taken it k it' → ∀ s', l.Reachable s' → s'.shared.rng.isSome = s.shared.rng.isSome → ∀ reuse',
          ∃ it₂, (l.iterFromCheckpoint s'.shared reuse' (some it'.state)).1 = .ok it₂ ∧ it₂.state = it'.state ∧
            (∀ os, l.Epoch it₂ os ↔ os = (l.batchesFrom item output it.state).drop k) ∧
            (∀ os, l.Epoch it' os ↔ os = (l.batchesFrom item output it.state).drop k) ∧
            ∀ epochs, l.laterOrder (l.iterFromCheckpoint s'.shared reuse' (some it'.state)).2 epochs =
              l.laterOrder (l.iterFromCheckpoint s.shared reuse saved).2 epochs := by
  refine ⟨fun s hs it hit => ?_, fun s _ reuse saved e he => reject_spec he, fun item output h => ⟨?_, ?_⟩⟩
  · obtain ⟨hworkers, hvalid⟩ := hs.inv.iterators it hit
    have hnext := next_nexts hworkers hs.inv.pool hvalid.length
    exact ⟨hnext.fault.1, hnext.fault.2, fun e he => hnext.still fun o ho => by rw [he] at ho; cases ho⟩
  · intro s hs reuse workers batchReading
    obtain ⟨hvalid, hpos, -⟩ := l.initialState_spec s.shared
    have hreads : PureReads { l with workers, batchReading } item output := ⟨h.get, h.getMany, h.batch⟩
    have hvalid' : Valid { l with workers, batchReading } s.shared.rng.isSome (l.iter s.shared reuse).1.state :=
      ⟨hvalid.version, hvalid.order, hvalid.position, hvalid.batchSize, hvalid.rng⟩
    refine ⟨hvalid.order, rfl, fun os => ?_⟩
    rw [epoch_iff hreads Healthy.none hvalid', batchesFrom, show (l.iter s.shared reuse).1.state.position = 0 from hpos,
      List.drop_zero]
  · intro s hs reuse saved it hit k it' htaken s' hs' hsame reuse'
    obtain ⟨hworkers, hvalid, -, -, hrng⟩ := start_spec hs.inv.pool hit
    obtain ⟨hworkers', hvalid', hshuffle, hbatches⟩ := taken_spec h hworkers hvalid htaken
    have hresume := resume_spec (hsame ▸ hvalid') reuse'
    obtain ⟨-, -, -, -, hrng'⟩ := start_spec hs'.inv.pool hresume
    refine ⟨_, hresume, rfl, fun os => ?_, fun os => ?_, laterOrder_congr ?_⟩
    · exact (@epoch_iff _ _ _ _ _ _ h _ ⟨it'.state, none, reuse'⟩ Healthy.none hvalid' os).trans (by rw [hbatches])
    · rw [epoch_iff h hworkers' hvalid', hbatches]
    · rw [hshuffle, hrng] at hrng'
      exact (Except.ok.inj hrng').symm

/-- Three items, read by two workers and taken two at a time. -/
def threeItems : ResumableLoader Unit Nat (List Nat) where
  dataset := ⟨3, fun i => pure (some i), fun indices => pure (some indices), true, by decide⟩
  batch := fun items => pure items
  batchSize := 2
  workers := 2
  batchReading := false
  chacha := SamplerDataset.firstParts.chacha
  batchSize_pos := two_pos

theorem pureReads_threeItems : PureReads threeItems id id where
  get _ _ := rfl
  getMany indices _ := by rw [List.map_id]; rfl
  batch _ := rfl

theorem resumable_loader_exact_three :
    threeItems.Epoch (threeItems.iter ⟨some (), none⟩ true).1 [[0, 1], [2]] :=
  ((((resumable_loader_exact threeItems).2.2 id id pureReads_threeItems).1 _ (threeItems.reachable_new (some ())) true 2
    false).2.2 _).mpr rfl

end Ruda.Data.ResumableLoader
