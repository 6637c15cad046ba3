import Ruda.Data.MultiThread

/-!
# An epoch of the multi-threaded loader is complete

What each worker sends is a script: the batches of its part of the dataset, and that it is done.
Until the iterator shuts down, what was received, what is in the queue and what the workers have
still to send are the scripts, so that once every worker is done all batches were received.
-/

namespace Ruda.Data

variable {R S I O : Type}

-- Batches of parts

theorem chunks_append {n : Nat} (hn : 0 < n) {l : List I} (hdvd : n ∣ l.length) (m : List I) :
    chunks n (l ++ m) = chunks n l ++ chunks n m := by
  obtain ⟨k, hk⟩ := hdvd
  induction k generalizing l with
  | zero =>
    obtain rfl := List.length_eq_zero_iff.mp hk
    rw [chunks_nil hn]
    rfl
  | succ k ih =>
    have hlen : n ≤ l.length := by
      rw [hk]
      exact Nat.le_mul_of_pos_right n (Nat.succ_pos k)
    have hne : l ≠ [] := List.ne_nil_of_length_pos (hn.trans_le hlen)
    have hrest : (l.drop n).length = n * k := by
      rw [List.length_drop, hk, Nat.mul_succ, Nat.add_sub_cancel]
    rw [chunks_cons hn hne, chunks_cons hn (List.append_ne_nil_of_left_ne_nil hne m), List.take_append_of_le_length hlen,
      List.drop_append_of_le_length hlen, ih hrest, List.cons_append]

theorem chunks_flatten {n : Nat} (hn : 0 < n) {parts : List (List I)} (hdvd : ∀ p ∈ parts.dropLast, n ∣ p.length) :
    chunks n parts.flatten = parts.flatMap (chunks n) := by
  induction parts with
  | nil => exact chunks_nil hn
  | cons p parts ih =>
    cases parts with
    | nil => simp
    | cons q parts =>
      rw [List.dropLast_cons_cons] at hdvd
      obtain ⟨hp, hrest⟩ := List.forall_mem_cons.mp hdvd
      rw [List.flatten_cons, chunks_append hn hp, ih hrest]
      rfl

theorem short_chunks {n : Nat} (hn : 0 < n) (l : List I) : ((chunks n l).filter fun c => c.length ≠ n).length ≤ 1 := by
  by_cases hnil : l = []
  · rw [hnil, chunks_nil hn]
    exact Nat.zero_le 1
  · rw [chunks_cons hn hnil]
    by_cases hlen : n ≤ l.length
    · have hfull : (l.take n).length = n := by rw [List.length_take, min_eq_left hlen]
      have hpos := List.length_pos_of_ne_nil hnil
      rw [List.filter_cons_of_neg (by simp [hfull])]
      exact short_chunks hn (l.drop n)
    · rw [List.drop_eq_nil_of_le (not_le.mp hlen).le, chunks_nil hn]
      exact List.length_filter_le _ _
termination_by l.length
decreasing_by
  rw [List.length_drop]
  omega

-- Scripts

/-- What a worker sends: a batch of items with the progress after it, or nothing but that it is done. -/
abbrev Note (I : Type) := Option (List I × Progress)

namespace Note

def message (batch : List I → O) (i : Nat) : Note I → Message O
  | some (c, progress) => .batch i (batch c) progress
  | none => .done

/-- Batches from one place on, and the end of the script. -/
def script (total : Nat) : (place : Nat) → List (List I) → List (Note I)
  | _, [] => [none]
  | place, c :: cs => some (c, ⟨place + c.length, total⟩) :: script total (place + c.length) cs

def batches (notes : List (Note I)) : List (List I) := notes.filterMap fun note => note.map Prod.fst

/-- The number of items that were sent. -/
def taken (notes : List (Note I)) : Nat := (batches notes).flatten.length

theorem batches_append (a b : List (Note I)) : batches (a ++ b) = batches a ++ batches b := List.filterMap_append

theorem taken_append (a b : List (Note I)) : taken (a ++ b) = taken a + taken b := by
  rw [taken, batches_append, List.flatten_append, List.length_append]
  rfl

theorem taken_some (c : List I) (progress : Progress) : taken [some (c, progress)] = c.length := by simp [taken, batches]

theorem taken_none : taken [(none : Note I)] = 0 := rfl

theorem batches_script (total place : Nat) (cs : List (List I)) : batches (script total place cs) = cs := by
  induction cs generalizing place with
  | nil => rfl
  | cons c cs ih =>
    rw [script, batches, List.filterMap_cons]
    exact congrArg _ (ih _)

theorem closes_script (total place : Nat) (cs : List (List I)) : Gather.Closes Option.isNone (script total place cs) := by
  induction cs generalizing place with
  | nil => exact ⟨[], none, rfl, rfl, nofun⟩
  | cons c cs ih =>
    obtain ⟨body, stop, hscript, hstop, hbody⟩ := (ih (place + c.length)).ends
    refine ⟨some (c, ⟨place + c.length, total⟩) :: body, stop, ?_, hstop, ?_⟩
    · rw [script, hscript, List.cons_append]
    · exact List.forall_mem_cons.mpr ⟨rfl, hbody⟩

theorem progress_script {total place : Nat} {cs : List (List I)} {before after : List (Note I)} {c : List I} {progress : Progress}
    (h : script total place cs = before ++ some (c, progress) :: after) : progress = ⟨place + taken before + c.length, total⟩ := by
  induction cs generalizing place before with
  | nil =>
    cases before with
    | nil => cases (List.cons.inj h).1
    | cons note before => simp [script] at h
  | cons c₁ cs ih =>
    cases before with
    | nil =>
      obtain ⟨hhead, -⟩ := List.cons.inj h
      obtain ⟨rfl, rfl⟩ := Prod.mk.inj (Option.some.inj hhead)
      rfl
    | cons note before =>
      obtain ⟨rfl, hrest⟩ := List.cons.inj h
      have hcons : taken (some (c₁, (⟨place + c₁.length, total⟩ : Progress)) :: before) = c₁.length + taken before := by
        rw [← taken_some c₁ ⟨place + c₁.length, total⟩, ← taken_append]
        rfl
      rw [ih hrest, hcons]
      simp only [Progress.mk.injEq, and_true]
      omega

end Note

/-- What a worker sends from a place of its items on. -/
def scriptFrom (batchSize : Nat) (order : List I) (place : Nat) : List (Note I) :=
  Note.script order.length place (chunks batchSize (order.drop place))

theorem scriptFrom_end {batchSize : Nat} (hbatch : 1 ≤ batchSize) (order : List I) : scriptFrom batchSize order order.length = [none] := by
  rw [scriptFrom, List.drop_length, chunks_nil hbatch]
  rfl

theorem scriptFrom_lt {batchSize : Nat} (hbatch : 1 ≤ batchSize) {order : List I} {place : Nat} (hlt : place < order.length) :
    scriptFrom batchSize order place =
      some ((order.drop place).take batchSize, ⟨min (place + batchSize) order.length, order.length⟩) ::
        scriptFrom batchSize order (min (place + batchSize) order.length) := by
  have hne : order.drop place ≠ [] := by
    rw [ne_eq, List.drop_eq_nil_iff]
    omega
  have hplace : place + ((order.drop place).take batchSize).length = min (place + batchSize) order.length := by
    rw [List.length_take, List.length_drop]
    omega
  have hrest : (order.drop place).drop batchSize = order.drop (min (place + batchSize) order.length) := by
    rw [List.drop_drop]
    rcases Nat.le_total (place + batchSize) order.length with hcase | hcase
    · rw [min_eq_left hcase]
    · rw [min_eq_right hcase, List.drop_length, List.drop_eq_nil_of_le hcase]
  rw [scriptFrom, chunks_cons hbatch hne, Note.script, hplace, hrest]
  rfl

-- The parts of the loaders

/-- The loader of a part of the dataset. -/
structure LoadsPart (l : MultiThreadDataLoader R S I O) (d : BatchDataLoader R I) (part : List I) : Prop where
  holds : Holds d.dataset part
  batchSize : d.batchSize = l.batchSize
  rng : d.rng.isSome = l.seed.isSome

/-- A dataset in parts of whole batches, the last one apart. -/
structure Parts (l : MultiThreadDataLoader R S I O) (items : List I) (parts : List (List I)) : Prop where
  perm : parts.flatten.Perm items
  ordered : l.seed = none → parts.flatten = items
  whole : ∀ part ∈ parts.dropLast, l.batchSize ∣ part.length

namespace MultiThreadDataLoader

variable {l : MultiThreadDataLoader R S I O} {items : List I}

theorem drawRngs_isSome (gen : LoaderRng R S) (n : Nat) (rng : Option R) :
    (drawRngs gen n rng).length = n ∧ ∀ r ∈ drawRngs gen n rng, r.isSome = rng.isSome := by
  induction n generalizing rng with
  | zero => exact ⟨rfl, nofun⟩
  | succ n ih =>
    cases rng with
    | none =>
      obtain ⟨hlen, hall⟩ := ih none
      exact ⟨congrArg Nat.succ hlen, List.forall_mem_cons.mpr ⟨rfl, hall⟩⟩
    | some rng =>
      obtain ⟨hlen, hall⟩ := ih (some (gen.sample rng).2)
      exact ⟨congrArg Nat.succ hlen, List.forall_mem_cons.mpr ⟨rfl, hall⟩⟩

theorem source_holds (h : Holds l.dataset items) :
    ∃ d order, l.source = .ok d ∧ Holds d order ∧ order.Perm items ∧ (l.seed = none → order = items) := by
  rw [source]
  split
  · exact ⟨l.dataset, items, rfl, h, .refl _, fun _ => rfl⟩
  · next seed hseed =>
    obtain ⟨shuffled, rng, order, hnew, hperm, hholds⟩ := h.shuffled (l.gen.fromSeed seed)
    rw [hnew]
    exact ⟨shuffled.toDataset, order, rfl, hholds, hperm, fun hnone => nomatch hseed.symm.trans hnone⟩

theorem forall₂_zipWith {X Y D P : Type} {rel : D → P → Prop} {f : X → Y → D} {g : X → P} {xs : List X} {ys : List Y}
    (hlen : xs.length ≤ ys.length) (h : ∀ x ∈ xs, ∀ y ∈ ys, rel (f x y) (g x)) :
    List.Forall₂ rel (xs.zipWith f ys) (xs.map g) := by
  induction xs generalizing ys with
  | nil => exact .nil
  | cons x xs ih =>
    cases ys with
    | nil => exact absurd hlen (Nat.not_succ_le_zero _)
    | cons y ys =>
      refine .cons (h x List.mem_cons_self y List.mem_cons_self) (ih (Nat.le_of_succ_le_succ hlen) ?_)
      exact fun x hx y hy => h x (List.mem_cons_of_mem _ hx) y (List.mem_cons_of_mem _ hy)

theorem initialize_ok (h : Holds l.dataset items) (hbatch : 1 ≤ l.batchSize) (hthreads : 1 ≤ l.numThreads)
    (hround : divCeil items.length l.batchSize * l.batchSize ≤ usizeMax) :
    ∃ ds parts, l.initializeDataloaders = .ok ds ∧ Parts l items parts ∧ List.Forall₂ (LoadsPart l) ds parts := by
  obtain ⟨d, order, hsource, hholds, hperm, hordered⟩ := source_holds h
  have hsize : (if l.batchReading then max l.batchSize 1 else l.batchSize) = l.batchSize := by
    split
    · exact max_eq_left hbatch
    · rfl
  rw [← hperm.length_eq] at hround
  have hsplit := PartialDataset.splitChunks_of_len hholds.len hbatch hthreads hround
  have hflat := PartialDataset.flatten_chunkItems order hbatch hthreads
  obtain ⟨hrngs, hsome⟩ := drawRngs_isSome l.gen l.numThreads (l.seed.map l.gen.fromSeed)
  rw [initializeDataloaders, hsource, ok_bind, hsize, hsplit, ok_bind]
  refine ⟨_, (PartialDataset.chunkIndices order.length l.numThreads l.batchSize l.numThreads).map
    (PartialDataset.chunkItems order l.numThreads l.batchSize), rfl,
    ⟨by rw [hflat]; exact hperm, fun hnone => hflat.trans (hordered hnone), ?_⟩, ?_⟩
  · intro part hpart
    rw [← List.map_dropLast] at hpart
    obtain ⟨i, hi, rfl⟩ := List.mem_map.mp hpart
    exact PartialDataset.dvd_length_chunkItems hi
  · rw [List.zipWith_map_left]
    refine forall₂_zipWith ?_ fun i hi rng hrng => ⟨?_, rfl, ?_⟩
    · rw [hrngs]
      exact (List.length_filter_le _ _).trans (List.length_range).le
    · exact hholds.fraction (p := PartialDataset.chunkPart d order.length l.numThreads l.batchSize i)
        (le_min (PartialDataset.chunkStart_mono _ _ _ (Nat.le_succ i)) (PartialDataset.chunkStart_lt hi).le) (min_le_right _ _)
    · rw [hsome rng hrng, Option.isSome_map]

theorem chunks_fold_bound {d : Dataset I} {len num batchSize : Nat} {k : Nat} {s : Nat × List (PartialDataset I)}
    (h : (List.range k).foldlM (PartialDataset.chunksStep d (divCeil len batchSize / num) (divCeil len batchSize % num) batchSize len)
      (0, []) = .ok s) :
    s.1 = PartialDataset.batchesBefore (divCeil len batchSize) num k ∧ (0 < k → s.1 * batchSize ≤ usizeMax) := by
  induction k generalizing s with
  | zero =>
    obtain rfl := Except.ok.inj h
    rw [PartialDataset.batchesBefore, Nat.zero_mul, Nat.zero_min]
    exact ⟨rfl, fun hlt => absurd hlt (lt_irrefl 0)⟩
  | succ k ih =>
    rw [List.range_succ, List.foldlM_append] at h
    obtain ⟨s₁, hs₁, h⟩ := bind_eq_ok.mp h
    obtain ⟨s₂, hstep, h⟩ := bind_eq_ok.mp h
    obtain rfl := Except.ok.inj h
    obtain ⟨splitted, hsplit, hstep⟩ := bind_eq_ok.mp hstep
    obtain ⟨stop, hstop, hstep⟩ := bind_eq_ok.mp hstep
    obtain ⟨startIndex, -, hstep⟩ := bind_eq_ok.mp hstep
    obtain ⟨product, hproduct, hstep⟩ := bind_eq_ok.mp hstep
    obtain rfl := Except.ok.inj hstep
    obtain ⟨rfl, hmul⟩ := mulUsize_iff.mp hproduct
    obtain ⟨rfl, -⟩ := addUsize_iff.mp hstop
    refine ⟨?_, fun _ => hmul⟩
    rw [PartialDataset.batchesBefore_succ, ← (ih hs₁).1]
    rw [PartialDataset.splitBatches] at hsplit
    split at hsplit
    · next hextra =>
      rw [if_pos hextra, (addUsize_iff.mp hsplit).1]
    · next hextra =>
      rw [if_neg hextra, ← Except.ok.inj hsplit]

theorem initialize_panics (h : Holds l.dataset items) (hbatch : 1 ≤ l.batchSize) (hthreads : 1 ≤ l.numThreads)
    (hround : ¬divCeil items.length l.batchSize * l.batchSize ≤ usizeMax) (ds : List (BatchDataLoader R I)) :
    l.initializeDataloaders ≠ .ok ds := by
  intro hok
  obtain ⟨d, hsource, hok⟩ := bind_eq_ok.mp hok
  obtain ⟨d', order, hsource', hholds, hperm, -⟩ := source_holds h
  obtain rfl := Except.ok.inj (hsource.symm.trans hsource')
  obtain ⟨datasets, hsplit, -⟩ := bind_eq_ok.mp hok
  have hsize : (if l.batchReading then max l.batchSize 1 else l.batchSize) = l.batchSize := by
    split
    · exact max_eq_left hbatch
    · rfl
  rw [hsize, PartialDataset.splitChunks, hholds.len, ok_bind, if_neg (by omega)] at hsplit
  obtain ⟨s, hfold, -⟩ := bind_eq_ok.mp hsplit
  obtain ⟨hs, hmul⟩ := chunks_fold_bound hfold
  have hle := hmul hthreads
  rw [hs, PartialDataset.batchesBefore_num hthreads, hperm.length_eq] at hle
  exact hround hle

theorem foldlM_addUsize {counts : List Nat} {a : Nat} (h : a + counts.sum ≤ usizeMax) :
    counts.foldlM (addUsize (ε := Empty)) a = .ok (a + counts.sum) := by
  induction counts generalizing a with
  | nil => rfl
  | cons c counts ih =>
    rw [List.sum_cons] at h ⊢
    rw [List.foldlM_cons, PartialDataset.addUsize_fits (by omega), ok_bind, ih (by omega), Nat.add_assoc]

/-- The iterator of an epoch that begins. -/
def fresh (parts : List (List I)) (lease : Option Nat) : LoaderEpoch I O where
  iterator := {
    numDone := 0
    numWorkers := parts.length
    receiver := true
    progresses := parts.map fun part => ⟨0, part.length⟩
    itemsTotal := parts.flatten.length
    itemsProcessed := 0 }
  workers := List.replicate parts.length .ready
  queue := []
  cancelled := false
  lease := lease
  consumer := .idle
  results := []

theorem iterator_new {parts : List (List I)} (hfits : parts.flatten.length ≤ usizeMax) :
    MultiThreadsDataloaderIterator.new (parts.map fun part => ⟨0, part.length⟩) = .ok (fresh (O := O) parts none).iterator := by
  have htotal : (parts.map List.length).sum = parts.flatten.length := List.length_flatten.symm
  have hzero : (parts.map fun _ => 0).sum = 0 := by simp
  have hmapTotal : (parts.map fun part => (⟨0, part.length⟩ : Progress)).map Progress.itemsTotal = parts.map List.length := by
    rw [List.map_map]
    rfl
  have hmapZero : (parts.map fun part => (⟨0, part.length⟩ : Progress)).map Progress.itemsProcessed = parts.map fun _ => 0 := by
    rw [List.map_map]
    rfl
  have hsumTotal := @foldlM_addUsize (parts.map List.length) 0 (by omega)
  have hsumZero := @foldlM_addUsize (parts.map fun _ => 0) 0 (by rw [hzero]; exact Nat.zero_le _)
  rw [MultiThreadsDataloaderIterator.new, MultiThreadsDataloaderIterator.sum, MultiThreadsDataloaderIterator.sum, hmapTotal,
    hmapZero, hsumTotal, hsumZero, ok_bind, ok_bind, htotal, hzero, List.length_map, Nat.zero_add]
  rfl

/-- The threads of the pool are as many as the loaders. -/
def PoolFits (pool : WorkerPoolState) (n : Nat) : Prop := ∀ threads, pool = .idle threads → threads = n

theorem leaseWorkers_fits {pool : WorkerPoolState} {n : Nat} (h : PoolFits pool n) :
    (∀ threads, (l.leaseWorkers pool n).1 = some threads → threads = n) ∧ PoolFits (l.leaseWorkers pool n).2 n := by
  unfold leaseWorkers
  split
  · cases pool with
    | uninitialized => exact ⟨fun _ hlease => (Option.some.inj hlease).symm, nofun⟩
    | idle threads => exact ⟨fun _ hlease => Option.some.inj hlease ▸ h threads rfl, nofun⟩
    | inUse => exact ⟨nofun, nofun⟩
  · exact ⟨nofun, h⟩

theorem iter_ok {s : LoaderState R I} {ds : List (BatchDataLoader R I)} {parts : List (List I)}
    (hds : l.getOrInit s = .ok ds)
    (hloads : List.Forall₂ (LoadsPart l) ds parts) (hfits : parts.flatten.length ≤ usizeMax)
    (hpool : PoolFits s.workerPool parts.length) :
    ∃ lease pool, l.iter s = .ok ⟨ds, pool, fresh parts lease⟩ ∧ (∀ threads, lease = some threads → threads = parts.length) ∧
      PoolFits pool parts.length := by
  have hlen : ds.length = parts.length := hloads.length_eq
  have hprogress : (ds.mapM fun dataloader => do pure (Progress.mk 0 (← dataloader.dataset.len)) : Checked _) =
      .ok (parts.map fun part => ⟨0, part.length⟩) := by
    refine mapM_ok.mpr (List.forall₂_map_right_iff.mpr (hloads.imp fun d part hload => ?_))
    rw [hload.holds.len]
    rfl
  obtain ⟨hlease, hleft⟩ := leaseWorkers_fits (l := l) hpool
  rw [iter, hds, ok_bind, hprogress, ok_bind, iterator_new (O := O) hfits, ok_bind, hlen]
  generalize l.leaseWorkers s.workerPool parts.length = leased at hlease hleft ⊢
  obtain ⟨lease, pool⟩ := leased
  refine ⟨lease, pool, ?_, hlease, hleft⟩
  have hjobs : min (lease.getD parts.length) parts.length = parts.length := by
    cases lease with
    | none => exact min_self _
    | some threads =>
      rw [hlease threads rfl]
      exact min_self _
  dsimp only
  rw [hjobs]
  rfl

end MultiThreadDataLoader

-- Workers

/-- What a worker has still to send, unless it is cancelled. -/
inductive Left (batch : List I → O) (batchSize : Nat) (order : List I) : WorkerState I O → List (Note I) → Prop
  | ready : Left batch batchSize order .ready (scriptFrom batchSize order 0)
  | looping {it : BatchDataloaderIterator I} {place : Nat} (h : it.At order batchSize place) :
    Left batch batchSize order (.looping it) (scriptFrom batchSize order place)
  | sending {it : BatchDataloaderIterator I} {place : Nat} {c : List I} {progress : Progress} (h : it.At order batchSize place) :
    Left batch batchSize order (.sending (batch c) progress it) (some (c, progress) :: scriptFrom batchSize order place)
  | finishing : Left batch batchSize order .finishing [none]
  | returned : Left batch batchSize order (.returned false) []

/-- A worker that runs, cancelled or not, over at most so many items. -/
inductive Steady (batchSize total : Nat) : WorkerState I O → Prop
  | ready : Steady batchSize total .ready
  | looping {it : BatchDataloaderIterator I} {order : List I} {place : Nat} (h : it.At order batchSize place)
      (hlen : order.length ≤ total) : Steady batchSize total (.looping it)
  | sending {item : O} {progress : Progress} {it : BatchDataloaderIterator I} {order : List I} {place : Nat}
      (h : it.At order batchSize place) (hlen : order.length ≤ total) : Steady batchSize total (.sending item progress it)
  | finishing : Steady batchSize total .finishing
  | returned : Steady batchSize total (.returned false)

/-- The items that an iterator has not given yet. -/
def BatchDataloaderIterator.rest (it : BatchDataloaderIterator I) : Nat :=
  match it.reader.dataset.len with
  | .ok len => len - it.reader.currentIndex
  | .error _ => 0

/-- More than the steps that a worker has still to take, with the messages received. -/
def WorkerState.weight (total : Nat) : WorkerState I O → Nat
  | .ready => 3 * total + 4
  | .looping it => 3 * it.rest + 3
  | .sending _ _ it => 3 * it.rest + 5
  | .finishing => 2
  | .returned _ => 0

section

variable {batch : List I → O} {batchSize place total : Nat} {order : List I} {it : BatchDataloaderIterator I} {w : WorkerState I O}
  {left : List (Note I)}

theorem rest_eq (h : it.At order batchSize place) : it.rest = order.length - place := by
  rw [BatchDataloaderIterator.rest, h.reader.holds.len, h.reader.index]

theorem produce_cases (hbatch : 1 ≤ batchSize) (h : it.At order batchSize place) (batch : List I → O) :
    (place = order.length ∧ WorkerState.produce batch it = .finishing) ∨
    ∃ it', place < order.length ∧ it'.At order batchSize (min (place + batchSize) order.length) ∧
      WorkerState.produce batch it =
        .sending (batch ((order.drop place).take batchSize)) ⟨min (place + batchSize) order.length, order.length⟩ it' := by
  by_cases hend : place = order.length
  · subst hend
    refine .inl ⟨rfl, ?_⟩
    rw [WorkerState.produce, BatchDataloaderIterator.next_end hbatch h]
  · have hlt : place < order.length := lt_of_le_of_ne h.le hend
    obtain ⟨it', hnext, hat⟩ := BatchDataloaderIterator.next_some hbatch h hlt
    refine .inr ⟨it', hlt, hat, ?_⟩
    rw [WorkerState.produce, hnext]
    dsimp only
    rw [BatchDataloaderIterator.progress_eq hat]

theorem left_produce (hbatch : 1 ≤ batchSize) (h : it.At order batchSize place) :
    Left batch batchSize order (.produce batch it) (scriptFrom batchSize order place) := by
  rcases produce_cases hbatch h batch with ⟨rfl, hproduce⟩ | ⟨it', hlt, hat, hproduce⟩
  · rw [hproduce, scriptFrom_end hbatch]
    exact .finishing
  · rw [hproduce, scriptFrom_lt hbatch hlt]
    exact .sending hat

theorem steady_produce (hbatch : 1 ≤ batchSize) (h : it.At order batchSize place) (hlen : order.length ≤ total) :
    Steady batchSize total (.produce batch it) ∧
      (WorkerState.produce batch it).weight total < (WorkerState.looping it : WorkerState I O).weight total := by
  rcases produce_cases hbatch h batch with ⟨rfl, hproduce⟩ | ⟨it', hlt, hat, hproduce⟩
  · rw [hproduce]
    refine ⟨.finishing, ?_⟩
    simp only [WorkerState.weight]
    omega
  · rw [hproduce]
    refine ⟨.sending hat hlen, ?_⟩
    have hrest := rest_eq h
    have hrest' := rest_eq hat
    simp only [WorkerState.weight]
    omega

theorem Steady.not_panicked (h : Steady batchSize total w) : w.hasPanicked = false := by
  cases h <;> rfl

end

-- What was sent and received

/-- All batches of the items in some order, in their own order if there is no seed, each of them once. -/
def Delivered (l : MultiThreadDataLoader R S I O) (items : List I) (delivered : List O) : Prop :=
  ∃ (order : List I) (groups : List (List I)), order.Perm items ∧ (l.seed = none → order = items) ∧ groups.Perm (chunks l.batchSize order) ∧
    delivered = groups.map l.batch

/-- The batches that `next` has returned. -/
def returnedOf (batch : List I → O) (got : List (Nat × Note I)) : List O := (Note.batches (got.map Prod.snd)).map batch

/-- The epoch after a batch of so many items from a worker. -/
def LoaderEpoch.batched (e : LoaderEpoch I O) (i count : Nat) (progress : Progress) (item : O) (queue : List (Message O)) :
    LoaderEpoch I O :=
  { e with
    queue
    consumer := .idle
    results := e.results ++ [some item]
    iterator := { e.iterator with
      itemsProcessed := e.iterator.itemsProcessed + count, progresses := e.iterator.progresses.set i progress } }

open Gather in
/-- Until the shutdown: the workers go through the items in these orders, `got` was received and `pend` is in the queue. -/
structure Flow (l : MultiThreadDataLoader R S I O) (parts : List (List I)) (e : LoaderEpoch I O) (orders : Nat → List I)
    (got pend : List (Nat × Note I)) : Prop where
  permuted : ∀ i part, parts[i]? = some part → (orders i).Perm part ∧ (l.seed = none → orders i = part)
  queue : e.queue = pend.map fun m => m.2.message l.batch m.1
  tags : ∀ m ∈ got ++ pend, m.1 < parts.length
  scripts : ∀ i < parts.length, ∃ w left, e.workers[i]? = some w ∧ Left l.batch l.batchSize (orders i) w left ∧
    share i got ++ share i pend ++ left = scriptFrom l.batchSize (orders i) 0
  numDone : e.iterator.numDone = (got.map Prod.snd).countP Option.isNone
  processed : e.iterator.itemsProcessed = Note.taken (got.map Prod.snd)
  progresses : ∀ i < parts.length, e.iterator.progresses[i]? = some ⟨Note.taken (share i got), (orders i).length⟩
  results : ∃ n, e.results = (returnedOf l.batch got).map some ++ List.replicate n none ∧ (n ≠ 0 → parts = [])

namespace Note

theorem taken_eq_sum (notes : List (Note I)) : taken notes = (notes.map fun note => (note.map fun c => c.1.length).getD 0).sum := by
  induction notes with
  | nil => rfl
  | cons note notes ih =>
    rw [List.map_cons, List.sum_cons, ← ih, ← List.singleton_append, taken_append]
    cases note with
    | none => rfl
    | some c => rw [taken_some c.1 c.2]; rfl

theorem taken_perm {a b : List (Note I)} (h : a.Perm b) : taken a = taken b := by
  rw [taken_eq_sum, taken_eq_sum]
  exact (h.map _).sum_eq

theorem taken_prefix {a b : List (Note I)} (h : a <+: b) : taken a ≤ taken b := by
  obtain ⟨rest, rfl⟩ := h
  rw [taken_append]
  exact Nat.le_add_right _ _

theorem taken_flatMap (l : List Nat) (f : Nat → List (Note I)) : taken (l.flatMap f) = (l.map fun i => taken (f i)).sum := by
  induction l with
  | nil => rfl
  | cons i l ih => rw [List.flatMap_cons, taken_append, ih, List.map_cons, List.sum_cons]

theorem taken_scriptFrom {batchSize : Nat} (hbatch : 1 ≤ batchSize) (order : List I) : taken (scriptFrom batchSize order 0) = order.length := by
  rw [taken, scriptFrom, batches_script, List.drop_zero, flatten_chunks hbatch]

theorem taken_share_le (log : List (Nat × Note I)) (i : Nat) : taken (Gather.share i log) ≤ taken (log.map Prod.snd) := by
  rw [taken_eq_sum, taken_eq_sum]
  exact ((List.filter_sublist.map Prod.snd).map _).sum_le_sum fun _ _ => Nat.zero_le _

end Note

theorem orders_related {rel : List I → List I → Prop} {parts : List (List I)} {orders : Nat → List I}
    (h : ∀ i part, parts[i]? = some part → rel (orders i) part) : List.Forall₂ rel ((List.range parts.length).map orders) parts := by
  refine List.forall₂_iff_get.mpr ⟨by simp, fun i hi hi' => ?_⟩
  simpa using h i _ (List.getElem?_eq_getElem hi')

namespace Flow

open Gather

variable {l : MultiThreadDataLoader R S I O} {items : List I} {parts : List (List I)} {e : LoaderEpoch I O} {orders : Nat → List I}
  {got pend : List (Nat × Note I)}

theorem setWorker (h : Flow l parts e orders got pend) {i : Nat} {w w' : WorkerState I O} (hw : e.workers[i]? = some w)
    (hleft : ∀ left, Left l.batch l.batchSize (orders i) w left → Left l.batch l.batchSize (orders i) w' left) :
    Flow l parts (e.setWorker i w') orders got pend := by
  refine { h with scripts := fun j hj => ?_ }
  obtain ⟨wj, left, hwj, hl, hscript⟩ := h.scripts j hj
  by_cases hji : j = i
  · subst hji
    obtain rfl := Option.some.inj (hw.symm.trans hwj)
    obtain ⟨hlt, -⟩ := List.getElem?_eq_some_iff.mp hw
    exact ⟨w', left, List.getElem?_set_self hlt, hleft left hl, hscript⟩
  · refine ⟨wj, left, ?_, hl, hscript⟩
    rw [← hwj]
    exact List.getElem?_set_ne (Ne.symm hji)

theorem start (h : Flow l parts e orders got pend) {i : Nat} (hw : e.workers[i]? = some .ready) {part order : List I}
    (hpart : parts[i]? = some part) (hperm : order.Perm part) (hordered : l.seed = none → order = part)
    {it : BatchDataloaderIterator I} (hat : it.At order l.batchSize 0) :
    Flow l parts (e.setWorker i (.looping it)) (Function.update orders i order) got pend := by
  obtain ⟨hlt, -⟩ := List.getElem?_eq_some_iff.mp hpart
  obtain ⟨w, left, hw', hleft, hscript⟩ := h.scripts i hlt
  obtain rfl := Option.some.inj (hw.symm.trans hw')
  cases hleft
  -- nothing of the worker's script was sent
  have hnone : share i got = [] ∧ share i pend = [] := by
    have hlen := congrArg List.length hscript
    simp only [List.length_append] at hlen
    exact ⟨List.length_eq_zero_iff.mp (by omega), List.length_eq_zero_iff.mp (by omega)⟩
  have hother (j : Nat) (hj : j ≠ i) : Function.update orders i order j = orders j := Function.update_of_ne hj _ _
  have hself : Function.update orders i order i = order := Function.update_self _ _ _
  refine { h with permuted := fun j p hp => ?_, scripts := fun j hj => ?_, progresses := fun j hj => ?_ }
  · by_cases hji : j = i
    · subst hji
      obtain rfl := Option.some.inj (hpart.symm.trans hp)
      rw [hself]
      exact ⟨hperm, hordered⟩
    · rw [hother j hji]
      exact h.permuted j p hp
  · by_cases hji : j = i
    · subst hji
      obtain ⟨hltw, -⟩ := List.getElem?_eq_some_iff.mp hw
      refine ⟨.looping it, scriptFrom l.batchSize order 0, List.getElem?_set_self hltw, ?_, ?_⟩
      · rw [hself]
        exact .looping hat
      · rw [hself, hnone.1, hnone.2]
        rfl
    · obtain ⟨wj, left, hwj, hl, hs⟩ := h.scripts j hj
      rw [hother j hji]
      refine ⟨wj, left, ?_, hl, hs⟩
      rw [← hwj]
      exact List.getElem?_set_ne (Ne.symm hji)
  · by_cases hji : j = i
    · subst hji
      have hsame : (orders j).length = order.length := (h.permuted j part hpart).1.length_eq.trans hperm.length_eq.symm
      rw [hself, ← hsame]
      exact h.progresses j hj
    · rw [hother j hji]
      exact h.progresses j hj

theorem send (h : Flow l parts e orders got pend) {i : Nat} {w w' : WorkerState I O} {m : Message O}
    (hw : e.workers[i]? = some w) (hlt : i < parts.length)
    (hleft : ∀ left, Left l.batch l.batchSize (orders i) w left →
      ∃ note left', left = note :: left' ∧ m = note.message l.batch i ∧ Left l.batch l.batchSize (orders i) w' left') :
    ∃ note, Flow l parts (e.enqueue i m w') orders got (pend ++ [(i, note)]) := by
  obtain ⟨w₀, left, hw₀, hl, hscript⟩ := h.scripts i hlt
  obtain rfl := Option.some.inj (hw.symm.trans hw₀)
  obtain ⟨note, left', rfl, rfl, hl'⟩ := hleft left hl
  obtain ⟨hltw, -⟩ := List.getElem?_eq_some_iff.mp hw
  refine ⟨note, { h with queue := ?_, tags := ?_, scripts := fun j hj => ?_ }⟩
  · rw [LoaderEpoch.enqueue, h.queue, List.map_append]
    rfl
  · intro m hm
    rcases List.mem_append.mp (List.append_assoc got pend [(i, note)] ▸ hm) with hm | hm
    · exact h.tags m hm
    · exact List.mem_singleton.mp hm ▸ hlt
  · by_cases hji : j = i
    · subst hji
      refine ⟨w', left', List.getElem?_set_self hltw, hl', ?_⟩
      rw [share_snoc_self, ← hscript]
      simp only [List.append_assoc, List.singleton_append]
    · obtain ⟨wj, left, hwj, hl, hs⟩ := h.scripts j hj
      refine ⟨wj, left, ?_, hl, ?_⟩
      · rw [← hwj]
        exact List.getElem?_set_ne (Ne.symm hji)
      · rw [share_snoc_other (Ne.symm hji)]
        exact hs

/-- The share of each worker is the beginning of its script. -/
theorem shares (h : Flow l parts e orders got pend) {i : Nat} (hi : i < parts.length) :
    share i got <+: scriptFrom l.batchSize (orders i) 0 := by
  obtain ⟨-, left, -, -, hscript⟩ := h.scripts i hi
  exact ⟨share i pend ++ left, by rw [← List.append_assoc, hscript]⟩

theorem length_orders (h : Flow l parts e orders got pend) :
    ((List.range parts.length).map fun i => (orders i).length).sum = parts.flatten.length := by
  have hperm := List.Perm.flatten_congr (orders_related fun i part hpart => (h.permuted i part hpart).1)
  rw [← hperm.length_eq, List.length_flatten, List.map_map]
  rfl

/-- No more items than there are were sent. -/
theorem taken_le (h : Flow l parts e orders got pend) (hbatch : 1 ≤ l.batchSize) :
    Note.taken ((got ++ pend).map Prod.snd) ≤ parts.flatten.length := by
  rw [Note.taken_perm (perm_shares h.tags), Note.taken_flatMap, ← h.length_orders]
  refine List.sum_le_sum fun i hi => ?_
  obtain ⟨-, left, -, -, hscript⟩ := h.scripts i (List.mem_range.mp hi)
  rw [← Note.taken_scriptFrom hbatch (orders i), share_append]
  exact Note.taken_prefix ⟨left, hscript⟩

theorem delivered (h : Flow l parts e orders got pend) (hbatch : 1 ≤ l.batchSize) (hparts : Parts l items parts)
    {log : List (Nat × Note I)} (hlog : ∀ m ∈ log, m.1 < parts.length)
    (hall : ∀ i < parts.length, share i log = scriptFrom l.batchSize (orders i) 0) :
    Delivered l items (returnedOf l.batch log) ∧ Note.taken (log.map Prod.snd) = items.length := by
  have hperm := orders_related fun i part hpart => (h.permuted i part hpart).1
  have hwhole : ∀ order ∈ ((List.range parts.length).map orders).dropLast, l.batchSize ∣ order.length := by
    intro order horder
    have hlen : order.length ∈ (((List.range parts.length).map orders).map List.length).dropLast := by
      rw [← List.map_dropLast]
      exact List.mem_map_of_mem horder
    have hlens := List.forall₂_map_left_iff.mpr (List.forall₂_map_right_iff.mpr (hperm.imp fun _ _ hp => hp.length_eq))
    rw [List.forall₂_eq_eq_eq] at hlens
    rw [hlens, ← List.map_dropLast] at hlen
    obtain ⟨part, hpart, hsame⟩ := List.mem_map.mp hlen
    exact hsame ▸ hparts.whole part hpart
  have hshares : ((List.range parts.length).flatMap fun i => share i log) =
      (List.range parts.length).flatMap fun i => scriptFrom l.batchSize (orders i) 0 :=
    List.flatMap_congr fun i hi => hall i (List.mem_range.mp hi)
  have hsent := perm_shares hlog
  rw [hshares] at hsent
  have hbatches : Note.batches ((List.range parts.length).flatMap fun i => scriptFrom l.batchSize (orders i) 0) =
      chunks l.batchSize ((List.range parts.length).map orders).flatten := by
    rw [chunks_flatten hbatch hwhole, Note.batches, List.filterMap_flatMap, List.flatMap_map]
    exact List.flatMap_congr fun i _ => Note.batches_script _ _ _
  refine ⟨⟨((List.range parts.length).map orders).flatten, Note.batches (log.map Prod.snd),
    (List.Perm.flatten_congr hperm).trans hparts.perm, fun hnone => ?_, ?_, rfl⟩, ?_⟩
  · rw [← hparts.ordered hnone]
    have hsame := orders_related fun i part hpart => (h.permuted i part hpart).2 hnone
    rw [List.forall₂_eq_eq_eq] at hsame
    rw [hsame]
  · rw [← hbatches]
    exact hsent.filterMap _
  · rw [Note.taken_perm hsent, Note.taken_flatMap, ← hparts.perm.length_eq, ← h.length_orders]
    exact congrArg List.sum (List.map_congr_left fun i _ => Note.taken_scriptFrom hbatch (orders i))

theorem account (h : Flow l parts e orders got pend) (hbatch : 1 ≤ l.batchSize) (hparts : Parts l items parts) :
    (∃ rest, Delivered l items (returnedOf l.batch got ++ rest)) ∧ e.iterator.itemsProcessed ≤ items.length ∧
    (e.iterator.numDone = parts.length → Delivered l items (returnedOf l.batch got) ∧ e.iterator.itemsProcessed = items.length) := by
  have hgot : ∀ m ∈ got, m.1 < parts.length := fun m hm => h.tags m (List.mem_append_left _ hm)
  refine ⟨?_, ?_, fun hdone => ?_⟩
  · obtain ⟨more, hmore, hall⟩ := exists_rest (n := parts.length) fun i hi => h.shares hi
    refine ⟨returnedOf l.batch more, ?_⟩
    have hwhole := (h.delivered hbatch hparts (fun m hm => (List.mem_append.mp hm).elim (hgot m) (hmore m)) hall).1
    rwa [returnedOf, List.map_append, Note.batches_append, List.map_append] at hwhole
  · rw [h.processed, ← hparts.perm.length_eq]
    refine le_trans ?_ (h.taken_le hbatch)
    rw [List.map_append]
    exact Note.taken_prefix (List.prefix_append _ _)
  · have hall := complete hgot (fun i _ => Note.closes_script _ _ _) (fun i hi => h.shares hi) (h.numDone.symm.trans hdone)
    rw [h.processed]
    exact h.delivered hbatch hparts hgot hall

/-- Somebody has still something to send while not all are done. -/
theorem busy (h : Flow l parts e orders got []) (hdone : e.iterator.numDone < parts.length) : ¬e.AllReturned := by
  intro hreturned
  have hall : ∀ i < parts.length, share i got = scriptFrom l.batchSize (orders i) 0 := by
    intro i hi
    obtain ⟨w, left, hw, hleft, hscript⟩ := h.scripts i hi
    have hw := hreturned w (List.mem_of_getElem? hw)
    cases hleft with
    | returned => rwa [share_nil, List.append_nil, List.append_nil] at hscript
    | _ => exact absurd hw Bool.false_ne_true
  have hgot : ∀ m ∈ got, m.1 < parts.length := fun m hm => h.tags m (List.mem_append_left _ hm)
  have hcount := countP_complete hgot (fun i _ => Note.closes_script _ _ _) hall
  exact hdone.ne (h.numDone.trans hcount)

theorem moved {m : Nat × Note I} (h : Flow l parts e orders got (m :: pend)) {e' : LoaderEpoch I O} (hworkers : e'.workers = e.workers)
    (hqueue : e'.queue = pend.map fun m => m.2.message l.batch m.1)
    (hnumDone : e'.iterator.numDone = e.iterator.numDone + [m.2].countP Option.isNone)
    (hprocessed : e'.iterator.itemsProcessed = e.iterator.itemsProcessed + Note.taken [m.2])
    (hprogresses : ∀ i < parts.length,
      e'.iterator.progresses[i]? = some ⟨Note.taken (share i (got ++ [m])), (orders i).length⟩)
    (hresults : e'.results = e.results ++ (returnedOf l.batch [m]).map some) : Flow l parts e' orders (got ++ [m]) pend where
  permuted := h.permuted
  queue := hqueue
  tags := by
    rw [List.append_assoc]
    exact h.tags
  scripts i hi := by
    obtain ⟨w, left, hw, hleft, hscript⟩ := h.scripts i hi
    refine ⟨w, left, hworkers ▸ hw, hleft, ?_⟩
    rw [← hscript, ← share_append, ← share_append, List.append_assoc]
    rfl
  numDone := by
    rw [hnumDone, h.numDone, List.map_append, List.countP_append]
    rfl
  processed := by
    rw [hprocessed, h.processed, List.map_append, Note.taken_append]
    rfl
  progresses := hprogresses
  results := by
    obtain ⟨n, hn, hempty⟩ := h.results
    -- a message comes from one of the parts
    have hzero : n = 0 := by
      by_contra hne
      have := h.tags m (by simp)
      rw [hempty hne] at this
      exact absurd this (Nat.not_lt_zero _)
    subst hzero
    refine ⟨0, ?_, fun hne => absurd rfl hne⟩
    rw [hresults, hn, returnedOf, returnedOf, returnedOf, List.map_append, Note.batches_append, List.map_append, List.map_append]
    simp

theorem receive_batch {i : Nat} {c : List I} {progress : Progress} (h : Flow l parts e orders got ((i, some (c, progress)) :: pend))
    (hbatch : 1 ≤ l.batchSize) (htotal : e.iterator.itemsTotal = parts.flatten.length) (hfits : parts.flatten.length ≤ usizeMax) :
    e.receive (Note.message l.batch i (some (c, progress))) (pend.map fun m => m.2.message l.batch m.1) =
        e.batched i c.length progress (l.batch c) (pend.map fun m => m.2.message l.batch m.1) ∧
      Flow l parts (e.batched i c.length progress (l.batch c) (pend.map fun m => m.2.message l.batch m.1)) orders
        (got ++ [(i, some (c, progress))]) pend := by
  have hi : i < parts.length := h.tags (i, some (c, progress)) (by simp)
  obtain ⟨w, left, -, -, hscript⟩ := h.scripts i hi
  rw [share_cons_self, List.append_assoc, List.cons_append] at hscript
  have hcount : progress = ⟨Note.taken (share i got) + c.length, (orders i).length⟩ := by
    rw [Note.progress_script hscript.symm, Nat.zero_add]
  have hreceived := h.progresses i hi
  have hshare := Note.taken_share_le got i
  have hroom : Note.taken (got.map Prod.snd) + c.length ≤ usizeMax := by
    refine le_trans ?_ ((h.taken_le hbatch).trans hfits)
    rw [← Note.taken_some c progress, ← Note.taken_append, List.map_append]
    exact Note.taken_prefix ⟨pend.map Prod.snd, by simp⟩
  have hpart : (orders i).length ≤ parts.flatten.length := by
    rw [← h.length_orders]
    exact List.single_le_sum (fun _ _ => Nat.zero_le _) _ (List.mem_map_of_mem (List.mem_range.mpr hi))
  have hprocessed := h.processed
  refine ⟨?_, h.moved rfl rfl rfl ?_ (fun j hj => ?_) ?_⟩
  · simp only [Note.message, LoaderEpoch.receive, MultiThreadsDataloaderIterator.receiveBatch, hreceived, hcount]
    rw [subUsize_ok (by omega), ok_bind, PartialDataset.addUsize_fits (by omega), ok_bind, subUsize_ok (by omega), ok_bind,
      PartialDataset.addUsize_fits (by omega), ok_bind]
    have hitems : e.iterator.itemsTotal - (orders i).length + (orders i).length = e.iterator.itemsTotal := by omega
    have hnow : e.iterator.itemsProcessed - Note.taken (share i got) + (Note.taken (share i got) + c.length) =
        e.iterator.itemsProcessed + c.length := by omega
    rw [hitems, hnow]
    rfl
  · rw [Note.taken_some]
    rfl
  · by_cases hji : j = i
    · subst hji
      rw [share_snoc_self, Note.taken_append, Note.taken_some, ← hcount]
      obtain ⟨hlt, -⟩ := List.getElem?_eq_some_iff.mp hreceived
      exact List.getElem?_set_self hlt
    · rw [share_snoc_other (Ne.symm hji), ← h.progresses j hj]
      exact List.getElem?_set_ne (Ne.symm hji)
  · simp [LoaderEpoch.batched, returnedOf, Note.batches]

theorem receive_done {i : Nat} (h : Flow l parts e orders got ((i, none) :: pend)) :
    Flow l parts (e.receive .done (pend.map fun m => m.2.message l.batch m.1)) orders (got ++ [(i, none)]) pend := by
  refine h.moved rfl rfl rfl rfl (fun j hj => ?_) ?_
  · have hsame : Note.taken (share j (got ++ [(i, none)])) = Note.taken (share j got) := by
      by_cases hji : j = i
      · subst hji
        rw [share_snoc_self, Note.taken_append, Note.taken_none, Nat.add_zero]
      · rw [share_snoc_other (Ne.symm hji)]
    rw [hsame]
    exact h.progresses j hj
  · simp [LoaderEpoch.receive, returnedOf, Note.batches]

end Flow

end Ruda.Data
