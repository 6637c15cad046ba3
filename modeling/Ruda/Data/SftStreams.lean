import Ruda.Data.SftLoader
import Ruda.Lib.Rows

/-!
# Epochs, shards and restored loaders

The loader is at a place of one sequence of batches, that of the orders of all epochs cut
into micro-batches. A call of a rank moves it one round of all ranks, and its state is all
that another loader needs to be at the same place.
-/

namespace Ruda.Data

-- The order of an epoch

theorem swap_perm (order : List Nat) (i j : Nat) : (swap order i j).Perm order := by
  unfold swap
  split
  · next a b hi hj =>
    obtain ⟨hi', rfl⟩ := List.getElem?_eq_some_iff.mp hi
    obtain ⟨hj', rfl⟩ := List.getElem?_eq_some_iff.mp hj
    exact List.set_set_perm hi' hj'
  · exact .rfl

theorem shuffleStep_perm (s : UInt64 × List Nat) (index : Nat) : (shuffleStep s index).2.Perm s.2 := by
  rw [shuffleStep]
  generalize splitMix s.1 = next
  exact swap_perm _ _ _

theorem foldl_shuffleStep_perm (places : List Nat) (s : UInt64 × List Nat) : (places.foldl shuffleStep s).2.Perm s.2 := by
  induction places generalizing s with
  | nil => exact .rfl
  | cons index places ih =>
    rw [List.foldl_cons]
    exact (ih (shuffleStep s index)).trans (shuffleStep_perm s index)

theorem shuffled_perm (random : UInt64) (count : Nat) : (shuffled random count).Perm (List.range count) :=
  foldl_shuffleStep_perm _ _

theorem SftDataset.order_perm (dataset : SftDataset) {window : Nat} (hwindow : 0 < window) (seed : UInt64) (epoch : Nat) :
    (dataset.order window seed epoch).Perm (List.range dataset.examples.length) :=
  (flatMap_chunks_perm hwindow (fun w => List.mergeSort_perm w _) _).trans (shuffled_perm _ _)

-- Batches

theorem le_paddedLength {examples : List SftExample} {e : SftExample} (h : e ∈ examples) :
    e.inputIds.length - 1 ≤ paddedLength examples := by
  have hle : ∀ (l : List Nat) (init : Nat), init ≤ l.foldl max init ∧ ∀ n ∈ l, n ≤ l.foldl max init := by
    intro l
    induction l with
    | nil => exact fun init => ⟨le_rfl, nofun⟩
    | cons m l ih =>
      intro init
      obtain ⟨hinit, hmem⟩ := ih (max init m)
      refine ⟨(le_max_left _ _).trans hinit, fun n hn => ?_⟩
      rcases List.mem_cons.mp hn with rfl | hn
      · exact (le_max_right _ _).trans hinit
      · exact hmem n hn
  have hmem : e.inputIds.length - 1 ∈ examples.map fun e => e.inputIds.length - 1 := List.mem_map_of_mem h
  exact ((hle _ 0).2 _ hmem).trans (le_max_left _ _)

theorem collate_ok (examples : List SftExample) (padTokenId : Int) : ∃ batch, collate examples padTokenId = .ok batch := by
  have hrow : ∀ e ∈ examples, ∃ row, collateRow padTokenId (paddedLength examples) e = .ok row := by
    intro e he
    have hle := le_paddedLength he
    have hinputs : (e.inputIds.take (e.inputIds.length - 1)).length ≤ paddedLength examples := by
      rw [List.length_take]
      exact (Nat.min_le_left _ _).trans hle
    have hlabels : (e.labels.drop 1).length ≤ paddedLength examples := by
      rwa [List.length_drop, e.aligned]
    simp only [collateRow, subUsize_ok hinputs, subUsize_ok hlabels, ok_bind]
    exact ⟨_, rfl⟩
  obtain ⟨rows, hrows⟩ := mapM_total hrow
  simp only [collate, hrows, ok_bind]
  exact ⟨_, rfl⟩

namespace SftLoader

theorem batchOf_ok {dataset : SftDataset} {indices : List Nat} (h : ∀ i ∈ indices, i < dataset.examples.length)
    (padTokenId : Int) : ∃ batch, batchOf dataset padTokenId indices = .ok batch := by
  have hat : ∀ i ∈ indices, ∃ e, exampleAt dataset i = .ok e := by
    intro i hi
    rw [exampleAt, List.getElem?_eq_getElem (h i hi)]
    exact ⟨_, rfl⟩
  obtain ⟨examples, hexamples⟩ := mapM_total hat
  rw [batchOf, hexamples, ok_bind]
  exact collate_ok examples padTokenId

-- The sequence of all ranks

/-- What a loader is built with, and what it does not change. -/
structure Settings where
  dataset : SftDataset
  microBatch : Nat
  padTokenId : Int
  window : Nat
  seed : UInt64
  nonempty : dataset.examples ≠ []
  microBatch_pos : 1 ≤ microBatch
  microBatch_fits : microBatch ≤ usizeMax

namespace Settings

variable (c : Settings)

def count : Nat := c.dataset.examples.length

def perEpoch : Nat := divCeil c.count c.microBatch

def order (epoch : Nat) : List Nat := c.dataset.order (max c.window 1) c.seed epoch

theorem order_perm (epoch : Nat) : (c.order epoch).Perm (List.range c.count) :=
  c.dataset.order_perm (Nat.lt_of_lt_of_le Nat.one_pos (le_max_right _ _)) c.seed epoch

theorem length_order (epoch : Nat) : (c.order epoch).length = c.count := by
  rw [(c.order_perm epoch).length_eq, List.length_range]

theorem count_pos : 0 < c.count := List.length_pos_iff.mpr c.nonempty

theorem perEpoch_pos : 0 < c.perEpoch := (lt_divCeil_iff c.microBatch_pos).mpr (by rw [Nat.zero_mul]; exact c.count_pos)

/-- The loader of a rank, at the start of micro-batch `k` of an epoch. -/
def loader (rank worldSize epoch k : Nat) : SftLoader :=
  ⟨c.dataset, c.microBatch, c.padTokenId, max c.window 1, rank, worldSize,
    ⟨epoch, min (k * c.microBatch) c.count, c.seed⟩, c.order epoch⟩

theorem build_eq {rank worldSize : Nat} (h : rank < worldSize) :
    build c.dataset c.microBatch c.padTokenId c.window rank worldSize c.seed = .ok (c.loader rank worldSize 0 0) := by
  have hnew : ¬(c.dataset.examples = [] ∨ c.microBatch = 0) := by
    rintro (hnil | hzero)
    · exact c.nonempty hnil
    · exact absurd c.microBatch_pos (by omega)
  rw [build, new, if_neg hnew, ok_bind, withShard, if_pos ⟨Nat.zero_lt_of_lt h, h⟩, ok_bind]
  simp only [loader, Nat.zero_mul, Nat.zero_min]
  rfl

/-- Batch `p` of the sequence. -/
def batchAt (p : Nat) : Res Empty SftBatch :=
  if p / c.perEpoch < 2 ^ 64 then
    batchOf c.dataset c.padTokenId (chunk c.microBatch (c.order (p / c.perEpoch)) (p % c.perEpoch))
  else .error .panic

/-- The loader is at place `p` of the sequence: the end of an epoch is the start of the next. -/
def At (rank worldSize p : Nat) (loader : SftLoader) : Prop :=
  ∃ epoch k, loader = c.loader rank worldSize epoch k ∧ epoch < 2 ^ 64 ∧ k ≤ c.perEpoch ∧ epoch * c.perEpoch + k = p

variable {c}

theorem nextGlobal_within {rank worldSize epoch k : Nat} (hk : k < c.perEpoch) :
    (do
      let stop ← addUsize (c.loader rank worldSize epoch k).state.cursor c.microBatch
      let stop := min stop (c.order epoch).length
      let batch ← batchOf c.dataset c.padTokenId
        (((c.order epoch).take stop).drop (c.loader rank worldSize epoch k).state.cursor)
      pure (batch, { c.loader rank worldSize epoch k with state := ⟨epoch, stop, c.seed⟩ })) =
    batchOf c.dataset c.padTokenId (chunk c.microBatch (c.order epoch) k) >>= fun batch =>
      (.ok (batch, c.loader rank worldSize epoch (k + 1)) : Res Empty _) := by
  have hlt : k * c.microBatch < c.count := (lt_divCeil_iff c.microBatch_pos).mp hk
  have hcursor : (c.loader rank worldSize epoch k).state.cursor = k * c.microBatch := Nat.min_eq_left (Nat.le_of_lt hlt)
  have hadd : k * c.microBatch + c.microBatch ≤ usizeMax := by
    have hcount : c.count < 2 ^ 63 := c.dataset.fits
    have hfits := c.microBatch_fits
    have hmax : usizeMax = 2 ^ 64 - 1 := rfl
    cases k with
    | zero => omega
    | succ k =>
      have hle : c.microBatch ≤ (k + 1) * c.microBatch := Nat.le_mul_of_pos_left _ (Nat.succ_pos k)
      omega
  have hslice : ((c.order epoch).take (min (k * c.microBatch + c.microBatch) c.count)).drop (k * c.microBatch) =
      chunk c.microBatch (c.order epoch) k := by
    rw [chunk, List.drop_take]
    rcases Nat.le_total (k * c.microBatch + c.microBatch) c.count with hle | hle
    · rw [Nat.min_eq_left hle, Nat.add_sub_cancel_left]
    · rw [Nat.min_eq_right hle, List.take_of_length_le (by rw [List.length_drop, c.length_order]),
        List.take_of_length_le (by rw [List.length_drop, c.length_order]; omega)]
  rw [hcursor, addUsize, if_pos hadd]
  simp only [pure_bind', loader, Nat.succ_mul, c.length_order, hslice]
  rfl

theorem roll_within {rank worldSize epoch k : Nat} (hk : k < c.perEpoch) :
    (c.loader rank worldSize epoch k).roll = .ok (c.loader rank worldSize epoch k) := by
  have hlt : k * c.microBatch < c.count := (lt_divCeil_iff c.microBatch_pos).mp hk
  have hcursor : ¬(c.loader rank worldSize epoch k).state.cursor ≥ (c.loader rank worldSize epoch k).order.length := by
    have hlen := c.length_order epoch
    simp only [loader]
    omega
  rw [roll, if_neg hcursor]

theorem roll_end {rank worldSize epoch : Nat} :
    (c.loader rank worldSize epoch c.perEpoch).roll =
      if epoch + 1 < 2 ^ 64 then .ok (c.loader rank worldSize (epoch + 1) 0) else .error .panic := by
  have hcursor : (c.loader rank worldSize epoch c.perEpoch).state.cursor ≥
      (c.loader rank worldSize epoch c.perEpoch).order.length := by
    have hle : c.count ≤ c.perEpoch * c.microBatch := (divCeil_le_iff c.microBatch_pos).mp le_rfl
    have hlen := c.length_order epoch
    simp only [loader]
    omega
  rw [roll, if_pos hcursor]
  simp only [loader, Nat.zero_mul, Nat.zero_min]
  rfl

theorem nextGlobal_loader {rank worldSize epoch k : Nat} (hk : k < c.perEpoch) :
    (c.loader rank worldSize epoch k).nextGlobal =
      batchOf c.dataset c.padTokenId (chunk c.microBatch (c.order epoch) k) >>= fun batch =>
        .ok (batch, c.loader rank worldSize epoch (k + 1)) := by
  rw [nextGlobal, roll_within hk, ok_bind]
  exact nextGlobal_within hk

theorem nextGlobal_follows (rank worldSize : Nat) : Follows nextGlobal c.batchAt (c.At rank worldSize) := by
  have hpos := c.perEpoch_pos
  have hstep : ∀ epoch k (loader : SftLoader), k < c.perEpoch → epoch < 2 ^ 64 →
      loader.nextGlobal = (c.loader rank worldSize epoch k).nextGlobal →
      (∀ batch, c.batchAt (epoch * c.perEpoch + k) = .ok batch → ∃ loader', loader.nextGlobal = .ok (batch, loader') ∧
        c.At rank worldSize (epoch * c.perEpoch + k + 1) loader') ∧
      ∀ e, c.batchAt (epoch * c.perEpoch + k) = .error e → loader.nextGlobal = .error e := by
    intro epoch k loader hk hepoch hnext
    have hdiv : (epoch * c.perEpoch + k) / c.perEpoch = epoch := by
      rw [Nat.mul_comm, Nat.mul_add_div hpos, Nat.div_eq_of_lt hk, Nat.add_zero]
    have hmod : (epoch * c.perEpoch + k) % c.perEpoch = k := by
      rw [Nat.mul_comm, Nat.mul_add_mod, Nat.mod_eq_of_lt hk]
    rw [hnext, nextGlobal_loader hk, batchAt, hdiv, hmod, if_pos hepoch]
    constructor
    · intro batch hbatch
      rw [hbatch, ok_bind]
      exact ⟨_, rfl, epoch, k + 1, rfl, hepoch, hk, rfl⟩
    · intro e he
      rw [he, error_bind]
  rintro p loader ⟨epoch, k, rfl, hepoch, hk, rfl⟩
  rcases Nat.lt_or_eq_of_le hk with hk | rfl
  · exact hstep epoch k _ hk hepoch rfl
  · -- The end of an epoch is place zero of the next, if there is one.
    rw [← Nat.succ_mul]
    by_cases hmore : epoch + 1 < 2 ^ 64
    · refine hstep (epoch + 1) 0 _ hpos hmore ?_
      rw [nextGlobal, nextGlobal, roll_end, if_pos hmore, roll_within hpos]
    · have hdiv : (epoch + 1) * c.perEpoch / c.perEpoch = epoch + 1 := Nat.mul_div_cancel _ hpos
      rw [batchAt, Nat.succ_eq_add_one, hdiv, if_neg hmore, nextGlobal, roll_end, if_neg hmore, error_bind]
      refine ⟨nofun, fun e he => ?_⟩
      cases he
      rfl

-- One rank

/-- The batch of a rank out of a round of all ranks. -/
def ofRank (rank : Nat) (round : List SftBatch) : Res Empty SftBatch :=
  match round[rank]? with
  | some batch => .ok batch
  | none => .error .panic

variable (c) in
/-- The round of all ranks at the call `k` of one of them. -/
def roundAt (worldSize k : Nat) : Res Empty (List SftBatch) := (List.range' (k * worldSize) worldSize).mapM c.batchAt

variable (c) in
def rankBatchAt (rank worldSize k : Nat) : Res Empty SftBatch := c.roundAt worldSize k >>= ofRank rank

theorem nextGlobal_rank {loader loader' : SftLoader} {batch : SftBatch} (h : loader.nextGlobal = .ok (batch, loader')) :
    loader'.rank = loader.rank := by
  obtain ⟨rolled, hroll, h⟩ := bind_eq_ok.mp h
  obtain ⟨stop, -, h⟩ := bind_eq_ok.mp h
  obtain ⟨batch', -, h⟩ := bind_eq_ok.mp h
  obtain ⟨-, rfl⟩ := Prod.mk.inj (Except.ok.inj h)
  rw [roll] at hroll
  split at hroll
  · split at hroll
    · exact (Except.ok.inj hroll) ▸ rfl
    · exact nomatch hroll
  · exact (Except.ok.inj hroll) ▸ rfl

theorem nextShards_eq (n shard : Nat) (batch : Option SftBatch) (loader : SftLoader) :
    nextShards n shard batch loader = emit nextGlobal n loader >>= fun r =>
      .ok (if shard ≤ loader.rank then (r.1[loader.rank - shard]?).or batch else batch, r.2) := by
  induction n generalizing shard batch loader with
  | zero => simp [nextShards, emit]
  | succ n ih =>
    rw [nextShards, emit]
    cases hnext : loader.nextGlobal with
    | error e => rfl
    | ok next =>
      rw [ok_bind, ok_bind, ih, nextGlobal_rank hnext, bind_assoc]
      congr 1
      funext r
      rw [ok_bind]
      rcases Nat.lt_trichotomy shard loader.rank with hlt | rfl | hgt
      · obtain ⟨d, hd⟩ := Nat.exists_eq_add_of_lt hlt
        have hsucc : loader.rank - shard = d + 1 := by omega
        have hpred : loader.rank - (shard + 1) = d := by omega
        rw [if_pos (Nat.succ_le_of_lt hlt), if_neg (Nat.ne_of_lt hlt), if_pos (Nat.le_of_lt hlt), hsucc, hpred, List.getElem?_cons_succ]
      · rw [if_neg (Nat.not_succ_le_self _), if_pos rfl, if_pos le_rfl, Nat.sub_self, List.getElem?_cons_zero, Option.some_or]
      · rw [if_neg (by omega), if_neg (by omega), if_neg (by omega)]

theorem nextBatch_eq (loader : SftLoader) :
    loader.nextBatch = emit nextGlobal loader.worldSize loader >>= fun r =>
      ofRank loader.rank r.1 >>= fun batch => .ok (batch, r.2) := by
  rw [nextBatch, nextShards_eq, bind_assoc]
  congr 1
  funext r
  rw [ok_bind, if_pos (Nat.zero_le _), Nat.sub_zero, Option.or_none, ofRank]
  cases r.1[loader.rank]? with
  | none => rfl
  | some batch => rfl

theorem nextBatch_follows (rank worldSize : Nat) :
    Follows nextBatch (c.rankBatchAt rank worldSize) fun k => c.At rank worldSize (k * worldSize) := by
  rintro k loader hat
  have hsettings : loader.rank = rank ∧ loader.worldSize = worldSize := by
    obtain ⟨epoch, j, rfl, -⟩ := hat
    exact ⟨rfl, rfl⟩
  obtain ⟨hok, herr⟩ := (nextGlobal_follows rank worldSize).emit worldSize hat
  rw [nextBatch_eq, hsettings.1, hsettings.2, rankBatchAt]
  cases hround : c.roundAt worldSize k with
  | error e =>
    rw [herr e hround, error_bind]
    refine ⟨nofun, fun e' he => ?_⟩
    cases he
    rfl
  | ok round =>
    obtain ⟨loader', hemit, hat'⟩ := hok round hround
    rw [hemit, ok_bind, ok_bind]
    cases ofRank rank round with
    | error e =>
      refine ⟨nofun, fun e' he => ?_⟩
      cases he
      rfl
    | ok batch =>
      refine ⟨fun batch' hbatch => ⟨loader', by cases hbatch; rfl, ?_⟩, nofun⟩
      rwa [← Nat.succ_mul] at hat'

theorem at_loader (rank worldSize : Nat) : c.At rank worldSize (0 * worldSize) (c.loader rank worldSize 0 0) :=
  ⟨0, 0, rfl, by decide, Nat.zero_le _, by rw [Nat.zero_mul, Nat.zero_mul]⟩

theorem length_roundAt {worldSize k : Nat} {round : List SftBatch} (h : c.roundAt worldSize k = .ok round) :
    round.length = worldSize := by
  rw [← (mapM_ok.mp h).length_eq, List.length_range']

theorem ofRank_round {rank worldSize k : Nat} (hrank : rank < worldSize) {round : List SftBatch}
    (h : c.roundAt worldSize k = .ok round) : ∃ batch, ofRank rank round = .ok batch ∧ round[rank]? = some batch := by
  rw [← length_roundAt h] at hrank
  rw [ofRank, List.getElem?_eq_getElem hrank]
  exact ⟨_, rfl, rfl⟩

theorem mapM_batchAt_rounds (worldSize n : Nat) :
    (List.range (n * worldSize)).mapM c.batchAt = List.flatten <$> (List.range n).mapM (c.roundAt worldSize) := by
  rw [range_mul, mapM_flatMap]
  rfl

theorem rankBatchAt_single (k : Nat) : c.rankBatchAt 0 1 k = c.batchAt k := by
  rw [rankBatchAt, roundAt, Nat.mul_one, List.range'_one, List.mapM_cons, List.mapM_nil]
  cases c.batchAt k with
  | ok batch => rfl
  | error e => rfl

theorem mapM_batchAt_epoch {epoch : Nat} (h : epoch < 2 ^ 64) :
    (List.range' (epoch * c.perEpoch) c.perEpoch).mapM c.batchAt =
      (chunks c.microBatch (c.order epoch)).mapM (batchOf c.dataset c.padTokenId) := by
  rw [chunks, c.length_order, List.mapM_map, List.range'_eq_map_range, List.mapM_map]
  refine mapM_congr fun k hk => ?_
  have hk : k < c.perEpoch := List.mem_range.mp hk
  have hdiv : (epoch * c.perEpoch + k) / c.perEpoch = epoch := by
    rw [Nat.mul_comm, Nat.mul_add_div c.perEpoch_pos, Nat.div_eq_of_lt hk, Nat.add_zero]
  have hmod : (epoch * c.perEpoch + k) % c.perEpoch = k := by
    rw [Nat.mul_comm, Nat.mul_add_mod, Nat.mod_eq_of_lt hk]
  simp only [Function.comp, batchAt, hdiv, hmod, if_pos h]

theorem mapM_batchAt_epochs {epochs : Nat} (h : epochs ≤ 2 ^ 64) :
    (List.range (epochs * c.perEpoch)).mapM c.batchAt =
      ((List.range epochs).flatMap fun epoch => chunks c.microBatch (c.order epoch)).mapM (batchOf c.dataset c.padTokenId) := by
  rw [range_mul, mapM_flatMap, mapM_flatMap]
  congr 1
  refine mapM_congr fun epoch hepoch => mapM_batchAt_epoch ?_
  exact Nat.lt_of_lt_of_le (List.mem_range.mp hepoch) h

theorem mem_chunks {epoch : Nat} {indices : List Nat} (h : indices ∈ chunks c.microBatch (c.order epoch)) :
    ∀ i ∈ indices, i < c.count := by
  intro i hi
  have hmem : i ∈ (chunks c.microBatch (c.order epoch)).flatten := List.mem_flatten.mpr ⟨indices, h, hi⟩
  rw [flatten_chunks c.microBatch_pos] at hmem
  exact List.mem_range.mp ((c.order_perm epoch).mem_iff.mp hmem)

end Settings

/-- The batches of the first `n` calls of a loader with some settings. -/
def stream (dataset : SftDataset) (microBatch : Nat) (padTokenId : Int) (window rank worldSize : Nat) (seed : UInt64) (n : Nat) :
    Res Empty (List SftBatch) := do
  let loader ← build dataset microBatch padTokenId window rank worldSize seed
  Prod.fst <$> loader.batches n

namespace Settings

variable {c : Settings}

theorem stream_eq {rank worldSize : Nat} (h : rank < worldSize) (n : Nat) :
    stream c.dataset c.microBatch c.padTokenId c.window rank worldSize c.seed n =
      (List.range n).mapM (c.rankBatchAt rank worldSize) := by
  rw [stream, c.build_eq h, ok_bind, batches, (nextBatch_follows rank worldSize).values n (at_loader rank worldSize),
    ← List.range_eq_range']

theorem stream_single (n : Nat) :
    stream c.dataset c.microBatch c.padTokenId c.window 0 1 c.seed n = (List.range n).mapM c.batchAt := by
  rw [stream_eq Nat.one_pos, mapM_congr fun k _ => rankBatchAt_single k]

theorem stream_rank {rank worldSize : Nat} (h : rank < worldSize) {n : Nat} {all : List SftBatch}
    (hall : (List.range (n * worldSize)).mapM c.batchAt = .ok all) :
    ∃ own, (List.range n).mapM (c.rankBatchAt rank worldSize) = .ok own ∧ own.length = n ∧
      ∀ k < n, own[k]? = all[k * worldSize + rank]? := by
  rw [mapM_batchAt_rounds] at hall
  cases hrounds : (List.range n).mapM (c.roundAt worldSize) with
  | error e =>
    rw [hrounds] at hall
    exact nomatch hall
  | ok rounds =>
    rw [hrounds] at hall
    obtain rfl := Except.ok.inj hall
    have hown : ∀ k ∈ List.range n, ∃ batch, c.rankBatchAt rank worldSize k = .ok batch := by
      intro k hk
      obtain ⟨round, -, hround⟩ := mapM_mem_of hrounds hk
      obtain ⟨batch, hbatch, -⟩ := ofRank_round h hround
      exact ⟨batch, by rw [rankBatchAt, hround, ok_bind, hbatch]⟩
    obtain ⟨own, hown⟩ := mapM_total hown
    have huniform : ∀ round ∈ rounds, (id round).length = worldSize := by
      intro round hround
      obtain ⟨k, -, hk⟩ := mapM_mem hrounds hround
      exact length_roundAt hk
    refine ⟨own, hown, by rw [← (mapM_ok.mp hown).length_eq, List.length_range], fun k hk => ?_⟩
    have hat : (List.range n)[k]? = some k := by rw [List.getElem?_range hk]
    obtain ⟨round, hk', hround⟩ := mapM_getElem? hrounds hat
    obtain ⟨batch, hbatch, hof⟩ := mapM_getElem? hown hat
    obtain ⟨batch', hof', hin⟩ := ofRank_round h hround
    rw [rankBatchAt, hround, ok_bind, hof'] at hof
    obtain rfl := Except.ok.inj hof
    rw [hbatch, ← List.flatMap_id, getElem?_flatMap_uniform huniform hk' hin]

theorem stream_rank_stops {rank worldSize : Nat} (h : rank < worldSize) {n : Nat} {e : Stop Empty}
    (hall : (List.range (n * worldSize)).mapM c.batchAt = .error e) :
    (List.range n).mapM (c.rankBatchAt rank worldSize) = .error e := by
  rw [mapM_batchAt_rounds] at hall
  generalize List.range n = calls at hall
  induction calls with
  | nil => exact nomatch hall
  | cons k calls ih =>
    rw [List.mapM_cons] at hall ⊢
    cases hround : c.roundAt worldSize k with
    | error e' =>
      rw [hround] at hall
      rw [rankBatchAt, hround, error_bind, error_bind]
      cases hall
      rfl
    | ok round =>
      obtain ⟨batch, hbatch, -⟩ := ofRank_round h hround
      rw [hround, ok_bind] at hall
      rw [rankBatchAt, hround, ok_bind, hbatch, ok_bind, ih ?_, error_bind]
      cases hrest : calls.mapM (c.roundAt worldSize) with
      | error e' =>
        rw [hrest] at hall
        cases hall
        rfl
      | ok rounds =>
        rw [hrest] at hall
        exact nomatch hall

theorem restore_eq {rank worldSize n m : Nat} {seed' : UInt64} {before before' : List SftBatch} {loader other : SftLoader}
    (h : (c.loader rank worldSize 0 0).batches n = .ok (before, loader))
    (hother : ({ c with seed := seed' }.loader rank worldSize 0 0).batches m = .ok (before', other)) :
    other.restore loader.state = loader := by
  obtain ⟨epoch, k, rfl, -⟩ := (nextBatch_follows rank worldSize).reaches (at_loader rank worldSize) h
  obtain ⟨epoch', k', rfl, -⟩ := (nextBatch_follows rank worldSize).reaches (at_loader rank worldSize) hother
  rfl

end Settings

/-- Two examples, dealt to two ranks one at a time. -/
def twoExamples : SftDataset := ⟨[⟨[5, 6, 7], [5, 6, 7], rfl⟩, ⟨[8, 9], [-100, 9], rfl⟩], by decide⟩

end SftLoader

end Ruda.Data
