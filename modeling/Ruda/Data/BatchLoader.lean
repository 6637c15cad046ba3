import Ruda.Data.ViewsAgree
import Ruda.Lib.Gather

/-!
# Batches of a dataset

A translation of the iterator of `dataloader/batch.rs`, of the fixed strategy of
`dataloader/strategy.rs` and of the shuffled datasets of `transform/{selection,shuffle}.rs`, and
what an iterator over a dataset gives: the items in their order, cut into batches.
-/

namespace Ruda.Data

variable {R S I O : Type}

-- Shuffled datasets

/-- The generator of a loader. `fork` gives a generator of its own and what is left. -/
structure LoaderRng (R S : Type) where
  fromSeed : S → R
  seedFromU64 : Nat → R
  sample : R → Nat × R
  fork : R → R × R
  shuffle : R → List Nat → List Nat
  shuffle_perm : ∀ rng l, (shuffle rng l).Perm l

/-- A dataset that selects a subset of indices from an existing dataset. -/
structure SelectionDataset (I : Type) where
  wrapped : Dataset I
  indices : List Nat

namespace SelectionDataset

variable (s : SelectionDataset I)

def get (index : Nat) : Checked (Option I) :=
  match s.indices[index]? with
  | none => pure none
  | some index => s.wrapped.get index

def getTranslated (indices : List Nat) : Checked (Option (List I)) :=
  match indices.mapM fun index => s.indices[index]? with
  | none => pure none
  | some translated => s.wrapped.getMany translated

/-- Indices that follow one another are read as a slice. -/
def getMany : List Nat → Checked (Option (List I))
  | [] => pure (some [])
  | start :: rest =>
    match checkedAdd start (rest.length + 1) with
    | none => s.getTranslated (start :: rest)
    | some stop =>
      if stop ≤ s.indices.length ∧ start :: rest = List.range' start (stop - start) then
        s.wrapped.getMany ((s.indices.drop start).take (stop - start))
      else s.getTranslated (start :: rest)

def toDataset : Dataset I where
  get := s.get
  getMany := s.getMany
  len := pure s.indices.length

/-- `ShuffledDataset::new` with a generator that is forked, and what is left of it. -/
def newShuffled (gen : LoaderRng R S) (dataset : Dataset I) (rng : R) : Checked (SelectionDataset I × R) := do
  let (child, rng) := gen.fork rng
  pure (⟨dataset, gen.shuffle child (List.range (← dataset.len))⟩, rng)

end SelectionDataset

-- The iterator

/-- A strategy to batch items with a fixed batch size. -/
structure FixBatchStrategy (I : Type) where
  items : List I
  batchSize : Nat

namespace FixBatchStrategy

def new (batchSize : Nat) : FixBatchStrategy I := ⟨[], batchSize⟩

def add (s : FixBatchStrategy I) (item : I) : FixBatchStrategy I := { s with items := s.items ++ [item] }

def batch (s : FixBatchStrategy I) (force : Bool) : Option (List I) × FixBatchStrategy I :=
  if s.items.isEmpty ∨ s.items.length < s.batchSize ∧ force = false then (none, s) else (some s.items, { s with items := [] })

end FixBatchStrategy

structure Progress where
  itemsProcessed : Nat
  itemsTotal : Nat
  deriving DecidableEq

/-- The part of an iterator that reads items. -/
structure ItemReader (I : Type) where
  currentIndex : Nat
  dataset : Dataset I
  batchReading : Bool
  pending : List I

def ItemReader.nextItem (r : ItemReader I) (batchSize : Nat) : Checked (Option I × ItemReader I) :=
  if r.batchReading = false then do pure (← r.dataset.get r.currentIndex, r)
  else
    match r.pending with
    | item :: pending => pure (some item, { r with pending })
    | [] => do
      let len ← r.dataset.len
      if r.currentIndex ≥ len then pure (none, r)
      else
        let count := min (max batchSize 1) (len - r.currentIndex)
        match ← r.dataset.getMany (List.range' r.currentIndex count) with
        | none => throw .panic
        | some items => if items.length ≠ count then throw .panic else pure (items.head?, { r with pending := items.tail })

theorem FixBatchStrategy.batch_none {s s' : FixBatchStrategy I} {item : I} (h : (s.add item).batch false = (none, s')) :
    s' = s.add item ∧ s'.items.length = s.items.length + 1 ∧ s.items.length + 1 < s.batchSize := by
  rw [batch] at h
  have hempty : (s.add item).items.isEmpty = false := by simp [add]
  have hlen : (s.add item).items.length = s.items.length + 1 := by simp [add]
  split at h
  · next hfew =>
    obtain ⟨-, rfl⟩ := Prod.mk.inj h
    rw [hempty, hlen] at hfew
    simp only [Bool.false_eq_true, and_true, false_or] at hfew
    exact ⟨rfl, hlen, hfew⟩
  · cases h

/-- Items are added until they are a batch, or until there are no more. -/
def nextBatch (r : ItemReader I) (strategy : FixBatchStrategy I) : Checked (Option (List I) × ItemReader I × FixBatchStrategy I) :=
  match r.nextItem strategy.batchSize with
  | .error e => .error e
  | .ok (none, r) => .ok ((strategy.batch true).1, r, (strategy.batch true).2)
  | .ok (some item, r) =>
    match _hbatch : (strategy.add item).batch false with
    | (some items, strategy) => .ok (some items, { r with currentIndex := r.currentIndex + 1 }, strategy)
    | (none, strategy) => nextBatch { r with currentIndex := r.currentIndex + 1 } strategy
  termination_by strategy.batchSize - strategy.items.length
  decreasing_by
    obtain ⟨rfl, hlen, hlt⟩ := FixBatchStrategy.batch_none _hbatch
    rw [hlen]
    change strategy.batchSize - _ < _
    omega

structure BatchDataloaderIterator (I : Type) where
  reader : ItemReader I
  strategy : FixBatchStrategy I

namespace BatchDataloaderIterator

def new (dataset : Dataset I) (batchSize : Nat) (batchReading : Bool) : BatchDataloaderIterator I where
  reader := { currentIndex := 0, dataset, batchReading, pending := [] }
  strategy := .new batchSize

/-- The next batch, what the batcher makes of it, and what is left. -/
def next (batch : List I → O) (it : BatchDataloaderIterator I) : Checked (Option (O × BatchDataloaderIterator I)) := do
  let (items, reader, strategy) ← nextBatch it.reader it.strategy
  pure (items.map fun items => (batch items, { reader, strategy }))

def progress (it : BatchDataloaderIterator I) : Checked Progress := do
  pure { itemsProcessed := it.reader.currentIndex, itemsTotal := ← it.reader.dataset.len }

end BatchDataloaderIterator

/-- A data loader that can be used to iterate over a dataset in batches. -/
structure BatchDataLoader (R I : Type) where
  batchSize : Nat
  dataset : Dataset I
  rng : Option R
  batchReading : Bool

/-- A new iterator, over a new shuffle where the loader has a generator, and what is left of this. -/
def BatchDataLoader.iter (gen : LoaderRng R S) (l : BatchDataLoader R I) : Checked (BatchDataloaderIterator I × Option R) :=
  match l.rng with
  | none => pure (.new l.dataset l.batchSize l.batchReading, none)
  | some rng => do
    let (shuffled, rng) ← SelectionDataset.newShuffled gen l.dataset rng
    pure (.new shuffled.toDataset l.batchSize l.batchReading, some rng)

-- What a dataset holds

/-- The dataset gives these items up to its length, one by one or several at once. -/
structure Holds (d : Dataset I) (items : List I) : Prop where
  len : d.len = .ok items.length
  fits : items.length ≤ usizeMax
  get : ∀ i ≤ items.length, d.get i = .ok items[i]?
  getMany : ∀ indices, (∀ i ∈ indices, i < items.length) → d.getMany indices = .ok (indices.mapM fun i => items[i]?)

theorem mapM_getElem?_filterMap {items : List I} {indices : List Nat} (h : ∀ i ∈ indices, i < items.length) :
    (indices.mapM fun i => items[i]?) = some (indices.filterMap fun i => items[i]?) := by
  induction indices with
  | nil => rfl
  | cons i indices ih =>
    obtain ⟨hi, hrest⟩ := List.forall_mem_cons.mp h
    have hget : items[i]? = some items[i] := List.getElem?_eq_getElem hi
    rw [List.mapM_cons, ih hrest, List.filterMap_cons, hget]
    rfl

theorem filterMap_range (items : List I) : ((List.range items.length).filterMap fun i => items[i]?) = items := by
  induction items using List.reverseRecOn with
  | nil => rfl
  | append_singleton items item ih =>
    rw [List.length_append, List.length_singleton, List.range_succ, List.filterMap_append]
    congr 1
    · conv => rhs; rw [← ih]
      refine List.filterMap_congr fun i hi => ?_
      rw [List.getElem?_append_left (List.mem_range.mp hi)]
    · simp

theorem Holds.fraction {p : PartialDataset I} {items : List I} (h : Holds p.dataset items) (hle : p.startIndex ≤ p.endIndex)
    (hend : p.endIndex ≤ items.length) : Holds p.toDataset (between items p.startIndex p.endIndex) := by
  have hfits := h.fits
  have hlength : (between items p.startIndex p.endIndex).length = p.endIndex - p.startIndex := length_between hend
  have hadd (i : Nat) (hi : i ≤ p.endIndex - p.startIndex) : (addUsize i p.startIndex : Checked Nat) = .ok (i + p.startIndex) :=
    if_pos (by omega)
  refine ⟨?_, by omega, ?_, ?_⟩
  · change (subUsize p.endIndex p.startIndex >>= fun a => p.dataset.len >>= fun b => pure (min a b)) = _
    rw [subUsize_ok hle, h.len, hlength]
    exact congrArg Except.ok (by omega)
  · intro i hi
    change p.get i = _
    rw [PartialDataset.get, hadd i (by omega), ok_bind, getElem?_between]
    by_cases hlt : i + p.startIndex < p.endIndex
    · rw [if_neg (by omega), if_pos hlt]
      exact h.get _ (by omega)
    · rw [if_pos (by omega), if_neg hlt]
      rfl
  · intro indices hindices
    rw [hlength] at hindices
    have hitem : ∀ i ∈ indices, (between items p.startIndex p.endIndex)[i]? = items[i + p.startIndex]? := by
      intro i hi
      have := hindices i hi
      rw [getElem?_between, if_pos (by omega)]
    rw [option_mapM_congr hitem]
    change p.getMany indices = _
    rw [PartialDataset.getMany]
    by_cases hnil : indices = []
    · subst hnil
      rfl
    · rw [if_neg hnil]
      by_cases hstart : p.startIndex = 0
      · have hany : ¬(indices.any fun i => i ≥ p.endIndex) = true := by
          rw [List.any_eq_true]
          rintro ⟨i, hi, hge⟩
          have := hindices i hi
          have := of_decide_eq_true hge
          omega
        rw [if_pos hstart, if_neg hany, hstart]
        refine h.getMany indices fun i hi => ?_
        have := hindices i hi
        omega
      · have htranslate : collect p.translate indices = .ok (indices.mapM fun i => some (i + p.startIndex)) := by
          refine collect_eq fun pre i post hsplit _ => ?_
          have hi := hindices i (hsplit ▸ List.mem_append_right _ List.mem_cons_self)
          rw [PartialDataset.translate, hadd i hi.le, ok_bind]
          exact congrArg Except.ok (if_pos (by omega))
        have hall : (indices.mapM fun i => some (i + p.startIndex)) = some (indices.map (· + p.startIndex)) := by
          refine option_mapM_eq.mpr ?_
          rw [List.forall₂_map_right_iff, List.forall₂_same]
          exact fun _ _ => rfl
        have hboth := option_mapM_bind (fun i => some (i + p.startIndex)) (fun k => items[k]?) indices
        rw [hall] at hboth
        rw [if_neg hstart, htranslate, hall, ok_bind]
        dsimp only
        rw [h.getMany]
        · exact congrArg Except.ok hboth
        · intro k hk
          obtain ⟨i, hi, rfl⟩ := List.mem_map.mp hk
          have := hindices i hi
          omega

theorem getElem?_lookups {items l' : List I} {l : List Nat} (h : List.Forall₂ (fun i y => items[i]? = some y) l l') (k : Nat) :
    l'[k]? = l[k]?.bind fun i => items[i]? := by
  induction h generalizing k with
  | nil => rfl
  | cons hxy _ ih =>
    cases k with
    | zero => exact hxy.symm
    | succ k => exact ih k

namespace SelectionDataset

variable {s : SelectionDataset I} {items : List I}

theorem getTranslated_eq (h : Holds s.wrapped items) (hlt : ∀ i ∈ s.indices, i < items.length) {indices : List Nat}
    (hindices : ∀ i ∈ indices, i < s.indices.length) :
    s.getTranslated indices = .ok (indices.mapM fun i => s.indices[i]?.bind fun k => items[k]?) := by
  have htranslated := mapM_getElem?_filterMap hindices
  have hboth := option_mapM_bind (fun i => s.indices[i]?) (fun k => items[k]?) indices
  rw [htranslated] at hboth
  rw [getTranslated, htranslated, ← hboth]
  refine h.getMany _ fun k hk => ?_
  obtain ⟨i, -, hi⟩ := List.mem_filterMap.mp hk
  exact hlt k (List.mem_of_getElem? hi)

theorem getMany_eq (h : Holds s.wrapped items) (hlt : ∀ i ∈ s.indices, i < items.length) {indices : List Nat}
    (hindices : ∀ i ∈ indices, i < s.indices.length) :
    s.getMany indices = .ok (indices.mapM fun i => s.indices[i]?.bind fun k => items[k]?) := by
  cases indices with
  | nil => rfl
  | cons start rest =>
    have htranslated := getTranslated_eq h hlt hindices
    rw [getMany]
    split
    · exact htranslated
    · next stop hstop =>
      split
      · next hrange =>
        obtain ⟨-, rfl⟩ := checkedAdd_eq_some.mp hstop
        have hslice : (start :: rest).mapM (fun i => s.indices[i]?) =
            some ((s.indices.drop start).take (start + (rest.length + 1) - start)) := by
          rw [hrange.2, Nat.add_sub_cancel_left, mapM_range']
          exact if_pos (.inr hrange.1)
        rw [← htranslated, getTranslated, hslice]
      · exact htranslated

end SelectionDataset

theorem Holds.selection {s : SelectionDataset I} {items : List I} (h : Holds s.wrapped items)
    (hperm : s.indices.Perm (List.range items.length)) : ∃ order, order.Perm items ∧ Holds s.toDataset order := by
  have hlt : ∀ i ∈ s.indices, i < items.length := fun i hi => List.mem_range.mp (hperm.subset hi)
  have hperm' := hperm.filterMap fun i => items[i]?
  rw [filterMap_range] at hperm'
  have hforall := option_mapM_eq.mp (mapM_getElem?_filterMap hlt)
  have hitem := getElem?_lookups hforall
  have hlen : s.indices.length = items.length := by rw [hperm.length_eq, List.length_range]
  refine ⟨s.indices.filterMap fun i => items[i]?, hperm', ?_, ?_, ?_, ?_⟩
  · exact congrArg Except.ok hforall.length_eq
  · exact hperm'.length_eq ▸ h.fits
  · intro i _
    change s.get i = _
    rw [hitem, SelectionDataset.get]
    cases hi : s.indices[i]? with
    | none => rfl
    | some k => exact h.get k (hlt k (List.mem_of_getElem? hi)).le
  · intro indices hindices
    simp only [hitem]
    refine SelectionDataset.getMany_eq h hlt fun i hi => ?_
    rw [hlen, ← hperm'.length_eq]
    exact hindices i hi

theorem Holds.shuffled {gen : LoaderRng R S} {d : Dataset I} {items : List I} (h : Holds d items) (rng : R) :
    ∃ shuffled rng' order, SelectionDataset.newShuffled gen d rng = .ok (shuffled, rng') ∧ order.Perm items ∧
      Holds shuffled.toDataset order := by
  obtain ⟨order, hperm, horder⟩ := Holds.selection
    (s := ⟨d, gen.shuffle (gen.fork rng).1 (List.range items.length)⟩) h (gen.shuffle_perm _ _)
  refine ⟨⟨d, gen.shuffle (gen.fork rng).1 (List.range items.length)⟩, (gen.fork rng).2, order, ?_, hperm, horder⟩
  rw [SelectionDataset.newShuffled, h.len]
  rfl

-- What an iterator gives

/-- The reader is at this place of the items, with some of the next ones read. -/
structure ItemReader.At (items : List I) (place : Nat) (r : ItemReader I) : Prop where
  index : r.currentIndex = place
  holds : Holds r.dataset items
  pending : r.pending <+: items.drop place
  single : r.batchReading = false → r.pending = []

namespace ItemReader

variable {r : ItemReader I} {items : List I} {place : Nat}

theorem nextItem_end (h : r.At items items.length) (batchSize : Nat) : r.nextItem batchSize = .ok (none, r) := by
  have hget := h.holds.get items.length le_rfl
  have hpending : r.pending = [] := by
    have := h.pending
    rwa [List.drop_length, List.prefix_nil] at this
  rw [nextItem]
  split
  · rw [h.index, hget, List.getElem?_eq_none le_rfl]
    rfl
  · rw [hpending]
    dsimp only
    rw [h.holds.len, ok_bind, if_pos h.index.ge]
    rfl

theorem nextItem_some {item : I} (hitem : items[place]? = some item) (h : r.At items place) (batchSize : Nat) :
    ∃ r', r.nextItem batchSize = .ok (some item, r') ∧ ({ r' with currentIndex := r'.currentIndex + 1 } : ItemReader I).At items (place + 1) := by
  obtain ⟨hlt, rfl⟩ := List.getElem?_eq_some_iff.mp hitem
  have hdrop : items.drop place = items[place] :: items.drop (place + 1) := List.drop_eq_getElem_cons hlt
  obtain ⟨index, dataset, batchReading, pending⟩ := r
  obtain ⟨hindex, hholds, hpending, hsingle⟩ := h
  obtain rfl : index = place := hindex
  change Holds dataset items at hholds
  change pending <+: items.drop index at hpending
  change batchReading = false → pending = [] at hsingle
  rw [nextItem]
  split
  · next hone =>
    obtain rfl := hsingle hone
    rw [hholds.get _ hlt.le, hitem]
    exact ⟨_, rfl, rfl, hholds, List.nil_prefix, fun _ => rfl⟩
  · next hmany =>
    cases pending with
    | cons item' pending =>
      rw [hdrop, List.cons_prefix_cons] at hpending
      obtain ⟨rfl, hpending⟩ := hpending
      exact ⟨_, rfl, rfl, hholds, hpending, fun hone => absurd hone hmany⟩
    | nil =>
      have hcount : 0 < min (max batchSize 1) (items.length - index) := by omega
      generalize hn : min (max batchSize 1) (items.length - index) = count at hcount
      have hread : dataset.getMany (List.range' index count) = .ok (some ((items.drop index).take count)) := by
        rw [hholds.getMany, mapM_range', if_pos (by omega)]
        intro i hi
        have := List.mem_range'_1.mp hi
        omega
      have hlen : ((items.drop index).take count).length = count := by
        rw [List.length_take, List.length_drop]
        omega
      obtain ⟨k, rfl⟩ := Nat.exists_eq_succ_of_ne_zero hcount.ne'
      dsimp only
      rw [hholds.len, ok_bind, if_neg (by omega)]
      rw [hn, hread, ok_bind]
      dsimp only
      rw [if_neg (not_not.mpr hlen), hdrop, List.take_succ_cons]
      exact ⟨_, rfl, rfl, hholds, List.take_prefix _ _, fun hone => absurd hone hmany⟩

end ItemReader

variable {r : ItemReader I} {items : List I} {place : Nat}

theorem FixBatchStrategy.batch_true (s : FixBatchStrategy I) :
    s.batch true = (if s.items.isEmpty then none else some s.items, { s with items := [] }) := by
  obtain ⟨items, batchSize⟩ := s
  cases items with
  | nil => rfl
  | cons item items => simp [batch]

theorem FixBatchStrategy.batch_full {s : FixBatchStrategy I} {item : I} (hfull : s.items.length + 1 = s.batchSize) :
    (s.add item).batch false = (some (s.items ++ [item]), { s with items := [] }) := by
  have hlen : (s.add item).items.length = s.batchSize := by simp [add, hfull]
  have hempty : (s.add item).items.isEmpty = false := by simp [add]
  rw [batch, if_neg]
  · rfl
  · rw [hlen, hempty]
    simp [add]

theorem FixBatchStrategy.batch_few {s : FixBatchStrategy I} {item : I} (hfew : s.items.length + 1 < s.batchSize) :
    (s.add item).batch false = (none, s.add item) := by
  rw [batch, if_pos]
  exact .inr ⟨by simpa [add] using hfew, rfl⟩

/-- The next batch holds what the strategy has, and the next items as far as they go. -/
theorem nextBatch_spec {strategy : FixBatchStrategy I} (hfew : strategy.items.length < strategy.batchSize)
    (h : r.At items place) (hplace : place ≤ items.length) :
    ∃ r', r'.At items (min (place + (strategy.batchSize - strategy.items.length)) items.length) ∧
      nextBatch r strategy = .ok
        (if (strategy.items ++ items.drop place).isEmpty then none
          else some (strategy.items ++ (items.drop place).take (strategy.batchSize - strategy.items.length)),
          r', { strategy with items := [] }) := by
  generalize hroom : strategy.batchSize - strategy.items.length = room
  induction room generalizing r strategy place with
  | zero => omega
  | succ room ih =>
    rw [nextBatch]
    by_cases hend : place = items.length
    · -- no item is left, and the strategy gives what it has
      subst hend
      rw [ItemReader.nextItem_end h]
      refine ⟨r, ?_, ?_⟩
      · rwa [min_eq_right (Nat.le_add_right _ _)]
      · dsimp only
        rw [FixBatchStrategy.batch_true, List.drop_length, List.append_nil, List.take_nil, List.append_nil]
    · have hlt : place < items.length := by omega
      have hdrop : items.drop place = items[place] :: items.drop (place + 1) := List.drop_eq_getElem_cons hlt
      obtain ⟨r₁, hnext, h₁⟩ := ItemReader.nextItem_some (List.getElem?_eq_getElem hlt) h strategy.batchSize
      have hnonempty : ¬(strategy.items ++ items.drop place).isEmpty = true := by
        rw [hdrop, List.isEmpty_iff]
        exact List.append_ne_nil_of_right_ne_nil _ (List.cons_ne_nil _ _)
      have htake : strategy.items ++ (items.drop place).take (room + 1) =
          strategy.items ++ [items[place]] ++ (items.drop (place + 1)).take room := by
        rw [hdrop, List.take_succ_cons, List.append_assoc, List.singleton_append]
      rw [hnext, if_neg hnonempty, htake]
      dsimp only
      generalize ({ r₁ with currentIndex := r₁.currentIndex + 1 } : ItemReader I) = r₂ at h₁
      by_cases hfull : strategy.items.length + 1 = strategy.batchSize
      · obtain rfl : room = 0 := by omega
        refine ⟨r₂, ?_, ?_⟩
        · rwa [min_eq_left (by omega)]
        · split
          · next items' strategy' hbatch =>
            rw [FixBatchStrategy.batch_full hfull] at hbatch
            cases hbatch
            rw [List.take_zero, List.append_nil]
          · next strategy' hbatch =>
            rw [FixBatchStrategy.batch_full hfull] at hbatch
            cases hbatch
      · split
        · next items' strategy' hbatch =>
          rw [FixBatchStrategy.batch_few (by omega)] at hbatch
          cases hbatch
        · next strategy' hbatch =>
          rw [FixBatchStrategy.batch_few (by omega)] at hbatch
          cases hbatch
          have hlen : (strategy.add items[place]).items.length = strategy.items.length + 1 := by simp [FixBatchStrategy.add]
          have hsize : (strategy.add items[place]).batchSize = strategy.batchSize := rfl
          have hfew' : (strategy.add items[place]).items.length < (strategy.add items[place]).batchSize := by omega
          obtain ⟨r₃, hat, hrest⟩ := ih hfew' h₁ hlt (by omega)
          have hmore : ¬((strategy.add items[place]).items ++ items.drop (place + 1)).isEmpty = true := by
            rw [List.isEmpty_iff]
            exact List.append_ne_nil_of_left_ne_nil (List.ne_nil_of_length_pos (by omega)) _
          rw [if_neg hmore] at hrest
          refine ⟨r₃, ?_, hrest⟩
          rwa [show place + (room + 1) = place + 1 + room by omega]

namespace BatchDataloaderIterator

/-- The iterator is at this place of the items, between two batches of this size. -/
structure At (items : List I) (batchSize place : Nat) (it : BatchDataloaderIterator I) : Prop where
  reader : it.reader.At items place
  strategy : it.strategy = .new batchSize
  le : place ≤ items.length

variable {it : BatchDataloaderIterator I} {batchSize : Nat} {batch : List I → O}

theorem at_new {d : Dataset I} (h : Holds d items) (batchSize : Nat) (batchReading : Bool) :
    (new d batchSize batchReading).At items batchSize 0 :=
  ⟨⟨rfl, h, List.nil_prefix, fun _ => rfl⟩, rfl, Nat.zero_le _⟩

theorem next_end (hbatch : 1 ≤ batchSize) (h : it.At items batchSize items.length) : it.next batch = .ok none := by
  have hfew : it.strategy.items.length < it.strategy.batchSize := by
    rw [h.strategy]
    exact hbatch
  obtain ⟨r', -, hnext⟩ := nextBatch_spec hfew h.reader le_rfl
  rw [next, hnext, h.strategy, List.drop_length]
  rfl

theorem next_some (hbatch : 1 ≤ batchSize) (h : it.At items batchSize place) (hlt : place < items.length) :
    ∃ it', it.next batch = .ok (some (batch ((items.drop place).take batchSize), it')) ∧
      it'.At items batchSize (min (place + batchSize) items.length) := by
  have hfew : it.strategy.items.length < it.strategy.batchSize := by
    rw [h.strategy]
    exact hbatch
  have hsome : ¬(items.drop place).isEmpty = true := by
    rw [List.isEmpty_iff, List.drop_eq_nil_iff]
    omega
  obtain ⟨r', hat, hnext⟩ := nextBatch_spec hfew h.reader h.le
  rw [h.strategy] at hnext hat
  rw [next, h.strategy, hnext]
  simp only [FixBatchStrategy.new, List.nil_append, hsome, List.length_nil, Nat.sub_zero] at hat ⊢
  exact ⟨⟨r', .new batchSize⟩, rfl, hat, rfl, min_le_right _ _⟩

theorem progress_eq (h : it.At items batchSize place) : it.progress = .ok ⟨place, items.length⟩ := by
  rw [progress, h.reader.holds.len, h.reader.index]
  rfl

theorem emits (hbatch : 1 ≤ batchSize) {place : Nat} {it : BatchDataloaderIterator I} (h : it.At items batchSize place) :
    Emits (next batch) it ((chunks batchSize (items.drop place)).map batch) := by
  by_cases hend : place = items.length
  · subst hend
    rw [List.drop_length, chunks_nil hbatch]
    exact .done (next_end hbatch h)
  · have hle := h.le
    have hlt : place < items.length := by omega
    obtain ⟨it', hnext, hat⟩ := next_some hbatch h hlt
    have hne : items.drop place ≠ [] := by
      rw [ne_eq, List.drop_eq_nil_iff]
      omega
    have hrest : (items.drop place).drop batchSize = items.drop (min (place + batchSize) items.length) := by
      rw [List.drop_drop]
      rcases Nat.le_total (place + batchSize) items.length with hcase | hcase
      · rw [min_eq_left hcase]
      · rw [min_eq_right hcase, List.drop_length, List.drop_eq_nil_of_le hcase]
    rw [chunks_cons hbatch hne, List.map_cons, hrest]
    exact .more hnext (emits hbatch hat)
termination_by items.length - place
decreasing_by omega

end BatchDataloaderIterator

-- Loaders of nested views

theorem Lists.holds {d : Dataset I} {items : List I} (h : Lists d items) : Holds d items where
  len := h.len
  fits := h.small.le.trans (by decide)
  get i hi := h.get i (hi.trans h.small.le)
  getMany indices hindices := h.getMany indices (readable_of_le fun i hi => (hindices i hi).le.trans h.small.le)

end Ruda.Data
