import Ruda.Lib.Bisect
import Ruda.Lib.Chunks

/-!
# Dataset views

A translation of the trait of `dataset/base.rs`, of `transform/composed.rs` and
`transform/partial.rs`, and of the datasets of `transform/window.rs`. A read can panic where an
index leaves the range of its type.
-/

namespace Ruda.Data

variable {A B I : Type}

/-- A call without an error of its own. -/
abbrev Checked (α : Type) := Res Empty α

structure Dataset (I : Type) where
  get : Nat → Checked (Option I)
  getMany : List Nat → Checked (Option (List I))
  len : Checked Nat

/-- `collect::<Option<Vec<_>>>()`, which stops at the first item that is absent. -/
def collect (f : A → Checked (Option B)) : List A → Checked (Option (List B))
  | [] => pure (some [])
  | x :: xs => do
    match ← f x with
    | none => pure none
    | some y =>
      match ← collect f xs with
      | none => pure none
      | some ys => pure (some (y :: ys))

/-- A source whose `get_many` is the one of the trait. -/
def Dataset.ofGet (len : Nat) (get : Nat → Option I) : Dataset I where
  get index := pure (get index)
  getMany indices := collect (fun index => pure (get index)) indices
  len := pure len

-- Composed datasets

/-- Compose multiple datasets together to create a bigger one. -/
structure ComposedDataset (I : Type) where
  datasets : List (Dataset I)

namespace ComposedDataset

def getFrom (index : Nat) : (currentIndex : Nat) → List (Dataset I) → Checked (Option I)
  | _, [] => pure none
  | currentIndex, dataset :: datasets => do
    if index < (← addUsize (← dataset.len) currentIndex) then dataset.get (← subUsize index currentIndex)
    else getFrom index (← addUsize currentIndex (← dataset.len)) datasets

def lenFrom : (total : Nat) → List (Dataset I) → Checked Nat
  | total, [] => pure total
  | total, dataset :: datasets => do lenFrom (← addUsize total (← dataset.len)) datasets

/-- The ends of the datasets, one after the other. -/
def endsFrom : (offset : Nat) → List (Dataset I) → Checked (List Nat)
  | _, [] => pure []
  | offset, dataset :: datasets => do
    let stop ← addUsize offset (← dataset.len)
    pure (stop :: (← endsFrom stop datasets))

/-- `partition_point` -/
def partitionPoint (ends : List Nat) (index : Nat) : Nat := bisect (fun k => ends.getD k 0 ≤ index) ends.length

def offsetOf (ends : List Nat) (dataset : Nat) : Nat := if dataset = 0 then 0 else ends.getD (dataset - 1) 0

def translate (offset : Nat) (indices : List Nat) : Checked (List Nat) :=
  if offset = 0 then pure indices else indices.mapM fun index => subUsize index offset

/-- Consecutive indices of one dataset are read at once. -/
def readGroups (datasets : List (Dataset I)) (ends : List Nat) : List Nat → Checked (Option (List I))
  | [] => pure (some [])
  | start :: rest => do
    match datasets[partitionPoint ends start]?, ends[partitionPoint ends start]? with
    | some dataset, some stop =>
      let offset := offsetOf ends (partitionPoint ends start)
      let translated ← translate offset (start :: rest.takeWhile fun index => offset ≤ index ∧ index < stop)
      match ← dataset.getMany translated with
      | none => pure none
      | some batch =>
        if batch.length ≠ translated.length then pure none
        else
          match ← readGroups datasets ends (rest.dropWhile fun index => offset ≤ index ∧ index < stop) with
          | none => pure none
          | some items => pure (some (batch ++ items))
    | _, _ => throw .panic
  termination_by indices => indices.length
  decreasing_by exact Nat.lt_succ_of_le (List.dropWhile_sublist _).length_le

def getMany (datasets : List (Dataset I)) (indices : List Nat) : Checked (Option (List I)) := do
  if indices = [] then pure (some [])
  else
    let ends ← endsFrom 0 datasets
    if indices.any fun index => index ≥ ends.getLastD 0 then pure none else readGroups datasets ends indices

def toDataset (c : ComposedDataset I) : Dataset I where
  get := fun index => getFrom index 0 c.datasets
  getMany := getMany c.datasets
  len := lenFrom 0 c.datasets

end ComposedDataset

-- Fractions of a dataset

/-- Only use a fraction of an existing dataset lazily. -/
structure PartialDataset (I : Type) where
  dataset : Dataset I
  startIndex : Nat
  endIndex : Nat

namespace PartialDataset

def get (p : PartialDataset I) (index : Nat) : Checked (Option I) := do
  let index ← addUsize index p.startIndex
  if index < p.startIndex ∨ index ≥ p.endIndex then pure none else p.dataset.get index

def translate (p : PartialDataset I) (index : Nat) : Checked (Option Nat) := do
  let index ← addUsize index p.startIndex
  pure (if index ≥ p.startIndex ∧ index < p.endIndex then some index else none)

def getMany (p : PartialDataset I) (indices : List Nat) : Checked (Option (List I)) := do
  if indices = [] then pure (some [])
  else if p.startIndex = 0 then
    if indices.any fun index => index ≥ p.endIndex then pure none else p.dataset.getMany indices
  else
    match ← collect p.translate indices with
    | none => pure none
    | some translated => p.dataset.getMany translated

def toDataset (p : PartialDataset I) : Dataset I where
  get := p.get
  getMany := p.getMany
  len := do pure (min (← subUsize p.endIndex p.startIndex) (← p.dataset.len))

def splitStep (dataset : Dataset I) (num batchSize len : Nat) (s : Nat × List (PartialDataset I)) (i : Nat) :
    Checked (Nat × List (PartialDataset I)) := do
  let start := s.1
  let stop ← addUsize s.1 batchSize
  let stop := if i = num - 1 then len else stop
  pure (← addUsize s.1 batchSize, s.2 ++ [⟨dataset, start, stop⟩])

/-- Splits a dataset into multiple partial datasets. -/
def split (dataset : Dataset I) (num : Nat) : Checked (List (PartialDataset I)) := do
  let len ← dataset.len
  if num = 0 then throw .panic
  else pure (← (List.range num).foldlM (splitStep dataset num (len / num) len) (0, [])).2

/-- Extra batches are distributed across the first splits. -/
def splitBatches (batchesPerSplit extraBatches i : Nat) : Checked Nat :=
  if i < extraBatches then addUsize batchesPerSplit 1 else pure batchesPerSplit

def chunksStep (dataset : Dataset I) (batchesPerSplit extraBatches batchSize totalItems : Nat)
    (s : Nat × List (PartialDataset I)) (i : Nat) : Checked (Nat × List (PartialDataset I)) := do
  let endBatch ← addUsize s.1 (← splitBatches batchesPerSplit extraBatches i)
  let startIndex ← mulUsize s.1 batchSize
  let endIndex := min (← mulUsize endBatch batchSize) totalItems
  pure (endBatch, if startIndex < totalItems then s.2 ++ [⟨dataset, startIndex, endIndex⟩] else s.2)

/-- Splits a dataset by distributing complete chunks across multiple partial datasets. -/
def splitChunks (dataset : Dataset I) (num batchSize : Nat) : Checked (List (PartialDataset I)) := do
  let totalItems ← dataset.len
  if batchSize = 0 ∨ num = 0 then throw .panic
  else
    let totalBatches := divCeil totalItems batchSize
    pure (← (List.range num).foldlM
      (chunksStep dataset (totalBatches / num) (totalBatches % num) batchSize totalItems) (0, [])).2

end PartialDataset

-- Windows

/-- Dataset designed to work with overlapping windows of data. -/
structure WindowsDataset (I : Type) where
  size : Nat
  nonZero : 0 < size
  dataset : Dataset I

namespace WindowsDataset

/-- `current..current + size` -/
def range (w : WindowsDataset I) (current : Nat) : Checked (List Nat) := do
  let stop ← addUsize current w.size
  pure (List.range' current (stop - current))

def window (w : WindowsDataset I) (current : Nat) : Checked (Option (List I)) := do
  collect w.dataset.get (← w.range current)

def readWindow (w : WindowsDataset I) (index : Nat) : Checked (Option (List I)) := do
  let readIndices ← w.range index
  match ← w.dataset.getMany readIndices with
  | none => pure none
  | some window => pure (if window.length ≠ readIndices.length then none else some window)

/-- `as isize` -/
def asIsize (n : Nat) : Int := if n < 2 ^ 63 then n else n - 2 ^ 64

def isize (n : Int) : Checked Int := if -2 ^ 63 ≤ n ∧ n < 2 ^ 63 then pure n else throw .panic

def toDataset (w : WindowsDataset I) : Dataset (List I) where
  get := w.window
  getMany := collect w.readWindow
  len := do
    let len ← isize (asIsize (← w.dataset.len) - asIsize w.size)
    pure (max (← isize (len + 1)) 0).toNat

end WindowsDataset

-- Nesting

/-- The datasets that are built of sources by the three views, all lengths and sizes below `2 ^ 62`. -/
inductive Built : {I : Type} → Dataset I → Prop
  | source {I : Type} {len : Nat} {get : Nat → Option I} (hget : ∀ i, (get i).isSome = true ↔ i < len)
      (hlen : len < 2 ^ 62) : Built (Dataset.ofGet len get)
  | composed {I : Type} {c : ComposedDataset I} {len : Nat} (hdatasets : ∀ d ∈ c.datasets, Built d)
      (hlen : c.toDataset.len = .ok len) (hsmall : len < 2 ^ 62) : Built c.toDataset
  | fraction {I : Type} {p : PartialDataset I} {len : Nat} (hdataset : Built p.dataset) (hlen : p.dataset.len = .ok len)
      (hle : p.startIndex ≤ p.endIndex) (hend : p.endIndex ≤ len) : Built p.toDataset
  | windows {I : Type} {w : WindowsDataset I} (hdataset : Built w.dataset) (hsize : w.size < 2 ^ 62) : Built w.toDataset

/-- The dataset holds these items, in this order. -/
def Items (d : Dataset I) (items : List I) : Prop := d.len = .ok items.length ∧ ∀ i < 2 ^ 62, d.get i = .ok items[i]?

/-- The parts hold the items of the dataset, one part after the other. -/
def Concatenates (d : Dataset I) (parts : List (PartialDataset I)) : Prop :=
  ∃ lists, List.Forall₂ (fun p l => Items p.toDataset l) parts lists ∧ Items d lists.flatten

end Ruda.Data
