import Ruda.Lib.Decimal
import Ruda.Lib.Machine
import Ruda.Lib.OrdMap

/-!
# Contiguous indices in paths

A translation of `map_indices_contiguous` of `keyremapper.rs`. Numbers that are components of
dotted paths are numbered anew, for each text before them.
-/

namespace Ruda.Store

variable {τ : Type}

/-- A tensor and its path. -/
structure TensorSnapshot (τ : Type) where
  pathStack : Option (List Text)
  tensor : τ

/-- `join(".")` -/
def join (parts : List Text) : Text := ['.'].intercalate parts

/-- `split('.')` -/
def split (path : Text) : List Text := path.splitOn '.'

def TensorSnapshot.fullPath (s : TensorSnapshot τ) : Text := (s.pathStack.map join).getD []

/-- `parse::<usize>()` -/
def parseUsize (part : Text) : Option Nat :=
  (match part with
    | '+' :: digits => Decimal.magnitude digits
    | digits => Decimal.magnitude digits).filter fun n => n < 2 ^ 64

/-- Everything before a component. -/
def before (parts : List Text) (i : Nat) : Text := if i > 0 then join (parts.take i) ++ ['.'] else []

abbrev IndexMaps := Std.ExtTreeMap Text (BTreeMap Nat) compare

def IndexMaps.add (maps : IndexMaps) (key : Text) (index : Nat) : IndexMaps :=
  let indices := maps[key]?.getD ∅
  maps.insert key (if indices.contains index then indices else indices.insert index usizeMax)

/-- Collect all indices of a path. -/
def IndexMaps.collect (maps : IndexMaps) (path : Text) : IndexMaps :=
  (split path).zipIdx.foldl (fun maps (part, i) =>
    match parseUsize part with
    | some index => maps.add (before (split path) i) index
    | none => maps) maps

/-- Assign contiguous indices. -/
def contiguous (indices : BTreeMap Nat) : BTreeMap Nat :=
  (indices.keys.mergeSort fun a b => a ≤ b).zipIdx.foldl (fun indices (oldIdx, newIdx) => indices.insert oldIdx newIdx) indices

def remapPart (maps : IndexMaps) (parts : List Text) (i : Nat) (part : Text) : Text :=
  match parseUsize part with
  | some index =>
    match maps[before parts i]? with
    | some indices =>
      match indices[index]? with
      | some newIndex => Nat.toDigits 10 newIndex
      | none => part
    | none => part
  | none => part

/-- Uses original path prefixes for lookup. -/
def remapAllIndicesWithOriginalPrefix (path : Text) (maps : IndexMaps) : Text :=
  join ((split path).mapIdx (remapPart maps (split path)))

def remapSnapshot (maps : IndexMaps) (s : TensorSnapshot τ) : TensorSnapshot τ × Text × Text :=
  let originalPath := s.fullPath
  let newPath := remapAllIndicesWithOriginalPrefix originalPath maps
  ({ s with pathStack := if newPath ≠ originalPath then s.pathStack.map fun _ => split newPath else s.pathStack }, newPath, originalPath)

/-- The snapshots with their new paths, and the pairs of new and original paths. -/
def mapIndicesContiguous (tensors : List (TensorSnapshot τ)) : List (TensorSnapshot τ) × List (Text × Text) :=
  if tensors.isEmpty then (tensors, [])
  else
    let indexMaps := (tensors.foldl (fun maps s => maps.collect s.fullPath) (∅ : IndexMaps)).map fun _ => contiguous
    (tensors.map (remapSnapshot indexMaps)).unzip

-- What the renumbering is to do

/-- The numbers of a path, each with what is before it. -/
def numbers (path : Text) : List (Text × Nat) :=
  (split path).zipIdx.filterMap fun (part, i) => (parseUsize part).map fun n => (before (split path) i, n)

/-- The numbers that follow a text in some of the paths. -/
def numbersAfter (paths : List Text) (key : Text) : Finset Nat :=
  (((paths.flatMap numbers).filter fun e => e.1 = key).map Prod.snd).toFinset

/-- How many of the numbers are smaller. -/
def rank (numbers : Finset Nat) (n : Nat) : Nat := (numbers.filter fun m => m < n).card

structure Renumbered (tensors : List (TensorSnapshot τ)) (result : List (TensorSnapshot τ) × List (Text × Text)) : Prop where
  order : result.1.map TensorSnapshot.tensor = tensors.map TensorSnapshot.tensor
  distinct : (result.1.map TensorSnapshot.fullPath).Nodup
  pairs : result.2 = (result.1.map TensorSnapshot.fullPath).zip (tensors.map TensorSnapshot.fullPath)
  numbers : ∀ key, ∃ f : Nat → Nat,
    StrictMonoOn f (numbersAfter (tensors.map TensorSnapshot.fullPath) key) ∧
    (numbersAfter (tensors.map TensorSnapshot.fullPath) key).image f =
      Finset.range (numbersAfter (tensors.map TensorSnapshot.fullPath) key).card ∧
    ∀ e ∈ result.2, ∀ i part n, (split e.2)[i]? = some part → parseUsize part = some n → before (split e.2) i = key →
      (split e.1)[i]? = some (Nat.toDigits 10 (f n))
  others : ∀ e ∈ result.2, (split e.1).length = (split e.2).length ∧
    ∀ (i : Nat) (part : Text), (split e.2)[i]? = some part → parseUsize part = none → (split e.1)[i]? = some part
  again : (mapIndicesContiguous result.1).1 = result.1

/-- Components at one place of two paths: the same text, or numbers with as many smaller ones each. -/
def SamePlace (paths : List Text) (p q : List Text) (i : Nat) : Prop :=
  (p[i]?.bind parseUsize = none ∧ p[i]? = q[i]?) ∨
    ∃ m n, p[i]?.bind parseUsize = some m ∧ q[i]?.bind parseUsize = some n ∧
      rank (numbersAfter paths (before p i)) m = rank (numbersAfter paths (before q i)) n

/-- The first difference of two paths are two spellings of one number, and no later one tells them apart. -/
structure Respelled (paths : List Text) (p q : List Text) (k : Nat) : Prop where
  length : p.length = q.length
  before : p.take k = q.take k
  differ : p[k]? ≠ q[k]?
  number : ∃ n, p[k]?.bind parseUsize = some n ∧ q[k]?.bind parseUsize = some n
  after : ∀ i > k, SamePlace paths p q i

end Ruda.Store
