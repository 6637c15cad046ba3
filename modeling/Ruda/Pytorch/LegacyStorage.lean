import Ruda.Pytorch.Pickle

/-!
# Storages in one file

A translation of `LegacyMultiStorageSource`: the extents that tensors use, the map of
storages made of them, and reading a storage by the map. The keys are set before any tensor
is tracked, and reading changes nothing.
-/

namespace Ruda.Pytorch

/-- The error of an input operation, with the key where it tells one. -/
inductive ReadError
  | unexpectedEof
  | invalidSeek
  | boundariesNotAvailable (key : Text)
  deriving DecidableEq, Repr

structure LegacyMultiStorageSource where
  dataOffset : Nat
  storageMap : Option (List (Text × Nat × Nat))
  storageKeys : Option (List Text)
  storageUsage : List (Text × Nat)

/-- What is tracked of a tensor. -/
structure Usage where
  key : Text
  offset : Nat
  size : Nat
  deriving DecidableEq

/-- The part behind the last slash. -/
def lastComponent (key : Text) : Text := (key.reverse.takeWhile (· ≠ '/')).reverse

namespace LegacyMultiStorageSource

def new (dataOffset : Nat) : LegacyMultiStorageSource := ⟨dataOffset, none, none, []⟩

def setStorageKeys (s : LegacyMultiStorageSource) (keys : List Text) : LegacyMultiStorageSource :=
  { s with storageKeys := some keys }

/-- The storages one after the other, each behind the eight bytes of its element count. -/
def storageOffsets (usage : List (Text × Nat)) :
    List Text → List (Text × Nat × Nat) → Nat → Res Empty (List (Text × Nat × Nat))
  | [], map, _ => .ok map
  | key :: keys, map, current =>
    match usage.lookup key with
    | some size => do
      let offset ← addUsize current 8
      let stride ← addUsize 8 size
      let next ← addUsize current stride
      storageOffsets usage keys (hashInsert key (offset, size) map) next
    | none => storageOffsets usage keys map current

def tryBuildStorageMap (s : LegacyMultiStorageSource) : Res Empty LegacyMultiStorageSource :=
  match s.storageMap, s.storageKeys with
  | none, some keys =>
    if ∀ k ∈ keys, (s.storageUsage.lookup k).isSome then do
      let map ← storageOffsets s.storageUsage keys [] 0
      pure { s with storageMap := some map }
    else .ok s
  | _, _ => .ok s

def trackStorageUsage (s : LegacyMultiStorageSource) (u : Usage) : Res Empty LegacyMultiStorageSource := do
  let maxExtent ← addUsize u.offset u.size
  let used := match s.storageUsage.lookup u.key with
    | some current => max current maxExtent
    | none => maxExtent
  tryBuildStorageMap { s with storageUsage := hashInsert u.key used s.storageUsage }

/-- Positions in a file and sizes of a buffer are below `2 ^ 63`. -/
def read (file : Bytes) (s : LegacyMultiStorageSource) (key : Text) : Res ReadError Bytes :=
  match s.storageMap.bind fun map => map.lookup (lastComponent key) with
  | some (offset, size) => do
    let position ← addUsize s.dataOffset offset
    failIf (position ≥ 2 ^ 63) .invalidSeek
    if size ≥ 2 ^ 63 then .error .panic
    else okOr (getRange file position (position + size)) .unexpectedEof
  | none => .error (.err (.boundariesNotAvailable (lastComponent key)))

/-- Tensors tracked in turn. -/
def trackAll (s : LegacyMultiStorageSource) : List Usage → Res Empty LegacyMultiStorageSource
  | [] => .ok s
  | u :: us => do
    let s ← s.trackStorageUsage u
    s.trackAll us

end LegacyMultiStorageSource

-- Files

/-- A storage in a file, with the eight bytes in front of it. -/
structure Storage where
  key : Text
  count : Bytes
  bytes : Bytes
  count_length : count.length = 8

def Storage.record (s : Storage) : Bytes := s.count ++ s.bytes

/-- A file with its storages in the order of their keys. -/
structure LegacyFile where
  header : Bytes
  storages : List Storage
  trailer : Bytes
  keys_nodup : (storages.map Storage.key).Nodup
  keys_plain : ∀ s ∈ storages, '/' ∉ s.key
  fits : (header ++ storages.flatMap Storage.record ++ trailer).length < 2 ^ 63

namespace LegacyFile

def content (f : LegacyFile) : Bytes := f.header ++ f.storages.flatMap Storage.record ++ f.trailer

def keys (f : LegacyFile) : List Text := f.storages.map Storage.key

def source (f : LegacyFile) : LegacyMultiStorageSource :=
  (LegacyMultiStorageSource.new f.header.length).setStorageKeys f.keys

/-- After some tensors were tracked every key gives the bytes of its storage. -/
def ReadsStorages (f : LegacyFile) (us : List Usage) : Prop :=
  ∃ s, f.source.trackAll us = .ok s ∧ ∀ storage ∈ f.storages, s.read f.content storage.key = .ok storage.bytes

end LegacyFile

/-- The largest extent of a key. -/
def extent (us : List Usage) (key : Text) : Option Nat :=
  us.foldl (fun found u => if u.key = key then some (max (found.getD 0) (u.offset + u.size)) else found) none

/-- Every key was tracked. -/
def Covers (keys : List Text) (us : List Usage) : Prop := ∀ k ∈ keys, (extent us k).isSome

/-- The extents that the map is made of are the sizes: those of the fewest tensors among which
every key was tracked. -/
def LegacyFile.Exact (f : LegacyFile) (us : List Usage) : Prop :=
  (∀ u ∈ us, u.offset + u.size ≤ usizeMax) ∧
    ∃ n ≤ us.length, Covers f.keys (us.take n) ∧ (∀ m < n, ¬Covers f.keys (us.take m)) ∧
      ∀ storage ∈ f.storages, extent (us.take n) storage.key = some storage.bytes.length

end Ruda.Pytorch
