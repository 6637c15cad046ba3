import Ruda.Lib.Bisect
import Ruda.Lib.Fallible

/-!
# The flat bundle format

Reading and writing of the flat bundle. This is a translation of `EmbeddedBundle` in
`ruda-core/src/environment/bundle/embedded.rs` and of `write` in
`ruda-core/src/environment/bundle/flat.rs`.

A `str` is its UTF-8 bytes, and both `str` and `[u8]` compare byte by byte. The
metadata blob is opaque here as it is to the reader. `usize` is 64 bits wide.
-/

namespace Ruda.Bundle

/-- `MAGIC` -/
def magic : List UInt8 := [0x43, 0x55, 0x42, 0x45, 0x43, 0x4C, 0x42, 0x01]

/-- `FORMAT_VERSION` -/
def formatVersion : Nat := 1

/-- `ENTRY_SIZE` -/
def entrySize : Nat := 20

inductive EmbeddedBundleError
  | notABundle
  | unsupportedFormat (found : Nat)
  | corrupted (what : String)
  deriving DecidableEq

abbrev Res := Ruda.Res EmbeddedBundleError

/-- Bytes in the order of `Ord for [u8]`. -/
def rank (bytes : List UInt8) : List Nat := bytes.map UInt8.toNat

/-- `Ord::cmp` of a linear order. -/
def ordering {β : Type} [LT β] [DecidableLT β] [DecidableEq β] (a b : β) : Ordering :=
  if a < b then .lt else if a = b then .eq else .gt

theorem ordering_lt {β : Type} [LT β] [DecidableLT β] [DecidableEq β] {a b : β} : ordering a b = .lt ↔ a < b := by
  unfold ordering
  split
  · next h => exact ⟨fun _ => h, fun _ => rfl⟩
  · next h =>
    split
    · exact ⟨nofun, fun h' => absurd h' h⟩
    · exact ⟨nofun, fun h' => absurd h' h⟩

def cmpBytes (a b : List UInt8) : Ordering := ordering (rank a) (rank b)

/-- `core::str::from_utf8(bytes).is_ok()` -/
def isUtf8 (bytes : List UInt8) : Bool := (ByteArray.mk bytes.toArray).validateUTF8

/-- `opt.ok_or(Corrupted(what))?` -/
def orCorrupted {α : Type} (opt : Option α) (what : String) : Res α := okOr opt (.corrupted what)

structure Entry where
  ns : Nat
  keyOffset : Nat
  keyLen : Nat
  valueOffset : Nat
  valueLen : Nat
  deriving DecidableEq

structure EmbeddedBundle where
  bytes : List UInt8
  /-- Byte range of every namespace. -/
  namespaces : List (Nat × Nat)
  /-- Offset of the entry index and how many entries it holds. -/
  entries : Nat × Nat
  /-- Offset of the data section. -/
  data : Nat
  deriving DecidableEq

/-- The loop of `lower_bound`; the range gets smaller every time, so `fuel` bounds it. -/
def lowerBoundLoop (order : Nat → Res (Option Ordering)) : (fuel low high : Nat) → Res (Option Nat)
  | 0, low, _ => pure (some low)
  | fuel + 1, low, high =>
    if low < high then do
      let mid := low + (high - low) / 2
      match ← order mid with
      | none => pure none
      | some .lt => lowerBoundLoop order fuel (mid + 1) high
      | some _ => lowerBoundLoop order fuel low mid
    else pure (some low)

def lowerBound (len : Nat) (order : Nat → Res (Option Ordering)) : Res (Option Nat) :=
  lowerBoundLoop order len 0 len

namespace EmbeddedBundle

/-- `namespace`; the name is a keyword here. -/
def nameAt (b : EmbeddedBundle) (index : Nat) : Option (List UInt8) := do
  let (start, len) ← b.namespaces[index]?
  let name ← getRange b.bytes start (start + len)
  if isUtf8 name then some name else none

def entry (b : EmbeddedBundle) (index : Nat) : Option Entry := do
  let at_ := b.entries.1 + index * entrySize
  some { ns := ← readU32 b.bytes at_
         keyOffset := ← readU32 b.bytes (at_ + 4)
         keyLen := ← readU32 b.bytes (at_ + 8)
         valueOffset := ← readU32 b.bytes (at_ + 12)
         valueLen := ← readU32 b.bytes (at_ + 16) }

/-- `&self.bytes[self.span(offset, len)]` -/
def span (b : EmbeddedBundle) (offset len : Nat) : Res (List UInt8) :=
  slice b.bytes (b.data + offset) (b.data + offset + len)

def keyOf (b : EmbeddedBundle) (e : Entry) : Res (List UInt8) := b.span e.keyOffset e.keyLen

def valueOf (b : EmbeddedBundle) (e : Entry) : Res (List UInt8) := b.span e.valueOffset e.valueLen

/-- `view` refuses a range that is not inside the bytes. -/
def valueWindow (b : EmbeddedBundle) (e : Entry) : Option (List UInt8) :=
  getRange b.bytes (b.data + e.valueOffset) (b.data + e.valueOffset + e.valueLen)

-- Opening

/-- A span of an entry, checked against the data section. -/
def checkSpan (available offset len : Nat) : Res Unit := do
  let stop ← orCorrupted (checkedAdd offset len) "entry span overflows"
  failIf (stop > available) (.corrupted "entry span runs past the end")

/-- One round of the loop over the entry index. -/
def validateEntry (b : EmbeddedBundle) (previous : Option Entry) (index : Nat) : Res (Option Entry) := do
  let available := b.bytes.length - b.data
  let e ← orCorrupted (b.entry index) "truncated entry index"
  failIf (e.ns ≥ b.namespaces.length) (.corrupted "entry points at an unknown namespace")
  checkSpan available e.keyOffset e.keyLen
  checkSpan available e.valueOffset e.valueLen
  match previous with
  | none => pure ()
  | some p =>
    let before ← b.keyOf p
    let key ← b.keyOf e
    failIf (ordering (toLex (p.ns, rank before)) (toLex (e.ns, rank key)) ≠ .lt)
      (.corrupted "entry index is not sorted by (namespace, key)")
  pure (some e)

def validateEntries (b : EmbeddedBundle) : Res Unit := do
  let _ ← (List.range b.entries.2).foldlM b.validateEntry none
  (List.range b.namespaces.length).forM fun index => do
    let _ ← orCorrupted (b.nameAt index) "namespace is not valid UTF-8"

/-- The namespace table, `count` names from `cursor` on, and where it ends. -/
def readNamespaces (bytes : List UInt8) : (count cursor : Nat) → Res (List (Nat × Nat) × Nat)
  | 0, cursor => pure ([], cursor)
  | count + 1, cursor => do
    let len ← orCorrupted (readU32 bytes cursor) "truncated namespace table"
    let start := cursor + 4
    let cursor ← orCorrupted (checkedAdd start len) "namespace length overflows"
    failIf (cursor > bytes.length) (.corrupted "namespace table runs past the end")
    let (rest, cursor) ← readNamespaces bytes count cursor
    pure ((start, len) :: rest, cursor)

def parse (bytes : List UInt8) : Res EmbeddedBundle := do
  failIf (bytes.length < magic.length + 8 ∨ bytes.take magic.length ≠ magic) .notABundle
  let cursor := magic.length
  let format ← orCorrupted (readU32 bytes cursor) "truncated header"
  let cursor := cursor + 4
  failIf (format ≠ formatVersion) (.unsupportedFormat format)
  let metadataLen ← orCorrupted (readU32 bytes cursor) "truncated header"
  let cursor := cursor + 4
  let metadataEnd ← orCorrupted (checkedAdd cursor metadataLen) "metadata length overflows"
  failIf (metadataEnd > bytes.length) (.corrupted "metadata runs past the end")
  let cursor := metadataEnd
  let namespaceCount ← orCorrupted (readU32 bytes cursor) "truncated header"
  let cursor := cursor + 4
  let (namespaces, cursor) ← readNamespaces bytes namespaceCount cursor
  let entryCount ← orCorrupted (readU32 bytes cursor) "truncated header"
  let entriesStart := cursor + 4
  let indexLen ← orCorrupted (checkedMul entryCount entrySize) "entry count overflows"
  let dataStart ← orCorrupted (checkedAdd entriesStart indexLen) "entry index overflows"
  failIf (dataStart > bytes.length) (.corrupted "entry index runs past the end")
  let this := { bytes, namespaces, entries := (entriesStart, entryCount), data := dataStart }
  validateEntries this
  pure this

-- Looking up

def namespaceId (b : EmbeddedBundle) (name : List UInt8) : Res (Option Nat) := do
  match ← lowerBound b.namespaces.length fun index => pure ((b.nameAt index).map fun n => cmpBytes n name) with
  | none => pure none
  | some at_ =>
    match b.nameAt at_ with
    | none => pure none
    | some found => pure (if found = name then some at_ else none)

/-- The order of an entry against what is looked for. -/
def cmpEntry (b : EmbeddedBundle) (ns : Nat) (key : List UInt8) (index : Nat) : Res (Option Ordering) :=
  match b.entry index with
  | none => pure none
  | some e => do
    let k ← b.keyOf e
    pure (some (ordering (toLex (e.ns, rank k)) (toLex (ns, rank key))))

def get (b : EmbeddedBundle) (name key : List UInt8) : Res (Option (List UInt8)) := do
  match ← b.namespaceId name with
  | none => pure none
  | some ns =>
    match ← lowerBound b.entries.2 (b.cmpEntry ns key) with
    | none => pure none
    | some at_ =>
      match b.entry at_ with
      | none => pure none
      | some e => do
        let k ← b.keyOf e
        pure (if e.ns = ns ∧ k = key then b.valueWindow e else none)

def firstOf (b : EmbeddedBundle) (ns : Nat) : Res (Option Nat) := do
  match ← lowerBound b.entries.2 fun index => pure ((b.entry index).map fun e => ordering e.ns ns) with
  | none => pure none
  | some at_ =>
    match b.entry at_ with
    | none => pure none
    | some e => pure (if e.ns = ns then some at_ else none)

/-- The loop of `scan` from an index on: what it visits. -/
def scanFrom (b : EmbeddedBundle) (id : Nat) : List Nat → Res (List (List UInt8 × List UInt8))
  | [] => pure []
  | index :: rest =>
    match b.entry index with
    | none => pure []
    | some e =>
      if e.ns ≠ id then pure []
      else do
        let key ← b.keyOf e
        let value ← b.valueOf e
        let more ← scanFrom b id rest
        pure ((key, value) :: more)

def scan (b : EmbeddedBundle) (name : List UInt8) : Res (List (List UInt8 × List UInt8)) := do
  match ← b.namespaceId name with
  | none => pure []
  | some id =>
    match ← b.firstOf id with
    | none => pure []
    | some first => b.scanFrom id (List.range' first (b.entries.2 - first))

end EmbeddedBundle

-- Writing

/-- `Entries`, a map by `(namespace, key)` in key order. -/
structure Entries where
  items : List ((List UInt8 × List UInt8) × List UInt8)
  sorted : items.Pairwise fun a b => toLex (rank a.1.1, rank a.1.2) < toLex (rank b.1.1, rank b.1.2)
  utf8 : ∀ e ∈ items, isUtf8 e.1.1 = true

/-- The set of names as a `BTreeSet` iterates it. -/
def Entries.namespaces (entries : Entries) : List (List UInt8) :=
  (entries.items.map fun e => e.1.1).dedup.insertionSort fun a b => rank a ≤ rank b

def pushU32 (out : List UInt8) (value : Nat) : Option (List UInt8) :=
  if value < 2 ^ 32 then some (out ++ leBytes 4 value) else none

/-- One round of the loop over the entries: the index and the data so far. -/
def writeEntry (namespaces : List (List UInt8)) (state : List UInt8 × List UInt8)
    (e : (List UInt8 × List UInt8) × List UInt8) : Option (List UInt8 × List UInt8) := do
  let (index, data) := state
  let ((name, key), value) := e
  let id := namespaces.idxOf name
  let keyOffset := data.length
  let data := data ++ key
  let valueOffset := data.length
  let data := data ++ value
  let index := index ++ leBytes 4 id
  let index ← pushU32 index keyOffset
  let index ← pushU32 index key.length
  let index ← pushU32 index valueOffset
  let index ← pushU32 index value.length
  some (index, data)

def writeName (out name : List UInt8) : Option (List UInt8) := do
  let out ← pushU32 out name.length
  some (out ++ name)

/-- What `write` puts into the file; `none` is `TooLarge`. -/
def write (entries : Entries) (metadata : List UInt8) : Option (List UInt8) := do
  let namespaces := entries.namespaces
  let (index, data) ← entries.items.foldlM (writeEntry namespaces) ([], [])
  let bytes := magic ++ leBytes 4 formatVersion
  let bytes ← pushU32 bytes metadata.length
  let bytes := bytes ++ metadata
  let bytes ← pushU32 bytes namespaces.length
  let bytes ← namespaces.foldlM writeName bytes
  let bytes ← pushU32 bytes entries.items.length
  some (bytes ++ index ++ data)

end Ruda.Bundle
