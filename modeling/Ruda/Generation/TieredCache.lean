import Ruda.Lib.Machine
import Ruda.Lib.Exec

/-!
# The tiered prefix cache

A translation of `TieredPrefixCache` of `prefix_cache.rs`. What it asks of models, codecs
and files is answered by an `Oracle`, a new one for each call: of a prefix only its tokens
are kept, and of a payload its length. Arithmetic on counters panics on overflow.
-/

namespace Ruda.Generation

abbrev Tokens := List Int

structure PrefixCacheConfig where
  blockTokens : Nat
  deviceEntries : Nat
  hostBytes : Nat
  diskDirectory : Option String
  diskBytes : Nat

structure PrefixCacheStats where
  lookups : Nat
  hits : Nat
  reusedTokens : Nat
  deviceEntries : Nat
  hostBytes : Nat
  diskBytes : Nat
  deriving DecidableEq

inductive Tier
  | device
  | host (bytes : Nat)
  | disk (bytes : Nat)
  deriving DecidableEq

structure Entry where
  tier : Tier
  used : Nat
  deriving DecidableEq

structure TieredPrefixCache where
  config : PrefixCacheConfig
  maxSequenceLength : Nat
  vocabSize : Nat
  /-- In the order of the tokens, as the source's map has them. -/
  entries : List (Tokens × Entry)
  tick : Nat
  stats : PrefixCacheStats

/-- What a call finds out about the prefixes and files with these tokens. -/
structure Oracle where
  /-- The inserted prefix is complete and of this model. -/
  accepts : Bool
  forwards : Bool
  capture : Tokens → Option Nat
  removeFile : Tokens → Bool
  writeFile : Tokens → Bool
  /-- The number of tokens of the prefix that the entry restores to, if it is a valid one. -/
  restore : Tokens → Option Nat

namespace Tier

def isDevice : Tier → Bool
  | device => true
  | _ => false

def isHost : Tier → Bool
  | host _ => true
  | _ => false

def isDisk : Tier → Bool
  | disk _ => true
  | _ => false

end Tier

namespace TieredPrefixCache

/-- A method on the cache. -/
abbrev Method := M TieredPrefixCache

def erase (s : TieredPrefixCache) (key : Tokens) : TieredPrefixCache :=
  { s with entries := s.entries.filter fun row => row.1 ≠ key }

def put (s : TieredPrefixCache) (key : Tokens) (entry : Entry) : TieredPrefixCache :=
  { s with entries := (s.erase key).entries.orderedInsert (fun a b => a.1 ≤ b.1) (key, entry) }

/-- `entries.get_mut(&key)`, to set `used` -/
def touch (s : TieredPrefixCache) (key : Tokens) : TieredPrefixCache :=
  { s with entries := s.entries.map fun row => if row.1 = key then (row.1, { row.2 with used := s.tick }) else row }

/-- The key used longest ago in a tier. -/
def oldest (s : TieredPrefixCache) (inTier : Tier → Bool) : Option Tokens :=
  ((s.entries.filter fun row => inTier row.2.tier).argmin fun row => row.2.used).map Prod.fst

def bumpTick (s : TieredPrefixCache) : TieredPrefixCache := { s with tick := s.tick + 1 }

def setDevice (s : TieredPrefixCache) (n : Nat) : TieredPrefixCache := { s with stats := { s.stats with deviceEntries := n } }

def setHost (s : TieredPrefixCache) (n : Nat) : TieredPrefixCache := { s with stats := { s.stats with hostBytes := n } }

def setDisk (s : TieredPrefixCache) (n : Nat) : TieredPrefixCache := { s with stats := { s.stats with diskBytes := n } }

def addOverflow : String := "attempt to add with overflow"

def subOverflow : String := "attempt to subtract with overflow"

/-- `self.stats.device_entries += n`, and so on for the other counters -/
def addDevice (n : Nat) : Method Unit := do
  let s ← get
  if s.stats.deviceEntries + n ≤ usizeMax then modify fun s => s.setDevice (s.stats.deviceEntries + n) else M.panic addOverflow

def addHost (n : Nat) : Method Unit := do
  let s ← get
  if s.stats.hostBytes + n ≤ usizeMax then modify fun s => s.setHost (s.stats.hostBytes + n) else M.panic addOverflow

def addDisk (n : Nat) : Method Unit := do
  let s ← get
  if s.stats.diskBytes + n ≤ usizeMax then modify fun s => s.setDisk (s.stats.diskBytes + n) else M.panic addOverflow

def subDevice (n : Nat) : Method Unit := do
  let s ← get
  if n ≤ s.stats.deviceEntries then modify fun s => s.setDevice (s.stats.deviceEntries - n) else M.panic subOverflow

def subHost (n : Nat) : Method Unit := do
  let s ← get
  if n ≤ s.stats.hostBytes then modify fun s => s.setHost (s.stats.hostBytes - n) else M.panic subOverflow

def subDisk (n : Nat) : Method Unit := do
  let s ← get
  if n ≤ s.stats.diskBytes then modify fun s => s.setDisk (s.stats.diskBytes - n) else M.panic subOverflow

def noVictim : String := "disk budget has no evictable payload"

def evictDisk (o : Oracle) : Method Unit := do
  let s ← get
  let old ← M.need (s.oldest Tier.isDisk) noVictim
  let entry ← M.expect (s.entries.lookup old) "existing disk payload"
  match entry.tier with
  | .disk size => do
    M.failIf (o.removeFile old = false) "remove_file"
    subDisk size
    modify fun s => s.erase old
  | _ => M.panic "unreachable"

/-- `while isOver { evict_disk()?; }`. Each pass takes an entry away, so `fuel` bounds it; a loop
that goes on counts as a panic. -/
def evictWhile (isOver : TieredPrefixCache → Prop) [DecidablePred isOver] (o : Oracle) : (fuel : Nat) → Method Unit
  | 0 => M.panic "no end"
  | fuel + 1 => do
    let s ← get
    if isOver s then do
      evictDisk o
      evictWhile isOver o fuel
    else pure ()

def putDisk (o : Oracle) (key : Tokens) (bytes used : Nat) : Method Unit := do
  let s ← get
  if bytes > s.config.diskBytes ∨ s.config.diskBytes = 0 then pure ()
  else do
    -- the sum saturates
    evictWhile (fun s => Min.min (s.stats.diskBytes + bytes) usizeMax > s.config.diskBytes) o (s.entries.length + 1)
    let _ ← M.expect s.config.diskDirectory "validated disk directory"
    M.failIf (o.writeFile key = false) "write_all"
    addDisk bytes
    modify fun s => s.put key ⟨.disk bytes, used⟩

/-- The loop that takes prefixes off the device. -/
def shrinkDevice (o : Oracle) : (fuel : Nat) → Method Unit
  | 0 => M.panic "no end"
  | fuel + 1 => do
    let s ← get
    if s.stats.deviceEntries > s.config.deviceEntries then do
      let key ← M.expect (s.oldest Tier.isDevice) "over-budget device tier"
      let entry ← M.expect (s.entries.lookup key) "existing device entry"
      modify fun s => s.erase key
      subDevice 1
      if entry.tier ≠ .device then M.panic "unreachable"
      else if s.config.hostBytes = 0 ∧ s.config.diskBytes = 0 then shrinkDevice o fuel
      else
        match o.capture key with
        | none => do
          modify fun s => s.put key ⟨.device, entry.used⟩
          addDevice 1
          M.fail "capture"
        | some bytes =>
          if bytes ≤ s.config.hostBytes then do
            addHost bytes
            modify fun s => s.put key ⟨.host bytes, entry.used⟩
            shrinkDevice o fuel
          else do
            putDisk o key bytes entry.used
            shrinkDevice o fuel
    else pure ()

/-- The loop that takes payloads out of memory. -/
def shrinkHost (o : Oracle) : (fuel : Nat) → Method Unit
  | 0 => M.panic "no end"
  | fuel + 1 => do
    let s ← get
    if s.stats.hostBytes > s.config.hostBytes then do
      let key ← M.expect (s.oldest Tier.isHost) "over-budget host tier"
      let entry ← M.expect (s.entries.lookup key) "existing host entry"
      modify fun s => s.erase key
      match entry.tier with
      | .host bytes => do
        subHost bytes
        putDisk o key bytes entry.used
        shrinkHost o fuel
      | _ => M.panic "unreachable"
    else pure ()

def insert (o : Oracle) (tokens : Tokens) : Method Unit := do
  M.failIf (o.accepts = false) "incomplete prefix cache"
  let s ← get
  if s.config.deviceEntries = 0 ∧ s.config.hostBytes = 0 ∧ s.config.diskBytes = 0 then pure ()
  else do
    modify bumpTick
    if (s.entries.lookup tokens).isSome then modify fun s => s.touch tokens
    else do
      modify fun s => s.put tokens ⟨.device, s.tick⟩
      addDevice 1
      let s ← get
      shrinkDevice o (s.entries.length + 1)
      let s ← get
      shrinkHost o (s.entries.length + 1)

/-- The longest key that begins the prompt. -/
def longest (s : TieredPrefixCache) (prompt : Tokens) : Option Tokens :=
  ((s.entries.map Prod.fst).filter fun key => key.isPrefixOf prompt).argmax List.length

/-- The loop of `lookup`, which answers with the number of tokens of the prefix found. -/
def find (o : Oracle) (prompt : Tokens) : (fuel : Nat) → Method (Option Nat)
  | 0 => M.panic "no end"
  | fuel + 1 => do
    let s ← get
    match s.longest prompt with
    | none => pure none
    | some key => do
      let entry ← M.expect (s.entries.lookup key) "selected existing prefix"
      modify fun s => s.touch key
      match o.restore key with
      | some length => do
        modify fun s => { s with stats := { s.stats with
          hits := s.stats.hits + 1, reusedTokens := s.stats.reusedTokens + key.length } }
        pure (some length)
      | none => do
        modify fun s => s.erase key
        match entry.tier with
        | .device => subDevice 1
        | .host bytes => subHost bytes
        | .disk _ => pure ()
        find o prompt fuel

def lookup (o : Oracle) (prompt : Tokens) : Method (Option Nat) := do
  modify fun s => { s.bumpTick with stats := { s.stats with lookups := s.stats.lookups + 1 } }
  let s ← get
  find o prompt (s.entries.length + 1)

/-- The loop of `prefill`, with an oracle for each block. -/
def fill (os : Nat → Oracle) (prompt : Tokens) : (fuel start : Nat) → Method Unit
  | 0, _ => M.panic "no end"
  | fuel + 1, start =>
    if start < prompt.length then do
      let s ← get
      let stop :=
        if s.config.deviceEntries = 0 ∧ s.config.hostBytes = 0 ∧ s.config.diskBytes = 0 then prompt.length
        -- no prompt is longer than where the product saturates
        else Min.min ((start / s.config.blockTokens + 1) * s.config.blockTokens) prompt.length
      M.failIf ((os start).forwards = false) "prefill"
      -- a failed insertion is only logged
      tryCatch (insert (os start) (prompt.take stop)) fun
        | .error _ => pure ()
        | .panic message => M.panic message
      fill os prompt fuel stop
    else pure ()

/-- The calls of `prefill` before the first block and at each one. -/
structure PrefillOracle where
  lookup : Oracle
  block : Nat → Oracle

def prefill (o : PrefillOracle) (prompt : Tokens) : Method Unit := do
  let s ← get
  M.failIf (prompt = [] ∨ s.maxSequenceLength < prompt.length ∨ ∃ t ∈ prompt, t < 0 ∨ (s.vocabSize : Int) ≤ t)
    "invalid prompt tokens for prefix prefill"
  let existing ← lookup o.lookup prompt
  fill o.block prompt (prompt.length + 1) (existing.getD 0)

-- Opening

/-- What `reopen_disk` finds about a file of the directory. -/
inductive File
  | unreadable
  | foreign
  | payload (tokens : Tokens) (bytes : Nat) (removes : Bool)

def reopenFile : File → Method Unit
  | .unreadable => M.fail "read_dir"
  | .foreign => pure ()
  | .payload tokens bytes removes => do
    modify bumpTick
    let s ← get
    if (s.entries.lookup tokens).isSome then M.failIf (removes = false) "remove_file"
    else do
      M.failIf (usizeMax < s.stats.diskBytes + bytes) "disk cache byte count overflow"
      modify fun s => (s.setDisk (s.stats.diskBytes + bytes)).put tokens ⟨.disk bytes, s.tick⟩

def reopenDisk (o : Oracle) (files : List File) : Method Unit := do
  let s ← get
  if s.config.diskDirectory = none ∨ s.config.diskBytes = 0 then pure ()
  else do
    files.forM reopenFile
    let s ← get
    evictWhile (fun s => s.stats.diskBytes > s.config.diskBytes) o (s.entries.length + 1)

/-- The cache without entries, before the directory is read. -/
def empty (config : PrefixCacheConfig) (maxSequenceLength vocabSize : Nat) : TieredPrefixCache :=
  ⟨config, maxSequenceLength, vocabSize, [], 0, ⟨0, 0, 0, 0, 0, 0⟩⟩

/-- `new`, where the directory could be made if there is one. -/
def new (o : Oracle) (config : PrefixCacheConfig) (maxSequenceLength vocabSize : Nat) (files : List File) :
    Except Fault TieredPrefixCache :=
  if config.blockTokens = 0 then .error (.error "prefix block size must be positive")
  else if 0 < config.diskBytes ∧ config.diskDirectory = none then .error (.error "disk tier needs an explicit directory")
  else
    match (reopenDisk o files).exec (empty config maxSequenceLength vocabSize) with
    | (.ok _, s) => .ok s
    | (.error f, _) => .error f

end TieredPrefixCache

end Ruda.Generation
