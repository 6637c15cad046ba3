import Ruda.Lib.Exec
import Ruda.Lib.Machine

/-!
# The paged KV cache manager

Metadata of every live KV sequence: block tables of physical pages, reference
counts, the prefix cache of published full blocks, and the reserve/commit
protocol for appends. This is a translation of `ruLLM/src/paged_kv.rs`.

Page ids index the vectors `page_refs` and `page_blocks`; both are functions on
page ids here, and that every id in use is below `num_pages` is proved. The
`u32` reference counts wrap, as unchecked `+=` does in a release build, and the
`debug_assert`s are kept as panics. `next_tick` and `reused_tokens` are `u64`
event counters, modelled without a bound. The chain hash is a parameter.
-/

namespace Ruda.Kv

abbrev Token := Int
abbrev RequestId := Nat
abbrev KvPageId := Nat
abbrev KvReservationId := Nat

/-- `chain(parent, tokens)`, a `DefaultHasher` digest. -/
abbrev ChainHash := Nat → List Token → Nat

/-- All three fields are `usize`. -/
structure PagedKvCacheConfig where
  blockSize : Nat
  numPages : Nat
  maxSequenceLength : Nat
  blockSize_le : blockSize ≤ usizeMax := by decide
  numPages_le : numPages ≤ usizeMax := by decide
  maxSequenceLength_le : maxSequenceLength ≤ usizeMax := by decide
  deriving DecidableEq

def PagedKvCacheConfig.validate (config : PagedKvCacheConfig) : Except Fault Unit :=
  if config.blockSize = 0 ∨ config.numPages = 0 ∨ config.maxSequenceLength = 0 then
    .error (.error "paged KV block_size, num_pages, and max_sequence_length must be non-zero")
  else if config.numPages > u32Max then
    .error (.error "paged KV physical page count exceeds u32 page-table capacity")
  else .ok ()

structure PagedKvAppendReservation where
  id : KvReservationId
  requestId : RequestId
  startPosition : Nat
  tokenCount : Nat
  contextLength : Nat
  newlyAllocatedPages : List KvPageId
  blockTable : List KvPageId
  deriving DecidableEq

structure SequenceState where
  committedTokens : Nat
  pages : List KvPageId
  pending : Option KvReservationId
  /-- Leading full blocks already published to (or taken from) the prefix cache. -/
  registeredBlocks : Nat
  /-- Chain hash of the last registered block. -/
  chainHash : Nat
  deriving DecidableEq

structure ReservationState where
  requestId : RequestId
  previousPageCount : Nat
  startPosition : Nat
  tokenCount : Nat
  deriving DecidableEq

/-- The chain hash of every preceding block plus this block's exact tokens. -/
abbrev BlockKey := Nat × List Token

structure CachedBlock where
  key : BlockKey
  /-- Present while the page is unreferenced (eviction order). -/
  lruTick : Option Nat
  deriving DecidableEq

structure PagedKvCacheManager where
  config : PagedKvCacheConfig
  freePages : Finset KvPageId
  pageRefs : KvPageId → Nat
  pageBlocks : KvPageId → Option CachedBlock
  blockIndex : BlockKey → Option KvPageId
  evictable : BTreeMap KvPageId
  nextTick : Nat
  prefixCaching : Bool
  reusedTokens : Nat
  sequences : BTreeMap SequenceState
  reservations : BTreeMap ReservationState
  nextReservation : Nat

def chainRoot : Nat := 0x527564614B560001

abbrev KvM := M PagedKvCacheManager

namespace PagedKvCacheManager

/-- The struct literal of `new`. -/
def initial (config : PagedKvCacheConfig) : PagedKvCacheManager where
  config
  freePages := Finset.range config.numPages
  pageRefs := fun _ => 0
  pageBlocks := fun _ => none
  blockIndex := fun _ => none
  evictable := ∅
  nextTick := 0
  prefixCaching := false
  reusedTokens := 0
  sequences := ∅
  reservations := ∅
  nextReservation := 1

def new (config : PagedKvCacheConfig) : Except Fault PagedKvCacheManager := do
  config.validate
  return initial config

/-- Pages that an allocation can obtain right now. -/
def availablePages (s : PagedKvCacheManager) : Nat := s.freePages.card + s.evictable.size

def allocatedPageCount (s : PagedKvCacheManager) : Nat := s.config.numPages - s.availablePages

/-- `get_mut(&id)` followed by assignments to the sequence. -/
def putSequence (s : PagedKvCacheManager) (id : RequestId) (q : SequenceState) :
    PagedKvCacheManager :=
  { s with sequences := s.sequences.insert id q }

-- Pages

def dropCachedBlock (s : PagedKvCacheManager) (page : KvPageId) : PagedKvCacheManager :=
  match s.pageBlocks page with
  | none => s
  | some block => { s with
      pageBlocks := Function.update s.pageBlocks page none
      blockIndex :=
        if s.blockIndex block.key = some page then Function.update s.blockIndex block.key none
        else s.blockIndex }

def allocatePage : KvM KvPageId := do
  let s ← get
  let (page, s) ← match popFirst s.freePages with
    | some (page, rest) => pure (page, { s with freePages := rest })
    | none => do
      let ((_, page), rest) ← M.expect s.evictable.popFirst
        "available-page count was checked before allocation"
      pure (page, dropCachedBlock { s with evictable := rest } page)
  if s.pageRefs page ≠ 0 then M.panic "allocated page must be unreferenced"
  else
    set { s with pageRefs := Function.update s.pageRefs page 1 }
    pure page

def acquireCached (page : KvPageId) : KvM Unit := do
  let s ← get
  let s ←
    if s.pageRefs page = 0 then do
      let block ← M.expect (s.pageBlocks page) "indexed page carries its cached block"
      match block.lruTick with
      | none => pure s
      | some tick => pure { s with
          pageBlocks := Function.update s.pageBlocks page (some { block with lruTick := none })
          evictable := s.evictable.erase tick }
    else pure s
  set { s with pageRefs := Function.update s.pageRefs page (wrap32 (s.pageRefs page + 1)) }

def releasePage (page : KvPageId) : KvM Unit := do
  let s ← get
  if s.pageRefs page = 0 then M.panic "released page must be referenced"
  else
    let s := { s with pageRefs := Function.update s.pageRefs page (s.pageRefs page - 1) }
    if s.pageRefs page ≠ 0 then set s
    else if s.prefixCaching ∧ (s.pageBlocks page).isSome then set { s with
        nextTick := s.nextTick + 1
        pageBlocks := Function.update s.pageBlocks page
          ((s.pageBlocks page).map fun block : CachedBlock => { block with lruTick := some s.nextTick })
        evictable := s.evictable.insert s.nextTick page }
    else
      let s := s.dropCachedBlock page
      if page ∈ s.freePages then M.panic "released page must not already be free"
      else set { s with freePages := insert page s.freePages }

/-- `for _ in 0..count { newly_allocated_pages.push(self.allocate_page()) }` -/
def allocatePages : Nat → KvM (List KvPageId)
  | 0 => pure []
  | n + 1 => do
    let page ← allocatePage
    let rest ← allocatePages n
    pure (page :: rest)

def releasePages (pages : List KvPageId) : KvM Unit := pages.forM releasePage

-- Sequences and the prefix cache

/-- Disabling drops every unreferenced cached block. -/
def setPrefixCaching (enabled : Bool) : KvM Unit :=
  modify fun s =>
    let s := { s with prefixCaching := enabled }
    if enabled then s
    else
      let pages := s.evictable.toList.map Prod.snd
      pages.foldl (fun s page =>
        let s := s.dropCachedBlock page
        { s with freePages := insert page s.freePages }) { s with evictable := ∅ }

def sequence (s : PagedKvCacheManager) (id : RequestId) : KvM SequenceState :=
  M.need s.sequences[id]? s!"paged KV sequence {id} does not exist"

def committedTokens (id : RequestId) : KvM Nat := do
  let s ← get
  let q ← s.sequence id
  pure q.committedTokens

def blockTable (id : RequestId) : KvM (List KvPageId) := do
  let s ← get
  let q ← s.sequence id
  pure q.pages

def createSequence (id : RequestId) : KvM Unit := do
  let s ← get
  if s.sequences.contains id then M.fail s!"paged KV sequence {id} already exists"
  else set (s.putSequence id
    { committedTokens := 0, pages := [], pending := none, registeredBlocks := 0, chainHash := chainRoot })

/-- Walks at most `n` blocks from `block`, taking a reference on each page the
index still maps; returns the pages and the chain hash reached. -/
def matchPrefix (chain : ChainHash) (tokens : List Token) :
    (n block parent : Nat) → KvM (List KvPageId × Nat)
  | 0, _, parent => pure ([], parent)
  | n + 1, block, parent => do
    let s ← get
    let blockTokens := blockOf tokens s.config.blockSize block
    match s.blockIndex (parent, blockTokens) with
    | none => pure ([], parent)
    | some page =>
      acquireCached page
      let (pages, last) ← matchPrefix chain tokens n (block + 1) (chain parent blockTokens)
      pure (page :: pages, last)

/-- Map the longest cached prefix of `tokens` made of full blocks, leaving at
least one token to compute. Returns the tokens already present in KV. -/
def createSequenceWithPrefix (chain : ChainHash) (id : RequestId) (tokens : List Token) :
    KvM Nat := do
  createSequence id
  let s ← get
  if !s.prefixCaching || tokens.length ≤ 1 then pure 0
  else
    let blockSize := s.config.blockSize
    let usableBlocks := (tokens.length - 1) / blockSize
    let (pages, parent) ← matchPrefix chain tokens usableBlocks 0 chainRoot
    let matched := pages.length * blockSize
    let s ← get
    let q ← M.expect s.sequences[id]? "sequence was created above"
    set { s.putSequence id { q with
        registeredBlocks := pages.length, chainHash := parent, committedTokens := matched, pages } with
      reusedTokens := s.reusedTokens + matched }
    pure matched

/-- The `while` loop of `register_prefix`; returns the last chain hash. -/
def publishBlocks (chain : ChainHash) (tokens : List Token) (pages : List KvPageId) :
    (n block parent : Nat) → KvM Nat
  | 0, _, parent => pure parent
  | n + 1, block, parent => do
    let s ← get
    let blockTokens := blockOf tokens s.config.blockSize block
    let key := (parent, blockTokens)
    let page ← M.expect pages[block]? "index out of bounds"
    if s.blockIndex key = none ∧ s.pageBlocks page = none then
      set { s with
        blockIndex := Function.update s.blockIndex key (some page)
        pageBlocks := Function.update s.pageBlocks page (some { key, lruTick := none }) }
    publishBlocks chain tokens pages n (block + 1) (chain parent blockTokens)

/-- Publish every newly completed full block of `tokens`. -/
def registerPrefix (chain : ChainHash) (id : RequestId) (tokens : List Token) : KvM Unit := do
  let s ← get
  if !s.prefixCaching then pure ()
  else
    let q ← s.sequence id
    let committed := min q.committedTokens tokens.length
    let complete := committed / s.config.blockSize
    let parent ← publishBlocks chain tokens q.pages (complete - q.registeredBlocks)
      q.registeredBlocks q.chainHash
    let s ← get
    let q ← M.expect s.sequences[id]? "sequence was checked above"
    set (s.putSequence id
      { q with registeredBlocks := max q.registeredBlocks complete, chainHash := parent })

-- Appends

def canAppend (id : RequestId) (tokenCount : Nat) : KvM Bool := do
  let s ← get
  if tokenCount = 0 then pure false
  else
    let q ← s.sequence id
    if q.pending.isSome then pure false
    else match checkedAdd q.committedTokens tokenCount with
      | none => pure false
      | some endPosition =>
        if endPosition > s.config.maxSequenceLength then pure false
        else
          let requiredPages := divCeil endPosition s.config.blockSize
          pure (decide (requiredPages - q.pages.length ≤ s.availablePages))

def beginAppend (id : RequestId) (tokenCount : Nat) : KvM PagedKvAppendReservation := do
  let s ← get
  if tokenCount = 0 then
    M.fail "paged KV append reservation must contain at least one token"
  else
    let q ← s.sequence id
    match q.pending with
    | some reservation =>
      M.fail s!"paged KV sequence {id} already has pending reservation {reservation}"
    | none =>
      let startPosition := q.committedTokens
      let contextLength ← M.need (checkedAdd startPosition tokenCount)
        "paged KV sequence length overflow"
      let capacity := s.config.maxSequenceLength
      if contextLength > capacity then
        M.fail s!"paged KV sequence {id} would grow to {contextLength}, above capacity {capacity}"
      else
        let previousPageCount := q.pages.length
        let requiredPages := divCeil contextLength s.config.blockSize
        let additionalPages := requiredPages - previousPageCount
        let available := s.availablePages
        if additionalPages > available then
          M.fail s!"paged KV append needs {additionalPages} new pages but only {available} are free"
        else
          let reservationId := s.nextReservation
          let nextReservation ← M.need (checkedAdd s.nextReservation 1)
            "paged KV reservation id overflow"
          set { s with nextReservation }
          let newlyAllocatedPages ← allocatePages additionalPages
          let s ← get
          let q ← M.expect s.sequences[id]? "sequence was checked before allocation"
          let blockTable := q.pages ++ newlyAllocatedPages
          let s := s.putSequence id { q with pages := blockTable, pending := some reservationId }
          let r : ReservationState := { requestId := id, previousPageCount, startPosition, tokenCount }
          set { s with reservations := s.reservations.insert reservationId r }
          pure { id := reservationId, requestId := id, startPosition, tokenCount, contextLength,
                 newlyAllocatedPages, blockTable }

def validateReservation (id : KvReservationId) : KvM Unit := do
  let s ← get
  let r ← M.need s.reservations[id]? s!"paged KV reservation {id} does not exist"
  let q ← s.sequence r.requestId
  if q.pending ≠ some id ∨ q.committedTokens ≠ r.startPosition
      ∨ q.pages.length < r.previousPageCount then
    M.fail s!"reservation {id} does not own a consistent sequence state"
  else
    let _ ← M.need (checkedAdd r.startPosition r.tokenCount) "paged KV committed length overflow"
    pure ()

def validateReservationsFrom (seen : Finset KvReservationId) : List KvReservationId → KvM Unit
  | [] => pure ()
  | id :: ids =>
    if id ∈ seen then M.fail s!"duplicate reservation {id}"
    else do
      validateReservation id
      validateReservationsFrom (insert id seen) ids

def validateReservations (ids : List KvReservationId) : KvM Unit := validateReservationsFrom ∅ ids

def takeReservation (id : KvReservationId) : KvM ReservationState := do
  let s ← get
  let r ← M.need s.reservations[id]? s!"paged KV reservation {id} does not exist"
  set { s with reservations := s.reservations.erase id }
  pure r

/-- The common start of `commit_append` and `cancel_append`: take a validated
reservation and the sequence it owns. -/
def takeOwned (id : KvReservationId) : KvM (ReservationState × SequenceState) := do
  validateReservation id
  let r ← takeReservation id
  let s ← get
  let q ← M.need s.sequences[r.requestId]? "reservation references a removed sequence"
  let owner := r.requestId
  if q.pending ≠ some id then
    M.fail s!"reservation {id} does not own sequence {owner} pending state"
  else pure (r, q)

def commitAppend (id : KvReservationId) : KvM Nat := do
  let (r, q) ← takeOwned id
  let contextLength ← M.need (checkedAdd r.startPosition r.tokenCount)
    "paged KV committed length overflow"
  modify fun s => s.putSequence r.requestId
    { q with committedTokens := contextLength, pending := none }
  pure contextLength

/-- Extend an in-flight append for speculative device work. -/
def extendAppend (id : KvReservationId) (extra : Nat) : KvM PagedKvAppendReservation := do
  validateReservation id
  let s ← get
  let r ← M.expect s.reservations[id]? "no entry found for key"
  let count ← M.need (checkedAdd r.tokenCount extra) "lookahead token count overflow"
  let endPosition ← M.need (checkedAdd r.startPosition count) "lookahead context overflow"
  if endPosition > s.config.maxSequenceLength then M.fail "lookahead exceeds sequence capacity"
  else
    let q ← M.expect s.sequences[r.requestId]? "no entry found for key"
    let additional := divCeil endPosition s.config.blockSize - q.pages.length
    if additional > s.availablePages then M.fail "insufficient lookahead pages"
    else
      let newlyAllocatedPages ← allocatePages additional
      let s ← get
      let q ← M.expect s.sequences[r.requestId]? "called `Option::unwrap()` on a `None` value"
      let blockTable := q.pages ++ newlyAllocatedPages
      let s := s.putSequence r.requestId { q with pages := blockTable }
      set { s with reservations := s.reservations.insert id { r with tokenCount := count } }
      pure { id, requestId := r.requestId, startPosition := r.startPosition, tokenCount := count,
             contextLength := endPosition, newlyAllocatedPages, blockTable }

/-- `pages.split_off(at)`, which panics past the end. -/
def splitOff (pages : List KvPageId) (position : Nat) : KvM (List KvPageId × List KvPageId) :=
  if position ≤ pages.length then pure (pages.take position, pages.drop position)
  else M.panic "split index should be <= len"

def commitRow (id : KvReservationId) (count : Nat) : KvM Nat := do
  let s ← get
  let r ← M.expect s.reservations[id]? "called `Option::unwrap()` on a `None` value"
  let q ← M.expect s.sequences[r.requestId]? "called `Option::unwrap()` on a `None` value"
  let position := r.startPosition + count
  let (kept, released) ← splitOff q.pages (divCeil position s.config.blockSize)
  let s := { s with reservations := s.reservations.erase id }
  set (s.putSequence r.requestId { q with pages := kept, committedTokens := position, pending := none })
  releasePages released
  pure position

def commitRows : List (KvReservationId × Nat) → KvM (List Nat)
  | [] => pure []
  | (id, count) :: rows => do
    let position ← commitRow id count
    let positions ← commitRows rows
    pure (position :: positions)

def checkConsumed : List (KvReservationId × Nat) → KvM Unit
  | [] => pure ()
  | (id, count) :: rows => do
    let s ← get
    let r ← M.expect s.reservations[id]? "no entry found for key"
    if count = 0 ∨ count > r.tokenCount then M.fail "invalid consumed lookahead prefix"
    else checkConsumed rows

/-- Commit only the consumed inputs, validating every row first. -/
def commitAppendPrefixes (rows : List (KvReservationId × Nat)) : KvM (List Nat) := do
  validateReservations (rows.map Prod.fst)
  checkConsumed rows
  commitRows rows

/-- Commit only the first `tokenCount` tokens of a reservation and release the
reserved pages that the shorter sequence no longer needs. -/
def commitAppendPartial (id : KvReservationId) (tokenCount : Nat) : KvM Nat := do
  let s ← get
  let r ← M.need s.reservations[id]? s!"paged KV reservation {id} does not exist"
  let limit := r.tokenCount
  if tokenCount = 0 ∨ tokenCount > r.tokenCount then
    M.fail s!"partial commit of {tokenCount} tokens is outside 1..={limit}"
  else
    let contextLength := r.startPosition + tokenCount
    let neededPages := divCeil contextLength s.config.blockSize
    let committed ← commitAppend id
    let s ← get
    let q ← M.expect s.sequences[r.requestId]? "commit validated the sequence"
    if committed < contextLength then M.panic "assertion failed: committed >= context_length"
    else
      -- `split_off` is only reached when the table is longer than needed
      set (s.putSequence r.requestId
        { q with committedTokens := contextLength, pages := q.pages.take neededPages })
      releasePages (q.pages.drop neededPages)
      pure contextLength

def cancelAppend (id : KvReservationId) : KvM Unit := do
  let (r, q) ← takeOwned id
  let (kept, released) ← splitOff q.pages r.previousPageCount
  modify fun s => s.putSequence r.requestId { q with pages := kept, pending := none }
  releasePages released

/-- `m.expect(..)` on a call whose error the caller has ruled out by validating first. -/
def expectOk (message : String) (m : KvM α) : KvM α :=
  tryCatch m fun
    | .error _ => M.panic message
    | .panic message => M.panic message

/-- Commit a group; validation errors leave everything unchanged. -/
def commitAppends (ids : List KvReservationId) : KvM (List Nat) := do
  validateReservations ids
  ids.mapM fun id => expectOk "all reservations were validated before commit" (commitAppend id)

/-- Cancel a group; validation errors leave everything unchanged. -/
def cancelAppends (ids : List KvReservationId) : KvM Unit := do
  validateReservations ids
  ids.forM fun id =>
    expectOk "all reservations were validated before cancellation" (cancelAppend id)

def removeSequence (id : RequestId) : KvM Unit := do
  let s ← get
  let q ← s.sequence id
  match q.pending with
  | some reservation =>
    M.fail s!"cannot remove sequence {id} while reservation {reservation} is pending"
  | none =>
    set { s with sequences := s.sequences.erase id }
    -- The tail first, so earlier blocks are the last to become eviction candidates.
    releasePages q.pages.reverse

end PagedKvCacheManager
end Ruda.Kv
