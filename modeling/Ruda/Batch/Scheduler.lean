import Ruda.Kv.Manager

/-!
# The continuous batch scheduler

A translation of `ruLLM/src/continuous_batch.rs` and `continuous_batch/lifecycle.rs`:
admission of queued requests, chunked prefill, decode and speculative batches,
preemption, and the two ways to complete a batch. The KV cache manager is a
field, and its methods run through `kv`.

`u64` counters and `usize` arithmetic without a check wrap, as in a release
build; `debug_assert`s are panics. Of a request's sampler only its presence
matters here. `deferred_prefill` and `admission_ceiling` belong to the device
executors built on the scheduler; none of its own methods sets them.
-/

namespace Ruda.Batch

open Kv

structure ContinuousBatchConfig where
  maxActiveSequences : Nat
  maxBatchTokens : Nat
  deriving DecidableEq

def ContinuousBatchConfig.validate (config : ContinuousBatchConfig) : Except Fault Unit :=
  if config.maxActiveSequences = 0 ∨ config.maxBatchTokens = 0 then
    .error (.error "continuous batch limits must be non-zero")
  else .ok ()

inductive KvAdmissionPolicy
  | onDemand
  | reserveSequenceCapacity
  deriving DecidableEq

structure ContinuousBatchOptions where
  /-- Maximum queued, not active or completed, requests. -/
  maxPendingRequests : Option Nat := none
  kvAdmission : KvAdmissionPolicy := .onDemand
  deriving DecidableEq

def ContinuousBatchOptions.validate (options : ContinuousBatchOptions) : Except Fault Unit :=
  if options.maxPendingRequests = some 0 then
    .error (.error "max_pending_requests must be positive when set")
  else .ok ()

inductive ScheduledBatchKind
  | prefill
  | decode
  /-- Each row is `[last token, draft...]`; only the verified prefix is committed. -/
  | verify
  deriving DecidableEq

structure SpeculativeConfig where
  draftTokens : Nat
  ngram : Nat
  draftTokens_le : draftTokens ≤ usizeMax := by decide
  ngram_le : ngram ≤ usizeMax := by decide

structure ScheduledSequence where
  requestId : RequestId
  tokenIds : List Token
  startPosition : Nat
  contextLength : Nat
  blockTable : List KvPageId
  reservationId : KvReservationId
  deriving DecidableEq

structure ScheduledBatch where
  id : Nat
  kind : ScheduledBatchKind
  sequences : List ScheduledSequence
  deriving DecidableEq

def ScheduledBatch.batchSize (batch : ScheduledBatch) : Nat := batch.sequences.length

def ScheduledBatch.nextN (batch : ScheduledBatch) : Nat :=
  batch.sequences.head?.elim 0 fun row => row.tokenIds.length

structure FinishedGeneration where
  requestId : RequestId
  promptTokenIds : List Token
  generatedTokenIds : List Token
  stoppedOnEos : Bool
  deriving DecidableEq

structure GreedyGenerationConfig where
  maxNewTokens : Nat
  eosTokenIds : List Token
  deriving DecidableEq

structure PendingRequest where
  id : RequestId
  promptTokenIds : List Token
  generation : GreedyGenerationConfig
  /-- `sampler.is_some()` -/
  sampled : Bool
  deriving DecidableEq

inductive RequestPhase
  /-- `history[committed..]` still has to be written to KV. -/
  | needsPrefill
  | awaitingDecode (token : Token)
  | inFlight (batch : Nat)
  deriving DecidableEq

structure ActiveRequest where
  promptTokenIds : List Token
  generation : GreedyGenerationConfig
  sampled : Bool
  eos : Finset Token
  generatedTokenIds : List Token
  /-- Prompt followed by every generated token. -/
  history : List Token
  admitted : Nat
  phase : RequestPhase
  deriving DecidableEq

structure CancelledGeneration where
  requestId : RequestId
  promptTokenIds : List Token
  generatedTokenIds : List Token
  deriving DecidableEq

structure ContinuousBatchScheduler where
  config : ContinuousBatchConfig
  options : ContinuousBatchOptions
  kvCache : PagedKvCacheManager
  pending : List PendingRequest
  deferredPrefill : Finset RequestId
  active : BTreeMap ActiveRequest
  finished : List FinishedGeneration
  inFlight : Option ScheduledBatch
  preferPrefill : Bool
  nextRequest : Nat
  nextBatch : Nat
  nextBatch_le : nextBatch ≤ u64Max
  prefillChunkTokens : Option Nat
  admissionCeiling : Option RequestId
  recomputePreemption : Bool
  nextAdmission : Nat
  preemptions : Nat
  speculative : Option SpeculativeConfig
  speculativeTurn : Bool
  draftedTokens : Nat
  acceptedDraftTokens : Nat

abbrev BatchM := M ContinuousBatchScheduler

namespace ContinuousBatchScheduler

-- Construction

/-- The struct literal of `with_options`. -/
def initial (config : ContinuousBatchConfig) (kvCache : PagedKvCacheManager)
    (options : ContinuousBatchOptions) : ContinuousBatchScheduler where
  config
  options
  kvCache
  pending := []
  deferredPrefill := ∅
  active := ∅
  finished := []
  inFlight := none
  preferPrefill := true
  nextRequest := 1
  nextBatch := 1
  nextBatch_le := by decide
  prefillChunkTokens := none
  admissionCeiling := none
  recomputePreemption := false
  nextAdmission := 0
  preemptions := 0
  speculative := none
  speculativeTurn := false
  draftedTokens := 0
  acceptedDraftTokens := 0

def withOptions (config : ContinuousBatchConfig) (kvConfig : PagedKvCacheConfig)
    (options : ContinuousBatchOptions) : Except Fault ContinuousBatchScheduler := do
  config.validate
  options.validate
  let kvCache ← PagedKvCacheManager.new kvConfig
  return initial config kvCache options

def new (config : ContinuousBatchConfig) (kvConfig : PagedKvCacheConfig) :
    Except Fault ContinuousBatchScheduler :=
  withOptions config kvConfig {}

def newPaged (config : ContinuousBatchConfig) (kvConfig : PagedKvCacheConfig) :
    Except Fault ContinuousBatchScheduler := do
  let scheduler ← new config kvConfig
  return { scheduler with
    prefillChunkTokens := some config.maxBatchTokens, recomputePreemption := true }

-- Fields

/-- A method of `self.kv_cache`; its errors are passed on as they are. -/
def kv (m : KvM α) : BatchM α := M.zoom kvCache (fun s kvCache => { s with kvCache }) m

/-- `active.insert(id, ..)`, or assignments through `active.get_mut(&id)`. -/
def putActive (s : ContinuousBatchScheduler) (id : RequestId) (request : ActiveRequest) :
    ContinuousBatchScheduler :=
  { s with active := s.active.insert id request }

def samplesToken (s : ContinuousBatchScheduler) (row : ScheduledSequence) : Bool :=
  s.active[row.requestId]?.any fun request => request.history.length ≤ row.contextLength

def requestPageBudget (promptLength : Nat) (generation : GreedyGenerationConfig)
    (blockSize : Nat) : Nat :=
  divCeil (promptLength + (generation.maxNewTokens - 1)) blockSize

def setPrefixCaching (enabled : Bool) : BatchM Unit := kv (PagedKvCacheManager.setPrefixCaching enabled)

def setSpeculativeDecoding (config : Option SpeculativeConfig) : BatchM Unit := do
  M.failIf (config.any fun config => config.draftTokens = 0 ∨ config.ngram = 0)
    "speculative draft_tokens and ngram must be non-zero"
  modify fun s => { s with speculative := config }

/-- Chunked prefill can advance one token at a time, whereas whole-prompt
prefill must fit every waiting prompt. -/
def minimumBatchTokenLimit (s : ContinuousBatchScheduler) : Nat :=
  if s.prefillChunkTokens.isSome then 1
  else
    let waiting := s.pending.map fun request => request.promptTokenIds.length
    let active := (s.active.toList.filter fun e => e.2.phase = .needsPrefill).map
      fun e => e.2.promptTokenIds.length
    (waiting ++ active).foldr max 1

def setBatchTokenLimit (limit : Nat) : BatchM Unit := do
  let s ← get
  M.failIf s.inFlight.isSome "cannot change token limit while a batch is in flight"
  let minimum := s.minimumBatchTokenLimit
  M.failIf (limit < minimum)
    s!"token limit {limit} would strand a prompt requiring {minimum} tokens"
  set { s with config := { s.config with maxBatchTokens := limit } }

def popFinished : BatchM (Option FinishedGeneration) := do
  let s ← get
  match s.finished with
  | [] => pure none
  | generation :: rest =>
    set { s with finished := rest }
    pure (some generation)

-- Requests

def submitWithSampler (promptTokenIds : List Token) (generation : GreedyGenerationConfig)
    (sampled : Bool) : BatchM RequestId := do
  let s ← get
  M.failIf (promptTokenIds = []) "continuous generation prompt must not be empty"
  let prompt := promptTokenIds.length
  let limit := s.config.maxBatchTokens
  M.failIf (s.prefillChunkTokens = none ∧ prompt > limit)
    s!"prompt has {prompt} tokens, above max_batch_tokens {limit}"
  let total ← M.need (checkedAdd prompt generation.maxNewTokens) "request sequence length overflow"
  let capacity := s.kvCache.config.maxSequenceLength
  M.failIf (total > capacity) s!"request length {total} exceeds paged KV capacity {capacity}"
  M.failIf (∃ id ∈ promptTokenIds ++ generation.eosTokenIds, id < 0)
    "prompt and EOS token IDs must be non-negative"
  let required := match s.options.kvAdmission with
    | .onDemand => divCeil prompt s.kvCache.config.blockSize
    | .reserveSequenceCapacity => requestPageBudget prompt generation s.kvCache.config.blockSize
  let pool := s.kvCache.config.numPages
  M.failIf (generation.maxNewTokens > 0 ∧ required > pool)
    s!"request needs {required} KV pages under the admission policy, but the pool has {pool}"
  M.failIf (generation.maxNewTokens > 0 ∧ s.options.maxPendingRequests.any (· ≤ s.pending.length))
    "pending request queue is full"
  let id := s.nextRequest
  let nextRequest ← M.need (checkedAdd s.nextRequest 1) "request id overflow"
  if generation.maxNewTokens = 0 then
    let result : FinishedGeneration :=
      { requestId := id, promptTokenIds, generatedTokenIds := [], stoppedOnEos := false }
    set { s with nextRequest, finished := s.finished ++ [result] }
  else
    let request : PendingRequest := { id, promptTokenIds, generation, sampled }
    set { s with nextRequest, pending := s.pending ++ [request] }
  pure id

def cancel (requestId : RequestId) : BatchM (Option CancelledGeneration) := do
  let s ← get
  match s.pending.find? fun request => request.id = requestId with
  | some request =>
    set { s with
      pending := s.pending.eraseP fun request => request.id = requestId
      deferredPrefill := s.deferredPrefill.erase requestId }
    pure (some { requestId, promptTokenIds := request.promptTokenIds, generatedTokenIds := [] })
  | none =>
    match s.active[requestId]? with
    | none => pure none
    | some request =>
      match request.phase with
      | .inFlight batchId =>
        M.fail s!"request {requestId} belongs to in-flight batch {batchId}; finish device work before cancelling"
      | _ =>
        kv (PagedKvCacheManager.removeSequence requestId)
        modify fun s => { s with
          active := s.active.erase requestId
          deferredPrefill := s.deferredPrefill.erase requestId }
        pure (some { requestId, promptTokenIds := request.promptTokenIds,
                     generatedTokenIds := request.generatedTokenIds })

-- Admission

/-- Pages left for admission once every active budget is taken off. -/
def subtractBudgets (blockSize : Nat) : List (RequestId × ActiveRequest) → Nat → Option Nat
  | [], available => some available
  | (_, request) :: rest, available =>
    let pages := requestPageBudget request.promptTokenIds.length request.generation blockSize
    if pages ≤ available then subtractBudgets blockSize rest (available - pages) else none

/-- Neither deferred nor past the admission ceiling. -/
def admissible (s : ContinuousBatchScheduler) (request : PendingRequest) : Bool :=
  decide (request.id ∉ s.deferredPrefill) && s.admissionCeiling.all (request.id < ·)

def activate (request : PendingRequest) (admitted : Nat) : ActiveRequest where
  promptTokenIds := request.promptTokenIds
  generation := request.generation
  sampled := request.sampled
  eos := request.generation.eosTokenIds.toFinset
  generatedTokenIds := []
  history := request.promptTokenIds
  admitted
  phase := .needsPrefill

variable (chain : ChainHash)

/-- The `while` loop of `promote_pending`. Every round but the last takes one
request off the queue, so its length bounds the rounds. -/
def promote : (rounds available : Nat) → BatchM Unit
  | 0, _ => pure ()
  | rounds + 1, available => do
    let s ← get
    if s.active.size < s.config.maxActiveSequences then
      match s.pending.find? s.admissible with
      | none => pure ()
      | some request =>
        let pages := match s.options.kvAdmission with
          | .onDemand => 0
          | .reserveSequenceCapacity => requestPageBudget request.promptTokenIds.length
              request.generation s.kvCache.config.blockSize
        if pages > available then pure ()
        else
          set { s with pending := s.pending.eraseP s.admissible }
          let _ ← kv (PagedKvCacheManager.createSequenceWithPrefix chain request.id
            request.promptTokenIds)
          modify fun s => { s.putActive request.id (activate request s.nextAdmission) with
            nextAdmission := wrap64 (s.nextAdmission + 1) }
          promote rounds (available - pages)
    else pure ()

/-- What the policy leaves for new requests. -/
def availableBudget (s : ContinuousBatchScheduler) : Option Nat :=
  match s.options.kvAdmission with
  | .onDemand => some s.kvCache.config.numPages
  | .reserveSequenceCapacity =>
    subtractBudgets s.kvCache.config.blockSize s.active.toList s.kvCache.config.numPages

def promotePending : BatchM Unit := do
  let s ← get
  let available ← M.need s.availableBudget "active KV page budgets exceed the pool"
  promote chain s.pending.length available

-- Scheduling

def rollbackScheduledRows (rows : List ScheduledSequence) : BatchM Unit :=
  kv (PagedKvCacheManager.cancelAppends (rows.map fun row => row.reservationId))

/-- `get_mut(&id).ok_or_else(..)?.phase = phase` -/
def setPhase (id : RequestId) (phase : RequestPhase) : BatchM Unit := do
  let s ← get
  let request ← M.need s.active[id]? s!"scheduled request {id} disappeared"
  set (s.putActive id { request with phase })

def finishSchedule (kind : ScheduledBatchKind) (rows : List ScheduledSequence) :
    BatchM (Option ScheduledBatch) :=
  if rows = [] then pure none
  else do
    let s ← get
    let id := s.nextBatch
    match hid : checkedAdd s.nextBatch 1 with
    | none =>
      rollbackScheduledRows rows
      M.fail "batch id overflow"
    | some nextBatch =>
      if ∃ row ∈ rows, s.active[row.requestId]? = none then
        rollbackScheduledRows rows
        M.fail "scheduled request disappeared"
      else
        set { s with nextBatch, nextBatch_le := checkedAdd_le hid }
        rows.forM fun row => setPhase row.requestId (.inFlight id)
        pure (some { id, kind, sequences := rows })

def scheduledSequence (reservation : PagedKvAppendReservation) (tokenIds : List Token) :
    ScheduledSequence where
  requestId := reservation.requestId
  tokenIds
  startPosition := reservation.startPosition
  contextLength := reservation.contextLength
  blockTable := reservation.blockTable
  reservationId := reservation.id

/-- The row loop of the three schedulers: up to `limit` candidates that still fit
reserve `width` tokens each. `undo` is what a failed reservation runs on the rows
before it; `tokensOf` builds the input of a row. -/
def reserveRows (limit width : Nat) (undo : List ScheduledSequence → BatchM Unit)
    (tokensOf : RequestId → κ → BatchM (List Token)) :
    List (RequestId × κ) → List ScheduledSequence → BatchM (List ScheduledSequence)
  | [], rows => pure rows
  | (id, candidate) :: rest, rows =>
    if limit ≤ rows.length then pure rows
    else do
      if ← kv (PagedKvCacheManager.canAppend id width) then
        let tokens ← tokensOf id candidate
        let reservation ← (kv (PagedKvCacheManager.beginAppend id width)).onError (undo rows)
        reserveRows limit width undo tokensOf rest (rows ++ [scheduledSequence reservation tokens])
      else reserveRows limit width undo tokensOf rest rows

/-- The draft found where the last `n` tokens of `history` also stand at `start`. -/
def draftAt (history : List Token) (draftTokens n start : Nat) : Option (List Token) :=
  if (history.drop start).take n = history.drop (history.length - n) then
    let first := start + n
    let last := min (wrap64 (first + draftTokens)) history.length
    if first < last then some ((history.drop first).take (last - first)) else none
  else none

/-- Most recent earlier occurrence of the last `ngram` tokens of `history`,
followed by up to `draftTokens` continuation tokens. -/
def ngramDraft (history : List Token) (ngram draftTokens : Nat) : List Token :=
  let lengths := (List.range' 1 (min ngram (history.length - 1))).reverse
  let found := lengths.findSome? fun n =>
    (List.range (history.length - n)).reverse.findSome? (draftAt history draftTokens n)
  found.getD []

def verifyCandidate (config : SpeculativeConfig) (width : Nat) (id : RequestId)
    (request : ActiveRequest) : BatchM (Option (Token × List Token)) :=
  match request.phase with
  | .awaitingDecode token =>
    let remaining := wrapSub request.generation.maxNewTokens request.generatedTokenIds.length
    let draft := ngramDraft request.history config.ngram config.draftTokens
    if request.sampled ∨ remaining < 2 ∨ draft = [] then pure none
    else do
      let fits ← kv (PagedKvCacheManager.canAppend id width)
      pure (if fits then some (token, draft) else none)
  | _ => pure none

/-- `for (&id, request) in &self.active`, keeping what `select` returns. -/
def collect (select : RequestId → ActiveRequest → BatchM (Option κ)) :
    List (RequestId × ActiveRequest) → BatchM (List (RequestId × κ))
  | [] => pure []
  | (id, request) :: rest => do
    let found ← select id request
    let others ← collect select rest
    pure (match found with
      | some candidate => (id, candidate) :: others
      | none => others)

/-- Uniform row width: the draft is padded with its last token. -/
def verifyTokens (config : SpeculativeConfig) (candidate : Token × List Token) :
    BatchM (List Token) := do
  let pad ← M.expect candidate.2.getLast? "draft is non-empty"
  let draft := candidate.2.take config.draftTokens ++
    List.replicate (config.draftTokens - candidate.2.length) pad
  pure (candidate.1 :: draft)

/-- Greedy rows with an n-gram draft, each appending `[last, draft...]`. A failed
reservation leaves the rows before it reserved. -/
def scheduleVerify : BatchM (Option ScheduledBatch) := do
  let s ← get
  match s.speculative with
  | none => pure none
  | some config =>
    let width := wrap64 (config.draftTokens + 1)
    if width = 0 then M.panic "attempt to divide by zero"
    else
      let maxRows := s.config.maxBatchTokens / width
      if maxRows = 0 then pure none
      else
        let candidates ← collect (verifyCandidate config width) s.active.toList
        let rows ← reserveRows maxRows width (fun _ => pure ()) (fun _ => verifyTokens config)
          candidates []
        finishSchedule .verify rows

def decodeCandidate (_ : RequestId) (request : ActiveRequest) : BatchM (Option Token) :=
  match request.phase with
  | .awaitingDecode token => pure (some token)
  | _ => pure none

def scheduleDecode : BatchM (Option ScheduledBatch) := do
  let s ← get
  let candidates ← collect decodeCandidate s.active.toList
  let rows ← reserveRows s.config.maxBatchTokens 1 rollbackScheduledRows
    (fun _ token => pure [token]) candidates []
  finishSchedule .decode rows

/-- Next prefill chunk of a request: start and length. -/
def prefillChunk (id : RequestId) (request : ActiveRequest) : BatchM (Nat × Nat) := do
  let committed ← kv (PagedKvCacheManager.committedTokens id)
  let s ← get
  let remaining := request.history.length - committed
  pure (committed,
    min (min remaining (s.prefillChunkTokens.getD remaining)) s.config.maxBatchTokens)

/-- Requests by chunk length and by whether the chunk starts past position 0. -/
abbrev Buckets := List ((Nat × Bool) × List RequestId)

/-- `buckets.entry(key).or_default().push(id)`; keys stay in order. -/
def Buckets.push (key : Nat × Bool) (id : RequestId) : Buckets → Buckets
  | [] => [(key, [id])]
  | (key', ids) :: rest =>
    match (compare key.1 key'.1).then (compare key.2 key'.2) with
    | .lt => (key, [id]) :: (key', ids) :: rest
    | .eq => (key', ids ++ [id]) :: rest
    | .gt => (key', ids) :: Buckets.push key id rest

/-- The chunk length and position flag under which `request` can be prefilled now. -/
def prefillCandidate (id : RequestId) (request : ActiveRequest) : BatchM (Option (Nat × Bool)) := do
  let (position, next) ← prefillChunk id request
  let s ← get
  if request.phase = .needsPrefill ∧ id ∉ s.deferredPrefill ∧ next > 0 then
    let fits ← kv (PagedKvCacheManager.canAppend id next)
    pure (if fits then some (next, position ≠ 0) else none)
  else pure none

/-- The order of `max_by`: fuller batches, then the oldest request. -/
def compareBuckets (maxBatchTokens : Nat) (left right : (Nat × Bool) × List RequestId) : Ordering :=
  let tokens := fun bucket : (Nat × Bool) × List RequestId =>
    min bucket.2.length (maxBatchTokens / bucket.1.1) * bucket.1.1
  (compare (tokens left) (tokens right)).then (compare (right.2.headD 0) (left.2.headD 0))

/-- The input of a prefill row. -/
def prefillTokens (nextN : Nat) (id : RequestId) : BatchM (List Token) := do
  let s ← get
  let request ← M.expect s.active[id]? "no entry found for key"
  let (start, length) ← prefillChunk id request
  if length ≠ nextN then M.panic "assertion `left == right` failed"
  else if start + length > request.history.length then M.panic "range end index out of range"
  else pure ((request.history.drop start).take length)

def schedulePrefill : BatchM (Option ScheduledBatch) := do
  let s ← get
  let candidates ← collect prefillCandidate s.active.toList
  let buckets : Buckets := candidates.foldl (fun buckets c => buckets.push c.2 c.1) []
  match maxBy (compareBuckets s.config.maxBatchTokens) buckets with
  | none => pure none
  | some ((nextN, _), ids) =>
    let rows ← reserveRows (s.config.maxBatchTokens / nextN) nextN rollbackScheduledRows
      (fun id _ => prefillTokens nextN id) (ids.map fun id => (id, ())) []
    finishSchedule .prefill rows

/-- `if let Some(batch) = m? { self.prefer_prefill = ..; return Ok(Some(batch)) }`,
then `next`. -/
def takeTurn (m : BatchM (Option ScheduledBatch)) (preferPrefill : Bool)
    (next : BatchM (Option ScheduledBatch)) : BatchM (Option ScheduledBatch) := do
  match ← m with
  | some batch =>
    modify fun s => { s with preferPrefill }
    pure (some batch)
  | none => next

/-- `flag && let Some(batch) = m?` -/
def onlyIf (flag : Bool) (m : BatchM (Option ScheduledBatch)) : BatchM (Option ScheduledBatch) :=
  if flag then m else pure none

/-- Prefill in turn with decode, and speculative decode in turn with plain decode. -/
def trySchedule : BatchM (Option ScheduledBatch) := do
  let s ← get
  takeTurn (onlyIf s.preferPrefill schedulePrefill) false do
    modify fun s => { s with speculativeTurn := !s.speculativeTurn }
    let s ← get
    takeTurn (onlyIf s.speculativeTurn scheduleVerify) true
      (takeTurn scheduleDecode true (takeTurn schedulePrefill false (pure none)))

/-- The admission number of a request that holds pages and is not in flight. -/
def pageHolder (id : RequestId) (request : ActiveRequest) : BatchM (Option Nat) :=
  match request.phase with
  | .inFlight _ => pure none
  | _ => do
    let table ← kv (PagedKvCacheManager.blockTable id)
    pure (if table = [] then none else some request.admitted)

/-- The order of `(admitted, id)`. -/
def compareHolders (left right : RequestId × Nat) : Ordering :=
  (compare left.2 right.2).then (compare left.1 right.1)

/-- Release the KV pages of the newest page-holding request when at least one
other request also holds pages. -/
def preemptNewest : BatchM Bool := do
  let s ← get
  let holders ← collect pageHolder s.active.toList
  if holders.length ≤ 1 then pure false
  else
    let (victim, _) ← M.expect (maxBy compareHolders holders) "at least two holders"
    kv (PagedKvCacheManager.removeSequence victim)
    kv (PagedKvCacheManager.createSequence victim)
    let s ← get
    let request ← M.expect s.active[victim]? "victim came from the active map"
    set { s.putActive victim { request with phase := .needsPrefill } with
      preemptions := wrap64 (s.preemptions + 1)
      preferPrefill := false }
    pure true

/-- The `loop` of `schedule`. Every round but the last empties one block table,
so `rounds` never runs out when it exceeds their number. -/
def scheduleLoop : (rounds : Nat) → BatchM (Option ScheduledBatch)
  | 0 => M.panic "more preemptions than block tables"
  | rounds + 1 => do
    match ← trySchedule with
    | some batch =>
      modify fun s => { s with inFlight := some batch }
      pure (some batch)
    | none =>
      let s ← get
      if s.recomputePreemption then
        if ← preemptNewest then scheduleLoop rounds else pure none
      else pure none

/-- Build the next device batch. At most one batch is in flight. -/
def schedule : BatchM (Option ScheduledBatch) := do
  let s ← get
  match s.inFlight with
  | some batch =>
    let id := batch.id
    M.fail s!"batch {id} is still in flight"
  | none =>
    M.failIf (s.nextBatch = u64Max) "batch id overflow"
    promotePending chain
    let s ← get
    scheduleLoop (s.kvCache.sequences.size + 1)

-- Completion

def takeBatch (batchId : Nat) : BatchM ScheduledBatch := do
  let s ← get
  let batch ← M.need s.inFlight s!"batch {batchId} is not in flight"
  let actual := batch.id
  M.failIf (actual ≠ batchId)
    s!"batch {batchId} cannot complete while batch {actual} is in flight"
  set { s with inFlight := none }
  pure batch

/-- `self.in_flight = Some(batch)` -/
def restore (batch : ScheduledBatch) : BatchM Unit := modify fun s => { s with inFlight := some batch }

/-- Why `row` may not be completed under batch `batchId`. -/
def ownershipError (s : ContinuousBatchScheduler) (batchId : Nat) (row : ScheduledSequence) :
    Option String :=
  let id := row.requestId
  match s.active[id]? with
  | none => some s!"batch references missing request {id}"
  | some request =>
    if request.phase = .inFlight batchId then none
    else some s!"request {id} is not owned by batch {batchId}"

/-- The request, already extended by the tokens ending in `last`, leaves when it
stopped and waits for its next decode otherwise. -/
def settleRequest (id : RequestId) (request : ActiveRequest) (last : Token) : BatchM Unit :=
  if last ∈ request.eos ∨ request.generation.maxNewTokens ≤ request.generatedTokenIds.length then do
    modify fun s => { s with active := s.active.erase id }
    kv (PagedKvCacheManager.removeSequence id)
    modify fun s => { s with finished := s.finished ++
      [{ requestId := id, promptTokenIds := request.promptTokenIds,
         generatedTokenIds := request.generatedTokenIds, stoppedOnEos := last ∈ request.eos }] }
  else modify fun s => s.putActive id { request with phase := .awaitingDecode last }

/-- `request` with the tokens of one batch appended. -/
def extendRequest (request : ActiveRequest) (tokens : List Token) : ActiveRequest :=
  { request with
    generatedTokenIds := request.generatedTokenIds ++ tokens
    history := request.history ++ tokens }

def completeRow (row : ScheduledSequence) (token : Token) : BatchM Unit := do
  let s ← get
  let request ← M.expect s.active[row.requestId]? "batch ownership was validated before KV commit"
  if row.contextLength < request.history.length then
    set (s.putActive row.requestId { request with phase := .needsPrefill })
  else
    settleRequest row.requestId (extendRequest request [token]) token

/-- `self.kv_cache.register_prefix(id, &request.history)?` -/
def registerRow (row : ScheduledSequence) : BatchM Unit := do
  let s ← get
  let request ← M.expect s.active[row.requestId]? "no entry found for key"
  kv (PagedKvCacheManager.registerPrefix chain row.requestId request.history)

/-- Commit every page reservation and apply one token per token-producing row. -/
def completeBatch (batchId : Nat) (generated : List Token) : BatchM Unit := do
  let batch ← takeBatch batchId
  let rows := batch.sequences.length
  let supplied := generated.length
  if supplied ≠ rows then
    restore batch
    M.fail s!"batch {batchId} has {rows} rows but {supplied} generated tokens were supplied"
  else
    let s ← get
    if ∃ e ∈ batch.sequences.zip generated, s.samplesToken e.1 = true ∧ e.2 < 0 then
      restore batch
      M.fail "generated token IDs must be non-negative"
    else
      match batch.sequences.findSome? (s.ownershipError batchId) with
      | some error =>
        restore batch
        M.fail error
      | none =>
        let _ ← (kv (PagedKvCacheManager.commitAppendPrefixes
          (batch.sequences.map fun row => (row.reservationId, row.tokenIds.length)))).onError
            (restore batch)
        batch.sequences.forM (registerRow chain)
        (batch.sequences.zip generated).forM fun e => completeRow e.1 e.2

/-- The phase from which `row` was scheduled. -/
def phaseBefore (kind : ScheduledBatchKind) (row : ScheduledSequence) : BatchM RequestPhase :=
  match kind with
  | .prefill => pure .needsPrefill
  | .decode | .verify => do
    let token ← M.expect row.tokenIds.head? "index out of bounds"
    pure (.awaitingDecode token)

def undoRow (kind : ScheduledBatchKind) (row : ScheduledSequence) : BatchM Unit := do
  let s ← get
  let request ← M.expect s.active[row.requestId]? "batch ownership was validated before cancellation"
  let phase ← phaseBefore kind row
  set (s.putActive row.requestId { request with phase })

/-- Roll back all page allocations of a failed device batch and restore the
requests to the state from which it was scheduled. -/
def failBatch (batchId : Nat) : BatchM Unit := do
  let batch ← takeBatch batchId
  let s ← get
  if ∃ row ∈ batch.sequences, s.active[row.requestId]?.all (·.phase ≠ .inFlight batchId) then
    restore batch
    M.fail "failed batch does not own every request"
  else
    (kv (PagedKvCacheManager.cancelAppends (batch.sequences.map fun row => row.reservationId))).onError
      (restore batch)
    batch.sequences.forM (undoRow batch.kind)

/-- The prediction loop over one verified row: the tokens produced, or `none` for
a draft index out of bounds. -/
def acceptDraft (remaining : Nat) (eos : Finset Token) (width : Nat) (draft : List Token) :
    (position : Nat) → (produced predictions : List Token) → Option (List Token)
  | _, produced, [] => some produced
  | position, produced, prediction :: rest =>
    let produced := produced ++ [prediction]
    if produced.length = remaining ∨ prediction ∈ eos then some produced
    else if position + 1 ≥ width then some produced
    else match draft[position + 1]? with
      | none => none
      | some token =>
        if token = prediction then acceptDraft remaining eos width draft (position + 1) produced rest
        else some produced

def verifyRow (width : Nat) (row : ScheduledSequence) (predictions : List Token) :
    BatchM (RequestId × List Token) := do
  let s ← get
  let id := row.requestId
  let request ← M.need s.active[id]? s!"batch references missing request {id}"
  let remaining := wrapSub request.generation.maxNewTokens request.generatedTokenIds.length
  let produced ← M.expect (acceptDraft remaining request.eos width row.tokenIds 0 [] predictions)
    "index out of bounds"
  set { s with
    draftedTokens := wrap64 (s.draftedTokens + wrapSub width 1)
    acceptedDraftTokens := wrap64 (s.acceptedDraftTokens + wrapSub produced.length 1) }
  -- inputs t0 and the first `produced.length - 1` drafts are valid
  let _ ← kv (PagedKvCacheManager.commitAppendPartial row.reservationId produced.length)
  let s ← get
  let request ← M.expect s.active[id]? "checked above"
  let request := extendRequest request produced
  set (s.putActive id request)
  let last ← M.expect produced.getLast? "at least one token is produced"
  kv (PagedKvCacheManager.registerPrefix chain id request.history)
  settleRequest id request last
  pure (id, produced)

/-- Rows in order, each with its slice of the argmax matrix. -/
def verifyRows (width : Nat) (argmax : List Token) :
    (row : Nat) → List ScheduledSequence → BatchM (List (RequestId × List Token))
  | _, [] => pure []
  | i, row :: rest => do
    let appended ← verifyRow chain width row (blockOf argmax width i)
    let others ← verifyRows width argmax (i + 1) rest
    pure (appended :: others)

/-- Commit a verification batch from per-position argmax `[rows, width]`. -/
def completeVerifyBatch (batchId : Nat) (argmax : List Token) :
    BatchM (List (RequestId × List Token)) := do
  let batch ← takeBatch batchId
  let width := batch.nextN
  if batch.kind ≠ .verify ∨ argmax.length ≠ batch.batchSize * width then
    restore batch
    M.fail "verification argmax does not match the in-flight batch"
  else verifyRows chain width argmax 0 batch.sequences

end ContinuousBatchScheduler
end Ruda.Batch
