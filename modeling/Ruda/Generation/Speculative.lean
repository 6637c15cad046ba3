import Ruda.Generation.Decoding

/-!
# Speculative generation

A translation of `generation/speculative.rs` without a sampling policy: the draft model proposes
a block of tokens, one forward of the target gives a row of logits for each, and what the target
would not have chosen is replayed from the caches of before the block.
-/

namespace Ruda.Generation

variable {σ F : Type}

structure SpeculativeGenerationConfig where
  maxNewTokens : Nat
  eosTokenIds : List Int
  draftTokens : Nat

structure SpeculativeStats where
  rounds : Nat
  proposedTokens : Nat
  acceptedTokens : Nat
  rejectedBlocks : Nat
  bonusTokens : Nat
  targetBlockForwards : Nat
  replayedPrefixTokens : Nat
  deriving DecidableEq

structure SpeculativeGenerationOutput where
  output : TokenGenerationOutput
  finishReason : GenerationFinishReason
  stats : SpeculativeStats
  deriving DecidableEq

/-- What the functions of a request share. -/
structure Request (σ F : Type) where
  target : CausalModel F
  draft : CausalModel F
  config : SpeculativeGenerationConfig
  eos : Finset Int
  control : GenerationControl σ
  onToken : OnToken σ
  vocabulary : Nat

def nextRow (model : CausalModel F) (tokens : List Int) (cache : model.Cache) (vocabulary : Nat) :
    M (Session σ) (List F × model.Cache) := do
  let (logits, cache) := model.tryForwardCachedLast tokens cache
  M.failIf (logits.length ≠ vocabulary) s!"expected last logits [1, 1, {vocabulary}], got [1, 1, {logits.length}]"
  pure (logits, cache)

/-- The answer says whether generation stops. -/
def emit (r : Request σ F) (token : Int) (result : SpeculativeGenerationOutput) (matcher : StopSequenceMatcher) :
    M (Session σ) (Bool × SpeculativeGenerationOutput × StopSequenceMatcher) := do
  let output : TokenGenerationOutput := { result.output with
    tokenIds := result.output.tokenIds ++ [token], generatedTokenIds := result.output.generatedTokenIds ++ [token] }
  let (matched, matcher) ← lift (matcher.push token)
  let output := if token ∈ r.eos then { output with stoppedOnEos := true } else output
  let natural :=
    if token ∈ r.eos then some (.eosToken token)
    else match matched with
      | some index => some (.stopSequence index)
      | none => if output.generatedTokenIds.length = r.config.maxNewTokens then some .maxNewTokens else none
  let stops ← notify r.onToken ⟨token, output.generatedTokenIds, natural⟩
  let cancelled ← r.control.cancelled
  match natural with
  | some reason => pure (true, { result with output, finishReason := reason }, matcher)
  | none =>
    if stops ∨ cancelled then pure (true, { result with output, finishReason := .cancelled }, matcher)
    else pure (false, { result with output }, matcher)

/-- The block that the draft proposes. -/
structure Block (Cache F : Type) where
  cancelled : Bool
  candidates : List Int
  next : List F
  cache : Cache

/-- The row that predicts candidate `index`. -/
def pLogits (targetNext : List F) (rows : List (List F)) (index : Nat) : M (Session σ) (List F) :=
  if index = 0 then pure targetNext else M.expect rows[index - 1]? "range end index out of range"

variable [Logit F]

def proposeFrom (r : Request σ F) : (count : Nat) → (candidates : List Int) → (draftNext : List F) → r.draft.Cache →
    M (Session σ) (Block r.draft.Cache F)
  | 0, candidates, draftNext, cache => pure ⟨false, candidates, draftNext, cache⟩
  | count + 1, candidates, draftNext, cache => do
    if ← r.control.cancelled then pure ⟨true, candidates, draftNext, cache⟩
    else do
      let token ← argmax draftNext
      let candidates := candidates ++ [token]
      let (draftNext, cache) ← nextRow r.draft [token] cache r.vocabulary
      if token ∈ r.eos then pure ⟨false, candidates, draftNext, cache⟩
      else proposeFrom r count candidates draftNext cache

/-- How the loop over the candidates ends. -/
inductive Verified
  | stopped (result : SpeculativeGenerationOutput)
  | rejected (committed : List Int) (result : SpeculativeGenerationOutput) (matcher : StopSequenceMatcher)
  | accepted (result : SpeculativeGenerationOutput) (matcher : StopSequenceMatcher)

def verifyFrom (r : Request σ F) (targetNext : List F) (rows : List (List F)) : (candidates : List Int) → (index : Nat) →
    (committed : List Int) → SpeculativeGenerationOutput → StopSequenceMatcher → M (Session σ) Verified
  | [], _, _, result, matcher => pure (.accepted result matcher)
  | candidate :: candidates, index, committed, result, matcher => do
    let logits ← pLogits targetNext rows index
    let token ← argmax logits
    let accepted := token = candidate
    let result := { result with
      stats := if accepted then { result.stats with acceptedTokens := result.stats.acceptedTokens + 1 }
        else { result.stats with rejectedBlocks := result.stats.rejectedBlocks + 1 } }
    let committed := committed ++ [token]
    let (stop, result, matcher) ← emit r token result matcher
    if stop then pure (.stopped result)
    else if accepted then verifyFrom r targetNext rows candidates (index + 1) committed result matcher
    else pure (.rejected committed result matcher)

/-- Replay the committed tokens into both caches. -/
def replay (r : Request σ F) : (committed : List Int) → r.target.Cache → r.draft.Cache → (targetNext draftNext : List F) →
    M (Session σ) (r.target.Cache × r.draft.Cache × List F × List F)
  | [], targetCache, draftCache, targetNext, draftNext => pure (targetCache, draftCache, targetNext, draftNext)
  | token :: committed, targetCache, draftCache, _, _ => do
    let (targetNext, targetCache) ← nextRow r.target [token] targetCache r.vocabulary
    let (draftNext, draftCache) ← nextRow r.draft [token] draftCache r.vocabulary
    replay r committed targetCache draftCache targetNext draftNext

/-- How a round ends. -/
inductive Round (r : Request σ F)
  | done (result : SpeculativeGenerationOutput)
  | next (result : SpeculativeGenerationOutput) (matcher : StopSequenceMatcher) (targetCache : r.target.Cache)
      (draftCache : r.draft.Cache) (targetNext draftNext : List F)

/-- The round after the forward over the block. -/
def settle (r : Request σ F) (result : SpeculativeGenerationOutput) (matcher : StopSequenceMatcher)
    (targetBefore : r.target.Cache) (draftBefore : r.draft.Cache) (targetNext : List F) (block : Block r.draft.Cache F)
    (rows : List (List F)) (targetCache : r.target.Cache) : M (Session σ) (Round r) := do
  match ← verifyFrom r targetNext rows block.candidates 0 [] result matcher with
  | .stopped result => pure (.done result)
  | .rejected committed result matcher => do
    let result := { result with stats := { result.stats with
      replayedPrefixTokens := result.stats.replayedPrefixTokens + committed.length } }
    let (targetCache, draftCache, targetNext, draftNext) ← replay r committed targetBefore draftBefore targetNext block.next
    pure (.next result matcher targetCache draftCache targetNext draftNext)
  | .accepted result matcher => do
    let logits ← M.expect rows[block.candidates.length - 1]? "range start index out of range"
    let bonus ← argmax logits
    let result := { result with stats := { result.stats with bonusTokens := result.stats.bonusTokens + 1 } }
    let (stop, result, matcher) ← emit r bonus result matcher
    if stop then pure (.done result)
    else do
      let (targetNext, targetCache) ← nextRow r.target [bonus] targetCache r.vocabulary
      let (draftNext, draftCache) ← nextRow r.draft [bonus] block.cache r.vocabulary
      pure (.next result matcher targetCache draftCache targetNext draftNext)

/-- One pass of the loop `'generation`. -/
def round (r : Request σ F) (result : SpeculativeGenerationOutput) (matcher : StopSequenceMatcher) (targetCache : r.target.Cache)
    (draftCache : r.draft.Cache) (targetNext draftNext : List F) : M (Session σ) (Round r) := do
  if ← r.control.cancelled then pure (.done { result with finishReason := .cancelled })
  else do
    let count := min r.config.draftTokens (r.config.maxNewTokens - result.output.generatedTokenIds.length)
    let targetBefore := r.target.forkCache targetCache
    let draftBefore := r.draft.forkCache draftCache
    let block ← proposeFrom r count [] draftNext draftCache
    if block.cancelled then pure (.done { result with finishReason := .cancelled })
    else do
      let (rows, targetCache) := r.target.tryForwardCachedBlock block.candidates targetCache
      M.failIf (rows.length ≠ block.candidates.length ∨ ∃ row ∈ rows, row.length ≠ r.vocabulary)
        "expected speculative block logits"
      let result := { result with stats := { result.stats with
        rounds := result.stats.rounds + 1
        targetBlockForwards := result.stats.targetBlockForwards + 1
        proposedTokens := result.stats.proposedTokens + block.candidates.length } }
      if ← r.control.cancelled then pure (.done { result with finishReason := .cancelled })
      else settle r result matcher targetBefore draftBefore targetNext block rows targetCache

/-- The loop `'generation`. Each round commits a token or ends it, so `fuel` bounds the rounds; a
loop that goes on counts as a panic. -/
def roundsFrom (r : Request σ F) : (fuel : Nat) → SpeculativeGenerationOutput → StopSequenceMatcher → r.target.Cache →
    r.draft.Cache → (targetNext draftNext : List F) → M (Session σ) SpeculativeGenerationOutput
  | 0, _, _, _, _, _, _ => M.panic "no end"
  | fuel + 1, result, matcher, targetCache, draftCache, targetNext, draftNext =>
    if result.output.generatedTokenIds.length < r.config.maxNewTokens then do
      match ← round r result matcher targetCache draftCache targetNext draftNext with
      | .done result => pure result
      | .next result matcher targetCache draftCache targetNext draftNext =>
        roundsFrom r fuel result matcher targetCache draftCache targetNext draftNext
    else pure result

def generateCausalSpeculativeStream (target : CausalModel F) (targetLimits : CausalModelLimits) (draft : CausalModel F)
    (draftLimits : CausalModelLimits) (prompt : List Int) (config : SpeculativeGenerationConfig)
    (control : GenerationControl σ) (onToken : OnToken σ) : M (Session σ) SpeculativeGenerationOutput := do
  let ordinary : GreedyGenerationConfig := ⟨config.maxNewTokens, config.eosTokenIds⟩
  let eos ← validateGeneration targetLimits prompt ordinary
  let _ ← validateGeneration draftLimits prompt ordinary
  M.failIf (config.draftTokens = 0 ∨ targetLimits.vocabSize ≠ draftLimits.vocabSize)
    "speculation requires a positive draft length and matching vocabularies"
  control.validate targetLimits.vocabSize
  let result : SpeculativeGenerationOutput := ⟨⟨prompt, [], false⟩, .maxNewTokens, ⟨0, 0, 0, 0, 0, 0, 0⟩⟩
  let cancelled ← control.cancelled
  let result := if cancelled then { result with finishReason := .cancelled } else result
  if config.maxNewTokens = 0 ∨ cancelled then pure result
  else do
    let vocabulary := targetLimits.vocabSize
    let matcher ← lift (StopSequenceMatcher.new control.stopTokenSequences)
    let (targetNext, targetCache) ← nextRow target prompt target.newCache vocabulary
    let (draftNext, draftCache) ← nextRow draft prompt draft.newCache vocabulary
    roundsFrom ⟨target, draft, config, eos, control, onToken, vocabulary⟩ (config.maxNewTokens + 1) result matcher targetCache
      draftCache targetNext draftNext

end Ruda.Generation
