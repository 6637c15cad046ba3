import Ruda.Lib.Exec
import Ruda.Generation.Control

/-!
# Generating tokens

A translation of the parts of `generation.rs` and `generation/control.rs` that
`generate_with_selector_stream` runs. Devices do what they are told, so a forward gives
logits; what they are is a parameter. The callback has a state of its own, which may also say
whether the request is cancelled: a flag that another thread sets at some time is left out.
-/

namespace Ruda.Generation

/-- What generation asks of an `f32`. -/
class Logit (F : Type) where
  isNan : F → Bool
  /-- `value > maximum` -/
  gt : F → F → Bool

structure CausalModelLimits where
  vocabSize : Nat
  maxSequenceLength : Nat

/-- `CausalModel` and `SpeculativeModel`. Of the logits of a forward, the last row is kept, or the
row of each token of a block. -/
structure CausalModel (F : Type) where
  Cache : Type
  newCache : Cache
  forkCache : Cache → Cache
  tryForwardCachedLast : List Int → Cache → List F × Cache
  tryForwardCachedBlock : List Int → Cache → List (List F) × Cache

structure GreedyGenerationConfig where
  maxNewTokens : Nat
  eosTokenIds : List Int

inductive GenerationFinishReason
  | maxNewTokens
  | eosToken (token : Int)
  | stopSequence (index : Nat)
  | cancelled
  deriving DecidableEq

structure GenerationEvent where
  tokenId : Int
  generatedTokenIds : List Int
  finishReason : Option GenerationFinishReason
  deriving DecidableEq

structure TokenGenerationOutput where
  tokenIds : List Int
  generatedTokenIds : List Int
  stoppedOnEos : Bool
  deriving DecidableEq

structure ControlledGenerationOutput where
  output : TokenGenerationOutput
  finishReason : GenerationFinishReason
  deriving DecidableEq

/-- The callback's state, and the events it was called with. -/
structure Session (σ : Type) where
  state : σ
  events : List GenerationEvent

structure GenerationControl (σ : Type) where
  stopTokenSequences : List (List Int)
  isCancelled : σ → Bool

variable {σ F α : Type}

/-- A callback answers whether to break. -/
abbrev OnToken (σ : Type) := GenerationEvent → σ → Bool × σ

def notify (onToken : OnToken σ) (event : GenerationEvent) : M (Session σ) Bool := do
  let s ← get
  let (stops, state) := onToken event s.state
  set (⟨state, s.events ++ [event]⟩ : Session σ)
  pure stops

/-- A call that can only panic. -/
def lift (r : Res Empty α) : M (Session σ) α :=
  match r with
  | .ok a => pure a
  | .error _ => M.panic "index out of bounds"

def GenerationControl.cancelled (control : GenerationControl σ) : M (Session σ) Bool := do
  let s ← get
  pure (control.isCancelled s.state)

/-- `token < 0 || token as usize >= vocab_size` -/
def Outside (vocabSize : Nat) (token : Int) : Prop := token < 0 ∨ (vocabSize : Int) ≤ token

instance (vocabSize : Nat) (token : Int) : Decidable (Outside vocabSize token) := by
  unfold Outside
  infer_instance

def GenerationControl.validate (control : GenerationControl σ) (vocabSize : Nat) : M (Session σ) Unit :=
  control.stopTokenSequences.zipIdx.forM fun (pattern, index) => do
    M.failIf (pattern = []) s!"stop sequence {index} must not be empty"
    pattern.forM fun token =>
      M.failIf (Outside vocabSize token) s!"stop sequence {index} token {token} is outside vocabulary [0, {vocabSize})"

/-- The EOS tokens, as a set. -/
def validateGeneration (limits : CausalModelLimits) (promptTokenIds : List Int) (generation : GreedyGenerationConfig) :
    M (Session σ) (Finset Int) := do
  M.failIf (limits.vocabSize = 0 ∨ 2 ^ 31 - 1 < limits.vocabSize - 1) "model requires a nonempty i32-indexed vocabulary"
  M.failIf (promptTokenIds = []) "generation requires at least one prompt token"
  promptTokenIds.forM fun token =>
    M.failIf (Outside limits.vocabSize token) s!"prompt token {token} is outside vocabulary [0, {limits.vocabSize})"
  let requestedLength ← M.need (checkedAdd promptTokenIds.length generation.maxNewTokens) "generation length overflow"
  M.failIf (limits.maxSequenceLength < requestedLength)
    s!"prompt plus max_new_tokens ({requestedLength}) exceeds model capacity {limits.maxSequenceLength}"
  match (generation.eosTokenIds.filter fun token => Outside limits.vocabSize token).min? with
  | some invalid => M.fail s!"EOS token {invalid} is outside vocabulary [0, {limits.vocabSize})"
  | none => pure generation.eosTokenIds.toFinset

/-- `index as i32` -/
def asI32 (index : Nat) : Int :=
  if index % 2 ^ 32 < 2 ^ 31 then (index % 2 ^ 32 : Nat) else (index % 2 ^ 32 : Nat) - 2 ^ 32

section

variable [Logit F]

/-- One pass of the loop of `argmax`. -/
def better (best : Option (Nat × F)) (entry : F × Nat) : Option (Nat × F) :=
  if !Logit.isNan entry.1 && best.all (fun b => Logit.gt entry.1 b.2) then some (entry.2, entry.1) else best

def argmax (logits : List F) : M (Session σ) Int :=
  match logits.zipIdx.foldl better none with
  | some (index, _) => pure (asI32 index)
  | none => M.fail "all vocabulary logits are NaN"

end

-- The ordinary loop

/-- One step of the loop, and the steps after it. -/
def stepsFrom (model : CausalModel F) (limits : CausalModelLimits) (generation : GreedyGenerationConfig) (eos : Finset Int)
    (control : GenerationControl σ) (select : List F → M (Session σ) Int) (onToken : OnToken σ) :
    (remaining : Nat) → (step : Nat) → TokenGenerationOutput → StopSequenceMatcher → model.Cache → (logits : List F) →
      M (Session σ) ControlledGenerationOutput
  | 0, _, output, _, _, _ => pure ⟨output, .maxNewTokens⟩
  | remaining + 1, step, output, matcher, cache, logits => do
    if ← control.cancelled then pure ⟨output, .cancelled⟩
    else do
      M.failIf (logits.length ≠ limits.vocabSize)
        s!"expected batch-one logits with vocabulary {limits.vocabSize}, got [1, 1, {logits.length}]"
      let token ← select logits
      M.failIf (Outside limits.vocabSize token) s!"selected token {token} is outside vocabulary [0, {limits.vocabSize})"
      let output := { output with
        tokenIds := output.tokenIds ++ [token], generatedTokenIds := output.generatedTokenIds ++ [token] }
      let (matched, matcher) ← lift (matcher.push token)
      let output := if token ∈ eos then { output with stoppedOnEos := true } else output
      let naturalStop :=
        if token ∈ eos then some (.eosToken token)
        else match matched with
          | some index => some (.stopSequence index)
          | none => if step + 1 = generation.maxNewTokens then some .maxNewTokens else none
      let stops ← notify onToken ⟨token, output.generatedTokenIds, naturalStop⟩
      let cancelled ← control.cancelled
      match naturalStop with
      | some reason => pure ⟨output, reason⟩
      | none =>
        if stops ∨ cancelled then pure ⟨output, .cancelled⟩
        else
          let (logits, cache) := model.tryForwardCachedLast [token] cache
          stepsFrom model limits generation eos control select onToken remaining (step + 1) output matcher cache logits

def generateWithSelectorStream (model : CausalModel F) (limits : CausalModelLimits) (promptTokenIds : List Int)
    (generation : GreedyGenerationConfig) (control : GenerationControl σ) (select : List F → M (Session σ) Int)
    (onToken : OnToken σ) : M (Session σ) ControlledGenerationOutput := do
  let eos ← validateGeneration limits promptTokenIds generation
  control.validate limits.vocabSize
  let output : TokenGenerationOutput := ⟨promptTokenIds, [], false⟩
  let cancelled ← control.cancelled
  if generation.maxNewTokens = 0 ∨ cancelled then
    pure ⟨output, if cancelled then .cancelled else .maxNewTokens⟩
  else do
    let matcher ← lift (StopSequenceMatcher.new control.stopTokenSequences)
    let (logits, cache) := model.tryForwardCachedLast promptTokenIds model.newCache
    stepsFrom model limits generation eos control select onToken generation.maxNewTokens 0 output matcher cache logits

end Ruda.Generation
