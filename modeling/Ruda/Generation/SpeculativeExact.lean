import Ruda.Generation.Speculative

/-!
# Speculation changes nothing

Both loops are compared with one that keeps no cache and asks for the logits of a history. A
round of speculation goes as many steps of it as tokens are committed, whatever the draft
proposed.
-/

namespace Ruda.Generation

variable {σ F α β : Type} {s : Session σ}

-- Logits

section

variable [Logit F]

/-- Some logit is a number. -/
def HasNumber (logits : List F) : Prop := ∃ value ∈ logits, Logit.isNan value = false

theorem asI32_of_lt {index : Nat} (h : index < 2 ^ 31) : asI32 index = index := by
  have hmod : index % 2 ^ 32 = index := Nat.mod_eq_of_lt (by omega)
  rw [asI32, hmod, if_pos h]

/-- The best logit so far is one of those read, and there is one if one of them is a number. -/
theorem foldl_better (logits : List F) (start : Nat) (best : Option (Nat × F)) (hbest : ∀ b ∈ best, b.1 < start + logits.length) :
    (∀ b ∈ (logits.zipIdx start).foldl better best, b.1 < start + logits.length) ∧
      (best.isSome ∨ HasNumber logits → ((logits.zipIdx start).foldl better best).isSome) := by
  induction logits generalizing start best with
  | nil => exact ⟨hbest, fun h => h.resolve_right fun ⟨_, hmem, _⟩ => nomatch hmem⟩
  | cons value logits ih =>
    rw [List.zipIdx_cons, List.foldl_cons, List.length_cons]
    have hbetter : ∀ b ∈ better best (value, start), b.1 < start + 1 + logits.length := by
      intro b hb
      unfold better at hb
      split at hb
      · obtain rfl := Option.some.inj hb
        exact Nat.lt_of_lt_of_le (Nat.lt_succ_self _) (Nat.le_add_right _ _)
      · have := hbest b hb
        rw [List.length_cons] at this
        omega
    obtain ⟨hall, hsome⟩ := ih (start + 1) _ hbetter
    refine ⟨fun b hb => ?_, fun h => hsome ?_⟩
    · have := hall b hb
      omega
    by_cases hnan : Logit.isNan value = true
    · refine h.imp (fun hs => ?_) fun ⟨v, hv, hnum⟩ => ?_
      · rw [better, hnan]
        exact hs
      · rcases List.mem_cons.mp hv with rfl | hv
        · rw [hnan] at hnum
          cases hnum
        · exact ⟨v, hv, hnum⟩
    · left
      unfold better
      split
      · rfl
      · next hno =>
        cases best with
        | none => simp [hnan] at hno
        | some b => rfl

theorem argmax_cases (logits : List F) (hlen : logits.length ≤ 2 ^ 31) :
    (∃ token, (argmax logits : M (Session σ) Int) = pure token ∧ ¬Outside logits.length token) ∨
      ¬HasNumber logits ∧ (argmax logits : M (Session σ) Int) = M.fail "all vocabulary logits are NaN" := by
  obtain ⟨hall, hsome⟩ := foldl_better logits 0 none nofun
  unfold argmax
  cases hfold : logits.zipIdx.foldl better none with
  | none =>
    refine Or.inr ⟨fun hnum => ?_, rfl⟩
    have := hsome (Or.inr hnum)
    rw [hfold] at this
    cases this
  | some b =>
    have hlt := hall b hfold
    rw [Nat.zero_add] at hlt
    refine Or.inl ⟨asI32 b.1, rfl, ?_⟩
    rw [asI32_of_lt (by omega), Outside]
    omega

end

-- Models

/-- The caches of a model stand for histories, and the logits after a history are a row of the
vocabulary. -/
structure Follows (m : CausalModel F) (history : m.Cache → List Int) (row : List Int → List F) (vocabulary : Nat) : Prop where
  new : history m.newCache = []
  fork : ∀ cache, history (m.forkCache cache) = history cache
  last : ∀ tokens cache, tokens ≠ [] →
    (m.tryForwardCachedLast tokens cache).1 = row (history cache ++ tokens) ∧
      history (m.tryForwardCachedLast tokens cache).2 = history cache ++ tokens
  block : ∀ tokens cache, tokens ≠ [] →
    (m.tryForwardCachedBlock tokens cache).1 =
        (List.range tokens.length).map (fun i => row (history cache ++ tokens.take (i + 1))) ∧
      history (m.tryForwardCachedBlock tokens cache).2 = history cache ++ tokens
  length : ∀ h, (row h).length = vocabulary

variable {m : CausalModel F} {history : m.Cache → List Int} {row : List Int → List F} {vocabulary : Nat} {tokens : List Int}

theorem Follows.nextRow (hm : Follows m history row vocabulary) (hne : tokens ≠ []) (cache : m.Cache) :
    ∃ cache', (nextRow m tokens cache vocabulary : M (Session σ) _) = pure (row (history cache ++ tokens), cache') ∧
      history cache' = history cache ++ tokens := by
  obtain ⟨hrow, hhistory⟩ := hm.last tokens cache hne
  have hlen : (m.tryForwardCachedLast tokens cache).1.length = vocabulary := by rw [hrow, hm.length]
  refine ⟨_, ?_, hhistory⟩
  show (M.failIf _ _ >>= fun _ => pure _) = _
  rw [M.failIf, if_neg (not_not.mpr hlen), pure_bind, ← hrow]

-- The loop without caches

/-- Emit a token, and say why generation stops if it does. -/
def emitOutput (r : Request σ F) (token : Int) (output : TokenGenerationOutput) (matcher : StopSequenceMatcher) :
    M (Session σ) (Option GenerationFinishReason × TokenGenerationOutput × StopSequenceMatcher) := do
  let output : TokenGenerationOutput := { output with
    tokenIds := output.tokenIds ++ [token], generatedTokenIds := output.generatedTokenIds ++ [token] }
  let (matched, matcher) ← lift (matcher.push token)
  let output := if token ∈ r.eos then { output with stoppedOnEos := true } else output
  let natural :=
    if token ∈ r.eos then some (.eosToken token)
    else match matched with
      | some index => some (.stopSequence index)
      | none => if output.generatedTokenIds.length = r.config.maxNewTokens then some .maxNewTokens else none
  let stops ← notify r.onToken ⟨token, output.generatedTokenIds, natural⟩
  let cancelled ← r.control.cancelled
  pure (natural.or (if stops ∨ cancelled then some .cancelled else none), output, matcher)

variable {r : Request σ F} {token : Int} {output : TokenGenerationOutput} {matcher : StopSequenceMatcher}

theorem emit_eq {result : SpeculativeGenerationOutput} :
    emit r token result matcher = (do
      let (reason, output, matcher) ← emitOutput r token result.output matcher
      pure (reason.isSome, { result with output, finishReason := reason.getD result.finishReason }, matcher)) := by
  unfold emit emitOutput
  simp only [bind_assoc, pure_bind]
  refine bind_congr fun pushed => bind_congr fun stops => bind_congr fun cancelled => ?_
  obtain ⟨matched, matcher⟩ := pushed
  by_cases heos : token ∈ r.eos
  · simp [heos]
  · cases matched with
    | some index => simp [heos]
    | none =>
      simp only [heos, if_false]
      split <;> split <;> simp_all

theorem failIf_bind_of_not {bad : Prop} [Decidable bad] {message : String} {f : Unit → M (Session σ) α} (h : ¬bad) :
    (M.failIf bad message >>= f) = f () := by
  rw [M.failIf, if_neg h]
  rfl

variable [Logit F]

def greedyFrom (r : Request σ F) (row : List Int → List F) : (remaining : Nat) → (history : List Int) → TokenGenerationOutput →
    StopSequenceMatcher → M (Session σ) ControlledGenerationOutput
  | 0, _, output, _ => pure ⟨output, .maxNewTokens⟩
  | remaining + 1, history, output, matcher => do
    if ← r.control.cancelled then pure ⟨output, .cancelled⟩
    else do
      let token ← argmax (row history)
      let (reason, output, matcher) ← emitOutput r token output matcher
      match reason with
      | some reason => pure ⟨output, reason⟩
      | none => greedyFrom r row remaining (history ++ [token]) output matcher

theorem stepsFrom_eq {limits : CausalModelLimits} {generation : GreedyGenerationConfig} (hm : Follows m history row limits.vocabSize)
    (hvocab : limits.vocabSize ≤ 2 ^ 31) (hmax : generation.maxNewTokens = r.config.maxNewTokens) (remaining : Nat) :
    ∀ (output : TokenGenerationOutput) (matcher : StopSequenceMatcher) (cache : m.Cache),
      stepsFrom m limits generation r.eos r.control argmax r.onToken remaining output.generatedTokenIds.length output matcher cache
          (row (history cache)) =
        greedyFrom r row remaining (history cache) output matcher := by
  induction remaining with
  | zero => exact fun _ _ _ => rfl
  | succ remaining ih =>
    intro output matcher cache
    unfold stepsFrom greedyFrom
    refine bind_congr fun cancelled => ?_
    cases cancelled with
    | true => rfl
    | false => ?_
    simp only [Bool.false_eq_true, if_false]
    rw [failIf_bind_of_not (not_not.mpr (hm.length _))]
    rcases argmax_cases (row (history cache)) (by rw [hm.length]; exact hvocab) with ⟨token, htoken, hin⟩ | ⟨-, hnone⟩
    · rw [hm.length] at hin
      rw [htoken, pure_bind, pure_bind, failIf_bind_of_not hin]
      unfold emitOutput
      simp only [bind_assoc, pure_bind]
      refine bind_congr fun pushed => ?_
      obtain ⟨matched, matcher⟩ := pushed
      have hlen : (if token ∈ r.eos then
          (⟨output.tokenIds ++ [token], output.generatedTokenIds ++ [token], true⟩ : TokenGenerationOutput)
          else ⟨output.tokenIds ++ [token], output.generatedTokenIds ++ [token], output.stoppedOnEos⟩).generatedTokenIds.length =
          output.generatedTokenIds.length + 1 := by
        split <;> simp
      rw [hlen, ← hmax]
      refine bind_congr fun stops => bind_congr fun cancelled => ?_
      generalize (if token ∈ r.eos then some (GenerationFinishReason.eosToken token) else _) = natural
      generalize (if token ∈ r.eos then _ else _) = output' at hlen ⊢
      cases natural with
      | some reason => rfl
      | none => ?_
      obtain ⟨hrow, hhistory⟩ := hm.last [token] cache (List.cons_ne_nil _ _)
      rw [Option.none_or, ← hhistory, ← ih output' matcher, hlen, hhistory, ← hrow]
      by_cases hstop : stops = true ∨ cancelled = true
      · simp only [if_pos hstop]
      · simp only [if_neg hstop]
    · rw [hnone]
      rfl

-- Tokens emitted

theorem triple_self {m : M (Session σ) α} : Triple m s (fun a s' => m.exec s = (.ok a, s')) (fun f s' => m.exec s = (.error f, s')) := by
  unfold Triple
  rcases h : m.exec s with ⟨_ | _, _⟩ <;> rfl

/-- Generation goes on: there are tokens to come, and the request is not cancelled. -/
def Live (r : Request σ F) (output : TokenGenerationOutput) (s : Session σ) : Prop :=
  output.generatedTokenIds.length < r.config.maxNewTokens ∧ r.control.isCancelled s.state = false

/-- How the ordinary loop ends from here. -/
def rest (r : Request σ F) (row : List Int → List F) (history : List Int) (output : TokenGenerationOutput)
    (matcher : StopSequenceMatcher) (s : Session σ) : Except Fault ControlledGenerationOutput × Session σ :=
  (greedyFrom r row (r.config.maxNewTokens - output.generatedTokenIds.length) history output matcher).exec s

variable {h : List Int}

omit [Logit F] in
theorem emitOutput_ok (hlen : output.generatedTokenIds.length < r.config.maxNewTokens) :
    Triple (emitOutput r token output matcher) s
      (fun a s' => a.1 = none → a.2.1.generatedTokenIds.length = output.generatedTokenIds.length + 1 ∧ Live r a.2.1 s')
      (fun _ _ => True) := by
  unfold emitOutput
  refine Triple.bind (Q := fun _ _ => True) (Triple.always (fun _ _ => trivial) fun _ _ => trivial) fun ⟨matched, matcher⟩ t _ => ?_
  refine Triple.bind (Q := fun _ _ => True) (Triple.always (fun _ _ => trivial) fun _ _ => trivial) fun stops t' _ => ?_
  refine Triple.bind (Q := fun c t => c = r.control.isCancelled t.state) (Triple.get_bind (Triple.pure' rfl)) ?_
  rintro _ t'' rfl
  refine Triple.pure' fun hnone => ?_
  obtain ⟨hnatural, hstop⟩ := Option.or_eq_none_iff.mp hnone
  have hcancel : r.control.isCancelled t''.state = false := by
    by_contra hc
    rw [if_pos (Or.inr (by simpa using hc))] at hstop
    cases hstop
  split at hnatural
  · cases hnatural
  next heos =>
  simp only [if_neg heos, Live, List.length_append, List.length_singleton]
  refine ⟨trivial, ?_, hcancel⟩
  cases matched with
  | some index => cases hnatural
  | none =>
    simp only [List.length_append, List.length_singleton] at hnatural
    split at hnatural
    · cases hnatural
    · omega

theorem rest_eq (hlive : Live r output s) : ∃ n, r.config.maxNewTokens - output.generatedTokenIds.length = n + 1 ∧
    rest r row h output matcher s = ((do
      let token ← argmax (row h)
      let (reason, output, matcher) ← emitOutput r token output matcher
      match reason with
      | some reason => pure ⟨output, reason⟩
      | none => greedyFrom r row n (h ++ [token]) output matcher) : M (Session σ) ControlledGenerationOutput).exec s := by
  obtain ⟨n, hn⟩ := Nat.exists_eq_add_of_lt hlive.1
  have hremaining : r.config.maxNewTokens - output.generatedTokenIds.length = n + 1 := by omega
  refine ⟨n, hremaining, ?_⟩
  rw [rest, hremaining, greedyFrom, M.exec_bind]
  show M.exec (if r.control.isCancelled s.state = true then _ else _) s = _
  rw [if_neg (by rw [hlive.2]; exact Bool.false_ne_true)]

theorem rest_of_fail {message : String} (hlive : Live r output s)
    (hfail : (argmax (row h) : M (Session σ) Int) = M.fail message) :
    rest r row h output matcher s = (.error (.error message), s) := by
  obtain ⟨n, -, hrest⟩ := @rest_eq _ _ s row r output matcher _ h hlive
  rw [hrest, hfail]
  rfl

theorem emitOutput_rest (hlive : Live r output s) (htoken : (argmax (row h) : M (Session σ) Int) = pure token) :
    Triple (emitOutput r token output matcher) s
      (fun a s' => match a.1 with
        | some reason => rest r row h output matcher s = (.ok ⟨a.2.1, reason⟩, s')
        | none => rest r row h output matcher s = rest r row (h ++ [token]) a.2.1 a.2.2 s' ∧ Live r a.2.1 s' ∧
            a.2.1.generatedTokenIds.length = output.generatedTokenIds.length + 1)
      (fun f s' => rest r row h output matcher s = (.error f, s')) := by
  obtain ⟨n, hremaining, hrest⟩ := @rest_eq _ _ s row r output matcher _ h hlive
  rw [htoken, pure_bind] at hrest
  refine Triple.mono (Triple.and triple_self (emitOutput_ok hlive.1)) ?_ ?_
  · rintro ⟨reason, output', matcher'⟩ s' ⟨hexec, hok⟩
    rw [M.exec_bind, hexec] at hrest
    cases reason with
    | some reason => exact hrest
    | none =>
      obtain ⟨hlen, hlive'⟩ := hok rfl
      refine ⟨hrest.trans ?_, hlive', hlen⟩
      have hlen' : output'.generatedTokenIds.length = output.generatedTokenIds.length + 1 := hlen
      rw [rest, show r.config.maxNewTokens - output'.generatedTokenIds.length = n by omega]
  · rintro f s' ⟨hexec, -⟩
    rw [M.exec_bind, hexec] at hrest
    exact hrest

theorem emit_rest (result : SpeculativeGenerationOutput) (hlive : Live r result.output s)
    (htoken : (argmax (row h) : M (Session σ) Int) = pure token) :
    Triple (emit r token result matcher) s
      (fun a s' => if a.1 = true then rest r row h result.output matcher s = (.ok ⟨a.2.1.output, a.2.1.finishReason⟩, s')
        else rest r row h result.output matcher s = rest r row (h ++ [token]) a.2.1.output a.2.2 s' ∧ Live r a.2.1.output s' ∧
            a.2.1.output.generatedTokenIds.length = result.output.generatedTokenIds.length + 1)
      (fun f s' => rest r row h result.output matcher s = (.error f, s')) := by
  rw [emit_eq]
  refine Triple.bind (emitOutput_rest hlive htoken) ?_
  rintro ⟨_ | reason, output', matcher'⟩ s' ha
  · exact Triple.pure' ha
  · exact Triple.pure' ha

-- Rounds

section

variable {targetHistory : r.target.Cache → List Int} {draftHistory : r.draft.Cache → List Int}
  {targetRow draftRow : List Int → List F}

theorem proposeFrom_ok (hdraft : Follows r.draft draftHistory draftRow r.vocabulary) (hnumber : ∀ h, HasNumber (draftRow h))
    (hvocab : r.vocabulary ≤ 2 ^ 31) (hcancel : r.control.isCancelled s.state = false) (count : Nat) :
    ∀ (candidates : List Int) (cache : r.draft.Cache), 
      Triple (proposeFrom r count candidates (draftRow (draftHistory cache)) cache) s
        (fun block s' => s' = s ∧ block.cancelled = false ∧ (0 < count ∨ candidates ≠ [] → block.candidates ≠ []) ∧
          ∃ more, block.candidates = candidates ++ more ∧ draftHistory block.cache = draftHistory cache ++ more)
        (fun _ _ => False) := by
  induction count with
  | zero =>
    intro candidates cache
    exact Triple.pure' ⟨rfl, rfl, fun hne => hne.resolve_left (lt_irrefl _), [], by simp, by simp⟩
  | succ count ih =>
    intro candidates cache
    refine Triple.bind (Q := fun c t => t = s ∧ c = false) (Triple.get_bind (Triple.pure' ⟨rfl, hcancel⟩)) ?_
    rintro _ _ ⟨rfl, rfl⟩
    rw [if_neg Bool.false_ne_true]
    obtain ⟨token, htoken, -⟩ := (argmax_cases (draftRow (draftHistory cache)) (by rw [hdraft.length]; exact hvocab)).resolve_right
      fun hno => hno.1 (hnumber _)
    obtain ⟨cache', hnext, hhistory⟩ := hdraft.nextRow (List.cons_ne_nil token []) cache
    rw [htoken, pure_bind, hnext, pure_bind, ← hhistory]
    refine Triple.ite (fun _ => Triple.pure' ⟨rfl, rfl, fun _ => by simp, [token], rfl, hhistory⟩) fun _ => ?_
    refine Triple.mono (ih (candidates ++ [token]) cache') ?_ fun _ _ hf => hf
    rintro block t ⟨rfl, hno, hne, more, hmore, hblock⟩
    refine ⟨rfl, hno, fun _ => hne (Or.inr (by simp)), token :: more, by rw [hmore, List.append_assoc]; rfl, ?_⟩
    rw [hblock, hhistory, List.append_assoc]
    rfl

theorem verifyFrom_ok {base : List Int} {candidates : List Int} (hlen : ∀ h, (targetRow h).length = r.vocabulary)
    (hvocab : r.vocabulary ≤ 2 ^ 31) (rows : List (List F))
    (hrows : rows = (List.range candidates.length).map fun i => targetRow (base ++ candidates.take (i + 1))) :
    ∀ (left committed : List Int) (result : SpeculativeGenerationOutput) (matcher : StopSequenceMatcher) (s : Session σ),
      candidates = committed ++ left → Live r result.output s →
      Triple (verifyFrom r (targetRow base) rows left committed.length committed result matcher) s
        (fun v s' => match v with
          | .stopped result' =>
            rest r targetRow (base ++ committed) result.output matcher s = (.ok ⟨result'.output, result'.finishReason⟩, s')
          | .rejected committed' result' matcher' =>
            rest r targetRow (base ++ committed) result.output matcher s =
                rest r targetRow (base ++ committed') result'.output matcher' s' ∧
              Live r result'.output s' ∧ committed' ≠ [] ∧
              result.output.generatedTokenIds.length < result'.output.generatedTokenIds.length
          | .accepted result' matcher' =>
            rest r targetRow (base ++ committed) result.output matcher s =
                rest r targetRow (base ++ candidates) result'.output matcher' s' ∧
              Live r result'.output s' ∧
              result.output.generatedTokenIds.length ≤ result'.output.generatedTokenIds.length)
        (fun f s' => rest r targetRow (base ++ committed) result.output matcher s = (.error f, s')) := by
  intro left
  induction left with
  | nil =>
    intro committed result matcher s hsplit hlive
    rw [List.append_nil] at hsplit
    exact Triple.pure' ⟨by rw [hsplit], hlive, le_rfl⟩
  | cons candidate left ih =>
    intro committed result matcher s hsplit hlive
    have hlogits : (pLogits (targetRow base) rows committed.length : M (Session σ) (List F)) =
        pure (targetRow (base ++ committed)) := by
      unfold pLogits
      split
      · next hzero => rw [List.length_eq_zero_iff.mp hzero, List.append_nil]
      · next hne =>
        have hlt : committed.length - 1 < candidates.length := by
          rw [hsplit, List.length_append, List.length_cons]
          omega
        have htake : candidates.take (committed.length - 1 + 1) = committed := by
          rw [Nat.sub_add_cancel (Nat.pos_of_ne_zero hne), hsplit, List.take_left]
        rw [hrows, List.getElem?_map, List.getElem?_range hlt, Option.map_some, htake]
        rfl
    unfold verifyFrom
    rw [hlogits, pure_bind]
    rcases argmax_cases (targetRow (base ++ committed)) (by rw [hlen]; exact hvocab) with ⟨token, htoken, -⟩ | ⟨-, hnone⟩
    · rw [htoken, pure_bind]
      refine Triple.bind (emit_rest { result with stats := _ } hlive htoken) ?_
      rintro ⟨stop, result', matcher'⟩ s' ha
      cases stop with
      | true => exact Triple.pure' ha
      | false => ?_
      obtain ⟨hrest, hlive', hcount⟩ := ha
      refine Triple.ite (fun hfalse => absurd hfalse Bool.false_ne_true) fun _ => Triple.ite (fun haccepted => ?_) fun _ => ?_
      · subst haccepted
        have hih := ih (committed ++ [token]) result' matcher' s' (by rw [hsplit, List.append_assoc]; rfl) hlive'
        rw [List.length_append, List.length_singleton] at hih
        rw [List.append_assoc] at hrest
        rw [hrest]
        refine Triple.mono hih ?_ fun _ _ hf => hf
        rintro (_ | _ | _) t hv
        · exact hv
        · exact ⟨hv.1, hv.2.1, hv.2.2.1, by have := hv.2.2.2; dsimp only at hcount; omega⟩
        · exact ⟨hv.1, hv.2.1, by have := hv.2.2; dsimp only at hcount; omega⟩
      · rw [List.append_assoc] at hrest
        exact Triple.pure' ⟨hrest, hlive', by simp, by dsimp only at hcount; omega⟩
    · rw [hnone]
      exact Triple.fail' (rest_of_fail hlive hnone)

omit [Logit F] in
theorem replay_ok (htarget : Follows r.target targetHistory targetRow r.vocabulary)
    (hdraft : Follows r.draft draftHistory draftRow r.vocabulary) :
    ∀ (committed base : List Int) (targetCache : r.target.Cache) (draftCache : r.draft.Cache) (targetNext draftNext : List F),
      targetHistory targetCache = base → draftHistory draftCache = base → committed ≠ [] →
      ∃ targetCache' draftCache', (replay r committed targetCache draftCache targetNext draftNext : M (Session σ) _) =
          pure (targetCache', draftCache', targetRow (base ++ committed), draftRow (base ++ committed)) ∧
        targetHistory targetCache' = base ++ committed ∧ draftHistory draftCache' = base ++ committed := by
  intro committed
  induction committed with
  | nil => exact fun _ _ _ _ _ _ _ hne => absurd rfl hne
  | cons token committed ih =>
    rintro base targetCache draftCache targetNext draftNext rfl hbase -
    obtain ⟨targetCache', htnext, hthistory⟩ := htarget.nextRow (List.cons_ne_nil token []) targetCache
    obtain ⟨draftCache', hdnext, hdhistory⟩ := hdraft.nextRow (List.cons_ne_nil token []) draftCache
    rw [hbase] at hdnext hdhistory
    unfold replay
    rw [htnext, pure_bind]
    dsimp only
    rw [hdnext, pure_bind]
    cases committed with
    | nil => exact ⟨targetCache', draftCache', rfl, hthistory, hdhistory⟩
    | cons token' committed =>
      have hih := ih _ targetCache' draftCache' (targetRow (targetHistory targetCache ++ [token]))
        (draftRow (targetHistory targetCache ++ [token])) hthistory hdhistory (List.cons_ne_nil _ _)
      rw [List.append_assoc] at hih
      exact hih

/-- A round that goes on leaves both caches at the history it has committed. -/
def Goes (r : Request σ F) (targetHistory : r.target.Cache → List Int) (draftHistory : r.draft.Cache → List Int)
    (targetRow draftRow : List Int → List F) (base : List Int) (output : TokenGenerationOutput) (matcher : StopSequenceMatcher)
    (s : Session σ) (a : Round r) (s' : Session σ) : Prop :=
  match a with
  | .done result => rest r targetRow base output matcher s = (.ok ⟨result.output, result.finishReason⟩, s')
  | .next result matcher' targetCache draftCache targetNext draftNext => ∃ base',
    rest r targetRow base output matcher s = rest r targetRow base' result.output matcher' s' ∧
      targetHistory targetCache = base' ∧ draftHistory draftCache = base' ∧
      targetNext = targetRow base' ∧ draftNext = draftRow base' ∧ Live r result.output s' ∧
      output.generatedTokenIds.length < result.output.generatedTokenIds.length

theorem settle_ok {base : List Int} {block : Block r.draft.Cache F} {targetBefore targetCache : r.target.Cache}
    {draftBefore : r.draft.Cache} {rows : List (List F)} {result : SpeculativeGenerationOutput}
    (htarget : Follows r.target targetHistory targetRow r.vocabulary) (hdraft : Follows r.draft draftHistory draftRow r.vocabulary)
    (hvocab : r.vocabulary ≤ 2 ^ 31) (hne : block.candidates ≠ [])
    (htbefore : targetHistory targetBefore = base) (hdbefore : draftHistory draftBefore = base)
    (hrows : rows = (List.range block.candidates.length).map fun i => targetRow (base ++ block.candidates.take (i + 1)))
    (hthistory : targetHistory targetCache = base ++ block.candidates)
    (hdhistory : draftHistory block.cache = base ++ block.candidates) (hlive : Live r result.output s) :
    Triple (settle r result matcher targetBefore draftBefore (targetRow base) block rows targetCache) s
      (Goes r targetHistory draftHistory targetRow draftRow base result.output matcher s)
      (fun f s' => rest r targetRow base result.output matcher s = (.error f, s')) := by
  have hverify := verifyFrom_ok htarget.length hvocab rows hrows block.candidates [] result matcher s rfl hlive
  simp only [List.append_nil, List.length_nil] at hverify
  refine Triple.bind hverify ?_
  rintro (result' | ⟨committed, result', matcher'⟩ | ⟨result', matcher'⟩) t hv
  · exact Triple.pure' hv
  · obtain ⟨hrest, hlive', hne', hlt⟩ := hv
    obtain ⟨targetCache', draftCache', hreplay, hth, hdh⟩ := replay_ok htarget hdraft committed base targetBefore draftBefore
      (targetRow base) block.next htbefore hdbefore hne'
    dsimp only
    rw [hreplay, pure_bind]
    exact Triple.pure' ⟨_, hrest, hth, hdh, rfl, rfl, hlive', hlt⟩
  · obtain ⟨hrest, hlive', hle⟩ := hv
    have hpos : 0 < block.candidates.length := List.length_pos_iff.mpr hne
    have hlast : rows[block.candidates.length - 1]? = some (targetRow (base ++ block.candidates)) := by
      rw [hrows, List.getElem?_map, List.getElem?_range (by omega), Option.map_some, Nat.sub_add_cancel hpos, List.take_length]
    dsimp only
    rw [hlast]
    refine Triple.pure_bind ?_
    rcases argmax_cases (targetRow (base ++ block.candidates)) (by rw [htarget.length]; exact hvocab) with
      ⟨bonus, hbonus, -⟩ | ⟨-, hnone⟩
    · rw [hbonus, pure_bind, hrest]
      refine Triple.bind (emit_rest { result' with stats := _ } hlive' hbonus) ?_
      rintro ⟨stop, result'', matcher''⟩ t' ha
      cases stop with
      | true => exact Triple.pure' (hrest.trans ha)
      | false => ?_
      obtain ⟨hrest', hlive'', hcount⟩ := ha
      obtain ⟨targetCache', htnext, hth⟩ := htarget.nextRow (List.cons_ne_nil bonus []) targetCache
      obtain ⟨draftCache', hdnext, hdh⟩ := hdraft.nextRow (List.cons_ne_nil bonus []) block.cache
      refine Triple.ite (fun hfalse => absurd hfalse Bool.false_ne_true) fun _ => ?_
      rw [htnext, pure_bind]
      dsimp only
      rw [hdnext, pure_bind]
      rw [hthistory] at hth ⊢
      rw [hdhistory] at hdh ⊢
      dsimp only at hcount
      exact Triple.pure' ⟨_, hrest.trans hrest', hth, hdh, rfl, rfl, hlive'', by omega⟩
    · rw [hnone]
      exact Triple.fail' (hrest.trans (rest_of_fail hlive' hnone))

theorem round_ok {base : List Int} {targetCache : r.target.Cache} {draftCache : r.draft.Cache}
    {result : SpeculativeGenerationOutput} (htarget : Follows r.target targetHistory targetRow r.vocabulary)
    (hdraft : Follows r.draft draftHistory draftRow r.vocabulary) (hnumber : ∀ h, HasNumber (draftRow h))
    (hvocab : r.vocabulary ≤ 2 ^ 31) (hdrafts : 0 < r.config.draftTokens)
    (htbase : targetHistory targetCache = base) (hdbase : draftHistory draftCache = base) (hlive : Live r result.output s) :
    Triple (round r result matcher targetCache draftCache (targetRow base) (draftRow base)) s
      (Goes r targetHistory draftHistory targetRow draftRow base result.output matcher s)
      (fun f s' => rest r targetRow base result.output matcher s = (.error f, s')) := by
  have hcancel : Triple r.control.cancelled s (fun c t => t = s ∧ c = false)
      (fun f s' => rest r targetRow base result.output matcher s = (.error f, s')) :=
    Triple.get_bind (Triple.pure' ⟨rfl, hlive.2⟩)
  refine Triple.bind hcancel ?_
  rintro _ t ⟨ht, rfl⟩
  rw [ht]
  refine Triple.ite (fun hc => absurd hc Bool.false_ne_true) fun _ => ?_
  have hpropose := proposeFrom_ok hdraft hnumber hvocab hlive.2
    (min r.config.draftTokens (r.config.maxNewTokens - result.output.generatedTokenIds.length)) [] draftCache
  rw [hdbase] at hpropose
  refine Triple.bind (Triple.mono hpropose (fun _ _ hq => hq) fun _ _ hf => hf.elim) ?_
  rintro ⟨cancelled, candidates, next, draftCache'⟩ t ⟨ht, rfl, hne, more, hmore, hdhistory⟩
  rw [ht]
  obtain rfl : candidates = more := hmore
  have hne : candidates ≠ [] := hne (Or.inl (by have := hlive.1; omega))
  obtain ⟨hrows, hthistory⟩ := htarget.block candidates targetCache hne
  rw [htbase] at hrows hthistory
  refine Triple.ite (fun hc => absurd hc Bool.false_ne_true) fun _ => ?_
  refine Triple.failIf_bind (fun hbad => absurd hbad ?_) fun _ => Triple.bind hcancel ?_
  · show ¬((r.target.tryForwardCachedBlock candidates targetCache).1.length ≠ candidates.length ∨
      ∃ row ∈ (r.target.tryForwardCachedBlock candidates targetCache).1, row.length ≠ r.vocabulary)
    rw [hrows]
    simp [htarget.length]
  · rintro _ t ⟨ht, rfl⟩
    rw [ht]
    refine Triple.ite (fun hc => absurd hc Bool.false_ne_true) fun _ => ?_
    exact settle_ok htarget hdraft hvocab hne ((htarget.fork _).trans htbase)
      ((hdraft.fork _).trans hdbase) hrows hthistory hdhistory hlive

theorem roundsFrom_ok (htarget : Follows r.target targetHistory targetRow r.vocabulary)
    (hdraft : Follows r.draft draftHistory draftRow r.vocabulary) (hnumber : ∀ h, HasNumber (draftRow h))
    (hvocab : r.vocabulary ≤ 2 ^ 31) (hdrafts : 0 < r.config.draftTokens) (fuel : Nat) :
    ∀ (base : List Int) (result : SpeculativeGenerationOutput) (matcher : StopSequenceMatcher) (targetCache : r.target.Cache)
      (draftCache : r.draft.Cache) (s : Session σ),
      targetHistory targetCache = base → draftHistory draftCache = base → Live r result.output s →
      r.config.maxNewTokens < fuel + result.output.generatedTokenIds.length →
      Triple (roundsFrom r fuel result matcher targetCache draftCache (targetRow base) (draftRow base)) s
        (fun a s' => rest r targetRow base result.output matcher s = (.ok ⟨a.output, a.finishReason⟩, s'))
        (fun f s' => rest r targetRow base result.output matcher s = (.error f, s')) := by
  induction fuel with
  | zero =>
    intro _ _ _ _ _ _ _ _ hlive hfuel
    exact absurd hlive.1 (by omega)
  | succ fuel ih =>
    intro base result matcher targetCache draftCache s htbase hdbase hlive hfuel
    refine Triple.ite (fun _ => ?_) fun hno => absurd hlive.1 hno
    refine Triple.bind (round_ok htarget hdraft hnumber hvocab hdrafts htbase hdbase hlive) ?_
    rintro (result' | ⟨result', matcher', targetCache', draftCache', _, _⟩) t ha
    · exact Triple.pure' ha
    · obtain ⟨base', hrest, hth, hdh, rfl, rfl, hlive', hlt⟩ := ha
      rw [hrest]
      exact ih base' result' matcher' targetCache' draftCache' t hth hdh hlive' (by omega)

end

-- Requests

/-- What `validate_generation` checks. -/
structure Accepts (limits : CausalModelLimits) (prompt : List Int) (generation : GreedyGenerationConfig) : Prop where
  vocabulary : ¬(limits.vocabSize = 0 ∨ 2 ^ 31 - 1 < limits.vocabSize - 1)
  nonempty : prompt ≠ []
  tokens : ∀ token ∈ prompt, ¬Outside limits.vocabSize token
  length : prompt.length + generation.maxNewTokens ≤ u64Max
  capacity : prompt.length + generation.maxNewTokens ≤ limits.maxSequenceLength
  eos : (generation.eosTokenIds.filter fun token => Outside limits.vocabSize token).min? = none

variable {limits targetLimits draftLimits : CausalModelLimits} {prompt : List Int} {generation : GreedyGenerationConfig}

theorem forM_failIf {bad : α → Prop} [DecidablePred bad] {message : α → String} (l : List α) :
    Triple (l.forM fun a => M.failIf (bad a) (message a)) s (fun _ s' => s' = s ∧ ∀ a ∈ l, ¬bad a) (fun _ _ => True) := by
  induction l with
  | nil => exact Triple.pure' ⟨rfl, nofun⟩
  | cons a l ih =>
    refine Triple.failIf_bind (fun _ => trivial) fun ha => Triple.mono ih (fun _ s' ⟨hs, hall⟩ => ?_) fun _ _ hf => hf
    exact ⟨hs, List.forall_mem_cons.mpr ⟨ha, hall⟩⟩

theorem forM_failIf_eq {bad : α → Prop} [DecidablePred bad] {message : α → String} {l : List α} (hl : ∀ a ∈ l, ¬bad a) :
    (l.forM fun a => M.failIf (bad a) (message a) : M (Session σ) PUnit) = pure ⟨⟩ := by
  induction l with
  | nil => rfl
  | cons a l ih =>
    obtain ⟨ha, hl⟩ := List.forall_mem_cons.mp hl
    show (M.failIf (bad a) (message a) >>= fun _ => l.forM _) = _
    rw [failIf_bind_of_not ha, ih hl]

theorem validateGeneration_ok :
    Triple (validateGeneration limits prompt generation) s
      (fun eos s' => s' = s ∧ eos = generation.eosTokenIds.toFinset ∧ Accepts limits prompt generation) (fun _ _ => True) := by
  unfold validateGeneration
  refine Triple.failIf_bind (fun _ => trivial) fun hvocab => Triple.failIf_bind (fun _ => trivial) fun hprompt => ?_
  refine Triple.bind (forM_failIf prompt) ?_
  rintro _ t ⟨ht, htokens⟩
  refine Triple.need_bind (fun _ => trivial) fun length hlength => Triple.failIf_bind (fun _ => trivial) fun hcapacity => ?_
  obtain ⟨hmax, rfl⟩ := checkedAdd_eq_some.mp hlength
  split
  · exact Triple.fail' trivial
  · next heos => exact Triple.pure' ⟨ht, rfl, hvocab, hprompt, htokens, hmax, Nat.le_of_not_lt hcapacity, heos⟩

theorem Accepts.validateGeneration_eq (h : Accepts limits prompt generation) :
    (validateGeneration limits prompt generation : M (Session σ) _) = pure generation.eosTokenIds.toFinset := by
  unfold validateGeneration
  rw [failIf_bind_of_not h.vocabulary, failIf_bind_of_not h.nonempty, forM_failIf_eq h.tokens, pure_bind,
    checkedAdd_of_le h.length]
  show (pure _ >>= _) = _
  rw [pure_bind, failIf_bind_of_not (Nat.not_lt_of_le h.capacity), h.eos]

theorem Accepts.draft (h : Accepts targetLimits prompt generation) (hsame : draftLimits.vocabSize = targetLimits.vocabSize)
    (hroom : prompt.length + generation.maxNewTokens ≤ draftLimits.maxSequenceLength) : Accepts draftLimits prompt generation :=
  ⟨hsame ▸ h.vocabulary, h.nonempty, hsame ▸ h.tokens, h.length, hroom, hsame ▸ h.eos⟩

section

variable {target draft : CausalModel F} {targetHistory : target.Cache → List Int} {draftHistory : draft.Cache → List Int}
  {targetRow draftRow : List Int → List F} {config : SpeculativeGenerationConfig}

omit [Logit F] in
theorem lift_ok (result : Res Empty α) : Triple (lift result : M (Session σ) α) s (fun _ s' => s' = s) (fun _ _ => True) := by
  cases result with
  | ok a => exact Triple.pure' rfl
  | error e => exact Triple.panic' trivial

theorem stream_ok (htarget : Follows target targetHistory targetRow targetLimits.vocabSize)
    (hdraft : Follows draft draftHistory draftRow draftLimits.vocabSize) (hnumber : ∀ h, HasNumber (draftRow h))
    (hsame : draftLimits.vocabSize = targetLimits.vocabSize)
    (hroom : prompt.length + config.maxNewTokens ≤ draftLimits.maxSequenceLength) (hdrafts : 0 < config.draftTokens)
    (control : GenerationControl σ) (onToken : OnToken σ) (s : Session σ) :
    Triple (generateCausalSpeculativeStream target targetLimits draft draftLimits prompt config control onToken) s
      (fun a s' => (generateWithSelectorStream target targetLimits prompt ⟨config.maxNewTokens, config.eosTokenIds⟩ control argmax
        onToken).exec s = (.ok ⟨a.output, a.finishReason⟩, s'))
      (fun f s' => (generateWithSelectorStream target targetLimits prompt ⟨config.maxNewTokens, config.eosTokenIds⟩ control argmax
        onToken).exec s = (.error f, s')) := by
  unfold generateCausalSpeculativeStream generateWithSelectorStream
  simp only [M.exec_bind]
  refine Triple.bind (Triple.mono (Triple.and triple_self validateGeneration_ok) (fun _ _ hq => hq) ?_) ?_
  · rintro f t ⟨hexec, -⟩
    rw [hexec]
  rintro eos t ⟨hexec, ht, rfl, haccepts⟩
  rw [hexec]
  dsimp only
  rw [(haccepts.draft hsame hroom).validateGeneration_eq]
  rw [ht]
  refine Triple.pure_bind (Triple.failIf_bind (fun hbad => ?_) fun _ => ?_)
  · exact absurd hbad (by rw [hsame]; omega)
  refine Triple.bind (Triple.mono triple_self (fun _ _ hq => hq) ?_) ?_
  · intro f t hexec
    rw [hexec]
  rintro _ t hexec
  rw [hexec]
  dsimp only
  have hcancelled : control.cancelled.exec t = (.ok (control.isCancelled t.state), t) := rfl
  refine Triple.bind (Triple.of_exec (Q := fun c t' => c = control.isCancelled t.state ∧ t' = t) hcancelled ⟨rfl, rfl⟩) ?_
  rintro _ t' ⟨rfl, ht'⟩
  rw [ht', hcancelled]
  dsimp only
  by_cases hstop : config.maxNewTokens = 0 ∨ control.isCancelled t.state = true
  · simp only [if_pos hstop]
    refine Triple.pure' ?_
    cases control.isCancelled t.state <;> rfl
  simp only [if_neg hstop]
  obtain ⟨hpos, hlive⟩ := not_or.mp hstop
  rw [Bool.not_eq_true] at hlive
  refine Triple.bind (Triple.mono (Triple.and triple_self (lift_ok _)) (fun _ _ hq => hq) ?_) ?_
  · rintro f u ⟨hmatcher, -⟩
    rw [M.exec_bind, hmatcher]
  rintro matcher u ⟨hmatcher, hu⟩
  rw [M.exec_bind, hmatcher]
  dsimp only
  obtain ⟨targetCache, htnext, hthistory⟩ := htarget.nextRow haccepts.nonempty target.newCache
  obtain ⟨draftCache, hdnext, hdhistory⟩ := hdraft.nextRow haccepts.nonempty draft.newCache
  rw [htarget.new, List.nil_append] at htnext hthistory
  rw [hdraft.new, List.nil_append] at hdnext hdhistory
  rw [hsame] at hdnext hdraft
  rw [htnext, pure_bind]
  dsimp only
  rw [hdnext, pure_bind]
  have hvocab : targetLimits.vocabSize ≤ 2 ^ 31 := by
    have := haccepts.vocabulary
    omega
  obtain ⟨hlogits, hhistory⟩ := htarget.last prompt target.newCache haccepts.nonempty
  rw [htarget.new, List.nil_append] at hlogits hhistory
  let r : Request σ F := ⟨target, draft, config, config.eosTokenIds.toFinset, control, onToken, targetLimits.vocabSize⟩
  have hordinary : stepsFrom target targetLimits ⟨config.maxNewTokens, config.eosTokenIds⟩ r.eos r.control argmax r.onToken
      config.maxNewTokens 0 ⟨prompt, [], false⟩ matcher (target.tryForwardCachedLast prompt target.newCache).2
        (targetRow (targetHistory (target.tryForwardCachedLast prompt target.newCache).2)) =
      greedyFrom r targetRow config.maxNewTokens (targetHistory (target.tryForwardCachedLast prompt target.newCache).2)
        ⟨prompt, [], false⟩ matcher :=
    stepsFrom_eq htarget hvocab rfl _ ⟨prompt, [], false⟩ matcher _
  rw [hhistory] at hordinary
  have hlive' : Live r ⟨prompt, [], false⟩ u := ⟨Nat.pos_of_ne_zero hpos, hu ▸ hlive⟩
  have hrounds := roundsFrom_ok (r := r) htarget hdraft hnumber hvocab hdrafts (config.maxNewTokens + 1) prompt
    ⟨⟨prompt, [], false⟩, .maxNewTokens, ⟨0, 0, 0, 0, 0, 0, 0⟩⟩ matcher targetCache draftCache u hthistory hdhistory hlive'
    (Nat.lt_succ_self _)
  rw [hlive, if_neg Bool.false_ne_true]
  have hrest : rest r targetRow prompt ⟨prompt, [], false⟩ matcher u =
      (stepsFrom target targetLimits ⟨config.maxNewTokens, config.eosTokenIds⟩ config.eosTokenIds.toFinset control argmax onToken
        config.maxNewTokens 0 ⟨prompt, [], false⟩ matcher (target.tryForwardCachedLast prompt target.newCache).2
        (target.tryForwardCachedLast prompt target.newCache).1).exec u := by
    rw [hlogits]
    exact congrArg (fun m : M (Session σ) ControlledGenerationOutput => m.exec u) hordinary.symm
  rw [hrest] at hrounds
  exact hrounds

/-- Speculation changes neither the output nor the reason for its end, nor the events of the
callback, nor how a request fails. -/
theorem speculation_changes_nothing (htarget : Follows target targetHistory targetRow targetLimits.vocabSize)
    (hdraft : Follows draft draftHistory draftRow draftLimits.vocabSize) (hnumber : ∀ h, HasNumber (draftRow h))
    (hsame : draftLimits.vocabSize = targetLimits.vocabSize)
    (hroom : prompt.length + config.maxNewTokens ≤ draftLimits.maxSequenceLength) (hdrafts : 0 < config.draftTokens)
    (control : GenerationControl σ) (onToken : OnToken σ) (s : Session σ) :
    ((fun a => ControlledGenerationOutput.mk a.output a.finishReason) <$>
        generateCausalSpeculativeStream target targetLimits draft draftLimits prompt config control onToken).exec s =
      (generateWithSelectorStream target targetLimits prompt ⟨config.maxNewTokens, config.eosTokenIds⟩ control argmax
        onToken).exec s := by
  have hstream := stream_ok htarget hdraft hnumber hsame hroom hdrafts control onToken s
  rw [M.exec_map]
  rcases hexec : (generateCausalSpeculativeStream target targetLimits draft draftLimits prompt config control onToken).exec s with
    ⟨f | a, s'⟩
  · exact (hstream.fault hexec).symm
  · exact (hstream.ok hexec).symm

end

-- Small models

/-- Numbers, and `none` for what is none. -/
instance : Logit (Option Nat) := ⟨Option.isNone, fun a b => decide (b.getD 0 < a.getD 0)⟩

/-- A model that caches the history itself. -/
def remembering (row : List Int → List (Option Nat)) : CausalModel (Option Nat) where
  Cache := List Int
  newCache := []
  forkCache := id
  tryForwardCachedLast tokens cache := (row (cache ++ tokens), cache ++ tokens)
  tryForwardCachedBlock tokens cache :=
    ((List.range tokens.length).map fun i => row (cache ++ tokens.take (i + 1)), cache ++ tokens)

theorem remembering_follows {row : List Int → List (Option Nat)} (hlength : ∀ h, (row h).length = n) :
    Follows (remembering row) id row n :=
  ⟨rfl, fun _ => rfl, fun _ _ _ => ⟨rfl, rfl⟩, fun _ _ _ => ⟨rfl, rfl⟩, hlength⟩

/-- The tokens 0 and 1 in turn, by the length of the history. -/
def alternating (h : List Int) : List (Option Nat) := [some (h.length % 2), some ((h.length + 1) % 2)]

def constant (_ : List Int) : List (Option Nat) := [some 1, some 0]

theorem speculation_changes_nothing_alternating :
    ((fun a => ControlledGenerationOutput.mk a.output a.finishReason) <$>
        generateCausalSpeculativeStream (remembering alternating) ⟨2, 8⟩ (remembering constant) ⟨2, 8⟩ [0] ⟨3, [], 2⟩
          ⟨[], fun _ => false⟩ (fun _ n => (false, n + 1))).exec (⟨0, []⟩ : Session Nat) =
      (generateWithSelectorStream (remembering alternating) ⟨2, 8⟩ [0] ⟨3, []⟩ ⟨[], fun _ => false⟩ argmax
        (fun _ n => (false, n + 1))).exec ⟨0, []⟩ :=
  speculation_changes_nothing (remembering_follows (n := 2) fun _ => rfl)
    (remembering_follows (n := 2) fun _ => rfl) (fun _ => ⟨some 1, List.mem_cons_self, rfl⟩) rfl (by decide) (by decide) _ _ _

/-- A draft of another vocabulary, or without any number, makes the request fail. -/
theorem draft_refused :
    ((generateWithSelectorStream (remembering alternating) ⟨2, 8⟩ [0] ⟨3, []⟩ ⟨[], fun _ => false⟩ argmax
        (fun _ n => (false, n + 1))).exec (⟨0, []⟩ : Session Nat)).1 = .ok ⟨⟨[0, 0, 1, 0], [0, 1, 0], false⟩, .maxNewTokens⟩ ∧
      ((generateCausalSpeculativeStream (remembering alternating) ⟨2, 8⟩ (remembering fun _ => [some 0, some 0, some 0]) ⟨3, 8⟩ [0]
        ⟨3, [], 2⟩ ⟨[], fun _ => false⟩ (fun _ n => (false, n + 1))).exec (⟨0, []⟩ : Session Nat)).1 =
        .error (.error "speculation requires a positive draft length and matching vocabularies") ∧
      ((generateCausalSpeculativeStream (remembering alternating) ⟨2, 8⟩ (remembering fun _ => [none, none]) ⟨2, 8⟩ [0]
        ⟨3, [], 2⟩ ⟨[], fun _ => false⟩ (fun _ n => (false, n + 1))).exec (⟨0, []⟩ : Session Nat)).1 =
        .error (.error "all vocabulary logits are NaN") := by
  decide +kernel

end Ruda.Generation
