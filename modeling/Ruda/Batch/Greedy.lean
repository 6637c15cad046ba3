import Ruda.Batch.Steps

/-!
# Scheduling does not change greedy outputs

A model is a function `f` from histories to next tokens. If every batch that is
completed is completed with the tokens `f` gives, then every result is the plain
greedy iteration of `f` from its prompt, however requests were batched, chunked,
preempted, recomputed, drafted or cancelled in between.
-/

namespace Ruda.Batch

open Kv ContinuousBatchScheduler

variable {s s' : ContinuousBatchScheduler} {chain : ChainHash} {id : RequestId} {r : ActiveRequest}
  {f : List Token → Token} {eos prompt out : List Token} {generation : GreedyGenerationConfig}
  {n : Nat}

-- Plain greedy decoding

/-- At most `n` tokens after `history`, up to the first one in `eos`. -/
def greedy (f : List Token → Token) (eos : List Token) : Nat → List Token → List Token
  | 0, _ => []
  | n + 1, history =>
    if f history ∈ eos then [f history] else f history :: greedy f eos n (history ++ [f history])

/-- `out` is a proper beginning of the greedy output, with no stop in it. -/
structure OnTrack (f : List Token → Token) (prompt : List Token) (generation : GreedyGenerationConfig)
    (out : List Token) : Prop where
  short : out.length < generation.maxNewTokens
  rest : greedy f generation.eosTokenIds generation.maxNewTokens prompt =
    out ++ greedy f generation.eosTokenIds (generation.maxNewTokens - out.length) (prompt ++ out)

theorem OnTrack.nil (h : 0 < generation.maxNewTokens) : OnTrack f prompt generation [] :=
  ⟨h, by simp⟩

theorem OnTrack.remaining (h : OnTrack f prompt generation out) :
    generation.maxNewTokens - out.length = generation.maxNewTokens - (out.length + 1) + 1 := by
  have := h.short
  omega

theorem OnTrack.step (h : OnTrack f prompt generation out)
    (heos : f (prompt ++ out) ∉ generation.eosTokenIds)
    (hshort : out.length + 1 < generation.maxNewTokens) :
    OnTrack f prompt generation (out ++ [f (prompt ++ out)]) := by
  refine ⟨by simpa using hshort, ?_⟩
  rw [h.rest, h.remaining, greedy, if_neg heos]
  simp

theorem OnTrack.stop (h : OnTrack f prompt generation out)
    (hstop : f (prompt ++ out) ∈ generation.eosTokenIds ∨ generation.maxNewTokens ≤ out.length + 1) :
    greedy f generation.eosTokenIds generation.maxNewTokens prompt = out ++ [f (prompt ++ out)] := by
  rw [h.rest, h.remaining, greedy]
  split
  · rfl
  next heos =>
  have hlast : generation.maxNewTokens - (out.length + 1) = 0 :=
    Nat.sub_eq_zero_of_le (hstop.resolve_left heos)
  rw [hlast, greedy]

-- The guarantee

/-- What was submitted, by the id it was given. -/
abbrev Submitted := BTreeMap (List Token × GreedyGenerationConfig)

/-- `g` is the greedy output of what was submitted under its id. -/
def GreedyResult (f : List Token → Token) (submitted : Submitted) (g : FinishedGeneration) : Prop :=
  ∃ generation, submitted[g.requestId]? = some (g.promptTokenIds, generation) ∧
    g.generatedTokenIds =
      greedy f generation.eosTokenIds generation.maxNewTokens g.promptTokenIds ∧
    (g.stoppedOnEos = true ↔ ∃ token, g.generatedTokenIds.getLast? = some token ∧
      token ∈ generation.eosTokenIds)

def greedyOf (chain : ChainHash) (f : List Token → Token) (submitted : Submitted) : Guarantee where
  chain
  kv := SeqOk
  panics := True
  leaks := True
  policy := fun _ => True
  room := fun _ _ => True
  request := fun id prompt generation out =>
    submitted[id]? = some (prompt, generation) ∧ OnTrack f prompt generation out
  result := GreedyResult f submitted

theorem greedyOf_kept {submitted : Submitted} : (greedyOf chain f submitted).Kept where
  tables := fun _ h => h
  ops := fun _ op h _ => (op.run_seqOk h).mono (fun _ _ h => h) fun _ _ _ _ => trivial

variable {submitted : Submitted}

theorem settles_next {out : List Token} (hsub : submitted[id]? = some (r.promptTokenIds, r.generation))
    (heos : r.eos = r.generation.eosTokenIds.toFinset)
    (hout : OnTrack f r.promptTokenIds r.generation out)
    (hr : r.generatedTokenIds = out ++ [f (r.promptTokenIds ++ out)]) :
    Settles (greedyOf chain f submitted) id r (f (r.promptTokenIds ++ out)) := by
  unfold Settles
  have hmem : f (r.promptTokenIds ++ out) ∈ r.eos ↔
      f (r.promptTokenIds ++ out) ∈ r.generation.eosTokenIds := by
    rw [heos, List.mem_toFinset]
  have hlen : r.generatedTokenIds.length = out.length + 1 := by simp [hr]
  split
  · next hstop =>
    rw [hmem, hlen] at hstop
    refine ⟨r.generation, hsub, ?_, ?_⟩
    · exact hr.trans (hout.stop hstop).symm
    · simp [hr, hmem]
  · next hgo =>
    rw [hmem, hlen, not_or, not_le] at hgo
    exact ⟨hsub, hr ▸ hout.step hgo.1 hgo.2⟩

/-- The loop over a draft only accepts tokens of `f`: at `position` the accepted
tokens are those of the draft. -/
theorem acceptDraft_greedy {draft : List Token} {remaining position : Nat} {produced predictions : List Token}
    (heos : r.eos = r.generation.eosTokenIds.toFinset)
    (hremaining : remaining = r.generation.maxNewTokens - r.generatedTokenIds.length)
    (hdraft : produced = (draft.drop 1).take position) (hlen : produced.length = position)
    (hin : position < draft.length)
    (hpred : predictions = (List.range' position (draft.length - position)).map fun i =>
      f (r.promptTokenIds ++ (r.generatedTokenIds ++ (draft.drop 1).take i)))
    (hout : OnTrack f r.promptTokenIds r.generation (r.generatedTokenIds ++ produced))
    {result : List Token}
    (h : acceptDraft remaining r.eos draft.length draft position produced predictions = some result) :
    ∃ more, result = more ++ [f (r.promptTokenIds ++ (r.generatedTokenIds ++ more))] ∧
      OnTrack f r.promptTokenIds r.generation (r.generatedTokenIds ++ more) := by
  induction predictions generalizing position produced with
  | nil =>
    simp at hpred
    omega
  | cons prediction rest ih =>
    obtain ⟨k, hk⟩ : ∃ k, draft.length - position = k + 1 := ⟨draft.length - position - 1, by omega⟩
    rw [hk, List.range'_succ, List.map_cons, List.cons.injEq, ← hdraft] at hpred
    obtain ⟨hprediction, hrest⟩ := hpred
    have hdone : ∃ more, produced ++ [prediction] =
        more ++ [f (r.promptTokenIds ++ (r.generatedTokenIds ++ more))] ∧
        OnTrack f r.promptTokenIds r.generation (r.generatedTokenIds ++ more) :=
      ⟨produced, by rw [hprediction], hout⟩
    simp only [acceptDraft] at h
    split at h
    · cases h
      exact hdone
    next hgo =>
    split at h
    · cases h
      exact hdone
    next hwidth =>
    split at h
    · cases h
    next token htoken =>
    split at h
    · next heq =>
      -- the draft token is the next token of `f`
      have htake : (draft.drop 1).take (position + 1) = produced ++ [prediction] := by
        rw [List.take_add_one, ← hdraft, List.getElem?_drop, Nat.add_comm 1 position, htoken, heq]
        rfl
      simp only [not_or, List.length_append, List.length_singleton] at hgo
      have hnot : prediction ∉ r.generation.eosTokenIds := by
        have := hgo.2
        rwa [heos, List.mem_toFinset] at this
      have hshort := hout.short
      rw [List.length_append] at hshort
      refine ih htake.symm (by simp [hlen]) (by omega) ?_ ?_ h
      · rw [hrest]
        congr 2
        omega
      · rw [← List.append_assoc, hprediction]
        refine hout.step (hprediction ▸ hnot) ?_
        rw [List.length_append]
        omega
    · cases h
      exact hdone

theorem draftSettles_greedy {draft predictions : List Token}
    (hsub : submitted[id]? = some (r.promptTokenIds, r.generation))
    (heos : r.eos = r.generation.eosTokenIds.toFinset) (hpos : draft ≠ [])
    (hpred : predictions = (List.range draft.length).map fun i =>
      f (r.promptTokenIds ++ (r.generatedTokenIds ++ (draft.drop 1).take i)))
    (hout : OnTrack f r.promptTokenIds r.generation r.generatedTokenIds) :
    DraftSettles (greedyOf chain f submitted) id r draft predictions := by
  intro produced last haccept hlast
  have hrange : predictions = (List.range' 0 (draft.length - 0)).map fun i =>
      f (r.promptTokenIds ++ (r.generatedTokenIds ++ (draft.drop 1).take i)) := by
    rw [hpred, List.range_eq_range', Nat.sub_zero]
  have hstart : OnTrack f r.promptTokenIds r.generation (r.generatedTokenIds ++ []) := by
    rwa [List.append_nil]
  obtain ⟨more, rfl, hmore⟩ := acceptDraft_greedy heos rfl List.take_zero.symm rfl
    (List.length_pos_iff.mpr hpos) hrange hstart haccept
  obtain rfl : f (r.promptTokenIds ++ (r.generatedTokenIds ++ more)) = last := by simpa using hlast
  have hext : (extendRequest r (more ++ [f (r.promptTokenIds ++ (r.generatedTokenIds ++ more))])
      ).generatedTokenIds = r.generatedTokenIds ++ more ++
        [f (r.promptTokenIds ++ (r.generatedTokenIds ++ more))] := by
    simp [extendRequest]
  exact settles_next (r := extendRequest r _) hsub heos hmore hext

-- Runs

/-- A scheduler together with what was submitted to it. -/
structure Served where
  scheduler : ContinuousBatchScheduler
  submitted : Submitted

def Served.inner (m : BatchM α) : M Served α :=
  M.zoom scheduler (fun w scheduler => { w with scheduler }) m

/-- A public call; a request that is accepted is noted under its id. -/
def Served.run (chain : ChainHash) : BatchOp → M Served Unit
  | .submit prompt generation sampled => do
    let id ← inner (submitWithSampler prompt generation sampled)
    modify fun w => { w with submitted := w.submitted.insert id (prompt, generation) }
  | op => inner (op.run chain)

/-- Batches are completed with the tokens of `f`: a plain batch for every row that
samples, a verify batch at every position of every row. -/
def Answered (f : List Token → Token) (w : Served) : BatchOp → Prop
  | .completeBatch batchId tokens =>
    ∀ batch, w.scheduler.inFlight = some batch → batch.id = batchId → batch.kind ≠ .verify ∧
      ∀ e ∈ batch.sequences.zip tokens, w.scheduler.samplesToken e.1 = true →
        ∀ r, w.scheduler.active[e.1.requestId]? = some r → e.2 = f r.history
  | .completeVerifyBatch batchId argmax =>
    ∀ batch, w.scheduler.inFlight = some batch → batch.id = batchId → batch.kind = .verify →
      ∀ e ∈ batch.sequences.zipIdx, ∀ r, w.scheduler.active[e.1.requestId]? = some r →
        ∀ i < batch.nextN,
          argmax[e.2 * batch.nextN + i]? = some (f (r.history ++ (e.1.tokenIds.drop 1).take i))
  | _ => True

instance (f : List Token → Token) (w : Served) : (op : BatchOp) → Decidable (Answered f w op)
  | .completeBatch batchId tokens => inferInstanceAs (Decidable (
      ∀ batch ∈ w.scheduler.inFlight, batch.id = batchId → batch.kind ≠ .verify ∧
        ∀ e ∈ batch.sequences.zip tokens, w.scheduler.samplesToken e.1 = true →
          ∀ r ∈ w.scheduler.active[e.1.requestId]?, e.2 = f r.history))
  | .completeVerifyBatch batchId argmax => inferInstanceAs (Decidable (
      ∀ batch ∈ w.scheduler.inFlight, batch.id = batchId → batch.kind = .verify →
        ∀ e ∈ batch.sequences.zipIdx, ∀ r ∈ w.scheduler.active[e.1.requestId]?,
          ∀ i < batch.nextN,
            argmax[e.2 * batch.nextN + i]? = some (f (r.history ++ (e.1.tokenIds.drop 1).take i))))
  | .submit .. | .schedule | .failBatch _ | .cancel _ | .setBatchTokenLimit _
  | .setSpeculativeDecoding _ | .setPrefixCaching _ | .popFinished => inferInstanceAs (Decidable True)

theorem Inv.extend {submitted' : Submitted} (h : Inv (greedyOf chain f submitted) s)
    (hsame : ∀ id < s.nextRequest, submitted'[id]? = submitted[id]?) :
    Inv (greedyOf chain f submitted') s := by
  have hc := h.core
  refine ⟨⟨hc.kv, hc.maxActive, hc.maxTokens, fun p hp => ?_, hc.queued, hc.apart, fun id r hr => ?_,
    hc.phases, hc.rows, hc.domain, fun g hg => ?_, hc.budgets,
    ⟨hc.setup.deferred, hc.setup.ceiling, trivial, hc.setup.whole⟩⟩, h.idle, h.distinct, h.rows⟩
  · have hw := hc.waiting p hp
    exact ⟨hw.fresh, hw.prompt, hw.more, hw.fits, hw.affordable,
      (hsame _ hw.fresh).trans hw.good.1, hw.good.2⟩
  · have hrun := hc.running id r hr
    exact ⟨hrun.fresh, hrun.prompt, hrun.history, hrun.more, hrun.fits, hrun.eos,
      (hsame _ hrun.fresh).trans hrun.good.1, hrun.good.2⟩
  · obtain ⟨hlt, generation, hsub, hrest⟩ := hc.finished g hg
    exact ⟨hlt, generation, (hsame _ hlt).trans hsub, hrest⟩

theorem blockOf_eq_map {argmax : List Token} {g : Nat → Token} {i : Nat}
    (h : ∀ j < n, argmax[i * n + j]? = some (g j)) : blockOf argmax n i = (List.range n).map g := by
  apply List.ext_getElem?
  intro j
  rw [blockOf, List.getElem?_take, List.getElem?_map, List.getElem?_drop]
  split
  · next hj => rw [h j hj, List.getElem?_range hj, Option.map_some]
  · next hj => simp [not_lt.mp hj]

theorem Answered.allowed {w : Served} {op : BatchOp} (h : Answered f w op)
    (hinv : Inv (greedyOf chain f w.submitted) w.scheduler)
    (hop : ∀ prompt generation sampled, op ≠ .submit prompt generation sampled) :
    op.Allowed (greedyOf chain f w.submitted) w.scheduler := by
  cases op with
  | submit prompt generation sampled => exact absurd rfl (hop prompt generation sampled)
  | schedule => exact ⟨fun _ _ _ _ _ _ => trivial, fun hno => absurd trivial hno, fun _ _ _ => trivial⟩
  | completeBatch batchId tokens =>
    refine ⟨fun batch hb hid => (h batch hb hid).1, fun batch hb hid e he hsample r hr => ?_⟩
    have hrun := hinv.core.running _ r hr
    have htoken := (h batch hb hid).2 e he hsample r hr
    rw [hrun.history] at htoken
    rw [htoken]
    exact settles_next (r := extendRequest r _) hrun.good.1 hrun.eos hrun.good.2 rfl
  | completeVerifyBatch batchId argmax =>
    intro batch hb hid hkind hlen e he r hr
    have hrun := hinv.core.running _ r hr
    have hrow := (List.mem_zipIdx he).2.2
    have hmem : e.1 ∈ batch.sequences := by
      rw [hrow]
      exact List.getElem_mem _
    obtain ⟨hok, hwidth⟩ := (hinv.rows batch hb).2 e.1 hmem
    refine draftSettles_greedy hrun.good.1 hrun.eos (hok.nonempty greedyOf_kept hinv.core.kv) ?_
      hrun.good.2
    rw [hwidth]
    refine blockOf_eq_map fun i hi => ?_
    rw [h batch hb hid hkind e he r hr i hi, hrun.history, List.append_assoc]
  | _ => trivial

theorem Served.run_ok {w : Served} (op : BatchOp) (h : Inv (greedyOf chain f w.submitted) w.scheduler)
    (hok : Answered f w op) :
    Triple (Served.run chain op) w
      (fun _ w' => Inv (greedyOf chain f w'.submitted) w'.scheduler)
      (fun e w' => e.IsPanic ∨ Inv (greedyOf chain f w'.submitted) w'.scheduler) := by
  have hother : op.Allowed (greedyOf chain f w.submitted) w.scheduler →
      Triple (inner (op.run chain)) w
        (fun _ w' => Inv (greedyOf chain f w'.submitted) w'.scheduler)
        (fun e w' => e.IsPanic ∨ Inv (greedyOf chain f w'.submitted) w'.scheduler) := fun hallowed =>
    Triple.zoom ((BatchOp.run_ok greedyOf_kept op h hallowed).mono (fun _ _ h => h)
      fun _ _ hf => hf.imp And.left And.right)
  cases op with
  | submit prompt generation sampled =>
    have hnew : (w.submitted.insert w.scheduler.nextRequest (prompt, generation))[
        w.scheduler.nextRequest]? = some (prompt, generation) := by simp
    -- the ids in use are all older than the one given out
    have hinv : Inv (greedyOf chain f
        (w.submitted.insert w.scheduler.nextRequest (prompt, generation))) w.scheduler :=
      h.extend fun id hlt => (BTreeMap.get_insert ..).trans (if_neg hlt.ne)
    refine Triple.bind (Q := fun id w' => id = w.scheduler.nextRequest ∧ w'.submitted = w.submitted ∧
      Inv (greedyOf chain f (w.submitted.insert w.scheduler.nextRequest (prompt, generation)))
        w'.scheduler) (Triple.zoom ((submitWithSampler_ok hinv ?_ ?_).mono ?_ ?_)) ?_
    · exact fun hpos => ⟨hnew, .nil hpos⟩
    · refine fun hzero => ⟨generation, hnew, ?_, by simp⟩
      rw [hzero]
      rfl
    · rintro id s' ⟨hs', hid, -⟩
      exact ⟨hid, rfl, hs'⟩
    · rintro e s' ⟨-, rfl⟩
      exact .inr h
    · rintro _ w' ⟨rfl, hsub, hw'⟩
      refine Triple.modify' ?_
      rw [hsub]
      exact hw'
  | _ => exact hother (hok.allowed h nofun)

/-- Every result is the greedy output of what was submitted. -/
theorem scheduling_keeps_greedy_outputs {s₀ : ContinuousBatchScheduler} {w : Served}
    {g : FinishedGeneration} (hnew : Constructed s₀)
    (h : Reach (Served.run chain) (Answered f) ⟨s₀, ∅⟩ w)
    (hpop : popFinished.exec w.scheduler = (.ok (some g), s')) : GreedyResult f w.submitted g := by
  have hinv : Inv (greedyOf chain f w.submitted) w.scheduler :=
    h.inv (P := fun w => Inv (greedyOf chain f w.submitted) w.scheduler)
      (hnew.inv (fun _ => trivial) fun config hbs _ => SeqOk.initial hbs) fun w op hw hok => Served.run_ok op hw hok
  exact ((popFinished_ok hinv).ok hpop).2 g rfl

/-- Four fives, then the stop token. -/
def fives (history : List Token) : Token := if history.length < 4 then 5 else 9

def fiveRun : List BatchOp :=
  [.setSpeculativeDecoding (some ⟨2, 1, two_le_usizeMax, one_le_usizeMax⟩),
    .submit [5, 5] { maxNewTokens := 8, eosTokenIds := [9] } false, .schedule, .completeBatch 1 [5],
    .schedule, .completeVerifyBatch 2 [5, 9, 9]]

def fiveServer : ContinuousBatchScheduler :=
  initial ⟨1, 4⟩ (PagedKvCacheManager.initial ⟨1, 8, 10, one_le_usizeMax, eight_le_usizeMax, ten_le_usizeMax⟩) {}

/-- The second batch accepts a draft that ends in the stop token. -/
theorem scheduling_keeps_greedy_outputs_draft :
    GreedyResult fives (runAll (Served.run fun _ _ => 0) fiveRun ⟨fiveServer, ∅⟩).submitted
      { requestId := 1, promptTokenIds := [5, 5], generatedTokenIds := [5, 5, 9],
        stoppedOnEos := true } := by
  have hnew : withOptions ⟨1, 4⟩ { blockSize := 1, numPages := 8, maxSequenceLength := 10 } {} =
    .ok fiveServer := rfl
  have hpop : (popFinished.exec
      (runAll (Served.run fun _ _ => 0) fiveRun ⟨fiveServer, ∅⟩).scheduler).1 =
        .ok (some { requestId := 1, promptTokenIds := [5, 5], generatedTokenIds := [5, 5, 9],
                    stoppedOnEos := true }) := by
    decide +kernel
  refine scheduling_keeps_greedy_outputs (.withOptions hnew) (Reach.of_allOk ?_ ?_) (M.exec_of_fst hpop)
  · decide +kernel
  · decide +kernel

end Ruda.Batch
