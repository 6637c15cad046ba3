import Ruda.Serving.StopStrings

/-!
# Stop strings are not sent

A stop string that is not in the text yet but starts in it starts with an ending that is
held back. So what is sent is always before the first stop string to come, and nothing
is held back that no stop string can begin with.
-/

namespace Ruda.Serving

open Text Progress

variable {text piece a b : Text} {stops pieces : List Text} {p p' : Progress}

/-- No stop string is in the text. -/
def Clear (stops : List Text) (text : Text) : Prop := ∀ stop ∈ stops, ¬stop <:+: text

/-- `a` is what is before the first stop string. -/
def BeforeStop (stops : List Text) (text a : Text) : Prop :=
  (∃ stop ∈ stops, ∃ b, text = a ++ stop ++ b) ∧
    ∀ stop ∈ stops, ∀ a' b', text = a' ++ stop ++ b' → byteLen a ≤ byteLen a'

theorem firstStop_none (h : firstStop stops text = none) : Clear stops text := by
  intro stop hstop
  have hnil := List.min?_eq_none_iff.mp h
  rw [← find_eq_none, Option.eq_none_iff_forall_ne_some]
  intro n hn
  have hmem : n ∈ stops.filterMap fun stop => find stop text := List.mem_filterMap.mpr ⟨stop, hstop, hn⟩
  rw [hnil] at hmem
  cases hmem

theorem firstStop_some {n : Nat} (h : firstStop stops text = some n) : ∃ a, byteLen a = n ∧ BeforeStop stops text a := by
  obtain ⟨hmem, hmin⟩ := List.min?_eq_some_iff.mp h
  obtain ⟨stop, hstop, hfind⟩ := List.mem_filterMap.mp hmem
  obtain ⟨a, b, heq, hlen, -⟩ := find_eq_some hfind
  refine ⟨a, hlen, ⟨stop, hstop, b, heq⟩, fun stop' hstop' a' b' heq' => ?_⟩
  -- the first place of another stop string is not earlier than the earliest of all
  cases hother : find stop' text with
  | none => exact absurd ⟨a', b', heq'.symm⟩ (find_eq_none.mp hother)
  | some n' =>
    obtain ⟨a'', b'', -, hlen'', hfirst⟩ := find_eq_some hother
    have := hmin n' (List.mem_filterMap.mpr ⟨stop', hstop', hother⟩)
    have := hfirst a' b' heq'
    omega

-- More text

theorem HeldBack.before_stop (h : HeldBack stops a b) (hclear : Clear stops (a ++ b)) {stop a' b' : Text}
    (hstop : stop ∈ stops) (heq : a ++ b ++ piece = a' ++ stop ++ b') : byteLen a ≤ byteLen a' := by
  by_contra hlt
  rw [not_le] at hlt
  have hle : byteLen a' ≤ byteLen (a ++ b) := by
    rw [byteLen_append]
    omega
  rw [List.append_assoc a' stop b'] at heq
  obtain ⟨d, hd⟩ := prefix_of_byteLen_le heq.symm hle
  have hrest : d ++ piece = stop ++ b' := by
    rw [← hd, List.append_assoc] at heq
    exact List.append_cancel_left heq
  by_cases hinside : byteLen stop ≤ byteLen d
  · obtain ⟨e, rfl⟩ := prefix_of_byteLen_le hrest.symm hinside
    exact hclear stop hstop ⟨a', e, by rw [List.append_assoc, hd]⟩
  · obtain ⟨e, rfl⟩ := prefix_of_byteLen_le hrest (by omega)
    have hne : d ≠ [] := by
      rintro rfl
      have := congrArg byteLen hd
      rw [List.append_nil, byteLen_append] at this
      omega
    have hmore : e ≠ [] := by
      rintro rfl
      rw [List.append_nil] at hinside
      exact hinside le_rfl
    have := h.longest a' d hd.symm ⟨hne, e, hmore, hstop⟩
    omega

theorem HeldBack.mono (h : HeldBack stops a b) {a' b' : Text} (h' : HeldBack stops a' b') (heq : a ++ b ++ piece = a' ++ b') :
    a <+: a' := by
  refine prefix_of_byteLen_le ((List.append_assoc a b piece).symm.trans heq) ?_
  by_contra hlt
  rw [not_le] at hlt
  have hle : byteLen a' ≤ byteLen (a ++ b) := by
    rw [byteLen_append]
    omega
  obtain ⟨d, hd⟩ := prefix_of_byteLen_le heq.symm hle
  have hrest : d ++ piece = b' := by
    rw [← hd, List.append_assoc] at heq
    exact List.append_cancel_left heq
  have hne : d ≠ [] := by
    rintro rfl
    have := congrArg byteLen hd
    rw [List.append_nil, byteLen_append] at this
    omega
  rcases h'.begins with hnil | ⟨-, rest, hrest', hstop⟩
  · rw [hnil] at hrest
    exact hne (List.append_eq_nil_iff.mp hrest).1
  · rw [← hrest, List.append_assoc] at hstop
    have := h.longest a' d hd.symm ⟨hne, piece ++ rest, List.append_ne_nil_of_right_ne_nil _ hrest', hstop⟩
    omega

-- The loop

/-- What is sent. -/
def Progress.sent (p : Progress) : Text := p.chunks.flatten

/-- The state of a stream that goes on. -/
structure Streaming (stops : List Text) (p : Progress) : Prop where
  going : p.stopped = false
  emitted : p.emitted = byteLen p.sent
  clear : Clear stops p.text
  held : ∃ b, p.text = p.sent ++ b ∧ HeldBack stops p.sent b

/-- The state of a stream that ended at the first stop string of `received`. -/
structure Ended (stops : List Text) (received : Text) (p : Progress) : Prop where
  stopped : p.stopped = true
  emitted : p.emitted = byteLen p.sent
  all : p.sent = p.text
  before : BeforeStop stops received p.text

theorem send_spec (hemitted : p.emitted = byteLen p.sent) (htext : p.text = a ++ b) (hpre : p.sent <+: a) :
    ∃ p', p.send (byteLen a) = .ok p' ∧ p'.text = p.text ∧ p'.stopped = p.stopped ∧ p'.sent = a ∧ p'.emitted = byteLen a := by
  obtain ⟨d, rfl⟩ := hpre
  unfold Progress.send
  split
  · refine ⟨{ p with emitted := byteLen (p.sent ++ d), chunks := p.chunks ++ [d] }, ?_, rfl, rfl, ?_, rfl⟩
    · rw [hemitted, htext, between_append, ok_bind]
    · simp [Progress.sent]
  · next hle =>
    have hd : d = [] := byteLen_eq_zero.mp (by rw [hemitted, byteLen_append] at hle; omega)
    subst hd
    exact ⟨p, rfl, rfl, rfl, (List.append_nil _).symm, by rw [hemitted, List.append_nil]⟩

theorem push_spec (h : Streaming stops p) (piece : Text) :
    ∃ p', p.push stops piece = .ok p' ∧ p.sent <+: p'.sent ∧
      (Streaming stops p' ∧ p'.text = p.text ++ piece ∨ Ended stops (p.text ++ piece) p') := by
  obtain ⟨b, htext, hheld⟩ := h.held
  have hclear := h.clear
  rw [htext] at hclear
  unfold Progress.push
  simp only
  cases hfirst : firstStop stops (p.text ++ piece) with
  | some n =>
    obtain ⟨a, rfl, hbefore⟩ := firstStop_some hfirst
    obtain ⟨stop, hstop, b', heq⟩ := hbefore.1
    rw [htext] at heq
    have hpre : p.sent <+: a := by
      have hle := hheld.before_stop hclear hstop heq
      rw [List.append_assoc, List.append_assoc a] at heq
      exact prefix_of_byteLen_le heq hle
    have hcut : upTo (p.text ++ piece) (byteLen a) = .ok a := by
      rw [htext, heq, List.append_assoc, upTo_append]
    obtain ⟨p', hsend, htext', hstopped, hsent, hemitted⟩ :=
      @send_spec a [] { p with text := a, stopped := true } h.emitted (List.append_nil a).symm hpre
    simp only [hcut, ok_bind, hsend]
    refine ⟨p', rfl, hsent ▸ hpre, .inr ⟨hstopped, hsent ▸ hemitted, hsent.trans htext'.symm, ?_⟩⟩
    rw [htext']
    exact hbefore
  | none =>
    obtain ⟨a, b', heq, hsafe, hheld'⟩ := safeTextEnd_spec (p.text ++ piece) stops
    have hpre : p.sent <+: a := hheld.mono hheld' (htext ▸ heq)
    obtain ⟨p', hsend, htext', hstopped, hsent, hemitted⟩ :=
      @send_spec a b' { p with text := p.text ++ piece } h.emitted heq hpre
    simp only [hsafe, ok_bind, hsend]
    refine ⟨p', rfl, hsent ▸ hpre, .inl ⟨⟨hstopped.trans h.going, hsent ▸ hemitted, ?_, b', ?_, hsent ▸ hheld'⟩, htext'⟩⟩
    · rw [htext']
      exact firstStop_none hfirst
    · rw [htext', hsent]
      exact heq

/-- What the stream is after some pieces, of which the last ones may be left over at a stop. -/
structure Outcome (stops : List Text) (text : Text) (pieces : List Text) (p : Progress) : Prop where
  state : ∃ n ≤ pieces.length, (∀ k < n, Clear stops (text ++ (pieces.take k).flatten)) ∧
    (Ended stops (text ++ (pieces.take n).flatten) p ∨
      Streaming stops p ∧ n = pieces.length ∧ p.text = text ++ pieces.flatten)

theorem run_spec (h : Streaming stops p) (pieces : List Text) :
    ∃ p', p.run stops pieces = .ok p' ∧ p.sent <+: p'.sent ∧ Outcome stops p.text pieces p' := by
  induction pieces generalizing p with
  | nil =>
    refine ⟨p, rfl, List.prefix_refl _, 0, le_rfl, fun k hk => absurd hk (Nat.not_lt_zero k), .inr ⟨h, rfl, ?_⟩⟩
    rw [List.flatten_nil, List.append_nil]
  | cons piece pieces ih =>
    obtain ⟨p', hpush, hpre, hstate⟩ := push_spec h piece
    have hfirst : Clear stops (p.text ++ ((piece :: pieces).take 0).flatten) := by
      rw [List.take_zero, List.flatten_nil, List.append_nil]
      exact h.clear
    rw [Progress.run, hpush, ok_bind]
    rcases hstate with ⟨hgoing, htext⟩ | hended
    · obtain ⟨p'', hrun, hpre', n, hn, hclear, hout⟩ := ih hgoing
      rw [hgoing.going]
      refine ⟨p'', hrun, hpre.trans hpre', n + 1, Nat.succ_le_succ hn, fun k hk => ?_, ?_⟩
      · cases k with
        | zero => exact hfirst
        | succ k =>
          have := hclear k (Nat.lt_of_succ_lt_succ hk)
          rwa [htext, List.append_assoc, ← List.flatten_cons] at this
      · rw [htext, List.append_assoc, ← List.flatten_cons, List.append_assoc, ← List.flatten_cons] at hout
        exact hout.imp id fun ⟨hs, hlen, ht⟩ => ⟨hs, congrArg (· + 1) hlen, ht⟩
    · rw [hended.stopped]
      refine ⟨p', rfl, hpre, 1, Nat.succ_le_succ (Nat.zero_le _), fun k hk => ?_, .inl ?_⟩
      · obtain rfl := Nat.lt_one_iff.mp hk
        exact hfirst
      · rw [List.take_succ_cons, List.take_zero, List.flatten_cons, List.flatten_nil, List.append_nil]
        exact hended

theorem run_append {p p' : Progress} {pieces more : List Text} (h : p.run stops pieces = .ok p') (hgoing : p.stopped = false) :
    p.run stops (pieces ++ more) = if p'.stopped then .ok p' else p'.run stops more := by
  induction pieces generalizing p with
  | nil =>
    obtain rfl := Except.ok.inj h
    rw [hgoing]
    rfl
  | cons piece pieces ih =>
    rw [Progress.run] at h
    obtain ⟨p₁, hpush, hrest⟩ := bind_eq_ok.mp h
    rw [List.cons_append, Progress.run, hpush, ok_bind]
    cases hs : p₁.stopped with
    | true =>
      rw [hs] at hrest
      obtain rfl := Except.ok.inj hrest
      rw [hs]
      rfl
    | false =>
      rw [hs] at hrest
      exact ih hrest hs

theorem streaming_new (hne : ∀ stop ∈ stops, stop ≠ []) : Streaming stops .new := by
  refine ⟨rfl, rfl, fun stop hstop hin => hne stop hstop (List.infix_nil.mp hin), [], rfl, .inl rfl, fun a' b' heq hb' => ?_⟩
  exact absurd (List.append_eq_nil_iff.mp heq.symm).2 hb'.1

-- After the loop

/-- All text is sent, and no stop string is in it. -/
structure Finished (stops : List Text) (complete : Text) (p : Progress) : Prop where
  all : p.sent = p.text
  cut : p.stopped = true ∧ BeforeStop stops complete p.text ∨ p.stopped = false ∧ p.text = complete ∧ Clear stops complete

theorem finish_spec {received : Text} (h : Streaming stops p ∨ Ended stops received p) (complete : Text) :
    NoPanic (p.finish stops complete) ∧ ∀ p', p.finish stops complete = .ok p' →
      p.sent <+: p'.sent ∧ (p.stopped = true → p' = p) ∧ (p.stopped = false → Finished stops complete p') := by
  unfold Progress.finish
  rcases h with hgoing | hended
  · obtain ⟨b, htext, -⟩ := hgoing.held
    have hsent : upTo p.text p.emitted = .ok p.sent := by rw [htext, hgoing.emitted, upTo_append]
    rw [hgoing.going, hsent]
    simp only [Bool.false_eq_true, if_false, Progress.lift, ok_bind]
    by_cases hpre : p.sent.isPrefixOf complete = true
    · have hprefix := List.isPrefixOf_iff_prefix.mp hpre
      simp only [failIf, hpre, not_true, if_false, pure_bind']
      cases hfirst : firstStop stops complete with
      | none =>
        obtain ⟨p', hsend, htext', hstopped, hsent', hemitted⟩ :=
          @send_spec complete [] { p with text := complete, stopped := false } hgoing.emitted (List.append_nil complete).symm hprefix
        simp only [hsend]
        refine ⟨noPanic_ok _, fun p'' hp'' => ?_⟩
        obtain rfl := Except.ok.inj hp''
        refine ⟨hsent' ▸ hprefix, fun hs => hs.elim, fun _ => ?_⟩
        exact ⟨hsent'.trans htext'.symm, .inr ⟨hstopped, htext', firstStop_none hfirst⟩⟩
      | some n =>
        obtain ⟨a, rfl, hbefore⟩ := firstStop_some hfirst
        obtain ⟨stop, hstop, b', heq⟩ := hbefore.1
        simp only
        split
        · exact ⟨noPanic_err _, fun p' hp' => nomatch hp'⟩
        · next hle =>
          have hcut : upTo complete (byteLen a) = .ok a := by
            rw [heq, List.append_assoc, upTo_append]
          have hbegin : p.sent <+: a := by
            obtain ⟨d, hd⟩ := hprefix
            rw [heq, List.append_assoc] at hd
            exact prefix_of_byteLen_le hd (by rw [hgoing.emitted] at hle; omega)
          obtain ⟨p', hsend, htext', hstopped, hsent', hemitted⟩ :=
            @send_spec a [] { p with text := a, stopped := true } hgoing.emitted (List.append_nil a).symm hbegin
          simp only [pure_bind', hcut, ok_bind, hsend]
          refine ⟨noPanic_ok _, fun p'' hp'' => ?_⟩
          obtain rfl := Except.ok.inj hp''
          refine ⟨hsent' ▸ hbegin, fun hs => hs.elim, fun _ => ⟨hsent'.trans htext'.symm, .inl ⟨hstopped, ?_⟩⟩⟩
          rw [htext']
          exact hbefore
    · simp only [failIf, hpre]
      exact ⟨noPanic_err _, fun p' hp' => nomatch hp'⟩
  · -- everything is sent already
    have hdone : p.send (byteLen p.text) = .ok p := by
      rw [Progress.send, if_neg (by rw [hended.emitted, hended.all]; exact lt_irrefl _)]
    rw [hended.stopped]
    simp only [if_true, ok_bind, hdone, Progress.lift]
    refine ⟨noPanic_ok _, fun p' hp' => ?_⟩
    obtain rfl := Except.ok.inj hp'
    exact ⟨List.prefix_refl _, fun _ => rfl, fun hs => absurd hs (by decide)⟩

/-- The safe end is a boundary. The loop does not panic. At every step what is sent is a part of the text before the first
stop string and begins what is sent later, and only an ending that a stop string may begin
with is held back. At the end the rest is sent, or the call refuses. -/
theorem stop_strings_never_sent (stops : List Text) (hne : ∀ stop ∈ stops, stop ≠ []) (pieces : List Text) :
    (∀ text, ∃ a b, text = a ++ b ∧ safeTextEnd text stops = .ok (byteLen a)) ∧
    ∃ p, Progress.new.run stops pieces = .ok p ∧ Outcome stops [] pieces p ∧
      (∀ k, ∃ p', Progress.new.run stops (pieces.take k) = .ok p' ∧ Outcome stops [] (pieces.take k) p' ∧ p'.sent <+: p.sent) ∧
      ∀ complete, NoPanic (p.finish stops complete) ∧ ∀ p', p.finish stops complete = .ok p' →
        p.sent <+: p'.sent ∧ (p.stopped = true → p' = p) ∧ (p.stopped = false → Finished stops complete p') := by
  have hnew := streaming_new hne
  obtain ⟨p, hrun, -, hout⟩ := run_spec hnew pieces
  have hboundary (text : Text) : ∃ a b, text = a ++ b ∧ safeTextEnd text stops = .ok (byteLen a) := by
    obtain ⟨a, b, heq, hsafe, -⟩ := safeTextEnd_spec text stops
    exact ⟨a, b, heq, hsafe⟩
  refine ⟨hboundary, p, hrun, hout, fun k => ?_, fun complete => ?_⟩
  · obtain ⟨p', hrun', -, hout'⟩ := run_spec hnew (pieces.take k)
    refine ⟨p', hrun', hout', ?_⟩
    have happend := @run_append stops .new p' (pieces.take k) (pieces.drop k) hrun' rfl
    rw [List.take_append_drop, hrun] at happend
    cases hs : p'.stopped with
    | true =>
      rw [hs, if_pos rfl] at happend
      rw [Except.ok.inj happend]
    | false =>
      obtain ⟨n, -, -, hended | ⟨hgoing, -, -⟩⟩ := hout'.state
      · exact absurd (hs.symm.trans hended.stopped) Bool.false_ne_true
      · rw [hs, if_neg Bool.false_ne_true] at happend
        obtain ⟨p'', hrest, hpre, -⟩ := run_spec hgoing (pieces.drop k)
        rw [Except.ok.inj (happend.trans hrest)]
        exact hpre
  · obtain ⟨n, -, -, hended | ⟨hgoing, -, -⟩⟩ := hout.state
    · exact finish_spec (.inr hended) complete
    · exact finish_spec (.inl hgoing : Streaming stops p ∨ Ended stops [] p) complete

/-- `stop_strings_never_sent`, on stop strings that overlap. -/
theorem stop_strings_never_sent_overlapping :
    ∃ p, Progress.new.run ["aab".toList, "ab".toList] ["xa".toList, "a".toList, "bc".toList] = .ok p ∧ p.sent <+: ['x', 'a'] := by
  obtain ⟨-, p, hrun, -, -, -⟩ := stop_strings_never_sent ["aab".toList, "ab".toList] (by decide) ["xa".toList, "a".toList, "bc".toList]
  refine ⟨p, hrun, ?_⟩
  have hvalue : Progress.new.run ["aab".toList, "ab".toList] ["xa".toList, "a".toList, "bc".toList] =
      .ok ⟨['x'], 1, true, [['x']]⟩ := by decide +kernel
  obtain rfl := Except.ok.inj (hrun.symm.trans hvalue)
  exact ⟨['a'], rfl⟩

end Ruda.Serving
