import Ruda.Tensor.Slice

/-!
# Slices from text and from values

What the texts of notations and of slices are read as, and where it is what the values
give: reading adds one to an inclusive end, where a value takes an end of `-1` for the end
of the dimension, and writing takes one off.
-/

namespace Ruda.Tensor

open Decimal

theorem isizeAdd_ok {ε : Type} {a b : Int} (h : IsIsize (a + b)) : (isizeAdd a b : Res ε Int) = .ok (a + b) := if_pos h

theorem isizeAdd_panic {ε : Type} {a b : Int} (h : ¬IsIsize (a + b)) : (isizeAdd a b : Res ε Int) = .error .panic :=
  if_neg h

-- Reading

/-- The characters of bounds: neither whitespace nor the separator of a step. -/
def Plain (s : Text) : Prop := ∀ c ∈ s, c = '-' ∨ c = '.' ∨ c = '=' ∨ c.isDigit

theorem Plain.nil : Plain [] := nofun

theorem Plain.cons {c : Char} {s : Text} (hc : c = '-' ∨ c = '.' ∨ c = '=' ∨ c.isDigit) (h : Plain s) :
    Plain (c :: s) := by
  intro d hd
  rcases List.mem_cons.mp hd with rfl | hd
  · exact hc
  · exact h d hd

theorem Plain.append {s t : Text} (hs : Plain s) (ht : Plain t) : Plain (s ++ t) := by
  intro c hc
  exact (List.mem_append.mp hc).elim (hs c) (ht c)

theorem plain_render (n : Int) : Plain (render n) := by
  intro c hc
  rcases render_mem hc with h | h
  · exact .inl h
  · exact .inr (.inr (.inr h))

theorem plain_dots : Plain ['.', '.'] := .cons (by decide) (.cons (by decide) .nil)

theorem isWhitespace_digit {c : Char} (h : c.isDigit) : Serving.isWhitespace c = false := by
  have hrange : 48 ≤ c.toNat ∧ c.toNat ≤ 57 := by
    simpa [Char.isDigit, UInt32.le_iff_toNat_le] using h
  simp only [Serving.isWhitespace, Bool.or_eq_false_iff, Bool.and_eq_false_iff, decide_eq_false_iff_not]
  omega

theorem isWhitespace_plain {s : Text} (h : Plain s) : ∀ c ∈ s, Serving.isWhitespace c = false := by
  intro c hc
  rcases h c hc with rfl | rfl | rfl | hd
  · decide
  · decide
  · decide
  · exact isWhitespace_digit hd

theorem trim_of_black {s : Text} (h : ∀ c ∈ s, Serving.isWhitespace c = false) : Serving.trim s = s := by
  have hstart : ∀ t : Text, (∀ c ∈ t, Serving.isWhitespace c = false) → t.dropWhile Serving.isWhitespace = t := by
    intro t ht
    cases t with
    | nil => rfl
    | cons c t => rw [List.dropWhile_cons_of_neg (by simp [ht c List.mem_cons_self])]
  rw [Serving.trim, Serving.trimStart, hstart s h, hstart s.reverse fun c hc => h c (List.mem_reverse.mp hc),
    List.reverse_reverse]

theorem not_mem_plain {s : Text} (h : Plain s) : ';' ∉ s := by
  intro hc
  rcases h ';' hc with h | h | h | h <;> exact absurd h (by decide)

namespace Slice

theorem fromStr_plain {s : Text} (h : Plain s) : fromStr s = parseWith s s 1 := by
  rw [fromStr, trim_of_black (isWhitespace_plain h), splitOnce_none (not_mem_plain h)]

theorem parseInt_render {n : Int} (h : IsIsize n) (source : Text) : parseInt source (render n) = .ok n := by
  rw [parseInt, parse_render h.1 h.2]
  rfl

theorem fromStr_step {s : Text} (h : Plain s) {step : Int} (hstep : IsIsize step) :
    fromStr (s ++ [';'] ++ render step) = parseWith (s ++ [';'] ++ render step) s step := by
  have hblack : ∀ c ∈ s ++ [';'] ++ render step, Serving.isWhitespace c = false := by
    intro c hc
    rcases List.mem_append.mp hc with hc | hc
    · rcases List.mem_append.mp hc with hc | hc
      · exact isWhitespace_plain h c hc
      · obtain rfl := List.mem_singleton.mp hc
        decide
    · exact isWhitespace_plain (plain_render step) c hc
  simp only [fromStr, trim_of_black hblack, splitOnce_append (not_mem_plain h), parseInt_render hstep, ok_bind]

theorem parseWith_eq {source s : Text} {step : Int} (hs : s ≠ []) (hstep : step ≠ 0) :
    parseWith source s step = parseBounds source s >>= fun bounds => .ok ⟨bounds.1, bounds.2, step⟩ := by
  simp only [parseWith, failIf, if_neg hs, if_neg hstep, pure_bind']
  rfl

theorem parseStart_nil (source : Text) : parseStart source [] = .ok 0 := rfl

theorem parseStart_render {n : Int} (h : IsIsize n) (source : Text) : parseStart source (render n) = .ok n := by
  rw [parseStart, if_neg (render_ne_nil n), parseInt_render h]

theorem parseStop_nil (source : Text) : parseStop source [] = .ok none := rfl

theorem parseStop_render {n : Int} (h : IsIsize n) (source : Text) : parseStop source (render n) = .ok (some n) := by
  have hint := parseInt_render h source
  have hhead : ∀ c ∈ render n, c ≠ '=' := by
    intro c hc he
    rcases render_mem hc with h | h <;> rw [he] at h <;> exact absurd h (by decide)
  have hne := render_ne_nil n
  generalize render n = s at hint hhead hne
  unfold parseStop
  split
  · exact absurd rfl hne
  · exact absurd rfl (hhead '=' List.mem_cons_self)
  · rw [hint]
    rfl

theorem parseStop_inclusive {n : Int} (h : IsIsize n) (source : Text) :
    parseStop source ('=' :: render n) = isizeAdd n 1 >>= fun stop => .ok (some stop) := by
  simp only [parseStop, parseInt_render h, ok_bind]
  rfl

theorem not_mem_render (n : Int) : '.' ∉ render n := by
  intro hc
  rcases render_mem hc with h | h <;> exact absurd h (by decide)

theorem parseBounds_index {n : Int} (h : IsIsize n) (source : Text) :
    parseBounds source (render n) = isizeAdd n 1 >>= fun stop => .ok (n, some stop) := by
  simp only [parseBounds, splitOnce_none (not_mem_render n), parseInt_render h, ok_bind]
  rfl

theorem parseBounds_range {source start stop : Text} {a : Int} {b : Option Int} (hdot : '.' ∉ start)
    (hstart : parseStart source start = .ok a) (hstop : parseStop source stop = .ok b) :
    parseBounds source (start ++ ['.', '.'] ++ stop) = .ok (a, b) := by
  simp only [parseBounds, splitOnce_append hdot, hstart, hstop, ok_bind]
  rfl

end Slice

-- Notations

namespace Notation

/-- The bounds as the text gives them. -/
def read : Notation → Res Slice.ExpressionError (Int × Option Int)
  | .index last => isizeAdd last 1 >>= fun stop => .ok (last, some stop)
  | .range start stop => .ok (start, some stop)
  | .rangeInclusive start last => isizeAdd last 1 >>= fun stop => .ok (start, some stop)
  | .rangeFrom start => .ok (start, none)
  | .rangeTo stop => .ok (0, some stop)
  | .rangeToInclusive last => isizeAdd last 1 >>= fun stop => .ok (0, some stop)
  | .full => .ok (0, none)

theorem plain_text (n : Notation) : Plain n.text := by
  have hequals : ∀ m, Plain ('=' :: render m) := fun m => .cons (by decide) (plain_render m)
  cases n with
  | index i => exact plain_render i
  | range start stop => exact ((plain_render start).append plain_dots).append (plain_render stop)
  | rangeInclusive start last => exact ((plain_render start).append plain_dots).append (hequals last)
  | rangeFrom start => exact ((plain_render start).append plain_dots).append .nil
  | rangeTo stop => exact (Plain.nil.append plain_dots).append (plain_render stop)
  | rangeToInclusive last => exact (Plain.nil.append plain_dots).append (hequals last)
  | full => exact (Plain.nil.append plain_dots).append .nil

theorem text_ne_nil (n : Notation) : n.text ≠ [] := by
  cases n with
  | index i => exact render_ne_nil i
  | _ => simp [text]

theorem parseBounds_text {n : Notation} (h : n.InRange) (source : Text) :
    Slice.parseBounds source n.text = n.read := by
  cases n with
  | index i => exact Slice.parseBounds_index h source
  | range start stop =>
    exact Slice.parseBounds_range (Slice.not_mem_render start) (Slice.parseStart_render h.1 _) (Slice.parseStop_render h.2 _)
  | rangeInclusive start last =>
    simp only [Slice.parseBounds, text, splitOnce_append (Slice.not_mem_render start), Slice.parseStart_render h.1,
      Slice.parseStop_inclusive h.2, ok_bind, read, bind_assoc]
    rfl
  | rangeFrom start =>
    exact Slice.parseBounds_range (Slice.not_mem_render start) (Slice.parseStart_render h _) (Slice.parseStop_nil _)
  | rangeTo stop =>
    exact Slice.parseBounds_range List.not_mem_nil (Slice.parseStart_nil _) (Slice.parseStop_render h _)
  | rangeToInclusive last =>
    simp only [Slice.parseBounds, text, splitOnce_append List.not_mem_nil, Slice.parseStart_nil,
      Slice.parseStop_inclusive h, ok_bind, read, bind_assoc]
    rfl
  | full => exact Slice.parseBounds_range List.not_mem_nil (Slice.parseStart_nil _) (Slice.parseStop_nil _)

/-- The step of a slice, which is one where none is written. -/
def Steps (step : Option Int) : Prop := ∀ s ∈ step, IsIsize s ∧ s ≠ 0

theorem fromStr_textWith {n : Notation} (h : n.InRange) {step : Option Int} (hstep : Steps step) :
    Slice.fromStr (n.textWith step) = n.read >>= fun bounds => .ok ⟨bounds.1, bounds.2, step.getD 1⟩ := by
  cases step with
  | none =>
    rw [textWith, Slice.fromStr_plain n.plain_text, Slice.parseWith_eq n.text_ne_nil (by decide), parseBounds_text h]
    rfl
  | some step =>
    obtain ⟨hsize, hne⟩ := hstep step rfl
    rw [textWith, Slice.fromStr_step n.plain_text hsize, Slice.parseWith_eq n.text_ne_nil hne, parseBounds_text h]
    rfl

theorem slice_step {n : Notation} {s : Slice} (h : n.slice = .ok s) : s.step = 1 := by
  cases n with
  | index last | rangeInclusive start last | rangeToInclusive last =>
    obtain ⟨stop, -, hs⟩ := bind_eq_ok.mp h
    exact (Except.ok.inj hs) ▸ rfl
  | range | rangeFrom | rangeTo | full => exact (Except.ok.inj h) ▸ rfl

theorem sliceWith_eq {n : Notation} {step : Option Int} (hstep : Steps step) :
    n.sliceWith step = n.slice >>= fun s => .ok { s with step := step.getD 1 } := by
  cases step with
  | none =>
    rw [sliceWith]
    cases hs : n.slice with
    | ok s =>
      have hone := slice_step hs
      cases s
      cases hone
      rfl
    | error e => rfl
  | some step =>
    rw [sliceWith, if_neg (hstep step rfl).2]
    rfl

/-- What the text and the value give, the step apart. -/
def Meets (n : Notation) (step : Int) : Prop :=
  ∃ s t : Slice, (n.read >>= fun bounds => .ok ⟨bounds.1, bounds.2, step⟩) = .ok s ∧
    (n.slice >>= fun t => .ok { t with step }) = .ok t ∧ s.step = t.step ∧ ∀ size, s.toRange size = t.toRange size

theorem agree_iff {n : Notation} (h : n.InRange) {step : Option Int} (hstep : Steps step) :
    n.Agree step ↔ n.Meets (step.getD 1) := by
  rw [Agree, fromStr_textWith h hstep, sliceWith_eq hstep, Meets]

theorem toRange_none_ne {start step : Int} (h : IsIsize start) :
    Slice.toRange ⟨start, some 0, step⟩ 1 ≠ Slice.toRange ⟨start, none, step⟩ 1 := by
  have hstart : ∃ first, Slice.convertSignedIndex start 1 = .ok first := by
    unfold Slice.convertSignedIndex
    split
    · have hsum : IsIsize (Slice.asIsize 1 + start) := by
        unfold IsIsize at h ⊢
        simp only [Slice.asIsize]
        omega
      rw [isizeAdd_ok hsum]
      exact ⟨_, rfl⟩
    · exact ⟨_, rfl⟩
  obtain ⟨first, hfirst⟩ := hstart
  have hzero : Slice.convertSignedIndex 0 1 = .ok 0 := rfl
  simp only [Slice.toRange, hfirst, hzero, ok_bind]
  intro he
  exact absurd (Prod.mk.inj (Except.ok.inj he)).2 (by decide)

theorem inclusive_iff {start last : Int} (hstart : IsIsize start) (hlast : IsIsize last) (step : Int) :
    (∃ s t : Slice, (isizeAdd last 1 >>= fun stop => (.ok ⟨start, some stop, step⟩ : Res Slice.ExpressionError Slice)) = .ok s ∧
      (handleSignedInclusiveEnd last >>= fun stop => (.ok ⟨start, stop, step⟩ : Res Empty Slice)) = .ok t ∧
      s.step = t.step ∧ ∀ size, s.toRange size = t.toRange size) ↔
    last ≠ -1 ∧ last ≠ 2 ^ 63 - 1 := by
  constructor
  · rintro ⟨s, t, hs, ht, -, hsame⟩
    constructor
    · rintro rfl
      obtain rfl := Except.ok.inj hs
      obtain rfl := Except.ok.inj ht
      exact toRange_none_ne hstart (hsame 1)
    · rintro rfl
      rw [isizeAdd_panic (by decide)] at hs
      exact nomatch hs
  · rintro ⟨hend, hmax⟩
    have hsum : IsIsize (last + 1) := by
      unfold IsIsize at hlast ⊢
      omega
    refine ⟨_, _, by rw [isizeAdd_ok hsum]; rfl, ?_, rfl, fun size => rfl⟩
    rw [handleSignedInclusiveEnd, if_neg hend, isizeAdd_ok hsum]
    rfl

theorem meets_iff {n : Notation} (h : n.InRange) (step : Int) : n.Meets step ↔ n.Exclusive := by
  cases n with
  | index last =>
    rw [Exclusive, ← inclusive_iff h h step]
    simp only [Meets, read, slice, Slice.index, bind_assoc, ok_bind, pure_bind']
  | rangeInclusive start last =>
    rw [Exclusive, ← inclusive_iff h.1 h.2 step]
    simp only [Meets, read, slice, Slice.ofRangeInclusive, bind_assoc, ok_bind, pure_bind']
  | rangeToInclusive last =>
    rw [Exclusive, ← @inclusive_iff 0 _ (by decide) h step]
    simp only [Meets, read, slice, Slice.ofRangeToInclusive, bind_assoc, ok_bind, pure_bind']
  | range | rangeFrom | rangeTo | full =>
    exact iff_of_true ⟨_, _, rfl, rfl, rfl, fun size => rfl⟩ trivial

end Notation

-- Writing

namespace Slice

/-- A slice that can be built: fields in range, a step that is not zero. -/
structure Valid (s : Slice) : Prop where
  start : IsIsize s.start
  stop : ∀ stop ∈ s.stop, IsIsize stop
  step : IsIsize s.step
  step_ne : s.step ≠ 0

def stopText : Option Int → Text
  | some stop => render stop
  | none => []

def startText (start : Int) : Text := if start ≠ 0 then render start else []

theorem plain_startText (start : Int) : Plain (startText start) := by
  unfold startText
  split
  · exact plain_render start
  · exact .nil

theorem plain_stopText (stop : Option Int) : Plain (stopText stop) := by
  cases stop with
  | none => exact .nil
  | some stop => exact plain_render stop

theorem parseStart_startText {start : Int} (h : IsIsize start) (source : Text) :
    parseStart source (startText start) = .ok start := by
  unfold startText
  split
  · exact parseStart_render h source
  · next hzero =>
    obtain rfl := not_not.mp hzero
    exact parseStart_nil source

theorem parseStop_stopText {stop : Option Int} (h : ∀ s ∈ stop, IsIsize s) (source : Text) :
    parseStop source (stopText stop) = .ok stop := by
  cases stop with
  | none => exact parseStop_nil source
  | some stop => exact parseStop_render (h stop rfl) source

theorem parseBounds_displayed {s : Slice} (h : s.Valid) (source : Text) :
    parseBounds source (startText s.start ++ ['.', '.'] ++ stopText s.stop) = .ok (s.start, s.stop) := by
  refine parseBounds_range ?_ (parseStart_startText h.start source) (parseStop_stopText h.stop source)
  unfold startText
  split
  · exact not_mem_render s.start
  · exact List.not_mem_nil

theorem fromStr_displayRange {s : Slice} (h : s.Valid) : fromStr s.displayRange = .ok s := by
  have hplain : Plain (startText s.start ++ ['.', '.'] ++ stopText s.stop) :=
    ((plain_startText s.start).append plain_dots).append (plain_stopText s.stop)
  have hne : startText s.start ++ ['.', '.'] ++ stopText s.stop ≠ [] := by simp
  have htext : s.displayRange = startText s.start ++ ['.', '.'] ++ stopText s.stop ++
      if s.step ≠ 1 then ';' :: render s.step else [] := rfl
  rw [htext]
  by_cases hone : s.step = 1
  · rw [if_neg (not_not.mpr hone), List.append_nil, fromStr_plain hplain, parseWith_eq hne (by decide),
      parseBounds_displayed h, ok_bind, ← hone]
  · have hstep : ∀ t : Text, t ++ ';' :: render s.step = t ++ [';'] ++ render s.step := fun t =>
      List.append_cons t ';' _
    rw [if_pos hone, hstep, fromStr_step hplain h.step, parseWith_eq hne h.step_ne, parseBounds_displayed h, ok_bind]

theorem fromStr_displayIndex {s : Slice} (h : s.Valid) (hone : s.step = 1) (hstop : s.stop = some (s.start + 1)) :
    fromStr (render s.start) = .ok s := by
  rw [fromStr_plain (plain_render s.start), parseWith_eq (render_ne_nil s.start) (by decide),
    parseBounds_index h.start, isizeAdd_ok (h.stop _ hstop), ok_bind, ok_bind, ← hstop, ← hone]

theorem roundTrips_iff {s : Slice} (h : s.Valid) : s.RoundTrips ↔ ¬(s.step = 1 ∧ s.stop = some (-2 ^ 63)) := by
  have hrange : s.display = .ok s.displayRange → s.RoundTrips := fun hd => ⟨_, hd, fromStr_displayRange h⟩
  cases hstop : s.stop with
  | none =>
    refine iff_of_true (hrange ?_) (by simp)
    simp only [display, hstop]
  | some stop =>
    by_cases hone : s.step = 1
    · have hsize := h.stop stop hstop
      by_cases hmin : stop = -2 ^ 63
      · subst hmin
        refine iff_of_false ?_ (by simp [hone])
        rintro ⟨text, htext, -⟩
        simp only [display, hstop, hone, if_true] at htext
        rw [isizeAdd_panic (by decide)] at htext
        exact nomatch htext
      · have hlast : IsIsize (stop + -1) := by
          unfold IsIsize at hsize ⊢
          omega
        have hdisplay : s.display = .ok (if s.start = stop + -1 then render s.start else s.displayRange) := by
          simp only [display, hstop, hone, if_true, isizeAdd_ok hlast, ok_bind]
          rfl
        refine iff_of_true ?_ fun hc => hmin (Option.some.inj hc.2)
        by_cases hindex : s.start = stop + -1
        · rw [if_pos hindex] at hdisplay
          refine ⟨_, hdisplay, fromStr_displayIndex h hone ?_⟩
          rw [hstop, hindex, Int.neg_add_cancel_right]
        · rw [if_neg hindex] at hdisplay
          exact hrange hdisplay
    · refine iff_of_true (hrange ?_) (by simp [hone])
      simp only [display, hstop, if_neg hone]

end Slice

/-- Text and value give one range, and a slice is read as it is written. -/
theorem slices_agree_iff {n : Notation} (h : n.InRange) {step : Option Int} (hstep : Notation.Steps step) {s : Slice}
    (hs : s.Valid) :
    (n.Agree step ↔ n.Exclusive) ∧ (s.RoundTrips ↔ ¬(s.step = 1 ∧ s.stop = some (-2 ^ 63))) :=
  ⟨(Notation.agree_iff h hstep).trans (Notation.meets_iff h _), Slice.roundTrips_iff hs⟩

/-- `-5..-2;2` as a notation, and `2..` as a slice. -/
theorem slices_agree_negative : (Notation.range (-5) (-2)).Agree (some 2) ∧ Slice.RoundTrips ⟨2, none, 1⟩ := by
  have h := @slices_agree_iff (.range (-5) (-2)) ⟨by decide, by decide⟩ (some 2) (by rintro _ ⟨⟩; decide) ⟨2, none, 1⟩
    ⟨by decide, nofun, by decide, by decide⟩
  exact ⟨h.1.mpr trivial, h.2.mpr (by simp)⟩

/-- `..=-1` as a text leaves nothing of a dimension, and as a value leaves all of it. -/
theorem slices_inclusive_differ : ¬(Notation.rangeToInclusive (-1)).Agree none := by
  rintro ⟨s, t, hs, ht, -, hsame⟩
  have hread : Slice.fromStr ((Notation.rangeToInclusive (-1)).textWith none) = .ok ⟨0, some 0, 1⟩ := by decide
  obtain rfl := Except.ok.inj (hread.symm.trans hs)
  obtain rfl := Except.ok.inj ht
  exact absurd (hsame 1) (by decide)

end Ruda.Tensor
