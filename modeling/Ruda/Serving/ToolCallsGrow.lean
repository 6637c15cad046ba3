import Ruda.Serving.StopStringsHeld
import Ruda.Serving.ToolCalls

/-!
# Streamed arguments grow

The arguments for a prefix of a call begin those of the whole call, unless the prefix ends
between the two characters of a line break that `unpad` takes off the value: the carriage
return is shown, and gone when the line feed comes.
-/

namespace Ruda.Serving

open Text

variable {s t p q a b before after raw body key : Text} {c d : Char}

-- Cutting text

theorem stripPrefix?_eq_some : stripPrefix? p s = some t ↔ s = p ++ t := by
  unfold stripPrefix?
  constructor
  · intro h
    split at h
    · next hp =>
      obtain ⟨r, rfl⟩ := List.isPrefixOf_iff_prefix.mp hp
      rw [List.drop_left] at h
      rw [Option.some.inj h]
    · cases h
  · rintro rfl
    rw [if_pos (List.isPrefixOf_iff_prefix.mpr (List.prefix_append p t)), List.drop_left]

theorem stripPrefix?_append (h : stripPrefix? p s = some t) (q : Text) : stripPrefix? p (s ++ q) = some (t ++ q) := by
  rw [stripPrefix?_eq_some] at h ⊢
  rw [h, List.append_assoc]

theorem cut_eq_some (h : cut p s = some (before, after)) : s = before ++ p ++ after := by
  induction s generalizing before with
  | nil =>
    unfold cut at h
    split at h
    · next hp =>
      obtain ⟨rfl, rfl⟩ := Prod.mk.inj (Option.some.inj h)
      rw [hp]
      rfl
    · cases h
  | cons c s ih =>
    rw [cut] at h
    split at h
    · next hp =>
      obtain ⟨rfl, rfl⟩ := Prod.mk.inj (Option.some.inj h)
      rw [List.nil_append]
      exact List.prefix_append_drop (List.isPrefixOf_iff_prefix.mp hp)
    · obtain ⟨⟨before', after'⟩, hcut, heq⟩ := Option.map_eq_some_iff.mp h
      obtain ⟨rfl, rfl⟩ := Prod.mk.inj heq
      rw [ih hcut]
      rfl

theorem cut_append (h : cut p s = some (before, after)) (q : Text) : cut p (s ++ q) = some (before, after ++ q) := by
  induction s generalizing before with
  | nil =>
    unfold cut at h
    split at h
    · next hp =>
      obtain ⟨rfl, rfl⟩ := Prod.mk.inj (Option.some.inj h)
      subst hp
      cases q with
      | nil => rfl
      | cons d q => rfl
    · cases h
  | cons c s ih =>
    rw [cut] at h
    split at h
    · next hp =>
      obtain ⟨rfl, rfl⟩ := Prod.mk.inj (Option.some.inj h)
      have hp' := List.isPrefixOf_iff_prefix.mp hp
      have hlong : p <+: c :: (s ++ q) := hp'.trans (List.prefix_append _ q)
      rw [List.cons_append, cut, if_pos (List.isPrefixOf_iff_prefix.mpr hlong), ← List.cons_append,
        List.drop_append_of_le_length hp'.length_le]
    · next hp =>
      obtain ⟨⟨before', after'⟩, hcut, heq⟩ := Option.map_eq_some_iff.mp h
      obtain ⟨rfl, rfl⟩ := Prod.mk.inj heq
      have hlen : p.length ≤ (c :: s).length := by
        have := congrArg List.length (cut_eq_some hcut)
        simp only [List.length_append] at this
        rw [List.length_cons]
        omega
      have hnone : ¬p.isPrefixOf (c :: (s ++ q)) = true := fun hlong =>
        hp (List.isPrefixOf_iff_prefix.mpr (List.prefix_of_prefix_length_le (List.isPrefixOf_iff_prefix.mp hlong)
          (List.prefix_append (c :: s) q) hlen))
      rw [List.cons_append, cut, if_neg hnone, ih hcut]
      rfl

theorem cut_eq_none : cut p s = none ↔ ¬p <:+: s := by
  induction s with
  | nil => simp [cut]
  | cons c s ih =>
    rw [cut, List.infix_cons_iff]
    split
    · next h => exact ⟨nofun, fun hn => absurd (.inl (List.isPrefixOf_iff_prefix.mp h)) hn⟩
    · next h =>
      rw [Option.map_eq_none_iff, ih, not_or]
      exact ⟨fun hs => ⟨fun hp => h (List.isPrefixOf_iff_prefix.mpr hp), hs⟩, fun hs => hs.2⟩

theorem trimStart_append (h : trimStart s ≠ []) (q : Text) : trimStart (s ++ q) = trimStart s ++ q := by
  unfold trimStart at *
  induction s with
  | nil => exact absurd rfl h
  | cons c s ih =>
    rw [List.dropWhile_cons] at h
    rw [List.cons_append, List.dropWhile_cons, List.dropWhile_cons]
    split at h
    · next hc =>
      rw [if_pos hc, if_pos hc]
      exact ih h
    · next hc => rw [if_neg hc, if_neg hc, List.cons_append]

-- Strings in JSON

/-- The value of a hexadecimal digit that `hexDigit` gives. -/
def hexValue (c : Char) : Nat := if c.toNat < 58 then c.toNat - 48 else c.toNat - 87

theorem hexValue_hexDigit {n : Nat} (h : n < 16) : hexValue (hexDigit n) = n := by
  revert n
  decide

/-- Reads back what `escapeChar` writes. -/
def unescapeChar : Text → Option (Char × Text)
  | '\\' :: '"' :: s => some ('"', s)
  | '\\' :: '\\' :: s => some ('\\', s)
  | '\\' :: 'n' :: s => some ('\n', s)
  | '\\' :: 'r' :: s => some ('\r', s)
  | '\\' :: 't' :: s => some ('\t', s)
  | '\\' :: 'b' :: s => some (Char.ofNat 8, s)
  | '\\' :: 'f' :: s => some (Char.ofNat 12, s)
  | '\\' :: 'u' :: '0' :: '0' :: high :: low :: s => some (Char.ofNat (16 * hexValue high + hexValue low), s)
  | c :: s => some (c, s)
  | [] => none

theorem unescapeChar_other (h : c ≠ '\\') (s : Text) : unescapeChar (c :: s) = some (c, s) := by
  unfold unescapeChar
  split <;> simp_all

theorem unescapeChar_escapeChar (c : Char) (s : Text) : unescapeChar (escapeChar c ++ s) = some (c, s) := by
  unfold escapeChar
  split
  · next h => rw [h]; rfl
  split
  · next h => rw [h]; rfl
  split
  · next h => rw [h]; rfl
  split
  · next h => rw [h]; rfl
  split
  · next h => rw [h]; rfl
  split
  · next h => rw [h]; rfl
  split
  · next h => rw [h]; rfl
  split
  · next h =>
    show some (Char.ofNat (16 * hexValue (hexDigit (c.toNat / 16)) + hexValue (hexDigit (c.toNat % 16))), s) = _
    rw [hexValue_hexDigit (by omega), hexValue_hexDigit (Nat.mod_lt _ (by decide)), Nat.div_add_mod, Char.ofNat_toNat]
  · next hslash _ _ _ _ _ _ => exact unescapeChar_other hslash s

theorem escapeChar_inj {x y : Text} (h : escapeChar c ++ x = escapeChar d ++ y) : c = d ∧ x = y := by
  have hread := congrArg unescapeChar h
  rw [unescapeChar_escapeChar, unescapeChar_escapeChar] at hread
  exact Prod.mk.inj (Option.some.inj hread)

theorem escapeChar_ne_quote {x y : Text} (h : escapeChar c ++ x = '"' :: y) : False := by
  unfold escapeChar at h
  split at h
  · cases h
  split at h
  · cases h
  split at h
  · cases h
  split at h
  · cases h
  split at h
  · cases h
  split at h
  · cases h
  split at h
  · cases h
  split at h
  · cases h
  · next hquote _ _ _ _ _ _ _ => exact hquote (List.cons.inj h).1

theorem escape_prefix {x y more : Text} : escape x <+: escape y ++ '"' :: more ↔ x <+: y := by
  induction x generalizing y with
  | nil => exact iff_of_true List.nil_prefix List.nil_prefix
  | cons c x ih =>
    rw [escape, List.flatMap_cons]
    cases y with
    | nil =>
      refine iff_of_false ?_ fun h => nomatch List.prefix_nil.mp h
      rintro ⟨r, hr⟩
      rw [List.append_assoc] at hr
      exact escapeChar_ne_quote hr
    | cons d y =>
      rw [escape, List.flatMap_cons, List.cons_prefix_cons]
      constructor
      · rintro ⟨r, hr⟩
        rw [List.append_assoc, List.append_assoc] at hr
        obtain ⟨hcd, hrest⟩ := escapeChar_inj hr
        exact ⟨hcd, ih.mp ⟨r, hrest⟩⟩
      · rintro ⟨rfl, hpre⟩
        obtain ⟨r, hr⟩ := ih.mpr hpre
        refine ⟨r, ?_⟩
        rw [List.append_assoc, List.append_assoc]
        exact congrArg _ hr

-- Line breaks around a value

theorem stripLeadingBreak_crlf (s : Text) : stripLeadingBreak ('\r' :: '\n' :: s) = s := by
  simp [stripLeadingBreak, stripPrefix?]

theorem stripLeadingBreak_lf (s : Text) : stripLeadingBreak ('\n' :: s) = s := by
  simp [stripLeadingBreak, stripPrefix?]

theorem stripLeadingBreak_other (h : c ≠ '\n') (hr : c = '\r' → s.head? ≠ some '\n') :
    stripLeadingBreak (c :: s) = c :: s := by
  cases s with
  | nil => simp [stripLeadingBreak, stripPrefix?, Ne.symm h]
  | cons d s =>
    have hd : ¬('\r' = c ∧ '\n' = d) := fun ⟨hc, hd⟩ => hr hc.symm (congrArg some hd.symm)
    simp [stripLeadingBreak, stripPrefix?, Ne.symm h, hd]

theorem stripLeadingBreak_append (hne : s ≠ []) (h : s = ['\r'] → t.head? ≠ some '\n') :
    stripLeadingBreak (s ++ t) = stripLeadingBreak s ++ t := by
  cases s with
  | nil => exact absurd rfl hne
  | cons c s =>
    by_cases hlf : c = '\n'
    · rw [hlf, List.cons_append, stripLeadingBreak_lf, stripLeadingBreak_lf]
    cases s with
    | nil =>
      rw [List.cons_append, List.nil_append, stripLeadingBreak_other hlf, stripLeadingBreak_other hlf]
      · rfl
      · exact fun _ => nofun
      · exact fun hc => h (by rw [hc])
    | cons d s =>
      by_cases hcrlf : c = '\r' ∧ d = '\n'
      · obtain ⟨rfl, rfl⟩ := hcrlf
        rw [stripLeadingBreak_crlf, List.cons_append, List.cons_append, stripLeadingBreak_crlf]
      · have hd : c = '\r' → (d :: s).head? ≠ some '\n' := fun hc hd => hcrlf ⟨hc, Option.some.inj hd⟩
        rw [List.cons_append, stripLeadingBreak_other hlf hd, stripLeadingBreak_other hlf]
        · rfl
        · exact fun hc hd' => hcrlf ⟨hc, Option.some.inj hd'⟩

theorem stripLeadingBreak_suffix (s : Text) : stripLeadingBreak s <:+ s := by
  cases s with
  | nil => exact List.suffix_refl _
  | cons c s =>
    by_cases hlf : c = '\n'
    · rw [hlf, stripLeadingBreak_lf]
      exact List.suffix_cons _ _
    by_cases hcr : c = '\r' → s.head? ≠ some '\n'
    · rw [stripLeadingBreak_other hlf hcr]
    · obtain ⟨rfl, hhead⟩ := Classical.not_imp.mp hcr
      cases s with
      | nil => exact absurd nofun hhead
      | cons d s =>
        obtain rfl := Option.some.inj (not_not.mp hhead)
        rw [stripLeadingBreak_crlf]
        exact (List.suffix_cons _ _).trans (List.suffix_cons _ _)

theorem stripSuffix?_append (s p : Text) : stripSuffix? p (s ++ p) = some s := by
  rw [stripSuffix?, if_pos (List.isSuffixOf_iff_suffix.mpr (List.suffix_append s p)), List.length_append,
    Nat.add_sub_cancel, List.take_left]

theorem stripSuffix?_none (h : ¬p <:+ s) : stripSuffix? p s = none :=
  if_neg fun hp => h (List.isSuffixOf_iff_suffix.mp hp)

theorem stripTrailingBreak_crlf (s : Text) : stripTrailingBreak (s ++ ['\r', '\n']) = s := by
  rw [stripTrailingBreak, stripSuffix?_append]
  rfl

theorem stripTrailingBreak_lf (h : ¬['\r'] <:+ s) : stripTrailingBreak (s ++ ['\n']) = s := by
  have hcrlf : ¬['\r', '\n'] <:+ s ++ ['\n'] := by
    rintro ⟨r, hr⟩
    have hrs : r ++ ['\r'] ++ ['\n'] = s ++ ['\n'] := by rw [List.append_assoc]; exact hr
    exact h ⟨r, List.append_cancel_right hrs⟩
  rw [stripTrailingBreak, stripSuffix?_none hcrlf, stripSuffix?_append]
  rfl

theorem stripTrailingBreak_other (h : ¬['\n'] <:+ s) : stripTrailingBreak s = s := by
  have hcrlf : ¬['\r', '\n'] <:+ s := fun hs => h ((List.suffix_cons _ _).trans hs)
  rw [stripTrailingBreak, stripSuffix?_none hcrlf, stripSuffix?_none h]
  rfl

theorem stripTrailingBreak_prefix (s : Text) : stripTrailingBreak s <+: s ∧ s.length ≤ (stripTrailingBreak s).length + 2 := by
  by_cases hlf : ['\n'] <:+ s
  · obtain ⟨r, rfl⟩ := hlf
    by_cases hcr : ['\r'] <:+ r
    · obtain ⟨r, rfl⟩ := hcr
      rw [List.append_assoc]
      have hstrip := stripTrailingBreak_crlf r
      rw [show ['\r'] ++ ['\n'] = ['\r', '\n'] from rfl, hstrip]
      exact ⟨List.prefix_append _ _, by simp⟩
    · rw [stripTrailingBreak_lf hcr]
      exact ⟨List.prefix_append _ _, by simp⟩
  · rw [stripTrailingBreak_other hlf]
    exact ⟨List.prefix_refl _, Nat.le_add_right _ _⟩

/-- With more text behind, only a line feed after a carriage return takes something back. -/
theorem stripTrailingBreak_mono (s t : Text) :
    stripTrailingBreak s <+: stripTrailingBreak (s ++ t) ↔ ¬(t = ['\n'] ∧ ['\r'] <:+ s) := by
  obtain ⟨hpre, -⟩ := stripTrailingBreak_prefix s
  obtain ⟨hpre', hlen'⟩ := stripTrailingBreak_prefix (s ++ t)
  match t with
  | [] =>
    rw [List.append_nil]
    exact iff_of_true (List.prefix_refl _) fun h => nomatch h.1
  | [c] =>
    by_cases hc : c = '\n'
    · subst hc
      by_cases hcr : ['\r'] <:+ s
      · obtain ⟨r, rfl⟩ := hcr
        have hno : ¬['\n'] <:+ r ++ ['\r'] := by
          rintro ⟨r', hr'⟩
          have := (List.append_inj' hr' rfl).2
          cases this
        refine iff_of_false ?_ fun h => h ⟨rfl, r, rfl⟩
        rw [stripTrailingBreak_other hno, List.append_assoc, show ['\r'] ++ ['\n'] = ['\r', '\n'] from rfl,
          stripTrailingBreak_crlf]
        intro h
        have := h.length_le
        simp at this
      · rw [stripTrailingBreak_lf hcr]
        exact iff_of_true hpre fun h => hcr h.2
    · have hno : ¬['\n'] <:+ s ++ [c] := by
        rintro ⟨r', hr'⟩
        exact hc (List.cons.inj (List.append_inj' hr' rfl).2).1.symm
      rw [stripTrailingBreak_other hno]
      exact iff_of_true (hpre.trans (List.prefix_append _ _)) fun h => hc (List.cons.inj h.1).1
  | c :: d :: t =>
    refine iff_of_true (hpre.trans (List.prefix_of_prefix_length_le (List.prefix_append _ _) hpre' ?_)) fun h => nomatch h.1
    simp only [List.length_append, List.length_cons] at hlen'
    omega

/-- The value `s` is shown, goes on with `t`, and a carriage return is taken back. -/
def Breaks (s t : Text) : Prop := ['\r'] <:+ s ∧
  (t = ['\n'] ∨ s = ['\r'] ∧ ∃ more, t = '\n' :: more ∧ (more.head? = some '\r' → more = ['\r', '\n']))

theorem suffix_stripLeadingBreak (hne : s ≠ ['\r']) : ['\r'] <:+ stripLeadingBreak s ↔ ['\r'] <:+ s := by
  constructor
  · exact fun h => h.trans (stripLeadingBreak_suffix s)
  · rintro ⟨r, rfl⟩
    have hr : r ≠ [] := by
      rintro rfl
      exact hne rfl
    rw [stripLeadingBreak_append hr fun _ => by simp]
    exact List.suffix_append _ _

theorem unpad_mono (s t : Text) : unpad s <+: unpad (s ++ t) ↔ ¬Breaks s t := by
  unfold unpad
  by_cases hnil : s = []
  · subst hnil
    refine iff_of_true List.nil_prefix fun h => ?_
    have := List.suffix_nil.mp h.1
    cases this
  by_cases hcr : s = ['\r'] ∧ t.head? = some '\n'
  · obtain ⟨rfl, hhead⟩ := hcr
    obtain ⟨more, rfl⟩ : ∃ more, t = '\n' :: more := by
      cases t with
      | nil => cases hhead
      | cons d t => exact ⟨t, by rw [Option.some.inj hhead]⟩
    have hone : stripTrailingBreak (stripLeadingBreak ['\r']) = ['\r'] := by decide
    rw [hone, List.cons_append, List.nil_append, stripLeadingBreak_crlf]
    -- the rest has to begin with another carriage return that stays
    have hmore : ['\r'] <+: stripTrailingBreak more ↔ more.head? = some '\r' ∧ more ≠ ['\r', '\n'] := by
      obtain ⟨⟨r, hr⟩, hlen⟩ := stripTrailingBreak_prefix more
      constructor
      · rintro ⟨r', hr'⟩
        refine ⟨?_, ?_⟩
        · rw [← hr, ← hr']
          rfl
        · rintro rfl
          have hnone : stripTrailingBreak ['\r', '\n'] = [] := stripTrailingBreak_crlf []
          rw [hnone] at hr'
          cases hr'
      · rintro ⟨hhead', hne⟩
        match more with
        | [] => cases hhead'
        | ['\r'] => decide
        | [_] =>
          obtain rfl := Option.some.inj hhead'
          decide
        | c :: d :: more =>
          obtain rfl := Option.some.inj hhead'
          have hmono := (stripTrailingBreak_mono ['\r'] (d :: more)).mpr fun h => hne (by rw [h.1])
          exact (show stripTrailingBreak ['\r'] = ['\r'] by decide) ▸ hmono
    rw [hmore]
    constructor
    · rintro ⟨hhead', hne⟩ ⟨-, h | ⟨-, more', heq, himp⟩⟩
      · rw [(List.cons.inj h).2] at hhead'
        cases hhead'
      · obtain rfl := (List.cons.inj heq).2
        exact hne (himp hhead')
    · intro h
      refine ⟨?_, ?_⟩
      · by_contra hno
        exact h ⟨⟨[], rfl⟩, .inr ⟨rfl, more, rfl, fun hh => absurd hh hno⟩⟩
      · rintro rfl
        exact h ⟨⟨[], rfl⟩, .inr ⟨rfl, _, rfl, fun _ => rfl⟩⟩
  · have happend : s = ['\r'] → t.head? ≠ some '\n' := fun hs ht => hcr ⟨hs, ht⟩
    rw [stripLeadingBreak_append hnil happend, stripTrailingBreak_mono]
    refine not_congr ?_
    by_cases hs : s = ['\r']
    · have hlf : t ≠ ['\n'] := fun ht => happend hs (by rw [ht]; rfl)
      refine iff_of_false (fun h => hlf h.1) fun h => ?_
      rcases h.2 with ht | ⟨-, more, ht, -⟩
      · exact hlf ht
      · exact happend hs (by rw [ht]; rfl)
    · rw [suffix_stripLeadingBreak hs]
      exact ⟨fun ⟨ht, hr⟩ => ⟨hr, .inl ht⟩, fun ⟨hr, h⟩ => ⟨h.resolve_right fun h => hs h.1, hr⟩⟩

/-- `s` is blank up to its end. -/
def Blank (s : Text) : Prop := trimStart s = []

instance (s : Text) : Decidable (Blank s) := inferInstanceAs (Decidable (_ = _))

theorem trimStart_mono (h : s <+: t) : trimStart s <+: trimStart t := by
  obtain ⟨r, rfl⟩ := h
  by_cases hs : trimStart s = []
  · rw [hs]
    exact List.nil_prefix
  · rw [trimStart_append hs]
    exact List.prefix_append _ _

theorem blank_append : Blank (s ++ t) ↔ Blank s ∧ Blank t := by
  unfold Blank trimStart
  simp only [List.dropWhile_eq_nil_iff, List.mem_append]
  exact ⟨fun h => ⟨fun c hc => h c (.inl hc), fun c hc => h c (.inr hc)⟩, fun h c hc => hc.elim (h.1 c) (h.2 c)⟩

theorem blank_stripLeadingBreak (s : Text) : Blank (stripLeadingBreak s) ↔ Blank s := by
  cases s with
  | nil => exact Iff.rfl
  | cons c s =>
    by_cases hlf : c = '\n'
    · rw [hlf, stripLeadingBreak_lf, ← List.singleton_append, blank_append, and_iff_right (by decide)]
    by_cases hcr : c = '\r' → s.head? ≠ some '\n'
    · rw [stripLeadingBreak_other hlf hcr]
    · obtain ⟨rfl, hhead⟩ := Classical.not_imp.mp hcr
      cases s with
      | nil => exact absurd nofun hhead
      | cons d s =>
        obtain rfl := Option.some.inj (not_not.mp hhead)
        rw [stripLeadingBreak_crlf, show '\r' :: '\n' :: s = ['\r', '\n'] ++ s from rfl, blank_append,
          and_iff_right (by decide)]

/-- The same for a value that is passed on as it is written, without blanks before it. -/
theorem unpad_trim_mono {s t more : Text} (hmore : more.head? ≠ some '\r') :
    trimStart (unpad s) <+: trimStart (unpad (s ++ t)) ++ more ↔ ¬(['\r'] <:+ s ∧ t = ['\n'] ∧ ¬Blank s) := by
  by_cases hbreaks : Breaks s t
  · obtain ⟨⟨r, rfl⟩, hkind⟩ := hbreaks
    by_cases hone : r = []
    · subst hone
      have hleft : trimStart (unpad ([] ++ ['\r'])) = [] := by decide
      rw [hleft]
      exact iff_of_true List.nil_prefix fun h => h.2.2 (by decide)
    · have ht : t = ['\n'] := hkind.resolve_right fun h => hone (List.append_inj' (h.1.trans (List.nil_append _).symm) rfl).1
      subst ht
      have hhead : ¬(['\r'] ++ ['\n'] : Text).head? = some '\n' := by decide
      have hlong : unpad (r ++ ['\r'] ++ ['\n']) = stripLeadingBreak r := by
        rw [unpad, List.append_assoc, stripLeadingBreak_append hone fun _ => hhead]
        exact stripTrailingBreak_crlf _
      have hshort : unpad (r ++ ['\r']) = stripLeadingBreak r ++ ['\r'] := by
        rw [unpad, stripLeadingBreak_append hone fun _ => by decide]
        refine stripTrailingBreak_other ?_
        rintro ⟨r', hr'⟩
        have := (List.append_inj' hr' rfl).2
        cases this
      have hblank : Blank (r ++ ['\r']) ↔ Blank (stripLeadingBreak r) := by
        rw [blank_append, blank_stripLeadingBreak, and_iff_left (by decide)]
      rw [hlong, hshort, hblank]
      by_cases hr : Blank (stripLeadingBreak r)
      · have hall : trimStart (stripLeadingBreak r ++ ['\r']) = [] := blank_append.mpr ⟨hr, by decide⟩
        rw [hall]
        exact iff_of_true List.nil_prefix fun h => h.2.2 hr
      · refine iff_of_false ?_ fun h => h ⟨List.suffix_append _ _, rfl, hr⟩
        rw [trimStart_append hr, List.prefix_append_right_inj]
        rintro ⟨r', hr'⟩
        exact hmore (by rw [← hr']; rfl)
  · refine iff_of_true ((trimStart_mono ((unpad_mono s t).mpr hbreaks)).trans (List.prefix_append _ _)) ?_
    exact fun h => hbreaks ⟨h.1, .inl h.2.1⟩

-- The arguments

section
variable {parse : Text → Option Json} {print : Json → Text} {tool schema : Json} {isString complete : Bool}
  {fuel fuel' : Nat} {entries names : List Text} {rest rest' args encoded : Text}

/-- The separator before one more entry. -/
def separator (entries : List Text) : Text := if entries = [] then [] else [',']

theorem joined_append (entries : List Text) (entry : Text) :
    joined (entries ++ [entry]) = joined entries ++ (separator entries ++ entry) := by
  induction entries with
  | nil => rfl
  | cons first entries ih =>
    cases entries with
    | nil => rfl
    | cons second entries =>
      rw [List.cons_append, List.cons_append, joined]
      · rw [← List.cons_append, ih]
        simp [joined, separator]
      · exact nofun

/-- Arguments begin with the entries there are, and go on with a comma or a brace or not at all. -/
theorem parameters_begin (h : parameters parse print tool complete fuel entries names rest = .ok args) :
    ∃ more, args = '{' :: (joined entries ++ more) ∧ (entries ≠ [] → more.head? ≠ some '\r') := by
  induction fuel generalizing entries names rest with
  | zero => cases h
  | succ fuel ih =>
    rw [parameters] at h
    split at h
    · split at h
      · cases h
      · obtain rfl := Except.ok.inj h
        exact ⟨['}'], rfl, fun _ => by decide⟩
    · have hstop : ∀ args, Except.ok ('{' :: joined entries) = (Except.ok args : Res XmlError Text) →
          ∃ more, args = '{' :: (joined entries ++ more) ∧ (entries ≠ [] → more.head? ≠ some '\r') := by
        intro args h
        obtain rfl := Except.ok.inj h
        exact ⟨[], by rw [List.append_nil], fun _ => nofun⟩
      have hmore : ∀ entry, (∃ more, args = '{' :: (joined (entries ++ [entry]) ++ more)) →
          ∃ more, args = '{' :: (joined entries ++ more) ∧ (entries ≠ [] → more.head? ≠ some '\r') := by
        rintro entry ⟨more, rfl⟩
        refine ⟨separator entries ++ entry ++ more, ?_, fun hne => ?_⟩
        · rw [joined_append, List.append_assoc]
        · rw [separator, if_neg hne]
          simp
      split at h
      · split at h
        · cases h
        · exact hstop _ h
      · split at h
        · exact hstop _ h
        · split at h
          · cases h
          obtain ⟨schema, -, h⟩ := bind_eq_ok.mp h
          obtain ⟨isString, -, h⟩ := bind_eq_ok.mp h
          split at h
          · obtain ⟨encoded, -, h⟩ := bind_eq_ok.mp h
            obtain ⟨more, hargs, -⟩ := ih h
            exact hmore _ ⟨more, hargs⟩
          · obtain ⟨-, -, h⟩ := bind_eq_ok.mp h
            obtain ⟨raw, -, h⟩ := bind_eq_ok.mp h
            obtain ⟨encoded, -, h⟩ := bind_eq_ok.mp h
            obtain rfl := Except.ok.inj h
            exact hmore _ ⟨[], by rw [List.append_nil]⟩

/-- The parameter whose closing tag is not there yet, and the text of its value so far. -/
def openParameter : (fuel : Nat) → Text → Option (Text × Text)
  | 0, _ => none
  | fuel + 1, rest =>
    match (stripPrefix? "<parameter=".toList rest).bind (cut ['>']) with
    | none => none
    | some (key, body) =>
      match cut closeTag body with
      | some (_, after) => openParameter fuel (trimStart after)
      | none => some (key, body)

/-- The value of `body` goes on with `q` so that a carriage return that was shown is taken back. -/
def SplitsValue (schema : Json) (isString : Bool) (body q : Text) : Prop :=
  ∃ more after, cut closeTag (body ++ q) = some (body ++ more, after) ∧
    (isString = true ∧ Breaks body more ∨
      isString = false ∧ verbatim schema = true ∧ ['\r'] <:+ body ∧ more = ['\n'] ∧ ¬Blank body)

def SplitsParameter (tool : Json) (fuel : Nat) (rest q : Text) : Prop :=
  ∃ key body schema isString, openParameter fuel rest = some (key, body) ∧ parameterSchema tool key = .ok schema ∧
    stringParameter schema = .ok isString ∧ SplitsValue schema isString body q

/-- What is shown of an open value begins what the closed value is, but for a line break that is split. -/
theorem encode_grows {raw value after more encoded' : Text} (hopen : cut closeTag body = none) (hraw : openRaw body = .ok raw)
    (hclosed : cut closeTag (body ++ q) = some (value, after))
    (h : encode parse print schema isString false raw = .ok encoded)
    (h' : encode parse print schema isString true (unpad value) = .ok encoded') (hmore : more.head? ≠ some '\r') :
    encoded <+: encoded' ++ more ↔ ¬SplitsValue schema isString body q := by
  -- the part of the value that is shown
  obtain ⟨shown, held, rfl, hsafe, hheld⟩ := safeTextEnd_spec body [closeTag]
  have hrawEq : raw = unpad shown := by
    rw [openRaw, hsafe, ok_bind, upTo_append, ok_bind] at hraw
    exact (Except.ok.inj hraw).symm
  have hvalue := cut_eq_some hclosed
  have hclear : Clear [closeTag] (shown ++ held) := by
    intro stop hstop
    obtain rfl := List.mem_singleton.mp hstop
    exact cut_eq_none.mp hopen
  have hle := hheld.before_stop hclear List.mem_cons_self hvalue
  rw [List.append_assoc, List.append_assoc value] at hvalue
  obtain ⟨d, rfl⟩ := prefix_of_byteLen_le hvalue hle
  have hrest : held ++ q = d ++ (closeTag ++ after) := by
    rw [List.append_assoc shown] at hvalue
    exact List.append_cancel_left hvalue
  have hkey : SplitsValue schema isString (shown ++ held) q ↔ (isString = true ∧ Breaks shown d ∨
      isString = false ∧ verbatim schema = true ∧ ['\r'] <:+ shown ∧ d = ['\n'] ∧ ¬Blank shown) := by
    rcases hheld.begins with rfl | ⟨hne, tail, -, htag⟩
    · rw [List.append_nil] at hclosed ⊢
      constructor
      · rintro ⟨more', after', hcut, h⟩
        have hsame := (Prod.mk.inj (Option.some.inj (hcut.symm.trans hclosed))).1
        rw [List.append_cancel_left hsame] at h
        exact h
      · exact fun h => ⟨d, after, hclosed, h⟩
    · -- a part of the tag is held back: neither the text before nor the text after it is a line break
      obtain htag := List.mem_singleton.mp htag
      have hnocr : ¬['\r'] <:+ shown ++ held := by
        rintro ⟨r, hr⟩
        obtain ⟨c, init, hheldEq⟩ : ∃ c init, held = init ++ [c] := ⟨_, _, (List.dropLast_append_getLast hne).symm⟩
        rw [hheldEq, ← List.append_assoc] at hr
        have hc := (List.cons.inj (List.append_inj' hr rfl).2).1
        have hmem : '\r' ∈ closeTag := by
          rw [← htag, hheldEq, ← hc]
          simp
        exact absurd hmem (by decide)
      have hhead : d.head? ≠ some '\n' := by
        intro hd
        have hfirst : (held ++ q).head? = some '\n' := by
          rw [hrest, List.head?_append, hd]
          rfl
        rw [List.head?_append_of_ne_nil _ hne] at hfirst
        have htagHead : closeTag.head? = some '\n' := by
          rw [← htag, List.head?_append_of_ne_nil _ hne, hfirst]
        exact absurd htagHead (by decide)
      refine iff_of_false ?_ ?_
      · rintro ⟨more', after', -, ⟨-, hcr, -⟩ | ⟨-, -, hcr, -⟩⟩
        · exact hnocr hcr
        · exact hnocr hcr
      · rintro (⟨-, -, rfl | ⟨-, more', rfl, -⟩⟩ | ⟨-, -, -, rfl, -⟩)
        · exact hhead rfl
        · exact hhead rfl
        · exact hhead rfl
  rw [hkey]
  subst hrawEq
  unfold encode at h h'
  cases isString with
  | true =>
    rw [if_pos rfl] at h h'
    obtain rfl := Except.ok.inj h
    obtain rfl := Except.ok.inj h'
    have hshown : (quote (unpad shown)).dropLast = '"' :: escape (unpad shown) := by
      rw [quote, ← List.cons_append, List.dropLast_concat]
    have honly : (true = true ∧ Breaks shown d ∨
        true = false ∧ verbatim schema = true ∧ ['\r'] <:+ shown ∧ d = ['\n'] ∧ ¬Blank shown) ↔ Breaks shown d := by simp
    rw [honly, if_neg Bool.false_ne_true, if_pos rfl]
    rw [hshown, quote, List.cons_append, List.append_assoc, List.cons_prefix_cons, and_iff_right rfl]
    exact escape_prefix.trans (unpad_mono shown d)
  | false =>
    simp only [Bool.false_eq_true, if_false] at h
    obtain rfl := Except.ok.inj h
    rw [if_neg Bool.false_ne_true, if_pos rfl] at h'
    obtain ⟨json, -, h'⟩ := bind_eq_ok.mp h'
    obtain rfl := Except.ok.inj h'
    simp only [Bool.false_eq_true, false_and, false_or, true_and]
    by_cases hverb : verbatim schema = true
    · rw [if_pos hverb, if_pos hverb, and_iff_right hverb]
      exact unpad_trim_mono hmore
    · rw [if_neg hverb, if_neg hverb]
      exact iff_of_true List.nil_prefix fun h => hverb h.1

/-- The loop on a prefix and on the whole. -/
theorem parameters_grow (h : parameters parse print tool false fuel entries names rest = .ok a)
    (hrest : rest ≠ [] → rest' = rest ++ q) (h' : parameters parse print tool true fuel' entries names rest' = .ok args) :
    a <+: args ↔ ¬SplitsParameter tool fuel rest q := by
  induction fuel generalizing fuel' entries names rest rest' with
  | zero => cases h
  | succ fuel ih =>
    -- where no value is open, the prefix ends with the entries there are
    have hclosed : openParameter (fuel + 1) rest = none → a = '{' :: joined entries → (a <+: args ↔ ¬SplitsParameter tool (fuel + 1) rest q) := by
      rintro hopen rfl
      obtain ⟨more, rfl, -⟩ := parameters_begin h'
      refine iff_of_true ⟨more, rfl⟩ ?_
      rintro ⟨key, body, schema, isString, hopen', -⟩
      rw [hopen] at hopen'
      cases hopen'
    rw [parameters] at h
    split at h
    · next trailing hstrip =>
      split at h
      · cases h
      obtain rfl := Except.ok.inj h
      have hrestEq := stripPrefix?_eq_some.mp hstrip
      have hne : rest ≠ [] := by
        rw [hrestEq]
        exact List.append_ne_nil_of_left_ne_nil (by decide) _
      have hopen : openParameter (fuel + 1) rest = none := by
        have hother : stripPrefix? "<parameter=".toList rest = none := by
          rw [hrestEq, stripPrefix?, if_neg]
          simp
        rw [openParameter, hother]
        rfl
      obtain rfl := hrest hne
      cases fuel' with
      | zero => cases h'
      | succ fuel' =>
        rw [parameters, stripPrefix?_append hstrip] at h'
        simp only at h'
        split at h'
        · cases h'
        · obtain rfl := Except.ok.inj h'
          refine iff_of_true (List.prefix_refl _) ?_
          rintro ⟨key, body, schema, isString, hopen', -⟩
          rw [hopen] at hopen'
          cases hopen'
    · next hstrip =>
      split at h
      · next hparam =>
        rw [if_neg Bool.false_ne_true] at h
        exact hclosed (by rw [openParameter, hparam]; rfl) (Except.ok.inj h).symm
      · next parameter hparam =>
        split at h
        · next hcut => exact hclosed (by rw [openParameter, hparam, Option.bind_some, hcut]) (Except.ok.inj h).symm
        · next key body hcut =>
          split at h
          · cases h
          next hfresh =>
          obtain ⟨schema, hschema, h⟩ := bind_eq_ok.mp h
          obtain ⟨isString, hstring, h⟩ := bind_eq_ok.mp h
          have hrestEq := stripPrefix?_eq_some.mp hparam
          have hne : rest ≠ [] := by
            rw [hrestEq]
            exact List.append_ne_nil_of_left_ne_nil (by decide) _
          have hother : stripPrefix? "</function>".toList (rest ++ q) = none := by
            rw [hrestEq, stripPrefix?, if_neg]
            simp
          obtain rfl := hrest hne
          cases fuel' with
          | zero => cases h'
          | succ fuel' =>
            rw [parameters, hother, stripPrefix?_append hparam] at h'
            simp only [cut_append hcut, if_neg hfresh, hschema, hstring, ok_bind] at h'
            split at h
            · next value after hclose =>
              -- the value is closed in both
              obtain ⟨encoded, hencoded, h⟩ := bind_eq_ok.mp h
              simp only [cut_append hclose, hencoded, ok_bind] at h'
              have hnext := ih h (fun hne' => trimStart_append hne' q) h'
              rw [hnext]
              unfold SplitsParameter
              rw [openParameter, hparam, Option.bind_some, hcut]
              simp only [hclose]
            · next hopenValue =>
              -- the value is open in the prefix, and closed in the whole
              obtain ⟨-, -, h⟩ := bind_eq_ok.mp h
              obtain ⟨raw, hraw, h⟩ := bind_eq_ok.mp h
              obtain ⟨encoded, hencoded, h⟩ := bind_eq_ok.mp h
              obtain rfl := Except.ok.inj h
              have hrawOk : openRaw body = .ok raw := by
                cases hopenRaw : openRaw body with
                | ok raw' =>
                  rw [hopenRaw] at hraw
                  rw [Except.ok.inj hraw]
                | error e =>
                  rw [hopenRaw] at hraw
                  cases e with
                  | err e => exact e.elim
                  | panic => cases hraw
              split at h'
              · next value after hclose =>
                obtain ⟨encoded', hencoded', h'⟩ := bind_eq_ok.mp h'
                obtain ⟨more, rfl, hmore⟩ := parameters_begin h'
                have hgrows := encode_grows hopenValue hrawOk hclose hencoded hencoded'
                  (hmore (List.append_ne_nil_of_right_ne_nil _ (List.cons_ne_nil _ _)))
                have hstart : '{' :: joined (entries ++ [quote key ++ ':' :: encoded]) <+:
                    '{' :: (joined (entries ++ [quote key ++ ':' :: encoded']) ++ more) ↔ encoded <+: encoded' ++ more := by
                  rw [joined_append, joined_append, List.cons_prefix_cons, and_iff_right rfl, List.append_assoc,
                    List.append_assoc, List.append_assoc, List.prefix_append_right_inj, List.prefix_append_right_inj,
                    List.prefix_append_right_inj, List.cons_append, List.cons_prefix_cons, and_iff_right rfl]
                rw [hstart, hgrows]
                refine not_congr ⟨fun hsplit => ⟨key, body, schema, isString, ?_, hschema, hstring, hsplit⟩, ?_⟩
                · rw [openParameter, hparam, Option.bind_some, hcut]
                  simp only [hopenValue]
                · rintro ⟨key', body', schema', isString', hopen', hschema', hstring', hsplit⟩
                  rw [openParameter, hparam, Option.bind_some, hcut] at hopen'
                  simp only [hopenValue] at hopen'
                  obtain ⟨rfl, rfl⟩ := Prod.mk.inj (Option.some.inj hopen')
                  obtain rfl := Except.ok.inj (hschema.symm.trans hschema')
                  obtain rfl := Except.ok.inj (hstring.symm.trans hstring')
                  exact hsplit
              · obtain ⟨_, hfail, _⟩ := bind_eq_ok.mp h'
                exact absurd trivial (failIf_ok.mp hfail)

/-- The prefix `p` of a call ends, and `q` goes on, inside a line break that is taken off a value. -/
def SplitsBreak (tools : List Json) (p q : Text) : Prop :=
  ∃ name rest tool, (stripPrefix? "<function=".toList (trimStart p)).bind (cut ['>']) = some (name, rest) ∧
    tools.find? (fun tool => toolName tool = some name) = some tool ∧
    SplitsParameter tool (rest.length + 1) (trimStart rest) q

/-- The arguments shown for a prefix of a call begin the final ones, under the same name,
exactly when the prefix does not end inside a line break that is taken off a value. -/
theorem xml_arguments_grow_iff {tools : List Json} {p q name name' a args : Text}
    (h : xmlPrefix parse print tools false p = .ok (some (name', a)))
    (h' : xmlPrefix parse print tools true (p ++ q) = .ok (some (name, args))) :
    (name' = name ∧ a <+: args) ↔ ¬SplitsBreak tools p q := by
  unfold xmlPrefix at h h'
  cases hopen : (stripPrefix? "<function=".toList (trimStart p)).bind (cut ['>']) with
  | none =>
    rw [hopen] at h
    cases h
  | some head =>
    obtain ⟨called, rest⟩ := head
    obtain ⟨tail, hstrip, hcut⟩ := Option.bind_eq_some_iff.mp hopen
    have hne : trimStart p ≠ [] := by
      rw [stripPrefix?_eq_some.mp hstrip]
      exact List.append_ne_nil_of_left_ne_nil (by decide) _
    rw [hopen] at h
    rw [trimStart_append hne, stripPrefix?_append hstrip, Option.bind_some, cut_append hcut] at h'
    simp only at h h'
    obtain ⟨tool, htool, h⟩ := bind_eq_ok.mp h
    obtain ⟨a', ha, h⟩ := bind_eq_ok.mp h
    rw [htool, ok_bind] at h'
    obtain ⟨args', hargs, h'⟩ := bind_eq_ok.mp h'
    obtain ⟨rfl, rfl⟩ := Prod.mk.inj (Option.some.inj (Except.ok.inj h))
    obtain ⟨rfl, rfl⟩ := Prod.mk.inj (Option.some.inj (Except.ok.inj h'))
    rw [and_iff_right rfl, parameters_grow ha (fun hne' => trimStart_append hne' q) hargs]
    have hfound := okOr_ok.mp htool
    refine not_congr ⟨fun hsplit => ⟨called, rest, tool, hopen, hfound, hsplit⟩, ?_⟩
    rintro ⟨called', rest', tool', hopen', hfound', hsplit⟩
    rw [hopen] at hopen'
    obtain ⟨rfl, rfl⟩ := Prod.mk.inj (Option.some.inj hopen')
    rw [hfound] at hfound'
    obtain rfl := Option.some.inj hfound'
    exact hsplit

end

-- A split line break

/-- A tool `f` with one string parameter `c`. -/
def stringTool : Json :=
  .object [("function".toList, .object [("name".toList, .string ['f']),
    ("parameters".toList, .object [("properties".toList, .object [(['c'], .object [("type".toList, .string "string".toList)])])])])]

def callStart : Text := "<function=f><parameter=c>ab\r".toList

def callRest : Text := "\n</parameter></function>".toList

/-- `ab` and a carriage return are shown, and with the line feed the argument is `ab`. -/
theorem carriage_return_taken_back :
    xmlPrefix (fun _ => none) (fun _ => []) [stringTool] false callStart = .ok (some (['f'], "\x7b\"c\":\"ab\\r".toList)) ∧
      xmlPrefix (fun _ => none) (fun _ => []) [stringTool] true (callStart ++ callRest) =
        .ok (some (['f'], "\x7b\"c\":\"ab\"\x7d".toList)) ∧
      ¬"\x7b\"c\":\"ab\\r".toList <+: "\x7b\"c\":\"ab\"\x7d".toList := by
  refine ⟨by decide +kernel, by decide +kernel, by decide⟩

/-- `xml_arguments_grow_iff`, on a prefix that ends before the line break. -/
theorem xml_arguments_grow_iff_plain :
    (['f'] = ['f'] ∧ "\x7b\"c\":\"ab".toList <+: "\x7b\"c\":\"ab\"\x7d".toList) ↔
      ¬SplitsBreak [stringTool] "<function=f><parameter=c>ab".toList ('\r' :: callRest) :=
  @xml_arguments_grow_iff (fun _ => none) (fun _ => []) [stringTool] "<function=f><parameter=c>ab".toList ('\r' :: callRest)
    ['f'] ['f'] "\x7b\"c\":\"ab".toList "\x7b\"c\":\"ab\"\x7d".toList (by decide +kernel) (by decide +kernel)

end Ruda.Serving
