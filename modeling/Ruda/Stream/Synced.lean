import Ruda.Stream.Events

/-!
# What a resolved stream has waited for

The invariant behind skipped waits: a cursor in `last_synced` was reached by
its origin, and the stream did wait on an event flushed at that cursor. Every
step of `resolve` keeps it, whether it returns or fails midway.
-/

namespace Ruda.Stream.MultiStream

variable {B : EventStreamBackend} {s s' s'' : MultiStream B} {i t : Nat}

-- Reading the state

/-- The stream of a slot, once created. -/
def wrapper? (s : MultiStream B) (i : Nat) : Option (StreamWrapper B) := s.streams[i]?.join

/-- A stream not created yet is as one just created. -/
def cursor (s : MultiStream B) (i : Nat) : UInt64 := ((s.wrapper? i).map (·.cursor)).getD 0

def lastSynced (s : MultiStream B) (i : Nat) : Nat → Option UInt64 :=
  ((s.wrapper? i).map (·.lastSynced)).getD fun _ => none

def waited (s : MultiStream B) (i : Nat) : List (Nat × UInt64) :=
  ((s.wrapper? i).map (·.waited)).getD []

/-- Only backend state differs, and which streams exist. -/
structure Same (s s' : MultiStream B) : Prop where
  cursor : s'.cursor = s.cursor
  lastSynced : s'.lastSynced = s.lastSynced
  waited : s'.waited = s.waited
  maxStreams : s'.maxStreams = s.maxStreams

theorem Same.refl : Same s s := ⟨rfl, rfl, rfl, rfl⟩

theorem Same.trans (h : Same s s') (h' : Same s' s'') : Same s s'' :=
  ⟨h'.cursor.trans h.cursor, h'.lastSynced.trans h.lastSynced, h'.waited.trans h.waited,
    h'.maxStreams.trans h.maxStreams⟩

/-- Streams already created stay as they are. -/
def Keeps (s s' : MultiStream B) : Prop := ∀ j w, s.wrapper? j = some w → s'.wrapper? j = some w

theorem wrapper?_set {w : StreamWrapper B} (h : i < s.streams.length) (j : Nat) :
    wrapper? { s with streams := s.streams.set i (some w) } j =
      if j = i then some w else s.wrapper? j := by
  unfold wrapper?
  by_cases hj : j = i
  · subst hj
    simp [h]
  · simp [hj, List.getElem?_set_ne (Ne.symm hj)]

theorem lt_of_wrapper? {w : StreamWrapper B} (h : s.wrapper? i = some w) : i < s.streams.length := by
  by_contra hlt
  have hnone : s.streams[i]? = none := List.getElem?_eq_none_iff.mpr (not_lt.mp hlt)
  simp [wrapper?, hnone] at h

theorem Same.put {w w' : StreamWrapper B} (hw : s.wrapper? i = some w) (hc : w'.cursor = w.cursor)
    (hl : w'.lastSynced = w.lastSynced) (hwt : w'.waited = w.waited) :
    Same s { s with streams := s.streams.set i (some w') } := by
  have hset := wrapper?_set (w := w') (lt_of_wrapper? hw)
  refine ⟨?_, ?_, ?_, rfl⟩ <;> funext j
  · by_cases hj : j = i
    · simp [MultiStream.cursor, hset, hj, hw, hc]
    · simp [MultiStream.cursor, hset, hj]
  · by_cases hj : j = i
    · simp [MultiStream.lastSynced, hset, hj, hw, hl]
    · simp [MultiStream.lastSynced, hset, hj]
  · by_cases hj : j = i
    · simp [MultiStream.waited, hset, hj, hw, hwt]
    · simp [MultiStream.waited, hset, hj]

theorem Same.create {w : StreamWrapper B} (hi : i < s.streams.length) (hn : s.wrapper? i = none)
    (hc : w.cursor = 0) (hl : w.lastSynced = fun _ => none) (hwt : w.waited = []) :
    Same s { s with streams := s.streams.set i (some w) } := by
  have hset := wrapper?_set (w := w) hi
  refine ⟨?_, ?_, ?_, rfl⟩ <;> funext j
  · by_cases hj : j = i
    · simp [MultiStream.cursor, hset, hj, hn, hc]
    · simp [MultiStream.cursor, hset, hj]
  · by_cases hj : j = i
    · simp [MultiStream.lastSynced, hset, hj, hn, hl]
    · simp [MultiStream.lastSynced, hset, hj]
  · by_cases hj : j = i
    · simp [MultiStream.waited, hset, hj, hn, hwt]
    · simp [MultiStream.waited, hset, hj]

theorem lastSynced_eq {w : StreamWrapper B} (h : s.wrapper? i = some w) : s.lastSynced i = w.lastSynced := by
  simp [lastSynced, h]

theorem cursor_eq {w : StreamWrapper B} (h : s.wrapper? i = some w) : s.cursor i = w.cursor := by
  simp [cursor, h]

theorem waited_eq {w : StreamWrapper B} (h : s.wrapper? i = some w) : s.waited i = w.waited := by
  simp [waited, h]

-- Steps that leave the bookkeeping alone

theorem indexOf_ok (id : StreamId) :
    Triple (indexOf id) s (fun i s' => i = Stream.streamIndex id s.maxStreams ∧ s' = s)
      (fun _ s' => Same s s') := by
  refine Triple.get_bind (Triple.ite ?_ ?_)
  · intro _
    exact Triple.panic' Same.refl
  · intro _
    exact Triple.pure' ⟨rfl, rfl⟩

theorem getOrCreateIndex_ok :
    Triple (getOrCreateIndex i) s (fun w s' => Same s s' ∧ Keeps s s' ∧ s'.wrapper? i = some w)
      (fun _ s' => Same s s') := by
  refine Triple.get_bind (Triple.expect_bind ?_ ?_)
  · intro _
    exact Same.refl
  intro entry he
  have hi : i < s.streams.length := (List.getElem?_eq_some_iff.mp he).1
  cases entry with
  | some w => exact Triple.pure' ⟨Same.refl, fun _ _ h => h, by simp [wrapper?, he]⟩
  | none =>
    have hn : s.wrapper? i = none := by simp [wrapper?, he]
    refine Triple.set_bind ?_
    have hbackend : Same s { s with backend := (B.tryCreateStream s.backend).2 } := ⟨rfl, rfl, rfl, rfl⟩
    cases (B.tryCreateStream s.backend).1 with
    | error error => exact Triple.fail' hbackend
    | ok stream =>
      refine Triple.modify_bind (Triple.pure' ⟨?_, ?_, ?_⟩)
      · exact hbackend.trans (Same.create hi hn rfl rfl rfl)
      · intro j w hw
        have hj : j ≠ i := fun e => by rw [e, hn] at hw; cases hw
        exact (wrapper?_set (s := { s with backend := _ }) hi j).trans ((if_neg hj).trans hw)
      · exact (wrapper?_set (s := { s with backend := _ }) hi i).trans (if_pos rfl)

theorem getMutIndex_ok :
    Triple (getMutIndex i) s (fun w s' => Same s s' ∧ Keeps s s' ∧ s'.wrapper? i = some w)
      (fun _ s' => Same s s') := by
  refine Triple.catch' getOrCreateIndex_ok ?_
  intro f s' h
  cases f with
  | error message => exact Triple.panic' h
  | panic message => exact Triple.panic' h

theorem dependencyEvent_ok (origin : Nat) :
    Triple (dependencyEvent origin) s
      (fun e s' => Same s s' ∧ e.1 = origin ∧ e.2.1 = s.cursor origin) (fun _ s' => Same s s') := by
  refine Triple.bind getMutIndex_ok ?_
  rintro w s₁ ⟨h₁, -, hw⟩
  refine Triple.modify_bind (Triple.pure' ⟨h₁.trans (Same.put hw rfl rfl rfl), rfl, ?_⟩)
  rw [← h₁.cursor, cursor_eq hw]

theorem dependencyEvents_ok (origins : List Nat) :
    Triple (origins.mapM dependencyEvent) s
      (fun events s' => Same s s' ∧ events.map (·.1) = origins ∧ ∀ e ∈ events, e.2.1 = s.cursor e.1)
      (fun _ s' => Same s s') := by
  induction origins generalizing s with
  | nil => exact Triple.pure' ⟨Same.refl, rfl, nofun⟩
  | cons origin origins ih =>
    rw [List.mapM_cons]
    refine Triple.bind (dependencyEvent_ok origin) ?_
    rintro e s₁ ⟨h₁, rfl, hc⟩
    refine Triple.bind (ih.mono (fun _ _ h => h) fun _ _ h => h₁.trans h) ?_
    rintro es s₂ ⟨h₂, hes, hcs⟩
    refine Triple.pure' ⟨h₁.trans h₂, by rw [List.map_cons, hes], fun e' he' => ?_⟩
    cases List.mem_cons.mp he' with
    | inl he => rw [he, hc]
    | inr he => rw [hcs e' he, h₁.cursor]

theorem dependencyFailed_ok (id : StreamId) (error : ServerError) :
    Triple (dependencyFailed id error) s (fun _ s' => Same s s') (fun _ s' => Same s s') := by
  refine Triple.bind (indexOf_ok id) ?_
  rintro index s₁ ⟨-, rfl⟩
  refine Triple.bind (Q := fun r s' => Same s₁ s' ∧ ∀ w, r = some w → s'.wrapper? index = some w)
    (Triple.catch' (Triple.map' (getOrCreateIndex_ok.mono ?_ fun _ _ h => h)) ?_) ?_
  · rintro w s₂ ⟨h₂, -, hw⟩
    exact ⟨h₂, fun w' hw' => Option.some.inj hw' ▸ hw⟩
  · intro f s₂ h₂
    cases f with
    | error message => exact Triple.pure' ⟨h₂, nofun⟩
    | panic message => exact Triple.panic' h₂
  rintro created s₂ ⟨h₂, hw⟩
  cases created with
  | none => exact Triple.pure' h₂
  | some w => exact Triple.modify' (h₂.trans (Same.put (hw w rfl) rfl rfl rfl))

-- Waiting

/-- A cursor a stream counts as synced was reached by its origin, and waited for. -/
structure Inv (s : MultiStream B) : Prop where
  reached : ∀ t o c, s.lastSynced t o = some c → c ≤ s.cursor o
  waited : ∀ t o c, s.lastSynced t o = some c → (o, c) ∈ s.waited t

theorem Inv.same (h : Inv s) (hs : Same s s') : Inv s' := by
  obtain ⟨hr, hw⟩ := h
  rw [← hs.lastSynced] at hr hw
  exact ⟨by rwa [hs.cursor], by rwa [hs.waited]⟩

/-- `t` may have waited; cursors are where they were. -/
structure Waits (t : Nat) (s s' : MultiStream B) : Prop where
  inv : Inv s'
  cursor : s'.cursor = s.cursor
  maxStreams : s'.maxStreams = s.maxStreams
  more : s.waited t ⊆ s'.waited t

theorem Waits.of_same (h : Inv s) (hs : Same s s') : Waits t s s' :=
  ⟨h.same hs, hs.cursor, hs.maxStreams, by rw [hs.waited]; exact List.Subset.refl _⟩

theorem Waits.trans (h : Waits t s s') (h' : Waits t s' s'') : Waits t s s'' :=
  ⟨h'.inv, h'.cursor.trans h.cursor, h'.maxStreams.trans h.maxStreams, List.Subset.trans h.more h'.more⟩

/-- `t` has waited on an event of `o` flushed at cursor `c`. -/
structure Syncs (t o : Nat) (c : UInt64) (s s' : MultiStream B) : Prop where
  cursor : s'.cursor = s.cursor
  maxStreams : s'.maxStreams = s.maxStreams
  lastSynced : s'.lastSynced = Function.update s.lastSynced t (Function.update (s.lastSynced t) o (some c))
  waited : s'.waited = Function.update s.waited t (s.waited t ++ [(o, c)])

theorem Syncs.waits {o : Nat} {c : UInt64} (h : Syncs t o c s s') (hinv : Inv s) (hc : c = s.cursor o) :
    Waits t s s' := by
  have hmore : s.waited t ⊆ s'.waited t := by
    rw [h.waited, Function.update_self]
    exact List.subset_append_left _ _
  refine ⟨⟨?_, ?_⟩, h.cursor, h.maxStreams, hmore⟩
  · intro j o' c' hl
    rw [h.cursor]
    rw [h.lastSynced] at hl
    by_cases hj : j = t
    · subst hj
      rw [Function.update_self] at hl
      by_cases ho : o' = o
      · subst ho
        rw [Function.update_self] at hl
        rw [← Option.some.inj hl, hc]
        exact UInt64.le_refl _
      · rw [Function.update_of_ne ho] at hl
        exact hinv.reached j o' c' hl
    · rw [Function.update_of_ne hj] at hl
      exact hinv.reached j o' c' hl
  · intro j o' c' hl
    rw [h.lastSynced] at hl
    rw [h.waited]
    by_cases hj : j = t
    · subst hj
      rw [Function.update_self] at hl ⊢
      by_cases ho : o' = o
      · subst ho
        rw [Function.update_self] at hl
        rw [← Option.some.inj hl]
        simp
      · rw [Function.update_of_ne ho] at hl
        exact List.mem_append_left _ (hinv.waited j o' c' hl)
    · rw [Function.update_of_ne hj] at hl ⊢
      exact hinv.waited j o' c' hl

theorem Syncs.put {o : Nat} {c : UInt64} {w w' : StreamWrapper B} (hw : s.wrapper? t = some w)
    (hc : w'.cursor = w.cursor) (hl : w'.lastSynced = Function.update w.lastSynced o (some c))
    (hwt : w'.waited = w.waited ++ [(o, c)]) :
    Syncs t o c s { s with streams := s.streams.set t (some w') } := by
  have hset := wrapper?_set (w := w') (lt_of_wrapper? hw)
  refine ⟨?_, rfl, ?_, ?_⟩ <;> funext j
  · by_cases hj : j = t
    · simp [MultiStream.cursor, hset, hj, hw, hc]
    · simp [MultiStream.cursor, hset, hj]
  · by_cases hj : j = t
    · subst hj
      simp [MultiStream.lastSynced, hset, hw, hl]
    · simp [MultiStream.lastSynced, hset, hj]
  · by_cases hj : j = t
    · subst hj
      simp [MultiStream.waited, hset, hw, hwt]
    · simp [MultiStream.waited, hset, hj]

theorem waitOn_ok (h : Inv s) {e : Nat × UInt64 × B.Event} (he : e.2.1 = s.cursor e.1) :
    Triple (waitOn t e) s (fun _ s' => Waits t s s' ∧ (e.1, e.2.1) ∈ s'.waited t)
      (fun _ s' => Waits t s s') := by
  obtain ⟨o, c, event⟩ := e
  refine Triple.bind (getMutIndex_ok.mono (fun _ _ h => h) fun _ _ hs => Waits.of_same h hs) ?_
  rintro w s₁ ⟨h₁, -, hw⟩
  dsimp only
  cases (B.waitEventChecked w.stream event).1 with
  | error error =>
    refine Triple.modify_bind (Triple.fail' ?_)
    exact Waits.of_same h (h₁.trans (Same.put hw rfl rfl rfl))
  | ok _ =>
    let synced : StreamWrapper B := { w with
      stream := (B.waitEventChecked w.stream event).2
      lastSynced := Function.update w.lastSynced o (some c)
      waited := w.waited ++ [(o, c)] }
    have hsync : Syncs t o c s₁ { s₁ with streams := s₁.streams.set t (some synced) } :=
      Syncs.put hw rfl rfl rfl
    have hc : c = s₁.cursor o := by rw [h₁.cursor]; exact he
    refine Triple.modify' ⟨(Waits.of_same h h₁).trans (hsync.waits (h.same h₁) hc), ?_⟩
    rw [hsync.waited]
    simp

theorem waitAll_ok (h : Inv s) {events : List (Nat × UInt64 × B.Event)}
    (he : ∀ e ∈ events, e.2.1 = s.cursor e.1) :
    Triple (events.forM (waitOn t)) s
      (fun _ s' => Waits t s s' ∧ ∀ e ∈ events, (e.1, s.cursor e.1) ∈ s'.waited t)
      (fun _ s' => Waits t s s') := by
  induction events generalizing s with
  | nil => exact Triple.pure' ⟨Waits.of_same h Same.refl, nofun⟩
  | cons e events ih =>
    refine Triple.bind (waitOn_ok h (he e List.mem_cons_self)) ?_
    rintro _ s₁ ⟨h₁, hmem⟩
    have hrest : ∀ e' ∈ events, e'.2.1 = s₁.cursor e'.1 := by
      intro e' he'
      rw [h₁.cursor]
      exact he e' (List.mem_cons_of_mem _ he')
    refine (ih h₁.inv hrest).mono ?_ fun _ _ h₂ => h₁.trans h₂
    rintro _ s₂ ⟨h₂, hall⟩
    refine ⟨h₁.trans h₂, fun e' he' => ?_⟩
    cases List.mem_cons.mp he' with
    | inl heq =>
      rw [heq, ← he e List.mem_cons_self]
      exact h₂.more hmem
    | inr htail =>
      rw [← h₁.cursor]
      exact hall e' htail

theorem applyAnalysis_ok (h : Inv s) (order : KeyOrder) (id : StreamId) (analysis : SharedBindingAnalysis) :
    Triple (applyAnalysis order id analysis) s
      (fun _ s' => Waits (Stream.streamIndex id s.maxStreams) s s' ∧
        ∀ o ∈ analysis.map Prod.fst, (o, s.cursor o) ∈ s'.waited (Stream.streamIndex id s.maxStreams))
      (fun _ s' => Waits (Stream.streamIndex id s.maxStreams) s s') := by
  refine Triple.ite ?_ ?_
  · intro hempty
    have hnil := List.isEmpty_iff.mp hempty
    exact Triple.pure' ⟨Waits.of_same h Same.refl, by simp [hnil]⟩
  intro _
  refine Triple.bind ((indexOf_ok id).mono (fun _ _ h => h) fun _ _ hs => Waits.of_same h hs) ?_
  rintro target s₁ ⟨rfl, hs₁⟩
  obtain rfl : s = s₁ := hs₁.symm
  refine Triple.bind (getMutIndex_ok.mono (fun _ _ h => h) fun _ _ hs => Waits.of_same h hs) ?_
  rintro w s₁ ⟨h₁, -, -⟩
  refine Triple.bind ((dependencyEvents_ok _).mono (fun _ _ h => h)
    fun _ _ hs => Waits.of_same h (h₁.trans hs)) ?_
  rintro events s₂ ⟨h₂, hmap, hcursors⟩
  have hs : Same s s₂ := h₁.trans h₂
  have hc : ∀ e ∈ events, e.2.1 = s₂.cursor e.1 := by
    intro e he
    rw [h₂.cursor]
    exact hcursors e he
  have hstart : Waits (Stream.streamIndex id s.maxStreams) s s₂ := Waits.of_same h hs
  refine Triple.bind ((waitAll_ok hstart.inv hc).mono (fun _ _ h => h) fun _ _ hw => hstart.trans hw) ?_
  rintro _ s₃ ⟨h₃, hall⟩
  refine Triple.pure' ⟨hstart.trans h₃, fun o ho => ?_⟩
  have hmem : o ∈ events.map (·.1) := by
    rw [hmap]
    exact (order.perm _).mem_iff.mpr ho
  obtain ⟨e, he, rfl⟩ := List.mem_map.mp hmem
  rw [← hs.cursor]
  exact hall e he

-- Which origins are analysed

theorem shared_keys {analysis : SharedBindingAnalysis} {id index o : Nat} :
    o ∈ (analysis.shared id index).map Prod.fst ↔ o = index ∨ o ∈ analysis.map Prod.fst := by
  unfold SharedBindingAnalysis.shared
  split
  · next hin =>
    have hmap : (analysis.map fun slice => if slice.1 = index then (index, slice.2 ++ [id]) else slice).map
        Prod.fst = analysis.map Prod.fst := by
      rw [List.map_map]
      refine List.map_congr_left fun slice _ => ?_
      simp only [Function.comp_apply]
      split
      · next he => exact he.symm
      · rfl
    rw [hmap]
    constructor
    · exact .inr
    · rintro (rfl | ho)
      · exact hin
      · exact ho
  · simp [or_comm]

theorem analyze_keys (current : StreamWrapper B) (max : Nat) (pool : List (Nat × StreamId × UInt64))
    (analysis : SharedBindingAnalysis) {o : Nat} (ho : o ∈ analysis.map Prod.fst ∨
      ∃ p ∈ pool, Stream.streamIndex p.2.1 max = o ∧
        ∀ last, current.lastSynced o = some last → last < p.2.2) :
    o ∈ (analyze max current pool analysis).map Prod.fst := by
  induction pool generalizing analysis with
  | nil =>
    cases ho with
    | inl ho => exact ho
    | inr ho =>
      obtain ⟨p, hp, -⟩ := ho
      cases hp
  | cons p pool ih =>
    obtain ⟨id, stream, cursor⟩ := p
    have hkeep : ∀ a : SharedBindingAnalysis, (∀ o, o ∈ analysis.map Prod.fst → o ∈ a.map Prod.fst) →
        (Stream.streamIndex stream max = o → (∀ last, current.lastSynced o = some last → last < cursor) →
          o ∈ a.map Prod.fst) → o ∈ (analyze max current pool a).map Prod.fst := by
      intro a hmono hnew
      apply ih
      rcases ho with ho | ⟨p, hp, hpo, hlast⟩
      · exact .inl (hmono o ho)
      · cases List.mem_cons.mp hp with
        | inl heq =>
          subst heq
          exact .inl (hnew hpo hlast)
        | inr hp => exact .inr ⟨p, hp, hpo, hlast⟩
    have hshared := hkeep (analysis.shared id (Stream.streamIndex stream max))
      (fun o ho => shared_keys.mpr (.inr ho)) (fun hpo _ => shared_keys.mpr (.inl hpo.symm))
    rw [analyze]
    cases hl : current.lastSynced (Stream.streamIndex stream max) with
    | none => exact hshared
    | some last =>
      dsimp only
      split
      · exact hshared
      · next hnot =>
        refine hkeep analysis (fun o ho => ho) (fun hpo hlast => absurd ?_ hnot)
        rw [hpo] at hl
        exact hlast last hl

theorem sharedBindings_ok (handles : List Binding) :
    Triple (sharedBindings t handles) s
      (fun pool s' => Same s s' ∧ Keeps s s' ∧ ∀ handle ∈ handles,
        Stream.streamIndex handle.stream s.maxStreams ≠ t →
        ∃ w, s'.wrapper? (Stream.streamIndex handle.stream s.maxStreams) = some w ∧
          (handle.memory, handle.stream, B.handleCursor w.stream handle) ∈ pool)
      (fun _ s' => Same s s') := by
  induction handles generalizing s with
  | nil => exact Triple.pure' ⟨Same.refl, fun _ _ h => h, nofun⟩
  | cons handle handles ih =>
    refine Triple.bind (indexOf_ok handle.stream) ?_
    rintro index s₁ ⟨rfl, hs₁⟩
    obtain rfl : s = s₁ := hs₁.symm
    refine Triple.bind getOrCreateIndex_ok ?_
    rintro w s₁ ⟨h₁, hk₁, hw⟩
    refine Triple.bind (ih.mono (fun _ _ h => h) fun _ _ h => h₁.trans h) ?_
    rintro rest s₂ ⟨h₂, hk₂, hrest⟩
    refine Triple.pure' ⟨h₁.trans h₂, fun j v hv => hk₂ j v (hk₁ j v hv), ?_⟩
    intro handle' hmem hne
    cases List.mem_cons.mp hmem with
    | inl heq =>
      subst heq
      exact ⟨w, hk₂ _ w hw, by rw [if_pos hne]; exact List.mem_cons_self⟩
    | inr htail =>
      rw [← h₁.maxStreams] at hne ⊢
      obtain ⟨v, hv, hpool⟩ := hrest handle' htail hne
      refine ⟨v, hv, ?_⟩
      split
      · exact List.mem_cons_of_mem _ hpool
      · exact hpool

/-- What the analysis of a handle's stream came to: it is to be waited for, or
was synced with at the handle's cursor or later. -/
theorem updateSharedBindings_ok (id : StreamId) (handles : List Binding) :
    Triple (updateSharedBindings id handles) s
      (fun analysis s' => Same s s' ∧ ∀ handle ∈ handles,
        Stream.streamIndex handle.stream s.maxStreams ≠ Stream.streamIndex id s.maxStreams →
        ∃ w, s'.wrapper? (Stream.streamIndex handle.stream s.maxStreams) = some w ∧
          (Stream.streamIndex handle.stream s.maxStreams ∈ analysis.map Prod.fst ∨
          ∃ last, s.lastSynced (Stream.streamIndex id s.maxStreams)
              (Stream.streamIndex handle.stream s.maxStreams) = some last ∧
            B.handleCursor w.stream handle ≤ last))
      (fun _ s' => Same s s') := by
  refine Triple.bind (indexOf_ok id) ?_
  rintro target s₁ ⟨rfl, hs₁⟩
  obtain rfl : s = s₁ := hs₁.symm
  refine Triple.bind (sharedBindings_ok handles) ?_
  rintro pool s₁ ⟨h₁, -, hpool⟩
  refine Triple.bind (getOrCreateIndex_ok.mono (fun _ _ h => h) fun _ _ h => h₁.trans h) ?_
  rintro current s₂ ⟨h₂, hk₂, hcurrent⟩
  refine Triple.get_bind (Triple.pure' ⟨h₁.trans h₂, ?_⟩)
  intro handle hmem hne
  obtain ⟨w, hw, hp⟩ := hpool handle hmem hne
  refine ⟨w, hk₂ _ w hw, ?_⟩
  have hmax : s₂.maxStreams = s.maxStreams := h₂.maxStreams.trans h₁.maxStreams
  have hlast : current.lastSynced = s.lastSynced (Stream.streamIndex id s.maxStreams) := by
    rw [← lastSynced_eq hcurrent, h₂.lastSynced, h₁.lastSynced]
  rw [hmax]
  by_cases hsynced : ∃ last, s.lastSynced (Stream.streamIndex id s.maxStreams)
      (Stream.streamIndex handle.stream s.maxStreams) = some last ∧ B.handleCursor w.stream handle ≤ last
  · exact .inr hsynced
  · refine .inl (analyze_keys current s.maxStreams pool [] (.inr ⟨_, hp, rfl, ?_⟩))
    intro last hl
    rw [hlast] at hl
    by_contra hnot
    exact hsynced ⟨last, hl, UInt64.not_lt.mp hnot⟩

-- Resolving

/-- An event of `o`, flushed when its cursor had reached `c`, was waited for by `t`. -/
def WaitedFor (s : MultiStream B) (t o c : Nat) : Prop := ∃ c', (o, c') ∈ s.waited t ∧ c ≤ c'.toNat

/-- The target has waited for every handle of another physical stream: for the
handle's cursor, or for all of the origin if the handle is ahead of it. The
handles' cursors are those of the streams of `s₁`. -/
def HandlesReady (id : StreamId) (handles : List Binding) (s s₁ s' : MultiStream B) : Prop :=
  ∀ handle ∈ handles, Stream.streamIndex handle.stream s.maxStreams ≠ Stream.streamIndex id s.maxStreams →
    ∃ w, s₁.wrapper? (Stream.streamIndex handle.stream s.maxStreams) = some w ∧
      s'.WaitedFor (Stream.streamIndex id s.maxStreams) (Stream.streamIndex handle.stream s.maxStreams)
        (min (B.handleCursor w.stream handle).toNat
          (s.cursor (Stream.streamIndex handle.stream s.maxStreams)).toNat)

theorem alignStreams_ok (h : Inv s) (order : KeyOrder) (id : StreamId) (handles : List Binding) :
    Triple (alignStreams order id handles) s
      (fun _ s' => Waits (Stream.streamIndex id s.maxStreams) s s' ∧
        ∃ analysis s₁, (updateSharedBindings id handles).exec s = (.ok analysis, s₁) ∧
          HandlesReady id handles s s₁ s')
      (fun _ s' => Waits (Stream.streamIndex id s.maxStreams) s s') := by
  have hupdate := updateSharedBindings_ok (s := s) id handles
  rcases hu : (updateSharedBindings id handles).exec s with ⟨f | analysis, s₁⟩
  · have hf : (alignStreams order id handles).exec s = (.error f, s₁) := by
      rw [alignStreams, M.exec_bind, hu]
    exact Triple.of_fault hf (Waits.of_same h (hupdate.fault hu))
  obtain ⟨h₁, hhandles⟩ := hupdate.ok hu
  have hstart : Waits (Stream.streamIndex id s.maxStreams) s s₁ := Waits.of_same h h₁
  refine Triple.bind (Q := fun a s' => a = analysis ∧ s' = s₁) (Triple.of_exec hu ⟨rfl, rfl⟩) ?_
  rintro a s₂ ⟨ha, hs₂⟩
  rw [ha, hs₂]
  have happly := applyAnalysis_ok hstart.inv order id analysis
  rw [h₁.maxStreams] at happly
  refine happly.mono ?_ fun _ _ h₂ => hstart.trans h₂
  rintro _ s' ⟨h₂, hall⟩
  refine ⟨hstart.trans h₂, analysis, s₁, rfl, fun handle hmem hne => ?_⟩
  obtain ⟨w, hw, hcase⟩ := hhandles handle hmem hne
  refine ⟨w, hw, ?_⟩
  rcases hcase with hin | ⟨last, hlast, hle⟩
  · refine ⟨_, hall _ hin, ?_⟩
    rw [h₁.cursor]
    exact min_le_right _ _
  · exact ⟨last, (hstart.trans h₂).more (h.waited _ _ _ hlast), (min_le_left _ _).trans (UInt64.le_iff_toNat_le.mp hle)⟩

theorem Inv.advance {w w' : StreamWrapper B} (h : Inv s) (hw : s.wrapper? i = some w)
    (hc : w.cursor ≤ w'.cursor) (hl : w'.lastSynced = w.lastSynced) (hwt : w'.waited = w.waited) :
    Inv { s with streams := s.streams.set i (some w') } := by
  have hset := wrapper?_set (w := w') (lt_of_wrapper? hw)
  generalize { s with streams := s.streams.set i (some w') } = s' at hset ⊢
  have hlast : s'.lastSynced = s.lastSynced := by
    funext j
    by_cases hj : j = i
    · simp [MultiStream.lastSynced, hset, hj, hw, hl]
    · simp [MultiStream.lastSynced, hset, hj]
  have hwaited : s'.waited = s.waited := by
    funext j
    by_cases hj : j = i
    · simp [MultiStream.waited, hset, hj, hw, hwt]
    · simp [MultiStream.waited, hset, hj]
  have hcursor : ∀ j, s.cursor j ≤ s'.cursor j := by
    intro j
    by_cases hj : j = i
    · subst hj
      simpa [MultiStream.cursor, hset, hw] using hc
    · simp [MultiStream.cursor, hset, hj]
  constructor
  · intro j o c hlc
    rw [hlast] at hlc
    exact UInt64.le_trans (h.reached j o c hlc) (hcursor o)
  · intro j o c hlc
    rw [hlast] at hlc
    rw [hwaited]
    exact h.waited j o c hlc

/-- `stream.cursor += 1` does not wrap. -/
def CursorLeft (s : MultiStream B) (id : StreamId) : Prop :=
  s.cursor (Stream.streamIndex id s.maxStreams) < UInt64.ofNat u64Max

theorem le_add_one {c : UInt64} (h : c < UInt64.ofNat u64Max) : c ≤ c + 1 := by
  have hlt : c.toNat < 2 ^ 64 - 1 := UInt64.lt_iff_toNat_lt.mp h
  rw [UInt64.le_iff_toNat_le, UInt64.toNat_add, UInt64.toNat_one, Nat.mod_eq_of_lt (by omega)]
  omega

theorem alignOrFail_ok (h : Inv s) (order : KeyOrder) (id : StreamId) (handles : List Binding) :
    Triple (tryCatch (alignStreams order id handles) fun
      | .error error => do
        dependencyFailed id error
        M.fail error
      | .panic message => M.panic message) s
      (fun _ s' => Waits (Stream.streamIndex id s.maxStreams) s s' ∧
        ∃ analysis s₁, (updateSharedBindings id handles).exec s = (.ok analysis, s₁) ∧
          HandlesReady id handles s s₁ s')
      (fun _ s' => Waits (Stream.streamIndex id s.maxStreams) s s') := by
  refine Triple.catch' (alignStreams_ok h order id handles) ?_
  intro f s₁ h₁
  cases f with
  | panic message => exact Triple.panic' h₁
  | error error =>
    refine Triple.bind ((dependencyFailed_ok id error).mono (fun _ _ h => h)
      fun _ _ hs => h₁.trans (Waits.of_same h₁.inv hs)) ?_
    intro _ s₂ hs
    exact Triple.fail' (h₁.trans (Waits.of_same h₁.inv hs))

theorem resolve_inv (h : Inv s) (order : KeyOrder) (id : StreamId) (handles : List Binding)
    (healthy : Bool) (hleft : CursorLeft s id) :
    Triple (resolve order id handles healthy) s (fun _ s' => Inv s') (fun _ s' => Inv s') := by
  refine Triple.bind ((alignOrFail_ok h order id handles).mono (fun _ _ h => h) fun _ _ hw => hw.inv) ?_
  rintro _ s₁ ⟨h₁, -⟩
  refine Triple.bind ((indexOf_ok id).mono (fun _ _ h => h) fun _ _ hs => h₁.inv.same hs) ?_
  rintro index s₂ ⟨rfl, hs₂⟩
  obtain rfl : s₁ = s₂ := hs₂.symm
  refine Triple.bind (getOrCreateIndex_ok.mono (fun _ _ h => h) fun _ _ hs => h₁.inv.same hs) ?_
  rintro w s₂ ⟨h₂, -, hw⟩
  have hlt : w.cursor < UInt64.ofNat u64Max := by
    rw [← cursor_eq hw, h₂.cursor, h₁.cursor, h₁.maxStreams]
    exact hleft
  let advanced : StreamWrapper B := { w with cursor := w.cursor + 1 }
  have hinv : Inv { s₂ with streams := s₂.streams.set _ (some advanced) } :=
    (h₁.inv.same h₂).advance hw (le_add_one hlt) rfl rfl
  refine Triple.modify_bind (Triple.ite ?_ ?_)
  · intro _
    exact Triple.fail' hinv
  · intro _
    exact Triple.pure' hinv

theorem resolve_ok (h : Inv s) (order : KeyOrder) (id : StreamId) (handles : List Binding) (healthy : Bool) :
    Triple (resolve order id handles healthy) s
      (fun _ s' => ∃ analysis s₁, (updateSharedBindings id handles).exec s = (.ok analysis, s₁) ∧
        HandlesReady id handles s s₁ s') (fun _ _ => True) := by
  refine Triple.bind ((alignOrFail_ok h order id handles).mono (fun _ _ h => h) fun _ _ _ => trivial) ?_
  rintro _ s₂ ⟨-, analysis, s₁, hu, hready⟩
  refine Triple.bind ((indexOf_ok id).mono (fun _ _ h => h) fun _ _ _ => trivial) ?_
  rintro index s₃ ⟨-, hs₃⟩
  obtain rfl : s₂ = s₃ := hs₃.symm
  refine Triple.bind (getOrCreateIndex_ok.mono (fun _ _ h => h) fun _ _ _ => trivial) ?_
  rintro w s₃ ⟨h₃, -, hw⟩
  have hset := wrapper?_set (w := { w with cursor := w.cursor + 1 }) (lt_of_wrapper? hw)
  refine Triple.modify_bind (Triple.ite (fun _ => Triple.fail' trivial) fun _ => Triple.pure' ?_)
  refine ⟨analysis, s₁, hu, fun handle hmem hne => ?_⟩
  obtain ⟨v, hv, c, hc, hle⟩ := hready handle hmem hne
  refine ⟨v, hv, c, ?_, hle⟩
  rw [← h₃.waited] at hc
  by_cases hj : Stream.streamIndex id s.maxStreams = index
  · rw [hj] at hc ⊢
    rw [waited_eq hw] at hc
    simpa [MultiStream.waited, hset] using hc
  · simpa [MultiStream.waited, hset, hj] using hc

-- Runs

/-- Between resolves the drivers use the streams: backend state changes in any
way, and streams are created, but the bookkeeping is private to `MultiStream`. -/
inductive StreamOp (B : EventStreamBackend)
  | resolve (order : KeyOrder) (streamId : StreamId) (handles : List Binding) (enforceHealthy : Bool)
  | work (effect : MultiStream B → MultiStream B)

def StreamOp.run : StreamOp B → M (MultiStream B) PUnit
  | .resolve order id handles healthy => do let _ ← MultiStream.resolve order id handles healthy
  | .work effect => modify effect

def StreamOp.Allowed (s : MultiStream B) : StreamOp B → Prop
  | .resolve _ id _ _ => CursorLeft s id
  | .work effect => Same s (effect s)

theorem Inv.new (backend : B.Backend) (max : UInt8) : Inv (MultiStream.new backend max) := by
  have hnone : ∀ i, (MultiStream.new backend max).wrapper? i = none := by
    intro i
    simp only [wrapper?, MultiStream.new, List.getElem?_replicate]
    split <;> rfl
  constructor <;> intro t o c hl <;> simp [MultiStream.lastSynced, hnone] at hl

theorem StreamOp.run_inv (op : StreamOp B) (h : Inv s) (hok : op.Allowed s) :
    Triple op.run s (fun _ s' => Inv s') (fun f s' => f.IsPanic ∨ Inv s') := by
  cases op with
  | resolve order id handles healthy =>
    refine Triple.discard ((resolve_inv h order id handles healthy hok).mono (fun _ _ h => h) ?_)
    exact fun _ _ h => .inr h
  | work effect => exact Triple.modify' (h.same hok)

-- A backend

/-- Streams that know the cursors of some memory and, as Metal's, answer
`u64::MAX` for any other. Nothing fails. -/
def tableBackend : EventStreamBackend where
  Backend := Unit
  RawStream := List (Nat × UInt64)
  Event := Unit
  tryCreateStream _ := (.ok [], ())
  handleCursor table handle := (table.lookup handle.memory).getD (UInt64.ofNat u64Max)
  isHealthy _ := true
  flush table := ((), table)
  dependencyFailed table _ := table
  waitEventChecked table _ := (.ok (), table)

def insertionOrder : KeyOrder := ⟨fun l => l, List.Perm.refl⟩

def tableResolve (id : StreamId) (handles : List Binding) : StreamOp tableBackend :=
  .resolve insertionOrder id handles false

/-- Four streams, of which only the third is in use. -/
def thirdAt (c : UInt64) : MultiStream tableBackend where
  backend := ()
  streams := [none, none, some ⟨[], c, fun _ => none, []⟩, none, none]
  maxStreams := 4

/-- In every state reached without a cursor wrapping, whatever failed on the way:
the cursors a stream counts as synced are ones their origins have reached, and
a resolve that returns has waited for its handles. -/
theorem resolve_waits_for_handles {backend : B.Backend} {max : UInt8}
    (h : Reach StreamOp.run (fun s op => op.Allowed s) (MultiStream.new backend max) s) :
    (∀ t o c, s.lastSynced t o = some c → c ≤ s.cursor o) ∧
      ∀ order id handles healthy cursor s',
        (resolve order id handles healthy).exec s = (.ok cursor, s') →
        ∃ analysis s₁, (updateSharedBindings id handles).exec s = (.ok analysis, s₁) ∧
          HandlesReady id handles s s₁ s' := by
  have hinv : Inv s := h.inv (Inv.new backend max) fun s op hs hok => op.run_inv hs hok
  exact ⟨hinv.reached, fun order id handles healthy cursor s' hr =>
    (resolve_ok hinv order id handles healthy).ok hr⟩

/-- The second stream shares memory of the third, which has been used once. -/
theorem resolve_waits_for_handles_third :
    ∃ analysis s₁ s' cursor,
      (resolve insertionOrder ⟨1⟩ [⟨7, ⟨2⟩⟩] false).exec (thirdAt 1) = (.ok cursor, s') ∧
      (updateSharedBindings ⟨1⟩ [⟨7, ⟨2⟩⟩]).exec (thirdAt 1) = (.ok analysis, s₁) ∧
      HandlesReady ⟨1⟩ [⟨7, ⟨2⟩⟩] (thirdAt 1) s₁ s' := by
  have hreach : Reach StreamOp.run (fun s op => op.Allowed s) (MultiStream.new (B := tableBackend) () 4)
      (thirdAt 1) := by
    have hleft : CursorLeft (MultiStream.new (B := tableBackend) () 4) ⟨2⟩ := by
      show (0 : UInt64) < UInt64.ofNat u64Max
      decide
    exact Relation.ReflTransGen.single ⟨tableResolve ⟨2⟩ [], hleft, Returns.of_ok rfl⟩
  obtain ⟨analysis, s₁, hu, hready⟩ := (resolve_waits_for_handles hreach).2 insertionOrder ⟨1⟩
    [⟨7, ⟨2⟩⟩] false 1 _ rfl
  exact ⟨analysis, s₁, _, 1, rfl, hu, hready⟩

theorem runAll_resolve_third (n : Nat) (c : UInt64) :
    runAll StreamOp.run (List.replicate n (tableResolve ⟨2⟩ [])) (thirdAt c) =
      thirdAt (c + UInt64.ofNat n) := by
  induction n generalizing c with
  | zero => simp [runAll]
  | succ n ih =>
    have hstep : (StreamOp.run (tableResolve ⟨2⟩ [])).next (thirdAt c) = thirdAt (c + 1) := rfl
    have hsum : c + 1 + UInt64.ofNat n = c + UInt64.ofNat (n + 1) := by
      rw [UInt64.ofNat_add, UInt64.add_assoc, UInt64.add_comm 1]
      rfl
    rw [List.replicate_succ, ← hsum, ← ih, runAll, List.foldl_cons, hstep]
    rfl

theorem resolve_second_then_third (c : UInt64) :
    let s := runAll StreamOp.run [tableResolve ⟨1⟩ [⟨7, ⟨2⟩⟩], tableResolve ⟨2⟩ []] (thirdAt c)
    s.lastSynced 1 2 = some c ∧ s.cursor 2 = c + 1 :=
  ⟨rfl, rfl⟩

/-- A handle may be ahead of its origin, and no event of the origin covers its
cursor; and after `2 ^ 64` resolves of one stream a synced cursor is ahead too. -/
theorem waits_short_of_claimed_cursor :
    (∃ cursor s' w, (resolve insertionOrder ⟨1⟩ [⟨7, ⟨2⟩⟩] false).exec
        (MultiStream.new (B := tableBackend) () 4) = (.ok cursor, s') ∧ s'.wrapper? 2 = some w ∧
      ¬s'.WaitedFor 1 2 (tableBackend.handleCursor w.stream ⟨7, ⟨2⟩⟩).toNat) ∧
    ∃ ops c, (∀ op ∈ ops, ∃ id handles, op = tableResolve id handles) ∧
      (runAll StreamOp.run ops (MultiStream.new () 4)).lastSynced 1 2 = some c ∧
      (runAll StreamOp.run ops (MultiStream.new () 4)).cursor 2 < c := by
  refine ⟨⟨1, _, ⟨[], 0, fun _ => none, []⟩, rfl, rfl, ?_⟩, ?_⟩
  · rintro ⟨c, hc, hle⟩
    have hzero : c = 0 := by
      have hmem : (2, c) ∈ [(2, (0 : UInt64))] := hc
      simpa using hmem
    rw [hzero] at hle
    exact absurd hle (by decide)
  · refine ⟨tableResolve ⟨2⟩ [] :: (List.replicate (2 ^ 64 - 2) (tableResolve ⟨2⟩ []) ++
      [tableResolve ⟨1⟩ [⟨7, ⟨2⟩⟩], tableResolve ⟨2⟩ []]), UInt64.ofNat (2 ^ 64 - 1), ?_, ?_⟩
    · intro op hop
      rw [List.mem_cons, List.mem_append] at hop
      rcases hop with rfl | hop | hop
      · exact ⟨_, _, rfl⟩
      · exact ⟨_, _, List.eq_of_mem_replicate hop⟩
      · fin_cases hop <;> exact ⟨_, _, rfl⟩
    · have hrun : runAll StreamOp.run (tableResolve ⟨2⟩ [] ::
          (List.replicate (2 ^ 64 - 2) (tableResolve ⟨2⟩ []) ++
            [tableResolve ⟨1⟩ [⟨7, ⟨2⟩⟩], tableResolve ⟨2⟩ []])) (MultiStream.new () 4) =
          runAll StreamOp.run [tableResolve ⟨1⟩ [⟨7, ⟨2⟩⟩], tableResolve ⟨2⟩ []]
            (thirdAt (UInt64.ofNat (2 ^ 64 - 1))) := by
        have hsum : UInt64.ofNat (2 ^ 64 - 1) = 1 + UInt64.ofNat (2 ^ 64 - 2) := by decide
        rw [hsum, ← runAll_resolve_third, runAll, List.foldl_cons, List.foldl_append]
        rfl
      rw [hrun]
      obtain ⟨hlast, hcursor⟩ := resolve_second_then_third (UInt64.ofNat (2 ^ 64 - 1))
      refine ⟨hlast, ?_⟩
      rw [hcursor]
      decide

end Ruda.Stream.MultiStream
