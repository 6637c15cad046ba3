import Ruda.Device.Channel

/-!
# Claimed slots

What the threads that claim, write and publish slots keep about the buffer
being filled, apart from the rest of the channel. Of its slots, the first
`min available_index 32` are claimed; each of these is held by the thread that
claimed it until that thread publishes it, so that a full count means that
nobody is writing any more.
-/

namespace Ruda.Device

inductive Caller
  | client (id : Nat)
  | server
  | closer
  deriving DecidableEq, Repr

inductive Owner
  | free
  | held (caller : Caller)
  | published
  deriving DecidableEq, Repr

/-- Where a swap of the buffers is: not under way, the pointer stored, the count reset. -/
inductive Swap
  | none
  | stored
  | counted
  deriving DecidableEq, Repr

/-- The shared words, and the claims of the threads. -/
structure View where
  available : Nat
  count : Nat
  buffer : Bool
  slots : Bool → Nat → Content
  swap : Swap
  fills : Caller → Option Fill

theorem update_fills {fills : Caller → Option Fill} {w w' : Caller} {o : Option Fill} {f : Fill} :
    Function.update fills w o w' = some f ↔ w' = w ∧ o = some f ∨ w' ≠ w ∧ fills w' = some f := by
  by_cases h : w' = w
  · simp [h]
  · simp [h]

/-- `planned` is what the claimed slots hold or will hold. -/
structure Slots (v : View) (planned : List Content) (owner : Nat → Owner) : Prop where
  swapping : v.swap ≠ .none → planned = [] ∧ channelMaxTask ≤ v.available
  claimed : v.swap = .none → planned.length = min v.available channelMaxTask
  owned : ∀ i, owner i ≠ .free ↔ i < planned.length
  held : ∀ w i, owner i = .held w ↔ ∃ f, v.fills w = some f ∧ f.start ≤ i ∧ i < f.stop
  range : ∀ w f, v.fills w = some f → f.start < f.stop ∧ f.start ≤ f.index ∧ f.index ≤ f.stop
  loaded : ∀ w f b, v.fills w = some f → f.loaded = some b → b = v.buffer
  content : ∀ w f i, v.fills w = some f → f.start ≤ i → i < f.stop → planned[i]? = some f.content
  written : ∀ w f i, v.fills w = some f → f.start ≤ i → i < f.index → v.slots v.buffer i = f.content
  published : ∀ i, owner i = .published → planned[i]? = some (v.slots v.buffer i)
  count : v.swap ≠ .stored →
    v.count = ((Finset.range channelMaxTask).filter fun i => owner i = .published).card

namespace Slots

variable {v : View} {planned : List Content} {owner : Nat → Owner} {w : Caller} {f : Fill}

theorem length_le (h : Slots v planned owner) : planned.length ≤ channelMaxTask := by
  by_cases hs : v.swap = .none
  · rw [h.claimed hs]
    exact min_le_right _ _
  · rw [(h.swapping hs).1]
    exact Nat.zero_le _

theorem stop_le (h : Slots v planned owner) (hf : v.fills w = some f) : f.stop ≤ planned.length := by
  have hr := h.range w f hf
  have hheld : owner (f.stop - 1) = .held w := (h.held w _).mpr ⟨f, hf, by omega, by omega⟩
  have hlt := (h.owned (f.stop - 1)).mp (by rw [hheld]; exact nofun)
  omega

theorem swap_eq_none (h : Slots v planned owner) (hf : v.fills w = some f) : v.swap = .none := by
  by_contra hs
  have hstop := h.stop_le hf
  have hr := h.range w f hf
  rw [(h.swapping hs).1, List.length_nil] at hstop
  omega

theorem full (h : Slots v planned owner) (hs : v.swap = .none) (hc : channelMaxTask ≤ v.count) :
    planned.length = channelMaxTask ∧ (∀ i, i < channelMaxTask → owner i = .published) ∧
      ∀ w, v.fills w = none := by
  have hcard := h.count (by rw [hs]; exact nofun)
  have hall : ∀ i, i < channelMaxTask → owner i = .published := by
    have heq : (Finset.range channelMaxTask).filter (fun i => owner i = .published) =
        Finset.range channelMaxTask := by
      apply Finset.eq_of_subset_of_card_le (Finset.filter_subset _ _)
      rw [Finset.card_range]
      omega
    intro i hi
    have hmem := Finset.mem_range.mpr hi
    rw [← heq] at hmem
    exact (Finset.mem_filter.mp hmem).2
  refine ⟨le_antisymm h.length_le ?_, hall, fun w => ?_⟩
  · by_contra hlt
    have hfree := h.owned planned.length
    rw [hall planned.length (not_le.mp hlt)] at hfree
    simp at hfree
  · cases hf : v.fills w with
    | none => rfl
    | some f =>
      have hr := h.range w f hf
      have hstop := (h.stop_le hf).trans h.length_le
      have hheld : owner f.start = .held w := (h.held w _).mpr ⟨f, hf, le_rfl, hr.1⟩
      rw [hall f.start (by omega)] at hheld
      cases hheld

theorem planned_eq (h : Slots v planned owner) (hs : v.swap = .none) (hc : channelMaxTask ≤ v.count) :
    planned = (List.range channelMaxTask).map (v.slots v.buffer) := by
  obtain ⟨hlen, hall, -⟩ := h.full hs hc
  apply List.ext_getElem?
  intro i
  by_cases hi : i < channelMaxTask
  · rw [h.published i (hall i hi)]
    simp [hi]
  · rw [List.getElem?_eq_none (by omega), List.getElem?_eq_none (by simpa using hi)]

-- Claiming

theorem claim_full (h : Slots v planned owner) (hfull : channelMaxTask ≤ v.available) {a : Nat}
    (ha : channelMaxTask ≤ a) : Slots { v with available := a } planned owner where
  swapping hs := ⟨(h.swapping hs).1, ha⟩
  claimed hs := by
    rw [h.claimed hs, min_eq_right hfull, min_eq_right ha]
  owned := h.owned
  held := h.held
  range := h.range
  loaded := h.loaded
  content := h.content
  written := h.written
  published := h.published
  count := h.count

/-- A thread takes the slots from the index up to `stop`. -/
theorem claim (h : Slots v planned owner) (hw : v.fills w = none) (hlt : v.available < channelMaxTask)
    {stop a : Nat} (hstop : v.available < stop) (hmax : min a channelMaxTask = stop) (content : Content) :
    Slots { v with
        available := a
        fills := Function.update v.fills w (some ⟨v.available, stop, v.available, content, none⟩) }
      (planned ++ List.replicate (stop - v.available) content)
      (fun i => if v.available ≤ i ∧ i < stop then .held w else owner i) := by
  have hs : v.swap = .none := by
    by_contra hs
    exact absurd (h.swapping hs).2 (not_le.mpr hlt)
  have hlen : planned.length = v.available := by rw [h.claimed hs, min_eq_left hlt.le]
  have hother : ∀ {w'}, w' ≠ w → Function.update v.fills w
      (some ⟨v.available, stop, v.available, content, none⟩) w' = v.fills w' :=
    fun hne => Function.update_of_ne hne _ _
  have hbelow : ∀ {w' f i}, v.fills w' = some f → f.start ≤ i → i < f.stop → i < v.available := by
    intro w' f i hf _ hi
    have := h.stop_le hf
    omega
  have hold : ∀ i, i < v.available → (planned ++ List.replicate (stop - v.available) content)[i]? =
      planned[i]? := fun i hi => List.getElem?_append_left (by omega)
  refine ⟨fun hne => absurd hs hne, ?_, ?_, ?_, ?_, ?_, ?_, ?_, ?_, ?_⟩
  · intro _
    rw [List.length_append, List.length_replicate, hlen, hmax]
    omega
  · intro i
    rw [List.length_append, List.length_replicate, hlen]
    have ho := h.owned i
    rw [hlen] at ho
    split
    · next hi =>
      refine ⟨fun _ => by omega, fun _ => nofun⟩
    · next hi =>
      rw [ho]
      omega
  · intro w' i
    by_cases hw' : w' = w
    · subst hw'
      have hnone : owner i ≠ .held w' := by
        intro hheld
        obtain ⟨f, hf, -⟩ := (h.held w' i).mp hheld
        rw [hw] at hf
        cases hf
      simp [hnone]
    · have hheld := h.held w' i
      simp only [hother hw']
      rw [← hheld]
      split
      · next hi =>
        constructor
        · intro he
          exact absurd (Owner.held.inj he).symm hw'
        · intro he
          obtain ⟨f, hf, h₁, h₂⟩ := hheld.mp he
          exact absurd (hbelow hf h₁ h₂) (by omega)
      · rfl
  · intro w' f hf
    rcases update_fills.mp hf with ⟨-, hf⟩ | ⟨-, hf⟩
    · obtain rfl := Option.some.inj hf
      exact ⟨hstop, le_rfl, hstop.le⟩
    · exact h.range w' f hf
  · intro w' f b hf hb
    rcases update_fills.mp hf with ⟨-, hf⟩ | ⟨-, hf⟩
    · obtain rfl := Option.some.inj hf
      cases hb
    · exact h.loaded w' f b hf hb
  · intro w' f i hf h₁ h₂
    rcases update_fills.mp hf with ⟨-, hf⟩ | ⟨-, hf⟩
    · obtain rfl := Option.some.inj hf
      rw [List.getElem?_append_right (by rw [hlen]; exact h₁), hlen]
      simp only at h₁ h₂ ⊢
      rw [List.getElem?_replicate, if_pos (by omega)]
    · rw [hold i (hbelow hf h₁ h₂)]
      exact h.content w' f i hf h₁ h₂
  · intro w' f i hf h₁ h₂
    rcases update_fills.mp hf with ⟨-, hf⟩ | ⟨-, hf⟩
    · obtain rfl := Option.some.inj hf
      exact absurd h₁ (not_le.mpr h₂)
    · exact h.written w' f i hf h₁ h₂
  · intro i hp
    split at hp
    · cases hp
    · have hi : i < v.available := by
        rw [← hlen]
        exact (h.owned i).mp (by rw [hp]; exact nofun)
      rw [hold i hi]
      exact h.published i hp
  · intro hne
    rw [h.count hne]
    congr 1
    apply Finset.filter_congr
    intro i _
    split
    · next hi =>
      have hfree : ¬owner i ≠ .free := by
        rw [h.owned i, hlen]
        omega
      rw [not_not.mp hfree]
      simp
    · rfl

-- Writing and publishing

theorem advance (h : Slots v planned owner) (hf : v.fills w = some f) {f' : Fill}
    {slots : Bool → Nat → Content} (hstart : f'.start = f.start) (hstop : f'.stop = f.stop)
    (hcontent : f'.content = f.content) (hindex : f.start ≤ f'.index ∧ f'.index ≤ f.stop)
    (hloaded : ∀ b, f'.loaded = some b → b = v.buffer)
    (hkeep : ∀ i, owner i ≠ .held w → slots v.buffer i = v.slots v.buffer i)
    (hwritten : ∀ i, f.start ≤ i → i < f'.index → slots v.buffer i = f.content) :
    Slots { v with slots := slots, fills := Function.update v.fills w (some f') } planned owner where
  swapping := h.swapping
  claimed := h.claimed
  owned := h.owned
  held w' i := by
    rw [h.held w' i]
    by_cases hw : w' = w
    · subst hw
      simp [hf, hstart, hstop]
    · simp [hw]
  range w' g hg := by
    rcases update_fills.mp hg with ⟨-, hg⟩ | ⟨-, hg⟩
    · obtain rfl := Option.some.inj hg
      have hr := h.range w f hf
      omega
    · exact h.range w' g hg
  loaded w' g b hg hb := by
    rcases update_fills.mp hg with ⟨-, hg⟩ | ⟨-, hg⟩
    · obtain rfl := Option.some.inj hg
      exact hloaded b hb
    · exact h.loaded w' g b hg hb
  content w' g i hg h₁ h₂ := by
    rcases update_fills.mp hg with ⟨-, hg⟩ | ⟨-, hg⟩
    · obtain rfl := Option.some.inj hg
      rw [hcontent]
      exact h.content w f i hf (hstart ▸ h₁) (hstop ▸ h₂)
    · exact h.content w' g i hg h₁ h₂
  written w' g i hg h₁ h₂ := by
    rcases update_fills.mp hg with ⟨-, hg⟩ | ⟨hne, hg⟩
    · obtain rfl := Option.some.inj hg
      rw [hcontent]
      exact hwritten i (hstart ▸ h₁) h₂
    · have hr := h.range w' g hg
      have hheld : owner i = .held w' := (h.held w' i).mpr ⟨g, hg, h₁, by omega⟩
      have hother : owner i ≠ .held w := by
        rw [hheld]
        exact fun he => hne (Owner.held.inj he)
      rw [← h.written w' g i hg h₁ h₂]
      exact hkeep i hother
  published i hp := by
    rw [h.published i hp, ← hkeep i (by rw [hp]; exact nofun)]
  count := h.count

theorem publish (h : Slots v planned owner) (hf : v.fills w = some f) (hdone : f.stop ≤ f.index) :
    Slots { v with
        count := v.count + (f.stop - f.start)
        fills := Function.update v.fills w none } planned
      (fun i => if f.start ≤ i ∧ i < f.stop then .published else owner i) := by
  have hs := h.swap_eq_none hf
  have hmine : ∀ i, f.start ≤ i ∧ i < f.stop ↔ owner i = .held w := by
    intro i
    rw [h.held w i]
    constructor
    · exact fun hi => ⟨f, hf, hi⟩
    · rintro ⟨g, hg, hi⟩
      rw [hf] at hg
      obtain rfl := Option.some.inj hg
      exact hi
  refine ⟨h.swapping, h.claimed, ?_, ?_, ?_, ?_, ?_, ?_, ?_, ?_⟩
  · intro i
    rw [← h.owned i]
    split
    · next hi =>
      rw [(hmine i).mp hi]
      exact ⟨fun _ => nofun, fun _ => nofun⟩
    · rfl
  · intro w' i
    split
    · next hi =>
      refine ⟨nofun, ?_⟩
      rintro ⟨g, hg, h₁, h₂⟩
      rcases update_fills.mp hg with ⟨-, hg⟩ | ⟨hne, hg⟩
      · cases hg
      · have hheld : owner i = .held w' := (h.held w' i).mpr ⟨g, hg, h₁, h₂⟩
        rw [(hmine i).mp hi] at hheld
        exact absurd (Owner.held.inj hheld).symm hne
    · next hi =>
      rw [h.held w' i]
      constructor
      · rintro ⟨g, hg, h₁, h₂⟩
        refine ⟨g, update_fills.mpr (.inr ⟨?_, hg⟩), h₁, h₂⟩
        rintro rfl
        exact hi ((hmine i).mpr ((h.held w' i).mpr ⟨g, hg, h₁, h₂⟩))
      · rintro ⟨g, hg, h₁, h₂⟩
        rcases update_fills.mp hg with ⟨-, hg⟩ | ⟨-, hg⟩
        · cases hg
        · exact ⟨g, hg, h₁, h₂⟩
  · intro w' g hg
    rcases update_fills.mp hg with ⟨-, hg⟩ | ⟨-, hg⟩
    · cases hg
    · exact h.range w' g hg
  · intro w' g b hg
    rcases update_fills.mp hg with ⟨-, hg⟩ | ⟨-, hg⟩
    · cases hg
    · exact h.loaded w' g b hg
  · intro w' g i hg
    rcases update_fills.mp hg with ⟨-, hg⟩ | ⟨-, hg⟩
    · cases hg
    · exact h.content w' g i hg
  · intro w' g i hg
    rcases update_fills.mp hg with ⟨-, hg⟩ | ⟨-, hg⟩
    · cases hg
    · exact h.written w' g i hg
  · intro i hp
    split at hp
    · next hi =>
      rw [h.content w f i hf hi.1 hi.2]
      exact congrArg some (h.written w f i hf hi.1 (by omega)).symm
    · exact h.published i hp
  · intro hne
    have hstop := (h.stop_le hf).trans h.length_le
    have hsplit : (Finset.range channelMaxTask).filter
        (fun i => (if f.start ≤ i ∧ i < f.stop then Owner.published else owner i) = .published) =
        (Finset.range channelMaxTask).filter (fun i => owner i = .published) ∪
          Finset.Ico f.start f.stop := by
      ext i
      simp only [Finset.mem_filter, Finset.mem_range, Finset.mem_union, Finset.mem_Ico]
      by_cases hi : f.start ≤ i ∧ i < f.stop
      · simp only [hi, and_self, ↓reduceIte, and_true, or_true, iff_true]
        omega
      · simp [hi]
    have hdisj : Disjoint ((Finset.range channelMaxTask).filter (fun i => owner i = .published))
        (Finset.Ico f.start f.stop) := by
      rw [Finset.disjoint_left]
      intro i hp hi
      have hheld := (hmine i).mp (Finset.mem_Ico.mp hi)
      rw [(Finset.mem_filter.mp hp).2] at hheld
      cases hheld
    show v.count + (f.stop - f.start) = _
    rw [hsplit, Finset.card_union_of_disjoint hdisj, Nat.card_Ico, h.count (by rw [hs]; exact nofun)]

-- Swapping the buffers

theorem store (h : Slots v planned owner) (hs : v.swap = .none) (hc : channelMaxTask ≤ v.count) :
    Slots { v with buffer := !v.buffer, swap := .stored } [] fun _ => .free := by
  obtain ⟨hlen, -, hfills⟩ := h.full hs hc
  have hfull : channelMaxTask ≤ v.available := by
    have hmin := h.claimed hs
    rw [hlen] at hmin
    exact hmin ▸ min_le_left _ _
  refine ⟨fun _ => ⟨rfl, hfull⟩, nofun, by simp, ?_, ?_, ?_, ?_, ?_, nofun, fun hne => absurd rfl hne⟩
  · intro w i
    simp [hfills w]
  all_goals
    intro w f
    simp [hfills w]

theorem resetCount (h : Slots v planned owner) (hs : v.swap = .stored) :
    Slots { v with count := 0, swap := .counted } planned owner := by
  obtain ⟨hnil, hfull⟩ := h.swapping (by rw [hs]; exact nofun)
  have hfree : ∀ i, owner i ≠ .published := by
    intro i hp
    have hlt := (h.owned i).mp (by rw [hp]; exact nofun)
    rw [hnil] at hlt
    exact Nat.not_lt_zero _ hlt
  refine ⟨fun _ => ⟨hnil, hfull⟩, nofun, h.owned, h.held, h.range, h.loaded, h.content, h.written,
    h.published, fun _ => ?_⟩
  simp [hfree]

theorem resetAvailable (h : Slots v planned owner) (hs : v.swap = .counted) :
    Slots { v with available := 0, swap := .none } planned owner := by
  obtain ⟨hnil, -⟩ := h.swapping (by rw [hs]; exact nofun)
  refine ⟨fun hne => absurd rfl hne, fun _ => by simp [hnil], h.owned, h.held, h.range, h.loaded,
    h.content, h.written, h.published, fun _ => h.count (by rw [hs]; exact nofun)⟩

end Slots

end Ruda.Device
