import Ruda.Device.Slots

/-!
# The invariant of the channel

What the server has run, what the buffer handed to it still holds and what the
buffer being filled will hold is one sequence, in which the tasks of a client
stand in the order they were enqueued. A step moves the marks within it or, by
a claim, extends it. This module has the steps of the clients.
-/

namespace Ruda.Device

def ServerPc.swap : ServerPc → Swap
  | .storeCount => .stored
  | .storeAvailable => .counted
  | _ => .none

/-- The first slot the server has still to run, when it has a buffer to run. -/
def ServerPc.nextSlot : ServerPc → Nat
  | .execute slot => slot
  | _ => 0

def ServerPc.fill? : ServerPc → Option Fill
  | .flushFill f => some f
  | _ => none

def CloserPc.fill? : CloserPc → Option Fill
  | .fill f => some f
  | _ => none

def ClientPc.fill? : ClientPc → Option Fill
  | .fill _ f => some f
  | _ => none

def ClientPc.call? : ClientPc → Option Call
  | .idle => none
  | .claim call => some call
  | .fill call _ => some call
  | .leave call => some call

/-- The call of a client that is past its claim. -/
def ClientPc.claimed? : ClientPc → Option Call
  | .fill call _ => some call
  | .leave call => some call
  | _ => none

namespace Channel

def fills (s : Channel) : Caller → Option Fill
  | .client c => (s.clients c).fill?
  | .server => s.server.fill?
  | .closer => s.closer.fill?

def view (s : Channel) : View where
  available := s.availableIndex
  count := s.enqueuedCount
  buffer := s.clientBuf
  slots := s.slots
  swap := s.server.swap
  fills := s.fills

/-- What the server has still to run of the buffer handed to it. -/
def remaining (s : Channel) : List Content :=
  if s.readyToExecute then
    ((List.range channelMaxTask).drop s.server.nextSlot).map (s.slots (!s.clientBuf))
  else []

/-- What the server has run or has been handed. -/
def handed (s : Channel) : List Content := s.executed ++ s.remaining

/-- How many tasks of a client have a slot. -/
def claimedCalls (s : Channel) (c : Nat) : Nat :=
  match s.clients c with
  | .claim (.enqueue _) => s.calls c - 1
  | _ => s.calls c

/-- Within a submission. -/
def Inside (s : Channel) : Caller → Prop
  | .client c => s.clients c ≠ .idle
  | .server => s.server = .flushClaim ∨ s.server.fill?.isSome ∨ s.server = .flushLeave
  | .closer => False

end Channel

/-- The tasks of a client, in order. -/
def tasksOf (c : Nat) (l : List Content) : List TaskId := (l.filterMap id).filter fun t => t.client = c

@[simp] theorem tasksOf_append (c : Nat) (l₁ l₂ : List Content) :
    tasksOf c (l₁ ++ l₂) = tasksOf c l₁ ++ tasksOf c l₂ := by
  simp [tasksOf]

theorem tasksOf_noops (c : Nat) {l : List Content} (h : ∀ x ∈ l, x = none) : tasksOf c l = [] := by
  have hnil : l.filterMap id = [] := by
    rw [List.filterMap_eq_nil_iff]
    exact h
  rw [tasksOf, hnil, List.filter_nil]

theorem tasksOf_task (c : Nat) (t : TaskId) : tasksOf c [some t] = if t.client = c then [t] else [] := by
  by_cases h : t.client = c
  · simp [tasksOf, h]
  · simp [tasksOf, h]

theorem mem_tasksOf {t : TaskId} {l : List Content} : t ∈ tasksOf t.client l ↔ some t ∈ l := by
  simp [tasksOf]

section
variable {s s' : Channel} {planned planned' : List Content} {inside : Finset Caller}

/-- Where the server may be with a buffer to run, and without. -/
def ServerPc.MayHold : ServerPc → Bool → Prop
  | .top, _ => True
  | .execute slot, ready => ready = true ∧ slot ≤ channelMaxTask
  | .storeCount, ready => ready = true
  | .storeAvailable, ready => ready = true
  | _, ready => ready = false

structure Serving (s : Channel) (planned : List Content) : Prop where
  ptr : s.queuePtr = s.clientBuf
  ready : s.server.MayHold s.readyToExecute
  full : s.server = .storePtr → channelMaxTask ≤ s.enqueuedCount
  sawStopping : s.server = .loadCount true → s.stopping = true
  exited : s.server = .exited → s.stopping = true ∧ planned = []

theorem Serving.frame (h : Serving s planned) (hptr : s'.queuePtr = s.queuePtr)
    (hbuf : s'.clientBuf = s.clientBuf) (hready : s'.readyToExecute = s.readyToExecute)
    (hserver : s'.server = s.server) (hcount : s.enqueuedCount ≤ s'.enqueuedCount)
    (hstop : s.stopping = true → s'.stopping = true)
    (hplanned : s.server = .exited → planned = [] → planned' = []) : Serving s' planned' where
  ptr := by rw [hptr, hbuf, h.ptr]
  ready := by rw [hserver, hready]; exact h.ready
  full he := (h.full (hserver ▸ he)).trans hcount
  sawStopping he := hstop (h.sawStopping (hserver ▸ he))
  exited he :=
    have hx := h.exited (hserver ▸ he)
    ⟨hstop hx.1, hplanned (hserver ▸ he) hx.2⟩

structure Ordered (s : Channel) (planned : List Content) : Prop where
  order : ∀ c, tasksOf c (s.handed ++ planned) = (List.range (s.claimedCalls c)).map (TaskId.mk c)
  call : ∀ c t, (s.clients c).call? = some (.enqueue t) → t.client = c ∧ t.number + 1 = s.calls c
  accepted : ∀ t ∈ s.accepted, t.number < s.claimedCalls t.client
  before : ∀ c l, (s.clients c).call? = some (.flush l) → ∀ t ∈ l, t.number < s.claimedCalls t.client
  flushed : ∀ c l, (s.clients c).claimed? = some (.flush l) →
    ∀ t ∈ l, some t ∈ s.handed ∨ channelMaxTask ≤ s.availableIndex

namespace Ordered

theorem mem (h : Ordered s planned) {t : TaskId} (ht : t.number < s.claimedCalls t.client) :
    some t ∈ s.handed ++ planned := by
  rw [← mem_tasksOf, h.order]
  exact List.mem_map.mpr ⟨t.number, List.mem_range.mpr ht, rfl⟩

theorem frame (h : Ordered s planned) (hcalls : s'.calls = s.calls) (haccepted : s'.accepted = s.accepted)
    (hclaimed : s'.claimedCalls = s.claimedCalls)
    (hcall : ∀ c k, (s'.clients c).call? = some k → (s.clients c).call? = some k)
    (hpast : ∀ c k, (s'.clients c).claimed? = some k → (s.clients c).claimed? = some k ∨
      channelMaxTask ≤ s'.availableIndex)
    (htasks : ∀ c, tasksOf c (s'.handed ++ planned') = tasksOf c (s.handed ++ planned))
    (hflush : ∀ t, some t ∈ s.handed ++ planned →
      some t ∈ s.handed ∨ channelMaxTask ≤ s.availableIndex →
      some t ∈ s'.handed ∨ channelMaxTask ≤ s'.availableIndex) : Ordered s' planned' where
  order c := by rw [htasks, hclaimed, h.order]
  call c t hk := by rw [hcalls]; exact h.call c t (hcall c _ hk)
  accepted t ht := by rw [hclaimed]; exact h.accepted t (haccepted ▸ ht)
  before c l hk := by rw [hclaimed]; exact h.before c l (hcall c _ hk)
  flushed c l hk t ht := by
    rcases hpast c _ hk with hold | hfull
    · have hcalled : (s.clients c).call? = some (.flush l) := by
        cases hc : s.clients c <;> rw [hc] at hold <;> simp [ClientPc.claimed?] at hold <;>
          simp [ClientPc.call?, hold]
      exact hflush t (h.mem (h.before c l hcalled t ht)) (h.flushed c l hold t ht)
    · exact .inr hfull

end Ordered

/-- From the point where `shutdown` has seen the last submission leave. -/
def CloserPc.Quiet : CloserPc → Prop
  | .running => False
  | .await => False
  | _ => True

/-- From the point where `shutdown` has filled the last buffer. -/
def CloserPc.Filled : CloserPc → Prop
  | .setStopping => True
  | .join => True
  | .done => True
  | _ => False

theorem CloserPc.Filled.quiet {pc : CloserPc} (h : pc.Filled) : pc.Quiet := by
  cases pc <;> trivial

theorem CloserPc.quiet_of_fill {pc : CloserPc} {f : Fill} (h : pc = .fill f) : pc.Quiet := by
  rw [h]
  trivial

structure Closing (s : Channel) (planned : List Content) (inside : Finset Caller) : Prop where
  members : ∀ w, w ∈ inside ↔ s.Inside w
  submissions : s.submissions = inside.card
  closed : s.closer ≠ .running → s.closed = true
  quiet : s.closer.Quiet → inside = ∅
  filling : ∀ f, s.closer = .fill f → planned.length = channelMaxTask
  filled : s.closer.Filled → planned = [] ∨ planned.length = channelMaxTask
  stopping : s.stopping = true → s.closer = .join ∨ s.closer = .done
  done : s.closer = .done → s.server = .exited

namespace Closing

theorem not_inside (h : Closing s planned inside) (hq : s.closer.Quiet) (w : Caller) : ¬s.Inside w := by
  rw [← h.members, h.quiet hq]
  simp

theorem no_fill (h : Closing s planned inside) (hf : s.closer.Filled) (w : Caller) : s.fills w = none := by
  cases w with
  | client c =>
    have hidle := h.not_inside hf.quiet (.client c)
    simp only [Channel.Inside, ne_eq, not_not] at hidle
    simp [Channel.fills, hidle, ClientPc.fill?]
  | server =>
    have hout := h.not_inside hf.quiet .server
    simp only [Channel.Inside, not_or] at hout
    simpa [Channel.fills] using hout.2.1
  | closer => cases hc : s.closer <;> rw [hc] at hf <;> simp [CloserPc.Filled] at hf <;>
      simp [Channel.fills, hc, CloserPc.fill?]

end Closing

-- Claims and writes of any thread

variable {owner : Nat → Owner} {w : Caller}

/-- `available_index` does not wrap at the next step. -/
def Channel.IndexLeft (s : Channel) : Prop := s.availableIndex + channelMaxTask ≤ u32Max

theorem claimRest_slots (h : Slots s.view planned owner) (hw : s.fills w = none) (hleft : s.IndexLeft) :
    ∃ more owner', s.claimRest.2 = { s with availableIndex := s.availableIndex + channelMaxTask } ∧
      Slots { s.view with
          available := s.availableIndex + channelMaxTask
          fills := Function.update s.fills w s.claimRest.1 } (planned ++ more) owner' ∧
      (∀ x ∈ more, x = none) ∧
      (planned ++ more = [] ∨ (planned ++ more).length = channelMaxTask) := by
  have hstate : s.claimRest.2 = { s with availableIndex := s.availableIndex + channelMaxTask } := by
    rw [Channel.claimRest, Channel.fetchAdd, wrap32_of_le hleft]
  by_cases hfull : channelMaxTask ≤ s.availableIndex
  · have hnone : s.claimRest.1 = none := if_pos hfull
    have hsame : Function.update s.fills w none = s.fills := by
      rw [← hw, Function.update_eq_self]
    refine ⟨[], owner, hstate, ?_, nofun, ?_⟩
    · rw [hnone, hsame, List.append_nil]
      exact h.claim_full hfull (Nat.le_add_left _ _)
    · rw [List.append_nil]
      by_cases hs : s.view.swap = .none
      · exact .inr ((h.claimed hs).trans (min_eq_right hfull))
      · exact .inl (h.swapping hs).1
  · have hlt := not_le.mp hfull
    have hsome : s.claimRest.1 = some ⟨s.availableIndex, channelMaxTask, s.availableIndex, none, none⟩ :=
      if_neg hfull
    have hmin : min (s.availableIndex + channelMaxTask) channelMaxTask = channelMaxTask :=
      min_eq_right (Nat.le_add_left _ _)
    have hslots := h.claim hw hlt hlt hmin none
    refine ⟨_, _, hstate, by rw [hsome]; exact hslots, fun x hx => List.eq_of_mem_replicate hx, .inr ?_⟩
    have hs : s.view.swap = .none := by
      by_contra hs
      exact hfull (h.swapping hs).2
    have hlen := hslots.claimed hs
    exact hlen.trans hmin

theorem claimOne_slots (h : Slots s.view planned owner) (hw : s.fills w = none) (hleft : s.IndexLeft)
    (content : Content) :
    ∃ more owner', (s.claimOne content).2 = { s with availableIndex := s.availableIndex + 1 } ∧
      Slots { s.view with
          available := s.availableIndex + 1
          fills := Function.update s.fills w (s.claimOne content).1 } (planned ++ more) owner' ∧
      ((s.claimOne content).1 = none ∧ more = [] ∨
        ∃ f, (s.claimOne content).1 = some f ∧ more = [content]) := by
  have hle : s.availableIndex + 1 ≤ u32Max := by
    unfold Channel.IndexLeft channelMaxTask at hleft
    omega
  have hstate : (s.claimOne content).2 = { s with availableIndex := s.availableIndex + 1 } := by
    rw [Channel.claimOne, Channel.fetchAdd, wrap32_of_le hle]
  by_cases hfull : channelMaxTask ≤ s.availableIndex
  · have hnone : (s.claimOne content).1 = none := if_pos hfull
    have hsame : Function.update s.fills w none = s.fills := by
      rw [← hw, Function.update_eq_self]
    refine ⟨[], owner, hstate, ?_, .inl ⟨hnone, rfl⟩⟩
    rw [hnone, hsame, List.append_nil]
    exact h.claim_full hfull (hfull.trans (Nat.le_succ _))
  · have hlt := not_le.mp hfull
    have hsome : (s.claimOne content).1 =
        some ⟨s.availableIndex, s.availableIndex + 1, s.availableIndex, content, none⟩ := if_neg hfull
    have hslots := h.claim hw hlt (Nat.lt_succ_self _) (min_eq_left hlt) content
    have hone : s.view.available.succ - s.view.available = 1 := by omega
    rw [hone] at hslots
    exact ⟨_, _, hstate, by rw [hsome]; exact hslots, .inr ⟨_, hsome, rfl⟩⟩

theorem fillStep_slots (h : Slots s.view planned owner) {f : Fill} (hf : s.fills w = some f)
    (hptr : s.queuePtr = s.clientBuf) :
    ∃ slots count owner', (s.fillStep f).2 = { s with slots := slots, enqueuedCount := count } ∧
      slots (!s.clientBuf) = s.slots (!s.clientBuf) ∧ s.enqueuedCount ≤ count ∧
      Slots { s.view with
          slots := slots
          count := count
          fills := Function.update s.fills w (s.fillStep f).1 } planned owner' ∧
      ((s.fillStep f).1 = none → planned.length = channelMaxTask ∨ f.stop < channelMaxTask) := by
  have hr := h.range w f hf
  by_cases hlt : f.index < f.stop
  · cases hl : f.loaded with
    | none =>
      have hstep : s.fillStep f = (some { f with loaded := some s.queuePtr }, s) := by
        rw [Channel.fillStep, if_pos hlt, hl]
      rw [hstep]
      refine ⟨s.slots, s.enqueuedCount, owner, rfl, rfl, le_rfl, ?_, nofun⟩
      refine h.advance hf rfl rfl rfl ⟨hr.2.1, hr.2.2⟩ ?_ (fun i _ => rfl) (h.written w f · hf)
      intro b hb
      rw [← Option.some.inj hb, hptr]
      rfl
    | some b =>
      have hb : b = s.clientBuf := h.loaded w f b hf hl
      subst hb
      let written := Function.update (s.slots s.clientBuf) f.index f.content
      let slots := Function.update s.slots s.clientBuf written
      have hstep : s.fillStep f = (some { f with index := f.index + 1, loaded := none },
          { s with slots := slots }) := by
        rw [Channel.fillStep, if_pos hlt, hl]
      have hmine : owner f.index = .held w := (h.held w _).mpr ⟨f, hf, hr.2.1, hlt⟩
      have hkeep : ∀ i, i ≠ f.index → slots s.clientBuf i = s.slots s.clientBuf i := by
        intro i hi
        simp [slots, written, Function.update_of_ne hi]
      rw [hstep]
      refine ⟨slots, s.enqueuedCount, owner, rfl, ?_, le_rfl, ?_, nofun⟩
      · exact Function.update_of_ne (by cases s.clientBuf <;> decide) _ _
      · refine h.advance hf rfl rfl rfl ⟨Nat.le_succ_of_le hr.2.1, hlt⟩ nofun ?_ ?_
        · intro i hi
          exact hkeep i fun he => hi (he ▸ hmine)
        · intro i h₁ h₂
          by_cases hi : i = f.index
          · subst hi
            simp [slots, written, Channel.view]
          · exact (hkeep i hi).trans (h.written w f i hf h₁ (lt_of_le_of_ne (Nat.le_of_lt_succ h₂) hi))
  · have hpub := h.publish hf (not_lt.mp hlt)
    have hs := h.swap_eq_none hf
    have hle : s.enqueuedCount + (f.stop - f.start) ≤ u32Max := by
      have hcount := hpub.count (by show s.view.swap ≠ _; rw [hs]; exact nofun)
      have hcard := Finset.card_filter_le (Finset.range channelMaxTask)
        fun i => (if f.start ≤ i ∧ i < f.stop then Owner.published else owner i) = .published
      rw [← hcount, Finset.card_range] at hcard
      exact hcard.trans (by decide)
    have hstep : s.fillStep f = (none, { s with enqueuedCount := s.enqueuedCount + (f.stop - f.start) }) := by
      rw [Channel.fillStep, if_neg hlt, wrap32_of_le hle]
    rw [hstep]
    refine ⟨s.slots, _, _, rfl, rfl, Nat.le_add_right _ _, hpub, fun _ => ?_⟩
    have hstop := h.stop_le hf
    have hlen := h.length_le
    omega

-- The invariant

structure Inv (s : Channel) (planned : List Content) (owner : Nat → Owner) (inside : Finset Caller) :
    Prop where
  slots : Slots s.view planned owner
  serving : Serving s planned
  ordered : Ordered s planned
  closing : Closing s planned inside

/-- Some plan for the claimed slots fits the state. -/
def Good (s : Channel) : Prop := ∃ planned owner inside, Inv s planned owner inside

theorem fills_setClient (s : Channel) (c : Nat) (pc : ClientPc) :
    (s.setClient c pc).fills = Function.update s.fills (.client c) pc.fill? := by
  funext w
  cases w with
  | client c' =>
    by_cases hc : c' = c
    · subst hc
      simp [Channel.fills, Channel.setClient]
    · have hne : Caller.client c' ≠ Caller.client c := fun he => hc (Caller.client.inj he)
      rw [Function.update_of_ne hne]
      simp [Channel.fills, Channel.setClient, hc]
  | server => rfl
  | closer => rfl

theorem fills_server (s : Channel) (pc : ServerPc) :
    { s with server := pc }.fills = Function.update s.fills .server pc.fill? := by
  funext w
  cases w <;> rfl

theorem fills_closer (s : Channel) (pc : CloserPc) :
    { s with closer := pc }.fills = Function.update s.fills .closer pc.fill? := by
  funext w
  cases w <;> rfl

theorem members_client {c : Nat} {pc : ClientPc} (h : ∀ w, w ∈ inside ↔ s.Inside w)
    (hin : s.clients c ≠ .idle) (hpc : pc ≠ .idle) (hclients : s'.clients = Function.update s.clients c pc)
    (hserver : s'.server = s.server) (w : Caller) : w ∈ inside ↔ s'.Inside w := by
  rw [h w]
  cases w with
  | client c' =>
    by_cases hc : c' = c
    · subst hc
      simp [Channel.Inside, hclients, hin, hpc]
    · simp [Channel.Inside, hclients, hc]
  | server => simp [Channel.Inside, hserver]
  | closer => rfl

theorem call_update {c : Nat} {pc : ClientPc} {call : Call} (hold : (s.clients c).call? = some call)
    (hpc : pc.call? = some call) (hclients : s'.clients = Function.update s.clients c pc) (c' : Nat)
    (k : Call) (hk : (s'.clients c').call? = some k) : (s.clients c').call? = some k := by
  rw [hclients] at hk
  by_cases hc : c' = c
  · subst hc
    rw [Function.update_self, hpc] at hk
    rw [hold, hk]
  · rwa [Function.update_of_ne hc] at hk

theorem handed_congr (hexec : s'.executed = s.executed) (hready : s'.readyToExecute = s.readyToExecute)
    (hserver : s'.server = s.server) (hbuf : s'.clientBuf = s.clientBuf)
    (hslots : s'.slots (!s.clientBuf) = s.slots (!s.clientBuf)) : s'.handed = s.handed := by
  simp [Channel.handed, Channel.remaining, hexec, hready, hserver, hbuf, hslots]

theorem Inv.open (h : Inv s planned owner inside) {c : Nat} (hc : s.clients c ≠ .idle) :
    ¬s.closer.Quiet ∧ s.server ≠ .exited := by
  have hnq : ¬s.closer.Quiet := fun hq => h.closing.not_inside hq (.client c) hc
  refine ⟨hnq, fun hx => ?_⟩
  rcases h.closing.stopping (h.serving.exited hx).1 with hj | hj <;> rw [hj] at hnq <;> exact hnq trivial

theorem Inv.client_step {c : Nat} {pc : ClientPc} {slots : Bool → Nat → Content}
    {count available : Nat} {owner' : Nat → Owner} (h : Inv s planned owner inside)
    (hidle : s.clients c ≠ .idle) (hpc : pc ≠ .idle) (hcount : s.enqueuedCount ≤ count)
    (hslots : Slots { s.view with
      available := available
      slots := slots
      count := count
      fills := Function.update s.fills (.client c) pc.fill? } planned' owner')
    (hordered : Ordered
      ({ s with availableIndex := available, slots := slots, enqueuedCount := count }.setClient c pc)
      planned') :
    Inv ({ s with availableIndex := available, slots := slots, enqueuedCount := count }.setClient c pc)
      planned' owner' inside := by
  obtain ⟨hnq, hrunning⟩ := h.open hidle
  refine ⟨?_, ?_, hordered, ?_⟩
  · have hview : ({ s with availableIndex := available, slots := slots, enqueuedCount := count }.setClient
        c pc).view = { s.view with
          available := available
          slots := slots
          count := count
          fills := Function.update s.fills (.client c) pc.fill? } := by
      rw [Channel.view, fills_setClient]
      rfl
    rw [hview]
    exact hslots
  · exact h.serving.frame rfl rfl rfl rfl hcount (fun he => he) fun hx => absurd hx hrunning
  · exact ⟨members_client h.closing.members hidle hpc rfl rfl, h.closing.submissions, h.closing.closed,
      h.closing.quiet, fun f hf => absurd (CloserPc.quiet_of_fill hf) hnq,
      fun hf => absurd hf.quiet hnq, h.closing.stopping, h.closing.done⟩

theorem ne_idle_of_call {pc : ClientPc} {call : Call} (h : pc.call? = some call) : pc ≠ .idle := by
  rintro rfl
  cases h

theorem call_of_claimed {pc : ClientPc} {call : Call} (h : pc.claimed? = some call) :
    pc.call? = some call := by
  cases pc <;> simp [ClientPc.claimed?] at h <;> simp [ClientPc.call?, h]

theorem Ordered.client_within {c : Nat} {pc : ClientPc} {call : Call} {available : Nat}
    (h : Ordered s planned) (slots : Bool → Nat → Content) (count : Nat) (more : List Content)
    (hold : (s.clients c).call? = some call) (hpc : pc.claimed? = some call)
    (hold' : ∀ t, s.clients c ≠ .claim (.enqueue t))
    (hpast : (s.clients c).claimed? = some call ∨ channelMaxTask ≤ available)
    (havail : s.availableIndex ≤ available) (hother : slots (!s.clientBuf) = s.slots (!s.clientBuf))
    (hmore : ∀ x ∈ more, x = none) :
    Ordered ({ s with availableIndex := available, slots := slots, enqueuedCount := count }.setClient c pc)
      (planned ++ more) := by
  have hhanded : ({ s with availableIndex := available, slots := slots, enqueuedCount := count }.setClient
      c pc).handed = s.handed := handed_congr rfl rfl rfl rfl hother
  have hclaimed : ∀ t, pc ≠ .claim (.enqueue t) := by
    rintro t rfl
    cases hpc
  refine h.frame rfl rfl ?_ (call_update hold (call_of_claimed hpc) rfl) ?_ ?_ ?_
  · funext c'
    by_cases hc : c' = c
    · subst hc
      simp [Channel.claimedCalls, Channel.setClient]
    · simp [Channel.claimedCalls, Channel.setClient, hc]
  · intro c' k hk
    by_cases hc : c' = c
    · subst hc
      rcases hpast with hp | hp
      · left
        simp only [Channel.setClient, Function.update_self] at hk
        rw [hp, ← hk, hpc]
      · exact .inr hp
    · left
      simpa [Channel.setClient, hc] using hk
  · intro c'
    rw [hhanded, ← List.append_assoc, tasksOf_append c' _ more, tasksOf_noops c' hmore, List.append_nil]
  · intro t _ ht
    rw [hhanded]
    exact ht.imp_right fun hle => hle.trans havail

theorem Inv.client_fill {c : Nat} {call : Call} {f : Fill} (h : Inv s planned owner inside)
    (hc : s.clients c = .fill call f) : ∀ s', s.clientStep c = some s' → Good s' := by
  intro s' hs'
  have hf : s.fills (.client c) = some f := by simp [Channel.fills, hc, ClientPc.fill?]
  have hcall : (s.clients c).claimed? = some call := by rw [hc]; rfl
  have hnotclaim : ∀ t, s.clients c ≠ .claim (.enqueue t) := by rw [hc]; exact nofun
  obtain ⟨slots, count, owner', hstate, hother, hcount, hslots, -⟩ :=
    fillStep_slots h.slots hf h.serving.ptr
  have hnext : ∀ pc : ClientPc, pc.claimed? = some call → pc.fill? = (s.fillStep f).1 →
      Good ((s.fillStep f).2.setClient c pc) := by
    intro pc hpc hfill
    rw [hstate]
    rw [← hfill] at hslots
    have hordered := h.ordered.client_within slots count [] (call_of_claimed hcall) hpc hnotclaim
      (.inl hcall) le_rfl hother nofun
    rw [List.append_nil] at hordered
    exact ⟨_, _, _, h.client_step (ne_idle_of_call (call_of_claimed hcall))
      (ne_idle_of_call (call_of_claimed hpc)) hcount hslots hordered⟩
  simp only [Channel.clientStep, hc] at hs'
  split at hs'
  · next f' s₁ he =>
    obtain rfl := Option.some.inj hs'
    have hgood := hnext (.fill call f') rfl (by rw [he]; rfl)
    rwa [he] at hgood
  · next s₁ he =>
    obtain rfl := Option.some.inj hs'
    have hgood := hnext (.leave call) rfl (by rw [he]; rfl)
    rwa [he] at hgood

theorem Inv.client_flush {c : Nat} {l : List TaskId} (h : Inv s planned owner inside)
    (hc : s.clients c = .claim (.flush l)) (hleft : s.IndexLeft) :
    ∀ s', s.clientStep c = some s' → Good s' := by
  intro s' hs'
  have hf : s.fills (.client c) = none := by simp [Channel.fills, hc, ClientPc.fill?]
  have hcall : (s.clients c).call? = some (.flush l) := by rw [hc]; rfl
  have hnotclaim : ∀ t, s.clients c ≠ .claim (.enqueue t) := by rw [hc]; exact nofun
  obtain ⟨more, owner', hstate, hslots, hmore, -⟩ := claimRest_slots h.slots hf hleft
  have hnext : ∀ pc : ClientPc, pc.claimed? = some (.flush l) → pc.fill? = s.claimRest.1 →
      Good (s.claimRest.2.setClient c pc) := by
    intro pc hpc hfill
    rw [hstate]
    rw [← hfill] at hslots
    have hordered := h.ordered.client_within s.slots s.enqueuedCount more hcall hpc hnotclaim
      (.inr (Nat.le_add_left _ s.availableIndex)) (Nat.le_add_right _ _) rfl hmore
    exact ⟨_, _, _, h.client_step (ne_idle_of_call hcall) (ne_idle_of_call (call_of_claimed hpc)) le_rfl
      hslots hordered⟩
  simp only [Channel.clientStep, hc] at hs'
  split at hs'
  · next s₁ he =>
    obtain rfl := Option.some.inj hs'
    have hgood := hnext (.leave (.flush l)) rfl (by rw [he]; rfl)
    rwa [he] at hgood
  · next f' s₁ he =>
    obtain rfl := Option.some.inj hs'
    have hgood := hnext (.fill (.flush l) f') rfl (by rw [he]; rfl)
    rwa [he] at hgood

theorem Inv.retry {c : Nat} {available : Nat} {owner' : Nat → Owner} (h : Inv s planned owner inside)
    (hidle : s.clients c ≠ .idle) (havail : s.availableIndex ≤ available)
    (hslots : Slots { s.view with available := available } planned owner') :
    Inv { s with availableIndex := available } planned owner' inside := by
  have hself : { s with availableIndex := available } =
      { s with availableIndex := available }.setClient c (s.clients c) := by
    simp [Channel.setClient]
  have hview : { s.view with available := available } = { s.view with
      available := available
      fills := Function.update s.fills (.client c) (s.clients c).fill? } := by
    have hfills : Function.update s.fills (.client c) (s.clients c).fill? = s.fills :=
      Function.update_eq_self _ _
    rw [hfills]
    rfl
  have hordered : Ordered { s with availableIndex := available } planned :=
    h.ordered.frame rfl rfl rfl (fun _ _ hk => hk) (fun _ _ hk => .inl hk) (fun _ => rfl)
      fun t _ ht => ht.imp_right fun hle => hle.trans havail
  rw [hself] at hordered ⊢
  rw [hview] at hslots
  exact h.client_step hidle hidle le_rfl hslots hordered

theorem Ordered.claim {c : Nat} {t : TaskId} {f : Fill} {available : Nat} (h : Ordered s planned)
    (hc : s.clients c = .claim (.enqueue t)) (havail : s.availableIndex ≤ available) :
    Ordered ({ s with availableIndex := available }.setClient c (.fill (.enqueue t) f))
      (planned ++ [some t]) := by
  have hcall : (s.clients c).call? = some (.enqueue t) := by rw [hc]; rfl
  obtain ⟨htc, htn⟩ := h.call c t hcall
  have hclaimed : ∀ c', ({ s with availableIndex := available }.setClient c
      (.fill (.enqueue t) f)).claimedCalls c' = s.claimedCalls c' + if c' = c then 1 else 0 := by
    intro c'
    by_cases hc' : c' = c
    · subst hc'
      simp [Channel.claimedCalls, Channel.setClient, hc]
      omega
    · simp [Channel.claimedCalls, Channel.setClient, hc']
  have hmono : ∀ c', s.claimedCalls c' ≤ ({ s with availableIndex := available }.setClient c
      (.fill (.enqueue t) f)).claimedCalls c' := fun c' => by rw [hclaimed]; exact Nat.le_add_right _ _
  have hkeep : ∀ c' k, (({ s with availableIndex := available }.setClient c
      (.fill (.enqueue t) f)).clients c').call? = some k → (s.clients c').call? = some k :=
    call_update hcall rfl rfl
  refine ⟨?_, ?_, ?_, ?_, ?_⟩
  · intro c'
    have hhanded : ({ s with availableIndex := available }.setClient c
      (.fill (.enqueue t) f)).handed = s.handed := rfl
    rw [hhanded, ← List.append_assoc, tasksOf_append, h.order c', hclaimed]
    by_cases hc' : c' = c
    · subst hc'
      have hnum : s.claimedCalls c' = t.number := by
        simp only [Channel.claimedCalls, hc]
        omega
      have ht : t = ⟨c', t.number⟩ := by
        rw [← htc]
      rw [if_pos rfl, List.range_succ, List.map_append, hnum]
      rw [tasksOf_task, if_pos htc, List.map_singleton, ← ht]
    · have hne : ¬t.client = c' := fun he => hc' (he ▸ htc)
      rw [tasksOf_task, if_neg hne, if_neg hc', List.append_nil, Nat.add_zero]
  · intro c' t' hk
    exact h.call c' t' (hkeep c' _ hk)
  · intro t' ht'
    exact (h.accepted t' ht').trans_le (hmono _)
  · intro c' l hk t' ht'
    exact (h.before c' l (hkeep c' _ hk) t' ht').trans_le (hmono _)
  · intro c' l hk t' ht'
    by_cases hc' : c' = c
    · subst hc'
      simp [Channel.setClient, ClientPc.claimed?] at hk
    · have hk' : (s.clients c').claimed? = some (.flush l) := by
        simpa [Channel.setClient, hc'] using hk
      exact (h.flushed c' l hk' t' ht').imp_right fun hle => hle.trans havail

theorem Inv.client_enqueue {c : Nat} {t : TaskId} (h : Inv s planned owner inside)
    (hc : s.clients c = .claim (.enqueue t)) (hleft : s.IndexLeft) :
    ∀ s', s.clientStep c = some s' → Good s' := by
  intro s' hs'
  have hf : s.fills (.client c) = none := by simp [Channel.fills, hc, ClientPc.fill?]
  have hidle : s.clients c ≠ .idle := by rw [hc]; exact nofun
  obtain ⟨more, owner', hstate, hslots, hcase⟩ := claimOne_slots h.slots hf hleft (some t)
  simp only [Channel.clientStep, hc] at hs'
  rcases hcase with ⟨hnone, rfl⟩ | ⟨f, hsome, rfl⟩
  · have he : s.claimOne (some t) = (none, { s with availableIndex := s.availableIndex + 1 }) :=
      Prod.ext hnone hstate
    rw [he] at hs'
    obtain rfl := Option.some.inj hs'
    rw [hnone, List.append_nil, ← hf, Function.update_eq_self] at hslots
    exact ⟨_, _, _, h.retry hidle (Nat.le_succ _) hslots⟩
  · have he : s.claimOne (some t) = (some f, { s with availableIndex := s.availableIndex + 1 }) :=
      Prod.ext hsome hstate
    rw [he] at hs'
    obtain rfl := Option.some.inj hs'
    rw [hsome] at hslots
    exact ⟨_, _, _, h.client_step hidle nofun le_rfl hslots
      (h.ordered.claim hc (Nat.le_succ _))⟩

-- Entering and leaving a submission

theorem view_client {c : Nat} {pc : ClientPc} (hfill : pc.fill? = s.fills (.client c)) :
    (s.setClient c pc).view = s.view := by
  rw [Channel.view, fills_setClient, hfill, Function.update_eq_self]
  rfl

theorem Ordered.visit {c : Nat} {pc : ClientPc} (h : Ordered s planned)
    (hclients : s'.clients = Function.update s.clients c pc) (hhanded : s'.handed = s.handed)
    (havail : s'.availableIndex = s.availableIndex) (hclaimed : s'.claimedCalls = s.claimedCalls)
    (hcalls : ∀ c', c' ≠ c → s'.calls c' = s.calls c')
    (hmine : ∀ t, pc.call? = some (.enqueue t) → t.client = c ∧ t.number + 1 = s'.calls c)
    (hbefore : ∀ l, pc.call? = some (.flush l) → ∀ t ∈ l, t.number < s.claimedCalls t.client)
    (hout : pc.claimed? = none)
    (haccepted : ∀ t ∈ s'.accepted, t.number < s.claimedCalls t.client) : Ordered s' planned where
  order c' := by rw [hhanded, hclaimed, h.order]
  call c' t hk := by
    rw [hclients] at hk
    by_cases hc : c' = c
    · subst hc
      rw [Function.update_self] at hk
      exact hmine t hk
    · rw [Function.update_of_ne hc] at hk
      rw [hcalls c' hc]
      exact h.call c' t hk
  accepted t ht := by rw [hclaimed]; exact haccepted t ht
  before c' l hk := by
    rw [hclients] at hk
    rw [hclaimed]
    by_cases hc : c' = c
    · subst hc
      rw [Function.update_self] at hk
      exact hbefore l hk
    · rw [Function.update_of_ne hc] at hk
      exact h.before c' l hk
  flushed c' l hk := by
    rw [hclients] at hk
    by_cases hc : c' = c
    · subst hc
      rw [Function.update_self, hout] at hk
      cases hk
    · rw [Function.update_of_ne hc] at hk
      rw [hhanded, havail]
      exact h.flushed c' l hk

theorem Inv.begin {c : Nat} {request : Channel.Request} (h : Inv s planned owner inside) :
    ∀ s', s.begin c request = some s' → Good s' := by
  intro s' hs'
  unfold Channel.begin at hs'
  split at hs'
  case h_2 => cases hs'
  next hidle =>
  by_cases hclosed : s.closed = true
  · rw [if_pos hclosed] at hs'
    obtain rfl := Option.some.inj hs'
    exact ⟨_, _, _, h⟩
  rw [if_neg hclosed] at hs'
  have hrunning : s.closer = .running := by
    by_contra hr
    exact hclosed (h.closing.closed hr)
  have hnew : Caller.client c ∉ inside := by
    rw [h.closing.members]
    exact not_not.mpr hidle
  have hmembers : ∀ (s' : Channel) (call : Call), s'.clients = Function.update s.clients c (.claim call) →
      s'.server = s.server → ∀ w, w ∈ insert (Caller.client c) inside ↔ s'.Inside w := by
    intro s' call hclients hserver w
    rw [Finset.mem_insert, h.closing.members]
    cases w with
    | client c' =>
      by_cases hc : c' = c
      · simp [Channel.Inside, hclients, hc]
      · simp [Channel.Inside, hclients, hc]
    | server => simp [Channel.Inside, hserver]
    | closer => simp [Channel.Inside]
  obtain rfl := Option.some.inj hs'
  refine ⟨planned, owner, insert (Caller.client c) inside, ?_, ?_, ?_, ?_⟩
  · have hnone : ∀ call, (ClientPc.claim call).fill? = s.fills (.client c) := by
      intro call
      simp [Channel.fills, hidle, ClientPc.fill?]
    have hslots := h.slots
    rw [← view_client (hnone _)] at hslots
    exact hslots
  · exact h.serving.frame rfl rfl rfl rfl le_rfl (fun he => he) fun _ he => he
  · refine h.ordered.visit rfl rfl rfl ?_ ?_ ?_ ?_ rfl h.ordered.accepted
    · funext c'
      by_cases hc : c' = c
      · subst hc
        cases request <;> simp [Channel.claimedCalls, hidle]
      · cases request <;> simp [Channel.claimedCalls, hc]
    · intro c' hc
      cases request with
      | enqueue => exact Function.update_of_ne hc _ _
      | flush => rfl
    · intro t ht
      cases request with
      | enqueue =>
        obtain rfl := Call.enqueue.inj (Option.some.inj ht)
        exact ⟨rfl, by simp⟩
      | flush => cases ht
    · intro l hl
      cases request with
      | enqueue => cases hl
      | flush =>
        obtain rfl := Call.flush.inj (Option.some.inj hl)
        exact h.ordered.accepted
  · have hnq : ¬s.closer.Quiet := by rw [hrunning]; exact fun hq => hq
    refine ⟨hmembers _ _ rfl rfl, ?_, h.closing.closed, fun hq => absurd hq hnq,
      fun f hf => absurd (CloserPc.quiet_of_fill hf) hnq, fun hf => absurd hf.quiet hnq,
      h.closing.stopping, h.closing.done⟩
    rw [Finset.card_insert_of_notMem hnew, ← h.closing.submissions]

theorem Inv.client_leave {c : Nat} {call : Call} (h : Inv s planned owner inside)
    (hc : s.clients c = .leave call) : ∀ s', s.clientStep c = some s' → Good s' := by
  have hidle : s.clients c ≠ .idle := by rw [hc]; exact nofun
  have hcall : (s.clients c).call? = some call := by rw [hc]; rfl
  obtain ⟨hnq, hrunning⟩ := h.open hidle
  have hin : Caller.client c ∈ inside := (h.closing.members _).mpr hidle
  have hgood : ∀ accepted, (∀ t ∈ accepted, t.number < s.claimedCalls t.client) →
      Good { ({ s with submissions := s.submissions - 1 }.setClient c .idle) with accepted := accepted } := by
    intro accepted haccepted
    refine ⟨planned, owner, inside.erase (.client c), ?_, ?_, ?_, ?_⟩
    · have hnone : ClientPc.idle.fill? = s.fills (.client c) := by
        simp [Channel.fills, hc, ClientPc.fill?]
      have hslots := h.slots
      rw [← view_client hnone] at hslots
      exact hslots
    · exact h.serving.frame rfl rfl rfl rfl le_rfl (fun he => he) fun _ he => he
    · refine h.ordered.visit rfl rfl rfl ?_ (fun _ _ => rfl) nofun nofun rfl haccepted
      funext c'
      by_cases hc' : c' = c
      · subst hc'
        simp [Channel.claimedCalls, Channel.setClient, hc]
      · simp [Channel.claimedCalls, Channel.setClient, hc']
    · refine ⟨?_, ?_, h.closing.closed, fun hq => absurd hq hnq,
        fun f hf => absurd (CloserPc.quiet_of_fill hf) hnq, fun hf => absurd hf.quiet hnq,
        h.closing.stopping, h.closing.done⟩
      · intro w
        rw [Finset.mem_erase, h.closing.members]
        cases w with
        | client c' =>
          by_cases hc' : c' = c
          · simp [Channel.Inside, Channel.setClient, hc']
          · simp [Channel.Inside, Channel.setClient, hc']
        | server => simp [Channel.Inside, Channel.setClient]
        | closer => simp [Channel.Inside]
      · rw [Finset.card_erase_of_mem hin, ← h.closing.submissions]
        rfl
  intro s' hs'
  simp only [Channel.clientStep, hc] at hs'
  cases call with
  | enqueue t =>
    obtain rfl := Option.some.inj hs'
    apply hgood
    intro t' ht'
    rcases List.mem_append.mp ht' with hold | hnew
    · exact h.ordered.accepted t' hold
    · obtain rfl := List.mem_singleton.mp hnew
      obtain ⟨htc, htn⟩ := h.ordered.call c t' hcall
      rw [htc]
      simp only [Channel.claimedCalls, hc]
      omega
  | flush l =>
    obtain rfl := Option.some.inj hs'
    exact hgood s.accepted h.ordered.accepted

end

end Ruda.Device
