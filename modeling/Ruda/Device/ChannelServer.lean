import Ruda.Device.ChannelInv

/-!
# The server and `shutdown`

Their steps keep the invariant: the server by moving the marks of the sequence,
a swap among them, and `shutdown` by filling the last buffer once the clients
are gone.
-/

namespace Ruda.Device

section
variable {s s' : Channel} {planned : List Content} {owner : Nat → Owner} {inside : Finset Caller}

-- Steps of the server

theorem Inv.server_step {planned' : List Content} {owner' : Nat → Owner} {inside' : Finset Caller}
    (h : Inv s planned owner inside) (hrunning : s.server ≠ .exited)
    (hsame : s'.clients = s.clients ∧ s'.calls = s.calls ∧ s'.accepted = s.accepted ∧
      s'.closed = s.closed ∧ s'.stopping = s.stopping ∧ s'.closer = s.closer)
    (hslots : Slots s'.view planned' owner') (hserving : Serving s' planned')
    (htasks : ∀ c, tasksOf c (s'.handed ++ planned') = tasksOf c (s.handed ++ planned))
    (hflush : ∀ t, some t ∈ s.handed ++ planned →
      some t ∈ s.handed ∨ channelMaxTask ≤ s.availableIndex →
      some t ∈ s'.handed ∨ channelMaxTask ≤ s'.availableIndex)
    (hmembers : ∀ w, w ∈ inside' ↔ s'.Inside w) (hsubmissions : s'.submissions = inside'.card)
    (hquiet : s.closer.Quiet → inside' = ∅)
    (hfilling : ∀ f, s.closer = .fill f → planned'.length = channelMaxTask)
    (hfilled : s.closer.Filled → planned' = [] ∨ planned'.length = channelMaxTask) :
    Inv s' planned' owner' inside' := by
  obtain ⟨hclients, hcalls, haccepted, hclosed, hstopping, hcloser⟩ := hsame
  refine ⟨hslots, hserving, ?_, ?_⟩
  · refine h.ordered.frame hcalls haccepted ?_ ?_ ?_ htasks hflush
    · funext c
      simp [Channel.claimedCalls, hclients, hcalls]
    · intro c k hk
      rwa [hclients] at hk
    · intro c k hk
      rw [hclients] at hk
      exact .inl hk
  · refine ⟨hmembers, hsubmissions, ?_, ?_, ?_, ?_, ?_, ?_⟩
    · rw [hcloser, hclosed]
      exact h.closing.closed
    · rw [hcloser]
      exact hquiet
    · rw [hcloser]
      exact hfilling
    · rw [hcloser]
      exact hfilled
    · rw [hcloser, hstopping]
      exact h.closing.stopping
    · rw [hcloser]
      exact fun hd => absurd (h.closing.done hd) hrunning

/-- Outside of its own flush. -/
def ServerPc.Outside (pc : ServerPc) : Prop :=
  pc ≠ .flushClaim ∧ pc.fill? = none ∧ pc ≠ .flushLeave

theorem members_server (h : Closing s planned inside) (hold : s.server.Outside) (hnew : s'.server.Outside)
    (hclients : s'.clients = s.clients) (w : Caller) : w ∈ inside ↔ s'.Inside w := by
  rw [h.members]
  cases w with
  | client c => simp [Channel.Inside, hclients]
  | server => simp [Channel.Inside, hold.1, hold.2.1, hold.2.2, hnew.1, hnew.2.1, hnew.2.2]
  | closer => rfl

theorem Inv.server_move {pc : ServerPc} {ready : Bool} {executed : List Content}
    (h : Inv s planned owner inside) (hrunning : s.server ≠ .exited)
    (hold : s.server.Outside ∧ s.server.swap = .none) (hnew : pc.Outside ∧ pc.swap = .none)
    (hready : pc.MayHold ready) (hfull : pc = .storePtr → channelMaxTask ≤ s.enqueuedCount)
    (hsaw : pc = .loadCount true → s.stopping = true)
    (hexited : pc = .exited → s.stopping = true ∧ planned = [])
    (hhanded : { s with server := pc, readyToExecute := ready, executed := executed }.handed = s.handed) :
    Good { s with server := pc, readyToExecute := ready, executed := executed } := by
  have hview : { s with server := pc, readyToExecute := ready, executed := executed }.view = s.view := by
    have hfills : { s with server := pc, readyToExecute := ready, executed := executed }.fills = s.fills := by
      funext w
      cases w with
      | client c => rfl
      | server => exact hnew.1.2.1.trans hold.1.2.1.symm
      | closer => rfl
    simp only [Channel.view, hfills, hnew.2, hold.2]
  refine ⟨planned, owner, inside, h.server_step hrunning ⟨rfl, rfl, rfl, rfl, rfl, rfl⟩ ?_ ?_ ?_ ?_
    (members_server h.closing hold.1 hnew.1 rfl) h.closing.submissions h.closing.quiet h.closing.filling
    h.closing.filled⟩
  · rw [hview]
    exact h.slots
  · exact ⟨h.serving.ptr, hready, hfull, hsaw, hexited⟩
  · intro c
    rw [hhanded]
  · intro t _ ht
    rwa [hhanded]

theorem handed_of_not_ready (h : s.readyToExecute = false) : s.handed = s.executed := by
  simp [Channel.handed, Channel.remaining, h]

theorem Slots.count_eq (h : Slots s.view planned owner) (hs : s.server.swap = .none)
    (hfills : ∀ w, s.fills w = none) : s.enqueuedCount = planned.length := by
  have hcount := h.count (by show s.server.swap ≠ _; rw [hs]; simp)
  have hfilter : (Finset.range channelMaxTask).filter (fun i => owner i = .published) =
      Finset.range planned.length := by
    ext i
    rw [Finset.mem_filter, Finset.mem_range, Finset.mem_range, ← h.owned i]
    constructor
    · rintro ⟨-, hp⟩
      rw [hp]
      simp
    · intro hne
      have hlt := ((h.owned i).mp hne).trans_le h.length_le
      refine ⟨hlt, ?_⟩
      cases ho : owner i with
      | free => exact absurd ho hne
      | held w =>
        obtain ⟨f, hf, -⟩ := (h.held w i).mp ho
        have hnone : s.view.fills w = none := hfills w
        rw [hnone] at hf
        cases hf
      | published => rfl
  rw [hfilter, Finset.card_range] at hcount
  exact hcount

theorem Inv.server_top (h : Inv s planned owner inside) (hs : s.server = .top) :
    ∀ s', s.serverStep = some s' → Good s' := by
  intro s' hs'
  have hrunning : s.server ≠ .exited := by rw [hs]; simp
  have hold : s.server.Outside ∧ s.server.swap = .none := by rw [hs]; exact ⟨⟨by simp, rfl, by simp⟩, rfl⟩
  simp only [Channel.serverStep, hs] at hs'
  obtain rfl := Option.some.inj hs'
  cases hready : s.readyToExecute with
  | true =>
    rw [if_pos rfl, ← hready]
    refine h.server_move hrunning hold ⟨⟨by simp, rfl, by simp⟩, rfl⟩ ⟨hready, Nat.zero_le _⟩ (by simp) (by simp) (by simp) ?_
    simp [Channel.handed, Channel.remaining, hs, ServerPc.nextSlot]
  | false =>
    rw [if_neg (by simp), ← hready]
    refine h.server_move hrunning hold ⟨⟨by simp, rfl, by simp⟩, rfl⟩ hready (by simp) (by simp) (by simp) ?_
    simp [Channel.handed, Channel.remaining, hs, ServerPc.nextSlot]

theorem Inv.server_execute {slot : Nat} (h : Inv s planned owner inside) (hs : s.server = .execute slot) :
    ∀ s', s.serverStep = some s' → Good s' := by
  intro s' hs'
  have hrunning : s.server ≠ .exited := by rw [hs]; simp
  have hold : s.server.Outside ∧ s.server.swap = .none := by rw [hs]; exact ⟨⟨by simp, rfl, by simp⟩, rfl⟩
  have hready := h.serving.ready
  rw [hs] at hready
  obtain ⟨hready, hle⟩ := hready
  simp only [Channel.serverStep, hs] at hs'
  split at hs'
  · next hlt =>
    obtain rfl := Option.some.inj hs'
    refine h.server_move hrunning hold ⟨⟨by simp, rfl, by simp⟩, rfl⟩ ⟨hready, hlt⟩ (by simp) (by simp) (by simp) ?_
    have hlen : slot < (List.range channelMaxTask).length := by rwa [List.length_range]
    have hcons : (List.range channelMaxTask).drop slot =
        slot :: (List.range channelMaxTask).drop (slot + 1) := by
      rw [List.drop_eq_getElem_cons hlen, List.getElem_range]
    simp [Channel.handed, Channel.remaining, hready, hs, ServerPc.nextSlot, hcons]
  · next hge =>
    obtain rfl := Option.some.inj hs'
    refine h.server_move hrunning hold ⟨⟨by simp, rfl, by simp⟩, rfl⟩ rfl (by simp) (by simp) (by simp) ?_
    have hnil : (List.range channelMaxTask).drop slot = [] := by
      rw [List.drop_eq_nil_iff, List.length_range]
      exact not_lt.mp hge
    simp [Channel.handed, Channel.remaining, hready, hs, ServerPc.nextSlot, hnil]

theorem Inv.server_loadCount {stopping : Bool} (h : Inv s planned owner inside)
    (hs : s.server = .loadCount stopping) : ∀ s', s.serverStep = some s' → Good s' := by
  intro s' hs'
  have hrunning : s.server ≠ .exited := by rw [hs]; simp
  have hold : s.server.Outside ∧ s.server.swap = .none := by rw [hs]; exact ⟨⟨by simp, rfl, by simp⟩, rfl⟩
  have hready := h.serving.ready
  rw [hs] at hready
  have hready : s.readyToExecute = false := hready
  have hmove : ∀ pc : ServerPc, pc.Outside ∧ pc.swap = .none → pc.MayHold false →
      (pc = .storePtr → channelMaxTask ≤ s.enqueuedCount) → (pc = .loadCount true → s.stopping = true) →
      (pc = .exited → s.stopping = true ∧ planned = []) → Good { s with server := pc } := by
    intro pc hpc hhold hfull hsaw hexited
    refine h.server_move hrunning hold hpc (hready ▸ hhold) hfull hsaw hexited ?_
    rw [handed_of_not_ready hready]
    exact handed_of_not_ready hready
  simp only [Channel.serverStep, hs] at hs'
  split at hs'
  · next hfull =>
    obtain rfl := Option.some.inj hs'
    exact hmove _ ⟨⟨by simp, rfl, by simp⟩, rfl⟩ rfl (fun _ => hfull) (by simp) (by simp)
  next hfull =>
  split at hs'
  · next hstop =>
    obtain rfl := Option.some.inj hs'
    refine hmove _ ⟨⟨by simp, rfl, by simp⟩, rfl⟩ rfl (by simp) (by simp) fun _ => ?_
    rw [hstop] at hs
    have hstopping := h.serving.sawStopping hs
    have hfilled : s.closer.Filled := by
      rcases h.closing.stopping hstopping with hj | hj <;> rw [hj] <;> trivial
    refine ⟨hstopping, (h.closing.filled hfilled).resolve_right fun hlen => hfull ?_⟩
    rw [h.slots.count_eq hold.2 (h.closing.no_fill hfilled), hlen]
  · split at hs'
    · obtain rfl := Option.some.inj hs'
      exact hmove _ ⟨⟨by simp, rfl, by simp⟩, rfl⟩ rfl (by simp) (by simp) (by simp)
    · obtain rfl := Option.some.inj hs'
      exact hmove _ ⟨⟨by simp, rfl, by simp⟩, rfl⟩ trivial (by simp) (by simp) (by simp)

theorem Inv.server_idle {pc : ServerPc} (h : Inv s planned owner inside) (hrunning : s.server ≠ .exited)
    (hold : s.server.Outside ∧ s.server.swap = .none) (hnew : pc.Outside ∧ pc.swap = .none)
    (hready : s.readyToExecute = false) (hhold : pc.MayHold false) (hptr : pc ≠ .storePtr)
    (hsaw : pc = .loadCount true → s.stopping = true) (hexited : pc ≠ .exited) :
    Good { s with server := pc } := by
  refine h.server_move hrunning hold hnew (hready ▸ hhold) (fun he => absurd he hptr) hsaw
    (fun he => absurd he hexited) ?_
  rw [handed_of_not_ready hready]
  exact handed_of_not_ready hready

theorem Inv.server_storePtr (h : Inv s planned owner inside) (hs : s.server = .storePtr) :
    ∀ s', s.serverStep = some s' → Good s' := by
  intro s' hs'
  have hrunning : s.server ≠ .exited := by rw [hs]; simp
  have hold : s.server.Outside := by rw [hs]; exact ⟨by simp, rfl, by simp⟩
  have hswap : s.view.swap = .none := by show s.server.swap = _; rw [hs]; rfl
  have hready := h.serving.ready
  rw [hs] at hready
  have hfull := h.serving.full hs
  obtain ⟨-, -, hfills⟩ := h.slots.full hswap hfull
  simp only [Channel.serverStep, hs] at hs'
  obtain rfl := Option.some.inj hs'
  have hhanded : s.handed = s.executed := handed_of_not_ready hready
  have hhanded' : { s with
      clientBuf := !s.clientBuf
      queuePtr := !s.clientBuf
      readyToExecute := true
      server := .storeCount }.handed = s.executed ++ planned := by
    rw [h.slots.planned_eq hswap hfull]
    simp [Channel.handed, Channel.remaining, ServerPc.nextSlot, Channel.view]
  refine ⟨[], fun _ => .free, inside, h.server_step hrunning ⟨rfl, rfl, rfl, rfl, rfl, rfl⟩ ?_ ?_ ?_ ?_
    (members_server h.closing hold ⟨by simp, rfl, by simp⟩ rfl) h.closing.submissions h.closing.quiet ?_
    fun _ => .inl rfl⟩
  · have hslots := h.slots.store hswap hfull
    have hview : { s with
        clientBuf := !s.clientBuf
        queuePtr := !s.clientBuf
        readyToExecute := true
        server := .storeCount }.view = { s.view with buffer := !s.view.buffer, swap := .stored } := by
      have hsame : Function.update s.fills .server none = s.fills := by
        rw [← hfills .server]
        exact Function.update_eq_self _ _
      have hfs : { s with
          clientBuf := !s.clientBuf
          queuePtr := !s.clientBuf
          readyToExecute := true
          server := .storeCount }.fills = s.fills := (fills_server s .storeCount).trans hsame
      rw [Channel.view, hfs]
      rfl
    rw [hview]
    exact hslots
  · exact ⟨rfl, rfl, by simp, by simp, by simp⟩
  · intro c
    rw [hhanded', hhanded, List.append_nil]
  · intro t ht _
    rw [hhanded']
    rw [hhanded] at ht
    exact .inl ht
  · intro f hf
    have hnone := hfills .closer
    simp [Channel.view, Channel.fills, hf, CloserPc.fill?] at hnone

theorem Inv.server_storeCount (h : Inv s planned owner inside) (hs : s.server = .storeCount) :
    ∀ s', s.serverStep = some s' → Good s' := by
  intro s' hs'
  have hrunning : s.server ≠ .exited := by rw [hs]; simp
  have hold : s.server.Outside := by rw [hs]; exact ⟨by simp, rfl, by simp⟩
  have hswap : s.view.swap = .stored := by show s.server.swap = _; rw [hs]; rfl
  have hready := h.serving.ready
  rw [hs] at hready
  simp only [Channel.serverStep, hs] at hs'
  obtain rfl := Option.some.inj hs'
  have hhanded : { s with enqueuedCount := 0, server := .storeAvailable }.handed = s.handed := by
    simp [Channel.handed, Channel.remaining, ServerPc.nextSlot, hs]
  refine ⟨planned, owner, inside, h.server_step hrunning ⟨rfl, rfl, rfl, rfl, rfl, rfl⟩ ?_ ?_ ?_ ?_
    (members_server h.closing hold ⟨by simp, rfl, by simp⟩ rfl) h.closing.submissions h.closing.quiet
    h.closing.filling h.closing.filled⟩
  · have hslots := h.slots.resetCount hswap
    have hfs : { s with enqueuedCount := 0, server := .storeAvailable }.fills = s.fills := by
      funext w
      cases w with
      | client c => rfl
      | server => simp [Channel.fills, hs, ServerPc.fill?]
      | closer => rfl
    rw [Channel.view, hfs]
    exact hslots
  · exact ⟨h.serving.ptr, hready, by simp, by simp, by simp⟩
  · intro c
    rw [hhanded]
  · intro t _ ht
    rwa [hhanded]

theorem Inv.server_storeAvailable (h : Inv s planned owner inside) (hs : s.server = .storeAvailable) :
    ∀ s', s.serverStep = some s' → Good s' := by
  intro s' hs'
  have hrunning : s.server ≠ .exited := by rw [hs]; simp
  have hold : s.server.Outside := by rw [hs]; exact ⟨by simp, rfl, by simp⟩
  have hswap : s.view.swap = .counted := by show s.server.swap = _; rw [hs]; rfl
  obtain ⟨hnil, -⟩ := h.slots.swapping (by rw [hswap]; simp)
  simp only [Channel.serverStep, hs] at hs'
  obtain rfl := Option.some.inj hs'
  have hhanded : { s with availableIndex := 0, server := .top }.handed = s.handed := by
    simp [Channel.handed, Channel.remaining, ServerPc.nextSlot, hs]
  refine ⟨planned, owner, inside, h.server_step hrunning ⟨rfl, rfl, rfl, rfl, rfl, rfl⟩ ?_ ?_ ?_ ?_
    (members_server h.closing hold ⟨by simp, rfl, by simp⟩ rfl) h.closing.submissions h.closing.quiet
    h.closing.filling h.closing.filled⟩
  · have hslots := h.slots.resetAvailable hswap
    have hfs : { s with availableIndex := 0, server := .top }.fills = s.fills := by
      funext w
      cases w with
      | client c => rfl
      | server => simp [Channel.fills, hs, ServerPc.fill?]
      | closer => rfl
    rw [Channel.view, hfs]
    exact hslots
  · exact ⟨h.serving.ptr, trivial, by simp, by simp, by simp⟩
  · intro c
    rw [hhanded]
  · intro t ht _
    rw [hnil, List.append_nil] at ht
    rw [hhanded]
    exact .inl ht

theorem Inv.server_flushBegin (h : Inv s planned owner inside) (hs : s.server = .flushBegin) :
    ∀ s', s.serverStep = some s' → Good s' := by
  intro s' hs'
  have hrunning : s.server ≠ .exited := by rw [hs]; simp
  have hold : s.server.Outside ∧ s.server.swap = .none := by rw [hs]; exact ⟨⟨by simp, rfl, by simp⟩, rfl⟩
  have hready := h.serving.ready
  rw [hs] at hready
  simp only [Channel.serverStep, hs] at hs'
  split at hs'
  · obtain rfl := Option.some.inj hs'
    exact h.server_idle hrunning hold ⟨⟨by simp, rfl, by simp⟩, rfl⟩ hready trivial (by simp) (by simp) (by simp)
  next hclosed =>
  obtain rfl := Option.some.inj hs'
  have hnq : ¬s.closer.Quiet := by
    intro hq
    refine hclosed (h.closing.closed ?_)
    intro hr
    rw [hr] at hq
    exact hq
  have hnew : Caller.server ∉ inside := by
    rw [h.closing.members]
    simp [Channel.Inside, hs, ServerPc.fill?]
  have hhanded : { s with submissions := s.submissions + 1, server := .flushClaim }.handed = s.handed := by
    simp [Channel.handed, Channel.remaining, ServerPc.nextSlot, hs]
  refine ⟨planned, owner, insert .server inside, h.server_step hrunning ⟨rfl, rfl, rfl, rfl, rfl, rfl⟩
    ?_ ?_ ?_ ?_ ?_ ?_ (fun hq => absurd hq hnq) h.closing.filling h.closing.filled⟩
  · have hfs : { s with submissions := s.submissions + 1, server := .flushClaim }.fills = s.fills := by
      funext w
      cases w with
      | client c => rfl
      | server => simp [Channel.fills, hs, ServerPc.fill?]
      | closer => rfl
    have hslots := h.slots
    rw [Channel.view, hs] at hslots
    rw [Channel.view, hfs]
    exact hslots
  · exact ⟨h.serving.ptr, hready, by simp, by simp, by simp⟩
  · intro c
    rw [hhanded]
  · intro t _ ht
    rwa [hhanded]
  · intro w
    rw [Finset.mem_insert, h.closing.members]
    cases w with
    | client c => simp [Channel.Inside]
    | server => simp [Channel.Inside]
    | closer => simp [Channel.Inside]
  · rw [Finset.card_insert_of_notMem hnew, ← h.closing.submissions]

theorem Inv.server_flush {pc : ServerPc} {available count : Nat} {slots : Bool → Nat → Content}
    {more : List Content} {owner' : Nat → Owner} (h : Inv s planned owner inside)
    (hin : s.Inside .server) (hswap : s.server.swap = .none) (hready : s.readyToExecute = false)
    (hpc : pc.fill?.isSome ∨ pc = .flushLeave) (havail : s.availableIndex ≤ available)
    (hmore : ∀ x ∈ more, x = none)
    (hslots : Slots { s.view with
      available := available
      slots := slots
      count := count
      fills := Function.update s.fills .server pc.fill? } (planned ++ more) owner') :
    Good { s with availableIndex := available, slots := slots, enqueuedCount := count, server := pc } := by
  have hnq : ¬s.closer.Quiet := fun hq => h.closing.not_inside hq .server hin
  have hrunning : s.server ≠ .exited := by
    intro hx
    simp [Channel.Inside, hx, ServerPc.fill?] at hin
  have hpcs : pc.swap = .none ∧ pc.MayHold false ∧ pc ≠ .storePtr ∧ pc ≠ .loadCount true ∧ pc ≠ .exited := by
    cases pc <;> simp [ServerPc.fill?] at hpc <;> exact ⟨rfl, rfl, by simp, by simp, by simp⟩
  obtain ⟨hpcswap, hpchold, hpcptr, hpcload, hpcexit⟩ := hpcs
  let next : Channel :=
    { s with availableIndex := available, slots := slots, enqueuedCount := count, server := pc }
  have hhanded : next.handed = s.handed := by
    simp [next, Channel.handed, Channel.remaining, hready]
  refine ⟨planned ++ more, owner', inside, h.server_step hrunning ⟨rfl, rfl, rfl, rfl, rfl, rfl⟩
    ?_ ?_ ?_ ?_ ?_ h.closing.submissions (fun hq => absurd hq hnq)
    (fun f hf => absurd (CloserPc.quiet_of_fill hf) hnq) fun hf => absurd hf.quiet hnq⟩
  · have hview : next.view = { s.view with
        available := available
        slots := slots
        count := count
        fills := Function.update s.fills .server pc.fill? } := by
      have hfs : next.fills = Function.update s.fills .server pc.fill? := fills_server s pc
      rw [Channel.view, hfs]
      simp [next, Channel.view, hpcswap, hswap]
    show Slots next.view _ _
    rw [hview]
    exact hslots
  · exact ⟨h.serving.ptr, hready ▸ hpchold, fun he => absurd he hpcptr, fun he => absurd he hpcload,
      fun he => absurd he hpcexit⟩
  · intro c
    show tasksOf c (next.handed ++ _) = _
    rw [hhanded, ← List.append_assoc, tasksOf_append c _ more, tasksOf_noops c hmore, List.append_nil]
  · intro t _ ht
    show some t ∈ next.handed ∨ _
    rw [hhanded]
    exact ht.imp_right fun hle => hle.trans havail
  · intro w
    rw [h.closing.members]
    cases w with
    | client c => rfl
    | server => exact ⟨fun _ => .inr hpc, fun _ => hin⟩
    | closer => rfl

theorem Inv.server_flushClaim (h : Inv s planned owner inside) (hs : s.server = .flushClaim)
    (hleft : s.IndexLeft) : ∀ s', s.serverStep = some s' → Good s' := by
  intro s' hs'
  have hf : s.fills .server = none := by simp [Channel.fills, hs, ServerPc.fill?]
  have hready := h.serving.ready
  rw [hs] at hready
  obtain ⟨more, owner', hstate, hslots, hmore, -⟩ := claimRest_slots h.slots hf hleft
  have hnext : ∀ pc : ServerPc, pc.fill? = s.claimRest.1 → pc.fill?.isSome ∨ pc = .flushLeave →
      Good { s.claimRest.2 with server := pc } := by
    intro pc hfill hpc
    rw [hstate]
    rw [← hfill] at hslots
    exact h.server_flush (by rw [Channel.Inside, hs]; exact .inl rfl) (by rw [hs]; rfl) hready hpc
      (Nat.le_add_right _ _) hmore hslots
  simp only [Channel.serverStep, hs] at hs'
  split at hs'
  · next s₁ he =>
    obtain rfl := Option.some.inj hs'
    have hgood := hnext .flushLeave (by rw [he]; rfl) (.inr rfl)
    rwa [he] at hgood
  · next f s₁ he =>
    obtain rfl := Option.some.inj hs'
    have hgood := hnext (.flushFill f) (by rw [he]; rfl) (.inl rfl)
    rwa [he] at hgood

theorem Inv.server_flushFill {f : Fill} (h : Inv s planned owner inside) (hs : s.server = .flushFill f) :
    ∀ s', s.serverStep = some s' → Good s' := by
  intro s' hs'
  have hf : s.fills .server = some f := by simp [Channel.fills, hs, ServerPc.fill?]
  have hready := h.serving.ready
  rw [hs] at hready
  obtain ⟨slots, count, owner', hstate, -, -, hslots, -⟩ := fillStep_slots h.slots hf h.serving.ptr
  have hnext : ∀ pc : ServerPc, pc.fill? = (s.fillStep f).1 → pc.fill?.isSome ∨ pc = .flushLeave →
      Good { (s.fillStep f).2 with server := pc } := by
    intro pc hfill hpc
    rw [hstate]
    rw [← hfill, ← List.append_nil planned] at hslots
    exact h.server_flush (by rw [Channel.Inside, hs]; exact .inr (.inl rfl)) (by rw [hs]; rfl) hready hpc
      le_rfl (fun x hx => absurd hx List.not_mem_nil) hslots
  simp only [Channel.serverStep, hs] at hs'
  split at hs'
  · next f' s₁ he =>
    obtain rfl := Option.some.inj hs'
    have hgood := hnext (.flushFill f') (by rw [he]; rfl) (.inl rfl)
    rwa [he] at hgood
  · next s₁ he =>
    obtain rfl := Option.some.inj hs'
    have hgood := hnext .flushLeave (by rw [he]; rfl) (.inr rfl)
    rwa [he] at hgood

theorem Inv.server_flushLeave (h : Inv s planned owner inside) (hs : s.server = .flushLeave) :
    ∀ s', s.serverStep = some s' → Good s' := by
  intro s' hs'
  have hrunning : s.server ≠ .exited := by rw [hs]; simp
  have hin : Caller.server ∈ inside := (h.closing.members _).mpr (by rw [Channel.Inside, hs]; exact .inr (.inr rfl))
  have hnq : ¬s.closer.Quiet := fun hq => h.closing.not_inside hq .server ((h.closing.members _).mp hin)
  simp only [Channel.serverStep, hs] at hs'
  obtain rfl := Option.some.inj hs'
  have hhanded : { s with submissions := s.submissions - 1, server := .top }.handed = s.handed := by
    simp [Channel.handed, Channel.remaining, ServerPc.nextSlot, hs]
  refine ⟨planned, owner, inside.erase .server, h.server_step hrunning ⟨rfl, rfl, rfl, rfl, rfl, rfl⟩
    ?_ ?_ ?_ ?_ ?_ ?_ (fun hq => absurd hq hnq) h.closing.filling h.closing.filled⟩
  · have hfs : { s with submissions := s.submissions - 1, server := .top }.fills = s.fills := by
      funext w
      cases w with
      | client c => rfl
      | server => simp [Channel.fills, hs, ServerPc.fill?]
      | closer => rfl
    have hslots := h.slots
    rw [Channel.view, hs] at hslots
    rw [Channel.view, hfs]
    exact hslots
  · exact ⟨h.serving.ptr, trivial, by simp, by simp, by simp⟩
  · intro c
    rw [hhanded]
  · intro t _ ht
    rwa [hhanded]
  · intro w
    rw [Finset.mem_erase, h.closing.members]
    cases w with
    | client c => simp [Channel.Inside]
    | server => simp [Channel.Inside, ServerPc.fill?]
    | closer => simp [Channel.Inside]
  · rw [Finset.card_erase_of_mem hin, ← h.closing.submissions]

theorem Inv.server (h : Inv s planned owner inside) (hleft : s.IndexLeft) :
    ∀ s', s.serverStep = some s' → Good s' := by
  have hready := h.serving.ready
  cases hs : s.server with
  | top => exact h.server_top hs
  | execute slot => exact h.server_execute hs
  | loadCount stopping => exact h.server_loadCount hs
  | storePtr => exact h.server_storePtr hs
  | storeCount => exact h.server_storeCount hs
  | storeAvailable => exact h.server_storeAvailable hs
  | flushBegin => exact h.server_flushBegin hs
  | flushClaim => exact h.server_flushClaim hs hleft
  | flushFill f => exact h.server_flushFill hs
  | flushLeave => exact h.server_flushLeave hs
  | loadStopping =>
    intro s' hs'
    rw [hs] at hready
    simp only [Channel.serverStep, hs] at hs'
    obtain rfl := Option.some.inj hs'
    refine h.server_idle (by rw [hs]; simp) (by rw [hs]; exact ⟨⟨by simp, rfl, by simp⟩, rfl⟩)
      ⟨⟨by simp, rfl, by simp⟩, rfl⟩ hready rfl (by simp) ?_ (by simp)
    exact fun he => ServerPc.loadCount.inj he
  | loadAvailable =>
    intro s' hs'
    rw [hs] at hready
    simp only [Channel.serverStep, hs] at hs'
    obtain rfl := Option.some.inj hs'
    have hmove : ∀ pc : ServerPc, pc = .flushBegin ∨ pc = .top → Good { s with server := pc } := by
      rintro pc (rfl | rfl)
      · exact h.server_idle (by rw [hs]; simp) (by rw [hs]; exact ⟨⟨by simp, rfl, by simp⟩, rfl⟩)
          ⟨⟨by simp, rfl, by simp⟩, rfl⟩ hready rfl (by simp) (by simp) (by simp)
      · exact h.server_idle (by rw [hs]; simp) (by rw [hs]; exact ⟨⟨by simp, rfl, by simp⟩, rfl⟩)
          ⟨⟨by simp, rfl, by simp⟩, rfl⟩ hready trivial (by simp) (by simp) (by simp)
    apply hmove
    split
    · exact .inl rfl
    · exact .inr rfl
  | exited =>
    intro s' hs'
    simp [Channel.serverStep, hs] at hs'

-- Steps of `shutdown`

theorem Inv.closer_move {pc : CloserPc} {closed stopping : Bool} (h : Inv s planned owner inside)
    (hold : s.closer.fill? = none) (hnew : pc.fill? = none)
    (hstop : s.stopping = true → stopping = true) (hclosed : pc ≠ .running → closed = true)
    (hquiet : pc.Quiet → inside = ∅)
    (hfilled : pc.Filled → planned = [] ∨ planned.length = channelMaxTask)
    (hstopping : stopping = true → pc = .join ∨ pc = .done) (hdone : pc = .done → s.server = .exited) :
    Good { s with closer := pc, closed := closed, stopping := stopping } := by
  refine ⟨planned, owner, inside, ?_, ?_, ?_, ?_⟩
  · have hfs : { s with closer := pc, closed := closed, stopping := stopping }.fills = s.fills := by
      funext w
      cases w with
      | client c => rfl
      | server => rfl
      | closer => exact hnew.trans hold.symm
    rw [Channel.view, hfs]
    exact h.slots
  · exact h.serving.frame rfl rfl rfl rfl le_rfl hstop fun _ he => he
  · exact h.ordered.frame rfl rfl rfl (fun _ _ hk => hk) (fun _ _ hk => .inl hk) (fun _ => rfl)
      fun _ _ ht => ht
  · refine ⟨?_, h.closing.submissions, hclosed, hquiet, ?_, hfilled, hstopping, hdone⟩
    · intro w
      rw [h.closing.members]
      cases w <;> rfl
    · intro f hf
      have hpc : pc = .fill f := hf
      rw [hpc] at hnew
      cases hnew

theorem Inv.closer_flush {pc : CloserPc} {available count : Nat} {slots : Bool → Nat → Content}
    {more : List Content} {owner' : Nat → Owner} (h : Inv s planned owner inside)
    (hold : s.closer = .claim ∨ ∃ f, s.closer = .fill f) (hpc : pc.fill?.isSome ∨ pc = .setStopping)
    (havail : s.availableIndex ≤ available) (hcount : s.enqueuedCount ≤ count)
    (hother : slots (!s.clientBuf) = s.slots (!s.clientBuf)) (hmore : ∀ x ∈ more, x = none)
    (hfilled : pc.fill? = none → planned ++ more = [] ∨ (planned ++ more).length = channelMaxTask)
    (hfilling : pc.fill?.isSome → (planned ++ more).length = channelMaxTask)
    (hslots : Slots { s.view with
      available := available
      slots := slots
      count := count
      fills := Function.update s.fills .closer pc.fill? } (planned ++ more) owner') :
    Good { s with availableIndex := available, slots := slots, enqueuedCount := count, closer := pc } := by
  let next : Channel :=
    { s with availableIndex := available, slots := slots, enqueuedCount := count, closer := pc }
  have hquiet : s.closer.Quiet := by
    rcases hold with hc | ⟨f, hc⟩ <;> rw [hc] <;> trivial
  have hnotstopping : s.stopping ≠ true := by
    intro hst
    rcases h.closing.stopping hst with hj | hj <;> rcases hold with hc | ⟨f, hc⟩ <;> rw [hj] at hc <;>
      cases hc
  have hnotexited : s.server ≠ .exited := fun hx => hnotstopping (h.serving.exited hx).1
  have hhanded : next.handed = s.handed := handed_congr rfl rfl rfl rfl hother
  refine ⟨planned ++ more, owner', inside, ?_, ?_, ?_, ?_⟩
  · have hfs : next.fills = Function.update s.fills .closer pc.fill? := fills_closer s pc
    show Slots next.view _ _
    rw [Channel.view, hfs]
    exact hslots
  · exact h.serving.frame rfl rfl rfl rfl hcount (fun he => he) fun hx => absurd hx hnotexited
  · refine h.ordered.frame rfl rfl rfl (fun _ _ hk => hk) (fun _ _ hk => .inl hk) ?_ ?_
    · intro c
      show tasksOf c (next.handed ++ _) = _
      rw [hhanded, ← List.append_assoc, tasksOf_append c _ more, tasksOf_noops c hmore, List.append_nil]
    · intro t _ ht
      show some t ∈ next.handed ∨ _
      rw [hhanded]
      exact ht.imp_right fun hle => hle.trans havail
  · refine ⟨?_, h.closing.submissions, fun _ => ?_, fun _ => h.closing.quiet hquiet, ?_, ?_,
      fun hst => absurd hst hnotstopping, ?_⟩
    · intro w
      rw [h.closing.members]
      cases w <;> rfl
    · apply h.closing.closed
      rcases hold with hc | ⟨f, hc⟩ <;> rw [hc] <;> simp
    · intro f hf
      have hf : pc = .fill f := hf
      exact hfilling (by rw [hf]; rfl)
    · intro hf
      rcases hpc with hsome | hset
      · have hf : pc.Filled := hf
        cases pc <;> simp [CloserPc.fill?] at hsome
        exact hf.elim
      · exact hfilled (by rw [hset]; rfl)
    · intro hd
      have hd : pc = .done := hd
      rw [hd] at hpc
      rcases hpc with hsome | hset
      · simp [CloserPc.fill?] at hsome
      · cases hset

theorem Inv.closer_claim (h : Inv s planned owner inside) (hc : s.closer = .claim) (hleft : s.IndexLeft) :
    ∀ s', s.closerStep = some s' → Good s' := by
  intro s' hs'
  have hf : s.fills .closer = none := by simp [Channel.fills, hc, CloserPc.fill?]
  obtain ⟨more, owner', hstate, hslots, hmore, hlen⟩ := claimRest_slots h.slots hf hleft
  have hnext : ∀ pc : CloserPc, pc.fill? = s.claimRest.1 → pc.fill?.isSome ∨ pc = .setStopping →
      Good { s.claimRest.2 with closer := pc } := by
    intro pc hfill hpc
    rw [hstate]
    rw [← hfill] at hslots
    refine h.closer_flush (.inl hc) hpc (Nat.le_add_right _ _) le_rfl rfl hmore (fun _ => hlen) ?_ hslots
    intro hsome
    refine hlen.resolve_left fun hnil => ?_
    obtain ⟨f, hpcf⟩ := Option.isSome_iff_exists.mp hsome
    have hfs : Function.update s.fills .closer pc.fill? .closer = some f := by
      rw [Function.update_self, hpcf]
    have hstop := hslots.stop_le (w := .closer) hfs
    have hr := hslots.range .closer f hfs
    rw [hnil, List.length_nil] at hstop
    omega
  simp only [Channel.closerStep, hc] at hs'
  split at hs'
  · next s₁ he =>
    obtain rfl := Option.some.inj hs'
    have hgood := hnext .setStopping (by rw [he]; rfl) (.inr rfl)
    rwa [he] at hgood
  · next f s₁ he =>
    obtain rfl := Option.some.inj hs'
    have hgood := hnext (.fill f) (by rw [he]; rfl) (.inl rfl)
    rwa [he] at hgood

theorem Inv.closer_fill {f : Fill} (h : Inv s planned owner inside) (hc : s.closer = .fill f) :
    ∀ s', s.closerStep = some s' → Good s' := by
  intro s' hs'
  have hf : s.fills .closer = some f := by simp [Channel.fills, hc, CloserPc.fill?]
  have hlen := h.closing.filling f hc
  obtain ⟨slots, count, owner', hstate, hother, hcount, hslots, -⟩ :=
    fillStep_slots h.slots hf h.serving.ptr
  have hnext : ∀ pc : CloserPc, pc.fill? = (s.fillStep f).1 → pc.fill?.isSome ∨ pc = .setStopping →
      Good { (s.fillStep f).2 with closer := pc } := by
    intro pc hfill hpc
    rw [hstate]
    rw [← List.append_nil planned] at hlen
    rw [← hfill, ← List.append_nil planned] at hslots
    exact h.closer_flush (.inr ⟨f, hc⟩) hpc le_rfl hcount hother
      (fun x hx => absurd hx List.not_mem_nil) (fun _ => .inr hlen) (fun _ => hlen) hslots
  simp only [Channel.closerStep, hc] at hs'
  split at hs'
  · next f' s₁ he =>
    obtain rfl := Option.some.inj hs'
    have hgood := hnext (.fill f') (by rw [he]; rfl) (.inl rfl)
    rwa [he] at hgood
  · next s₁ he =>
    obtain rfl := Option.some.inj hs'
    have hgood := hnext .setStopping (by rw [he]; rfl) (.inr rfl)
    rwa [he] at hgood

theorem Inv.closer (h : Inv s planned owner inside) (hleft : s.IndexLeft) :
    ∀ s', s.closerStep = some s' → Good s' := by
  cases hc : s.closer with
  | claim => exact h.closer_claim hc hleft
  | fill f => exact h.closer_fill hc
  | running =>
    intro s' hs'
    simp only [Channel.closerStep, hc] at hs'
    obtain rfl := Option.some.inj hs'
    refine h.closer_move (by rw [hc]; rfl) rfl (fun he => he) (fun _ => rfl) (fun hq => hq.elim)
      (fun hf => hf.elim) ?_ (by simp)
    intro hst
    rcases h.closing.stopping hst with hj | hj <;> rw [hc] at hj <;> cases hj
  | await =>
    intro s' hs'
    simp only [Channel.closerStep, hc] at hs'
    obtain rfl := Option.some.inj hs'
    split
    · next hzero =>
      have hempty : inside = ∅ := by
        rw [← Finset.card_eq_zero, ← h.closing.submissions, hzero]
      refine h.closer_move (by rw [hc]; rfl) rfl (fun he => he)
        (fun _ => h.closing.closed (by rw [hc]; simp)) (fun _ => hempty) (fun hf => hf.elim) ?_ (by simp)
      intro hst
      rcases h.closing.stopping hst with hj | hj <;> rw [hc] at hj <;> cases hj
    · exact ⟨_, _, _, h⟩
  | setStopping =>
    intro s' hs'
    simp only [Channel.closerStep, hc] at hs'
    obtain rfl := Option.some.inj hs'
    exact h.closer_move (by rw [hc]; rfl) rfl (fun _ => rfl)
      (fun _ => h.closing.closed (by rw [hc]; simp))
      (fun _ => h.closing.quiet (by rw [hc]; trivial)) (fun _ => h.closing.filled (by rw [hc]; trivial))
      (fun _ => .inl rfl) (by simp)
  | join =>
    intro s' hs'
    simp only [Channel.closerStep, hc] at hs'
    split at hs'
    · next hx =>
      obtain rfl := Option.some.inj hs'
      exact h.closer_move (by rw [hc]; rfl) rfl (fun he => he)
        (fun _ => h.closing.closed (by rw [hc]; simp))
        (fun _ => h.closing.quiet (by rw [hc]; trivial)) (fun _ => h.closing.filled (by rw [hc]; trivial))
        (fun _ => .inr rfl) (fun _ => hx)
    · cases hs'
  | done =>
    intro s' hs'
    simp [Channel.closerStep, hc] at hs'

end

end Ruda.Device
