import Ruda.Device.ChannelServer

/-!
# Every accepted task runs once

What holds in every state of every interleaving of clients, server and
`shutdown`, and two runs: a flush does not wait for the server, and an index
that wraps lets a client overwrite a task.
-/

namespace Ruda.Device

section
variable {s s' : Channel} {planned : List Content} {owner : Nat → Owner} {inside : Finset Caller}

-- What a thread is writing

def Call.content : Call → Content
  | .enqueue t => some t
  | .flush _ => none

/-- Each thread writes its own task or no-ops, and a task in hand is not accepted yet. -/
structure Tidy (s : Channel) : Prop where
  client : ∀ c call f, s.clients c = .fill call f → f.content = call.content
  server : ∀ f, s.server.fill? = some f → f.content = none
  closer : ∀ f, s.closer.fill? = some f → f.content = none
  current : ∀ c t, (s.clients c).call? = some (.enqueue t) → t.client = c ∧ t.number + 1 = s.calls c
  accepted : ∀ t ∈ s.accepted, t.number < s.calls t.client
  inHand : ∀ c t, (s.clients c).call? = some (.enqueue t) → t ∉ s.accepted

theorem fillStep_content {f g : Fill} (h : (s.fillStep f).1 = some g) : g.content = f.content := by
  unfold Channel.fillStep at h
  split at h
  · split at h <;> obtain rfl := Option.some.inj h <;> rfl
  · cases h

theorem claimOne_content {content : Content} {f : Fill} (h : (s.claimOne content).1 = some f) :
    f.content = content := by
  by_cases hfull : channelMaxTask ≤ s.availableIndex
  · have hnone : (s.claimOne content).1 = none := if_pos hfull
    rw [hnone] at h
    cases h
  · have hsome : (s.claimOne content).1 =
        some ⟨s.availableIndex, s.availableIndex + 1, s.availableIndex, content, none⟩ := if_neg hfull
    rw [hsome] at h
    obtain rfl := Option.some.inj h
    rfl

theorem claimRest_content {f : Fill} (h : s.claimRest.1 = some f) : f.content = none := by
  by_cases hfull : channelMaxTask ≤ s.availableIndex
  · have hnone : s.claimRest.1 = none := if_pos hfull
    rw [hnone] at h
    cases h
  · have hsome : s.claimRest.1 =
        some ⟨s.availableIndex, channelMaxTask, s.availableIndex, none, none⟩ := if_neg hfull
    rw [hsome] at h
    obtain rfl := Option.some.inj h
    rfl

theorem fillStep_same (f : Fill) : (s.fillStep f).2.clients = s.clients ∧
    (s.fillStep f).2.calls = s.calls ∧ (s.fillStep f).2.accepted = s.accepted ∧
    (s.fillStep f).2.server = s.server ∧ (s.fillStep f).2.closer = s.closer := by
  unfold Channel.fillStep
  split
  · split <;> exact ⟨rfl, rfl, rfl, rfl, rfl⟩
  · exact ⟨rfl, rfl, rfl, rfl, rfl⟩

theorem Tidy.client_move {c : Nat} {pc : ClientPc} {call : Call} (h : Tidy s)
    (hold : (s.clients c).call? = some call) (hpc : pc.call? = some call)
    (hfill : ∀ f, pc = .fill call f → f.content = call.content)
    (hclients : s'.clients = Function.update s.clients c pc) (hserver : s'.server = s.server)
    (hcloser : s'.closer = s.closer) (hcalls : s'.calls = s.calls) (haccepted : s'.accepted = s.accepted) :
    Tidy s' where
  client c' call' f hf := by
    rw [hclients] at hf
    by_cases hc : c' = c
    · subst hc
      rw [Function.update_self] at hf
      rw [hf] at hpc
      obtain rfl : call' = call := Option.some.inj hpc
      exact hfill f hf
    · rw [Function.update_of_ne hc] at hf
      exact h.client c' call' f hf
  server f hf := h.server f (hserver ▸ hf)
  closer f hf := h.closer f (hcloser ▸ hf)
  current c' t hk := by
    rw [hcalls]
    exact h.current c' t (call_update hold hpc hclients c' _ hk)
  accepted t ht := by
    rw [hcalls]
    exact h.accepted t (haccepted ▸ ht)
  inHand c' t hk := by
    rw [haccepted]
    exact h.inHand c' t (call_update hold hpc hclients c' _ hk)

theorem Tidy.begin {c : Nat} {request : Channel.Request} (h : Tidy s) (hs : s.begin c request = some s') :
    Tidy s' := by
  unfold Channel.begin at hs
  split at hs
  case h_2 => cases hs
  split at hs
  · obtain rfl := Option.some.inj hs
    exact h
  have hcalls (c' : Nat) : s.calls c' ≤ s'.calls c' := by
    rw [← Option.some.inj hs]
    cases request with
    | enqueue =>
      by_cases hc : c' = c
      · subst hc
        simp
      · simp [hc]
    | flush => exact le_rfl
  obtain rfl := Option.some.inj hs
  refine ⟨?_, h.server, h.closer, ?_, fun t ht => (h.accepted t ht).trans_le (hcalls _), ?_⟩
  · intro c' call f hf
    by_cases hc : c' = c
    · subst hc
      simp at hf
    · exact h.client c' call f (by simpa [hc] using hf)
  · intro c' t hk
    by_cases hc : c' = c
    · subst hc
      cases request with
      | enqueue =>
        simp only [Function.update_self, ClientPc.call?, Option.some.injEq, Call.enqueue.injEq] at hk
        subst hk
        exact ⟨rfl, by simp⟩
      | flush => simp [ClientPc.call?] at hk
    · have hold := h.current c' t (by simpa [hc] using hk)
      cases request with
      | enqueue => simpa [hc] using hold
      | flush => exact hold
  · intro c' t hk hin
    by_cases hc : c' = c
    · subst hc
      cases request with
      | enqueue =>
        simp only [Function.update_self, ClientPc.call?, Option.some.injEq, Call.enqueue.injEq] at hk
        have hlt := h.accepted t hin
        rw [← hk] at hlt
        exact absurd hlt (lt_irrefl _)
      | flush => simp [ClientPc.call?] at hk
    · exact h.inHand c' t (by simpa [hc] using hk) hin

theorem Tidy.clientStep {c : Nat} (h : Tidy s) (hs : s.clientStep c = some s') : Tidy s' := by
  unfold Channel.clientStep at hs
  split at hs
  · cases hs
  · next t hc =>
    have hcall : (s.clients c).call? = some (.enqueue t) := by rw [hc]; rfl
    split at hs
    · next s₁ he =>
      obtain rfl := Option.some.inj hs
      have hs₁ : s₁ = (s.claimOne (some t)).2 := by rw [he]
      rw [hs₁]
      exact ⟨h.client, h.server, h.closer, h.current, h.accepted, h.inHand⟩
    · next f s₁ he =>
      obtain rfl := Option.some.inj hs
      have hs₁ : s₁ = (s.claimOne (some t)).2 := by rw [he]
      rw [hs₁]
      refine h.client_move hcall rfl ?_ rfl rfl rfl rfl rfl
      intro g hg
      obtain ⟨-, rfl⟩ := ClientPc.fill.inj hg
      exact claimOne_content (congrArg Prod.fst he)
  · next l hc =>
    have hcall : (s.clients c).call? = some (.flush l) := by rw [hc]; rfl
    split at hs
    · next s₁ he =>
      obtain rfl := Option.some.inj hs
      have hs₁ : s₁ = s.claimRest.2 := by rw [he]
      rw [hs₁]
      have hpc : (ClientPc.leave (.flush l)).call? = some (.flush l) := rfl
      exact h.client_move hcall hpc (by simp) rfl rfl rfl rfl rfl
    · next f s₁ he =>
      obtain rfl := Option.some.inj hs
      have hs₁ : s₁ = s.claimRest.2 := by rw [he]
      rw [hs₁]
      refine h.client_move hcall rfl ?_ rfl rfl rfl rfl rfl
      intro g hg
      obtain ⟨-, rfl⟩ := ClientPc.fill.inj hg
      exact claimRest_content (congrArg Prod.fst he)
  · next call f hc =>
    have hcall : (s.clients c).call? = some call := by rw [hc]; rfl
    obtain ⟨h₁, h₂, h₃, h₄, h₅⟩ := fillStep_same (s := s) f
    split at hs
    · next f' s₁ he =>
      obtain rfl := Option.some.inj hs
      have hs₁ : s₁ = (s.fillStep f).2 := by rw [he]
      rw [hs₁]
      have hpc : (ClientPc.fill call f').call? = some call := rfl
      refine h.client_move hcall hpc ?_ (by rw [Channel.setClient, h₁]) h₄ h₅ h₂ h₃
      intro g hg
      obtain ⟨-, rfl⟩ := ClientPc.fill.inj hg
      rw [fillStep_content (congrArg Prod.fst he), h.client c call f hc]
    · next s₁ he =>
      obtain rfl := Option.some.inj hs
      have hs₁ : s₁ = (s.fillStep f).2 := by rw [he]
      rw [hs₁]
      have hpc : (ClientPc.leave call).call? = some call := rfl
      exact h.client_move hcall hpc (by simp) (by rw [Channel.setClient, h₁]) h₄ h₅ h₂ h₃
  · next call hc =>
    have hcall : (s.clients c).call? = some call := by rw [hc]; rfl
    have hleft : ∀ accepted, (∀ t ∈ accepted, t.number < s.calls t.client) →
        (∀ t ∈ accepted, t ∈ s.accepted ∨ t.client = c) →
        Tidy { ({ s with submissions := s.submissions - 1 }.setClient c .idle) with accepted := accepted } := by
      intro accepted hnum hmine
      have hcalls : ∀ c' k, (({ s with submissions := s.submissions - 1 }.setClient c .idle).clients
          c').call? = some k → c' ≠ c ∧ (s.clients c').call? = some k := by
        intro c' k hk
        by_cases hc' : c' = c
        · subst hc'
          simp [Channel.setClient, ClientPc.call?] at hk
        · exact ⟨hc', by simpa [Channel.setClient, hc'] using hk⟩
      refine ⟨?_, h.server, h.closer, fun c' t hk => h.current c' t (hcalls c' _ hk).2, hnum, ?_⟩
      · intro c' call' f hf
        obtain ⟨hne, -⟩ := hcalls c' call' (by rw [show _ = ClientPc.fill call' f from hf]; rfl)
        exact h.client c' call' f (by simpa [Channel.setClient, hne] using hf)
      · intro c' t hk hin
        obtain ⟨hne, hk⟩ := hcalls c' _ hk
        rcases hmine t hin with hold | hnew
        · exact h.inHand c' t hk hold
        · exact hne ((h.current c' t hk).1.symm.trans hnew)
    cases call with
    | enqueue t =>
      obtain rfl := Option.some.inj hs
      obtain ⟨htc, htn⟩ := h.current c t hcall
      apply hleft
      · intro t' ht'
        rcases List.mem_append.mp ht' with hold | hnew
        · exact h.accepted t' hold
        · obtain rfl := List.mem_singleton.mp hnew
          rw [htc]
          omega
      · intro t' ht'
        rcases List.mem_append.mp ht' with hold | hnew
        · exact .inl hold
        · obtain rfl := List.mem_singleton.mp hnew
          exact .inr htc
    | flush l =>
      obtain rfl := Option.some.inj hs
      exact hleft s.accepted h.accepted fun t ht => .inl ht

theorem Tidy.frame (h : Tidy s) (hclients : s'.clients = s.clients) (hcalls : s'.calls = s.calls)
    (haccepted : s'.accepted = s.accepted) (hserver : ∀ f, s'.server.fill? = some f → f.content = none)
    (hcloser : ∀ f, s'.closer.fill? = some f → f.content = none) : Tidy s' where
  client := by rw [hclients]; exact h.client
  server := hserver
  closer := hcloser
  current := by rw [hclients, hcalls]; exact h.current
  accepted := by rw [haccepted, hcalls]; exact h.accepted
  inHand := by rw [hclients, haccepted]; exact h.inHand

theorem Tidy.serverStep (h : Tidy s) (hs : s.serverStep = some s') : Tidy s' := by
  unfold Channel.serverStep at hs
  split at hs
  · obtain rfl := Option.some.inj hs
    refine h.frame rfl rfl rfl ?_ h.closer
    cases s.readyToExecute <;> exact nofun
  · split at hs <;> obtain rfl := Option.some.inj hs <;> exact h.frame rfl rfl rfl nofun h.closer
  · obtain rfl := Option.some.inj hs
    exact h.frame rfl rfl rfl nofun h.closer
  · split at hs
    · obtain rfl := Option.some.inj hs
      exact h.frame rfl rfl rfl nofun h.closer
    · split at hs
      · obtain rfl := Option.some.inj hs
        exact h.frame rfl rfl rfl nofun h.closer
      · split at hs <;> obtain rfl := Option.some.inj hs <;> exact h.frame rfl rfl rfl nofun h.closer
  · obtain rfl := Option.some.inj hs
    exact h.frame rfl rfl rfl nofun h.closer
  · obtain rfl := Option.some.inj hs
    exact h.frame rfl rfl rfl nofun h.closer
  · obtain rfl := Option.some.inj hs
    exact h.frame rfl rfl rfl nofun h.closer
  · obtain rfl := Option.some.inj hs
    refine h.frame rfl rfl rfl ?_ h.closer
    dsimp only
    split <;> exact nofun
  · split at hs <;> obtain rfl := Option.some.inj hs <;> exact h.frame rfl rfl rfl nofun h.closer
  · split at hs
    · next s₁ he =>
      obtain rfl := Option.some.inj hs
      have hs₁ : s₁ = s.claimRest.2 := by rw [he]
      rw [hs₁]
      exact h.frame rfl rfl rfl nofun h.closer
    · next f s₁ he =>
      obtain rfl := Option.some.inj hs
      have hs₁ : s₁ = s.claimRest.2 := by rw [he]
      rw [hs₁]
      refine h.frame rfl rfl rfl ?_ h.closer
      intro g hg
      obtain rfl := Option.some.inj hg
      exact claimRest_content (congrArg Prod.fst he)
  · next f hf =>
    have hcontent : f.content = none := h.server f (by rw [hf]; rfl)
    obtain ⟨h₁, h₂, h₃, -, h₅⟩ := fillStep_same (s := s) f
    split at hs
    · next f' s₁ he =>
      obtain rfl := Option.some.inj hs
      have hs₁ : s₁ = (s.fillStep f).2 := by rw [he]
      rw [hs₁]
      refine h.frame h₁ h₂ h₃ ?_ (by rw [h₅]; exact h.closer)
      intro g hg
      obtain rfl := Option.some.inj hg
      exact (fillStep_content (congrArg Prod.fst he)).trans hcontent
    · next s₁ he =>
      obtain rfl := Option.some.inj hs
      have hs₁ : s₁ = (s.fillStep f).2 := by rw [he]
      rw [hs₁]
      exact h.frame h₁ h₂ h₃ nofun (by rw [h₅]; exact h.closer)
  · obtain rfl := Option.some.inj hs
    exact h.frame rfl rfl rfl nofun h.closer
  · cases hs

theorem Tidy.closerStep (h : Tidy s) (hs : s.closerStep = some s') : Tidy s' := by
  unfold Channel.closerStep at hs
  split at hs
  · obtain rfl := Option.some.inj hs
    exact h.frame rfl rfl rfl h.server nofun
  · obtain rfl := Option.some.inj hs
    split
    · exact h.frame rfl rfl rfl h.server nofun
    · exact h
  · split at hs
    · next s₁ he =>
      obtain rfl := Option.some.inj hs
      have hs₁ : s₁ = s.claimRest.2 := by rw [he]
      rw [hs₁]
      exact h.frame rfl rfl rfl h.server nofun
    · next f s₁ he =>
      obtain rfl := Option.some.inj hs
      have hs₁ : s₁ = s.claimRest.2 := by rw [he]
      rw [hs₁]
      refine h.frame rfl rfl rfl h.server ?_
      intro g hg
      obtain rfl := Option.some.inj hg
      exact claimRest_content (congrArg Prod.fst he)
  · next f hf =>
    have hcontent : f.content = none := h.closer f (by rw [hf]; rfl)
    obtain ⟨h₁, h₂, h₃, h₄, -⟩ := fillStep_same (s := s) f
    split at hs
    · next f' s₁ he =>
      obtain rfl := Option.some.inj hs
      have hs₁ : s₁ = (s.fillStep f).2 := by rw [he]
      rw [hs₁]
      refine h.frame h₁ h₂ h₃ (by rw [h₄]; exact h.server) ?_
      intro g hg
      obtain rfl := Option.some.inj hg
      exact (fillStep_content (congrArg Prod.fst he)).trans hcontent
    · next s₁ he =>
      obtain rfl := Option.some.inj hs
      have hs₁ : s₁ = (s.fillStep f).2 := by rw [he]
      rw [hs₁]
      exact h.frame h₁ h₂ h₃ (by rw [h₄]; exact h.server) nofun
  · obtain rfl := Option.some.inj hs
    exact h.frame rfl rfl rfl h.server nofun
  · split at hs
    · obtain rfl := Option.some.inj hs
      exact h.frame rfl rfl rfl h.server nofun
    · cases hs
  · cases hs

-- Runs

/-- One step of one thread, with room left in `available_index`. -/
def Channel.Next (s s' : Channel) : Prop := s.IndexLeft ∧ ∃ action, s.step action = some s'

/-- The states of the runs of a new channel. -/
def Channel.Reached (s : Channel) : Prop := Relation.ReflTransGen Channel.Next Channel.new s

theorem Inv.step {action : Channel.Action} (h : Inv s planned owner inside) (hleft : s.IndexLeft)
    (hs : s.step action = some s') : Good s' := by
  cases action with
  | begin c request => exact h.begin s' hs
  | server => exact h.server hleft s' hs
  | closer => exact h.closer hleft s' hs
  | client c =>
    cases hc : s.clients c with
    | idle => simp [Channel.step, Channel.clientStep, hc] at hs
    | claim call =>
      cases call with
      | enqueue t => exact h.client_enqueue hc hleft s' hs
      | flush l => exact h.client_flush hc hleft s' hs
    | fill call f => exact h.client_fill hc s' hs
    | leave call => exact h.client_leave hc s' hs

theorem Tidy.step {action : Channel.Action} (h : Tidy s) (hs : s.step action = some s') : Tidy s' := by
  cases action with
  | begin c request => exact h.begin hs
  | client c => exact h.clientStep hs
  | server => exact h.serverStep hs
  | closer => exact h.closerStep hs

theorem Inv.new : Inv Channel.new [] (fun _ => .free) ∅ := by
  have hfills : ∀ w, Channel.new.fills w = none := by
    intro w
    cases w <;> rfl
  refine ⟨⟨fun hs => absurd rfl hs, fun _ => rfl, by simp, ?_, ?_, ?_, ?_, ?_, nofun, fun _ => rfl⟩,
    ⟨rfl, trivial, nofun, nofun, nofun⟩, ⟨fun c => rfl, nofun, nofun, nofun, nofun⟩,
    ⟨?_, rfl, fun hr => absurd rfl hr, fun hq => hq.elim, nofun, fun hf => hf.elim, nofun, nofun⟩⟩
  · intro w i
    simp [Channel.view, hfills w]
  · intro w f hf
    rw [show Channel.new.view.fills w = none from hfills w] at hf
    cases hf
  · intro w f b hf
    rw [show Channel.new.view.fills w = none from hfills w] at hf
    cases hf
  · intro w f i hf
    rw [show Channel.new.view.fills w = none from hfills w] at hf
    cases hf
  · intro w f i hf
    rw [show Channel.new.view.fills w = none from hfills w] at hf
    cases hf
  · intro w
    cases w <;> simp [Channel.Inside, Channel.new, ServerPc.fill?]

theorem Tidy.new : Tidy Channel.new := ⟨nofun, nofun, nofun, nofun, nofun, nofun⟩

theorem Channel.Reached.inv (h : s.Reached) : Good s ∧ Tidy s := by
  induction h with
  | refl => exact ⟨⟨_, _, _, Inv.new⟩, Tidy.new⟩
  | tail _ hnext ih =>
    obtain ⟨hleft, action, hs⟩ := hnext
    obtain ⟨⟨planned, owner, inside, hinv⟩, htidy⟩ := ih
    exact ⟨hinv.step hleft hs, htidy.step hs⟩

/-- What the channel promises in a state. -/
structure Delivers (s : Channel) : Prop where
  once : (s.executed.filterMap id).Nodup
  inOrder : ∀ c, ∃ n, tasksOf c s.executed = (List.range n).map (TaskId.mk c)
  exclusive : ∀ slot, s.server = .execute slot →
    ∀ w f b, s.fills w = some f → f.loaded = some b → b ≠ !s.clientBuf
  kept : ∀ t ∈ s.accepted, some t ∈ s.executed ∨ some t ∈ s.remaining ∨
    ∃ i, i < min s.availableIndex channelMaxTask ∧ s.slots s.clientBuf i = some t
  flushed : ∀ c l, s.clients c = .leave (.flush l) → ∀ t ∈ l,
    some t ∈ s.executed ∨ some t ∈ s.remaining ∨ channelMaxTask ≤ s.availableIndex
  complete : s.closer = .done → ∀ t ∈ s.accepted, (s.executed.filterMap id).count t = 1

theorem Inv.tasksOf_executed (h : Inv s planned owner inside) (c : Nat) :
    ∃ n, tasksOf c s.executed = (List.range n).map (TaskId.mk c) := by
  have horder := h.ordered.order c
  rw [Channel.handed, List.append_assoc, tasksOf_append] at horder
  have hprefix : tasksOf c s.executed <+: (List.range (s.claimedCalls c)).map (TaskId.mk c) :=
    ⟨_, horder⟩
  refine ⟨min (tasksOf c s.executed).length (s.claimedCalls c), ?_⟩
  rw [List.prefix_iff_eq_take.mp hprefix, ← List.map_take, List.take_range]
  simp

theorem Inv.executed_nodup (h : Inv s planned owner inside) : (s.executed.filterMap id).Nodup := by
  rw [List.nodup_iff_count_le_one]
  intro t
  obtain ⟨n, hn⟩ := h.tasksOf_executed t.client
  have hcount : (s.executed.filterMap id).count t = (tasksOf t.client s.executed).count t := by
    rw [tasksOf, List.count_filter (by simp)]
  have hnodup : (tasksOf t.client s.executed).Nodup := by
    rw [hn]
    exact List.nodup_range.map fun a b hab => (TaskId.mk.inj hab).2
  rw [hcount]
  exact List.nodup_iff_count_le_one.mp hnodup t

theorem Inv.in_slot (h : Inv s planned owner inside) (ht : Tidy s) {t : TaskId} (hacc : t ∈ s.accepted)
    (hplanned : some t ∈ planned) :
    ∃ i, i < min s.availableIndex channelMaxTask ∧ s.slots s.clientBuf i = some t := by
  obtain ⟨i, hi⟩ := List.mem_iff_getElem?.mp hplanned
  have hlt : i < planned.length := (List.getElem?_eq_some_iff.mp hi).1
  have hswap : s.view.swap = .none := by
    by_contra hs
    rw [(h.slots.swapping hs).1] at hlt
    exact Nat.not_lt_zero _ hlt
  refine ⟨i, hlt.trans_eq (h.slots.claimed hswap), ?_⟩
  cases ho : owner i with
  | free => exact absurd ho ((h.slots.owned i).mpr hlt)
  | published =>
    have hp := h.slots.published i ho
    rw [hi] at hp
    exact (Option.some.inj hp).symm
  | held w =>
    -- a thread still writing has a task that is not accepted, or a no-op
    obtain ⟨f, hf, h₁, h₂⟩ := (h.slots.held w i).mp ho
    have hcontent := h.slots.content w f i hf h₁ h₂
    rw [hi] at hcontent
    have hft : f.content = some t := (Option.some.inj hcontent).symm
    cases w with
    | client c =>
      have hf : (s.clients c).fill? = some f := hf
      cases hc : s.clients c <;> rw [hc] at hf <;> simp [ClientPc.fill?] at hf
      next call f' =>
      subst hf
      have hcall := ht.client c call f' hc
      rw [hft] at hcall
      cases call with
      | enqueue t' =>
        obtain rfl : t = t' := Option.some.inj hcall
        exact absurd hacc (ht.inHand c t (by rw [hc]; rfl))
      | flush l => cases hcall
    | server =>
      rw [ht.server f hf] at hft
      cases hft
    | closer =>
      rw [ht.closer f hf] at hft
      cases hft

theorem Inv.delivers (h : Inv s planned owner inside) (ht : Tidy s) : Delivers s where
  once := h.executed_nodup
  inOrder := h.tasksOf_executed
  exclusive _ _ w f b hf hb := by
    have hbuf : b = s.clientBuf := h.slots.loaded w f b hf hb
    rw [hbuf]
    cases s.clientBuf <;> decide
  kept t hacc := by
    have hmem := h.ordered.mem (h.ordered.accepted t hacc)
    rw [Channel.handed, List.mem_append, List.mem_append] at hmem
    rcases hmem with (hexec | hrem) | hplanned
    · exact .inl hexec
    · exact .inr (.inl hrem)
    · exact .inr (.inr (h.in_slot ht hacc hplanned))
  flushed c l hc t htl := by
    have hf := h.ordered.flushed c l (by rw [hc]; rfl) t htl
    rw [Channel.handed, List.mem_append] at hf
    exact or_assoc.mp hf
  complete hd t hacc := by
    have hexited := h.closing.done hd
    have hready := h.serving.ready
    rw [hexited] at hready
    have hmem := h.ordered.mem (h.ordered.accepted t hacc)
    rw [(h.serving.exited hexited).2, List.append_nil, handed_of_not_ready hready] at hmem
    exact List.count_eq_one_of_mem h.executed_nodup (List.mem_filterMap.mpr ⟨_, hmem, rfl⟩)

end

-- Single runs

namespace Channel

/-- Whether every action is possible, with room left in `available_index`. -/
def roomy (s : Channel) : List Action → Bool
  | [] => true
  | action :: actions =>
    decide (s.availableIndex + channelMaxTask ≤ u32Max) &&
      match s.step action with
      | some s' => s'.roomy actions
      | none => false

theorem Reached.of_roomy {s : Channel} {actions : List Action} (h : s.Reached)
    (hr : s.roomy actions = true) : ∃ s', s.run actions = some s' ∧ s'.Reached := by
  induction actions generalizing s with
  | nil => exact ⟨s, rfl, h⟩
  | cons action actions ih =>
    rw [roomy, Bool.and_eq_true, decide_eq_true_iff] at hr
    obtain ⟨hleft, hrest⟩ := hr
    cases hs : s.step action with
    | none => simp [hs] at hrest
    | some s₁ =>
      rw [hs] at hrest
      obtain ⟨s', hs', hreach⟩ := ih (Relation.ReflTransGen.tail h ⟨hleft, action, hs⟩) hrest
      exact ⟨s', by rw [run, hs]; exact hs', hreach⟩

/-- A client enqueues a task into an empty buffer. -/
def enqueueOne (c : Nat) : List Action := .begin c .enqueue :: List.replicate 5 (.client c)

/-- A client fills the rest of a buffer that has one task, up to its return. -/
def flushRest (c : Nat) : List Action := .begin c .flush :: List.replicate 64 (.client c)

/-- Flushes of a client that finds the buffer full. -/
def flushFull (c : Nat) : Nat → List Action
  | 0 => []
  | n + 1 => [.begin c .flush, .client c, .client c] ++ flushFull c n

theorem run_append (s : Channel) (l₁ l₂ : List Action) :
    s.run (l₁ ++ l₂) = (s.run l₁).bind fun s' => s'.run l₂ := by
  induction l₁ generalizing s with
  | nil => rfl
  | cons action l₁ ih =>
    rw [List.cons_append, run, run]
    cases s.step action with
    | none => rfl
    | some s' => exact ih s'

theorem run_flush_full (s : Channel) (c : Nat) (hc : s.clients c = .idle) (hclosed : s.closed = false)
    (hfull : channelMaxTask ≤ s.availableIndex) :
    s.run [.begin c .flush, .client c, .client c] =
      some { s with availableIndex := wrap32 (s.availableIndex + channelMaxTask) } := by
  have hclaim : ∀ s' : Channel, s'.availableIndex = s.availableIndex → s'.claimRest = (none,
      { s' with availableIndex := wrap32 (s.availableIndex + channelMaxTask) }) := by
    intro s' ha
    have hnone : s'.claimRest.1 = none := if_pos (ha ▸ hfull)
    refine Prod.ext hnone ?_
    show { s' with availableIndex := wrap32 (s'.availableIndex + channelMaxTask) } = _
    rw [ha]
  have hself : Function.update s.clients c ClientPc.idle = s.clients := by
    rw [← hc, Function.update_eq_self]
  simp [run, step, begin, clientStep, hc, hclosed, hclaim, setClient, hself]

theorem run_flushFull (s : Channel) (c n : Nat) (hc : s.clients c = .idle) (hclosed : s.closed = false)
    (hfull : channelMaxTask ≤ s.availableIndex)
    (hle : s.availableIndex + channelMaxTask * n ≤ u32Max) :
    s.run (flushFull c n) = some { s with availableIndex := s.availableIndex + channelMaxTask * n } := by
  induction n generalizing s with
  | zero => rfl
  | succ n ih =>
    have hone : s.availableIndex + channelMaxTask ≤ u32Max := by
      unfold channelMaxTask at hle ⊢
      omega
    have hsum : s.availableIndex + channelMaxTask * (n + 1) =
        s.availableIndex + channelMaxTask + channelMaxTask * n := by
      rw [Nat.mul_succ]
      omega
    have hrest := ih { s with availableIndex := s.availableIndex + channelMaxTask } hc hclosed
      (hfull.trans (Nat.le_add_right _ _)) (hsum ▸ hle)
    rw [flushFull, run_append, run_flush_full s c hc hclosed hfull, wrap32_of_le hone, hsum]
    exact hrest

end Channel

/-- A task of client 0 and a flush fill the buffer. The server does not run, and
client 1 tries in vain to enqueue: the index stands at 64. -/
def overfull : List Channel.Action :=
  Channel.enqueueOne 0 ++ Channel.flushRest 0 ++ [.client 0, .begin 1 .enqueue] ++
    List.replicate 31 (.client 1)

/-- Client 1 goes on, the server runs the buffer, and the channel is shut down. -/
def shutDown : List Channel.Action :=
  List.replicate 5 (.client 1) ++ List.replicate 43 .server ++ List.replicate 69 .closer ++
    List.replicate 41 .server ++ [.closer]

/-- The state `overfull` leads to. -/
def overfullState : Channel := (Channel.new.run overfull).getD Channel.new

theorem run_overfull : Channel.new.run overfull = some overfullState := by
  have hsome : (Channel.new.run overfull).isSome = true := by decide +kernel
  rw [overfullState]
  exact (Option.some_get hsome).symm.trans (congrArg some (Option.get_eq_getD _))

/-- Flushes that find the buffer full, until the index has wrapped to zero. -/
def wrapAround : List Channel.Action :=
  Channel.flushFull 2 (2 ^ 27 - 3) ++ [.begin 2 .flush, .client 2, .client 2]

theorem run_wrapAround {s : Channel} (hindex : s.availableIndex = 64) (hidle : s.clients 2 = .idle)
    (hopen : s.closed = false) : s.run wrapAround = some { s with availableIndex := 0 } := by
  have hmost := s.run_flushFull 2 (2 ^ 27 - 3) hidle hopen (by rw [hindex]; decide)
    (by rw [hindex]; decide)
  have hlast := Channel.run_flush_full
    { s with availableIndex := s.availableIndex + channelMaxTask * (2 ^ 27 - 3) } 2 hidle hopen
    (by show channelMaxTask ≤ s.availableIndex + channelMaxTask * (2 ^ 27 - 3)
        rw [hindex]
        decide)
  have hwrap : wrap32 (64 + channelMaxTask * (2 ^ 27 - 3) + channelMaxTask) = 0 := by decide
  rw [wrapAround, Channel.run_append, hmost, Option.bind_some, hlast, hindex, hwrap]

end Ruda.Device
