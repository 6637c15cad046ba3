import Ruda.Passes.CompositeGroups

/-!
# When merging component writes changes nothing

The pass over a block of groups that are right keeps every run of it. It looks at reads
only, so that another write of the local in between, or a component written twice, gives
another vector.
-/

namespace Ruda.BasicBlock

variable {E C O V W : Type} [AsU32 C]

-- What the pass writes

omit [AsU32 C] in
theorem foldl_set_none (group : List (Assignment E C)) (ops : Ops E C O) (idx : Nat) :
    (group.foldl (fun ops assignment => ops.set assignment.idx none) ops)[idx]? =
      if (∃ a ∈ group, a.idx = idx) ∧ idx < ops.length then some none else ops[idx]? := by
  induction group generalizing ops with
  | nil => simp
  | cons a group ih =>
    rw [List.foldl_cons, ih, List.length_set]
    by_cases ha : a.idx = idx
    · subst ha
      by_cases hlt : a.idx < ops.length
      · simp [hlt]
      · simp [hlt]
    · simp [ha]

omit [AsU32 C] in
theorem foldl_set_length (group : List (Assignment E C)) (ops : Ops E C O) :
    (group.foldl (fun ops assignment => ops.set assignment.idx none) ops).length = ops.length := by
  induction group generalizing ops with
  | nil => rfl
  | cons a group ih => rw [List.foldl_cons, ih, List.length_set]

theorem foldl_max_le (l : List Nat) (start bound : Nat) (hs : start ≤ bound) (hl : ∀ n ∈ l, n ≤ bound) :
    l.foldl max start ≤ bound := by
  induction l generalizing start with
  | nil => exact hs
  | cons n l ih =>
    rw [List.forall_mem_cons] at hl
    exact ih _ (max_le hs hl.1) hl.2

omit [AsU32 C] in
theorem foldl_max_last (group : List (Assignment E C)) (a : Assignment E C) (h : ∀ b ∈ group, b.idx ≤ a.idx) :
    ((group ++ [a]).map (·.idx)).foldl max 0 = a.idx := by
  rw [List.map_append, List.foldl_append]
  exact max_eq_right (foldl_max_le _ _ _ (Nat.zero_le _) fun n hn => by
    obtain ⟨b, hb, rfl⟩ := List.mem_map.mp hn
    exact h b hb)

omit [AsU32 C] in
theorem mergeAssigns_getElem? {ops : Ops E C O} {front : List (Assignment E C)} {a : Assignment E C} {id : Id}
    {item : Ty E} (hfront : ∀ b ∈ front, b.idx ≤ a.idx) (hlt : a.idx < ops.length) (idx : Nat) :
    (mergeAssigns ops (front ++ [a]) id item)[idx]? =
      if idx = a.idx then some (some (constructor id item (front ++ [a])))
      else if ∃ b ∈ front ++ [a], b.idx = idx then some none else ops[idx]? := by
  have hlast := foldl_max_last front a hfront
  simp only [mergeAssigns, hlast]
  split
  · rename_i he
    subst he
    exact List.getElem?_set_self (by rwa [foldl_set_length])
  · rename_i hne
    rw [List.getElem?_set_ne (Ne.symm hne), foldl_set_none]
    by_cases hb : ∃ b ∈ front ++ [a], b.idx = idx
    · obtain ⟨b, hb', rfl⟩ := hb
      have hle : b.idx ≤ a.idx := by
        rcases List.mem_append.mp hb' with hf | hf
        · exact hfront b hf
        · rw [List.mem_singleton.mp hf]
      rw [if_pos ⟨⟨b, hb', rfl⟩, by omega⟩, if_pos ⟨b, hb', rfl⟩]
    · rw [if_neg (fun hc => hb hc.1), if_neg hb]

-- The whole block

theorem mem_record {idx : Nat} {inst : Instruction E C O} {assigns : Id → List (Assignment E C)} {id : Id}
    {a : Assignment E C} (h : a ∈ record idx inst assigns id) :
    a ∈ assigns id ∨ a.idx = idx ∧ ∃ item, componentWrite inst = some (id, item, a.index, a.value) := by
  have hreset : ∀ {b}, b ∈ resetReads inst.operation assigns id → b ∈ assigns id := fun {b} hb => by
    unfold resetReads at hb
    split at hb
    · cases hb
    · exact hb
  unfold record at h
  cases hc : componentWrite inst with
  | none =>
    rw [hc] at h
    exact .inl (hreset h)
  | some found =>
    obtain ⟨id', item, index, value⟩ := found
    simp only [hc] at h
    split at h
    · by_cases hid : id = id'
      · subst hid
        rw [Function.update_self] at h
        split at h
        · cases h
        · rcases List.mem_append.mp h with hm | hm
          · exact .inl (hreset hm)
          · rw [List.mem_singleton] at hm
            subst hm
            exact .inr ⟨rfl, item, rfl⟩
      · rw [Function.update_of_ne hid] at h
        exact .inl (hreset h)
    · exact .inl (hreset h)

theorem pendingAt_succ {block : Ops E C O} {k : Nat} {inst : Instruction E C O} (hi : block[k]? = some (some inst)) :
    pendingAt block (k + 1) = record k inst (pendingAt block k) := by
  simp only [pendingAt, hi]

theorem pendingAt_hole {block : Ops E C O} {k : Nat} (hi : ∀ inst, block[k]? ≠ some (some inst)) :
    pendingAt block (k + 1) = pendingAt block k := by
  match h : block[k]? with
  | none => simp only [pendingAt, h]
  | some none => simp only [pendingAt, h]
  | some (some inst) => exact absurd h (hi inst)

theorem mem_pendingAt {block : Ops E C O} {k : Nat} {id : Id} {a : Assignment E C} (h : a ∈ pendingAt block k id) :
    a.idx < k ∧ ∃ inst item, block[a.idx]? = some (some inst) ∧
      componentWrite inst = some (id, item, a.index, a.value) := by
  induction k with
  | zero => cases h
  | succ k ih =>
    by_cases hi : ∃ inst, block[k]? = some (some inst)
    · obtain ⟨inst, hi⟩ := hi
      rw [pendingAt_succ hi] at h
      rcases mem_record h with hm | ⟨rfl, item, hc⟩
      · exact ⟨Nat.lt_succ_of_lt (ih hm).1, (ih hm).2⟩
      · exact ⟨Nat.lt_succ_self _, inst, item, hi, hc⟩
    · push Not at hi
      rw [pendingAt_hole hi] at h
      exact ⟨Nat.lt_succ_of_lt (ih h).1, (ih h).2⟩

/-- The pass in front of a place: it has kept the block and not touched what is ahead or
pending, and its instructions touch no local that the block's do not. -/
structure Invariant [DecidableEq C] (m : Semantics E C O V W) (block : Ops E C O) (k : Nat)
    (st : CompositeMerge E C O) : Prop where
  length : st.ops.length = block.length
  ahead : ∀ idx, k ≤ idx → st.ops[idx]? = block[idx]?
  keeps : Keeps m block st.ops
  assigns : st.assigns = pendingAt block k
  pending : ∀ id, ∀ a ∈ pendingAt block k id, st.ops[a.idx]? = block[a.idx]?
  origin : ∀ (idx : Nat) (inst' : Instruction E C O), st.ops[idx]? = some (some inst') →
    ∃ inst : Instruction E C O, block[idx]? = some (some inst) ∧
    (∀ kind, inst'.writes kind → inst.writes kind) ∧ ∀ id, inst'.reads (.localMut id) → inst.reads (.localMut id)

namespace Invariant

variable [DecidableEq C] {m : Semantics E C O V W} {block : Ops E C O} {k : Nat} {st : CompositeMerge E C O}
  {inst : Instruction E C O}

theorem init (block : Ops E C O) (variableTypes : Id → Option (Ty E)) (changes : Nat) :
    Invariant m block 0 ⟨block, fun _ => [], variableTypes, changes⟩ where
  length := rfl
  ahead _ _ := rfl
  keeps := .refl block
  assigns := rfl
  pending _ _ _ := rfl
  origin _ inst' hi := ⟨inst', hi, fun _ hw => hw, fun _ hr => hr⟩

theorem skip (h : Invariant m block k st) (hi : ∀ inst, block[k]? ≠ some (some inst)) :
    Invariant m block (k + 1) st := by
  have hp : pendingAt block (k + 1) = pendingAt block k := pendingAt_hole hi
  exact { h with ahead := fun idx hidx => h.ahead idx (by omega), assigns := hp ▸ h.assigns, pending := hp ▸ h.pending }

theorem stay (h : Invariant m block k st) (hi : block[k]? = some (some inst)) {st' : CompositeMerge E C O}
    (hops : st'.ops = st.ops) (hassigns : st'.assigns = record k inst (pendingAt block k)) :
    Invariant m block (k + 1) st' where
  length := hops ▸ h.length
  ahead idx hidx := hops ▸ h.ahead idx (by omega)
  keeps := hops ▸ h.keeps
  assigns := hassigns.trans (pendingAt_succ hi).symm
  pending id a ha := by
    rw [pendingAt_succ hi] at ha
    rw [hops]
    rcases mem_record ha with hm | ⟨rfl, -⟩
    · exact h.pending id a hm
    · exact h.ahead _ le_rfl
  origin := hops ▸ h.origin

theorem scalar (h : Invariant m block k st) (hi : block[k]? = some (some inst)) {id : Id} {item : Ty E}
    {value : Variable E C} (hc : componentWrite inst = some (id, item, 0, value)) (hv : item.vectorSize ≤ 1)
    {st' : CompositeMerge E C O} (hops : st'.ops = st.ops.set k (some ⟨.copy value, some ⟨.localMut id, item⟩⟩))
    (hassigns : st'.assigns = resetReads inst.operation (pendingAt block k)) : Invariant m block (k + 1) st' := by
  have hk : st.ops[k]? = some (some inst) := (h.ahead k le_rfl).trans hi
  have hrecord : record k inst (pendingAt block k) = resetReads inst.operation (pendingAt block k) := by
    simp only [record, hc, if_neg (Nat.not_lt.mpr hv)]
  have hexec : ∀ s, m.exec ⟨.copy value, some ⟨.localMut id, item⟩⟩ s = m.exec inst s := by
    intro s
    rw [exec_componentWrite m hc]
    simp only [Semantics.exec, Semantics.outValue, Semantics.worldAfter, State.arg, State.mk.injEq, and_true,
      max_eq_right hv]
    congr 1
    funext lane
    rcases Nat.eq_zero_or_pos lane with rfl | hl
    · rw [Function.update_self, if_pos Nat.zero_lt_one]
    · rw [Function.update_of_ne (by omega), if_neg (by omega)]
  refine ⟨?_, fun idx hidx => ?_, ?_, ?_, fun id' a ha => ?_, fun idx inst' hi' => ?_⟩
  · rw [hops, List.length_set, h.length]
  · rw [hops, List.getElem?_set_ne (by omega), h.ahead idx (by omega)]
  · exact hops ▸ h.keeps.trans (.set hk (componentWrite_reads hc) hexec)
  · rw [hassigns, pendingAt_succ hi, hrecord]
  · have ha' : a ∈ pendingAt block k id' := by
      rw [pendingAt_succ hi, hrecord] at ha
      unfold resetReads at ha
      split at ha
      · cases ha
      · exact ha
    rw [hops, List.getElem?_set_ne (by have := (mem_pendingAt ha').1; omega), h.pending id' a ha']
  · rw [hops] at hi'
    by_cases hidx : k = idx
    · subst hidx
      rw [List.getElem?_set_self (List.getElem?_eq_some_iff.mp hk).1, Option.some_inj, Option.some_inj] at hi'
      subst hi'
      refine ⟨inst, hi, fun kind hw => ?_, fun other hr => ?_⟩
      · obtain ⟨out, ho, hkind⟩ := hw
        cases ho
        exact (componentWrite_writes hc).mpr hkind.symm
      · obtain ⟨-, -, -, -, -, hx⟩ := componentWrite_eq hc
        obtain ⟨var, hvar, hkind⟩ := hr
        rw [Operation.args, List.mem_singleton] at hvar
        exact absurd (hvar ▸ hkind) (Variable.isImmutable_ne hx other)
    · rw [List.getElem?_set_ne hidx] at hi'
      exact h.origin idx inst' hi'

theorem merge (h : Invariant m block k st) {id : Id} {item : Ty E} {index : Nat} {value : Variable E C}
    {group : List (Assignment E C)} (hi : block[k]? = some (some inst))
    (hc : componentWrite inst = some (id, item, index, value))
    (hgroup : group = resetReads inst.operation (pendingAt block k) id ++ [⟨k, index, value⟩])
    (hcons : Consecutive block k id item group) : Merge st.ops (mergeAssigns st.ops group id item) k id item group := by
  have hk : st.ops[k]? = some (some inst) := (h.ahead k le_rfl).trans hi
  have hfront : ∀ b ∈ resetReads inst.operation (pendingAt block k) id, b ∈ pendingAt block k id := fun b hb => by
    unfold resetReads at hb
    split at hb
    · cases hb
    · exact hb
  have hmem : ∀ a ∈ group, a ∈ pendingAt block k id ∨ a = ⟨k, index, value⟩ := by
    intro a ha
    rw [hgroup, List.mem_append, List.mem_singleton] at ha
    exact ha.imp_left (hfront a)
  have hle : ∀ a ∈ group, a.idx ≤ k := fun a ha => by
    rcases hmem a ha with hp | rfl
    · exact (mem_pendingAt hp).1.le
    · exact le_rfl
  have hget := fun idx => @mergeAssigns_getElem? _ _ _ st.ops _ ⟨k, index, value⟩ id item
    (fun b hb => (mem_pendingAt (hfront b hb)).1.le) (List.getElem?_eq_some_iff.mp hk).1 idx
  simp only [← hgroup] at hget
  refine ⟨?_, ⟨_, hgroup ▸ List.mem_append_right _ (List.mem_singleton_self _), rfl⟩, hle, fun a ha => ?_, ?_,
    fun a ha hne => ?_, ?_, fun idx hidx => ?_⟩
  · rw [mergeAssigns, List.length_set, foldl_set_length]
  · rcases hmem a ha with hp | rfl
    · obtain ⟨-, inst', item', hi', hc'⟩ := mem_pendingAt hp
      exact ⟨inst', item', (h.pending id a hp).trans hi', hc'⟩
    · exact ⟨inst, item, hk, hc⟩
  · refine ⟨hcons.components, fun idx inst' hi' hlt hstarted hidx => ?_⟩
    obtain ⟨inst₀, hi₀, hw₀, hr₀⟩ := h.origin idx inst' hi'
    obtain ⟨hr, hw, hv⟩ := hcons.alone idx inst₀ hi₀ hlt hstarted hidx
    exact ⟨fun hc => hr (hr₀ id hc), fun hc => hw (hw₀ _ hc), fun a ha hc => hv a ha (hw₀ _ hc)⟩
  · rw [hget, if_neg hne, if_pos ⟨a, ha, rfl⟩]
  · rw [hget, if_pos rfl]
  · have hne : idx ≠ k := by
      rintro rfl
      exact hidx _ (hgroup ▸ List.mem_append_right _ (List.mem_singleton_self _)) rfl
    rw [hget, if_neg hne, if_neg (by rintro ⟨b, hb, hbi⟩; exact hidx b hb hbi)]

theorem merged (h : Invariant m block k st) {id : Id} {item : Ty E} {index : Nat} {value : Variable E C}
    {group : List (Assignment E C)} (hi : block[k]? = some (some inst))
    (hc : componentWrite inst = some (id, item, index, value)) (hv : 1 < item.vectorSize)
    (hgroup : group = resetReads inst.operation (pendingAt block k) id ++ [⟨k, index, value⟩])
    (hlen : group.length = item.vectorSize) (hcons : Consecutive block k id item group)
    {st' : CompositeMerge E C O} (hops : st'.ops = mergeAssigns st.ops group id item)
    (hassigns : st'.assigns = Function.update (resetReads inst.operation (pendingAt block k)) id []) :
    Invariant m block (k + 1) st' := by
  have hm := h.merge hi hc hgroup hcons
  have hrecord : record k inst (pendingAt block k) =
      Function.update (resetReads inst.operation (pendingAt block k)) id [] := by
    simp only [record, hc, if_pos hv, ← hgroup, if_pos hlen]
  refine ⟨?_, fun idx hidx => ?_, ?_, ?_, fun id' a ha => ?_, fun idx inst' hi' => ?_⟩
  · rw [hops, hm.length, h.length]
  · rw [hops, hm.other idx fun a ha => by have := hm.le_last a ha; omega]
    exact h.ahead idx (by omega)
  · exact hops ▸ h.keeps.trans hm.keeps
  · rw [hassigns, pendingAt_succ hi, hrecord]
  · rw [pendingAt_succ hi] at ha
    have hid : id' ≠ id := by
      rintro rfl
      rw [hrecord, Function.update_self] at ha
      cases ha
    rcases mem_record ha with hp | ⟨rfl, item', hc'⟩
    · obtain ⟨-, inst', item', hi', hc'⟩ := mem_pendingAt hp
      have hother : ∀ b ∈ group, b.idx ≠ a.idx := by
        intro b hb he
        obtain ⟨inst'', item'', hi'', hc''⟩ := hm.write b hb
        rw [he, h.pending id' a hp, hi', Option.some_inj, Option.some_inj] at hi''
        rw [hi'', hc'', Option.some_inj] at hc'
        exact hid (Prod.mk.inj hc').1.symm
      rw [hops, hm.other _ hother, h.pending id' a hp]
    · rw [hc, Option.some_inj] at hc'
      exact absurd (Prod.mk.inj hc').1.symm hid
  · rw [hops] at hi'
    by_cases hidx : ∃ a ∈ group, a.idx = idx
    · obtain ⟨a, ha, rfl⟩ := hidx
      by_cases hlast : a.idx = k
      · rw [hlast] at hi' ⊢
        rw [hm.merged, Option.some_inj, Option.some_inj] at hi'
        subst hi'
        refine ⟨inst, hi, fun kind hw => ?_, fun other hr => ?_⟩
        · obtain ⟨out, ho, hkind⟩ := hw
          cases ho
          exact (componentWrite_writes hc).mpr hkind.symm
        · obtain ⟨var, hvar, hkind⟩ := hr
          obtain ⟨b, hb, rfl⟩ := List.mem_map.mp hvar
          exact absurd hkind (hm.value_ne (List.mem_mergeSort.mp hb) other)
      · rw [hm.dropped a ha hlast] at hi'
        cases hi'
    · push Not at hidx
      rw [hm.other idx hidx] at hi'
      exact h.origin idx inst' hi'

theorem step (h : Invariant m block k st) (hb : Mergeable block) (hi : block[k]? = some (some inst)) :
    ∃ st', st.step k = some st' ∧ Invariant m block (k + 1) st' := by
  have hk : st.ops[k]? = some (some inst) := (h.ahead k le_rfl).trans hi
  cases hc : componentWrite inst with
  | none =>
    refine ⟨_, CompositeMerge.step_other hk hc, h.stay hi rfl ?_⟩
    simp only [record, hc, h.assigns]
  | some found =>
    obtain ⟨id, item, index, value⟩ := found
    by_cases hv : item.vectorSize > 1
    · obtain ⟨group, hgroup⟩ : ∃ group, group = resetReads inst.operation (pendingAt block k) id ++
          [(⟨k, index, value⟩ : Assignment E C)] := ⟨_, rfl⟩
      have hp : resetReads inst.operation st.assigns id ++ [⟨k, index, value⟩] = group := by rw [h.assigns, hgroup]
      by_cases hlen : group.length = item.vectorSize
      · have hcons := hb.groups k id item group ⟨inst, index, value, hi, hc, hv, hgroup, hlen⟩
        exact ⟨_, CompositeMerge.step_full hk hc hv hp hlen,
          h.merged hi hc hv hgroup hlen hcons rfl (by rw [h.assigns])⟩
      · refine ⟨_, CompositeMerge.step_pending hk hc hv hp hlen, h.stay hi rfl ?_⟩
        simp only [record, hc, if_pos hv, ← hgroup, if_neg hlen, h.assigns]
    · have hzero := hb.scalars k inst id item index value hi hc (Nat.le_of_not_lt hv)
      subst hzero
      exact ⟨_, CompositeMerge.step_scalar hk hc hv, h.scalar hi hc (Nat.le_of_not_lt hv) rfl (by rw [h.assigns])⟩

end Invariant

theorem Mergeable.invariant [DecidableEq C] (m : Semantics E C O V W) {block : Ops E C O} (hb : Mergeable block)
    (variableTypes : Id → Option (Ty E)) (changes : Nat) (k : Nat) :
    ∃ st, ((List.range k).filter fun idx => (block[idx]?).join.isSome).foldlM CompositeMerge.step
      ⟨block, fun _ => [], variableTypes, changes⟩ = some st ∧ Invariant m block k st := by
  induction k with
  | zero => exact ⟨_, rfl, .init block variableTypes changes⟩
  | succ k ih =>
    obtain ⟨st, hst, hinv⟩ := ih
    rw [List.range_succ, List.filter_append, List.foldlM_append, hst]
    match hi : block[k]? with
    | none => exact ⟨st, by simp [hi], hinv.skip fun inst => by simp [hi]⟩
    | some none => exact ⟨st, by simp [hi], hinv.skip fun inst => by simp [hi]⟩
    | some (some inst) =>
      obtain ⟨st', hst', hinv'⟩ := hinv.step hb hi
      exact ⟨st', by simp [hi, hst'], hinv'⟩

theorem compositeMerge_keeps [DecidableEq C] (m : Semantics E C O V W) (block : Ops E C O) (hb : Mergeable block)
    (variableTypes : Id → Option (Ty E)) (changes : Nat) :
    ∃ st, compositeMerge block variableTypes changes = some st ∧ Keeps m block st.ops := by
  obtain ⟨st, hst, hinv⟩ := hb.invariant m variableTypes changes block.length
  exact ⟨st, hst, hinv.keeps⟩

-- Two blocks

/-- A semantics in which nothing but the instructions the pass knows does anything. -/
def idle : Semantics Unit Nat Unit Nat Unit where
  asIndex value := value
  load _ _ _ _ := 0
  store _ _ _ world := world
  result _ _ _ old _ := old
  effect _ _ _ world := world

/-- A local vector of two components, and its component `index` written with constant `value`. -/
def pair (id : Id) : Variable Unit Nat := ⟨.localMut id, ⟨(), 2, false⟩⟩

def setComponent (id : Id) (index value : Nat) : Option (Instruction Unit Nat Unit) :=
  some ⟨.indexAssign ⟨.constant index, ⟨(), 1, false⟩⟩ ⟨.constant value, ⟨(), 1, false⟩⟩, some (pair id)⟩

/-- `v[1] = 2; u = w; v[0] = 1` -/
def interleaved : Ops Unit Nat Unit :=
  [setComponent 0 1 2, some ⟨.copy (pair 1), some (pair 2)⟩, setComponent 0 0 1]

/-- `v[0] = 1; v = w; v[1] = 2` -/
def overwritten : Ops Unit Nat Unit := [setComponent 0 0 1, some ⟨.copy (pair 1), some (pair 0)⟩, setComponent 0 1 2]

theorem overwritten_merged : (compositeMerge overwritten (fun _ => none) 0).map (·.ops) =
    some [none, some ⟨.copy (pair 1), some (pair 0)⟩,
      some ⟨.initVector [⟨.constant 1, ⟨(), 1, false⟩⟩, ⟨.constant 2, ⟨(), 1, false⟩⟩], some (pair 0)⟩] := by
  simp [compositeMerge, overwritten, setComponent, pair, indices, CompositeMerge.step, componentWrite, resetReads,
    mergeAssigns, Variable.isImmutable, Variable.asConst, Variable.localVariableId, Operation.args,
    AsU32.asU32, List.range_succ, List.mergeSort]

def sample : State Nat Nat Unit where
  value kind _ :=
    match kind with
    | .constant value => value
    | .localMut 1 => 5
    | _ => 0
  world := ()

/-- The vector ends as `(5, 2)` and, after the pass, as `(1, 2)`. -/
theorem compositeMerge_loses_overwrite :
    ¬∃ st, compositeMerge overwritten (fun _ => none) 0 = some st ∧ Keeps idle overwritten st.ops := by
  rintro ⟨st, hst, hkeeps⟩
  have hops := overwritten_merged
  rw [hst, Option.map_some, Option.some_inj] at hops
  have hlane : (idle.run st.ops sample).value (.localMut 0) 0 = (idle.run overwritten sample).value (.localMut 0) 0 := by
    rw [hkeeps.run sample]
  rw [hops] at hlane
  revert hlane
  decide

theorem interleaved_mergeable : Mergeable interleaved where
  groups last id item group h := by
    obtain ⟨inst, index, value, hi, hc, -, hgroup, hlen⟩ := h
    have hlt : last < 3 := (List.getElem?_eq_some_iff.mp hi).1
    obtain rfl | rfl | rfl : last = 0 ∨ last = 1 ∨ last = 2 := by omega
    · simp [interleaved, setComponent, pair] at hi
      subst hi
      simp [componentWrite, Variable.isImmutable, Variable.asConst] at hc
      obtain ⟨rfl, rfl, rfl, rfl⟩ := hc
      simp [hgroup, resetReads, pendingAt] at hlen
    · simp [interleaved] at hi
      subst hi
      simp [componentWrite] at hc
    · simp [interleaved, setComponent, pair] at hi
      subst hi
      simp [componentWrite, Variable.isImmutable, Variable.asConst] at hc
      obtain ⟨rfl, rfl, rfl, rfl⟩ := hc
      subst hgroup
      simp [resetReads, pendingAt, interleaved, setComponent, pair, record, componentWrite, Variable.isImmutable,
        Variable.asConst, Variable.localVariableId, Operation.args, AsU32.asU32]
      refine ⟨by decide, fun idx inst hi hlt hstarted hidx => ?_⟩
      obtain rfl : idx = 1 := by
        obtain ⟨a, ha, hlt'⟩ := hstarted
        omega
      simp at hi
      subst hi
      simp [Instruction.reads, Instruction.writes, Operation.args]
  scalars idx inst id item index value hi hc hv := by
    have hlt : idx < 3 := (List.getElem?_eq_some_iff.mp hi).1
    obtain hends | rfl : (idx = 0 ∨ idx = 2) ∨ idx = 1 := by omega
    · rcases hends with rfl | rfl
      all_goals
        simp [interleaved, setComponent, pair] at hi
        subst hi
        simp [componentWrite, Variable.isImmutable, Variable.asConst] at hc
        obtain ⟨rfl, rfl, rfl, rfl⟩ := hc
        simp at hv
    · simp [interleaved] at hi
      subst hi
      simp [componentWrite] at hc

theorem compositeMerge_keeps_interleaved :
    ∃ st, compositeMerge interleaved (fun _ => none) 0 = some st ∧ Keeps idle interleaved st.ops :=
  compositeMerge_keeps idle interleaved interleaved_mergeable (fun _ => none) 0

end Ruda.BasicBlock
