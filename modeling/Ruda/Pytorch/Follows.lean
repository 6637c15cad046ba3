import Ruda.Pytorch.Machine

/-!
# Copies and references

The reader simulates the machine as long as the copies in its memo and on its stack are not
told from references: step by step the objects of the reader are what the values of the
machine denote.
-/

namespace Ruda.Pytorch

variable {τ : Type} {h : Heap}

def SlotDenotes (h : Heap) : Option Value → Object τ → Prop
  | none, o => o = .markObject
  | some v, o => Denotes h v o

/-- What is in the memo is a copy of its value, unless this shows a change. -/
def MemoDenotes (h : Heap) (e : Nat × Entry) (o : Nat × Object τ) : Prop :=
  e.1 = o.1 ∧ ((∀ a ∈ e.2.filled, ¬Reaches h a e.2.value) → Denotes h e.2.value o.2)

structure Sim (m : Machine) (s : Stack τ) : Prop where
  stack : List.Forall₂ (SlotDenotes m.heap) m.stack s.stack
  memo : List.Forall₂ (MemoDenotes m.heap) m.memo s.memo

-- Maps

section Maps

variable {κ α β : Type} [DecidableEq κ] {R : κ × α → κ × β → Prop}

theorem hashInsert_forall₂ (hkey : ∀ e o, R e o → e.1 = o.1) {l : List (κ × α)} {l' : List (κ × β)} (hl : List.Forall₂ R l l')
    {k : κ} {a : α} {b : β} (hab : R (k, a) (k, b)) : List.Forall₂ R (hashInsert k a l) (hashInsert k b l') := by
  induction hl with
  | nil => exact .cons hab .nil
  | @cons e o l l' heo htail ih =>
    rw [hashInsert, hashInsert, ← hkey e o heo]
    split
    · exact .cons hab htail
    · refine .cons ?_ ih
      have hpair : (e.1, o.2) = o := by rw [hkey e o heo]
      rw [hpair]
      exact heo

theorem lookup_forall₂ (hkey : ∀ e o, R e o → e.1 = o.1) {l : List (κ × α)} {l' : List (κ × β)} (hl : List.Forall₂ R l l')
    {k : κ} {b : β} (hb : l'.lookup k = some b) : ∃ a, l.lookup k = some a ∧ R (k, a) (k, b) := by
  induction hl with
  | nil => exact nomatch hb
  | @cons e o l l' heo htail ih =>
    obtain ⟨k', a⟩ := e
    obtain ⟨k'', b'⟩ := o
    obtain rfl : k' = k'' := hkey _ _ heo
    rw [List.lookup_cons] at hb ⊢
    split at hb
    · next hk =>
      obtain rfl := Option.some.inj hb
      obtain rfl := beq_iff_eq.mp hk
      exact ⟨a, rfl, heo⟩
    · exact ih hb

theorem mem_hashInsert {l : List (κ × α)} {k : κ} {a : α} {e : κ × α} (he : e ∈ hashInsert k a l) : e = (k, a) ∨ e ∈ l := by
  induction l with
  | nil => exact .inl (List.mem_singleton.mp he)
  | cons e' l ih =>
    rw [hashInsert] at he
    split at he
    · rcases List.mem_cons.mp he with rfl | he
      · exact .inl rfl
      · exact .inr (List.mem_cons_of_mem _ he)
    · rcases List.mem_cons.mp he with rfl | he
      · exact .inr List.mem_cons_self
      · exact (ih he).imp id (List.mem_cons_of_mem _)

end Maps

theorem forall₂_imp_mem {α β : Type} {R R' : α → β → Prop} {l : List α} {l' : List β} (hl : List.Forall₂ R l l')
    (himp : ∀ a ∈ l, ∀ b, R a b → R' a b) : List.Forall₂ R' l l' := by
  induction hl with
  | nil => exact .nil
  | @cons a b l l' hab _ ih =>
    exact .cons (himp a List.mem_cons_self b hab) (ih fun a ha => himp a (List.mem_cons_of_mem _ ha))

theorem EntryDenotes.key {e : String × Value} {o : String × Object τ} (he : EntryDenotes h e o) : e.1 = o.1 := he.1

theorem MemoDenotes.key {e : Nat × Entry} {o : Nat × Object τ} (he : MemoDenotes h e o) : e.1 = o.1 := he.1

theorem getDictKey_ok {v : Value} {o : Object τ} (hv : Denotes h v o) {key : String} (hkey : getDictKey o = .ok key) :
    dictKey v = some key := by
  rcases hv.cases with ⟨a, rfl, rfl⟩ | ⟨items, os, rfl, rfl⟩ | ⟨a, c, rfl, -, ho⟩
  · cases a with
    | string s => exact congrArg some (Except.ok.inj hkey)
    | int n => exact congrArg some (Except.ok.inj hkey)
    | _ => exact nomatch hkey
  · exact nomatch hkey
  · cases c <;> cases o <;> first | exact ho.elim | exact nomatch hkey

theorem insertPairs_ok {vs : List Value} {os : List (Object τ)} (hvs : List.Forall₂ (Denotes h) vs os) (heven : os.length % 2 = 0)
    {entries : List (String × Value)} {es es' : List (String × Object τ)} (hes : List.Forall₂ (EntryDenotes h) entries es)
    (hins : insertPairs os es = .ok es') : ∃ entries', putPairs vs entries = some entries' ∧
      List.Forall₂ (EntryDenotes h) entries' es' ∧ ∀ e ∈ entries', e.2 ∈ vs ∨ e ∈ entries := by
  induction os using List.twoStepInduction generalizing vs entries es with
  | nil =>
    cases hvs
    obtain rfl := Except.ok.inj hins
    exact ⟨entries, rfl, hes, fun e he => .inr he⟩
  | singleton o => exact absurd heven (by simp)
  | cons_cons k o os ih =>
    obtain _ | ⟨hk, _ | ⟨hv, htail⟩⟩ := hvs
    rename_i kv vs v
    obtain ⟨key, hkey, hins⟩ := bind_eq_ok.mp hins
    have heven' : os.length % 2 = 0 := by
      rw [List.length_cons, List.length_cons] at heven
      omega
    obtain ⟨entries', hput, hes', hmem⟩ := ih htail heven' (hashInsert_forall₂ (fun e o he => he.key) hes ⟨rfl, hv⟩) hins
    refine ⟨entries', ?_, hes', fun e he => ?_⟩
    · rw [putPairs, getDictKey_ok hk hkey, Option.bind_some, hput]
    · rcases hmem e he with h' | h'
      · exact .inl (List.mem_cons_of_mem _ (List.mem_cons_of_mem _ h'))
      · rcases mem_hashInsert h' with rfl | h'
        · exact .inl (List.mem_cons_of_mem _ List.mem_cons_self)
        · exact .inr h'

-- One operation of the machine

variable {m : Machine} {s s' : Stack τ} {o : Object τ} {v : Value}

namespace Sim

theorem push (hsim : Sim m s) (hv : Denotes m.heap v o) : Sim (m.push v) (s.push o) := ⟨.cons hv hsim.stack, hsim.memo⟩

theorem mark (hsim : Sim m s) : Sim { m with stack := none :: m.stack } (s.push .markObject) :=
  ⟨.cons rfl hsim.stack, hsim.memo⟩

theorem popped (hsim : Sim m s) (hpop : s.pop = .ok (o, s')) (hmark : none ∉ m.stack.take 1) :
    ∃ v stack, m.stack = some v :: stack ∧ m.pop = some (v, { m with stack }) ∧ Denotes m.heap v o ∧
      Sim { m with stack } s' := by
  obtain ⟨stack, memo⟩ := s
  cases stack with
  | nil => exact nomatch hpop
  | cons o' stack =>
    obtain ⟨rfl, rfl⟩ := Prod.mk.inj (Except.ok.inj hpop)
    have hstack := hsim.stack
    generalize hm : m.stack = slots at hstack hmark
    obtain _ | ⟨hslot, htail⟩ := hstack
    rename_i slot slots
    cases slot with
    | none => exact absurd List.mem_cons_self hmark
    | some v => exact ⟨v, slots, rfl, by rw [Machine.pop, hm], hslot, htail, hsim.memo⟩

theorem above {slots : List (Option Value)} {objects : List (Object τ)} (hstack : List.Forall₂ (SlotDenotes h) slots objects)
    {vs : List Value} {os above rest : List (Object τ)} (hvs : List.Forall₂ (Denotes h) vs os)
    (habove : aboveMarker os objects = some (above, rest)) :
    ∃ above' rest', aboveMark vs slots = some (above', rest') ∧ List.Forall₂ (Denotes h) above' above ∧
      List.Forall₂ (SlotDenotes h) rest' rest := by
  induction hstack generalizing vs os with
  | nil => exact nomatch habove
  | @cons slot object slots objects hslot htail ih =>
    cases slot with
    | none =>
      obtain rfl : object = .markObject := hslot
      obtain ⟨rfl, rfl⟩ := Prod.mk.inj (Option.some.inj habove)
      exact ⟨vs, slots, rfl, hvs, htail⟩
    | some v =>
      have hv : Denotes h v object := hslot
      rw [aboveMarker, hv.not_mark] at habove
      exact ih (.cons hv hvs) habove

theorem poppedToMark (hsim : Sim m s) {objs : List (Object τ)} (hpop : s.popToMarker = .ok (objs, s')) :
    ∃ vs stack, aboveMark [] m.stack = some (vs, stack) ∧ m.popToMark = some (vs, { m with stack }) ∧
      List.Forall₂ (Denotes m.heap) vs objs ∧ Sim { m with stack } s' := by
  obtain ⟨⟨above, rest⟩, hfound, hpop⟩ := bind_eq_ok.mp hpop
  obtain ⟨rfl, rfl⟩ := Prod.mk.inj (Except.ok.inj hpop)
  obtain ⟨vs, stack, habove, hvs, hstack⟩ := Sim.above hsim.stack .nil (okOr_ok.mp hfound)
  exact ⟨vs, stack, habove, by rw [Machine.popToMark, habove]; rfl, hvs, hstack, hsim.memo⟩

theorem slotExtends {h' : Heap} (hext : Extends h h') {slot : Option Value} (hslot : SlotDenotes h slot o) :
    SlotDenotes h' slot o := by
  cases slot with
  | none => exact hslot
  | some v => exact Denotes.extends hext hslot

theorem alloc (hsim : Sim m s) {c : Cell} (hc : CellDenotes m.heap c o) : Sim (m.alloc c) (s.push o) := by
  have hext := Extends.append m.heap [c]
  have hnew : (m.heap ++ [c])[m.heap.length]? = some c := by simp
  have hcell : CellDenotes (m.heap ++ [c]) c o := by
    cases c with
    | list items =>
      cases o with
      | list os => exact List.Forall₂.imp (fun v o hv => hv.extends hext) hc
      | _ => exact hc.elim
    | dict entries =>
      cases o with
      | dict es => exact List.Forall₂.imp (fun e e' he => ⟨he.1, he.2.extends hext⟩) hc
      | _ => exact hc.elim
  refine ⟨.cons (denotes_ref hnew hcell) (hsim.stack.imp fun slot o hslot => slotExtends hext hslot), ?_⟩
  refine hsim.memo.imp fun e o he => ⟨he.1, fun hfresh => ?_⟩
  exact (he.2 fun a ha hr => hfresh a ha (hr.extends hext)).extends hext

theorem put (hsim : Sim m s) {index : Nat} (hput : s.memoTop index = .ok s') (hmark : none ∉ m.stack.take 1) :
    ∃ m', m.put index = some m' ∧ Sim m' s' := by
  obtain ⟨stack, memo⟩ := s
  obtain ⟨o, ho, hput⟩ := bind_eq_ok.mp hput
  obtain rfl := Except.ok.inj hput
  cases stack with
  | nil => exact nomatch ho
  | cons o' stack =>
    obtain rfl := Option.some.inj (okOr_ok.mp ho)
    obtain ⟨v, rest, hm, -, hv, -⟩ := hsim.popped rfl hmark
    refine ⟨{ m with memo := hashInsert index ⟨v, []⟩ m.memo }, by rw [Machine.put, hm], hsim.stack, ?_⟩
    exact hashInsert_forall₂ (fun e o he => he.key) hsim.memo ⟨rfl, fun _ => hv⟩

theorem get (hsim : Sim m s) {index : Nat} (hget : s.memoGet index = .ok o)
    (hfresh : ∀ e ∈ m.memo.lookup index, ∀ a ∈ e.filled, ¬Reaches m.heap a e.value) :
    ∃ m', m.get index = some m' ∧ Sim m' (s.push o) := by
  obtain ⟨e, he, hdenotes⟩ := lookup_forall₂ (fun e o he => he.key) hsim.memo (okOr_ok.mp hget)
  exact ⟨m.push e.value, by rw [Machine.get, he]; rfl, hsim.push (hdenotes.2 (hfresh e he))⟩

theorem fill {a : Nat} {stack : List (Option Value)} {memo : List (Nat × Entry)} {c : Cell} (c' : Cell)
    {objects : List (Object τ)} {smemo : List (Nat × Object τ)} {o' : Object τ}
    (hsim : Sim ⟨some (.ref a) :: stack, memo, h⟩ ⟨o :: objects, smemo⟩) (hc : h[a]? = some c)
    (hc' : CellDenotes h c' o') (hin : ∀ v ∈ c'.values, ¬Reaches h a v)
    (hout : ∀ v, some v ∈ stack → ¬Reaches h a v) :
    Sim (Machine.fill ⟨some (.ref a) :: stack, memo, h⟩ a c') ⟨o' :: objects, smemo⟩ := by
  have hsame := SameBut.set h a c'
  obtain ⟨hlt, -⟩ := List.getElem?_eq_some_iff.mp hc
  have hnew : (h.set a c')[a]? = some c' := List.getElem?_set_self hlt
  have hcell : CellDenotes (h.set a c') c' o' := by
    cases c' with
    | list items =>
      cases o' with
      | list os =>
        exact forall₂_imp_mem hc' fun v hv o ho => ho.sameBut hsame (hin v hv)
      | _ => exact hc'.elim
    | dict entries =>
      cases o' with
      | dict es =>
        exact forall₂_imp_mem hc' fun e he o ho => ⟨ho.1, ho.2.sameBut hsame (hin _ (List.mem_map_of_mem he))⟩
      | _ => exact hc'.elim
  obtain _ | ⟨-, hrest⟩ := hsim.stack
  refine ⟨.cons (denotes_ref hnew hcell) ?_, ?_⟩
  · refine forall₂_imp_mem hrest fun slot hslot o ho => ?_
    cases slot with
    | none => exact ho
    | some v => exact Denotes.sameBut hsame (hout v hslot) ho
  · -- An entry that does not show this change either shows the earlier ones or is what was copied.
    refine List.forall₂_map_left_iff.mpr (hsim.memo.imp fun e o he => ⟨he.1, fun hfresh => ?_⟩)
    have hkept : ¬Reaches h a e.2.value := fun hr => hfresh a List.mem_cons_self (hr.changed hsame)
    refine (he.2 fun x hx hr => ?_).sameBut hsame hkept
    exact hfresh x (List.mem_cons_of_mem _ hx) (hr.sameBut hsame hkept)

theorem top_list {a : Option Value} {stack : List (Option Value)} {items : List (Object τ)} {objects : List (Object τ)}
    (hstack : List.Forall₂ (SlotDenotes h) (a :: stack) (.list items :: objects)) :
    ∃ x vs, a = some (.ref x) ∧ h[x]? = some (.list vs) ∧ List.Forall₂ (Denotes h) vs items ∧ Denotes h (.ref x) (.list items) := by
  obtain _ | ⟨hslot, -⟩ := hstack
  cases a with
  | none => exact nomatch hslot
  | some v =>
    have hv : Denotes h v (.list items) := hslot
    rcases hv.cases with ⟨a, rfl, ho⟩ | ⟨vs, os, rfl, ho⟩ | ⟨x, c, rfl, hc, ho⟩
    · cases a <;> exact nomatch ho
    · exact nomatch ho
    · cases c with
      | list vs => exact ⟨x, vs, rfl, hc, ho, hv⟩
      | dict entries => exact ho.elim

theorem top_dict {a : Option Value} {stack : List (Option Value)} {es : List (String × Object τ)} {objects : List (Object τ)}
    (hstack : List.Forall₂ (SlotDenotes h) (a :: stack) (.dict es :: objects)) :
    ∃ x entries, a = some (.ref x) ∧ h[x]? = some (.dict entries) ∧ List.Forall₂ (EntryDenotes h) entries es ∧
      Denotes h (.ref x) (.dict es) := by
  obtain _ | ⟨hslot, -⟩ := hstack
  cases a with
  | none => exact nomatch hslot
  | some v =>
    have hv : Denotes h v (.dict es) := hslot
    rcases hv.cases with ⟨a, rfl, ho⟩ | ⟨vs, os, rfl, ho⟩ | ⟨x, c, rfl, hc, ho⟩
    · cases a <;> exact nomatch ho
    · exact nomatch ho
    · cases c with
      | list vs => exact ho.elim
      | dict entries => exact ⟨x, entries, rfl, hc, ho, hv⟩

/-- What an opcode fills is nowhere else, neither on the stack nor in what it is filled with. -/
def Alone (m : Machine) (more : List Value) : Prop :=
  ∀ a stack, m.stack = some (.ref a) :: stack →
    (∀ v ∈ more, ¬Reaches m.heap a v) ∧ ∀ v, some v ∈ stack → ¬Reaches m.heap a v

theorem extendList (hsim : Sim m s) {vs : List Value} {os : List (Object τ)} (hvs : List.Forall₂ (Denotes m.heap) vs os)
    {op : OpCode} (hext : s.extendList op os = .ok s') (halone : Alone m vs) : ∃ m', m.extendList vs = some m' ∧ Sim m' s' := by
  obtain ⟨slots, memo, heap⟩ := m
  obtain ⟨objects, smemo⟩ := s
  unfold Stack.extendList at hext
  split at hext
  · exact nomatch hext
  · next items objects' hobjects =>
    obtain rfl : objects = _ := hobjects
    obtain rfl := Except.ok.inj hext
    obtain ⟨slot, stack, rfl⟩ : ∃ slot stack, slots = slot :: stack := by
      obtain _ | ⟨-, -⟩ := hsim.stack
      exact ⟨_, _, rfl⟩
    obtain ⟨a, items', rfl, hcell, hitems, hdenotes⟩ := top_list hsim.stack
    obtain ⟨hin, hout⟩ := halone a stack rfl
    have hcell : heap[a]? = some (.list items') := hcell
    refine ⟨_, by simp only [Machine.extendList, hcell], Sim.fill (.list (items' ++ vs)) hsim hcell ?_ ?_ hout⟩
    · exact List.rel_append hitems hvs
    · intro v hv
      rcases List.mem_append.mp hv with hv | hv
      · exact hdenotes.acyclic hcell hv
      · exact hin v hv
  · exact nomatch hext

theorem extendDict (hsim : Sim m s) {vs : List Value} {os : List (Object τ)} (hvs : List.Forall₂ (Denotes m.heap) vs os)
    (heven : os.length % 2 = 0) {es es' : List (String × Object τ)} {objects : List (Object τ)}
    (hobjects : s.stack = .dict es :: objects) (hins : insertPairs os es = .ok es') (halone : Alone m vs) :
    ∃ m', m.extendDict vs = some m' ∧ Sim m' { s with stack := .dict es' :: objects } := by
  obtain ⟨slots, memo, heap⟩ := m
  obtain ⟨objects', smemo⟩ := s
  obtain rfl : objects' = _ := hobjects
  obtain ⟨slot, stack, rfl⟩ : ∃ slot stack, slots = slot :: stack := by
    obtain _ | ⟨-, -⟩ := hsim.stack
    exact ⟨_, _, rfl⟩
  obtain ⟨a, entries, rfl, hcell, hentries, hdenotes⟩ := top_dict hsim.stack
  obtain ⟨hin, hout⟩ := halone a stack rfl
  obtain ⟨entries', hput, hentries', hmem⟩ := insertPairs_ok hvs heven hentries hins
  have hcell : heap[a]? = some (.dict entries) := hcell
  have hext : Machine.extendDict ⟨some (.ref a) :: stack, memo, heap⟩ vs =
      some (Machine.fill ⟨some (.ref a) :: stack, memo, heap⟩ a (.dict entries')) := by
    simp only [Machine.extendDict, hcell, hput, Option.map_some]
  refine ⟨_, hext, Sim.fill (.dict entries') hsim hcell hentries' ?_ hout⟩
  intro v hv
  obtain ⟨e, he, rfl⟩ := List.mem_map.mp hv
  rcases hmem e he with h' | h'
  · exact hin e.2 h'
  · exact hdenotes.acyclic hcell (List.mem_map_of_mem h')

end Sim

-- Opcodes

theorem unmarked {stack : List (Option Value)} {n : Nat} (hmark : none ∉ stack.take (n + 1)) :
    none ∉ stack.take 1 ∧ ∀ slot rest, stack = slot :: rest → none ∉ rest.take n := by
  cases stack with
  | nil => exact ⟨List.not_mem_nil, nofun⟩
  | cons slot stack =>
    rw [List.take_succ_cons, List.mem_cons, not_or] at hmark
    refine ⟨by simpa using hmark.1, fun slot' rest hrest => ?_⟩
    obtain ⟨-, rfl⟩ := List.cons.inj hrest
    exact hmark.2

variable {rebuild : Rebuild τ} {r r' : Bytes}

namespace Sim

theorem tuple1 (hsim : Sim m s) (hmark : none ∉ m.stack.take 1) (hact : act rebuild .tuple1 s = .ok s') :
    ∃ m', Machine.act .tuple1 m = some m' ∧ Sim m' s' := by
  obtain ⟨⟨o, s₁⟩, ho, hact⟩ := bind_eq_ok.mp hact
  obtain rfl := Except.ok.inj hact
  obtain ⟨v, stack, -, hpop, hv, hsim₁⟩ := hsim.popped ho hmark
  exact ⟨_, Option.bind_eq_some_iff.mpr ⟨_, hpop, rfl⟩, hsim₁.push (denotes_tuple (.cons hv .nil))⟩

theorem tuple2 (hsim : Sim m s) (hmark : none ∉ m.stack.take 2) (hact : act rebuild .tuple2 s = .ok s') :
    ∃ m', Machine.act .tuple2 m = some m' ∧ Sim m' s' := by
  obtain ⟨⟨o₂, s₁⟩, ho₂, hact⟩ := bind_eq_ok.mp hact
  obtain ⟨⟨o₁, s₂⟩, ho₁, hact⟩ := bind_eq_ok.mp hact
  obtain rfl := Except.ok.inj hact
  obtain ⟨hmark₂, hmark₁⟩ := unmarked hmark
  obtain ⟨v₂, stack, hm, hpop₂, hv₂, hsim₁⟩ := hsim.popped ho₂ hmark₂
  obtain ⟨v₁, stack', -, hpop₁, hv₁, hsim₂⟩ := hsim₁.popped ho₁ (hmark₁ _ _ hm)
  exact ⟨_, Option.bind_eq_some_iff.mpr ⟨_, hpop₂, Option.bind_eq_some_iff.mpr ⟨_, hpop₁, rfl⟩⟩,
    hsim₂.push (denotes_tuple (.cons hv₁ (.cons hv₂ .nil)))⟩

theorem tuple3 (hsim : Sim m s) (hmark : none ∉ m.stack.take 3) (hact : act rebuild .tuple3 s = .ok s') :
    ∃ m', Machine.act .tuple3 m = some m' ∧ Sim m' s' := by
  obtain ⟨⟨o₃, s₁⟩, ho₃, hact⟩ := bind_eq_ok.mp hact
  obtain ⟨⟨o₂, s₂⟩, ho₂, hact⟩ := bind_eq_ok.mp hact
  obtain ⟨⟨o₁, s₃⟩, ho₁, hact⟩ := bind_eq_ok.mp hact
  obtain rfl := Except.ok.inj hact
  obtain ⟨hmark₃, hmark⟩ := unmarked hmark
  obtain ⟨v₃, stack, hm, hpop₃, hv₃, hsim₁⟩ := hsim.popped ho₃ hmark₃
  obtain ⟨hmark₂, hmark₁⟩ := unmarked (hmark _ _ hm)
  obtain ⟨v₂, stack', hm', hpop₂, hv₂, hsim₂⟩ := hsim₁.popped ho₂ hmark₂
  obtain ⟨v₁, stack'', -, hpop₁, hv₁, hsim₃⟩ := hsim₂.popped ho₁ (hmark₁ _ _ hm')
  exact ⟨_, Option.bind_eq_some_iff.mpr ⟨_, hpop₃, Option.bind_eq_some_iff.mpr ⟨_, hpop₂, Option.bind_eq_some_iff.mpr ⟨_, hpop₁, rfl⟩⟩⟩,
    hsim₃.push (denotes_tuple (.cons hv₁ (.cons hv₂ (.cons hv₃ .nil))))⟩

theorem tuple (hsim : Sim m s) (hact : act rebuild .tuple s = .ok s') :
    ∃ m', Machine.act .tuple m = some m' ∧ Sim m' s' := by
  obtain ⟨⟨objs, s₁⟩, hobjs, hact⟩ := bind_eq_ok.mp hact
  obtain rfl := Except.ok.inj hact
  obtain ⟨vs, stack, -, hpop, hvs, hsim₁⟩ := hsim.poppedToMark hobjs
  exact ⟨_, Option.map_eq_some_iff.mpr ⟨_, hpop, rfl⟩, hsim₁.push (denotes_tuple hvs)⟩

theorem list (hsim : Sim m s) (hact : act rebuild .list s = .ok s') :
    ∃ m', Machine.act .list m = some m' ∧ Sim m' s' := by
  obtain ⟨⟨objs, s₁⟩, hobjs, hact⟩ := bind_eq_ok.mp hact
  obtain rfl := Except.ok.inj hact
  obtain ⟨vs, stack, -, hpop, hvs, hsim₁⟩ := hsim.poppedToMark hobjs
  exact ⟨_, Option.map_eq_some_iff.mpr ⟨_, hpop, rfl⟩, hsim₁.alloc (c := .list vs) hvs⟩

theorem dict (hsim : Sim m s) (hact : act rebuild .dict s = .ok s') :
    ∃ m', Machine.act .dict m = some m' ∧ Sim m' s' := by
  obtain ⟨⟨objs, s₁⟩, hobjs, hact⟩ := bind_eq_ok.mp hact
  obtain ⟨_, heven, hact⟩ := bind_eq_ok.mp hact
  obtain ⟨entries, hins, hact⟩ := bind_eq_ok.mp hact
  obtain rfl := Except.ok.inj hact
  obtain ⟨vs, stack, -, hpop, hvs, hsim₁⟩ := hsim.poppedToMark hobjs
  obtain ⟨entries', hput, hentries, -⟩ := insertPairs_ok hvs (not_not.mp (failIf_ok.mp heven)) .nil hins
  exact ⟨_, Option.bind_eq_some_iff.mpr ⟨_, hpop, Option.bind_eq_some_iff.mpr ⟨_, hput, rfl⟩⟩,
    hsim₁.alloc (c := .dict entries') hentries⟩

theorem append (hsim : Sim m s) (hmeets : Machine.Meets .append r m) (hact : act rebuild .append s = .ok s') :
    ∃ m', Machine.act .append m = some m' ∧ Sim m' s' := by
  obtain ⟨⟨o, s₁⟩, ho, hact⟩ := bind_eq_ok.mp hact
  obtain ⟨v, stack, hm, hpop, hv, hsim₁⟩ := hsim.popped ho hmeets.unmarked
  have halone : Alone { m with stack } [v] := by
    intro a stack' hstack
    exact hmeets.alone a [v] stack' (by simp only [Machine.filling, hm, show stack = some (.ref a) :: stack' from hstack])
  obtain ⟨m', hext, hsim'⟩ := hsim₁.extendList (.cons hv .nil) hact halone
  exact ⟨m', Option.bind_eq_some_iff.mpr ⟨_, hpop, hext⟩, hsim'⟩

theorem appends (hsim : Sim m s) (hmeets : Machine.Meets .appends r m) (hact : act rebuild .appends s = .ok s') :
    ∃ m', Machine.act .appends m = some m' ∧ Sim m' s' := by
  obtain ⟨⟨objs, s₁⟩, hobjs, hact⟩ := bind_eq_ok.mp hact
  obtain ⟨vs, stack, habove, hpop, hvs, hsim₁⟩ := hsim.poppedToMark hobjs
  have halone : Alone { m with stack } vs := by
    intro a stack' hstack
    obtain rfl : stack = some (.ref a) :: stack' := hstack
    exact hmeets.alone a vs stack' (by simp only [Machine.filling, habove])
  obtain ⟨m', hext, hsim'⟩ := hsim₁.extendList hvs hact halone
  exact ⟨m', Option.bind_eq_some_iff.mpr ⟨_, hpop, hext⟩, hsim'⟩

theorem setItems (hsim : Sim m s) (hmeets : Machine.Meets .setItems r m) (hact : Pytorch.setItems s = .ok s') :
    ∃ m', Machine.act .setItems m = some m' ∧ Sim m' s' := by
  obtain ⟨⟨objs, s₁⟩, hobjs, hact⟩ := bind_eq_ok.mp hact
  obtain ⟨_, heven, hact⟩ := bind_eq_ok.mp hact
  obtain ⟨vs, stack, habove, hpop, hvs, hsim₁⟩ := hsim.poppedToMark hobjs
  have halone : Alone { m with stack } vs := by
    intro a stack' hstack
    obtain rfl : stack = some (.ref a) :: stack' := hstack
    exact hmeets.alone a vs stack' (by simp only [Machine.filling, habove])
  split at hact
  · exact nomatch hact
  · next entries objects hobjects =>
    obtain ⟨es', hins, hact⟩ := bind_eq_ok.mp hact
    obtain rfl := Except.ok.inj hact
    obtain ⟨m', hext, hsim'⟩ := hsim₁.extendDict hvs (not_not.mp (failIf_ok.mp heven)) hobjects hins halone
    exact ⟨m', Option.bind_eq_some_iff.mpr ⟨_, hpop, hext⟩, hsim'⟩
  · exact nomatch hact

theorem setItem (hsim : Sim m s) (hmeets : Machine.Meets .setItem r m) (hact : Pytorch.setItem s = .ok s') :
    ∃ m', Machine.act .setItem m = some m' ∧ Sim m' s' := by
  obtain ⟨⟨value, s₁⟩, hvalue, hact⟩ := bind_eq_ok.mp hact
  obtain ⟨⟨key, s₂⟩, hkey, hact⟩ := bind_eq_ok.mp hact
  obtain ⟨hmark₁, hmark₂⟩ := unmarked hmeets.unmarked
  obtain ⟨v, stack, hm, hpop₁, hv, hsim₁⟩ := hsim.popped hvalue hmark₁
  obtain ⟨k, stack', hm', hpop₂, hk, hsim₂⟩ := hsim₁.popped hkey (hmark₂ _ _ hm)
  have halone : Alone { m with stack := stack' } [k, v] := by
    intro a stack'' hstack
    obtain rfl : stack' = some (.ref a) :: stack'' := hstack
    obtain rfl : stack = some k :: some (.ref a) :: stack'' := hm'
    exact hmeets.alone a [k, v] stack'' (by simp only [Machine.filling, hm])
  split at hact
  · exact nomatch hact
  · next entries objects hobjects =>
    split at hact
    · next name hname =>
      obtain rfl : key = .string name := hname
      obtain rfl := Except.ok.inj hact
      obtain ⟨m', hext, hsim'⟩ := hsim₂.extendDict (.cons hk (.cons hv .nil)) (by simp) hobjects rfl halone
      exact ⟨m', Option.bind_eq_some_iff.mpr ⟨_, hpop₁, Option.bind_eq_some_iff.mpr ⟨_, hpop₂, hext⟩⟩, hsim'⟩
    · exact nomatch hact
  · exact nomatch hact

/-- The opcodes without operand. -/
def Plain (op : OpCode) : Prop :=
  op ∈ [OpCode.none, .newTrue, .newFalse, .emptyTuple, .emptyList, .emptyDict, .mark, .memoize, .tuple, .tuple1, .tuple2,
    .tuple3, .append, .appends, .setItem, .setItems, .dict, .list]

instance (op : OpCode) : Decidable (Plain op) := inferInstanceAs (Decidable (op ∈ _))

theorem acted {op : OpCode} (hplain : Plain op) (hsim : Sim m s) (hmeets : Machine.Meets op r m)
    (hact : act rebuild op s = .ok s') : ∃ m', Machine.act op m = some m' ∧ Sim m' s' := by
  cases op with
  | none | newTrue | newFalse =>
    obtain rfl := Except.ok.inj hact
    exact ⟨_, rfl, hsim.push (denotes_atom _ _)⟩
  | emptyTuple =>
    obtain rfl := Except.ok.inj hact
    exact ⟨_, rfl, hsim.push (denotes_tuple .nil)⟩
  | emptyList =>
    obtain rfl := Except.ok.inj hact
    exact ⟨_, rfl, hsim.alloc (c := .list []) .nil⟩
  | emptyDict =>
    obtain rfl := Except.ok.inj hact
    exact ⟨_, rfl, hsim.alloc (c := .dict []) .nil⟩
  | mark =>
    obtain rfl := Except.ok.inj hact
    exact ⟨_, rfl, hsim.mark⟩
  | memoize =>
    obtain ⟨m', hput, hsim'⟩ := hsim.put hact hmeets.unmarked
    rw [← hsim.memo.length_eq] at hput
    exact ⟨m', hput, hsim'⟩
  | tuple => exact hsim.tuple hact
  | tuple1 => exact hsim.tuple1 hmeets.unmarked hact
  | tuple2 => exact hsim.tuple2 hmeets.unmarked hact
  | tuple3 => exact hsim.tuple3 hmeets.unmarked hact
  | append => exact hsim.append hmeets hact
  | appends => exact hsim.appends hmeets hact
  | setItem => exact hsim.setItem hmeets hact
  | setItems => exact hsim.setItems hmeets hact
  | dict => exact hsim.dict hact
  | list => exact hsim.list hact
  | _ => exact absurd hplain (by decide)

end Sim

theorem toOption_ok {α ε : Type} {x : Res ε α} {a : α} (h : x = .ok a) : x.toOption = some a := by
  rw [h]
  rfl

theorem signed_of_parse {lo hi n : Int} {s : Text} (h : Decimal.parse lo hi s = some n) : Decimal.signed s = some n :=
  (Option.filter_eq_some_iff.mp h).1

theorem exactLong_eq {data : Bytes} (hlo : -2 ^ 63 ≤ exactLong data) (hhi : exactLong data < 2 ^ 63) :
    long1Value data = exactLong data := by
  rw [long1Value]
  split
  · rfl
  · next hlen =>
    obtain ⟨more, hmore⟩ : ∃ more, data.length = 8 + more := ⟨data.length - 8, by omega⟩
    have hlow : leValue (data.take 8) < 2 ^ 64 := by
      have hlt := leValue_lt (data.take 8)
      rwa [List.length_take, hmore, Nat.min_eq_left (Nat.le_add_right 8 more)] at hlt
    have hval : leValue data = leValue (data.take 8) + 2 ^ 64 * leValue (data.drop 8) := by
      conv => lhs; rw [← List.take_append_drop 8 data]
      rw [leValue_append, List.length_take, hmore, Nat.min_eq_left (Nat.le_add_right 8 more)]
      rfl
    -- The sign takes a multiple of `2 ^ 64` off.
    have hexact : ∃ k : Int, exactLong data = leValue (data.take 8) + 2 ^ 64 * k := by
      have hpow : (2 : Int) ^ (8 * data.length) = 2 ^ 64 * 2 ^ (8 * more) := by
        rw [hmore, Nat.mul_add, Int.pow_add]
      unfold exactLong
      split
      · split
        · exact ⟨leValue (data.drop 8), by rw [hval]; push_cast; ring⟩
        · exact ⟨leValue (data.drop 8) - 2 ^ (8 * more), by rw [hval, hpow]; push_cast; ring⟩
      · next hnil =>
        rw [List.getLast?_eq_none_iff.mp hnil] at hmore
        exact absurd hmore (by simp only [List.length_nil]; omega)
    obtain ⟨k, hk⟩ := hexact
    rw [hk] at hlo hhi ⊢
    unfold signed
    split <;> omega

/-- Step by step the machine does what the reader does. -/
theorem step_sim {op : OpCode} (hcore : Machine.Core op) (hstop : op ≠ .stop) (hsim : Sim m s) (hmeets : Machine.Meets op r m)
    (hstep : step rebuild op r s = .ok (s', r')) : ∃ m', Machine.step op r m = some (m', r') ∧ Sim m' s' := by
  cases op with
  | global | binPersId | reduce | build | newObj => exact absurd hcore (by decide)
  | stop => exact absurd rfl hstop
  | proto =>
    obtain ⟨version, hversion, hstep⟩ := bind_eq_ok.mp hstep
    obtain ⟨_, hle, hstep⟩ := bind_eq_ok.mp hstep
    obtain ⟨rfl, rfl⟩ := Prod.mk.inj (Except.ok.inj hstep)
    exact ⟨m, by simp only [Machine.step, toOption_ok hversion, Option.bind_eq_bind, Option.bind_some,
      if_neg (failIf_ok.mp hle)], hsim⟩
  | binInt =>
    obtain ⟨v, hv, hstep⟩ := bind_eq_ok.mp hstep
    obtain ⟨rfl, rfl⟩ := Prod.mk.inj (Except.ok.inj hstep)
    exact ⟨_, by simp only [Machine.step, toOption_ok hv]; rfl, hsim.push (denotes_atom _ _)⟩
  | int =>
    obtain ⟨text, htext, hstep⟩ := bind_eq_ok.mp hstep
    obtain ⟨n, hn, hstep⟩ := bind_eq_ok.mp hstep
    obtain ⟨rfl, rfl⟩ := Prod.mk.inj (Except.ok.inj hstep)
    exact ⟨_, by simp only [Machine.step, toOption_ok htext, Option.bind_eq_bind, Option.bind_some,
      signed_of_parse (okOr_ok.mp hn)]; rfl, hsim.push (denotes_atom _ _)⟩
  | binInt1 =>
    obtain ⟨v, hv, hstep⟩ := bind_eq_ok.mp hstep
    obtain ⟨rfl, rfl⟩ := Prod.mk.inj (Except.ok.inj hstep)
    exact ⟨_, by simp only [Machine.step, toOption_ok hv]; rfl, hsim.push (denotes_atom _ _)⟩
  | binInt2 =>
    obtain ⟨v, hv, hstep⟩ := bind_eq_ok.mp hstep
    obtain ⟨rfl, rfl⟩ := Prod.mk.inj (Except.ok.inj hstep)
    exact ⟨_, by simp only [Machine.step, toOption_ok hv]; rfl, hsim.push (denotes_atom _ _)⟩
  | binFloat =>
    obtain ⟨data, hdata, hstep⟩ := bind_eq_ok.mp hstep
    obtain ⟨rfl, rfl⟩ := Prod.mk.inj (Except.ok.inj hstep)
    exact ⟨_, by simp only [Machine.step, toOption_ok hdata]; rfl, hsim.push (denotes_atom _ _)⟩
  | binUnicode =>
    obtain ⟨len, hlen, hstep⟩ := bind_eq_ok.mp hstep
    obtain ⟨data, hdata, hstep⟩ := bind_eq_ok.mp hstep
    obtain ⟨text, htext, hstep⟩ := bind_eq_ok.mp hstep
    obtain ⟨rfl, rfl⟩ := Prod.mk.inj (Except.ok.inj hstep)
    exact ⟨_, by simp only [Machine.step, toOption_ok hlen, toOption_ok hdata, toOption_ok htext, Option.bind_eq_bind,
      Option.bind_some]; rfl, hsim.push (denotes_atom _ _)⟩
  | shortBinString =>
    obtain ⟨len, hlen, hstep⟩ := bind_eq_ok.mp hstep
    obtain ⟨data, hdata, hstep⟩ := bind_eq_ok.mp hstep
    obtain ⟨text, htext, hstep⟩ := bind_eq_ok.mp hstep
    obtain ⟨rfl, rfl⟩ := Prod.mk.inj (Except.ok.inj hstep)
    exact ⟨_, by simp only [Machine.step, toOption_ok hlen, toOption_ok hdata, toOption_ok htext, Option.bind_eq_bind,
      Option.bind_some]; rfl, hsim.push (denotes_atom _ _)⟩
  | long1 =>
    obtain ⟨len, hlen, hstep⟩ := bind_eq_ok.mp hstep
    obtain ⟨data, hdata, hstep⟩ := bind_eq_ok.mp hstep
    obtain ⟨rfl, rfl⟩ := Prod.mk.inj (Except.ok.inj hstep)
    obtain ⟨hlo, hhi⟩ := hmeets.fits data.1 (by
      simp only [Machine.longData, toOption_ok hlen, toOption_ok hdata, Option.bind_eq_bind, Option.bind_some]
      rfl)
    rw [exactLong_eq hlo hhi]
    exact ⟨_, by simp only [Machine.step, toOption_ok hlen, toOption_ok hdata, Option.bind_eq_bind, Option.bind_some]; rfl,
      hsim.push (denotes_atom _ _)⟩
  | binPut =>
    obtain ⟨index, hindex, hstep⟩ := bind_eq_ok.mp hstep
    obtain ⟨s₁, hput, hstep⟩ := bind_eq_ok.mp hstep
    obtain ⟨rfl, rfl⟩ := Prod.mk.inj (Except.ok.inj hstep)
    obtain ⟨m', hput', hsim'⟩ := hsim.put hput hmeets.unmarked
    exact ⟨m', by simp only [Machine.step, toOption_ok hindex, Option.bind_eq_bind, Option.bind_some, hput']; rfl, hsim'⟩
  | longBinPut =>
    obtain ⟨index, hindex, hstep⟩ := bind_eq_ok.mp hstep
    obtain ⟨s₁, hput, hstep⟩ := bind_eq_ok.mp hstep
    obtain ⟨rfl, rfl⟩ := Prod.mk.inj (Except.ok.inj hstep)
    obtain ⟨m', hput', hsim'⟩ := hsim.put hput hmeets.unmarked
    exact ⟨m', by simp only [Machine.step, toOption_ok hindex, Option.bind_eq_bind, Option.bind_some, hput']; rfl, hsim'⟩
  | binGet =>
    obtain ⟨index, hindex, hstep⟩ := bind_eq_ok.mp hstep
    obtain ⟨o, ho, hstep⟩ := bind_eq_ok.mp hstep
    obtain ⟨rfl, rfl⟩ := Prod.mk.inj (Except.ok.inj hstep)
    obtain ⟨m', hget, hsim'⟩ := hsim.get ho (hmeets.fresh index.1.toNat (by
      simp only [Machine.fetched, toOption_ok hindex]
      rfl))
    exact ⟨m', by simp only [Machine.step, toOption_ok hindex, Option.bind_eq_bind, Option.bind_some, hget]; rfl, hsim'⟩
  | longBinGet =>
    obtain ⟨index, hindex, hstep⟩ := bind_eq_ok.mp hstep
    obtain ⟨o, ho, hstep⟩ := bind_eq_ok.mp hstep
    obtain ⟨rfl, rfl⟩ := Prod.mk.inj (Except.ok.inj hstep)
    obtain ⟨m', hget, hsim'⟩ := hsim.get ho (hmeets.fresh index.1 (by
      simp only [Machine.fetched, toOption_ok hindex]
      rfl))
    exact ⟨m', by simp only [Machine.step, toOption_ok hindex, Option.bind_eq_bind, Option.bind_some, hget]; rfl, hsim'⟩
  | none | newTrue | newFalse | emptyTuple | emptyList | emptyDict | mark | memoize | tuple | tuple1 | tuple2 | tuple3 | append
  | appends | setItem | setItems | dict | list =>
    obtain ⟨s₁, hact, hstep⟩ := bind_eq_ok.mp hstep
    obtain ⟨rfl, rfl⟩ := Prod.mk.inj (Except.ok.inj hstep)
    obtain ⟨m', hact', hsim'⟩ := hsim.acted (by decide) hmeets hact
    exact ⟨m', by simp only [Machine.step, hact']; rfl, hsim'⟩

theorem loop_sim {n : Nat} (hsim : Sim m s) (hdisciplined : Machine.Disciplined n r m)
    (hread : readLoop rebuild n r s = .ok (o, r')) :
    ∃ v m', Machine.loop n r m = some (v, m', r') ∧ Denotes m'.heap v o := by
  induction n generalizing r m s with
  | zero => exact nomatch hread
  | succ n ih =>
    cases r with
    | nil => exact nomatch hread
    | cons b r =>
      obtain ⟨code, hcode, hread⟩ := bind_eq_ok.mp hread
      obtain rfl := Except.ok.inj hcode
      obtain ⟨op, hop, hread⟩ := bind_eq_ok.mp hread
      have hop : OpCode.tryFrom b = some op := okOr_ok.mp hop
      obtain ⟨hcore, hmeets, hnext⟩ := hdisciplined op hop
      rw [Machine.loop, hop, Option.bind_eq_bind, Option.bind_some]
      by_cases hstop : op = .stop
      · rw [if_pos hstop] at hread ⊢
        obtain ⟨⟨o', s'⟩, hpop, hread⟩ := bind_eq_ok.mp hread
        obtain ⟨rfl, rfl⟩ := Prod.mk.inj (Except.ok.inj hread)
        obtain ⟨v, stack, -, hpop', hv, -⟩ := hsim.popped hpop (by rw [hstop] at hmeets; exact hmeets.unmarked)
        exact ⟨v, { m with stack }, by rw [hpop']; rfl, hv⟩
      · rw [if_neg hstop] at hread ⊢
        obtain ⟨⟨s', r₁⟩, hstep, hread⟩ := bind_eq_ok.mp hread
        obtain ⟨m', hstep', hsim'⟩ := step_sim hcore hstop hsim hmeets hstep
        rw [hstep', Option.bind_eq_bind, Option.bind_some]
        exact ih hsim' (hnext hstop m' r₁ hstep') hread

/-- An object read from a stream of disciplined steps is what the machine has for it. -/
theorem readPickle_denotes {τ : Type} {rebuild : Rebuild τ} {r rest : Bytes} {o : Object τ}
    (hread : readPickle rebuild r = .ok (o, rest)) (hdisciplined : Machine.Disciplined r.length r Machine.new) :
    ∃ v m, Machine.run r = some (v, m, rest) ∧ Denotes m.heap v o :=
  loop_sim ⟨.nil, .nil⟩ hdisciplined hread

theorem disciplined_step {n : Nat} {b : UInt8} {op : OpCode} (hop : OpCode.tryFrom b = some op)
    (hcore : Machine.Core op) (hunmarked : none ∉ m.stack.take (Machine.taken op)) (hlong : Machine.longData op r = none)
    (hfill : Machine.filling op m = none)
    (hfresh : ∀ index ∈ Machine.fetched op r, ∀ e ∈ m.memo.lookup index, e.filled = [])
    (hnext : op ≠ .stop → ∀ next, Machine.step op r m = some next → Machine.Disciplined n next.2 next.1) :
    Machine.Disciplined (n + 1) (b :: r) m := by
  intro op' hop'
  obtain rfl := Option.some.inj (hop.symm.trans hop')
  refine ⟨hcore, ⟨hunmarked, ?_, ?_, ?_⟩, fun hstop m' r'' hstep => hnext hstop (m', r'') hstep⟩
  · rw [hlong]
    exact nofun
  · rw [hfill]
    exact nofun
  · intro index hindex e he a ha
    rw [hfresh index hindex e he] at ha
    exact absurd ha List.not_mem_nil

/-- An empty list that is put into the memo and fetched for a pair. -/
def sharedPair : Bytes := [0x5d, 0x71, 0, 0x68, 0, 0x86, 0x2e]

theorem readPickle_denotes_shared : ∃ v m, Machine.run sharedPair = some (v, m, []) ∧
    Denotes m.heap v (.tuple [.list [], .list []] : Object Empty) := by
  refine @readPickle_denotes Empty (fun _ _ => .error .panic) sharedPair [] _ rfl ?_
  refine disciplined_step rfl (by decide) (by simp [Machine.taken]) rfl rfl nofun ?_
  rintro - _ ⟨⟩
  refine disciplined_step rfl (by decide) (by simp [Machine.taken, Machine.alloc, Machine.new]) rfl rfl nofun ?_
  rintro - _ ⟨⟩
  refine disciplined_step rfl (by decide) (by simp [Machine.taken]) rfl rfl (by rintro _ ⟨⟩ _ ⟨⟩; rfl) ?_
  rintro - _ ⟨⟩
  refine disciplined_step rfl (by decide) (by simp [Machine.taken, Machine.push, Machine.alloc, Machine.new]) rfl rfl nofun ?_
  rintro - _ ⟨⟩
  refine disciplined_step rfl (by decide) (by simp [Machine.taken, Machine.push]) rfl rfl nofun ?_
  exact fun hstop => absurd rfl hstop

/-- A list that is filled after it went into the memo is fetched empty. -/
theorem readPickle_stale : ∃ r : Bytes, readPickle (fun _ _ => .error .panic) r = .ok ((.list [] : Object Empty), []) ∧
    ¬∃ v m, Machine.run r = some (v, m, []) ∧ Denotes m.heap v (.list [] : Object Empty) := by
  refine ⟨[0x5d, 0x71, 0, 0x4b, 1, 0x61, 0x68, 0, 0x2e], rfl, ?_⟩
  rintro ⟨v, m, hrun, hv⟩
  have hmachine : Machine.run [0x5d, 0x71, 0, 0x4b, 1, 0x61, 0x68, 0, 0x2e] =
      some (.ref 0, ⟨[some (.ref 0)], [(0, ⟨.ref 0, [0]⟩)], [.list [.atom (.int 1)]]⟩, []) := rfl
  obtain ⟨rfl, hrest⟩ := Prod.mk.inj (Option.some.inj (hmachine.symm.trans hrun))
  obtain ⟨rfl, -⟩ := Prod.mk.inj hrest
  obtain ⟨c, hc, ho⟩ := hv.ref
  obtain rfl := Option.some.inj hc
  exact nomatch ho

end Ruda.Pytorch
