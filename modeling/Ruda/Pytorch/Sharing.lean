import Ruda.Lib.Chunks
import Ruda.Pytorch.Pickle

/-!
# Values that share containers

Lists and dicts live in a heap, and values refer to them by address. A value denotes an
object where following the addresses comes to an end. Which addresses a value reaches says
which changes of the heap it shows.
-/

namespace Ruda.Pytorch

inductive Atom
  | string (s : String)
  | int (n : Int)
  | float (bits : Nat)
  | bool (b : Bool)
  | none
  deriving DecidableEq

def Atom.object {τ : Type} : Atom → Object τ
  | string s => .string s
  | int n => .int n
  | float bits => .float bits
  | bool b => .bool b
  | none => .none

inductive Value
  | atom (a : Atom)
  | tuple (items : List Value)
  | ref (address : Nat)

inductive Cell
  | list (items : List Value)
  | dict (entries : List (String × Value))

def Cell.values : Cell → List Value
  | list items => items
  | dict entries => entries.map Prod.snd

abbrev Heap := List Cell

variable {τ : Type} {h h' : Heap} {v : Value} {o : Object τ} {a b n : Nat}

def resolveCell (f : Value → Option (Object τ)) : Cell → Option (Object τ)
  | .list items => .list <$> items.mapM f
  | .dict entries => .dict <$> entries.mapM fun e => (e.1, ·) <$> f e.2

/-- The object of a value, whose addresses are followed at most `n` times. -/
def resolve : Nat → Heap → Value → Option (Object τ)
  | 0, _, _ => none
  | n + 1, h, v =>
    match v with
    | .atom a => some a.object
    | .tuple items => .tuple <$> items.mapM (resolve n h)
    | .ref a => h[a]?.bind (resolveCell (resolve n h))

def Denotes (h : Heap) (v : Value) (o : Object τ) : Prop := ∃ n, resolve n h v = some o

/-- Whether a value contains the container at an address, or is it. -/
inductive Reaches (h : Heap) (a : Nat) : Value → Prop
  | here : Reaches h a (.ref a)
  | item {items : List Value} {v : Value} (mem : v ∈ items) (reaches : Reaches h a v) : Reaches h a (.tuple items)
  | cell {b : Nat} {c : Cell} {v : Value} (found : h[b]? = some c) (mem : v ∈ c.values) (reaches : Reaches h a v) :
      Reaches h a (.ref b)

-- Denotation

theorem resolveCell_mono {f g : Value → Option (Object τ)} (hfg : ∀ v o, f v = some o → g v = some o) {c : Cell}
    (hc : resolveCell f c = some o) : resolveCell g c = some o := by
  cases c with
  | list items =>
    obtain ⟨os, hos, rfl⟩ := Option.map_eq_some_iff.mp hc
    exact Option.map_eq_some_iff.mpr ⟨os, option_mapM_mono hfg hos, rfl⟩
  | dict entries =>
    obtain ⟨os, hos, rfl⟩ := Option.map_eq_some_iff.mp hc
    refine Option.map_eq_some_iff.mpr ⟨os, option_mapM_mono (fun e e' he => ?_) hos, rfl⟩
    obtain ⟨o, ho, rfl⟩ := Option.map_eq_some_iff.mp he
    exact Option.map_eq_some_iff.mpr ⟨o, hfg _ _ ho, rfl⟩

theorem resolve_succ {n : Nat} (hv : resolve n h v = some o) : resolve (n + 1) h v = some o := by
  induction n generalizing v o with
  | zero => exact nomatch hv
  | succ n ih =>
    cases v with
    | atom a => exact hv
    | tuple items =>
      obtain ⟨os, hos, rfl⟩ := Option.map_eq_some_iff.mp hv
      exact Option.map_eq_some_iff.mpr ⟨os, option_mapM_mono (fun v o => ih) hos, rfl⟩
    | ref a =>
      obtain ⟨c, hc, ho⟩ := Option.bind_eq_some_iff.mp hv
      exact Option.bind_eq_some_iff.mpr ⟨c, hc, resolveCell_mono (fun v o => ih) ho⟩

theorem denotes_atom (h : Heap) (a : Atom) : Denotes h (.atom a) (a.object : Object τ) := ⟨1, rfl⟩

theorem denotes_tuple {items : List Value} {os : List (Object τ)} (hitems : List.Forall₂ (Denotes h) items os) :
    Denotes h (.tuple items) (.tuple os) := by
  obtain ⟨n, hn⟩ := common_fuel (fun n v o => resolve_succ) hitems
  exact ⟨n + 1, Option.map_eq_some_iff.mpr ⟨os, hn, rfl⟩⟩

/-- An entry denotes another if it has its key and its value denotes the other's. -/
def EntryDenotes (h : Heap) (e : String × Value) (e' : String × Object τ) : Prop := e.1 = e'.1 ∧ Denotes h e.2 e'.2

def CellDenotes (h : Heap) : Cell → Object τ → Prop
  | .list items, .list os => List.Forall₂ (Denotes h) items os
  | .dict entries, .dict es => List.Forall₂ (EntryDenotes h) entries es
  | _, _ => False

theorem denotes_ref {c : Cell} (hc : h[a]? = some c) (ho : CellDenotes h c o) : Denotes h (.ref a) o := by
  cases c with
  | list items =>
    cases o with
    | list os =>
      obtain ⟨n, hn⟩ := common_fuel (fun n v o => resolve_succ) ho
      exact ⟨n + 1, Option.bind_eq_some_iff.mpr ⟨_, hc, Option.map_eq_some_iff.mpr ⟨os, hn, rfl⟩⟩⟩
    | _ => exact ho.elim
  | dict entries =>
    cases o with
    | dict es =>
      have hes : List.Forall₂ (fun e e' => ∃ n, ((e.1, ·) <$> resolve n h e.2 : Option (String × Object τ)) = some e')
          entries es := by
        refine List.Forall₂.imp (fun e e' he => ?_) ho
        obtain ⟨hkey, n, hn⟩ := he
        exact ⟨n, by rw [hn, hkey]; rfl⟩
      obtain ⟨n, hn⟩ := common_fuel (fun n e e' he => by
        obtain ⟨o, ho, rfl⟩ := Option.map_eq_some_iff.mp he
        exact Option.map_eq_some_iff.mpr ⟨o, resolve_succ ho, rfl⟩) hes
      exact ⟨n + 1, Option.bind_eq_some_iff.mpr ⟨_, hc, Option.map_eq_some_iff.mpr ⟨es, hn, rfl⟩⟩⟩
    | _ => exact ho.elim

theorem Denotes.ref (hv : Denotes h (.ref a) o) : ∃ c, h[a]? = some c ∧ CellDenotes h c o := by
  obtain ⟨n, hn⟩ := hv
  cases n with
  | zero => exact nomatch hn
  | succ n =>
    obtain ⟨c, hc, ho⟩ := Option.bind_eq_some_iff.mp hn
    refine ⟨c, hc, ?_⟩
    cases c with
    | list items =>
      obtain ⟨os, hos, rfl⟩ := Option.map_eq_some_iff.mp ho
      exact (option_mapM_eq.mp hos).imp fun v o hvo => ⟨n, hvo⟩
    | dict entries =>
      obtain ⟨es, hes, rfl⟩ := Option.map_eq_some_iff.mp ho
      refine (option_mapM_eq.mp hes).imp fun e e' he => ?_
      obtain ⟨o, ho, rfl⟩ := Option.map_eq_some_iff.mp he
      exact ⟨rfl, n, ho⟩

theorem Denotes.cases (hv : Denotes h v o) :
    (∃ a, v = .atom a ∧ o = a.object) ∨ (∃ items os, v = .tuple items ∧ o = .tuple os) ∨
      ∃ a c, v = .ref a ∧ h[a]? = some c ∧ CellDenotes h c o := by
  cases v with
  | atom a =>
    obtain ⟨n, hn⟩ := hv
    cases n with
    | zero => exact nomatch hn
    | succ n => exact .inl ⟨a, rfl, (Option.some.inj hn).symm⟩
  | tuple items =>
    obtain ⟨n, hn⟩ := hv
    cases n with
    | zero => exact nomatch hn
    | succ n =>
      obtain ⟨os, -, rfl⟩ := Option.map_eq_some_iff.mp hn
      exact .inr (.inl ⟨items, os, rfl, rfl⟩)
  | ref a =>
    obtain ⟨c, hc, ho⟩ := hv.ref
    exact .inr (.inr ⟨a, c, rfl, hc, ho⟩)

theorem Denotes.not_mark (hv : Denotes h v o) : o.isMark = false := by
  rcases hv.cases with ⟨a, rfl, rfl⟩ | ⟨items, os, rfl, rfl⟩ | ⟨a, c, rfl, -, ho⟩
  · cases a <;> rfl
  · rfl
  · cases c <;> cases o <;> first | rfl | exact ho.elim

-- Changes of the heap

/-- The heaps differ at most at one address. -/
def SameBut (b : Nat) (h h' : Heap) : Prop := ∀ a ≠ b, h[a]? = h'[a]?

theorem SameBut.set (h : Heap) (b : Nat) (c : Cell) : SameBut b h (h.set b c) := fun _ ha =>
  (List.getElem?_set_ne (Ne.symm ha)).symm

theorem resolve_sameBut (hsame : SameBut b h h') (hv : ¬Reaches h b v) : (resolve n h v : Option (Object τ)) = resolve n h' v := by
  induction n generalizing v with
  | zero => rfl
  | succ n ih =>
    cases v with
    | atom a => rfl
    | tuple items =>
      simp only [resolve]
      rw [option_mapM_congr fun x hx => ih fun hr => hv (.item hx hr)]
    | ref a =>
      have hne : a ≠ b := by
        rintro rfl
        exact hv .here
      simp only [resolve]
      rw [← hsame a hne]
      cases hc : h[a]? with
      | none => rfl
      | some c =>
        have hitem : ∀ x ∈ c.values, (resolve n h x : Option (Object τ)) = resolve n h' x := fun x hx =>
          ih fun hr => hv (.cell hc hx hr)
        rw [Option.bind_some, Option.bind_some]
        cases c with
        | list items =>
          have hitems : items.mapM (resolve n h) = items.mapM (resolve n h' : Value → Option (Object τ)) :=
            option_mapM_congr hitem
          rw [resolveCell, resolveCell, hitems]
        | dict entries =>
          rw [resolveCell, resolveCell, option_mapM_congr fun e he => ?_]
          rw [hitem e.2 (List.mem_map_of_mem he)]

theorem Denotes.sameBut (hsame : SameBut b h h') (hb : ¬Reaches h b v) (hv : Denotes h v o) : Denotes h' v o := by
  obtain ⟨n, hn⟩ := hv
  exact ⟨n, (resolve_sameBut hsame hb).symm.trans hn⟩

theorem Reaches.sameBut (hsame : SameBut b h h') (hr : Reaches h a v) (hb : ¬Reaches h b v) : Reaches h' a v := by
  induction hr with
  | here => exact .here
  | item mem _ ih => exact .item mem (ih fun hr => hb (.item mem hr))
  | @cell b' c v found mem _ ih =>
    have hne : b' ≠ b := by
      rintro rfl
      exact hb .here
    exact .cell ((hsame b' hne).symm.trans found) mem (ih fun hr => hb (.cell found mem hr))

theorem Reaches.changed (hsame : SameBut b h h') (hr : Reaches h b v) : Reaches h' b v := by
  induction hr with
  | here => exact .here
  | item mem _ ih => exact .item mem ih
  | @cell b' c v found mem _ ih =>
    by_cases heq : b' = b
    · rw [heq]
      exact .here
    · exact .cell ((hsame b' heq).symm.trans found) mem ih

/-- More containers at the end. -/
def Extends (h h' : Heap) : Prop := ∀ (a : Nat) (c : Cell), h[a]? = some c → h'[a]? = some c

theorem Extends.append (h more : Heap) : Extends h (h ++ more) := fun a c ha => by
  obtain ⟨hlt, -⟩ := List.getElem?_eq_some_iff.mp ha
  rw [List.getElem?_append_left hlt, ha]

theorem Denotes.extends (hext : Extends h h') (hv : Denotes h v o) : Denotes h' v o := by
  obtain ⟨n, hn⟩ := hv
  refine ⟨n, ?_⟩
  induction n generalizing v o with
  | zero => exact nomatch hn
  | succ n ih =>
    cases v with
    | atom a => exact hn
    | tuple items =>
      obtain ⟨os, hos, rfl⟩ := Option.map_eq_some_iff.mp hn
      exact Option.map_eq_some_iff.mpr ⟨os, option_mapM_mono (fun v o => ih) hos, rfl⟩
    | ref a =>
      obtain ⟨c, hc, ho⟩ := Option.bind_eq_some_iff.mp hn
      exact Option.bind_eq_some_iff.mpr ⟨c, hext a c hc, resolveCell_mono (fun v o => ih) ho⟩

theorem Reaches.extends (hext : Extends h h') (hr : Reaches h a v) : Reaches h' a v := by
  induction hr with
  | here => exact .here
  | item mem _ ih => exact .item mem ih
  | cell found mem _ ih => exact .cell (hext _ _ found) mem ih

theorem resolve_cell_item {c : Cell} (hc : h[a]? = some c) (hv : v ∈ c.values) (ha : resolve (n + 1) h (.ref a) = some o) :
    ∃ o' : Object τ, resolve n h v = some o' := by
  obtain ⟨c', hc', ho⟩ := Option.bind_eq_some_iff.mp ha
  obtain rfl := Option.some.inj (hc.symm.trans hc')
  cases c with
  | list items =>
    obtain ⟨os, hos, -⟩ := Option.map_eq_some_iff.mp ho
    exact option_mapM_mem hos hv
  | dict entries =>
    obtain ⟨es, hes, -⟩ := Option.map_eq_some_iff.mp ho
    obtain ⟨e, he, rfl⟩ := List.mem_map.mp hv
    obtain ⟨e', he'⟩ := option_mapM_mem hes he
    obtain ⟨o', ho', -⟩ := Option.map_eq_some_iff.mp he'
    exact ⟨o', ho'⟩

theorem resolve_reached (hr : Reaches h a v) (hv : resolve n h v = some o) :
    ∃ k ≤ n, ∃ o' : Object τ, resolve k h (.ref a) = some o' := by
  induction hr generalizing n o with
  | here => exact ⟨n, le_rfl, o, hv⟩
  | @item items v mem _ ih =>
    cases n with
    | zero => exact nomatch hv
    | succ n =>
      obtain ⟨os, hos, -⟩ := Option.map_eq_some_iff.mp hv
      obtain ⟨o', ho'⟩ := option_mapM_mem hos mem
      obtain ⟨k, hk, h'⟩ := ih ho'
      exact ⟨k, Nat.le_succ_of_le hk, h'⟩
  | @cell b c v found mem _ ih =>
    cases n with
    | zero => exact nomatch hv
    | succ n =>
      obtain ⟨o', ho'⟩ := resolve_cell_item found mem hv
      obtain ⟨k, hk, h'⟩ := ih ho'
      exact ⟨k, Nat.le_succ_of_le hk, h'⟩

theorem Denotes.acyclic {c : Cell} (ha : Denotes h (.ref a) o) (hc : h[a]? = some c) (hv : v ∈ c.values) :
    ¬Reaches h a v := by
  intro hr
  obtain ⟨n, hn⟩ := ha
  induction n using Nat.strongRecOn generalizing o with
  | ind n ih =>
    cases n with
    | zero => exact nomatch hn
    | succ n =>
      obtain ⟨o', ho'⟩ := resolve_cell_item hc hv hn
      obtain ⟨k, hk, o'', ho''⟩ := resolve_reached hr ho'
      exact ih k (Nat.lt_succ_of_le hk) ho''

end Ruda.Pytorch
