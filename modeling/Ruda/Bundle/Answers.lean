import Ruda.Bundle.RoundTrip

/-!
# When lookups answer what the entries say

A lookup goes wrong in two ways. The table of names is searched as if it were sorted, which
opening does not check. And a key after every entry makes `get` read one entry past the
index, out of the data.
-/

namespace Ruda.Bundle

namespace EmbeddedBundle

/-- The table of names. -/
def names (b : EmbeddedBundle) : List (List UInt8) := (List.range b.namespaces.length).map fun i => (b.nameAt i).getD []

/-- Some entry of the index has this namespace id and key. -/
def HasKey (b : EmbeddedBundle) (id : Nat) (key : List UInt8) : Prop :=
  ∃ i < b.entries.2, ∃ e, b.entry i = some e ∧ e.ns = id ∧ b.keyOf e = .ok key

/-- A linear search over the entries of all namespaces of this name finds the key. -/
def Holds (b : EmbeddedBundle) (name key : List UInt8) : Prop := ∃ id, b.nameAt id = some name ∧ b.HasKey id key

/-- Every entry comes before this id and key. -/
def AllBefore (b : EmbeddedBundle) (id : Nat) (key : List UInt8) : Prop :=
  ∀ id' key', b.HasKey id' key' → toLex (id', rank key') < toLex (id, rank key)

/-- What stands after the entry index reads as an entry of this id and key. -/
def PastHit (b : EmbeddedBundle) (id : Nat) (key : List UInt8) : Prop :=
  ∃ e, b.entry b.entries.2 = some e ∧ e.ns = id ∧ b.keyOf e = .ok key ∧ (b.valueWindow e).isSome = true

/-- No lookup panics, and `get` agrees with the linear search. -/
structure Answers (b : EmbeddedBundle) : Prop where
  get : ∀ name key, ∃ r, b.get name key = .ok r ∧ (r.isSome = true ↔ b.Holds name key)
  scan : ∀ name, ∃ l, b.scan name = .ok l

/-- The search for the name of an entry is led to an id that has the key of the entry. -/
def NamesRouted (b : EmbeddedBundle) : Prop := ∀ name key, b.Holds name key →
  ∃ j, Found b.names name j ∧ (b.HasKey j key ∨ b.AllBefore j key ∧ b.PastHit j key)

/-- Where a key after all entries is looked up, what stands after the index reads as no
entry at all or as one with its key inside the blob, and not as a hit for a key that no
entry has. -/
def PastQuiet (b : EmbeddedBundle) : Prop := ∀ name j key, Found b.names name j → b.AllBefore j key →
  ∀ e, b.entry b.entries.2 = some e → (∃ k, b.keyOf e = .ok k) ∧ (b.PastHit j key → b.Holds name key)

end EmbeddedBundle

open EmbeddedBundle

variable {b : EmbeddedBundle} {names : List (List UInt8)} {rows : List Row} {name key : List UInt8} {j : Nat}

namespace Reads

theorem names_eq (h : Reads b names rows) : b.names = names := by
  refine List.ext_getElem (by simp [EmbeddedBundle.names, h.length]) fun i hi hi' => ?_
  simp only [EmbeddedBundle.names, List.getElem_map, List.getElem_range, h.nameAt, List.getElem?_eq_getElem hi',
    Option.getD_some]

theorem hasKey (h : Reads b names rows) : b.HasKey j key ↔ ∃ r ∈ rows, r.ns = j ∧ r.key = key := by
  constructor
  · rintro ⟨i, hi, e, he, hns, hkey⟩
    rw [h.count] at hi
    obtain ⟨e', he', hns', hkey', -⟩ := h.rowAt i _ (List.getElem?_eq_getElem hi)
    obtain rfl := Option.some.inj (he.symm.trans he')
    exact ⟨_, List.getElem_mem hi, hns'.symm.trans hns, Except.ok.inj (hkey'.symm.trans hkey)⟩
  · rintro ⟨r, hr, hns, hkey⟩
    obtain ⟨i, hi⟩ := List.mem_iff_getElem?.mp hr
    obtain ⟨e, he, hns', hkey', -⟩ := h.rowAt i r hi
    have hlen := (List.getElem?_eq_some_iff.mp hi).1
    exact ⟨i, by rw [h.count]; exact hlen, e, he, hns'.trans hns, hkey'.trans (congrArg Except.ok hkey)⟩

theorem allBefore (h : Reads b names rows) : b.AllBefore j key ↔ ∀ r ∈ rows, r.pos < toLex (j, rank key) := by
  constructor
  · exact fun hall r hr => hall r.ns r.key (h.hasKey.mpr ⟨r, hr, rfl, rfl⟩)
  · rintro hall id' key' hhas
    obtain ⟨r, hr, rfl, rfl⟩ := h.hasKey.mp hhas
    exact hall r hr

theorem get_cases (h : Reads b names rows) (key : List UInt8) (hf : Found names name j) :
    (b.HasKey j key ∧ ∃ v, b.get name key = .ok (some v)) ∨
    (¬b.HasKey j key ∧ ¬b.AllBefore j key ∧ b.get name key = .ok none) ∨
    (¬b.HasKey j key ∧ b.AllBefore j key ∧ b.get name key =
      match b.entry b.entries.2 with
      | none => .ok none
      | some e => (b.keyOf e).bind fun k => .ok (if e.ns = j ∧ k = key then b.valueWindow e else none)) := by
  by_cases hhas : b.HasKey j key
  · obtain ⟨r, hr, hns, hkey⟩ := h.hasKey.mp hhas
    exact .inl ⟨hhas, r.value, get_found h hf hr hns hkey⟩
  · by_cases hall : b.AllBefore j key
    · refine .inr (.inr ⟨hhas, hall, ?_⟩)
      rw [h.count]
      exact get_past h hf (h.allBefore.mp hall)
    · refine .inr (.inl ⟨hhas, hall, ?_⟩)
      have hafter : ∃ r ∈ rows, ¬r.pos < toLex (j, rank key) := by
        simpa only [not_forall, exists_prop] using h.allBefore.not.mp hall
      obtain ⟨r, hr, hafter⟩ := hafter
      exact get_missing h hf hr hafter fun r' hr' heq => hhas (h.hasKey.mpr ⟨r', hr', heq⟩)

theorem holds_of (h : Reads b names rows) (hf : Found names name j) (hhas : b.HasKey j key) : b.Holds name key :=
  ⟨j, (h.nameAt j).trans hf.1, hhas⟩

end Reads

theorem pastHit_iff {e : Entry} {k : List UInt8} (he : b.entry b.entries.2 = some e) (hk : b.keyOf e = .ok k) :
    (if e.ns = j ∧ k = key then b.valueWindow e else none).isSome = true ↔ b.PastHit j key := by
  constructor
  · intro hsome
    split at hsome
    · next heq => exact ⟨e, he, heq.1, hk.trans (congrArg Except.ok heq.2), hsome⟩
    · cases hsome
  · rintro ⟨e', he', hns, hkey, hsome⟩
    obtain rfl := Option.some.inj (he.symm.trans he')
    rw [if_pos ⟨hns, Except.ok.inj (hk.symm.trans hkey)⟩]
    exact hsome

theorem namesRouted_of_answers (h : Reads b names rows) (ha : b.Answers) : b.NamesRouted := by
  intro name key hholds
  obtain ⟨r, hr, hsome⟩ := ha.get name key
  have hr' := hsome.mpr hholds
  rw [h.names_eq]
  by_cases hfound : ∃ j, Found names name j
  · obtain ⟨j, hf⟩ := hfound
    refine ⟨j, hf, ?_⟩
    rcases h.get_cases key hf with ⟨hhas, -⟩ | ⟨-, -, hget⟩ | ⟨-, hall, hget⟩
    · exact .inl hhas
    · obtain rfl := Except.ok.inj (hget.symm.trans hr)
      cases hr'
    · refine .inr ⟨hall, ?_⟩
      rw [hr] at hget
      cases he : b.entry b.entries.2 with
      | none =>
        rw [he] at hget
        obtain rfl := Except.ok.inj hget
        cases hr'
      | some e =>
        rw [he] at hget
        obtain ⟨k, hk, hval⟩ := bind_eq_ok.mp hget.symm
        exact (pastHit_iff he hk).mp ((congrArg Option.isSome (Except.ok.inj hval)).trans hr')
  · rw [get_unknown h (not_exists.mp hfound)] at hr
    obtain rfl := Except.ok.inj hr
    cases hr'

theorem pastQuiet_of_answers (h : Reads b names rows) (ha : b.Answers) : b.PastQuiet := by
  intro name j key hf hall e he
  rw [h.names_eq] at hf
  obtain ⟨r, hr, hsome⟩ := ha.get name key
  rcases h.get_cases key hf with ⟨hhas, -⟩ | ⟨-, hno, -⟩ | ⟨-, -, hget⟩
  · exact absurd (hall j key hhas) (lt_irrefl _)
  · exact absurd hall hno
  · rw [hr, he] at hget
    obtain ⟨k, hk, hval⟩ := bind_eq_ok.mp hget.symm
    refine ⟨⟨k, hk⟩, fun hhit => hsome.mp ?_⟩
    rw [← Except.ok.inj hval]
    exact (pastHit_iff he hk).mpr hhit

theorem answers_of (h : Reads b names rows) (hrouted : b.NamesRouted) (hquiet : b.PastQuiet) : b.Answers where
  get := fun name key => by
    by_cases hfound : ∃ j, Found names name j
    · obtain ⟨j, hf⟩ := hfound
      have hled : b.Holds name key → b.HasKey j key ∨ b.AllBefore j key ∧ b.PastHit j key := fun hholds => by
        obtain ⟨j', hf', hcase⟩ := hrouted name key hholds
        rw [h.names_eq] at hf'
        rwa [hf.unique hf']
      rcases h.get_cases key hf with ⟨hhas, v, hget⟩ | ⟨hno, hnotall, hget⟩ | ⟨hno, hall, hget⟩
      · exact ⟨some v, hget, fun _ => h.holds_of hf hhas, fun _ => rfl⟩
      · refine ⟨none, hget, nofun, fun hholds => ?_⟩
        rcases hled hholds with hhas | ⟨hall, -⟩
        · exact absurd hhas hno
        · exact absurd hall hnotall
      · have hhit : b.Holds name key → b.PastHit j key := fun hholds => ((hled hholds).resolve_left hno).2
        cases he : b.entry b.entries.2 with
        | none =>
          rw [he] at hget
          refine ⟨none, hget, nofun, fun hholds => ?_⟩
          obtain ⟨e, he', -⟩ := hhit hholds
          cases he.symm.trans he'
        | some e =>
          obtain ⟨⟨k, hk⟩, hholds⟩ := hquiet name j key (h.names_eq ▸ hf) hall e he
          rw [he] at hget
          simp only [hk] at hget
          exact ⟨_, hget, (pastHit_iff he hk).trans ⟨hholds, hhit⟩⟩
    · refine ⟨none, get_unknown h (not_exists.mp hfound), nofun, fun hholds => ?_⟩
      obtain ⟨j, hf, -⟩ := hrouted name key hholds
      exact absurd ⟨j, h.names_eq ▸ hf⟩ hfound
  scan := fun name => by
    by_cases hfound : ∃ j, Found names name j
    · obtain ⟨j, hf⟩ := hfound
      exact ⟨_, scan_found h hf⟩
    · exact ⟨_, scan_unknown h (not_exists.mp hfound)⟩

theorem answers_iff {bytes : List UInt8} (h : parse bytes = .ok b) : b.Answers ↔ b.NamesRouted ∧ b.PastQuiet := by
  obtain ⟨names, rows, hreads⟩ := parse_ok h
  exact ⟨fun ha => ⟨namesRouted_of_answers hreads ha, pastQuiet_of_answers hreads ha⟩,
    fun hc => answers_of hreads hc.1 hc.2⟩

-- Bundles that were written

/-- The value of a key in the map. -/
def Entries.lookup (entries : Entries) (name key : List UInt8) : Option (List UInt8) :=
  (entries.items.find? fun item => item.1 = (name, key)).map Prod.snd

/-- The keys and values of a namespace, in key order. -/
def Entries.under (entries : Entries) (name : List UInt8) : List (List UInt8 × List UInt8) :=
  (entries.items.filter fun item => item.1.1 = name).map fun item => (item.1.2, item.2)

variable {entries : Entries}

theorem found_iff : Found entries.namespaces name j ↔ name ∈ entries.namespaces ∧ j = entries.namespaces.idxOf name := by
  have hfound : name ∈ entries.namespaces → Found entries.namespaces name (entries.namespaces.idxOf name) := by
    intro hmem
    have hi := List.idxOf_lt_length_of_mem hmem
    have hget : entries.namespaces[entries.namespaces.idxOf name]? = some name := by
      rw [List.getElem?_eq_getElem hi, List.getElem_idxOf]
    refine ⟨hget, routed_of_split (fun m hm => ?_) fun m hm hlen => ?_⟩
    · have hlt := List.pairwise_iff_getElem.mp (namespaces_sorted entries) m _ (hm.trans hi) hi hm
      rw [List.getElem_idxOf] at hlt
      rw [before, List.getElem?_eq_getElem (hm.trans hi), Option.any_some, decide_eq_true_eq]
      exact hlt
    · rw [before, List.getElem?_eq_getElem hlen, Option.any_some, decide_eq_false_iff_not, not_lt]
      rcases Nat.eq_or_lt_of_le hm with rfl | hlt
      · rw [List.getElem_idxOf]
      · have hlt := List.pairwise_iff_getElem.mp (namespaces_sorted entries) _ m hi hlen hlt
        rw [List.getElem_idxOf] at hlt
        exact hlt.le
  constructor
  · intro hf
    have hmem := List.mem_of_getElem? hf.1
    exact ⟨hmem, hf.unique (hfound hmem)⟩
  · rintro ⟨hmem, rfl⟩
    exact hfound hmem

theorem rowFor_eq_iff {item : Item} (hitem : item ∈ entries.items) (hname : name ∈ entries.namespaces) :
    (entries.rowFor item).ns = entries.namespaces.idxOf name ↔ item.1.1 = name := by
  constructor
  · intro heq
    have hi := List.getElem_idxOf (List.idxOf_lt_length_of_mem (mem_namespaces.mpr ⟨item, hitem, rfl⟩))
    have hj := List.getElem_idxOf (List.idxOf_lt_length_of_mem hname)
    rw [← hi, ← hj]
    congr 1
  · exact congrArg entries.namespaces.idxOf

theorem scan_written (h : Reads b entries.namespaces (entries.items.map entries.rowFor)) (name : List UInt8) :
    b.scan name = .ok (entries.under name) := by
  by_cases hname : name ∈ entries.namespaces
  · rw [scan_found h (found_iff.mpr ⟨hname, rfl⟩), List.filter_map, List.map_map, Entries.under]
    have hfilter : entries.items.filter ((fun r : Row => decide (r.ns = entries.namespaces.idxOf name)) ∘ entries.rowFor) =
        entries.items.filter fun item => item.1.1 = name :=
      List.filter_congr fun item hitem => decide_eq_decide.mpr (rowFor_eq_iff hitem hname)
    rw [hfilter]
    rfl
  · rw [scan_unknown h fun j hf => hname (found_iff.mp hf).1, Entries.under, List.filter_eq_nil_iff.mpr, List.map_nil]
    intro item hitem
    rw [decide_eq_true_eq]
    exact fun heq => hname (mem_namespaces.mpr ⟨item, hitem, heq⟩)

theorem hasKey_written (h : Reads b entries.namespaces (entries.items.map entries.rowFor)) (hname : name ∈ entries.namespaces) :
    b.HasKey (entries.namespaces.idxOf name) key ↔ ∃ value, ((name, key), value) ∈ entries.items := by
  rw [h.hasKey]
  constructor
  · rintro ⟨r, hr, hns, hkey⟩
    obtain ⟨⟨⟨name', key'⟩, value⟩, hitem, rfl⟩ := List.mem_map.mp hr
    obtain rfl := (rowFor_eq_iff hitem hname).mp hns
    obtain rfl : key' = key := hkey
    exact ⟨value, hitem⟩
  · rintro ⟨value, hitem⟩
    exact ⟨_, List.mem_map_of_mem hitem, rfl, rfl⟩

theorem holds_written (h : Reads b entries.namespaces (entries.items.map entries.rowFor)) :
    b.Holds name key ↔ ∃ value, ((name, key), value) ∈ entries.items := by
  constructor
  · rintro ⟨id, hid, hhas⟩
    rw [h.nameAt] at hid
    obtain ⟨hlen, hget⟩ := List.getElem?_eq_some_iff.mp hid
    have hmem := List.mem_of_getElem? hid
    have heq : id = entries.namespaces.idxOf name := by
      have hnodup : entries.namespaces.Nodup := (namespaces_sorted entries).imp fun hlt heq => by
        rw [heq] at hlt
        exact lt_irrefl _ hlt
      rw [← hget, hnodup.idxOf_getElem]
    exact (hasKey_written h hmem).mp (heq ▸ hhas)
  · rintro ⟨value, hitem⟩
    have hmem : name ∈ entries.namespaces := mem_namespaces.mpr ⟨_, hitem, rfl⟩
    exact h.holds_of (found_iff.mpr ⟨hmem, rfl⟩) ((hasKey_written h hmem).mpr ⟨value, hitem⟩)

theorem lookup_eq_some {value : List UInt8} : entries.lookup name key = some value ↔ ((name, key), value) ∈ entries.items := by
  unfold Entries.lookup
  constructor
  · intro h
    obtain ⟨⟨k, v⟩, hfind, rfl⟩ := Option.map_eq_some_iff.mp h
    have hkey := List.find?_some hfind
    rw [decide_eq_true_eq] at hkey
    obtain rfl : k = (name, key) := hkey
    exact List.mem_of_find?_eq_some hfind
  · intro h
    have hnodup : (entries.items.map Prod.fst).Nodup := by
      refine List.pairwise_map.mpr (entries.sorted.imp fun hlt heq => ?_)
      rw [heq] at hlt
      exact lt_irrefl _ hlt
    cases hfind : entries.items.find? fun item => item.1 = (name, key) with
    | none => simpa using List.find?_eq_none.mp hfind _ h
    | some item =>
      have hkey := List.find?_some hfind
      rw [decide_eq_true_eq] at hkey
      have heq : item = ((name, key), value) :=
        List.inj_on_of_nodup_map hnodup (List.mem_of_find?_eq_some hfind) h hkey
      rw [heq]
      rfl

theorem lookup_isSome : (entries.lookup name key).isSome = true ↔ ∃ value, ((name, key), value) ∈ entries.items := by
  rw [Option.isSome_iff_exists]
  exact exists_congr fun _ => lookup_eq_some

theorem get_written (h : Reads b entries.namespaces (entries.items.map entries.rowFor)) {value : List UInt8}
    (hitem : ((name, key), value) ∈ entries.items) : b.get name key = .ok (some value) :=
  get_found h (found_iff.mpr ⟨mem_namespaces.mpr ⟨_, hitem, rfl⟩, rfl⟩) (List.mem_map_of_mem hitem) rfl rfl

theorem exact_iff_answers (h : Reads b entries.namespaces (entries.items.map entries.rowFor)) :
    (∀ name key, b.get name key = .ok (entries.lookup name key)) ↔ b.Answers := by
  constructor
  · refine fun hexact => ⟨fun name key => ⟨_, hexact name key, ?_⟩, fun name => ⟨_, scan_written h name⟩⟩
    rw [lookup_isSome, holds_written h]
  · intro ha name key
    obtain ⟨r, hr, hsome⟩ := ha.get name key
    rw [holds_written h, ← lookup_isSome] at hsome
    cases hlookup : entries.lookup name key with
    | none =>
      rw [hlookup] at hsome
      rw [hr, Option.not_isSome_iff_eq_none.mp (hsome.not.mpr Bool.false_ne_true)]
    | some value => exact get_written h (lookup_eq_some.mp hlookup)

theorem namesRouted_written (h : Reads b entries.namespaces (entries.items.map entries.rowFor)) : b.NamesRouted := by
  intro name key hholds
  obtain ⟨value, hitem⟩ := (holds_written h).mp hholds
  have hmem : name ∈ entries.namespaces := mem_namespaces.mpr ⟨_, hitem, rfl⟩
  rw [h.names_eq]
  exact ⟨_, found_iff.mpr ⟨hmem, rfl⟩, .inl ((hasKey_written h hmem).mpr ⟨value, hitem⟩)⟩

/-- The bytes of a map open to a bundle that scans as the map; it also gives exactly the
values of the map when what stands after its index is quiet. A bundle of any origin answers
as its entries say when it is quiet there and its names are routed. -/
theorem lookups_exact (bytes : List UInt8) :
    (∀ (entries : Entries) (metadata : List UInt8), bytes.length < 2 ^ 63 → write entries metadata = some bytes →
      ∃ b, parse bytes = .ok b ∧ (∀ name, b.scan name = .ok (entries.under name)) ∧
        ((∀ name key, b.get name key = .ok (entries.lookup name key)) ↔ b.PastQuiet)) ∧
    ∀ b : EmbeddedBundle, parse bytes = .ok b → (b.Answers ↔ b.NamesRouted ∧ b.PastQuiet) := by
  refine ⟨fun entries metadata hlen hwrite => ?_, fun b => answers_iff⟩
  have hmax : bytes.length ≤ u64Max := by
    have : (2 : Nat) ^ 63 ≤ u64Max := by decide
    omega
  obtain ⟨b, hparse, hreads⟩ := parse_write hwrite hmax
  refine ⟨b, hparse, scan_written hreads, ?_⟩
  rw [exact_iff_answers hreads, answers_iff hparse]
  exact and_iff_right (namesRouted_written hreads)

/-- The key `[1]` of the namespace `"a"`. -/
def single (value : List UInt8) : Entries where
  items := [(([97], [1]), value)]
  sorted := List.pairwise_singleton _ _
  utf8 := by simp only [List.mem_singleton, forall_eq]; decide +kernel

/-- The header and the index of a bundle with that one key and a value of `len` bytes. -/
def singleHeader (len : Nat) : List UInt8 :=
  magic ++ leBytes 4 formatVersion ++ leBytes 4 0 ++ leBytes 4 1 ++ (leBytes 4 1 ++ [97]) ++ leBytes 4 1 ++
    entryBytes ⟨0, 0, 1, 1, len⟩

theorem singleParsed :
    parse (singleHeader 1 ++ [1, 7]) = .ok ⟨singleHeader 1 ++ [1, 7], [(24, 1)], (29, 1), 49⟩ := by decide +kernel

theorem lookups_exact_single : ∃ b, parse (singleHeader 1 ++ [1, 7]) = .ok b ∧
    (∀ name, b.scan name = .ok ((single [7]).under name)) ∧
    (∀ name key, b.get name key = .ok ((single [7]).lookup name key)) ∧ b.Answers := by
  obtain ⟨b, hparse, hscan, hget⟩ := (lookups_exact (singleHeader 1 ++ [1, 7])).1 (single [7]) [] (by decide) (by decide +kernel)
  have hquiet : b.PastQuiet := by
    obtain rfl := Except.ok.inj (hparse.symm.trans singleParsed)
    -- two bytes are no entry
    have hnone : entry ⟨singleHeader 1 ++ [1, 7], [(24, 1)], (29, 1), 49⟩ 1 = none := by decide +kernel
    intro name j key _ _ e he
    cases hnone.symm.trans he
  refine ⟨b, hparse, hscan, hget.mpr hquiet, ((lookups_exact _).2 b hparse).mpr ⟨?_, hquiet⟩⟩
  rintro name key ⟨id, hname, hhas⟩
  have hzero : id = 0 := by
    obtain ⟨i, hi, e, he, rfl, -⟩ := hhas
    have hentry : b.entry 0 = some ⟨0, 0, 1, 1, 1⟩ := by
      obtain rfl := Except.ok.inj (hparse.symm.trans singleParsed)
      decide +kernel
    obtain rfl : i = 0 := by
      obtain rfl := Except.ok.inj (hparse.symm.trans singleParsed)
      exact Nat.lt_one_iff.mp hi
    obtain rfl := Option.some.inj (hentry.symm.trans he)
    rfl
  subst hzero
  obtain rfl := Except.ok.inj (hparse.symm.trans singleParsed)
  have hname' : nameAt ⟨singleHeader 1 ++ [1, 7], [(24, 1)], (29, 1), 49⟩ 0 = some [97] := by decide +kernel
  obtain rfl := Option.some.inj (hname'.symm.trans hname)
  exact ⟨0, by rw [show EmbeddedBundle.names _ = [[97]] by decide +kernel]; exact ⟨rfl, by unfold Routed; decide⟩, .inl hhas⟩

/-- Two names that are not in order, and a key of the second. -/
def unsortedNames : List UInt8 :=
  magic ++ leBytes 4 formatVersion ++ leBytes 4 0 ++ leBytes 4 2 ++ (leBytes 4 1 ++ [98]) ++ (leBytes 4 1 ++ [97]) ++
    leBytes 4 1 ++ entryBytes ⟨1, 0, 1, 1, 0⟩ ++ [1]

/-- A key after the only key of a map panics: the first bytes of the data are taken for an
entry. And a bundle whose names are not sorted opens, but has a key that is not found. -/
theorem lookups_fail :
    (∃ b, write (single (List.replicate 20 255)) [] = some b.bytes ∧ parse b.bytes = .ok b ∧
      b.get [97] [2] = .error .panic) ∧
    ∃ b, parse unsortedNames = .ok b ∧ b.Holds [97] [1] ∧ b.get [97] [1] = .ok none := by
  refine ⟨⟨⟨singleHeader 20 ++ 1 :: List.replicate 20 255, [(24, 1)], (29, 1), 49⟩, ?_, ?_, ?_⟩,
    ⟨unsortedNames, [(24, 1), (29, 1)], (34, 1), 54⟩, ?_, ⟨1, ?_, 0, Nat.one_pos, ⟨1, 0, 1, 1, 0⟩, ?_⟩, ?_⟩
  all_goals decide +kernel

end Ruda.Bundle
