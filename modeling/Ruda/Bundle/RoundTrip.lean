import Ruda.Bundle.Opening

/-!
# What the writer writes reads back

The bytes of `write` are accepted by `parse`, and the tables of the opened bundle read as
the sorted namespaces and the items of the map.
-/

namespace Ruda.Bundle

abbrev Item := (List UInt8 × List UInt8) × List UInt8

variable {bytes pre post : List UInt8} {namespaces : List (List UInt8)}

theorem pushU32_some {out out' : List UInt8} {v : Nat} :
    pushU32 out v = some out' ↔ v < 2 ^ 32 ∧ out ++ leBytes 4 v = out' := by
  unfold pushU32
  split
  · next h => exact ⟨fun hs => ⟨h, Option.some.inj hs⟩, fun hs => congrArg some hs.2⟩
  · next h => exact ⟨nofun, fun hs => absurd hs.1 h⟩

-- The namespace table

def namesBlock (names : List (List UInt8)) : List UInt8 := names.flatMap fun n => leBytes 4 n.length ++ n

theorem writeName_fold {names : List (List UInt8)} {out out' : List UInt8} (h : names.foldlM writeName out = some out') :
    out' = out ++ namesBlock names ∧ ∀ n ∈ names, n.length < 2 ^ 32 := by
  induction names generalizing out with
  | nil => exact ⟨by rw [namesBlock, List.flatMap_nil, List.append_nil]; exact (Option.some.inj h).symm, nofun⟩
  | cons n names ih =>
    rw [List.foldlM_cons] at h
    obtain ⟨out₁, hname, h⟩ := Option.bind_eq_some_iff.mp h
    obtain ⟨out₂, hpush, hname⟩ := Option.bind_eq_some_iff.mp hname
    obtain ⟨hfit, rfl⟩ := pushU32_some.mp hpush
    obtain rfl := Option.some.inj hname
    obtain ⟨rfl, hfits⟩ := ih h
    refine ⟨?_, List.forall_mem_cons.mpr ⟨hfit, hfits⟩⟩
    simp only [namesBlock, List.flatMap_cons, List.append_assoc]

theorem readNamespaces_mid {names : List (List UInt8)} (hfits : ∀ n ∈ names, n.length < 2 ^ 32)
    (h : bytes = pre ++ namesBlock names ++ post) (hlen : bytes.length ≤ u64Max) :
    ∃ spans, EmbeddedBundle.readNamespaces bytes names.length pre.length =
        .ok (spans, pre.length + (namesBlock names).length) ∧
      List.Forall₂ (fun span name => getRange bytes span.1 (span.1 + span.2) = some name) spans names := by
  induction names generalizing pre with
  | nil => exact ⟨[], rfl, .nil⟩
  | cons n names ih =>
    obtain ⟨hn, hfits⟩ := List.forall_mem_cons.mp hfits
    have hcons : namesBlock (n :: names) = leBytes 4 n.length ++ n ++ namesBlock names := List.flatMap_cons
    have hread : readU32 bytes pre.length = some n.length :=
      readU32_mid hn (show bytes = pre ++ leBytes 4 n.length ++ (n ++ namesBlock names ++ post) by
        rw [h, hcons]
        simp only [List.append_assoc])
    have hspan : bytes = (pre ++ leBytes 4 n.length) ++ n ++ (namesBlock names ++ post) := by
      rw [h, hcons]
      simp only [List.append_assoc]
    have hstart : (pre ++ leBytes 4 n.length).length = pre.length + 4 := by simp
    obtain ⟨spans, hrest, hspans⟩ := @ih (pre ++ leBytes 4 n.length ++ n) hfits (by
      rw [hspan]
      simp only [List.append_assoc])
    have hcursor : (pre ++ leBytes 4 n.length ++ n).length = pre.length + 4 + n.length := by
      simp [Nat.add_assoc]
    rw [hcursor] at hrest
    have hle : pre.length + 4 + n.length ≤ bytes.length := by
      rw [hspan]
      simp only [List.length_append, leBytes_length]
      omega
    refine ⟨(pre.length + 4, n.length) :: spans, ?_, .cons ?_ hspans⟩
    · rw [List.length_cons, EmbeddedBundle.readNamespaces, hread]
      have hadd : checkedAdd (pre.length + 4) n.length = some (pre.length + 4 + n.length) := if_pos (hle.trans hlen)
      have hfail : failIf (pre.length + 4 + n.length > bytes.length)
          (EmbeddedBundleError.corrupted "namespace table runs past the end") = .ok () := failIf_ok.mpr (not_lt.mpr hle)
      simp only [orCorrupted, okOr, pure_bind', hadd, hfail, ok_bind, hrest]
      have hend : pre.length + 4 + n.length + (namesBlock names).length =
          pre.length + (namesBlock (n :: names)).length := by
        rw [hcons]
        simp only [List.length_append, leBytes_length]
        omega
      rw [hend]
      rfl
    · have := getRange_mid hspan
      rwa [hstart] at this

-- The entry index

def entryBytes (e : Entry) : List UInt8 :=
  leBytes 4 e.ns ++ leBytes 4 e.keyOffset ++ leBytes 4 e.keyLen ++ leBytes 4 e.valueOffset ++ leBytes 4 e.valueLen

@[simp] theorem entryBytes_length (e : Entry) : (entryBytes e).length = entrySize := by
  simp [entryBytes, entrySize]

/-- The entry points at the key and the value of an item inside the data. -/
structure Laid (namespaces : List (List UInt8)) (data : List UInt8) (item : Item) (e : Entry) : Prop where
  ns : e.ns = namespaces.idxOf item.1.1
  key : getRange data e.keyOffset (e.keyOffset + e.keyLen) = some item.1.2
  value : getRange data e.valueOffset (e.valueOffset + e.valueLen) = some item.2
  fits : e.keyOffset < 2 ^ 32 ∧ e.keyLen < 2 ^ 32 ∧ e.valueOffset < 2 ^ 32 ∧ e.valueLen < 2 ^ 32

theorem Laid.append {data more : List UInt8} {item : Item} {e : Entry} (h : Laid namespaces data item e) :
    Laid namespaces (data ++ more) item e := ⟨h.ns, getRange_append h.key, getRange_append h.value, h.fits⟩

theorem writeEntry_ok {index data index' data' : List UInt8} {item : Item}
    (h : writeEntry namespaces (index, data) item = some (index', data')) :
    ∃ e, index' = index ++ entryBytes e ∧ data' = data ++ item.1.2 ++ item.2 ∧ Laid namespaces data' item e := by
  obtain ⟨⟨name, key⟩, value⟩ := item
  obtain ⟨i₁, h₁, h⟩ := Option.bind_eq_some_iff.mp h
  obtain ⟨i₂, h₂, h⟩ := Option.bind_eq_some_iff.mp h
  obtain ⟨i₃, h₃, h⟩ := Option.bind_eq_some_iff.mp h
  obtain ⟨i₄, h₄, h⟩ := Option.bind_eq_some_iff.mp h
  obtain ⟨hf₁, rfl⟩ := pushU32_some.mp h₁
  obtain ⟨hf₂, rfl⟩ := pushU32_some.mp h₂
  obtain ⟨hf₃, rfl⟩ := pushU32_some.mp h₃
  obtain ⟨hf₄, rfl⟩ := pushU32_some.mp h₄
  obtain ⟨rfl, rfl⟩ := Prod.mk.inj (Option.some.inj h)
  refine ⟨⟨namespaces.idxOf name, data.length, key.length, (data ++ key).length, value.length⟩, ?_, rfl, rfl,
    getRange_mid rfl, ?_, hf₁, hf₂, hf₃, hf₄⟩
  · simp only [entryBytes, List.append_assoc]
  · exact getRange_mid (List.append_nil (_ ++ _)).symm

theorem writeEntry_fold {items : List Item} {index data index' data' : List UInt8}
    (h : items.foldlM (writeEntry namespaces) (index, data) = some (index', data')) :
    ∃ es more, index' = index ++ es.flatMap entryBytes ∧ data' = data ++ more ∧
      List.Forall₂ (Laid namespaces data') items es := by
  induction items generalizing index data with
  | nil =>
    obtain ⟨rfl, rfl⟩ := Prod.mk.inj (Option.some.inj h)
    exact ⟨[], [], by simp, by simp, .nil⟩
  | cons item items ih =>
    rw [List.foldlM_cons] at h
    obtain ⟨⟨index₁, data₁⟩, hitem, h⟩ := Option.bind_eq_some_iff.mp h
    obtain ⟨e, rfl, rfl, hlaid⟩ := writeEntry_ok hitem
    obtain ⟨es, more, rfl, rfl, hes⟩ := ih h
    refine ⟨e :: es, item.1.2 ++ item.2 ++ more, ?_, ?_, .cons hlaid.append hes⟩
    · rw [List.flatMap_cons, List.append_assoc]
    · simp only [List.append_assoc]

theorem flatMap_entryBytes_length (es : List Entry) : (es.flatMap entryBytes).length = es.length * entrySize := by
  simp [List.length_flatMap, List.map_const']

theorem entry_mid {b : EmbeddedBundle} {es : List Entry} {i : Nat} {e : Entry} (he : es[i]? = some e)
    (hb : b.bytes = pre ++ es.flatMap entryBytes ++ post) (hentries : b.entries = (pre.length, es.length))
    (hns : e.ns < 2 ^ 32) (hfits : e.keyOffset < 2 ^ 32 ∧ e.keyLen < 2 ^ 32 ∧ e.valueOffset < 2 ^ 32 ∧ e.valueLen < 2 ^ 32) :
    b.entry i = some e := by
  obtain ⟨hi, rfl⟩ := List.getElem?_eq_some_iff.mp he
  have hsplit : es.flatMap entryBytes =
      (es.take i).flatMap entryBytes ++ (entryBytes es[i] ++ (es.drop (i + 1)).flatMap entryBytes) := by
    rw [← List.flatMap_cons, ← List.flatMap_append]
    simp
  have hat : (pre ++ (es.take i).flatMap entryBytes).length = b.entries.1 + i * entrySize := by
    rw [List.length_append, flatMap_entryBytes_length, List.length_take, min_eq_left hi.le, hentries]
  rw [hsplit] at hb
  have hread : ∀ (skip : List UInt8) (v : Nat) (rest : List UInt8), v < 2 ^ 32 →
      entryBytes es[i] = skip ++ leBytes 4 v ++ rest → readU32 b.bytes (b.entries.1 + i * entrySize + skip.length) = some v := by
    intro skip v rest hv hskip
    rw [← hat, ← List.length_append]
    refine readU32_mid hv (show _ = _ ++ _ ++ (rest ++ (es.drop (i + 1)).flatMap entryBytes ++ post) from ?_)
    rw [hb, hskip]
    simp only [List.append_assoc]
  obtain ⟨h₁, h₂, h₃, h₄⟩ := hfits
  have r₀ := hread [] _ _ hns (by simp only [entryBytes, List.append_assoc]; rfl)
  have r₁ := hread (leBytes 4 es[i].ns) _ _ h₁ (by simp only [entryBytes, List.append_assoc]; rfl)
  have r₂ := hread (leBytes 4 es[i].ns ++ leBytes 4 es[i].keyOffset) _ _ h₂ (by
    simp only [entryBytes, List.append_assoc]; rfl)
  have r₃ := hread (leBytes 4 es[i].ns ++ leBytes 4 es[i].keyOffset ++ leBytes 4 es[i].keyLen) _ _ h₃ (by
    simp only [entryBytes, List.append_assoc]; rfl)
  have r₄ := hread (leBytes 4 es[i].ns ++ leBytes 4 es[i].keyOffset ++ leBytes 4 es[i].keyLen ++
    leBytes 4 es[i].valueOffset) _ [] h₄ (by simp only [entryBytes, List.append_nil])
  simp only [List.length_append, leBytes_length, List.length_nil, Nat.add_zero] at r₀ r₁ r₂ r₃ r₄
  unfold EmbeddedBundle.entry
  simp only [r₀, r₁, r₂, r₃, r₄]
  rfl

-- Validation

variable {b : EmbeddedBundle}

theorem checkSpan_of {available offset len : Nat} (h : offset + len ≤ available) (hmax : available ≤ u64Max) :
    EmbeddedBundle.checkSpan available offset len = .ok () := by
  have hadd : checkedAdd offset len = some (offset + len) := if_pos (h.trans hmax)
  unfold EmbeddedBundle.checkSpan
  rw [hadd]
  exact failIf_ok.mpr (not_lt.mpr h)

theorem validateEntry_of (hdata : b.data ≤ b.bytes.length) (hmax : b.bytes.length ≤ u64Max) {previous : Option Entry}
    {index : Nat} {e : Entry} (he : b.entry index = some e) (hok : EntryOk b e)
    (hlt : ∀ p, previous = some p → EntryOk b p ∧ (rowOf b p).pos < (rowOf b e).pos) :
    b.validateEntry previous index = .ok (some e) := by
  have hmax' : b.bytes.length - b.data ≤ u64Max := (Nat.sub_le _ _).trans hmax
  have hns : failIf (e.ns ≥ b.namespaces.length) (EmbeddedBundleError.corrupted "entry points at an unknown namespace") = .ok () :=
    failIf_ok.mpr (not_le.mpr hok.known)
  unfold EmbeddedBundle.validateEntry
  rw [he]
  simp only [orCorrupted, okOr, pure_bind', hns, ok_bind, checkSpan_of hok.key hmax', checkSpan_of hok.value hmax']
  cases previous with
  | none => rfl
  | some p =>
    obtain ⟨hp, hlt⟩ := hlt p rfl
    have hsorted : failIf (ordering (toLex (p.ns, rank (rowOf b p).key)) (toLex (e.ns, rank (rowOf b e).key)) ≠ .lt)
        (EmbeddedBundleError.corrupted "entry index is not sorted by (namespace, key)") = .ok () :=
      failIf_ok.mpr (not_not.mpr (ordering_lt.mpr hlt))
    simp only [(hp.reads hdata).1, (hok.reads hdata).1, ok_bind, hsorted]
    rfl

theorem foldlM_validateEntry (hdata : b.data ≤ b.bytes.length) (hmax : b.bytes.length ≤ u64Max) {es : List Entry}
    {previous : Option Entry} (h : Validated b es previous) :
    (List.range es.length).foldlM b.validateEntry none = .ok previous := by
  have hfirst : ∀ k ≤ es.length, (List.range k).foldlM b.validateEntry none = .ok (es.take k).getLast? := by
    intro k hk
    induction k with
    | zero => rfl
    | succ k ih =>
      have hlt : k < es.length := hk
      have hget : es[k]? = some es[k] := List.getElem?_eq_getElem hlt
      rw [List.range_succ, List.foldlM_append, ih hlt.le, ok_bind, List.foldlM_cons,
        validateEntry_of hdata hmax (h.read k _ hget) (h.ok _ (List.getElem_mem hlt)) fun p hp => ?_]
      · rw [← List.take_append_getElem hlt, List.getLast?_concat]
        rfl
      · have hmem : p ∈ es.take k := List.mem_of_getLast? hp
        have hsorted := h.sorted
        rw [← List.take_append_drop k es, List.pairwise_append] at hsorted
        refine ⟨h.ok p (List.mem_of_mem_take hmem), hsorted.2.2 p hmem _ ?_⟩
        rw [List.drop_eq_getElem_cons hlt]
        exact List.mem_cons_self
  rw [hfirst _ le_rfl, List.take_length, h.last]

theorem forM_of {f : Nat → Res Unit} {l : List Nat} (h : ∀ i ∈ l, f i = .ok ()) : l.forM f = .ok () := by
  induction l with
  | nil => rfl
  | cons n l ih =>
    show (f n >>= fun _ => l.forM f) = .ok ()
    rw [h n List.mem_cons_self, ok_bind]
    exact ih fun i hi => h i (List.mem_cons_of_mem _ hi)

theorem validateEntries_of (hdata : b.data ≤ b.bytes.length) (hmax : b.bytes.length ≤ u64Max) {es : List Entry}
    {previous : Option Entry} (hcount : b.entries.2 = es.length) (h : Validated b es previous)
    (hnames : ∀ i < b.namespaces.length, ∃ name, b.nameAt i = some name) : b.validateEntries = .ok () := by
  unfold EmbeddedBundle.validateEntries
  rw [hcount, foldlM_validateEntry hdata hmax h, ok_bind]
  refine forM_of fun i hi => ?_
  obtain ⟨name, hname⟩ := hnames i (List.mem_range.mp hi)
  rw [hname]
  rfl

-- The namespaces of a map

theorem mem_namespaces {entries : Entries} {name : List UInt8} :
    name ∈ entries.namespaces ↔ ∃ item ∈ entries.items, item.1.1 = name := by
  rw [Entries.namespaces, List.mem_insertionSort, List.mem_dedup, List.mem_map]

theorem namespaces_sorted (entries : Entries) : entries.namespaces.Pairwise fun a b => rank a < rank b := by
  have : Std.Total fun a b : List UInt8 => rank a ≤ rank b := ⟨fun a b => le_total (rank a) (rank b)⟩
  have : IsTrans (List UInt8) fun a b => rank a ≤ rank b := ⟨fun _ _ _ hab hbc => hab.trans hbc⟩
  have hle : entries.namespaces.Pairwise fun a b => rank a ≤ rank b := List.pairwise_insertionSort _ _
  have hnodup : entries.namespaces.Nodup :=
    (List.perm_insertionSort _ _).nodup_iff.mpr (List.nodup_dedup _)
  exact hle.imp₂ (fun a b hab hne => lt_of_le_of_ne hab (rank_injective.ne hne)) hnodup

theorem namespaces_utf8 (entries : Entries) : ∀ name ∈ entries.namespaces, isUtf8 name = true := by
  intro name hname
  obtain ⟨item, hitem, rfl⟩ := mem_namespaces.mp hname
  exact entries.utf8 item hitem

theorem idxOf_lt {names : List (List UInt8)} (hsorted : names.Pairwise fun a b => rank a < rank b)
    {name name' : List UInt8} (h : name ∈ names) (h' : name' ∈ names) (hlt : rank name < rank name') :
    names.idxOf name < names.idxOf name' := by
  have hi := List.idxOf_lt_length_of_mem h
  have hj := List.idxOf_lt_length_of_mem h'
  by_contra hge
  rcases Nat.lt_or_eq_of_le (not_lt.mp hge) with hji | hji
  · have := List.pairwise_iff_getElem.mp hsorted _ _ hj hi hji
    rw [List.getElem_idxOf, List.getElem_idxOf] at this
    exact lt_asymm hlt this
  · have hnames : names[names.idxOf name] = name' := by
      simp only [← hji, List.getElem_idxOf]
    rw [List.getElem_idxOf] at hnames
    exact lt_irrefl _ (hnames ▸ hlt)

/-- The row that an item of the map is written as. -/
def Entries.rowFor (entries : Entries) (item : Item) : Row where
  ns := entries.namespaces.idxOf item.1.1
  key := item.1.2
  value := item.2

theorem rowFor_lt (entries : Entries) {item item' : Item} (h : item ∈ entries.items) (h' : item' ∈ entries.items)
    (hlt : toLex (rank item.1.1, rank item.1.2) < toLex (rank item'.1.1, rank item'.1.2)) :
    (entries.rowFor item).pos < (entries.rowFor item').pos := by
  rcases Prod.Lex.toLex_lt_toLex.mp hlt with hname | ⟨hname, hkey⟩
  · exact Prod.Lex.toLex_lt_toLex.mpr (.inl (idxOf_lt (namespaces_sorted entries)
      (mem_namespaces.mpr ⟨item, h, rfl⟩) (mem_namespaces.mpr ⟨item', h', rfl⟩) hname))
  · have hname : item.1.1 = item'.1.1 := rank_injective hname
    exact Prod.Lex.toLex_lt_toLex.mpr (.inr ⟨congrArg entries.namespaces.idxOf hname, hkey⟩)

-- The whole file

/-- What stands before the entry index. -/
def header (entries : Entries) (metadata : List UInt8) : List UInt8 :=
  magic ++ leBytes 4 formatVersion ++ leBytes 4 metadata.length ++ metadata ++
    leBytes 4 entries.namespaces.length ++ namesBlock entries.namespaces ++ leBytes 4 entries.items.length

/-- The sizes that the file records fit a `u32`. -/
structure Fits (entries : Entries) (metadata : List UInt8) : Prop where
  metadata : metadata.length < 2 ^ 32
  namespaces : entries.namespaces.length < 2 ^ 32
  names : ∀ n ∈ entries.namespaces, n.length < 2 ^ 32
  items : entries.items.length < 2 ^ 32

theorem write_ok {entries : Entries} {metadata : List UInt8} (h : write entries metadata = some bytes) :
    Fits entries metadata ∧ ∃ es data, List.Forall₂ (Laid entries.namespaces data) entries.items es ∧
      bytes = header entries metadata ++ es.flatMap entryBytes ++ data := by
  obtain ⟨⟨index, data⟩, hitems, h⟩ := Option.bind_eq_some_iff.mp h
  obtain ⟨b₁, h₁, h⟩ := Option.bind_eq_some_iff.mp h
  obtain ⟨b₂, h₂, h⟩ := Option.bind_eq_some_iff.mp h
  obtain ⟨b₃, h₃, h⟩ := Option.bind_eq_some_iff.mp h
  obtain ⟨b₄, h₄, h⟩ := Option.bind_eq_some_iff.mp h
  obtain rfl := Option.some.inj h
  obtain ⟨hf₁, rfl⟩ := pushU32_some.mp h₁
  obtain ⟨hf₂, rfl⟩ := pushU32_some.mp h₂
  obtain ⟨rfl, hf₃⟩ := writeName_fold h₃
  obtain ⟨hf₄, rfl⟩ := pushU32_some.mp h₄
  obtain ⟨es, more, rfl, rfl, hes⟩ := writeEntry_fold hitems
  exact ⟨⟨hf₁, hf₂, hf₃, hf₄⟩, es, _, hes, rfl⟩

/-- The parts of an opened bundle stand where the writer puts them. -/
structure Written (entries : Entries) (b : EmbeddedBundle) (pre data : List UInt8) (es : List Entry) : Prop where
  layout : b.bytes = pre ++ es.flatMap entryBytes ++ data
  index : b.entries = (pre.length, es.length)
  start : b.data = pre.length + es.length * entrySize
  names : List.Forall₂ (fun span name => getRange b.bytes span.1 (span.1 + span.2) = some name) b.namespaces
    entries.namespaces
  items : List.Forall₂ (Laid entries.namespaces data) entries.items es
  few : entries.namespaces.length < 2 ^ 32

namespace Written

variable {entries : Entries} {data : List UInt8} {es : List Entry}

theorem data_le (h : Written entries b pre data es) : b.data ≤ b.bytes.length ∧ b.bytes.length - b.data = data.length := by
  have hlen : b.bytes.length = b.data + data.length := by
    rw [h.layout, h.start, List.length_append, List.length_append, flatMap_entryBytes_length]
  omega

theorem spanAt_eq (h : Written entries b pre data es) {offset len : Nat} {s : List UInt8}
    (hs : getRange data offset (offset + len) = some s) : offset + len ≤ data.length ∧ spanAt b offset len = s := by
  obtain ⟨-, hle, rfl⟩ := getRange_some.mp hs
  refine ⟨hle, ?_⟩
  have hlen : (pre ++ es.flatMap entryBytes).length = b.data := by
    rw [h.start, List.length_append, flatMap_entryBytes_length]
  rw [spanAt, h.layout, Nat.add_sub_cancel_left, ← hlen, ← List.drop_drop, List.drop_left]

theorem nameAt (h : Written entries b pre data es) (i : Nat) : b.nameAt i = entries.namespaces[i]? := by
  unfold EmbeddedBundle.nameAt
  have hlen := h.names.length_eq
  by_cases hi : i < entries.namespaces.length
  · have hname := (List.forall₂_iff_get.mp h.names).2 i (by omega) hi
    rw [List.get_eq_getElem, List.get_eq_getElem] at hname
    have hutf8 := namespaces_utf8 entries _ (List.getElem_mem hi)
    rw [List.getElem?_eq_getElem (by omega), List.getElem?_eq_getElem hi]
    simp only [Option.bind_eq_bind, Option.bind_some, hname, hutf8, if_true]
  · rw [List.getElem?_eq_none (by omega), List.getElem?_eq_none (by omega)]
    rfl

theorem laid (h : Written entries b pre data es) {e : Entry} (he : e ∈ es) :
    ∃ item ∈ entries.items, Laid entries.namespaces data item e := by
  obtain ⟨i, hi, rfl⟩ := List.getElem_of_mem he
  have hlen := h.items.length_eq
  exact ⟨_, List.getElem_mem (by omega), (List.forall₂_iff_get.mp h.items).2 i (by omega) hi⟩

theorem ns_lt (h : Written entries b pre data es) {e : Entry} (he : e ∈ es) : e.ns < entries.namespaces.length := by
  obtain ⟨item, hitem, hlaid⟩ := h.laid he
  rw [hlaid.ns]
  exact List.idxOf_lt_length_of_mem (mem_namespaces.mpr ⟨item, hitem, rfl⟩)

theorem rows (h : Written entries b pre data es) : es.map (rowOf b) = entries.items.map entries.rowFor := by
  refine List.ext_getElem (by simp [h.items.length_eq.symm]) fun i hi hi' => ?_
  rw [List.length_map] at hi hi'
  have hlaid := (List.forall₂_iff_get.mp h.items).2 i hi' hi
  rw [List.get_eq_getElem, List.get_eq_getElem] at hlaid
  rw [List.getElem_map, List.getElem_map, rowOf, Entries.rowFor, hlaid.ns, (h.spanAt_eq hlaid.key).2,
    (h.spanAt_eq hlaid.value).2]

theorem validated (h : Written entries b pre data es) : Validated b es es.getLast? where
  read := fun i e he => by
    have hmem := List.mem_of_getElem? he
    obtain ⟨item, -, hlaid⟩ := h.laid hmem
    exact entry_mid he h.layout h.index ((h.ns_lt hmem).trans h.few) hlaid.fits
  ok := fun e he => by
    obtain ⟨item, -, hlaid⟩ := h.laid he
    refine ⟨?_, ?_, ?_⟩
    · rw [h.names.length_eq]
      exact h.ns_lt he
    · rw [h.data_le.2]
      exact (h.spanAt_eq hlaid.key).1
    · rw [h.data_le.2]
      exact (h.spanAt_eq hlaid.value).1
  sorted := by
    rw [← List.pairwise_map (f := rowOf b) (R := fun r r' : Row => r.pos < r'.pos), h.rows, List.pairwise_map]
    exact entries.sorted.imp_of_mem fun {item item'} hitem hitem' hlt => rowFor_lt entries hitem hitem' hlt
  last := rfl

theorem reads (h : Written entries b pre data es) : Reads b entries.namespaces (entries.items.map entries.rowFor) := by
  have hnames : ∀ i < b.namespaces.length, ∃ name, b.nameAt i = some name := fun i hi => by
    rw [h.names.length_eq] at hi
    exact ⟨_, (h.nameAt i).trans (List.getElem?_eq_getElem hi)⟩
  have hreads := reads_of_validated h.data_le.1 (by rw [h.index]) h.validated hnames
  rw [h.rows] at hreads
  refine { nameAt := h.nameAt, length := h.names.length_eq, count := hreads.count, rowAt := hreads.rowAt, known := ?_
           sorted := hreads.sorted }
  intro r hr
  have hknown := hreads.known r hr
  rwa [List.length_map, List.length_range, h.names.length_eq] at hknown

end Written

/-- The bytes of a map are accepted, and its names and items are what the tables read as. -/
theorem parse_write {entries : Entries} {metadata : List UInt8} (h : write entries metadata = some bytes)
    (hmax : bytes.length ≤ u64Max) : ∃ b, EmbeddedBundle.parse bytes = .ok b ∧
      Reads b entries.namespaces (entries.items.map entries.rowFor) := by
  obtain ⟨hfits, es, data, hes, hbytes⟩ := write_ok h
  have hcount : entries.items.length = es.length := hes.length_eq
  -- the words of the header, in the order they are read in
  have r₀ : readU32 bytes magic.length = some formatVersion :=
    readU32_mid (by decide) (by rw [hbytes, header]; simp only [List.append_assoc]; rfl)
  have r₁ : readU32 bytes (magic ++ leBytes 4 formatVersion).length = some metadata.length :=
    readU32_mid hfits.metadata (by rw [hbytes, header]; simp only [List.append_assoc]; rfl)
  have r₂ : readU32 bytes (magic ++ leBytes 4 formatVersion ++ leBytes 4 metadata.length ++ metadata).length =
      some entries.namespaces.length :=
    readU32_mid hfits.namespaces (by rw [hbytes, header]; simp only [List.append_assoc]; rfl)
  obtain ⟨spans, r₃, hspans⟩ := @readNamespaces_mid bytes (magic ++ leBytes 4 formatVersion ++
    leBytes 4 metadata.length ++ metadata ++ leBytes 4 entries.namespaces.length) _ _ hfits.names (by
      rw [hbytes, header]; simp only [List.append_assoc]; rfl) hmax
  have r₄ : readU32 bytes (magic ++ leBytes 4 formatVersion ++ leBytes 4 metadata.length ++ metadata ++
      leBytes 4 entries.namespaces.length ++ namesBlock entries.namespaces).length = some entries.items.length :=
    readU32_mid hfits.items (by rw [hbytes, header]; simp only [List.append_assoc]; rfl)
  have hlen : bytes.length = (header entries metadata).length + es.length * entrySize + data.length := by
    rw [hbytes, List.length_append, List.length_append, flatMap_entryBytes_length]
  have hheader : (header entries metadata).length = magic.length + 4 + 4 + metadata.length + 4 +
      (namesBlock entries.namespaces).length + 4 := by
    simp only [header, List.length_append, leBytes_length]
  simp only [List.length_append, leBytes_length] at r₁ r₂ r₃ r₄
  let b : EmbeddedBundle :=
    { bytes, namespaces := spans, entries := ((header entries metadata).length, es.length)
      data := (header entries metadata).length + es.length * entrySize }
  have hwritten : Written entries b (header entries metadata) data es := ⟨hbytes, rfl, rfl, hspans, hes, hfits.namespaces⟩
  have hvalid : b.validateEntries = .ok () := by
    refine validateEntries_of hwritten.data_le.1 hmax rfl hwritten.validated fun i hi => ?_
    rw [hwritten.names.length_eq] at hi
    exact ⟨_, (hwritten.nameAt i).trans (List.getElem?_eq_getElem hi)⟩
  refine ⟨b, ?_, hwritten.reads⟩
  have hmagic : failIf (bytes.length < magic.length + 8 ∨ bytes.take magic.length ≠ magic) EmbeddedBundleError.notABundle = .ok () := by
    refine failIf_ok.mpr (not_or.mpr ⟨by omega, not_not.mpr ?_⟩)
    rw [hbytes, header]
    simp only [List.append_assoc, List.take_left]
  have hformat : failIf (formatVersion ≠ formatVersion) (EmbeddedBundleError.unsupportedFormat formatVersion) = .ok () :=
    failIf_ok.mpr (not_not.mpr rfl)
  have hmetadata : checkedAdd (magic.length + 4 + 4) metadata.length = some (magic.length + 4 + 4 + metadata.length) :=
    if_pos (by omega)
  have hmul : checkedMul entries.items.length entrySize = some (es.length * entrySize) := by
    rw [hcount]
    exact if_pos (by omega)
  have hadd : checkedAdd (header entries metadata).length (es.length * entrySize) = some b.data := if_pos (by omega)
  have hend : failIf (magic.length + 4 + 4 + metadata.length > bytes.length) (EmbeddedBundleError.corrupted "metadata runs past the end") =
      .ok () := failIf_ok.mpr (by omega)
  have hindex : failIf (b.data > bytes.length) (EmbeddedBundleError.corrupted "entry index runs past the end") = .ok () :=
    failIf_ok.mpr (not_lt.mpr hwritten.data_le.1)
  refine bind_eq_ok.mpr ⟨(), hmagic, bind_eq_ok.mpr ⟨_, orCorrupted_ok.mpr r₀, bind_eq_ok.mpr ⟨(), hformat, ?_⟩⟩⟩
  refine bind_eq_ok.mpr ⟨_, orCorrupted_ok.mpr r₁, bind_eq_ok.mpr ⟨_, orCorrupted_ok.mpr hmetadata, ?_⟩⟩
  refine bind_eq_ok.mpr ⟨(), hend, bind_eq_ok.mpr ⟨_, orCorrupted_ok.mpr r₂, bind_eq_ok.mpr ⟨_, r₃, ?_⟩⟩⟩
  refine bind_eq_ok.mpr ⟨_, orCorrupted_ok.mpr r₄, bind_eq_ok.mpr ⟨_, orCorrupted_ok.mpr hmul, ?_⟩⟩
  rw [← hheader]
  refine bind_eq_ok.mpr ⟨_, orCorrupted_ok.mpr hadd, bind_eq_ok.mpr ⟨(), hindex, ?_⟩⟩
  rw [hcount]
  exact bind_eq_ok.mpr ⟨(), hvalid, rfl⟩

end Ruda.Bundle
