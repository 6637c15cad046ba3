import Ruda.Bundle.Lookup

/-!
# What opening a bundle establishes

A blob that `parse` accepts has an entry index whose rows can be read and are sorted, and
names that can be read. Nothing is established about the order of the names.
-/

namespace Ruda.Bundle

variable {α : Type} {b : EmbeddedBundle} {names : List (List UInt8)} {rows : List Row}

theorem orCorrupted_ok {opt : Option α} {what : String} {a : α} : orCorrupted opt what = .ok a ↔ opt = some a := okOr_ok

theorem checkSpan_ok {available offset len : Nat} {u : Unit}
    (h : EmbeddedBundle.checkSpan available offset len = .ok u) : offset + len ≤ available := by
  obtain ⟨stop, hstop, h⟩ := bind_eq_ok.mp h
  rw [orCorrupted_ok] at hstop
  unfold checkedAdd at hstop
  split at hstop
  · obtain rfl := Option.some.inj hstop
    exact not_lt.mp (failIf_ok.mp h)
  · cases hstop

/-- A span of the data section. -/
def spanAt (b : EmbeddedBundle) (offset len : Nat) : List UInt8 := (b.bytes.drop (b.data + offset)).take len

theorem getRange_span {offset len : Nat} (hdata : b.data ≤ b.bytes.length)
    (h : offset + len ≤ b.bytes.length - b.data) :
    getRange b.bytes (b.data + offset) (b.data + offset + len) = some (spanAt b offset len) := by
  refine getRange_some.mpr ⟨by omega, by omega, ?_⟩
  rw [Nat.add_sub_cancel_left]
  rfl

/-- The row that an entry stands for. -/
def rowOf (b : EmbeddedBundle) (e : Entry) : Row where
  ns := e.ns
  key := spanAt b e.keyOffset e.keyLen
  value := spanAt b e.valueOffset e.valueLen

/-- The spans of an entry are inside the data section and its namespace exists. -/
structure EntryOk (b : EmbeddedBundle) (e : Entry) : Prop where
  known : e.ns < b.namespaces.length
  key : e.keyOffset + e.keyLen ≤ b.bytes.length - b.data
  value : e.valueOffset + e.valueLen ≤ b.bytes.length - b.data

theorem EntryOk.reads {e : Entry} (hdata : b.data ≤ b.bytes.length) (h : EntryOk b e) :
    b.keyOf e = .ok (rowOf b e).key ∧ b.valueOf e = .ok (rowOf b e).value ∧
      b.valueWindow e = some (rowOf b e).value :=
  ⟨slice_ok.mpr (getRange_span hdata h.key), slice_ok.mpr (getRange_span hdata h.value), getRange_span hdata h.value⟩

theorem validateEntry_ok (hdata : b.data ≤ b.bytes.length) {previous next : Option Entry} {index : Nat}
    (h : b.validateEntry previous index = .ok next) :
    ∃ e, next = some e ∧ b.entry index = some e ∧ EntryOk b e ∧
      ∀ p, previous = some p → EntryOk b p → (rowOf b p).pos < (rowOf b e).pos := by
  obtain ⟨e, he, h⟩ := bind_eq_ok.mp h
  rw [orCorrupted_ok] at he
  obtain ⟨u, hns, h⟩ := bind_eq_ok.mp h
  obtain ⟨u', hkey, h⟩ := bind_eq_ok.mp h
  obtain ⟨u'', hvalue, h⟩ := bind_eq_ok.mp h
  have hok : EntryOk b e := ⟨not_le.mp (failIf_ok.mp hns), checkSpan_ok hkey, checkSpan_ok hvalue⟩
  cases previous with
  | none =>
    obtain rfl := Except.ok.inj h
    exact ⟨e, rfl, he, hok, nofun⟩
  | some p =>
    dsimp only at h
    obtain ⟨before, hbefore, h⟩ := bind_eq_ok.mp h
    obtain ⟨key, hkey, h⟩ := bind_eq_ok.mp h
    obtain ⟨w, hlt, h⟩ := bind_eq_ok.mp h
    obtain rfl := Except.ok.inj h
    refine ⟨e, rfl, he, hok, fun p' hp' hpok => ?_⟩
    obtain rfl := Option.some.inj hp'
    obtain rfl := Except.ok.inj (hbefore.symm.trans (hpok.reads hdata).1)
    obtain rfl := Except.ok.inj (hkey.symm.trans (hok.reads hdata).1)
    exact ordering_lt.mp (not_not.mp (failIf_ok.mp hlt))

/-- The entries validated so far. -/
structure Validated (b : EmbeddedBundle) (es : List Entry) (previous : Option Entry) : Prop where
  read : ∀ (i : Nat) (e : Entry), es[i]? = some e → b.entry i = some e
  ok : ∀ e ∈ es, EntryOk b e
  sorted : es.Pairwise fun e e' => (rowOf b e).pos < (rowOf b e').pos
  last : es.getLast? = previous

theorem validated_of_foldlM (hdata : b.data ≤ b.bytes.length) {count : Nat} {previous : Option Entry}
    (h : (List.range count).foldlM b.validateEntry none = .ok previous) :
    ∃ es, es.length = count ∧ Validated b es previous := by
  induction count generalizing previous with
  | zero =>
    obtain rfl := Except.ok.inj h
    exact ⟨[], rfl, nofun, nofun, .nil, rfl⟩
  | succ count ih =>
    rw [List.range_succ, List.foldlM_append] at h
    obtain ⟨p, hp, h⟩ := bind_eq_ok.mp h
    obtain ⟨es, hlen, hes⟩ := ih hp
    rw [List.foldlM_cons] at h
    obtain ⟨next, hnext, h⟩ := bind_eq_ok.mp h
    obtain rfl := Except.ok.inj h
    obtain ⟨e, rfl, he, hok, hlt⟩ := validateEntry_ok hdata hnext
    refine ⟨es ++ [e], by simp [hlen], fun i e' hi => ?_, fun e' he' => ?_, ?_, by simp⟩
    · by_cases hin : i < es.length
      · rw [List.getElem?_append_left hin] at hi
        exact hes.read i e' hi
      · have hlast : i = count := by
          have := (List.getElem?_eq_some_iff.mp hi).1
          simp only [List.length_append, List.length_singleton] at this
          omega
        rw [hlast, List.getElem?_append_right (by omega), hlen, Nat.sub_self] at hi
        obtain rfl := Option.some.inj hi
        exact hlast ▸ he
    · rcases List.mem_append.mp he' with he' | he'
      · exact hes.ok e' he'
      · rw [List.mem_singleton.mp he']
        exact hok
    · refine List.pairwise_append.mpr ⟨hes.sorted, List.pairwise_singleton _ _, fun e' he' e'' he'' => ?_⟩
      rw [List.mem_singleton.mp he'']
      -- every earlier entry is at most the last one
      obtain ⟨init, last, rfl⟩ : ∃ init last, es = init ++ [last] :=
        ⟨es.dropLast, es.getLast (List.ne_nil_of_mem he'), (List.dropLast_append_getLast _).symm⟩
      have hp : p = some last := by rw [← hes.last]; simp
      have hlast : (rowOf b last).pos < (rowOf b e).pos := hlt last hp (hes.ok last (by simp))
      rcases List.mem_append.mp he' with he' | he'
      · exact ((List.pairwise_append.mp hes.sorted).2.2 e' he' last (by simp)).trans hlast
      · rw [List.mem_singleton.mp he']
        exact hlast

theorem forM_ok {f : Nat → Res Unit} {l : List Nat} {u : Unit} (h : l.forM f = .ok u) :
    ∀ i ∈ l, f i = .ok () := by
  induction l generalizing u with
  | nil => exact nofun
  | cons n l ih =>
    obtain ⟨u', hf, hrest⟩ := bind_eq_ok.mp (show (f n >>= fun _ => l.forM f) = .ok u from h)
    intro i hi
    rcases List.mem_cons.mp hi with rfl | hi
    · exact hf
    · exact ih hrest i hi

theorem reads_of_validated {es : List Entry} {previous : Option Entry} (hdata : b.data ≤ b.bytes.length)
    (hcount : es.length = b.entries.2) (h : Validated b es previous)
    (hnames : ∀ i < b.namespaces.length, ∃ name, b.nameAt i = some name) :
    Reads b ((List.range b.namespaces.length).map fun i => (b.nameAt i).getD []) (es.map (rowOf b)) where
  nameAt := fun i => by
    by_cases hi : i < b.namespaces.length
    · obtain ⟨name, hname⟩ := hnames i hi
      simp [hi, hname]
    · have hnone : b.namespaces[i]? = none := List.getElem?_eq_none (by omega)
      rw [List.getElem?_eq_none (by simpa using hi)]
      unfold EmbeddedBundle.nameAt
      rw [hnone]
      rfl
  length := by simp
  count := by simp [hcount]
  rowAt := fun i r hr => by
    obtain ⟨e, he, rfl⟩ : ∃ e, es[i]? = some e ∧ rowOf b e = r := by
      rw [List.getElem?_map] at hr
      exact Option.map_eq_some_iff.mp hr
    exact ⟨e, h.read i e he, rfl, (h.ok e (List.mem_of_getElem? he)).reads hdata⟩
  known := fun r hr => by
    obtain ⟨e, he, rfl⟩ := List.mem_map.mp hr
    have hknown : (rowOf b e).ns < b.namespaces.length := (h.ok e he).known
    simpa using hknown
  sorted := List.pairwise_map.mpr h.sorted

theorem parse_ok {bytes : List UInt8} (h : EmbeddedBundle.parse bytes = .ok b) : ∃ names rows, Reads b names rows := by
  obtain ⟨-, -, h⟩ := bind_eq_ok.mp h
  obtain ⟨format, -, h⟩ := bind_eq_ok.mp h
  obtain ⟨-, -, h⟩ := bind_eq_ok.mp h
  obtain ⟨metadataLen, -, h⟩ := bind_eq_ok.mp h
  obtain ⟨metadataEnd, -, h⟩ := bind_eq_ok.mp h
  obtain ⟨-, -, h⟩ := bind_eq_ok.mp h
  obtain ⟨namespaceCount, -, h⟩ := bind_eq_ok.mp h
  obtain ⟨⟨namespaces, cursor⟩, -, h⟩ := bind_eq_ok.mp h
  obtain ⟨entryCount, -, h⟩ := bind_eq_ok.mp h
  obtain ⟨indexLen, -, h⟩ := bind_eq_ok.mp h
  obtain ⟨dataStart, -, h⟩ := bind_eq_ok.mp h
  obtain ⟨_, hdata, h⟩ := bind_eq_ok.mp h
  obtain ⟨u, hvalid, h⟩ := bind_eq_ok.mp h
  obtain rfl := Except.ok.inj h
  obtain ⟨previous, hentries, hnames⟩ := bind_eq_ok.mp hvalid
  have hdata' : dataStart ≤ bytes.length := not_lt.mp (failIf_ok.mp hdata)
  obtain ⟨es, hlen, hes⟩ := validated_of_foldlM hdata' hentries
  refine ⟨_, _, reads_of_validated hdata' hlen hes fun i hi => ?_⟩
  obtain ⟨name, hname, -⟩ := bind_eq_ok.mp (forM_ok hnames i (List.mem_range.mpr hi))
  exact ⟨name, orCorrupted_ok.mp hname⟩

end Ruda.Bundle
