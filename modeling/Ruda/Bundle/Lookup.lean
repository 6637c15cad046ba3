import Ruda.Bundle.Embedded

/-!
# Lookups over the two tables

What `get` and `scan` answer on a bundle whose tables read as given names and rows, the
rows sorted. A lookup for a key after all rows lands one past the last entry: `get` reads
that entry too, although nothing is there but data.
-/

namespace Ruda.Bundle

/-- One entry with its spans read. -/
structure Row where
  ns : Nat
  key : List UInt8
  value : List UInt8

/-- Where an entry stands in the index. -/
def Row.pos (r : Row) : Nat ×ₗ List Nat := toLex (r.ns, rank r.key)

theorem rank_injective : Function.Injective rank := List.map_injective_iff.mpr fun _ _ h => UInt8.toNat_inj.mp h

theorem pos_eq_iff {r : Row} {ns : Nat} {key : List UInt8} :
    r.pos = toLex (ns, rank key) ↔ r.ns = ns ∧ r.key = key := by
  rw [Row.pos, toLex_inj, Prod.mk.injEq, rank_injective.eq_iff]

/-- The tables of `b` read as `names` and `rows`. -/
structure Reads (b : EmbeddedBundle) (names : List (List UInt8)) (rows : List Row) : Prop where
  nameAt : ∀ i, b.nameAt i = names[i]?
  length : b.namespaces.length = names.length
  count : b.entries.2 = rows.length
  rowAt : ∀ (i : Nat) (r : Row), rows[i]? = some r → ∃ e, b.entry i = some e ∧ e.ns = r.ns ∧
    b.keyOf e = .ok r.key ∧ b.valueOf e = .ok r.value ∧ b.valueWindow e = some r.value
  known : ∀ r ∈ rows, r.ns < names.length
  sorted : rows.Pairwise fun r r' => r.pos < r'.pos

theorem lowerBound_ok {len : Nat} {order : Nat → Res (Option Ordering)} {c : Nat → Ordering}
    (h : ∀ i < len, order i = .ok (some (c i))) : lowerBound len order = .ok (some (bisect (fun i => c i == .lt) len)) := by
  have hloop : ∀ fuel low high, high ≤ len →
      lowerBoundLoop order fuel low high = .ok (some (bisectFrom (fun i => c i == .lt) fuel low high)) := by
    intro fuel
    induction fuel with
    | zero => exact fun _ _ _ => rfl
    | succ fuel ih =>
      intro low high hhigh
      unfold lowerBoundLoop bisectFrom
      by_cases hlt : low < high
      · rw [if_pos hlt, if_pos hlt]
        simp only [h _ (show low + (high - low) / 2 < len by omega), ok_bind]
        cases hc : c (low + (high - low) / 2) with
        | lt => exact ih _ _ hhigh
        | eq => exact ih _ _ (by omega)
        | gt => exact ih _ _ (by omega)
      · rw [if_neg hlt, if_neg hlt]
        rfl
  exact hloop len 0 len le_rfl

-- The name of a namespace

/-- The test of the search for a name. -/
def before (names : List (List UInt8)) (name : List UInt8) (i : Nat) : Bool :=
  (names[i]?).any fun n => rank n < rank name

/-- The search for `name` is routed to `j`, and `name` is there. -/
def Found (names : List (List UInt8)) (name : List UInt8) (j : Nat) : Prop :=
  names[j]? = some name ∧ Routed (before names name) names.length j

variable {b : EmbeddedBundle} {names : List (List UInt8)} {rows : List Row} {name key : List UInt8} {j : Nat}

theorem Found.unique {k : Nat} (h : Found names name j) (h' : Found names name k) : j = k := by
  have hj := (List.getElem?_eq_some_iff.mp h.1).1
  have hk := (List.getElem?_eq_some_iff.mp h'.1).1
  rw [← (bisect_eq_iff hj.le).mpr h.2, ← (bisect_eq_iff hk.le).mpr h'.2]

theorem namespaceId_eq (h : Reads b names rows) : b.namespaceId name =
    .ok (if names[bisect (before names name) names.length]? = some name then
      some (bisect (before names name) names.length) else none) := by
  have hcmp : ∀ i < b.namespaces.length, (pure ((b.nameAt i).map fun n => cmpBytes n name) : Res (Option Ordering)) =
      .ok (some (cmpBytes (names.getD i []) name)) := by
    intro i hi
    rw [h.length] at hi
    rw [h.nameAt, List.getElem?_eq_getElem hi, List.getD_eq_getElem _ _ hi]
    rfl
  have hless : bisect (fun i => cmpBytes (names.getD i []) name == .lt) names.length =
      bisect (before names name) names.length := by
    symm
    refine (bisect_eq_iff bisect_le).mpr fun m hm => ?_
    have hlt : m < names.length := (probesFrom_mem hm).2
    refine Iff.trans ?_ ((bisect_eq_iff bisect_le).mp rfl m hm)
    rw [before, List.getElem?_eq_getElem hlt, Option.any_some, decide_eq_true_eq, List.getD_eq_getElem _ _ hlt,
      beq_iff_eq, cmpBytes, ordering_lt]
  unfold EmbeddedBundle.namespaceId
  rw [lowerBound_ok hcmp, h.length, hless]
  simp only [ok_bind, h.nameAt]
  cases hget : names[bisect (before names name) names.length]? with
  | none => rfl
  | some found => simp only [Option.some.injEq]; rfl

theorem namespaceId_some (h : Reads b names rows) (hf : Found names name j) : b.namespaceId name = .ok (some j) := by
  have hj := (List.getElem?_eq_some_iff.mp hf.1).1
  rw [namespaceId_eq h, (bisect_eq_iff hj.le).mpr hf.2, if_pos hf.1]

theorem namespaceId_none (h : Reads b names rows) (hf : ∀ j, ¬Found names name j) : b.namespaceId name = .ok none := by
  rw [namespaceId_eq h, if_neg fun hname => hf _ ⟨hname, (bisect_eq_iff bisect_le).mp rfl⟩]

-- The entry of a key

theorem cmpEntry_eq (h : Reads b names rows) {i : Nat} {r : Row} (hr : rows[i]? = some r) :
    b.cmpEntry j key i = .ok (some (ordering r.pos (toLex (j, rank key)))) := by
  obtain ⟨e, he, hns, hkey, -⟩ := h.rowAt i r hr
  unfold EmbeddedBundle.cmpEntry
  rw [he]
  simp only [hkey, ok_bind, hns]
  rfl

theorem rows_split (h : Reads b names rows) (pos : Nat ×ₗ List Nat) : ∃ c ≤ rows.length,
    (∀ i r, rows[i]? = some r → (r.pos < pos ↔ i < c)) := by
  refine ⟨(rows.takeWhile fun r => r.pos < pos).length, (List.takeWhile_prefix _).length_le, fun i r hr => ?_⟩
  have hsplit := List.takeWhile_append_dropWhile (p := fun r : Row => decide (r.pos < pos)) (l := rows)
  constructor
  · intro hlt
    by_contra hge
    have hge : (rows.takeWhile fun r => r.pos < pos).length ≤ i := by omega
    cases hdrop : rows.dropWhile fun r => r.pos < pos with
    | nil =>
      rw [hdrop, List.append_nil] at hsplit
      have := (List.getElem?_eq_some_iff.mp hr).1
      rw [hsplit] at hge
      omega
    | cons first rest =>
      have hfirst : ¬first.pos < pos := by
        have := List.head?_dropWhile_not (fun r : Row => decide (r.pos < pos)) rows
        rw [hdrop] at this
        simpa using this
      rw [← hsplit, hdrop, List.getElem?_append_right hge] at hr
      have hsorted := h.sorted
      rw [← hsplit, hdrop] at hsorted
      have hrest := (List.pairwise_append.mp hsorted).2.1
      cases hi : i - (rows.takeWhile fun r => r.pos < pos).length with
      | zero =>
        rw [hi] at hr
        obtain rfl := Option.some.inj hr
        exact hfirst hlt
      | succ d =>
        rw [hi, List.getElem?_cons_succ] at hr
        exact hfirst (((List.pairwise_cons.mp hrest).1 r (List.mem_of_getElem? hr)).trans hlt)
  · intro hlt
    rw [← hsplit, List.getElem?_append_left hlt] at hr
    simpa using List.mem_takeWhile_imp (List.mem_of_getElem? hr)

theorem lowerBound_entries (h : Reads b names rows) (j : Nat) (key : List UInt8) : ∃ c ≤ rows.length,
    (∀ i r, rows[i]? = some r → (r.pos < toLex (j, rank key) ↔ i < c)) ∧
      lowerBound b.entries.2 (b.cmpEntry j key) = .ok (some c) := by
  obtain ⟨c, hc, hsplit⟩ := rows_split h (toLex (j, rank key))
  refine ⟨c, hc, hsplit, ?_⟩
  cases rows with
  | nil =>
    rw [h.count]
    rw [Nat.le_zero.mp hc]
    rfl
  | cons first rest =>
    have hcmp : ∀ i < (first :: rest).length, b.cmpEntry j key i =
        .ok (some (ordering ((first :: rest).getD i first).pos (toLex (j, rank key)))) := by
      intro i hi
      exact cmpEntry_eq h (by rw [List.getElem?_eq_getElem hi, List.getD_eq_getElem _ _ hi])
    rw [h.count, lowerBound_ok hcmp]
    congr 2
    refine (bisect_eq_iff hc).mpr (routed_of_split (fun m hm => ?_) fun m hm hlen => ?_)
    · have hget : (first :: rest)[m]? = some ((first :: rest).getD m first) := by
        rw [List.getElem?_eq_getElem (by omega), List.getD_eq_getElem _ _ (by omega)]
      rw [beq_iff_eq, ordering_lt]
      exact (hsplit m _ hget).mpr hm
    · have hget : (first :: rest)[m]? = some ((first :: rest).getD m first) := by
        rw [List.getElem?_eq_getElem hlen, List.getD_eq_getElem _ _ hlen]
      rw [beq_eq_false_iff_ne, Ne, ordering_lt, hsplit m _ hget]
      omega

theorem get_eq (h : Reads b names rows) (hf : Found names name j) {c : Nat}
    (hc : lowerBound b.entries.2 (b.cmpEntry j key) = .ok (some c)) : b.get name key =
      match b.entry c with
      | none => .ok none
      | some e => (b.keyOf e).bind fun k => .ok (if e.ns = j ∧ k = key then b.valueWindow e else none) := by
  unfold EmbeddedBundle.get
  rw [namespaceId_some h hf]
  simp only [ok_bind, hc]
  cases b.entry c <;> rfl

theorem get_unknown (h : Reads b names rows) (hf : ∀ j, ¬Found names name j) : b.get name key = .ok none := by
  unfold EmbeddedBundle.get
  rw [namespaceId_none h hf]
  rfl

theorem get_row (h : Reads b names rows) (hf : Found names name j) {c : Nat} {r : Row} (hr : rows[c]? = some r)
    (hc : lowerBound b.entries.2 (b.cmpEntry j key) = .ok (some c)) :
    b.get name key = .ok (if r.ns = j ∧ r.key = key then some r.value else none) := by
  obtain ⟨e, he, hns, hkey, -, hwindow⟩ := h.rowAt c r hr
  rw [get_eq h hf hc, he]
  simp only [hkey, hns, hwindow]
  rfl

theorem get_found (h : Reads b names rows) (hf : Found names name j) {r : Row} (hr : r ∈ rows) (hns : r.ns = j)
    (hkey : r.key = key) : b.get name key = .ok (some r.value) := by
  obtain ⟨c, -, hsplit, hc⟩ := lowerBound_entries h j key
  obtain ⟨i, hi⟩ := List.mem_iff_getElem?.mp hr
  have hpos : r.pos = toLex (j, rank key) := pos_eq_iff.mpr ⟨hns, hkey⟩
  have hci : c ≤ i := by
    by_contra hlt
    exact absurd ((hsplit i r hi).mpr (by omega)) (by rw [hpos]; exact lt_irrefl _)
  have hlen := (List.getElem?_eq_some_iff.mp hi).1
  obtain ⟨r', hr'⟩ : ∃ r', rows[c]? = some r' := ⟨rows[c], List.getElem?_eq_getElem (by omega)⟩
  have heq : c = i := by
    by_contra hne
    have hlt := List.pairwise_iff_getElem.mp h.sorted c i (by omega) hlen (by omega)
    rw [(List.getElem?_eq_some_iff.mp hr').2, (List.getElem?_eq_some_iff.mp hi).2, hpos] at hlt
    exact absurd ((hsplit c r' hr').mp hlt) (lt_irrefl c)
  rw [get_row h hf (heq ▸ hi) hc, if_pos ⟨hns, hkey⟩]

theorem get_missing (h : Reads b names rows) (hf : Found names name j) {r : Row} (hr : r ∈ rows)
    (hafter : ¬r.pos < toLex (j, rank key)) (hno : ∀ r ∈ rows, ¬(r.ns = j ∧ r.key = key)) :
    b.get name key = .ok none := by
  obtain ⟨c, -, hsplit, hc⟩ := lowerBound_entries h j key
  obtain ⟨i, hi⟩ := List.mem_iff_getElem?.mp hr
  have hci : c ≤ i := not_lt.mp fun hlt => hafter ((hsplit i r hi).mpr hlt)
  have hlen := (List.getElem?_eq_some_iff.mp hi).1
  have hget : rows[c]? = some rows[c] := List.getElem?_eq_getElem (by omega)
  rw [get_row h hf hget hc, if_neg (hno _ (List.mem_of_getElem? hget))]

theorem get_past (h : Reads b names rows) (hf : Found names name j)
    (hall : ∀ r ∈ rows, r.pos < toLex (j, rank key)) : b.get name key =
      match b.entry rows.length with
      | none => .ok none
      | some e => (b.keyOf e).bind fun k => .ok (if e.ns = j ∧ k = key then b.valueWindow e else none) := by
  obtain ⟨c, hle, hsplit, hc⟩ := lowerBound_entries h j key
  have heq : c = rows.length := by
    by_contra hne
    have hlt : c < rows.length := by omega
    exact absurd ((hsplit c _ (List.getElem?_eq_getElem hlt)).mp (hall _ (List.getElem_mem hlt))) (lt_irrefl c)
  rw [get_eq h hf hc, heq]

-- The entries of a namespace

theorem scanFrom_ok (h : Reads b names rows) (id : Nat) {before after : List Row} (hrows : rows = before ++ after) :
    b.scanFrom id (List.range' before.length after.length) =
      .ok ((after.takeWhile fun r => r.ns = id).map fun r => (r.key, r.value)) := by
  induction after generalizing before with
  | nil => rfl
  | cons r after ih =>
    have hr : rows[before.length]? = some r := by rw [hrows]; simp
    obtain ⟨e, he, hns, hkey, hvalue, -⟩ := h.rowAt _ r hr
    have hmore := @ih (before ++ [r]) (by simpa using hrows)
    rw [List.length_append, List.length_singleton] at hmore
    rw [List.length_cons, List.range'_succ, EmbeddedBundle.scanFrom, he]
    dsimp only
    rw [hns]
    by_cases hid : r.ns = id
    · rw [if_neg (not_not.mpr hid), hkey, hvalue, List.takeWhile_cons_of_pos (by simpa using hid)]
      simp only [ok_bind, hmore]
      rfl
    · rw [if_pos hid, List.takeWhile_cons_of_neg (by simpa using hid)]
      rfl

theorem firstOf_ok (h : Reads b names rows) (id : Nat) : ∃ c ≤ rows.length,
    (∀ i r, rows[i]? = some r → (r.ns < id ↔ i < c)) ∧ ∃ first, b.firstOf id = .ok first ∧
      (∀ f, first = some f → f = c) ∧ (first = none → ∀ r, rows[c]? = some r → r.ns ≠ id) := by
  obtain ⟨c, hc, hsplit⟩ := rows_split h (toLex (id, rank []))
  have hns : ∀ i r, rows[i]? = some r → (r.ns < id ↔ i < c) := by
    intro i r hr
    rw [← hsplit i r hr, Row.pos, Prod.Lex.toLex_lt_toLex]
    have hnil : ¬rank r.key < rank [] := List.not_lt_nil _
    tauto
  have hsearch : lowerBound b.entries.2 (fun index => pure ((b.entry index).map fun e => ordering e.ns id)) =
      .ok (some c) := by
    cases rows with
    | nil =>
      rw [h.count, Nat.le_zero.mp hc]
      rfl
    | cons first rest =>
      have hget : ∀ i < (first :: rest).length, (first :: rest)[i]? = some ((first :: rest).getD i first) := by
        intro i hi
        rw [List.getElem?_eq_getElem hi, List.getD_eq_getElem _ _ hi]
      have hcmp : ∀ i < (first :: rest).length, (pure ((b.entry i).map fun e => ordering e.ns id) : Res (Option Ordering)) =
          .ok (some (ordering ((first :: rest).getD i first).ns id)) := by
        intro i hi
        obtain ⟨e, he, hns, -⟩ := h.rowAt i _ (hget i hi)
        rw [he, ← hns]
        rfl
      rw [h.count, lowerBound_ok hcmp]
      congr 2
      refine (bisect_eq_iff hc).mpr (routed_of_split (fun m hm => ?_) fun m hm hlen => ?_)
      · rw [beq_iff_eq, ordering_lt]
        exact (hns m _ (hget m (by omega))).mpr hm
      · rw [beq_eq_false_iff_ne, Ne, ordering_lt, hns m _ (hget m hlen)]
        omega
  refine ⟨c, hc, hns, ?_⟩
  unfold EmbeddedBundle.firstOf
  rw [hsearch]
  simp only [ok_bind]
  cases he : b.entry c with
  | none =>
    refine ⟨none, rfl, nofun, fun _ r hr => ?_⟩
    obtain ⟨e, he', -⟩ := h.rowAt c r hr
    cases he.symm.trans he'
  | some e =>
    refine ⟨if e.ns = id then some c else none, rfl, fun f hf => ?_, fun hnone r hr => ?_⟩
    · split at hf
      · exact (Option.some.inj hf).symm
      · cases hf
    · obtain ⟨e', he', hns', -⟩ := h.rowAt c r hr
      obtain rfl := Option.some.inj (he.symm.trans he')
      rw [← hns']
      intro hid
      rw [if_pos hid] at hnone
      cases hnone

theorem takeWhile_ns (h : Reads b names rows) {id c : Nat} (hns : ∀ i r, rows[i]? = some r → (r.ns < id ↔ i < c)) :
    (rows.drop c).takeWhile (fun r => r.ns = id) = rows.filter fun r => r.ns = id := by
  have hbefore : (rows.take c).filter (fun r => decide (r.ns = id)) = [] := by
    rw [List.filter_eq_nil_iff]
    intro r hr
    obtain ⟨i, hi⟩ := List.mem_iff_getElem?.mp hr
    have hic : i < c := by
      have := (List.getElem?_eq_some_iff.mp hi).1
      simp only [List.length_take] at this
      omega
    rw [List.getElem?_take_of_lt hic] at hi
    have := (hns i r hi).mpr hic
    simpa using this.ne
  have hge : ∀ r ∈ rows.drop c, id ≤ r.ns := by
    intro r hr
    obtain ⟨i, hi⟩ := List.mem_iff_getElem?.mp hr
    rw [List.getElem?_drop] at hi
    exact not_lt.mp fun hlt => absurd ((hns _ r hi).mp hlt) (by omega)
  have hsorted : (rows.drop c).Pairwise fun r r' => r.ns ≤ r'.ns := by
    refine (h.sorted.sublist (List.drop_sublist c rows)).imp fun {r r'} hlt => ?_
    rcases Prod.Lex.toLex_lt_toLex.mp hlt with hlt | ⟨heq, -⟩
    · exact hlt.le
    · exact heq.le
  have hafter : ∀ l : List Row, (∀ r ∈ l, id ≤ r.ns) → l.Pairwise (fun r r' => r.ns ≤ r'.ns) →
      l.takeWhile (fun r => decide (r.ns = id)) = l.filter fun r => decide (r.ns = id) := by
    intro l
    induction l with
    | nil => exact fun _ _ => rfl
    | cons r l ih =>
      intro hl hp
      obtain ⟨hr, hp⟩ := List.pairwise_cons.mp hp
      by_cases hid : r.ns = id
      · rw [List.takeWhile_cons_of_pos (by simpa using hid), List.filter_cons_of_pos (by simpa using hid),
          ih (fun r hr => hl r (List.mem_cons_of_mem _ hr)) hp]
      · -- all later rows have larger ids
        rw [List.takeWhile_cons_of_neg (by simpa using hid), List.filter_cons_of_neg (by simpa using hid)]
        symm
        rw [List.filter_eq_nil_iff]
        intro r' hr'
        have h₁ := hl r List.mem_cons_self
        have h₂ := hr r' hr'
        simp only [decide_eq_true_eq]
        omega
  rw [hafter _ hge hsorted]
  conv_rhs => rw [← List.take_append_drop c rows]
  rw [List.filter_append, hbefore, List.nil_append]

theorem scan_found (h : Reads b names rows) (hf : Found names name j) :
    b.scan name = .ok ((rows.filter fun r => r.ns = j).map fun r => (r.key, r.value)) := by
  obtain ⟨c, hc, hns, first, hfirst, hsome, hnone⟩ := firstOf_ok h j
  have htake := takeWhile_ns h hns
  unfold EmbeddedBundle.scan
  rw [namespaceId_some h hf]
  simp only [ok_bind, hfirst]
  cases first with
  | some f =>
    obtain rfl := hsome f rfl
    have hscan := scanFrom_ok h j (List.take_append_drop f rows).symm
    rw [List.length_take, min_eq_left hc, List.length_drop, htake] at hscan
    simp only [h.count]
    exact hscan
  | none =>
    have hempty : (rows.drop c).takeWhile (fun r => decide (r.ns = j)) = [] := by
      cases hdrop : rows.drop c with
      | nil => rfl
      | cons r rest =>
        refine List.takeWhile_cons_of_neg ?_
        have hr : rows[c]? = some r := by
          have := congrArg (fun l : List Row => l[0]?) hdrop
          simpa using this
        simpa using hnone rfl r hr
    rw [← htake, hempty]
    rfl

theorem scan_unknown (h : Reads b names rows) (hf : ∀ j, ¬Found names name j) : b.scan name = .ok [] := by
  unfold EmbeddedBundle.scan
  rw [namespaceId_none h hf]
  rfl

end Ruda.Bundle
