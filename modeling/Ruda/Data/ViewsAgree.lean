import Ruda.Data.Views

/-!
# The views agree with element access

What a dataset holds is a list. Each view is shown to hold the list that it is built to show,
for single reads and for reads of many items, and no read leaves the range of its indices.
-/

namespace Ruda.Data

variable {A B I : Type}

-- Reads of many items

theorem collect_eq {f : A → Checked (Option B)} {g : A → Option B} {l : List A}
    (h : ∀ pre x post, l = pre ++ x :: post → (∀ y ∈ pre, (g y).isSome = true) → f x = .ok (g x)) :
    collect f l = .ok (l.mapM g) := by
  induction l with
  | nil => rfl
  | cons x l ih =>
    rw [collect, h [] x l rfl (fun y hy => by cases hy), ok_bind, List.mapM_cons]
    cases hg : g x with
    | none => rfl
    | some y =>
      have hrest : collect f l = .ok (l.mapM g) := ih fun pre z post hsplit hpre =>
        h (x :: pre) z post (hsplit ▸ rfl) (List.forall_mem_cons.mpr ⟨hg ▸ rfl, hpre⟩)
      simp only [hrest, ok_bind, Option.bind_eq_bind, Option.bind_some]
      cases l.mapM g with
      | none => rfl
      | some ys => rfl

/-- A read of many items: up to the first absent one the indices are small. -/
structure Readable (len : Nat) (indices : List Nat) : Prop where
  usize : ∀ i ∈ indices, i < 2 ^ 63
  small : ∀ pre i post, indices = pre ++ i :: post → (∀ j ∈ pre, j < len) → i ≤ 2 ^ 62

theorem readable_of_le {len : Nat} {indices : List Nat} (h : ∀ i ∈ indices, i ≤ 2 ^ 62) : Readable len indices :=
  ⟨fun i hi => lt_of_le_of_lt (h i hi) (by norm_num), fun _ i _ hsplit _ => h i (hsplit ▸ List.mem_append_right _ List.mem_cons_self)⟩

theorem eq_of_range'_split {start n i : Nat} {pre post : List Nat} (h : List.range' start n = pre ++ i :: post) :
    i = start + pre.length := by
  have hlen := congrArg List.length h
  rw [List.length_range', List.length_append, List.length_cons] at hlen
  have hget : (List.range' start n)[pre.length]? = some i := by simp [h]
  rw [List.getElem?_range' (by omega), Nat.one_mul] at hget
  exact (Option.some.inj hget).symm

theorem readable_range' {len current size : Nat} (hlen : len < 2 ^ 62) (hsize : size < 2 ^ 62) (hcurrent : current ≤ 2 ^ 62) :
    Readable len (List.range' current size) := by
  refine ⟨fun i hi => ?_, fun pre i post hsplit hpre => ?_⟩
  · have := List.mem_range'_1.mp hi
    omega
  · have hi := eq_of_range'_split hsplit
    rcases List.eq_nil_or_concat pre with rfl | ⟨pre, x, rfl⟩
    · rw [hi]
      exact hcurrent
    · -- the item before is there, so this index is the length at most
      rw [List.concat_eq_append] at *
      have hx : x = current + pre.length := eq_of_range'_split (by rw [hsplit, List.append_assoc]; rfl)
      have hlt := hpre x (by simp)
      rw [List.length_append, List.length_singleton] at hi
      omega

/-- What a view is shown to hold. -/
structure Lists (d : Dataset I) (items : List I) : Prop where
  len : d.len = .ok items.length
  small : items.length < 2 ^ 62
  get : ∀ i ≤ 2 ^ 62, d.get i = .ok items[i]?
  getMany : ∀ indices, Readable items.length indices → d.getMany indices = .ok (indices.mapM fun i => items[i]?)

theorem lists_source {len : Nat} {get : Nat → Option I} (hget : ∀ i, (get i).isSome = true ↔ i < len) (hlen : len < 2 ^ 62) :
    ∃ items, Lists (Dataset.ofGet len get) items := by
  have hitems : ∀ i, (List.ofFn fun k : Fin len => (get k).get ((hget k).mpr k.isLt))[i]? = get i := by
    intro i
    rw [List.getElem?_ofFn]
    split
    · exact Option.some_get _
    · next h => exact (Option.not_isSome_iff_eq_none.mp (mt (hget i).mp h)).symm
  refine ⟨List.ofFn fun k : Fin len => (get k).get ((hget k).mpr k.isLt), ?_, ?_, fun i _ => ?_, fun indices _ => ?_⟩
  · rw [List.length_ofFn]
    rfl
  · rwa [List.length_ofFn]
  · rw [hitems]
    rfl
  · simp only [hitems]
    exact collect_eq fun _ _ _ _ _ => rfl

-- Windows

def windowsOf (n : Nat) (items : List I) : List (List I) :=
  (List.range (items.length + 1 - n)).map fun i => (items.drop i).take n

theorem mapM_range' (items : List I) (i n : Nat) :
    (List.range' i n).mapM (fun k => items[k]?) =
      if n = 0 ∨ i + n ≤ items.length then some ((items.drop i).take n) else none := by
  induction n generalizing i with
  | zero => simp
  | succ n ih =>
    rw [List.range'_succ, List.mapM_cons, ih]
    by_cases hi : i < items.length
    · rw [List.getElem?_eq_getElem hi, Option.bind_eq_bind, Option.bind_some, List.drop_eq_getElem_cons hi,
        List.take_succ_cons]
      by_cases hle : n = 0 ∨ i + 1 + n ≤ items.length
      · rw [if_pos hle, if_pos (by omega)]
        rfl
      · rw [if_neg hle, if_neg (by omega)]
        rfl
    · have hout : ¬(n + 1 = 0 ∨ i + (n + 1) ≤ items.length) := by omega
      rw [List.getElem?_eq_none (not_lt.mp hi), if_neg hout]
      rfl

theorem getElem?_windowsOf {n : Nat} (hn : 0 < n) (items : List I) (i : Nat) :
    (windowsOf n items)[i]? = (List.range' i n).mapM fun k => items[k]? := by
  rw [mapM_range', windowsOf, List.getElem?_map]
  by_cases hi : i < items.length + 1 - n
  · rw [List.getElem?_range hi, if_pos (by omega)]
    rfl
  · rw [List.getElem?_eq_none (by rw [List.length_range]; omega), if_neg (by omega)]
    rfl

theorem lists_windows {w : WindowsDataset I} {items : List I} (h : Lists w.dataset items) (hsize : w.size < 2 ^ 62) :
    Lists w.toDataset (windowsOf w.size items) := by
  have hsmall := h.small
  have hpos := w.nonZero
  have hrange : ∀ i ≤ 2 ^ 62, w.range i = .ok (List.range' i w.size) := by
    intro i hi
    rw [WindowsDataset.range, addUsize, if_pos (by simp only [usizeMax, u64Max]; omega), pure_bind', Nat.add_sub_cancel_left]
    rfl
  have hlength : (windowsOf w.size items).length = items.length + 1 - w.size := by
    rw [windowsOf, List.length_map, List.length_range]
  refine ⟨?_, by omega, fun i hi => ?_, fun indices hindices => ?_⟩
  · have hasIsize : ∀ n, n < 2 ^ 62 → WindowsDataset.asIsize n = n := fun n hn => if_pos (by omega)
    change (w.dataset.len >>= fun len => _) = _
    rw [h.len, ok_bind, hasIsize _ hsmall, hasIsize _ hsize, WindowsDataset.isize, if_pos (by omega), pure_bind',
      WindowsDataset.isize, if_pos (by omega), pure_bind', hlength]
    exact congrArg Except.ok (by omega)
  · change w.window i = _
    rw [WindowsDataset.window, hrange i hi, ok_bind, getElem?_windowsOf hpos]
    refine collect_eq fun pre k post hsplit hpre => h.get k ?_
    exact (readable_range' hsmall hsize hi).small pre k post hsplit fun j hj => by simpa using hpre j hj
  · change collect w.readWindow indices = _
    refine collect_eq fun pre i post hsplit hpre => ?_
    have hi : i ≤ 2 ^ 62 := hindices.small pre i post hsplit fun j hj => by simpa using hpre j hj
    rw [WindowsDataset.readWindow, hrange i hi, ok_bind, h.getMany _ (readable_range' hsmall hsize hi), ok_bind,
      getElem?_windowsOf hpos]
    cases hread : (List.range' i w.size).mapM fun k => items[k]? with
    | none => rfl
    | some window =>
      have hlen := (option_mapM_eq.mp hread).length_eq
      simp only [hlen, ne_eq, not_true_eq_false, if_false]
      rfl

-- Fractions of a dataset

/-- The items from one index up to another. -/
def between (items : List I) (start stop : Nat) : List I := (items.drop start).take (stop - start)

theorem getElem?_between (items : List I) {start stop : Nat} (i : Nat) :
    (between items start stop)[i]? = if i + start < stop then items[i + start]? else none := by
  rw [between, List.getElem?_take, List.getElem?_drop, Nat.add_comm start i]
  exact if_congr (by omega) rfl rfl

theorem length_between {items : List I} {start stop : Nat} (hstop : stop ≤ items.length) :
    (between items start stop).length = stop - start := by
  rw [between, List.length_take, List.length_drop]
  omega

theorem lists_fraction {p : PartialDataset I} {items : List I} (h : Lists p.dataset items) (hle : p.startIndex ≤ p.endIndex)
    (hend : p.endIndex ≤ items.length) : Lists p.toDataset (between items p.startIndex p.endIndex) := by
  have hsmall := h.small
  have hadd : ∀ i < 2 ^ 63, (addUsize i p.startIndex : Checked Nat) = .ok (i + p.startIndex) := fun i hi =>
    if_pos (by simp only [usizeMax, u64Max]; omega)
  have hlength := @length_between _ _ p.startIndex _ hend
  refine ⟨?_, by omega, fun i hi => ?_, fun indices hindices => ?_⟩
  · change (subUsize p.endIndex p.startIndex >>= fun a => p.dataset.len >>= fun b => pure (min a b)) = _
    rw [subUsize_ok hle, h.len, hlength]
    exact congrArg Except.ok (by omega)
  · change p.get i = _
    rw [PartialDataset.get, hadd i (by omega), ok_bind, getElem?_between]
    by_cases hlt : i + p.startIndex < p.endIndex
    · rw [if_neg (by omega), if_pos hlt]
      exact h.get _ (by omega)
    · rw [if_pos (by omega), if_neg hlt]
      rfl
  · change p.getMany indices = _
    rw [PartialDataset.getMany]
    by_cases hnil : indices = []
    · subst hnil
      rfl
    · rw [if_neg hnil]
      by_cases hstart : p.startIndex = 0
      · rw [if_pos hstart]
        have hitem : ∀ i, (between items p.startIndex p.endIndex)[i]? = if i < p.endIndex then items[i]? else none := by
          intro i
          rw [getElem?_between, hstart, Nat.add_zero]
        by_cases hany : (indices.any fun i => i ≥ p.endIndex) = true
        · rw [if_pos hany]
          obtain ⟨i, hi, hge⟩ := List.any_eq_true.mp hany
          rw [option_mapM_none hi ((hitem i).trans (if_neg (not_lt.mpr (of_decide_eq_true hge))))]
          rfl
        · rw [if_neg hany]
          have hlt : ∀ i ∈ indices, i < p.endIndex := fun i hi => not_le.mp fun hge =>
            hany (List.any_eq_true.mpr ⟨i, hi, decide_eq_true hge⟩)
          rw [h.getMany _ (readable_of_le fun i hi => by have := hlt i hi; omega)]
          exact congrArg Except.ok (option_mapM_congr fun i hi => ((hitem i).trans (if_pos (hlt i hi))).symm)
      · rw [if_neg hstart]
        have htranslate : collect p.translate indices =
            .ok (indices.mapM fun i => if i + p.startIndex < p.endIndex then some (i + p.startIndex) else none) := by
          refine collect_eq fun pre i post hsplit _ => ?_
          rw [PartialDataset.translate, hadd i (hindices.usize i (hsplit ▸ List.mem_append_right _ List.mem_cons_self)), ok_bind]
          exact congrArg Except.ok (if_congr (by omega) rfl rfl)
        have hitem : ∀ i, (between items p.startIndex p.endIndex)[i]? =
            (if i + p.startIndex < p.endIndex then some (i + p.startIndex) else none).bind fun k => items[k]? := by
          intro i
          rw [getElem?_between]
          split <;> rfl
        simp only [htranslate, ok_bind, hitem]
        rw [← option_mapM_bind]
        cases hread : indices.mapM fun i => if i + p.startIndex < p.endIndex then some (i + p.startIndex) else none with
        | none => rfl
        | some translated =>
          refine h.getMany _ (readable_of_le fun k hk => ?_)
          obtain ⟨i, hi⟩ := option_mapM_mem_of hread hk
          split at hi
          · cases hi
            omega
          · cases hi

-- Composed datasets

namespace ComposedDataset

def endsOf : (offset : Nat) → List (List I) → List Nat
  | _, [] => []
  | offset, l :: lists => (offset + l.length) :: endsOf (offset + l.length) lists

theorem le_of_mem_endsOf {offset stop : Nat} {lists : List (List I)} (h : stop ∈ endsOf offset lists) : offset ≤ stop := by
  induction lists generalizing offset with
  | nil => cases h
  | cons l lists ih =>
    rcases List.mem_cons.mp h with rfl | h
    · exact Nat.le_add_right _ _
    · exact le_trans (Nat.le_add_right _ _) (ih h)

theorem sorted_endsOf (offset : Nat) (lists : List (List I)) : (endsOf offset lists).Pairwise (· ≤ ·) := by
  induction lists generalizing offset with
  | nil => exact .nil
  | cons l lists ih => exact List.pairwise_cons.mpr ⟨fun _ h => le_of_mem_endsOf h, ih _⟩

theorem getLastD_endsOf (offset : Nat) (lists : List (List I)) :
    (endsOf offset lists).getLastD offset = offset + lists.flatten.length := by
  induction lists generalizing offset with
  | nil => rfl
  | cons l lists ih => rw [endsOf, List.getLastD_cons, ih, List.flatten_cons, List.length_append, Nat.add_assoc]

theorem getElem?_endsOf (offset : Nat) (before : List (List I)) (l : List I) (after : List (List I)) :
    (endsOf offset (before ++ l :: after))[before.length]? = some (offset + before.flatten.length + l.length) := by
  induction before generalizing offset with
  | nil => rfl
  | cons b before ih =>
    rw [List.cons_append, endsOf, List.length_cons, List.getElem?_cons_succ, ih, List.flatten_cons, List.length_append,
      Nat.add_assoc offset]

theorem offsetOf_endsOf (before : List (List I)) (l : List I) (after : List (List I)) :
    offsetOf (endsOf 0 (before ++ l :: after)) before.length = before.flatten.length := by
  rcases List.eq_nil_or_concat before with rfl | ⟨before, b, rfl⟩
  · rfl
  · have hget := getElem?_endsOf 0 before b (l :: after)
    rw [List.concat_eq_append, List.append_assoc, List.length_append, offsetOf, List.length_singleton,
      if_neg (Nat.succ_ne_zero _)]
    change (endsOf 0 (before ++ b :: l :: after)).getD before.length 0 = _
    rw [List.getD_eq_getElem?_getD, hget]
    simp

theorem takeWhile_endsOf {offset index : Nat} {lists : List (List I)} (hle : offset ≤ index)
    (hlt : index < offset + lists.flatten.length) :
    ∃ before l after, lists = before ++ l :: after ∧
      ((endsOf offset lists).takeWhile fun stop => stop ≤ index).length = before.length ∧
      offset + before.flatten.length ≤ index ∧ index < offset + before.flatten.length + l.length := by
  induction lists generalizing offset with
  | nil => exact absurd hle (not_le.mpr hlt)
  | cons l lists ih =>
    by_cases hend : offset + l.length ≤ index
    · rw [List.flatten_cons, List.length_append, ← Nat.add_assoc] at hlt
      obtain ⟨before, m, after, rfl, hlen, hfrom, hto⟩ := ih hend hlt
      refine ⟨l :: before, m, after, rfl, ?_, ?_, ?_⟩
      · rw [endsOf, List.takeWhile_cons_of_pos (by simpa using hend), List.length_cons, List.length_cons, hlen]
      · rwa [List.flatten_cons, List.length_append, ← Nat.add_assoc]
      · rwa [List.flatten_cons, List.length_append, ← Nat.add_assoc]
    · refine ⟨[], l, lists, rfl, ?_, hle, not_le.mp hend⟩
      rw [endsOf, List.takeWhile_cons_of_neg (by simpa using hend)]
      rfl

theorem partitionPoint_endsOf {index : Nat} {lists : List (List I)} (hlt : index < lists.flatten.length) :
    ∃ before l after, lists = before ++ l :: after ∧ partitionPoint (endsOf 0 lists) index = before.length ∧
      before.flatten.length ≤ index ∧ index < before.flatten.length + l.length := by
  obtain ⟨before, l, after, hsplit, hlen, hfrom, hto⟩ := takeWhile_endsOf (Nat.zero_le index) (lt_of_lt_of_eq hlt (Nat.zero_add _).symm)
  rw [Nat.zero_add] at hfrom hto
  refine ⟨before, l, after, hsplit, ?_, hfrom, hto⟩
  have hmono : (endsOf 0 lists).Pairwise fun x y => decide (y ≤ index) = true → decide (x ≤ index) = true :=
    (sorted_endsOf 0 lists).imp fun hle hy => decide_eq_true (le_trans hle (of_decide_eq_true hy))
  rw [partitionPoint, bisect_takeWhile 0 hmono, hlen]

variable {datasets : List (Dataset I)} {lists : List (List I)}

theorem addUsize_small {a b : Nat} (h : a + b < 2 ^ 62) : (addUsize a b : Checked Nat) = .ok (a + b) :=
  if_pos (by simp only [usizeMax, u64Max]; omega)

theorem lenFrom_eq (h : List.Forall₂ Lists datasets lists) {total : Nat} (hsmall : total + lists.flatten.length < 2 ^ 62) :
    lenFrom total datasets = .ok (total + lists.flatten.length) := by
  induction h generalizing total with
  | nil => rfl
  | @cons d l datasets lists hd _ ih =>
    rw [List.flatten_cons, List.length_append, ← Nat.add_assoc] at hsmall ⊢
    rw [lenFrom, hd.len, ok_bind, addUsize_small (by omega), ok_bind]
    exact ih hsmall

theorem endsFrom_eq (h : List.Forall₂ Lists datasets lists) {offset : Nat} (hsmall : offset + lists.flatten.length < 2 ^ 62) :
    endsFrom offset datasets = .ok (endsOf offset lists) := by
  induction h generalizing offset with
  | nil => rfl
  | @cons d l datasets lists hd _ ih =>
    rw [List.flatten_cons, List.length_append, ← Nat.add_assoc] at hsmall
    rw [endsFrom, hd.len, ok_bind, addUsize_small (by omega), ok_bind, ih hsmall]
    rfl

theorem getFrom_eq (h : List.Forall₂ Lists datasets lists) {index current : Nat} (hle : current ≤ index)
    (hindex : index ≤ 2 ^ 62) (hsmall : current + lists.flatten.length < 2 ^ 62) :
    getFrom index current datasets = .ok lists.flatten[index - current]? := by
  induction h generalizing current with
  | nil => rfl
  | @cons d l datasets lists hd _ ih =>
    rw [List.flatten_cons, List.length_append] at hsmall
    rw [getFrom, hd.len, ok_bind, addUsize_small (by omega), ok_bind, List.flatten_cons]
    by_cases hlt : index < l.length + current
    · rw [if_pos hlt, subUsize_ok hle, ok_bind, hd.get _ (by omega), List.getElem?_append_left (by omega)]
    · rw [if_neg hlt, ok_bind, addUsize_small (by omega), ok_bind, ih (by omega) (by omega), List.getElem?_append_right (by omega)]
      congr 2
      omega

theorem translate_eq {offset : Nat} {indices : List Nat} (h : ∀ i ∈ indices, offset ≤ i) :
    translate offset indices = .ok (indices.map fun i => i - offset) := by
  unfold translate
  split
  · next hzero =>
    subst hzero
    simp only [Nat.sub_zero, List.map_id']
    rfl
  · rw [mapM_congr (g := fun i => .ok (i - offset)) fun i hi => subUsize_ok (h i hi)]
    exact List.mapM_pure

theorem readGroups_eq (h : List.Forall₂ Lists datasets lists) {indices : List Nat} (hlt : ∀ i ∈ indices, i < lists.flatten.length) :
    readGroups datasets (endsOf 0 lists) indices = .ok (indices.mapM fun i => lists.flatten[i]?) := by
  induction hn : indices.length using Nat.strong_induction_on generalizing indices with
  | _ n ih =>
    cases indices with
    | nil => rw [readGroups]; rfl
    | cons start rest =>
      obtain ⟨hstart, hrest⟩ := List.forall_mem_cons.mp hlt
      obtain ⟨before, l, after, hsplit, hpoint, hfrom, hto⟩ := partitionPoint_endsOf hstart
      have hl : lists[before.length]? = some l := by simp [hsplit]
      obtain ⟨d, hd, hlists⟩ := forall₂_getElem? h hl
      have hstop := getElem?_endsOf 0 before l after
      have hoffset := offsetOf_endsOf before l after
      rw [← hsplit] at hstop hoffset
      rw [Nat.zero_add] at hstop
      -- the group lies in the one dataset
      let inside : Nat → Bool := fun i => decide (before.flatten.length ≤ i ∧ i < before.flatten.length + l.length)
      have hgroup : ∀ i ∈ start :: rest.takeWhile inside, before.flatten.length ≤ i ∧ i < before.flatten.length + l.length :=
        List.forall_mem_cons.mpr ⟨⟨hfrom, hto⟩, fun i hi => by simpa [inside] using List.mem_takeWhile_imp hi⟩
      have hitem : ∀ i ∈ start :: rest.takeWhile inside, l[i - before.flatten.length]? = lists.flatten[i]? := by
        intro i hi
        obtain ⟨hge, hlt⟩ := hgroup i hi
        rw [hsplit, List.flatten_append, List.flatten_cons, List.getElem?_append_right hge, List.getElem?_append_left (by omega)]
      have hbatch : d.getMany ((start :: rest.takeWhile inside).map fun i => i - before.flatten.length) =
          .ok ((start :: rest.takeWhile inside).mapM fun i => lists.flatten[i]?) := by
        rw [hlists.getMany _ (readable_of_le fun i hi => ?_), List.mapM_map]
        · exact congrArg Except.ok (option_mapM_congr hitem)
        obtain ⟨j, hj, rfl⟩ := List.mem_map.mp hi
        have := (hgroup j hj).2
        have := hlists.small
        omega
      have hlater : readGroups datasets (endsOf 0 lists) (rest.dropWhile inside) =
          .ok ((rest.dropWhile inside).mapM fun i => lists.flatten[i]?) :=
        ih _ (hn ▸ Nat.lt_succ_of_le (List.dropWhile_sublist _).length_le)
          (fun i hi => hrest i ((List.dropWhile_sublist _).mem hi)) rfl
      have hwhole : (start :: rest) = (start :: rest.takeWhile inside) ++ rest.dropWhile inside := by
        rw [List.cons_append, List.takeWhile_append_dropWhile]
      rw [readGroups, hpoint, hd, hstop]
      simp only [hoffset]
      change (translate before.flatten.length (start :: rest.takeWhile inside) >>= fun translated => _) = _
      rw [translate_eq fun i hi => (hgroup i hi).1, ok_bind, hbatch, ok_bind, hwhole, List.mapM_append]
      cases hread : (start :: rest.takeWhile inside).mapM fun i => lists.flatten[i]? with
      | none => rfl
      | some batch =>
        have hlen := (option_mapM_eq.mp hread).length_eq
        simp only [List.length_map, hlen, ne_eq, not_true_eq_false, if_false]
        change (readGroups datasets (endsOf 0 lists) (rest.dropWhile inside) >>= fun items => _) = _
        rw [hlater, ok_bind]
        cases (rest.dropWhile inside).mapM fun i => lists.flatten[i]? with
        | none => rfl
        | some items => rfl

theorem lenFrom_ok (h : List.Forall₂ Lists datasets lists) {total len : Nat} (hlen : lenFrom total datasets = .ok len) :
    len = total + lists.flatten.length := by
  induction h generalizing total with
  | nil => exact (Except.ok.inj hlen).symm
  | @cons d l datasets lists hd _ ih =>
    rw [lenFrom, hd.len, ok_bind] at hlen
    obtain ⟨next, hnext, hlen⟩ := bind_eq_ok.mp hlen
    unfold addUsize at hnext
    split at hnext
    · obtain rfl := Except.ok.inj hnext
      rw [ih hlen, List.flatten_cons, List.length_append, Nat.add_assoc]
    · cases hnext

end ComposedDataset

theorem lists_composed {c : ComposedDataset I} {lists : List (List I)} (h : List.Forall₂ Lists c.datasets lists)
    (hsmall : lists.flatten.length < 2 ^ 62) : Lists c.toDataset lists.flatten := by
  refine ⟨?_, hsmall, fun i hi => ?_, fun indices hindices => ?_⟩
  · rw [← Nat.zero_add lists.flatten.length] at hsmall
    exact (ComposedDataset.lenFrom_eq h hsmall).trans (by rw [Nat.zero_add])
  · exact ComposedDataset.getFrom_eq h (Nat.zero_le i) hi (by rwa [Nat.zero_add])
  · change ComposedDataset.getMany c.datasets indices = _
    rw [ComposedDataset.getMany]
    by_cases hnil : indices = []
    · subst hnil
      rfl
    · rw [if_neg hnil, ComposedDataset.endsFrom_eq h (by rwa [Nat.zero_add]), ok_bind, ComposedDataset.getLastD_endsOf, Nat.zero_add]
      by_cases hany : (indices.any fun i => i ≥ lists.flatten.length) = true
      · rw [if_pos hany]
        obtain ⟨i, hi, hge⟩ := List.any_eq_true.mp hany
        rw [option_mapM_none hi (List.getElem?_eq_none (of_decide_eq_true hge))]
        rfl
      · rw [if_neg hany]
        refine ComposedDataset.readGroups_eq h fun i hi => not_le.mp fun hge => ?_
        exact hany (List.any_eq_true.mpr ⟨i, hi, decide_eq_true hge⟩)

-- Splits

theorem Lists.items {d : Dataset I} {items : List I} (h : Lists d items) : Items d items :=
  ⟨h.len, fun i hi => h.get i hi.le⟩

theorem take_append_between {items : List I} {a b : Nat} (h : a ≤ b) : items.take a ++ between items a b = items.take b := by
  rw [between, ← List.take_add, Nat.add_sub_cancel' h]

theorem exists_lt_of_mem_dropLast {l : List Nat} (h : l.Pairwise (· < ·)) {i : Nat} (hi : i ∈ l.dropLast) : ∃ j ∈ l, i < j := by
  have hne : l ≠ [] := fun hnil => by rw [hnil] at hi; cases hi
  have hsplit := List.dropLast_append_getLast hne
  rw [← hsplit] at h
  exact ⟨l.getLast hne, List.getLast_mem hne, (List.pairwise_append.mp h).2.2 i hi _ (List.mem_singleton_self _)⟩

namespace PartialDataset

variable {dataset : Dataset I} {items : List I}

/-- Where a part of the split begins. -/
def cut (len num i : Nat) : Nat := if i = num then len else i * (len / num)

theorem cut_mono {len num i : Nat} (hi : i < num) : cut len num i ≤ cut len num (i + 1) := by
  have hmul : num * (len / num) ≤ len := Nat.mul_div_le len num
  rw [cut, if_neg hi.ne, cut]
  split
  · exact le_trans (Nat.mul_le_mul_right _ hi.le) hmul
  · exact Nat.mul_le_mul_right _ (Nat.le_succ i)

theorem cut_le {len num i : Nat} (hi : i ≤ num) : cut len num i ≤ len := by
  rw [cut]
  split
  · exact le_rfl
  · exact le_trans (Nat.mul_le_mul_right _ hi) (Nat.mul_div_le len num)

theorem split_fold {len num : Nat} (hsmall : len < 2 ^ 62) {k : Nat} (hk : k ≤ num) :
    (List.range k).foldlM (splitStep dataset num (len / num) len) (0, []) =
      .ok (k * (len / num), (List.range k).map fun i => ⟨dataset, cut len num i, cut len num (i + 1)⟩) := by
  induction k with
  | zero =>
    rw [Nat.zero_mul]
    rfl
  | succ k ih =>
    have hle : k * (len / num) + len / num ≤ len := by
      rw [← Nat.succ_mul]
      exact le_trans (Nat.mul_le_mul_right _ hk) (Nat.mul_div_le len num)
    have hadd : (addUsize (k * (len / num)) (len / num) : Checked Nat) = _ := ComposedDataset.addUsize_small (by omega)
    rw [List.range_succ, List.foldlM_append, ih (by omega), ok_bind, List.foldlM_cons, splitStep, hadd, ok_bind, ok_bind,
      List.map_append, List.map_singleton, Nat.succ_mul]
    have hstart : cut len num k = k * (len / num) := if_neg (by omega)
    have hstop : cut len num (k + 1) = if k = num - 1 then len else k * (len / num) + len / num := by
      rw [cut, Nat.succ_mul]
      exact if_congr (by omega) rfl rfl
    rw [hstart, hstop]
    rfl

theorem split_eq (h : Lists dataset items) {num : Nat} (hnum : 1 ≤ num) :
    split dataset num =
      .ok ((List.range num).map fun i => ⟨dataset, cut items.length num i, cut items.length num (i + 1)⟩) := by
  rw [split, h.len, ok_bind, if_neg (by omega), split_fold h.small le_rfl]
  rfl

theorem concatenates_split (h : Lists dataset items) {num : Nat} (hnum : 1 ≤ num) :
    Concatenates dataset ((List.range num).map fun i => ⟨dataset, cut items.length num i, cut items.length num (i + 1)⟩) := by
  refine ⟨(List.range num).map fun i => between items (cut items.length num i) (cut items.length num (i + 1)), ?_, ?_⟩
  · rw [List.forall₂_map_left_iff, List.forall₂_map_right_iff, List.forall₂_same]
    intro i hi
    have hi := List.mem_range.mp hi
    exact (lists_fraction (p := ⟨dataset, _, _⟩) h (cut_mono hi) (cut_le hi)).items
  · have hflat : ∀ k ≤ num, ((List.range k).map fun i => between items (cut items.length num i) (cut items.length num (i + 1))).flatten =
        items.take (cut items.length num k) := by
      intro k hk
      induction k with
      | zero => rw [cut, if_neg (by omega), Nat.zero_mul]; rfl
      | succ k ih =>
        rw [List.range_succ, List.map_append, List.flatten_append, ih (by omega), List.map_singleton, List.flatten_singleton,
          take_append_between (cut_mono hk)]
    rw [hflat num le_rfl, cut, if_pos rfl, List.take_length]
    exact h.items

/-- The batches before a part. -/
def batchesBefore (totalBatches num i : Nat) : Nat := i * (totalBatches / num) + min i (totalBatches % num)

theorem batchesBefore_succ (totalBatches num i : Nat) :
    batchesBefore totalBatches num (i + 1) =
      batchesBefore totalBatches num i + if i < totalBatches % num then totalBatches / num + 1 else totalBatches / num := by
  rw [batchesBefore, batchesBefore, Nat.succ_mul]
  split <;> omega

theorem batchesBefore_mono (totalBatches num : Nat) {i j : Nat} (h : i ≤ j) :
    batchesBefore totalBatches num i ≤ batchesBefore totalBatches num j :=
  Nat.add_le_add (Nat.mul_le_mul_right _ h) (min_le_min_right _ h)

theorem batchesBefore_num {totalBatches num : Nat} (hnum : 1 ≤ num) : batchesBefore totalBatches num num = totalBatches := by
  rw [batchesBefore, min_eq_right (Nat.mod_lt _ hnum).le]
  exact Nat.div_add_mod totalBatches num

theorem divCeil_mul_le {len batchSize : Nat} (hlen : len < 2 ^ 62) (hbatch : 1 ≤ batchSize) (hsize : batchSize ≤ usizeMax) :
    divCeil len batchSize * batchSize ≤ usizeMax := by
  by_cases hle : len ≤ batchSize
  · have hone : divCeil len batchSize ≤ 1 := (divCeil_le_iff hbatch).mpr (by rwa [Nat.one_mul])
    exact le_trans (Nat.mul_le_mul_right _ hone) (by rwa [Nat.one_mul])
  · have hmul : divCeil len batchSize * batchSize ≤ len + batchSize - 1 := Nat.div_mul_le_self _ _
    simp only [usizeMax, u64Max]
    omega

/-- Where a part of the chunks begins. -/
def chunkStart (len num batchSize i : Nat) : Nat := batchesBefore (divCeil len batchSize) num i * batchSize

def chunkPart (dataset : Dataset I) (len num batchSize i : Nat) : PartialDataset I :=
  ⟨dataset, chunkStart len num batchSize i, min (chunkStart len num batchSize (i + 1)) len⟩

/-- The parts that hold something. -/
def chunkIndices (len num batchSize k : Nat) : List Nat := (List.range k).filter fun i => chunkStart len num batchSize i < len

theorem chunkStart_mono (len num batchSize : Nat) {i j : Nat} (h : i ≤ j) :
    chunkStart len num batchSize i ≤ chunkStart len num batchSize j :=
  Nat.mul_le_mul_right _ (batchesBefore_mono _ _ h)

theorem chunkIndices_succ (len num batchSize k : Nat) :
    chunkIndices len num batchSize (k + 1) =
      if chunkStart len num batchSize k < len then chunkIndices len num batchSize k ++ [k] else chunkIndices len num batchSize k := by
  rw [chunkIndices, List.range_succ, List.filter_append]
  by_cases h : chunkStart len num batchSize k < len
  · simp [h, chunkIndices]
  · simp [h, chunkIndices]

theorem chunkStart_num {len num batchSize : Nat} (hbatch : 1 ≤ batchSize) (hnum : 1 ≤ num) :
    len ≤ chunkStart len num batchSize num := by
  rw [chunkStart, batchesBefore_num hnum]
  exact (divCeil_le_iff hbatch).mp le_rfl

theorem addUsize_fits {a b : Nat} (h : a + b ≤ usizeMax) : (addUsize a b : Checked Nat) = .ok (a + b) := if_pos h

section Chunks

variable {len num batchSize : Nat} (hround : divCeil len batchSize * batchSize ≤ usizeMax) (hbatch : 1 ≤ batchSize) (hnum : 1 ≤ num)

include hround hbatch hnum

theorem chunksStep_eq (datasets : List (PartialDataset I)) {k : Nat} (hk : k < num) :
    chunksStep dataset (divCeil len batchSize / num) (divCeil len batchSize % num) batchSize len
        (batchesBefore (divCeil len batchSize) num k, datasets) k =
      .ok (batchesBefore (divCeil len batchSize) num (k + 1),
        if chunkStart len num batchSize k < len then datasets ++ [chunkPart dataset len num batchSize k] else datasets) := by
  have htotal : ∀ i ≤ num, batchesBefore (divCeil len batchSize) num i ≤ divCeil len batchSize := fun i hi =>
    le_of_le_of_eq (batchesBefore_mono _ _ hi) (batchesBefore_num hnum)
  have hmul : ∀ i ≤ num, (mulUsize (batchesBefore (divCeil len batchSize) num i) batchSize : Checked Nat) =
      .ok (chunkStart len num batchSize i) := fun i hi =>
    if_pos (le_trans (Nat.mul_le_mul_right _ (htotal i hi)) hround)
  have hcount : divCeil len batchSize ≤ usizeMax := (Nat.le_mul_of_pos_right _ hbatch).trans hround
  have hbatches : splitBatches (divCeil len batchSize / num) (divCeil len batchSize % num) k =
      .ok (if k < divCeil len batchSize % num then divCeil len batchSize / num + 1 else divCeil len batchSize / num) := by
    rw [splitBatches]
    split
    · next hextra =>
      have hlt : 0 < divCeil len batchSize % num := Nat.lt_of_le_of_lt (Nat.zero_le k) hextra
      have hdivmod := Nat.div_add_mod (divCeil len batchSize) num
      have hmul := Nat.le_mul_of_pos_left (divCeil len batchSize / num) hnum
      exact if_pos (by omega)
    · rfl
  have hnext := htotal (k + 1) hk
  have hmulNext := hmul (k + 1) hk
  rw [batchesBefore_succ] at hnext hmulNext
  rw [chunksStep, hbatches, ok_bind, addUsize_fits (hnext.trans hcount), ok_bind, hmul k hk.le, ok_bind, hmulNext, ok_bind,
    batchesBefore_succ]
  rfl

theorem chunks_fold {k : Nat} (hk : k ≤ num) :
    (List.range k).foldlM (chunksStep dataset (divCeil len batchSize / num) (divCeil len batchSize % num) batchSize len) (0, []) =
      .ok (batchesBefore (divCeil len batchSize) num k, (chunkIndices len num batchSize k).map (chunkPart dataset len num batchSize)) := by
  induction k with
  | zero =>
    rw [batchesBefore, Nat.zero_mul, Nat.zero_min]
    rfl
  | succ k ih =>
    rw [List.range_succ, List.foldlM_append, ih (by omega), ok_bind, List.foldlM_cons,
      chunksStep_eq hround hbatch hnum _ (by omega), ok_bind, chunkIndices_succ]
    split
    · rw [List.map_append]
      rfl
    · rfl

end Chunks

theorem splitChunks_of_len {len : Nat} (hlen : dataset.len = .ok len) {num batchSize : Nat} (hbatch : 1 ≤ batchSize) (hnum : 1 ≤ num)
    (hround : divCeil len batchSize * batchSize ≤ usizeMax) :
    splitChunks dataset num batchSize = .ok ((chunkIndices len num batchSize num).map (chunkPart dataset len num batchSize)) := by
  rw [splitChunks, hlen, ok_bind, if_neg (by omega)]
  dsimp only
  rw [chunks_fold hround hbatch hnum le_rfl]
  rfl

theorem splitChunks_eq (h : Lists dataset items) {num batchSize : Nat} (hbatch : 1 ≤ batchSize) (hsize : batchSize ≤ usizeMax)
    (hnum : 1 ≤ num) :
    splitChunks dataset num batchSize =
      .ok ((chunkIndices items.length num batchSize num).map (chunkPart dataset items.length num batchSize)) :=
  splitChunks_of_len h.len hbatch hnum (divCeil_mul_le h.small hbatch hsize)

/-- The items of a part. -/
def chunkItems (items : List I) (num batchSize i : Nat) : List I :=
  between items (chunkStart items.length num batchSize i) (min (chunkStart items.length num batchSize (i + 1)) items.length)

theorem lists_chunkPart (h : Lists dataset items) {num batchSize i : Nat} (hi : chunkStart items.length num batchSize i < items.length) :
    Lists (chunkPart dataset items.length num batchSize i).toDataset (chunkItems items num batchSize i) :=
  lists_fraction (p := chunkPart dataset items.length num batchSize i) h
    (le_min (chunkStart_mono _ _ _ (Nat.le_succ i)) hi.le) (min_le_right _ _)

theorem chunkStart_lt {len num batchSize k i : Nat} (hi : i ∈ chunkIndices len num batchSize k) : chunkStart len num batchSize i < len :=
  of_decide_eq_true (List.mem_filter.mp hi).2

theorem flatten_chunkItems (items : List I) {num batchSize : Nat} (hbatch : 1 ≤ batchSize) (hnum : 1 ≤ num) :
    ((chunkIndices items.length num batchSize num).map (chunkItems items num batchSize)).flatten = items := by
  have hflat : ∀ k, ((chunkIndices items.length num batchSize k).map (chunkItems items num batchSize)).flatten =
      items.take (chunkStart items.length num batchSize k) := by
    intro k
    induction k with
    | zero =>
      rw [chunkStart, batchesBefore, Nat.zero_mul, Nat.zero_min, Nat.zero_mul]
      rfl
    | succ k ih =>
      have hle := chunkStart_mono items.length num batchSize (Nat.le_succ k)
      rw [chunkIndices_succ]
      by_cases hlt : chunkStart items.length num batchSize k < items.length
      · rw [if_pos hlt, List.map_append, List.flatten_append, ih, List.map_singleton, List.flatten_singleton, chunkItems,
          take_append_between (le_min hle hlt.le), ← List.take_eq_take_min]
      · rw [if_neg hlt, ih, List.take_of_length_le (not_lt.mp hlt), List.take_of_length_le (le_trans (not_lt.mp hlt) hle)]
  rw [hflat num, List.take_of_length_le (chunkStart_num hbatch hnum)]

theorem concatenates_chunks (h : Lists dataset items) {num batchSize : Nat} (hbatch : 1 ≤ batchSize) (hnum : 1 ≤ num) :
    Concatenates dataset ((chunkIndices items.length num batchSize num).map (chunkPart dataset items.length num batchSize)) := by
  refine ⟨(chunkIndices items.length num batchSize num).map (chunkItems items num batchSize), ?_, ?_⟩
  · rw [List.forall₂_map_left_iff, List.forall₂_map_right_iff, List.forall₂_same]
    intro i hi
    exact (lists_chunkPart h (chunkStart_lt hi)).items
  · rw [flatten_chunkItems items hbatch hnum]
    exact h.items

theorem dvd_length_chunkItems {num batchSize i : Nat} (hi : i ∈ (chunkIndices items.length num batchSize num).dropLast) :
    batchSize ∣ (chunkItems items num batchSize i).length := by
  have hsorted : (chunkIndices items.length num batchSize num).Pairwise (· < ·) := List.pairwise_lt_range.filter _
  obtain ⟨j, hj, hlt⟩ := exists_lt_of_mem_dropLast hsorted hi
  have hnext : chunkStart items.length num batchSize (i + 1) ≤ items.length :=
    le_trans (chunkStart_mono _ _ _ hlt) (chunkStart_lt hj).le
  rw [chunkItems, length_between (min_le_right _ _), min_eq_left hnext]
  exact Nat.dvd_sub (Nat.dvd_mul_left _ _) (Nat.dvd_mul_left _ _)

theorem dvd_length_chunk (h : Lists dataset items) {num batchSize : Nat} {p : PartialDataset I}
    (hp : p ∈ ((chunkIndices items.length num batchSize num).map (chunkPart dataset items.length num batchSize)).dropLast) :
    ∃ n, p.toDataset.len = .ok n ∧ batchSize ∣ n := by
  rw [← List.map_dropLast] at hp
  obtain ⟨i, hi, rfl⟩ := List.mem_map.mp hp
  exact ⟨_, (lists_chunkPart h (chunkStart_lt (List.dropLast_subset _ hi))).len, dvd_length_chunkItems hi⟩

end PartialDataset

-- Nesting

theorem exists_lists {datasets : List (Dataset I)} (h : ∀ d ∈ datasets, ∃ items, Lists d items) :
    ∃ lists, List.Forall₂ Lists datasets lists := by
  induction datasets with
  | nil => exact ⟨[], .nil⟩
  | cons d datasets ih =>
    obtain ⟨⟨items, hitems⟩, hrest⟩ := List.forall_mem_cons.mp h
    obtain ⟨lists, hlists⟩ := ih hrest
    exact ⟨items :: lists, .cons hitems hlists⟩

theorem Built.lists {d : Dataset I} (h : Built d) : ∃ items, Lists d items := by
  induction h with
  | source hget hlen => exact lists_source hget hlen
  | composed _ hlen hsmall ih =>
    obtain ⟨lists, hlists⟩ := exists_lists ih
    have hflat := ComposedDataset.lenFrom_ok hlists hlen
    rw [Nat.zero_add] at hflat
    exact ⟨lists.flatten, lists_composed hlists (hflat ▸ hsmall)⟩
  | fraction _ hlen hle hend ih =>
    obtain ⟨items, hitems⟩ := ih
    obtain rfl := Except.ok.inj (hlen.symm.trans hitems.len)
    exact ⟨_, lists_fraction hitems hle hend⟩
  | windows _ hsize ih =>
    obtain ⟨items, hitems⟩ := ih
    exact ⟨_, lists_windows hitems hsize⟩

theorem forall₂_congr_mem {R S : A → B → Prop} {l : List A} {l' : List B} (h : ∀ a ∈ l, ∀ b, R a b ↔ S a b) :
    List.Forall₂ R l l' ↔ List.Forall₂ S l l' := by
  induction l generalizing l' with
  | nil => exact ⟨fun h => by cases h; exact .nil, fun h => by cases h; exact .nil⟩
  | cons a l ih =>
    obtain ⟨ha, hl⟩ := List.forall_mem_cons.mp h
    cases l' with
    | nil => exact ⟨nofun, nofun⟩
    | cons b l' =>
      rw [List.forall₂_cons, List.forall₂_cons]
      exact and_congr (ha b) (ih hl)

/-- Neighbours among the items `1` to `3` of two sources. -/
def neighbours : Dataset (List Nat) :=
  (WindowsDataset.mk 2 (by decide) (PartialDataset.mk
    (ComposedDataset.mk [Dataset.ofGet 3 fun i => if i < 3 then some i else none,
      Dataset.ofGet 2 fun i => if i < 2 then some (i + 3) else none]).toDataset 1 4).toDataset).toDataset

end Ruda.Data
