import Ruda.Gguf.Opening

/-!
# The tensors of an open file

The bytes of every tensor lie in the file, at an aligned offset and apart from those of
the others, and rows are read from where they lie.
-/

namespace Ruda.Gguf

variable {alignment : Nat} {content : List UInt8} {f : GgufFile} {name : String} {info : GgufTensorInfo}

-- Places

theorem isPowerOfTwo_pow {a : Nat} (h : GgufFile.isPowerOfTwo a = true) : ∃ k, a = 2 ^ k := by
  unfold GgufFile.isPowerOfTwo at h
  rw [Bool.and_eq_true, decide_eq_true_eq, beq_iff_eq] at h
  exact Nat.ne_zero_and_sub_one_eq_zero_iff_isPowerOfTwo.mp h

theorem and_mask {a x : Nat} (ha : GgufFile.isPowerOfTwo a = true) (hsmall : a < 2 ^ 32) (hx : x ≤ u64Max) :
    x &&& (u64Max ^^^ (a - 1)) = x / a * a := by
  obtain ⟨k, rfl⟩ := isPowerOfTwo_pow ha
  have hk : k < 32 := (Nat.pow_lt_pow_iff_right (by decide)).mp hsmall
  have hlt : x < 2 ^ 64 := by unfold u64Max at hx; omega
  refine Nat.eq_of_testBit_eq fun i => ?_
  rw [Nat.testBit_and, Nat.testBit_xor, u64Max, Nat.testBit_two_pow_sub_one, Nat.testBit_two_pow_sub_one,
    Nat.testBit_mul_two_pow, Nat.testBit_div_two_pow]
  by_cases hi : i < 64
  · by_cases hik : i < k
    · have hge : ¬k ≤ i := not_le.mpr hik
      simp [hi, hik, hge]
    · have hge : k ≤ i := not_lt.mp hik
      simp [hi, hik, hge]
  · have hzero : x.testBit i = false :=
      Nat.testBit_lt_two_pow (hlt.trans_le (Nat.pow_le_pow_right (by decide) (not_lt.mp hi)))
    have hadd : k ≤ i → i - k + k = i := Nat.sub_add_cancel
    simp +contextual [hadd, hzero]

theorem dataOffsetOf_dvd {pos offset : Nat} (h : GgufFile.dataOffsetOf pos alignment = .ok offset)
    (hpower : GgufFile.isPowerOfTwo alignment = true) (hsmall : alignment < 2 ^ 32) : alignment ∣ offset := by
  obtain ⟨up, hup, h⟩ := bind_eq_ok.mp h
  obtain rfl := Except.ok.inj h
  rw [and_mask hpower hsmall (checkedAdd_le (okOr_ok.mp hup))]
  exact Nat.dvd_mul_left _ _

theorem intervalOf_ok {len dataOffset : Nat} {interval : Nat × Nat}
    (h : GgufFile.intervalOf len dataOffset info = .ok interval) :
    interval = (dataOffset + info.offset, dataOffset + info.offset + info.byteLen) ∧
      dataOffset + info.offset + info.byteLen ≤ len := by
  obtain ⟨start, hstart, h⟩ := bind_eq_ok.mp h
  obtain ⟨stop, hstop, h⟩ := bind_eq_ok.mp h
  obtain ⟨_, hle, h⟩ := bind_eq_ok.mp h
  obtain rfl := Except.ok.inj h
  obtain ⟨-, rfl⟩ := checkedAdd_eq_some.mp (okOr_ok.mp hstart)
  obtain ⟨-, rfl⟩ := checkedAdd_eq_some.mp (okOr_ok.mp hstop)
  exact ⟨rfl, not_lt.mp (failIf_ok.mp hle)⟩

/-- One ends before the other starts. -/
def Apart (a b : Nat × Nat) : Prop := a.2 ≤ b.1 ∨ b.2 ≤ a.1

instance : Std.Symm Apart := ⟨fun _ _ => Or.symm⟩

theorem pairwise_of_windows {l : List (Nat × Nat)} (hpos : ∀ p ∈ l, p.1 < p.2) (h : GgufFile.overlapping l = false) :
    l.Pairwise fun a b => a.2 ≤ b.1 := by
  induction l with
  | nil => exact .nil
  | cons a l ih =>
    obtain ⟨ha, hl⟩ := List.forall_mem_cons.mp hpos
    cases l with
    | nil => exact List.pairwise_singleton _ _
    | cons b l =>
      have hsplit : GgufFile.overlapping (a :: b :: l) = (decide (a.2 > b.1) || GgufFile.overlapping (b :: l)) := rfl
      rw [hsplit, Bool.or_eq_false_iff, decide_eq_false_iff_not, not_lt] at h
      have hrest := ih hl h.2
      refine List.pairwise_cons.mpr ⟨?_, hrest⟩
      obtain ⟨hb, -⟩ := List.forall_mem_cons.mp hl
      rw [List.forall_mem_cons]
      refine ⟨h.1, fun c hc => ?_⟩
      have := (List.pairwise_cons.mp hrest).1 c hc
      omega

/-- The bytes of the tensors lie in the file, aligned and apart. -/
structure GgufFile.Placed (f : GgufFile) : Prop where
  inside : ∀ (name : String) info, f.tensors[name]? = some info → f.dataOffset + info.offset + info.byteLen ≤ f.file.length
  aligned : ∃ alignment, GgufFile.alignmentOf f.metadata = .ok alignment ∧
    ∀ (name : String) info, f.tensors[name]? = some info → alignment ∣ f.dataOffset + info.offset
  disjoint : ∀ (name₁ name₂ : String) info₁ info₂, name₁ ≠ name₂ → f.tensors[name₁]? = some info₁ → f.tensors[name₂]? = some info₂ →
    Apart (f.dataOffset + info₁.offset, f.dataOffset + info₁.offset + info₁.byteLen)
      (f.dataOffset + info₂.offset, f.dataOffset + info₂.offset + info₂.byteLen)

-- Sizes

theorem foldlM_checkedMul {dims : List Nat} {a b : Nat} (h : dims.foldlM checkedMul a = some b) (ha : a ≤ u64Max) :
    b = a * dims.prod ∧ b ≤ u64Max := by
  induction dims generalizing a with
  | nil =>
    obtain rfl := Option.some.inj h
    exact ⟨(Nat.mul_one _).symm, ha⟩
  | cons d dims ih =>
    rw [List.foldlM_cons] at h
    obtain ⟨c, hc, h⟩ := Option.bind_eq_some_iff.mp h
    obtain ⟨hle, rfl⟩ := checkedMul_eq_some.mp hc
    obtain ⟨rfl, hb⟩ := ih h hle
    rw [List.prod_cons, ← Nat.mul_assoc]
    exact ⟨rfl, by rwa [Nat.mul_assoc] at hb ⊢⟩

theorem foldlM_mulUsize {dims : List Nat} {a : Nat} (hpos : ∀ d ∈ dims, 0 < d) (h : a * dims.prod ≤ usizeMax) :
    (dims.foldlM mulUsize a : Res Nat) = .ok (a * dims.prod) := by
  induction dims generalizing a with
  | nil => exact congrArg Except.ok (Nat.mul_one a).symm
  | cons d dims ih =>
    obtain ⟨-, hdims⟩ := List.forall_mem_cons.mp hpos
    rw [List.prod_cons, ← Nat.mul_assoc] at h ⊢
    have hprod : 0 < dims.prod := List.prod_pos hdims
    have hle : a * d ≤ usizeMax := (Nat.le_mul_of_pos_right _ hprod).trans h
    have hmul : (mulUsize a d : Res Nat) = .ok (a * d) := if_pos hle
    rw [List.foldlM_cons, hmul, ok_bind, ih hdims h]

theorem Checked.rows (h : GgufFile.Checked alignment name info) : ∃ rows rowBytes,
    info.rows = .ok rows ∧ info.rowBytes = .ok rowBytes ∧ info.byteLen = rowBytes * rows ∧ 0 < rowBytes ∧ 0 < rows := by
  obtain ⟨-, hne, hpos, hsize, -⟩ := h
  unfold GgufTensorInfo.rows GgufTensorInfo.rowBytes
  cases hdims : info.dimensions with
  | nil => exact absurd hdims hne
  | cons width dims =>
    rw [hdims] at hsize hpos
    obtain ⟨hwidth, hrest⟩ := List.forall_mem_cons.mp hpos
    obtain ⟨rowBytes, hrow, hlen⟩ := bind_eq_ok.mp hsize
    have hrow := okOr_ok.mp hrow
    have hmax : rowBytes ≤ u64Max := by
      unfold GgmlType.rowBytes at hrow
      split at hrow
      · cases hrow
      · obtain ⟨hle, rfl⟩ := checkedMul_eq_some.mp hrow
        exact hle
    obtain ⟨hbytes, hle⟩ := foldlM_checkedMul (okOr_ok.mp hlen) hmax
    have hrowPos := GgmlType.rowBytes_pos hrow hwidth
    have hprod : 1 * dims.prod ≤ usizeMax := by
      rw [Nat.one_mul]
      rw [hbytes] at hle
      exact (Nat.le_mul_of_pos_left _ hrowPos).trans hle
    refine ⟨dims.prod, rowBytes, ?_, ?_, hbytes, hrowPos, List.prod_pos hrest⟩
    · have := foldlM_mulUsize hrest hprod
      rw [Nat.one_mul] at this
      exact this
    · simp only [hrow]
      rfl

theorem Checked.byteLen_pos (h : GgufFile.Checked alignment name info) : 0 < info.byteLen := by
  obtain ⟨rows, rowBytes, -, -, hlen, hrow, hrows⟩ := Checked.rows h
  rw [hlen]
  exact Nat.mul_pos hrow hrows

theorem values_mem {m : TensorInfos} (h : m[name]? = some info) : info ∈ GgufFile.values m :=
  List.mem_map_of_mem (Std.ExtTreeMap.mem_toList_iff_getElem?_eq_some.mpr h)

theorem values_checked {m : TensorInfos} (h : ∀ name info, m[name]? = some info → GgufFile.Checked alignment name info) :
    ∀ info ∈ GgufFile.values m, 0 < info.byteLen := by
  intro info hinfo
  obtain ⟨⟨name, info'⟩, hmem, rfl⟩ := List.mem_map.mp hinfo
  exact Checked.byteLen_pos (h name info' (Std.ExtTreeMap.mem_toList_iff_getElem?_eq_some.mp hmem))

/-- Where a tensor lies. -/
def GgufFile.interval (f : GgufFile) (info : GgufTensorInfo) : Nat × Nat :=
  (f.dataOffset + info.offset, f.dataOffset + info.offset + info.byteLen)

theorem Opened.values_apart (h : GgufFile.Opened f content alignment) :
    (GgufFile.values f.tensors).Pairwise fun a b => Apart (f.interval a) (f.interval b) := by
  obtain ⟨intervals, hmap, hoverlap⟩ := h.intervals
  have hintervals : intervals = (GgufFile.values f.tensors).map f.interval := by
    have hforall : List.Forall₂ (· = ·) ((GgufFile.values f.tensors).map f.interval) intervals :=
      List.forall₂_map_left_iff.mpr ((mapM_ok.mp hmap).imp fun _ _ hi => (intervalOf_ok hi).1.symm)
    rw [List.forall₂_eq_eq_eq] at hforall
    exact hforall.symm
  have hperm : (GgufFile.sortIntervals intervals).Perm intervals := List.mergeSort_perm _ _
  have hpos : ∀ p ∈ GgufFile.sortIntervals intervals, p.1 < p.2 := by
    intro p hp
    have hp := hperm.mem_iff.mp hp
    rw [hintervals] at hp
    obtain ⟨info, hinfo, rfl⟩ := List.mem_map.mp hp
    exact Nat.lt_add_of_pos_right (values_checked h.checked info hinfo)
  have hsorted : (GgufFile.sortIntervals intervals).Pairwise Apart := (pairwise_of_windows hpos hoverlap).imp Or.inl
  have hall : intervals.Pairwise Apart := (hperm.pairwise_iff Or.symm).mp hsorted
  rw [hintervals] at hall
  exact List.pairwise_map.mp hall

theorem Opened.placed (h : GgufFile.Opened f content alignment) : f.Placed where
  inside := by
    intro name info hinfo
    obtain ⟨intervals, hmap, -⟩ := h.intervals
    obtain ⟨interval, -, hi⟩ := mapM_mem_of hmap (values_mem hinfo)
    rw [h.file]
    exact (intervalOf_ok hi).2
  aligned := by
    obtain ⟨hpower, hsmall⟩ := GgufFile.alignmentOf_ok h.declared
    obtain ⟨pos, hstart⟩ := h.start
    exact ⟨alignment, h.declared, fun name info hinfo =>
      Nat.dvd_add (dataOffsetOf_dvd hstart hpower hsmall) (h.checked name info hinfo).aligned⟩
  disjoint := by
    intro name₁ name₂ info₁ info₂ hne h₁ h₂
    have hpairs : (f.tensors.toList.map Prod.snd).Pairwise fun a b => Apart (f.interval a) (f.interval b) :=
      Opened.values_apart h
    have : Std.Symm fun a b : String × GgufTensorInfo => Apart (f.interval a.2) (f.interval b.2) := ⟨fun _ _ => Or.symm⟩
    exact (List.pairwise_map.mp hpairs).forall (Std.ExtTreeMap.mem_toList_iff_getElem?_eq_some.mpr h₁)
      (Std.ExtTreeMap.mem_toList_iff_getElem?_eq_some.mpr h₂) fun heq => hne (congrArg Prod.fst heq)

-- Rows

/-- Ranges that follow each other from `a` to `b`. -/
def Consecutive : List (Nat × Nat) → (a b : Nat) → Prop
  | [], a, b => a = b
  | (start, stop) :: ranges, a, b => start = a ∧ start ≤ stop ∧ Consecutive ranges stop b

theorem Consecutive.le {ranges : List (Nat × Nat)} {a b : Nat} (h : Consecutive ranges a b) : a ≤ b := by
  induction ranges generalizing a with
  | nil => exact Nat.le_of_eq h
  | cons r ranges ih =>
    obtain ⟨rfl, hle, hrest⟩ := h
    exact hle.trans (ih hrest)

/-- Reading a tensor gives its bytes in the file, and reading its rows in consecutive ranges
gives the same bytes. -/
def GgufFile.RowsJoin (f : GgufFile) : Prop :=
  ∀ (name : String) info, f.tensors[name]? = some info → ∃ t rows, f.readPacked name = .ok t ∧ info.rows = .ok rows ∧
    getRange f.file (f.interval info).1 (f.interval info).2 = some t.bytes ∧
    ∀ ranges, Consecutive ranges 0 rows → ∃ parts, ranges.mapM (f.readPackedRows name) = .ok parts ∧ parts.flatten = t.bytes

section Reading

variable {rows rowBytes : Nat} (h : GgufFile.Opened f content alignment) (hmax : content.length ≤ isizeMax)
  (hinfo : f.tensors[name]? = some info) (hrows : info.rows = .ok rows) (hrow : info.rowBytes = .ok rowBytes)
  (hlen : info.byteLen = rowBytes * rows)

include h hmax hinfo hrows hrow hlen

theorem readPackedRows_eq {a b : Nat} (hab : a ≤ b) (hb : b ≤ rows) : f.readPackedRows name (a, b) =
    .ok ((content.drop (f.dataOffset + info.offset + a * rowBytes)).take ((b - a) * rowBytes)) := by
  have hinside := (Opened.placed h).inside name info hinfo
  rw [h.file, hlen, Nat.mul_comm] at hinside
  have hsplit : b * rowBytes = a * rowBytes + (b - a) * rowBytes := by rw [← Nat.add_mul, Nat.add_sub_cancel' hab]
  have hbytes : b * rowBytes ≤ rows * rowBytes := Nat.mul_le_mul_right _ hb
  have husize : isizeMax ≤ usizeMax := by decide
  unfold GgufFile.readPackedRows
  refine bind_eq_ok.mpr ⟨info, okOr_ok.mpr hinfo, bind_eq_ok.mpr ⟨rows, hrows, ?_⟩⟩
  refine bind_eq_ok.mpr ⟨(), failIf_ok.mpr (by dsimp only; omega), bind_eq_ok.mpr ⟨rowBytes, hrow, ?_⟩⟩
  refine bind_eq_ok.mpr ⟨_, if_pos (by dsimp only; omega), bind_eq_ok.mpr ⟨(), Reader.withCapacity_ok.mpr (by dsimp only; omega), ?_⟩⟩
  refine bind_eq_ok.mpr ⟨_, if_pos (by dsimp only; omega), bind_eq_ok.mpr ⟨_, if_pos (by omega), ?_⟩⟩
  refine bind_eq_ok.mpr ⟨_, if_pos (by dsimp only; omega), bind_eq_ok.mpr ⟨(), failIf_ok.mpr (by dsimp only; omega), ?_⟩⟩
  dsimp only
  split
  · next hzero =>
    rw [hzero, List.take_zero]
    rfl
  · rw [h.file]
    refine okOr_ok.mpr (getRange_some.mpr ⟨Nat.le_add_right _ _, by omega, ?_⟩)
    rw [Nat.add_sub_cancel_left]

theorem mapM_readPackedRows {ranges : List (Nat × Nat)} {a b : Nat} (hranges : Consecutive ranges a b) (hb : b ≤ rows) :
    ∃ parts, ranges.mapM (f.readPackedRows name) = .ok parts ∧
      parts.flatten = (content.drop (f.dataOffset + info.offset + a * rowBytes)).take ((b - a) * rowBytes) := by
  induction ranges generalizing a with
  | nil =>
    obtain rfl : a = b := hranges
    exact ⟨[], rfl, by rw [Nat.sub_self, Nat.zero_mul, List.take_zero]; rfl⟩
  | cons r ranges ih =>
    obtain ⟨start, stop⟩ := r
    obtain ⟨rfl, hle, hrest⟩ := hranges
    have hstop := hrest.le
    obtain ⟨parts, hparts, hflat⟩ := ih hrest
    have hfirst := readPackedRows_eq h hmax hinfo hrows hrow hlen hle (hstop.trans hb)
    refine ⟨_ :: parts, by rw [List.mapM_cons]; exact bind_eq_ok.mpr ⟨_, hfirst, bind_eq_ok.mpr ⟨_, hparts, rfl⟩⟩, ?_⟩
    have hrowsTo : stop * rowBytes = start * rowBytes + (stop - start) * rowBytes := by
      rw [← Nat.add_mul, Nat.add_sub_cancel' hle]
    have hjoin : b - start = (stop - start) + (b - stop) := by omega
    rw [List.flatten_cons, hflat, hrowsTo, hjoin, Nat.add_mul, List.take_add, List.drop_drop, ← Nat.add_assoc]

end Reading

theorem Opened.rowsJoin (h : GgufFile.Opened f content alignment) (hmax : content.length ≤ isizeMax) : f.RowsJoin := by
  intro name info hinfo
  obtain ⟨rows, rowBytes, hrows, hrow, hlen, -, -⟩ := Checked.rows (h.checked name info hinfo)
  have hall := readPackedRows_eq h hmax hinfo hrows hrow hlen (Nat.zero_le rows) le_rfl
  have hinside := (Opened.placed h).inside name info hinfo
  refine ⟨⟨info, f.endian, (content.drop (f.dataOffset + info.offset + 0 * rowBytes)).take ((rows - 0) * rowBytes)⟩, rows,
    ?_, hrows, ?_, fun ranges hranges => ?_⟩
  · exact bind_eq_ok.mpr ⟨info, okOr_ok.mpr hinfo, bind_eq_ok.mpr ⟨rows, hrows, bind_eq_ok.mpr ⟨_, hall, rfl⟩⟩⟩
  · rw [h.file] at hinside ⊢
    refine getRange_some.mpr ⟨Nat.le_add_right _ _, hinside, ?_⟩
    rw [GgufFile.interval, Nat.add_sub_cancel_left, hlen, Nat.zero_mul, Nat.add_zero, Nat.sub_zero, Nat.mul_comm]
  · exact mapM_readPackedRows h hmax hinfo hrows hrow hlen hranges le_rfl

end Ruda.Gguf
