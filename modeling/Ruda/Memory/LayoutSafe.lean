import Ruda.Memory.Strides

/-!
# Layouts do not overlap

When none of the arithmetic of a layout policy overflows, each tensor lies in rows within a
range of its own. Beyond overflows, which depend on the shapes alone, a policy panics on a
tensor without dimensions, or on rows that are to be aligned to less than sixteen bytes.
-/

namespace Ruda.Memory

variable {a r elem offset total : Nat} {d : MemoryLayoutDescriptor} {ds : List MemoryLayoutDescriptor} {sizes : List Nat}

-- One tensor

theorem optimalAlign_iff {n : Nat} :
    optimalAlign n elem a = some r ↔
      (n ≠ 1 → 16 ≤ a ∧ n * elem ≤ 2 ^ 63) ∧ r = if n = 1 then elem else max 16 (min (2 ^ Nat.clog 2 (n * elem)) a) := by
  unfold optimalAlign
  split
  · next h => simp [h, eq_comm]
  · next h =>
    simp only [Option.bind_eq_bind, Option.bind_eq_some_iff]
    constructor
    · rintro ⟨_, hmul, _, hpower, hclamp⟩
      obtain ⟨-, rfl⟩ := checkedMul_eq_some.mp hmul
      obtain ⟨hle, rfl⟩ := nextPowerOfTwo_iff.mp hpower
      unfold clamp at hclamp
      split at hclamp
      · next hmin => exact ⟨fun _ => ⟨hmin, hle⟩, (Option.some.inj hclamp).symm⟩
      · cases hclamp
    · rintro ⟨hfits, rfl⟩
      obtain ⟨hmin, hle⟩ := hfits h
      have hmax : n * elem ≤ u64Max := hle.trans (by decide)
      exact ⟨_, checkedMul_eq_some.mpr ⟨hmax, rfl⟩, _, nextPowerOfTwo_iff.mpr ⟨hle, rfl⟩, if_pos hmin⟩

/-- What the rows of a tensor are aligned to. -/
def rowAlign (a : Nat) (d : MemoryLayoutDescriptor) : Nat :=
  match d.strategy with
  | .contiguous => 1
  | .optimized =>
    if width d.shape = 1 then d.elemSize else max 16 (min (2 ^ Nat.clog 2 (width d.shape * d.elemSize)) a)

def rowBytes (a : Nat) (d : MemoryLayoutDescriptor) : Nat := roundUp (width d.shape * d.elemSize) (rowAlign a d)

def rows (d : MemoryLayoutDescriptor) : Nat := max d.shape.dropLast.prod 1

/-- The pitched policy lays the tensor out: its numbers are numbers of the machine, and rows that
are to be aligned can be aligned to sixteen bytes. -/
structure PitchedFits (a : Nat) (d : MemoryLayoutDescriptor) : Prop where
  align : d.strategy = .optimized → width d.shape ≠ 1 → 16 ≤ a ∧ width d.shape * d.elemSize ≤ 2 ^ 63
  height : ∀ k, (d.shape.dropLast.drop k).prod ≤ u64Max
  size : rows d * rowBytes a d ≤ u64Max
  strides : ∀ k, 0 < k → rowBytes a d / d.elemSize * (d.shape.dropLast.drop k).prod ≤ u64Max

/-- The contiguous policy lays the tensor out: it has a dimension, and its numbers are numbers of
the machine. -/
structure ContiguousFits (d : MemoryLayoutDescriptor) : Prop where
  rank : d.shape ≠ []
  count : ∀ k, (d.shape.take k).prod ≤ u64Max
  size : d.shape.prod * d.elemSize ≤ u64Max
  strides : ∀ k, 0 < k → (d.shape.drop k).prod ≤ u64Max

/-- An element fits into the memory alignment, and both are powers of two. -/
structure Aligned (a : Nat) (d : MemoryLayoutDescriptor) : Prop where
  elem : d.elemSize.isPowerOfTwo
  le : d.elemSize ≤ a

theorem pow_dvd_of_le {m n : Nat} (hm : m.isPowerOfTwo) (hn : n.isPowerOfTwo) (hle : m ≤ n) : m ∣ n := by
  obtain ⟨i, rfl⟩ := hm
  obtain ⟨j, rfl⟩ := hn
  exact Nat.pow_dvd_pow 2 ((Nat.pow_le_pow_iff_right (by omega)).mp hle)

theorem Aligned.pos (hd : Aligned a d) : 0 < d.elemSize := Nat.pos_of_isPowerOfTwo hd.elem

theorem rowAlign_pos (hd : Aligned a d) : 0 < rowAlign a d := by
  have := hd.pos
  unfold rowAlign
  split
  · omega
  · split <;> omega

theorem dvd_rowBytes (ha : a.isPowerOfTwo) (hd : Aligned a d) : d.elemSize ∣ rowBytes a d := by
  unfold rowBytes
  by_cases hdvd : rowAlign a d ∣ width d.shape * d.elemSize
  · rw [roundUp_of_dvd hdvd]
    exact Nat.dvd_mul_left _ _
  refine Nat.dvd_trans ?_ (dvd_roundUp (rowAlign_pos hd))
  unfold rowAlign at hdvd ⊢
  split at hdvd
  · exact absurd (Nat.one_dvd _) hdvd
  split at hdvd
  · next h =>
    rw [if_pos h]
  · next hwidth =>
    rw [if_neg hwidth]
    have hzero : width d.shape ≠ 0 := fun h => hdvd (by rw [h, Nat.zero_mul]; exact Nat.dvd_zero _)
    have hpow : (2 ^ Nat.clog 2 (width d.shape * d.elemSize)).isPowerOfTwo := ⟨_, rfl⟩
    have hle : d.elemSize ≤ 2 ^ Nat.clog 2 (width d.shape * d.elemSize) :=
      (Nat.le_mul_of_pos_left _ (Nat.pos_of_ne_zero hzero)).trans (Nat.le_pow_clog (by omega) _)
    have hmin : (min (2 ^ Nat.clog 2 (width d.shape * d.elemSize)) a).isPowerOfTwo := by
      rcases min_choice (2 ^ Nat.clog 2 (width d.shape * d.elemSize)) a with h | h <;> rw [h]
      · exact hpow
      · exact ha
    refine pow_dvd_of_le hd.elem ?_ ((le_min hle hd.le).trans (le_max_right _ _))
    rcases max_choice 16 (min (2 ^ Nat.clog 2 (width d.shape * d.elemSize)) a) with h | h <;> rw [h]
    · exact ⟨4, rfl⟩
    · exact hmin

theorem pitchAlign_iff :
    PitchedMemoryLayoutPolicy.pitchAlign a d = some r ↔
      (d.strategy = .optimized → width d.shape ≠ 1 → 16 ≤ a ∧ width d.shape * d.elemSize ≤ 2 ^ 63) ∧ r = rowAlign a d := by
  unfold PitchedMemoryLayoutPolicy.pitchAlign rowAlign
  cases d.strategy with
  | contiguous => simp [eq_comm]
  | optimized =>
    rw [forall_prop_of_true rfl]
    exact @optimalAlign_iff a r d.elemSize (width d.shape)

theorem height_iff : product (d.shape.reverse.drop 1) = some r ↔ (∀ k, (d.shape.dropLast.drop k).prod ≤ u64Max) ∧ r = d.shape.dropLast.prod := by
  rw [List.drop_one, List.tail_reverse, product_reverse_iff]

theorem pitched_layout_iff {result : Nat × List Nat} (hd : Aligned a d) :
    PitchedMemoryLayoutPolicy.layout a d = some result ↔
      PitchedFits a d ∧ result = (rows d * rowBytes a d, rowMajor (rowBytes a d / d.elemSize) d.shape) := by
  have hpitch (h : rows d * rowBytes a d ≤ u64Max) : rowBytes a d ≤ u64Max :=
    (Nat.le_mul_of_pos_left _ (Nat.lt_of_lt_of_le Nat.zero_lt_one (le_max_right _ _))).trans h
  have hstride (h : rowBytes a d ≤ u64Max) : rowBytes a d / d.elemSize ≤ u64Max := (Nat.div_le_self _ _).trans h
  unfold PitchedMemoryLayoutPolicy.layout
  simp only [Option.bind_eq_bind, Option.bind_eq_some_iff]
  constructor
  · rintro ⟨_, h₁, _, h₂, _, h₃, _, h₄, _, h₅, strides, h₆, hresult⟩
    obtain ⟨halign, rfl⟩ := pitchAlign_iff.mp h₁
    obtain ⟨hrows, rfl⟩ := height_iff.mp h₂
    obtain ⟨hwidth, rfl⟩ := checkedMul_eq_some.mp h₃
    obtain ⟨hrow, rfl⟩ := (checkedNextMultipleOf_iff (rowAlign_pos hd) hwidth).mp h₄
    obtain ⟨hsize, rfl⟩ := checkedMul_eq_some.mp h₅
    obtain ⟨hstrides, rfl⟩ := (pitchedStrides_iff (hstride hrow)).mp h₆
    exact ⟨⟨halign, hrows, hsize, hstrides⟩, (Option.some.inj hresult).symm⟩
  · rintro ⟨h, rfl⟩
    have hrow := hpitch h.size
    have hwidth : width d.shape * d.elemSize ≤ u64Max := le_roundUp.trans hrow
    exact ⟨_, pitchAlign_iff.mpr ⟨h.align, rfl⟩, _, height_iff.mpr ⟨h.height, rfl⟩, _, checkedMul_eq_some.mpr ⟨hwidth, rfl⟩, _,
      (checkedNextMultipleOf_iff (rowAlign_pos hd) hwidth).mpr ⟨hrow, rfl⟩, _, checkedMul_eq_some.mpr ⟨h.size, rfl⟩, _,
      (pitchedStrides_iff (hstride hrow)).mpr ⟨h.strides, rfl⟩, rfl⟩

theorem contiguous_layout_iff {result : Nat × List Nat} :
    ContiguousMemoryLayoutPolicy.layout d = some result ↔
      ContiguousFits d ∧ result = (d.shape.prod * d.elemSize, rowMajor (width d.shape) d.shape) := by
  unfold ContiguousMemoryLayoutPolicy.layout
  simp only [Option.bind_eq_bind, Option.bind_eq_some_iff]
  constructor
  · rintro ⟨_, h₁, _, h₂, strides, h₃, hresult⟩
    obtain ⟨hcount, rfl⟩ := product_iff.mp h₁
    obtain ⟨hsize, rfl⟩ := checkedMul_eq_some.mp h₂
    obtain ⟨hrank, hstrides, rfl⟩ := contiguousStrides_iff.mp h₃
    exact ⟨⟨hrank, hcount, hsize, hstrides⟩, (Option.some.inj hresult).symm⟩
  · rintro ⟨h, rfl⟩
    exact ⟨_, product_iff.mpr ⟨h.count, rfl⟩, _, checkedMul_eq_some.mpr ⟨h.size, rfl⟩, _,
      contiguousStrides_iff.mpr ⟨h.rank, h.strides, rfl⟩, rfl⟩

-- All tensors

section

variable {layout : MemoryLayoutDescriptor → Option (Nat × List Nat)} {fits : MemoryLayoutDescriptor → Prop}
  {size : MemoryLayoutDescriptor → Nat} {strides : MemoryLayoutDescriptor → List Nat}

/-- The bytes that tensors of these sizes take up. -/
def padded (a : Nat) (sizes : List Nat) : Nat := (sizes.map fun size => roundUp size a).sum

theorem padded_cons {n : Nat} : padded a (n :: sizes) = roundUp n a + padded a sizes := rfl

theorem measure_iff {result : Nat × List Nat × List (List Nat)} (ha : 0 < a) (htotal : total ≤ u64Max)
    (hsize : ∀ d ∈ ds, fits d → size d ≤ u64Max)
    (hlayout : ∀ d ∈ ds, ∀ r, layout d = some r ↔ fits d ∧ r = (size d, strides d)) :
    measure a layout total ds = some result ↔
      ((∀ d ∈ ds, fits d) ∧ total + padded a (ds.map size) ≤ u64Max) ∧
        result = (total + padded a (ds.map size), ds.map size, ds.map strides) := by
  induction ds generalizing total result with
  | nil =>
    rw [measure, Option.some.injEq]
    exact ⟨fun h => ⟨⟨nofun, htotal⟩, h.symm⟩, fun h => h.2.symm⟩
  | cons d ds ih =>
    have hd := hlayout d List.mem_cons_self
    have hsize' : ∀ d ∈ ds, fits d → size d ≤ u64Max := fun d hd => hsize d (List.mem_cons_of_mem _ hd)
    have hlayout' : ∀ d ∈ ds, ∀ r, layout d = some r ↔ fits d ∧ r = (size d, strides d) :=
      fun d hd => hlayout d (List.mem_cons_of_mem _ hd)
    rw [List.map_cons, List.map_cons, padded_cons, ← Nat.add_assoc, List.forall_mem_cons]
    simp only [measure, Option.bind_eq_bind, Option.bind_eq_some_iff]
    constructor
    · rintro ⟨_, h₁, _, h₂, _, h₃, _, h₄, hresult⟩
      obtain ⟨hfits, rfl⟩ := (hd _).mp h₁
      obtain ⟨-, rfl⟩ := (checkedNextMultipleOf_iff ha (hsize d List.mem_cons_self hfits)).mp h₂
      obtain ⟨hadd, rfl⟩ := checkedAdd_eq_some.mp h₃
      obtain ⟨⟨hall, hle⟩, rfl⟩ := (ih hadd hsize' hlayout').mp h₄
      exact ⟨⟨⟨hfits, hall⟩, hle⟩, (Option.some.inj hresult).symm⟩
    · rintro ⟨⟨⟨hfits, hall⟩, hle⟩, rfl⟩
      have hadd : total + roundUp (size d) a ≤ u64Max := by omega
      exact ⟨_, (hd _).mpr ⟨hfits, rfl⟩, _,
        (checkedNextMultipleOf_iff ha (hsize d List.mem_cons_self hfits)).mpr ⟨by omega, rfl⟩, _,
        checkedAdd_eq_some.mpr ⟨hadd, rfl⟩, _, (ih hadd hsize' hlayout').mpr ⟨⟨hall, hle⟩, rfl⟩, rfl⟩

/-- The handles of tensors of these sizes, from an offset on. -/
def extents (a total : Nat) : (offset : Nat) → (sizes : List Nat) → List Handle
  | _, [] => []
  | offset, size :: sizes => ⟨some offset, some (total - offset - size), total⟩ :: extents a total (offset + roundUp size a) sizes

theorem offsetHandlesFrom_eq (ha : 0 < a) (hfit : offset + padded a sizes ≤ total) (htotal : total ≤ u64Max) :
    offsetHandlesFrom (.new total) a offset sizes = some (extents a total offset sizes) := by
  induction sizes generalizing offset with
  | nil => rfl
  | cons size sizes ih =>
    rw [padded_cons] at hfit
    have hsize : size ≤ roundUp size a := le_roundUp
    have hrest : checkedSub total offset = some (total - offset) := checkedSub_eq_some.mpr ⟨by omega, rfl⟩
    have hrest' : checkedSub (total - offset) size = some (total - offset - size) := checkedSub_eq_some.mpr ⟨by omega, rfl⟩
    have hround : checkedNextMultipleOf size a = some (roundUp size a) :=
      (checkedNextMultipleOf_iff ha (by omega)).mpr ⟨by omega, rfl⟩
    have hadd : checkedAdd offset (roundUp size a) = some (offset + roundUp size a) := checkedAdd_eq_some.mpr ⟨by omega, rfl⟩
    have hih := @ih (offset + roundUp size a) (by omega)
    simp only [offsetHandlesFrom, Handle.new, Handle.addStart, Handle.addEnd, Option.bind_eq_bind, Option.bind_some, hrest, hrest',
      hround, hadd]
    rw [show (⟨none, none, total⟩ : Handle) = .new total from rfl, hih]
    rfl

theorem apply_iff {result : Handle × List MemoryLayout} (ha : 0 < a)
    (hsize : ∀ d ∈ ds, fits d → size d ≤ u64Max)
    (hlayout : ∀ d ∈ ds, ∀ r, layout d = some r ↔ fits d ∧ r = (size d, strides d)) :
    apply a layout ds = some result ↔
      ((∀ d ∈ ds, fits d) ∧ padded a (ds.map size) ≤ u64Max) ∧
        result = (.new (padded a (ds.map size)),
          List.zipWith MemoryLayout.mk (extents a (padded a (ds.map size)) 0 (ds.map size)) (ds.map strides)) := by
  have hmeasure := fun r => @measure_iff _ _ _ _ _ _ _ r ha (Nat.zero_le _) hsize hlayout
  simp only [Nat.zero_add] at hmeasure
  simp only [apply, Option.bind_eq_bind, Option.bind_eq_some_iff]
  constructor
  · rintro ⟨_, hm, handles, hhandles, hresult⟩
    obtain ⟨⟨hall, hle⟩, rfl⟩ := (hmeasure _).mp hm
    have heq := @offsetHandlesFrom_eq _ _ _ (ds.map size) ha (Nat.zero_add _).le hle
    obtain rfl := Option.some.inj (hhandles.symm.trans heq)
    exact ⟨⟨hall, hle⟩, (Option.some.inj hresult).symm⟩
  · rintro ⟨⟨hall, hle⟩, rfl⟩
    exact ⟨_, (hmeasure _).mpr ⟨⟨hall, hle⟩, rfl⟩, _, offsetHandlesFrom_eq ha (Nat.zero_add _).le hle, rfl⟩

end

-- No overlap

/-- The first byte of a handle in its allocation. -/
def Handle.first (h : Handle) : Nat := h.offsetStart.getD 0

/-- The byte after the last one. -/
def Handle.last (h : Handle) : Nat := h.size - h.offsetEnd.getD 0

/-- The tensor lies within its handle, and the handle within the allocation. -/
structure Places (a : Nat) (base : Handle) (d : MemoryLayoutDescriptor) (l : MemoryLayout) : Prop where
  aligned : a ∣ l.memory.first
  inside : l.memory.first + l.memory.offsetEnd.getD 0 ≤ l.memory.size
  size : l.memory.size = base.size
  rank : l.strides.length = d.shape.length
  element : ∀ index, InBounds index d.shape →
    l.memory.first + position index l.strides * d.elemSize + d.elemSize ≤ l.memory.last
  distinct : ∀ index index', InBounds index d.shape → InBounds index' d.shape →
    position index l.strides = position index' l.strides → index = index'

/-- Every tensor is in its place, and their handles follow one another. -/
def Separate (a : Nat) (ds : List MemoryLayoutDescriptor) (base : Handle) (layouts : List MemoryLayout) : Prop :=
  List.Forall₂ (Places a base) ds layouts ∧ layouts.Pairwise fun l l' => l.memory.last ≤ l'.memory.first

/-- Rows of a pitch that has room for the last dimension, in as many bytes as the rows take up. -/
structure Room (d : MemoryLayoutDescriptor) (pitch bytes : Nat) : Prop where
  row : width d.shape ≤ pitch
  bytes : pitch * d.shape.dropLast.prod * d.elemSize ≤ bytes

variable {pitch bytes : Nat}

theorem Room.rowsFit (h : Room d pitch bytes) : RowsFit pitch d.shape := fun w hw => by
  have hrow := h.row
  rwa [width, hw, Option.getD_some] at hrow

theorem Room.position_lt (h : Room d pitch bytes) {index : List Nat} (hin : InBounds index d.shape) :
    position index (rowMajor pitch d.shape) < pitch * d.shape.dropLast.prod := by
  by_cases hne : d.shape = []
  · have hrow := h.row
    rw [hne] at hin hrow ⊢
    cases hin
    exact Nat.lt_of_lt_of_eq (Nat.lt_of_lt_of_le Nat.zero_lt_one hrow) (Nat.mul_one _).symm
  · exact Ruda.position_lt hne h.rowsFit hin

theorem Room.places {base : Handle} (h : Room d pitch bytes) (haligned : a ∣ offset) (hfit : offset + bytes ≤ base.size) :
    Places a base d ⟨⟨some offset, some (base.size - offset - bytes), base.size⟩, rowMajor pitch d.shape⟩ where
  aligned := haligned
  inside := by
    show offset + (base.size - offset - bytes) ≤ base.size
    omega
  size := rfl
  rank := length_rowMajor
  element index hin := by
    have hbytes : position index (rowMajor pitch d.shape) * d.elemSize + d.elemSize ≤ bytes := by
      rw [← Nat.succ_mul]
      exact (Nat.mul_le_mul_right _ (h.position_lt hin)).trans h.bytes
    show offset + position index (rowMajor pitch d.shape) * d.elemSize + d.elemSize ≤ base.size - (base.size - offset - bytes)
    omega
  distinct index index' hin hin' heq := position_inj h.rowsFit hin hin' heq

theorem extents_apart {base : Handle} {size : MemoryLayoutDescriptor → Nat} {pitch : MemoryLayoutDescriptor → Nat} (ha : 0 < a)
    (hroom : ∀ d ∈ ds, Room d (pitch d) (size d)) (haligned : a ∣ offset)
    (hfit : offset + padded a (ds.map size) ≤ base.size) :
    (∀ l ∈ List.zipWith MemoryLayout.mk (extents a base.size offset (ds.map size)) (ds.map fun d => rowMajor (pitch d) d.shape),
      offset ≤ l.memory.first) ∧
    Separate a ds base
      (List.zipWith MemoryLayout.mk (extents a base.size offset (ds.map size)) (ds.map fun d => rowMajor (pitch d) d.shape)) := by
  induction ds generalizing offset with
  | nil => exact ⟨nofun, .nil, .nil⟩
  | cons d ds ih =>
    rw [List.map_cons, padded_cons] at hfit
    have hsize : size d ≤ roundUp (size d) a := le_roundUp
    have hrest : offset + roundUp (size d) a + padded a (ds.map size) ≤ base.size := by omega
    obtain ⟨hbehind, hplaces, hpairs⟩ := ih (fun d hd => hroom d (List.mem_cons_of_mem _ hd))
      (Nat.dvd_add haligned (dvd_roundUp ha)) hrest
    have hfirst := (hroom d List.mem_cons_self).places haligned (show offset + size d ≤ base.size by omega)
    refine ⟨fun l hl => ?_, .cons hfirst hplaces, .cons (fun l hl => ?_) hpairs⟩
    · rcases List.mem_cons.mp hl with rfl | hl
      · exact le_rfl
      · exact (Nat.le_add_right _ _).trans (hbehind l hl)
    · have hnext := hbehind l hl
      show base.size - (base.size - offset - size d) ≤ l.memory.first
      omega

theorem PitchedFits.room (ha : a.isPowerOfTwo) (hd : Aligned a d) :
    Room d (rowBytes a d / d.elemSize) (rows d * rowBytes a d) where
  row := (Nat.le_div_iff_mul_le hd.pos).mpr le_roundUp
  bytes := by
    have hwhole : rowBytes a d / d.elemSize * d.elemSize = rowBytes a d := Nat.div_mul_cancel (dvd_rowBytes ha hd)
    rw [Nat.mul_right_comm, hwhole, Nat.mul_comm]
    exact Nat.mul_le_mul_right _ (le_max_left _ _)

theorem ContiguousFits.room : Room d (width d.shape) (d.shape.prod * d.elemSize) :=
  ⟨le_rfl, by rw [width_mul]⟩

/-- Both policies lay tensors out without a panic and without an overlap exactly if each tensor
fits and their padded sizes add up to a number of the machine. -/
theorem layouts_apart_iff (ha : a.isPowerOfTwo) (hds : ∀ d ∈ ds, Aligned a d) :
    ((∃ base layouts, PitchedMemoryLayoutPolicy.apply a ds = some (base, layouts) ∧ Separate a ds base layouts) ↔
      (∀ d ∈ ds, PitchedFits a d) ∧ padded a (ds.map fun d => rows d * rowBytes a d) ≤ u64Max) ∧
    ((∃ base layouts, ContiguousMemoryLayoutPolicy.apply a ds = some (base, layouts) ∧ Separate a ds base layouts) ↔
      (∀ d ∈ ds, ContiguousFits d) ∧ padded a (ds.map fun d => d.shape.prod * d.elemSize) ≤ u64Max) := by
  have hpos : 0 < a := Nat.pos_of_isPowerOfTwo ha
  have hpitched := fun r => @apply_iff a ds _ _ _ _ r hpos (fun d _ (h : PitchedFits a d) => h.size)
    fun d hd r => pitched_layout_iff (hds d hd)
  have hcontiguous := fun r => @apply_iff a ds _ _ _ _ r hpos (fun d _ (h : ContiguousFits d) => h.size)
    fun d hd r => contiguous_layout_iff
  constructor
  · constructor
    · rintro ⟨base, layouts, happly, -⟩
      exact ((hpitched _).mp happly).1
    · intro hfits
      exact ⟨_, _, (hpitched _).mpr ⟨hfits, rfl⟩,
        (extents_apart hpos (fun d hd => PitchedFits.room ha (hds d hd)) (Nat.dvd_zero a) (Nat.zero_add _).le).2⟩
  · constructor
    · rintro ⟨base, layouts, happly, -⟩
      exact ((hcontiguous _).mp happly).1
    · intro hfits
      exact ⟨_, _, (hcontiguous _).mpr ⟨hfits, rfl⟩,
        (extents_apart hpos (fun d _ => ContiguousFits.room) (Nat.dvd_zero a) (Nat.zero_add _).le).2⟩

/-- Three rows of five elements, each padded to eight. -/
theorem layouts_apart_rows :
    ∃ base layouts, PitchedMemoryLayoutPolicy.apply 16 [⟨.optimized, [3, 5], 4⟩] = some (base, layouts) ∧
      Separate 16 [⟨.optimized, [3, 5], 4⟩] base layouts := by
  have haligned : ∀ d ∈ [(⟨.optimized, [3, 5], 4⟩ : MemoryLayoutDescriptor)], Aligned 16 d := by
    intro d hd
    obtain rfl := List.mem_singleton.mp hd
    exact ⟨⟨2, rfl⟩, by decide⟩
  refine (layouts_apart_iff ⟨4, rfl⟩ haligned).1.mpr ⟨fun d hd => ?_, by decide +kernel⟩
  obtain rfl := List.mem_singleton.mp hd
  refine ⟨by decide, fun k => ?_, by decide +kernel, fun k hk => ?_⟩
  · rcases k with _ | k <;> simp [u64Max]
  · obtain ⟨k, rfl⟩ := Nat.exists_eq_succ_of_ne_zero (Nat.pos_iff_ne_zero.mp hk)
    rw [show [3, 5].dropLast.drop (k + 1) = [] by simp]
    decide +kernel

/-- A scalar, which only the pitched policy lays out, and a row that cannot be aligned. -/
theorem scalar_without_strides :
    ContiguousMemoryLayoutPolicy.apply 4 [⟨.contiguous, [], 4⟩] = none ∧
      PitchedMemoryLayoutPolicy.apply 4 [⟨.contiguous, [], 4⟩] = some (.new 4, [⟨⟨some 0, some 0, 4⟩, []⟩]) ∧
      PitchedMemoryLayoutPolicy.apply 8 [⟨.optimized, [5], 4⟩] = none := by
  decide +kernel

end Ruda.Memory
