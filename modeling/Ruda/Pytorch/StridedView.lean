import Ruda.Pytorch.LegacyExact
import Ruda.Pytorch.Rebuild

/-!
# When a rebuilt tensor is its view

The arguments of `_rebuild_tensor_v2` name a view of a storage: where it starts, its shape and
its strides. The strides are not looked at and missing elements are filled up, so a tensor is its
view for exactly those arguments whose view is without padding and inside the storage.
-/

namespace Ruda.Pytorch

open Rudapack (DType BoolStore)
open Tensor (usizeMul numElements Fits)

/-- A view of the elements of a storage. -/
structure View where
  dtype : DType
  offset : Nat
  shape : List Nat
  strides : List Nat

def View.address (v : View) (index : List Nat) : Nat := v.offset + position index v.strides

/-- Every element of the view is one of a storage of `n` bytes. -/
structure View.In (v : View) (n : Nat) : Prop where
  rank : v.strides.length = v.shape.length
  inside : ∀ index, InBounds index v.shape → v.address index < n / v.dtype.size

/-- The tensor of a view, in row-major order. -/
structure View.Shows (v : View) (data : Bytes) (tensor : TensorData) : Prop where
  dtype_eq : tensor.dtype = v.dtype
  shape_eq : tensor.shape = v.shape
  values : ∀ index, InBounds index v.shape →
    tensor.values[position index (denseStrides v.shape)]? = some (element v.dtype (elementBytes v.dtype data (v.address index)))

def natArg (n : Nat) : Arg := .int n

def natsArg (l : List Nat) : Arg := .tuple (l.map natArg)

def storageIdOf (storage : Arg) : Res PickleError StorageId := do
  let info ← parseStorageArg "rebuild_tensor_v2" storage
  storageOf info.1 info.2

/-- The view that arguments name. -/
def Names (args : Arg) (v : View) : Prop :=
  ∃ storage grad rest id, args = .tuple (storage :: natArg v.offset :: natsArg v.shape :: natsArg v.strides :: grad :: rest) ∧
    storageIdOf storage = .ok id ∧ id.dtype = v.dtype

/-- No panic, and every tensor is the view that its arguments name, whatever a storage of this size
holds. Without a size there is no storage. -/
structure Right (args : Arg) (source : Option LazyDataSource) (size : Option (Fin (2 ^ 63))) : Prop where
  rebuilds : rebuildTensorV2 args source ≠ .error .panic
  loads : ∀ t source', rebuildTensorV2 args source = .ok (t, source') →
    ∀ data : Option Bytes, data.map List.length = size.map Fin.val →
      t.dataFn data ≠ .error .panic ∧ ∀ tensor, t.dataFn data = .ok tensor →
        ∃ v bytes, Names args v ∧ data = some bytes ∧ v.In bytes.length ∧ v.Shows bytes tensor

/-- Arguments that are not refused for their form. -/
def Accepted (args : Arg) (id : StorageId) : Prop :=
  ∃ storage offset stride grad rest, ∃ dims : List Int,
    args = .tuple (storage :: offset :: .tuple (dims.map .int) :: stride :: grad :: rest) ∧ storageIdOf storage = .ok id

/-- The map of storages, should it be made, is without overflow. -/
def LegacyMultiStorageSource.MapFits (s : LegacyMultiStorageSource) : Prop :=
  s.storageMap = none → ∀ keys, s.storageKeys = some keys → (∀ k ∈ keys, (s.storageUsage.lookup k).isSome) →
    ((keys.map fun k => (s.storageUsage.lookup k).getD 0).map (8 + ·)).sum ≤ usizeMax

/-- Tracking a storage is without overflow. -/
def LazyDataSource.Tracks (source : LazyDataSource) (id : StorageId) (count : Nat) : Prop :=
  match source with
  | legacyMultiStorage source _ =>
    id.total.getD count * id.dtype.size ≤ usizeMax ∧
      { source with storageUsage := source.used ⟨id.key, 0, id.total.getD count * id.dtype.size⟩ }.MapFits
  | _ => True

/-- Arguments that are refused, or name a view without padding that ends inside the storage. -/
def Safe (args : Arg) (source : Option LazyDataSource) (size : Option (Fin (2 ^ 63))) : Prop :=
  ∀ id s, Accepted args id → source = some s →
    ∃ v n, Names args v ∧ (∀ dim ∈ v.shape, 0 < dim) ∧ Dense v.shape v.strides ∧ size = some n ∧
      v.offset + v.shape.prod ≤ n.val / v.dtype.size ∧ s.Tracks id (v.offset + v.shape.prod)

variable {args : Arg} {source : Option LazyDataSource} {size : Option (Fin (2 ^ 63))} {id : StorageId} {t : TensorSnapshot}
variable {v v' : View} {data : Bytes} {tensor : TensorData}

-- Arguments

theorem natArg_inj {n n' : Nat} (h : natArg n = natArg n') : n = n' := Int.ofNat.inj (Object.int.inj h)

theorem natsArg_inj {l l' : List Nat} (h : natsArg l = natsArg l') : l = l' :=
  List.map_injective_iff.mpr (fun _ _ => natArg_inj) (Object.tuple.inj h)

theorem Names.unique (h : Names args v) (h' : Names args v') : v = v' := by
  obtain ⟨storage, grad, rest, id, hargs, hid, hdtype⟩ := h
  obtain ⟨storage', grad', rest', id', hargs', hid', hdtype'⟩ := h'
  obtain ⟨rfl, htail⟩ := List.cons.inj (Object.tuple.inj (hargs.symm.trans hargs'))
  obtain ⟨hoffset, htail⟩ := List.cons.inj htail
  obtain ⟨hshape, htail⟩ := List.cons.inj htail
  obtain ⟨hstrides, -⟩ := List.cons.inj htail
  obtain rfl := Except.ok.inj (hid.symm.trans hid')
  cases v
  cases v'
  obtain rfl := hdtype
  obtain rfl := hdtype'
  obtain rfl := natArg_inj hoffset
  obtain rfl := natsArg_inj hshape
  obtain rfl := natsArg_inj hstrides
  rfl

theorem storageTypeToDtype_ok {name : String} {dtype : DType} (h : storageTypeToDtype name = .ok dtype) :
    supported dtype = true := by
  unfold storageTypeToDtype at h
  split at h
  all_goals first
    | exact Except.ok.inj h ▸ rfl
    | exact nomatch h

theorem supported_size {dtype : DType} (h : supported dtype = true) : 0 < dtype.size := by
  unfold supported at h
  split at h
  all_goals first
    | decide
    | exact nomatch h

theorem noPanic_bind {ε α β : Type} {m : Res ε α} {f : α → Res ε β} (hm : NoPanic m) (hf : ∀ a, NoPanic (f a)) : NoPanic (m >>= f) := by
  intro h
  obtain h | ⟨a, -, h⟩ := bind_eq_panic.mp h
  · exact hm h
  · exact hf a h

theorem noPanic_typeName (a : Arg) : NoPanic (storageTypeName a) := by
  cases a <;> exact nofun

theorem noPanic_dtype (name : String) : NoPanic (storageTypeToDtype name) := by
  unfold storageTypeToDtype
  split <;> exact nofun

theorem noPanic_key (a : Arg) : NoPanic (storageKeyOf a) := by
  cases a <;> exact nofun

theorem noPanic_storage (storage : Arg) : NoPanic (storageIdOf storage) := by
  refine noPanic_bind ?_ fun info => ?_
  · cases storage <;> exact nofun
  · unfold storageOf
    split
    · unfold storageOfTuple
      split
      · exact noPanic_bind (noPanic_typeName _) fun name => noPanic_bind (noPanic_dtype name) fun dtype =>
          noPanic_bind (noPanic_key _) fun key => nofun
      · exact nofun
    · split
      · unfold storageOfText
        simp only
        split
        · split
          · exact noPanic_bind (noPanic_dtype _) fun dtype => nofun
          · exact nofun
        · exact nofun
      · exact nofun

theorem storageOf_supported {storage : Arg} (h : storageIdOf storage = .ok id) : supported id.dtype = true := by
  obtain ⟨info, -, h⟩ := bind_eq_ok.mp h
  unfold storageOf at h
  split at h
  · unfold storageOfTuple at h
    split at h
    · obtain ⟨name, -, h⟩ := bind_eq_ok.mp h
      obtain ⟨dtype, hdtype, h⟩ := bind_eq_ok.mp h
      obtain ⟨key, -, h⟩ := bind_eq_ok.mp h
      exact Except.ok.inj h ▸ storageTypeToDtype_ok hdtype
    · exact nomatch h
  · split at h
    · unfold storageOfText at h
      simp only at h
      split at h
      · split at h
        · obtain ⟨dtype, hdtype, h⟩ := bind_eq_ok.mp h
          exact Except.ok.inj h ▸ storageTypeToDtype_ok hdtype
        · exact nomatch h
      · exact nomatch h
    · exact nomatch h

theorem parseShapeArg_cases (fnName : String) (a : Arg) :
    (∃ dims : List Int, a = .tuple (dims.map .int) ∧ parseShapeArg fnName a = .ok (dims.map asUsize)) ∨
      (∃ e, parseShapeArg fnName a = .error (.err e)) ∧ ∀ dims : List Int, a ≠ .tuple (dims.map .int) := by
  cases a with
  | tuple items =>
    induction items with
    | nil => exact .inl ⟨[], rfl, rfl⟩
    | cons item items ih =>
      cases item with
      | int i =>
        obtain ⟨dims, hdims, hparse⟩ | ⟨⟨e, hparse⟩, hnone⟩ := ih
        · refine .inl ⟨i :: dims, by rw [List.map_cons, Object.tuple.inj hdims], ?_⟩
          rw [parseShapeArg] at hparse ⊢
          rw [List.mapM_cons, parseDim, ok_bind, hparse, ok_bind]
          rfl
        · refine .inr ⟨⟨e, ?_⟩, fun dims hdims => ?_⟩
          · rw [parseShapeArg] at hparse ⊢
            rw [List.mapM_cons, parseDim, ok_bind, hparse, error_bind]
          · cases dims with
            | nil => exact nomatch Object.tuple.inj hdims
            | cons dim dims => exact hnone dims (congrArg _ (List.cons.inj (Object.tuple.inj hdims)).2)
      | _ =>
        refine .inr ⟨⟨_, rfl⟩, fun dims hdims => ?_⟩
        cases dims with
        | nil => exact nomatch Object.tuple.inj hdims
        | cons dim dims => exact nomatch (List.cons.inj (Object.tuple.inj hdims)).1
  | _ => exact .inr ⟨⟨_, rfl⟩, nofun⟩

theorem err_of_noPanic {ε α : Type} {m : Res ε α} (hpanic : NoPanic m) (hok : ∀ a, m ≠ .ok a) : ∃ e, m = .error (.err e) := by
  cases m with
  | ok a => exact absurd rfl (hok a)
  | error stop =>
    cases stop with
    | err e => exact ⟨e, rfl⟩
    | panic => exact absurd rfl hpanic

/-- Arguments are refused for their form or for want of a data source, or the source is tracked. -/
theorem rebuild_cases (args : Arg) (source : Option LazyDataSource) :
    ((∃ e, rebuildTensorV2 args source = .error (.err e)) ∧ ∀ id, Accepted args id → source = none) ∨
      ∃ storage offset stride grad rest id s, ∃ dims : List Int,
        args = .tuple (storage :: offset :: .tuple (dims.map .int) :: stride :: grad :: rest) ∧ storageIdOf storage = .ok id ∧
        source = some s ∧ rebuildTensorV2 args source = (do
          let s' ← orPanic (s.track id.key (LazyDataSource.bytesNeeded id.dtype id.total (storageOffsetOf offset) (dims.map asUsize)))
          pure (⟨id.dtype, dims.map asUsize, storageOffsetOf offset, s.dataFileKey id.key⟩, s')) := by
  by_cases htuple : ∃ storage offset shape stride grad rest, args = .tuple (storage :: offset :: shape :: stride :: grad :: rest)
  · obtain ⟨storage, offset, shape, stride, grad, rest, rfl⟩ := htuple
    have hcall : rebuildTensorV2 (.tuple (storage :: offset :: shape :: stride :: grad :: rest)) source = (do
        let info ← parseStorageArg "rebuild_tensor_v2" storage
        let shape ← parseShapeArg "rebuild_tensor_v2" shape
        rebuildTensorImpl info.1 info.2 (storageOffsetOf offset) shape source) := by
      have hlen : ¬(storage :: offset :: shape :: stride :: grad :: rest).length < 5 := by simp
      rw [rebuildTensorV2, rebuildWith, if_neg hlen]
    rw [hcall]
    have hstorage := noPanic_storage storage
    rw [storageIdOf] at hstorage
    by_cases hid : ∃ id, storageIdOf storage = .ok id
    · obtain ⟨id, hid⟩ := hid
      obtain ⟨info, hinfo, hof⟩ := bind_eq_ok.mp hid
      rw [hinfo, ok_bind]
      obtain ⟨dims, rfl, hshape⟩ | ⟨⟨e, hshape⟩, hnone⟩ := parseShapeArg_cases "rebuild_tensor_v2" shape
      · rw [hshape, ok_bind, rebuildTensorImpl, hof, ok_bind]
        cases source with
        | none => exact .inl ⟨⟨_, rfl⟩, fun _ _ => rfl⟩
        | some s => exact .inr ⟨storage, offset, stride, grad, rest, id, s, dims, rfl, hid, rfl, rfl⟩
      · refine .inl ⟨⟨e, by rw [hshape, error_bind]⟩, ?_⟩
        rintro id' ⟨storage', offset', stride', grad', rest', dims, hargs, -⟩
        obtain ⟨-, htail⟩ := List.cons.inj (Object.tuple.inj hargs)
        obtain ⟨-, htail⟩ := List.cons.inj htail
        exact absurd (List.cons.inj htail).1 (hnone dims)
    · refine .inl ⟨?_, ?_⟩
      · obtain ⟨e, hstop⟩ := err_of_noPanic hstorage fun id h => hid ⟨id, h⟩
        cases hinfo : parseStorageArg "rebuild_tensor_v2" storage with
        | error stop =>
          rw [hinfo, error_bind] at hstop
          obtain rfl := Except.error.inj hstop
          exact ⟨e, rfl⟩
        | ok info =>
          rw [hinfo, ok_bind] at hstop
          rw [ok_bind]
          obtain ⟨dims, -, hshape⟩ | ⟨⟨e', hshape⟩, -⟩ := parseShapeArg_cases "rebuild_tensor_v2" shape
          · exact ⟨e, by rw [hshape, ok_bind, rebuildTensorImpl, hstop, error_bind]⟩
          · exact ⟨e', by rw [hshape, error_bind]⟩
      · rintro id ⟨storage', offset', stride', grad', rest', dims, hargs, hid'⟩
        obtain ⟨rfl, -⟩ := List.cons.inj (Object.tuple.inj hargs)
        exact absurd ⟨id, hid'⟩ hid
  · refine .inl ⟨?_, ?_⟩
    · cases args with
      | tuple items =>
        have hlen : items.length < 5 := by
          by_contra hlen
          match items with
          | storage :: offset :: shape :: stride :: grad :: rest => exact htuple ⟨storage, offset, shape, stride, grad, rest, rfl⟩
          | [] | [_] | [_, _] | [_, _, _] | [_, _, _, _] => simp at hlen
        exact ⟨_, if_pos hlen⟩
      | _ => exact ⟨_, rfl⟩
    · rintro id ⟨storage, offset, stride, grad, rest, dims, rfl, -⟩
      exact absurd ⟨storage, offset, _, stride, grad, rest, rfl⟩ htuple

-- Tracking

namespace LegacyMultiStorageSource

theorem storageOffsets_iff {usage : List (Text × Nat)} {keys : List Text} (husage : ∀ k ∈ keys, (usage.lookup k).isSome)
    {current : Nat} (hcurrent : current ≤ usizeMax) (map : List (Text × Nat × Nat)) :
    (∃ map', storageOffsets usage keys map current = .ok map') ↔
      current + ((keys.map fun k => (usage.lookup k).getD 0).map (8 + ·)).sum ≤ usizeMax := by
  constructor
  · rintro ⟨map', h⟩
    induction keys generalizing map current with
    | nil => exact hcurrent
    | cons key keys ih =>
      obtain ⟨size, hsize⟩ := Option.isSome_iff_exists.mp (husage key List.mem_cons_self)
      rw [storageOffsets, hsize] at h
      obtain ⟨offset, -, h⟩ := bind_eq_ok.mp h
      obtain ⟨stride, hstride, h⟩ := bind_eq_ok.mp h
      obtain ⟨next, hnext, h⟩ := bind_eq_ok.mp h
      obtain ⟨rfl, -⟩ := addUsize_iff.mp hstride
      obtain ⟨rfl, hle⟩ := addUsize_iff.mp hnext
      have hrest := ih (fun k hk => husage k (List.mem_cons_of_mem _ hk)) hle _ h
      simp only [List.map_cons, List.sum_cons, hsize, Option.getD_some]
      omega
  · intro hsum
    have hsize : ∀ k ∈ keys, usage.lookup k = some ((usage.lookup k).getD 0) := fun k hk =>
      (Option.some_get (husage k hk)).symm.trans (congrArg some (Option.get_eq_getD _))
    exact @storageOffsets_ok usage (fun k => (usage.lookup k).getD 0) keys hsize current hsum map

theorem tryBuildStorageMap_iff (s : LegacyMultiStorageSource) : (∃ s', s.tryBuildStorageMap = .ok s') ↔ s.MapFits := by
  unfold MapFits tryBuildStorageMap
  cases hmap : s.storageMap with
  | some map => exact ⟨fun _ => nofun, fun _ => ⟨s, rfl⟩⟩
  | none =>
    cases hkeys : s.storageKeys with
    | none => exact ⟨fun _ _ => nofun, fun _ => ⟨s, rfl⟩⟩
    | some keys =>
      simp only
      split
      · next hall =>
        have hoffsets := storageOffsets_iff hall (Nat.zero_le usizeMax) []
        rw [Nat.zero_add] at hoffsets
        constructor
        · rintro ⟨s', hs'⟩ - keys' hkeys' -
          obtain rfl := Option.some.inj hkeys'
          obtain ⟨map, hmap, -⟩ := bind_eq_ok.mp hs'
          exact hoffsets.mp ⟨map, hmap⟩
        · intro hfits
          obtain ⟨map, hmap⟩ := hoffsets.mpr (hfits trivial keys rfl hall)
          exact ⟨_, by rw [hmap, ok_bind]; rfl⟩
      · next hall =>
        refine ⟨fun _ _ keys' hkeys' hall' => ?_, fun _ => ⟨s, rfl⟩⟩
        obtain rfl := Option.some.inj hkeys'
        exact absurd hall' hall

end LegacyMultiStorageSource

theorem usizeMul_iff {ε : Type} {a b c : Nat} : (usizeMul a b : Res ε Nat) = .ok c ↔ a * b = c ∧ c ≤ usizeMax := by
  unfold usizeMul usizeMax u64Max
  split
  · next h =>
    refine ⟨fun hc => ?_, fun hc => congrArg Except.ok hc.1⟩
    obtain rfl := Except.ok.inj hc
    exact ⟨rfl, by omega⟩
  · next h =>
    refine ⟨nofun, fun hc => ?_⟩
    omega

namespace LazyDataSource

theorem track_iff (source : LazyDataSource) (id : StorageId) {offset : Nat} {shape : List Nat}
    (hfits : Fits 1 shape) (hcount : offset + shape.prod ≤ usizeMax) :
    (∃ s', source.track id.key (bytesNeeded id.dtype id.total offset shape) = .ok s') ↔
      source.Tracks id (offset + shape.prod) := by
  cases source with
  | zip files => exact ⟨fun _ => trivial, fun _ => ⟨_, rfl⟩⟩
  | tar storages => exact ⟨fun _ => trivial, fun _ => ⟨_, rfl⟩⟩
  | legacyMultiStorage source file =>
    have hneeded : bytesNeeded id.dtype id.total offset shape = usizeMul (id.total.getD (offset + shape.prod)) id.dtype.size := by
      unfold bytesNeeded
      cases id.total with
      | some total => rfl
      | none =>
        have hadd : (addUsize offset shape.prod : Res Empty Nat) = .ok (offset + shape.prod) := if_pos hcount
        rw [Tensor.numElements_ok hfits, ok_bind, hadd, ok_bind, Option.getD_none]
    rw [hneeded, track, Tracks]
    constructor
    · rintro ⟨s', hs'⟩
      obtain ⟨needed, hmul, hs'⟩ := bind_eq_ok.mp hs'
      obtain ⟨source', htrack, -⟩ := bind_eq_ok.mp hs'
      obtain ⟨rfl, hle⟩ := usizeMul_iff.mp hmul
      refine ⟨hle, (LegacyMultiStorageSource.tryBuildStorageMap_iff _).mp ⟨source', ?_⟩⟩
      rwa [LegacyMultiStorageSource.trackStorageUsage_ok (by simpa using hle)] at htrack
    · rintro ⟨hle, hfits⟩
      obtain ⟨source', hbuild⟩ := (LegacyMultiStorageSource.tryBuildStorageMap_iff _).mpr hfits
      have hmul := usizeMul_iff (ε := Empty).mpr ⟨rfl, hle⟩
      rw [← LegacyMultiStorageSource.trackStorageUsage_ok (by simpa using hle)] at hbuild
      exact ⟨legacyMultiStorage source' file, by rw [hmul, ok_bind, hbuild, ok_bind]; rfl⟩

end LazyDataSource

-- Loading

theorem TensorData.new_ok {ε : Type} {dtype : DType} {values shape : List Nat}
    (h : (TensorData.new dtype values shape : Res ε TensorData) = .ok tensor) :
    tensor.dtype = dtype ∧ tensor.shape = shape ∧ tensor.values = values := by
  unfold TensorData.new at h
  split at h
  · split at h
    · exact Except.ok.inj h ▸ ⟨rfl, rfl, rfl⟩
    · exact nomatch h
  · exact nomatch h

theorem TensorData.new_fits {ε : Type} {dtype : DType} {values shape : List Nat} (hfits : Fits 1 shape)
    (hlen : values.length = shape.prod) : (TensorData.new dtype values shape : Res ε TensorData) = .ok ⟨dtype, shape, values, hlen⟩ := by
  unfold TensorData.new
  split
  · next n hn =>
    rw [dif_pos ((numElements_eq hn).symm.trans hlen.symm)]
  · next e he => exact nomatch (Tensor.numElements_ok hfits).symm.trans he

theorem length_filled (dtype : DType) (slice : Bytes) (n : Nat) : (filled dtype slice n).length = n := by
  simp only [filled, List.length_append, List.length_map, List.length_range, List.length_replicate]
  omega

theorem getElem?_filled {dtype : DType} {slice : Bytes} {n i : Nat} (hi : i < n) :
    (filled dtype slice n)[i]? =
      some (if i < slice.length / dtype.size then element dtype (elementBytes dtype slice i) else 0) := by
  unfold filled
  simp only
  split
  · next hlt =>
    have hread : i < min n (slice.length / dtype.size) := lt_min hi hlt
    rw [List.getElem?_append_left (by simpa using hread), List.getElem?_map, List.getElem?_range hread, Option.map_some]
  · next hge =>
    have hread : min n (slice.length / dtype.size) ≤ i := min_le_of_right_le (not_lt.mp hge)
    rw [List.getElem?_append_right (by simpa using hread), List.length_map, List.length_range, List.getElem?_replicate,
      if_pos (by omega)]

theorem elementBytes_drop (dtype : DType) (data : Bytes) (offset i : Nat) :
    elementBytes dtype (data.drop (offset * dtype.size)) i = elementBytes dtype data (offset + i) := by
  rw [elementBytes, elementBytes, List.drop_drop, Nat.add_mul]

theorem prod_pos_iff {shape : List Nat} : 0 < shape.prod ↔ ∀ dim ∈ shape, 0 < dim := by
  induction shape with
  | nil => exact ⟨fun _ => nofun, fun _ => Nat.one_pos⟩
  | cons dim dims ih => rw [List.prod_cons, List.forall_mem_cons, ← ih, CanonicallyOrderedAdd.mul_pos]

theorem fits_of_prod {shape : List Nat} (hpos : ∀ dim ∈ shape, 0 < dim) (hprod : shape.prod < 2 ^ 64) : Fits 1 shape := by
  intro k
  have hsplit : (shape.take k).prod * (shape.drop k).prod = shape.prod := List.prod_take_mul_prod_drop shape k
  have hrest : 0 < (shape.drop k).prod := prod_pos_iff.mpr fun dim hdim => hpos dim (List.mem_of_mem_drop hdim)
  rw [Nat.one_mul]
  exact (Nat.le_mul_of_pos_right _ hrest).trans_lt (hsplit ▸ hprod)

theorem dataFn_some_ok (hsupported : supported t.dtype = true) (h : t.dataFn (some data) = .ok tensor) :
    0 < t.shape.prod ∧ tensor.shape = t.shape ∧ (t.storageOffset * t.dtype.size < data.length →
      tensor.values = filled t.dtype (data.drop (t.storageOffset * t.dtype.size)) t.shape.prod) := by
  obtain ⟨n, hn, h⟩ := bind_eq_ok.mp h
  obtain rfl := numElements_eq hn
  obtain ⟨offsetBytes, hoffset, h⟩ := bind_eq_ok.mp h
  obtain ⟨rfl, -⟩ := usizeMul_iff.mp hoffset
  simp only [hsupported, if_true] at h
  split at h
  · next hge =>
    obtain ⟨-, -, h⟩ := bind_eq_ok.mp h
    obtain ⟨-, hshape, hvalues⟩ := TensorData.new_ok h
    have hlen := tensor.length_eq
    rw [hshape, hvalues, List.length_replicate] at hlen
    exact ⟨by omega, hshape, fun hlt => absurd hge (not_le.mpr hlt)⟩
  · obtain ⟨-, -, h⟩ := bind_eq_ok.mp h
    obtain ⟨-, hshape, hvalues⟩ := TensorData.new_ok h
    have hlen := tensor.length_eq
    rw [hshape, hvalues, length_filled] at hlen
    have hpos : 0 < t.shape.prod := by omega
    exact ⟨hpos, hshape, fun _ => by rw [hvalues, max_eq_left hpos]⟩

theorem dataFn_some (hsupported : supported t.dtype = true) (hpos : ∀ dim ∈ t.shape, 0 < dim) (hdata : data.length < 2 ^ 63)
    (hin : t.storageOffset + t.shape.prod ≤ data.length / t.dtype.size) :
    ∃ tensor, t.dataFn (some data) = .ok tensor ∧ tensor.dtype = t.dtype ∧ tensor.shape = t.shape ∧
      tensor.values = filled t.dtype (data.drop (t.storageOffset * t.dtype.size)) t.shape.prod := by
  have hsize := supported_size hsupported
  have hprod : 0 < t.shape.prod := prod_pos_iff.mpr hpos
  have hbytes : (t.storageOffset + t.shape.prod) * t.dtype.size ≤ data.length :=
    (Nat.mul_le_mul_right _ hin).trans (Nat.div_mul_le_self _ _)
  rw [Nat.add_mul] at hbytes
  have hprodBytes : t.shape.prod ≤ t.shape.prod * t.dtype.size := Nat.le_mul_of_pos_right _ hsize
  have hpositive : 0 < t.shape.prod * t.dtype.size := Nat.mul_pos hprod hsize
  have hfits : Fits 1 t.shape := fits_of_prod hpos (by omega)
  have hoffset : (usizeMul t.storageOffset t.dtype.size : Res TensorSnapshotError Nat) = .ok (t.storageOffset * t.dtype.size) :=
    usizeMul_iff.mpr ⟨rfl, by unfold usizeMax u64Max; omega⟩
  have hcapacity : (withCapacity t.dtype t.shape.prod : Res TensorSnapshotError Unit) = .ok () := if_pos (by omega)
  refine ⟨⟨t.dtype, t.shape, filled t.dtype (data.drop (t.storageOffset * t.dtype.size)) t.shape.prod, length_filled _ _ _⟩,
    ?_, rfl, rfl, rfl⟩
  · rw [TensorSnapshot.dataFn, Tensor.numElements_ok hfits, ok_bind]
    simp only [max_eq_left (Nat.succ_le_of_lt hprod)]
    rw [hoffset, ok_bind, if_neg (by omega), if_pos hsupported, hcapacity, ok_bind]
    exact TensorData.new_fits hfits (length_filled _ _ _)

/-- A call that returns no error. -/
def OkOrPanic {ε α : Type} (m : Res ε α) : Prop := m = .error .panic ∨ ∃ a, m = .ok a

theorem okOrPanic_bind {ε α β : Type} {m : Res ε α} {f : α → Res ε β} (hm : OkOrPanic m) (hf : ∀ a, OkOrPanic (f a)) :
    OkOrPanic (m >>= f) := by
  obtain rfl | ⟨a, rfl⟩ := hm
  · exact .inl rfl
  · exact hf a

theorem okOrPanic_ite {ε α : Type} {p : Prop} [Decidable p] {a b : Res ε α} (ha : OkOrPanic a) (hb : OkOrPanic b) :
    OkOrPanic (if p then a else b) := by
  split
  · exact ha
  · exact hb

theorem okOrPanic_numElements {ε : Type} (shape : List Nat) : OkOrPanic (numElements shape : Res ε Nat) := by
  by_cases hfits : Fits 1 shape
  · exact .inr ⟨_, Tensor.numElements_ok hfits⟩
  · exact .inl (Tensor.numElements_panic hfits)

theorem okOrPanic_new {ε : Type} (dtype : DType) (values shape : List Nat) :
    OkOrPanic (TensorData.new dtype values shape : Res ε TensorData) := by
  unfold TensorData.new
  split
  · split
    · exact .inr ⟨_, rfl⟩
    · exact .inl rfl
  · next e he =>
    obtain hpanic | ⟨n, hok⟩ := okOrPanic_numElements (ε := ε) shape
    · obtain rfl := Except.error.inj (he.symm.trans hpanic)
      exact .inl rfl
    · exact nomatch he.symm.trans hok

theorem okOrPanic_capacity {ε : Type} (dtype : DType) (n : Nat) : OkOrPanic (withCapacity dtype n : Res ε Unit) :=
  okOrPanic_ite (.inr ⟨_, rfl⟩) (.inl rfl)

theorem okOrPanic_dataFn (hsupported : supported t.dtype = true) (bytes : Option Bytes) : OkOrPanic (t.dataFn bytes) := by
  have hzeros : ∀ dtype n, OkOrPanic (zeros dtype n t.shape : Res TensorSnapshotError TensorData) := fun dtype n =>
    okOrPanic_bind (okOrPanic_capacity dtype n) fun _ => okOrPanic_new _ _ _
  cases bytes with
  | none =>
    refine okOrPanic_bind (okOrPanic_numElements _) fun n => ?_
    rw [if_pos hsupported]
    exact hzeros _ _
  | some data =>
    refine okOrPanic_bind (okOrPanic_numElements _) fun n => okOrPanic_bind (okOrPanic_ite (.inr ⟨_, rfl⟩) (.inl rfl)) fun offset => ?_
    refine okOrPanic_ite (hzeros _ _) ?_
    rw [if_pos hsupported]
    exact okOrPanic_bind (okOrPanic_capacity _ _) fun _ => okOrPanic_new _ _ _

-- One byte

theorem leValue_zeros {bytes : Bytes} (h : ∀ b ∈ bytes, b = 0) : leValue bytes = 0 := by
  induction bytes with
  | nil => rfl
  | cons b bytes ih =>
    obtain ⟨rfl, hrest⟩ := List.forall_mem_cons.mp h
    rw [leValue, ih hrest]
    rfl

/-- A storage of zeros with a one in its `a`-th element. -/
def marked (dtype : DType) (n a : Nat) : Bytes := (List.replicate n 0).set (a * dtype.size) 1

theorem length_marked (dtype : DType) (n a : Nat) : (marked dtype n a).length = n := by
  rw [marked, List.length_set, List.length_replicate]

theorem leValue_marked {dtype : DType} {n a : Nat} (hsize : 0 < dtype.size) (ha : a < n / dtype.size) :
    leValue (elementBytes dtype (marked dtype n a) a) = 1 := by
  have hlt : a * dtype.size < n := by
    have hmul := (Nat.mul_le_mul_right dtype.size (Nat.succ_le_of_lt ha)).trans (Nat.div_mul_le_self n dtype.size)
    rw [Nat.succ_mul] at hmul
    omega
  obtain ⟨size, hsucc⟩ := Nat.exists_eq_add_of_lt hsize
  have hdrop : (marked dtype n a).drop (a * dtype.size) = 1 :: List.replicate (n - (a * dtype.size + 1)) 0 := by
    rw [marked, List.set_eq_take_append_cons_drop, if_pos (by simpa using hlt), List.drop_replicate]
    exact List.drop_left' (by simp; omega)
  rw [elementBytes, hdrop, hsucc, Nat.zero_add, List.take_succ_cons, leValue, leValue_zeros]
  · rfl
  · intro b hb
    exact List.eq_of_mem_replicate (List.mem_of_mem_take hb)

theorem leValue_unmarked {dtype : DType} {n a i : Nat} (hne : i ≠ a) : leValue (elementBytes dtype (marked dtype n a) i) = 0 := by
  refine leValue_zeros fun b hb => ?_
  obtain ⟨j, hj⟩ := List.mem_iff_getElem?.mp hb
  rw [elementBytes, List.getElem?_take] at hj
  split at hj
  · next hlt =>
    rw [List.getElem?_drop, marked, List.getElem?_set_ne, List.getElem?_replicate] at hj
    · split at hj
      · exact (Option.some.inj hj).symm
      · exact nomatch hj
    · intro heq
      rcases Nat.lt_or_gt_of_ne hne with hlow | hhigh
      · have hmul := Nat.mul_le_mul_right dtype.size (Nat.succ_le_of_lt hlow)
        rw [Nat.succ_mul] at hmul
        omega
      · have hmul := Nat.mul_le_mul_right dtype.size hhigh.le
        have hsmall := Nat.mul_le_mul_right dtype.size (Nat.succ_le_of_lt hhigh)
        rw [Nat.succ_mul] at hsmall
        omega
  · exact nomatch hj

theorem element_marked {dtype : DType} {n a : Nat} (hsize : 0 < dtype.size) (ha : a < n / dtype.size) (i : Nat) :
    element dtype (elementBytes dtype (marked dtype n a) i) = if i = a then 1 else 0 := by
  by_cases hi : i = a
  · subst hi
    unfold element
    rw [if_pos rfl, leValue_marked hsize ha]
    split <;> rfl
  · unfold element
    rw [if_neg hi, leValue_unmarked hi]
    split <;> rfl

-- The views

theorem Names.form (h : Names args v) {storage offset stride grad : Arg} {rest : List Arg} {dims : List Int}
    (hargs : args = .tuple (storage :: offset :: .tuple (dims.map .int) :: stride :: grad :: rest))
    (hid : storageIdOf storage = .ok id) : id.dtype = v.dtype ∧ offset = natArg v.offset ∧ dims = v.shape.map Int.ofNat := by
  obtain ⟨storage', grad', rest', id', hargs', hid', hdtype⟩ := h
  obtain ⟨rfl, htail⟩ := List.cons.inj (Object.tuple.inj (hargs.symm.trans hargs'))
  obtain ⟨hoffset, htail⟩ := List.cons.inj htail
  obtain ⟨hshape, -⟩ := List.cons.inj htail
  obtain rfl := Except.ok.inj (hid.symm.trans hid')
  refine ⟨hdtype, hoffset, ?_⟩
  have hmap : dims.map (Object.int (τ := TensorSnapshot)) = (v.shape.map Int.ofNat).map Object.int := by
    rw [List.map_map]
    exact Object.tuple.inj hshape
  exact List.map_injective_iff.mpr (fun _ _ => Object.int.inj) hmap

theorem asUsize_nat {n : Nat} (h : n < 2 ^ 64) : asUsize n = n := by
  unfold asUsize
  omega

theorem storageOffsetOf_nat {n : Nat} (h : n < 2 ^ 64) : storageOffsetOf (natArg n) = n := asUsize_nat h

theorem map_asUsize {shape : List Nat} (h : ∀ dim ∈ shape, dim < 2 ^ 64) : (shape.map Int.ofNat).map asUsize = shape := by
  rw [List.map_map]
  exact (List.map_congr_left fun dim hdim => asUsize_nat (h dim hdim)).trans (List.map_id shape)

theorem position_eq_of_shows {index : List Nat} {n : Nat} (hsize : 0 < t.dtype.size) (hdtype : t.dtype = v.dtype) (hshape : t.shape = v.shape)
    (hoffset : t.storageOffset = v.offset) (hsupported : supported t.dtype = true) (hin : v.In n) (hindex : InBounds index v.shape)
    (hfn : t.dataFn (some (marked v.dtype n (v.address index))) = .ok tensor)
    (hshows : v.Shows (marked v.dtype n (v.address index)) tensor) :
    position index v.strides = position index (denseStrides v.shape) := by
  have haddress := hin.inside index hindex
  obtain ⟨-, -, hvalues⟩ := dataFn_some_ok hsupported hfn
  have hoff : t.storageOffset * t.dtype.size < (marked v.dtype n (v.address index)).length := by
    have hmul := (Nat.mul_le_mul_right v.dtype.size (Nat.succ_le_of_lt haddress)).trans (Nat.div_mul_le_self n v.dtype.size)
    have hlow : v.offset * v.dtype.size ≤ v.address index * v.dtype.size := Nat.mul_le_mul_right _ (Nat.le_add_right _ _)
    rw [length_marked, hoffset, hdtype]
    rw [hdtype] at hsize
    rw [Nat.succ_mul] at hmul
    omega
  have hvalue := hshows.values index hindex
  rw [hdtype] at hsize
  rw [hvalues hoff, hshape, getElem?_filled (position_dense_lt hindex), hdtype, hoffset, elementBytes_drop,
    element_marked hsize haddress, element_marked hsize haddress, if_pos rfl] at hvalue
  by_contra hne
  have hother : ¬v.offset + position index (denseStrides v.shape) = v.address index := by
    unfold View.address
    omega
  rw [if_neg hother, ite_self] at hvalue
  exact nomatch hvalue

theorem Right.safe (h : Right args source size) : Safe args source size := by
  intro id s hacc hsource
  obtain ⟨-, hnone⟩ | ⟨storage, offset, stride, grad, rest, id', s', dims, hargs, hid, hsource', hcall⟩ := rebuild_cases args source
  · exact nomatch hsource.symm.trans (hnone id hacc)
  obtain ⟨storage', _, _, _, _, _, hargs', hid'⟩ := hacc
  obtain ⟨rfl, -⟩ := List.cons.inj (Object.tuple.inj (hargs.symm.trans hargs'))
  obtain rfl := Except.ok.inj (hid'.symm.trans hid)
  obtain rfl := Option.some.inj (hsource'.symm.trans hsource)
  have hsupported := storageOf_supported hid
  have hsize := supported_size hsupported
  cases htrack : s'.track id.key (LazyDataSource.bytesNeeded id.dtype id.total (storageOffsetOf offset) (dims.map asUsize)) with
  | error e =>
    rw [htrack] at hcall
    exact absurd hcall h.rebuilds
  | ok tracked =>
    rw [htrack] at hcall
    have hload : ∀ data : Option Bytes, data.map List.length = size.map Fin.val → ∃ tensor v bytes,
        TensorSnapshot.dataFn ⟨id.dtype, dims.map asUsize, storageOffsetOf offset, s'.dataFileKey id.key⟩ data = .ok tensor ∧
          Names args v ∧ data = some bytes ∧ v.In bytes.length ∧ v.Shows bytes tensor := by
      intro data hdata
      obtain ⟨hpanic, hshown⟩ := h.loads _ _ hcall data hdata
      obtain ⟨tensor, htensor⟩ := (okOrPanic_dataFn hsupported data).resolve_left hpanic
      obtain ⟨v, bytes, hv⟩ := hshown tensor htensor
      exact ⟨tensor, v, bytes, htensor, hv⟩
    cases size with
    | none =>
      obtain ⟨-, -, bytes, -, -, hbytes, -⟩ := hload none rfl
      exact nomatch hbytes
    | some n =>
      obtain ⟨tensor, v, bytes, hfn, hnames, hbytes, hin, hshows⟩ := hload (some (List.replicate n.val 0)) (by simp)
      obtain rfl := Option.some.inj hbytes
      rw [List.length_replicate] at hin
      obtain ⟨hcount, hloaded, -⟩ := dataFn_some_ok hsupported hfn
      have hshape : dims.map asUsize = v.shape := hloaded.symm.trans hshows.shape_eq
      have hprod : 0 < v.shape.prod := hshape ▸ hcount
      obtain ⟨hdtype, rfl, -⟩ := hnames.form hargs hid
      have hpos := prod_pos_iff.mp hprod
      have hdivle : n.val / v.dtype.size ≤ n.val := Nat.div_le_self _ _
      have hn := n.isLt
      have hoffset : storageOffsetOf (natArg v.offset) = v.offset := by
        have hfirst := hin.inside _ (zero_inBounds hpos)
        unfold View.address at hfirst
        exact storageOffsetOf_nat (by omega)
      have hposition : ∀ index, InBounds index v.shape → position index v.strides = position index (denseStrides v.shape) := by
        intro index hindex
        obtain ⟨tensor', v', bytes', hfn', hnames', hbytes', -, hshows'⟩ :=
          hload (some (marked v.dtype n (v.address index))) (by rw [Option.map_some, length_marked]; rfl)
        obtain rfl := hnames.unique hnames'
        obtain rfl := Option.some.inj hbytes'
        exact position_eq_of_shows (t := ⟨id.dtype, dims.map asUsize, _, _⟩) hsize hdtype hshape hoffset hsupported hin hindex hfn' hshows'
      have hend : v.offset + v.shape.prod ≤ n.val / v.dtype.size := by
        have hlast : v.shape.prod - 1 < v.shape.prod := Nat.sub_lt hprod Nat.one_pos
        have haddress := hin.inside _ (unravel_inBounds hlast)
        rw [View.address, hposition _ (unravel_inBounds hlast), position_unravel hlast] at haddress
        omega
      refine ⟨v, n, hnames, hpos, dense_of_position_eq hpos hin.rank hposition, rfl, hend, ?_⟩
      rw [hshape, hoffset] at htrack
      exact (s'.track_iff id (fits_of_prod hpos (by omega)) (by unfold usizeMax u64Max; omega)).mp ⟨tracked, htrack⟩

theorem Safe.right (h : Safe args source size) : Right args source size := by
  obtain ⟨⟨e, hrefused⟩, -⟩ | ⟨storage, offset, stride, grad, rest, id, s, dims, hargs, hid, hsource, hcall⟩ := rebuild_cases args source
  · exact ⟨by rw [hrefused]; exact nofun, fun t s' hok => nomatch hrefused.symm.trans hok⟩
  obtain ⟨v, n, hnames, hpos, hdense, rfl, hend, htracks⟩ := h id s ⟨storage, offset, stride, grad, rest, dims, hargs, hid⟩ hsource
  have hsupported := storageOf_supported hid
  obtain ⟨hdtype, rfl, rfl⟩ := hnames.form hargs hid
  have hdivle : n.val / v.dtype.size ≤ n.val := Nat.div_le_self _ _
  have hn := n.isLt
  have hprod : 0 < v.shape.prod := prod_pos_iff.mpr hpos
  have hoffset : storageOffsetOf (natArg v.offset) = v.offset := storageOffsetOf_nat (by omega)
  have hshape : (v.shape.map Int.ofNat).map asUsize = v.shape := by
    refine map_asUsize fun dim hdim => ?_
    have hle := Nat.le_of_dvd hprod (List.dvd_prod hdim)
    omega
  obtain ⟨tracked, htrack⟩ := (s.track_iff id (fits_of_prod hpos (by omega)) (by unfold usizeMax u64Max; omega)).mpr htracks
  rw [hshape, hoffset, htrack] at hcall
  refine ⟨by rw [hcall]; exact nofun, fun t s' hok data hdata => ?_⟩
  obtain ⟨rfl, rfl⟩ := Prod.mk.inj (Except.ok.inj (hcall.symm.trans hok))
  obtain ⟨bytes, rfl, hlen⟩ := Option.map_eq_some_iff.mp hdata
  obtain ⟨tensor, hfn, htensor, hshaped, hvalues⟩ :=
    @dataFn_some ⟨id.dtype, v.shape, v.offset, s.dataFileKey id.key⟩ bytes hsupported hpos (by omega)
      (by rw [hlen, hdtype]; exact hend)
  refine ⟨by rw [hfn]; exact nofun, fun tensor' htensor' => ?_⟩
  obtain rfl := Except.ok.inj (hfn.symm.trans htensor')
  refine ⟨v, bytes, hnames, rfl, ⟨hdense.length_eq, fun index hindex => ?_⟩, htensor.trans hdtype, hshaped, fun index hindex => ?_⟩
  · have hlt := position_dense_lt hindex
    rw [View.address, hdense.position_eq hindex, hlen]
    omega
  · have hlt := position_dense_lt hindex
    have hread : position index (denseStrides v.shape) < (bytes.drop (v.offset * id.dtype.size)).length / id.dtype.size := by
      rw [List.length_drop, hlen, hdtype, Nat.mul_comm, Nat.sub_mul_div]
      omega
    rw [hvalues, getElem?_filled hlt, elementBytes_drop, View.address, hdense.position_eq hindex, if_pos hread, hdtype]

/-- A tensor is the view that its arguments name, and no call panics, exactly where the arguments
are refused or name a view without padding inside the storage. -/
theorem rebuildTensorV2_right_iff (args : Arg) (source : Option LazyDataSource) (size : Option (Fin (2 ^ 63))) :
    Right args source size ↔ Safe args source size :=
  ⟨Right.safe, Safe.right⟩

/-- Arguments for a view of a storage of four floats. -/
def floatArgs (offset : Nat) (shape strides : List Nat) : Arg :=
  .tuple [.persistentTuple [.string "storage", .string "FloatStorage", .string "0", .string "cpu", .int 4],
    natArg offset, natsArg shape, natsArg strides, .bool false]

def oneToFour : Bytes := [1, 0, 0, 0, 2, 0, 0, 0, 3, 0, 0, 0, 4, 0, 0, 0]

def floatSource : LazyDataSource := .zip [("data/0".toList, some oneToFour)]

/-- The values that a call and its closure give. -/
def loadedValues (args : Arg) : Res PickleError (Res TensorSnapshotError (List Nat)) := do
  let (t, _) ← rebuildTensorV2 args (some floatSource)
  pure ((t.dataFn (some oneToFour)).map TensorData.values)

/-- A transposed view is loaded as if it were not, a view beyond the storage ends in zeros, and
loading an empty tensor panics. -/
theorem rebuildTensorV2_wrong :
    loadedValues (floatArgs 0 [2, 2] [1, 2]) = .ok (.ok [1, 2, 3, 4]) ∧
      (View.mk .f32 0 [2, 2] [1, 2]).address [0, 1] = 2 ∧ element .f32 (elementBytes .f32 oneToFour 2) = 3 ∧
      loadedValues (floatArgs 3 [2] [1]) = .ok (.ok [4, 0]) ∧ loadedValues (floatArgs 0 [0] [1]) = .ok (.error .panic) ∧
      ¬Right (floatArgs 0 [2, 2] [1, 2]) (some floatSource) (some 16) := by
  refine ⟨rfl, rfl, rfl, rfl, rfl, fun h => ?_⟩
  obtain ⟨-, hshown⟩ := h.loads ⟨.f32, [2, 2], 0, "data/0".toList⟩ floatSource rfl (some oneToFour) rfl
  obtain ⟨v, bytes, hnames, hbytes, -, hshows⟩ := hshown ⟨.f32, [2, 2], [1, 2, 3, 4], rfl⟩ rfl
  have hview : Names (floatArgs 0 [2, 2] [1, 2]) ⟨.f32, 0, [2, 2], [1, 2]⟩ := ⟨_, _, _, _, rfl, rfl, rfl⟩
  obtain rfl := hnames.unique hview
  obtain rfl := Option.some.inj hbytes
  have hvalue := hshows.values [0, 1] (.cons (by decide) (.cons (by decide) .nil))
  exact absurd hvalue (by decide)

end Ruda.Pytorch
