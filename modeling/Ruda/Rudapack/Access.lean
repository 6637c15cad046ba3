import Ruda.Rudapack.Reader

/-!
# The access modes of a Rudapack file

What reading a tensor gives, by copying, by streaming and without a copy, from any file
that is accepted. The file size is checked against the end of the metadata, the data is
read from the aligned start of the data section, and `Bytes::split` relies on the caller
for the range.
-/

namespace Ruda.Rudapack

variable {decode : List UInt8 → Except String RudapackMetadata} {fresh : String → UInt64}

-- Opening

/-- A reader that one of the constructors gives for these bytes. -/
inductive Opens (decode : List UInt8 → Except String RudapackMetadata) (content : List UInt8) : RudapackReader → Prop
  | bytes {b : Bytes} {r : RudapackReader} : b.data = content → fromBytes decode b = .ok r → Opens decode content r
  | mmap {r : RudapackReader} : fromFileMmap decode content = .ok r → Opens decode content r
  | buffered {r : RudapackReader} : fromFileBuffered decode content = .ok r → Opens decode content r

/-- The bytes that a storage reads from. -/
def StorageBackend.content : StorageBackend → List UInt8
  | .memory data => data.data
  | .fileBuffered content => content

theorem fromBytes_ok {b : Bytes} {r : RudapackReader} (h : fromBytes decode b = .ok r) :
    parse decode b.data = .ok (r.metadata, r.dataOffset) ∧ r.storage = .memory b := by
  obtain ⟨⟨metadata, dataOffset⟩, hparse, h⟩ := bind_eq_ok.mp h
  obtain rfl := Except.ok.inj h
  exact ⟨hparse, rfl⟩

theorem fromFileMmap_ok {content : List UInt8} {r : RudapackReader} (h : fromFileMmap decode content = .ok r) :
    parse decode content = .ok (r.metadata, r.dataOffset) ∧
      ∃ data, r.storage = .memory data ∧ data.data = content ∧ data.controller = .shared := by
  unfold fromFileMmap at h
  split at h
  · obtain ⟨⟨metadata, dataOffset⟩, hparse, h⟩ := bind_eq_ok.mp h
    obtain rfl := Except.ok.inj h
    exact ⟨hparse, _, rfl, rfl, rfl⟩
  · cases h

theorem headerFromBytes_ok {bytes : List UInt8} {header : RudapackHeader} (h : RudapackHeader.fromBytes bytes = .ok header) :
    header.magic = magicNumber := by
  obtain ⟨_, _, h⟩ := bind_eq_ok.mp h
  obtain ⟨_, hmagic, h⟩ := bind_eq_ok.mp h
  obtain rfl := Except.ok.inj h
  exact not_not.mp (failIf_ok.mp hmagic)

theorem fromFileBuffered_ok {content : List UInt8} {r : RudapackReader} (h : fromFileBuffered decode content = .ok r) :
    parse decode content = .ok (r.metadata, r.dataOffset) ∧ r.storage = .fileBuffered content := by
  obtain ⟨_, _, h⟩ := bind_eq_ok.mp h
  obtain ⟨_, hlen, h⟩ := bind_eq_ok.mp h
  obtain ⟨header, hheader, h⟩ := bind_eq_ok.mp h
  obtain ⟨_, hcheck, h⟩ := bind_eq_ok.mp h
  obtain ⟨_, hmetadata, h⟩ := bind_eq_ok.mp h
  obtain ⟨metadata, hdecode, h⟩ := bind_eq_ok.mp h
  obtain ⟨metadataEnd, hend, h⟩ := bind_eq_ok.mp h
  obtain ⟨_, htensors, h⟩ := bind_eq_ok.mp h
  obtain rfl := Except.ok.inj h
  refine ⟨?_, rfl⟩
  obtain ⟨_, rfl⟩ := checkedAdd_eq_some.mp (okOr_ok.mp hend)
  have hslice : (slice content headerSize (headerSize + header.metadataSize) : Res _) =
      .ok ((content.drop headerSize).take header.metadataSize) := by
    refine slice_ok.mpr (getRange_some.mpr ⟨Nat.le_add_right _ _, not_lt.mp (failIf_ok.mp hmetadata), ?_⟩)
    rw [Nat.add_sub_cancel_left]
  unfold parse
  refine bind_eq_ok.mpr ⟨(), failIf_ok.mpr (failIf_ok.mp hlen), bind_eq_ok.mpr ⟨header, hheader, ?_⟩⟩
  refine bind_eq_ok.mpr ⟨(), failIf_ok.mpr (not_not.mpr (headerFromBytes_ok hheader)), bind_eq_ok.mpr ⟨(), hcheck, ?_⟩⟩
  refine bind_eq_ok.mpr ⟨_, okOr_ok.mpr (okOr_ok.mp hend), bind_eq_ok.mpr ⟨(), failIf_ok.mpr (failIf_ok.mp hmetadata), ?_⟩⟩
  exact bind_eq_ok.mpr ⟨_, hslice, bind_eq_ok.mpr ⟨metadata, hdecode, bind_eq_ok.mpr ⟨(), htensors, rfl⟩⟩⟩

theorem fromFileBuffered_of {content : List UInt8} {metadata : RudapackMetadata} {dataOffset : Nat}
    (h : parse decode content = .ok (metadata, dataOffset)) (hsize : content.length ≤ maxFileSize) :
    fromFileBuffered decode content = .ok { metadata, storage := .fileBuffered content, dataOffset } := by
  obtain ⟨_, hlen, h⟩ := bind_eq_ok.mp h
  obtain ⟨header, hheader, h⟩ := bind_eq_ok.mp h
  obtain ⟨_, _, h⟩ := bind_eq_ok.mp h
  obtain ⟨_, hcheck, h⟩ := bind_eq_ok.mp h
  obtain ⟨metadataEnd, hend, h⟩ := bind_eq_ok.mp h
  obtain ⟨_, hmetadata, h⟩ := bind_eq_ok.mp h
  obtain ⟨bytes, hslice, h⟩ := bind_eq_ok.mp h
  obtain ⟨metadata', hdecode, h⟩ := bind_eq_ok.mp h
  obtain ⟨_, htensors, h⟩ := bind_eq_ok.mp h
  obtain ⟨rfl, rfl⟩ := Prod.mk.inj (Except.ok.inj h)
  obtain ⟨_, rfl⟩ := checkedAdd_eq_some.mp (okOr_ok.mp hend)
  obtain ⟨-, -, rfl⟩ := getRange_some.mp (slice_ok.mp hslice)
  rw [Nat.add_sub_cancel_left] at hdecode
  refine bind_eq_ok.mpr ⟨(), failIf_ok.mpr (not_lt.mpr hsize), bind_eq_ok.mpr ⟨(), failIf_ok.mpr (failIf_ok.mp hlen), ?_⟩⟩
  refine bind_eq_ok.mpr ⟨header, hheader, bind_eq_ok.mpr ⟨(), hcheck, ?_⟩⟩
  refine bind_eq_ok.mpr ⟨(), failIf_ok.mpr (failIf_ok.mp hmetadata), bind_eq_ok.mpr ⟨metadata', hdecode, ?_⟩⟩
  exact bind_eq_ok.mpr ⟨_, okOr_ok.mpr (okOr_ok.mp hend), bind_eq_ok.mpr ⟨(), htensors, rfl⟩⟩

theorem Opens.parse {content : List UInt8} {r : RudapackReader} (h : Opens decode content r) :
    Rudapack.parse decode content = .ok (r.metadata, r.dataOffset) ∧ r.storage.content = content := by
  cases h with
  | bytes hb h =>
    obtain ⟨hparse, hstorage⟩ := fromBytes_ok h
    rw [hb] at hparse
    exact ⟨hparse, by rw [hstorage]; exact hb⟩
  | mmap h =>
    obtain ⟨hparse, data, hstorage, hdata, -⟩ := fromFileMmap_ok h
    exact ⟨hparse, by rw [hstorage]; exact hdata⟩
  | buffered h =>
    obtain ⟨hparse, hstorage⟩ := fromFileBuffered_ok h
    exact ⟨hparse, by rw [hstorage]; rfl⟩

theorem parse_fits {content : List UInt8} {metadata : RudapackMetadata} {dataOffset : Nat}
    (h : parse decode content = .ok (metadata, dataOffset)) {name : String} {t : TensorDescriptor}
    (ht : metadata.tensors[name]? = some t) : dataOffset + t.dataOffsets.2.toNat < content.length + tensorAlignment := by
  obtain ⟨_, _, h⟩ := bind_eq_ok.mp h
  obtain ⟨header, _, h⟩ := bind_eq_ok.mp h
  obtain ⟨_, _, h⟩ := bind_eq_ok.mp h
  obtain ⟨_, _, h⟩ := bind_eq_ok.mp h
  obtain ⟨metadataEnd, hend, h⟩ := bind_eq_ok.mp h
  obtain ⟨_, _, h⟩ := bind_eq_ok.mp h
  obtain ⟨_, _, h⟩ := bind_eq_ok.mp h
  obtain ⟨metadata', _, h⟩ := bind_eq_ok.mp h
  obtain ⟨_, htensors, h⟩ := bind_eq_ok.mp h
  obtain ⟨rfl, rfl⟩ := Prod.mk.inj (Except.ok.inj h)
  obtain ⟨_, rfl⟩ := checkedAdd_eq_some.mp (okOr_ok.mp hend)
  obtain ⟨_, _, htensors⟩ := bind_eq_ok.mp htensors
  have hne : metadata'.tensors.isEmpty = false := by
    rw [Bool.eq_false_iff]
    intro hempty
    rw [Std.ExtTreeMap.isEmpty_iff.mp hempty] at ht
    simp at ht
  rw [hne] at htensors
  obtain ⟨minFileSize, hmin, hsize⟩ := bind_eq_ok.mp htensors
  obtain ⟨_, rfl⟩ := checkedAdd_eq_some.mp (okOr_ok.mp hmin)
  have hle := not_lt.mp (failIf_ok.mp hsize)
  have hmax := le_maxDataOffset ht
  have halign := (@alignOffset_spec (headerSize + header.metadataSize) tensorAlignment (by decide)).2.1
  unfold alignedDataSectionStart
  omega

-- Snapshots

namespace TensorDescriptor

def start (t : TensorDescriptor) : Nat := t.dataOffsets.1.toNat

def stop (t : TensorDescriptor) : Nat := t.dataOffsets.2.toNat

/-- The range is not reversed and not too large. -/
def WellFormed (t : TensorDescriptor) : Prop := t.start ≤ t.stop ∧ t.stop - t.start ≤ maxTensorSize

end TensorDescriptor

variable {r : RudapackReader} {t : TensorDescriptor} {name : String}

theorem tensorRange_ok {start stop : Nat} (h : r.tensorRange name t = .ok (start, stop)) :
    t.WellFormed ∧ start = r.dataOffset + t.start ∧ stop = r.dataOffset + t.stop := by
  obtain ⟨a, ha, h⟩ := bind_eq_ok.mp h
  obtain ⟨b, hb, h⟩ := bind_eq_ok.mp h
  obtain ⟨_, hlt, h⟩ := bind_eq_ok.mp h
  obtain ⟨size, hsub, h⟩ := bind_eq_ok.mp h
  obtain ⟨_, hsize, h⟩ := bind_eq_ok.mp h
  obtain ⟨rfl, rfl⟩ := Prod.mk.inj (Except.ok.inj h)
  obtain ⟨_, rfl⟩ := checkedAdd_eq_some.mp (okOr_ok.mp ha)
  obtain ⟨_, rfl⟩ := checkedAdd_eq_some.mp (okOr_ok.mp hb)
  have hle := not_lt.mp (failIf_ok.mp hlt)
  rw [subUsize_ok hle] at hsub
  obtain rfl := Except.ok.inj hsub
  have hmax := not_lt.mp (failIf_ok.mp hsize)
  refine ⟨⟨?_, ?_⟩, rfl, rfl⟩
  · unfold TensorDescriptor.start TensorDescriptor.stop
    omega
  · unfold TensorDescriptor.start TensorDescriptor.stop
    omega

theorem tensorRange_of (hwf : t.WellFormed) (hmax : r.dataOffset + t.stop ≤ u64Max) :
    r.tensorRange name t = .ok (r.dataOffset + t.start, r.dataOffset + t.stop) := by
  obtain ⟨hle, hsize⟩ := hwf
  have hle' : r.dataOffset + t.start ≤ r.dataOffset + t.stop := Nat.add_le_add_left hle _
  refine bind_eq_ok.mpr ⟨_, okOr_ok.mpr (checkedAdd_of_le (hle'.trans hmax)), bind_eq_ok.mpr ⟨_,
    okOr_ok.mpr (checkedAdd_of_le hmax), bind_eq_ok.mpr ⟨(), failIf_ok.mpr (not_lt.mpr hle'), ?_⟩⟩⟩
  refine bind_eq_ok.mpr ⟨_, subUsize_ok hle', bind_eq_ok.mpr ⟨(), failIf_ok.mpr ?_, rfl⟩⟩
  have : r.dataOffset + t.stop - (r.dataOffset + t.start) = t.stop - t.start := Nat.add_sub_add_left _ _ _
  exact not_lt.mpr (this.le.trans hsize)

theorem snapshot_of_mem {zeroCopy : Bool} {l : List TensorSnapshot} (h : r.getSnapshots fresh zeroCopy = .ok l)
    {s : TensorSnapshot} (hs : s ∈ l) : ∃ t, r.metadata.tensors[s.fullPath]? = some t ∧ t.WellFormed ∧
      s.dataFn = r.load zeroCopy t (r.dataOffset + t.start) (r.dataOffset + t.stop) := by
  obtain ⟨⟨name, t⟩, hmem, h⟩ := mapM_mem h hs
  obtain ⟨⟨start, stop⟩, hrange, h⟩ := bind_eq_ok.mp h
  obtain rfl := Except.ok.inj h
  obtain ⟨hwf, rfl, rfl⟩ := tensorRange_ok hrange
  exact ⟨t, Std.ExtTreeMap.mem_toList_iff_getElem?_eq_some.mp hmem, hwf, rfl⟩

/-- The snapshot of a tensor whose descriptor passes its checks. -/
def RudapackReader.snapshotAt (r : RudapackReader) (fresh : String → UInt64) (zeroCopy : Bool) (name : String)
    (t : TensorDescriptor) : TensorSnapshot where
  fullPath := name
  dtype := t.dtype
  shape := t.shape
  tensorId := some (t.paramId.getD (fresh name))
  dataFn := r.load zeroCopy t (r.dataOffset + t.start) (r.dataOffset + t.stop)

theorem getSnapshots_eq (hwf : ∀ (name : String) t, r.metadata.tensors[name]? = some t →
      t.WellFormed ∧ r.dataOffset + t.stop ≤ u64Max) (zeroCopy : Bool) :
    r.getSnapshots fresh zeroCopy = .ok (r.metadata.tensors.toList.map fun t => r.snapshotAt fresh zeroCopy t.1 t.2) := by
  refine mapM_ok.mpr (List.forall₂_map_right_iff.mpr (List.forall₂_same.mpr fun t ht => ?_))
  have ht := hwf t.1 t.2 (Std.ExtTreeMap.mem_toList_iff_getElem?_eq_some.mp ht)
  exact bind_eq_ok.mpr ⟨_, tensorRange_of ht.1 ht.2, rfl⟩

-- What a closure gives

/-- The bytes `start .. stop` with the shape and type of the tensor. -/
def dataAt (content : List UInt8) (t : TensorDescriptor) (start stop : Nat) : TensorData where
  bytes := (content.drop start).take (stop - start)
  shape := t.shape
  dtype := t.dtype

/-- Reading without a copy needs memory that can be split. -/
def StorageBackend.Supports (storage : StorageBackend) (zeroCopy : Bool) : Prop :=
  zeroCopy = true → ∃ data, storage = .memory data ∧ data.controller = .shared

variable {start stop : Nat}

theorem sliceBytes_shared {data : Bytes} (hshared : data.controller = .shared) (hle : start ≤ stop)
    (hin : stop ≤ data.data.length) :
    (StorageBackend.memory data).sliceBytes start stop = .ok ((data.data.drop start).take (stop - start)) := by
  have hsplit : data.split start = .ok (.ok (data.left start .shared, data.right start .shared)) := by
    unfold Bytes.split
    rw [subUsize_ok (hle.trans hin), ok_bind, hshared]
    exact if_neg (not_lt.mpr (hle.trans hin))
  have hlen : stop - start ≤ (data.right start .shared).data.length := by
    rw [Bytes.right, List.length_drop]
    exact Nat.sub_le_sub_right hin start
  have hsplit' : (data.right start .shared).split (stop - start) = .ok (.ok
      ((data.right start .shared).left (stop - start) .shared, (data.right start .shared).right (stop - start) .shared)) := by
    unfold Bytes.split
    rw [subUsize_ok hlen, ok_bind]
    exact if_neg (not_lt.mpr hlen)
  unfold StorageBackend.sliceBytes
  rw [failIf_ok.mpr (not_lt.mpr hle), ok_bind]
  simp only [hsplit, ok_bind, subUsize_ok hle, hsplit']
  rfl

theorem sliceBytes_outside {data : Bytes} (hshared : data.controller = .shared) (hle : start ≤ stop)
    (hout : data.data.length < stop) : (StorageBackend.memory data).sliceBytes start stop = .error .panic := by
  unfold StorageBackend.sliceBytes
  rw [failIf_ok.mpr (not_lt.mpr hle), ok_bind]
  by_cases hstart : start ≤ data.data.length
  · have hsplit : data.split start = .ok (.ok (data.left start .shared, data.right start .shared)) := by
      unfold Bytes.split
      rw [subUsize_ok hstart, ok_bind, hshared]
      exact if_neg (not_lt.mpr hstart)
    have hlen : (data.right start .shared).data.length < stop - start := by
      rw [Bytes.right, List.length_drop]
      omega
    have hsplit' : (data.right start .shared).split (stop - start) = .error .panic := by
      unfold Bytes.split
      rw [subUsize_panic hlen, error_bind]
    simp only [hsplit, ok_bind, subUsize_ok hle, hsplit', error_bind]
  · have hsplit : data.split start = .error .panic := by
      unfold Bytes.split
      rw [subUsize_panic (not_le.mp hstart), error_bind]
    simp only [hsplit, error_bind]

theorem sliceBytes_native {data : Bytes} {align : Nat} (hnative : data.controller = .native align) (hle : start ≤ stop)
    (hin : stop ≤ data.data.length) : ∃ e, (StorageBackend.memory data).sliceBytes start stop = .error (.err e) := by
  unfold StorageBackend.sliceBytes
  rw [failIf_ok.mpr (not_lt.mpr hle), ok_bind]
  by_cases halign : align = 1
  · have hsplit : data.split start = .ok (.ok (data.left start (.native maxAlign), data.right start (.native maxAlign))) := by
      unfold Bytes.split
      rw [subUsize_ok (hle.trans hin), ok_bind, hnative]
      simp only [halign, ne_eq, not_true_eq_false, if_false]
      exact if_neg (not_lt.mpr (hle.trans hin))
    have hlen : stop - start ≤ (data.right start (.native maxAlign)).data.length := by
      rw [Bytes.right, List.length_drop]
      exact Nat.sub_le_sub_right hin start
    -- the right part is aligned again, so it is not split a second time
    have hsplit' : (data.right start (.native maxAlign)).split (stop - start) = .ok (.error .unsupported) := by
      unfold Bytes.split
      rw [subUsize_ok hlen, ok_bind]
      rfl
    simp only [hsplit, ok_bind, subUsize_ok hle, hsplit']
    exact ⟨_, rfl⟩
  · have hsplit : data.split start = .ok (.error .unsupported) := by
      unfold Bytes.split
      rw [subUsize_ok (hle.trans hin), ok_bind, hnative]
      simp only [ne_eq, halign, not_false_eq_true, if_true]
      rfl
    simp only [hsplit, ok_bind]
    exact ⟨_, rfl⟩

theorem readInto_inside {storage : StorageBackend} (hsmall : storage.content.length < 2 ^ 63) (hle : start ≤ stop)
    (hin : stop ≤ storage.content.length) :
    storage.readInto (stop - start) start = .ok ((storage.content.drop start).take (stop - start)) := by
  have hstop : start + (stop - start) = stop := Nat.add_sub_cancel' hle
  cases storage with
  | memory data =>
    have hmax : start + (stop - start) ≤ u64Max := by
      have : (2 : Nat) ^ 63 ≤ u64Max := by decide
      have hin : stop ≤ data.data.length := hin
      have hsmall := data.small
      omega
    refine bind_eq_ok.mpr ⟨_, okOr_ok.mpr (checkedAdd_of_le hmax), bind_eq_ok.mpr ⟨(), failIf_ok.mpr ?_, ?_⟩⟩
    · rw [hstop]
      exact not_lt.mpr hin
    · rw [hstop]
      exact slice_ok.mpr (getRange_some.mpr ⟨hle, hin, rfl⟩)
  | fileBuffered content =>
    have hin : stop ≤ content.length := hin
    have hsmall : content.length < 2 ^ 63 := hsmall
    refine bind_eq_ok.mpr ⟨(), failIf_ok.mpr (by omega), bind_eq_ok.mpr ⟨(), failIf_ok.mpr (by omega), rfl⟩⟩

theorem load_inside {zeroCopy : Bool} (t : TensorDescriptor) (start stop : Nat) (hsupports : r.storage.Supports zeroCopy) (hsmall : r.storage.content.length < 2 ^ 63)
    (hle : start ≤ stop) (hin : stop ≤ r.storage.content.length) :
    r.load zeroCopy t start stop = .ok (dataAt r.storage.content t start stop) := by
  unfold RudapackReader.load
  cases zeroCopy with
  | false => simp only [Bool.false_eq_true, if_false, readInto_inside hsmall hle hin]; rfl
  | true =>
    obtain ⟨data, hstorage, hshared⟩ := hsupports rfl
    rw [hstorage] at hin ⊢
    simp only [if_true, sliceBytes_shared hshared hle hin]
    rfl

theorem load_quiet_inside (zeroCopy : Bool) (hsmall : r.storage.content.length < 2 ^ 63) (hle : start ≤ stop)
    (hin : stop ≤ r.storage.content.length) : r.load zeroCopy t start stop ≠ .error .panic := by
  by_cases hsupports : r.storage.Supports zeroCopy
  · rw [load_inside t _ _ hsupports hsmall hle hin]
    exact nofun
  · -- a copy that is not supported is an error
    obtain rfl : zeroCopy = true := by
      cases zeroCopy with
      | true => rfl
      | false => exact absurd (fun h => nomatch h) hsupports
    have herr : ∃ e, r.storage.sliceBytes start stop = .error (.err e) := by
      cases hstorage : r.storage with
      | memory data =>
        rw [hstorage] at hin
        cases hcontroller : data.controller with
        | shared => exact absurd (fun _ => ⟨data, hstorage, hcontroller⟩) hsupports
        | native align => exact sliceBytes_native hcontroller hle hin
      | fileBuffered content =>
        unfold StorageBackend.sliceBytes
        rw [failIf_ok.mpr (not_lt.mpr hle)]
        exact ⟨_, rfl⟩
    obtain ⟨e, he⟩ := herr
    unfold RudapackReader.load
    simp only [if_true, he]
    exact nofun

-- All modes together

/-- No snapshot of these bytes panics, and all modes that the storage supports give the
same data for a tensor, or none gives any. -/
structure Safe (decode : List UInt8 → Except String RudapackMetadata) (fresh : String → UInt64) (content : List UInt8) :
    Prop where
  quiet : ∀ r, Opens decode content r → ∀ zeroCopy l, r.getSnapshots fresh zeroCopy = .ok l →
    ∀ s ∈ l, s.dataFn ≠ .error .panic
  same : ∀ r r', Opens decode content r → Opens decode content r' → ∀ zeroCopy zeroCopy',
    r.storage.Supports zeroCopy → r'.storage.Supports zeroCopy' → ∀ l l', r.getSnapshots fresh zeroCopy = .ok l →
      r'.getSnapshots fresh zeroCopy' = .ok l' → ∀ s ∈ l, ∀ s' ∈ l', s.fullPath = s'.fullPath →
        s.dataFn.toOption = s'.dataFn.toOption

/-- Every tensor ends inside the bytes, counted from the start of the data section. -/
def Inside (r : RudapackReader) (content : List UInt8) : Prop := ∀ (name : String) t,
  r.metadata.tensors[name]? = some t → r.dataOffset + t.stop ≤ content.length

theorem wellFormed_of_snapshots {zeroCopy : Bool} {l : List TensorSnapshot} (h : r.getSnapshots fresh zeroCopy = .ok l)
    (ht : r.metadata.tensors[name]? = some t) : t.WellFormed := by
  obtain ⟨s, -, h⟩ := mapM_mem_of h (Std.ExtTreeMap.mem_toList_iff_getElem?_eq_some.mpr ht)
  obtain ⟨⟨start, stop⟩, hrange, -⟩ := bind_eq_ok.mp h
  exact (tensorRange_ok hrange).1

/-- The bytes are safe in all modes exactly when every tensor ends inside them, or some
descriptor is refused and no snapshot is handed out. -/
theorem accesses_safe_iff {b : Bytes} (h : fromBytes decode b = .ok r) : Safe decode fresh b.data ↔
    ((∀ (name : String) t, r.metadata.tensors[name]? = some t → t.WellFormed) → Inside r b.data) := by
  have hparse := (fromBytes_ok h).1
  constructor
  · intro hsafe hwf name t ht
    by_contra hout
    -- the same bytes in shared memory
    let shared : Bytes := { b with controller := .shared }
    let r' : RudapackReader := { r with storage := .memory shared }
    have hopen : fromBytes decode shared = .ok r' := bind_eq_ok.mpr ⟨_, hparse, rfl⟩
    have hmax : ∀ (name : String) t, r'.metadata.tensors[name]? = some t → t.WellFormed ∧ r'.dataOffset + t.stop ≤ u64Max := by
      intro name t ht
      refine ⟨hwf name t ht, ?_⟩
      have hfits := parse_fits hparse ht
      have hsmall := b.small
      have : (2 : Nat) ^ 63 + tensorAlignment ≤ u64Max := by decide
      unfold TensorDescriptor.stop
      show r.dataOffset + _ ≤ _
      omega
    have hs : r'.snapshotAt fresh true name t ∈ r'.metadata.tensors.toList.map fun t => r'.snapshotAt fresh true t.1 t.2 :=
      List.mem_map_of_mem (Std.ExtTreeMap.mem_toList_iff_getElem?_eq_some.mpr ht)
    refine hsafe.quiet r' (.bytes (b := shared) rfl hopen) true _ (getSnapshots_eq hmax true) _ hs ?_
    have hslice : r'.storage.sliceBytes (r'.dataOffset + t.start) (r'.dataOffset + t.stop) = .error .panic :=
      sliceBytes_outside rfl (Nat.add_le_add_left (hwf name t ht).1 _) (not_le.mp hout)
    unfold RudapackReader.snapshotAt RudapackReader.load
    simp only [if_true, hslice]
    rfl
  · intro hcond
    have hinside : ∀ r', Opens decode b.data r' → ∀ zeroCopy l, r'.getSnapshots fresh zeroCopy = .ok l →
        r'.metadata = r.metadata ∧ r'.dataOffset = r.dataOffset ∧ r'.storage.content = b.data ∧ Inside r b.data := by
      intro r' hopen zeroCopy l hl
      obtain ⟨hparse', hcontent⟩ := hopen.parse
      obtain ⟨hmetadata, hoffset⟩ := Prod.mk.inj (Except.ok.inj (hparse'.symm.trans hparse))
      exact ⟨hmetadata, hoffset, hcontent, hcond fun name t ht => wellFormed_of_snapshots hl (hmetadata ▸ ht)⟩
    constructor
    · intro r' hopen zeroCopy l hl s hs
      obtain ⟨hmetadata, hoffset, hcontent, hin⟩ := hinside r' hopen zeroCopy l hl
      obtain ⟨t, ht, hwf, hdata⟩ := snapshot_of_mem hl hs
      rw [hmetadata] at ht
      rw [hdata]
      refine load_quiet_inside zeroCopy (hcontent ▸ b.small) (Nat.add_le_add_left hwf.1 _) ?_
      rw [hcontent, hoffset]
      exact hin _ t ht
    · intro r₁ r₂ hopen₁ hopen₂ zeroCopy₁ zeroCopy₂ hsup₁ hsup₂ l₁ l₂ hl₁ hl₂ s₁ hs₁ s₂ hs₂ hpath
      obtain ⟨hmetadata₁, hoffset₁, hcontent₁, hin⟩ := hinside r₁ hopen₁ zeroCopy₁ l₁ hl₁
      obtain ⟨hmetadata₂, hoffset₂, hcontent₂, -⟩ := hinside r₂ hopen₂ zeroCopy₂ l₂ hl₂
      obtain ⟨t₁, ht₁, hwf, hdata₁⟩ := snapshot_of_mem hl₁ hs₁
      obtain ⟨t₂, ht₂, -, hdata₂⟩ := snapshot_of_mem hl₂ hs₂
      rw [hmetadata₁] at ht₁
      rw [hmetadata₂, ← hpath, ht₁] at ht₂
      obtain rfl := Option.some.inj ht₂
      have hend : r.dataOffset + t₁.stop ≤ b.data.length := hin _ t₁ ht₁
      rw [hdata₁, hdata₂, load_inside t₁ _ _ hsup₁ (hcontent₁ ▸ b.small) (Nat.add_le_add_left hwf.1 _) (by rwa [hcontent₁, hoffset₁]),
        load_inside t₁ _ _ hsup₂ (hcontent₂ ▸ b.small) (Nat.add_le_add_left hwf.1 _) (by rwa [hcontent₂, hoffset₂]),
        hcontent₁, hcontent₂, hoffset₁, hoffset₂]

/-- A decoder that gives one tensor with these offsets. -/
def oneTensor (start stop : UInt64) (_ : List UInt8) : Except String RudapackMetadata :=
  .ok { tensors := (∅ : Tensors).insert "w" ⟨.u8, [stop - start], (start, stop), none⟩, metadata := ∅ }

/-- A header with no metadata after it. -/
def bareHeader : List UInt8 := RudapackHeader.intoBytes ⟨magicNumber, formatVersion, 0⟩

/-- Four bytes of data behind the padding. -/
def padded : Bytes where
  data := bareHeader ++ List.replicate 246 0 ++ [1, 2, 3, 4]
  controller := .native maxAlign
  small := by decide +kernel

theorem accesses_safe_padded : Safe (oneTensor 0 4) (fun _ => 0) padded.data := by
  have hopen : (fromBytes (oneTensor 0 4) padded).toOption.any (fun r => r.metadata.tensors.toList.all fun t =>
      decide (r.dataOffset + t.2.stop ≤ padded.data.length)) = true := by decide +kernel
  cases hr : fromBytes (oneTensor 0 4) padded with
  | error e =>
    rw [hr] at hopen
    cases hopen
  | ok r =>
    rw [hr] at hopen
    refine (accesses_safe_iff hr).mpr fun _ name t ht => ?_
    exact of_decide_eq_true (List.all_eq_true.mp hopen (name, t) (Std.ExtTreeMap.mem_toList_iff_getElem?_eq_some.mpr ht))

/-- What the first snapshot of a reader loads. -/
def firstData (opened : Res RudapackReader) (zeroCopy : Bool) : Option (Ruda.Res TensorSnapshotError TensorData) := do
  let r ← opened.toOption
  let l ← (r.getSnapshots (fun _ => 0) zeroCopy).toOption
  let s ← l.head?
  some s.dataFn

/-- A file that ends with its metadata, which describes one empty tensor: a panic without a
copy, an error with one, and no bytes when the file is streamed. -/
theorem accesses_differ :
    firstData (fromBytes (oneTensor 0 0) ⟨bareHeader, .shared, by decide⟩) true = some (.error .panic) ∧
    (firstData (fromBytes (oneTensor 0 0) ⟨bareHeader, .shared, by decide⟩) false).map Except.toOption = some none ∧
    firstData (fromFileBuffered (oneTensor 0 0) bareHeader) false = some (.ok ⟨[], [0], .u8⟩) := by
  decide +kernel

end Ruda.Rudapack
