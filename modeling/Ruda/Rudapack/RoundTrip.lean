import Ruda.Rudapack.Access
import Ruda.Rudapack.Layout

/-!
# Writing and reading back

Snapshots with different paths are written to the same bytes by both writers, of the
length that was predicted. Within the limits of the reader, every access mode reads the
same snapshots back.
-/

namespace Ruda.Rudapack

open RudapackWriter

/-- The metadata that describes the snapshots. -/
def RudapackWriter.description (w : RudapackWriter) : RudapackMetadata where
  tensors := described ∅ 0 w.snapshots
  metadata := w.metadata

/-- The whole file. -/
def RudapackWriter.file (w : RudapackWriter) (metadataBytes : List UInt8) : List UInt8 :=
  RudapackHeader.intoBytes ⟨magicNumber, formatVersion, metadataBytes.length⟩ ++ metadataBytes ++
    List.replicate (alignedDataSectionStart metadataBytes.length - (headerSize + metadataBytes.length)) 0 ++
    body 0 w.snapshots

variable {encode : RudapackMetadata → Except String (List UInt8)} {decode : List UInt8 → Except String RudapackMetadata}
  {fresh : String → UInt64} {w : RudapackWriter} {metadataBytes : List UInt8}

/-- Snapshots whose data can be read, with different paths, and not too large to write. -/
structure Writable (encode : RudapackMetadata → Except String (List UInt8)) (w : RudapackWriter)
    (metadataBytes : List UInt8) : Prop where
  loads : ∀ s ∈ w.snapshots, Loads s
  paths : (w.snapshots.map TensorSnapshot.fullPath).Nodup
  encoded : encode w.description = .ok metadataBytes
  header : metadataBytes.length ≤ u32Max
  fits : alignedDataSectionStart metadataBytes.length + dataEnd 0 w.snapshots < 2 ^ 63

theorem description_describes (hpaths : (w.snapshots.map TensorSnapshot.fullPath).Nodup) :
    Describes w.description 0 w.snapshots := fun _ _ _ h => described_at hpaths h

theorem descriptorAt_offsets (s : TensorSnapshot) (start : Nat) (h : start + (bytesOf s).length < 2 ^ 64) :
    (descriptorAt s start).start = start ∧ (descriptorAt s start).stop = start + (bytesOf s).length :=
  ⟨UInt64.toNat_ofNat_of_lt' ((Nat.le_add_right _ _).trans_lt h), UInt64.toNat_ofNat_of_lt' h⟩

theorem end_le_dataEnd {before after : List TensorSnapshot} {s : TensorSnapshot} (h : w.snapshots = before ++ s :: after) :
    align (dataEnd 0 before) + (bytesOf s).length ≤ dataEnd 0 w.snapshots := by
  rw [h, dataEnd_append]
  exact le_dataEnd _ _

theorem exists_split (hpaths : (w.snapshots.map TensorSnapshot.fullPath).Nodup) {name : String} {t : TensorDescriptor}
    (ht : w.description.tensors[name]? = some t) : ∃ before s after, w.snapshots = before ++ s :: after ∧
      s.fullPath = name ∧ t = descriptorAt s (align (dataEnd 0 before)) := by
  obtain ⟨s, hs, rfl⟩ := exists_of_described ht (by simp)
  obtain ⟨before, after, hsplit⟩ := List.append_of_mem hs
  refine ⟨before, s, after, hsplit, rfl, ?_⟩
  exact Option.some.inj (ht.symm.trans (description_describes hpaths before s after hsplit))

theorem foldr_max_le {l : List Nat} {b : Nat} (h : ∀ a ∈ l, a ≤ b) : l.foldr max 0 ≤ b := by
  induction l with
  | nil => exact Nat.zero_le b
  | cons a l ih =>
    obtain ⟨ha, hl⟩ := List.forall_mem_cons.mp h
    exact max_le ha (ih hl)

theorem maxDataOffset_description (hpaths : (w.snapshots.map TensorSnapshot.fullPath).Nodup)
    (hmax : dataEnd 0 w.snapshots < 2 ^ 63) : w.description.maxDataOffset = dataEnd 0 w.snapshots := by
  apply le_antisymm
  · refine foldr_max_le fun a ha => ?_
    obtain ⟨⟨name, t⟩, hmem, rfl⟩ := List.mem_map.mp ha
    obtain ⟨before, s, after, hsplit, -, rfl⟩ := exists_split hpaths (Std.ExtTreeMap.mem_toList_iff_getElem?_eq_some.mp hmem)
    have hle := end_le_dataEnd hsplit
    exact (descriptorAt_offsets _ _ (by omega)).2.trans_le hle
  · -- the last tensor ends where the data does
    rcases List.eq_nil_or_concat w.snapshots with hnil | ⟨before, s, hsplit⟩
    · rw [hnil]
      exact Nat.zero_le _
    · rw [List.concat_eq_append] at hsplit
      have hend : dataEnd 0 w.snapshots = align (dataEnd 0 before) + (bytesOf s).length := by
        rw [hsplit, dataEnd_append]
        rfl
      have hle := le_maxDataOffset (description_describes hpaths before s [] hsplit)
      have hstop : (descriptorAt s (align (dataEnd 0 before))).dataOffsets.2.toNat = _ :=
        (descriptorAt_offsets _ _ (by omega)).2
      rw [hend, ← hstop]
      exact hle

namespace Writable

theorem buildMetadata (h : Writable encode w metadataBytes) :
    w.buildMetadata encode = .ok (w.description, metadataBytes) := by
  have hfold := describe_fold 0 h.loads (by have := h.fits; unfold u64Max; omega) ∅
  have hencoded := h.encoded
  unfold RudapackWriter.description at hencoded
  unfold RudapackWriter.buildMetadata RudapackWriter.description
  rw [hfold]
  simp only [ok_bind, hencoded]
  rfl

theorem headerOk (h : Writable encode w metadataBytes) :
    RudapackWriter.header metadataBytes = .ok ⟨magicNumber, formatVersion, metadataBytes.length⟩ :=
  bind_eq_ok.mpr ⟨(), failIf_ok.mpr (not_lt.mpr h.header), rfl⟩

theorem maxDataOffset (h : Writable encode w metadataBytes) : w.description.maxDataOffset = dataEnd 0 w.snapshots :=
  maxDataOffset_description h.paths ((Nat.le_add_left _ _).trans_lt h.fits)

theorem totalSize (h : Writable encode w metadataBytes) :
    (addUsize (alignedDataSectionStart metadataBytes.length) w.description.maxDataOffset : Res Nat) =
      .ok (alignedDataSectionStart metadataBytes.length + dataEnd 0 w.snapshots) := by
  rw [h.maxDataOffset]
  refine if_pos ?_
  have := h.fits
  unfold usizeMax u64Max
  omega

end Writable

theorem le_dataSectionStart (size : Nat) : headerSize + size ≤ alignedDataSectionStart size := le_align _

theorem intoBytes_length (header : RudapackHeader) : header.intoBytes.length = headerSize := by
  simp [RudapackHeader.intoBytes, headerSize]

theorem file_length (w : RudapackWriter) (metadataBytes : List UInt8) :
    (w.file metadataBytes).length = alignedDataSectionStart metadataBytes.length + dataEnd 0 w.snapshots := by
  have hbody := body_length 0 w.snapshots
  have hle := le_dataSectionStart metadataBytes.length
  simp only [RudapackWriter.file, List.length_append, intoBytes_length, List.length_replicate]
  omega

namespace Writable

theorem writeToFile (h : Writable encode w metadataBytes) : w.writeToFile encode = .ok (w.file metadataBytes) := by
  have hfold := stream_fold 0 h.loads (description_describes h.paths) (by have := h.fits; unfold u64Max; omega)
  have hle := le_dataSectionStart metadataBytes.length
  have hpad : ∀ file : List UInt8, (if alignedDataSectionStart metadataBytes.length > headerSize + metadataBytes.length then
      file ++ List.replicate (alignedDataSectionStart metadataBytes.length - (headerSize + metadataBytes.length)) 0
      else file) =
      file ++ List.replicate (alignedDataSectionStart metadataBytes.length - (headerSize + metadataBytes.length)) 0 := by
    intro file
    by_cases hlt : alignedDataSectionStart metadataBytes.length > headerSize + metadataBytes.length
    · exact if_pos hlt
    · rw [if_neg hlt, Nat.sub_eq_zero_of_le (not_lt.mp hlt), List.replicate_zero, List.append_nil]
  unfold RudapackWriter.writeToFile
  rw [h.buildMetadata]
  simp only [ok_bind, h.headerOk, hpad, hfold]
  rfl

theorem size (h : Writable encode w metadataBytes) : w.size encode = .ok (w.file metadataBytes).length := by
  unfold RudapackWriter.size
  rw [h.buildMetadata, ok_bind]
  simp only [h.totalSize, file_length]

theorem toBytes (h : Writable encode w metadataBytes) : w.toBytes encode = .ok (w.file metadataBytes) := by
  have hlen := file_length w metadataBytes
  have hle := le_dataSectionStart metadataBytes.length
  have hbody := body_length 0 w.snapshots
  have hfits := h.fits
  -- the four parts that are written one after the other
  obtain ⟨header, hheader⟩ : ∃ header, header = RudapackHeader.intoBytes ⟨magicNumber, formatVersion, metadataBytes.length⟩ :=
    ⟨_, rfl⟩
  have hheaderLen : header.length = headerSize := hheader ▸ intoBytes_length _
  have htotal : (List.replicate (w.file metadataBytes).length (0 : UInt8)).length =
      alignedDataSectionStart metadataBytes.length + dataEnd 0 w.snapshots := by
    rw [List.length_replicate, hlen]
  obtain ⟨buffer, hbuffer⟩ : ∃ buffer : List UInt8, buffer = List.replicate (w.file metadataBytes).length 0 := ⟨_, rfl⟩
  rw [← hbuffer] at htotal
  have hcopy₀ := copyTo_append [] buffer header (by omega)
  have hcopy₁ := copyTo_append header (buffer.drop header.length) metadataBytes
    (by rw [List.length_drop]; omega)
  have hpad := @padTo_append (header ++ metadataBytes) ((buffer.drop header.length).drop metadataBytes.length)
    (alignedDataSectionStart metadataBytes.length) (by rw [List.length_append]; omega)
    (by rw [List.length_append, List.length_drop, List.length_drop]; omega)
  rw [List.length_append, hheaderLen] at hpad
  rw [hheaderLen] at hcopy₀ hcopy₁
  have hwrite := write_fold (alignedDataSectionStart metadataBytes.length) h.loads
    (description_describes h.paths) (by unfold u64Max; omega)
    (header ++ metadataBytes ++
      List.replicate (alignedDataSectionStart metadataBytes.length - (headerSize + metadataBytes.length)) 0)
    (((buffer.drop headerSize).drop metadataBytes.length).drop
      (alignedDataSectionStart metadataBytes.length - (headerSize + metadataBytes.length)))
    (by rw [List.length_append, List.length_append, List.length_replicate]; omega)
    (by rw [List.length_drop, List.length_drop, List.length_drop]; omega)
  rw [Nat.add_zero] at hwrite
  have hnothing : (((buffer.drop headerSize).drop metadataBytes.length).drop
      (alignedDataSectionStart metadataBytes.length - (headerSize + metadataBytes.length))).drop (body 0 w.snapshots).length = [] :=
    List.drop_eq_nil_of_le (by rw [List.length_drop, List.length_drop, List.length_drop]; omega)
  rw [hnothing, List.append_nil] at hwrite
  unfold RudapackWriter.toBytes RudapackWriter.writeInto
  rw [h.size, ok_bind, h.buildMetadata, ← hbuffer]
  have hsize : ∀ e : RudapackError,
      failIf (buffer.length < alignedDataSectionStart metadataBytes.length + dataEnd 0 w.snapshots) e = .ok () :=
    fun e => failIf_ok.mpr (by omega)
  simp only [ok_bind, h.headerOk, h.totalSize, hsize, ← hheader]
  simp only [List.nil_append, List.length_nil] at hcopy₀
  simp only [hcopy₀, ok_bind, hcopy₁, hpad, hwrite]
  rw [RudapackWriter.file, ← hheader]
  rfl

end Writable

-- Reading back

/-- The limits of the reader, and a decoder that reads the metadata back. -/
structure Readable (decode : List UInt8 → Except String RudapackMetadata) (w : RudapackWriter) (metadataBytes : List UInt8) :
    Prop where
  decoded : decode metadataBytes = .ok w.description
  metadata : metadataBytes.length ≤ maxMetadataSize
  count : w.snapshots.length ≤ maxTensorCount
  tensors : ∀ s ∈ w.snapshots, (bytesOf s).length ≤ maxTensorSize

theorem take_mid (pre s post : List UInt8) {n : Nat} (hn : pre.length = n) : ((pre ++ s ++ post).drop n).take s.length = s := by
  rw [← hn, List.append_assoc, List.drop_left, List.take_left]

theorem fromBytes_intoBytes {header : RudapackHeader} (hmagic : header.magic = magicNumber) (hversion : header.version < 2 ^ 16)
    (hsize : header.metadataSize < 2 ^ 32) : RudapackHeader.fromBytes header.intoBytes = .ok header := by
  obtain ⟨magic, version, metadataSize⟩ := header
  obtain rfl : magic = magicNumber := hmagic
  have h₀ : leValue ((RudapackHeader.intoBytes ⟨magicNumber, version, metadataSize⟩).take 4) = magicNumber := by
    have := take_mid [] (leBytes 4 magicNumber) (leBytes 2 version ++ leBytes 4 metadataSize) rfl
    rw [leBytes_length, List.nil_append, List.length_nil, List.drop_zero] at this
    rw [RudapackHeader.intoBytes, List.append_assoc, this, leValue_leBytes (by decide)]
  have h₁ : leValue (((RudapackHeader.intoBytes ⟨magicNumber, version, metadataSize⟩).drop 4).take 2) = version := by
    have := take_mid (leBytes 4 magicNumber) (leBytes 2 version) (leBytes 4 metadataSize)
      (leBytes_length 4 _)
    rw [leBytes_length] at this
    rw [RudapackHeader.intoBytes, this, leValue_leBytes hversion]
  have h₂ : leValue (((RudapackHeader.intoBytes ⟨magicNumber, version, metadataSize⟩).drop 6).take 4) = metadataSize := by
    have := take_mid (leBytes 4 magicNumber ++ leBytes 2 version) (leBytes 4 metadataSize) []
      (by rw [List.length_append, leBytes_length, leBytes_length])
    rw [leBytes_length, List.append_nil] at this
    rw [RudapackHeader.intoBytes, this, leValue_leBytes hsize]
  refine bind_eq_ok.mpr ⟨(), failIf_ok.mpr (by rw [intoBytes_length]; omega), bind_eq_ok.mpr ⟨(), ?_, ?_⟩⟩
  · rw [h₀]
    exact failIf_ok.mpr (not_not.mpr rfl)
  · rw [h₀, h₁, h₂]
    rfl

namespace Writable

variable (h : Writable encode w metadataBytes) (hr : Readable decode w metadataBytes)

include h hr

theorem parse_file : parse decode (w.file metadataBytes) =
    .ok (w.description, alignedDataSectionStart metadataBytes.length) := by
  have hlen := file_length w metadataBytes
  have hle := le_dataSectionStart metadataBytes.length
  have hmetadata := hr.metadata
  have hsmall : metadataBytes.length < 2 ^ 32 := hmetadata.trans_lt (by decide)
  obtain ⟨header, hheader⟩ : ∃ header : RudapackHeader, header = ⟨magicNumber, formatVersion, metadataBytes.length⟩ := ⟨_, rfl⟩
  have hfile : w.file metadataBytes = header.intoBytes ++ metadataBytes ++
      (List.replicate (alignedDataSectionStart metadataBytes.length - (headerSize + metadataBytes.length)) 0 ++
        body 0 w.snapshots) := by
    rw [RudapackWriter.file, hheader]
    simp only [List.append_assoc]
  have htake : (w.file metadataBytes).take headerSize = header.intoBytes := by
    rw [hfile, List.append_assoc, ← intoBytes_length header, List.take_left]
  have hslice : (slice (w.file metadataBytes) headerSize (headerSize + metadataBytes.length) : Res _) = .ok metadataBytes := by
    have := getRange_mid hfile
    rw [intoBytes_length] at this
    exact slice_ok.mpr this
  have hparse : RudapackHeader.fromBytes ((w.file metadataBytes).take headerSize) = .ok header := by
    rw [htake]
    exact fromBytes_intoBytes (by rw [hheader]) (by rw [hheader]; show formatVersion < 2 ^ 16; decide) (by rw [hheader]; exact hsmall)
  have hcheck : checkHeader header = .ok () := by
    refine bind_eq_ok.mpr ⟨(), failIf_ok.mpr (by rw [hheader]; exact lt_irrefl _), failIf_ok.mpr ?_⟩
    rw [hheader]
    exact not_lt.mpr hmetadata
  have hdecode : decodeMetadata decode metadataBytes = .ok w.description := by
    unfold decodeMetadata
    rw [hr.decoded]
    rfl
  have htensors : checkTensors w.description (headerSize + metadataBytes.length) (w.file metadataBytes).length = .ok () := by
    have hsize : w.description.tensors.size = w.snapshots.length := by
      have := @size_described _ ∅ 0 h.paths (by simp)
      rw [Std.ExtTreeMap.size_empty, Nat.zero_add] at this
      exact this
    refine bind_eq_ok.mpr ⟨(), failIf_ok.mpr (by rw [hsize]; exact not_lt.mpr hr.count), ?_⟩
    split
    · rfl
    · have hfits := h.fits
      refine bind_eq_ok.mpr ⟨_, okOr_ok.mpr (checkedAdd_of_le ?_), failIf_ok.mpr ?_⟩
      · rw [h.maxDataOffset]
        unfold u64Max
        omega
      · rw [h.maxDataOffset, hlen]
        omega
  have hsize' : header.metadataSize = metadataBytes.length := by rw [hheader]
  have hmagic : header.magic = magicNumber := by rw [hheader]
  unfold parse
  refine bind_eq_ok.mpr ⟨(), failIf_ok.mpr (by omega), bind_eq_ok.mpr ⟨header, hparse, ?_⟩⟩
  refine bind_eq_ok.mpr ⟨(), failIf_ok.mpr (not_not.mpr hmagic), bind_eq_ok.mpr ⟨(), hcheck, ?_⟩⟩
  rw [hsize']
  have hadd : headerSize + metadataBytes.length ≤ u64Max := by unfold headerSize u64Max; omega
  refine bind_eq_ok.mpr ⟨_, okOr_ok.mpr (checkedAdd_of_le hadd), bind_eq_ok.mpr ⟨(), failIf_ok.mpr (by omega), ?_⟩⟩
  exact bind_eq_ok.mpr ⟨_, hslice, bind_eq_ok.mpr ⟨_, hdecode, bind_eq_ok.mpr ⟨(), htensors, rfl⟩⟩⟩

end Writable

theorem dataAt_file (metadataBytes : List UInt8) {before after : List TensorSnapshot} {s : TensorSnapshot} (h : w.snapshots = before ++ s :: after)
    (t : TensorDescriptor) {start : Nat} (hstart : start = alignedDataSectionStart metadataBytes.length + align (dataEnd 0 before)) :
    dataAt (w.file metadataBytes) t start (start + (bytesOf s).length) = ⟨bytesOf s, t.shape, t.dtype⟩ := by
  obtain ⟨pre, post, hbody, hpre⟩ := body_mid h
  have hle := le_dataSectionStart metadataBytes.length
  obtain ⟨head, hhead, hlen⟩ : ∃ head, w.file metadataBytes = head ++ body 0 w.snapshots ∧
      head.length = alignedDataSectionStart metadataBytes.length := by
    refine ⟨_, rfl, ?_⟩
    simp only [List.length_append, intoBytes_length, List.length_replicate]
    omega
  have hfile : w.file metadataBytes = (head ++ pre) ++ bytesOf s ++ post := by
    rw [hhead, hbody]
    simp only [List.append_assoc]
  rw [dataAt, hfile, Nat.add_sub_cancel_left, take_mid _ _ _ (by rw [List.length_append]; omega)]

/-- The snapshot that is read back: an id that was not saved is generated. -/
def readBack (fresh : String → UInt64) (s : TensorSnapshot) : TensorSnapshot where
  fullPath := s.fullPath
  dtype := s.dtype
  shape := s.shape
  tensorId := some (s.tensorId.getD (fresh s.fullPath))
  dataFn := .ok ⟨bytesOf s, s.shape, s.dtype⟩

section Reading

variable {r : RudapackReader} (h : Writable encode w metadataBytes) (hr : Readable decode w metadataBytes)
  (hopen : Opens decode (w.file metadataBytes) r)

include h hr hopen

theorem opened_eq : r.metadata = w.description ∧ r.dataOffset = alignedDataSectionStart metadataBytes.length ∧
    r.storage.content = w.file metadataBytes := by
  obtain ⟨hparse, hcontent⟩ := hopen.parse
  obtain ⟨hmetadata, hoffset⟩ := Prod.mk.inj (Except.ok.inj (hparse.symm.trans (h.parse_file hr)))
  exact ⟨hmetadata, hoffset, hcontent⟩

theorem snapshotAt_eq {zeroCopy : Bool} (hsupports : r.storage.Supports zeroCopy) {before after : List TensorSnapshot}
    {s : TensorSnapshot} (hsplit : w.snapshots = before ++ s :: after) :
    r.snapshotAt fresh zeroCopy s.fullPath (descriptorAt s (align (dataEnd 0 before))) = readBack fresh s := by
  obtain ⟨-, hoffset, hcontent⟩ := opened_eq h hr hopen
  have hlen := file_length w metadataBytes
  have hle := end_le_dataEnd hsplit
  have hfits := h.fits
  obtain ⟨hstart, hstop⟩ := descriptorAt_offsets s (align (dataEnd 0 before)) (by omega)
  have hload := load_inside (descriptorAt s (align (dataEnd 0 before)))
    (r.dataOffset + align (dataEnd 0 before)) (r.dataOffset + (align (dataEnd 0 before) + (bytesOf s).length))
    hsupports (by rw [hcontent, hlen]; exact hfits) (Nat.add_le_add_left (Nat.le_add_right _ _) _)
    (by rw [hcontent, hlen, hoffset]; exact Nat.add_le_add_left hle _)
  have hdata := dataAt_file metadataBytes hsplit (descriptorAt s (align (dataEnd 0 before)))
    (congrArg (· + align (dataEnd 0 before)) hoffset)
  rw [Nat.add_assoc] at hdata
  unfold RudapackReader.snapshotAt readBack
  rw [hstart, hstop, hload, hcontent, hdata]
  rfl

theorem read_snapshots {zeroCopy : Bool} (hsupports : r.storage.Supports zeroCopy) :
    ∃ l, r.getSnapshots fresh zeroCopy = .ok l ∧ l.Perm (w.snapshots.map (readBack fresh)) := by
  obtain ⟨hmetadata, hoffset, -⟩ := opened_eq h hr hopen
  have hfits := h.fits
  have hwf : ∀ (name : String) t, r.metadata.tensors[name]? = some t → t.WellFormed ∧ r.dataOffset + t.stop ≤ u64Max := by
    intro name t ht
    rw [hmetadata] at ht
    obtain ⟨before, s, after, hsplit, -, rfl⟩ := exists_split h.paths ht
    have hle := end_le_dataEnd hsplit
    obtain ⟨hstart, hstop⟩ := descriptorAt_offsets s (align (dataEnd 0 before)) (by omega)
    have hmax := hr.tensors s (by rw [hsplit]; simp)
    refine ⟨⟨by omega, by omega⟩, ?_⟩
    unfold u64Max
    omega
  refine ⟨_, getSnapshots_eq hwf zeroCopy, ?_⟩
  have hkeys : (r.metadata.tensors.toList.map Prod.fst).Nodup := by
    rw [Std.ExtTreeMap.map_fst_toList_eq_keys]
    exact Std.ExtTreeMap.nodup_keys
  refine (List.perm_ext_iff_of_nodup (.of_map TensorSnapshot.fullPath ?_) (.of_map TensorSnapshot.fullPath ?_)).mpr ?_
  · rw [List.map_map]
    exact hkeys
  · rw [List.map_map]
    exact h.paths
  · intro x
    constructor
    · intro hx
      obtain ⟨⟨name, t⟩, hmem, rfl⟩ := List.mem_map.mp hx
      rw [hmetadata] at hmem
      obtain ⟨before, s, after, hsplit, rfl, rfl⟩ := exists_split h.paths (Std.ExtTreeMap.mem_toList_iff_getElem?_eq_some.mp hmem)
      rw [snapshotAt_eq h hr hopen hsupports hsplit]
      exact List.mem_map_of_mem (by rw [hsplit]; simp)
    · intro hx
      obtain ⟨s, hs, rfl⟩ := List.mem_map.mp hx
      obtain ⟨before, after, hsplit⟩ := List.append_of_mem hs
      rw [← snapshotAt_eq h hr hopen hsupports hsplit]
      refine List.mem_map.mpr ⟨(s.fullPath, _), Std.ExtTreeMap.mem_toList_iff_getElem?_eq_some.mpr ?_, rfl⟩
      rw [hmetadata]
      exact description_describes h.paths before s after hsplit

theorem starts_aligned {name : String} {t : TensorDescriptor} (ht : r.metadata.tensors[name]? = some t) :
    tensorAlignment ∣ r.dataOffset + t.start := by
  obtain ⟨hmetadata, hoffset, -⟩ := opened_eq h hr hopen
  rw [hmetadata] at ht
  obtain ⟨before, s, after, hsplit, -, rfl⟩ := exists_split h.paths ht
  have hle := end_le_dataEnd hsplit
  have hfits := h.fits
  rw [(descriptorAt_offsets _ _ (by omega)).1, hoffset]
  exact Nat.dvd_add (align_dvd _) (align_dvd _)

end Reading

/-- One byte tensor without an id. -/
def byteTensor (name : String) (bytes : List UInt8) : TensorSnapshot where
  fullPath := name
  dtype := .u8
  shape := [.ofNat bytes.length]
  tensorId := none
  dataFn := .ok ⟨bytes, [.ofNat bytes.length], .u8⟩

def writerOf (snapshots : List TensorSnapshot) : RudapackWriter where
  snapshots := snapshots
  metadata := ∅

def noBytes (_ : RudapackMetadata) : Except String (List UInt8) := .ok []

end Ruda.Rudapack
