import Ruda.Rudapack.Writer

/-!
# The layout that both writers follow

Offsets are computed in one pass over the snapshots, and both writers look them up by path
in a second pass. For paths that differ, the file and the buffer end up with the same
bytes: header, metadata and padding, then each tensor at its aligned offset.
-/

namespace Ruda.Rudapack

/-- The bytes of a snapshot. -/
def bytesOf (s : TensorSnapshot) : List UInt8 :=
  match s.toData with
  | .ok data => data.bytes
  | .error _ => []

/-- The data of the snapshot can be read and has the length that shape and type give. -/
def Loads (s : TensorSnapshot) : Prop := ∃ data, s.toData = .ok data ∧ s.dataLen = .ok data.bytes.length

theorem Loads.dataLen {s : TensorSnapshot} (h : Loads s) : s.dataLen = .ok (bytesOf s).length := by
  obtain ⟨data, hdata, hlen⟩ := h
  rw [bytesOf, hdata]
  exact hlen

theorem Loads.dataOf {s : TensorSnapshot} (h : Loads s) : RudapackWriter.dataOf s = .ok (bytesOf s) := by
  obtain ⟨data, hdata, hlen⟩ := h
  unfold RudapackWriter.dataOf bytesOf
  rw [hlen, hdata]
  simp only [ok_bind, failIf_ok.mpr (not_not.mpr rfl)]
  rfl

/-- An offset, aligned for the next tensor. -/
def align (offset : Nat) : Nat := alignOffset offset tensorAlignment

theorem le_align (offset : Nat) : offset ≤ align offset := (alignOffset_spec (by decide)).1

theorem align_dvd (offset : Nat) : tensorAlignment ∣ align offset := (alignOffset_spec (by decide)).2.2

/-- Where the data of the snapshots ends when it begins after `offset`. -/
def dataEnd (offset : Nat) : List TensorSnapshot → Nat
  | [] => offset
  | s :: snapshots => dataEnd (align offset + (bytesOf s).length) snapshots

/-- The data of the snapshots, with zeros before each tensor up to its aligned offset. -/
def body (offset : Nat) : List TensorSnapshot → List UInt8
  | [] => []
  | s :: snapshots =>
    List.replicate (align offset - offset) 0 ++ bytesOf s ++ body (align offset + (bytesOf s).length) snapshots

variable {offset : Nat} {snapshots : List TensorSnapshot}

theorem le_dataEnd (offset : Nat) (snapshots : List TensorSnapshot) : offset ≤ dataEnd offset snapshots := by
  induction snapshots generalizing offset with
  | nil => exact le_rfl
  | cons s snapshots ih => exact ((le_align offset).trans (Nat.le_add_right _ _)).trans (ih _)

theorem body_length (offset : Nat) (snapshots : List TensorSnapshot) :
    offset + (body offset snapshots).length = dataEnd offset snapshots := by
  induction snapshots generalizing offset with
  | nil => rfl
  | cons s snapshots ih =>
    have hle := le_align offset
    rw [dataEnd, ← ih, body, List.length_append, List.length_append, List.length_replicate]
    omega

theorem dataEnd_append (offset : Nat) (before after : List TensorSnapshot) :
    dataEnd offset (before ++ after) = dataEnd (dataEnd offset before) after := by
  induction before generalizing offset with
  | nil => rfl
  | cons s before ih => exact ih _

theorem body_append (offset : Nat) (before after : List TensorSnapshot) :
    body offset (before ++ after) = body offset before ++ body (dataEnd offset before) after := by
  induction before generalizing offset with
  | nil => rfl
  | cons s before ih =>
    rw [List.cons_append, body, body, dataEnd, ih]
    simp only [List.append_assoc]

theorem body_mid {before after : List TensorSnapshot} {s : TensorSnapshot} (h : snapshots = before ++ s :: after) :
    ∃ pre post, body 0 snapshots = pre ++ bytesOf s ++ post ∧ pre.length = align (dataEnd 0 before) := by
  refine ⟨body 0 before ++ List.replicate (align (dataEnd 0 before) - dataEnd 0 before) 0,
    body (align (dataEnd 0 before) + (bytesOf s).length) after, ?_, ?_⟩
  · rw [h, body_append, body]
    simp only [List.append_assoc]
  · have hlen := body_length 0 before
    have hle := le_align (dataEnd 0 before)
    rw [List.length_append, List.length_replicate]
    omega

-- The descriptors

def descriptorAt (s : TensorSnapshot) (start : Nat) : TensorDescriptor where
  dtype := s.dtype
  shape := s.shape
  dataOffsets := (.ofNat start, .ofNat (start + (bytesOf s).length))
  paramId := s.tensorId

/-- The tensors after a pass over the snapshots. -/
def described (tensors : Tensors) (offset : Nat) : List TensorSnapshot → Tensors
  | [] => tensors
  | s :: snapshots =>
    described (tensors.insert s.fullPath (descriptorAt s (align offset))) (align offset + (bytesOf s).length) snapshots

theorem describe_fold (offset : Nat) (hload : ∀ s ∈ snapshots, Loads s) (hmax : dataEnd offset snapshots ≤ u64Max) (tensors : Tensors) :
    snapshots.foldlM describe (tensors, offset) = .ok (described tensors offset snapshots, dataEnd offset snapshots) := by
  induction snapshots generalizing tensors offset with
  | nil => rfl
  | cons s snapshots ih =>
    obtain ⟨hs, hload⟩ := List.forall_mem_cons.mp hload
    have hle : align offset + (bytesOf s).length ≤ u64Max := (le_dataEnd _ _).trans hmax
    have halign : (mulUsize (divCeil offset tensorAlignment) tensorAlignment : Res Nat) = .ok (align offset) :=
      if_pos ((Nat.le_add_right _ _).trans hle)
    have hstep : describe (tensors, offset) s =
        .ok (tensors.insert s.fullPath (descriptorAt s (align offset)), align offset + (bytesOf s).length) := by
      unfold describe
      simp only [hs.dataLen, ok_bind, halign, checkedAdd_of_le hle]
      rfl
    rw [List.foldlM_cons, hstep, ok_bind, ih _ hload hmax]
    rfl

theorem described_of_notMem {tensors : Tensors} {name : String} (h : name ∉ snapshots.map TensorSnapshot.fullPath) :
    (described tensors offset snapshots)[name]? = tensors[name]? := by
  induction snapshots generalizing tensors offset with
  | nil => rfl
  | cons s snapshots ih =>
    rw [List.map_cons, List.mem_cons, not_or] at h
    rw [described, ih h.2, Std.ExtTreeMap.getElem?_insert, if_neg]
    intro heq
    exact h.1 (Std.LawfulEqCmp.eq_of_compare heq).symm

theorem described_at {tensors : Tensors} (hpaths : (snapshots.map TensorSnapshot.fullPath).Nodup)
    {before after : List TensorSnapshot} {s : TensorSnapshot} (h : snapshots = before ++ s :: after) :
    (described tensors offset snapshots)[s.fullPath]? = some (descriptorAt s (align (dataEnd offset before))) := by
  induction before generalizing snapshots tensors offset with
  | nil =>
    subst h
    rw [List.nil_append, List.map_cons, List.nodup_cons] at hpaths
    rw [List.nil_append, described, described_of_notMem hpaths.1, Std.ExtTreeMap.getElem?_insert_self]
    rfl
  | cons s' before ih =>
    subst h
    rw [List.cons_append, List.map_cons, List.nodup_cons] at hpaths
    rw [List.cons_append, described, ih hpaths.2 rfl]
    rfl

theorem exists_of_described {tensors : Tensors} {name : String} {t : TensorDescriptor}
    (h : (described tensors offset snapshots)[name]? = some t) (hno : tensors[name]? = none) :
    ∃ s ∈ snapshots, s.fullPath = name := by
  by_contra hne
  rw [described_of_notMem, hno] at h
  · cases h
  · rw [List.mem_map]
    exact hne

theorem size_described {tensors : Tensors} (offset : Nat) (hpaths : (snapshots.map TensorSnapshot.fullPath).Nodup)
    (hno : ∀ s ∈ snapshots, tensors[s.fullPath]? = none) :
    (described tensors offset snapshots).size = tensors.size + snapshots.length := by
  induction snapshots generalizing tensors offset with
  | nil => rfl
  | cons s snapshots ih =>
    rw [List.map_cons, List.nodup_cons] at hpaths
    obtain ⟨hs, hno⟩ := List.forall_mem_cons.mp hno
    rw [described, ih _ hpaths.2, Std.ExtTreeMap.size_insert, List.length_cons]
    · have hnew : ¬tensors.contains s.fullPath = true := by
        rw [Std.ExtTreeMap.contains_eq_isSome_getElem?, hs]
        exact Bool.false_ne_true
      rw [if_neg hnew]
      omega
    · intro s' hs'
      rw [Std.ExtTreeMap.getElem?_insert, if_neg]
      · exact hno s' hs'
      · intro heq
        exact hpaths.1 (Std.LawfulEqCmp.eq_of_compare heq ▸ List.mem_map_of_mem hs')

-- The two writers

open RudapackWriter

/-- The tensors in `metadata` are described as the layout has them. -/
def Describes (metadata : RudapackMetadata) (offset : Nat) (snapshots : List TensorSnapshot) : Prop :=
  ∀ before s after, snapshots = before ++ s :: after →
    metadata.tensors[s.fullPath]? = some (descriptorAt s (align (dataEnd offset before)))

theorem Describes.tail {metadata : RudapackMetadata} {s : TensorSnapshot} (h : Describes metadata offset (s :: snapshots)) :
    Describes metadata (align offset + (bytesOf s).length) snapshots := by
  rintro before s' after rfl
  exact h (s :: before) s' after rfl

theorem Describes.head {metadata : RudapackMetadata} {s : TensorSnapshot} (h : Describes metadata offset (s :: snapshots))
    (hmax : dataEnd offset (s :: snapshots) ≤ u64Max) :
    ∃ t, descriptorOf metadata s = .ok t ∧ t.dataOffsets.1.toNat = align offset := by
  refine ⟨_, okOr_ok.mpr (h [] s snapshots rfl), UInt64.toNat_ofNat_of_lt' ?_⟩
  have hle : align offset + (bytesOf s).length ≤ u64Max := (le_dataEnd _ snapshots).trans hmax
  unfold u64Max at hle
  show align offset < 2 ^ 64
  omega

theorem stream_fold {metadata : RudapackMetadata} (offset : Nat) (hload : ∀ s ∈ snapshots, Loads s)
    (hdesc : Describes metadata offset snapshots) (hmax : dataEnd offset snapshots ≤ u64Max) (file : List UInt8) :
    snapshots.foldlM (streamTensor metadata) (file, offset) = .ok (file ++ body offset snapshots, dataEnd offset snapshots) := by
  induction snapshots generalizing offset file with
  | nil => rw [body, List.append_nil]; rfl
  | cons s snapshots ih =>
    obtain ⟨hs, hload⟩ := List.forall_mem_cons.mp hload
    obtain ⟨t, ht, hstart⟩ := hdesc.head hmax
    have hpad : (if align offset > offset then (file ++ List.replicate (align offset - offset) 0, align offset)
        else (file, offset)) = (file ++ List.replicate (align offset - offset) 0, align offset) := by
      have hle := le_align offset
      by_cases hlt : align offset > offset
      · exact if_pos hlt
      · have heq : align offset = offset := by omega
        rw [if_neg hlt, heq, Nat.sub_self, List.replicate_zero, List.append_nil]
    have hstep : streamTensor metadata (file, offset) s =
        .ok (file ++ List.replicate (align offset - offset) 0 ++ bytesOf s, align offset + (bytesOf s).length) := by
      unfold streamTensor
      simp only [ht, ok_bind, hstart, hpad, hs.dataOf]
      rfl
    rw [List.foldlM_cons, hstep, ok_bind, ih _ hload hdesc.tail hmax, body, dataEnd]
    simp only [List.append_assoc]

theorem copyTo_append (written rest bytes : List UInt8) (hlen : bytes.length ≤ rest.length) :
    copyTo (written ++ rest) written.length bytes = .ok (written ++ bytes ++ rest.drop bytes.length) := by
  unfold copyTo
  rw [if_pos (by rw [List.length_append]; omega), List.take_left, List.drop_append, Nat.add_sub_cancel_left,
    List.drop_eq_nil_of_le (Nat.le_add_right _ _), List.nil_append]
  rfl

theorem padTo_append (written rest : List UInt8) {target : Nat} (hle : written.length ≤ target)
    (hlen : target - written.length ≤ rest.length) :
    padTo (written ++ rest, written.length) target =
      .ok (written ++ List.replicate (target - written.length) 0 ++ rest.drop (target - written.length), target) := by
  unfold padTo
  by_cases hlt : target > written.length
  · have hcopy := copyTo_append written rest (List.replicate (target - written.length) 0)
      (by rw [List.length_replicate]; exact hlen)
    rw [if_pos hlt, hcopy, ok_bind, List.length_replicate]
    rfl
  · have heq : target = written.length := by omega
    rw [if_neg hlt, heq, Nat.sub_self, List.replicate_zero, List.append_nil, List.drop_zero]
    rfl

/-- The buffer holds what the file holds, and behind it what is not overwritten yet. -/
theorem write_fold {metadata : RudapackMetadata} (start : Nat) (hload : ∀ s ∈ snapshots, Loads s)
    (hdesc : Describes metadata offset snapshots) (hmax : start + dataEnd offset snapshots ≤ u64Max)
    (written rest : List UInt8) (hwritten : written.length = start + offset)
    (hrest : (body offset snapshots).length ≤ rest.length) :
    snapshots.foldlM (writeTensor metadata start) (written ++ rest, start + offset) =
      .ok (written ++ body offset snapshots ++ rest.drop (body offset snapshots).length, start + dataEnd offset snapshots) := by
  induction snapshots generalizing offset written rest with
  | nil => rw [body, List.append_nil, List.length_nil, List.drop_zero]; rfl
  | cons s snapshots ih =>
    obtain ⟨hs, hload⟩ := List.forall_mem_cons.mp hload
    obtain ⟨t, ht, hstart⟩ := hdesc.head ((Nat.le_add_left _ _).trans hmax)
    have hle := le_align offset
    have hnext : align offset + (bytesOf s).length ≤ dataEnd offset (s :: snapshots) := le_dataEnd _ _
    have hadd : (addUsize start (align offset) : Res Nat) = .ok (start + align offset) :=
      if_pos (by unfold usizeMax; omega)
    have hbody : (body offset (s :: snapshots)).length = align offset - offset + (bytesOf s).length +
        (body (align offset + (bytesOf s).length) snapshots).length := by
      rw [body, List.length_append, List.length_append, List.length_replicate]
    have hgap : start + align offset - written.length = align offset - offset := by omega
    have hpad := @padTo_append written rest (start + align offset) (by omega) (by omega)
    rw [hgap, hwritten] at hpad
    have hpadded : (written ++ List.replicate (align offset - offset) 0).length = start + align offset := by
      rw [List.length_append, List.length_replicate]
      omega
    have hcopy := copyTo_append (written ++ List.replicate (align offset - offset) 0)
      (rest.drop (align offset - offset)) (bytesOf s) (by rw [List.length_drop]; omega)
    rw [hpadded, List.drop_drop] at hcopy
    have hstep : writeTensor metadata start (written ++ rest, start + offset) s =
        .ok (written ++ List.replicate (align offset - offset) 0 ++ bytesOf s ++
          rest.drop (align offset - offset + (bytesOf s).length), start + (align offset + (bytesOf s).length)) := by
      unfold writeTensor
      simp only [ht, ok_bind, hstart, hadd, hpad, hs.dataOf, hcopy, Nat.add_assoc]
      rfl
    have hwritten' : (written ++ List.replicate (align offset - offset) 0 ++ bytesOf s).length =
        start + (align offset + (bytesOf s).length) := by
      rw [List.length_append, hpadded, Nat.add_assoc]
    rw [List.foldlM_cons, hstep, ok_bind, ih hload hdesc.tail hmax _ _ hwritten' (by rw [List.length_drop]; omega), hbody,
      List.drop_drop, dataEnd]
    simp only [body, List.append_assoc]

end Ruda.Rudapack
