import Ruda.Gguf.Values

/-!
# Which files open

Opening a file panics exactly when a metadata value nests too deep. What is known of a
file that opens: the checks that its tensors passed.
-/

namespace Ruda.Gguf

variable {stack n : Nat} {content : List UInt8} {r r' : Reader} {metadata metadata' : Metadata}

-- Metadata

namespace GgufFile

theorem readEntry_ok (h : readEntry stack (metadata, r) = .ok (metadata', r')) : ∃ key v stop,
    EntryAt r.content r.endian stack r.pos key stop ∧ key ∉ metadata ∧ metadata' = metadata.insert key v ∧
      r' = r.seek stop := by
  obtain ⟨⟨key, r₁⟩, hkey, h⟩ := bind_eq_ok.mp h
  obtain ⟨mid, htext, rfl⟩ := Reader.string_ok.mp hkey
  obtain ⟨_, hvalid, h⟩ := bind_eq_ok.mp h
  obtain ⟨⟨ty, r₂⟩, hty, h⟩ := bind_eq_ok.mp h
  obtain ⟨hword, rfl⟩ := Reader.word_ok.mp hty
  obtain ⟨⟨v, r₃⟩, hvalue, h⟩ := bind_eq_ok.mp h
  obtain ⟨stop, hat, rfl⟩ := Reader.value_ok.mp ⟨v, hvalue⟩
  obtain ⟨_, hnew, h⟩ := bind_eq_ok.mp h
  obtain ⟨rfl, rfl⟩ := Prod.mk.inj (Except.ok.inj h)
  exact ⟨key, v, stop, ⟨mid, ty, htext, failIf_ok.mp hvalid, hword, hat⟩, failIf_ok.mp hnew, rfl, rfl⟩

theorem readEntry_of {key : String} {stop : Nat} (hentry : EntryAt r.content r.endian stack r.pos key stop)
    (hnew : key ∉ metadata) : ∃ v, readEntry stack (metadata, r) = .ok (metadata.insert key v, r.seek stop) := by
  obtain ⟨mid, ty, htext, hvalid, hword, hat⟩ := hentry
  obtain ⟨v, hv⟩ : ∃ v, ((r.seek mid).seek (mid + 4)).value stack ty = .ok (v, r.seek stop) :=
    Reader.value_ok.mpr ⟨stop, hat, rfl⟩
  exact ⟨v, bind_eq_ok.mpr ⟨_, Reader.string_ok.mpr ⟨mid, htext, rfl⟩, bind_eq_ok.mpr ⟨(), failIf_ok.mpr hvalid,
    bind_eq_ok.mpr ⟨_, Reader.word_ok.mpr ⟨hword, rfl⟩, bind_eq_ok.mpr ⟨_, hv,
      bind_eq_ok.mpr ⟨(), failIf_ok.mpr hnew, rfl⟩⟩⟩⟩⟩⟩

theorem readEntry_panic : readEntry stack (metadata, r) = .error .panic ↔ ∃ key mid ty,
    TextAt r.content r.endian r.pos key mid ∧ ValidKey key ∧ WordAt r.content r.endian 4 mid ty ∧
      Overruns r.content r.endian stack ty (mid + 4) := by
  unfold readEntry
  simp only []
  constructor
  · intro h
    obtain ⟨⟨key, r₁⟩, hkey, h⟩ := (bind_eq_panic.mp h).resolve_left Reader.noPanic_string
    obtain ⟨mid, htext, rfl⟩ := Reader.string_ok.mp hkey
    obtain ⟨_, hvalid, h⟩ := (bind_eq_panic.mp h).resolve_left (noPanic_failIf _ _)
    obtain ⟨⟨ty, r₂⟩, hty, h⟩ := (bind_eq_panic.mp h).resolve_left Reader.noPanic_word
    obtain ⟨hword, rfl⟩ := Reader.word_ok.mp hty
    rcases bind_eq_panic.mp h with h | ⟨⟨v, r₃⟩, -, h⟩
    · exact ⟨key, mid, ty, htext, failIf_ok.mp hvalid, hword, Reader.value_panic.mp h⟩
    · exact absurd h ((noPanic_failIf _ _).bind fun _ _ => noPanic_ok _)
  · rintro ⟨key, mid, ty, htext, hvalid, hword, hover⟩
    refine bind_eq_panic.mpr (.inr ⟨_, Reader.string_ok.mpr ⟨mid, htext, rfl⟩, ?_⟩)
    refine bind_eq_panic.mpr (.inr ⟨(), failIf_ok.mpr hvalid, ?_⟩)
    refine bind_eq_panic.mpr (.inr ⟨_, Reader.word_ok.mpr ⟨hword, rfl⟩, ?_⟩)
    exact bind_eq_panic.mpr (.inl (Reader.value_panic.mpr hover))

theorem times_readEntry (h : times (readEntry stack) n (metadata, r) = .ok (metadata', r')) : ∃ keys stop,
    keys.length = n ∧ keys.Nodup ∧ (∀ key ∈ keys, key ∉ metadata) ∧ EntriesAt r.content r.endian stack keys r.pos stop ∧
      r' = r.seek stop := by
  induction n generalizing metadata r with
  | zero =>
    obtain ⟨-, rfl⟩ := Prod.mk.inj (Except.ok.inj h)
    exact ⟨[], r.pos, rfl, .nil, nofun, rfl, rfl⟩
  | succ n ih =>
    obtain ⟨⟨metadata₁, r₁⟩, hfirst, h⟩ := bind_eq_ok.mp h
    obtain ⟨key, v, mid, hentry, hnew, rfl, rfl⟩ := readEntry_ok hfirst
    obtain ⟨keys, stop, hlen, hnodup, hkeys, hentries, rfl⟩ := ih h
    refine ⟨key :: keys, stop, congrArg (· + 1) hlen, List.nodup_cons.mpr ⟨fun hmem => ?_, hnodup⟩, ?_,
      ⟨mid, hentry, hentries⟩, rfl⟩
    · exact hkeys key hmem Std.ExtTreeMap.mem_insert_self
    · rw [List.forall_mem_cons]
      exact ⟨hnew, fun key' hmem hold => hkeys key' hmem (Std.ExtTreeMap.mem_insert.mpr (.inr hold))⟩

theorem times_readEntry_of {keys : List String} {stop : Nat} (hnodup : keys.Nodup) (hnew : ∀ key ∈ keys, key ∉ metadata)
    (hentries : EntriesAt r.content r.endian stack keys r.pos stop) :
    ∃ metadata', times (readEntry stack) keys.length (metadata, r) = .ok (metadata', r.seek stop) := by
  induction keys generalizing metadata r with
  | nil =>
    obtain rfl : stop = r.pos := hentries
    exact ⟨metadata, rfl⟩
  | cons key keys ih =>
    obtain ⟨mid, hentry, hentries⟩ := hentries
    obtain ⟨hfresh, hnodup⟩ := List.nodup_cons.mp hnodup
    obtain ⟨hkey, hnew⟩ := List.forall_mem_cons.mp hnew
    obtain ⟨v, hfirst⟩ := readEntry_of hentry hkey
    have hrest : ∀ key' ∈ keys, key' ∉ metadata.insert key v := fun key' hmem hin => by
      rcases Std.ExtTreeMap.mem_insert.mp hin with heq | hold
      · rw [Std.LawfulEqCmp.compare_eq_iff_eq] at heq
        exact hfresh (heq ▸ hmem)
      · exact hnew key' hmem hold
    obtain ⟨metadata', h⟩ := ih (r := r.seek mid) hnodup hrest hentries
    exact ⟨metadata', bind_eq_ok.mpr ⟨_, hfirst, h⟩⟩

theorem times_readEntry_panic : times (readEntry stack) n (∅, r) = .error .panic ↔
    ∃ keys : List String, keys.length < n ∧ keys.Nodup ∧ ∃ pos key mid ty, EntriesAt r.content r.endian stack keys r.pos pos ∧
      TextAt r.content r.endian pos key mid ∧ ValidKey key ∧ WordAt r.content r.endian 4 mid ty ∧
        Overruns r.content r.endian stack ty (mid + 4) := by
  rw [times_panic]
  constructor
  · rintro ⟨k, hk, ⟨metadata, r₁⟩, h, hpanic⟩
    obtain ⟨keys, pos, rfl, hnodup, -, hentries, rfl⟩ := times_readEntry h
    obtain ⟨key, mid, ty, hover⟩ := readEntry_panic.mp hpanic
    exact ⟨keys, hk, hnodup, pos, key, mid, ty, hentries, hover⟩
  · rintro ⟨keys, hk, hnodup, pos, key, mid, ty, hentries, hover⟩
    obtain ⟨metadata, h⟩ : ∃ metadata, times (readEntry stack) keys.length (∅, r) = .ok (metadata, r.seek pos) :=
      times_readEntry_of hnodup (fun _ _ => Std.ExtTreeMap.not_mem_empty) hentries
    exact ⟨_, hk, _, h, readEntry_panic.mpr ⟨key, mid, ty, hover⟩⟩

-- The head of the file

theorem noPanic_readHead : NoPanic (readHead content) := by
  refine Reader.noPanic_bytes.bind fun _ _ => (noPanic_failIf _ _).bind fun _ _ => Reader.noPanic_bytes.bind fun _ _ => ?_
  simp only []
  split
  · exact noPanic_ok _
  · exact (noPanic_failIf _ _).bind fun _ _ => noPanic_ok _

theorem readHead_ok {version : Nat} : readHead content = .ok (version, r) ↔
    ∃ endian, HeadAt content endian version ∧ r = ⟨content, endian, 8⟩ := by
  unfold readHead
  constructor
  · intro h
    obtain ⟨⟨magic, r₁⟩, hmagic, h⟩ := bind_eq_ok.mp h
    obtain ⟨hget, rfl⟩ := Reader.bytes_ok.mp hmagic
    obtain ⟨_, heq, h⟩ := bind_eq_ok.mp h
    obtain ⟨⟨b, r₂⟩, hb, h⟩ := bind_eq_ok.mp h
    obtain ⟨hversion, rfl⟩ := Reader.bytes_ok.mp hb
    rw [not_not.mp (failIf_ok.mp heq)] at hget
    dsimp only at h
    split at h
    · next hlittle =>
      obtain ⟨rfl, rfl⟩ := Prod.mk.inj (Except.ok.inj h)
      exact ⟨.little, ⟨b, hget, hversion, by rw [if_pos hlittle]; exact ⟨rfl, rfl⟩⟩, rfl⟩
    · next hlittle =>
      obtain ⟨_, hbig, h⟩ := bind_eq_ok.mp h
      obtain ⟨rfl, rfl⟩ := Prod.mk.inj (Except.ok.inj h)
      have hthree := not_not.mp (failIf_ok.mp hbig)
      exact ⟨.big, ⟨b, hget, hversion, by rw [if_neg hlittle]; exact ⟨hthree, hthree, rfl⟩⟩, rfl⟩
  · rintro ⟨endian, ⟨b, hget, hversion, hcase⟩, rfl⟩
    refine bind_eq_ok.mpr ⟨_, Reader.bytes_ok.mpr ⟨hget, rfl⟩, bind_eq_ok.mpr ⟨(), failIf_ok.mpr (not_not.mpr rfl),
      bind_eq_ok.mpr ⟨_, Reader.bytes_ok.mpr ⟨hversion, rfl⟩, ?_⟩⟩⟩
    dsimp only
    split at hcase
    · next hlittle =>
      obtain ⟨rfl, rfl⟩ := hcase
      rw [if_pos hlittle]
      rfl
    · next hlittle =>
      obtain ⟨rfl, hthree, rfl⟩ := hcase
      rw [if_neg hlittle]
      exact bind_eq_ok.mpr ⟨(), failIf_ok.mpr (not_not.mpr hthree), by rw [hthree]; rfl⟩

-- Tensors

theorem alignmentValue_ok {value : GgufValue} {alignment : Nat} (h : alignmentValue value = .ok alignment) :
    isPowerOfTwo alignment = true ∧ alignment < 2 ^ 32 := by
  unfold alignmentValue at h
  split at h
  · next value =>
    split at h
    · next hpower =>
      obtain rfl := Except.ok.inj h
      exact ⟨hpower, value.toNat_lt⟩
    · cases h
  · cases h

theorem noPanic_alignmentValue (value : GgufValue) : NoPanic (alignmentValue value) := by
  unfold alignmentValue
  split
  · split
    · exact noPanic_ok _
    · exact noPanic_err _
  · exact noPanic_err _

theorem alignmentOf_ok {alignment : Nat} (h : alignmentOf metadata = .ok alignment) :
    isPowerOfTwo alignment = true ∧ alignment < 2 ^ 32 := by
  unfold alignmentOf at h
  cases hvalue : metadata["general.alignment"]? with
  | some value =>
    rw [hvalue] at h
    exact alignmentValue_ok h
  | none =>
    rw [hvalue] at h
    obtain rfl := Except.ok.inj h
    decide

theorem noPanic_alignmentOf : NoPanic (alignmentOf metadata) := by
  unfold alignmentOf
  cases metadata["general.alignment"]? with
  | some value => exact noPanic_alignmentValue value
  | none => exact noPanic_ok _

theorem noPanic_readDimension {state : List Nat × Reader} : NoPanic (readDimension state) :=
  Reader.noPanic_word.bind fun _ _ => (noPanic_failIf _ _).bind fun _ _ => noPanic_ok _

theorem times_readDimension {dims dims' : List Nat} (h : times readDimension n (dims, r) = .ok (dims', r'))
    (hpos : ∀ d ∈ dims, 0 < d) :
    dims'.length = dims.length + n ∧ (∀ d ∈ dims', 0 < d) ∧ r'.content = r.content ∧ r'.endian = r.endian := by
  induction n generalizing dims r with
  | zero =>
    obtain ⟨rfl, rfl⟩ := Prod.mk.inj (Except.ok.inj h)
    exact ⟨rfl, hpos, rfl, rfl⟩
  | succ n ih =>
    obtain ⟨⟨dims₁, r₁⟩, hfirst, h⟩ := bind_eq_ok.mp h
    obtain ⟨⟨dim, r₂⟩, hdim, hfirst⟩ := bind_eq_ok.mp hfirst
    obtain ⟨-, rfl⟩ := Reader.word_ok.mp hdim
    obtain ⟨_, hzero, hfirst⟩ := bind_eq_ok.mp hfirst
    obtain ⟨rfl, rfl⟩ := Prod.mk.inj (Except.ok.inj hfirst)
    have hdims : ∀ d ∈ dims ++ [dim], 0 < d := by
      intro d hd
      rcases List.mem_append.mp hd with hd | hd
      · exact hpos d hd
      · rw [List.mem_singleton.mp hd]
        exact Nat.pos_of_ne_zero (failIf_ok.mp hzero)
    obtain ⟨hlen, hall, hcontent, hendian⟩ := ih h hdims
    simp only [List.length_append, List.length_singleton] at hlen
    exact ⟨by omega, hall, hcontent, hendian⟩

theorem noPanic_sizeOf {dtype : GgmlType} {dims : List Nat} (h : dims ≠ []) : NoPanic (sizeOf dtype dims) := by
  cases dims with
  | nil => exact absurd rfl h
  | cons width dims => exact (noPanic_okOr _ _).bind fun _ _ => noPanic_okOr _ _

/-- The checks that a tensor of an open file has passed. -/
structure Checked (alignment : Nat) (name : String) (info : GgufTensorInfo) : Prop where
  name_eq : info.name = name
  nonempty : info.dimensions ≠ []
  positive : ∀ d ∈ info.dimensions, 0 < d
  size : sizeOf info.dtype info.dimensions = .ok info.byteLen
  aligned : alignment ∣ info.offset

theorem noPanic_readTensor {alignment : Nat} {state : TensorInfos × Reader} : NoPanic (readTensor alignment state) := by
  refine Reader.noPanic_string.bind fun _ _ => (noPanic_failIf _ _).bind fun _ _ => Reader.noPanic_word.bind fun head _ => ?_
  refine (noPanic_failIf _ _).bind fun _ hrank => NoPanic.bind ?_ fun dims hdims => ?_
  · intro h
    obtain ⟨_, _, _, _, h⟩ := times_panic.mp h
    exact noPanic_readDimension h
  refine Reader.noPanic_word.bind fun _ _ => (noPanic_okOr _ _).bind fun _ _ => NoPanic.bind ?_ fun _ _ => ?_
  · refine noPanic_sizeOf fun hnil => ?_
    have hlen := (times_readDimension hdims nofun).1
    have := not_not.mp (failIf_ok.mp hrank)
    rw [hnil, List.length_nil] at hlen
    omega
  · exact Reader.noPanic_word.bind fun _ _ => (noPanic_failIf _ _).bind fun _ _ => (noPanic_failIf _ _).bind fun _ _ => noPanic_ok _

theorem readTensor_ok {alignment : Nat} {tensors tensors' : TensorInfos}
    (h : readTensor alignment (tensors, r) = .ok (tensors', r')) :
    ∃ name info, Checked alignment name info ∧ tensors' = tensors.insert name info ∧ r'.content = r.content ∧
      r'.endian = r.endian := by
  obtain ⟨⟨name, r₁⟩, hname, h⟩ := bind_eq_ok.mp h
  obtain ⟨mid, -, rfl⟩ := Reader.string_ok.mp hname
  obtain ⟨_, -, h⟩ := bind_eq_ok.mp h
  obtain ⟨⟨rank, r₂⟩, hrank, h⟩ := bind_eq_ok.mp h
  obtain ⟨-, rfl⟩ := Reader.word_ok.mp hrank
  obtain ⟨_, hranks, h⟩ := bind_eq_ok.mp h
  obtain ⟨⟨dims, r₃⟩, hdims, h⟩ := bind_eq_ok.mp h
  obtain ⟨hlen, hpos, hcontent, hendian⟩ := times_readDimension hdims nofun
  obtain ⟨⟨id, r₄⟩, hid, h⟩ := bind_eq_ok.mp h
  obtain ⟨-, rfl⟩ := Reader.word_ok.mp hid
  obtain ⟨dtype, -, h⟩ := bind_eq_ok.mp h
  obtain ⟨byteLen, hsize, h⟩ := bind_eq_ok.mp h
  obtain ⟨⟨offset, r₅⟩, hoffset, h⟩ := bind_eq_ok.mp h
  obtain ⟨-, rfl⟩ := Reader.word_ok.mp hoffset
  obtain ⟨_, haligned, h⟩ := bind_eq_ok.mp h
  obtain ⟨_, -, h⟩ := bind_eq_ok.mp h
  obtain ⟨rfl, rfl⟩ := Prod.mk.inj (Except.ok.inj h)
  refine ⟨name, ⟨name, dims, dtype, offset, byteLen⟩, ⟨rfl, fun hnil => ?_, hpos, hsize, ?_⟩, rfl, hcontent, hendian⟩
  · have := not_not.mp (failIf_ok.mp hranks)
    rw [show dims = [] from hnil] at hlen
    simp only [List.length_nil] at hlen
    omega
  · exact Nat.dvd_of_mod_eq_zero (not_not.mp (failIf_ok.mp haligned))

theorem times_readTensor {alignment : Nat} {tensors : TensorInfos}
    (h : times (readTensor alignment) n (∅, r) = .ok (tensors, r')) :
    (∀ name info, tensors[name]? = some info → Checked alignment name info) ∧ r'.content = r.content ∧ r'.endian = r.endian := by
  refine times_keeps (P := fun state : TensorInfos × Reader =>
    (∀ name info, state.1[name]? = some info → Checked alignment name info) ∧ state.2.content = r.content ∧
      state.2.endian = r.endian) ?_ ⟨fun name info h => ?_, rfl, rfl⟩ h
  · rintro ⟨tensors, r₁⟩ ⟨tensors', r₂⟩ ⟨hchecked, hcontent, hendian⟩ hstep
    obtain ⟨name, info, hinfo, rfl, hcontent', hendian'⟩ := readTensor_ok hstep
    refine ⟨fun name' info' h => ?_, hcontent'.trans hcontent, hendian'.trans hendian⟩
    rw [Std.ExtTreeMap.getElem?_insert] at h
    split at h
    · next heq =>
      rw [Std.LawfulEqCmp.compare_eq_iff_eq] at heq
      rw [← heq, ← Option.some.inj h]
      exact hinfo
    · exact hchecked name' info' h
  · simp at h

theorem noPanic_intervalOf {len dataOffset : Nat} {info : GgufTensorInfo} : NoPanic (intervalOf len dataOffset info) :=
  (noPanic_okOr _ _).bind fun _ _ => (noPanic_okOr _ _).bind fun _ _ => (noPanic_failIf _ _).bind fun _ _ => noPanic_ok _

-- Opening

theorem openFile_panic (path : String) : openFile stack path content = .error .panic ↔ TooDeep stack content := by
  have hrest : ∀ (metadata : Metadata) (r : Reader) (tensorsCount : Nat) (make : Nat → TensorInfos → Reader → GgufFile),
      NoPanic (do
        let alignment ← alignmentOf metadata
        let tensorsCount ← r.count tensorsCount 32
        let t ← times (readTensor alignment) tensorsCount (∅, r)
        let dataOffset ← dataOffsetOf t.2.pos alignment
        let intervals ← (values t.1).mapM (intervalOf content.length dataOffset)
        failIf (overlapping (sortIntervals intervals)) (GgufError.invalid "overlapping GGUF tensor ranges")
        pure (make dataOffset t.1 t.2)) := by
    intro metadata r tensorsCount make
    refine noPanic_alignmentOf.bind fun _ _ => Reader.noPanic_count.bind fun _ _ => NoPanic.bind ?_ fun _ _ => ?_
    · intro h
      obtain ⟨_, _, _, _, h⟩ := times_panic.mp h
      exact noPanic_readTensor h
    · exact ((noPanic_okOr _ _).bind fun _ _ => noPanic_ok _).bind fun _ _ =>
        (noPanic_mapM fun _ _ => noPanic_intervalOf).bind fun _ _ => (noPanic_failIf _ _).bind fun _ _ => noPanic_ok _
  unfold openFile
  constructor
  · intro h
    obtain ⟨⟨version, r⟩, hhead, h⟩ := (bind_eq_panic.mp h).resolve_left noPanic_readHead
    obtain ⟨endian, hat, rfl⟩ := readHead_ok.mp hhead
    obtain ⟨⟨tensorsCount, r₁⟩, htensors, h⟩ := (bind_eq_panic.mp h).resolve_left Reader.noPanic_word
    obtain ⟨-, rfl⟩ := Reader.word_ok.mp htensors
    obtain ⟨⟨count, r₂⟩, hcount, h⟩ := (bind_eq_panic.mp h).resolve_left Reader.noPanic_word
    obtain ⟨hword, rfl⟩ := Reader.word_ok.mp hcount
    obtain ⟨count', hchecked, h⟩ := (bind_eq_panic.mp h).resolve_left Reader.noPanic_count
    obtain ⟨hle, rfl⟩ := Reader.count_ok.mp hchecked
    rcases bind_eq_panic.mp h with h | ⟨⟨metadata, r₃⟩, -, h⟩
    · exact ⟨version, endian, count, hat, hword, hle, times_readEntry_panic.mp h⟩
    · exact absurd h (hrest metadata r₃ tensorsCount fun dataOffset tensors r =>
        { path, version, endian := r.endian, metadata, tensors, dataOffset, file := content })
  · rintro ⟨version, endian, count, hat, hword, hle, hover⟩
    have hlen : 24 ≤ content.length := by
      obtain ⟨b, hget, -⟩ := hword
      exact (getRange_some.mp hget).2.1
    obtain ⟨b, hget⟩ : ∃ b, getRange content 8 16 = some b := ⟨_, getRange_some.mpr ⟨by omega, by omega, rfl⟩⟩
    refine bind_eq_panic.mpr (.inr ⟨_, readHead_ok.mpr ⟨endian, hat, rfl⟩, ?_⟩)
    refine bind_eq_panic.mpr (.inr ⟨_, Reader.word_ok.mpr ⟨⟨b, hget, rfl⟩, rfl⟩, ?_⟩)
    refine bind_eq_panic.mpr (.inr ⟨_, Reader.word_ok.mpr ⟨hword, rfl⟩, ?_⟩)
    refine bind_eq_panic.mpr (.inr ⟨_, Reader.count_ok.mpr ⟨hle, rfl⟩, ?_⟩)
    exact bind_eq_panic.mpr (.inl (times_readEntry_panic.mpr hover))

/-- What opening a file leaves behind. -/
structure Opened (f : GgufFile) (content : List UInt8) (alignment : Nat) : Prop where
  file : f.file = content
  declared : alignmentOf f.metadata = .ok alignment
  checked : ∀ name info, f.tensors[name]? = some info → Checked alignment name info
  start : ∃ pos, dataOffsetOf pos alignment = .ok f.dataOffset
  intervals : ∃ intervals, (values f.tensors).mapM (intervalOf content.length f.dataOffset) = .ok intervals ∧
    overlapping (sortIntervals intervals) = false

theorem openFile_ok {path : String} {f : GgufFile} (h : openFile stack path content = .ok f) :
    ∃ alignment, Opened f content alignment := by
  obtain ⟨⟨version, r⟩, -, h⟩ := bind_eq_ok.mp h
  obtain ⟨⟨tensorsCount, r₁⟩, -, h⟩ := bind_eq_ok.mp h
  obtain ⟨⟨count, r₂⟩, -, h⟩ := bind_eq_ok.mp h
  obtain ⟨count', -, h⟩ := bind_eq_ok.mp h
  obtain ⟨⟨metadata, r₃⟩, -, h⟩ := bind_eq_ok.mp h
  obtain ⟨alignment, halignment, h⟩ := bind_eq_ok.mp h
  obtain ⟨tensorsCount', -, h⟩ := bind_eq_ok.mp h
  obtain ⟨⟨tensors, r₄⟩, htensors, h⟩ := bind_eq_ok.mp h
  obtain ⟨dataOffset, hstart, h⟩ := bind_eq_ok.mp h
  obtain ⟨intervals, hintervals, h⟩ := bind_eq_ok.mp h
  obtain ⟨_, hoverlap, h⟩ := bind_eq_ok.mp h
  obtain rfl := Except.ok.inj h
  exact ⟨alignment, rfl, halignment, (times_readTensor htensors).1, ⟨_, hstart⟩,
    ⟨intervals, hintervals, Bool.eq_false_iff.mpr (failIf_ok.mp hoverlap)⟩⟩

end GgufFile

end Ruda.Gguf
