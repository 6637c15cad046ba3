import Ruda.Lib.Chunks
import Ruda.Rank.Protocol

/-!
# Frames and their bytes

Encoding and decoding are inverse to each other on the frames that pass validation, and the
counts in front of the data of an all-to-all are read as they were written.
-/

namespace Ruda.Rank

-- Fields of a buffer

theorem leBytes_leValue (s : List UInt8) : leBytes s.length (leValue s) = s := by
  induction s with
  | nil => rfl
  | cons b s ih =>
    have hb : b.toNat < 256 := b.toNat_lt
    have hdiv : (b.toNat + 256 * leValue s) / 256 = leValue s := by omega
    have hlow : UInt8.ofNat (b.toNat + 256 * leValue s) = b := by
      apply UInt8.toNat_inj.mp
      rw [UInt8.toNat_ofNat']
      omega
    rw [List.length_cons, leValue, leBytes, hdiv, ih, hlow]

variable {bytes : List UInt8} {offset n : Nat}

theorem length_field (h : offset + n ≤ bytes.length) : (field bytes offset n).length = n := by
  rw [field, List.length_take, List.length_drop]
  omega

theorem field_join (bytes : List UInt8) {i n j m k : Nat} (hj : i + n = j) (hk : n + m = k) :
    field bytes i n ++ field bytes j m = field bytes i k := by
  rw [field, field, field, ← hk, ← hj, List.take_add, List.drop_drop]

theorem field_one (h : offset < bytes.length) : field bytes offset 1 = [bytes.getD offset 0] := by
  rw [field, List.drop_eq_getElem_cons h, List.take_succ_cons, List.take_zero, List.getD_eq_getElem _ _ h]

theorem getU16_eq {v : UInt16} (h : field bytes offset 2 = leBytes 2 v.toNat) : getU16 bytes offset = v := by
  rw [getU16, h, leValue_leBytes (lt_of_lt_of_eq v.toNat_lt (by decide)), UInt16.ofNat_toNat]

theorem getU32_eq {v : UInt32} (h : field bytes offset 4 = leBytes 4 v.toNat) : getU32 bytes offset = v := by
  rw [getU32, h, leValue_leBytes (lt_of_lt_of_eq v.toNat_lt (by decide)), UInt32.ofNat_toNat]

theorem getU64_eq {v : UInt64} (h : field bytes offset 8 = leBytes 8 v.toNat) : getU64 bytes offset = v := by
  rw [getU64, h, leValue_leBytes (lt_of_lt_of_eq v.toNat_lt (by decide)), UInt64.ofNat_toNat]

theorem leBytes_field {v : Nat} (h : offset + n ≤ bytes.length) (hv : v = leValue (field bytes offset n) % 256 ^ n) :
    leBytes n v = field bytes offset n := by
  have hlt := leValue_lt (field bytes offset n)
  rw [length_field h] at hlt
  have hbytes := leBytes_leValue (field bytes offset n)
  rw [length_field h] at hbytes
  rw [hv, Nat.mod_eq_of_lt hlt, hbytes]

theorem leBytes_getU16 (h : offset + 2 ≤ bytes.length) : leBytes 2 (getU16 bytes offset).toNat = field bytes offset 2 :=
  leBytes_field h UInt16.toNat_ofNat'

theorem leBytes_getU32 (h : offset + 4 ≤ bytes.length) : leBytes 4 (getU32 bytes offset).toNat = field bytes offset 4 :=
  leBytes_field h UInt32.toNat_ofNat'

theorem leBytes_getU64 (h : offset + 8 ≤ bytes.length) : leBytes 8 (getU64 bytes offset).toNat = field bytes offset 8 :=
  leBytes_field h UInt64.toNat_ofNat'

-- Headers

namespace FrameHeader

variable {checksum : List UInt8 → UInt32} {h : FrameHeader}

theorem length_bytes (h : FrameHeader) : h.bytes.length = frameHeaderBytes := by
  simp only [bytes, protocolMagic, List.length_append, List.length_cons, List.length_nil, leBytes_length, h.uniqueId.length_eq]
  rfl

theorem validate_none : h.validate checksum none = .ok () ↔ h.validateHeader = .ok () := by
  rw [validate, bind_eq_ok]
  exact ⟨fun ⟨_, hok, _⟩ => hok, fun hok => ⟨(), hok, rfl⟩⟩

theorem validate_some {payload : List UInt8} : h.validate checksum (some payload) = .ok () ↔
    h.validateHeader = .ok () ∧ payload.length = h.payloadBytes.toNat ∧ checksum payload = h.payloadChecksum := by
  constructor
  · intro hok
    obtain ⟨_, hheader, hok⟩ := bind_eq_ok.mp hok
    obtain ⟨_, hlen, hsum⟩ := bind_eq_ok.mp hok
    exact ⟨hheader, not_not.mp (failIf_ok.mp hlen), not_not.mp (failIf_ok.mp hsum)⟩
  · rintro ⟨hheader, hlen, hsum⟩
    exact bind_eq_ok.mpr ⟨(), hheader, bind_eq_ok.mpr ⟨(), failIf_ok.mpr (not_not.mpr hlen), failIf_ok.mpr (not_not.mpr hsum)⟩⟩

theorem payloadBytes_le (hok : h.validateHeader = .ok ()) : h.payloadBytes.toNat ≤ maxFramePayloadBytes := by
  obtain ⟨_, -, hok⟩ := bind_eq_ok.mp hok
  obtain ⟨_, -, hok⟩ := bind_eq_ok.mp hok
  obtain ⟨_, -, hok⟩ := bind_eq_ok.mp hok
  obtain ⟨_, -, hok⟩ := bind_eq_ok.mp hok
  obtain ⟨_, -, hok⟩ := bind_eq_ok.mp hok
  obtain ⟨_, -, hok⟩ := bind_eq_ok.mp hok
  obtain ⟨_, -, hok⟩ := bind_eq_ok.mp hok
  obtain ⟨_, hmax, -⟩ := bind_eq_ok.mp hok
  exact not_lt.mp (failIf_ok.mp hmax)

theorem drop_uniqueId (h : FrameHeader) (rest : List UInt8) :
    (h.bytes ++ rest).drop 60 = h.uniqueId.bytes ++ (leBytes 4 h.payloadChecksum.toNat ++ rest) := by
  change (h.uniqueId.bytes ++ leBytes 4 h.payloadChecksum.toNat) ++ rest = _
  exact List.append_assoc _ _ _

theorem fields_bytes (h : FrameHeader) (rest : List UInt8) (hlen : frameHeaderBytes ≤ (h.bytes ++ rest).length) :
    fields (h.bytes ++ rest) hlen h.opcode h.elementType = h := by
  have hid : field (h.bytes ++ rest) 60 16 = h.uniqueId.bytes := by
    rw [field, drop_uniqueId, List.take_left' h.uniqueId.length_eq]
  have hsum : field (h.bytes ++ rest) 76 4 = leBytes 4 h.payloadChecksum.toNat := by
    have hdrop : (h.bytes ++ rest).drop 76 = leBytes 4 h.payloadChecksum.toNat ++ rest := by
      rw [show 76 = 60 + 16 from rfl, ← List.drop_drop, drop_uniqueId, List.drop_left' h.uniqueId.length_eq]
    rw [field, hdrop, List.take_left' (leBytes_length _ _)]
  apply FrameHeader.ext
  · rfl
  · rfl
  · exact getU16_eq rfl
  · exact getU32_eq rfl
  · exact getU32_eq rfl
  · exact getU32_eq rfl
  · exact getU32_eq rfl
  · exact getU64_eq rfl
  · exact getU64_eq rfl
  · exact getU64_eq rfl
  · exact getU64_eq rfl
  · exact UniqueId.ext hid
  · exact getU32_eq hsum

theorem decode_bytes (hok : h.validateHeader = .ok ()) (rest : List UInt8) : decode checksum (h.bytes ++ rest) = .ok h := by
  have hlen : frameHeaderBytes ≤ (h.bytes ++ rest).length := by
    rw [List.length_append, length_bytes]
    exact Nat.le_add_right _ _
  have hversion : getU16 (h.bytes ++ rest) 4 = protocolVersion := getU16_eq rfl
  have hsize : getU16 (h.bytes ++ rest) 6 = 80 := getU16_eq rfl
  rw [decode, dif_pos hlen]
  refine bind_eq_ok.mpr ⟨(), failIf_ok.mpr (not_not.mpr rfl), ?_⟩
  refine bind_eq_ok.mpr ⟨(), failIf_ok.mpr (not_not.mpr hversion), ?_⟩
  refine bind_eq_ok.mpr ⟨(), failIf_ok.mpr (not_not.mpr (by rw [hsize]; rfl)), ?_⟩
  refine bind_eq_ok.mpr ⟨h.opcode, Opcode.tryFrom_code h.opcode, ?_⟩
  refine bind_eq_ok.mpr ⟨h.elementType, ElementType.tryFrom_code h.elementType, ?_⟩
  rw [fields_bytes]
  exact bind_eq_ok.mpr ⟨(), validate_none.mpr hok, rfl⟩

theorem bytes_of_decode {b : List UInt8} (hdec : decode checksum b = .ok h) :
    frameHeaderBytes ≤ b.length ∧ h.bytes = b.take frameHeaderBytes ∧ h.validateHeader = .ok () := by
  unfold decode at hdec
  split at hdec
  · next hlen =>
    obtain ⟨_, hmagic, hdec⟩ := bind_eq_ok.mp hdec
    obtain ⟨_, hversion, hdec⟩ := bind_eq_ok.mp hdec
    obtain ⟨_, hsize, hdec⟩ := bind_eq_ok.mp hdec
    obtain ⟨opcode, hopcode, hdec⟩ := bind_eq_ok.mp hdec
    obtain ⟨elementType, htype, hdec⟩ := bind_eq_ok.mp hdec
    obtain ⟨_, hok, hdec⟩ := bind_eq_ok.mp hdec
    obtain rfl := Except.ok.inj hdec
    refine ⟨hlen, ?_, validate_none.mp hok⟩
    have hlen : 80 ≤ b.length := hlen
    have hmagic : protocolMagic = field b 0 4 := (not_not.mp (failIf_ok.mp hmagic)).symm
    have hversion : leBytes 2 protocolVersion.toNat = field b 4 2 := by
      rw [← not_not.mp (failIf_ok.mp hversion), leBytes_getU16 (by omega)]
    have hsize : leBytes 2 frameHeaderBytes = field b 6 2 := by
      rw [← not_not.mp (failIf_ok.mp hsize), leBytes_getU16 (by omega)]
    have hopcode : [opcode.code] = field b 8 1 := by
      rw [field_one (by omega), Opcode.code_of_tryFrom hopcode]
    have htype : [elementType.code] = field b 9 1 := by
      rw [field_one (by omega), ElementType.code_of_tryFrom htype]
    have hbytes : (fields b hlen opcode elementType).bytes =
        field b 0 4 ++ (field b 4 2 ++ (field b 6 2 ++ (field b 8 1 ++ (field b 9 1 ++ (field b 10 2 ++ (field b 12 4 ++
        (field b 16 4 ++ (field b 20 4 ++ (field b 24 4 ++ (field b 28 8 ++ (field b 36 8 ++ (field b 44 8 ++ (field b 52 8 ++
        (field b 60 16 ++ field b 76 4)))))))))))))) := by
      rw [← hmagic, ← hversion, ← hsize, ← hopcode, ← htype, ← leBytes_getU16 (by omega), ← leBytes_getU32 (by omega),
        ← leBytes_getU32 (by omega), ← leBytes_getU32 (by omega), ← leBytes_getU32 (by omega), ← leBytes_getU64 (by omega),
        ← leBytes_getU64 (by omega), ← leBytes_getU64 (by omega), ← leBytes_getU64 (by omega), ← leBytes_getU32 (by omega)]
      rfl
    rw [hbytes, field_join b (i := 60) (k := 20) rfl rfl, field_join b (i := 52) (k := 28) rfl rfl,
      field_join b (i := 44) (k := 36) rfl rfl, field_join b (i := 36) (k := 44) rfl rfl,
      field_join b (i := 28) (k := 52) rfl rfl, field_join b (i := 24) (k := 56) rfl rfl,
      field_join b (i := 20) (k := 60) rfl rfl, field_join b (i := 16) (k := 64) rfl rfl,
      field_join b (i := 12) (k := 68) rfl rfl, field_join b (i := 10) (k := 70) rfl rfl,
      field_join b (i := 9) (k := 71) rfl rfl, field_join b (i := 8) (k := 72) rfl rfl,
      field_join b (i := 6) (k := 74) rfl rfl, field_join b (i := 4) (k := 76) rfl rfl,
      field_join b (i := 0) (k := 80) rfl rfl]
    rfl
  · cases hdec

end FrameHeader

-- Frames

namespace Frame

variable {checksum : List UInt8 → UInt32} {f : Frame}

/-- The header is that of the payload. -/
def Valid (checksum : List UInt8 → UInt32) (f : Frame) : Prop := f.header.validate checksum (some f.payload) = .ok ()

theorem valid_of_new {header : FrameHeader} {payload : List UInt8} (hnew : new checksum header payload = .ok f) :
    f.Valid checksum := by
  unfold new at hnew
  split at hnew
  · next hempty =>
    obtain ⟨_, hok, hnew⟩ := bind_eq_ok.mp hnew
    obtain rfl := Except.ok.inj hnew
    exact hok
  · obtain ⟨header', hwith, hnew⟩ := bind_eq_ok.mp hnew
    obtain rfl := Except.ok.inj hnew
    obtain ⟨_, hmax, hwith⟩ := bind_eq_ok.mp hwith
    obtain ⟨_, hok, hwith⟩ := bind_eq_ok.mp hwith
    obtain rfl := Except.ok.inj hwith
    have hmax : payload.length ≤ maxFramePayloadBytes := not_lt.mp (failIf_ok.mp hmax)
    have hlt : payload.length < 2 ^ 64 := lt_of_le_of_lt hmax (by decide)
    exact FrameHeader.validate_some.mpr ⟨FrameHeader.validate_none.mp hok, (UInt64.toNat_ofNat_of_lt' hlt).symm, rfl⟩

theorem encode_eq (hf : f.Valid checksum) : f.encode checksum = .ok (f.header.bytes ++ f.payload) := by
  have hheader := (@FrameHeader.validate_none checksum f.header).mpr (FrameHeader.validate_some.mp hf).1
  exact bind_eq_ok.mpr ⟨(), hf, bind_eq_ok.mpr ⟨_, bind_eq_ok.mpr ⟨(), hheader, rfl⟩, rfl⟩⟩

theorem encodeTransportHeader_eq (hf : f.Valid checksum) : f.encodeTransportHeader checksum = .ok f.header.bytes := by
  obtain ⟨hheader, hlen, -⟩ := FrameHeader.validate_some.mp hf
  exact bind_eq_ok.mpr ⟨(), failIf_ok.mpr (not_not.mpr hlen),
    bind_eq_ok.mpr ⟨(), FrameHeader.validate_none.mpr hheader, rfl⟩⟩

theorem decode_eq (hf : f.Valid checksum) : decode checksum (f.header.bytes ++ f.payload) = .ok f := by
  obtain ⟨hheader, hlen, -⟩ := FrameHeader.validate_some.mp hf
  have hsize : frameHeaderBytes + f.header.payloadBytes.toNat ≤ u64Max :=
    (Nat.add_le_add_left (FrameHeader.payloadBytes_le hheader) _).trans (by decide)
  have hdrop : (f.header.bytes ++ f.payload).drop frameHeaderBytes = f.payload :=
    List.drop_left' f.header.length_bytes
  refine bind_eq_ok.mpr ⟨f.header, FrameHeader.decode_bytes hheader f.payload, ?_⟩
  refine bind_eq_ok.mpr ⟨_, okOr_ok.mpr (checkedAdd_of_le hsize), ?_⟩
  refine bind_eq_ok.mpr ⟨(), failIf_ok.mpr (not_not.mpr ?_), ?_⟩
  · rw [List.length_append, FrameHeader.length_bytes, hlen]
  · rw [hdrop]
    exact bind_eq_ok.mpr ⟨(), hf, rfl⟩

theorem of_decode {b : List UInt8} (hdec : decode checksum b = .ok f) :
    f.Valid checksum ∧ f.header.bytes ++ f.payload = b := by
  obtain ⟨header, hheader, hdec⟩ := bind_eq_ok.mp hdec
  obtain ⟨expected, -, hdec⟩ := bind_eq_ok.mp hdec
  obtain ⟨_, -, hdec⟩ := bind_eq_ok.mp hdec
  obtain ⟨_, hok, hdec⟩ := bind_eq_ok.mp hdec
  obtain rfl := Except.ok.inj hdec
  obtain ⟨-, hbytes, -⟩ := FrameHeader.bytes_of_decode hheader
  exact ⟨hok, by rw [hbytes, List.take_append_drop]⟩

end Frame

-- Counts

theorem encodeCounts_words {head : List UInt8} {n : Nat} (h : head.length = n * 8) : encodeCounts (words head n) = head := by
  have hword : ∀ i ∈ List.range n, leBytes 8 (UInt64.ofNat (readWord 8 head i)).toNat = chunk 8 head i := by
    intro i hi
    have hi := List.mem_range.mp hi
    exact @leBytes_getU64 head (i * 8) (by omega)
  rw [encodeCounts, words, wordsBytes, List.map_map, List.flatMap_def, List.map_map]
  change ((List.range n).map fun i => leBytes 8 (UInt64.ofNat (readWord 8 head i)).toNat).flatten = head
  rw [List.map_congr_left hword, flatten_chunks_take, ← h, List.take_length]

theorem slice_of_le {ε : Type} {b : List UInt8} {start stop : Nat} (hstart : start ≤ stop) (hstop : stop ≤ b.length) :
    (slice b start stop : Ruda.Res ε _) = .ok ((b.drop start).take (stop - start)) :=
  slice_ok.mpr (getRange_some.mpr ⟨hstart, hstop, rfl⟩)

variable (response : Frame) (worldSize elementBytes : Nat)

theorem noPanic_decodeCountsResponse : NoPanic (decodeCountsResponse response worldSize elementBytes) := by
  refine (noPanic_failIf _ _).bind fun _ _ => (noPanic_okOr _ _).bind fun prefixBytes _ => ?_
  refine (noPanic_failIf _ _).bind fun _ hlen => ?_
  have hlen : prefixBytes ≤ response.payload.length := not_lt.mp (failIf_ok.mp hlen)
  rw [slice_of_le (Nat.zero_le _) hlen, ok_bind]
  refine (noPanic_okOr _ _).bind fun total _ => (noPanic_failIf _ _).bind fun _ _ => ?_
  rw [slice_of_le hlen le_rfl, ok_bind]
  exact (noPanic_okOr _ _).bind fun expected _ => (noPanic_failIf _ _).bind fun _ _ => noPanic_ok _

variable {response worldSize elementBytes}

theorem decodeCountsResponse_ok {counts : List UInt64} {data : List UInt8}
    (h : decodeCountsResponse response worldSize elementBytes = .ok (counts, data)) :
    counts.length = worldSize ∧ encodeCounts counts ++ data = response.payload := by
  obtain ⟨_, -, h⟩ := bind_eq_ok.mp h
  obtain ⟨prefixBytes, hprefix, h⟩ := bind_eq_ok.mp h
  obtain ⟨-, rfl⟩ := checkedMul_eq_some.mp (okOr_ok.mp hprefix)
  obtain ⟨_, hlen, h⟩ := bind_eq_ok.mp h
  have hlen : worldSize * 8 ≤ response.payload.length := not_lt.mp (failIf_ok.mp hlen)
  rw [slice_of_le (Nat.zero_le _) hlen, ok_bind] at h
  obtain ⟨total, -, h⟩ := bind_eq_ok.mp h
  obtain ⟨_, -, h⟩ := bind_eq_ok.mp h
  rw [slice_of_le hlen le_rfl, ok_bind] at h
  obtain ⟨expected, -, h⟩ := bind_eq_ok.mp h
  obtain ⟨_, -, h⟩ := bind_eq_ok.mp h
  obtain ⟨rfl, rfl⟩ := Prod.mk.inj (Except.ok.inj h)
  have hhead : ((response.payload.drop 0).take (worldSize * 8 - 0)).length = worldSize * 8 := by
    rw [List.drop_zero, Nat.sub_zero, List.length_take, min_eq_left hlen]
  rw [hhead, Nat.mul_div_cancel _ (by decide), encodeCounts_words hhead, words, List.length_map, List.length_range]
  refine ⟨rfl, ?_⟩
  rw [List.drop_zero, Nat.sub_zero, ← List.length_drop, List.take_length, List.take_append_drop]

/-- Frames that pass validation are what their bytes decode to, and the counts of a response are the bytes before its data. -/
theorem Frame.decode_encode (checksum : List UInt8 → UInt32) :
    (∀ header payload f, Frame.new checksum header payload = .ok f → ∃ front bytes,
      f.encodeTransportHeader checksum = .ok front ∧ f.encode checksum = .ok bytes ∧ front ++ f.payload = bytes ∧
      Frame.decode checksum bytes = .ok f) ∧
    (∀ bytes f, Frame.decode checksum bytes = .ok f → f.encode checksum = .ok bytes) ∧
    ∀ f, f.header.validate checksum (some f.payload) = .ok () → f.header.opcode = .allToAllV →
      f.header.flags &&& flagCountsPrefix ≠ 0 →
      let answer := decodeCountsResponse f f.header.worldSize.toNat f.header.elementType.byteWidth
      NoPanic answer ∧ ∀ counts data, answer = .ok (counts, data) →
        counts.length = f.header.worldSize.toNat ∧ encodeCounts counts ++ data = f.payload := by
  refine ⟨fun header payload f hnew => ?_, fun bytes f hdec => ?_, fun f _ _ _ => ?_⟩
  · have hf := Frame.valid_of_new hnew
    exact ⟨_, _, Frame.encodeTransportHeader_eq hf, Frame.encode_eq hf, rfl, Frame.decode_eq hf⟩
  · obtain ⟨hf, hbytes⟩ := Frame.of_decode hdec
    rw [Frame.encode_eq hf, hbytes]
  · exact ⟨noPanic_decodeCountsResponse f _ _, fun counts data h => decodeCountsResponse_ok h⟩

-- Frames on a stream

inductive NetworkError
  | unexpectedEof
  | protocol (error : ProtocolError)
  deriving DecidableEq

namespace Frame

/-- `?` on a result of the protocol. -/
def lift {α : Type} : Res α → Ruda.Res NetworkError α
  | .ok a => .ok a
  | .error .panic => .error .panic
  | .error (.err error) => .error (.err (.protocol error))

/-- What `write_frame` puts on the stream if its first call takes `written` bytes. -/
def write (checksum : List UInt8 → UInt32) (f : Frame) (written : Nat) : Ruda.Res NetworkError (List UInt8) := do
  let header ← lift (f.encodeTransportHeader checksum)
  let taken := (header ++ f.payload).take written
  if written < header.length then pure (taken ++ header.drop written ++ f.payload)
  else if written < header.length + f.payload.length then pure (taken ++ f.payload.drop (written - header.length))
  else pure taken

/-- `read_frame`: a frame and what is left of the stream, or `None` where the stream ends. -/
def read (checksum : List UInt8 → UInt32) : List UInt8 → Ruda.Res NetworkError (Option (Frame × List UInt8))
  | [] => pure none
  | b :: stream => do
    failIf (stream.length < frameHeaderBytes - 1) .unexpectedEof
    let header ← lift (FrameHeader.decode checksum (b :: stream.take (frameHeaderBytes - 1)))
    let rest := stream.drop (frameHeaderBytes - 1)
    failIf (rest.length < header.payloadBytes.toNat) .unexpectedEof
    let payload := rest.take header.payloadBytes.toNat
    lift (header.validate checksum (some payload))
    pure (some (⟨header, payload⟩, rest.drop header.payloadBytes.toNat))

/-- The frames that are read from a stream one after the other, and the error of the last call, if it fails. -/
inductive Received (checksum : List UInt8 → UInt32) : List UInt8 → List Frame → Option NetworkError → Prop
  | closed {stream} (h : read checksum stream = .ok none) : Received checksum stream [] none
  | failed {stream error} (h : read checksum stream = .error (.err error)) : Received checksum stream [] (some error)
  | frame {stream f rest frames error} (h : read checksum stream = .ok (some (f, rest)))
      (more : Received checksum rest frames error) : Received checksum stream (f :: frames) error

def wire (f : Frame) : List UInt8 := f.header.bytes ++ f.payload

variable {checksum : List UInt8 → UInt32} {f : Frame} {frames : List Frame} {n k : Nat}

theorem write_eq (hf : f.Valid checksum) (written : Nat) : f.write checksum written = .ok f.wire := by
  rw [write, encodeTransportHeader_eq hf]
  simp only [lift, ok_bind, wire]
  split
  · next hlt =>
    rw [List.take_append_of_le_length hlt.le, List.take_append_drop]
    rfl
  · next hle =>
    split
    · rw [List.take_append, List.take_of_length_le (not_lt.mp hle), List.append_assoc, List.take_append_drop]
      rfl
    · next hall =>
      rw [List.take_of_length_le (by rw [List.length_append]; exact not_lt.mp hall)]
      rfl

theorem read_of_length_le {stream : List UInt8} (hlen : frameHeaderBytes ≤ stream.length) :
    read checksum stream = (do
      let header ← lift (FrameHeader.decode checksum (stream.take frameHeaderBytes))
      failIf ((stream.drop frameHeaderBytes).length < header.payloadBytes.toNat) .unexpectedEof
      lift (header.validate checksum (some ((stream.drop frameHeaderBytes).take header.payloadBytes.toNat)))
      pure (some (⟨header, (stream.drop frameHeaderBytes).take header.payloadBytes.toNat⟩,
        (stream.drop frameHeaderBytes).drop header.payloadBytes.toNat))) := by
  cases stream with
  | nil => exact absurd hlen (by decide)
  | cons b stream =>
    have hshort : ¬stream.length < frameHeaderBytes - 1 := by
      rw [List.length_cons] at hlen
      omega
    rw [read, failIf_ok.mpr hshort]
    rfl

theorem read_wire (hf : f.Valid checksum) (rest : List UInt8) : read checksum (f.wire ++ rest) = .ok (some (f, rest)) := by
  obtain ⟨hheader, hlen, -⟩ := FrameHeader.validate_some.mp hf
  have hfront : (f.wire ++ rest).take frameHeaderBytes = f.header.bytes ++ [] := by
    rw [wire, List.append_assoc, List.take_left' f.header.length_bytes, List.append_nil]
  have hback : (f.wire ++ rest).drop frameHeaderBytes = f.payload ++ rest := by
    rw [wire, List.append_assoc, List.drop_left' f.header.length_bytes]
  have hlong : frameHeaderBytes ≤ (f.wire ++ rest).length := by
    rw [wire, List.length_append, List.length_append, FrameHeader.length_bytes]
    omega
  rw [read_of_length_le hlong, hfront, hback, FrameHeader.decode_bytes hheader]
  simp only [lift, ok_bind]
  rw [failIf_ok.mpr (by rw [List.length_append, hlen]; omega), List.take_left' hlen, List.drop_left' hlen, hf]
  rfl

/-- A frame that is cut is not read. -/
theorem read_cut (hf : f.Valid checksum) (hpos : 0 < k) (hk : k < f.wire.length) :
    read checksum (f.wire.take k) = .error (.err .unexpectedEof) := by
  obtain ⟨hheader, hlen, -⟩ := FrameHeader.validate_some.mp hf
  have htake : (f.wire.take k).length = k := by
    rw [List.length_take, min_eq_left hk.le]
  by_cases hshort : k < frameHeaderBytes
  · cases hwire : f.wire.take k with
    | nil =>
      rw [hwire, List.length_nil] at htake
      omega
    | cons b stream =>
      rw [hwire, List.length_cons] at htake
      rw [read, failIf, if_pos (by omega)]
      rfl
  · have hfront : (f.wire.take k).take frameHeaderBytes = f.header.bytes ++ [] := by
      rw [List.take_take, min_eq_left (not_lt.mp hshort), wire, List.take_left' f.header.length_bytes, List.append_nil]
    rw [wire, List.length_append, FrameHeader.length_bytes, hlen] at hk
    rw [read_of_length_le (by omega), hfront, FrameHeader.decode_bytes hheader]
    simp only [lift, ok_bind]
    rw [failIf, if_pos (by rw [List.length_drop, htake]; omega)]
    rfl

/-- Where a stream of frames is cut: after whole frames, or inside the next one. -/
def Cut (frames : List Frame) (k n : Nat) (error : Option NetworkError) : Prop :=
  ((frames.take n).flatMap wire).length ≤ k ∧
  (error = none ∧ (n = frames.length ∨ ((frames.take n).flatMap wire).length = k) ∨
    error = some .unexpectedEof ∧ ((frames.take n).flatMap wire).length < k ∧ k < ((frames.take (n + 1)).flatMap wire).length)

theorem received_cut (hvalid : ∀ f ∈ frames, f.Valid checksum) (k : Nat) :
    ∃ n error, Received checksum ((frames.flatMap wire).take k) (frames.take n) error ∧ Cut frames k n error := by
  induction frames generalizing k with
  | nil => exact ⟨0, none, .closed (by rw [List.flatMap_nil, List.take_nil]; rfl), Nat.zero_le k, .inl ⟨rfl, .inl rfl⟩⟩
  | cons f frames ih =>
    obtain ⟨hf, hvalid⟩ := List.forall_mem_cons.mp hvalid
    rw [List.flatMap_cons]
    rcases Nat.lt_or_ge k f.wire.length with hlt | hge
    · rw [List.take_append_of_le_length hlt.le]
      rcases Nat.eq_zero_or_pos k with rfl | hpos
      · exact ⟨0, none, .closed rfl, Nat.zero_le 0, .inl ⟨rfl, .inr rfl⟩⟩
      · refine ⟨0, some .unexpectedEof, .failed (read_cut hf hpos hlt), Nat.zero_le k, .inr ⟨rfl, hpos, ?_⟩⟩
        simpa using hlt
    · obtain ⟨n, error, hreceived, hle, hcut⟩ := ih hvalid (k - f.wire.length)
      have hsize (m : Nat) : (((f :: frames).take (m + 1)).flatMap wire).length = f.wire.length + ((frames.take m).flatMap wire).length := by
        rw [List.take_succ_cons, List.flatMap_cons, List.length_append]
      refine ⟨n + 1, error, ?_, ?_, ?_⟩
      · rw [List.take_append, List.take_of_length_le hge]
        exact .frame (read_wire hf _) hreceived
      · rw [hsize]
        omega
      · rw [hsize, hsize, List.length_cons]
        rcases hcut with ⟨herror, hcut⟩ | ⟨herror, hcut⟩
        · exact .inl ⟨herror, by omega⟩
        · exact .inr ⟨herror, by omega⟩

end Frame

/-- A stream that is cut anywhere gives the whole frames before the cut, in the order in which they were written. -/
theorem Frame.stream_exact (checksum : List UInt8 → UInt32) (sends : List (Frame × Nat))
    (hvalid : ∀ s ∈ sends, s.1.header.validate checksum (some s.1.payload) = .ok ()) (k : Nat) :
    ∃ pieces, (sends.mapM fun s => s.1.write checksum s.2) = .ok pieces ∧
      pieces = sends.map (fun s => s.1.wire) ∧
      ∃ n error, Received checksum (pieces.flatten.take k) ((sends.map Prod.fst).take n) error ∧ Cut (sends.map Prod.fst) k n error := by
  have hpieces : (sends.mapM fun s => s.1.write checksum s.2) = .ok (sends.map fun s => s.1.wire) :=
    mapM_ok.mpr (List.forall₂_map_right_iff.mpr (List.forall₂_same.mpr fun s hs => write_eq (hvalid s hs) s.2))
  have hframes : ∀ f ∈ sends.map Prod.fst, f.Valid checksum := fun f hf => by
    obtain ⟨s, hs, rfl⟩ := List.mem_map.mp hf
    exact hvalid s hs
  obtain ⟨n, error, hreceived, hcut⟩ := received_cut hframes k
  refine ⟨_, hpieces, rfl, n, error, ?_, hcut⟩
  rwa [List.flatMap_map, List.flatMap_def] at hreceived

/-- One frame without a payload. -/
def emptyFrame : Frame where
  header := {
    opcode := .join
    elementType := .none
    flags := 0
    sourceRank := 0
    destinationRank := 0
    rootRank := 0
    worldSize := 1
    sequence := 0
    tag := 0
    elementCount := 0
    payloadBytes := 0
    uniqueId := ⟨List.replicate 16 7, rfl⟩
    payloadChecksum := 0 }
  payload := []

theorem Frame.stream_exact_two : ∃ pieces, ([(emptyFrame, 3), (emptyFrame, 80)].mapM fun s => s.1.write (fun _ => 0) s.2) = .ok pieces ∧
    pieces = [(emptyFrame, 3), (emptyFrame, 80)].map (fun s => s.1.wire) ∧
    ∃ n error, Received (fun _ => 0) (pieces.flatten.take 100) (([(emptyFrame, 3), (emptyFrame, 80)].map Prod.fst).take n) error ∧
      Cut ([(emptyFrame, 3), (emptyFrame, 80)].map Prod.fst) 100 n error :=
  Frame.stream_exact _ _ (by decide) 100

end Ruda.Rank
