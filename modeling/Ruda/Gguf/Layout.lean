import Ruda.Gguf.Reader

/-!
# What stands at a position of the file

The format, said of the bytes alone: which positions hold a word, a text, a value or an
entry of the metadata, and where it ends. A value nests in at most as many levels as are
given; one that overruns them has an array where no level is left, or an array of more
elements than a vector can hold. The reader reads exactly these.
-/

namespace Ruda.Gguf

section Bytes

variable (content : List UInt8) (endian : GgufEndian)

def WordAt (n pos v : Nat) : Prop := ∃ b, getRange content pos (pos + n) = some b ∧ endian.value b = v

def TextAt (pos : Nat) (s : String) (stop : Nat) : Prop :=
  ∃ n b, WordAt content endian 8 pos n ∧ getRange content (pos + 8) (pos + 8 + n) = some b ∧ decodeUtf8 b = some s ∧
    stop = pos + 8 + n

/-- The bytes of a value of a fixed width. -/
def scalarWidth (ty : Nat) : Option Nat :=
  if ty ∈ [0, 1, 7] then some 1
  else if ty ∈ [2, 3] then some 2
  else if ty ∈ [4, 5, 6] then some 4
  else if ty ∈ [10, 11, 12] then some 8
  else none

def ScalarAt (ty pos stop : Nat) : Prop :=
  if ty = 8 then ∃ s, TextAt content endian pos s stop
  else ∃ w v, scalarWidth ty = some w ∧ WordAt content endian w pos v ∧ (ty = 7 → v = 0 ∨ v = 1) ∧ stop = pos + w

def ArrayHeadAt (pos elementType count : Nat) : Prop :=
  ∃ least, WordAt content endian 4 pos elementType ∧ minimumBytes elementType = some least ∧
    WordAt content endian 8 (pos + 4) count ∧ count ≤ (content.length - (pos + 12)) / least

/-- `n` things, each where the one before it ends. -/
def Run (thing : Nat → Nat → Prop) : (n pos stop : Nat) → Prop
  | 0, pos, stop => stop = pos
  | n + 1, pos, stop => ∃ mid, thing pos mid ∧ Run thing n mid stop

def ValueAt : (levels ty pos stop : Nat) → Prop
  | 0, _, _, _ => False
  | levels + 1, ty, pos, stop =>
    if ty = 9 then ∃ elementType count, ArrayHeadAt content endian pos elementType count ∧ count * valueSize ≤ isizeMax ∧
      Run (ValueAt levels elementType) count (pos + 12) stop
    else ScalarAt content endian ty pos stop

/-- A value that takes one level more than there are, or an array too large to hold, stands
behind elements that are read. -/
def Overruns : (levels ty pos : Nat) → Prop
  | 0, _, _ => True
  | levels + 1, ty, pos => ty = 9 ∧ ∃ elementType count, ArrayHeadAt content endian pos elementType count ∧
      (isizeMax < count * valueSize ∨ ∃ k < count, ∃ mid,
        Run (ValueAt content endian levels elementType) k (pos + 12) mid ∧ Overruns levels elementType mid)

def ValidKey (key : String) : Prop := ¬(key.utf8ByteSize > u16Max ∨ ¬isAscii key)

def EntryAt (levels pos : Nat) (key : String) (stop : Nat) : Prop :=
  ∃ mid ty, TextAt content endian pos key mid ∧ ValidKey key ∧ WordAt content endian 4 mid ty ∧
    ValueAt content endian levels ty (mid + 4) stop

def EntriesAt (levels : Nat) : List String → (pos stop : Nat) → Prop
  | [], pos, stop => stop = pos
  | key :: keys, pos, stop => ∃ mid, EntryAt content endian levels pos key mid ∧ EntriesAt levels keys mid stop

/-- The magic, and a version with the order that it is written in. -/
def HeadAt (version : Nat) : Prop :=
  ∃ b, getRange content 0 4 = some "GGUF".toUTF8.toList ∧ getRange content 4 8 = some b ∧
    if leValue b = 2 ∨ leValue b = 3 then version = leValue b ∧ endian = .little
    else version = 3 ∧ leValue b.reverse = 3 ∧ endian = .big

end Bytes

/-- Behind some entries of the metadata, with keys that differ, stands an entry whose value
overruns the levels. -/
def TooDeep (levels : Nat) (content : List UInt8) : Prop :=
  ∃ version endian count, HeadAt content endian version ∧ WordAt content endian 8 16 count ∧
    count ≤ (content.length - 24) / 12 ∧ ∃ keys : List String, keys.length < count ∧ keys.Nodup ∧
    ∃ pos key mid ty, EntriesAt content endian levels keys 24 pos ∧ TextAt content endian pos key mid ∧ ValidKey key ∧
      WordAt content endian 4 mid ty ∧ Overruns content endian levels ty (mid + 4)

namespace Reader

/-- The reader moved to a position. -/
def seek (r : Reader) (pos : Nat) : Reader := { r with pos }

variable {r r' : Reader} {n v : Nat}

@[simp] theorem seek_content : (r.seek n).content = r.content := rfl
@[simp] theorem seek_endian : (r.seek n).endian = r.endian := rfl
@[simp] theorem seek_pos : (r.seek n).pos = n := rfl
@[simp] theorem seek_seek {m : Nat} : (r.seek n).seek m = r.seek m := rfl

theorem bytes_ok {b : List UInt8} : r.bytes n = .ok (b, r') ↔
    getRange r.content r.pos (r.pos + n) = some b ∧ r' = r.seek (r.pos + n) := by
  unfold bytes
  cases getRange r.content r.pos (r.pos + n) with
  | none => exact ⟨nofun, nofun⟩
  | some b' =>
    constructor
    · intro h
      obtain ⟨rfl, rfl⟩ := Prod.mk.inj (Except.ok.inj h)
      exact ⟨rfl, rfl⟩
    · rintro ⟨hb, rfl⟩
      rw [Option.some.inj hb]
      rfl

theorem word_ok : r.word n = .ok (v, r') ↔ WordAt r.content r.endian n r.pos v ∧ r' = r.seek (r.pos + n) := by
  unfold word
  rw [bind_eq_ok]
  constructor
  · rintro ⟨⟨b, r₁⟩, hb, h⟩
    obtain ⟨hget, rfl⟩ := bytes_ok.mp hb
    obtain ⟨rfl, rfl⟩ := Prod.mk.inj (Except.ok.inj h)
    exact ⟨⟨b, hget, rfl⟩, rfl⟩
  · rintro ⟨⟨b, hget, rfl⟩, rfl⟩
    exact ⟨_, bytes_ok.mpr ⟨hget, rfl⟩, rfl⟩

theorem count_ok {least : Nat} {c : Nat} :
    r.count n least = .ok c ↔ n ≤ (r.content.length - r.pos) / least ∧ n = c := by
  unfold count
  rw [bind_eq_ok]
  constructor
  · rintro ⟨_, h, hc⟩
    exact ⟨not_lt.mp (failIf_ok.mp h), Except.ok.inj hc⟩
  · rintro ⟨h, rfl⟩
    exact ⟨(), failIf_ok.mpr (not_lt.mpr h), rfl⟩

theorem string_ok {s : String} :
    r.string = .ok (s, r') ↔ ∃ stop, TextAt r.content r.endian r.pos s stop ∧ r' = r.seek stop := by
  unfold string
  rw [bind_eq_ok]
  constructor
  · rintro ⟨⟨n, r₁⟩, hn, h⟩
    obtain ⟨hword, rfl⟩ := word_ok.mp hn
    obtain ⟨c, hc, h⟩ := bind_eq_ok.mp h
    obtain ⟨-, rfl⟩ := count_ok.mp hc
    obtain ⟨⟨b, r₂⟩, hb, h⟩ := bind_eq_ok.mp h
    obtain ⟨hget, rfl⟩ := bytes_ok.mp hb
    obtain ⟨s', hs, h⟩ := bind_eq_ok.mp h
    obtain ⟨rfl, rfl⟩ := Prod.mk.inj (Except.ok.inj h)
    exact ⟨_, ⟨_, b, hword, hget, okOr_ok.mp hs, rfl⟩, rfl⟩
  · rintro ⟨stop, ⟨n, b, hword, hget, hs, rfl⟩, rfl⟩
    refine ⟨_, word_ok.mpr ⟨hword, rfl⟩, bind_eq_ok.mpr ⟨n, count_ok.mpr ⟨?_, rfl⟩, ?_⟩⟩
    · -- the count is checked for what the read needs anyway
      have hle := (getRange_some.mp hget).2.1
      rw [Nat.div_one]
      show n ≤ r.content.length - (r.pos + 8)
      omega
    · exact bind_eq_ok.mpr ⟨_, bytes_ok.mpr ⟨hget, rfl⟩, bind_eq_ok.mpr ⟨s, okOr_ok.mpr hs, rfl⟩⟩

theorem arrayHead_ok {elementType count : Nat} : r.arrayHead = .ok ((elementType, count), r') ↔
    ArrayHeadAt r.content r.endian r.pos elementType count ∧ r' = r.seek (r.pos + 12) := by
  unfold arrayHead
  rw [bind_eq_ok]
  constructor
  · rintro ⟨⟨e, r₁⟩, he, h⟩
    obtain ⟨htype, rfl⟩ := word_ok.mp he
    obtain ⟨least, hleast, h⟩ := bind_eq_ok.mp h
    obtain ⟨⟨n, r₂⟩, hn, h⟩ := bind_eq_ok.mp h
    obtain ⟨hcount, rfl⟩ := word_ok.mp hn
    obtain ⟨c, hc, h⟩ := bind_eq_ok.mp h
    obtain ⟨hle, rfl⟩ := count_ok.mp hc
    obtain ⟨heads, rfl⟩ := Prod.mk.inj (Except.ok.inj h)
    obtain ⟨rfl, rfl⟩ := Prod.mk.inj heads
    exact ⟨⟨least, htype, okOr_ok.mp hleast, hcount, hle⟩, rfl⟩
  · rintro ⟨⟨least, htype, hleast, hcount, hle⟩, rfl⟩
    exact ⟨_, word_ok.mpr ⟨htype, rfl⟩, bind_eq_ok.mpr ⟨least, okOr_ok.mpr hleast,
      bind_eq_ok.mpr ⟨_, word_ok.mpr ⟨hcount, rfl⟩, bind_eq_ok.mpr ⟨count, count_ok.mpr ⟨hle, rfl⟩, rfl⟩⟩⟩⟩

end Reader

end Ruda.Gguf
