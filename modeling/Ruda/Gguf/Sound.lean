import Ruda.Gguf.Model

/-!
# When files are read safely

A file of any bytes is refused or is sound, exactly when its metadata does not nest deeper
than the stack has room for. Arrays that each hold one array take twelve bytes a level.
-/

namespace Ruda.Gguf

/-- The bytes are refused, or open to a file whose tensors lie apart in it and read by rows
as they read whole. -/
def Sound (stack : Nat) (content : List UInt8) : Prop :=
  ∀ path, NoPanic (GgufFile.openFile stack path content) ∧
    ∀ f, GgufFile.openFile stack path content = .ok f → f.Placed ∧ f.RowsJoin

/-- A file is read soundly exactly when no value overruns the stack, and a model has exactly
the tensors of its shards. -/
theorem reader_sound_iff (stack : Nat) (content : List UInt8) (h : content.length ≤ isizeMax) :
    (Sound stack content ↔ ¬TooDeep stack content) ∧
      ∀ (disk : String → Option (List UInt8)) (path : String) (m : GgufModel), GgufModel.open stack disk path = .ok m →
        ∃ files, (∀ file ∈ files, ∃ shard, GgufModel.openPath stack disk shard = .ok file) ∧ m.Exposes files := by
  refine ⟨⟨fun hsound hdeep => ?_, fun hdeep path => ⟨?_, fun f hf => ?_⟩⟩, fun disk path m hm => ?_⟩
  · exact (hsound "").1 ((GgufFile.openFile_panic "").mpr hdeep)
  · exact mt (GgufFile.openFile_panic path).mp hdeep
  · obtain ⟨alignment, hopened⟩ := GgufFile.openFile_ok hf
    exact ⟨Opened.placed hopened, Opened.rowsJoin hopened h⟩
  · obtain ⟨files, hshards, hm⟩ := bind_eq_ok.mp hm
    exact ⟨files, GgufModel.mem_openShards hshards, GgufModel.fromFiles_ok hm⟩

/-- Two rows of a block each, behind one entry of metadata. -/
def twoRows : List UInt8 :=
  "GGUF".toUTF8.toList ++ leBytes 4 3 ++ leBytes 8 1 ++ leBytes 8 1 ++
    (leBytes 8 1 ++ [107] ++ leBytes 4 0 ++ [7]) ++
    (leBytes 8 1 ++ [116] ++ leBytes 4 2 ++ leBytes 8 32 ++ leBytes 8 2 ++ leBytes 4 2 ++ leBytes 8 0) ++
    List.replicate 17 0 ++ List.replicate 36 5

theorem reader_sound_rows : Sound 1 twoRows ∧
    ∃ f info, GgufFile.openFile 1 "rows.gguf" twoRows = .ok f ∧ f.tensors["t"]? = some info ∧ info.byteLen = 36 := by
  have hrun : ((GgufFile.openFile 1 "rows.gguf" twoRows).toOption.bind fun f =>
      f.tensors["t"]?.map GgufTensorInfo.byteLen) = some 36 := by decide +kernel
  obtain ⟨f, hf, hinfo⟩ := Option.bind_eq_some_iff.mp hrun
  obtain ⟨info, hget, hlen⟩ := Option.map_eq_some_iff.mp hinfo
  have hopen : GgufFile.openFile 1 "rows.gguf" twoRows = .ok f := by
    cases h : GgufFile.openFile 1 "rows.gguf" twoRows with
    | ok f' =>
      rw [h] at hf
      exact congrArg _ (Option.some.inj hf)
    | error e =>
      rw [h] at hf
      cases hf
  refine ⟨(reader_sound_iff 1 twoRows (by decide +kernel)).1.mpr fun hdeep => ?_, f, info, hopen, hget, hlen⟩
  have hpanic := (GgufFile.openFile_panic "rows.gguf").mpr hdeep
  cases hpanic.symm.trans hopen

-- Nested arrays

/-- An array of one array. -/
def nestHead : List UInt8 := leBytes 4 9 ++ leBytes 8 1

def nestStart : List UInt8 :=
  "GGUF".toUTF8.toList ++ leBytes 4 3 ++ leBytes 8 0 ++ leBytes 8 1 ++ (leBytes 8 1 ++ [107] ++ leBytes 4 9)

/-- One entry, whose value is nested that deep. -/
def nested (levels : Nat) : List UInt8 := nestStart ++ (List.replicate levels nestHead).flatten

theorem nested_length (levels : Nat) : (nested levels).length = 37 + levels * 12 := by
  have hstart : nestStart.length = 37 := by decide +kernel
  simp [nested, hstart, nestHead]

theorem overruns_nested {levels : Nat} {content start : List UInt8}
    (h : content = start ++ (List.replicate (levels + 1) nestHead).flatten) :
    Overruns content .little levels 9 start.length := by
  induction levels generalizing start with
  | zero => trivial
  | succ levels ih =>
    have hsplit : content = start ++ nestHead ++ (List.replicate (levels + 1) nestHead).flatten := by
      rw [h, List.replicate_succ, List.flatten_cons, List.append_assoc]
    have hnest : nestHead.length = 12 := rfl
    have hnext := ih hsplit
    rw [List.length_append, hnest] at hnext
    have hlen : content.length = start.length + 12 + (levels + 1) * 12 := by
      rw [hsplit]
      simp [hnest, Nat.add_assoc]
    refine ⟨rfl, 9, 1, ⟨12, ⟨leBytes 4 9, ?_, rfl⟩, rfl, ⟨leBytes 8 1, ?_, rfl⟩, ?_⟩, .inr ⟨0, Nat.one_pos, _, rfl, hnext⟩⟩
    · have hword : content = start ++ leBytes 4 9 ++ (leBytes 8 1 ++ (List.replicate (levels + 1) nestHead).flatten) := by
        rw [hsplit, nestHead]
        simp only [List.append_assoc]
      exact getRange_mid hword
    · have hword : content = (start ++ leBytes 4 9) ++ leBytes 8 1 ++ (List.replicate (levels + 1) nestHead).flatten := by
        rw [hsplit, nestHead]
        simp only [List.append_assoc]
      have := getRange_mid hword
      rwa [List.length_append] at this
    · rw [hlen]
      omega

theorem tooDeep_nested (stack : Nat) : TooDeep stack (nested (stack + 1)) := by
  have hstart : ∀ {start stop : Nat} {s}, getRange nestStart start stop = some s →
      getRange (nested (stack + 1)) start stop = some s := getRange_append
  have hlen := nested_length (stack + 1)
  refine ⟨3, .little, 1, ⟨leBytes 4 3, hstart (by decide +kernel), hstart (by decide +kernel), ?_⟩,
    ⟨leBytes 8 1, hstart (by decide +kernel), by decide +kernel⟩, by omega, [], Nat.one_pos, .nil, 24, "k", 33, 9, rfl,
    ⟨1, [107], ⟨leBytes 8 1, hstart (by decide +kernel), by decide +kernel⟩, hstart (by decide +kernel), by decide +kernel,
      rfl⟩, ?_, ⟨leBytes 4 9, hstart (by decide +kernel), by decide +kernel⟩, ?_⟩
  · decide +kernel
  · unfold ValidKey
    decide +kernel
  · have hnest : nestStart.length = 37 := by decide +kernel
    have : Overruns (nested (stack + 1)) .little stack 9 nestStart.length := overruns_nested rfl
    rwa [hnest] at this

/-- With room for 65536 calls, a file of 768 KiB ends the process. -/
theorem reader_unsound : (nested 65537).length = 786481 ∧ (nested 65537).length ≤ isizeMax ∧ ¬Sound 65536 (nested 65537) := by
  have hlen := nested_length 65537
  refine ⟨hlen, by rw [hlen]; decide, fun hsound => ?_⟩
  exact (hsound "nested.gguf").1 ((GgufFile.openFile_panic "nested.gguf").mpr (tooDeep_nested 65536))

end Ruda.Gguf
