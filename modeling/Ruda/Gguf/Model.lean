import Ruda.Gguf.Rows

/-!
# A model in shards

The files of a split model, in the order of their numbers, with an index of their
tensors. Names of files are taken within the directory of the first.
-/

namespace Ruda.Gguf

structure GgufModel where
  files : List GgufFile
  tensors : Std.ExtTreeMap String Nat compare

def unsignedMetadata (metadata : Metadata) (key : String) : Res (Option Nat) :=
  match metadata[key]? with
  | none => pure none
  | some value => do
    let n ← okOr value.asU64 (GgufError.invalid s!"GGUF {key} must be a nonnegative integer")
    pure (some n)

namespace GgufModel

def unsignedKeys : List String := ["split.no", "split.count", "split.tensors.count"]

def checkUnsigned (file : GgufFile) : Res Unit :=
  unsignedKeys.forM fun key => do
    let _ ← unsignedMetadata file.metadata key
    pure ()

/-- `file.metadata.get("split.no").and_then(GgufValue::as_u64).unwrap_or(0)` -/
def splitNo (file : GgufFile) : Nat := (file.metadata["split.no"]?.bind GgufValue.asU64).getD 0

/-- An entry of a shard has the value that the first shard has, if it has one. -/
def checkEntry (first : GgufFile) (entry : String × GgufValue) : Res Unit :=
  let key := entry.1
  failIf (key ≠ "split.no" ∧ key ≠ "general.alignment" ∧ first.metadata[key]?.any (fun v => !v.eq entry.2))
    (GgufError.invalid s!"GGUF shard metadata differs for {key}")

def addName (index : Nat) (tensors : Std.ExtTreeMap String Nat compare) (name : String) :
    Res (Std.ExtTreeMap String Nat compare) := do
  failIf (name ∈ tensors) (GgufError.invalid "duplicate tensor across GGUF shards")
  pure (tensors.insert name index)

def addFile (files : List GgufFile) (first : GgufFile) (tensors : Std.ExtTreeMap String Nat compare) (entry : GgufFile × Nat) :
    Res (Std.ExtTreeMap String Nat compare) := do
  let (file, index) := entry
  let count ← unsignedMetadata file.metadata "split.count"
  let number ← unsignedMetadata file.metadata "split.no"
  failIf (count.getD 1 ≠ files.length ∨ number.getD 0 ≠ index) (GgufError.invalid "inconsistent GGUF shard metadata")
  file.metadata.toList.forM (checkEntry first)
  file.tensors.keys.foldlM (addName index) tensors

def checkTotal (total : Nat) (file : GgufFile) : Res Unit := do
  let count ← unsignedMetadata file.metadata "split.tensors.count"
  failIf (∃ c ∈ count, c ≠ total) (GgufError.invalid "GGUF total tensor count differs")

/-- `files.sort_by_key(..)`, which is stable. -/
def sortFiles (files : List GgufFile) : List GgufFile := files.mergeSort fun a b => decide (splitNo a ≤ splitNo b)

def fromFiles (files : List GgufFile) : Res GgufModel := do
  failIf (files.isEmpty = true) (GgufError.invalid "no GGUF files")
  files.forM checkUnsigned
  let files := sortFiles files
  match files with
  | [] => throw .panic
  | first :: _ => do
    let _ ← first.architecture
    let tensors ← files.zipIdx.foldlM (addFile files first) ∅
    files.forM (checkTotal tensors.size)
    pure { files, tensors }

/-- `format!("{n:05}")` -/
def fiveDigits (n : Nat) : String :=
  let digits := toString n
  String.ofList (List.replicate (5 - digits.length) '0') ++ digits

/-- `strip_suffix` -/
def stripSuffix (s suffix : String) : Option String :=
  if suffix.toList <:+ s.toList then some (String.ofList (s.toList.take (s.length - suffix.length))) else none

/-- The part before the last dash, of `rsplit_once('-')`. -/
def beforeDash (s : String) : Option String :=
  if '-' ∈ s.toList then some (String.ofList (s.toList.reverse.dropWhile fun c => decide (c ≠ '-')).tail.reverse) else none

def shardName (base : String) (count index : Nat) : String :=
  base ++ "-" ++ fiveDigits index ++ "-of-" ++ fiveDigits count ++ ".gguf"

/-- `size_of::<GgufFile>()` on 64-bit targets. -/
def fileSize : Nat := 96

section

variable (stack : Nat) (disk : String → Option (List UInt8))

/-- `GgufFile::open` on a file of the disk. -/
def openPath (path : String) : Res GgufFile := do
  let content ← okOr (disk path) GgufError.io
  GgufFile.openFile stack path content

/-- The shards that are opened: the first, which tells how many there are, or all of them. -/
def openShards (path : String) : Res (List GgufFile) := do
  let first ← openPath stack disk path
  let count ← unsignedMetadata first.metadata "split.count"
  let count := count.getD 1
  if count = 1 then pure [first]
  else do
    let stem ← okOr (stripSuffix path ("-of-" ++ fiveDigits count ++ ".gguf"))
      (GgufError.invalid "GGUF split filename does not match shard count")
    let base ← okOr (beforeDash stem) (GgufError.invalid "invalid GGUF split filename")
    withCapacity count fileSize
    (List.range' 1 count).mapM fun index =>
      let shard := shardName base count index
      if shard = first.path then pure first else openPath stack disk shard

def «open» (path : String) : Res GgufModel := do
  let files ← openShards stack disk path
  fromFiles files

end

/-- An index that names no file panics. -/
def fileAt (m : GgufModel) (index : Nat) : Res GgufFile :=
  match m.files[index]? with
  | some file => pure file
  | none => throw .panic

def tensor (m : GgufModel) (name : String) : Res (Option GgufTensorInfo) :=
  match m.tensors[name]? with
  | none => pure none
  | some index => do
    let file ← m.fileAt index
    pure file.tensors[name]?

def tensorNames (m : GgufModel) : List String := m.tensors.keys

def readPacked (m : GgufModel) (name : String) : Res GgufPackedTensor := do
  let index ← okOr m.tensors[name]? (GgufError.invalid s!"missing GGUF tensor {name}")
  let file ← m.fileAt index
  file.readPacked name

-- The index of the tensors

variable {stack : Nat} {disk : String → Option (List UInt8)} {files : List GgufFile} {m : GgufModel}
  {tensors tensors' : Std.ExtTreeMap String Nat compare}

theorem addNames_ok {index : Nat} {names : List String} (h : names.foldlM (addName index) tensors = .ok tensors') :
    (∀ name ∈ names, tensors[name]? = none) ∧
      ∀ name, tensors'[name]? = if name ∈ names then some index else tensors[name]? := by
  induction names generalizing tensors with
  | nil =>
    obtain rfl := Except.ok.inj h
    exact ⟨nofun, fun name => (if_neg List.not_mem_nil).symm⟩
  | cons first names ih =>
    rw [List.foldlM_cons] at h
    obtain ⟨tensors₁, hfirst, h⟩ := bind_eq_ok.mp h
    obtain ⟨_, hnew, hfirst⟩ := bind_eq_ok.mp hfirst
    obtain rfl := Except.ok.inj hfirst
    obtain ⟨hfresh, hget⟩ := ih h
    have hnone : tensors[first]? = none := Std.ExtTreeMap.getElem?_eq_none (failIf_ok.mp hnew)
    refine ⟨List.forall_mem_cons.mpr ⟨hnone, fun name hname => ?_⟩, fun name => ?_⟩
    · have := hfresh name hname
      rw [Std.ExtTreeMap.getElem?_insert] at this
      split at this
      · cases this
      · exact this
    · rw [hget, Std.ExtTreeMap.getElem?_insert]
      by_cases hname : name ∈ names
      · rw [if_pos hname, if_pos (List.mem_cons_of_mem _ hname)]
      · rw [if_neg hname]
        by_cases heq : first = name
        · rw [if_pos (Std.LawfulEqCmp.compare_eq_iff_eq.mpr heq), if_pos (heq ▸ List.mem_cons_self)]
        · rw [if_neg (mt Std.LawfulEqCmp.compare_eq_iff_eq.mp heq),
            if_neg fun hmem => (List.mem_cons.mp hmem).elim (fun h => heq h.symm) hname]

/-- The index tells for each name the one file that has it. -/
def Indexed (tensors : Std.ExtTreeMap String Nat compare) (files : List GgufFile) : Prop :=
  ∀ (name : String) i, tensors[name]? = some i ↔ ∃ file, files[i]? = some file ∧ name ∈ file.tensors

theorem addFile_ok {first : GgufFile} {shards : List GgufFile} {file : GgufFile} (hi : Indexed tensors files)
    (h : addFile shards first tensors (file, files.length) = .ok tensors') : Indexed tensors' (files ++ [file]) := by
  obtain ⟨count, -, h⟩ := bind_eq_ok.mp h
  obtain ⟨number, -, h⟩ := bind_eq_ok.mp h
  obtain ⟨_, -, h⟩ := bind_eq_ok.mp h
  obtain ⟨_, -, h⟩ := bind_eq_ok.mp h
  obtain ⟨hnone, hget⟩ := addNames_ok h
  intro name i
  rw [hget]
  by_cases hname : name ∈ file.tensors
  · rw [if_pos (Std.ExtTreeMap.mem_keys.mpr hname)]
    constructor
    · intro heq
      obtain rfl := Option.some.inj heq
      exact ⟨file, List.getElem?_concat_length, hname⟩
    · rintro ⟨other, hother, hmem⟩
      -- no earlier file has the name
      by_cases hlt : i < files.length
      · rw [List.getElem?_append_left hlt] at hother
        have := (hi name i).mpr ⟨other, hother, hmem⟩
        rw [hnone name (Std.ExtTreeMap.mem_keys.mpr hname)] at this
        cases this
      · have := (List.getElem?_eq_some_iff.mp hother).1
        rw [List.length_append, List.length_singleton] at this
        exact congrArg some (by omega)
  · rw [if_neg (mt Std.ExtTreeMap.mem_keys.mp hname), hi]
    constructor
    · rintro ⟨other, hother, hmem⟩
      exact ⟨other, by rw [List.getElem?_append_left (List.getElem?_eq_some_iff.mp hother).1]; exact hother, hmem⟩
    · rintro ⟨other, hother, hmem⟩
      by_cases hlt : i < files.length
      · rw [List.getElem?_append_left hlt] at hother
        exact ⟨other, hother, hmem⟩
      · have hlen := (List.getElem?_eq_some_iff.mp hother).1
        rw [List.length_append, List.length_singleton] at hlen
        obtain rfl : i = files.length := by omega
        rw [List.getElem?_concat_length] at hother
        exact absurd (Option.some.inj hother ▸ hmem) hname

theorem addFiles_ok {first : GgufFile} {shards rest : List GgufFile} (hi : Indexed tensors files)
    (h : (rest.zipIdx files.length).foldlM (addFile shards first) tensors = .ok tensors') :
    Indexed tensors' (files ++ rest) := by
  induction rest generalizing files tensors with
  | nil =>
    obtain rfl := Except.ok.inj h
    rwa [List.append_nil]
  | cons file rest ih =>
    rw [List.zipIdx_cons, List.foldlM_cons] at h
    obtain ⟨tensors₁, hfile, h⟩ := bind_eq_ok.mp h
    have hlen : files.length + 1 = (files ++ [file]).length := by rw [List.length_append, List.length_singleton]
    rw [hlen] at h
    have := ih (addFile_ok hi hfile) h
    rwa [List.append_assoc] at this

/-- The tensors of the model are those of its shards: every name once, and each found and
read in its shard. -/
structure Exposes (m : GgufModel) (files : List GgufFile) : Prop where
  shards : m.files.Perm files
  names : ∀ name : String, name ∈ m.tensorNames ↔ ∃ file ∈ files, name ∈ file.tensors
  nodup : m.tensorNames.Nodup
  once : files.Pairwise fun a b => ∀ name : String, ¬(name ∈ a.tensors ∧ name ∈ b.tensors)
  found : ∀ file ∈ files, ∀ (name : String) info, file.tensors[name]? = some info →
    m.tensor name = .ok (some info) ∧ m.readPacked name = file.readPacked name

theorem fromFiles_ok (h : fromFiles files = .ok m) : m.Exposes files := by
  obtain ⟨_, -, h⟩ := bind_eq_ok.mp h
  obtain ⟨_, -, h⟩ := bind_eq_ok.mp h
  have hperm : (sortFiles files).Perm files := List.mergeSort_perm _ _
  have hindexed : m.files = sortFiles files ∧ Indexed m.tensors m.files := by
    dsimp only at h
    split at h
    · cases h
    · next first rest hsorted =>
      obtain ⟨_, -, h⟩ := bind_eq_ok.mp h
      obtain ⟨tensors, htensors, h⟩ := bind_eq_ok.mp h
      obtain ⟨_, -, h⟩ := bind_eq_ok.mp h
      obtain rfl := Except.ok.inj h
      have hempty : Indexed ∅ [] := by
        intro name i
        simp
      have hall := addFiles_ok hempty htensors
      exact ⟨rfl, hall⟩
  obtain ⟨hfiles, hi⟩ := hindexed
  have hperm : m.files.Perm files := hfiles ▸ hperm
  refine ⟨hperm, fun name => ?_, Std.ExtTreeMap.nodup_keys, ?_, fun file hfile name info hinfo => ?_⟩
  · rw [tensorNames, Std.ExtTreeMap.mem_keys]
    constructor
    · intro hmem
      obtain ⟨file, hget, hname⟩ := (hi name _).mp (Std.ExtTreeMap.getElem?_eq_some_getElem hmem)
      exact ⟨file, hperm.mem_iff.mp (List.mem_of_getElem? hget), hname⟩
    · rintro ⟨file, hfile, hname⟩
      obtain ⟨i, hget⟩ := List.mem_iff_getElem?.mp (hperm.mem_iff.mpr hfile)
      exact Std.ExtTreeMap.isSome_getElem?_iff_mem.mp (Option.isSome_of_eq_some ((hi name i).mpr ⟨file, hget, hname⟩))
  · have hall : m.files.Pairwise fun a b => ∀ name : String, ¬(name ∈ a.tensors ∧ name ∈ b.tensors) := by
      refine List.pairwise_iff_getElem.mpr fun i j hi' hj' hlt name hboth => ?_
      have h₁ := (hi name i).mpr ⟨_, List.getElem?_eq_getElem hi', hboth.1⟩
      have h₂ := (hi name j).mpr ⟨_, List.getElem?_eq_getElem hj', hboth.2⟩
      have := Option.some.inj (h₁.symm.trans h₂)
      omega
    exact (hperm.pairwise_iff fun h name hboth => h name hboth.symm).mp hall
  · obtain ⟨i, hget⟩ := List.mem_iff_getElem?.mp (hperm.mem_iff.mpr hfile)
    have hname := (hi name i).mpr
      ⟨file, hget, Std.ExtTreeMap.isSome_getElem?_iff_mem.mp (Option.isSome_of_eq_some hinfo)⟩
    have hat : m.fileAt i = .ok file := by
      unfold fileAt
      rw [hget]
      rfl
    constructor
    · unfold tensor
      rw [hname]
      exact bind_eq_ok.mpr ⟨file, hat, congrArg Except.ok hinfo⟩
    · unfold readPacked
      rw [hname]
      simp only [okOr, pure_bind', hat, ok_bind]

theorem mem_openShards {path : String} (h : openShards stack disk path = .ok files) :
    ∀ file ∈ files, ∃ shard, openPath stack disk shard = .ok file := by
  obtain ⟨first, hfirst, h⟩ := bind_eq_ok.mp h
  obtain ⟨count, -, h⟩ := bind_eq_ok.mp h
  dsimp only at h
  split at h
  · obtain rfl := Except.ok.inj h
    intro file hfile
    rw [List.mem_singleton.mp hfile]
    exact ⟨path, hfirst⟩
  · obtain ⟨stem, -, h⟩ := bind_eq_ok.mp h
    obtain ⟨base, -, h⟩ := bind_eq_ok.mp h
    obtain ⟨_, -, h⟩ := bind_eq_ok.mp h
    intro file hfile
    obtain ⟨index, -, hopen⟩ := mapM_mem h hfile
    split at hopen
    · obtain rfl := Except.ok.inj hopen
      exact ⟨path, hfirst⟩
    · exact ⟨_, hopen⟩

end GgufModel

end Ruda.Gguf
