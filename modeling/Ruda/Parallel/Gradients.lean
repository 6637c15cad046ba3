import Ruda.Lib.OrdMap
import Ruda.Lib.Fallible

/-!
# Gradients of parameters

A container of gradients by parameter, and its record. How one tensor is read into host data, and
restored from it on a device, is the backend's.
-/

namespace Ruda.Parallel

/-- Gradients by the id of their parameter. -/
abbrev GradientsParams (τ : Type) := BTreeMap τ

variable {τ δ dev μ : Type}

/-- `clone_native` -/
def cloneNative (gradients : GradientsParams τ) : GradientsParams τ :=
  gradients.keys.foldl (fun values id =>
    match gradients[id]? with
    | some value => values.insert id value
    | none => values) ∅

/-- The entries of a `GradientsParamsRecord`. -/
abbrev GradientsParamsRecord (δ : Type) := List (Nat × δ)

/-- A trainable or frozen parameter of a model, as `RestoreDevices` visits it. -/
structure ModelParam (dev : Type) where
  id : Nat
  plannedRequireGrad : Bool
  requireGrad : Bool
  shape : List Nat
  /-- the device and the dtype of the value -/
  metadata : dev

/-- How a backend reads a tensor, and restores one entry of a record on a device. -/
structure Archive (τ δ dev : Type) where
  intoData : τ → Res String δ
  shape : δ → List Nat
  fromRecord : Nat → δ → dev → Res String τ

namespace Archive

variable (archive : Archive τ δ dev)

def recordEntry (entry : Nat × τ) : Res String (Nat × δ) := do
  let data ← archive.intoData entry.2
  return (entry.1, data)

def toRecord (gradients : GradientsParams τ) : Res String (GradientsParamsRecord δ) :=
  gradients.toList.mapM archive.recordEntry

/-- `RestoreDevices::visit_float`: the devices found so far, and an error that comes up at the end. -/
def visitFloat (expected : BTreeMap (List Nat)) [DecidableEq dev] (visitor : BTreeMap dev × Option String)
    (param : ModelParam dev) : BTreeMap dev × Option String :=
  match expected[param.id]? with
  | none => visitor
  | some shape =>
    if param.plannedRequireGrad ∧ param.requireGrad then
      let error :=
        if param.shape ≠ shape then some s!"Recorded gradient shape differs from restored parameter {param.id}"
        else visitor.2
      let error :=
        if ∃ previous ∈ visitor.1[param.id]?, previous ≠ param.metadata then
          some s!"Restored trainable aliases disagree on device/storage for {param.id}"
        else error
      (visitor.1.insert param.id param.metadata, error)
    else visitor

def expectedShapes (record : GradientsParamsRecord δ) : Res String (BTreeMap (List Nat)) :=
  record.foldlM (fun expected entry => do
    failIf (entry.1 ∈ expected) s!"Duplicate gradient parameter ID {entry.1}"
    return expected.insert entry.1 (archive.shape entry.2)) ∅

/-- One entry is restored on the device of its parameter, which was found before. -/
def restoreEntry (devices : BTreeMap dev) (restored : GradientsParams τ) (entry : Nat × δ) :
    Res String (GradientsParams τ) :=
  match devices[entry.1]? with
  | none => .error .panic
  | some device => do
    let value ← archive.fromRecord entry.1 entry.2 device
    return restored.insert entry.1 value

def fromRecordForModel [DecidableEq dev] (params : List (ModelParam dev)) (record : GradientsParamsRecord δ) :
    Res String (GradientsParams τ) := do
  let expected ← archive.expectedShapes record
  let visitor := params.foldl (visitFloat expected) (∅, none)
  match visitor.2 with
  | some message => .error (.err message)
  | none =>
    failIf (visitor.1.size ≠ expected.size)
      "Recorded gradients contain unknown or exclusively frozen model parameters"
    record.foldlM (archive.restoreEntry visitor.1) ∅

end Archive

-- Copies

theorem get_foldl_insert {ids : List Nat} {f : Nat → Option τ} (values : GradientsParams τ) (n : Nat) :
    (ids.foldl (fun values id => match f id with
      | some value => values.insert id value
      | none => values) values)[n]? = if n ∈ ids then (f n).or values[n]? else values[n]? := by
  induction ids generalizing values with
  | nil => simp
  | cons id ids ih =>
    rw [List.foldl_cons, ih]
    cases hf : f id with
    | none =>
      by_cases hn : n = id
      · subst hn
        simp [hf]
      · simp [hn]
    | some value =>
      by_cases hn : n = id
      · subst hn
        simp [hf]
      · simp [hn]

theorem cloneNative_eq (gradients : GradientsParams τ) : cloneNative gradients = gradients := by
  apply Std.ExtTreeMap.ext_getElem?
  intro n
  rw [cloneNative, get_foldl_insert]
  cases hn : gradients[n]? with
  | none => simp
  | some value =>
    have hmem : n ∈ gradients.keys := by
      rw [Std.ExtTreeMap.mem_keys, ← Std.ExtTreeMap.isSome_getElem?_iff_mem, hn]
      rfl
    simp [hmem]

-- Records

variable {archive : Archive τ δ dev}

/-- A tensor that was read is restored as it was. -/
def Archive.Exact (archive : Archive τ δ dev) : Prop :=
  ∀ id value data device restored, archive.intoData value = .ok data →
    archive.fromRecord id data device = .ok restored → restored = value

theorem restore_exact (hexact : archive.Exact) {devices : BTreeMap dev} {entries : List (Nat × τ)}
    {record : GradientsParamsRecord δ} {start restored : GradientsParams τ}
    (hread : entries.mapM archive.recordEntry = .ok record)
    (hrest : record.foldlM (archive.restoreEntry devices) start = .ok restored) :
    restored = entries.foldl (fun restored entry => restored.insert entry.1 entry.2) start := by
  induction entries generalizing record start with
  | nil =>
    cases hread
    cases hrest
    rfl
  | cons entry entries ih =>
    rw [List.mapM_cons] at hread
    obtain ⟨first, hfirst, hread⟩ := bind_eq_ok.mp hread
    obtain ⟨data, hdata, hfirst⟩ := bind_eq_ok.mp hfirst
    obtain ⟨others, hothers, hread⟩ := bind_eq_ok.mp hread
    cases hfirst
    cases hread
    rw [List.foldlM_cons] at hrest
    obtain ⟨mid, hmid, hrest⟩ := bind_eq_ok.mp hrest
    unfold Archive.restoreEntry at hmid
    split at hmid
    · cases hmid
    · obtain ⟨value, hvalue, hmid⟩ := bind_eq_ok.mp hmid
      cases hmid
      rw [hexact _ _ _ _ _ hdata hvalue] at hrest
      exact ih hothers hrest

theorem foldl_insert_toList (gradients : GradientsParams τ) :
    gradients.toList.foldl (fun restored entry => restored.insert entry.1 entry.2) ∅ = gradients := by
  apply Std.ExtTreeMap.ext_getElem?
  intro n
  have hget : ∀ (entries : List (Nat × τ)) (start : GradientsParams τ), (entries.map Prod.fst).Nodup →
      (entries.foldl (fun restored entry => restored.insert entry.1 entry.2) start)[n]? =
        ((entries.find? fun entry => entry.1 = n).map Prod.snd).or start[n]? := by
    intro entries
    induction entries with
    | nil => simp
    | cons entry entries ih =>
      intro start hnodup
      rw [List.map_cons, List.nodup_cons] at hnodup
      rw [List.foldl_cons, ih _ hnodup.2, List.find?_cons]
      by_cases he : entry.1 = n
      · -- no later entry has the same id
        have hnone : (entries.find? fun entry => entry.1 = n) = none := by
          rw [List.find?_eq_none]
          intro other hother heq
          exact hnodup.1 (List.mem_map.mpr ⟨other, hother, by simpa [he] using heq⟩)
        simp [hnone, he]
      · simp [he, Ne.symm he]
  rw [hget _ _ (BTreeMap.nodup_keys_toList gradients)]
  cases hn : gradients[n]? with
  | none =>
    have hnone : (gradients.toList.find? fun entry => entry.1 = n) = none := by
      rw [List.find?_eq_none]
      rintro ⟨id, value⟩ hmem heq
      rw [BTreeMap.mem_toList] at hmem
      obtain rfl : id = n := by simpa using heq
      rw [hn] at hmem
      cases hmem
    simp [hnone]
  | some value =>
    cases hfind : gradients.toList.find? fun entry => entry.1 = n with
    | none =>
      rw [List.find?_eq_none] at hfind
      exact absurd (decide_eq_true rfl) (hfind (n, value) ((BTreeMap.mem_toList _ _ _).mpr hn))
    | some entry =>
      obtain ⟨id, other⟩ := entry
      have hmem := List.mem_of_find?_eq_some hfind
      have hid := List.find?_some hfind
      obtain rfl : id = n := by simpa using hid
      rw [BTreeMap.mem_toList, hn] at hmem
      cases hmem
      rfl

theorem record_roundtrip [DecidableEq dev] (hexact : archive.Exact) {gradients restored : GradientsParams τ}
    {record : GradientsParamsRecord δ} {params : List (ModelParam dev)} (hto : archive.toRecord gradients = .ok record)
    (hfrom : archive.fromRecordForModel params record = .ok restored) : restored = gradients := by
  unfold Archive.fromRecordForModel at hfrom
  obtain ⟨expected, -, hfrom⟩ := bind_eq_ok.mp hfrom
  simp only at hfrom
  split at hfrom
  · cases hfrom
  · obtain ⟨_, -, hrest⟩ := bind_eq_ok.mp hfrom
    rw [restore_exact hexact hto hrest]
    exact foldl_insert_toList gradients

end Ruda.Parallel
