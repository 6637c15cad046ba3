import Ruda.Batch.Scheduler
import Ruda.Lib.Fallible
import Ruda.Lib.Rows

/-!
# The arrays of a device batch

`token_matrix`, `context_lengths` and `flattened_block_table` of a `ScheduledBatch`:
a row for each sequence, and where every element stands. A vector of a given
length may be refused by the allocator; `reserve` tells its error.
-/

namespace Ruda.Batch

open Kv

variable {batch : ScheduledBatch} {row : ScheduledSequence} {rows : List ScheduledSequence}

namespace ScheduledBatch

/-- Row-major `[batch, next_n]`. -/
def tokenMatrix (batch : ScheduledBatch) : List Token := batch.sequences.flatMap ScheduledSequence.tokenIds

end ScheduledBatch

/-- The causal length of the token at `offset`. -/
def causalLength (row : ScheduledSequence) (offset : Nat) : Res String Nat := do
  let length ← okOr ((checkedAdd row.startPosition offset).bind fun value => checkedAdd value 1)
    "context length overflow"
  failIf (length > u32Max) "context length exceeds DeepGEMM u32 ABI"
  pure length

/-- One causal length for each query token. -/
def ScheduledBatch.contextLengths (batch : ScheduledBatch) : Res String (List Nat) := do
  let lengths ← batch.sequences.mapM fun row => (List.range row.tokenIds.length).mapM (causalLength row)
  pure lengths.flatten

/-- `table[row * stride + column] = page.0`, column after column. -/
def writeRow (stride row : Nat) : (column : Nat) → List KvPageId → List Nat → Res String (List Nat)
  | _, [], table => pure table
  | column, page :: pages, table =>
    if row * stride + column < table.length then
      writeRow stride row (column + 1) pages (table.set (row * stride + column) page)
    else throw .panic

def writeRows (stride : Nat) : (row : Nat) → List ScheduledSequence → List Nat → Res String (List Nat)
  | _, [], table => pure table
  | row, sequence :: rest, table => do
    let table ← writeRow stride row 0 sequence.blockTable table
    writeRows stride (row + 1) rest table

/-- Pages of the longest block table. -/
def ScheduledBatch.stride (batch : ScheduledBatch) : Nat :=
  (batch.sequences.map fun sequence => sequence.blockTable.length).foldr max 0

/-- The padded row-major page table and its row stride. -/
def ScheduledBatch.flattenedBlockTable (reserve : Nat → Option String) (batch : ScheduledBatch) :
    Res String (List Nat × Nat) := do
  let stride := batch.stride
  failIf (stride = 0 ∧ batch.sequences ≠ []) "scheduled sequence has no physical KV page"
  let length ← okOr (checkedMul batch.batchSize stride) "block table size overflow"
  match reserve length with
  | some error => throw (.err s!"cannot allocate block table: {error}")
  | none =>
    let table ← writeRows stride 0 batch.sequences (List.replicate length 0)
    pure (table, stride)

-- Tokens and lengths

theorem mapM_eq_map {α β : Type} {f : α → Res ε β} {g : α → β} {l : List α} (h : ∀ x ∈ l, f x = .ok (g x)) :
    l.mapM f = .ok (l.map g) :=
  mapM_ok.mpr (List.forall₂_map_right_iff.mpr (List.forall₂_same.mpr h))

theorem causalLength_ok {offset length : Nat} :
    causalLength row offset = .ok length ↔ length = row.startPosition + offset + 1 ∧ length ≤ u32Max := by
  unfold causalLength
  constructor
  · intro h
    obtain ⟨n, hn, h⟩ := bind_eq_ok.mp h
    obtain ⟨⟨⟩, hfit, h⟩ := bind_eq_ok.mp h
    obtain rfl := Except.ok.inj h
    obtain ⟨m, hm, hn⟩ := Option.bind_eq_some_iff.mp (okOr_ok.mp hn)
    obtain ⟨-, rfl⟩ := checkedAdd_eq_some.mp hm
    exact ⟨(checkedAdd_eq_some.mp hn).2, not_lt.mp (failIf_ok.mp hfit)⟩
  · rintro ⟨rfl, hle⟩
    have hmax : u32Max ≤ u64Max := by decide
    have hsum : (checkedAdd row.startPosition offset).bind (fun value => checkedAdd value 1) =
        some (row.startPosition + offset + 1) := by
      rw [checkedAdd_of_le (by omega), Option.bind_some, checkedAdd_of_le (by omega)]
    exact bind_eq_ok.mpr ⟨_, okOr_ok.mpr hsum, bind_eq_ok.mpr ⟨(), failIf_ok.mpr (not_lt.mpr hle), rfl⟩⟩

/-- The causal lengths of one row. -/
def rowLengths (row : ScheduledSequence) : List Nat :=
  (List.range row.tokenIds.length).map fun offset => row.startPosition + offset + 1

theorem mapM_causalLength {lengths : List Nat} :
    (List.range row.tokenIds.length).mapM (causalLength row) = .ok lengths ↔
      lengths = rowLengths row ∧ (row.tokenIds ≠ [] → row.startPosition + row.tokenIds.length ≤ u32Max) := by
  constructor
  · intro h
    have hpart : ∀ offset < row.tokenIds.length, row.startPosition + offset + 1 ≤ u32Max := fun offset ho => by
      obtain ⟨n, -, hn⟩ := mapM_mem_of h (List.mem_range.mpr ho)
      obtain ⟨rfl, hle⟩ := causalLength_ok.mp hn
      exact hle
    refine ⟨?_, fun hne => ?_⟩
    · refine Except.ok.inj (h.symm.trans (mapM_eq_map fun offset ho => ?_))
      exact causalLength_ok.mpr ⟨rfl, hpart offset (List.mem_range.mp ho)⟩
    · have hpos := List.length_pos_iff.mpr hne
      have := hpart (row.tokenIds.length - 1) (by omega)
      omega
  · rintro ⟨rfl, hle⟩
    refine mapM_eq_map fun offset ho => causalLength_ok.mpr ⟨rfl, ?_⟩
    have hlt := List.mem_range.mp ho
    have := hle (List.ne_nil_of_length_pos (by omega))
    omega

theorem contextLengths_ok {lengths : List Nat} : batch.contextLengths = .ok lengths ↔
    lengths = batch.sequences.flatMap rowLengths ∧ ∀ row ∈ batch.sequences, row.tokenIds ≠ [] →
      row.startPosition + row.tokenIds.length ≤ u32Max := by
  unfold ScheduledBatch.contextLengths
  constructor
  · intro h
    obtain ⟨parts, hparts, h⟩ := bind_eq_ok.mp h
    obtain rfl := Except.ok.inj h
    have hrow : ∀ row ∈ batch.sequences, row.tokenIds ≠ [] →
        row.startPosition + row.tokenIds.length ≤ u32Max := fun row hr => by
      obtain ⟨part, -, hpart⟩ := mapM_mem_of hparts hr
      exact (mapM_causalLength.mp hpart).2
    have hall := mapM_eq_map (g := rowLengths) fun row hr => mapM_causalLength.mpr ⟨rfl, hrow row hr⟩
    refine ⟨?_, hrow⟩
    rw [Except.ok.inj (hparts.symm.trans hall), List.flatMap_def]
  · rintro ⟨rfl, hrow⟩
    refine bind_eq_ok.mpr ⟨_, mapM_eq_map (g := rowLengths) fun row hr =>
      mapM_causalLength.mpr ⟨rfl, hrow row hr⟩, ?_⟩
    rw [List.flatMap_def]
    rfl

theorem contextLengths_get {lengths : List Nat} {n i offset : Nat} (h : batch.contextLengths = .ok lengths)
    (hn : ∀ row ∈ batch.sequences, row.tokenIds.length = n) (hrow : batch.sequences[i]? = some row)
    (ho : offset < n) : lengths[i * n + offset]? = some (row.startPosition + offset + 1) := by
  rw [(contextLengths_ok.mp h).1]
  refine getElem?_flatMap_uniform (fun row hr => ?_) hrow ?_
  · simp [rowLengths, hn row hr]
  · simp [rowLengths, hn row (List.mem_of_getElem? hrow), ho]

theorem tokenMatrix_get {n i offset : Nat} {token : Token} (hn : ∀ row ∈ batch.sequences, row.tokenIds.length = n)
    (hrow : batch.sequences[i]? = some row) (htoken : row.tokenIds[offset]? = some token) :
    batch.tokenMatrix[i * n + offset]? = some token :=
  getElem?_flatMap_uniform hn hrow htoken

-- The page table

theorem writeRow_ok (stride i column : Nat) (pages : List KvPageId) (table : List Nat)
    (hfit : i * stride + column + pages.length ≤ table.length) :
    ∃ table', writeRow stride i column pages table = .ok table' ∧ table'.length = table.length ∧
      ∀ j, table'[j]? = if i * stride + column ≤ j ∧ j < i * stride + column + pages.length
        then pages[j - (i * stride + column)]? else table[j]? := by
  induction pages generalizing column table with
  | nil =>
    refine ⟨table, rfl, rfl, fun j => ?_⟩
    rw [if_neg (by simp only [List.length_nil]; omega)]
  | cons page pages ih =>
    rw [List.length_cons] at hfit
    obtain ⟨table', hwrite, hlen, hget⟩ :=
      ih (column + 1) (table.set (i * stride + column) page) (by rw [List.length_set]; omega)
    refine ⟨table', ?_, hlen.trans List.length_set, fun j => ?_⟩
    · rw [writeRow, if_pos (by omega), hwrite]
    · rw [hget j, List.length_cons]
      by_cases hj : j = i * stride + column
      · subst hj
        rw [if_neg (by omega), if_pos (by omega), Nat.sub_self, List.getElem?_set_self (by omega)]
        rfl
      · rw [List.getElem?_set_ne (Ne.symm hj)]
        by_cases hin : i * stride + column < j ∧ j < i * stride + column + (pages.length + 1)
        · have hsucc : j - (i * stride + column) = j - (i * stride + (column + 1)) + 1 := by omega
          rw [if_pos (by omega), if_pos (by omega), hsucc, List.getElem?_cons_succ]
        · rw [if_neg (by omega), if_neg (by omega)]

theorem writeRows_ok (stride i : Nat) (table : List Nat) (hrows : ∀ row ∈ rows, row.blockTable.length ≤ stride)
    (hfit : (i + rows.length) * stride ≤ table.length) :
    ∃ table', writeRows stride i rows table = .ok table' ∧ table'.length = table.length ∧
      (∀ j < i * stride, table'[j]? = table[j]?) ∧
      ∀ k row, rows[k]? = some row → ∀ column < stride, table'[(i + k) * stride + column]? =
        if column < row.blockTable.length then row.blockTable[column]? else table[(i + k) * stride + column]? := by
  induction rows generalizing i table with
  | nil => exact ⟨table, rfl, rfl, fun _ _ => rfl, nofun⟩
  | cons first rest ih =>
    have hfirst := hrows first (by simp)
    have hnext : (i + 1 + rest.length) * stride ≤ table.length := by
      rw [List.length_cons] at hfit
      rwa [Nat.add_right_comm, Nat.add_assoc]
    have hstep : (i + 1) * stride = i * stride + stride := Nat.succ_mul i stride
    have hmono : (i + 1) * stride ≤ (i + 1 + rest.length) * stride := Nat.mul_le_mul_right _ (by omega)
    obtain ⟨table₁, hwrite, hlen₁, hget₁⟩ := writeRow_ok stride i 0 first.blockTable table (by omega)
    obtain ⟨table', hwrites, hlen, hbefore, hget⟩ := ih (i + 1) table₁
      (fun row hr => hrows row (List.mem_cons_of_mem _ hr)) (by rwa [hlen₁])
    refine ⟨table', bind_eq_ok.mpr ⟨table₁, hwrite, hwrites⟩, hlen.trans hlen₁, fun j hj => ?_, fun k row hk column hc => ?_⟩
    · rw [hbefore j (by omega), hget₁ j, if_neg (by omega)]
    · cases k with
      | zero =>
        obtain rfl : first = row := by simpa using hk
        rw [Nat.add_zero, hbefore _ (by omega), hget₁, Nat.add_zero, Nat.add_sub_cancel_left]
        by_cases hin : column < first.blockTable.length
        · rw [if_pos (by omega), if_pos hin]
        · rw [if_neg (by omega), if_neg hin]
      | succ k =>
        have hafter : (i + 1) * stride ≤ (i + 1 + k) * stride := Nat.mul_le_mul_right _ (by omega)
        have hidx : i + (k + 1) = i + 1 + k := by omega
        have hkept : table₁[(i + 1 + k) * stride + column]? = table[(i + 1 + k) * stride + column]? := by
          rw [hget₁, if_neg (by omega)]
        rw [hidx, hget k row hk column hc, hkept]

theorem le_stride (h : row ∈ batch.sequences) : row.blockTable.length ≤ batch.stride :=
  List.le_max_of_le (List.mem_map_of_mem h) le_rfl

theorem stride_pos (h : row ∈ batch.sequences) (hne : row.blockTable ≠ []) : 0 < batch.stride :=
  (List.length_pos_iff.mpr hne).trans_le (le_stride h)

theorem flattenedBlockTable_ok {reserve : Nat → Option String} {table : List Nat} {stride : Nat}
    (hpos : batch.sequences ≠ [] → 0 < batch.stride) :
    batch.flattenedBlockTable reserve = .ok (table, stride) ↔
      batch.batchSize * batch.stride ≤ u64Max ∧ reserve (batch.batchSize * batch.stride) = none ∧
        stride = batch.stride ∧ writeRows stride 0 batch.sequences
          (List.replicate (batch.batchSize * batch.stride) 0) = .ok table := by
  unfold ScheduledBatch.flattenedBlockTable
  have hcheck : ¬(batch.stride = 0 ∧ batch.sequences ≠ []) := fun h => (hpos h.2).ne' h.1
  constructor
  · intro h
    obtain ⟨⟨⟩, -, h⟩ := bind_eq_ok.mp h
    obtain ⟨length, hlength, h⟩ := bind_eq_ok.mp h
    obtain ⟨hle, rfl⟩ := checkedMul_eq_some.mp (okOr_ok.mp hlength)
    split at h
    · cases h
    · next hreserve =>
      obtain ⟨table', hwrites, h⟩ := bind_eq_ok.mp h
      obtain ⟨rfl, rfl⟩ := Prod.mk.inj (Except.ok.inj h)
      exact ⟨hle, hreserve, rfl, hwrites⟩
  · rintro ⟨hle, hreserve, rfl, hwrites⟩
    refine bind_eq_ok.mpr ⟨(), failIf_ok.mpr hcheck, bind_eq_ok.mpr ⟨_, okOr_ok.mpr (checkedMul_eq_some.mpr ⟨hle, rfl⟩), ?_⟩⟩
    rw [hreserve]
    exact bind_eq_ok.mpr ⟨table, hwrites, rfl⟩

theorem flattenedBlockTable_get {reserve : Nat → Option String} {table : List Nat} {stride i column : Nat}
    (h : batch.flattenedBlockTable reserve = .ok (table, stride)) (hpos : batch.sequences ≠ [] → 0 < batch.stride)
    (hrow : batch.sequences[i]? = some row) (hc : column < stride) :
    table[i * stride + column]? = some (row.blockTable.getD column 0) := by
  obtain ⟨-, -, rfl, hwrites⟩ := (flattenedBlockTable_ok hpos).mp h
  obtain ⟨table', hwrites', -, -, hget⟩ := writeRows_ok batch.stride 0
        (List.replicate (batch.batchSize * batch.stride) 0) (fun row hr => le_stride hr)
    (by rw [Nat.zero_add, List.length_replicate]; rfl)
  obtain rfl : table = table' := Except.ok.inj (hwrites.symm.trans hwrites')
  have hi : i < batch.sequences.length := (List.getElem?_eq_some_iff.mp hrow).1
  have hin : i * batch.stride + column < batch.batchSize * batch.stride :=
    calc i * batch.stride + column < (i + 1) * batch.stride := by rw [Nat.succ_mul]; omega
      _ ≤ batch.sequences.length * batch.stride := Nat.mul_le_mul_right _ hi
  have hcell := hget i row hrow column hc
  rw [Nat.zero_add] at hcell
  rw [hcell, List.getD_eq_getElem?_getD]
  split
  · next hlt => rw [List.getElem?_eq_getElem hlt, Option.getD_some]
  · next hge =>
    rw [List.getElem?_replicate, if_pos hin, List.getElem?_eq_none (not_lt.mp hge), Option.getD_none]

end Ruda.Batch
