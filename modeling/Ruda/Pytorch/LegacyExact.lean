import Ruda.Pytorch.LegacyStorage

/-!
# When a storage is read as it stands in the file

The map of storages is made once, of the extents seen until every key was tracked. It is
the layout of the file exactly where these extents are the sizes of the storages.
-/

namespace Ruda.Pytorch

variable {f : LegacyFile} {us : List Usage} {k : Text}

section Lookup

variable {κ α : Type} [DecidableEq κ] [BEq κ] [LawfulBEq κ]

theorem lookup_cons_if (k k' : κ) (v : α) (l : List (κ × α)) :
    ((k, v) :: l).lookup k' = if k' = k then some v else l.lookup k' := by
  rw [List.lookup_cons]
  by_cases hk : k' = k
  · rw [if_pos hk, beq_iff_eq.mpr hk]
  · rw [if_neg hk, beq_eq_false_iff_ne.mpr hk]

theorem lookup_hashInsert (k k' : κ) (v : α) (l : List (κ × α)) :
    (hashInsert k v l).lookup k' = if k' = k then some v else l.lookup k' := by
  induction l with
  | nil => exact lookup_cons_if k k' v []
  | cons e l ih =>
    obtain ⟨key, value⟩ := e
    rw [hashInsert]
    split
    · next h =>
      obtain rfl : k = key := h
      rw [lookup_cons_if, lookup_cons_if]
      split <;> rfl
    · next h =>
      rw [lookup_cons_if, lookup_cons_if, ih]
      by_cases hk : k' = key
      · rw [if_pos hk, if_pos hk, if_neg fun hc => h (hc.symm.trans hk)]
      · rw [if_neg hk, if_neg hk]

end Lookup

theorem extent_append (us : List Usage) (u : Usage) (k : Text) :
    extent (us ++ [u]) k = if u.key = k then some (max ((extent us k).getD 0) (u.offset + u.size)) else extent us k := by
  rw [extent, extent, List.foldl_append]
  rfl

theorem extent_isSome : (extent us k).isSome ↔ ∃ u ∈ us, u.key = k := by
  induction us using List.reverseRecOn with
  | nil => simp [extent]
  | append_singleton us u ih =>
    rw [extent_append]
    split
    · next h => exact ⟨fun _ => ⟨u, by simp, h⟩, fun _ => rfl⟩
    · next h =>
      rw [ih]
      constructor
      · rintro ⟨v, hv, hk⟩
        exact ⟨v, List.mem_append_left _ hv, hk⟩
      · rintro ⟨v, hv, hk⟩
        obtain hv | hv := List.mem_append.mp hv
        · exact ⟨v, hv, hk⟩
        · exact absurd (List.mem_singleton.mp hv ▸ hk) h

theorem Covers.mono {keys : List Text} {vs : List Usage} (h : Covers keys vs) (hsub : vs ⊆ us) : Covers keys us := by
  intro k hk
  obtain ⟨u, hu, hkey⟩ := extent_isSome.mp (h k hk)
  exact extent_isSome.mpr ⟨u, hsub hu, hkey⟩

theorem addUsize_panic {ε : Type} {a b : Nat} (h : usizeMax < a + b) : (addUsize a b : Res ε Nat) = .error .panic :=
  if_neg (not_le.mpr h)

-- The map

namespace LegacyMultiStorageSource

/-- The bytes in front of a storage's, from the sizes of those before it. -/
def startOf (sizes : List Nat) : Nat := (sizes.map (8 + ·)).sum + 8

theorem storageOffsets_lookup {usage : List (Text × Nat)} {size : Text → Nat} {keys : List Text}
    (husage : ∀ k ∈ keys, usage.lookup k = some (size k)) (hnodup : keys.Nodup) {map map' : List (Text × Nat × Nat)}
    {current : Nat} (h : storageOffsets usage keys map current = .ok map') :
    (∀ k ∉ keys, map'.lookup k = map.lookup k) ∧
      ∀ pre k post, keys = pre ++ k :: post → map'.lookup k = some (current + startOf (pre.map size), size k) := by
  induction keys generalizing map current with
  | nil =>
    obtain rfl := Except.ok.inj h
    exact ⟨fun k _ => rfl, fun pre k post hk => by simp at hk⟩
  | cons key keys ih =>
    rw [storageOffsets, husage key List.mem_cons_self] at h
    obtain ⟨offset, hoffset, h⟩ := bind_eq_ok.mp h
    obtain ⟨stride, hstride, h⟩ := bind_eq_ok.mp h
    obtain ⟨next, hnext, h⟩ := bind_eq_ok.mp h
    obtain ⟨rfl, -⟩ := addUsize_iff.mp hoffset
    obtain ⟨rfl, -⟩ := addUsize_iff.mp hstride
    obtain ⟨rfl, -⟩ := addUsize_iff.mp hnext
    obtain ⟨hnotin, hnodup⟩ := List.nodup_cons.mp hnodup
    obtain ⟨hother, hat⟩ := ih (fun k hk => husage k (List.mem_cons_of_mem _ hk)) hnodup h
    constructor
    · intro k hk
      rw [hother k fun hc => hk (List.mem_cons_of_mem _ hc), lookup_hashInsert,
        if_neg fun (hc : k = key) => hk (hc ▸ List.mem_cons_self)]
    · intro pre k post hsplit
      cases pre with
      | nil =>
        obtain ⟨rfl, rfl⟩ := List.cons.inj hsplit
        rw [hother key hnotin, lookup_hashInsert, if_pos rfl]
        rfl
      | cons p pre =>
        obtain ⟨rfl, hrest⟩ := List.cons.inj hsplit
        rw [hat pre k post hrest]
        simp only [startOf, List.map_cons, List.sum_cons]
        congr 2
        omega

theorem storageOffsets_ok {usage : List (Text × Nat)} {size : Text → Nat} {keys : List Text}
    (husage : ∀ k ∈ keys, usage.lookup k = some (size k)) {current : Nat}
    (hfits : current + ((keys.map size).map (8 + ·)).sum ≤ usizeMax) (map : List (Text × Nat × Nat)) :
    ∃ map', storageOffsets usage keys map current = .ok map' := by
  induction keys generalizing map current with
  | nil => exact ⟨map, rfl⟩
  | cons key keys ih =>
    simp only [List.map_cons, List.sum_cons] at hfits
    have hoffset : (addUsize current 8 : Res Empty Nat) = .ok (current + 8) := if_pos (by omega)
    have hstride : (addUsize 8 (size key) : Res Empty Nat) = .ok (8 + size key) := if_pos (by omega)
    have hnext : (addUsize current (8 + size key) : Res Empty Nat) = .ok (current + (8 + size key)) := if_pos (by omega)
    rw [storageOffsets, husage key List.mem_cons_self]
    simp only [hoffset, hstride, hnext, ok_bind]
    exact ih (fun k hk => husage k (List.mem_cons_of_mem _ hk)) (by omega) _

-- Tracking

/-- `n` is the fewest of the tensors among which every key was tracked. -/
def FirstCover (keys : List Text) (us : List Usage) (n : Nat) : Prop :=
  Covers keys (us.take n) ∧ ∀ m < n, ¬Covers keys (us.take m)

theorem FirstCover.unique {keys : List Text} {n n' : Nat} (h : FirstCover keys us n) (h' : FirstCover keys us n') : n = n' := by
  rcases Nat.lt_trichotomy n n' with hlt | heq | hgt
  · exact absurd h.1 (h'.2 n hlt)
  · exact heq
  · exact absurd h'.1 (h.2 n' hgt)

theorem firstCover_append {keys : List Text} {n : Nat} (hn : n ≤ us.length) (vs : List Usage) :
    FirstCover keys (us ++ vs) n ↔ FirstCover keys us n := by
  unfold FirstCover
  rw [List.take_append_of_le_length hn]
  refine and_congr_right fun _ => forall₂_congr fun m hm => ?_
  rw [List.take_append_of_le_length (by omega)]

theorem firstCover_last {keys : List Text} {u : Usage} (hfirst : us = [] ∨ ¬Covers keys us)
    (hcovers : Covers keys (us ++ [u])) : ∃ n ≤ (us ++ [u]).length, FirstCover keys (us ++ [u]) n ∧
      ∀ k ∈ keys, extent ((us ++ [u]).take n) k = extent (us ++ [u]) k := by
  by_cases hbefore : Covers keys us
  · obtain rfl := hfirst.resolve_right (not_not_intro hbefore)
    have hnone : ∀ k, k ∉ keys := fun k hk => nomatch hbefore k hk
    exact ⟨0, by omega, ⟨hbefore, nofun⟩, fun k hk => absurd hk (hnone k)⟩
  · refine ⟨(us ++ [u]).length, le_rfl, ⟨by rw [List.take_length]; exact hcovers, fun m hm hc => hbefore ?_⟩, ?_⟩
    · rw [List.take_append_of_le_length (by simp at hm; omega)] at hc
      exact hc.mono (List.take_subset m us)
    · intro k _
      rw [List.take_length]

/-- The source after some tensors: what was used of every key, and the map once it is made. -/
structure Tracked (keys : List Text) (start : Nat) (us : List Usage) (s : LegacyMultiStorageSource) : Prop where
  offset_eq : s.dataOffset = start
  keys_eq : s.storageKeys = some keys
  usage : ∀ k, s.storageUsage.lookup k = extent us k
  unmapped : s.storageMap = none → us = [] ∨ ¬Covers keys us
  mapped : ∀ map, s.storageMap = some map → ∃ n ≤ us.length, FirstCover keys us n ∧
    ∃ usage : List (Text × Nat), (∀ k ∈ keys, usage.lookup k = extent (us.take n) k) ∧
      storageOffsets usage keys [] 0 = .ok map

variable {keys : List Text} {start : Nat} {s s' : LegacyMultiStorageSource} {u : Usage}

theorem tracked_start (keys : List Text) (start : Nat) : Tracked keys start [] ((new start).setStorageKeys keys) where
  offset_eq := rfl
  keys_eq := rfl
  usage := fun _ => rfl
  unmapped := fun _ => .inl rfl
  mapped := nofun

/-- The usage that a call leaves before it looks at the map. -/
def used (s : LegacyMultiStorageSource) (u : Usage) : List (Text × Nat) :=
  hashInsert u.key (match s.storageUsage.lookup u.key with
    | some current => max current (u.offset + u.size)
    | none => u.offset + u.size) s.storageUsage

theorem lookup_used (h : Tracked keys start us s) (u : Usage) (k : Text) :
    (s.used u).lookup k = extent (us ++ [u]) k := by
  rw [used, lookup_hashInsert, extent_append, h.usage, h.usage]
  by_cases hk : k = u.key
  · subst hk
    rw [if_pos rfl, if_pos rfl]
    cases extent us u.key with
    | none => rw [Option.getD_none, Nat.zero_max]
    | some current => rfl
  · rw [if_neg hk, if_neg (Ne.symm hk)]

theorem trackStorageUsage_ok (hu : u.offset + u.size ≤ usizeMax) :
    s.trackStorageUsage u = tryBuildStorageMap { s with storageUsage := s.used u } := by
  have hadd : (addUsize u.offset u.size : Res Empty Nat) = .ok (u.offset + u.size) := if_pos hu
  rw [trackStorageUsage, hadd, ok_bind]
  rfl

theorem trackStorageUsage_panic (hu : usizeMax < u.offset + u.size) : s.trackStorageUsage u = .error .panic := by
  rw [trackStorageUsage, addUsize_panic hu, error_bind]

theorem track_cases (h : Tracked keys start us s) (hu : u.offset + u.size ≤ usizeMax) :
    ((s.storageMap ≠ none ∨ ¬Covers keys (us ++ [u])) ∧
      s.trackStorageUsage u = .ok { s with storageUsage := s.used u }) ∨
    (s.storageMap = none ∧ Covers keys (us ++ [u]) ∧
      s.trackStorageUsage u = storageOffsets (s.used u) keys [] 0 >>= fun map =>
        .ok { s with storageUsage := s.used u, storageMap := some map }) := by
  rw [trackStorageUsage_ok hu, tryBuildStorageMap]
  cases hmap : s.storageMap with
  | some map => exact .inl ⟨.inl nofun, rfl⟩
  | none =>
    by_cases hcovers : Covers keys (us ++ [u])
    · right
      have hall : ∀ k ∈ keys, ((s.used u).lookup k).isSome := by
        intro k hk
        rw [lookup_used h]
        exact hcovers k hk
      refine ⟨rfl, hcovers, ?_⟩
      simp only [h.keys_eq, if_pos hall]
      rfl
    · left
      have hall : ¬∀ k ∈ keys, ((s.used u).lookup k).isSome := by
        intro hall
        refine hcovers fun k hk => ?_
        rw [← lookup_used h]
        exact hall k hk
      refine ⟨.inr hcovers, ?_⟩
      simp only [h.keys_eq, if_neg hall]

theorem Tracked.track (h : Tracked keys start us s) (htrack : s.trackStorageUsage u = .ok s') :
    Tracked keys start (us ++ [u]) s' := by
  have hu : u.offset + u.size ≤ usizeMax := by
    by_contra hu
    rw [trackStorageUsage_panic (not_le.mp hu)] at htrack
    exact nomatch htrack
  obtain ⟨hleft, hcall⟩ | ⟨hnone, hcovers, hcall⟩ := track_cases h hu
  · obtain rfl := Except.ok.inj (hcall.symm.trans htrack)
    refine ⟨h.offset_eq, h.keys_eq, lookup_used h u, fun hmap => .inr ?_, fun map hmap => ?_⟩
    · exact hleft.resolve_left (not_not_intro hmap)
    · obtain ⟨n, hn, hfirst, usage, husage, hoffsets⟩ := h.mapped map hmap
      refine ⟨n, by simp; omega, (firstCover_append hn [u]).mpr hfirst, usage, ?_, hoffsets⟩
      rw [List.take_append_of_le_length hn]
      exact husage
  · obtain ⟨map, hmap, hs⟩ := bind_eq_ok.mp (hcall.symm.trans htrack)
    obtain rfl := Except.ok.inj hs
    refine ⟨h.offset_eq, h.keys_eq, lookup_used h u, nofun, fun map' hmap' => ?_⟩
    obtain rfl := Option.some.inj hmap'
    obtain ⟨n, hn, hfirst, hextent⟩ := firstCover_last (h.unmapped hnone) hcovers
    exact ⟨n, hn, hfirst, s.used u, fun k hk => (lookup_used h u k).trans (hextent k hk).symm, hmap⟩

theorem Tracked.trackAll {vs : List Usage} (h : Tracked keys start us s) (hrun : s.trackAll vs = .ok s') :
    Tracked keys start (us ++ vs) s' := by
  induction vs generalizing us s with
  | nil =>
    obtain rfl := Except.ok.inj hrun
    rwa [List.append_nil]
  | cons v vs ih =>
    obtain ⟨t, ht, hrun⟩ := bind_eq_ok.mp hrun
    rw [List.append_cons]
    exact ih (h.track ht) hrun

theorem trackAll_bounded {vs : List Usage} (hrun : s.trackAll vs = .ok s') :
    ∀ v ∈ vs, v.offset + v.size ≤ usizeMax := by
  induction vs generalizing s with
  | nil => exact nofun
  | cons v vs ih =>
    obtain ⟨t, ht, hrun⟩ := bind_eq_ok.mp hrun
    refine List.forall_mem_cons.mpr ⟨?_, ih hrun⟩
    by_contra hv
    rw [trackStorageUsage_panic (not_le.mp hv)] at ht
    exact nomatch ht

/-- The largest extent of a key, or zero. -/
def extentOf (us : List Usage) (k : Text) : Nat := (extent us k).getD 0

theorem extent_eq_extentOf {k : Text} (h : Covers keys us) (hk : k ∈ keys) : extent us k = some (extentOf us k) :=
  (Option.some_get (h k hk)).symm.trans (congrArg some (Option.get_eq_getD _))

theorem trackAll_ok {vs : List Usage} (h : Tracked keys start us s) (hbounded : ∀ v ∈ vs, v.offset + v.size ≤ usizeMax)
    (hsum : ∀ n ≤ (us ++ vs).length, FirstCover keys (us ++ vs) n →
      ((keys.map (extentOf ((us ++ vs).take n))).map (8 + ·)).sum ≤ usizeMax) :
    ∃ s', s.trackAll vs = .ok s' := by
  induction vs generalizing us s with
  | nil => exact ⟨s, rfl⟩
  | cons v vs ih =>
    obtain ⟨hv, hbounded⟩ := List.forall_mem_cons.mp hbounded
    have hstep : ∃ t, s.trackStorageUsage v = .ok t := by
      obtain ⟨-, hcall⟩ | ⟨hnone, hcovers, hcall⟩ := track_cases h hv
      · exact ⟨_, hcall⟩
      · obtain ⟨n, hn, hfirst, hextent⟩ := firstCover_last (h.unmapped hnone) hcovers
        have hn' : n ≤ (us ++ v :: vs).length := by simp at hn ⊢; omega
        rw [List.append_cons] at hsum
        have hsum := hsum n (by simp at hn ⊢; omega) ((firstCover_append hn vs).mpr hfirst)
        rw [List.take_append_of_le_length hn] at hsum
        have husage : ∀ k ∈ keys, (s.used v).lookup k = some (extentOf ((us ++ [v]).take n) k) := by
          intro k hk
          rw [lookup_used h, ← hextent k hk]
          exact extent_eq_extentOf hfirst.1 hk
        obtain ⟨map, hmap⟩ := storageOffsets_ok husage (by rwa [Nat.zero_add]) []
        exact ⟨_, by rw [hcall, hmap, ok_bind]⟩
    obtain ⟨t, ht⟩ := hstep
    rw [List.append_cons] at hsum
    obtain ⟨s', hs'⟩ := ih (h.track ht) hbounded hsum
    exact ⟨s', by rw [trackAll, ht, ok_bind, hs']⟩

end LegacyMultiStorageSource

-- Reading

theorem lastComponent_plain (h : '/' ∉ k) : lastComponent k = k := by
  rw [lastComponent, List.takeWhile_eq_self_iff.mpr, List.reverse_reverse]
  intro c hc
  exact decide_eq_true fun hslash => h (hslash ▸ List.mem_reverse.mp hc)

namespace LegacyFile

open LegacyMultiStorageSource

theorem record_length (s : Storage) : s.record.length = 8 + s.bytes.length := by
  rw [Storage.record, List.length_append, s.count_length]

theorem records_length (l : List Storage) :
    (l.flatMap Storage.record).length = ((l.map (List.length ∘ Storage.bytes)).map (8 + ·)).sum := by
  induction l with
  | nil => rfl
  | cons s l ih => rw [List.flatMap_cons, List.length_append, ih, record_length]; rfl

theorem content_split {pre post : List Storage} {storage : Storage} (h : f.storages = pre ++ storage :: post) :
    f.content = (f.header ++ pre.flatMap Storage.record ++ storage.count) ++ storage.bytes ++
      (post.flatMap Storage.record ++ f.trailer) := by
  rw [content, h, List.flatMap_append, List.flatMap_cons, Storage.record]
  simp only [List.append_assoc]

theorem source_tracked (f : LegacyFile) {s : LegacyMultiStorageSource} {us : List Usage}
    (h : f.source.trackAll us = .ok s) : Tracked f.keys f.header.length us s :=
  (tracked_start f.keys f.header.length).trackAll h

/-- The extents of a cover are the sizes of the storages. -/
def Sized (f : LegacyFile) (us : List Usage) : Prop :=
  ∀ storage ∈ f.storages, extent us storage.key = some storage.bytes.length

theorem Sized.extentOf_keys (h : f.Sized us) {l : List Storage} (hl : l ⊆ f.storages) :
    (l.map Storage.key).map (extentOf us) = l.map (List.length ∘ Storage.bytes) := by
  rw [List.map_map]
  refine List.map_congr_left fun storage hs => ?_
  exact congrArg (Option.getD · 0) (h storage (hl hs))

theorem read_mapped {s : LegacyMultiStorageSource} {size : Text → Nat} {usage map} (hstart : s.dataOffset = f.header.length)
    (hmap : s.storageMap = some map) (husage : ∀ k ∈ f.keys, usage.lookup k = some (size k))
    (hoffsets : storageOffsets usage f.keys [] 0 = .ok map) {pre post : List Storage} {storage : Storage}
    (hsplit : f.storages = pre ++ storage :: post) :
    s.read f.content storage.key = (do
      let position ← addUsize f.header.length (startOf ((pre.map Storage.key).map size))
      failIf (position ≥ 2 ^ 63) .invalidSeek
      if size storage.key ≥ 2 ^ 63 then .error .panic
      else okOr (getRange f.content position (position + size storage.key)) .unexpectedEof) := by
  have hplain : lastComponent storage.key = storage.key :=
    lastComponent_plain (f.keys_plain storage (by rw [hsplit]; simp))
  have hlookup := (storageOffsets_lookup husage f.keys_nodup hoffsets).2 (pre.map Storage.key) storage.key
    (post.map Storage.key) (by rw [keys, hsplit]; simp)
  rw [LegacyMultiStorageSource.read, hmap, Option.bind_some, hplain, hlookup, hstart, Nat.zero_add]

theorem records_fit (f : LegacyFile) :
    f.header.length + ((f.storages.map (List.length ∘ Storage.bytes)).map (8 + ·)).sum < 2 ^ 63 := by
  have hfits := f.fits
  rw [List.length_append, List.length_append, records_length] at hfits
  omega

theorem Sized.read {n : Nat} (hsized : f.Sized (us.take n)) {s : LegacyMultiStorageSource}
    (htracked : Tracked f.keys f.header.length us s) (hn : n ≤ us.length) (hfirst : FirstCover f.keys us n)
    {storage : Storage} (hs : storage ∈ f.storages) : s.read f.content storage.key = .ok storage.bytes := by
  obtain ⟨pre, post, hsplit⟩ := List.append_of_mem hs
  cases hmap : s.storageMap with
  | none =>
    have hcovers : Covers f.keys us := hfirst.1.mono (List.take_subset n us)
    obtain rfl | hnot := htracked.unmapped hmap
    · exact nomatch hcovers storage.key (List.mem_map_of_mem hs)
    · exact absurd hcovers hnot
  | some map =>
    obtain ⟨n', -, hfirst', usage, husage, hoffsets⟩ := htracked.mapped map hmap
    obtain rfl := hfirst.unique hfirst'
    have husage : ∀ k ∈ f.keys, usage.lookup k = some (extentOf (us.take n) k) := by
      intro k hk
      rw [husage k hk]
      exact extent_eq_extentOf hfirst.1 hk
    have hsize : extentOf (us.take n) storage.key = storage.bytes.length := congrArg (Option.getD · 0) (hsized storage hs)
    have hposition : f.header.length + startOf ((pre.map Storage.key).map (extentOf (us.take n))) =
        (f.header ++ pre.flatMap Storage.record ++ storage.count).length := by
      rw [hsized.extentOf_keys (by rw [hsplit]; exact List.subset_append_left _ _), startOf, ← records_length]
      simp only [List.length_append, storage.count_length]
      omega
    have hlength := f.fits
    rw [show f.header ++ f.storages.flatMap Storage.record ++ f.trailer = f.content from rfl, content_split hsplit,
      List.length_append, List.length_append] at hlength
    have hadd : (addUsize f.header.length (startOf ((pre.map Storage.key).map (extentOf (us.take n)))) : Res ReadError Nat) =
        .ok (f.header ++ pre.flatMap Storage.record ++ storage.count).length := by
      rw [addUsize, hposition, if_pos (by unfold usizeMax u64Max; omega)]
      rfl
    have hbytes : getRange f.content (f.header ++ pre.flatMap Storage.record ++ storage.count).length
        ((f.header ++ pre.flatMap Storage.record ++ storage.count).length + storage.bytes.length) = some storage.bytes :=
      getRange_mid (content_split hsplit)
    rw [read_mapped htracked.offset_eq hmap husage hoffsets hsplit, hadd, ok_bind, failIf_ok.mpr (by omega), ok_bind, hsize,
      if_neg (by omega), hbytes]
    rfl

theorem size_of_read {s : LegacyMultiStorageSource} {size : Text → Nat} {usage map} (hstart : s.dataOffset = f.header.length)
    (hmap : s.storageMap = some map) (husage : ∀ k ∈ f.keys, usage.lookup k = some (size k))
    (hoffsets : storageOffsets usage f.keys [] 0 = .ok map) {storage : Storage} (hs : storage ∈ f.storages)
    (hread : s.read f.content storage.key = .ok storage.bytes) : size storage.key = storage.bytes.length := by
  obtain ⟨pre, post, hsplit⟩ := List.append_of_mem hs
  rw [read_mapped hstart hmap husage hoffsets hsplit] at hread
  obtain ⟨position, -, hread⟩ := bind_eq_ok.mp hread
  obtain ⟨-, -, hread⟩ := bind_eq_ok.mp hread
  split at hread
  · exact nomatch hread
  obtain ⟨-, hstop, hbytes⟩ := getRange_some.mp (okOr_ok.mp hread)
  rw [← hbytes, List.length_take, List.length_drop]
  omega

/-- A key is read as the bytes of its storage exactly where the extents seen until every key
was tracked are the sizes of the storages. -/
theorem readsStorages_iff (f : LegacyFile) (us : List Usage) : f.ReadsStorages us ↔ f.Exact us := by
  constructor
  · rintro ⟨s, hrun, hreads⟩
    have htracked := f.source_tracked hrun
    refine ⟨trackAll_bounded hrun, ?_⟩
    cases hmap : s.storageMap with
    | some map =>
      obtain ⟨n, hn, hfirst, usage, husage, hoffsets⟩ := htracked.mapped map hmap
      have husage : ∀ k ∈ f.keys, usage.lookup k = some (extentOf (us.take n) k) := by
        intro k hk
        rw [husage k hk]
        exact extent_eq_extentOf hfirst.1 hk
      refine ⟨n, hn, hfirst.1, hfirst.2, fun storage hs => ?_⟩
      rw [extent_eq_extentOf hfirst.1 (List.mem_map_of_mem hs),
        size_of_read htracked.offset_eq hmap husage hoffsets hs (hreads storage hs)]
    | none =>
      -- Without a map nothing is read, so there is no storage.
      have hnone : ∀ storage, storage ∉ f.storages := by
        intro storage hs
        have hread := hreads storage hs
        rw [LegacyMultiStorageSource.read, hmap] at hread
        exact nomatch hread
      refine ⟨0, Nat.zero_le _, fun k hk => ?_, nofun, fun storage hs => absurd hs (hnone storage)⟩
      obtain ⟨storage, hs, -⟩ := List.mem_map.mp hk
      exact absurd hs (hnone storage)
  · rintro ⟨hbounded, n, hn, hcovers, hleast, hsized⟩
    have hfirst : FirstCover f.keys us n := ⟨hcovers, hleast⟩
    have hsum : ∀ m ≤ us.length, FirstCover f.keys us m →
        ((f.keys.map (extentOf (us.take m))).map (8 + ·)).sum ≤ usizeMax := by
      intro m _ hm
      obtain rfl := hfirst.unique hm
      have hfit := f.records_fit
      rw [keys, Sized.extentOf_keys hsized (List.Subset.refl _)]
      unfold usizeMax u64Max
      omega
    obtain ⟨s, hrun⟩ := trackAll_ok (tracked_start f.keys f.header.length) hbounded hsum
    exact ⟨s, hrun, fun storage hs => Sized.read hsized (f.source_tracked hrun) hn hfirst hs⟩

/-- Two storages, of eight bytes and of four. -/
def twoStorages : LegacyFile where
  header := []
  storages := [⟨['0'], [2, 0, 0, 0, 0, 0, 0, 0], [10, 11, 12, 13, 14, 15, 16, 17], rfl⟩,
    ⟨['1'], [1, 0, 0, 0, 0, 0, 0, 0], [20, 21, 22, 23], rfl⟩]
  trailer := []
  keys_nodup := by decide
  keys_plain := by decide
  fits := by decide

/-- The second storage is read right or wrong by the order in which the same three tensors were
tracked, and a sum that overflows is a panic. -/
theorem readsStorages_order :
    (twoStorages.source.trackAll [⟨['0'], 0, 4⟩, ⟨['0'], 4, 4⟩, ⟨['1'], 0, 4⟩]).map
        (LegacyMultiStorageSource.read twoStorages.content · ['1']) = .ok (.ok [20, 21, 22, 23]) ∧
      (twoStorages.source.trackAll [⟨['0'], 0, 4⟩, ⟨['1'], 0, 4⟩, ⟨['0'], 4, 4⟩]).map
        (LegacyMultiStorageSource.read twoStorages.content · ['1']) = .ok (.ok [0, 0, 0, 0]) ∧
      ¬twoStorages.ReadsStorages [⟨['0'], 0, 4⟩, ⟨['1'], 0, 4⟩, ⟨['0'], 4, 4⟩] ∧
      twoStorages.source.trackAll [⟨['0'], 2 ^ 64 - 1, 4⟩] = .error .panic := by
  refine ⟨rfl, rfl, ?_, rfl⟩
  rintro ⟨s, hrun, hreads⟩
  have hread := hreads _ (List.mem_cons_of_mem _ List.mem_cons_self)
  obtain rfl := Except.ok.inj hrun
  exact absurd (Except.ok.inj hread) (by decide)

end LegacyFile

end Ruda.Pytorch
