import Ruda.Generation.TieredCache

/-!
# The counters of the prefix cache

Every counter is the sum over the entries of its tier, and each move of an entry between
tiers changes both alike. The one place that forgets is a lookup that fails to restore a
payload on disk: the entry goes and its bytes stay counted.
-/

namespace Ruda.Generation.TieredPrefixCache

variable {s s' : TieredPrefixCache} {c : PrefixCacheConfig} {o : Oracle} {key tokens prompt : Tokens} {entry : Entry}
  {w : Tier → Nat} {inTier : Tier → Bool} {bytes used fuel n : Nat}

-- Sums over the entries

def deviceWeight : Tier → Nat
  | .device => 1
  | _ => 0

def hostWeight : Tier → Nat
  | .host bytes => bytes
  | _ => 0

def diskWeight : Tier → Nat
  | .disk bytes => bytes
  | _ => 0

/-- The number of entries in memory. -/
def hostOne : Tier → Nat
  | .host _ => 1
  | _ => 0

def total (w : Tier → Nat) (s : TieredPrefixCache) : Nat := (s.entries.map fun row => w row.2.tier).sum

/-- No key has two entries. -/
def Keyed (s : TieredPrefixCache) : Prop := (s.entries.map Prod.fst).Nodup

/-- No entry has this key. -/
def Fresh (s : TieredPrefixCache) (key : Tokens) : Prop := s.entries.lookup key = none

theorem fresh_iff : Fresh s key ↔ ∀ row ∈ s.entries, row.1 ≠ key := by
  rw [Fresh, List.lookup_eq_none_iff]
  exact forall₂_congr fun row _ => by rw [bne_iff_ne, ne_comm]

theorem Keyed.lookup (h : Keyed s) {row : Tokens × Entry} (hrow : row ∈ s.entries) : s.entries.lookup row.1 = some row.2 := by
  unfold Keyed at h
  revert h hrow
  generalize s.entries = l
  induction l with
  | nil => exact fun h hrow => nomatch hrow
  | cons first l ih =>
    intro h hrow
    obtain ⟨hnew, hnodup⟩ := List.nodup_cons.mp h
    rw [List.lookup_cons]
    rcases List.mem_cons.mp hrow with rfl | hrow
    · rw [beq_self_eq_true]
    · have hne : row.1 ≠ first.1 := fun heq => hnew (List.mem_map.mpr ⟨row, hrow, heq⟩)
      rw [beq_false_of_ne hne]
      exact ih hnodup hrow

theorem mem_of_lookup (h : s.entries.lookup key = some entry) : (key, entry) ∈ s.entries := by
  revert h
  generalize s.entries = l
  induction l with
  | nil => exact nofun
  | cons first l ih =>
    intro h
    rw [List.lookup_cons] at h
    split at h
    · next hkey =>
      obtain rfl := Option.some.inj h
      rw [eq_of_beq hkey]
      exact List.mem_cons_self
    · exact List.mem_cons_of_mem _ (ih h)

theorem fresh_erase (s : TieredPrefixCache) (key : Tokens) : Fresh (s.erase key) key :=
  fresh_iff.mpr fun _ hrow => of_decide_eq_true (List.mem_filter.mp hrow).2

theorem Fresh.erase {key' : Tokens} (h : Fresh s key) : Fresh (s.erase key') key :=
  fresh_iff.mpr fun row hrow => fresh_iff.mp h row (List.mem_filter.mp hrow).1

theorem Keyed.erase (h : Keyed s) : Keyed (s.erase key) :=
  h.sublist ((List.filter_sublist (p := fun row : Tokens × Entry => row.1 ≠ key)).map Prod.fst)

theorem erase_of_fresh (h : Fresh s key) : s.erase key = s := by
  unfold TieredPrefixCache.erase
  rw [List.filter_eq_self.mpr fun row hrow => decide_eq_true (fresh_iff.mp h row hrow)]

theorem perm_put (h : Fresh s key) : (s.put key entry).entries.Perm ((key, entry) :: s.entries) := by
  unfold TieredPrefixCache.put
  rw [erase_of_fresh h]
  exact List.perm_orderedInsert _ _ _

theorem Keyed.put (h : Keyed s) (hkey : Fresh s key) : Keyed (s.put key entry) := by
  refine ((perm_put hkey).map Prod.fst).nodup_iff.mpr (List.nodup_cons.mpr ⟨?_, h⟩)
  intro hmem
  obtain ⟨row, hrow, heq⟩ := List.mem_map.mp hmem
  exact fresh_iff.mp hkey row hrow heq

theorem total_put (entry : Entry) (hkey : Fresh s key) : total w (s.put key entry) = w entry.tier + total w s := by
  rw [total, ((perm_put hkey).map _).sum_eq, List.map_cons, List.sum_cons, total]

theorem perm_erase (h : Keyed s) (hkey : s.entries.lookup key = some entry) :
    s.entries.Perm ((key, entry) :: (s.erase key).entries) := by
  have hmem := mem_of_lookup hkey
  unfold TieredPrefixCache.erase
  unfold Keyed at h
  revert h hmem
  clear hkey
  generalize s.entries = l
  induction l with
  | nil => exact fun _ hmem => nomatch hmem
  | cons first l ih =>
    intro h hmem
    obtain ⟨hnew, hnodup⟩ := List.nodup_cons.mp h
    rcases List.mem_cons.mp hmem with rfl | hmem
    · have hsame : l.filter (fun row => decide (row.1 ≠ key)) = l :=
        List.filter_eq_self.mpr fun row hrow => decide_eq_true fun heq => hnew (List.mem_map.mpr ⟨row, hrow, heq⟩)
      rw [List.filter_cons_of_neg (by simp)]
      show ((key, entry) :: l).Perm ((key, entry) :: l.filter (fun row => decide (row.1 ≠ key)))
      rw [hsame]
    · have hne : first.1 ≠ key := fun heq => hnew (heq ▸ List.mem_map_of_mem hmem)
      rw [List.filter_cons_of_pos (by simpa using hne)]
      exact ((ih hnodup hmem).cons first).trans (List.Perm.swap _ _ _)

theorem total_erase (h : Keyed s) (hkey : s.entries.lookup key = some entry) :
    total w s = w entry.tier + total w (s.erase key) := by
  rw [total, ((perm_erase h hkey).map _).sum_eq, List.map_cons, List.sum_cons, total]

theorem length_erase (h : Keyed s) (hkey : s.entries.lookup key = some entry) :
    s.entries.length = (s.erase key).entries.length + 1 :=
  (perm_erase h hkey).length_eq

theorem total_touch : total w (s.touch key) = total w s := by
  unfold total touch
  rw [List.map_map]
  refine congrArg List.sum (List.map_congr_left fun row _ => ?_)
  simp only [Function.comp_apply]
  split <;> rfl

theorem keys_touch : (s.touch key).entries.map Prod.fst = s.entries.map Prod.fst := by
  unfold touch
  rw [List.map_map]
  refine List.map_congr_left fun row _ => ?_
  simp only [Function.comp_apply]
  split <;> rfl

theorem oldest_some (h : Keyed s) (hold : s.oldest inTier = some key) :
    ∃ entry, s.entries.lookup key = some entry ∧ inTier entry.tier = true := by
  obtain ⟨row, hrow, rfl⟩ := Option.map_eq_some_iff.mp hold
  obtain ⟨hmem, htier⟩ := List.mem_filter.mp (List.argmin_mem hrow)
  exact ⟨row.2, h.lookup hmem, htier⟩

theorem oldest_none (hw : ∀ tier, inTier tier = false → w tier = 0) (hold : s.oldest inTier = none) : total w s = 0 := by
  have hnil := List.argmin_eq_none.mp (Option.map_eq_none_iff.mp hold)
  refine List.sum_eq_zero fun n hn => ?_
  obtain ⟨row, hrow, rfl⟩ := List.mem_map.mp hn
  refine hw _ (Bool.eq_false_iff.mpr fun htier => ?_)
  have hmem := List.mem_filter (p := fun row : Tokens × Entry => inTier row.2.tier) |>.mpr ⟨hrow, htier⟩
  rw [hnil] at hmem
  cases hmem

theorem total_le_length (hw : ∀ tier, w tier ≤ 1) : total w s ≤ s.entries.length := by
  unfold total
  have := List.sum_le_card_nsmul (s.entries.map fun row => w row.2.tier) 1 fun n hn => by
    obtain ⟨row, -, rfl⟩ := List.mem_map.mp hn
    exact hw _
  simpa using this

-- The counters

/-- No tier holds anything. -/
def Off (c : PrefixCacheConfig) : Prop := c.deviceEntries = 0 ∧ c.hostBytes = 0 ∧ c.diskBytes = 0

/-- Each counter is the sum over its tier. -/
structure Totals (c : PrefixCacheConfig) (s : TieredPrefixCache) : Prop where
  config : s.config = c
  keyed : Keyed s
  device : s.stats.deviceEntries = total deviceWeight s
  host : s.stats.hostBytes = total hostWeight s
  disk : s.stats.diskBytes = total diskWeight s
  off : Off c → s.entries = []

/-- What `new` checks of the configuration. -/
structure Valid (c : PrefixCacheConfig) : Prop where
  block : 0 < c.blockTokens
  directory : 0 < c.diskBytes → c.diskDirectory ≠ none

def add (s : TieredPrefixCache) (tier : Tier) : TieredPrefixCache :=
  { s with stats := { s.stats with
    deviceEntries := s.stats.deviceEntries + deviceWeight tier
    hostBytes := s.stats.hostBytes + hostWeight tier
    diskBytes := s.stats.diskBytes + diskWeight tier } }

def sub (s : TieredPrefixCache) (tier : Tier) : TieredPrefixCache :=
  { s with stats := { s.stats with
    deviceEntries := s.stats.deviceEntries - deviceWeight tier
    hostBytes := s.stats.hostBytes - hostWeight tier
    diskBytes := s.stats.diskBytes - diskWeight tier } }

theorem Totals.put (h : Totals c s) (entry : Entry) (hkey : Fresh s key) (hon : ¬Off c) : Totals c ((s.add entry.tier).put key entry) := by
  have hfresh : Fresh (s.add entry.tier) key := hkey
  refine ⟨h.config, Keyed.put (s := s.add entry.tier) h.keyed hfresh, ?_, ?_, ?_, fun hoff => absurd hoff hon⟩
  · rw [total_put entry hfresh, Nat.add_comm]
    exact congrArg (· + _) h.device
  · rw [total_put entry hfresh, Nat.add_comm]
    exact congrArg (· + _) h.host
  · rw [total_put entry hfresh, Nat.add_comm]
    exact congrArg (· + _) h.disk

theorem Totals.erase (h : Totals c s) (hkey : s.entries.lookup key = some entry) : Totals c ((s.sub entry.tier).erase key) := by
  refine ⟨h.config, Keyed.erase (s := s.sub entry.tier) h.keyed, ?_, ?_, ?_, fun hoff => ?_⟩
  · exact Nat.sub_eq_of_eq_add' (h.device.trans (total_erase h.keyed hkey))
  · exact Nat.sub_eq_of_eq_add' (h.host.trans (total_erase h.keyed hkey))
  · exact Nat.sub_eq_of_eq_add' (h.disk.trans (total_erase h.keyed hkey))
  · rw [h.off hoff] at hkey
    cases hkey

theorem Totals.weight_le (h : Totals c s) (hkey : s.entries.lookup key = some entry) :
    deviceWeight entry.tier ≤ s.stats.deviceEntries ∧ hostWeight entry.tier ≤ s.stats.hostBytes ∧
      diskWeight entry.tier ≤ s.stats.diskBytes := by
  rw [h.device, h.host, h.disk, total_erase h.keyed hkey, total_erase (w := hostWeight) h.keyed hkey,
    total_erase (w := diskWeight) h.keyed hkey]
  exact ⟨Nat.le_add_right _ _, Nat.le_add_right _ _, Nat.le_add_right _ _⟩

theorem Totals.touch (h : Totals c s) : Totals c (s.touch key) := by
  refine ⟨h.config, ?_, h.device.trans total_touch.symm, h.host.trans total_touch.symm, h.disk.trans total_touch.symm, fun hoff => ?_⟩
  · unfold Keyed
    rw [keys_touch]
    exact h.keyed
  · unfold TieredPrefixCache.touch
    rw [h.off hoff, List.map_nil]

theorem Totals.congr (h : Totals c s) (hconfig : s'.config = s.config) (hentries : s'.entries = s.entries)
    (hdevice : s'.stats.deviceEntries = s.stats.deviceEntries) (hhost : s'.stats.hostBytes = s.stats.hostBytes)
    (hdisk : s'.stats.diskBytes = s.stats.diskBytes) : Totals c s' := by
  have htotal (w) : total w s' = total w s := by rw [total, hentries, total]
  refine ⟨hconfig.trans h.config, ?_, ?_, ?_, ?_, fun hoff => hentries.trans (h.off hoff)⟩
  · unfold Keyed
    rw [hentries]
    exact h.keyed
  · rw [hdevice, htotal, h.device]
  · rw [hhost, htotal, h.host]
  · rw [hdisk, htotal, h.disk]

/-- The counters, and a disk within its budget. -/
def Counts (c : PrefixCacheConfig) (s : TieredPrefixCache) : Prop := Totals c s ∧ s.stats.diskBytes ≤ c.diskBytes

/-- How a call of the cache may fail: no counter falls below zero, and no room is missing that
could have been made. -/
def Ends (P : TieredPrefixCache → Prop) (f : Fault) (s : TieredPrefixCache) : Prop :=
  f = .panic addOverflow ∨ ∃ message, f = .error message ∧ message ≠ noVictim ∧ P s

/-- A failure of neither kind. -/
def Good (f : Fault) : Prop := f = .panic addOverflow ∨ ∃ message, f = .error message ∧ message ≠ noVictim

theorem Ends.good {P : TieredPrefixCache → Prop} {f : Fault} (h : Ends P f s) : Good f :=
  h.imp_right fun ⟨message, hf, hne, _⟩ => ⟨message, hf, hne⟩

theorem Ends.mono {P Q : TieredPrefixCache → Prop} (hPQ : ∀ s, P s → Q s) {f : Fault} (h : Ends P f s) : Ends Q f s :=
  h.imp_right fun ⟨message, hf, hne, hp⟩ => ⟨message, hf, hne, hPQ _ hp⟩

section Arithmetic

variable {β : Type} {f : Unit → Method β} {R : β → TieredPrefixCache → Prop} {E : Fault → TieredPrefixCache → Prop}
  {P : TieredPrefixCache → Prop}

theorem addDevice_bind (hk : Triple (f ()) (s.setDevice (s.stats.deviceEntries + n)) R (Ends P)) :
    Triple (addDevice n >>= f) s R (Ends P) := by
  refine Triple.bind (Q := fun _ s' => s' = s.setDevice (s.stats.deviceEntries + n)) ?_ (by rintro _ _ rfl; exact hk)
  exact Triple.get_bind (Triple.ite (fun _ => Triple.modify' rfl) fun _ => Triple.panic' (Or.inl rfl))

theorem addHost_bind (hk : Triple (f ()) (s.setHost (s.stats.hostBytes + n)) R (Ends P)) :
    Triple (addHost n >>= f) s R (Ends P) := by
  refine Triple.bind (Q := fun _ s' => s' = s.setHost (s.stats.hostBytes + n)) ?_ (by rintro _ _ rfl; exact hk)
  exact Triple.get_bind (Triple.ite (fun _ => Triple.modify' rfl) fun _ => Triple.panic' (Or.inl rfl))

theorem addDisk_bind (hk : s.stats.diskBytes + n ≤ usizeMax → Triple (f ()) (s.setDisk (s.stats.diskBytes + n)) R (Ends P)) :
    Triple (addDisk n >>= f) s R (Ends P) := by
  refine Triple.bind (Q := fun _ s' => s.stats.diskBytes + n ≤ usizeMax ∧ s' = s.setDisk (s.stats.diskBytes + n)) ?_ ?_
  · exact Triple.get_bind (Triple.ite (fun hle => Triple.modify' ⟨hle, rfl⟩) fun _ => Triple.panic' (Or.inl rfl))
  · rintro _ _ ⟨hle, rfl⟩
    exact hk hle

theorem subDevice_bind (hn : n ≤ s.stats.deviceEntries) (hk : Triple (f ()) (s.setDevice (s.stats.deviceEntries - n)) R E) :
    Triple (subDevice n >>= f) s R E := by
  refine Triple.bind (Q := fun _ s' => s' = s.setDevice (s.stats.deviceEntries - n)) ?_ (by rintro _ _ rfl; exact hk)
  exact Triple.get_bind (Triple.ite (fun _ => Triple.modify' rfl) fun hlt => absurd hn hlt)

theorem subHost_bind (hn : n ≤ s.stats.hostBytes) (hk : Triple (f ()) (s.setHost (s.stats.hostBytes - n)) R E) :
    Triple (subHost n >>= f) s R E := by
  refine Triple.bind (Q := fun _ s' => s' = s.setHost (s.stats.hostBytes - n)) ?_ (by rintro _ _ rfl; exact hk)
  exact Triple.get_bind (Triple.ite (fun _ => Triple.modify' rfl) fun hlt => absurd hn hlt)

theorem subDisk_bind (hn : n ≤ s.stats.diskBytes) (hk : Triple (f ()) (s.setDisk (s.stats.diskBytes - n)) R E) :
    Triple (subDisk n >>= f) s R E := by
  refine Triple.bind (Q := fun _ s' => s' = s.setDisk (s.stats.diskBytes - n)) ?_ (by rintro _ _ rfl; exact hk)
  exact Triple.get_bind (Triple.ite (fun _ => Triple.modify' rfl) fun hlt => absurd hn hlt)

end Arithmetic

-- The disk

/-- What making room on disk leaves of the state before. -/
structure Evicts (c : PrefixCacheConfig) (s s' : TieredPrefixCache) : Prop where
  totals : Totals c s'
  disk : s'.stats.diskBytes ≤ s.stats.diskBytes
  device : s'.stats.deviceEntries = s.stats.deviceEntries
  host : s'.stats.hostBytes = s.stats.hostBytes
  one : total hostOne s' = total hostOne s
  fresh : ∀ key, Fresh s key → Fresh s' key

theorem Evicts.refl (h : Totals c s) : Evicts c s s := ⟨h, le_rfl, rfl, rfl, rfl, fun _ hf => hf⟩

theorem Evicts.trans {s'' : TieredPrefixCache} (h : Evicts c s s') (h' : Evicts c s' s'') : Evicts c s s'' :=
  ⟨h'.totals, h'.disk.trans h.disk, h'.device.trans h.device, h'.host.trans h.host, h'.one.trans h.one,
    fun key hf => h'.fresh key (h.fresh key hf)⟩

theorem Evicts.of_erase (h : Totals c s) (hkey : s.entries.lookup key = some entry) (hdisk : entry.tier = .disk n) :
    Evicts c s ((s.sub (.disk n)).erase key) := by
  have herase := h.erase hkey
  rw [hdisk] at herase
  refine ⟨herase, Nat.sub_le _ _, rfl, rfl, ?_, fun _ hf => Fresh.erase (s := s.sub (.disk n)) hf⟩
  have hone := total_erase (w := hostOne) h.keyed hkey
  rw [hdisk] at hone
  exact (hone.trans (Nat.zero_add _)).symm

theorem evictDisk_ok (h : Totals c s) (hpos : 0 < s.stats.diskBytes) :
    Triple (evictDisk o) s (fun _ s' => Evicts c s s' ∧ s'.entries.length < s.entries.length) (Ends (Evicts c s)) := by
  unfold evictDisk
  refine Triple.get_bind (Triple.need_bind (fun hnone => ?_) fun old hold => ?_)
  · have hzero := oldest_none (w := diskWeight) (by rintro (_ | _ | _) ht <;> first | rfl | cases ht) hnone
    rw [← h.disk] at hzero
    omega
  obtain ⟨entry, hkey, htier⟩ := oldest_some h.keyed hold
  refine Triple.expect_bind (fun hnone => ?_) fun entry' hkey' => ?_
  · rw [hkey] at hnone
    cases hnone
  obtain rfl := Option.some.inj (hkey.symm.trans hkey')
  obtain ⟨tier, used⟩ := entry
  cases tier with
  | device => cases htier
  | host => cases htier
  | disk size =>
    refine Triple.failIf_bind (fun _ => Or.inr ⟨_, rfl, by decide, Evicts.refl h⟩) fun _ => ?_
    refine subDisk_bind (h.weight_le hkey).2.2 (Triple.modify' ⟨Evicts.of_erase h hkey rfl, ?_⟩)
    exact Nat.lt_of_succ_le (length_erase h.keyed hkey).ge

theorem evictWhile_ok {isOver : TieredPrefixCache → Prop} [DecidablePred isOver]
    (hover : ∀ s, Totals c s → isOver s → 0 < s.stats.diskBytes) (h : Totals c s) (hfuel : s.entries.length < fuel) :
    Triple (evictWhile isOver o fuel) s (fun _ s' => Evicts c s s' ∧ ¬isOver s') (Ends (Evicts c s)) := by
  induction fuel generalizing s with
  | zero => exact absurd hfuel (Nat.not_lt_zero _)
  | succ fuel ih =>
    refine Triple.get_bind (Triple.ite (fun ho => ?_) fun ho => Triple.pure' ⟨Evicts.refl h, ho⟩)
    refine Triple.bind (evictDisk_ok h (hover s h ho)) fun _ s' ⟨hs', hlt⟩ => ?_
    exact Triple.mono (ih hs'.totals (by omega)) (fun _ _ ⟨hq, hno⟩ => ⟨hs'.trans hq, hno⟩)
      fun _ _ hf => hf.mono fun _ => hs'.trans

/-- What `put_disk` leaves of the state before. -/
structure Stores (c : PrefixCacheConfig) (s s' : TieredPrefixCache) : Prop where
  counts : Counts c s'
  device : s'.stats.deviceEntries = s.stats.deviceEntries
  host : s'.stats.hostBytes = s.stats.hostBytes
  one : total hostOne s' = total hostOne s

theorem Evicts.stores (h : Evicts c s s') (hle : s.stats.diskBytes ≤ c.diskBytes) : Stores c s s' :=
  ⟨⟨h.totals, h.disk.trans hle⟩, h.device, h.host, h.one⟩

theorem putDisk_ok (hc : Valid c) (h : Counts c s) (hkey : Fresh s key) :
    Triple (putDisk o key bytes used) s (fun _ s' => Stores c s s') (Ends (Stores c s)) := by
  unfold putDisk
  refine Triple.get_bind (Triple.ite (fun _ => Triple.pure' ((Evicts.refl h.1).stores h.2)) fun hfits => ?_)
  rw [h.1.config] at hfits
  refine Triple.bind (Triple.mono (evictWhile_ok (c := c) (fun s' h' ho => ?_) h.1 (Nat.lt_succ_self _)) (fun _ _ hq => hq)
    fun _ _ hf => hf.mono fun _ he => he.stores h.2) fun _ s' ⟨hs', hroom⟩ => ?_
  · rw [h'.config] at ho
    omega
  rw [hs'.totals.config] at hroom
  refine Triple.expect_bind (fun hnone => absurd (h.1.config ▸ hnone) (hc.directory (by omega))) fun _ _ => ?_
  refine Triple.failIf_bind (fun _ => Or.inr ⟨_, rfl, by decide, hs'.stores h.2⟩) fun _ => ?_
  refine addDisk_bind fun hmax => Triple.modify' ?_
  have hfresh := hs'.fresh key hkey
  have hput := hs'.totals.put ⟨.disk bytes, used⟩ hfresh fun hoff => by have := hoff.2.2; omega
  refine ⟨⟨hput, ?_⟩, hs'.device, hs'.host, ?_⟩
  · show s'.stats.diskBytes + bytes ≤ c.diskBytes
    omega
  · have hone := total_put (w := hostOne) ⟨.disk bytes, used⟩ hfresh
    exact (hone.trans (Nat.zero_add _)).trans hs'.one

end Ruda.Generation.TieredPrefixCache
