import Ruda.Generation.TieredCacheCounts

/-!
# Runs of the prefix cache

What `insert`, `lookup`, `prefill` and `new` keep of the counters, and from it every run in
which no lookup tries a payload on disk in vain.
-/

namespace Ruda.Generation.TieredPrefixCache

variable {s s' : TieredPrefixCache} {c : PrefixCacheConfig} {o : Oracle} {key tokens prompt : Tokens} {entry : Entry}
  {bytes used fuel start maxSequenceLength vocabSize : Nat} {files : List File}

/-- Every tier within its budget. -/
def Within (c : PrefixCacheConfig) (s : TieredPrefixCache) : Prop :=
  s.stats.deviceEntries ≤ c.deviceEntries ∧ s.stats.hostBytes ≤ c.hostBytes ∧ s.stats.diskBytes ≤ c.diskBytes

-- Insertion

theorem shrinkDevice_ok (hc : Valid c) (h : Counts c s) (hfuel : s.stats.deviceEntries < fuel) :
    Triple (shrinkDevice o fuel) s (fun _ s' => Counts c s' ∧ s'.stats.deviceEntries ≤ c.deviceEntries) (Ends (Counts c)) := by
  induction fuel generalizing s with
  | zero => exact absurd hfuel (Nat.not_lt_zero _)
  | succ fuel ih =>
    refine Triple.get_bind (Triple.ite (fun hover => ?_) fun hle => ?_)
    rotate_left
    · rw [h.1.config] at hle
      exact Triple.pure' ⟨h, Nat.le_of_not_lt hle⟩
    refine Triple.expect_bind (fun hnone => ?_) fun key hold => ?_
    · have hzero := oldest_none (w := deviceWeight) (by rintro (_ | _ | _) ht <;> first | rfl | cases ht) hnone
      rw [← h.1.device] at hzero
      omega
    obtain ⟨entry, hkey, htier⟩ := oldest_some h.1.keyed hold
    refine Triple.expect_bind (fun hnone => ?_) fun entry' hkey' => ?_
    · rw [hkey] at hnone
      cases hnone
    obtain rfl := Option.some.inj (hkey.symm.trans hkey')
    obtain ⟨tier, used⟩ := entry
    cases tier with
    | host => cases htier
    | disk => cases htier
    | device =>
      have hone : 1 ≤ s.stats.deviceEntries := (h.1.weight_le hkey).1
      refine Triple.modify_bind (subDevice_bind hone (Triple.ite (fun hne => absurd rfl hne) fun _ => ?_))
      have ht : Counts c ((s.sub .device).erase key) := ⟨h.1.erase hkey, h.2⟩
      have hfresh : Fresh ((s.sub .device).erase key) key := fresh_erase _ key
      have hlt : ((s.sub .device).erase key).stats.deviceEntries < fuel := by
        show s.stats.deviceEntries - 1 < fuel
        omega
      refine Triple.ite (fun _ => ih ht hlt) fun hroom => ?_
      rw [h.1.config] at hroom
      have hon : ¬Off c := fun hoff => hroom hoff.2
      cases o.capture key with
      | none =>
        refine Triple.modify_bind (addDevice_bind (Triple.fail' (Or.inr ⟨_, rfl, by decide, ?_, h.2⟩)))
        exact ht.1.put ⟨.device, used⟩ hfresh hon
      | some bytes =>
        refine Triple.ite (fun _ => addHost_bind (Triple.modify_bind (ih ?_ hlt))) fun _ => ?_
        · exact ⟨ht.1.put ⟨.host bytes, used⟩ hfresh hon, h.2⟩
        refine Triple.bind (Triple.mono (putDisk_ok hc ht hfresh) (fun _ _ hq => hq) fun _ _ hf => hf.mono fun _ he => he.counts)
          fun _ s' hs' => ih hs'.counts ?_
        rw [hs'.device]
        exact hlt

theorem shrinkHost_ok (hc : Valid c) (h : Counts c s) (hdevice : s.stats.deviceEntries ≤ c.deviceEntries)
    (hfuel : total hostOne s < fuel) :
    Triple (shrinkHost o fuel) s (fun _ s' => Counts c s' ∧ Within c s') (Ends (Counts c)) := by
  induction fuel generalizing s with
  | zero => exact absurd hfuel (Nat.not_lt_zero _)
  | succ fuel ih =>
    refine Triple.get_bind (Triple.ite (fun hover => ?_) fun hle => ?_)
    rotate_left
    · rw [h.1.config] at hle
      exact Triple.pure' ⟨h, hdevice, Nat.le_of_not_lt hle, h.2⟩
    refine Triple.expect_bind (fun hnone => ?_) fun key hold => ?_
    · have hzero := oldest_none (w := hostWeight) (by rintro (_ | _ | _) ht <;> first | rfl | cases ht) hnone
      rw [← h.1.host] at hzero
      omega
    obtain ⟨entry, hkey, htier⟩ := oldest_some h.1.keyed hold
    refine Triple.expect_bind (fun hnone => ?_) fun entry' hkey' => ?_
    · rw [hkey] at hnone
      cases hnone
    obtain rfl := Option.some.inj (hkey.symm.trans hkey')
    obtain ⟨tier, used⟩ := entry
    cases tier with
    | device => cases htier
    | disk => cases htier
    | host bytes =>
      refine Triple.modify_bind (subHost_bind (h.1.weight_le hkey).2.1 ?_)
      have ht : Counts c ((s.sub (.host bytes)).erase key) := ⟨h.1.erase hkey, h.2⟩
      have hone : total hostOne s = 1 + total hostOne (s.erase key) := total_erase h.1.keyed hkey
      refine Triple.bind (Triple.mono (putDisk_ok hc ht (fresh_erase _ key)) (fun _ _ hq => hq) fun _ _ hf => hf.mono fun _ he => he.counts)
        fun _ s' hs' => ih hs'.counts (hs'.device.trans_le hdevice) ?_
      rw [hs'.one]
      show total hostOne (s.erase key) < fuel
      omega

theorem Totals.within (h : Totals c s) (hoff : Off c) : Within c s := by
  have hnil := h.off hoff
  have hzero (w) : total w s = 0 := by rw [total, hnil, List.map_nil, List.sum_nil]
  refine ⟨?_, ?_, ?_⟩
  · rw [h.device, hzero]
    exact Nat.zero_le _
  · rw [h.host, hzero]
    exact Nat.zero_le _
  · rw [h.disk, hzero]
    exact Nat.zero_le _

theorem insert_ok (hc : Valid c) (h : Counts c s) :
    Triple (insert o tokens) s (fun _ s' => Counts c s' ∧ (Fresh s tokens ∨ Within c s → Within c s')) (Ends (Counts c)) := by
  unfold insert
  refine Triple.failIf_bind (fun _ => Or.inr ⟨_, rfl, by decide, h⟩) fun _ => Triple.get_bind ?_
  refine Triple.ite (fun hoff => ?_) fun hon => Triple.modify_bind ?_
  · rw [h.1.config] at hoff
    exact Triple.pure' ⟨h, fun _ => h.1.within hoff⟩
  rw [h.1.config] at hon
  have hbump : Totals c s.bumpTick := h.1.congr rfl rfl rfl rfl rfl
  refine Triple.ite (fun hsome => Triple.modify' ⟨⟨hbump.touch, h.2⟩, ?_⟩) fun hnone => ?_
  · rintro (hfresh | hwithin)
    · rw [hfresh] at hsome
      cases hsome
    · exact hwithin
  have hfresh : Fresh s.bumpTick tokens := Option.not_isSome_iff_eq_none.mp hnone
  refine Triple.modify_bind (addDevice_bind (Triple.get_bind ?_))
  have hput : Totals c ((s.bumpTick.add .device).put tokens ⟨.device, s.bumpTick.tick⟩) :=
    hbump.put ⟨.device, s.bumpTick.tick⟩ hfresh hon
  refine Triple.bind (shrinkDevice_ok hc ⟨hput, h.2⟩ ?_) fun _ s' ⟨hs', hdevice⟩ => Triple.get_bind ?_
  · refine Nat.lt_succ_of_le (hput.device.trans_le (total_le_length ?_))
    rintro (_ | _ | _) <;> simp [deviceWeight]
  · refine Triple.mono (shrinkHost_ok hc hs' hdevice (Nat.lt_succ_of_le (total_le_length ?_))) (fun _ _ hq => ⟨hq.1, fun _ => hq.2⟩)
      fun _ _ hf => hf
    rintro (_ | _ | _) <;> simp [hostOne]

-- Lookup

/-- No lookup of the prompt comes to a payload on disk that does not restore: a longer key
that begins the prompt does. -/
def Restores (o : Oracle) (prompt : Tokens) (s : TieredPrefixCache) : Prop :=
  ∀ row ∈ s.entries, row.1.isPrefixOf prompt = true → 0 < diskWeight row.2.tier → o.restore row.1 = none →
    ∃ other ∈ s.entries, other.1.isPrefixOf prompt = true ∧ row.1.length < other.1.length ∧ o.restore other.1 ≠ none

theorem erase_touch : (s.touch key).erase key = s.erase key := by
  unfold erase touch
  congr 1
  simp only [List.filter_map]
  refine (List.map_congr_left fun row hrow => ?_).trans (List.map_id _ |>.trans (List.filter_congr fun row _ => ?_))
  · have hkey : row.1 ≠ key := by
      have hkept : ¬_ = key := of_decide_eq_true (List.mem_filter.mp hrow).2
      rintro rfl
      exact hkept (by simp)
    rw [if_neg hkey, id]
  · simp only [Function.comp_apply]
    split <;> rfl

theorem longest_some (h : Keyed s) (hkey : s.longest prompt = some key) :
    ∃ entry, s.entries.lookup key = some entry ∧ key.isPrefixOf prompt = true ∧
      ∀ row ∈ s.entries, row.1.isPrefixOf prompt = true → row.1.length ≤ key.length := by
  obtain ⟨hmem, hprefix⟩ := List.mem_filter.mp (List.argmax_mem hkey)
  obtain ⟨row, hrow, rfl⟩ := List.mem_map.mp hmem
  refine ⟨row.2, h.lookup hrow, hprefix, fun other hother hother' => ?_⟩
  exact List.le_of_mem_argmax (List.mem_filter.mpr ⟨List.mem_map_of_mem hother, hother'⟩) hkey

theorem Restores.erase (h : Restores o prompt s) (hkey : o.restore key = none) : Restores o prompt (s.erase key) := by
  intro row hrow hprefix hweight hnone
  obtain ⟨other, hother, hprefix', hlt, hsome⟩ := h row (List.mem_filter.mp hrow).1 hprefix hweight hnone
  refine ⟨other, List.mem_filter.mpr ⟨hother, decide_eq_true ?_⟩, hprefix', hlt, hsome⟩
  rintro rfl
  exact hsome hkey

theorem find_ok (h : Counts c s) (hrestores : Restores o prompt s) (hfuel : s.entries.length < fuel) :
    Triple (find o prompt fuel) s (fun _ s' => Counts c s') (fun _ _ => False) := by
  induction fuel generalizing s with
  | zero => exact absurd hfuel (Nat.not_lt_zero _)
  | succ fuel ih =>
    refine Triple.get_bind ?_
    split
    · exact Triple.pure' h
    next key hlongest =>
    obtain ⟨entry, hkey, hprefix, hmax⟩ := longest_some h.1.keyed hlongest
    refine Triple.expect_bind (fun hnone => ?_) fun entry' hkey' => Triple.modify_bind ?_
    · rw [hkey] at hnone
      cases hnone
    obtain rfl := Option.some.inj (hkey.symm.trans hkey')
    cases hrestore : o.restore key with
    | some length =>
      exact Triple.modify_bind (Triple.pure' ⟨h.1.touch.congr rfl rfl rfl rfl rfl, h.2⟩)
    | none =>
      refine Triple.modify_bind ?_
      rw [erase_touch]
      have herase := h.1.erase hkey
      have hle := h.1.weight_le hkey
      have hlt : (s.erase key).entries.length < fuel := by
        have := length_erase h.1.keyed hkey
        omega
      obtain ⟨tier, used⟩ := entry
      cases tier with
      | device => exact subDevice_bind hle.1 (ih ⟨herase, h.2⟩ (hrestores.erase hrestore) hlt)
      | host bytes => exact subHost_bind hle.2.1 (ih ⟨herase, h.2⟩ (hrestores.erase hrestore) hlt)
      | disk bytes =>
        have hbytes : bytes = 0 := by
          by_contra hpos
          obtain ⟨other, hother, hprefix', hlt', -⟩ :=
            hrestores _ (mem_of_lookup hkey) hprefix (Nat.pos_of_ne_zero hpos) hrestore
          exact absurd (hmax other hother hprefix') (Nat.not_le_of_lt hlt')
        subst hbytes
        exact Triple.pure_bind (ih ⟨herase, h.2⟩ (hrestores.erase hrestore) hlt)

theorem lookup_ok (h : Counts c s) (hrestores : Restores o prompt s) :
    Triple (lookup o prompt) s (fun _ s' => Counts c s') (fun _ _ => False) :=
  Triple.modify_bind (Triple.get_bind (find_ok ⟨h.1.congr rfl rfl rfl rfl rfl, h.2⟩ hrestores (Nat.lt_succ_self _)))

-- Opening

theorem reopenFile_ok {file : File} (h : Totals c s) (hon : ¬Off c) :
    Triple (reopenFile file) s (fun _ s' => Totals c s') (Ends fun _ => True) := by
  cases file with
  | unreadable => exact Triple.fail' (Or.inr ⟨_, rfl, by decide, trivial⟩)
  | foreign => exact Triple.pure' h
  | payload tokens bytes removes =>
    have hbump : Totals c s.bumpTick := h.congr rfl rfl rfl rfl rfl
    refine Triple.modify_bind (Triple.get_bind (Triple.ite (fun _ => ?_) fun hnone => ?_))
    · exact Triple.ite (fun _ => Triple.fail' (Or.inr ⟨_, rfl, by decide, trivial⟩)) fun _ => Triple.pure' hbump
    · refine Triple.failIf_bind (fun _ => Or.inr ⟨_, rfl, by decide, trivial⟩) fun _ => Triple.modify' ?_
      exact hbump.put ⟨.disk bytes, s.bumpTick.tick⟩ (Option.not_isSome_iff_eq_none.mp hnone) hon

theorem totals_empty : Totals c (empty c maxSequenceLength vocabSize) :=
  ⟨rfl, List.nodup_nil, rfl, rfl, rfl, fun _ => rfl⟩

theorem reopenDisk_ok :
    Triple (reopenDisk o files) (empty c maxSequenceLength vocabSize) (fun _ s' => Counts c s') (Ends fun _ => True) := by
  refine Triple.get_bind (Triple.ite (fun _ => Triple.pure' ⟨totals_empty, Nat.zero_le _⟩) fun hdisk => ?_)
  have hon : ¬Off c := fun hoff => hdisk (Or.inr hoff.2.2)
  refine Triple.bind (Triple.forM (I := fun _ => Totals c) totals_empty fun _ _ _ h => reopenFile_ok h hon) fun _ s' hs' => ?_
  refine Triple.get_bind (Triple.mono (evictWhile_ok (c := c) (fun _ _ ho => Nat.zero_lt_of_lt ho) hs' (Nat.lt_succ_self _)) ?_ ?_)
  · rintro _ t ⟨ht, hle⟩
    rw [ht.totals.config] at hle
    exact ⟨ht.totals, Nat.le_of_not_lt hle⟩
  · exact fun _ _ hf => hf.mono fun _ _ => trivial

theorem new_ok (h : new o c maxSequenceLength vocabSize files = .ok s) : Valid c ∧ Counts c s := by
  unfold new at h
  split at h
  · cases h
  next hblock =>
  split at h
  · cases h
  next hdirectory =>
  split at h
  · next hexec =>
    cases h
    exact ⟨⟨Nat.pos_of_ne_zero hblock, fun hpos hnone => hdirectory ⟨hpos, hnone⟩⟩, reopenDisk_ok.ok hexec⟩
  · cases h

theorem new_fault {f : Fault} (h : new o c maxSequenceLength vocabSize files = .error f) : Good f := by
  unfold new at h
  split at h
  · cases h
    exact Or.inr ⟨_, rfl, by decide⟩
  split at h
  · cases h
    exact Or.inr ⟨_, rfl, by decide⟩
  split at h
  · cases h
  · next hexec =>
    cases h
    exact (reopenDisk_ok.fault hexec).good

-- Runs

/-- The states that calls come to, where each lookup restores. Between the lookup and the
insertions of a `prefill`, only the model runs. -/
inductive Reached (c : PrefixCacheConfig) : TieredPrefixCache → Prop
  | new {o : Oracle} {maxSequenceLength vocabSize : Nat} {files : List File} {s : TieredPrefixCache}
      (h : new o c maxSequenceLength vocabSize files = .ok s) : Reached c s
  | insert {o : Oracle} {tokens : Tokens} {s s' : TieredPrefixCache} (h : Reached c s)
      (hret : Returns (insert o tokens) s s') : Reached c s'
  | lookup {o : Oracle} {prompt : Tokens} {s s' : TieredPrefixCache} (h : Reached c s) (hrestores : Restores o prompt s)
      (hret : Returns (lookup o prompt) s s') : Reached c s'

theorem Reached.counts (h : Reached c s) : Valid c ∧ Counts c s := by
  induction h with
  | new h => exact new_ok h
  | insert _ hret ih =>
    refine ⟨ih.1, hret.inv (Triple.mono (insert_ok ih.1 ih.2) (fun _ _ hq => hq.1) ?_)⟩
    rintro f t (rfl | ⟨_, -, -, ht⟩)
    · exact Or.inl trivial
    · exact Or.inr ht
  | lookup _ hrestores hret ih =>
    exact ⟨ih.1, hret.inv (Triple.mono (lookup_ok ih.2 hrestores) (fun _ _ hq => hq) fun _ _ hf => hf.elim)⟩

theorem ends_of_returns {α : Type} {m : Method α} {Q : α → TieredPrefixCache → Prop} {P P' : TieredPrefixCache → Prop}
    (h : Triple m s Q (Ends P)) (hret : ∀ s', Returns m s s' → P' s') : Triple m s (fun _ => P') (Ends P') := by
  rcases hm : m.exec s with ⟨f | a, t⟩
  · refine Triple.of_fault hm ((h.fault hm).imp_right ?_)
    rintro ⟨message, rfl, hne, -⟩
    exact ⟨message, rfl, hne, hret _ ⟨_, hm, by rintro _ ⟨⟩ hpanic; exact hpanic⟩⟩
  · exact Triple.of_exec hm (hret _ (Returns.of_ok hm))

theorem Reached.insert_ok (h : Reached c s) : Triple (TieredPrefixCache.insert o tokens) s (fun _ s' => Reached c s') (Ends (Reached c)) :=
  ends_of_returns (TieredPrefixCache.insert_ok h.counts.1 h.counts.2) fun _ hret => h.insert hret

theorem fill_ok {os : Nat → Oracle} (h : Reached c s) (hfuel : prompt.length - start < fuel) :
    Triple (fill os prompt fuel start) s (fun _ s' => Reached c s') (Ends (Reached c)) := by
  induction fuel generalizing s start with
  | zero => exact absurd hfuel (Nat.not_lt_zero _)
  | succ fuel ih =>
    refine Triple.ite (fun hstart => Triple.get_bind ?_) fun _ => Triple.pure' h
    refine Triple.failIf_bind (fun _ => Or.inr ⟨_, rfl, by decide, h⟩) fun _ => ?_
    refine Triple.bind (Triple.catch' h.insert_ok ?_) fun _ s' hs' => ih hs' ?_
    · rintro f t (rfl | ⟨_, rfl, -, ht⟩)
      · exact Triple.panic' (Or.inl rfl)
      · exact Triple.pure' ht
    · rw [h.counts.2.1.config]
      have := Nat.lt_mul_div_succ start h.counts.1.block
      rw [Nat.mul_comm] at this
      split <;> omega

theorem prefill_ok {po : PrefillOracle} (h : Reached c s) (hrestores : Restores po.lookup prompt s) :
    Triple (prefill po prompt) s (fun _ s' => Reached c s') (Ends (Reached c)) := by
  refine Triple.get_bind (Triple.failIf_bind (fun _ => Or.inr ⟨_, rfl, by decide, h⟩) fun _ => ?_)
  have hlookup : Triple (lookup po.lookup prompt) s (fun _ s' => Counts c s') (Ends (Counts c)) :=
    Triple.mono (lookup_ok h.counts.2 hrestores) (fun _ _ hq => hq) fun _ _ hf => hf.elim
  refine Triple.bind (ends_of_returns hlookup fun _ hret => h.lookup hrestores hret) fun existing s' hs' => ?_
  exact fill_ok hs' (Nat.lt_succ_of_le (Nat.sub_le _ _))

/-- As long as no lookup tries a payload on disk in vain, the counters are the sums over their
tiers, no call makes one fall below zero or misses an entry to evict, and an insertion leaves
every tier within its budget; of tokens that have an entry, if they were before. -/
theorem counters_follow_entries (h : Reached c s) :
    (s.stats.deviceEntries = total deviceWeight s ∧ s.stats.hostBytes = total hostWeight s ∧
      s.stats.diskBytes = total diskWeight s) ∧
    (∀ o tokens, Triple (insert o tokens) s (fun _ s' => Fresh s tokens ∨ Within c s → Within c s') (fun f _ => Good f)) ∧
    (∀ o prompt, Restores o prompt s → Triple (lookup o prompt) s (fun _ _ => True) (fun _ _ => False)) ∧
    (∀ po : PrefillOracle, ∀ prompt, Restores po.lookup prompt s →
      Triple (prefill po prompt) s (fun _ s' => Reached c s') (fun f s' => Good f ∧ (¬f.IsPanic → Reached c s'))) ∧
    ∀ o maxSequenceLength vocabSize files f, new o c maxSequenceLength vocabSize files = .error f → Good f := by
  obtain ⟨hc, hcounts⟩ := h.counts
  refine ⟨⟨hcounts.1.device, hcounts.1.host, hcounts.1.disk⟩, fun o tokens => ?_, fun o prompt hrestores => ?_, ?_,
    fun _ _ _ _ _ hnew => new_fault hnew⟩
  · exact Triple.mono (TieredPrefixCache.insert_ok hc hcounts) (fun _ _ hq => hq.2) fun _ _ hf => hf.good
  · exact Triple.mono (lookup_ok hcounts hrestores) (fun _ _ _ => trivial) fun _ _ hf => hf
  · intro po prompt hrestores
    refine Triple.mono (prefill_ok h hrestores) (fun _ _ hq => hq) fun f t hf => ⟨hf.good, fun hpanic => ?_⟩
    rcases hf with rfl | ⟨_, -, -, ht⟩
    · exact absurd trivial hpanic
    · exact ht

/-- Only a disk of ten bytes. -/
def onDisk : PrefixCacheConfig := ⟨4, 0, 0, some "cache", 10⟩

/-- Every operation works, and what is captured has this many bytes. -/
def answers (bytes : Nat) (restore : Tokens → Option Nat) : Oracle :=
  ⟨true, true, fun _ => some bytes, fun _ => true, fun _ => true, restore⟩

def opened : TieredPrefixCache := empty onDisk 8 16

theorem counters_follow_entries_stored :
    ((insert (answers 5 fun _ => none) [1]).next opened).stats.diskBytes =
      total diskWeight ((insert (answers 5 fun _ => none) [1]).next opened) := by
  have hnew : new (answers 5 fun _ => none) onDisk 8 16 [] = .ok opened := rfl
  have hinsert : Returns (insert (answers 5 fun _ => none) [1]) opened ((insert (answers 5 fun _ => none) [1]).next opened) :=
    ⟨_, M.exec_of_fst (r := .ok ()) (by decide), nofun⟩
  exact (counters_follow_entries ((Reached.new hnew).insert hinsert)).1.2.2

/-- A payload of five bytes does not restore: its entry goes and its bytes stay counted, so a
payload of eight bytes finds no room in a budget of ten that nothing takes up. -/
theorem failed_restore_keeps_bytes :
    ∃ s₁ s₂, new (answers 5 fun _ => none) onDisk 8 16 [] = .ok opened ∧
      Returns (insert (answers 5 fun _ => none) [1]) opened s₁ ∧
      Returns (lookup (answers 5 fun _ => none) [1]) s₁ s₂ ∧
      s₂.stats.diskBytes = 5 ∧ total diskWeight s₂ = 0 ∧
      ((insert (answers 8 fun _ => none) [2]).exec s₂).1 = .error (.error noVictim) := by
  refine ⟨_, _, rfl, ⟨_, M.exec_of_fst (r := .ok ()) ?_, nofun⟩, ⟨_, M.exec_of_fst (r := .ok none) ?_, nofun⟩, ?_, ?_, ?_⟩
  all_goals decide

end Ruda.Generation.TieredPrefixCache
