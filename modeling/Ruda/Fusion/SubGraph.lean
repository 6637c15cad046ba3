import Ruda.Lib.Bits
import Ruda.Lib.Machine

/-!
# Sets of graph nodes

A translation of `search/graph/subgraph.rs`. The counts are `u32` and wrap as they do in a
release build. A subgraph is then a finite set of naturals, up to the width of that count.
-/

namespace Ruda.Fusion

/-- `BITS` -/
def wordBits : Nat := 64

/-- `Vec::resize` with zero words. -/
def resizeWords (words : List (BitVec 64)) (len : Nat) : List (BitVec 64) :=
  words.take len ++ List.replicate (len - words.length) 0#64

/-- `for (word, other) in words.iter_mut().zip(others)` -/
def zipWords (f : BitVec 64 → BitVec 64 → BitVec 64) : List (BitVec 64) → List (BitVec 64) → List (BitVec 64)
  | word :: words, other :: others => f word other :: zipWords f words others
  | words, _ => words

/-- Pop trailing zero words. -/
def trimWords (words : List (BitVec 64)) : List (BitVec 64) := words.rdropWhile (· == 0#64)

theorem length_resizeWords (words : List (BitVec 64)) (len : Nat) : (resizeWords words len).length = len := by
  simp [resizeWords]
  omega

theorem getD_resizeWords {words : List (BitVec 64)} {len : Nat} (h : words.length ≤ len) (k : Nat) :
    (resizeWords words len).getD k 0#64 = words.getD k 0#64 := by
  rw [resizeWords, List.take_of_length_le h]
  rcases Nat.lt_or_ge k words.length with hk | hk
  · rw [List.getD_append _ _ _ _ hk]
  · rw [List.getD_append_right _ _ _ _ hk, List.getD_eq_default words _ hk]
    simp [List.getD_eq_getElem?_getD, List.getElem?_replicate]
    split <;> rfl

theorem length_zipWords (f : BitVec 64 → BitVec 64 → BitVec 64) (words others : List (BitVec 64)) :
    (zipWords f words others).length = words.length := by
  induction words generalizing others with
  | nil => cases others <;> rfl
  | cons word words ih => cases others <;> simp [zipWords, ih]

theorem getD_zipWords {f : BitVec 64 → BitVec 64 → BitVec 64} (words others : List (BitVec 64)) {k : Nat}
    (hk : k < words.length) (hright : others.length ≤ k → f (words.getD k 0#64) 0#64 = words.getD k 0#64) :
    (zipWords f words others).getD k 0#64 = f (words.getD k 0#64) (others.getD k 0#64) := by
  induction words generalizing others k with
  | nil => simp at hk
  | cons word words ih =>
    cases others with
    | nil =>
      have h := hright (Nat.zero_le k)
      rw [zipWords, List.getD_nil, h]
      simp
    | cons other others =>
      cases k with
      | zero => simp [zipWords]
      | succ k => simpa [zipWords] using ih others (by simpa using hk) fun h => by simpa using hright (by simpa using h)

theorem trimWords_canonical (words : List (BitVec 64)) : (trimWords words).getLast? ≠ some 0#64 := by
  intro h
  have hne : trimWords words ≠ [] := by
    intro h0
    simp [h0] at h
  have hlast := List.rdropWhile_last_not (· == 0#64) words hne
  rw [List.getLast?_eq_getLast_of_ne_nil hne] at h
  simp only [Option.some.injEq] at h
  exact hlast (by simpa [trimWords] using h)

theorem getD_trimWords (words : List (BitVec 64)) (k : Nat) : (trimWords words).getD k 0#64 = words.getD k 0#64 := by
  induction words using List.reverseRecOn with
  | nil => simp [trimWords]
  | append_singleton words word ih =>
    rw [trimWords, List.rdropWhile_concat]
    split
    · next h =>
      rw [← trimWords, ih]
      have h0 : word = 0#64 := by simpa using h
      rcases Nat.lt_or_ge k words.length with hk | hk
      · rw [List.getD_append _ _ _ _ hk]
      · rw [List.getD_append_right _ _ _ _ hk, List.getD_eq_default words _ hk, h0]
        cases k - words.length <;> simp
    · rfl

theorem words_ext {words others : List (BitVec 64)} (hw : words.getLast? ≠ some 0#64) (ho : others.getLast? ≠ some 0#64)
    (h : ∀ k, words.getD k 0#64 = others.getD k 0#64) : words = others := by
  have hle {l m : List (BitVec 64)} (hm : m.getLast? ≠ some 0#64) (heq : ∀ k, l.getD k 0#64 = m.getD k 0#64) :
      m.length ≤ l.length := by
    by_contra hlt
    push Not at hlt
    have h0 := heq (m.length - 1)
    rw [List.getD_eq_default l _ (by omega)] at h0
    refine hm ?_
    rw [List.getLast?_eq_getElem?, h0, List.getD_eq_getElem?_getD, List.getElem?_eq_getElem (by omega)]
    rfl
  have hlen : words.length = others.length := Nat.le_antisymm (hle hw fun k => (h k).symm) (hle ho h)
  refine List.ext_getElem hlen fun k hk hk' => ?_
  have hk2 := h k
  rwa [List.getD_eq_getElem _ _ hk, List.getD_eq_getElem _ _ hk'] at hk2

theorem canonical_iff {words : List (BitVec 64)} :
    words.getLast? ≠ some 0#64 ↔ (words ≠ [] → words.getD (words.length - 1) 0#64 ≠ 0#64) := by
  rcases List.eq_nil_or_concat words with rfl | ⟨init, last, rfl⟩
  · simp
  · simp

theorem bit_ne_zero (k : Nat) : (1#64 <<< (k % wordBits)) ≠ 0#64 := by
  have hk : k % wordBits < 64 := Nat.mod_lt _ (by decide)
  intro h0
  have hbit := congrArg (fun x : BitVec 64 => x.getLsbD (k % wordBits)) h0
  simp [hk] at hbit

/-- A set of nodes of a `Dag`, identified by their node index. -/
@[ext]
structure SubGraph where
  word0 : BitVec 64
  spill : List (BitVec 64)
  /-- no trailing zero words -/
  canonical : spill.getLast? ≠ some 0#64
  deriving DecidableEq

namespace SubGraph

def empty : SubGraph := ⟨0#64, [], by simp⟩

def isEmpty (s : SubGraph) : Bool := s.word0 == 0#64 && s.spill.isEmpty

def len (s : SubGraph) : Nat :=
  let spill := (s.spill.map fun word => word.cpop.toNat).foldl (fun sum count => wrap32 (sum + count)) 0
  wrap32 (s.word0.cpop.toNat + spill)

/-- Spill words that reach `word`. -/
def grow (spill : List (BitVec 64)) (word : Nat) : List (BitVec 64) :=
  if spill.length ≤ word then resizeWords spill (word + 1) else spill

theorem length_grow (spill : List (BitVec 64)) (word : Nat) : (grow spill word).length = max spill.length (word + 1) := by
  unfold grow
  split
  · rw [length_resizeWords]
    omega
  · omega

theorem getD_grow (spill : List (BitVec 64)) (word k : Nat) : (grow spill word).getD k 0#64 = spill.getD k 0#64 := by
  unfold grow
  split
  · next h => exact getD_resizeWords (by omega) k
  · rfl

/-- `spill[word] |= 1 << bit` -/
def setBit (spill : List (BitVec 64)) (word bit : Nat) : List (BitVec 64) :=
  spill.modify word (· ||| 1#64 <<< bit)

theorem getD_setBit {spill : List (BitVec 64)} {word : Nat} (h : word < spill.length) (bit k : Nat) :
    (setBit spill word bit).getD k 0#64 =
      if k = word then spill.getD k 0#64 ||| 1#64 <<< bit else spill.getD k 0#64 := by
  simp only [setBit, List.getD_eq_getElem?_getD, List.getElem?_modify]
  by_cases hk : k = word
  · subst hk
    simp [List.getElem?_eq_getElem h]
  · simp [hk, Ne.symm hk]

theorem insert_canonical {spill : List (BitVec 64)} (hs : spill.getLast? ≠ some 0#64) (word k : Nat) :
    (setBit (grow spill word) word (k % wordBits)).getLast? ≠ some 0#64 := by
  rw [canonical_iff] at hs ⊢
  intro _
  have hlen : (setBit (grow spill word) word (k % wordBits)).length = max spill.length (word + 1) := by
    rw [setBit, List.length_modify, length_grow]
  rw [hlen, getD_setBit (by rw [length_grow]; omega), getD_grow]
  split
  · intro h0
    exact bit_ne_zero k (BitVec.or_eq_zero_iff.mp h0).2
  · next hne =>
    have hmax : max spill.length (word + 1) - 1 = spill.length - 1 := by omega
    rw [hmax]
    exact hs (List.ne_nil_of_length_pos (by omega))

def insert (s : SubGraph) (node : Nat) : SubGraph :=
  if node < wordBits then { s with word0 := s.word0 ||| 1#64 <<< node }
  else
    let word := node / wordBits - 1
    ⟨s.word0, setBit (grow s.spill word) word (node % wordBits), insert_canonical s.canonical word node⟩

def single (node : Nat) : SubGraph := empty.insert node

/-- The spill words of a union. -/
def joinSpill (spill other : List (BitVec 64)) : List (BitVec 64) :=
  zipWords (· ||| ·) (if spill.length < other.length then resizeWords spill other.length else spill) other

theorem length_joinSpill (spill other : List (BitVec 64)) :
    (joinSpill spill other).length = max spill.length other.length := by
  unfold joinSpill
  rw [length_zipWords]
  split
  · rw [length_resizeWords]
    omega
  · omega

theorem getD_joinSpill (spill other : List (BitVec 64)) (k : Nat) :
    (joinSpill spill other).getD k 0#64 = spill.getD k 0#64 ||| other.getD k 0#64 := by
  rcases Nat.lt_or_ge k (max spill.length other.length) with hk | hk
  · unfold joinSpill
    have hlen := length_joinSpill spill other
    rw [joinSpill, length_zipWords] at hlen
    rw [getD_zipWords _ _ (by omega) fun _ => BitVec.or_zero]
    split
    · next hlt => rw [getD_resizeWords (by omega)]
    · rfl
  · rw [List.getD_eq_default _ _ (by rw [length_joinSpill]; exact hk), List.getD_eq_default spill _ (by omega),
      List.getD_eq_default other _ (by omega)]
    rfl

theorem join_canonical {spill other : List (BitVec 64)} (hs : spill.getLast? ≠ some 0#64)
    (ho : other.getLast? ≠ some 0#64) : (joinSpill spill other).getLast? ≠ some 0#64 := by
  rw [canonical_iff] at hs ho ⊢
  intro hne
  have hpos : 0 < (joinSpill spill other).length := List.length_pos_of_ne_nil hne
  rw [length_joinSpill] at hpos ⊢
  rw [getD_joinSpill]
  intro h0
  obtain ⟨h1, h2⟩ := BitVec.or_eq_zero_iff.mp h0
  rcases Nat.le_total spill.length other.length with hle | hle
  · rw [Nat.max_eq_right hle] at h2 hpos
    exact ho (List.ne_nil_of_length_pos hpos) h2
  · rw [Nat.max_eq_left hle] at h1 hpos
    exact hs (List.ne_nil_of_length_pos hpos) h1

def unionWith (s other : SubGraph) : SubGraph :=
  ⟨s.word0 ||| other.word0, joinSpill s.spill other.spill, join_canonical s.canonical other.canonical⟩

def intersectWith (s other : SubGraph) : SubGraph :=
  ⟨s.word0 &&& other.word0, trimWords (zipWords (· &&& ·) (s.spill.take other.spill.length) other.spill),
    trimWords_canonical _⟩

def subtract (s other : SubGraph) : SubGraph :=
  ⟨s.word0 &&& ~~~other.word0, trimWords (zipWords (fun word other => word &&& ~~~other) s.spill other.spill),
    trimWords_canonical _⟩

/-- The nodes of the subgraph, in ascending index order. -/
def iter (s : SubGraph) : List Nat :=
  (s.word0 :: s.spill).zipIdx.flatMap fun (word, i) => (ones word).map (i * wordBits + ·)

-- The set of a subgraph

def bit (s : SubGraph) (node : Nat) : Bool :=
  ((s.word0 :: s.spill).getD (node / wordBits) 0#64).getLsbD (node % wordBits)

/-- The set that a subgraph stands for. -/
def members (s : SubGraph) : Finset Nat := (Finset.range ((s.spill.length + 1) * wordBits)).filter fun node => s.bit node

theorem mem_members {s : SubGraph} {node : Nat} : node ∈ s.members ↔ s.bit node = true := by
  rw [members, Finset.mem_filter, Finset.mem_range]
  refine ⟨And.right, fun h => ⟨?_, h⟩⟩
  -- past the last word every bit is clear
  by_contra hge
  have hword : s.spill.length + 1 ≤ node / wordBits := by
    rw [Nat.le_div_iff_mul_le (by decide)]
    omega
  rw [bit, List.getD_eq_default _ _ (by simpa using hword)] at h
  simp at h

theorem word_cases (node : Nat) :
    node < wordBits ∧ node / wordBits = 0 ∧ node % wordBits = node ∨
      ¬ node < wordBits ∧ node / wordBits = node / wordBits - 1 + 1 := by
  rcases Nat.lt_or_ge node wordBits with h | h
  · exact .inl ⟨h, Nat.div_eq_of_lt h, Nat.mod_eq_of_lt h⟩
  · have hpos : 0 < node / wordBits := Nat.div_pos h (by decide)
    exact .inr ⟨by omega, by omega⟩

theorem node_ext {node other : Nat} (hword : node / wordBits = other / wordBits) (hbit : node % wordBits = other % wordBits) :
    node = other := by
  rw [← Nat.div_add_mod node wordBits, ← Nat.div_add_mod other wordBits, hword, hbit]

theorem getLsbD_bit (k i : Nat) (hi : i < 64) : (1#64 <<< k).getLsbD i = decide (i = k) := by
  by_cases h : i = k
  · subst h
    simp [hi]
  · have hsub : ¬ i < k → i - k ≠ 0 := by omega
    by_cases hlt : i < k
    · simp [h, hlt]
    · simp [h, hsub hlt]

theorem bit_empty (node : Nat) : empty.bit node = false := by
  rw [bit, empty]
  cases node / wordBits <;> simp

theorem bit_insert (s : SubGraph) (node k : Nat) : (s.insert node).bit k = (s.bit k || k == node) := by
  have hmod : k % wordBits < 64 := Nat.mod_lt _ (by decide)
  unfold insert
  rcases word_cases node with ⟨hlt, hdiv, hnode⟩ | ⟨hge, hdiv⟩
  · rw [if_pos hlt]
    simp only [bit]
    rcases word_cases k with ⟨hk, hkdiv, hkmod⟩ | ⟨hk, hkdiv⟩
    · rw [hkdiv, hkmod]
      simp only [List.getD_cons_zero, BitVec.getLsbD_or]
      rw [getLsbD_bit node k hk]
      rfl
    · have hne : k ≠ node := fun h => hk (h ▸ hlt)
      rw [hkdiv]
      simp [hne]
  · rw [if_neg hge]
    simp only [bit]
    rcases word_cases k with ⟨hk, hkdiv, hkmod⟩ | ⟨hk, hkdiv⟩
    · have hne : k ≠ node := fun h => hge (h ▸ hk)
      rw [hkdiv]
      simp [hne]
    · rw [hkdiv]
      simp only [List.getD_cons_succ]
      rw [getD_setBit (by rw [length_grow]; omega), getD_grow]
      by_cases hword : k / wordBits - 1 = node / wordBits - 1
      · rw [if_pos hword, BitVec.getLsbD_or, getLsbD_bit _ _ hmod]
        have hiff : k % wordBits = node % wordBits ↔ k = node :=
          ⟨fun h => node_ext (by omega) h, fun h => by rw [h]⟩
        rw [decide_eq_decide.mpr hiff]
        rfl
      · have hne : k ≠ node := fun h => hword (by rw [h])
        rw [if_neg hword]
        simp [hne]

theorem bit_of_words {s t u : SubGraph} {f : BitVec 64 → BitVec 64 → BitVec 64} {g : Bool → Bool → Bool}
    (h0 : u.word0 = f s.word0 t.word0) (hspill : ∀ k, u.spill.getD k 0#64 = f (s.spill.getD k 0#64) (t.spill.getD k 0#64))
    (hbit : ∀ (a b : BitVec 64) (i : Nat), i < 64 → (f a b).getLsbD i = g (a.getLsbD i) (b.getLsbD i)) (node : Nat) :
    u.bit node = g (s.bit node) (t.bit node) := by
  have hmod : node % wordBits < 64 := Nat.mod_lt _ (by decide)
  unfold bit
  rw [← hbit _ _ _ hmod]
  cases node / wordBits with
  | zero => simp [h0]
  | succ k => simp only [List.getD_cons_succ, hspill]

theorem bit_unionWith (s t : SubGraph) (node : Nat) : (s.unionWith t).bit node = (s.bit node || t.bit node) :=
  bit_of_words rfl (getD_joinSpill s.spill t.spill) (fun _ _ _ _ => BitVec.getLsbD_or) node

theorem bit_intersectWith (s t : SubGraph) (node : Nat) : (s.intersectWith t).bit node = (s.bit node && t.bit node) := by
  refine bit_of_words rfl (fun k => ?_) (fun _ _ _ _ => BitVec.getLsbD_and) node
  rw [intersectWith, getD_trimWords]
  have htake : (s.spill.take t.spill.length).length = min t.spill.length s.spill.length := List.length_take
  rcases Nat.lt_or_ge k (min t.spill.length s.spill.length) with hk | hk
  · rw [getD_zipWords _ _ (by omega) fun h => by omega]
    congr 1
    rw [List.getD_eq_getElem?_getD, List.getElem?_take_of_lt (by omega), List.getD_eq_getElem?_getD]
  · rw [List.getD_eq_default _ _ (by rw [length_zipWords]; omega)]
    -- one of the sets has no word there
    rcases Nat.le_total t.spill.length s.spill.length with hle | hle
    · rw [List.getD_eq_default t.spill _ (by omega), BitVec.and_zero]
    · rw [List.getD_eq_default s.spill _ (by omega), BitVec.zero_and]

theorem bit_subtract (s t : SubGraph) (node : Nat) : (s.subtract t).bit node = (s.bit node && !t.bit node) := by
  refine bit_of_words (f := fun word other => word &&& ~~~other) (g := fun a b => a && !b) rfl (fun k => ?_)
    (fun a b i hi => ?_) node
  · rw [subtract, getD_trimWords]
    rcases Nat.lt_or_ge k s.spill.length with hk | hk
    · exact getD_zipWords _ _ hk fun _ => BitVec.and_allOnes
    · rw [List.getD_eq_default _ _ (by rw [length_zipWords]; exact hk), List.getD_eq_default s.spill _ hk, BitVec.zero_and]
  · simp [hi]

@[simp] theorem members_empty : empty.members = ∅ := by
  ext node
  simp [mem_members, bit_empty]

@[simp] theorem members_insert (s : SubGraph) (node : Nat) : (s.insert node).members = Insert.insert node s.members := by
  ext k
  rw [mem_members, bit_insert, Finset.mem_insert, mem_members, Bool.or_eq_true, beq_iff_eq, or_comm]

@[simp] theorem members_unionWith (s t : SubGraph) : (s.unionWith t).members = s.members ∪ t.members := by
  ext k
  rw [mem_members, bit_unionWith, Finset.mem_union, mem_members, mem_members, Bool.or_eq_true]

@[simp] theorem members_intersectWith (s t : SubGraph) : (s.intersectWith t).members = s.members ∩ t.members := by
  ext k
  rw [mem_members, bit_intersectWith, Finset.mem_inter, mem_members, mem_members, Bool.and_eq_true]

@[simp] theorem members_subtract (s t : SubGraph) : (s.subtract t).members = s.members \ t.members := by
  ext k
  rw [mem_members, bit_subtract, Finset.mem_sdiff, mem_members, mem_members]
  simp

theorem members_inj {s t : SubGraph} : s.members = t.members ↔ s = t := by
  refine ⟨fun h => ?_, fun h => by rw [h]⟩
  have hbits (node : Nat) : s.bit node = t.bit node := by
    rw [Bool.eq_iff_iff, ← mem_members, ← mem_members, h]
  have hwords (k : Nat) : (s.word0 :: s.spill).getD k 0#64 = (t.word0 :: t.spill).getD k 0#64 := by
    refine BitVec.eq_of_getLsbD_eq fun i hi => ?_
    have hbit := hbits (k * wordBits + i)
    have hdiv : (k * wordBits + i) / wordBits = k := by
      unfold wordBits
      omega
    have hmod : (k * wordBits + i) % wordBits = i := by
      unfold wordBits
      omega
    simpa [bit, hdiv, hmod] using hbit
  have h0 : s.word0 = t.word0 := by simpa using hwords 0
  have hspill : s.spill = t.spill := words_ext s.canonical t.canonical fun k => by simpa using hwords (k + 1)
  cases s
  cases t
  simp_all

-- Iteration and counting

theorem mem_iter {s : SubGraph} {node : Nat} : node ∈ s.iter ↔ node ∈ s.members := by
  rw [mem_members, iter, List.mem_flatMap, bit]
  constructor
  · rintro ⟨⟨word, i⟩, hword, hnode⟩
    obtain ⟨j, hj, rfl⟩ := List.mem_map.mp hnode
    have hlt : j < 64 := ones_lt hj
    have hget := List.mem_zipIdx_iff_getElem?.mp hword
    have hdiv : (i * wordBits + j) / wordBits = i := by
      unfold wordBits
      omega
    have hmod : (i * wordBits + j) % wordBits = j := by
      unfold wordBits
      omega
    rw [hdiv, hmod, List.getD_eq_getElem?_getD, hget]
    exact mem_ones.mp hj
  · intro hbit
    cases hget : (s.word0 :: s.spill)[node / wordBits]? with
    | none =>
      rw [List.getD_eq_getElem?_getD, hget] at hbit
      simp at hbit
    | some word =>
      rw [List.getD_eq_getElem?_getD, hget] at hbit
      refine ⟨(word, node / wordBits), List.mem_zipIdx_iff_getElem?.mpr hget, List.mem_map.mpr ⟨node % wordBits, ?_, ?_⟩⟩
      · exact mem_ones.mpr hbit
      · exact Nat.div_add_mod' node wordBits

theorem iter_sorted (s : SubGraph) : s.iter.Pairwise (· < ·) := by
  rw [iter, List.pairwise_flatMap]
  refine ⟨fun ⟨word, i⟩ _ => List.pairwise_map.mpr ((ones_sorted word).imp fun h => by simpa using h), ?_⟩
  -- a later word holds later nodes
  refine List.Pairwise.imp (R := fun a b => a.2 < b.2) (fun {a b} h x hx y hy => ?_) ?_
  · obtain ⟨i, hi, rfl⟩ := List.mem_map.mp hx
    obtain ⟨j, -, rfl⟩ := List.mem_map.mp hy
    have hlt : i < wordBits := ones_lt hi
    calc a.2 * wordBits + i < (a.2 + 1) * wordBits := by rw [Nat.succ_mul]; omega
      _ ≤ b.2 * wordBits := Nat.mul_le_mul_right _ h
      _ ≤ b.2 * wordBits + j := Nat.le_add_right _ _
  · rw [← List.pairwise_map (f := Prod.snd) (R := (· < ·)), List.zipIdx_map_snd]
    exact List.pairwise_lt_range'

theorem iter_eq (s : SubGraph) : s.iter = s.members.sort (· ≤ ·) := by
  refine List.Perm.eq_of_pairwise (fun a b _ _ h h' => absurd h (by omega)) s.iter_sorted
    (Finset.sortedLT_sort s.members).pairwise ?_
  refine (List.perm_ext_iff_of_nodup (s.iter_sorted.imp Nat.ne_of_lt) (Finset.sort_nodup _ _)).mpr fun node => ?_
  rw [mem_iter, Finset.mem_sort]

theorem length_iter (s : SubGraph) :
    s.iter.length = s.word0.cpop.toNat + (s.spill.map fun word => word.cpop.toNat).sum := by
  have hlen (words : List (BitVec 64)) (i : Nat) :
      ((words.zipIdx i).flatMap fun (word, i) => (ones word).map (i * wordBits + ·)).length =
        (words.map fun word => word.cpop.toNat).sum := by
    induction words generalizing i with
    | nil => rfl
    | cons word words ih => simp [List.zipIdx_cons, ih, length_ones]
  exact hlen (s.word0 :: s.spill) 0

theorem foldl_wrap32 (counts : List Nat) (sum : Nat) :
    counts.foldl (fun sum count => wrap32 (sum + count)) (wrap32 sum) = wrap32 (sum + counts.sum) := by
  induction counts generalizing sum with
  | nil => rfl
  | cons count counts ih =>
    have hadd : wrap32 (wrap32 sum + count) = wrap32 (sum + count) := by simp [wrap32]
    rw [List.foldl_cons, hadd, ih, List.sum_cons, Nat.add_assoc]

theorem len_eq (s : SubGraph) : s.len = wrap32 s.members.card := by
  have hcard : s.members.card = s.iter.length := by rw [iter_eq, Finset.length_sort]
  have hfold := foldl_wrap32 (s.spill.map fun word => word.cpop.toNat) 0
  rw [show wrap32 0 = 0 from rfl, Nat.zero_add] at hfold
  rw [hcard, length_iter, len, hfold]
  simp [wrap32]

theorem len_of_lt {s : SubGraph} (h : s.members.card < 2 ^ 32) : s.len = s.members.card := by
  rw [len_eq, wrap32_of_le (by unfold u32Max; omega)]

theorem isEmpty_iff (s : SubGraph) : s.isEmpty = true ↔ s.members = ∅ := by
  have hempty : s.isEmpty = true ↔ s = empty := by
    cases s
    simp [isEmpty, empty, SubGraph.ext_iff]
  rw [hempty, ← members_inj, members_empty]

theorem members_single (node : Nat) : (single node).members = {node} := by
  rw [single, members_insert, members_empty, insert_empty_eq]

end SubGraph

end Ruda.Fusion
