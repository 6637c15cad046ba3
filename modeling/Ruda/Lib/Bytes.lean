import Mathlib

/-!
# Words in byte buffers

Little-endian words of a fixed number of bytes, laid out one after the other, and
buffers that are filled from the front.
-/

namespace Ruda

/-- The `n` low bytes of `v`, lowest first. -/
def leBytes : Nat → Nat → List UInt8
  | 0, _ => []
  | n + 1, v => UInt8.ofNat v :: leBytes n (v / 256)

def leValue : List UInt8 → Nat
  | [] => 0
  | b :: bytes => b.toNat + 256 * leValue bytes

@[simp] theorem leBytes_length (n v : Nat) : (leBytes n v).length = n := by
  induction n generalizing v with
  | zero => rfl
  | succ n ih => rw [leBytes, List.length_cons, ih]

theorem leValue_leBytes {n v : Nat} (h : v < 256 ^ n) : leValue (leBytes n v) = v := by
  induction n generalizing v with
  | zero =>
    rw [Nat.pow_zero, Nat.lt_one_iff] at h
    rw [h]
    rfl
  | succ n ih =>
    have hdiv : v / 256 < 256 ^ n := by
      rw [Nat.div_lt_iff_lt_mul (by decide), ← Nat.pow_succ]
      exact h
    rw [leBytes, leValue, ih hdiv, UInt8.toNat_ofNat']
    exact Nat.mod_add_div v 256

theorem leValue_append (a b : List UInt8) : leValue (a ++ b) = leValue a + 256 ^ a.length * leValue b := by
  induction a with
  | nil => rw [List.nil_append, leValue, List.length_nil, Nat.pow_zero, Nat.one_mul, Nat.zero_add]
  | cons x a ih =>
    rw [List.cons_append, leValue, leValue, ih, List.length_cons, Nat.pow_succ']
    ring

theorem leValue_lt (a : List UInt8) : leValue a < 256 ^ a.length := by
  induction a with
  | nil => exact Nat.one_pos
  | cons x a ih =>
    have hx : x.toNat < 256 := x.toNat_lt
    rw [leValue, List.length_cons, Nat.pow_succ']
    omega

/-- Words of `size` bytes, one after the other. -/
def wordsBytes (size : Nat) (words : List Nat) : List UInt8 := words.flatMap (leBytes size)

/-- The word at index `i`. -/
def readWord (size : Nat) (bytes : List UInt8) (i : Nat) : Nat :=
  leValue ((bytes.drop (i * size)).take size)

variable {size : Nat} {words : List Nat}

@[simp] theorem wordsBytes_length : (wordsBytes size words).length = words.length * size := by
  simp [wordsBytes, List.length_flatMap, List.map_const']

@[simp] theorem wordsBytes_append {more : List Nat} :
    wordsBytes size (words ++ more) = wordsBytes size words ++ wordsBytes size more :=
  List.flatMap_append

theorem readWord_wordsBytes {rest : List UInt8} {i v : Nat} (hv : words[i]? = some v)
    (hfit : v < 256 ^ size) : readWord size (wordsBytes size words ++ rest) i = v := by
  obtain ⟨hi, rfl⟩ := List.getElem?_eq_some_iff.mp hv
  have hsplit : words = words.take i ++ words[i] :: words.drop (i + 1) := by simp
  have hlen : (wordsBytes size (words.take i)).length = i * size := by
    rw [wordsBytes_length, List.length_take, min_eq_left hi.le]
  have hword : wordsBytes size (words[i] :: words.drop (i + 1)) =
      leBytes size words[i] ++ wordsBytes size (words.drop (i + 1)) := List.flatMap_cons
  have hbytes : wordsBytes size words =
      wordsBytes size (words.take i) ++ (leBytes size words[i] ++ wordsBytes size (words.drop (i + 1))) := by
    rw [← hword, ← wordsBytes_append, ← hsplit]
  rw [readWord, hbytes, List.append_assoc, List.append_assoc, ← hlen, List.drop_left]
  have htake : (leBytes size words[i] ++ (wordsBytes size (words.drop (i + 1)) ++ rest)).take size =
      leBytes size words[i] := by
    rw [List.take_append_of_le_length (by simp), List.take_of_length_le (by simp)]
  rw [htake, leValue_leBytes hfit]

end Ruda
