import Wujian100.Library.Digits

/-!
# Bytes and Words

How the programs of the board read a buffer. Both the host tools and the E902
cores are little-endian, so a buffer of bytes cast to `uint32_t *` yields the
words `wordsOfBytes`, and the bytes of a word array in memory order are
`bytesOfWords`. A signature and a digest are big-endian numbers.

## Main definitions

* `leValue`: The number a buffer holds, lowest byte first.
* `beValue`: The number a buffer holds, highest byte first.
* `leBytes`: A number written to a buffer of a given length, lowest byte first.
* `wordsOfBytes`: A buffer read through a `uint32_t *`.
* `bytesOfWords`: The bytes of a `uint32_t` array.
-/

namespace Wujian100

/-- The number a buffer holds, lowest byte first. -/
def leValue (l : List UInt8) : Nat := Nat.ofDigits 256 (l.map UInt8.toNat)

/-- The number a buffer holds, highest byte first. -/
def beValue (l : List UInt8) : Nat := leValue l.reverse

/-- The low `n` bytes of a number, lowest first. -/
def leBytes (n v : Nat) : List UInt8 := (toDigits 256 n v).map UInt8.ofNat

/-- `(const uint32_t *)buf`: the words of a buffer, each from four bytes. -/
def wordsOfBytes : List UInt8 → List Nat
  | a :: b :: c :: d :: rest => leValue [a, b, c, d] :: wordsOfBytes rest
  | _ => []

/-- The bytes of a word array, in memory order. -/
def bytesOfWords (ws : List Nat) : List UInt8 := ws.flatMap (leBytes 4)

@[simp] theorem length_leBytes (n v : Nat) : (leBytes n v).length = n := by
  simp only [leBytes, List.length_map, length_toDigits]

theorem map_toNat_leBytes (n v : Nat) : (leBytes n v).map UInt8.toNat = toDigits 256 n v := by
  rw [leBytes, List.map_map]
  refine (List.map_congr_left (fun d hd => ?_)).trans (List.map_id _)
  have hlt : d < 256 := toDigits_lt 256 n v (by omega) d hd
  simp only [Function.comp_apply, UInt8.toNat_ofNat', id]
  omega

theorem leValue_leBytes (n v : Nat) : leValue (leBytes n v) = v % 256 ^ n := by
  rw [leValue, map_toNat_leBytes, ofDigits_toDigits]

theorem leValue_cons (b : UInt8) (l : List UInt8) :
    leValue (b :: l) = b.toNat + 256 * leValue l := by
  simp only [leValue, List.map_cons, Nat.ofDigits_cons]

theorem leValue_append (l r : List UInt8) :
    leValue (l ++ r) = leValue l + 256 ^ l.length * leValue r := by
  simp only [leValue, List.map_append, Nat.ofDigits_append, List.length_map]

theorem leValue_lt (l : List UInt8) : leValue l < 256 ^ l.length := by
  have h := Nat.ofDigits_lt_base_pow_length (b := 256) (l := l.map UInt8.toNat) (by omega)
    (fun d hd => by
      rcases List.mem_map.mp hd with ⟨b, _, rfl⟩
      exact b.toNat_lt)
  simpa only [leValue, List.length_map] using h

theorem leBytes_leValue (l : List UInt8) : leBytes l.length (leValue l) = l := by
  have h : toDigits 256 (l.map UInt8.toNat).length (leValue l) = l.map UInt8.toNat := by
    refine toDigits_ofDigits 256 _ (fun d hd => ?_)
    rcases List.mem_map.mp hd with ⟨b, _, rfl⟩
    exact b.toNat_lt
  rw [List.length_map] at h
  rw [leBytes, h, List.map_map]
  refine (List.map_congr_left (fun b _ => ?_)).trans (List.map_id _)
  simp only [Function.comp_apply, UInt8.ofNat_toNat, id]

/-- Two buffers of one length holding the same number are equal. -/
theorem leValue_inj {l r : List UInt8} (hlen : l.length = r.length)
    (h : leValue l = leValue r) : l = r := by
  rw [← leBytes_leValue l, ← leBytes_leValue r, h, hlen]

/-- The low bytes of a buffer hold the number modulo their power. -/
theorem leValue_take (l : List UInt8) (n : Nat) (hn : n ≤ l.length) :
    leValue (l.take n) = leValue l % 256 ^ n := by
  have hlen : (l.take n).length = n := by rw [List.length_take]; omega
  have hlt : leValue (l.take n) < 256 ^ n := by
    have h := leValue_lt (l.take n)
    rwa [hlen] at h
  have hsplit : leValue l = leValue (l.take n) + 256 ^ n * leValue (l.drop n) := by
    conv_lhs => rw [← List.take_append_drop n l, leValue_append, hlen]
  rw [hsplit, Nat.add_mul_mod_self_left, Nat.mod_eq_of_lt hlt]

/-- Reading a buffer by words instead of bytes yields the same number. -/
theorem ofDigits_wordsOfBytes : ∀ (l : List UInt8), l.length % 4 = 0 →
    Nat.ofDigits (2 ^ 32) (wordsOfBytes l) = leValue l
  | [], _ => rfl
  | [a], h => by simp only [List.length_cons, List.length_nil] at h; omega
  | [a, b], h => by simp only [List.length_cons, List.length_nil] at h; omega
  | [a, b, c], h => by simp only [List.length_cons, List.length_nil] at h; omega
  | a :: b :: c :: d :: rest, h => by
      have hrest : rest.length % 4 = 0 := by
        simp only [List.length_cons] at h
        omega
      have ih := ofDigits_wordsOfBytes rest hrest
      rw [wordsOfBytes, Nat.ofDigits_cons, ih]
      rw [show a :: b :: c :: d :: rest = [a, b, c, d] ++ rest from rfl, leValue_append]
      simp only [List.length_cons, List.length_nil]
      norm_num

theorem length_wordsOfBytes : ∀ (l : List UInt8), (wordsOfBytes l).length = l.length / 4
  | [] => by simp only [wordsOfBytes, List.length_nil, Nat.zero_div]
  | [a] => by simp only [wordsOfBytes, List.length_cons, List.length_nil, Nat.reduceAdd,
      Nat.reduceDiv]
  | [a, b] => by simp only [wordsOfBytes, List.length_cons, List.length_nil, Nat.reduceAdd,
      Nat.reduceDiv]
  | [a, b, c] => by simp only [wordsOfBytes, List.length_cons, List.length_nil, Nat.reduceAdd,
      Nat.reduceDiv]
  | a :: b :: c :: d :: rest => by
      simp only [wordsOfBytes, List.length_cons, length_wordsOfBytes rest]
      omega

/-- Writing a number by words leaves the same bytes as writing it by bytes. -/
theorem bytesOfWords_toDigits (n v : Nat) :
    bytesOfWords (toDigits (2 ^ 32) n v) = leBytes (4 * n) v := by
  induction n generalizing v with
  | zero => rfl
  | succ k ih =>
      have hlow : leBytes 4 (v % 2 ^ 32) = leBytes 4 v := by
        refine leValue_inj (by simp only [length_leBytes]) ?_
        rw [leValue_leBytes, leValue_leBytes]
        omega
      have hsplit : leBytes (4 * (k + 1)) v = leBytes 4 v ++ leBytes (4 * k) (v / 2 ^ 32) := by
        rw [show 4 * (k + 1) = 4 + 4 * k by omega]
        simp only [leBytes, toDigits_add, List.map_append]
        norm_num
      simp only [toDigits, bytesOfWords, List.flatMap_cons] at ih ⊢
      rw [ih, hlow, hsplit]

end Wujian100
