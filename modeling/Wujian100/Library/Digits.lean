import Mathlib.Data.Nat.Digits.Lemmas
import Mathlib.Algebra.BigOperators.Intervals
import Mathlib.Algebra.BigOperators.Ring.Finset
import Mathlib.Tactic.Ring

/-!
# Fixed-Length Digit Strings

Numbers held in a fixed number of digits of a fixed base: the bytes of a
buffer, the words of a register file, the entries of a memory.

Mathlib's `Nat.ofDigits` reads a list of digits, least significant first, and
its inverse `Nat.digits` drops leading zeros. A buffer keeps them, so
`toDigits` produces a list of a given length instead, and the two are mutually
inverse on lists of that length.

A memory is not a list but a function from addresses to words, and a proof
about a loop over it wants to talk about the words below a moving index.
`value` is the same reading for a function, written as a sum so that the words
below `n + 1` split into the words below `n` and one more.

## Main definitions

* `toDigits`: The digits of a number, to a fixed length.
* `value`: The number the first words of a memory hold.

## Theorems

* `ofDigits_toDigits`: Reading back a fixed-length digit string.
* `toDigits_ofDigits`: A digit string of the right length is its own reading.
* `value_succ`: One more word.
* `value_lt`: Words below the base hold a number below its power.
* `value_congr`: The value depends only on the words it covers.
* `value_digits`: The words of a number hold it.
* `value_lt_of_agree`: Comparing two memories from the top.
* `value_inj`: Two memories holding the same number agree word by word.
* `xor_add_two_mul_majority`: A row of full adders.
-/

namespace Wujian100

/-- The `n` least significant digits of `v` in base `b`, lowest first. -/
def toDigits (b : Nat) : Nat → Nat → List Nat
  | 0, _ => []
  | n + 1, v => v % b :: toDigits b n (v / b)

@[simp] theorem length_toDigits (b n v : Nat) : (toDigits b n v).length = n := by
  induction n generalizing v with
  | zero => rfl
  | succ k ih => simp only [toDigits, List.length_cons, ih]

theorem toDigits_lt (b n v : Nat) (hb : 0 < b) : ∀ d ∈ toDigits b n v, d < b := by
  induction n generalizing v with
  | zero => intro d hd; simp only [toDigits, List.not_mem_nil] at hd
  | succ k ih =>
      intro d hd
      simp only [toDigits, List.mem_cons] at hd
      rcases hd with rfl | hd
      · exact Nat.mod_lt _ hb
      · exact ih _ d hd

theorem ofDigits_toDigits (b n v : Nat) : Nat.ofDigits b (toDigits b n v) = v % b ^ n := by
  induction n generalizing v with
  | zero => simp only [toDigits, Nat.ofDigits_nil, pow_zero, Nat.mod_one]
  | succ k ih =>
      simp only [toDigits, Nat.ofDigits_cons, ih]
      rw [pow_succ, Nat.mul_comm (b ^ k) b, Nat.mod_mul]

theorem toDigits_ofDigits (b : Nat) (l : List Nat) (hl : ∀ d ∈ l, d < b) :
    toDigits b l.length (Nat.ofDigits b l) = l := by
  induction l with
  | nil => rfl
  | cons d t ih =>
      have hd : d < b := hl d (List.mem_cons_self ..)
      have hb : 0 < b := by omega
      have ht : toDigits b t.length (Nat.ofDigits b t) = t :=
        ih (fun e he => hl e (List.mem_cons_of_mem _ he))
      have hdiv : (d + b * Nat.ofDigits b t) / b = Nat.ofDigits b t := by
        rw [Nat.add_mul_div_left _ _ hb, Nat.div_eq_of_lt hd, Nat.zero_add]
      simp only [List.length_cons, toDigits, Nat.ofDigits_cons, hdiv, ht]
      rw [Nat.add_mul_mod_self_left, Nat.mod_eq_of_lt hd]

/-- A digit string of length `m + n` is the low string followed by the high
    one. -/
theorem toDigits_add (b m n v : Nat) :
    toDigits b (m + n) v = toDigits b m v ++ toDigits b n (v / b ^ m) := by
  induction m generalizing v with
  | zero => simp only [Nat.zero_add, toDigits, pow_zero, Nat.div_one, List.nil_append]
  | succ k ih =>
      rw [show k + 1 + n = k + n + 1 by omega]
      simp only [toDigits, ih, List.cons_append]
      rw [Nat.div_div_eq_div_mul, ← pow_succ']

/-- Each digit by itself. -/
theorem toDigits_eq_map (b n v : Nat) :
    toDigits b n v = (List.range n).map fun l => v / b ^ l % b := by
  induction n generalizing v with
  | zero => rfl
  | succ n ih =>
      rw [toDigits, ih, List.range_succ_eq_map, List.map_cons, List.map_map, pow_zero, Nat.div_one]
      congr 1
      refine List.map_congr_left ?_
      intro l _
      rw [Function.comp_apply, Nat.succ_eq_add_one, Nat.div_div_eq_div_mul, ← pow_succ']

/-- The number held by the words below `n`, word `i` weighing `β ^ i`. -/
def value (β n : Nat) (f : Nat → Nat) : Nat :=
  ∑ i ∈ Finset.range n, f i * β ^ i

@[simp] theorem value_zero (β : Nat) (f : Nat → Nat) : value β 0 f = 0 := by
  simp only [value, Finset.range_zero, Finset.sum_empty]

theorem value_succ (β n : Nat) (f : Nat → Nat) :
    value β (n + 1) f = value β n f + f n * β ^ n := by
  simp only [value, Finset.sum_range_succ]

/-- Splitting off the lowest word instead of the highest. -/
theorem value_succ' (β n : Nat) (f : Nat → Nat) :
    value β (n + 1) f = f 0 + β * value β n (fun i => f (i + 1)) := by
  simp only [value, Finset.sum_range_succ', Finset.mul_sum, pow_zero, Nat.mul_one]
  rw [Nat.add_comm]
  congr 1
  refine Finset.sum_congr rfl (fun i _ => ?_)
  rw [pow_succ]
  ring

theorem value_congr {β n : Nat} {f g : Nat → Nat} (h : ∀ i, i < n → f i = g i) :
    value β n f = value β n g := by
  refine Finset.sum_congr rfl (fun i hi => ?_)
  rw [h i (Finset.mem_range.mp hi)]

theorem value_lt {β n : Nat} {f : Nat → Nat} (h : ∀ i, i < n → f i < β) :
    value β n f < β ^ n := by
  induction n with
  | zero => simp only [value_zero, pow_zero, Nat.zero_lt_one]
  | succ k ih =>
      have hlow : value β k f < β ^ k := ih (fun i hi => h i (by omega))
      have htop : f k + 1 ≤ β := h k (by omega)
      calc value β (k + 1) f = value β k f + f k * β ^ k := value_succ β k f
        _ < β ^ k + f k * β ^ k := by omega
        _ = (f k + 1) * β ^ k := by ring
        _ ≤ β * β ^ k := Nat.mul_le_mul_right _ htop
        _ = β ^ (k + 1) := by rw [pow_succ']

/-- Words that agree down to one that does not are compared by it. -/
theorem value_lt_of_agree {β n k : Nat} {f g : Nat → Nat} (hf : ∀ i, i < n → f i < β)
    (hk : k < n) (hlt : f k < g k) (hagree : ∀ i, k < i → i < n → f i = g i) :
    value β n f < value β n g := by
  induction n with
  | zero => omega
  | succ n ih =>
      rw [value_succ, value_succ]
      by_cases hkn : k = n
      · subst hkn
        have hlow : value β k f < β ^ k := value_lt fun i hi => hf i (by omega)
        have htop : (f k + 1) * β ^ k ≤ g k * β ^ k := Nat.mul_le_mul_right _ hlt
        rw [Nat.add_mul, Nat.one_mul] at htop
        omega
      · have hlow := ih (fun i hi => hf i (by omega)) (by omega)
          (fun i hi hin => hagree i hi (by omega))
        rw [hagree n (by omega) (by omega)]
        omega

/-- Reading the memory as a list of digits. -/
theorem ofDigits_map_range (β n : Nat) (f : Nat → Nat) :
    Nat.ofDigits β ((List.range n).map f) = value β n f := by
  induction n with
  | zero => simp only [List.range_zero, List.map_nil, Nat.ofDigits_nil, value_zero]
  | succ k ih =>
      rw [List.range_succ, List.map_append, Nat.ofDigits_append, ih, value_succ]
      simp only [List.map_cons, List.map_nil, Nat.ofDigits_singleton, List.length_map,
        List.length_range]
      ring

/-- The words of a number hold it. -/
theorem value_digits (β n v : Nat) : value β n (fun k => v / β ^ k % β) = v % β ^ n := by
  induction n with
  | zero => rw [value_zero, pow_zero, Nat.mod_one]
  | succ k ih =>
      rw [value_succ, ih, pow_succ, Nat.mod_mul]
      ring

/-- Two memories holding the same number agree word by word. -/
theorem value_inj {β n : Nat} {f g : Nat → Nat} (hf : ∀ i, i < n → f i < β)
    (hg : ∀ i, i < n → g i < β) (h : value β n f = value β n g) :
    ∀ i, i < n → f i = g i := by
  induction n with
  | zero => intro i hi; omega
  | succ k ih =>
      have hflow : value β k f < β ^ k := value_lt (fun i hi => hf i (by omega))
      have hglow : value β k g < β ^ k := value_lt (fun i hi => hg i (by omega))
      rw [value_succ, value_succ] at h
      have hpos : 0 < β ^ k := by omega
      -- The two halves are a remainder and a quotient by the same power.
      have htop : f k = g k := by
        have h1 : (value β k f + f k * β ^ k) / β ^ k = f k := by
          rw [Nat.add_mul_div_right _ _ hpos, Nat.div_eq_of_lt hflow, Nat.zero_add]
        have h2 : (value β k g + g k * β ^ k) / β ^ k = g k := by
          rw [Nat.add_mul_div_right _ _ hpos, Nat.div_eq_of_lt hglow, Nat.zero_add]
        rw [← h1, ← h2, h]
      have hlow : value β k f = value β k g := by
        rw [htop] at h
        omega
      intro i hi
      by_cases hik : i = k
      · rw [hik, htop]
      · exact ih (fun j hj => hf j (by omega)) (fun j hj => hg j (by omega)) hlow i (by omega)

/-! ## Three numbers into two -/

/-- Three numbers add up to their bitwise sum and twice their bitwise majority,
    the outputs of a row of full adders. -/
theorem xor_add_two_mul_majority (n : Nat) : ∀ a b c, a < 2 ^ n → b < 2 ^ n → c < 2 ^ n →
    (a ^^^ b ^^^ c) + 2 * ((a &&& b) ||| (c &&& (a ^^^ b))) = a + b + c := by
  induction n with
  | zero =>
      intro a b c ha hb hc
      rw [pow_zero, Nat.lt_one_iff] at ha hb hc
      rw [ha, hb, hc]
      rfl
  | succ n ih =>
      intro a b c ha hb hc
      rw [pow_succ] at ha hb hc
      -- The bits above the lowest are those of the halves.
      have hrest := ih (a / 2) (b / 2) (c / 2) (by omega) (by omega) (by omega)
      simp only [← Nat.xor_div_two, ← Nat.and_div_two, ← Nat.or_div_two] at hrest
      have hsum : (a ^^^ b ^^^ c) % 2 = 1 ↔ ¬ ((¬ (a % 2 = 1 ↔ b % 2 = 1)) ↔ c % 2 = 1) := by
        simp only [Nat.xor_mod_two_eq_one]
      have hmaj : ((a &&& b) ||| (c &&& (a ^^^ b))) % 2 = 1
          ↔ (a % 2 = 1 ∧ b % 2 = 1) ∨ (c % 2 = 1 ∧ ¬ (a % 2 = 1 ↔ b % 2 = 1)) := by
        simp only [Nat.or_mod_two_eq_one, Nat.and_mod_two_eq_one, Nat.xor_mod_two_eq_one]
      generalize (a ^^^ b ^^^ c) = u at *
      generalize ((a &&& b) ||| (c &&& (a ^^^ b))) = v at *
      omega

end Wujian100
