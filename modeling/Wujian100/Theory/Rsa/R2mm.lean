import Mathlib.Data.Int.ModEq
import Wujian100.Core.Rsa.R2mm
import Wujian100.Library.Montgomery

/-!
# The Radix-2 Multipliers Agree

The unit, its two bit-serial models and the word-serial one all run the rounds
of Montgomery's multiplication: the bit-serial ones over base 2 with the bits of
`x`, the word-serial one over base `2 ^ k` with the words of `y`. The accumulator
stays below `y + m`, which is what the masks and the registers have room for.

## Main definitions

* `bits`: The bits of a number as words of base 2.
* `RowOk`: What the rows of `mont_iddmm` keep.
* `Accumulating`: What the clocks of the unit keep.

## Theorems

* `montR2mmLoop_eq`: The loop of `mont_r2mm` runs the rounds.
* `montR2mmHdBit_eq`, `mmR2mm_eq`: Neither masks nor wires cut anything off.
* `modInv_spec`: `mod_inv` inverts.
* `rowOk_row`: One row of `mont_iddmm` is a round.
* `accumulating_step`: One clock of the unit is two rounds.
* `multipliers_agree`: All four compute the same product.
-/

namespace Wujian100

namespace Rsa

/-! ## Rounds in base 2 -/

/-- The bits of a number. -/
def bits (x i : Nat) : Nat :=
  x / 2 ^ i % 2

theorem mm_eq (x k : Nat) : mm x k = x % 2 ^ k :=
  Nat.and_two_pow_sub_one_eq_mod x k

theorem mm_of_lt {x k : Nat} (h : x < 2 ^ k) : mm x k = x := by
  rw [mm_eq, Nat.mod_eq_of_lt h]

theorem bits_lt (x i : Nat) : bits x i < 2 :=
  Nat.mod_lt _ Nat.two_pos

/-- A bit times a number, as Python and the unit write it. -/
theorem bit_mul (x y i : Nat) :
    (if (x >>> i) &&& 1 = 1 then 1 else 0) * y = y * bits x i := by
  have hbit : (x >>> i) &&& 1 = bits x i := by
    rw [Nat.and_one_is_mod, Nat.shiftRight_eq_div_pow, bits]
  rw [hbit]
  have hlt := bits_lt x i
  by_cases h : bits x i = 1
  · rw [if_pos h, h, Nat.mul_comm]
  · rw [if_neg h, show bits x i = 0 by omega, Nat.zero_mul, Nat.mul_zero]

/-- A round in base 2: half of the sum, or of the sum and the modulus. -/
theorem round_two (y m a b : Nat) :
    round 2 y m 1 a b
      = if (a + y * b) % 2 = 0 then (a + y * b) / 2 else (a + y * b + m) / 2 := by
  unfold round clearing
  by_cases h : (a + y * b) % 2 = 0
  · rw [if_pos h, h]
    simp
  · have hone : (a + y * b) % 2 = 1 := by omega
    rw [if_neg h, hone]
    simp

theorem montR2mmBit_eq (xx yy m s i : Nat) :
    montR2mmBit xx yy m s i = round 2 yy m 1 s (bits xx i) := by
  unfold montR2mmBit
  rw [bit_mul, round_two]

/-- The loop of `mont_r2mm` runs the rounds. -/
theorem montR2mmLoop_eq (xx yy m i : Nat) :
    montR2mmLoop xx yy m i = rounds 2 yy m 1 (bits xx) i := by
  unfold montR2mmLoop
  induction i with
  | zero => rfl
  | succ i ih =>
      rw [List.range_succ, List.foldl_append, ih]
      exact montR2mmBit_eq xx yy m _ i

section Operands

variable {K m x y : Nat} (hodd : m % 2 = 1)

include hodd

/-- Minus one inverts an odd modulus in base 2. -/
theorem dvd_odd : 2 ∣ 1 * m + 1 := by
  omega

theorem coprime_odd (k : Nat) : Nat.Coprime (2 ^ k) m :=
  Nat.Coprime.pow_left k (Nat.coprime_two_left.mpr (Nat.odd_iff.mpr hodd))

/-- The accumulator fits in `K + 1` bits. -/
theorem loop_lt (hm : m < 2 ^ K) (hy : y < m) (i : Nat) :
    montR2mmLoop x y m i < 2 ^ (K + 1) := by
  have h : montR2mmLoop x y m i < y + m := by
    rw [montR2mmLoop_eq]
    exact rounds_lt (dvd_odd hodd) (by omega) (fun j _ => bits_lt x j)
  rw [pow_succ]
  omega

/-- What the rounds come to after the last subtraction. -/
theorem montR2mm_eq (hx : x < 2 ^ K) (hy : y < m) :
    montR2mm x y m K = montMul m (2 ^ K) x y := by
  have hval : value 2 K (bits x) = x := by
    have h := value_digits 2 K x
    rwa [Nat.mod_eq_of_lt hx] at h
  have hxy : y * value 2 K (bits x) < 2 ^ K * m := by
    rw [hval, Nat.mul_comm y x]
    exact Nat.mul_lt_mul'' hx hy
  have h := montMul_of_rounds Nat.two_pos (by omega) (coprime_odd hodd K) (dvd_odd hodd) hxy
  rw [hval, montMul_comm] at h
  unfold montR2mm
  rw [montR2mmLoop_eq]
  exact h

end Operands

/-! ## The masks -/

section Masks

variable {K m x y : Nat} (hm : m < 2 ^ K) (hy : y < 2 ^ K)

include hy

/-- The sum of `mont_r2mm_hd` is the sum itself, and fits in `k + 2` bits. -/
theorem hdSum_eq {s : Nat} (hs : s < 2 ^ (K + 1)) (i : Nat) :
    hdSum x y K s i = s + y * bits x i ∧ hdSum x y K s i < 2 ^ (K + 1) + 2 ^ K := by
  have hsum : hdSum x y K s i = s + y * bits x i := by
    unfold hdSum
    rw [bit_mul, mm_of_lt hs, mm_of_lt hy]
  have hle : y * bits x i ≤ y * 1 := Nat.mul_le_mul_left y (by have := bits_lt x i; omega)
  refine ⟨hsum, ?_⟩
  rw [hsum]
  omega

include hm

/-- No mask of `mont_r2mm_hd` cuts anything off. -/
theorem montR2mmHdBit_eq {s : Nat} (hs : s < 2 ^ (K + 1)) (i : Nat) :
    montR2mmHdBit x y m K s i = round 2 y m 1 s (bits x i) := by
  rcases hdSum_eq (x := x) hy hs i with ⟨hsum, hlt⟩
  have hpow : 2 ^ (K + 2) = 2 ^ (K + 1) + 2 ^ K + 2 ^ K := by ring
  unfold montR2mmHdBit
  dsimp only
  rw [mm_of_lt hm, mm_of_lt (show hdSum x y K s i < 2 ^ (K + 2) by omega), Nat.and_one_is_mod,
    Nat.shiftRight_one, Nat.shiftRight_one, hsum, round_two]
  rw [hsum] at hlt
  by_cases h : (s + y * bits x i) % 2 = 0
  · rw [if_pos h, if_pos h]
  · rw [if_neg h, if_neg h]
    exact mm_of_lt (by omega)

/-- No wire of `mm_r2mm` cuts anything off. -/
theorem mmR2mm_eq {s : Nat} (hs : s < 2 ^ (K + 1)) (i : Nat) :
    mmR2mm K (x.testBit i) y m s = round 2 y m 1 s (bits x i) := by
  have hbit : (if x.testBit i = true then y else 0) = y * bits x i := by
    have htest := Nat.toNat_testBit x i
    rw [bits, ← htest]
    cases x.testBit i with
    | false => simp
    | true => simp
  have hle : y * bits x i ≤ y * 1 := Nat.mul_le_mul_left y (by have := bits_lt x i; omega)
  have hpow : 2 ^ (K + 2) = 2 ^ (K + 1) + 2 ^ K + 2 ^ K := by ring
  have hpow' : 2 ^ (K + 1) = 2 ^ K + 2 ^ K := by ring
  unfold mmR2mm
  rw [hbit, round_two]
  dsimp only
  rw [Nat.mod_eq_of_lt (show s + y * bits x i < 2 ^ (K + 2) by omega),
    Nat.mod_eq_of_lt (show m + (s + y * bits x i) < 2 ^ (K + 2) by omega)]
  by_cases h : (s + y * bits x i) % 2 = 0
  · rw [if_neg (by omega), if_pos h, Nat.mod_eq_of_lt (by omega)]
  · rw [if_pos (by omega), if_neg h, Nat.mod_eq_of_lt (by omega), Nat.add_comm m]

end Masks

/-- With the masks the loop takes the values it takes without them. -/
theorem montR2mmHdLoop_eq {K m x y : Nat} (hodd : m % 2 = 1) (hm : m < 2 ^ K) (hy : y < m)
    (i : Nat) : montR2mmHdLoop x y m K i = montR2mmLoop x y m i := by
  induction i with
  | zero => rfl
  | succ i ih =>
      have hs := loop_lt (x := x) hodd hm hy i
      have hhd : montR2mmHdLoop x y m K (i + 1)
          = montR2mmHdBit x y m K (montR2mmHdLoop x y m K i) i := by
        unfold montR2mmHdLoop
        rw [List.range_succ, List.foldl_append]
        rfl
      rw [hhd, ih, montR2mmHdBit_eq hm (by omega) hs, montR2mmLoop_eq, montR2mmLoop_eq, rounds]

/-! ## The unit -/

section Unit

variable {K m x y : Nat}

/-- The unit has taken the bits of `x` below `2 * j`. -/
structure Accumulating (x y m : Nat) (j : Nat) (s : R2mm2n) : Prop where
  sel : s.sel = 2 * j
  sSidR : s.sSidR = montR2mmLoop x y m (2 * j)
  val : s.val = false

/-- The two `mm_r2mm` are two rounds. -/
theorem sSidW_eq (hodd : m % 2 = 1) (hm : m < 2 ^ K) (hy : y < m) {j : Nat} {s : R2mm2n}
    (h : Accumulating x y m j s) (r : Bool) :
    s.sSidW K ⟨x, y, m, r⟩ = montR2mmLoop x y m (2 * (j + 1)) := by
  have hmid : s.sMidW K ⟨x, y, m, r⟩ = montR2mmLoop x y m (2 * j + 1) := by
    unfold R2mm2n.sMidW
    dsimp only
    rw [h.sel, h.sSidR, mmR2mm_eq hm (by omega) (loop_lt hodd hm hy _), montR2mmLoop_eq,
      montR2mmLoop_eq, rounds]
  unfold R2mm2n.sSidW
  rw [hmid, h.sel]
  dsimp only
  rw [mmR2mm_eq hm (by omega) (loop_lt hodd hm hy _), montR2mmLoop_eq, montR2mmLoop_eq]
  rfl

/-- A clock before the last. The unit starts on the edge of `req`, and goes on
    whatever `req` does. -/
theorem accumulating_step (hlt : K < 8191) (hodd : m % 2 = 1) (hm : m < 2 ^ K)
    (hy : y < m) {j : Nat} {s : R2mm2n} (h : Accumulating x y m j s) (hj : 2 * j < K - 2)
    (hgo : j = 0 → s.buf0 = 1) (r : Bool) :
    Accumulating x y m (j + 1) (s.step K ⟨x, y, m, r⟩) := by
  have hw := sSidW_eq hodd hm hy h r
  have hsel : (s.sel + 2) % 2 ^ 13 = 2 * (j + 1) := by
    rw [h.sel, Nat.mod_eq_of_lt (by omega)]
    omega
  unfold R2mm2n.step
  dsimp only
  by_cases hj0 : j = 0
  · have hreq : s.reqPp = true := by
      unfold R2mm2n.reqPp
      rw [hgo hj0]
      rfl
    rw [if_pos ⟨hreq, by rw [h.sel, hj0]⟩]
    exact ⟨hsel, hw, h.val⟩
  · rw [if_neg (by rw [h.sel]; omega), if_pos (by rw [h.sel]; omega),
      if_neg (by rw [h.sel]; omega)]
    exact ⟨hsel, hw, h.val⟩

/-- The last clock subtracts and shows the result. -/
theorem accumulating_last (hK : 4 ≤ K) (heven : K % 2 = 0) (hodd : m % 2 = 1) (hm : m < 2 ^ K)
    (hx : x < 2 ^ K) (hy : y < m) {s : R2mm2n} (h : Accumulating x y m (K / 2 - 1) s) (r : Bool) :
    (s.step K ⟨x, y, m, r⟩).val = true ∧
      (s.step K ⟨x, y, m, r⟩).res = montMul m (2 ^ K) x y := by
  have hw := sSidW_eq hodd hm hy h r
  rw [show 2 * (K / 2 - 1 + 1) = K by omega] at hw
  have hres := montR2mm_eq hodd hx hy
  have hlt : montMul m (2 ^ K) x y < 2 ^ K := by
    have := montMul_lt (m := m) (R := 2 ^ K) (a := x) (b := y) (by omega)
    omega
  unfold R2mm2n.step
  dsimp only
  rw [if_neg (by rw [h.sel]; omega), if_pos (by rw [h.sel]; omega),
    if_pos (by rw [h.sel]; omega), hw]
  refine ⟨rfl, ?_⟩
  unfold montR2mm at hres
  dsimp only at hres ⊢
  rw [hres, Nat.mod_eq_of_lt hlt]

/-- The edge of `req` is seen while the unit is not busy. -/
theorem accumulating_start {s : R2mm2n} (hsel : s.sel = 0) (hbuf : s.buf0 % 2 = 0) {i : R2mmIn}
    (hreq : i.req = true) : Accumulating x y m 0 (s.step K i) ∧ (s.step K i).buf0 = 1 := by
  have hpp : s.reqPp = false := by
    unfold R2mm2n.reqPp
    rw [beq_eq_false_iff_ne]
    omega
  unfold R2mm2n.step
  dsimp only
  rw [if_neg (by rw [hpp]; simp), if_neg (by omega), hreq, hbuf]
  exact ⟨⟨hsel, rfl, rfl⟩, rfl⟩

/-- After the clock of the edge and `j` more. -/
theorem accumulating_run (hlt : K < 8191) (hodd : m % 2 = 1) (hm : m < 2 ^ K) (hy : y < m)
    {s : R2mm2n} (hsel : s.sel = 0) (hbuf : s.buf0 % 2 = 0) {i : R2mmIn} (hreq : i.req = true)
    (reqs : List Bool) (hlen : 2 * reqs.length < K) :
    Accumulating x y m reqs.length
        (R2mm2n.run K s (i :: reqs.map fun r => ⟨x, y, m, r⟩)) ∧
      (reqs = [] → (R2mm2n.run K s (i :: reqs.map fun r => ⟨x, y, m, r⟩)).buf0 = 1) := by
  induction reqs using List.reverseRecOn with
  | nil =>
      rcases accumulating_start (K := K) (x := x) (y := y) (m := m) hsel hbuf hreq with ⟨h, hb⟩
      exact ⟨h, fun _ => hb⟩
  | append_singleton rs r ih =>
      rw [List.length_append, List.length_singleton] at hlen ⊢
      rcases ih (by omega) with ⟨h, hb⟩
      have hrun : R2mm2n.run K s (i :: (rs ++ [r]).map fun r => ⟨x, y, m, r⟩)
          = (R2mm2n.run K s (i :: rs.map fun r => ⟨x, y, m, r⟩)).step K ⟨x, y, m, r⟩ := by
        unfold R2mm2n.run
        rw [List.map_append, ← List.cons_append, List.foldl_append]
        rfl
      rw [hrun]
      refine ⟨accumulating_step hlt hodd hm hy h (by omega) ?_ r, fun h => absurd h (by simp)⟩
      intro h0
      exact hb (List.length_eq_zero_iff.mp h0)

end Unit

/-! ## The word-serial model -/

/-- `mod_inv`'s loop keeps both rows multiples of `a` modulo `m`. -/
theorem modInvLoop_spec (a m : Int) (u1 u2 : Int) (u3 : Nat) (v1 v2 : Int) (v3 : Nat)
    (hu : u1 * a ≡ u3 [ZMOD m]) (hv : v1 * a ≡ v3 [ZMOD m]) :
    modInvLoop u1 u2 u3 v1 v2 v3 * a ≡ (Nat.gcd u3 v3 : Nat) [ZMOD m] := by
  induction u1, u2, u3, v1, v2, v3 using modInvLoop.induct with
  | case1 u1 u2 u3 v1 v2 v3 hne q ih =>
      have hmod : u3 - u3 / v3 * v3 = u3 % v3 := by
        have h := Nat.mod_add_div u3 v3
        rw [Nat.mul_comm] at h
        omega
      have hle : u3 / v3 * v3 ≤ u3 := Nat.div_mul_le_self u3 v3
      have hrow : (u1 - (q : Nat) * v1) * a ≡ ((u3 - q * v3 : Nat) : Int) [ZMOD m] := by
        rw [Nat.cast_sub hle, Int.sub_mul, Int.mul_assoc, Nat.cast_mul]
        exact hu.sub (hv.mul_left _)
      rw [modInvLoop, dif_pos hne]
      have hgcd : Nat.gcd v3 (u3 - q * v3) = Nat.gcd u3 v3 := by
        rw [hmod, Nat.gcd_comm v3, ← Nat.gcd_rec, Nat.gcd_comm]
      rw [← hgcd]
      exact ih hv hrow
  | case2 u1 u2 u3 v1 v2 v3 hzero =>
      have hv3 : v3 = 0 := by omega
      rw [modInvLoop, dif_neg hzero, hv3, Nat.gcd_zero_right]
      exact hu

/-- `mod_inv` inverts, and `mont_iddmm` negates what it returns. -/
theorem modInv_spec {p β : Nat} (hβ : 0 < β) (hcop : Nat.gcd p β = 1) :
    ∃ inv, modInv p β = some inv ∧ β ∣ ((-1 * (inv : Int)) % β).toNat * p + 1 := by
  have hβ' : (β : Int) ≠ 0 := by omega
  have hloop := modInvLoop_spec p β 1 0 p 0 1 β (by rw [Int.one_mul])
    (by rw [Int.zero_mul]; exact (Int.modEq_zero_iff_dvd.mpr dvd_rfl).symm)
  rw [hcop, Nat.cast_one] at hloop
  refine ⟨_, by unfold modInv; rw [if_neg (by omega)], ?_⟩
  rw [← Int.natCast_dvd_natCast]
  push_cast
  rw [Int.toNat_of_nonneg (Int.emod_nonneg _ hβ'), Int.toNat_of_nonneg (Int.emod_nonneg _ hβ')]
  refine Int.modEq_zero_iff_dvd.mp ?_
  -- Two reductions modulo `β`, and minus one times the inverse.
  have hinv : modInvLoop 1 0 p 0 1 β % β ≡ modInvLoop 1 0 p 0 1 β [ZMOD β] := Int.mod_modEq _ _
  have hneg : (-1 * (modInvLoop 1 0 p 0 1 β % β)) % β * p ≡ -1 [ZMOD β] := by
    have h1 := (Int.mod_modEq (-1 * (modInvLoop 1 0 p 0 1 β % β)) β).mul_right (p : Int)
    have h2 := ((hinv.mul_right (p : Int)).trans hloop).mul_left (-1)
    rw [← Int.mul_assoc, Int.mul_one] at h2
    exact h1.trans h2
  simpa using hneg.add_right 1

section Words

variable {k n : Nat}

theorem words_lt (k n v i : Nat) : words k n v i < 2 ^ k := by
  unfold words
  by_cases h : i < n
  · rw [if_pos h, mm_eq]
    exact Nat.mod_lt _ (Nat.two_pow_pos k)
  · rw [if_neg h]
    exact Nat.two_pow_pos k

theorem value_words {v : Nat} (hv : v < (2 ^ k) ^ n) : value (2 ^ k) n (words k n v) = v := by
  have hdigit : ∀ i, i < n → words k n v i = v / (2 ^ k) ^ i % 2 ^ k := by
    intro i hi
    unfold words
    rw [if_pos hi, mm_eq, Nat.shiftRight_eq_div_pow, Nat.mul_comm, pow_mul]
  rw [value_congr hdigit, value_digits, Nat.mod_eq_of_lt hv]

/-- The inner loop has done the columns below `j`. -/
structure ColumnsOk (k : Nat) (a T : Nat → Nat) (q j : Nat) (t : Iddmm) : Prop where
  c : t.c = carries (2 ^ k) T j
  q : 0 < j → t.q = q
  low : ∀ i, i + 1 < j → t.a i = column (2 ^ k) T (i + 1)
  high : ∀ i, j ≤ i + 1 → t.a i = a i

variable {x p a : Nat → Nat} {yi p1 carry q : Nat}

/-- One column. -/
theorem columnsOk_column (hx : ∀ i, x i < 2 ^ k) (hxn : x n = 0) (hpn : p n = 0)
    (ha : ∀ i, a i < 2 ^ k) (han : a n = 0) (hyi : yi < 2 ^ k) (hp1 : p1 < 2 ^ k)
    (hq : q = clearing (2 ^ k) p1 (a 0 + x 0 * yi)) {j : Nat} (hj : j ≤ n) {t : Iddmm}
    (h : ColumnsOk k a (roundColumns n x p a yi q carry) q j t) :
    ColumnsOk k a (roundColumns n x p a yi q carry) q (j + 1)
      (iddmmColumn k n x p yi p1 carry t j) := by
  have haj : t.a j = a j := h.high j (by omega)
  -- The sum of a word and a product of words has two words' room.
  have hsum : mm (a j + x j * yi) (2 * k) = a j + x j * yi := by
    refine mm_of_lt ?_
    have hmul : x j * yi ≤ (2 ^ k - 1) * (2 ^ k - 1) :=
      Nat.mul_le_mul (by have := hx j; omega) (by omega)
    have haj' := ha j
    obtain ⟨b, hb⟩ : ∃ b, 2 ^ k = b + 1 := ⟨2 ^ k - 1, by omega⟩
    have hpow : 2 ^ (2 * k) = (b + 1) * (b + 1) := by rw [← hb, ← pow_add, Nat.two_mul]
    rw [hb, Nat.add_sub_cancel] at hmul
    have hring : (b + 1) * (b + 1) = b * b + 2 * b + 1 := by ring
    omega
  have hquot : (if j = 0 then mm (a j + x j * yi) k * mm p1 k % 2 ^ k else t.q) = q := by
    by_cases hj0 : j = 0
    · rw [if_pos hj0, hq, clearing, mm_eq, mm_of_lt hp1, hj0, Nat.mul_comm]
    · rw [if_neg hj0, h.q (by omega)]
  have hbuf : (if j = n then a j + x j * yi + carry else a j + x j * yi) + q * p j + t.c
      = carries (2 ^ k) (roundColumns n x p a yi q carry) j
        + roundColumns n x p a yi q carry j := by
    rw [h.c]
    by_cases hjn : j = n
    · rw [if_pos hjn, hjn, hxn, hpn, han, roundColumns_top]
      omega
    · rw [if_neg hjn, roundColumns_of_lt (by omega)]
      omega
  unfold iddmmColumn
  dsimp only
  rw [haj, hsum, hquot, hbuf]
  refine ⟨?_, fun _ => rfl, ?_, ?_⟩
  · rw [Nat.shiftRight_eq_div_pow, carries]
  · intro i hi
    dsimp only
    rw [if_pos (by omega)]
    by_cases hij : i = j - 1
    · rw [hij, Function.update_self, mm_eq, show j - 1 + 1 = j by omega, column]
    · rw [Function.update_of_ne hij]
      exact h.low i (by omega)
  · intro i hi
    dsimp only
    by_cases hj0 : 0 < j
    · rw [if_pos hj0, Function.update_of_ne (by omega)]
      exact h.high i (by omega)
    · rw [if_neg hj0]
      exact h.high i (by omega)

/-- The whole inner loop. -/
theorem columnsOk_fold (carry : Nat) (hx : ∀ i, x i < 2 ^ k) (hxn : x n = 0) (hpn : p n = 0)
    (ha : ∀ i, a i < 2 ^ k) (han : a n = 0) (hyi : yi < 2 ^ k) (hp1 : p1 < 2 ^ k)
    (hq : q = clearing (2 ^ k) p1 (a 0 + x 0 * yi)) {j : Nat} (hj : j ≤ n + 1) :
    ColumnsOk k a (roundColumns n x p a yi q carry) q j
      ((List.range j).foldl (iddmmColumn k n x p yi p1 carry) ⟨a, 0, 0⟩) := by
  induction j with
  | zero => exact ⟨rfl, fun h => absurd h (by omega), fun i hi => absurd hi (by omega), fun _ _ => rfl⟩
  | succ j ih =>
      rw [List.range_succ, List.foldl_append]
      exact columnsOk_column hx hxn hpn ha han hyi hp1 hq (by omega) (ih (by omega))

/-- After the rows below `i`, the words and the carry hold the accumulator. -/
structure RowOk (k n X P p1 : Nat) (y : Nat → Nat) (i : Nat) (w : (Nat → Nat) × Nat) : Prop where
  num : value (2 ^ k) n w.1 + w.2 * (2 ^ k) ^ n = rounds (2 ^ k) X P p1 y i
  word : ∀ j, w.1 j < 2 ^ k
  top : w.1 n = 0

/-- One row. -/
theorem rowOk_row {X P : Nat} {y : Nat → Nat} (hn : 0 < n) (hX : X < (2 ^ k) ^ n)
    (hP : P < (2 ^ k) ^ n) (hP0 : 0 < P) (hp1 : p1 < 2 ^ k) (hinv : 2 ^ k ∣ p1 * P + 1)
    (hy : ∀ i, y i < 2 ^ k) {i : Nat} {w : (Nat → Nat) × Nat}
    (h : RowOk k n X P p1 y i w) :
    RowOk k n X P p1 y (i + 1) (iddmmRow k n (words k n X) y (words k n P) p1 w i) := by
  have hβ : 0 < 2 ^ k := Nat.two_pow_pos k
  have hxn : words k n X n = 0 := if_neg (by omega)
  have hpn : words k n P n = 0 := if_neg (by omega)
  have hvx := value_words hX
  have hvp := value_words hP
  -- The lowest column alone decides the quotient.
  have hq : clearing (2 ^ k) p1 (w.1 0 + words k n X 0 * y i)
      = clearing (2 ^ k) p1 (value (2 ^ k) n w.1 + w.2 * (2 ^ k) ^ n
          + value (2 ^ k) n (words k n X) * y i) := by
    obtain ⟨n', rfl⟩ : ∃ n', n = n' + 1 := ⟨n - 1, by omega⟩
    have hx0 : (value (2 ^ k) (n' + 1) (words k (n' + 1) X) * y i) % 2 ^ k
        = (words k (n' + 1) X 0 * y i) % 2 ^ k := by
      rw [Nat.mul_mod, value_mod, ← Nat.mul_mod]
    have ha0 : (value (2 ^ k) (n' + 1) w.1 + w.2 * (2 ^ k) ^ (n' + 1)) % 2 ^ k = w.1 0 % 2 ^ k := by
      rw [pow_succ, ← Nat.mul_assoc, Nat.add_mul_mod_self_right, value_mod]
    unfold clearing
    rw [Nat.add_mod, ← ha0, ← hx0, ← Nat.add_mod]
  have hfold := columnsOk_fold (k := k) w.2 (words_lt k n X) hxn hpn h.word h.top (hy i)
    hp1 rfl (le_refl (n + 1))
  have hround := round_columns hβ (by rw [hvp]; exact hinv) hq
  rw [hvx, hvp, h.num] at hround
  unfold iddmmRow
  dsimp only
  set T := roundColumns n (words k n X) (words k n P) w.1 (y i)
    (clearing (2 ^ k) p1 (w.1 0 + words k n X 0 * y i)) w.2
  set t := (List.range (n + 1)).foldl
    (iddmmColumn k n (words k n X) (words k n P) (y i) p1 w.2) ⟨w.1, 0, 0⟩
  have hval : value (2 ^ k) n t.a = value (2 ^ k) n (fun j => column (2 ^ k) T (j + 1)) :=
    value_congr fun j hj => hfold.low j (by omega)
  -- The accumulator stays below two powers, so one bit is carried out.
  have hbound : rounds (2 ^ k) X P p1 y (i + 1) < X + P :=
    rounds_lt hinv hP0 (fun j _ => hy j)
  have hcarry : t.c < 2 := by
    rw [rounds, ← hround] at hbound
    rw [hfold.c]
    refine Nat.lt_of_mul_lt_mul_right (a := (2 ^ k) ^ n) ?_
    omega
  refine ⟨?_, ?_, ?_⟩
  · dsimp only
    rw [Nat.and_one_is_mod, Nat.mod_eq_of_lt hcarry, hval, hfold.c, hround, rounds]
  · intro j
    dsimp only
    by_cases hj : j + 1 < n + 1
    · rw [hfold.low j hj]
      exact Nat.mod_lt _ hβ
    · rw [hfold.high j (by omega)]
      exact h.word j
  · dsimp only
    rw [hfold.high n (by omega)]
    exact h.top

/-- All the rows. -/
theorem rowOk_fold {X P : Nat} {y : Nat → Nat} (hn : 0 < n) (hX : X < (2 ^ k) ^ n)
    (hP : P < (2 ^ k) ^ n) (hP0 : 0 < P) (hp1 : p1 < 2 ^ k) (hinv : 2 ^ k ∣ p1 * P + 1)
    (hy : ∀ i, y i < 2 ^ k) (i : Nat) :
    RowOk k n X P p1 y i
      ((List.range i).foldl (iddmmRow k n (words k n X) y (words k n P) p1) (fun _ => 0, 0)) := by
  induction i with
  | zero =>
      refine ⟨?_, fun _ => Nat.two_pow_pos k, rfl⟩
      simp [value, rounds]
  | succ i ih =>
      rw [List.range_succ, List.foldl_append]
      exact rowOk_row hn hX hP hP0 hp1 hinv hy ih

theorem foldl_value (β : Nat) (f : Nat → Nat) (n : Nat) :
    (List.range n).foldl (fun su i => su + f i * β ^ i) 0 = value β n f := by
  induction n with
  | zero => rfl
  | succ n ih =>
      rw [List.range_succ, List.foldl_append, ih, value_succ]
      rfl

end Words

/-- The word-serial model computes the product. -/
theorem montIddmm_eq {K m x y n : Nat} (hK : 0 < K) (hodd : m % 2 = 1) (hm : m < 2 ^ K)
    (hx : x < 2 ^ K) (hy : y < m) (hn : n ∣ K) :
    montIddmm x y m K n = some (montMul m (2 ^ K) x y) := by
  have hn0 : 0 < n := Nat.pos_of_dvd_of_pos hn hK
  have hpow : (2 ^ (K / n)) ^ n = 2 ^ K := by rw [← pow_mul, Nat.div_mul_cancel hn]
  have hβ : 0 < 2 ^ (K / n) := Nat.two_pow_pos _
  have hcop : Nat.gcd m (2 ^ (K / n)) = 1 := (coprime_odd hodd (K / n)).symm
  -- An odd modulus has an inverse modulo the radix, so the program does not raise.
  rcases modInv_spec hβ hcop with ⟨inv, hsome, hdvd⟩
  have hp1 : ((-1 * (inv : Int)) % (2 ^ (K / n) : Nat)).toNat < 2 ^ (K / n) := by
    have h := Int.emod_lt_of_pos (-1 * (inv : Int)) (show (0 : Int) < (2 ^ (K / n) : Nat) by omega)
    omega
  have hrows := rowOk_fold (k := K / n) hn0 (by rw [hpow]; exact hx) (by rw [hpow]; exact hm)
    (by omega) hp1 hdvd (words_lt (K / n) n y) n
  unfold montIddmm
  rw [if_neg (by omega)]
  dsimp only
  rw [if_neg (by omega), hsome, Option.bind_eq_bind, Option.bind_some]
  set w := (List.range n).foldl (iddmmRow (K / n) n (words (K / n) n x) (words (K / n) n y)
    (words (K / n) n m) ((-1 * (inv : Int)) % (2 ^ (K / n) : Nat)).toNat) (fun _ => 0, 0)
  -- The words and the carry above them are the number after all rounds.
  have hsum : value (2 ^ (K / n)) (n + 1) (Function.update w.1 n w.2)
      = rounds (2 ^ (K / n)) x m ((-1 * (inv : Int)) % (2 ^ (K / n) : Nat)).toNat
          (words (K / n) n y) n := by
    have hlow : value (2 ^ (K / n)) n (Function.update w.1 n w.2) = value (2 ^ (K / n)) n w.1 :=
      value_congr fun i hi => Function.update_of_ne (by omega) _ _
    rw [value_succ, hlow, Function.update_self, hrows.num]
  have hvy : value (2 ^ (K / n)) n (words (K / n) n y) = y :=
    value_words (by rw [hpow]; omega)
  have hmul := montMul_of_rounds (x := x) (n := n) (y := words (K / n) n y) hβ
    (show 0 < m by omega) (by rw [hpow]; exact coprime_odd hodd K) hdvd
    (by rw [hvy, hpow]; exact Nat.mul_lt_mul'' hx hy)
  rw [hvy, hpow] at hmul
  rw [foldl_value, hsum, ← hmul]
  split_ifs <;> rfl

/-! ## All four -/

/-- The three models and the unit compute `x * y / 2 ^ K` modulo `m`. The unit is
    asked by an edge of `req` while it is not busy, with the operands held from
    the next clock on; it shows the result after `K / 2` more clocks and not
    before, whatever `req` does. On the way no mask of `mont_r2mm_hd` changes
    what it is applied to, and `s_sid_r` is the sum that `mont_r2mm` has. -/
theorem multipliers_agree {K m x y : Nat} (hK : 4 ≤ K) (heven : K % 2 = 0) (hlt : K < 8191)
    (hodd : m % 2 = 1) (hm : m < 2 ^ K) (hx : x < 2 ^ K) (hy : y < m) :
    montR2mm x y m K = montMul m (2 ^ K) x y ∧
    montR2mmHd x y m K = montMul m (2 ^ K) x y ∧
    (∀ n, n ∣ K → montIddmm x y m K n = some (montMul m (2 ^ K) x y)) ∧
    (∀ (s : R2mm2n) (i : R2mmIn) (reqs : List Bool), s.sel = 0 → s.buf0 % 2 = 0 →
      i.req = true → reqs.length = K / 2 →
      (∀ j, j < K / 2 →
        let t := R2mm2n.run K s (i :: (reqs.take j).map fun r => ⟨x, y, m, r⟩)
        t.val = false ∧ t.sSidR = montR2mmLoop x y m (2 * j)) ∧
      let t := R2mm2n.run K s (i :: reqs.map fun r => ⟨x, y, m, r⟩)
      t.val = true ∧ t.res = montMul m (2 ^ K) x y) ∧
    ∀ i, i < K →
      let s := montR2mmHdLoop x y m K i
      let a := hdSum x y K s i
      mm s (K + 1) = s ∧ mm y K = y ∧ mm m K = m ∧ mm a (K + 2) = a ∧
        mm ((a + m) >>> 1) (K + 2) = (a + m) >>> 1 := by
  have hloop : ∀ i, montR2mmHdLoop x y m K i = montR2mmLoop x y m i :=
    montR2mmHdLoop_eq hodd hm hy
  refine ⟨montR2mm_eq hodd hx hy, ?_, fun n hn => montIddmm_eq (by omega) hodd hm hx hy hn,
    ?_, ?_⟩
  · unfold montR2mmHd
    rw [hloop]
    exact montR2mm_eq hodd hx hy
  · intro s i reqs hsel hbuf hreq hlen
    refine ⟨?_, ?_⟩
    · intro j hj
      have htake : (reqs.take j).length = j := by rw [List.length_take]; omega
      have h := (accumulating_run hlt hodd hm hy (x := x) hsel hbuf hreq (reqs.take j)
        (by omega)).1
      rw [htake] at h
      exact ⟨h.val, h.sSidR⟩
    · -- The last clock stands apart from those before it.
      rcases List.eq_nil_or_concat reqs with hnil | ⟨rs, r, hrs⟩
      · rw [hnil, List.length_nil] at hlen
        omega
      · rw [List.concat_eq_append] at hrs
        subst hrs
        rw [List.length_append, List.length_singleton] at hlen
        have h := (accumulating_run hlt hodd hm hy (x := x) hsel hbuf hreq rs (by omega)).1
        rw [show rs.length = K / 2 - 1 by omega] at h
        have hlast := accumulating_last hK heven hodd hm hx hy h r
        unfold R2mm2n.run at hlast ⊢
        rw [List.map_append, ← List.cons_append, List.foldl_append]
        exact hlast
  · intro i hi
    -- The accumulator stays below twice the modulus, so no mask cuts it.
    have hs := loop_lt (x := x) hodd hm hy i
    rcases hdSum_eq (x := x) (show y < 2 ^ K by omega) hs i with ⟨_, ha⟩
    have hpow : 2 ^ (K + 2) = 2 ^ (K + 1) + 2 ^ K + 2 ^ K := by ring
    dsimp only
    rw [hloop, Nat.shiftRight_one]
    exact ⟨mm_of_lt hs, mm_of_lt (by omega), mm_of_lt hm, mm_of_lt (by omega),
      mm_of_lt (by omega)⟩

/-- The smallest unit, from reset: `5 * 3 / 16` modulo 7 is 4. -/
theorem multipliers_agree_seven :
    montIddmm 5 3 7 4 2 = some (montMul 7 (2 ^ 4) 5 3) ∧
      (R2mm2n.run 4 .reset [⟨0, 0, 0, true⟩, ⟨5, 3, 7, false⟩, ⟨5, 3, 7, false⟩]).val = true ∧
      (R2mm2n.run 4 .reset [⟨0, 0, 0, true⟩, ⟨5, 3, 7, false⟩, ⟨5, 3, 7, false⟩]).res
        = montMul 7 (2 ^ 4) 5 3 := by
  have h := multipliers_agree (K := 4) (m := 7) (x := 5) (y := 3) (by decide) (by decide)
    (by decide) (by decide) (by decide) (by decide) (by decide)
  exact ⟨h.2.2.1 2 (by decide),
    (h.2.2.2.1 .reset ⟨0, 0, 0, true⟩ [false, false] rfl rfl rfl rfl).2⟩

example :
    (R2mm2n.run 4 .reset [⟨0, 0, 0, true⟩, ⟨5, 3, 7, false⟩, ⟨5, 3, 7, false⟩]).res = 4 := by
  decide

end Rsa

end Wujian100
