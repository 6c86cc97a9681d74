import Mathlib.Algebra.Field.ZMod
import Mathlib.Data.ZMod.Coprime
import Mathlib.Tactic.Ring
import Wujian100.Library.Digits

/-!
# Montgomery Multiplication, Word by Word

A multiplier that works on words of base `β` adds products column by column,
keeps the low word of each column and carries the rest into the next.
`carries` and `column` are that process for any column sums, and
`value_columns` says that it changes the words and not the number.

The number itself is built up in rounds. A round adds `x` times one word of
`y`, adds the multiple of the modulus that clears the lowest word, and drops
that word. After all the rounds the accumulator is `x * y` over a power of `β`,
up to a multiple of the modulus, and one subtraction brings it below the
modulus.

## Main definitions

* `carries`, `column`: Adding columns.
* `subColumns`: The column sums of a subtraction.
* `round`, `rounds`: One round, and several.
* `roundColumns`: The column sums of a round.
* `montMul`: The product the rounds compute.
* `MontPower`: A power, with the factor the products need.

## Theorems

* `value_columns`: The columns hold the same number.
* `carries_le`: A bound on what is carried.
* `value_column_subColumns`: The words of a difference.
* `rounds_mul`: What the rounds compute, exactly.
* `rounds_lt`: The accumulator stays below the sum of the operand and the
  modulus.
* `round_columns`: A round, column by column.
* `montMul_of_rounds`: After one subtraction, the product.
* `MontPower.mul`, `MontPower.leave`: Powers by products.
-/

namespace Wujian100

/-! ## Columns -/

section Columns

variable (β : Nat) (t : Nat → Nat)

/-- What is carried into a column. -/
def carries : Nat → Nat
  | 0 => 0
  | k + 1 => (carries k + t k) / β

/-- What is left of a column. -/
def column (k : Nat) : Nat :=
  (carries β t k + t k) % β

theorem column_add (k : Nat) : column β t k + β * carries β t (k + 1) = carries β t k + t k :=
  Nat.mod_add_div _ _

/-- Adding the columns up does not change the number. -/
theorem value_columns (n : Nat) :
    value β n (column β t) + carries β t n * β ^ n = value β n t := by
  induction n with
  | zero => simp only [value_zero, carries, Nat.zero_mul, Nat.add_zero]
  | succ k ih =>
      have hcol := column_add β t k
      calc value β (k + 1) (column β t) + carries β t (k + 1) * β ^ (k + 1)
          = value β k (column β t) + (column β t k + β * carries β t (k + 1)) * β ^ k := by
            rw [value_succ, pow_succ]
            ring
        _ = value β k (column β t) + carries β t k * β ^ k + t k * β ^ k := by
            rw [hcol]
            ring
        _ = value β (k + 1) t := by rw [ih, value_succ]

end Columns

/-- Two products of words and a word in each column carry less than two words'
    worth. -/
theorem carries_le {b n : Nat} {t : Nat → Nat} (h : ∀ k, k < n → t k ≤ 2 * (b * b) + b) :
    ∀ k, k ≤ n → carries (b + 1) t k ≤ 2 * b := by
  intro k
  induction k with
  | zero => intro _; exact Nat.zero_le _
  | succ j ih =>
      intro hj
      have hc := ih (by omega)
      have ht := h j (by omega)
      have hlt : carries (b + 1) t j + t j < (2 * b + 1) * (b + 1) := by
        have : (2 * b + 1) * (b + 1) = 2 * (b * b) + 3 * b + 1 := by ring
        omega
      have hdiv := Nat.div_lt_of_lt_mul (Nat.mul_comm _ _ ▸ hlt)
      simp only [carries]
      omega

/-- The column sums of a subtraction: the inverted word, and one more in the
    lowest column. -/
def subColumns (b : Nat) (a m : Nat → Nat) (k : Nat) : Nat :=
  b - m k + a k + if k = 0 then 1 else 0

/-- Subtraction by adding the complement. -/
theorem value_subColumns {b n : Nat} {a m : Nat → Nat} (hn : 0 < n)
    (hm : ∀ k, k < n → m k ≤ b) :
    value (b + 1) n (subColumns b a m) + value (b + 1) n m
      = value (b + 1) n a + (b + 1) ^ n := by
  induction n with
  | zero => omega
  | succ k ih =>
      have hmk := hm k (by omega)
      rw [value_succ, value_succ, value_succ]
      by_cases hk : k = 0
      · subst hk
        simp only [value_zero, pow_zero, Nat.zero_add, pow_one, subColumns, if_true]
        omega
      · have hlow := ih (by omega) (fun l hl => hm l (by omega))
        have hcol : subColumns b a m k * (b + 1) ^ k + m k * (b + 1) ^ k
            = a k * (b + 1) ^ k + b * (b + 1) ^ k := by
          rw [← Nat.add_mul, ← Nat.add_mul, subColumns, if_neg hk]
          congr 1
          omega
        rw [pow_succ, Nat.mul_succ, Nat.mul_comm _ b]
        omega

/-- The words of a difference, once what is carried out of them is dropped. -/
theorem value_column_subColumns {b n : Nat} {a m : Nat → Nat} (hn : 0 < n)
    (hm : ∀ k, k < n → m k ≤ b) :
    value (b + 1) n (column (b + 1) (subColumns b a m))
      = (value (b + 1) n a + (b + 1) ^ n - value (b + 1) n m) % (b + 1) ^ n := by
  have hcols := value_columns (b + 1) (subColumns b a m) n
  have hsub := value_subColumns (a := a) hn hm
  have hlt : value (b + 1) n (column (b + 1) (subColumns b a m)) < (b + 1) ^ n :=
    value_lt fun k _ => Nat.mod_lt _ (Nat.succ_pos b)
  rw [show value (b + 1) n a + (b + 1) ^ n - value (b + 1) n m
      = value (b + 1) n (subColumns b a m) by omega, ← hcols, Nat.add_mul_mod_self_right,
    Nat.mod_eq_of_lt hlt]

/-! ## Rounds -/

section Rounds

variable (β x m m1 : Nat)

/-- The multiple of the modulus that clears the lowest word of `s`. -/
def clearing (s : Nat) : Nat :=
  m1 * (s % β) % β

/-- One round. -/
def round (a yi : Nat) : Nat :=
  (a + x * yi + clearing β m1 (a + x * yi) * m) / β

/-- The accumulator after the rounds for the words of `y` below `i`. -/
def rounds (y : Nat → Nat) : Nat → Nat
  | 0 => 0
  | i + 1 => round β x m m1 (rounds y i) (y i)

variable {β x m m1}

/-- With `m1` the negated inverse of the modulus, the lowest word is cleared. -/
theorem dvd_clearing (hm1 : β ∣ m1 * m + 1) (s : Nat) : β ∣ s + clearing β m1 s * m := by
  have hmod : (s + clearing β m1 s * m) ≡ s * (m1 * m + 1) [MOD β] := by
    have hq : clearing β m1 s ≡ m1 * s [MOD β] := by
      have h1 : clearing β m1 s ≡ m1 * (s % β) [MOD β] := Nat.mod_modEq _ _
      exact h1.trans ((Nat.mod_modEq s β).mul_left m1)
    have hsum : s + clearing β m1 s * m ≡ s + m1 * s * m [MOD β] := (hq.mul_right m).add_left s
    have hring : s + m1 * s * m = s * (m1 * m + 1) := by ring
    rwa [hring] at hsum
  exact (hmod.dvd_iff (Nat.dvd_refl β)).mpr (Dvd.dvd.mul_left hm1 s)

theorem round_mul (hm1 : β ∣ m1 * m + 1) (a yi : Nat) :
    round β x m m1 a yi * β = a + x * yi + clearing β m1 (a + x * yi) * m :=
  Nat.div_mul_cancel (dvd_clearing hm1 _)

theorem clearing_lt (hβ : 0 < β) (s : Nat) : clearing β m1 s < β :=
  Nat.mod_lt _ hβ

/-- What the rounds compute, up to a multiple of the modulus. -/
theorem rounds_mul (hβ : 0 < β) (hm1 : β ∣ m1 * m + 1) (y : Nat → Nat) (n : Nat) :
    ∃ Q, Q < β ^ n ∧ rounds β x m m1 y n * β ^ n = x * value β n y + Q * m := by
  induction n with
  | zero => exact ⟨0, by simp, by simp [rounds]⟩
  | succ i ih =>
      rcases ih with ⟨Q, hQ, heq⟩
      let q := clearing β m1 (rounds β x m m1 y i + x * y i)
      have hq : q < β := clearing_lt hβ _
      refine ⟨Q + q * β ^ i, ?_, ?_⟩
      · calc Q + q * β ^ i < β ^ i + q * β ^ i := by omega
          _ = (q + 1) * β ^ i := by ring
          _ ≤ β * β ^ i := Nat.mul_le_mul_right _ hq
          _ = β ^ (i + 1) := by rw [pow_succ']
      · calc rounds β x m m1 y (i + 1) * β ^ (i + 1)
            = rounds β x m m1 y (i + 1) * β * β ^ i := by rw [pow_succ']; ring
          _ = (rounds β x m m1 y i + x * y i + q * m) * β ^ i := by rw [rounds, round_mul hm1]
          _ = rounds β x m m1 y i * β ^ i + x * y i * β ^ i + q * m * β ^ i := by ring
          _ = x * value β (i + 1) y + (Q + q * β ^ i) * m := by rw [heq, value_succ]; ring

/-- The accumulator stays below the sum of the operand and the modulus. -/
theorem rounds_lt (hm1 : β ∣ m1 * m + 1) (hm : 0 < m) {y : Nat → Nat} {n : Nat}
    (hy : ∀ i, i < n → y i < β) : rounds β x m m1 y n < x + m := by
  induction n with
  | zero => rw [rounds]; omega
  | succ i ih =>
      have ha := ih (fun k hk => hy k (by omega))
      have hyi := hy i (by omega)
      have hβ : 0 < β := by omega
      have hq : clearing β m1 (rounds β x m m1 y i + x * y i) < β := clearing_lt hβ _
      have hmul := round_mul (x := x) hm1 (rounds β x m m1 y i) (y i)
      have hx : x * y i ≤ x * (β - 1) := Nat.mul_le_mul_left _ (by omega)
      have hqm : clearing β m1 (rounds β x m m1 y i + x * y i) * m ≤ (β - 1) * m :=
        Nat.mul_le_mul_right _ (by omega)
      refine Nat.lt_of_mul_lt_mul_right (a := β) ?_
      calc rounds β x m m1 y (i + 1) * β
          = rounds β x m m1 y i + x * y i
              + clearing β m1 (rounds β x m m1 y i + x * y i) * m := hmul
        _ < x + m + x * (β - 1) + (β - 1) * m := by omega
        _ = (x + m) * β := by
            obtain ⟨b, rfl⟩ : ∃ b, β = b + 1 := ⟨β - 1, by omega⟩
            rw [Nat.add_sub_cancel]
            ring

end Rounds

/-! ## A round in columns -/

/-- The column sums of a round: two products and a word of the accumulator in
    each column of the operands, and what stands above them in the last. -/
def roundColumns (n : Nat) (x m a : Nat → Nat) (yi q top : Nat) (k : Nat) : Nat :=
  if k = n then top else x k * yi + a k + q * m k

section RoundColumns

variable {β n : Nat} {x m a : Nat → Nat} {yi q top : Nat}

theorem roundColumns_of_lt {k : Nat} (hk : k < n) :
    roundColumns n x m a yi q top k = x k * yi + a k + q * m k :=
  if_neg (by omega)

theorem roundColumns_top : roundColumns n x m a yi q top n = top :=
  if_pos rfl

/-- Words in the columns keep the column sums small. -/
theorem roundColumns_le {b : Nat} (hx : ∀ k, k < n → x k ≤ b) (hm : ∀ k, k < n → m k ≤ b)
    (ha : ∀ k, k < n → a k ≤ b) (hyi : yi ≤ b) (hq : q ≤ b) (htop : top ≤ b) :
    ∀ k, k < n + 1 → roundColumns n x m a yi q top k ≤ 2 * (b * b) + b := by
  intro k hk
  by_cases hkn : k = n
  · rw [hkn, roundColumns_top]
    omega
  · have hlt : k < n := by omega
    rw [roundColumns_of_lt hlt]
    have h1 : x k * yi ≤ b * b := Nat.mul_le_mul (hx k hlt) hyi
    have h2 : q * m k ≤ b * b := Nat.mul_le_mul hq (hm k hlt)
    have h3 := ha k hlt
    omega

theorem value_roundColumns :
    value β (n + 1) (roundColumns n x m a yi q top)
      = value β n a + top * β ^ n + value β n x * yi + q * value β n m := by
  have hlow : value β n (roundColumns n x m a yi q top)
      = value β n (fun k => x k * yi + a k + q * m k) :=
    value_congr fun k hk => roundColumns_of_lt hk
  have hsum : value β n (fun k => x k * yi + a k + q * m k)
      = value β n x * yi + value β n a + q * value β n m := by
    simp only [value, Finset.sum_mul, Finset.mul_sum, ← Finset.sum_add_distrib]
    refine Finset.sum_congr rfl (fun k _ => ?_)
    ring
  rw [value_succ, hlow, hsum, roundColumns_top]
  ring

/-- The lowest word decides the remainder. -/
theorem value_mod (β n : Nat) (f : Nat → Nat) : value β (n + 1) f % β = f 0 % β := by
  rw [value_succ', Nat.add_mul_mod_self_left]

/-- The lowest column is empty, because the whole is a multiple of the base. -/
theorem roundColumns_low {m1 : Nat} (hm1 : β ∣ m1 * value β n m + 1)
    (hq : q = clearing β m1 (value β n a + top * β ^ n + value β n x * yi)) :
    column β (roundColumns n x m a yi q top) 0 = 0 := by
  have hround := round_mul (x := value β n x) hm1 (value β n a + top * β ^ n) yi
  rw [← hq] at hround
  have hmod := value_mod β n (roundColumns n x m a yi q top)
  rw [value_roundColumns, ← hround, Nat.mul_mod_left] at hmod
  rw [column, carries, Nat.zero_add, ← hmod]

/-- The columns above the lowest are the accumulator after the round. -/
theorem round_columns {m1 : Nat} (hβ : 0 < β) (hm1 : β ∣ m1 * value β n m + 1)
    (hq : q = clearing β m1 (value β n a + top * β ^ n + value β n x * yi)) :
    value β n (fun k => column β (roundColumns n x m a yi q top) (k + 1))
        + carries β (roundColumns n x m a yi q top) (n + 1) * β ^ n
      = round β (value β n x) (value β n m) m1 (value β n a + top * β ^ n) yi := by
  have hcols := value_columns β (roundColumns n x m a yi q top) (n + 1)
  have hround := round_mul (x := value β n x) hm1 (value β n a + top * β ^ n) yi
  rw [← hq] at hround
  rw [value_roundColumns, ← hround] at hcols
  rw [value_succ', roundColumns_low hm1 hq, Nat.zero_add, pow_succ] at hcols
  refine Nat.eq_of_mul_eq_mul_right hβ ?_
  rw [← hcols]
  ring

end RoundColumns

/-! ## The product -/

/-- The Montgomery product: `a * b / R` modulo `m`. -/
def montMul (m R a b : Nat) : Nat :=
  ((a * b : ZMod m) * (R : ZMod m)⁻¹).val

section MontMul

variable {m R a b : Nat}

theorem montMul_lt (hm : 0 < m) : montMul m R a b < m := by
  have : NeZero m := ⟨by omega⟩
  exact ZMod.val_lt _

theorem cast_montMul (hm : 0 < m) : (montMul m R a b : ZMod m) = a * b * (R : ZMod m)⁻¹ := by
  have : NeZero m := ⟨by omega⟩
  rw [montMul, ZMod.natCast_zmod_val]

theorem montMul_comm : montMul m R a b = montMul m R b a := by
  rw [montMul, montMul, mul_comm (a : ZMod m)]

/-- A number below the modulus that is the product times `R` is it. -/
theorem eq_montMul (hm : 0 < m) (hcop : Nat.Coprime R m) {z : Nat} (hz : z < m)
    (h : z * R ≡ a * b [MOD m]) : z = montMul m R a b := by
  have : NeZero m := ⟨by omega⟩
  have hunit : (R : ZMod m) * (R : ZMod m)⁻¹ = 1 := ZMod.coe_mul_inv_eq_one R hcop
  have hcast : (z : ZMod m) * R = a * b := by
    have := (ZMod.natCast_eq_natCast_iff _ _ m).mpr h
    push_cast at this
    exact this
  have hval : (z : ZMod m) = a * b * (R : ZMod m)⁻¹ := by
    rw [← hcast, mul_assoc, hunit, mul_one]
  rw [montMul, ← hval, ZMod.val_natCast, Nat.mod_eq_of_lt hz]

end MontMul

/-- `a` stands for `x ^ e`, with the factor `R`. -/
structure MontPower (m R x e a : Nat) : Prop where
  lt : a < m
  eq : (a : ZMod m) = (x : ZMod m) ^ e * (R : ZMod m)

section MontPower

variable {m R x e e' a b : Nat} (hm : 0 < m) (hcop : Nat.Coprime R m)

include hm hcop in
/-- A product of powers is the power of the sum. -/
theorem MontPower.mul (ha : MontPower m R x e a) (hb : MontPower m R x e' b) :
    MontPower m R x (e + e') (montMul m R a b) := by
  refine ⟨montMul_lt hm, ?_⟩
  rw [cast_montMul hm, ha.eq, hb.eq]
  calc (x : ZMod m) ^ e * (R : ZMod m) * ((x : ZMod m) ^ e' * (R : ZMod m)) * (R : ZMod m)⁻¹
      = (x : ZMod m) ^ (e + e') * (R : ZMod m) * ((R : ZMod m) * (R : ZMod m)⁻¹) := by
        rw [pow_add]
        ring
    _ = (x : ZMod m) ^ (e + e') * (R : ZMod m) := by rw [ZMod.coe_mul_inv_eq_one R hcop, mul_one]

include hm hcop in
/-- A product with `R * R` brings the factor in. -/
theorem MontPower.first : MontPower m R x 1 (montMul m R x (R * R % m)) := by
  refine ⟨montMul_lt hm, ?_⟩
  rw [cast_montMul hm, ZMod.natCast_mod, Nat.cast_mul, pow_one]
  calc (x : ZMod m) * ((R : ZMod m) * (R : ZMod m)) * (R : ZMod m)⁻¹
      = (x : ZMod m) * (R : ZMod m) * ((R : ZMod m) * (R : ZMod m)⁻¹) := by ring
    _ = (x : ZMod m) * (R : ZMod m) := by rw [ZMod.coe_mul_inv_eq_one R hcop, mul_one]

include hm in
/-- The factor alone is the power with exponent zero. -/
theorem MontPower.zero : MontPower m R x 0 (R % m) := by
  refine ⟨Nat.mod_lt _ hm, ?_⟩
  rw [ZMod.natCast_mod, pow_zero, one_mul]

include hm hcop in
/-- A product with one takes the factor off. -/
theorem MontPower.leave (ha : MontPower m R x e a) : montMul m R a 1 = x ^ e % m := by
  have hcast : (montMul m R a 1 : ZMod m) = ((x ^ e % m : Nat) : ZMod m) := by
    rw [cast_montMul hm, ha.eq, ZMod.natCast_mod, Nat.cast_one, mul_one, mul_assoc,
      ZMod.coe_mul_inv_eq_one R hcop, mul_one, Nat.cast_pow]
  have hmod := (ZMod.natCast_eq_natCast_iff _ _ m).mp hcast
  rw [Nat.ModEq, Nat.mod_eq_of_lt (montMul_lt hm), Nat.mod_mod] at hmod
  exact hmod

end MontPower

section Reduce

variable {β n x m m1 : Nat} {y : Nat → Nat}

/-- After the rounds the accumulator is below twice the modulus. -/
theorem rounds_lt_two_mul (hβ : 0 < β) (hm1 : β ∣ m1 * m + 1)
    (hxy : x * value β n y < β ^ n * m) : rounds β x m m1 y n < 2 * m := by
  rcases rounds_mul (x := x) hβ hm1 y n with ⟨Q, hQ, heq⟩
  have hpos : 0 < β ^ n := Nat.pow_pos hβ
  refine Nat.lt_of_mul_lt_mul_right (a := β ^ n) ?_
  have hQm : Q * m ≤ β ^ n * m := Nat.mul_le_mul_right _ (by omega)
  calc rounds β x m m1 y n * β ^ n = x * value β n y + Q * m := heq
    _ < β ^ n * m + β ^ n * m := by omega
    _ = 2 * m * β ^ n := by ring

/-- With a small product it is below the modulus already. -/
theorem rounds_lt_modulus (hβ : 0 < β) (hm1 : β ∣ m1 * m + 1)
    (hxy : x * value β n y < m) : rounds β x m m1 y n < m := by
  rcases rounds_mul (x := x) hβ hm1 y n with ⟨Q, hQ, heq⟩
  refine Nat.lt_of_mul_lt_mul_right (a := β ^ n) ?_
  have hQm : (Q + 1) * m ≤ β ^ n * m := Nat.mul_le_mul_right _ hQ
  calc rounds β x m m1 y n * β ^ n = x * value β n y + Q * m := heq
    _ < m + Q * m := by omega
    _ = (Q + 1) * m := by ring
    _ ≤ β ^ n * m := hQm
    _ = m * β ^ n := Nat.mul_comm _ _

theorem rounds_modEq (hβ : 0 < β) (hm1 : β ∣ m1 * m + 1) :
    rounds β x m m1 y n * β ^ n ≡ x * value β n y [MOD m] := by
  rcases rounds_mul (x := x) hβ hm1 y n with ⟨Q, _, heq⟩
  rw [heq, Nat.ModEq, Nat.add_mul_mod_self_right]

/-- After the rounds and one subtraction, the Montgomery product. -/
theorem montMul_of_rounds (hβ : 0 < β) (hm : 0 < m) (hcop : Nat.Coprime (β ^ n) m)
    (hm1 : β ∣ m1 * m + 1) (hxy : x * value β n y < β ^ n * m) :
    (if m ≤ rounds β x m m1 y n then rounds β x m m1 y n - m else rounds β x m m1 y n)
      = montMul m (β ^ n) x (value β n y) := by
  have hlt := rounds_lt_two_mul hβ hm1 hxy
  have hmod := rounds_modEq (x := x) (n := n) (y := y) hβ hm1
  by_cases hge : m ≤ rounds β x m m1 y n
  · rw [if_pos hge]
    refine eq_montMul hm hcop (by omega) ?_
    -- The subtraction is invisible modulo `m`.
    have hsub : rounds β x m m1 y n - m ≡ rounds β x m m1 y n [MOD m] := by
      conv_rhs => rw [← Nat.sub_add_cancel hge]
      rw [Nat.ModEq, Nat.add_mod_right]
    exact (hsub.mul_right _).trans hmod
  · rw [if_neg hge]
    exact eq_montMul hm hcop (by omega) hmod

end Reduce

end Wujian100
