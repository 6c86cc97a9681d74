import Wujian100.Core.Rsa.Mul128
import Wujian100.Theory.Rsa.Bounds
import Mathlib.Data.ZMod.Basic

/-!
# The Multipliers Multiply

`mult` sums its products modulo `2 ^ 256`, and the product of two numbers of 128 bits is
less than that, so no sum has to be looked at for what it might lose.

The other multiplier adds the products of the halves two at a time, and takes the two
carries for one. The middle part, `r1 + r2 + r0 / 2 ^ h`, is less than `2 ^ (2 * h + 1)`
however the halves are, so there is never more than one of them.

## Main definitions

* `VedicExact`: A level of the multiplier loses nothing.

## Theorems

* `mult_lags`: `mult` shows the product ten clocks later.
* `middle_lt`: The two carries are at most one.
* `comb_exact`: One level without a clock.
* `vedicExact_comb`, `vedicExact_clocked`: One level with a clock.
* `mul128_agree`: All of them show the product.
-/

namespace Wujian100

namespace Rsa

/-! ## `COMMON` -/

/-- Register `j` lags by `j + 1`, as long as there is no reset. -/
theorem common_lags (j : Nat) :
    Lags (fun (lc : Common) (i : Nat × Nat) => lc.step true i.1 i.2) (fun lc => lc j) (j + 1)
      fun i => Common.mul i.1 i.2 := by
  induction j with
  | zero => exact lags_input fun _ _ => rfl
  | succ j ih => exact ih.reg (fun lc => lc (j + 1)) id fun _ _ => rfl

/-! ## `mult` -/

section Mult

open Mult

theorem limb_lt (x i : Nat) : limb x i < 2 ^ 16 := slice_lt _ _ _

/-- The products are not cut. -/
theorem products_eq (x y i j : Nat) : Products.step x y i j = limb x i * limb y j := by
  refine Nat.mod_eq_of_lt ?_
  calc
    limb x i * limb y j < 2 ^ 16 * 2 ^ 16 :=
      Nat.mul_lt_mul_of_lt_of_le (limb_lt x i) (limb_lt y j).le (by decide)
    _ = 2 ^ 32 := by decide

/-- What lies below limb `i + 1` is limb `i` over what lies below it. -/
theorem mod_succ_limb (x i : Nat) :
    x % 2 ^ (16 * (i + 1)) = limb x i * 2 ^ (16 * i) + x % 2 ^ (16 * i) := by
  unfold limb slice
  rw [show 16 * (i + 1) = 16 * i + 16 by ring, Nat.pow_add, Nat.mod_mul]
  ring

/-- A number of 128 bits is made of its limbs. -/
theorem sum_limbs {x : Nat} (hx : x < 2 ^ 128) :
    limb x 7 * 2 ^ 112 + limb x 6 * 2 ^ 96 + limb x 5 * 2 ^ 80 + limb x 4 * 2 ^ 64
      + limb x 3 * 2 ^ 48 + limb x 2 * 2 ^ 32 + limb x 1 * 2 ^ 16 + limb x 0 = x := by
  have hlow : x % 2 ^ (16 * (0 + 1)) = limb x 0 := by simp [limb, slice]
  -- The limbs come off from the top: what is left below limb 8 is `x` itself.
  have hall : x % 2 ^ (16 * (7 + 1)) = x := Nat.mod_eq_of_lt hx
  rw [mod_succ_limb x 7, mod_succ_limb x 6, mod_succ_limb x 5, mod_succ_limb x 4,
    mod_succ_limb x 3, mod_succ_limb x 2, mod_succ_limb x 1, hlow] at hall
  simp only [← Nat.add_assoc] at hall
  exact hall

theorem cast_add (a b : Nat) : ((add a b : Nat) : ZMod (2 ^ 256)) = a + b := by
  unfold add
  rw [ZMod.natCast_mod, Nat.cast_add]

theorem cast_shl (a n : Nat) : ((shl a n : Nat) : ZMod (2 ^ 256)) = a * 2 ^ n := by
  unfold shl
  rw [ZMod.natCast_mod, Nat.cast_mul, Nat.cast_pow, Nat.cast_ofNat]

/-- The two sums that go to the adder, of the inputs of one clock. -/
def Mult.sums (x y : Nat) : Round6 :=
  Round6.step (Round5.step (Round4.step (Round3.step (Round2.step (Round1.step
    (Round0.step (Products.step x y)))))))

/-- Modulo `2 ^ 256` the two sums are the product, column by column. -/
theorem cast_sums {x y : Nat} (hx : x < 2 ^ 128) (hy : y < 2 ^ 128) :
    (((sums x y).s0 : Nat) : ZMod (2 ^ 256)) + ((sums x y).s1 : Nat) = (x * y : Nat) := by
  have hprod : (x * y : Nat) = (limb x 7 * 2 ^ 112 + limb x 6 * 2 ^ 96 + limb x 5 * 2 ^ 80
      + limb x 4 * 2 ^ 64 + limb x 3 * 2 ^ 48 + limb x 2 * 2 ^ 32 + limb x 1 * 2 ^ 16 + limb x 0)
      * (limb y 7 * 2 ^ 112 + limb y 6 * 2 ^ 96 + limb y 5 * 2 ^ 80
      + limb y 4 * 2 ^ 64 + limb y 3 * 2 ^ 48 + limb y 2 * 2 ^ 32 + limb y 1 * 2 ^ 16 + limb y 0) := by
    rw [sum_limbs hx, sum_limbs hy]
  rw [hprod]
  simp only [sums, Round6.step, Round5.step, Round4.step, Round3.step, Round2.step, Round1.step,
    Round0.step, cast_add, cast_shl, products_eq, Nat.cast_add, Nat.cast_mul, Nat.cast_pow,
    Nat.cast_ofNat]
  ring

theorem sums_lt (x y : Nat) : (sums x y).s0 < 2 ^ 256 ∧ (sums x y).s1 < 2 ^ 256 :=
  ⟨Nat.mod_lt _ (Nat.two_pow_pos 256), Nat.mod_lt _ (Nat.two_pow_pos 256)⟩

/-- What leaves the adder, without the two highest bits. -/
theorem sum_sums {x y : Nat} (hx : x < 2 ^ 128) (hy : y < 2 ^ 128) :
    ((sums x y).s0 + (sums x y).s1) % 2 ^ 256 = x * y := by
  have hcast := cast_sums hx hy
  rw [← Nat.cast_add, ZMod.natCast_eq_natCast_iff'] at hcast
  rw [hcast]
  refine Nat.mod_eq_of_lt ?_
  calc
    x * y < 2 ^ 128 * 2 ^ 128 := Nat.mul_lt_mul_of_lt_of_le hx hy.le (Nat.two_pow_pos 128)
    _ = 2 ^ 256 := by decide

/-- The second stage of the adder is a register of what the first one shows. -/
theorem fullSum_second (s : P12Adder2) (a b f : Nat) :
    (s.step a b f).fullSum = s.first.fullSum := by
  unfold P12Adder2.fullSum P12Adder2.step P12Adder.fullSum cat
  ring

/-- One clock of `mult`, with its two operands. -/
def Mult.next (m : Mult) (i : BitVec 128 × BitVec 128) : Mult := m.step i.1.toNat i.2.toNat

/-- `mult` shows the product ten clocks later. -/
theorem mult_lags : Lags Mult.next cOut 10 fun i => i.1.toNat * i.2.toNat := by
  have hproducts : Lags Mult.next products 1 fun i => Products.step i.1.toNat i.2.toNat :=
    lags_input fun _ _ => rfl
  have hround0 := hproducts.reg round0 Round0.step fun _ _ => rfl
  have hround1 := hround0.reg round1 Round1.step fun _ _ => rfl
  have hround2 := hround1.reg round2 Round2.step fun _ _ => rfl
  have hround3 := hround2.reg round3 Round3.step fun _ _ => rfl
  have hround4 := hround3.reg round4 Round4.step fun _ _ => rfl
  have hround5 := hround4.reg round5 Round5.step fun _ _ => rfl
  have hround6 := hround5.reg round6 Round6.step fun _ _ => rfl
  have hfirst := hround6.reg (fun m => m.adder.first) (fun r => P12Adder.step r.s0 r.s1 0)
    fun _ _ => rfl
  have hsecond := hfirst.reg (fun m => m.adder.fullSum) P12Adder.fullSum
    fun m _ => fullSum_second m.adder _ _ _
  refine (hsecond.map fun full => cat (slice full 128 128) 128 (slice full 0 128)).congr ?_
  intro i
  have hlt := sums_lt i.1.toNat i.2.toNat
  change (fun full => cat (slice full 128 128) 128 (slice full 0 128))
    (P12Adder.step (sums i.1.toNat i.2.toNat).s0 (sums i.1.toNat i.2.toNat).s1 0).fullSum = _
  rw [fullSum_step hlt.1 hlt.2 (Nat.zero_le 1), ← sum_sums i.1.isLt i.2.isLt]
  unfold cat slice
  dsimp only
  omega

end Mult

/-! ## One level of the other multiplier -/

section Level

/-- The middle part of a product is less than twice the square of the base. -/
theorem middle_lt {B a0 a1 b0 b1 : Nat} (ha0 : a0 < B) (ha1 : a1 < B) (hb0 : b0 < B)
    (hb1 : b1 < B) : a1 * b0 + a0 * b1 + a0 * b0 / B < 2 * (B * B) := by
  obtain ⟨C, rfl⟩ : ∃ C, B = C + 1 := ⟨B - 1, by omega⟩
  have h1 : a1 * b0 ≤ C * C := Nat.mul_le_mul (by omega) (by omega)
  have h2 : a0 * b1 ≤ C * C := Nat.mul_le_mul (by omega) (by omega)
  have h3 : a0 * b0 / (C + 1) < C + 1 := by
    rw [Nat.div_lt_iff_lt_mul (by omega)]
    exact Nat.mul_lt_mul_of_lt_of_le ha0 hb0.le (by omega)
  have h4 : 2 * ((C + 1) * (C + 1)) = 2 * (C * C) + 4 * C + 2 := by ring
  omega

theorem or_eq_add {p q : Nat} (h : p + q ≤ 1) : p ||| q = p + q := by
  have hcases : p = 0 ∨ q = 0 := by omega
  rcases hcases with rfl | rfl
  · rw [Nat.zero_or, Nat.zero_add]
  · rw [Nat.or_zero, Nat.add_zero]

/-- A sum below `2 * N`, of which a part was reduced before: the two carries are at most
    one, and make up for what was cut. -/
theorem carries {N s u : Nat} (h : s + u < 2 * N) :
    (u + s % N) / N + s / N ≤ 1 ∧ ((u + s % N) / N + s / N) * N + (u + s % N) % N = s + u := by
  have hs := Nat.div_add_mod s N
  have hm := Nat.div_add_mod (u + s % N) N
  have hsum : ((u + s % N) / N + s / N) * N + (u + s % N) % N = s + u := by
    rw [Nat.add_mul, Nat.mul_comm _ N, Nat.mul_comm _ N]
    omega
  refine ⟨?_, hsum⟩
  by_contra hgt
  have htwo : 2 * N ≤ ((u + s % N) / N + s / N) * N := Nat.mul_le_mul_right N (by omega)
  omega

variable {S : Type} {h : Nat}

/-- The products of the halves of two operands. -/
def halves (h a b : Nat) : VedicComb where
  res0 := slice a 0 h * slice b 0 h
  res1 := slice a h h * slice b 0 h
  res2 := slice a 0 h * slice b h h
  res3 := slice a h h * slice b h h

/-- What the two cross products and the lowest one make. -/
def VedicComb.cross (w : VedicComb) (h : Nat) : Nat := (w.res1 + w.res2) * 2 ^ h + w.res0

/-- The middle part, without the lower half of the lowest product. -/
def VedicComb.middle (w : VedicComb) (h : Nat) : Nat := w.res1 + w.res2 + w.res0 / 2 ^ h

theorem halves_lt (h a b : Nat) :
    (halves h a b).res0 < 2 ^ (2 * h) ∧ (halves h a b).res3 < 2 ^ (2 * h) ∧
      (halves h a b).res1 + (halves h a b).res2 < 2 ^ (2 * h + 1) ∧
      (halves h a b).middle h < 2 * 2 ^ (2 * h) := by
  have hpow : 2 ^ (2 * h) = 2 ^ h * 2 ^ h := by rw [← Nat.pow_add, Nat.two_mul]
  have hmul : ∀ x y x' y', slice x y h * slice x' y' h < 2 ^ (2 * h) := by
    intro x y x' y'
    rw [hpow]
    exact Nat.mul_lt_mul_of_lt_of_le (slice_lt _ _ _) (slice_lt _ _ _).le (Nat.two_pow_pos h)
  have hmid : (halves h a b).middle h < 2 * 2 ^ (2 * h) := by
    rw [hpow]
    exact middle_lt (slice_lt _ _ _) (slice_lt _ _ _) (slice_lt _ _ _) (slice_lt _ _ _)
  refine ⟨hmul _ _ _ _, hmul _ _ _ _, ?_, hmid⟩
  rw [Nat.pow_succ, Nat.mul_comm]
  exact Nat.lt_of_le_of_lt (Nat.le_add_right _ _) hmid

/-- The product, from those of the halves. -/
theorem halves_mul (h a b : Nat) :
    (halves h a b).res3 * 2 ^ (2 * h) + (halves h a b).cross h
      = (a % 2 ^ (2 * h)) * (b % 2 ^ (2 * h)) := by
  have hsplit : ∀ x, x % 2 ^ (2 * h) = slice x h h * 2 ^ h + slice x 0 h := by
    intro x
    unfold slice
    rw [Nat.pow_zero, Nat.div_one, Nat.two_mul, Nat.pow_add, Nat.mod_mul]
    ring
  rw [hsplit a, hsplit b]
  unfold VedicComb.cross halves
  have hpow : 2 ^ (2 * h) = 2 ^ h * 2 ^ h := by rw [← Nat.pow_add, Nat.two_mul]
  rw [hpow]
  ring

theorem middle_cat (w : VedicComb) : cat (w.middle h) h (w.res0 % 2 ^ h) = w.cross h := by
  unfold cat VedicComb.middle VedicComb.cross
  have hdiv := Nat.div_add_mod w.res0 (2 ^ h)
  rw [Nat.add_mul, Nat.add_assoc, Nat.mul_comm (w.res0 / 2 ^ h), hdiv]

theorem slice_top {x W : Nat} (hx : x < 2 ^ (W + 1)) : slice x W 1 = x / 2 ^ W := by
  refine Nat.mod_eq_of_lt ?_
  rw [Nat.div_lt_iff_lt_mul (Nat.two_pow_pos W), Nat.pow_one, Nat.mul_comm, ← Nat.pow_succ]
  exact hx

theorem slice_half {x : Nat} (hx : x < 2 ^ (2 * h)) : slice x h h = x / 2 ^ h := by
  refine Nat.mod_eq_of_lt ?_
  rw [Nat.div_lt_iff_lt_mul (Nat.two_pow_pos h), ← Nat.pow_add, ← Nat.two_mul]
  exact hx

theorem slice_zero (x w : Nat) : slice x 0 w = x % 2 ^ w := by
  unfold slice
  rw [Nat.pow_zero, Nat.div_one]

/-- The sum behind the first one: the upper half of the lowest product, and the cross
    products without their carry. -/
def VedicComb.rest (w : VedicComb) (h : Nat) : Nat :=
  w.res0 / 2 ^ h + (w.res1 + w.res2) % 2 ^ (2 * h)

/-- The two carries are at most one, and with what is left they are the middle part. -/
theorem rest_carries (h a b : Nat) :
    (halves h a b).rest h < 2 ^ (2 * h + 1) ∧
      (halves h a b).rest h / 2 ^ (2 * h)
        + ((halves h a b).res1 + (halves h a b).res2) / 2 ^ (2 * h) ≤ 1 ∧
      cat ((halves h a b).rest h / 2 ^ (2 * h)
          ||| ((halves h a b).res1 + (halves h a b).res2) / 2 ^ (2 * h))
        (2 * h) ((halves h a b).rest h % 2 ^ (2 * h)) = (halves h a b).middle h := by
  have hlt := (halves_lt h a b).2.2.2
  generalize halves h a b = w at hlt ⊢
  have hcar := carries (N := 2 ^ (2 * h)) (s := w.res1 + w.res2) (u := w.res0 / 2 ^ h) hlt
  have hle : w.rest h ≤ w.middle h := by
    unfold VedicComb.rest VedicComb.middle
    have hmod := Nat.mod_le (w.res1 + w.res2) (2 ^ (2 * h))
    omega
  refine ⟨?_, hcar.1, ?_⟩
  · rw [Nat.pow_succ, Nat.mul_comm]
    omega
  · unfold cat VedicComb.rest
    rw [or_eq_add hcar.1]
    exact hcar.2

/-- The adders of a level. -/
theorem comb_adders (h a b : Nat) :
    (halves h a b).res0Adder (2 * h) = (halves h a b).res1 + (halves h a b).res2 ∧
      (halves h a b).res1Adder (2 * h) = (halves h a b).rest h := by
  have hlt := halves_lt h a b
  have hrest := (rest_carries h a b).1
  generalize halves h a b = w at hlt hrest ⊢
  have hzero : w.res0Adder (2 * h) = w.res1 + w.res2 := Nat.mod_eq_of_lt hlt.2.2.1
  refine ⟨hzero, ?_⟩
  unfold VedicComb.res1Adder
  rw [hzero, Nat.mul_div_cancel_left h (by decide), slice_zero, slice_half hlt.1, Nat.add_comm]
  exact Nat.mod_eq_of_lt hrest

/-- Three numbers side by side are the product, if they are so without a bound. -/
theorem assemble {P N q low : Nat} (hP : P = q * N + low) (hlt : P < N * N) :
    q % N * N + low = P := by
  have hq : q < N := by
    by_contra hge
    have hmul : N * N ≤ q * N := Nat.mul_le_mul_right N (by omega)
    omega
  rw [Nat.mod_eq_of_lt hq, hP]

theorem prod_lt (W a b : Nat) : (a % 2 ^ W) * (b % 2 ^ W) < 2 ^ W * 2 ^ W :=
  Nat.mul_lt_mul_of_lt_of_le (Nat.mod_lt _ (Nat.two_pow_pos W))
    (Nat.mod_lt _ (Nat.two_pow_pos W)).le (Nat.two_pow_pos W)

/-- A level without a clock. -/
theorem comb_exact (h a b : Nat) :
    (halves h a b).s (2 * h) = (a % 2 ^ (2 * h)) * (b % 2 ^ (2 * h)) ∧
      ¬(slice ((halves h a b).res1Adder (2 * h)) (2 * h) 1 = 1 ∧
        slice ((halves h a b).res0Adder (2 * h)) (2 * h) 1 = 1) := by
  rcases rest_carries h a b with ⟨hrest, hone, hmid⟩
  rcases comb_adders h a b with ⟨h0, h1⟩
  have hlt := halves_lt h a b
  have hmul := halves_mul h a b
  have hprod := prod_lt (2 * h) a b
  have hcross := middle_cat (h := h) (halves h a b)
  generalize halves h a b = w at *
  rw [h0, h1, slice_top hrest, slice_top hlt.2.2.1]
  refine ⟨?_, by omega⟩
  have hpow : 2 ^ (2 * h) = 2 ^ h * 2 ^ h := by rw [← Nat.pow_add, Nat.two_mul]
  rw [Nat.two_mul] at hmid
  -- The sum with the carry above it is the middle part, so its halves are those of it.
  have hhigh : cat (w.carry (2 * h)) h (slice (w.res1Adder (2 * h)) h h) = w.middle h / 2 ^ h := by
    unfold VedicComb.carry
    rw [h0, h1, slice_top hrest, slice_top hlt.2.2.1, ← hmid, cat_div, Nat.two_mul, Nat.pow_add,
      Nat.mod_mul_right_div_self]
    rfl
  have hlow : slice (w.res1Adder (2 * h)) 0 h = w.middle h % 2 ^ h := by
    rw [h1, slice_zero, ← hmid, cat_mod, Nat.pow_add, Nat.mod_mul_right_mod]
  unfold VedicComb.s
  rw [Nat.mul_div_cancel_left h (by decide), hhigh, hlow, slice_zero]
  have hP : (a % 2 ^ (2 * h)) * (b % 2 ^ (2 * h))
      = (w.res3 + w.middle h / 2 ^ h) * 2 ^ (2 * h)
        + (w.middle h % 2 ^ h * 2 ^ h + w.res0 % 2 ^ h) := by
    have hdiv := Nat.div_add_mod (w.middle h) (2 ^ h)
    rw [← hmul, ← hcross]
    unfold cat
    rw [hpow]
    nth_rewrite 1 [← hdiv]
    ring
  rw [← assemble hP hprod]
  unfold cat
  rw [hpow]
  ring

/-- The first stage of a level with a clock, slice by slice. -/
theorem stage0_slices (h a b : Nat) :
    Vedic.res1Adder (2 * h) (Vedic.stage0Of (2 * h) (halves h a b)) = (halves h a b).rest h ∧
      slice (Vedic.stage0Of (2 * h) (halves h a b)) (2 * (2 * h)) 1
        = ((halves h a b).res1 + (halves h a b).res2) / 2 ^ (2 * h) ∧
      slice (Vedic.stage0Of (2 * h) (halves h a b)) (2 * (2 * h) + 1) (2 * h)
        = (halves h a b).res3 ∧
      slice (Vedic.stage0Of (2 * h) (halves h a b)) 0 h = (halves h a b).res0 % 2 ^ h := by
  have hlt := halves_lt h a b
  have hrest := (rest_carries h a b).1
  have h0 := (comb_adders h a b).1
  generalize halves h a b = w at *
  unfold Vedic.stage0Of
  rw [h0]
  have hhalf : slice (cat (cat w.res3 (2 * h + 1) (w.res1 + w.res2)) (2 * h) w.res0) h h
      = w.res0 / 2 ^ h := by
    rw [slice_cat_low (by omega), slice_half hlt.1]
  have hsum : slice (cat (cat w.res3 (2 * h + 1) (w.res1 + w.res2)) (2 * h) w.res0) (2 * h) (2 * h)
      = (w.res1 + w.res2) % 2 ^ (2 * h) := by
    rw [slice_cat_above hlt.1, slice_cat_low (by omega), slice_zero]
  refine ⟨?_, ?_, ?_, ?_⟩
  · unfold Vedic.res1Adder
    rw [Nat.mul_div_cancel_left h (by decide), hhalf, hsum]
    exact Nat.mod_eq_of_lt hrest
  · rw [show 2 * (2 * h) = 2 * h + 2 * h by omega, slice_cat_high hlt.1, slice_cat_low (by omega),
      slice_top hlt.2.2.1]
  · rw [show 2 * (2 * h) + 1 = 2 * h + (2 * h + 1) by omega, slice_cat_high hlt.1,
      slice_cat_above hlt.2.2.1, slice_of_lt hlt.2.1]
  · rw [slice_cat_low (by omega), slice_zero]

/-- The second stage holds the highest product, and below it the cross products and the
    lowest one, of which nothing is cut. -/
theorem stage1_exact (h a b : Nat) :
    Vedic.stage1Of (2 * h) (Vedic.stage0Of (2 * h) (halves h a b))
        = cat (halves h a b).res3 (2 * h + h + 1) ((halves h a b).cross h) ∧
      (halves h a b).cross h < 2 ^ (2 * h + h + 1) ∧
      ¬(slice (Vedic.res1Adder (2 * h) (Vedic.stage0Of (2 * h) (halves h a b))) (2 * h) 1 = 1 ∧
        slice (Vedic.stage0Of (2 * h) (halves h a b)) (2 * (2 * h)) 1 = 1) := by
  rcases rest_carries h a b with ⟨hrest, hone, hmid⟩
  rcases stage0_slices h a b with ⟨h1, hcarry, h3, h0⟩
  have hlt := halves_lt h a b
  have hcross := middle_cat (h := h) (halves h a b)
  generalize halves h a b = w at *
  refine ⟨?_, ?_, ?_⟩
  · unfold Vedic.stage1Of Vedic.carry
    rw [h1, hcarry, h3, Nat.mul_div_cancel_left h (by decide), h0, slice_top hrest, slice_zero,
      ← hcross, ← hmid]
    unfold cat
    rw [Nat.pow_add, Nat.pow_add, Nat.pow_one]
    ring
  · rw [← hcross]
    unfold cat
    have hmod := Nat.mod_lt w.res0 (Nat.two_pow_pos h)
    have hle : (w.middle h + 1) * 2 ^ h ≤ 2 * 2 ^ (2 * h) * 2 ^ h :=
      Nat.mul_le_mul_right _ hlt.2.2.2
    have hpow : 2 ^ (2 * h + h + 1) = 2 * 2 ^ (2 * h) * 2 ^ h := by ring
    rw [Nat.add_mul, Nat.one_mul] at hle
    omega
  · rw [h1, hcarry, slice_top hrest]
    omega

/-- What leaves a level with a clock. -/
theorem level_exact (h a b : Nat) {v : Vedic S}
    (hv : v.stage1 = Vedic.stage1Of (2 * h) (Vedic.stage0Of (2 * h) (halves h a b))) :
    v.s (2 * h) = (a % 2 ^ (2 * h)) * (b % 2 ^ (2 * h)) := by
  rcases stage1_exact h a b with ⟨hstage, hcross, -⟩
  rw [hstage] at hv
  have hlt := (halves_lt h a b).2.1
  have hmul := halves_mul h a b
  have hprod := prod_lt (2 * h) a b
  generalize halves h a b = w at *
  have hhigh : slice v.stage1 (2 * h + h + 1) (2 * h) = w.res3 := by
    rw [hv, slice_cat_above hcross, slice_of_lt hlt]
  have hmid : cat (slice v.stage1 (2 * h + h) 1) h (slice v.stage1 (2 * h) h)
      = w.cross h / 2 ^ (2 * h) := by
    rw [cat_slices, hv, slice_cat_low (by omega)]
    refine Nat.mod_eq_of_lt ?_
    rw [Nat.div_lt_iff_lt_mul (Nat.two_pow_pos _), ← Nat.pow_add]
    rwa [show h + 1 + 2 * h = 2 * h + h + 1 by omega]
  have hlow : slice v.stage1 0 (2 * h) = w.cross h % 2 ^ (2 * h) := by
    rw [hv, slice_cat_low (by omega), slice_zero]
  have hP : (a % 2 ^ (2 * h)) * (b % 2 ^ (2 * h))
      = (w.res3 + w.cross h / 2 ^ (2 * h)) * 2 ^ (2 * h) + w.cross h % 2 ^ (2 * h) := by
    have hdiv := Nat.div_add_mod (w.cross h) (2 ^ (2 * h))
    rw [← hmul, Nat.add_mul, Nat.add_assoc, Nat.mul_comm (w.cross h / 2 ^ (2 * h)), hdiv]
  unfold Vedic.s Vedic.res2Adder
  rw [Nat.mul_div_cancel_left h (by decide), hhigh, hmid, hlow]
  exact assemble hP hprod

end Level

/-! ## The levels without a clock -/

/-- The wires of a level, if the multipliers of half the width multiply. -/
theorem wires_eq {h : Nat} {sub : Nat → Nat → Nat}
    (hsub : ∀ x y, x < 2 ^ h → y < 2 ^ h → sub x y = x * y) (a b : Nat) :
    VedicComb.wires (2 * h) sub a b = halves h a b := by
  unfold VedicComb.wires halves
  rw [Nat.mul_div_cancel_left h (by decide)]
  simp only [hsub _ _ (slice_lt _ _ _) (slice_lt _ _ _)]

theorem vedic2x2_eq : ∀ x < 2 ^ 2, ∀ y < 2 ^ 2, vedic2x2 x y = x * y := by
  decide

theorem vedic4_wires (a b : Nat) : VedicComb.wires 4 vedic2x2 a b = halves 2 a b :=
  wires_eq (fun x y hx hy => vedic2x2_eq x hx y hy) a b

theorem vedic4_eq (a b : Nat) : vedic4 a b = (a % 2 ^ 4) * (b % 2 ^ 4) := by
  unfold vedic4
  rw [vedic4_wires]
  exact (comb_exact 2 a b).1

theorem vedic8_wires (a b : Nat) : VedicComb.wires 8 vedic4 a b = halves 4 a b := by
  refine wires_eq (h := 4) ?_ a b
  intro x y hx hy
  rw [vedic4_eq, Nat.mod_eq_of_lt hx, Nat.mod_eq_of_lt hy]

theorem vedic8_eq (a b : Nat) : vedic8 a b = (a % 2 ^ 8) * (b % 2 ^ 8) := by
  unfold vedic8
  rw [vedic8_wires]
  exact (comb_exact 4 a b).1

/-! ## The levels with a clock -/

section Clocked

variable {S : Type} {h d : Nat}

/-- One clock of a level, with its two operands. -/
def Vedic.next (W : Nat) (next : S → Nat → Nat → S) (out : S → Nat → Nat → Nat) (v : Vedic S)
    (i : Nat × Nat) : Vedic S :=
  v.step W next out i.1 i.2

/-- A level of which nothing is lost, with multipliers of half the width that lag by `d`. -/
structure VedicExact (W d : Nat) (next : Vedic S → Nat × Nat → Vedic S) : Prop where
  /-- It shows the product of its operands, which are of `W` bits. -/
  lags : Lags next (Vedic.s W) (d + 2) fun i => (i.1 % 2 ^ W) * (i.2 % 2 ^ W)
  /-- The two carries are not both one. -/
  carries : ∀ v input t, let stage0 := (after next v input (t + (d + 1))).stage0
    ¬(slice (Vedic.res1Adder W stage0) W 1 = 1 ∧ slice stage0 (2 * W) 1 = 1)
  /-- The registers are wide enough. -/
  wide : ∀ v input t, (after next v input (t + (d + 1))).stage0 < 2 ^ (W + W + W + 1) ∧
    (after next v input (t + (d + 2))).stage1 < 2 ^ (W + W / 2 + 1 + W)
  /-- The lower bits of the second one are the sum of the three lower products, without a
      bound. -/
  cross : Lags next (fun v => slice v.stage1 0 (W + W / 2 + 1)) (d + 2)
    fun i => (halves (W / 2) i.1 i.2).cross (W / 2)

theorem stage0_lt (h a b : Nat) :
    Vedic.stage0Of (2 * h) (halves h a b) < 2 ^ (2 * h + 2 * h + 2 * h + 1) := by
  rcases halves_lt h a b with ⟨h0, h3, h12, -⟩
  have hadd := (comb_adders h a b).1
  generalize halves h a b = w at *
  unfold Vedic.stage0Of
  rw [hadd]
  refine Nat.lt_of_lt_of_eq (cat_lt (cat_lt h3 h12) h0) ?_
  congr 1
  omega

theorem stage1_lt (h a b : Nat) :
    Vedic.stage1Of (2 * h) (Vedic.stage0Of (2 * h) (halves h a b))
      < 2 ^ (2 * h + h + 1 + 2 * h) := by
  rcases stage1_exact h a b with ⟨hstage, hcross, -⟩
  rw [hstage]
  refine Nat.lt_of_lt_of_eq (cat_lt (halves_lt h a b).2.1 hcross) ?_
  congr 1
  omega

/-- A level loses nothing if its first stage holds the products of the halves. -/
theorem VedicExact.of_stage0 {next : Vedic S → Nat × Nat → Vedic S}
    (hstage0 : Lags next Vedic.stage0 (d + 1) fun i => Vedic.stage0Of (2 * h) (halves h i.1 i.2))
    (hnext : ∀ v i, (next v i).stage1 = Vedic.stage1Of (2 * h) v.stage0) :
    VedicExact (2 * h) d next := by
  have hstage1 := hstage0.reg Vedic.stage1 (Vedic.stage1Of (2 * h)) hnext
  have hhalf : 2 * h / 2 = h := Nat.mul_div_cancel_left h (by decide)
  refine ⟨?_, ?_, ?_, ?_⟩
  · intro v input t
    exact level_exact h _ _ (hstage1 v input t)
  · intro v input t
    dsimp only
    rw [hstage0]
    exact (stage1_exact h _ _).2.2
  · intro v input t
    rw [hstage0, hstage1, hhalf]
    exact ⟨stage0_lt h _ _, stage1_lt h _ _⟩
  · rw [hhalf]
    refine (hstage1.map fun x => slice x 0 (2 * h + h + 1)).congr ?_
    intro i
    rcases stage1_exact h i.1 i.2 with ⟨hstage, hcross, -⟩
    rw [hstage, slice_cat_low (by omega), slice_of_lt hcross]

/-- A level of multipliers without a clock. -/
theorem vedicExact_comb {sub : Nat → Nat → Nat}
    (hsub : ∀ x y, x < 2 ^ h → y < 2 ^ h → sub x y = x * y) :
    VedicExact (2 * h) 0
      (Vedic.next (2 * h) (fun (_ : Unit) _ _ => ()) fun _ a b => sub a b) := by
  refine VedicExact.of_stage0 (lags_input ?_) fun _ _ => rfl
  intro v i
  exact congrArg (Vedic.stage0Of (2 * h)) (wires_eq hsub i.1 i.2)

/-- A level of multipliers that lag. -/
theorem vedicExact_clocked {next : S → Nat → Nat → S} {sig : S → Nat}
    (hsub : Lags (fun s (i : Nat × Nat) => next s i.1 i.2) sig d
      fun i => (i.1 % 2 ^ h) * (i.2 % 2 ^ h)) :
    VedicExact (2 * h) d (Vedic.next (2 * h) next fun s _ _ => sig s) := by
  have hhalf : 2 * h / 2 = h := Nat.mul_div_cancel_left h (by decide)
  have hmod : ∀ x k, slice x k h % 2 ^ h = slice x k h := by
    intro x k
    exact Nat.mod_eq_of_lt (slice_lt x k h)
  -- The four multipliers are machines inside this one, with the halves for their inputs.
  have hpart : ∀ (proj : Vedic S → S) (j k : Nat),
      (∀ v i, proj (Vedic.next (2 * h) next (fun s _ _ => sig s) v i)
        = next (proj v) (slice i.1 j h) (slice i.2 k h)) →
      Lags (Vedic.next (2 * h) next fun s _ _ => sig s) (fun v => sig (proj v)) d
        fun i => slice i.1 j h * slice i.2 k h := by
    intro proj j k hproj
    refine (hsub.part proj (fun i => (slice i.1 j h, slice i.2 k h)) hproj).congr ?_
    intro i
    dsimp only
    rw [hmod, hmod]
  have h0 := hpart Vedic.sub0 0 0 (by intro v i; unfold Vedic.next Vedic.step; rw [hhalf])
  have h1 := hpart Vedic.sub1 h 0 (by intro v i; unfold Vedic.next Vedic.step; rw [hhalf])
  have h2 := hpart Vedic.sub2 0 h (by intro v i; unfold Vedic.next Vedic.step; rw [hhalf])
  have h3 := hpart Vedic.sub3 h h (by intro v i; unfold Vedic.next Vedic.step; rw [hhalf])
  refine VedicExact.of_stage0 ?_ fun _ _ => rfl
  exact (h0.pair (h1.pair (h2.pair h3))).reg Vedic.stage0
    (fun r => Vedic.stage0Of (2 * h) ⟨r.1, r.2.1, r.2.2.1, r.2.2.2⟩) fun _ _ => rfl

end Clocked

/-! ## The whole tree -/

def Vedic16.next (v : Vedic16) (i : Nat × Nat) : Vedic16 := v.step i.1 i.2

def Vedic32.next (v : Vedic32) (i : Nat × Nat) : Vedic32 := v.step i.1 i.2

def Vedic64.next (v : Vedic64) (i : Nat × Nat) : Vedic64 := v.step i.1 i.2

def Vedic128.next (v : Vedic128) (i : Nat × Nat) : Vedic128 := v.step i.1 i.2

theorem vedic16_exact : VedicExact 16 0 Vedic16.next := by
  refine vedicExact_comb (h := 8) ?_
  intro x y hx hy
  rw [vedic8_eq, Nat.mod_eq_of_lt hx, Nat.mod_eq_of_lt hy]

theorem vedic32_exact : VedicExact 32 2 Vedic32.next :=
  vedicExact_clocked (h := 16) vedic16_exact.lags

theorem vedic64_exact : VedicExact 64 4 Vedic64.next :=
  vedicExact_clocked (h := 32) vedic32_exact.lags

theorem vedic128_exact : VedicExact 128 6 Vedic128.next :=
  vedicExact_clocked (h := 64) vedic64_exact.lags

/-- Two operands of 128 bits, as numbers. -/
def operands (i : BitVec 128 × BitVec 128) : Nat × Nat := (i.1.toNat, i.2.toNat)

theorem operands_mul_lt (i : BitVec 128 × BitVec 128) : (operands i).1 * (operands i).2 < 2 ^ 256 := by
  calc
    i.1.toNat * i.2.toNat < 2 ^ 128 * 2 ^ 128 :=
      Nat.mul_lt_mul_of_lt_of_le i.1.isLt i.2.isLt.le (Nat.two_pow_pos 128)
    _ = 2 ^ 256 := by decide

/-- A machine that takes two operands of 128 bits. -/
theorem Lags.operands {S : Type} {next : S → Nat × Nat → S} {sig : S → Nat} {d : Nat}
    {f : Nat × Nat → Nat} (h : Lags next sig d f)
    (hf : ∀ i, f (operands i) = i.1.toNat * i.2.toNat) :
    Lags (fun s i => next s (Rsa.operands i)) sig d fun i => i.1.toNat * i.2.toNat := by
  exact (h.part id Rsa.operands fun _ _ => rfl).congr hf

theorem vedic128_lags :
    Lags (fun v i => Vedic128.next v (operands i)) (Vedic.s 128) 8
      fun i => i.1.toNat * i.2.toNat := by
  refine Lags.operands vedic128_exact.lags ?_
  intro i
  unfold operands
  rw [Nat.mod_eq_of_lt i.1.isLt, Nat.mod_eq_of_lt i.2.isLt]

/-- One clock of the shift register, without a reset. -/
def Common.next (lc : Common) (i : Nat × Nat) : Common := lc.step true i.1 i.2

theorem common_lags_operands (latency : Nat) :
    Lags (fun lc i => Common.next lc (operands i)) (Common.cOut (latency + 1)) (latency + 1)
      fun i => i.1.toNat * i.2.toNat :=
  Lags.operands (common_lags latency) fun i => Nat.mod_eq_of_lt (operands_mul_lt i)

/-- Whatever stream of operands there is, `mult` shows each product ten clocks later and
    `simple_vedic_128bit` eight clocks later, as `*` with a register for each clock does. At
    no level of the tree are the two carries both one, and no register is too narrow. -/
theorem mul128_agree :
    (∀ (m : Mult) (input : Nat → BitVec 128 × BitVec 128) (t : Nat),
      (after Mult.next m input (t + 10)).cOut = (input t).1.toNat * (input t).2.toNat) ∧
    (∀ (v : Vedic128) (input : Nat → BitVec 128 × BitVec 128) (t : Nat),
      (after (fun v i => Vedic128.next v (operands i)) v input (t + 8)).s 128
        = (input t).1.toNat * (input t).2.toNat) ∧
    (∀ (latency : Nat) (lc : Common) (input : Nat → BitVec 128 × BitVec 128) (t : Nat),
      Common.cOut (latency + 1)
        (after (fun lc i => Common.next lc (operands i)) lc input (t + (latency + 1)))
        = (input t).1.toNat * (input t).2.toNat) ∧
    (∀ a b, ¬(slice ((VedicComb.wires 4 vedic2x2 a b).res1Adder 4) 4 1 = 1 ∧
      slice ((VedicComb.wires 4 vedic2x2 a b).res0Adder 4) 4 1 = 1)) ∧
    (∀ a b, ¬(slice ((VedicComb.wires 8 vedic4 a b).res1Adder 8) 8 1 = 1 ∧
      slice ((VedicComb.wires 8 vedic4 a b).res0Adder 8) 8 1 = 1)) ∧
    VedicExact 16 0 Vedic16.next ∧ VedicExact 32 2 Vedic32.next ∧
    VedicExact 64 4 Vedic64.next ∧ VedicExact 128 6 Vedic128.next := by
  refine ⟨mult_lags, vedic128_lags, common_lags_operands, ?_, ?_, vedic16_exact, vedic32_exact,
    vedic64_exact, vedic128_exact⟩
  · intro a b
    rw [vedic4_wires]
    exact (comb_exact 2 a b).2
  · intro a b
    rw [vedic8_wires]
    exact (comb_exact 4 a b).2

end Rsa

end Wujian100
