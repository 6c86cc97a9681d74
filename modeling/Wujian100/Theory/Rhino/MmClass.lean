import Wujian100.Core.Rhino.Mm
import Mathlib.Tactic.Ring

/-!
# Classes of Sizes

A class is a power of two and a thirty-second part of it. A free block goes to the class it lies
in; a request is rounded up to the next class first, so that every block of that class or a
higher one is large enough. Both hold as long as the rounding does not wrap around.

## Main definitions

* `classOf`: Where `bitmap_search` puts a free block.
* `classBase`: The smallest size of a class.
* `ClassLe`: The order of the classes.
* `roundedSize`: How long a block has to be for a request to find it.

## Theorems

* `classBase_le`: A block is at least as large as its class.
* `le_classBase`: A request is at most as large as the class it searches from.
* `search_le_classOf`: A block that is long enough is in a class that is searched.
* `classBase_mono`: Higher classes are larger.
* `findLastBit_spec`: The lowest bit of a bitmap.
-/

namespace Wujian100

namespace Rhino

/-- The class of a free block. -/
def classOf (size : Nat) : Nat × Nat := (bitmapSearch size .insert).2

/-- The smallest size of a class. -/
def classBase (flt slt : Nat) : Nat :=
  if flt = 0 then 4 * slt else 2 ^ (flt + 6) + slt * 2 ^ (flt + 1)

/-- The order in which `findblk_byidx` searches. -/
def ClassLe (flt slt flt' slt' : Nat) : Prop := flt < flt' ∨ flt = flt' ∧ slt ≤ slt'

/-- How long a size may be for the rounding to stay below `2 ^ 32`. -/
def sizeLimit : Nat := 2 ^ 32 - 2 ^ 26

section Classes

variable {size f flt slt flt' slt' : Nat}

theorem le_log2_of_le (h : 2 ^ f ≤ size) : f ≤ size.log2 := by
  have hne : size ≠ 0 := Nat.ne_of_gt (Nat.lt_of_lt_of_le (Nat.two_pow_pos f) h)
  exact (Nat.le_log2 hne).mpr h

/-- How far a size is from its power of two. -/
theorem rest_lt (h : 2 ^ 7 ≤ size) :
    size - 2 ^ size.log2 < 32 * 2 ^ (size.log2 - 5) := by
  have hseven := le_log2_of_le h
  have hlt := @Nat.lt_log2_self size
  have hhalf : 2 ^ (size.log2 + 1) = 2 ^ size.log2 + 2 ^ size.log2 := by
    rw [pow_succ, Nat.mul_two]
  have hpart : 32 * 2 ^ (size.log2 - 5) = 2 ^ size.log2 := by
    rw [show 32 = 2 ^ 5 from rfl, ← pow_add]
    congr 1
    omega
  omega

theorem slt_lt (h : 2 ^ 7 ≤ size) : (size - 2 ^ size.log2) / 2 ^ (size.log2 - 5) < 32 := by
  rw [Nat.div_lt_iff_lt_mul (Nat.two_pow_pos _)]
  exact rest_lt h

/-- The class of a size of the second level or above. -/
theorem classBase_log2 (h : 2 ^ 7 ≤ size) :
    classBase (size.log2 - 6) ((size - 2 ^ size.log2) / 2 ^ (size.log2 - 5))
      = 2 ^ size.log2 + (size - 2 ^ size.log2) / 2 ^ (size.log2 - 5) * 2 ^ (size.log2 - 5) := by
  have hseven := le_log2_of_le h
  unfold classBase
  rw [if_neg (by omega), show size.log2 - 6 + 6 = size.log2 by omega,
    show size.log2 - 6 + 1 = size.log2 - 5 by omega]

/-- A size is less than a part above its class. -/
theorem classBase_bounds (h : 2 ^ 7 ≤ size) :
    classBase (size.log2 - 6) ((size - 2 ^ size.log2) / 2 ^ (size.log2 - 5)) ≤ size ∧
      size < classBase (size.log2 - 6) ((size - 2 ^ size.log2) / 2 ^ (size.log2 - 5))
        + 2 ^ (size.log2 - 5) := by
  rw [classBase_log2 h]
  have hne : size ≠ 0 := by
    have hpos := Nat.two_pow_pos 7
    omega
  have hself := Nat.log2_self_le hne
  have hfloor := Nat.div_mul_le_self (size - 2 ^ size.log2) (2 ^ (size.log2 - 5))
  have hceil := Nat.lt_div_mul_add (a := size - 2 ^ size.log2) (Nat.two_pow_pos (size.log2 - 5))
  omega

/-- `*flt` for a size below `2 ^ 32`. -/
theorem flt_eq (h : 2 ^ 7 ≤ size) (hlt : size < 2 ^ 32) :
    (size.log2 + 2 ^ 32 - 7 + 1) % 2 ^ 32 = size.log2 - 6 := by
  have hseven := le_log2_of_le h
  have hne : size ≠ 0 := by omega
  have hlog := (Nat.log2_lt hne).mpr hlt
  omega

/-- The class of a free block of the heap. -/
theorem classOf_spec (haligned : size % 4 = 0) (hlt : size < 2 ^ maxMmBit) :
    (classOf size).1 < fltSize ∧ (classOf size).2 < sltSize ∧
      classBase (classOf size).1 (classOf size).2 ≤ size := by
  have hpow : (2 : Nat) ^ maxMmBit < 2 ^ 32 := by decide
  unfold classOf bitmapSearch
  dsimp only
  by_cases hsmall : size < 2 ^ 7
  · rw [if_pos hsmall]
    dsimp only
    refine ⟨by decide, ?_, ?_⟩
    · unfold sltSize
      omega
    · unfold classBase
      rw [if_pos rfl]
      omega
  · have hbig : 2 ^ 7 ≤ size := Nat.le_of_not_lt hsmall
    have hne : size ≠ 0 := by omega
    have hlog : size.log2 < maxMmBit := (Nat.log2_lt hne).mpr hlt
    rw [if_neg hsmall]
    dsimp only
    rw [flt_eq hbig (hlt.trans hpow)]
    refine ⟨?_, slt_lt hbig, (classBase_bounds hbig).1⟩
    unfold fltSize maxMmBit at *
    omega

/-- A block whose class is one of the heap's is not too long for it. -/
theorem lt_of_classOf (hlt : size < 2 ^ 32) (hclass : (classOf size).1 < fltSize) :
    size < 2 ^ maxMmBit := by
  unfold classOf bitmapSearch at hclass
  dsimp only at hclass
  by_cases hsmall : size < 2 ^ 7
  · exact hsmall.trans (by decide)
  · have hbig : 2 ^ 7 ≤ size := Nat.le_of_not_lt hsmall
    have hne : size ≠ 0 := by omega
    rw [if_neg hsmall, flt_eq hbig hlt] at hclass
    unfold fltSize maxMmBit at hclass
    exact (Nat.log2_lt hne).mp (show size.log2 < 20 by omega)

/-- A block is at least as large as its class. -/
theorem classBase_le (haligned : size % 4 = 0) (hlt : size < 2 ^ maxMmBit) :
    classBase (classOf size).1 (classOf size).2 ≤ size :=
  (classOf_spec haligned hlt).2.2

/-- What a request is rounded to does not wrap around. -/
theorem padding_lt (h : 2 ^ 7 ≤ size) (hfits : size ≤ sizeLimit) :
    size + (2 ^ (size.log2 - 5) - 1) < 2 ^ 32 := by
  unfold sizeLimit at hfits
  have hne : size ≠ 0 := by omega
  have hlog : size.log2 < 32 := (Nat.log2_lt hne).mpr (by omega)
  have hpow : 2 ^ (size.log2 - 5) ≤ 2 ^ 26 := Nat.pow_le_pow_right (by decide) (by omega)
  omega

/-- A request is at most as large as the class it searches from. -/
theorem le_classBase (haligned : size % 4 = 0) (hfits : size ≤ sizeLimit)
    (hfound : bitmapSearch size .get = (true, flt, slt)) :
    flt < fltSize ∧ slt < sltSize ∧ size ≤ classBase flt slt := by
  unfold bitmapSearch at hfound
  dsimp only at hfound
  -- Small sizes are not rounded, and have the first row to themselves.
  by_cases hsmall : size < 2 ^ 7
  · rw [if_pos hsmall] at hfound
    simp only [Prod.mk.injEq, decide_eq_true_eq, not_or, Nat.not_le] at hfound
    rcases hfound with ⟨hrange, rfl, rfl⟩
    refine ⟨hrange.1, hrange.2, ?_⟩
    unfold classBase
    rw [if_pos rfl]
    omega
  · have hbig : 2 ^ 7 ≤ size := Nat.le_of_not_lt hsmall
    have hpad := padding_lt hbig hfits
    rw [if_neg hsmall] at hfound
    rw [Nat.mod_eq_of_lt hpad] at hfound
    generalize htmp : size + (2 ^ (size.log2 - 5) - 1) = tmpSize at hfound hpad
    have hpow := Nat.two_pow_pos (size.log2 - 5)
    have hbig' : 2 ^ 7 ≤ tmpSize := by omega
    rw [flt_eq hbig' hpad] at hfound
    simp only [Prod.mk.injEq, decide_eq_true_eq, not_or, Nat.not_le] at hfound
    rcases hfound with ⟨hrange, rfl, rfl⟩
    refine ⟨hrange.1, hrange.2, ?_⟩
    have hne : size ≠ 0 := by omega
    have hne' : tmpSize ≠ 0 := by omega
    have hseven := le_log2_of_le hbig
    by_cases hlog : tmpSize.log2 = size.log2
    · -- rounded up to a part of the same power of two
      have hbounds := (classBase_bounds hbig').2
      rw [hlog] at hbounds ⊢
      omega
    · -- rounded up to the next power of two
      have hle : size.log2 ≤ tmpSize.log2 := by
        refine le_log2_of_le ?_
        have hself := Nat.log2_self_le hne
        omega
      have hlt : size < 2 ^ tmpSize.log2 := by
        refine (@Nat.lt_log2_self size).trans_le ?_
        exact Nat.pow_le_pow_right (by decide) (by omega)
      rw [classBase_log2 hbig']
      omega

/-- What a request is rounded up to. -/
def roundedSize (size : Nat) : Nat :=
  if size < 2 ^ 7 then size else size + (2 ^ (size.log2 - 5) - 1)

theorem classOf_big (h : 2 ^ 7 ≤ size) (hlt : size < 2 ^ 32) :
    classOf size = (size.log2 - 6, (size - 2 ^ size.log2) / 2 ^ (size.log2 - 5)) := by
  unfold classOf bitmapSearch
  dsimp only
  rw [if_neg (Nat.not_lt.mpr h)]
  dsimp only
  rw [flt_eq h hlt]

/-- A longer block is in no lower class. -/
theorem classOf_mono {n : Nat} (h : 2 ^ 7 ≤ size) (hle : size ≤ n) (hlt : n < 2 ^ 32) :
    ClassLe (size.log2 - 6) ((size - 2 ^ size.log2) / 2 ^ (size.log2 - 5)) (classOf n).1
      (classOf n).2 := by
  have hseven := le_log2_of_le h
  have hne : size ≠ 0 := by omega
  have hlog : size.log2 ≤ n.log2 := le_log2_of_le ((Nat.log2_self_le hne).trans hle)
  rw [classOf_big (h.trans hle) hlt]
  by_cases hsame : size.log2 = n.log2
  · refine Or.inr ⟨by rw [hsame], ?_⟩
    dsimp only
    rw [hsame]
    exact Nat.div_le_div_right (Nat.sub_le_sub_right hle _)
  · exact Or.inl (by
      dsimp only
      omega)

/-- A block that is as long as what a request is rounded up to is in a class that is searched. -/
theorem search_le_classOf {n : Nat} (hfits : size ≤ sizeLimit) (hle : roundedSize size ≤ n)
    (haligned : n % 4 = 0) (hlt : n < 2 ^ maxMmBit) :
    ∃ flt slt, bitmapSearch size .get = (true, flt, slt) ∧
      ClassLe flt slt (classOf n).1 (classOf n).2 := by
  have hpow : (2 : Nat) ^ maxMmBit < 2 ^ 32 := by decide
  have hrange := (classOf_spec haligned hlt).1
  have hok : ∀ flt slt, slt < 32 → ClassLe flt slt (classOf n).1 (classOf n).2 →
      decide (¬(flt ≥ fltSize ∨ slt ≥ sltSize)) = true := by
    intro flt slt hslt hclass
    have hflt : flt < fltSize := by
      rcases hclass with hclass | ⟨hclass, -⟩
      · exact hclass.trans hrange
      · exact hclass ▸ hrange
    exact decide_eq_true fun hc => hc.elim (Nat.not_le.mpr hflt) (Nat.not_le.mpr hslt)
  unfold roundedSize at hle
  unfold bitmapSearch
  dsimp only
  -- Small sizes are not rounded, and have the first row to themselves.
  by_cases hsmall : size < 2 ^ 7
  · rw [if_pos hsmall] at hle ⊢
    have hclass : ClassLe 0 (size / 2 ^ 2) (classOf n).1 (classOf n).2 := by
      by_cases hn : n < 2 ^ 7
      · have hone : classOf n = (0, n / 2 ^ 2) := by
          unfold classOf bitmapSearch
          dsimp only
          rw [if_pos hn]
        rw [hone]
        exact Or.inr ⟨rfl, Nat.div_le_div_right hle⟩
      · -- a block of the second level or above
        have hbig : 2 ^ 7 ≤ n := Nat.le_of_not_lt hn
        have hseven := le_log2_of_le hbig
        rw [classOf_big hbig (hlt.trans hpow)]
        refine Or.inl ?_
        dsimp only
        omega
    dsimp only
    rw [hok _ _ (by omega) hclass]
    exact ⟨_, _, rfl, hclass⟩
  · have hbig : 2 ^ 7 ≤ size := Nat.le_of_not_lt hsmall
    have hpad := padding_lt hbig hfits
    rw [if_neg hsmall] at hle ⊢
    rw [Nat.mod_eq_of_lt hpad]
    have hbig' : 2 ^ 7 ≤ size + (2 ^ (size.log2 - 5) - 1) := Nat.le_add_right_of_le hbig
    generalize size + (2 ^ (size.log2 - 5) - 1) = tmpSize at hle hpad hbig'
    have hclass := classOf_mono hbig' hle (hlt.trans hpow)
    dsimp only
    rw [flt_eq hbig' hpad, hok _ _ (slt_lt hbig') hclass]
    exact ⟨_, _, rfl, hclass⟩

/-- Higher classes are larger. -/
theorem classBase_mono (h : ClassLe flt slt flt' slt') (hslt : slt < sltSize) :
    classBase flt slt ≤ classBase flt' slt' := by
  unfold sltSize at hslt
  rcases h with hlt | ⟨rfl, hle⟩
  · -- a class stays below the next power of two
    have hbelow : classBase flt slt ≤ 2 ^ (flt + 7) := by
      unfold classBase
      split
      · rename_i hzero
        rw [hzero]
        omega
      · have hpart : 2 ^ (flt + 6) = 32 * 2 ^ (flt + 1) := by
          rw [show 32 = 2 ^ 5 from rfl, ← pow_add]
          congr 1
          omega
        have hmul := Nat.mul_le_mul_right (2 ^ (flt + 1)) (Nat.le_of_lt hslt)
        have hdouble : 2 ^ (flt + 7) = 2 ^ (flt + 6) + 2 ^ (flt + 6) := by
          rw [show flt + 7 = flt + 6 + 1 by omega, pow_succ, Nat.mul_two]
        omega
    have habove : 2 ^ (flt + 7) ≤ classBase flt' slt' := by
      unfold classBase
      rw [if_neg (by omega)]
      have hpow : 2 ^ (flt + 7) ≤ 2 ^ (flt' + 6) := Nat.pow_le_pow_right (by decide) (by omega)
      omega
    exact hbelow.trans habove
  · unfold classBase
    split
    · omega
    · have hmul := Nat.mul_le_mul_right (2 ^ (flt + 1)) hle
      omega

end Classes

/-! ## Bits -/

section Bits

variable {b : BitVec 32} {i : Nat}

/-- The lowest bit of a bitmap, by itself. -/
theorem and_neg_eq (hi : b.getLsbD i = true) (hlow : ∀ j < i, b.getLsbD j = false) :
    b &&& -b = BitVec.twoPow 32 i := by
  refine BitVec.eq_of_getLsbD_eq fun k hk => ?_
  rw [BitVec.getLsbD_and, BitVec.getLsbD_neg, BitVec.getLsbD_twoPow]
  have hi32 : i < 32 := BitVec.lt_of_getLsbD hi
  rcases Nat.lt_trichotomy k i with hlt | rfl | hgt
  · rw [hlow k hlt, Bool.false_and, decide_eq_false (Nat.ne_of_gt hlt), Bool.and_false]
  · have hnone : ¬∃ j < k, b.getLsbD j = true := by
      rintro ⟨j, hj, hbit⟩
      rw [hlow j hj] at hbit
      cases hbit
    rw [hi, decide_eq_false hnone, decide_eq_true hi32, decide_eq_true rfl]
    rfl
  · have hsome : ∃ j < k, b.getLsbD j = true := ⟨i, hgt, hi⟩
    rw [decide_eq_true hsome, decide_eq_true hk, decide_eq_false (Nat.ne_of_lt hgt), Bool.and_false]
    cases b.getLsbD k with
    | true => rfl
    | false => rfl

/-- `find_last_bit` finds the lowest bit. -/
theorem findLastBit_spec (h : b ≠ 0) :
    b.getLsbD (findLastBit b) = true ∧ ∀ j < findLastBit b, b.getLsbD j = false := by
  have hsome : ∃ i, b.getLsbD i = true := by
    by_contra hnone
    refine h (BitVec.zero_iff_eq_false.mpr fun i => ?_)
    cases hbit : b.getLsbD i with
    | true => exact absurd ⟨i, hbit⟩ hnone
    | false => rfl
  have hlow : ∀ j < Nat.find hsome, b.getLsbD j = false := by
    intro j hj
    cases hbit : b.getLsbD j with
    | true => exact absurd hbit (Nat.find_min hsome hj)
    | false => rfl
  have hi := Nat.find_spec hsome
  have hlog : findLastBit b = Nat.find hsome := by
    unfold findLastBit
    rw [if_neg h, and_neg_eq hi hlow, BitVec.toNat_twoPow_of_lt (BitVec.lt_of_getLsbD hi),
      Nat.log2_two_pow]
  rw [hlog]
  exact ⟨hi, hlow⟩

end Bits

end Rhino

end Wujian100
