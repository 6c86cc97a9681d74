import Mathlib.Logic.Function.Basic
import Mathlib.Tactic.Ring

/-!
# Registers of Two Halves

A register that holds two values of 16 bits, each written by reading the register, masking and
merging. A merge of a value that has 16 bits changes its half and no other bit.

## Main definitions

* `half`: One half of a register.
* `setLow`, `setHigh`, `setHalf`: A half, replaced by a merge.
* `bank`, `setBank`: The halves of several registers, numbered through.

## Theorems

* `half_setHalf`: The half that was replaced.
* `half_setHalf_ne`: The other one.
* `bank_setBank`, `bank_setBank_ne`: The same for a bank.
-/

namespace Wujian100

/-- One half of a register, the high one if `high`. -/
def half (high : Bool) (r : BitVec 32) : BitVec 16 := r.extractLsb' (if high then 16 else 0) 16

/-- The low half of a register, replaced: `(r & 0xffff0000) | value`. -/
def setLow (r value : BitVec 32) : BitVec 32 := (r &&& 0xffff0000#32) ||| value

/-- The high half of a register, replaced: `(r & 0x0000ffff) | value << 16`. -/
def setHigh (r value : BitVec 32) : BitVec 32 := (r &&& 0x0000ffff#32) ||| value <<< 16

/-- One half of a register, replaced. -/
def setHalf (high : Bool) (r value : BitVec 32) : BitVec 32 :=
  if high then setHigh r value else setLow r value

section Bits

variable {r value : BitVec 32}

theorem highMask_getLsbD : ∀ i < 32, (0xffff0000#32).getLsbD i = decide (16 ≤ i) := by decide

theorem lowMask_getLsbD : ∀ i < 32, (0x0000ffff#32).getLsbD i = decide (i < 16) := by decide

/-- A value that has 16 bits has none above them. -/
theorem getLsbD_of_lt (hv : value.toNat < 2 ^ 16) {i : Nat} (hi : 16 ≤ i) :
    value.getLsbD i = false := by
  refine Nat.testBit_lt_two_pow ?_
  calc
    value.toNat < 2 ^ 16 := hv
    _ ≤ 2 ^ i := Nat.pow_le_pow_right (by decide) hi

/-- The half that is replaced holds the low 16 bits of the value. -/
theorem half_setHalf (high : Bool) (r value : BitVec 32) :
    half high (setHalf high r value) = value.setWidth 16 := by
  ext i hi
  cases high with
  | false =>
      have hmask := highMask_getLsbD i (by omega)
      simp only [half, setHalf, setLow, Bool.false_eq_true, if_false, BitVec.getElem_extractLsb',
        BitVec.getLsbD_or, BitVec.getLsbD_and, BitVec.getElem_setWidth, Nat.zero_add, hmask]
      rw [decide_eq_false (by omega), Bool.and_false, Bool.false_or]
  | true =>
      have hmask := lowMask_getLsbD (16 + i) (by omega)
      simp only [half, setHalf, setHigh, if_true, BitVec.getElem_extractLsb', BitVec.getLsbD_or,
        BitVec.getLsbD_and, BitVec.getLsbD_shiftLeft, BitVec.getElem_setWidth, hmask]
      rw [decide_eq_false (show ¬ 16 + i < 16 by omega), Bool.and_false, Bool.false_or,
        decide_eq_true (show 16 + i < 32 by omega), Nat.add_sub_cancel_left]
      rfl

/-- The other half stays, if the value has 16 bits. -/
theorem half_setHalf_ne (high : Bool) (r : BitVec 32) (hv : value.toNat < 2 ^ 16) :
    half (!high) (setHalf high r value) = half (!high) r := by
  ext i hi
  cases high with
  | false =>
      have hmask := highMask_getLsbD (16 + i) (by omega)
      have hzero := getLsbD_of_lt hv (show 16 ≤ 16 + i by omega)
      simp only [half, setHalf, setLow, Bool.not_false, Bool.false_eq_true, if_false, if_true,
        BitVec.getElem_extractLsb', BitVec.getLsbD_or, BitVec.getLsbD_and, hmask, hzero]
      rw [decide_eq_true (by omega), Bool.and_true, Bool.or_false]
  | true =>
      have hmask := lowMask_getLsbD i (by omega)
      simp only [half, setHalf, setHigh, Bool.not_true, Bool.false_eq_true, if_false, if_true,
        BitVec.getElem_extractLsb', BitVec.getLsbD_or, BitVec.getLsbD_and,
        BitVec.getLsbD_shiftLeft, Nat.zero_add, hmask]
      rw [decide_eq_true hi, Bool.and_true]
      simp only [Bool.not_true, Bool.and_false, Bool.false_and, Bool.or_false]

/-- The value a half holds after a merge of one that fits. -/
theorem toNat_half_setHalf (high : Bool) (r : BitVec 32) (hv : value.toNat < 2 ^ 16) :
    (half high (setHalf high r value)).toNat = value.toNat := by
  rw [half_setHalf, BitVec.toNat_setWidth, Nat.mod_eq_of_lt hv]

end Bits

/-! ## Banks -/

section Bank

variable {k : Nat} (r : Fin k → BitVec 32) (i j : Fin (2 * k)) {value : BitVec 32}

/-- Half number `i` of a bank of registers. -/
def bank : BitVec 16 := half (i.val % 2 == 1) (r ⟨i.val / 2, by omega⟩)

/-- Half number `i`, replaced by a merge into its register. -/
def setBank (value : BitVec 32) : Fin k → BitVec 32 :=
  Function.update r ⟨i.val / 2, by omega⟩
    (setHalf (i.val % 2 == 1) (r ⟨i.val / 2, by omega⟩) value)

/-- The value a half holds after a merge of one that fits. -/
theorem bank_setBank (hv : value.toNat < 2 ^ 16) :
    (bank (setBank r i value) i).toNat = value.toNat := by
  rw [bank, setBank, Function.update_self]
  exact toNat_half_setHalf _ _ hv

variable {i j}

/-- All other halves stay, the other one of its register too. -/
theorem bank_setBank_ne (hv : value.toNat < 2 ^ 16) (hne : j ≠ i) :
    bank (setBank r i value) j = bank r j := by
  have hval : j.val ≠ i.val := fun h => hne (Fin.ext h)
  rw [bank, bank, setBank]
  by_cases hreg : j.val / 2 = i.val / 2
  · -- Two halves of one register are a low and a high one.
    have hhalf : (j.val % 2 == 1) = !(i.val % 2 == 1) := by
      rcases Nat.mod_two_eq_zero_or_one j.val with hj | hj <;>
        rcases Nat.mod_two_eq_zero_or_one i.val with hi | hi
      · omega
      · rw [hj, hi]
        rfl
      · rw [hj, hi]
        rfl
      · omega
    have hindex : (⟨j.val / 2, by omega⟩ : Fin k) = ⟨i.val / 2, by omega⟩ := Fin.ext hreg
    rw [hindex, Function.update_self, hhalf]
    exact half_setHalf_ne _ _ hv
  · rw [Function.update_of_ne fun h => hreg (congrArg Fin.val h)]

end Bank

end Wujian100
