import Mathlib.Data.Int.SuccPred
import Mathlib.Tactic.Linarith

/-!
# Numbers Cut into Blocks

A function that increases on a range of integers cuts the numbers into blocks: block `i` starts
at `start i` and ends before `start (i + 1)`. A number lies in one block only, and numbers come
in the order of their blocks.

## Main definitions

* `Increasing`: The starts increase from `a` to `b`.
* `InBlock`: A number lies in a block.

## Theorems

* `Increasing.lt`, `Increasing.le`: Starts compare as the numbers of the blocks do.
* `InBlock.lt_of_lt`: Numbers of earlier blocks are smaller.
* `InBlock.unique`: A number lies in one block only.
-/

namespace Wujian100

namespace Blocks

/-- The starts of the blocks from `a` to `b` increase. -/
def Increasing (start : Int → Int) (a b : Int) : Prop :=
  ∀ i, a ≤ i → i < b → start i < start (i + 1)

/-- The number `x` lies in block `i`. -/
def InBlock (start : Int → Int) (i x : Int) : Prop := start i ≤ x ∧ x < start (i + 1)

variable {start : Int → Int} {a b i j x y : Int}

theorem Increasing.lt (h : Increasing start a b) (hi : a ≤ i) (hij : i < j) (hj : j ≤ b) :
    start i < start j := by
  -- Upwards from the block that follows the first one.
  induction j, hij using Int.leInduction with
  | base => exact h i hi (by omega)
  | succ k hk ih => exact (ih (by omega)).trans (h k (by omega) (by omega))

theorem Increasing.le (h : Increasing start a b) (hi : a ≤ i) (hij : i ≤ j) (hj : j ≤ b) :
    start i ≤ start j := by
  rcases hij.eq_or_lt with rfl | hlt
  · exact le_rfl
  · exact (h.lt hi hlt hj).le

/-- Whatever lies in an earlier block is smaller. -/
theorem InBlock.lt_of_lt (h : Increasing start a b) (hx : InBlock start i x)
    (hy : InBlock start j y) (hi : a ≤ i) (hij : i < j) (hj : j ≤ b) : x < y := by
  calc x < start (i + 1) := hx.2
    _ ≤ start j := h.le (by omega) hij hj
    _ ≤ y := hy.1

theorem InBlock.unique (h : Increasing start a b) (hx : InBlock start i x)
    (hy : InBlock start j x) (hi : a ≤ i) (hib : i ≤ b) (hj : a ≤ j) (hjb : j ≤ b) : i = j := by
  rcases lt_trichotomy i j with hlt | heq | hgt
  · exact absurd (hx.lt_of_lt h hy hi hlt hjb) (lt_irrefl x)
  · exact heq
  · exact absurd (hy.lt_of_lt h hx hj hgt hib) (lt_irrefl x)

end Blocks

end Wujian100
