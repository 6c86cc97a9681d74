import Mathlib.Tactic.Linarith

/-!
# Counters That Count Down and Start Again

A counter that goes down by one every cycle and from zero to its load value. What it shows
after a number of cycles says how many went by since an earlier reading, as long as it was
not a whole turn.

## Main definitions

* `Countdown.value`: What the counter shows some cycles after it showed `start`.

## Theorems

* `value_add`: Two waits, one after the other.
* `value_self`: A counter that began with its load value.
* `value_of_le`, `value_of_gt`: Before zero was reached, and in the turn after it.
-/

namespace Wujian100

namespace Countdown

/-- What a counter that showed `start` shows `e` cycles later. -/
def value (load start e : Nat) : Nat :=
  if e ≤ start then start - e else load - (e - start - 1) % (load + 1)

variable {load start e : Nat}

@[simp] theorem value_zero : value load start 0 = start := by
  rw [value, if_pos (Nat.zero_le start), Nat.sub_zero]

theorem value_of_le (h : e ≤ start) : value load start e = start - e := if_pos h

/-- In the turn after zero the counter is short of what passed by one cycle, the one from
    zero to the load value. -/
theorem value_of_gt (h : start < e) (hturn : e ≤ start + load + 1) :
    value load start e = load + 1 + start - e := by
  rw [value, if_neg (by omega), Nat.mod_eq_of_lt (by omega)]
  omega

/-- A counter that began with its load value. -/
theorem value_self : value load load e = load - e % (load + 1) := by
  rcases Nat.lt_or_ge load e with hgt | hle
  · rw [value, if_neg (by omega), Nat.mod_eq_sub_mod (show load + 1 ≤ e by omega), Nat.sub_sub]
  · rw [value_of_le hle, Nat.mod_eq_of_lt (by omega)]

/-- What is shown after two waits is what is shown after one that is as long as both. -/
theorem value_add (a b : Nat) : value load (value load start a) b = value load start (a + b) := by
  by_cases ha : a ≤ start
  · rw [value_of_le ha]
    by_cases hb : b ≤ start - a
    · rw [value_of_le hb, value_of_le (by omega)]
      omega
    · rw [value, value, if_neg hb, if_neg (by omega), show b - (start - a) = a + b - start by omega]
  · -- Zero was passed in the first wait already; `r` is how far the counter is below `load`.
    have hr : (a - start - 1) % (load + 1) < load + 1 := Nat.mod_lt _ (by omega)
    have hsum : (a + b - start - 1) % (load + 1)
        = ((a - start - 1) % (load + 1) + b) % (load + 1) := by
      rw [Nat.mod_add_mod]
      congr 1
      omega
    rw [value, value, value, if_neg ha, if_neg (by omega : ¬ a + b ≤ start), hsum]
    generalize (a - start - 1) % (load + 1) = r at hr
    by_cases hb : b ≤ load - r
    · rw [if_pos hb, Nat.mod_eq_of_lt (by omega)]
      omega
    · have hturn : r + b = load + 1 + (b - (load - r) - 1) := by omega
      rw [if_neg hb, hturn, Nat.add_mod_left]

end Countdown

end Wujian100
