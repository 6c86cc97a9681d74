import Wujian100.Core.Driver.OipTimer
import Mathlib.Tactic.Ring

/-!
# The Count a Timer Starts With

The range check of `csi_timer_start` is made in 32 bits and then divided, so it never fails.
The count of whole cycles is a product in 32 bits too, and drops what the frequency has above
whole megahertz.

## Main definitions

* `OipTimer.Close`: A count is less than one away from the timeout.
* `OipTimer.StartRight`: What a start should do.
* `OipTimer.StartCond`: When it does.

## Theorems

* `startLoad_slow`, `startLoad_fast`: The count the code computes.
* `config_ne`: A timer that was configured never gets the count of a free running one.
* `start_right_iff`: A start is right exactly under the condition.
-/

namespace Wujian100

namespace Driver

namespace OipTimer

variable {t : OipTimer} {freq : Nat}

/-- A count is less than one away from `timeout * freq / 10^6`. -/
def Close (freq : Nat) (timeout load : BitVec 32) : Prop :=
  load.toNat * 1000000 < timeout.toNat * freq + 1000000 ∧
    timeout.toNat * freq < load.toNat * 1000000 + 1000000

/-- A start fails and leaves the registers alone, or programs a count that is close. -/
def StartRight (freq : Nat) (t : OipTimer) : Prop :=
  if (t.start freq).1 = none then Close freq t.timeout (t.start freq).2.txLoadCount
  else (t.start freq).2.txLoadCount = t.txLoadCount ∧ (t.start freq).2.txControl = t.txControl

instance (freq : Nat) (timeout load : BitVec 32) : Decidable (Close freq timeout load) :=
  inferInstanceAs (Decidable (load.toNat * 1000000 < timeout.toNat * freq + 1000000 ∧
    timeout.toNat * freq < load.toNat * 1000000 + 1000000))

instance (freq : Nat) (t : OipTimer) : Decidable (StartRight freq t) :=
  inferInstanceAs (Decidable (if (t.start freq).1 = none
    then Close freq t.timeout (t.start freq).2.txLoadCount
    else (t.start freq).2.txLoadCount = t.txLoadCount ∧ (t.start freq).2.txControl = t.txControl))

/-- The frequency is below a megahertz, or the product of timeout and megahertz fits in 32
    bits and what the rest of the frequency makes of the timeout is less than a count. A
    control register with nothing but the mode gets the largest count. -/
def StartCond (freq : Nat) (t : OipTimer) : Prop :=
  if t.txControl = 0x2#5 then Close freq t.timeout 0xffffffff#32
  else freq < 1000000 ∨ (t.timeout.toNat * (freq / 1000000) < 2 ^ 32 ∧
    t.timeout.toNat * (freq % 1000000) < 1000000)

/-- The check of the range is one no product fails. -/
theorem start_in_range (freq : Nat) (t : OipTimer) :
    ¬ (t.timeout * BitVec.ofNat 32 freq) / 1000000#32 > 0xffffffff#32 := by
  have hlt := ((t.timeout * BitVec.ofNat 32 freq) / 1000000#32).isLt
  rw [gt_iff_lt, BitVec.lt_def, BitVec.toNat_ofNat]
  omega

theorem start_none (freq : Nat) (t : OipTimer) : (t.start freq).1 = none := by
  rw [start, if_neg (start_in_range freq t)]

section Load

variable {timeout : BitVec 32}

/-- Below a megahertz the product is computed in 64 bits. -/
theorem startLoad_slow (hfreq : freq < 1000000) :
    (startLoad freq timeout).toNat = timeout.toNat * freq / 1000000 := by
  have hzero : freq / 1000000 = 0 := Nat.div_eq_of_lt hfreq
  have ht := timeout.isLt
  have hprod : timeout.toNat * freq < 2 ^ 32 * 1000000 :=
    Nat.mul_lt_mul'' ht hfreq
  rw [startLoad, hzero]
  simp only [BitVec.ofNat_eq_ofNat, ne_eq, not_true_eq_false, if_false]
  rw [BitVec.toNat_setWidth, BitVec.toNat_udiv, BitVec.toNat_mul, BitVec.toNat_setWidth,
    BitVec.toNat_ofNat, BitVec.toNat_ofNat, Nat.mod_eq_of_lt (by omega : timeout.toNat < 2 ^ 64),
    Nat.mod_eq_of_lt (by omega : freq < 2 ^ 64),
    Nat.mod_eq_of_lt (by omega : timeout.toNat * freq < 2 ^ 64),
    show 1000000 % 2 ^ 64 = 1000000 from rfl, Nat.mod_eq_of_lt]
  omega

/-- From a megahertz on, the cycles of a microsecond are rounded and the product wraps. -/
theorem startLoad_fast (hfreq : 1000000 ≤ freq) (hlt : freq < 2 ^ 32) :
    (startLoad freq timeout).toNat = timeout.toNat * (freq / 1000000) % 2 ^ 32 := by
  have hne : BitVec.ofNat 32 (freq / 1000000) ≠ 0 := by
    intro h
    have hnat : freq / 1000000 % 2 ^ 32 = 0 := by
      rw [← BitVec.toNat_ofNat, h]
      rfl
    omega
  rw [startLoad]
  simp only [hne, ne_eq, not_false_eq_true, if_true]
  rw [BitVec.toNat_mul, BitVec.toNat_ofNat, Nat.mod_eq_of_lt (by omega : freq / 1000000 < 2 ^ 32)]

/-- The computed count is close exactly if nothing is lost that makes up a count. -/
theorem close_startLoad_iff (hlt : freq < 2 ^ 31) :
    Close freq timeout (startLoad freq timeout) ↔
      freq < 1000000 ∨ (timeout.toNat * (freq / 1000000) < 2 ^ 32 ∧
        timeout.toNat * (freq % 1000000) < 1000000) := by
  rcases Nat.lt_or_ge freq 1000000 with hslow | hfast
  · rw [Close, startLoad_slow hslow]
    omega
  · -- `timeout * freq` is split into what the whole megahertz make of it and the rest.
    have hsplit : timeout.toNat * freq
        = 1000000 * (timeout.toNat * (freq / 1000000)) + timeout.toNat * (freq % 1000000) := by
      conv_lhs => rw [← Nat.div_add_mod freq 1000000]
      ring
    rw [Close, startLoad_fast hfast (by omega), hsplit]
    omega

end Load

/-- `csi_timer_config` sets the trigger bit, so the mode is never all there is. -/
theorem config_ne (t : OipTimer) (mode : TimerMode) : (t.config mode).txControl ≠ 0x2#5 := by
  intro h
  have hbit := congrArg (fun c => c.getLsbD 4) h
  simp only [config, BitVec.getLsbD_or] at hbit
  simp [txControlTrigger] at hbit

theorem config_reload (t : OipTimer) : (t.config .reload).txControl.getLsbD 1 = true := by
  simp [config, txControlMode]

theorem or_mode : ∀ c : BitVec 5, c.getLsbD 1 = true → c ||| 0x2#5 = c := by decide

/-- The count a start programs for a timer that reloads. -/
theorem start_load (hmode : t.txControl.getLsbD 1 = true) (ht : t.timeout ≠ 0) :
    (t.start freq).2.txLoadCount
      = if t.txControl = 0x2#5 then 0xffffffff#32 else startLoad freq t.timeout := by
  rw [start, if_neg (start_in_range freq t)]
  simp only [if_neg ht, or_mode t.txControl hmode]

/-- A start with a timeout is right exactly if the count it computes neither wraps nor loses a
    count of its fraction. -/
theorem start_right_iff (freq : Nat) (t : OipTimer) (hfreq : freq < 2 ^ 31) (ht : t.timeout ≠ 0)
    (hmode : t.txControl.getLsbD 1 = true) : StartRight freq t ↔ StartCond freq t := by
  rw [StartRight, if_pos (start_none freq t), start_load hmode ht, StartCond]
  by_cases hctl : t.txControl = 0x2#5
  · rw [if_pos hctl, if_pos hctl]
  · rw [if_neg hctl, if_neg hctl]
    exact close_startLoad_iff hfreq

/-- Half a second on the board's timer, after the calls of its examples. -/
def halfSecond : OipTimer := config ⟨0, 0x4#5, false, 500000#32, false⟩ .reload

/-- It is right: the frequency is 20 MHz and the count is ten million. -/
theorem start_right_half_second : StartRight 20000000 halfSecond :=
  (start_right_iff 20000000 halfSecond (by decide) (by decide) (by decide)).mpr (by
    rw [StartCond, if_neg (by decide)]
    exact Or.inr (by decide))

/-- Five minutes. The product wraps, and the timer ends after 85 seconds. -/
theorem start_five_minutes :
    ¬ StartRight 20000000 { halfSecond with timeout := 300000000#32 } ∧
      (({ halfSecond with timeout := 300000000#32 } : OipTimer).start 20000000).2.txLoadCount.toNat
        = 1705032704 := by
  decide

end OipTimer

end Driver

end Wujian100
