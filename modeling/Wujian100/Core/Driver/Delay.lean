import Wujian100.Library.Countdown
import Mathlib.Order.Monotone.Basic

/-!
# Waiting for the Core Timer

`lib.c`: `mdelay` waits by reading the core timer until enough cycles went by. The timer is
`CORET` of `core_rv32.h`, which counts down and starts again at its load value. Readings are
numbered in the order in which they are made.

## Main definitions

* `Coret`: The core timer and the cycles at which it is read.
* `Coret._mdelay`, `Coret.mdelay`: The functions of `lib.c`.
-/

namespace Wujian100

namespace Driver

/-- The core timer: its load value, what it shows at cycle zero and the cycle of each
    reading. -/
structure Coret where
  load : BitVec 32
  start : BitVec 32
  time : Nat → Nat
  mono : Monotone time

/-- The condition under which the loop of `_mdelay` returns. -/
def mdelayOver (load start cnt cur : BitVec 32) : Bool :=
  if start > cur then decide (start - cur ≥ cnt) else decide (load - cur + start > cnt)

namespace Coret

variable (c : Coret)

/-- `csi_coret_get_value`, in reading number `k`. -/
def value (k : Nat) : BitVec 32 :=
  BitVec.ofNat 32 (Countdown.value c.load.toNat c.start.toNat (c.time k))

/-- The loop of `_mdelay` from reading number `k` on, as far as `fuel` turns. It yields the
    number of the next reading. -/
def mdelayLoop (start cnt : BitVec 32) : Nat → Nat → Option Nat
  | 0, _ => none
  | fuel + 1, k =>
      if mdelayOver c.load start cnt (c.value k) then some (k + 1)
      else mdelayLoop start cnt fuel (k + 1)

/-- `_mdelay`, with `sysFreq` for what `drv_get_sys_freq` returns. -/
def _mdelay (sysFreq fuel k : Nat) : Option Nat :=
  c.mdelayLoop (c.value k) (BitVec.ofNat 32 (sysFreq / 1000)) fuel (k + 1)

/-- `mdelay`. -/
def mdelay (sysFreq fuel : Nat) : Nat → Nat → Option Nat
  | 0, k => some k
  | ms + 1, k =>
      match c._mdelay sysFreq fuel k with
      | none => none
      | some j => mdelay sysFreq fuel ms j

end Coret

end Driver

end Wujian100
