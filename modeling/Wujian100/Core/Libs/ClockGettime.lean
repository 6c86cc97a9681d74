import Wujian100.Core.Driver.OipTimer
import Wujian100.Library.Countdown

/-!
# The Clock

`clock_gettime.c`: the time is what a reloading timer shows, with a count of its reloads that
its interrupt keeps. A reading takes the timer's value first and the count after it, and
between the two, or before both, a reload and its interrupt can come.

The hardware is `passed`: the cycles since the timer was started. It determines
`TxCurrentValue`, and a cycle in which the timer reloads raises the interrupt.

## Main definitions

* `Clock`: The variables of the file, the timer and a reading that is under way.
* `Clock.timerInit`, `Clock.timerStart`: The clock is set up.
* `Clock.timerCurrentValue`, `Clock.gettime`: A reading.
* `ClockAct`, `Clock.step`: What can happen next.
-/

namespace Wujian100

namespace Libs

open Driver (OipTimer TimerMode)

/-- `struct timespec`. -/
structure Timespec where
  tvSec : Int
  tvNsec : Int
deriving DecidableEq, Repr

/-- The clock and its timer. `reading` is the value a call of `timer_current_value` has got
    that has not read the count yet, and `readAt` the cycle in which it got it; `times` are the
    times that were read, the newest first. -/
structure Clock where
  timer : OipTimer
  apbFreq : BitVec 32
  timerLoadcount : BitVec 32
  timerLoopCount : BitVec 32
  timerCountRise : Bool
  passed : Nat
  reading : Option (BitVec 32)
  readAt : Nat
  times : List Timespec
deriving DecidableEq, Repr

/-- `MILLION`. -/
def million : BitVec 32 := 1000000#32

/-- What can happen next. -/
inductive ClockAct where
  /-- Some cycles pass, in which the timer reloads at most once. -/
  | pass (n : Nat)
  /-- The interrupt is served. -/
  | irq
  /-- A reading gets the timer's value. -/
  | readValue
  /-- It reads the count and is done. -/
  | readLoop
deriving DecidableEq, Repr

namespace Clock

/-- `clock_timer_init`, with what `csi_timer_initialize` found, what `drv_get_timer_freq`
    returns and the two values the timer shows. -/
def timerInit (timer : OipTimer) (freq : Nat) (cv1 cv2 : BitVec 32) : Clock :=
  let apbFreq := BitVec.ofNat 32 freq
  let timerLoadtimer := 10#32 * million
  let timer := (timer.deactiveControl.config .reload).setTimeout timerLoadtimer
  { timer
    apbFreq
    timerLoadcount := timerLoadtimer * (apbFreq / million)
    timerLoopCount := 0
    timerCountRise := decide (cv2 > cv1)
    passed := 0
    reading := none
    readAt := 0
    times := [] }

/-- `clock_timer_start`. The timer begins with its load value. -/
def timerStart (freq : Nat) (s : Clock) : Clock :=
  { s with timerLoopCount := 0, timer := (s.timer.start freq).2, passed := 0 }

/-- `TxCurrentValue`. -/
def txCurrentValue (s : Clock) : BitVec 32 :=
  BitVec.ofNat 32 (Countdown.value s.timer.txLoadCount.toNat s.timer.txLoadCount.toNat s.passed)

/-- The reloads since the start. -/
def reloads (s : Clock) : Nat := s.passed / (s.timer.txLoadCount.toNat + 1)

/-- `timer_cb_fun`. -/
def timerCbFun (s : Clock) : Clock := { s with timerLoopCount := s.timerLoopCount + 1 }

/-- `timer_current_value`, once it has the value `cv`. -/
def timerCurrentValue (s : Clock) (cv : BitVec 32) : BitVec 64 :=
  if s.timerCountRise then
    s.timerLoopCount.setWidth 64 * (s.timerLoadcount + 1).setWidth 64 + cv.setWidth 64
  else
    (s.timerLoopCount + 1).setWidth 64 * (s.timerLoadcount + 1).setWidth 64 - cv.setWidth 64 - 1

/-- `clock_gettime`, from what `timer_current_value` returns. Both fields have 32 bits. -/
def gettime (s : Clock) (systimerVal : BitVec 64) : Timespec :=
  let freq := s.apbFreq.setWidth 64
  { tvSec := ((systimerVal / freq).setWidth 32).toInt
    tvNsec := (((systimerVal % freq) * 1000 * million.setWidth 64 / freq).setWidth 32).toInt }

/-- One step. A reload waits for the interrupt of the one before, so while that is pending
    the timer does not get to its end. -/
def step (s : Clock) : ClockAct → Option Clock
  | .pass n =>
      let after := { s with passed := s.passed + n }
      if after.reloads = s.reloads then some after
      else if after.reloads = s.reloads + 1 ∧ s.timer.txIntStatus = false then
        some { after with timer := { s.timer with txIntStatus := true } }
      else none
  | .irq =>
      if s.timer.txIntStatus then some { s.timerCbFun with timer := s.timer.irqhandler } else none
  | .readValue =>
      match s.reading with
      | some _ => none
      | none => some { s with reading := some s.txCurrentValue, readAt := s.passed }
  | .readLoop =>
      match s.reading with
      | none => none
      | some cv =>
          some { s with reading := none, times := s.gettime (s.timerCurrentValue cv) :: s.times }

end Clock

end Libs

end Wujian100
