import Mathlib.Data.Int.Init
import Wujian100.Core.Driver.Calendar

/-!
# The Real-Time Clock

The part of `wj_rtc.c` that sets and reads the time and sets the alarm. The counter of the
device is a stream: `ccvr n` is what the reading number `n` of `RTC_CCVR` yields, and a
function is given the number of its first reading and returns the one that comes after its
last.

## Main definitions

* `int32`, `int64`: What a signed type of the target makes of a number.
* `Rtc`: The instance and the two registers that are read back.
* `csiRtcInitialize`, `csiRtcSetTime`, `csiRtcGetTime`: Setting and reading the time.
* `csiRtcSetAlarm`: Setting the alarm.
-/

namespace Wujian100

namespace Driver

/-- A number in an `int32_t`, which `time_t` is. -/
def int32 (x : Int) : Int := x.bmod 4294967296

/-- A number in an `int64_t`. -/
def int64 (x : Int) : Int := x.bmod 18446744073709551616

/-- The instance of the clock with `RTC_CLR` and `RTC_DIV`. -/
structure Rtc where
  rtcBase : Tm
  clr : Nat
  div : Nat
deriving DecidableEq, Repr

/-- `RTC_BUSY_TIMEOUT`. -/
def rtcBusyTimeout : Nat := 0x10000000

/-- `ERR_RTC(RTC_ERROR_TIME)`. -/
def errRtcTime : Int := int32 0x81060086

/-- `ERR_RTC(DRV_ERROR_PARAMETER)`. -/
def errRtcParameter : Int := int32 0x81060084

/-- `ERR_RTC(DRV_ERROR_TIMEOUT)`. -/
def errRtcTimeout : Int := int32 0x81060082

/-- `drv_get_rtc_freq`. -/
def drvGetRtcFreq : Nat := 20000000

/-- The counts of a millisecond, as the divider is set. -/
def Rtc.perMilli (r : Rtc) : Nat :=
  let clockdiv := (r.div + 1) * 2 % 4294967296
  drvGetRtcFreq / clockdiv / 1000

/-- `csi_rtc_initialize`. -/
def csiRtcInitialize (r : Rtc) : Rtc := { r with div := 0 }

/-- `wj_rtc_settime`. -/
def wjRtcSettime (r : Rtc) (settime : Nat) : Rtc := { r with clr := settime }

/-- `csi_rtc_set_time`. -/
def csiRtcSetTime (r : Rtc) (rtctime : Tm) : Int × Rtc :=
  if wjCheckTmOk rtctime then
    -- The clear register should not be zero.
    (0, wjRtcSettime { r with rtcBase := rtctime } 10)
  else (errRtcTime, r)

section Ccvr

variable (ccvr : Nat → Nat)

/-- `wj_rtc_readtime`, from one reading. -/
def wjRtcReadtime (r : Rtc) (time : Nat) : Nat :=
  ((time + 18446744073709551616 - r.clr) % 18446744073709551616) / r.perMilli

/-- The loop of `csi_rtc_get_time` that waits for the counter to be loaded, with the turns that
    are left before it is given up. -/
def waitLoaded (clr : Nat) : Nat → Nat → Nat
  | 0, n => n + 1
  | left + 1, n => if ccvr n < clr then waitLoaded clr left (n + 1) else n + 1

/-- `csi_rtc_get_time`: the time, and the next reading. -/
def csiRtcGetTime (fuel : Nat) (r : Rtc) (n : Nat) : Option Tm × Nat :=
  let n := waitLoaded ccvr r.clr rtcBusyTimeout n
  let time := int32 (wjRtcReadtime r (ccvr n))
  let time := time.tdiv 1000
  match mktime int32 r.rtcBase with
  | none => (none, n + 1)
  | some base => (gmtimeR int32 fuel (int32 (time + base)), n + 1)

/-- The loop of `wj_rtc_setmarchtime` that waits for the counter to move, with the readings
    that are left before the one that is too late: whether it moved in time, and the next
    reading. -/
def waitMoved (lastValue : Nat) : Nat → Nat → Bool × Nat
  | 0, n => (false, n + 1)
  | left + 1, n => if ccvr n ≤ lastValue then waitMoved lastValue left (n + 1) else (true, n + 1)

/-- `wj_rtc_setmarchtime`: its result, what it writes to `RTC_CMR`, if it does, and the next
    reading. -/
def wjRtcSetmarchtime (r : Rtc) (settime : Int) (n : Nat) : Int × Option Nat × Nat :=
  if settime < 0 then (errRtcParameter, none, n)
  else
    let time := int64 (settime * r.perMilli)
    let lastValue := ccvr n
    match waitMoved ccvr lastValue (rtcBusyTimeout - 1) (n + 1) with
    | (false, n) => (errRtcTimeout, none, n)
    | (true, n) => (0, some (int64 (time + ccvr n) % 4294967296).toNat, n + 1)

/-- `csi_rtc_set_alarm`: its result, what is written to `RTC_CMR`, if it is, and the next
    reading. -/
def csiRtcSetAlarm (fuel : Nat) (r : Rtc) (rtctime : Tm) (n : Nat) :
    Option (Int × Option Nat × Nat) :=
  if wjCheckTmOk rtctime then
    match csiRtcGetTime ccvr fuel r n with
    | (none, _) => none
    | (some currentTime, n) =>
        match mktime int32 rtctime, mktime int32 currentTime with
        | some alarm, some current =>
            let settime := int64 (int64 (alarm - current) * 1000)
            if settime < 0 then some (errRtcTime, none, n)
            else
              -- What it returns is not looked at.
              let (_, cmr, n) := wjRtcSetmarchtime ccvr r settime n
              some (0, cmr, n)
        | _, _ => none
  else some (errRtcTime, none, n)

end Ccvr

end Driver

end Wujian100
