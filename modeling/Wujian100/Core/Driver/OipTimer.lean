import Wujian100.Core.Driver.Dmac

/-!
# The Timer's Driver

`wj_oip_timer.c`: a timer is configured, given a timeout in microseconds and started with the
count that belongs to it. The control register has five bits, in the driver's header and in
`tim.v`.

## Main definitions

* `OipTimer`: A timer's registers and what the driver keeps about it.
* `OipTimer.config`, `OipTimer.setTimeout`, `OipTimer.start`, `OipTimer.stop`: The driver's
  calls.
* `OipTimer.irqhandler`: Its interrupt.
-/

namespace Wujian100

namespace Driver

/-- `timer_mode_e`. -/
inductive TimerMode where
  | freeRunning
  | reload
deriving DecidableEq, Repr

/-- `wj_oip_timer_reg_t` with the record of the driver, `wj_oip_timer_priv_t`. -/
structure OipTimer where
  txLoadCount : BitVec 32
  txControl : BitVec 5
  txIntStatus : Bool
  timeout : BitVec 32
  timeoutFlag : Bool
deriving DecidableEq, Repr

/-- `WJ_OIP_TIMER_TXCONTROL_ENABLE`. -/
def txControlEnable : BitVec 5 := 0x1#5

/-- `WJ_OIP_TIMER_TXCONTROL_MODE`. -/
def txControlMode : BitVec 5 := 0x2#5

/-- `WJ_OIP_TIMER_TXCONTROL_INTMASK`. -/
def txControlIntmask : BitVec 5 := 0x4#5

/-- `WJ_OIP_TIMER_TXCONTROL_TRIGGER`. -/
def txControlTrigger : BitVec 5 := 0x10#5

namespace OipTimer

/-- `timer_deactive_control`. -/
def deactiveControl (t : OipTimer) : OipTimer :=
  { t with txControl := (t.txControl &&& ~~~txControlEnable) ||| txControlIntmask }

/-- `csi_timer_config`. -/
def config (t : OipTimer) (mode : TimerMode) : OipTimer :=
  let c := match mode with
    | .freeRunning => t.txControl &&& ~~~txControlMode
    | .reload => t.txControl ||| txControlMode
  { t with txControl := c ||| txControlTrigger }

/-- `csi_timer_set_timeout`. -/
def setTimeout (t : OipTimer) (timeout : BitVec 32) : OipTimer := { t with timeout := timeout }

/-- The count `csi_timer_start` computes, with `freq` for what `drv_get_timer_freq` returns:
    whole cycles of a microsecond if there are any, and else a product in 64 bits. -/
def startLoad (freq : Nat) (timeout : BitVec 32) : BitVec 32 :=
  let minUs := BitVec.ofNat 32 (freq / 1000000)
  if minUs ≠ 0 then timeout * minUs
  else ((timeout.setWidth 64 * BitVec.ofNat 64 freq) / 1000000#64).setWidth 32

/-- `csi_timer_start`. -/
def start (freq : Nat) (t : OipTimer) : Option DrvError × OipTimer :=
  let t := { t with timeoutFlag := false }
  if (t.timeout * BitVec.ofNat 32 freq) / 1000000#32 > 0xffffffff#32 then (some .parameter, t)
  else
    let load :=
      if t.timeout = 0 then 0xffffffff#32
      else if t.txControl ||| 0x2#5 = 0x2#5 then 0xffffffff#32
      else startLoad freq t.timeout
    let off := t.txControl &&& ~~~txControlEnable
    let on := off ||| txControlEnable
    (none, { t with txLoadCount := load, txControl := on &&& ~~~txControlIntmask })

/-- `csi_timer_stop`. -/
def stop (t : OipTimer) : OipTimer :=
  { t with txControl := (t.txControl ||| txControlIntmask) &&& ~~~txControlEnable }

/-- `wj_oip_timer_irqhandler`, up to the call of the callback. The end of the interrupt is
    noted by reading `TxEOI`. -/
def irqhandler (t : OipTimer) : OipTimer := { t with timeoutFlag := true, txIntStatus := false }

end OipTimer

end Driver

end Wujian100
