import Mathlib.Logic.Function.Basic
import Wujian100.Core.Driver.Dmac
import Wujian100.Library.Halves

/-!
# The PWM Driver

`wj_pwm.c`: twelve channels in six pairs, all counting with one clock divider. A pair has a
half of a load register, which is its period, and a compare register with a half for each
channel, which is its pulse width. The pairs' counters can be used as timers too, and to
capture what comes in.

The registers of one kind lie one after the other and are numbered here as they lie. What the
divider's bits of `PWMCFG` mean to the counters is `pwm.v`'s, and so is that the clear registers
read as zero.

## Main definitions

* `Pwm`: The registers.
* `Pwm.configClockdiv`, `Pwm.getClockdiv`: The divider, set and read.
* `Pwm.config`: A channel's period and pulse width.
* `Pwm.timerSetTimeout`: A timer's timeout.
* `Pwm.irqhandler`: The interrupt of all of them.
-/

namespace Wujian100

namespace Driver

/-- `wj_pwm_reg_t`, as far as it is used: `PWMCFG`, `PWMCTL`, `PWM01LOAD` to `PWM45LOAD`,
    `PWM0CMP` to `PWM5CMP`, `CAPIS`, `CAP01T` to `CAP45T`, `TIMIS`, `TIM01LOAD` to
    `TIM45LOAD`. -/
structure Pwm where
  pwmcfg : BitVec 32
  pwmctl : BitVec 32
  pwmload : Fin 3 → BitVec 32
  pwmcmp : Fin 6 → BitVec 32
  capis : BitVec 32
  capt : Fin 3 → BitVec 32
  timis : BitVec 32
  timload : Fin 3 → BitVec 32

/-- `PWM_CFG_CNTDIV_EN`. -/
def pwmCfgCntdivEn : BitVec 32 := 0x1#32 <<< 27

/-- `PWM_CFG_CNTDIV_Msk`. -/
def pwmCfgCntdivMsk : BitVec 32 := 0x7#32 <<< 24

/-- `PWM_CFG_CNTDIV_2`, `PWM_CFG_CNTDIV_4` and so on up to `PWM_CFG_CNTDIV_128`, by their
    code. -/
def pwmCfgCntdiv (code : BitVec 32) : BitVec 32 := code <<< 24

namespace Pwm

/-- `drv_pwm_config_clockdiv`. -/
def configClockdiv (s : Pwm) (div : BitVec 32) : Pwm :=
  let cfg := s.pwmcfg &&& ~~~(7#32 <<< 24)
  let cfg := match div.toNat with
    | 1 => cfg &&& ~~~pwmCfgCntdivEn
    | 2 => cfg ||| (pwmCfgCntdivEn ||| pwmCfgCntdiv 0x0#32)
    | 4 => cfg ||| (pwmCfgCntdivEn ||| pwmCfgCntdiv 0x1#32)
    | 8 => cfg ||| (pwmCfgCntdivEn ||| pwmCfgCntdiv 0x2#32)
    | 16 => cfg ||| (pwmCfgCntdivEn ||| pwmCfgCntdiv 0x3#32)
    | 32 => cfg ||| (pwmCfgCntdivEn ||| pwmCfgCntdiv 0x4#32)
    | 64 => cfg ||| (pwmCfgCntdivEn ||| pwmCfgCntdiv 0x5#32)
    | 128 => cfg ||| (pwmCfgCntdivEn ||| pwmCfgCntdiv 0x6#32)
    | _ => cfg
  { s with pwmcfg := cfg }

/-- `drv_pwm_get_clockdiv`. -/
def getClockdiv (s : Pwm) : BitVec 32 :=
  let divBits := s.pwmcfg &&& pwmCfgCntdivMsk
  if divBits = pwmCfgCntdiv 0x0#32 then 2#32
  else if divBits = pwmCfgCntdiv 0x1#32 then 4#32
  else if divBits = pwmCfgCntdiv 0x2#32 then 8#32
  else if divBits = pwmCfgCntdiv 0x3#32 then 16#32
  else if divBits = pwmCfgCntdiv 0x4#32 then 32#32
  else if divBits = pwmCfgCntdiv 0x5#32 then 64#32
  else if divBits = pwmCfgCntdiv 0x6#32 then 128#32
  else 1#32

/-- The divider the counters run with: `cntdiven` selects the divided clock, and `clkspec` has
    the same entry for the last two codes. -/
def hwDiv (s : Pwm) : Nat :=
  if s.pwmcfg.getLsbD 27 then 2 ^ (min (s.pwmcfg.extractLsb' 24 3).toNat 6 + 1) else 1

/-- The counts of a time in microseconds, in 32 bits, with `freq` for what
    `drv_get_pwm_freq` returns. -/
def counts (freq : Nat) (us div : BitVec 32) : BitVec 32 :=
  BitVec.ofNat 32 (freq / 1000000) * us / div

/-- The loop of `csi_pwm_config` over `cnt_div`. Each divider is written before it is looked
    at. -/
def searchDiv (freq : Nat) (periodUs : BitVec 32) :
    List (BitVec 32) → Pwm → Option (BitVec 32) × Pwm
  | [], s => (none, s)
  | d :: ds, s =>
      let s := s.configClockdiv d
      if counts freq periodUs d ≤ 0xffff#32 then (some d, s) else searchDiv freq periodUs ds s

/-- `cnt_div`. -/
def cntDiv : List (BitVec 32) := [1#32, 2#32, 4#32, 8#32, 16#32, 32#32, 64#32, 128#32]

/-- What `csi_pwm_config` writes for a channel of a pair, the second one if `high`: the pair's
    half of its load register and the channel's half of the compare register. -/
def configPair (s : Pwm) (pair : Fin 6) (high : Bool) (counter cmpCounter : BitVec 32) : Pwm :=
  let load : Fin 3 := ⟨pair / 2, by omega⟩
  { s with
    pwmctl := s.pwmctl &&& ~~~(1#32 <<< pair.val)
    pwmload := Function.update s.pwmload load
      (setHalf (pair.val % 2 == 1) (s.pwmload load) counter)
    pwmcmp := Function.update s.pwmcmp pair (setHalf high (s.pwmcmp pair) cmpCounter) }

/-- The branches of `csi_pwm_config`. -/
def configChannel (s : Pwm) (channel : Nat) (counter cmpCounter : BitVec 32) : Pwm :=
  match channel with
  | 0 => s.configPair 0 false counter cmpCounter
  | 1 => s.configPair 0 true counter cmpCounter
  | 2 => s.configPair 1 false counter cmpCounter
  | 3 => s.configPair 1 true counter cmpCounter
  | 4 => s.configPair 2 false counter cmpCounter
  | 5 => s.configPair 2 true counter cmpCounter
  | 6 => s.configPair 3 false counter cmpCounter
  | 7 => s.configPair 3 true counter cmpCounter
  | 8 => s.configPair 4 false counter cmpCounter
  | 9 => s.configPair 4 true counter cmpCounter
  | 10 => s.configPair 5 false counter cmpCounter
  | 11 => s.configPair 5 true counter cmpCounter
  | _ => s

/-- `csi_pwm_config`. -/
def config (freq : Nat) (s : Pwm) (channel : Nat) (periodUs pulseWidthUs : BitVec 32) :
    Option DrvError × Pwm :=
  if pulseWidthUs > periodUs then (some .parameter, s)
  else
    match searchDiv freq periodUs cntDiv s with
    | (none, s) => (some .parameter, s)
    | (some d, s) =>
        (none, s.configChannel channel (counts freq periodUs d) (counts freq pulseWidthUs d))

/-- There are three load registers. -/
local instance : NeZero 3 := ⟨Nat.succ_ne_zero 2⟩

/-- `drv_pwm_timer_set_timeout`. The load has 16 bits. -/
def timerSetTimeout (freq : Nat) (s : Pwm) (channel : Nat) (timeout : BitVec 32) : Pwm :=
  let load := ((counts freq timeout s.getClockdiv).setWidth 16).setWidth 32
  let timload := match channel with
    | 0 => Function.update s.timload 0 (setLow (s.timload 0) load)
    | 1 => Function.update s.timload 0 (setHigh (s.timload 0) load)
    | 2 => Function.update s.timload 1 (setLow (s.timload 1) load)
    | 3 => Function.update s.timload 1 (setHigh (s.timload 1) load)
    | 4 => Function.update s.timload 2 (setLow (s.timload 2) load)
    | 5 => Function.update s.timload 2 (setHigh (s.timload 2) load)
    | _ => s.timload
  { s with timload, pwmcfg := s.pwmcfg &&& ~~~(1#32 <<< channel) }

end Pwm

/-! ## The interrupt -/

/-- `pwm_event_e`. -/
inductive PwmEvent where
  | captureCount
  | captureTime
  | timerTimeout
deriving DecidableEq, Repr

/-- A call of a callback: for which pair, with which event and which value. -/
structure PwmReport where
  pair : Fin 6
  event : PwmEvent
  val : BitVec 32
deriving DecidableEq, Repr

/-- The registers, which of the twelve entries of `pwm_event_cb` are set, and the calls of
    callbacks so far. -/
structure PwmInts where
  reg : Pwm
  cb : Fin 12 → Bool
  reports : List PwmReport

namespace PwmInts

/-- A write to `TIMIC`: it clears what is set in it. -/
def writeTimic (s : PwmInts) (v : BitVec 32) : PwmInts :=
  { s with reg := { s.reg with timis := s.reg.timis &&& ~~~v } }

/-- A write to `CAPIC`: it clears what is set in it. -/
def writeCapic (s : PwmInts) (v : BitVec 32) : PwmInts :=
  { s with reg := { s.reg with capis := s.reg.capis &&& ~~~v } }

/-- What `TIMIC` and `CAPIC` read as, when `|=` reads them. -/
def readClear : BitVec 32 := 0

/-- `while (addr->CAPIS & bit) { addr->CAPIC |= bit; ... }`, which gives up after `timeout`
    turns. -/
def ackCapis (s : PwmInts) (bit : BitVec 32) : Nat → PwmInts
  | 0 => s
  | timeout + 1 =>
      if s.reg.capis &&& bit ≠ 0 then ackCapis (s.writeCapic (readClear ||| bit)) bit timeout
      else s

/-- The callback is called, if there is one. -/
def report (s : PwmInts) (i : Fin 6) (event : PwmEvent) (val : BitVec 32) : PwmInts :=
  if s.cb ⟨i.val <<< 1, by omega⟩ then { s with reports := s.reports ++ [⟨i, event, val⟩] } else s

/-- The turns `wj_pwm_irqhandler` waits for a bit to go. -/
def ackTurns : Nat := 10000002

/-- One turn of the loop of `wj_pwm_irqhandler`, with the `capis` and `timis` it began with. -/
def pairHandler (capis timis : BitVec 32) (s : PwmInts) (i : Fin 6) : PwmInts :=
  if timis &&& (0x1#32 <<< i.val) ≠ 0 then
    (s.writeTimic (readClear ||| 0x1#32 <<< i.val)).report i .timerTimeout 0
  else if capis &&& (0x1#32 <<< i.val) ≠ 0 then
    (s.ackCapis (0x1#32 <<< i.val) ackTurns).report i .captureCount 0
  else if capis &&& (0x40#32 <<< i.val) ≠ 0 then
    let s := s.ackCapis (0x40#32 <<< i.val) ackTurns
    let word := s.reg.capt ⟨i.val >>> 1, by omega⟩
    let val := ((word >>> (16 &&& (i.val &&& 0x1))).setWidth 16).setWidth 32
    s.report i .captureTime val
  else s

/-- `wj_pwm_irqhandler`. -/
def irqhandler (s : PwmInts) : PwmInts :=
  (List.finRange 6).foldl (pairHandler s.reg.capis s.reg.timis) s

end PwmInts

end Driver

end Wujian100
