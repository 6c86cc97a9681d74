import Wujian100.Core.Rhino.Status
import Mathlib.Data.List.Sort
import Mathlib.Logic.Function.Basic
import Mathlib.Tactic.Ring

/-!
# The Timer Task

`k_timer.c`. Other tasks send commands, and one task keeps the list of active
timers, sleeps until the first of them is due or a command comes, and calls what
is due. `sys_time_t` has 64 bits.

`timer_task` reads the tick each time it comes back from a wait, and once more
before it waits, and is interrupted anywhere in between. `timer_cb_proc` walks
the list it changes: a timer that was taken off keeps its pointer to the next one,
and a timer that was put back has a new one. A step of the machine is one receive,
one look at the head of the list, or one turn of that walk.

## Main definitions

* `Ktimer`: A timer.
* `TimerTask`: The task, its list and the timers.
* `TimerTask.cmdProc`, `TimerTask.timerCmdProc`: The commands.
* `TimerTask.cbTurn`: One turn of `timer_cb_proc`.
* `TimerTask.step`: One step of `timer_task`, or a timer created meanwhile.
-/

namespace Wujian100

namespace Rhino

/-- `MAX_TIMER_TICKS`. -/
def maxTimerTicks : Nat := 2 ^ 63 - 1

/-! ## Timers -/

/-- `ktimer_t`. `active` is `timer_state`, `onList` is `to_head != NULL`, `isTimer`
    and `isStatic` are what `obj_type` and `mm_alloc_flag` are compared with. -/
structure Ktimer where
  initCount : Nat
  roundTicks : Nat
  remain : Nat
  match_ : Nat
  active : Bool
  onList : Bool
  isTimer : Bool
  isStatic : Bool
  cbArg : Nat
deriving DecidableEq, Repr

/-- `k_timer_queue_cb`, with the parameters its command has. -/
inductive TimerCmd (T : Type) where
  | start (t : T)
  | stop (t : T)
  | chg (t : T) (first round : Nat)
  | argChg (t : T) (arg : Nat)
  | del (t : T)
  | dynDel (t : T)
  | argChgAuto (t : T) (arg : Nat)

/-- What `krhino_timer_change` lets through; no other command is checked when it is
    sent. -/
def TimerCmd.passes {T : Type} : TimerCmd T → Bool
  | .chg _ first round => first < 2 ^ 64 - 1 && round < 2 ^ 64 - 1
  | _ => true

/-- Where `timer_task` is: at either receive, before the look at the head, or in
    `timer_cb_proc` with its `q`. -/
inductive TimerPc (T : Type) where
  | recv
  | look
  | wait
  | cb (q : Option T)
deriving DecidableEq

/-- The task: `g_timer_head`, `g_timer_count`, the last tick read, and the calls
    made. -/
structure TimerTask (T : Type) where
  pc : TimerPc T
  timer : T → Ktimer
  head : List T
  count : Nat
  tick : Nat
  calls : List (T × Nat)

namespace TimerTask

variable {T : Type} [DecidableEq T]

/-- The timer, changed. -/
def modify (s : TimerTask T) (t : T) (f : Ktimer → Ktimer) : TimerTask T :=
  { s with timer := Function.update s.timer t (f (s.timer t)) }

/-- `timer_list_pri_insert`. -/
def timerListPriInsert (s : TimerTask T) (t : T) : TimerTask T :=
  { s with
    head := s.head.orderedInsert
      (fun x y => timeSub (s.timer y).match_ s.count > (s.timer x).remain) t }

/-- `timer_list_rm`. -/
def timerListRm (s : TimerTask T) (t : T) : TimerTask T :=
  if (s.timer t).onList = true then
    { s with head := s.head.erase t }.modify t fun k => { k with onList := false }
  else s

/-- The timer goes on the list, due in `ticks`. -/
def arm (s : TimerTask T) (t : T) (ticks : Nat) : TimerTask T :=
  (s.modify t fun k =>
    { k with match_ := (s.count + ticks) % 2 ^ 64, remain := ticks, onList := true })
    |>.timerListPriInsert t

/-- `cmd_proc`. -/
def cmdProc (s : TimerTask T) : TimerCmd T → TimerTask T
  | .start t =>
      if (s.timer t).isTimer = false then s
      else if (s.timer t).active = true then s
      else (s.arm t (s.timer t).initCount).modify t fun k => { k with active := true }
  | .stop t =>
      if (s.timer t).isTimer = false then s
      else if (s.timer t).active = false then s
      else (s.timerListRm t).modify t fun k => { k with active := false }
  | .chg t first round =>
      if first = 0 then s
      else if (s.timer t).isTimer = false then s
      else if (s.timer t).active = true then s
      else s.modify t fun k => { k with initCount := first, roundTicks := round }
  | .argChg t arg =>
      if (s.timer t).isTimer = false then s
      else if (s.timer t).active = true then s
      else s.modify t fun k => { k with cbArg := arg }
  | .del t =>
      if (s.timer t).isTimer = false then s
      else if (s.timer t).active = true then s
      else if (s.timer t).isStatic = false then s
      else s.modify t fun k => { k with isTimer := false }
  | .dynDel t =>
      if (s.timer t).isTimer = false then s
      else if (s.timer t).active = true then s
      else if (s.timer t).isStatic = true then s
      else s.modify t fun k => { k with isTimer := false }
  | .argChgAuto _ _ => s

/-- `timer_cmd_proc`. -/
def timerCmdProc (s : TimerTask T) : TimerCmd T → TimerTask T
  | .argChgAuto t arg => ((s.cmdProc (.stop t)).cmdProc (.argChg t arg)).cmdProc (.start t)
  | c => s.cmdProc c

/-- `q->next` on a list. -/
def nextOf (l : List T) (t : T) : Option T :=
  (l.dropWhile (· ≠ t)).tail.head?

/-- One turn of `timer_cb_proc`, its `q` a timer. -/
def cbTurn (s : TimerTask T) (t : T) : TimerTask T :=
  if due (s.timer t).match_ s.count = true then
    let s' := { s with calls := s.calls ++ [(t, (s.timer t).cbArg)] }.timerListRm t
    if (s.timer t).roundTicks > 0 then
      let s'' := s'.arm t (s.timer t).roundTicks
      { s'' with pc := .cb (nextOf s''.head t) }
    else
      -- The timer is off the list, and its pointer is as it was.
      { s'.modify t fun k => { k with active := false } with pc := .cb (nextOf s.head t) }
  else { s with pc := .look }

/-- `timer_create`, up to the command it may send. -/
def timerCreate (s : TimerTask T) (t : T) (first round arg : Nat) (isStatic : Bool) :
    Kstat × TimerTask T :=
  if first = 0 then (.invParam, s)
  else if first ≥ maxTimerTicks then (.invParam, s)
  else if round ≥ maxTimerTicks then (.invParam, s)
  else
    (.success, s.modify t fun _ =>
      { initCount := first, roundTicks := round, remain := 0, match_ := 0, active := false
        onList := false, isTimer := true, isStatic := isStatic, cbArg := arg })

end TimerTask

/-- What the timer task does next. The receives and the look read a tick. -/
inductive TimerAct (T : Type) where
  | command (c : TimerCmd T) (tick : Nat)
  | timeout (tick : Nat)
  | look (tick : Nat)
  | turn
  | create (t : T) (first round arg : Nat) (isStatic : Bool)

/-- The tick that was read: a `sys_time_t`, and no less than the one before. -/
def TimerTask.reads {T : Type} (s : TimerTask T) (tick : Nat) : Prop :=
  s.tick ≤ tick ∧ tick < 2 ^ 64

instance {T : Type} (s : TimerTask T) (tick : Nat) : Decidable (s.reads tick) :=
  inferInstanceAs (Decidable (_ ∧ _))

/-- One step. A timer is created where no active one is. -/
def TimerTask.step {T : Type} [DecidableEq T] (s : TimerTask T) :
    TimerAct T → Option (TimerTask T)
  | .command c tick =>
      let s' := { s with count := tick, tick := tick }.timerCmdProc c
      if s.reads tick ∧ c.passes = true then
        match s.pc with
        | .recv => some { s' with pc := .look }
        | .wait => some { s' with pc := .cb s'.head.head? }
        | _ => none
      else none
  | .timeout tick =>
      if s.pc = .wait ∧ s.reads tick then
        some { s with count := tick, tick := tick, pc := .cb s.head.head? }
      else none
  | .look tick =>
      if s.pc = .look then
        match s.head with
        | [] => some { s with pc := .recv }
        | t :: _ =>
            if s.reads tick then
              if due (s.timer t).match_ tick = false then
                some { s with tick := tick, pc := .wait }
              else some { s with count := tick, tick := tick, pc := .cb (some t) }
            else none
      else none
  | .turn =>
      match s.pc with
      | .cb none => some { s with pc := .look }
      | .cb (some t) => some (s.cbTurn t)
      | _ => none
  | .create t first round arg isStatic =>
      if (s.timer t).onList = false then some (s.timerCreate t first round arg isStatic).2
      else none

/-- `ktimer_init`: an empty list, and no timer created yet. -/
def TimerTask.start {T : Type} (tick : Nat) : TimerTask T where
  pc := .recv
  timer := fun _ =>
    { initCount := 0, roundTicks := 0, remain := 0, match_ := 0, active := false, onList := false
      isTimer := false, isStatic := false, cbArg := 0 }
  head := []
  count := 0
  tick := tick
  calls := []

end Rhino

end Wujian100
