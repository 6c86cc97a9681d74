import Wujian100.Core.Rhino.Timer

/-!
# CSI Timers

`csi_kernel_timer_new`, `_start`, `_stop` and `_del` of `csi_rhino.c`, for any number of
tasks that make these calls, and the timer task that serves them.

A command is a message on `g_timer_queue`. The timer task may run whenever one is there,
so each call is cut where it sends one: `csi_kernel_timer_start` reads `round_ticks`,
then sends a change, then a start; `csi_kernel_timer_del` sends its command, and then
gives back the argument it finds in the timer. `tmr_adapt_cb` reads that argument.

Memory that is given back is not handed out again here, so that it can be told from
memory that is in use.

## Main definitions

* `CsiCaller`: Where a task is in one of the calls.
* `CsiTimers`: The timer task, its queue, the callers, and what was given back.
* `CsiTimers.step`: One step of a caller or of the timer task.
-/

namespace Wujian100

namespace Rhino

/-- `RHINO_CONFIG_TIMER_MSG_NUM`. -/
def timerMsgNum : Nat := 20

/-- `TMR_ONE_SHOT_DLY`. -/
def tmrOneShotDly : Nat := 10

/-- `TMR_PERIODIC_PERIOD`. -/
def tmrPeriodicPeriod : Nat := 10

/-- `k_timer_type_t`. -/
inductive KtimerType where
  | once
  | periodic
deriving DecidableEq, Repr

/-- `k_status_t`, as far as these calls return it. -/
inductive CsiStatus where
  | ok
  | einval
  | eperm
deriving DecidableEq, Repr

/-- A `tmr_arg_t`: not allocated yet, in use, or given back. -/
inductive TmrArg where
  | unused
  | live
  | freed
deriving DecidableEq, Repr

/-- The timer a command is about. -/
def TimerCmd.target {T : Type} : TimerCmd T → T
  | .start t => t
  | .stop t => t
  | .chg t _ _ => t
  | .argChg t _ => t
  | .del t => t
  | .dynDel t => t
  | .argChgAuto t _ => t

/-- Where a task is: outside, with what its last call returned; before or after the
    change that `csi_kernel_timer_start` sends; or before the `free` of
    `csi_kernel_timer_del`. -/
inductive CsiCaller (T : Type) where
  | out (ret : CsiStatus)
  | change (t : T) (tf tr : Nat)
  | start (t : T) (tf tr : Nat)
  | free (t : T)
deriving DecidableEq

/-- What goes wrong with memory. -/
inductive CsiFault (T : Type) where
  | callback (t : T)
  | delRead (t : T)
  | freeTwice (arg : Nat)
deriving DecidableEq

/-- The timer task, `g_timer_queue`, and the tasks. `kind` is the type a timer was
    created with, and `freed` says that its `ktimer_t` was given back. -/
structure CsiTimers (T C : Type) where
  task : TimerTask T
  queue : List (TimerCmd T)
  caller : C → CsiCaller T
  kind : T → Option KtimerType
  freed : T → Bool
  arg : Nat → TmrArg
  faults : List (CsiFault T)

/-- One step of a task, or of the timer task. -/
inductive CsiAct (T C : Type) where
  | new (t : T) (type : KtimerType) (arg : Nat)
  | start (c : C) (t : T) (ticks : Nat)
  | change (c : C)
  | go (c : C)
  | stop (c : C) (t : T)
  | del (c : C) (t : T)
  | free (c : C)
  | recv (tick : Nat)
  | timeout (tick : Nat)
  | look (tick : Nat)
  | turn

namespace CsiTimers

variable {T C : Type}

/-- `krhino_buf_queue_send`, after what `krhino_timer_change` checks. -/
def send (s : CsiTimers T C) (cmd : TimerCmd T) : Option (CsiTimers T C) :=
  if cmd.passes = true ∧ s.queue.length < timerMsgNum then
    some { s with queue := s.queue ++ [cmd] }
  else none

variable [DecidableEq T] [DecidableEq C]

/-- The task goes on. -/
def goes (s : CsiTimers T C) (c : C) (x : CsiCaller T) : CsiTimers T C :=
  { s with caller := Function.update s.caller c x }

/-- The task sends a command, and goes on, or returns an error. -/
def sendBy (s : CsiTimers T C) (c : C) (cmd : TimerCmd T) (x : CsiCaller T) : CsiTimers T C :=
  match s.send cmd with
  | some s' => s'.goes c x
  | none => s.goes c (.out .eperm)

/-- What `tmr_adapt_cb` finds when the walk of `timer_cb_proc` calls it. -/
def callFaults (s : CsiTimers T C) : List (CsiFault T) :=
  match s.task.pc with
  | .cb (some t) =>
      if due (s.task.timer t).match_ s.task.count = true ∧
          s.arg (s.task.timer t).cbArg = .freed then [.callback t]
      else []
  | _ => []

/-- `free(timer_handle->timer_cb_arg)`. -/
def freeArg (s : CsiTimers T C) (t : T) : CsiTimers T C :=
  let arg := (s.task.timer t).cbArg
  { s with
    arg := Function.update s.arg arg .freed
    faults := s.faults ++ (if s.freed t = true then [.delRead t] else []) ++
      (if s.arg arg = .freed then [.freeTwice arg] else []) }

/-- The timer task takes the first command of the queue, and gives the timer back that
    the command deletes. -/
def recv (s : CsiTimers T C) (tick : Nat) : Option (CsiTimers T C) :=
  match s.queue with
  | [] => none
  | cmd :: rest =>
      (s.task.step (.command cmd tick)).map fun task =>
        { s with
          task := task
          queue := rest
          freed :=
            if (s.task.timer cmd.target).isTimer = true ∧
                (task.timer cmd.target).isTimer = false then
              Function.update s.freed cmd.target true
            else s.freed }

/-- One step. `new` is `csi_kernel_timer_new`; `start`, `change` and `go` are the parts of
    `csi_kernel_timer_start`, and `del` and `free` those of `csi_kernel_timer_del`. -/
def step (s : CsiTimers T C) : CsiAct T C → Option (CsiTimers T C)
  | .new t type arg =>
      if s.kind t = none ∧ s.arg arg = .unused then
        let round :=
          match type with
          | .once => 0
          | .periodic => tmrPeriodicPeriod
        (s.task.step (.create t tmrOneShotDly round arg false)).map fun task =>
          { s with
            task := task
            kind := Function.update s.kind t (some type)
            arg := Function.update s.arg arg .live }
      else none
  | .start c t ticks =>
      match s.caller c with
      | .out _ =>
          if ticks < 2 ^ 32 ∧ s.kind t ≠ none then
            if ticks = 0 then some (s.goes c (.out .einval))
            else
              let round := (s.task.timer t).roundTicks
              some (s.goes c (.change t ticks (if round ≠ 0 then ticks else 0)))
          else none
      | _ => none
  | .change c =>
      match s.caller c with
      | .change t tf tr => some (s.sendBy c (.chg t tf tr) (.start t tf tr))
      | _ => none
  | .go c =>
      match s.caller c with
      | .start t _ _ => some (s.sendBy c (.start t) (.out .ok))
      | _ => none
  | .stop c t =>
      match s.caller c with
      | .out _ => if s.kind t ≠ none then some (s.sendBy c (.stop t) (.out .ok)) else none
      | _ => none
  | .del c t =>
      match s.caller c with
      | .out _ => if s.kind t ≠ none then some (s.sendBy c (.dynDel t) (.free t)) else none
      | _ => none
  | .free c =>
      match s.caller c with
      | .free t => some ((s.freeArg t).goes c (.out .ok))
      | _ => none
  | .recv tick => s.recv tick
  | .timeout tick => (s.task.step (.timeout tick)).map fun task => { s with task := task }
  | .look tick => (s.task.step (.look tick)).map fun task => { s with task := task }
  | .turn =>
      (s.task.step .turn).map fun task =>
        { s with task := task, faults := s.faults ++ s.callFaults }

end CsiTimers

/-- Before any timer is created. -/
def CsiTimers.init {T C : Type} (tick : Nat) : CsiTimers T C where
  task := TimerTask.start tick
  queue := []
  caller := fun _ => .out .ok
  kind := fun _ => none
  freed := fun _ => false
  arg := fun _ => .unused
  faults := []

end Rhino

end Wujian100
