import Wujian100.Core.Rhino.Status
import Mathlib.Data.List.Basic
import Mathlib.Logic.Function.Basic
import Mathlib.Tactic.Ring

/-!
# Work Queues

`k_workqueue.c`: works that a worker of each queue calls one after another, at once
or when their timer runs out. Queues are named by their addresses.

A call is cut where it leaves a critical section, and what it has left to do then
is an entry of a list: it does not matter which task made it, a handler or any other.
Time is left out, so a timer that is active may run out at any moment, and whether
`g_timer_queue` has room is up to the schedule, since other timers use it too.

The number of the call of `krhino_work_run` that a work is there for is history, as
are the fields from `runs` on.

## Main definitions

* `Kwork`, `Kworkqueue`, `Works`: Works, queues and all of them with the calls under
  way.
* `Works.workRun`, `Works.workCancel`, `Works.workTimerCb`, `Works.workerTask`,
  `Works.workqueueDel`: The functions, part by part.
* `Works.step`: One part of one of them.
-/

namespace Wujian100

namespace Rhino

/-- `kwork_t` with its timer: `active` is `timer->timer_state`, `cbArg` is
    `timer->timer_cb_arg`, and `armed` the call that started the timer last. -/
structure Kwork where
  dly : Nat
  wq : Option Nat
  workExit : Bool
  active : Bool
  cbArg : Nat
  armed : Nat
deriving DecidableEq, Repr

/-- A work, and the call of `krhino_work_run` it is there for. -/
structure Job (W : Type) where
  work : W
  run : Nat
deriving DecidableEq, Repr

/-- Where `worker_task` is: before `krhino_sem_take` or blocked in it, with what it
    took but no work yet, with a work, or in the handler. It is `wild` once it took a
    work from an empty list. -/
inductive WorkerPc (W : Type) where
  | take
  | blocked
  | got
  | took (j : Job W)
  | handle (j : Job W)
  | wild
  | deleted
deriving DecidableEq, Repr

/-- `kworkqueue_t`: its semaphore, whether that exists, and whether the queue is on
    `g_workqueue_list_head`. -/
structure Kworkqueue (W : Type) where
  workList : List (Job W)
  workCurrent : Option W
  worker : WorkerPc W
  count : Nat
  hasSem : Bool
  listed : Bool
deriving DecidableEq, Repr

/-- What is sent to the timer task. A stop carries the calls it takes back. -/
inductive WorkCmd (W : Type) where
  | argChgAuto (w : W) (q run : Nat)
  | stop (w : W) (jobs : List (Job W))
deriving DecidableEq, Repr

/-- A call of `krhino_work_cancel` that has read `work->wq`, with the calls of
    `krhino_work_run` that had returned before it. -/
structure Cancel (W : Type) where
  work : W
  wq : Nat
  jobs : List (Job W)
deriving DecidableEq, Repr

/-- What `krhino_workqueue_del` does next. -/
inductive DelPc where
  | look
  | task
  | sem
  | unlist
deriving DecidableEq, Repr

/-- Queues and works, the calls under way, and what has happened: calls so far, works
    put on each queue, handlers called and returned, calls that returned
    `RHINO_SUCCESS`, those a cancel has taken back, and delayed ones that came to
    nothing, as their timer was started anew or stopped, or ran out while a worker had
    the work or it was listed. -/
structure Works (W : Type) where
  queue : Nat → Kworkqueue W
  work : W → Kwork
  timerQueue : List (WorkCmd W)
  callback : Option (W × Bool)
  giving : List (Nat × Job W)
  cancelling : List (Cancel W)
  deleting : List (Nat × DelPc)
  runs : Nat
  accepted : Nat → List (Job W)
  called : Nat → List (Job W)
  finished : Nat → List (Job W)
  returned : List (Nat × Job W)
  revoked : List (Job W)
  dropped : List (Job W)

namespace Works

variable {W : Type} [DecidableEq W]

omit [DecidableEq W] in
/-- A queue, changed. -/
def modQueue (s : Works W) (q : Nat) (f : Kworkqueue W → Kworkqueue W) : Works W :=
  { s with queue := Function.update s.queue q (f (s.queue q)) }

/-- A work, changed. -/
def modWork (s : Works W) (w : W) (f : Kwork → Kwork) : Works W :=
  { s with work := Function.update s.work w (f (s.work w)) }

/-- `klist_rm_init` of a work's node. -/
def unlink (s : Works W) (w : W) : Works W :=
  { s with queue := fun q =>
      { s.queue q with workList := (s.queue q).workList.eraseP fun j => j.work = w } }

/-- The end of the critical section of `krhino_work_run` and `work_timer_cb`. -/
def insert (s : Works W) (q : Nat) (j : Job W) : Works W :=
  let s := (s.unlink j.work).modQueue q fun x => { x with workList := x.workList ++ [j] }
  let s := s.modWork j.work fun x => { x with wq := some q, workExit := true }
  { s with accepted := Function.update s.accepted q (s.accepted q ++ [j]) }

omit [DecidableEq W] in
/-- `krhino_sem_give`, of a queue's semaphore. -/
def semGive (s : Works W) (q : Nat) : Kstat × Works W :=
  if (s.queue q).hasSem = false then (.kobjTypeErr, s)
  else
    match (s.queue q).worker with
    | .blocked => (.success, s.modQueue q fun x => { x with worker := .got })
    | _ =>
        if (s.queue q).count = 2 ^ 32 - 1 then (.semOvf, s)
        else (.success, s.modQueue q fun x => { x with count := x.count + 1 })

/-- `krhino_work_run` up to its `krhino_sem_give`, if it comes there. `room` says
    whether `g_timer_queue` has room. -/
def workRun (s : Works W) (q : Nat) (j : Job W) (room : Bool) : Option Kstat × Works W :=
  if (s.work j.work).dly = 0 then
    if (s.queue q).workCurrent = some j.work then (some .workRunning, s)
    else if (s.work j.work).workExit = true then (some .workExist, s)
    else (none, { s.insert q j with giving := s.giving ++ [(q, j)] })
  else if room = true then
    (some .success, { s with timerQueue := s.timerQueue ++ [.argChgAuto j.work q j.run] })
  else (some .bufQueueFull, s)

omit [DecidableEq W] in
/-- A call has returned. -/
def returns (s : Works W) (q : Nat) (j : Job W) (stat : Kstat) : Works W :=
  if stat = .success then { s with returned := s.returned ++ [(q, j)] } else s

/-- The calls for a work that have returned. -/
def returnedJobs (s : Works W) (w : W) : List (Job W) :=
  (s.returned.map Prod.snd).filter fun j => j.work = w

/-- `krhino_work_cancel` up to its critical section, if it comes there. -/
def workCancel (s : Works W) (w : W) (room : Bool) : Option Kstat × Works W :=
  match (s.work w).wq with
  | some q => (none, { s with cancelling := s.cancelling ++ [⟨w, q, s.returnedJobs w⟩] })
  | none =>
      if (s.work w).dly > 0 ∧ room = true then
        (some .success, { s with timerQueue := s.timerQueue ++ [.stop w (s.returnedJobs w)] })
      else (some .success, { s with revoked := s.revoked ++ s.returnedJobs w })

/-- The critical section of `krhino_work_cancel`. -/
def workCancelEnd (s : Works W) (c : Cancel W) : Kstat × Works W :=
  if (s.queue c.wq).workCurrent = some c.work then (.workRunning, s)
  else if (s.work c.work).workExit = true then (.workExist, s)
  else
    let s := (s.unlink c.work).modWork c.work fun x => { x with wq := none }
    (.success, { s with revoked := s.revoked ++ c.jobs })

omit [DecidableEq W] in
/-- The call that started the work's timer last. -/
def armedJob (s : Works W) (w : W) : Job W := ⟨w, (s.work w).armed⟩

/-- `work_timer_cb` up to its `krhino_sem_give`: whether it comes there. -/
def workTimerCb (s : Works W) (w : W) : Bool × Works W :=
  let q := (s.work w).cbArg
  let missed := { s with dropped := s.dropped ++ [s.armedJob w] }
  if (s.queue q).workCurrent = some w then (false, missed)
  else if (s.work w).workExit = true then (false, missed)
  else (true, s.insert q (s.armedJob w))

/-- The callback has returned, and its timer, which has no period, is active no
    more. -/
def endCallback (s : Works W) (w : W) : Works W :=
  { s.modWork w fun x => { x with active := false } with callback := none }

/-- The next part of `worker_task`. -/
def workerTask (s : Works W) (q : Nat) : Option (Works W) :=
  match (s.queue q).worker with
  | .take =>
      if (s.queue q).count > 0 then
        some (s.modQueue q fun x => { x with count := x.count - 1, worker := .got })
      else some (s.modQueue q fun x => { x with worker := .blocked })
  | .got =>
      match (s.queue q).workList with
      | [] => some (s.modQueue q fun x => { x with worker := .wild })
      | j :: rest =>
          let s := s.modQueue q fun x =>
            { x with workList := rest, workCurrent := some j.work, worker := .took j }
          some (s.modWork j.work fun x => { x with workExit := false })
  | .took j =>
      let s := s.modQueue q fun x => { x with worker := .handle j }
      some { s with called := Function.update s.called q (s.called q ++ [j]) }
  | .handle j =>
      let s := s.modQueue q fun x => { x with workCurrent := none, worker := .take }
      some { s with finished := Function.update s.finished q (s.finished q ++ [j]) }
  | .blocked | .wild | .deleted => none

omit [DecidableEq W] in
/-- The next part of `krhino_workqueue_del`: what follows it, or what it returns. -/
def workqueueDel (s : Works W) (q : Nat) : DelPc → (DelPc ⊕ Kstat) × Works W
  | .look =>
      if (s.queue q).workList ≠ [] then (.inr .workqueueBusy, s)
      else if (s.queue q).workCurrent.isSome = true then (.inr .workqueueBusy, s)
      else (.inl .task, s)
  | .task =>
      match (s.queue q).worker with
      | .deleted => (.inr .invTaskState, s)
      | _ => (.inl .sem, s.modQueue q fun x => { x with worker := .deleted })
  | .sem =>
      if (s.queue q).hasSem = false then (.inr .kobjTypeErr, s)
      else (.inl .unlist, s.modQueue q fun x => { x with hasSem := false })
  | .unlist => (.inr .success, s.modQueue q fun x => { x with listed := false })

omit [DecidableEq W] in
/-- The call whose timer runs, if the work's does. -/
def timed (s : Works W) (w : W) : List (Job W) :=
  if (s.work w).active = true then [s.armedJob w] else []

/-- `timer_cmd_proc`. -/
def timerCmdProc (s : Works W) : WorkCmd W → Works W
  | .argChgAuto w q run =>
      { s.modWork w fun x => { x with active := true, cbArg := q, armed := run } with
        dropped := s.dropped ++ s.timed w }
  | .stop w jobs =>
      { s.modWork w fun x => { x with active := false } with
        revoked := s.revoked ++ jobs
        dropped := s.dropped ++ s.timed w }

end Works

/-- What happens next. -/
inductive WorkAct (W : Type) where
  | run (q : Nat) (w : W) (room : Bool)
  | give (q : Nat) (j : Job W)
  | cancel (w : W) (room : Bool)
  | cancelEnd (c : Cancel W)
  | worker (q : Nat)
  | del (q : Nat)
  | delNext (q : Nat) (pc : DelPc)
  | command
  | fire (w : W)
  | timerCb

/-- One step. The timer task takes a command or looks at its timers when no callback
    is under way. -/
def Works.step {W : Type} [DecidableEq W] (s : Works W) : WorkAct W → Option (Works W)
  | .run q w room =>
      let j : Job W := ⟨w, s.runs⟩
      let r := { s with runs := s.runs + 1 }.workRun q j room
      match r.1 with
      | some stat => some (r.2.returns q j stat)
      | none => some r.2
  | .give q j =>
      if (q, j) ∈ s.giving then
        let r := { s with giving := s.giving.erase (q, j) }.semGive q
        some (r.2.returns q j r.1)
      else none
  | .cancel w room => some (s.workCancel w room).2
  | .cancelEnd c =>
      if c ∈ s.cancelling then
        some ({ s with cancelling := s.cancelling.erase c }.workCancelEnd c).2
      else none
  | .worker q => s.workerTask q
  | .del q =>
      if (s.queue q).listed = true then some { s with deleting := s.deleting ++ [(q, .look)] }
      else some s
  | .delNext q pc =>
      if (q, pc) ∈ s.deleting then
        let r := { s with deleting := s.deleting.erase (q, pc) }.workqueueDel q pc
        match r.1 with
        | .inl pc' => some { r.2 with deleting := r.2.deleting ++ [(q, pc')] }
        | .inr _ => some r.2
      else none
  | .command =>
      match s.callback, s.timerQueue with
      | none, c :: rest => some ({ s with timerQueue := rest }.timerCmdProc c)
      | _, _ => none
  | .fire w =>
      if s.callback = none ∧ (s.work w).active = true then some { s with callback := some (w, false) }
      else none
  | .timerCb =>
      match s.callback with
      | none => none
      | some (w, false) =>
          let r := s.workTimerCb w
          if r.1 = true then some { r.2 with callback := some (w, true) }
          else some (r.2.endCallback w)
      | some (w, true) => some ((s.semGive (s.work w).cbArg).2.endCallback w)

/-- Queues that were created and works that were initialised, with these delays. -/
def Works.start {W : Type} (dly : W → Nat) : Works W where
  queue := fun _ =>
    { workList := [], workCurrent := none, worker := .take, count := 0, hasSem := true
      listed := true }
  work := fun w =>
    { dly := dly w, wq := none, workExit := false, active := false, cbArg := 0, armed := 0 }
  timerQueue := []
  callback := none
  giving := []
  cancelling := []
  deleting := []
  runs := 0
  accepted := fun _ => []
  called := fun _ => []
  finished := fun _ => []
  returned := []
  revoked := []
  dropped := []

end Rhino

end Wujian100
