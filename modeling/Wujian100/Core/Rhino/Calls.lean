import Wujian100.Core.Rhino.Kernel

/-!
# The Calls of the Kernel

What tasks and interrupts call: `k_task.c`, `k_sem.c`, `k_mutex.c`, `k_queue.c`,
`k_buf_queue.c`, `k_event.c` and the lock of `k_sched.c`. A call returns a status, or
nothing yet where its task waits. Calls that delete an object come in pairs, for
objects that were allocated and objects that were not, and differ in the flag they
ask for.

`krhino_task_del` of the idle task leaves without `RHINO_CRITICAL_EXIT`, and the
memory of what is deleted goes back to the heap; neither is part of the state.

## Main definitions

* `Call`: The calls.
* `Kernel.call`: What each does.
* `Kernel.step`: One call, tick or interrupt.
* `Kernel.init`: The kernel after `krhino_init`.
-/

namespace Wujian100

namespace Rhino

/-- The calls, with their parameters. -/
inductive Call (T O : Type) where
  | taskCreate (t : T) (prio ticks : Nat) (autorun isStatic : Bool)
  | taskSleep (ticks : Nat)
  | taskYield
  | taskSuspend (t : T)
  | taskResume (t : T)
  | taskPriChange (t : T) (pri : Nat)
  | taskDel (t : Option T)
  | taskDynDel (t : Option T)
  | taskTimeSliceSet (t : T) (slice : Nat)
  | schedPolicySet (t : T) (rr : Bool)
  | schedDisable
  | schedEnable
  | semCreate (o : O) (count : Nat) (isStatic : Bool)
  | semDel (o : O) (isStatic : Bool)
  | semGive (o : O) (wakeAll : Bool)
  | semTake (o : O) (ticks : Nat)
  | semCountSet (o : O) (count : Nat)
  | mutexCreate (o : O) (isStatic : Bool)
  | mutexDel (o : O) (isStatic : Bool)
  | mutexLock (o : O) (ticks : Nat)
  | mutexUnlock (o : O)
  | queueCreate (o : O) (start : Nat → UInt8) (msgNum : Nat) (isStatic : Bool)
  | queueDel (o : O) (isStatic : Bool)
  | queueSend (o : O) (msg : Nat → UInt8) (wakeAll : Bool)
  | queueRecv (o : O) (ticks : Nat)
  | queueFlush (o : O)
  | bufQueueCreate (o : O) (buf : Nat → UInt8) (size maxMsg : Nat) (type : RingType)
      (isStatic : Bool)
  | bufQueueDel (o : O) (isStatic : Bool)
  | bufQueueSend (o : O) (msg : Nat → UInt8) (size : Nat)
  | bufQueueRecv (o : O) (msg : Nat → UInt8) (ticks : Nat)
  | bufQueueFlush (o : O)
  | eventCreate (o : O) (flags : BitVec 32) (isStatic : Bool)
  | eventDel (o : O) (isStatic : Bool)
  | eventGet (o : O) (flags : BitVec 32) (opt : EventOpt) (ticks : Nat)
  | eventSet (o : O) (flags : BitVec 32) (and : Bool)

/-- `SCHED_MAX_LOCK_COUNT`. -/
def schedMaxLockCount : Nat := 200

/-- `RHINO_CONFIG_TIME_SLICE_DEFAULT`. -/
def timeSliceDefault : Nat := 50

/-- `RHINO_CONFIG_INTRPT_MAX_NESTED_LEVEL`. -/
def intrptMaxNestedLevel : Nat := 188

/-- Whether flags satisfy what is asked of them. -/
def eventMet (flags asked : BitVec 32) (opt : EventOpt) : Bool :=
  if opt.and = true then flags &&& asked = asked else flags &&& asked ≠ 0#32

/-- A return, or a task that waits and has none yet. -/
abbrev Ret (T O : Type) := Option Kstat × Kernel T O

namespace Kernel

variable {T O : Type} [DecidableEq T] [DecidableEq O]

/-- A return. -/
def ret (k : Kernel T O) (stat : Kstat) : Ret T O :=
  (some stat, k)

/-! ## Tasks -/

/-- A task as `task_create` leaves it. -/
def freshTask (prio ticks : Nat) (autorun isStatic : Bool) : Ktask O where
  state := if autorun = true then .rdy else .suspended
  prio := prio
  bPrio := prio
  suspendCount := if autorun = true then 0 else 1
  mutexList := none
  blkObj := none
  blkState := .finish
  onTick := false
  tickMatch := 0
  tickRemain := 0
  timeSlice := if ticks > 0 then ticks else timeSliceDefault
  timeTotal := if ticks > 0 then ticks else timeSliceDefault
  rr := true
  pendFlags := 0#32
  pendOption := ⟨false, false⟩
  pendInfo := 0#32
  msg := fun _ => 0
  bqMsgSize := 0
  isStatic := isStatic

/-- `task_create`. -/
def taskCreate (k : Kernel T O) (t : T) (prio ticks : Nat) (autorun isStatic : Bool) : Ret T O :=
  if prio ≥ priMax then k.ret .beyondMaxPri
  else if k.intrptNested > 0 then k.ret .notCalledByIntrpt
  else if prio = idlePri ∧ k.idleSpawned = true then k.ret .idleTaskExist
  else
    let k := if prio = idlePri then { k with idleSpawned := true } else k
    let k := k.modTask t fun _ => freshTask prio ticks autorun isStatic
    if autorun = true then
      let k := k.readyListAddTail t
      (if k.running = true then k.coreSched else k).ret .success
    else k.ret .success

/-- `krhino_task_sleep`. -/
def taskSleep (k : Kernel T O) (ticks : Nat) : Ret T O :=
  if ticks = 0 then k.ret .invParam
  else if k.intrptNested > 0 then k.ret .notCalledByIntrpt
  else if k.schedLock > 0 then k.ret .schedDisable
  else
    let t := k.active
    let k := (k.modTask t fun x => { x with state := .sleep }).tickListInsert t ticks
    (none, (k.readyListRm t).coreSched)

/-- `krhino_task_yield`. -/
def taskYield (k : Kernel T O) : Ret T O :=
  (k.readyListHeadToTail k.active).coreSched.ret .success

/-- `task_suspend`. -/
def doSuspend (k : Kernel T O) (t : T) : Ret T O :=
  if t = k.active ∧ k.schedLock > 0 then k.ret .schedDisable
  else
    match (k.task t).state with
    | .rdy =>
        let k := k.modTask t fun x => { x with suspendCount := 1, state := .suspended }
        (k.readyListRm t).coreSched.ret .success
    | .sleep =>
        (k.modTask t fun x => { x with suspendCount := 1, state := .sleepSuspended }).coreSched.ret
          .success
    | .pend =>
        (k.modTask t fun x => { x with suspendCount := 1, state := .pendSuspended }).coreSched.ret
          .success
    | .suspended | .sleepSuspended | .pendSuspended =>
        if (k.task t).suspendCount = 2 ^ 8 - 1 then k.ret .suspendedCountOvf
        else
          (k.modTask t fun x => { x with suspendCount := x.suspendCount + 1 }).coreSched.ret .success
    | _ => k.ret .invTaskState

/-- `krhino_task_suspend`. -/
def taskSuspend (k : Kernel T O) (t : T) : Ret T O :=
  if (k.task t).prio = idlePri then k.ret .taskSuspendNotAllowed else k.doSuspend t

/-- One suspension less, and the state that follows the last. The counter is a
    `uint8_t`. -/
def lessSuspended (k : Kernel T O) (t : T) (state : TaskState) : Kernel T O :=
  let n := ((k.task t).suspendCount + 2 ^ 8 - 1) % 2 ^ 8
  let k := k.modTask t fun x => { x with suspendCount := n }
  if n = 0 then k.modTask t fun x => { x with state := state } else k

/-- `krhino_task_resume`. -/
def taskResume (k : Kernel T O) (t : T) : Ret T O :=
  match (k.task t).state with
  | .rdy | .sleep | .pend => k.ret .taskNotSuspended
  | .suspended =>
      let k := k.lessSuspended t .rdy
      (if (k.task t).suspendCount = 0 then k.readyListAdd t else k).coreSched.ret .success
  | .sleepSuspended => (k.lessSuspended t .sleep).coreSched.ret .success
  | .pendSuspended => (k.lessSuspended t .pend).coreSched.ret .success
  | _ => k.ret .invTaskState

/-- `krhino_task_time_slice_set`. -/
def taskTimeSliceSet (k : Kernel T O) (t : T) (slice : Nat) : Ret T O :=
  if k.intrptNested > 0 then k.ret .notCalledByIntrpt
  else
    let total := if slice > 0 then slice else timeSliceDefault
    (k.modTask t fun x => { x with timeTotal := total, timeSlice := total }).ret .success

/-- `krhino_sched_policy_set`. -/
def schedPolicySet (k : Kernel T O) (t : T) (rr : Bool) : Ret T O :=
  if k.intrptNested > 0 then k.ret .notCalledByIntrpt
  else (k.modTask t fun x => { x with rr := rr }).ret .success

/-- `krhino_sched_disable`. -/
def schedDisable (k : Kernel T O) : Ret T O :=
  if k.intrptNested > 0 then k.ret .notCalledByIntrpt
  else if k.schedLock ≥ schedMaxLockCount then k.ret .schedLockCountOvf
  else { k with schedLock := k.schedLock + 1 }.ret .success

/-- `krhino_sched_enable`. -/
def schedEnable (k : Kernel T O) : Ret T O :=
  if k.intrptNested > 0 then k.ret .notCalledByIntrpt
  else if k.schedLock = 0 then k.ret .schedAlreadyEnabled
  else
    let k := { k with schedLock := k.schedLock - 1 }
    if k.schedLock > 0 then k.ret .schedDisable else k.coreSched.ret .success

variable [Fintype T] [Fintype O]

/-- `krhino_task_pri_change`. -/
def priChange (k : Kernel T O) (t : T) (pri : Nat) : Ret T O :=
  if (k.task t).prio ≥ idlePri then k.ret .priChgNotAllowed
  else if pri ≥ idlePri then k.ret .priChgNotAllowed
  else if (k.task t).state = .deleted then k.ret .invTaskState
  else if k.intrptNested > 0 then k.ret .notCalledByIntrpt
  else
    match k.mutexPriLimit t pri with
    | none => k.hang.ret .success
    | some limit =>
        let p := (k.modTask t fun x => { x with bPrio := pri }).taskPriChange t limit
        if p.1 ≠ .success then p.2.ret p.1 else p.2.coreSched.ret .success

/-- The end of a task, by its state, once its mutexes are free. -/
def taskEnd (k : Kernel T O) (t : T) : Option (Kernel T O) :=
  match (k.task t).state with
  | .rdy => some ((k.readyListRm t).modTask t fun x => { x with state := .deleted })
  | .suspended => some (k.modTask t fun x => { x with state := .deleted })
  | .sleep | .sleepSuspended =>
      some ((k.tickListRm t).modTask t fun x => { x with state := .deleted })
  | .pend | .pendSuspended =>
      let k := ((k.tickListRm t).klistRm t).modTask t fun x => { x with state := .deleted }
      some (k.mutexTaskPriReset t)
  | _ => none

/-- `krhino_task_del`. The mutexes are freed before the state is looked at. -/
def taskDel (k : Kernel T O) (task : Option T) : Ret T O :=
  let t := task.getD k.active
  if k.intrptNested > 0 then k.ret .notCalledByIntrpt
  else if (k.task t).prio = idlePri then k.ret .taskDelNotAllowed
  else if (k.task t).isStatic = false then k.ret .kobjDelErr
  else if t = k.active ∧ k.schedLock > 0 then k.ret .schedDisable
  else
    let k := k.taskMutexFree t
    match k.taskEnd t with
    | none => k.ret .invTaskState
    | some k => k.coreSched.ret .success

/-! ## Semaphores -/

/-- `sem_create`. -/
def semCreate (k : Kernel T O) (o : O) (count : Nat) (isStatic : Bool) : Ret T O :=
  (k.modObj o fun x =>
    { x with objType := .sem, blkList := [], count := count, peakCount := count
             isStatic := isStatic }).ret .success

/-- What the calls that delete an object share: the object is none, its tasks wake
    up, and `finish` clears what is left of it. -/
def objDel (k : Kernel T O) (o : O) (type : ObjType) (isStatic : Bool)
    (finish : Kobj T O → Kobj T O) : Ret T O :=
  if k.intrptNested > 0 then k.ret .notCalledByIntrpt
  else if (k.obj o).objType ≠ type then k.ret .kobjTypeErr
  else if (k.obj o).isStatic ≠ isStatic then k.ret .kobjDelErr
  else
    let k := k.modObj o fun x => { x with objType := .noType }
    let k := (k.obj o).blkList.foldl pendTaskRm k
    (k.modObj o finish).coreSched.ret .success

/-- `krhino_sem_del` and `krhino_sem_dyn_del`. -/
def semDel (k : Kernel T O) (o : O) (isStatic : Bool) : Ret T O :=
  k.objDel o .sem isStatic fun x => x

/-- `sem_give`. -/
def semGive (k : Kernel T O) (o : O) (wakeAll : Bool) : Ret T O :=
  if (k.obj o).objType ≠ .sem then k.ret .kobjTypeErr
  else
    match (k.obj o).blkList with
    | [] =>
        if (k.obj o).count = 2 ^ 32 - 1 then k.ret .semOvf
        else
          (k.modObj o fun x =>
            { x with count := x.count + 1, peakCount := max x.peakCount (x.count + 1) }).ret .success
    | t :: rest =>
        if wakeAll = true then ((t :: rest).foldl pendTaskWakeup k).coreSched.ret .success
        else (k.pendTaskWakeup t).coreSched.ret .success

/-- `krhino_sem_take`. -/
def semTake (k : Kernel T O) (o : O) (ticks : Nat) : Ret T O :=
  if k.intrptNested > 0 then k.ret .notCalledByIntrpt
  else if (k.obj o).objType ≠ .sem then k.ret .kobjTypeErr
  else if (k.obj o).count > 0 then
    (k.modObj o fun x => { x with count := x.count - 1 }).ret .success
  else if ticks = 0 then k.ret .noPendWait
  else if k.schedLock > 0 then k.ret .schedDisable
  else (none, (k.pendToBlkObj o k.active ticks).coreSched)

/-- `krhino_sem_count_set`. -/
def semCountSet (k : Kernel T O) (o : O) (count : Nat) : Ret T O :=
  if k.intrptNested > 0 then k.ret .notCalledByIntrpt
  else if (k.obj o).objType ≠ .sem then k.ret .kobjTypeErr
  else if (k.obj o).count = 0 ∧ (k.obj o).blkList ≠ [] then k.ret .semTaskWaiting
  else
    (k.modObj o fun x =>
      { x with count := count, peakCount := max x.peakCount count }).ret .success

/-- `krhino_task_dyn_del`, which wakes the task that frees the memory. -/
def taskDynDel (k : Kernel T O) (task : Option T) : Ret T O :=
  let t := task.getD k.active
  if k.intrptNested > 0 then k.ret .notCalledByIntrpt
  else if (k.task t).prio = idlePri then k.ret .taskDelNotAllowed
  else if (k.task t).isStatic = true then k.ret .kobjDelErr
  else if t = k.active ∧ k.schedLock > 0 then k.ret .schedDisable
  else if (k.task t).state = .deleted then k.ret .invTaskState
  else
    let g := { k with schedLock := k.schedLock + 1 }.semGive k.resSem false
    let k := { g.2 with schedLock := k.schedLock }
    if g.1 ≠ some .success then k.hang.ret .success
    else
      let k := k.taskMutexFree t
      ((k.taskEnd t).getD k).coreSched.ret .success

/-! ## Mutexes -/

/-- `mutex_create`. -/
def mutexCreate (k : Kernel T O) (o : O) (isStatic : Bool) : Ret T O :=
  (k.modObj o fun x =>
    { x with objType := .mutex, blkList := [], mutexTask := none, mutexList := none
             isStatic := isStatic }).ret .success

/-- `krhino_mutex_del` and `krhino_mutex_dyn_del`. -/
def mutexDel (k : Kernel T O) (o : O) (isStatic : Bool) : Ret T O :=
  if k.intrptNested > 0 then k.ret .notCalledByIntrpt
  else if (k.obj o).objType ≠ .mutex then k.ret .kobjTypeErr
  else if (k.obj o).isStatic ≠ isStatic then k.ret .kobjDelErr
  else
    let k := k.modObj o fun x => { x with objType := .noType }
    let k :=
      match (k.obj o).mutexTask with
      | some w => k.mutexRelease w (some o)
      | none => k
    ((k.obj o).blkList.foldl pendTaskRm k).coreSched.ret .success

/-- `krhino_mutex_lock`. -/
def mutexLock (k : Kernel T O) (o : O) (ticks : Nat) : Ret T O :=
  let a := k.active
  if k.intrptNested > 0 then k.ret .notCalledByIntrpt
  else if (k.obj o).objType ≠ .mutex then k.ret .kobjTypeErr
  else if (k.obj o).mutexTask = some a then
    if (k.obj o).ownerNested = 2 ^ 32 - 1 then k.hang.ret .mutexNestedOvf
    else
      (k.modObj o fun x => { x with ownerNested := x.ownerNested + 1 }).ret .mutexOwnerNested
  else
    match (k.obj o).mutexTask with
    | none =>
        ((k.giveMutex o a).modObj o fun x => { x with ownerNested := 1 }).ret .success
    | some w =>
        if ticks = 0 then k.ret .noPendWait
        else if k.schedLock > 0 then k.ret .schedDisable
        else
          let k :=
            if (k.task a).prio < (k.task w).prio then (k.taskPriChange w (k.task a).prio).2 else k
          (none, (k.pendToBlkObj o a ticks).coreSched)

/-- `krhino_mutex_unlock`. The counter is a `uint32_t`. -/
def mutexUnlock (k : Kernel T O) (o : O) : Ret T O :=
  let a := k.active
  if k.intrptNested > 0 then k.ret .notCalledByIntrpt
  else if (k.obj o).objType ≠ .mutex then k.ret .kobjTypeErr
  else if (k.obj o).mutexTask ≠ some a then k.ret .mutexNotReleasedByOwner
  else
    let nested := ((k.obj o).ownerNested + 2 ^ 32 - 1) % 2 ^ 32
    let k := k.modObj o fun x => { x with ownerNested := nested }
    if nested > 0 then k.ret .mutexOwnerNested
    else
      let k := k.mutexRelease a (some o)
      match (k.obj o).blkList with
      | [] => (k.modObj o fun x => { x with mutexTask := none }).ret .success
      | u :: _ =>
          ((k.pendTaskWakeup u).giveMutex o u |>.modObj o fun x =>
            { x with ownerNested := 1 }).coreSched.ret .success

/-! ## Queues -/

/-- `queue_create`. A message is a pointer of four bytes. -/
def queueCreate (k : Kernel T O) (o : O) (start : Nat → UInt8) (msgNum : Nat) (isStatic : Bool) :
    Ret T O :=
  if msgNum = 0 then k.ret .invParam
  else
    (k.modObj o fun x =>
      { x with objType := .queue, blkList := [], isStatic := isStatic
               ringbuf := .init start (msgNum * 4 % 2 ^ 32) .fix 4, size := msgNum, curNum := 0
               peakNum := 0 }).ret .success

/-- `krhino_queue_del` and `krhino_queue_dyn_del`. -/
def queueDel (k : Kernel T O) (o : O) (isStatic : Bool) : Ret T O :=
  k.objDel o .queue isStatic fun x => { x with ringbuf := x.ringbuf.reset }

/-- `task_msg_recv`. -/
def taskMsgRecv (msg : Nat → UInt8) (k : Kernel T O) (t : T) : Kernel T O :=
  (k.modTask t fun x => { x with msg := msg }).pendTaskWakeup t

/-- `msg_send`. -/
def queueSend (k : Kernel T O) (o : O) (msg : Nat → UInt8) (wakeAll : Bool) : Ret T O :=
  if (k.obj o).objType ≠ .queue then k.ret .kobjTypeErr
  else if (k.obj o).curNum ≥ (k.obj o).size then k.ret .queueFull
  else
    match (k.obj o).blkList with
    | [] =>
        (k.modObj o fun x =>
          { x with curNum := x.curNum + 1, peakNum := max x.peakNum (x.curNum + 1)
                   ringbuf := (x.ringbuf.push msg 4).2 }).ret .success
    | t :: rest =>
        if wakeAll = true then ((t :: rest).foldl (taskMsgRecv msg) k).coreSched.ret .success
        else (k.taskMsgRecv msg t).coreSched.ret .success

/-- `krhino_queue_recv`. -/
def queueRecv (k : Kernel T O) (o : O) (ticks : Nat) : Ret T O :=
  if k.intrptNested > 0 ∧ ticks ≠ 0 then k.ret .notCalledByIntrpt
  else if (k.obj o).objType ≠ .queue then k.ret .kobjTypeErr
  else if (k.obj o).curNum > 0 then
    (k.modObj o fun x =>
      { x with ringbuf := (x.ringbuf.pop (fun _ => 0) 0).ring, curNum := x.curNum - 1 }).ret .success
  else if ticks = 0 then k.ret .noPendWait
  else if k.schedLock > 0 then k.ret .schedDisable
  else (none, (k.pendToBlkObj o k.active ticks).coreSched)

/-- `krhino_queue_flush`. -/
def queueFlush (k : Kernel T O) (o : O) : Ret T O :=
  if k.intrptNested > 0 then k.ret .notCalledByIntrpt
  else if (k.obj o).objType ≠ .queue then k.ret .kobjTypeErr
  else
    (k.modObj o fun x => { x with curNum := 0, ringbuf := x.ringbuf.reset }).ret .success

/-! ## Buffer queues -/

/-- `buf_queue_create`. -/
def bufQueueCreate (k : Kernel T O) (o : O) (buf : Nat → UInt8) (size maxMsg : Nat)
    (type : RingType) (isStatic : Bool) : Ret T O :=
  if maxMsg = 0 then k.ret .invParam
  else if size = 0 then k.ret .bufQueueSizeZero
  else
    (k.modObj o fun x =>
      { x with objType := .bufQueue, blkList := [], isStatic := isStatic
               ringbuf := .init buf size type maxMsg, maxMsgSize := maxMsg, curNum := 0
               peakNum := 0, minFreeBufSize := size }).ret .success

/-- `krhino_buf_queue_del` and `krhino_buf_queue_dyn_del`. -/
def bufQueueDel (k : Kernel T O) (o : O) (isStatic : Bool) : Ret T O :=
  k.objDel o .bufQueue isStatic fun x => { x with ringbuf := x.ringbuf.reset }

/-- `buf_queue_send`. -/
def bufQueueSend (k : Kernel T O) (o : O) (msg : Nat → UInt8) (msgSize : Nat) : Ret T O :=
  if (k.obj o).objType ≠ .bufQueue then k.ret .kobjTypeErr
  else if msgSize > (k.obj o).maxMsgSize then k.ret .bufQueueMsgSizeOverflow
  else if msgSize = 0 then k.ret .invParam
  else
    match (k.obj o).blkList with
    | [] =>
        let p := (k.obj o).ringbuf.push msg msgSize
        if p.1 ≠ .success then k.ret (if p.1 = .ringbufFull then .bufQueueFull else p.1)
        else
          (k.modObj o fun x =>
            { x with ringbuf := p.2, curNum := x.curNum + 1
                     peakNum := max x.peakNum (x.curNum + 1)
                     minFreeBufSize := min x.minFreeBufSize p.2.freesize }).ret .success
    | t :: _ =>
        let k := k.modTask t fun x =>
          { x with msg := blit x.msg 0 msg 0 msgSize, bqMsgSize := msgSize }
        (k.pendTaskWakeup t).coreSched.ret .success

/-- `krhino_buf_queue_recv`. -/
def bufQueueRecv (k : Kernel T O) (o : O) (msg : Nat → UInt8) (ticks : Nat) : Ret T O :=
  if k.intrptNested > 0 ∧ ticks ≠ 0 then k.ret .notCalledByIntrpt
  else if (k.obj o).objType ≠ .bufQueue then k.ret .kobjTypeErr
  else if (k.obj o).ringbuf.isEmpty = false then
    (k.modObj o fun x =>
      { x with ringbuf := (x.ringbuf.pop msg 0).ring, curNum := x.curNum - 1 }).ret .success
  else if ticks = 0 then k.ret .noPendWait
  else if k.schedLock > 0 then k.ret .schedDisable
  else
    let k := k.modTask k.active fun x => { x with msg := msg }
    (none, (k.pendToBlkObj o k.active ticks).coreSched)

/-- `krhino_buf_queue_flush`. -/
def bufQueueFlush (k : Kernel T O) (o : O) : Ret T O :=
  if k.intrptNested > 0 then k.ret .notCalledByIntrpt
  else if (k.obj o).objType ≠ .bufQueue then k.ret .kobjTypeErr
  else
    (k.modObj o fun x =>
      { x with ringbuf := x.ringbuf.reset, curNum := 0, peakNum := 0
               minFreeBufSize := x.ringbuf.reset.freesize }).ret .success

/-! ## Events -/

/-- `event_create`. -/
def eventCreate (k : Kernel T O) (o : O) (flags : BitVec 32) (isStatic : Bool) : Ret T O :=
  (k.modObj o fun x =>
    { x with objType := .event, blkList := [], flags := flags, isStatic := isStatic }).ret .success

/-- `krhino_event_del` and `krhino_event_dyn_del`. -/
def eventDel (k : Kernel T O) (o : O) (isStatic : Bool) : Ret T O :=
  k.objDel o .event isStatic fun x => { x with flags := 0#32 }

/-- `krhino_event_get`. -/
def eventGet (k : Kernel T O) (o : O) (flags : BitVec 32) (opt : EventOpt) (ticks : Nat) : Ret T O :=
  if k.intrptNested > 0 then k.ret .notCalledByIntrpt
  else if (k.obj o).objType ≠ .event then k.ret .kobjTypeErr
  else if eventMet (k.obj o).flags flags opt = true then
    if opt.clear = true then
      (k.modObj o fun x => { x with flags := x.flags &&& ~~~flags }).ret .success
    else k.ret .success
  else if ticks = 0 then k.ret .noPendWait
  else if k.schedLock > 0 then k.ret .schedDisable
  else
    let k := k.modTask k.active fun x => { x with pendOption := opt, pendFlags := flags }
    (none, (k.pendToBlkObj o k.active ticks).coreSched)

/-- One task that waits for the event, tested with the flags as they were set. -/
def eventWake (o : O) (cur : BitVec 32) (k : Kernel T O) (t : T) : Kernel T O :=
  if eventMet cur (k.task t).pendFlags (k.task t).pendOption = true then
    let k := (k.modTask t fun x => { x with pendInfo := cur }).pendTaskWakeup t
    if (k.task t).pendOption.clear = true then
      k.modObj o fun x => { x with flags := x.flags &&& ~~~(k.task t).pendFlags }
    else k
  else k

/-- `event_set`. -/
def eventSet (k : Kernel T O) (o : O) (flags : BitVec 32) (and : Bool) : Ret T O :=
  if (k.obj o).objType ≠ .event then k.ret .kobjTypeErr
  else if and = true then
    (k.modObj o fun x => { x with flags := x.flags &&& flags }).ret .success
  else
    let cur := (k.obj o).flags ||| flags
    let k := k.modObj o fun x => { x with flags := cur }
    ((k.obj o).blkList.foldl (eventWake o cur) k).coreSched.ret .success

/-! ## Steps -/

/-- Each call. -/
def call (k : Kernel T O) : Call T O → Ret T O
  | .taskCreate t prio ticks autorun isStatic => k.taskCreate t prio ticks autorun isStatic
  | .taskSleep ticks => k.taskSleep ticks
  | .taskYield => k.taskYield
  | .taskSuspend t => k.taskSuspend t
  | .taskResume t => k.taskResume t
  | .taskPriChange t pri => k.priChange t pri
  | .taskDel t => k.taskDel t
  | .taskDynDel t => k.taskDynDel t
  | .taskTimeSliceSet t slice => k.taskTimeSliceSet t slice
  | .schedPolicySet t rr => k.schedPolicySet t rr
  | .schedDisable => k.schedDisable
  | .schedEnable => k.schedEnable
  | .semCreate o count isStatic => k.semCreate o count isStatic
  | .semDel o isStatic => k.semDel o isStatic
  | .semGive o wakeAll => k.semGive o wakeAll
  | .semTake o ticks => k.semTake o ticks
  | .semCountSet o count => k.semCountSet o count
  | .mutexCreate o isStatic => k.mutexCreate o isStatic
  | .mutexDel o isStatic => k.mutexDel o isStatic
  | .mutexLock o ticks => k.mutexLock o ticks
  | .mutexUnlock o => k.mutexUnlock o
  | .queueCreate o start msgNum isStatic => k.queueCreate o start msgNum isStatic
  | .queueDel o isStatic => k.queueDel o isStatic
  | .queueSend o msg wakeAll => k.queueSend o msg wakeAll
  | .queueRecv o ticks => k.queueRecv o ticks
  | .queueFlush o => k.queueFlush o
  | .bufQueueCreate o buf size maxMsg type isStatic =>
      k.bufQueueCreate o buf size maxMsg type isStatic
  | .bufQueueDel o isStatic => k.bufQueueDel o isStatic
  | .bufQueueSend o msg size => k.bufQueueSend o msg size
  | .bufQueueRecv o msg ticks => k.bufQueueRecv o msg ticks
  | .bufQueueFlush o => k.bufQueueFlush o
  | .eventCreate o flags isStatic => k.eventCreate o flags isStatic
  | .eventDel o isStatic => k.eventDel o isStatic
  | .eventGet o flags opt ticks => k.eventGet o flags opt ticks
  | .eventSet o flags and => k.eventSet o flags and

end Kernel

/-- What happens to the kernel. -/
inductive KernelAct (T O : Type) where
  | call (c : Call T O)
  | start
  | tick
  | intrptEnter
  | intrptExit

namespace Kernel

variable {T O : Type} [DecidableEq T] [DecidableEq O]

/-- What callers promise: a task or an object is created where none is, and an
    interrupt does not yield. -/
def permits (k : Kernel T O) : Call T O → Bool
  | .taskCreate t .. => (k.task t).state = .seed || (k.task t).state = .deleted
  | .taskYield => k.intrptNested = 0
  | .semCreate o .. | .mutexCreate o .. | .queueCreate o .. | .bufQueueCreate o ..
  | .eventCreate o .. => (k.obj o).objType = .noType
  | _ => true

/-- What is called before `krhino_start`. -/
def beforeStart : Call T O → Bool
  | .taskCreate .. | .semCreate .. | .mutexCreate .. | .queueCreate .. | .bufQueueCreate ..
  | .eventCreate .. => true
  | _ => false

variable [Fintype T] [Fintype O]

/-- One step. The idle task calls nothing, and nothing follows a kernel that is
    stuck. -/
def step (k : Kernel T O) (a : KernelAct T O) : Option (Kernel T O) :=
  let next :=
    match a with
    | .call c =>
        if k.permits c = true ∧
            (if k.running = true then k.active ≠ k.idle ∨ k.intrptNested > 0
              else beforeStart c = true) then
          some (k.call c).2
        else none
    | .start =>
        if k.running = false then some { k with running := true }.coreSched else none
    | .tick =>
        if k.running = true then some (k.tickListUpdate 1).timeSliceUpdate else none
    | .intrptEnter =>
        if k.running = true ∧ k.intrptNested < intrptMaxNestedLevel then
          some { k with intrptNested := k.intrptNested + 1 }
        else none
    | .intrptExit =>
        if k.intrptNested > 0 then some { k with intrptNested := k.intrptNested - 1 }.coreSched
        else none
  next.bind fun k' => if k'.stuck = true then none else some k'

/-- An object that is none. -/
def freshObj : Kobj T O where
  objType := .noType
  blkList := []
  isStatic := true
  count := 0
  peakCount := 0
  mutexTask := none
  mutexList := none
  ownerNested := 0
  flags := 0#32
  ringbuf := .init (fun _ => 0) 0 .fix 0
  size := 0
  maxMsgSize := 0
  curNum := 0
  peakNum := 0
  minFreeBufSize := 0

/-- The kernel after `krhino_init`, its idle task and `g_res_sem` created. The tasks
    it starts itself are created like any others. -/
def init (idle : T) (resSem : O) : Kernel T O where
  task := Function.update (fun _ => { freshTask 0 0 true true with state := .seed }) idle
    (freshTask idlePri 0 true true)
  obj := Function.update (fun _ => freshObj) resSem { freshObj with objType := .sem }
  rq := Runqueue.init.addTail idlePri idle
  tickHead := []
  tickCount := 0
  active := idle
  schedLock := 0
  intrptNested := 0
  running := false
  idleSpawned := true
  stuck := false
  idle := idle
  resSem := resSem

end Kernel

end Rhino

end Wujian100
