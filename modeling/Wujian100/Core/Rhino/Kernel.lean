import Wujian100.Core.Rhino.BufQueue
import Wujian100.Core.Rhino.Runqueue
import Wujian100.Library.Chain
import Mathlib.Data.Fintype.Card

/-!
# Tasks and What They Wait For

The state of the kernel on one processor, and the functions that move tasks
between its lists: `k_pend.c`, `k_tick.c`, the priorities of `k_mutex.c` and
`k_task.c`.

A task has one node for the ready lists and the lists of those that wait, and one
for the list of ticks. Lists with a head are lists of tasks. The mutexes a task
holds are a chain of pointers, since what a deleted task leaves behind is such a
pointer. Every object queues its tasks by priority (`BLK_POLICY_PRI`).

A call that reads through `NULL`, goes around a ring of pointers for ever or ends
in `k_err_proc` leaves the kernel `stuck`, and nothing follows.

## Main definitions

* `Ktask`, `Kobj`, `Kernel`: Tasks, objects and the kernel.
* `Kernel.pendEnd`, `Kernel.pendToBlkObj`, `Kernel.pendListReorder`: `k_pend.c`.
* `Kernel.mutexPriLook`, `Kernel.taskPriChange`: Priorities along the owners of
  mutexes.
* `Kernel.taskMutexFree`: What a deleted task held.
* `Kernel.tickListUpdate`: The tasks whose time ran out.
-/

namespace Wujian100

namespace Rhino

/-- `task_stat_t`. -/
inductive TaskState where
  | seed
  | rdy
  | pend
  | suspended
  | pendSuspended
  | sleep
  | sleepSuspended
  | deleted
deriving DecidableEq, Repr

/-- `blk_state_t`. -/
inductive BlkState where
  | finish
  | abort
  | timeout
  | del
deriving DecidableEq, Repr

/-- `obj_type`, `noType` for `RHINO_OBJ_TYPE_NONE`. -/
inductive ObjType where
  | noType
  | sem
  | mutex
  | queue
  | bufQueue
  | event
deriving DecidableEq, Repr

/-- The options of an event: `RHINO_FLAGS_AND_MASK` and `RHINO_FLAGS_CLEAR_MASK`. -/
structure EventOpt where
  and : Bool
  clear : Bool
deriving DecidableEq, Repr

/-- `ktask_t`, its objects those of `O`. `onTick` is `tick_head != NULL`, `rr` is
    `sched_policy == KSCHED_RR`, `isStatic` is
    `mm_alloc_flag == K_OBJ_STATIC_ALLOC`, and `pendInfo` is what `pend_info` points
    to. -/
structure Ktask (O : Type) where
  state : TaskState
  prio : Nat
  bPrio : Nat
  suspendCount : Nat
  mutexList : Option O
  blkObj : Option O
  blkState : BlkState
  onTick : Bool
  tickMatch : Nat
  tickRemain : Nat
  timeSlice : Nat
  timeTotal : Nat
  rr : Bool
  pendFlags : BitVec 32
  pendOption : EventOpt
  pendInfo : BitVec 32
  msg : Nat → UInt8
  bqMsgSize : Nat
  isStatic : Bool

/-- The objects tasks wait for, all in one record: `blk_obj_t`, then the fields of
    `ksem_t`, `kmutex_t`, `kevent_t`, `kqueue_t` and `kbuf_queue_t`. -/
structure Kobj (T O : Type) where
  objType : ObjType
  blkList : List T
  isStatic : Bool
  count : Nat
  peakCount : Nat
  mutexTask : Option T
  mutexList : Option O
  ownerNested : Nat
  flags : BitVec 32
  ringbuf : Ringbuf
  size : Nat
  maxMsgSize : Nat
  curNum : Nat
  peakNum : Nat
  minFreeBufSize : Nat

/-- The kernel. `idle` and `resSem` are where `g_idle_task` and `g_res_sem` are. -/
structure Kernel (T O : Type) where
  task : T → Ktask O
  obj : O → Kobj T O
  rq : Runqueue T
  tickHead : List T
  tickCount : Nat
  active : T
  schedLock : Nat
  intrptNested : Nat
  running : Bool
  idleSpawned : Bool
  stuck : Bool
  idle : T
  resSem : O

/-- `RHINO_WAIT_FOREVER`. -/
def waitForever : Nat := 2 ^ 64 - 1

namespace Kernel

variable {T O : Type} [DecidableEq T] [DecidableEq O]

/-- A task's fields, changed. -/
def modTask (k : Kernel T O) (t : T) (f : Ktask O → Ktask O) : Kernel T O :=
  { k with task := Function.update k.task t (f (k.task t)) }

/-- An object's fields, changed. -/
def modObj (k : Kernel T O) (o : O) (f : Kobj T O → Kobj T O) : Kernel T O :=
  { k with obj := Function.update k.obj o (f (k.obj o)) }

/-- Nothing follows. -/
def hang (k : Kernel T O) : Kernel T O :=
  { k with stuck := true }

/-! ## Ready lists -/

/-- `ready_list_add_head`. -/
def readyListAddHead (k : Kernel T O) (t : T) : Kernel T O :=
  { k with rq := k.rq.addHead (k.task t).prio t }

/-- `ready_list_add_tail`. -/
def readyListAddTail (k : Kernel T O) (t : T) : Kernel T O :=
  { k with rq := k.rq.addTail (k.task t).prio t }

/-- `ready_list_add`. -/
def readyListAdd (k : Kernel T O) (t : T) : Kernel T O :=
  if (k.task t).prio = (k.task k.active).prio then k.readyListAddTail t
  else k.readyListAddHead t

/-- `ready_list_rm`. -/
def readyListRm (k : Kernel T O) (t : T) : Kernel T O :=
  match k.rq.rm (k.task t).prio t with
  | some rq => { k with rq := rq }
  | none => k.hang

/-- `ready_list_head_to_tail`. -/
def readyListHeadToTail (k : Kernel T O) (t : T) : Kernel T O :=
  match k.rq.headToTail (k.task t).prio with
  | some rq => { k with rq := rq }
  | none => k.hang

/-- `core_sched`. -/
def coreSched (k : Kernel T O) : Kernel T O :=
  if k.intrptNested > 0 then k
  else if k.schedLock > 0 then k
  else
    match k.rq.preferred with
    | some t => { k with active := t }
    | none => k.hang

/-! ## The list of ticks -/

/-- `tick_list_insert`. -/
def tickListInsert (k : Kernel T O) (t : T) (time : Nat) : Kernel T O :=
  if time > 0 then
    let k := k.modTask t fun x =>
      { x with tickMatch := (k.tickCount + time) % 2 ^ 64, tickRemain := time }
    { k with
      tickHead := k.tickHead.orderedInsert
        (fun a b => timeSub (k.task b).tickMatch k.tickCount > (k.task a).tickRemain) t }
      |>.modTask t fun x => { x with onTick := true }
  else k

/-- `tick_list_rm`. -/
def tickListRm (k : Kernel T O) (t : T) : Kernel T O :=
  if (k.task t).onTick = true then
    { k with tickHead := k.tickHead.erase t }.modTask t fun x => { x with onTick := false }
  else k

/-! ## Lists of those that wait -/

/-- `klist_rm`, of a task that is not ready. -/
def klistRm (k : Kernel T O) (t : T) : Kernel T O :=
  { k with obj := fun o => { k.obj o with blkList := (k.obj o).blkList.erase t } }

/-- `pend_list_add`, on the list of `o`. -/
def pendListAddTo (k : Kernel T O) (o : O) (t : T) : Kernel T O :=
  k.modObj o fun x =>
    { x with blkList := pendListAdd (fun u => (k.task u).prio) t x.blkList }

/-- `pend_task_wakeup` and `pend_task_rm`, which differ in the `blk_state` they
    leave. -/
def pendEnd (k : Kernel T O) (t : T) (blkState : BlkState) : Kernel T O :=
  let k :=
    match (k.task t).state with
    | .pend =>
        ((k.klistRm t).readyListAdd t).modTask t fun x => { x with state := .rdy }
    | .pendSuspended => (k.klistRm t).modTask t fun x => { x with state := .suspended }
    | _ => k.hang
  (k.tickListRm t).modTask t fun x => { x with blkState := blkState, blkObj := none }

/-- `pend_task_wakeup`. -/
def pendTaskWakeup (k : Kernel T O) (t : T) : Kernel T O :=
  k.pendEnd t .finish

/-- `pend_task_rm`. -/
def pendTaskRm (k : Kernel T O) (t : T) : Kernel T O :=
  k.pendEnd t .del

/-- `pend_to_blk_obj`. -/
def pendToBlkObj (k : Kernel T O) (o : O) (t : T) (timeout : Nat) : Kernel T O :=
  let k := k.modTask t fun x => { x with blkObj := some o }
  let k := if timeout ≠ waitForever then k.tickListInsert t timeout else k
  let k := k.modTask t fun x => { x with state := .pend }
  (k.readyListRm t).pendListAddTo o t

/-- `pend_list_reorder`. -/
def pendListReorder (k : Kernel T O) (t : T) : Kernel T O :=
  match (k.task t).blkObj with
  | some o => (k.klistRm t).pendListAddTo o t
  | none => k.hang

/-! ## Priorities -/

/-- `mutex_list` of a mutex, as the pointer to the next. -/
def nextMutex (k : Kernel T O) (o : O) : Option O :=
  (k.obj o).mutexList

/-- One mutex of `mutex_pri_limit` or `mutex_pri_look`: the best priority so far,
    and the one read last. -/
def lookAt (k : Kernel T O) (s : Nat × Nat) (m : O) : Nat × Nat :=
  let pri :=
    match (k.obj m).blkList with
    | [] => s.2
    | u :: _ => (k.task u).prio
  (if pri < s.1 then pri else s.1, pri)

/-- The best of a priority and those of the first tasks that wait for the mutexes. -/
def lookPri (k : Kernel T O) (l : List O) (pri : Nat) : Nat :=
  (l.foldl k.lookAt (pri, pri)).1

/-- The mutex is taken out of the chain of `t`, whose cells are `l`. -/
def unlinkMutex (k : Kernel T O) (t : T) (l : List O) (m : O) : Kernel T O :=
  if (k.task t).mutexList = some m then
    k.modTask t fun x => { x with mutexList := k.nextMutex m }
  else
    match before k.nextMutex m l with
    | some d => k.modObj d fun x => { x with mutexList := k.nextMutex m }
    | none => k

variable [Fintype T] [Fintype O]

/-- The mutexes of a task; nothing where the chain is a ring. -/
def mutexes (k : Kernel T O) (t : T) : Option (List O) :=
  walk k.nextMutex (Fintype.card O) (k.task t).mutexList

/-- `mutex_pri_limit`. -/
def mutexPriLimit (k : Kernel T O) (t : T) (pri : Nat) : Option Nat :=
  (k.mutexes t).map fun l => k.lookPri l pri

/-- `mutex_pri_look`: the priority it returns, and the chain without the mutex that
    is released. -/
def mutexPriLook (k : Kernel T O) (t : T) (rel : Option O) : Nat × Kernel T O :=
  match k.mutexes t with
  | none => ((k.task t).bPrio, k.hang)
  | some l =>
      match rel with
      | none => (k.lookPri l (k.task t).bPrio, k)
      | some m => (k.lookPri (l.erase m) (k.task t).bPrio, k.unlinkMutex t l m)

/-- The loop of `task_pri_change`, for so many turns. -/
def priChangeLoop : Nat → Kernel T O → T → Nat → Kstat × Kernel T O
  | 0, k, _, _ => (.success, k.hang)
  | n + 1, k, t, newPri =>
      if (k.task t).prio = newPri then (.success, k)
      else
        match (k.task t).state with
        | .rdy =>
            let k := (k.readyListRm t).modTask t fun x => { x with prio := newPri }
            (.success, if t = k.active then k.readyListAddHead t else k.readyListAddTail t)
        | .sleep | .suspended | .sleepSuspended =>
            (.success, k.modTask t fun x => { x with prio := newPri })
        | .pend | .pendSuspended =>
            let oldPri := (k.task t).prio
            let k := (k.modTask t fun x => { x with prio := newPri }).pendListReorder t
            match (k.task t).blkObj with
            | none => (.success, k.hang)
            | some o =>
                if (k.obj o).objType = .mutex then
                  match (k.obj o).mutexTask with
                  | none => (.success, k.hang)
                  | some w =>
                      if (k.task w).prio > newPri then priChangeLoop n k w newPri
                      else if (k.task w).prio = oldPri then
                        let p := k.mutexPriLook w none
                        if p.1 ≠ (p.2.task w).prio then priChangeLoop n p.2 w p.1
                        else (.success, p.2)
                      else (.success, k)
                else (.success, k)
        | _ => (.invTaskState, k)

/-- `task_pri_change`. The loop raises priorities or lowers them, never both, so it
    ends within as many turns as there are priorities of tasks. -/
def taskPriChange (k : Kernel T O) (t : T) (newPri : Nat) : Kstat × Kernel T O :=
  priChangeLoop (Fintype.card T * priMax + 1) k t newPri

/-- `mutex_release`. -/
def mutexRelease (k : Kernel T O) (t : T) (rel : Option O) : Kernel T O :=
  let p := k.mutexPriLook t rel
  if p.1 ≠ (p.2.task t).prio then (p.2.taskPriChange t p.1).2 else p.2

/-- `mutex_task_pri_reset`. -/
def mutexTaskPriReset (k : Kernel T O) (t : T) : Kernel T O :=
  match (k.task t).blkObj with
  | none => k.hang
  | some o =>
      if (k.obj o).objType = .mutex then
        match (k.obj o).mutexTask with
        | none => k.hang
        | some w => if (k.task w).prio = (k.task t).prio then k.mutexRelease w none else k
      else k

/-- The mutex has a new owner, in front of the others it holds. -/
def giveMutex (k : Kernel T O) (m : O) (t : T) : Kernel T O :=
  (k.modObj m fun x =>
    { x with mutexTask := some t, mutexList := (k.task t).mutexList }).modTask t fun x =>
      { x with mutexList := some m }

/-- One mutex of `task_mutex_free`. -/
def freeMutex (k : Kernel T O) (m : O) : Kernel T O :=
  match (k.obj m).blkList with
  | [] => k.modObj m fun x => { x with mutexTask := none }
  | u :: _ => (k.pendTaskWakeup u).giveMutex m u

/-- The loop of `task_mutex_free`, from a mutex on. -/
def mutexFreeLoop : Nat → Kernel T O → Option O → Kernel T O
  | _, k, none => k
  | 0, k, some _ => k.hang
  | n + 1, k, some m => mutexFreeLoop n (k.freeMutex m) (k.nextMutex m)

/-- `task_mutex_free`. Once no task is left to wake the chain changes no more, and it
    ends within as many steps as there are mutexes or never. -/
def taskMutexFree (k : Kernel T O) (t : T) : Kernel T O :=
  mutexFreeLoop ((Fintype.card T + 1) * (Fintype.card O + 1)) k (k.task t).mutexList

/-! ## Time -/

/-- A task whose time ran out, as `tick_list_update` finds it. -/
def tickExpire (k : Kernel T O) (t : T) : Kernel T O :=
  match (k.task t).state with
  | .sleep =>
      ((k.modTask t fun x => { x with blkState := .finish, state := .rdy }).tickListRm t).readyListAdd
        t
  | .pend =>
      let k := ((k.tickListRm t).klistRm t).readyListAdd t
      let k := k.modTask t fun x => { x with blkState := .timeout, state := .rdy }
      (k.mutexTaskPriReset t).modTask t fun x => { x with blkObj := none }
  | .pendSuspended =>
      let k := (k.tickListRm t).klistRm t
      let k := k.modTask t fun x => { x with blkState := .timeout, state := .suspended }
      (k.mutexTaskPriReset t).modTask t fun x => { x with blkObj := none }
  | .sleepSuspended =>
      (k.modTask t fun x => { x with state := .suspended, blkState := .finish }).tickListRm t
  | _ => k.hang

/-- `tick_list_update`. -/
def tickListUpdate (k : Kernel T O) (ticks : Nat) : Kernel T O :=
  let k := { k with tickCount := (k.tickCount + ticks) % 2 ^ 64 }
  (k.tickHead.takeWhile fun t => due (k.task t).tickMatch k.tickCount).foldl tickExpire k

/-- `time_slice_update`. -/
def timeSliceUpdate (k : Kernel T O) : Kernel T O :=
  match k.rq.list (k.task k.active).prio with
  | [] => k
  | t :: rest =>
      if (k.task t).rr = false then k
      else if rest = [] then k
      else
        let slice := (k.task t).timeSlice - 1
        let k := k.modTask t fun x => { x with timeSlice := slice }
        if slice > 0 then k
        else (k.readyListHeadToTail t).modTask t fun x => { x with timeSlice := x.timeTotal }

end Kernel

end Rhino

end Wujian100
