import Wujian100.Core.Rhino.Ringbuf
import Wujian100.Library.Klist
import Mathlib.Tactic.Ring

/-!
# The Buffer Queue

`k_buf_queue.c`, for one queue and any number of tasks. A receiver that finds
nothing waits on the queue's list, and a sender that finds a receiver waiting
copies the message straight into the receiver's memory; otherwise the message goes
through the ring buffer.

What the rest of the kernel does to the queue is what it does to a waiting task:
its time runs out (`tick_list_update`), it is deleted (`krhino_task_del`), or its
priority changes (`pend_list_reorder`). A suspended task waits on like any other.

## Main definitions

* `BufQueue`: The control block.
* `System`: The queue, and what it knows of the tasks.
* `System.send`, `System.recv`, `System.flush`: The calls.
* `System.step`: One call or one step of the kernel, and what the callers see of
  it.
-/

namespace Wujian100

namespace Rhino

/-- `kbuf_queue_t`, its tasks those of `T`. -/
structure BufQueue (T : Type) where
  ringbuf : Ringbuf
  maxMsgSize : Nat
  curNum : Nat
  peakNum : Nat
  minFreeBufSize : Nat
  blkList : List T

namespace BufQueue

variable {T : Type}

/-- `buf_queue_create`. -/
def create (mem : Nat → UInt8) (size maxMsg : Nat) (type : RingType) :
    Except Kstat (BufQueue T) :=
  if maxMsg = 0 then .error .invParam
  else if size = 0 then .error .bufQueueSizeZero
  else
    let ringbuf := Ringbuf.init mem size type maxMsg
    .ok { ringbuf := ringbuf, maxMsgSize := maxMsg, curNum := 0, peakNum := 0
          minFreeBufSize := ringbuf.freesize, blkList := [] }

/-- `krhino_buf_queue_create`. -/
def bufQueueCreate (buf : Nat → UInt8) (size maxMsg : Nat) : Except Kstat (BufQueue T) :=
  create buf size maxMsg .dyn

/-- `krhino_fix_buf_queue_create`. The product is a `size_t`. -/
def fixBufQueueCreate (buf : Nat → UInt8) (msgSize msgNum : Nat) : Except Kstat (BufQueue T) :=
  create buf (msgSize * msgNum % 2 ^ 32) msgSize .fix

end BufQueue

/-- Where a task stands in `krhino_buf_queue_recv`: outside, on the list, or woken
    with that `blk_state`. -/
inductive Waiting where
  | no
  | pend
  | finish
  | timeout
deriving DecidableEq, Repr

/-- What happens to messages. A receiver takes its message when it is handed over,
    and holds it in its memory when the call returns. -/
inductive QueueEvent (T : Type) where
  | sent (message : List UInt8)
  | took (t : T)
  | obtained (t : T) (message : List UInt8)
  | flushed
deriving DecidableEq

/-- The queue, its tasks, and what happened so far. `msg t` is the memory behind
    `task->msg`. -/
structure System (T : Type) where
  queue : BufQueue T
  prio : T → Nat
  waiting : T → Waiting
  msg : T → Nat → UInt8
  bqMsgSize : T → Nat
  events : List (QueueEvent T)

/-- `pend_list_add`: behind the tasks of the same priority. -/
def pendListAdd {T : Type} (prio : T → Nat) (t : T) (l : List T) : List T :=
  l.orderedInsert (fun a b => prio b > prio a) t

namespace System

variable {T : Type} [DecidableEq T]

/-- What happened, behind what happened before. -/
def log (s : System T) (es : List (QueueEvent T)) : System T :=
  { s with events := s.events ++ es }

/-- `pend_task_wakeup`, as the queue sees it. -/
def wakeup (s : System T) (t : T) : System T :=
  { s with
    queue := { s.queue with blkList := s.queue.blkList.erase t }
    waiting := Function.update s.waiting t .finish }

/-- `buf_queue_send`. -/
def send (s : System T) (msg : Nat → UInt8) (msgSize : Nat) : Kstat × System T :=
  if msgSize > s.queue.maxMsgSize then (.bufQueueMsgSizeOverflow, s)
  else if msgSize = 0 then (.invParam, s)
  else
    match s.queue.blkList with
    | [] =>
        let p := s.queue.ringbuf.push msg msgSize
        if p.1 ≠ .success then (if p.1 = .ringbufFull then .bufQueueFull else p.1, s)
        else
          let curNum := s.queue.curNum + 1
          let q := { s.queue with
            ringbuf := p.2
            curNum := curNum
            peakNum := if s.queue.peakNum < curNum then curNum else s.queue.peakNum
            minFreeBufSize :=
              if s.queue.minFreeBufSize > p.2.freesize then p.2.freesize
              else s.queue.minFreeBufSize }
          (.success, { s with queue := q }.log [.sent (window msg 0 msgSize)])
    | t :: _ =>
        let s' := { s with
          msg := Function.update s.msg t (blit (s.msg t) 0 msg 0 msgSize)
          bqMsgSize := Function.update s.bqMsgSize t msgSize }
        (.success, (s'.wakeup t).log [.sent (window msg 0 msgSize), .took t])

/-- `krhino_buf_queue_recv`, to its return or to the task's wait; nothing is
    returned by a task that waits. `size` is what `*size` was, and a return says
    what it is. -/
def recv (s : System T) (t : T) (msg : Nat → UInt8) (size : Nat) (wait intrpt schedLock : Bool) :
    Option (Kstat × Nat) × System T :=
  if intrpt = true ∧ wait = true then (some (.notCalledByIntrpt, size), s)
  else if s.queue.ringbuf.isEmpty = false then
    let p := s.queue.ringbuf.pop msg size
    let q := { s.queue with ringbuf := p.ring, curNum := s.queue.curNum - 1 }
    (some (.success, p.plen),
      { s with queue := q }.log [.took t, .obtained t (window p.pdata 0 p.plen)])
  else if wait = false then (some (.noPendWait, 0), s)
  else if schedLock = true then (some (.schedDisable, 0), s)
  else
    (none, { s with
      queue := { s.queue with blkList := pendListAdd s.prio t s.queue.blkList }
      waiting := Function.update s.waiting t .pend
      msg := Function.update s.msg t msg })

/-- The rest of `krhino_buf_queue_recv`, once the task runs again. -/
def resume (s : System T) (t : T) : Option ((Kstat × Nat) × System T) :=
  let s' := { s with waiting := Function.update s.waiting t .no }
  match s.waiting t with
  | .finish =>
      some ((.success, s.bqMsgSize t),
        s'.log [.obtained t (window (s.msg t) 0 (s.bqMsgSize t))])
  | .timeout => some ((.blkTimeout, 0), s')
  | _ => none

/-- `krhino_buf_queue_flush`. -/
def flush (s : System T) : System T :=
  let ringbuf := s.queue.ringbuf.reset
  let q := { s.queue with
    ringbuf := ringbuf, curNum := 0, peakNum := 0, minFreeBufSize := ringbuf.freesize }
  { s with queue := q }.log [.flushed]

/-- A task that waits leaves the list. -/
def leave (s : System T) (t : T) (w : Waiting) : System T :=
  { s with
    queue := { s.queue with blkList := s.queue.blkList.erase t }
    waiting := Function.update s.waiting t w }

/-- A task's priority changes, and its place among those that wait. -/
def setPrio (s : System T) (t : T) (p : Nat) : System T :=
  let prio := Function.update s.prio t p
  if s.waiting t = .pend then
    { s with
      prio := prio
      queue := { s.queue with blkList := pendListAdd prio t (s.queue.blkList.erase t) } }
  else { s with prio := prio }

end System

/-- A call on the queue, or a step of the kernel. -/
inductive QueueOp (T : Type) where
  | send (msg : Nat → UInt8) (msgSize : Nat)
  | recv (t : T) (msg : Nat → UInt8) (size : Nat) (wait intrpt schedLock : Bool)
  | resume (t : T)
  | flush
  | timeout (t : T)
  | delete (t : T)
  | setPrio (t : T) (p : Nat)

/-- One step. A task inside a receive calls nothing, and only one that waits can
    run out of time. -/
def System.step {T : Type} [DecidableEq T] (s : System T) : QueueOp T → Option (System T)
  | .send msg msgSize => some (s.send msg msgSize).2
  | .recv t msg size wait intrpt schedLock =>
      if s.waiting t = .no then some (s.recv t msg size wait intrpt schedLock).2 else none
  | .resume t => (s.resume t).map Prod.snd
  | .flush => some s.flush
  | .timeout t => if s.waiting t = .pend then some (s.leave t .timeout) else none
  | .delete t => some (s.leave t .no)
  | .setPrio t p => some (s.setPrio t p)

/-- A queue that was just created, and tasks outside of it. -/
def System.start {T : Type} (q : BufQueue T) (prio : T → Nat) (msg : T → Nat → UInt8)
    (bqMsgSize : T → Nat) : System T where
  queue := q
  prio := prio
  waiting := fun _ => .no
  msg := msg
  bqMsgSize := bqMsgSize
  events := []

end Rhino

end Wujian100
