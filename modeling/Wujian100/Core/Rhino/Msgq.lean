import Wujian100.Core.Rhino.BufQueue

/-!
# Message Queues of the Adapter

The `csi_kernel_msgq_` functions of `csi_rhino.c`, which the adapter builds on a
buffer queue of variable length. All messages of a queue have one length, and the
adapter asks for `msg_size * (msg_count + 1)` bytes of ring.

`csi_kernel_msgq_put` and `csi_kernel_msgq_get` take a handle and a pointer that
may be `NULL`; a caller of this model has both. The memory behind the ring comes
from the heap, which may have none left.

## Main definitions

* `KStatus`: The `k_status_t` the functions return.
* `Msgq`: `mq_adapter_t`, and the buffer queue behind it.
* `csiKernelMsgqNew`, `Msgq.put`, `Msgq.get`, `Msgq.flush`: The calls.
* `Msgq.step`: One call or one step of the kernel, and what it returns.
-/

namespace Wujian100

namespace Rhino

/-- `k_status_t`, where the message queues use it. -/
inductive KStatus where
  | ok
  | eperm
  | einval
  | etimedout
deriving DecidableEq, Repr

/-- `krhino_buf_queue_dyn_create`, with what the heap hands out for the ring. -/
def bufQueueDynCreate {T : Type} (buf : Option (Nat → UInt8)) (size maxMsg : Nat) :
    Except Kstat (BufQueue T) :=
  if size = 0 then .error .bufQueueSizeZero
  else
    match buf with
    | none => .error .noMem
    | some buf => BufQueue.create buf size maxMsg .dyn

/-- `mq_adapter_t`. The queue stands with the tasks that use it. -/
structure Msgq (T : Type) where
  bufQ : System T
  msgSize : Nat
  msgCount : Nat

/-- `csi_kernel_msgq_new`, called while no task is in the queue yet. The product
    of the two `int32_t` becomes a `size_t`. -/
def csiKernelMsgqNew {T : Type} (msgCount msgSize : Int) (buf : Option (Nat → UInt8))
    (prio : T → Nat) (msg : T → Nat → UInt8) (bqMsgSize : T → Nat) : Option (Msgq T) :=
  if msgCount ≤ 0 ∨ msgSize ≤ 0 then none
  else
    match bufQueueDynCreate buf (msgSize * (msgCount + 1) % 2 ^ 32).toNat msgSize.toNat with
    | .ok q => some {
        bufQ := System.start q prio msg bqMsgSize
        msgSize := msgSize.toNat
        msgCount := msgCount.toNat }
    | .error _ => none

namespace Msgq

variable {T : Type} [DecidableEq T]

/-- `csi_kernel_msgq_put`. Either place is served by the same send. -/
def put (q : Msgq T) (msgPtr : Nat → UInt8) (frontOrBack : UInt8) : KStatus × Msgq T :=
  if frontOrBack ≠ 0 ∧ frontOrBack ≠ 1 then (.einval, q)
  else if frontOrBack = 0 then
    let r := q.bufQ.send msgPtr q.msgSize
    (if r.1 = .success then .ok else .eperm, { q with bufQ := r.2 })
  else
    let r := q.bufQ.send msgPtr q.msgSize
    (if r.1 = .success then .ok else .eperm, { q with bufQ := r.2 })

/-- The status of `csi_kernel_msgq_get`. -/
def getStatus : Kstat → KStatus
  | .success => .ok
  | .blkTimeout => .etimedout
  | _ => .eperm

/-- `csi_kernel_msgq_get`, to its return or to the task's wait. A `timeout` below
    zero is for ever, and only 0 is `RHINO_NO_WAIT`. `size` is a local of the call
    that nothing has been stored to. -/
def get (q : Msgq T) (t : T) (msgPtr : Nat → UInt8) (timeout : Int) (size : Nat)
    (intrpt schedLock : Bool) : Option KStatus × Msgq T :=
  let r := q.bufQ.recv t msgPtr size (timeout != 0) intrpt schedLock
  (r.1.map fun s => getStatus s.1, { q with bufQ := r.2 })

/-- The rest of `csi_kernel_msgq_get`, once the task runs again. -/
def resume (q : Msgq T) (t : T) : Option (KStatus × Msgq T) :=
  (q.bufQ.resume t).map fun r => (getStatus r.1.1, { q with bufQ := r.2 })

/-- `csi_kernel_msgq_flush`. -/
def flush (q : Msgq T) : KStatus × Msgq T :=
  (.ok, { q with bufQ := q.bufQ.flush })

/-- `csi_kernel_msgq_get_count`. -/
def getCount (q : Msgq T) : Nat := q.bufQ.queue.curNum

/-- `csi_kernel_msgq_get_capacity`. -/
def getCapacity (q : Msgq T) : Nat := q.msgCount

end Msgq

/-- A call on a message queue, or a step of the kernel. -/
inductive MsgqOp (T : Type) where
  | put (msgPtr : Nat → UInt8) (frontOrBack : UInt8)
  | get (t : T) (msgPtr : Nat → UInt8) (timeout : Int) (size : Nat) (intrpt schedLock : Bool)
  | resume (t : T)
  | flush
  | timeout (t : T)
  | delete (t : T)
  | setPrio (t : T) (p : Nat)

/-- One step, and what it returns to a caller. A task inside a get calls nothing,
    and only one that waits can run out of time. -/
def Msgq.step {T : Type} [DecidableEq T] (q : Msgq T) :
    MsgqOp T → Option (Option KStatus × Msgq T)
  | .put msgPtr frontOrBack =>
      let r := q.put msgPtr frontOrBack
      some (some r.1, r.2)
  | .get t msgPtr timeout size intrpt schedLock =>
      if q.bufQ.waiting t = .no then some (q.get t msgPtr timeout size intrpt schedLock) else none
  | .resume t => (q.resume t).map fun r => (some r.1, r.2)
  | .flush => some (some q.flush.1, q.flush.2)
  | .timeout t =>
      if q.bufQ.waiting t = .pend then some (none, { q with bufQ := q.bufQ.leave t .timeout })
      else none
  | .delete t => some (none, { q with bufQ := q.bufQ.leave t .no })
  | .setPrio t p => some (none, { q with bufQ := q.bufQ.setPrio t p })

end Rhino

end Wujian100
