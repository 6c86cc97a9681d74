import Mathlib.Tactic.Ring

/-!
# Types of the Kernel

The values of `kstat_t` that the functions of this development return, and the
arithmetic of `sys_time_t` and `tick_t`, which have 64 bits.
-/

namespace Wujian100

namespace Rhino

/-- `kstat_t`. -/
inductive Kstat where
  | success
  | nullPtr
  | invParam
  | invAlign
  | kobjTypeErr
  | kobjDelErr
  | noMem
  | noPendWait
  | schedDisable
  | schedLockCountOvf
  | schedAlreadyEnabled
  | notCalledByIntrpt
  | ringbufFull
  | ringbufEmpty
  | bufQueueFull
  | bufQueueMsgSizeOverflow
  | bufQueueSizeZero
  | queueFull
  | blkTimeout
  | semOvf
  | semTaskWaiting
  | mutexNestedOvf
  | mutexOwnerNested
  | mutexNotReleasedByOwner
  | beyondMaxPri
  | idleTaskExist
  | suspendedCountOvf
  | invTaskState
  | taskNotSuspended
  | taskSuspendNotAllowed
  | taskDelNotAllowed
  | priChgNotAllowed
  | workqueueBusy
  | workExist
  | workRunning
  | blkPoolSizeErr
deriving DecidableEq, Repr

/-- The difference of two `sys_time_t`. -/
def timeSub (a b : Nat) : Nat :=
  (a + (2 ^ 64 - b)) % 2 ^ 64

/-- `delta <= 0`, the difference read as a `sys_time_i_t`. -/
def due (match_ count : Nat) : Bool :=
  timeSub match_ count = 0 || 2 ^ 63 ≤ timeSub match_ count

end Rhino

end Wujian100
