import Wujian100.Core.Rhino.Calls

/-!
# Updates of the Tick List

The kernel under updates of any number of ticks, as `tick_list_update` takes them,
and with `krhino_task_wait_abort`, which is built where
`RHINO_CONFIG_TASK_WAIT_ABORT` is set.

## Main definitions

* `Kernel.taskWaitAbort`: `krhino_task_wait_abort`.
* `TickAct`: What happens to the kernel, with both.
* `Kernel.tickStep`: One of these.
-/

namespace Wujian100

namespace Rhino

namespace Kernel

variable {T O : Type} [DecidableEq T] [DecidableEq O] [Fintype T] [Fintype O]

/-- `krhino_task_wait_abort`. -/
def taskWaitAbort (k : Kernel T O) (t : T) : Ret T O :=
  if k.intrptNested > 0 then k.ret .notCalledByIntrpt
  else
    match (k.task t).state with
    | .rdy => k.coreSched.ret .success
    | .suspended =>
        let k := (k.modTask t fun x => { x with state := .rdy }).readyListAdd t
        k.coreSched.ret .success
    | .sleep | .sleepSuspended =>
        let k := (k.tickListRm t).readyListAdd t
        let k := k.modTask t fun x => { x with state := .rdy, blkState := .abort }
        k.coreSched.ret .success
    | .pend | .pendSuspended =>
        let k := ((k.tickListRm t).klistRm t).readyListAdd t
        let k := k.modTask t fun x => { x with state := .rdy, blkState := .abort }
        let k := (k.mutexTaskPriReset t).modTask t fun x => { x with blkObj := none }
        k.coreSched.ret .success
    | _ => k.ret .invTaskState

end Kernel

/-- What happens to the kernel. -/
inductive TickAct (T O : Type) where
  | act (a : KernelAct T O)
  | update (ticks : Nat)
  | abort (t : T)

/-- One of these. As with the other calls, nothing follows a kernel that is stuck. -/
def Kernel.tickStep {T O : Type} [DecidableEq T] [DecidableEq O] [Fintype T] [Fintype O]
    (k : Kernel T O) : TickAct T O → Option (Kernel T O)
  | .act a => k.step a
  | .update ticks =>
      if k.running = true ∧ (k.tickListUpdate ticks).stuck = false then
        some (k.tickListUpdate ticks)
      else none
  | .abort t =>
      if k.running = true ∧ (k.active ≠ k.idle ∨ k.intrptNested > 0) ∧
          (k.taskWaitAbort t).2.stuck = false then
        some (k.taskWaitAbort t).2
      else none

end Rhino

end Wujian100
