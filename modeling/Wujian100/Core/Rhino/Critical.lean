import Wujian100.Core.Rhino.Calls

/-!
# Interrupts and Critical Sections

`RHINO_CRITICAL_ENTER` keeps whether interrupts are enabled in a local of the call
and disables them; `RHINO_CRITICAL_EXIT` brings back what was kept. The calls of
`Kernel.call` are made as if every way out of a call passed there. `krhino_task_del`
has one that does not, and is modelled here with the interrupts.

## Main definitions

* `Cpu`: The kernel, and whether interrupts are enabled.
* `Cpu.criticalEnter`, `Cpu.criticalExit`: The two macros.
* `Cpu.taskDel`: `krhino_task_del`.
-/

namespace Wujian100

namespace Rhino

/-- The kernel, and whether interrupts are enabled. -/
structure Cpu (T O : Type) where
  kernel : Kernel T O
  intrptOn : Bool

namespace Cpu

variable {T O : Type}

/-- `RHINO_CRITICAL_ENTER`, with what `cpsr` is then. -/
def criticalEnter (c : Cpu T O) : Bool × Cpu T O :=
  (c.intrptOn, { c with intrptOn := false })

/-- `RHINO_CRITICAL_EXIT`. -/
def criticalExit (c : Cpu T O) (cpsr : Bool) : Cpu T O :=
  { c with intrptOn := cpsr }

/-- `RHINO_CRITICAL_EXIT_SCHED`, on one processor. -/
def criticalExitSched [DecidableEq T] (c : Cpu T O) (cpsr : Bool) : Cpu T O :=
  { kernel := c.kernel.coreSched, intrptOn := cpsr }

variable [DecidableEq T] [DecidableEq O] [Fintype T] [Fintype O]

/-- `krhino_task_del`. For the idle task it returns inside its critical section. -/
def taskDel (c : Cpu T O) (task : Option T) : Kstat × Cpu T O :=
  let e := c.criticalEnter
  let cpsr := e.1
  let c := e.2
  let t := task.getD c.kernel.active
  if c.kernel.intrptNested > 0 then (.notCalledByIntrpt, c.criticalExit cpsr)
  else if (c.kernel.task t).prio = idlePri then (.taskDelNotAllowed, c)
  else if (c.kernel.task t).isStatic = false then (.kobjDelErr, c.criticalExit cpsr)
  else if t = c.kernel.active ∧ c.kernel.schedLock > 0 then (.schedDisable, c.criticalExit cpsr)
  else
    let k := c.kernel.taskMutexFree t
    match k.taskEnd t with
    | none => (.invTaskState, { c with kernel := k }.criticalExit cpsr)
    | some k => (.success, { c with kernel := k }.criticalExitSched cpsr)

end Cpu

end Rhino

end Wujian100
