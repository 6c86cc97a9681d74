import Wujian100.Core.Rhino.Calls

/-!
# Who May Touch the Heap

The functions of `k_mm.c`, as far as locks go, where `RHINO_CONFIG_MM_REGION_MUTEX` is set:
each takes `mm_mutex`, reads and writes the heap, and gives the mutex back. A call is the
list of what is left of it, so a task can be stopped between any two parts. How often the
heap is touched in a stretch is left open.

What `krhino_mutex_lock` returns is not looked at. A task that has to wait goes on behind
the call once it is woken, and one that was refused goes on at once.

The kernel runs, and any task that does not wait may be the next to run, as long as the
scheduler is not suspended. The tasks that wait are in the order of their priorities, which
may be any.

## Main definitions

* `MmInstr`, `MmEntry`: The parts of a call, and the calls.
* `MmLock`: The mutex, the scheduler's lock and what each task has left to do.
* `MmLock.mutexLock`, `MmLock.mutexUnlock`: What the kernel does to them.
* `MmLock.step`: A call begins, a part of it runs, or another task does.
-/

namespace Wujian100

namespace Rhino

/-- The parts of a call. -/
inductive MmInstr where
  /-- `csi_kernel_sched_suspend`. -/
  | schedSuspend
  /-- `csi_kernel_sched_resume`. -/
  | schedResume
  /-- `krhino_mutex_lock` of `mm_mutex`, with `RHINO_WAIT_FOREVER`. -/
  | mutexLock
  /-- The end of `krhino_mutex_lock`, for a task that had to wait. -/
  | pendEnd
  /-- The heap is read or written. -/
  | heap
  /-- `krhino_mutex_unlock` of `mm_mutex`. -/
  | mutexUnlock
deriving DecidableEq, Repr

/-- The heap is touched, once and so often again. -/
def heapPart (n : Nat) : List MmInstr := List.replicate (n + 1) .heap

/-- `k_mm_alloc` and `k_mm_free`. -/
def kMmAlloc (n : Nat) : List MmInstr := .mutexLock :: heapPart n ++ [.mutexUnlock]

/-- The ways through `k_mm_realloc`: where the block is; to another block, which is or is
    not found; or, with no block or no size, as another function. -/
inductive ReallocPath where
  | inPlace (n : Nat)
  | noMemory (n alloc : Nat)
  | fromFixed (n alloc copy : Nat)
  | moved (n alloc copy free : Nat)
  | allocOnly (alloc : Nat)
  | freeOnly (free : Nat)

/-- `k_mm_realloc`, which calls `k_mm_alloc` and `k_mm_free` with the mutex locked. -/
def kMmRealloc : ReallocPath → List MmInstr
  | .inPlace n => .mutexLock :: heapPart n ++ [.mutexUnlock]
  | .noMemory n alloc => .mutexLock :: heapPart n ++ kMmAlloc alloc ++ [.mutexUnlock]
  | .fromFixed n alloc copy =>
      .mutexLock :: heapPart n ++ kMmAlloc alloc ++ heapPart copy ++ [.mutexUnlock]
  | .moved n alloc copy free =>
      .mutexLock :: heapPart n ++ kMmAlloc alloc ++ heapPart copy ++ kMmAlloc free ++
        [.mutexUnlock]
  | .allocOnly alloc => kMmAlloc alloc
  | .freeOnly free => kMmAlloc free

/-- What a task calls. An object that is created takes one block or more, and gives them
    back if it fails; the same functions take them back when it is deleted. -/
inductive MmEntry where
  | csiMalloc (n : Nat)
  | csiFree (n : Nat)
  | csiRealloc (path : ReallocPath)
  | direct (blocks : List Nat)
  | csiTaskNew (blocks : List Nat)

/-- The parts of what a task calls. -/
def MmEntry.code : MmEntry → List MmInstr
  | .csiMalloc n | .csiFree n => .schedSuspend :: kMmAlloc n ++ [.schedResume]
  | .csiRealloc path => kMmRealloc path
  | .direct blocks => blocks.flatMap kMmAlloc
  | .csiTaskNew blocks => .schedSuspend :: blocks.flatMap kMmAlloc ++ [.schedResume]

/-- `mm_mutex`, `g_sched_lock`, `g_active_task`, and what each task has left to do. -/
structure MmLock (T : Type) where
  active : T
  schedLock : Nat
  mutexTask : Option T
  ownerNested : Nat
  blkList : List T
  code : T → List MmInstr

namespace MmLock

variable {T : Type} [DecidableEq T]

/-- The active task has this left to do. -/
def goOn (s : MmLock T) (rest : List MmInstr) : MmLock T :=
  { s with code := Function.update s.code s.active rest }

/-- `krhino_sched_disable`. -/
def schedDisable (s : MmLock T) : Kstat × MmLock T :=
  if s.schedLock ≥ schedMaxLockCount then (.schedLockCountOvf, s)
  else (.success, { s with schedLock := s.schedLock + 1 })

/-- `krhino_sched_enable`. -/
def schedEnable (s : MmLock T) : Kstat × MmLock T :=
  if s.schedLock = 0 then (.schedAlreadyEnabled, s)
  else if s.schedLock - 1 > 0 then (.schedDisable, { s with schedLock := s.schedLock - 1 })
  else (.success, { s with schedLock := s.schedLock - 1 })

/-- `krhino_mutex_lock`, for ever. It returns nothing yet where the task has to wait, and
    goes behind so many of those that wait already. -/
def mutexLock (s : MmLock T) (pos : Nat) : Option Kstat × MmLock T :=
  if s.mutexTask = some s.active then
    if s.ownerNested = 2 ^ 32 - 1 then (some .mutexNestedOvf, s)
    else (some .mutexOwnerNested, { s with ownerNested := s.ownerNested + 1 })
  else
    match s.mutexTask with
    | none => (some .success, { s with mutexTask := some s.active, ownerNested := 1 })
    | some _ =>
        if s.schedLock > 0 then (some .schedDisable, s)
        else (none, { s with blkList := s.blkList.insertIdx (min pos s.blkList.length) s.active })

/-- One lock less, of a `mutex_nested_t`. -/
def lessNested : Nat → Nat
  | 0 => 2 ^ 32 - 1
  | n + 1 => n

/-- `krhino_mutex_unlock`. -/
def mutexUnlock (s : MmLock T) : Kstat × MmLock T :=
  if s.mutexTask ≠ some s.active then (.mutexNotReleasedByOwner, s)
  else
    let nested := lessNested s.ownerNested
    if nested > 0 then (.mutexOwnerNested, { s with ownerNested := nested })
    else
      match s.blkList with
      | [] => (.success, { s with mutexTask := none, ownerNested := nested })
      | u :: rest => (.success, { s with mutexTask := some u, ownerNested := 1, blkList := rest })

end MmLock

/-- What happens next: the active task calls something, it goes on, or another task runs. -/
inductive MmAct (T : Type) where
  | call (e : MmEntry)
  | exec (pos : Nat)
  | switch (t : T)

namespace MmLock

variable {T : Type} [DecidableEq T]

/-- The next part of the active task's call. A mutex that is locked too often stops the
    system. -/
def exec (s : MmLock T) (pos : Nat) : Option (MmLock T) :=
  match s.code s.active with
  | [] => none
  | .schedSuspend :: rest => some (s.schedDisable.2.goOn rest)
  | .schedResume :: rest => some (s.schedEnable.2.goOn rest)
  | .mutexLock :: rest =>
      match s.mutexLock pos with
      | (some .mutexNestedOvf, _) => none
      | (some _, s') => some (s'.goOn rest)
      | (none, s') => some (s'.goOn (.pendEnd :: rest))
  | .pendEnd :: rest => some (s.goOn rest)
  | .heap :: rest => some (s.goOn rest)
  | .mutexUnlock :: rest => some (s.mutexUnlock.2.goOn rest)

/-- One step. A task that waits does nothing. -/
def step (s : MmLock T) : MmAct T → Option (MmLock T)
  | .call e => if s.active ∉ s.blkList ∧ s.code s.active = [] then some (s.goOn e.code) else none
  | .exec pos => if s.active ∉ s.blkList then s.exec pos else none
  | .switch t => if s.schedLock = 0 ∧ t ∉ s.blkList then some { s with active := t } else none

/-- Nobody has called anything. -/
def init (t : T) : MmLock T where
  active := t
  schedLock := 0
  mutexTask := none
  ownerNested := 0
  blkList := []
  code := fun _ => []

end MmLock

end Rhino

end Wujian100
