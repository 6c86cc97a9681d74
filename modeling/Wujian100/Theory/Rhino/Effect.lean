import Wujian100.Theory.Rhino.Owners

/-!
# What a Call Can Do

The calls test their arguments and the state in many ways, and then do one of a
few things. `Effect` names those, with the tests that led there, so that what holds
of all calls is proved once for each effect.

An effect is told apart from the choice of the task that runs next: the flag says
whether `core_sched` follows.

## Main definitions

* `Starved`: An object has nothing for a task that waits for it.
* `Plain`: What a call can do apart from mutexes and priorities.
* `Effect`: What a call can do.

## Theorems

* `call_effect`: Every call has an effect.
-/

namespace Wujian100

namespace Rhino

variable {T O : Type}

/-- An object has nothing for a task that waits for it. Nothing waits for what is no
    object. -/
def Starved (x : Kobj T O) (y : Ktask O) : Prop :=
  match x.objType with
  | .noType => False
  | .sem => x.count = 0
  | .mutex => x.mutexTask ≠ none
  | .queue => x.curNum = 0
  | .bufQueue => x.ringbuf.isEmpty = true
  | .event => eventMet x.flags y.pendFlags y.pendOption = false

section Starving

variable {x : Kobj T O} {y : Ktask O}

theorem starved_sem (h : x.objType = .sem) : Starved x y ↔ x.count = 0 := by
  unfold Starved
  rw [h]

theorem starved_queue (h : x.objType = .queue) : Starved x y ↔ x.curNum = 0 := by
  unfold Starved
  rw [h]

theorem starved_bufQueue (h : x.objType = .bufQueue) : Starved x y ↔ x.ringbuf.isEmpty = true := by
  unfold Starved
  rw [h]

theorem starved_event (h : x.objType = .event) :
    Starved x y ↔ eventMet x.flags y.pendFlags y.pendOption = false := by
  unfold Starved
  rw [h]

theorem starved_mutex (h : x.objType = .mutex) : Starved x y ↔ x.mutexTask ≠ none := by
  unfold Starved
  rw [h]

end Starving

/-- A task changes in nothing that a list, a priority or a mutex depends on. -/
structure Still (x y : Ktask O) : Prop extends Placed x y where
  bPrio : y.bPrio = x.bPrio
  mutexList : y.mutexList = x.mutexList
  tickMatch : y.tickMatch = x.tickMatch

/-- And in nothing that an event depends on. -/
structure Calm (x y : Ktask O) : Prop extends Still x y where
  pendFlags : y.pendFlags = x.pendFlags
  pendOption : y.pendOption = x.pendOption
  isStatic : y.isStatic = x.isStatic

/-- An object changes in nothing but what it holds. -/
structure Restocked (x y : Kobj T O) : Prop where
  objType : y.objType = x.objType
  blkList : y.blkList = x.blkList
  mutexTask : y.mutexTask = x.mutexTask

/-- A suspension comes or goes without the task becoming ready, or ceasing to be. -/
inductive Shift : TaskState → TaskState → Prop where
  | sleep : Shift .sleep .sleepSuspended
  | wake : Shift .sleepSuspended .sleep
  | pend : Shift .pend .pendSuspended
  | unpend : Shift .pendSuspended .pend
  | suspended : Shift .suspended .suspended
  | sleepSuspended : Shift .sleepSuspended .sleepSuspended
  | pendSuspended : Shift .pendSuspended .pendSuspended

/-- Whether a task waits or has a time is as it was. -/
theorem Shift.facts {a b : TaskState} (h : Shift a b) :
    a ≠ .rdy ∧ b ≠ .rdy ∧ (a.timed → b.timed) ∧
      (b = .pend ∨ b = .pendSuspended ↔ a = .pend ∨ a = .pendSuspended) := by
  cases h with
  | _ => simp [TaskState.timed]

/-- One suspension less, or none left. -/
theorem lessSuspended_eq [DecidableEq T] (k : Kernel T O) (t : T) (s : TaskState) :
    ∃ n, (n = 0 ∧ k.lessSuspended t s
        = k.modTask t fun x => { x with suspendCount := n, state := s }) ∨
      (n ≠ 0 ∧ k.lessSuspended t s
        = k.modTask t fun x => { x with suspendCount := n, state := (k.task t).state }) := by
  refine ⟨((k.task t).suspendCount + 2 ^ 8 - 1) % 2 ^ 8, ?_⟩
  unfold Kernel.lessSuspended
  dsimp only
  by_cases hn : ((k.task t).suspendCount + 2 ^ 8 - 1) % 2 ^ 8 = 0
  · rw [if_pos hn]
    refine .inl ⟨hn, ?_⟩
    simp [Kernel.modTask]
  · rw [if_neg hn]
    exact .inr ⟨hn, rfl⟩

/-- The timeout of a call that may wait. -/
def Call.timeout : Call T O → Option Nat
  | .taskSleep ticks | .semTake _ ticks | .mutexLock _ ticks | .queueRecv _ ticks
  | .bufQueueRecv _ _ ticks | .eventGet _ _ _ ticks => some ticks
  | _ => none

/-- The calls that lock and unlock. -/
def Call.locks : Call T O → Prop
  | .mutexLock .. | .mutexUnlock .. => True
  | _ => False

variable [DecidableEq T]

theorem modTask_id (k : Kernel T O) (t : T) : k.modTask t (fun x => x) = k := by
  unfold Kernel.modTask
  rw [Function.update_eq_self]

/-! ## The lock of the scheduler -/

section Locked

/-- The kernel with another lock of the scheduler. -/
def Kernel.lockedAt (k : Kernel T O) (n : Nat) : Kernel T O :=
  { k with schedLock := n }

omit [DecidableEq T] in
theorem readyListAdd_lockedAt (k : Kernel T O) (t : T) (n : Nat) :
    (k.lockedAt n).readyListAdd t = (k.readyListAdd t).lockedAt n := by
  have hc : (k.lockedAt n).readyListAdd t
      = if (k.task t).prio = (k.task k.active).prio then (k.readyListAddTail t).lockedAt n
        else (k.readyListAddHead t).lockedAt n := rfl
  rw [hc]
  unfold Kernel.readyListAdd
  split_ifs
  · rfl
  · rfl

theorem tickListRm_lockedAt (k : Kernel T O) (t : T) (n : Nat) :
    (k.lockedAt n).tickListRm t = (k.tickListRm t).lockedAt n := by
  have hc : (k.lockedAt n).tickListRm t
      = if (k.task t).onTick = true then
          ({ k with tickHead := k.tickHead.erase t }.modTask t fun x =>
            { x with onTick := false }).lockedAt n
        else k.lockedAt n := rfl
  rw [hc]
  unfold Kernel.tickListRm
  split_ifs
  · rfl
  · rfl

/-- Tasks wake up alike, whether the scheduler is locked or not. -/
theorem pendTaskWakeup_lockedAt (k : Kernel T O) (t : T) (n : Nat) :
    (k.lockedAt n).pendTaskWakeup t = (k.pendTaskWakeup t).lockedAt n := by
  unfold Kernel.pendTaskWakeup Kernel.pendEnd
  have hstate : ((k.lockedAt n).task t).state = (k.task t).state := rfl
  have hrm : (k.lockedAt n).klistRm t = (k.klistRm t).lockedAt n := rfl
  have hhang : (k.lockedAt n).hang = k.hang.lockedAt n := rfl
  have hmod : ∀ (k : Kernel T O) (f : Ktask O → Ktask O),
      (k.lockedAt n).modTask t f = (k.modTask t f).lockedAt n := fun _ _ => rfl
  cases hs : (k.task t).state with
  | pend =>
      simp only [hstate, hs, hrm, readyListAdd_lockedAt, hmod, tickListRm_lockedAt]
  | pendSuspended => simp only [hstate, hs, hrm, hmod, tickListRm_lockedAt]
  | _ => simp only [hstate, hs, hhang, hmod, tickListRm_lockedAt]

end Locked

/-! ## The effects -/

/-- A task is created. -/
def Kernel.created (k : Kernel T O) (t : T) (prio ticks : Nat) (autorun isStatic : Bool) :
    Kernel T O :=
  let k := if prio = idlePri then { k with idleSpawned := true } else k
  let k := k.modTask t fun _ => Kernel.freshTask prio ticks autorun isStatic
  if autorun = true then k.readyListAddTail t else k

/-- The active task goes to sleep. -/
def Kernel.asleep (k : Kernel T O) (ticks : Nat) : Kernel T O :=
  ((k.modTask k.active fun x => { x with state := .sleep }).tickListInsert k.active
    ticks).readyListRm k.active

/-- Tasks wake up, each changed by `f` first. -/
def Kernel.wakeAll (k : Kernel T O) (f : Ktask O → Ktask O) (l : List T) : Kernel T O :=
  l.foldl (fun k t => (k.modTask t f).pendTaskWakeup t) k

theorem wakeAll_id (k : Kernel T O) (l : List T) :
    k.wakeAll (fun x => x) l = l.foldl Kernel.pendTaskWakeup k := by
  unfold Kernel.wakeAll
  simp only [modTask_id]

variable [DecidableEq O]

/-- Something is given to an object: it is kept, or handed to tasks that wait. -/
inductive Gives (k : Kernel T O) (o : O) : Kernel T O → Prop where
  | keep {f : Kobj T O → Kobj T O} (hm : (k.obj o).objType ≠ .mutex)
      (hf : Restocked (k.obj o) (f (k.obj o))) (hblk : (k.obj o).blkList = []) :
      Gives k o (k.modObj o f)
  | wake {l : List T} {f : Ktask O → Ktask O} (hm : (k.obj o).objType ≠ .mutex)
      (hl : l ⊆ (k.obj o).blkList) (hf : ∀ x, Calm x (f x)) : Gives k o (k.wakeAll f l)

/-- What a call can do that has nothing to do with mutexes, priorities or the tasks
    there are. -/
inductive Plain (k : Kernel T O) : Call T O → Option Kstat → Bool → Kernel T O → Prop where
  | refused {c : Call T O} {st : Kstat} (hs : st ≠ .success) (hn : st ≠ .mutexOwnerNested) :
      Plain k c (some st) false k
  | hangs {c : Call T O} {st : Kstat} : Plain k c (some st) false k.hang
  | sleep {ticks : Nat} (hn : k.intrptNested = 0) (hl : k.schedLock = 0) :
      Plain k (.taskSleep ticks) none true (k.asleep ticks)
  | yield (hn : k.intrptNested = 0) :
      Plain k .taskYield (some .success) true (k.readyListHeadToTail k.active)
  | suspend {t : T} (hs : (k.task t).state = .rdy) (ht : (k.task t).prio ≠ idlePri)
      (ha : t = k.active → k.schedLock = 0) :
      Plain k (.taskSuspend t) (some .success) true
        ((k.modTask t fun x => { x with suspendCount := 1, state := .suspended }).readyListRm t)
  | restate {c : Call T O} {t : T} {n : Nat} {s : TaskState} (hc : ¬c.locks)
      (hs : Shift (k.task t).state s) :
      Plain k c (some .success) true
        (k.modTask t fun x => { x with suspendCount := n, state := s })
  | resume {t : T} (hs : (k.task t).state = .suspended) :
      Plain k (.taskResume t) (some .success) true
        ((k.modTask t fun x => { x with suspendCount := 0, state := .rdy }).readyListAdd t)
  | adjust {c : Call T O} {t : T} {f : Ktask O → Ktask O} (hc : ¬c.locks)
      (hf : Calm (k.task t) (f (k.task t))) : Plain k c (some .success) false (k.modTask t f)
  | schedLock {c : Call T O} {st : Kstat} {n : Nat} {b : Bool} (hc : ¬c.locks)
      (hn : k.intrptNested = 0) : Plain k c (some st) b { k with schedLock := n }
  | objCreate {c : Call T O} {o : O} {f : Kobj T O → Kobj T O} (hc : ¬c.locks)
      (hnew : (k.obj o).objType = .noType) (hblk : (f (k.obj o)).blkList = [])
      (howner : (f (k.obj o)).mutexTask = none ∨
        (f (k.obj o)).mutexTask = (k.obj o).mutexTask ∧ (f (k.obj o)).objType ≠ .mutex) :
      Plain k c (some .success) false (k.modObj o f)
  | objDel {c : Call T O} {o : O} {f : Kobj T O → Kobj T O} (hc : ¬c.locks)
      (hm : (k.obj o).objType ≠ .mutex) (hf : ∀ x, Restocked x (f x)) :
      Plain k c (some .success) true
        (((k.obj o).blkList.foldl Kernel.pendTaskRm
          (k.modObj o fun x => { x with objType := .noType })).modObj o f)
  | stock {c : Call T O} {o : O} {f : Kobj T O → Kobj T O} (hc : ¬c.locks)
      (hm : (k.obj o).objType ≠ .mutex) (hf : Restocked (k.obj o) (f (k.obj o)))
      (hstock : (k.obj o).blkList = [] ∨ ∀ y, Starved (k.obj o) y → Starved (f (k.obj o)) y) :
      Plain k c (some .success) false (k.modObj o f)
  | give {c : Call T O} {o : O} {g : Kernel T O} {b : Bool} (hc : ¬c.locks) (hg : Gives k o g) :
      Plain k c (some .success) b g
  | eventSet {o : O} {flags : BitVec 32} (ho : (k.obj o).objType = .event) :
      Plain k (.eventSet o flags false) (some .success) true
        ((k.obj o).blkList.foldl (Kernel.eventWake o ((k.obj o).flags ||| flags))
          (k.modObj o fun x => { x with flags := (k.obj o).flags ||| flags }))
  | wait {c : Call T O} {o : O} {f : Ktask O → Ktask O} {ticks : Nat} (hc : ¬c.locks)
      (hb : Kernel.beforeStart c = false) (hn : k.intrptNested = 0) (hl : k.schedLock = 0)
      (hm : (k.obj o).objType ≠ .mutex) (hstarved : Starved (k.obj o) (f (k.task k.active)))
      (hf : Still (k.task k.active) (f (k.task k.active))) (htime : c.timeout = some ticks) :
      Plain k c none true ((k.modTask k.active f).pendToBlkObj o k.active ticks)

variable [Fintype T] [Fintype O]

/-- A task is deleted, or was before. -/
def Kernel.ended (k : Kernel T O) (t : T) : Kernel T O :=
  ((k.taskMutexFree t).taskEnd t).getD (k.taskMutexFree t)

/-- A mutex is deleted, and its owner may lose a priority. -/
def Kernel.mutexGone (k : Kernel T O) (o : O) : Kernel T O :=
  let k := k.modObj o fun x => { x with objType := .noType }
  match (k.obj o).mutexTask with
  | some w => k.mutexRelease w (some o)
  | none => k

/-- The owner's priority follows that of the active task, which then waits. -/
def Kernel.lockWait (k : Kernel T O) (o : O) (w : T) (ticks : Nat) : Kernel T O :=
  (if (k.task k.active).prio < (k.task w).prio then
      (k.taskPriChange w (k.task k.active).prio).2
    else k).pendToBlkObj o k.active ticks

/-- The last unlock of a mutex. -/
def Kernel.unlocked (k : Kernel T O) (o : O) : Kernel T O :=
  let k := (k.modObj o fun x => { x with ownerNested := 0 }).mutexRelease k.active (some o)
  match (k.obj o).blkList with
  | [] => k.modObj o fun x => { x with mutexTask := none }
  | u :: _ =>
      ((k.pendTaskWakeup u).giveMutex o u).modObj o fun x => { x with ownerNested := 1 }

omit [DecidableEq O] [Fintype T] [Fintype O] in
/-- The task a call deletes, once past its tests. -/
def Kernel.deletes (k : Kernel T O) : Call T O → Option T
  | .taskDel task =>
      let t := task.getD k.active
      if k.intrptNested > 0 ∨ (k.task t).prio = idlePri ∨ (k.task t).isStatic = false ∨
          t = k.active ∧ k.schedLock > 0 then none
      else some t
  | .taskDynDel task =>
      let t := task.getD k.active
      if k.intrptNested > 0 ∨ (k.task t).prio = idlePri ∨ (k.task t).isStatic = true ∨
          t = k.active ∧ k.schedLock > 0 ∨ (k.task t).state = .deleted then none
      else some t
  | _ => none

/-- What a call can do. -/
inductive Effect (k : Kernel T O) : Call T O → Option Kstat → Bool → Kernel T O → Prop where
  | plain {c : Call T O} {st : Option Kstat} {b : Bool} {k' : Kernel T O}
      (h : Plain k c st b k') : Effect k c st b k'
  | create {t : T} {prio ticks : Nat} {autorun isStatic b : Bool}
      (hnew : (k.task t).state = .seed ∨ (k.task t).state = .deleted) (hprio : prio < priMax) :
      Effect k (.taskCreate t prio ticks autorun isStatic) (some .success) b
        (k.created t prio ticks autorun isStatic)
  | priChange {t : T} {pri limit : Nat} (ht : (k.task t).prio < idlePri) (hpri : pri < idlePri)
      (hs : (k.task t).state ≠ .deleted) (hlimit : k.mutexPriLimit t pri = some limit) {b : Bool} :
      Effect k (.taskPriChange t pri)
        (some ((k.modTask t fun x => { x with bPrio := pri }).taskPriChange t limit).1) b
        ((k.modTask t fun x => { x with bPrio := pri }).taskPriChange t limit).2
  | taskDel {task : Option T} {st : Kstat} (hn : k.intrptNested = 0)
      (ht : (k.task (task.getD k.active)).prio ≠ idlePri)
      (ha : task.getD k.active = k.active → k.schedLock = 0)
      (hd : k.deletes (.taskDel task) = some (task.getD k.active)) :
      Effect k (.taskDel task) (some st)
        ((k.taskMutexFree (task.getD k.active)).taskEnd (task.getD k.active)).isSome
        (k.ended (task.getD k.active))
  | taskDynDel {task : Option T} {g : Kernel T O} (hn : k.intrptNested = 0)
      (ht : (k.task (task.getD k.active)).prio ≠ idlePri)
      (ha : task.getD k.active = k.active → k.schedLock = 0)
      (hs : (k.task (task.getD k.active)).state ≠ .deleted)
      (hd : k.deletes (.taskDynDel task) = some (task.getD k.active)) (hg : Gives k k.resSem g) :
      Effect k (.taskDynDel task) (some .success) true (g.ended (task.getD k.active))
  | mutexDel {o : O} {isStatic : Bool} (hm : (k.obj o).objType = .mutex) :
      Effect k (.mutexDel o isStatic) (some .success) true
        (((k.mutexGone o).obj o).blkList.foldl Kernel.pendTaskRm (k.mutexGone o))
  | lockNested {o : O} {ticks : Nat} (hn : k.intrptNested = 0) (hm : (k.obj o).objType = .mutex)
      (ho : (k.obj o).mutexTask = some k.active) (hov : (k.obj o).ownerNested ≠ 2 ^ 32 - 1) :
      Effect k (.mutexLock o ticks) (some .mutexOwnerNested) false
        (k.modObj o fun x => { x with ownerNested := x.ownerNested + 1 })
  | lockFree {o : O} {ticks : Nat} (hn : k.intrptNested = 0) (hm : (k.obj o).objType = .mutex)
      (ho : (k.obj o).mutexTask = none) :
      Effect k (.mutexLock o ticks) (some .success) false
        ((k.giveMutex o k.active).modObj o fun x => { x with ownerNested := 1 })
  | lockWait {o : O} {w : T} {ticks : Nat} (hn : k.intrptNested = 0) (hl : k.schedLock = 0)
      (hm : (k.obj o).objType = .mutex) (ho : (k.obj o).mutexTask = some w) (hw : w ≠ k.active) :
      Effect k (.mutexLock o ticks) none true (k.lockWait o w ticks)
  | unlockNested {o : O} {n : Nat} (hn : k.intrptNested = 0) (hm : (k.obj o).objType = .mutex)
      (ho : (k.obj o).mutexTask = some k.active)
      (hnest : ((k.obj o).ownerNested + 2 ^ 32 - 1) % 2 ^ 32 = n) (hpos : n > 0) :
      Effect k (.mutexUnlock o) (some .mutexOwnerNested) false
        (k.modObj o fun x => { x with ownerNested := n })
  | unlock {o : O} {b : Bool} (hn : k.intrptNested = 0) (hm : (k.obj o).objType = .mutex)
      (ho : (k.obj o).mutexTask = some k.active)
      (hnest : ((k.obj o).ownerNested + 2 ^ 32 - 1) % 2 ^ 32 = 0) :
      Effect k (.mutexUnlock o) (some .success) b (k.unlocked o)

/-- A call has this effect, and the choice of the next task may follow. -/
def HasEffect (k : Kernel T O) (c : Call T O) (r : Ret T O) : Prop :=
  ∃ b k', Effect k c r.1 b k' ∧ r.2 = if b = true then k'.coreSched else k'

namespace HasEffect

variable {k k' : Kernel T O} {c : Call T O} {st : Kstat}

theorem refused (hs : st ≠ .success) (hn : st ≠ .mutexOwnerNested) : HasEffect k c (k.ret st) :=
  ⟨false, k, .plain (.refused hs hn), rfl⟩

/-- A test that turns the call away, and what follows it. -/
theorem guard {p : Prop} [Decidable p] {r : Ret T O} (hs : st ≠ .success)
    (hn : st ≠ .mutexOwnerNested) (h : ¬p → HasEffect k c r) :
    HasEffect k c (if p then k.ret st else r) := by
  by_cases hp : p
  · rw [if_pos hp]
    exact refused hs hn
  · rw [if_neg hp]
    exact h hp

theorem done (h : Effect k c (some st) false k') : HasEffect k c (k'.ret st) :=
  ⟨false, k', h, rfl⟩

theorem sched (h : Effect k c (some st) true k') : HasEffect k c (k'.coreSched.ret st) :=
  ⟨true, k', h, rfl⟩

theorem waits (h : Effect k c none true k') : HasEffect k c (none, k'.coreSched) :=
  ⟨true, k', h, rfl⟩

theorem kept (h : Plain k c (some st) false k') : HasEffect k c (k'.ret st) :=
  .done (.plain h)

theorem plainSched (h : Plain k c (some st) true k') : HasEffect k c (k'.coreSched.ret st) :=
  .sched (.plain h)

theorem plainWaits (h : Plain k c none true k') : HasEffect k c (none, k'.coreSched) :=
  .waits (.plain h)

end HasEffect

/-! ## Tasks -/

section Tasks

variable (k : Kernel T O)

theorem taskCreate_effect (t : T) (prio ticks : Nat) (autorun isStatic : Bool)
    (hnew : (k.task t).state = .seed ∨ (k.task t).state = .deleted) :
    HasEffect k (.taskCreate t prio ticks autorun isStatic)
      (k.taskCreate t prio ticks autorun isStatic) := by
  unfold Kernel.taskCreate
  refine .guard (by simp) (by simp) fun hp => ?_
  refine .guard (by simp) (by simp) fun _ => ?_
  refine .guard (by simp) (by simp) fun _ => ?_
  have hcreate : ∀ b, Effect k (.taskCreate t prio ticks autorun isStatic) (some .success) b
      (k.created t prio ticks autorun isStatic) := fun b => .create hnew (not_le.mp hp)
  cases autorun with
  | false => exact .done (hcreate false)
  | true =>
      by_cases hrun : (k.created t prio ticks true isStatic).running = true
      · exact ⟨true, _, hcreate true, if_pos hrun⟩
      · exact ⟨false, _, hcreate false, if_neg hrun⟩

theorem taskSleep_effect (ticks : Nat) : HasEffect k (.taskSleep ticks) (k.taskSleep ticks) := by
  unfold Kernel.taskSleep
  refine .guard (by simp) (by simp) fun _ => ?_
  refine .guard (by simp) (by simp) fun hn => ?_
  refine .guard (by simp) (by simp) fun hl => ?_
  exact .plainWaits (.sleep (Nat.eq_zero_of_not_pos hn) (Nat.eq_zero_of_not_pos hl))

theorem taskSuspend_effect (t : T) : HasEffect k (.taskSuspend t) (k.taskSuspend t) := by
  have hlocks : ¬(Call.taskSuspend t : Call T O).locks := id
  -- A task that is suspended already only counts one suspension more.
  have hcount : Shift (k.task t).state (k.task t).state → HasEffect k (.taskSuspend t)
      (if (k.task t).suspendCount = 2 ^ 8 - 1 then k.ret .suspendedCountOvf
        else (k.modTask t fun x =>
          { x with suspendCount := x.suspendCount + 1 }).coreSched.ret .success) := by
    intro hshift
    exact .guard (by simp) (by simp) fun _ =>
      .plainSched (.restate (n := (k.task t).suspendCount + 1) hlocks hshift)
  unfold Kernel.taskSuspend
  refine .guard (by simp) (by simp) fun ht => ?_
  unfold Kernel.doSuspend
  refine .guard (by simp) (by simp) fun ha => ?_
  cases hs : (k.task t).state with
  | rdy =>
      refine .plainSched (.suspend hs ht ?_)
      intro hact
      by_contra hl
      exact ha ⟨hact, Nat.pos_of_ne_zero hl⟩
  | sleep => exact .plainSched (.restate hlocks (hs ▸ .sleep))
  | pend => exact .plainSched (.restate hlocks (hs ▸ .pend))
  | suspended => exact hcount (hs ▸ .suspended)
  | sleepSuspended => exact hcount (hs ▸ .sleepSuspended)
  | pendSuspended => exact hcount (hs ▸ .pendSuspended)
  | seed => exact .refused (by simp) (by simp)
  | deleted => exact .refused (by simp) (by simp)

theorem taskResume_effect (t : T) : HasEffect k (.taskResume t) (k.taskResume t) := by
  have hlocks : ¬(Call.taskResume t : Call T O).locks := id
  have hless : ∀ s, Shift (k.task t).state s → Shift (k.task t).state (k.task t).state →
      HasEffect k (.taskResume t) ((k.lessSuspended t s).coreSched.ret .success) := by
    intro s hs hself
    rcases lessSuspended_eq k t s with ⟨n, ⟨-, he⟩ | ⟨-, he⟩⟩
    · rw [he]
      exact .plainSched (.restate hlocks hs)
    · rw [he]
      exact .plainSched (.restate hlocks hself)
  unfold Kernel.taskResume
  cases hs : (k.task t).state with
  | rdy | sleep | pend | seed | deleted => exact .refused (by simp) (by simp)
  | suspended =>
      dsimp only
      rcases lessSuspended_eq k t .rdy with ⟨n, ⟨hn, he⟩ | ⟨hn, he⟩⟩
      · subst hn
        rw [he, if_pos (by simp [Kernel.modTask])]
        exact .plainSched (.resume hs)
      · rw [he, if_neg (by simpa [Kernel.modTask] using hn)]
        exact .plainSched (.restate hlocks (hs ▸ .suspended))
  | sleepSuspended => exact hless .sleep (hs ▸ .wake) (hs ▸ .sleepSuspended)
  | pendSuspended => exact hless .pend (hs ▸ .unpend) (hs ▸ .pendSuspended)

theorem taskTimeSliceSet_effect (t : T) (slice : Nat) :
    HasEffect k (.taskTimeSliceSet t slice) (k.taskTimeSliceSet t slice) := by
  unfold Kernel.taskTimeSliceSet
  refine .guard (by simp) (by simp) fun _ => ?_
  exact .kept (.adjust id ⟨⟨⟨rfl, rfl, rfl, rfl⟩, rfl, rfl, rfl⟩, rfl, rfl, rfl⟩)

theorem schedPolicySet_effect (t : T) (rr : Bool) :
    HasEffect k (.schedPolicySet t rr) (k.schedPolicySet t rr) := by
  unfold Kernel.schedPolicySet
  refine .guard (by simp) (by simp) fun _ => ?_
  exact .kept (.adjust id ⟨⟨⟨rfl, rfl, rfl, rfl⟩, rfl, rfl, rfl⟩, rfl, rfl, rfl⟩)

theorem schedDisable_effect : HasEffect k .schedDisable k.schedDisable := by
  unfold Kernel.schedDisable
  refine .guard (by simp) (by simp) fun hn => ?_
  refine .guard (by simp) (by simp) fun _ => ?_
  exact .kept (.schedLock id (Nat.eq_zero_of_not_pos hn))

theorem schedEnable_effect : HasEffect k .schedEnable k.schedEnable := by
  unfold Kernel.schedEnable
  refine .guard (by simp) (by simp) fun hn => ?_
  refine .guard (by simp) (by simp) fun _ => ?_
  have hlock : ∀ st b, Plain k .schedEnable (some st) b { k with schedLock := k.schedLock - 1 } :=
    fun st b => .schedLock id (Nat.eq_zero_of_not_pos hn)
  dsimp only
  split_ifs
  · exact .kept (hlock _ false)
  · exact .plainSched (hlock _ true)

theorem priChange_effect (t : T) (pri : Nat) :
    HasEffect k (.taskPriChange t pri) (k.priChange t pri) := by
  unfold Kernel.priChange
  refine .guard (by simp) (by simp) fun ht => ?_
  refine .guard (by simp) (by simp) fun hpri => ?_
  refine .guard (by simp) (by simp) fun hs => ?_
  refine .guard (by simp) (by simp) fun _ => ?_
  cases hlimit : k.mutexPriLimit t pri with
  | none => exact .kept .hangs
  | some limit =>
      have heff : ∀ b, Effect k (.taskPriChange t pri)
          (some ((k.modTask t fun x => { x with bPrio := pri }).taskPriChange t limit).1) b
          ((k.modTask t fun x => { x with bPrio := pri }).taskPriChange t limit).2 :=
        fun b => .priChange (not_le.mp ht) (not_le.mp hpri) hs hlimit
      dsimp only
      generalize (k.modTask t fun x => { x with bPrio := pri }).taskPriChange t limit = p at heff
      rcases p with ⟨st, k'⟩
      by_cases hst : st ≠ .success
      · rw [if_pos hst]
        exact .done (heff false)
      · rw [if_neg hst]
        rw [not_not] at hst
        subst hst
        exact .sched (heff true)

theorem taskDel_effect (task : Option T) : HasEffect k (.taskDel task) (k.taskDel task) := by
  unfold Kernel.taskDel
  refine .guard (by simp) (by simp) fun hn => ?_
  refine .guard (by simp) (by simp) fun ht => ?_
  refine .guard (by simp) (by simp) fun hst => ?_
  refine .guard (by simp) (by simp) fun ha => ?_
  have heff : ∀ st, Effect k (.taskDel task) (some st)
      ((k.taskMutexFree (task.getD k.active)).taskEnd (task.getD k.active)).isSome
      (k.ended (task.getD k.active)) := by
    intro st
    refine .taskDel (Nat.eq_zero_of_not_pos hn) ht ?_ (if_neg ?_)
    · intro hact
      by_contra hl
      exact ha ⟨hact, Nat.pos_of_ne_zero hl⟩
    · rintro (hc | hc | hc | hc)
      · exact hn hc
      · exact ht hc
      · exact hst hc
      · exact ha hc
  unfold Kernel.ended at heff
  dsimp only
  cases hend : (k.taskMutexFree (task.getD k.active)).taskEnd (task.getD k.active) with
  | none =>
      rw [hend] at heff
      exact .done (heff _)
  | some k' =>
      rw [hend] at heff
      exact .sched (heff _)

end Tasks

/-! ## Objects -/

section Objects

variable (k : Kernel T O)

theorem objDel_effect {c : Call T O} {o : O} {type : ObjType} {f : Kobj T O → Kobj T O}
    (hc : ¬c.locks) (hm : type ≠ .mutex) (hf : ∀ x, Restocked x (f x)) (isStatic : Bool) :
    HasEffect k c (k.objDel o type isStatic f) := by
  unfold Kernel.objDel
  refine .guard (by simp) (by simp) fun _ => ?_
  refine .guard (by simp) (by simp) fun ho => ?_
  refine .guard (by simp) (by simp) fun _ => ?_
  rw [not_not] at ho
  dsimp only
  have hblk : ((k.modObj o fun x => { x with objType := .noType }).obj o).blkList
      = (k.obj o).blkList := by
    simp [Kernel.modObj]
  rw [hblk]
  exact .plainSched (.objDel hc (ho ▸ hm) hf)

theorem semGive_effect (o : O) (wakeAll : Bool) :
    HasEffect k (.semGive o wakeAll) (k.semGive o wakeAll) := by
  unfold Kernel.semGive
  refine .guard (by simp) (by simp) fun ho => ?_
  rw [not_not] at ho
  have hm : (k.obj o).objType ≠ .mutex := by simp [ho]
  cases hblk : (k.obj o).blkList with
  | nil =>
      refine .guard (by simp) (by simp) fun _ => ?_
      exact .kept (.give id (.keep hm ⟨rfl, rfl, rfl⟩ hblk))
  | cons t rest =>
      have hwake : ∀ l, l ⊆ (k.obj o).blkList → Plain k (.semGive o wakeAll) (some .success) true
          (l.foldl Kernel.pendTaskWakeup k) := by
        intro l hl
        rw [← wakeAll_id]
        exact .give id (.wake hm hl fun x => ⟨⟨.refl x, rfl, rfl, rfl⟩, rfl, rfl, rfl⟩)
      dsimp only
      split_ifs
      · exact .plainSched (hwake _ (by rw [hblk]; exact List.Subset.refl _))
      · exact .plainSched (hwake [t] (by rw [hblk]; simp))

theorem semTake_effect (o : O) (ticks : Nat) :
    HasEffect k (.semTake o ticks) (k.semTake o ticks) := by
  unfold Kernel.semTake
  refine .guard (by simp) (by simp) fun hn => ?_
  refine .guard (by simp) (by simp) fun ho => ?_
  rw [not_not] at ho
  have hm : (k.obj o).objType ≠ .mutex := by simp [ho]
  by_cases hcount : (k.obj o).count > 0
  · rw [if_pos hcount]
    refine .kept (.stock id hm ⟨rfl, rfl, rfl⟩ (.inr ?_))
    intro y hy
    rw [starved_sem ho] at hy
    omega
  · rw [if_neg hcount]
    refine .guard (by simp) (by simp) fun _ => ?_
    refine .guard (by simp) (by simp) fun hl => ?_
    have hwait : Plain k (.semTake o ticks) none true
        ((k.modTask k.active fun x => x).pendToBlkObj o k.active ticks) :=
      .wait id rfl (Nat.eq_zero_of_not_pos hn) (Nat.eq_zero_of_not_pos hl) hm
        ((starved_sem ho).mpr (Nat.eq_zero_of_not_pos hcount)) ⟨.refl _, rfl, rfl, rfl⟩ rfl
    rw [modTask_id] at hwait
    exact .plainWaits hwait

theorem semCountSet_effect (o : O) (count : Nat) :
    HasEffect k (.semCountSet o count) (k.semCountSet o count) := by
  unfold Kernel.semCountSet
  refine .guard (by simp) (by simp) fun _ => ?_
  refine .guard (by simp) (by simp) fun ho => ?_
  refine .guard (by simp) (by simp) fun hw => ?_
  rw [not_not] at ho
  refine .kept (.stock id (by simp [ho]) ⟨rfl, rfl, rfl⟩ ?_)
  by_cases hblk : (k.obj o).blkList = []
  · exact .inl hblk
  · refine .inr ?_
    intro y hy
    exact absurd ⟨(starved_sem ho).mp hy, hblk⟩ hw

omit [Fintype T] [Fintype O] in
/-- A semaphore that cannot be given stays as it is. -/
theorem semGive_refused (o : O) (h : (k.semGive o false).1 ≠ some .success) :
    (k.semGive o false).2 = k := by
  unfold Kernel.semGive at h ⊢
  by_cases ho : (k.obj o).objType ≠ .sem
  · rw [if_pos ho]
    rfl
  · rw [if_neg ho] at h ⊢
    cases hblk : (k.obj o).blkList with
    | nil =>
        rw [hblk] at h
        dsimp only at h ⊢
        by_cases hov : (k.obj o).count = 2 ^ 32 - 1
        · rw [if_pos hov]
          rfl
        · rw [if_neg hov] at h
          exact absurd rfl h
    | cons t rest =>
        rw [hblk] at h
        exact absurd rfl h

omit [Fintype T] [Fintype O] in
/-- What wakes the task that frees the memory, while the scheduler is locked. -/
theorem semGive_locked (o : O)
    (hgive : ((k.lockedAt (k.schedLock + 1)).semGive o false).1 = some .success) :
    Gives k o (((k.lockedAt (k.schedLock + 1)).semGive o false).2.lockedAt k.schedLock) := by
  unfold Kernel.semGive at hgive ⊢
  have hobj : (k.lockedAt (k.schedLock + 1)).obj o = k.obj o := rfl
  rw [hobj] at hgive ⊢
  by_cases ho : (k.obj o).objType ≠ .sem
  · rw [if_pos ho] at hgive
    cases hgive
  · rw [if_neg ho] at hgive ⊢
    rw [not_not] at ho
    have hm : (k.obj o).objType ≠ .mutex := by simp [ho]
    cases hblk : (k.obj o).blkList with
    | nil =>
        rw [hblk] at hgive
        dsimp only at hgive ⊢
        by_cases hov : (k.obj o).count = 2 ^ 32 - 1
        · rw [if_pos hov] at hgive
          cases hgive
        · rw [if_neg hov]
          have hkeep : Gives k o (k.modObj o fun x => { x with
              count := x.count + 1, peakCount := max x.peakCount (x.count + 1) }) :=
            .keep hm ⟨rfl, rfl, rfl⟩ hblk
          exact hkeep
    | cons t rest =>
        have hwake : Gives k o (k.wakeAll (fun x => x) [t]) :=
          .wake hm (by rw [hblk]; simp) fun x => ⟨⟨.refl x, rfl, rfl, rfl⟩, rfl, rfl, rfl⟩
        rw [wakeAll_id] at hwake
        -- The lock keeps the scheduler from choosing.
        have hlocked : (((k.pendTaskWakeup t).lockedAt (k.schedLock + 1)).coreSched).lockedAt
            k.schedLock = k.pendTaskWakeup t := by
          have hsame : (k.pendTaskWakeup t).schedLock = k.schedLock := by
            have hself : ((k.lockedAt k.schedLock).pendTaskWakeup t).schedLock = k.schedLock := by
              rw [pendTaskWakeup_lockedAt]
              rfl
            exact hself
          have hsched : ((k.pendTaskWakeup t).lockedAt (k.schedLock + 1)).coreSched
              = (k.pendTaskWakeup t).lockedAt (k.schedLock + 1) := by
            unfold Kernel.coreSched
            split_ifs with _ hl
            · rfl
            · rfl
            · exact absurd (Nat.succ_pos k.schedLock) hl
          rw [hsched, ← hsame]
          rfl
        dsimp only
        rw [if_neg (by simp), pendTaskWakeup_lockedAt]
        unfold Kernel.ret
        dsimp only
        rw [hlocked]
        exact hwake

theorem taskDynDel_effect (task : Option T) :
    HasEffect k (.taskDynDel task) (k.taskDynDel task) := by
  unfold Kernel.taskDynDel
  refine .guard (by simp) (by simp) fun hn => ?_
  refine .guard (by simp) (by simp) fun ht => ?_
  refine .guard (by simp) (by simp) fun hstatic => ?_
  refine .guard (by simp) (by simp) fun ha => ?_
  refine .guard (by simp) (by simp) fun hs => ?_
  have hform : ∀ g : Ret T O, g = (k.lockedAt (k.schedLock + 1)).semGive k.resSem false →
      HasEffect k (.taskDynDel task)
        (if g.1 ≠ some .success then (g.2.lockedAt k.schedLock).hang.ret .success
          else ((g.2.lockedAt k.schedLock).ended (task.getD k.active)).coreSched.ret .success) := by
    intro g hg
    by_cases hst : g.1 ≠ some .success
    · rw [if_pos hst]
      have hsame := semGive_refused (k.lockedAt (k.schedLock + 1)) k.resSem (hg ▸ hst)
      rw [hg, hsame]
      exact .kept .hangs
    · rw [if_neg hst]
      rw [not_not] at hst
      have hgive := semGive_locked k k.resSem (hg ▸ hst)
      rw [← hg] at hgive
      refine .sched (.taskDynDel (Nat.eq_zero_of_not_pos hn) ht ?_ hs (if_neg ?_) hgive)
      · intro hact
        by_contra hl
        exact ha ⟨hact, Nat.pos_of_ne_zero hl⟩
      · rintro (hc | hc | hc | hc | hc)
        · exact hn hc
        · exact ht hc
        · exact hstatic hc
        · exact ha hc
        · exact hs hc
  exact hform _ rfl

/-- The active task waits for an object. -/
theorem HasEffect.wait {c : Call T O} {o : O} {f : Ktask O → Ktask O} {ticks : Nat} (hc : ¬c.locks)
    (hb : Kernel.beforeStart c = false) (hn : ¬k.intrptNested > 0) (hl : ¬k.schedLock > 0)
    (hm : (k.obj o).objType ≠ .mutex) (hstarved : Starved (k.obj o) (f (k.task k.active)))
    (hf : Still (k.task k.active) (f (k.task k.active))) (htime : c.timeout = some ticks) :
    HasEffect k c (none, ((k.modTask k.active f).pendToBlkObj o k.active ticks).coreSched) :=
  .plainWaits (.wait hc hb (Nat.eq_zero_of_not_pos hn) (Nat.eq_zero_of_not_pos hl) hm hstarved hf
    htime)

theorem queueSend_effect (o : O) (msg : Nat → UInt8) (wakeAll : Bool) :
    HasEffect k (.queueSend o msg wakeAll) (k.queueSend o msg wakeAll) := by
  unfold Kernel.queueSend
  refine .guard (by simp) (by simp) fun ho => ?_
  refine .guard (by simp) (by simp) fun _ => ?_
  rw [not_not] at ho
  have hm : (k.obj o).objType ≠ .mutex := by simp [ho]
  cases hblk : (k.obj o).blkList with
  | nil => exact .kept (.give id (.keep hm ⟨rfl, rfl, rfl⟩ hblk))
  | cons t rest =>
      have hwake : ∀ l, l ⊆ (k.obj o).blkList →
          Plain k (.queueSend o msg wakeAll) (some .success) true
            (l.foldl (Kernel.taskMsgRecv msg) k) :=
        fun l hl => .give id (.wake hm hl fun x =>
          ⟨⟨⟨rfl, rfl, rfl, rfl⟩, rfl, rfl, rfl⟩, rfl, rfl, rfl⟩)
      dsimp only
      split_ifs
      · exact .plainSched (hwake _ (by rw [hblk]; exact List.Subset.refl _))
      · exact .plainSched (hwake [t] (by rw [hblk]; simp))

theorem queueRecv_effect (o : O) (ticks : Nat) :
    HasEffect k (.queueRecv o ticks) (k.queueRecv o ticks) := by
  unfold Kernel.queueRecv
  refine .guard (by simp) (by simp) fun hn => ?_
  refine .guard (by simp) (by simp) fun ho => ?_
  rw [not_not] at ho
  have hm : (k.obj o).objType ≠ .mutex := by simp [ho]
  by_cases hnum : (k.obj o).curNum > 0
  · rw [if_pos hnum]
    refine .kept (.stock id hm ⟨rfl, rfl, rfl⟩ (.inr ?_))
    intro y hy
    rw [starved_queue ho] at hy
    omega
  · rw [if_neg hnum]
    refine .guard (by simp) (by simp) fun hticks => ?_
    refine .guard (by simp) (by simp) fun hl => ?_
    have hn' : ¬k.intrptNested > 0 := fun hpos => hn ⟨hpos, hticks⟩
    have hwait := @HasEffect.wait T O _ _ _ _ k (.queueRecv o ticks) o (fun x => x) ticks id rfl hn' hl hm
      ((starved_queue ho).mpr (Nat.eq_zero_of_not_pos hnum)) ⟨.refl _, rfl, rfl, rfl⟩ rfl
    rw [modTask_id] at hwait
    exact hwait

theorem queueFlush_effect (o : O) : HasEffect k (.queueFlush o) (k.queueFlush o) := by
  unfold Kernel.queueFlush
  refine .guard (by simp) (by simp) fun _ => ?_
  refine .guard (by simp) (by simp) fun ho => ?_
  rw [not_not] at ho
  refine .kept (.stock id (by simp [ho]) ⟨rfl, rfl, rfl⟩ (.inr ?_))
  intro y _
  refine (starved_queue ?_).mpr rfl
  exact ho

omit [DecidableEq T] [DecidableEq O] [Fintype T] [Fintype O] in
theorem push_status (r : Ringbuf) (data : Nat → UInt8) (len : Nat) :
    (r.push data len).1 ≠ .mutexOwnerNested := by
  unfold Ringbuf.push
  split_ifs
  · simp
  · cases r.type with
    | fix => simp
    | dyn =>
        dsimp only
        split_ifs
        · simp
        · simp
        · simp

theorem bufQueueSend_effect (o : O) (msg : Nat → UInt8) (size : Nat) :
    HasEffect k (.bufQueueSend o msg size) (k.bufQueueSend o msg size) := by
  unfold Kernel.bufQueueSend
  refine .guard (by simp) (by simp) fun ho => ?_
  refine .guard (by simp) (by simp) fun _ => ?_
  refine .guard (by simp) (by simp) fun _ => ?_
  rw [not_not] at ho
  have hm : (k.obj o).objType ≠ .mutex := by simp [ho]
  cases hblk : (k.obj o).blkList with
  | nil =>
      dsimp only
      by_cases hp : ((k.obj o).ringbuf.push msg size).1 ≠ .success
      · rw [if_pos hp]
        split_ifs
        · exact .refused (by simp) (by simp)
        · exact .refused hp (push_status _ msg size)
      · rw [if_neg hp]
        exact .kept (.give id (.keep hm ⟨rfl, rfl, rfl⟩ hblk))
  | cons t rest =>
      have hwake : Plain k (.bufQueueSend o msg size) (some .success) true
          (k.wakeAll (fun x => { x with msg := blit x.msg 0 msg 0 size, bqMsgSize := size }) [t]) :=
        .give id (.wake hm (by rw [hblk]; simp) fun x =>
          ⟨⟨⟨rfl, rfl, rfl, rfl⟩, rfl, rfl, rfl⟩, rfl, rfl, rfl⟩)
      exact .plainSched hwake

theorem bufQueueRecv_effect (o : O) (msg : Nat → UInt8) (ticks : Nat) :
    HasEffect k (.bufQueueRecv o msg ticks) (k.bufQueueRecv o msg ticks) := by
  unfold Kernel.bufQueueRecv
  refine .guard (by simp) (by simp) fun hn => ?_
  refine .guard (by simp) (by simp) fun ho => ?_
  rw [not_not] at ho
  have hm : (k.obj o).objType ≠ .mutex := by simp [ho]
  by_cases hempty : (k.obj o).ringbuf.isEmpty = false
  · rw [if_pos hempty]
    refine .kept (.stock id hm ⟨rfl, rfl, rfl⟩ (.inr ?_))
    intro y hy
    rw [starved_bufQueue ho, hempty] at hy
    cases hy
  · rw [if_neg hempty]
    refine .guard (by simp) (by simp) fun hticks => ?_
    refine .guard (by simp) (by simp) fun hl => ?_
    have hn' : ¬k.intrptNested > 0 := fun hpos => hn ⟨hpos, hticks⟩
    exact .wait k id rfl hn' hl hm ((starved_bufQueue ho).mpr (by simpa using hempty))
      ⟨⟨rfl, rfl, rfl, rfl⟩, rfl, rfl, rfl⟩ rfl

theorem bufQueueFlush_effect (o : O) : HasEffect k (.bufQueueFlush o) (k.bufQueueFlush o) := by
  unfold Kernel.bufQueueFlush
  refine .guard (by simp) (by simp) fun _ => ?_
  refine .guard (by simp) (by simp) fun ho => ?_
  rw [not_not] at ho
  refine .kept (.stock id (by simp [ho]) ⟨rfl, rfl, rfl⟩ (.inr ?_))
  intro y _
  refine (starved_bufQueue ?_).mpr ?_
  · exact ho
  · simp [Ringbuf.isEmpty, Ringbuf.reset]

/-! ## Events -/

omit [DecidableEq T] [DecidableEq O] [Fintype T] [Fintype O] in
/-- Fewer flags satisfy no more. -/
theorem eventMet_and {cur asked mask : BitVec 32} {opt : EventOpt}
    (h : eventMet (cur &&& mask) asked opt = true) : eventMet cur asked opt = true := by
  unfold eventMet at h ⊢
  by_cases hand : opt.and = true
  · rw [if_pos hand, decide_eq_true_eq] at h ⊢
    have hle : cur &&& mask &&& asked = asked := h
    calc cur &&& asked = cur &&& (cur &&& mask &&& asked) := by rw [hle]
      _ = cur &&& mask &&& asked := by
          rw [← BitVec.and_assoc, ← BitVec.and_assoc, BitVec.and_self]
      _ = asked := hle
  · rw [if_neg hand, decide_eq_true_eq] at h ⊢
    intro hzero
    apply h
    have hcomm : cur &&& mask &&& asked = cur &&& asked &&& mask := by
      rw [BitVec.and_assoc, BitVec.and_comm mask, ← BitVec.and_assoc]
    rw [hcomm, hzero, BitVec.zero_and]

omit [DecidableEq T] [DecidableEq O] [Fintype T] [Fintype O] in
theorem eventMet_and_false {cur asked mask : BitVec 32} {opt : EventOpt}
    (h : eventMet cur asked opt = false) : eventMet (cur &&& mask) asked opt = false := by
  by_contra hmet
  rw [eventMet_and (by simpa using hmet)] at h
  cases h

theorem eventGet_effect (o : O) (flags : BitVec 32) (opt : EventOpt) (ticks : Nat) :
    HasEffect k (.eventGet o flags opt ticks) (k.eventGet o flags opt ticks) := by
  unfold Kernel.eventGet
  refine .guard (by simp) (by simp) fun hn => ?_
  refine .guard (by simp) (by simp) fun ho => ?_
  rw [not_not] at ho
  have hm : (k.obj o).objType ≠ .mutex := by simp [ho]
  by_cases hmet : eventMet (k.obj o).flags flags opt = true
  · rw [if_pos hmet]
    split_ifs
    · refine .kept (.stock id hm ⟨rfl, rfl, rfl⟩ (.inr ?_))
      intro y hy
      refine (starved_event ?_).mpr (eventMet_and_false ((starved_event ho).mp hy))
      exact ho
    · have hsame : Plain k (.eventGet o flags opt ticks) (some .success) false
          (k.modObj o fun x => x) := .stock id hm ⟨rfl, rfl, rfl⟩ (.inr fun _ hy => hy)
      unfold Kernel.modObj at hsame
      rw [Function.update_eq_self] at hsame
      exact .kept hsame
  · rw [if_neg hmet]
    refine .guard (by simp) (by simp) fun _ => ?_
    refine .guard (by simp) (by simp) fun hl => ?_
    exact .wait k id rfl hn hl hm ((starved_event ho).mpr (by simpa using hmet))
      ⟨⟨rfl, rfl, rfl, rfl⟩, rfl, rfl, rfl⟩ rfl

theorem eventSet_effect (o : O) (flags : BitVec 32) (and : Bool) :
    HasEffect k (.eventSet o flags and) (k.eventSet o flags and) := by
  unfold Kernel.eventSet
  refine .guard (by simp) (by simp) fun ho => ?_
  rw [not_not] at ho
  cases and with
  | true =>
      refine .kept (.stock id (by simp [ho]) ⟨rfl, rfl, rfl⟩ (.inr ?_))
      intro y hy
      refine (starved_event ?_).mpr (eventMet_and_false ((starved_event ho).mp hy))
      exact ho
  | false =>
      have hset : Plain k (.eventSet o flags false) (some .success) true
          ((k.obj o).blkList.foldl (Kernel.eventWake o ((k.obj o).flags ||| flags))
            (k.modObj o fun x => { x with flags := (k.obj o).flags ||| flags })) := .eventSet ho
      have hblk : ((k.modObj o fun x =>
          { x with flags := (k.obj o).flags ||| flags }).obj o).blkList = (k.obj o).blkList := by
        simp [Kernel.modObj]
      dsimp only
      rw [if_neg (by simp), hblk]
      exact .plainSched hset

end Objects

/-! ## Mutexes -/

section Mutexes

variable (k : Kernel T O)

theorem mutexDel_effect (o : O) (isStatic : Bool) :
    HasEffect k (.mutexDel o isStatic) (k.mutexDel o isStatic) := by
  unfold Kernel.mutexDel
  refine .guard (by simp) (by simp) fun _ => ?_
  refine .guard (by simp) (by simp) fun ho => ?_
  refine .guard (by simp) (by simp) fun _ => ?_
  rw [not_not] at ho
  exact .sched (.mutexDel ho)

theorem mutexLock_effect (o : O) (ticks : Nat) :
    HasEffect k (.mutexLock o ticks) (k.mutexLock o ticks) := by
  unfold Kernel.mutexLock
  refine .guard (by simp) (by simp) fun hn => ?_
  refine .guard (by simp) (by simp) fun ho => ?_
  rw [not_not] at ho
  have hn' := Nat.eq_zero_of_not_pos hn
  by_cases hown : (k.obj o).mutexTask = some k.active
  · rw [if_pos hown]
    split_ifs with hov
    · exact .kept .hangs
    · exact .done (.lockNested hn' ho hown hov)
  · rw [if_neg hown]
    cases howner : (k.obj o).mutexTask with
    | none => exact .done (.lockFree hn' ho howner)
    | some w =>
        refine .guard (by simp) (by simp) fun _ => ?_
        refine .guard (by simp) (by simp) fun hl => ?_
        refine .waits (.lockWait hn' (Nat.eq_zero_of_not_pos hl) ho howner ?_)
        intro hw
        exact hown (hw ▸ howner)

theorem mutexUnlock_effect (o : O) : HasEffect k (.mutexUnlock o) (k.mutexUnlock o) := by
  unfold Kernel.mutexUnlock
  refine .guard (by simp) (by simp) fun hn => ?_
  refine .guard (by simp) (by simp) fun ho => ?_
  refine .guard (by simp) (by simp) fun howner => ?_
  rw [not_not] at ho howner
  have hn' := Nat.eq_zero_of_not_pos hn
  dsimp only
  generalize hnest : ((k.obj o).ownerNested + 2 ^ 32 - 1) % 2 ^ 32 = n
  by_cases hpos : n > 0
  · rw [if_pos hpos]
    exact .done (.unlockNested hn' ho howner hnest hpos)
  · rw [if_neg hpos]
    have hzero : n = 0 := Nat.eq_zero_of_not_pos hpos
    subst hzero
    have hunlock : ∀ b, Effect k (.mutexUnlock o) (some .success) b (k.unlocked o) :=
      fun b => .unlock hn' ho howner hnest
    unfold Kernel.unlocked at hunlock
    dsimp only at hunlock
    cases hblk : (((k.modObj o fun x => { x with ownerNested := 0 }).mutexRelease k.active
        (some o)).obj o).blkList with
    | nil =>
        rw [hblk] at hunlock
        exact .done (hunlock false)
    | cons u rest =>
        rw [hblk] at hunlock
        exact .sched (hunlock true)

end Mutexes

/-- Every call has an effect. -/
theorem call_effect (k : Kernel T O) (c : Call T O) (hc : k.permits c = true) :
    HasEffect k c (k.call c) := by
  -- All creations of objects do the same to a kernel.
  have hobj : ∀ (o : O) (f : Kobj T O → Kobj T O) (c : Call T O), ¬c.locks →
      (k.obj o).objType = .noType → (∀ x, (f x).blkList = []) →
      ((f (k.obj o)).mutexTask = none ∨
        (f (k.obj o)).mutexTask = (k.obj o).mutexTask ∧ (f (k.obj o)).objType ≠ .mutex) →
      HasEffect k c ((k.modObj o f).ret .success) :=
    fun o f c hc hnew hblk howner => .kept (.objCreate hc hnew (hblk _) howner)
  cases c with
  | taskCreate t prio ticks autorun isStatic =>
      exact taskCreate_effect k t prio ticks autorun isStatic (by simpa [Kernel.permits] using hc)
  | taskSleep ticks => exact taskSleep_effect k ticks
  | taskYield => exact .plainSched (.yield (by simpa [Kernel.permits] using hc))
  | taskSuspend t => exact taskSuspend_effect k t
  | taskResume t => exact taskResume_effect k t
  | taskPriChange t pri => exact priChange_effect k t pri
  | taskDel t => exact taskDel_effect k t
  | taskDynDel t => exact taskDynDel_effect k t
  | taskTimeSliceSet t slice => exact taskTimeSliceSet_effect k t slice
  | schedPolicySet t rr => exact schedPolicySet_effect k t rr
  | schedDisable => exact schedDisable_effect k
  | schedEnable => exact schedEnable_effect k
  | semCreate o count isStatic =>
      exact hobj o _ _ id (by simpa [Kernel.permits] using hc) (fun _ => rfl) (.inr ⟨rfl, by simp⟩)
  | semDel o isStatic =>
      change HasEffect k _ (k.semDel o isStatic)
      unfold Kernel.semDel
      refine objDel_effect k ?_ ?_ ?_ isStatic
      · exact id
      · simp
      · exact fun _ => ⟨rfl, rfl, rfl⟩
  | semGive o wakeAll => exact semGive_effect k o wakeAll
  | semTake o ticks => exact semTake_effect k o ticks
  | semCountSet o count => exact semCountSet_effect k o count
  | mutexCreate o isStatic =>
      exact hobj o _ _ id (by simpa [Kernel.permits] using hc) (fun _ => rfl) (.inl rfl)
  | mutexDel o isStatic => exact mutexDel_effect k o isStatic
  | mutexLock o ticks => exact mutexLock_effect k o ticks
  | mutexUnlock o => exact mutexUnlock_effect k o
  | queueCreate o start msgNum isStatic =>
      change HasEffect k _ (k.queueCreate o start msgNum isStatic)
      unfold Kernel.queueCreate
      refine .guard (by simp) (by simp) fun _ => ?_
      exact hobj o _ _ id (by simpa [Kernel.permits] using hc) (fun _ => rfl) (.inr ⟨rfl, by simp⟩)
  | queueDel o isStatic =>
      change HasEffect k _ (k.queueDel o isStatic)
      unfold Kernel.queueDel
      refine objDel_effect k ?_ ?_ ?_ isStatic
      · exact id
      · simp
      · exact fun _ => ⟨rfl, rfl, rfl⟩
  | queueSend o msg wakeAll => exact queueSend_effect k o msg wakeAll
  | queueRecv o ticks => exact queueRecv_effect k o ticks
  | queueFlush o => exact queueFlush_effect k o
  | bufQueueCreate o buf size maxMsg type isStatic =>
      change HasEffect k _ (k.bufQueueCreate o buf size maxMsg type isStatic)
      unfold Kernel.bufQueueCreate
      refine .guard (by simp) (by simp) fun _ => ?_
      refine .guard (by simp) (by simp) fun _ => ?_
      exact hobj o _ _ id (by simpa [Kernel.permits] using hc) (fun _ => rfl) (.inr ⟨rfl, by simp⟩)
  | bufQueueDel o isStatic =>
      change HasEffect k _ (k.bufQueueDel o isStatic)
      unfold Kernel.bufQueueDel
      refine objDel_effect k ?_ ?_ ?_ isStatic
      · exact id
      · simp
      · exact fun _ => ⟨rfl, rfl, rfl⟩
  | bufQueueSend o msg size => exact bufQueueSend_effect k o msg size
  | bufQueueRecv o msg ticks => exact bufQueueRecv_effect k o msg ticks
  | bufQueueFlush o => exact bufQueueFlush_effect k o
  | eventCreate o flags isStatic =>
      exact hobj o _ _ id (by simpa [Kernel.permits] using hc) (fun _ => rfl) (.inr ⟨rfl, by simp⟩)
  | eventDel o isStatic =>
      change HasEffect k _ (k.eventDel o isStatic)
      unfold Kernel.eventDel
      refine objDel_effect k ?_ ?_ ?_ isStatic
      · exact id
      · simp
      · exact fun _ => ⟨rfl, rfl, rfl⟩
  | eventGet o flags opt ticks => exact eventGet_effect k o flags opt ticks
  | eventSet o flags and => exact eventSet_effect k o flags and

end Rhino

end Wujian100
