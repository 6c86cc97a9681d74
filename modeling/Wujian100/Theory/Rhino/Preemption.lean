import Wujian100.Theory.Rhino.Ledger

/-!
# The Task That Runs

The ready lists say which task should run, and `core_sched` is the only place where the
kernel turns to it. A call that changes the ready lists and returns without `core_sched`
would let a task run on while a better one is ready. Three calls return so after they
went far into the lists: an unlock that nobody waits for, a change of priority that fails
on its way, and the deletion of a task that is not there. That none of them moves a ready
task rests on exact priorities and on what a deleted task left behind.

A tick wakes tasks and does not choose, since it comes inside an interrupt, whose end
does.

## Main definitions

* `Kernel.served`: The task that runs is the one the ready lists prefer.
* `Quiet`: The choice of the task that runs is as it was.

## Theorems

* `call_leaves`, `step_served`: Every call and every step leaves the preferred task
  running.
* `preferred_runs`: What holds after every run.
* `effect_active`: No effect of a call is the choice itself.
* `locked_runs_on`: A locked scheduler turns to no other task.
-/

namespace Wujian100

namespace Rhino

open Inherit

/-- Where the kernel may choose, the task that runs is the one it would choose. -/
def Kernel.served {T O : Type} (k : Kernel T O) : Prop :=
  k.running = true → k.intrptNested = 0 → k.schedLock = 0 → k.rq.preferred = some k.active

/-- Ticks come inside interrupts. -/
def Kernel.ticksInside {T O : Type} (k : Kernel T O) : KernelAct T O → Bool
  | .tick => k.intrptNested > 0
  | _ => true

/-- The ready lists and the task that runs are as they were. -/
structure Quiet {T O : Type} (k k' : Kernel T O) : Prop where
  rq : k'.rq = k.rq
  active : k'.active = k.active
  running : k'.running = k.running
  intrptNested : k'.intrptNested = k.intrptNested
  schedLock : k'.schedLock = k.schedLock

/-- The preferred task still runs, unless nothing follows. -/
def Prefers {T O : Type} (k k' : Kernel T O) : Prop :=
  k'.stuck = false → k.served → k'.served

/-- A call leaves the preferred task running. -/
def Leaves {T O : Type} (k : Kernel T O) (r : Ret T O) : Prop :=
  Prefers k r.2

/-! ## Choosing, and not -/

section Serving

variable {T O : Type} {k k' k'' : Kernel T O} {st : Kstat}

theorem Quiet.refl (k : Kernel T O) : Quiet k k :=
  ⟨rfl, rfl, rfl, rfl, rfl⟩

theorem Quiet.trans (h : Quiet k k') (h' : Quiet k' k'') : Quiet k k'' :=
  ⟨h'.rq.trans h.rq, h'.active.trans h.active, h'.running.trans h.running,
    h'.intrptNested.trans h.intrptNested, h'.schedLock.trans h.schedLock⟩

theorem Quiet.prefers (h : Quiet k k') : Prefers k k' := by
  intro _ hserved hrun hn hl
  rw [h.rq, h.active]
  exact hserved (h.running ▸ hrun) (h.intrptNested ▸ hn) (h.schedLock ▸ hl)

/-- Whatever went before, the choice is made. -/
theorem coreSched_prefers (k g : Kernel T O) : Prefers k g.coreSched := by
  intro hstuck _ _ hn hl
  rcases coreSched_same g with ⟨-, -, hrq, hn', hl'⟩
  rw [hn'] at hn
  rw [hl'] at hl
  rw [hrq]
  unfold Kernel.coreSched at hstuck ⊢
  rw [if_neg (by omega), if_neg (by omega)] at hstuck ⊢
  cases ht : g.rq.preferred with
  | some t => rfl
  | none =>
      rw [ht] at hstuck
      cases hstuck

/-- A kernel that does not run yet chooses nothing. -/
theorem Prefers.of_not_running (h : k'.running = false) : Prefers k k' := by
  intro _ _ hrun
  rw [h] at hrun
  cases hrun

theorem Prefers.of_locked (h : k'.schedLock > 0) : Prefers k k' := by
  intro _ _ _ _ hl
  omega

theorem Prefers.of_nested (h : k'.intrptNested > 0) : Prefers k k' := by
  intro _ _ _ hn
  omega

theorem hang_prefers (k g : Kernel T O) : Prefers k g.hang := by
  intro hstuck
  cases hstuck

/-- A call that is turned away. -/
theorem refused_leaves (k : Kernel T O) (st : Kstat) : Leaves k (k.ret st) :=
  (Quiet.refl k).prefers

/-- A call that ends in `core_sched`. -/
theorem coreSched_leaves (k g : Kernel T O) (st : Kstat) : Leaves k (g.coreSched.ret st) :=
  coreSched_prefers k g

/-- A test that turns a call away, and what follows it. -/
theorem guard_leaves {p : Prop} [Decidable p] {r : Ret T O} (h : ¬p → Leaves k r) :
    Leaves k (if p then k.ret st else r) := by
  by_cases hp : p
  · rw [if_pos hp]
    exact refused_leaves k st
  · rw [if_neg hp]
    exact h hp

theorem modTask_quiet [DecidableEq T] (k : Kernel T O) (t : T) (f : Ktask O → Ktask O) :
    Quiet k (k.modTask t f) :=
  ⟨rfl, rfl, rfl, rfl, rfl⟩

theorem modObj_quiet [DecidableEq O] (k : Kernel T O) (o : O) (f : Kobj T O → Kobj T O) :
    Quiet k (k.modObj o f) :=
  ⟨rfl, rfl, rfl, rfl, rfl⟩

end Serving

/-! ## Ways through the lists that move no ready task -/

section Quiet

variable {T O : Type} [DecidableEq T] [DecidableEq O] {k : Kernel T O} {t : T} {o : O}

theorem unlinkMutex_quiet (k : Kernel T O) (t : T) (l : List O) (m : O) :
    Quiet k (k.unlinkMutex t l m) := by
  unfold Kernel.unlinkMutex
  split_ifs
  · exact modTask_quiet k t _
  · cases before k.nextMutex m l with
    | none => exact .refl k
    | some d => exact modObj_quiet k d _

theorem pendListReorder_quiet (k : Kernel T O) (t : T) : Quiet k (k.pendListReorder t) := by
  unfold Kernel.pendListReorder
  cases (k.task t).blkObj with
  | none => exact ⟨rfl, rfl, rfl, rfl, rfl⟩
  | some o => exact ⟨rfl, rfl, rfl, rfl, rfl⟩

variable [Fintype O]

theorem mutexPriLook_quiet (k : Kernel T O) (t : T) (rel : Option O) :
    Quiet k (k.mutexPriLook t rel).2 := by
  unfold Kernel.mutexPriLook
  cases k.mutexes t with
  | none => exact ⟨rfl, rfl, rfl, rfl, rfl⟩
  | some l =>
      cases rel with
      | none => exact .refl k
      | some m => exact unlinkMutex_quiet k t l m

/-- A change of priority that fails has only passed tasks that wait. -/
theorem priChangeLoop_quiet {n newPri : Nat}
    (h : (Kernel.priChangeLoop n k t newPri).1 ≠ .success) :
    Quiet k (Kernel.priChangeLoop n k t newPri).2 := by
  induction n generalizing k t newPri with
  | zero => exact absurd rfl h
  | succ n ih =>
      unfold Kernel.priChangeLoop at h ⊢
      by_cases hp : (k.task t).prio = newPri
      · rw [if_pos hp] at h
        exact absurd rfl h
      · rw [if_neg hp] at h ⊢
        -- Only a task that waits passes the change on to another.
        cases hs : (k.task t).state with
        | rdy | sleep | suspended | sleepSuspended =>
            rw [hs] at h
            exact absurd rfl h
        | seed | deleted => exact .refl k
        | pend | pendSuspended =>
            rw [hs] at h
            dsimp only at h ⊢
            have hmoved : Quiet k
                ((k.modTask t fun x => { x with prio := newPri }).pendListReorder t) :=
              (modTask_quiet k t _).trans (pendListReorder_quiet _ t)
            generalize (k.modTask t fun x => { x with prio := newPri }).pendListReorder t = k1 at *
            cases hblk : (k1.task t).blkObj with
            | none => simp only [hblk, ne_eq, not_true_eq_false] at h
            | some o =>
                simp only [hblk] at h ⊢
                by_cases hm : (k1.obj o).objType = .mutex
                · rw [if_pos hm] at h ⊢
                  cases hw : (k1.obj o).mutexTask with
                  | none => simp only [hw, ne_eq, not_true_eq_false] at h
                  | some w =>
                      simp only [hw] at h ⊢
                      by_cases hup : (k1.task w).prio > newPri
                      · rw [if_pos hup] at h ⊢
                        exact hmoved.trans (ih h)
                      · rw [if_neg hup] at h ⊢
                        by_cases hold : (k1.task w).prio = (k.task t).prio
                        · rw [if_pos hold] at h ⊢
                          have hlook := mutexPriLook_quiet k1 w none
                          generalize k1.mutexPriLook w none = p at *
                          by_cases hne : p.1 ≠ (p.2.task w).prio
                          · rw [if_pos hne] at h ⊢
                            exact (hmoved.trans hlook).trans (ih h)
                          · rw [if_neg hne] at h
                            exact absurd rfl h
                        · rw [if_neg hold] at h
                          exact absurd rfl h
                · rw [if_neg hm] at h
                  exact absurd rfl h

variable [Fintype T]

/-- A mutex that nobody waits for gives its owner no priority, so that its release takes
    none away. -/
theorem mutexRelease_quiet {own : O → T → Prop} {S : T → Prop} (hl : Lists k)
    (h : Inherits own S k) (ho : own o t) (hnone : ∀ u, (k.task u).waits ≠ some o) :
    Quiet k (k.mutexRelease t (some o)) := by
  rcases mutexPriLook_released hl h ho with ⟨hre, -, hbest, -⟩
  have hblocks : ∀ u, k.boosts (fun m v => own m v ∧ m ≠ o) u t ↔ k.boosts own u t := by
    intro u
    constructor
    · rintro ⟨m, hw, hown⟩
      exact ⟨m, hw, hown.1⟩
    · rintro ⟨m, hw, hown⟩
      refine ⟨m, hw, hown, ?_⟩
      rintro rfl
      exact hnone u hw
  have hsettled : Best k.prios k.bPrios (k.boosts fun m v => own m v ∧ m ≠ o) t (k.prios t) :=
    (h.settled t (h.owner o t ho)).congr rfl hblocks fun _ _ => rfl
  have hsame : (k.mutexPriLook t (some o)).1 = ((k.mutexPriLook t (some o)).2.task t).prio := by
    have hprio := congrFun hre.prios t
    calc (k.mutexPriLook t (some o)).1 = k.prios t := hbest.unique hsettled
      _ = ((k.mutexPriLook t (some o)).2.task t).prio := hprio.symm
  unfold Kernel.mutexRelease
  dsimp only
  rw [if_neg (not_not.mpr hsame)]
  exact mutexPriLook_quiet k t (some o)

omit [Fintype T] [Fintype O] in
/-- Mutexes that nobody waits for are freed, and no task moves. -/
theorem mutexFreeLoop_quiet (n : Nat) (start : Option O)
    (hunused : ∀ c m, start = some c →
      Relation.ReflTransGen (fun a b => k.nextMutex a = some b) c m → (k.obj m).blkList = []) :
    Quiet k (Kernel.mutexFreeLoop n k start) := by
  induction n generalizing k start with
  | zero =>
      cases start with
      | none => exact .refl k
      | some m => exact ⟨rfl, rfl, rfl, rfl, rfl⟩
  | succ n ih =>
      cases start with
      | none => exact .refl k
      | some m =>
          have hform : k.freeMutex m = k.modObj m fun x => { x with mutexTask := none } := by
            unfold Kernel.freeMutex
            rw [hunused m m rfl .refl]
          have hfields : ∀ m', ((k.freeMutex m).obj m').blkList = (k.obj m').blkList ∧
              (k.freeMutex m).nextMutex m' = k.nextMutex m' := by
            intro m'
            rw [hform]
            unfold Kernel.nextMutex Kernel.modObj
            dsimp only
            by_cases hm' : m' = m
            · rw [hm', Function.update_self]
              exact ⟨rfl, rfl⟩
            · rw [Function.update_of_ne hm']
              exact ⟨rfl, rfl⟩
          have hnext : (k.freeMutex m).nextMutex = k.nextMutex := funext fun m' => (hfields m').2
          have hstep : Quiet k (k.freeMutex m) := by
            rw [hform]
            exact modObj_quiet k m _
          refine hstep.trans (ih (k.nextMutex m) ?_)
          intro c m' hc hreach
          rw [hnext] at hreach
          rw [(hfields m').1]
          exact hunused m m' rfl (.head hc hreach)

end Quiet

/-! ## Every call -/

section Calls

variable {T O : Type} (k : Kernel T O)

theorem schedDisable_leaves : Leaves k k.schedDisable := by
  unfold Kernel.schedDisable
  refine guard_leaves fun _ => ?_
  refine guard_leaves fun _ => ?_
  exact .of_locked (Nat.succ_pos _)

theorem schedEnable_leaves : Leaves k k.schedEnable := by
  unfold Kernel.schedEnable
  refine guard_leaves fun _ => ?_
  refine guard_leaves fun _ => ?_
  dsimp only
  split_ifs with hl
  · exact .of_locked hl
  · exact coreSched_leaves k _ _

/-- A call that finds what it asks for takes it, and waits otherwise. -/
theorem take_leaves {p : Prop} [Decidable p] {g w : Kernel T O} {ticks : Nat} (hg : Quiet k g) :
    Leaves k (if p then g.ret .success
      else if ticks = 0 then k.ret .noPendWait
      else if k.schedLock > 0 then k.ret .schedDisable
      else (none, w.coreSched)) := by
  by_cases hp : p
  · rw [if_pos hp]
    exact hg.prefers
  · rw [if_neg hp]
    refine guard_leaves fun _ => ?_
    refine guard_leaves fun _ => ?_
    exact coreSched_prefers k _

variable [DecidableEq T]

theorem taskSleep_leaves (ticks : Nat) : Leaves k (k.taskSleep ticks) := by
  unfold Kernel.taskSleep
  refine guard_leaves fun _ => ?_
  refine guard_leaves fun _ => ?_
  refine guard_leaves fun _ => ?_
  exact coreSched_prefers k _

theorem taskSuspend_leaves (t : T) : Leaves k (k.taskSuspend t) := by
  unfold Kernel.taskSuspend
  refine guard_leaves fun _ => ?_
  unfold Kernel.doSuspend
  refine guard_leaves fun _ => ?_
  cases (k.task t).state with
  | rdy | sleep | pend => exact coreSched_leaves k _ _
  | suspended | sleepSuspended | pendSuspended =>
      exact guard_leaves fun _ => coreSched_leaves k _ _
  | seed | deleted => exact refused_leaves k _

theorem taskResume_leaves (t : T) : Leaves k (k.taskResume t) := by
  unfold Kernel.taskResume
  cases (k.task t).state with
  | suspended | sleepSuspended | pendSuspended =>
      dsimp only
      exact coreSched_leaves k _ _
  | rdy | sleep | pend | seed | deleted =>
      dsimp only
      exact refused_leaves k _

theorem taskCreate_leaves (t : T) (prio ticks : Nat) (autorun isStatic : Bool) :
    Leaves k (k.taskCreate t prio ticks autorun isStatic) := by
  unfold Kernel.taskCreate
  refine guard_leaves fun _ => ?_
  refine guard_leaves fun _ => ?_
  refine guard_leaves fun _ => ?_
  have hspawned : Quiet k (if prio = idlePri then { k with idleSpawned := true } else k) := by
    split_ifs
    · exact ⟨rfl, rfl, rfl, rfl, rfl⟩
    · exact .refl k
  cases autorun with
  | false => exact (hspawned.trans (modTask_quiet _ t _)).prefers
  | true =>
      dsimp only
      rw [if_pos rfl]
      by_cases hrun : (((if prio = idlePri then { k with idleSpawned := true } else k).modTask t
          fun _ => Kernel.freshTask prio ticks true isStatic).readyListAddTail t).running = true
      · rw [if_pos hrun]
        exact coreSched_leaves k _ _
      · rw [if_neg hrun]
        exact .of_not_running (Bool.eq_false_iff.mpr hrun)

variable [DecidableEq O]

theorem objDel_leaves (o : O) (type : ObjType) (isStatic : Bool) (f : Kobj T O → Kobj T O) :
    Leaves k (k.objDel o type isStatic f) := by
  unfold Kernel.objDel
  refine guard_leaves fun _ => ?_
  refine guard_leaves fun _ => ?_
  refine guard_leaves fun _ => ?_
  exact coreSched_leaves k _ _

theorem semGive_leaves (o : O) (wakeAll : Bool) : Leaves k (k.semGive o wakeAll) := by
  unfold Kernel.semGive
  refine guard_leaves fun _ => ?_
  cases (k.obj o).blkList with
  | nil => exact guard_leaves fun _ => (modObj_quiet k o _).prefers
  | cons t rest =>
      dsimp only
      split_ifs
      · exact coreSched_leaves k _ _
      · exact coreSched_leaves k _ _

theorem semTake_leaves (o : O) (ticks : Nat) : Leaves k (k.semTake o ticks) := by
  unfold Kernel.semTake
  refine guard_leaves fun _ => ?_
  refine guard_leaves fun _ => ?_
  exact take_leaves k (modObj_quiet k o _)

omit [DecidableEq T] in
theorem semCountSet_leaves (o : O) (count : Nat) : Leaves k (k.semCountSet o count) := by
  unfold Kernel.semCountSet
  refine guard_leaves fun _ => ?_
  refine guard_leaves fun _ => ?_
  refine guard_leaves fun _ => ?_
  exact (modObj_quiet k o _).prefers

theorem queueSend_leaves (o : O) (msg : Nat → UInt8) (wakeAll : Bool) :
    Leaves k (k.queueSend o msg wakeAll) := by
  unfold Kernel.queueSend
  refine guard_leaves fun _ => ?_
  refine guard_leaves fun _ => ?_
  cases (k.obj o).blkList with
  | nil => exact (modObj_quiet k o _).prefers
  | cons t rest =>
      dsimp only
      split_ifs
      · exact coreSched_leaves k _ _
      · exact coreSched_leaves k _ _

theorem queueRecv_leaves (o : O) (ticks : Nat) : Leaves k (k.queueRecv o ticks) := by
  unfold Kernel.queueRecv
  refine guard_leaves fun _ => ?_
  refine guard_leaves fun _ => ?_
  exact take_leaves k (modObj_quiet k o _)

theorem bufQueueSend_leaves (o : O) (msg : Nat → UInt8) (size : Nat) :
    Leaves k (k.bufQueueSend o msg size) := by
  unfold Kernel.bufQueueSend
  refine guard_leaves fun _ => ?_
  refine guard_leaves fun _ => ?_
  refine guard_leaves fun _ => ?_
  cases (k.obj o).blkList with
  | nil => exact guard_leaves fun _ => (modObj_quiet k o _).prefers
  | cons t rest => exact coreSched_leaves k _ _

theorem bufQueueRecv_leaves (o : O) (msg : Nat → UInt8) (ticks : Nat) :
    Leaves k (k.bufQueueRecv o msg ticks) := by
  unfold Kernel.bufQueueRecv
  refine guard_leaves fun _ => ?_
  refine guard_leaves fun _ => ?_
  exact take_leaves k (modObj_quiet k o _)

omit [DecidableEq T] in
theorem flush_leaves {p q : Prop} [Decidable p] [Decidable q] (o : O) (f : Kobj T O → Kobj T O) :
    Leaves k (if p then k.ret .notCalledByIntrpt
      else if q then k.ret .kobjTypeErr
      else (k.modObj o f).ret .success) := by
  refine guard_leaves fun _ => ?_
  refine guard_leaves fun _ => ?_
  exact (modObj_quiet k o f).prefers

theorem eventGet_leaves (o : O) (flags : BitVec 32) (opt : EventOpt) (ticks : Nat) :
    Leaves k (k.eventGet o flags opt ticks) := by
  unfold Kernel.eventGet
  refine guard_leaves fun _ => ?_
  refine guard_leaves fun _ => ?_
  by_cases hmet : eventMet (k.obj o).flags flags opt = true
  · rw [if_pos hmet]
    split_ifs
    · exact (modObj_quiet k o _).prefers
    · exact refused_leaves k _
  · rw [if_neg hmet]
    refine guard_leaves fun _ => ?_
    refine guard_leaves fun _ => ?_
    exact coreSched_prefers k _

theorem eventSet_leaves (o : O) (flags : BitVec 32) (and : Bool) :
    Leaves k (k.eventSet o flags and) := by
  unfold Kernel.eventSet
  refine guard_leaves fun _ => ?_
  split_ifs
  · exact (modObj_quiet k o _).prefers
  · exact coreSched_leaves k _ _

variable [Fintype T] [Fintype O]

theorem priChange_leaves (t : T) (pri : Nat) : Leaves k (k.priChange t pri) := by
  unfold Kernel.priChange
  refine guard_leaves fun _ => ?_
  refine guard_leaves fun _ => ?_
  refine guard_leaves fun _ => ?_
  refine guard_leaves fun _ => ?_
  cases k.mutexPriLimit t pri with
  | none => exact hang_prefers k k
  | some limit =>
      dsimp only
      split_ifs with hst
      · exact ((modTask_quiet k t _).trans (priChangeLoop_quiet hst)).prefers
      · exact coreSched_leaves k _ _

theorem taskDynDel_leaves (task : Option T) : Leaves k (k.taskDynDel task) := by
  unfold Kernel.taskDynDel
  refine guard_leaves fun _ => ?_
  refine guard_leaves fun _ => ?_
  refine guard_leaves fun _ => ?_
  refine guard_leaves fun _ => ?_
  refine guard_leaves fun _ => ?_
  dsimp only
  split_ifs
  · exact hang_prefers k _
  · exact coreSched_leaves k _ _

theorem mutexDel_leaves (o : O) (isStatic : Bool) : Leaves k (k.mutexDel o isStatic) := by
  unfold Kernel.mutexDel
  refine guard_leaves fun _ => ?_
  refine guard_leaves fun _ => ?_
  refine guard_leaves fun _ => ?_
  exact coreSched_leaves k _ _

theorem mutexLock_leaves (o : O) (ticks : Nat) : Leaves k (k.mutexLock o ticks) := by
  unfold Kernel.mutexLock
  refine guard_leaves fun _ => ?_
  refine guard_leaves fun _ => ?_
  by_cases hown : (k.obj o).mutexTask = some k.active
  · rw [if_pos hown]
    split_ifs
    · exact hang_prefers k k
    · exact (modObj_quiet k o _).prefers
  · rw [if_neg hown]
    cases (k.obj o).mutexTask with
    | none =>
        have hgive : Quiet k (k.giveMutex o k.active) := ⟨rfl, rfl, rfl, rfl, rfl⟩
        exact (hgive.trans (modObj_quiet _ o _)).prefers
    | some w =>
        refine guard_leaves fun _ => ?_
        refine guard_leaves fun _ => ?_
        exact coreSched_prefers k _

variable {k}

/-- The last unlock chooses where it hands the mutex on. Where nobody waits for the mutex
    the owner keeps its priority. -/
theorem mutexUnlock_leaves (hsound : Sound k) (h : Inherits k.owns k.live k)
    (hidle : k.intrptNested = 0 → k.active ≠ k.idle) (o : O) : Leaves k (k.mutexUnlock o) := by
  unfold Kernel.mutexUnlock
  refine guard_leaves fun hn => ?_
  refine guard_leaves fun hm => ?_
  refine guard_leaves fun ho => ?_
  rw [not_not] at hm ho
  dsimp only
  generalize hcount : ((k.obj o).ownerNested + 2 ^ 32 - 1) % 2 ^ 32 = n
  by_cases hnest : n > 0
  · rw [if_pos hnest]
    exact (modObj_quiet k o _).prefers
  · rw [if_neg hnest]
    have hlists : Lists (k.modObj o fun x => { x with ownerNested := n }) :=
      hsound.lists.modObj rfl (hsound.lists.owner o)
    have hinherits : Inherits k.owns k.live (k.modObj o fun x => { x with ownerNested := n }) :=
      h.modObj rfl rfl
    have hquiet := modObj_quiet k o fun x => { x with ownerNested := n }
    have hactive : k.active ≠ (k.modObj o fun x => { x with ownerNested := n }).idle :=
      hidle (Nat.eq_zero_of_not_pos hn)
    generalize (k.modObj o fun x => { x with ownerNested := n }) = k1 at *
    cases hblk : ((k1.mutexRelease k.active (some o)).obj o).blkList with
    | cons u rest => exact coreSched_leaves k _ _
    | nil =>
        have hnone : ∀ u, (k1.task u).waits ≠ some o := by
          intro u hw
          rw [← mutexRelease_waits hlists hactive (some o) u] at hw
          have hmem := ((mutexRelease_lists hlists hactive (some o)).1.wait u o).mpr hw
          rw [hblk] at hmem
          cases hmem
        have hrelease := mutexRelease_quiet hlists hinherits ⟨hm, ho⟩ hnone
        exact ((hquiet.trans hrelease).trans (modObj_quiet _ o _)).prefers

/-- The deletion of a task that is not there chooses nothing, and finds nobody waiting for
    what it frees. -/
theorem taskDel_leaves (hsound : Sound k) (h : Inherits k.owns k.live k) (task : Option T)
    (hcond : k.untouched (.call (.taskDel task))) : Leaves k (k.taskDel task) := by
  unfold Kernel.taskDel
  refine guard_leaves fun hn => ?_
  refine guard_leaves fun ht => ?_
  refine guard_leaves fun hst => ?_
  refine guard_leaves fun ha => ?_
  have hdel : k.deletes (.taskDel task) = some (task.getD k.active) := by
    refine if_neg ?_
    rintro (hc | hc | hc | hc)
    · exact hn hc
    · exact ht hc
    · exact hst hc
    · exact ha hc
  dsimp only
  cases hend : (k.taskMutexFree (task.getD k.active)).taskEnd (task.getD k.active) with
  | some k' => exact coreSched_leaves k _ _
  | none =>
      have hdead : ¬k.live (task.getD k.active) := by
        intro hlive
        rcases taskEnd_freed hsound.toPatient h hlive (hsound.ne_idle_of_prio ht) with ⟨k', hk', -⟩
        rw [hend] at hk'
        cases hk'
      have hunused := unused_of_not_live h hdead (hcond _ _ rfl hdel)
      exact (mutexFreeLoop_quiet _ _ fun c m hc hreach => (hunused m ⟨c, hc, hreach⟩).1).prefers

/-- Every call leaves the preferred task running. -/
theorem call_leaves (hsound : Sound k) (h : Inherits k.owns k.live k) {c : Call T O}
    (hcaller : k.intrptNested = 0 → Kernel.beforeStart c = true ∨ k.active ≠ k.idle)
    (hcond : k.untouched (.call c)) : Leaves k (k.call c) := by
  have hcreate : ∀ (o : O) (f : Kobj T O → Kobj T O), Leaves k ((k.modObj o f).ret .success) :=
    fun o f => (modObj_quiet k o f).prefers
  cases c with
  | taskCreate t prio ticks autorun isStatic =>
      exact taskCreate_leaves k t prio ticks autorun isStatic
  | taskSleep ticks => exact taskSleep_leaves k ticks
  | taskYield => exact coreSched_leaves k _ _
  | taskSuspend t => exact taskSuspend_leaves k t
  | taskResume t => exact taskResume_leaves k t
  | taskPriChange t pri => exact priChange_leaves k t pri
  | taskDel task => exact taskDel_leaves hsound h task hcond
  | taskDynDel task => exact taskDynDel_leaves k task
  | taskTimeSliceSet t slice => exact guard_leaves fun _ => (modTask_quiet k t _).prefers
  | schedPolicySet t rr => exact guard_leaves fun _ => (modTask_quiet k t _).prefers
  | schedDisable => exact schedDisable_leaves k
  | schedEnable => exact schedEnable_leaves k
  | semCreate o count isStatic => exact hcreate o _
  | semDel o isStatic => exact objDel_leaves k o _ isStatic _
  | semGive o wakeAll => exact semGive_leaves k o wakeAll
  | semTake o ticks => exact semTake_leaves k o ticks
  | semCountSet o count => exact semCountSet_leaves k o count
  | mutexCreate o isStatic => exact hcreate o _
  | mutexDel o isStatic => exact mutexDel_leaves k o isStatic
  | mutexLock o ticks => exact mutexLock_leaves k o ticks
  | mutexUnlock o =>
      refine mutexUnlock_leaves hsound h (fun hn => ?_) o
      exact (hcaller hn).resolve_left (by simp [Kernel.beforeStart])
  | queueCreate o start msgNum isStatic => exact guard_leaves fun _ => hcreate o _
  | queueDel o isStatic => exact objDel_leaves k o _ isStatic _
  | queueSend o msg wakeAll => exact queueSend_leaves k o msg wakeAll
  | queueRecv o ticks => exact queueRecv_leaves k o ticks
  | queueFlush o => exact flush_leaves k o _
  | bufQueueCreate o buf size maxMsg type isStatic =>
      exact guard_leaves fun _ => guard_leaves fun _ => hcreate o _
  | bufQueueDel o isStatic => exact objDel_leaves k o _ isStatic _
  | bufQueueSend o msg size => exact bufQueueSend_leaves k o msg size
  | bufQueueRecv o msg ticks => exact bufQueueRecv_leaves k o msg ticks
  | bufQueueFlush o => exact flush_leaves k o _
  | eventCreate o flags isStatic => exact hcreate o _
  | eventDel o isStatic => exact objDel_leaves k o _ isStatic _
  | eventGet o flags opt ticks => exact eventGet_leaves k o flags opt ticks
  | eventSet o flags and => exact eventSet_leaves k o flags and

end Calls

/-! ## Every run -/

section Runs

variable {T O : Type} [DecidableEq T] {k k' : Kernel T O}

/-- What a turn of the ready lists leaves alone. -/
theorem timeSliceUpdate_running (k : Kernel T O) : k.timeSliceUpdate.active = k.active ∧
    k.timeSliceUpdate.intrptNested = k.intrptNested ∧
    k.timeSliceUpdate.schedLock = k.schedLock := by
  have hturn : ∀ (k : Kernel T O) (t : T), (k.readyListHeadToTail t).active = k.active ∧
      (k.readyListHeadToTail t).intrptNested = k.intrptNested ∧
      (k.readyListHeadToTail t).schedLock = k.schedLock := by
    intro k t
    unfold Kernel.readyListHeadToTail
    cases k.rq.headToTail (k.task t).prio with
    | none => exact ⟨rfl, rfl, rfl⟩
    | some r => exact ⟨rfl, rfl, rfl⟩
  unfold Kernel.timeSliceUpdate
  cases k.rq.list (k.task k.active).prio with
  | nil => exact ⟨rfl, rfl, rfl⟩
  | cons t rest =>
      dsimp only
      split_ifs
      · exact ⟨rfl, rfl, rfl⟩
      · exact ⟨rfl, rfl, rfl⟩
      · exact ⟨rfl, rfl, rfl⟩
      · exact hturn _ t

variable [DecidableEq O] [Fintype T] [Fintype O]

/-- Every step leaves the preferred task running. -/
theorem step_served {a : KernelAct T O} (hsound : Sound k) (h : Inherits k.owns k.live k)
    (hserved : k.served) (hcond : k.untouched a) (hticks : k.ticksInside a = true)
    (hstep : k.step a = some k') : k'.served := by
  rcases step_stepped hstep with ⟨hstepped, hstuck⟩
  cases hstepped with
  | call hc hcaller => exact call_leaves hsound h hcaller hcond hstuck hserved
  | start => exact coreSched_prefers k _ hstuck hserved
  | tick =>
      have hinside : k.intrptNested > 0 := by
        unfold Kernel.ticksInside at hticks
        simpa using hticks
      refine Prefers.of_nested (k := k) ?_ hstuck hserved
      rw [(timeSliceUpdate_running _).2.1, (tickListUpdate_lists hsound.lists 1).2.intrptNested]
      exact hinside
  | intrptEnter => exact Prefers.of_nested (k := k) (Nat.succ_pos _) hstuck hserved
  | intrptExit hn => exact coreSched_prefers k _ hstuck hserved

/-- After every run that keeps priorities exact and ticks inside interrupts, the task that
    runs is the first of the best list: it is ready, and no task that is ready has a better
    priority. -/
theorem preferred_runs (idle : T) (resSem : O) (as : List (KernelAct T O)) (k : Kernel T O)
    (hcond : Run.Along Kernel.step Kernel.untouched (Kernel.init idle resSem) as)
    (hticks : Run.Along Kernel.step (fun k a => k.ticksInside a = true)
      (Kernel.init idle resSem) as)
    (h : Run.run Kernel.step (Kernel.init idle resSem) as = some k)
    (hrun : k.running = true) (hn : k.intrptNested = 0) (hl : k.schedLock = 0) :
    (k.task k.active).state = .rdy ∧
      (k.rq.list (k.task k.active).prio).head? = some k.active ∧
      ∀ u, (k.task u).state = .rdy → (k.task k.active).prio ≤ (k.task u).prio := by
  have hstep : ∀ (k : Kernel T O) a k', (Sound k ∧ Inherits k.owns k.live k) ∧ k.served →
      k.untouched a ∧ k.ticksInside a = true → k.step a = some k' →
      (Sound k' ∧ Inherits k'.owns k'.live k') ∧ k'.served :=
    fun k a k' hk hP hstep =>
      ⟨⟨step_sound hk.1.1 hstep, step_inherits hk.1.1 hk.1.2 hP.1 hstep⟩,
        step_served hk.1.1 hk.1.2 hk.2 hP.1 hP.2 hstep⟩
  have hinit : (Kernel.init idle resSem : Kernel T O).served := by
    intro hrun
    cases hrun
  rcases Run.run_inv hstep as _ _ ⟨⟨init_sound idle resSem, init_inherits idle resSem⟩, hinit⟩
    (hcond.and hticks) h with ⟨⟨hsound, -⟩, hserved⟩
  have hchosen := hserved hrun hn hl
  rcases hsound.lists.rq.preferred hsound.lists.idle with ⟨t, ht, hready, hleast⟩
  rw [hchosen, Option.some.injEq] at ht
  subst ht
  have hrdy := hsound.active (.inl hn)
  have hprio : (k.task k.active).prio = k.rq.highestPri := by
    rw [Ktask.ready_eq_some hrdy, Option.some.injEq] at hready
    exact hready
  refine ⟨hrdy, ?_, ?_⟩
  · rw [hprio]
    exact hchosen
  · intro u hu
    rw [hprio]
    exact hleast u _ (Ktask.ready_eq_some hu)

/-- The task waits for a semaphore, which an interrupt gives after a tick. -/
def wokenRun : List (KernelAct (Option Bool) Bool) :=
  [.call (.taskCreate (some false) 20 0 true true), .call (.semCreate true 0 true), .start,
    .call (.semTake true 5), .intrptEnter, .tick, .call (.semGive true false), .intrptExit]

theorem preferred_runs_woken :
    ∃ k, Run.run Kernel.step (Kernel.init none false) wokenRun = some k ∧
      k.active = some false ∧ ∀ u, (k.task u).state = .rdy → 20 ≤ (k.task u).prio := by
  have hrun : (Run.run Kernel.step (Kernel.init none false) wokenRun).map
      (fun k => (k.running, k.intrptNested, k.schedLock, k.active, (k.task k.active).prio))
      = some (true, 0, 0, some false, 20) := by decide +kernel
  have hcond : Run.Along Kernel.step (fun k a => Kernel.deletesOnce k a = true)
      (Kernel.init none false) wokenRun := by decide +kernel
  have hticks : Run.Along Kernel.step (fun k a => Kernel.ticksInside k a = true)
      (Kernel.init none false) wokenRun := by decide +kernel
  rcases Option.map_eq_some_iff.mp hrun with ⟨k, hk, hval⟩
  simp only [Prod.mk.injEq] at hval
  rcases hval with ⟨hrunning, hn, hl, hactive, hprio⟩
  have hfirst := preferred_runs none false wokenRun k
    (hcond.mono fun _ _ => untouched_of_deletesOnce) hticks hk hrunning hn hl
  rw [hprio] at hfirst
  exact ⟨k, hk, hactive, hfirst.2.2⟩

end Runs

/-! ## The scheduler is locked -/

section Locked

variable {T O : Type} [DecidableEq T] [DecidableEq O] {k k' : Kernel T O}

/-- Nothing that has nothing to do with mutexes is the choice itself. -/
theorem plain_active {c : Call T O} {st : Option Kstat} {b : Bool} (h : Sound k)
    (hcaller : k.intrptNested = 0 → Kernel.beforeStart c = true ∨ k.active ≠ k.idle)
    (he : Plain k c st b k') : k'.active = k.active := by
  have hrdy : k.intrptNested = 0 → (k.task k.active).state = .rdy := fun hn => h.active (.inl hn)
  cases he with
  | refused | hangs | restate | adjust | schedLock | objCreate | stock => rfl
  | @sleep ticks hn hl =>
      have hidle := (hcaller hn).resolve_left (by simp [Kernel.beforeStart])
      rcases asleep_eq h.lists (hrdy hn) hidle ticks with ⟨r, l, b, m, n, heq, -⟩
      rw [heq]
      rfl
  | yield hn => exact (headToTail_lists h.lists (hrdy hn)).2.active
  | suspend hs ht ha =>
      rcases suspended_eq h.lists hs (h.ne_idle_of_prio ht) with ⟨r, heq, -⟩
      rw [heq]
      rfl
  | resume hs =>
      rcases resumed_eq h.lists hs 0 with ⟨r, heq, -⟩
      rw [heq]
      rfl
  | @objDel _ o f hc hm hf =>
      have hnew : Lists (k.modObj o fun x => { x with objType := .noType }) :=
        h.lists.modObj rfl (h.lists.owner o)
      exact (foldl_pendTaskRm hnew (k.obj o).blkList).2.1.active
  | give hc hg => exact (gives_sound h hg).2.active
  | @eventSet o flags ho =>
      have hnew : Lists (k.modObj o fun x => { x with flags := (k.obj o).flags ||| flags }) :=
        h.lists.modObj rfl (h.lists.owner o)
      have hstart : ∃ mask, ((k.modObj o fun x =>
          { x with flags := (k.obj o).flags ||| flags }).obj o).flags
          = ((k.obj o).flags ||| flags) &&& mask := ⟨(k.obj o).flags ||| flags, by simp [Kernel.modObj]⟩
      exact (foldl_eventWake (k.obj o).blkList (.refl hnew hstart)).1.keeps.active
  | @wait _ o f ticks hc hb hn hl hm hstarved hf htime =>
      have hidle := (hcaller hn).resolve_left (by simp [hb])
      have hlists : Lists (k.modTask k.active f) :=
        h.lists.modTask hf.toPlaced (hf.bPrio ▸ h.lists.bPrio _)
      have hs : ((k.modTask k.active f).task k.active).state = .rdy := by
        have hself : (k.modTask k.active f).task k.active = f (k.task k.active) :=
          Function.update_self ..
        rw [hself, hf.state]
        exact hrdy hn
      rcases pendToBlkObj_eq hlists hs hidle o ticks with ⟨r, l, b, m, n, heq, -⟩
      rw [heq]
      rfl

variable [Fintype T] [Fintype O]

theorem ended_active {t : T} (h : Patient k) (ht : t ≠ k.idle) : (k.ended t).active = k.active := by
  have hpatient : Patient (k.taskMutexFree t) := mutexFreeLoop_patient _ h _
  have hkeeps : Keeps k (k.taskMutexFree t) := (mutexFreeLoop_lists _ h.lists _).2
  unfold Kernel.ended
  cases hend : (k.taskMutexFree t).taskEnd t with
  | none => exact hkeeps.active
  | some k' => exact (taskEnd_patient hpatient (hkeeps.idle ▸ ht) hend).2.active.trans hkeeps.active

/-- What a call does before the choice leaves the task that runs. -/
theorem effect_active {c : Call T O} {st : Option Kstat} {b : Bool} (h : Sound k)
    (hcaller : k.intrptNested = 0 → Kernel.beforeStart c = true ∨ k.active ≠ k.idle)
    (he : Effect k c st b k') : k'.active = k.active := by
  cases he with
  | plain hp => exact plain_active h hcaller hp
  | create hnew hprio =>
      rcases created_eq h.lists _ _ _ hnew hprio with ⟨r, heq, -⟩
      rw [heq]
      exact (Frame.spawned k _).2.2.1
  | @priChange t pri limit ht hpri hs hlimit =>
      have hlt : pri < priMax := by
        unfold idlePri at hpri
        omega
      -- A change of priority runs along the chain and lets the same task run.
      have hle : limit ≤ pri := by
        unfold Kernel.mutexPriLimit at hlimit
        rw [Option.map_eq_some_iff] at hlimit
        rcases hlimit with ⟨l, -, rfl⟩
        exact lookPri_le k l pri
      have hlists : Lists (k.modTask t fun x => { x with bPrio := pri }) :=
        h.lists.modTask ⟨rfl, rfl, rfl, rfl⟩ hlt
      exact (priChangeLoop_repri _ _ t limit hlists (h.ne_idle_of_prio (by omega))
        (hle.trans_lt hlt)).frame.active
  | taskDel hn ht ha hd => exact ended_active h.toPatient (h.ne_idle_of_prio ht)
  | taskDynDel hn ht ha hs hd hg =>
      rcases gives_sound h hg with ⟨hsound, hkeeps⟩
      exact (ended_active hsound.toPatient (hkeeps.idle ▸ h.ne_idle_of_prio ht)).trans hkeeps.active
  | @mutexDel o _ hm =>
      rcases mutexGone_lists h.lists o with ⟨hgone, hframe⟩
      exact (foldl_pendTaskRm hgone ((k.mutexGone o).obj o).blkList).2.1.active.trans hframe.active
  | lockNested | lockFree | unlockNested => rfl
  | @lockWait o w ticks hn hl hm ho hw =>
      have hidle := (hcaller hn).resolve_left (by simp [Kernel.beforeStart])
      have hrepri : Repri k (if (k.task k.active).prio < (k.task w).prio then
          (k.taskPriChange w (k.task k.active).prio).2 else k) := by
        split_ifs
        · refine priChangeLoop_repri _ k w _ h.lists ?_ (h.lists.prio _)
          rintro rfl
          exact h.lists.owner o ho
        · exact .refl h.lists
      unfold Kernel.lockWait
      generalize (if (k.task k.active).prio < (k.task w).prio then
        (k.taskPriChange w (k.task k.active).prio).2 else k) = k1 at hrepri
      have hframe := hrepri.frame
      have hs := hframe.rdy _ (h.active (.inl hn))
      rcases pendToBlkObj_eq hrepri.2 hs (hframe.idle ▸ hidle) o ticks with ⟨r, l, b, m, n, heq, -⟩
      rw [heq]
      exact hframe.active
  | @unlock o b hn hm ho hnest =>
      have hidle := (hcaller hn).resolve_left (by simp [Kernel.beforeStart])
      have hlists : Lists (k.modObj o fun x => { x with ownerNested := 0 }) :=
        h.lists.modObj rfl (h.lists.owner o)
      rcases mutexRelease_lists hlists (t := k.active) hidle (some o) with ⟨hrel, hframe⟩
      unfold Kernel.unlocked
      dsimp only
      cases ((((k.modObj o fun x => { x with ownerNested := 0 }).mutexRelease k.active
          (some o)).obj o).blkList) with
      | nil => exact hframe.active
      | cons u rest => exact (pendTaskWakeup_lists hrel u).2.active.trans hframe.active

/-- A step that starts and ends with the scheduler locked turns to no other task. -/
theorem step_locked {a : KernelAct T O} (h : Sound k) (hstep : k.step a = some k')
    (hl : k'.schedLock > 0) : k'.active = k.active := by
  have hsched : ∀ g : Kernel T O, g.coreSched.schedLock > 0 → g.coreSched.active = g.active := by
    intro g hg
    rw [(coreSched_same g).2.2.2.2] at hg
    unfold Kernel.coreSched
    split_ifs
    · rfl
    · rfl
  cases (step_stepped hstep).1 with
  | @call c hc hcaller =>
      rcases call_effect k c hc with ⟨b, k1, heff, heq⟩
      have hone := effect_active h hcaller heff
      rw [heq] at hl ⊢
      cases b with
      | true => exact (hsched k1 hl).trans hone
      | false => exact hone
  | start => exact hsched _ hl
  | tick =>
      exact (timeSliceUpdate_running _).1.trans (tickListUpdate_lists h.lists 1).2.active
  | intrptEnter => rfl
  | intrptExit hn => exact hsched _ hl

/-- While the scheduler is locked the same task runs, whatever calls and interrupts come:
    it stays ready, and no other is turned to. -/
theorem locked_runs_on (idle : T) (resSem : O) (as bs : List (KernelAct T O))
    (k k' : Kernel T O) (h : Run.run Kernel.step (Kernel.init idle resSem) as = some k)
    (hlocked : Run.Along Kernel.step (fun k _ => k.schedLock > 0) k bs)
    (h' : Run.run Kernel.step k bs = some k') (hl : k'.schedLock > 0) :
    k'.active = k.active ∧ (k'.task k.active).state = .rdy := by
  have hsame : k'.active = k.active := by
    have hsound := run_sound h
    clear h as
    induction bs generalizing k with
    | nil =>
        simp only [Run.run, Option.some.injEq] at h'
        rw [h']
    | cons b bs ih =>
        simp only [Run.run] at h'
        cases hstep : k.step b with
        | none =>
            rw [hstep] at h'
            cases h'
        | some g =>
            rw [hstep] at h'
            have hrest := hlocked.2 g hstep
            have hg : g.schedLock > 0 := by
              cases bs with
              | nil =>
                  simp only [Run.run, Option.some.injEq] at h'
                  rw [h']
                  exact hl
              | cons c cs => exact hrest.1
            exact (ih g hrest h' (step_sound hsound hstep)).trans (step_locked hsound hstep hg)
  refine ⟨hsame, ?_⟩
  have hrun : Run.run Kernel.step (Kernel.init idle resSem) (as ++ bs) = some k' := by
    rw [Run.run_append h]
    exact h'
  rw [← hsame]
  exact (run_sound hrun).active (.inr hl)

/-- The better task waits, and the other locks the scheduler. -/
def lockingRun : List (KernelAct (Option Bool) Bool) :=
  [.call (.taskCreate (some false) 10 0 true true), .call (.taskCreate (some true) 20 0 true true),
    .call (.semCreate true 0 true), .start, .call (.semTake true 5), .call .schedDisable]

/-- An interrupt wakes the better task. -/
def heldBackRun : List (KernelAct (Option Bool) Bool) :=
  [.intrptEnter, .call (.semGive true false), .intrptExit]

theorem locked_runs_on_held :
    ∃ k k', Run.run Kernel.step (Kernel.init none false) lockingRun = some k ∧
      Run.run Kernel.step k heldBackRun = some k' ∧ k'.active = k.active ∧
      (k'.task (some false)).state = .rdy ∧ (k'.task k.active).state = .rdy := by
  have hrun : (Run.run Kernel.step (Kernel.init none false) lockingRun).isSome = true := by
    decide +kernel
  have hheld : ∀ k ∈ Run.run Kernel.step (Kernel.init none false) lockingRun,
      Run.Along Kernel.step (fun k _ => k.schedLock > 0) k heldBackRun ∧
        (Run.run Kernel.step k heldBackRun).map
          (fun k' => (k'.schedLock, (k'.task (some false)).state)) = some (1, .rdy) := by
    decide +kernel
  rcases Option.isSome_iff_exists.mp hrun with ⟨k, hk⟩
  rcases hheld k hk with ⟨hlocked, hend⟩
  rcases Option.map_eq_some_iff.mp hend with ⟨k', hk', hval⟩
  simp only [Prod.mk.injEq] at hval
  have hsame := locked_runs_on none false lockingRun heldBackRun k k' hk hlocked hk' (by omega)
  exact ⟨k, k', hk, hk', hsame.1, hval.2, hsame.2⟩

end Locked

end Rhino

end Wujian100
