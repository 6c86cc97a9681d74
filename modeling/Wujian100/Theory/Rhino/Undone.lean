import Wujian100.Core.Rhino.Critical
import Wujian100.Theory.Rhino.Handover
import Wujian100.Theory.Rhino.Reach

/-!
# Deletions That Fail

`krhino_task_del` checks some things before it changes anything, and one after: the
mutexes of the task are freed before its state is looked at. A task that was deleted
still points to the mutexes it held, and these may be held by others now.

Freeing mutexes leaves the kernel as it was only if there is nothing to free: whoever
is woken waits no more, and a mutex that loses its owner gets none back.

## Main definitions

* `Cpu.delReturns`: A deletion comes back.
* `Cpu.Undone`: A deletion that fails has changed nothing.
* `Cpu.delClean`: Where that is so.

## Theorems

* `taskDel_agrees`: The kernel is that of `Kernel.taskDel`.
* `taskMutexFree_eq_iff`: When freeing the mutexes of a task changes nothing.
* `task_del_undone_iff`: Where a failed deletion changes nothing.
* `task_del_not_undone`: Where it does.
-/

namespace Wujian100

namespace Rhino

section Undone

variable {T O : Type} [DecidableEq T] [DecidableEq O] [Fintype T] [Fintype O]

/-- The call comes back. -/
def Cpu.delReturns (c : Cpu T O) (task : Option T) : Prop :=
  (c.taskDel task).2.kernel.stuck = false

/-- Where the call comes back with an error, all is as it was. -/
def Cpu.Undone (c : Cpu T O) (task : Option T) : Prop :=
  (c.taskDel task).1 ≠ .success → (c.taskDel task).2 = c

/-- No task and no owner hangs on the mutexes the task points to. -/
def Kernel.idleChain (k : Kernel T O) (t : T) : Prop :=
  ∃ l, k.mutexes t = some l ∧ ∀ m ∈ l, (k.obj m).blkList = [] ∧ (k.obj m).mutexTask = none

/-- Outside interrupts the idle task is deleted with interrupts disabled only, and a
    task that is deleted already, or was never created, points to idle mutexes unless an
    earlier check stops the call. -/
def Cpu.delClean (c : Cpu T O) (task : Option T) : Prop :=
  let k := c.kernel
  let t := task.getD k.active
  k.intrptNested = 0 →
    if (k.task t).prio = idlePri then c.intrptOn = false
    else (k.task t).isStatic = true → ¬(t = k.active ∧ k.schedLock > 0) →
      (k.task t).state = .seed ∨ (k.task t).state = .deleted → k.idleChain t

/-- Apart from interrupts it is `Kernel.taskDel`. -/
theorem taskDel_agrees (c : Cpu T O) (task : Option T) :
    ((some (c.taskDel task).1, (c.taskDel task).2.kernel) : Ret T O) = c.kernel.taskDel task := by
  unfold Cpu.taskDel Kernel.taskDel Cpu.criticalEnter
  dsimp only
  split_ifs
  · rfl
  · rfl
  · rfl
  · rfl
  · cases (c.kernel.taskMutexFree (task.getD c.kernel.active)).taskEnd (task.getD c.kernel.active) with
    | none => rfl
    | some k => rfl

end Undone

/-! ## Mutexes that nobody holds -/

section Chains

variable {T O : Type} [DecidableEq T] [DecidableEq O] {k : Kernel T O}

omit [DecidableEq T] [DecidableEq O] in
theorem Kobj.with_owner {x : Kobj T O} {w : Option T} (h : x.mutexTask = w) :
    { x with mutexTask := w } = x := by
  subst h
  rfl

theorem freeMutex_idle {m : O} (hblk : (k.obj m).blkList = []) (htask : (k.obj m).mutexTask = none) :
    k.freeMutex m = k := by
  unfold Kernel.freeMutex
  rw [hblk]
  dsimp only
  unfold Kernel.modObj
  dsimp only
  rw [Kobj.with_owner htask, Function.update_eq_self]

/-- Nothing is done to mutexes that nobody holds and nobody waits for. -/
theorem mutexFreeLoop_idle {l : List O} {start : Option O} {n : Nat}
    (hl : Linked k.nextMutex start l) (hn : l.length ≤ n)
    (hidle : ∀ m ∈ l, (k.obj m).blkList = [] ∧ (k.obj m).mutexTask = none) :
    Kernel.mutexFreeLoop n k start = k := by
  induction l generalizing start n with
  | nil =>
      have hstart : start = none := hl
      rw [hstart, Kernel.mutexFreeLoop]
  | cons m l ih =>
      cases n with
      | zero => exact absurd hn (by simp)
      | succ n =>
          have hstart : start = some m := hl.1
          rcases hidle m List.mem_cons_self with ⟨hblk, htask⟩
          rw [hstart, Kernel.mutexFreeLoop, freeMutex_idle hblk htask]
          exact ih hl.2 (by simpa using hn) fun o ho => hidle o (List.mem_cons_of_mem m ho)

/-- Where nobody was woken, the mutexes had no one waiting, and have no owner now. -/
theorem idle_of_loop (n : Nat) (hl : Lists k) (start : Option O)
    (hstuck : (Kernel.mutexFreeLoop n k start).stuck = false)
    (hwaits : ∀ t, ((Kernel.mutexFreeLoop n k start).task t).waits = (k.task t).waits) :
    (∀ o, ((Kernel.mutexFreeLoop n k start).obj o).mutexTask = (k.obj o).mutexTask ∨
      ((Kernel.mutexFreeLoop n k start).obj o).mutexTask = none) ∧
    ∃ l, Linked k.nextMutex start l ∧ ∀ m ∈ l, (k.obj m).blkList = [] ∧
      ((Kernel.mutexFreeLoop n k start).obj m).mutexTask = none := by
  -- The loop is followed from its first mutex on.
  induction n generalizing k start with
  | zero =>
      cases start with
      | none => exact ⟨fun _ => .inl rfl, [], rfl, by simp⟩
      | some m => cases hstuck
  | succ n ih =>
      cases start with
      | none => exact ⟨fun _ => .inl rfl, [], rfl, by simp⟩
      | some m =>
          have hloop : Kernel.mutexFreeLoop (n + 1) k (some m) =
              Kernel.mutexFreeLoop n (k.freeMutex m) (k.nextMutex m) := rfl
          rw [hloop] at hstuck hwaits ⊢
          have hfree := freeMutex_lists hl m
          cases hblk : (k.obj m).blkList with
          | cons u rest =>
              -- The first task would be woken, and would wait no more.
              have hu : (k.task u).waits = some m := by
                rw [← hl.wait, hblk]
                exact List.mem_cons_self
              have hnone := ((freeMutex_freed hl m).first u (by rw [hblk, List.head?_cons])).1
              have hlast := (mutexFreeLoop_lists n hfree.1 (k.nextMutex m)).2.waits u m
                ((hwaits u).trans hu)
              rw [hnone] at hlast
              cases hlast
          | nil =>
              have hmod : k.freeMutex m = k.modObj m fun x => { x with mutexTask := none } := by
                unfold Kernel.freeMutex
                rw [hblk]
              have hself : ((k.freeMutex m).obj m).mutexTask = none := by
                rw [hmod, Kernel.modObj]
                dsimp only
                rw [Function.update_self]
              have hother : ∀ o, o ≠ m → (k.freeMutex m).obj o = k.obj o := by
                intro o ho
                rw [hmod]
                exact Function.update_of_ne ho _ _
              have hfield : ∀ o, ((k.freeMutex m).obj o).mutexList = (k.obj o).mutexList ∧
                  ((k.freeMutex m).obj o).blkList = (k.obj o).blkList := by
                intro o
                by_cases ho : o = m
                · rw [ho, hmod, Kernel.modObj]
                  dsimp only
                  rw [Function.update_self]
                  exact ⟨rfl, rfl⟩
                · rw [hother o ho]
                  exact ⟨rfl, rfl⟩
              have htask : (k.freeMutex m).task = k.task := by
                rw [hmod]
                rfl
              rcases ih hfree.1 (k.nextMutex m) hstuck (by rw [htask]; exact hwaits) with
                ⟨hkept, l, hlinked, hidle⟩
              have hgone : ((Kernel.mutexFreeLoop n (k.freeMutex m) (k.nextMutex m)).obj m).mutexTask
                  = none := by
                rcases hkept m with hsame | hnone
                · rw [hsame, hself]
                · exact hnone
              refine ⟨?_, m :: l, ⟨rfl, hlinked.congr fun o _ => (hfield o).1.symm⟩, ?_⟩
              · intro o
                by_cases ho : o = m
                · rw [ho]
                  exact .inr hgone
                · rw [← hother o ho]
                  exact hkept o
              · intro o ho
                rcases List.mem_cons.mp ho with rfl | ho
                · exact ⟨hblk, hgone⟩
                · rw [← (hfield o).2]
                  exact hidle o ho

theorem mutexFreeLoop_live (n : Nat) (hl : Lists k) (start : Option O) (t : T) :
    (Kernel.mutexFreeLoop n k start).live t ↔ k.live t := by
  induction n generalizing k start with
  | zero =>
      cases start with
      | none => rfl
      | some m => rfl
  | succ n ih =>
      cases start with
      | none => rfl
      | some m =>
          have hloop : Kernel.mutexFreeLoop (n + 1) k (some m) =
              Kernel.mutexFreeLoop n (k.freeMutex m) (k.nextMutex m) := rfl
          rw [hloop, ih (freeMutex_lists hl m).1, (freeMutex_freed hl m).live]

variable [Fintype T] [Fintype O]

/-- Freeing the mutexes of a task changes nothing exactly where they are idle. -/
theorem taskMutexFree_eq_iff (hl : Lists k) (hstuck : k.stuck = false) (t : T) :
    k.taskMutexFree t = k ↔ k.idleChain t := by
  constructor
  · intro hsame
    have hloop := idle_of_loop ((Fintype.card T + 1) * (Fintype.card O + 1)) hl
      (k.task t).mutexList
    change (k.taskMutexFree t).stuck = false → (∀ v, ((k.taskMutexFree t).task v).waits = _) →
      (∀ o, ((k.taskMutexFree t).obj o).mutexTask = _ ∨ ((k.taskMutexFree t).obj o).mutexTask = _) ∧
        ∃ l, Linked k.nextMutex (k.task t).mutexList l ∧ ∀ m ∈ l, _ ∧
          ((k.taskMutexFree t).obj m).mutexTask = none at hloop
    rw [hsame] at hloop
    rcases (hloop hstuck fun _ => rfl).2 with ⟨l, hlinked, hidle⟩
    exact ⟨l, hlinked.walk_eq hlinked.length_le, hidle⟩
  · rintro ⟨l, hwalk, hidle⟩
    have hlinked := linked_of_walk hwalk
    refine mutexFreeLoop_idle hlinked ?_ hidle
    have hle := hlinked.length_le
    have hmul : (Fintype.card O + 1) ≤ (Fintype.card T + 1) * (Fintype.card O + 1) :=
      Nat.le_mul_of_pos_left _ (Nat.succ_pos _)
    omega

omit [Fintype O] [DecidableEq O] [Fintype T] [DecidableEq T] in
/-- A task has no end to come where it is none. -/
theorem state_of_not_live {t : T} :
    ¬k.live t ↔ (k.task t).state = .seed ∨ (k.task t).state = .deleted := by
  unfold Kernel.live Ktask.live
  cases (k.task t).state with
  | _ => simp

theorem taskEnd_eq_none_iff {t : T} : k.taskEnd t = none ↔ ¬k.live t := by
  rw [state_of_not_live]
  unfold Kernel.taskEnd
  cases (k.task t).state with
  | _ => simp

end Chains

/-! ## What a failed deletion leaves -/

section Deletions

variable {T O : Type} [DecidableEq T] [DecidableEq O] [Fintype T] [Fintype O]

/-- One call, check by check. -/
theorem undone_iff {c : Cpu T O} (hl : Lists c.kernel) (hstuck : c.kernel.stuck = false)
    {task : Option T} (hreturns : c.delReturns task) : c.Undone task ↔ c.delClean task := by
  rcases c with ⟨k, on⟩
  change Lists k at hl
  change k.stuck = false at hstuck
  unfold Cpu.delReturns at hreturns
  unfold Cpu.Undone Cpu.delClean
  unfold Cpu.taskDel Cpu.criticalEnter Cpu.criticalExit at *
  dsimp only at *
  by_cases hintrpt : k.intrptNested > 0
  · rw [if_pos hintrpt]
    exact iff_of_true (fun _ => rfl) fun h => absurd h (by omega)
  have hzero : k.intrptNested = 0 := by omega
  rw [if_neg hintrpt] at hreturns ⊢
  by_cases hidle : (k.task (task.getD k.active)).prio = idlePri
  · -- The one way out that leaves interrupts as `criticalEnter` made them.
    rw [if_pos hidle, if_pos hidle]
    constructor
    · intro h _
      have hon := congrArg Cpu.intrptOn (h (by simp))
      exact hon.symm
    · intro h _
      rw [h hzero]
  rw [if_neg hidle] at hreturns ⊢
  rw [if_neg hidle]
  by_cases hstatic : (k.task (task.getD k.active)).isStatic = false
  · rw [if_pos hstatic]
    refine iff_of_true (fun _ => rfl) fun _ h => ?_
    rw [hstatic] at h
    cases h
  rw [if_neg hstatic] at hreturns ⊢
  by_cases hlock : task.getD k.active = k.active ∧ k.schedLock > 0
  · rw [if_pos hlock]
    exact iff_of_true (fun _ => rfl) fun _ _ h => absurd hlock h
  rw [if_neg hlock] at hreturns ⊢
  -- From here on the mutexes are freed, whatever comes of it.
  have hlive := mutexFreeLoop_live ((Fintype.card T + 1) * (Fintype.card O + 1)) hl
    (k.task (task.getD k.active)).mutexList (task.getD k.active)
  change (k.taskMutexFree _).live _ ↔ _ at hlive
  by_cases hends : k.live (task.getD k.active)
  · cases hend : (k.taskMutexFree (task.getD k.active)).taskEnd (task.getD k.active) with
    | none => exact absurd (hlive.mpr hends) (taskEnd_eq_none_iff.mp hend)
    | some k' =>
        refine iff_of_true (fun h => absurd rfl h) fun _ _ _ h => ?_
        exact absurd hends (state_of_not_live.mpr h)
  · rw [taskEnd_eq_none_iff.mpr (fun h => hends (hlive.mp h))]
    have heq := taskMutexFree_eq_iff hl hstuck (task.getD k.active)
    constructor
    · intro h _ _ _ _
      exact heq.mp (congrArg Cpu.kernel (h (by simp)))
    · intro h _
      rw [heq.mpr (h hzero (by simpa using hstatic) hlock (state_of_not_live.mp hends))]

/-- Wherever a run of the kernel ends, and whether interrupts are enabled or not, a
    deletion that comes back and fails has changed nothing exactly where `Cpu.delClean` says
    so. -/
theorem task_del_undone_iff {idle : T} {resSem : O} {as : List (KernelAct T O)} {k : Kernel T O}
    (h : Run.run Kernel.step (Kernel.init idle resSem) as = some k) (intrptOn : Bool)
    (task : Option T) (hreturns : Cpu.delReturns ⟨k, intrptOn⟩ task) :
    Cpu.Undone ⟨k, intrptOn⟩ task ↔ Cpu.delClean ⟨k, intrptOn⟩ task :=
  undone_iff (run_sound h).lists (run_not_stuck h) hreturns

/-- A task of priority 10 takes a mutex and is deleted, and one of priority 20 takes the
    mutex then. -/
def heldRun : List (KernelAct (Option Bool) Bool) :=
  [.call (.taskCreate (some false) 10 0 true true), .call (.taskCreate (some true) 20 0 true true),
    .call (.mutexCreate true true), .start, .call (.mutexLock true 0), .call (.taskDel none),
    .call (.mutexLock true 0)]

/-- Nothing changes when the running task deletes itself with the scheduler locked. -/
theorem task_del_undone_locked :
    ∃ k, Run.run Kernel.step (Kernel.init none false) (heldRun ++ [.call .schedDisable]) = some k ∧
      (Cpu.taskDel ⟨k, true⟩ none).1 = .schedDisable ∧ Cpu.Undone ⟨k, true⟩ none := by
  have hrun : (Run.run Kernel.step (Kernel.init none false) (heldRun ++ [.call .schedDisable])).map
      (fun k => decide ((Cpu.taskDel ⟨k, true⟩ none).1 = .schedDisable ∧
        (Cpu.taskDel ⟨k, true⟩ none).2.kernel.stuck = false ∧
        (k.task k.active).prio ≠ idlePri ∧ k.schedLock > 0)) = some true := by decide +kernel
  rcases Option.map_eq_some_iff.mp hrun with ⟨k, hk, hval⟩
  obtain ⟨hdel, hreturns, hprio, hlock⟩ := of_decide_eq_true hval
  refine ⟨k, hk, hdel, (task_del_undone_iff hk true none hreturns).mpr fun _ => ?_⟩
  -- the running task may not be deleted now
  dsimp only [Option.getD_none]
  rw [if_neg hprio]
  exact fun _ hnot => absurd ⟨rfl, hlock⟩ hnot

/-- Whoever tries to delete the idle task goes on with interrupts disabled, and deleting
    the first task of `heldRun` once more takes the mutex from the second. -/
theorem task_del_not_undone :
    (∃ k, Run.run Kernel.step (Kernel.init none false) heldRun = some k ∧
      Cpu.delReturns ⟨k, true⟩ (some none) ∧
      (Cpu.taskDel ⟨k, true⟩ (some none)).1 = .taskDelNotAllowed ∧
      (Cpu.taskDel ⟨k, true⟩ (some none)).2.intrptOn = false ∧
      ¬Cpu.Undone ⟨k, true⟩ (some none)) ∧
    ∃ k, Run.run Kernel.step (Kernel.init none false) heldRun = some k ∧
      Cpu.delReturns ⟨k, true⟩ (some (some false)) ∧
      (Cpu.taskDel ⟨k, true⟩ (some (some false))).1 = .invTaskState ∧
      (k.obj true).mutexTask = some (some true) ∧
      ((Cpu.taskDel ⟨k, true⟩ (some (some false))).2.kernel.obj true).mutexTask = none ∧
      ¬Cpu.Undone ⟨k, true⟩ (some (some false)) := by
  have hrun : (Run.run Kernel.step (Kernel.init none false) heldRun).map
      (fun k => (((Cpu.taskDel ⟨k, true⟩ (some none)).1,
          (Cpu.taskDel ⟨k, true⟩ (some none)).2.intrptOn,
          (Cpu.taskDel ⟨k, true⟩ (some none)).2.kernel.stuck),
        (Cpu.taskDel ⟨k, true⟩ (some (some false))).1, (k.obj true).mutexTask,
        ((Cpu.taskDel ⟨k, true⟩ (some (some false))).2.kernel.obj true).mutexTask,
        (Cpu.taskDel ⟨k, true⟩ (some (some false))).2.kernel.stuck))
      = some ((.taskDelNotAllowed, false, false), .invTaskState, some (some true), none, false) := by
    decide +kernel
  rcases Option.map_eq_some_iff.mp hrun with ⟨k, hk, hval⟩
  simp only [Prod.mk.injEq] at hval
  rcases hval with ⟨⟨hidle, hoff, hgoes⟩, hdel, hheld, hfreed, hback⟩
  refine ⟨⟨k, hk, hgoes, hidle, hoff, fun h => ?_⟩, k, hk, hback, hdel, hheld, hfreed,
    fun h => ?_⟩
  · have hsame := congrArg Cpu.intrptOn (h (by rw [hidle]; simp))
    rw [hoff] at hsame
    cases hsame
  · have hsame := congrArg (fun c => (c.kernel.obj true).mutexTask) (h (by rw [hdel]; simp))
    dsimp only at hsame
    rw [hfreed, hheld] at hsame
    cases hsame

end Deletions

end Rhino

end Wujian100
