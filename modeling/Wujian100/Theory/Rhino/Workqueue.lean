import Wujian100.Core.Rhino.Workqueue
import Wujian100.Library.Run

/-!
# Works Are Called in the Order They Came

The list of a queue and its semaphore change in separate critical sections, so that
the two agree only once what is under way is counted with them. `Moved` names what a
step does to the queues; what is counted and what is listed follow from it.

## Main definitions

* `Works.pending`, `Kworkqueue.tokens`: Works listed whose give is still to come, and
  what the worker has taken without a work yet.
* `Moved`: What a step does to the queues.
* `WorksListed`: Every work is on one list at most, and knows it.
* `WorksLogged`: What was put on a queue was called, in this order, or is in hand or
  listed.

## Theorems

* `step_moved`: Every step does one of these.
* `work_run_matched`: The semaphore counts the works, and each accepted call of
  `krhino_work_run` is a call of the handler or will be.
-/

namespace Wujian100

namespace Rhino

variable {W : Type}

/-! ## What is counted -/

/-- The job of the worker, from the moment it takes it until the handler returns. -/
def Kworkqueue.inHand (x : Kworkqueue W) : List (Job W) :=
  match x.worker with
  | .took j | .handle j => [j]
  | _ => []

/-- The job whose handler has been called and has not returned. -/
def Kworkqueue.inCall (x : Kworkqueue W) : List (Job W) :=
  match x.worker with
  | .handle j => [j]
  | _ => []

/-- What the worker has taken, or was handed, and not used to remove a work. -/
def Kworkqueue.tokens (x : Kworkqueue W) : Nat :=
  match x.worker with
  | .got => 1
  | _ => 0

/-- Whether the callback of a timer has a give to come. -/
def Works.cbPending (s : Works W) (q : Nat) : Nat :=
  match s.callback with
  | some (w, true) => if q = (s.work w).cbArg then 1 else 0
  | _ => 0

/-- Works listed whose give is still to come. -/
def Works.pending (s : Works W) (q : Nat) : Nat :=
  s.giving.countP (fun p => q = p.1) + s.cbPending q

/-- The semaphore, with what is to come and what has been taken. -/
def Works.tally (s : Works W) (q : Nat) : Nat :=
  (s.queue q).count + s.pending q + (s.queue q).tokens

/-! ## What a step is -/

/-- `krhino_sem_give` fails. -/
def Works.giveFails (s : Works W) (q : Nat) : Prop :=
  (s.queue q).hasSem = false ∨
    (s.queue q).worker ≠ .blocked ∧ (s.queue q).count = 2 ^ 32 - 1

/-- Every way a step can go, with the tests that led there. -/
inductive WorkStep [DecidableEq W] (s : Works W) : WorkAct W → Works W → Prop where
  | refused {q : Nat} {w : W} {room : Bool} :
      WorkStep s (.run q w room) { s with runs := s.runs + 1 }
  | queued {q : Nat} {w : W} (hdly : (s.work w).dly ≠ 0) :
      WorkStep s (.run q w true) { s with
        runs := s.runs + 1
        timerQueue := s.timerQueue ++ [.argChgAuto w q s.runs]
        returned := s.returned ++ [(q, ⟨w, s.runs⟩)] }
  | inserted {q : Nat} {w : W} {room : Bool} (hdly : (s.work w).dly = 0)
      (hcurrent : (s.queue q).workCurrent ≠ some w) (hexit : (s.work w).workExit = false) :
      WorkStep s (.run q w room) { s.insert q ⟨w, s.runs⟩ with
        runs := s.runs + 1
        giving := s.giving ++ [(q, ⟨w, s.runs⟩)] }
  | gave {q : Nat} {j : Job W} {x : Kworkqueue W} (hmem : (q, j) ∈ s.giving)
      (hx : (s.queue q).worker = .blocked ∧ x = { s.queue q with worker := .got } ∨
        (s.queue q).worker ≠ .blocked ∧ x = { s.queue q with count := (s.queue q).count + 1 }) :
      WorkStep s (.give q j) { s with
        queue := Function.update s.queue q x
        giving := s.giving.erase (q, j)
        returned := s.returned ++ [(q, j)] }
  | giveFailed {q : Nat} {j : Job W} (hmem : (q, j) ∈ s.giving) (hfail : s.giveFails q) :
      WorkStep s (.give q j) { s with giving := s.giving.erase (q, j) }
  | cancelRead {w : W} {q : Nat} {room : Bool} (hwq : (s.work w).wq = some q) :
      WorkStep s (.cancel w room) { s with
        cancelling := s.cancelling ++ [⟨w, q, s.returnedJobs w⟩] }
  | cancelStop {w : W} (hwq : (s.work w).wq = none) (hdly : (s.work w).dly > 0) :
      WorkStep s (.cancel w true) { s with
        timerQueue := s.timerQueue ++ [.stop w (s.returnedJobs w)] }
  | cancelNone {w : W} {room : Bool} (hwq : (s.work w).wq = none)
      (hno : ¬((s.work w).dly > 0 ∧ room = true)) :
      WorkStep s (.cancel w room) { s with revoked := s.revoked ++ s.returnedJobs w }
  | cancelRefused {c : Cancel W} (hmem : c ∈ s.cancelling) :
      WorkStep s (.cancelEnd c) { s with cancelling := s.cancelling.erase c }
  | cancelDone {c : Cancel W} (hmem : c ∈ s.cancelling)
      (hcurrent : (s.queue c.wq).workCurrent ≠ some c.work)
      (hexit : (s.work c.work).workExit = false) :
      WorkStep s (.cancelEnd c) { (s.unlink c.work).modWork c.work fun x => { x with wq := none } with
        cancelling := s.cancelling.erase c
        revoked := s.revoked ++ c.jobs }
  | take {q : Nat} {x : Kworkqueue W} (hworker : (s.queue q).worker = .take)
      (hx : (s.queue q).count > 0 ∧
          x = { s.queue q with count := (s.queue q).count - 1, worker := .got } ∨
        (s.queue q).count = 0 ∧ x = { s.queue q with worker := .blocked }) :
      WorkStep s (.worker q) (s.modQueue q fun _ => x)
  | remove {q : Nat} {j : Job W} {rest : List (Job W)} (hworker : (s.queue q).worker = .got)
      (hlist : (s.queue q).workList = j :: rest) :
      WorkStep s (.worker q) ((s.modQueue q fun x =>
        { x with workList := rest, workCurrent := some j.work, worker := .took j }).modWork j.work
          fun x => { x with workExit := false })
  | wild {q : Nat} (hworker : (s.queue q).worker = .got) (hlist : (s.queue q).workList = []) :
      WorkStep s (.worker q) (s.modQueue q fun x => { x with worker := .wild })
  | call {q : Nat} {j : Job W} (hworker : (s.queue q).worker = .took j) :
      WorkStep s (.worker q) { s.modQueue q fun x => { x with worker := .handle j } with
        called := Function.update s.called q (s.called q ++ [j]) }
  | finish {q : Nat} {j : Job W} (hworker : (s.queue q).worker = .handle j) :
      WorkStep s (.worker q) { s.modQueue q fun x =>
          { x with workCurrent := none, worker := .take } with
        finished := Function.update s.finished q (s.finished q ++ [j]) }
  | delBegin {q : Nat} {l : List (Nat × DelPc)} (hl : l = s.deleting ∨ l = s.deleting ++ [(q, .look)]) :
      WorkStep s (.del q) { s with deleting := l }
  | delRefused {q : Nat} {pc : DelPc} (hmem : (q, pc) ∈ s.deleting) (hpc : pc ≠ .unlist) :
      WorkStep s (.delNext q pc) { s with deleting := s.deleting.erase (q, pc) }
  | delIdle {q : Nat} (hmem : (q, .look) ∈ s.deleting) (hlist : (s.queue q).workList = [])
      (hcurrent : (s.queue q).workCurrent = none) :
      WorkStep s (.delNext q .look) { s with
        deleting := s.deleting.erase (q, .look) ++ [(q, .task)] }
  | delTask {q : Nat} (hmem : (q, .task) ∈ s.deleting) :
      WorkStep s (.delNext q .task) { s.modQueue q fun x => { x with worker := .deleted } with
        deleting := s.deleting.erase (q, .task) ++ [(q, .sem)] }
  | delSem {q : Nat} (hmem : (q, .sem) ∈ s.deleting) :
      WorkStep s (.delNext q .sem) { s.modQueue q fun x => { x with hasSem := false } with
        deleting := s.deleting.erase (q, .sem) ++ [(q, .unlist)] }
  | delDone {q : Nat} (hmem : (q, .unlist) ∈ s.deleting) :
      WorkStep s (.delNext q .unlist) { s.modQueue q fun x => { x with listed := false } with
        deleting := s.deleting.erase (q, .unlist) }
  | started {w : W} {q run : Nat} {rest : List (WorkCmd W)} (hidle : s.callback = none)
      (hqueue : s.timerQueue = .argChgAuto w q run :: rest) :
      WorkStep s .command { s.modWork w fun x =>
          { x with active := true, cbArg := q, armed := run } with
        timerQueue := rest
        dropped := s.dropped ++ s.timed w }
  | stopped {w : W} {jobs : List (Job W)} {rest : List (WorkCmd W)} (hidle : s.callback = none)
      (hqueue : s.timerQueue = .stop w jobs :: rest) :
      WorkStep s .command { s.modWork w fun x => { x with active := false } with
        timerQueue := rest
        revoked := s.revoked ++ jobs
        dropped := s.dropped ++ s.timed w }
  | fired {w : W} (hidle : s.callback = none) (hactive : (s.work w).active = true) :
      WorkStep s (.fire w) { s with callback := some (w, false) }
  | cbRefused {w : W} (hcb : s.callback = some (w, false)) :
      WorkStep s .timerCb
        ({ s with dropped := s.dropped ++ [s.armedJob w] }.endCallback w)
  | cbInserted {w : W} (hcb : s.callback = some (w, false))
      (hcurrent : (s.queue (s.work w).cbArg).workCurrent ≠ some w)
      (hexit : (s.work w).workExit = false) :
      WorkStep s .timerCb { s.insert (s.work w).cbArg (s.armedJob w) with
        callback := some (w, true) }
  | cbGave {w : W} {x : Kworkqueue W} (hcb : s.callback = some (w, true))
      (hx : (s.queue (s.work w).cbArg).worker = .blocked ∧
          x = { s.queue (s.work w).cbArg with worker := .got } ∨
        (s.queue (s.work w).cbArg).worker ≠ .blocked ∧
          x = { s.queue (s.work w).cbArg with count := (s.queue (s.work w).cbArg).count + 1 }) :
      WorkStep s .timerCb ((s.modQueue (s.work w).cbArg fun _ => x).endCallback w)
  | cbGiveFailed {w : W} (hcb : s.callback = some (w, true))
      (hfail : s.giveFails (s.work w).cbArg) :
      WorkStep s .timerCb (s.endCallback w)

section Inversion

variable [DecidableEq W] {s s' : Works W}

omit [DecidableEq W] in
/-- What `krhino_sem_give` does, and when it fails. -/
theorem semGive_eq (s : Works W) (q : Nat) :
    ((s.semGive q).1 ≠ .success ∧ (s.semGive q).2 = s ∧ s.giveFails q) ∨
      (s.semGive q).1 = .success ∧ ∃ x, (s.semGive q).2 = s.modQueue q (fun _ => x) ∧
        ((s.queue q).worker = .blocked ∧ x = { s.queue q with worker := .got } ∨
          (s.queue q).worker ≠ .blocked ∧
            x = { s.queue q with count := (s.queue q).count + 1 }) := by
  unfold Works.semGive
  by_cases hsem : (s.queue q).hasSem = false
  · rw [if_pos hsem]
    exact .inl ⟨by simp, rfl, .inl hsem⟩
  · rw [if_neg hsem]
    cases hworker : (s.queue q).worker with
    | blocked => exact .inr ⟨rfl, _, rfl, .inl ⟨rfl, rfl⟩⟩
    | _ =>
        dsimp only
        split_ifs with hcount
        · exact .inl ⟨by simp, rfl, .inr ⟨by simp [hworker], hcount⟩⟩
        · exact .inr ⟨rfl, _, rfl, .inr ⟨by simp, rfl⟩⟩

theorem run_workStep {q : Nat} {w : W} {room : Bool} (hstep : s.step (.run q w room) = some s') :
    WorkStep s (.run q w room) s' := by
  unfold Works.step Works.workRun at hstep
  dsimp only at hstep
  split_ifs at hstep with hdly hcurrent hexit hroom
  · rw [← Option.some.inj hstep]
    exact .refused
  · rw [← Option.some.inj hstep]
    exact .refused
  · rw [← Option.some.inj hstep]
    exact .inserted hdly hcurrent (by simpa using hexit)
  · subst hroom
    rw [← Option.some.inj hstep]
    exact .queued hdly
  · rw [← Option.some.inj hstep]
    exact .refused

theorem give_workStep {q : Nat} {j : Job W} (hstep : s.step (.give q j) = some s') :
    WorkStep s (.give q j) s' := by
  unfold Works.step at hstep
  dsimp only at hstep
  split_ifs at hstep with hmem
  rcases semGive_eq { s with giving := s.giving.erase (q, j) } q with
    ⟨hne, hsame, hfail⟩ | ⟨hok, x, hx, hcase⟩
  · rw [← Option.some.inj hstep, hsame]
    unfold Works.returns
    rw [if_neg hne]
    exact .giveFailed hmem hfail
  · rw [← Option.some.inj hstep, hok, hx]
    exact .gave hmem hcase

theorem cancel_workStep {w : W} {room : Bool} (hstep : s.step (.cancel w room) = some s') :
    WorkStep s (.cancel w room) s' := by
  unfold Works.step Works.workCancel at hstep
  dsimp only at hstep
  cases hwq : (s.work w).wq with
  | some q =>
      rw [hwq] at hstep
      rw [← Option.some.inj hstep]
      exact .cancelRead hwq
  | none =>
      rw [hwq] at hstep
      dsimp only at hstep
      split_ifs at hstep with hstop
      · rw [hstop.2, ← Option.some.inj hstep]
        exact .cancelStop hwq hstop.1
      · rw [← Option.some.inj hstep]
        exact .cancelNone hwq hstop

theorem cancelEnd_workStep {c : Cancel W} (hstep : s.step (.cancelEnd c) = some s') :
    WorkStep s (.cancelEnd c) s' := by
  unfold Works.step Works.workCancelEnd at hstep
  dsimp only at hstep
  split_ifs at hstep with hmem hcurrent hexit
  · rw [← Option.some.inj hstep]
    exact .cancelRefused hmem
  · rw [← Option.some.inj hstep]
    exact .cancelRefused hmem
  · rw [← Option.some.inj hstep]
    exact .cancelDone hmem hcurrent (by simpa using hexit)

theorem worker_workStep {q : Nat} (hstep : s.step (.worker q) = some s') :
    WorkStep s (.worker q) s' := by
  unfold Works.step Works.workerTask at hstep
  dsimp only at hstep
  cases hworker : (s.queue q).worker with
  | take =>
      rw [hworker] at hstep
      dsimp only at hstep
      split_ifs at hstep with hcount
      · rw [← Option.some.inj hstep]
        exact .take hworker (.inl ⟨hcount, rfl⟩)
      · rw [← Option.some.inj hstep]
        exact .take hworker (.inr ⟨Nat.eq_zero_of_not_pos hcount, rfl⟩)
  | got =>
      rw [hworker] at hstep
      dsimp only at hstep
      cases hlist : (s.queue q).workList with
      | nil =>
          rw [hlist] at hstep
          rw [← Option.some.inj hstep]
          exact .wild hworker hlist
      | cons j rest =>
          rw [hlist] at hstep
          rw [← Option.some.inj hstep]
          exact .remove hworker hlist
  | took j =>
      rw [hworker] at hstep
      rw [← Option.some.inj hstep]
      exact .call hworker
  | handle j =>
      rw [hworker] at hstep
      rw [← Option.some.inj hstep]
      exact .finish hworker
  | blocked | wild | deleted =>
      rw [hworker] at hstep
      cases hstep

theorem delNext_workStep {q : Nat} {pc : DelPc} (hstep : s.step (.delNext q pc) = some s') :
    WorkStep s (.delNext q pc) s' := by
  unfold Works.step at hstep
  dsimp only at hstep
  by_cases hmem : (q, pc) ∈ s.deleting
  swap
  · rw [if_neg hmem] at hstep
    cases hstep
  rw [if_pos hmem] at hstep
  unfold Works.workqueueDel at hstep
  cases pc with
  | look =>
      dsimp only at hstep
      split_ifs at hstep with hlist hcurrent
      · rw [← Option.some.inj hstep]
        exact .delRefused hmem (by simp)
      · rw [← Option.some.inj hstep]
        exact .delRefused hmem (by simp)
      · rw [← Option.some.inj hstep]
        exact .delIdle hmem (not_not.mp hlist) (by simpa using hcurrent)
  | task =>
      dsimp only at hstep
      cases hworker : (s.queue q).worker with
      | deleted =>
          rw [hworker] at hstep
          rw [← Option.some.inj hstep]
          exact .delRefused hmem (by simp)
      | _ =>
          rw [hworker] at hstep
          rw [← Option.some.inj hstep]
          exact .delTask hmem
  | sem =>
      dsimp only at hstep
      split_ifs at hstep with hsem
      · rw [← Option.some.inj hstep]
        exact .delRefused hmem (by simp)
      · rw [← Option.some.inj hstep]
        exact .delSem hmem
  | unlist =>
      rw [← Option.some.inj hstep]
      exact .delDone hmem

theorem command_workStep (hstep : s.step .command = some s') : WorkStep s .command s' := by
  cases hcb : s.callback with
  | some p =>
      unfold Works.step at hstep
      dsimp only at hstep
      rw [hcb] at hstep
      cases hstep
  | none =>
      cases hqueue : s.timerQueue with
      | nil =>
          unfold Works.step at hstep
          dsimp only at hstep
          rw [hcb, hqueue] at hstep
          cases hstep
      | cons c rest =>
          have heq : s.step .command = some ({ s with timerQueue := rest }.timerCmdProc c) := by
            unfold Works.step
            simp only [hcb, hqueue]
          rw [heq] at hstep
          rw [← Option.some.inj hstep]
          cases c with
          | argChgAuto w q run => exact .started hcb hqueue
          | stop w jobs => exact .stopped hcb hqueue

theorem timerCb_workStep (hstep : s.step .timerCb = some s') : WorkStep s .timerCb s' := by
  unfold Works.step at hstep
  dsimp only at hstep
  cases hcb : s.callback with
  | none =>
      rw [hcb] at hstep
      cases hstep
  | some p =>
      rcases p with ⟨w, entered⟩
      cases entered with
      | false =>
          rw [hcb] at hstep
          unfold Works.workTimerCb at hstep
          dsimp only at hstep
          by_cases hcurrent : (s.queue (s.work w).cbArg).workCurrent = some w
          · rw [if_pos hcurrent] at hstep
            rw [← Option.some.inj hstep]
            exact .cbRefused hcb
          · rw [if_neg hcurrent] at hstep
            by_cases hexit : (s.work w).workExit = true
            · rw [if_pos hexit] at hstep
              rw [← Option.some.inj hstep]
              exact .cbRefused hcb
            · rw [if_neg hexit] at hstep
              rw [← Option.some.inj hstep]
              exact .cbInserted hcb hcurrent (by simpa using hexit)
      | true =>
          rw [hcb] at hstep
          rcases semGive_eq s (s.work w).cbArg with ⟨-, hsame, hfail⟩ | ⟨-, x, hx, hcase⟩
          · rw [← Option.some.inj hstep, hsame]
            exact .cbGiveFailed hcb hfail
          · rw [← Option.some.inj hstep, hx]
            exact .cbGave hcb hcase

theorem step_workStep {a : WorkAct W} (hstep : s.step a = some s') : WorkStep s a s' := by
  cases a with
  | run q w room => exact run_workStep hstep
  | give q j => exact give_workStep hstep
  | cancel w room => exact cancel_workStep hstep
  | cancelEnd c => exact cancelEnd_workStep hstep
  | worker q => exact worker_workStep hstep
  | delNext q pc => exact delNext_workStep hstep
  | command => exact command_workStep hstep
  | timerCb => exact timerCb_workStep hstep
  | del q =>
      unfold Works.step at hstep
      dsimp only at hstep
      split_ifs at hstep
      · rw [← Option.some.inj hstep]
        exact .delBegin (.inr rfl)
      · rw [← Option.some.inj hstep]
        exact .delBegin (.inl rfl)
  | fire w =>
      unfold Works.step at hstep
      dsimp only at hstep
      split_ifs at hstep with hfire
      rw [← Option.some.inj hstep]
      exact .fired hfire.1 hfire.2

end Inversion

/-! ## What a step does to the queues -/

/-- Works and logs that a step leaves as they are. A work that is on no list may
    forget its queue. -/
structure SameWorks (s s' : Works W) : Prop where
  workExit : ∀ w, (s'.work w).workExit = (s.work w).workExit
  wq : ∀ w, (s'.work w).wq = (s.work w).wq ∨
    (s'.work w).wq = none ∧ (s.work w).workExit = false

structure SameLogs (s s' : Works W) : Prop where
  accepted : s'.accepted = s.accepted
  called : s'.called = s.called
  finished : s'.finished = s.finished

/-- One more give to come, or one fewer. -/
def PendingMore (s s' : Works W) (q : Nat) : Prop :=
  ∀ u, s'.pending u = s.pending u + if u = q then 1 else 0

/-- What a step does to the queues, and whether the semaphore loses count by it. -/
inductive Moved (s s' : Works W) : Bool → Prop where
  | still (hqueue : s'.queue = s.queue) (hworks : SameWorks s s') (hlogs : SameLogs s s')
      (hpending : s'.pending = s.pending) :
      Moved s s' false
  | insert {q : Nat} {j : Job W} (hcurrent : (s.queue q).workCurrent ≠ some j.work)
      (hexit : (s.work j.work).workExit = false)
      (hqueue : s'.queue = Function.update s.queue q
        { s.queue q with workList := (s.queue q).workList ++ [j] })
      (hself : (s'.work j.work).workExit = true ∧ (s'.work j.work).wq = some q)
      (hother : ∀ w, w ≠ j.work → (s'.work w).workExit = (s.work w).workExit ∧
        (s'.work w).wq = (s.work w).wq)
      (hpending : PendingMore s s' q)
      (haccepted : s'.accepted = Function.update s.accepted q (s.accepted q ++ [j]))
      (hcalled : s'.called = s.called) (hfinished : s'.finished = s.finished) :
      Moved s s' false
  | give {q : Nat} {x : Kworkqueue W} (hqueue : s'.queue = Function.update s.queue q x)
      (hx : (s.queue q).worker = .blocked ∧ x = { s.queue q with worker := .got } ∨
        (s.queue q).worker ≠ .blocked ∧
          x = { s.queue q with count := (s.queue q).count + 1 })
      (hworks : SameWorks s s') (hlogs : SameLogs s s') (hpending : PendingMore s' s q) :
      Moved s s' false
  | lost {q : Nat} (hqueue : s'.queue = s.queue) (hworks : SameWorks s s') (hlogs : SameLogs s s')
      (hpending : PendingMore s' s q) :
      Moved s s' true
  | take {q : Nat} {x : Kworkqueue W} (hworker : (s.queue q).worker = .take)
      (hqueue : s'.queue = Function.update s.queue q x)
      (hx : (s.queue q).count > 0 ∧
          x = { s.queue q with count := (s.queue q).count - 1, worker := .got } ∨
        (s.queue q).count = 0 ∧ x = { s.queue q with worker := .blocked })
      (hworks : SameWorks s s') (hlogs : SameLogs s s') (hpending : s'.pending = s.pending) :
      Moved s s' false
  | remove {q : Nat} {j : Job W} {rest : List (Job W)} (hworker : (s.queue q).worker = .got)
      (hlist : (s.queue q).workList = j :: rest)
      (hqueue : s'.queue = Function.update s.queue q
        { s.queue q with workList := rest, workCurrent := some j.work, worker := .took j })
      (hself : (s'.work j.work).workExit = false)
      (hother : ∀ w, w ≠ j.work → (s'.work w).workExit = (s.work w).workExit)
      (hwq : ∀ w, (s'.work w).wq = (s.work w).wq) (hlogs : SameLogs s s')
      (hpending : s'.pending = s.pending) :
      Moved s s' false
  | wild {q : Nat} (hworker : (s.queue q).worker = .got) (hlist : (s.queue q).workList = [])
      (hqueue : s'.queue = Function.update s.queue q { s.queue q with worker := .wild })
      (hworks : SameWorks s s') (hlogs : SameLogs s s') (hpending : s'.pending = s.pending) :
      Moved s s' true
  | call {q : Nat} {j : Job W} (hworker : (s.queue q).worker = .took j)
      (hqueue : s'.queue = Function.update s.queue q { s.queue q with worker := .handle j })
      (hworks : SameWorks s s') (haccepted : s'.accepted = s.accepted)
      (hcalled : s'.called = Function.update s.called q (s.called q ++ [j]))
      (hfinished : s'.finished = s.finished) (hpending : s'.pending = s.pending) :
      Moved s s' false
  | finish {q : Nat} {j : Job W} (hworker : (s.queue q).worker = .handle j)
      (hqueue : s'.queue = Function.update s.queue q
        { s.queue q with workCurrent := none, worker := .take })
      (hworks : SameWorks s s') (haccepted : s'.accepted = s.accepted)
      (hcalled : s'.called = s.called)
      (hfinished : s'.finished = Function.update s.finished q (s.finished q ++ [j]))
      (hpending : s'.pending = s.pending) :
      Moved s s' false
  | retire {q : Nat}
      (hqueue : s'.queue = Function.update s.queue q { s.queue q with worker := .deleted })
      (hworks : SameWorks s s') (hlogs : SameLogs s s') (hpending : s'.pending = s.pending) :
      Moved s s' true
  | fade {q : Nat} {x : Kworkqueue W} (hqueue : s'.queue = Function.update s.queue q x)
      (hx : x = { s.queue q with hasSem := false } ∨ x = { s.queue q with listed := false })
      (hworks : SameWorks s s') (hlogs : SameLogs s s') (hpending : s'.pending = s.pending) :
      Moved s s' false

/-- Every work is on one list at most, its flags say on which, and the worker's work
    is the current one. -/
structure WorksListed (s : Works W) : Prop where
  workExit : ∀ q, ∀ j ∈ (s.queue q).workList, (s.work j.work).workExit = true
  wq : ∀ q, ∀ j ∈ (s.queue q).workList, (s.work j.work).wq = some q
  once : ∀ q, ((s.queue q).workList.map Job.work).Nodup
  current : ∀ q, (s.queue q).worker ≠ .deleted →
    (s.queue q).workCurrent = (s.queue q).inHand.head?.map Job.work

/-- What was put on a queue has been called in this order, or is in hand or listed. -/
def Kworkqueue.logged (x : Kworkqueue W) (accepted called finished : List (Job W)) : Prop :=
  x.worker ≠ .deleted →
    accepted = finished ++ x.inHand ++ x.workList ∧ called = finished ++ x.inCall

/-- So it is on every queue. -/
def WorksLogged (s : Works W) : Prop :=
  ∀ q, (s.queue q).logged (s.accepted q) (s.called q) (s.finished q)

/-! ## Parts of the steps -/

section Parts

theorem pending_congr {s s' : Works W} (hgiving : s'.giving = s.giving)
    (hcallback : s'.callback = s.callback) (harg : ∀ w, (s'.work w).cbArg = (s.work w).cbArg) :
    s'.pending = s.pending := by
  ext q
  unfold Works.pending Works.cbPending
  rw [hgiving, hcallback]
  simp only [harg]

theorem SameWorks.of_eq {s s' : Works W} (h : s'.work = s.work) : SameWorks s s' :=
  ⟨fun w => by rw [h], fun w => .inl (by rw [h])⟩

variable [DecidableEq W] {s : Works W} {w : W}

/-- A field of the works that a change of one of them leaves alone. -/
theorem work_field {α : Type} {s' : Works W} {x : Kwork}
    (hwork : s'.work = Function.update s.work w x) (g : Kwork → α) (h : g x = g (s.work w)) (u : W) :
    g (s'.work u) = g (s.work u) := by
  rw [hwork]
  by_cases hu : u = w
  · rw [hu, Function.update_self, h]
  · rw [Function.update_of_ne hu]

theorem SameWorks.update {s' : Works W} {x : Kwork} (hwork : s'.work = Function.update s.work w x)
    (hexit : x.workExit = (s.work w).workExit) (hwq : x.wq = (s.work w).wq) : SameWorks s s' :=
  ⟨work_field hwork _ hexit, fun u => .inl (work_field hwork _ hwq u)⟩

/-- A work that is on no list is taken off none. -/
theorem unlink_eq (h : WorksListed s) (hexit : (s.work w).workExit = false) : s.unlink w = s := by
  unfold Works.unlink
  have hqueue : (fun q => { s.queue q with
      workList := (s.queue q).workList.eraseP fun j => j.work = w }) = s.queue := by
    ext1 q
    have hnone : ∀ j ∈ (s.queue q).workList, ¬decide (j.work = w) = true := by
      intro j hj hw
      rw [decide_eq_true_eq] at hw
      have htrue := h.workExit q j hj
      rw [hw, hexit] at htrue
      cases htrue
    rw [List.eraseP_of_forall_not hnone]
  rw [hqueue]

/-- What the critical sections of `krhino_work_run` and `work_timer_cb` do. -/
theorem insert_moved {s' : Works W} (h : WorksListed s) {q : Nat} {j : Job W}
    (hcurrent : (s.queue q).workCurrent ≠ some j.work) (hexit : (s.work j.work).workExit = false)
    (hqueue : s'.queue = (s.insert q j).queue) (hwork : s'.work = (s.insert q j).work)
    (hacc : s'.accepted = (s.insert q j).accepted) (hcalled : s'.called = s.called)
    (hfinished : s'.finished = s.finished) (hpending : PendingMore s s' q) : Moved s s' false := by
  have hinsert : s.insert q j = { (s.modQueue q fun x =>
      { x with workList := x.workList ++ [j] }).modWork j.work fun x =>
        { x with wq := some q, workExit := true } with
      accepted := Function.update s.accepted q (s.accepted q ++ [j]) } := by
    unfold Works.insert
    rw [unlink_eq h hexit]
    rfl
  rw [hinsert] at hqueue hwork hacc
  refine .insert hcurrent hexit hqueue ?_ ?_ hpending hacc hcalled hfinished
  · rw [hwork]
    unfold Works.modWork
    dsimp only
    rw [Function.update_self]
    exact ⟨rfl, rfl⟩
  · intro u hu
    rw [hwork]
    unfold Works.modWork
    dsimp only
    rw [Function.update_of_ne hu]
    exact ⟨rfl, rfl⟩

end Parts

/-! ## Every step -/

section Steps

variable [DecidableEq W] {s s' : Works W}

omit [DecidableEq W] in
theorem still_of_eq (hqueue : s'.queue = s.queue) (hwork : s'.work = s.work)
    (hgiving : s'.giving = s.giving) (hcallback : s'.cbPending = s.cbPending)
    (hlogs : SameLogs s s') : Moved s s' false := by
  refine .still hqueue (.of_eq hwork) hlogs ?_
  ext q
  unfold Works.pending
  rw [hgiving, hcallback]

omit [DecidableEq W] in
theorem cbPending_congr (hcallback : s'.callback = s.callback)
    (harg : ∀ w, (s'.work w).cbArg = (s.work w).cbArg) : s'.cbPending = s.cbPending := by
  ext q
  unfold Works.cbPending
  rw [hcallback]
  simp only [harg]

omit [DecidableEq W] in
theorem cbPending_none (h : ∀ w, s.callback ≠ some (w, true)) (q : Nat) : s.cbPending q = 0 := by
  unfold Works.cbPending
  split
  · rename_i w hw
    exact absurd hw (h w)
  · rfl

omit [DecidableEq W] in
theorem cbPending_some {w : W} (h : s.callback = some (w, true)) (q : Nat) :
    s.cbPending q = if q = (s.work w).cbArg then 1 else 0 := by
  unfold Works.cbPending
  rw [h]

omit [DecidableEq W] in
/-- A work is inserted, and the call has its give to do. -/
theorem giving_more {q : Nat} {j : Job W} (hgiving : s'.giving = s.giving ++ [(q, j)])
    (hcb : s'.cbPending = s.cbPending) : PendingMore s s' q := by
  intro u
  unfold Works.pending
  rw [hgiving, hcb, List.countP_append, List.countP_singleton]
  simp only [decide_eq_true_eq]
  omega

theorem giving_less {q : Nat} {j : Job W} (hmem : (q, j) ∈ s.giving)
    (hgiving : s'.giving = s.giving.erase (q, j)) (hcb : s'.cbPending = s.cbPending) :
    PendingMore s' s q := by
  intro u
  have hperm := (List.perm_cons_erase hmem).countP_eq fun p : Nat × Job W => u = p.1
  rw [List.countP_cons] at hperm
  simp only [decide_eq_true_eq] at hperm
  unfold Works.pending
  rw [hgiving, hcb]
  omega

theorem insert_cbArg (s : Works W) (q : Nat) (j : Job W) (w : W) :
    ((s.insert q j).work w).cbArg = (s.work w).cbArg := by
  have hwork : (s.insert q j).work = Function.update s.work j.work
      { s.work j.work with wq := some q, workExit := true } := rfl
  exact work_field hwork Kwork.cbArg rfl w

/-- The end of a callback that had no give to do, or has done it. -/
theorem endCallback_pending (s : Works W) (w : W) (u : Nat) :
    (s.endCallback w).pending u = s.giving.countP fun p => u = p.1 := by
  have hnone : (s.endCallback w).cbPending u = 0 :=
    cbPending_none (fun _ => by simp [Works.endCallback]) u
  unfold Works.pending
  rw [hnone]
  rfl

theorem endCallback_works (s : Works W) (w : W) : SameWorks s (s.endCallback w) :=
  .update rfl rfl rfl

/-- Where a semaphore loses count: its give fails, its worker is deleted, or finds no
    work. -/
def Works.loses (s : Works W) : WorkAct W → Prop
  | .worker q => (s.queue q).worker = .got ∧ (s.queue q).workList = []
  | .give q _ => s.giveFails q
  | .timerCb => ∃ w, s.callback = some (w, true) ∧ s.giveFails (s.work w).cbArg
  | .delNext _ .task => True
  | _ => False

omit [DecidableEq W] in
theorem keeps_count {a : WorkAct W} (h : Moved s s' false) :
    ∃ b, Moved s s' b ∧ (b = true → s.loses a) :=
  ⟨false, h, by simp⟩

/-- Every step does one of these to the queues. -/
theorem step_moved (h : WorksListed s) {a : WorkAct W} (hstep : WorkStep s a s') :
    ∃ b, Moved s s' b ∧ (b = true → s.loses a) := by
  -- Many steps move no work at all.
  have hstill : ∀ {s' : Works W}, s'.queue = s.queue → s'.work = s.work → s'.giving = s.giving →
      s'.cbPending = s.cbPending → SameLogs s s' → ∃ b, Moved s s' b ∧ (b = true → s.loses a) :=
    fun hq hw hg hc hl => keeps_count (still_of_eq hq hw hg hc hl)
  cases hstep with
  | refused => exact hstill rfl rfl rfl rfl ⟨rfl, rfl, rfl⟩
  | queued hdly => exact hstill rfl rfl rfl rfl ⟨rfl, rfl, rfl⟩
  | inserted hdly hcurrent hexit =>
      refine keeps_count (insert_moved h hcurrent hexit rfl rfl rfl rfl rfl (giving_more rfl ?_))
      exact cbPending_congr rfl (insert_cbArg s _ _)
  | gave hmem hx =>
      exact keeps_count (.give rfl hx (.of_eq rfl) ⟨rfl, rfl, rfl⟩ (giving_less hmem rfl rfl))
  | giveFailed hmem hfail =>
      exact ⟨true, .lost rfl (.of_eq rfl) ⟨rfl, rfl, rfl⟩ (giving_less hmem rfl rfl),
        fun _ => hfail⟩
  | cancelRead hwq => exact hstill rfl rfl rfl rfl ⟨rfl, rfl, rfl⟩
  | cancelStop hwq hdly => exact hstill rfl rfl rfl rfl ⟨rfl, rfl, rfl⟩
  | cancelNone hwq hno => exact hstill rfl rfl rfl rfl ⟨rfl, rfl, rfl⟩
  | cancelRefused hmem => exact hstill rfl rfl rfl rfl ⟨rfl, rfl, rfl⟩
  | @cancelDone c hmem hcurrent hexit =>
      -- A cancelled work is on no list, so taking it off changes none.
      rw [unlink_eq h hexit]
      refine keeps_count (.still rfl ⟨fun u => ?_, fun u => ?_⟩ ⟨rfl, rfl, rfl⟩ ?_)
      · exact work_field (w := c.work) (x := { s.work c.work with wq := none }) rfl Kwork.workExit
          rfl u
      · unfold Works.modWork
        dsimp only
        by_cases hu : u = c.work
        · rw [hu, Function.update_self]
          exact .inr ⟨rfl, hexit⟩
        · rw [Function.update_of_ne hu]
          exact .inl rfl
      · exact pending_congr rfl rfl
          (work_field (w := c.work) (x := { s.work c.work with wq := none }) rfl Kwork.cbArg rfl)
  | take hworker hx =>
      exact keeps_count (.take hworker rfl hx (.of_eq rfl) ⟨rfl, rfl, rfl⟩ rfl)
  | @remove q j rest hworker hlist =>
      refine keeps_count (.remove hworker hlist rfl ?_ ?_ ?_ ⟨rfl, rfl, rfl⟩ ?_)
      · unfold Works.modWork
        dsimp only
        rw [Function.update_self]
      · intro u hu
        exact congrArg Kwork.workExit (Function.update_of_ne hu ..)
      · exact work_field (w := j.work) (x := { s.work j.work with workExit := false }) rfl Kwork.wq rfl
      · exact pending_congr rfl rfl
          (work_field (w := j.work) (x := { s.work j.work with workExit := false }) rfl Kwork.cbArg rfl)
  | wild hworker hlist =>
      exact ⟨true, .wild hworker hlist rfl (.of_eq rfl) ⟨rfl, rfl, rfl⟩ rfl, fun _ => ⟨hworker, hlist⟩⟩
  | call hworker => exact keeps_count (.call hworker rfl (.of_eq rfl) rfl rfl rfl rfl)
  | finish hworker => exact keeps_count (.finish hworker rfl (.of_eq rfl) rfl rfl rfl rfl)
  | delBegin hl => exact hstill rfl rfl rfl rfl ⟨rfl, rfl, rfl⟩
  | delRefused hmem hpc => exact hstill rfl rfl rfl rfl ⟨rfl, rfl, rfl⟩
  | delIdle hmem hlist hcurrent => exact hstill rfl rfl rfl rfl ⟨rfl, rfl, rfl⟩
  | delTask hmem =>
      exact ⟨true, .retire rfl (.of_eq rfl) ⟨rfl, rfl, rfl⟩ rfl, fun _ => trivial⟩
  | delSem hmem => exact keeps_count (.fade rfl (.inl rfl) (.of_eq rfl) ⟨rfl, rfl, rfl⟩ rfl)
  | delDone hmem => exact keeps_count (.fade rfl (.inr rfl) (.of_eq rfl) ⟨rfl, rfl, rfl⟩ rfl)
  | started hidle hqueue =>
      -- Outside the callback nothing is pending with the timer task.
      refine keeps_count (.still rfl (.update rfl rfl rfl) ⟨rfl, rfl, rfl⟩ ?_)
      ext u
      unfold Works.pending
      rw [cbPending_none (s := s) (fun _ => by simp [hidle]),
        cbPending_none (fun _ => by simp [Works.modWork, hidle])]
      rfl
  | @stopped w _ _ hidle hqueue =>
      refine keeps_count (.still rfl (.update rfl rfl rfl) ⟨rfl, rfl, rfl⟩
        (pending_congr rfl rfl ?_))
      exact work_field (w := w) (x := { s.work w with active := false }) rfl Kwork.cbArg rfl
  | fired hidle hactive =>
      refine hstill rfl rfl rfl ?_ ⟨rfl, rfl, rfl⟩
      ext u
      rw [cbPending_none (s := s) (fun _ => by simp [hidle]), cbPending_none (fun _ => by simp)]
  | cbRefused hcb =>
      refine keeps_count (.still rfl (.update rfl rfl rfl) ⟨rfl, rfl, rfl⟩ ?_)
      ext u
      rw [endCallback_pending]
      unfold Works.pending
      rw [cbPending_none (s := s) (fun _ => by simp [hcb]), Nat.add_zero]
  | @cbInserted w hcb hcurrent hexit =>
      refine keeps_count (insert_moved h hcurrent hexit rfl rfl rfl rfl rfl ?_)
      intro u
      unfold Works.pending
      rw [cbPending_none (s := s) (fun _ => by simp [hcb]), cbPending_some rfl]
      dsimp only
      rw [insert_cbArg, Nat.add_zero]
      rfl
  | @cbGave w x hcb hx =>
      refine keeps_count (.give (q := (s.work w).cbArg) (x := x) rfl hx (.update rfl rfl rfl)
        ⟨rfl, rfl, rfl⟩ ?_)
      intro u
      rw [endCallback_pending]
      unfold Works.pending
      rw [cbPending_some hcb]
      rfl
  | @cbGiveFailed w hcb hfail =>
      refine ⟨true, .lost (q := (s.work w).cbArg) rfl (endCallback_works s w) ⟨rfl, rfl, rfl⟩ ?_,
        fun _ => ⟨w, hcb, hfail⟩⟩
      intro u
      rw [endCallback_pending]
      unfold Works.pending
      rw [cbPending_some hcb]

end Steps

/-! ## Lists and logs -/

section Invariants

variable {s s' : Works W} {q : Nat} {x : Kworkqueue W}

/-- The worker's work is the current one. -/
def Kworkqueue.tracked (x : Kworkqueue W) : Prop :=
  x.worker ≠ .deleted → x.workCurrent = x.inHand.head?.map Job.work

theorem update_forall {P : Nat → Kworkqueue W → Prop} (hqueue : s'.queue = Function.update s.queue q x)
    (h : ∀ u, P u (s.queue u)) (hx : P q x) (u : Nat) : P u (s'.queue u) := by
  rw [hqueue]
  by_cases hu : u = q
  · rw [hu, Function.update_self]
    exact hx
  · rw [Function.update_of_ne hu]
    exact h u

/-- Where no list changes. -/
theorem WorksListed.of_lists (h : WorksListed s)
    (hlist : ∀ u, (s'.queue u).workList = (s.queue u).workList) (hworks : SameWorks s s')
    (hcurrent : ∀ u, (s'.queue u).tracked) : WorksListed s' := by
  refine ⟨fun u j hj => ?_, fun u j hj => ?_, fun u => ?_, hcurrent⟩
  · rw [hlist] at hj
    rw [hworks.workExit]
    exact h.workExit u j hj
  · rw [hlist] at hj
    rcases hworks.wq j.work with hsame | ⟨-, hexit⟩
    · rw [hsame]
      exact h.wq u j hj
    · rw [h.workExit u j hj] at hexit
      cases hexit
  · rw [hlist]
    exact h.once u

/-- One queue changes, and its list does not. -/
theorem WorksListed.update (h : WorksListed s) (hqueue : s'.queue = Function.update s.queue q x)
    (hlist : x.workList = (s.queue q).workList) (hworks : SameWorks s s') (hcurrent : x.tracked) :
    WorksListed s' := by
  refine h.of_lists ?_ hworks
    (update_forall (P := fun _ => Kworkqueue.tracked) hqueue h.current hcurrent)
  exact update_forall (P := fun u y => y.workList = (s.queue u).workList) hqueue (fun _ => rfl) hlist

theorem insert_listed (h : WorksListed s) {j : Job W} (hexit : (s.work j.work).workExit = false)
    (hqueue : s'.queue = Function.update s.queue q
      { s.queue q with workList := (s.queue q).workList ++ [j] })
    (hself : (s'.work j.work).workExit = true ∧ (s'.work j.work).wq = some q)
    (hother : ∀ w, w ≠ j.work → (s'.work w).workExit = (s.work w).workExit ∧
      (s'.work w).wq = (s.work w).wq) : WorksListed s' := by
  -- No list has the work yet.
  have hne : ∀ u, ∀ i ∈ (s.queue u).workList, i.work ≠ j.work := by
    intro u i hi he
    have htrue := h.workExit u i hi
    rw [he, hexit] at htrue
    cases htrue
  have hold : ∀ u, ∀ i ∈ (s.queue u).workList,
      (s'.work i.work).workExit = true ∧ (s'.work i.work).wq = some u := by
    intro u i hi
    rw [(hother i.work (hne u i hi)).1, (hother i.work (hne u i hi)).2]
    exact ⟨h.workExit u i hi, h.wq u i hi⟩
  have hboth : ∀ u, ∀ i ∈ (s'.queue u).workList,
      (s'.work i.work).workExit = true ∧ (s'.work i.work).wq = some u := by
    refine update_forall (P := fun u y => ∀ i ∈ y.workList,
      (s'.work i.work).workExit = true ∧ (s'.work i.work).wq = some u) hqueue hold ?_
    intro i hi
    rcases List.mem_append.mp hi with hi | hi
    · exact hold q i hi
    · rw [List.mem_singleton.mp hi]
      exact hself
  refine ⟨fun u i hi => (hboth u i hi).1, fun u i hi => (hboth u i hi).2, ?_, ?_⟩
  · refine update_forall (P := fun _ y => (y.workList.map Job.work).Nodup) hqueue h.once ?_
    rw [List.map_append, List.map_singleton, List.nodup_append]
    refine ⟨h.once q, by simp, ?_⟩
    intro w hw v hv he
    rcases List.mem_map.mp hw with ⟨i, hi, rfl⟩
    rw [List.mem_singleton.mp hv] at he
    exact hne q i hi he
  · exact update_forall (P := fun _ => Kworkqueue.tracked) hqueue h.current (h.current q)

theorem remove_listed (h : WorksListed s) {j : Job W} {rest : List (Job W)}
    (hlist : (s.queue q).workList = j :: rest)
    (hqueue : s'.queue = Function.update s.queue q
      { s.queue q with workList := rest, workCurrent := some j.work, worker := .took j })
    (hother : ∀ w, w ≠ j.work → (s'.work w).workExit = (s.work w).workExit)
    (hwq : ∀ w, (s'.work w).wq = (s.work w).wq) : WorksListed s' := by
  have honce := h.once q
  rw [hlist, List.map_cons, List.nodup_cons] at honce
  have hqj : (s.work j.work).wq = some q := h.wq q j (hlist ▸ List.mem_cons_self)
  -- What is listed now was listed before, and is another work.
  have hmem : ∀ u, ∀ i ∈ (s'.queue u).workList, i ∈ (s.queue u).workList ∧ i.work ≠ j.work := by
    intro u
    by_cases hu : u = q
    · rw [hu, hqueue, Function.update_self]
      intro i hi
      refine ⟨hlist ▸ List.mem_cons_of_mem _ hi, fun he => honce.1 ?_⟩
      rw [← he]
      exact List.mem_map_of_mem hi
    · rw [hqueue, Function.update_of_ne hu]
      intro i hi
      refine ⟨hi, fun he => hu ?_⟩
      have hqi := h.wq u i hi
      rw [he, hqj] at hqi
      exact (Option.some.inj hqi).symm
  refine ⟨fun u i hi => ?_, fun u i hi => ?_, ?_, ?_⟩
  · rw [hother i.work (hmem u i hi).2]
    exact h.workExit u i (hmem u i hi).1
  · rw [hwq]
    exact h.wq u i (hmem u i hi).1
  · exact update_forall (P := fun _ y => (y.workList.map Job.work).Nodup) hqueue h.once honce.2
  · exact update_forall (P := fun _ => Kworkqueue.tracked) hqueue h.current fun _ => rfl

theorem moved_listed (h : WorksListed s) {b : Bool} (hm : Moved s s' b) : WorksListed s' := by
  cases hm with
  | still hqueue hworks hlogs hpending =>
      refine h.of_lists (fun u => by rw [hqueue]) hworks fun u => ?_
      rw [hqueue]
      exact h.current u
  | insert hcurrent hexit hqueue hself hother hpending haccepted hcalled hfinished =>
      exact insert_listed h hexit hqueue hself hother
  | @give q x hqueue hx hworks hlogs hpending =>
      rcases hx with ⟨hblocked, rfl⟩ | ⟨-, rfl⟩
      · refine h.update hqueue rfl hworks fun _ => ?_
        -- Neither a blocked worker nor one that wakes has a current work.
        have hnone := h.current q (by simp [hblocked])
        simp [Kworkqueue.inHand, hblocked] at hnone
        simp [Kworkqueue.inHand, hnone]
      · exact h.update hqueue rfl hworks (h.current q)
  | lost hqueue hworks hlogs hpending =>
      refine h.of_lists (fun u => by rw [hqueue]) hworks fun u => ?_
      rw [hqueue]
      exact h.current u
  | @take q x hworker hqueue hx hworks hlogs hpending =>
      have hnone := h.current q (by simp [hworker])
      simp [Kworkqueue.inHand, hworker] at hnone
      rcases hx with ⟨-, rfl⟩ | ⟨-, rfl⟩
      · exact h.update hqueue rfl hworks fun _ => by simp [Kworkqueue.inHand, hnone]
      · exact h.update hqueue rfl hworks fun _ => by simp [Kworkqueue.inHand, hnone]
  | remove hworker hlist hqueue hself hother hwq hlogs hpending =>
      exact remove_listed h hlist hqueue hother hwq
  | @wild q hworker hlist hqueue hworks hlogs hpending =>
      have hnone := h.current q (by simp [hworker])
      simp [Kworkqueue.inHand, hworker] at hnone
      exact h.update hqueue rfl hworks fun _ => by simp [Kworkqueue.inHand, hnone]
  | @call q j hworker hqueue hworks haccepted hcalled hfinished hpending =>
      -- The work in hand becomes the current one.
      have hsome := h.current q (by simp [hworker])
      simp [Kworkqueue.inHand, hworker] at hsome
      exact h.update hqueue rfl hworks fun _ => by simp [Kworkqueue.inHand, hsome]
  | finish hworker hqueue hworks haccepted hcalled hfinished hpending =>
      exact h.update hqueue rfl hworks fun _ => rfl
  | retire hqueue hworks hlogs hpending =>
      exact h.update hqueue rfl hworks fun hne => absurd rfl hne
  | @fade q x hqueue hx hworks hlogs hpending =>
      rcases hx with rfl | rfl
      · exact h.update hqueue rfl hworks (h.current q)
      · exact h.update hqueue rfl hworks (h.current q)

end Invariants

/-! ## Counts -/

section Counts

variable {s s' : Works W} {q : Nat} {x : Kworkqueue W}

/-- One queue changes, and no log. -/
theorem WorksLogged.update (h : WorksLogged s) (hqueue : s'.queue = Function.update s.queue q x)
    (hlogs : SameLogs s s') (hx : x.logged (s.accepted q) (s.called q) (s.finished q)) :
    WorksLogged s' := by
  intro u
  rw [hlogs.accepted, hlogs.called, hlogs.finished]
  exact update_forall (P := fun u y => y.logged (s.accepted u) (s.called u) (s.finished u)) hqueue h
    hx u

/-- The logs of a queue that is not the one that changed. -/
theorem WorksLogged.other (h : WorksLogged s) {u : Nat} (hqueue : s'.queue u = s.queue u)
    (haccepted : s'.accepted u = s.accepted u) (hcalled : s'.called u = s.called u)
    (hfinished : s'.finished u = s.finished u) :
    (s'.queue u).logged (s'.accepted u) (s'.called u) (s'.finished u) := by
  rw [hqueue, haccepted, hcalled, hfinished]
  exact h u

theorem moved_logged (h : WorksLogged s) {b : Bool} (hm : Moved s s' b) : WorksLogged s' := by
  cases hm with
  | still hqueue hworks hlogs hpending =>
      intro u
      rw [hqueue, hlogs.accepted, hlogs.called, hlogs.finished]
      exact h u
  | lost hqueue hworks hlogs hpending =>
      intro u
      rw [hqueue, hlogs.accepted, hlogs.called, hlogs.finished]
      exact h u
  | @insert q j hcurrent hexit hqueue hself hother hpending haccepted hcalled hfinished =>
      intro u
      by_cases hu : u = q
      · rw [hu, hqueue, haccepted, hcalled, hfinished, Function.update_self, Function.update_self]
        intro hne
        -- The work joins the end of the list, and of what was accepted.
        rcases h q hne with ⟨ha, hc⟩
        refine ⟨?_, hc⟩
        rw [ha, List.append_assoc]
        rfl
      · exact h.other (by rw [hqueue, Function.update_of_ne hu])
          (by rw [haccepted, Function.update_of_ne hu]) (by rw [hcalled]) (by rw [hfinished])
  | @give q x hqueue hx hworks hlogs hpending =>
      refine h.update hqueue hlogs ?_
      -- A blocked worker has nothing in hand, awake or not.
      rcases hx with ⟨hblocked, rfl⟩ | ⟨-, rfl⟩
      · intro _
        have hq := h q (by simp [hblocked])
        simp only [Kworkqueue.inHand, Kworkqueue.inCall, hblocked] at hq
        exact hq
      · exact h q
  | @take q x hworker hqueue hx hworks hlogs hpending =>
      refine h.update hqueue hlogs ?_
      have hq := h q (by simp [hworker])
      simp only [Kworkqueue.inHand, Kworkqueue.inCall, hworker] at hq
      rcases hx with ⟨-, rfl⟩ | ⟨-, rfl⟩
      · exact fun _ => hq
      · exact fun _ => hq
  | @remove q j rest hworker hlist hqueue hself hother hwq hlogs hpending =>
      -- The first of the list goes into the hand of the worker: together they are the same.
      refine h.update hqueue hlogs fun _ => ?_
      have hq := h q (by simp [hworker])
      simp only [Kworkqueue.inHand, Kworkqueue.inCall, hworker, hlist] at hq
      refine ⟨?_, hq.2⟩
      rw [hq.1, List.append_nil, List.append_assoc]
      rfl
  | @wild q hworker hlist hqueue hworks hlogs hpending =>
      refine h.update hqueue hlogs fun _ => ?_
      have hq := h q (by simp [hworker])
      simp only [Kworkqueue.inHand, Kworkqueue.inCall, hworker] at hq
      exact hq
  | @call q j hworker hqueue hworks haccepted hcalled hfinished hpending =>
      intro u
      by_cases hu : u = q
      · rw [hu, hqueue, haccepted, hcalled, hfinished, Function.update_self, Function.update_self]
        intro _
        have hq := h q (by simp [hworker])
        simp only [Kworkqueue.inHand, Kworkqueue.inCall, hworker] at hq
        refine ⟨hq.1, ?_⟩
        rw [hq.2, List.append_nil]
        rfl
      · exact h.other (by rw [hqueue, Function.update_of_ne hu]) (by rw [haccepted])
          (by rw [hcalled, Function.update_of_ne hu]) (by rw [hfinished])
  | @finish q j hworker hqueue hworks haccepted hcalled hfinished hpending =>
      intro u
      by_cases hu : u = q
      · rw [hu, hqueue, haccepted, hcalled, hfinished, Function.update_self, Function.update_self]
        -- The work in hand is called now.
        intro _
        have hq := h q (by simp [hworker])
        simp only [Kworkqueue.inHand, Kworkqueue.inCall, hworker] at hq
        refine ⟨?_, ?_⟩
        · rw [hq.1]
          simp [Kworkqueue.inHand]
        · rw [hq.2]
          simp [Kworkqueue.inCall]
      · exact h.other (by rw [hqueue, Function.update_of_ne hu]) (by rw [haccepted]) (by rw [hcalled])
          (by rw [hfinished, Function.update_of_ne hu])
  | retire hqueue hworks hlogs hpending =>
      exact h.update hqueue hlogs fun hne => absurd rfl hne
  | @fade q x hqueue hx hworks hlogs hpending =>
      refine h.update hqueue hlogs ?_
      rcases hx with rfl | rfl
      · exact h q
      · exact h q

/-- What is counted and what is listed change alike. -/
def Even (s s' : Works W) (u : Nat) : Prop :=
  s'.tally u + (s.queue u).workList.length = s.tally u + (s'.queue u).workList.length

/-- Another queue than the one that changed. -/
theorem even_other {u : Nat} (hqueue : s'.queue = Function.update s.queue q x) (hu : u ≠ q)
    (hpending : s'.pending u = s.pending u) : Even s s' u := by
  unfold Even Works.tally
  rw [hqueue, Function.update_of_ne hu, hpending]

theorem PendingMore.other {u : Nat} (h : PendingMore s s' q) (hu : u ≠ q) :
    s'.pending u = s.pending u := by
  rw [h u, if_neg hu, Nat.add_zero]

theorem PendingMore.self (h : PendingMore s s' q) : s'.pending q = s.pending q + 1 := by
  rw [h q, if_pos rfl]

/-- Where nothing is lost, what is counted and what is listed change alike. -/
theorem moved_even (hm : Moved s s' false) (u : Nat) : Even s s' u := by
  cases hm with
  | still hqueue hworks hlogs hpending =>
      unfold Even Works.tally
      rw [hqueue, hpending]
  | @insert q j hcurrent hexit hqueue hself hother hpending haccepted hcalled hfinished =>
      by_cases hu : u = q
      -- A work more on the list, and a give more to come.
      · unfold Even Works.tally Kworkqueue.tokens
        rw [hu, hpending.self, hqueue, Function.update_self, List.length_append]
        dsimp only [List.length_singleton]
        omega
      · exact even_other hqueue hu (hpending.other hu)
  | @give q x hqueue hx hworks hlogs hpending =>
      by_cases hu : u = q
      -- The give is made: it counts on the semaphore, or wakes the worker.
      · unfold Even Works.tally Kworkqueue.tokens
        rw [hu, hpending.self, hqueue, Function.update_self]
        rcases hx with ⟨hblocked, rfl⟩ | ⟨-, rfl⟩
        · rw [hblocked]
          dsimp only
          omega
        · dsimp only
          omega
      · exact even_other hqueue hu (hpending.other hu).symm
  | @take q x hworker hqueue hx hworks hlogs hpending =>
      by_cases hu : u = q
      -- The worker takes what the semaphore counts.
      · unfold Even Works.tally Kworkqueue.tokens
        rw [hu, hpending, hqueue, Function.update_self, hworker]
        rcases hx with ⟨hpos, rfl⟩ | ⟨-, rfl⟩
        · dsimp only
          omega
        · dsimp only
      · exact even_other hqueue hu (by rw [hpending])
  | @remove q j rest hworker hlist hqueue hself hother hwq hlogs hpending =>
      by_cases hu : u = q
      -- It takes a work from the list for it.
      · unfold Even Works.tally Kworkqueue.tokens
        rw [hu, hpending, hqueue, Function.update_self, hworker, hlist, List.length_cons]
        dsimp only
        omega
      · exact even_other hqueue hu (by rw [hpending])
  | @call q j hworker hqueue hworks haccepted hcalled hfinished hpending =>
      by_cases hu : u = q
      · unfold Even Works.tally Kworkqueue.tokens
        rw [hu, hpending, hqueue, Function.update_self, hworker]
      · exact even_other hqueue hu (by rw [hpending])
  | @finish q j hworker hqueue hworks haccepted hcalled hfinished hpending =>
      by_cases hu : u = q
      · unfold Even Works.tally Kworkqueue.tokens
        rw [hu, hpending, hqueue, Function.update_self, hworker]
      · exact even_other hqueue hu (by rw [hpending])
  | @fade q x hqueue hx hworks hlogs hpending =>
      by_cases hu : u = q
      · unfold Even Works.tally Kworkqueue.tokens
        rw [hu, hpending, hqueue, Function.update_self]
        rcases hx with rfl | rfl
        · rfl
        · rfl
      · exact even_other hqueue hu (by rw [hpending])

/-- What is lost leaves the list alone. -/
theorem moved_lossy (hm : Moved s s' true) (u : Nat) :
    s'.tally u ≤ s.tally u ∧ (s'.queue u).workList = (s.queue u).workList := by
  have htokens : ∀ {q : Nat} {p : WorkerPc W}, p ≠ .got →
      s'.queue = Function.update s.queue q { s.queue q with worker := p } →
      s'.pending = s.pending →
      s'.tally u ≤ s.tally u ∧ (s'.queue u).workList = (s.queue u).workList := by
    intro q p hp hqueue hpending
    unfold Works.tally
    rw [hqueue, hpending]
    by_cases hu : u = q
    · have hzero : Kworkqueue.tokens { s.queue q with worker := p } = 0 := by
        unfold Kworkqueue.tokens
        cases p with
        | got => exact absurd rfl hp
        | _ => rfl
      rw [hu, Function.update_self, hzero]
      exact ⟨Nat.add_le_add_left (Nat.zero_le _) _, rfl⟩
    · rw [Function.update_of_ne hu]
      exact ⟨Nat.le_refl _, rfl⟩
  cases hm with
  | lost hqueue hworks hlogs hpending =>
      unfold Works.tally
      rw [hqueue, hpending u]
      exact ⟨by omega, rfl⟩
  | wild hworker hlist hqueue hworks hlogs hpending => exact htokens (by simp) hqueue hpending
  | retire hqueue hworks hlogs hpending => exact htokens (by simp) hqueue hpending

end Counts

/-! ## What holds in every run -/

section Runs

variable [DecidableEq W] {s s' : Works W}

/-- Lists, logs and counts. -/
structure WorksInv (s : Works W) : Prop where
  listed : WorksListed s
  logged : WorksLogged s
  tally : ∀ q, s.tally q ≤ (s.queue q).workList.length
  sane : ∀ q, (s.queue q).worker ≠ .wild
  idle : ∀ q, (s.queue q).worker = .blocked → (s.queue q).count = 0

omit [DecidableEq W] in
/-- A worker that has taken something finds a work. -/
theorem WorksInv.got (h : WorksInv s) {q : Nat} (hworker : (s.queue q).worker = .got) :
    (s.queue q).workList ≠ [] := by
  intro hnil
  have hle := h.tally q
  unfold Works.tally Kworkqueue.tokens at hle
  rw [hworker, hnil] at hle
  simp at hle

omit [DecidableEq W] in
/-- A worker goes nowhere wrong, and blocks only where nothing is left to take. -/
theorem moved_worker (h : WorksInv s) {b : Bool} (hm : Moved s s' b) (u : Nat) :
    (s'.queue u).worker ≠ .wild ∧ ((s'.queue u).worker = .blocked → (s'.queue u).count = 0) := by
  have hold : ∀ u, (s.queue u).worker ≠ .wild ∧
      ((s.queue u).worker = .blocked → (s.queue u).count = 0) := fun u => ⟨h.sane u, h.idle u⟩
  have hupdate : ∀ {q : Nat} {x : Kworkqueue W}, s'.queue = Function.update s.queue q x →
      x.worker ≠ .wild ∧ (x.worker = .blocked → x.count = 0) →
      (s'.queue u).worker ≠ .wild ∧ ((s'.queue u).worker = .blocked → (s'.queue u).count = 0) :=
    fun hqueue hx => update_forall
      (P := fun _ y => y.worker ≠ .wild ∧ (y.worker = .blocked → y.count = 0)) hqueue hold hx u
  cases hm with
  | still hqueue hworks hlogs hpending =>
      rw [hqueue]
      exact hold u
  | lost hqueue hworks hlogs hpending =>
      rw [hqueue]
      exact hold u
  | @insert q j hcurrent hexit hqueue hself hother hpending haccepted hcalled hfinished =>
      exact hupdate hqueue (hold q)
  | @give q x hqueue hx hworks hlogs hpending =>
      rcases hx with ⟨-, rfl⟩ | ⟨hne, rfl⟩
      · exact hupdate hqueue ⟨by simp, by simp⟩
      · exact hupdate hqueue ⟨h.sane q, fun hb => absurd hb hne⟩
  | take hworker hqueue hx hworks hlogs hpending =>
      rcases hx with ⟨-, rfl⟩ | ⟨hzero, rfl⟩
      · exact hupdate hqueue ⟨by simp, by simp⟩
      · exact hupdate hqueue ⟨by simp, fun _ => hzero⟩
  | remove hworker hlist hqueue hself hother hwq hlogs hpending =>
      exact hupdate hqueue ⟨by simp, by simp⟩
  -- A worker that was woken finds a work: the counting rules the wild read out.
  | wild hworker hlist hqueue hworks hlogs hpending => exact absurd hlist (h.got hworker)
  | call hworker hqueue hworks haccepted hcalled hfinished hpending =>
      exact hupdate hqueue ⟨by simp, by simp⟩
  | finish hworker hqueue hworks haccepted hcalled hfinished hpending =>
      exact hupdate hqueue ⟨by simp, by simp⟩
  | retire hqueue hworks hlogs hpending => exact hupdate hqueue ⟨by simp, by simp⟩
  | @fade q x hqueue hx hworks hlogs hpending =>
      rcases hx with rfl | rfl
      · exact hupdate hqueue (hold q)
      · exact hupdate hqueue (hold q)

omit [DecidableEq W] in
theorem moved_inv (h : WorksInv s) {b : Bool} (hm : Moved s s' b) : WorksInv s' := by
  refine ⟨moved_listed h.listed hm, moved_logged h.logged hm, fun u => ?_,
    fun u => (moved_worker h hm u).1, fun u => (moved_worker h hm u).2⟩
  have hle := h.tally u
  cases b with
  | false =>
      have heven := moved_even hm u
      unfold Even at heven
      omega
  | true =>
      rcases moved_lossy hm u with ⟨hless, hlist⟩
      rw [hlist]
      exact hless.trans hle

theorem step_worksInv {a : WorkAct W} (h : WorksInv s) (hstep : s.step a = some s') :
    WorksInv s' := by
  rcases step_moved h.listed (step_workStep hstep) with ⟨b, hm, -⟩
  exact moved_inv h hm

omit [DecidableEq W] in
theorem start_worksInv (dly : W → Nat) : WorksInv (Works.start dly) := by
  refine ⟨⟨?_, ?_, ?_, ?_⟩, ?_, ?_, ?_, ?_⟩
  · intro q j hj
    cases hj
  · intro q j hj
    cases hj
  · exact fun q => List.nodup_nil
  · exact fun q _ => rfl
  · exact fun q _ => ⟨rfl, rfl⟩
  · exact fun q => Nat.le_refl 0
  · intro q hw
    cases hw
  · intro q hb
    cases hb

end Runs

/-! ## Works that are run at once -/

section Immediate

variable [DecidableEq W] {s s' : Works W}

/-- The queue is not deleted. -/
def WorkAct.keepsQueues : WorkAct W → Prop
  | .del _ | .delNext _ _ => False
  | _ => True

/-- No give fails. -/
def Works.givesOk (s : Works W) : WorkAct W → Prop
  | .give q _ => ¬s.giveFails q
  | _ => True

/-- Where no work has a delay, calls have their numbers to themselves. -/
structure Immediate (s : Works W) : Prop where
  dly : ∀ w, (s.work w).dly = 0
  inactive : ∀ w, (s.work w).active = false
  timerQueue : s.timerQueue = []
  callback : s.callback = none
  fresh : ∀ q, ∀ j ∈ s.accepted q, j.run < s.runs
  once : ∀ q, (s.accepted q).Nodup
  apart : ∀ q u j, j ∈ s.accepted q → j ∈ s.accepted u → u = q
  giving : ∀ q j, (q, j) ∈ s.giving → j ∈ s.accepted q
  returned : ∀ q j, (q, j) ∈ s.returned → j ∈ s.accepted q

omit [DecidableEq W] in
/-- A step that accepts no call. -/
theorem Immediate.same (h : Immediate s) (hdly : ∀ w, (s'.work w).dly = (s.work w).dly)
    (hactive : ∀ w, (s'.work w).active = (s.work w).active) (htimer : s'.timerQueue = s.timerQueue)
    (hcallback : s'.callback = s.callback) (hruns : s.runs ≤ s'.runs)
    (haccepted : s'.accepted = s.accepted) (hgiving : s'.giving ⊆ s.giving)
    (hreturned : ∀ q j, (q, j) ∈ s'.returned → (q, j) ∈ s.returned ∨ (q, j) ∈ s.giving) :
    Immediate s' := by
  refine ⟨fun w => (hdly w).trans (h.dly w), fun w => (hactive w).trans (h.inactive w),
    htimer.trans h.timerQueue, hcallback.trans h.callback, ?_, ?_, ?_, ?_, ?_⟩
  · intro q j hj
    rw [haccepted] at hj
    exact (h.fresh q j hj).trans_le hruns
  · intro q
    rw [haccepted]
    exact h.once q
  · intro q u j
    rw [haccepted]
    exact h.apart q u j
  · intro q j hj
    rw [haccepted]
    exact h.giving q j (hgiving hj)
  · intro q j hj
    rw [haccepted]
    rcases hreturned q j hj with hj | hj
    · exact h.returned q j hj
    · exact h.giving q j hj

/-- A call is accepted, under a number of its own. -/
theorem Immediate.insert (h : Immediate s) {q : Nat} {w : W} :
    Immediate { s.insert q ⟨w, s.runs⟩ with
      runs := s.runs + 1
      giving := s.giving ++ [(q, ⟨w, s.runs⟩)] } := by
  have hwork : (s.insert q ⟨w, s.runs⟩).work = Function.update s.work w
      { s.work w with wq := some q, workExit := true } := rfl
  -- The number of the run is new, so the job was accepted nowhere.
  have hnew : ∀ u, (⟨w, s.runs⟩ : Job W) ∉ s.accepted u :=
    fun u hmem => absurd (h.fresh u _ hmem) (Nat.lt_irrefl _)
  have hmem : ∀ u j, j ∈ Function.update s.accepted q (s.accepted q ++ [⟨w, s.runs⟩]) u ↔
      j ∈ s.accepted u ∨ u = q ∧ j = ⟨w, s.runs⟩ := by
    intro u j
    by_cases hu : u = q
    · rw [hu, Function.update_self, List.mem_append, List.mem_singleton, and_iff_right rfl]
    · rw [Function.update_of_ne hu]
      simp [hu]
  refine ⟨fun v => (work_field hwork Kwork.dly rfl v).trans (h.dly v),
    fun v => (work_field hwork Kwork.active rfl v).trans (h.inactive v), h.timerQueue, h.callback,
    ?_, ?_, ?_, ?_, ?_⟩
  · intro u j hj
    rcases (hmem u j).mp hj with hj | ⟨-, rfl⟩
    · exact (h.fresh u j hj).trans_le (Nat.le_succ _)
    · exact Nat.lt_succ_self _
  · intro u
    change (Function.update s.accepted q (s.accepted q ++ [⟨w, s.runs⟩]) u).Nodup
    by_cases hu : u = q
    · rw [hu, Function.update_self, List.nodup_append]
      refine ⟨h.once q, by simp, ?_⟩
      rintro i hi j hj rfl
      rw [List.mem_singleton.mp hj] at hi
      exact hnew q hi
    · rw [Function.update_of_ne hu]
      exact h.once u
  · intro u v j hu hv
    rcases (hmem u j).mp hu with hold | ⟨huq, rfl⟩
    · rcases (hmem v j).mp hv with hv | ⟨-, rfl⟩
      · exact h.apart u v j hold hv
      · exact absurd hold (hnew u)
    · rcases (hmem v _).mp hv with hold | ⟨hvq, -⟩
      · exact absurd hold (hnew v)
      · rw [huq, hvq]
  · intro u j hj
    refine (hmem u j).mpr ?_
    rcases List.mem_append.mp hj with hj | hj
    · exact .inl (h.giving u j hj)
    · rw [List.mem_singleton, Prod.mk.injEq] at hj
      exact .inr hj
  · exact fun u j hj => (hmem u j).mpr (.inl (h.returned u j hj))

/-- Every step, but for deletions. -/
theorem step_immediate {a : WorkAct W} (h : Immediate s) (ha : a.keepsQueues)
    (hstep : WorkStep s a s') : Immediate s' := by
  -- What most steps leave alone.
  have hquiet : ∀ {s' : Works W}, s'.work = s.work → s'.timerQueue = s.timerQueue →
      s'.callback = s.callback → s'.runs = s.runs → s'.accepted = s.accepted →
      s'.giving ⊆ s.giving → s'.returned = s.returned → Immediate s' := by
    intro s' hwork htimer hcb hruns hacc hgiving hret
    refine h.same (fun w => by rw [hwork]) (fun w => by rw [hwork]) htimer hcb hruns.ge hacc hgiving ?_
    rw [hret]
    exact fun _ _ => .inl
  cases hstep with
  | refused =>
      exact h.same (fun _ => rfl) (fun _ => rfl) rfl rfl (Nat.le_succ _) rfl (List.Subset.refl _)
        fun _ _ => .inl
  | queued hdly => exact absurd (h.dly _) hdly
  | inserted hdly hcurrent hexit => exact h.insert
  | @gave q j x hmem hx =>
      refine h.same (fun _ => rfl) (fun _ => rfl) rfl rfl (Nat.le_refl _) rfl List.erase_subset ?_
      intro u i hi
      rcases List.mem_append.mp hi with hi | hi
      · exact .inl hi
      · rw [List.mem_singleton.mp hi]
        exact .inr hmem
  | giveFailed hmem hfail => exact hquiet rfl rfl rfl rfl rfl List.erase_subset rfl
  | cancelRead hwq => exact hquiet rfl rfl rfl rfl rfl (List.Subset.refl _) rfl
  | cancelStop hwq hdly => exact absurd (h.dly _) (Nat.ne_of_gt hdly)
  | cancelNone hwq hno => exact hquiet rfl rfl rfl rfl rfl (List.Subset.refl _) rfl
  | cancelRefused hmem => exact hquiet rfl rfl rfl rfl rfl (List.Subset.refl _) rfl
  | @cancelDone c hmem hcurrent hexit =>
      exact h.same
        (work_field (w := c.work) (x := { s.work c.work with wq := none }) rfl Kwork.dly rfl)
        (work_field (w := c.work) (x := { s.work c.work with wq := none }) rfl Kwork.active rfl)
        rfl rfl (Nat.le_refl _) rfl (List.Subset.refl _) fun _ _ => .inl
  | @remove q j rest hworker hlist =>
      exact h.same
        (work_field (w := j.work) (x := { s.work j.work with workExit := false }) rfl Kwork.dly rfl)
        (work_field (w := j.work) (x := { s.work j.work with workExit := false }) rfl Kwork.active rfl)
        rfl rfl (Nat.le_refl _) rfl (List.Subset.refl _) fun _ _ => .inl
  | take hworker hx => exact hquiet rfl rfl rfl rfl rfl (List.Subset.refl _) rfl
  | wild hworker hlist => exact hquiet rfl rfl rfl rfl rfl (List.Subset.refl _) rfl
  | call hworker => exact hquiet rfl rfl rfl rfl rfl (List.Subset.refl _) rfl
  | finish hworker => exact hquiet rfl rfl rfl rfl rfl (List.Subset.refl _) rfl
  | delBegin hl => cases ha
  | delRefused hmem hpc => cases ha
  | delIdle hmem hlist hcurrent => cases ha
  | delTask hmem => cases ha
  | delSem hmem => cases ha
  | delDone hmem => cases ha
  | started hidle hqueue =>
      rw [h.timerQueue] at hqueue
      cases hqueue
  | stopped hidle hqueue =>
      rw [h.timerQueue] at hqueue
      cases hqueue
  | fired hidle hactive =>
      rw [h.inactive] at hactive
      cases hactive
  | cbRefused hcb | cbInserted hcb | cbGave hcb | cbGiveFailed hcb =>
      rw [h.callback] at hcb
      cases hcb

end Immediate

/-! ## Every call is matched -/

section Matched

variable [DecidableEq W] {s s' : Works W}

/-- The job a worker has taken whose handler has not been called yet. -/
def Kworkqueue.taken (x : Kworkqueue W) : List (Job W) :=
  match x.worker with
  | .took j => [j]
  | _ => []

/-- The semaphore of a queue counts its works, with what is to come and what was
    taken; its worker always finds a work; the calls it accepted are those its worker
    has called, in this order, and those it will; each is there once and on this queue
    only, and those that returned are among them. The worker goes on unless it waits
    for its semaphore, and where it waits and no give is to come, all were called. -/
structure Matched (s : Works W) (q : Nat) : Prop where
  counted : (s.queue q).count + s.pending q + (s.queue q).tokens = (s.queue q).workList.length
  sane : (s.queue q).worker ≠ .wild
  order : s.accepted q = s.called q ++ (s.queue q).taken ++ (s.queue q).workList
  once : (s.accepted q).Nodup
  apart : ∀ u j, j ∈ s.accepted q → j ∈ s.accepted u → u = q
  returned : ∀ j, (q, j) ∈ s.returned → j ∈ s.accepted q
  goes : (s.queue q).worker ≠ .blocked → (s.step (.worker q)).isSome = true
  served : (s.queue q).worker = .blocked → s.pending q = 0 → s.called q = s.accepted q

/-- What holds between two steps where no work has a delay, no give fails and no queue
    is deleted. -/
structure MatchedInv (s : Works W) : Prop where
  inv : WorksInv s
  immediate : Immediate s
  counted : ∀ q, s.tally q = (s.queue q).workList.length
  alive : ∀ q, (s.queue q).worker ≠ .deleted

omit [DecidableEq W] in
theorem moved_alive (hm : Moved s s' false) (h : ∀ q, (s.queue q).worker ≠ .deleted) (u : Nat) :
    (s'.queue u).worker ≠ .deleted := by
  have hupdate : ∀ {q : Nat} {x : Kworkqueue W}, s'.queue = Function.update s.queue q x →
      x.worker ≠ .deleted → (s'.queue u).worker ≠ .deleted :=
    fun hqueue hx => update_forall (P := fun _ y => y.worker ≠ .deleted) hqueue h hx u
  cases hm with
  | still hqueue hworks hlogs hpending =>
      rw [hqueue]
      exact h u
  | insert hcurrent hexit hqueue hself hother hpending haccepted hcalled hfinished =>
      exact hupdate hqueue (h _)
  | give hqueue hx hworks hlogs hpending =>
      rcases hx with ⟨-, rfl⟩ | ⟨-, rfl⟩
      · exact hupdate hqueue (by simp)
      · exact hupdate hqueue (h _)
  | take hworker hqueue hx hworks hlogs hpending =>
      rcases hx with ⟨-, rfl⟩ | ⟨-, rfl⟩
      · exact hupdate hqueue (by simp)
      · exact hupdate hqueue (by simp)
  | remove hworker hlist hqueue hself hother hwq hlogs hpending => exact hupdate hqueue (by simp)
  | call hworker hqueue hworks haccepted hcalled hfinished hpending =>
      exact hupdate hqueue (by simp)
  | finish hworker hqueue hworks haccepted hcalled hfinished hpending =>
      exact hupdate hqueue (by simp)
  | fade hqueue hx hworks hlogs hpending =>
      rcases hx with rfl | rfl
      · exact hupdate hqueue (h _)
      · exact hupdate hqueue (h _)

omit [DecidableEq W] in
/-- Nothing is lost. -/
theorem MatchedInv.not_loses (h : MatchedInv s) {a : WorkAct W} (ha : a.keepsQueues)
    (hgive : s.givesOk a) : ¬s.loses a := by
  cases a with
  | give q j => exact hgive
  | worker q => exact fun hl => h.inv.got hl.1 hl.2
  | timerCb =>
      rintro ⟨w, hcb, -⟩
      rw [h.immediate.callback] at hcb
      cases hcb
  | delNext q pc => exact absurd ha id
  | _ => exact id

theorem step_matchedInv {a : WorkAct W} (h : MatchedInv s) (ha : a.keepsQueues)
    (hgive : s.givesOk a) (hstep : s.step a = some s') : MatchedInv s' := by
  have hwork := step_workStep hstep
  rcases step_moved h.inv.listed hwork with ⟨b, hm, hloses⟩
  cases b with
  | true => exact absurd (hloses rfl) (h.not_loses ha hgive)
  | false =>
      refine ⟨moved_inv h.inv hm, step_immediate h.immediate ha hwork, fun u => ?_,
        moved_alive hm h.alive⟩
      have heven := moved_even hm u
      unfold Even at heven
      rw [h.counted u] at heven
      omega

omit [DecidableEq W] in
theorem start_matchedInv {dly : W → Nat} (hdly : ∀ w, dly w = 0) : MatchedInv (Works.start dly) := by
  refine ⟨start_worksInv dly, ⟨hdly, fun _ => rfl, rfl, rfl, ?_, ?_, ?_, ?_, ?_⟩, fun _ => rfl, ?_⟩
  · intro q j hj
    cases hj
  · exact fun q => List.nodup_nil
  · intro q u j hj
    cases hj
  · intro q j hj
    cases hj
  · intro q j hj
    cases hj
  · intro q hw
    cases hw

/-- A worker that does not wait has something to do. -/
theorem worker_goes (h : MatchedInv s) {q : Nat} (hb : (s.queue q).worker ≠ .blocked) :
    (s.step (.worker q)).isSome = true := by
  unfold Works.step Works.workerTask
  dsimp only
  cases hworker : (s.queue q).worker with
  | take =>
      dsimp only
      split_ifs
      · rfl
      · rfl
  | got =>
      dsimp only
      cases (s.queue q).workList with
      | nil => rfl
      | cons j rest => rfl
  | took j => rfl
  | handle j => rfl
  | blocked => exact absurd hworker hb
  | wild => exact absurd hworker (h.inv.sane q)
  | deleted => exact absurd hworker (h.alive q)

theorem MatchedInv.matched (h : MatchedInv s) (q : Nat) : Matched s q := by
  have hcounted := h.counted q
  rcases h.inv.logged q (h.alive q) with ⟨haccepted, hcalled⟩
  have horder : s.accepted q = s.called q ++ (s.queue q).taken ++ (s.queue q).workList := by
    rw [haccepted, hcalled]
    unfold Kworkqueue.inHand Kworkqueue.inCall Kworkqueue.taken
    cases (s.queue q).worker with
    | handle j => simp
    | _ => simp
  refine ⟨hcounted, h.inv.sane q, horder, h.immediate.once q, h.immediate.apart q,
    h.immediate.returned q, worker_goes h, fun hb hnone => ?_⟩
  -- The worker waits, so the semaphore is at zero, and so is the list.
  have hnil : (s.queue q).workList = [] := by
    unfold Works.tally Kworkqueue.tokens at hcounted
    rw [h.inv.idle q hb, hnone, hb] at hcounted
    exact List.length_eq_zero_iff.mp hcounted.symm
  rw [horder, hnil]
  unfold Kworkqueue.taken
  rw [hb, List.append_nil, List.append_nil]

/-- However workers, calls of `krhino_work_run` and calls of `krhino_work_cancel` take
    turns: the semaphores count the works, and each accepted call is matched by one call
    of the handler. -/
theorem work_run_matched (dly : W → Nat) (hdly : ∀ w, dly w = 0) (as : List (WorkAct W))
    (hkeep : ∀ a ∈ as, a.keepsQueues)
    (hgives : Run.Along Works.step Works.givesOk (Works.start dly) as) (s : Works W)
    (hrun : Run.run Works.step (Works.start dly) as = some s) (q : Nat) : Matched s q := by
  have hboth : Run.Along Works.step (fun s a => a.keepsQueues ∧ s.givesOk a) (Works.start dly) as :=
    (Run.along_of_mem hkeep _).and hgives
  have hinv : MatchedInv s := by
    refine Run.run_inv ?_ as _ _ (start_matchedInv hdly) hboth hrun
    intro s a s' h ha hstep
    exact step_matchedInv h ha.1 ha.2 hstep
  exact hinv.matched q

instance (s : Works W) (q : Nat) : Decidable (s.giveFails q) :=
  inferInstanceAs (Decidable (_ ∨ _))

instance (s : Works W) (a : WorkAct W) : Decidable (s.givesOk a) :=
  match a with
  | .give _ _ => inferInstanceAs (Decidable (¬_))
  | .run .. | .cancel .. | .cancelEnd _ | .worker _ | .del _ | .delNext .. | .command | .fire _
  | .timerCb => inferInstanceAs (Decidable True)

/-- A work is run on one queue, and from its handler on another. -/
def passedOn : List (WorkAct Bool) :=
  [.run 0 true true, .worker 0, .give 0 ⟨true, 0⟩, .worker 0, .worker 0, .run 1 true true,
    .give 1 ⟨true, 1⟩, .run 0 false true, .worker 0, .cancel true true,
    .cancelEnd ⟨true, 1, [⟨true, 0⟩, ⟨true, 1⟩]⟩]

theorem work_run_matched_passedOn :
    ∃ s, Run.run Works.step (Works.start fun _ => 0) passedOn = some s ∧ ∀ q, Matched s q := by
  have hrun : (Run.run Works.step (Works.start fun _ => 0) passedOn).isSome = true := by
    decide +kernel
  rcases Option.isSome_iff_exists.mp hrun with ⟨s, hs⟩
  have hkeep : ∀ a ∈ passedOn, a.keepsQueues := by
    simp [passedOn, WorkAct.keepsQueues]
  have hgives : Run.Along Works.step Works.givesOk (Works.start fun _ => 0) passedOn := by
    decide +kernel
  exact ⟨s, hs, work_run_matched (fun _ => 0) (fun _ => rfl) passedOn hkeep hgives s hs⟩

end Matched

end Rhino

end Wujian100
