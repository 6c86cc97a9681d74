import Wujian100.Theory.Rhino.WorkDue

/-!
# Works That Are Cancelled, Queues That Are Deleted

`krhino_work_cancel` looks at `work->wq` and stops the timer only where that is
`NULL`, which it is no more once a delayed work has run; and whoever deletes a queue
looks at it first and deletes its worker afterwards, and does not see the delayed works
that are due on it. `Works.safe` says what has to be the case for both to do what they
are for.

A call of `krhino_work_run` is alive while a call of the handler may still come of
it. What a cancel takes back has to be dead once the cancel is through.

## Main definitions

* `Works.live`: A call of the handler may still come of it.
* `Works.heedsCancel`, `Works.deletesIdle`: What cancels and deletions promise.
* `Works.safe`: Where a step keeps the promise.

## Theorems

* `step_cancels`, `step_deletes`, `step_settled`: What one step keeps.
* `cancel_delete_safe`: The promises, along runs of such steps.
* `cancel_delete_broken`: And what happens along others.
-/

namespace Wujian100

namespace Rhino

variable {W : Type} [DecidableEq W]

/-! ## What is promised -/

/-- A work is listed for this call, or a worker has it. -/
def Works.inHands (s : Works W) (j : Job W) : Prop :=
  ∃ q, j ∈ (s.queue q).workList ∨ (s.queue q).worker = .took j

/-- A call of the handler may still come of this call of `krhino_work_run`: its work is
    listed for it or in the hands of a worker, or its timer runs or is about to be
    started. -/
def Works.live (s : Works W) (j : Job W) : Prop :=
  s.inHands j ∨ ((s.work j.work).active = true ∧ (s.work j.work).armed = j.run) ∨
    ∃ q, .argChgAuto j.work q j.run ∈ s.timerQueue

/-- No handler is called for what a cancel has taken back. -/
def Works.heedsCancel (s : Works W) : Prop :=
  ∀ q j s', s.step (.worker q) = some s' → s'.called q = s.called q ++ [j] → j ∉ s.revoked

/-- When the deletion of a queue succeeds, nothing is listed on it and nothing is due,
    and all it was given has been executed: what was put on its list, and what
    `krhino_work_run` returned `RHINO_SUCCESS` for, but for the delayed works that came
    to nothing. -/
def Works.deletesIdle (s : Works W) : Prop :=
  ∀ q s', s.step (.delNext q .unlist) = some s' →
    (s'.queue q).workList = [] ∧ s'.finished q = s'.accepted q ∧ (∀ j, ¬s'.due q j) ∧
      ∀ j, (q, j) ∈ s'.returned → j ∈ s'.finished q ∨ j ∈ s'.dropped

/-! ## Where it is kept -/

omit [DecidableEq W] in
/-- A worker has taken the work, and not called its handler. -/
def Works.held (s : Works W) (w : W) : Prop :=
  ∃ q j, (s.queue q).worker = .took j ∧ j.work = w

omit [DecidableEq W] in
/-- The work's timer does not run, and is not about to. -/
def Works.quiet (s : Works W) (w : W) : Prop :=
  (s.work w).active = false ∧ ∀ q run, .argChgAuto w q run ∉ s.timerQueue

omit [DecidableEq W] in
/-- A deletion has looked at the queue and is not done. -/
def Works.doomed (s : Works W) (q : Nat) : Prop :=
  ∃ pc, pc ≠ .look ∧ (q, pc) ∈ s.deleting

omit [DecidableEq W] in
/-- A cancel that finds no queue has the timer's callback before it or not at all, and
    gets its stop through; one that finds a queue the work has left finds its timer
    quiet; neither finds the work in the hands of a worker. No timer runs out while a
    stop for it is on its way. A deletion that finds its queue idle finds no delayed
    work due on it, and from then on the queue is given none, and no other. -/
def Works.safe (s : Works W) : WorkAct W → Prop
  | .cancel w room => (s.work w).wq = none → ¬s.held w ∧
      ((s.work w).dly > 0 → (∀ b, s.callback ≠ some (w, b)) ∧ (room = true ∨ s.quiet w))
  | .cancelEnd c => (s.queue c.wq).workCurrent ≠ some c.work →
      (s.work c.work).workExit = false → ¬s.held c.work ∧ s.quiet c.work
  | .fire w => ∀ jobs, .stop w jobs ∉ s.timerQueue
  | .run q w room => (s.work w).dly = 0 ∧ (s.queue q).workCurrent ≠ some w ∧
      (s.work w).workExit = false ∨ (s.work w).dly ≠ 0 ∧ room = true → ¬s.doomed q
  | .delNext q .look => (s.queue q).workList = [] → (s.queue q).workCurrent = none →
      ∀ j, ¬s.due q j
  | _ => True

/-! ## Alive and dead -/

omit [DecidableEq W] in
/-- What a stop takes back is not started behind it. -/
def WorkCmd.before (c d : WorkCmd W) : Prop :=
  ∀ w jobs, c = .stop w jobs → ∀ j ∈ jobs, ∀ q, d ≠ .argChgAuto j.work q j.run

/-- Calls whose numbers have been given out: those that cancels know of. -/
def Works.known (s : Works W) (j : Job W) : Prop :=
  (∃ q, (q, j) ∈ s.giving) ∨ (∃ q, (q, j) ∈ s.returned) ∨ j ∈ s.revoked ∨
    (∃ w jobs, .stop w jobs ∈ s.timerQueue ∧ j ∈ jobs) ∨ ∃ c ∈ s.cancelling, j ∈ c.jobs

/-- What cancels rely on between two steps: what they took back is dead, and what they
    are about to take back is dead but for its timer. -/
structure Cancels (s : Works W) : Prop where
  dead : ∀ j ∈ s.revoked, ¬s.live j
  order : s.timerQueue.Pairwise WorkCmd.before
  stopped : ∀ w jobs, .stop w jobs ∈ s.timerQueue → ∀ j ∈ jobs, j.work = w ∧ ¬s.inHands j
  callback : ∀ w b, s.callback = some (w, b) → (s.work w).active = true ∧
    ∀ jobs, .stop w jobs ∉ s.timerQueue
  numbered : ∀ j, s.known j → j.run < s.runs
  own : ∀ c ∈ s.cancelling, ∀ j ∈ c.jobs, j.work = c.work
  delayed : ∀ w, (s.work w).dly = 0 → s.quiet w

/-- What deletions rely on. -/
structure Deletes (s : Works W) : Prop where
  doomed : ∀ q, s.doomed q → (s.queue q).workList = [] ∧ s.finished q = s.accepted q
  retired : ∀ q, (s.queue q).worker = .deleted →
    s.accepted q = s.finished q ++ (s.queue q).workList

omit [DecidableEq W] in
/-- No delayed work is due on a queue that a deletion has looked at. -/
def Works.settled (s : Works W) : Prop :=
  ∀ q, s.doomed q → ∀ j, ¬s.due q j

/-- What holds between two steps. -/
structure CancelInv (s : Works W) : Prop where
  inv : WorksInv s
  cancels : Cancels s
  deletes : Deletes s
  settled : s.settled
  remembers : Remembers s

/-! ## Steps that bring nothing to life -/

section Harmless

variable {s s' : Works W}

/-- A step brings no call to life, and takes back only what is dead. -/
structure Harmless (s s' : Works W) : Prop where
  live : ∀ j, s'.live j → s.live j
  inHands : ∀ j, s'.inHands j → s.inHands j
  timerQueue : s'.timerQueue.Sublist s.timerQueue
  callback : ∀ w b, s'.callback = some (w, b) →
    s.callback = some (w, b) ∧ (s'.work w).active = (s.work w).active
  runs : s.runs ≤ s'.runs
  known : ∀ j, s'.known j → s.known j
  cancelling : ∀ c ∈ s'.cancelling, c ∈ s.cancelling ∨ c.jobs = s.returnedJobs c.work
  dly : ∀ w, (s'.work w).dly = (s.work w).dly
  quiet : ∀ w, s.quiet w → s'.quiet w
  revoked : ∀ j ∈ s'.revoked, j ∈ s.revoked ∨ ¬s'.live j

theorem mem_returnedJobs {w : W} {j : Job W} (h : j ∈ s.returnedJobs w) :
    j.work = w ∧ ∃ q, (q, j) ∈ s.returned := by
  unfold Works.returnedJobs at h
  rw [List.mem_filter, decide_eq_true_eq, List.mem_map] at h
  rcases h with ⟨⟨⟨q, i⟩, hmem, rfl⟩, hw⟩
  exact ⟨hw, q, hmem⟩

theorem Cancels.harmless (h : Cancels s) (hless : Harmless s s') : Cancels s' := by
  refine ⟨?_, h.order.sublist hless.timerQueue, ?_, ?_, ?_, ?_, ?_⟩
  · intro j hj hlive
    rcases hless.revoked j hj with hold | hdead
    · exact h.dead j hold (hless.live j hlive)
    · exact hdead hlive
  · intro w jobs hmem j hj
    rcases h.stopped w jobs (hless.timerQueue.subset hmem) j hj with ⟨hw, hhands⟩
    exact ⟨hw, fun hin => hhands (hless.inHands j hin)⟩
  · intro w b hcb
    rcases hless.callback w b hcb with ⟨hold, hsame⟩
    rcases h.callback w b hold with ⟨hactive, hstop⟩
    exact ⟨hsame.trans hactive, fun jobs hmem => hstop jobs (hless.timerQueue.subset hmem)⟩
  · exact fun j hj => (h.numbered j (hless.known j hj)).trans_le hless.runs
  · intro c hc j hj
    rcases hless.cancelling c hc with hold | hjobs
    · exact h.own c hold j hj
    · rw [hjobs] at hj
      exact (mem_returnedJobs hj).1
  · exact fun w hdly => hless.quiet w (h.delayed w ((hless.dly w).symm.trans hdly))

/-- A step that leaves timers alone, and gives no worker a work that was not listed. -/
theorem harmless_of_hands (hhands : ∀ j, s'.inHands j → s.inHands j) (hwork : ∀ w,
      (s'.work w).active = (s.work w).active ∧ (s'.work w).armed = (s.work w).armed ∧
        (s'.work w).dly = (s.work w).dly)
    (htimer : s'.timerQueue = s.timerQueue) (hcallback : s'.callback = s.callback)
    (hruns : s.runs ≤ s'.runs) (hknown : ∀ j, s'.known j → s.known j)
    (hcancelling : ∀ c ∈ s'.cancelling, c ∈ s.cancelling ∨ c.jobs = s.returnedJobs c.work)
    (hrevoked : ∀ j ∈ s'.revoked, j ∈ s.revoked ∨ ¬s'.live j) : Harmless s s' := by
  refine ⟨?_, hhands, htimer ▸ List.Sublist.refl _, ?_, hruns, hknown, hcancelling,
    fun w => (hwork w).2.2, ?_, hrevoked⟩
  · intro j hlive
    rcases hlive with hin | ⟨hactive, harmed⟩ | ⟨q, hmem⟩
    · exact .inl (hhands j hin)
    · exact .inr (.inl ⟨(hwork _).1.symm.trans hactive, (hwork _).2.1.symm.trans harmed⟩)
    · rw [htimer] at hmem
      exact .inr (.inr ⟨q, hmem⟩)
  · intro w b hcb
    rw [hcallback] at hcb
    exact ⟨hcb, (hwork w).1⟩
  · rintro w ⟨hactive, hnone⟩
    rw [Works.quiet, htimer]
    exact ⟨(hwork w).1.trans hactive, hnone⟩

/-- A step that only calls know of. -/
theorem Cancels.calls (h : Cancels s) (hqueue : s'.queue = s.queue) (hwork : s'.work = s.work)
    (htimer : s'.timerQueue = s.timerQueue) (hcallback : s'.callback = s.callback)
    (hrevoked : s'.revoked = s.revoked) (hruns : s.runs ≤ s'.runs)
    (hknown : ∀ j, s'.known j → s.known j)
    (hcancelling : ∀ c ∈ s'.cancelling, c ∈ s.cancelling ∨ c.jobs = s.returnedJobs c.work) :
    Cancels s' := by
  refine h.harmless (harmless_of_hands ?_ (fun w => ?_) htimer hcallback hruns hknown hcancelling ?_)
  · unfold Works.inHands
    rw [hqueue]
    exact fun _ => id
  · rw [hwork]
    exact ⟨rfl, rfl, rfl⟩
  · rw [hrevoked]
    exact fun _ => .inl

omit [DecidableEq W] in
/-- A queue changes without a work getting into other hands. -/
theorem inHands_update {q : Nat} {x : Kworkqueue W}
    (hqueue : s'.queue = Function.update s.queue q x)
    (hx : ∀ j, j ∈ x.workList ∨ x.worker = .took j →
      j ∈ (s.queue q).workList ∨ (s.queue q).worker = .took j) (j : Job W)
    (h : s'.inHands j) : s.inHands j := by
  rcases h with ⟨u, hu⟩
  rw [hqueue] at hu
  by_cases huq : u = q
  · rw [huq, Function.update_self] at hu
    exact ⟨q, hx j hu⟩
  · rw [Function.update_of_ne huq] at hu
    exact ⟨u, hu⟩

/-- A step that changes one queue only. -/
theorem harmless_of_queue {q : Nat} {x : Kworkqueue W}
    (hqueue : s'.queue = Function.update s.queue q x)
    (hx : ∀ j, j ∈ x.workList ∨ x.worker = .took j →
      j ∈ (s.queue q).workList ∨ (s.queue q).worker = .took j)
    (hwork : s'.work = s.work) (htimer : s'.timerQueue = s.timerQueue)
    (hcallback : s'.callback = s.callback) (hruns : s'.runs = s.runs)
    (hgiving : s'.giving = s.giving) (hreturned : s'.returned = s.returned)
    (hcancelling : s'.cancelling = s.cancelling) (hrevoked : s'.revoked = s.revoked) :
    Harmless s s' := by
  refine harmless_of_hands (inHands_update hqueue hx) (fun w => ?_) htimer hcallback hruns.ge
    ?_ ?_ ?_
  · rw [hwork]
    exact ⟨rfl, rfl, rfl⟩
  · unfold Works.known
    rw [hgiving, hreturned, hrevoked, htimer, hcancelling]
    exact fun _ => id
  · rw [hcancelling]
    exact fun _ => .inl
  · rw [hrevoked]
    exact fun _ => .inl

end Harmless

/-! ## Every step -/

section CancelSteps

variable {s s' : Works W}

omit [DecidableEq W] in
/-- What a cancel that finds no timer to stop takes back. -/
theorem not_live_of_quiet {w : W} (hinv : WorksListed s) (hlist : (s.work w).wq = none ∨
      (s.work w).workExit = false) (hheld : ¬s.held w) (hquiet : s.quiet w) (j : Job W)
    (hj : j.work = w) : ¬s.live j := by
  rintro (⟨q, hmem | htook⟩ | ⟨hactive, -⟩ | ⟨q, hmem⟩)
  · rcases hlist with hwq | hexit
    · have hsome := hinv.wq q j hmem
      rw [hj, hwq] at hsome
      cases hsome
    · have htrue := hinv.workExit q j hmem
      rw [hj, hexit] at htrue
      cases htrue
  · exact hheld ⟨q, j, htook, hj⟩
  · rw [hj, hquiet.1] at hactive
    cases hactive
  · rw [hj] at hmem
    exact hquiet.2 _ _ hmem

/-- A cancel that has no queue and no stop to send takes back what is dead. -/
theorem cancelNone_harmless (hinv : WorksListed s) {w : W} (hwq : (s.work w).wq = none)
    (hheld : ¬s.held w) (hquiet : s.quiet w) :
    Harmless s { s with revoked := s.revoked ++ s.returnedJobs w } := by
  refine harmless_of_hands (fun _ => id) (fun _ => ⟨rfl, rfl, rfl⟩) rfl rfl (Nat.le_refl _) ?_
    (fun _ => .inl) ?_
  · rintro j (hj | hj | hj | hj | hj)
    · exact .inl hj
    · exact .inr (.inl hj)
    · rcases List.mem_append.mp hj with hj | hj
      · exact .inr (.inr (.inl hj))
      · exact .inr (.inl (mem_returnedJobs hj).2)
    · exact .inr (.inr (.inr (.inl hj)))
    · exact .inr (.inr (.inr (.inr hj)))
  · intro j hj
    rcases List.mem_append.mp hj with hj | hj
    · exact .inl hj
    · exact .inr (not_live_of_quiet hinv (.inl hwq) hheld hquiet j (mem_returnedJobs hj).1)

/-- A cancel that takes its work off no list takes back what is dead. -/
theorem cancelDone_harmless (hinv : WorksListed s) (h : Cancels s) {c : Cancel W}
    (hmem : c ∈ s.cancelling) (hexit : (s.work c.work).workExit = false)
    (hheld : ¬s.held c.work) (hquiet : s.quiet c.work) :
    Harmless s { (s.unlink c.work).modWork c.work fun x => { x with wq := none } with
      cancelling := s.cancelling.erase c
      revoked := s.revoked ++ c.jobs } := by
  have hwork : (s.modWork c.work fun x => { x with wq := none }).work =
      Function.update s.work c.work { s.work c.work with wq := none } := rfl
  have hlive : ∀ j, Works.live { (s.unlink c.work).modWork c.work fun x => { x with wq := none } with
      cancelling := s.cancelling.erase c
      revoked := s.revoked ++ c.jobs } j → s.live j := by
    rw [unlink_eq hinv hexit]
    rintro j (hin | ⟨hactive, harmed⟩ | hqueue)
    · exact .inl hin
    · refine .inr (.inl ⟨?_, ?_⟩)
      · exact (work_field hwork Kwork.active rfl j.work).symm.trans hactive
      · exact (work_field hwork Kwork.armed rfl j.work).symm.trans harmed
    · exact .inr (.inr hqueue)
  have hdead : ∀ j ∈ c.jobs, ¬s.live j := fun j hj =>
    not_live_of_quiet hinv (.inr hexit) hheld hquiet j (h.own c hmem j hj)
  refine harmless_of_hands ?_ (fun w => ?_) rfl rfl (Nat.le_refl _) ?_ ?_ ?_
  · rw [unlink_eq hinv hexit]
    exact fun _ => id
  · rw [unlink_eq hinv hexit]
    exact ⟨work_field hwork Kwork.active rfl w, work_field hwork Kwork.armed rfl w,
      work_field hwork Kwork.dly rfl w⟩
  · rintro j (hj | hj | hj | hj | ⟨d, hd, hj⟩)
    · exact .inl hj
    · exact .inr (.inl hj)
    · rcases List.mem_append.mp hj with hj | hj
      · exact .inr (.inr (.inl hj))
      · exact .inr (.inr (.inr (.inr ⟨c, hmem, hj⟩)))
    · exact .inr (.inr (.inr (.inl hj)))
    · exact .inr (.inr (.inr (.inr ⟨d, List.mem_of_mem_erase hd, hj⟩)))
  · exact fun d hd => .inl (List.mem_of_mem_erase hd)
  · intro j hj
    rcases List.mem_append.mp hj with hj | hj
    · exact .inl hj
    · exact .inr fun hl => hdead j hj (hlive j hl)

/-- The timer task starts a timer. -/
theorem started_harmless {w : W} {q run : Nat} {rest : List (WorkCmd W)} (hidle : s.callback = none)
    (hqueue : s.timerQueue = .argChgAuto w q run :: rest) :
    Harmless s { s.modWork w fun x => { x with active := true, cbArg := q, armed := run } with
      timerQueue := rest
      dropped := s.dropped ++ s.timed w } := by
  have hsub : rest.Sublist s.timerQueue := hqueue ▸ List.sublist_cons_self _ _
  have hhead : .argChgAuto w q run ∈ s.timerQueue := hqueue ▸ List.mem_cons_self
  refine ⟨?_, fun _ => id, hsub, ?_, Nat.le_refl _, ?_, fun _ => .inl, ?_, ?_, fun _ => .inl⟩
  · rintro j (hin | ⟨hactive, harmed⟩ | ⟨u, hmem⟩)
    · exact .inl hin
    · by_cases hj : j.work = w
      · -- The timer that runs now was about to be started.
        simp only [Works.modWork, hj, Function.update_self] at harmed
        rw [harmed] at hhead
        exact .inr (.inr ⟨q, by rw [hj]; exact hhead⟩)
      · simp only [Works.modWork, Function.update_of_ne hj] at hactive harmed
        exact .inr (.inl ⟨hactive, harmed⟩)
    · exact .inr (.inr ⟨u, hsub.subset hmem⟩)
  · intro v b hcb
    change s.callback = _ at hcb
    rw [hidle] at hcb
    cases hcb
  · rintro j (hj | hj | hj | ⟨v, jobs, hmem, hj⟩ | hj)
    · exact .inl hj
    · exact .inr (.inl hj)
    · exact .inr (.inr (.inl hj))
    · exact .inr (.inr (.inr (.inl ⟨v, jobs, hsub.subset hmem, hj⟩)))
    · exact .inr (.inr (.inr (.inr hj)))
  · exact work_field (w := w) (x := { s.work w with active := true, cbArg := q, armed := run }) rfl
      Kwork.dly rfl
  · rintro v ⟨hactive, hnone⟩
    have hv : v ≠ w := by
      rintro rfl
      exact hnone q run hhead
    refine ⟨?_, fun u r hmem => hnone u r (hsub.subset hmem)⟩
    simp only [Works.modWork, Function.update_of_ne hv]
    exact hactive

/-- The timer task stops a timer, and with it all that a cancel takes back. -/
theorem stopped_harmless (h : Cancels s) {w : W} {jobs : List (Job W)} {rest : List (WorkCmd W)}
    (hidle : s.callback = none) (hqueue : s.timerQueue = .stop w jobs :: rest) :
    Harmless s { s.modWork w fun x => { x with active := false } with
      timerQueue := rest
      revoked := s.revoked ++ jobs
      dropped := s.dropped ++ s.timed w } := by
  have hsub : rest.Sublist s.timerQueue := hqueue ▸ List.sublist_cons_self _ _
  have hhead : .stop w jobs ∈ s.timerQueue := hqueue ▸ List.mem_cons_self
  -- The starts that the stop is meant for were sent before it.
  have hbehind : ∀ j ∈ jobs, ∀ q, .argChgAuto j.work q j.run ∉ rest := by
    intro j hj q hmem
    have horder := h.order
    rw [hqueue, List.pairwise_cons] at horder
    exact horder.1 _ hmem w jobs rfl j hj q rfl
  refine ⟨?_, fun _ => id, hsub, ?_, Nat.le_refl _, ?_, fun _ => .inl, ?_, ?_, ?_⟩
  · rintro j (hin | ⟨hactive, harmed⟩ | ⟨u, hmem⟩)
    · exact .inl hin
    · by_cases hj : j.work = w
      · simp only [Works.modWork, hj, Function.update_self] at hactive
        cases hactive
      · simp only [Works.modWork, Function.update_of_ne hj] at hactive harmed
        exact .inr (.inl ⟨hactive, harmed⟩)
    · exact .inr (.inr ⟨u, hsub.subset hmem⟩)
  · intro v b hcb
    change s.callback = _ at hcb
    rw [hidle] at hcb
    cases hcb
  · rintro j (hj | hj | hj | ⟨v, is, hmem, hj⟩ | hj)
    · exact .inl hj
    · exact .inr (.inl hj)
    · rcases List.mem_append.mp hj with hj | hj
      · exact .inr (.inr (.inl hj))
      · exact .inr (.inr (.inr (.inl ⟨w, jobs, hhead, hj⟩)))
    · exact .inr (.inr (.inr (.inl ⟨v, is, hsub.subset hmem, hj⟩)))
    · exact .inr (.inr (.inr (.inr hj)))
  · exact work_field (w := w) (x := { s.work w with active := false }) rfl Kwork.dly rfl
  · rintro v ⟨hactive, hnone⟩
    refine ⟨?_, fun u r hmem => hnone u r (hsub.subset hmem)⟩
    by_cases hv : v = w
    · simp only [Works.modWork, hv, Function.update_self]
    · simp only [Works.modWork, Function.update_of_ne hv]
      exact hactive
  · intro j hj
    rcases List.mem_append.mp hj with hj | hj
    · exact .inl hj
    · refine .inr ?_
      rcases h.stopped w jobs hhead j hj with ⟨hw, hhands⟩
      rintro (hin | ⟨hactive, -⟩ | ⟨q, hmem⟩)
      · exact hhands hin
      · simp only [Works.modWork, hw, Function.update_self] at hactive
        cases hactive
      · exact hbehind j hj q hmem

/-- A callback is over. -/
theorem endCallback_harmless {w : W} (hqueue : ∀ j, s'.inHands j → s.inHands j)
    (hwork : s'.work = Function.update s.work w { s.work w with active := false })
    (htimer : s'.timerQueue = s.timerQueue) (hcallback : s'.callback = none)
    (hruns : s'.runs = s.runs) (hgiving : s'.giving = s.giving)
    (hreturned : s'.returned = s.returned) (hcancelling : s'.cancelling = s.cancelling)
    (hrevoked : s'.revoked = s.revoked) : Harmless s s' := by
  refine ⟨?_, hqueue, htimer ▸ List.Sublist.refl _, ?_, hruns.ge, ?_, ?_, ?_, ?_, ?_⟩
  · rintro j (hin | ⟨hactive, harmed⟩ | ⟨u, hmem⟩)
    · exact .inl (hqueue j hin)
    · rw [hwork] at hactive harmed
      by_cases hj : j.work = w
      · rw [hj, Function.update_self] at hactive
        cases hactive
      · rw [Function.update_of_ne hj] at hactive harmed
        exact .inr (.inl ⟨hactive, harmed⟩)
    · rw [htimer] at hmem
      exact .inr (.inr ⟨u, hmem⟩)
  · intro v b hcb
    rw [hcallback] at hcb
    cases hcb
  · unfold Works.known
    rw [hgiving, hreturned, hrevoked, htimer, hcancelling]
    exact fun _ => id
  · rw [hcancelling]
    exact fun _ => .inl
  · exact work_field hwork Kwork.dly rfl
  · rintro v ⟨hactive, hnone⟩
    rw [Works.quiet, htimer, hwork]
    refine ⟨?_, hnone⟩
    by_cases hv : v = w
    · rw [hv, Function.update_self]
    · rw [Function.update_of_ne hv]
      exact hactive
  · rw [hrevoked]
    exact fun _ => .inl

end CancelSteps

/-! ## Steps that bring a call to life -/

section CancelSpecial

variable {s s' : Works W}

omit [DecidableEq W] in
/-- A delayed call gets a number and a command of its own. -/
theorem queued_cancels (h : Cancels s) {q : Nat} {w : W} (hdly : (s.work w).dly ≠ 0) :
    Cancels { s with
      runs := s.runs + 1
      timerQueue := s.timerQueue ++ [.argChgAuto w q s.runs]
      returned := s.returned ++ [(q, ⟨w, s.runs⟩)] } := by
  have hstop : ∀ v jobs, .stop v jobs ∈ s.timerQueue ++ [.argChgAuto w q s.runs] →
      .stop v jobs ∈ s.timerQueue := by
    intro v jobs hmem
    rcases List.mem_append.mp hmem with hmem | hmem
    · exact hmem
    · cases List.mem_singleton.mp hmem
  have hstart : ∀ v u r, .argChgAuto v u r ∈ s.timerQueue ++ [.argChgAuto w q s.runs] →
      .argChgAuto v u r ∈ s.timerQueue ∨ v = w ∧ r = s.runs := by
    intro v u r hmem
    rcases List.mem_append.mp hmem with hmem | hmem
    · exact .inl hmem
    · cases List.mem_singleton.mp hmem
      exact .inr ⟨rfl, rfl⟩
  -- The job gets a number of its own, so no cancel knows it.
  have hknown : ∀ j, s.known j → j.run < s.runs + 1 := fun j hj => (h.numbered j hj).trans
    (Nat.lt_succ_self _)
  refine ⟨?_, ?_, ?_, ?_, ?_, h.own, ?_⟩
  · rintro j hj (hin | hactive | ⟨u, hmem⟩)
    · exact h.dead j hj (.inl hin)
    · exact h.dead j hj (.inr (.inl hactive))
    · rcases hstart _ _ _ hmem with hmem | ⟨-, hnew⟩
      · exact h.dead j hj (.inr (.inr ⟨u, hmem⟩))
      · exact absurd (h.numbered j (.inr (.inr (.inl hj)))) (by omega)
  -- No stop before it in the queue can be meant for it.
  · refine List.pairwise_append.mpr ⟨h.order, List.pairwise_singleton _ _, ?_⟩
    intro c hc d hd v jobs hcv j hj u heq
    rw [List.mem_singleton.mp hd] at heq
    have hlt := h.numbered j (.inr (.inr (.inr (.inl ⟨v, jobs, hcv ▸ hc, hj⟩))))
    injection heq with _ _ hrun
    omega
  · exact fun v jobs hmem => h.stopped v jobs (hstop v jobs hmem)
  · intro v b hcb
    rcases h.callback v b hcb with ⟨hactive, hnone⟩
    exact ⟨hactive, fun jobs hmem => hnone jobs (hstop v jobs hmem)⟩
  · rintro j (hj | ⟨u, hj⟩ | hj | ⟨v, jobs, hmem, hj⟩ | hj)
    · exact hknown j (.inl hj)
    · rcases List.mem_append.mp hj with hj | hj
      · exact hknown j (.inr (.inl ⟨u, hj⟩))
      · rw [List.mem_singleton, Prod.mk.injEq] at hj
        rw [hj.2]
        exact Nat.lt_succ_self _
    · exact hknown j (.inr (.inr (.inl hj)))
    · exact hknown j (.inr (.inr (.inr (.inl ⟨v, jobs, hstop v jobs hmem, hj⟩))))
    · exact hknown j (.inr (.inr (.inr (.inr hj))))
  · intro v hv
    rcases h.delayed v hv with ⟨hactive, hnone⟩
    refine ⟨hactive, fun u r hmem => ?_⟩
    rcases hstart v u r hmem with hmem | ⟨rfl, -⟩
    · exact hnone u r hmem
    · exact hdly hv

/-- A stop is on its way. -/
theorem cancelStop_cancels (hinv : WorksListed s) (h : Cancels s) {w : W}
    (hwq : (s.work w).wq = none) (hheld : ¬s.held w) (hcb : ∀ b, s.callback ≠ some (w, b)) :
    Cancels { s with timerQueue := s.timerQueue ++ [.stop w (s.returnedJobs w)] } := by
  have hstart : ∀ v u r, .argChgAuto v u r ∈ s.timerQueue ++ [.stop w (s.returnedJobs w)] →
      .argChgAuto v u r ∈ s.timerQueue := by
    intro v u r hmem
    rcases List.mem_append.mp hmem with hmem | hmem
    · exact hmem
    · cases List.mem_singleton.mp hmem
  have hstop : ∀ v jobs, .stop v jobs ∈ s.timerQueue ++ [.stop w (s.returnedJobs w)] →
      .stop v jobs ∈ s.timerQueue ∨ v = w ∧ jobs = s.returnedJobs w := by
    intro v jobs hmem
    rcases List.mem_append.mp hmem with hmem | hmem
    · exact .inl hmem
    · cases List.mem_singleton.mp hmem
      exact .inr ⟨rfl, rfl⟩
  refine ⟨?_, ?_, ?_, ?_, ?_, h.own, ?_⟩
  · rintro j hj (hin | hactive | ⟨u, hmem⟩)
    · exact h.dead j hj (.inl hin)
    · exact h.dead j hj (.inr (.inl hactive))
    · exact h.dead j hj (.inr (.inr ⟨u, hstart _ _ _ hmem⟩))
  -- The stop is the last of the queue, so no start stands behind it.
  · refine List.pairwise_append.mpr ⟨h.order, List.pairwise_singleton _ _, ?_⟩
    intro c hc d hd v jobs hcv j hj u heq
    rw [List.mem_singleton.mp hd] at heq
    cases heq
  · intro v jobs hmem j hj
    rcases hstop v jobs hmem with hmem | ⟨rfl, rfl⟩
    · exact h.stopped v jobs hmem j hj
    · -- No queue has the work, and no worker.
      have hjw := (mem_returnedJobs hj).1
      refine ⟨hjw, ?_⟩
      rintro ⟨q, hlist | htook⟩
      · have hsome := hinv.wq q j hlist
        rw [hjw, hwq] at hsome
        cases hsome
      · exact hheld ⟨q, j, htook, hjw⟩
  · intro v b hvb
    rcases h.callback v b hvb with ⟨hactive, hnone⟩
    refine ⟨hactive, fun jobs hmem => ?_⟩
    rcases hstop v jobs hmem with hmem | ⟨rfl, -⟩
    · exact hnone jobs hmem
    · exact hcb b hvb
  · rintro j (hj | hj | hj | ⟨v, jobs, hmem, hj⟩ | hj)
    · exact h.numbered j (.inl hj)
    · exact h.numbered j (.inr (.inl hj))
    · exact h.numbered j (.inr (.inr (.inl hj)))
    · rcases hstop v jobs hmem with hmem | ⟨-, rfl⟩
      · exact h.numbered j (.inr (.inr (.inr (.inl ⟨v, jobs, hmem, hj⟩))))
      · exact h.numbered j (.inr (.inl (mem_returnedJobs hj).2))
    · exact h.numbered j (.inr (.inr (.inr (.inr hj))))
  · intro v hv
    rcases h.delayed v hv with ⟨hactive, hnone⟩
    exact ⟨hactive, fun u r hmem => hnone u r (hstart v u r hmem)⟩

/-- A work is put on a queue for a call that no cancel knows of. -/
theorem insert_cancels (hinv : WorksListed s) (h : Cancels s) {q : Nat} {j : Job W}
    (hexit : (s.work j.work).workExit = false) (hrevoked : j ∉ s.revoked)
    (hstop : ∀ w jobs, .stop w jobs ∈ s.timerQueue → j ∉ jobs)
    (hqueue : s'.queue = (s.insert q j).queue) (hwork : s'.work = (s.insert q j).work)
    (htimer : s'.timerQueue = s.timerQueue)
    (hcallback : ∀ w b, s'.callback = some (w, b) → ∃ c, s.callback = some (w, c))
    (hknown : ∀ i, s'.known i → i.run < s'.runs) (hcancelling : s'.cancelling = s.cancelling)
    (hsame : s'.revoked = s.revoked) : Cancels s' := by
  -- The queues and the workers hold one job more.
  have hhands : ∀ i, s'.inHands i → s.inHands i ∨ i = j := by
    rintro i ⟨u, hu⟩
    rw [hqueue, Works.insert, unlink_eq hinv hexit] at hu
    by_cases huq : u = q
    · simp only [Works.modWork, Works.modQueue, huq, Function.update_self, List.mem_append,
        List.mem_singleton] at hu
      rcases hu with (hu | hu) | hu
      · exact .inl ⟨q, .inl hu⟩
      · exact .inr hu
      · exact .inl ⟨q, .inr hu⟩
    · simp only [Works.modWork, Works.modQueue, Function.update_of_ne huq] at hu
      exact .inl ⟨u, hu⟩
  have hwork' : s'.work = Function.update s.work j.work
      { s.work j.work with wq := some q, workExit := true } := hwork
  have hactive := work_field hwork' Kwork.active rfl
  have harmed := work_field hwork' Kwork.armed rfl
  refine ⟨?_, htimer ▸ h.order, ?_, ?_, hknown, hcancelling ▸ h.own, ?_⟩
  · rw [hsame]
    rintro i hi (hin | ⟨hact, harm⟩ | ⟨u, hmem⟩)
    · rcases hhands i hin with hin | rfl
      · exact h.dead i hi (.inl hin)
      · exact hrevoked hi
    · exact h.dead i hi (.inr (.inl ⟨(hactive _).symm.trans hact, (harmed _).symm.trans harm⟩))
    · rw [htimer] at hmem
      exact h.dead i hi (.inr (.inr ⟨u, hmem⟩))
  · rw [htimer]
    intro w jobs hmem i hi
    rcases h.stopped w jobs hmem i hi with ⟨hw, hnot⟩
    refine ⟨hw, fun hin => ?_⟩
    rcases hhands i hin with hin | rfl
    · exact hnot hin
    · exact hstop w jobs hmem hi
  · intro w b hcb
    rcases hcallback w b hcb with ⟨c, hc⟩
    rw [htimer, hactive w]
    exact h.callback w c hc
  · intro w hw
    rw [work_field hwork' Kwork.dly rfl w] at hw
    rw [Works.quiet, htimer, hactive w]
    exact h.delayed w hw

end CancelSpecial

/-! ## Whole steps -/

section CancelWhole

variable {s s' : Works W}

theorem inserted_known (h : Cancels s) {q : Nat} {w : W} (i : Job W)
    (hi : Works.known { s.insert q ⟨w, s.runs⟩ with
      runs := s.runs + 1
      giving := s.giving ++ [(q, ⟨w, s.runs⟩)] } i) : i.run < s.runs + 1 := by
  have hold : s.known i → i.run < s.runs + 1 :=
    fun hk => (h.numbered i hk).trans (Nat.lt_succ_self _)
  rcases hi with ⟨u, hi⟩ | hi
  · rcases List.mem_append.mp hi with hi | hi
    · exact hold (.inl ⟨u, hi⟩)
    · rw [List.mem_singleton, Prod.mk.injEq] at hi
      rw [hi.2]
      exact Nat.lt_succ_self _
  · exact hold (.inr hi)

theorem step_cancels {a : WorkAct W} (hinv : WorksListed s) (h : Cancels s) (hsafe : s.safe a)
    (hstep : WorkStep s a s') : Cancels s' := by
  -- A worker moves on without taking a work.
  have hmove : ∀ {q : Nat} {x : Kworkqueue W}, x.workList = (s.queue q).workList →
      (∀ j, x.worker = .took j → (s.queue q).worker = .took j) → ∀ j,
      j ∈ x.workList ∨ x.worker = .took j →
        j ∈ (s.queue q).workList ∨ (s.queue q).worker = .took j := by
    intro q x hlist hworker j hj
    rw [hlist] at hj
    exact hj.imp id (hworker j)
  cases hstep with
  | refused =>
      exact h.calls rfl rfl rfl rfl rfl (Nat.le_succ _) (fun _ => id) fun _ => .inl
  | queued hdly => exact queued_cancels h hdly
  | @inserted q w room hdly hcurrent hexit =>
      refine insert_cancels (q := q) (j := ⟨w, s.runs⟩) hinv h hexit ?_ ?_ rfl rfl rfl
        (fun v b hcb => ⟨b, hcb⟩) (inserted_known h) rfl rfl
      · intro hmem
        exact absurd (h.numbered _ (.inr (.inr (.inl hmem)))) (Nat.lt_irrefl _)
      · intro v jobs hstop hmem
        exact absurd (h.numbered _ (.inr (.inr (.inr (.inl ⟨v, jobs, hstop, hmem⟩)))))
          (Nat.lt_irrefl _)
  | @gave q j x hmem hx =>
      refine h.harmless (harmless_of_hands (inHands_update rfl ?_) (fun _ => ⟨rfl, rfl, rfl⟩) rfl
        rfl (Nat.le_refl _) ?_ (fun _ => .inl) fun _ => .inl)
      · rcases hx with ⟨-, rfl⟩ | ⟨-, rfl⟩
        · exact hmove rfl (by simp)
        · exact hmove rfl fun _ => id
      · rintro i (⟨u, hi⟩ | ⟨u, hi⟩ | hi)
        · exact .inl ⟨u, List.mem_of_mem_erase hi⟩
        · rcases List.mem_append.mp hi with hi | hi
          · exact .inr (.inl ⟨u, hi⟩)
          · rw [List.mem_singleton, Prod.mk.injEq] at hi
            rw [hi.2]
            exact .inl ⟨q, hmem⟩
        · exact .inr (.inr hi)
  | giveFailed hmem hfail =>
      refine h.calls rfl rfl rfl rfl rfl (Nat.le_refl _) ?_ fun _ => .inl
      rintro i (⟨u, hi⟩ | hi)
      · exact .inl ⟨u, List.mem_of_mem_erase hi⟩
      · exact .inr hi
  | @cancelRead w q room hwq =>
      refine h.calls rfl rfl rfl rfl rfl (Nat.le_refl _) ?_ ?_
      · rintro i (hi | hi | hi | hi | ⟨c, hc, hi⟩)
        · exact .inl hi
        · exact .inr (.inl hi)
        · exact .inr (.inr (.inl hi))
        · exact .inr (.inr (.inr (.inl hi)))
        · rcases List.mem_append.mp hc with hc | hc
          · exact .inr (.inr (.inr (.inr ⟨c, hc, hi⟩)))
          · rw [List.mem_singleton.mp hc] at hi
            exact .inr (.inl (mem_returnedJobs hi).2)
      · intro c hc
        rcases List.mem_append.mp hc with hc | hc
        · exact .inl hc
        · rw [List.mem_singleton.mp hc]
          exact .inr rfl
  | cancelStop hwq hdly =>
      rcases hsafe hwq with ⟨hheld, hstop⟩
      exact cancelStop_cancels hinv h hwq hheld (hstop hdly).1
  | @cancelNone w room hwq hno =>
      rcases hsafe hwq with ⟨hheld, hstop⟩
      have hquiet : s.quiet w := by
        by_cases hdly : (s.work w).dly > 0
        · rcases (hstop hdly).2 with hroom | hquiet
          · exact absurd ⟨hdly, hroom⟩ hno
          · exact hquiet
        · exact h.delayed w (Nat.eq_zero_of_not_pos hdly)
      exact h.harmless (cancelNone_harmless hinv hwq hheld hquiet)
  | cancelRefused hmem =>
      refine h.calls rfl rfl rfl rfl rfl (Nat.le_refl _) ?_ fun c hc =>
        .inl (List.mem_of_mem_erase hc)
      rintro i (hi | hi | hi | hi | ⟨c, hc, hi⟩)
      · exact .inl hi
      · exact .inr (.inl hi)
      · exact .inr (.inr (.inl hi))
      · exact .inr (.inr (.inr (.inl hi)))
      · exact .inr (.inr (.inr (.inr ⟨c, List.mem_of_mem_erase hc, hi⟩)))
  | cancelDone hmem hcurrent hexit =>
      rcases hsafe hcurrent hexit with ⟨hheld, hquiet⟩
      exact h.harmless (cancelDone_harmless hinv h hmem hexit hheld hquiet)
  | take hworker hx =>
      refine h.harmless (harmless_of_queue rfl ?_ rfl rfl rfl rfl rfl rfl rfl rfl)
      rcases hx with ⟨-, rfl⟩ | ⟨-, rfl⟩
      · exact hmove rfl (by simp)
      · exact hmove rfl (by simp)
  | @remove q j rest hworker hlist =>
      have hwork : (s.modWork j.work fun x => { x with workExit := false }).work =
          Function.update s.work j.work { s.work j.work with workExit := false } := rfl
      refine h.harmless (harmless_of_hands (inHands_update (q := q) rfl ?_) (fun w => ?_) rfl rfl
        (Nat.le_refl _) (fun _ => id) (fun _ => .inl) fun _ => .inl)
      · intro i hi
        rw [hlist]
        rcases hi with hi | hi
        · exact .inl (List.mem_cons_of_mem j hi)
        · injection hi with hji
          rw [← hji]
          exact .inl List.mem_cons_self
      · exact ⟨work_field hwork Kwork.active rfl w, work_field hwork Kwork.armed rfl w,
          work_field hwork Kwork.dly rfl w⟩
  | wild hworker hlist | call hworker | finish hworker | delTask hmem =>
      exact h.harmless (harmless_of_queue rfl (hmove rfl (by simp)) rfl rfl rfl rfl rfl rfl rfl rfl)
  | delBegin hl =>
      exact h.calls rfl rfl rfl rfl rfl (Nat.le_refl _) (fun _ => id) fun _ => .inl
  | delRefused hmem hpc =>
      exact h.calls rfl rfl rfl rfl rfl (Nat.le_refl _) (fun _ => id) fun _ => .inl
  | delIdle hmem hlist hcurrent =>
      exact h.calls rfl rfl rfl rfl rfl (Nat.le_refl _) (fun _ => id) fun _ => .inl
  | delSem hmem | delDone hmem =>
      exact h.harmless (harmless_of_queue rfl (hmove rfl fun _ => id) rfl rfl rfl rfl rfl rfl rfl rfl)
  | started hidle hqueue => exact h.harmless (started_harmless hidle hqueue)
  | stopped hidle hqueue => exact h.harmless (stopped_harmless h hidle hqueue)
  | @fired w hidle hactive =>
      refine ⟨h.dead, h.order, h.stopped, ?_, h.numbered, h.own, h.delayed⟩
      rintro v b hcb
      injection hcb with hcb
      injection hcb with hv
      rw [← hv]
      exact ⟨hactive, hsafe⟩
  | cbRefused hcb | cbGiveFailed hcb hfail =>
      exact h.harmless (endCallback_harmless (fun _ => id) rfl rfl rfl rfl rfl rfl rfl rfl)
  | @cbGave w x hcb hx =>
      refine h.harmless (endCallback_harmless (w := w)
        (inHands_update (q := (s.work w).cbArg) (x := x) rfl ?_) rfl rfl rfl rfl rfl rfl rfl rfl)
      rcases hx with ⟨-, rfl⟩ | ⟨-, rfl⟩
      · exact hmove rfl (by simp)
      · exact hmove rfl fun _ => id
  | @cbInserted w hcb hcurrent hexit =>
      rcases h.callback w false hcb with ⟨hactive, hnone⟩
      refine insert_cancels (q := (s.work w).cbArg) (j := ⟨w, (s.work w).armed⟩) hinv h hexit ?_ ?_
        rfl rfl rfl ?_ h.numbered rfl rfl
      · exact fun hmem => h.dead _ hmem (.inr (.inl ⟨hactive, rfl⟩))
      · intro v jobs hstop hmem
        rw [← (h.stopped v jobs hstop _ hmem).1] at hstop
        exact hnone jobs hstop
      · intro v b hvb
        injection hvb with hvb
        injection hvb with hv
        exact ⟨false, hv ▸ hcb⟩

end CancelWhole

/-! ## Queues that are deleted -/

section DeleteSteps

variable {s s' : Works W} {q : Nat}

omit [DecidableEq W] in
/-- A step that leaves lists and logs alone and lets no deletion past its look. -/
theorem Deletes.same (h : Deletes s) (hdoomed : ∀ u, s'.doomed u → s.doomed u)
    (hlist : ∀ u, (s'.queue u).workList = (s.queue u).workList)
    (hworker : ∀ u, (s'.queue u).worker = .deleted →
      (s.queue u).worker = .deleted ∨ s.doomed u)
    (haccepted : s'.accepted = s.accepted) (hfinished : s'.finished = s.finished) :
    Deletes s' := by
  refine ⟨fun u hu => ?_, fun u hu => ?_⟩
  · rw [hlist, haccepted, hfinished]
    exact h.doomed u (hdoomed u hu)
  · rw [hlist, haccepted, hfinished]
    rcases hworker u hu with hold | hlooked
    · exact h.retired u hold
    · rcases h.doomed u hlooked with ⟨hnil, hall⟩
      rw [hnil, hall, List.append_nil]

omit [DecidableEq W] in
theorem doomed_congr (hdeleting : s'.deleting = s.deleting) (u : Nat) (h : s'.doomed u) :
    s.doomed u := by
  unfold Works.doomed at h
  rw [hdeleting] at h
  exact h

omit [DecidableEq W] in
/-- A deletion gets on. -/
theorem doomed_erase {pc : DelPc} {l : List (Nat × DelPc)}
    (hdeleting : s'.deleting = s.deleting.erase (q, pc) ++ l) (hl : ∀ p ∈ l, s.doomed p.1) (u : Nat)
    (h : s'.doomed u) : s.doomed u := by
  rcases h with ⟨pc', hpc, hmem⟩
  rw [hdeleting] at hmem
  rcases List.mem_append.mp hmem with hmem | hmem
  · exact ⟨pc', hpc, List.mem_of_mem_erase hmem⟩
  · exact hl _ hmem

omit [DecidableEq W] in
/-- A queue changes, but not its list, and is not deleted. -/
theorem Deletes.queue (h : Deletes s) {x : Kworkqueue W}
    (hqueue : s'.queue = Function.update s.queue q x) (hlist : x.workList = (s.queue q).workList)
    (hworker : x.worker = .deleted → (s.queue q).worker = .deleted ∨ s.doomed q)
    (hdoomed : ∀ u, s'.doomed u → s.doomed u)
    (haccepted : s'.accepted = s.accepted) (hfinished : s'.finished = s.finished) :
    Deletes s' := by
  refine h.same hdoomed ?_ ?_ haccepted hfinished
  · intro u
    exact update_forall (P := fun u y => y.workList = (s.queue u).workList) hqueue (fun _ => rfl)
      hlist u
  · intro u
    exact update_forall (P := fun u y => y.worker = .deleted →
      (s.queue u).worker = .deleted ∨ s.doomed u) hqueue (fun _ => .inl) hworker u

/-- A work is put on a queue that no deletion has looked at. -/
theorem Deletes.insert (h : Deletes s) (hinv : WorksListed s) {j : Job W}
    (hexit : (s.work j.work).workExit = false) (hnot : ¬s.doomed q)
    (hqueue : s'.queue = (s.insert q j).queue) (haccepted : s'.accepted = (s.insert q j).accepted)
    (hfinished : s'.finished = s.finished) (hdeleting : s'.deleting = s.deleting) : Deletes s' := by
  have hqueue' : s'.queue = Function.update s.queue q
      { s.queue q with workList := (s.queue q).workList ++ [j] } := by
    rw [hqueue, Works.insert, unlink_eq hinv hexit]
    rfl
  have haccepted' : s'.accepted = Function.update s.accepted q (s.accepted q ++ [j]) := haccepted
  refine ⟨fun u hu => ?_, fun u hu => ?_⟩
  · have hold := doomed_congr hdeleting u hu
    have huq : u ≠ q := by
      rintro rfl
      exact hnot hold
    rw [hqueue', haccepted', hfinished, Function.update_of_ne huq, Function.update_of_ne huq]
    exact h.doomed u hold
  · rw [hqueue'] at hu ⊢
    rw [haccepted', hfinished]
    by_cases huq : u = q
    · rw [huq, Function.update_self] at hu ⊢
      rw [Function.update_self, h.retired q hu, List.append_assoc]
    · rw [Function.update_of_ne huq] at hu ⊢
      rw [Function.update_of_ne huq]
      exact h.retired u hu

omit [DecidableEq W] in
/-- A queue that a deletion finds idle has executed all it accepted. -/
theorem idle_finished (hinv : WorksInv s) (h : Deletes s) (hlist : (s.queue q).workList = [])
    (hcurrent : (s.queue q).workCurrent = none) : s.finished q = s.accepted q := by
  by_cases hdel : (s.queue q).worker = .deleted
  · rw [h.retired q hdel, hlist, List.append_nil]
  · have hhand : (s.queue q).inHand = [] := by
      have hcur := hinv.listed.current q hdel
      rw [hcurrent, eq_comm, Option.map_eq_none_iff, List.head?_eq_none_iff] at hcur
      exact hcur
    rw [(hinv.logged q hdel).1, hlist, hhand, List.append_nil, List.append_nil]

/-- Only a look at an idle queue dooms it. -/
theorem step_doomed {a : WorkAct W} (hstep : WorkStep s a s') {u : Nat} (h : s'.doomed u) :
    s.doomed u ∨
      a = .delNext u .look ∧ (s.queue u).workList = [] ∧ (s.queue u).workCurrent = none := by
  cases hstep with
  | delBegin hl =>
      rcases h with ⟨pc, hpc, hmem⟩
      left
      rcases hl with rfl | rfl
      · exact ⟨pc, hpc, hmem⟩
      · rcases List.mem_append.mp hmem with hmem | hmem
        · exact ⟨pc, hpc, hmem⟩
        · rw [List.mem_singleton, Prod.mk.injEq] at hmem
          exact absurd hmem.2 hpc
  | delRefused hmem hpc =>
      rcases h with ⟨pc, hpc, hu⟩
      exact .inl ⟨pc, hpc, List.mem_of_mem_erase hu⟩
  | @delIdle q hmem hlist hcurrent =>
      rcases h with ⟨pc, hpc, hu⟩
      rcases List.mem_append.mp hu with hu | hu
      · exact .inl ⟨pc, hpc, List.mem_of_mem_erase hu⟩
      · rw [List.mem_singleton, Prod.mk.injEq] at hu
        rw [hu.1]
        exact .inr ⟨rfl, hlist, hcurrent⟩
  | delTask hmem =>
      refine .inl (doomed_erase rfl (fun p hp => ?_) u h)
      rw [List.mem_singleton.mp hp]
      exact ⟨_, by simp, hmem⟩
  | delSem hmem =>
      refine .inl (doomed_erase rfl (fun p hp => ?_) u h)
      rw [List.mem_singleton.mp hp]
      exact ⟨_, by simp, hmem⟩
  | delDone hmem =>
      rcases h with ⟨pc, hpc, hu⟩
      exact .inl ⟨pc, hpc, List.mem_of_mem_erase hu⟩
  | _ => exact .inl (doomed_congr rfl u h)

theorem step_settled {a : WorkAct W} (h : s.settled) (hsafe : s.safe a) (hstep : WorkStep s a s') :
    s'.settled := by
  intro q hq j hdue
  rcases step_doomed hstep hq with hold | ⟨rfl, hlist, hcurrent⟩
  · rcases step_due hstep hdue with hdue | ⟨w, rfl, hdly⟩
    · exact h q hold j hdue
    · exact hsafe (.inr ⟨hdly, rfl⟩) hold
  · -- The look found nothing due, and is no call of `krhino_work_run`.
    rcases step_due hstep hdue with hdue | ⟨w, heq, -⟩
    · exact hsafe hlist hcurrent j hdue
    · cases heq

theorem step_deletes {a : WorkAct W} (hinv : WorksInv s) (hcancels : Cancels s) (h : Deletes s)
    (hsettled : s.settled) (hsafe : s.safe a) (hstep : WorkStep s a s') : Deletes s' := by
  have hdoomed : (∀ q, a ≠ .delNext q .look) → ∀ u, s'.doomed u → s.doomed u :=
    fun ha u hu => (step_doomed hstep hu).resolve_right fun hlook => ha u hlook.1
  cases hstep with
  | refused | queued hdly | giveFailed hmem hfail | cancelRead hwq | cancelStop hwq hdly
  | cancelNone hwq hno | cancelRefused hmem | started hidle hqueue | stopped hidle hqueue
  | fired hidle hactive | cbRefused hcb | cbGiveFailed hcb hfail =>
      exact h.same (doomed_congr rfl) (fun _ => rfl) (fun _ => .inl) rfl rfl
  | inserted hdly hcurrent hexit =>
      exact h.insert hinv.listed hexit (hsafe (.inl ⟨hdly, hcurrent, hexit⟩)) rfl rfl rfl rfl
  | gave hmem hx =>
      rcases hx with ⟨-, rfl⟩ | ⟨-, rfl⟩
      · exact h.queue rfl rfl (by simp) (doomed_congr rfl) rfl rfl
      · exact h.queue rfl rfl .inl (doomed_congr rfl) rfl rfl
  | cancelDone hmem hcurrent hexit =>
      rw [unlink_eq hinv.listed hexit]
      exact h.same (doomed_congr rfl) (fun _ => rfl) (fun _ => .inl) rfl rfl
  | take hworker hx =>
      rcases hx with ⟨-, rfl⟩ | ⟨-, rfl⟩
      · exact h.queue rfl rfl (by simp) (doomed_congr rfl) rfl rfl
      · exact h.queue rfl rfl (by simp) (doomed_congr rfl) rfl rfl
  | wild hworker hlist => exact h.queue rfl rfl (by simp) (doomed_congr rfl) rfl rfl
  | call hworker => exact h.queue rfl rfl (by simp) (doomed_congr rfl) rfl rfl
  | @remove q j rest hworker hlist =>
      -- The queue has a work listed, so that no deletion has found it idle.
      refine ⟨fun u hu => ?_, ?_⟩
      · have hold : s.doomed u := hu
        have huq : u ≠ q := by
          rintro rfl
          rw [(h.doomed u hold).1] at hlist
          cases hlist
        simp only [Works.modWork, Works.modQueue, Function.update_of_ne huq]
        exact h.doomed u hold
      · intro u hu
        by_cases huq : u = q
        · simp only [Works.modWork, Works.modQueue, huq, Function.update_self] at hu
          cases hu
        · simp only [Works.modWork, Works.modQueue, Function.update_of_ne huq] at hu ⊢
          exact h.retired u hu
  | @finish q j hworker =>
      have hlog := hinv.logged q (by simp [hworker])
      refine ⟨fun u hu => ?_, ?_⟩
      · have hold : s.doomed u := hu
        have huq : u ≠ q := by
          rintro rfl
          have hall := (h.doomed u hold).2
          rw [hlog.1, Kworkqueue.inHand, hworker] at hall
          have hlen := congrArg List.length hall
          simp at hlen
        simp only [Works.modQueue, Function.update_of_ne huq]
        exact h.doomed u hold
      · intro u hu
        by_cases huq : u = q
        · simp only [Works.modQueue, huq, Function.update_self] at hu
          cases hu
        · simp only [Works.modQueue, Function.update_of_ne huq] at hu ⊢
          exact h.retired u hu
  | delBegin hl => exact h.same (hdoomed (by simp)) (fun _ => rfl) (fun _ => .inl) rfl rfl
  | delRefused hmem hpc =>
      refine h.same ?_ (fun _ => rfl) (fun _ => .inl) rfl rfl
      rintro u ⟨pc, hpc, hmem⟩
      exact ⟨pc, hpc, List.mem_of_mem_erase hmem⟩
  | @delIdle q hmem hlist hcurrent =>
      refine ⟨?_, h.retired⟩
      rintro u ⟨pc, hpc, hu⟩
      rcases List.mem_append.mp hu with hu | hu
      · exact h.doomed u ⟨pc, hpc, List.mem_of_mem_erase hu⟩
      · rw [List.mem_singleton, Prod.mk.injEq] at hu
        rw [hu.1]
        have hall : s.finished q = s.accepted q := idle_finished hinv h hlist hcurrent
        exact ⟨hlist, hall⟩
  | @delTask q hmem =>
      exact h.queue rfl rfl (fun _ => .inr ⟨_, by simp, hmem⟩) (hdoomed (by simp)) rfl rfl
  | delSem hmem => exact h.queue rfl rfl .inl (hdoomed (by simp)) rfl rfl
  | delDone hmem => exact h.queue rfl rfl .inl (hdoomed (by simp)) rfl rfl
  | @cbInserted w hcb hcurrent hexit =>
      -- The timer runs until its callback is through, so that the work is due.
      have hactive := (hcancels.callback w false hcb).1
      have hnot : ¬s.doomed (s.work w).cbArg :=
        fun hq => hsettled _ hq (s.armedJob w) (.inr ⟨hactive, rfl, rfl⟩)
      exact h.insert hinv.listed hexit hnot rfl rfl rfl rfl
  | @cbGave w x hcb hx =>
      rcases hx with ⟨-, rfl⟩ | ⟨-, rfl⟩
      · exact h.queue (q := (s.work w).cbArg) rfl rfl (by simp) (doomed_congr rfl) rfl rfl
      · exact h.queue (q := (s.work w).cbArg) rfl rfl .inl (doomed_congr rfl) rfl rfl

end DeleteSteps

/-! ## Whole runs -/

section CancelRuns

variable {s s' : Works W}

theorem step_cancelInv {a : WorkAct W} (h : CancelInv s) (hsafe : s.safe a)
    (hstep : s.step a = some s') : CancelInv s' :=
  have hwork := step_workStep hstep
  ⟨step_worksInv h.inv hstep, step_cancels h.inv.listed h.cancels hsafe hwork,
    step_deletes h.inv h.cancels h.deletes h.settled hsafe hwork, step_settled h.settled hsafe hwork,
    step_remembers h.remembers hwork⟩

omit [DecidableEq W] in
theorem start_cancelInv (dly : W → Nat) : CancelInv (Works.start dly) := by
  refine ⟨start_worksInv dly, ⟨?_, List.Pairwise.nil, ?_, ?_, ?_, ?_, ?_⟩, ⟨?_, ?_⟩, ?_, ?_, ?_, ?_⟩
  · intro j hj
    cases hj
  · intro w jobs hmem
    cases hmem
  · intro w b hcb
    cases hcb
  · rintro j (⟨q, hj⟩ | ⟨q, hj⟩ | hj | ⟨w, jobs, hmem, -⟩ | ⟨c, hc, -⟩)
    · cases hj
    · cases hj
    · cases hj
    · cases hmem
    · cases hc
  · intro c hc
    cases hc
  · refine fun w _ => ⟨rfl, fun q run hmem => ?_⟩
    cases hmem
  · rintro q ⟨pc, -, hmem⟩
    cases hmem
  · intro q hw
    cases hw
  · rintro q ⟨pc, -, hmem⟩
    cases hmem
  · intro q j hj
    cases hj
  · intro q j hj
    cases hj
  · intro w hcb
    cases hcb

/-- What a worker calls is alive. -/
theorem CancelInv.heedsCancel (h : CancelInv s) : s.heedsCancel := by
  intro q j s' hstep hcalled
  -- Only one part of the worker's loop calls a handler.
  have hsame : s'.called = s.called → False := by
    intro heq
    rw [heq] at hcalled
    have hlen := congrArg List.length hcalled
    simp at hlen
  cases worker_workStep hstep with
  | take hworker hx => exact absurd rfl hsame
  | remove hworker hlist => exact absurd rfl hsame
  | wild hworker hlist => exact absurd rfl hsame
  | finish hworker => exact absurd rfl hsame
  | @call q i hworker =>
      simp only [Function.update_self, List.append_cancel_left_eq, List.cons.injEq,
        and_true] at hcalled
      rw [← hcalled]
      exact fun hrevoked => h.cancels.dead i hrevoked (.inl ⟨q, .inr hworker⟩)

theorem CancelInv.deletesIdle (h : CancelInv s) : s.deletesIdle := by
  intro q s' hstep
  cases delNext_workStep hstep with
  | delRefused hmem hpc => exact absurd rfl hpc
  | delDone hmem =>
      have hq : s.doomed q := ⟨_, by simp, hmem⟩
      rcases h.deletes.doomed q hq with ⟨hlist, hall⟩
      refine ⟨?_, hall, h.settled q hq, fun j hj => ?_⟩
      · simp only [Works.modQueue, Function.update_self]
        exact hlist
      · rcases h.remembers.returned q j hj with hin | hdue | hdropped
        · exact .inl (hall ▸ hin)
        · exact absurd hdue (h.settled q hq j)
        · exact .inr hdropped

/-- A delayed work is cancelled in time, and its queue is deleted. -/
def cancelledInTime : List (WorkAct Unit) :=
  [.run 0 () true, .command, .cancel () true, .command, .del 0, .delNext 0 .look, .delNext 0 .task,
    .delNext 0 .sem]

theorem not_heedsCancel {s : Works W} {q : Nat} {j : Job W}
    (hworker : (s.queue q).worker = .took j) (hrevoked : j ∈ s.revoked) : ¬s.heedsCancel := by
  intro h
  have hstep : s.step (.worker q) = some { s.modQueue q fun x => { x with worker := .handle j } with
      called := Function.update s.called q (s.called q ++ [j]) } := by
    unfold Works.step Works.workerTask
    dsimp only
    rw [hworker]
    rfl
  exact h q j _ hstep (Function.update_self q _ s.called) hrevoked

theorem not_deletesIdle {s : Works W} {q : Nat} (hmem : (q, .unlist) ∈ s.deleting)
    (hleft : (s.queue q).workList ≠ [] ∨ ∃ j, s.due q j) : ¬s.deletesIdle := by
  intro h
  have hstep : s.step (.delNext q .unlist) = some { s.modQueue q fun x =>
      { x with listed := false } with deleting := s.deleting.erase (q, .unlist) } := by
    unfold Works.step
    dsimp only
    rw [if_pos hmem]
    rfl
  rcases h q _ hstep with ⟨hnil, -, hnone, -⟩
  rcases hleft with hlist | ⟨j, hdue⟩
  · simp only [Works.modQueue, Function.update_self] at hnil
    exact hlist hnil
  · exact hnone j hdue

/-- A delayed work has run once and is run again, so that `work->wq` is set. It is
    cancelled, and its timer runs out all the same. -/
def cancelIgnored : List (WorkAct Unit) :=
  [.run 0 () true, .command, .fire (), .timerCb, .timerCb, .worker 0, .worker 0, .worker 0,
    .worker 0, .run 0 () true, .command, .cancel () true, .cancelEnd ⟨(), 0, [⟨(), 0⟩, ⟨(), 1⟩]⟩,
    .fire (), .timerCb, .timerCb, .worker 0, .worker 0]

/-- A deletion finds the queue idle, and a work is put on it before the worker goes. -/
def deletedUnderway : List (WorkAct Unit) :=
  [.del 0, .delNext 0 .look, .run 0 () true, .give 0 ⟨(), 0⟩, .delNext 0 .task, .delNext 0 .sem]

/-- A deletion finds the queue idle while a work's timer runs for it. -/
def deletedDue : List (WorkAct Unit) :=
  [.run 0 () true, .command, .del 0, .delNext 0 .look, .delNext 0 .task, .delNext 0 .sem]

/-- The deletion is through, and then the timer runs out. -/
def listedLate : List (WorkAct Unit) :=
  deletedDue ++ [.delNext 0 .unlist, .fire (), .timerCb]

end CancelRuns

end Rhino

end Wujian100
