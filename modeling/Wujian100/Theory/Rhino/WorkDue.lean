import Wujian100.Theory.Rhino.Workqueue

/-!
# Delayed Works On Their Way

`krhino_work_run` returns `RHINO_SUCCESS` for a work with a delay as soon as its
command is sent to the timer task, and the work is listed when its timer runs out.
Nothing of the queue shows that until then.

## Main definitions

* `Works.due`: The call's work is yet to be put on the queue.
* `Works.accounted`: What became of a call that returned `RHINO_SUCCESS`.

## Theorems

* `step_due`: Only `krhino_work_run` makes a call due.
* `step_remembers`: No call is forgotten.
-/

namespace Wujian100

namespace Rhino

variable {W : Type}

/-- The timer of the call's work is about to be started for the queue, or runs for it. -/
def Works.due (s : Works W) (q : Nat) (j : Job W) : Prop :=
  .argChgAuto j.work q j.run ∈ s.timerQueue ∨
    ((s.work j.work).active = true ∧ (s.work j.work).cbArg = q ∧ s.armedJob j.work = j)

/-- The call's work has been put on the queue, or is yet to be, or the call came to
    nothing. -/
def Works.accounted (s : Works W) (q : Nat) (j : Job W) : Prop :=
  j ∈ s.accepted q ∨ s.due q j ∨ j ∈ s.dropped

/-- No call that returned `RHINO_SUCCESS` is forgotten. -/
structure Remembers (s : Works W) : Prop where
  returned : ∀ q j, (q, j) ∈ s.returned → s.accounted q j
  giving : ∀ q j, (q, j) ∈ s.giving → j ∈ s.accepted q
  callback : ∀ w, s.callback = some (w, true) → s.armedJob w ∈ s.accepted (s.work w).cbArg

/-! ## Timers -/

/-- What belongs to the timer in `kwork_t`. -/
def SameTimer (x y : Kwork) : Prop :=
  x.active = y.active ∧ x.cbArg = y.cbArg ∧ x.armed = y.armed

variable [DecidableEq W] {s s' : Works W} {a : WorkAct W}

/-- What a step does to the timers and to what is sent to them. A callback that has
    put its work on the queue has accounted for its call. -/
inductive TimerStep (s : Works W) (a : WorkAct W) (s' : Works W) : Prop where
  | still (htimer : s'.timerQueue = s.timerQueue) (hwork : ∀ w, SameTimer (s'.work w) (s.work w))
      (hcallback : ∀ w, s'.callback = some (w, true) →
        s.callback = some (w, true) ∨ s.armedJob w ∈ s'.accepted (s.work w).cbArg)
  | sent {c : WorkCmd W} (htimer : s'.timerQueue = s.timerQueue ++ [c]) (hwork : s'.work = s.work)
      (hcallback : s'.callback = s.callback)
      (hc : ∀ w q run, c = .argChgAuto w q run → a = .run q w true ∧ (s.work w).dly ≠ 0)
  | started {w : W} {q run : Nat} {rest : List (WorkCmd W)}
      (hqueue : s.timerQueue = .argChgAuto w q run :: rest) (htimer : s'.timerQueue = rest)
      (hwork : s'.work = Function.update s.work w
        { s.work w with active := true, cbArg := q, armed := run })
      (hdropped : s'.dropped = s.dropped ++ s.timed w) (hidle : s'.callback = none)
  | stopped {w : W} (htimer : s'.timerQueue ⊆ s.timerQueue)
      (hkept : ∀ v q run, .argChgAuto v q run ∈ s.timerQueue → .argChgAuto v q run ∈ s'.timerQueue)
      (hwork : s'.work = Function.update s.work w { s.work w with active := false })
      (hdone : (s.work w).active = true → s.armedJob w ∈ s'.dropped ∨ s.callback = some (w, true))
      (hidle : s'.callback = none)

theorem sameTimer_update {w : W} {x : Kwork} (hwork : s'.work = Function.update s.work w x)
    (hx : SameTimer x (s.work w)) (v : W) : SameTimer (s'.work v) (s.work v) :=
  ⟨work_field hwork Kwork.active hx.1 v, work_field hwork Kwork.cbArg hx.2.1 v,
    work_field hwork Kwork.armed hx.2.2 v⟩

omit [DecidableEq W] in
theorem mem_timed {w : W} (hactive : (s.work w).active = true) : s.armedJob w ∈ s.timed w := by
  rw [Works.timed, if_pos hactive]
  exact List.mem_singleton_self _

theorem step_timerStep (hstep : WorkStep s a s') : TimerStep s a s' := by
  -- Only the timer task, and what is sent to it, touch a timer.
  cases hstep with
  | @queued q w hdly =>
      refine .sent rfl rfl rfl ?_
      rintro v u run heq
      cases heq
      exact ⟨rfl, hdly⟩
  | cancelStop hwq hdly =>
      refine .sent rfl rfl rfl ?_
      rintro v u run heq
      cases heq
  | @inserted q w room hdly hcurrent hexit =>
      exact .still rfl (sameTimer_update (w := w)
        (x := { s.work w with wq := some q, workExit := true }) rfl ⟨rfl, rfl, rfl⟩) fun _ => .inl
  | @cancelDone c hmem hcurrent hexit =>
      exact .still rfl (sameTimer_update (w := c.work) (x := { s.work c.work with wq := none }) rfl
        ⟨rfl, rfl, rfl⟩) fun _ => .inl
  | @remove q j rest hworker hlist =>
      exact .still rfl (sameTimer_update (w := j.work)
        (x := { s.work j.work with workExit := false }) rfl ⟨rfl, rfl, rfl⟩) fun _ => .inl
  | @fired w hidle hactive =>
      refine .still rfl (fun _ => ⟨rfl, rfl, rfl⟩) fun v hv => ?_
      cases hv
  | @cbInserted w hcb hcurrent hexit =>
      refine .still rfl (sameTimer_update (w := w)
        (x := { s.work w with wq := some (s.work w).cbArg, workExit := true }) rfl
        ⟨rfl, rfl, rfl⟩) fun v hv => .inr ?_
      cases hv
      simp [Works.insert, Works.modWork]
  | started hidle hqueue => exact .started hqueue rfl rfl rfl hidle
  | @stopped w jobs rest hidle hqueue =>
      refine .stopped (w := w) ?_ ?_ rfl (fun hactive => .inl ?_) hidle
      · exact hqueue ▸ List.subset_cons_self _ _
      · intro v q run hmem
        rw [hqueue] at hmem
        rcases List.mem_cons.mp hmem with heq | hmem
        · cases heq
        · exact hmem
      · exact List.mem_append_right _ (mem_timed hactive)
  | cbRefused hcb =>
      exact .stopped (List.Subset.refl _) (fun _ _ _ => id) rfl
        (fun _ => .inl (List.mem_append_right _ (List.mem_singleton_self _))) rfl
  | cbGave hcb hx =>
      exact .stopped (List.Subset.refl _) (fun _ _ _ => id) rfl (fun _ => .inr hcb) rfl
  | cbGiveFailed hcb hfail =>
      exact .stopped (List.Subset.refl _) (fun _ _ _ => id) rfl (fun _ => .inr hcb) rfl
  | _ => exact .still rfl (fun _ => ⟨rfl, rfl, rfl⟩) fun _ => .inl

/-! ## What is due -/

omit [DecidableEq W] in
/-- Where no timer is started, nothing becomes due. -/
theorem due_mono (htimer : s'.timerQueue ⊆ s.timerQueue)
    (hwork : ∀ w, (s'.work w).active = true → SameTimer (s'.work w) (s.work w)) {q : Nat}
    {j : Job W} (h : s'.due q j) : s.due q j := by
  rcases h with hmem | ⟨hactive, hq, hj⟩
  · exact .inl (htimer hmem)
  · rcases hwork j.work hactive with ⟨hsame, harg, harmed⟩
    refine .inr ⟨hsame ▸ hactive, harg ▸ hq, ?_⟩
    unfold Works.armedJob at hj ⊢
    rw [← harmed]
    exact hj

/-- A timer that is started was about to be. -/
theorem started_due {w : W} {q run : Nat} {rest : List (WorkCmd W)}
    (hqueue : s.timerQueue = .argChgAuto w q run :: rest) (htimer : s'.timerQueue = rest)
    (hwork : s'.work = Function.update s.work w
      { s.work w with active := true, cbArg := q, armed := run }) {u : Nat} {j : Job W}
    (h : s'.due u j) : s.due u j := by
  rcases h with hmem | ⟨hactive, hu, hj⟩
  · rw [htimer] at hmem
    exact .inl (hqueue ▸ List.mem_cons_of_mem _ hmem)
  · unfold Works.armedJob at hj
    by_cases hw : j.work = w
    · rw [hwork, hw, Function.update_self] at hu hj
      left
      rw [hqueue, ← hj, ← hu]
      exact List.mem_cons_self
    · rw [hwork, Function.update_of_ne hw] at hactive hu hj
      exact .inr ⟨hactive, hu, hj⟩

/-- Only `krhino_work_run` of a delayed work makes a call due. -/
theorem step_due (hstep : WorkStep s a s') {u : Nat} {j : Job W} (h : s'.due u j) :
    s.due u j ∨ ∃ w, a = .run u w true ∧ (s.work w).dly ≠ 0 := by
  cases step_timerStep hstep with
  | still htimer hwork hcallback =>
      exact .inl (due_mono (htimer ▸ List.Subset.refl _) (fun w _ => hwork w) h)
  | sent htimer hwork hcallback hc =>
      rcases h with hmem | ⟨hactive, hu, hj⟩
      · rw [htimer] at hmem
        rcases List.mem_append.mp hmem with hmem | hmem
        · exact .inl (.inl hmem)
        · exact .inr ⟨_, hc _ _ _ (List.mem_singleton.mp hmem).symm⟩
      · unfold Works.armedJob at hj
        rw [hwork] at hactive hu hj
        exact .inl (.inr ⟨hactive, hu, hj⟩)
  | started hqueue htimer hwork hdropped hidle => exact .inl (started_due hqueue htimer hwork h)
  | @stopped w htimer hkept hwork hdone hidle =>
      refine .inl (due_mono htimer (fun v hv => ?_) h)
      rw [hwork] at hv ⊢
      by_cases hvw : v = w
      · rw [hvw, Function.update_self] at hv
        cases hv
      · rw [Function.update_of_ne hvw]
        exact ⟨rfl, rfl, rfl⟩

/-! ## What becomes of it -/

theorem insert_accepted (s : Works W) (q : Nat) (j : Job W) :
    (s.insert q j).accepted = Function.update s.accepted q (s.accepted q ++ [j]) := rfl

theorem step_grows (hstep : WorkStep s a s') :
    (∀ q j, j ∈ s.accepted q → j ∈ s'.accepted q) ∧ ∀ j ∈ s.dropped, j ∈ s'.dropped := by
  have hinsert : ∀ q i u j, j ∈ s.accepted u → j ∈ (s.insert q i).accepted u := by
    intro q i u j hj
    rw [insert_accepted]
    by_cases hu : u = q
    · rw [hu, Function.update_self]
      exact List.mem_append_left _ (hu ▸ hj)
    · rw [Function.update_of_ne hu]
      exact hj
  cases hstep with
  | inserted hdly hcurrent hexit => exact ⟨hinsert _ _, fun _ => id⟩
  | cbInserted hcb hcurrent hexit => exact ⟨hinsert _ _, fun _ => id⟩
  | started hidle hqueue => exact ⟨fun _ _ => id, fun _ => List.mem_append_left _⟩
  | stopped hidle hqueue => exact ⟨fun _ _ => id, fun _ => List.mem_append_left _⟩
  | cbRefused hcb => exact ⟨fun _ _ => id, fun _ => List.mem_append_left _⟩
  | _ => exact ⟨fun _ _ => id, fun _ => id⟩

/-- A call returns once its work is listed or due. -/
theorem step_calls (hstep : WorkStep s a s') :
    (∀ q j, (q, j) ∈ s'.returned → (q, j) ∈ s.returned ∨ (q, j) ∈ s.giving ∨ s'.due q j) ∧
      ∀ q j, (q, j) ∈ s'.giving → (q, j) ∈ s.giving ∨ j ∈ s'.accepted q := by
  cases hstep with
  | @queued q w hdly =>
      refine ⟨fun u j hj => ?_, fun _ _ => .inl⟩
      rcases List.mem_append.mp hj with hj | hj
      · exact .inl hj
      · cases List.mem_singleton.mp hj
        exact .inr (.inr (.inl (List.mem_append_right _ (List.mem_singleton_self _))))
  | @inserted q w room hdly hcurrent hexit =>
      refine ⟨fun _ _ => .inl, fun u j hj => ?_⟩
      rcases List.mem_append.mp hj with hj | hj
      · exact .inl hj
      · cases List.mem_singleton.mp hj
        exact .inr (by simp [Works.insert])
  | @gave q j x hmem hx =>
      refine ⟨fun u i hi => ?_, fun _ _ hi => .inl (List.mem_of_mem_erase hi)⟩
      rcases List.mem_append.mp hi with hi | hi
      · exact .inl hi
      · cases List.mem_singleton.mp hi
        exact .inr (.inl hmem)
  | giveFailed hmem hfail => exact ⟨fun _ _ => .inl, fun _ _ hi => .inl (List.mem_of_mem_erase hi)⟩
  | _ => exact ⟨fun _ _ => .inl, fun _ _ => .inl⟩

/-- What is due stays so until the work is listed or the call comes to nothing. -/
theorem due_accounted (h : Remembers s) (hstep : WorkStep s a s') {q : Nat} {j : Job W}
    (hdue : s.due q j) : s'.accounted q j := by
  have hgrows := step_grows hstep
  cases step_timerStep hstep with
  | still htimer hwork hcallback =>
      refine .inr (.inl (due_mono (htimer ▸ List.Subset.refl _) (fun w _ => ?_) hdue))
      rcases hwork w with ⟨hactive, harg, harmed⟩
      exact ⟨hactive.symm, harg.symm, harmed.symm⟩
  | sent htimer hwork hcallback hc =>
      refine .inr (.inl (due_mono ?_ (fun w _ => ?_) hdue))
      · exact htimer ▸ List.subset_append_left _ _
      · rw [hwork]
        exact ⟨rfl, rfl, rfl⟩
  | @started w u run rest hqueue htimer hwork hdropped hidle =>
      rcases hdue with hmem | ⟨hactive, hq, hj⟩
      · rw [hqueue] at hmem
        rcases List.mem_cons.mp hmem with heq | hmem
        · injection heq with hw hu hrun
          refine .inr (.inl (.inr ?_))
          rw [Works.armedJob, hwork, hw, Function.update_self]
          exact ⟨rfl, hu.symm, by rw [← hw, ← hrun]⟩
        · exact .inr (.inl (.inl (htimer ▸ hmem)))
      -- The job of the timer that starts again is dropped; any other stays.
      · by_cases hw : j.work = w
        · rw [hw] at hactive hj
          refine .inr (.inr ?_)
          rw [hdropped, ← hj]
          exact List.mem_append_right _ (mem_timed hactive)
        · refine .inr (.inl (.inr ?_))
          rw [Works.armedJob, hwork, Function.update_of_ne hw]
          exact ⟨hactive, hq, hj⟩
  | @stopped w htimer hkept hwork hdone hidle =>
      rcases hdue with hmem | ⟨hactive, hq, hj⟩
      · exact .inr (.inl (.inl (hkept _ _ _ hmem)))
      · by_cases hw : j.work = w
        · rw [hw] at hactive hq hj
          rcases hdone hactive with hdropped | hcb
          · exact .inr (.inr (hj ▸ hdropped))
          · -- The callback has put it on the queue.
            have hin := h.callback w hcb
            rw [hj, hq] at hin
            exact .inl (hgrows.1 q j hin)
        · refine .inr (.inl (.inr ?_))
          rw [Works.armedJob, hwork, Function.update_of_ne hw]
          exact ⟨hactive, hq, hj⟩

theorem step_remembers (h : Remembers s) (hstep : WorkStep s a s') : Remembers s' := by
  have hgrows := step_grows hstep
  have hcalls := step_calls hstep
  refine ⟨?_, ?_, ?_⟩
  · intro q j hj
    rcases hcalls.1 q j hj with hold | hgiving | hdue
    · rcases h.returned q j hold with hin | hdue | hdropped
      · exact .inl (hgrows.1 q j hin)
      · exact due_accounted h hstep hdue
      · exact .inr (.inr (hgrows.2 j hdropped))
    · exact .inl (hgrows.1 q j (h.giving q j hgiving))
    · exact .inr (.inl hdue)
  · intro q j hj
    rcases hcalls.2 q j hj with hold | hin
    · exact hgrows.1 q j (h.giving q j hold)
    · exact hin
  · intro w hw
    cases step_timerStep hstep with
    | still htimer hwork hcallback =>
        rcases hwork w with ⟨-, harg, harmed⟩
        rw [Works.armedJob, harg, harmed]
        rcases hcallback w hw with hold | hin
        · exact hgrows.1 _ _ (h.callback w hold)
        · exact hin
    | sent htimer hwork hcallback hc =>
        rw [hcallback] at hw
        rw [Works.armedJob, hwork]
        exact hgrows.1 _ _ (h.callback w hw)
    | started hqueue htimer hwork hdropped hidle =>
        rw [hidle] at hw
        cases hw
    | stopped htimer hkept hwork hdone hidle =>
        rw [hidle] at hw
        cases hw

end Rhino

end Wujian100
