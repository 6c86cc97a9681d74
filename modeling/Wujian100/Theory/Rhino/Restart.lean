import Wujian100.Theory.Rhino.CsiTimer

/-!
# Starting a Timer Again

`csi_kernel_timer_start` is to start or restart a timer. It sends a change and a start,
and `cmd_proc` drops the change, without a word, where the timer is active when the change
arrives, and the start where the timer is active when the start arrives. Nothing stops the
timer first.

For a timer that is not active when the change arrives, and that nobody else sends
commands to until the start has been sent, the start does what it should: the timer is due
so many ticks after the start arrived, and, if it is periodic, again so many ticks after
each time it was due.

## Main definitions

* `CsiTimers.Served`: No command for a timer is on the queue.
* `Unissued`: A step sends no command for a timer.
* `Stopped`: The timer is not active when its last change arrives.
* `Restarts`: What a restart promises of each later step.
* `Restarting`: How far the restart has got.

## Theorems

* `step_restarting`: A restart goes on.
* `restarts_of_restarting`: What it promises.
* `timer_start_restarts`: The start restarts a timer that is not active.
* `timer_start_dropped`: It does not restart one that is.
-/

namespace Wujian100

namespace Rhino

variable {T C : Type}

/-- No command for the timer is on the queue. -/
def CsiTimers.Served (s : CsiTimers T C) (t : T) : Prop :=
  ∀ cmd ∈ s.queue, cmd.target ≠ t

/-- The step sends no command for the timer. -/
def Unissued (t : T) (s : CsiTimers T C) (a : CsiAct T C) : Prop :=
  ∀ cmd, s.issues a = some cmd → cmd.target ≠ t

/-- When the last change for the timer arrives, the timer exists and is not active. -/
def Stopped (t : T) (s : CsiTimers T C) (a : CsiAct T C) : Prop :=
  ∀ tick first round rest, a = .recv tick → s.queue = .chg t first round :: rest →
    (∀ cmd ∈ rest, cmd.target = t → cmd = .start t) →
      (s.task.timer t).isTimer = true ∧ (s.task.timer t).active = false

section Restart

variable [DecidableEq T] [DecidableEq C]

/-- The step that serves the last command of the timer leaves it due in `ticks`. After
    that the timer is as it is until it is due, and then, if it is periodic, due again in
    `ticks`. -/
def Restarts (t : T) (ticks : Nat) (s : CsiTimers T C) (a : CsiAct T C) : Prop :=
  ∀ s', s.step a = some s' →
    (¬s.Served t → s'.Served t → (s'.task.timer t).active = true ∧
      (s'.task.timer t).match_ = (s'.task.count + ticks) % 2 ^ 64) ∧
    (s.Served t → s.Expires a t → s.kind t = some .periodic → (s'.task.timer t).active = true ∧
      (s'.task.timer t).match_ = (s'.task.count + ticks) % 2 ^ 64) ∧
    (s.Served t → ¬s.Expires a t → s'.task.timer t = s.task.timer t)

/-- The commands for a timer, in order. -/
def CsiTimers.commands (s : CsiTimers T C) (t : T) : List (TimerCmd T) :=
  s.queue.filter fun cmd => cmd.target = t

/-- How far the restart has got: its change is on the queue; or the timer has taken the
    change over and waits for the start; or the timer runs. `rest` is what has been sent
    after the change. -/
inductive Restarting (t : T) (ticks round : Nat) (rest : List (TimerCmd T))
    (s : CsiTimers T C) : Prop where
  | queued (q : List (TimerCmd T)) (hq : s.commands t = q ++ .chg t ticks round :: rest)
  | changed (hq : s.commands t = rest) (htimer : (s.task.timer t).isTimer = true)
      (hactive : (s.task.timer t).active = false) (hinit : (s.task.timer t).initCount = ticks)
      (hround : (s.task.timer t).roundTicks = round)
  | running (hrest : rest ≠ []) (hq : s.commands t = [])
      (hround : (s.task.timer t).roundTicks = round)
      (hactive : round ≠ 0 → (s.task.timer t).active = true)

end Restart

/-! ## How a restart goes on -/

section Steps

variable [DecidableEq T] [DecidableEq C] {s s' : CsiTimers T C} {a : CsiAct T C} {t : T}
  {k : KtimerType} {ticks : Nat} {rest : List (TimerCmd T)}

omit [DecidableEq C] in
theorem served_iff_nil : s.Served t ↔ s.commands t = [] := by
  unfold CsiTimers.Served CsiTimers.commands
  rw [List.filter_eq_nil_iff]
  simp

omit [DecidableEq C] in
theorem mem_commands {cmd : TimerCmd T} : cmd ∈ s.commands t ↔ cmd ∈ s.queue ∧ cmd.target = t := by
  unfold CsiTimers.commands
  rw [List.mem_filter, decide_eq_true_iff]

omit [DecidableEq C] in
theorem commands_pop {cmd : TimerCmd T} (h : s.queue = cmd :: s'.queue) (ht : cmd.target = t) :
    s.commands t = cmd :: s'.commands t := by
  unfold CsiTimers.commands
  rw [h, List.filter_cons_of_pos (by simp [ht])]

/-- A step at which nothing is sent to the timer: a command of its own arrives, or it is
    due, or nothing happens to it. -/
theorem step_commands (h : CsiInv s) (hs : CsiStep s a s') (hkind : s.kind t ≠ none)
    (hun : Unissued t s a) :
    (∃ tick cmd, a = .recv tick ∧ s.queue = cmd :: s'.queue ∧ s.commands t = cmd :: s'.commands t ∧
        s'.task.timer t = (s.task.timer t).cmd tick cmd ∧ s'.task.count = tick) ∨
      s'.commands t = s.commands t ∧
        (s.Expires a t ∧ s'.task.timer t = (s.task.timer t).expire s.task.count ∧
            s'.task.count = s.task.count ∨
          ¬s.Expires a t ∧ s'.task.timer t = s.task.timer t) := by
  rcases step_fate h hs (hs.not_new hkind) with
    ⟨tick, cmd, ha, hqueue, hcmd, htimer, hcount⟩ | ⟨hexp, htimer, hcount, hqueue⟩ |
      ⟨hexp, htimer, ⟨tick, cmd, ha, hqueue, hcmd⟩ | hqueue⟩
  · exact .inl ⟨tick, cmd, ha, hqueue, commands_pop hqueue hcmd, htimer, hcount⟩
  · refine .inr ⟨?_, .inl ⟨hexp, htimer, hcount⟩⟩
    unfold CsiTimers.commands
    rw [hqueue]
  · refine .inr ⟨?_, .inr ⟨hexp, htimer⟩⟩
    unfold CsiTimers.commands
    rw [hqueue, List.filter_cons_of_neg (by simp [hcmd])]
  · refine .inr ⟨?_, .inr ⟨hexp, htimer⟩⟩
    unfold CsiTimers.commands
    rw [hqueue, List.filter_append]
    have hnil : (s.issues a).toList.filter (fun cmd => cmd.target = t) = [] := by
      rw [List.filter_eq_nil_iff]
      intro cmd hmem
      simp [hun cmd (Option.mem_toList.mp hmem)]
    rw [hnil, List.append_nil]

omit [DecidableEq T] [DecidableEq C] in
/-- A timer that is not active is not where the walk is. -/
theorem not_expires_of_inactive (h : CsiInv s) (hactive : (s.task.timer t).active = false) :
    ¬s.Expires a t := by
  intro hexp
  exact h.threads.not_mem hactive (h.threads.walk t hexp.2.1)

omit [DecidableEq T] in
theorem Ktimer.cmd_chg {x : Ktimer} {count round : Nat} (hticks : ticks ≠ 0)
    (htimer : x.isTimer = true) (hactive : x.active = false) :
    x.cmd count (.chg t ticks round) = { x with initCount := ticks, roundTicks := round } := by
  unfold Ktimer.cmd
  dsimp only
  rw [if_neg hticks, if_neg (by simp [htimer]), if_neg (by simp [hactive])]

omit [DecidableEq T] in
theorem Ktimer.cmd_start {x : Ktimer} {count : Nat} (htimer : x.isTimer = true)
    (hactive : x.active = false) :
    x.cmd count (.start t) = { x.put count x.initCount with active := true } := by
  unfold Ktimer.cmd
  dsimp only
  rw [if_neg (by simp [htimer]), if_neg (by simp [hactive])]

/-- A restart goes on. -/
theorem step_restarting (h : CsiInv s) (hs : CsiStep s a s') (hkind : s.kind t = some k)
    (hticks : ticks ≠ 0) (hrest : rest = [] ∨ rest = [.start t]) (hun : Unissued t s a)
    (hstop : Stopped t s a) (hr : Restarting t ticks (k.round ticks) rest s) :
    Restarting t ticks (k.round ticks) rest s' := by
  have hstep := step_commands h hs (by rw [hkind]; simp) hun
  cases hr with
  | queued q hq =>
      rcases hstep with ⟨tick, cmd, ha, hqueue, hpop, htimer, -⟩ | ⟨hsame, -⟩
      · cases q with
        | nil =>
            -- The change arrives.
            rw [hq, List.nil_append, List.cons.injEq] at hpop
            rcases hpop with ⟨hcmd, hpop⟩
            have hidle := hstop tick ticks (k.round ticks) s'.queue ha (by rw [hqueue, hcmd]) <| by
              intro d hd ht
              have hmem : d ∈ rest := by
                rw [hpop]
                exact mem_commands.mpr ⟨hd, ht⟩
              rcases hrest with rfl | rfl
              · cases hmem
              · exact List.mem_singleton.mp hmem
            rw [← hcmd, Ktimer.cmd_chg hticks hidle.1 hidle.2] at htimer
            refine .changed hpop.symm ?_ ?_ ?_ ?_
            · rw [htimer]
              exact hidle.1
            · rw [htimer]
              exact hidle.2
            · rw [htimer]
            · rw [htimer]
        | cons d q =>
            rw [hq, List.cons_append, List.cons.injEq] at hpop
            exact .queued q hpop.2.symm
      · exact .queued q (hsame.trans hq)
  | changed hq htimer hactive hinit hround =>
      rcases hstep with ⟨tick, cmd, -, -, hpop, htimer', -⟩ | ⟨hsame, ⟨hexp, -⟩ | ⟨-, htimer'⟩⟩
      · -- What arrives is the start, and nothing follows it.
        rw [hq] at hpop
        rcases hrest with rfl | rfl
        · cases hpop
        · rw [List.cons.injEq] at hpop
          rw [← hpop.1, Ktimer.cmd_start htimer hactive] at htimer'
          refine .running (by simp) hpop.2.symm ?_ ?_
          · rw [htimer']
            exact hround
          · intro _
            rw [htimer']
      · exact absurd hexp (not_expires_of_inactive h hactive)
      · refine .changed (hsame.trans hq) ?_ ?_ ?_ ?_
        · rw [htimer', htimer]
        · rw [htimer', hactive]
        · rw [htimer', hinit]
        · rw [htimer', hround]
  | running hne hq hround hactive =>
      rcases hstep with ⟨tick, cmd, -, -, hpop, -⟩ | ⟨hsame, ⟨-, htimer', -⟩ | ⟨-, htimer'⟩⟩
      · rw [hq] at hpop
        cases hpop
      · refine .running hne (hsame.trans hq) ?_ ?_
        · rw [htimer', (Ktimer.expire_keeps _ _).1, hround]
        · intro hpos
          rw [htimer']
          unfold Ktimer.expire
          rw [if_pos (by rw [hround]; exact Nat.pos_of_ne_zero hpos)]
          exact hactive hpos
      · refine .running hne (hsame.trans hq) ?_ ?_
        · rw [htimer', hround]
        · rw [htimer']
          exact hactive

/-- What a restart promises, once its start has been sent. -/
theorem restarts_of_restarting (h : CsiInv s) (hkind : s.kind t = some k) (hticks : ticks ≠ 0)
    (hun : Unissued t s a) (hr : Restarting t ticks (k.round ticks) [.start t] s) :
    Restarts t ticks s a := by
  intro s' hs
  have hstep := step_commands h (step_csiStep h hs) (by rw [hkind]; simp) hun
  -- Where no command is left, the timer runs already.
  have hruns : s.Served t → (s.task.timer t).roundTicks = k.round ticks ∧
      (k.round ticks ≠ 0 → (s.task.timer t).active = true) := by
    intro hserved
    rw [served_iff_nil] at hserved
    cases hr with
    | queued q hq => simp [hserved] at hq
    | changed hq htimer hactive hinit hround => simp [hserved] at hq
    | running hne hq hround hactive => exact ⟨hround, hactive⟩
  refine ⟨?_, ?_, ?_⟩
  · intro hnot hserved
    rw [served_iff_nil] at hnot hserved
    rcases hstep with ⟨tick, cmd, -, -, hpop, htimer', hcount⟩ | ⟨hsame, -⟩
    · rw [hserved] at hpop
      cases hr with
      | queued q hq =>
          rw [hpop] at hq
          have hlen := congrArg List.length hq
          simp at hlen
      | changed hq htimer hactive hinit hround =>
          rw [hq, List.cons.injEq] at hpop
          rw [← hpop.1, Ktimer.cmd_start htimer hactive, hinit] at htimer'
          rw [htimer', hcount]
          exact ⟨rfl, rfl⟩
      | running hne hq hround hactive => exact absurd hq hnot
    · exact absurd (hsame.symm.trans hserved) hnot
  · intro hserved hexp hperiodic
    rcases hruns hserved with ⟨hround, hactive⟩
    have hk : k = .periodic := Option.some.inj (hkind.symm.trans hperiodic)
    rw [hk] at hround hactive
    change (s.task.timer t).roundTicks = ticks at hround
    rcases hstep with ⟨tick, cmd, ha, -⟩ | ⟨-, ⟨-, htimer', hcount⟩ | ⟨hexp', -⟩⟩
    · rw [ha] at hexp
      cases hexp.1
    · unfold Ktimer.expire at htimer'
      rw [hround, if_pos (Nat.pos_of_ne_zero hticks)] at htimer'
      rw [htimer', hcount]
      exact ⟨hactive hticks, rfl⟩
    · exact absurd hexp hexp'
  · intro hserved hexp
    rw [served_iff_nil] at hserved
    rcases hstep with ⟨tick, cmd, -, -, hpop, -⟩ | ⟨-, ⟨hexp', -⟩ | ⟨-, htimer'⟩⟩
    · rw [hserved] at hpop
      cases hpop
    · exact absurd hexp' hexp
    · exact htimer'

end Steps

/-! ## Whole runs -/

section Runs

variable [DecidableEq T] [DecidableEq C] {s s' : CsiTimers T C} {a : CsiAct T C} {c : C} {t : T}
  {ticks round : Nat}

/-- What carries over from one step of a restart to the next. -/
structure RestartInv (t : T) (ticks round : Nat) (rest : List (TimerCmd T))
    (s : CsiTimers T C) : Prop extends CsiInv s where
  kind : ∃ k, s.kind t = some k ∧ round = k.round ticks
  stage : Restarting t ticks round rest s

theorem step_restartInv {rest : List (TimerCmd T)} (hticks : ticks ≠ 0)
    (hrest : rest = [] ∨ rest = [.start t]) (h : RestartInv t ticks round rest s)
    (hP : Unissued t s a ∧ Stopped t s a) (hs : s.step a = some s') :
    RestartInv t ticks round rest s' := by
  rcases h.kind with ⟨k, hk, rfl⟩
  have hstep := step_csiStep h.toCsiInv hs
  exact ⟨hstep.inv h.toCsiInv, ⟨k, hstep.kind_mono hk, rfl⟩,
    step_restarting h.toCsiInv hstep hk hticks hrest hP.1 hP.2 h.stage⟩

omit [DecidableEq T] in
/-- A command that is sent is the last on the queue. -/
theorem sendBy_sent {cmd : TimerCmd T} {x : CsiCaller T} (hx : ∀ ret, x = .out ret → ret = .ok)
    (h : (s.sendBy c cmd x).caller c = x) :
    (s.sendBy c cmd x).queue = s.queue ++ [cmd] := by
  unfold CsiTimers.sendBy at h ⊢
  cases hsend : s.send cmd with
  | none =>
      rw [hsend] at h
      unfold CsiTimers.goes at h
      dsimp only at h
      rw [Function.update_self] at h
      cases hx .eperm h.symm
  | some s₁ =>
      unfold CsiTimers.send at hsend
      split_ifs at hsend
      injection hsend with hsend
      rw [← hsend]
      rfl

/-- A task is in `csi_kernel_timer_start`, at any point of any run, and has read the
    period. It sends its change and its start, and returns 0. Where nobody else sends
    commands to the timer after the change, and the timer is not active when the change
    arrives, the timer is due in `ticks` once both are served, and a periodic one is due
    again in `ticks` each time. -/
theorem timer_start_restarts {tick : Nat} {as mid post : List (CsiAct T C)}
    {s₁ s₂ s₃ : CsiTimers T C}
    (hrun : Run.run CsiTimers.step (CsiTimers.init tick) as = some s)
    (hcall : s.caller c = .change t ticks round)
    (hchange : s.step (.change c) = some s₁) (hsent : s₁.caller c = .start t ticks round)
    (hmid : Run.run CsiTimers.step s₁ mid = some s₂) (hcall₂ : s₂.caller c = .start t ticks round)
    (hgo : s₂.step (.go c) = some s₃) (hret : s₃.caller c = .out .ok)
    (halone : Run.Along CsiTimers.step (Unissued t) s₁ mid)
    (hstopped : Run.Along CsiTimers.step (Stopped t) s₁ mid)
    (hafter : Run.Along CsiTimers.step (Unissued t) s₃ post)
    (hstopped' : Run.Along CsiTimers.step (Stopped t) s₃ post) :
    Run.Along CsiTimers.step (Restarts t ticks) s₃ post := by
  have hinv := run_csiInv hrun
  have hfits := hinv.caller c
  rw [hcall] at hfits
  rcases hfits with ⟨hticks, k, hk, hround⟩
  -- The change is sent.
  have hinv₁ : RestartInv t ticks round [] s₁ := by
    refine ⟨step_csiInv hinv hchange, ⟨k, ?_, hround⟩, .queued (s.commands t) ?_⟩
    · exact (step_csiStep hinv hchange).kind_mono hk
    · unfold CsiTimers.step at hchange
      dsimp only at hchange
      rw [hcall] at hchange
      injection hchange with hchange
      rw [← hchange] at hsent ⊢
      have hqueue := sendBy_sent (by simp) hsent
      unfold CsiTimers.commands
      rw [hqueue, List.filter_append]
      simp [TimerCmd.target]
  have hinv₂ : RestartInv t ticks round [] s₂ :=
    Run.run_inv (fun _ _ _ h hP hs => step_restartInv hticks (.inl rfl) h hP hs) mid s₁ s₂ hinv₁
      (halone.and hstopped) hmid
  -- The start is sent.
  have hinv₃ : RestartInv t ticks round [.start t] s₃ := by
    rcases hinv₂.kind with ⟨k', hk', hround'⟩
    refine ⟨step_csiInv hinv₂.toCsiInv hgo,
      ⟨k', (step_csiStep hinv₂.toCsiInv hgo).kind_mono hk', hround'⟩, ?_⟩
    unfold CsiTimers.step at hgo
    dsimp only at hgo
    rw [hcall₂] at hgo
    injection hgo with hgo
    have hqueue : s₃.queue = s₂.queue ++ [.start t] := by
      rw [← hgo] at hret ⊢
      exact sendBy_sent (by simp) hret
    have htask : s₃.task = s₂.task := by
      rw [← hgo]
      unfold CsiTimers.sendBy CsiTimers.send
      split_ifs
      · rfl
      · rfl
    have hcommands : s₃.commands t = s₂.commands t ++ [.start t] := by
      unfold CsiTimers.commands
      rw [hqueue, List.filter_append]
      simp [TimerCmd.target]
    cases hinv₂.stage with
    | queued q hq =>
        refine .queued q ?_
        rw [hcommands, hq, List.append_assoc]
        rfl
    | changed hq htimer hactive hinit hround =>
        rw [hq, List.nil_append] at hcommands
        refine .changed hcommands ?_ ?_ ?_ ?_
        · rw [htask, htimer]
        · rw [htask, hactive]
        · rw [htask, hinit]
        · rw [htask, hround]
    | running hne hq hround hactive => exact absurd rfl hne
  refine Run.along_of_inv (fun _ _ _ h hP hs => step_restartInv hticks (.inr rfl) h hP hs) ?_ post s₃
    hinv₃ (hafter.and hstopped')
  intro s a h hP
  rcases h.kind with ⟨k', hk', hround'⟩
  rw [hround'] at h
  exact restarts_of_restarting h.toCsiInv hk' hticks hP.1 h.stage

omit [DecidableEq T] [DecidableEq C] in
/-- The timer task sends nothing. -/
theorem unissued_of_asks (h : s.asks a = none) : Unissued t s a := by
  intro cmd hcmd
  unfold CsiTimers.issues at hcmd
  rw [h] at hcmd
  cases hcmd

end Runs

/-- A periodic timer that is started with 5 ticks, up to the change. -/
def firstStart : List (CsiAct Unit Unit) := [.new () .periodic 7, .start () () 5]

/-- The change arrives before the start is sent, at tick 3. The start arrives at tick 4,
    the timer is due at tick 9, and again in 5 ticks. -/
theorem timer_start_restarts_first :
    ∃ s₃, Run.run CsiTimers.step (CsiTimers.init 0)
        (firstStart ++ .change () :: ([.recv 3, .look 3] ++ [.go ()])) = some s₃ ∧
      Run.Along CsiTimers.step (Restarts () 5) s₃ [.recv 4, .look 4, .timeout 9, .turn] := by
  have hrun : (Run.run CsiTimers.step (CsiTimers.init 0) firstStart).bind (fun s =>
      (s.step (.change ())).bind fun s₁ =>
        (Run.run CsiTimers.step s₁ [.recv 3, .look 3]).bind fun s₂ =>
          (s₂.step (.go ())).map fun s₃ =>
            (s.caller (), s₁.caller (), s₂.caller (), s₃.caller (),
              (s₁.task.timer ()).isTimer, (s₁.task.timer ()).active, s₃.queue))
      = some (.change () 5 5, .start () 5 5, .start () 5 5, .out .ok, true, false, [.start ()]) :=
    rfl
  rcases Option.bind_eq_some_iff.mp hrun with ⟨s, hs, hrun⟩
  rcases Option.bind_eq_some_iff.mp hrun with ⟨s₁, hs₁, hrun⟩
  rcases Option.bind_eq_some_iff.mp hrun with ⟨s₂, hs₂, hrun⟩
  rcases Option.map_eq_some_iff.mp hrun with ⟨s₃, hs₃, hval⟩
  simp only [Prod.mk.injEq] at hval
  rcases hval with ⟨hcall, hsent, hcall₂, hret, htimer, hactive, hqueue⟩
  refine ⟨s₃, ?_, timer_start_restarts hs hcall hs₁ hsent hs₂ hcall₂ hs₃ hret ?_ ?_ ?_ ?_⟩
  · rw [Run.run_append hs, Run.run_cons hs₁, Run.run_append hs₂, Run.run_cons hs₃]
    rfl
  · exact ⟨unissued_of_asks rfl, fun _ _ => ⟨unissued_of_asks rfl, fun _ _ => trivial⟩⟩
  · refine ⟨fun _ _ _ _ _ _ _ => ⟨htimer, hactive⟩, fun _ _ => ⟨?_, fun _ _ => trivial⟩⟩
    intro tick first round rest ha
    cases ha
  · exact ⟨unissued_of_asks rfl, fun _ _ => ⟨unissued_of_asks rfl, fun _ _ =>
      ⟨unissued_of_asks rfl, fun _ _ => ⟨unissued_of_asks rfl, fun _ _ => trivial⟩⟩⟩⟩
  · refine ⟨?_, fun _ _ => ⟨?_, fun _ _ => ⟨?_, fun _ _ => ⟨?_, fun _ _ => trivial⟩⟩⟩⟩
    · intro tick first round rest _ hchg
      rw [hqueue] at hchg
      cases hchg
    · intro tick first round rest ha
      cases ha
    · intro tick first round rest ha
      cases ha
    · intro tick first round rest ha
      cases ha

/-- The timer runs with 5 ticks, due at tick 9, and is started with 100 ticks. Both
    commands arrive at tick 6, up to the last one. -/
def secondStart : List (CsiAct Unit Unit) :=
  firstStart ++ [.change (), .go (), .recv 3, .look 3, .recv 4, .look 4, .start () () 100,
    .change (), .go (), .recv 6, .turn, .look 6]

/-- The call has returned 0, and once the last command has arrived the timer is still due
    at tick 9, and every 5 ticks. -/
theorem timer_start_dropped :
    ∃ s₃ s₄, Run.run CsiTimers.step (CsiTimers.init 0) secondStart = some s₃ ∧
      s₃.caller () = .out .ok ∧ s₃.commands () = [.start ()] ∧ s₃.step (.recv 6) = some s₄ ∧
      s₄.commands () = [] ∧ s₄.task.count = 6 ∧ (s₄.task.timer ()).match_ = 9 ∧
      (s₄.task.timer ()).roundTicks = 5 ∧ ¬Restarts () 100 s₃ (.recv 6) := by
  have hrun : (Run.run CsiTimers.step (CsiTimers.init 0) secondStart).bind (fun s₃ =>
      (s₃.step (.recv 6)).map fun s₄ => (s₃.caller (), s₃.commands (), s₄.commands (),
        s₄.task.count, (s₄.task.timer ()).match_, (s₄.task.timer ()).roundTicks))
      = some (.out .ok, [.start ()], [], 6, 9, 5) := rfl
  rcases Option.bind_eq_some_iff.mp hrun with ⟨s₃, hs₃, hrun⟩
  rcases Option.map_eq_some_iff.mp hrun with ⟨s₄, hs₄, hval⟩
  simp only [Prod.mk.injEq] at hval
  rcases hval with ⟨hcaller, hlast, hnone, hcount, hmatch, hround⟩
  refine ⟨s₃, s₄, hs₃, hcaller, hlast, hs₄, hnone, hcount, hmatch, hround, fun h => ?_⟩
  have hdue := ((h s₄ hs₄).1 (by rw [served_iff_nil, hlast]; simp) (served_iff_nil.mpr hnone)).2
  rw [hmatch, hcount] at hdue
  exact absurd hdue (by decide)

end Rhino

end Wujian100
