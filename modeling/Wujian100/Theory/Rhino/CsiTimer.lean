import Wujian100.Library.Run
import Wujian100.Theory.Rhino.TimerLife

/-!
# What Holds of CSI Timers

A timer that is created once or periodic stays so: its period is read by one task while
another changes it, but no change that is sent makes zero of something else, or something
else of zero. So commands in the queue, and calls that are under way, all go by the type
the timer was created with.

## Main definitions

* `TimerCmd.Fits`, `CsiCaller.Fits`: Commands and calls go by the types of their timers.
* `CsiInv`: That, and what holds of the timer task.
* `CsiTimers.issues`: The command that a step puts on the queue.
* `CsiTimers.Expires`: A step is the turn of the walk at a timer that is due.

## Theorems

* `step_csiStep`: What a step comes to.
* `step_fate`: What a step does to one timer.
* `step_csiInv`, `run_csiInv`: The invariant holds in every run.
-/

namespace Wujian100

namespace Rhino

variable {T C : Type}

/-! ## The invariant -/

/-- The period that a start with so many ticks asks for. -/
def KtimerType.round (k : KtimerType) (ticks : Nat) : Nat :=
  match k with
  | .once => 0
  | .periodic => ticks

/-- A command that the calls send, for a timer that was created. -/
def TimerCmd.Fits (kind : T → Option KtimerType) : TimerCmd T → Prop
  | .start t => kind t ≠ none
  | .stop t => kind t ≠ none
  | .dynDel t => kind t ≠ none
  | .chg t first round => first ≠ 0 ∧ ∃ k, kind t = some k ∧ round = k.round first
  | _ => False

/-- A call that is under way, for a timer that was created. -/
def CsiCaller.Fits (kind : T → Option KtimerType) : CsiCaller T → Prop
  | .out _ => True
  | .change t tf tr => tf ≠ 0 ∧ ∃ k, kind t = some k ∧ tr = k.round tf
  | .start t tf tr => tf ≠ 0 ∧ ∃ k, kind t = some k ∧ tr = k.round tf
  | .free t => kind t ≠ none

theorem CsiCaller.out_fits (kind : T → Option KtimerType) (ret : CsiStatus) :
    (CsiCaller.out ret).Fits kind := trivial

/-- Every timer, every command and every call goes by the type of the timer. -/
structure CsiInv (s : CsiTimers T C) : Prop where
  threads : Threads s.task
  timer : ∀ t k, s.kind t = some k →
    ((s.task.timer t).roundTicks = 0 ↔ k = .once) ∧ (s.task.timer t).isStatic = false
  queue : ∀ cmd ∈ s.queue, cmd.Fits s.kind
  caller : ∀ c, (s.caller c).Fits s.kind

/-- A timer that is created changes nothing for those that were. -/
theorem TimerCmd.Fits.mono {kind kind' : T → Option KtimerType}
    (hk : ∀ t k, kind t = some k → kind' t = some k) {cmd : TimerCmd T} (h : cmd.Fits kind) :
    cmd.Fits kind' := by
  have hne : ∀ t, kind t ≠ none → kind' t ≠ none := by
    intro t ht
    rcases Option.ne_none_iff_exists'.mp ht with ⟨k, hkt⟩
    rw [hk t k hkt]
    simp
  cases cmd with
  | start t | stop t | dynDel t => exact hne t h
  | chg t first round =>
      rcases h with ⟨hfirst, k, hkt, hround⟩
      exact ⟨hfirst, k, hk t k hkt, hround⟩
  | argChg | del | argChgAuto => exact h

theorem TimerCmd.Fits.known {kind : T → Option KtimerType} {cmd : TimerCmd T}
    (h : cmd.Fits kind) : kind cmd.target ≠ none := by
  cases cmd with
  | start t | stop t | dynDel t => exact h
  | chg t first round =>
      rcases h with ⟨-, k, hk, -⟩
      change kind t ≠ none
      rw [hk]
      simp
  | argChg | del | argChgAuto => exact absurd h id

theorem CsiCaller.Fits.mono {kind kind' : T → Option KtimerType}
    (hk : ∀ t k, kind t = some k → kind' t = some k) {x : CsiCaller T} (h : x.Fits kind) :
    x.Fits kind' := by
  cases x with
  | out ret => trivial
  | change t tf tr | start t tf tr =>
      rcases h with ⟨htf, k, hkt, hround⟩
      exact ⟨htf, k, hk t k hkt, hround⟩
  | free t =>
      rcases Option.ne_none_iff_exists'.mp h with ⟨k, hkt⟩
      change kind' t ≠ none
      rw [hk t k hkt]
      simp

/-! ## What a step does -/

/-- The command that a step would send. -/
def CsiTimers.asks (s : CsiTimers T C) : CsiAct T C → Option (TimerCmd T)
  | .change c =>
      match s.caller c with
      | .change t tf tr => some (.chg t tf tr)
      | _ => none
  | .go c =>
      match s.caller c with
      | .start t _ _ => some (.start t)
      | _ => none
  | .stop _ t => some (.stop t)
  | .del _ t => some (.dynDel t)
  | _ => none

/-- The command that a step puts on the queue. -/
def CsiTimers.issues (s : CsiTimers T C) (a : CsiAct T C) : Option (TimerCmd T) :=
  (s.asks a).filter fun cmd => (s.send cmd).isSome

/-- The step is the turn of the walk at a timer that is due. -/
def CsiTimers.Expires (s : CsiTimers T C) (a : CsiAct T C) (t : T) : Prop :=
  a = .turn ∧ s.task.pc = .cb (some t) ∧ due (s.task.timer t).match_ s.task.count = true

section Steps

variable [DecidableEq T] [DecidableEq C] {s s' : CsiTimers T C} {a : CsiAct T C}

/-- What a step comes to, apart from memory: a timer is created, a call goes on, or the
    timer task does. -/
inductive CsiStep (s : CsiTimers T C) : CsiAct T C → CsiTimers T C → Prop where
  | new {s' : CsiTimers T C} (t : T) (type : KtimerType) (arg : Nat) (hkind : s.kind t = none)
      (htask : s.task.step (.create t tmrOneShotDly (type.round tmrPeriodicPeriod) arg false)
        = some s'.task)
      (hkind' : s'.kind = Function.update s.kind t (some type)) (hqueue : s'.queue = s.queue)
      (hcaller : s'.caller = s.caller) : CsiStep s (.new t type arg) s'
  | call {a : CsiAct T C} {s' : CsiTimers T C} (c : C) (x : CsiCaller T) (htask : s'.task = s.task)
      (hkind : s'.kind = s.kind) (hqueue : s'.queue = s.queue ++ (s.issues a).toList)
      (hfits : ∀ cmd, s.issues a = some cmd → cmd.Fits s.kind)
      (hcaller : s'.caller = Function.update s.caller c x) (hx : x.Fits s.kind)
      (hne : a ≠ .turn) (hnot : ∀ t type arg, a ≠ .new t type arg) : CsiStep s a s'
  | recv {s' : CsiTimers T C} (tick : Nat) (cmd : TimerCmd T) (hqueue : s.queue = cmd :: s'.queue)
      (htask : s.task.step (.command cmd tick) = some s'.task) (hkind : s'.kind = s.kind)
      (hcaller : s'.caller = s.caller) : CsiStep s (.recv tick) s'
  | watch {a : CsiAct T C} {s' : CsiTimers T C} (b : TimerAct T) (tick : Nat)
      (hb : a = .timeout tick ∧ b = .timeout tick ∨ a = .look tick ∧ b = .look tick)
      (htask : s.task.step b = some s'.task) (hkind : s'.kind = s.kind)
      (hqueue : s'.queue = s.queue) (hcaller : s'.caller = s.caller) : CsiStep s a s'
  | turn {s' : CsiTimers T C} (htask : s.task.step .turn = some s'.task) (hkind : s'.kind = s.kind)
      (hqueue : s'.queue = s.queue) (hcaller : s'.caller = s.caller) : CsiStep s .turn s'

/-- A call that sends a command goes on, or returns an error. -/
theorem sendBy_step {c : C} {cmd : TimerCmd T} {x : CsiCaller T} (hasks : s.asks a = some cmd)
    (hcmd : cmd.Fits s.kind) (hx : x.Fits s.kind) (hne : a ≠ .turn)
    (hnot : ∀ t type arg, a ≠ .new t type arg) : CsiStep s a (s.sendBy c cmd x) := by
  have hfits : ∀ d, s.issues a = some d → d.Fits s.kind := by
    intro d hd
    unfold CsiTimers.issues at hd
    rw [hasks, Option.filter_eq_some_iff] at hd
    rw [← Option.some.inj hd.1]
    exact hcmd
  unfold CsiTimers.sendBy
  cases hsend : s.send cmd with
  | none =>
      have hnone : s.issues a = none := by simp [CsiTimers.issues, hasks, hsend]
      refine .call c (.out .eperm) rfl rfl ?_ hfits rfl trivial hne hnot
      rw [hnone]
      exact (List.append_nil _).symm
  | some s₁ =>
      have hsome : s.issues a = some cmd := by simp [CsiTimers.issues, hasks, hsend]
      unfold CsiTimers.send at hsend
      split_ifs at hsend
      injection hsend with hs₁
      refine .call c x ?_ ?_ ?_ hfits ?_ hx hne hnot
      · rw [← hs₁]
        rfl
      · rw [← hs₁]
        rfl
      · rw [← hs₁, hsome]
        rfl
      · rw [← hs₁]
        rfl

/-- A call that sends nothing. -/
theorem goes_step {c : C} {x : CsiCaller T} (hasks : s.asks a = none) (hx : x.Fits s.kind)
    (hne : a ≠ .turn) (hnot : ∀ t type arg, a ≠ .new t type arg) {s₁ : CsiTimers T C}
    (htask : s₁.task = s.task) (hkind : s₁.kind = s.kind)
    (hqueue : s₁.queue = s.queue) (hcaller : s₁.caller = s.caller) :
    CsiStep s a (s₁.goes c x) := by
  have hnone : s.issues a = none := by simp [CsiTimers.issues, hasks]
  refine .call c x htask hkind ?_ (by simp [hnone]) ?_ hx hne hnot
  · rw [hnone]
    exact hqueue.trans (List.append_nil _).symm
  · unfold CsiTimers.goes
    rw [hcaller]

theorem step_csiStep (h : CsiInv s) (hs : s.step a = some s') : CsiStep s a s' := by
  cases a with
  | new t type arg =>
      unfold CsiTimers.step at hs
      dsimp only at hs
      split_ifs at hs with hguard
      rcases Option.map_eq_some_iff.mp hs with ⟨task, htask, rfl⟩
      refine .new t type arg hguard.1 ?_ rfl rfl rfl
      cases type with
      | once => exact htask
      | periodic => exact htask
  | start c t ticks =>
      unfold CsiTimers.step at hs
      dsimp only at hs
      split at hs
      · split_ifs at hs with hguard hzero hround
        · injection hs with hs
          rw [← hs]
          exact goes_step rfl (CsiCaller.out_fits _ _) (by simp) (by simp) rfl rfl rfl rfl
        -- The period it reads is zero exactly where the timer was created so.
        · injection hs with hs
          rw [← hs]
          rcases Option.ne_none_iff_exists'.mp hguard.2 with ⟨k, hk⟩
          have hx : (CsiCaller.change t ticks ticks).Fits s.kind := by
            refine ⟨hzero, k, hk, ?_⟩
            cases k with
            | once => exact absurd ((h.timer t _ hk).1.mpr rfl) hround
            | periodic => rfl
          exact goes_step rfl hx (by simp) (by simp) rfl rfl rfl rfl
        · injection hs with hs
          rw [← hs]
          rcases Option.ne_none_iff_exists'.mp hguard.2 with ⟨k, hk⟩
          have hx : (CsiCaller.change t ticks 0).Fits s.kind := by
            refine ⟨hzero, k, hk, ?_⟩
            rw [(h.timer t k hk).1.mp (not_not.mp hround)]
            rfl
          exact goes_step rfl hx (by simp) (by simp) rfl rfl rfl rfl
      · cases hs
  | change c =>
      unfold CsiTimers.step at hs
      dsimp only at hs
      split at hs
      · rename_i t tf tr hcaller
        injection hs with hs
        rw [← hs]
        have hfits := h.caller c
        rw [hcaller] at hfits
        exact sendBy_step (by simp [CsiTimers.asks, hcaller]) hfits hfits (by simp) (by simp)
      · cases hs
  | go c =>
      unfold CsiTimers.step at hs
      dsimp only at hs
      split at hs
      · rename_i t tf tr hcaller
        injection hs with hs
        rw [← hs]
        have hfits := h.caller c
        rw [hcaller] at hfits
        rcases hfits with ⟨-, k, hk, -⟩
        refine sendBy_step (by simp [CsiTimers.asks, hcaller]) ?_ trivial (by simp) (by simp)
        simp [TimerCmd.Fits, hk]
      · cases hs
  | stop c t =>
      unfold CsiTimers.step at hs
      dsimp only at hs
      split at hs
      · split_ifs at hs with hkind
        injection hs with hs
        rw [← hs]
        exact sendBy_step rfl hkind trivial (by simp) (by simp)
      · cases hs
  | del c t =>
      unfold CsiTimers.step at hs
      dsimp only at hs
      split at hs
      · split_ifs at hs with hkind
        injection hs with hs
        rw [← hs]
        exact sendBy_step rfl hkind hkind (by simp) (by simp)
      · cases hs
  | free c =>
      unfold CsiTimers.step at hs
      dsimp only at hs
      split at hs
      · injection hs with hs
        rw [← hs]
        exact goes_step rfl (CsiCaller.out_fits _ _) (by simp) (by simp) rfl rfl rfl rfl
      · cases hs
  | recv tick =>
      unfold CsiTimers.step CsiTimers.recv at hs
      dsimp only at hs
      split at hs
      · cases hs
      · rename_i cmd rest hqueue
        rcases Option.map_eq_some_iff.mp hs with ⟨task, htask, rfl⟩
        exact .recv tick cmd hqueue htask rfl rfl
  | timeout tick =>
      rcases Option.map_eq_some_iff.mp hs with ⟨task, htask, rfl⟩
      exact .watch (.timeout tick) tick (.inl ⟨rfl, rfl⟩) htask rfl rfl rfl
  | look tick =>
      rcases Option.map_eq_some_iff.mp hs with ⟨task, htask, rfl⟩
      exact .watch (.look tick) tick (.inr ⟨rfl, rfl⟩) htask rfl rfl rfl
  | turn =>
      rcases Option.map_eq_some_iff.mp hs with ⟨task, htask, rfl⟩
      exact .turn htask rfl rfl rfl

end Steps

/-! ## What a step does to one timer -/

section Fate

variable [DecidableEq T] [DecidableEq C] {s s' : CsiTimers T C} {a : CsiAct T C} {t : T}

theorem TimerCmd.Fits.proc {kind : T → Option KtimerType} {cmd : TimerCmd T} (h : cmd.Fits kind)
    (s : TimerTask T) : s.timerCmdProc cmd = s.cmdProc cmd := by
  rcases timerCmdProc_eq_or s cmd with heq | ⟨t, arg, rfl⟩
  · exact heq
  · exact absurd h id

/-- The receipt of a command, seen from any timer. -/
theorem command_timer {task task' : TimerTask T} {kind : T → Option KtimerType} {tick : Nat}
    {cmd : TimerCmd T} (h : cmd.Fits kind) (hs : task.step (.command cmd tick) = some task') :
    task'.timer = Function.update task.timer cmd.target ((task.timer cmd.target).cmd tick cmd) ∧
      task'.count = tick := by
  rcases step_command hs with ⟨-, s₁, hs₁, hs'⟩
  rw [h.proc] at hs₁
  have htimer := cmdProc_timer { task with count := tick, tick := tick } cmd
  have hcount := cmdProc_count { task with count := tick, tick := tick } cmd
  rw [← hs₁] at htimer hcount
  rcases hs' with rfl | rfl
  · exact ⟨htimer, hcount⟩
  · exact ⟨htimer, hcount⟩

theorem cbTurn_count (s : TimerTask T) (t : T) : (s.cbTurn t).count = s.count := by
  unfold TimerTask.cbTurn
  dsimp only
  split_ifs
  · exact timerListRm_count _ t
  · exact timerListRm_count _ t
  · rfl

/-- A turn of the walk, seen from any timer. -/
theorem turn_timer {task task' : TimerTask T} (hs : task.step .turn = some task') (t : T) :
    task'.count = task.count ∧
      (task.pc = .cb (some t) ∧ due (task.timer t).match_ task.count = true ∧
          task'.timer t = (task.timer t).expire task.count ∨
        ¬(task.pc = .cb (some t) ∧ due (task.timer t).match_ task.count = true) ∧
          task'.timer t = task.timer t) := by
  unfold TimerTask.step at hs
  dsimp only at hs
  split at hs
  · rename_i hpc
    injection hs with hs
    rw [← hs]
    exact ⟨rfl, .inr ⟨by simp [hpc], rfl⟩⟩
  · rename_i u hpc
    injection hs with hs
    rw [← hs]
    refine ⟨cbTurn_count task u, ?_⟩
    by_cases hdue : due (task.timer u).match_ task.count = true
    · rw [cbTurn_timer hdue]
      by_cases htu : t = u
      · rw [htu, Function.update_self]
        exact .inl ⟨hpc, hdue, rfl⟩
      · rw [Function.update_of_ne htu]
        refine .inr ⟨?_, rfl⟩
        rw [hpc]
        simp [Ne.symm htu]
    · refine .inr ⟨?_, ?_⟩
      · rintro ⟨hu, hdue'⟩
        rw [hpc] at hu
        injection hu with hu
        injection hu with hu
        exact hdue (hu ▸ hdue')
      · unfold TimerTask.cbTurn
        rw [if_neg hdue]
  · cases hs

theorem timeout_timer {task task' : TimerTask T} {tick : Nat}
    (hs : task.step (.timeout tick) = some task') : task'.timer = task.timer := by
  unfold TimerTask.step at hs
  dsimp only at hs
  split_ifs at hs
  injection hs with hs
  rw [← hs]

theorem create_timer {task task' : TimerTask T} {first round arg : Nat} {isStatic : Bool} {u : T}
    (hs : task.step (.create u first round arg isStatic) = some task') (ht : t ≠ u) :
    task'.timer t = task.timer t := by
  unfold TimerTask.step at hs
  dsimp only at hs
  split_ifs at hs
  injection hs with hs
  rw [← hs]
  unfold TimerTask.timerCreate
  split_ifs
  · rfl
  · rfl
  · rfl
  · dsimp only
    exact modify_of_ne task ht _

omit [DecidableEq T] [DecidableEq C] in
theorem not_expires (h : a ≠ .turn) : ¬s.Expires a t := fun he => h he.1

/-- A timer is created once. -/
theorem CsiStep.not_new (hs : CsiStep s a s') (hkind : s.kind t ≠ none) (type : KtimerType)
    (arg : Nat) : a ≠ .new t type arg := by
  intro he
  subst he
  cases hs with
  | new _ _ _ hnew htask hkind' hqueue hcaller => exact hkind hnew
  | call c x htask hkind' hqueue hfits hcaller hx hne hnot => exact hnot t type arg rfl
  | watch b tick hb htask hkind' hqueue hcaller =>
      rcases hb with ⟨he, -⟩ | ⟨he, -⟩
      · cases he
      · cases he

/-- A command of its own, the turn at which it is due, or nothing: no more happens in one
    step to a timer that is not created in it. -/
theorem step_fate (h : CsiInv s) (hs : CsiStep s a s') (hold : ∀ type arg, a ≠ .new t type arg) :
    (∃ tick cmd, a = .recv tick ∧ s.queue = cmd :: s'.queue ∧ cmd.target = t ∧
        s'.task.timer t = (s.task.timer t).cmd tick cmd ∧ s'.task.count = tick) ∨
      (s.Expires a t ∧ s'.task.timer t = (s.task.timer t).expire s.task.count ∧
        s'.task.count = s.task.count ∧ s'.queue = s.queue) ∨
      (¬s.Expires a t ∧ s'.task.timer t = s.task.timer t ∧
        ((∃ tick cmd, a = .recv tick ∧ s.queue = cmd :: s'.queue ∧ cmd.target ≠ t) ∨
          s'.queue = s.queue ++ (s.issues a).toList)) := by
  have hnil : ∀ {q q' : List (TimerCmd T)}, q' = q → s.issues a = none →
      q' = q ++ (s.issues a).toList := by
    intro q q' hq hissues
    rw [hq, hissues]
    exact (List.append_nil q).symm
  cases hs with
  | new u type arg hnew htask hkind' hqueue hcaller =>
      have hne : t ≠ u := fun he => hold type arg (by rw [he])
      exact .inr (.inr ⟨not_expires (by simp), create_timer htask hne, .inr (hnil hqueue rfl)⟩)
  | call c x htask hkind' hqueue hfits hcaller hx hne hnot =>
      refine .inr (.inr ⟨not_expires hne, ?_, .inr hqueue⟩)
      rw [htask]
  | recv tick cmd hqueue htask hkind' hcaller =>
      have hfits := h.queue cmd (by rw [hqueue]; exact List.mem_cons_self)
      rcases command_timer hfits htask with ⟨htimer, hcount⟩
      by_cases hcmd : cmd.target = t
      · refine .inl ⟨tick, cmd, rfl, hqueue, hcmd, ?_, hcount⟩
        rw [htimer, hcmd, Function.update_self]
      · refine .inr (.inr ⟨not_expires (by simp), ?_, .inl ⟨tick, cmd, rfl, hqueue, hcmd⟩⟩)
        rw [htimer, Function.update_of_ne (Ne.symm hcmd)]
  | watch b tick hb htask hkind' hqueue hcaller =>
      rcases hb with ⟨rfl, rfl⟩ | ⟨rfl, rfl⟩
      · refine .inr (.inr ⟨not_expires (by simp), ?_, .inr (hnil hqueue rfl)⟩)
        rw [timeout_timer htask]
      · refine .inr (.inr ⟨not_expires (by simp), ?_, .inr (hnil hqueue rfl)⟩)
        rw [(step_look htask).1]
  | turn htask hkind' hqueue hcaller =>
      rcases turn_timer htask t with ⟨hcount, ⟨hpc, hdue, htimer⟩ | ⟨hnot, htimer⟩⟩
      · exact .inr (.inl ⟨⟨rfl, hpc, hdue⟩, htimer, hcount, hqueue⟩)
      · exact .inr (.inr ⟨fun he => hnot he.2, htimer, .inr (hnil hqueue rfl)⟩)

end Fate

/-! ## Runs -/

/-- No command changes how the memory of a timer was allocated, and none changes whether
    it has a period. -/
theorem Ktimer.cmd_keeps {kind : T → Option KtimerType} {cmd : TimerCmd T} {ty : KtimerType}
    (h : cmd.Fits kind) (hkind : kind cmd.target = some ty) (k : Ktimer) (count : Nat)
    (hround : k.roundTicks = 0 ↔ ty = .once) :
    ((k.cmd count cmd).roundTicks = 0 ↔ ty = .once) ∧ (k.cmd count cmd).isStatic = k.isStatic := by
  cases cmd with
  | chg t first round =>
      unfold Ktimer.cmd
      dsimp only
      split_ifs
      · exact ⟨hround, rfl⟩
      · exact ⟨hround, rfl⟩
      · exact ⟨hround, rfl⟩
      · refine ⟨?_, rfl⟩
        rcases h with ⟨hfirst, ty', hty, rfl⟩
        have hsame : ty' = ty := Option.some.inj (hty.symm.trans hkind)
        rw [hsame]
        cases ty with
        | once => simp [KtimerType.round]
        | periodic => simp [KtimerType.round, hfirst]
  | start t | stop t =>
      unfold Ktimer.cmd
      dsimp only
      split_ifs
      · exact ⟨hround, rfl⟩
      · exact ⟨hround, rfl⟩
      · exact ⟨hround, rfl⟩
  | dynDel t =>
      unfold Ktimer.cmd
      dsimp only
      split_ifs
      · exact ⟨hround, rfl⟩
      · exact ⟨hround, rfl⟩
      · exact ⟨hround, rfl⟩
      · exact ⟨hround, rfl⟩
  | argChg | del | argChgAuto => exact absurd h id

theorem Ktimer.expire_keeps (k : Ktimer) (count : Nat) :
    (k.expire count).roundTicks = k.roundTicks ∧ (k.expire count).isStatic = k.isStatic := by
  unfold Ktimer.expire
  split_ifs
  · exact ⟨rfl, rfl⟩
  · exact ⟨rfl, rfl⟩

section Runs

variable [DecidableEq T] [DecidableEq C] {s s' : CsiTimers T C} {a : CsiAct T C} {t : T}

/-- A timer that was created keeps its type. -/
theorem CsiStep.kind_mono (hs : CsiStep s a s') {k : KtimerType} (hk : s.kind t = some k) :
    s'.kind t = some k := by
  cases hs with
  | new u type arg hnew htask hkind' hqueue hcaller =>
      have hne : t ≠ u := by
        intro he
        rw [he, hnew] at hk
        cases hk
      rw [hkind', Function.update_of_ne hne, hk]
  | call c x htask hkind' hqueue hfits hcaller hx hne hnot => rw [hkind', hk]
  | recv tick cmd hqueue htask hkind' hcaller => rw [hkind', hk]
  | watch b tick hb htask hkind' hqueue hcaller => rw [hkind', hk]
  | turn htask hkind' hqueue hcaller => rw [hkind', hk]

theorem CsiStep.threads (h : CsiInv s) (hs : CsiStep s a s') : Threads s'.task := by
  cases hs with
  | new u type arg hnew htask hkind' hqueue hcaller => exact step_threads h.threads htask
  | call c x htask hkind' hqueue hfits hcaller hx hne hnot =>
      rw [htask]
      exact h.threads
  | recv tick cmd hqueue htask hkind' hcaller => exact step_threads h.threads htask
  | watch b tick hb htask hkind' hqueue hcaller => exact step_threads h.threads htask
  | turn htask hkind' hqueue hcaller => exact step_threads h.threads htask

/-- A timer of a type, after it was created or after a step. -/
theorem CsiStep.timer (h : CsiInv s) (hs : CsiStep s a s') {k : KtimerType}
    (hk : s'.kind t = some k) :
    ((s'.task.timer t).roundTicks = 0 ↔ k = .once) ∧ (s'.task.timer t).isStatic = false := by
  cases hold : s.kind t with
  | some k' =>
      have hkk : k' = k := Option.some.inj ((hs.kind_mono hold).symm.trans hk)
      rw [hkk] at hold
      have hwas := h.timer t k hold
      have hnew : ∀ type arg, a ≠ .new t type arg := hs.not_new (by rw [hold]; simp)
      rcases step_fate h hs hnew with
        ⟨tick, cmd, -, hqueue, hcmd, htimer, -⟩ | ⟨-, htimer, -, -⟩ | ⟨-, htimer, -⟩
      · have hfits := h.queue cmd (by rw [hqueue]; exact List.mem_cons_self)
        have hkeeps := Ktimer.cmd_keeps hfits (hcmd ▸ hold) (s.task.timer t) tick hwas.1
        rw [htimer]
        exact ⟨hkeeps.1, hkeeps.2.trans hwas.2⟩
      · rw [htimer, (Ktimer.expire_keeps _ _).1, (Ktimer.expire_keeps _ _).2]
        exact hwas
      · rw [htimer]
        exact hwas
  | none =>
      cases hs with
      | new u type arg hnew htask hkind' hqueue hcaller =>
          rw [hkind'] at hk
          by_cases htu : t = u
          · rw [htu, Function.update_self] at hk
            rw [← Option.some.inj hk, htu]
            unfold TimerTask.step at htask
            dsimp only at htask
            split_ifs at htask
            injection htask with htask
            rw [← htask]
            -- Neither of the constants is refused.
            cases type with
            | once =>
                change (((s.task.timerCreate u 10 0 arg false).2.timer u).roundTicks = 0 ↔ _) ∧ _
                simp [TimerTask.timerCreate, KtimerType.round, tmrOneShotDly, maxTimerTicks, modify_self]
            | periodic =>
                change (((s.task.timerCreate u 10 10 arg false).2.timer u).roundTicks = 0 ↔ _) ∧ _
                simp [TimerTask.timerCreate, KtimerType.round, tmrOneShotDly, tmrPeriodicPeriod,
                  maxTimerTicks, modify_self]
          · rw [Function.update_of_ne htu, hold] at hk
            cases hk
      | call c x htask hkind' hqueue hfits hcaller hx hne hnot =>
          rw [hkind', hold] at hk
          cases hk
      | recv tick cmd hqueue htask hkind' hcaller =>
          rw [hkind', hold] at hk
          cases hk
      | watch b tick hb htask hkind' hqueue hcaller =>
          rw [hkind', hold] at hk
          cases hk
      | turn htask hkind' hqueue hcaller =>
          rw [hkind', hold] at hk
          cases hk

theorem CsiStep.inv (h : CsiInv s) (hs : CsiStep s a s') : CsiInv s' := by
  have hmono : ∀ t k, s.kind t = some k → s'.kind t = some k := fun _ _ hk => hs.kind_mono hk
  refine ⟨hs.threads h, fun t k hk => hs.timer h hk, ?_, ?_⟩
  · intro cmd hmem
    cases hs with
    | new u type arg hnew htask hkind' hqueue hcaller =>
        rw [hqueue] at hmem
        exact (h.queue cmd hmem).mono hmono
    | call c x htask hkind' hqueue hfits hcaller hx hne hnot =>
        rw [hqueue] at hmem
        rcases List.mem_append.mp hmem with hmem | hmem
        · exact (h.queue cmd hmem).mono hmono
        · exact (hfits cmd (Option.mem_toList.mp hmem)).mono hmono
    | recv tick d hqueue htask hkind' hcaller =>
        exact (h.queue cmd (by rw [hqueue]; exact List.mem_cons_of_mem d hmem)).mono hmono
    | watch b tick hb htask hkind' hqueue hcaller =>
        rw [hqueue] at hmem
        exact (h.queue cmd hmem).mono hmono
    | turn htask hkind' hqueue hcaller =>
        rw [hqueue] at hmem
        exact (h.queue cmd hmem).mono hmono
  · intro d
    cases hs with
    | new u type arg hnew htask hkind' hqueue hcaller =>
        rw [hcaller]
        exact (h.caller d).mono hmono
    | call c x htask hkind' hqueue hfits hcaller hx hne hnot =>
        rw [hcaller]
        by_cases hd : d = c
        · rw [hd, Function.update_self]
          exact hx.mono hmono
        · rw [Function.update_of_ne hd]
          exact (h.caller d).mono hmono
    | recv tick cmd hqueue htask hkind' hcaller =>
        rw [hcaller]
        exact (h.caller d).mono hmono
    | watch b tick hb htask hkind' hqueue hcaller =>
        rw [hcaller]
        exact (h.caller d).mono hmono
    | turn htask hkind' hqueue hcaller =>
        rw [hcaller]
        exact (h.caller d).mono hmono

theorem step_csiInv (h : CsiInv s) (hs : s.step a = some s') : CsiInv s' :=
  (step_csiStep h hs).inv h

omit [DecidableEq T] [DecidableEq C] in
theorem init_csiInv (tick : Nat) : CsiInv (CsiTimers.init tick : CsiTimers T C) := by
  refine ⟨⟨List.nodup_nil, ?_, ?_, ?_⟩, ?_, ?_, ?_⟩
  · intro u
    simp [CsiTimers.init, TimerTask.start]
  · intro u
    rfl
  · intro u hu
    cases hu
  · intro t k hk
    cases hk
  · intro cmd hmem
    cases hmem
  · intro c
    trivial

/-- What holds of CSI timers holds after every run. -/
theorem run_csiInv {tick : Nat} {as : List (CsiAct T C)}
    (h : Run.run CsiTimers.step (CsiTimers.init tick) as = some s) : CsiInv s := by
  refine Run.run_inv (P := fun _ _ => True) ?_ as _ _ (init_csiInv tick) ?_ h
  · intro s a s' hs _ hstep
    exact step_csiInv hs hstep
  · exact Run.along_of_forall (fun _ _ => trivial) as _

end Runs

end Rhino

end Wujian100
