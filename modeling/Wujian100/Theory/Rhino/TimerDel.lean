import Wujian100.Theory.Rhino.CsiTimer

/-!
# Deleting a Timer

`csi_kernel_timer_del` sends its command and gives the argument of the callback back at
once, through the timer. The timer task may not have taken the command yet, and may call
the callback; or it has taken it, and has given the timer back. And it drops the command
where the timer is active.

None of that happens where the timer is not active when its argument is given back, nobody
starts it any more, and the timer task takes the command after that.

## Main definitions

* `CsiTimers.Ending`: The deletion of a timer has begun.
* `Careful`: What a step has to keep to.
* `CsiTimers.Over`: Nothing calls the callback of a timer again.
* `DelInv`: What holds where all steps are careful.

## Theorems

* `step_keeps`: What a step leaves of a timer.
* `step_delInv`: Careful steps keep `DelInv`.
* `timer_del_safe`: Careful runs are safe.
* `timer_del_unsafe`: Others are not.
-/

namespace Wujian100

namespace Rhino

variable {T C : Type}

/-- A call that will start the timer is under way. -/
def CsiCaller.Starts (t : T) : CsiCaller T → Prop
  | .change u _ _ => u = t
  | .start u _ _ => u = t
  | _ => False

/-- `csi_kernel_timer_del` was called for the timer. -/
def CsiTimers.Ending (s : CsiTimers T C) (t : T) : Prop :=
  (∃ c, s.caller c = .free t) ∨ .dynDel t ∈ s.queue ∨ (s.task.timer t).isTimer = false

/-- No call to start or delete a timer is made once its deletion has been called. When the
    argument is given back, the timer is not active and nothing is under way to start it.
    The command to delete it is taken after that. -/
def Careful (s : CsiTimers T C) : CsiAct T C → Prop
  | .start _ t _ => ¬s.Ending t
  | .del _ t => ¬s.Ending t
  | .free c => ∀ t, s.caller c = .free t → (s.task.timer t).active = false ∧ .start t ∉ s.queue ∧
      ∀ d, ¬(s.caller d).Starts t
  | .recv _ => ∀ t rest, s.queue = .dynDel t :: rest → ∀ c, s.caller c ≠ .free t
  | _ => True

/-- The timer is not active and nothing will start it; it is deleted, or will be. -/
structure CsiTimers.Over (s : CsiTimers T C) (t : T) : Prop where
  active : (s.task.timer t).active = false
  queue : .start t ∉ s.queue
  starts : ∀ c, ¬(s.caller c).Starts t
  free : ∀ c, s.caller c ≠ .free t
  ends : .dynDel t ∈ s.queue ∨ (s.task.timer t).isTimer = false

/-- Every timer has an argument of its own, which is given back once, after its deletion
    was called and before the timer is given back. -/
structure DelInv (s : CsiTimers T C) : Prop extends CsiInv s where
  faults : s.faults = []
  known : ∀ t, s.kind t = none → (s.task.timer t).active = false
  args : ∀ t, s.kind t ≠ none → s.arg (s.task.timer t).cbArg ≠ .unused
  inj : ∀ t u, s.kind t ≠ none → s.kind u ≠ none →
    (s.task.timer t).cbArg = (s.task.timer u).cbArg → t = u
  freed : ∀ t, s.freed t = true → s.kind t ≠ none ∧ (s.task.timer t).isTimer = false
  gone : ∀ t, s.kind t ≠ none → (s.task.timer t).isTimer = false →
    s.arg (s.task.timer t).cbArg = .freed
  ended : ∀ t, s.kind t ≠ none → s.arg (s.task.timer t).cbArg = .freed → s.Over t
  freeing : ∀ c t, s.caller c = .free t → s.arg (s.task.timer t).cbArg = .live ∧
    .dynDel t ∈ s.queue ∧ ∀ d, s.caller d = .free t → d = c
  sent : ∀ t, .dynDel t ∈ s.queue →
    (∃ c, s.caller c = .free t) ∨ s.arg (s.task.timer t).cbArg = .freed

/-! ## What a step leaves of a timer -/

theorem Ktimer.cmd_del_keeps {kind : T → Option KtimerType} {cmd : TimerCmd T}
    (h : cmd.Fits kind) (k : Ktimer) (count : Nat) :
    (k.cmd count cmd).cbArg = k.cbArg ∧
      ((k.cmd count cmd).isTimer = k.isTimer ∨ cmd = .dynDel cmd.target) ∧
      (k.isTimer = false → (k.cmd count cmd).isTimer = false) ∧
      (k.active = false → (k.cmd count cmd).active = false ∨ cmd = .start cmd.target) := by
  cases cmd with
  | start t =>
      unfold Ktimer.cmd
      dsimp only
      split_ifs
      · exact ⟨rfl, .inl rfl, id, fun _ => .inr rfl⟩
      · exact ⟨rfl, .inl rfl, id, fun _ => .inr rfl⟩
      · exact ⟨rfl, .inl rfl, id, fun _ => .inr rfl⟩
  | stop t =>
      unfold Ktimer.cmd
      dsimp only
      split_ifs
      · exact ⟨rfl, .inl rfl, id, .inl⟩
      · exact ⟨rfl, .inl rfl, id, .inl⟩
      · exact ⟨rfl, .inl rfl, id, fun _ => .inl rfl⟩
  | chg t first round =>
      unfold Ktimer.cmd
      dsimp only
      split_ifs
      · exact ⟨rfl, .inl rfl, id, .inl⟩
      · exact ⟨rfl, .inl rfl, id, .inl⟩
      · exact ⟨rfl, .inl rfl, id, .inl⟩
      · exact ⟨rfl, .inl rfl, id, .inl⟩
  | dynDel t =>
      unfold Ktimer.cmd
      dsimp only
      split_ifs
      · exact ⟨rfl, .inr rfl, id, .inl⟩
      · exact ⟨rfl, .inr rfl, id, .inl⟩
      · exact ⟨rfl, .inr rfl, id, .inl⟩
      · exact ⟨rfl, .inr rfl, fun _ => rfl, .inl⟩
  | argChg | del | argChgAuto => exact absurd h id

theorem Ktimer.expire_del_keeps (k : Ktimer) (count : Nat) :
    (k.expire count).cbArg = k.cbArg ∧ (k.expire count).isTimer = k.isTimer ∧
      (k.active = false → (k.expire count).active = false) := by
  unfold Ktimer.expire
  split_ifs
  · exact ⟨rfl, rfl, id⟩
  · exact ⟨rfl, rfl, fun _ => rfl⟩

section Steps

variable [DecidableEq T] [DecidableEq C] {s s' : CsiTimers T C} {a : CsiAct T C} {t : T}

/-- Only its deletion makes something else of a timer, and only a start makes it
    active. -/
theorem step_keeps (h : CsiInv s) (hs : CsiStep s a s') (hold : ∀ type arg, a ≠ .new t type arg) :
    (s'.task.timer t).cbArg = (s.task.timer t).cbArg ∧
      ((s'.task.timer t).isTimer = (s.task.timer t).isTimer ∨
        ∃ tick, a = .recv tick ∧ s.queue = .dynDel t :: s'.queue) ∧
      ((s.task.timer t).isTimer = false → (s'.task.timer t).isTimer = false) ∧
      ((s.task.timer t).active = false → (s'.task.timer t).active = false ∨
        ∃ tick, a = .recv tick ∧ s.queue = .start t :: s'.queue) := by
  rcases step_fate h hs hold with
    ⟨tick, cmd, ha, hqueue, hcmd, htimer, -⟩ | ⟨-, htimer, -, -⟩ | ⟨-, htimer, -⟩
  · have hfits := h.queue cmd (by rw [hqueue]; exact List.mem_cons_self)
    rcases Ktimer.cmd_del_keeps hfits (s.task.timer t) tick with ⟨harg, htype, hgone, hactive⟩
    rw [htimer]
    rw [hcmd] at htype hactive
    refine ⟨harg, htype.imp_right fun hdel => ?_, hgone, fun hidle => (hactive hidle).imp_right ?_⟩
    · exact ⟨tick, ha, by rw [hqueue, hdel]⟩
    · intro hstart
      exact ⟨tick, ha, by rw [hqueue, hstart]⟩
  · rcases Ktimer.expire_del_keeps (s.task.timer t) s.task.count with ⟨harg, htype, hactive⟩
    rw [htimer]
    exact ⟨harg, .inl htype, htype.trans, fun hidle => .inl (hactive hidle)⟩
  · rw [htimer]
    exact ⟨rfl, .inl rfl, id, .inl⟩

/-- A timer that is not active is deleted by its command. -/
theorem dynDel_gone (h : CsiInv s) (hs : CsiStep s a s') {tick : Nat} (ha : a = .recv tick)
    (hqueue : s.queue = .dynDel t :: s'.queue) (hactive : (s.task.timer t).active = false) :
    (s'.task.timer t).isTimer = false := by
  have hfits := h.queue (.dynDel t) (by rw [hqueue]; exact List.mem_cons_self)
  rcases Option.ne_none_iff_exists'.mp hfits with ⟨k, hk⟩
  have hstatic := (h.timer t k hk).2
  subst ha
  cases hs with
  | call c x htask hkind hqueue' hfits' hcaller hx hne hnot =>
      rw [hqueue'] at hqueue
      exact absurd (congrArg List.length hqueue) (by simp; omega)
  | watch b tick' hb htask hkind hqueue' hcaller =>
      rcases hb with ⟨he, -⟩ | ⟨he, -⟩
      · cases he
      · cases he
  | recv tick' cmd hqueue' htask hkind hcaller =>
      rw [hqueue, List.cons.injEq] at hqueue'
      rw [← hqueue'.1] at htask
      rw [(command_timer hfits htask).1]
      change (Function.update s.task.timer t _ t).isTimer = false
      rw [Function.update_self]
      change ((s.task.timer t).cmd tick (.dynDel t)).isTimer = false
      unfold Ktimer.cmd
      dsimp only
      split_ifs with hno hrun hst
      · exact hno
      · rw [hactive] at hrun
        cases hrun
      · rw [hstatic] at hst
        cases hst
      · rfl

/-- What the timer task does leaves things in order. -/
theorem DelInv.of_task (h : DelInv s) (hs : CsiStep s a s') (hcare : Careful s a)
    (hnew : ∀ t type arg, a ≠ .new t type arg)
    (hcaller : s'.caller = s.caller) (hkind : s'.kind = s.kind) (harg : s'.arg = s.arg)
    (hfaults : s'.faults = [])
    (hqueue : s'.queue = s.queue ∨ ∃ tick cmd, a = .recv tick ∧ s.queue = cmd :: s'.queue)
    (hfreed : ∀ t, s'.freed t = true →
      s.freed t = true ∨ s.kind t ≠ none ∧ (s'.task.timer t).isTimer = false) : DelInv s' := by
  have hkeeps := fun {t} (ht : s.kind t ≠ none) => step_keeps h.toCsiInv hs (hs.not_new ht)
  have hsub : ∀ cmd, cmd ∈ s'.queue → cmd ∈ s.queue := by
    intro cmd hcmd
    rcases hqueue with heq | ⟨-, d, -, heq⟩
    · rw [← heq]
      exact hcmd
    · rw [heq]
      exact List.mem_cons_of_mem d hcmd
  -- A command to delete stays on the queue until it is taken.
  have hstays : ∀ t, .dynDel t ∈ s.queue → .dynDel t ∈ s'.queue ∨
      ∃ tick, a = .recv tick ∧ s.queue = .dynDel t :: s'.queue := by
    intro t ht
    rcases hqueue with heq | ⟨tick, d, ha, heq⟩
    · rw [heq]
      exact .inl ht
    · rw [heq] at ht
      rcases List.mem_cons.mp ht with rfl | ht
      · exact .inr ⟨tick, ha, heq⟩
      · exact .inl ht
  have htaken : ∀ t, (∃ tick, a = .recv tick ∧ s.queue = .dynDel t :: s'.queue) →
      ∀ c, s.caller c ≠ .free t := by
    rintro t ⟨tick, rfl, heq⟩
    exact hcare t s'.queue heq
  refine ⟨hs.inv h.toCsiInv, hfaults, ?_, ?_, ?_, ?_, ?_, ?_, ?_, ?_⟩
  · intro t ht
    rw [hkind] at ht
    rcases (step_keeps h.toCsiInv hs (hnew t)).2.2.2 (h.known t ht) with hidle | ⟨-, -, heq⟩
    · exact hidle
    · exact absurd ht (h.queue (.start t) (by rw [heq]; exact List.mem_cons_self))
  · intro t ht
    rw [hkind] at ht
    rw [harg, (hkeeps ht).1]
    exact h.args t ht
  · intro t u ht hu heq
    rw [hkind] at ht hu
    rw [(hkeeps ht).1, (hkeeps hu).1] at heq
    exact h.inj t u ht hu heq
  · intro t ht
    rw [hkind]
    rcases hfreed t ht with hold | hnew
    · rcases h.freed t hold with ⟨hkt, hno⟩
      exact ⟨hkt, (hkeeps hkt).2.2.1 hno⟩
    · exact hnew
  · intro t ht hno
    rw [hkind] at ht
    rw [harg, (hkeeps ht).1]
    rcases (hkeeps ht).2.1 with hsame | htook
    · exact h.gone t ht (hsame.symm.trans hno)
    · rcases htook with ⟨tick, ha, heq⟩
      rcases h.sent t (by rw [heq]; exact List.mem_cons_self) with ⟨c, hc⟩ | hfree
      · exact absurd hc (htaken t ⟨tick, ha, heq⟩ c)
      · exact hfree
  · intro t ht hfree
    rw [hkind] at ht
    rw [harg, (hkeeps ht).1] at hfree
    have hover := h.ended t ht hfree
    refine ⟨?_, fun hmem => hover.queue (hsub _ hmem), ?_, ?_, ?_⟩
    · rcases (hkeeps ht).2.2.2 hover.active with hidle | ⟨-, -, heq⟩
      · exact hidle
      · exact absurd (by rw [heq]; exact List.mem_cons_self) hover.queue
    · rw [hcaller]
      exact hover.starts
    · rw [hcaller]
      exact hover.free
    · rcases hover.ends with hmem | hno
      · rcases hstays t hmem with hmem' | ⟨tick, ha, heq⟩
        · exact .inl hmem'
        · exact .inr (dynDel_gone h.toCsiInv hs ha heq hover.active)
      · exact .inr ((hkeeps ht).2.2.1 hno)
  · intro c t hc
    rw [hcaller] at hc ⊢
    rcases h.freeing c t hc with ⟨hlive, hmem, huniq⟩
    have ht : s.kind t ≠ none := h.queue (.dynDel t) hmem
    rw [harg, (hkeeps ht).1]
    refine ⟨hlive, ?_, huniq⟩
    rcases hstays t hmem with hmem' | htook
    · exact hmem'
    · exact absurd hc (htaken t htook c)
  · intro t hmem
    have ht : s.kind t ≠ none := h.queue (.dynDel t) (hsub _ hmem)
    rw [hcaller, harg, (hkeeps ht).1]
    exact h.sent t (hsub _ hmem)

/-- So does a call that goes on, where it does not start a timer whose argument was given
    back, and deletes no timer twice. -/
theorem DelInv.of_call {c : C} {x : CsiCaller T} {l : List (TimerCmd T)} (h : DelInv s)
    (hs : CsiStep s a s') (htask : s'.task = s.task) (hkind : s'.kind = s.kind)
    (harg : s'.arg = s.arg) (hfreed : s'.freed = s.freed) (hfaults : s'.faults = s.faults)
    (hcaller : s'.caller = Function.update s.caller c x) (hqueue : s'.queue = s.queue ++ l)
    (hold : ∀ t, s.caller c ≠ .free t)
    (hstart : ∀ t, .start t ∈ l → s.arg (s.task.timer t).cbArg ≠ .freed)
    (hstarts : ∀ t, x.Starts t → s.arg (s.task.timer t).cbArg ≠ .freed)
    (hdel : ∀ t, .dynDel t ∈ l → x = .free t)
    (hx : ∀ t, x = .free t → .dynDel t ∈ l ∧ s.arg (s.task.timer t).cbArg = .live ∧
      ∀ d, s.caller d ≠ .free t) : DelInv s' := by
  refine ⟨hs.inv h.toCsiInv, hfaults.trans h.faults, ?_, ?_, ?_, ?_, ?_, ?_, ?_, ?_⟩
  · rw [hkind, htask]
    exact h.known
  · rw [hkind, harg, htask]
    exact h.args
  · rw [hkind, htask]
    exact h.inj
  · rw [hfreed, hkind, htask]
    exact h.freed
  · rw [hkind, harg, htask]
    exact h.gone
  -- A timer whose argument was given back gets no new command, and no new caller.
  · intro t ht hfree
    rw [hkind] at ht
    rw [harg, htask] at hfree
    have hover := h.ended t ht hfree
    refine ⟨?_, ?_, ?_, ?_, ?_⟩
    · rw [htask]
      exact hover.active
    · rw [hqueue, List.mem_append, not_or]
      exact ⟨hover.queue, fun hmem => hstart t hmem hfree⟩
    · intro d
      rw [hcaller]
      by_cases hd : d = c
      · rw [hd, Function.update_self]
        exact fun hxs => hstarts t hxs hfree
      · rw [Function.update_of_ne hd]
        exact hover.starts d
    · intro d
      rw [hcaller]
      by_cases hd : d = c
      · rw [hd, Function.update_self]
        intro he
        have hlive := (hx t he).2.1
        rw [hfree] at hlive
        cases hlive
      · rw [Function.update_of_ne hd]
        exact hover.free d
    · rw [hqueue, htask]
      exact hover.ends.imp_left (List.mem_append_left l)
  -- The caller that frees is this one, with its command just sent, or one from before.
  · intro d t hd
    rw [hcaller] at hd ⊢
    rw [harg, htask, hqueue]
    by_cases hdc : d = c
    · rw [hdc, Function.update_self] at hd
      rcases hx t hd with ⟨hmem, hlive, hnone⟩
      refine ⟨hlive, List.mem_append_right _ hmem, fun e he => ?_⟩
      by_cases hec : e = c
      · rw [hec, hdc]
      · rw [Function.update_of_ne hec] at he
        exact absurd he (hnone e)
    · rw [Function.update_of_ne hdc] at hd
      rcases h.freeing d t hd with ⟨hlive, hmem, huniq⟩
      refine ⟨hlive, List.mem_append_left l hmem, fun e he => ?_⟩
      by_cases hec : e = c
      · rw [hec, Function.update_self] at he
        exact absurd hd ((hx t he).2.2 d)
      · rw [Function.update_of_ne hec] at he
        exact huniq e he
  -- The deletion in the queue is the one just sent, or one from before.
  · intro t hmem
    rw [hqueue] at hmem
    rw [harg, htask, hcaller]
    rcases List.mem_append.mp hmem with hmem | hmem
    · rcases h.sent t hmem with ⟨d, hd⟩ | hfree
      · refine .inl ⟨d, ?_⟩
        have hdc : d ≠ c := fun he => hold t (he ▸ hd)
        rw [Function.update_of_ne hdc, hd]
      · exact .inr hfree
    · refine .inl ⟨c, ?_⟩
      rw [Function.update_self]
      exact hdel t hmem

omit [DecidableEq T] in
/-- A command is sent, or an error is returned. -/
theorem sendBy_eq (s : CsiTimers T C) (c : C) (cmd : TimerCmd T) (x : CsiCaller T) :
    s.sendBy c cmd x = { s with queue := s.queue ++ [cmd], caller := Function.update s.caller c x } ∨
      s.sendBy c cmd x = { s with caller := Function.update s.caller c (.out .eperm) } := by
  unfold CsiTimers.sendBy CsiTimers.send
  split_ifs
  · exact .inl rfl
  · exact .inr rfl

/-- A call that sends a command. -/
theorem DelInv.of_sendBy {c : C} {cmd : TimerCmd T} {x : CsiCaller T} (h : DelInv s)
    (hs : CsiStep s a (s.sendBy c cmd x)) (hold : ∀ t, s.caller c ≠ .free t)
    (hstart : ∀ t, cmd = .start t → s.arg (s.task.timer t).cbArg ≠ .freed)
    (hstarts : ∀ t, x.Starts t → s.arg (s.task.timer t).cbArg ≠ .freed)
    (hdel : ∀ t, cmd = .dynDel t → x = .free t)
    (hx : ∀ t, x = .free t → cmd = .dynDel t ∧ s.arg (s.task.timer t).cbArg = .live ∧
      ∀ d, s.caller d ≠ .free t) : DelInv (s.sendBy c cmd x) := by
  rcases sendBy_eq s c cmd x with heq | heq
  · rw [heq] at hs ⊢
    refine h.of_call (c := c) (x := x) (l := [cmd]) hs rfl rfl rfl rfl rfl rfl rfl hold ?_ hstarts
      ?_ ?_
    · intro t ht
      exact hstart t (List.mem_singleton.mp ht).symm
    · intro t ht
      exact hdel t (List.mem_singleton.mp ht).symm
    · intro t ht
      rcases hx t ht with ⟨hcmd, hrest⟩
      exact ⟨by rw [hcmd]; exact List.mem_singleton_self _, hrest⟩
  · rw [heq] at hs ⊢
    refine h.of_call (c := c) (x := .out .eperm) (l := []) hs rfl rfl rfl rfl rfl rfl
      (List.append_nil _).symm hold ?_ ?_ ?_ ?_
    · intro t ht
      cases ht
    · intro t ht
      cases ht
    · intro t ht
      cases ht
    · intro t ht
      cases ht

omit [DecidableEq T] [DecidableEq C] in
/-- The argument of a timer whose deletion has not been called is in use. -/
theorem DelInv.live_of_not_ending (h : DelInv s) (hkind : s.kind t ≠ none) (hend : ¬s.Ending t) :
    s.arg (s.task.timer t).cbArg = .live := by
  cases harg : s.arg (s.task.timer t).cbArg with
  | live => rfl
  | unused => exact absurd harg (h.args t hkind)
  | freed =>
      have hends := (h.ended t hkind harg).ends
      exact absurd (.inr hends) hend

/-- The argument is given back, in a careful step. -/
theorem DelInv.of_free {c : C} (h : DelInv s) (hc : s.caller c = .free t)
    (hcare : Careful s (.free c)) (hs : CsiStep s (.free c) ((s.freeArg t).goes c (.out .ok))) :
    DelInv ((s.freeArg t).goes c (.out .ok)) := by
  rcases h.freeing c t hc with ⟨hlive, hmem, huniq⟩
  rcases hcare t hc with ⟨hactive, hqueue, hstarts⟩
  have ht : s.kind t ≠ none := h.queue (.dynDel t) hmem
  have hnot : s.freed t = false := by
    cases hfreed : s.freed t with
    | false => rfl
    | true =>
        have hfree := h.gone t ht (h.freed t hfreed).2
        rw [hlive] at hfree
        cases hfree
  -- The other timers have arguments of their own.
  have hother : ∀ u, s.kind u ≠ none → u ≠ t →
      Function.update s.arg (s.task.timer t).cbArg .freed (s.task.timer u).cbArg
        = s.arg (s.task.timer u).cbArg := by
    intro u hu hne
    exact Function.update_of_ne (fun he => hne (h.inj u t hu ht he)) _ _
  have hcallers : ∀ d, d ≠ c → Function.update s.caller c (.out .ok) d = s.caller d :=
    fun d hd => Function.update_of_ne hd _ _
  have hfree' : ∀ d u, Function.update s.caller c (.out .ok) d = .free u →
      d ≠ c ∧ s.caller d = .free u := by
    intro d u hd
    by_cases hdc : d = c
    · rw [hdc, Function.update_self] at hd
      cases hd
    · rw [hcallers d hdc] at hd
      exact ⟨hdc, hd⟩
  refine ⟨hs.inv h.toCsiInv, ?_, h.known, ?_, h.inj, h.freed, ?_, ?_, ?_, ?_⟩
  · change s.faults ++ _ ++ _ = []
    rw [h.faults, hnot, hlive]
    rfl
  · intro u hu
    change Function.update s.arg _ .freed (s.task.timer u).cbArg ≠ _
    by_cases hut : u = t
    · rw [hut, Function.update_self]
      simp
    · rw [hother u hu hut]
      exact h.args u hu
  · intro u hu hno
    change Function.update s.arg _ .freed (s.task.timer u).cbArg = _
    by_cases hut : u = t
    · rw [hut, Function.update_self]
    · rw [hother u hu hut]
      exact h.gone u hu hno
  · intro u hu hfree
    change Function.update s.arg _ .freed (s.task.timer u).cbArg = _ at hfree
    have hsame : (s.task.timer u).active = false ∧ .start u ∉ s.queue ∧
        (∀ d, ¬(s.caller d).Starts u) ∧ (.dynDel u ∈ s.queue ∨ (s.task.timer u).isTimer = false) := by
      by_cases hut : u = t
      · rw [hut]
        exact ⟨hactive, hqueue, hstarts, .inl hmem⟩
      · rw [hother u hu hut] at hfree
        have hover := h.ended u hu hfree
        exact ⟨hover.active, hover.queue, hover.starts, hover.ends⟩
    refine ⟨hsame.1, hsame.2.1, ?_, ?_, hsame.2.2.2⟩
    · intro d
      change ¬(Function.update s.caller c _ d).Starts u
      by_cases hdc : d = c
      · rw [hdc, Function.update_self]
        exact id
      · rw [hcallers d hdc]
        exact hsame.2.2.1 d
    · intro d hd
      rcases hfree' d u hd with ⟨hdc, hd⟩
      by_cases hut : u = t
      · rw [hut] at hd
        exact hdc (huniq d hd)
      · rw [hother u hu hut] at hfree
        exact (h.ended u hu hfree).free d hd
  · intro d u hd
    rcases hfree' d u hd with ⟨hdc, hd⟩
    rcases h.freeing d u hd with ⟨hlive', hmem', huniq'⟩
    have hu : s.kind u ≠ none := h.queue (.dynDel u) hmem'
    have hut : u ≠ t := by
      intro he
      rw [he] at hd
      exact hdc (huniq d hd)
    refine ⟨(hother u hu hut).trans hlive', hmem', fun e he => ?_⟩
    exact huniq' e (hfree' e u he).2
  · intro u hmem'
    have hu : s.kind u ≠ none := h.queue (.dynDel u) hmem'
    change (∃ d, Function.update s.caller c _ d = _) ∨
      Function.update s.arg _ .freed (s.task.timer u).cbArg = _
    by_cases hut : u = t
    · rw [hut, Function.update_self]
      exact .inr rfl
    · rw [hother u hu hut]
      refine (h.sent u hmem').imp_left ?_
      rintro ⟨d, hd⟩
      have hdc : d ≠ c := by
        intro he
        rw [he, hc] at hd
        injection hd with hd
        exact hut hd.symm
      exact ⟨d, (hcallers d hdc).trans hd⟩

/-- A timer that was just created. -/
theorem create_made {task task' : TimerTask T} {type : KtimerType} {arg : Nat}
    (hs : task.step (.create t tmrOneShotDly (type.round tmrPeriodicPeriod) arg false) = some task') :
    (task'.timer t).cbArg = arg ∧ (task'.timer t).isTimer = true := by
  unfold TimerTask.step at hs
  dsimp only at hs
  split_ifs at hs
  injection hs with hs
  rw [← hs]
  cases type with
  | once =>
      simp [TimerTask.timerCreate, KtimerType.round, tmrOneShotDly, maxTimerTicks, modify_self]
  | periodic =>
      simp [TimerTask.timerCreate, KtimerType.round, tmrOneShotDly, tmrPeriodicPeriod, maxTimerTicks,
        modify_self]

/-- A timer is created, with an argument that no other has. -/
theorem DelInv.of_new {type : KtimerType} {arg : Nat} (h : DelInv s)
    (hs : CsiStep s (.new t type arg) s') (hnew : s.kind t = none) (hunused : s.arg arg = .unused)
    (htask : s.task.step (.create t tmrOneShotDly (type.round tmrPeriodicPeriod) arg false)
      = some s'.task)
    (hkind : s'.kind = Function.update s.kind t (some type)) (hqueue : s'.queue = s.queue)
    (hcaller : s'.caller = s.caller) (hfreed : s'.freed = s.freed) (hfaults : s'.faults = s.faults)
    (harg : s'.arg = Function.update s.arg arg .live) : DelInv s' := by
  rcases create_made htask with ⟨hcb, htimer⟩
  have hold : ∀ u, s'.kind u ≠ none → u ≠ t → s.kind u ≠ none := by
    intro u hu hut
    rw [hkind, Function.update_of_ne hut] at hu
    exact hu
  have hne : ∀ u, s.kind u ≠ none → u ≠ t := fun u hu he => hu (he ▸ hnew)
  have hsame : ∀ u, u ≠ t → s'.task.timer u = s.task.timer u := fun u hut => create_timer htask hut
  -- The argument is fresh: no timer that is known has it.
  have hcbs : ∀ u, s.kind u ≠ none → (s.task.timer u).cbArg ≠ arg := by
    intro u hu he
    exact h.args u hu (he ▸ hunused)
  have hargs : ∀ u, s.kind u ≠ none →
      s'.arg (s'.task.timer u).cbArg = s.arg (s.task.timer u).cbArg := by
    intro u hu
    rw [harg, hsame u (hne u hu), Function.update_of_ne (hcbs u hu)]
  have hself : s'.arg (s'.task.timer t).cbArg = .live := by
    rw [harg, hcb, Function.update_self]
  refine ⟨hs.inv h.toCsiInv, hfaults.trans h.faults, ?_, ?_, ?_, ?_, ?_, ?_, ?_, ?_⟩
  -- Unknown timers are as they were.
  · intro u hu
    have hut : u ≠ t := by
      intro he
      rw [hkind, he, Function.update_self] at hu
      cases hu
    rw [hkind, Function.update_of_ne hut] at hu
    rw [hsame u hut]
    exact h.known u hu
  -- No argument of a known timer is unused.
  · intro u hu
    by_cases hut : u = t
    · rw [hut, hself]
      simp
    · rw [hargs u (hold u hu hut)]
      exact h.args u (hold u hu hut)
  -- Two timers share no argument.
  · intro u v hu hv heq
    by_cases hut : u = t
    · by_cases hvt : v = t
      · rw [hut, hvt]
      · rw [hut, hcb, hsame v hvt] at heq
        exact absurd heq.symm (hcbs v (hold v hv hvt))
    · by_cases hvt : v = t
      · rw [hvt, hcb, hsame u hut] at heq
        exact absurd heq (hcbs u (hold u hu hut))
      · rw [hsame u hut, hsame v hvt] at heq
        exact h.inj u v (hold u hu hut) (hold v hv hvt) heq
  · intro u hu
    rw [hfreed] at hu
    rcases h.freed u hu with ⟨hku, hno⟩
    have hut := hne u hku
    rw [hkind, Function.update_of_ne hut, hsame u hut]
    exact ⟨hku, hno⟩
  · intro u hu hno
    by_cases hut : u = t
    · rw [hut, htimer] at hno
      cases hno
    · rw [hsame u hut] at hno
      rw [hargs u (hold u hu hut)]
      exact h.gone u (hold u hu hut) hno
  -- The new argument is live, so one given back is an old one.
  · intro u hu hfree
    by_cases hut : u = t
    · rw [hut, hself] at hfree
      cases hfree
    · rw [hargs u (hold u hu hut)] at hfree
      have hover := h.ended u (hold u hu hut) hfree
      refine ⟨?_, ?_, ?_, ?_, ?_⟩
      · rw [hsame u hut]
        exact hover.active
      · rw [hqueue]
        exact hover.queue
      · rw [hcaller]
        exact hover.starts
      · rw [hcaller]
        exact hover.free
      · rw [hqueue, hsame u hut]
        exact hover.ends
  -- The callers and the commands are those of before.
  · intro c u hc
    rw [hcaller] at hc ⊢
    rw [hqueue]
    rcases h.freeing c u hc with ⟨hlive, hmem, huniq⟩
    rw [hargs u (h.queue (.dynDel u) hmem)]
    exact ⟨hlive, hmem, huniq⟩
  · intro u hmem
    rw [hqueue] at hmem
    rw [hcaller, hargs u (h.queue (.dynDel u) hmem)]
    exact h.sent u hmem

omit [DecidableEq T] [DecidableEq C] in
/-- The walk calls no callback whose argument was given back. -/
theorem DelInv.callFaults_eq (h : DelInv s) : s.callFaults = [] := by
  unfold CsiTimers.callFaults
  split
  · rename_i t hpc
    have hmem := h.threads.walk t hpc
    have hkind : s.kind t ≠ none := fun he => h.threads.not_mem (h.known t he) hmem
    rw [if_neg]
    rintro ⟨-, hfree⟩
    exact h.threads.not_mem (h.ended t hkind hfree).active hmem
  · rfl

/-- Careful steps keep everything in order. -/
theorem step_delInv (h : DelInv s) (hcare : Careful s a) (hs : s.step a = some s') : DelInv s' := by
  have hstep := step_csiStep h.toCsiInv hs
  cases a with
  | new t type arg =>
      unfold CsiTimers.step at hs
      dsimp only at hs
      split_ifs at hs with hguard
      rcases Option.map_eq_some_iff.mp hs with ⟨task, htask, rfl⟩
      refine h.of_new hstep hguard.1 hguard.2 ?_ rfl rfl rfl rfl rfl rfl
      cases type with
      | once => exact htask
      | periodic => exact htask
  | start c t ticks =>
      unfold CsiTimers.step at hs
      dsimp only at hs
      split at hs
      · rename_i ret hout
        have hold : ∀ u, s.caller c ≠ .free u := by simp [hout]
        -- The call begins, or returns at once.
        have hgo : ∀ x : CsiCaller T, (∀ u, x.Starts u → u = t) → (∀ u, x ≠ .free u) →
            s' = s.goes c x → s.kind t ≠ none → DelInv s' := by
          intro x hx hfree hs' hkind
          rw [hs'] at hstep ⊢
          refine h.of_call (c := c) (x := x) (l := []) hstep rfl rfl rfl rfl rfl rfl
            (List.append_nil _).symm hold (by simp) ?_ (by simp) fun u hu => absurd hu (hfree u)
          intro u hu
          rw [hx u hu, h.live_of_not_ending hkind hcare]
          simp
        split_ifs at hs with hguard hzero hround
        · exact hgo (.out .einval) (fun u hu => absurd hu id) (by simp) (Option.some.inj hs).symm
            hguard.2
        · exact hgo (.change t ticks ticks) (fun u hu => Eq.symm hu) (by simp)
            (Option.some.inj hs).symm hguard.2
        · exact hgo (.change t ticks 0) (fun u hu => Eq.symm hu) (by simp)
            (Option.some.inj hs).symm hguard.2
      · cases hs
  | change c =>
      unfold CsiTimers.step at hs
      dsimp only at hs
      split at hs
      · rename_i t tf tr hcall
        injection hs with hs
        rw [← hs] at hstep ⊢
        refine h.of_sendBy hstep (by simp [hcall]) (by simp) ?_ (by simp) (by simp)
        intro u hu hfree
        have hkind : s.kind u ≠ none := by
          have hfits := h.caller c
          rw [hcall] at hfits
          rcases hfits with ⟨-, k, hk, -⟩
          rw [← show t = u from hu, hk]
          simp
        exact (h.ended u hkind hfree).starts c (by rw [hcall]; exact hu)
      · cases hs
  | go c =>
      unfold CsiTimers.step at hs
      dsimp only at hs
      split at hs
      · rename_i t tf tr hcall
        injection hs with hs
        rw [← hs] at hstep ⊢
        refine h.of_sendBy hstep (by simp [hcall]) ?_ (fun u hu => absurd hu id) (by simp) (by simp)
        intro u hu hfree
        injection hu with hu
        have hkind : s.kind u ≠ none := by
          have hfits := h.caller c
          rw [hcall] at hfits
          rcases hfits with ⟨-, k, hk, -⟩
          rw [← hu, hk]
          simp
        exact (h.ended u hkind hfree).starts c (by rw [hcall]; exact hu)
      · cases hs
  | stop c t =>
      unfold CsiTimers.step at hs
      dsimp only at hs
      split at hs
      · rename_i ret hout
        split_ifs at hs with hkind
        injection hs with hs
        rw [← hs] at hstep ⊢
        exact h.of_sendBy hstep (by simp [hout]) (by simp) (fun u hu => absurd hu id) (by simp)
          (by simp)
      · cases hs
  | del c t =>
      unfold CsiTimers.step at hs
      dsimp only at hs
      split at hs
      · rename_i ret hout
        split_ifs at hs with hkind
        injection hs with hs
        rw [← hs] at hstep ⊢
        refine h.of_sendBy hstep (by simp [hout]) (by simp) (fun u hu => absurd hu id) ?_ ?_
        · intro u hu
          injection hu with hu
          rw [hu]
        · intro u hu
          injection hu with hu
          rw [← hu]
          exact ⟨rfl, h.live_of_not_ending hkind hcare, fun d hd => hcare (.inl ⟨d, hd⟩)⟩
      · cases hs
  | free c =>
      unfold CsiTimers.step at hs
      dsimp only at hs
      split at hs
      · rename_i t hcall
        injection hs with hs
        rw [← hs] at hstep ⊢
        exact h.of_free hcall hcare hstep
      · cases hs
  | recv tick =>
      unfold CsiTimers.step CsiTimers.recv at hs
      dsimp only at hs
      split at hs
      · cases hs
      · rename_i cmd rest hqueue
        rcases Option.map_eq_some_iff.mp hs with ⟨task, htask, rfl⟩
        refine h.of_task hstep hcare (by simp) rfl rfl rfl h.faults (.inr ⟨tick, cmd, rfl, hqueue⟩) ?_
        intro t ht
        dsimp only at ht
        split_ifs at ht with hgone
        · by_cases htc : t = cmd.target
          · rw [htc]
            refine .inr ⟨?_, hgone.2⟩
            have hfits := h.queue cmd (by rw [hqueue]; exact List.mem_cons_self)
            exact hfits.known
          · rw [Function.update_of_ne htc] at ht
            exact .inl ht
        · exact .inl ht
  | timeout tick =>
      rcases Option.map_eq_some_iff.mp hs with ⟨task, htask, rfl⟩
      exact h.of_task hstep hcare (by simp) rfl rfl rfl h.faults (.inl rfl) fun _ => .inl
  | look tick =>
      rcases Option.map_eq_some_iff.mp hs with ⟨task, htask, rfl⟩
      exact h.of_task hstep hcare (by simp) rfl rfl rfl h.faults (.inl rfl) fun _ => .inl
  | turn =>
      rcases Option.map_eq_some_iff.mp hs with ⟨task, htask, rfl⟩
      refine h.of_task hstep hcare (by simp) rfl rfl rfl ?_ (.inl rfl) fun _ => .inl
      change s.faults ++ s.callFaults = []
      rw [h.faults, h.callFaults_eq]
      rfl

omit [DecidableEq T] [DecidableEq C] in
theorem init_delInv (tick : Nat) : DelInv (CsiTimers.init tick : CsiTimers T C) := by
  refine ⟨init_csiInv tick, rfl, fun _ _ => rfl, ?_, ?_, ?_, ?_, ?_, ?_, ?_⟩
  · intro t ht
    exact absurd rfl ht
  · intro t u ht
    exact absurd rfl ht
  · intro t ht
    cases ht
  · intro t ht
    exact absurd rfl ht
  · intro t ht
    exact absurd rfl ht
  · intro c t hc
    cases hc
  · intro t ht
    cases ht

/-- What was given back stays so. -/
theorem step_arg_freed {n : Nat} (hs : s.step a = some s') (hn : s.arg n = .freed) :
    s'.arg n = .freed := by
  have hsend : ∀ c cmd x, (s.sendBy c cmd x).arg = s.arg := by
    intro c cmd x
    rcases sendBy_eq s c cmd x with heq | heq
    · rw [heq]
    · rw [heq]
  cases a with
  | new t type arg =>
      unfold CsiTimers.step at hs
      dsimp only at hs
      split_ifs at hs with hguard
      rcases Option.map_eq_some_iff.mp hs with ⟨task, htask, rfl⟩
      -- A new timer takes an unused argument, not one given back.
      have hne : n ≠ arg := by
        intro he
        rw [he, hguard.2] at hn
        cases hn
      change Function.update s.arg arg .live n = .freed
      rw [Function.update_of_ne hne]
      exact hn
  | start c t ticks =>
      unfold CsiTimers.step at hs
      dsimp only at hs
      split at hs
      · split_ifs at hs
        · rw [← Option.some.inj hs]
          exact hn
        · rw [← Option.some.inj hs]
          exact hn
        · rw [← Option.some.inj hs]
          exact hn
      · cases hs
  | change c | go c =>
      unfold CsiTimers.step at hs
      dsimp only at hs
      split at hs
      · rw [← Option.some.inj hs, hsend]
        exact hn
      · cases hs
  | stop c t | del c t =>
      unfold CsiTimers.step at hs
      dsimp only at hs
      split at hs
      · split_ifs at hs
        rw [← Option.some.inj hs, hsend]
        exact hn
      · cases hs
  | free c =>
      unfold CsiTimers.step at hs
      dsimp only at hs
      split at hs
      · rename_i t hcall
        rw [← Option.some.inj hs]
        change Function.update s.arg (s.task.timer t).cbArg .freed n = .freed
        by_cases he : n = (s.task.timer t).cbArg
        · rw [he, Function.update_self]
        · rw [Function.update_of_ne he]
          exact hn
      · cases hs
  | recv tick =>
      unfold CsiTimers.step CsiTimers.recv at hs
      dsimp only at hs
      split at hs
      · cases hs
      · rcases Option.map_eq_some_iff.mp hs with ⟨task, htask, rfl⟩
        exact hn
  | timeout tick | look tick | turn =>
      rcases Option.map_eq_some_iff.mp hs with ⟨task, htask, rfl⟩
      exact hn

/-- In every run of careful steps no callback finds its argument given back, no deletion
    reads a timer that was given back, and no argument is given back twice. Once
    `csi_kernel_timer_del` has given the argument back and returned 0, the timer is not on
    the list and is never due again, and once its command is served as well, the timer is
    deleted. -/
theorem timer_del_safe {tick : Nat} {as bs : List (CsiAct T C)}
    (hrun : Run.run CsiTimers.step (CsiTimers.init tick) as = some s)
    (hcare : Run.Along CsiTimers.step Careful (CsiTimers.init tick) as)
    (hafter : Run.Along CsiTimers.step Careful s bs) :
    s.faults = [] ∧ ∀ t, s.kind t ≠ none → s.arg (s.task.timer t).cbArg = .freed →
      (t ∉ s.task.head ∧ (.dynDel t ∉ s.queue → (s.task.timer t).isTimer = false)) ∧
        Run.Along CsiTimers.step (fun s a => t ∉ s.task.head ∧ ¬s.Expires a t) s bs := by
  have h : DelInv s := Run.run_inv (fun _ _ _ h hc hs => step_delInv h hc hs) as _ _
    (init_delInv tick) hcare hrun
  refine ⟨h.faults, fun t ht hfree => ⟨?_, ?_⟩⟩
  · have hover := h.ended t ht hfree
    exact ⟨h.threads.not_mem hover.active, fun hmem => hover.ends.resolve_left hmem⟩
  · have hstep : ∀ (s : CsiTimers T C) a s', DelInv s ∧ s.kind t ≠ none ∧
        s.arg (s.task.timer t).cbArg = .freed → Careful s a → s.step a = some s' →
        DelInv s' ∧ s'.kind t ≠ none ∧ s'.arg (s'.task.timer t).cbArg = .freed := by
      rintro s a s' ⟨h, hkind, hfree⟩ hc hs
      have hcsi := step_csiStep h.toCsiInv hs
      refine ⟨step_delInv h hc hs, ?_, ?_⟩
      · rcases Option.ne_none_iff_exists'.mp hkind with ⟨k, hk⟩
        rw [hcsi.kind_mono hk]
        simp
      · rw [(step_keeps h.toCsiInv hcsi (hcsi.not_new hkind)).1]
        exact step_arg_freed hs hfree
    refine Run.along_of_inv hstep ?_ bs s ⟨h, ht, hfree⟩ hafter
    rintro s a ⟨h, hkind, hfree⟩ -
    have hnot := h.threads.not_mem (h.ended t hkind hfree).active
    exact ⟨hnot, fun hexp => hnot (h.threads.walk t hexp.2.1)⟩

end Steps

/-- A timer that was never started is deleted: the argument is given back, and then the
    command is taken. -/
theorem timer_del_safe_idle :
    ∃ s, Run.run CsiTimers.step (CsiTimers.init 0 : CsiTimers Unit Unit)
        [.new () .once 7, .del () (), .free ()] = some s ∧
      s.faults = [] ∧ s.arg 7 = .freed ∧
      Run.Along CsiTimers.step (fun s a => () ∉ s.task.head ∧ ¬s.Expires a ()) s [.recv 3] := by
  have hrun : ((CsiTimers.init 0 : CsiTimers Unit Unit).step (.new () .once 7)).bind (fun s₁ =>
      (s₁.step (.del () ())).bind fun s₂ => (s₂.step (.free ())).map fun s =>
        ((s₁.caller (), s₁.queue, (s₁.task.timer ()).isTimer),
          (s₂.caller (), s₂.queue, (s₂.task.timer ()).active),
          (s.caller (), s.kind (), s.arg 7, (s.task.timer ()).cbArg)))
      = some ((.out .ok, [], true), (.free (), [.dynDel ()], false),
          (.out .ok, some .once, .freed, 7)) := rfl
  rcases Option.bind_eq_some_iff.mp hrun with ⟨s₁, hs₁, hrun⟩
  rcases Option.bind_eq_some_iff.mp hrun with ⟨s₂, hs₂, hrun⟩
  rcases Option.map_eq_some_iff.mp hrun with ⟨s, hs, hval⟩
  simp only [Prod.mk.injEq] at hval
  rcases hval with ⟨⟨hc₁, hq₁, ht₁⟩, ⟨hc₂, hq₂, ha₂⟩, hc, hkind, harg, hcb⟩
  have hdel : Careful s₁ (.del () ()) := by
    rintro (⟨c, hc⟩ | hmem | hno)
    · rw [hc₁] at hc
      cases hc
    · rw [hq₁] at hmem
      cases hmem
    · rw [ht₁] at hno
      cases hno
  have hfree : Careful s₂ (.free ()) := by
    intro t _
    refine ⟨ha₂, by rw [hq₂]; simp, fun d hd => ?_⟩
    rw [hc₂] at hd
    exact hd
  have hall : Run.run CsiTimers.step (CsiTimers.init 0) [.new () .once 7, .del () (), .free ()]
      = some s := by
    rw [Run.run_cons hs₁, Run.run_cons hs₂, Run.run_cons hs]
    rfl
  have hafter : Run.Along CsiTimers.step Careful s [.recv 3] :=
    ⟨fun _ _ _ c => by rw [hc]; simp, fun _ _ => trivial⟩
  have hsafe := timer_del_safe hall
    (Run.along_cons trivial hs₁ (Run.along_cons hdel hs₂ (Run.along_cons hfree hs trivial))) hafter
  exact ⟨s, hall, hsafe.1, harg, (hsafe.2 () (by rw [hkind]; simp) (by rw [hcb, harg])).2⟩

/-- A timer runs with 5 ticks and is deleted. -/
def delRunning : List (CsiAct Unit Unit) :=
  [.new () .once 7, .start () () 5, .change (), .go (), .recv 1, .look 1, .recv 2, .look 2,
    .del () (), .free (), .recv 3, .turn, .look 3, .timeout 7, .turn]

/-- A timer that does not run is deleted, and the command is taken at once. -/
def delAtOnce : List (CsiAct Unit Unit) :=
  [.new () .once 7, .del () (), .recv 1, .free ()]

/-- In the first run the command is dropped and the callback finds its argument given
    back, in the second the call reads the timer that was given back. -/
theorem timer_del_unsafe :
    (∃ s, Run.run CsiTimers.step (CsiTimers.init 0) delRunning = some s ∧
      s.caller () = .out .ok ∧ s.faults = [.callback ()]) ∧
    ∃ s, Run.run CsiTimers.step (CsiTimers.init 0) delAtOnce = some s ∧
      s.caller () = .out .ok ∧ s.faults = [.delRead ()] := by
  have hrunning : (Run.run CsiTimers.step (CsiTimers.init 0) delRunning).map
      (fun s => (s.caller (), s.faults)) = some (.out .ok, [.callback ()]) := by decide +kernel
  have hatOnce : (Run.run CsiTimers.step (CsiTimers.init 0) delAtOnce).map
      (fun s => (s.caller (), s.faults)) = some (.out .ok, [.delRead ()]) := by decide +kernel
  rcases Option.map_eq_some_iff.mp hrunning with ⟨s, hs, hval⟩
  rcases Option.map_eq_some_iff.mp hatOnce with ⟨s', hs', hval'⟩
  simp only [Prod.mk.injEq] at hval hval'
  exact ⟨⟨s, hs, hval.1, hval.2⟩, s', hs', hval'.1, hval'.2⟩

end Rhino

end Wujian100
