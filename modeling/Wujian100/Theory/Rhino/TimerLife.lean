import Wujian100.Core.Rhino.CsiTimer
import Wujian100.Theory.Rhino.Timer
import Mathlib.Data.List.Perm.Basic

/-!
# One Timer at a Time

What a step of the timer task does to one timer. Commands for other timers and turns of
the walk at other timers leave it alone. A timer is on the list if and only if it is
active, whatever the order of the list, so the walk never comes to a timer that is not.

## Main definitions

* `Ktimer.put`, `Ktimer.cmd`, `Ktimer.expire`: What happens to a timer, seen from it.
* `Threads`: The list holds the timers that are active, and the walk is on it.

## Theorems

* `timerCmdProc_timer`: Commands change their own timer only.
* `cbTurn_timer`: So do turns.
* `step_threads`: A step of the timer task keeps `Threads`.
-/

namespace Wujian100

namespace Rhino

/-! ## What happens to a timer -/

/-- The timer goes on the list. -/
def Ktimer.put (k : Ktimer) (count ticks : Nat) : Ktimer :=
  { k with match_ := (count + ticks) % 2 ^ 64, remain := ticks, onList := true }

/-- A command, at the timer it is about. -/
def Ktimer.cmd {T : Type} (k : Ktimer) (count : Nat) : TimerCmd T → Ktimer
  | .start _ =>
      if k.isTimer = false then k
      else if k.active = true then k
      else { k.put count k.initCount with active := true }
  | .stop _ =>
      if k.isTimer = false then k
      else if k.active = false then k
      else { k with onList := false, active := false }
  | .chg _ first round =>
      if first = 0 then k
      else if k.isTimer = false then k
      else if k.active = true then k
      else { k with initCount := first, roundTicks := round }
  | .argChg _ arg =>
      if k.isTimer = false then k
      else if k.active = true then k
      else { k with cbArg := arg }
  | .del _ =>
      if k.isTimer = false then k
      else if k.active = true then k
      else if k.isStatic = false then k
      else { k with isTimer := false }
  | .dynDel _ =>
      if k.isTimer = false then k
      else if k.active = true then k
      else if k.isStatic = true then k
      else { k with isTimer := false }
  | .argChgAuto _ _ => k

/-- A turn of the walk, at a timer that is due. -/
def Ktimer.expire (k : Ktimer) (count : Nat) : Ktimer :=
  if k.roundTicks > 0 then k.put count k.roundTicks else { k with onList := false, active := false }

section Timers

variable {T : Type} [DecidableEq T] {s : TimerTask T} {t : T}

theorem rm_timer (s : TimerTask T) (t : T) :
    (s.timerListRm t).timer = Function.update s.timer t { s.timer t with onList := false } := by
  unfold TimerTask.timerListRm
  split_ifs with h
  · rfl
  · have hsame : { s.timer t with onList := false } = s.timer t := by
      cases ht : s.timer t with
      | mk a b c d e onList g i j =>
          rw [ht] at h
          simp only [Bool.not_eq_true] at h
          rw [h]
    rw [hsame, Function.update_eq_self]

theorem arm_timer (s : TimerTask T) (t : T) (ticks : Nat) :
    (s.arm t ticks).timer = Function.update s.timer t ((s.timer t).put s.count ticks) := rfl

theorem modify_timer (s : TimerTask T) (t : T) (f : Ktimer → Ktimer) :
    (s.modify t f).timer = Function.update s.timer t (f (s.timer t)) := rfl

/-- Commands change their own timer only. -/
theorem cmdProc_timer (s : TimerTask T) (c : TimerCmd T) :
    (s.cmdProc c).timer
      = Function.update s.timer c.target ((s.timer c.target).cmd s.count c) := by
  cases c with
  | start t =>
      unfold TimerTask.cmdProc Ktimer.cmd TimerCmd.target
      dsimp only
      split_ifs
      · rw [Function.update_eq_self]
      · rw [Function.update_eq_self]
      · rw [modify_timer, arm_timer, Function.update_self, Function.update_idem]
  | stop t =>
      unfold TimerTask.cmdProc Ktimer.cmd TimerCmd.target
      dsimp only
      split_ifs
      · rw [Function.update_eq_self]
      · rw [Function.update_eq_self]
      · rw [modify_timer, rm_timer, Function.update_self, Function.update_idem]
  | chg t first round =>
      unfold TimerTask.cmdProc Ktimer.cmd TimerCmd.target
      dsimp only
      split_ifs
      · rw [Function.update_eq_self]
      · rw [Function.update_eq_self]
      · rw [Function.update_eq_self]
      · rfl
  | argChg t arg =>
      unfold TimerTask.cmdProc Ktimer.cmd TimerCmd.target
      dsimp only
      split_ifs
      · rw [Function.update_eq_self]
      · rw [Function.update_eq_self]
      · rfl
  | del t | dynDel t =>
      unfold TimerTask.cmdProc Ktimer.cmd TimerCmd.target
      dsimp only
      split_ifs
      · rw [Function.update_eq_self]
      · rw [Function.update_eq_self]
      · rw [Function.update_eq_self]
      · rfl
  | argChgAuto t arg => exact (Function.update_eq_self _ _).symm

/-- A turn at a timer that is due changes this timer only. -/
theorem cbTurn_timer (h : due (s.timer t).match_ s.count = true) :
    (s.cbTurn t).timer = Function.update s.timer t ((s.timer t).expire s.count) := by
  unfold TimerTask.cbTurn Ktimer.expire
  rw [if_pos h]
  dsimp only
  split_ifs
  · rw [arm_timer, rm_timer, Function.update_self, Function.update_idem, timerListRm_count]
    rfl
  · rw [modify_timer, rm_timer, Function.update_self, Function.update_idem]

end Timers

/-! ## The list -/

/-- The list holds the timers that are active, each of them once, and the walk is at one
    of them. -/
structure Threads {T : Type} (s : TimerTask T) : Prop where
  nodup : s.head.Nodup
  mem : ∀ u, u ∈ s.head ↔ (s.timer u).onList = true
  active : ∀ u, (s.timer u).active = (s.timer u).onList
  walk : ∀ u, s.pc = .cb (some u) → u ∈ s.head

section Threads

variable {T : Type} {s s' : TimerTask T} {t : T}

/-- Where one timer has changed, and its place. -/
theorem Threads.of_one (h : Threads s) (hnodup : s'.head.Nodup)
    (hothers : ∀ u, u ≠ t → (u ∈ s'.head ↔ u ∈ s.head) ∧ s'.timer u = s.timer u)
    (hmem : t ∈ s'.head ↔ (s'.timer t).onList = true)
    (hactive : (s'.timer t).active = (s'.timer t).onList)
    (hwalk : ∀ u, s'.pc = .cb (some u) → u ∈ s'.head) : Threads s' := by
  refine ⟨hnodup, fun u => ?_, fun u => ?_, hwalk⟩
  · by_cases hu : u = t
    · rw [hu]
      exact hmem
    · rw [(hothers u hu).1, (hothers u hu).2]
      exact h.mem u
  · by_cases hu : u = t
    · rw [hu]
      exact hactive
    · rw [(hothers u hu).2]
      exact h.active u

/-- Where neither the list nor what the timers say of it has changed. -/
theorem Threads.of_same (h : Threads s) (hhead : s'.head = s.head)
    (hon : ∀ u, (s'.timer u).onList = (s.timer u).onList)
    (hactive : ∀ u, (s'.timer u).active = (s.timer u).active)
    (hwalk : ∀ u, s'.pc = .cb (some u) → u ∈ s'.head) : Threads s' := by
  refine ⟨by rw [hhead]; exact h.nodup, fun u => ?_, fun u => ?_, hwalk⟩
  · rw [hhead, hon]
    exact h.mem u
  · rw [hactive, hon]
    exact h.active u

theorem Threads.not_mem (h : Threads s) (ht : (s.timer t).active = false) : t ∉ s.head := by
  rw [h.mem, ← h.active, ht]
  simp

variable [DecidableEq T]

theorem Threads.rm_head (h : Threads s) (t : T) : (s.timerListRm t).head = s.head.erase t := by
  unfold TimerTask.timerListRm
  split_ifs with hon
  · rfl
  · exact (List.erase_of_not_mem fun hmem => hon ((h.mem t).mp hmem)).symm

theorem mem_arm_head {u : T} {ticks : Nat} : u ∈ (s.arm t ticks).head ↔ u = t ∨ u ∈ s.head :=
  List.mem_orderedInsert _

theorem arm_head_nodup {ticks : Nat} (h : (t :: s.head).Nodup) : (s.arm t ticks).head.Nodup :=
  (List.perm_orderedInsert _ t s.head).nodup_iff.mpr h

/-- Apart from the walk, a command keeps the list as it should be. -/
theorem cmdProc_threads (h : Threads s) (c : TimerCmd T) (hpc : ∀ u, s.pc ≠ .cb (some u)) :
    Threads (s.cmdProc c) := by
  -- A command that leaves the list alone changes one timer, but neither of its marks.
  have hkeep : ∀ {t : T} {f : Ktimer → Ktimer}, (f (s.timer t)).onList = (s.timer t).onList →
      (f (s.timer t)).active = (s.timer t).active → Threads (s.modify t f) := by
    intro t f hon hactive
    refine h.of_one (t := t) h.nodup (fun u hu => ⟨Iff.rfl, modify_of_ne s hu f⟩) ?_ ?_
      fun u hu => absurd hu (hpc u)
    · rw [modify_self, hon]
      exact h.mem t
    · rw [modify_self, hon, hactive]
      exact h.active t
  cases c with
  | start t =>
      unfold TimerTask.cmdProc
      dsimp only
      split_ifs with htimer hactive
      · exact h
      · exact h
      · have hnot := h.not_mem (by simpa using hactive)
        refine h.of_one (t := t) (arm_head_nodup (List.nodup_cons.mpr ⟨hnot, h.nodup⟩)) ?_ ?_ ?_
          fun u hu => absurd hu (hpc u)
        · intro u hu
          constructor
          · exact mem_arm_head.trans (or_iff_right hu)
          · rw [modify_of_ne _ hu, arm_timer, Function.update_of_ne hu]
        · rw [modify_self, arm_timer, Function.update_self]
          exact iff_of_true (mem_arm_head.mpr (.inl rfl)) rfl
        · rw [modify_self, arm_timer, Function.update_self]
          rfl
  | stop t =>
      unfold TimerTask.cmdProc
      dsimp only
      split_ifs with htimer hactive
      · exact h
      · exact h
      · have hhead := h.rm_head t
        refine h.of_one (t := t) ?_ ?_ ?_ ?_ fun u hu => absurd hu ?_
        · change (s.timerListRm t).head.Nodup
          rw [hhead]
          exact h.nodup.erase t
        · intro u hu
          constructor
          · change u ∈ (s.timerListRm t).head ↔ _
            rw [hhead]
            exact List.mem_erase_of_ne hu
          · rw [modify_of_ne _ hu, rm_timer, Function.update_of_ne hu]
        · rw [modify_self, rm_timer, Function.update_self]
          change t ∈ (s.timerListRm t).head ↔ false = true
          rw [hhead]
          simp [h.nodup.not_mem_erase]
        · rw [modify_self, rm_timer, Function.update_self]
        · change (s.timerListRm t).pc ≠ .cb (some u)
          unfold TimerTask.timerListRm
          split_ifs
          · exact hpc u
          · exact hpc u
  | chg t first round =>
      unfold TimerTask.cmdProc
      dsimp only
      split_ifs
      · exact h
      · exact h
      · exact h
      · exact hkeep rfl rfl
  | argChg t arg =>
      unfold TimerTask.cmdProc
      dsimp only
      split_ifs
      · exact h
      · exact h
      · exact hkeep rfl rfl
  | del t | dynDel t =>
      unfold TimerTask.cmdProc
      dsimp only
      split_ifs
      · exact h
      · exact h
      · exact h
      · exact hkeep rfl rfl
  | argChgAuto t arg => exact h

end Threads

/-! ## Steps of the timer task -/

section Steps

variable {T : Type} [DecidableEq T] {s s' : TimerTask T} {t : T}

theorem timerListRm_pc (s : TimerTask T) (t : T) : (s.timerListRm t).pc = s.pc := by
  unfold TimerTask.timerListRm
  split_ifs
  · rfl
  · rfl

theorem cmdProc_pc (s : TimerTask T) (c : TimerCmd T) : (s.cmdProc c).pc = s.pc := by
  cases c with
  | stop t =>
      unfold TimerTask.cmdProc
      dsimp only
      split_ifs
      · rfl
      · rfl
      · exact timerListRm_pc s t
  | _ =>
      unfold TimerTask.cmdProc
      dsimp only
      try split_ifs
      all_goals rfl

theorem timerCmdProc_eq_or (s : TimerTask T) (c : TimerCmd T) :
    s.timerCmdProc c = s.cmdProc c ∨ ∃ t arg, c = .argChgAuto t arg := by
  cases c with
  | argChgAuto t arg => exact .inr ⟨t, arg, rfl⟩
  | _ => exact .inl rfl

theorem timerCmdProc_threads (h : Threads s) (c : TimerCmd T) (hpc : ∀ u, s.pc ≠ .cb (some u)) :
    Threads (s.timerCmdProc c) := by
  rcases timerCmdProc_eq_or s c with heq | ⟨t, arg, rfl⟩
  · rw [heq]
    exact cmdProc_threads h c hpc
  · -- A stop, a change of the argument and a start.
    have hstop := cmdProc_threads h (.stop t) hpc
    have hchg := cmdProc_threads hstop (.argChg t arg) (by rw [cmdProc_pc]; exact hpc)
    exact cmdProc_threads hchg (.start t) (by rw [cmdProc_pc, cmdProc_pc]; exact hpc)

/-- One turn of the walk. -/
theorem cbTurn_threads (h : Threads s) (hpc : s.pc = .cb (some t)) : Threads (s.cbTurn t) := by
  have hmem := h.walk t hpc
  unfold TimerTask.cbTurn
  by_cases hdue : due (s.timer t).match_ s.count = true
  · rw [if_pos hdue]
    dsimp only
    -- The call is recorded, and the timer is taken off.
    have hcall : Threads { s with calls := s.calls ++ [(t, (s.timer t).cbArg)] } :=
      h.of_same rfl (fun _ => rfl) (fun _ => rfl) h.walk
    have hhead := hcall.rm_head t
    have htimer := rm_timer { s with calls := s.calls ++ [(t, (s.timer t).cbArg)] } t
    have hnodup := h.nodup.erase t
    have hnot : t ∉ s.head.erase t := h.nodup.not_mem_erase
    generalize TimerTask.timerListRm { s with calls := s.calls ++ [(t, (s.timer t).cbArg)] } t
      = s₁ at hhead htimer ⊢
    change s₁.head = s.head.erase t at hhead
    change s₁.timer = Function.update s.timer t _ at htimer
    have hothers : ∀ u, u ≠ t → s₁.timer u = s.timer u := by
      intro u hu
      rw [htimer, Function.update_of_ne hu]
    split_ifs with hround
    · have harmed : (s₁.arm t (s.timer t).roundTicks).head.Nodup := by
        refine arm_head_nodup (List.nodup_cons.mpr ?_)
        rw [hhead]
        exact ⟨hnot, hnodup⟩
      refine h.of_one (t := t) harmed ?_ ?_ ?_ ?_
      · intro u hu
        constructor
        · refine mem_arm_head.trans ((or_iff_right hu).trans ?_)
          rw [hhead]
          exact List.mem_erase_of_ne hu
        · rw [arm_timer, Function.update_of_ne hu, hothers u hu]
      · rw [arm_timer, Function.update_self]
        exact iff_of_true (mem_arm_head.mpr (.inl rfl)) rfl
      · rw [arm_timer, Function.update_self, htimer, Function.update_self]
        change (s.timer t).active = true
        rw [h.active]
        exact (h.mem t).mp hmem
      · intro u hu
        injection hu with hu
        exact (nextOf_mem harmed hu).1
    · refine h.of_one (t := t) ?_ ?_ ?_ ?_ ?_
      · change s₁.head.Nodup
        rw [hhead]
        exact hnodup
      · intro u hu
        constructor
        · change u ∈ s₁.head ↔ _
          rw [hhead]
          exact List.mem_erase_of_ne hu
        · dsimp only
          rw [modify_of_ne s₁ hu, hothers u hu]
      · rw [modify_self, htimer, Function.update_self]
        change t ∈ s₁.head ↔ false = true
        rw [hhead]
        simp [hnot]
      · rw [modify_self, htimer, Function.update_self]
      · intro u hu
        injection hu with hu
        rcases nextOf_mem h.nodup hu with ⟨humem, hne⟩
        change u ∈ s₁.head
        rw [hhead, List.mem_erase_of_ne hne]
        exact humem
  · rw [if_neg hdue]
    exact h.of_same rfl (fun _ => rfl) (fun _ => rfl) (by simp)

/-- What the receipt of a command comes to. -/
theorem step_command {c : TimerCmd T} {tick : Nat} (h : s.step (.command c tick) = some s') :
    (s.pc = .recv ∨ s.pc = .wait) ∧ ∃ s₁, s₁ = { s with count := tick, tick := tick }.timerCmdProc c ∧
      (s' = { s₁ with pc := .look } ∨ s' = { s₁ with pc := .cb s₁.head.head? }) := by
  unfold TimerTask.step at h
  dsimp only at h
  generalize { s with count := tick, tick := tick }.timerCmdProc c = s₁ at h ⊢
  split_ifs at h
  cases hpc : s.pc with
  | recv =>
      rw [hpc] at h
      injection h with h
      exact ⟨.inl rfl, s₁, rfl, .inl h.symm⟩
  | wait =>
      rw [hpc] at h
      injection h with h
      exact ⟨.inr rfl, s₁, rfl, .inr h.symm⟩
  | look | cb =>
      rw [hpc] at h
      cases h

/-- A look at the list changes neither the list nor a timer. -/
theorem step_look {tick : Nat} (h : s.step (.look tick) = some s') :
    s'.timer = s.timer ∧ s'.head = s.head ∧ ∀ u, s'.pc = .cb (some u) → u ∈ s.head := by
  unfold TimerTask.step at h
  dsimp only at h
  by_cases hpc : s.pc = .look
  · rw [if_pos hpc] at h
    split at h
    · injection h with h
      rw [← h]
      exact ⟨rfl, rfl, by simp⟩
    · rename_i t l hhead
      split_ifs at h
      · injection h with h
        rw [← h]
        exact ⟨rfl, rfl, by simp⟩
      · injection h with h
        rw [← h]
        refine ⟨rfl, rfl, fun u hu => ?_⟩
        injection hu with hu
        injection hu with hu
        rw [hhead, ← hu]
        exact List.mem_cons_self
  · rw [if_neg hpc] at h
    cases h

theorem step_threads {a : TimerAct T} (h : Threads s) (hs : s.step a = some s') : Threads s' := by
  cases a with
  | command c tick =>
      rcases step_command hs with ⟨hpc, s₁, hs₁, hs'⟩
      have hread : Threads { s with count := tick, tick := tick } :=
        h.of_same rfl (fun _ => rfl) (fun _ => rfl) h.walk
      -- A command is received between two walks, so no walk stands on the list it changes.
      have hno : ∀ u, s.pc ≠ .cb (some u) := by
        intro u hu
        rcases hpc with hpc | hpc
        · rw [hpc] at hu
          cases hu
        · rw [hpc] at hu
          cases hu
      have hcmd : Threads s₁ := by
        rw [hs₁]
        exact timerCmdProc_threads hread c hno
      rcases hs' with rfl | rfl
      · exact hcmd.of_same rfl (fun _ => rfl) (fun _ => rfl) (by simp)
      · refine hcmd.of_same rfl (fun _ => rfl) (fun _ => rfl) ?_
        intro u hu
        injection hu with hu
        exact List.mem_of_mem_head? hu
  | timeout tick =>
      unfold TimerTask.step at hs
      dsimp only at hs
      split_ifs at hs
      injection hs with hs
      rw [← hs]
      refine h.of_same rfl (fun _ => rfl) (fun _ => rfl) ?_
      intro u hu
      injection hu with hu
      exact List.mem_of_mem_head? hu
  | look tick =>
      rcases step_look hs with ⟨htimer, hhead, hwalk⟩
      refine h.of_same hhead ?_ ?_ ?_
      · intro u
        rw [htimer]
      · intro u
        rw [htimer]
      · rw [hhead]
        exact hwalk
  | turn =>
      unfold TimerTask.step at hs
      dsimp only at hs
      cases hpc : s.pc with
      | cb q =>
          rw [hpc] at hs
          cases q with
          | none =>
              injection hs with hs
              rw [← hs]
              exact h.of_same rfl (fun _ => rfl) (fun _ => rfl) (by simp)
          | some t =>
              injection hs with hs
              rw [← hs]
              exact cbTurn_threads h hpc
      | recv | look | wait =>
          rw [hpc] at hs
          cases hs
  | create t first round arg isStatic =>
      unfold TimerTask.step at hs
      dsimp only at hs
      split_ifs at hs with hon
      injection hs with hs
      rw [← hs]
      unfold TimerTask.timerCreate
      split_ifs
      · exact h
      · exact h
      · exact h
      -- A timer that is created is not active, and so not on the list.
      · have hnot : t ∉ s.head := by
          rw [h.mem, hon]
          simp
        dsimp only
        refine h.of_one (t := t) h.nodup ?_ ?_ ?_ h.walk
        · intro u hu
          exact ⟨Iff.rfl, modify_of_ne s hu _⟩
        · rw [modify_self]
          exact iff_of_false hnot (by simp)
        · rw [modify_self]

end Steps

end Rhino

end Wujian100
