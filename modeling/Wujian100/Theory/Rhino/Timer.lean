import Wujian100.Core.Rhino.Timer
import Wujian100.Library.Klist
import Wujian100.Library.Run

/-!
# The Timer List

A timer goes on the list in front of the first one whose `match` is further from
`g_timer_count`, as a difference without sign. Of a timer that is overdue that
difference is nearly `2 ^ 64`, so every timer goes in front of it, and the task
then waits for the wrong one. As long as nothing is put on the list while another
timer on it is overdue, the list is sorted.

## Main definitions

* `Clear`: No other timer on the list is overdue, and the time does not wrap.
* `InTime`: A step that puts a timer on the list finds it clear.
* `TimerInv`: The list is sorted, and it is the list of the active timers.

## Theorems

* `arm_list`: A timer put on a clear list leaves it sorted.
* `cmdProc_inv`, `cbTurn_inv`: The commands, and one turn of `timer_cb_proc`.
* `timers_sorted`: Every run.
* `overdue_passed`: A timer goes in front of one that is overdue.
-/

namespace Wujian100

namespace Rhino

/-! ## Times -/

theorem timeSub_of_le {a b : Nat} (hab : b ≤ a) (ha : a < 2 ^ 64) : timeSub a b = a - b := by
  unfold timeSub
  rw [show a + (2 ^ 64 - b) = a - b + 2 ^ 64 by omega, Nat.add_mod_right, Nat.mod_eq_of_lt (by omega)]

/-- What is not due lies ahead, unless it is overdue by half the range. -/
theorem lt_of_not_due {m c : Nat} (hc : c < 2 ^ 64) (hnear : c < m + 2 ^ 63)
    (h : due m c = false) : c < m := by
  by_contra hle
  have hsub : timeSub m c = 0 ∨ 2 ^ 63 ≤ timeSub m c := by
    unfold timeSub
    by_cases heq : m = c
    · left
      rw [heq, show c + (2 ^ 64 - c) = 2 ^ 64 by omega, Nat.mod_self]
    · right
      rw [Nat.mod_eq_of_lt (by omega)]
      omega
  unfold due at h
  simp only [Bool.or_eq_false_iff, decide_eq_false_iff_not] at h
  rcases hsub with hsub | hsub
  · exact h.1 hsub
  · exact h.2 hsub

/-! ## The invariant -/

variable {T : Type}

/-- The list is sorted, and each timer knows whether it is on it. -/
structure ListInv (s : TimerTask T) : Prop where
  nodup : s.head.Nodup
  onList : ∀ t, t ∈ s.head ↔ (s.timer t).onList = true
  sorted : s.head.Pairwise fun a b => (s.timer a).match_ ≤ (s.timer b).match_
  range : ∀ t ∈ s.head, (s.timer t).match_ < 2 ^ 64

/-- The timers on the list are active. -/
structure ActiveInv (s : TimerTask T) : Prop extends ListInv s where
  active : ∀ t, (s.timer t).onList = true → (s.timer t).active = true

/-- The walk is on the list, and a task that waits waits for nothing that is
    due. -/
structure TimerInv (s : TimerTask T) : Prop extends ActiveInv s where
  count : s.count < 2 ^ 64
  walk : ∀ t, s.pc = .cb (some t) → t ∈ s.head
  ahead : s.pc = .wait → ∀ t ∈ s.head, s.tick < (s.timer t).match_

/-- Nothing but `t` on the list is overdue, and `ticks` from now is a
    `sys_time_t`. -/
def Clear (s : TimerTask T) (t : T) (count ticks : Nat) : Prop :=
  count + ticks < 2 ^ 64 ∧ ∀ u ∈ s.head, u ≠ t → count ≤ (s.timer u).match_

/-- The list is clear for the timer that the walk puts back on it. -/
def TurnInTime (s : TimerTask T) : TimerPc T → Prop
  | .cb (some t) =>
      due (s.timer t).match_ s.count = true → 0 < (s.timer t).roundTicks →
        Clear s t s.count (s.timer t).roundTicks
  | _ => True

/-- What puts a timer on the list finds it clear, and the task looks at the list
    before half the range has passed. -/
def InTime (s : TimerTask T) : TimerAct T → Prop
  | .command (.start t) tick =>
      (s.timer t).isTimer = true → (s.timer t).active = false →
        Clear s t tick (s.timer t).initCount
  | .command (.argChgAuto t _) tick =>
      (s.timer t).isTimer = true → Clear s t tick (s.timer t).initCount
  | .turn => TurnInTime s s.pc
  | .look tick => ∀ t ∈ s.head, tick < (s.timer t).match_ + 2 ^ 63
  | _ => True

section List

variable {s : TimerTask T} {t : T}

/-- A change that leaves the list, the times and the marks alone. -/
theorem ListInv.of_timer (h : ListInv s) {s' : TimerTask T} (hhead : s'.head = s.head)
    (hon : ∀ u, (s'.timer u).onList = (s.timer u).onList)
    (hmatch : ∀ u ∈ s.head, (s'.timer u).match_ = (s.timer u).match_) : ListInv s' := by
  refine ⟨by rw [hhead]; exact h.nodup, ?_, ?_, ?_⟩
  · intro u
    rw [hhead, hon u]
    exact h.onList u
  · rw [hhead]
    refine h.sorted.imp_of_mem ?_
    intro a b ha hb hab
    rw [hmatch a ha, hmatch b hb]
    exact hab
  · intro u hu
    rw [hhead] at hu
    rw [hmatch u hu]
    exact h.range u hu

variable [DecidableEq T]

theorem modify_self (s : TimerTask T) (t : T) (f : Ktimer → Ktimer) :
    (s.modify t f).timer t = f (s.timer t) :=
  Function.update_self ..

theorem modify_of_ne (s : TimerTask T) {t u : T} (h : u ≠ t) (f : Ktimer → Ktimer) :
    (s.modify t f).timer u = s.timer u :=
  Function.update_of_ne h ..

/-- Changing what the list does not depend on. -/
theorem modify_list (h : ListInv s) {f : Ktimer → Ktimer}
    (hon : (f (s.timer t)).onList = (s.timer t).onList)
    (hmatch : t ∈ s.head → (f (s.timer t)).match_ = (s.timer t).match_) :
    ListInv (s.modify t f) := by
  refine h.of_timer rfl ?_ ?_
  · intro u
    by_cases hu : u = t
    · rw [hu, modify_self, hon]
    · rw [modify_of_ne s hu]
  · intro u hmem
    by_cases hu : u = t
    · subst hu
      rw [modify_self, hmatch hmem]
    · rw [modify_of_ne s hu]

/-- A timer taken off the list. -/
theorem rm_list (h : ListInv s) :
    ListInv (s.timerListRm t) ∧ (s.timerListRm t).head = s.head.erase t := by
  unfold TimerTask.timerListRm
  by_cases hon : (s.timer t).onList = true
  · rw [if_pos hon]
    refine ⟨⟨h.nodup.erase t, ?_, ?_, ?_⟩, rfl⟩
    · intro u
      change u ∈ s.head.erase t ↔ _
      by_cases hu : u = t
      · rw [hu, modify_self]
        simp [h.nodup.not_mem_erase]
      · rw [modify_of_ne _ hu, List.mem_erase_of_ne hu]
        exact h.onList u
    · refine (h.sorted.sublist List.erase_sublist).imp_of_mem ?_
      intro a b ha hb hab
      rw [modify_of_ne _ (fun e => h.nodup.not_mem_erase (e ▸ ha)),
        modify_of_ne _ (fun e => h.nodup.not_mem_erase (e ▸ hb))]
      exact hab
    · intro u hu
      rw [modify_of_ne _ (fun e => h.nodup.not_mem_erase (e ▸ hu))]
      exact h.range u (List.mem_of_mem_erase hu)
  · rw [if_neg hon]
    have hnot : t ∉ s.head := fun hmem => hon ((h.onList t).mp hmem)
    exact ⟨h, (List.erase_of_not_mem hnot).symm⟩

/-- The walk of `timer_list_pri_insert`, with nothing overdue. -/
theorem insert_list (h : ListInv s) (hnot : t ∉ s.head)
    (hover : ∀ u ∈ s.head, s.count ≤ (s.timer u).match_) {s' : TimerTask T}
    (hhead : s'.head = s.head) (hcount : s'.count = s.count)
    (hne : ∀ u, u ≠ t → s'.timer u = s.timer u) (hon : (s'.timer t).onList = true)
    (hmatch : (s'.timer t).match_ = s.count + (s'.timer t).remain)
    (hwrap : (s'.timer t).match_ < 2 ^ 64) : ListInv (s'.timerListPriInsert t) := by
  have hkeep : ∀ u ∈ s.head, s'.timer u = s.timer u := fun u hu => hne u fun he => hnot (he ▸ hu)
  unfold TimerTask.timerListPriInsert
  rw [hhead, hcount]
  refine ⟨nodup_orderedInsert.mpr ⟨hnot, h.nodup⟩, ?_, ?_, ?_⟩
  · intro u
    rw [List.mem_orderedInsert]
    change _ ↔ (s'.timer u).onList = true
    by_cases hu : u = t
    · simp [hu, hon]
    · rw [hne u hu, ← h.onList u]
      simp [hu]
  · refine pairwise_orderedInsert (h.sorted.imp_of_mem ?_) ?_
    · intro a b ha hb hab
      rw [hkeep a ha, hkeep b hb]
      exact hab
    · -- Without a wrap, the difference compares the times.
      intro y hy
      have hle := hover y hy
      rw [hkeep y hy, timeSub_of_le hle (h.range y hy), hmatch]
      omega
  · intro u hu
    change (s'.timer u).match_ < 2 ^ 64
    rcases (List.mem_orderedInsert _).mp hu with rfl | hu
    · exact hwrap
    · rw [hkeep u hu]
      exact h.range u hu

/-- A timer put on a clear list. -/
theorem arm_list (h : ListInv s) (hnot : t ∉ s.head) {ticks : Nat}
    (hclear : Clear s t s.count ticks) : ListInv (s.arm t ticks) := by
  rcases hclear with ⟨hwrap, hover⟩
  unfold TimerTask.arm
  refine insert_list h hnot (fun u hu => hover u hu fun he => hnot (he ▸ hu)) rfl rfl
    (fun u hu => modify_of_ne s hu _) ?_ ?_ ?_
  · rw [modify_self]
  · rw [modify_self]
    exact Nat.mod_eq_of_lt hwrap
  · rw [modify_self]
    exact Nat.mod_lt _ (by decide)

end List

/-! ## Commands -/

section Commands

variable {s : TimerTask T} {t : T}

/-- What a command to `t` that puts nothing on the list leaves alone. -/
structure KeepsOthers (s s' : TimerTask T) (t : T) : Prop where
  head : ∀ u ∈ s'.head, u ∈ s.head
  others : ∀ u, u ≠ t → s'.timer u = s.timer u
  initCount : (s'.timer t).initCount = (s.timer t).initCount
  isTimer : (s'.timer t).isTimer = (s.timer t).isTimer
  count : s'.count = s.count

theorem KeepsOthers.refl (s : TimerTask T) (t : T) : KeepsOthers s s t :=
  ⟨fun _ hu => hu, fun _ _ => rfl, rfl, rfl, rfl⟩

theorem KeepsOthers.trans {s' s'' : TimerTask T} (h : KeepsOthers s s' t)
    (h' : KeepsOthers s' s'' t) : KeepsOthers s s'' t :=
  ⟨fun u hu => h.head u (h'.head u hu), fun u hu => (h'.others u hu).trans (h.others u hu),
    h'.initCount.trans h.initCount, h'.isTimer.trans h.isTimer, h'.count.trans h.count⟩

theorem Clear.of_keeps {s' : TimerTask T} {ticks : Nat} (h : KeepsOthers s s' t)
    (hclear : Clear s t s.count ticks) : Clear s' t s'.count ticks := by
  refine ⟨by rw [h.count]; exact hclear.1, ?_⟩
  intro u hu hne
  rw [h.count, h.others u hne]
  exact hclear.2 u (h.head u hu) hne

/-- Only the list and the timers matter. -/
theorem ActiveInv.of_eq (h : ActiveInv s) {s' : TimerTask T} (hhead : s'.head = s.head)
    (htimer : s'.timer = s.timer) : ActiveInv s' := by
  refine ⟨h.toListInv.of_timer hhead ?_ ?_, ?_⟩
  · intro u
    rw [htimer]
  · intro u _
    rw [htimer]
  · intro u
    rw [htimer]
    exact h.active u

/-- What is not active is not on the list. -/
theorem ActiveInv.not_mem (h : ActiveInv s) (ht : (s.timer t).active = false) : t ∉ s.head := by
  intro hmem
  rw [h.active t ((h.onList t).mp hmem)] at ht
  cases ht

variable [DecidableEq T]

theorem KeepsOthers.modify (s : TimerTask T) (t : T) {f : Ktimer → Ktimer}
    (hinit : (f (s.timer t)).initCount = (s.timer t).initCount)
    (htype : (f (s.timer t)).isTimer = (s.timer t).isTimer) : KeepsOthers s (s.modify t f) t := by
  refine ⟨fun _ hu => hu, fun u hu => modify_of_ne s hu f, ?_, ?_, rfl⟩
  · rw [modify_self, hinit]
  · rw [modify_self, htype]

theorem KeepsOthers.rm (s : TimerTask T) (t : T) : KeepsOthers s (s.timerListRm t) t := by
  unfold TimerTask.timerListRm
  split_ifs
  · refine ⟨fun _ hu => List.mem_of_mem_erase hu, fun u hu => modify_of_ne _ hu _, ?_, ?_, rfl⟩
    · rw [modify_self]
    · rw [modify_self]
  · exact .refl s t

theorem KeepsOthers.stop (s : TimerTask T) (t : T) : KeepsOthers s (s.cmdProc (.stop t)) t := by
  simp only [TimerTask.cmdProc]
  split_ifs
  · exact .refl s t
  · exact .refl s t
  · exact (KeepsOthers.rm s t).trans (.modify _ t rfl rfl)

theorem KeepsOthers.argChg (s : TimerTask T) (t : T) (arg : Nat) :
    KeepsOthers s (s.cmdProc (.argChg t arg)) t := by
  simp only [TimerTask.cmdProc]
  split_ifs
  · exact .refl s t
  · exact .refl s t
  · exact .modify s t rfl rfl

/-- A change of a timer that is not active. -/
theorem modify_active (h : ActiveInv s) (ht : (s.timer t).active = false) {f : Ktimer → Ktimer}
    (hon : (f (s.timer t)).onList = (s.timer t).onList) : ActiveInv (s.modify t f) := by
  have hnot := h.not_mem ht
  refine ⟨modify_list h.toListInv hon fun hmem => absurd hmem hnot, ?_⟩
  intro u hu
  by_cases hut : u = t
  · rw [hut, modify_self, hon] at hu
    exact absurd ((h.onList t).mpr hu) hnot
  · rw [modify_of_ne s hut] at hu ⊢
    exact h.active u hu

/-- A timer that is done. -/
theorem retire_active (h : ActiveInv s) :
    ActiveInv ((s.timerListRm t).modify t fun k => { k with active := false }) := by
  rcases @rm_list _ s t _ h.toListInv with ⟨hlist, hhead⟩
  refine ⟨modify_list hlist rfl fun _ => rfl, ?_⟩
  intro u hu
  by_cases hut : u = t
  · rw [hut, modify_self] at hu
    have hmem := (hlist.onList t).mpr hu
    rw [hhead] at hmem
    exact absurd hmem h.nodup.not_mem_erase
  · rw [modify_of_ne _ hut, (KeepsOthers.rm s t).others u hut] at hu ⊢
    exact h.active u hu

theorem stop_active (h : ActiveInv s) : ActiveInv (s.cmdProc (.stop t)) := by
  simp only [TimerTask.cmdProc]
  split_ifs
  · exact h
  · exact h
  · exact retire_active h

theorem arm_others (s : TimerTask T) {u : T} (hu : u ≠ t) (ticks : Nat) :
    (s.arm t ticks).timer u = s.timer u :=
  Function.update_of_ne hu _ _

theorem arm_self_active (s : TimerTask T) (t : T) (ticks : Nat) :
    ((s.arm t ticks).timer t).active = (s.timer t).active := by
  change (Function.update s.timer t _ t).active = _
  rw [Function.update_self]

theorem start_active (h : ActiveInv s)
    (hclear : (s.timer t).isTimer = true → (s.timer t).active = false →
      Clear s t s.count (s.timer t).initCount) : ActiveInv (s.cmdProc (.start t)) := by
  simp only [TimerTask.cmdProc]
  split_ifs with htype hact
  · exact h
  · exact h
  · have htype' : (s.timer t).isTimer = true := by simpa using htype
    have hact' : (s.timer t).active = false := by simpa using hact
    have hlist := arm_list h.toListInv (h.not_mem hact') (hclear htype' hact')
    refine ⟨modify_list hlist rfl fun _ => rfl, ?_⟩
    intro u hu
    by_cases hut : u = t
    · rw [hut, modify_self]
    · rw [modify_of_ne _ hut, arm_others s hut] at hu ⊢
      exact h.active u hu

theorem argChg_active (h : ActiveInv s) (arg : Nat) : ActiveInv (s.cmdProc (.argChg t arg)) := by
  simp only [TimerTask.cmdProc]
  split_ifs with _ hact
  · exact h
  · exact h
  · exact modify_active h (by simpa using hact) rfl

/-- One command, at the tick it was received. -/
theorem timerCmdProc_active (h : ActiveInv s) {c : TimerCmd T}
    (htime : InTime s (.command c s.count)) : ActiveInv (s.timerCmdProc c) := by
  cases c with
  | start t => exact start_active h htime
  | stop t => exact stop_active h
  | chg t first round =>
      simp only [TimerTask.timerCmdProc, TimerTask.cmdProc]
      split_ifs with _ _ hact
      · exact h
      · exact h
      · exact h
      · exact modify_active h (by simpa using hact) rfl
  | argChg t arg => exact argChg_active h arg
  | del t =>
      simp only [TimerTask.timerCmdProc, TimerTask.cmdProc]
      split_ifs with _ hact
      · exact h
      · exact h
      · exact h
      · exact modify_active h (by simpa using hact) rfl
  | dynDel t =>
      simp only [TimerTask.timerCmdProc, TimerTask.cmdProc]
      split_ifs with _ hact
      · exact h
      · exact h
      · exact h
      · exact modify_active h (by simpa using hact) rfl
  | argChgAuto t arg =>
      -- The timer is off the list when it is started again.
      simp only [TimerTask.timerCmdProc]
      have hkeeps := (KeepsOthers.stop s t).trans (.argChg _ t arg)
      refine start_active (argChg_active (stop_active h) arg) ?_
      intro htype _
      rw [hkeeps.isTimer] at htype
      rw [hkeeps.initCount]
      exact (htime htype).of_keeps hkeeps

end Commands

/-! ## The walk -/

section Walk

variable [DecidableEq T] {s : TimerTask T} {t : T}

/-- What a pointer of the list points to is another timer on the list. -/
theorem nextOf_mem {l : List T} {u : T} (hl : l.Nodup) (h : TimerTask.nextOf l t = some u) :
    u ∈ l ∧ u ≠ t := by
  unfold TimerTask.nextOf at h
  induction l with
  | nil => exact absurd h (by simp)
  | cons a l ih =>
      rw [List.nodup_cons] at hl
      by_cases ha : a = t
      · rw [List.dropWhile_cons_of_neg (by simp [ha]), List.tail_cons] at h
        have hu : u ∈ l := List.mem_of_mem_head? h
        refine ⟨List.mem_cons_of_mem _ hu, ?_⟩
        intro hut
        exact hl.1 (ha.trans hut.symm ▸ hu)
      · rw [List.dropWhile_cons_of_pos (by simp [ha])] at h
        rcases ih hl.2 h with ⟨hu, hne⟩
        exact ⟨List.mem_cons_of_mem _ hu, hne⟩

theorem rm_self_active (s : TimerTask T) (t : T) :
    ((s.timerListRm t).timer t).active = (s.timer t).active := by
  unfold TimerTask.timerListRm
  split_ifs
  · rw [modify_self]
  · rfl

/-- A periodic timer, taken off the list and put on it again. -/
theorem rearm_active (h : ActiveInv s) (ht : t ∈ s.head) {ticks : Nat}
    (hclear : Clear s t s.count ticks) : ActiveInv ((s.timerListRm t).arm t ticks) := by
  rcases @rm_list _ s t _ h.toListInv with ⟨hlist, hhead⟩
  have hkeeps := KeepsOthers.rm s t
  refine ⟨arm_list hlist ?_ (hclear.of_keeps hkeeps), ?_⟩
  · rw [hhead]
    exact h.nodup.not_mem_erase
  · intro u hu
    by_cases hut : u = t
    · rw [hut, arm_self_active, rm_self_active]
      exact h.active t ((h.onList t).mp ht)
    · rw [arm_others _ hut, hkeeps.others u hut] at hu ⊢
      exact h.active u hu

/-- One turn of `timer_cb_proc`. -/
theorem cbTurn_inv (h : TimerInv s) (hpc : s.pc = .cb (some t)) (htime : InTime s .turn) :
    TimerInv (s.cbTurn t) := by
  have hmem := h.walk t hpc
  have hcalls : ActiveInv { s with calls := s.calls ++ [(t, (s.timer t).cbArg)] } :=
    h.toActiveInv.of_eq rfl rfl
  unfold TimerTask.cbTurn
  by_cases hdue : due (s.timer t).match_ s.count = true
  · rw [if_pos hdue]
    dsimp only
    generalize hs : { s with calls := s.calls ++ [(t, (s.timer t).cbArg)] } = s₁ at hcalls ⊢
    have hhead : s₁.head = s.head := by rw [← hs]
    have hcount : s₁.count = s.count := by rw [← hs]
    have hkeeps := KeepsOthers.rm s₁ t
    rcases @rm_list _ s₁ t _ hcalls.toListInv with ⟨_, hrm⟩
    by_cases hround : (s.timer t).roundTicks > 0
    · rw [if_pos hround]
      have hclear : Clear s₁ t s₁.count (s.timer t).roundTicks := by
        have hturn : TurnInTime s s.pc := htime
        rw [hpc] at hturn
        rw [← hs]
        exact hturn hdue hround
      have hact := rearm_active hcalls (hhead ▸ hmem) hclear
      refine ⟨hact.of_eq rfl rfl, ?_, ?_, ?_⟩
      · exact (show _ = s.count from hkeeps.count.trans hcount) ▸ h.count
      · intro u hu
        simp only [TimerPc.cb.injEq] at hu
        exact (nextOf_mem hact.nodup hu).1
      · intro hwait
        cases hwait
    · rw [if_neg hround]
      -- A timer that is not periodic leaves the list.
      have hact := @retire_active _ s₁ t _ hcalls
      refine ⟨hact.of_eq rfl rfl, ?_, ?_, ?_⟩
      · exact (show _ = s.count from hkeeps.count.trans hcount) ▸ h.count
      · intro u hu
        simp only [TimerPc.cb.injEq] at hu
        rcases nextOf_mem h.nodup hu with ⟨hin, hne⟩
        change u ∈ (s₁.timerListRm t).head
        rw [hrm, hhead, List.mem_erase_of_ne hne]
        exact hin
      · intro hwait
        cases hwait
  · rw [if_neg hdue]
    refine ⟨h.toActiveInv.of_eq rfl rfl, h.count, ?_, ?_⟩
    · intro u hu
      cases hu
    · intro hwait
      cases hwait

end Walk

/-! ## Runs -/

section Runs

/-- The walk starts at the head. -/
theorem TimerInv.of_cb_head {s : TimerTask T} (h : ActiveInv s) (hcount : s.count < 2 ^ 64) :
    TimerInv { s with pc := .cb s.head.head? } := by
  refine ⟨h.of_eq rfl rfl, hcount, ?_, ?_⟩
  · intro t ht
    simp only [TimerPc.cb.injEq] at ht
    exact List.mem_of_mem_head? ht
  · intro hwait
    cases hwait

theorem TimerInv.of_pc {s : TimerTask T} (h : ActiveInv s) (hcount : s.count < 2 ^ 64)
    (hcb : ∀ q, s.pc ≠ .cb q) (hwait : s.pc ≠ .wait) : TimerInv s :=
  ⟨h, hcount, fun _ ht => absurd ht (hcb _), fun ht => absurd ht hwait⟩

variable [DecidableEq T]

theorem timerListRm_count (s : TimerTask T) (t : T) : (s.timerListRm t).count = s.count := by
  unfold TimerTask.timerListRm
  split_ifs
  · rfl
  · rfl

theorem cmdProc_count (s : TimerTask T) (c : TimerCmd T) : (s.cmdProc c).count = s.count := by
  cases c with
  | stop t =>
      unfold TimerTask.cmdProc
      dsimp only
      split_ifs
      · rfl
      · rfl
      · exact timerListRm_count s t
  | argChgAuto t arg => rfl
  | _ =>
      unfold TimerTask.cmdProc
      dsimp only
      split_ifs <;> rfl

theorem timerCmdProc_count (s : TimerTask T) (c : TimerCmd T) :
    (s.timerCmdProc c).count = s.count := by
  cases c with
  | argChgAuto t arg =>
      simp only [TimerTask.timerCmdProc]
      rw [cmdProc_count, cmdProc_count, cmdProc_count]
  | _ => exact cmdProc_count _ _

theorem command_inv {s s' : TimerTask T} {c : TimerCmd T} {tick : Nat} (h : TimerInv s)
    (htime : InTime s (.command c tick)) (hstep : s.step (.command c tick) = some s') :
    TimerInv s' := by
  simp only [TimerTask.step] at hstep
  by_cases hreads : s.reads tick ∧ c.passes = true
  · rw [if_pos hreads] at hstep
    have hact : ActiveInv ({ s with count := tick, tick := tick }.timerCmdProc c) := by
      have hact : ActiveInv { s with count := tick, tick := tick } := h.toActiveInv.of_eq rfl rfl
      refine timerCmdProc_active hact ?_
      cases c <;> exact htime
    have hcount := timerCmdProc_count { s with count := tick, tick := tick } c
    have hlt : ({ s with count := tick, tick := tick }.timerCmdProc c).count < 2 ^ 64 := by
      rw [hcount]
      exact hreads.1.2
    generalize { s with count := tick, tick := tick }.timerCmdProc c = s₁ at *
    cases hpc : s.pc with
    | recv =>
        rw [hpc] at hstep
        simp only [Option.some.injEq] at hstep
        rw [← hstep]
        exact .of_pc (hact.of_eq rfl rfl) hlt (by simp) (by simp)
    | wait =>
        rw [hpc] at hstep
        simp only [Option.some.injEq] at hstep
        rw [← hstep]
        exact .of_cb_head hact hlt
    | look =>
        rw [hpc] at hstep
        cases hstep
    | cb q =>
        rw [hpc] at hstep
        cases hstep
  · rw [if_neg hreads] at hstep
    cases hstep

theorem look_inv {s s' : TimerTask T} {tick : Nat} (h : TimerInv s)
    (htime : InTime s (.look tick)) (hstep : s.step (.look tick) = some s') : TimerInv s' := by
  simp only [TimerTask.step] at hstep
  by_cases hpc : s.pc = .look
  · rw [if_pos hpc] at hstep
    cases hhead : s.head with
    | nil =>
        rw [hhead] at hstep
        simp only [Option.some.injEq] at hstep
        rw [← hstep]
        exact .of_pc (h.toActiveInv.of_eq hhead.symm rfl) h.count (by simp) (by simp)
    | cons t rest =>
        rw [hhead] at hstep
        dsimp only at hstep
        have hmem : t ∈ s.head := by
          rw [hhead]
          exact List.mem_cons_self
        by_cases hreads : s.reads tick
        · rw [if_pos hreads] at hstep
          by_cases hdue : due (s.timer t).match_ tick = false
          · rw [if_pos hdue, Option.some.injEq] at hstep
            rw [← hstep]
            refine ⟨h.toActiveInv.of_eq hhead.symm rfl, h.count, by simp, ?_⟩
            -- The head is not due, and nothing is before it.
            intro _ u hu
            have hahead := lt_of_not_due hreads.2 (htime t hmem) hdue
            have hsorted := h.sorted
            rw [hhead, List.pairwise_cons] at hsorted
            change u ∈ t :: rest at hu
            rcases List.mem_cons.mp hu with rfl | hu
            · exact hahead
            · exact hahead.trans_le (hsorted.1 u hu)
          · rw [if_neg hdue, Option.some.injEq] at hstep
            rw [← hstep]
            refine ⟨h.toActiveInv.of_eq hhead.symm rfl, hreads.2, ?_, by simp⟩
            intro u hu
            simp only [TimerPc.cb.injEq, Option.some.injEq] at hu
            rw [← hu]
            exact List.mem_cons_self
        · rw [if_neg hreads] at hstep
          cases hstep
  · rw [if_neg hpc] at hstep
    cases hstep

/-- A timer that is created is not on the list. -/
theorem create_inv {s : TimerTask T} {t : T} (h : TimerInv s) (ht : (s.timer t).onList = false)
    (first round arg : Nat) (isStatic : Bool) :
    TimerInv (s.timerCreate t first round arg isStatic).2 := by
  have hnot : t ∉ s.head := fun hmem => absurd ((h.onList t).mp hmem) (by simp [ht])
  unfold TimerTask.timerCreate
  split_ifs
  · exact h
  · exact h
  · exact h
  · dsimp only
    refine ⟨⟨modify_list h.toListInv ht.symm fun hmem => absurd hmem hnot, ?_⟩, h.count, h.walk, ?_⟩
    · intro u hu
      by_cases hut : u = t
      · rw [hut, modify_self] at hu
        cases hu
      · rw [modify_of_ne s hut] at hu ⊢
        exact h.active u hu
    · intro hwait u hu
      have hut : u ≠ t := fun he => hnot (he ▸ hu)
      rw [modify_of_ne s hut]
      exact h.ahead hwait u hu

/-- One step. -/
theorem step_timerInv (s : TimerTask T) (a : TimerAct T) (s' : TimerTask T) (h : TimerInv s)
    (htime : InTime s a) (hstep : s.step a = some s') : TimerInv s' := by
  cases a with
  | command c tick => exact command_inv h htime hstep
  | timeout tick =>
      simp only [TimerTask.step] at hstep
      by_cases hc : s.pc = .wait ∧ s.reads tick
      · rw [if_pos hc, Option.some.injEq] at hstep
        rw [← hstep]
        exact .of_cb_head (s := { s with count := tick, tick := tick })
          (h.toActiveInv.of_eq rfl rfl) hc.2.2
      · rw [if_neg hc] at hstep
        cases hstep
  | look tick => exact look_inv h htime hstep
  | turn =>
      simp only [TimerTask.step] at hstep
      split at hstep
      · rw [Option.some.injEq] at hstep
        rw [← hstep]
        exact .of_pc (h.toActiveInv.of_eq rfl rfl) h.count (by simp) (by simp)
      · rename_i t hpc
        rw [Option.some.injEq] at hstep
        rw [← hstep]
        exact cbTurn_inv h hpc htime
      · cases hstep
  | create t first round arg isStatic =>
      simp only [TimerTask.step] at hstep
      by_cases ht : (s.timer t).onList = false
      · rw [if_pos ht, Option.some.injEq] at hstep
        rw [← hstep]
        exact create_inv h ht first round arg isStatic
      · rw [if_neg ht] at hstep
        cases hstep

/-- In every run of the timer task in which nothing is put on the list while
    another timer on it is overdue, the list is sorted by `match`, and when the task
    waits, nothing on the list is due before the head or at the tick it read. -/
theorem timers_sorted (tick : Nat) (acts : List (TimerAct T))
    (htime : Run.Along TimerTask.step InTime (.start tick) acts) (s : TimerTask T)
    (hrun : Run.run TimerTask.step (.start tick) acts = some s) :
    (s.head.Pairwise fun a b => (s.timer a).match_ ≤ (s.timer b).match_) ∧
      (s.pc = .wait → ∀ t ∈ s.head.head?, ∀ u ∈ s.head,
        (s.timer t).match_ ≤ (s.timer u).match_ ∧ s.tick < (s.timer u).match_) := by
  have hstart : TimerInv (.start tick : TimerTask T) := by
    refine .of_pc ⟨⟨List.nodup_nil, ?_, List.Pairwise.nil, ?_⟩, ?_⟩ ?_ ?_ ?_
    all_goals simp [TimerTask.start]
  have h := Run.run_inv step_timerInv acts _ s hstart htime hrun
  refine ⟨h.sorted, ?_⟩
  intro hwait t ht u hu
  refine ⟨?_, h.ahead hwait u hu⟩
  have hsorted := h.sorted
  cases hhead : s.head with
  | nil =>
      rw [hhead] at hu
      cases hu
  | cons a rest =>
      rw [hhead] at ht hu hsorted
      simp only [List.head?_cons, Option.mem_def, Option.some.injEq] at ht
      rw [← ht]
      rcases List.mem_cons.mp hu with rfl | hu
      · exact le_rfl
      · exact (List.pairwise_cons.mp hsorted).1 u hu

end Runs

instance [DecidableEq T] (s : TimerTask T) (t : T) (count ticks : Nat) :
    Decidable (Clear s t count ticks) :=
  inferInstanceAs (Decidable (_ ∧ ∀ u ∈ s.head, u ≠ t → count ≤ (s.timer u).match_))

instance [DecidableEq T] (s : TimerTask T) : ∀ pc, Decidable (TurnInTime s pc)
  | .cb (some t) =>
      inferInstanceAs (Decidable (_ → _ → Clear s t s.count (s.timer t).roundTicks))
  | .cb none => isTrue trivial
  | .recv => isTrue trivial
  | .look => isTrue trivial
  | .wait => isTrue trivial

instance [DecidableEq T] (s : TimerTask T) : ∀ a, Decidable (InTime s a)
  | .command (.start t) tick =>
      inferInstanceAs (Decidable (_ → _ → Clear s t tick (s.timer t).initCount))
  | .command (.argChgAuto t _) tick =>
      inferInstanceAs (Decidable (_ → Clear s t tick (s.timer t).initCount))
  | .command (.stop _) _ => isTrue trivial
  | .command (.chg _ _ _) _ => isTrue trivial
  | .command (.argChg _ _) _ => isTrue trivial
  | .command (.del _) _ => isTrue trivial
  | .command (.dynDel _) _ => isTrue trivial
  | .timeout _ => isTrue trivial
  | .look tick => inferInstanceAs (Decidable (∀ t ∈ s.head, tick < (s.timer t).match_ + 2 ^ 63))
  | .turn => inferInstanceAs (Decidable (TurnInTime s s.pc))
  | .create _ _ _ _ _ => isTrue trivial

/-- A timer due in 5 ticks is started at tick 0 and the task waits for it; at tick
    2 a timer due in 20 is started. -/
def twoTimers : List (TimerAct Bool) :=
  [.create false 5 0 0 true, .create true 20 0 0 true, .command (.start false) 0, .look 0,
    .command (.start true) 2, .turn, .look 2]

theorem timers_sorted_two :
    ∃ s, Run.run TimerTask.step (.start 0) twoTimers = some s ∧
      (s.head.Pairwise fun a b => (s.timer a).match_ ≤ (s.timer b).match_) ∧
      (s.pc = .wait → ∀ t ∈ s.head.head?, ∀ u ∈ s.head,
        (s.timer t).match_ ≤ (s.timer u).match_ ∧ s.tick < (s.timer u).match_) := by
  have hsome : (Run.run TimerTask.step (.start 0) twoTimers).isSome = true := by decide
  rcases Option.isSome_iff_exists.mp hsome with ⟨s, hs⟩
  exact ⟨s, hs, timers_sorted 0 twoTimers (by decide) s hs⟩

/-- The command to start a timer due in 3 ticks comes at tick 10, when the timer due
    at 5 was not called yet: the list is 13, 5, and the task waits for the first. -/
theorem overdue_passed :
    (Run.run TimerTask.step (.start 0)
      [.create false 5 0 0 true, .create true 3 0 0 true, .command (.start false) 0, .look 0,
        .command (.start true) 10, .turn, .look 10]).map
        (fun s => (s.head.map fun t => (s.timer t).match_, s.pc, s.tick))
      = some ([13, 5], .wait, 10) := by
  decide

end Rhino

end Wujian100
