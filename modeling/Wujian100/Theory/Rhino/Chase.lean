import Wujian100.Theory.Rhino.Priority
import Mathlib.Data.Fintype.Card
import Mathlib.Data.Fintype.Option
import Mathlib.Logic.Relation

/-!
# The Loop of `task_pri_change`

The loop goes from a task to the owner of the mutex the task waits for, and tasks that
wait for each other are a ring. That it comes to an end is up to the priorities.

* A turn that raises is followed by turns that raise only, all to one priority. A task
  that has it is not raised again.
* A turn that lowers is followed by turns that lower tasks of one and the same priority,
  until one raises. A task that was lowered does not have that priority any more.

So no task has more than two turns. The state is any in which the pointers that are
followed are there; who waits for whom, and with which priority, is left open. They are
there after every run that deletes no task a second time which leads to a mutex in use.
Where one is, `mutex_list` of a mutex can come to point to the mutex itself, and
`mutex_pri_look` does not get past it.

## Main definitions

* `Graphed`: The pointers that the loop follows are there.
* `Kernel.waitsOn`: A task waits for the mutex of another.
* `Kernel.tied`: The loop ends at a ready task that cannot be taken from its list.
* `Kernel.Ends`: So many turns are enough.

## Theorems

* `ends_of_next`: A turn ends the loop, or the next ones do.
* `raise_ends`, `lower_ends`: The two kinds of turns.
* `task_pri_change_ends`: The loop ends where the pointers are there.
* `run_graphed`: They are there after a run.
* `pri_changes_end`: The loop ends after a run.
* `relockRun_rings`, `pri_look_hangs`: A run after which it does not.
-/

namespace Wujian100

namespace Rhino

/-! ## The turn of a task that waits -/

section Turns

variable {T O : Type} [DecidableEq T] [DecidableEq O] {k : Kernel T O} {t : T} {p : Nat}

/-- The kernel after the turn of a task that waits. -/
def Kernel.turned (k : Kernel T O) (t : T) (p : Nat) : Kernel T O :=
  (k.modTask t fun x => { x with prio := p }).pendListReorder t

theorem turned_task (k : Kernel T O) (t : T) (p : Nat) :
    (k.turned t p).task = Function.update k.task t { k.task t with prio := p } := by
  unfold Kernel.turned
  rw [pendListReorder_task]
  rfl

theorem turned_prio_self : ((k.turned t p).task t).prio = p := by
  rw [turned_task, Function.update_self]

theorem turned_prio_of_ne {u : T} (h : u ≠ t) :
    ((k.turned t p).task u).prio = (k.task u).prio := by
  rw [turned_task, Function.update_of_ne h]

/-- Apart from its priority a task is what it was. -/
theorem turned_task_same (u : T) :
    ((k.turned t p).task u).state = (k.task u).state ∧
      ((k.turned t p).task u).blkObj = (k.task u).blkObj ∧
      ((k.turned t p).task u).mutexList = (k.task u).mutexList := by
  by_cases h : u = t
  · rw [h, turned_task, Function.update_self]
    exact ⟨rfl, rfl, rfl⟩
  · rw [turned_task, Function.update_of_ne h]
    exact ⟨rfl, rfl, rfl⟩

theorem turned_live {u : T} : (k.turned t p).live u ↔ k.live u := by
  unfold Kernel.live Ktask.live
  rw [(turned_task_same u).1]

theorem turned_waits (u : T) : ((k.turned t p).task u).waits = (k.task u).waits := by
  unfold Ktask.waits
  rw [(turned_task_same u).1, (turned_task_same u).2.1]

/-- Nothing else changes but the list of those that wait. -/
theorem turned_same {o : O} (ho : (k.task t).blkObj = some o) :
    (k.turned t p).rq = k.rq ∧ (k.turned t p).stuck = k.stuck ∧
      ∀ m, ((k.turned t p).obj m).objType = (k.obj m).objType ∧
        ((k.turned t p).obj m).mutexTask = (k.obj m).mutexTask ∧
        ((k.turned t p).obj m).mutexList = (k.obj m).mutexList := by
  have hblk : ((k.modTask t fun x => { x with prio := p }).task t).blkObj = some o := by
    unfold Kernel.modTask
    dsimp only
    rw [Function.update_self]
    exact ho
  unfold Kernel.turned Kernel.pendListReorder
  rw [hblk]
  refine ⟨rfl, rfl, fun m => ?_⟩
  unfold Kernel.pendListAddTo Kernel.klistRm Kernel.modObj
  dsimp only
  by_cases hm : m = o
  · rw [hm, Function.update_self]
    exact ⟨rfl, rfl, rfl⟩
  · rw [Function.update_of_ne hm]
    exact ⟨rfl, rfl, rfl⟩

end Turns

/-! ## One turn after another -/

section Ends

variable {T O : Type} [Fintype O] [DecidableEq T] [DecidableEq O] {k : Kernel T O} {t : T} {p : Nat}

/-- A task that waits knows what for, the mutexes that are waited for are owned by tasks that
    are there, and those of such a task are a list. -/
structure Graphed (k : Kernel T O) : Prop where
  blocked : ∀ t, (k.task t).state = .pend ∨ (k.task t).state = .pendSuspended →
    ∃ o, (k.task t).blkObj = some o
  owner : ∀ t o, (k.task t).waits = some o → (k.obj o).objType = .mutex →
    ∃ w, (k.obj o).mutexTask = some w ∧ k.live w
  mutexes : ∀ t, k.live t → ∃ l, k.mutexes t = some l

/-- A task waits for the mutex of another. -/
def Kernel.waitsOn (k : Kernel T O) (t w : T) : Prop :=
  ∃ o, (k.task t).waits = some o ∧ k.owns o w

/-- The loop gets from `t` to a task that is ready and cannot be taken from its list, as
    it is not on it or is the only one that is ready at all. -/
def Kernel.tied (k : Kernel T O) (t : T) : Prop :=
  ∃ u, Relation.ReflTransGen k.waitsOn t u ∧ (k.task u).state = .rdy ∧
    k.rq.rm (k.task u).prio u = none

/-- The loop ends after so many turns, and more are not made. Nothing hangs it but a
    task that is ready and cannot be taken from its list. -/
def Kernel.Ends (n : Nat) (k : Kernel T O) (t : T) (p : Nat) : Prop :=
  ((Kernel.priChangeLoop n k t p).2.stuck = true → k.stuck = true ∨ k.tied t) ∧
    Kernel.priChangeLoop (n + 1) k t p = Kernel.priChangeLoop n k t p

/-- After the turn of a task that waits, the pointers are still there. -/
theorem Graphed.turned (h : Graphed k) {o : O} (hw : (k.task t).waits = some o) :
    Graphed (k.turned t p) := by
  rcases Ktask.state_of_waits hw with ⟨-, ho⟩
  rcases turned_same (p := p) ho with ⟨-, -, hobj⟩
  have hnext : (k.turned t p).nextMutex = k.nextMutex := by
    ext m
    unfold Kernel.nextMutex
    rw [(hobj m).2.2]
  refine ⟨fun u hu => ?_, fun u m hu hm => ?_, fun u hu => ?_⟩
  · rw [(turned_task_same u).2.1]
    exact h.blocked u (by rwa [(turned_task_same u).1] at hu)
  · rw [turned_waits] at hu
    rw [(hobj m).1] at hm
    obtain ⟨w, howner, hlive⟩ := h.owner u m hu hm
    exact ⟨w, (hobj m).2.1.trans howner, turned_live.mpr hlive⟩
  · unfold Kernel.mutexes
    rw [hnext, (turned_task_same u).2.2]
    exact h.mutexes u (turned_live.mp hu)

omit [Fintype O] in
/-- A task that waits is not ready, and no list of those that are changes. -/
theorem tied_of_turned {o : O} {w : T} (hw : (k.task t).waits = some o)
    (howner : k.owns o w) (h : (k.turned t p).tied w) : k.tied t := by
  rcases Ktask.state_of_waits hw with ⟨hs, ho⟩
  rcases turned_same (p := p) ho with ⟨hrq, -, hobj⟩
  rcases h with ⟨u, hpath, hu, hrm⟩
  rw [(turned_task_same u).1] at hu
  have hne : u ≠ t := by
    intro he
    rw [he] at hu
    rcases hs with hs | hs
    · rw [hs] at hu
      cases hu
    · rw [hs] at hu
      cases hu
  rw [hrq, turned_prio_of_ne hne] at hrm
  have hon : ∀ a b, (k.turned t p).waitsOn a b → k.waitsOn a b := by
    rintro a b ⟨m, ha, htype, hm⟩
    rw [turned_waits] at ha
    rw [(hobj m).1] at htype
    rw [(hobj m).2.1] at hm
    exact ⟨m, ha, htype, hm⟩
  exact ⟨u, .head ⟨o, hw, howner⟩ (Relation.ReflTransGen.mono hon _ _ hpath), hu, hrm⟩

/-- The turn of a task that waits for nothing ends the loop; after any other the owner of
    the mutex has its turn, or none has. -/
theorem ends_of_next {n : Nat} (h : Graphed k) (hp : (k.task t).prio ≠ p)
    (hnext : ∀ o w, (k.task t).waits = some o → (k.obj o).mutexTask = some w →
      (((k.turned t p).task w).prio > p → (k.turned t p).Ends n w p) ∧
      (¬((k.turned t p).task w).prio > p → ((k.turned t p).task w).prio = (k.task t).prio →
        ∀ q, q ≠ ((k.turned t p).task w).prio → (k.turned t p).Ends n w q)) :
    k.Ends (n + 1) t p := by
  cases hs : (k.task t).state with
  | rdy =>
      unfold Kernel.Ends
      rw [priChangeLoop_ready hp hs, priChangeLoop_ready hp hs]
      refine ⟨fun hstuck => ?_, rfl⟩
      cases hrm : k.rq.rm (k.task t).prio t with
      | none => exact .inr ⟨t, .refl, hs, hrm⟩
      | some rq =>
          unfold Kernel.readyListRm at hstuck
          rw [hrm] at hstuck
          dsimp only at hstuck
          split_ifs at hstuck
          · exact .inl hstuck
          · exact .inl hstuck
  | sleep | suspended | sleepSuspended =>
      have hidles : (k.task t).state.idles := by simp [TaskState.idles, hs]
      unfold Kernel.Ends
      rw [priChangeLoop_idles hp hidles, priChangeLoop_idles hp hidles]
      exact ⟨.inl, rfl⟩
  | pend | pendSuspended =>
      rcases h.blocked t (by simp [hs]) with ⟨o, ho⟩
      have hw : (k.task t).waits = some o := by simp [Ktask.waits, hs, ho]
      have hsame := turned_same (p := p) ho
      have hback : ∀ {w q}, k.owns o w → (k.turned t p).Ends n w q →
          ((Kernel.priChangeLoop n (k.turned t p) w q).2.stuck = true →
              k.stuck = true ∨ k.tied t) ∧
            Kernel.priChangeLoop (n + 1) (k.turned t p) w q
              = Kernel.priChangeLoop n (k.turned t p) w q := by
        intro w q howner hends
        rw [← hsame.2.1]
        exact ⟨fun h => (hends.1 h).imp_right (tied_of_turned hw howner), hends.2⟩
      have hlast : (k.turned t p).stuck = true → k.stuck = true ∨ k.tied t := by
        rw [hsame.2.1]
        exact .inl
      unfold Kernel.Ends
      rw [priChangeLoop_waits hp hw, priChangeLoop_waits hp hw]
      change (((k.turned t p).follow n o _ p).2.stuck = true → _) ∧
        (k.turned t p).follow (n + 1) o _ p = (k.turned t p).follow n o _ p
      unfold Kernel.follow
      by_cases hmutex : ((k.turned t p).obj o).objType = .mutex
      · rw [if_pos hmutex, if_pos hmutex]
        have htype := (hsame.2.2 o).1.symm.trans hmutex
        rcases h.owner t o hw htype with ⟨w, howner, hlive⟩
        rw [(hsame.2.2 o).2.1, howner]
        dsimp only
        rcases hnext o w hw howner with ⟨hraise, hlook⟩
        by_cases hgt : ((k.turned t p).task w).prio > p
        · rw [if_pos hgt, if_pos hgt]
          exact hback ⟨htype, howner⟩ (hraise hgt)
        rw [if_neg hgt, if_neg hgt]
        by_cases heq : ((k.turned t p).task w).prio = (k.task t).prio
        · rw [if_pos heq, if_pos heq]
          -- The mutexes of the owner are a list, so `mutex_pri_look` comes to its end.
          rcases (h.turned (p := p) hw).mutexes w (turned_live.mpr hlive) with ⟨l, hl⟩
          have hfound : (k.turned t p).mutexPriLook w none
              = ((k.turned t p).lookPri l ((k.turned t p).task w).bPrio, k.turned t p) := by
            unfold Kernel.mutexPriLook
            rw [hl]
          rw [hfound]
          dsimp only
          split_ifs with hne
          · exact hback ⟨htype, howner⟩ (hlook hgt heq _ hne)
          · exact ⟨hlast, rfl⟩
        · rw [if_neg heq, if_neg heq]
          exact ⟨hlast, rfl⟩
      · rw [if_neg hmutex, if_neg hmutex]
        exact ⟨hlast, rfl⟩
  | seed | deleted =>
      unfold Kernel.Ends Kernel.priChangeLoop
      rw [if_neg hp, if_neg hp, hs]
      exact ⟨.inl, rfl⟩

variable [Fintype T]

omit [Fintype O] in
/-- A turn takes its task away from those that are counted, where the task is one of them
    and its new priority is none of theirs. -/
theorem card_turned_lt {P : Nat → Prop} [DecidablePred P] (ht : P (k.task t).prio) (hp : ¬P p) :
    (Finset.univ.filter fun u => P ((k.turned t p).task u).prio).card <
      (Finset.univ.filter fun u => P (k.task u).prio).card := by
  refine Finset.card_lt_card ⟨fun u hu => ?_, fun hsub => ?_⟩
  · rw [Finset.mem_filter] at hu ⊢
    by_cases hut : u = t
    · rw [hut, turned_prio_self] at hu
      exact absurd hu.2 hp
    · rw [turned_prio_of_ne hut] at hu
      exact hu
  · have hmem := Finset.mem_filter.mp (hsub (Finset.mem_filter.mpr ⟨Finset.mem_univ t, ht⟩))
    rw [turned_prio_self] at hmem
    exact hp hmem.2

/-- Raising: every turn leaves one task less below the priority. -/
theorem raise_ends (n : Nat) (h : Graphed k) (ht : p < (k.task t).prio)
    (hn : (Finset.univ.filter fun u => p < (k.task u).prio).card ≤ n) : k.Ends n t p := by
  induction n generalizing k t with
  | zero =>
      rw [Nat.le_zero, Finset.card_eq_zero] at hn
      have hmem : t ∈ Finset.univ.filter fun u => p < (k.task u).prio :=
        Finset.mem_filter.mpr ⟨Finset.mem_univ t, ht⟩
      rw [hn] at hmem
      exact absurd hmem (Finset.notMem_empty t)
  | succ n ih =>
      refine ends_of_next h (Nat.ne_of_gt ht) fun o w hw _ => ⟨fun hgt => ?_, fun hgt heq => ?_⟩
      · refine ih (h.turned hw) hgt ?_
        have hlt := card_turned_lt (P := fun q => p < q) ht (Nat.lt_irrefl p)
        omega
      · -- The owner would have to have the priority the task had before.
        rw [heq] at hgt
        exact absurd ht hgt

/-- Lowering: every turn leaves one task less with the priority that is given up, until
    a turn raises. -/
theorem lower_ends (n : Nat) (h : Graphed k) (ht : (k.task t).prio < p)
    (hn : (Finset.univ.filter fun u => (k.task u).prio = (k.task t).prio).card
      + Fintype.card T ≤ n) : k.Ends n t p := by
  induction n generalizing k t p with
  | zero =>
      have hpos : 0 < Fintype.card T := Fintype.card_pos_iff.mpr ⟨t⟩
      omega
  | succ n ih =>
      have hlt := card_turned_lt (k := k) (t := t) (p := p) (P := fun q => q = (k.task t).prio) rfl
        (Nat.ne_of_gt ht)
      have hall : ∀ q, (Finset.univ.filter fun u => q < ((k.turned t p).task u).prio).card ≤ n := by
        intro q
        have hle := Finset.card_le_univ (Finset.univ.filter fun u =>
          q < ((k.turned t p).task u).prio)
        omega
      refine ends_of_next h (Nat.ne_of_lt ht) fun o w hw _ => ⟨fun hgt => ?_, fun _ heq q hq => ?_⟩
      · exact raise_ends n (h.turned hw) hgt (hall p)
      · rcases Nat.lt_or_gt_of_ne hq with hraise | hlower
        · exact raise_ends n (h.turned hw) hraise (hall q)
        · refine ih (h.turned hw) hlower ?_
          rw [heq]
          omega

/-- Two turns for every task are enough. -/
theorem ends_of_le {n : Nat} (h : Graphed k) (t : T) (p : Nat) (hn : 2 * Fintype.card T ≤ n) :
    k.Ends n t p := by
  have hpos : 0 < Fintype.card T := Fintype.card_pos_iff.mpr ⟨t⟩
  rcases Nat.lt_trichotomy (k.task t).prio p with hlt | heq | hgt
  · refine lower_ends n h hlt ?_
    have hle := Finset.card_le_univ (Finset.univ.filter fun u => (k.task u).prio = (k.task t).prio)
    omega
  · cases n with
    | zero => omega
    | succ n =>
        unfold Kernel.Ends Kernel.priChangeLoop
        rw [if_pos heq, if_pos heq]
        exact ⟨.inl, rfl⟩
  · refine raise_ends n h hgt ?_
    have hle := Finset.card_le_univ (Finset.univ.filter fun u => p < (k.task u).prio)
    omega

/-- Whoever waits for whom, in a ring or not, `task_pri_change` comes to its end for
    every task and every priority: as many turns as there are tasks, twice, are as good as
    any larger number, and it is not the loop or `mutex_pri_look` that would hang. -/
theorem task_pri_change_ends (h : Graphed k) (t : T) (p : Nat) :
    ((k.taskPriChange t p).2.stuck = true → k.stuck = true ∨ k.tied t) ∧
      ∀ n, 2 * Fintype.card T ≤ n → Kernel.priChangeLoop n k t p = k.taskPriChange t p := by
  have hconst : ∀ n, 2 * Fintype.card T ≤ n →
      Kernel.priChangeLoop n k t p = Kernel.priChangeLoop (2 * Fintype.card T) k t p := by
    intro n hn
    induction n, hn using Nat.le_induction with
    | base => rfl
    | succ n hn ih => rw [(ends_of_le h t p hn).2, ih]
  have hfuel : 2 * Fintype.card T ≤ Fintype.card T * priMax + 1 := by
    unfold priMax
    omega
  constructor
  · exact (ends_of_le h t p hfuel).1
  · intro n hn
    rw [hconst n hn]
    exact (hconst _ hfuel).symm

end Ends

/-! ## After a run -/

section Runs

variable {T O : Type} [DecidableEq T] [DecidableEq O] [Fintype T] [Fintype O] {k : Kernel T O}
  {t : T}

omit [Fintype T] [DecidableEq T] [DecidableEq O] in
/-- The pointers are there where priorities are inherited. -/
theorem Inherits.graphed (ha : Awaited k) (h : Inherits k.owns k.live k) : Graphed k := by
  refine ⟨fun u hu => ?_, fun u o hw ho => ?_, fun u hu => ?_⟩
  · cases hblk : (k.task u).blkObj with
    | none => exact absurd ⟨hu, hblk⟩ (h.lost u)
    | some o => exact ⟨o, rfl⟩
  · cases howner : (k.obj o).mutexTask with
    | none => exact absurd howner (ha u o hw ho)
    | some w => exact ⟨w, rfl, h.owner o w ⟨ho, howner⟩⟩
  · obtain ⟨l, hl, -⟩ := h.mutexes hu
    exact ⟨l, hl⟩

omit [DecidableEq O] [Fintype T] [Fintype O] in
/-- A task can be taken from its list, unless it is the idle task, which nobody waits for. -/
theorem Lists.not_tied (h : Lists k) (ht : t ≠ k.idle) : ¬k.tied t := by
  rintro ⟨u, hpath, hu, hrm⟩
  have hidle : u ≠ k.idle := by
    rcases Relation.ReflTransGen.cases_tail hpath with heq | ⟨v, -, o, -, -, howner⟩
    · rwa [heq]
    · -- the idle task owns nothing
      rintro rfl
      exact h.owner o howner
  obtain ⟨r, hr, -⟩ := Runqueue.rm_holds h.rq (Ktask.ready_eq_some hu) (Ne.symm hidle) h.idle
  rw [hr] at hrm
  cases hrm

/-- The pointers that the loop follows are there after every run that deletes no task a second
    time which leads to a mutex in use. -/
theorem run_graphed {idle : T} {resSem : O} {as : List (KernelAct T O)}
    (hcond : Run.Along Kernel.step Kernel.untouched (Kernel.init idle resSem) as)
    (h : Run.run Kernel.step (Kernel.init idle resSem) as = some k) : Graphed k := by
  obtain ⟨hsound, hinherits⟩ := run_inherits hcond h
  exact hinherits.graphed hsound.toPatient.awaited

/-- After such a run `task_pri_change` comes to its end for every task and every priority,
    whoever waits for whom. -/
theorem pri_changes_end (idle : T) (resSem : O) (as : List (KernelAct T O)) (k : Kernel T O)
    (hcond : Run.Along Kernel.step Kernel.untouched (Kernel.init idle resSem) as)
    (h : Run.run Kernel.step (Kernel.init idle resSem) as = some k) (t : T) (p : Nat) :
    ((k.taskPriChange t p).2.stuck = true → t = k.idle) ∧
      ∀ n, 2 * Fintype.card T ≤ n → Kernel.priChangeLoop n k t p = k.taskPriChange t p := by
  obtain ⟨hends, hturns⟩ := task_pri_change_ends (run_graphed hcond h) t p
  refine ⟨fun hstuck => ?_, hturns⟩
  rcases hends hstuck with hk | htied
  · rw [run_not_stuck h] at hk
    cases hk
  · by_contra hidle
    exact (run_sound h).lists.not_tied hidle htied

end Runs

/-- Two tasks take a mutex each and then wait for the mutex of the other. -/
def ringRun : List (KernelAct (Option Bool) (Option Bool)) :=
  [.call (.mutexCreate (some false) true), .call (.mutexCreate (some true) true),
    .call (.taskCreate (some true) 20 0 true true), .start, .call (.mutexLock (some true) 0),
    .call (.taskCreate (some false) 10 0 true true), .call (.mutexLock (some false) 0),
    .call (.mutexLock (some true) waitForever), .call (.mutexLock (some false) waitForever)]

/-- They wait for each other, and changing the priority of one comes to an end. -/
theorem pri_changes_end_ring :
    ∃ k, Run.run Kernel.step (Kernel.init none none) ringRun = some k ∧
      (k.task (some false)).waits = some (some true) ∧
      (k.obj (some true)).mutexTask = some (some true) ∧
      (k.task (some true)).waits = some (some false) ∧
      (k.obj (some false)).mutexTask = some (some false) ∧
      (k.taskPriChange (some true) 5).2.stuck = false ∧
      Kernel.priChangeLoop 6 k (some true) 5 = k.taskPriChange (some true) 5 := by
  have hrun : (Run.run Kernel.step (Kernel.init none none) ringRun).map (fun k => decide (
      (k.task (some false)).waits = some (some true) ∧
      (k.obj (some true)).mutexTask = some (some true) ∧
      (k.task (some true)).waits = some (some false) ∧
      (k.obj (some false)).mutexTask = some (some false) ∧ k.idle ≠ some true)) = some true := by
    decide +kernel
  have hcond : Run.Along Kernel.step (fun k a => Kernel.deletesOnce k a = true)
      (Kernel.init none none) ringRun := by decide +kernel
  rcases Option.map_eq_some_iff.mp hrun with ⟨k, hk, hval⟩
  obtain ⟨hwaits, howner, hwaits', howner', hidle⟩ := of_decide_eq_true hval
  have hends := pri_changes_end none none ringRun k
    (hcond.mono fun _ _ => untouched_of_deletesOnce) hk (some true) 5
  refine ⟨k, hk, hwaits, howner, hwaits', howner', ?_, hends.2 6 (by decide)⟩
  exact Bool.eq_false_of_not_eq_true fun hstuck => hidle (hends.1 hstuck).symm

/-- The first task ends without unlocking its mutex. The second locks it, deletes the first once
    more and locks the mutex again, which the third then waits for. -/
def relockRun : List (KernelAct (Option (Option Bool)) Bool) :=
  [.call (.taskCreate (some none) 10 0 true true),
    .call (.taskCreate (some (some false)) 20 0 true true), .call (.mutexCreate true true), .start,
    .call (.mutexLock true 0), .call (.taskDel none), .call (.mutexLock true 0),
    .call (.taskDel (some (some none))), .call (.mutexLock true 0),
    .call (.taskCreate (some (some true)) 15 0 true true), .call (.mutexLock true waitForever)]

/-- Then the third task alone waits, and for the second; but the list of that one's mutexes has
    no end. -/
theorem relockRun_rings :
    ∃ k, Run.run Kernel.step (Kernel.init none false) relockRun = some k ∧ k.idle = none ∧
      (∀ u w, k.waitsOn u w ↔ u = some (some true) ∧ w = some (some false)) ∧
      (∀ n, walk k.nextMutex n (k.task (some (some false))).mutexList = none) ∧
      (k.taskPriChange (some (some true)) 18).2.stuck = true := by
  have hrun : (Run.run Kernel.step (Kernel.init none false) relockRun).map (fun k => decide (
      k.idle = none ∧
      (∀ u w, (∃ o, (k.task u).waits = some o ∧ (k.obj o).objType = .mutex ∧
        (k.obj o).mutexTask = some w) ↔ u = some (some true) ∧ w = some (some false)) ∧
      k.mutexes (some (some false)) = none ∧
      (k.taskPriChange (some (some true)) 18).2.stuck = true)) = some true := by decide +kernel
  rcases Option.map_eq_some_iff.mp hrun with ⟨k, hk, hval⟩
  obtain ⟨hidle, hwaits, hmutexes, hstuck⟩ := of_decide_eq_true hval
  exact ⟨k, hk, hidle, hwaits, walk_eq_none hmutexes, hstuck⟩

/-- So the loop does not end after every run: `mutex_pri_look` goes around the list for ever. -/
theorem pri_look_hangs :
    ¬∀ (as : List (KernelAct (Option (Option Bool)) Bool)) (k : Kernel (Option (Option Bool)) Bool),
      Run.run Kernel.step (Kernel.init none false) as = some k →
        ∀ t p, (k.taskPriChange t p).2.stuck = true → t = k.idle := by
  intro hall
  obtain ⟨k, hk, hidle, -, -, hstuck⟩ := relockRun_rings
  have heq := hall relockRun k hk (some (some true)) 18 hstuck
  rw [hidle] at heq
  cases heq

end Rhino

end Wujian100
