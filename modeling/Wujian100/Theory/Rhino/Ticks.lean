import Wujian100.Core.Rhino.Ticks
import Wujian100.Theory.Rhino.Reach

/-!
# Calls and the List of Ticks

A task that waits with a timeout stands on the list of ticks until its time has
run out or something else ends its wait. A call that returns begins no wait: it
leaves the clocks alone, or takes tasks off the list that do not wait on.

## Main definitions

* `Eases`: No task begins to wait, and those that wait on keep their time.
* `SameClocks`: Nothing changes that has to do with time.

## Theorems

* `effect_eases`: Every effect of a call that returns.
-/

namespace Wujian100

namespace Rhino

variable {T O : Type}

/-! ## Nobody begins to wait -/

/-- A task that sleeps. -/
def TaskState.sleeps (s : TaskState) : Prop :=
  s = .sleep ∨ s = .sleepSuspended

/-- A task that waits, and the same task waiting on. -/
structure Clocked (x y : Ktask O) : Prop where
  timed : x.state.timed
  sleeps : y.state.sleeps → x.state.sleeps
  onTick : y.onTick = x.onTick
  tickMatch : y.tickMatch = x.tickMatch

/-- No task begins to wait, and those that wait on keep their time. -/
structure Eases (k k' : Kernel T O) : Prop where
  count : k'.tickCount = k.tickCount
  head : k'.tickHead.Sublist k.tickHead
  task : ∀ t, (k'.task t).state.timed → Clocked (k.task t) (k'.task t)

/-- The clock, the list and what the tasks know of them are as they were. -/
structure SameClocks (k k' : Kernel T O) : Prop where
  count : k'.tickCount = k.tickCount
  head : k'.tickHead = k.tickHead
  state : ∀ t, (k'.task t).state = (k.task t).state
  onTick : ∀ t, (k'.task t).onTick = (k.task t).onTick
  tickMatch : ∀ t, (k'.task t).tickMatch = (k.task t).tickMatch
  blkState : ∀ t, (k'.task t).blkState = (k.task t).blkState

section Relations

variable {k k' k'' : Kernel T O} {t : T}

theorem Eases.refl (k : Kernel T O) : Eases k k :=
  ⟨rfl, List.Sublist.refl _, fun _ h => ⟨h, id, rfl, rfl⟩⟩

theorem Eases.trans (h : Eases k k') (h' : Eases k' k'') : Eases k k'' := by
  refine ⟨h'.count.trans h.count, h'.head.trans h.head, fun t ht => ?_⟩
  have hlast := h'.task t ht
  have hfirst := h.task t hlast.timed
  exact ⟨hfirst.timed, fun hs => hfirst.sleeps (hlast.sleeps hs),
    hlast.onTick.trans hfirst.onTick, hlast.tickMatch.trans hfirst.tickMatch⟩

theorem SameClocks.refl (k : Kernel T O) : SameClocks k k :=
  ⟨rfl, rfl, fun _ => rfl, fun _ => rfl, fun _ => rfl, fun _ => rfl⟩

theorem SameClocks.trans (h : SameClocks k k') (h' : SameClocks k' k'') : SameClocks k k'' :=
  ⟨h'.count.trans h.count, h'.head.trans h.head, fun t => (h'.state t).trans (h.state t),
    fun t => (h'.onTick t).trans (h.onTick t), fun t => (h'.tickMatch t).trans (h.tickMatch t),
    fun t => (h'.blkState t).trans (h.blkState t)⟩

theorem SameClocks.eases (h : SameClocks k k') : Eases k k' := by
  refine ⟨h.count, h.head ▸ List.Sublist.refl _, fun t ht => ?_⟩
  rw [h.state t] at ht
  exact ⟨ht, fun hs => by rwa [h.state t] at hs, h.onTick t, h.tickMatch t⟩

/-- Nothing of this is in the tasks' other fields. -/
theorem SameClocks.of_task (hcount : k'.tickCount = k.tickCount) (hhead : k'.tickHead = k.tickHead)
    (htask : k'.task = k.task) : SameClocks k k' :=
  ⟨hcount, hhead, fun t => by rw [htask], fun t => by rw [htask], fun t => by rw [htask],
    fun t => by rw [htask]⟩

theorem SameClocks.hang (k : Kernel T O) : SameClocks k k.hang :=
  .of_task rfl rfl rfl

variable [DecidableEq T]

/-- A field of a task that no clock depends on. -/
theorem SameClocks.modTask (k : Kernel T O) {f : Ktask O → Ktask O}
    (hstate : (f (k.task t)).state = (k.task t).state)
    (honTick : (f (k.task t)).onTick = (k.task t).onTick)
    (hmatch : (f (k.task t)).tickMatch = (k.task t).tickMatch)
    (hblk : (f (k.task t)).blkState = (k.task t).blkState) : SameClocks k (k.modTask t f) := by
  have hsplit : ∀ {α : Type} (g : Ktask O → α), g (f (k.task t)) = g (k.task t) →
      ∀ u, g ((k.modTask t f).task u) = g (k.task u) := by
    intro α g hg u
    unfold Kernel.modTask
    dsimp only
    by_cases hu : u = t
    · rw [hu, Function.update_self, hg]
    · rw [Function.update_of_ne hu]
  exact ⟨rfl, rfl, hsplit _ hstate, hsplit _ honTick, hsplit _ hmatch, hsplit _ hblk⟩

/-- A task stops waiting, or changes in nothing that its clock depends on. -/
theorem Eases.modTask (k : Kernel T O) {f : Ktask O → Ktask O}
    (hf : (f (k.task t)).state.timed → Clocked (k.task t) (f (k.task t))) :
    Eases k (k.modTask t f) := by
  refine ⟨rfl, List.Sublist.refl _, fun u hu => ?_⟩
  by_cases hut : u = t
  · subst hut
    have hself : (k.modTask u f).task u = f (k.task u) := Function.update_self ..
    rw [hself] at hu ⊢
    exact hf hu
  · have hsame : (k.modTask t f).task u = k.task u := Function.update_of_ne hut ..
    rw [hsame] at hu ⊢
    exact ⟨hu, id, rfl, rfl⟩

/-- `Eases`, but for one task. -/
structure EasesBut (t : T) (k k' : Kernel T O) : Prop where
  count : k'.tickCount = k.tickCount
  head : k'.tickHead.Sublist k.tickHead
  task : ∀ u, u ≠ t → (k'.task u).state.timed → Clocked (k.task u) (k'.task u)

omit [DecidableEq T] in
theorem Eases.but (h : Eases k k') (t : T) : EasesBut t k k' :=
  ⟨h.count, h.head, fun u _ => h.task u⟩

omit [DecidableEq T] in
theorem EasesBut.trans (h : EasesBut t k k') (h' : EasesBut t k' k'') : EasesBut t k k'' := by
  refine ⟨h'.count.trans h.count, h'.head.trans h.head, fun u hu ht => ?_⟩
  have hlast := h'.task u hu ht
  have hfirst := h.task u hu hlast.timed
  exact ⟨hfirst.timed, fun hs => hfirst.sleeps (hlast.sleeps hs),
    hlast.onTick.trans hfirst.onTick, hlast.tickMatch.trans hfirst.tickMatch⟩

omit [DecidableEq T] in
/-- The task that was left out does not wait on. -/
theorem EasesBut.close (h : EasesBut t k k') (ht : ¬(k'.task t).state.timed) : Eases k k' := by
  refine ⟨h.count, h.head, fun u hu => ?_⟩
  by_cases hut : u = t
  · subst hut
    exact absurd hu ht
  · exact h.task u hut hu

theorem EasesBut.modTask (k : Kernel T O) (t : T) (f : Ktask O → Ktask O) :
    EasesBut t k (k.modTask t f) := by
  refine ⟨rfl, List.Sublist.refl _, fun u hu ht => ?_⟩
  have hsame : (k.modTask t f).task u = k.task u := Function.update_of_ne hu ..
  rw [hsame] at ht ⊢
  exact ⟨ht, id, rfl, rfl⟩

theorem EasesBut.tickListRm (k : Kernel T O) (t : T) : EasesBut t k (k.tickListRm t) := by
  unfold Kernel.tickListRm
  split_ifs
  · have hlist : EasesBut t k { k with tickHead := k.tickHead.erase t } :=
      ⟨rfl, List.erase_sublist, fun u _ hu => ⟨hu, id, rfl, rfl⟩⟩
    exact hlist.trans (.modTask _ t _)
  · exact (Eases.refl k).but t

@[simp] theorem Kernel.modTask_self (k : Kernel T O) (t : T) (f : Ktask O → Ktask O) :
    (k.modTask t f).task t = f (k.task t) :=
  Function.update_self ..

theorem tickListRm_state (k : Kernel T O) (t u : T) :
    ((k.tickListRm t).task u).state = (k.task u).state := by
  unfold Kernel.tickListRm
  split_ifs
  · by_cases hu : u = t
    · subst hu
      rw [Kernel.modTask_self]
    · exact congrArg Ktask.state (Function.update_of_ne hu ..)
  · rfl

end Relations

/-! ## What leaves the clocks alone -/

section Still

variable [DecidableEq T] [DecidableEq O] {k : Kernel T O} {t : T}

omit [DecidableEq T] [DecidableEq O] in
theorem readyListAdd_clocks (k : Kernel T O) (t : T) : SameClocks k (k.readyListAdd t) := by
  unfold Kernel.readyListAdd
  split_ifs
  · exact .of_task rfl rfl rfl
  · exact .of_task rfl rfl rfl

omit [DecidableEq O] in
theorem readyListRm_clocks (k : Kernel T O) (t : T) : SameClocks k (k.readyListRm t) := by
  unfold Kernel.readyListRm
  cases k.rq.rm (k.task t).prio t with
  | none => exact .hang k
  | some r => exact .of_task rfl rfl rfl

omit [DecidableEq T] [DecidableEq O] in
theorem headToTail_clocks (k : Kernel T O) (t : T) : SameClocks k (k.readyListHeadToTail t) := by
  unfold Kernel.readyListHeadToTail
  cases k.rq.headToTail (k.task t).prio with
  | none => exact .hang k
  | some r => exact .of_task rfl rfl rfl

omit [DecidableEq T] [DecidableEq O] in
theorem coreSched_clocks (k : Kernel T O) : SameClocks k k.coreSched := by
  unfold Kernel.coreSched
  split_ifs
  · exact .refl k
  · exact .refl k
  · cases k.rq.preferred with
    | none => exact .hang k
    | some u => exact .of_task rfl rfl rfl

theorem pendListReorder_clocks (k : Kernel T O) (t : T) :
    SameClocks k (k.pendListReorder t) := by
  unfold Kernel.pendListReorder
  cases (k.task t).blkObj with
  | none => exact .hang k
  | some o => exact .of_task rfl rfl rfl

theorem unlinkMutex_clocks (k : Kernel T O) (t : T) (l : List O) (m : O) :
    SameClocks k (k.unlinkMutex t l m) := by
  unfold Kernel.unlinkMutex
  split_ifs
  · exact .modTask k rfl rfl rfl rfl
  · cases before k.nextMutex m l with
    | none => exact .refl k
    | some d => exact .of_task rfl rfl rfl

variable [Fintype T] [Fintype O]

omit [Fintype T] in
theorem mutexPriLook_clocks (k : Kernel T O) (t : T) (rel : Option O) :
    SameClocks k (k.mutexPriLook t rel).2 := by
  unfold Kernel.mutexPriLook
  cases k.mutexes t with
  | none => exact .hang k
  | some l =>
      cases rel with
      | none => exact .refl k
      | some m => exact unlinkMutex_clocks k t l m

omit [Fintype T] in
/-- Priorities change along the owners of mutexes, and nothing else does. -/
theorem priChangeLoop_clocks (n : Nat) (k : Kernel T O) (t : T) (p : Nat) :
    SameClocks k (Kernel.priChangeLoop n k t p).2 := by
  -- By induction on the fuel: no turn touches the tick list or the counter.
  induction n generalizing k t p with
  | zero => exact .hang k
  | succ n ih =>
      have hprio : SameClocks k (k.modTask t fun x => { x with prio := p }) :=
        .modTask k rfl rfl rfl rfl
      have hwait : SameClocks k ((k.modTask t fun x => { x with prio := p }).pendListReorder t) :=
        hprio.trans (pendListReorder_clocks _ t)
      unfold Kernel.priChangeLoop
      split_ifs
      · exact .refl k
      · cases (k.task t).state with
        | seed | deleted => exact .refl k
        | sleep | suspended | sleepSuspended => exact hprio
        | rdy =>
            have hrm : SameClocks k ((k.readyListRm t).modTask t fun x => { x with prio := p }) :=
              (readyListRm_clocks k t).trans (.modTask _ rfl rfl rfl rfl)
            dsimp only
            split_ifs
            · exact hrm.trans (.of_task rfl rfl rfl)
            · exact hrm.trans (.of_task rfl rfl rfl)
        | pend | pendSuspended =>
            dsimp only
            generalize (k.modTask t fun x => { x with prio := p }).pendListReorder t = k₁ at hwait
            cases (k₁.task t).blkObj with
            | none => exact hwait.trans (.hang _)
            | some o =>
                dsimp only
                split_ifs
                · cases (k₁.obj o).mutexTask with
                  | none => exact hwait.trans (.hang _)
                  | some w =>
                      have hlook := hwait.trans (mutexPriLook_clocks k₁ w none)
                      dsimp only
                      split_ifs
                      · exact hwait.trans (ih _ _ _)
                      · exact hlook.trans (ih _ _ _)
                      · exact hlook
                      · exact hwait
                · exact hwait

theorem mutexRelease_clocks (k : Kernel T O) (t : T) (rel : Option O) :
    SameClocks k (k.mutexRelease t rel) := by
  have hlook := mutexPriLook_clocks k t rel
  unfold Kernel.mutexRelease
  dsimp only
  split_ifs
  · exact hlook.trans (priChangeLoop_clocks _ _ _ _)
  · exact hlook

theorem mutexTaskPriReset_clocks (k : Kernel T O) (t : T) :
    SameClocks k (k.mutexTaskPriReset t) := by
  unfold Kernel.mutexTaskPriReset
  cases (k.task t).blkObj with
  | none => exact .hang k
  | some o =>
      dsimp only
      split_ifs
      · cases (k.obj o).mutexTask with
        | none => exact .hang k
        | some w =>
            dsimp only
            split_ifs
            · exact mutexRelease_clocks k w none
            · exact .refl k
      · exact .refl k

end Still

/-! ## A task stops waiting -/

section Wakes

variable [DecidableEq T] [DecidableEq O] {k : Kernel T O} {t : T}

omit [DecidableEq O] in
/-- The state of a task that was woken. -/
theorem pendEnd_state (k : Kernel T O) (t : T) (b : BlkState) :
    ((k.pendEnd t b).task t).state =
      match (k.task t).state with
      | .pend => .rdy
      | .pendSuspended => .suspended
      | s => s := by
  unfold Kernel.pendEnd
  rw [Kernel.modTask_self]
  dsimp only
  rw [tickListRm_state]
  cases hs : (k.task t).state with
  | pend | pendSuspended => rw [Kernel.modTask_self]
  | _ => exact hs

omit [DecidableEq O] in
theorem pendEnd_but (k : Kernel T O) (t : T) (b : BlkState) : EasesBut t k (k.pendEnd t b) := by
  have hclocks : SameClocks k (k.klistRm t) := .of_task rfl rfl rfl
  have hrm := hclocks.eases.but t
  unfold Kernel.pendEnd
  refine EasesBut.trans (EasesBut.trans ?_ (.tickListRm _ t)) (.modTask _ t _)
  cases (k.task t).state with
  | pend => exact (hrm.trans ((readyListAdd_clocks _ t).eases.but t)).trans (.modTask _ t _)
  | pendSuspended => exact hrm.trans (.modTask _ t _)
  | _ => exact (SameClocks.hang k).eases.but t

omit [DecidableEq O] in
/-- Waking a task that does not sleep. -/
theorem pendEnd_eases (hs : ¬(k.task t).state.sleeps) (b : BlkState) :
    Eases k (k.pendEnd t b) := by
  refine (pendEnd_but k t b).close ?_
  rw [pendEnd_state]
  cases hstate : (k.task t).state with
  | sleep | sleepSuspended => exact absurd (by simp [TaskState.sleeps, hstate]) hs
  | _ => simp [TaskState.timed]

omit [DecidableEq T] [DecidableEq O] in
/-- Nobody falls asleep where nobody begins to wait. -/
theorem Eases.sleeps {k' : Kernel T O} (h : Eases k k') {u : T} (hu : ¬(k.task u).state.sleeps) :
    ¬(k'.task u).state.sleeps := by
  intro hs
  have htimed : (k'.task u).state.timed := by
    rcases hs with hs | hs <;> simp [TaskState.timed, hs]
  exact hu ((h.task u htimed).sleeps hs)

omit [DecidableEq T] [DecidableEq O] in
/-- What eases one task that does not sleep eases a list of them. -/
theorem foldl_eases {g : Kernel T O → T → Kernel T O}
    (hg : ∀ k t, ¬(k.task t).state.sleeps → Eases k (g k t)) (l : List T)
    (hl : ∀ u ∈ l, ¬(k.task u).state.sleeps) : Eases k (l.foldl g k) := by
  induction l generalizing k with
  | nil => exact .refl k
  | cons t l ih =>
      have hstep := hg k t (hl t List.mem_cons_self)
      exact hstep.trans (ih fun u hu => hstep.sleeps (hl u (List.mem_cons_of_mem _ hu)))

omit [DecidableEq T] [DecidableEq O] in
/-- What waits for an object does not sleep. -/
theorem Lists.not_sleeps (h : Lists k) {o : O} {u : T} (hu : u ∈ (k.obj o).blkList) :
    ¬(k.task u).state.sleeps := by
  rcases (Ktask.state_of_waits ((h.wait u o).mp hu)).1 with hs | hs <;>
    simp [TaskState.sleeps, hs]

omit [DecidableEq T] [DecidableEq O] in
theorem Calm.clocked {x y : Ktask O} (h : Calm x y) (hy : y.state.timed) : Clocked x y :=
  ⟨h.state ▸ hy, fun hs => by rwa [h.state] at hs, h.onTick, h.tickMatch⟩

omit [DecidableEq O] in
theorem wakeAll_eases {f : Ktask O → Ktask O} (hf : ∀ x, Calm x (f x)) (l : List T)
    (hl : ∀ u ∈ l, ¬(k.task u).state.sleeps) : Eases k (k.wakeAll f l) := by
  refine foldl_eases (fun k t ht => ?_) l hl
  have hmod : Eases k (k.modTask t f) := .modTask k fun hs => (hf _).clocked hs
  exact hmod.trans (pendEnd_eases (hmod.sleeps ht) .finish)

omit [DecidableEq T] in
theorem SameClocks.modObj (k : Kernel T O) (o : O) (f : Kobj T O → Kobj T O) :
    SameClocks k (k.modObj o f) :=
  .of_task rfl rfl rfl

theorem eventWake_eases {o : O} {cur : BitVec 32} (ht : ¬(k.task t).state.sleeps) :
    Eases k (Kernel.eventWake o cur k t) := by
  have hmod : SameClocks k (k.modTask t fun x => { x with pendInfo := cur }) :=
    .modTask k rfl rfl rfl rfl
  have hwake := hmod.eases.trans (pendEnd_eases (hmod.eases.sleeps ht) .finish)
  unfold Kernel.eventWake
  dsimp only
  split_ifs
  · exact hwake.trans (SameClocks.modObj _ o _).eases
  · exact hwake
  · exact .refl k

theorem giveMutex_clocks (k : Kernel T O) (m : O) (t : T) : SameClocks k (k.giveMutex m t) :=
  (SameClocks.modObj k m _).trans (.modTask _ rfl rfl rfl rfl)

variable [Fintype T] [Fintype O]

omit [Fintype T] [Fintype O] in
theorem freeMutex_eases (h : Lists k) (m : O) : Eases k (k.freeMutex m) := by
  unfold Kernel.freeMutex
  cases hblk : (k.obj m).blkList with
  | nil => exact (SameClocks.modObj k m _).eases
  | cons u rest =>
      have hmem : u ∈ (k.obj m).blkList := by
        rw [hblk]
        exact List.mem_cons_self
      exact (pendEnd_eases (h.not_sleeps hmem) .finish).trans (giveMutex_clocks _ m u).eases

omit [Fintype T] [Fintype O] in
/-- The mutexes of a task that ends go to tasks that wait for them. -/
theorem mutexFreeLoop_eases (n : Nat) (h : Lists k) (start : Option O) :
    Eases k (Kernel.mutexFreeLoop n k start) := by
  induction n generalizing k start with
  | zero =>
      cases start with
      | none => exact .refl k
      | some m => exact (SameClocks.hang k).eases
  | succ n ih =>
      cases start with
      | none => exact .refl k
      | some m => exact (freeMutex_eases h m).trans (ih (freeMutex_lists h m).1 _)

/-- The end of a task, in each of its states. -/
theorem taskEnd_eases {k' : Kernel T O} (hend : k.taskEnd t = some k') : Eases k k' := by
  have hdel : ∀ (k : Kernel T O),
      ¬((k.modTask t fun x => { x with state := .deleted }).task t).state.timed := by
    intro k
    rw [Kernel.modTask_self]
    simp [TaskState.timed]
  have hmod : ∀ {k₁ : Kernel T O}, EasesBut t k k₁ →
      Eases k (k₁.modTask t fun x => { x with state := .deleted }) :=
    fun h => (h.trans (.modTask _ t _)).close (hdel _)
  unfold Kernel.taskEnd at hend
  cases hs : (k.task t).state with
  | rdy =>
      rw [hs, Option.some.injEq] at hend
      rw [← hend]
      exact hmod ((readyListRm_clocks k t).eases.but t)
  | suspended =>
      rw [hs, Option.some.injEq] at hend
      rw [← hend]
      exact hmod ((Eases.refl k).but t)
  | sleep | sleepSuspended =>
      rw [hs, Option.some.injEq] at hend
      rw [← hend]
      exact hmod (.tickListRm k t)
  | pend | pendSuspended =>
      have hrm : SameClocks (k.tickListRm t) ((k.tickListRm t).klistRm t) := .of_task rfl rfl rfl
      rw [hs, Option.some.injEq] at hend
      rw [← hend]
      exact (hmod ((EasesBut.tickListRm k t).trans (hrm.eases.but t))).trans
        (mutexTaskPriReset_clocks _ t).eases
  | seed | deleted =>
      rw [hs] at hend
      cases hend

theorem ended_eases (h : Lists k) (t : T) : Eases k (k.ended t) := by
  have hfree : Eases k (k.taskMutexFree t) := mutexFreeLoop_eases _ h _
  unfold Kernel.ended
  cases hend : (k.taskMutexFree t).taskEnd t with
  | none => exact hfree
  | some k' => exact hfree.trans (taskEnd_eases hend)

omit [DecidableEq O] [Fintype T] [Fintype O] in
theorem created_eases (k : Kernel T O) (t : T) (prio ticks : Nat) (autorun isStatic : Bool) :
    Eases k (k.created t prio ticks autorun isStatic) := by
  have hspawn : SameClocks k (if prio = idlePri then { k with idleSpawned := true } else k) := by
    split_ifs
    · exact .of_task rfl rfl rfl
    · exact .refl k
  have hfresh : ∀ k₁ : Kernel T O,
      Eases k₁ (k₁.modTask t fun _ => Kernel.freshTask prio ticks autorun isStatic) := by
    refine fun k₁ => .modTask k₁ fun hs => absurd hs ?_
    cases autorun <;> simp [Kernel.freshTask, TaskState.timed]
  have hnew := hspawn.eases.trans (hfresh _)
  unfold Kernel.created
  dsimp only
  generalize (if prio = idlePri then { k with idleSpawned := true } else k).modTask t
    (fun _ => Kernel.freshTask prio ticks autorun isStatic) = k₁ at hnew
  have hadd : SameClocks k₁ (k₁.readyListAddTail t) := .of_task rfl rfl rfl
  split_ifs
  · exact hnew.trans hadd.eases
  · exact hnew

theorem unlocked_eases (h : Lists k) (hidle : k.active ≠ k.idle) (o : O) :
    Eases k (k.unlocked o) := by
  have hzero : Lists (k.modObj o fun x => { x with ownerNested := 0 }) :=
    h.modObj rfl (h.owner o)
  have hlists := (mutexRelease_lists hzero (t := k.active) hidle (some o)).1
  have hrel := (SameClocks.modObj k o _).trans (mutexRelease_clocks
    (k.modObj o fun x => { x with ownerNested := 0 }) k.active (some o))
  unfold Kernel.unlocked
  dsimp only
  generalize (k.modObj o fun x => { x with ownerNested := 0 }).mutexRelease k.active (some o) = k₁
    at hlists hrel
  cases hblk : (k₁.obj o).blkList with
  | nil => exact hrel.eases.trans (SameClocks.modObj k₁ o _).eases
  | cons u rest =>
      have hmem : u ∈ (k₁.obj o).blkList := by
        rw [hblk]
        exact List.mem_cons_self
      have hwake := pendEnd_eases (hlists.not_sleeps hmem) .finish
      exact (hrel.eases.trans hwake).trans
        ((giveMutex_clocks _ o u).trans (SameClocks.modObj _ o _)).eases

omit [Fintype T] [Fintype O] in
theorem gives_eases (h : Lists k) {o : O} {k' : Kernel T O} (hg : Gives k o k') : Eases k k' := by
  cases hg with
  | keep hm hf hblk => exact (SameClocks.modObj k o _).eases
  | wake hm hl hf => exact wakeAll_eases hf _ fun u hu => h.not_sleeps (hl hu)

end Wakes

/-! ## Every effect -/

section Effects

variable [DecidableEq T] [DecidableEq O] {k k' : Kernel T O} {b : Bool} {c : Call T O} {st : Kstat}

/-- Whether a suspended task sleeps does not change by a suspension. -/
theorem Shift.sleeps {s s' : TaskState} (h : Shift s s') : s'.sleeps → s.sleeps := by
  cases h with
  | _ => simp [TaskState.sleeps]

theorem Shift.timed {s s' : TaskState} (h : Shift s s') : s'.timed → s.timed := by
  cases h with
  | _ => simp [TaskState.timed]

/-- A call that returns and has to do with no mutex. -/
theorem plain_eases (h : Lists k) (he : Plain k c (some st) b k') : Eases k k' := by
  cases he with
  | refused hs hn => exact .refl k
  | hangs => exact (SameClocks.hang k).eases
  | yield hn => exact (headToTail_clocks k _).eases
  | @suspend t hs ht ha =>
      have hmod := Eases.modTask (t := t) k
        (f := fun x => { x with suspendCount := 1, state := .suspended })
        fun htimed => absurd htimed (by simp [TaskState.timed])
      exact hmod.trans (readyListRm_clocks _ _).eases
  | restate hc hs =>
      exact .modTask k fun htimed => ⟨hs.timed htimed, hs.sleeps, rfl, rfl⟩
  | @resume t hs =>
      have hmod := Eases.modTask (t := t) k
        (f := fun x => { x with suspendCount := 0, state := .rdy })
        fun htimed => absurd htimed (by simp [TaskState.timed])
      exact hmod.trans (readyListAdd_clocks _ _).eases
  | adjust hc hf => exact .modTask k hf.clocked
  | @schedLock _ _ n _ hc hn =>
      have hsame : SameClocks k { k with schedLock := n } := .of_task rfl rfl rfl
      exact hsame.eases
  | objCreate hc hnew hblk howner => exact (SameClocks.modObj k _ _).eases
  | @objDel _ o f hc hm hf =>
      have hnone := SameClocks.modObj k o fun x => { x with objType := .noType }
      have hfold := foldl_eases (g := Kernel.pendTaskRm)
        (fun k t ht => pendEnd_eases (k := k) (t := t) ht .del) (k.obj o).blkList
        (k := k.modObj o fun x => { x with objType := .noType }) fun u hu => h.not_sleeps hu
      exact (hnone.eases.trans hfold).trans (SameClocks.modObj _ o f).eases
  | stock hc hm hf hstock => exact (SameClocks.modObj k _ _).eases
  | give hc hg => exact gives_eases h hg
  | @eventSet o flags ho =>
      have hset := SameClocks.modObj k o fun x => { x with flags := (k.obj o).flags ||| flags }
      exact hset.eases.trans (foldl_eases (fun k t ht => eventWake_eases ht) _
        fun u hu => h.not_sleeps hu)

variable [Fintype T] [Fintype O]

/-- Every effect of a call that returns. -/
theorem effect_eases (h : Sound k)
    (hcaller : k.intrptNested = 0 → Kernel.beforeStart c = true ∨ k.active ≠ k.idle)
    (he : Effect k c (some st) b k') : Eases k k' := by
  have hlists := h.lists
  cases he with
  | plain hp => exact plain_eases hlists hp
  | create hnew hprio => exact created_eases k _ _ _ _ _
  | @priChange t pri limit ht hpri hs hlimit =>
      have hbase : SameClocks k (k.modTask t fun x => { x with bPrio := pri }) :=
        .modTask k rfl rfl rfl rfl
      exact (hbase.trans (priChangeLoop_clocks _ _ _ _)).eases
  | taskDel hn ht ha hd => exact ended_eases hlists _
  | taskDynDel hn ht ha hs hd hg =>
      exact (gives_eases hlists hg).trans (ended_eases (gives_sound h hg).1.lists _)
  | @mutexDel o isStatic hm =>
      have hnone := SameClocks.modObj k o fun x => { x with objType := .noType }
      have hgone : SameClocks k (k.mutexGone o) := by
        unfold Kernel.mutexGone
        dsimp only
        cases ((k.modObj o fun x => { x with objType := .noType }).obj o).mutexTask with
        | none => exact hnone
        | some w => exact hnone.trans (mutexRelease_clocks _ w _)
      exact hgone.eases.trans (foldl_eases (fun k t ht => pendEnd_eases ht .del) _
        fun u hu => (mutexGone_lists hlists o).1.not_sleeps hu)
  | lockNested hn hm ho hov => exact (SameClocks.modObj k _ _).eases
  | lockFree hn hm ho => exact ((giveMutex_clocks k _ _).trans (.modObj _ _ _)).eases
  | unlockNested hn hm ho hnest hpos => exact (SameClocks.modObj k _ _).eases
  | unlock hn hm ho hnest =>
      have hidle := (hcaller hn).resolve_left (by simp [Kernel.beforeStart])
      exact unlocked_eases hlists hidle _

end Effects

end Rhino

end Wujian100
