import Wujian100.Theory.Rhino.Effect

/-!
# Tasks Are Where They Should Be, and Wait Only for What Is Not There

What holds of the kernel between two calls, however it came there: the tasks are on
the lists of their states, the task that runs is ready, and no task waits for an
object that has something for it. Here are the parts of the calls that change the
state of a task, hand a mutex on or wake those that wait.

## Main definitions

* `Patient`: No task waits for what is there.
* `Sound`: What holds between two calls.

## Theorems

* `created_lists`, `asleep_lists`, `suspended_eq`, `resumed_eq`: A task changes its
  state.
* `mutexFreeLoop_patient`, `taskEnd_patient`: A task is deleted.
* `foldl_eventWake`: An event is set.
-/

namespace Wujian100

namespace Rhino

/-- The tasks are where they should be, and none waits for what is there. -/
structure Patient {T O : Type} (k : Kernel T O) : Prop where
  lists : Lists k
  starved : ∀ t o, (k.task t).waits = some o → Starved (k.obj o) (k.task t)

/-- What holds between two calls. -/
structure Sound {T O : Type} (k : Kernel T O) : Prop extends Patient k where
  active : k.intrptNested = 0 ∨ k.schedLock > 0 → (k.task k.active).state = .rdy

/-- What holds before the next task is chosen, if it is. -/
structure Settling {T O : Type} (b : Bool) (k : Kernel T O) : Prop extends Patient k where
  active : (k.intrptNested = 0 ∨ k.schedLock > 0 → (k.task k.active).state = .rdy) ∨
    b = true ∧ k.schedLock = 0

/-! ## One task changes its state -/

section Spawned

variable {T O : Type} {k : Kernel T O} {t : T}

/-- A state without a time. -/
theorem Lists.off (h : Lists k) (ht : ¬(k.task t).state.timed) :
    t ∉ k.tickHead ∧ (k.task t).onTick = false := by
  have hoff : ¬(k.task t).onTick = true := fun hon => ht (h.timed t hon)
  exact ⟨fun hmem => hoff ((h.tick t).mp hmem), by simpa using hoff⟩

/-- The kernel in which a task at the idle priority is said to be there. -/
def Kernel.spawned (k : Kernel T O) (prio : Nat) : Kernel T O :=
  if prio = idlePri then { k with idleSpawned := true } else k

theorem Lists.spawned (h : Lists k) (prio : Nat) : Lists (k.spawned prio) := by
  unfold Kernel.spawned
  split_ifs
  · exact ⟨h.rq, h.prio, h.bPrio, h.wait, h.waitNodup, h.tick, h.tickNodup, h.timed, h.idle, h.owner⟩
  · exact h

theorem Frame.spawned (k : Kernel T O) (prio : Nat) :
    (k.spawned prio).task = k.task ∧ (k.spawned prio).obj = k.obj ∧
      (k.spawned prio).active = k.active ∧ (k.spawned prio).schedLock = k.schedLock ∧
      (k.spawned prio).intrptNested = k.intrptNested ∧ (k.spawned prio).idle = k.idle := by
  unfold Kernel.spawned
  split_ifs
  · exact ⟨rfl, rfl, rfl, rfl, rfl, rfl⟩
  · exact ⟨rfl, rfl, rfl, rfl, rfl, rfl⟩

/-- A ready list is turned. -/
theorem headToTail_lists (h : Lists k) (ht : (k.task t).state = .rdy) :
    Lists (k.readyListHeadToTail t) ∧ Frame k (k.readyListHeadToTail t) := by
  rcases Runqueue.headToTail_holds h.rq (Ktask.ready_eq_some ht) with ⟨r, hr, hholds⟩
  unfold Kernel.readyListHeadToTail
  rw [hr]
  refine ⟨⟨hholds, h.prio, h.bPrio, h.wait, h.waitNodup, h.tick, h.tickNodup, h.timed, h.idle,
    h.owner⟩, ?_⟩
  exact ⟨rfl, rfl, rfl, rfl, rfl, rfl, rfl, fun _ => ⟨_, _, rfl⟩, fun _ => rfl, fun _ => rfl,
    fun _ => rfl, fun _ => rfl, fun _ ht => ht, fun _ _ ht => ht⟩

end Spawned

section States

variable {T O : Type} [DecidableEq T] {k : Kernel T O} {t : T}

/-- One task changes, with the ready lists and the list of ticks. -/
def Kernel.moved (k : Kernel T O) (t : T) (r : Runqueue T) (l : List T) (x : Ktask O) :
    Kernel T O :=
  { k with rq := r, tickHead := l, task := Function.update k.task t x }

@[simp] theorem Kernel.moved_self (k : Kernel T O) (t : T) (r : Runqueue T) (l : List T)
    (x : Ktask O) : (k.moved t r l x).task t = x :=
  Function.update_self ..

theorem Kernel.moved_of_ne (k : Kernel T O) {t u : T} (hu : u ≠ t) (r : Runqueue T) (l : List T)
    (x : Ktask O) : (k.moved t r l x).task u = k.task u :=
  Function.update_of_ne hu ..

/-- A task goes to the lists of its new state, and waits for what it waited for. -/
theorem Lists.moved (h : Lists k) {r : Runqueue T} {l : List T} {x : Ktask O} (ht : t ≠ k.idle)
    (hrq : r.Holds (Function.update (fun u => (k.task u).ready) t x.ready)) (hprio : x.prio < priMax)
    (hbPrio : x.bPrio < priMax) (hwaits : x.waits = (k.task t).waits)
    (htick : t ∈ l ↔ x.onTick = true) (hother : ∀ u, u ≠ t → (u ∈ l ↔ u ∈ k.tickHead))
    (hnodup : l.Nodup) (htimed : x.onTick = true → x.state.timed) : Lists (k.moved t r l x) := by
  have hself : (k.moved t r l x).task t = x := k.moved_self t r l x
  refine h.of_task (t := t) (fun u hu => k.moved_of_ne hu r l x) ?_ ?_ ?_ ?_ (fun _ _ _ => Iff.rfl)
    h.waitNodup ?_ hother hnodup ?_ rfl (fun he => absurd he ht) h.owner
  · rw [hself]
    exact hrq
  · rw [hself]
    exact hprio
  · rw [hself]
    exact hbPrio
  · intro o
    rw [hself, hwaits]
    exact h.wait t o
  · rw [hself]
    exact htick
  · rw [hself]
    exact htimed

/-- The same, with the list of ticks as it was. -/
theorem Lists.turned (h : Lists k) {r : Runqueue T} {x : Ktask O} (ht : t ≠ k.idle)
    (hrq : r.Holds (Function.update (fun u => (k.task u).ready) t x.ready))
    (hprio : x.prio = (k.task t).prio) (hbPrio : x.bPrio = (k.task t).bPrio)
    (hwaits : x.waits = (k.task t).waits) (honTick : x.onTick = (k.task t).onTick)
    (htimed : x.onTick = true → x.state.timed) : Lists (k.moved t r k.tickHead x) := by
  refine h.moved ht hrq ?_ ?_ hwaits ?_ (fun _ _ => Iff.rfl) h.tickNodup htimed
  · rw [hprio]
    exact h.prio t
  · rw [hbPrio]
    exact h.bPrio t
  · rw [honTick]
    exact h.tick t

/-- A task is created where none was. -/
theorem created_eq (h : Lists k) {prio : Nat} (ticks : Nat) (autorun isStatic : Bool)
    (hnew : (k.task t).state = .seed ∨ (k.task t).state = .deleted) (hprio : prio < priMax) :
    ∃ r, k.created t prio ticks autorun isStatic
        = (k.spawned prio).moved t r (k.spawned prio).tickHead
          (Kernel.freshTask prio ticks autorun isStatic) ∧
      r.Holds (Function.update (fun u => ((k.spawned prio).task u).ready) t
        (Kernel.freshTask prio ticks autorun isStatic : Ktask O).ready) := by
  have hne : ((k.spawned prio).task t).state ≠ .rdy := by
    rw [(Frame.spawned k prio).1]
    rcases hnew with hs | hs <;> simp [hs]
  have hnone : ((k.spawned prio).task t).ready = none := Ktask.ready_eq_none hne
  have hrq := (h.spawned prio).rq
  cases autorun with
  | false =>
      refine ⟨(k.spawned prio).rq, rfl, ?_⟩
      have hfresh : (Kernel.freshTask prio ticks false isStatic : Ktask O).ready = none := rfl
      rw [hfresh, Function.update_eq_self_iff.mpr hnone.symm]
      exact hrq
  | true =>
      have hself : (((k.spawned prio).modTask t fun _ =>
          Kernel.freshTask prio ticks true isStatic).task t).prio = prio := by
        simp [Kernel.modTask, Kernel.freshTask]
      rcases @readyListAddTail_eq T O _ ((k.spawned prio).modTask t fun _ =>
        Kernel.freshTask prio ticks true isStatic) t _ hrq hnone (hself.symm ▸ hprio)
        with ⟨r, hr, hholds⟩
      refine ⟨r, hr, ?_⟩
      rw [hself] at hholds
      exact hholds

theorem created_lists (h : Lists k) {prio : Nat} (ticks : Nat) (autorun isStatic : Bool)
    (hnew : (k.task t).state = .seed ∨ (k.task t).state = .deleted) (hprio : prio < priMax) :
    Lists (k.created t prio ticks autorun isStatic) := by
  have htask := (Frame.spawned k prio).1
  rcases created_eq h ticks autorun isStatic hnew hprio with ⟨r, heq, hr⟩
  have hspawned := h.spawned prio
  have hne : ((k.spawned prio).task t).state ≠ .rdy := by
    rw [htask]
    rcases hnew with hs | hs <;> simp [hs]
  have hwaits : ((k.spawned prio).task t).waits = none := by
    rw [htask]
    rcases hnew with hs | hs
    · exact Ktask.waits_eq_none (by simp [hs]) (by simp [hs])
    · exact Ktask.waits_eq_none (by simp [hs]) (by simp [hs])
  have hoff := hspawned.off (t := t) (by
    rw [htask]
    rcases hnew with hs | hs <;> simp [TaskState.timed, hs])
  rw [heq]
  refine hspawned.moved (hspawned.ne_idle hne) hr hprio hprio ?_ ?_ (fun _ _ => Iff.rfl)
    hspawned.tickNodup ?_
  · rw [hwaits]
    cases autorun with
    | false => rfl
    | true => rfl
  · exact iff_of_false hoff.1 (by simp [Kernel.freshTask])
  · simp [Kernel.freshTask]

/-- A task goes to sleep. -/
theorem asleep_eq (h : Lists k) (ht : (k.task k.active).state = .rdy) (hidle : k.active ≠ k.idle)
    (ticks : Nat) :
    ∃ r l b m n, k.asleep ticks = k.moved k.active r l { k.task k.active with
          state := .sleep, onTick := b, tickMatch := m, tickRemain := n } ∧
      r.Holds (Function.update (fun u => (k.task u).ready) k.active none) ∧
      (k.active ∈ l ↔ b = true) ∧ (∀ u, u ≠ k.active → (u ∈ l ↔ u ∈ k.tickHead)) ∧ l.Nodup := by
  rcases h.not_tick ht with ⟨hnot, hoff⟩
  rcases @tickListInsert_eq T O _ (k.modTask k.active fun x => { x with state := .sleep }) k.active
    hnot h.tickNodup (by simpa [Kernel.modTask] using hoff) ticks with ⟨l, b, m, n, heq, hl⟩
  have hins : (k.modTask k.active fun x => { x with state := .sleep }).tickListInsert k.active ticks
      = k.moved k.active k.rq l { k.task k.active with
        state := .sleep, onTick := b, tickMatch := m, tickRemain := n } := by
    rw [heq]
    simp [Kernel.modTask, Kernel.moved]
  have hrm := fun x => h.readyListRm_eq ht hidle (k.moved k.active k.rq l x) rfl
  rcases hrm { k.task k.active with state := .sleep, onTick := b, tickMatch := m, tickRemain := n }
    (by rw [Kernel.moved_self]) with ⟨r, hr, hholds⟩
  refine ⟨r, l, b, m, n, ?_, hholds, hl⟩
  unfold Kernel.asleep
  rw [hins, hr]
  rfl

theorem asleep_lists (h : Lists k) (ht : (k.task k.active).state = .rdy) (hidle : k.active ≠ k.idle)
    (ticks : Nat) : Lists (k.asleep ticks) := by
  rcases asleep_eq h ht hidle ticks with ⟨r, l, b, m, n, heq, hr, hl, hlo, hln⟩
  rw [heq]
  refine h.moved hidle hr (h.prio _) (h.bPrio _) ?_ hl hlo hln ?_
  · rw [Ktask.waits_eq_none (x := k.task k.active) (by simp [ht]) (by simp [ht])]
    rfl
  · intro _
    exact .inl rfl

/-- A ready task is suspended. -/
theorem suspended_eq (h : Lists k) (ht : (k.task t).state = .rdy) (hidle : t ≠ k.idle) :
    ∃ r, (k.modTask t fun x => { x with suspendCount := 1, state := .suspended }).readyListRm t
        = k.moved t r k.tickHead { k.task t with suspendCount := 1, state := .suspended } ∧
      Lists (k.moved t r k.tickHead { k.task t with suspendCount := 1, state := .suspended }) := by
  rcases h.readyListRm_eq ht hidle
    (k.modTask t fun x => { x with suspendCount := 1, state := .suspended }) rfl
    (by simp [Kernel.modTask]) with ⟨r, hr, hholds⟩
  refine ⟨r, hr, h.turned hidle hholds rfl rfl ?_ rfl ?_⟩
  · rw [Ktask.waits_eq_none (x := k.task t) (by simp [ht]) (by simp [ht])]
    rfl
  · intro hon
    have hoff := (h.not_tick ht).2
    rw [hon] at hoff
    cases hoff

/-- A suspended task becomes ready. -/
theorem resumed_eq (h : Lists k) (ht : (k.task t).state = .suspended) (n : Nat) :
    ∃ r, (k.modTask t fun x => { x with suspendCount := n, state := .rdy }).readyListAdd t
        = k.moved t r k.tickHead { k.task t with suspendCount := n, state := .rdy } ∧
      Lists (k.moved t r k.tickHead { k.task t with suspendCount := n, state := .rdy }) := by
  have hne : (k.task t).state ≠ .rdy := by simp [ht]
  have hnone : (k.task t).ready = none := Ktask.ready_eq_none hne
  have hself : ((k.modTask t fun x => { x with suspendCount := n, state := .rdy }).task t).prio
      = (k.task t).prio := by
    simp [Kernel.modTask]
  rcases @readyListAdd_eq T O _ (k.modTask t fun x => { x with suspendCount := n, state := .rdy }) t
    (fun u => (k.task u).ready) h.rq hnone (hself ▸ h.prio t) with ⟨r, hr, hholds⟩
  rw [hself] at hholds
  refine ⟨r, hr, h.turned (h.ne_idle hne) hholds rfl rfl ?_ rfl ?_⟩
  · rw [Ktask.waits_eq_none (x := k.task t) (by simp [ht]) (by simp [ht])]
    rfl
  · intro hon
    have hoff := (h.off (t := t) (by simp [TaskState.timed, ht])).2
    rw [hon] at hoff
    cases hoff

/-- A suspension comes or goes, and no list changes. -/
theorem restated_lists (h : Lists k) {n : Nat} {s : TaskState} (hs : Shift (k.task t).state s) :
    Lists (k.modTask t fun x => { x with suspendCount := n, state := s }) := by
  rcases hs.facts with ⟨hne, hne', htimed, hpend⟩
  have hwaits : ({ k.task t with suspendCount := n, state := s } : Ktask O).waits
      = (k.task t).waits := by
    unfold Ktask.waits
    dsimp only
    rw [if_congr hpend rfl rfl]
  refine h.turned (r := k.rq) (x := { k.task t with suspendCount := n, state := s }) (h.ne_idle hne)
    ?_ rfl rfl hwaits rfl (fun hon => htimed (h.timed t hon))
  have hnone : (k.task t).ready = none := Ktask.ready_eq_none hne
  have hnone' : ({ k.task t with suspendCount := n, state := s } : Ktask O).ready = none :=
    Ktask.ready_eq_none hne'
  rw [hnone', Function.update_eq_self_iff.mpr hnone.symm]
  exact h.rq

end States

/-! ## Patient goes on -/

section Patient

variable {T O : Type} {k k' : Kernel T O} {t : T}

/-- The objects offer what they did, to tasks that ask for what they did. -/
theorem Starved.congr {x x' : Kobj T O} {y y' : Ktask O} (h : Starved x y)
    (hx : ∃ l m, x' = { x with blkList := l, mutexList := m }) (hf : y'.pendFlags = y.pendFlags)
    (ho : y'.pendOption = y.pendOption) : Starved x' y' := by
  rcases hx with ⟨l, m, rfl⟩
  unfold Starved at h ⊢
  rw [hf, ho]
  exact h

theorem Patient.step (h : Patient k) (hl : Lists k')
    (hobj : ∀ o, ∃ l m, k'.obj o = { k.obj o with blkList := l, mutexList := m })
    (hw : ∀ t o, (k'.task t).waits = some o → (k.task t).waits = some o ∧
      (k'.task t).pendFlags = (k.task t).pendFlags ∧
      (k'.task t).pendOption = (k.task t).pendOption) : Patient k' := by
  refine ⟨hl, ?_⟩
  intro t o ht
  rcases hw t o ht with ⟨hold, hf, ho⟩
  exact (h.starved t o hold).congr (hobj o) hf ho

theorem Patient.frame (h : Patient k) (hl : Lists k') (hf : Frame k k') : Patient k' :=
  h.step hl hf.obj fun t o ht => ⟨hf.waits t o ht, hf.pendFlags t, hf.pendOption t⟩

/-- One task changes its state, and asks for what it did if it waits on. -/
theorem Patient.moved [DecidableEq T] (h : Patient k) {r : Runqueue T} {l : List T} {x : Ktask O}
    (hl : Lists (k.moved t r l x))
    (hx : x.waits = none ∨ x.waits = (k.task t).waits ∧ x.pendFlags = (k.task t).pendFlags ∧
      x.pendOption = (k.task t).pendOption) : Patient (k.moved t r l x) := by
  refine h.step hl (fun o => ⟨_, _, rfl⟩) ?_
  intro u o hu
  by_cases hut : u = t
  · subst hut
    rw [Kernel.moved_self] at hu ⊢
    rcases hx with hnone | ⟨hw, hf, ho⟩
    · rw [hnone] at hu
      cases hu
    · exact ⟨hw ▸ hu, hf, ho⟩
  · rw [Kernel.moved_of_ne _ hut] at hu ⊢
    exact ⟨hu, rfl, rfl⟩

/-- One object changes in what it holds. -/
theorem Patient.modObj [DecidableEq O] (h : Patient k) {o : O} {f : Kobj T O → Kobj T O}
    (hf : (f (k.obj o)).blkList = (k.obj o).blkList)
    (howner : (f (k.obj o)).mutexTask ≠ some k.idle)
    (hstarved : ∀ t ∈ (k.obj o).blkList, Starved (f (k.obj o)) (k.task t)) :
    Patient (k.modObj o f) := by
  refine ⟨h.lists.modObj hf howner, ?_⟩
  intro t o' ht
  unfold Kernel.modObj
  dsimp only
  by_cases ho : o' = o
  · subst ho
    rw [Function.update_self]
    exact hstarved t ((h.lists.wait t o').mpr ht)
  · rw [Function.update_of_ne ho]
    exact h.starved t o' ht

theorem Patient.starved_of_mem (h : Patient k) {o : O} (ht : t ∈ (k.obj o).blkList) :
    Starved (k.obj o) (k.task t) :=
  h.starved t o ((h.lists.wait t o).mp ht)

/-- Nothing waits for what is no object. -/
theorem Patient.blkList_noType (h : Patient k) {o : O} (ho : (k.obj o).objType = .noType) :
    (k.obj o).blkList = [] := by
  rw [List.eq_nil_iff_forall_not_mem]
  intro t ht
  have hstarved := h.starved_of_mem ht
  unfold Starved at hstarved
  rw [ho] at hstarved
  exact hstarved

/-- An owner more does not feed who waits. -/
theorem Starved.owned {x : Kobj T O} {y : Ktask O} (h : Starved x y) (t : T) (m : Option O) (n : Nat) :
    Starved { x with mutexTask := some t, mutexList := m, ownerNested := n } y := by
  unfold Starved at h ⊢
  cases hx : x.objType with
  | mutex => simp
  | noType | sem | queue | bufQueue | event =>
      rw [hx] at h
      exact h

end Patient

/-! ## Mutexes change hands -/

section Hands

variable {T O : Type} [DecidableEq T] [DecidableEq O] {k k' : Kernel T O} {t : T}

theorem giveMutex_patient (h : Patient k) (ht : t ≠ k.idle) (m : O) :
    Patient (k.giveMutex m t) := by
  unfold Kernel.giveMutex
  have hobj : Patient (k.modObj m fun x =>
      { x with mutexTask := some t, mutexList := (k.task t).mutexList }) := by
    refine h.modObj rfl (fun he => ht (Option.some.inj he)) ?_
    intro u hu
    exact (h.starved_of_mem hu).owned t _ _
  exact hobj.moved (giveMutex_lists h.lists ht m) (.inr ⟨rfl, rfl, rfl⟩)

theorem freeMutex_patient (h : Patient k) (m : O) : Patient (k.freeMutex m) := by
  unfold Kernel.freeMutex
  cases hblk : (k.obj m).blkList with
  | nil =>
      refine h.modObj rfl (by simp) ?_
      intro u hu
      rw [hblk] at hu
      cases hu
  | cons u rest =>
      have hmem : u ∈ (k.obj m).blkList := hblk ▸ List.mem_cons_self
      rcases pendTaskWakeup_lists h.lists u with ⟨hlists, hframe⟩
      refine giveMutex_patient (h.frame hlists hframe) ?_ m
      rw [hframe.idle]
      exact h.lists.ne_idle_of_mem hmem

theorem mutexFreeLoop_patient (n : Nat) (h : Patient k) (start : Option O) :
    Patient (Kernel.mutexFreeLoop n k start) := by
  induction n generalizing k start with
  | zero =>
      cases start with
      | none => exact h
      | some m => exact h.frame h.lists.hang (.hang k)
  | succ n ih =>
      cases start with
      | none => exact h
      | some m => exact ih (freeMutex_patient h m) _

end Hands

/-! ## Objects are deleted, events are set -/

section Sweep

variable {T O : Type} {k k' : Kernel T O}

/-- While an event is set: flags are taken away, and tasks wake up. -/
structure Sweep (k : Kernel T O) (o : O) (cur : BitVec 32) (k' : Kernel T O) : Prop where
  lists : Lists k'
  keeps : Keeps k k'
  objType : (k'.obj o).objType = (k.obj o).objType
  flags : ∃ mask, (k'.obj o).flags = cur &&& mask
  other : ∀ o', o' ≠ o → ∃ l m, k'.obj o' = { k.obj o' with blkList := l, mutexList := m }
  pendFlags : ∀ t, (k'.task t).pendFlags = (k.task t).pendFlags
  pendOption : ∀ t, (k'.task t).pendOption = (k.task t).pendOption

theorem Sweep.refl {o : O} {cur : BitVec 32} (h : Lists k)
    (hf : ∃ mask, (k.obj o).flags = cur &&& mask) : Sweep k o cur k :=
  ⟨h, (Frame.refl k).keeps, rfl, hf, fun _ _ => ⟨_, _, rfl⟩, fun _ => rfl, fun _ => rfl⟩

theorem Sweep.frame {o : O} {cur : BitVec 32} (h : Sweep k o cur k') {k'' : Kernel T O}
    (hl : Lists k'') (hf : Frame k' k'') : Sweep k o cur k'' := by
  refine ⟨hl, h.keeps.trans hf.keeps, (hf.objType o).trans h.objType, ?_, ?_, ?_, ?_⟩
  · rcases h.flags with ⟨mask, hmask⟩
    rcases hf.obj o with ⟨l, m, ho⟩
    exact ⟨mask, by rw [ho]; exact hmask⟩
  · intro o' ho'
    rcases h.other o' ho' with ⟨l, m, hold⟩
    rcases hf.obj o' with ⟨l', m', hnew⟩
    exact ⟨l', m', by rw [hnew, hold]⟩
  · exact fun t => (hf.pendFlags t).trans (h.pendFlags t)
  · exact fun t => (hf.pendOption t).trans (h.pendOption t)

/-- Flags are taken away. -/
theorem Sweep.clear [DecidableEq O] {o : O} {cur : BitVec 32} (h : Sweep k o cur k') (m : BitVec 32) :
    Sweep k o cur (k'.modObj o fun x => { x with flags := x.flags &&& m }) := by
  refine ⟨h.lists.modObj rfl (h.lists.owner o), h.keeps.trans (.modObj k' o _), ?_, ?_, ?_,
    h.pendFlags, h.pendOption⟩
  · simp [Kernel.modObj, h.objType]
  · rcases h.flags with ⟨mask, hmask⟩
    refine ⟨mask &&& m, ?_⟩
    simp [Kernel.modObj, hmask, BitVec.and_assoc]
  · intro o' ho'
    rcases h.other o' ho' with ⟨l, m, hold⟩
    refine ⟨l, m, ?_⟩
    unfold Kernel.modObj
    dsimp only
    rw [Function.update_of_ne ho']
    exact hold

end Sweep

section Sweeps

variable {T O : Type} [DecidableEq T] {k k' : Kernel T O} {t : T}

/-- Every task of a list is woken, because its object is deleted. -/
theorem foldl_pendTaskRm (h : Lists k) (l : List T) :
    Lists (l.foldl Kernel.pendTaskRm k) ∧ Frame k (l.foldl Kernel.pendTaskRm k) ∧
      ∀ t ∈ l, ((l.foldl Kernel.pendTaskRm k).task t).waits = none := by
  induction l generalizing k with
  | nil => exact ⟨h, .refl k, by simp⟩
  | cons t l ih =>
      have hstep := pendTaskRm_lists h t
      rcases ih hstep.1 with ⟨hlists, hframe, hnone⟩
      refine ⟨hlists, hstep.2.trans hframe, ?_⟩
      intro u hu
      rcases List.mem_cons.mp hu with rfl | hu
      · -- Awake it stays.
        rw [Option.eq_none_iff_forall_ne_some]
        intro o ho
        have hold := hframe.waits u o ho
        rw [show ((k.pendTaskRm u).task u).waits = none from pendEnd_waits h u .del] at hold
        cases hold
      · exact hnone u hu

theorem wakeAll_lists (h : Lists k) {f : Ktask O → Ktask O} (hf : ∀ x, Calm x (f x)) (l : List T) :
    Lists (k.wakeAll f l) ∧ Frame k (k.wakeAll f l) := by
  refine foldl_lists ?_ h l
  intro k t h
  have hmod : Lists (k.modTask t f) := by
    refine h.modTask (hf _).toPlaced ?_
    rw [(hf _).bPrio]
    exact h.bPrio t
  have hframe : Frame k (k.modTask t f) := by
    have hcalm := hf (k.task t)
    refine Frame.update k ⟨hcalm.pendFlags, hcalm.pendOption, hcalm.bPrio, hcalm.isStatic, ?_, ?_⟩
      fun o => ⟨_, _, rfl⟩
    · intro hs
      rw [hcalm.state]
      exact hs
    · intro o ho
      rw [← hcalm.waits]
      exact ho
  have hwake := pendTaskWakeup_lists hmod t
  exact ⟨hwake.1, hframe.trans hwake.2⟩

variable [DecidableEq O]

/-- One task is tested, and does not wait on where the flags satisfy it. -/
theorem eventWake_sweep {o : O} {cur : BitVec 32} (h : Sweep k o cur k') (t : T) :
    Sweep k o cur (k'.eventWake o cur t) ∧
      (eventMet cur (k.task t).pendFlags (k.task t).pendOption = true →
        ((k'.eventWake o cur t).task t).waits = none) := by
  unfold Kernel.eventWake
  by_cases hmet : eventMet cur (k'.task t).pendFlags (k'.task t).pendOption = true
  · rw [if_pos hmet]
    have hwake := wakeAll_lists h.lists (f := fun x => { x with pendInfo := cur })
      (fun x => ⟨⟨⟨rfl, rfl, rfl, rfl⟩, rfl, rfl, rfl⟩, rfl, rfl, rfl⟩) [t]
    have hmod : Lists (k'.modTask t fun x => { x with pendInfo := cur }) :=
      h.lists.modTask ⟨rfl, rfl, rfl, rfl⟩ (h.lists.bPrio t)
    have hnone : (((k'.modTask t fun x => { x with pendInfo := cur }).pendTaskWakeup t).task
        t).waits = none := pendEnd_waits hmod t .finish
    have hsweep : Sweep k o cur
        ((k'.modTask t fun x => { x with pendInfo := cur }).pendTaskWakeup t) :=
      h.frame hwake.1 hwake.2
    dsimp only
    split_ifs
    · exact ⟨hsweep.clear _, fun _ => hnone⟩
    · exact ⟨hsweep, fun _ => hnone⟩
  · rw [if_neg hmet]
    refine ⟨h, ?_⟩
    intro hold
    rw [h.pendFlags, h.pendOption] at hmet
    exact absurd hold hmet

/-- Every task on the list is tested. -/
theorem foldl_eventWake {o : O} {cur : BitVec 32} (l : List T) (h : Sweep k o cur k') :
    Sweep k o cur (l.foldl (Kernel.eventWake o cur) k') ∧
      ∀ t ∈ l, eventMet cur (k.task t).pendFlags (k.task t).pendOption = true →
        ((l.foldl (Kernel.eventWake o cur) k').task t).waits = none := by
  induction l generalizing k k' with
  | nil => exact ⟨h, by simp⟩
  | cons t l ih =>
      rcases eventWake_sweep h t with ⟨hsweep, hwoken⟩
      rcases ih hsweep with ⟨hrest, hnone⟩
      refine ⟨hrest, ?_⟩
      intro u hu hmet
      rcases List.mem_cons.mp hu with rfl | hu
      · -- Awake it stays.
        have hlater := (ih (.refl hsweep.lists hsweep.flags)).1.keeps.waits u
        rw [Option.eq_none_iff_forall_ne_some]
        intro o' ho'
        rw [List.foldl_cons] at ho'
        have hnow := hlater o' ho'
        rw [hwoken hmet] at hnow
        cases hnow
      · exact hnone u hu hmet

end Sweeps

/-! ## Tasks are deleted -/

section Passes

variable {T O : Type} {k k' k'' : Kernel T O} {t : T}

/-- What the end of a task leaves alone. -/
structure Passes (t : T) (k k' : Kernel T O) : Prop where
  active : k'.active = k.active
  schedLock : k'.schedLock = k.schedLock
  intrptNested : k'.intrptNested = k.intrptNested
  idle : k'.idle = k.idle
  rdy : ∀ u, u ≠ t → (k.task u).state = .rdy → (k'.task u).state = .rdy

theorem Keeps.passes (h : Keeps k k') (t : T) : Passes t k k' :=
  ⟨h.active, h.schedLock, h.intrptNested, h.idle, fun u _ => h.rdy u⟩

theorem Passes.trans (h : Passes t k k') (h' : Passes t k' k'') : Passes t k k'' :=
  ⟨h'.active.trans h.active, h'.schedLock.trans h.schedLock, h'.intrptNested.trans h.intrptNested,
    h'.idle.trans h.idle, fun u hu hs => h'.rdy u hu (h.rdy u hu hs)⟩

theorem Passes.moved [DecidableEq T] (k : Kernel T O) (t : T) (r : Runqueue T) (l : List T)
    (x : Ktask O) : Passes t k (k.moved t r l x) := by
  refine ⟨rfl, rfl, rfl, rfl, ?_⟩
  intro u hu hs
  rw [Kernel.moved_of_ne _ hu]
  exact hs

theorem Passes.left [DecidableEq T] (k : Kernel T O) (t : T) (r : Runqueue T) (x : Ktask O) :
    Passes t k (k.left t r x) := by
  refine ⟨rfl, rfl, rfl, rfl, ?_⟩
  intro u hu hs
  rw [Kernel.left_of_ne _ hu]
  exact hs

theorem Patient.left [DecidableEq T] (h : Patient k) {r : Runqueue T} {x : Ktask O}
    (hl : Lists (k.left t r x)) (hx : x.waits = none) : Patient (k.left t r x) := by
  refine h.step hl (fun o => ⟨_, _, rfl⟩) ?_
  intro u o hu
  by_cases hut : u = t
  · subst hut
    rw [Kernel.left_self, hx] at hu
    cases hu
  · rw [Kernel.left_of_ne _ hut] at hu ⊢
    exact ⟨hu, rfl, rfl⟩

end Passes

section Deletion

variable {T O : Type} [DecidableEq T] [DecidableEq O] [Fintype T] [Fintype O] {k : Kernel T O} {t : T}

/-- The last state of a task. -/
def Ktask.gone {O : Type} (x : Ktask O) : Ktask O :=
  { x with state := .deleted, onTick := false }

theorem taskEnd_rdy (h : Lists k) (ht : t ≠ k.idle) (hs : (k.task t).state = .rdy) :
    ∃ r, k.taskEnd t = some (k.moved t r k.tickHead (k.task t).gone) ∧
      r.Holds (Function.update (fun u => (k.task u).ready) t none) := by
  rcases h.readyListRm_eq hs ht k rfl rfl with ⟨r, hr, hholds⟩
  refine ⟨r, ?_, hholds⟩
  have hgone : (k.task t).gone = { k.task t with state := .deleted } := by
    unfold Ktask.gone
    rw [← (h.not_tick hs).2]
  unfold Kernel.taskEnd
  rw [hs]
  dsimp only
  rw [hr, hgone]
  rfl

theorem taskEnd_suspended (h : Lists k) (hs : (k.task t).state = .suspended) :
    k.taskEnd t = some (k.moved t k.rq k.tickHead (k.task t).gone) := by
  have hgone : (k.task t).gone = { k.task t with state := .deleted } := by
    unfold Ktask.gone
    rw [← (h.off (t := t) (by simp [TaskState.timed, hs])).2]
  unfold Kernel.taskEnd
  rw [hs]
  dsimp only
  rw [hgone]
  rfl

theorem taskEnd_sleep (h : Lists k)
    (hs : (k.task t).state = .sleep ∨ (k.task t).state = .sleepSuspended) :
    k.taskEnd t = some (k.left t k.rq (k.task t).gone) := by
  have hwaits : (k.task t).waits = none := by
    rcases hs with hs | hs
    · exact Ktask.waits_eq_none (by simp [hs]) (by simp [hs])
    · exact Ktask.waits_eq_none (by simp [hs]) (by simp [hs])
  have hrm : k.tickListRm t = k.left t k.rq { k.task t with onTick := false } := by
    have hleft := tickListRm_left h hwaits (f := fun x => x) rfl
    rw [modTask_id] at hleft
    exact hleft
  unfold Kernel.taskEnd
  rcases hs with hs | hs
  · rw [hs]
    dsimp only
    rw [hrm, Kernel.modTask_left]
    rfl
  · rw [hs]
    dsimp only
    rw [hrm, Kernel.modTask_left]
    rfl

theorem taskEnd_pend (h : Lists k)
    (hs : (k.task t).state = .pend ∨ (k.task t).state = .pendSuspended) :
    k.taskEnd t = some ((k.left t k.rq (k.task t).gone).mutexTaskPriReset t) := by
  unfold Kernel.taskEnd
  rcases hs with hs | hs
  · rw [hs]
    dsimp only
    rw [tickLeave_eq h, Kernel.modTask_left]
    rfl
  · rw [hs]
    dsimp only
    rw [tickLeave_eq h, Kernel.modTask_left]
    rfl

theorem taskEnd_patient (h : Patient k) (ht : t ≠ k.idle) {k' : Kernel T O}
    (hend : k.taskEnd t = some k') : Patient k' ∧ Passes t k k' := by
  have hl := h.lists
  cases hs : (k.task t).state with
  | rdy =>
      rcases taskEnd_rdy hl ht hs with ⟨r, heq, hr⟩
      rw [heq, Option.some.injEq] at hend
      rw [← hend]
      have hlists : Lists (k.moved t r k.tickHead (k.task t).gone) := by
        refine hl.turned ht hr rfl rfl ?_ (hl.not_tick hs).2.symm (by simp [Ktask.gone])
        rw [Ktask.waits_eq_none (x := k.task t) (by simp [hs]) (by simp [hs])]
        rfl
      exact ⟨h.moved hlists (.inl rfl), .moved ..⟩
  | suspended =>
      rw [taskEnd_suspended hl hs, Option.some.injEq] at hend
      rw [← hend]
      have hoff := hl.off (t := t) (by simp [TaskState.timed, hs])
      have hlists : Lists (k.moved t k.rq k.tickHead (k.task t).gone) := by
        refine hl.turned ht ?_ rfl rfl ?_ hoff.2.symm (by simp [Ktask.gone])
        · have hnone : (k.task t).ready = none := Ktask.ready_eq_none (by simp [hs])
          have hgone : (k.task t).gone.ready = none := rfl
          rw [hgone, Function.update_eq_self_iff.mpr hnone.symm]
          exact hl.rq
        · rw [Ktask.waits_eq_none (x := k.task t) (by simp [hs]) (by simp [hs])]
          rfl
      exact ⟨h.moved hlists (.inl rfl), .moved ..⟩
  | sleep | sleepSuspended =>
      rw [taskEnd_sleep hl (by simp [hs]), Option.some.injEq] at hend
      rw [← hend]
      have hlists := hl.rest (x := (k.task t).gone) (by simp [hs]) (.inr rfl) rfl rfl rfl
      exact ⟨h.left hlists rfl, .left ..⟩
  | pend | pendSuspended =>
      rw [taskEnd_pend hl (by simp [hs]), Option.some.injEq] at hend
      rw [← hend]
      have hlists := hl.rest (x := (k.task t).gone) (by simp [hs]) (.inr rfl) rfl rfl rfl
      have hrepri := mutexTaskPriReset_repri hlists t
      exact ⟨(h.left hlists rfl).frame hrepri.2 hrepri.frame,
        (Passes.left ..).trans (hrepri.frame.keeps.passes t)⟩
  | seed | deleted =>
      unfold Kernel.taskEnd at hend
      rw [hs] at hend
      cases hend

end Deletion

end Rhino

end Wujian100
