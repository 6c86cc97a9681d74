import Wujian100.Core.Rhino.Calls
import Wujian100.Theory.Rhino.Runqueue
import Wujian100.Library.Klist

/-!
# The Lists of the Kernel

Where a task is on the lists is read off its state: on the ready list of its
priority if it is ready, on the list of its object if it waits, on the list of
ticks if it says so. Every function of the kernel keeps it that way, whatever the
mutexes look like.

## Main definitions

* `Ktask.ready`, `Ktask.waits`: Where a task should be.
* `Lists`: Where the tasks are.
* `Frame`: What moving tasks between lists leaves alone.

## Theorems

* `pendEnd_lists`, `pendToBlkObj_lists`: A task wakes up, a task waits.
* `pendListReorder_lists`: A task that waits changes its place.
-/

namespace Wujian100

namespace Rhino

/-! ## Where a task should be -/

/-- The ready list of a task. -/
def Ktask.ready {O : Type} (x : Ktask O) : Option Nat :=
  if x.state = .rdy then some x.prio else none

/-- The object a task waits for. -/
def Ktask.waits {O : Type} (x : Ktask O) : Option O :=
  if x.state = .pend ∨ x.state = .pendSuspended then x.blkObj else none

/-- A task in this state may have a time. -/
def TaskState.timed (s : TaskState) : Prop :=
  s = .sleep ∨ s = .sleepSuspended ∨ s = .pend ∨ s = .pendSuspended

/-- The tasks are where their states say, the idle task is ready, and it owns
    nothing. -/
structure Lists {T O : Type} (k : Kernel T O) : Prop where
  rq : k.rq.Holds fun t => (k.task t).ready
  prio : ∀ t, (k.task t).prio < priMax
  bPrio : ∀ t, (k.task t).bPrio < priMax
  wait : ∀ t o, t ∈ (k.obj o).blkList ↔ (k.task t).waits = some o
  waitNodup : ∀ o, (k.obj o).blkList.Nodup
  tick : ∀ t, t ∈ k.tickHead ↔ (k.task t).onTick = true
  tickNodup : k.tickHead.Nodup
  timed : ∀ t, (k.task t).onTick = true → (k.task t).state.timed
  idle : (k.task k.idle).ready = some idlePri
  owner : ∀ m, (k.obj m).mutexTask ≠ some k.idle

/-- What moving tasks between lists leaves alone. -/
structure Frame {T O : Type} (k k' : Kernel T O) : Prop where
  active : k'.active = k.active
  schedLock : k'.schedLock = k.schedLock
  intrptNested : k'.intrptNested = k.intrptNested
  running : k'.running = k.running
  idleSpawned : k'.idleSpawned = k.idleSpawned
  idle : k'.idle = k.idle
  resSem : k'.resSem = k.resSem
  obj : ∀ o, ∃ l m, k'.obj o = { k.obj o with blkList := l, mutexList := m }
  pendFlags : ∀ t, (k'.task t).pendFlags = (k.task t).pendFlags
  pendOption : ∀ t, (k'.task t).pendOption = (k.task t).pendOption
  bPrio : ∀ t, (k'.task t).bPrio = (k.task t).bPrio
  isStatic : ∀ t, (k'.task t).isStatic = (k.task t).isStatic
  rdy : ∀ t, (k.task t).state = .rdy → (k'.task t).state = .rdy
  waits : ∀ t o, (k'.task t).waits = some o → (k.task t).waits = some o

namespace Frame

variable {T O : Type} {k k' k'' : Kernel T O}

theorem refl (k : Kernel T O) : Frame k k :=
  ⟨rfl, rfl, rfl, rfl, rfl, rfl, rfl, fun _ => ⟨_, _, rfl⟩, fun _ => rfl, fun _ => rfl, fun _ => rfl,
    fun _ => rfl, fun _ h => h, fun _ _ h => h⟩

theorem trans (h : Frame k k') (h' : Frame k' k'') : Frame k k'' := by
  refine ⟨h'.active.trans h.active, h'.schedLock.trans h.schedLock,
    h'.intrptNested.trans h.intrptNested, h'.running.trans h.running,
    h'.idleSpawned.trans h.idleSpawned, h'.idle.trans h.idle, h'.resSem.trans h.resSem, ?_,
    fun t => (h'.pendFlags t).trans (h.pendFlags t),
    fun t => (h'.pendOption t).trans (h.pendOption t),
    fun t => (h'.bPrio t).trans (h.bPrio t), fun t => (h'.isStatic t).trans (h.isStatic t),
    fun t ht => h'.rdy t (h.rdy t ht), fun t o ht => h.waits t o (h'.waits t o ht)⟩
  intro o
  rcases h.obj o with ⟨l, m, ho⟩
  rcases h'.obj o with ⟨l', m', ho'⟩
  refine ⟨l', m', ?_⟩
  rw [ho', ho]

theorem objType (h : Frame k k') (o : O) : (k'.obj o).objType = (k.obj o).objType := by
  rcases h.obj o with ⟨l, m, ho⟩
  rw [ho]

theorem mutexTask (h : Frame k k') (o : O) : (k'.obj o).mutexTask = (k.obj o).mutexTask := by
  rcases h.obj o with ⟨l, m, ho⟩
  rw [ho]

end Frame

/-! ## One task moves -/

section OneTask

variable {T O : Type} {k k' : Kernel T O} {t : T}

/-- Only `t` moves, and it comes to where it should be. -/
theorem Lists.of_task [DecidableEq T] (h : Lists k)
    (hother : ∀ u, u ≠ t → k'.task u = k.task u)
    (hrq : k'.rq.Holds (Function.update (fun u => (k.task u).ready) t (k'.task t).ready))
    (hprio : (k'.task t).prio < priMax) (hbPrio : (k'.task t).bPrio < priMax)
    (hwait : ∀ o, t ∈ (k'.obj o).blkList ↔ (k'.task t).waits = some o)
    (hwaitOther : ∀ o u, u ≠ t → (u ∈ (k'.obj o).blkList ↔ u ∈ (k.obj o).blkList))
    (hnodup : ∀ o, (k'.obj o).blkList.Nodup)
    (htick : t ∈ k'.tickHead ↔ (k'.task t).onTick = true)
    (htickOther : ∀ u, u ≠ t → (u ∈ k'.tickHead ↔ u ∈ k.tickHead)) (htickNodup : k'.tickHead.Nodup)
    (htimed : (k'.task t).onTick = true → (k'.task t).state.timed) (hidle : k'.idle = k.idle)
    (hready : t = k.idle → (k'.task t).ready = some idlePri)
    (howner : ∀ m, (k'.obj m).mutexTask ≠ some k.idle) : Lists k' := by
  have hfun : (fun u => (k'.task u).ready)
      = Function.update (fun u => (k.task u).ready) t (k'.task t).ready := by
    funext u
    by_cases hu : u = t
    · rw [hu, Function.update_self]
    · rw [Function.update_of_ne hu, hother u hu]
  refine ⟨hfun ▸ hrq, ?_, ?_, ?_, hnodup, ?_, htickNodup, ?_, ?_, by rw [hidle]; exact howner⟩
  · intro u
    by_cases hu : u = t
    · rw [hu]
      exact hprio
    · rw [hother u hu]
      exact h.prio u
  · intro u
    by_cases hu : u = t
    · rw [hu]
      exact hbPrio
    · rw [hother u hu]
      exact h.bPrio u
  · intro u o
    by_cases hu : u = t
    · rw [hu]
      exact hwait o
    · rw [hwaitOther o u hu, hother u hu]
      exact h.wait u o
  · intro u
    by_cases hu : u = t
    · rw [hu]
      exact htick
    · rw [htickOther u hu, hother u hu]
      exact h.tick u
  · intro u
    by_cases hu : u = t
    · rw [hu]
      exact htimed
    · rw [hother u hu]
      exact h.timed u
  · rw [hidle]
    by_cases hu : k.idle = t
    · rw [hu]
      exact hready hu.symm
    · rw [hother _ hu]
      exact h.idle

theorem Frame.of_obj (k : Kernel T O) {f : O → Kobj T O}
    (hf : ∀ o, ∃ l m, f o = { k.obj o with blkList := l, mutexList := m }) :
    Frame k { k with obj := f } :=
  ⟨rfl, rfl, rfl, rfl, rfl, rfl, rfl, hf, fun _ => rfl, fun _ => rfl, fun _ => rfl, fun _ => rfl,
    fun _ h => h, fun _ _ h => h⟩

/-- A ready task waits for nothing, and what waits is not ready. -/
theorem Ktask.ready_eq_none {x : Ktask O} (h : x.state ≠ .rdy) : x.ready = none :=
  if_neg h

theorem Ktask.ready_eq_some {x : Ktask O} (h : x.state = .rdy) : x.ready = some x.prio :=
  if_pos h

theorem Ktask.waits_eq_none {x : Ktask O} (h : x.state ≠ .pend) (h' : x.state ≠ .pendSuspended) :
    x.waits = none :=
  if_neg (by simp [h, h'])

/-- A task that waits does so in one of two states. -/
theorem Ktask.state_of_waits {x : Ktask O} {o : O} (h : x.waits = some o) :
    (x.state = .pend ∨ x.state = .pendSuspended) ∧ x.blkObj = some o := by
  unfold Ktask.waits at h
  by_cases hs : x.state = .pend ∨ x.state = .pendSuspended
  · rw [if_pos hs] at h
    exact ⟨hs, h⟩
  · rw [if_neg hs] at h
    cases h

theorem Ktask.state_ne_rdy {x : Ktask O} {o : O} (h : x.waits = some o) : x.state ≠ .rdy := by
  rcases (Ktask.state_of_waits h).1 with hs | hs
  · rw [hs]
    simp
  · rw [hs]
    simp

/-- The idle task is ready at its priority. -/
theorem Lists.idle_state (h : Lists k) :
    (k.task k.idle).state = .rdy ∧ (k.task k.idle).prio = idlePri := by
  have hidle := h.idle
  unfold Ktask.ready at hidle
  by_cases hs : (k.task k.idle).state = .rdy
  · rw [if_pos hs, Option.some.injEq] at hidle
    exact ⟨hs, hidle⟩
  · rw [if_neg hs] at hidle
    cases hidle

theorem Lists.ne_idle (h : Lists k) (ht : (k.task t).state ≠ .rdy) : t ≠ k.idle := by
  intro he
  rw [he] at ht
  exact ht h.idle_state.1

/-- The idle task is on no list of an object. -/
theorem Lists.ne_idle_of_mem (h : Lists k) {o : O} (ht : t ∈ (k.obj o).blkList) : t ≠ k.idle :=
  h.ne_idle (Ktask.state_ne_rdy ((h.wait t o).mp ht))

/-- What places a task on lists. -/
structure Placed {O : Type} (x y : Ktask O) : Prop where
  state : y.state = x.state
  prio : y.prio = x.prio
  waits : y.waits = x.waits
  onTick : y.onTick = x.onTick

theorem Placed.refl (x : Ktask O) : Placed x x :=
  ⟨rfl, rfl, rfl, rfl⟩

theorem Placed.ready {x y : Ktask O} (h : Placed x y) : y.ready = x.ready := by
  unfold Ktask.ready
  rw [h.state, h.prio]

/-- Lists that are as they were hold what they held. -/
theorem Lists.congr (h : Lists k) (hrq : k'.rq = k.rq) (htick : k'.tickHead = k.tickHead)
    (hidle : k'.idle = k.idle) (htask : ∀ u, Placed (k.task u) (k'.task u))
    (hbPrio : ∀ u, (k'.task u).bPrio < priMax)
    (hblk : ∀ o, (k'.obj o).blkList = (k.obj o).blkList)
    (howner : ∀ m, (k'.obj m).mutexTask ≠ some k.idle) : Lists k' := by
  refine ⟨?_, ?_, hbPrio, ?_, ?_, ?_, htick ▸ h.tickNodup, ?_, ?_, hidle ▸ howner⟩
  · have hfun : (fun u => (k'.task u).ready) = fun u => (k.task u).ready := by
      funext u
      exact (htask u).ready
    rw [hrq, hfun]
    exact h.rq
  · intro u
    rw [(htask u).prio]
    exact h.prio u
  · intro u o
    rw [hblk o, (htask u).waits]
    exact h.wait u o
  · intro o
    rw [hblk o]
    exact h.waitNodup o
  · intro u
    rw [htick, (htask u).onTick]
    exact h.tick u
  · intro u
    rw [(htask u).onTick, (htask u).state]
    exact h.timed u
  · rw [hidle, (htask _).ready]
    exact h.idle

/-- Nothing about lists depends on being stuck. -/
theorem Lists.hang (h : Lists k) : Lists k.hang :=
  ⟨h.rq, h.prio, h.bPrio, h.wait, h.waitNodup, h.tick, h.tickNodup, h.timed, h.idle, h.owner⟩

theorem Frame.hang (k : Kernel T O) : Frame k k.hang :=
  ⟨rfl, rfl, rfl, rfl, rfl, rfl, rfl, fun _ => ⟨_, _, rfl⟩, fun _ => rfl, fun _ => rfl, fun _ => rfl,
    fun _ => rfl, fun _ h => h, fun _ _ h => h⟩

/-- A ready task has no time running. -/
theorem Lists.not_tick (h : Lists k) (ht : (k.task t).state = .rdy) :
    t ∉ k.tickHead ∧ (k.task t).onTick = false := by
  have hoff : (k.task t).onTick = false := by
    by_contra hon
    have htimed := h.timed t (by simpa using hon)
    rw [ht] at htimed
    simp [TaskState.timed] at htimed
  refine ⟨?_, hoff⟩
  intro hmem
  rw [(h.tick t).mp hmem] at hoff
  cases hoff

end OneTask

/-! ## Changes that move no task -/

section Still

variable {T O : Type} {k : Kernel T O} {t : T}

theorem Lists.modTask [DecidableEq T] (h : Lists k) {f : Ktask O → Ktask O}
    (hf : Placed (k.task t) (f (k.task t))) (hb : (f (k.task t)).bPrio < priMax) :
    Lists (k.modTask t f) := by
  have hsplit : ∀ u, u = t ∨ (k.modTask t f).task u = k.task u := by
    intro u
    by_cases hu : u = t
    · exact .inl hu
    · exact .inr (Function.update_of_ne hu _ _)
  have hself : (k.modTask t f).task t = f (k.task t) := Function.update_self ..
  refine h.congr rfl rfl rfl ?_ ?_ (fun _ => rfl) h.owner
  · intro u
    rcases hsplit u with rfl | hu
    · rw [hself]
      exact hf
    · rw [hu]
      exact .refl _
  · intro u
    rcases hsplit u with rfl | hu
    · rw [hself]
      exact hb
    · rw [hu]
      exact h.bPrio u

theorem Lists.modObj [DecidableEq O] (h : Lists k) {o : O} {f : Kobj T O → Kobj T O}
    (hf : (f (k.obj o)).blkList = (k.obj o).blkList)
    (howner : (f (k.obj o)).mutexTask ≠ some k.idle) : Lists (k.modObj o f) := by
  have hself : (k.modObj o f).obj o = f (k.obj o) := Function.update_self ..
  have hother : ∀ o', o' ≠ o → (k.modObj o f).obj o' = k.obj o' :=
    fun o' ho => Function.update_of_ne ho _ _
  refine h.congr rfl rfl rfl (fun _ => .refl _) h.bPrio ?_ ?_
  · intro o'
    by_cases ho : o' = o
    · rw [ho, hself]
      exact hf
    · rw [hother o' ho]
  · intro o'
    by_cases ho : o' = o
    · rw [ho, hself]
      exact howner
    · rw [hother o' ho]
      exact h.owner o'

end Still

/-! ## The functions on lists, as updates -/

section Updates

variable {T O : Type} [DecidableEq T] {k : Kernel T O} {t : T}

theorem readyListAddHead_eq {ready : T → Option Nat} (h : k.rq.Holds ready) (ht : ready t = none)
    (hp : (k.task t).prio < priMax) :
    ∃ r, k.readyListAddHead t = { k with rq := r } ∧
      r.Holds (Function.update ready t (some (k.task t).prio)) :=
  ⟨_, rfl, Runqueue.addHead_holds h ht hp⟩

theorem readyListAddTail_eq {ready : T → Option Nat} (h : k.rq.Holds ready) (ht : ready t = none)
    (hp : (k.task t).prio < priMax) :
    ∃ r, k.readyListAddTail t = { k with rq := r } ∧
      r.Holds (Function.update ready t (some (k.task t).prio)) :=
  ⟨_, rfl, Runqueue.addTail_holds h ht hp⟩

theorem readyListAdd_eq {ready : T → Option Nat} (h : k.rq.Holds ready) (ht : ready t = none)
    (hp : (k.task t).prio < priMax) :
    ∃ r, k.readyListAdd t = { k with rq := r } ∧
      r.Holds (Function.update ready t (some (k.task t).prio)) := by
  unfold Kernel.readyListAdd
  split_ifs
  · exact readyListAddTail_eq h ht hp
  · exact readyListAddHead_eq h ht hp

/-- The idle task is left, so the ready list can be left. -/
theorem readyListRm_eq {ready : T → Option Nat} (h : k.rq.Holds ready)
    (ht : ready t = some (k.task t).prio) {u : T} {q : Nat} (hu : u ≠ t) (hq : ready u = some q) :
    ∃ r, k.readyListRm t = { k with rq := r } ∧ r.Holds (Function.update ready t none) := by
  rcases Runqueue.rm_holds h ht hu hq with ⟨r, hr, hholds⟩
  unfold Kernel.readyListRm
  rw [hr]
  exact ⟨r, rfl, hholds⟩

theorem tickListRm_eq (h : t ∈ k.tickHead ↔ (k.task t).onTick = true) :
    k.tickListRm t = { k with
      tickHead := k.tickHead.erase t
      task := Function.update k.task t { k.task t with onTick := false } } := by
  unfold Kernel.tickListRm
  by_cases hon : (k.task t).onTick = true
  · rw [if_pos hon]
    rfl
  · rw [if_neg hon, List.erase_of_not_mem fun hmem => hon (h.mp hmem)]
    have hfalse : (k.task t).onTick = false := by simpa using hon
    have hself : { k.task t with onTick := false } = k.task t := by rw [← hfalse]
    rw [hself, Function.update_eq_self]

end Updates

/-! ## A task wakes up -/

section Wakeup

variable {T O : Type} [DecidableEq T] {k : Kernel T O} {t : T}

/-- The kernel once `t` has left the list it waits on and the list of ticks. -/
def Kernel.left (k : Kernel T O) (t : T) (r : Runqueue T) (x : Ktask O) : Kernel T O :=
  { k with
    rq := r
    obj := fun o => { k.obj o with blkList := (k.obj o).blkList.erase t }
    tickHead := k.tickHead.erase t
    task := Function.update k.task t x }

@[simp] theorem Kernel.left_self (k : Kernel T O) (t : T) (r : Runqueue T) (x : Ktask O) :
    (k.left t r x).task t = x :=
  Function.update_self ..

theorem Kernel.left_of_ne (k : Kernel T O) {t u : T} (hu : u ≠ t) (r : Runqueue T) (x : Ktask O) :
    (k.left t r x).task u = k.task u :=
  Function.update_of_ne hu ..

/-- The fields of a task after `pend_task_wakeup` or `pend_task_rm`. -/
def Ktask.woken {O : Type} (x : Ktask O) (state : TaskState) (b : BlkState) : Ktask O :=
  { x with state := state, onTick := false, blkState := b, blkObj := none }

theorem pendEnd_pend (h : Lists k) (ht : (k.task t).state = .pend) (b : BlkState) :
    ∃ r, k.pendEnd t b = k.left t r ((k.task t).woken .rdy b) ∧
      r.Holds (Function.update (fun u => (k.task u).ready) t (some (k.task t).prio)) := by
  have hnone : (k.task t).ready = none := Ktask.ready_eq_none (by rw [ht]; simp)
  rcases @readyListAdd_eq T O _ (k.klistRm t) t (fun u => (k.task u).ready) h.rq hnone (h.prio t)
    with ⟨r, hr, hholds⟩
  refine ⟨r, ?_, hholds⟩
  unfold Kernel.pendEnd
  rw [ht]
  dsimp only
  rw [hr, tickListRm_eq]
  · simp [Kernel.modTask, Kernel.klistRm, Kernel.left, Ktask.woken]
  · simpa [Kernel.modTask, Kernel.klistRm] using h.tick t

theorem pendEnd_pendSuspended (h : Lists k) (ht : (k.task t).state = .pendSuspended)
    (b : BlkState) :
    k.pendEnd t b = k.left t k.rq ((k.task t).woken .suspended b) := by
  unfold Kernel.pendEnd
  rw [ht]
  dsimp only
  rw [tickListRm_eq]
  · simp [Kernel.modTask, Kernel.klistRm, Kernel.left, Ktask.woken]
  · simpa [Kernel.modTask, Kernel.klistRm] using h.tick t

/-- The list of an object without a task that leaves all lists. -/
theorem Lists.erase_wait (h : Lists k) (o : O) :
    (t ∉ (k.obj o).blkList.erase t) ∧
      (∀ u, u ≠ t → (u ∈ (k.obj o).blkList.erase t ↔ u ∈ (k.obj o).blkList)) ∧
      ((k.obj o).blkList.erase t).Nodup :=
  ⟨(h.waitNodup o).not_mem_erase, fun _ hu => List.mem_erase_of_ne hu, (h.waitNodup o).erase t⟩

theorem Lists.erase_tick (h : Lists k) :
    (t ∉ k.tickHead.erase t) ∧ (∀ u, u ≠ t → (u ∈ k.tickHead.erase t ↔ u ∈ k.tickHead)) ∧
      (k.tickHead.erase t).Nodup :=
  ⟨h.tickNodup.not_mem_erase, fun _ hu => List.mem_erase_of_ne hu, h.tickNodup.erase t⟩

/-- A task leaves the list it waits on and the list of ticks, for a state in which
    it waits for nothing. -/
theorem Lists.leave (h : Lists k) {r : Runqueue T} {x : Ktask O} (ht : t ≠ k.idle)
    (hrq : r.Holds (Function.update (fun u => (k.task u).ready) t x.ready))
    (hprio : x.prio = (k.task t).prio) (hbPrio : x.bPrio = (k.task t).bPrio)
    (hwaits : x.waits = none) (htick : x.onTick = false) : Lists (k.left t r x) := by
  have hself : (k.left t r x).task t = x := k.left_self t r x
  refine h.of_task (t := t) (fun u hu => k.left_of_ne hu r x) ?_ ?_ ?_ ?_
    (fun o => (h.erase_wait o).2.1) (fun o => (h.erase_wait o).2.2) ?_ h.erase_tick.2.1
    h.erase_tick.2.2 ?_ rfl (fun he => absurd he ht) h.owner
  · rw [hself]
    exact hrq
  · rw [hself, hprio]
    exact h.prio t
  · rw [hself, hbPrio]
    exact h.bPrio t
  · intro o
    rw [hself, hwaits]
    exact iff_of_false (h.erase_wait o).1 (by simp)
  · rw [hself, htick]
    exact iff_of_false h.erase_tick.1 (by simp)
  · rw [hself, htick]
    simp

/-- What a task may change of itself. -/
structure TaskFrame {O : Type} (x y : Ktask O) : Prop where
  pendFlags : y.pendFlags = x.pendFlags
  pendOption : y.pendOption = x.pendOption
  bPrio : y.bPrio = x.bPrio
  isStatic : y.isStatic = x.isStatic
  rdy : x.state = .rdy → y.state = .rdy
  waits : ∀ o, y.waits = some o → x.waits = some o

/-- One task changes, and the lists. -/
theorem Frame.update (k : Kernel T O) {r : Runqueue T} {x : Ktask O} {l : List T} {b : Bool}
    {f : O → Kobj T O} (hx : TaskFrame (k.task t) x)
    (hf : ∀ o, ∃ l m, f o = { k.obj o with blkList := l, mutexList := m }) :
    Frame k { k with
      rq := r, obj := f, tickHead := l, stuck := b, task := Function.update k.task t x } := by
  have hsplit : ∀ {α : Type} (f : Ktask O → α), f x = f (k.task t) →
      ∀ u, f (Function.update k.task t x u) = f (k.task u) := by
    intro α f hf u
    by_cases hu : u = t
    · rw [hu, Function.update_self, hf]
    · rw [Function.update_of_ne hu]
  refine ⟨rfl, rfl, rfl, rfl, rfl, rfl, rfl, hf, hsplit _ hx.pendFlags, hsplit _ hx.pendOption,
    hsplit _ hx.bPrio, hsplit _ hx.isStatic, ?_, ?_⟩
  · intro u hu
    dsimp only
    by_cases hut : u = t
    · rw [hut] at hu
      rw [hut, Function.update_self]
      exact hx.rdy hu
    · rw [Function.update_of_ne hut]
      exact hu
  · intro u o hu
    dsimp only at hu
    by_cases hut : u = t
    · rw [hut, Function.update_self] at hu
      rw [hut]
      exact hx.waits o hu
    · rw [Function.update_of_ne hut] at hu
      exact hu

theorem TaskFrame.woken {x : Ktask O} {state : TaskState} {b : BlkState}
    (hs : x.state = .rdy → state = .rdy) : TaskFrame x (x.woken state b) := by
  refine ⟨rfl, rfl, rfl, rfl, hs, ?_⟩
  intro o ho
  have hobj := (Ktask.state_of_waits ho).2
  cases hobj

/-- Changes of a task that no list depends on, but for the list of ticks, which it
    leaves. -/
theorem Lists.quiet (h : Lists k) {x : Ktask O} (hready : x.ready = (k.task t).ready)
    (hprio : x.prio = (k.task t).prio) (hbPrio : x.bPrio = (k.task t).bPrio)
    (hwaits : x.waits = (k.task t).waits) (htick : x.onTick = false) :
    Lists { k with tickHead := k.tickHead.erase t, task := Function.update k.task t x } := by
  have hself : Function.update k.task t x t = x := Function.update_self ..
  refine h.of_task (t := t) (fun u hu => Function.update_of_ne hu _ _) ?_ ?_ ?_ ?_
    (fun _ _ _ => Iff.rfl) h.waitNodup ?_ h.erase_tick.2.1 h.erase_tick.2.2 ?_ rfl ?_ h.owner
  · dsimp only
    rw [hself, hready, Function.update_eq_self_iff.mpr rfl]
    exact h.rq
  · dsimp only
    rw [hself, hprio]
    exact h.prio t
  · dsimp only
    rw [hself, hbPrio]
    exact h.bPrio t
  · intro o
    dsimp only
    rw [hself, hwaits]
    exact h.wait t o
  · dsimp only
    rw [hself, htick]
    simp [h.erase_tick.1]
  · dsimp only
    rw [hself, htick]
    simp
  · intro he
    dsimp only
    rw [hself, hready, he]
    exact h.idle

theorem pendEnd_other (h : Lists k) (ht : (k.task t).state ≠ .pend)
    (ht' : (k.task t).state ≠ .pendSuspended) (b : BlkState) :
    k.pendEnd t b = { k with
      stuck := true
      tickHead := k.tickHead.erase t
      task := Function.update k.task t ((k.task t).woken (k.task t).state b) } := by
  cases hs : (k.task t).state with
  | pend => exact absurd hs ht
  | pendSuspended => exact absurd hs ht'
  | _ =>
      unfold Kernel.pendEnd
      rw [hs]
      dsimp only
      rw [tickListRm_eq (h.hang.tick t)]
      simp [Kernel.modTask, Kernel.hang, Ktask.woken, hs]

/-- Waking a task keeps the lists. -/
theorem pendEnd_lists (h : Lists k) (t : T) (b : BlkState) : Lists (k.pendEnd t b) := by
  by_cases hp : (k.task t).state = .pend
  · rcases pendEnd_pend h hp b with ⟨r, heq, hr⟩
    rw [heq]
    exact h.leave (h.ne_idle (by rw [hp]; simp)) hr rfl rfl rfl rfl
  · by_cases hs : (k.task t).state = .pendSuspended
    · rw [pendEnd_pendSuspended h hs b]
      refine h.leave (h.ne_idle (by rw [hs]; simp)) ?_ rfl rfl rfl rfl
      have hnone : (k.task t).ready = none := Ktask.ready_eq_none (by rw [hs]; simp)
      rw [Function.update_eq_self_iff.mpr hnone.symm]
      exact h.rq
    · rw [pendEnd_other h hp hs b]
      refine h.hang.quiet rfl rfl rfl ?_ rfl
      have hwoken : ((k.task t).woken (k.task t).state b).waits = none :=
        Ktask.waits_eq_none hp hs
      exact hwoken.trans (Ktask.waits_eq_none hp hs).symm

theorem pendEnd_frame (h : Lists k) (t : T) (b : BlkState) : Frame k (k.pendEnd t b) := by
  by_cases hp : (k.task t).state = .pend
  · rcases pendEnd_pend h hp b with ⟨r, heq, -⟩
    rw [heq]
    exact Frame.update k (.woken (by simp)) fun o => ⟨_, _, rfl⟩
  · by_cases hs : (k.task t).state = .pendSuspended
    · rw [pendEnd_pendSuspended h hs b]
      exact Frame.update k (.woken (by simp [hs])) fun o => ⟨_, _, rfl⟩
    · rw [pendEnd_other h hp hs b]
      exact Frame.update k (.woken id) fun o => ⟨_, _, rfl⟩

theorem pendTaskWakeup_lists (h : Lists k) (t : T) :
    Lists (k.pendTaskWakeup t) ∧ Frame k (k.pendTaskWakeup t) :=
  ⟨pendEnd_lists h t .finish, pendEnd_frame h t .finish⟩

theorem pendTaskRm_lists (h : Lists k) (t : T) :
    Lists (k.pendTaskRm t) ∧ Frame k (k.pendTaskRm t) :=
  ⟨pendEnd_lists h t .del, pendEnd_frame h t .del⟩

/-- A task that was woken waits for nothing. -/
theorem pendEnd_waits (h : Lists k) (t : T) (b : BlkState) : ((k.pendEnd t b).task t).waits = none := by
  by_cases hp : (k.task t).state = .pend
  · rcases pendEnd_pend h hp b with ⟨r, heq, -⟩
    rw [heq, Kernel.left_self]
    rfl
  · by_cases hs : (k.task t).state = .pendSuspended
    · rw [pendEnd_pendSuspended h hs b, Kernel.left_self]
      rfl
    · rw [pendEnd_other h hp hs b]
      dsimp only
      rw [Function.update_self]
      exact Ktask.waits_eq_none hp hs

end Wakeup

/-! ## A task waits -/

section Wait

variable {T O : Type} [DecidableEq T] {k : Kernel T O} {t : T}

/-- A task that is on no list of ticks goes on it, or on none. -/
theorem tickListInsert_eq (h : t ∉ k.tickHead) (hnodup : k.tickHead.Nodup)
    (hon : (k.task t).onTick = false) (time : Nat) :
    ∃ l b m n, k.tickListInsert t time = { k with
        tickHead := l
        task := Function.update k.task t
          { k.task t with onTick := b, tickMatch := m, tickRemain := n } } ∧
      (t ∈ l ↔ b = true) ∧ (∀ u, u ≠ t → (u ∈ l ↔ u ∈ k.tickHead)) ∧ l.Nodup := by
  unfold Kernel.tickListInsert
  by_cases htime : time > 0
  · rw [if_pos htime]
    let tasks := Function.update k.task t
      { k.task t with tickMatch := (k.tickCount + time) % 2 ^ 64, tickRemain := time }
    refine ⟨k.tickHead.orderedInsert
        (fun a b => timeSub (tasks b).tickMatch k.tickCount > (tasks a).tickRemain) t,
      true, (k.tickCount + time) % 2 ^ 64, time, ?_, ?_, ?_, ?_⟩
    · simp [Kernel.modTask, tasks]
    · simp
    · intro u hu
      rw [List.mem_orderedInsert]
      simp [hu]
    · exact nodup_orderedInsert.mpr ⟨h, hnodup⟩
  · rw [if_neg htime]
    refine ⟨k.tickHead, false, (k.task t).tickMatch, (k.task t).tickRemain, ?_, by simp [h],
      fun u _ => Iff.rfl, hnodup⟩
    have hself : { k.task t with
        onTick := false, tickMatch := (k.task t).tickMatch
        tickRemain := (k.task t).tickRemain } = k.task t := by rw [← hon]
    rw [hself, Function.update_eq_self]

/-- A task other than the idle one leaves its ready list. -/
theorem Lists.readyListRm_eq (h : Lists k) (ht : (k.task t).state = .rdy) (hidle : t ≠ k.idle)
    (k' : Kernel T O) (hrq : k'.rq = k.rq) (hprio : (k'.task t).prio = (k.task t).prio) :
    ∃ r, k'.readyListRm t = { k' with rq := r } ∧
      r.Holds (Function.update (fun u => (k.task u).ready) t none) := by
  have hholds : k'.rq.Holds fun u => (k.task u).ready := hrq ▸ h.rq
  refine Rhino.readyListRm_eq hholds ?_ (Ne.symm hidle) h.idle
  rw [hprio]
  exact Ktask.ready_eq_some ht

/-- The task that waits, with its time. -/
def Ktask.waiting {O : Type} (x : Ktask O) (o : O) (b : Bool) (m n : Nat) : Ktask O :=
  { x with state := .pend, blkObj := some o, onTick := b, tickMatch := m, tickRemain := n }

theorem pendToBlkObj_eq [DecidableEq O] (h : Lists k) (ht : (k.task t).state = .rdy)
    (hidle : t ≠ k.idle) (o : O) (timeout : Nat) :
    ∃ r l b m n, k.pendToBlkObj o t timeout = { k with
        rq := r
        tickHead := l
        task := Function.update k.task t ((k.task t).waiting o b m n)
        obj := Function.update k.obj o { k.obj o with
          blkList := pendListAdd (fun u => (k.task u).prio) t (k.obj o).blkList } } ∧
      r.Holds (Function.update (fun u => (k.task u).ready) t none) ∧
      (t ∈ l ↔ b = true) ∧ (∀ u, u ≠ t → (u ∈ l ↔ u ∈ k.tickHead)) ∧ l.Nodup := by
  rcases h.not_tick ht with ⟨hnot, hoff⟩
  -- With a timeout the task goes on the tick list, else that list stays.
  have htick : ∃ l b m n, (if timeout ≠ waitForever then
        (k.modTask t fun x => { x with blkObj := some o }).tickListInsert t timeout
      else k.modTask t fun x => { x with blkObj := some o }) = { k with
        tickHead := l
        task := Function.update k.task t
          { k.task t with blkObj := some o, onTick := b, tickMatch := m, tickRemain := n } } ∧
      (t ∈ l ↔ b = true) ∧ (∀ u, u ≠ t → (u ∈ l ↔ u ∈ k.tickHead)) ∧ l.Nodup := by
    by_cases hforever : timeout ≠ waitForever
    · rw [if_pos hforever]
      rcases @tickListInsert_eq T O _ (k.modTask t fun x => { x with blkObj := some o }) t hnot
        h.tickNodup (by simpa [Kernel.modTask] using hoff) timeout with ⟨l, b, m, n, heq, hl⟩
      refine ⟨l, b, m, n, ?_, hl⟩
      rw [heq]
      simp [Kernel.modTask]
    · rw [if_neg hforever]
      refine ⟨k.tickHead, false, (k.task t).tickMatch, (k.task t).tickRemain, ?_, by simp [hnot],
        fun u _ => Iff.rfl, h.tickNodup⟩
      have hself : { k.task t with
          blkObj := some o, onTick := false, tickMatch := (k.task t).tickMatch
          tickRemain := (k.task t).tickRemain } = { k.task t with blkObj := some o } := by
        rw [← hoff]
      rw [hself]
      rfl
  rcases htick with ⟨l, b, m, n, heq, hl⟩
  unfold Kernel.pendToBlkObj
  dsimp only
  rw [heq]
  have hrm := h.readyListRm_eq ht hidle (({ k with
        tickHead := l
        task := Function.update k.task t
          { k.task t with blkObj := some o, onTick := b, tickMatch := m, tickRemain := n } } :
      Kernel T O).modTask t fun x => { x with state := .pend }) rfl (by simp [Kernel.modTask])
  rcases hrm with ⟨r, hr, hholds⟩
  refine ⟨r, l, b, m, n, ?_, hholds, hl⟩
  rw [hr]
  -- The list of the object is sorted by priorities, which are as they were.
  have hprio : (fun u => (Function.update k.task t ((k.task t).waiting o b m n) u).prio)
      = fun u => (k.task u).prio := by
    funext u
    by_cases hu : u = t
    · rw [hu, Function.update_self]
      rfl
    · rw [Function.update_of_ne hu]
  rw [← hprio]
  simp [Kernel.modTask, Kernel.pendListAddTo, Kernel.modObj, Ktask.waiting]

theorem pendToBlkObj_lists [DecidableEq O] (h : Lists k) (ht : (k.task t).state = .rdy)
    (hidle : t ≠ k.idle) (o : O) (timeout : Nat) : Lists (k.pendToBlkObj o t timeout) := by
  rcases pendToBlkObj_eq h ht hidle o timeout with ⟨r, l, b, m, n, heq, hr, hl, hlo, hln⟩
  have hwaits : (k.task t).waits = none :=
    Ktask.waits_eq_none (by rw [ht]; simp) (by rw [ht]; simp)
  -- A ready task waits nowhere, so it is on no list yet.
  have hnot : ∀ o', t ∉ (k.obj o').blkList := by
    intro o' hmem
    rw [(h.wait t o').mp hmem] at hwaits
    cases hwaits
  have hself : Function.update k.task t ((k.task t).waiting o b m n) t
      = (k.task t).waiting o b m n := Function.update_self ..
  rw [heq]
  refine h.of_task (t := t) (fun u hu => Function.update_of_ne hu _ _) ?_ ?_ ?_ ?_ ?_ ?_ ?_ hlo hln
    ?_ rfl (fun he => absurd he hidle) ?_
  · dsimp only
    rw [hself]
    exact hr
  · dsimp only
    rw [hself]
    exact h.prio t
  · dsimp only
    rw [hself]
    exact h.bPrio t
  · intro o'
    dsimp only
    rw [hself]
    have hto : ((k.task t).waiting o b m n).waits = some o := rfl
    rw [hto, Option.some.injEq]
    by_cases ho : o' = o
    · subst ho
      simp [pendListAdd]
    · rw [Function.update_of_ne ho]
      simp [hnot o', Ne.symm ho]
  · intro o' u hu
    dsimp only
    by_cases ho : o' = o
    · subst ho
      simp [pendListAdd, hu]
    · rw [Function.update_of_ne ho]
  · intro o'
    dsimp only
    by_cases ho : o' = o
    · subst ho
      rw [Function.update_self]
      exact nodup_orderedInsert.mpr ⟨hnot o', h.waitNodup o'⟩
    · rw [Function.update_of_ne ho]
      exact h.waitNodup o'
  · dsimp only
    rw [hself]
    exact hl
  · intro _
    dsimp only
    rw [hself]
    exact .inr (.inr (.inl rfl))
  · intro m'
    dsimp only
    by_cases ho : m' = o
    · subst ho
      rw [Function.update_self]
      exact h.owner m'
    · rw [Function.update_of_ne ho]
      exact h.owner m'

end Wait

/-! ## A priority changes -/

section Priority

variable {T O : Type} [DecidableEq T] {k : Kernel T O} {t : T} {p : Nat}

/-- A task at another priority. -/
def Ktask.withPrio {O : Type} (x : Ktask O) (p : Nat) : Ktask O :=
  { x with prio := p }

/-- A ready task changes its list. -/
theorem readyMove_eq (h : Lists k) (ht : (k.task t).state = .rdy) (hidle : t ≠ k.idle)
    (hp : p < priMax) :
    ∃ r, (let k := (k.readyListRm t).modTask t fun x => { x with prio := p }
        if t = k.active then k.readyListAddHead t else k.readyListAddTail t)
        = { k with rq := r, task := Function.update k.task t ((k.task t).withPrio p) } ∧
      r.Holds (Function.update (fun u => (k.task u).ready) t (some p)) := by
  rcases h.readyListRm_eq ht hidle k rfl rfl with ⟨r, hr, hholds⟩
  have hself : Function.update k.task t ((k.task t).withPrio p) t = (k.task t).withPrio p :=
    Function.update_self ..
  have hp' : (({ k with
      rq := r, task := Function.update k.task t ((k.task t).withPrio p) } : Kernel T O).task t).prio
        < priMax := by
    dsimp only
    rw [hself]
    exact hp
  have hmove : (k.readyListRm t).modTask t (fun x => { x with prio := p })
      = { k with rq := r, task := Function.update k.task t ((k.task t).withPrio p) } := by
    rw [hr]
    rfl
  dsimp only
  rw [hmove]
  split_ifs
  · rcases readyListAddHead_eq hholds (Function.update_self ..) hp' with ⟨r', hr', hholds'⟩
    refine ⟨r', hr', ?_⟩
    dsimp only at hholds'
    rw [hself, Function.update_idem] at hholds'
    exact hholds'
  · rcases readyListAddTail_eq hholds (Function.update_self ..) hp' with ⟨r', hr', hholds'⟩
    refine ⟨r', hr', ?_⟩
    dsimp only at hholds'
    rw [hself, Function.update_idem] at hholds'
    exact hholds'

/-- Only the priority of a task changes, and its ready list if it is ready. -/
theorem Lists.setPrio (h : Lists k) {r : Runqueue T} (hidle : t ≠ k.idle) (hp : p < priMax)
    (hr : r.Holds (Function.update (fun u => (k.task u).ready) t ((k.task t).withPrio p).ready)) :
    Lists { k with rq := r, task := Function.update k.task t ((k.task t).withPrio p) } := by
  have hself : Function.update k.task t ((k.task t).withPrio p) t = (k.task t).withPrio p :=
    Function.update_self ..
  refine h.of_task (t := t) (fun u hu => Function.update_of_ne hu _ _) ?_ ?_ ?_ ?_
    (fun _ _ _ => Iff.rfl) h.waitNodup ?_ (fun _ _ => Iff.rfl) h.tickNodup ?_ rfl
    (fun he => absurd he hidle) h.owner
  · dsimp only
    rw [hself]
    exact hr
  · dsimp only
    rw [hself]
    exact hp
  · dsimp only
    rw [hself]
    exact h.bPrio t
  · intro o
    dsimp only
    rw [hself]
    exact h.wait t o
  · dsimp only
    rw [hself]
    exact h.tick t
  · dsimp only
    rw [hself]
    exact h.timed t

theorem TaskFrame.withPrio (x : Ktask O) (p : Nat) : TaskFrame x (x.withPrio p) :=
  ⟨rfl, rfl, rfl, rfl, id, fun _ h => h⟩

variable [DecidableEq O]

/-- The list of an object once `t` has taken its place on it again. -/
def reordered (k : Kernel T O) (t : T) (o o' : O) : List T :=
  if o' = o then pendListAdd (fun u => (k.task u).prio) t ((k.obj o').blkList.erase t)
  else (k.obj o').blkList.erase t

/-- A task that waits takes its place among those of its new priority. -/
theorem pendListReorder_eq {k : Kernel T O} {o : O} (ho : (k.task t).blkObj = some o) :
    k.pendListReorder t
      = { k with obj := fun o' => { k.obj o' with blkList := reordered k t o o' } } := by
  unfold Kernel.pendListReorder
  rw [ho]
  simp only [Kernel.pendListAddTo, Kernel.modObj, Kernel.klistRm]
  congr 1
  funext o'
  unfold reordered
  by_cases h : o' = o
  · subst h
    rw [Function.update_self, if_pos rfl]
  · rw [Function.update_of_ne h, if_neg h]

/-- Its list has the tasks it had, and so have all others. -/
theorem mem_reordered (h : Lists k) {k' : Kernel T O} (hobj : k'.obj = k.obj) {o : O}
    (ho : (k.task t).waits = some o) (o' : O) (u : T) :
    u ∈ reordered k' t o o' ↔ u ∈ (k.obj o').blkList := by
  unfold reordered
  rw [hobj]
  by_cases hoo : o' = o
  · rw [if_pos hoo]
    unfold pendListAdd
    rw [List.mem_orderedInsert]
    by_cases hu : u = t
    · subst hu
      rw [hoo, h.wait u o]
      simp [ho]
    · rw [List.mem_erase_of_ne hu]
      simp [hu]
  · rw [if_neg hoo]
    by_cases hu : u = t
    · subst hu
      rw [h.wait u o', ho]
      simp [(h.waitNodup o').not_mem_erase, Ne.symm hoo]
    · exact List.mem_erase_of_ne hu

theorem nodup_reordered (h : Lists k) {k' : Kernel T O} (hobj : k'.obj = k.obj) (o o' : O) :
    (reordered k' t o o').Nodup := by
  unfold reordered
  rw [hobj]
  split_ifs
  · exact nodup_orderedInsert.mpr ⟨(h.waitNodup o').not_mem_erase, (h.waitNodup o').erase t⟩
  · exact (h.waitNodup o').erase t

theorem pendListReorder_lists (h : Lists k) {o : O} (ho : (k.task t).waits = some o) :
    Lists (k.pendListReorder t) := by
  rw [pendListReorder_eq (Ktask.state_of_waits ho).2]
  refine ⟨h.rq, h.prio, h.bPrio, ?_, ?_, h.tick, h.tickNodup, h.timed, h.idle, h.owner⟩
  · intro u o'
    exact (mem_reordered h rfl ho o' u).trans (h.wait u o')
  · intro o'
    exact nodup_reordered h rfl o o'

theorem pendListReorder_frame (k : Kernel T O) (t : T) : Frame k (k.pendListReorder t) := by
  cases ho : (k.task t).blkObj with
  | none =>
      unfold Kernel.pendListReorder
      rw [ho]
      exact Frame.hang k
  | some o =>
      rw [pendListReorder_eq ho]
      exact Frame.of_obj k fun o' => ⟨_, _, rfl⟩

end Priority

end Rhino

end Wujian100
