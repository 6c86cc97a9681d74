import Wujian100.Theory.Rhino.Kernel

/-!
# What the Owners of Mutexes Do to the Lists

A change of priority goes from a task that waits for a mutex to the owner, and on
from there. It changes priorities, the order on the lists and the ready lists, and
nothing else. A mutex that is handed over has another owner. None of this puts a
task on the wrong list.

## Main definitions

* `Kernel.repri`: The kernel with other priorities and lists.

## Theorems

* `priChangeLoop_eq`: Priorities change along the owners of mutexes.
* `mutexFreeLoop_lists`: The mutexes of a task get other owners.
* `tickListUpdate_lists`: The tasks whose time ran out are woken.
-/

namespace Wujian100

namespace Rhino

/-! ## The kernel with other priorities -/

section Repri

variable {T O : Type} {k k' k'' : Kernel T O}

/-- The kernel with other priorities and lists. -/
def Kernel.repri (k : Kernel T O) (r : Runqueue T) (f : T → Nat) (g : O → List T) (b : Bool) :
    Kernel T O :=
  { k with
    rq := r
    task := fun u => (k.task u).withPrio (f u)
    obj := fun o => { k.obj o with blkList := g o }
    stuck := b }

theorem Frame.repri (k : Kernel T O) (r : Runqueue T) (f : T → Nat) (g : O → List T) (b : Bool) :
    Frame k (k.repri r f g b) :=
  ⟨rfl, rfl, rfl, rfl, rfl, rfl, rfl, fun _ => ⟨_, _, rfl⟩, fun _ => rfl, fun _ => rfl, fun _ => rfl,
    fun _ => rfl, fun _ h => h, fun _ _ h => h⟩

theorem Kernel.repri_self (k : Kernel T O) :
    k.repri k.rq (fun u => (k.task u).prio) (fun o => (k.obj o).blkList) k.stuck = k :=
  rfl

theorem Kernel.repri_hang (k : Kernel T O) :
    k.repri k.rq (fun u => (k.task u).prio) (fun o => (k.obj o).blkList) true = k.hang :=
  rfl

/-- The priorities after one of them changed. -/
theorem withPrio_update [DecidableEq T] (task : T → Ktask O) (t : T) (p : Nat) :
    Function.update task t ((task t).withPrio p)
      = fun u => (task u).withPrio (Function.update (fun u => (task u).prio) t p u) := by
  funext u
  by_cases hu : u = t
  · subst hu
    rw [Function.update_self, Function.update_self]
  · rw [Function.update_of_ne hu, Function.update_of_ne hu]
    rfl

/-- The kernel has other priorities and lists, and the tasks are where they should
    be. -/
def Repri (k k' : Kernel T O) : Prop :=
  (∃ r f g b, k' = k.repri r f g b) ∧ Lists k'

theorem Repri.trans (h : Repri k k') (h' : Repri k' k'') : Repri k k'' := by
  rcases h with ⟨⟨r, f, g, b, rfl⟩, -⟩
  rcases h' with ⟨⟨r', f', g', b', rfl⟩, hlists⟩
  exact ⟨⟨r', f', g', b', rfl⟩, hlists⟩

theorem Repri.refl (h : Lists k) : Repri k k :=
  ⟨⟨_, _, _, _, k.repri_self.symm⟩, h⟩

theorem Repri.hang (h : Lists k) : Repri k k.hang :=
  ⟨⟨_, _, _, _, k.repri_hang.symm⟩, h.hang⟩

theorem Repri.idle (h : Repri k k') : k'.idle = k.idle := by
  rcases h.1 with ⟨r, f, g, b, rfl⟩
  rfl

theorem Repri.frame (h : Repri k k') : Frame k k' := by
  rcases h.1 with ⟨r, f, g, b, rfl⟩
  exact Frame.repri k r f g b

end Repri

/-! ## One task changes its priority -/

section Change

variable {T O : Type} [DecidableEq T] {k : Kernel T O} {t : T} {p : Nat}

/-- A task that does not wait changes its priority. -/
theorem setPrio_eq (h : Lists k) (hidle : t ≠ k.idle) (hp : p < priMax)
    (ht : (k.task t).state ≠ .rdy) :
    (k.modTask t fun x => { x with prio := p })
        = k.repri k.rq (Function.update (fun u => (k.task u).prio) t p) (fun o => (k.obj o).blkList)
          k.stuck ∧
      Lists (k.modTask t fun x => { x with prio := p }) := by
  refine ⟨?_, ?_⟩
  · unfold Kernel.repri
    rw [← withPrio_update]
    rfl
  · refine h.setPrio hidle hp ?_
    have hnone : (k.task t).ready = none := Ktask.ready_eq_none ht
    have hnone' : ((k.task t).withPrio p).ready = none := Ktask.ready_eq_none ht
    rw [hnone', Function.update_eq_self_iff.mpr hnone.symm]
    exact h.rq

/-- A task that is ready changes its priority and its list. -/
theorem movePrio_eq (h : Lists k) (hidle : t ≠ k.idle) (hp : p < priMax)
    (ht : (k.task t).state = .rdy) :
    ∃ r, (let k := (k.readyListRm t).modTask t fun x => { x with prio := p }
        if t = k.active then k.readyListAddHead t else k.readyListAddTail t)
        = k.repri r (Function.update (fun u => (k.task u).prio) t p) (fun o => (k.obj o).blkList)
          k.stuck ∧
      Lists (k.repri r (Function.update (fun u => (k.task u).prio) t p)
        (fun o => (k.obj o).blkList) k.stuck) := by
  rcases readyMove_eq h ht hidle hp with ⟨r, heq, hr⟩
  have hform : k.repri r (Function.update (fun u => (k.task u).prio) t p)
      (fun o => (k.obj o).blkList) k.stuck
      = { k with rq := r, task := Function.update k.task t ((k.task t).withPrio p) } := by
    unfold Kernel.repri
    rw [← withPrio_update]
  refine ⟨r, heq.trans hform.symm, ?_⟩
  rw [hform]
  refine h.setPrio hidle hp ?_
  have hsome : ((k.task t).withPrio p).ready = some p := Ktask.ready_eq_some ht
  rw [hsome]
  exact hr

/-- A task that waits changes its priority and its place. -/
theorem waitPrio_eq [DecidableEq O] (h : Lists k) (hidle : t ≠ k.idle) (hp : p < priMax) {o : O}
    (ht : (k.task t).waits = some o) :
    (k.modTask t fun x => { x with prio := p }).pendListReorder t
        = k.repri k.rq (Function.update (fun u => (k.task u).prio) t p)
          (reordered (k.modTask t fun x => { x with prio := p }) t o) k.stuck ∧
      Lists ((k.modTask t fun x => { x with prio := p }).pendListReorder t) := by
  rcases setPrio_eq h hidle hp (Ktask.state_ne_rdy ht) with ⟨heq, hlists⟩
  have hwaits : ((k.modTask t fun x => { x with prio := p }).task t).waits = some o := by
    rw [heq]
    exact ht
  refine ⟨?_, pendListReorder_lists hlists hwaits⟩
  rw [pendListReorder_eq (Ktask.state_of_waits hwaits).2]
  generalize reordered (k.modTask t fun x => { x with prio := p }) t o = g
  rw [heq]
  rfl

end Change

/-! ## Priorities along the owners -/

section Owners

variable {T O : Type} {k : Kernel T O} {t : T}

theorem lookAt_le (k : Kernel T O) (s : Nat × Nat) (m : O) : (k.lookAt s m).1 ≤ s.1 := by
  unfold Kernel.lookAt
  dsimp only
  split_ifs <;> omega

theorem lookPri_le (k : Kernel T O) (l : List O) (p : Nat) : k.lookPri l p ≤ p := by
  have hfold : ∀ (l : List O) (s : Nat × Nat), (l.foldl k.lookAt s).1 ≤ s.1 := by
    intro l
    induction l with
    | nil => exact fun s => le_refl _
    | cons m l ih => exact fun s => (ih (k.lookAt s m)).trans (lookAt_le k s m)
  exact hfold l (p, p)

variable [DecidableEq T] [DecidableEq O]

theorem unlinkMutex_lists (h : Lists k) (l : List O) (m : O) : Lists (k.unlinkMutex t l m) := by
  unfold Kernel.unlinkMutex
  split_ifs
  · exact h.modTask ⟨rfl, rfl, rfl, rfl⟩ (h.bPrio t)
  · cases before k.nextMutex m l with
    | none => exact h
    | some d => exact h.modObj rfl (h.owner d)

theorem unlinkMutex_frame (k : Kernel T O) (t : T) (l : List O) (m : O) :
    Frame k (k.unlinkMutex t l m) := by
  unfold Kernel.unlinkMutex
  split_ifs
  · exact Frame.update k ⟨rfl, rfl, rfl, rfl, id, fun _ h => h⟩ fun o => ⟨_, _, rfl⟩
  · cases before k.nextMutex m l with
    | none => exact .refl k
    | some d =>
        refine Frame.of_obj k fun o => ?_
        by_cases ho : o = d
        · subst ho
          exact ⟨_, _, Function.update_self ..⟩
        · exact ⟨_, _, Function.update_of_ne ho _ _⟩

variable [Fintype O]

theorem mutexPriLook_lists (h : Lists k) (t : T) (rel : Option O) :
    Lists (k.mutexPriLook t rel).2 ∧ (k.mutexPriLook t rel).1 < priMax := by
  unfold Kernel.mutexPriLook
  cases k.mutexes t with
  | none => exact ⟨h.hang, h.bPrio t⟩
  | some l =>
      cases rel with
      | none => exact ⟨h, (lookPri_le k _ _).trans_lt (h.bPrio t)⟩
      | some m => exact ⟨unlinkMutex_lists h l m, (lookPri_le k _ _).trans_lt (h.bPrio t)⟩

theorem mutexPriLook_frame (k : Kernel T O) (t : T) (rel : Option O) :
    Frame k (k.mutexPriLook t rel).2 := by
  unfold Kernel.mutexPriLook
  cases k.mutexes t with
  | none => exact .hang k
  | some l =>
      cases rel with
      | none => exact .refl k
      | some m => exact unlinkMutex_frame k t l m

end Owners

/-! ## The loop -/

section Loop

variable {T O : Type} [DecidableEq T] [DecidableEq O] {k : Kernel T O} {t : T} {p : Nat}

theorem pendListReorder_task (k : Kernel T O) (t : T) : (k.pendListReorder t).task = k.task := by
  unfold Kernel.pendListReorder
  cases (k.task t).blkObj with
  | none => rfl
  | some o => rfl

variable [Fintype O]

/-- What `task_pri_change` does with the object a task waits for, once the task is
    in its new place. -/
def Kernel.follow (n : Nat) (k : Kernel T O) (o : O) (oldPri newPri : Nat) : Kstat × Kernel T O :=
  if (k.obj o).objType = .mutex then
    match (k.obj o).mutexTask with
    | none => (.success, k.hang)
    | some w =>
        if (k.task w).prio > newPri then Kernel.priChangeLoop n k w newPri
        else if (k.task w).prio = oldPri then
          let p := k.mutexPriLook w none
          if p.1 ≠ (p.2.task w).prio then Kernel.priChangeLoop n p.2 w p.1 else (.success, p.2)
        else (.success, k)
  else (.success, k)

theorem priChangeLoop_waits {n : Nat} {o : O} (hp : (k.task t).prio ≠ p)
    (hw : (k.task t).waits = some o) :
    Kernel.priChangeLoop (n + 1) k t p
      = ((k.modTask t fun x => { x with prio := p }).pendListReorder t).follow n o (k.task t).prio
          p := by
  rcases Ktask.state_of_waits hw with ⟨hs, ho⟩
  have hblk : (((k.modTask t fun x => { x with prio := p }).pendListReorder t).task t).blkObj
      = some o := by
    rw [pendListReorder_task]
    unfold Kernel.modTask
    dsimp only
    rw [Function.update_self]
    exact ho
  unfold Kernel.priChangeLoop
  rw [if_neg hp]
  rcases hs with hs | hs
  · rw [hs]
    dsimp only
    rw [hblk]
    rfl
  · rw [hs]
    dsimp only
    rw [hblk]
    rfl

theorem priChangeLoop_ready {n : Nat} (hp : (k.task t).prio ≠ p) (hs : (k.task t).state = .rdy) :
    Kernel.priChangeLoop (n + 1) k t p
      = (.success, let k := (k.readyListRm t).modTask t fun x => { x with prio := p }
        if t = k.active then k.readyListAddHead t else k.readyListAddTail t) := by
  unfold Kernel.priChangeLoop
  rw [if_neg hp, hs]

/-- A task in this state keeps its place when its priority changes. -/
def TaskState.idles (s : TaskState) : Prop :=
  s = .sleep ∨ s = .suspended ∨ s = .sleepSuspended

theorem priChangeLoop_idles {n : Nat} (hp : (k.task t).prio ≠ p) (hs : (k.task t).state.idles) :
    Kernel.priChangeLoop (n + 1) k t p = (.success, k.modTask t fun x => { x with prio := p }) := by
  unfold Kernel.priChangeLoop
  rw [if_neg hp]
  rcases hs with hs | hs | hs
  · rw [hs]
  · rw [hs]
  · rw [hs]

/-- Nothing is looked up but a priority. -/
theorem mutexPriLook_none (k : Kernel T O) (w : T) :
    (k.mutexPriLook w none).2 = k ∨ (k.mutexPriLook w none).2 = k.hang := by
  unfold Kernel.mutexPriLook
  cases k.mutexes w with
  | none => exact .inr rfl
  | some l => exact .inl rfl

/-- A task that waits for nothing it knows of. -/
theorem priChangeLoop_lost {n : Nat} (hp : (k.task t).prio ≠ p)
    (hs : (k.task t).state = .pend ∨ (k.task t).state = .pendSuspended)
    (hw : (k.task t).blkObj = none) :
    Kernel.priChangeLoop (n + 1) k t p
      = (.success, (k.modTask t fun x => { x with prio := p }).hang) := by
  have hblk : ((k.modTask t fun x => { x with prio := p }).task t).blkObj = none := by
    unfold Kernel.modTask
    dsimp only
    rw [Function.update_self]
    exact hw
  have hre : (k.modTask t fun x => { x with prio := p }).pendListReorder t
      = (k.modTask t fun x => { x with prio := p }).hang := by
    unfold Kernel.pendListReorder
    rw [hblk]
  unfold Kernel.priChangeLoop
  rw [if_neg hp]
  rcases hs with hs | hs
  · rw [hs]
    dsimp only
    rw [hre]
    unfold Kernel.hang
    dsimp only
    rw [hblk]
  · rw [hs]
    dsimp only
    rw [hre]
    unfold Kernel.hang
    dsimp only
    rw [hblk]

/-- The owner of a mutex is not the idle task, so its priority may follow. -/
theorem follow_repri {n : Nat}
    (ih : ∀ (k : Kernel T O) (t : T) (p : Nat), Lists k → t ≠ k.idle → p < priMax →
      Repri k (Kernel.priChangeLoop n k t p).2)
    (h : Lists k) (hp : p < priMax) (o : O) (old : Nat) : Repri k (k.follow n o old p).2 := by
  unfold Kernel.follow
  split_ifs
  · cases howner : (k.obj o).mutexTask with
    | none => exact .hang h
    | some w =>
        have hw : w ≠ k.idle := by
          intro he
          rw [he] at howner
          exact h.owner o howner
        have hlook := mutexPriLook_lists h w none
        have hrepri : Repri k (k.mutexPriLook w none).2 := by
          rcases mutexPriLook_none k w with he | he
          · rw [he]
            exact .refl h
          · rw [he]
            exact .hang h
        dsimp only
        split_ifs
        · exact ih k w p h hw hp
        · exact hrepri.trans (ih _ w _ hlook.1 (hrepri.idle ▸ hw) hlook.2)
        · exact hrepri
        · exact .refl h
  · exact .refl h

/-- Priorities change along the owners of mutexes. -/
theorem priChangeLoop_repri (n : Nat) (k : Kernel T O) (t : T) (p : Nat) (h : Lists k)
    (ht : t ≠ k.idle) (hp : p < priMax) : Repri k (Kernel.priChangeLoop n k t p).2 := by
  -- By induction on the fuel: each turn changes one priority and goes on to one owner.
  induction n generalizing k t p with
  | zero => exact .hang h
  | succ n ih =>
      by_cases heq : (k.task t).prio = p
      · unfold Kernel.priChangeLoop
        rw [if_pos heq]
        exact .refl h
      · have hset := setPrio_eq h ht hp
        cases hs : (k.task t).state with
        | rdy =>
            rw [priChangeLoop_ready heq hs]
            rcases movePrio_eq h ht hp hs with ⟨r, hr, hlists⟩
            exact ⟨⟨_, _, _, _, hr⟩, hr ▸ hlists⟩
        | sleep | suspended | sleepSuspended =>
            rw [priChangeLoop_idles heq (by simp [TaskState.idles, hs])]
            rcases hset (by simp [hs]) with ⟨he, hlists⟩
            exact ⟨⟨_, _, _, _, he⟩, hlists⟩
        | pend | pendSuspended =>
            have hpend : (k.task t).state = .pend ∨ (k.task t).state = .pendSuspended := by simp [hs]
            cases hblk : (k.task t).blkObj with
            | none =>
                rw [priChangeLoop_lost heq hpend hblk]
                rcases hset (by simp [hs]) with ⟨he, hlists⟩
                exact Repri.trans ⟨⟨_, _, _, _, he⟩, hlists⟩ (.hang hlists)
            | some o =>
                have hw : (k.task t).waits = some o := (if_pos hpend).trans hblk
                rw [priChangeLoop_waits heq hw]
                rcases waitPrio_eq h ht hp hw with ⟨he, hlists⟩
                exact Repri.trans ⟨⟨_, _, _, _, he⟩, hlists⟩ (follow_repri ih hlists hp o _)
        | seed | deleted =>
            unfold Kernel.priChangeLoop
            rw [if_neg heq, hs]
            exact .refl h

end Loop

/-! ## A mutex is released -/

section Release

variable {T O : Type} [DecidableEq T] [DecidableEq O] [Fintype T] [Fintype O] {k : Kernel T O}
  {t : T}

theorem mutexRelease_lists (h : Lists k) (ht : t ≠ k.idle) (rel : Option O) :
    Lists (k.mutexRelease t rel) ∧ Frame k (k.mutexRelease t rel) := by
  have hlook := mutexPriLook_lists h t rel
  have hframe := mutexPriLook_frame k t rel
  unfold Kernel.mutexRelease
  dsimp only
  split_ifs
  · have hrepri := priChangeLoop_repri (Fintype.card T * priMax + 1) _ t _ hlook.1
      (hframe.idle ▸ ht) hlook.2
    exact ⟨hrepri.2, hframe.trans hrepri.frame⟩
  · exact ⟨hlook.1, hframe⟩

/-- Where no mutex is taken out of a chain, only priorities change. -/
theorem mutexRelease_repri (h : Lists k) (ht : t ≠ k.idle) : Repri k (k.mutexRelease t none) := by
  have hlook := mutexPriLook_lists h t none
  have hrepri : Repri k (k.mutexPriLook t none).2 := by
    rcases mutexPriLook_none k t with he | he
    · rw [he]
      exact .refl h
    · rw [he]
      exact .hang h
  unfold Kernel.mutexRelease
  dsimp only
  split_ifs
  · exact hrepri.trans (priChangeLoop_repri _ _ t _ hlook.1 (hrepri.idle ▸ ht) hlook.2)
  · exact hrepri

theorem mutexTaskPriReset_repri (h : Lists k) (t : T) : Repri k (k.mutexTaskPriReset t) := by
  unfold Kernel.mutexTaskPriReset
  cases (k.task t).blkObj with
  | none => exact .hang h
  | some o =>
      dsimp only
      split_ifs
      · cases howner : (k.obj o).mutexTask with
        | none => exact .hang h
        | some w =>
            dsimp only
            split_ifs
            · refine mutexRelease_repri h ?_
              intro he
              rw [he] at howner
              exact h.owner o howner
            · exact .refl h
      · exact .refl h

end Release

/-! ## A mutex gets another owner -/

section Keeps

variable {T O : Type} {k k' k'' : Kernel T O} {t : T}

/-- What even a new owner of a mutex leaves alone. -/
structure Keeps {T O : Type} (k k' : Kernel T O) : Prop where
  active : k'.active = k.active
  schedLock : k'.schedLock = k.schedLock
  intrptNested : k'.intrptNested = k.intrptNested
  idle : k'.idle = k.idle
  rdy : ∀ t, (k.task t).state = .rdy → (k'.task t).state = .rdy
  waits : ∀ t o, (k'.task t).waits = some o → (k.task t).waits = some o

theorem Frame.keeps (h : Frame k k') : Keeps k k' :=
  ⟨h.active, h.schedLock, h.intrptNested, h.idle, h.rdy, h.waits⟩

theorem Keeps.trans (h : Keeps k k') (h' : Keeps k' k'') : Keeps k k'' :=
  ⟨h'.active.trans h.active, h'.schedLock.trans h.schedLock, h'.intrptNested.trans h.intrptNested,
    h'.idle.trans h.idle,
    fun t ht => h'.rdy t (h.rdy t ht), fun t o ht => h.waits t o (h'.waits t o ht)⟩

/-- A task's fields change, but not where it is. -/
theorem Keeps.modTask [DecidableEq T] (k : Kernel T O) {f : Ktask O → Ktask O}
    (hs : (f (k.task t)).state = (k.task t).state)
    (hw : (f (k.task t)).waits = (k.task t).waits) : Keeps k (k.modTask t f) := by
  refine ⟨rfl, rfl, rfl, rfl, ?_, ?_⟩
  · intro u hu
    unfold Kernel.modTask
    dsimp only
    by_cases hut : u = t
    · subst hut
      rw [Function.update_self, hs]
      exact hu
    · rw [Function.update_of_ne hut]
      exact hu
  · intro u o hu
    unfold Kernel.modTask at hu
    dsimp only at hu
    by_cases hut : u = t
    · subst hut
      rw [Function.update_self, hw] at hu
      exact hu
    · rw [Function.update_of_ne hut] at hu
      exact hu

theorem Keeps.modObj [DecidableEq O] (k : Kernel T O) (o : O) (f : Kobj T O → Kobj T O) :
    Keeps k (k.modObj o f) :=
  ⟨rfl, rfl, rfl, rfl, fun _ h => h, fun _ _ h => h⟩

end Keeps

section Give

variable {T O : Type} [DecidableEq T] [DecidableEq O] {k : Kernel T O} {t : T}

theorem giveMutex_lists (h : Lists k) (ht : t ≠ k.idle) (m : O) : Lists (k.giveMutex m t) := by
  unfold Kernel.giveMutex
  have hobj : Lists (k.modObj m fun x =>
      { x with mutexTask := some t, mutexList := (k.task t).mutexList }) :=
    h.modObj rfl fun he => ht (Option.some.inj he)
  exact hobj.modTask ⟨rfl, rfl, rfl, rfl⟩ (h.bPrio t)

theorem giveMutex_keeps (k : Kernel T O) (m : O) (t : T) : Keeps k (k.giveMutex m t) := by
  unfold Kernel.giveMutex
  have hobj : Keeps k (k.modObj m fun x =>
    { x with mutexTask := some t, mutexList := (k.task t).mutexList }) := .modObj k m _
  exact hobj.trans (.modTask _ rfl rfl)

theorem freeMutex_lists (h : Lists k) (m : O) :
    Lists (k.freeMutex m) ∧ Keeps k (k.freeMutex m) := by
  unfold Kernel.freeMutex
  cases hblk : (k.obj m).blkList with
  | nil => exact ⟨h.modObj rfl (by simp), .modObj k m _⟩
  | cons u rest =>
      have hmem : u ∈ (k.obj m).blkList := hblk ▸ List.mem_cons_self
      rcases pendTaskWakeup_lists h u with ⟨hlists, hframe⟩
      refine ⟨giveMutex_lists hlists ?_ m, hframe.keeps.trans (giveMutex_keeps _ m u)⟩
      rw [hframe.idle]
      exact h.ne_idle_of_mem hmem

/-- The mutexes of a task get other owners, or none. -/
theorem mutexFreeLoop_lists (n : Nat) (h : Lists k) (start : Option O) :
    Lists (Kernel.mutexFreeLoop n k start) ∧ Keeps k (Kernel.mutexFreeLoop n k start) := by
  induction n generalizing k start with
  | zero =>
      cases start with
      | none => exact ⟨h, (Frame.refl k).keeps⟩
      | some m => exact ⟨h.hang, (Frame.hang k).keeps⟩
  | succ n ih =>
      cases start with
      | none => exact ⟨h, (Frame.refl k).keeps⟩
      | some m =>
          have hfree := freeMutex_lists h m
          have hrest := ih hfree.1 (k.nextMutex m)
          exact ⟨hrest.1, hfree.2.trans hrest.2⟩

end Give

/-! ## Time -/

section Time

variable {T O : Type} [DecidableEq T] {k : Kernel T O} {t : T}

/-- A task that waits for nothing is on no list of an object. -/
theorem Lists.obj_erase (h : Lists k) (ht : (k.task t).waits = none) :
    (fun o => { k.obj o with blkList := (k.obj o).blkList.erase t }) = k.obj := by
  funext o
  have hnot : t ∉ (k.obj o).blkList := by
    intro hmem
    rw [(h.wait t o).mp hmem] at ht
    cases ht
  rw [List.erase_of_not_mem hnot]

/-- A task that is not ready becomes ready, and its time no longer runs. -/
theorem Lists.wake (h : Lists k) {x : Ktask O} {r : Runqueue T} (ht : (k.task t).state ≠ .rdy)
    (hr : r.Holds (Function.update (fun u => (k.task u).ready) t (some (k.task t).prio)))
    (hs : x.state = .rdy) (hprio : x.prio = (k.task t).prio) (hbPrio : x.bPrio = (k.task t).bPrio)
    (htick : x.onTick = false) : Lists (k.left t r x) := by
  refine h.leave (h.ne_idle ht) ?_ hprio hbPrio ?_ htick
  · rw [Ktask.ready_eq_some hs, hprio]
    exact hr
  · exact Ktask.waits_eq_none (by rw [hs]; simp) (by rw [hs]; simp)

/-- A task that is not ready leaves the lists it is on, and is not ready. -/
theorem Lists.rest (h : Lists k) {x : Ktask O} (ht : (k.task t).state ≠ .rdy)
    (hs : x.state = .suspended ∨ x.state = .deleted) (hprio : x.prio = (k.task t).prio)
    (hbPrio : x.bPrio = (k.task t).bPrio) (htick : x.onTick = false) :
    Lists (k.left t k.rq x) := by
  have hnone : x.ready = none := Ktask.ready_eq_none (by rcases hs with hs | hs <;> simp [hs])
  have hnone' : (k.task t).ready = none := Ktask.ready_eq_none ht
  refine h.leave (h.ne_idle ht) ?_ hprio hbPrio ?_ htick
  · rw [hnone, Function.update_eq_self_iff.mpr hnone'.symm]
    exact h.rq
  · exact Ktask.waits_eq_none (by rcases hs with hs | hs <;> simp [hs])
      (by rcases hs with hs | hs <;> simp [hs])

/-- `klist_rm` and `tick_list_rm`. -/
theorem tickLeave_eq (h : Lists k) (t : T) :
    (k.tickListRm t).klistRm t = k.left t k.rq { k.task t with onTick := false } := by
  rw [tickListRm_eq (h.tick t)]
  rfl

/-- A task that waits for nothing leaves the list of ticks. -/
theorem tickListRm_left (h : Lists k) (ht : (k.task t).waits = none) {f : Ktask O → Ktask O}
    (hf : (f (k.task t)).onTick = (k.task t).onTick) :
    (k.modTask t f).tickListRm t = k.left t k.rq { f (k.task t) with onTick := false } := by
  rw [tickListRm_eq]
  · unfold Kernel.left
    rw [h.obj_erase ht]
    simp [Kernel.modTask]
  · unfold Kernel.modTask
    dsimp only
    rw [Function.update_self, hf]
    exact h.tick t

/-- Ready again, from lists it has left. -/
theorem readyListAdd_left (h : Lists k) (ht : (k.task t).state ≠ .rdy) {x : Ktask O}
    (hx : x.prio = (k.task t).prio) :
    ∃ r, (k.left t k.rq x).readyListAdd t = k.left t r x ∧
      r.Holds (Function.update (fun u => (k.task u).ready) t (some (k.task t).prio)) := by
  have hnone : (k.task t).ready = none := Ktask.ready_eq_none ht
  have hprio : ((k.left t k.rq x).task t).prio = (k.task t).prio := by
    rw [← hx]
    exact congrArg Ktask.prio (Function.update_self ..)
  rcases @readyListAdd_eq T O _ (k.left t k.rq x) t (fun u => (k.task u).ready) h.rq hnone
    (hprio ▸ h.prio t) with ⟨r, hr, hholds⟩
  exact ⟨r, hr, hprio ▸ hholds⟩

theorem Kernel.modTask_left (k : Kernel T O) (t : T) (r : Runqueue T) (x : Ktask O)
    (f : Ktask O → Ktask O) : (k.left t r x).modTask t f = k.left t r (f x) := by
  simp [Kernel.modTask, Kernel.left]

/-- The object a task no longer waits for is forgotten. -/
theorem Lists.forget (h : Lists k) (ht : (k.task t).waits = none) :
    Lists (k.modTask t fun x => { x with blkObj := none }) := by
  refine h.modTask ⟨rfl, rfl, ?_, rfl⟩ (h.bPrio t)
  rw [ht]
  unfold Ktask.waits
  split_ifs <;> rfl

theorem Frame.left (k : Kernel T O) {r : Runqueue T} {x : Ktask O} (hx : TaskFrame (k.task t) x) :
    Frame k (k.left t r x) :=
  Frame.update k hx fun _ => ⟨_, _, rfl⟩

theorem TaskFrame.of_left {x y : Ktask O} (hx : x.state ≠ .rdy) (hy : y.waits = none)
    (hf : y.pendFlags = x.pendFlags) (ho : y.pendOption = x.pendOption) (hb : y.bPrio = x.bPrio)
    (hs : y.isStatic = x.isStatic) : TaskFrame x y := by
  refine ⟨hf, ho, hb, hs, fun h => absurd h hx, ?_⟩
  intro o h
  rw [hy] at h
  cases h

variable [DecidableEq O] [Fintype T] [Fintype O]

theorem tickExpire_sleep (h : Lists k) (ht : (k.task t).state = .sleep) :
    ∃ r, k.tickExpire t
        = k.left t r { k.task t with state := .rdy, onTick := false, blkState := .finish } ∧
      r.Holds (Function.update (fun u => (k.task u).ready) t (some (k.task t).prio)) := by
  have hwaits : (k.task t).waits = none :=
    Ktask.waits_eq_none (by rw [ht]; simp) (by rw [ht]; simp)
  rcases readyListAdd_left h (by rw [ht]; simp)
    (x := { k.task t with state := .rdy, onTick := false, blkState := .finish }) rfl
    with ⟨r, hr, hholds⟩
  refine ⟨r, ?_, hholds⟩
  unfold Kernel.tickExpire
  rw [ht]
  dsimp only
  rw [tickListRm_left h hwaits rfl, hr]

theorem tickExpire_sleepSuspended (h : Lists k) (ht : (k.task t).state = .sleepSuspended) :
    k.tickExpire t = k.left t k.rq
      { k.task t with state := .suspended, onTick := false, blkState := .finish } := by
  have hwaits : (k.task t).waits = none :=
    Ktask.waits_eq_none (by rw [ht]; simp) (by rw [ht]; simp)
  unfold Kernel.tickExpire
  rw [ht]
  dsimp only
  rw [tickListRm_left h hwaits rfl]

/-- A task that has waited long enough, in the state it has then. -/
def Ktask.timedOut {O : Type} (x : Ktask O) (state : TaskState) : Ktask O :=
  { x with state := state, onTick := false, blkState := .timeout }

theorem tickExpire_pend (h : Lists k) (ht : (k.task t).state = .pend) :
    ∃ r, k.tickExpire t
        = ((k.left t r ((k.task t).timedOut .rdy)).mutexTaskPriReset t).modTask t
          (fun x => { x with blkObj := none }) ∧
      r.Holds (Function.update (fun u => (k.task u).ready) t (some (k.task t).prio)) := by
  rcases readyListAdd_left h (by rw [ht]; simp) (x := { k.task t with onTick := false }) rfl
    with ⟨r, hr, hholds⟩
  refine ⟨r, ?_, hholds⟩
  unfold Kernel.tickExpire
  rw [ht]
  dsimp only
  rw [tickLeave_eq h, hr, Kernel.modTask_left]
  rfl

theorem tickExpire_pendSuspended (h : Lists k) (ht : (k.task t).state = .pendSuspended) :
    k.tickExpire t
      = ((k.left t k.rq ((k.task t).timedOut .suspended)).mutexTaskPriReset t).modTask t
        (fun x => { x with blkObj := none }) := by
  unfold Kernel.tickExpire
  rw [ht]
  dsimp only
  rw [tickLeave_eq h, Kernel.modTask_left]
  rfl

/-- The priorities of the owners follow, and the task forgets what it waited for. -/
theorem timedOut_lists {k' : Kernel T O} (h : Lists k') (hframe : Frame k k')
    (ht : (k'.task t).waits = none) :
    Lists ((k'.mutexTaskPriReset t).modTask t fun x => { x with blkObj := none }) ∧
      Frame k ((k'.mutexTaskPriReset t).modTask t fun x => { x with blkObj := none }) := by
  have hrepri := mutexTaskPriReset_repri h t
  have hnone : ((k'.mutexTaskPriReset t).task t).waits = none := by
    rcases hrepri.1 with ⟨r, f, g, b, he⟩
    rw [he]
    exact ht
  refine ⟨hrepri.2.forget hnone, (hframe.trans hrepri.frame).trans ?_⟩
  refine Frame.update _ ⟨rfl, rfl, rfl, rfl, id, ?_⟩ fun o => ⟨_, _, rfl⟩
  intro o ho
  exact absurd (Ktask.state_of_waits ho).2 (by simp)

/-- Every task whose time ran out is where its new state says. -/
theorem tickExpire_lists (h : Lists k) (t : T) :
    Lists (k.tickExpire t) ∧ Frame k (k.tickExpire t) := by
  cases hs : (k.task t).state with
  | sleep =>
      have hne : (k.task t).state ≠ .rdy := by simp [hs]
      rcases tickExpire_sleep h hs with ⟨r, heq, hr⟩
      rw [heq]
      exact ⟨h.wake hne hr rfl rfl rfl rfl, Frame.left k (.of_left hne rfl rfl rfl rfl rfl)⟩
  | sleepSuspended =>
      have hne : (k.task t).state ≠ .rdy := by simp [hs]
      rw [tickExpire_sleepSuspended h hs]
      exact ⟨h.rest hne (.inl rfl) rfl rfl rfl, Frame.left k (.of_left hne rfl rfl rfl rfl rfl)⟩
  | pend =>
      have hne : (k.task t).state ≠ .rdy := by simp [hs]
      rcases tickExpire_pend h hs with ⟨r, heq, hr⟩
      rw [heq]
      refine timedOut_lists (h.wake hne hr rfl rfl rfl rfl)
        (Frame.left k (.of_left hne rfl rfl rfl rfl rfl)) ?_
      rw [Kernel.left_self]
      rfl
  | pendSuspended =>
      have hne : (k.task t).state ≠ .rdy := by simp [hs]
      rw [tickExpire_pendSuspended h hs]
      refine timedOut_lists (h.rest hne (.inl rfl) rfl rfl rfl)
        (Frame.left k (.of_left hne rfl rfl rfl rfl rfl)) ?_
      rw [Kernel.left_self]
      rfl
  | seed | rdy | suspended | deleted =>
      unfold Kernel.tickExpire
      rw [hs]
      exact ⟨h.hang, Frame.hang k⟩

omit [DecidableEq T] [DecidableEq O] [Fintype T] [Fintype O] in
/-- What keeps the lists for one task keeps them for a list of tasks. -/
theorem foldl_lists {g : Kernel T O → T → Kernel T O}
    (hg : ∀ k t, Lists k → Lists (g k t) ∧ Frame k (g k t)) (h : Lists k) (l : List T) :
    Lists (l.foldl g k) ∧ Frame k (l.foldl g k) := by
  induction l generalizing k with
  | nil => exact ⟨h, .refl k⟩
  | cons t l ih =>
      have hstep := hg k t h
      have hrest := ih hstep.1
      exact ⟨hrest.1, hstep.2.trans hrest.2⟩

theorem tickListUpdate_lists (h : Lists k) (ticks : Nat) :
    Lists (k.tickListUpdate ticks) ∧ Frame k (k.tickListUpdate ticks) := by
  have hcount : Lists { k with tickCount := (k.tickCount + ticks) % 2 ^ 64 } :=
    ⟨h.rq, h.prio, h.bPrio, h.wait, h.waitNodup, h.tick, h.tickNodup, h.timed, h.idle, h.owner⟩
  have hframe : Frame k { k with tickCount := (k.tickCount + ticks) % 2 ^ 64 } :=
    ⟨rfl, rfl, rfl, rfl, rfl, rfl, rfl, fun _ => ⟨_, _, rfl⟩, fun _ => rfl, fun _ => rfl,
      fun _ => rfl, fun _ => rfl, fun _ ht => ht, fun _ _ ht => ht⟩
  have hfold := fun l => foldl_lists (fun k t h => tickExpire_lists h t) hcount l
  exact ⟨(hfold _).1, hframe.trans (hfold _).2⟩

end Time

end Rhino

end Wujian100
