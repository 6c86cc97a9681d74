import Wujian100.Theory.Rhino.Reach

/-!
# What Has Nothing to Do with Mutexes

A mutex that is owned, the tasks that wait for it, its owner, the priorities: most
calls touch none of these. `Aside` says so of two kernels, and what a plain call
does is one such step.

## Main definitions

* `Ktask.live`: A task that was created and not deleted.
* `Ktask.lost`: A task that waits for nothing, which none does.
* `Kernel.owns`: A task owns a mutex.
* `Sorted`: The tasks that wait for an object are in the order of their priorities.
* `Aside`: Nothing changed about mutexes and priorities.

## Theorems

* `plain_aside`: A plain call changes nothing about mutexes and priorities.
-/

namespace Wujian100

namespace Rhino

/-- A task that was created and not deleted. -/
def Ktask.live {O : Type} (x : Ktask O) : Prop :=
  x.state ≠ .seed ∧ x.state ≠ .deleted

/-- A task that waits, but for nothing. -/
def Ktask.lost {O : Type} (x : Ktask O) : Prop :=
  (x.state = .pend ∨ x.state = .pendSuspended) ∧ x.blkObj = none

/-- A task owns a mutex. -/
def Kernel.owns {T O : Type} (k : Kernel T O) (m : O) (t : T) : Prop :=
  (k.obj m).objType = .mutex ∧ (k.obj m).mutexTask = some t

/-- The tasks that wait for an object are in the order of their priorities. -/
def Sorted {T O : Type} (k : Kernel T O) : Prop :=
  ∀ o, (k.obj o).blkList.Pairwise fun a b => (k.task a).prio ≤ (k.task b).prio

/-- Nothing changed about mutexes and priorities. -/
structure Aside {T O : Type} (k k' : Kernel T O) : Prop where
  owns : ∀ m t, k'.owns m t ↔ k.owns m t
  next : ∀ m t, k.owns m t → k'.nextMutex m = k.nextMutex m
  nested : ∀ m t, k.owns m t → (k'.obj m).ownerNested = (k.obj m).ownerNested
  seed : ∀ t, (k'.task t).state = .seed ↔ (k.task t).state = .seed
  deleted : ∀ t, (k'.task t).state = .deleted ↔ (k.task t).state = .deleted
  mutexList : ∀ t, (k'.task t).mutexList = (k.task t).mutexList
  prio : ∀ t, (k'.task t).prio = (k.task t).prio
  bPrio : ∀ t, (k'.task t).bPrio = (k.task t).bPrio
  blocked : ∀ u m t, k.owns m t → ((k'.task u).waits = some m ↔ (k.task u).waits = some m)
  lost : ∀ t, (k'.task t).lost → (k.task t).lost
  sorted : Sorted k → Sorted k'

section Aside

variable {T O : Type} {k k' k'' : Kernel T O} {t : T}

/-- A task that is suspended or resumed was there, and is. -/
theorem Shift.alive {a b : TaskState} (h : Shift a b) :
    a ≠ .seed ∧ b ≠ .seed ∧ a ≠ .deleted ∧ b ≠ .deleted := by
  cases h with
  | _ => simp

theorem Aside.live (h : Aside k k') (t : T) : (k'.task t).live ↔ (k.task t).live := by
  exact and_congr (not_congr (h.seed t)) (not_congr (h.deleted t))

theorem Aside.trans (h : Aside k k') (h' : Aside k' k'') : Aside k k'' := by
  have howns : ∀ m t, k.owns m t → k'.owns m t := fun m t => (h.owns m t).mpr
  refine ⟨fun m t => (h'.owns m t).trans (h.owns m t), ?_, ?_,
    fun t => (h'.seed t).trans (h.seed t), fun t => (h'.deleted t).trans (h.deleted t),
    fun t => (h'.mutexList t).trans (h.mutexList t), fun t => (h'.prio t).trans (h.prio t),
    fun t => (h'.bPrio t).trans (h.bPrio t), ?_, fun t ht => h.lost t (h'.lost t ht),
    fun hs => h'.sorted (h.sorted hs)⟩
  · intro m t hm
    exact (h'.next m t (howns m t hm)).trans (h.next m t hm)
  · intro m t hm
    exact (h'.nested m t (howns m t hm)).trans (h.nested m t hm)
  · intro u m t hm
    exact (h'.blocked u m t (howns m t hm)).trans (h.blocked u m t hm)

/-- The tasks and objects are as they were. -/
theorem Aside.same (htask : k'.task = k.task) (hobj : k'.obj = k.obj) : Aside k k' := by
  have howns : ∀ m t, k'.owns m t ↔ k.owns m t := by
    intro m t
    unfold Kernel.owns
    rw [hobj]
  refine ⟨howns, ?_, ?_, ?_, ?_, ?_, ?_, ?_, ?_, ?_, ?_⟩
  · intro m t _
    unfold Kernel.nextMutex
    rw [hobj]
  · intro m t _
    rw [hobj]
  · rw [htask]
    exact fun _ => Iff.rfl
  · rw [htask]
    exact fun _ => Iff.rfl
  · rw [htask]
    exact fun _ => rfl
  · rw [htask]
    exact fun _ => rfl
  · rw [htask]
    exact fun _ => rfl
  · rw [htask]
    exact fun _ _ _ _ => Iff.rfl
  · rw [htask]
    exact fun _ => id
  · unfold Sorted
    rw [htask, hobj]
    exact id

theorem Ktask.not_lost {x y : Ktask O} (h : x.state ≠ .pend) (h' : x.state ≠ .pendSuspended) :
    x.lost → y.lost := by
  intro hlost
  rcases hlost.1 with hs | hs
  · exact absurd hs h
  · exact absurd hs h'

/-- A task that is lost is in a state to wait, and waits for nothing. -/
theorem Ktask.lost_iff {x : Ktask O} :
    x.lost ↔ (x.state = .pend ∨ x.state = .pendSuspended) ∧ x.waits = none := by
  unfold Ktask.lost Ktask.waits
  refine and_congr_right fun hs => ?_
  rw [if_pos hs]

theorem Ktask.lost_of_waits {x y : Ktask O} (hs : y.state = x.state) (hw : y.waits = x.waits) :
    y.lost → x.lost := by
  rw [Ktask.lost_iff, Ktask.lost_iff, hs, hw]
  exact id

/-- What a task may change by itself. -/
structure Apart (x y : Ktask O) : Prop where
  seed : y.state = .seed ↔ x.state = .seed
  deleted : y.state = .deleted ↔ x.state = .deleted
  mutexList : y.mutexList = x.mutexList
  prio : y.prio = x.prio
  bPrio : y.bPrio = x.bPrio
  lost : y.lost → x.lost

theorem Sorted.of_prio (hprio : ∀ u, (k'.task u).prio = (k.task u).prio)
    (h : ∀ o, (k'.obj o).blkList.Pairwise fun a b => (k.task a).prio ≤ (k.task b).prio) :
    Sorted k' := by
  intro o
  simp only [hprio]
  exact h o

/-- Lists that lose tasks stay sorted. -/
theorem Sorted.sublist (h : Sorted k) (hprio : ∀ u, (k'.task u).prio = (k.task u).prio)
    (hsub : ∀ o, (k'.obj o).blkList.Sublist (k.obj o).blkList) : Sorted k' :=
  .of_prio hprio fun o => (h o).sublist (hsub o)

/-- One task changes, and the lists of objects, and it waits for no mutex or for what
    it did. -/
theorem Aside.of_task (hother : ∀ u, u ≠ t → k'.task u = k.task u)
    (hobj : ∀ o, ∃ l, k'.obj o = { k.obj o with blkList := l })
    (hx : Apart (k.task t) (k'.task t))
    (hw : ∀ m u, k.owns m u → ((k'.task t).waits = some m ↔ (k.task t).waits = some m))
    (hsorted : (∀ u, (k'.task u).prio = (k.task u).prio) → Sorted k → Sorted k') :
    Aside k k' := by
  -- All fields but the list are those of before, for the task as for all others.
  have hprio : ∀ u, (k'.task u).prio = (k.task u).prio := by
    intro u
    by_cases hu : u = t
    · rw [hu]
      exact hx.prio
    · rw [hother u hu]
  refine ⟨?_, ?_, ?_, ?_, ?_, ?_, hprio, ?_, ?_, ?_, hsorted hprio⟩
  · intro m u
    rcases hobj m with ⟨l, hm⟩
    unfold Kernel.owns
    rw [hm]
  · intro m u _
    rcases hobj m with ⟨l, hm⟩
    unfold Kernel.nextMutex
    rw [hm]
  · intro m u _
    rcases hobj m with ⟨l, hm⟩
    rw [hm]
  · intro u
    by_cases hu : u = t
    · rw [hu]
      exact hx.seed
    · rw [hother u hu]
  · intro u
    by_cases hu : u = t
    · rw [hu]
      exact hx.deleted
    · rw [hother u hu]
  · intro u
    by_cases hu : u = t
    · rw [hu]
      exact hx.mutexList
    · rw [hother u hu]
  · intro u
    by_cases hu : u = t
    · rw [hu]
      exact hx.bPrio
    · rw [hother u hu]
  · intro u m v hm
    by_cases hu : u = t
    · rw [hu]
      exact hw m v hm
    · rw [hother u hu]
  · intro u
    by_cases hu : u = t
    · rw [hu]
      exact hx.lost
    · rw [hother u hu]
      exact id

/-- One object changes that is no mutex, and is none after, or none that is owned. -/
theorem Aside.modObj [DecidableEq O] {o : O} {f : Kobj T O → Kobj T O}
    (hm : (k.obj o).objType ≠ .mutex)
    (hf : (f (k.obj o)).objType ≠ .mutex ∨ (f (k.obj o)).mutexTask = none)
    (hblk : (f (k.obj o)).blkList = (k.obj o).blkList) : Aside k (k.modObj o f) := by
  have hself : (k.modObj o f).obj o = f (k.obj o) := Function.update_self ..
  have hother : ∀ o', o' ≠ o → (k.modObj o f).obj o' = k.obj o' :=
    fun o' ho => Function.update_of_ne ho ..
  -- The object is no mutex, so no owned one changes.
  have hne : ∀ m t, k.owns m t → m ≠ o := by
    intro m t hown he
    rw [he] at hown
    exact hm hown.1
  refine ⟨?_, ?_, ?_, fun _ => Iff.rfl, fun _ => Iff.rfl, fun _ => rfl, fun _ => rfl, fun _ => rfl,
    fun _ _ _ _ => Iff.rfl, fun _ => id, ?_⟩
  · intro m t
    by_cases ho : m = o
    · subst ho
      refine iff_of_false ?_ fun h => hm h.1
      intro h
      unfold Kernel.owns at h
      rw [hself] at h
      rcases hf with hf | hf
      · exact hf h.1
      · rw [hf] at h
        cases h.2
    · unfold Kernel.owns
      rw [hother m ho]
  · intro m t hown
    unfold Kernel.nextMutex
    rw [hother m (hne m t hown)]
  · intro m t hown
    rw [hother m (hne m t hown)]
  · intro hs o'
    have hlist : ((k.modObj o f).obj o').blkList = (k.obj o').blkList := by
      by_cases ho : o' = o
      · subst ho
        rw [hself, hblk]
      · rw [hother o' ho]
    rw [hlist]
    exact hs o'

/-- Tasks that wait for no mutex change and are woken. -/
theorem foldl_aside {g : Kernel T O → T → Kernel T O}
    (hg : ∀ k t, Lists k → (∀ m u, k.owns m u → (k.task t).waits ≠ some m) →
      Aside k (g k t) ∧ Lists (g k t)) (h : Lists k) (l : List T)
    (hw : ∀ t ∈ l, ∀ m u, k.owns m u → (k.task t).waits ≠ some m) :
    Aside k (l.foldl g k) := by
  induction l generalizing k with
  | nil => exact .same rfl rfl
  | cons t l ih =>
      have hstep := hg k t h (hw t List.mem_cons_self)
      refine hstep.1.trans (ih hstep.2 ?_)
      intro v hv m u hm ho
      have hold := (hstep.1.owns m u).mp hm
      exact hw v (List.mem_cons_of_mem _ hv) m u hold ((hstep.1.blocked v m u hold).mp ho)

/-- Those that wait for an object that is no mutex wait for no mutex. -/
theorem Lists.waits_other (h : Lists k) {o : O} (hm : (k.obj o).objType ≠ .mutex)
    (ht : t ∈ (k.obj o).blkList) : ∀ m u, k.owns m u → (k.task t).waits ≠ some m := by
  intro m u hown hw
  have hsame := (h.wait t o).mp ht
  rw [hw, Option.some.injEq] at hsame
  rw [hsame] at hown
  exact hm hown.1

/-- A task that takes its place by its priority. -/
theorem pairwise_pendListAdd {prio : T → Nat} {l : List T}
    (h : l.Pairwise fun a b => prio a ≤ prio b) :
    (pendListAdd prio t l).Pairwise fun a b => prio a ≤ prio b :=
  pairwise_orderedInsert h fun _ _ => Iff.rfl

end Aside

/-! ## One task -/

section OneAside

variable {T O : Type} [DecidableEq T] {k k' : Kernel T O} {t : T}

theorem Aside.moved {r : Runqueue T} {l : List T} {x : Ktask O} (hx : Apart (k.task t) x)
    (hw : x.waits = (k.task t).waits) : Aside k (k.moved t r l x) := by
  refine Aside.of_task (t := t) (fun u hu => k.moved_of_ne hu r l x)
    (fun o => ⟨_, rfl⟩) ?_ ?_ fun hprio hs => hs.sublist hprio fun o => List.Sublist.refl _
  · rw [Kernel.moved_self]
    exact hx
  · intro m u _
    rw [Kernel.moved_self, hw]

theorem Aside.left {r : Runqueue T} {x : Ktask O} (hx : Apart (k.task t) x)
    (hnone : x.waits = none) (hw : ∀ m u, k.owns m u → (k.task t).waits ≠ some m) :
    Aside k (k.left t r x) := by
  refine Aside.of_task (t := t) (fun u hu => k.left_of_ne hu r x)
    (fun o => ⟨_, rfl⟩) ?_ ?_ fun hprio hs => hs.sublist hprio fun o => List.erase_sublist
  · rw [Kernel.left_self]
    exact hx
  · intro m u hm
    rw [Kernel.left_self, hnone]
    exact iff_of_false (by simp) (hw m u hm)

theorem Aside.adjust {f : Ktask O → Ktask O} (hf : Still (k.task t) (f (k.task t))) :
    Aside k (k.modTask t f) := by
  have hx : Apart (k.task t) (f (k.task t)) :=
    ⟨by rw [hf.state], by rw [hf.state], hf.mutexList, hf.prio, hf.bPrio,
      Ktask.lost_of_waits hf.state hf.waits⟩
  exact Aside.moved (r := k.rq) (l := k.tickHead) hx hf.waits

/-- A task that waits for no mutex is woken. -/
theorem pendEnd_aside (h : Lists k) (b : BlkState)
    (hw : ∀ m u, k.owns m u → (k.task t).waits ≠ some m) : Aside k (k.pendEnd t b) := by
  by_cases hp : (k.task t).state = .pend
  · rcases pendEnd_pend h hp b with ⟨r, heq, -⟩
    rw [heq]
    exact Aside.left ⟨by simp [hp, Ktask.woken], by simp [hp, Ktask.woken], rfl, rfl, rfl,
      Ktask.not_lost (by simp [Ktask.woken]) (by simp [Ktask.woken])⟩ rfl hw
  · by_cases hs : (k.task t).state = .pendSuspended
    · rw [pendEnd_pendSuspended h hs b]
      exact Aside.left ⟨by simp [hs, Ktask.woken], by simp [hs, Ktask.woken], rfl, rfl, rfl,
        Ktask.not_lost (by simp [Ktask.woken]) (by simp [Ktask.woken])⟩ rfl hw
    · rw [pendEnd_other h hp hs b]
      have hnone : (k.task t).waits = none := Ktask.waits_eq_none hp hs
      have hnone' : ((k.task t).woken (k.task t).state b).waits = none := Ktask.waits_eq_none hp hs
      have hmoved : Aside k.hang (k.hang.moved t k.rq (k.tickHead.erase t)
          ((k.task t).woken (k.task t).state b)) :=
        .moved ⟨Iff.rfl, Iff.rfl, rfl, rfl, rfl, Ktask.not_lost hp hs⟩ (hnone'.trans hnone.symm)
      have hhang : Aside k k.hang := .same rfl rfl
      exact hhang.trans hmoved

theorem wakeAll_aside (h : Lists k) {o : O} (hm : (k.obj o).objType ≠ .mutex) {l : List T}
    (hl : l ⊆ (k.obj o).blkList) {f : Ktask O → Ktask O} (hf : ∀ x, Calm x (f x)) :
    Aside k (k.wakeAll f l) := by
  refine foldl_aside ?_ h l fun t ht => h.waits_other hm (hl ht)
  intro k t h hw
  have hmod : Lists (k.modTask t f) :=
    h.modTask (hf (k.task t)).toPlaced (by rw [(hf (k.task t)).bPrio]; exact h.bPrio t)
  have haside : Aside k (k.modTask t f) := .adjust (hf _).toStill
  refine ⟨haside.trans (pendEnd_aside hmod .finish ?_), (pendTaskWakeup_lists hmod t).1⟩
  intro m u hown ho
  have hold := (haside.owns m u).mp hown
  exact hw m u hold ((haside.blocked t m u hold).mp ho)

variable [DecidableEq O]

/-- The active task waits for what is no mutex. -/
theorem pendToBlkObj_aside (h : Lists k) (ht : (k.task t).state = .rdy) (hidle : t ≠ k.idle) {o : O}
    (hm : ∀ u, ¬k.owns o u) (ticks : Nat) : Aside k (k.pendToBlkObj o t ticks) := by
  rcases pendToBlkObj_eq h ht hidle o ticks with ⟨r, l, b, m, n, heq, -⟩
  rw [heq]
  have hself : Function.update k.task t ((k.task t).waiting o b m n) t
      = (k.task t).waiting o b m n := Function.update_self ..
  refine Aside.of_task (t := t) (fun u hu => Function.update_of_ne hu _ _) ?_ ?_ ?_ ?_
  · intro o'
    dsimp only
    by_cases ho : o' = o
    · subst ho
      rw [Function.update_self]
      exact ⟨_, rfl⟩
    · rw [Function.update_of_ne ho]
      exact ⟨_, rfl⟩
  · dsimp only
    rw [hself]
    refine ⟨by simp [ht, Ktask.waiting], by simp [ht, Ktask.waiting], rfl, rfl, rfl, ?_⟩
    intro hlost
    cases hlost.2
  · intro m' u hown
    dsimp only
    rw [hself, Ktask.waits_eq_none (x := k.task t) (by simp [ht]) (by simp [ht])]
    have hwait : ((k.task t).waiting o b m n).waits = some o := rfl
    rw [hwait, Option.some.injEq]
    refine iff_of_false ?_ (by simp)
    intro he
    rw [← he] at hown
    exact hm u hown
  · intro hprio hs
    refine .of_prio hprio fun o' => ?_
    dsimp only
    by_cases ho : o' = o
    · subst ho
      rw [Function.update_self]
      exact pairwise_pendListAdd (hs o')
    · rw [Function.update_of_ne ho]
      exact hs o'

/-- One task is tested for an event. -/
theorem eventWake_aside (h : Lists k) {o : O} (hm : (k.obj o).objType ≠ .mutex) (cur : BitVec 32)
    (hw : ∀ m u, k.owns m u → (k.task t).waits ≠ some m) :
    Aside k (k.eventWake o cur t) ∧ Lists (k.eventWake o cur t) ∧
      ((k.eventWake o cur t).obj o).objType ≠ .mutex := by
  unfold Kernel.eventWake
  split_ifs
  · have hinfo : Aside k (k.modTask t fun x => { x with pendInfo := cur }) :=
      .adjust ⟨⟨rfl, rfl, rfl, rfl⟩, rfl, rfl, rfl⟩
    have hmod : Lists (k.modTask t fun x => { x with pendInfo := cur }) :=
      h.modTask ⟨rfl, rfl, rfl, rfl⟩ (h.bPrio t)
    have hwake : Aside k ((k.modTask t fun x => { x with pendInfo := cur }).pendTaskWakeup t) := by
      refine hinfo.trans (pendEnd_aside hmod .finish ?_)
      intro m u hown ho
      have hold := (hinfo.owns m u).mp hown
      exact hw m u hold ((hinfo.blocked t m u hold).mp ho)
    rcases pendTaskWakeup_lists hmod t with ⟨hlists, hframe⟩
    have htype : (((k.modTask t fun x => { x with pendInfo := cur }).pendTaskWakeup t).obj o).objType
        ≠ .mutex := by
      rw [hframe.objType]
      exact hm
    dsimp only
    split_ifs
    · refine ⟨hwake.trans (.modObj htype (.inl htype) rfl), hlists.modObj rfl (hlists.owner o), ?_⟩
      simpa [Kernel.modObj] using htype
    · exact ⟨hwake, hlists, htype⟩
  · exact ⟨.same rfl rfl, h, hm⟩

theorem eventSet_aside (h : Lists k) {o : O} (ho : (k.obj o).objType = .event) (cur : BitVec 32) :
    Aside k ((k.obj o).blkList.foldl (Kernel.eventWake o cur)
      (k.modObj o fun x => { x with flags := cur })) := by
  have hm : (k.obj o).objType ≠ .mutex := by simp [ho]
  have hmod : Aside k (k.modObj o fun x => { x with flags := cur }) := .modObj hm (.inl hm) rfl
  have hlists : Lists (k.modObj o fun x => { x with flags := cur }) :=
    h.modObj rfl (h.owner o)
  refine hmod.trans ?_
  have hfold : ∀ (l : List T) (k : Kernel T O), Lists k → (k.obj o).objType ≠ .mutex →
      (∀ t ∈ l, ∀ m u, k.owns m u → (k.task t).waits ≠ some m) →
      Aside k (l.foldl (Kernel.eventWake o cur) k) := by
    intro l
    induction l with
    | nil => exact fun k _ _ _ => .same rfl rfl
    | cons t l ih =>
        intro k h hm hw
        rcases eventWake_aside h hm cur (hw t List.mem_cons_self) with ⟨haside, hlists, hm'⟩
        refine haside.trans (ih _ hlists hm' ?_)
        intro v hv m u hown hwait
        have hold := (haside.owns m u).mp hown
        exact hw v (List.mem_cons_of_mem _ hv) m u hold ((haside.blocked v m u hold).mp hwait)
  refine hfold _ _ hlists (by simpa [Kernel.modObj] using hm) ?_
  intro t ht m u hown hwait
  exact h.waits_other hm ht m u ((hmod.owns m u).mp hown) hwait

theorem objDel_aside (h : Lists k) {o : O} (hm : (k.obj o).objType ≠ .mutex)
    {f : Kobj T O → Kobj T O} (hf : ∀ x, Restocked x (f x)) :
    Aside k (((k.obj o).blkList.foldl Kernel.pendTaskRm
      (k.modObj o fun x => { x with objType := .noType })).modObj o f) := by
  have hmod : Aside k (k.modObj o fun x => { x with objType := .noType }) :=
    .modObj hm (.inl (by simp)) rfl
  have hlists : Lists (k.modObj o fun x => { x with objType := .noType }) :=
    h.modObj rfl (h.owner o)
  have hfold := foldl_aside (g := Kernel.pendTaskRm)
    (fun k t h hw => ⟨pendEnd_aside h .del hw, (pendTaskRm_lists h t).1⟩) hlists (k.obj o).blkList
    (fun t ht m u hown => h.waits_other hm ht m u ((hmod.owns m u).mp hown))
  rcases foldl_pendTaskRm hlists (k.obj o).blkList with ⟨-, hframe, -⟩
  have htype : (((k.obj o).blkList.foldl Kernel.pendTaskRm
      (k.modObj o fun x => { x with objType := .noType })).obj o).objType ≠ .mutex := by
    rw [hframe.objType]
    simp [Kernel.modObj]
  refine (hmod.trans hfold).trans (.modObj htype (.inl ?_) (hf _).blkList)
  rw [(hf _).objType]
  exact htype

theorem gives_aside (h : Lists k) {o : O} (hg : Gives k o k') : Aside k k' := by
  cases hg with
  | keep hm hf hblk => exact .modObj hm (.inl (hf.objType ▸ hm)) hf.blkList
  | wake hm hl hf => exact wakeAll_aside h hm hl hf

/-- A plain call changes nothing about mutexes and priorities. -/
theorem plain_aside {c : Call T O} {st : Option Kstat} {b : Bool} (h : Sound k)
    (hcaller : k.intrptNested = 0 → Kernel.beforeStart c = true ∨ k.active ≠ k.idle)
    (he : Plain k c st b k') : Aside k k' := by
  have hl := h.lists
  have hrdy : k.intrptNested = 0 → (k.task k.active).state = .rdy := fun hn => h.active (.inl hn)
  cases he with
  | refused hs hn => exact .same rfl rfl
  | hangs => exact .same rfl rfl
  | @sleep ticks hn hlock =>
      have hidle := (hcaller hn).resolve_left (by simp [Kernel.beforeStart])
      rcases asleep_eq hl (hrdy hn) hidle ticks with ⟨r, l, b, m, n, heq, -⟩
      rw [heq]
      -- A ready task that falls asleep waited for nothing, and does not now.
      refine .moved ⟨by simp [hrdy hn], by simp [hrdy hn], rfl, rfl, rfl,
        Ktask.not_lost (by simp) (by simp)⟩ ?_
      rw [Ktask.waits_eq_none (x := k.task k.active) (by simp [hrdy hn]) (by simp [hrdy hn])]
      rfl
  | yield hn =>
      have hsame : (k.readyListHeadToTail k.active).task = k.task ∧
          (k.readyListHeadToTail k.active).obj = k.obj := by
        unfold Kernel.readyListHeadToTail
        cases k.rq.headToTail (k.task k.active).prio with
        | none => exact ⟨rfl, rfl⟩
        | some r => exact ⟨rfl, rfl⟩
      exact .same hsame.1 hsame.2
  | @suspend t hs ht ha =>
      rcases suspended_eq hl hs (h.ne_idle_of_prio ht) with ⟨r, heq, -⟩
      rw [heq]
      refine .moved ⟨by simp [hs], by simp [hs], rfl, rfl, rfl,
        Ktask.not_lost (by simp) (by simp)⟩ ?_
      rw [Ktask.waits_eq_none (x := k.task t) (by simp [hs]) (by simp [hs])]
      rfl
  | @restate _ t n s hc hs =>
      rcases hs.facts with ⟨-, -, -, hpend⟩
      have hwaits : ({ k.task t with suspendCount := n, state := s } : Ktask O).waits
          = (k.task t).waits := by
        unfold Ktask.waits
        dsimp only
        rw [if_congr hpend rfl rfl]
      rcases hs.alive with ⟨hseed, hseed', hdel, hdel'⟩
      exact .moved (r := k.rq) (l := k.tickHead)
        ⟨iff_of_false hseed' hseed, iff_of_false hdel' hdel, rfl, rfl, rfl,
          fun hlost => ⟨hpend.mp hlost.1, hlost.2⟩⟩ hwaits
  | @resume t hs =>
      rcases resumed_eq hl hs 0 with ⟨r, heq, -⟩
      rw [heq]
      refine .moved ⟨by simp [hs], by simp [hs], rfl, rfl, rfl,
        Ktask.not_lost (by simp) (by simp)⟩ ?_
      rw [Ktask.waits_eq_none (x := k.task t) (by simp [hs]) (by simp [hs])]
      rfl
  | adjust hc hf => exact .adjust hf.toStill
  | schedLock hc hn => exact .same rfl rfl
  | @objCreate _ o f hc hnew hblk howner =>
      refine .modObj (by simp [hnew]) ?_ (hblk.trans (h.toPatient.blkList_noType hnew).symm)
      -- The new object is no mutex, or one without an owner.
      rcases howner with hnone | ⟨-, hm⟩
      · exact .inr hnone
      · exact .inl hm
  | objDel hc hm hf => exact objDel_aside hl hm hf
  | stock hc hm hf hstock => exact .modObj hm (.inl (hf.objType ▸ hm)) hf.blkList
  | give hc hg => exact gives_aside hl hg
  | eventSet ho => exact eventSet_aside hl ho _
  | @wait _ o f ticks hc hb hn hlock hm hstarved hf htime =>
      have hidle := (hcaller hn).resolve_left (by simp [hb])
      have hmod : Lists (k.modTask k.active f) := hl.modTask hf.toPlaced (hf.bPrio ▸ hl.bPrio _)
      have hself : (k.modTask k.active f).task k.active = f (k.task k.active) :=
        Function.update_self ..
      have hstate : ((k.modTask k.active f).task k.active).state = .rdy := by
        rw [hself, hf.state]
        exact hrdy hn
      -- The object waited for is no mutex, since nobody owns it.
      exact (Aside.adjust hf).trans
        (pendToBlkObj_aside hmod hstate hidle (fun u hown => hm hown.1) ticks)

end OneAside

end Rhino

end Wujian100
