import Wujian100.Theory.Rhino.Handover

/-!
# Priorities Are Inherited Exactly

Every step of the kernel leaves each task with the priority that its base priority and
those that wait for its mutexes give it, and each mutex on the chain of its owner.

There is one exception. `krhino_task_del` frees the mutexes of a task before it looks
at the state of the task, and a task that was deleted still points to the mutexes it
once had. Deleting it once more takes them from whoever owns them now.

## Main definitions

* `Kernel.leadsTo`: The mutexes a task points to.
* `Kernel.untouched`: A call deletes no task a second time that leads to a mutex in use.

## Theorems

* `step_inherits`: What a step keeps.
* `priorities_exact`: What holds after every run.
-/

namespace Wujian100

namespace Rhino

open Inherit

/-! ## A task stops waiting -/

section Leave

variable {T O : Type} [DecidableEq T] {k : Kernel T O} {S : T → Prop} {t : T} {o : O}

/-- A task that waits for nothing and has no time running leaves no list. -/
theorem moved_eq_left (h : Lists k) (hw : (k.task t).waits = none) (ht : t ∉ k.tickHead)
    (r : Runqueue T) (x : Ktask O) : k.moved t r k.tickHead x = k.left t r x := by
  unfold Kernel.moved Kernel.left
  rw [h.obj_erase hw, List.erase_of_not_mem ht]

variable [DecidableEq O] [Fintype T] [Fintype O]

/-- A task stops waiting for an object, and the owner's priority follows. `S` are the
    tasks that are there after it. -/
theorem leave_resettled {r : Runqueue T} {x : Ktask O} (ha : Awaited k)
    (h : Inherits k.owns S k) (hw : (k.task t).waits = some o) (hl : Lists (k.left t r x))
    (hlive : ∀ v, (k.left t r x).live v ↔ S v) (hseed : x.state ≠ .seed)
    (hlist : x.mutexList = (k.task t).mutexList) (hprio : x.prio = (k.task t).prio)
    (hbPrio : x.bPrio = (k.task t).bPrio) (hblk : x.blkObj = some o) (hnone : x.waits = none) :
    Resettled (k.left t r x) ((k.left t r x).mutexTaskPriReset t) := by
  have hself : (k.left t r x).task t = x := k.left_self t r x
  have hother : ∀ v, v ≠ t → (k.left t r x).task v = k.task v := fun v hv => k.left_of_ne hv r x
  have hwaits : ∀ v m, ((k.left t r x).task v).waits = some m ↔
      v ≠ t ∧ (k.task v).waits = some m := by
    intro v m
    by_cases hv : v = t
    · rw [hv, hself, hnone]
      simp
    · rw [hother v hv]
      simp [hv]
  have hprios : ∀ v, ((k.left t r x).task v).prio = (k.task v).prio := by
    intro v
    by_cases hv : v = t
    · rw [hv, hself]
      exact hprio
    · rw [hother v hv]
  have hbPrios : ∀ v, ((k.left t r x).task v).bPrio = (k.task v).bPrio := by
    intro v
    by_cases hv : v = t
    · rw [hv, hself]
      exact hbPrio
    · rw [hother v hv]
  have hboosts : ∀ u v, (k.left t r x).boosts (k.left t r x).owns u v ↔
      u ≠ t ∧ k.boosts k.owns u v := by
    intro u v
    constructor
    · rintro ⟨m, hu, ho⟩
      exact ⟨((hwaits u m).mp hu).1, m, ((hwaits u m).mp hu).2, ho⟩
    · rintro ⟨hu, m, hm, ho⟩
      exact ⟨m, (hwaits u m).mpr ⟨hu, hm⟩, ho⟩
  have hc : Chained (k.left t r x).owns S (k.left t r x) := by
    refine h.toChained.transfer ?_ ?_ (fun _ _ _ => rfl)
      (fun u m _ _ hu => ((hwaits u m).mp hu).2) ?_
    · intro v
      by_cases hv : v = t
      · rw [hv, hself]
        exact fun he => absurd he hseed
      · rw [hother v hv]
        exact id
    · intro v
      by_cases hv : v = t
      · rw [hv, hself]
        exact hlist
      · rw [hother v hv]
    · intro v
      by_cases hv : v = t
      · rw [hv, hself]
        intro hlost
        have hobj := hlost.2
        rw [hblk] at hobj
        cases hobj
      · rw [hother v hv]
        exact id
  refine mutexTaskPriReset_inherits hl (hc.congr (fun _ _ => Iff.rfl) hlive)
    (h.sorted.sublist hprios fun o => List.erase_sublist) ?_ (o := o) ?_ (ha t o hw) ?_ ?_
  · intro v m hv
    exact ha v m ((hwaits v m).mp hv).2
  · rw [hself]
    exact hblk
  · intro u hu ho
    have hbest := h.settled u ((hlive u).mp hu)
    have hval : (k.left t r x).prios u = k.prios u := hprios u
    rw [hval]
    refine hbest.congr (hbPrios u) ?_ fun v _ => hprios v
    intro v
    rw [hboosts]
    refine ⟨fun hv => hv.2, fun hv => ⟨?_, hv⟩⟩
    rintro rfl
    -- Who waits for `o` keeps only its owner waiting.
    rcases hv with ⟨m, hm, hown⟩
    rw [hw, Option.some.injEq] at hm
    rw [← hm] at hown
    exact ho hown
  · intro w hown
    have hbest := h.settled w (h.owner o w hown)
    have hval : (k.left t r x).prios w = k.prios w := hprios w
    rw [hval]
    refine hbest.congr (hbPrios w) ?_ fun v _ => hprios v
    intro v
    rw [hboosts]
    constructor
    · rintro (hv | ⟨hv, -⟩)
      · exact hv.2
      · rw [hv]
        exact ⟨o, hw, hown⟩
    · intro hv
      by_cases hvt : v = t
      · exact .inr ⟨hvt, rfl⟩
      · exact .inl ⟨hvt, hv⟩

end Leave

/-! ## A task is deleted -/

section Gone

variable {T O : Type} [DecidableEq T] {k : Kernel T O} {t : T}

/-- All others are there. -/
theorem live_gone (k : Kernel T O) (t : T) (r : Runqueue T) (v : T) :
    (k.left t r (k.task t).gone).live v ↔ k.live v ∧ v ≠ t := by
  unfold Kernel.live
  by_cases hv : v = t
  · rw [hv, Kernel.left_self]
    simp [Ktask.live, Ktask.gone]
  · rw [Kernel.left_of_ne _ hv]
    simp [hv]

/-- A task that waits for nothing ends. -/
theorem gone_inherits {r : Runqueue T} (h : Inherits k.owns (fun v => k.live v ∧ v ≠ t) k)
    (hw : (k.task t).waits = none) :
    Inherits (k.left t r (k.task t).gone).owns (k.left t r (k.task t).gone).live
      (k.left t r (k.task t).gone) := by
  have hleft : Inherits k.owns (fun v => k.live v ∧ v ≠ t) (k.left t r (k.task t).gone) := by
    refine h.left (by simp [Ktask.gone]) rfl rfl rfl ?_ rfl ?_
    · intro hlost
      exact absurd hlost.1 (by simp [Ktask.gone])
    · intro m v _
      rw [hw]
      simp
  exact hleft.congr (fun _ _ => Iff.rfl) (live_gone k t r)

end Gone

section Deletion

variable {T O : Type} [DecidableEq T] [DecidableEq O] [Fintype T] [Fintype O] {k : Kernel T O}
  {t : T}

/-- A task ends that owns nothing. -/
theorem taskEnd_inherits (hl : Lists k) (ha : Awaited k)
    (h : Inherits k.owns (fun v => k.live v ∧ v ≠ t) k) (ht : k.live t) (hidle : t ≠ k.idle) :
    ∃ k', k.taskEnd t = some k' ∧ Inherits k'.owns k'.live k' := by
  cases hs : (k.task t).state with
  | rdy =>
      have hw : (k.task t).waits = none := Ktask.waits_eq_none (by simp [hs]) (by simp [hs])
      rcases taskEnd_rdy hl hidle hs with ⟨r, heq, -⟩
      rw [moved_eq_left hl hw (hl.not_tick hs).1] at heq
      exact ⟨_, heq, gone_inherits h hw⟩
  | suspended =>
      have hw : (k.task t).waits = none := Ktask.waits_eq_none (by simp [hs]) (by simp [hs])
      have heq := taskEnd_suspended hl hs
      rw [moved_eq_left hl hw (hl.off (by simp [TaskState.timed, hs])).1] at heq
      exact ⟨_, heq, gone_inherits h hw⟩
  | sleep | sleepSuspended =>
      have hw : (k.task t).waits = none := Ktask.waits_eq_none (by simp [hs]) (by simp [hs])
      exact ⟨_, taskEnd_sleep hl (by simp [hs]), gone_inherits h hw⟩
  | pend | pendSuspended =>
      have hpend : (k.task t).state = .pend ∨ (k.task t).state = .pendSuspended := by simp [hs]
      refine ⟨_, taskEnd_pend hl hpend, ?_⟩
      cases hblk : (k.task t).blkObj with
      | none => exact absurd ⟨hpend, hblk⟩ (h.lost t)
      | some o =>
          have hlists := hl.rest (x := (k.task t).gone) (by simp [hs]) (.inr rfl) rfl rfl rfl
          exact (leave_resettled ha h ((if_pos hpend).trans hblk) hlists (live_gone k t k.rq)
            (by simp [Ktask.gone]) rfl rfl rfl hblk rfl).inherits
  | seed => exact absurd hs ht.1
  | deleted => exact absurd hs ht.2

omit [DecidableEq T] [DecidableEq O] in
/-- The loop of `task_mutex_free` is long enough for a chain. -/
theorem chain_length_le {next : O → Option O} {start : Option O} {l : List O}
    (h : Linked next start l) : l.length ≤ (Fintype.card T + 1) * (Fintype.card O + 1) := by
  have hcard := h.length_le
  have hmul : Fintype.card O + 1 ≤ (Fintype.card T + 1) * (Fintype.card O + 1) :=
    Nat.le_mul_of_pos_left _ (Nat.succ_pos _)
  omega

/-- A task that is there is deleted, once its mutexes are free. -/
theorem taskEnd_freed (hp : Patient k) (h : Inherits k.owns k.live k) (ht : k.live t)
    (hidle : t ≠ k.idle) :
    ∃ k', (k.taskMutexFree t).taskEnd t = some k' ∧ Inherits k'.owns k'.live k' := by
  rcases h.chain t ht with ⟨l, hlinked, hmem⟩
  have hloop := mutexFreeLoop_inherits (t := t) hp.lists (h.without t) hlinked
    (chain_length_le (T := T) hlinked) ?_ (fun m hm => ((hmem m).mp hm).1) ?_ ?_ fun _ => Iff.rfl
  · have hpatient : Patient (k.taskMutexFree t) := mutexFreeLoop_patient _ hp _
    have hkeeps : Keeps k (k.taskMutexFree t) := (mutexFreeLoop_lists _ hp.lists _).2
    have hfree : Inherits (k.taskMutexFree t).owns (fun v => (k.taskMutexFree t).live v ∧ v ≠ t)
        (k.taskMutexFree t) :=
      hloop.1.congr (fun _ _ => Iff.rfl) fun v => and_congr_left fun _ => hloop.2 v
    exact taskEnd_inherits hpatient.lists hpatient.awaited hfree ((hloop.2 t).mpr ht)
      (hkeeps.idle ▸ hidle)
  · intro m v
    rw [hmem m]
    by_cases hv : v = t
    · simp [hv]
    · simp [hv]
  · intro m hm v hv
    exact hv.2 (h.unique m t v ((hmem m).mp hm) hv.1)
  · intro v m hm hw
    refine ⟨k.live_of_waits hw, ?_⟩
    rintro rfl
    exact h.self v m hw ((hmem m).mp hm)

/-- A task that is there is deleted. -/
theorem ended_inherits (hp : Patient k) (h : Inherits k.owns k.live k) (ht : k.live t)
    (hidle : t ≠ k.idle) : Inherits (k.ended t).owns (k.ended t).live (k.ended t) := by
  rcases taskEnd_freed hp h ht hidle with ⟨k', hend, hk'⟩
  unfold Kernel.ended
  rw [hend]
  exact hk'

/-- The mutexes that the pointer of a task leads to. -/
def Kernel.leadsTo (k : Kernel T O) (t : T) (m : O) : Prop :=
  ∃ c, (k.task t).mutexList = some c ∧
    Relation.ReflTransGen (fun a b => k.nextMutex a = some b) c m

omit [Fintype T] [Fintype O] in
/-- Mutexes that nobody owns or waits for are freed, and nothing happens. -/
theorem mutexFreeLoop_unused (n : Nat) (h : Inherits k.owns k.live k) (start : Option O)
    (hunused : ∀ c m, start = some c →
      Relation.ReflTransGen (fun a b => k.nextMutex a = some b) c m →
      (k.obj m).blkList = [] ∧ ∀ v, ¬k.owns m v) :
    Inherits (Kernel.mutexFreeLoop n k start).owns (Kernel.mutexFreeLoop n k start).live
        (Kernel.mutexFreeLoop n k start) ∧
      (Kernel.mutexFreeLoop n k start).task = k.task ∧
      (∀ m v, (Kernel.mutexFreeLoop n k start).owns m v ↔ k.owns m v) ∧
      ∀ m, ((Kernel.mutexFreeLoop n k start).obj m).ownerNested = (k.obj m).ownerNested := by
  -- By induction on the fuel: each turn clears the owner of a mutex that has none.
  induction n generalizing k start with
  | zero =>
      cases start with
      | none => exact ⟨h, rfl, fun _ _ => Iff.rfl, fun _ => rfl⟩
      | some m => exact ⟨h.aside (.same rfl rfl), rfl, fun _ _ => Iff.rfl, fun _ => rfl⟩
  | succ n ih =>
      cases start with
      | none => exact ⟨h, rfl, fun _ _ => Iff.rfl, fun _ => rfl⟩
      | some m =>
          rcases hunused m m rfl .refl with ⟨hblk, hfree⟩
          have hform : k.freeMutex m = k.modObj m fun x => { x with mutexTask := none } := by
            unfold Kernel.freeMutex
            rw [hblk]
          have hself : (k.freeMutex m).obj m = { k.obj m with mutexTask := none } := by
            rw [hform]
            exact Function.update_self ..
          have hother : ∀ m', m' ≠ m → (k.freeMutex m).obj m' = k.obj m' := by
            intro m' hm'
            rw [hform]
            exact Function.update_of_ne hm' ..
          have howns : ∀ m' v, (k.freeMutex m).owns m' v ↔ k.owns m' v := by
            intro m' v
            unfold Kernel.owns
            by_cases hm' : m' = m
            · subst hm'
              rw [hself]
              refine iff_of_false ?_ (hfree v)
              rintro ⟨-, hnone⟩
              cases hnone
            · rw [hother m' hm']
          have hnext : (k.freeMutex m).nextMutex = k.nextMutex := by
            funext m'
            unfold Kernel.nextMutex
            by_cases hm' : m' = m
            · rw [hm', hself]
            · rw [hother m' hm']
          have hblk' : ∀ m', ((k.freeMutex m).obj m').blkList = (k.obj m').blkList := by
            intro m'
            by_cases hm' : m' = m
            · rw [hm', hself]
            · rw [hother m' hm']
          have htask : (k.freeMutex m).task = k.task := by rw [hform]; rfl
          have hlive : (k.freeMutex m).live = k.live := by
            unfold Kernel.live
            rw [htask]
          have hinherits : Inherits (k.freeMutex m).owns (k.freeMutex m).live (k.freeMutex m) := by
            have hmod : Inherits k.owns k.live (k.freeMutex m) := by
              rw [hform]
              exact h.modObj rfl rfl
            exact hmod.congr howns fun v => by rw [hlive]
          -- The rest of the walk is as unused as it was.
          have hrest := ih hinherits (k.nextMutex m) (by
            intro c m' hc hreach
            rw [hnext] at hreach
            rcases hunused m m' rfl (.head hc hreach) with ⟨hnil, hnone⟩
            exact ⟨(hblk' m').trans hnil, fun v hv => hnone v ((howns m' v).mp hv)⟩)
          refine ⟨hrest.1, hrest.2.1.trans htask,
            fun m' v => (hrest.2.2.1 m' v).trans (howns m' v), ?_⟩
          intro m'
          refine (hrest.2.2.2 m').trans ?_
          by_cases hm' : m' = m
          · rw [hm', hself]
          · rw [hother m' hm']

/-- A task that is not there is deleted. -/
theorem ended_unused (h : Inherits k.owns k.live k) (ht : ¬k.live t)
    (hunused : ∀ m, k.leadsTo t m → (k.obj m).blkList = [] ∧ ∀ v, ¬k.owns m v) :
    Inherits (k.ended t).owns (k.ended t).live (k.ended t) ∧ (k.ended t).task = k.task ∧
      (∀ m v, (k.ended t).owns m v ↔ k.owns m v) ∧
      ∀ m, ((k.ended t).obj m).ownerNested = (k.obj m).ownerNested := by
  have hfree := mutexFreeLoop_unused ((Fintype.card T + 1) * (Fintype.card O + 1)) h
    (k.task t).mutexList fun c m hc hreach => hunused m ⟨c, hc, hreach⟩
  have hend : (k.taskMutexFree t).taskEnd t = none := by
    have hstate : ((k.taskMutexFree t).task t).state = (k.task t).state :=
      congrArg (fun f => (f t).state) hfree.2.1
    unfold Kernel.live Ktask.live at ht
    unfold Kernel.taskEnd
    rw [hstate]
    cases hs : (k.task t).state with
    | seed => rfl
    | deleted => rfl
    | _ => exact absurd ⟨by simp [hs], by simp [hs]⟩ ht
  unfold Kernel.ended
  rw [hend]
  exact hfree

end Deletion

/-! ## A mutex is locked -/

section Lock

variable {T O : Type} [DecidableEq T] [DecidableEq O] {k : Kernel T O} {o : O} {t : T}

/-- A mutex that nobody owns is locked. Nobody waits for it. -/
theorem lockFree_inherits (h : Inherits k.owns k.live k) (ha : Awaited k)
    (hs : (k.task t).state = .rdy) (hm : (k.obj o).objType = .mutex)
    (ho : (k.obj o).mutexTask = none) :
    Inherits ((k.giveMutex o t).modObj o fun x => { x with ownerNested := 1 }).owns
      ((k.giveMutex o t).modObj o fun x => { x with ownerNested := 1 }).live
      ((k.giveMutex o t).modObj o fun x => { x with ownerNested := 1 }) := by
  have hfree : ∀ v, ¬k.owns o v := by
    intro v hv
    rw [hv.2] at ho
    cases ho
  have hwaits : ∀ v, (k.task v).waits ≠ some o := fun v hv => ha v o hv hm ho
  have hlive : k.live t := by
    unfold Kernel.live Ktask.live
    simp [hs]
  have hgive := giveMutex_inherits h hlive (by simp [hs]) hfree (hwaits t)
    fun v hv => absurd hv (hwaits v)
  refine (hgive.modObj rfl rfl).congr ?_ ?_
  · intro m v
    rw [owns_modObj (k := k.giveMutex o t) (o := o) (f := fun x => { x with ownerNested := 1 }) rfl
      rfl m v, giveMutex_owns]
    by_cases hmo : m = o
    · rw [hmo]
      simp [hm, hfree]
    · simp [hmo]
  · intro v
    unfold Kernel.live Ktask.live
    rw [show ((k.giveMutex o t).modObj o fun x => { x with ownerNested := 1 }).task
      = (k.giveMutex o t).task from rfl, (giveMutex_facts k o t v).1]

/-- A ready task comes to wait for a mutex, where priorities say that it does. -/
theorem pend_inherits (hl : Lists k) (hc : Chained k.owns k.live k) (hs : Sorted k)
    (ht : (k.task t).state = .rdy) (hidle : t ≠ k.idle) (hself : ¬k.owns o t)
    (hset : Settled k.live k.prios k.bPrios fun u v => k.boosts k.owns u v ∨ u = t ∧ k.owns o v)
    (ticks : Nat) :
    Inherits (k.pendToBlkObj o t ticks).owns (k.pendToBlkObj o t ticks).live
      (k.pendToBlkObj o t ticks) := by
  rcases pendToBlkObj_eq hl ht hidle o ticks with ⟨r, l, b, m, n, heq, -⟩
  rw [heq]
  generalize hk' : ({ k with
      rq := r
      tickHead := l
      task := Function.update k.task t ((k.task t).waiting o b m n)
      obj := Function.update k.obj o { k.obj o with
        blkList := pendListAdd (fun u => (k.task u).prio) t (k.obj o).blkList } } : Kernel T O)
      = k'
  -- Only the task and the list of the object change.
  have hnew : k'.task t = (k.task t).waiting o b m n := by
    rw [← hk']
    exact Function.update_self ..
  have hother : ∀ v, v ≠ t → k'.task v = k.task v := by
    intro v hv
    rw [← hk']
    exact Function.update_of_ne hv ..
  have hobj : ∀ m', ∃ q, k'.obj m' = { k.obj m' with blkList := q } ∧
      q.Pairwise fun a b => (k.task a).prio ≤ (k.task b).prio := by
    intro m'
    rw [← hk']
    dsimp only
    by_cases hm' : m' = o
    · subst hm'
      rw [Function.update_self]
      exact ⟨_, rfl, pairwise_pendListAdd (hs m')⟩
    · rw [Function.update_of_ne hm']
      exact ⟨_, rfl, hs m'⟩
  have howns : ∀ m' v, k'.owns m' v ↔ k.owns m' v := by
    intro m' v
    rcases hobj m' with ⟨q, hq, -⟩
    unfold Kernel.owns
    rw [hq]
  have hfields : ∀ v, (k'.task v).mutexList = (k.task v).mutexList ∧
      (k'.task v).prio = (k.task v).prio ∧ (k'.task v).bPrio = (k.task v).bPrio ∧
      ((k'.task v).live ↔ (k.task v).live) := by
    intro v
    by_cases hv : v = t
    · rw [hv, hnew]
      refine ⟨rfl, rfl, rfl, ?_⟩
      simp [Ktask.live, Ktask.waiting, ht]
    · rw [hother v hv]
      exact ⟨rfl, rfl, rfl, Iff.rfl⟩
  -- There is one more edge from a waiting task to its mutex.
  have hwaits : ∀ v m', (k'.task v).waits = some m' ↔
      (k.task v).waits = some m' ∨ v = t ∧ m' = o := by
    intro v m'
    by_cases hv : v = t
    · rw [hv, hnew, Ktask.waits_eq_none (x := k.task t) (by simp [ht]) (by simp [ht])]
      have hw : ((k.task t).waiting o b m n).waits = some o := rfl
      rw [hw]
      simp [eq_comm]
    · rw [hother v hv]
      simp [hv]
  refine ⟨⟨?_, ?_, ?_, ?_, ?_, ?_⟩, ?_, ?_⟩
  · intro v
    by_cases hv : v = t
    · rw [hv, hnew]
      intro hlost
      cases hlost.2
    · rw [hother v hv]
      exact hc.lost v
  · intro v
    by_cases hv : v = t
    · rw [hv, hnew]
      intro hseed
      cases hseed
    · rw [hother v hv]
      exact hc.seed v
  · intro m' v hv
    exact (hfields v).2.2.2.mpr (hc.owner m' v ((howns m' v).mp hv))
  · intro m' v v' hv hv'
    exact hc.unique m' v v' ((howns m' v).mp hv) ((howns m' v').mp hv')
  · intro v m' hw hown
    rw [howns] at hown
    rcases (hwaits v m').mp hw with hold | ⟨hv, hm'⟩
    · exact hc.self v m' hold hown
    · rw [hv, hm'] at hown
      exact hself hown
  -- The chains of mutexes do not go through `blk_list`.
  · intro v hv
    rcases hc.chain v ((hfields v).2.2.2.mp hv) with ⟨q, hq, hmem⟩
    refine ⟨q, ?_, fun m' => (hmem m').trans (howns m' v).symm⟩
    rw [(hfields v).1]
    refine hq.congr ?_
    intro m' _
    rcases hobj m' with ⟨q', hq', -⟩
    unfold Kernel.nextMutex
    rw [hq']
  · refine .of_prio (fun v => (hfields v).2.1) fun m' => ?_
    rcases hobj m' with ⟨q, hq, hsorted⟩
    rw [hq]
    exact hsorted
  -- With the new edge the priorities are what `hset` says.
  · intro v hv
    have hval : k'.prios v = k.prios v := (hfields v).2.1
    rw [hval]
    refine (hset v ((hfields v).2.2.2.mp hv)).congr (hfields v).2.2.1 ?_ fun u _ => (hfields u).2.1
    intro u
    -- The edges of the new state are the old ones and that of the task.
    constructor
    · rintro ⟨m', hw, hown⟩
      rw [howns] at hown
      rcases (hwaits u m').mp hw with hold | ⟨hu, hm'⟩
      · exact .inl ⟨m', hold, hown⟩
      · rw [hm'] at hown
        exact .inr ⟨hu, hown⟩
    · rintro (⟨m', hw, hown⟩ | ⟨hu, hown⟩)
      · exact ⟨m', (hwaits u m').mpr (.inl hw), (howns m' v).mpr hown⟩
      · exact ⟨o, (hwaits u o).mpr (.inr ⟨hu, rfl⟩), (howns o v).mpr hown⟩

variable [Fintype T] [Fintype O]

/-- A mutex is locked that another task owns, whose priority follows first. -/
theorem lockWait_inherits (hl : Lists k) (ha : Awaited k) (h : Inherits k.owns k.live k)
    (hs : (k.task k.active).state = .rdy) (hidle : k.active ≠ k.idle) {w : T} (ho : k.owns o w)
    (hw : w ≠ k.active) (ticks : Nat) :
    Inherits (k.lockWait o w ticks).owns (k.lockWait o w ticks).live (k.lockWait o w ticks) := by
  have honly : ∀ v, k.owns o v → v = w := fun v hv => h.unique o w v ho hv
  have hraised : ∃ k1, (if (k.task k.active).prio < (k.task w).prio then
        (k.taskPriChange w (k.task k.active).prio).2 else k) = k1 ∧ Repri k k1 ∧ Sorted k1 ∧
      Settled k.live k1.prios k.bPrios
        fun u v => k.boosts k.owns u v ∨ u = k.active ∧ k.owns o v := by
    have hrest : ∀ u, k.live u → u ≠ w → Best k.prios k.bPrios
        (fun u v => k.boosts k.owns u v ∨ u = k.active ∧ k.owns o v) u (k.prios u) := by
      intro u hu huw
      refine (h.settled u hu).congr rfl ?_ fun _ _ => rfl
      intro v
      refine ⟨?_, .inl⟩
      rintro (hv | ⟨-, hv⟩)
      · exact hv
      · exact absurd (honly u hv) huw
    have hwbest := h.settled w (h.owner o w ho)
    by_cases hlt : (k.task k.active).prio < (k.task w).prio
    · rw [if_pos hlt]
      -- The active task counts already, and it does not become more urgent.
      have hbest : Best k.prios k.bPrios
          (fun u v => k.boosts k.owns u v ∨ u = k.active ∧ k.owns o v) w (k.prios k.active) :=
        hwbest.join (fun u hu => hu.imp_right And.left) (.inr ⟨rfl, ho⟩) hlt.le
      have hS : ∀ u v, (k.boosts k.owns u v ∨ u = k.active ∧ k.owns o v) → k.live v := by
        rintro u v (⟨m, -, hv⟩ | ⟨-, hv⟩)
        · exact h.owner m v hv
        · exact h.owner o v hv
      have hself : ∀ u, ¬(k.boosts k.owns u u ∨ u = k.active ∧ k.owns o u) := by
        rintro u (hu | ⟨hu, hv⟩)
        · exact h.not_boosts u hu
        · rw [honly u hv] at hu
          exact hw hu
      have hnext : ∀ u, k.prios k.active < k.prios u → ∀ v,
          (k.boosts k.owns u v ∨ u = k.active ∧ k.owns o v) ↔ k.blocker u = some v := by
        intro u hu v
        rw [← boosts_iff_blocker]
        refine ⟨?_, .inl⟩
        rintro (hv | ⟨hv, -⟩)
        · exact hv
        · rw [hv] at hu
          exact absurd hu (lt_irrefl _)
      have hprop : ∃ f, propagate k.blocker k.look (Fintype.card T * priMax + 1) k.prios w
            (k.prios k.active) = some f ∧ Settled k.live f k.bPrios
              (fun u v => k.boosts k.owns u v ∨ u = k.active ∧ k.owns o v) ∧
          ∀ u, k.prios u ≤ k.prios k.active → f u = k.prios u :=
        propagate_raise hS hself hl.sum_prios_lt hnext hrest hbest hlt.le
      rcases hprop with ⟨f, hf, hset, -⟩
      have hchanged := priChangeLoop_propagate _ k w _ hl h.toChained h.sorted ha
        (h.owner o w ho) (fun he => hl.owner o (he ▸ ho.2)) (hl.prio _) hf
      refine ⟨_, rfl, hchanged.repri, hchanged.sorted, ?_⟩
      unfold Kernel.taskPriChange
      rw [hchanged.prios]
      exact hset
    · rw [if_neg hlt]
      refine ⟨k, rfl, .refl hl, h.sorted, ?_⟩
      intro u hu
      by_cases huw : u = w
      · rw [huw]
        refine hwbest.widen (fun v hv => .inl hv) ?_
        rintro v (hv | ⟨hv, -⟩)
        · exact .inl hv
        · rw [hv]
          exact .inr (not_lt.mp hlt)
      · exact hrest u hu huw
  rcases hraised with ⟨k1, heq, hrepri, hsorted, hset⟩
  unfold Kernel.lockWait
  rw [heq]
  rcases hrepri.same with ⟨howns, hlive, hbPrios, hboosts⟩
  have hframe := hrepri.frame
  refine pend_inherits hrepri.2 ?_ hsorted (hframe.rdy _ hs) ?_ ?_ ?_ ticks
  · rw [howns, hlive]
    exact h.toChained.repri hrepri
  · rw [hframe.idle]
    exact hidle
  · rw [howns]
    intro hown
    exact hw (honly _ hown).symm
  · rw [howns, hlive, hbPrios, hboosts]
    exact hset

end Lock

/-! ## Tasks are created, and change their priorities -/

section Create

variable {T O : Type} [DecidableEq T] [DecidableEq O] {k : Kernel T O} {t : T}

omit [DecidableEq O] in
/-- A task is created. It owns nothing, and nobody waits for it. -/
theorem created_inherits (hl : Lists k) (h : Inherits k.owns k.live k) {prio : Nat} (ticks : Nat)
    (autorun isStatic : Bool) (hnew : (k.task t).state = .seed ∨ (k.task t).state = .deleted)
    (hprio : prio < priMax) :
    Inherits (k.created t prio ticks autorun isStatic).owns
      (k.created t prio ticks autorun isStatic).live (k.created t prio ticks autorun isStatic) := by
  rcases created_eq hl ticks autorun isStatic hnew hprio with ⟨r, heq, -⟩
  rcases Frame.spawned k prio with ⟨htask, hobj, -⟩
  generalize hk' : k.created t prio ticks autorun isStatic = k' at *
  have hself : k'.task t = Kernel.freshTask prio ticks autorun isStatic := by
    rw [heq]
    exact Function.update_self ..
  have hother : ∀ v, v ≠ t → k'.task v = k.task v := by
    intro v hv
    rw [heq, Kernel.moved_of_ne _ hv, htask]
  have hobj' : k'.obj = k.obj := by
    rw [heq]
    exact hobj
  have howns : k'.owns = k.owns := by
    unfold Kernel.owns
    rw [hobj']
  -- The task was not live, so it neither owned, nor waited, nor was waited for.
  have hold : ¬k.live t := by
    intro hlive
    rcases hnew with hs | hs
    · exact hlive.1 hs
    · exact hlive.2 hs
  have hwaits : ∀ v, (k'.task v).waits = (k.task v).waits := by
    intro v
    by_cases hv : v = t
    · have hnone : (k.task t).waits = none := by
        rcases hnew with hs | hs
        · exact Ktask.waits_eq_none (by simp [hs]) (by simp [hs])
        · exact Ktask.waits_eq_none (by simp [hs]) (by simp [hs])
      rw [hv, hself, hnone]
      cases autorun with
      | false => rfl
      | true => rfl
    · rw [hother v hv]
  have hlive : ∀ v, v ≠ t → (k'.live v ↔ k.live v) := by
    intro v hv
    unfold Kernel.live
    rw [hother v hv]
  have hne : ∀ m v, k.owns m v → v ≠ t := by
    intro m v hv he
    rw [he] at hv
    exact hold (h.owner m t hv)
  have hnever : ∀ u, ¬k.boosts k.owns u t := by
    rintro u ⟨m, -, ho⟩
    exact hne m t ho rfl
  have hwho : ∀ u v, k.boosts k.owns u v → u ≠ t := by
    rintro u v ⟨m, hw, -⟩ he
    rw [he] at hw
    exact hold (k.live_of_waits hw)
  have hboosts : ∀ u v, k'.boosts k'.owns u v ↔ k.boosts k.owns u v := by
    intro u v
    unfold Kernel.boosts
    rw [howns, hwaits u]
  refine ⟨⟨?_, ?_, ?_, ?_, ?_, ?_⟩, ?_, ?_⟩
  -- No task has lost its place.
  · intro v
    by_cases hv : v = t
    · rw [hv, hself]
      intro hlost
      cases autorun with
      | false => exact absurd hlost.1 (by simp [Kernel.freshTask])
      | true => exact absurd hlost.1 (by simp [Kernel.freshTask])
    · rw [hother v hv]
      exact h.lost v
  · intro v
    by_cases hv : v = t
    · rw [hv, hself]
      exact fun _ => rfl
    · rw [hother v hv]
      exact h.seed v
  -- Owners are live, which the new task was not.
  · intro m v hv
    rw [howns] at hv
    exact (hlive v (hne m v hv)).mpr (h.owner m v hv)
  · rw [howns]
    exact h.unique
  · intro v m hw
    rw [howns]
    rw [hwaits v] at hw
    exact h.self v m hw
  -- The new task starts with an empty `mutex_list`.
  · intro v hv
    have hnext : k'.nextMutex = k.nextMutex := by
      unfold Kernel.nextMutex
      rw [hobj']
    rw [hnext, howns]
    by_cases hvt : v = t
    · refine ⟨[], ?_, ?_⟩
      · rw [hvt, hself]
        rfl
      · intro m
        refine iff_of_false (by simp) ?_
        intro ho
        exact hne m v ho hvt
    · rw [hother v hvt]
      exact h.chain v ((hlive v hvt).mp hv)
  -- The new task waits in no list, so each keeps its order.
  · intro o
    rw [hobj']
    have hnot : t ∉ (k.obj o).blkList := by
      intro hmem
      exact hold (k.live_of_waits ((hl.wait t o).mp hmem))
    refine (h.sorted o).imp_of_mem ?_
    intro a b ha hb hab
    rw [hother a fun he => hnot (he ▸ ha), hother b fun he => hnot (he ▸ hb)]
    exact hab
  -- Nobody boosts the new task: its priority is its base priority.
  · intro v hv
    unfold Kernel.prios
    by_cases hvt : v = t
    · refine .of (.inl ?_) ?_ ?_
      · unfold Kernel.bPrios
        rw [hvt, hself]
        rfl
      · unfold Kernel.bPrios
        rw [hvt, hself]
        exact le_refl _
      · intro u hu
        rw [hboosts, hvt] at hu
        exact absurd hu (hnever u)
    · rw [hother v hvt]
      refine (h.settled v ((hlive v hvt).mp hv)).congr ?_ (fun u => hboosts u v) ?_
      · unfold Kernel.bPrios
        rw [hother v hvt]
      · intro u hu
        unfold Kernel.prios
        rw [hother u (hwho u v hu)]

variable [Fintype T] [Fintype O]

/-- A task gets another base priority. -/
theorem priChange_inherits (hl : Lists k) (ha : Awaited k) (h : Inherits k.owns k.live k)
    (hidle : t ≠ k.idle) {pri limit : Nat} (hpri : pri < priMax) (hs : (k.task t).state ≠ .deleted)
    (hlimit : k.mutexPriLimit t pri = some limit) :
    Inherits ((k.modTask t fun x => { x with bPrio := pri }).taskPriChange t limit).2.owns
      ((k.modTask t fun x => { x with bPrio := pri }).taskPriChange t limit).2.live
      ((k.modTask t fun x => { x with bPrio := pri }).taskPriChange t limit).2 := by
  have hself : (k.modTask t fun x => { x with bPrio := pri }).task t
      = { k.task t with bPrio := pri } := Function.update_self ..
  have hother : ∀ v, v ≠ t → (k.modTask t fun x => { x with bPrio := pri }).task v = k.task v :=
    fun v hv => Function.update_of_ne hv ..
  have hl' : Lists (k.modTask t fun x => { x with bPrio := pri }) :=
    hl.modTask ⟨rfl, rfl, rfl, rfl⟩ hpri
  have howns : (k.modTask t fun x => { x with bPrio := pri }).owns = k.owns := rfl
  have hnext : (k.modTask t fun x => { x with bPrio := pri }).nextMutex = k.nextMutex := rfl
  have hobj : (k.modTask t fun x => { x with bPrio := pri }).obj = k.obj := rfl
  have hidle' : t ≠ (k.modTask t fun x => { x with bPrio := pri }).idle := hidle
  generalize (k.modTask t fun x => { x with bPrio := pri }) = k' at *
  -- Only the base priority has changed so far.
  have hfields : ∀ v, (k'.task v).state = (k.task v).state ∧ (k'.task v).prio = (k.task v).prio ∧
      (k'.task v).waits = (k.task v).waits ∧ (k'.task v).mutexList = (k.task v).mutexList := by
    intro v
    by_cases hv : v = t
    · rw [hv, hself]
      exact ⟨rfl, rfl, rfl, rfl⟩
    · rw [hother v hv]
      exact ⟨rfl, rfl, rfl, rfl⟩
  have hlive : k'.live = k.live := by
    funext v
    unfold Kernel.live Ktask.live
    rw [(hfields v).1]
  have hprios : k'.prios = k.prios := funext fun v => (hfields v).2.1
  have hboosts : k'.boosts k'.owns = k.boosts k.owns := by
    funext u v
    unfold Kernel.boosts
    rw [howns, (hfields u).2.2.1]
  have hbPrio : ∀ v, v ≠ t → k'.bPrios v = k.bPrios v := by
    intro v hv
    unfold Kernel.bPrios
    rw [hother v hv]
  have hc : Chained k'.owns k'.live k' := by
    rw [howns, hlive]
    refine h.toChained.transfer (fun v => ?_) (fun v => (hfields v).2.2.2) (fun m v _ => ?_)
      (fun u m v _ => ?_) fun v => ?_
    · rw [(hfields v).1]
      exact id
    · rw [hnext]
    · rw [(hfields u).2.2.1]
      exact id
    · exact Ktask.lost_of_waits (hfields v).1 (hfields v).2.2.1
  have hsorted : Sorted k' := by
    refine .of_prio (fun v => (hfields v).2.1) fun o => ?_
    rw [hobj]
    exact h.sorted o
  have hawaited : Awaited k' := by
    intro v o hw
    rw [(hfields v).2.2.1] at hw
    rw [hobj]
    exact ha v o hw
  -- All others are as settled as before.
  have hrest : ∀ v, k'.live v → v ≠ t →
      Best k'.prios k'.bPrios (k'.boosts k'.owns) v (k'.prios v) := by
    intro v hv hvt
    rw [hlive] at hv
    rw [hprios, hboosts]
    exact (h.settled v hv).congr (hbPrio v hvt) (fun _ => Iff.rfl) fun _ _ => rfl
  by_cases ht : k.live t
  -- `mutex_pri_limit` gives the task the best of its base priority and its waiters.
  · have hbest : Best k'.prios k'.bPrios (k'.boosts k'.owns) t limit := by
      rcases h.mutexes ht with ⟨l, hwalk, -, hmem⟩
      unfold Kernel.mutexPriLimit at hlimit
      rw [hwalk, Option.map_some, Option.some.injEq] at hlimit
      have hpri' : k'.bPrios t = pri := by
        unfold Kernel.bPrios
        rw [hself]
      have hlook : Best k.prios k'.bPrios (k.boosts k.owns) t (k.lookPri l (k'.bPrios t)) :=
        lookPri_best hl h.sorted hmem
      rw [hpri', hlimit] at hlook
      rw [hprios, hboosts]
      exact hlook
    exact (taskPriChange_inherits hl' hc hsorted hawaited (hlive ▸ ht) hidle' hrest
      hbest).2.inherits
  · -- A task that was never created keeps the priority it does not have yet.
    have hseed : (k'.task t).state = .seed := by
      rw [(hfields t).1]
      by_contra hne
      exact ht ⟨hne, hs⟩
    have hsame : (k'.taskPriChange t limit).2 = k' := by
      unfold Kernel.taskPriChange Kernel.priChangeLoop
      rw [hseed]
      split_ifs
      · rfl
      · rfl
    rw [hsame]
    refine ⟨hc, hsorted, ?_⟩
    intro v hv
    refine hrest v hv ?_
    rintro rfl
    rw [hlive] at hv
    exact ht hv

end Create

/-! ## Steps -/

section Steps

variable {T O : Type} [DecidableEq T] [DecidableEq O] [Fintype T] [Fintype O] {k k' : Kernel T O}
  {t : T}

/-- A task has waited long enough. -/
theorem timedOut_inherits {r : Runqueue T} {s : TaskState} {o : O} (ha : Awaited k)
    (h : Inherits k.owns k.live k) (hw : (k.task t).waits = some o)
    (hs : s = .rdy ∨ s = .suspended) (hl : Lists (k.left t r ((k.task t).timedOut s))) :
    let k' := ((k.left t r ((k.task t).timedOut s)).mutexTaskPriReset t).modTask t
      fun x => { x with blkObj := none }
    Inherits k'.owns k'.live k' := by
  have hstate : ((k.task t).timedOut s).state = s := rfl
  have hnone : ((k.task t).timedOut s).waits = none := by
    rcases hs with rfl | rfl
    · rfl
    · rfl
  have hlive : ∀ v, (k.left t r ((k.task t).timedOut s)).live v ↔ k.live v := by
    intro v
    unfold Kernel.live
    by_cases hv : v = t
    · rw [hv, Kernel.left_self]
      refine iff_of_true ?_ (k.live_of_waits hw)
      rcases hs with rfl | rfl
      · simp [Ktask.live, Ktask.timedOut]
      · simp [Ktask.live, Ktask.timedOut]
    · rw [Kernel.left_of_ne _ hv]
  have hreset := leave_resettled ha h hw hl hlive
    (by rcases hs with rfl | rfl <;> simp [Ktask.timedOut]) rfl rfl rfl (Ktask.state_of_waits hw).2
    hnone
  -- The task forgets what it waited for, which nothing depends on any more.
  have hstate' : (((k.left t r ((k.task t).timedOut s)).mutexTaskPriReset t).task t).state = s := by
    rcases hreset.repri.1 with ⟨r', f, g, b, he⟩
    rw [he]
    exact congrArg Ktask.state (k.left_self t r _)
  have hpend : s ≠ .pend ∧ s ≠ .pendSuspended := by
    rcases hs with rfl | rfl
    · simp
    · simp
  dsimp only
  generalize (k.left t r ((k.task t).timedOut s)).mutexTaskPriReset t = k1 at *
  have hforget : Aside k1 (k1.modTask t fun x => { x with blkObj := none }) := by
    have hwaits : (k1.task t).waits = none :=
      Ktask.waits_eq_none (by simp [hstate', hpend.1]) (by simp [hstate', hpend.2])
    have hwaits' : ({ k1.task t with blkObj := none } : Ktask O).waits = none :=
      Ktask.waits_eq_none (by simp [hstate', hpend.1]) (by simp [hstate', hpend.2])
    exact .moved (r := k1.rq) (l := k1.tickHead) ⟨Iff.rfl, Iff.rfl, rfl, rfl, rfl,
      Ktask.not_lost (by simp [hstate', hpend.1]) (by simp [hstate', hpend.2])⟩
      (hwaits'.trans hwaits.symm)
  exact hreset.inherits.aside hforget

/-- The time of a task ran out. -/
theorem tickExpire_inherits (hl : Lists k) (ha : Awaited k) (h : Inherits k.owns k.live k) (t : T) :
    Inherits (k.tickExpire t).owns (k.tickExpire t).live (k.tickExpire t) := by
  cases hs : (k.task t).state with
  | sleep =>
      rcases tickExpire_sleep hl hs with ⟨r, heq, -⟩
      rw [heq]
      refine h.aside (.left ⟨by simp [hs], by simp [hs], rfl, rfl, rfl,
        Ktask.not_lost (by simp) (by simp)⟩ rfl ?_)
      intro m u _
      rw [Ktask.waits_eq_none (by simp [hs]) (by simp [hs])]
      simp
  | sleepSuspended =>
      rw [tickExpire_sleepSuspended hl hs]
      refine h.aside (.left ⟨by simp [hs], by simp [hs], rfl, rfl, rfl,
        Ktask.not_lost (by simp) (by simp)⟩ rfl ?_)
      intro m u _
      rw [Ktask.waits_eq_none (by simp [hs]) (by simp [hs])]
      simp
  | pend =>
      have hne : (k.task t).state ≠ .rdy := by simp [hs]
      rcases tickExpire_pend hl hs with ⟨r, heq, hr⟩
      rw [heq]
      -- The wait ends as if the task had never begun it.
      cases hblk : (k.task t).blkObj with
      | none => exact absurd ⟨.inl hs, hblk⟩ (h.lost t)
      | some o =>
          exact timedOut_inherits ha h ((if_pos (.inl hs)).trans hblk) (.inl rfl)
            (hl.wake hne hr rfl rfl rfl rfl)
  | pendSuspended =>
      have hne : (k.task t).state ≠ .rdy := by simp [hs]
      rw [tickExpire_pendSuspended hl hs]
      cases hblk : (k.task t).blkObj with
      | none => exact absurd ⟨.inr hs, hblk⟩ (h.lost t)
      | some o =>
          exact timedOut_inherits ha h ((if_pos (.inr hs)).trans hblk) (.inr rfl)
            (hl.rest hne (.inl rfl) rfl rfl rfl)
  | seed | rdy | suspended | deleted =>
      unfold Kernel.tickExpire
      rw [hs]
      exact h.aside (.same rfl rfl)

/-- Every task whose time ran out. -/
theorem foldl_tickExpire_inherits (hp : Patient k) (h : Inherits k.owns k.live k) (l : List T) :
    Inherits (l.foldl Kernel.tickExpire k).owns (l.foldl Kernel.tickExpire k).live
      (l.foldl Kernel.tickExpire k) := by
  induction l generalizing k with
  | nil => exact h
  | cons t l ih =>
      rcases tickExpire_lists hp.lists t with ⟨hlists, hframe⟩
      exact ih (hp.frame hlists hframe) (tickExpire_inherits hp.lists hp.awaited h t)

omit [DecidableEq O] [Fintype T] [Fintype O] in
/-- The tasks of one priority take turns. -/
theorem timeSliceUpdate_aside (k : Kernel T O) : Aside k k.timeSliceUpdate := by
  have hturn : ∀ k : Kernel T O, ∀ t, Aside k (k.readyListHeadToTail t) := by
    intro k t
    unfold Kernel.readyListHeadToTail
    cases k.rq.headToTail (k.task t).prio with
    | none => exact .same rfl rfl
    | some r => exact .same rfl rfl
  have hadjust : ∀ (k : Kernel T O) (t : T) (n : Nat),
      Aside k (k.modTask t fun x => { x with timeSlice := n }) :=
    fun k t n => .adjust ⟨⟨rfl, rfl, rfl, rfl⟩, rfl, rfl, rfl⟩
  unfold Kernel.timeSliceUpdate
  cases k.rq.list (k.task k.active).prio with
  | nil => exact .same rfl rfl
  | cons t rest =>
      dsimp only
      split_ifs
      · exact .same rfl rfl
      · exact .same rfl rfl
      · exact hadjust k t _
      · exact ((hadjust k t _).trans (hturn _ t)).trans (.adjust ⟨⟨rfl, rfl, rfl, rfl⟩, rfl, rfl, rfl⟩)

omit [DecidableEq T] [DecidableEq O] [Fintype T] [Fintype O] in
theorem coreSched_aside (k : Kernel T O) : Aside k k.coreSched :=
  .same (coreSched_same k).1 (coreSched_same k).2.1

/-- Those that waited for a mutex that is deleted are woken. -/
theorem mutexDel_aside (hl : Lists k) (o : O) :
    Aside (k.mutexGone o)
      (((k.mutexGone o).obj o).blkList.foldl Kernel.pendTaskRm (k.mutexGone o)) := by
  rcases mutexGone_lists hl o with ⟨hgone, hframe⟩
  have hnone : ((k.mutexGone o).obj o).objType ≠ .mutex := by
    rw [hframe.objType]
    simp [Kernel.modObj]
  refine foldl_aside ?_ hgone _ ?_
  · intro k t hk hw
    exact ⟨pendEnd_aside hk .del hw, (pendTaskRm_lists hk t).1⟩
  · intro t ht
    exact hgone.waits_other hnone ht

/-- A step deletes no task that is not there and leads to a mutex in use. -/
def Kernel.untouched (k : Kernel T O) (a : KernelAct T O) : Prop :=
  ∀ c t, a = .call c → k.deletes c = some t → (k.task t).state = .deleted →
    ∀ m, k.leadsTo t m → (k.obj m).blkList = [] ∧ ∀ v, ¬k.owns m v

omit [DecidableEq T] [DecidableEq O] [Fintype T] [Fintype O] in
/-- A task that was never created leads to no mutex. -/
theorem unused_of_not_live (h : Inherits k.owns k.live k) (ht : ¬k.live t)
    (hunused : (k.task t).state = .deleted →
      ∀ m, k.leadsTo t m → (k.obj m).blkList = [] ∧ ∀ v, ¬k.owns m v) :
    ∀ m, k.leadsTo t m → (k.obj m).blkList = [] ∧ ∀ v, ¬k.owns m v := by
  by_cases hd : (k.task t).state = .deleted
  · exact hunused hd
  · rintro m ⟨c, hc, -⟩
    have hseed : (k.task t).state = .seed := by
      by_contra hs
      exact ht ⟨hs, hd⟩
    rw [h.seed t hseed] at hc
    cases hc

theorem ended_any (hp : Patient k) (h : Inherits k.owns k.live k) (hidle : t ≠ k.idle)
    (hunused : (k.task t).state = .deleted →
      ∀ m, k.leadsTo t m → (k.obj m).blkList = [] ∧ ∀ v, ¬k.owns m v) :
    Inherits (k.ended t).owns (k.ended t).live (k.ended t) := by
  by_cases ht : k.live t
  · exact ended_inherits hp h ht hidle
  · exact (ended_unused h ht (unused_of_not_live h ht hunused)).1

/-- Every effect of a call keeps priorities inherited. -/
theorem effect_inherits {c : Call T O} {st : Option Kstat} {b : Bool} (hsound : Sound k)
    (h : Inherits k.owns k.live k)
    (hcaller : k.intrptNested = 0 → Kernel.beforeStart c = true ∨ k.active ≠ k.idle)
    (hcond : k.untouched (.call c)) (he : Effect k c st b k') : Inherits k'.owns k'.live k' := by
  have hl := hsound.lists
  have ha := hsound.toPatient.awaited
  have hrdy : k.intrptNested = 0 → (k.task k.active).state = .rdy :=
    fun hn => hsound.active (.inl hn)
  cases he with
  | plain hp => exact h.aside (plain_aside hsound hcaller hp)
  | create hnew hprio => exact created_inherits hl h _ _ _ hnew hprio
  | @priChange t pri limit ht hpri hs hlimit =>
      refine priChange_inherits hl ha h (hsound.ne_idle_of_prio (by omega)) ?_ hs hlimit
      unfold idlePri at hpri
      omega
  | taskDel hn ht hact hd =>
      exact ended_any hsound.toPatient h (hsound.ne_idle_of_prio ht) (hcond _ _ rfl hd)
  | @taskDynDel task g hn ht hact hs hd hg =>
      rcases gives_sound hsound hg with ⟨hgsound, hkeeps⟩
      have haside := gives_aside hl hg
      refine ended_any hgsound.toPatient (h.aside haside) ?_ ?_
      · rw [hkeeps.idle]
        exact hsound.ne_idle_of_prio ht
      · intro hdel
        exact absurd ((haside.deleted _).mp hdel) hs
  | mutexDel hm => exact (mutexGone_inherits hl h ha hm).aside (mutexDel_aside hl _)
  | lockNested hn hm ho hov =>
      exact (h.modObj rfl rfl).congr (owns_modObj rfl rfl) fun _ => Iff.rfl
  | lockFree hn hm ho => exact lockFree_inherits h ha (hrdy hn) hm ho
  | lockWait hn hlock hm ho hw =>
      exact lockWait_inherits hl ha h (hrdy hn)
        ((hcaller hn).resolve_left (by simp [Kernel.beforeStart])) ⟨hm, ho⟩ hw _
  | unlockNested hn hm ho hnest hpos =>
      exact (h.modObj rfl rfl).congr (owns_modObj rfl rfl) fun _ => Iff.rfl
  | unlock hn hm ho hnest =>
      exact unlocked_inherits hl h (hrdy hn)
        ((hcaller hn).resolve_left (by simp [Kernel.beforeStart])) ⟨hm, ho⟩

/-- Every step keeps priorities inherited. -/
theorem step_inherits {a : KernelAct T O} (hsound : Sound k) (h : Inherits k.owns k.live k)
    (hcond : k.untouched a) (hstep : k.step a = some k') : Inherits k'.owns k'.live k' := by
  cases (step_stepped hstep).1 with
  | @call c hc hcaller =>
      rcases call_effect k c hc with ⟨b, k1, heff, heq⟩
      have hone := effect_inherits hsound h hcaller hcond heff
      rw [heq]
      split_ifs
      · exact hone.aside (coreSched_aside k1)
      · exact hone
  | start =>
      have hrun : Aside k { k with running := true } := .same rfl rfl
      exact h.aside (hrun.trans (coreSched_aside _))
  | tick =>
      have hcount : Patient { k with tickCount := (k.tickCount + 1) % 2 ^ 64 } := by
        have hl := hsound.lists
        exact ⟨⟨hl.rq, hl.prio, hl.bPrio, hl.wait, hl.waitNodup, hl.tick, hl.tickNodup, hl.timed,
          hl.idle, hl.owner⟩, hsound.starved⟩
      exact (foldl_tickExpire_inherits hcount (h.aside (.same rfl rfl)) _).aside
        (timeSliceUpdate_aside _)
  | intrptEnter => exact h.aside (.same rfl rfl)
  | intrptExit hn =>
      have hrun : Aside k { k with intrptNested := k.intrptNested - 1 } := .same rfl rfl
      exact h.aside (hrun.trans (coreSched_aside _))

end Steps

/-! ## Runs -/

section Runs

variable {T O : Type} [DecidableEq T] [DecidableEq O]

theorem init_inherits (idle : T) (resSem : O) :
    Inherits (Kernel.init idle resSem : Kernel T O).owns (Kernel.init idle resSem).live
      (Kernel.init idle resSem) := by
  have htask : ∀ t, ((Kernel.init idle resSem : Kernel T O).task t).mutexList = none ∧
      ((Kernel.init idle resSem : Kernel T O).task t).prio
        = ((Kernel.init idle resSem : Kernel T O).task t).bPrio ∧
      (((Kernel.init idle resSem : Kernel T O).task t).state = .rdy ∨
        ((Kernel.init idle resSem : Kernel T O).task t).state = .seed) := by
    intro t
    unfold Kernel.init
    dsimp only
    by_cases ht : t = idle
    · rw [ht, Function.update_self]
      exact ⟨rfl, rfl, .inl rfl⟩
    · rw [Function.update_of_ne ht]
      exact ⟨rfl, rfl, .inr rfl⟩
  have hobj : ∀ o, ((Kernel.init idle resSem : Kernel T O).obj o).blkList = [] ∧
      ((Kernel.init idle resSem : Kernel T O).obj o).objType ≠ .mutex := by
    intro o
    unfold Kernel.init
    dsimp only
    by_cases ho : o = resSem
    · rw [ho, Function.update_self]
      exact ⟨rfl, by simp⟩
    · rw [Function.update_of_ne ho]
      exact ⟨rfl, by simp [Kernel.freshObj]⟩
  -- There is no mutex yet, so nothing is inherited.
  have howns : ∀ m t, ¬(Kernel.init idle resSem : Kernel T O).owns m t :=
    fun m t ho => (hobj m).2 ho.1
  refine ⟨⟨?_, fun t _ => (htask t).1, fun m t ho => absurd ho (howns m t),
    fun m t _ ho => absurd ho (howns m t), fun t m _ => howns m t, ?_⟩, ?_, ?_⟩
  · intro t hlost
    rcases (htask t).2.2 with hs | hs
    · exact absurd hlost.1 (by simp [hs])
    · exact absurd hlost.1 (by simp [hs])
  · intro t _
    exact ⟨[], (htask t).1, fun m => iff_of_false (by simp) (howns m t)⟩
  · intro o
    rw [(hobj o).1]
    exact List.Pairwise.nil
  · intro t _
    refine .of (.inl (htask t).2.1) (htask t).2.1.le ?_
    rintro u ⟨m, -, ho⟩
    exact absurd ho (howns m t)

variable [Fintype T] [Fintype O]

/-- Priority inheritance is exact: the priority of a task is the least of its base
    priority and the priorities of those that wait for its mutexes, and counting those
    that wait for them in turn makes no difference. Where no task waits for itself through
    others, it is the least base priority among all those. The lists of those that wait
    are sorted, and a task's chain has exactly the mutexes it owns. -/
structure Exact (k : Kernel T O) : Prop where
  prio : ∀ t, k.live t → Best k.prios k.bPrios (k.boosts k.owns) t (k.prios t)
  chain : ∀ t, k.live t → Best k.prios k.bPrios (Relation.TransGen (k.boosts k.owns)) t (k.prios t)
  base : ∀ t, k.live t →
    (∀ u, Relation.ReflTransGen (k.boosts k.owns) u t →
      ¬Relation.TransGen (k.boosts k.owns) u u) →
    IsLeast (k.bPrios '' {u | Relation.ReflTransGen (k.boosts k.owns) u t}) (k.prios t)
  sorted : ∀ m, (k.obj m).blkList.Pairwise fun a b => (k.task a).prio ≤ (k.task b).prio
  mutexes : ∀ t, k.live t → ∃ l, k.mutexes t = some l ∧ l.Nodup ∧ ∀ m, m ∈ l ↔ k.owns m t

omit [DecidableEq T] [DecidableEq O] in
theorem Inherits.exact {k : Kernel T O} (h : Inherits k.owns k.live k) : Exact k := by
  have hlive : ∀ u t, k.boosts k.owns u t → k.live t := by
    rintro u t ⟨m, -, ho⟩
    exact h.owner m t ho
  have hlive' : ∀ u t, k.boosts k.owns u t → k.live u := by
    rintro u t ⟨m, hw, -⟩
    exact k.live_of_waits hw
  refine ⟨h.settled, fun t ht => h.settled.isLeast_transGen hlive ht,
    fun t ht hacyclic => h.settled.isLeast_base hlive hlive' ht hacyclic, h.sorted, ?_⟩
  intro t ht
  rcases h.mutexes ht with ⟨l, hwalk, hlinked, hmem⟩
  exact ⟨l, hwalk, hlinked.nodup, hmem⟩

/-- What holds after every run. -/
theorem run_inherits {idle : T} {resSem : O} {as : List (KernelAct T O)} {k : Kernel T O}
    (hcond : Run.Along Kernel.step Kernel.untouched (Kernel.init idle resSem) as)
    (h : Run.run Kernel.step (Kernel.init idle resSem) as = some k) :
    Sound k ∧ Inherits k.owns k.live k := by
  have hstep : ∀ (k : Kernel T O) a k', Sound k ∧ Inherits k.owns k.live k → k.untouched a →
      k.step a = some k' → Sound k' ∧ Inherits k'.owns k'.live k' :=
    fun k a k' hk hP hstep => ⟨step_sound hk.1 hstep, step_inherits hk.1 hk.2 hP hstep⟩
  exact Run.run_inv hstep as _ _ ⟨init_sound idle resSem, init_inherits idle resSem⟩ hcond h

/-- Priority inheritance is exact after every run that deletes no task a second time
    which leads to a mutex in use. -/
theorem priorities_exact (idle : T) (resSem : O) (as : List (KernelAct T O)) (k : Kernel T O)
    (hcond : Run.Along Kernel.step Kernel.untouched (Kernel.init idle resSem) as)
    (h : Run.run Kernel.step (Kernel.init idle resSem) as = some k) : Exact k :=
  (run_inherits hcond h).2.exact

/-- A step that deletes a task deletes one that was not deleted yet. -/
def Kernel.deletesOnce (k : Kernel T O) : KernelAct T O → Bool
  | .call c =>
      match k.deletes c with
      | some t => (k.task t).state ≠ .deleted
      | none => true
  | _ => true

omit [DecidableEq O] [Fintype T] [Fintype O] in
theorem untouched_of_deletesOnce {k : Kernel T O} {a : KernelAct T O}
    (h : k.deletesOnce a = true) : k.untouched a := by
  rintro c t rfl hd hs
  unfold Kernel.deletesOnce at h
  dsimp only at h
  rw [hd] at h
  simp [hs] at h

/-- The second task waits for a mutex of the first, which takes its priority, and ends
    without unlocking it. -/
def boostRun : List (KernelAct (Option Bool) Bool) :=
  [.call (.taskCreate (some false) 20 0 true true), .call (.mutexCreate true true), .start,
    .call (.mutexLock true 0), .call (.taskCreate (some true) 10 0 true true),
    .call (.mutexLock true 5), .call (.taskDel none)]

theorem priorities_exact_boostRun :
    ∃ k, Run.run Kernel.step (Kernel.init none false) boostRun = some k ∧ Exact k := by
  have hrun : (Run.run Kernel.step (Kernel.init none false) boostRun).isSome = true := by decide +kernel
  have hcond : Run.Along Kernel.step (fun k a => Kernel.deletesOnce k a = true)
      (Kernel.init none false) boostRun := by decide +kernel
  rcases Option.isSome_iff_exists.mp hrun with ⟨k, hk⟩
  exact ⟨k, hk, priorities_exact none false boostRun k
    (hcond.mono fun _ _ => untouched_of_deletesOnce) hk⟩

/-- A task ends without unlocking its mutex, another locks it, and the first is deleted
    once more. -/
def staleRun : List (KernelAct (Option Bool) Bool) :=
  [.call (.taskCreate (some false) 10 0 true true), .call (.taskCreate (some true) 20 0 true true),
    .call (.mutexCreate true true), .start, .call (.mutexLock true 0), .call (.taskDel none),
    .call (.mutexLock true 0), .call (.taskDel (some (some false)))]

/-- The second task's chain then has a mutex that nobody owns. -/
theorem stale_mutex_freed :
    ¬∀ (as : List (KernelAct (Option Bool) Bool)) (k : Kernel (Option Bool) Bool),
      Run.run Kernel.step (Kernel.init none false) as = some k → Exact k := by
  intro hall
  have hrun : (Run.run Kernel.step (Kernel.init none false) staleRun).map
      (fun k => ((k.task (some true)).state, k.mutexes (some true), (k.obj true).mutexTask))
      = some (.rdy, some [true], none) := by decide +kernel
  rcases Option.map_eq_some_iff.mp hrun with ⟨k, hk, hval⟩
  simp only [Prod.mk.injEq] at hval
  have hlive : k.live (some true) := by
    unfold Kernel.live Ktask.live
    simp [hval.1]
  rcases (hall staleRun k hk).mutexes (some true) hlive with ⟨l, hl, -, hmem⟩
  rw [hval.2.1, Option.some.injEq] at hl
  have howns := (hmem true).mp (by rw [← hl]; simp)
  rw [howns.2] at hval
  cases hval.2.2

end Runs

end Rhino

end Wujian100
