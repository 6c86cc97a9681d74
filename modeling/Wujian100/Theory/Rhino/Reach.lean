import Wujian100.Theory.Rhino.Sound
import Wujian100.Library.Run

/-!
# Every Kernel That Is Reached

Every effect of a call keeps what holds between two calls, and so do ticks and
interrupts. So it holds after every run, and with it what the run queue is and who
may wait.

## Theorems

* `plain_sound`, `effect_sound`: Every effect keeps what holds between two calls.
* `step_sound`: Every step keeps it.
* `runqueue_exact`: The run queue after every run.
* `no_lost_wakeup`: The tasks that wait after every run.
-/

namespace Wujian100

namespace Rhino

/-! ## Every effect -/

section Effects

variable {T O : Type} {k k' : Kernel T O} {b : Bool}

theorem Settling.sooner (h : Settling b k) : Settling true k :=
  ⟨h.toPatient, h.active.imp_right fun hl => ⟨rfl, hl.2⟩⟩

theorem Sound.settling (h : Sound k) (b : Bool) : Settling b k :=
  ⟨h.toPatient, .inl h.active⟩

/-- What keeps ready tasks ready keeps the active one. -/
theorem Sound.keeps (h : Sound k) (hp : Patient k') (hk : Keeps k k') : Sound k' := by
  refine ⟨hp, ?_⟩
  intro hact
  rw [hk.intrptNested, hk.schedLock] at hact
  rw [hk.active]
  exact hk.rdy _ (h.active hact)

theorem Sound.frame (h : Sound k) (hl : Lists k') (hf : Frame k k') : Sound k' :=
  h.keeps (h.toPatient.frame hl hf) hf.keeps

/-- A task that may be the active one is no longer ready, and another is chosen. -/
theorem Sound.passes {t : T} (h : Sound k) (hp : Patient k') (hk : Passes t k k')
    (ha : t = k.active → k.schedLock = 0 ∧ b = true) : Settling b k' := by
  refine ⟨hp, ?_⟩
  by_cases ht : t = k.active
  · refine .inr ⟨(ha ht).2, ?_⟩
    rw [hk.schedLock]
    exact (ha ht).1
  · refine .inl ?_
    intro hact
    rw [hk.intrptNested, hk.schedLock] at hact
    rw [hk.active]
    exact hk.rdy _ (Ne.symm ht) (h.active hact)

/-- A task that has not the idle task's priority is not the idle task. -/
theorem Sound.ne_idle_of_prio {t : T} (h : Sound k) (ht : (k.task t).prio ≠ idlePri) :
    t ≠ k.idle := by
  intro hidle
  rw [hidle] at ht
  exact ht h.lists.idle_state.2

theorem coreSched_lists (h : Lists k) : Lists k.coreSched := by
  unfold Kernel.coreSched
  split_ifs
  · exact h
  · exact h
  · cases k.rq.preferred with
    | none => exact h.hang
    | some t =>
        exact ⟨h.rq, h.prio, h.bPrio, h.wait, h.waitNodup, h.tick, h.tickNodup, h.timed, h.idle,
          h.owner⟩

/-- Only the task that runs changes. -/
theorem coreSched_same (k : Kernel T O) :
    k.coreSched.task = k.task ∧ k.coreSched.obj = k.obj ∧ k.coreSched.rq = k.rq ∧
      k.coreSched.intrptNested = k.intrptNested ∧ k.coreSched.schedLock = k.schedLock := by
  unfold Kernel.coreSched
  split_ifs
  · exact ⟨rfl, rfl, rfl, rfl, rfl⟩
  · exact ⟨rfl, rfl, rfl, rfl, rfl⟩
  · cases k.rq.preferred with
    | none => exact ⟨rfl, rfl, rfl, rfl, rfl⟩
    | some t => exact ⟨rfl, rfl, rfl, rfl, rfl⟩

theorem coreSched_patient (h : Patient k) : Patient k.coreSched := by
  refine ⟨coreSched_lists h.lists, ?_⟩
  rw [(coreSched_same k).1, (coreSched_same k).2.1]
  exact h.starved

/-- The task chosen is ready. -/
theorem coreSched_active (h : Lists k) (hn : k.intrptNested = 0) (hl : k.schedLock = 0) :
    (k.coreSched.task k.coreSched.active).state = .rdy := by
  rcases h.rq.preferred h.idle with ⟨t, ht, hready, -⟩
  have hstate : (k.task t).state = .rdy := by
    by_contra hs
    rw [Ktask.ready_eq_none hs] at hready
    cases hready
  unfold Kernel.coreSched
  rw [if_neg (by omega), if_neg (by omega), ht]
  exact hstate

theorem Settling.sched (h : Settling b k) : Sound (if b = true then k.coreSched else k) := by
  rcases coreSched_same k with ⟨htask, -, -, hn, hl⟩
  rcases h.active with hact | ⟨hb, hlock⟩
  · split_ifs
    · refine ⟨coreSched_patient h.toPatient, ?_⟩
      rw [hn, hl]
      intro hor
      by_cases hfree : k.intrptNested = 0 ∧ k.schedLock = 0
      · exact coreSched_active h.lists hfree.1 hfree.2
      · -- Nothing is chosen, and the active task goes on.
        have hsame : k.coreSched = k := by
          unfold Kernel.coreSched
          split_ifs
          · rfl
          · rfl
          · omega
        rw [hsame]
        exact hact hor
    · exact ⟨h.toPatient, hact⟩
  · rw [if_pos hb]
    refine ⟨coreSched_patient h.toPatient, ?_⟩
    rw [hn, hl]
    intro hor
    exact coreSched_active h.lists (by omega) hlock

theorem Sound.modObj [DecidableEq O] (h : Sound k) {o : O} {f : Kobj T O → Kobj T O}
    (hf : (f (k.obj o)).blkList = (k.obj o).blkList)
    (howner : (f (k.obj o)).mutexTask ≠ some k.idle)
    (hstarved : ∀ t ∈ (k.obj o).blkList, Starved (f (k.obj o)) (k.task t)) :
    Sound (k.modObj o f) :=
  ⟨h.toPatient.modObj hf howner hstarved, h.active⟩

/-- An object is gone, and no task waits for it. -/
theorem objDel_sound (h : Sound k) {o : O} (hk : Lists k') (hkeeps : Keeps k k')
    (hobj : ∀ o', o' ≠ o → ∃ l m, k'.obj o' = { k.obj o' with blkList := l, mutexList := m })
    (hf : ∀ t, (k'.task t).pendFlags = (k.task t).pendFlags)
    (ho : ∀ t, (k'.task t).pendOption = (k.task t).pendOption)
    (hnone : ∀ t, (k'.task t).waits ≠ some o) : Sound k' := by
  refine h.keeps ⟨hk, ?_⟩ hkeeps
  intro t o' ht
  have hne : o' ≠ o := by
    intro he
    rw [he] at ht
    exact hnone t ht
  exact (h.starved t o' (hkeeps.waits t o' ht)).congr (hobj o' hne) (hf t) (ho t)

variable [DecidableEq T]

/-- The active task waits for an object that has nothing for it. -/
theorem wait_settling [DecidableEq O] (h : Sound k) (hn : k.intrptNested = 0)
    (hl : k.schedLock = 0) (hidle : k.active ≠ k.idle) {o : O}
    (hstarved : Starved (k.obj o) (k.task k.active)) (ticks : Nat) :
    Settling true (k.pendToBlkObj o k.active ticks) := by
  have hs := h.active (.inl hn)
  have hlists := pendToBlkObj_lists h.lists hs hidle o ticks
  rcases pendToBlkObj_eq h.lists hs hidle o ticks with ⟨r, l, b, m, n, heq, -⟩
  have hobj : ∀ o', ∃ l m, (k.pendToBlkObj o k.active ticks).obj o'
      = { k.obj o' with blkList := l, mutexList := m } := by
    intro o'
    rw [heq]
    dsimp only
    by_cases ho : o' = o
    · subst ho
      rw [Function.update_self]
      exact ⟨_, _, rfl⟩
    · rw [Function.update_of_ne ho]
      exact ⟨_, _, rfl⟩
  refine ⟨⟨hlists, ?_⟩, .inr ⟨rfl, ?_⟩⟩
  · intro t o' ht
    by_cases hta : t = k.active
    · subst hta
      have htask : (k.pendToBlkObj o k.active ticks).task k.active
          = (k.task k.active).waiting o b m n := by
        rw [heq]
        exact Function.update_self ..
      rw [htask] at ht ⊢
      cases (Ktask.state_of_waits ht).2
      exact hstarved.congr (hobj o) rfl rfl
    · have htask : (k.pendToBlkObj o k.active ticks).task t = k.task t := by
        rw [heq]
        exact Function.update_of_ne hta ..
      rw [htask] at ht ⊢
      exact (h.starved t o' ht).congr (hobj o') rfl rfl
  · rw [heq]
    exact hl

/-- A task that changes its state, and asks for what it did if it waits on. -/
theorem Sound.moved {t : T} (h : Sound k) {r : Runqueue T} {l : List T} {x : Ktask O}
    (hl : Lists (k.moved t r l x))
    (hx : x.waits = none ∨ x.waits = (k.task t).waits ∧ x.pendFlags = (k.task t).pendFlags ∧
      x.pendOption = (k.task t).pendOption)
    (hs : (k.task t).state = .rdy → x.state = .rdy) : Sound (k.moved t r l x) := by
  refine ⟨h.toPatient.moved hl hx, ?_⟩
  intro hact
  have hold : (k.task k.active).state = .rdy := h.active hact
  have hactive : (k.moved t r l x).active = k.active := rfl
  rw [hactive]
  by_cases ht : k.active = t
  · rw [ht, Kernel.moved_self]
    exact hs (ht ▸ hold)
  · rw [Kernel.moved_of_ne _ ht]
    exact hold

/-- Fields that nothing depends on. -/
theorem Sound.adjust {t : T} (h : Sound k) {f : Ktask O → Ktask O}
    (hf : Calm (k.task t) (f (k.task t))) : Sound (k.modTask t f) := by
  have hlists : Lists (k.modTask t f) :=
    h.lists.modTask hf.toPlaced (hf.bPrio ▸ h.lists.bPrio t)
  exact h.moved hlists (.inr ⟨hf.waits, hf.pendFlags, hf.pendOption⟩) fun hs => hf.state ▸ hs

theorem created_sound {t : T} (h : Sound k) {prio : Nat} (ticks : Nat) (autorun isStatic : Bool)
    (hnew : (k.task t).state = .seed ∨ (k.task t).state = .deleted) (hprio : prio < priMax) :
    Sound (k.created t prio ticks autorun isStatic) := by
  have hlists := created_lists h.lists ticks autorun isStatic hnew hprio
  rcases created_eq h.lists ticks autorun isStatic hnew hprio with ⟨r, heq, -⟩
  rcases Frame.spawned k prio with ⟨htask, hobj, hactive, hlock, hnested, -⟩
  have hspawned : Sound (k.spawned prio) := by
    refine ⟨⟨h.lists.spawned prio, ?_⟩, ?_⟩
    · rw [htask, hobj]
      exact h.starved
    · rw [hnested, hlock, htask, hactive]
      exact h.active
  rw [heq] at hlists ⊢
  refine hspawned.moved hlists (.inl ?_) ?_
  · cases autorun with
    | false => rfl
    | true => rfl
  · rw [htask]
    intro hs
    rcases hnew with hn | hn <;> rw [hn] at hs <;> cases hs

variable [DecidableEq O]

/-- Flags are set, and those they satisfy wake up. -/
theorem eventSet_sound (h : Sound k) {o : O} (ho : (k.obj o).objType = .event) (cur : BitVec 32) :
    Sound ((k.obj o).blkList.foldl (Kernel.eventWake o cur)
      (k.modObj o fun x => { x with flags := cur })) := by
  have hlists : Lists (k.modObj o fun x => { x with flags := cur }) :=
    h.lists.modObj rfl (h.lists.owner o)
  have hstart : ∃ mask, ((k.modObj o fun x => { x with flags := cur }).obj o).flags = cur &&& mask :=
    ⟨cur, by simp [Kernel.modObj]⟩
  rcases foldl_eventWake (k.obj o).blkList (.refl hlists hstart) with ⟨hsweep, hwoken⟩
  have hkeeps := (Keeps.modObj k o fun x => { x with flags := cur }).trans hsweep.keeps
  refine h.keeps ⟨hsweep.lists, ?_⟩ hkeeps
  intro t o' ht
  have hold := hkeeps.waits t o' ht
  by_cases hoo : o' = o
  · subst hoo
    refine (starved_event ?_).mpr ?_
    · rw [hsweep.objType]
      simp [Kernel.modObj, ho]
    · -- The flags as they were set do not satisfy it, so what is left of them does not.
      have hunmet : eventMet cur (k.task t).pendFlags (k.task t).pendOption = false := by
        by_contra hmet
        have hmet' : eventMet cur (k.task t).pendFlags (k.task t).pendOption = true := by
          simpa using hmet
        rw [hwoken t ((h.lists.wait t o').mpr hold) hmet'] at ht
        cases ht
      rcases hsweep.flags with ⟨mask, hmask⟩
      rw [hmask, hsweep.pendFlags, hsweep.pendOption]
      exact eventMet_and_false hunmet
  · rcases hsweep.other o' hoo with ⟨l, m, hobj⟩
    refine (h.starved t o' hold).congr ⟨l, m, ?_⟩ (hsweep.pendFlags t) (hsweep.pendOption t)
    rw [hobj]
    simp [Kernel.modObj, Function.update_of_ne hoo]

/-- What is given is kept where no task waits, or handed over. -/
theorem gives_sound (h : Sound k) {o : O} (hg : Gives k o k') : Sound k' ∧ Keeps k k' := by
  cases hg with
  | keep hm hf hblk =>
      refine ⟨h.modObj hf.blkList (hf.mutexTask ▸ h.lists.owner o) ?_, .modObj k o _⟩
      rw [hblk]
      simp
  | @wake l f hm hl hf =>
      have hwake := wakeAll_lists h.lists hf l
      exact ⟨h.frame hwake.1 hwake.2, hwake.2.keeps⟩

/-- An object that is no mutex is deleted. -/
theorem plainDel_sound (h : Sound k) (o : O) {f : Kobj T O → Kobj T O}
    (hf : ∀ x, Restocked x (f x)) :
    Sound (((k.obj o).blkList.foldl Kernel.pendTaskRm
      (k.modObj o fun x => { x with objType := .noType })).modObj o f) := by
  have hnew : Lists (k.modObj o fun x => { x with objType := .noType }) :=
    h.lists.modObj rfl (h.lists.owner o)
  rcases foldl_pendTaskRm hnew (k.obj o).blkList with ⟨hlists, hframe, hnone⟩
  have hkeeps := ((Keeps.modObj k o fun x => { x with objType := .noType }).trans hframe.keeps).trans
    (.modObj _ o f)
  refine objDel_sound h (o := o) ?_ hkeeps ?_ hframe.pendFlags hframe.pendOption ?_
  · refine hlists.modObj (hf _).blkList ?_
    rw [(hf _).mutexTask]
    exact hlists.owner o
  · intro o' ho'
    rcases hframe.obj o' with ⟨l, m, he⟩
    refine ⟨l, m, ?_⟩
    unfold Kernel.modObj at he ⊢
    dsimp only at he ⊢
    rw [Function.update_of_ne ho'] at he ⊢
    exact he
  · intro t ht
    have hmem : t ∈ (k.obj o).blkList := (h.lists.wait t o).mpr (hkeeps.waits t o ht)
    have hgone := hnone t hmem
    change _ = none at hgone
    rw [show ((((k.obj o).blkList.foldl Kernel.pendTaskRm
      (k.modObj o fun x => { x with objType := .noType })).modObj o f).task t).waits = none
      from hgone] at ht
    cases ht

/-- What has nothing to do with mutexes keeps what holds between two calls, up to the
    choice of the next task. -/
theorem plain_sound {c : Call T O} {st : Option Kstat} (h : Sound k)
    (hcaller : k.intrptNested = 0 → Kernel.beforeStart c = true ∨ k.active ≠ k.idle)
    (he : Plain k c st b k') : Settling b k' := by
  have hrdy : k.intrptNested = 0 → (k.task k.active).state = .rdy := fun hn => h.active (.inl hn)
  cases he with
  | refused hs hn => exact h.settling _
  | hangs => exact (h.frame h.lists.hang (.hang k)).settling _
  | @sleep ticks hn hl =>
      have hidle := (hcaller hn).resolve_left (by simp [Kernel.beforeStart])
      -- The task leaves the ready list, so another has to be chosen.
      have hlists := asleep_lists h.lists (hrdy hn) hidle ticks
      rcases asleep_eq h.lists (hrdy hn) hidle ticks with ⟨r, l, b, m, n, heq, -⟩
      rw [heq] at hlists ⊢
      exact h.passes (h.toPatient.moved hlists (.inl rfl)) (.moved ..) fun _ => ⟨hl, rfl⟩
  | yield hn =>
      have hturn := headToTail_lists h.lists (hrdy hn)
      exact (h.frame hturn.1 hturn.2).settling _
  | suspend hs ht ha =>
      rcases suspended_eq h.lists hs (h.ne_idle_of_prio ht) with ⟨r, heq, hlists⟩
      rw [heq]
      exact h.passes (h.toPatient.moved hlists (.inl rfl)) (.moved ..) fun hact => ⟨ha hact, rfl⟩
  | @restate _ t n s hc hs =>
      have hlists := restated_lists h.lists (n := n) hs
      rcases hs.facts with ⟨hne, -, -, hpend⟩
      -- Suspending what is not ready moves it on no list.
      have hx : ({ k.task t with suspendCount := n, state := s } : Ktask O).waits
          = (k.task t).waits := by
        unfold Ktask.waits
        dsimp only
        rw [if_congr hpend rfl rfl]
      exact (h.moved (x := { k.task t with suspendCount := n, state := s }) hlists
        (.inr ⟨hx, rfl, rfl⟩) fun hrdy => absurd hrdy hne).settling _
  | @resume t hs =>
      rcases resumed_eq h.lists hs 0 with ⟨r, heq, hlists⟩
      rw [heq]
      exact (h.moved hlists (.inl rfl) fun _ => rfl).settling _
  | @adjust _ t f hc hf =>
      exact (h.adjust hf).settling _
  | schedLock hc hn =>
      have hl := h.lists
      refine ⟨⟨⟨hl.rq, hl.prio, hl.bPrio, hl.wait, hl.waitNodup, hl.tick, hl.tickNodup, hl.timed,
        hl.idle, hl.owner⟩, h.starved⟩, .inl ?_⟩
      intro _
      exact hrdy hn
  | @objCreate _ o f hc hnew hblk howner =>
      -- Nobody waits for an object that has no type yet.
      have hnil := h.toPatient.blkList_noType hnew
      refine (h.modObj (hblk.trans hnil.symm) ?_ ?_).settling _
      · rcases howner with hnone | ⟨hsame, -⟩
        · rw [hnone]
          simp
        · rw [hsame]
          exact h.lists.owner o
      · rw [hnil]
        simp
  | objDel hc hm hf => exact (plainDel_sound h _ hf).settling _
  | @stock _ o f hc hm hf hstock =>
      refine (h.modObj hf.blkList (hf.mutexTask ▸ h.lists.owner o) ?_).settling _
      intro t ht
      rcases hstock with hnil | hless
      -- More in stock starves nobody: there is no waiting task, or there is less than it wants.
      · rw [hnil] at ht
        cases ht
      · exact hless _ (h.toPatient.starved_of_mem ht)
  | give hc hg => exact (gives_sound h hg).1.settling _
  | eventSet ho => exact (eventSet_sound h ho _).settling _
  | @wait _ o f ticks hc hb hn hl hm hstarved hf htime =>
      have hidle := (hcaller hn).resolve_left (by simp [hb])
      have hlists : Lists (k.modTask k.active f) :=
        h.lists.modTask hf.toPlaced (hf.bPrio ▸ h.lists.bPrio _)
      have hwaits : (f (k.task k.active)).waits = none := by
        rw [hf.waits]
        exact Ktask.waits_eq_none (by simp [hrdy hn]) (by simp [hrdy hn])
      have hmod : Sound (k.modTask k.active f) :=
        h.moved hlists (.inl hwaits) fun hs => hf.state ▸ hs
      -- Who begins to wait does not find what it waits for.
      refine wait_settling hmod hn hl hidle ?_ ticks
      have hself : (k.modTask k.active f).task (k.modTask k.active f).active
          = f (k.task k.active) := Function.update_self ..
      rw [hself]
      exact hstarved

variable [Fintype T] [Fintype O]

theorem ended_settling {t : T} (h : Sound k) (ht : t ≠ k.idle)
    (ha : t = k.active → k.schedLock = 0) :
    Settling ((k.taskMutexFree t).taskEnd t).isSome (k.ended t) := by
  have hfree : Sound (k.taskMutexFree t) := by
    unfold Kernel.taskMutexFree
    exact h.keeps (mutexFreeLoop_patient _ h.toPatient _) (mutexFreeLoop_lists _ h.lists _).2
  have hkeeps : Keeps k (k.taskMutexFree t) := (mutexFreeLoop_lists _ h.lists _).2
  unfold Kernel.ended
  cases hend : (k.taskMutexFree t).taskEnd t with
  | none => exact hfree.settling false
  | some k' =>
      have hpatient := taskEnd_patient hfree.toPatient (hkeeps.idle ▸ ht) hend
      refine hfree.passes hpatient.1 hpatient.2 ?_
      intro hact
      rw [hkeeps.active] at hact
      rw [hkeeps.schedLock]
      exact ⟨ha hact, rfl⟩

/-- A mutex is gone, and so is what its owner owed it. -/
theorem mutexGone_lists (h : Lists k) (o : O) :
    Lists (k.mutexGone o) ∧
      Frame (k.modObj o fun x => { x with objType := .noType }) (k.mutexGone o) := by
  have hlists : Lists (k.modObj o fun x => { x with objType := .noType }) :=
    h.modObj rfl (h.owner o)
  unfold Kernel.mutexGone
  dsimp only
  cases howner : ((k.modObj o fun x => { x with objType := .noType }).obj o).mutexTask with
  | none => exact ⟨hlists, .refl _⟩
  | some w =>
      refine mutexRelease_lists hlists ?_ (some o)
      intro he
      rw [he] at howner
      exact hlists.owner o howner

theorem mutexDel_sound (h : Sound k) (o : O) :
    Sound (((k.mutexGone o).obj o).blkList.foldl Kernel.pendTaskRm (k.mutexGone o)) := by
  rcases mutexGone_lists h.lists o with ⟨hgone, hframe⟩
  rcases foldl_pendTaskRm hgone ((k.mutexGone o).obj o).blkList with ⟨hlists, hframe', hnone⟩
  have hall := hframe.trans hframe'
  refine objDel_sound h (o := o) hlists ((Keeps.modObj k o _).trans hall.keeps) ?_ hall.pendFlags
    hall.pendOption ?_
  · intro o' ho'
    rcases hall.obj o' with ⟨l, m, he⟩
    refine ⟨l, m, ?_⟩
    rw [he]
    simp [Kernel.modObj, Function.update_of_ne ho']
  · intro t ht
    have hmem : t ∈ ((k.mutexGone o).obj o).blkList := (hgone.wait t o).mpr (hframe'.waits t o ht)
    rw [hnone t hmem] at ht
    cases ht

/-- The last unlock leaves the mutex to the first that waits, or to none. -/
theorem unlocked_sound (h : Sound k) (hidle : k.active ≠ k.idle) (o : O) : Sound (k.unlocked o) := by
  have hzero : Sound (k.modObj o fun x => { x with ownerNested := 0 }) := by
    refine h.modObj rfl (h.lists.owner o) ?_
    intro t ht
    exact h.toPatient.starved_of_mem ht
  rcases mutexRelease_lists hzero.lists (t := k.active) hidle (some o) with ⟨hlists, hframe⟩
  have hrel := hzero.frame hlists hframe
  unfold Kernel.unlocked
  dsimp only
  cases hblk : (((k.modObj o fun x => { x with ownerNested := 0 }).mutexRelease k.active
      (some o)).obj o).blkList with
  | nil =>
      refine hrel.modObj rfl (by simp) ?_
      rw [hblk]
      simp
  | cons u rest =>
      have hmem := List.mem_cons_self (a := u) (l := rest)
      rw [← hblk] at hmem
      rcases pendTaskWakeup_lists hlists u with ⟨hwake, hframe'⟩
      have hne := hlists.ne_idle_of_mem hmem
      have hgive := giveMutex_patient (hrel.frame hwake hframe').toPatient (hframe'.idle ▸ hne) o
      have hsound := (hrel.frame hwake hframe').keeps hgive (giveMutex_keeps _ o u)
      refine hsound.modObj rfl (hsound.lists.owner o) ?_
      intro t ht
      exact hsound.toPatient.starved_of_mem ht

theorem priChange_sound {t : T} (h : Sound k) (ht : t ≠ k.idle) {pri limit : Nat}
    (hpri : pri < idlePri) (hlimit : k.mutexPriLimit t pri = some limit) :
    Sound ((k.modTask t fun x => { x with bPrio := pri }).taskPriChange t limit).2 := by
  have hlt : pri < priMax := by
    unfold idlePri at hpri
    omega
  have hlists : Lists (k.modTask t fun x => { x with bPrio := pri }) :=
    h.lists.modTask ⟨rfl, rfl, rfl, rfl⟩ hlt
  have hmod : Sound (k.modTask t fun x => { x with bPrio := pri }) :=
    h.moved hlists (.inr ⟨rfl, rfl, rfl⟩) id
  have hle : limit ≤ pri := by
    unfold Kernel.mutexPriLimit at hlimit
    rw [Option.map_eq_some_iff] at hlimit
    rcases hlimit with ⟨l, -, rfl⟩
    exact lookPri_le k l pri
  have hrepri := priChangeLoop_repri (Fintype.card T * priMax + 1) _ t limit hlists ht
    (hle.trans_lt hlt)
  exact hmod.frame hrepri.2 hrepri.frame

/-- The active task waits for a mutex, and the priority of the owner follows. -/
theorem lockWait_settling (h : Sound k) (hn : k.intrptNested = 0) (hl : k.schedLock = 0)
    (hidle : k.active ≠ k.idle) {o : O} {w : T} (hm : (k.obj o).objType = .mutex)
    (ho : (k.obj o).mutexTask = some w) (ticks : Nat) : Settling true (k.lockWait o w ticks) := by
  have hw : w ≠ k.idle := by
    intro he
    rw [he] at ho
    exact h.lists.owner o ho
  have hrepri : Repri k (if (k.task k.active).prio < (k.task w).prio then
      (k.taskPriChange w (k.task k.active).prio).2 else k) := by
    split_ifs
    · exact priChangeLoop_repri _ k w _ h.lists hw (h.lists.prio _)
    · exact .refl h.lists
  unfold Kernel.lockWait
  generalize (if (k.task k.active).prio < (k.task w).prio then
    (k.taskPriChange w (k.task k.active).prio).2 else k) = k1 at hrepri
  have hframe := hrepri.frame
  have hsound := h.frame hrepri.2 hframe
  rw [← hframe.active]
  refine wait_settling hsound (hframe.intrptNested.trans hn) (hframe.schedLock.trans hl) ?_ ?_ ticks
  · rw [hframe.active, hframe.idle]
    exact hidle
  · refine (starved_mutex ?_).mpr ?_
    · rw [hframe.objType]
      exact hm
    · rw [hframe.mutexTask, ho]
      simp

/-- And so does every effect. -/
theorem effect_sound {c : Call T O} {st : Option Kstat} (h : Sound k)
    (hcaller : k.intrptNested = 0 → Kernel.beforeStart c = true ∨ k.active ≠ k.idle)
    (he : Effect k c st b k') : Settling b k' := by
  cases he with
  | plain hp => exact plain_sound h hcaller hp
  | create hnew hprio => exact (created_sound h _ _ _ hnew hprio).settling _
  | @priChange t pri limit ht hpri hs hlimit =>
      exact (priChange_sound h (h.ne_idle_of_prio (by omega)) hpri hlimit).settling _
  | taskDel hn ht ha hd => exact ended_settling h (h.ne_idle_of_prio ht) ha
  | @taskDynDel task g hn ht ha hs hd hg =>
      rcases gives_sound h hg with ⟨hsound, hkeeps⟩
      refine (ended_settling hsound ?_ ?_).sooner
      · rw [hkeeps.idle]
        exact h.ne_idle_of_prio ht
      · rw [hkeeps.active, hkeeps.schedLock]
        exact ha
  | mutexDel hm => exact (mutexDel_sound h _).settling _
  | @lockNested o _ hn hm ho hov =>
      exact (h.modObj rfl (h.lists.owner o) fun t ht => h.toPatient.starved_of_mem ht).settling _
  | @lockFree o _ hn hm ho =>
      have hidle := (hcaller hn).resolve_left (by simp [Kernel.beforeStart])
      have hgive := h.keeps (giveMutex_patient h.toPatient hidle o) (giveMutex_keeps k o k.active)
      refine (hgive.modObj rfl (hgive.lists.owner o) ?_).settling _
      intro t ht
      exact hgive.toPatient.starved_of_mem ht
  | lockWait hn hl hm ho hw =>
      have hidle := (hcaller hn).resolve_left (by simp [Kernel.beforeStart])
      exact lockWait_settling h hn hl hidle hm ho _
  | @unlockNested o _ hn hm ho hnest hpos =>
      exact (h.modObj rfl (h.lists.owner o) fun t ht => h.toPatient.starved_of_mem ht).settling _
  | unlock hn hm ho hnest =>
      have hidle := (hcaller hn).resolve_left (by simp [Kernel.beforeStart])
      exact (unlocked_sound h hidle _).settling _

end Effects

/-! ## Every step -/

section Turns

variable {T O : Type} {k : Kernel T O}

/-- Another count of interrupts, or the start, moves no task. -/
theorem Patient.counted (h : Patient k) (n : Nat) (b : Bool) :
    Patient { k with intrptNested := n, running := b } := by
  have hl := h.lists
  exact ⟨⟨hl.rq, hl.prio, hl.bPrio, hl.wait, hl.waitNodup, hl.tick, hl.tickNodup, hl.timed, hl.idle,
    hl.owner⟩, h.starved⟩

/-- The tasks of one priority take turns. -/
theorem timeSliceUpdate_sound [DecidableEq T] (h : Sound k) : Sound k.timeSliceUpdate := by
  have hslice : ∀ t, Sound (k.modTask t fun x =>
      { x with timeSlice := (k.task t).timeSlice - 1 }) :=
    fun t => h.adjust ⟨⟨⟨rfl, rfl, rfl, rfl⟩, rfl, rfl, rfl⟩, rfl, rfl, rfl⟩
  unfold Kernel.timeSliceUpdate
  cases hl : k.rq.list (k.task k.active).prio with
  | nil => exact h
  | cons t rest =>
      dsimp only
      split_ifs
      · exact h
      · exact h
      · exact hslice t
      · have hmem : t ∈ k.rq.list (k.task k.active).prio := by
          rw [hl]
          exact List.mem_cons_self
        have hready := (h.lists.rq.mem t _).mp hmem
        have hrdy : (k.task t).state = .rdy := by
          by_contra hs
          rw [Ktask.ready_eq_none hs] at hready
          cases hready
        have hrdy' : ((k.modTask t fun x =>
            { x with timeSlice := (k.task t).timeSlice - 1 }).task t).state = .rdy := by
          simp [Kernel.modTask, hrdy]
        have hturn := headToTail_lists (hslice t).lists hrdy'
        have hsound := (hslice t).frame hturn.1 hturn.2
        exact hsound.adjust ⟨⟨⟨rfl, rfl, rfl, rfl⟩, rfl, rfl, rfl⟩, rfl, rfl, rfl⟩

end Turns

section Steps

variable {T O : Type} [DecidableEq T] [DecidableEq O] [Fintype T] [Fintype O] {k k' : Kernel T O}

/-- What a step does. -/
inductive Stepped (k : Kernel T O) : KernelAct T O → Kernel T O → Prop where
  | call {c : Call T O} (hc : k.permits c = true)
      (hcaller : k.intrptNested = 0 → Kernel.beforeStart c = true ∨ k.active ≠ k.idle) :
      Stepped k (.call c) (k.call c).2
  | start : Stepped k .start { k with running := true }.coreSched
  | tick : Stepped k .tick (k.tickListUpdate 1).timeSliceUpdate
  | intrptEnter : Stepped k .intrptEnter { k with intrptNested := k.intrptNested + 1 }
  | intrptExit (hn : k.intrptNested > 0) :
      Stepped k .intrptExit { k with intrptNested := k.intrptNested - 1 }.coreSched

theorem step_stepped {a : KernelAct T O} (h : k.step a = some k') :
    Stepped k a k' ∧ k'.stuck = false := by
  unfold Kernel.step at h
  rcases Option.bind_eq_some_iff.mp h with ⟨k1, hk1, hk'⟩
  -- A step into a stuck state is no step.
  have hstuck : k1 = k' ∧ k1.stuck = false := by
    by_cases hs : k1.stuck = true
    · rw [if_pos hs] at hk'
      cases hk'
    · rw [if_neg hs] at hk'
      exact ⟨Option.some.inj hk', by simpa using hs⟩
  rcases hstuck with ⟨rfl, hfalse⟩
  refine ⟨?_, hfalse⟩
  cases a with
  | call c =>
      by_cases hperm : k.permits c = true ∧
          (if k.running = true then k.active ≠ k.idle ∨ k.intrptNested > 0
            else Kernel.beforeStart c = true)
      -- The callers of the interface are tasks, handlers and the code before the start.
      · dsimp only at hk1
        rw [if_pos hperm] at hk1
        rw [← Option.some.inj hk1]
        refine .call hperm.1 ?_
        intro hn
        have hwho := hperm.2
        by_cases hrun : k.running = true
        · rw [if_pos hrun] at hwho
          exact .inr (hwho.resolve_right (by omega))
        · rw [if_neg hrun] at hwho
          exact .inl hwho
      · dsimp only at hk1
        rw [if_neg hperm] at hk1
        cases hk1
  | start =>
      dsimp only at hk1
      split_ifs at hk1
      rw [← Option.some.inj hk1]
      exact .start
  | tick =>
      dsimp only at hk1
      split_ifs at hk1
      rw [← Option.some.inj hk1]
      exact .tick
  | intrptEnter =>
      dsimp only at hk1
      split_ifs at hk1
      rw [← Option.some.inj hk1]
      exact .intrptEnter
  | intrptExit =>
      dsimp only at hk1
      split_ifs at hk1 with hn
      rw [← Option.some.inj hk1]
      exact .intrptExit hn

theorem call_sound (h : Sound k) {c : Call T O} (hc : k.permits c = true)
    (hcaller : k.intrptNested = 0 → Kernel.beforeStart c = true ∨ k.active ≠ k.idle) :
    Sound (k.call c).2 := by
  rcases call_effect k c hc with ⟨b, k', heff, heq⟩
  rw [heq]
  exact (effect_sound h hcaller heff).sched

/-- Every step keeps what holds between two calls. -/
theorem step_sound (h : Sound k) {a : KernelAct T O} (hstep : k.step a = some k') : Sound k' := by
  cases (step_stepped hstep).1 with
  | call hc hcaller => exact call_sound h hc hcaller
  | start =>
      have hrun : Sound { k with running := true } :=
        ⟨h.toPatient.counted k.intrptNested true, h.active⟩
      exact (hrun.settling true).sched
  | tick =>
      have htick := tickListUpdate_lists h.lists 1
      exact timeSliceUpdate_sound (h.frame htick.1 htick.2)
  | intrptEnter =>
      refine ⟨h.toPatient.counted (k.intrptNested + 1) k.running, ?_⟩
      intro hact
      exact h.active (.inr (hact.resolve_left (by simp)))
  | intrptExit hn =>
      have hsettling : Settling true { k with intrptNested := k.intrptNested - 1 } := by
        refine ⟨h.toPatient.counted (k.intrptNested - 1) k.running, ?_⟩
        by_cases hl : k.schedLock = 0
        · exact .inr ⟨rfl, hl⟩
        · exact .inl fun _ => h.active (.inr (Nat.pos_of_ne_zero hl))
      exact hsettling.sched

omit [Fintype T] [Fintype O] in
/-- The kernel starts with its idle task ready and no other. -/
theorem init_sound (idle : T) (resSem : O) : Sound (Kernel.init idle resSem : Kernel T O) := by
  have hself : (Kernel.init idle resSem : Kernel T O).task idle
      = Kernel.freshTask idlePri 0 true true := by
    unfold Kernel.init
    dsimp only
    rw [Function.update_self]
  have hidle : idlePri < priMax := by decide
  have hzero : 0 < priMax := by decide
  have hother : ∀ t, t ≠ idle → (Kernel.init idle resSem : Kernel T O).task t
      = { Kernel.freshTask 0 0 true true with state := .seed } := by
    intro t ht
    unfold Kernel.init
    dsimp only
    rw [Function.update_of_ne ht]
  have hobj : ∀ o, ((Kernel.init idle resSem : Kernel T O).obj o).blkList = [] ∧
      ((Kernel.init idle resSem : Kernel T O).obj o).mutexTask = none := by
    intro o
    unfold Kernel.init
    dsimp only
    by_cases ho : o = resSem
    · subst ho
      rw [Function.update_self]
      exact ⟨rfl, rfl⟩
    · rw [Function.update_of_ne ho]
      exact ⟨rfl, rfl⟩
  -- No task waits and no object has a list.
  have hwaits : ∀ t, ((Kernel.init idle resSem : Kernel T O).task t).waits = none := by
    intro t
    by_cases ht : t = idle
    · rw [ht, hself]
      rfl
    · rw [hother t ht]
      rfl
  -- The idle task is the only one that is ready.
  have hready : (fun t => ((Kernel.init idle resSem : Kernel T O).task t).ready)
      = Function.update (fun _ => none) idle (some idlePri) := by
    funext t
    by_cases ht : t = idle
    · rw [ht, hself, Function.update_self]
      rfl
    · rw [hother t ht, Function.update_of_ne ht]
      rfl
  have hprio : ∀ t, ((Kernel.init idle resSem : Kernel T O).task t).prio < priMax ∧
      ((Kernel.init idle resSem : Kernel T O).task t).bPrio < priMax ∧
      ((Kernel.init idle resSem : Kernel T O).task t).onTick = false := by
    intro t
    by_cases ht : t = idle
    · rw [ht, hself]
      exact ⟨hidle, hidle, rfl⟩
    · rw [hother t ht]
      exact ⟨hzero, hzero, rfl⟩
  refine ⟨⟨⟨?_, fun t => (hprio t).1, fun t => (hprio t).2.1, ?_, ?_, ?_, List.nodup_nil, ?_, ?_, ?_⟩,
    ?_⟩, ?_⟩
  · rw [hready]
    exact Runqueue.addTail_holds Runqueue.init_holds rfl (by decide)
  · intro t o
    rw [(hobj o).1, hwaits t]
    simp
  · intro o
    rw [(hobj o).1]
    exact List.nodup_nil
  · intro t
    rw [(hprio t).2.2]
    simp [Kernel.init]
  · intro t ht
    rw [(hprio t).2.2] at ht
    cases ht
  · exact congrFun hready idle |>.trans (Function.update_self ..)
  · intro m
    rw [(hobj m).2]
    simp
  · intro t o ht
    rw [hwaits t] at ht
    cases ht
  · intro _
    exact congrArg Ktask.state hself

/-- What holds between two calls holds after every run. -/
theorem run_sound {idle : T} {resSem : O} {as : List (KernelAct T O)}
    (h : Run.run Kernel.step (Kernel.init idle resSem) as = some k) : Sound k := by
  refine Run.run_inv (P := fun _ _ => True) ?_ as _ _ (init_sound idle resSem) ?_ h
  · intro k a k' hk _ hstep
    exact step_sound hk hstep
  · exact Run.along_of_forall (fun _ _ => trivial) as _

/-- Nothing follows a kernel that is stuck. -/
theorem run_not_stuck {idle : T} {resSem : O} {as : List (KernelAct T O)}
    (h : Run.run Kernel.step (Kernel.init idle resSem) as = some k) : k.stuck = false := by
  have hstep : ∀ (k : Kernel T O) a k', k.stuck = false → True → k.step a = some k' →
      k'.stuck = false := fun _ _ _ _ _ hstep => (step_stepped hstep).2
  exact Run.run_inv (P := fun _ _ => True) hstep as _ _ rfl
    (Run.along_of_forall (fun _ _ => trivial) as _) h

/-- Every ready task is on the list of its priority and nowhere else, the bits are
    those of the lists that are not empty, and the task that is taken next is ready
    and has the highest priority of those that are. -/
theorem runqueue_exact (idle : T) (resSem : O) (as : List (KernelAct T O)) (k : Kernel T O)
    (h : Run.run Kernel.step (Kernel.init idle resSem) as = some k) :
    (∀ t p, t ∈ k.rq.list p ↔ (k.task t).state = .rdy ∧ (k.task t).prio = p) ∧
      (∀ p, (k.rq.list p).Nodup) ∧
      (∀ p < priMax, hasBit k.rq.taskBitMap p = true ↔ k.rq.list p ≠ []) ∧
      IsLeast { p | k.rq.list p ≠ [] } k.rq.highestPri ∧
      ∃ t, k.rq.preferred = some t ∧ (k.task t).state = .rdy ∧
        (k.task t).prio = k.rq.highestPri ∧
        ∀ u, (k.task u).state = .rdy → (k.task t).prio ≤ (k.task u).prio := by
  have hl := (run_sound h).lists
  have hready : ∀ t p, (k.task t).ready = some p ↔ (k.task t).state = .rdy ∧ (k.task t).prio = p := by
    intro t p
    unfold Ktask.ready
    by_cases hs : (k.task t).state = .rdy
    · rw [if_pos hs]
      simp [hs]
    · rw [if_neg hs]
      simp [hs]
  rcases hl.rq.preferred hl.idle with ⟨t, ht, htop, hleast⟩
  rw [hready] at htop
  refine ⟨?_, hl.rq.nodup, ?_, ⟨?_, ?_⟩, t, ht, htop.1, htop.2, ?_⟩
  · intro t p
    rw [hl.rq.mem, hready]
  · intro p hp
    refine hl.rq.bit p (hp.trans ?_)
    decide
  · exact List.ne_nil_of_mem ((hl.rq.mem t _).mpr ((hready t _).mpr htop))
  · intro p hp
    exact hl.rq.least p hp
  · intro u hu
    rw [htop.2]
    exact hleast u _ ((hready u _).mpr ⟨hu, rfl⟩)

/-- Two tasks, of which the first waits for a semaphore that is then given twice. -/
def semRun : List (KernelAct (Fin 3) (Fin 2)) :=
  [.call (.taskCreate 1 10 0 true true), .call (.taskCreate 2 20 0 true true),
    .call (.semCreate 1 0 true), .start, .call (.semTake 1 5), .tick, .call (.semGive 1 false),
    .call (.semGive 1 false)]

theorem runqueue_exact_semRun :
    ∃ k, Run.run Kernel.step (Kernel.init 0 0) semRun = some k ∧
      ∀ t p, t ∈ k.rq.list p ↔ (k.task t).state = .rdy ∧ (k.task t).prio = p := by
  have hrun : (Run.run Kernel.step (Kernel.init 0 0) semRun).isSome = true := by decide +kernel
  rcases Option.isSome_iff_exists.mp hrun with ⟨k, hk⟩
  exact ⟨k, hk, (runqueue_exact 0 0 semRun k hk).1⟩

/-- A semaphore that can be taken, a queue that holds messages and a mutex without an
    owner have no task that waits, and no task waits for an event whose flags satisfy
    it. -/
theorem no_lost_wakeup (idle : T) (resSem : O) (as : List (KernelAct T O)) (k : Kernel T O)
    (h : Run.run Kernel.step (Kernel.init idle resSem) as = some k) (o : O) :
    ((k.obj o).objType = .sem → (k.obj o).count > 0 → (k.obj o).blkList = []) ∧
      ((k.obj o).objType = .queue → (k.obj o).curNum > 0 → (k.obj o).blkList = []) ∧
      ((k.obj o).objType = .bufQueue → (k.obj o).ringbuf.isEmpty = false →
        (k.obj o).blkList = []) ∧
      ((k.obj o).objType = .mutex → (k.obj o).mutexTask = none → (k.obj o).blkList = []) ∧
      ((k.obj o).objType = .event → ∀ t ∈ (k.obj o).blkList,
        eventMet (k.obj o).flags (k.task t).pendFlags (k.task t).pendOption = false) ∧
      (∀ t, t ∈ (k.obj o).blkList ↔
        ((k.task t).state = .pend ∨ (k.task t).state = .pendSuspended) ∧
          (k.task t).blkObj = some o) := by
  have hsound := run_sound h
  -- A list with a task on it says that the object has nothing for that task.
  have hnil : (∀ t ∈ (k.obj o).blkList, ¬Starved (k.obj o) (k.task t)) → (k.obj o).blkList = [] := by
    intro hfed
    rw [List.eq_nil_iff_forall_not_mem]
    intro t ht
    exact hfed t ht (hsound.toPatient.starved_of_mem ht)
  refine ⟨?_, ?_, ?_, ?_, ?_, ?_⟩
  · intro ho hcount
    refine hnil fun t _ hst => ?_
    rw [starved_sem ho] at hst
    omega
  · intro ho hnum
    refine hnil fun t _ hst => ?_
    rw [starved_queue ho] at hst
    omega
  · intro ho hempty
    refine hnil fun t _ hst => ?_
    rw [starved_bufQueue ho, hempty] at hst
    cases hst
  · intro ho hfree
    exact hnil fun t _ hst => (starved_mutex ho).mp hst hfree
  · intro ho t ht
    exact (starved_event ho).mp (hsound.toPatient.starved_of_mem ht)
  · intro t
    rw [hsound.lists.wait t o]
    constructor
    · exact Ktask.state_of_waits
    · intro hw
      unfold Ktask.waits
      rw [if_pos hw.1]
      exact hw.2

theorem no_lost_wakeup_semRun :
    ∃ k, Run.run Kernel.step (Kernel.init 0 0) semRun = some k ∧ (k.obj 1).count = 1 ∧
      (k.obj 1).blkList = [] := by
  have hrun : (Run.run Kernel.step (Kernel.init 0 0) semRun).map
      (fun k => ((k.obj 1).objType, (k.obj 1).count)) = some (.sem, 1) := by decide +kernel
  rcases Option.map_eq_some_iff.mp hrun with ⟨k, hk, hobj⟩
  rw [Prod.mk.injEq] at hobj
  refine ⟨k, hk, hobj.2, (no_lost_wakeup 0 0 semRun k hk 1).1 hobj.1 ?_⟩
  rw [hobj.2]
  exact Nat.one_pos

end Steps

end Rhino

end Wujian100
