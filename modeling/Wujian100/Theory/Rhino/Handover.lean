import Wujian100.Theory.Rhino.Inherit

/-!
# A Mutex Changes Hands

A mutex leaves the chain of its owner, and the first task that waits for it gets it,
or nobody. Those that still wait for it are not more urgent than the new owner, so
its priority is as it should be.

## Theorems

* `giveMutex_inherits`: A mutex that nobody owned has an owner.
* `freeMutex_inherits`: A mutex goes to the first task that waits for it.
* `mutexFreeLoop_inherits`: All mutexes of a task do.
* `unlinkMutex_chained`: A mutex leaves the chain of its owner.
* `unlocked_inherits`, `mutexGone_inherits`: A mutex is unlocked, or deleted.
-/

namespace Wujian100

namespace Rhino

open Inherit

section Left

/-- A task that waits is there. -/
theorem Kernel.live_of_waits {T O : Type} (k : Kernel T O) {t : T} {o : O}
    (h : (k.task t).waits = some o) : k.live t := by
  unfold Kernel.live Ktask.live
  rcases (Ktask.state_of_waits h).1 with hs | hs
  · simp [hs]
  · simp [hs]

/-- An object changes in something else than its owner. -/
theorem owns_modObj {T O : Type} [DecidableEq O] {k : Kernel T O} {o : O} {f : Kobj T O → Kobj T O}
    (hf : (f (k.obj o)).objType = (k.obj o).objType)
    (hf' : (f (k.obj o)).mutexTask = (k.obj o).mutexTask) (m : O) (v : T) :
    (k.modObj o f).owns m v ↔ k.owns m v := by
  unfold Kernel.owns Kernel.modObj
  dsimp only
  by_cases hm : m = o
  · rw [hm, Function.update_self, hf, hf']
  · rw [Function.update_of_ne hm]

variable {T O : Type} [DecidableEq T] {k : Kernel T O} {own : O → T → Prop} {S : T → Prop} {u : T}

/-- A task that waits for nothing that is owned leaves the lists. -/
theorem Inherits.left (h : Inherits own S k) {r : Runqueue T} {x : Ktask O}
    (hseed : x.state ≠ .seed) (hlist : x.mutexList = (k.task u).mutexList)
    (hprio : x.prio = (k.task u).prio) (hbPrio : x.bPrio = (k.task u).bPrio) (hlost : ¬x.lost)
    (hnone : x.waits = none) (hw : ∀ m t, own m t → (k.task u).waits ≠ some m) :
    Inherits own S (k.left u r x) := by
  have hself : (k.left u r x).task u = x := k.left_self u r x
  have hother : ∀ v, v ≠ u → (k.left u r x).task v = k.task v := fun v hv => k.left_of_ne hv r x
  have hprios : ∀ v, ((k.left u r x).task v).prio = (k.task v).prio := by
    intro v
    by_cases hv : v = u
    · rw [hv, hself]
      exact hprio
    · rw [hother v hv]
  refine h.transfer ?_ ?_ (fun _ _ _ => rfl) ?_ ?_ hprios ?_
    (h.sorted.sublist hprios fun o => List.erase_sublist)
  · intro v
    by_cases hv : v = u
    · rw [hv, hself]
      exact fun he => absurd he hseed
    · rw [hother v hv]
      exact id
  · intro v
    by_cases hv : v = u
    · rw [hv, hself]
      exact hlist
    · rw [hother v hv]
  · intro v m t ho
    by_cases hv : v = u
    · rw [hv, hself, hnone]
      exact iff_of_false (by simp) (hw m t ho)
    · rw [hother v hv]
  · intro v
    by_cases hv : v = u
    · rw [hv, hself]
      exact fun he => absurd he hlost
    · rw [hother v hv]
      exact id
  · intro v
    by_cases hv : v = u
    · rw [hv, hself]
      exact hbPrio
    · rw [hother v hv]

/-- Only the task that wakes up changes, and it is still there. -/
theorem pendTaskWakeup_woken {o : O} (hl : Lists k) (hu : (k.task u).waits = some o) :
    ∃ r s, k.pendTaskWakeup u = k.left u r ((k.task u).woken s .finish) ∧
      (s = .rdy ∨ s = .suspended) := by
  rcases (Ktask.state_of_waits hu).1 with hs | hs
  · rcases pendEnd_pend hl hs .finish with ⟨r, heq, -⟩
    exact ⟨r, .rdy, heq, .inl rfl⟩
  · exact ⟨k.rq, .suspended, pendEnd_pendSuspended hl hs .finish, .inr rfl⟩

/-- A task that waits wakes up, where what it waits for is not owned. -/
theorem pendTaskWakeup_inherits {o : O} (hl : Lists k) (h : Inherits own S k)
    (hu : (k.task u).waits = some o) (ho : ∀ t, ¬own o t) :
    Inherits own S (k.pendTaskWakeup u) := by
  have hw : ∀ m t, own m t → (k.task u).waits ≠ some m := by
    intro m t hown he
    rw [hu, Option.some.injEq] at he
    rw [← he] at hown
    exact ho t hown
  rcases pendTaskWakeup_woken hl hu with ⟨r, s, heq, hs⟩
  have hstate : ((k.task u).woken s .finish).state = s := rfl
  rw [heq]
  refine h.left ?_ rfl rfl rfl ?_ ?_ hw
  · rw [hstate]
    rcases hs with rfl | rfl
    · simp
    · simp
  · intro hlost
    rcases hs with rfl | rfl
    · exact absurd hlost.1 (by simp [hstate])
    · exact absurd hlost.1 (by simp [hstate])
  · rcases hs with rfl | rfl
    · rfl
    · rfl

end Left

/-! ## A new owner -/

section Give

variable {T O : Type} [DecidableEq T] [DecidableEq O] {k : Kernel T O} {own : O → T → Prop}
  {S : T → Prop} {o : O} {u : T}

theorem giveMutex_self (k : Kernel T O) (o : O) (u : T) :
    (k.giveMutex o u).task u = { k.task u with mutexList := some o } :=
  Function.update_self ..

theorem giveMutex_of_ne (k : Kernel T O) (o : O) {u v : T} (hv : v ≠ u) :
    (k.giveMutex o u).task v = k.task v :=
  Function.update_of_ne hv ..

theorem giveMutex_nextMutex (k : Kernel T O) (o : O) (u : T) :
    (k.giveMutex o u).nextMutex = Function.update k.nextMutex o (k.task u).mutexList := by
  funext m
  unfold Kernel.nextMutex Kernel.giveMutex Kernel.modTask Kernel.modObj
  dsimp only
  by_cases hm : m = o
  · rw [hm, Function.update_self, Function.update_self]
  · rw [Function.update_of_ne hm, Function.update_of_ne hm]

theorem giveMutex_blkList (k : Kernel T O) (o : O) (u : T) (m : O) :
    ((k.giveMutex o u).obj m).blkList = (k.obj m).blkList := by
  unfold Kernel.giveMutex Kernel.modTask Kernel.modObj
  dsimp only
  by_cases hm : m = o
  · rw [hm, Function.update_self]
  · rw [Function.update_of_ne hm]

theorem giveMutex_objType (k : Kernel T O) (o : O) (u : T) (m : O) :
    ((k.giveMutex o u).obj m).objType = (k.obj m).objType := by
  unfold Kernel.giveMutex Kernel.modTask Kernel.modObj
  dsimp only
  by_cases hm : m = o
  · rw [hm, Function.update_self]
  · rw [Function.update_of_ne hm]

theorem giveMutex_ownerNested (k : Kernel T O) (o : O) (u : T) (m : O) :
    ((k.giveMutex o u).obj m).ownerNested = (k.obj m).ownerNested := by
  unfold Kernel.giveMutex Kernel.modTask Kernel.modObj
  dsimp only
  by_cases hm : m = o
  · rw [hm, Function.update_self]
  · rw [Function.update_of_ne hm]

/-- All but the chain of a new owner is as it was. -/
theorem giveMutex_facts (k : Kernel T O) (o : O) (u v : T) :
    ((k.giveMutex o u).task v).state = (k.task v).state ∧
      ((k.giveMutex o u).task v).waits = (k.task v).waits ∧
      ((k.giveMutex o u).task v).blkObj = (k.task v).blkObj ∧
      ((k.giveMutex o u).task v).prio = (k.task v).prio ∧
      ((k.giveMutex o u).task v).bPrio = (k.task v).bPrio := by
  by_cases hv : v = u
  · rw [hv, giveMutex_self]
    exact ⟨rfl, rfl, rfl, rfl, rfl⟩
  · rw [giveMutex_of_ne k o hv]
    exact ⟨rfl, rfl, rfl, rfl, rfl⟩

theorem giveMutex_owns (k : Kernel T O) (o : O) (u : T) (m : O) (t : T) :
    (k.giveMutex o u).owns m t ↔
      (m ≠ o ∧ k.owns m t) ∨ (m = o ∧ (k.obj o).objType = .mutex ∧ t = u) := by
  unfold Kernel.owns Kernel.giveMutex Kernel.modTask Kernel.modObj
  dsimp only
  by_cases hm : m = o
  · rw [hm, Function.update_self]
    simp [eq_comm]
  · rw [Function.update_of_ne hm]
    simp [hm]

/-- A mutex that nobody owned has an owner, and those that wait for it are not more
    urgent. -/
theorem giveMutex_inherits (h : Inherits own S k) (hS : S u) (hu : (k.task u).state ≠ .seed)
    (ho : ∀ t, ¬own o t)
    (hself : (k.task u).waits ≠ some o)
    (hfirst : ∀ v, (k.task v).waits = some o → (k.task u).prio ≤ (k.task v).prio) :
    Inherits (fun m t => own m t ∨ m = o ∧ t = u) S (k.giveMutex o u) := by
  have hwaits : ∀ v, ((k.giveMutex o u).task v).waits = (k.task v).waits :=
    fun v => (giveMutex_facts k o u v).2.1
  have hprio : ∀ v, ((k.giveMutex o u).task v).prio = (k.task v).prio :=
    fun v => (giveMutex_facts k o u v).2.2.2.1
  have hprios : (k.giveMutex o u).prios = k.prios := funext hprio
  have hbPrios : (k.giveMutex o u).bPrios = k.bPrios :=
    funext fun v => (giveMutex_facts k o u v).2.2.2.2
  refine ⟨⟨?_, ?_, ?_, ?_, ?_, ?_⟩, ?_, ?_⟩
  · intro t hlost
    refine h.lost t ?_
    unfold Ktask.lost at hlost ⊢
    rw [(giveMutex_facts k o u t).1, (giveMutex_facts k o u t).2.2.1] at hlost
    exact hlost
  · intro t ht
    rw [(giveMutex_facts k o u t).1] at ht
    have htu : t ≠ u := by
      intro he
      rw [he] at ht
      exact hu ht
    rw [giveMutex_of_ne k o htu]
    exact h.seed t ht
  · rintro m t (hown | ⟨-, rfl⟩)
    · exact h.owner m t hown
    · exact hS
  -- It had no owner, so it has one now.
  · rintro m t t' (hown | ⟨hm, ht⟩) (hown' | ⟨hm', ht'⟩)
    · exact h.unique m t t' hown hown'
    · rw [hm'] at hown
      exact absurd hown (ho t)
    · rw [hm] at hown'
      exact absurd hown' (ho t')
    · rw [ht, ht']
  · rintro t m hw (hown | ⟨hm, ht⟩)
    · rw [hwaits] at hw
      exact h.self t m hw hown
    · rw [hwaits, hm, ht] at hw
      exact hself hw
  -- The mutex goes to the front of the new owner's chain; it was on no other.
  · intro t ht
    rcases h.chain t ht with ⟨l, hlinked, hmem⟩
    have hnot : o ∉ l := fun hm => ho t ((hmem o).mp hm)
    rw [giveMutex_nextMutex]
    by_cases htu : t = u
    · subst htu
      refine ⟨o :: l, ?_, ?_⟩
      · rw [giveMutex_self]
        exact hlinked.push hnot
      · intro m
        rw [List.mem_cons, hmem m]
        simp [or_comm]
    · refine ⟨l, ?_, ?_⟩
      · rw [giveMutex_of_ne k o htu]
        refine hlinked.congr ?_
        intro m hm
        refine Function.update_of_ne ?_ _ _
        intro he
        exact hnot (he ▸ hm)
      · intro m
        rw [hmem m]
        simp [htu]
  · refine .of_prio hprio fun m => ?_
    rw [giveMutex_blkList]
    exact h.sorted m
  · intro t ht
    rw [hprios, hbPrios]
    -- Who waits for it boosts the new owner, and is not more urgent.
    have hboosts : ∀ v, (k.giveMutex o u).boosts (fun m t => own m t ∨ m = o ∧ t = u) v t ↔
        k.boosts own v t ∨ ((k.task v).waits = some o ∧ t = u) := by
      intro v
      unfold Kernel.boosts
      rw [hwaits]
      constructor
      · rintro ⟨m, hw, hown | ⟨hm, htu⟩⟩
        · exact .inl ⟨m, hw, hown⟩
        · exact .inr ⟨hm ▸ hw, htu⟩
      · rintro (⟨m, hw, hown⟩ | ⟨hw, htu⟩)
        · exact ⟨m, hw, .inl hown⟩
        · exact ⟨o, hw, .inr ⟨rfl, htu⟩⟩
    refine (h.settled t ht).widen (fun v hv => (hboosts v).mpr (.inl hv)) ?_
    intro v hv
    rcases (hboosts v).mp hv with hold | ⟨hw, htu⟩
    · exact .inl hold
    · rw [htu]
      exact .inr (hfirst v hw)

omit [DecidableEq T] in
/-- An object changes in nothing that priorities depend on. -/
theorem Inherits.modObj (h : Inherits own S k) {f : Kobj T O → Kobj T O}
    (hlist : (f (k.obj o)).mutexList = (k.obj o).mutexList)
    (hblk : (f (k.obj o)).blkList = (k.obj o).blkList) : Inherits own S (k.modObj o f) := by
  have hself : (k.modObj o f).obj o = f (k.obj o) := Function.update_self ..
  have hother : ∀ m, m ≠ o → (k.modObj o f).obj m = k.obj m :=
    fun m hm => Function.update_of_ne hm ..
  refine h.transfer (fun _ => id) (fun _ => rfl) ?_ (fun _ _ _ _ => Iff.rfl) (fun _ => id)
    (fun _ => rfl) (fun _ => rfl) (h.sorted.sublist (fun _ => rfl) ?_)
  · intro m t _
    unfold Kernel.nextMutex
    by_cases hm : m = o
    · rw [hm, hself, hlist]
    · rw [hother m hm]
  · intro m
    by_cases hm : m = o
    · rw [hm, hself, hblk]
    · rw [hother m hm]

omit [DecidableEq T] [DecidableEq O] in
/-- The first task that waits for a mutex. -/
theorem Lists.first (hl : Lists k) {rest : List T} (hblk : (k.obj o).blkList = u :: rest) :
    (k.task u).waits = some o := by
  refine (hl.wait u o).mp ?_
  rw [hblk]
  exact List.mem_cons_self

/-- A mutex goes to the first task that waits for it. -/
theorem freeMutex_inherits (hl : Lists k) (h : Inherits own S k) (ho : ∀ t, ¬own o t)
    (hS : ∀ v, (k.task v).waits = some o → S v) :
    Inherits (fun m t => own m t ∨ m = o ∧ (k.obj o).blkList.head? = some t) S (k.freeMutex o) := by
  unfold Kernel.freeMutex
  cases hblk : (k.obj o).blkList with
  | nil =>
      have hmod : Inherits own S (k.modObj o fun x => { x with mutexTask := none }) :=
        h.modObj rfl rfl
      refine hmod.congr ?_ fun _ => Iff.rfl
      intro m t
      simp
  | cons u rest =>
      have hu := hl.first hblk
      have hwake := pendTaskWakeup_inherits hl h hu ho
      have hgive : Inherits (fun m t => own m t ∨ m = o ∧ t = u) S
          ((k.pendTaskWakeup u).giveMutex o u) := by
        refine giveMutex_inherits hwake (hS u hu) ?_ ho ?_ ?_
        · rcases pendTaskWakeup_woken hl hu with ⟨r, s, heq, hs⟩
          rw [heq, Kernel.left_self]
          rcases hs with rfl | rfl
          · simp [Ktask.woken]
          · simp [Ktask.woken]
        · rw [show ((k.pendTaskWakeup u).task u).waits = none from pendEnd_waits hl u .finish]
          simp
        · intro v hv
          have hold : (k.task v).waits = some o := (pendTaskWakeup_lists hl u).2.waits v o hv
          have hprio : ∀ w, ((k.pendTaskWakeup u).task w).prio = (k.task w).prio := by
            rcases pendTaskWakeup_woken hl hu with ⟨r, s, heq, -⟩
            rw [heq]
            intro w
            by_cases hw : w = u
            · rw [hw, Kernel.left_self]
              rfl
            · rw [Kernel.left_of_ne _ hw]
          rw [hprio, hprio]
          -- The list is sorted, so nobody on it is more urgent than its first task.
          have hsorted := h.sorted o
          have hmem := (hl.wait v o).mpr hold
          rw [hblk] at hsorted hmem
          rcases List.mem_cons.mp hmem with rfl | hmem
          · exact le_refl _
          · exact List.rel_of_pairwise_cons hsorted hmem
      refine hgive.congr ?_ fun _ => Iff.rfl
      intro m t
      rw [List.head?_cons, Option.some.injEq, eq_comm (a := u)]

/-- What a task and a mutex are after a mutex went to another task. -/
structure Freed (o : O) (k k' : Kernel T O) : Prop where
  owns : ∀ m t, k'.owns m t ↔ (m ≠ o ∧ k.owns m t) ∨
    (m = o ∧ (k.obj o).objType = .mutex ∧ (k.obj o).blkList.head? = some t)
  live : ∀ t, k'.live t ↔ k.live t
  next : ∀ m, m ≠ o → k'.nextMutex m = k.nextMutex m
  waits : ∀ v m, (k'.task v).waits = some m → (k.task v).waits = some m
  objType : ∀ m, (k'.obj m).objType = (k.obj m).objType
  nested : ∀ m, (k'.obj m).ownerNested = (k.obj m).ownerNested
  other : ∀ v, (k.obj o).blkList.head? ≠ some v → k'.task v = k.task v
  first : ∀ v, (k.obj o).blkList.head? = some v →
    (k'.task v).waits = none ∧ (k'.task v).blkState = .finish
  blkList : ∀ m, (k'.obj m).blkList.Sublist (k.obj m).blkList

theorem freeMutex_freed (hl : Lists k) (o : O) : Freed o k (k.freeMutex o) := by
  unfold Kernel.freeMutex
  cases hblk : (k.obj o).blkList with
  | nil =>
      -- Nobody waits, and nobody owns it from now on.
      have hself : (k.modObj o fun x => { x with mutexTask := none }).obj o
          = { k.obj o with mutexTask := none } := Function.update_self ..
      have hother : ∀ m, m ≠ o →
          (k.modObj o fun x => { x with mutexTask := none }).obj m = k.obj m :=
        fun m hm => Function.update_of_ne hm ..
      refine ⟨?_, fun _ => Iff.rfl, ?_, fun _ _ => id, ?_, ?_, fun _ _ => rfl, ?_, ?_⟩
      · intro m t
        unfold Kernel.owns
        by_cases hm : m = o
        · rw [hm, hself]
          simp [hblk]
        · rw [hother m hm]
          simp [hm]
      · intro m hm
        unfold Kernel.nextMutex
        rw [hother m hm]
      · intro m
        by_cases hm : m = o
        · rw [hm, hself]
        · rw [hother m hm]
      · intro m
        by_cases hm : m = o
        · rw [hm, hself]
        · rw [hother m hm]
      · intro v hv
        rw [hblk] at hv
        cases hv
      · intro m
        by_cases hm : m = o
        · rw [hm, hself]
        · rw [hother m hm]
  | cons u rest =>
      -- The first of the list is woken and becomes the owner.
      have hu := hl.first hblk
      rcases pendTaskWakeup_woken hl hu with ⟨r, s, heq, hs⟩
      have hpend := (Ktask.state_of_waits hu).1
      refine ⟨?_, ?_, ?_, ?_, ?_, ?_, ?_, ?_, ?_⟩
      · intro m t
        rw [giveMutex_owns, heq, hblk, List.head?_cons, Option.some.injEq, eq_comm (a := u)]
        exact Iff.rfl
      · intro t
        unfold Kernel.live Ktask.live
        rw [(giveMutex_facts (k.pendTaskWakeup u) o u t).1, heq]
        by_cases ht : t = u
        · rw [ht, Kernel.left_self]
          have hnew : ((k.task u).woken s .finish).state = s := rfl
          rw [hnew]
          refine iff_of_true ?_ ?_
          · rcases hs with hs | hs
            · simp [hs]
            · simp [hs]
          · rcases hpend with hp | hp
            · simp [hp]
            · simp [hp]
        · rw [Kernel.left_of_ne _ ht]
      · intro m hm
        rw [giveMutex_nextMutex, Function.update_of_ne hm, heq]
        rfl
      · intro v m hv
        rw [(giveMutex_facts (k.pendTaskWakeup u) o u v).2.1] at hv
        exact (pendTaskWakeup_lists hl u).2.waits v m hv
      · intro m
        exact (giveMutex_objType (k.pendTaskWakeup u) o u m).trans
          ((pendTaskWakeup_lists hl u).2.objType m)
      · intro m
        dsimp only
        rw [giveMutex_ownerNested, heq]
        rfl
      · intro v hv
        rw [hblk, List.head?_cons, ne_eq, Option.some.injEq] at hv
        dsimp only
        rw [giveMutex_of_ne _ o (Ne.symm hv), heq, Kernel.left_of_ne _ (Ne.symm hv)]
      · intro v hv
        rw [hblk, List.head?_cons, Option.some.injEq] at hv
        subst hv
        dsimp only
        rw [(giveMutex_facts (k.pendTaskWakeup u) o u u).2.1, giveMutex_self]
        refine ⟨pendEnd_waits hl u .finish, ?_⟩
        rw [heq, Kernel.left_self]
        rfl
      · intro m
        dsimp only
        rw [giveMutex_blkList, heq]
        exact List.erase_sublist

/-- All mutexes of a task that goes, each to the first task that waits for it. `S` is
    all tasks but that one. -/
theorem mutexFreeLoop_inherits {t : T} {l : List O} {start : Option O} {n : Nat} (hl : Lists k)
    (h : Inherits own S k) (hlinked : Linked k.nextMutex start l) (hn : l.length ≤ n)
    (hown : ∀ m v, k.owns m v ↔ own m v ∨ m ∈ l ∧ v = t)
    (hmutex : ∀ m ∈ l, (k.obj m).objType = .mutex)
    (hnot : ∀ m ∈ l, ∀ v, ¬own m v) (hS : ∀ v, ∀ m ∈ l, (k.task v).waits = some m → S v)
    (hlive : ∀ v, S v ↔ k.live v ∧ v ≠ t) :
    Inherits (Kernel.mutexFreeLoop n k start).owns S (Kernel.mutexFreeLoop n k start) ∧
      ∀ v, (Kernel.mutexFreeLoop n k start).live v ↔ k.live v := by
  -- By induction on the chain: each mutex goes to its first waiting task.
  induction l generalizing k own start n with
  | nil =>
      have hstart : start = none := hlinked
      have hloop : Kernel.mutexFreeLoop n k start = k := by
        rw [hstart]
        unfold Kernel.mutexFreeLoop
        rfl
      rw [hloop]
      refine ⟨h.congr ?_ fun _ => Iff.rfl, fun _ => Iff.rfl⟩
      intro m v
      rw [hown m v]
      simp
  | cons m l ih =>
      rcases hlinked with ⟨hstart, hrest⟩
      cases n with
      | zero => exact absurd hn (by simp)
      | succ n =>
          -- The chain meets no mutex twice, so giving this one away leaves the rest of it.
          have hnodup : m ∉ l := by
            have hcons : Linked k.nextMutex (some m) (m :: l) := ⟨rfl, hrest⟩
            exact (List.nodup_cons.mp hcons.nodup).1
          have hfreed := freeMutex_freed hl m
          have hinherits := freeMutex_inherits hl h (hnot m List.mem_cons_self)
            fun v => hS v m List.mem_cons_self
          have hloop : Kernel.mutexFreeLoop (n + 1) k start
              = Kernel.mutexFreeLoop n (k.freeMutex m) (k.nextMutex m) := by
            rw [hstart]
            rfl
          rw [hloop]
          have hdone := ih (freeMutex_lists hl m).1 hinherits
            (hrest.congr fun c hc => hfreed.next c fun he => hnodup (he ▸ hc)) (by simpa using hn)
            ?_ ?_ ?_ ?_ ?_
          · refine ⟨hdone.1, ?_⟩
            intro v
            exact (hdone.2 v).trans (hfreed.live v)
          · intro m' v
            rw [hfreed.owns m' v, hown m' v]
            have htype := hmutex m List.mem_cons_self
            have hnone : ∀ v, ¬own m v := hnot m List.mem_cons_self
            by_cases hm : m' = m
            · subst hm
              simp [htype, hnone, hnodup]
            · simp [hm]
          · intro m' hm'
            rw [hfreed.objType m']
            exact hmutex m' (List.mem_cons_of_mem _ hm')
          · rintro m' hm' v (ho | ⟨he, -⟩)
            · exact hnot m' (List.mem_cons_of_mem _ hm') v ho
            · exact hnodup (he ▸ hm')
          · intro v m' hm' hw
            exact hS v m' (List.mem_cons_of_mem _ hm') (hfreed.waits v m' hw)
          · intro v
            rw [hlive v, hfreed.live v]

end Give

/-! ## A mutex leaves a chain -/

section Unlink

variable {T O : Type} {k k' : Kernel T O}

/-- All but chains is as it was. -/
structure Relinked (k k' : Kernel T O) : Prop where
  task : ∀ v, ∃ m, k'.task v = { k.task v with mutexList := m }
  obj : ∀ o, ∃ m, k'.obj o = { k.obj o with mutexList := m }

theorem Relinked.waits (h : Relinked k k') (v : T) : (k'.task v).waits = (k.task v).waits := by
  rcases h.task v with ⟨m, hm⟩
  rw [hm]
  rfl

theorem Relinked.state (h : Relinked k k') (v : T) : (k'.task v).state = (k.task v).state := by
  rcases h.task v with ⟨m, hm⟩
  rw [hm]

theorem Relinked.live (h : Relinked k k') : k'.live = k.live := by
  funext v
  unfold Kernel.live Ktask.live
  rw [h.state v]

theorem Relinked.owns (h : Relinked k k') : k'.owns = k.owns := by
  funext m v
  rcases h.obj m with ⟨n, hn⟩
  unfold Kernel.owns
  rw [hn]

theorem Relinked.prios (h : Relinked k k') : k'.prios = k.prios := by
  funext v
  rcases h.task v with ⟨m, hm⟩
  unfold Kernel.prios
  rw [hm]

theorem Relinked.bPrios (h : Relinked k k') : k'.bPrios = k.bPrios := by
  funext v
  rcases h.task v with ⟨m, hm⟩
  unfold Kernel.bPrios
  rw [hm]

theorem Relinked.boosts (h : Relinked k k') (own : O → T → Prop) : k'.boosts own = k.boosts own := by
  funext u t
  unfold Kernel.boosts
  rw [h.waits u]

theorem Relinked.sorted (h : Relinked k k') (hs : Sorted k) : Sorted k' := by
  refine .of_prio (fun v => congrFun h.prios v) fun o => ?_
  rcases h.obj o with ⟨m, hm⟩
  rw [hm]
  exact hs o

theorem Relinked.awaited (h : Relinked k k') (ha : Awaited k) : Awaited k' := by
  intro t o hw hm
  rcases h.obj o with ⟨m, ho⟩
  rw [h.waits t] at hw
  rw [ho] at hm ⊢
  exact ha t o hw hm

theorem Relinked.lost (h : Relinked k k') (v : T) : (k'.task v).lost → (k.task v).lost :=
  Ktask.lost_of_waits (h.state v) (h.waits v)

variable [DecidableEq T] [DecidableEq O] {own : O → T → Prop} {S : T → Prop} {o : O} {t : T}

theorem unlinkMutex_relinked (k : Kernel T O) (t : T) (l : List O) (o : O) :
    Relinked k (k.unlinkMutex t l o) := by
  unfold Kernel.unlinkMutex
  split_ifs
  · refine ⟨?_, fun m => ⟨_, rfl⟩⟩
    intro v
    unfold Kernel.modTask
    dsimp only
    by_cases hv : v = t
    · rw [hv, Function.update_self]
      exact ⟨_, rfl⟩
    · rw [Function.update_of_ne hv]
      exact ⟨_, rfl⟩
  · cases before k.nextMutex o l with
    | none => exact ⟨fun v => ⟨_, rfl⟩, fun m => ⟨_, rfl⟩⟩
    | some d =>
        refine ⟨fun v => ⟨_, rfl⟩, ?_⟩
        intro m
        unfold Kernel.modObj
        dsimp only
        by_cases hm : m = d
        · rw [hm, Function.update_self]
          exact ⟨_, rfl⟩
        · rw [Function.update_of_ne hm]
          exact ⟨_, rfl⟩

/-- The chain of the owner, without the mutex. -/
theorem unlinkMutex_linked {l : List O} (hl : Linked k.nextMutex (k.task t).mutexList l)
    (ho : o ∈ l) :
    Linked (k.unlinkMutex t l o).nextMutex ((k.unlinkMutex t l o).task t).mutexList (l.erase o) := by
  unfold Kernel.unlinkMutex
  by_cases hfirst : (k.task t).mutexList = some o
  · rw [if_pos hfirst]
    rw [hfirst] at hl
    have hself : ((k.modTask t fun x => { x with mutexList := k.nextMutex o }).task t).mutexList
        = k.nextMutex o := by
      unfold Kernel.modTask
      dsimp only
      rw [Function.update_self]
    rw [hself]
    exact hl.unlink_first
  · rw [if_neg hfirst]
    rcases hl.unlink hfirst ho with ⟨d, hd, hlinked⟩
    rw [hd]
    have hnext : (k.modObj d fun x => { x with mutexList := k.nextMutex o }).nextMutex
        = Function.update k.nextMutex d (k.nextMutex o) := by
      funext m
      unfold Kernel.nextMutex Kernel.modObj
      dsimp only
      by_cases hm : m = d
      · rw [hm, Function.update_self, Function.update_self]
      · rw [Function.update_of_ne hm, Function.update_of_ne hm]
    dsimp only
    rw [hnext]
    exact hlinked

/-- The chains of all other tasks. -/
theorem unlinkMutex_other {l l' : List O} {start : Option O} (hdisjoint : ∀ m ∈ l, m ∉ l')
    (hl' : Linked k.nextMutex start l') : Linked (k.unlinkMutex t l o).nextMutex start l' := by
  unfold Kernel.unlinkMutex
  split_ifs
  · exact hl'
  · cases hd : before k.nextMutex o l with
    | none => exact hl'
    | some d =>
        refine hl'.congr ?_
        intro m hm
        have hne : m ≠ d := by
          intro he
          rw [he] at hm
          exact hdisjoint d (before_mem hd).1 hm
        unfold Kernel.nextMutex Kernel.modObj
        dsimp only
        rw [Function.update_of_ne hne]

theorem unlinkMutex_mutexList {l : List O} {v : T} (hv : v ≠ t) :
    ((k.unlinkMutex t l o).task v).mutexList = (k.task v).mutexList := by
  unfold Kernel.unlinkMutex
  split_ifs
  · have hsame : (k.modTask t fun x => { x with mutexList := k.nextMutex o }).task v = k.task v :=
      Function.update_of_ne hv ..
    rw [hsame]
  · cases before k.nextMutex o l with
    | none => rfl
    | some d => rfl

/-- A mutex leaves the chain of its owner. -/
theorem unlinkMutex_chained (hc : Chained own S k) {l : List O}
    (hl : Linked k.nextMutex (k.task t).mutexList l) (hmem : ∀ m, m ∈ l ↔ own m t)
    (ho : own o t) : Chained (fun m v => own m v ∧ m ≠ o) S (k.unlinkMutex t l o) := by
  have hre := unlinkMutex_relinked k t l o
  refine ⟨fun v hlost => hc.lost v (hre.lost v hlost), ?_, fun m v hown => hc.owner m v hown.1,
    fun m v v' hown hown' => hc.unique m v v' hown.1 hown'.1, ?_, ?_⟩
  · intro v hv
    rw [hre.state v] at hv
    have hnone := hc.seed v hv
    have hvt : v ≠ t := by
      intro he
      rw [he] at hnone
      rw [hnone] at hl
      have hnil : l = [] := hl.unique rfl
      rw [hnil] at hmem
      exact absurd ((hmem o).mpr ho) (by simp)
    rw [unlinkMutex_mutexList hvt]
    exact hnone
  · intro v m hw hown
    rw [hre.waits v] at hw
    exact hc.self v m hw hown.1
  · intro v hv
    by_cases hvt : v = t
    · subst hvt
      refine ⟨l.erase o, unlinkMutex_linked hl ((hmem o).mpr ho), ?_⟩
      intro m
      rw [hl.nodup.mem_erase_iff, hmem m]
      exact and_comm
    · rcases hc.chain v hv with ⟨l', hl', hmem'⟩
      -- A mutex has one owner, so the chains of two tasks have none in common.
      have hdisjoint : ∀ m ∈ l, m ∉ l' := by
        intro m hm hm'
        exact hvt (hc.unique m t v ((hmem m).mp hm) ((hmem' m).mp hm'))
      refine ⟨l', ?_, ?_⟩
      · rw [unlinkMutex_mutexList hvt]
        exact unlinkMutex_other hdisjoint hl'
      · intro m
        rw [hmem' m]
        refine ⟨fun hown => ⟨hown, ?_⟩, fun hown => hown.1⟩
        intro he
        rw [he] at hown
        exact hvt (hc.unique o t v ho hown)

variable [Fintype O]

/-- What `mutex_pri_look` leaves when a mutex is released: the priority for the owner, and
    all others have theirs. -/
theorem mutexPriLook_released (hl : Lists k) (h : Inherits own S k) (ho : own o t) :
    Relinked k (k.mutexPriLook t (some o)).2 ∧
      Chained (fun m v => own m v ∧ m ≠ o) S (k.mutexPriLook t (some o)).2 ∧
      Best k.prios k.bPrios (k.boosts fun m v => own m v ∧ m ≠ o) t (k.mutexPriLook t (some o)).1 ∧
      ∀ u, S u → u ≠ t →
        Best k.prios k.bPrios (k.boosts fun m v => own m v ∧ m ≠ o) u (k.prios u) := by
  rcases h.mutexes (h.owner o t ho) with ⟨l, hwalk, hlinked, hmem⟩
  unfold Kernel.mutexPriLook
  rw [hwalk]
  refine ⟨unlinkMutex_relinked k t l o, unlinkMutex_chained h.toChained hlinked hmem ho,
    lookPri_best hl h.sorted ?_, ?_⟩
  · intro m
    rw [hlinked.nodup.mem_erase_iff, hmem m]
    exact and_comm
  · intro u hu hut
    refine (h.settled u hu).congr rfl ?_ fun _ _ => rfl
    intro v
    constructor
    · rintro ⟨m, hw, hown⟩
      exact ⟨m, hw, hown.1⟩
    · rintro ⟨m, hw, hown⟩
      refine ⟨m, hw, hown, ?_⟩
      intro he
      rw [he] at hown
      exact hut (h.unique o t u ho hown)

end Unlink

/-! ## A mutex is unlocked or deleted -/

section Release

variable {T O : Type} [DecidableEq T] [DecidableEq O] [Fintype T] [Fintype O] {k : Kernel T O}
  {own : O → T → Prop} {S : T → Prop} {o : O} {t : T}

/-- A release changes a chain, and then priorities. -/
theorem mutexRelease_parts (hl : Lists k) (hidle : t ≠ k.idle) (rel : Option O) :
    ∃ k1, Relinked k k1 ∧ Repri k1 (k.mutexRelease t rel) := by
  have hlook := mutexPriLook_lists hl t rel
  have hframe := mutexPriLook_frame k t rel
  refine ⟨(k.mutexPriLook t rel).2, ?_, ?_⟩
  · have hsame : ∀ k' : Kernel T O, k'.task = k.task → k'.obj = k.obj → Relinked k k' := by
      intro k' htask hobj
      refine ⟨fun v => ⟨(k.task v).mutexList, ?_⟩, fun m => ⟨(k.obj m).mutexList, ?_⟩⟩
      · rw [htask]
      · rw [hobj]
    unfold Kernel.mutexPriLook
    cases k.mutexes t with
    | none => exact hsame _ rfl rfl
    | some l =>
        cases rel with
        | none => exact hsame _ rfl rfl
        | some m => exact unlinkMutex_relinked k t l m
  · unfold Kernel.mutexRelease
    dsimp only
    split_ifs
    · exact priChangeLoop_repri _ _ t _ hlook.1 (hframe.idle ▸ hidle) hlook.2
    · exact .refl hlook.1

/-- A task that is ready releases a mutex. Its priority changes, and no other. -/
theorem mutexRelease_ready (hl : Lists k) (h : Inherits own S k) (hs : (k.task t).state = .rdy)
    (hidle : t ≠ k.idle) (ho : own o t) :
    Inherits (fun m v => own m v ∧ m ≠ o) S (k.mutexRelease t (some o)) := by
  rcases mutexPriLook_released hl h ho with ⟨hre, hc, hbest, hrest⟩
  have hlook := mutexPriLook_lists hl t (some o)
  unfold Kernel.mutexRelease
  generalize hp : k.mutexPriLook t (some o) = p at *
  -- A ready task waits for nothing, so a new priority of it boosts nobody.
  have hnot : ∀ u, ¬k.boosts (fun m v => own m v ∧ m ≠ o) t u := by
    rintro u ⟨m, hw, -⟩
    exact Ktask.state_ne_rdy hw hs
  dsimp only
  by_cases hne : p.1 ≠ (p.2.task t).prio
  · rw [if_pos hne]
    have hidle' : t ≠ p.2.idle := by
      have hframe := mutexPriLook_frame k t (some o)
      rw [hp] at hframe
      rw [hframe.idle]
      exact hidle
    have hs' : (p.2.task t).state = .rdy := (hre.state t).trans hs
    have hrepri := priChangeLoop_repri (Fintype.card T * priMax + 1) p.2 t p.1 hlook.1 hidle' hlook.2
    unfold Kernel.taskPriChange
    rw [priChangeLoop_ready (Ne.symm hne) hs'] at hrepri ⊢
    rcases movePrio_eq hlook.1 hidle' hlook.2 hs' with ⟨r, hr, -⟩
    rw [hr] at hrepri ⊢
    refine ⟨hc.repri hrepri, (hre.sorted h.sorted).setPrio hlook.1 ?_ r p.1 p.2.stuck, ?_⟩
    · exact Ktask.waits_eq_none (by simp [hs']) (by simp [hs'])
    · intro u hu
      have hprios : (p.2.repri r (Function.update (fun u => (p.2.task u).prio) t p.1)
          (fun o => (p.2.obj o).blkList) p.2.stuck).prios = Function.update k.prios t p.1 := by
        rw [← hre.prios]
        rfl
      rw [hprios, hrepri.same.2.2.1, hrepri.same.2.2.2, hre.bPrios, hre.boosts]
      exact Settled.update (hnot t) hrest hbest hu (hnot u)
  · rw [if_neg hne]
    rw [not_not] at hne
    refine ⟨hc, hre.sorted h.sorted, ?_⟩
    intro u hu
    rw [hre.prios, hre.bPrios, hre.boosts]
    by_cases hut : u = t
    · have hval : p.1 = k.prios u := by
        rw [hut, hne]
        exact congrFun hre.prios t
      rw [hval, ← hut] at hbest
      exact hbest
    · exact hrest u hu hut

/-- The last unlock of a mutex. -/
theorem unlocked_inherits (hl : Lists k) (h : Inherits k.owns k.live k)
    (hs : (k.task k.active).state = .rdy) (hidle : k.active ≠ k.idle) (ho : k.owns o k.active) :
    Inherits (k.unlocked o).owns (k.unlocked o).live (k.unlocked o) := by
  have hzero : Inherits k.owns k.live (k.modObj o fun x => { x with ownerNested := 0 }) :=
    h.modObj rfl rfl
  have hlzero : Lists (k.modObj o fun x => { x with ownerNested := 0 }) := hl.modObj rfl (hl.owner o)
  -- First the mutex leaves the chain, with the priority it gave; then it goes on.
  have hrel := mutexRelease_ready hlzero hzero (t := k.active) hs hidle ho
  rcases mutexRelease_parts hlzero (t := k.active) hidle (some o) with ⟨k1, hre, hrepri⟩
  have hlrel := hrepri.2
  have howns : ∀ m v, ((k.modObj o fun x => { x with ownerNested := 0 }).mutexRelease k.active
      (some o)).owns m v ↔ k.owns m v := by
    intro m v
    rw [hrepri.same.1, hre.owns]
    exact owns_modObj rfl rfl m v
  have hlive : ((k.modObj o fun x => { x with ownerNested := 0 }).mutexRelease k.active
      (some o)).live = k.live := hrepri.same.2.1.trans hre.live
  unfold Kernel.unlocked
  generalize (k.modObj o fun x => { x with ownerNested := 0 }).mutexRelease k.active (some o) = k2 at *
  have hfreed := freeMutex_freed hlrel o
  have hfree : Inherits (k2.freeMutex o).owns (k2.freeMutex o).live (k2.freeMutex o) := by
    refine (freeMutex_inherits hlrel hrel (fun v hv => hv.2 rfl) ?_).congr ?_ ?_
    · intro v hw
      rw [← hlive]
      exact k2.live_of_waits hw
    · intro m v
      rw [hfreed.owns m v, howns m v, and_comm (a := m ≠ o)]
      have htype := ((howns o k.active).mpr ho).1
      simp [htype]
    · intro v
      rw [hfreed.live v, hlive]
  dsimp only
  unfold Kernel.freeMutex at hfree
  cases hblk : (k2.obj o).blkList with
  | nil =>
      rw [hblk] at hfree
      exact hfree
  | cons u rest =>
      rw [hblk] at hfree
      dsimp only at hfree ⊢
      refine (hfree.modObj rfl rfl).congr ?_ fun _ => Iff.rfl
      exact owns_modObj rfl rfl

/-- A mutex is deleted, and its owner's priority is looked up again. -/
theorem mutexGone_inherits (hl : Lists k) (h : Inherits k.owns k.live k) (ha : Awaited k)
    (hm : (k.obj o).objType = .mutex) :
    Inherits (k.mutexGone o).owns (k.mutexGone o).live (k.mutexGone o) := by
  -- The object first loses its type, and with it its owner.
  have hgone : Inherits k.owns k.live (k.modObj o fun x => { x with objType := .noType }) :=
    h.modObj rfl rfl
  have hlgone : Lists (k.modObj o fun x => { x with objType := .noType }) :=
    hl.modObj rfl (hl.owner o)
  have hself : (k.modObj o fun x => { x with objType := .noType }).obj o
      = { k.obj o with objType := .noType } := Function.update_self ..
  have hother : ∀ m, m ≠ o → (k.modObj o fun x => { x with objType := .noType }).obj m = k.obj m :=
    fun m hm => Function.update_of_ne hm ..
  have howns : ∀ m v, (k.modObj o fun x => { x with objType := .noType }).owns m v ↔
      k.owns m v ∧ m ≠ o := by
    intro m v
    unfold Kernel.owns
    by_cases he : m = o
    · rw [he, hself]
      simp
    · rw [hother m he]
      simp [he]
  have hagone : Awaited (k.modObj o fun x => { x with objType := .noType }) := by
    intro t m hw htype
    by_cases he : m = o
    · rw [he, hself] at htype
      cases htype
    · rw [hother m he] at htype ⊢
      exact ha t m hw htype
  have hmutexTask : ((k.modObj o fun x => { x with objType := .noType }).obj o).mutexTask
      = (k.obj o).mutexTask := by rw [hself]
  have hliveg : (k.modObj o fun x => { x with objType := .noType }).live = k.live := rfl
  have hidleg : (k.modObj o fun x => { x with objType := .noType }).idle = k.idle := rfl
  unfold Kernel.mutexGone
  dsimp only
  rw [hmutexTask]
  generalize (k.modObj o fun x => { x with objType := .noType }) = k1 at *
  cases hw : (k.obj o).mutexTask with
  | none =>
      -- Nobody owned it: ownership is as before.
      refine hgone.congr ?_ fun t => by rw [hliveg]
      intro m v
      rw [howns m v]
      refine ⟨fun hown => hown.1, fun hown => ⟨hown, ?_⟩⟩
      intro he
      rw [he] at hown
      rw [hown.2] at hw
      cases hw
  | some w =>
      have hown : k.owns o w := ⟨hm, hw⟩
      have hidle : w ≠ k1.idle := by
        intro he
        rw [he, hidleg] at hw
        exact hl.owner o hw
      have hlook := mutexPriLook_lists hlgone w (some o)
      have hframe := mutexPriLook_frame k1 w (some o)
      -- `mutex_pri_look` takes it off the chain and says which priority is left.
      rcases mutexPriLook_released hlgone hgone hown with ⟨hre, hc, hbest, hrest⟩
      dsimp only
      unfold Kernel.mutexRelease
      generalize k1.mutexPriLook w (some o) = p at *
      have howns' : ∀ m v, p.2.owns m v ↔ k.owns m v ∧ m ≠ o := by
        intro m v
        rw [hre.owns]
        exact howns m v
      have hlive' : p.2.live = k.live := hre.live.trans hliveg
      have hc' : Chained p.2.owns p.2.live p.2 := hc.congr howns' fun t => by rw [hlive']
      have hboosts : p.2.boosts p.2.owns = k1.boosts fun m v => k.owns m v ∧ m ≠ o := by
        have heq : p.2.owns = fun m v => k.owns m v ∧ m ≠ o := by
          funext m v
          exact propext (howns' m v)
        rw [heq, hre.boosts]
      rw [← hre.prios, ← hre.bPrios, ← hboosts] at hbest hrest
      dsimp only
      by_cases hne : p.1 ≠ (p.2.task w).prio
      -- The priority falls, and the change goes on along the chain.
      · rw [if_pos hne]
        refine (taskPriChange_inherits hlook.1 hc' (hre.sorted hgone.sorted) (hre.awaited hagone)
          ?_ ?_ ?_ hbest).2.inherits
        · rw [hlive']
          exact h.owner o w hown
        · rw [hframe.idle]
          exact hidle
        · intro u hu
          rw [hlive'] at hu
          exact hrest u hu
      -- It stays: the owner is settled as it is.
      · rw [if_neg hne]
        rw [not_not] at hne
        refine ⟨hc', hre.sorted hgone.sorted, ?_⟩
        intro u hu
        rw [hlive'] at hu
        by_cases huw : u = w
        · rw [hne] at hbest
          rw [huw]
          exact hbest
        · exact hrest u hu huw

end Release

end Rhino

end Wujian100
