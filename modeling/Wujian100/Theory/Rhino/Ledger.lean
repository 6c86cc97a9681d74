import Wujian100.Theory.Rhino.Priority

/-!
# Locks Are Counted

A ledger beside the kernel says how many locks each task has taken of each mutex and
not given back. It reads the returns of the calls: a lock that succeeds at once, a lock
that returns because the task that waited was woken with the mutex, an unlock that is
accepted. What a task held ends with the task, and with the mutex.

The kernel keeps such a number only for the owner, in `owner_nested`. It is that of the
ledger, unless a task that holds a mutex more than once is deleted while others wait for
it: `task_mutex_free` hands the mutex on and leaves the count of the old owner.

## Main definitions

* `Ledger`: The kernel and the locks that are held.
* `Counted`: The kernel counts what is held.
* `Ledger.fair`: A step deletes no task that holds an awaited mutex more than once.

## Theorems

* `locks_counted`: What holds after every run.
-/

namespace Wujian100

namespace Rhino

/-- The kernel, and the locks that tasks have taken and not given back. -/
structure Ledger (T O : Type) where
  kernel : Kernel T O
  held : T → O → Nat

section Definitions

variable {T O : Type} [DecidableEq T] [DecidableEq O]

/-- A task waited for a mutex, and its call returns with success. -/
def Kernel.returned (k k' : Kernel T O) (t : T) (m : O) : Bool :=
  (k.obj m).objType = .mutex ∧ (k.task t).waits = some m ∧ (k'.task t).waits = none ∧
    (k'.task t).blkState = .finish

/-- What the kernel counts for a task. -/
def Kernel.tally (k : Kernel T O) (t : T) (m : O) : Nat :=
  if (k.obj m).objType = .mutex ∧ (k.obj m).mutexTask = some t then (k.obj m).ownerNested else 0

variable [Fintype T] [Fintype O]

/-- A task locks a mutex, and the call returns with it. -/
def Kernel.locked (k : Kernel T O) : KernelAct T O → T → O → Bool
  | .call (.mutexLock o ticks), t, m =>
      o = m ∧ t = k.active ∧ ((k.mutexLock o ticks).1 = some .success ∨
        (k.mutexLock o ticks).1 = some .mutexOwnerNested)
  | _, _, _ => false

/-- A task unlocks a mutex, and the call is accepted. -/
def Kernel.released (k : Kernel T O) : KernelAct T O → T → O → Bool
  | .call (.mutexUnlock o), t, m =>
      o = m ∧ t = k.active ∧ ((k.mutexUnlock o).1 = some .success ∨
        (k.mutexUnlock o).1 = some .mutexOwnerNested)
  | _, _, _ => false

/-- The locks after a step. A task or a mutex that is not there has none. -/
def Ledger.after (l : Ledger T O) (a : KernelAct T O) (k' : Kernel T O) (t : T) (m : O) : Nat :=
  if (k'.task t).state = .seed ∨ (k'.task t).state = .deleted ∨ (k'.obj m).objType ≠ .mutex then 0
  else
    l.held t m + (if l.kernel.locked a t m = true ∨ l.kernel.returned k' t m = true then 1 else 0) -
      (if l.kernel.released a t m = true then 1 else 0)

/-- One step of the kernel, and the locks after it. -/
def Ledger.step (l : Ledger T O) (a : KernelAct T O) : Option (Ledger T O) :=
  (l.kernel.step a).map fun k' => ⟨k', l.after a k'⟩

/-- The kernel after `krhino_init`, and no locks. -/
def Ledger.init (idle : T) (resSem : O) : Ledger T O :=
  ⟨Kernel.init idle resSem, fun _ _ => 0⟩

/-- A step deletes no task that is not there and leads to a mutex in use, and none that
    holds a mutex more than once which others wait for. -/
def Ledger.fair (l : Ledger T O) (a : KernelAct T O) : Prop :=
  l.kernel.untouched a ∧
    ∀ c t, a = .call c → l.kernel.deletes c = some t → ∀ m, l.kernel.owns m t →
      (l.kernel.obj m).blkList ≠ [] → (l.kernel.obj m).ownerNested = 1

/-- The kernel counts the locks that are held. The count of an owner is that of its
    locks, which are not none, nobody else has locks, and an unlock by the owner is the
    last one exactly when it has one lock. -/
structure Counted (l : Ledger T O) : Prop where
  owner : ∀ m t, l.kernel.owns m t →
    (l.kernel.obj m).ownerNested = l.held t m ∧ 0 < l.held t m
  others : ∀ m t, ¬l.kernel.owns m t → l.held t m = 0
  exclusive : ∀ m t u, 0 < l.held t m → 0 < l.held u m → u = t
  unlock : ∀ m, l.kernel.owns m l.kernel.active → l.kernel.intrptNested = 0 →
    (l.kernel.mutexUnlock m).1
      = some (if l.held l.kernel.active m = 1 then .success else .mutexOwnerNested)

end Definitions

/-! ## What a step does to the count -/

section Tally

variable {T O : Type} {k k' k'' : Kernel T O} {t : T} {m : O}

/-- The counts of owners are those of a `uint32_t`, and not zero. -/
def Bounded (k : Kernel T O) : Prop :=
  ∀ m t, k.owns m t → 0 < (k.obj m).ownerNested ∧ (k.obj m).ownerNested < 2 ^ 32

theorem returned_iff [DecidableEq O] : k.returned k' t m = true ↔
    (k.obj m).objType = .mutex ∧ (k.task t).waits = some m ∧ (k'.task t).waits = none ∧
      (k'.task t).blkState = .finish := by
  unfold Kernel.returned
  rw [decide_eq_true_iff]

variable [DecidableEq T]

theorem tally_of_owns (h : k.owns m t) : k.tally t m = (k.obj m).ownerNested :=
  if_pos h

theorem tally_of_not_owns (h : ¬k.owns m t) : k.tally t m = 0 :=
  if_neg h

theorem tally_congr (howns : k'.owns m t ↔ k.owns m t)
    (hnested : k.owns m t → (k'.obj m).ownerNested = (k.obj m).ownerNested) :
    k'.tally t m = k.tally t m := by
  by_cases ho : k.owns m t
  · rw [tally_of_owns ho, tally_of_owns (howns.mpr ho), hnested ho]
  · rw [tally_of_not_owns ho, tally_of_not_owns fun h => ho (howns.mp h)]

end Tally

section Accounts

variable {T O : Type} [DecidableEq T] [DecidableEq O] {k k' k'' : Kernel T O} {X : T → Prop}

/-- The counts of the tasks of `X` change by the locks that return. -/
structure Accounts (X : T → Prop) (k k' : Kernel T O) : Prop where
  bounded : Bounded k'
  tally : ∀ t m, X t → (k'.obj m).objType = .mutex →
    k'.tally t m = k.tally t m + if k.returned k' t m = true then 1 else 0

/-- No task comes to wait, and one that waits for nothing is left alone. -/
structure Onward (k k' : Kernel T O) : Prop where
  still : ∀ t, (k.task t).waits = none →
    (k'.task t).waits = none ∧ (k'.task t).blkState = (k.task t).blkState
  waits : ∀ t m, (k'.task t).waits = some m → (k.task t).waits = some m
  objType : ∀ m, (k'.obj m).objType = (k.obj m).objType

/-- Owners and counts are as they were, and no lock returns, of mutexes that are still
    there. -/
theorem Accounts.of_still (h : Bounded k)
    (howns : ∀ m, (k'.obj m).objType = .mutex → ∀ t, k'.owns m t ↔ k.owns m t)
    (hnested : ∀ m, (k'.obj m).objType = .mutex → ∀ t, k.owns m t →
      (k'.obj m).ownerNested = (k.obj m).ownerNested)
    (hret : ∀ t m, X t → (k'.obj m).objType = .mutex → (k.obj m).objType = .mutex →
      (k.task t).waits = some m → ¬((k'.task t).waits = none ∧ (k'.task t).blkState = .finish)) :
    Accounts X k k' := by
  refine ⟨?_, ?_⟩
  · intro m t ho
    have hold := (howns m ho.1 t).mp ho
    rw [hnested m ho.1 t hold]
    exact h m t hold
  · intro t m ht hm'
    rw [tally_congr (howns m hm' t) (hnested m hm' t), if_neg, Nat.add_zero]
    rw [returned_iff]
    rintro ⟨hm, hw, hdone⟩
    exact hret t m ht hm' hm hw hdone

theorem Accounts.of_same (h : Bounded k) (howns : ∀ m t, k'.owns m t ↔ k.owns m t)
    (hnested : ∀ m t, k.owns m t → (k'.obj m).ownerNested = (k.obj m).ownerNested)
    (hret : ∀ t m, X t → (k.obj m).objType = .mutex → (k.task t).waits = some m →
      ¬((k'.task t).waits = none ∧ (k'.task t).blkState = .finish)) : Accounts X k k' :=
  .of_still h (fun m _ => howns m) (fun m _ => hnested m) fun t m ht _ => hret t m ht

theorem Accounts.mono {Y : T → Prop} (h : Accounts X k k') (hsub : ∀ t, Y t → X t) :
    Accounts Y k k' :=
  ⟨h.bounded, fun t m ht => h.tally t m (hsub t ht)⟩

omit [DecidableEq T] [DecidableEq O] in
theorem Onward.trans (h : Onward k k') (h' : Onward k' k'') : Onward k k'' := by
  refine ⟨?_, fun t m hw => h.waits t m (h'.waits t m hw),
    fun m => (h'.objType m).trans (h.objType m)⟩
  intro t hw
  have hone := h.still t hw
  have htwo := h'.still t hone.1
  exact ⟨htwo.1, htwo.2.trans hone.2⟩

/-- A lock returns in one of two steps. -/
theorem Accounts.trans (h : Accounts X k k') (h' : Accounts X k' k'') (hs : Onward k k')
    (hs' : Onward k' k'') : Accounts X k k'' := by
  refine ⟨h'.bounded, ?_⟩
  intro t m ht hm
  have hm' : (k'.obj m).objType = .mutex := (hs'.objType m).symm.trans hm
  rw [h'.tally t m ht hm, h.tally t m ht hm']
  by_cases hone : k.returned k' t m = true
  · -- It waits no longer, and so it stays.
    rcases returned_iff.mp hone with ⟨htype, hw, hnone, hfin⟩
    have hstill := hs'.still t hnone
    have hnot : ¬k'.returned k'' t m = true := by
      rw [returned_iff, hnone]
      simp
    have hall : k.returned k'' t m = true :=
      returned_iff.mpr ⟨htype, hw, hstill.1, hstill.2.trans hfin⟩
    rw [if_pos hone, if_neg hnot, if_pos hall]
  · have hiff : k'.returned k'' t m = true ↔ k.returned k'' t m = true := by
      rw [returned_iff, returned_iff, hs.objType m]
      refine and_congr_right fun htype => ?_
      constructor
      · rintro ⟨hw, hdone⟩
        exact ⟨hs.waits t m hw, hdone⟩
      · rintro ⟨hw, hnone, hfin⟩
        refine ⟨?_, hnone, hfin⟩
        cases hw' : (k'.task t).waits with
        | none =>
            have hstill := hs'.still t hw'
            refine absurd (returned_iff.mpr ⟨htype, hw, hw', ?_⟩) hone
            exact hstill.2.symm.trans hfin
        | some m' =>
            have hold := hs.waits t m' hw'
            rw [hw] at hold
            exact hold.symm
    rw [if_neg hone, Nat.add_zero, if_congr hiff rfl rfl]

/-- Nothing changed about mutexes. -/
theorem Aside.accounts (ha : Aside k k') (hawait : Awaited k) (h : Bounded k) (X : T → Prop) :
    Accounts X k k' := by
  refine .of_same h ha.owns ha.nested ?_
  intro t m _ hm hw hdone
  cases howner : (k.obj m).mutexTask with
  | none => exact hawait t m hw hm howner
  | some w =>
      have hstill := (ha.blocked t m w ⟨hm, howner⟩).mpr hw
      rw [hdone.1] at hstill
      cases hstill

/-- Nothing changed about mutexes at first. -/
theorem Aside.accounts_trans (ha : Aside k k') (hawait : Awaited k) (hawait' : Awaited k')
    (htype : ∀ m, (k'.obj m).objType = (k.obj m).objType) (h : Accounts X k' k'') :
    Accounts X k k'' := by
  refine ⟨h.bounded, ?_⟩
  intro t m ht hm
  rw [h.tally t m ht hm, tally_congr (ha.owns m t) (ha.nested m t)]
  have hiff : k'.returned k'' t m = true ↔ k.returned k'' t m = true := by
    rw [returned_iff, returned_iff, htype m]
    refine and_congr_right fun hmutex => and_congr_left fun _ => ?_
    constructor
    · intro hw
      have hmutex' : (k'.obj m).objType = .mutex := (htype m).trans hmutex
      cases howner : (k'.obj m).mutexTask with
      | none => exact absurd howner (hawait' t m hw hmutex')
      | some w => exact (ha.blocked t m w ((ha.owns m w).mp ⟨hmutex', howner⟩)).mp hw
    · intro hw
      cases howner : (k.obj m).mutexTask with
      | none => exact absurd howner (hawait t m hw hmutex)
      | some w => exact (ha.blocked t m w ⟨hmutex, howner⟩).mpr hw
  rw [if_congr hiff rfl rfl]

omit [DecidableEq T] [DecidableEq O] in
/-- What priorities do not change. -/
theorem Repri.facts (h : Repri k k') :
    (∀ t, (k'.task t).waits = (k.task t).waits ∧ (k'.task t).blkState = (k.task t).blkState ∧
      (k'.task t).state = (k.task t).state) ∧
      (∀ m t, k'.owns m t ↔ k.owns m t) ∧
      ∀ m, (k'.obj m).ownerNested = (k.obj m).ownerNested ∧
        (k'.obj m).objType = (k.obj m).objType := by
  rcases h.1 with ⟨r, f, g, b, rfl⟩
  exact ⟨fun _ => ⟨rfl, rfl, rfl⟩, fun _ _ => Iff.rfl, fun _ => ⟨rfl, rfl⟩⟩

theorem Repri.accounts (h : Repri k k') (hb : Bounded k) (X : T → Prop) : Accounts X k k' := by
  rcases h.facts with ⟨htask, howns, hobj⟩
  refine .of_same hb howns (fun m _ _ => (hobj m).1) ?_
  intro t m _ _ hw hdone
  rw [(htask t).1, hw] at hdone
  cases hdone.1

omit [DecidableEq T] [DecidableEq O] in
theorem Repri.onward (h : Repri k k') : Onward k k' := by
  rcases h.facts with ⟨htask, -, hobj⟩
  refine ⟨?_, ?_, fun m => (hobj m).2⟩
  · intro t hw
    exact ⟨(htask t).1.trans hw, (htask t).2.1⟩
  · intro t m hw
    rw [(htask t).1] at hw
    exact hw

/-! ## A task is deleted -/

/-- One mutex of a task goes to the first task that waits for it. If there is one, the
    count has to be its first lock. -/
theorem freeMutex_accounts {t : T} {m : O} (hl : Lists k) (hb : Bounded k) (hown : k.owns m t)
    (hone : (k.obj m).blkList ≠ [] → (k.obj m).ownerNested = 1) :
    Accounts (fun v => v ≠ t) k (k.freeMutex m) ∧ Onward k (k.freeMutex m) := by
  have hf := freeMutex_freed hl m
  have hhead : ∀ v, (k.obj m).blkList.head? = some v → (k.task v).waits = some m ∧
      (k.obj m).ownerNested = 1 := by
    intro v hv
    have hmem := List.mem_of_mem_head? hv
    exact ⟨(hl.wait v m).mp hmem, hone (List.ne_nil_of_mem hmem)⟩
  have hsole : ∀ v, k.owns m v → v = t := by
    intro v hv
    exact Option.some.inj (hv.2.symm.trans hown.2)
  refine ⟨⟨?_, ?_⟩, ?_, hf.waits, hf.objType⟩
  · intro m' v ho
    rw [hf.nested m']
    rcases (hf.owns m' v).mp ho with ⟨-, hold⟩ | ⟨rfl, -, hv⟩
    · exact hb m' v hold
    · rw [(hhead v hv).2]
      simp
  · intro v m' hv hm'
    by_cases hret : k.returned (k.freeMutex m) v m' = true
    · rcases returned_iff.mp hret with ⟨htype, hw, hnone, -⟩
      -- Only the first task that waits for `m` stops waiting.
      have hfirst : (k.obj m).blkList.head? = some v := by
        by_contra hne
        rw [hf.other v hne, hw] at hnone
        cases hnone
      have hm : m' = m := by
        rw [(hhead v hfirst).1, Option.some.injEq] at hw
        exact hw.symm
      subst hm
      have hnow : (k.freeMutex m').owns m' v := (hf.owns m' v).mpr (.inr ⟨rfl, htype, hfirst⟩)
      have hnot : ¬k.owns m' v := fun h => hv (hsole v h)
      rw [if_pos hret, tally_of_owns hnow, tally_of_not_owns hnot, hf.nested, (hhead v hfirst).2]
    · rw [if_neg hret, Nat.add_zero]
      refine tally_congr ?_ fun _ => hf.nested m'
      rw [hf.owns m' v]
      constructor
      · rintro (⟨-, hold⟩ | ⟨rfl, htype, hfirst⟩)
        · exact hold
        · have hdone := hf.first v hfirst
          exact absurd (returned_iff.mpr ⟨htype, (hhead v hfirst).1, hdone⟩) hret
      · intro hold
        refine .inl ⟨?_, hold⟩
        rintro rfl
        exact hv (hsole v hold)
  · intro v hw
    have hne : (k.obj m).blkList.head? ≠ some v := by
      intro hv
      rw [(hhead v hv).1] at hw
      cases hw
    rw [hf.other v hne]
    exact ⟨hw, rfl⟩

/-- All mutexes of a task. -/
theorem mutexFreeLoop_accounts {t : T} {l : List O} {start : Option O} {n : Nat} (hl : Lists k)
    (hb : Bounded k) (hlinked : Linked k.nextMutex start l) (hn : l.length ≤ n)
    (hown : ∀ m ∈ l, k.owns m t)
    (hone : ∀ m ∈ l, (k.obj m).blkList ≠ [] → (k.obj m).ownerNested = 1) :
    Accounts (fun v => v ≠ t) k (Kernel.mutexFreeLoop n k start) ∧
      Onward k (Kernel.mutexFreeLoop n k start) := by
  -- By induction on the chain: each mutex goes to its first waiting task, which counts one.
  induction l generalizing k start n with
  | nil =>
      have hstart : start = none := hlinked
      have hloop : Kernel.mutexFreeLoop n k start = k := by
        rw [hstart]
        unfold Kernel.mutexFreeLoop
        rfl
      rw [hloop]
      exact ⟨(Repri.refl hl).accounts hb _, (Repri.refl hl).onward⟩
  | cons m l ih =>
      rcases hlinked with ⟨hstart, hrest⟩
      cases n with
      | zero => exact absurd hn (by simp)
      | succ n =>
          have hnodup : m ∉ l := by
            have hcons : Linked k.nextMutex (some m) (m :: l) := ⟨rfl, hrest⟩
            exact (List.nodup_cons.mp hcons.nodup).1
          have hf := freeMutex_freed hl m
          have hstep := freeMutex_accounts hl hb (hown m List.mem_cons_self)
            (hone m List.mem_cons_self)
          have hloop : Kernel.mutexFreeLoop (n + 1) k start
              = Kernel.mutexFreeLoop n (k.freeMutex m) (k.nextMutex m) := by
            rw [hstart]
            rfl
          have hne : ∀ c ∈ l, c ≠ m := fun c hc he => hnodup (he ▸ hc)
          have hdone := ih (freeMutex_lists hl m).1 hstep.1.bounded
            (hrest.congr fun c hc => hf.next c (hne c hc)) (by simpa using hn)
            (fun c hc => (hf.owns c t).mpr (.inl ⟨hne c hc, hown c (List.mem_cons_of_mem _ hc)⟩))
            (by
              intro c hc hblk
              rw [hf.nested c]
              refine hone c (List.mem_cons_of_mem _ hc) ?_
              intro hnil
              have hsub := hf.blkList c
              rw [hnil] at hsub
              exact hblk (List.sublist_nil.mp hsub))
          rw [hloop]
          exact ⟨hstep.1.trans hdone.1 hstep.2 hdone.2, hstep.2.trans hdone.2⟩

/-- A task ends. -/
theorem gone_accounts (hb : Bounded k) (t : T) (r : Runqueue T) :
    Accounts (fun v => v ≠ t) k (k.left t r (k.task t).gone) ∧
      Onward k (k.left t r (k.task t).gone) := by
  refine ⟨.of_same hb (fun _ _ => Iff.rfl) (fun _ _ _ => rfl) ?_, ?_, ?_, fun _ => rfl⟩
  · intro v m hv _ hw hdone
    rw [Kernel.left_of_ne _ hv, hw] at hdone
    cases hdone.1
  · intro v hw
    by_cases hv : v = t
    · rw [hv, Kernel.left_self]
      exact ⟨rfl, rfl⟩
    · rw [Kernel.left_of_ne _ hv]
      exact ⟨hw, rfl⟩
  · intro v m hw
    by_cases hv : v = t
    · rw [hv, Kernel.left_self] at hw
      cases hw
    · rw [Kernel.left_of_ne _ hv] at hw
      exact hw

variable [Fintype T] [Fintype O] {t : T}

theorem taskEnd_accounts (hl : Lists k) (hb : Bounded k) (hidle : t ≠ k.idle)
    (hend : k.taskEnd t = some k') :
    Accounts (fun v => v ≠ t) k k' ∧ Onward k k' ∧ ¬k'.live t := by
  have hgone := fun r => gone_accounts hb t r
  have hdead : ∀ r, ¬(k.left t r (k.task t).gone).live t := by
    intro r hlive
    exact ((live_gone k t r t).mp hlive).2 rfl
  cases hs : (k.task t).state with
  | rdy =>
      have hw : (k.task t).waits = none := Ktask.waits_eq_none (by simp [hs]) (by simp [hs])
      rcases taskEnd_rdy hl hidle hs with ⟨r, heq, -⟩
      rw [heq, moved_eq_left hl hw (hl.not_tick hs).1, Option.some.injEq] at hend
      rw [← hend]
      exact ⟨(hgone r).1, (hgone r).2, hdead r⟩
  | suspended =>
      have hw : (k.task t).waits = none := Ktask.waits_eq_none (by simp [hs]) (by simp [hs])
      rw [taskEnd_suspended hl hs, moved_eq_left hl hw (hl.off (by simp [TaskState.timed, hs])).1,
        Option.some.injEq] at hend
      rw [← hend]
      exact ⟨(hgone k.rq).1, (hgone k.rq).2, hdead k.rq⟩
  | sleep | sleepSuspended =>
      rw [taskEnd_sleep hl (by simp [hs]), Option.some.injEq] at hend
      rw [← hend]
      exact ⟨(hgone k.rq).1, (hgone k.rq).2, hdead k.rq⟩
  | pend | pendSuspended =>
      rw [taskEnd_pend hl (by simp [hs]), Option.some.injEq] at hend
      rw [← hend]
      have hlists := hl.rest (x := (k.task t).gone) (by simp [hs]) (.inr rfl) rfl rfl rfl
      have hrepri := mutexTaskPriReset_repri hlists t
      refine ⟨(hgone k.rq).1.trans (hrepri.accounts (hgone k.rq).1.bounded _) (hgone k.rq).2
        hrepri.onward, (hgone k.rq).2.trans hrepri.onward, ?_⟩
      rw [hrepri.same.2.1]
      exact hdead k.rq
  | seed | deleted =>
      unfold Kernel.taskEnd at hend
      rw [hs] at hend
      cases hend

/-- A task is deleted, whose awaited mutexes it holds once. -/
theorem ended_accounts (hp : Patient k) (h : Inherits k.owns k.live k) (hb : Bounded k)
    (hidle : t ≠ k.idle)
    (hunused : (k.task t).state = .deleted →
      ∀ m, k.leadsTo t m → (k.obj m).blkList = [] ∧ ∀ v, ¬k.owns m v)
    (hone : ∀ m, k.owns m t → (k.obj m).blkList ≠ [] → (k.obj m).ownerNested = 1) :
    Accounts (k.ended t).live k (k.ended t) := by
  by_cases ht : k.live t
  · rcases h.chain t ht with ⟨l, hlinked, hmem⟩
    have hloop : Accounts (fun v => v ≠ t) k (k.taskMutexFree t) ∧ Onward k (k.taskMutexFree t) :=
      mutexFreeLoop_accounts hp.lists hb hlinked (chain_length_le (T := T) hlinked)
        (fun m hm => (hmem m).mp hm)
        fun m hm => hone m ((hmem m).mp hm)
    rcases mutexFreeLoop_lists ((Fintype.card T + 1) * (Fintype.card O + 1)) hp.lists
      (k.task t).mutexList with ⟨hlists, hkeeps⟩
    rcases taskEnd_freed hp h ht hidle with ⟨k', hend, -⟩
    rcases taskEnd_accounts hlists hloop.1.bounded (hkeeps.idle ▸ hidle) hend
      with ⟨hacc, honward, hdead⟩
    unfold Kernel.ended
    rw [hend]
    refine (hloop.1.trans hacc hloop.2 honward).mono ?_
    rintro v hv rfl
    exact hdead hv
  · rcases ended_unused h ht (unused_of_not_live h ht hunused) with ⟨-, htask, howns, hnested⟩
    refine .of_same hb howns (fun m _ _ => hnested m) ?_
    intro v m _ _ hw hdone
    rw [htask, hw] at hdone
    cases hdone.1

end Accounts

/-! ## Other steps that count nothing -/

section Uncounted

variable {T O : Type} [DecidableEq T] [DecidableEq O] {k k' : Kernel T O} {X : T → Prop} {t : T}
  {o : O}

omit [DecidableEq T] [DecidableEq O] in
/-- What counts is as it was. -/
theorem Frame.counts (h : Frame k k') :
    (∀ m v, k'.owns m v ↔ k.owns m v) ∧
      ∀ m, (k'.obj m).ownerNested = (k.obj m).ownerNested ∧
        (k'.obj m).objType = (k.obj m).objType := by
  refine ⟨?_, ?_⟩
  · intro m v
    rcases h.obj m with ⟨l, n, hm⟩
    unfold Kernel.owns
    rw [hm]
  · intro m
    rcases h.obj m with ⟨l, n, hm⟩
    rw [hm]
    exact ⟨rfl, rfl⟩

/-- A task comes to wait. -/
theorem pendToBlkObj_facts (hl : Lists k) (ht : (k.task t).state = .rdy)
    (hidle : t ≠ k.idle) (o : O) (ticks : Nat) :
    (∀ v, v ≠ t → (k.pendToBlkObj o t ticks).task v = k.task v) ∧
      (∀ m v, (k.pendToBlkObj o t ticks).owns m v ↔ k.owns m v) ∧
      ∀ m, ((k.pendToBlkObj o t ticks).obj m).ownerNested = (k.obj m).ownerNested := by
  rcases pendToBlkObj_eq hl ht hidle o ticks with ⟨r, l, b, n, n', heq, -⟩
  rw [heq]
  refine ⟨fun v hv => Function.update_of_ne hv .., ?_, ?_⟩
  · intro m v
    unfold Kernel.owns
    dsimp only
    by_cases hm : m = o
    · rw [hm, Function.update_self]
    · rw [Function.update_of_ne hm]
  · intro m
    dsimp only
    by_cases hm : m = o
    · rw [hm, Function.update_self]
    · rw [Function.update_of_ne hm]

omit [DecidableEq O] in
/-- A task is created. -/
theorem created_facts (hl : Lists k) {prio : Nat} (ticks : Nat) (autorun isStatic : Bool)
    (hnew : (k.task t).state = .seed ∨ (k.task t).state = .deleted) (hprio : prio < priMax) :
    (∀ v, v ≠ t → (k.created t prio ticks autorun isStatic).task v = k.task v) ∧
      (k.created t prio ticks autorun isStatic).obj = k.obj := by
  rcases created_eq hl ticks autorun isStatic hnew hprio with ⟨r, heq, -⟩
  rcases Frame.spawned k prio with ⟨htask, hobj, -⟩
  rw [heq]
  refine ⟨?_, hobj⟩
  intro v hv
  rw [Kernel.moved_of_ne _ hv, htask]

/-- A task is created. -/
theorem created_accounts (hl : Lists k) (hb : Bounded k) {prio : Nat} (ticks : Nat)
    (autorun isStatic : Bool) (hnew : (k.task t).state = .seed ∨ (k.task t).state = .deleted)
    (hprio : prio < priMax) : Accounts X k (k.created t prio ticks autorun isStatic) := by
  rcases created_facts hl ticks autorun isStatic hnew hprio with ⟨hother, hobj⟩
  refine .of_same hb ?_ ?_ ?_
  · intro m v
    unfold Kernel.owns
    rw [hobj]
  · intro m v _
    rw [hobj]
  · intro v m _ _ hw hdone
    -- Who waits is there already.
    have hv : v ≠ t := by
      rintro rfl
      have hlive := k.live_of_waits hw
      rcases hnew with hs | hs
      · exact hlive.1 hs
      · exact hlive.2 hs
    rw [hother v hv, hw] at hdone
    cases hdone.1

variable [Fintype T] [Fintype O]

/-- A task gets another base priority. -/
theorem priChange_accounts (hl : Lists k) (hb : Bounded k) (hidle : t ≠ k.idle) {pri limit : Nat}
    (hpri : pri < priMax) (hlimit : limit < priMax) :
    Accounts X k ((k.modTask t fun x => { x with bPrio := pri }).taskPriChange t limit).2 := by
  have hmod : Lists (k.modTask t fun x => { x with bPrio := pri }) :=
    hl.modTask ⟨rfl, rfl, rfl, rfl⟩ hpri
  have hrepri : Repri (k.modTask t fun x => { x with bPrio := pri })
      ((k.modTask t fun x => { x with bPrio := pri }).taskPriChange t limit).2 :=
    priChangeLoop_repri _ _ t _ hmod hidle hlimit
  have hwaits : ∀ v, ((k.modTask t fun x => { x with bPrio := pri }).task v).waits
      = (k.task v).waits := by
    intro v
    unfold Kernel.modTask
    dsimp only
    by_cases hv : v = t
    · rw [hv, Function.update_self]
      rfl
    · rw [Function.update_of_ne hv]
  rcases hrepri.facts with ⟨htask, howns, hobj⟩
  refine .of_same hb howns (fun m _ _ => (hobj m).1) ?_
  intro v m _ _ hw hdone
  rw [(htask v).1, hwaits v, hw] at hdone
  cases hdone.1

/-- A task comes to wait for a mutex, and the owner's priority follows first. -/
theorem lockWait_accounts (hl : Lists k) (hb : Bounded k) (hs : (k.task k.active).state = .rdy)
    (hidle : k.active ≠ k.idle) {w : T} (ho : k.owns o w) (ticks : Nat) :
    Accounts X k (k.lockWait o w ticks) := by
  have hraised : ∃ k1, (if (k.task k.active).prio < (k.task w).prio then
      (k.taskPriChange w (k.task k.active).prio).2 else k) = k1 ∧ Repri k k1 := by
    refine ⟨_, rfl, ?_⟩
    split_ifs
    · exact priChangeLoop_repri _ _ w _ hl (fun he => hl.owner o (he ▸ ho.2)) (hl.prio _)
    · exact .refl hl
  rcases hraised with ⟨k1, heq, hrepri⟩
  unfold Kernel.lockWait
  rw [heq]
  rcases hrepri.facts with ⟨htask, howns, hobj⟩
  rcases pendToBlkObj_facts hrepri.2 (hrepri.frame.rdy _ hs) (hrepri.idle ▸ hidle) o ticks
    with ⟨hother, howns', hnested⟩
  refine .of_same hb (fun m v => (howns' m v).trans (howns m v))
    (fun m _ _ => (hnested m).trans (hobj m).1) ?_
  intro v m _ _ hw hdone
  have hv : v ≠ k.active := by
    rintro rfl
    exact Ktask.state_ne_rdy hw hs
  rw [hother v hv, (htask v).1, hw] at hdone
  cases hdone.1

/-- Nobody stops waiting when a mutex is released. -/
theorem mutexRelease_waits (hl : Lists k) (hidle : t ≠ k.idle) (rel : Option O) (v : T) :
    ((k.mutexRelease t rel).task v).waits = (k.task v).waits := by
  rcases mutexRelease_parts hl hidle rel with ⟨k1, hre, hrepri⟩
  rw [(hrepri.facts.1 v).1, hre.waits]

theorem mutexGone_waits (hl : Lists k) (o : O) (v : T) :
    ((k.mutexGone o).task v).waits = (k.task v).waits := by
  have howner : ((k.modObj o fun x => { x with objType := .noType }).obj o).mutexTask
      = (k.obj o).mutexTask := by
    unfold Kernel.modObj
    dsimp only
    rw [Function.update_self]
  unfold Kernel.mutexGone
  dsimp only
  rw [howner]
  cases hw : (k.obj o).mutexTask with
  | none => rfl
  | some w =>
      have hlgone : Lists (k.modObj o fun x => { x with objType := .noType }) :=
        hl.modObj rfl (hl.owner o)
      have hidle : w ≠ k.idle := by
        rintro rfl
        exact hl.owner o hw
      exact mutexRelease_waits hlgone hidle (some o) v

/-- A mutex is deleted. -/
theorem mutexDel_accounts (hl : Lists k) (ha : Awaited k) (hb : Bounded k) :
    Accounts X k (((k.mutexGone o).obj o).blkList.foldl Kernel.pendTaskRm (k.mutexGone o)) := by
  rcases mutexGone_lists hl o with ⟨hgone, hframe⟩
  have hwake := mutexDel_aside hl o
  rcases foldl_pendTaskRm hgone ((k.mutexGone o).obj o).blkList with ⟨-, hframe', -⟩
  rcases (hframe.trans hframe').counts with ⟨howns, hobj⟩
  have hwaits := mutexGone_waits hl o
  have hgowns := hframe.counts.1
  generalize (((k.mutexGone o).obj o).blkList.foldl Kernel.pendTaskRm (k.mutexGone o)) = k' at *
  have hself : (k.modObj o fun x => { x with objType := .noType }).obj o
      = { k.obj o with objType := .noType } := Function.update_self ..
  have hother : ∀ m, m ≠ o → (k.modObj o fun x => { x with objType := .noType }).obj m = k.obj m :=
    fun m hm => Function.update_of_ne hm ..
  have hne : ∀ m, (k'.obj m).objType = .mutex → m ≠ o := by
    rintro m hm rfl
    rw [(hobj m).2, hself] at hm
    cases hm
  have hsame : ∀ m, m ≠ o → ∀ v,
      (k.modObj o fun x => { x with objType := .noType }).owns m v ↔ k.owns m v := by
    intro m hm v
    unfold Kernel.owns
    rw [hother m hm]
  refine .of_still hb (fun m hm v => (howns m v).trans (hsame m (hne m hm) v)) ?_ ?_
  · intro m hm v _
    rw [(hobj m).1, hother m (hne m hm)]
  · intro v m _ hm' hm hw hdone
    -- Who waits for another mutex is not woken.
    cases howner : (k.obj m).mutexTask with
    | none => exact ha v m hw hm howner
    | some w =>
        have hown := (hgowns m w).mpr ((hsame m (hne m hm') w).mpr ⟨hm, howner⟩)
        have hstill := (hwake.blocked v m w hown).mpr ((hwaits v).trans hw)
        rw [hdone.1] at hstill
        cases hstill

/-! ## Time -/

omit [DecidableEq T] [DecidableEq O] [Fintype T] [Fintype O] in
/-- Who waited for a mutex still does, or its time ran out. -/
def Ktask.overdue (x : Ktask O) (m : O) : Prop :=
  x.waits = some m ∨ x.blkState = .timeout ∧ (x.state = .rdy ∨ x.state = .suspended)

/-- The time of a task that waits for a mutex runs out. -/
theorem timedOut_overdue {r : Runqueue T} {s : TaskState} {v : T} {m : O}
    (hl : Lists (k.left t r ((k.task t).timedOut s))) (hs : s = .rdy ∨ s = .suspended)
    (h : (k.task v).overdue m) :
    ((((k.left t r ((k.task t).timedOut s)).mutexTaskPriReset t).modTask t
      fun x => { x with blkObj := none }).task v).overdue m := by
  have hfacts := (mutexTaskPriReset_repri hl t).facts.1 v
  by_cases hv : v = t
  · subst hv
    rw [Kernel.left_self] at hfacts
    have hself : (((k.left v r ((k.task v).timedOut s)).mutexTaskPriReset v).modTask v
        fun x => { x with blkObj := none }).task v
        = { ((k.left v r ((k.task v).timedOut s)).mutexTaskPriReset v).task v with
          blkObj := none } := Function.update_self ..
    rw [hself]
    refine .inr ⟨hfacts.2.1, ?_⟩
    rw [hfacts.2.2]
    exact hs
  · rw [Kernel.left_of_ne _ hv] at hfacts
    have hother : (((k.left t r ((k.task t).timedOut s)).mutexTaskPriReset t).modTask t
        fun x => { x with blkObj := none }).task v
        = ((k.left t r ((k.task t).timedOut s)).mutexTaskPriReset t).task v :=
      Function.update_of_ne hv ..
    unfold Ktask.overdue
    rw [hother, hfacts.1, hfacts.2.1, hfacts.2.2]
    exact h

/-- The time of a task runs out. -/
theorem tickExpire_overdue (hl : Lists k) (t : T) {v : T} {m : O} (h : (k.task v).overdue m) :
    ((k.tickExpire t).task v).overdue m := by
  have hslept : ∀ r x, (k.task t).waits = none → (k.task t).state ≠ .rdy →
      (k.task t).state ≠ .suspended → ((k.left t r x).task v).overdue m := by
    intro r x hw hs hs'
    have hv : v ≠ t := by
      rintro rfl
      rcases h with h | ⟨-, h | h⟩
      · rw [hw] at h
        cases h
      · exact hs h
      · exact hs' h
    rw [Kernel.left_of_ne _ hv]
    exact h
  cases hs : (k.task t).state with
  | sleep =>
      rcases tickExpire_sleep hl hs with ⟨r, heq, -⟩
      rw [heq]
      exact hslept r _ (Ktask.waits_eq_none (by simp [hs]) (by simp [hs])) (by simp [hs])
        (by simp [hs])
  | sleepSuspended =>
      rw [tickExpire_sleepSuspended hl hs]
      exact hslept k.rq _ (Ktask.waits_eq_none (by simp [hs]) (by simp [hs])) (by simp [hs])
        (by simp [hs])
  | pend =>
      rcases tickExpire_pend hl hs with ⟨r, heq, hr⟩
      rw [heq]
      exact timedOut_overdue (hl.wake (by simp [hs]) hr rfl rfl rfl rfl) (.inl rfl) h
  | pendSuspended =>
      rw [tickExpire_pendSuspended hl hs]
      exact timedOut_overdue (hl.rest (by simp [hs]) (.inl rfl) rfl rfl rfl) (.inr rfl) h
  | seed | rdy | suspended | deleted =>
      unfold Kernel.tickExpire
      rw [hs]
      exact h

/-- The times of tasks run out. -/
theorem foldl_tickExpire_facts (hl : Lists k) (l : List T) :
    Frame k (l.foldl Kernel.tickExpire k) ∧
      ∀ v m, (k.task v).overdue m → ((l.foldl Kernel.tickExpire k).task v).overdue m := by
  induction l generalizing k with
  | nil => exact ⟨.refl k, fun _ _ => id⟩
  | cons t l ih =>
      rcases tickExpire_lists hl t with ⟨hlists, hframe⟩
      rcases ih hlists with ⟨hrest, hover⟩
      exact ⟨hframe.trans hrest, fun v m h => hover v m (tickExpire_overdue hl t h)⟩

omit [DecidableEq O] [Fintype T] [Fintype O] in
/-- The tasks of one priority take turns. -/
theorem timeSliceUpdate_overdue {v : T} {m : O} (h : (k.task v).overdue m) :
    (k.timeSliceUpdate.task v).overdue m := by
  have hslice : ∀ (k : Kernel T O) (t : T) (f : Ktask O → Nat), (k.task v).overdue m →
      ((k.modTask t fun x => { x with timeSlice := f x }).task v).overdue m := by
    intro k t f h
    unfold Kernel.modTask
    dsimp only
    by_cases hv : v = t
    · rw [← hv, Function.update_self]
      exact h
    · rw [Function.update_of_ne hv]
      exact h
  have hturn : ∀ (k : Kernel T O) (t : T), (k.readyListHeadToTail t).task = k.task := by
    intro k t
    unfold Kernel.readyListHeadToTail
    cases k.rq.headToTail (k.task t).prio with
    | none => rfl
    | some r => rfl
  unfold Kernel.timeSliceUpdate
  cases k.rq.list (k.task k.active).prio with
  | nil => exact h
  | cons t rest =>
      dsimp only
      split_ifs
      · exact h
      · exact h
      · exact hslice k t _ h
      · refine hslice _ t _ ?_
        rw [hturn]
        exact hslice k t _ h

/-- No lock returns because its time ran out. -/
theorem tick_accounts (hl : Lists k) (hb : Bounded k) :
    Accounts X k (k.tickListUpdate 1).timeSliceUpdate := by
  have hlists : Lists { k with tickCount := (k.tickCount + 1) % 2 ^ 64 } :=
    ⟨hl.rq, hl.prio, hl.bPrio, hl.wait, hl.waitNodup, hl.tick, hl.tickNodup, hl.timed, hl.idle,
      hl.owner⟩
  have hcount : Frame k { k with tickCount := (k.tickCount + 1) % 2 ^ 64 } :=
    ⟨rfl, rfl, rfl, rfl, rfl, rfl, rfl, fun _ => ⟨_, _, rfl⟩, fun _ => rfl, fun _ => rfl,
      fun _ => rfl, fun _ => rfl, fun _ h => h, fun _ _ h => h⟩
  have hexpired : Frame k (k.tickListUpdate 1) ∧
      ∀ v m, (k.task v).overdue m → ((k.tickListUpdate 1).task v).overdue m := by
    rcases foldl_tickExpire_facts hlists _ with ⟨hframe, hover⟩
    exact ⟨hcount.trans hframe, hover⟩
  rcases hexpired.1.counts with ⟨howns, hobj⟩
  have hturn := timeSliceUpdate_aside (k.tickListUpdate 1)
  refine .of_same hb (fun m v => (hturn.owns m v).trans (howns m v)) ?_ ?_
  · intro m v ho
    rw [hturn.nested m v ((howns m v).mpr ho), (hobj m).1]
  · intro v m _ _ hw hdone
    rcases timeSliceUpdate_overdue (hexpired.2 v m (.inl hw)) with h | h
    · rw [hdone.1] at h
      cases h
    · rw [hdone.2] at h
      cases h.1

end Uncounted

/-! ## Locks and unlocks -/

section Booked

variable {T O : Type} [DecidableEq T] [DecidableEq O] [Fintype T] [Fintype O] {k k' : Kernel T O}
  {a : KernelAct T O} {c : Call T O} {t : T} {m o : O} {ticks : Nat}

/-- The kernel counts the locks and unlocks of a step. -/
structure Booked (k : Kernel T O) (a : KernelAct T O) (k' : Kernel T O) : Prop where
  bounded : Bounded k'
  tally : ∀ t m, k'.live t → (k'.obj m).objType = .mutex →
    k'.tally t m + (if k.released a t m = true then 1 else 0)
      = k.tally t m + if k.locked a t m = true ∨ k.returned k' t m = true then 1 else 0

/-- A step that locks and unlocks nothing. -/
theorem Accounts.booked (h : Accounts k'.live k k') (hlock : ∀ t m, ¬k.locked a t m = true)
    (hrel : ∀ t m, ¬k.released a t m = true) : Booked k a k' := by
  refine ⟨h.bounded, ?_⟩
  intro t m ht hm
  have hiff : (k.locked a t m = true ∨ k.returned k' t m = true) ↔ k.returned k' t m = true :=
    or_iff_right (hlock t m)
  rw [if_neg (hrel t m), Nat.add_zero, if_congr hiff rfl rfl]
  exact h.tally t m ht hm

/-- The choice of the next task changes no count. -/
theorem Booked.sched (h : Booked k a k') : Booked k a k'.coreSched := by
  rcases coreSched_same k' with ⟨htask, hobj, -⟩
  refine ⟨?_, ?_⟩
  · intro m t ho
    unfold Kernel.owns at ho
    rw [hobj] at ho ⊢
    exact h.bounded m t ho
  · intro t m ht hm
    unfold Kernel.live at ht
    rw [htask] at ht
    rw [hobj] at hm
    have htally := h.tally t m ht hm
    unfold Kernel.tally Kernel.returned at htally ⊢
    rw [htask, hobj]
    exact htally

theorem locked_status (h : k.locked (.call c) t m = true) :
    c.locks ∧ ((k.call c).1 = some .success ∨ (k.call c).1 = some .mutexOwnerNested) := by
  cases c with
  | mutexLock o ticks =>
      unfold Kernel.locked at h
      rw [decide_eq_true_iff] at h
      exact ⟨trivial, h.2.2⟩
  | _ => cases h

theorem released_status (h : k.released (.call c) t m = true) :
    c.locks ∧ ((k.call c).1 = some .success ∨ (k.call c).1 = some .mutexOwnerNested) := by
  cases c with
  | mutexUnlock o =>
      unfold Kernel.released at h
      rw [decide_eq_true_iff] at h
      exact ⟨trivial, h.2.2⟩
  | _ => cases h

/-- A call that is refused, or is no lock or unlock. -/
theorem Accounts.booked_call (h : Accounts k'.live k k')
    (hst : c.locks → (k.call c).1 ≠ some .success ∧ (k.call c).1 ≠ some .mutexOwnerNested) :
    Booked k (.call c) k' := by
  refine h.booked ?_ ?_
  · intro t m hlock
    rcases locked_status hlock with ⟨hc, hs | hs⟩
    · exact (hst hc).1 hs
    · exact (hst hc).2 hs
  · intro t m hrel
    rcases released_status hrel with ⟨hc, hs | hs⟩
    · exact (hst hc).1 hs
    · exact (hst hc).2 hs

omit [DecidableEq T] [Fintype T] [Fintype O] in
theorem not_returned_of_waits (h : (k'.task t).waits = (k.task t).waits) :
    ¬k.returned k' t m = true := by
  rw [returned_iff, h]
  rintro ⟨-, hw, hnone, -⟩
  rw [hw] at hnone
  cases hnone

/-- The active task has one lock more. -/
theorem lock_booked (hb : Bounded k)
    (hst : (k.mutexLock o ticks).1 = some .success ∨
      (k.mutexLock o ticks).1 = some .mutexOwnerNested)
    (howns : ∀ m v, k'.owns m v ↔ (m ≠ o ∧ k.owns m v) ∨ m = o ∧ v = k.active)
    (honly : ∀ v, k.owns o v → v = k.active)
    (hnested : ∀ m, m ≠ o → (k'.obj m).ownerNested = (k.obj m).ownerNested)
    (hone : (k'.obj o).ownerNested = k.tally k.active o + 1)
    (hlt : k.tally k.active o + 1 < 2 ^ 32)
    (hwaits : ∀ v, (k'.task v).waits = (k.task v).waits) :
    Booked k (.call (.mutexLock o ticks)) k' := by
  -- The one success of this step is the lock of the caller.
  have hlocked : ∀ v m, k.locked (.call (.mutexLock o ticks)) v m = true ↔
      o = m ∧ v = k.active := by
    intro v m
    unfold Kernel.locked
    rw [decide_eq_true_iff]
    exact ⟨fun h => ⟨h.1, h.2.1⟩, fun h => ⟨h.1, h.2, hst⟩⟩
  refine ⟨?_, ?_⟩
  · intro m v ho
    rcases (howns m v).mp ho with ⟨hm, hold⟩ | ⟨rfl, -⟩
    · rw [hnested m hm]
      exact hb m v hold
    · rw [hone]
      exact ⟨Nat.succ_pos _, hlt⟩
  · intro v m _ _
    have hrel : ¬k.released (.call (.mutexLock o ticks)) v m = true := by
      unfold Kernel.released
      simp
    have hiff : (k.locked (.call (.mutexLock o ticks)) v m = true ∨ k.returned k' v m = true) ↔
        o = m ∧ v = k.active := by
      rw [or_iff_left (not_returned_of_waits (hwaits v))]
      exact hlocked v m
    rw [if_neg hrel, Nat.add_zero, if_congr hiff rfl rfl]
    -- Of all tallies that one changes, by one.
    by_cases hm : m = o
    · subst hm
      by_cases hv : v = k.active
      · rw [hv, if_pos ⟨rfl, rfl⟩, tally_of_owns ((howns m _).mpr (.inr ⟨rfl, rfl⟩)), hone]
      · have hnot : ¬k'.owns m v := by
          intro ho
          rcases (howns m v).mp ho with ⟨hne, -⟩ | ⟨-, he⟩
          · exact hne rfl
          · exact hv he
        rw [if_neg fun h => hv h.2, tally_of_not_owns hnot,
          tally_of_not_owns fun ho => hv (honly v ho)]
    · rw [if_neg fun h => hm h.1.symm, Nat.add_zero]
      refine tally_congr ?_ fun _ => hnested m hm
      rw [howns m v]
      simp [hm]

/-- The active task has one lock less, and at least one. -/
theorem unlockNested_booked (hb : Bounded k) (ho : k.owns o k.active)
    (hst : (k.mutexUnlock o).1 = some .mutexOwnerNested)
    (howns : ∀ m v, k'.owns m v ↔ k.owns m v)
    (hnested : ∀ m, m ≠ o → (k'.obj m).ownerNested = (k.obj m).ownerNested)
    (hone : (k'.obj o).ownerNested + 1 = (k.obj o).ownerNested)
    (hpos : 0 < (k'.obj o).ownerNested) (hwaits : ∀ v, (k'.task v).waits = (k.task v).waits) :
    Booked k (.call (.mutexUnlock o)) k' := by
  have hreleased : ∀ v m, k.released (.call (.mutexUnlock o)) v m = true ↔
      o = m ∧ v = k.active := by
    intro v m
    unfold Kernel.released
    rw [decide_eq_true_iff]
    exact ⟨fun h => ⟨h.1, h.2.1⟩, fun h => ⟨h.1, h.2, .inr hst⟩⟩
  refine ⟨?_, ?_⟩
  · intro m v hv
    have hold := hb m v ((howns m v).mp hv)
    by_cases hm : m = o
    · subst hm
      exact ⟨hpos, by omega⟩
    · rw [hnested m hm]
      exact hold
  · intro v m _ _
    have hnone : ¬(k.locked (.call (.mutexUnlock o)) v m = true ∨ k.returned k' v m = true) := by
      rintro (h | h)
      · cases h
      · exact not_returned_of_waits (hwaits v) h
    rw [if_neg hnone, Nat.add_zero, if_congr (hreleased v m) rfl rfl]
    by_cases hm : m = o
    · subst hm
      by_cases hv : v = k.active
      · rw [hv, if_pos ⟨rfl, rfl⟩, tally_of_owns ((howns m _).mpr ho), tally_of_owns ho, hone]
      · have hnot : ¬k.owns m v := by
          intro h
          exact hv (Option.some.inj (h.2.symm.trans ho.2))
        rw [if_neg fun h => hv h.2, tally_of_not_owns hnot,
          tally_of_not_owns fun h => hnot ((howns m v).mp h)]
    · rw [if_neg fun h => hm h.1.symm, Nat.add_zero]
      exact tally_congr (howns m v) fun _ => hnested m hm

/-- The last unlock frees a mutex, and a task it goes to has it once. -/
theorem unlocked_parts (hl : Lists k) (hidle : k.active ≠ k.idle) (o : O) :
    ∃ k2, Lists k2 ∧ (∀ v, (k2.task v).waits = (k.task v).waits) ∧
      (∀ m v, k2.owns m v ↔ k.owns m v) ∧
      (∀ m, m ≠ o → (k2.obj m).ownerNested = (k.obj m).ownerNested) ∧
      (k.unlocked o).task = (k2.freeMutex o).task ∧
      (∀ m v, (k.unlocked o).owns m v ↔ (k2.freeMutex o).owns m v) ∧
      (∀ m, m ≠ o → ((k.unlocked o).obj m).ownerNested = ((k2.freeMutex o).obj m).ownerNested) ∧
      ((k2.obj o).blkList ≠ [] → ((k.unlocked o).obj o).ownerNested = 1) := by
  have hlzero : Lists (k.modObj o fun x => { x with ownerNested := 0 }) := hl.modObj rfl (hl.owner o)
  rcases mutexRelease_lists hlzero (t := k.active) hidle (some o) with ⟨hlrel, hframe⟩
  have hzero : ∀ m, m ≠ o → (k.modObj o fun x => { x with ownerNested := 0 }).obj m = k.obj m :=
    fun m hm => Function.update_of_ne hm ..
  refine ⟨_, hlrel, mutexRelease_waits hlzero hidle (some o), ?_, ?_, ?_⟩
  · intro m v
    rw [hframe.counts.1 m v]
    exact owns_modObj rfl rfl m v
  · intro m hm
    rw [(hframe.counts.2 m).1, hzero m hm]
  · unfold Kernel.unlocked Kernel.freeMutex
    dsimp only
    generalize (k.modObj o fun x => { x with ownerNested := 0 }).mutexRelease k.active (some o) = k2
    cases hblk : (k2.obj o).blkList with
    | nil => exact ⟨rfl, fun _ _ => Iff.rfl, fun _ _ => rfl, fun h => absurd rfl h⟩
    | cons u rest =>
        refine ⟨rfl, owns_modObj rfl rfl, ?_, ?_⟩
        · intro m hm
          unfold Kernel.modObj
          dsimp only
          rw [Function.update_of_ne hm]
        · intro _
          unfold Kernel.modObj
          dsimp only
          rw [Function.update_self]

theorem unlocked_booked (hl : Lists k) (hb : Bounded k) (hs : (k.task k.active).state = .rdy)
    (hidle : k.active ≠ k.idle) (ho : k.owns o k.active) (hone : (k.obj o).ownerNested = 1)
    (hst : (k.mutexUnlock o).1 = some .success) :
    Booked k (.call (.mutexUnlock o)) (k.unlocked o) := by
  rcases unlocked_parts hl hidle o with
    ⟨k2, hl2, hwaits2, howns2, hnested2, htask, howns, hnested, hfirst⟩
  have hf := freeMutex_freed hl2 o
  generalize k.unlocked o = k' at *
  generalize k2.freeMutex o = k3 at *
  have hreleased : ∀ v m, k.released (.call (.mutexUnlock o)) v m = true ↔
      o = m ∧ v = k.active := by
    intro v m
    unfold Kernel.released
    rw [decide_eq_true_iff]
    exact ⟨fun h => ⟨h.1, h.2.1⟩, fun h => ⟨h.1, h.2, .inl hst⟩⟩
  have hhead : ∀ v, (k2.obj o).blkList.head? = some v → (k.task v).waits = some o ∧
      v ≠ k.active ∧ (k'.obj o).ownerNested = 1 := by
    intro v hv
    have hmem := List.mem_of_mem_head? hv
    have hw : (k.task v).waits = some o := (hwaits2 v).symm.trans ((hl2.wait v o).mp hmem)
    refine ⟨hw, ?_, hfirst (List.ne_nil_of_mem hmem)⟩
    rintro rfl
    exact Ktask.state_ne_rdy hw hs
  have hm2 : (k2.obj o).objType = .mutex := ((howns2 o k.active).mpr ho).1
  have hown : ∀ m v, k'.owns m v ↔ (m ≠ o ∧ k.owns m v) ∨
      m = o ∧ (k2.obj o).blkList.head? = some v := by
    intro m v
    rw [howns m v, hf.owns m v, howns2 m v]
    simp [hm2]
  have hkeep : ∀ m, m ≠ o → (k'.obj m).ownerNested = (k.obj m).ownerNested := by
    intro m hm
    rw [hnested m hm, hf.nested m, hnested2 m hm]
  -- The first task that waited returns with the mutex, and no other.
  have hreturned : ∀ v m, k.returned k' v m = true ↔
      m = o ∧ (k2.obj o).blkList.head? = some v := by
    intro v m
    rw [returned_iff, htask]
    constructor
    · rintro ⟨-, hw, hnone, -⟩
      have hv : (k2.obj o).blkList.head? = some v := by
        by_contra hne
        rw [hf.other v hne, hwaits2, hw] at hnone
        cases hnone
      rw [(hhead v hv).1, Option.some.injEq] at hw
      exact ⟨hw.symm, hv⟩
    · rintro ⟨rfl, hv⟩
      exact ⟨ho.1, (hhead v hv).1, hf.first v hv⟩
  refine ⟨?_, ?_⟩
  · intro m v hv
    rcases (hown m v).mp hv with ⟨hm, hold⟩ | ⟨rfl, hh⟩
    · rw [hkeep m hm]
      exact hb m v hold
    · rw [(hhead v hh).2.2]
      simp
  · intro v m _ _
    have hiff : (k.locked (.call (.mutexUnlock o)) v m = true ∨ k.returned k' v m = true) ↔
        m = o ∧ (k2.obj o).blkList.head? = some v := by
      rw [← hreturned v m]
      refine or_iff_right ?_
      intro h
      cases h
    rw [if_congr (hreleased v m) rfl rfl, if_congr hiff rfl rfl]
    by_cases hm : m = o
    · subst hm
      by_cases hh : (k2.obj m).blkList.head? = some v
      · rcases hhead v hh with ⟨-, hv, hnew⟩
        have hnot : ¬k.owns m v := by
          intro h
          exact hv (Option.some.inj (h.2.symm.trans ho.2))
        rw [if_neg fun h => hv h.2, if_pos ⟨rfl, hh⟩, tally_of_not_owns hnot,
          tally_of_owns ((hown m v).mpr (.inr ⟨rfl, hh⟩)), hnew]
      · have hnot : ¬k'.owns m v := by
          intro h
          rcases (hown m v).mp h with ⟨hne, -⟩ | ⟨-, h⟩
          · exact hne rfl
          · exact hh h
        have hnone : ¬(m = m ∧ (k2.obj m).blkList.head? = some v) := fun h => hh h.2
        rw [if_neg hnone, tally_of_not_owns hnot]
        by_cases hv : v = k.active
        · rw [hv, if_pos ⟨rfl, rfl⟩, tally_of_owns ho, hone]
        · have hold : ¬k.owns m v := by
            intro h
            exact hv (Option.some.inj (h.2.symm.trans ho.2))
          rw [if_neg fun h => hv h.2, tally_of_not_owns hold]
    · rw [if_neg fun h => hm h.1.symm, if_neg fun h => hm h.1, Nat.add_zero, Nat.add_zero]
      refine tally_congr ?_ fun _ => hkeep m hm
      rw [hown m v]
      simp [hm]

end Booked

/-! ## Steps -/

section Steps

variable {T O : Type} [DecidableEq T] [DecidableEq O] [Fintype T] [Fintype O] {k k' : Kernel T O}

omit [Fintype T] [Fintype O] in
/-- A plain call that is a lock or unlock was refused. -/
theorem plain_refused {c : Call T O} {st : Option Kstat} {b : Bool} (hp : Plain k c st b k')
    (hstuck : b = false → k'.stuck = false) (hc : c.locks) :
    st ≠ some .success ∧ st ≠ some .mutexOwnerNested := by
  cases hp with
  | refused hs hn => exact ⟨by simpa using hs, by simpa using hn⟩
  | hangs => cases hstuck rfl
  | restate h | adjust h | schedLock h | objCreate h | objDel h | stock h | give h | wait h =>
      exact absurd hc h
  | _ => exact absurd hc id

omit [DecidableEq O] [Fintype T] [Fintype O] in
/-- A count of locks that is not the largest. -/
theorem tally_lt (hb : Bounded k) {o : O} {t : T} (h : (k.obj o).ownerNested ≠ 2 ^ 32 - 1) :
    k.tally t o + 1 < 2 ^ 32 := by
  by_cases ho : k.owns o t
  · rw [tally_of_owns ho]
    have hlt := (hb o t ho).2
    omega
  · rw [tally_of_not_owns ho]
    simp

omit [Fintype T] [Fintype O] in
theorem gives_objType (hl : Lists k) {o : O} (hg : Gives k o k') (m : O) :
    (k'.obj m).objType = (k.obj m).objType := by
  cases hg with
  | keep hm hf hblk =>
      unfold Kernel.modObj
      dsimp only
      by_cases he : m = o
      · rw [he, Function.update_self, hf.objType]
      · rw [Function.update_of_ne he]
  | wake hm hsub hf => exact ((wakeAll_lists hl hf _).2.counts.2 m).2

/-- A task is deleted, and `g_res_sem` is given first. -/
theorem dynDel_accounts {g : Kernel T O} {t : T} (hsound : Sound k) (h : Inherits k.owns k.live k)
    (hb : Bounded k) (hidle : t ≠ k.idle) (hs : (k.task t).state ≠ .deleted)
    (hone : ∀ m, k.owns m t → (k.obj m).blkList ≠ [] → (k.obj m).ownerNested = 1) {o : O}
    (hg : Gives k o g) : Accounts (g.ended t).live k (g.ended t) := by
  have hl := hsound.lists
  rcases gives_sound hsound hg with ⟨hgsound, hkeeps⟩
  have haside := gives_aside hl hg
  have hbg : Bounded g := (haside.accounts hsound.toPatient.awaited hb fun _ => True).bounded
  refine haside.accounts_trans hsound.toPatient.awaited hgsound.toPatient.awaited
    (gives_objType hl hg) (ended_accounts hgsound.toPatient (h.aside haside) hbg ?_ ?_ ?_)
  · rw [hkeeps.idle]
    exact hidle
  · intro hdel
    exact absurd ((haside.deleted _).mp hdel) hs
  · intro m hown hblk
    -- Who waits for the mutex waited for it before.
    have hold := (haside.owns m t).mp hown
    rcases List.exists_mem_of_ne_nil _ hblk with ⟨v, hv⟩
    have hw := (haside.blocked v m t hold).mp ((hgsound.lists.wait v m).mp hv)
    rw [haside.nested m t hold]
    exact hone m hold (List.ne_nil_of_mem ((hl.wait v m).mpr hw))

/-- What every effect counts. -/
theorem effect_booked {c : Call T O} {b : Bool} (hsound : Sound k)
    (h : Inherits k.owns k.live k) (hb : Bounded k)
    (hcaller : k.intrptNested = 0 → Kernel.beforeStart c = true ∨ k.active ≠ k.idle)
    (hcond : k.untouched (.call c))
    (hone : ∀ t, k.deletes c = some t → ∀ m, k.owns m t → (k.obj m).blkList ≠ [] →
      (k.obj m).ownerNested = 1)
    (hstuck : b = false → k'.stuck = false) {st : Option Kstat} (hst : (k.call c).1 = st)
    (he : Effect k c st b k') : Booked k (.call c) k' := by
  have hl := hsound.lists
  have ha := hsound.toPatient.awaited
  have hrdy : k.intrptNested = 0 → (k.task k.active).state = .rdy :=
    fun hn => hsound.active (.inl hn)
  cases he with
  | plain hp =>
      refine ((plain_aside hsound hcaller hp).accounts ha hb _).booked_call fun hc => ?_
      rw [hst]
      exact plain_refused hp hstuck hc
  | create hnew hprio => exact (created_accounts hl hb _ _ _ hnew hprio).booked_call fun hc => hc.elim
  | @priChange t pri limit ht hpri hs hlimit =>
      have hlt : pri < priMax := by
        unfold idlePri at hpri
        omega
      have hle : limit ≤ pri := by
        unfold Kernel.mutexPriLimit at hlimit
        rcases Option.map_eq_some_iff.mp hlimit with ⟨l, -, rfl⟩
        exact lookPri_le k l pri
      exact (priChange_accounts hl hb (hsound.ne_idle_of_prio (by omega)) hlt
        (hle.trans_lt hlt)).booked_call fun hc => hc.elim
  | taskDel hn ht hact hd =>
      exact (ended_accounts hsound.toPatient h hb (hsound.ne_idle_of_prio ht) (hcond _ _ rfl hd)
        (hone _ hd)).booked_call fun hc => hc.elim
  | taskDynDel hn ht hact hs hd hg =>
      exact (dynDel_accounts hsound h hb (hsound.ne_idle_of_prio ht) hs (hone _ hd)
        hg).booked_call fun hc => hc.elim
  | mutexDel hm => exact (mutexDel_accounts hl ha hb).booked_call fun hc => hc.elim
  | @lockNested o ticks hn hm ho hov =>
      -- The owner locks once more: one more on its tally, no change of owner.
      have hown : k.owns o k.active := ⟨hm, ho⟩
      have honly : ∀ v, k.owns o v → v = k.active := fun v hv => h.unique o _ v hown hv
      refine lock_booked hb (.inr hst) ?_ honly ?_ ?_ (tally_lt hb hov) fun _ => rfl
      · intro m v
        rw [owns_modObj (f := fun x => { x with ownerNested := x.ownerNested + 1 }) rfl rfl m v]
        by_cases he : m = o
        · subst he
          refine ⟨fun hv => .inr ⟨rfl, honly v hv⟩, ?_⟩
          rintro (⟨hne, -⟩ | ⟨-, rfl⟩)
          · exact absurd rfl hne
          · exact hown
        · simp [he]
      · intro m he
        unfold Kernel.modObj
        dsimp only
        rw [Function.update_of_ne he]
      · rw [tally_of_owns hown]
        unfold Kernel.modObj
        dsimp only
        rw [Function.update_self]
  | @lockFree o ticks hn hm ho =>
      -- A mutex that nobody owns gets its first lock.
      have hfree : ∀ v, ¬k.owns o v := by
        intro v hv
        rw [hv.2] at ho
        cases ho
      have hzero : k.tally k.active o = 0 := tally_of_not_owns (hfree _)
      refine lock_booked hb (.inl hst) ?_ (fun v hv => absurd hv (hfree v)) ?_ ?_ ?_ ?_
      · intro m v
        rw [owns_modObj (k := k.giveMutex o k.active) (o := o)
          (f := fun x => { x with ownerNested := 1 }) rfl rfl m v, giveMutex_owns]
        simp [hm]
      · intro m he
        refine Eq.trans ?_ (giveMutex_ownerNested k o k.active m)
        unfold Kernel.modObj
        dsimp only
        rw [Function.update_of_ne he]
      · rw [hzero]
        unfold Kernel.modObj
        dsimp only
        rw [Function.update_self]
      · rw [hzero]
        simp
      · intro v
        exact (giveMutex_facts k o k.active v).2.1
  | @lockWait o w ticks hn hlock hm ho hw =>
      refine (lockWait_accounts hl hb (hrdy hn)
        ((hcaller hn).resolve_left (by simp [Kernel.beforeStart])) ⟨hm, ho⟩ ticks).booked_call
        fun _ => ?_
      rw [hst]
      simp
  | @unlockNested o n hn hm ho hnest hpos =>
      -- One lock of several is given back: the tally goes down and stays above zero.
      have hbound := hb o k.active ⟨hm, ho⟩
      have hself : ((k.modObj o fun x => { x with ownerNested := n }).obj o).ownerNested = n := by
        unfold Kernel.modObj
        dsimp only
        rw [Function.update_self]
      refine unlockNested_booked hb ⟨hm, ho⟩ hst (owns_modObj rfl rfl) ?_ ?_ ?_ fun _ => rfl
      · intro m he
        unfold Kernel.modObj
        dsimp only
        rw [Function.update_of_ne he]
      · rw [hself]
        omega
      · rw [hself]
        exact hpos
  | @unlock o b hn hm ho hnest =>
      have hbound := hb o k.active ⟨hm, ho⟩
      exact unlocked_booked hl hb (hrdy hn)
        ((hcaller hn).resolve_left (by simp [Kernel.beforeStart])) ⟨hm, ho⟩ (by omega) hst

/-- What every step counts. -/
theorem step_booked {l : Ledger T O} {a : KernelAct T O} (hsound : Sound l.kernel)
    (h : Inherits l.kernel.owns l.kernel.live l.kernel) (hb : Bounded l.kernel) (hfair : l.fair a)
    (hstep : l.kernel.step a = some k') : Booked l.kernel a k' := by
  have hsame : ∀ k' : Kernel T O, k'.task = l.kernel.task → k'.obj = l.kernel.obj →
      Accounts k'.live l.kernel k' :=
    fun k' htask hobj => (Aside.same htask hobj).accounts hsound.toPatient.awaited hb _
  have hnone : ∀ k', (∀ c, a ≠ .call c) → Accounts k'.live l.kernel k' → Booked l.kernel a k' := by
    intro k' hcall hacc
    refine hacc.booked ?_ ?_
    · intro t m hlock
      cases a with
      | call c => exact hcall c rfl
      | _ => cases hlock
    · intro t m hrel
      cases a with
      | call c => exact hcall c rfl
      | _ => cases hrel
  rcases step_stepped hstep with ⟨hstepped, hstuck⟩
  cases hstepped with
  | @call c hc hcaller =>
      rcases call_effect l.kernel c hc with ⟨b, k1, heff, heq⟩
      have hone := effect_booked hsound h hb hcaller hfair.1 (fun t => hfair.2 c t rfl)
        (by
          intro hbfalse
          rw [heq, hbfalse] at hstuck
          exact hstuck) rfl heff
      rw [heq]
      split_ifs
      · exact hone.sched
      · exact hone
  | start => exact (hnone { l.kernel with running := true } (by simp) (hsame _ rfl rfl)).sched
  | tick => exact hnone _ (by simp) (tick_accounts hsound.lists hb)
  | intrptEnter => exact hnone _ (by simp) (hsame _ rfl rfl)
  | intrptExit hn =>
      exact (hnone { l.kernel with intrptNested := l.kernel.intrptNested - 1 } (by simp)
        (hsame _ rfl rfl)).sched

/-- What the ledger and the kernel agree on. -/
structure Balanced (l : Ledger T O) : Prop where
  sound : Sound l.kernel
  inherits : Inherits l.kernel.owns l.kernel.live l.kernel
  bounded : Bounded l.kernel
  held : ∀ t m, l.held t m = l.kernel.tally t m

omit [Fintype T] [Fintype O] in
theorem init_balanced (idle : T) (resSem : O) : Balanced (Ledger.init idle resSem : Ledger T O) := by
  have hnone : ∀ m t, ¬(Kernel.init idle resSem : Kernel T O).owns m t := by
    intro m t ho
    have htype := ho.1
    unfold Kernel.init at htype
    dsimp only at htype
    by_cases hm : m = resSem
    · rw [hm, Function.update_self] at htype
      cases htype
    · rw [Function.update_of_ne hm] at htype
      cases htype
  refine ⟨init_sound idle resSem, init_inherits idle resSem, ?_, ?_⟩
  · intro m t ho
    exact absurd ho (hnone m t)
  · intro t m
    exact (tally_of_not_owns (hnone m t)).symm

/-- A step keeps the ledger balanced. -/
theorem step_balanced {l l' : Ledger T O} {a : KernelAct T O} (h : Balanced l) (hfair : l.fair a)
    (hstep : l.step a = some l') : Balanced l' := by
  rcases Option.map_eq_some_iff.mp hstep with ⟨k', hk', rfl⟩
  have hbooked := step_booked h.sound h.inherits h.bounded hfair hk'
  have hinherits := step_inherits h.sound h.inherits hfair.1 hk'
  refine ⟨step_sound h.sound hk', hinherits, hbooked.bounded, ?_⟩
  intro t m
  unfold Ledger.after
  dsimp only
  by_cases hgone : (k'.task t).state = .seed ∨ (k'.task t).state = .deleted ∨
      (k'.obj m).objType ≠ .mutex
  · rw [if_pos hgone]
    refine (tally_of_not_owns ?_).symm
    intro ho
    have hlive := hinherits.owner m t ho
    rcases hgone with hs | hs | hm
    · exact hlive.1 hs
    · exact hlive.2 hs
    · exact hm ho.1
  · rw [if_neg hgone, h.held t m]
    rw [not_or, not_or, not_not] at hgone
    have hcount := hbooked.tally t m ⟨hgone.1, hgone.2.1⟩ hgone.2.2
    omega

/-- What a balanced ledger says. -/
theorem Balanced.counted {l : Ledger T O} (h : Balanced l) : Counted l := by
  have howner : ∀ m t, l.kernel.owns m t →
      (l.kernel.obj m).ownerNested = l.held t m ∧ 0 < l.held t m := by
    intro m t ho
    rw [h.held, tally_of_owns ho]
    exact ⟨rfl, (h.bounded m t ho).1⟩
  have hothers : ∀ m t, ¬l.kernel.owns m t → l.held t m = 0 := by
    intro m t ho
    rw [h.held, tally_of_not_owns ho]
  refine ⟨howner, hothers, ?_, ?_⟩
  · intro m t u ht hu
    have hown : ∀ v, 0 < l.held v m → l.kernel.owns m v := by
      intro v hv
      by_contra hnot
      rw [hothers m v hnot] at hv
      exact absurd hv (lt_irrefl 0)
    exact h.inherits.unique m t u (hown t ht) (hown u hu)
  · intro m ho hn
    have hbound := h.bounded m _ ho
    rw [← (howner m _ ho).1]
    unfold Kernel.mutexUnlock
    dsimp only
    -- No test turns the owner away: it is a mutex, and its own.
    rw [if_neg (by omega), if_neg (by simp [ho.1]), if_neg (by simp [ho.2])]
    by_cases hone : (l.kernel.obj m).ownerNested = 1
    · rw [if_pos hone, if_neg (by rw [hone]; simp)]
      split
      · rfl
      · rfl
    · rw [if_neg hone, if_pos (by omega)]
      rfl

end Steps

/-! ## Runs -/

section Runs

variable {T O : Type} [DecidableEq T] [DecidableEq O] [Fintype T] [Fintype O]

/-- The kernel counts the locks that are held after every run that deletes no task which
    holds an awaited mutex more than once, nor one a second time that leads to a mutex in
    use. -/
theorem locks_counted (idle : T) (resSem : O) (as : List (KernelAct T O)) (l : Ledger T O)
    (hfair : Run.Along Ledger.step Ledger.fair (Ledger.init idle resSem) as)
    (h : Run.run Ledger.step (Ledger.init idle resSem) as = some l) : Counted l := by
  have hbalanced : Balanced l :=
    Run.run_inv (fun _ _ _ => step_balanced) as _ _ (init_balanced idle resSem) hfair h
  exact hbalanced.counted

/-- A step deletes no task. -/
def Kernel.keepsTasks (k : Kernel T O) : KernelAct T O → Bool
  | .call c => (k.deletes c).isNone
  | _ => true

omit [DecidableEq O] [Fintype T] [Fintype O] in
theorem fair_of_keepsTasks {l : Ledger T O} {a : KernelAct T O}
    (h : l.kernel.keepsTasks a = true) : l.fair a := by
  have hnone : ∀ c t, a = .call c → l.kernel.deletes c ≠ some t := by
    rintro c t rfl hd
    unfold Kernel.keepsTasks at h
    dsimp only at h
    rw [hd] at h
    cases h
  exact ⟨fun c t ha hd => absurd hd (hnone c t ha), fun c t ha hd => absurd hd (hnone c t ha)⟩

/-- A task locks a mutex twice, another waits for it, and it is unlocked twice. -/
def twiceRun : List (KernelAct (Option Bool) Bool) :=
  [.call (.taskCreate (some false) 20 0 true true), .call (.mutexCreate true true), .start,
    .call (.mutexLock true 0), .call (.mutexLock true 0),
    .call (.taskCreate (some true) 10 0 true true), .call (.mutexLock true waitForever),
    .call (.mutexUnlock true), .call (.mutexUnlock true)]

theorem locks_counted_twiceRun :
    ∃ l, Run.run Ledger.step (Ledger.init none false) twiceRun = some l ∧ Counted l := by
  have hrun : (Run.run Ledger.step (Ledger.init none false) twiceRun).isSome = true := by
    decide +kernel
  have hcond : Run.Along Ledger.step (fun l a => l.kernel.keepsTasks a = true)
      (Ledger.init none false) twiceRun := by decide +kernel
  rcases Option.isSome_iff_exists.mp hrun with ⟨l, hl⟩
  exact ⟨l, hl, locks_counted none false twiceRun l
    (hcond.mono fun _ _ => fair_of_keepsTasks) hl⟩

/-- A task locks a mutex twice, another waits for it, and the first is deleted. -/
def nestedRun : List (KernelAct (Option Bool) Bool) :=
  [.call (.taskCreate (some false) 20 0 true true), .call (.mutexCreate true true), .start,
    .call (.mutexLock true 0), .call (.mutexLock true 0),
    .call (.taskCreate (some true) 10 0 true true), .call (.mutexLock true waitForever),
    .call (.taskDel none)]

/-- The second task then has the mutex once, and it counts as twice. -/
theorem nested_lock_handed_on :
    ¬∀ (as : List (KernelAct (Option Bool) Bool)) (l : Ledger (Option Bool) Bool),
      Run.run Ledger.step (Ledger.init none false) as = some l → Counted l := by
  intro hall
  have hrun : (Run.run Ledger.step (Ledger.init none false) nestedRun).map
      (fun l => ((l.kernel.obj true).objType, (l.kernel.obj true).mutexTask,
        (l.kernel.obj true).ownerNested, l.held (some true) true))
      = some (.mutex, some (some true), 2, 1) := by decide +kernel
  rcases Option.map_eq_some_iff.mp hrun with ⟨l, hl, hval⟩
  simp only [Prod.mk.injEq] at hval
  have howner := (hall nestedRun l hl).owner true (some true) ⟨hval.1, hval.2.1⟩
  rw [hval.2.2.1, hval.2.2.2] at howner
  cases howner.1

end Runs

end Rhino

end Wujian100
