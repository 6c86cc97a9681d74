import Wujian100.Core.Rhino.MmLock
import Wujian100.Library.Run

/-!
# A Heap That Two Tasks Are In

`csi_kernel_malloc` and `csi_kernel_free` suspend the scheduler and then lock the heap's
mutex. A mutex that another task owns can not be waited for then, `krhino_mutex_lock`
returns `RHINO_SCHED_DISABLE`, and the heap is changed all the same. As long as no lock is
refused so, a task is in the heap only with the mutex.

## Main definitions

* `Nested`: Locks and unlocks of a call match, and the heap is between them.
* `MmLock.Owned`: Who is in the heap has the mutex.
* `MmLock.refused`: The lock that is refused.

## Theorems

* `code_nested`: What the calls are like.
* `step_mmInv`: What every other step keeps.
* `heap_owned_iff`: The heap's tasks own it exactly in the runs without such a lock.
-/

namespace Wujian100

namespace Rhino

/-! ## Calls -/

/-- Locks and unlocks match, where there are `d` locks already, and the heap is touched
    under a lock only. -/
def Nested : Nat → List MmInstr → Prop
  | d, [] => d = 0
  | d, .schedSuspend :: rest | d, .schedResume :: rest => Nested d rest
  | d, .mutexLock :: rest => rest.head? = some .heap ∧ Nested (d + 1) rest
  | d, .pendEnd :: rest => rest.head? = some .heap ∧ Nested d rest
  | d, .heap :: rest => 0 < d ∧ Nested d rest
  | 0, .mutexUnlock :: _ => False
  | d + 1, .mutexUnlock :: rest => Nested d rest

theorem heapPart_nested {d : Nat} (hd : 0 < d) (n : Nat) {rest : List MmInstr} (h : Nested d rest) :
    Nested d (heapPart n ++ rest) := by
  unfold heapPart
  induction n with
  | zero => exact ⟨hd, h⟩
  | succ n ih => exact ⟨hd, ih⟩

theorem kMmAlloc_nested (d n : Nat) {rest : List MmInstr} (h : Nested d rest) :
    Nested d (kMmAlloc n ++ rest) := by
  unfold kMmAlloc
  simp only [List.cons_append, List.append_assoc]
  exact ⟨rfl, heapPart_nested (Nat.succ_pos d) n h⟩

theorem flatMap_nested (d : Nat) (blocks : List Nat) {rest : List MmInstr} (h : Nested d rest) :
    Nested d (blocks.flatMap kMmAlloc ++ rest) := by
  induction blocks with
  | nil => exact h
  | cons n blocks ih =>
      rw [List.flatMap_cons, List.append_assoc]
      exact kMmAlloc_nested d n ih

theorem kMmRealloc_nested (path : ReallocPath) : Nested 0 (kMmRealloc path) := by
  have hend : Nested 1 [.mutexUnlock] := rfl
  cases path with
  | inPlace n => exact ⟨rfl, heapPart_nested Nat.one_pos n hend⟩
  | noMemory n alloc =>
      simp only [kMmRealloc, List.cons_append, List.append_assoc]
      exact ⟨rfl, heapPart_nested Nat.one_pos n (kMmAlloc_nested 1 alloc hend)⟩
  | fromFixed n alloc copy =>
      simp only [kMmRealloc, List.cons_append, List.append_assoc]
      exact ⟨rfl, heapPart_nested Nat.one_pos n
        (kMmAlloc_nested 1 alloc (heapPart_nested Nat.one_pos copy hend))⟩
  | moved n alloc copy free =>
      simp only [kMmRealloc, List.cons_append, List.append_assoc]
      exact ⟨rfl, heapPart_nested Nat.one_pos n (kMmAlloc_nested 1 alloc
        (heapPart_nested Nat.one_pos copy (kMmAlloc_nested 1 free hend)))⟩
  | allocOnly alloc => exact ⟨rfl, heapPart_nested Nat.one_pos alloc hend⟩
  | freeOnly free => exact ⟨rfl, heapPart_nested Nat.one_pos free hend⟩

/-- Every call locks before it touches the heap, and unlocks as often. -/
theorem code_nested (e : MmEntry) : Nested 0 e.code := by
  have hresume : Nested 0 [.schedResume] := rfl
  cases e with
  | csiMalloc n => exact kMmAlloc_nested 0 n hresume
  | csiFree n => exact kMmAlloc_nested 0 n hresume
  | csiRealloc path => exact kMmRealloc_nested path
  | direct blocks =>
      have h : Nested 0 (blocks.flatMap kMmAlloc ++ []) := flatMap_nested 0 blocks rfl
      rwa [List.append_nil] at h
  | csiTaskNew blocks => exact flatMap_nested 0 blocks hresume

/-! ## States -/

namespace MmLock

section Inv

variable {T : Type}

/-- The next thing a task does is to touch the heap. -/
def inside (s : MmLock T) (t : T) : Prop := (s.code t).head? = some .heap

/-- Who is in the heap has the mutex, and is there alone. -/
def Owned (s : MmLock T) : Prop :=
  (∀ t, s.inside t → s.mutexTask = some t) ∧ ∀ t u, s.inside t → s.inside u → u = t

/-- The active task locks the mutex, which another task owns, with the scheduler
    suspended. -/
def refused (s : MmLock T) : MmAct T → Prop
  | .exec _ => (s.code s.active).head? = some .mutexLock ∧ 0 < s.schedLock ∧ s.mutexTask ≠ none ∧
      s.mutexTask ≠ some s.active
  | _ => False

variable [DecidableEq T]

/-- The locks of a task, one for those that wait and will have it. -/
def depth (s : MmLock T) (t : T) : Nat :=
  if t ∈ s.blkList then 1 else if s.mutexTask = some t then s.ownerNested else 0

/-- What holds as long as no lock was refused. -/
structure Inv (s : MmLock T) : Prop where
  nested : ∀ t, Nested (s.depth t) (s.code t)
  waiting : ∀ t ∈ s.blkList, ∃ rest, s.code t = .pendEnd :: rest
  others : ∀ t ∈ s.blkList, s.mutexTask ≠ some t
  free : s.mutexTask = none → s.blkList = []
  nodup : s.blkList.Nodup
  count : s.mutexTask ≠ none → 0 < s.ownerNested ∧ s.ownerNested < 2 ^ 32

theorem depth_of_mem {s : MmLock T} {t : T} (h : t ∈ s.blkList) : s.depth t = 1 := if_pos h

theorem depth_of_owner {s : MmLock T} {t : T} (h : t ∉ s.blkList) (ho : s.mutexTask = some t) :
    s.depth t = s.ownerNested := by
  unfold depth
  rw [if_neg h, if_pos ho]

theorem depth_of_other {s : MmLock T} {t : T} (h : t ∉ s.blkList) (ho : s.mutexTask ≠ some t) :
    s.depth t = 0 := by
  unfold depth
  rw [if_neg h, if_neg ho]

/-- The locks of the owner are counted. -/
theorem nested_of_owner {s : MmLock T} {t : T} {rest : List MmInstr} (h : t ∉ s.blkList)
    (ho : s.mutexTask = some t) (hn : Nested s.ownerNested rest) : Nested (s.depth t) rest := by
  rw [depth_of_owner h ho]
  exact hn

theorem nested_of_other {s : MmLock T} {t : T} {rest : List MmInstr} (h : t ∉ s.blkList)
    (ho : s.mutexTask ≠ some t) (hn : Nested 0 rest) : Nested (s.depth t) rest := by
  rw [depth_of_other h ho]
  exact hn

theorem Inv.init (t : T) : Inv (init t) := by
  refine ⟨fun _ => rfl, ?_, ?_, fun _ => rfl, List.nodup_nil, fun h => absurd rfl h⟩
  · intro u hu
    cases hu
  · intro u hu
    cases hu

/-- Who is in the heap is under a lock, so it has the mutex. -/
theorem Inv.owned {s : MmLock T} (h : Inv s) : Owned s := by
  have hown : ∀ t, s.inside t → s.mutexTask = some t := by
    intro t ht
    have hnested := h.nested t
    unfold inside at ht
    cases hcode : s.code t with
    | nil =>
        rw [hcode] at ht
        cases ht
    | cons i rest =>
        rw [hcode] at ht hnested
        have hi : i = .heap := Option.some.inj ht
        subst hi
        by_contra hne
        have hnot : t ∉ s.blkList := by
          intro hmem
          rcases h.waiting t hmem with ⟨r, hr⟩
          rw [hcode] at hr
          cases hr
        rw [depth_of_other hnot hne] at hnested
        exact absurd hnested.1 (Nat.lt_irrefl 0)
  refine ⟨hown, ?_⟩
  intro t u ht hu
  have heq := (hown u hu).symm.trans (hown t ht)
  exact Option.some.inj heq

/-- The active task goes on with the rest, and the locks of all others are as they were. -/
theorem Inv.goOn {s s1 : MmLock T} {rest : List MmInstr} (h : Inv s) (hcode : s1.code = s.code)
    (hact : s1.active = s.active) (hdepth : ∀ t, t ≠ s.active → s1.depth t = s.depth t)
    (hnested : Nested (s1.depth s.active) rest)
    (hwait : ∀ t ∈ s1.blkList, t ≠ s.active → t ∈ s.blkList)
    (hself : s.active ∈ s1.blkList → ∃ r, rest = .pendEnd :: r)
    (hothers : ∀ t ∈ s1.blkList, s1.mutexTask ≠ some t)
    (hfree : s1.mutexTask = none → s1.blkList = []) (hnodup : s1.blkList.Nodup)
    (hcount : s1.mutexTask ≠ none → 0 < s1.ownerNested ∧ s1.ownerNested < 2 ^ 32) :
    Inv (s1.goOn rest) := by
  have hself' : (s1.goOn rest).code s.active = rest := by
    unfold MmLock.goOn
    dsimp only
    rw [hact, Function.update_self]
  have hother : ∀ t, t ≠ s.active → (s1.goOn rest).code t = s.code t := by
    intro t ht
    unfold MmLock.goOn
    dsimp only
    rw [hact, Function.update_of_ne ht, hcode]
  refine ⟨?_, ?_, hothers, hfree, hnodup, hcount⟩
  · intro t
    change Nested (s1.depth t) _
    by_cases ht : t = s.active
    · rw [ht, hself']
      exact hnested
    · rw [hother t ht, hdepth t ht]
      exact h.nested t
  · intro t hmem
    by_cases ht : t = s.active
    · rw [ht, hself']
      exact hself (ht ▸ hmem)
    · rw [hother t ht]
      exact h.waiting t (hwait t hmem ht)

/-- The mutex is as it was. -/
theorem Inv.same {s s1 : MmLock T} {rest : List MmInstr} (h : Inv s) (hact : s.active ∉ s.blkList)
    (hcode : s1.code = s.code) (hactive : s1.active = s.active) (htask : s1.mutexTask = s.mutexTask)
    (hcount : s1.ownerNested = s.ownerNested) (hlist : s1.blkList = s.blkList)
    (hnested : Nested (s.depth s.active) rest) : Inv (s1.goOn rest) := by
  have hdepth : ∀ t, s1.depth t = s.depth t := by
    intro t
    unfold depth
    rw [hlist, htask, hcount]
  refine h.goOn hcode hactive (fun t _ => hdepth t) ?_ ?_ ?_ ?_ ?_ ?_ ?_
  · rw [hdepth]
    exact hnested
  · intro t hmem _
    rwa [hlist] at hmem
  · intro hmem
    rw [hlist] at hmem
    exact absurd hmem hact
  · rw [hlist, htask]
    exact h.others
  · rw [hlist, htask]
    exact h.free
  · rw [hlist]
    exact h.nodup
  · rw [htask, hcount]
    exact h.count

end Inv

/-! ## Steps -/

section Steps

variable {T : Type} [DecidableEq T] {s s' : MmLock T}

/-- The mutex is locked, once more or for the first time, or the task waits for it. -/
theorem lock_inv {pos : Nat} {rest : List MmInstr} (h : Inv s) (hact : s.active ∉ s.blkList)
    (hcode : s.code s.active = .mutexLock :: rest) (hok : ¬s.refused (.exec pos))
    (hstep : s.exec pos = some s') : Inv s' := by
  have hnested := h.nested s.active
  rw [hcode] at hnested
  rcases hnested with ⟨hheap, hnested⟩
  unfold exec at hstep
  rw [hcode] at hstep
  dsimp only at hstep
  unfold mutexLock at hstep
  by_cases hown : s.mutexTask = some s.active
  -- The owner locks again: the depth counts one more.
  · rw [if_pos hown] at hstep
    have hbound := h.count (by rw [hown]; simp)
    by_cases hovf : s.ownerNested = 2 ^ 32 - 1
    · rw [if_pos hovf] at hstep
      cases hstep
    · rw [if_neg hovf] at hstep
      cases hstep
      rw [depth_of_owner hact hown] at hnested
      refine h.goOn rfl rfl ?_ ?_ (fun _ hm _ => hm) (fun hm => absurd hm hact) h.others h.free
        h.nodup fun _ => ?_
      · intro t ht
        have hne : s.mutexTask ≠ some t := by
          rw [hown]
          exact fun he => ht (Option.some.inj he).symm
        unfold depth
        dsimp only
        rw [if_neg hne, if_neg hne]
      · exact nested_of_owner hact hown hnested
      · dsimp only
        omega
  · rw [if_neg hown] at hstep
    rw [depth_of_other hact hown] at hnested
    cases hfree : s.mutexTask with
    | none =>
        rw [hfree] at hstep
        cases hstep
        -- A free mutex has no waiting task, so its first owner has depth one.
        have hnil := h.free hfree
        refine h.goOn rfl rfl ?_ ?_ (fun _ hm _ => hm) (fun hm => absurd hm hact) ?_ ?_ h.nodup ?_
        · intro t ht
          unfold depth
          dsimp only
          rw [hfree, if_neg (show ¬some s.active = some t from fun he => ht (Option.some.inj he).symm),
            if_neg (show ¬(none : Option T) = some t by simp)]
        · exact nested_of_owner hact rfl hnested
        · intro t hmem
          rw [hnil] at hmem
          cases hmem
        · intro hnone
          cases hnone
        · intro _
          dsimp only
          omega
    | some w =>
        rw [hfree] at hstep
        dsimp only at hstep
        -- Another owns it. That the scheduler is not suspended is what `hok` gives.
        have hsched : ¬s.schedLock > 0 := by
          intro hpos
          refine hok ⟨by rw [hcode]; rfl, hpos, ?_, hown⟩
          rw [hfree]
          simp
        rw [if_neg hsched] at hstep
        cases hstep
        have hothers := h.others
        have hcount := h.count
        rw [hfree] at hown hothers hcount
        have hle : min pos s.blkList.length ≤ s.blkList.length := Nat.min_le_right _ _
        have hmem : ∀ t, t ∈ s.blkList.insertIdx (min pos s.blkList.length) s.active
            ↔ t = s.active ∨ t ∈ s.blkList := fun t => List.mem_insertIdx hle
        refine h.goOn rfl rfl ?_ ?_ ?_ (fun _ => ⟨rest, rfl⟩) ?_ ?_ ?_ hcount
        · intro t ht
          unfold depth
          dsimp only
          rw [hfree, if_congr ((hmem t).trans (or_iff_right ht)) rfl rfl]
        · rw [depth_of_mem ((hmem _).mpr (.inl rfl))]
          exact ⟨hheap, hnested⟩
        · intro t ht hne
          exact ((hmem t).mp ht).resolve_left hne
        · intro t ht
          rcases (hmem t).mp ht with rfl | hold
          · exact hown
          · exact hothers t hold
        · intro hnone
          cases hnone
        · exact (List.perm_insertIdx s.active s.blkList hle).nodup_iff.mpr
            (List.nodup_cons.mpr ⟨hact, h.nodup⟩)

/-- What the owner's unlock does. -/
theorem mutexUnlock_owner {n : Nat} (hown : s.mutexTask = some s.active)
    (hless : lessNested s.ownerNested = n) :
    s.mutexUnlock.2 = if n > 0 then { s with ownerNested := n } else
      match s.blkList with
      | [] => { s with mutexTask := none, ownerNested := n }
      | u :: rest => { s with mutexTask := some u, ownerNested := 1, blkList := rest } := by
  subst hless
  unfold mutexUnlock
  rw [if_neg (by rw [hown]; simp)]
  dsimp only
  by_cases hpos : lessNested s.ownerNested > 0
  · rw [if_pos hpos, if_pos hpos]
  · rw [if_neg hpos, if_neg hpos]
    cases s.blkList with
    | nil => rfl
    | cons u l => rfl

/-- The mutex is unlocked, and goes to the first task that waits. -/
theorem unlock_inv {rest : List MmInstr} (h : Inv s) (hact : s.active ∉ s.blkList)
    (hcode : s.code s.active = .mutexUnlock :: rest) : Inv (s.mutexUnlock.2.goOn rest) := by
  have hnested := h.nested s.active
  rw [hcode] at hnested
  -- Its own code says that the task holds the mutex.
  have hown : s.mutexTask = some s.active := by
    by_contra hne
    rw [depth_of_other hact hne] at hnested
    exact hnested
  rw [depth_of_owner hact hown] at hnested
  have hbound := h.count (by rw [hown]; simp)
  rcases Nat.exists_eq_succ_of_ne_zero (Nat.ne_of_gt hbound.1) with ⟨n, hn⟩
  rw [hn] at hnested
  have hless : lessNested s.ownerNested = n := by
    rw [hn]
    rfl
  have hne : ∀ t, t ≠ s.active → s.mutexTask ≠ some t := by
    intro t ht he
    rw [hown] at he
    exact ht (Option.some.inj he).symm
  rw [mutexUnlock_owner hown hless]
  by_cases hpos : n > 0
  -- Locked more than once: it stays the owner.
  · rw [if_pos hpos]
    refine h.goOn rfl rfl ?_ ?_ (fun _ hm _ => hm) (fun hm => absurd hm hact) h.others h.free
      h.nodup fun _ => ?_
    · intro t ht
      unfold depth
      dsimp only
      rw [if_neg (hne t ht), if_neg (hne t ht)]
    · exact nested_of_owner hact hown hnested
    · dsimp only
      omega
  · rw [if_neg hpos]
    have hzero : n = 0 := by omega
    subst hzero
    cases hlist : s.blkList with
    | nil =>
        -- Nobody waits: the mutex is free.
        refine h.goOn rfl rfl ?_ ?_ ?_ ?_ ?_ (fun _ => rfl) List.nodup_nil fun hm => absurd rfl hm
        · intro t ht
          unfold depth
          dsimp only
          rw [hlist, if_neg (hne t ht), if_neg (show ¬(none : Option T) = some t by simp)]
        · exact nested_of_other List.not_mem_nil (by simp) hnested
        · intro t hm
          cases hm
        · intro hm
          cases hm
        · intro t hm
          cases hm
    | cons u l =>
        have hnodup := h.nodup
        rw [hlist] at hnodup hact
        rcases List.nodup_cons.mp hnodup with ⟨hu, hl⟩
        have hua : u ≠ s.active := fun he => hact (he ▸ List.mem_cons_self)
        have hone : 0 < 1 ∧ 1 < 2 ^ 32 := by omega
        dsimp only
        refine h.goOn rfl rfl ?_ ?_ ?_ ?_ ?_ ?_ hl fun _ => hone
        · intro t ht
          by_cases htu : t = u
          · -- The task that gets the mutex has one lock now, and had one to come.
            subst htu
            rw [depth_of_owner hu rfl, depth_of_mem (by rw [hlist]; exact List.mem_cons_self)]
          · unfold depth
            dsimp only
            rw [hlist, if_neg (hne t ht),
              if_neg (show ¬some u = some t from fun he => htu (Option.some.inj he).symm),
              if_congr (List.mem_cons.trans (or_iff_right htu)) rfl rfl]
        · exact nested_of_other (fun hm => hact (List.mem_cons_of_mem u hm))
            (fun he => hua (Option.some.inj he)) hnested
        · intro t hm _
          rw [hlist]
          exact List.mem_cons_of_mem u hm
        · intro hm
          exact absurd (List.mem_cons_of_mem u hm) hact
        · intro t hm he
          exact hu (Option.some.inj he ▸ hm)
        · intro hnone
          cases hnone

/-- Every step keeps it, but for the lock that is refused. -/
theorem step_mmInv {a : MmAct T} (h : Inv s) (hok : ¬s.refused a) (hstep : s.step a = some s') :
    Inv s' := by
  cases a with
  | call e =>
      unfold step at hstep
      rcases Option.ite_none_right_eq_some.mp hstep with ⟨⟨hact, hcode⟩, heq⟩
      rw [← Option.some.inj heq]
      have hnested := h.nested s.active
      rw [hcode] at hnested
      refine h.same hact rfl rfl rfl rfl rfl ?_
      rw [hnested]
      exact code_nested e
  | switch t =>
      unfold step at hstep
      rcases Option.ite_none_right_eq_some.mp hstep with ⟨-, heq⟩
      rw [← Option.some.inj heq]
      exact ⟨h.nested, h.waiting, h.others, h.free, h.nodup, h.count⟩
  | exec pos =>
      unfold step at hstep
      rcases Option.ite_none_right_eq_some.mp hstep with ⟨hact, hexec⟩
      have hnested := h.nested s.active
      cases hcode : s.code s.active with
      | nil =>
          unfold exec at hexec
          rw [hcode] at hexec
          cases hexec
      | cons i rest =>
          rw [hcode] at hnested
          cases i with
          -- Only the first two change who holds the mutex.
          | mutexLock => exact lock_inv h hact hcode hok hexec
          | mutexUnlock =>
              unfold exec at hexec
              rw [hcode] at hexec
              cases hexec
              exact unlock_inv h hact hcode
          | schedSuspend =>
              unfold exec at hexec
              rw [hcode] at hexec
              cases hexec
              unfold schedDisable
              split
              · exact h.same hact rfl rfl rfl rfl rfl hnested
              · exact h.same hact rfl rfl rfl rfl rfl hnested
          | schedResume =>
              unfold exec at hexec
              rw [hcode] at hexec
              cases hexec
              unfold schedEnable
              split_ifs
              · exact h.same hact rfl rfl rfl rfl rfl hnested
              · exact h.same hact rfl rfl rfl rfl rfl hnested
              · exact h.same hact rfl rfl rfl rfl rfl hnested
          | pendEnd =>
              unfold exec at hexec
              rw [hcode] at hexec
              cases hexec
              exact h.same hact rfl rfl rfl rfl rfl hnested.2
          | heap =>
              unfold exec at hexec
              rw [hcode] at hexec
              cases hexec
              exact h.same hact rfl rfl rfl rfl rfl hnested.2

/-- A task whose lock is refused is in the heap next. -/
theorem refused_step {a : MmAct T} (h : Inv s) (hrefused : s.refused a) :
    ∃ s', s.step a = some s' ∧ ¬s'.Owned := by
  cases a with
  | call e => cases hrefused
  | switch t => cases hrefused
  | exec pos =>
      rcases hrefused with ⟨hhead, hsched, htask, hown⟩
      cases hcode : s.code s.active with
      | nil =>
          rw [hcode] at hhead
          cases hhead
      | cons i rest =>
          rw [hcode] at hhead
          have hi : i = .mutexLock := Option.some.inj hhead
          subst hi
          -- The task that runs does not wait, so it goes on into the heap without the mutex.
          have hact : s.active ∉ s.blkList := by
            intro hmem
            rcases h.waiting _ hmem with ⟨r, hr⟩
            rw [hcode] at hr
            cases hr
          have hnested := h.nested s.active
          rw [hcode] at hnested
          rcases Option.ne_none_iff_exists'.mp htask with ⟨w, hw⟩
          refine ⟨s.goOn rest, ?_, ?_⟩
          · unfold step
            dsimp only
            rw [if_pos hact]
            unfold exec
            rw [hcode]
            dsimp only
            unfold mutexLock
            rw [if_neg hown, hw]
            dsimp only
            rw [if_pos hsched]
          · intro howned
            refine hown (howned.1 s.active ?_)
            unfold inside goOn
            dsimp only
            rw [Function.update_self]
            exact hnested.1

end Steps

/-! ## Runs -/

section Runs

variable {T : Type} [DecidableEq T]

theorem owned_iff_aux (as : List (MmAct T)) : ∀ s : MmLock T, Inv s →
    ((∀ pre s', pre <+: as → Run.run step s pre = some s' → s'.Owned) ↔
      Run.Along step (fun s a => ¬s.refused a) s as) := by
  -- By induction on the run: up to the first refused lock the invariant holds.
  induction as with
  | nil =>
      intro s hinv
      refine ⟨fun _ => trivial, fun _ pre s' hpre hrun => ?_⟩
      rw [List.prefix_nil.mp hpre] at hrun
      rw [← Option.some.inj hrun]
      exact hinv.owned
  | cons a rest ih =>
      intro s hinv
      constructor
      · intro hall
        have hok : ¬s.refused a := by
          intro hrefused
          rcases refused_step hinv hrefused with ⟨s', hstep, hnot⟩
          refine hnot (hall [a] s' ⟨rest, rfl⟩ ?_)
          rw [Run.run_cons hstep]
          rfl
        refine ⟨hok, fun s1 hstep => (ih s1 (step_mmInv hinv hok hstep)).mp ?_⟩
        intro pre s' hpre hrun
        refine hall (a :: pre) s' (List.cons_prefix_cons.mpr ⟨rfl, hpre⟩) ?_
        rw [Run.run_cons hstep]
        exact hrun
      · intro halong pre s' hpre hrun
        cases pre with
        | nil =>
            rw [← Option.some.inj hrun]
            exact hinv.owned
        | cons b pre =>
            rcases List.cons_prefix_cons.mp hpre with ⟨rfl, hrest⟩
            cases hstep : s.step b with
            | none =>
                simp only [Run.run, hstep] at hrun
                cases hrun
            | some s1 =>
                rw [Run.run_cons hstep] at hrun
                exact (ih s1 (step_mmInv hinv halong.1 hstep)).mpr (halong.2 s1 hstep) pre s' hrest
                  hrun

/-- All along a run a task is in the heap only with the mutex, and alone, exactly if no
    task locks the mutex with the scheduler suspended while another task owns it. -/
theorem heap_owned_iff (t : T) (as : List (MmAct T)) :
    (∀ pre s, pre <+: as → Run.run step (init t) pre = some s → s.Owned) ↔
      Run.Along step (fun s a => ¬s.refused a) (init t) as :=
  owned_iff_aux as (init t) (.init t)

/-- An object is created, and while its block is taken another task calls
    `csi_kernel_malloc`. -/
def twoInHeap : List (MmAct Bool) :=
  [.call (.direct [0]), .exec 0, .switch true, .call (.csiMalloc 0), .exec 0, .exec 0]

/-- Then both are in the heap, and the second does not own it. -/
theorem heap_not_owned :
    ¬∀ (as : List (MmAct Bool)) (s : MmLock Bool),
      Run.run step (init false) as = some s → s.Owned := by
  intro hall
  have hrun : (Run.run step (init false) twoInHeap).map
      (fun s => ((s.code false).head?, (s.code true).head?)) = some (some .heap, some .heap) := by
    decide
  rcases Option.map_eq_some_iff.mp hrun with ⟨s, hs, hval⟩
  rw [Prod.mk.injEq] at hval
  have heq := (hall twoInHeap s hs).2 false true hval.1 hval.2
  cases heq

end Runs

end MmLock

end Rhino

end Wujian100
