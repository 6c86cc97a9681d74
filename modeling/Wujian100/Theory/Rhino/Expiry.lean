import Wujian100.Theory.Rhino.Ticks
import Wujian100.Theory.Rhino.Timer
import Mathlib.Data.Fintype.Option
import Mathlib.Tactic.Ring

/-!
# Time Runs Out

The kernel compares times in two ways, as unsigned differences where it sorts and
as signed ones where it looks for what is due. `Wait` is the history the two are
measured against: how long a task asked to wait, and how many ticks have passed
since. The counter of ticks may start anywhere and wrap around.

## Main definitions

* `Wait`, `Timed`: The kernel with the waits its tasks began.
* `TicksOk`: What the list of ticks should be.
* `Expires`: What an update does to the tasks.

## Theorems

* `tickListUpdate_expired`: The tasks an update finds are those whose time ran out.
* `timed_inv`: The list is what it should be after every step.
* `ticks_exact`: And in every run.
-/

namespace Wujian100

namespace Rhino

/-! ## Waits -/

/-- A wait with a timeout, and the ticks since it began. -/
structure Wait where
  timeout : Nat
  elapsed : Nat
deriving DecidableEq, Repr

/-- Ticks pass. -/
def Wait.pass (n : Nat) (x : Wait) : Wait :=
  { x with elapsed := x.elapsed + n }

/-- The state of a task whose time ran out. -/
def TaskState.expired : TaskState → TaskState
  | .sleep | .pend => .rdy
  | .sleepSuspended | .pendSuspended => .suspended
  | s => s

/-- What a task whose time ran out is told. -/
def TaskState.verdict : TaskState → BlkState
  | .pend | .pendSuspended => .timeout
  | _ => .finish

variable {T O : Type}

/-- The wait that a call begins, if its task waits; none where it waits for ever. -/
def Call.begins : Call T O → Option Wait
  | .taskSleep ticks => some ⟨ticks, 0⟩
  | c => (c.timeout.filter (· ≠ waitForever)).map fun ticks => ⟨ticks, 0⟩

/-- What is left of a task's time, as the list is sorted by it. -/
def Kernel.remaining (k : Kernel T O) (t : T) : Nat :=
  timeSub (k.task t).tickMatch k.tickCount

/-- The kernel with the waits its tasks began last. -/
structure Timed (T O : Type) where
  kernel : Kernel T O
  wait : T → Option Wait

/-- A task waits with a timeout. -/
def Timed.waits (s : Timed T O) (t : T) (x : Wait) : Prop :=
  (s.kernel.task t).state.timed ∧ s.wait t = some x

/-- What the list of ticks should be: the tasks that wait with a timeout, sorted by
    what is left of it, and none whose time has come. -/
structure TicksOk (s : Timed T O) : Prop where
  mem : ∀ t, t ∈ s.kernel.tickHead ↔ ∃ x, s.waits t x
  nodup : s.kernel.tickHead.Nodup
  sorted : s.kernel.tickHead.Pairwise fun t u => s.kernel.remaining t ≤ s.kernel.remaining u
  left : ∀ t x, s.waits t x →
    x.elapsed < x.timeout ∧ s.kernel.remaining t = x.timeout - x.elapsed

/-- What an update by so many ticks does: a task whose time they complete is ready,
    or suspended if it was that too, and all others are as they were. -/
structure Expires (n : Nat) (s s' : Timed T O) : Prop where
  woken : ∀ t x, s.waits t x → x.timeout ≤ x.elapsed + n →
    (s'.kernel.task t).state = (s.kernel.task t).state.expired ∧
      (s'.kernel.task t).blkState = (s.kernel.task t).state.verdict
  other : ∀ t, (∀ x, s.waits t x → x.elapsed + n < x.timeout) →
    (s'.kernel.task t).state = (s.kernel.task t).state ∧
      (s'.kernel.task t).blkState = (s.kernel.task t).blkState

/-! ## Times -/

/-- Time passes that does not reach what lies ahead. -/
theorem timeSub_pass {m c n : Nat} (hc : c < 2 ^ 64) (hn : n ≤ timeSub m c) :
    timeSub m ((c + n) % 2 ^ 64) = timeSub m c - n := by
  unfold timeSub at hn ⊢
  omega

/-- What lies ahead by less than half the range is due once it is reached. -/
theorem due_pass {m c n : Nat} (hc : c < 2 ^ 64) (hm : timeSub m c < 2 ^ 63) (hn : n < 2 ^ 63) :
    due m ((c + n) % 2 ^ 64) = true ↔ timeSub m c ≤ n := by
  unfold due
  rw [Bool.or_eq_true, decide_eq_true_eq, decide_eq_true_eq]
  unfold timeSub at hm ⊢
  omega

theorem timeSub_add {c n : Nat} (hc : c < 2 ^ 64) (hn : n < 2 ^ 64) :
    timeSub ((c + n) % 2 ^ 64) c = n := by
  unfold timeSub
  omega

/-! ## Tasks whose time ran out -/

section Expired

variable [DecidableEq T] {k k' k'' : Kernel T O}

/-- The time of these tasks ran out, and all others are as they were. -/
structure Expired (l : List T) (k k' : Kernel T O) : Prop where
  count : k'.tickCount = k.tickCount
  head : k'.tickHead = k.tickHead.diff l
  woken : ∀ t ∈ l, (k'.task t).state = (k.task t).state.expired ∧
    (k'.task t).blkState = (k.task t).state.verdict
  other : ∀ t ∉ l, (k'.task t).state = (k.task t).state ∧
    (k'.task t).blkState = (k.task t).blkState ∧ (k'.task t).tickMatch = (k.task t).tickMatch

theorem Expired.nil (k : Kernel T O) : Expired [] k k :=
  ⟨rfl, rfl, by simp, fun _ _ => ⟨rfl, rfl, rfl⟩⟩

theorem Expired.cons {t : T} {l : List T} (ht : t ∉ l) (h : Expired [t] k k')
    (h' : Expired l k' k'') : Expired (t :: l) k k'' := by
  refine ⟨h'.count.trans h.count, ?_, ?_, ?_⟩
  · rw [h'.head, h.head, List.diff_cons, List.diff_cons, List.diff_nil]
  · intro u hu
    rcases List.mem_cons.mp hu with rfl | hul
    · -- What happens to the others leaves it ready, or suspended.
      have hlater := h'.other u ht
      have hnow := h.woken u List.mem_cons_self
      exact ⟨hlater.1.trans hnow.1, hlater.2.1.trans hnow.2⟩
    · have hne : u ∉ [t] := by
        rw [List.mem_singleton]
        rintro rfl
        exact ht hul
      have hlater := h'.woken u hul
      rw [(h.other u hne).1] at hlater
      exact hlater
  · intro u hu
    rw [List.mem_cons, not_or] at hu
    have hnow := h.other u (by rw [List.mem_singleton]; exact hu.1)
    have hlater := h'.other u hu.2
    exact ⟨hlater.1.trans hnow.1, hlater.2.1.trans hnow.2.1, hlater.2.2.trans hnow.2.2⟩

/-- What no clock depends on may follow. -/
theorem Expired.clocks {l : List T} (h : Expired l k k') (hs : SameClocks k' k'') :
    Expired l k k'' := by
  refine ⟨hs.count.trans h.count, hs.head.trans h.head, fun t ht => ?_, fun t ht => ?_⟩
  · rw [hs.state t, hs.blkState t]
    exact h.woken t ht
  · rw [hs.state t, hs.blkState t, hs.tickMatch t]
    exact h.other t ht

/-- A task leaves the lists it was on. -/
theorem Expired.left (k : Kernel T O) {t : T} {r : Runqueue T} {x : Ktask O}
    (hs : x.state = (k.task t).state.expired) (hb : x.blkState = (k.task t).state.verdict) :
    Expired [t] k (k.left t r x) := by
  refine ⟨rfl, by rw [List.diff_cons, List.diff_nil]; rfl, ?_, ?_⟩
  · intro u hu
    rw [List.mem_singleton] at hu
    rw [hu, Kernel.left_self]
    exact ⟨hs, hb⟩
  · intro u hu
    rw [List.mem_singleton] at hu
    rw [Kernel.left_of_ne _ hu]
    exact ⟨rfl, rfl, rfl⟩

variable [DecidableEq O] [Fintype T] [Fintype O]

/-- The priorities of the owners follow, and the task forgets what it waited for. -/
theorem Expired.reset {t : T} (h : Expired [t] k k') :
    Expired [t] k ((k'.mutexTaskPriReset t).modTask t fun x => { x with blkObj := none }) :=
  h.clocks ((mutexTaskPriReset_clocks k' t).trans (.modTask _ rfl rfl rfl rfl))

theorem tickExpire_expired (h : Lists k) {t : T} (ht : (k.task t).state.timed) :
    Expired [t] k (k.tickExpire t) := by
  rcases ht with hs | hs | hs | hs
  · rcases tickExpire_sleep h hs with ⟨r, heq, -⟩
    rw [heq]
    exact .left k (by simp [hs, TaskState.expired]) (by simp [hs, TaskState.verdict])
  · rw [tickExpire_sleepSuspended h hs]
    exact .left k (by simp [hs, TaskState.expired]) (by simp [hs, TaskState.verdict])
  · rcases tickExpire_pend h hs with ⟨r, heq, -⟩
    rw [heq]
    refine (Expired.left k ?_ ?_).reset
    · simp [hs, TaskState.expired, Ktask.timedOut]
    · simp [hs, TaskState.verdict, Ktask.timedOut]
  · rw [tickExpire_pendSuspended h hs]
    refine (Expired.left k ?_ ?_).reset
    · simp [hs, TaskState.expired, Ktask.timedOut]
    · simp [hs, TaskState.verdict, Ktask.timedOut]

/-- The walk over the tasks whose time ran out, while it takes them off the list. -/
theorem foldl_tickExpire (h : Lists k) {l : List T} (hl : l.Nodup)
    (ht : ∀ t ∈ l, (k.task t).state.timed) : Expired l k (l.foldl Kernel.tickExpire k) := by
  induction l generalizing k with
  | nil => exact .nil k
  | cons t l ih =>
      rw [List.nodup_cons] at hl
      have hstep := tickExpire_expired h (ht t List.mem_cons_self)
      refine hstep.cons hl.1 (ih (tickExpire_lists h t).1 hl.2 ?_)
      intro u hu
      have hne : u ∉ [t] := by
        rw [List.mem_singleton]
        rintro rfl
        exact hl.1 hu
      rw [(hstep.other u hne).1]
      exact ht u (List.mem_cons_of_mem _ hu)

end Expired

/-! ## Updates -/

section Updates

variable {s s' : Timed T O} {n : Nat}

/-- What holds between two steps. -/
structure TimedInv (s : Timed T O) : Prop where
  sound : Sound s.kernel
  ok : TicksOk s
  count : s.kernel.tickCount < 2 ^ 64
  short : ∀ t x, s.waits t x → x.timeout < 2 ^ 63

theorem TimedInv.remaining_lt (h : TimedInv s) {t : T} (ht : t ∈ s.kernel.tickHead) :
    s.kernel.remaining t < 2 ^ 63 := by
  rcases (h.ok.mem t).mp ht with ⟨x, hx⟩
  have hleft := (h.ok.left t x hx).2
  have hshort := h.short t x hx
  omega

/-- The task's time is completed by so many ticks. -/
theorem TimedInv.remaining_le (h : TimedInv s) {t : T} {x : Wait} (hx : s.waits t x) :
    s.kernel.remaining t ≤ n ↔ x.timeout ≤ x.elapsed + n := by
  rcases h.ok.left t x hx with ⟨hlt, hleft⟩
  rw [hleft]
  omega

/-- A task that is woken does not wait. -/
theorem TaskState.not_timed_expired {a : TaskState} (ha : a.timed) : ¬a.expired.timed := by
  rcases ha with rfl | rfl | rfl | rfl <;> simp [TaskState.timed, TaskState.expired]

/-- The tasks whose time is completed by so many ticks. -/
def Timed.reached [DecidableEq T] (s : Timed T O) (n : Nat) : List T :=
  s.kernel.tickHead.filter fun t => s.kernel.remaining t ≤ n

variable [DecidableEq T]

theorem mem_reached {t : T} :
    t ∈ s.reached n ↔ t ∈ s.kernel.tickHead ∧ s.kernel.remaining t ≤ n := by
  unfold Timed.reached
  rw [List.mem_filter, decide_eq_true_eq]

/-- The walk of an update stops at the first task that is not due, and finds all that
    are. -/
theorem takeWhile_due (h : TimedInv s) (hn : n < 2 ^ 63) :
    (s.kernel.tickHead.takeWhile fun t =>
      due (s.kernel.task t).tickMatch ((s.kernel.tickCount + n) % 2 ^ 64)) = s.reached n := by
  have hdue : ∀ t ∈ s.kernel.tickHead,
      due (s.kernel.task t).tickMatch ((s.kernel.tickCount + n) % 2 ^ 64) = true ↔
        s.kernel.remaining t ≤ n :=
    fun t ht => due_pass h.count (h.remaining_lt ht) hn
  have hsorted : s.kernel.tickHead.Pairwise fun a b =>
      due (s.kernel.task b).tickMatch ((s.kernel.tickCount + n) % 2 ^ 64) = true →
        due (s.kernel.task a).tickMatch ((s.kernel.tickCount + n) % 2 ^ 64) = true := by
    refine h.ok.sorted.imp_of_mem fun {a b} ha hb hab hdb => ?_
    rw [hdue b hb] at hdb
    rw [hdue a ha]
    exact hab.trans hdb
  rw [takeWhile_eq_filter hsorted]
  refine List.filter_congr fun t ht => ?_
  rw [Bool.eq_iff_iff, hdue t ht, decide_eq_true_eq]

variable [DecidableEq O] [Fintype T] [Fintype O]

/-- The tasks an update finds are those whose time ran out. -/
theorem tickListUpdate_expired (h : TimedInv s) (hn : n < 2 ^ 63) :
    Expired (s.reached n) { s.kernel with tickCount := (s.kernel.tickCount + n) % 2 ^ 64 }
      (s.kernel.tickListUpdate n) := by
  have hl := h.sound.lists
  have hlists : Lists { s.kernel with tickCount := (s.kernel.tickCount + n) % 2 ^ 64 } :=
    ⟨hl.rq, hl.prio, hl.bPrio, hl.wait, hl.waitNodup, hl.tick, hl.tickNodup, hl.timed, hl.idle,
      hl.owner⟩
  unfold Kernel.tickListUpdate
  dsimp only
  rw [takeWhile_due h hn]
  refine foldl_tickExpire hlists (h.ok.nodup.filter _) fun t ht => ?_
  rcases (h.ok.mem t).mp (mem_reached.mp ht).1 with ⟨x, hx⟩
  exact hx.1

omit [DecidableEq O] [Fintype T] [Fintype O] in
/-- What is seen of an update: these tasks, and no others, are woken. -/
theorem Expired.expires (h : TimedInv s)
    (he : Expired (s.reached n) { s.kernel with tickCount := (s.kernel.tickCount + n) % 2 ^ 64 }
      s'.kernel) : Expires n s s' := by
  refine ⟨fun t x hx hle => ?_, fun t hlt => ?_⟩
  · exact he.woken t (mem_reached.mpr ⟨(h.ok.mem t).mpr ⟨x, hx⟩, (h.remaining_le hx).mpr hle⟩)
  · have hnot : t ∉ s.reached n := by
      intro hmem
      rcases mem_reached.mp hmem with ⟨hhead, hle⟩
      rcases (h.ok.mem t).mp hhead with ⟨x, hx⟩
      have hreach := (h.remaining_le hx).mp hle
      have hshort := hlt x hx
      omega
    have hsame := he.other t hnot
    exact ⟨hsame.1, hsame.2.1⟩

omit [DecidableEq O] [Fintype T] [Fintype O] in
/-- Who waits after an update waited before it, and for longer. -/
theorem Expired.waits (h : TimedInv s)
    (he : Expired (s.reached n) { s.kernel with tickCount := (s.kernel.tickCount + n) % 2 ^ 64 }
      s'.kernel) (hwait : s'.wait = fun t => (s.wait t).map (Wait.pass n)) {t : T} {y : Wait}
    (hy : s'.waits t y) : t ∉ s.reached n ∧ ∃ x, s.waits t x ∧ y = x.pass n := by
  have hnot : t ∉ s.reached n := by
    intro hmem
    rcases (h.ok.mem t).mp (mem_reached.mp hmem).1 with ⟨x, hx⟩
    have htimed := hy.1
    rw [(he.woken t hmem).1] at htimed
    exact TaskState.not_timed_expired hx.1 htimed
  have hsome := hy.2
  rw [hwait, Option.map_eq_some_iff] at hsome
  rcases hsome with ⟨x, hx, rfl⟩
  have htimed := hy.1
  rw [(he.other t hnot).1] at htimed
  exact ⟨hnot, x, ⟨htimed, hx⟩, rfl⟩

omit [DecidableEq O] [Fintype T] [Fintype O] in
/-- After an update, what is left of every time is less by its ticks. -/
theorem Expired.inv (h : TimedInv s)
    (he : Expired (s.reached n) { s.kernel with tickCount := (s.kernel.tickCount + n) % 2 ^ 64 }
      s'.kernel) (hwait : s'.wait = fun t => (s.wait t).map (Wait.pass n))
    (hsound : Sound s'.kernel) : TimedInv s' := by
  have hcount : s'.kernel.tickCount = (s.kernel.tickCount + n) % 2 ^ 64 := he.count
  have hhead : s'.kernel.tickHead = s.kernel.tickHead.diff (s.reached n) := he.head
  have hremain : ∀ t, t ∉ s.reached n → n ≤ s.kernel.remaining t →
      s'.kernel.remaining t = s.kernel.remaining t - n := by
    intro t ht hle
    unfold Kernel.remaining at hle ⊢
    rw [hcount, (he.other t ht).2.2]
    exact timeSub_pass h.count hle
  -- Who was not reached has more than the ticks that passed to go.
  have hlater : ∀ t, t ∈ s.kernel.tickHead → t ∉ s.reached n → n < s.kernel.remaining t := by
    intro t hmem ht
    by_contra hle
    exact ht (mem_reached.mpr ⟨hmem, not_lt.mp hle⟩)
  have hmem : ∀ t, t ∈ s'.kernel.tickHead ↔ t ∈ s.kernel.tickHead ∧ t ∉ s.reached n := by
    intro t
    rw [hhead, h.ok.nodup.mem_sdiff_iff]
  refine ⟨hsound, ⟨fun t => ?_, hhead ▸ h.ok.nodup.diff, ?_, fun t y hy => ?_⟩, ?_, fun t y hy => ?_⟩
  · rw [hmem]
    constructor
    · rintro ⟨hold, hnot⟩
      rcases (h.ok.mem t).mp hold with ⟨x, hx⟩
      refine ⟨x.pass n, ?_, ?_⟩
      · rw [(he.other t hnot).1]
        exact hx.1
      · rw [hwait]
        dsimp only
        rw [hx.2]
        rfl
    · rintro ⟨y, hy⟩
      rcases he.waits h hwait hy with ⟨hnot, x, hx, -⟩
      exact ⟨(h.ok.mem t).mpr ⟨x, hx⟩, hnot⟩
  · have hsub : s'.kernel.tickHead.Pairwise fun t u =>
        s.kernel.remaining t ≤ s.kernel.remaining u :=
      h.ok.sorted.sublist (hhead ▸ List.diff_sublist _ _)
    refine hsub.imp_of_mem fun {t u} ht hu hle => ?_
    rw [hmem] at ht hu
    rw [hremain t ht.2 (hlater t ht.1 ht.2).le, hremain u hu.2 (hlater u hu.1 hu.2).le]
    omega
  · rcases he.waits h hwait hy with ⟨hnot, x, hx, rfl⟩
    have hlt := hlater t ((h.ok.mem t).mpr ⟨x, hx⟩) hnot
    rcases h.ok.left t x hx with ⟨hearly, hleft⟩
    rw [hremain t hnot hlt.le]
    unfold Wait.pass
    dsimp only
    omega
  · rw [hcount]
    exact Nat.mod_lt _ (by omega)
  · rcases he.waits h hwait hy with ⟨-, x, hx, rfl⟩
    exact h.short t x hx

end Updates

/-! ## A wait begins -/

section Begins

variable {k k' k'' : Kernel T O} {t : T} {n : Nat}

/-- All but one task are as they were, and so are the list and every time. -/
structure SameBut (t : T) (k k' : Kernel T O) : Prop where
  count : k'.tickCount = k.tickCount
  head : k'.tickHead = k.tickHead
  tickMatch : ∀ u, (k'.task u).tickMatch = (k.task u).tickMatch
  state : ∀ u, u ≠ t → (k'.task u).state = (k.task u).state

/-- A task is on the list, where its time belongs. -/
structure Begins (t : T) (n : Nat) (k k' : Kernel T O) : Prop where
  count : k'.tickCount = k.tickCount
  head : k'.tickHead = k.tickHead.orderedInsert (fun _ u => n < k.remaining u) t
  self : (k'.task t).tickMatch = (k.tickCount + n) % 2 ^ 64
  tickMatch : ∀ u, u ≠ t → (k'.task u).tickMatch = (k.task u).tickMatch
  state : ∀ u, u ≠ t → (k'.task u).state = (k.task u).state

theorem SameClocks.sameBut (h : SameClocks k k') (t : T) : SameBut t k k' :=
  ⟨h.count, h.head, h.tickMatch, fun u _ => h.state u⟩

theorem SameBut.trans (h : SameBut t k k') (h' : SameBut t k' k'') : SameBut t k k'' :=
  ⟨h'.count.trans h.count, h'.head.trans h.head, fun u => (h'.tickMatch u).trans (h.tickMatch u),
    fun u hu => (h'.state u hu).trans (h.state u hu)⟩

theorem SameBut.begins (h : SameBut t k k') (h' : Begins t n k' k'') : Begins t n k k'' := by
  have hremain : k'.remaining = k.remaining := by
    ext u
    unfold Kernel.remaining
    rw [h.tickMatch u, h.count]
  refine ⟨h'.count.trans h.count, ?_, ?_, ?_, ?_⟩
  · rw [h'.head, h.head, hremain]
  · rw [h'.self, h.count]
  · exact fun u hu => (h'.tickMatch u hu).trans (h.tickMatch u)
  · exact fun u hu => (h'.state u hu).trans (h.state u hu)

theorem Begins.sameBut (h : Begins t n k k') (h' : SameBut t k' k'') : Begins t n k k'' :=
  ⟨h'.count.trans h.count, h'.head.trans h.head, (h'.tickMatch t).trans h.self,
    fun u hu => (h'.tickMatch u).trans (h.tickMatch u hu),
    fun u hu => (h'.state u hu).trans (h.state u hu)⟩

variable [DecidableEq T]

theorem SameBut.modTask (k : Kernel T O) {f : Ktask O → Ktask O}
    (hf : (f (k.task t)).tickMatch = (k.task t).tickMatch) : SameBut t k (k.modTask t f) := by
  refine ⟨rfl, rfl, fun u => ?_, fun u hu => ?_⟩
  · by_cases hu : u = t
    · rw [hu, Kernel.modTask_self, hf]
    · exact congrArg Ktask.tickMatch (Function.update_of_ne hu ..)
  · exact congrArg Ktask.state (Function.update_of_ne hu ..)

/-- Where the new task stands depends on the times of the others only. -/
theorem tickListInsert_begins (ht : t ∉ k.tickHead) (hn : 0 < n) :
    Begins t n k (k.tickListInsert t n) := by
  have hne : ∀ u ∈ k.tickHead, u ≠ t := by
    rintro u hu rfl
    exact ht hu
  unfold Kernel.tickListInsert
  rw [if_pos hn]
  refine ⟨rfl, orderedInsert_congr fun u hu => ?_, ?_, fun u hu => ?_, fun u hu => ?_⟩
  · unfold Kernel.remaining Kernel.modTask
    dsimp only
    rw [Function.update_of_ne (hne u hu), Function.update_self]
  · unfold Kernel.modTask
    dsimp only
    rw [Function.update_self, Function.update_self]
  · unfold Kernel.modTask
    dsimp only
    rw [Function.update_of_ne hu, Function.update_of_ne hu]
  · unfold Kernel.modTask
    dsimp only
    rw [Function.update_of_ne hu, Function.update_of_ne hu]

theorem asleep_begins (ht : k.active ∉ k.tickHead) (hn : 0 < n) :
    Begins k.active n k (k.asleep n) := by
  have hsleep := SameBut.modTask (t := k.active) k (f := fun x => { x with state := .sleep }) rfl
  have hinsert := tickListInsert_begins (k := k.modTask k.active fun x => { x with state := .sleep })
    (t := k.active) ht hn
  exact (hsleep.begins hinsert).sameBut ((readyListRm_clocks _ _).sameBut _)

theorem asleep_state (k : Kernel T O) (n : Nat) :
    ((k.asleep n).task k.active).state = .sleep := by
  unfold Kernel.asleep
  rw [(readyListRm_clocks _ _).state]
  unfold Kernel.tickListInsert
  split_ifs
  · dsimp only
    rw [Kernel.modTask_self]
    unfold Kernel.modTask
    dsimp only
    rw [Function.update_self, Function.update_self]
  · rw [Kernel.modTask_self]

variable [DecidableEq O] {o : O}

/-- The last steps of `pend_to_blk_obj`, once the time is set. -/
theorem pended_sameBut (k : Kernel T O) (o : O) (t : T) : SameBut t k
    (((k.modTask t fun x => { x with state := .pend }).readyListRm t).pendListAddTo o t) := by
  have hpend := SameBut.modTask (t := t) k (f := fun x => { x with state := .pend }) rfl
  exact (hpend.trans ((readyListRm_clocks _ _).sameBut _)).trans
    ((SameClocks.modObj _ o _).sameBut _)

theorem pendToBlkObj_begins (ht : t ∉ k.tickHead) (hn : 0 < n) (hforever : n ≠ waitForever) :
    Begins t n k (k.pendToBlkObj o t n) := by
  have hobj := SameBut.modTask (t := t) k (f := fun x => { x with blkObj := some o }) rfl
  have hinsert := tickListInsert_begins (k := k.modTask t fun x => { x with blkObj := some o })
    (t := t) ht hn
  unfold Kernel.pendToBlkObj
  dsimp only
  rw [if_pos hforever]
  exact (hobj.begins hinsert).sameBut (pended_sameBut _ o t)

theorem pendToBlkObj_forever (k : Kernel T O) (o : O) (t : T) :
    SameBut t k (k.pendToBlkObj o t waitForever) := by
  have hobj := SameBut.modTask (t := t) k (f := fun x => { x with blkObj := some o }) rfl
  unfold Kernel.pendToBlkObj
  dsimp only
  rw [if_neg (not_not.mpr rfl)]
  exact hobj.trans (pended_sameBut _ o t)

theorem pendToBlkObj_state (k : Kernel T O) (o : O) (t : T) (n : Nat) :
    ((k.pendToBlkObj o t n).task t).state = .pend := by
  unfold Kernel.pendToBlkObj Kernel.pendListAddTo
  dsimp only
  rw [(SameClocks.modObj _ o _).state, (readyListRm_clocks _ _).state, Kernel.modTask_self]

end Begins

/-! ## Calls -/

/-- Timeouts as the kernel can tell them apart from what is past: less than half the
    range, or for ever where a task pends. -/
def Call.inRange : Call T O → Prop
  | .taskSleep ticks => ticks < 2 ^ 63
  | c => ∀ ticks, c.timeout = some ticks → ticks < 2 ^ 63 ∨ ticks = waitForever

section Calls

variable {c : Call T O} {ticks : Nat}

theorem Call.begins_eq (hc : c.inRange) (ht : c.timeout = some ticks) :
    (ticks = waitForever → c.begins = none) ∧
      (ticks ≠ waitForever → ticks < 2 ^ 63 ∧ c.begins = some ⟨ticks, 0⟩) := by
  have hbig : ¬waitForever < 2 ^ 63 := by
    unfold waitForever
    omega
  cases c with
  | taskSleep n =>
      rw [show n = ticks from Option.some.inj ht] at hc ⊢
      exact ⟨fun he => absurd (he ▸ hc) hbig, fun _ => ⟨hc, rfl⟩⟩
  | _ =>
      refine ⟨fun he => ?_, fun hne => ⟨(hc ticks ht).resolve_right hne, ?_⟩⟩
      · simp [Call.begins, ht, he]
      · simp [Call.begins, ht, hne]

variable [DecidableEq T] [DecidableEq O] [Fintype T] [Fintype O] {k k' : Kernel T O} {b : Bool}

/-- With a timeout of nothing no task waits. -/
theorem call_zero (ht : c.timeout = some 0) : (k.call c).1 ≠ none := by
  cases c with
  | taskSleep n =>
      rw [show n = 0 from Option.some.inj ht]
      exact Option.some_ne_none _
  -- All calls that can wait test for a timeout of zero before they do.
  | semTake o n =>
      rw [show n = 0 from Option.some.inj ht]
      change (k.semTake o 0).1 ≠ none
      unfold Kernel.semTake
      rw [if_pos (rfl : 0 = 0)]
      split_ifs <;> exact Option.some_ne_none _
  | queueRecv o n =>
      rw [show n = 0 from Option.some.inj ht]
      change (k.queueRecv o 0).1 ≠ none
      unfold Kernel.queueRecv
      rw [if_pos (rfl : 0 = 0)]
      split_ifs <;> exact Option.some_ne_none _
  | bufQueueRecv o msg n =>
      rw [show n = 0 from Option.some.inj ht]
      change (k.bufQueueRecv o msg 0).1 ≠ none
      unfold Kernel.bufQueueRecv
      rw [if_pos (rfl : 0 = 0)]
      split_ifs <;> exact Option.some_ne_none _
  | eventGet o flags opt n =>
      rw [show n = 0 from Option.some.inj ht]
      change (k.eventGet o flags opt 0).1 ≠ none
      unfold Kernel.eventGet
      rw [if_pos (rfl : 0 = 0)]
      split_ifs <;> exact Option.some_ne_none _
  | mutexLock o n =>
      rw [show n = 0 from Option.some.inj ht]
      change (k.mutexLock o 0).1 ≠ none
      unfold Kernel.mutexLock
      cases (k.obj o).mutexTask with
      | none =>
          dsimp only
          split_ifs <;> exact Option.some_ne_none _
      | some w =>
          dsimp only
          rw [if_pos (rfl : 0 = 0)]
          split_ifs <;> exact Option.some_ne_none _
  | _ => cases ht

/-- A call whose task waits: the task waits, with its time where that is finite. -/
structure CallWaits (k : Kernel T O) (c : Call T O) (k' : Kernel T O) : Prop where
  off : k.active ∉ k.tickHead
  timed : (k'.task k.active).state.timed
  begins : ∀ x, c.begins = some x → x.elapsed = 0 ∧ 0 < x.timeout ∧ x.timeout < 2 ^ 63 ∧
    Begins k.active x.timeout k k'
  forever : c.begins = none → SameBut k.active k k'

omit [Fintype T] [Fintype O] in
theorem CallWaits.pend (hc : c.inRange) (ht : c.timeout = some ticks) (hpos : 0 < ticks)
    (hnot : k.active ∉ k.tickHead) {k₁ : Kernel T O} (hsame : SameBut k.active k k₁) (o : O) :
    CallWaits k c (k₁.pendToBlkObj o k.active ticks) := by
  have heq := Call.begins_eq hc ht
  refine ⟨hnot, ?_, fun x hx => ?_, fun hnone => ?_⟩
  · rw [pendToBlkObj_state]
    exact .inr (.inr (.inl rfl))
  · by_cases hforever : ticks = waitForever
    · rw [heq.1 hforever] at hx
      cases hx
    · rcases heq.2 hforever with ⟨hlt, hbegins⟩
      rw [hbegins, Option.some.injEq] at hx
      subst hx
      refine ⟨rfl, hpos, hlt, hsame.begins (pendToBlkObj_begins ?_ hpos hforever)⟩
      rw [hsame.head]
      exact hnot
  · by_cases hforever : ticks = waitForever
    · rw [hforever]
      exact hsame.trans (pendToBlkObj_forever k₁ o k.active)
    · rw [(heq.2 hforever).2] at hnone
      cases hnone

/-- Every effect of a call whose task waits. -/
theorem effect_waits (h : Sound k) (hc : c.inRange) (hpos : ∀ ticks, c.timeout = some ticks → 0 < ticks)
    (he : Effect k c none b k') : CallWaits k c k' := by
  have hnot : k.intrptNested = 0 → k.active ∉ k.tickHead :=
    fun hn => (h.lists.not_tick (h.active (.inl hn))).1
  cases he with
  | plain hp =>
      cases hp with
      | @sleep ticks hn hl =>
          refine ⟨hnot hn, ?_, fun x hx => ?_, fun hnone => ?_⟩
          · rw [asleep_state]
            exact .inl rfl
          · rw [← Option.some.inj hx]
            exact ⟨rfl, hpos ticks rfl, hc, asleep_begins (hnot hn) (hpos ticks rfl)⟩
          · cases hnone
      | wait hc' hb hn hl hm hstarved hf htime =>
          exact .pend hc htime (hpos _ htime) (hnot hn) (.modTask k hf.tickMatch) _
  | @lockWait o w ticks hn hl hm ho hw =>
      have hpri : SameClocks k (if (k.task k.active).prio < (k.task w).prio then
          (k.taskPriChange w (k.task k.active).prio).2 else k) := by
        split_ifs
        · exact priChangeLoop_clocks _ _ _ _
        · exact .refl k
      exact .pend hc rfl (hpos ticks rfl) (hnot hn) (hpri.sameBut _) o

end Calls

/-! ## The list goes on -/

section Goes

variable {s s' : Timed T O}

/-- Nobody begins to wait. -/
theorem Eases.inv (h : TimedInv s) (he : Eases s.kernel s'.kernel) (hwait : s'.wait = s.wait)
    (hsound : Sound s'.kernel) : TimedInv s' := by
  have hl := h.sound.lists
  have hl' := hsound.lists
  have hwaits : ∀ t x, s'.waits t x → s.waits t x :=
    fun t x hx => ⟨(he.task t hx.1).timed, hwait ▸ hx.2⟩
  have hremain : ∀ t, (s'.kernel.task t).state.timed →
      s'.kernel.remaining t = s.kernel.remaining t := by
    intro t ht
    unfold Kernel.remaining
    rw [(he.task t ht).tickMatch, he.count]
  have htimed : ∀ t ∈ s'.kernel.tickHead, (s'.kernel.task t).state.timed :=
    fun t ht => hl'.timed t ((hl'.tick t).mp ht)
  refine ⟨hsound, ⟨fun t => ?_, hl'.tickNodup, ?_, fun t x hx => ?_⟩, ?_, fun t x hx => ?_⟩
  · constructor
    · intro ht
      rcases (h.ok.mem t).mp (he.head.subset ht) with ⟨x, hx⟩
      exact ⟨x, htimed t ht, hwait ▸ hx.2⟩
    · rintro ⟨x, hx⟩
      -- It stood on the list before, and knows that it still does.
      have hold := (hl.tick t).mp ((h.ok.mem t).mpr ⟨x, hwaits t x hx⟩)
      rw [hl'.tick, (he.task t hx.1).onTick]
      exact hold
  · refine (h.ok.sorted.sublist he.head).imp_of_mem fun {t u} ht hu hle => ?_
    rw [hremain t (htimed t ht), hremain u (htimed u hu)]
    exact hle
  · rw [hremain t hx.1]
    exact h.ok.left t x (hwaits t x hx)
  · rw [he.count]
    exact h.count
  · exact h.short t x (hwaits t x hx)

variable {a : T}

/-- What is known of the other tasks where one begins to wait. -/
theorem Timed.waits_other [DecidableEq T] {w : Option Wait}
    (hwait : s'.wait = Function.update s.wait a w)
    (hstate : ∀ u, u ≠ a → (s'.kernel.task u).state = (s.kernel.task u).state) {u : T} (hu : u ≠ a)
    (x : Wait) : s'.waits u x ↔ s.waits u x := by
  unfold Timed.waits
  rw [hstate u hu, hwait, Function.update_of_ne hu]

/-- A task begins to wait for ever. -/
theorem SameBut.inv [DecidableEq T] (h : TimedInv s) (he : SameBut a s.kernel s'.kernel)
    (ha : a ∉ s.kernel.tickHead) (hwait : s'.wait = Function.update s.wait a none)
    (hsound : Sound s'.kernel) : TimedInv s' := by
  have hremain : s'.kernel.remaining = s.kernel.remaining := by
    ext u
    unfold Kernel.remaining
    rw [he.tickMatch u, he.count]
  have hself : ∀ x, ¬s'.waits a x := by
    rintro x ⟨-, hx⟩
    rw [hwait, Function.update_self] at hx
    cases hx
  have hwaits : ∀ u x, s'.waits u x → s.waits u x := by
    intro u x hx
    by_cases hu : u = a
    · exact absurd (hu ▸ hx) (hself x)
    · exact (Timed.waits_other hwait he.state hu x).mp hx
  refine ⟨hsound, ⟨fun u => ?_, hsound.lists.tickNodup, ?_, fun u x hx => ?_⟩, ?_, fun u x hx => ?_⟩
  · rw [he.head]
    by_cases hu : u = a
    · rw [hu]
      exact iff_of_false ha fun hx => hself _ hx.choose_spec
    · rw [h.ok.mem u]
      simp only [Timed.waits_other hwait he.state hu]
  · rw [he.head, hremain]
    exact h.ok.sorted
  · rw [hremain]
    exact h.ok.left u x (hwaits u x hx)
  · rw [he.count]
    exact h.count
  · exact h.short u x (hwaits u x hx)

/-- A task begins to wait with a timeout. -/
theorem Begins.inv [DecidableEq T] (h : TimedInv s) {n : Nat} (he : Begins a n s.kernel s'.kernel)
    (ha : a ∉ s.kernel.tickHead) (hpos : 0 < n) (hlt : n < 2 ^ 63)
    (hwait : s'.wait = Function.update s.wait a (some ⟨n, 0⟩))
    (htimed : (s'.kernel.task a).state.timed) (hsound : Sound s'.kernel) : TimedInv s' := by
  have hne : ∀ u ∈ s.kernel.tickHead, u ≠ a := by
    rintro u hu rfl
    exact ha hu
  have hremain : ∀ u, u ≠ a → s'.kernel.remaining u = s.kernel.remaining u := by
    intro u hu
    unfold Kernel.remaining
    rw [he.tickMatch u hu, he.count]
  have hnew : s'.kernel.remaining a = n := by
    unfold Kernel.remaining
    rw [he.self, he.count]
    exact timeSub_add h.count (by omega)
  have hself : ∀ x, s'.waits a x ↔ x = ⟨n, 0⟩ := by
    intro x
    unfold Timed.waits
    rw [hwait, Function.update_self, Option.some.injEq, and_iff_right htimed]
    exact eq_comm
  refine ⟨hsound, ⟨fun u => ?_, hsound.lists.tickNodup, ?_, fun u x hx => ?_⟩, ?_, fun u x hx => ?_⟩
  · rw [he.head, List.mem_orderedInsert]
    by_cases hu : u = a
    · rw [hu]
      exact iff_of_true (.inl rfl) ⟨_, (hself _).mpr rfl⟩
    · rw [or_iff_right hu, h.ok.mem u]
      simp only [Timed.waits_other hwait he.state hu]
  · rw [he.head]
    refine pairwise_orderedInsert ?_ fun u hu => ?_
    · refine h.ok.sorted.imp_of_mem fun {t u} ht hu hle => ?_
      rw [hremain t (hne t ht), hremain u (hne u hu)]
      exact hle
    · rw [hnew, hremain u (hne u hu)]
  · by_cases hu : u = a
    · rw [hu] at hx ⊢
      rw [(hself x).mp hx, hnew]
      exact ⟨hpos, rfl⟩
    · rw [hremain u hu]
      exact h.ok.left u x ((Timed.waits_other hwait he.state hu x).mp hx)
  · rw [he.count]
    exact h.count
  · by_cases hu : u = a
    · rw [hu] at hx
      rw [(hself x).mp hx]
      exact hlt
    · exact h.short u x ((Timed.waits_other hwait he.state hu x).mp hx)

end Goes

/-! ## Waits are aborted -/

section Abort

variable [DecidableEq T] [DecidableEq O] [Fintype T] [Fintype O] {k : Kernel T O} {t : T}

/-- A task that waited, ready because somebody aborted its wait. -/
def Ktask.aborted {O : Type} (x : Ktask O) : Ktask O :=
  { x with state := .rdy, onTick := false, blkState := .abort }

omit [DecidableEq O] [Fintype T] [Fintype O] in
/-- A suspended task is made ready, however often it was suspended. -/
theorem unsuspended_sound (h : Sound k) (ht : (k.task t).state = .suspended) :
    Sound ((k.modTask t fun x => { x with state := .rdy }).readyListAdd t) := by
  rcases resumed_eq h.lists ht (k.task t).suspendCount with ⟨r, heq, hlists⟩
  rw [show (k.modTask t fun x => { x with state := .rdy })
    = k.modTask t fun x => { x with suspendCount := (k.task t).suspendCount, state := .rdy } from rfl,
    heq]
  exact h.moved hlists (.inl rfl) fun _ => rfl

omit [DecidableEq O] [Fintype T] [Fintype O] in
/-- A task is taken off the lists it waits on, and is ready. -/
theorem aborted_lists (h : Lists k) (ht : (k.task t).state.timed) :
    ∃ r, (((k.tickListRm t).klistRm t).readyListAdd t).modTask t (fun x =>
        { x with state := .rdy, blkState := .abort }) = k.left t r (k.task t).aborted ∧
      Lists (k.left t r (k.task t).aborted) ∧ Frame k (k.left t r (k.task t).aborted) := by
  have hne : (k.task t).state ≠ .rdy := by
    rcases ht with hs | hs | hs | hs <;> simp [hs]
  rcases readyListAdd_left h hne (x := { k.task t with onTick := false }) rfl with ⟨r, hr, hholds⟩
  refine ⟨r, ?_, h.wake hne hholds rfl rfl rfl rfl, Frame.left k (.of_left hne rfl rfl rfl rfl rfl)⟩
  rw [tickLeave_eq h, hr, Kernel.modTask_left]
  rfl

omit [DecidableEq O] [Fintype T] [Fintype O] in
/-- A task that sleeps is on no list of an object. -/
theorem klistRm_sleeps (h : Lists k) (ht : (k.task t).waits = none) :
    (k.tickListRm t).klistRm t = k.tickListRm t := by
  have hobj : (k.tickListRm t).obj = k.obj := by
    unfold Kernel.tickListRm
    split_ifs <;> rfl
  unfold Kernel.klistRm
  rw [hobj, h.obj_erase ht, ← hobj]

theorem taskWaitAbort_sound (h : Sound k) (t : T) : Sound (k.taskWaitAbort t).2 := by
  have hl := h.lists
  have hsched : ∀ {k : Kernel T O}, Sound k → Sound k.coreSched :=
    fun hk => (hk.settling true).sched
  unfold Kernel.taskWaitAbort
  by_cases hn : k.intrptNested > 0
  · rw [if_pos hn]
    exact h
  · rw [if_neg hn]
    cases hs : (k.task t).state with
    | rdy => exact hsched h
    | suspended => exact hsched (unsuspended_sound h hs)
    | sleep | sleepSuspended =>
        have hwaits : (k.task t).waits = none := Ktask.waits_eq_none (by simp [hs]) (by simp [hs])
        rcases aborted_lists hl (t := t) (by simp [TaskState.timed, hs]) with ⟨r, heq, hlists, hframe⟩
        rw [klistRm_sleeps hl hwaits] at heq
        dsimp only
        rw [heq]
        exact hsched (h.frame hlists hframe)
    | pend | pendSuspended =>
        rcases aborted_lists hl (t := t) (by simp [TaskState.timed, hs]) with ⟨r, heq, hlists, hframe⟩
        have hout := timedOut_lists hlists hframe (t := t) (by rw [Kernel.left_self]; rfl)
        dsimp only
        rw [heq]
        exact hsched (h.frame hout.1 hout.2)
    | seed | deleted => exact h

theorem taskWaitAbort_eases (k : Kernel T O) (t : T) : Eases k (k.taskWaitAbort t).2 := by
  have hrdy : ∀ {k₁ : Kernel T O} {f : Ktask O → Ktask O}, EasesBut t k k₁ →
      (f (k₁.task t)).state = .rdy → Eases k (k₁.modTask t f) := by
    intro k₁ f he hf
    refine (he.trans (.modTask k₁ t f)).close ?_
    rw [Kernel.modTask_self, hf]
    simp [TaskState.timed]
  have hsched : ∀ {k₁ : Kernel T O}, Eases k k₁ → Eases k k₁.coreSched :=
    fun he => he.trans (coreSched_clocks _).eases
  have hadd : ∀ {k₁ : Kernel T O}, EasesBut t k k₁ → EasesBut t k (k₁.readyListAdd t) :=
    fun he => he.trans ((readyListAdd_clocks _ t).eases.but t)
  have hrm := EasesBut.tickListRm k t
  unfold Kernel.taskWaitAbort
  split_ifs
  · exact .refl k
  · cases (k.task t).state with
    | rdy => exact hsched (.refl k)
    | suspended =>
        have hmod : Eases k (k.modTask t fun x => { x with state := .rdy }) :=
          hrdy ((Eases.refl k).but t) rfl
        exact hsched (hmod.trans (readyListAdd_clocks _ t).eases)
    | sleep | sleepSuspended => exact hsched (hrdy (hadd hrm) rfl)
    | pend | pendSuspended =>
        have hklist : SameClocks (k.tickListRm t) ((k.tickListRm t).klistRm t) :=
          .of_task rfl rfl rfl
        have habort := hrdy (f := fun x => { x with state := .rdy, blkState := .abort })
          (hadd (hrm.trans (hklist.eases.but t))) rfl
        have hforget := (habort.trans (mutexTaskPriReset_clocks _ t).eases).trans
          (SameClocks.modTask (t := t) _ (f := fun x => { x with blkObj := none })
            rfl rfl rfl rfl).eases
        exact hsched hforget
    | seed | deleted => exact .refl k

end Abort

/-! ## Every step -/

/-- The ticks that pass in a step. -/
def TickAct.ticks : TickAct T O → Option Nat
  | .act .tick => some 1
  | .update n => some n
  | _ => none

/-- Timeouts and updates of less than half the range; an update is by one tick at
    least. -/
def TickAct.inRange : TickAct T O → Prop
  | .act (.call c) => c.inRange
  | .update n => 1 ≤ n ∧ n < 2 ^ 63
  | _ => True

section Steps

variable [DecidableEq T] [DecidableEq O] [Fintype T] [Fintype O]

/-- The waits after a step: the one its call begins, and the ticks it counts. -/
def Timed.waitAfter (s : Timed T O) : TickAct T O → T → Option Wait
  | .act (.call c) =>
      if (s.kernel.call c).1 = none then Function.update s.wait s.kernel.active c.begins
      else s.wait
  | a =>
      match a.ticks with
      | some n => fun t => (s.wait t).map (Wait.pass n)
      | none => s.wait

/-- A step of the kernel, with the waits it leaves. -/
def Timed.step (s : Timed T O) (a : TickAct T O) : Option (Timed T O) :=
  (s.kernel.tickStep a).map fun k => ⟨k, s.waitAfter a⟩

/-- The kernel after `krhino_init`, with its counter of ticks anywhere. -/
def Timed.init (idle : T) (resSem : O) (count : Nat) : Timed T O where
  kernel := { Kernel.init idle resSem with tickCount := count }
  wait := fun _ => none

variable {s s' : Timed T O}

omit [DecidableEq O] [Fintype T] [Fintype O] in
theorem timeSliceUpdate_clocks (k : Kernel T O) : SameClocks k k.timeSliceUpdate := by
  unfold Kernel.timeSliceUpdate
  cases k.rq.list (k.task k.active).prio with
  | nil => exact .refl k
  | cons t rest =>
      have hslice : SameClocks k (k.modTask t fun x =>
          { x with timeSlice := (k.task t).timeSlice - 1 }) := .modTask k rfl rfl rfl rfl
      dsimp only
      split_ifs
      · exact .refl k
      · exact .refl k
      · exact hslice
      · exact (hslice.trans (headToTail_clocks _ t)).trans (.modTask _ rfl rfl rfl rfl)

/-- A call that returns, or whose task waits. -/
theorem call_timedInv (h : TimedInv s) {c : Call T O} (hc : c.inRange)
    (hperm : s.kernel.permits c = true)
    (hcaller : s.kernel.intrptNested = 0 →
      Kernel.beforeStart c = true ∨ s.kernel.active ≠ s.kernel.idle) :
    TimedInv ⟨(s.kernel.call c).2, s.waitAfter (.act (.call c))⟩ := by
  have hsound := call_sound h.sound hperm hcaller
  rcases call_effect s.kernel c hperm with ⟨b, k', heff, heq⟩
  have hsched : SameClocks k' (s.kernel.call c).2 := by
    rw [heq]
    split_ifs
    · exact coreSched_clocks k'
    · exact .refl k'
  cases hret : (s.kernel.call c).1 with
  | some st =>
      rw [hret] at heff
      refine Eases.inv h ((effect_eases h.sound hcaller heff).trans hsched.eases) ?_ hsound
      simp [Timed.waitAfter, hret]
  | none =>
      have hpos : ∀ ticks, c.timeout = some ticks → 0 < ticks := by
        intro ticks ht
        refine Nat.pos_of_ne_zero ?_
        rintro rfl
        exact call_zero ht hret
      rw [hret] at heff
      have hwaits := effect_waits h.sound hc hpos heff
      have hafter : s.waitAfter (.act (.call c))
          = Function.update s.wait s.kernel.active c.begins := by
        simp [Timed.waitAfter, hret]
      cases hbegins : c.begins with
      | none =>
          refine SameBut.inv h ((hwaits.forever hbegins).trans (hsched.sameBut _)) hwaits.off ?_ hsound
          rw [hafter, hbegins]
      | some x =>
          rcases hwaits.begins x hbegins with ⟨hzero, hn, hlt, hbegin⟩
          refine Begins.inv h (hbegin.sameBut (hsched.sameBut _)) hwaits.off hn hlt ?_ ?_ hsound
          · rw [hafter, hbegins, ← hzero]
          · rw [hsched.state]
            exact hwaits.timed

/-- An update, and what may follow it in the same step. -/
theorem update_timedInv (s' : Timed T O) (h : TimedInv s) {n : Nat} (hn : n < 2 ^ 63)
    (hclocks : SameClocks (s.kernel.tickListUpdate n) s'.kernel)
    (hwait : s'.wait = fun t => (s.wait t).map (Wait.pass n)) (hsound : Sound s'.kernel) :
    TimedInv s' ∧ Expires n s s' := by
  have hexpired := (tickListUpdate_expired h hn).clocks hclocks
  exact ⟨hexpired.inv h hwait hsound, hexpired.expires h⟩

theorem tickStep_update {k k' : Kernel T O} {n : Nat} (h : k.tickStep (.update n) = some k') :
    k' = k.tickListUpdate n := by
  unfold Kernel.tickStep at h
  dsimp only at h
  split_ifs at h
  exact (Option.some.inj h).symm

theorem tickStep_abort {k k' : Kernel T O} {t : T} (h : k.tickStep (.abort t) = some k') :
    k' = (k.taskWaitAbort t).2 := by
  unfold Kernel.tickStep at h
  dsimp only at h
  split_ifs at h
  exact (Option.some.inj h).symm

/-- A step in which nobody begins to wait and no tick passes. -/
theorem still_timedInv (h : TimedInv s) {a : TickAct T O} {k' : Kernel T O}
    (heases : Eases s.kernel k') (hsound : Sound k') (hwait : s.waitAfter a = s.wait)
    (hticks : a.ticks = none) :
    TimedInv ⟨k', s.waitAfter a⟩ ∧ ∀ n, a.ticks = some n → Expires n s ⟨k', s.waitAfter a⟩ := by
  refine ⟨Eases.inv h heases hwait hsound, ?_⟩
  intro n hn
  rw [hticks] at hn
  cases hn

/-- What the kernel does by itself and what is called, but for aborts. -/
theorem act_timedInv (h : TimedInv s) {a : KernelAct T O} (ha : (TickAct.act a).inRange)
    {k' : Kernel T O} (hstep : s.kernel.step a = some k') :
    TimedInv ⟨k', s.waitAfter (.act a)⟩ ∧
      ∀ n, (TickAct.act a).ticks = some n → Expires n s ⟨k', s.waitAfter (.act a)⟩ := by
  have hsound := step_sound h.sound hstep
  cases (step_stepped hstep).1 with
  | call hperm hcaller =>
      refine ⟨call_timedInv h ha hperm hcaller, ?_⟩
      intro n hn
      cases hn
  | start =>
      have hrun : SameClocks s.kernel { s.kernel with running := true } := .of_task rfl rfl rfl
      exact still_timedInv h (hrun.trans (coreSched_clocks _)).eases hsound rfl rfl
  | tick =>
      have hup := update_timedInv ⟨_, s.waitAfter (.act .tick)⟩ h (n := 1) (by omega)
        (timeSliceUpdate_clocks _) rfl hsound
      refine ⟨hup.1, ?_⟩
      intro n hn
      rw [← Option.some.inj hn]
      exact hup.2
  | intrptEnter =>
      have henter : SameClocks s.kernel
          { s.kernel with intrptNested := s.kernel.intrptNested + 1 } := .of_task rfl rfl rfl
      exact still_timedInv h henter.eases hsound rfl rfl
  | intrptExit hn =>
      have hexit : SameClocks s.kernel
          { s.kernel with intrptNested := s.kernel.intrptNested - 1 } := .of_task rfl rfl rfl
      exact still_timedInv h (hexit.trans (coreSched_clocks _)).eases hsound rfl rfl

/-- Whatever happens, the list of ticks is what it should be; and where ticks pass,
    the tasks whose time they complete wake up and no others. -/
theorem timed_inv (h : TimedInv s) {a : TickAct T O} (ha : a.inRange) (hstep : s.step a = some s') :
    TimedInv s' ∧ ∀ n, a.ticks = some n → Expires n s s' := by
  unfold Timed.step at hstep
  rw [Option.map_eq_some_iff] at hstep
  rcases hstep with ⟨k', hk, rfl⟩
  cases a with
  | act a => exact act_timedInv h ha hk
  | update n =>
      have hlists := tickListUpdate_lists h.sound.lists n
      rw [tickStep_update hk]
      have hup := update_timedInv ⟨_, s.waitAfter (.update n)⟩ h ha.2 (.refl _) rfl
        (h.sound.frame hlists.1 hlists.2)
      refine ⟨hup.1, ?_⟩
      intro m hm
      rw [← Option.some.inj hm]
      exact hup.2
  | abort t =>
      rw [tickStep_abort hk]
      exact still_timedInv h (taskWaitAbort_eases _ t) (taskWaitAbort_sound h.sound t) rfl rfl

omit [Fintype T] [Fintype O] in
/-- At first nobody waits. -/
theorem init_timedInv (idle : T) (resSem : O) {count : Nat} (hcount : count < 2 ^ 64) :
    TimedInv (Timed.init idle resSem count : Timed T O) := by
  have hinit : Sound (Kernel.init idle resSem : Kernel T O) := init_sound idle resSem
  have hl := hinit.lists
  have hnone : ∀ t x, ¬(Timed.init idle resSem count : Timed T O).waits t x := by
    rintro t x ⟨-, hx⟩
    cases hx
  refine ⟨⟨⟨⟨hl.rq, hl.prio, hl.bPrio, hl.wait, hl.waitNodup, hl.tick, hl.tickNodup, hl.timed,
    hl.idle, hl.owner⟩, hinit.starved⟩, hinit.active⟩, ⟨fun t => ?_, List.nodup_nil, List.Pairwise.nil,
    fun t x hx => absurd hx (hnone t x)⟩, hcount, fun t x hx => absurd hx (hnone t x)⟩
  refine iff_of_false List.not_mem_nil ?_
  rintro ⟨x, hx⟩
  exact hnone t x hx

/-- Wherever the counter of ticks starts, and whatever tasks do: the list of ticks
    holds the tasks that wait with a timeout, sorted by what is left of it, and none
    whose time has come; and an update wakes the tasks whose time its ticks complete,
    and no others. -/
theorem ticks_exact (idle : T) (resSem : O) (count : Nat) (hcount : count < 2 ^ 64)
    (as : List (TickAct T O)) (has : ∀ a ∈ as, a.inRange) (s : Timed T O)
    (hrun : Run.run Timed.step (Timed.init idle resSem count) as = some s) :
    TicksOk s ∧ ∀ a s' n, a.inRange → s.step a = some s' → a.ticks = some n → Expires n s s' := by
  have hinv : TimedInv s := by
    refine Run.run_inv (P := fun _ a => a.inRange) ?_ as _ _ (init_timedInv idle resSem hcount) ?_ hrun
    · intro s a s' h ha hstep
      exact (timed_inv h ha hstep).1
    · exact Run.along_of_mem has _
  exact ⟨hinv.ok, fun a s' n ha hstep hn => (timed_inv hinv ha hstep).2 n hn⟩

end Steps

/-- One task waits for a semaphore and one sleeps, while the counter is about to wrap
    around. -/
def wrapRun : List (TickAct (Option Bool) Bool) :=
  [.act (.call (.taskCreate (some true) 10 0 true true)),
    .act (.call (.taskCreate (some false) 20 0 true true)),
    .act (.call (.semCreate true 0 true)), .act .start, .act (.call (.semTake true 5)),
    .act (.call (.taskSleep 3)), .act .tick]

theorem ticks_exact_wrapRun :
    ∃ s s', Run.run Timed.step (Timed.init none false (2 ^ 64 - 2)) wrapRun = some s ∧
      s.step (.update 2) = some s' ∧ TicksOk s ∧ Expires 2 s s' := by
  have hrun : ((Run.run Timed.step (Timed.init none false (2 ^ 64 - 2)) wrapRun).bind
      (·.step (.update 2))).isSome = true := by
    decide +kernel
  rcases Option.isSome_iff_exists.mp hrun with ⟨s', hs'⟩
  rcases Option.bind_eq_some_iff.mp hs' with ⟨s, hs, hstep⟩
  have hrange : ∀ a ∈ wrapRun, a.inRange := by
    simp [wrapRun, TickAct.inRange, Call.inRange, Call.timeout]
  have hexact := ticks_exact none false (2 ^ 64 - 2) (by omega) wrapRun hrange s hs
  have hin : (.update 2 : TickAct (Option Bool) Bool).inRange := ⟨by omega, by omega⟩
  exact ⟨s, s', hs, hstep, hexact.1, hexact.2 (.update 2) s' 2 hin hstep rfl⟩

end Rhino

end Wujian100
