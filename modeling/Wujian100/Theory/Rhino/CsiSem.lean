import Wujian100.Core.Rhino.CsiSem
import Wujian100.Core.Rhino.Calls
import Wujian100.Library.Run
import Wujian100.Theory.Rhino.Kernel

/-!
# Tokens Without a Bound

`csi_kernel_sem_new` tests its `max_count` and does nothing else with it: the semaphore it
creates holds as many tokens as are posted. What is counted is right as long as nobody posts to
a semaphore that is full.

## Main definitions

* `SemLedger.Bounded`: The tokens are those posted and not taken, and not too many.
* `SemLedger.Refuses`: What a step should do.
* `SemLedger.Room`: A post finds room, or someone who waits.

## Theorems

* `semGive_ksem`, `semTake_ksem`: What the kernel does to a semaphore.
* `SemLedger.step_bounded`: A post that finds room keeps the bound.
* `SemLedger.bounded_iff`: The bound is kept in a run exactly if all posts of it find room.
-/

namespace Wujian100

namespace Rhino

/-! ## Semaphores of the kernel -/

section Kernel

variable {T O : Type} {k : Kernel T O} {o : O}

theorem obj_coreSched (k : Kernel T O) (o : O) : (k.coreSched).obj o = k.obj o := by
  unfold Kernel.coreSched
  split
  · rfl
  · split
    · rfl
    · split
      · rfl
      · rfl

/-- A task that waits leaves the list of its object. -/
theorem obj_pendTaskWakeup [DecidableEq T] (h : Lists k) {t : T} (ht : t ∈ (k.obj o).blkList) :
    ((k.pendTaskWakeup t).obj o) = { k.obj o with blkList := (k.obj o).blkList.erase t } := by
  have hstate := (Ktask.state_of_waits ((h.wait t o).mp ht)).1
  unfold Kernel.pendTaskWakeup
  rcases hstate with hs | hs
  · rcases pendEnd_pend h hs .finish with ⟨r, hr, -⟩
    rw [hr]
    rfl
  · rw [pendEnd_pendSuspended h hs .finish]
    rfl

/-- Some place in a list. -/
theorem orderedInsert_at (r : T → T → Prop) [DecidableRel r] (t : T) (l : List T) :
    ∃ pos ≤ l.length, l.orderedInsert r t = l.insertIdx pos t := by
  induction l with
  | nil => exact ⟨0, Nat.le_refl 0, rfl⟩
  | cons u l ih =>
      rw [List.orderedInsert_cons]
      by_cases hr : r t u
      · rw [if_pos hr]
        exact ⟨0, Nat.zero_le _, rfl⟩
      · rw [if_neg hr]
        rcases ih with ⟨pos, hpos, heq⟩
        refine ⟨pos + 1, Nat.succ_le_succ hpos, ?_⟩
        rw [heq, List.insertIdx_succ_cons]

variable [DecidableEq T] [DecidableEq O]

/-- What `krhino_sem_give` does to a semaphore of the kernel. -/
theorem semGive_ksem (h : Lists k) (ho : (k.obj o).objType = .sem) :
    (k.semGive o false).1 = some (k.obj o).ksem.give.1 ∧
      ((k.semGive o false).2.obj o).ksem = (k.obj o).ksem.give.2 := by
  unfold Kernel.semGive Ksem.give Kobj.ksem
  rw [if_neg (not_not.mpr ho)]
  dsimp only
  cases hblk : (k.obj o).blkList with
  | nil =>
      dsimp only
      by_cases hov : (k.obj o).count = 2 ^ 32 - 1
      · rw [if_pos hov, if_pos hov]
        refine ⟨rfl, ?_⟩
        change (⟨(k.obj o).count, (k.obj o).peakCount, (k.obj o).blkList⟩ : Ksem T) = _
        rw [hblk]
      · rw [if_neg hov, if_neg hov]
        refine ⟨rfl, ?_⟩
        unfold Kernel.ret Kernel.modObj
        dsimp only
        rw [Function.update_self, hblk]
  | cons t rest =>
      dsimp only
      rw [if_neg Bool.false_ne_true]
      refine ⟨rfl, ?_⟩
      unfold Kernel.ret
      dsimp only
      rw [obj_coreSched, obj_pendTaskWakeup h (hblk ▸ List.mem_cons_self), hblk,
        List.erase_cons_head]

/-- What `krhino_sem_take` does to one, at some place among those that wait. -/
theorem semTake_ksem (h : Lists k) (ho : (k.obj o).objType = .sem)
    (hactive : (k.task k.active).state = .rdy) (hidle : k.active ≠ k.idle) (ticks : Nat) :
    ∃ pos, ((k.semTake o ticks).1, ((k.semTake o ticks).2.obj o).ksem)
      = (k.obj o).ksem.take k.active ticks (decide (k.intrptNested > 0))
          (decide (k.schedLock > 0)) pos := by
  -- The place in the list is what the priorities say.
  rcases orderedInsert_at (fun a b => (k.task b).prio > (k.task a).prio) k.active
    (k.obj o).blkList with ⟨pos, hpos, hins⟩
  refine ⟨pos, ?_⟩
  unfold Kernel.semTake Ksem.take
  by_cases hint : k.intrptNested > 0
  · rw [if_pos hint, decide_eq_true hint, if_pos rfl]
    rfl
  · rw [if_neg hint, decide_eq_false hint, if_neg Bool.false_ne_true, if_neg (not_not.mpr ho)]
    by_cases hcount : (k.obj o).count > 0
    · rw [if_pos hcount, if_pos (show (k.obj o).ksem.count > 0 from hcount)]
      unfold Kernel.ret Kernel.modObj
      dsimp only
      rw [Function.update_self]
      rfl
    · rw [if_neg hcount, if_neg (show ¬(k.obj o).ksem.count > 0 from hcount)]
      by_cases hticks : ticks = 0
      · rw [if_pos hticks, if_pos hticks]
        rfl
      · rw [if_neg hticks, if_neg hticks]
        by_cases hlock : k.schedLock > 0
        · rw [if_pos hlock, decide_eq_true hlock, if_pos rfl]
          rfl
        · rw [if_neg hlock, decide_eq_false hlock, if_neg Bool.false_ne_true]
          rcases pendToBlkObj_eq h hactive hidle o ticks with ⟨r, l, b, m, n, heq, -⟩
          dsimp only
          rw [obj_coreSched, heq]
          dsimp only
          rw [Function.update_self]
          unfold Kobj.ksem pendListAdd
          dsimp only
          rw [hins, Nat.min_eq_left hpos]

end Kernel

/-! ## Runs -/

namespace SemLedger

variable {T : Type} [DecidableEq T]

/-- The tokens are the first ones and those posted and not taken; they are a count that is not
    negative, and no more than the semaphore is for. -/
structure Bounded (maxCount initialCount : BitVec 32) (s : SemLedger T) : Prop where
  tokens : s.sem.getCount = initialCount.toInt + s.posts - s.takes
  nonneg : 0 ≤ s.sem.getCount
  le_max : s.sem.getCount ≤ maxCount.toInt

/-- A step keeps the bound, and a post that would exceed it returns an error and changes
    nothing. -/
def Refuses (maxCount initialCount : BitVec 32) (s : SemLedger T) (a : SemAct T) : Prop :=
  (∀ t, s.step a = some t → t.Bounded maxCount initialCount) ∧
    (a = .post → s.sem.blkList = [] → s.sem.getCount = maxCount.toInt →
      s.sem.post.1 ≠ 0 ∧ s.sem.post.2 = s.sem)

/-- A post finds a task that waits, or less tokens than the semaphore is for. -/
def Room (maxCount : BitVec 32) (s : SemLedger T) (a : SemAct T) : Prop :=
  a = .post → s.sem.blkList ≠ [] ∨ s.sem.count < maxCount.toNat

/-- What the bound says of the count itself. -/
structure Counted (maxCount initialCount : BitVec 32) (s : SemLedger T) : Prop where
  tokens : s.sem.count + s.takes = initialCount.toNat + s.posts
  le_max : s.sem.count ≤ maxCount.toNat

section Step

omit [DecidableEq T]

variable {maxCount initialCount : BitVec 32} {s : SemLedger T}

/-- A number that is not negative is read as it is. -/
theorem toInt_of_nonneg {x : BitVec 32} (h : 0 ≤ x.toInt) :
    x.toInt = x.toNat ∧ x.toNat < 2 ^ 31 := by
  have hlt := x.isLt
  rw [BitVec.toInt_eq_toNat_cond] at h ⊢
  split
  · exact ⟨rfl, by omega⟩
  · omega

theorem getCount_eq (sem : Ksem T) (h : sem.count < 2 ^ 31) : sem.getCount = sem.count := by
  unfold Ksem.getCount
  rw [BitVec.toInt_eq_toNat_of_lt]
  · rw [BitVec.toNat_ofNat, Nat.mod_eq_of_lt (by omega)]
  · rw [BitVec.toNat_ofNat]
    omega

theorem Counted.bounded (h : s.Counted maxCount initialCount) (hmax : 0 < maxCount.toInt)
    (hinit : 0 ≤ initialCount.toInt) : s.Bounded maxCount initialCount := by
  rcases toInt_of_nonneg hmax.le with ⟨hm, hlt⟩
  rcases toInt_of_nonneg hinit with ⟨hi, -⟩
  have hle := h.le_max
  have htokens := h.tokens
  have hcount := getCount_eq s.sem (by omega)
  constructor
  · rw [hcount, hi]
    omega
  · rw [hcount]
    omega
  · rw [hcount, hm]
    omega

theorem post_empty {sem : Ksem T} (hblk : sem.blkList = []) (hcount : sem.count ≠ 2 ^ 32 - 1) :
    sem.post = (0, { sem with
      count := sem.count + 1, peakCount := max sem.peakCount (sem.count + 1) }) := by
  unfold Ksem.post Ksem.give
  rw [hblk]
  dsimp only
  rw [if_neg hcount, if_pos rfl]

theorem post_handed {sem : Ksem T} {u : T} {rest : List T} (hblk : sem.blkList = u :: rest) :
    sem.post = (0, { sem with blkList := rest }) := by
  unfold Ksem.post Ksem.give
  rw [hblk]
  rfl

/-- A wait takes a token and succeeds, or takes none and does not. -/
theorem wait_cases (sem : Ksem T) (t : T) (timeout : BitVec 32) (intrpt locked : Bool) (pos : Nat) :
    (0 < sem.count ∧ (sem.wait t timeout intrpt locked pos).1 = some 0 ∧
        (sem.wait t timeout intrpt locked pos).2.count + 1 = sem.count) ∨
      ((sem.wait t timeout intrpt locked pos).1 ≠ some 0 ∧
        (sem.wait t timeout intrpt locked pos).2.count = sem.count) := by
  unfold Ksem.wait Ksem.take
  dsimp only
  generalize (if timeout.toInt < 0 then waitForever else timeout.toNat) = ticks
  by_cases hint : intrpt = true
  · rw [if_pos hint]
    exact .inr ⟨by simp, rfl⟩
  · rw [if_neg hint]
    by_cases hcount : sem.count > 0
    · rw [if_pos hcount]
      exact .inl ⟨hcount, rfl, Nat.sub_add_cancel hcount⟩
    · rw [if_neg hcount]
      by_cases hticks : ticks = 0
      · rw [if_pos hticks]
        exact .inr ⟨by simp, rfl⟩
      · rw [if_neg hticks]
        by_cases hlock : locked = true
        · rw [if_pos hlock]
          exact .inr ⟨by simp, rfl⟩
        · rw [if_neg hlock]
          exact .inr ⟨by simp, rfl⟩

end Step

section Run

variable {maxCount initialCount : BitVec 32} {s : SemLedger T}

/-- A step keeps the count, if a post finds room. -/
theorem step_counted (h : s.Counted maxCount initialCount) (hmax : 0 < maxCount.toInt)
    {a : SemAct T} (hroom : s.Room maxCount a) {t : SemLedger T} (ht : s.step a = some t) :
    t.Counted maxCount initialCount := by
  have hm := (toInt_of_nonneg hmax.le).2
  have htokens := h.tokens
  have hle := h.le_max
  unfold step at ht
  cases a with
  | post =>
      dsimp only at ht
      cases hblk : s.sem.blkList with
      | nil =>
          have hlt : s.sem.count < maxCount.toNat := by
            rcases hroom rfl with hne | hlt
            · exact absurd hblk hne
            · exact hlt
          rw [post_empty hblk (by omega), if_pos rfl, hblk, if_neg fun hne => hne rfl] at ht
          cases ht
          exact ⟨by dsimp only; omega, hlt⟩
      | cons u rest =>
          rw [post_handed hblk, if_pos rfl, hblk, if_pos (List.cons_ne_nil u rest)] at ht
          cases ht
          exact ⟨by dsimp only; omega, hle⟩
  | wait u timeout intrpt locked pos =>
      dsimp only at ht
      split at ht
      · cases ht
      · rcases wait_cases s.sem u timeout intrpt locked pos with
          ⟨hpos, hret, hcount⟩ | ⟨hret, hcount⟩
        · rw [if_pos hret] at ht
          cases ht
          exact ⟨by dsimp only; omega, by dsimp only; omega⟩
        · rw [if_neg hret] at ht
          cases ht
          exact ⟨by dsimp only; omega, by dsimp only; omega⟩
  | leave u =>
      dsimp only at ht
      split at ht
      · cases ht
        exact ⟨htokens, hle⟩
      · cases ht

/-- A step does what it should exactly if a post finds room. -/
theorem refuses_iff (h : s.Counted maxCount initialCount) (hmax : 0 < maxCount.toInt)
    (hinit : 0 ≤ initialCount.toInt) (a : SemAct T) :
    s.Refuses maxCount initialCount a ↔ s.Room maxCount a := by
  rcases toInt_of_nonneg hmax.le with ⟨hm, hlt⟩
  have hle := h.le_max
  have hcount := getCount_eq s.sem (by omega)
  constructor
  · intro hrefuses hpost
    by_contra hfull
    rw [not_or, not_not, Nat.not_lt] at hfull
    -- The semaphore is full and nobody waits, and the post is accepted.
    have hsame := hrefuses.2 hpost hfull.1 (by rw [hcount, hm]; omega)
    rw [post_empty hfull.1 (by omega)] at hsame
    exact hsame.1 rfl
  · intro hroom
    refine ⟨fun t ht => (step_counted h hmax hroom ht).bounded hmax hinit, ?_⟩
    intro hpost hblk hfull
    rcases hroom hpost with hne | hroom
    · exact absurd hblk hne
    · rw [hcount, hm] at hfull
      omega

/-- In a run with a semaphore that was created, every step keeps the bound exactly if every post
    finds room. -/
theorem bounded_iff {sem : Ksem T} {room : Bool}
    (hnew : csiKernelSemNew room maxCount initialCount = some sem) (as : List (SemAct T)) :
    Run.Along step (Refuses maxCount initialCount) ⟨sem, 0, 0⟩ as ↔
      Run.Along step (Room maxCount) ⟨sem, 0, 0⟩ as := by
  unfold csiKernelSemNew at hnew
  by_cases hrange : maxCount.toInt ≤ 0 ∨ initialCount.toInt < 0
  · rw [if_pos hrange] at hnew
    cases hnew
  · rw [if_neg hrange] at hnew
    by_cases hless : maxCount.toInt < initialCount.toInt
    · rw [if_pos hless] at hnew
      cases hnew
    · rw [if_neg hless] at hnew
      rw [not_or, not_le, not_lt] at hrange
      rcases hrange with ⟨hmax, hinit⟩
      have hm := (toInt_of_nonneg hmax.le).1
      have hi := (toInt_of_nonneg hinit).1
      split at hnew
      · cases hnew
        refine Run.along_iff (fun s a t h hroom hs => step_counted h hmax hroom hs)
          (fun s a h => refuses_iff h hmax hinit a) as _ ⟨rfl, ?_⟩
        dsimp only
        omega
      · cases hnew

/-- A semaphore for two tokens that has one: a wait takes it, and two posts find room. -/
theorem bounded_two : Run.Along step (Refuses 2 1) (⟨⟨1, 1, []⟩, 0, 0⟩ : SemLedger (Fin 2))
    [.wait 0 0 false false 0, .post, .post] := by
  refine (@bounded_iff (Fin 2) _ 2 1 _ true (by decide) _).mpr ?_
  refine Run.along_cons ?_ rfl (Run.along_cons ?_ rfl (Run.along_cons ?_ rfl trivial))
  · exact fun hpost => nomatch hpost
  · exact fun _ => .inr (by decide)
  · exact fun _ => .inr (by decide)

/-- A semaphore for one token that has it gets another one. -/
theorem second_token_accepted :
    ¬∀ (sem : Ksem (Fin 2)) (as : List (SemAct (Fin 2))), csiKernelSemNew true 1 1 = some sem →
      Run.Along step (Refuses 1 1) ⟨sem, 0, 0⟩ as := by
  intro hall
  have hsame := (hall ⟨1, 1, []⟩ [.post] (by decide)).1.2 rfl rfl (by decide)
  exact hsame.1 (by decide)

end Run

end SemLedger

end Rhino

end Wujian100
