import Wujian100.Core.Rhino.BufQueue
import Wujian100.Theory.Rhino.Ringbuf
import Wujian100.Library.Run

/-!
# The Buffer Queue Delivers What Was Sent

A message goes through the ring or straight to a task that waits. The two ways
keep one order, since a task waits only while the ring is empty, and they differ
in what they copy: the direct way copies what was sent, the ring of a queue of
fixed length copies a whole block. A queue of variable length therefore delivers
every message as it was sent, and one of fixed length does so if what goes into
its ring fills a block.

## Main definitions

* `Delivery`: The order a queue is for.
* `Fits`: A send that the ring copies as it is.
* `DeliveryInv`: The queue, its tasks and their messages are where the order has
  them.

## Theorems

* `send_inv`, `recv_inv`, `resume_inv`: One call.
* `messages_exact`: Every run of sends that fit.
* `short_message_padded`: A short message comes back longer.
-/

namespace Wujian100

namespace Rhino

/-! ## The order of messages -/

/-- The messages in the queue, and the message each task was given and has not
    obtained yet. -/
structure Delivery (T : Type) where
  queue : List (List UInt8)
  hand : T → Option (List UInt8)

namespace Delivery

variable {T : Type} [DecidableEq T]

/-- First in, first out; and a task obtains what it was given. -/
def step (d : Delivery T) : QueueEvent T → Option (Delivery T)
  | .sent m => some { d with queue := d.queue ++ [m] }
  | .took t =>
      match d.queue with
      | [] => none
      | m :: queue => some { queue := queue, hand := Function.update d.hand t (some m) }
  | .obtained t m =>
      if d.hand t = some m then some { d with hand := Function.update d.hand t none } else none
  | .flushed => some { d with queue := [] }

/-- Nothing sent. -/
def start : Delivery T where
  queue := []
  hand := fun _ => none

end Delivery

/-- What a queue of fixed length copies into its ring is a whole block. -/
def Fits {T : Type} (s : System T) : QueueOp T → Prop
  | .send _ msgSize =>
      s.queue.ringbuf.type = .dyn ∨ s.queue.blkList ≠ [] ∨ s.queue.ringbuf.isFull = true ∨
        msgSize = 0 ∨ s.queue.maxMsgSize ≤ msgSize
  | _ => True

/-! ## The invariant -/

/-- The ring holds the queue, tasks wait only while it is empty, and a task that
    was woken has its message in its memory. -/
structure DeliveryInv {T : Type} (s : System T) (d : Delivery T) : Prop where
  holds : Holds s.queue.ringbuf d.queue
  num : s.queue.curNum = d.queue.length
  maxSize : s.queue.maxMsgSize = s.queue.ringbuf.blkSize
  idle : s.queue.blkList ≠ [] → d.queue = []
  nodup : s.queue.blkList.Nodup
  pend : ∀ t, t ∈ s.queue.blkList ↔ s.waiting t = .pend
  finish : ∀ t, s.waiting t = .finish →
    d.hand t = some (window (s.msg t) 0 (s.bqMsgSize t))

/-- What happened since the queue was created is a run of `Delivery`. -/
def Delivered {T : Type} [DecidableEq T] (s : System T) : Prop :=
  ∃ d, Run.run Delivery.step Delivery.start s.events = some d ∧ DeliveryInv s d

section Steps

variable {T : Type} {s : System T} {d : Delivery T}

/-- Tasks that neither wait nor were woken are of no concern. -/
theorem DeliveryInv.of_waiting (h : DeliveryInv s d) {s' : System T}
    (hring : s'.queue.ringbuf = s.queue.ringbuf) (hmax : s'.queue.maxMsgSize = s.queue.maxMsgSize)
    (hnum : s'.queue.curNum = s.queue.curNum) (hlist : s'.queue.blkList.Nodup)
    (hidle : s'.queue.blkList ≠ [] → s.queue.blkList ≠ [])
    (hpend : ∀ t, t ∈ s'.queue.blkList ↔ s'.waiting t = .pend)
    (hfinish : ∀ t, s'.waiting t = .finish →
      s.waiting t = .finish ∧ s'.msg t = s.msg t ∧ s'.bqMsgSize t = s.bqMsgSize t) :
    DeliveryInv s' d := by
  refine ⟨by rw [hring]; exact h.holds, hnum.trans h.num, by rw [hmax, hring]; exact h.maxSize,
    fun hne => h.idle (hidle hne), hlist, hpend, ?_⟩
  intro t ht
  rcases hfinish t ht with ⟨hfin, hmsg, hsize⟩
  rw [hmsg, hsize]
  exact h.finish t hfin

variable [DecidableEq T]

/-- The events of a run, then those of a step. -/
theorem Delivered.log {s' : System T} {es : List (QueueEvent T)}
    (hd : Run.run Delivery.step Delivery.start s.events = some d) (d' : Delivery T)
    (hevents : s'.events = s.events ++ es) (hes : Run.run Delivery.step d es = some d')
    (h : DeliveryInv s' d') : Delivered s' := by
  refine ⟨d', ?_, h⟩
  rw [hevents, Run.run_append hd]
  exact hes

/-- Into the ring, where nobody waits. -/
theorem send_ring_inv (h : DeliveryInv s d) {msg : Nat → UInt8} {n : Nat}
    (hn : 1 ≤ n) (hmax : n ≤ s.queue.maxMsgSize) (hempty : s.queue.blkList = [])
    (hfits : Fits s (.send msg n)) (hd : Run.run Delivery.step Delivery.start s.events = some d) :
    Delivered (s.send msg n).2 := by
  have hblock : s.queue.ringbuf.type = .fix → s.queue.ringbuf.isFull = false →
      n = s.queue.ringbuf.blkSize := by
    intro htype hroom
    rcases hfits with hf | hf | hf | hf | hf
    · rw [htype] at hf
      cases hf
    · exact absurd hempty hf
    · rw [hroom] at hf
      cases hf
    · omega
    · rw [← h.maxSize]
      omega
  unfold System.send
  rw [if_neg (by omega), if_neg (by omega), hempty]
  dsimp only
  rcases @push_holds _ _ h.holds msg n hn hblock with ⟨hs, hq, hshape⟩ | herr
  · rw [if_neg (by simp [hs])]
    refine Delivered.log hd { d with queue := d.queue ++ [window msg 0 n] } rfl rfl ?_
    refine ⟨hq, ?_, h.maxSize.trans hshape.blkSize.symm, ?_, h.nodup, h.pend, h.finish⟩
    · change s.queue.curNum + 1 = _
      rw [h.num, List.length_append, List.length_singleton]
    · intro hne
      exact absurd hempty hne
  · rw [if_pos herr]
    exact ⟨d, hd, h⟩

/-- Straight to the first task that waits. -/
theorem send_task_inv (h : DeliveryInv s d) {msg : Nat → UInt8} {n : Nat} {t : T} {rest : List T}
    (hn : 1 ≤ n) (hmax : n ≤ s.queue.maxMsgSize) (hlist : s.queue.blkList = t :: rest)
    (hd : Run.run Delivery.step Delivery.start s.events = some d) :
    Delivered (s.send msg n).2 := by
  have hqueue := h.idle (by rw [hlist]; simp)
  have hnodup := h.nodup
  rw [hlist, List.nodup_cons] at hnodup
  unfold System.send
  rw [if_neg (by omega), if_neg (by omega), hlist]
  dsimp only
  -- The message enters the empty queue and leaves it at once.
  have hes : Run.run Delivery.step d [.sent (window msg 0 n), .took t]
      = some { queue := [], hand := Function.update d.hand t (some (window msg 0 n)) } := by
    simp [Run.run, Delivery.step, hqueue]
  refine Delivered.log hd _ rfl hes ?_
  have herase : s.queue.blkList.erase t = rest := by
    rw [hlist, List.erase_cons_head]
  have hblk : ((s.wakeup t).queue.blkList) = rest := herase
  refine ⟨?_, ?_, h.maxSize, fun _ => rfl, ?_, ?_, ?_⟩
  · rw [← hqueue]
    exact h.holds
  · change s.queue.curNum = _
    rw [h.num, hqueue]
  · change (s.queue.blkList.erase t).Nodup
    rw [herase]
    exact hnodup.2
  · intro u
    change u ∈ s.queue.blkList.erase t ↔ Function.update s.waiting t .finish u = .pend
    rw [herase]
    by_cases hu : u = t
    · rw [hu, Function.update_self]
      simp [hnodup.1]
    · rw [Function.update_of_ne hu, ← h.pend u, hlist]
      simp [hu]
  · intro u hu
    change Function.update d.hand t _ u = some (window (Function.update s.msg t _ u) 0
      (Function.update s.bqMsgSize t n u))
    change Function.update s.waiting t .finish u = .finish at hu
    by_cases hut : u = t
    · subst hut
      simp only [Function.update_self]
      rw [window_blit]
    · rw [Function.update_of_ne hut] at hu ⊢
      rw [Function.update_of_ne hut, Function.update_of_ne hut]
      exact h.finish u hu

/-- A send. -/
theorem send_inv (h : Delivered s) {msg : Nat → UInt8} {n : Nat} (hfits : Fits s (.send msg n)) :
    Delivered (s.send msg n).2 := by
  rcases h with ⟨d, hd, h⟩
  by_cases hover : n > s.queue.maxMsgSize
  · unfold System.send
    rw [if_pos hover]
    exact ⟨d, hd, h⟩
  · by_cases hzero : n = 0
    · unfold System.send
      rw [if_neg hover, if_pos hzero]
      exact ⟨d, hd, h⟩
    · cases hlist : s.queue.blkList with
      | nil => exact send_ring_inv h (by omega) (by omega) hlist hfits hd
      | cons t rest => exact send_task_inv h (by omega) (by omega) hlist hd

/-- A receive, of a task that is outside of the queue. -/
theorem recv_inv (h : Delivered s) {t : T} (ht : s.waiting t = .no) (msg : Nat → UInt8)
    (size : Nat) (wait intrpt schedLock : Bool) :
    Delivered (s.recv t msg size wait intrpt schedLock).2 := by
  rcases h with ⟨d, hd, h⟩
  unfold System.recv
  split_ifs with hintr hne hwait hlock
  · exact ⟨d, hd, h⟩
  · -- The oldest message, from the ring.
    have hq : d.queue ≠ [] := by
      intro hnil
      rw [h.holds.isEmpty_iff.mpr hnil] at hne
      cases hne
    rcases List.exists_cons_of_ne_nil hq with ⟨m, queue, hqueue⟩
    have hholds := h.holds
    rw [hqueue] at hholds
    rcases pop_holds hholds msg size with ⟨hm, hring, hshape⟩
    dsimp only
    rw [hm]
    have hes : Run.run Delivery.step d [.took t, .obtained t m]
        = some { queue := queue
                 hand := Function.update (Function.update d.hand t (some m)) t none } := by
      simp [Run.run, Delivery.step, hqueue]
    refine Delivered.log hd _ rfl hes ?_
    refine ⟨hring, ?_, h.maxSize.trans hshape.blkSize.symm, ?_, h.nodup, h.pend, ?_⟩
    · change s.queue.curNum - 1 = _
      rw [h.num, hqueue]
      rfl
    · intro hblk
      exact absurd (h.idle hblk) hq
    · intro u hu
      have hut : u ≠ t := by
        intro he
        rw [he] at hu
        exact absurd (ht.symm.trans hu) (by simp)
      change Function.update (Function.update d.hand t (some m)) t none u = _
      rw [Function.update_of_ne hut, Function.update_of_ne hut]
      exact h.finish u hu
  · exact ⟨d, hd, h⟩
  · exact ⟨d, hd, h⟩
  · -- The task waits, since the ring is empty.
    have hqueue : d.queue = [] := h.holds.isEmpty_iff.mp (by simpa using hne)
    have hnot : t ∉ s.queue.blkList := by
      intro hmem
      exact absurd (ht.symm.trans ((h.pend t).mp hmem)) (by simp)
    refine ⟨d, hd, h.holds, h.num, h.maxSize, fun _ => hqueue,
      nodup_orderedInsert.mpr ⟨hnot, h.nodup⟩, ?_, ?_⟩
    · intro u
      change u ∈ pendListAdd s.prio t s.queue.blkList ↔ Function.update s.waiting t .pend u = .pend
      unfold pendListAdd
      rw [List.mem_orderedInsert]
      by_cases hut : u = t
      · simp [hut]
      · rw [Function.update_of_ne hut, ← h.pend u]
        simp [hut]
    · intro u hu
      change Function.update s.waiting t .pend u = .finish at hu
      have hut : u ≠ t := by
        intro he
        rw [he, Function.update_self] at hu
        cases hu
      rw [Function.update_of_ne hut] at hu
      change d.hand u = some (window (Function.update s.msg t msg u) 0 (s.bqMsgSize u))
      rw [Function.update_of_ne hut]
      exact h.finish u hu

/-- A task that was woken finds what it was given, whatever happened since. -/
theorem resume_inv (h : Delivered s) {t : T} {r : Kstat × Nat} {s' : System T}
    (hres : s.resume t = some (r, s')) : Delivered s' := by
  rcases h with ⟨d, hd, h⟩
  unfold System.resume at hres
  -- The task that goes on was not on the list.
  have hpend : ∀ u, s.waiting t ≠ .pend →
      (u ∈ s.queue.blkList ↔ Function.update s.waiting t .no u = .pend) := by
    intro u hne
    by_cases hut : u = t
    · rw [hut, Function.update_self, h.pend t]
      simp [hne]
    · rw [Function.update_of_ne hut]
      exact h.pend u
  have hother : ∀ u, Function.update s.waiting t .no u = .finish → u ≠ t ∧ s.waiting u = .finish := by
    intro u hu
    have hut : u ≠ t := by
      intro he
      rw [he, Function.update_self] at hu
      cases hu
    rw [Function.update_of_ne hut] at hu
    exact ⟨hut, hu⟩
  cases hw : s.waiting t with
  | no =>
      rw [hw] at hres
      cases hres
  | pend =>
      rw [hw] at hres
      cases hres
  | finish =>
      rw [hw] at hres
      simp only [Option.some.injEq, Prod.mk.injEq] at hres
      rw [← hres.2]
      -- It gets what is in its hand: what the sender put into its buffer.
      have hes : Run.run Delivery.step d [.obtained t (window (s.msg t) 0 (s.bqMsgSize t))]
          = some { d with hand := Function.update d.hand t none } := by
        simp [Run.run, Delivery.step, h.finish t hw]
      refine Delivered.log hd _ rfl hes ?_
      refine ⟨h.holds, h.num, h.maxSize, h.idle, h.nodup, fun u => hpend u (by simp [hw]), ?_⟩
      intro u hu
      rcases hother u hu with ⟨hut, hfin⟩
      change Function.update d.hand t none u = _
      rw [Function.update_of_ne hut]
      exact h.finish u hfin
  | timeout =>
      rw [hw] at hres
      simp only [Option.some.injEq, Prod.mk.injEq] at hres
      rw [← hres.2]
      refine ⟨d, hd, h.of_waiting rfl rfl rfl h.nodup id (fun u => hpend u (by simp [hw])) ?_⟩
      intro u hu
      exact ⟨(hother u hu).2, rfl, rfl⟩

theorem flush_inv (h : Delivered s) : Delivered s.flush := by
  rcases h with ⟨d, hd, h⟩
  refine Delivered.log hd { d with queue := [] } rfl rfl ?_
  exact ⟨reset_holds h.holds, rfl, h.maxSize, fun _ => rfl, h.nodup, h.pend, h.finish⟩

/-- A task leaves the list, out of time or deleted. -/
theorem leave_inv (h : Delivered s) {t : T} {w : Waiting} (hpend : w ≠ .pend)
    (hfinish : w ≠ .finish) : Delivered (s.leave t w) := by
  rcases h with ⟨d, hd, h⟩
  refine ⟨d, hd, h.of_waiting rfl rfl rfl (h.nodup.erase t) ?_ ?_ ?_⟩
  · intro hne hnil
    apply hne
    change s.queue.blkList.erase t = []
    rw [hnil, List.erase_nil]
  · intro u
    change u ∈ s.queue.blkList.erase t ↔ Function.update s.waiting t w u = .pend
    by_cases hut : u = t
    · rw [hut, Function.update_self]
      simp [hpend, h.nodup.not_mem_erase]
    · rw [Function.update_of_ne hut, List.mem_erase_of_ne hut]
      exact h.pend u
  · intro u hu
    change Function.update s.waiting t w u = .finish at hu
    by_cases hut : u = t
    · rw [hut, Function.update_self] at hu
      exact absurd hu hfinish
    · rw [Function.update_of_ne hut] at hu
      exact ⟨hu, rfl, rfl⟩

/-- A change of priority moves a task among those that wait, and nothing else. -/
theorem setPrio_inv (h : Delivered s) (t : T) (p : Nat) : Delivered (s.setPrio t p) := by
  rcases h with ⟨d, hd, h⟩
  unfold System.setPrio
  dsimp only
  by_cases hw : s.waiting t = .pend
  · rw [if_pos hw]
    have hmem := (h.pend t).mpr hw
    refine ⟨d, hd, h.of_waiting rfl rfl rfl ?_ ?_ ?_ ?_⟩
    · exact nodup_orderedInsert.mpr ⟨h.nodup.not_mem_erase, h.nodup.erase t⟩
    · intro _ hnil
      rw [hnil] at hmem
      exact absurd hmem (by simp)
    · intro u
      change u ∈ pendListAdd _ t (s.queue.blkList.erase t) ↔ s.waiting u = .pend
      unfold pendListAdd
      rw [List.mem_orderedInsert]
      by_cases hut : u = t
      · simp [hut, hw]
      · rw [List.mem_erase_of_ne hut, ← h.pend u]
        simp [hut]
    · intro u hu
      exact ⟨hu, rfl, rfl⟩
  · rw [if_neg hw]
    exact ⟨d, hd, h.of_waiting rfl rfl rfl h.nodup id h.pend fun u hu => ⟨hu, rfl, rfl⟩⟩

/-- One step. -/
theorem step_delivered (s : System T) (op : QueueOp T) (s' : System T) (h : Delivered s)
    (hfits : Fits s op) (hstep : s.step op = some s') : Delivered s' := by
  cases op with
  | send msg n =>
      simp only [System.step, Option.some.injEq] at hstep
      rw [← hstep]
      exact send_inv h hfits
  | recv t msg size wait intrpt schedLock =>
      simp only [System.step] at hstep
      by_cases ht : s.waiting t = .no
      · rw [if_pos ht, Option.some.injEq] at hstep
        rw [← hstep]
        exact recv_inv h ht msg size wait intrpt schedLock
      · rw [if_neg ht] at hstep
        cases hstep
  | resume t =>
      simp only [System.step, Option.map_eq_some_iff] at hstep
      rcases hstep with ⟨r, hres, rfl⟩
      exact resume_inv h hres
  | flush =>
      simp only [System.step, Option.some.injEq] at hstep
      rw [← hstep]
      exact flush_inv h
  | timeout t =>
      simp only [System.step] at hstep
      by_cases ht : s.waiting t = .pend
      · rw [if_pos ht, Option.some.injEq] at hstep
        rw [← hstep]
        exact leave_inv h (by simp) (by simp)
      · rw [if_neg ht] at hstep
        cases hstep
  | delete t =>
      simp only [System.step, Option.some.injEq] at hstep
      rw [← hstep]
      exact leave_inv h (by simp) (by simp)
  | setPrio t p =>
      simp only [System.step, Option.some.injEq] at hstep
      rw [← hstep]
      exact setPrio_inv h t p

end Steps

/-! ## Runs -/

/-- A queue as one of the two calls creates it. The buffer of a queue of fixed
    length is an object of the memory, so its length is a `size_t`. -/
inductive Created {T : Type} (q : BufQueue T) : Prop where
  | dyn (buf : Nat → UInt8) (size maxMsg : Nat) (h : BufQueue.bufQueueCreate buf size maxMsg = .ok q)
  | fix (buf : Nat → UInt8) (msgSize msgNum : Nat) (hbuf : msgSize * msgNum < 2 ^ 32)
      (h : BufQueue.fixBufQueueCreate buf msgSize msgNum = .ok q)

theorem init_stored (mem : Nat → UInt8) (len : Nat) (type : RingType) (blockSize : Nat) :
    Stored (.init mem len type blockSize) [] := by
  refine ⟨Nat.zero_le _, Nat.zero_le _, rfl, rfl, ?_⟩
  intro i b hb
  exact absurd hb (by simp)

/-- A queue that was just created is empty. -/
theorem Created.inv {T : Type} [DecidableEq T] {q : BufQueue T} (hq : Created q) (prio : T → Nat)
    (msg : T → Nat → UInt8) (bqMsgSize : T → Nat) :
    Delivered (System.start q prio msg bqMsgSize) := by
  have hstart : ∀ (buf : Nat → UInt8) (size maxMsg : Nat) (type : RingType),
      BufQueue.create buf size maxMsg type = .ok q →
      Holds (.init buf size type maxMsg) [] → Delivered (System.start q prio msg bqMsgSize) := by
    intro buf size maxMsg type hcreate hholds
    unfold BufQueue.create at hcreate
    split_ifs at hcreate
    simp only [Except.ok.injEq] at hcreate
    rw [← hcreate]
    refine ⟨Delivery.start, rfl, hholds, rfl, rfl, fun _ => rfl, List.nodup_nil, ?_, ?_⟩
    · intro t
      simp [System.start]
    · intro t ht
      exact absurd ht (by simp [System.start])
  cases hq with
  | dyn buf size maxMsg h =>
      refine hstart _ _ _ _ h (.inl ⟨rfl, init_stored _ _ _ _, ?_⟩)
      intro m hm
      exact absurd hm (by simp)
  | fix buf msgSize msgNum hbuf h =>
      refine hstart _ _ _ _ h (.inr ⟨rfl, ?_, ?_, Nat.dvd_zero _, Nat.dvd_zero _,
        init_stored _ _ _ _, ?_⟩)
      · unfold BufQueue.fixBufQueueCreate BufQueue.create at h
        by_cases hzero : msgSize = 0
        · rw [if_pos hzero] at h
          cases h
        · exact Nat.pos_of_ne_zero hzero
      · change msgSize ∣ msgSize * msgNum % 2 ^ 32
        rw [Nat.mod_eq_of_lt hbuf]
        exact Nat.dvd_mul_right _ _
      · intro m hm
        exact absurd hm (by simp)

/-- Every buffer queue, in every run of calls by any tasks in which what a queue of
    fixed length copies into its ring fills a block: what the senders and receivers
    see is first in, first out, each receiver obtains the message it was given,
    byte for byte and with its length, and `cur_num` counts the messages stored. -/
theorem messages_exact {T : Type} [DecidableEq T] {q : BufQueue T} (hq : Created q)
    (prio : T → Nat) (msg : T → Nat → UInt8) (bqMsgSize : T → Nat) (ops : List (QueueOp T))
    (hfits : Run.Along System.step Fits (System.start q prio msg bqMsgSize) ops)
    (s : System T) (hrun : Run.run System.step (System.start q prio msg bqMsgSize) ops = some s) :
    ∃ d, Run.run Delivery.step Delivery.start s.events = some d ∧
      Holds s.queue.ringbuf d.queue ∧ s.queue.curNum = d.queue.length := by
  rcases Run.run_inv step_delivered ops _ s (hq.inv prio msg bqMsgSize) hfits hrun
    with ⟨d, hd, hinv⟩
  exact ⟨d, hd, hinv.holds, hinv.num⟩

instance {T : Type} (s : System T) : ∀ op : QueueOp T, Decidable (Fits s op)
  | .send _ _ => inferInstanceAs (Decidable (_ ∨ _ ∨ _ ∨ _ ∨ _))
  | .recv .. => isTrue trivial
  | .resume _ => isTrue trivial
  | .flush => isTrue trivial
  | .timeout _ => isTrue trivial
  | .delete _ => isTrue trivial
  | .setPrio _ _ => isTrue trivial

/-- A queue of two blocks of two bytes, and a task outside of it. -/
def twoBlocks : BufQueue Unit where
  ringbuf := .init (fun _ => 0) 4 .fix 2
  maxMsgSize := 2
  curNum := 0
  peakNum := 0
  minFreeBufSize := 4
  blkList := []

theorem twoBlocks_created : Created twoBlocks :=
  .fix (fun _ => 0) 2 2 (by decide) rfl

/-- The task outside of it. -/
def twoBlocksStart : System Unit :=
  .start twoBlocks (fun _ => 0) (fun _ _ => 0) (fun _ => 0)

/-- The task waits and is handed one byte, then finds two in the ring. -/
def handedThenStored : List (QueueOp Unit) :=
  [.recv () (fun _ => 0) 0 true false false, .send (fun _ => 7) 1, .resume (),
    .send (fun i => UInt8.ofNat i) 2, .recv () (fun _ => 0) 0 true false false]

theorem messages_exact_handed_then_stored :
    ∃ s, Run.run System.step twoBlocksStart handedThenStored = some s ∧
      ∃ d, Run.run Delivery.step Delivery.start s.events = some d ∧
        Holds s.queue.ringbuf d.queue ∧ s.queue.curNum = d.queue.length := by
  have hsome : (Run.run System.step twoBlocksStart handedThenStored).isSome = true := by decide
  rcases Option.isSome_iff_exists.mp hsome with ⟨s, hs⟩
  exact ⟨s, hs, messages_exact twoBlocks_created _ _ _ handedThenStored (by decide) s hs⟩

/-- One byte sent to a queue of blocks of two comes back as two bytes: what the
    callers see is no run of a queue. -/
theorem short_message_padded :
    Created twoBlocks ∧
      (Run.run System.step twoBlocksStart
        [.send (fun _ => 1) 1, .recv () (fun _ => 0) 0 true false false]).map
          (fun s => (s.events, (Run.run Delivery.step Delivery.start s.events).isSome))
        = some ([.sent [1], .took (), .obtained () [1, 1]], false) :=
  ⟨twoBlocks_created, by decide⟩

end Rhino

end Wujian100
