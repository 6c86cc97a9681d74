import Wujian100.Core.Rhino.Msgq
import Wujian100.Theory.Rhino.BufQueue

/-!
# Message Queues as Deques

What a message queue is for: a sequence of messages that can be put at either
end and are taken from the front, with room for a promised number of them.

The adapter passes either kind of put to the same send, so a put at the front
goes where it should only while nothing is stored. And the ring has one spare
message's length for the headers of all of them, which is enough for as many
messages as their length is a multiple of the header's.

## Main definitions

* `Serves`: What a deque may answer to a call.
* `RefinesDeque`: A run of a message queue that some deque also takes.
* `Roomy`: The headers fit in the spare message.
* `AtEnd`: A call for which the front is the back.
* `MsgqInv`: The buffer queue behind a message queue holds the deque.

## Theorems

* `put_cases`: What a put does.
* `step_serves`: One step, where there is room.
* `roomy_of_refines`: A queue that takes what it promised has the room.
* `msgq_refines_iff`: The queues that are deques, in the runs where the front is
  the back.
* `msgq_not_deque`: A put at the front, and a queue that is full too early.
-/

namespace Wujian100

namespace Rhino

/-- What a deque of messages of length `size` answers, with room for at least
    `cap`: the status, what the callers see happen, and what it holds then. A
    message that comes while a get waits is taken at once. -/
inductive Serves {T : Type} [DecidableEq T] (cap size : Nat) (d : Delivery T) :
    MsgqOp T → Option KStatus → List (QueueEvent T) → Delivery T → Prop
  | putBack (p : Nat → UInt8) :
      Serves cap size d (.put p 0) (some .ok) [.sent (window p 0 size)]
        { d with queue := d.queue ++ [window p 0 size] }
  | putFront (p : Nat → UInt8) :
      Serves cap size d (.put p 1) (some .ok) [.sent (window p 0 size)]
        { d with queue := window p 0 size :: d.queue }
  | putHanded (p : Nat → UInt8) (f : UInt8) (t : T) (hf : f = 0 ∨ f = 1) (hd : d.queue = []) :
      Serves cap size d (.put p f) (some .ok) [.sent (window p 0 size), .took t]
        { d with hand := Function.update d.hand t (some (window p 0 size)) }
  | putFull (p : Nat → UInt8) (f : UInt8) (hd : cap ≤ d.queue.length) :
      Serves cap size d (.put p f) (some .eperm) [] d
  | putInvalid (p : Nat → UInt8) (f : UInt8) (hf : f ≠ 0 ∧ f ≠ 1) :
      Serves cap size d (.put p f) (some .einval) [] d
  | getFirst (t : T) (p : Nat → UInt8) (timeout : Int) (n : Nat) (intrpt lock : Bool)
      (m : List UInt8) (rest : List (List UInt8)) (hd : d.queue = m :: rest) :
      Serves cap size d (.get t p timeout n intrpt lock) (some .ok) [.took t, .obtained t m]
        { queue := rest, hand := Function.update d.hand t none }
  | getEmpty (t : T) (p : Nat → UInt8) (timeout : Int) (n : Nat) (intrpt lock : Bool)
      (hd : d.queue = []) :
      Serves cap size d (.get t p timeout n intrpt lock) (some .eperm) [] d
  | getInIntrpt (t : T) (p : Nat → UInt8) (timeout : Int) (n : Nat) (lock : Bool)
      (ht : timeout ≠ 0) :
      Serves cap size d (.get t p timeout n true lock) (some .eperm) [] d
  | getWaits (t : T) (p : Nat → UInt8) (timeout : Int) (n : Nat) (intrpt lock : Bool)
      (hd : d.queue = []) (ht : timeout ≠ 0) :
      Serves cap size d (.get t p timeout n intrpt lock) none [] d
  | getHanded (t : T) (m : List UInt8) (hd : d.hand t = some m) :
      Serves cap size d (.resume t) (some .ok) [.obtained t m]
        { d with hand := Function.update d.hand t none }
  | getTimedOut (t : T) : Serves cap size d (.resume t) (some .etimedout) [] d
  | flush : Serves cap size d .flush (some .ok) [.flushed] { d with queue := [] }
  | timeout (t : T) : Serves cap size d (.timeout t) none [] d
  | delete (t : T) : Serves cap size d (.delete t) none [] d
  | setPrio (t : T) (p : Nat) : Serves cap size d (.setPrio t p) none [] d

/-- Some deque answers every call of the run as the queue does, and the count is
    the number of messages it holds. -/
def RefinesDeque {T : Type} [DecidableEq T] : Msgq T → Delivery T → List (MsgqOp T) → Prop
  | q, d, [] => q.getCount = d.queue.length
  | q, d, op :: ops =>
      q.getCount = d.queue.length ∧
        ∀ ans q', q.step op = some (ans, q') →
          ∃ es d', q'.bufQ.events = q.bufQ.events ++ es ∧
            Serves q.getCapacity q.msgSize d op ans es d' ∧ RefinesDeque q' d' ops

/-- A length a header can say, and headers that fit in the spare message. -/
def Roomy (msgCount msgSize : Nat) : Prop :=
  msgSize ≤ len3BytesMax ∧ msgCount * compressLen msgSize ≤ msgSize

/-- A put at the front is made while nothing is stored, or no message more can
    be. -/
def AtEnd {T : Type} (q : Msgq T) : MsgqOp T → Prop
  | .put _ f => f = 1 → q.getCount = 0 ∨ q.getCapacity ≤ q.getCount
  | _ => True

/-- The queue a step leads to. -/
def Msgq.next {T : Type} [DecidableEq T] (q : Msgq T) (op : MsgqOp T) : Option (Msgq T) :=
  (q.step op).map Prod.snd

/-! ## The invariant -/

/-- The buffer queue holds the deque, in a ring of the size the adapter asked
    for. -/
structure MsgqInv {T : Type} [DecidableEq T] (q : Msgq T) (d : Delivery T) : Prop where
  replay : Run.run Delivery.step Delivery.start q.bufQ.events = some d
  inv : DeliveryInv q.bufQ d
  type : q.bufQ.queue.ringbuf.type = .dyn
  size : q.bufQ.queue.ringbuf.end_ = q.msgSize * (q.msgCount + 1)
  max : q.bufQ.queue.maxMsgSize = q.msgSize
  pos : 0 < q.msgSize
  lengths : ∀ m ∈ d.queue, m.length = q.msgSize

section Steps

variable {T : Type} [DecidableEq T] {q : Msgq T} {d : Delivery T}

/-- The events of a step determine what the deque holds after it. -/
theorem Delivered.next {s s' : System T} {d' : Delivery T} {es : List (QueueEvent T)}
    (hd : Run.run Delivery.step Delivery.start s.events = some d) (h : Delivered s')
    (hevents : s'.events = s.events ++ es) (hes : Run.run Delivery.step d es = some d') :
    Run.run Delivery.step Delivery.start s'.events = some d' ∧ DeliveryInv s' d' := by
  obtain ⟨d'', hd'', hinv⟩ := h
  have hrun : Run.run Delivery.step Delivery.start s'.events = some d' := by
    rw [hevents, Run.run_append hd]
    exact hes
  rw [hrun, Option.some.injEq] at hd''
  rw [hd'']
  exact ⟨hd'' ▸ hrun, hinv⟩

/-- A ring of variable length holds its messages with their headers. -/
theorem MsgqInv.queued (h : MsgqInv q d) : Queued q.bufQ.queue.ringbuf d.queue := by
  rcases h.inv.holds with hq | hb
  · exact hq
  · have htype := hb.type
    rw [h.type] at htype
    cases htype

theorem bytes_uniform {n : Nat} {l : List (List UInt8)} (h : ∀ m ∈ l, m.length = n) :
    bytes l = l.length * (compressLen n + n) := by
  unfold bytes
  induction l with
  | nil => simp only [List.map_nil, List.sum_nil, List.length_nil, Nat.zero_mul]
  | cons m l ih =>
      have hm : m.length = n := h m (by simp)
      have hl := ih fun x hx => h x (by simp [hx])
      rw [List.map_cons, List.sum_cons, hl, hm, List.length_cons, Nat.succ_mul, Nat.add_comm]

/-- The free bytes of the ring, by the number of messages. -/
theorem MsgqInv.freesize (h : MsgqInv q d) : q.bufQ.queue.ringbuf.freesize +
    d.queue.length * (compressLen q.msgSize + q.msgSize) = q.msgSize * (q.msgCount + 1) := by
  have hfree := bytes_le h.queued
  rwa [bytes_uniform h.lengths, h.size] at hfree

/-- There is never room for more messages than were promised. -/
theorem MsgqInv.full (h : MsgqInv q d) (hfull : q.msgCount ≤ d.queue.length) :
    q.bufQ.queue.ringbuf.freesize < compressLen q.msgSize + q.msgSize := by
  have hfree := h.freesize
  have hpos := compressLen_pos q.msgSize
  have hmore : (q.msgCount + 1) * (compressLen q.msgSize + q.msgSize) ≤
      (d.queue.length + 1) * (compressLen q.msgSize + q.msgSize) :=
    Nat.mul_le_mul_right _ (by omega)
  have hheaders : q.msgSize * (q.msgCount + 1) <
      (q.msgCount + 1) * (compressLen q.msgSize + q.msgSize) := by
    rw [Nat.mul_comm]
    exact Nat.mul_lt_mul_of_pos_left (by omega) (by omega)
  rw [Nat.succ_mul d.queue.length] at hmore
  omega

/-- What the ring takes has a length a header can say, and fits. -/
theorem fits_of_pushed (h : MsgqInv q d) {p : Nat → UInt8}
    (hpush : (q.bufQ.queue.ringbuf.push p q.msgSize).1 = .success) :
    q.msgSize ≤ len3BytesMax ∧
      compressLen q.msgSize + q.msgSize ≤ q.bufQ.queue.ringbuf.freesize := by
  have hvalid : q.msgSize ≤ len3BytesMax := by
    have hfix : q.bufQ.queue.ringbuf.type = .fix → q.bufQ.queue.ringbuf.isFull = false →
        q.msgSize = q.bufQ.queue.ringbuf.blkSize := by
      intro hfix
      rw [h.type] at hfix
      cases hfix
    rcases @push_holds _ _ h.inv.holds p q.msgSize h.pos hfix with ⟨_, hq, hshape⟩ | hne
    · rcases hq with hq | hb
      · have hlen := (hq.valid (window p 0 q.msgSize) (by simp)).2
        rwa [length_window] at hlen
      · have htype := hshape.type.symm.trans hb.type
        rw [h.type] at htype
        cases htype
    · exact absurd hpush hne
  refine ⟨hvalid, ?_⟩
  by_contra hfit
  have hq := push_queued h.queued p ⟨h.pos, hvalid⟩
  rw [if_neg hfit] at hq
  rw [hq] at hpush
  cases hpush

/-- With room for the headers there is room for every message promised. -/
theorem MsgqInv.room (h : MsgqInv q d) (hroom : Roomy q.msgCount q.msgSize)
    (hless : d.queue.length < q.msgCount) :
    compressLen q.msgSize + q.msgSize ≤ q.bufQ.queue.ringbuf.freesize := by
  have hfree := h.freesize
  have hmore : (d.queue.length + 1) * (compressLen q.msgSize + q.msgSize) ≤
      q.msgCount * (compressLen q.msgSize + q.msgSize) :=
    Nat.mul_le_mul_right _ (by omega)
  have hheaders : q.msgCount * (compressLen q.msgSize + q.msgSize) ≤
      q.msgSize * (q.msgCount + 1) := by
    have hspare := hroom.2
    rw [Nat.mul_add, Nat.mul_succ, Nat.mul_comm q.msgSize q.msgCount]
    omega
  rw [Nat.succ_mul] at hmore
  omega

/-- A step that leaves the size of the ring keeps the invariant, with what its
    events make of the deque. -/
theorem MsgqInv.after (h : MsgqInv q d) {s' : System T} {d' : Delivery T}
    {es : List (QueueEvent T)} (hdel : Delivered s') (hevents : s'.events = q.bufQ.events ++ es)
    (hes : Run.run Delivery.step d es = some d')
    (hshape : SameShape q.bufQ.queue.ringbuf s'.queue.ringbuf)
    (hmax : s'.queue.maxMsgSize = q.bufQ.queue.maxMsgSize)
    (hlengths : ∀ m ∈ d'.queue, m.length = q.msgSize) : MsgqInv { q with bufQ := s' } d' := by
  have hnext := Delivered.next h.replay hdel hevents hes
  exact ⟨hnext.1, hnext.2, hshape.type.trans h.type, hshape.end_.trans h.size, hmax.trans h.max,
    h.pos, hlengths⟩

/-- A step that nothing is seen of. -/
theorem MsgqInv.quiet (h : MsgqInv q d) {s' : System T} (hdel : Delivered s')
    (hevents : s'.events = q.bufQ.events) (hring : s'.queue.ringbuf = q.bufQ.queue.ringbuf)
    (hmax : s'.queue.maxMsgSize = q.bufQ.queue.maxMsgSize) :
    MsgqInv { q with bufQ := s' } d := by
  refine h.after hdel (hevents.trans (List.append_nil _).symm) rfl ?_ hmax h.lengths
  rw [hring]
  exact ⟨rfl, rfl, rfl⟩

/-- What a put does: hand the message to a get that waits, store it, or find no
    room. -/
inductive PutCase (q : Msgq T) (d : Delivery T) (p : Nat → UInt8) (r : KStatus × Msgq T) : Prop
  | handed (t : T) (hwait : q.bufQ.queue.blkList ≠ []) (hd : d.queue = []) (hr : r.1 = .ok)
      (hevents : r.2.bufQ.events =
        q.bufQ.events ++ [.sent (window p 0 q.msgSize), .took t])
      (h : MsgqInv r.2
        { d with hand := Function.update d.hand t (some (window p 0 q.msgSize)) })
  | stored (hwait : q.bufQ.queue.blkList = []) (hr : r.1 = .ok)
      (hlist : r.2.bufQ.queue.blkList = [])
      (hevents : r.2.bufQ.events = q.bufQ.events ++ [.sent (window p 0 q.msgSize)])
      (hfit : compressLen q.msgSize + q.msgSize ≤ q.bufQ.queue.ringbuf.freesize)
      (h : MsgqInv r.2 { d with queue := d.queue ++ [window p 0 q.msgSize] })
  | full (hr : r = (.eperm, q)) (hfit : q.msgSize ≤ len3BytesMax →
      q.bufQ.queue.ringbuf.freesize < compressLen q.msgSize + q.msgSize)

/-- A send to a task that waits. -/
theorem send_waiting {s : System T} {p : Nat → UInt8} {n : Nat} {t : T} {rest : List T}
    (hmax : n ≤ s.queue.maxMsgSize) (hn : 0 < n) (hlist : s.queue.blkList = t :: rest) :
    (s.send p n).1 = .success ∧
      (s.send p n).2.events = s.events ++ [.sent (window p 0 n), .took t] ∧
      (s.send p n).2.queue.ringbuf = s.queue.ringbuf ∧
      (s.send p n).2.queue.maxMsgSize = s.queue.maxMsgSize := by
  unfold System.send
  rw [if_neg (by omega), if_neg (by omega), hlist]
  exact ⟨rfl, rfl, rfl, rfl⟩

/-- A send that the ring takes. -/
theorem send_pushed {s : System T} {p : Nat → UInt8} {n : Nat} (hmax : n ≤ s.queue.maxMsgSize)
    (hn : 0 < n) (hlist : s.queue.blkList = [])
    (hpush : (s.queue.ringbuf.push p n).1 = .success) :
    (s.send p n).1 = .success ∧ (s.send p n).2.events = s.events ++ [.sent (window p 0 n)] ∧
      (s.send p n).2.queue.ringbuf = (s.queue.ringbuf.push p n).2 ∧
      (s.send p n).2.queue.maxMsgSize = s.queue.maxMsgSize ∧
      (s.send p n).2.queue.blkList = [] := by
  unfold System.send
  rw [if_neg (by omega), if_neg (by omega), hlist]
  dsimp only
  rw [if_neg (by simp [hpush])]
  exact ⟨rfl, rfl, rfl, rfl, hlist⟩

/-- A send that the ring does not take. -/
theorem send_refused {s : System T} {p : Nat → UInt8} {n : Nat} (hmax : n ≤ s.queue.maxMsgSize)
    (hn : 0 < n) (hlist : s.queue.blkList = [])
    (hpush : (s.queue.ringbuf.push p n).1 ≠ .success) :
    (s.send p n).1 ≠ .success ∧ (s.send p n).2 = s := by
  unfold System.send
  rw [if_neg (by omega), if_neg (by omega), hlist]
  dsimp only
  rw [if_pos hpush]
  refine ⟨?_, rfl⟩
  dsimp only
  split_ifs with hfull
  · simp
  · exact hpush

/-- The send behind either put. -/
theorem send_cases (h : MsgqInv q d) (p : Nat → UInt8) :
    PutCase q d p (if (q.bufQ.send p q.msgSize).1 = .success then .ok else .eperm,
      { q with bufQ := (q.bufQ.send p q.msgSize).2 }) := by
  have hmax : q.msgSize ≤ q.bufQ.queue.maxMsgSize := h.max.ge
  have hdel : Delivered (q.bufQ.send p q.msgSize).2 :=
    send_inv ⟨d, h.replay, h.inv⟩ (.inl h.type)
  cases hlist : q.bufQ.queue.blkList with
  | cons t rest =>
      -- A task waits, so the ring is empty and the message goes to that task.
      have hd := h.inv.idle (by simp [hlist])
      have hes : Run.run Delivery.step d [.sent (window p 0 q.msgSize), .took t] =
          some { d with hand := Function.update d.hand t (some (window p 0 q.msgSize)) } := by
        simp [Run.run, Delivery.step, hd]
      obtain ⟨hstat, hevents, hring, hm⟩ := send_waiting (p := p) hmax h.pos hlist
      refine .handed t (by simp [hlist]) hd (by rw [hstat, if_pos rfl]) hevents
        (h.after hdel hevents hes ?_ hm h.lengths)
      rw [hring]
      exact ⟨rfl, rfl, rfl⟩
  | nil =>
      by_cases hpush : (q.bufQ.queue.ringbuf.push p q.msgSize).1 = .success
      · have hes : Run.run Delivery.step d [.sent (window p 0 q.msgSize)] =
            some { d with queue := d.queue ++ [window p 0 q.msgSize] } := rfl
        obtain ⟨hstat, hevents, hring, hm, hblk⟩ := send_pushed hmax h.pos hlist hpush
        -- Nobody waits: the message goes to the ring.
        obtain ⟨hvalid, hfit⟩ := fits_of_pushed h hpush
        have hq := push_queued h.queued p ⟨h.pos, hvalid⟩
        rw [if_pos hfit] at hq
        have hshape := hq.2.2
        rw [← hring] at hshape
        refine .stored hlist (by rw [hstat, if_pos rfl]) hblk hevents hfit
          (h.after hdel hevents hes hshape hm ?_)
        intro m hm'
        rcases List.mem_append.mp hm' with hold | hnew
        · exact h.lengths m hold
        · rw [List.mem_singleton.mp hnew, length_window]
      · obtain ⟨hstat, hsame⟩ := send_refused hmax h.pos hlist hpush
        refine .full (by rw [if_neg hstat, hsame]) fun hvalid => ?_
        by_contra hfit
        have hq := push_queued h.queued p ⟨h.pos, hvalid⟩
        rw [if_pos (by omega)] at hq
        exact hpush hq.1

/-- What either place of a put does. -/
theorem put_cases (h : MsgqInv q d) (p : Nat → UInt8) {f : UInt8} (hf : f = 0 ∨ f = 1) :
    PutCase q d p (q.put p f) := by
  have hsend := send_cases h p
  rcases hf with rfl | rfl
  · exact hsend
  · exact hsend

/-- What a step of the queue shows of a deque. -/
def Shown (q : Msgq T) (d : Delivery T) (op : MsgqOp T) (ans : Option KStatus) (q' : Msgq T) :
    Prop :=
  ∃ es d', q'.bufQ.events = q.bufQ.events ++ es ∧
    Serves q.getCapacity q.msgSize d op ans es d' ∧ MsgqInv q' d' ∧
    q'.msgSize = q.msgSize ∧ q'.msgCount = q.msgCount

/-- A put, where there is room and the front is the back. -/
theorem put_shown (h : MsgqInv q d) (hroom : Roomy q.msgCount q.msgSize) (p : Nat → UInt8)
    (f : UInt8) (hend : AtEnd q (.put p f)) :
    Shown q d (.put p f) (some (q.put p f).1) (q.put p f).2 := by
  by_cases hf : f = 0 ∨ f = 1
  · have hsame : (q.put p f).2.msgSize = q.msgSize ∧ (q.put p f).2.msgCount = q.msgCount := by
      rcases hf with rfl | rfl <;> exact ⟨rfl, rfl⟩
    rcases put_cases h p hf with ⟨t, hwait, hd, hr, hevents, hinv⟩ |
      ⟨hwait, hr, hlist, hevents, hfit, hinv⟩ | ⟨hr, hfit⟩
    · exact ⟨_, _, hevents, hr ▸ .putHanded p f t hf hd, hinv, hsame⟩
    · rcases hf with rfl | rfl
      · exact ⟨_, _, hevents, hr ▸ .putBack p, hinv, hsame⟩
      · -- The ring took the message, so the queue was not full; it was empty.
        have hempty : d.queue = [] := by
          rcases hend rfl with hcount | hcount
          · exact List.length_eq_zero_iff.mp (h.inv.num.symm.trans hcount)
          · have hfull := h.full (hcount.trans h.inv.num.le)
            omega
        rw [hempty] at hinv
        have hfront := @Serves.putFront T _ q.getCapacity q.msgSize d p
        rw [hempty] at hfront
        exact ⟨_, _, hevents, hr ▸ hfront, hinv, hsame⟩
    · rw [hr]
      refine ⟨[], d, (List.append_nil _).symm, .putFull p f ?_, h, rfl, rfl⟩
      by_contra hless
      have hfits := h.room hroom (Nat.lt_of_not_le hless)
      have hnot := hfit hroom.1
      omega
  · have hput : q.put p f = (.einval, q) := by
      unfold Msgq.put
      rw [if_pos (by tauto)]
    rw [hput]
    exact ⟨[], d, (List.append_nil _).symm, .putInvalid p f (by tauto), h, rfl, rfl⟩

/-- A get of a task that is outside of the queue. -/
theorem get_shown (h : MsgqInv q d) {t : T} (ht : q.bufQ.waiting t = .no) (p : Nat → UInt8)
    (timeout : Int) (n : Nat) (intrpt lock : Bool) :
    Shown q d (.get t p timeout n intrpt lock) (q.get t p timeout n intrpt lock).1
      (q.get t p timeout n intrpt lock).2 := by
  have hdel := recv_inv ⟨d, h.replay, h.inv⟩ ht p n (timeout != 0) intrpt lock
  unfold Msgq.get
  unfold System.recv at hdel ⊢
  by_cases hintr : intrpt = true ∧ (timeout != 0) = true
  · rw [if_pos hintr]
    rw [hintr.1]
    exact ⟨[], d, (List.append_nil _).symm, .getInIntrpt t p timeout n lock (by simpa using hintr.2),
      h, rfl, rfl⟩
  rw [if_neg hintr] at hdel ⊢
  by_cases hempty : q.bufQ.queue.ringbuf.isEmpty = false
  · rw [if_pos hempty] at hdel ⊢
    -- The ring has a message: the oldest.
    have hq : d.queue ≠ [] := by
      intro hnil
      rw [h.inv.holds.isEmpty_iff.mpr hnil] at hempty
      cases hempty
    obtain ⟨m, rest, hd⟩ := List.exists_cons_of_ne_nil hq
    have hqueued := h.queued
    rw [hd] at hqueued
    obtain ⟨_, hlen, hm, _, _, hshape⟩ := pop_queued hqueued p n
    rw [← hlen] at hm
    dsimp only at hdel ⊢
    rw [hm] at hdel ⊢
    have hes : Run.run Delivery.step d [.took t, .obtained t m] =
        some { queue := rest, hand := Function.update d.hand t none } := by
      simp [Run.run, Delivery.step, hd]
    refine ⟨_, _, rfl, .getFirst t p timeout n intrpt lock m rest hd,
      h.after hdel rfl hes hshape rfl fun x hx => h.lengths x (by rw [hd]; simp [hx]), rfl, rfl⟩
  · have hd : d.queue = [] := h.inv.holds.isEmpty_iff.mp (by simpa using hempty)
    rw [if_neg hempty] at hdel ⊢
    -- The ring is empty: the task waits, where it wants to and may.
    by_cases hwait : (timeout != 0) = false
    · rw [if_pos hwait]
      exact ⟨[], d, (List.append_nil _).symm, .getEmpty t p timeout n intrpt lock hd, h, rfl, rfl⟩
    rw [if_neg hwait] at hdel ⊢
    by_cases hlock : lock = true
    · rw [if_pos hlock]
      exact ⟨[], d, (List.append_nil _).symm, .getEmpty t p timeout n intrpt lock hd, h, rfl, rfl⟩
    · rw [if_neg hlock] at hdel ⊢
      exact ⟨[], d, (List.append_nil _).symm,
        .getWaits t p timeout n intrpt lock hd (by simpa using hwait),
        h.quiet hdel rfl rfl rfl, rfl, rfl⟩

/-- The return of a get that waited. -/
theorem resume_shown (h : MsgqInv q d) {t : T} {r : KStatus × Msgq T}
    (hres : q.resume t = some r) : Shown q d (.resume t) (some r.1) r.2 := by
  unfold Msgq.resume at hres
  rw [Option.map_eq_some_iff] at hres
  obtain ⟨⟨stat, s'⟩, hs, rfl⟩ := hres
  have hdel := resume_inv ⟨d, h.replay, h.inv⟩ hs
  unfold System.resume at hs
  cases hw : q.bufQ.waiting t with
  | no | pend =>
      rw [hw] at hs
      cases hs
  | finish =>
      rw [hw] at hs
      simp only [Option.some.injEq, Prod.mk.injEq] at hs
      have hes : Run.run Delivery.step d
          [.obtained t (window (q.bufQ.msg t) 0 (q.bufQ.bqMsgSize t))] =
            some { d with hand := Function.update d.hand t none } := by
        simp [Run.run, Delivery.step, h.inv.finish t hw]
      rw [← hs.2] at hdel ⊢
      rw [← hs.1]
      exact ⟨_, _, rfl, .getHanded t _ (h.inv.finish t hw),
        h.after hdel rfl hes ⟨rfl, rfl, rfl⟩ rfl h.lengths, rfl, rfl⟩
  | timeout =>
      rw [hw] at hs
      simp only [Option.some.injEq, Prod.mk.injEq] at hs
      rw [← hs.2] at hdel ⊢
      rw [← hs.1]
      exact ⟨[], d, (List.append_nil _).symm, .getTimedOut t, h.quiet hdel rfl rfl rfl, rfl, rfl⟩

/-- One step, where there is room and the front is the back. -/
theorem step_shown (h : MsgqInv q d) (hroom : Roomy q.msgCount q.msgSize) {op : MsgqOp T}
    (hend : AtEnd q op) {ans : Option KStatus} {q' : Msgq T}
    (hstep : q.step op = some (ans, q')) : Shown q d op ans q' := by
  have hdel : Delivered q.bufQ := ⟨d, h.replay, h.inv⟩
  cases op with
  | put p f =>
      simp only [Msgq.step, Option.some.injEq, Prod.mk.injEq] at hstep
      rw [← hstep.1, ← hstep.2]
      exact put_shown h hroom p f hend
  | get t p timeout n intrpt lock =>
      simp only [Msgq.step] at hstep
      by_cases ht : q.bufQ.waiting t = .no
      · rw [if_pos ht, Option.some.injEq] at hstep
        have hshown := get_shown h ht p timeout n intrpt lock
        rwa [hstep] at hshown
      · rw [if_neg ht] at hstep
        cases hstep
  | resume t =>
      simp only [Msgq.step, Option.map_eq_some_iff, Prod.mk.injEq] at hstep
      obtain ⟨r, hres, rfl, rfl⟩ := hstep
      exact resume_shown h hres
  | flush =>
      simp only [Msgq.step, Option.some.injEq, Prod.mk.injEq] at hstep
      rw [← hstep.1, ← hstep.2]
      exact ⟨_, _, rfl, .flush, h.after (flush_inv hdel) rfl rfl ⟨rfl, rfl, rfl⟩ rfl (by simp),
        rfl, rfl⟩
  | timeout t =>
      simp only [Msgq.step] at hstep
      by_cases ht : q.bufQ.waiting t = .pend
      · rw [if_pos ht, Option.some.injEq, Prod.mk.injEq] at hstep
        rw [← hstep.1, ← hstep.2]
        exact ⟨[], d, (List.append_nil _).symm, .timeout t,
          h.quiet (leave_inv hdel (by simp) (by simp)) rfl rfl rfl, rfl, rfl⟩
      · rw [if_neg ht] at hstep
        cases hstep
  | delete t =>
      simp only [Msgq.step, Option.some.injEq, Prod.mk.injEq] at hstep
      rw [← hstep.1, ← hstep.2]
      exact ⟨[], d, (List.append_nil _).symm, .delete t,
        h.quiet (leave_inv hdel (by simp) (by simp)) rfl rfl rfl, rfl, rfl⟩
  | setPrio t p =>
      simp only [Msgq.step, Option.some.injEq, Prod.mk.injEq] at hstep
      rw [← hstep.1, ← hstep.2]
      -- A new priority changes the order of who waits, not the messages.
      have hkept : (q.bufQ.setPrio t p).events = q.bufQ.events ∧
          (q.bufQ.setPrio t p).queue.ringbuf = q.bufQ.queue.ringbuf ∧
          (q.bufQ.setPrio t p).queue.maxMsgSize = q.bufQ.queue.maxMsgSize := by
        unfold System.setPrio
        dsimp only
        split_ifs <;> exact ⟨rfl, rfl, rfl⟩
      exact ⟨[], d, hkept.1.trans (List.append_nil _).symm, .setPrio t p,
        h.quiet (setPrio_inv hdel t p) hkept.1 hkept.2.1 hkept.2.2, rfl, rfl⟩

end Steps

/-! ## Runs -/

section Runs

variable {T : Type} [DecidableEq T]

/-- A deque takes every run in which there is room and the front is the back. -/
theorem refines_of_roomy (ops : List (MsgqOp T)) {q : Msgq T} {d : Delivery T} (h : MsgqInv q d)
    (hroom : Roomy q.msgCount q.msgSize) (hend : Run.Along Msgq.next AtEnd q ops) :
    RefinesDeque q d ops := by
  induction ops generalizing q d with
  | nil => exact h.inv.num
  | cons op ops ih =>
      refine ⟨h.inv.num, fun ans q' hstep => ?_⟩
      obtain ⟨es, d', hevents, hserves, hinv, hsize, hcount⟩ := step_shown h hroom hend.1 hstep
      have hnext : q.next op = some q' := by rw [Msgq.next, hstep, Option.map_some]
      exact ⟨es, d', hevents, hserves, ih hinv (by rw [hsize, hcount]; exact hroom)
        (hend.2 q' hnext)⟩

/-- Putting `j` messages at the back. -/
def backPuts (j : Nat) : List (MsgqOp T) :=
  List.replicate j (.put (fun _ => 0) 0)

theorem along_backPuts (j : Nat) (q : Msgq T) : Run.Along Msgq.next AtEnd q (backPuts j) := by
  induction j generalizing q with
  | zero => trivial
  | succ j ih => exact ⟨fun hf => absurd hf (by decide), fun q' _ => ih q'⟩

/-- A queue that takes what it promised has the room for it. The induction is on
    the messages that are still to come; with all of them stored, the ring holds
    their headers. -/
theorem roomy_of_refines (j : Nat) {q : Msgq T} {d : Delivery T} (h : MsgqInv q d)
    (hlist : q.bufQ.queue.blkList = []) (hcount : 0 < q.msgCount)
    (hj : d.queue.length + j = q.msgCount) (href : RefinesDeque q d (backPuts j)) :
    Roomy q.msgCount q.msgSize := by
  induction j generalizing q d with
  | zero =>
      have hne : d.queue ≠ [] := by
        intro hnil
        rw [hnil, List.length_nil] at hj
        omega
      obtain ⟨m, rest, hd⟩ := List.exists_cons_of_ne_nil hne
      have hmem : m ∈ d.queue := by rw [hd]; exact List.mem_cons_self
      have hvalid := (h.queued.valid m hmem).2
      have hfree := h.freesize
      rw [Nat.add_zero] at hj
      rw [hj, Nat.mul_add, Nat.mul_succ, Nat.mul_comm q.msgSize] at hfree
      exact ⟨h.lengths m hmem ▸ hvalid, by omega⟩
  | succ j ih =>
      obtain ⟨es, d', hevents, hserves, href'⟩ := href.2 _ _ rfl
      rcases put_cases h (fun _ => 0) (.inl rfl) with ⟨t, hwait, _, _, _, _⟩ |
        ⟨_, hr, hlist', hevents', _, hinv⟩ | ⟨hr, _⟩
      · exact absurd hlist hwait
      · -- The message was stored, at the only place where a deque may have it.
        have hes : es = [.sent (window (fun _ => 0) 0 q.msgSize)] :=
          List.append_cancel_left (hevents.symm.trans hevents')
        rw [hes, hr] at hserves
        cases hserves
        have hlength : (d.queue ++ [window (fun _ => 0) 0 q.msgSize]).length + j = q.msgCount := by
          rw [List.length_append, List.length_singleton]
          omega
        exact ih (q := (q.put (fun _ => 0) 0).2) hinv hlist' hcount hlength href'
      · -- A deque that is not full would not have refused it.
        rw [hr] at hserves
        cases hserves with
        | putFull _ _ hfull =>
            change q.msgCount ≤ d.queue.length at hfull
            omega

/-- What `csi_kernel_msgq_new` makes. -/
theorem new_inv {msgCount msgSize : Int} {buf : Option (Nat → UInt8)} {prio : T → Nat}
    {msg : T → Nat → UInt8} {bqMsgSize : T → Nat} {q : Msgq T}
    (hnew : csiKernelMsgqNew msgCount msgSize buf prio msg bqMsgSize = some q)
    (hover : msgSize * (msgCount + 1) < 2 ^ 31) :
    MsgqInv q Delivery.start ∧ q.bufQ.queue.blkList = [] ∧ q.msgCount = msgCount.toNat ∧
      q.msgSize = msgSize.toNat ∧ 0 < q.msgCount := by
  unfold csiKernelMsgqNew at hnew
  by_cases hneg : msgCount ≤ 0 ∨ msgSize ≤ 0
  · rw [if_pos hneg] at hnew
    cases hnew
  rw [if_neg hneg] at hnew
  -- The product does not overflow, so the buffer has the size that was meant.
  have hpos : 0 < msgSize * (msgCount + 1) := Int.mul_pos (by omega) (by omega)
  rw [Int.emod_eq_of_lt hpos.le (by omega)] at hnew
  have hsize : (msgSize * (msgCount + 1)).toNat = msgSize.toNat * (msgCount.toNat + 1) := by
    rw [Int.toNat_mul (by omega) (by omega), Int.toNat_add (by omega) (by omega)]
    rfl
  rw [hsize] at hnew
  unfold bufQueueDynCreate at hnew
  have hlen : msgSize.toNat * (msgCount.toNat + 1) ≠ 0 := by
    rw [← hsize]
    omega
  rw [if_neg hlen] at hnew
  cases buf with
  | none => cases hnew
  | some buf =>
      have hcreate : BufQueue.bufQueueCreate (T := T) buf
          (msgSize.toNat * (msgCount.toNat + 1)) msgSize.toNat =
            BufQueue.create buf (msgSize.toNat * (msgCount.toNat + 1)) msgSize.toNat .dyn := rfl
      dsimp only at hnew
      cases hq : BufQueue.create (T := T) buf (msgSize.toNat * (msgCount.toNat + 1)) msgSize.toNat
          .dyn with
      | error e =>
          rw [hq] at hnew
          cases hnew
      | ok bq =>
          rw [hq] at hnew
          simp only [Option.some.injEq] at hnew
          rw [← hnew]
          obtain ⟨d, hd, hinv⟩ :=
            (Created.dyn buf _ _ (hcreate.trans hq)).inv prio msg bqMsgSize
          change some Delivery.start = some d at hd
          rw [← Option.some.inj hd] at hinv
          unfold BufQueue.create at hq
          rw [if_neg (by omega), if_neg hlen] at hq
          rw [← Except.ok.inj hq] at hinv ⊢
          exact ⟨⟨rfl, hinv, rfl, rfl, rfl, by simp only; omega, by simp [Delivery.start]⟩, rfl,
            rfl, rfl, by simp only; omega⟩

/-- A message queue is a deque, in every run whose puts at the front find it empty
    or full, if and only if the headers of the messages promised fit in one
    message. -/
theorem msgq_refines_iff {msgCount msgSize : Int} {buf : Option (Nat → UInt8)} {prio : T → Nat}
    {msg : T → Nat → UInt8} {bqMsgSize : T → Nat} {q : Msgq T}
    (hnew : csiKernelMsgqNew msgCount msgSize buf prio msg bqMsgSize = some q)
    (hover : msgSize * (msgCount + 1) < 2 ^ 31) :
    (∀ ops, Run.Along Msgq.next AtEnd q ops → RefinesDeque q Delivery.start ops) ↔
      Roomy msgCount.toNat msgSize.toNat := by
  obtain ⟨hinv, hlist, hcount, hsize, hpos⟩ := new_inv hnew hover
  rw [← hcount, ← hsize]
  constructor
  · intro href
    exact roomy_of_refines q.msgCount hinv hlist hpos (by simp [Delivery.start])
      (href _ (along_backPuts _ q))
  · intro hroom ops hend
    exact refines_of_roomy ops hinv hroom hend

end Runs

/-- A queue for two messages of that length, with nobody in it. -/
def twoMsgs (msgSize : Nat) : Msgq Unit where
  bufQ := System.start
    { ringbuf := .init (fun _ => 0) (msgSize * 3) .dyn msgSize
      maxMsgSize := msgSize
      curNum := 0
      peakNum := 0
      minFreeBufSize := msgSize * 3
      blkList := [] } (fun _ => 0) (fun _ _ => 0) (fun _ => 0)
  msgSize := msgSize
  msgCount := 2

theorem msgq_refines_two :
    csiKernelMsgqNew 2 4 (some fun _ => 0) (fun _ => 0) (fun _ _ => 0) (fun _ => 0) =
        some (twoMsgs 4) ∧
      (4 : Int) * (2 + 1) < 2 ^ 31 ∧ Roomy 2 4 ∧
      ∀ ops, Run.Along Msgq.next AtEnd (twoMsgs 4) ops →
        RefinesDeque (twoMsgs 4) Delivery.start ops := by
  have hroom : Roomy 2 4 := ⟨by decide, by decide⟩
  have hnew : csiKernelMsgqNew 2 4 (some fun _ => 0) (fun _ => 0) (fun _ _ => 0) (fun _ => 0) =
      some (twoMsgs 4) := rfl
  exact ⟨hnew, by decide, hroom, (msgq_refines_iff hnew (by decide)).mpr hroom⟩

/-- One message put at the back, another at the front, and a get. -/
def frontPut : List (MsgqOp Unit) :=
  [.put (fun _ => 1) 0, .put (fun _ => 2) 1, .get () (fun _ => 0) 0 0 false false]

/-- No deque takes a put at the front of a queue that holds a message, and none
    that promises two messages of one byte refuses the second. -/
theorem msgq_not_deque :
    (csiKernelMsgqNew 2 4 (some fun _ => 0) (fun _ => 0) (fun _ _ => 0) (fun _ => 0) =
        some (twoMsgs 4) ∧ ¬ RefinesDeque (twoMsgs 4) Delivery.start frontPut) ∧
      (csiKernelMsgqNew 2 1 (some fun _ => 0) (fun _ => 0) (fun _ _ => 0) (fun _ => 0) =
        some (twoMsgs 1) ∧ ¬ RefinesDeque (twoMsgs 1) Delivery.start (backPuts 2)) := by
  refine ⟨⟨rfl, ?_⟩, rfl, ?_⟩
  · rintro ⟨_, h⟩
    obtain ⟨es₁, d₁, hes₁, hserves₁, _, h⟩ := h _ _ rfl
    have hsent₁ : es₁ = [.sent [1, 1, 1, 1]] := hes₁.symm.trans rfl
    rw [hsent₁] at hserves₁
    cases hserves₁
    obtain ⟨es₂, d₂, hes₂, hserves₂, _, h⟩ := h _ _ rfl
    have hsent₂ : es₂ = [.sent [2, 2, 2, 2]] := List.append_cancel_left (hes₂.symm.trans rfl)
    rw [hsent₂] at hserves₂
    cases hserves₂
    obtain ⟨es₃, d₃, hes₃, hserves₃, _⟩ := h _ _ rfl
    have hgot : es₃ = [.took (), .obtained () [1, 1, 1, 1]] :=
      List.append_cancel_left (hes₃.symm.trans rfl)
    rw [hgot] at hserves₃
    cases hserves₃ with
    | getFirst _ _ _ _ _ _ m rest hd =>
        have hfirst : ([2, 2, 2, 2] : List UInt8) = [1, 1, 1, 1] := (List.cons.inj hd).1
        exact absurd hfirst (by decide)
  · intro href
    have hnew : csiKernelMsgqNew 2 1 (some fun _ => 0) (fun _ => 0) (fun _ _ => 0) (fun _ => 0) =
        some (twoMsgs 1) := rfl
    obtain ⟨hinv, hlist, _, _, hpos⟩ := new_inv hnew (by decide)
    have hroom := roomy_of_refines 2 hinv hlist hpos rfl href
    exact absurd hroom.2 (by decide)

end Rhino

end Wujian100
