import Wujian100.Core.Driver.UsiUsart
import Wujian100.Library.Run

/-!
# The Bytes That Were Asked For

A run of the receiver's handler takes out of the FIFO what its four bits of the level say, and no
more than was asked for at first; what was delivered since is not subtracted. A FIFO that is full
has a level of zero. As long as the level at each interrupt is less than that and what is taken is
no more than what is left, a request gets its bytes, in order, and ends with the last.

## Main definitions

* `Receiving`: The receiver and the bytes that arrived.
* `Receiving.Served`: A request has what it should have.
* `Receiving.Sound`: What a step should do.
* `Receiving.Moderate`: An interrupt finds a FIFO that is not full, nor holds too much.

## Theorems

* `readFifo_eq`: What a loop takes out of the FIFO.
* `recvData_eq`: A run of the handler.
* `Receiving.sound_iff`: A step does what it should exactly if it is moderate.
* `Receiving.served_iff`: So do all steps of a run.
-/

namespace Wujian100

namespace Driver

namespace UsartRx

section Handler

variable {s : UsartRx}

/-- What a loop leaves that takes so many bytes out of the FIFO. -/
theorem readFifo_eq (n : Nat) (h : n ≤ s.fifo.length) {buf : Nat} (hbuf : s.rxBuf = some buf)
    (hcnt : s.rxCnt < 2 ^ 32) : readFifo n s = { s with
      stores := s.stores ++ (s.fifo.take n).zipIdx buf
      fifo := s.fifo.drop n
      rxCnt := (s.rxCnt + n) % 2 ^ 32
      rxBuf := some (buf + n) } := by
  induction n generalizing s buf with
  | zero =>
      rw [readFifo, List.take_zero, List.zipIdx_nil, List.append_nil, List.drop_zero,
        Nat.add_zero, Nat.add_zero, Nat.mod_eq_of_lt hcnt, ← hbuf]
  | succ n ih =>
      cases hfifo : s.fifo with
      | nil =>
          rw [hfifo] at h
          exact absurd h (Nat.not_succ_le_zero n)
      | cons b rest =>
          rw [hfifo, List.length_cons] at h
          have hone : s.readOne = { s with
              stores := s.stores ++ [(b, buf)], fifo := rest, rxCnt := (s.rxCnt + 1) % 2 ^ 32
              rxBuf := some (buf + 1) } := by
            unfold readOne
            rw [hfifo, hbuf]
            rfl
          rw [readFifo, hone, ih (Nat.le_of_succ_le_succ h) rfl (Nat.mod_lt _ (by decide))]
          dsimp only
          rw [List.take_succ_cons, List.zipIdx_cons, List.drop_succ_cons, List.append_assoc,
            Nat.mod_add_mod, Nat.add_assoc s.rxCnt, Nat.add_assoc buf, Nat.add_comm 1 n]
          rfl

theorem tell_of_cb (h : s.cbEvent = true) (e : UsartEvent) :
    s.tell e = { s with events := s.events ++ [e] } :=
  if_pos h

/-- What a loop leaves that took so many bytes, for the request it was part of. -/
def drained (s : UsartRx) (buf n : Nat) : UsartRx :=
  { s with
    stores := s.stores ++ (s.fifo.take n).zipIdx buf
    fifo := s.fifo.drop n
    rxCnt := (s.rxCnt + n) % 2 ^ 32
    rxBuf := some (buf + n) }

/-- So many bytes are taken out of the FIFO. -/
def readable (s : UsartRx) : Nat := min (s.fifo.length % 2 ^ 4) s.rxTotalNum

/-- A run of the handler with a request that is not finished. -/
theorem recvData_eq {buf : Nat} (htotal : s.rxTotalNum ≠ 0) (hbuf : s.rxBuf = some buf)
    (hcnt : s.rxCnt < 2 ^ 32) : s.recvData = some
      (if (s.rxCnt + s.readable) % 2 ^ 32 ≥ s.rxTotalNum then (s.drained buf s.readable).complete
        else s.drained buf s.readable) := by
  have hnum : (if fifoStaRxNum s % 2 ^ 4 > s.rxTotalNum then s.rxTotalNum
      else fifoStaRxNum s % 2 ^ 4) = s.readable := by
    unfold readable fifoStaRxNum
    split
    · omega
    · omega
  have hle : s.readable ≤ s.fifo.length := by
    unfold readable
    omega
  unfold recvData
  rw [if_neg]
  · dsimp only
    rw [hnum, readFifo_eq s.readable hle hbuf hcnt]
    rfl
  · rw [hbuf]
    rintro (hzero | hnone)
    · exact htotal hzero
    · cases hnone

/-- Without a request the callback is told and nothing else happens. -/
theorem recvData_idle (htotal : s.rxTotalNum = 0) (hcb : s.cbEvent = true) :
    s.recvData = some { s with events := s.events ++ [.received] } := by
  unfold recvData
  rw [if_pos (.inl htotal), if_pos hcb, tell_of_cb hcb]

theorem charTimeout_idle (htotal : s.rxTotalNum = 0) (hcb : s.cbEvent = true) :
    s.charTimeout = some { s with events := s.events ++ [.received] } := by
  unfold charTimeout
  rw [if_neg fun h => h.1 htotal, if_pos hcb, tell_of_cb hcb]

theorem charTimeout_busy {buf : Nat} (htotal : s.rxTotalNum ≠ 0) (hbuf : s.rxBuf = some buf) :
    s.charTimeout = s.recvData := by
  unfold charTimeout
  refine if_pos ⟨htotal, ?_⟩
  rw [hbuf]
  exact Option.some_ne_none buf

theorem readFifo_grows (n : Nat) (s : UsartRx) :
    s.stores.length ≤ (readFifo n s).stores.length ∧ (readFifo n s).cbEvent = s.cbEvent := by
  induction n generalizing s with
  | zero => exact ⟨Nat.le_refl _, rfl⟩
  | succ n ih =>
      rcases ih s.readOne with ⟨hle, hcb⟩
      refine ⟨Nat.le_trans ?_ hle, hcb⟩
      unfold readOne
      rw [List.length_append]
      exact Nat.le_add_right _ _

/-- Whatever state the driver is in, a run of the handler takes nothing back. -/
theorem recvData_grows (hcb : s.cbEvent = true) :
    ∃ u, s.recvData = some u ∧ s.stores.length ≤ u.stores.length := by
  unfold recvData
  split
  · rw [tell_of_cb hcb]
    exact ⟨_, rfl, Nat.le_refl _⟩
  · dsimp only
    generalize (if fifoStaRxNum s % 2 ^ 4 > s.rxTotalNum then s.rxTotalNum
      else fifoStaRxNum s % 2 ^ 4) = n
    rcases readFifo_grows n s with ⟨hle, hsame⟩
    refine ⟨_, rfl, ?_⟩
    split
    · unfold complete
      rw [tell_of_cb (by exact hsame.trans hcb)]
      exact hle
    · exact hle

theorem charTimeout_grows (hcb : s.cbEvent = true) :
    ∃ u, s.charTimeout = some u ∧ s.stores.length ≤ u.stores.length := by
  unfold charTimeout
  split
  · exact recvData_grows hcb
  · rw [tell_of_cb hcb]
    exact ⟨_, rfl, Nat.le_refl _⟩

end Handler

end UsartRx

/-- The receiver, and the bytes that arrived since the request. -/
structure Receiving where
  rx : UsartRx
  arrived : List (BitVec 8)

namespace Receiving

def step (s : Receiving) (a : UsartAct) : Option Receiving :=
  (s.rx.step a).map fun rx => {
    rx := rx
    arrived :=
      match a with
      | .arrive b => s.arrived ++ [b]
      | .irq _ _ => s.arrived }

/-- A request, of a driver with a callback. -/
def request (num : Nat) : Receiving where
  rx := UsartRx.receive ⟨0, none, 0, false, 0, true, [], [], []⟩ num
  arrived := []

/-- So many bytes were delivered. -/
def delivered (s : Receiving) : Nat := s.rx.stores.length

/-- A request has the first bytes that arrived, in order and no more than were asked for; the
    others are in the FIFO, and the callback was told of the end once all were there. -/
structure Served (num : Nat) (s : Receiving) : Prop where
  stored : s.rx.stores = (s.arrived.take s.delivered).zipIdx
  left : s.rx.fifo = s.arrived.drop s.delivered
  inside : s.delivered ≤ num
  once : s.rx.events.count .receiveComplete = if s.delivered = num then 1 else 0

/-- An interrupt for the receiver, while the request is not finished. -/
def Drains (num : Nat) (s : Receiving) : UsartAct → Prop
  | .arrive _ => False
  | .irq rxThold uartStop => (rxThold = true ∨ uartStop = true) ∧ s.delivered < num

/-- A step serves the request, and an interrupt takes a byte if there is one. -/
def Sound (num : Nat) (s : Receiving) (a : UsartAct) : Prop :=
  ∀ t, s.step a = some t → t.Served num ∧
    (s.Drains num a → s.rx.fifo ≠ [] → s.delivered < t.delivered)

/-- An interrupt finds a FIFO that is not full, with no more bytes than are left of the request;
    or as many as it likes, if none was delivered yet. -/
def Moderate (num : Nat) (s : Receiving) (a : UsartAct) : Prop :=
  s.Drains num a → s.rx.fifo.length ≠ usiRxMaxFifo ∧
    (s.rx.fifo.length ≤ num - s.delivered ∨ s.delivered = 0)

/-- The driver keeps the request as it is served. -/
structure Inv (num : Nat) (s : Receiving) : Prop where
  served : s.Served num
  cb : s.rx.cbEvent = true
  room : s.rx.fifo.length ≤ usiRxMaxFifo
  unfinished : s.delivered < num →
    s.rx.rxTotalNum = num ∧ s.rx.rxBuf = some s.delivered ∧ s.rx.rxCnt = s.delivered
  finished : s.delivered = num → s.rx.rxTotalNum = 0

section Run

variable {num : Nat} {s : Receiving}

theorem Served.delivered_le (h : s.Served num) : s.delivered ≤ s.arrived.length := by
  have hlen := congrArg List.length h.stored
  rw [List.length_zipIdx, List.length_take] at hlen
  unfold delivered at hlen ⊢
  omega

/-- Some of the bytes in the FIFO are delivered behind the others. -/
theorem drained_stores (h : s.Served num) (n : Nat) : (s.rx.drained s.delivered n).stores
    = (s.arrived.take (s.delivered + n)).zipIdx := by
  have hlen : (s.arrived.take s.delivered).length = s.delivered := by
    rw [List.length_take]
    exact Nat.min_eq_left h.delivered_le
  change s.rx.stores ++ _ = _
  rw [h.stored, h.left, List.take_add, List.zipIdx_append, hlen, Nat.zero_add]

theorem drained_fifo (h : s.Served num) (n : Nat) : (s.rx.drained s.delivered n).fifo
    = s.arrived.drop (s.delivered + n) := by
  change s.rx.fifo.drop n = _
  rw [h.left, List.drop_drop]

theorem drained_length (h : s.Served num) {n : Nat} (hn : n ≤ s.rx.fifo.length) :
    (s.rx.drained s.delivered n).stores.length = s.delivered + n := by
  rw [h.left, List.length_drop] at hn
  rw [drained_stores h, List.length_zipIdx, List.length_take]
  have hle := h.delivered_le
  omega

theorem complete_of_cb {u : UsartRx} (h : u.cbEvent = true) : u.complete = { u with
    lastRxNum := u.rxTotalNum, rxCnt := 0, rxBuf := none, rxBusy := false, rxTotalNum := 0
    events := u.events ++ [.receiveComplete] } := by
  unfold UsartRx.complete
  rw [UsartRx.tell_of_cb (by exact h)]

/-- What a run of the handler leaves of a request that was not finished. -/
def afterRecv (num : Nat) (s : Receiving) : Receiving where
  rx :=
    if (s.delivered + s.rx.readable) % 2 ^ 32 ≥ num then
      (s.rx.drained s.delivered s.rx.readable).complete
    else s.rx.drained s.delivered s.rx.readable
  arrived := s.arrived

theorem recvData_unfinished (h : s.Inv num) (hnum : num < 2 ^ 32) (hlt : s.delivered < num) :
    s.rx.recvData = some (s.afterRecv num).rx := by
  rcases h.unfinished hlt with ⟨htotal, hbuf, hcnt⟩
  rw [UsartRx.recvData_eq (by omega) hbuf (by omega), hcnt, htotal]
  rfl

theorem readable_le (s : Receiving) : s.rx.readable ≤ s.rx.fifo.length := by
  unfold UsartRx.readable
  omega

/-- The bytes that were taken are delivered, however many. -/
theorem delivered_afterRecv (h : s.Inv num) :
    (s.afterRecv num).delivered = s.delivered + s.rx.readable := by
  have hlen := drained_length h.served (readable_le s)
  unfold delivered afterRecv
  dsimp only
  split
  · rw [complete_of_cb (by exact h.cb)]
    exact hlen
  · exact hlen

/-- If there are no more than were left, the request is served. -/
theorem afterRecv_inv (h : s.Inv num) (hnum : num < 2 ^ 32) (hlt : s.delivered < num)
    (hfit : s.delivered + s.rx.readable ≤ num) : (s.afterRecv num).Inv num := by
  have hdelivered := delivered_afterRecv h
  have hstores := drained_stores h.served s.rx.readable
  have hfifo := drained_fifo h.served s.rx.readable
  have honce := h.served.once
  rw [if_neg (Nat.ne_of_lt hlt)] at honce
  have hroom : (s.rx.drained s.delivered s.rx.readable).fifo.length ≤ usiRxMaxFifo := by
    have hlen : (s.rx.drained s.delivered s.rx.readable).fifo.length
        = s.rx.fifo.length - s.rx.readable := List.length_drop
    have hroom := h.room
    omega
  have hmod : (s.delivered + s.rx.readable) % 2 ^ 32 = s.delivered + s.rx.readable :=
    Nat.mod_eq_of_lt (by omega)
  -- With the last byte the transfer ends, and tells so once.
  by_cases hend : s.delivered + s.rx.readable = num
  · have hafter : s.afterRecv num
        = ⟨(s.rx.drained s.delivered s.rx.readable).complete, s.arrived⟩ := by
      unfold afterRecv
      rw [if_pos (by omega)]
    rw [hafter, complete_of_cb (by exact h.cb)] at hdelivered ⊢
    refine ⟨⟨?_, ?_, ?_, ?_⟩, h.cb, hroom, ?_, fun _ => rfl⟩
    · rw [hdelivered]
      exact hstores
    · rw [hdelivered]
      exact hfifo
    · rw [hdelivered]
      exact hfit
    · rw [hdelivered, if_pos hend]
      change (s.rx.events ++ [UsartEvent.receiveComplete]).count _ = 1
      rw [List.count_append, honce, List.count_singleton_self]
    · intro hcontra
      rw [hdelivered] at hcontra
      omega
  · have hafter : s.afterRecv num = ⟨s.rx.drained s.delivered s.rx.readable, s.arrived⟩ := by
      unfold afterRecv
      rw [if_neg (by omega)]
    rw [hafter] at hdelivered ⊢
    refine ⟨⟨?_, ?_, ?_, ?_⟩, h.cb, hroom, ?_, ?_⟩
    · rw [hdelivered]
      exact hstores
    · rw [hdelivered]
      exact hfifo
    · rw [hdelivered]
      exact hfit
    · rw [hdelivered, if_neg hend]
      exact honce
    · intro _
      rcases h.unfinished hlt with ⟨htotal, -, hcnt⟩
      rw [hdelivered]
      refine ⟨htotal, rfl, ?_⟩
      change (s.rx.rxCnt + s.rx.readable) % 2 ^ 32 = _
      rw [hcnt, hmod]
    · intro hcontra
      rw [hdelivered] at hcontra
      exact absurd hcontra hend

/-- The callback is told of bytes nobody asked for. -/
theorem received_inv (h : s.Inv num) :
    Inv num ⟨{ s.rx with events := s.rx.events ++ [.received] }, s.arrived⟩ := by
  refine ⟨⟨h.served.stored, h.served.left, h.served.inside, ?_⟩, h.cb, h.room, h.unfinished,
    h.finished⟩
  change (s.rx.events ++ [UsartEvent.received]).count _ = _
  rw [List.count_append, h.served.once]
  rfl

/-- What an interrupt finds that takes bytes, if the request is not finished. -/
def Fits (num : Nat) (s : Receiving) : Prop :=
  s.delivered < num → s.rx.fifo.length ≠ usiRxMaxFifo ∧
    (s.rx.fifo.length ≤ num - s.delivered ∨ s.delivered = 0)

/-- A run of the handler that fits serves the request, and empties the FIFO or ends it. -/
theorem recvData_inv (h : s.Inv num) (hnum : num < 2 ^ 32) (hfits : s.Fits num) :
    ∃ u, s.rx.recvData = some u ∧ Inv num ⟨u, s.arrived⟩ ∧
      (s.delivered < num → s.rx.fifo ≠ [] → s.delivered < u.stores.length) ∧
      (u.fifo = [] ∨ u.stores.length = num) ∧ s.delivered ≤ u.stores.length := by
  have hroom := h.room
  have hinside := h.served.inside
  by_cases hlt : s.delivered < num
  · rcases hfits hlt with ⟨hfull, hleft⟩
    have htotal := (h.unfinished hlt).1
    have hread : s.rx.readable = min s.rx.fifo.length num := by
      unfold UsartRx.readable
      unfold usiRxMaxFifo at hroom hfull
      rw [htotal, Nat.mod_eq_of_lt (by omega)]
    have hafter : (s.afterRecv num).rx.stores.length = s.delivered + s.rx.readable :=
      delivered_afterRecv h
    have hinv := afterRecv_inv h hnum hlt (by omega)
    refine ⟨_, recvData_unfinished h hnum hlt, hinv, ?_, ?_, by omega⟩
    · intro _ hne
      have hpos := List.length_pos_of_ne_nil hne
      omega
    · by_cases hall : s.rx.fifo.length ≤ num
      · left
        have hfifo := hinv.served.left
        rw [delivered_afterRecv h, hread, Nat.min_eq_left hall, h.served.left, List.length_drop,
          ← Nat.add_sub_assoc h.served.delivered_le, Nat.add_sub_cancel_left] at hfifo
        rw [hfifo]
        exact List.drop_length
      · right
        omega
  · have hend : s.delivered = num := by omega
    refine ⟨_, UsartRx.recvData_idle (h.finished hend) h.cb, received_inv h,
      fun hcontra => absurd hcontra hlt, .inr hend, Nat.le_refl _⟩

theorem charTimeout_inv (h : s.Inv num) (hnum : num < 2 ^ 32) (hfits : s.Fits num) :
    ∃ u, s.rx.charTimeout = some u ∧ Inv num ⟨u, s.arrived⟩ ∧
      (s.delivered < num → s.rx.fifo ≠ [] → s.delivered < u.stores.length) ∧
      s.delivered ≤ u.stores.length := by
  by_cases hlt : s.delivered < num
  · rcases h.unfinished hlt with ⟨htotal, hbuf, -⟩
    rcases recvData_inv h hnum hfits with ⟨u, hu, hinv, hmore, -, hle⟩
    refine ⟨u, ?_, hinv, hmore, hle⟩
    rw [UsartRx.charTimeout_busy (by omega) hbuf]
    exact hu
  · have hend : s.delivered = num := Nat.le_antisymm h.served.inside (Nat.not_lt.mp hlt)
    refine ⟨_, UsartRx.charTimeout_idle (h.finished hend) h.cb, received_inv h,
      fun hcontra => absurd hcontra hlt, Nat.le_refl _⟩

theorem level_pos_iff (h : s.Inv num) : fifoStaRxNum s.rx > 0 ↔ s.rx.fifo ≠ [] := by
  have hroom := h.room
  unfold usiRxMaxFifo at hroom
  unfold fifoStaRxNum
  rw [Nat.mod_eq_of_lt (by omega), gt_iff_lt, List.length_pos_iff]

/-- A moderate interrupt serves the request. -/
theorem irqhandler_inv (h : s.Inv num) (hnum : num < 2 ^ 32) {rxThold uartStop : Bool}
    (hmod : s.Moderate num (.irq rxThold uartStop)) :
    ∃ u, s.rx.irqhandler rxThold uartStop = some u ∧ Inv num ⟨u, s.arrived⟩ ∧
      (s.Drains num (.irq rxThold uartStop) → s.rx.fifo ≠ [] → s.delivered < u.stores.length) := by
  unfold UsartRx.irqhandler
  cases rxThold with
  | true =>
      have hfits : s.Fits num := fun hlt => hmod ⟨.inl rfl, hlt⟩
      rcases recvData_inv h hnum hfits with ⟨u, hu, hinv, hmore, hdone, -⟩
      rw [if_pos rfl, hu, Option.bind_some]
      by_cases hstop : uartStop = true ∧ fifoStaRxNum u > 0
      · rw [if_pos hstop]
        -- What is left in the FIFO is not asked for.
        have hend : u.stores.length = num := by
          rcases hdone with hnil | hend
          · exact absurd hnil ((level_pos_iff hinv).mp hstop.2)
          · exact hend
        have hfits' : Fits num ⟨u, s.arrived⟩ := fun hlt => absurd hend (Nat.ne_of_lt hlt)
        rcases charTimeout_inv hinv hnum hfits' with ⟨v, hv, hinv', -, hle⟩
        exact ⟨v, hv, hinv', fun hd hne => Nat.lt_of_lt_of_le (hmore hd.2 hne) hle⟩
      · rw [if_neg hstop]
        exact ⟨u, rfl, hinv, fun hd hne => hmore hd.2 hne⟩
  | false =>
      rw [if_neg Bool.false_ne_true, Option.bind_some]
      by_cases hstop : uartStop = true ∧ fifoStaRxNum s.rx > 0
      · rw [if_pos hstop]
        have hfits : s.Fits num := fun hlt => hmod ⟨.inr hstop.1, hlt⟩
        rcases charTimeout_inv h hnum hfits with ⟨u, hu, hinv, hmore, -⟩
        exact ⟨u, hu, hinv, fun hd hne => hmore hd.2 hne⟩
      · rw [if_neg hstop]
        refine ⟨s.rx, rfl, h, ?_⟩
        rintro ⟨hthold | hs, -⟩ hne
        · exact absurd hthold Bool.false_ne_true
        · exact absurd ⟨hs, (level_pos_iff h).mpr hne⟩ hstop

/-- A level of sixteen is read as none. -/
theorem recvData_full (h : s.Inv num) (hnum : num < 2 ^ 32) (hlt : s.delivered < num)
    (hfull : s.rx.fifo.length = usiRxMaxFifo) :
    ∃ u, s.rx.recvData = some u ∧ u.stores.length = s.delivered ∧ u.fifo = s.rx.fifo ∧
      Inv num ⟨u, s.arrived⟩ := by
  have hzero : s.rx.readable = 0 := by
    unfold UsartRx.readable
    rw [hfull]
    exact Nat.zero_min _
  have hinv := afterRecv_inv h hnum hlt (by omega)
  have hdelivered := delivered_afterRecv h
  refine ⟨_, recvData_unfinished h hnum hlt, ?_, ?_, hinv⟩
  · rw [hzero] at hdelivered
    exact hdelivered
  · have hfifo := hinv.served.left
    rw [hdelivered, hzero] at hfifo
    rw [hfifo, h.served.left]
    rfl

theorem charTimeout_unfinished (h : s.Inv num) (hlt : s.delivered < num) :
    s.rx.charTimeout = s.rx.recvData := by
  rcases h.unfinished hlt with ⟨htotal, hbuf, -⟩
  exact UsartRx.charTimeout_busy (by omega) hbuf

/-- An interrupt that finds a full FIFO takes nothing. -/
theorem irqhandler_full (h : s.Inv num) (hnum : num < 2 ^ 32) (hlt : s.delivered < num)
    (hfull : s.rx.fifo.length = usiRxMaxFifo) (rxThold uartStop : Bool) :
    ∃ u, s.rx.irqhandler rxThold uartStop = some u ∧ u.stores.length = s.delivered := by
  have hfirst : ∃ u, (if rxThold = true then s.rx.recvData else some s.rx) = some u ∧
      u.stores.length = s.delivered ∧ u.fifo = s.rx.fifo ∧ Inv num ⟨u, s.arrived⟩ := by
    cases rxThold with
    | true => exact recvData_full h hnum hlt hfull
    | false => exact ⟨s.rx, rfl, rfl, rfl, h⟩
  rcases hfirst with ⟨u, hu, hlen, hfifo, hinv⟩
  unfold UsartRx.irqhandler
  rw [hu, Option.bind_some]
  by_cases hstop : uartStop = true ∧ fifoStaRxNum u > 0
  · rw [if_pos hstop]
    have hlt' : delivered ⟨u, s.arrived⟩ < num := by
      change u.stores.length < num
      omega
    rcases recvData_full hinv hnum hlt' (by rw [hfifo]; exact hfull) with ⟨v, hv, hlen', -⟩
    refine ⟨v, (charTimeout_unfinished hinv hlt').trans hv, hlen'.trans hlen⟩
  · rw [if_neg hstop]
    exact ⟨u, rfl, hlen⟩

/-- An interrupt that finds more than is left takes too much. -/
theorem irqhandler_over (h : s.Inv num) (hnum : num < 2 ^ 32) {rxThold uartStop : Bool}
    (hdrains : s.Drains num (.irq rxThold uartStop))
    (hfull : s.rx.fifo.length ≠ usiRxMaxFifo) (hmore : num - s.delivered < s.rx.fifo.length)
    (hsome : s.delivered ≠ 0) :
    ∃ u, s.rx.irqhandler rxThold uartStop = some u ∧ num < u.stores.length := by
  rcases hdrains with ⟨hraised, hlt⟩
  have hroom := h.room
  have hread : s.rx.readable = min s.rx.fifo.length num := by
    unfold UsartRx.readable
    unfold usiRxMaxFifo at hroom hfull
    rw [(h.unfinished hlt).1, Nat.mod_eq_of_lt (by omega)]
  have hrecv := recvData_unfinished h hnum hlt
  have hover : num < (s.afterRecv num).rx.stores.length := by
    have hlen := delivered_afterRecv h
    unfold delivered at hlen hlt hmore hsome
    omega
  unfold UsartRx.irqhandler
  cases rxThold with
  | true =>
      rw [if_pos rfl, hrecv, Option.bind_some]
      have hcb : (s.afterRecv num).rx.cbEvent = true := by
        unfold afterRecv
        dsimp only
        split
        · rw [complete_of_cb (by exact h.cb)]
          exact h.cb
        · exact h.cb
      by_cases hstop : uartStop = true ∧ fifoStaRxNum (s.afterRecv num).rx > 0
      · rw [if_pos hstop]
        rcases UsartRx.charTimeout_grows hcb with ⟨u, hu, hle⟩
        exact ⟨u, hu, Nat.lt_of_lt_of_le hover hle⟩
      · rw [if_neg hstop]
        exact ⟨_, rfl, hover⟩
  | false =>
      have hstop : uartStop = true := by
        rcases hraised with hthold | hstop
        · exact absurd hthold Bool.false_ne_true
        · exact hstop
      have hne : s.rx.fifo ≠ [] := List.ne_nil_of_length_pos (by omega)
      rw [if_neg Bool.false_ne_true, Option.bind_some,
        if_pos ⟨hstop, (level_pos_iff h).mpr hne⟩, charTimeout_unfinished h hlt, hrecv]
      exact ⟨_, rfl, hover⟩

/-- A byte arrives where there is a place for it. -/
theorem arrive_inv (h : s.Inv num) {b : BitVec 8} {t : Receiving}
    (ht : s.step (.arrive b) = some t) : t.Inv num := by
  rcases Option.map_eq_some_iff.mp ht with ⟨u, hu, rfl⟩
  unfold UsartRx.step at hu
  dsimp only at hu
  split at hu
  · cases hu
    have hle := h.served.delivered_le
    refine ⟨⟨?_, ?_, h.served.inside, h.served.once⟩, h.cb, ?_, h.unfinished, h.finished⟩
    · change s.rx.stores = ((s.arrived ++ [b]).take s.delivered).zipIdx
      rw [List.take_append_of_le_length hle]
      exact h.served.stored
    · change s.rx.fifo ++ [b] = (s.arrived ++ [b]).drop s.delivered
      rw [List.drop_append_of_le_length hle, h.served.left]
    · change (s.rx.fifo ++ [b]).length ≤ usiRxMaxFifo
      rw [List.length_append, List.length_singleton]
      omega
  · cases hu

theorem step_inv (h : s.Inv num) (hnum : num < 2 ^ 32) {a : UsartAct} (hmod : s.Moderate num a)
    {t : Receiving} (ht : s.step a = some t) : t.Inv num := by
  cases a with
  | arrive b => exact arrive_inv h ht
  | irq rxThold uartStop =>
      rcases irqhandler_inv h hnum hmod with ⟨u, hu, hinv, -⟩
      have hstep : s.step (.irq rxThold uartStop) = some ⟨u, s.arrived⟩ := by
        unfold step UsartRx.step
        dsimp only
        rw [hu]
        rfl
      rw [hstep] at ht
      cases ht
      exact hinv

/-- A step serves the request exactly if it is moderate. -/
theorem sound_iff (h : s.Inv num) (hnum : num < 2 ^ 32) (a : UsartAct) :
    s.Sound num a ↔ s.Moderate num a := by
  cases a with
  | arrive b =>
      refine ⟨fun _ hd => hd.elim, fun _ t ht => ⟨(arrive_inv h ht).served, fun hd => hd.elim⟩⟩
  | irq rxThold uartStop =>
      have hstep : ∀ u, s.rx.irqhandler rxThold uartStop = some u →
          s.step (.irq rxThold uartStop) = some ⟨u, s.arrived⟩ := by
        intro u hu
        unfold step UsartRx.step
        dsimp only
        rw [hu]
        rfl
      constructor
      · intro hsound hdrains
        by_contra hbad
        by_cases hfull : s.rx.fifo.length = usiRxMaxFifo
        · have hne : s.rx.fifo ≠ [] := by
            refine List.ne_nil_of_length_pos ?_
            rw [hfull]
            decide
          rcases irqhandler_full h hnum hdrains.2 hfull rxThold uartStop with ⟨u, hu, hlen⟩
          have hmore : s.delivered < u.stores.length := (hsound _ (hstep u hu)).2 hdrains hne
          omega
        · rw [not_and, not_or] at hbad
          rcases hbad hfull with ⟨hmore, hsome⟩
          rcases irqhandler_over h hnum hdrains hfull (Nat.not_le.mp hmore) hsome with ⟨u, hu, hlen⟩
          have hinside : u.stores.length ≤ num := (hsound _ (hstep u hu)).1.inside
          omega
      · intro hmod t ht
        rcases irqhandler_inv h hnum hmod with ⟨u, hu, hinv, hmore⟩
        rw [hstep u hu] at ht
        cases ht
        exact ⟨hinv.served, hmore⟩

theorem request_inv (hnum : 0 < num) : (request num).Inv num := by
  refine ⟨⟨rfl, rfl, Nat.zero_le num, ?_⟩, rfl, Nat.zero_le _, fun _ => ⟨rfl, rfl, rfl⟩, ?_⟩
  · exact (if_neg (Nat.ne_of_lt hnum)).symm
  · exact fun hzero => absurd hzero (Nat.ne_of_lt hnum)

/-- After a request, all steps of a run serve it exactly if all interrupts are moderate. -/
theorem served_iff (hnum : 0 < num) (hnum' : num < 2 ^ 32) (as : List UsartAct) :
    Run.Along step (Sound num) (request num) as ↔ Run.Along step (Moderate num) (request num) as :=
  Run.along_iff (fun _ _ _ h hmod ht => step_inv h hnum' hmod ht)
    (fun _ a h => sound_iff h hnum' a) as _ (request_inv hnum)

/-- A request for three bytes: one is delivered, and then the two that are left. -/
def threeBytes : List UsartAct :=
  [.arrive 7, .irq true false, .arrive 8, .arrive 9, .irq false true]

theorem served_three : Run.Along step (Sound 3) (request 3) threeBytes ∧
    (Run.run step (request 3) threeBytes).map (fun s => s.rx.stores)
      = some [(7, 0), (8, 1), (9, 2)] := by
  refine ⟨(served_iff (by decide) (by decide) threeBytes).mpr ?_, by decide⟩
  refine Run.along_cons False.elim rfl (Run.along_cons ?_ rfl (Run.along_cons False.elim rfl
    (Run.along_cons False.elim rfl (Run.along_cons ?_ rfl trivial))))
  · exact fun _ => ⟨by decide, .inr rfl⟩
  · exact fun _ => ⟨by decide, .inl (by decide)⟩

/-- Three bytes were asked for, one was delivered and three arrive: four are stored. -/
theorem three_stored_as_four :
    ¬∀ as : List UsartAct, Run.Along step (Sound 3) (request 3) as := by
  intro hall
  have hinside := ((hall [.arrive 1, .irq true false, .arrive 2, .arrive 3, .arrive 4,
    .irq true false]).2 _ rfl |>.2 _ rfl |>.2 _ rfl |>.2 _ rfl |>.2 _ rfl |>.1 _ rfl).1.inside
  revert hinside
  decide

end Run

end Receiving

end Driver

end Wujian100
