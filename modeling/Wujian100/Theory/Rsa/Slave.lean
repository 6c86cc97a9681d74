import Mathlib.Data.List.Forall2
import Wujian100.Core.Rsa.Slave
import Wujian100.Library.Run
import Wujian100.Theory.Rsa.Fifo

/-!
# Transfers and What the Slave Does with Them

The slave decodes an address in `STH_IDLE` only. A transfer whose address phase
lies in the last cycle of a write meets it elsewhere: in `STH_WREG`, which looks
at no address and lets the transfer pass, or in `STH_WRITE1`, which takes any
address for the FIFO window and leaves `fwr_vld` high until the state after
`STH_ADDR`, so that the word of the first write goes in twice.

`Gap` says that this does not happen: a write is followed by a cycle without an
address phase. Under it every transfer is performed once, on the register it
addresses, and comes to its end within five clocks. The clocks do not count in
which the slave is kept waiting: by the forward FIFO, which is full, or by the
backward FIFO, which is empty.

## Main definitions

* `pushes`, `starts`, `statuses`, `pops`: The transfers of each kind among the
  completed ones, with their data.
* `Performed`: Every accepted transfer has been performed once.
* `Gap`: The master does not start a transfer in the last cycle of a write.
* `Phase`: What the slave is doing, and for which transfer.
* `BusInv`: The invariant of a run.
* `Bus.waiting`: The slave is kept waiting by a FIFO.
* `Bus.left`: The clocks that the transfer in its data phase still needs.
* `Bus.going`: The clocks of a run in which the slave is not kept waiting.

## Theorems

* `phase_clock`: A clock goes from one phase to the next.
* `busInv_clock`: A clock keeps the invariant.
* `left_clock`: A clock is one less to go, or the slave is kept waiting.
* `completes_of_going`: A transfer gets to its end.
* `transfers_performed`: Under `Gap` every transfer is performed once.
* `back_to_back_repeats`: Two writes to the FIFO without a gap put the first
  word in twice.
-/

namespace Wujian100

namespace Rsa

/-! ## The record -/

/-- The words written to the FIFO window. -/
def pushes (done : List (Transfer × BitVec 32)) : List (BitVec 32) :=
  done.filterMap fun c =>
    match c.1 with
    | .push d => some d
    | _ => none

/-- The words written to the start register. -/
def starts (done : List (Transfer × BitVec 32)) : List (BitVec 32) :=
  done.filterMap fun c =>
    match c.1 with
    | .start d => some d
    | _ => none

/-- What reads of the status register returned. -/
def statuses (done : List (Transfer × BitVec 32)) : List (BitVec 32) :=
  done.filterMap fun c =>
    match c.1 with
    | .status => some c.2
    | _ => none

/-- What reads of the FIFO window returned. -/
def pops (done : List (Transfer × BitVec 32)) : List (BitVec 32) :=
  done.filterMap fun c =>
    match c.1 with
    | .pop => some c.2
    | _ => none

/-- The word on its way into the FIFO. -/
def Bus.pending (s : Bus) : List (BitVec 32) :=
  if s.slave.fwrVld then [s.slave.fwrDat] else []

/-- What a read that is about to end returns, if it is of the kind `t`. -/
def Bus.returning (s : Bus) (t : Transfer) : List (BitVec 32) :=
  if s.slave.hreadyout = true ∧ s.current = some t then [s.slave.hrdata] else []

/-- A read of the FIFO window returns the word that was taken for it. -/
def Returns (took : Option (BitVec 32)) (returned : BitVec 32) : Prop :=
  ∀ w, took = some w → returned = w

/-- Every accepted transfer has been performed once, or is being performed. -/
structure Performed (s : Bus) : Prop where
  accepted : s.accepted = s.completed.map Prod.fst ++ s.current.toList
  pushes : pushes s.completed = s.pushed ++ s.pending
  room : s.pending ≠ [] → s.fifo.wrRdy fifoAw = true
  queue : ∃ out q, Fifo.Holds fifoAw s.fifo q ∧ s.pushed = out ++ q
  starts : starts s.completed = s.written
  reg : s.slave.regState0 = s.written.getLastD 0
  statuses : statuses s.completed ++ s.returning .status = s.stated
  pops : List.Forall₂ Returns s.taken (pops s.completed ++ s.returning .pop)

/-- The transfer writes. -/
def Transfer.isWrite : Transfer → Bool
  | .start _ => true
  | .push _ => true
  | .status => false
  | .pop => false

/-- The last cycle of a write carries no address phase. -/
def Gap (s : Bus) (i : Cycle) : Prop :=
  s.slave.hreadyout = true → s.current.any Transfer.isWrite = true → i.address.transfer = none

instance (s : Bus) (i : Cycle) : Decidable (Gap s i) := by
  unfold Gap
  infer_instance

/-! ## Phases -/

/-- What the slave is doing, and for which transfer. -/
inductive Phase (s : Bus) : Prop where
  | quiet (state : s.slave.state = .idle) (ready : s.slave.hreadyout = true)
      (current : s.current = none) (brd : s.slave.brdRdy = false)
  | returned (state : s.slave.state = .idle) (ready : s.slave.hreadyout = true)
      (current : s.current = some .status ∨ s.current = some .pop)
      (fwr : s.slave.fwrVld = false) (brd : s.slave.brdRdy = false)
  | pause (state : s.slave.state = .idle) (ready : s.slave.hreadyout = false)
      (current : s.current = none) (fwr : s.slave.fwrVld = false) (brd : s.slave.brdRdy = false)
  | wreg (d : BitVec 32) (state : s.slave.state = .wreg) (ready : s.slave.hreadyout = true)
      (current : s.current = some (.start d))
      (fwr : s.slave.fwrVld = false) (brd : s.slave.brdRdy = false)
  | rreg (state : s.slave.state = .rreg) (ready : s.slave.hreadyout = false)
      (current : s.current = some .status)
      (fwr : s.slave.fwrVld = false) (brd : s.slave.brdRdy = false)
  | addrPush (d : BitVec 32) (state : s.slave.state = .addr) (ready : s.slave.hreadyout = false)
      (current : s.current = some (.push d)) (write : s.slave.tWrite = true)
      (fwr : s.slave.fwrVld = false) (brd : s.slave.brdRdy = false)
  | addrPop (state : s.slave.state = .addr) (ready : s.slave.hreadyout = false)
      (current : s.current = some .pop) (write : s.slave.tWrite = false)
      (fwr : s.slave.fwrVld = false) (brd : s.slave.brdRdy = false)
  | reading (state : s.slave.state = .read0 ∨ s.slave.state = .read1)
      (ready : s.slave.hreadyout = false) (current : s.current = some .pop)
      (fwr : s.slave.fwrVld = false) (brd : s.slave.brdRdy = false)
      (result : s.slave.regState1 ≠ 0#32)
  | read2 (state : s.slave.state = .read2) (ready : s.slave.hreadyout = false)
      (current : s.current = some .pop)
      (fwr : s.slave.fwrVld = false) (brd : s.slave.brdRdy = true)
  | write0 (d : BitVec 32) (state : s.slave.state = .write0) (ready : s.slave.hreadyout = false)
      (current : s.current = some (.push d)) (room : s.fifo.wrRdy fifoAw = true)
      (fwr : s.slave.fwrVld = false) (brd : s.slave.brdRdy = false)
  | write1 (d : BitVec 32) (state : s.slave.state = .write1) (ready : s.slave.hreadyout = true)
      (current : s.current = some (.push d)) (room : s.fifo.wrRdy fifoAw = true)
      (fwr : s.slave.fwrVld = false) (brd : s.slave.brdRdy = false)

/-- What `rsa_finish` does in a cycle, beside everything else. -/
def Slave.finish (s : Slave) (finished : Bool) : Slave :=
  { s with regState1 := if finished then 1 else s.regState1 }

/-- The four transfers, as they stand on the address lines. -/
theorem transfer_cases {a : AddressPhase} (hlegal : a.legal = true) :
    ((a.hsel && a.htrans.getLsbD 1) = false ∧ a.transfer = none) ∨
    ((a.hsel && a.htrans.getLsbD 1) = true ∧
      ((a.haddr = addrBase + 0 ∧ a.hwrite = true ∧ a.transfer = some (.start a.wdata)) ∨
       (a.haddr = addrBase + 4 ∧ a.hwrite = false ∧ a.transfer = some .status) ∨
       (a.haddr = addrBase + 16 ∧ a.hwrite = true ∧ a.transfer = some (.push a.wdata)) ∨
       (a.haddr = addrBase + 16 ∧ a.hwrite = false ∧ a.transfer = some .pop))) := by
  by_cases hact : (a.hsel && a.htrans.getLsbD 1) = true
  · refine Or.inr ⟨hact, ?_⟩
    simp only [AddressPhase.legal, hact, Bool.not_true, Bool.false_or] at hlegal
    simp only [AddressPhase.transfer, if_pos hact] at hlegal ⊢
    by_cases h0 : a.haddr = addrBase + 0 ∧ a.hwrite = true
    · exact Or.inl ⟨h0.1, h0.2, if_pos h0⟩
    · by_cases h4 : a.haddr = addrBase + 4 ∧ a.hwrite = false
      · refine Or.inr (Or.inl ⟨h4.1, h4.2, ?_⟩)
        rw [if_neg h0, if_pos h4]
      · by_cases h16 : a.haddr = addrBase + 16
        · rw [if_neg h0, if_neg h4, if_pos h16]
          cases hw : a.hwrite with
          | true => exact Or.inr (Or.inr (Or.inl ⟨h16, rfl, rfl⟩))
          | false => exact Or.inr (Or.inr (Or.inr ⟨h16, rfl, rfl⟩))
        · rw [if_neg h0, if_neg h4, if_neg h16] at hlegal
          cases hlegal
  · refine Or.inl ⟨Bool.not_eq_true _ ▸ hact, ?_⟩
    rw [AddressPhase.transfer, if_neg hact]

/-- In `STH_IDLE` the slave decodes the transfer on the address lines. -/
theorem step_idle {s : Bus} {i : Cycle} (hstate : s.slave.state = .idle)
    (hready : s.slave.hreadyout = true) (hlegal : i.address.legal = true) :
    s.slave.step (s.slaveIn i)
      = match i.address.transfer with
        | none => { s.slave.finish i.rsaFinish with fwrVld := false }
        | some (.start _) =>
            { s.slave.finish i.rsaFinish with fwrVld := false, tWrite := true, state := .wreg }
        | some .status =>
            { s.slave.finish i.rsaFinish with
              fwrVld := false, tWrite := false, hreadyout := false, state := .rreg }
        | some (.push _) =>
            { s.slave.finish i.rsaFinish with
              fwrVld := false, tWrite := true, hreadyout := false, state := .addr }
        | some .pop =>
            { s.slave.finish i.rsaFinish with
              fwrVld := false, tWrite := false, hreadyout := false, state := .addr } := by
  rcases transfer_cases hlegal with
    ⟨hact, ht⟩ | ⟨hact, ⟨ha, hw, ht⟩ | ⟨ha, hw, ht⟩ | ⟨ha, hw, ht⟩ | ⟨ha, hw, ht⟩⟩
  · -- No transfer: `HSEL` or `HTRANS[1]` is low.
    rw [ht]
    cases hsel : i.address.hsel with
    | false => simp [Slave.step, Bus.slaveIn, Slave.finish, hstate, hready, hsel]
    | true =>
        rw [hsel, Bool.true_and] at hact
        simp only [Slave.step, Bus.slaveIn, Slave.finish, hstate, hready, hsel, hact,
          Bool.and_self, Bool.false_eq_true, if_true, if_false]
  all_goals
    have hparts := Bool.and_eq_true_iff.mp hact
    simp [Slave.step, Bus.slaveIn, Slave.finish, addrBase, hstate, hready, hparts, ha, hw, ht]

/-- A FIFO with room that nothing is written to keeps it. -/
theorem wrRdy_step {f : Fifo (BitVec 32)} {q : List (BitVec 32)} (h : Fifo.Holds fifoAw f q)
    (hroom : f.wrRdy fifoAw = true) (w : BitVec 32) (rdRdy : Bool) :
    (f.step fifoAw false w rdRdy).wrRdy fifoAw = true := by
  have hnext := Fifo.holds_step h false w rdRdy
  have hlen : (Fifo.next fifoAw q false w rdRdy).length ≤ q.length := by
    simp only [Fifo.next, Bool.false_eq_true, false_and, if_false, List.append_nil]
    cases rdRdy with
    | false => exact Nat.le_refl _
    | true =>
        rw [if_pos rfl, List.length_tail]
        exact Nat.sub_le _ _
  rw [Fifo.wrRdy, Fifo.full_of_holds h] at hroom
  rw [Fifo.wrRdy, Fifo.full_of_holds hnext]
  simp only [Bool.not_eq_true', decide_eq_false_iff_not] at hroom ⊢
  omega

/-- Whatever is in its data phase in `STH_IDLE` has been performed: a clock
    there goes to the phase of the next transfer. -/
theorem phase_clock_idle {s : Bus} {i : Cycle} (hstate : s.slave.state = .idle)
    (hready : s.slave.hreadyout = true) (hbrd : s.slave.brdRdy = false)
    (hlegal : i.address.legal = true) : Phase (s.clock i) := by
  have hslave : (s.clock i).slave = s.slave.step (s.slaveIn i) := rfl
  have hcurrent : (s.clock i).current = i.address.transfer := by simp only [Bus.clock, hready, if_true]
  rw [step_idle hstate hready hlegal] at hslave
  cases ht : i.address.transfer with
  | none =>
      rw [ht] at hslave hcurrent
      exact .quiet (by rw [hslave]; exact hstate) (by rw [hslave]; exact hready) hcurrent
        (by rw [hslave]; exact hbrd)
  | some t =>
      rw [ht] at hslave hcurrent
      cases t with
      | start d =>
          exact .wreg d (by rw [hslave]) (by rw [hslave]; exact hready) hcurrent
            (by rw [hslave]) (by rw [hslave]; exact hbrd)
      | status =>
          exact .rreg (by rw [hslave]) (by rw [hslave]) hcurrent (by rw [hslave])
            (by rw [hslave]; exact hbrd)
      | push d =>
          exact .addrPush d (by rw [hslave]) (by rw [hslave]) hcurrent (by rw [hslave])
            (by rw [hslave]) (by rw [hslave]; exact hbrd)
      | pop =>
          exact .addrPop (by rw [hslave]) (by rw [hslave]) hcurrent (by rw [hslave])
            (by rw [hslave]) (by rw [hslave]; exact hbrd)

/-- `fwr_vld` rises in `STH_WRITE1` only. -/
theorem step_fwrVld {s : Slave} (i : SlaveIn) (hvld : s.fwrVld = false)
    (hstate : s.state ≠ .write1) : (s.step i).fwrVld = false := by
  cases hs : s.state with
  | write1 => exact absurd hs hstate
  | _ => simp only [Slave.step, hs] <;> (repeat' split) <;> simp only [hvld]

/-- `REG_STATE[0]` is stored to in `STH_WREG` only. -/
theorem step_regState0 {s : Slave} (i : SlaveIn) (hstate : s.state ≠ .wreg) :
    (s.step i).regState0 = s.regState0 := by
  cases hs : s.state with
  | wreg => exact absurd hs hstate
  | _ => simp only [Slave.step, hs] <;> (repeat' split) <;> rfl

/-- `HRDATA` is stored to in `STH_RREG` and `STH_READ2` only. -/
theorem step_hrdata {s : Slave} (i : SlaveIn) (hrreg : s.state ≠ .rreg)
    (hread2 : s.state ≠ .read2) : (s.step i).hrdata = s.hrdata := by
  cases hs : s.state with
  | rreg => exact absurd hs hrreg
  | read2 => exact absurd hs hread2
  | _ => simp only [Slave.step, hs] <;> (repeat' split) <;> rfl

/-- In `STH_WRITE1`, with nothing on the address lines, the word of the write
    is handed to the FIFO. -/
theorem step_write1 {s : Bus} {i : Cycle} (hstate : s.slave.state = .write1)
    (hready : s.slave.hreadyout = true) (hlegal : i.address.legal = true)
    (hnone : i.address.transfer = none) :
    s.slave.step (s.slaveIn i)
      = { s.slave.finish i.rsaFinish with
          fwrDat := s.hwdata i, fwrVld := true, hreadyout := true, state := .idle } := by
  rcases transfer_cases hlegal with ⟨hact, ht⟩ | ⟨hact, h⟩
  · cases hsel : i.address.hsel with
    | false => simp [Slave.step, Bus.slaveIn, Slave.finish, hstate, hsel]
    | true =>
        rw [hsel, Bool.true_and] at hact
        simp only [Slave.step, Bus.slaveIn, Slave.finish, hstate, hready, hsel, hact,
          Bool.and_self, Bool.false_eq_true, if_true, if_false]
  · rw [hnone] at h
    simp at h

/-- `REG_STATE[1]` is set by `rsa_finish`, whatever else happens. -/
theorem step_regState1 (s : Slave) (i : SlaveIn) :
    (s.step i).regState1 = if i.rsaFinish then 1 else s.regState1 := by
  unfold Slave.step
  generalize (if i.rsaFinish then 1 else s.regState1) = r
  cases s.state with
  | _ => dsimp only <;> (repeat' split) <;> rfl

/-- It is never cleared. -/
theorem regState1_clock {s : Bus} {i : Cycle} (h : s.slave.regState1 ≠ 0#32) :
    (s.clock i).slave.regState1 ≠ 0#32 := by
  have hstep : (s.clock i).slave.regState1 = _ := step_regState1 s.slave (s.slaveIn i)
  rw [hstep]
  split
  · decide
  · exact h

/-- A clock goes from one phase to the next. -/
theorem phase_clock {s : Bus} {i : Cycle} (hphase : Phase s) (hgap : Gap s i)
    (hlegal : i.address.legal = true) {q : List (BitVec 32)} (hq : Fifo.Holds fifoAw s.fifo q) :
    Phase (s.clock i) := by
  cases hphase with
  | quiet state ready current brd => exact phase_clock_idle state ready brd hlegal
  | returned state ready current fwr brd => exact phase_clock_idle state ready brd hlegal
  | pause state ready current fwr brd =>
      -- `HREADY` is low, so the address lines are not looked at.
      refine .quiet ?_ ?_ ?_ ?_ <;> simp [Bus.clock, Slave.step, Bus.slaveIn, state, ready, current, brd]
  | wreg d state ready current fwr brd =>
      have hnone := hgap ready (by rw [current]; rfl)
      refine .pause ?_ ?_ ?_ ?_ ?_ <;>
        simp [Bus.clock, Slave.step, Bus.slaveIn, state, ready, hnone, fwr, brd]
  | rreg state ready current fwr brd =>
      refine .returned ?_ ?_ (Or.inl ?_) ?_ ?_ <;>
        simp [Bus.clock, Slave.step, Bus.slaveIn, state, ready, current, fwr, brd]
  | addrPush d state ready current write fwr brd =>
      cases hrdy : s.fifo.wrRdy fifoAw with
      | false =>
          refine .addrPush d ?_ ?_ ?_ ?_ ?_ ?_ <;>
            simp [Bus.clock, Slave.step, Bus.slaveIn, state, ready, current, write, fwr, brd, hrdy]
      | true =>
          refine .write0 d ?_ ?_ ?_ ?_ ?_ ?_
          case refine_4 =>
            simp only [Bus.clock, fwr]
            exact wrRdy_step hq hrdy _ _
          all_goals
            simp [Bus.clock, Slave.step, Bus.slaveIn, state, ready, current, write, fwr, brd, hrdy]
  | addrPop state ready current write fwr brd =>
      cases hrdy : s.fifo.wrRdy fifoAw with
      | false =>
          refine .addrPop ?_ ?_ ?_ ?_ ?_ ?_ <;>
            simp [Bus.clock, Slave.step, Bus.slaveIn, state, ready, current, write, fwr, brd, hrdy]
      | true =>
          by_cases hreg : s.slave.regState1 = 0#32
          · refine .returned ?_ ?_ (Or.inr ?_) ?_ ?_ <;>
              simp [Bus.clock, Slave.step, Bus.slaveIn, state, ready, current, write, fwr, brd,
                hrdy, hreg]
          · refine .reading (Or.inl ?_) ?_ ?_ ?_ ?_ (regState1_clock hreg) <;>
              simp [Bus.clock, Slave.step, Bus.slaveIn, state, ready, current, write, fwr, brd,
                hrdy, hreg]
  | reading state ready current fwr brd result =>
      rcases state with state | state
      · cases hrdy : s.fifo.wrRdy fifoAw with
        | false =>
            refine .reading (Or.inl ?_) ?_ ?_ ?_ ?_ (regState1_clock result) <;>
              simp [Bus.clock, Slave.step, Bus.slaveIn, state, ready, current, fwr, brd, hrdy]
        | true =>
            refine .reading (Or.inr ?_) ?_ ?_ ?_ ?_ (regState1_clock result) <;>
              simp [Bus.clock, Slave.step, Bus.slaveIn, state, ready, current, brd, hrdy]
      · cases hvld : i.brdVld with
        | false =>
            refine .reading (Or.inr ?_) ?_ ?_ ?_ ?_ (regState1_clock result) <;>
              simp [Bus.clock, Slave.step, Bus.slaveIn, state, ready, current, fwr, brd, hvld]
        | true =>
            refine .read2 ?_ ?_ ?_ ?_ ?_ <;>
              simp [Bus.clock, Slave.step, Bus.slaveIn, state, ready, current, fwr, hvld]
  | read2 state ready current fwr brd =>
      refine .returned ?_ ?_ (Or.inr ?_) ?_ ?_ <;>
        simp [Bus.clock, Slave.step, Bus.slaveIn, state, ready, current, fwr]
  | write0 d state ready current room fwr brd =>
      refine .write1 d ?_ ?_ ?_ ?_ ?_ ?_
      case refine_4 =>
        simp only [Bus.clock, fwr]
        exact wrRdy_step hq room _ _
      all_goals simp [Bus.clock, Slave.step, Bus.slaveIn, state, ready, current, brd]
  | write1 d state ready current room fwr brd =>
      have hnone := hgap ready (by rw [current]; rfl)
      have hslave := step_write1 state ready hlegal hnone
      refine .quiet ?_ ?_ ?_ ?_ <;> simp [Bus.clock, hslave, Slave.finish, ready, hnone, brd]

/-! ## The invariant -/

/-- The invariant of a run. -/
structure BusInv (s : Bus) : Prop extends Performed s where
  phase : Phase s

section Clock

variable {s : Bus} {i : Cycle}

theorem accepted_clock (h : s.accepted = s.completed.map Prod.fst ++ s.current.toList) :
    (s.clock i).accepted
      = (s.clock i).completed.map Prod.fst ++ (s.clock i).current.toList := by
  simp only [Bus.clock, h]
  cases hready : s.slave.hreadyout with
  | false => simp
  | true => cases s.current <;> simp

/-- `STH_IDLE` clears `fwr_vld`. -/
theorem fwrVld_clock_idle (hstate : s.slave.state = .idle) (hready : s.slave.hreadyout = true)
    (hlegal : i.address.legal = true) : (s.clock i).slave.fwrVld = false := by
  simp only [Bus.clock, step_idle hstate hready hlegal]
  cases i.address.transfer with
  | none => rfl
  | some t => cases t <;> rfl

/-- Nothing goes into the FIFO while `fwr_vld` is low. -/
theorem pushed_clock (hvld : s.slave.fwrVld = false) : (s.clock i).pushed = s.pushed := by
  simp [Bus.clock, hvld]

/-- A transfer ends with `HREADY`. -/
theorem completed_clock (hready : s.slave.hreadyout = false) :
    (s.clock i).completed = s.completed := by
  simp [Bus.clock, hready]

/-- A word is handed over in the last cycle of its write, and taken in the
    cycle after. -/
theorem pushes_clock (h : BusInv s) (hgap : Gap s i) (hlegal : i.address.legal = true) :
    pushes (s.clock i).completed = (s.clock i).pushed ++ (s.clock i).pending := by
  have hp := h.pushes
  have hroom := h.room
  simp only [Bus.pending] at hp hroom ⊢
  cases h.phase with
  | quiet state ready current brd =>
      rw [fwrVld_clock_idle state ready hlegal]
      cases hv : s.slave.fwrVld <;> simp_all [Bus.clock]
  | returned state ready current fwr brd =>
      rw [fwrVld_clock_idle state ready hlegal, pushed_clock fwr]
      rcases current with current | current <;> simp_all [Bus.clock, pushes]
  | wreg d state ready current fwr brd =>
      rw [pushed_clock fwr]
      simp_all [Bus.clock, pushes, step_fwrVld]
  | write1 d state ready current room fwr brd =>
      have hnone := hgap ready (by rw [current]; rfl)
      have hslave := step_write1 state ready hlegal hnone
      simp_all [Bus.clock, pushes, Slave.finish, Bus.hwdata]
  | _ =>
      -- The transfer goes on, and nothing is on its way.
      have hstep : (s.clock i).slave.fwrVld = false := by
        refine step_fwrVld _ ‹_› ?_
        grind
      rw [completed_clock ‹_›, pushed_clock ‹_›, hp, hstep]
      simp_all

/-- The word on its way finds room. -/
theorem room_clock (h : BusInv s) (hlegal : i.address.legal = true) :
    (s.clock i).pending ≠ [] → (s.clock i).fifo.wrRdy fifoAw = true := by
  intro hpending
  have hvld : (s.clock i).slave.fwrVld = true := by
    by_contra hne
    exact hpending (if_neg hne)
  rcases h.queue with ⟨out, q, hq, _⟩
  cases h.phase with
  | quiet state ready current brd =>
      rw [fwrVld_clock_idle state ready hlegal] at hvld
      cases hvld
  | write1 d state ready current room fwr brd =>
      simp only [Bus.clock, fwr]
      exact wrRdy_step hq room _ _
  | _ =>
      have hstep : (s.clock i).slave.fwrVld = false := by
        refine step_fwrVld _ ‹_› ?_
        grind
      rw [hstep] at hvld
      cases hvld

/-- What is in the FIFO was pushed last. -/
theorem queue_clock (h : BusInv s) :
    ∃ out q, Fifo.Holds fifoAw (s.clock i).fifo q ∧ (s.clock i).pushed = out ++ q := by
  rcases h.queue with ⟨out, q, hq, hpushed⟩
  have hnext := Fifo.holds_step hq s.slave.fwrVld s.slave.fwrDat i.rdRdy
  have hwrite : (if s.slave.fwrVld && s.fifo.wrRdy fifoAw then [s.slave.fwrDat] else [])
      = if s.slave.fwrVld ∧ q.length < 2 ^ fifoAw then [s.slave.fwrDat] else [] := by
    rw [Fifo.wrRdy, Fifo.full_of_holds hq]
    simp
  cases hr : i.rdRdy with
  | false =>
      refine ⟨out, _, hnext, ?_⟩
      simp only [Bus.clock, hwrite, hpushed, Fifo.next, hr, Bool.false_eq_true, if_false,
        List.append_assoc]
  | true =>
      refine ⟨out ++ q.take 1, _, hnext, ?_⟩
      simp only [Bus.clock, hwrite, hpushed, Fifo.next, hr, if_true, List.append_assoc]
      rw [← List.append_assoc (q.take 1), ← List.drop_one, List.take_append_drop]

/-- A start is stored in the one data cycle it has. -/
theorem starts_clock (h : BusInv s) : starts (s.clock i).completed = (s.clock i).written := by
  have hs := h.starts
  cases h.phase with
  | quiet state ready current brd => simp_all [Bus.clock]
  | returned state ready current fwr brd =>
      rcases current with current | current <;> simp_all [Bus.clock, starts]
  | wreg d state ready current fwr brd => simp_all [Bus.clock, starts, Bus.hwdata]
  | write1 d state ready current room fwr brd => simp_all [Bus.clock, starts]
  | reading state ready current fwr brd result =>
      rcases state with state | state <;> simp_all [Bus.clock]
  | _ => simp_all [Bus.clock]

theorem reg_clock (h : s.slave.regState0 = s.written.getLastD 0) :
    (s.clock i).slave.regState0 = (s.clock i).written.getLastD 0 := by
  by_cases hstate : s.slave.state = .wreg
  · simp [Bus.clock, Slave.step, Bus.slaveIn, hstate]
  · simp only [Bus.clock, if_neg hstate, List.append_nil]
    rw [step_regState0 _ hstate, h]

/-- The next transfer does not end in its first data cycle, unless it is a
    start. -/
theorem returning_clock_idle (hstate : s.slave.state = .idle) (hready : s.slave.hreadyout = true)
    (hlegal : i.address.legal = true) {t : Transfer} (ht : t.isWrite = false) :
    (s.clock i).returning t = [] := by
  refine if_neg ?_
  simp only [Bus.clock, hready, if_true, step_idle hstate hready hlegal]
  cases htr : i.address.transfer with
  | none => simp
  | some u =>
      cases u with
      | start d => rintro ⟨-, heq⟩; cases heq; cases ht
      | _ => simp

/-- A read of the status register returns what is in it in the cycle before its
    last. -/
theorem statuses_clock (h : BusInv s) (hgap : Gap s i) (hlegal : i.address.legal = true) :
    statuses (s.clock i).completed ++ (s.clock i).returning .status = (s.clock i).stated := by
  have hst := h.statuses
  cases h.phase with
  | quiet state ready current brd =>
      rw [returning_clock_idle state ready hlegal rfl]
      simp_all [Bus.clock, Bus.returning]
  | returned state ready current fwr brd =>
      rw [returning_clock_idle state ready hlegal rfl]
      rcases current with current | current <;> simp_all [Bus.clock, Bus.returning, statuses]
  | rreg state ready current fwr brd =>
      simp_all [Bus.clock, Bus.returning, Slave.step, Bus.slaveIn]
  | wreg d state ready current fwr brd =>
      have hnone := hgap ready (by rw [current]; rfl)
      simp_all [Bus.clock, Bus.returning, statuses]
  | write1 d state ready current room fwr brd =>
      have hnone := hgap ready (by rw [current]; rfl)
      simp_all [Bus.clock, Bus.returning, statuses]
  | reading state ready current fwr brd result =>
      rcases state with state | state <;> simp_all [Bus.clock, Bus.returning]
  | _ => simp_all [Bus.clock, Bus.returning]

/-- A read of the FIFO window takes a word in the cycle before its last, or
    finds that there is none. -/
theorem pops_clock_eq (h : BusInv s) (hgap : Gap s i) (hlegal : i.address.legal = true) :
    ∃ took got, (s.clock i).taken = s.taken ++ took ∧
      pops (s.clock i).completed ++ (s.clock i).returning .pop
        = pops s.completed ++ s.returning .pop ++ got ∧
      List.Forall₂ Returns took got := by
  cases h.phase with
  | quiet state ready current brd =>
      refine ⟨[], [], ?_, ?_, .nil⟩
      · simp [Bus.clock, Bus.takes, state, brd]
      · rw [returning_clock_idle state ready hlegal rfl]
        simp [Bus.clock, Bus.returning, current]
  | returned state ready current fwr brd =>
      refine ⟨[], [], ?_, ?_, .nil⟩
      · simp [Bus.clock, Bus.takes, state, brd]
      · rw [returning_clock_idle state ready hlegal rfl]
        rcases current with current | current <;>
          simp [Bus.clock, Bus.returning, pops, ready, current]
  | wreg d state ready current fwr brd =>
      have hnone := hgap ready (by rw [current]; rfl)
      refine ⟨[], [], ?_, ?_, .nil⟩
      · simp [Bus.clock, Bus.takes, state, brd]
      · simp [Bus.clock, Bus.returning, pops, ready, current, hnone]
  | write1 d state ready current room fwr brd =>
      have hnone := hgap ready (by rw [current]; rfl)
      refine ⟨[], [], ?_, ?_, .nil⟩
      · simp [Bus.clock, Bus.takes, state, brd]
      · simp [Bus.clock, Bus.returning, pops, ready, current, hnone]
  | addrPop state ready current write fwr brd =>
      by_cases hdone : s.fifo.wrRdy fifoAw = true ∧ s.slave.regState1 = 0#32
      · refine ⟨[none], [s.slave.hrdata], ?_, ?_, .cons nofun .nil⟩
        · simp [Bus.clock, Bus.takes, state, brd, write, hdone]
        · simp [Bus.clock, Bus.returning, Slave.step, Bus.slaveIn, state, ready, current, write, hdone]
      · refine ⟨[], [], ?_, ?_, .nil⟩
        · simp [Bus.clock, Bus.takes, state, brd, write, hdone]
        · by_cases hrdy : s.fifo.wrRdy fifoAw = true
          · have hreg : ¬ s.slave.regState1 = 0#32 := fun hreg => hdone ⟨hrdy, hreg⟩
            simp [Bus.clock, Bus.returning, Slave.step, Bus.slaveIn, state, ready, current, write,
              hrdy, hreg]
          · simp [Bus.clock, Bus.returning, Slave.step, Bus.slaveIn, state, ready, current, hrdy]
  | read2 state ready current fwr brd =>
      refine ⟨[some i.brdDat], [i.brdDat], ?_, ?_, .cons ?_ .nil⟩
      · simp [Bus.clock, Bus.takes, brd]
      · simp [Bus.clock, Bus.returning, Slave.step, Bus.slaveIn, state, ready, current]
      · intro w hw
        exact Option.some.inj hw
  | reading state ready current fwr brd result =>
      refine ⟨[], [], ?_, ?_, .nil⟩
      · rcases state with state | state <;> simp [Bus.clock, Bus.takes, state, brd]
      · have hready : (s.clock i).slave.hreadyout = false := by
          rcases state with state | state <;>
            simp only [Bus.clock, Slave.step, Bus.slaveIn, state] <;> split <;> exact ready
        simp [Bus.returning, completed_clock ready, ready, hready]
  | _ =>
      -- A transfer of another kind goes on.
      refine ⟨[], [], ?_, ?_, .nil⟩
      · simp_all [Bus.clock, Bus.takes]
      · simp_all [Bus.clock, Bus.returning]

theorem pops_clock (h : BusInv s) (hgap : Gap s i) (hlegal : i.address.legal = true) :
    List.Forall₂ Returns (s.clock i).taken
      (pops (s.clock i).completed ++ (s.clock i).returning .pop) := by
  rcases pops_clock_eq h hgap hlegal with ⟨took, got, htook, hgot, hret⟩
  rw [htook, hgot]
  exact List.rel_append h.pops hret

/-- A clock keeps the invariant. -/
theorem busInv_clock (h : BusInv s) (hgap : Gap s i) (hlegal : i.address.legal = true) :
    BusInv (s.clock i) where
  accepted := accepted_clock h.accepted
  pushes := pushes_clock h hgap hlegal
  room := room_clock h hlegal
  queue := queue_clock h
  starts := starts_clock h
  reg := reg_clock h.reg
  statuses := statuses_clock h hgap hlegal
  pops := pops_clock h hgap hlegal
  phase := by
    rcases h.queue with ⟨_, _, hq, _⟩
    exact phase_clock h.phase hgap hlegal hq

end Clock

theorem busInv_reset (mem : Nat → BitVec 32) : BusInv (Bus.reset mem) where
  accepted := rfl
  pushes := rfl
  room := absurd rfl
  queue := ⟨[], [], Fifo.holds_reset mem, rfl⟩
  starts := rfl
  reg := rfl
  statuses := rfl
  pops := .nil
  phase := .quiet rfl rfl rfl rfl

theorem busInv_step {s t : Bus} {i : Cycle} (h : BusInv s) (hgap : Gap s i)
    (hstep : s.step i = some t) : BusInv t := by
  unfold Bus.step at hstep
  by_cases hlegal : i.address.legal = true
  · rw [if_pos hlegal, Option.some.injEq] at hstep
    rw [← hstep]
    exact busInv_clock h hgap hlegal
  · rw [if_neg hlegal] at hstep
    cases hstep

/-! ## Progress -/

/-- The slave is kept waiting: a transfer to the FIFO window finds the forward FIFO full, or a read
    of it for which there is a result finds the backward FIFO empty. -/
def Bus.waiting (s : Bus) (i : Cycle) : Bool :=
  match s.current with
  | some (.push _) => !s.fifo.wrRdy fifoAw
  | some .pop => !s.fifo.wrRdy fifoAw || (s.slave.regState1 != 0 && !i.brdVld)
  | _ => false

/-- The clocks that a transfer still needs in a state, a write or a read. -/
def Sth.left : Sth → Bool → Nat
  | .addr, true => 3
  | .addr, false => 5
  | .read0, _ => 4
  | .read1, _ => 3
  | .read2, _ => 2
  | .write0, _ => 2
  | .rreg, _ => 2
  | _, _ => 1

/-- The clocks that the transfer in its data phase still needs. -/
def Bus.left (s : Bus) : Nat :=
  if s.current = none then 0 else s.slave.state.left s.slave.tWrite

/-- The clocks of a run in which the slave is not kept waiting. -/
def Bus.going (s : Bus) : List Cycle → Nat
  | [] => 0
  | i :: rest => (if s.waiting i then 0 else 1) + (s.clock i).going rest

theorem left_le (s : Bus) : s.left ≤ 5 := by
  unfold Bus.left
  split_ifs
  · exact Nat.zero_le 5
  · cases s.slave.state <;> cases s.slave.tWrite <;> decide

theorem current_of_left {s : Bus} (h : s.left = 0) : s.current = none := by
  by_contra hcurrent
  have hpos : s.slave.state.left s.slave.tWrite ≠ 0 := by
    cases s.slave.state <;> cases s.slave.tWrite <;> decide
  exact hpos ((if_neg hcurrent).symm.trans h)

section Progress

variable {s t : Bus} {i : Cycle}

/-- A transfer ends in this clock, or one clock less is left for it, or the slave is kept
    waiting. -/
theorem left_clock (h : BusInv s) (hcurrent : s.current ≠ none) :
    s.slave.hreadyout = true ∨
      (s.slave.hreadyout = false ∧
        (s.clock i).left + (if s.waiting i then 0 else 1) ≤ s.left) := by
  cases h.phase with
  | quiet state ready current brd => exact absurd current hcurrent
  | pause state ready current fwr brd => exact absurd current hcurrent
  | returned state ready current fwr brd => exact Or.inl ready
  | wreg d state ready current fwr brd => exact Or.inl ready
  | write1 d state ready current room fwr brd => exact Or.inl ready
  | rreg state ready current fwr brd =>
      refine Or.inr ⟨ready, ?_⟩
      simp [Bus.left, Sth.left, Bus.waiting, Bus.clock, Slave.step, Bus.slaveIn, state, ready,
        current]
  | addrPush d state ready current write fwr brd =>
      refine Or.inr ⟨ready, ?_⟩
      cases hrdy : s.fifo.wrRdy fifoAw <;>
        simp [Bus.left, Sth.left, Bus.waiting, Bus.clock, Slave.step, Bus.slaveIn, state, ready,
          current, write, hrdy]
  | addrPop state ready current write fwr brd =>
      refine Or.inr ⟨ready, ?_⟩
      cases hrdy : s.fifo.wrRdy fifoAw with
      | false =>
          simp [Bus.left, Sth.left, Bus.waiting, Bus.clock, Slave.step, Bus.slaveIn, state, ready,
            current, write, hrdy]
      | true =>
          -- what is in `REG_STATE[1]` decides whether there is a word to wait for
          by_cases hreg : s.slave.regState1 = 0#32
          · simp [Bus.left, Sth.left, Bus.waiting, Bus.clock, Slave.step, Bus.slaveIn, state, ready,
              current, write, hrdy, hreg]
          · cases hvld : i.brdVld <;>
              simp [Bus.left, Sth.left, Bus.waiting, Bus.clock, Slave.step, Bus.slaveIn, state,
                ready, current, write, hrdy, hreg, hvld]
  | reading state ready current fwr brd result =>
      refine Or.inr ⟨ready, ?_⟩
      rcases state with state | state
      · cases hrdy : s.fifo.wrRdy fifoAw <;> cases hvld : i.brdVld <;>
          simp [Bus.left, Sth.left, Bus.waiting, Bus.clock, Slave.step, Bus.slaveIn, state, ready,
            current, result, hrdy, hvld]
      · cases hrdy : s.fifo.wrRdy fifoAw <;> cases hvld : i.brdVld <;>
          simp [Bus.left, Sth.left, Bus.waiting, Bus.clock, Slave.step, Bus.slaveIn, state, ready,
            current, result, hrdy, hvld]
  | read2 state ready current fwr brd =>
      refine Or.inr ⟨ready, ?_⟩
      have hleft : (s.clock i).left = 1 ∧ s.left = 2 := by
        simp [Bus.left, Sth.left, Bus.clock, Slave.step, Bus.slaveIn, state, ready, current]
      split_ifs <;> omega
  | write0 d state ready current room fwr brd =>
      refine Or.inr ⟨ready, ?_⟩
      have hleft : (s.clock i).left = 1 ∧ s.left = 2 := by
        simp [Bus.left, Sth.left, Bus.clock, Slave.step, Bus.slaveIn, state, ready, current]
      split_ifs <;> omega

theorem clock_of_step (h : s.step i = some t) : i.address.legal = true ∧ t = s.clock i := by
  unfold Bus.step at h
  split_ifs at h with hlegal
  exact ⟨hlegal, (Option.some.inj h).symm⟩

/-- What is completed stays so. -/
theorem completed_run {more : List Cycle} (h : Run.run Bus.step s more = some t) :
    s.completed <+: t.completed := by
  induction more generalizing s with
  | nil => exact Option.some.inj h ▸ List.prefix_rfl
  | cons i rest ih =>
      unfold Run.run at h
      cases hstep : s.step i with
      | none =>
          rw [hstep] at h
          cases h
      | some u =>
          rw [hstep] at h
          obtain ⟨-, rfl⟩ := clock_of_step hstep
          exact (List.prefix_append _ _).trans (ih h)

/-- A transfer in its data phase gets to its end, once the slave has had as many clocks in which
    it was not kept waiting as are left for it. -/
theorem completes_of_going {more : List Cycle} (h : BusInv s)
    (hgap : Run.Along Bus.step Gap s more) (hrun : Run.run Bus.step s more = some t)
    (hgoing : s.left ≤ s.going more) : s.accepted <+: t.completed.map Prod.fst := by
  -- By induction on the clocks: each in which the slave does not wait leaves one less to come.
  induction more generalizing s with
  | nil =>
      have hnone := current_of_left (Nat.le_zero.mp hgoing)
      rw [h.accepted, hnone, ← Option.some.inj hrun]
      simp
  | cons i rest ih =>
      unfold Run.run at hrun
      cases hstep : s.step i with
      | none =>
          rw [hstep] at hrun
          cases hrun
      | some u =>
          rw [hstep] at hrun
          have hnext := busInv_step h hgap.1 hstep
          have hrest := hgap.2 u hstep
          obtain ⟨hlegal, rfl⟩ := clock_of_step hstep
          have hdone := (completed_run hrun).map Prod.fst
          by_cases hcurrent : s.current = none
          · -- all that was accepted is completed
            refine List.IsPrefix.trans ?_ ((List.prefix_append _ _).map Prod.fst |>.trans hdone)
            rw [h.accepted, hcurrent]
            simp
          rcases left_clock (i := i) h hcurrent with hready | ⟨hready, hleft⟩
          · -- the transfer ends in this clock
            refine List.IsPrefix.trans ?_ hdone
            rw [h.accepted]
            simp only [Bus.clock, hready, if_true, List.map_append, List.map_map]
            cases s.current <;> simp
          · have haccepted : (s.clock i).accepted = s.accepted := by simp [Bus.clock, hready]
            rw [← haccepted]
            refine ih hnext hrest hrun ?_
            have hcount : s.going (i :: rest) =
              (if s.waiting i then 0 else 1) + (s.clock i).going rest := rfl
            omega

end Progress

/-! ## Runs -/

/-- In a run of the bus in which no transfer starts in the last cycle of a
    write, every accepted transfer is performed once, and all that were accepted are
    completed five clocks later, the clocks in which the slave is kept waiting not counted. -/
theorem transfers_performed (mem : Nat → BitVec 32) (cycles : List Cycle) (s : Bus)
    (hgap : Run.Along Bus.step Gap (Bus.reset mem) cycles)
    (hrun : Run.run Bus.step (Bus.reset mem) cycles = some s) :
    Performed s ∧ ∀ more t, Run.Along Bus.step Gap s more → Run.run Bus.step s more = some t →
      5 ≤ s.going more → s.accepted <+: t.completed.map Prod.fst := by
  have hinv : BusInv s := Run.run_inv (fun _ _ _ h hg hs => busInv_step h hg hs) cycles _ s
    (busInv_reset mem) hgap hrun
  refine ⟨hinv.toPerformed, fun more t hmore ht hgoing => ?_⟩
  exact completes_of_going hinv hmore ht ((left_le s).trans hgoing)

/-- A cycle with nothing on the address lines. -/
def pauseCycle : Cycle where
  address := { hsel := false, haddr := 0, htrans := 0, hwrite := false, wdata := 0 }
  hwdata := 0
  rdRdy := false
  brdVld := false
  brdDat := 0
  rsaFinish := false

/-- A cycle that asks for a transfer at an offset. -/
def askCycle (offset : BitVec 32) (hwrite : Bool) (wdata : BitVec 32) : Cycle :=
  { pauseCycle with
    address := { hsel := true, haddr := addrBase + offset, htrans := 2, hwrite, wdata } }

/-- A start and two words, each followed by a cycle without an address phase,
    and a look at the status register. -/
def spacedCycles : List Cycle :=
  [askCycle 0 true 1, pauseCycle, pauseCycle,
    askCycle 16 true 7, pauseCycle, pauseCycle, pauseCycle,
    askCycle 16 true 8, pauseCycle, pauseCycle, pauseCycle,
    askCycle 4 false 0, pauseCycle, pauseCycle]

/-- The second word is accepted in the eighth cycle, and completed by the last. -/
theorem transfers_performed_spaced :
    ∃ s t, Run.run Bus.step (Bus.reset fun _ => 0) (spacedCycles.take 8) = some s ∧
      Run.run Bus.step s (spacedCycles.drop 8) = some t ∧ Performed s ∧
      s.accepted = [.start 1, .push 7, .push 8] ∧ s.pushed = [7] ∧ s.written = [1] ∧
      s.accepted <+: t.completed.map Prod.fst := by
  obtain ⟨hperformed, hcompleted⟩ := transfers_performed (fun _ => 0) (spacedCycles.take 8) _
    (by decide +kernel) rfl
  exact ⟨_, _, rfl, rfl, hperformed, by decide +kernel, by decide +kernel, by decide +kernel,
    hcompleted (spacedCycles.drop 8) _ (by decide +kernel) rfl (by decide +kernel)⟩

/-- Two words without a gap. -/
def backToBackCycles : List Cycle :=
  [askCycle 16 true 7, pauseCycle, pauseCycle, askCycle 16 true 8,
    pauseCycle, pauseCycle, pauseCycle, pauseCycle]

/-- A word right after a start. -/
def afterStartCycles : List Cycle :=
  [askCycle 0 true 1, askCycle 16 true 7, pauseCycle, pauseCycle, pauseCycle]

/-- Without the gap a word goes in twice, and a word right after a start does
    not go in at all. -/
theorem back_to_back_repeats :
    (∃ s, Run.run Bus.step (Bus.reset fun _ => 0) backToBackCycles = some s ∧
      s.accepted = [.push 7, .push 8] ∧ s.pushed = [7, 7, 8] ∧ ¬ Performed s) ∧
    ∃ s, Run.run Bus.step (Bus.reset fun _ => 0) afterStartCycles = some s ∧
      s.accepted = [.start 1, .push 7] ∧ s.current = none ∧ s.pushed = [] ∧ ¬ Performed s := by
  refine ⟨⟨_, rfl, by decide +kernel, by decide +kernel, ?_⟩,
    ⟨_, rfl, by decide +kernel, by decide +kernel, by decide +kernel, ?_⟩⟩
  · intro h
    exact absurd h.pushes (by decide +kernel)
  · intro h
    exact absurd h.pushes (by decide +kernel)

end Rsa

end Wujian100
