import Wujian100.Core.Driver.UsiSpi
import Wujian100.Library.Ring
import Wujian100.Library.Run

/-!
# Two Ways to Transfer

Both variants of `drv_usi_spi_transfer` send the same bytes and store the same answers: at any
time so many bytes were written to the one FIFO, so many were on the bus and so many were read
from the other one, and the variants differ in when these numbers grow. Afterwards neither tells
how many items it transferred. The variant that waits has counted `tot_num` down, and the other
one has not counted `recv_num` down.

## Main definitions

* `SpiBus.At`: How far a transfer is.
* `Spi.Inv`: How far the driver is, with interrupts.
* `TransferAgrees`: What both variants should do.

## Theorems

* `spiBlockLoop_at`: What the variant that waits does.
* `Spi.step_inv`, `Spi.completes`: What the other one does, and that it ends.
* `transfer_same`: Both do the same to the bus and the buffers.
* `transfer_disagrees`: The count that is returned is never that of the items.
-/

namespace Wujian100

namespace Driver

section Transfers

variable {dataOut : Nat → BitVec 8} {slave : List (BitVec 8) → BitVec 8}

/-- What the slave answers to each byte. -/
def answer (dataOut : Nat → BitVec 8) (slave : List (BitVec 8) → BitVec 8) (i : Nat) : BitVec 8 :=
  slave (window dataOut 0 i)

namespace SpiBus

/-- `k` bytes were written to the one FIFO, `j` were on the bus and `r` were read from the other
    FIFO. -/
structure At (dataOut : Nat → BitVec 8) (slave : List (BitVec 8) → BitVec 8) (k j r : Nat)
    (s : SpiBus) : Prop where
  txFifo : s.txFifo = window dataOut j (k - j)
  rxFifo : s.rxFifo = window (answer dataOut slave) r (j - r)
  bus : s.bus = window dataOut 0 j
  reads : s.reads = window id 0 k
  stores : s.stores = window (fun i => (answer dataOut slave i, i)) 0 r
  sent : j ≤ k
  received : r ≤ j
  fits : k ≤ r + usiTxMaxFifo

variable {s : SpiBus} {k j r : Nat}

theorem At.send (h : s.At dataOut slave k j r) (hfits : k + 1 ≤ r + usiTxMaxFifo) :
    (s.send dataOut k).At dataOut slave (k + 1) j r := by
  have hsent := h.sent
  have hreceived := h.received
  have hlen : s.txFifo.length < usiTxMaxFifo := by
    rw [h.txFifo, length_window]
    omega
  refine ⟨?_, h.rxFifo, h.bus, ?_, h.stores, Nat.le_succ_of_le hsent, hreceived, hfits⟩
  · unfold SpiBus.send
    dsimp only
    rw [if_pos hlen, h.txFifo, Nat.sub_add_comm hsent, window_snoc, Nat.add_sub_cancel' hsent]
  · unfold SpiBus.send
    dsimp only
    rw [h.reads, window_snoc, Nat.zero_add]
    rfl

theorem At.exchange (h : s.At dataOut slave k j r) (hlt : j < k) :
    (s.exchange slave).At dataOut slave k (j + 1) r := by
  have hreceived := h.received
  have hfits := h.fits
  have hlen : s.rxFifo.length < usiTxMaxFifo := by
    rw [h.rxFifo, length_window]
    omega
  have hfifo : s.txFifo = dataOut j :: window dataOut (j + 1) (k - (j + 1)) := by
    rw [h.txFifo, ← window_cons]
    congr 1
    omega
  unfold SpiBus.exchange
  rw [hfifo]
  dsimp only
  refine ⟨rfl, ?_, ?_, h.reads, h.stores, hlt, Nat.le_succ_of_le hreceived, hfits⟩
  · rw [if_pos hlen, h.rxFifo, Nat.sub_add_comm hreceived, window_snoc, Nat.add_sub_cancel' hreceived,
      h.bus]
    rfl
  · rw [h.bus, window_snoc, Nat.zero_add]

theorem At.recv (h : s.At dataOut slave k j r) (hlt : r < j) :
    (s.recv r).At dataOut slave k j (r + 1) := by
  have hfits := h.fits
  have hfifo : s.rxFifo = answer dataOut slave r
      :: window (answer dataOut slave) (r + 1) (j - (r + 1)) := by
    rw [h.rxFifo, ← window_cons]
    congr 1
    omega
  unfold SpiBus.recv
  rw [hfifo]
  refine ⟨h.txFifo, rfl, h.bus, h.reads, ?_, h.sent, hlt, by omega⟩
  rw [h.stores, window_snoc, Nat.zero_add]
  rfl

theorem At.sends (h : s.At dataOut slave k j r) (n : Nat) (hfits : k + n ≤ r + usiTxMaxFifo) :
    (s.sends dataOut n k).At dataOut slave (k + n) j r := by
  induction n generalizing s k with
  | zero => exact h
  | succ n ih =>
      have hone := ih (h.send (by omega)) (by omega)
      rw [Nat.add_assoc, Nat.add_comm 1 n] at hone
      exact hone

theorem At.exchanges (h : s.At dataOut slave k j r) (n : Nat) (hle : j + n ≤ k) :
    (s.exchanges slave n).At dataOut slave k (j + n) r := by
  induction n generalizing s j with
  | zero => exact h
  | succ n ih =>
      have hone := ih (h.exchange (by omega)) (by omega)
      rw [Nat.add_assoc, Nat.add_comm 1 n] at hone
      exact hone

theorem At.recvs (h : s.At dataOut slave k j r) (n : Nat) (hle : r + n ≤ j) :
    (s.recvs n r).At dataOut slave k j (r + n) := by
  induction n generalizing s r with
  | zero => exact h
  | succ n ih =>
      have hone := ih (h.recv (by omega)) (by omega)
      rw [Nat.add_assoc, Nat.add_comm 1 n] at hone
      exact hone

theorem init_at (dataOut : Nat → BitVec 8) (slave : List (BitVec 8) → BitVec 8) :
    init.At dataOut slave 0 0 0 :=
  ⟨rfl, rfl, rfl, rfl, rfl, Nat.le_refl 0, Nat.le_refl 0, Nat.zero_le _⟩

/-- What is left at the end of a transfer is the same, whichever way it went. -/
theorem At.eq {u : SpiBus} (h : s.At dataOut slave k j r) (h' : u.At dataOut slave k j r) :
    s = u := by
  rcases s with ⟨txFifo, rxFifo, bus, reads, stores⟩
  rcases u with ⟨txFifo', rxFifo', bus', reads', stores'⟩
  rw [SpiBus.mk.injEq]
  exact ⟨h.txFifo.trans h'.txFifo.symm, h.rxFifo.trans h'.rxFifo.symm, h.bus.trans h'.bus.symm,
    h.reads.trans h'.reads.symm, h.stores.trans h'.stores.symm⟩

end SpiBus

/-! ## With waits -/

/-- The loop goes on to the end, by a FIFO each time. -/
theorem spiBlockLoop_at (turns tot p : Nat) {s : SpiBus} (h : s.At dataOut slave p p p)
    (hturns : tot ≤ turns) :
    ∃ u, spiBlockLoop dataOut slave turns tot p s = some u ∧
      u.At dataOut slave (p + tot) (p + tot) (p + tot) := by
  induction turns generalizing tot p s with
  | zero =>
      rw [Nat.le_zero.mp hturns]
      exact ⟨s, rfl, h⟩
  | succ turns ih =>
      cases tot with
      | zero => exact ⟨s, rfl, h⟩
      | succ tot =>
          rw [spiBlockLoop]
          generalize hnum : (if tot + 1 > usiTxMaxFifo then usiTxMaxFifo else tot + 1) = num
          have hle : num ≤ tot + 1 ∧ 0 < num ∧ num ≤ usiTxMaxFifo := by
            unfold usiTxMaxFifo at hnum ⊢
            split at hnum
            · omega
            · omega
          have hsends := h.sends num (by omega)
          have hlen : (s.sends dataOut num p).txFifo.length = num := by
            rw [hsends.txFifo, length_window]
            omega
          rw [hlen]
          have hrecvs := (hsends.exchanges num (Nat.le_refl _)).recvs num (Nat.le_refl _)
          rcases ih (tot + 1 - num) (p + num) hrecvs (by omega) with ⟨u, hu, hat⟩
          rw [show p + num + (tot + 1 - num) = p + (tot + 1) by omega] at hat
          exact ⟨u, hu, hat⟩

/-! ## With interrupts -/

namespace Spi

/-- The driver is as far as the bus says; the transfer goes on, or everything is done and the
    callback was told. -/
structure Inv (dataOut : Nat → BitVec 8) (slave : List (BitVec 8) → BitVec 8) (cb : Bool)
    (tot : BitVec 32) (k j r : Nat) (s : Spi) : Prop where
  bus : s.bus.At dataOut slave k j r
  sendBuf : s.priv.sendBuf = k
  recvBuf : s.priv.recvBuf = r
  transferNum : s.priv.transferNum = k - r
  recvNum : s.priv.recvNum = tot
  totNum : s.priv.totNum = tot
  transferStat : s.priv.transferStat = .tran
  cbEvent : s.priv.cbEvent = cb
  le : k ≤ tot.toNat
  running : s.priv.busy = true →
    s.txEmptyEn = true ∧ s.priv.clkNum = tot.toNat - k ∧ s.completed = 0
  ended : s.priv.busy = false → s.txEmptyEn = false ∧ r = tot.toNat ∧ s.priv.sendNum = 0 ∧
    s.completed = if cb = true then 1 else 0

variable {cb : Bool} {tot : BitVec 32} {k j r : Nat} {s : Spi}

theorem transfer_inv (p : SpiPriv) (numOut numIn : BitVec 32) :
    (transfer p numOut numIn).Inv dataOut slave p.cbEvent (transferTotal numOut numIn) 0 0 0 :=
  ⟨SpiBus.init_at dataOut slave, rfl, rfl, rfl, rfl, rfl, rfl, rfl, Nat.zero_le _,
    fun _ => ⟨rfl, rfl, rfl⟩, fun hcontra => Bool.noConfusion hcontra⟩

theorem txFifo_nil_iff (h : s.Inv dataOut slave cb tot k j r) : s.bus.txFifo = [] ↔ j = k := by
  have hsent := h.bus.sent
  rw [h.bus.txFifo, ← List.length_eq_zero_iff, length_window]
  omega

theorem exchange_inv (h : s.Inv dataOut slave cb tot k j r) (hne : s.bus.txFifo ≠ []) :
    Inv dataOut slave cb tot k (j + 1) r { s with bus := s.bus.exchange slave } := by
  have hlt : j < k := Nat.lt_of_le_of_ne h.bus.sent (mt (txFifo_nil_iff h).mpr hne)
  exact { h with bus := h.bus.exchange hlt }

/-- What the interrupt leaves before it looks whether this is the end. -/
theorem sendNext_at (h : s.Inv dataOut slave cb tot k j r) (hnil : s.bus.txFifo = [])
    (hclk : s.priv.clkNum = tot.toNat - k) :
    ∃ num, num = min usiTxMaxFifo (tot.toNat - k) ∧
      (s.readOut.sendNext dataOut).bus.At dataOut slave (k + num) k k ∧
      (s.readOut.sendNext dataOut).priv = { s.priv with
        recvBuf := k, transferNum := num, sendBuf := k + num
        sendNum := s.priv.sendNum - BitVec.ofNat 32 num } := by
  have hjk := (txFifo_nil_iff h).mp hnil
  have hreceived := h.bus.received
  have hbus := h.bus
  rw [hjk] at hbus hreceived
  have hrecvs := hbus.recvs (k - r) (by omega)
  rw [Nat.add_sub_cancel' hreceived] at hrecvs
  have hnum : (if s.priv.clkNum ≥ usiTxMaxFifo then usiTxMaxFifo else s.priv.clkNum)
      = min usiTxMaxFifo (tot.toNat - k) := by
    rw [hclk]
    split
    · omega
    · omega
  refine ⟨_, rfl, ?_, ?_⟩
  · have hsends := hrecvs.sends (min usiTxMaxFifo (tot.toNat - k)) (by omega)
    unfold sendNext readOut
    dsimp only
    rw [hnum, h.transferNum, h.recvBuf, h.sendBuf]
    exact hsends
  · unfold sendNext readOut
    dsimp only
    rw [hnum, h.transferNum, h.recvBuf, h.sendBuf, Nat.add_sub_cancel' hreceived]

/-- The interrupt reads what was answered, and sends more or ends the transfer. -/
theorem intrTxEmpty_inv (h : s.Inv dataOut slave cb tot k j r) (hen : s.txEmptyEn = true)
    (hnil : s.bus.txFifo = []) :
    (s.intrTxEmpty dataOut).Inv dataOut slave cb tot (k + min usiTxMaxFifo (tot.toNat - k)) k k ∧
      ((s.intrTxEmpty dataOut).priv.busy = false ↔ k = tot.toNat) := by
  have hbusy : s.priv.busy = true := by
    cases hb : s.priv.busy with
    | true => rfl
    | false =>
        have hdis := (h.ended hb).1
        rw [hen] at hdis
        cases hdis
  rcases h.running hbusy with ⟨-, hclk, hcompleted⟩
  rcases sendNext_at h hnil hclk with ⟨num, hnum, hat, hpriv⟩
  have hle := h.le
  rw [← hnum]
  unfold intrTxEmpty
  dsimp only
  have hcompleted' : (s.readOut.sendNext dataOut).completed = 0 := hcompleted
  have hen' : (s.readOut.sendNext dataOut).txEmptyEn = true := hen
  generalize s.readOut.sendNext dataOut = u at hat hpriv hcompleted' hen'
  rcases u with ⟨priv, en, bus, completed⟩
  dsimp only at hat hpriv hcompleted' hen'
  subst hpriv hcompleted' hen'
  have hbetween : k + num - k = num := Nat.add_sub_cancel_left k num
  -- With all words sent the transfer ends, with or without the callback; else it goes on.
  by_cases hend : k = tot.toNat
  · have hzero : s.priv.clkNum = 0 := by omega
    have hnone : num = 0 := by omega
    rw [if_pos hzero]
    dsimp only
    rw [h.cbEvent]
    refine ⟨?_, fun _ => hend, fun _ => ?_⟩
    · by_cases hcb : cb = true
      · rw [if_pos ⟨hzero, hcb⟩, if_pos hcb]
        exact ⟨hat, rfl, rfl, hbetween.symm, h.recvNum, h.totNum, h.transferStat, rfl,
          by omega, fun hcontra => Bool.noConfusion hcontra,
          fun _ => ⟨rfl, hend, rfl, (if_pos hcb).symm⟩⟩
      · rw [if_neg fun hc => hcb hc.2, if_neg hcb]
        exact ⟨hat, rfl, rfl, hbetween.symm, h.recvNum, h.totNum, h.transferStat, rfl,
          by omega, fun hcontra => Bool.noConfusion hcontra,
          fun _ => ⟨rfl, hend, rfl, (if_neg hcb).symm⟩⟩
    · split
      · rfl
      · rfl
  · have hmore : s.priv.clkNum ≠ 0 := by omega
    rw [if_neg hmore, if_neg fun hc => hmore hc.1]
    refine ⟨⟨hat, rfl, rfl, hbetween.symm, h.recvNum, h.totNum, h.transferStat, h.cbEvent,
      by omega, fun _ => ⟨rfl, ?_, rfl⟩, fun hcontra => ?_⟩, fun hcontra => ?_,
      fun hcontra => absurd hcontra hend⟩
    · change s.priv.clkNum - num = _
      omega
    · change s.priv.busy = false at hcontra
      rw [hbusy] at hcontra
      cases hcontra
    · change s.priv.busy = false at hcontra
      rw [hbusy] at hcontra
      cases hcontra

/-- A step keeps the driver where the bus is. -/
theorem step_inv {a : SpiAct} {t : Spi} (h : s.Inv dataOut slave cb tot k j r)
    (ht : s.step dataOut slave a = some t) :
    ∃ k' j' r', t.Inv dataOut slave cb tot k' j' r' := by
  cases a with
  | exchange =>
      unfold step at ht
      dsimp only at ht
      split at ht
      · cases ht
        exact ⟨k, j + 1, r, exchange_inv h (by assumption)⟩
      · cases ht
  | txEmpty =>
      unfold step at ht
      dsimp only at ht
      split at ht
      · rename_i hready
        cases ht
        exact ⟨_, k, k, (intrTxEmpty_inv h hready.1 hready.2).1⟩
      · cases ht

theorem run_inv (h : s.Inv dataOut slave cb tot k j r) {as : List SpiAct} {t : Spi}
    (ht : Run.run (step dataOut slave) s as = some t) :
    ∃ k' j' r', t.Inv dataOut slave cb tot k' j' r' := by
  induction as generalizing s k j r with
  | nil =>
      cases ht
      exact ⟨k, j, r, h⟩
  | cons a rest ih =>
      cases hs : s.step dataOut slave a with
      | none =>
          unfold Run.run at ht
          rw [hs] at ht
          cases ht
      | some u =>
          rw [Run.run_cons hs] at ht
          rcases step_inv h hs with ⟨k', j', r', hu⟩
          exact ih hu ht

/-- Wherever a transfer is, it can go on to its end. -/
theorem completes (n : Nat) (h : s.Inv dataOut slave cb tot k j r)
    (hn : 2 * (tot.toNat - k) + (k - j) < n) :
    ∃ as t, Run.run (step dataOut slave) s as = some t ∧ t.priv.busy = false := by
  -- a byte that was not written yet counts twice: it has to be written and to be on the bus
  induction n generalizing s k j r with
  | zero => exact absurd hn (Nat.not_lt_zero _)
  | succ n ih =>
      cases hb : s.priv.busy with
      | false => exact ⟨[], s, rfl, hb⟩
      | true =>
          by_cases hnil : s.bus.txFifo = []
          · have hen := (h.running hb).1
            have hjk := (txFifo_nil_iff h).mp hnil
            have hs : s.step dataOut slave .txEmpty = some (s.intrTxEmpty dataOut) :=
              if_pos ⟨hen, hnil⟩
            have hnext := intrTxEmpty_inv h hen hnil
            by_cases hend : k = tot.toNat
            · refine ⟨[.txEmpty], _, Run.run_cons hs [], ?_⟩
              exact hnext.2.mpr hend
            · have hle := h.le
              rcases ih hnext.1 (by unfold usiTxMaxFifo; omega) with ⟨as, t, ht, hdone⟩
              exact ⟨.txEmpty :: as, t, (Run.run_cons hs as).trans ht, hdone⟩
          · have hsent := h.bus.sent
            have hjk := mt (txFifo_nil_iff h).mpr hnil
            have hs : s.step dataOut slave .exchange
                = some { s with bus := s.bus.exchange slave } := if_pos hnil
            rcases ih (exchange_inv h hnil) (by omega) with ⟨as, t, ht, hdone⟩
            exact ⟨.exchange :: as, t, (Run.run_cons hs as).trans ht, hdone⟩

/-- At the end everything was transferred. -/
theorem Inv.at_end (h : s.Inv dataOut slave cb tot k j r) (hdone : s.priv.busy = false) :
    s.bus.At dataOut slave tot.toNat tot.toNat tot.toNat := by
  have hr := (h.ended hdone).2.1
  have hle := h.le
  have hsent := h.bus.sent
  have hreceived := h.bus.received
  have hat := h.bus
  rw [show k = tot.toNat by omega, show j = tot.toNat by omega, hr] at hat
  exact hat

/-- The count of what is left to receive is still that of the whole transfer. -/
theorem Inv.getDataCount_end (h : s.Inv dataOut slave cb tot k j r)
    (hdone : s.priv.busy = false) : s.priv.getDataCount = 0 := by
  have hsend := (h.ended hdone).2.2.1
  unfold SpiPriv.getDataCount
  rw [h.transferStat]
  dsimp only
  rw [h.totNum, h.recvNum, hsend]
  by_cases hpos : tot > 0
  · rw [if_pos hpos, BitVec.sub_self]
    rfl
  · have hzero : tot = 0 := by
      have hnat : ¬0 < tot.toNat := hpos
      exact BitVec.eq_of_toNat_eq (Nat.eq_zero_of_not_pos hnat)
    rw [if_neg hpos, hzero, BitVec.sub_self]
    rfl

end Spi

/-! ## Both -/

/-- Both variants end, do the same, stay inside the buffers, tell once that they are done and
    then know how many items were transferred. -/
structure TransferAgrees (dataOut : Nat → BitVec 8) (slave : List (BitVec 8) → BitVec 8)
    (p : SpiPriv) (numOut numIn : BitVec 32) : Prop where
  waits : ∃ turns q s, spiTransferBlock dataOut slave turns p numOut numIn = some (q, s)
  goes_on : ∀ as t, Run.run (Spi.step dataOut slave) (.transfer p numOut numIn) as = some t →
    ∃ bs u, Run.run (Spi.step dataOut slave) t bs = some u ∧ u.priv.busy = false
  same : ∀ turns q s, spiTransferBlock dataOut slave turns p numOut numIn = some (q, s) →
    ∀ as t, Run.run (Spi.step dataOut slave) (.transfer p numOut numIn) as = some t →
      t.priv.busy = false → t.bus.bus = s.bus ∧ t.bus.stores = s.stores
  inside : ∀ turns q s, spiTransferBlock dataOut slave turns p numOut numIn = some (q, s) →
    (∀ i, i ∈ s.reads → i < numOut.toNat) ∧ ∀ b i, (b, i) ∈ s.stores → i < numIn.toNat
  inside_intr : ∀ as t, Run.run (Spi.step dataOut slave) (.transfer p numOut numIn) as = some t →
    (∀ i, i ∈ t.bus.reads → i < numOut.toNat) ∧ ∀ b i, (b, i) ∈ t.bus.stores → i < numIn.toNat
  done : ∀ turns q s, spiTransferBlock dataOut slave turns p numOut numIn = some (q, s) →
    q.busy = false ∧ q.getDataCount = transferTotal numOut numIn
  done_intr : ∀ as t, Run.run (Spi.step dataOut slave) (.transfer p numOut numIn) as = some t →
    t.priv.busy = false →
    (t.completed = if p.cbEvent = true then 1 else 0) ∧
      t.priv.getDataCount = transferTotal numOut numIn

/-- The variant that waits ends, and at its end everything was transferred. -/
theorem spiTransferBlock_at (dataOut : Nat → BitVec 8) (slave : List (BitVec 8) → BitVec 8)
    (p : SpiPriv) (numOut numIn : BitVec 32) (turns : Nat)
    (hturns : (transferTotal numOut numIn).toNat ≤ turns) :
    ∃ s, spiTransferBlock dataOut slave turns p numOut numIn
        = some ({ p with totNum := 0, transferStat := .tran, busy := false }, s) ∧
      s.At dataOut slave (transferTotal numOut numIn).toNat (transferTotal numOut numIn).toNat
        (transferTotal numOut numIn).toNat := by
  rcases spiBlockLoop_at turns (transferTotal numOut numIn).toNat 0
    (SpiBus.init_at dataOut slave) hturns with ⟨s, hs, hat⟩
  refine ⟨s, ?_, ?_⟩
  · unfold spiTransferBlock
    rw [hs]
    rfl
  · rw [Nat.zero_add] at hat
    exact hat

/-- However the bus and the interrupt alternate, the transfer ends, and then it did to the bus
    and to the buffers what the variant that waits does, and told it once. -/
theorem transfer_same (dataOut : Nat → BitVec 8) (slave : List (BitVec 8) → BitVec 8)
    (p : SpiPriv) (numOut numIn : BitVec 32) :
    ∃ s, (∀ turns, (transferTotal numOut numIn).toNat ≤ turns →
        spiTransferBlock dataOut slave turns p numOut numIn
          = some ({ p with totNum := 0, transferStat := .tran, busy := false }, s)) ∧
      ∀ as t, Run.run (Spi.step dataOut slave) (.transfer p numOut numIn) as = some t →
        (∃ bs u, Run.run (Spi.step dataOut slave) t bs = some u ∧ u.priv.busy = false) ∧
        (t.priv.busy = false →
          t.bus = s ∧ t.completed = if p.cbEvent = true then 1 else 0) := by
  rcases spiTransferBlock_at dataOut slave p numOut numIn _ (Nat.le_refl _) with ⟨s, -, hat⟩
  refine ⟨s, fun turns hturns => ?_, fun as t ht => ?_⟩
  · rcases spiTransferBlock_at dataOut slave p numOut numIn turns hturns with ⟨u, hu, hat'⟩
    rw [hu, hat.eq hat']
  · rcases Spi.run_inv (Spi.transfer_inv p numOut numIn) ht with ⟨k, j, r, hinv⟩
    refine ⟨Spi.completes _ hinv (Nat.lt_succ_self _), fun hdone => ?_⟩
    exact ⟨(hinv.at_end hdone).eq hat, (hinv.ended hdone).2.2.2⟩

/-- The count is never that of the items: with interrupts, `recv_num` stays what it was. -/
theorem transfer_disagrees (dataOut : Nat → BitVec 8) (slave : List (BitVec 8) → BitVec 8)
    (p : SpiPriv) (numOut numIn : BitVec 32) (hout : numOut ≠ 0) :
    ¬TransferAgrees dataOut slave p numOut numIn := by
  intro hagrees
  have hinv : (Spi.transfer p numOut numIn).Inv dataOut slave p.cbEvent
      (transferTotal numOut numIn) 0 0 0 := Spi.transfer_inv p numOut numIn
  rcases Spi.completes _ hinv (Nat.lt_succ_self _) with ⟨as, t, ht, hdone⟩
  rcases Spi.run_inv hinv ht with ⟨k, j, r, hend⟩
  have hcount := (hagrees.done_intr as t ht hdone).2
  rw [hend.getDataCount_end hdone] at hcount
  apply hout
  unfold transferTotal at hcount
  split at hcount
  · exact hcount.symm
  · rename_i hle
    rw [← hcount] at hle
    exact BitVec.eq_of_toNat_eq (Nat.eq_zero_of_not_pos hle)

end Transfers

/-- A byte for a byte. -/
theorem transfer_disagrees_one :
    ¬TransferAgrees (fun _ => 0xA5) (fun _ => 0x5A) ⟨true, 0, 0, 0, 0, 0, 0, false, .idle, 0⟩ 1 1 :=
  transfer_disagrees _ _ _ 1 1 (by decide)

/-- A byte was sent and its answer was stored, and it was told that no byte was transferred. -/
theorem one_byte_not_counted :
    ¬∀ (dataOut : Nat → BitVec 8) (slave : List (BitVec 8) → BitVec 8) (p : SpiPriv)
      (numOut numIn : BitVec 32), numOut ≠ 0 → numIn ≠ 0 →
      TransferAgrees dataOut slave p numOut numIn := by
  intro hclaim
  have hagrees := hclaim (fun _ => 0xA5) (fun _ => 0x5A)
    ⟨true, 0, 0, 0, 0, 0, 0, false, .idle, 0⟩ 1 1 (by decide) (by decide)
  have hcount := (hagrees.done_intr [.txEmpty, .exchange, .txEmpty] _ rfl rfl).2
  revert hcount
  decide

end Driver

end Wujian100
