import Mathlib.Data.List.Basic
import Mathlib.Tactic.Ring

/-!
# Transfers with the USI's I2C

`drv_usi_iic_master_send` and `drv_usi_iic_master_receive` of `wj_usi_iic.c` with the handlers
`wj_iic_intr_tx_empty` and `wj_iic_intr_rx_full`. The bus takes words out of one FIFO and puts
bytes into the other while a handler is at work, so a step is one access of a handler to the
FIFOs or their levels. An interrupt may come whenever it is enabled. A FIFO that is written when
it is full loses its oldest word, as the one of `usi0.v` does. There is no error on the bus.

## Main definitions

* `usiFifoWrite`: A write to a FIFO.
* `IicSend`, `IicSend.step`: A master that sends.
* `IicReceive`, `IicReceive.step`: A master that receives.
* `wjUsiSetRxfifoTh`: When the receiver is interrupted.
-/

namespace Wujian100

namespace Driver

/-- `USI_TX_MAX_FIFO` and `USI_RX_MAX_FIFO`. -/
def usiMaxFifo : Nat := 16

/-- `sync_fifo_16x16`, written. -/
def usiFifoWrite {α : Type} (fifo : List α) (w : α) : List α :=
  if fifo.length < usiMaxFifo then fifo ++ [w] else fifo.tail ++ [w]

/-- `iic_priv->status`, without the states of a slave and of errors. -/
inductive IicState where
  | datasend
  | wfdata
  | sendDone
  | recvDone
deriving DecidableEq, Repr

/-- The bits of `intr_stat` without those of errors. -/
structure IicStat where
  txEmpty : Bool
  rxThold : Bool
  i2cStop : Bool
deriving DecidableEq, Repr

/-! ## Sending -/

/-- Where `wj_iic_intr_tx_empty` is: about to read the level of the FIFO for the first or the
    second time, with so many of `emptyfifo` words to write, or past them. -/
inductive SendPc where
  | idle
  | level
  | again
  | push (emptyfifo left : Nat)
  | check (emptyfifo : Nat)
deriving DecidableEq, Repr

/-- The driver while it sends, the FIFO, everything that was written to it and whether it was
    full then, `I2CM_CTRL`'s stop bit, `USI_INT_TX_EMPTY` in `USI_INTR_EN`, and where the handler
    is with what. -/
structure IicSend where
  txTotalNum : BitVec 32
  txCnt : BitVec 32
  txBuf : Nat
  status : IicState
  txFifo : List (BitVec 16)
  written : List (BitVec 16)
  overrun : Bool
  stop : Bool
  txEmptyEn : Bool
  completed : Nat
  intrStat : IicStat
  pc : SendPc
deriving DecidableEq, Repr

/-- What happens: the bus takes a word, an interrupt comes, or the handler goes on. -/
inductive SendAct where
  | bus
  | irq (stat : IicStat)
  | access
deriving DecidableEq, Repr

namespace IicSend

/-- `addr->USI_TX_RX_FIFO = w`. -/
def write (s : IicSend) (w : BitVec 16) : IicSend :=
  { s with
    txFifo := usiFifoWrite s.txFifo w
    written := s.written ++ [w]
    overrun := s.overrun || decide (usiMaxFifo ≤ s.txFifo.length) }

/-- `drv_usi_iic_master_send`. -/
def masterSend (data : Nat → BitVec 8) (devaddr num : BitVec 32) : Option IicSend :=
  if num = 0 ∨ devaddr = 0 then none
  else
    let s : IicSend :=
      { txTotalNum := num, txCnt := 0, txBuf := 0, status := .datasend, txFifo := []
        written := [], overrun := false, stop := false, txEmptyEn := false, completed := 0
        intrStat := ⟨false, false, false⟩, pc := .idle }
    let s := s.write ((data s.txBuf).setWidth 16 ||| 0x200)
    some { s with txBuf := s.txBuf + 1, txCnt := s.txCnt + 1, txEmptyEn := true }

/-- `wj_usi_i2c_irqhandler`. -/
def irqhandler (s : IicSend) (stat : IicStat) : IicSend :=
  match s.status with
  | .datasend => { s with intrStat := stat, pc := if stat.txEmpty then .level else .check 0 }
  | _ => { s with txEmptyEn := false, txFifo := [] }

/-- `remain_txfifo`. -/
def remainTxfifo (s : IicSend) : BitVec 32 := s.txTotalNum - s.txCnt

/-- What follows the last word that is written. -/
def finish (s : IicSend) (emptyfifo : Nat) : IicSend :=
  let s := if s.txCnt = s.txTotalNum then { s with stop := true, txEmptyEn := false } else s
  let s :=
    if s.intrStat.i2cStop then
      { s with status := .sendDone, txFifo := [], completed := s.completed + 1 }
    else s
  { s with txCnt := s.txCnt + BitVec.ofNat 32 emptyfifo, pc := .idle }

/-- An access of `wj_iic_intr_tx_empty`, and what is done up to the next one. -/
def access (data : Nat → BitVec 8) (s : IicSend) : Option IicSend :=
  match s.pc with
  | .idle => none
  | .level =>
      if s.remainTxfifo.toNat > usiMaxFifo - s.txFifo.length then some { s with pc := .again }
      else some { s with pc := .push (s.remainTxfifo.toNat % 256) (s.remainTxfifo.toNat % 256) }
  | .again =>
      some { s with pc := .push (usiMaxFifo - s.txFifo.length) (usiMaxFifo - s.txFifo.length) }
  | .push emptyfifo 0 => some { s with pc := .check emptyfifo }
  | .push emptyfifo (left + 1) =>
      some { s.write ((data s.txBuf).setWidth 16) with
        txBuf := s.txBuf + 1, pc := .push emptyfifo left }
  | .check emptyfifo => some (s.finish emptyfifo)

/-- A step. The bus tells that it stopped only when it was asked to. -/
def step (data : Nat → BitVec 8) (s : IicSend) : SendAct → Option IicSend
  | .bus => if s.txFifo ≠ [] then some { s with txFifo := s.txFifo.tail } else none
  | .irq stat =>
      if s.pc = .idle ∧ (stat.txEmpty → s.txEmptyEn) ∧ (stat.i2cStop → s.stop) then
        some (s.irqhandler stat)
      else none
  | .access => s.access data

end IicSend

/-! ## Receiving -/

/-- `wj_usi_set_rxfifo_th`, on `USI_INTR_CTRL`. -/
def wjUsiSetRxfifoTh (intrCtrl : BitVec 32) (length : Nat) : BitVec 32 :=
  let intrCtrl := intrCtrl &&& ~~~(1#32 <<< 16) &&& 0xfffffcff
  if length ≥ usiMaxFifo then intrCtrl ||| 0x300 ||| (1#32 <<< 16)
  else if length ≥ usiMaxFifo - 4 then intrCtrl ||| 0x200 ||| (1#32 <<< 16)
  else if length ≥ 4 then intrCtrl ||| 0x100 ||| (1#32 <<< 16)
  else intrCtrl ||| 0x100

/-- Where `wj_iic_intr_rx_full` is: about to read the level of the one FIFO, with so many bytes
    to read, about to read the level of the other one, with so many of `rxfifo` commands to
    write, or past them. -/
inductive ReceivePc where
  | idle
  | rxLevel
  | read (left : Nat)
  | txLevel
  | push (rxfifo left : Nat)
  | threshold (rxfifo : Nat)
  | check
deriving DecidableEq, Repr

/-- The driver while it receives, the FIFOs, the commands that were written and whether the FIFO
    was full then, how many commands the bus is at, how many bytes came, what was stored where,
    the registers, and where the handler is with what. -/
structure IicReceive where
  rxTotalNum : BitVec 32
  rxCnt : BitVec 32
  rxClk : BitVec 32
  rxBuf : Nat
  status : IicState
  txFifo : List (BitVec 16)
  written : List (BitVec 16)
  overrun : Bool
  inFlight : Nat
  delivered : Nat
  rxFifo : List (BitVec 8)
  stores : List (BitVec 8 × Nat)
  intrCtrl : BitVec 32
  stop : Bool
  rxTholdEn : Bool
  stopEn : Bool
  completed : Nat
  intrStat : IicStat
  pc : ReceivePc
deriving DecidableEq, Repr

/-- What happens: the bus takes a command, a byte comes, an interrupt comes, or the handler goes
    on. -/
inductive ReceiveAct where
  | take
  | deliver
  | irq (stat : IicStat)
  | access
deriving DecidableEq, Repr

namespace IicReceive

/-- `addr->USI_TX_RX_FIFO = w`, and one command less to write. -/
def command (s : IicReceive) (w : BitVec 16) : IicReceive :=
  { s with
    txFifo := usiFifoWrite s.txFifo w
    written := s.written ++ [w]
    overrun := s.overrun || decide (usiMaxFifo ≤ s.txFifo.length)
    rxClk := s.rxClk - 1 }

/-- `drv_usi_iic_master_receive`. -/
def masterReceive (intrCtrl num : BitVec 32) : Option IicReceive :=
  if num = 0 then none
  else
    let s : IicReceive :=
      { rxTotalNum := num, rxCnt := 0, rxClk := num, rxBuf := 0, status := .wfdata, txFifo := []
        written := [], overrun := false, inFlight := 0, delivered := 0, rxFifo := [], stores := []
        intrCtrl := wjUsiSetRxfifoTh intrCtrl 1, stop := false, rxTholdEn := false
        stopEn := false, completed := 0, intrStat := ⟨false, false, false⟩, pc := .idle }
    some { s.command 0x300 with rxTholdEn := true }

/-- `addr->USI_EN = 0`. -/
def disable (s : IicReceive) : IicReceive :=
  { s with txFifo := [], rxFifo := [], inFlight := 0 }

/-- `wj_usi_i2c_irqhandler`. -/
def irqhandler (s : IicReceive) (stat : IicStat) : IicReceive :=
  match s.status with
  | .wfdata => { s with intrStat := stat, pc := if stat.rxThold then .rxLevel else .check }
  | _ => { s.disable with rxTholdEn := false, stopEn := false }

/-- `rxfifo`. -/
def rxfifo (s : IicReceive) : Nat :=
  if s.rxClk = 0 then 0
  else if s.rxClk.toNat > usiMaxFifo - s.txFifo.length then usiMaxFifo - s.txFifo.length
  else 1

/-- What follows the threshold. -/
def finish (s : IicReceive) : IicReceive :=
  let s := if s.rxCnt = s.rxTotalNum then { s with stop := true, rxTholdEn := false } else s
  let s :=
    if s.intrStat.i2cStop then
      { s.disable with status := .recvDone, completed := s.completed + 1 }
    else s
  { s with pc := .idle }

/-- An access of `wj_iic_intr_rx_full`, and what is done up to the next one. -/
def access (s : IicReceive) : Option IicReceive :=
  match s.pc with
  | .idle => none
  | .rxLevel => some { s with pc := .read s.rxFifo.length }
  | .read 0 => some { s with pc := .txLevel }
  | .read (left + 1) =>
      some { s with
        rxFifo := s.rxFifo.tail
        stores := s.stores ++ [(s.rxFifo.headD 0, s.rxBuf)]
        rxBuf := s.rxBuf + 1
        rxCnt := s.rxCnt + 1
        pc := .read left }
  | .txLevel => some { s with pc := .push s.rxfifo s.rxfifo }
  | .push rxfifo 0 => some { s with pc := .threshold rxfifo }
  | .push rxfifo (left + 1) => some { s.command 0x100 with pc := .push rxfifo left }
  | .threshold rxfifo =>
      some { s with
        intrCtrl := wjUsiSetRxfifoTh s.intrCtrl rxfifo
        stopEn := s.stopEn || decide (rxfifo = 0)
        pc := .check }
  | .check => some s.finish

/-- A step, where the slave answers so. The bus tells that it stopped only when it was asked
    to. -/
def step (answer : Nat → BitVec 8) (s : IicReceive) : ReceiveAct → Option IicReceive
  | .take =>
      if s.txFifo ≠ [] then
        some { s with txFifo := s.txFifo.tail, inFlight := s.inFlight + 1 }
      else none
  | .deliver =>
      if s.inFlight ≠ 0 then
        some { s with
          inFlight := s.inFlight - 1
          rxFifo := usiFifoWrite s.rxFifo (answer s.delivered)
          delivered := s.delivered + 1 }
      else none
  | .irq stat =>
      if s.pc = .idle ∧ (stat.rxThold → s.rxTholdEn) ∧ (stat.i2cStop → s.stop ∧ s.stopEn) then
        some (s.irqhandler stat)
      else none
  | .access => s.access

end IicReceive

end Driver

end Wujian100
