import Mathlib.Data.List.Basic
import Mathlib.Tactic.Ring

/-!
# Receiving with the USI's USART

`wj_usi_usart.c`, what of it receives with interrupts. The FIFO has sixteen places and its level
has a field of five bits; a byte that finds no place is none of those received. Addresses in the
caller's buffer are offsets.

## Main definitions

* `UsartRx`: What the driver keeps for the receiver, and its FIFO.
* `UsartRx.receive`: A request.
* `UsartRx.recvData`, `UsartRx.charTimeout`, `UsartRx.irqhandler`: The interrupts.
* `UsartRx.step`: A byte arrives, or an interrupt.
-/

namespace Wujian100

namespace Driver

/-- What a callback is told about the receiver. -/
inductive UsartEvent where
  | receiveComplete
  | received
deriving DecidableEq, Repr

/-- `wj_usi_usart_priv_t`, as far as it is about receiving, with whether there is a callback; the
    FIFO, what was stored where, and what the callback was told. -/
structure UsartRx where
  rxTotalNum : Nat
  rxBuf : Option Nat
  rxCnt : Nat
  rxBusy : Bool
  lastRxNum : Nat
  cbEvent : Bool
  fifo : List (BitVec 8)
  stores : List (BitVec 8 × Nat)
  events : List UsartEvent
deriving DecidableEq, Repr

/-- `USI_RX_MAX_FIFO`. -/
def usiRxMaxFifo : Nat := 16

/-- `USI_FIFO_STA_RX_NUM`. -/
def fifoStaRxNum (s : UsartRx) : Nat := s.fifo.length % 2 ^ 5

namespace UsartRx

/-- `drv_usi_usart_receive`. -/
def receive (s : UsartRx) (num : Nat) : UsartRx :=
  { s with rxBuf := some 0, rxTotalNum := num, rxCnt := 0, rxBusy := true, lastRxNum := 0 }

/-- The callback is called, if there is one. -/
def tell (s : UsartRx) (e : UsartEvent) : UsartRx :=
  if s.cbEvent = true then { s with events := s.events ++ [e] } else s

/-- One turn of the loop that reads the FIFO. -/
def readOne (s : UsartRx) : UsartRx :=
  { s with
    stores := s.stores ++ [(s.fifo.headD 0, s.rxBuf.getD 0)]
    fifo := s.fifo.tail
    rxCnt := (s.rxCnt + 1) % 2 ^ 32
    rxBuf := s.rxBuf.map (· + 1) }

/-- So many turns. -/
def readFifo : Nat → UsartRx → UsartRx
  | 0, s => s
  | n + 1, s => readFifo n s.readOne

/-- The end of a request. -/
def complete (s : UsartRx) : UsartRx :=
  tell { s with
    lastRxNum := s.rxTotalNum, rxCnt := 0, rxBuf := none, rxBusy := false, rxTotalNum := 0 }
      .receiveComplete

/-- `ck_usart_intr_recv_data`. It reads four bits of the level. Without a request it calls the
    callback without a look at whether there is one. -/
def recvData (s : UsartRx) : Option UsartRx :=
  if s.rxTotalNum = 0 ∨ s.rxBuf = none then
    if s.cbEvent = true then some (s.tell .received) else none
  else
    let rxfifoNum := fifoStaRxNum s % 2 ^ 4
    let rxdataNum := if rxfifoNum > s.rxTotalNum then s.rxTotalNum else rxfifoNum
    let s := readFifo rxdataNum s
    some (if s.rxCnt ≥ s.rxTotalNum then s.complete else s)

/-- `ck_usart_intr_char_timeout`. Without a callback the FIFO is emptied. -/
def charTimeout (s : UsartRx) : Option UsartRx :=
  if s.rxTotalNum ≠ 0 ∧ s.rxBuf ≠ none then s.recvData
  else some (if s.cbEvent = true then s.tell .received else { s with fifo := [] })

/-- `wj_usi_usart_irqhandler`, with these of `USI_INT_RX_THOLD` and `USI_INT_UART_STOP`. -/
def irqhandler (s : UsartRx) (rxThold uartStop : Bool) : Option UsartRx :=
  (if rxThold = true then s.recvData else some s).bind fun s =>
    if uartStop = true ∧ fifoStaRxNum s > 0 then s.charTimeout else some s

end UsartRx

/-- What happens to the receiver. -/
inductive UsartAct where
  | arrive (b : BitVec 8)
  | irq (rxThold uartStop : Bool)
deriving DecidableEq, Repr

/-- A step. A byte arrives where there is a place for it. -/
def UsartRx.step (s : UsartRx) : UsartAct → Option UsartRx
  | .arrive b =>
      if s.fifo.length < usiRxMaxFifo then some { s with fifo := s.fifo ++ [b] } else none
  | .irq rxThold uartStop => s.irqhandler rxThold uartStop

end Driver

end Wujian100
