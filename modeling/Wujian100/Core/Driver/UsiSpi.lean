import Mathlib.Data.List.Basic
import Mathlib.Tactic.Ring

/-!
# Transfers with the USI's SPI

`drv_usi_spi_transfer` of `wj_usi_spi.c`, which waits for the bus or leaves the transfer to
`wj_spi_intr_tx_empty`. The bus takes a byte out of the one FIFO and puts the slave's answer into
the other; what the slave answers depends on what it was sent before. The caller's buffers may
be read and written anywhere, and it is noted where they were. A wait for the bus is long enough.

## Main definitions

* `SpiBus`: The FIFOs, what was on the bus, and where the buffers were used.
* `SpiPriv`: What the driver keeps.
* `spiTransferBlock`: The variant that waits.
* `Spi.transfer`, `Spi.intrTxEmpty`, `Spi.step`: The other one.
* `SpiPriv.getDataCount`: `drv_usi_spi_get_data_count`.
-/

namespace Wujian100

namespace Driver

/-- The FIFOs, the bytes that were on the bus, the places of `data_out` that were read and what
    was stored where in `data_in`. -/
structure SpiBus where
  txFifo : List (BitVec 8)
  rxFifo : List (BitVec 8)
  bus : List (BitVec 8)
  reads : List Nat
  stores : List (BitVec 8 × Nat)
deriving DecidableEq, Repr

/-- `USI_TX_MAX_FIFO`, and as many places in the other FIFO. -/
def usiTxMaxFifo : Nat := 16

namespace SpiBus

/-- FIFOs that were enabled. -/
def init : SpiBus := ⟨[], [], [], [], []⟩

/-- `addr->USI_TX_RX_FIFO = *ptx`. -/
def send (dataOut : Nat → BitVec 8) (s : SpiBus) (ptx : Nat) : SpiBus :=
  { s with
    txFifo :=
      if s.txFifo.length < usiTxMaxFifo then s.txFifo ++ [dataOut ptx] else s.txFifo
    reads := s.reads ++ [ptx] }

/-- `*prx = addr->USI_TX_RX_FIFO`. -/
def recv (s : SpiBus) (prx : Nat) : SpiBus :=
  { s with rxFifo := s.rxFifo.tail, stores := s.stores ++ [(s.rxFifo.headD 0, prx)] }

/-- The bus, once. -/
def exchange (slave : List (BitVec 8) → BitVec 8) (s : SpiBus) : SpiBus :=
  match s.txFifo with
  | [] => s
  | b :: rest =>
      { s with
        txFifo := rest
        rxFifo :=
          if s.rxFifo.length < usiTxMaxFifo then s.rxFifo ++ [slave s.bus] else s.rxFifo
        bus := s.bus ++ [b] }

/-- So many bytes are sent. -/
def sends (dataOut : Nat → BitVec 8) : Nat → SpiBus → Nat → SpiBus
  | 0, s, _ => s
  | n + 1, s, ptx => sends dataOut n (s.send dataOut ptx) (ptx + 1)

/-- So many bytes are received. -/
def recvs : Nat → SpiBus → Nat → SpiBus
  | 0, s, _ => s
  | n + 1, s, prx => recvs n (s.recv prx) (prx + 1)

/-- The bus, so often. -/
def exchanges (slave : List (BitVec 8) → BitVec 8) : Nat → SpiBus → SpiBus
  | 0, s => s
  | n + 1, s => exchanges slave n (s.exchange slave)

end SpiBus

/-- `transfer_stat`. -/
inductive TransferStat where
  | idle
  | send
  | rcv
  | tran
deriving DecidableEq, Repr

/-- `wj_usi_spi_priv_t`, as far as a transfer uses it. -/
structure SpiPriv where
  cbEvent : Bool
  sendNum : BitVec 32
  recvNum : BitVec 32
  sendBuf : Nat
  recvBuf : Nat
  transferNum : Nat
  clkNum : Nat
  busy : Bool
  transferStat : TransferStat
  totNum : BitVec 32
deriving DecidableEq, Repr

/-- `drv_usi_spi_get_data_count`. -/
def SpiPriv.getDataCount (p : SpiPriv) : BitVec 32 :=
  match p.transferStat with
  | .send => p.totNum - p.sendNum
  | .rcv => p.totNum - p.recvNum
  | .tran => p.totNum - (if p.recvNum > p.sendNum then p.recvNum else p.sendNum)
  | .idle => 0

/-- The number of items of a transfer. -/
def transferTotal (numOut numIn : BitVec 32) : BitVec 32 :=
  if numOut > numIn then numOut else numIn

/-! ## With waits -/

/-- The loop of `drv_usi_spi_transfer` in block mode, for so many turns at most: `tot_num`, and
    where the pointers are. -/
def spiBlockLoop (dataOut : Nat → BitVec 8) (slave : List (BitVec 8) → BitVec 8) :
    Nat → Nat → Nat → SpiBus → Option SpiBus
  | _, 0, _, s => some s
  | 0, _ + 1, _, _ => none
  | turns + 1, tot + 1, p, s =>
      let txrxNum := if tot + 1 > usiTxMaxFifo then usiTxMaxFifo else tot + 1
      let s := s.sends dataOut txrxNum p
      let s := s.exchanges slave s.txFifo.length
      let s := s.recvs txrxNum p
      spiBlockLoop dataOut slave turns (tot + 1 - txrxNum) (p + txrxNum) s

/-- `drv_usi_spi_transfer` in block mode. -/
def spiTransferBlock (dataOut : Nat → BitVec 8) (slave : List (BitVec 8) → BitVec 8) (turns : Nat)
    (p : SpiPriv) (numOut numIn : BitVec 32) : Option (SpiPriv × SpiBus) :=
  (spiBlockLoop dataOut slave turns (transferTotal numOut numIn).toNat 0 .init).map fun s =>
    ({ p with totNum := 0, transferStat := .tran, busy := false }, s)

/-! ## With interrupts -/

/-- The driver, `USI_INT_TX_EMPTY` in `USI_INTR_EN`, the bus and how often the callback was told
    `SPI_EVENT_TRANSFER_COMPLETE`. -/
structure Spi where
  priv : SpiPriv
  txEmptyEn : Bool
  bus : SpiBus
  completed : Nat

namespace Spi

/-- `drv_usi_spi_transfer` in the other mode. -/
def transfer (p : SpiPriv) (numOut numIn : BitVec 32) : Spi where
  priv :=
    { p with
      busy := true
      totNum := transferTotal numOut numIn
      transferStat := .tran
      sendBuf := 0
      recvBuf := 0
      sendNum := transferTotal numOut numIn
      recvNum := transferTotal numOut numIn
      clkNum := (transferTotal numOut numIn).toNat
      transferNum := 0 }
  txEmptyEn := true
  bus := .init
  completed := 0

/-- The first loop of `wj_spi_intr_tx_empty` in `WJENUM_SPI_TXRX`. -/
def readOut (s : Spi) : Spi :=
  { s with
    bus := s.bus.recvs s.priv.transferNum s.priv.recvBuf
    priv := { s.priv with recvBuf := s.priv.recvBuf + s.priv.transferNum, transferNum := 0 } }

/-- The second loop, of what is to be sent next. -/
def sendNext (dataOut : Nat → BitVec 8) (s : Spi) : Spi :=
  let num := if s.priv.clkNum ≥ usiTxMaxFifo then usiTxMaxFifo else s.priv.clkNum
  { s with
    bus := s.bus.sends dataOut num s.priv.sendBuf
    priv := { s.priv with
      transferNum := num
      sendBuf := s.priv.sendBuf + num
      sendNum := s.priv.sendNum - BitVec.ofNat 32 num } }

/-- `wj_spi_intr_tx_empty`. -/
def intrTxEmpty (dataOut : Nat → BitVec 8) (s : Spi) : Spi :=
  let s := s.readOut.sendNext dataOut
  let ended := s.priv.clkNum = 0
  let s :=
    if ended then
      { s with
        txEmptyEn := false
        priv := { s.priv with busy := false, sendNum := 0 }
        completed := if s.priv.cbEvent = true then s.completed + 1 else s.completed }
    else s
  if ended ∧ s.priv.cbEvent = true then s
  else { s with priv := { s.priv with clkNum := s.priv.clkNum - s.priv.transferNum } }

end Spi

/-- What happens: the bus, or the interrupt. -/
inductive SpiAct where
  | exchange
  | txEmpty
deriving DecidableEq, Repr

/-- A step. The interrupt comes when it is enabled and the FIFO has drained. -/
def Spi.step (dataOut : Nat → BitVec 8) (slave : List (BitVec 8) → BitVec 8) (s : Spi) :
    SpiAct → Option Spi
  | .exchange =>
      if s.bus.txFifo ≠ [] then some { s with bus := s.bus.exchange slave } else none
  | .txEmpty =>
      if s.txEmptyEn = true ∧ s.bus.txFifo = [] then some (s.intrTxEmpty dataOut) else none

end Driver

end Wujian100
