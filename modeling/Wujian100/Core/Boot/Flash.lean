import Wujian100.Core.Bytes

/-!
# Reading the Serial Flash

`spi_flash_read` and the part of the USI SPI driver it uses. The two flash
chips share the bus; a chip takes part in a transfer while its NSS pin is low.

A chip is a small state machine. Selecting it starts a new command; after the
opcode `03` and three address bytes it streams its content, one byte for each
byte shifted, until it is deselected. The driver's receive loop shifts zeros
out, at most `USI_RX_MAX_FIFO` at a time, and stores what comes back through
`recv_buf`.

The driver's waiting loops are left out: the shift register is assumed to
finish before their timeouts, so each of them ends with the byte that was
shifted in.

`Board` holds what these functions change. `written` is a record of the
addresses `recv_buf` stored to, in order; the driver does not keep it.

## Main definitions

* `Chip`, `Chip.shift`: A flash chip and one byte on its wires.
* `Board`: The chips, the memory and the driver's receive pointer.
* `drvUsiSpiSend`, `drvUsiSpiReceive`: The two transfers of the driver.
* `spiFlashRead`: `spi_flash_read`.
-/

namespace Wujian100

namespace Boot

/-- What each chip holds. Addresses have 24 bits. -/
abbrev Flash := Bool → Nat → UInt8

/-- A flash chip: deselected, collecting a command, or streaming. -/
inductive Chip where
  | standby
  | command (bytes : List UInt8)
  | reading (addr : Nat)
deriving DecidableEq, Repr

/-- The chip's state once a four-byte command is complete. Only the read
    opcode does anything. -/
def Chip.decode : List UInt8 → Chip
  | [op, a2, a1, a0] =>
      if op = 0x03 then .reading (a2.toNat * 2 ^ 16 + a1.toNat * 2 ^ 8 + a0.toNat)
      else .command [op, a2, a1, a0]
  | bytes => .command bytes

/-- One byte shifted through the chip: what it drives, and its next state. -/
def Chip.shift (content : Nat → UInt8) (b : UInt8) : Chip → UInt8 × Chip
  | .standby => (0xff, .standby)
  | .command bytes => (0xff, Chip.decode (bytes ++ [b]))
  | .reading addr => (content addr, .reading ((addr + 1) % 2 ^ 24))

/-- The bus, the memory, and `recv_buf` of the driver. -/
structure Board where
  chip : Bool → Chip
  mem : Nat → UInt8
  recvBuf : Nat
  written : List Nat

/-- Driving an NSS pin: low starts a command, high ends it. -/
def Board.csiGpioPinWrite (s : Board) (cs level : Bool) : Board :=
  { s with chip := fun k => if k = cs then (if level then .standby else .command []) else s.chip k }

/-- One byte on the bus. Both chips see it; the one that is selected answers. -/
def Board.exchange (flash : Flash) (b : UInt8) (s : Board) : UInt8 × Board :=
  let out : Bool → UInt8 × Chip := fun k => (s.chip k).shift (flash k) b
  let miso := if s.chip true = .standby then (out false).1 else (out true).1
  (miso, { s with chip := fun k => (out k).2 })

/-- `drv_usi_spi_send`: the received bytes are dropped. -/
def drvUsiSpiSend (flash : Flash) (data : List UInt8) (s : Board) : Board :=
  data.foldl (fun t b => (t.exchange flash b).2) s

/-- `*spi_priv->recv_buf++ = addr->USI_TX_RX_FIFO`, for one shifted zero. -/
def Board.receiveByte (flash : Flash) (s : Board) : Board :=
  let r := s.exchange flash 0
  { r.2 with
    mem := fun a => if a = s.recvBuf then r.1 else s.mem a
    recvBuf := s.recvBuf + 1
    written := s.written ++ [s.recvBuf] }

/-- The inner loop of `drv_usi_spi_receive`, over `once_len` bytes. -/
def receiveOnce (flash : Flash) : Nat → Board → Board
  | 0, s => s
  | n + 1, s => receiveOnce flash n (s.receiveByte flash)

/-- `USI_RX_MAX_FIFO`. -/
def usiRxMaxFifo : Nat := 0x10

/-- `once_len`: as much as the FIFO takes. -/
def onceLen (recvNum : Nat) : Nat :=
  if recvNum ≥ usiRxMaxFifo then usiRxMaxFifo else recvNum

theorem onceLen_pos {recvNum : Nat} (h : recvNum ≠ 0) : 0 < onceLen recvNum := by
  unfold onceLen usiRxMaxFifo
  split
  · omega
  · omega

theorem onceLen_le (recvNum : Nat) : onceLen recvNum ≤ recvNum := by
  unfold onceLen
  split
  · assumption
  · exact Nat.le_refl _

/-- The outer loop of `drv_usi_spi_receive`, while `recv_num` is not zero. -/
def receiveLoop (flash : Flash) (recvNum : Nat) (s : Board) : Board :=
  if recvNum = 0 then s
  else receiveLoop flash (recvNum - onceLen recvNum) (receiveOnce flash (onceLen recvNum) s)
termination_by recvNum
decreasing_by
  have hpos := onceLen_pos ‹recvNum ≠ 0›
  omega

/-- `drv_usi_spi_receive`. A transfer of no bytes is a parameter error. -/
def drvUsiSpiReceive (flash : Flash) (data num : Nat) (s : Board) : Board :=
  if data = 0 ∨ num = 0 then s
  else receiveLoop flash num { s with recvBuf := data }

/-- `spi_flash_read`: the read command, then `len` bytes to `data`. -/
def spiFlashRead (flash : Flash) (flashCs : Bool) (addr data len : Nat) (s : Board) : Board :=
  let command : List UInt8 :=
    [0x03, UInt8.ofNat (addr >>> 16), UInt8.ofNat (addr >>> 8), UInt8.ofNat addr]
  let s := s.csiGpioPinWrite flashCs false
  let s := drvUsiSpiSend flash command s
  let s := drvUsiSpiReceive flash data len s
  s.csiGpioPinWrite flashCs true

end Boot

end Wujian100
