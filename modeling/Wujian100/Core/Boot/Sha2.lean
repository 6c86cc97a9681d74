import Wujian100.Core.Bytes
import Wujian100.Library.Padding
import Wujian100.Library.Ring

/-!
# Driving the SHA-2 Accelerator

`sha2_calc_data` and the functions it streams a message with. The driver does
not hash: it cuts the message into blocks, appends the padding in a scratch
buffer, and writes each block to the accelerator's data-in registers.

`Drv` holds the scratch buffer and the accesses made to the registers so far,
in order. A loop that polls a status bit is one access; it is assumed to end.
The registers `DATA_O_LO` and `DATA_O_HI` are read but what they hold is the
accelerator's matter and stays out.

A block of SHA-224 and SHA-256 is sixteen 32-bit words, one for each pair of
writes to `LO` and `HI`. SHA-384 and SHA-512 take 64-bit words, the half with
the lower address through `HI`.

`taken` is the accelerator's side: what it is given by the accesses.

## Main definitions

* `Mode`: `sha2_mode_t`.
* `Access`: One access to the accelerator's registers.
* `sha2WriteBlockFill1`, `sha2WriteBlockFill2a`, `sha2WriteBlockFill2b`,
  `sha2WriteBlockFill3`, `sha2WriteBlock`: The functions that write one block.
* `sha2CalcData`: `sha2_calc_data`.
* `taken`: What the data-in registers are given, and under which LAST bit.
* `Mode.padded`: The message as FIPS 180-4 pads it.
-/

namespace Wujian100

namespace Sha2

/-- `sha2_mode_t`. -/
inductive Mode where
  | sha224
  | sha256
  | sha384
  | sha512
deriving DecidableEq, Repr

/-- The values of the enumeration. -/
def Mode.code : Mode → Nat
  | .sha224 => 0
  | .sha256 => 1
  | .sha384 => 2
  | .sha512 => 3

/-- The bytes of a block. -/
def Mode.blockSize : Mode → Nat
  | .sha224 | .sha256 => 64
  | .sha384 | .sha512 => 128

/-- The bytes of the length field at the end of the last block. -/
def Mode.lengthSize : Mode → Nat
  | .sha224 | .sha256 => 8
  | .sha384 | .sha512 => 16

/-- The words of the digest, `count` of `sha2_read_result`. -/
def Mode.count : Mode → Nat
  | .sha224 => 7
  | .sha256 => 8
  | .sha384 => 12
  | .sha512 => 16

/-- `SHA2_LAST_BIT`. -/
def lastBit : Nat := 1

/-- `SHA2_READ_BIT`. -/
def readBit : Nat := 8

/-- An access to the accelerator. The polling loops are `waitNext` and
    `waitDone`; `readLo` and `readHi` store to `result` at an index. -/
inductive Access where
  | ctrl1 (v : Nat)
  | waitNext
  | waitDone
  | dataLo (w : Nat)
  | dataHi (w : Nat)
  | readLo (i : Nat)
  | readHi (i : Nat)
deriving DecidableEq, Repr

/-- The scratch buffer, and the accesses made so far. -/
structure Drv where
  temp : Nat → UInt8
  log : List Access

/-- One more access. -/
def Drv.access (d : Drv) (a : Access) : Drv := { d with log := d.log ++ [a] }

/-- `*((uint32_t *)mem + i)`. -/
def word (mem : Nat → UInt8) (i : Nat) : Nat := leValue (window mem (4 * i) 4)

/-- The two register writes of an iteration that writes a block. -/
def dataIn (mode : Mode) (mem : Nat → UInt8) (i : Nat) : List Access :=
  match mode with
  | .sha224 | .sha256 => [.dataLo (word mem i), .dataHi 0]
  | .sha384 | .sha512 => [.dataLo (word mem (i * 2 + 1)), .dataHi (word mem (i * 2))]

/-- The loop that writes a block. -/
def writeLoop (mode : Mode) (mem : Nat → UInt8) (d : Drv) : Drv :=
  { d with log := d.log ++ (List.range 16).flatMap (dataIn mode mem) }

/-- `memset(temp, 0x00, 128)`. -/
def cleared (temp : Nat → UInt8) : Nat → UInt8 := blit temp 0 (fun _ => 0) 0 128

/-- `n_bytes << 3`. -/
def bitLength (nBytes : Nat) : Nat := (nBytes <<< 3) % 2 ^ 32

/-- The four stores of `n_bytes << 3` that end a block. -/
def storeLength (mode : Mode) (nBytes : Nat) (temp : Nat → UInt8) : Nat → UInt8 :=
  let top := mode.blockSize - 1
  let temp := Function.update temp (top - 0) (UInt8.ofNat (bitLength nBytes))
  let temp := Function.update temp (top - 1) (UInt8.ofNat (bitLength nBytes >>> 8))
  let temp := Function.update temp (top - 2) (UInt8.ofNat (bitLength nBytes >>> 16))
  Function.update temp (top - 3) (UInt8.ofNat (bitLength nBytes >>> 24))

/-- `sha2_write_block_fill_1`: the end of the message, the mark and the length. -/
def sha2WriteBlockFill1 (mode : Mode) (nBytes : Nat) (block : Nat → UInt8) (d : Drv) : Drv :=
  let d := d.access .waitNext
  let temp := cleared d.temp
  let remain := nBytes % mode.blockSize
  let temp := blit temp 0 block 0 remain
  let temp := Function.update temp remain 0x80
  let temp := storeLength mode nBytes temp
  writeLoop mode temp { d with temp }

/-- `sha2_write_block_fill_2a`: the end of the message and the mark. -/
def sha2WriteBlockFill2a (mode : Mode) (nBytes : Nat) (block : Nat → UInt8) (d : Drv) : Drv :=
  let d := d.access .waitNext
  let temp := cleared d.temp
  let remain := nBytes % mode.blockSize
  let temp := blit temp 0 block 0 remain
  let temp := Function.update temp remain 0x80
  writeLoop mode temp { d with temp }

/-- `sha2_write_block_fill_2b`: the length. -/
def sha2WriteBlockFill2b (mode : Mode) (nBytes : Nat) (d : Drv) : Drv :=
  let d := d.access .waitNext
  let temp := cleared d.temp
  let temp := storeLength mode nBytes temp
  writeLoop mode temp { d with temp }

/-- `sha2_write_block_fill_3`: the mark and the length. -/
def sha2WriteBlockFill3 (mode : Mode) (nBytes : Nat) (d : Drv) : Drv :=
  let d := d.access .waitNext
  let temp := cleared d.temp
  let temp := Function.update temp 0 0x80
  let temp := storeLength mode nBytes temp
  writeLoop mode temp { d with temp }

/-- `sha2_write_block`: a block of the message. -/
def sha2WriteBlock (mode : Mode) (block : Nat → UInt8) (d : Drv) : Drv :=
  writeLoop mode block (d.access .waitNext)

/-- `sha2_read_result`. -/
def sha2ReadResult (mode : Mode) (d : Drv) : Drv :=
  let d := d.access .waitDone
  let read := Access.ctrl1 (readBit ||| mode.code <<< 1)
  let d := { d with
    log := d.log ++ (List.range mode.count).flatMap fun i =>
      [read, .readLo (i * 2), .readHi (i * 2 + 1)] }
  { d with log := d.log ++ List.replicate (16 - mode.count) read }

/-- The loop of `sha2_calc_data`. Every turn but the last consumes a block. -/
def calcLoop (mode : Mode) (block : Nat → UInt8) (nBytes cur rem : Nat) (d : Drv) : Drv :=
  let more := Access.ctrl1 (mode.code <<< 1)
  let last := Access.ctrl1 (mode.code <<< 1 ||| lastBit)
  let rest := fun i => block (cur + i)
  if rem = 0 then d
  else if rem ≤ mode.blockSize - mode.lengthSize - 1 then
    sha2WriteBlockFill1 mode nBytes rest (d.access last)
  else if rem ≤ mode.blockSize - 1 then
    let d := sha2WriteBlockFill2a mode nBytes rest (d.access more)
    sha2WriteBlockFill2b mode nBytes (d.access last)
  else if rem = mode.blockSize then
    let d := sha2WriteBlock mode rest (d.access more)
    sha2WriteBlockFill3 mode nBytes (d.access last)
  else
    let d := sha2WriteBlock mode rest (d.access more)
    calcLoop mode block nBytes (cur + mode.blockSize) (rem - mode.blockSize) d
termination_by rem
decreasing_by
  have hpos : 0 < mode.blockSize := by
    cases mode <;> simp only [Mode.blockSize] <;> omega
  omega

/-- `sha2_calc_data`, with the scratch buffer as `malloc` hands it out. -/
def sha2CalcData (mode : Mode) (block : Nat → UInt8) (nBytes : Nat) (temp : Nat → UInt8) :
    List Access :=
  (sha2ReadResult mode (calcLoop mode block nBytes 0 nBytes { temp, log := [] })).log

/-! ## The accelerator's side -/

/-- The bytes of the word in the data-in registers, in memory order. -/
def Mode.wordBytes : Mode → Nat → Nat → List UInt8
  | .sha224, _, lo | .sha256, _, lo => leBytes 4 lo
  | .sha384, hi, lo | .sha512, hi, lo => leBytes 4 hi ++ leBytes 4 lo

/-- What the accesses give the accelerator: a word with each write to `HI`, and
    the LAST bit that `CTRL_1` holds by then. -/
def taken (mode : Mode) : Bool → Nat → List Access → List (Bool × List UInt8)
  | _, _, [] => []
  | _, lo, .ctrl1 v :: as => taken mode (v.testBit 0) lo as
  | last, _, .dataLo w :: as => taken mode last w as
  | last, lo, .dataHi w :: as => (last, mode.wordBytes w lo) :: taken mode last lo as
  | last, lo, _ :: as => taken mode last lo as

/-- The message as FIPS 180-4 pads it: `80`, zeros, and the big-endian length in
    bits. -/
def Mode.padded (mode : Mode) (msg : List UInt8) : List UInt8 :=
  Wujian100.padded mode.blockSize 0x80 0 (leBytes mode.lengthSize (8 * msg.length)).reverse msg

/-- A block in the words of the accelerator, all under one LAST bit. -/
def Mode.words (mode : Mode) (b : Bool × List UInt8) : List (Bool × List UInt8) :=
  (blocksOf (mode.blockSize / 16) b.2).map fun w => (b.1, w)

end Sha2

end Wujian100
