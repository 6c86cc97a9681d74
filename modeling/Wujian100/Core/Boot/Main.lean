import Wujian100.Core.Boot.Flash
import Wujian100.Core.Boot.Verify

/-!
# The Boot ROM's Main Function

`main` of the boot ROM as a state machine, one state for each place where it
reads the flash, decides, or shows a pattern.

A failing branch of `main` does not return. It calls `display_show` with a
negative count, which never comes back, and otherwise control runs on into the
next stage: past an invalid size to the verification, past a failed
verification to the entry. The states keep those edges: a call of
`display_show` carries the place it returns to, and it is the `while (1)` of
`displayForever` alone that keeps the machine from going there.

The images are loaded to the fixed addresses of the linker script and the four
locals the flash is read into live on the stack, at addresses the compiler
chose. `Frame` is such a choice: the locals lie inside `SRAM-APP0` and do not
overlap.

`verified` records each call of `firmware_verify` with the bytes it was given
and its answer.

## Main definitions

* `Frame`: Where the locals of `main` live.
* `Env`: The pins, the flash chips and the engines of one run.
* `Pc`, `State`, `step`: The machine.
* `run`: A number of steps from the reset state.
-/

namespace Wujian100

namespace Boot

def firmwareSizeApp0Max : Nat := 64 * 1024
def firmwareSizeApp1Max : Nat := 64 * 1024

def firmwareLoadApp0Addr : Nat := 0x10000000
def firmwareDataApp0Addr : Nat := 0x00000000
def firmwareSizeApp0Addr : Nat := 0x000FFEFC
def firmwareSignApp0Addr : Nat := 0x000FFF00

def firmwareLoadApp1Addr : Nat := 0x20000000
def firmwareDataApp1Addr : Nat := 0x00100000
def firmwareSizeApp1Addr : Nat := 0x001FFEFC
def firmwareSignApp1Addr : Nat := 0x001FFF00

/-- Addresses of `firmware_app0_size`, `firmware_app1_size`,
    `firmware_app0_sign` and `firmware_app1_sign` in the frame of `main`. -/
structure Frame where
  size0 : Nat
  size1 : Nat
  sign0 : Nat
  sign1 : Nat
  low : 0x20010000 ≤ size0 ∧ 0x20010000 ≤ size1 ∧ 0x20010000 ≤ sign0 ∧ 0x20010000 ≤ sign1
  high : size0 + 4 ≤ 0x20020000 ∧ size1 + 4 ≤ 0x20020000 ∧ sign0 + 256 ≤ 0x20020000 ∧
    sign1 + 256 ≤ 0x20020000
  sizes : size0 + 4 ≤ size1 ∨ size1 + 4 ≤ size0
  signs : sign0 + 256 ≤ sign1 ∨ sign1 + 256 ≤ sign0
  size0_sign0 : size0 + 4 ≤ sign0 ∨ sign0 + 256 ≤ size0
  size0_sign1 : size0 + 4 ≤ sign1 ∨ sign1 + 256 ≤ size0
  size1_sign0 : size1 + 4 ≤ sign0 ∨ sign0 + 256 ≤ size1
  size1_sign1 : size1 + 4 ≤ sign1 ∨ sign1 + 256 ≤ size1

/-- One power-up: the two mode pins, the chips, and the engines. -/
structure Env where
  frame : Frame
  flash : Flash
  modeFlash : Bool
  modeCrypto : Bool
  crypto : Crypto

/-- The patterns `display_show` is called with. -/
inductive Pattern where
  | pass
  | fail
  | none
deriving DecidableEq, Repr

/-- Where `main` is. `display` is a call of `display_show` about to be made,
    with its three arguments and the place it returns to. -/
inductive Pc where
  | start
  | loadSize0
  | loadSign0
  | checkSize0
  | verify0
  | loadSize1
  | loadSign1
  | checkSize1
  | verify1
  | bootFrom
  | entry
  | display (ms : Nat) (count : Int) (pattern : Pattern) (ret : Pc)
  | displayForever (ms : Nat)
  | displayLoop (ms : Nat) (i : Int) (ret : Pc)
deriving DecidableEq, Repr

/-- One call of `firmware_verify`: which image, its bytes, its signature, and
    the answer. -/
structure Verdict where
  app : Bool
  data : List UInt8
  sign : List UInt8
  ok : Bool
deriving DecidableEq

structure State where
  pc : Pc
  board : Board
  verified : List Verdict

/-- `n` bytes of memory from `a` up. -/
def memBytes (mem : Nat → UInt8) (a n : Nat) : List UInt8 :=
  (List.range n).map (fun i => mem (a + i))

/-- A `uint32_t` in memory. -/
def memWord (mem : Nat → UInt8) (a : Nat) : Nat := leValue (memBytes mem a 4)

/-- The initializers of `main`: the two sizes and the two signatures are
    zeroed. -/
def Frame.zero (f : Frame) (mem : Nat → UInt8) : Nat → UInt8 := fun a =>
  if (f.size0 ≤ a ∧ a < f.size0 + 4) ∨ (f.size1 ≤ a ∧ a < f.size1 + 4) ∨
      (f.sign0 ≤ a ∧ a < f.sign0 + 256) ∨ (f.sign1 ≤ a ∧ a < f.sign1 + 256) then 0
  else mem a

/-- One call of `spi_flash_read` by `main`. -/
def State.load (env : Env) (s : State) (addr data len : Nat) (next : Pc) : State :=
  { s with
    board := spiFlashRead env.flash env.modeFlash addr data len s.board
    pc := next }

/-- The size check of one image, and the load behind it. -/
def State.loadData (env : Env) (s : State) (size max addr data : Nat) (next : Pc) : State :=
  if 0 < size ∧ size ≤ max then s.load env addr data size next
  else { s with pc := .display 500 (-1) .none next }

/-- One call of `firmware_verify`, with the branch on its answer. -/
def State.verify (env : Env) (s : State) (app : Bool) (data size sign : Nat)
    (passed failed : Pc) : State :=
  let dataBytes := memBytes s.board.mem data size
  let signBytes := memBytes s.board.mem sign 256
  let ok := firmwareVerify env.crypto env.modeCrypto dataBytes signBytes 256
  { s with
    verified := s.verified ++ [⟨app, dataBytes, signBytes, ok⟩]
    pc := if ok then passed else failed }

/-- One step of `main`. -/
def step (env : Env) (s : State) : State :=
  let f := env.frame
  match s.pc with
  | .start =>
      { s with board := { s.board with mem := f.zero s.board.mem }, pc := .loadSize0 }
  | .loadSize0 => s.load env firmwareSizeApp0Addr f.size0 4 .loadSign0
  | .loadSign0 => s.load env firmwareSignApp0Addr f.sign0 256 .checkSize0
  | .checkSize0 =>
      s.loadData env (memWord s.board.mem f.size0) firmwareSizeApp0Max firmwareDataApp0Addr
        firmwareLoadApp0Addr .verify0
  | .verify0 =>
      s.verify env false firmwareLoadApp0Addr (memWord s.board.mem f.size0) f.sign0 .loadSize1
        (.display 250 (-1) .fail .bootFrom)
  | .loadSize1 => s.load env firmwareSizeApp1Addr f.size1 4 .loadSign1
  | .loadSign1 => s.load env firmwareSignApp1Addr f.sign1 256 .checkSize1
  | .checkSize1 =>
      s.loadData env (memWord s.board.mem f.size1) firmwareSizeApp1Max firmwareDataApp1Addr
        firmwareLoadApp1Addr .verify1
  | .verify1 =>
      s.verify env true firmwareLoadApp1Addr (memWord s.board.mem f.size1) f.sign1
        (.display 50 20 .pass .bootFrom) (.display 250 (-1) .fail .bootFrom)
  | .bootFrom => { s with pc := .entry }
  -- `firmware_entry()` hands the core over to the loaded image.
  | .entry => s
  | .display ms count _ ret =>
      if count < 0 then { s with pc := .displayForever ms }
      else { s with pc := .displayLoop ms count ret }
  -- `while (1)`: toggle, wait, and start again.
  | .displayForever ms => { s with pc := .displayForever ms }
  | .displayLoop ms i ret =>
      if i > 0 then { s with pc := .displayLoop ms (i - 1) ret } else { s with pc := ret }

/-- Reset: both chips deselected, any memory. -/
def init (mem : Nat → UInt8) : State :=
  { pc := .start
    board := { chip := fun _ => .standby, mem := mem, recvBuf := 0, written := [] }
    verified := [] }

/-- `n` steps from reset. -/
def run (env : Env) (mem : Nat → UInt8) (n : Nat) : State := (step env)^[n] (init mem)

end Boot

end Wujian100
