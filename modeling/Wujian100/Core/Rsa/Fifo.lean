import Mathlib.Tactic.Ring

/-!
# The Synchronous FIFO

`ahb_fifo` in front of and behind the accelerator. The pointers have one bit
more than an address, the count of items is kept beside them, and the two next
pointers are registers of their own.

The read side shows the word at the head; it is taken when `rd_rdy` is high and
the FIFO is not empty.

## Main definitions

* `Fifo`: The registers and the memory.
* `Fifo.full`, `Fifo.empty`, `Fifo.rdDout`: The outputs.
* `Fifo.step`: One clock, with `clr` low as it is in the accelerator.
* `Fifo.tick`: One clock with any inputs.
-/

namespace Wujian100

namespace Rsa

/-- The registers of `ahb_fifo`, for words of any type. -/
structure Fifo (α : Type) where
  fifoHead : Nat
  fifoTail : Nat
  nextHead : Nat
  nextTail : Nat
  rdCnt : Nat
  mem : Nat → α

namespace Fifo

variable {α : Type}

/-- After `rst`. The memory holds anything. -/
def reset (mem : Nat → α) : Fifo α where
  fifoHead := 0
  fifoTail := 0
  nextHead := 1
  nextTail := 1
  rdCnt := 0
  mem := mem

section Outputs

variable (faw : Nat) (s : Fifo α)

def full : Bool := decide (s.rdCnt ≥ 2 ^ faw)

def empty : Bool := decide (s.fifoHead = s.fifoTail)

def wrRdy : Bool := !s.full faw

def rdVld : Bool := !s.empty

def rdDout : α := s.mem (s.fifoHead % 2 ^ faw)

def wrCnt : Nat := 2 ^ faw - s.rdCnt

end Outputs

/-- One clock, `clr` being low. -/
def step (faw : Nat) (s : Fifo α) (wrVld : Bool) (wrDin : α) (rdRdy : Bool) : Fifo α :=
  let write := !s.full faw && wrVld
  let read := !s.empty && rdRdy
  { fifoHead := if read then s.nextHead else s.fifoHead
    nextHead := if read then (s.nextHead + 1) % 2 ^ (faw + 1) else s.nextHead
    fifoTail := if write then s.nextTail else s.fifoTail
    nextTail := if write then (s.nextTail + 1) % 2 ^ (faw + 1) else s.nextTail
    rdCnt :=
      if wrVld && !s.full faw && (!rdRdy || (rdRdy && s.empty)) then
        (s.rdCnt + 1) % 2 ^ (faw + 1)
      else if rdRdy && !s.empty && (!wrVld || (wrVld && s.full faw)) then
        (s.rdCnt + 2 ^ (faw + 1) - 1) % 2 ^ (faw + 1)
      else s.rdCnt
    mem := if write then fun a => if a = s.fifoTail % 2 ^ faw then wrDin else s.mem a else s.mem }

/-- The inputs. -/
structure In (α : Type) where
  clr : Bool
  wrVld : Bool
  wrDin : α
  rdRdy : Bool
deriving DecidableEq, Repr

/-- One clock. `clr` is asked for before anything else, but not where the memory is
    written. -/
def tick (faw : Nat) (s : Fifo α) (i : In α) : Fifo α :=
  let s' := s.step faw i.wrVld i.wrDin i.rdRdy
  if i.clr then { fifoHead := 0, fifoTail := 0, nextHead := 1, nextTail := 1, rdCnt := 0, mem := s'.mem }
  else s'

end Fifo

end Rsa

end Wujian100
