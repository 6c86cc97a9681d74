import Wujian100.Library.Bounded

/-!
# The Ring Buffer Library

`libs/ringbuffer/ringbuffer.c`. All counters are `uint32_t`, and so is the sum that a
position is computed from. `memcpy` to or from the buffer goes wrong where it reaches
over its end: then there is no result.

## Main definitions

* `Ringbuffer`: `ringbuffer_t`, and the buffer behind it.
* `Ringbuffer.reset`, `Ringbuffer.ringbufferIn`, `Ringbuffer.ringbufferOut`: The calls.
* `Ringbuffer.step`: One call, and what the caller sees.
-/

namespace Wujian100

namespace Libs

/-- `ringbuffer_t`. -/
structure Ringbuffer where
  buffer : Nat → UInt8
  size : UInt32
  write : UInt32
  read : UInt32
  dataLen : UInt32

namespace Ringbuffer

/-- `ringbuffer_reset`. -/
def reset (f : Ringbuffer) : Ringbuffer :=
  { f with write := 0, read := 0, dataLen := 0 }

/-- `ringbuffer_len`. -/
def len (f : Ringbuffer) : UInt32 := f.dataLen

/-- `ringbuffer_avail`. -/
def avail (f : Ringbuffer) : UInt32 := f.size - f.len

/-- `ringbuffer_is_empty`. -/
def isEmpty (f : Ringbuffer) : Bool := f.len = 0

/-- `ringbuffer_is_full`. -/
def isFull (f : Ringbuffer) : Bool := f.avail = 0

/-- `memcpy` of `n` bytes of `src`, from `s` on, to `&buffer[d]`. -/
def copyIn (f : Ringbuffer) (d : UInt32) (src : Nat → UInt8) (s n : UInt32) : Option Ringbuffer :=
  if d.toNat + n.toNat ≤ f.size.toNat then
    some { f with buffer := blit f.buffer d.toNat src s.toNat n.toNat }
  else none

/-- `memcpy` of `n` bytes from `&buffer[s]` to `dst`, from `d` on. -/
def copyOut (f : Ringbuffer) (dst : Nat → UInt8) (d s n : UInt32) : Option (Nat → UInt8) :=
  if s.toNat + n.toNat ≤ f.size.toNat then some (blit dst d.toNat f.buffer s.toNat n.toNat)
  else none

/-- The copies of `ringbuffer_in`. -/
def fill (f : Ringbuffer) (datptr : Nat → UInt8) (writelen : UInt32) : Option Ringbuffer :=
  if f.write < f.read then f.copyIn f.write datptr 0 writelen
  else
    let tmplen := f.size - f.write
    if writelen ≤ tmplen then f.copyIn f.write datptr 0 writelen
    else do
      let f ← f.copyIn f.write datptr 0 tmplen
      f.copyIn 0 datptr tmplen (writelen - tmplen)

/-- `ringbuffer_in`: how much was written. -/
def ringbufferIn (f : Ringbuffer) (datptr : Nat → UInt8) (len : UInt32) :
    Option (UInt32 × Ringbuffer) :=
  if f.isFull = true then some (0, f)
  else
    let tmplen := f.size - f.dataLen
    let writelen := if tmplen > len then len else tmplen
    (f.fill datptr writelen).map fun f =>
      (writelen, { f with write := (f.write + writelen) % f.size, dataLen := f.dataLen + writelen })

/-- The copies of `ringbuffer_out`. -/
def spill (f : Ringbuffer) (outbuf : Nat → UInt8) (readlen : UInt32) : Option (Nat → UInt8) :=
  let tmplen := f.size - f.read
  if readlen ≤ tmplen then f.copyOut outbuf 0 f.read readlen
  else do
    let outbuf ← f.copyOut outbuf 0 f.read tmplen
    f.copyOut outbuf tmplen 0 (readlen - tmplen)

/-- `ringbuffer_out`: how much was read, and the memory that `outbuf` points to unless
    it is `NULL`. -/
def ringbufferOut (f : Ringbuffer) (outbuf : Option (Nat → UInt8)) (len : UInt32) :
    Option ((UInt32 × Option (Nat → UInt8)) × Ringbuffer) :=
  if f.isEmpty = true then some ((0, outbuf), f)
  else
    let readlen := if len > f.dataLen then f.dataLen else len
    let after := { f with read := (f.read + readlen) % f.size, dataLen := f.dataLen - readlen }
    match outbuf with
    | none => some ((readlen, none), after)
    | some outbuf => (f.spill outbuf readlen).map fun outbuf => ((readlen, some outbuf), after)

end Ringbuffer

/-- A call on the buffer. -/
inductive RingbufferOp where
  | in (datptr : Nat → UInt8) (len : UInt32)
  | out (outbuf : Option (Nat → UInt8)) (len : UInt32)
  | reset

/-- One call, and what the caller sees: nothing where a copy went wrong. -/
def Ringbuffer.step (f : Ringbuffer) : RingbufferOp → Option (BoundedOut UInt8) × Ringbuffer
  | .in datptr len =>
      match f.ringbufferIn datptr len with
      | some (n, f) => (some (.moved n.toNat), f)
      | none => (none, f)
  | .out outbuf len =>
      match f.ringbufferOut outbuf len with
      | some ((n, some outbuf), f) => (some (.copied n.toNat outbuf), f)
      | some ((n, none), f) => (some (.moved n.toNat), f)
      | none => (none, f)
  | .reset => (some .cleared, f.reset)

end Libs

end Wujian100
