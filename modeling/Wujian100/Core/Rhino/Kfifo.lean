import Wujian100.Library.Bounded

/-!
# The Byte FIFO

`k_fifo.c`. `in` and `out` run freely and are reduced to positions with `mask`, so
every counter is a `UInt32` and wraps as the source's does. The buffer and the memory
of callers are functions of the offset.

## Main definitions

* `Kfifo`: `struct k_fifo`, and the buffer behind it.
* `Kfifo.init`, `Kfifo.fifoIn`, `Kfifo.fifoOut`, `Kfifo.fifoOutPeek`, `Kfifo.fifoOutAll`:
  The calls.
* `Kfifo.step`: One call, and what the caller sees.
-/

namespace Wujian100

namespace Rhino

/-- `struct k_fifo`. -/
structure Kfifo where
  in_ : UInt32
  out : UInt32
  mask : UInt32
  data : Nat → UInt8
  freeBytes : UInt32
  size : UInt32

/-- `fifo_min`. -/
def fifoMin (x y : UInt32) : UInt32 := if x > y then y else x

/-- `is_power_of_2`. -/
def isPowerOf2 (n : UInt32) : Bool := n ≠ 0 && (n &&& (n - 1)) = 0

namespace Kfifo

/-- `fifo_unused`. -/
def fifoUnused (f : Kfifo) : UInt32 := (f.mask + 1) - (f.in_ - f.out)

/-- `fifo_init`: 0 where the size is one it takes. -/
def init (f : Kfifo) (buffer : Nat → UInt8) (size : UInt32) : Nat × Kfifo :=
  if isPowerOf2 size = false then (1, f)
  else
    let f := { f with in_ := 0, out := 0, data := buffer }
    if size < 2 then (1, { f with mask := 0 })
    else (0, { f with mask := size - 1, freeBytes := size, size := size })

/-- `fifo_copy_in`. -/
def fifoCopyIn (f : Kfifo) (src : Nat → UInt8) (len off : UInt32) : Kfifo :=
  let size := f.mask + 1
  let off := off &&& f.mask
  let l := fifoMin len (size - off)
  let data := blit f.data off.toNat src 0 l.toNat
  { f with data := blit data 0 src l.toNat (len - l).toNat }

/-- `fifo_in`. -/
def fifoIn (f : Kfifo) (buf : Nat → UInt8) (len : UInt32) : UInt32 × Kfifo :=
  let l := f.fifoUnused
  let len := if len > l then l else len
  let f := f.fifoCopyIn buf len f.in_
  (len, { f with in_ := f.in_ + len, freeBytes := f.freeBytes - len })

/-- `kfifo_copy_out`: the memory copied to. -/
def kfifoCopyOut (f : Kfifo) (dst : Nat → UInt8) (len off : UInt32) : Nat → UInt8 :=
  let size := f.mask + 1
  let off := off &&& f.mask
  let l := fifoMin len (size - off)
  let dst := blit dst 0 f.data off.toNat l.toNat
  blit dst l.toNat f.data 0 (len - l).toNat

/-- `internal_fifo_out_peek`: the length, and the memory copied to. -/
def internalFifoOutPeek (f : Kfifo) (buf : Nat → UInt8) (len : UInt32) :
    UInt32 × (Nat → UInt8) :=
  let l := f.in_ - f.out
  let len := if len > l then l else len
  (len, f.kfifoCopyOut buf len f.out)

/-- `fifo_out_peek`. -/
def fifoOutPeek (f : Kfifo) (buf : Nat → UInt8) (len : UInt32) : UInt32 × (Nat → UInt8) :=
  f.internalFifoOutPeek buf len

/-- `fifo_out`. -/
def fifoOut (f : Kfifo) (buf : Nat → UInt8) (len : UInt32) : (UInt32 × (Nat → UInt8)) × Kfifo :=
  let r := f.internalFifoOutPeek buf len
  (r, { f with out := f.out + r.1, freeBytes := f.freeBytes + r.1 })

/-- `fifo_out_all`. -/
def fifoOutAll (f : Kfifo) (buf : Nat → UInt8) : (UInt32 × (Nat → UInt8)) × Kfifo :=
  let len := f.size - f.freeBytes
  if len = 0 then ((0, buf), f)
  else
    let r := f.internalFifoOutPeek buf len
    (r, { f with out := f.out + r.1, freeBytes := f.freeBytes + r.1 })

end Kfifo

/-- A call on the FIFO. -/
inductive KfifoOp where
  | in (buf : Nat → UInt8) (len : UInt32)
  | out (buf : Nat → UInt8) (len : UInt32)
  | outPeek (buf : Nat → UInt8) (len : UInt32)
  | outAll (buf : Nat → UInt8)

/-- One call. -/
def Kfifo.step (f : Kfifo) : KfifoOp → BoundedOut UInt8 × Kfifo
  | .in buf len =>
      let r := f.fifoIn buf len
      (.moved r.1.toNat, r.2)
  | .out buf len =>
      let r := f.fifoOut buf len
      (.copied r.1.1.toNat r.1.2, r.2)
  | .outPeek buf len =>
      let r := f.fifoOutPeek buf len
      (.copied r.1.toNat r.2, f)
  | .outAll buf =>
      let r := f.fifoOutAll buf
      (.copied r.1.1.toNat r.1.2, r.2)

end Rhino

end Wujian100
