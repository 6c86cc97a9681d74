import Wujian100.Core.Rhino.Status
import Wujian100.Library.Ring

/-!
# The Ring Buffer

`k_ringbuf.c`. Pointers into the buffer are offsets from `buf`, so `buf` itself
is 0 and `end` is the length. `memcpy` is `blit`; the memory a caller passes is a
function of the offset, so that a copy may read or write more of it than the
message.

`ringbuf_push` copies the header and the data by the same code, except that the
copy of the header asks for `len_bytes > 0` a second time, which always holds
there: `copyIn` is that code. `ringbuf_pop` tests differently in its two copies,
and each has its own definition.

## Main definitions

* `headlenCompress`, `headlenDecompress`: The length in front of a message.
* `Ringbuf`: The control block and the buffer.
* `Ringbuf.push`, `Ringbuf.pop`: `ringbuf_push` and `ringbuf_pop`.
-/

namespace Wujian100

namespace Rhino

/-! ## Lengths -/

/-- `RINGBUF_LEN_1BYTE_MAXVALUE`. -/
def len1ByteMax : Nat := 0x7f

/-- `RINGBUF_LEN_2BYTES_MAXVALUE`. -/
def len2BytesMax : Nat := 0x3fff

/-- `RINGBUF_LEN_3BYTES_MAXVALUE`. -/
def len3BytesMax : Nat := 0x3fffff

/-- `COMPRESS_LEN`. Above three bytes it is the code of `RHINO_INV_PARAM`. -/
def compressLen (len : Nat) : Nat :=
  if len ≤ len1ByteMax then 1
  else if len ≤ len2BytesMax then 2
  else if len ≤ len3BytesMax then 3
  else 5

/-- Byte `i` of the length, the most significant of four first. -/
def beByte (len i : Nat) : UInt8 :=
  UInt8.ofNat (len / 256 ^ (3 - i))

/-- `ringbuf_headlen_compress`: the number of bytes, and `cmp_buf`. -/
def headlenCompress (len : Nat) : Nat × (Nat → UInt8) :=
  let lenBytes := compressLen len
  let cmpBuf : Nat → UInt8 := fun i =>
    if lenBytes = 1 then
      if i = 0 then 0x7f &&& beByte len 3 else 0
    else if lenBytes = 2 then
      if i = 0 then 0x80 ||| beByte len 2 else if i = 1 then beByte len 3 else 0
    else if lenBytes = 3 then
      if i = 0 then 0xC0 ||| beByte len 1
      else if i = 1 then beByte len 2
      else if i = 2 then beByte len 3 else 0
    else 0
  (lenBytes, cmpBuf)

/-- `ringbuf_headlen_decompress`: the bytes, most significant first, without the
    two bits that say how many there are. -/
def headlenDecompress (bufLen : Nat) (cmpBuf : Nat → UInt8) : Nat :=
  (List.range bufLen).foldl
    (fun v i => v * 256 + (if bufLen > 1 ∧ i = 0 then cmpBuf i &&& 0x3f else cmpBuf i).toNat) 0

/-- How many bytes of length there are, from the first; 0 for none of the marks. -/
def lenBytesOf (b : UInt8) : Nat :=
  if b &&& 0x80 = 0 then 1
  else if b &&& 0xC0 = 0x80 then 2
  else if b &&& 0xC0 = 0xC0 then 3
  else 0

/-! ## The control block -/

/-- `type`. -/
inductive RingType where
  | fix
  | dyn
deriving DecidableEq, Repr

/-- `k_ringbuf_t` and the buffer behind it. -/
structure Ringbuf where
  mem : Nat → UInt8
  end_ : Nat
  head : Nat
  tail : Nat
  freesize : Nat
  type : RingType
  blkSize : Nat

namespace Ringbuf

/-- `ringbuf_reset`. -/
def reset (r : Ringbuf) : Ringbuf :=
  { r with head := 0, tail := 0, freesize := r.end_ }

/-- `ringbuf_init`. -/
def init (mem : Nat → UInt8) (len : Nat) (type : RingType) (blockSize : Nat) : Ringbuf :=
  reset { mem := mem, end_ := len, head := 0, tail := 0, freesize := 0, type := type
          blkSize := blockSize }

/-- `ringbuf_is_full`. -/
def isFull (r : Ringbuf) : Bool :=
  (r.type == .dyn && decide (r.freesize < 2)) || (r.type == .fix && decide (r.freesize < r.blkSize))

/-- `ringbuf_is_empty`. -/
def isEmpty (r : Ringbuf) : Bool :=
  r.freesize == r.end_

/-- `if (tail == end) tail = buf`. -/
def wrapTail (r : Ringbuf) : Ringbuf :=
  if r.tail = r.end_ then { r with tail := 0 } else r

/-- `if (head == end) head = buf`. -/
def wrapHead (r : Ringbuf) : Ringbuf :=
  if r.head = r.end_ then { r with head := 0 } else r

/-- `n` bytes of `src` from `s` on, behind `tail` in one piece. -/
def append (r : Ringbuf) (src : Nat → UInt8) (s n : Nat) : Ringbuf :=
  { r with mem := blit r.mem r.tail src s n, tail := r.tail + n, freesize := r.freesize - n }

/-- Either copy of `ringbuf_push`: `n` bytes behind `tail`, split at `end`. -/
def copyIn (r : Ringbuf) (src : Nat → UInt8) (n : Nat) : Ringbuf :=
  let r := r.wrapTail
  let splitLen := r.end_ - r.tail
  if r.tail ≥ r.head ∧ splitLen < n ∧ splitLen > 0 then
    { r.append src 0 splitLen with tail := 0 }.append src splitLen (n - splitLen)
  else r.append src 0 n

/-- `ringbuf_push`. -/
def push (r : Ringbuf) (data : Nat → UInt8) (len : Nat) : Kstat × Ringbuf :=
  if r.isFull = true then (.ringbufFull, r)
  else
    match r.type with
    | .fix => (.success, r.wrapTail.append data 0 r.blkSize)
    | .dyn =>
        let c := headlenCompress len
        if c.1 = 0 ∨ c.1 > 3 then (.invParam, r)
        else if r.freesize < c.1 + len then (.ringbufFull, r)
        else (.success, (r.copyIn c.2 c.1).copyIn data len)

/-- What a copy out of the ring leaves: the ring and the memory copied to. -/
structure Copied where
  ring : Ringbuf
  dst : Nat → UInt8

/-- `n` bytes from `head` on to `dst` from `d` on, in one piece. -/
def take (r : Ringbuf) (dst : Nat → UInt8) (d n : Nat) : Copied where
  ring := { r with head := r.head + n, freesize := r.freesize + n }
  dst := blit dst d r.mem r.head n

/-- The header's copy of `ringbuf_pop`. -/
def copyLen (r : Ringbuf) (lenBytes : Nat) : Copied :=
  let splitLen := r.end_ - r.head
  if splitLen < lenBytes ∧ splitLen > 0 then
    let c := r.take (fun _ => 0) 0 splitLen
    { c.ring with head := 0 }.take c.dst splitLen (lenBytes - splitLen)
  else r.take (fun _ => 0) 0 lenBytes

/-- The data's copy of `ringbuf_pop`. -/
def copyData (r : Ringbuf) (pdata : Nat → UInt8) (len : Nat) : Copied :=
  let splitLen := r.end_ - r.head
  if r.head > r.tail ∧ splitLen < len then
    let c := r.take pdata 0 splitLen
    { c.ring with head := 0 }.take c.dst splitLen (len - splitLen)
  else r.take pdata 0 len

/-- What `ringbuf_pop` leaves: the status, the ring, `pdata`, and `*plen`. -/
structure Popped where
  stat : Kstat
  ring : Ringbuf
  pdata : Nat → UInt8
  plen : Nat

/-- `ringbuf_pop`. -/
def pop (r : Ringbuf) (pdata : Nat → UInt8) (plen : Nat) : Popped :=
  if r.isEmpty = true then ⟨.ringbufEmpty, r, pdata, plen⟩
  else
    match r.type with
    | .fix =>
        let c := r.wrapHead.take pdata 0 r.blkSize
        ⟨.success, c.ring, c.dst, r.blkSize⟩
    | .dyn =>
        let r := r.wrapHead
        let lenBytes := lenBytesOf (r.mem r.head)
        if lenBytes = 0 then ⟨.invParam, r, pdata, plen⟩
        else
          let c := r.copyLen lenBytes
          let len := headlenDecompress lenBytes c.dst
          let d := c.ring.wrapHead.copyData pdata len
          ⟨.success, d.ring, d.dst, len⟩

end Ringbuf

end Rhino

end Wujian100
