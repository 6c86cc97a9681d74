import Wujian100.Core.Rhino.MmBlk
import Wujian100.Library.Ring

/-!
# The Heap

`k_mm.c`, as `k_config.h` sets it up for a core without a DSP: no debug words, and a pool of
small blocks. Memory is read and written in words at the addresses that are multiples of four; a
`k_mm_list_t` is at its address the word `prev`, then `size`, then `free_ptr.prev` and
`free_ptr.next`, and its buffer starts where `free_ptr` does. `mblk_pool_t` and `k_mm_head` are
kept apart from the memory they lie in. Numbers are those of 32 bits; `%` stands where one of
them can wrap around.

## Main definitions

* `bitmapSearch`: `bitmap_search`.
* `Mm`: `k_mm_head`, the pool of small blocks and the memory.
* `Mm.insertBlock`, `Mm.getBlock`, `Mm.findblkByidx`: The lists of free blocks.
* `Mm.alloc`, `Mm.free`, `Mm.realloc`: `k_mm_alloc`, `k_mm_free` and `k_mm_realloc`.
* `initMmHead`: `krhino_init_mm_head`.
* `MmSys.step`: A call, or a write of a block's owner.
-/

namespace Wujian100

namespace Rhino

/-! ## Sizes -/

/-- `MAX_MM_BIT`. -/
def maxMmBit : Nat := 20

/-- `FLT_SIZE`. -/
def fltSize : Nat := maxMmBit - 7 + 1

/-- `SLT_SIZE`. -/
def sltSize : Nat := 32

/-- `MMLIST_HEAD_SIZE`. -/
def mmlistHeadSize : Nat := 8

/-- `sizeof(k_mm_list_t)`. -/
def kMmListSize : Nat := 16

/-- `sizeof(k_mm_region_info_t)`. -/
def kMmRegionInfoSize : Nat := 8

/-- `sizeof(k_mm_head)`. -/
def kMmHeadSize : Nat := 24 + 4 * maxMmBit + 4 * fltSize + 4 * fltSize * sltSize

/-- `sizeof(mblk_pool_t)`. -/
def mblkPoolSize : Nat := 32

/-- `DEF_FIX_BLK_SIZE`. -/
def defFixBlkSize : Nat := 32

/-- `RHINO_CONFIG_MM_TLF_BLK_SIZE`. -/
def mmTlfBlkSize : Nat := 4096

/-- `AOS_MM_TLF_ALLOC_MIN_LENGTH`. -/
def allocMinLength : Nat := 8

/-- `MM_ALIGN_UP`. -/
def mmAlignUp (a : Nat) : Nat := (a + 3) % 2 ^ 32 / 4 * 4

/-- `MM_ALIGN_DOWN`. -/
def mmAlignDown (a : Nat) : Nat := a / 4 * 4

/-! ## The word `size` -/

/-- `w & RHINO_MM_BLKSIZE_MASK`. -/
def blksize (w : Nat) : Nat := w / 4 * 4

/-- `w & RHINO_MM_FREE`. -/
def isFree (w : Nat) : Prop := w % 2 = 1

/-- `w & RHINO_MM_PREVFREE`. -/
def isPrevFree (w : Nat) : Prop := w / 2 % 2 = 1

instance (w : Nat) : Decidable (isFree w) := inferInstanceAs (Decidable (w % 2 = 1))

instance (w : Nat) : Decidable (isPrevFree w) := inferInstanceAs (Decidable (w / 2 % 2 = 1))

/-- `w & RHINO_MM_PRESTAT_MASK`. -/
def prestat (w : Nat) : Nat := w / 2 % 2 * 2

/-- `w | RHINO_MM_FREE`. -/
def setFree (w : Nat) : Nat := w / 2 * 2 + 1

/-- `w & ~RHINO_MM_FREE`. -/
def clearFree (w : Nat) : Nat := w / 2 * 2

/-- `w | RHINO_MM_PREVFREE`. -/
def setPrevFree (w : Nat) : Nat := w / 4 * 4 + 2 + w % 2

/-- `w & ~RHINO_MM_PREVFREE`. -/
def clearPrevFree (w : Nat) : Nat := w / 4 * 4 + w % 2

/-- `NEXT_MM_BLK`. -/
def nextMmBlk (addr r : Nat) : Nat := (addr + r) % 2 ^ 32

/-! ## Classes -/

/-- `SEARCH_ACTION`. -/
inductive SearchAction where
  | insert
  | get
deriving DecidableEq, Repr

/-- `bitmap_search`: whether it succeeds, `*flt` and `*slt`. -/
def bitmapSearch (size : Nat) (action : SearchAction) : Bool × Nat × Nat :=
  let (flt, slt) :=
    if size < 2 ^ 7 then (0, size / 2 ^ 2)
    else
      let paddingSize := 2 ^ (size.log2 - 5) - 1
      let tmpSize :=
        match action with
        | .insert => size
        | .get => (size + paddingSize) % 2 ^ 32
      let firstbit := tmpSize.log2
      ((firstbit + 2 ^ 32 - 7 + 1) % 2 ^ 32, (tmpSize - 2 ^ firstbit) / 2 ^ (firstbit - 5))
  (decide ¬(flt ≥ fltSize ∨ slt ≥ sltSize), flt, slt)

/-- `find_last_bit`. -/
def findLastBit (bitmap : BitVec 32) : Nat :=
  if bitmap = 0 then 0 else (bitmap &&& -bitmap).toNat.log2

/-! ## The state -/

/-- `k_mm_head`, the pool of small blocks with those of them that are allocated, and the
    memory. Two fields are not in the source: how often `addsize` or `removesize` has set a number
    to 0 because there was not more of it than is taken, and all that `used_size` has been. -/
structure Mm where
  regioninfo : Nat
  fixedmblk : Nat
  usedSize : Nat
  maxusedSize : Nat
  freeSize : Nat
  clamps : Nat
  usedLog : List Nat
  flBitmap : BitVec 32
  slBitmap : Nat → BitVec 32
  mmTbl : Nat → Nat → Nat
  pool : MblkPool
  small : List Nat
  mem : Nat → Nat

namespace Mm

/-- `b->size`. -/
def size (s : Mm) (b : Nat) : Nat := s.mem (b + 4)

/-- `b->prev`. -/
def prev (s : Mm) (b : Nat) : Nat := s.mem b

/-- `b->mbinfo.free_ptr.prev`. -/
def freePrev (s : Mm) (b : Nat) : Nat := s.mem (b + 8)

/-- `b->mbinfo.free_ptr.next`. -/
def freeNext (s : Mm) (b : Nat) : Nat := s.mem (b + 12)

/-- `b->size = w`. -/
def setSize (s : Mm) (b w : Nat) : Mm := { s with mem := Function.update s.mem (b + 4) w }

/-- `b->prev = p`. -/
def setPrev (s : Mm) (b p : Nat) : Mm := { s with mem := Function.update s.mem b p }

/-- `b->mbinfo.free_ptr.prev = p`. -/
def setFreePrev (s : Mm) (b p : Nat) : Mm := { s with mem := Function.update s.mem (b + 8) p }

/-- `b->mbinfo.free_ptr.next = p`. -/
def setFreeNext (s : Mm) (b p : Nat) : Mm := { s with mem := Function.update s.mem (b + 12) p }

/-- `mmhead->mm_tbl[flt][slt] = p`. -/
def setTbl (s : Mm) (flt slt p : Nat) : Mm :=
  { s with mmTbl := Function.update s.mmTbl flt (Function.update (s.mmTbl flt) slt p) }

/-- `krhino_bitmap_set` for the class, in both bitmaps. -/
def setBits (s : Mm) (flt slt : Nat) : Mm :=
  { s with
    slBitmap := Function.update s.slBitmap flt (s.slBitmap flt ||| 1#32 <<< slt)
    flBitmap := s.flBitmap ||| 1#32 <<< flt }

/-- `krhino_bitmap_clear` for the class, in the first level where the second has no bit left. -/
def clearBits (s : Mm) (flt slt : Nat) : Mm :=
  let slBitmap := Function.update s.slBitmap flt (s.slBitmap flt &&& ~~~(1#32 <<< slt))
  { s with
    slBitmap := slBitmap
    flBitmap := if slBitmap flt = 0 then s.flBitmap &&& ~~~(1#32 <<< flt) else s.flBitmap }

/-! ## Statistics -/

/-- `addsize`. -/
def addsize (s : Mm) (size : Nat) : Mm :=
  { s with
    freeSize := if s.freeSize > size then s.freeSize - size else 0
    usedSize := s.usedSize + size
    maxusedSize := if s.usedSize + size > s.maxusedSize then s.usedSize + size else s.maxusedSize
    clamps := if s.freeSize > size then s.clamps else s.clamps + 1
    usedLog := (s.usedSize + size) :: s.usedLog }

/-- `removesize`. -/
def removesize (s : Mm) (size : Nat) : Mm :=
  { s with
    usedSize := if s.usedSize > size then s.usedSize - size else 0
    freeSize := s.freeSize + size
    clamps := if s.usedSize > size then s.clamps else s.clamps + 1
    usedLog := (if s.usedSize > size then s.usedSize - size else 0) :: s.usedLog }

/-! ## Free blocks -/

/-- `insert_block`. -/
def insertBlock (s : Mm) (blk flt slt : Nat) : Mm :=
  let s := s.setFreePrev blk 0
  let s := s.setFreeNext blk (s.mmTbl flt slt)
  let s := if s.mmTbl flt slt ≠ 0 then s.setFreePrev (s.mmTbl flt slt) blk else s
  (s.setTbl flt slt blk).setBits flt slt

/-- `get_block`. -/
def getBlock (s : Mm) (blk flt slt : Nat) : Mm :=
  let s := if s.freeNext blk ≠ 0 then s.setFreePrev (s.freeNext blk) (s.freePrev blk) else s
  let s := if s.freePrev blk ≠ 0 then s.setFreeNext (s.freePrev blk) (s.freeNext blk) else s
  let s :=
    if s.mmTbl flt slt = blk then
      let s := s.setTbl flt slt (s.freeNext blk)
      if s.mmTbl flt slt = 0 then s.clearBits flt slt else s
    else s
  (s.setFreePrev blk 0).setFreeNext blk 0

/-- What `k_mm_alloc` does to take the block it found. -/
def popBlock (s : Mm) (b flt slt : Nat) : Mm :=
  let s := s.setTbl flt slt (s.freeNext b)
  let s :=
    if s.mmTbl flt slt ≠ 0 then s.setFreePrev (s.mmTbl flt slt) 0 else s.clearBits flt slt
  (s.setFreePrev b 0).setFreeNext b 0

/-- `findblk_byidx`: the block, `*flt` and `*slt`. -/
def findblkByidx (s : Mm) (flt slt : Nat) : Nat × Nat × Nat :=
  let tmp := s.slBitmap flt &&& (BitVec.allOnes 32 <<< slt)
  if tmp ≠ 0 then
    let slt := findLastBit tmp
    (s.mmTbl flt slt, flt, slt)
  else
    let flt := findLastBit (s.flBitmap &&& (BitVec.allOnes 32 <<< (flt + 1)))
    if flt > 0 then
      let slt := findLastBit (s.slBitmap flt)
      (s.mmTbl flt slt, flt, slt)
    else (0, flt, slt)

/-- `bitmap_search` for a block that is free and `insert_block`. -/
def insertFree (s : Mm) (blk size : Nat) : Mm :=
  let (_, flt, slt) := bitmapSearch size .insert
  s.insertBlock blk flt slt

/-- `bitmap_search` for a block that is free and `get_block`. -/
def getFree (s : Mm) (blk : Nat) : Mm :=
  let (_, flt, slt) := bitmapSearch (blksize (s.size blk)) .insert
  s.getBlock blk flt slt

/-! ## Small blocks -/

/-- `ISFIXEDBLK`, where there is a pool. -/
def isFixedBlk (s : Mm) (ptr : Nat) : Prop :=
  ptr > s.fixedmblk + mmlistHeadSize ∧
    ptr < s.fixedmblk + mmlistHeadSize + s.size s.fixedmblk

instance (s : Mm) (ptr : Nat) : Decidable (s.isFixedBlk ptr) :=
  inferInstanceAs (Decidable (_ ∧ _))

/-- `k_mm_smallblk_alloc`. -/
def smallblkAlloc (s : Mm) : Nat × Mm :=
  match Mblk.alloc ⟨s.pool, s.mem, s.small⟩ with
  | ((.success, tmp), m) =>
      (tmp, { s with pool := m.pool, mem := m.mem, small := m.allocated }.addsize defFixBlkSize)
  | _ => (0, s)

/-- `k_mm_smallblk_free`. -/
def smallblkFree (s : Mm) (ptr : Nat) : Mm :=
  let m := (Mblk.free ⟨s.pool, s.mem, s.small⟩ ptr).2
  { s with pool := m.pool, mem := m.mem, small := m.allocated }.removesize defFixBlkSize

/-! ## Calls -/

/-- The block that is split off from `b`, which is to have `size` bytes: `tmpSize` bytes with its
    header, in front of `nextB`. Only `k_mm_realloc` has to tell `nextB` that it is free. -/
def splitBlk (s : Mm) (b size tmpSize nextB : Nat) (mark : Bool) : Mm :=
  let tmpSize := tmpSize - mmlistHeadSize
  let b2 := nextMmBlk (b + mmlistHeadSize) size
  let s := s.setSize b2 (tmpSize + 1)
  let s := s.setPrev nextB b2
  let s := if mark then s.setSize nextB (setPrevFree (s.size nextB)) else s
  let s := s.insertFree b2 tmpSize
  s.setSize b (size + prestat (s.size b))

/-- `k_mm_alloc`, where it does not take a small block. -/
def tlsfAlloc (s : Mm) (size : Nat) : Nat × Mm :=
  let size := mmAlignUp size
  let size := if size < allocMinLength then allocMinLength else size
  match bitmapSearch size .get with
  | (false, _, _) => (0, s)
  | (true, flt, slt) =>
      match s.findblkByidx flt slt with
      | (b, flt, slt) =>
          if b = 0 then (0, s)
          else
            let s := s.popBlock b flt slt
            let nextB := nextMmBlk (b + mmlistHeadSize) (blksize (s.size b))
            let tmpSize := (blksize (s.size b) + 2 ^ 32 - size) % 2 ^ 32
            let s :=
              if tmpSize ≥ kMmListSize then s.splitBlk b size tmpSize nextB false
              else
                let s := s.setSize nextB (clearPrevFree (s.size nextB))
                s.setSize b (clearFree (s.size b))
            (b + mmlistHeadSize, s.addsize (blksize (s.size b) + mmlistHeadSize))

/-- `k_mm_alloc`. -/
def alloc (s : Mm) (size : Nat) : Nat × Mm :=
  if size = 0 then (0, s)
  else if s.fixedmblk ≠ 0 ∧ size ≤ defFixBlkSize ∧ s.pool.blkAvail > 0 then
    match s.smallblkAlloc with
    | (retptr, t) => if retptr ≠ 0 then (retptr, t) else t.tlsfAlloc size
  else s.tlsfAlloc size

/-- `k_mm_free`, where the block is not a small one. -/
def tlsfFree (s : Mm) (b : Nat) : Mm :=
  let s := s.setSize b (setFree (s.size b))
  let s := s.removesize (blksize (s.size b) + mmlistHeadSize)
  let tmpB := nextMmBlk (b + mmlistHeadSize) (blksize (s.size b))
  let s :=
    if isFree (s.size tmpB) then
      let s := s.getFree tmpB
      s.setSize b (s.size b + blksize (s.size tmpB) + mmlistHeadSize)
    else s
  let (b, s) :=
    if isPrevFree (s.size b) then
      let tmpB := s.prev b
      let s := s.getFree tmpB
      (tmpB, s.setSize tmpB (s.size tmpB + blksize (s.size b) + mmlistHeadSize))
    else (b, s)
  let s := s.insertFree b (blksize (s.size b))
  let tmpB := nextMmBlk (b + mmlistHeadSize) (blksize (s.size b))
  let s := s.setSize tmpB (setPrevFree (s.size tmpB))
  s.setPrev tmpB b

/-- `k_mm_free`. -/
def free (s : Mm) (ptr : Nat) : Mm :=
  if ptr = 0 then s
  else if s.fixedmblk ≠ 0 ∧ s.isFixedBlk ptr then s.smallblkFree ptr
  else s.tlsfFree (ptr - mmlistHeadSize)

/-- `memcpy` in the heap. -/
def memcpy (s : Mm) (dst src n : Nat) : Mm := { s with mem := blit s.mem dst s.mem src n }

/-- `k_mm_realloc`, where the block `b` becomes smaller or stays. -/
def shrinkBlk (s : Mm) (b newSize : Nat) : Mm :=
  let tmpSize := blksize (s.size b)
  let nextB := nextMmBlk (b + mmlistHeadSize) (blksize (s.size b))
  let s := s.removesize (blksize (s.size b) + mmlistHeadSize)
  let (s, tmpSize, nextB) :=
    if isFree (s.size nextB) then
      let s := s.getFree nextB
      (s, tmpSize + (blksize (s.size nextB) + mmlistHeadSize),
        nextMmBlk (nextB + mmlistHeadSize) (blksize (s.size nextB)))
    else (s, tmpSize, nextB)
  let tmpSize := tmpSize - newSize
  let s := if tmpSize ≥ kMmListSize then s.splitBlk b newSize tmpSize nextB true else s
  s.addsize (blksize (s.size b) + mmlistHeadSize)

/-- `k_mm_realloc`, where the block `b` takes of the free one behind it. -/
def growBlk (s : Mm) (b newSize : Nat) : Mm :=
  let nextB := nextMmBlk (b + mmlistHeadSize) (blksize (s.size b))
  let s := s.removesize (blksize (s.size b) + mmlistHeadSize)
  let s := s.getFree nextB
  let s := s.setSize b (s.size b + blksize (s.size nextB) + mmlistHeadSize)
  let nextB := nextMmBlk (b + mmlistHeadSize) (blksize (s.size b))
  let s := s.setPrev nextB b
  let s := s.setSize nextB (clearPrevFree (s.size nextB))
  let tmpSize := blksize (s.size b) - newSize
  let s := if tmpSize ≥ kMmListSize then s.splitBlk b newSize tmpSize nextB true else s
  s.addsize (blksize (s.size b) + mmlistHeadSize)

/-- `k_mm_realloc`, where the block moves if it can. -/
def moveBlk (s : Mm) (b oldmem newSize : Nat) : Nat × Mm :=
  match s.alloc newSize with
  | (ptrAux, s) =>
      if ptrAux = 0 then (0, s)
      else
        let cpsize := if blksize (s.size b) > newSize then newSize else blksize (s.size b)
        (ptrAux, (s.memcpy ptrAux oldmem cpsize).free oldmem)

/-- `k_mm_realloc` of a block that is not a small one. -/
def tlsfRealloc (s : Mm) (oldmem newSize : Nat) : Nat × Mm :=
  let b := oldmem - mmlistHeadSize
  let tmpSize := blksize (s.size b)
  let nextB := nextMmBlk (b + mmlistHeadSize) (blksize (s.size b))
  let newSize := if newSize < kMmListSize then kMmListSize else mmAlignUp newSize
  if newSize ≤ tmpSize then (oldmem, s.shrinkBlk b newSize)
  else if isFree (s.size nextB) ∧ newSize ≤ tmpSize + blksize (s.size nextB) then
    (oldmem, s.growBlk b newSize)
  else s.moveBlk b oldmem newSize

/-- `k_mm_realloc` of a small block. -/
def smallblkRealloc (s : Mm) (oldmem newSize : Nat) : Nat × Mm :=
  if newSize ≤ defFixBlkSize then (oldmem, s)
  else
    match s.alloc newSize with
    | (ptrAux, s) =>
        if ptrAux ≠ 0 then (ptrAux, (s.memcpy ptrAux oldmem defFixBlkSize).smallblkFree oldmem)
        else (0, s)

/-- `k_mm_realloc`. -/
def realloc (s : Mm) (oldmem newSize : Nat) : Nat × Mm :=
  if oldmem = 0 then if newSize ≠ 0 then s.alloc newSize else (0, s)
  else if newSize = 0 then (0, s.free oldmem)
  else if s.fixedmblk ≠ 0 ∧ s.isFixedBlk oldmem then s.smallblkRealloc oldmem newSize
  else s.tlsfRealloc oldmem newSize

/-- `csi_kernel_get_mminfo`: `*total`, `*used`, `*free` and `*peak`. -/
def csiKernelGetMminfo (s : Mm) : Nat × Nat × Nat × Nat :=
  (s.usedSize + s.freeSize, s.usedSize, s.freeSize, s.maxusedSize)

end Mm

/-! ## The beginning -/

/-- `init_mm_region`. The first block is where the region is. -/
def initMmRegion (mem : Nat → Nat) (regionaddr len : Nat) : Nat → Nat :=
  let firstblk := regionaddr
  let curblk := firstblk + mmlistHeadSize + kMmRegionInfoSize
  let size := mmAlignDown (len - (kMmRegionInfoSize + 3 * mmlistHeadSize))
  let lastblk := curblk + mmlistHeadSize + size
  let mem := Function.update mem (firstblk + 4) kMmRegionInfoSize
  let mem := Function.update mem (curblk + 4) size
  let mem := Function.update mem (curblk + 8) 0
  let mem := Function.update mem (curblk + 12) 0
  let mem := Function.update mem lastblk curblk
  let mem := Function.update mem (lastblk + 4) 2
  let mem := Function.update mem (firstblk + mmlistHeadSize + 4) 0
  Function.update mem (firstblk + mmlistHeadSize) lastblk

/-- The part of `krhino_init_mm_head` about the pool of small blocks. -/
def Mm.initFixed (s : Mm) : Mm :=
  match s.alloc (mmTlfBlkSize + mblkPoolSize) with
  | (mmblkPool, s) =>
      if mmblkPool = 0 then s
      else
        let start := mmblkPool + mblkPoolSize
        let s :=
          match mblkPoolCheck start defFixBlkSize mmTlfBlkSize,
              mblkPoolInit mmTlfBlkSize s.mem start defFixBlkSize mmTlfBlkSize with
          | none, some (pool, mem) =>
              { s with pool := pool, mem := mem, fixedmblk := mmblkPool - mmlistHeadSize }
          | _, _ => s.free mmblkPool
        s.removesize mmTlfBlkSize

/-- `krhino_init_mm_head`, where `addr` is aligned and the length is right. -/
def initMm (mem : Nat → Nat) (addr len : Nat) : Mm :=
  let firstblk := addr + kMmHeadSize
  let s : Mm :=
    { regioninfo := firstblk + mmlistHeadSize, fixedmblk := 0, usedSize := 0, maxusedSize := 0
      freeSize := 0, clamps := 0, usedLog := [], flBitmap := 0, slBitmap := fun _ => 0
      mmTbl := fun _ _ => 0, pool := ⟨false, 0, 0, 0, 0⟩, small := []
      mem := initMmRegion mem firstblk (mmAlignDown (len - kMmHeadSize)) }
  let nextblk := nextMmBlk (firstblk + mmlistHeadSize) (blksize (s.size firstblk))
  let s := s.free (nextblk + mmlistHeadSize)
  let s := { s with
    freeSize := blksize (s.size nextblk)
    usedSize := len - blksize (s.size nextblk)
    maxusedSize := len - blksize (s.size nextblk)
    clamps := 0
    usedLog := [len - blksize (s.size nextblk)] }
  s.initFixed

/-- `krhino_init_mm_head`, nothing where it fails. -/
def initMmHead (mem : Nat → Nat) (addr len : Nat) : Option Mm :=
  if addr = 0 then none
  else
    let origAddr := addr
    let addr := mmAlignUp addr
    let len := mmAlignDown ((len + 2 ^ 32 - (addr + 2 ^ 32 - origAddr) % 2 ^ 32) % 2 ^ 32)
    if len = 0 ∨ len < 1024 + mmTlfBlkSize ∨ len > 2 ^ maxMmBit then none
    else some (initMm mem addr len)

/-! ## Runs -/

/-- The bytes of a block that was handed out. -/
def Mm.extent (s : Mm) (ptr : Nat) : Nat :=
  if s.fixedmblk ≠ 0 ∧ s.isFixedBlk ptr then defFixBlkSize
  else blksize (s.size (ptr - mmlistHeadSize))

/-- A heap with the blocks that were handed out and not given back. -/
structure MmSys where
  mm : Mm
  live : List Nat

/-- What happens to a heap. -/
inductive HeapAct where
  | alloc (size : Nat)
  | free (ptr : Nat)
  | realloc (oldmem newSize : Nat)
  | write (ptr addr value : Nat)
deriving DecidableEq, Repr

/-- One step. Blocks that were handed out may be given back, resized and written to. -/
def MmSys.step (s : MmSys) : HeapAct → Option MmSys
  | .alloc size =>
      match s.mm.alloc size with
      | (ptr, mm) => some ⟨mm, if ptr = 0 then s.live else ptr :: s.live⟩
  | .free ptr =>
      if ptr = 0 ∨ ptr ∈ s.live then some ⟨s.mm.free ptr, s.live.erase ptr⟩ else none
  | .realloc oldmem newSize =>
      if oldmem = 0 ∨ oldmem ∈ s.live then
        match s.mm.realloc oldmem newSize with
        | (ptr, mm) =>
            some ⟨mm, if ptr ≠ 0 then ptr :: s.live.erase oldmem
              else if newSize = 0 then s.live.erase oldmem else s.live⟩
      else none
  | .write ptr addr value =>
      if ptr ∈ s.live ∧ ptr ≤ addr ∧ addr < ptr + s.mm.extent ptr then
        some { s with mm := { s.mm with mem := Function.update s.mm.mem addr value } }
      else none

end Rhino

end Wujian100
