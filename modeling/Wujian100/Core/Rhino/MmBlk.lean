import Wujian100.Core.Rhino.Status
import Mathlib.Logic.Function.Basic

/-!
# Pools of Blocks

`k_mm_blk.c`. Addresses and sizes have 32 bits, and pointer arithmetic wraps. Memory
is read and written in words of a pointer's size, at the addresses that are multiples
of it: the first word of a free block points to the next one.

`blks` does not wrap: a loop that ends has been at no address twice. The names of
pools and the list of all pools are left out.

## Main definitions

* `MblkPool`: `mblk_pool_t`.
* `mblkPoolCheck`, `mblkLink`, `mblkPoolInit`: `krhino_mblk_pool_init`, in parts.
* `Mblk`: A pool, the memory and the blocks that are allocated.
* `Mblk.alloc`, `Mblk.free`: The calls.
* `Mblk.step`: A call, or a write of a block's owner.
-/

namespace Wujian100

namespace Rhino

/-- `mblk_pool_t`. `valid` says that `obj_type` is that of a pool. -/
structure MblkPool where
  valid : Bool
  blkSize : Nat
  blkAvail : Nat
  blkWhole : Nat
  availList : Nat
deriving DecidableEq, Repr

/-- The checks of `krhino_mblk_pool_init`, `none` where they pass. -/
def mblkPoolCheck (poolStart blkSize poolSize : Nat) : Option Kstat :=
  if poolStart = 0 then some .nullPtr
  else if poolSize < blkSize * 2 % 2 ^ 32 then some .blkPoolSizeErr
  else if poolStart % 4 > 0 then some .invAlign
  else if blkSize % 4 > 0 then some .invAlign
  else if poolSize % 4 > 0 then some .invAlign
  else none

/-- Where the loop of `krhino_mblk_pool_init` ends. -/
structure MblkLinked where
  mem : Nat → Nat
  blks : Nat
  blkCur : Nat
  blkNext : Nat

/-- The loop, for so many turns at most. -/
def mblkLink (blkSize poolEnd : Nat) : Nat → MblkLinked → Option MblkLinked
  | 0, _ => none
  | turns + 1, s =>
      if s.blkNext < poolEnd then
        mblkLink blkSize poolEnd turns {
          mem := Function.update s.mem s.blkCur s.blkNext
          blks := s.blks + 1
          blkCur := s.blkNext
          blkNext := (s.blkNext + blkSize) % 2 ^ 32 }
      else some s

/-- The rest of `krhino_mblk_pool_init` once its checks have passed: the pool and the
    memory, if so many turns are enough. -/
def mblkPoolInit (turns : Nat) (mem : Nat → Nat) (poolStart blkSize poolSize : Nat) :
    Option (MblkPool × (Nat → Nat)) :=
  let poolEnd := (poolStart + poolSize) % 2 ^ 32
  (mblkLink blkSize poolEnd turns {
    mem := mem
    blks := 0
    blkCur := poolStart
    blkNext := (poolStart + blkSize) % 2 ^ 32 }).map fun s =>
      let blks := if s.blkNext = poolEnd then s.blks + 1 else s.blks
      ({ valid := true, blkSize := blkSize, blkAvail := blks, blkWhole := blks
         availList := poolStart }, Function.update s.mem s.blkCur 0)

/-- A pool and the memory, with the blocks that are allocated, the last one first. -/
structure Mblk where
  pool : MblkPool
  mem : Nat → Nat
  allocated : List Nat

namespace Mblk

/-- `krhino_mblk_alloc`: the status, and `*blk`. -/
def alloc (s : Mblk) : (Kstat × Nat) × Mblk :=
  if s.pool.valid = false then ((.kobjTypeErr, 0), s)
  else if s.pool.blkAvail > 0 then
    let availBlk := s.pool.availList
    ((.success, availBlk), { s with
      pool := { s.pool with
        availList := s.mem availBlk
        blkAvail := s.pool.blkAvail - 1 }
      allocated := availBlk :: s.allocated })
  else ((.noMem, 0), s)

/-- `krhino_mblk_free`. -/
def free (s : Mblk) (blk : Nat) : Kstat × Mblk :=
  if blk = 0 then (.nullPtr, s)
  else if s.pool.valid = false then (.kobjTypeErr, s)
  else
    (.success, {
      pool := { s.pool with
        availList := blk
        blkAvail := (s.pool.blkAvail + 1) % 2 ^ 32 }
      mem := Function.update s.mem blk s.pool.availList
      allocated := s.allocated.erase blk })

end Mblk

/-- What happens to a pool. -/
inductive MblkAct where
  | alloc
  | free (blk : Nat)
  | write (blk addr value : Nat)
deriving DecidableEq, Repr

/-- One step. Blocks that are allocated may be freed and written to. -/
def Mblk.step (s : Mblk) : MblkAct → Option Mblk
  | .alloc => some s.alloc.2
  | .free blk => if blk ∈ s.allocated then some (s.free blk).2 else none
  | .write blk addr value =>
      if blk ∈ s.allocated ∧ blk ≤ addr ∧ addr < blk + s.pool.blkSize then
        some { s with mem := Function.update s.mem addr value }
      else none

end Rhino

end Wujian100
