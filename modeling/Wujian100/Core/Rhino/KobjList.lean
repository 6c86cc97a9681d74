import Wujian100.Core.Rhino.MmBlk
import Wujian100.Library.Circle
import Mathlib.Data.Finset.Erase
import Mathlib.Data.Finset.Insert

/-!
# Lists of All Objects

`g_kobj_list` has a list for each kind of objects. `csi_kernel_task_list` goes over the one of
all tasks; `csi_kernel_mpool_new` puts pools into another one, which is kept in memory as words:
a node is its `next`, and four bytes behind it its `prev`.

The heap gives any block it likes, or none. The array that tasks are stored to is somewhere
else than the list.

## Main definitions

* `csiKernelTaskList`: What is returned, and what is stored at which index.
* `klistInsert`: A node is put in front of the head.
* `Pools`: Memory, the blocks of the heap that are in use and the pools there are.
* `Pools.mpoolNew`, `Pools.mpoolDel`: The calls.
-/

namespace Wujian100

namespace Rhino

/-! ## Tasks -/

/-- `csi_kernel_task_list` of an array, with loops of so many turns at most. The node of a task
    is `off` bytes behind its start. -/
def csiKernelTaskList (next : Nat → Nat) (taskHead off turns : Nat) (arrayItems : BitVec 32) :
    Option (BitVec 32 × List (Nat × Nat)) :=
  if arrayItems = 0 then some (0, [])
  else
    (forEach next taskHead (fun _ => true) (fun num _ => num + 1) turns (next taskHead) 0#32).bind
      fun num =>
        let num := if arrayItems < num then arrayItems else num
        (forEach next taskHead (fun _ => decide (num ≥ 1))
          (fun stores tmp => stores ++ [(tmp - off, stores.length)]) turns (next taskHead) []).map
            fun stores => (num, stores)

/-! ## Pools -/

/-- `klist_insert`. -/
def klistInsert (mem : Nat → Nat) (head element : Nat) : Nat → Nat :=
  let mem := Function.update mem (element + 4) (mem (head + 4))
  let mem := Function.update mem element head
  let mem := Function.update mem (mem (head + 4)) element
  Function.update mem (head + 4) element

/-- `sizeof(mblk_pool_t)`. -/
def sizeofMblkPool : Nat := 32

/-- Where `mblkpool_stats_item` is in a pool. -/
def statsItem (pool : Nat) : Nat := pool + 24

/-- `RHINO_MM_BLK_OBJ_TYPE`. -/
def mmBlkObjType : Nat := 7

/-- What `krhino_mblk_pool_init` writes to the pool, before it is linked. -/
def setFields (mem : Nat → Nat) (pool name : Nat) (x : MblkPool) : Nat → Nat :=
  let mem := Function.update mem (pool + 4) name
  let mem := Function.update mem (pool + 16) x.blkWhole
  let mem := Function.update mem (pool + 12) x.blkAvail
  let mem := Function.update mem (pool + 8) x.blkSize
  let mem := Function.update mem (pool + 20) x.availList
  Function.update mem pool mmBlkObjType

/-- A word after the bytes from `start` on, so many, are set to zero. -/
def wipe (start size addr value : Nat) : Nat :=
  if addr + 4 ≤ start ∨ start + size ≤ addr then value
  else
    ((List.range 4).map fun i =>
      if start ≤ addr + i ∧ addr + i < start + size then 0 else value / 256 ^ i % 256 * 256 ^ i).sum

/-- Memory, the blocks of the heap that are in use and the pools that were created and not
    deleted. -/
structure Pools where
  mem : Nat → Nat
  blocks : Finset Nat
  pools : List Nat

/-- The tests of `csi_kernel_mpool_new`. -/
def mpoolCheck (pAddr blockCount blockSize : BitVec 32) : Bool :=
  decide (pAddr = 0 ∨ blockCount.toInt < 0 ∨ blockSize.toInt ≤ 0 ∨ blockSize.toInt % 4 ≠ 0)

namespace Pools

/-- A block the heap may give: in no one's use, nor where the head of the list is. -/
def Fresh (head : Nat) (s : Pools) (block : Nat) : Prop :=
  block ≠ 0 ∧ block % 4 = 0 ∧ (head + 8 ≤ block ∨ block + sizeofMblkPool ≤ head) ∧
    ∀ b ∈ s.blocks, b + sizeofMblkPool ≤ block ∨ block + sizeofMblkPool ≤ b

instance (head : Nat) (s : Pools) (block : Nat) : Decidable (s.Fresh head block) :=
  inferInstanceAs (Decidable (_ ∧ _))

/-- `csi_kernel_mpool_new` when the heap gives `handle`, or nothing; `none` where so many turns
    are not enough. The product is one of `int32_t`. -/
def mpoolNew (head name turns : Nat) (handle : Option Nat) (s : Pools)
    (pAddr blockCount blockSize : BitVec 32) : Option (Nat × Pools) :=
  if mpoolCheck pAddr blockCount blockSize = true then some (0, s)
  else
    match handle with
    | none => some (0, s)
    | some handle =>
        let s := { s with blocks := insert handle s.blocks }
        let poolSize := (blockCount * blockSize).toNat
        match mblkPoolCheck pAddr.toNat blockSize.toNat poolSize with
        | some _ => some (0, s)
        | none =>
            (mblkPoolInit turns s.mem pAddr.toNat blockSize.toNat poolSize).map fun p =>
              (handle, { s with
                mem := klistInsert (setFields p.2 handle name p.1) head (statsItem handle)
                pools := s.pools ++ [handle] })

/-- `csi_kernel_mpool_del`. The block goes back to the heap and the list is not looked at. -/
def mpoolDel (s : Pools) (handle : Nat) : Int × Pools :=
  if handle = 0 then (-22, s)
  else
    (0, { mem := fun addr => wipe handle sizeofMblkPool addr (s.mem addr)
          blocks := s.blocks.erase handle
          pools := s.pools.erase handle })

end Pools

/-- What is done with pools. -/
inductive PoolAct where
  | new (turns : Nat) (handle : Option Nat) (pAddr blockCount blockSize : BitVec 32)
  | del (handle : Nat)

/-- One call. The heap gives what it may give. -/
def Pools.step (head name : Nat) (s : Pools) : PoolAct → Option Pools
  | .new turns handle pAddr blockCount blockSize =>
      if ∀ block ∈ handle, s.Fresh head block then
        (s.mpoolNew head name turns handle pAddr blockCount blockSize).map Prod.snd
      else none
  | .del handle => some (s.mpoolDel handle).2

end Rhino

end Wujian100
