import Wujian100.Core.Rhino.Mm

/-!
# More Regions

`krhino_add_mm_region` of `k_mm.c`. A region begins with a block of eight bytes, which holds where
the last header of the region is and where the next region has the same. Memory that is added
behind a region or in front of one becomes one region with it: its block and the headers between
them are one block, which is then given back.

## Main definitions

* `AddRegion`: What `krhino_add_mm_region` has in its variables.
* `AddRegion.turn`, `AddRegion.loop`: Its loop over the regions.
* `Mm.addMmRegion`: `krhino_add_mm_region`.
* `Mm.addStep`: Memory that is added.
-/

namespace Wujian100

namespace Rhino

/-- `ptr->end`. -/
def Mm.regionEnd (s : Mm) (ptr : Nat) : Nat := s.mem ptr

/-- `ptr->next`. -/
def Mm.regionNext (s : Mm) (ptr : Nat) : Nat := s.mem (ptr + 4)

/-- `ptr->end = p`. -/
def Mm.setRegionEnd (s : Mm) (ptr p : Nat) : Mm := { s with mem := Function.update s.mem ptr p }

/-- `ptr->next = p`. -/
def Mm.setRegionNext (s : Mm) (ptr p : Nat) : Mm :=
  { s with mem := Function.update s.mem (ptr + 4) p }

/-- The list of the regions from `ptr` on: where each begins, and its last header. -/
def Mm.regions (s : Mm) : Nat → Nat → List (Nat × Nat)
  | 0, _ => []
  | fuel + 1, ptr =>
      if ptr = 0 then []
      else (ptr - mmlistHeadSize, s.regionEnd ptr) :: s.regions fuel (s.regionNext ptr)

/-- The heap and the variables of `krhino_add_mm_region`. -/
structure AddRegion where
  mm : Mm
  ptr : Nat
  ptrPrev : Nat
  ib0 : Nat
  b0 : Nat
  lb0 : Nat

namespace AddRegion

/-- The region at `ptr` is taken off the list. -/
def unlink (c : AddRegion) : AddRegion :=
  let next := c.mm.regionNext c.ptr
  if c.mm.regioninfo = c.ptr then { c with mm := { c.mm with regioninfo := next }, ptr := next }
  else { c with mm := c.mm.setRegionNext c.ptrPrev next, ptr := next }

/-- The loop's body. -/
def turn (c : AddRegion) : AddRegion :=
  let ib1 := c.ptr - mmlistHeadSize
  let b1 := nextMmBlk (ib1 + mmlistHeadSize) (blksize (c.mm.size ib1))
  let lb1 := c.mm.regionEnd c.ptr
  if ib1 = nextMmBlk c.lb0 mmlistHeadSize then
    let c := c.unlink
    let size := mmAlignDown
      (blksize (c.mm.size c.b0) + blksize (c.mm.size ib1) + 2 * mmlistHeadSize)
    { c with mm := (c.mm.setSize c.b0 size).setPrev b1 c.b0, lb0 := lb1 }
  else if nextMmBlk lb1 mmlistHeadSize = c.ib0 then
    let c := c.unlink
    let size := mmAlignDown
      (blksize (c.mm.size c.b0) + blksize (c.mm.size c.ib0) + 2 * mmlistHeadSize)
    let mm := c.mm.setSize lb1 (size + prestat (c.mm.size lb1))
    let nextB := nextMmBlk (lb1 + mmlistHeadSize) (blksize (mm.size lb1))
    { c with mm := mm.setPrev nextB lb1, b0 := lb1, ib0 := ib1 }
  else { c with ptrPrev := c.ptr, ptr := c.mm.regionNext c.ptr }

/-- The loop, nothing where `fuel` turns are not enough. -/
def loop : Nat → AddRegion → Option AddRegion
  | 0, _ => none
  | fuel + 1, c => if c.ptr = 0 then some c else loop fuel c.turn

/-- The region becomes the first on the list, and its block is given back. -/
def finish (c : AddRegion) : Mm :=
  let ai := c.ib0 + mmlistHeadSize
  let s := (c.mm.setRegionNext ai c.mm.regioninfo).setRegionEnd ai c.lb0
  let s := { s with regioninfo := ai }
  let used := s.usedSize + (blksize (s.size c.b0) + mmlistHeadSize)
  let s := { s with usedSize := used, usedLog := used :: s.usedLog }
  s.free (c.b0 + mmlistHeadSize)

end AddRegion

/-- `memset`, of words. -/
def memset (mem : Nat → Nat) (addr value len : Nat) : Nat → Nat :=
  fun w => if addr ≤ w ∧ w < addr + len then value else mem w

/-- What is before the loop: `memset` and `init_mm_region`. -/
def Mm.startRegion (s : Mm) (addr len : Nat) : AddRegion :=
  let s := { s with mem := initMmRegion (memset s.mem addr 0 len) addr len }
  let ib0 := addr
  let b0 := nextMmBlk (ib0 + mmlistHeadSize) (blksize (s.size ib0))
  let lb0 := nextMmBlk (b0 + mmlistHeadSize) (blksize (s.size b0))
  ⟨s, s.regioninfo, 0, ib0, b0, lb0⟩

/-- `krhino_add_mm_region`, nothing where it fails. There are fewer than `2 ^ 32` regions. -/
def Mm.addMmRegion (s : Mm) (addr len : Nat) : Option Mm :=
  if addr = 0 then none
  else if addr % 4 ≠ 0 ∨ len ≠ mmAlignDown len then none
  else if len = 0 ∨ len < kMmRegionInfoSize + kMmListSize * 2 then none
  else ((s.startRegion addr len).loop (2 ^ 32)).map AddRegion.finish

/-- Memory that is added: where it begins and how many bytes it has. -/
def Mm.addStep (s : Mm) (area : Nat × Nat) : Option Mm := s.addMmRegion area.1 area.2

end Rhino

end Wujian100
