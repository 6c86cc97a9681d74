import Wujian100.Core.Rhino.MmRegions
import Wujian100.Theory.Rhino.MmCalls
import Mathlib.Data.List.Perm.Subperm

/-!
# The Regions of a Heap

The first block of a region tells where its last header is and where the next region on the list
has its first block. No two regions overlap or touch, since what touches becomes one, and the lists
of free blocks are those of all regions.

## Main definitions

* `MmRegion`, `MmRegion.Laid`: A region, and one that the memory tells.
* `InfoSeg`, `Listed`: The first blocks as a list in the memory.
* `Regions`: The regions of a heap.
* `Covered`: The bytes of the regions.
* `Mm.tailBytes`, `Mm.frontBytes`: The free block at an end of a region.

## Theorems

* `MmRegion.Laid.congr`: Only headers and the address of the last one matter.
* `InfoSeg.relink`: The list goes on elsewhere.
* `InfoSeg.regions_eq`: The list, as it can be read.
* `Listed.congr`: Only what is in the regions matters.
-/

namespace Wujian100

namespace Rhino

/-- Where the first block of a region is, where its last header is, and its blocks. -/
structure MmRegion where
  start : Nat
  stop : Nat
  blocks : List Blk

/-- The memory tells the region. Its blocks are none too long for the lists. -/
structure MmRegion.Laid (mem : Nat → Nat) (r : MmRegion) : Prop where
  pos : 0 < r.start
  top : r.stop + 8 ≤ 2 ^ 32
  chain : Chain mem r.stop 0 false r.start r.blocks
  info : ∃ bs, r.blocks = ⟨r.start, 8, false⟩ :: bs
  tells : mem (r.start + 8) = r.stop
  short : ∀ x ∈ r.blocks, x.size < 2 ^ maxMmBit

/-- Two regions neither overlap nor touch. -/
def MmRegion.Off (r q : MmRegion) : Prop := r.stop + 8 < q.start ∨ q.stop + 8 < r.start

/-- The blocks of all regions. -/
def regionBlocks (rs : List MmRegion) : List Blk := rs.flatMap MmRegion.blocks

/-- From `ptr` on the list has the first blocks of the regions, and goes on at `q`. -/
def InfoSeg (mem : Nat → Nat) : Nat → List MmRegion → Nat → Prop
  | ptr, [], q => ptr = q
  | ptr, r :: rs, q => ptr = r.start + 8 ∧ InfoSeg mem (mem (r.start + 12)) rs q

/-- The heap has these regions, in the order of its list, and its lists have their free blocks.
    The small blocks lie in a block that is allocated, and not the first one of a region. -/
structure Regions (s : Mm) (rs : List MmRegion) : Prop where
  infos : InfoSeg s.mem s.regioninfo rs 0
  laid : ∀ r ∈ rs, r.Laid s.mem
  off : rs.Pairwise MmRegion.Off
  lists : FreeLists s (regionBlocks rs)
  fixed : s.fixedmblk ≠ 0 → ∃ x ∈ regionBlocks rs, x.free = false ∧ x.addr = s.fixedmblk ∧
    ∀ r ∈ rs, x.addr ≠ r.start

/-- The list has the regions `ds` up to `ptr`, and from there on the regions `ts`. -/
structure Listed (s : Mm) (ptr : Nat) (ds ts : List MmRegion) : Prop where
  laid : ∀ r ∈ ds ++ ts, r.Laid s.mem
  done : InfoSeg s.mem s.regioninfo ds ptr
  todo : InfoSeg s.mem ptr ts 0

/-- The bytes of the last block of a region, if it is free, as the last header tells them. -/
def Mm.tailBytes (s : Mm) (lastblk : Nat) : Nat :=
  if isPrevFree (s.size lastblk) then 8 + blksize (s.size (s.prev lastblk)) else 0

/-- The bytes of the block behind the first one of a region, if it is free. -/
def Mm.frontBytes (s : Mm) (firstblk : Nat) : Nat :=
  if isFree (s.size (firstblk + 16)) then 8 + blksize (s.size (firstblk + 16)) else 0

/-- The byte is in one of the regions. -/
def Covered (rs : List MmRegion) (w : Nat) : Prop := ∃ r ∈ rs, r.start ≤ w ∧ w < r.stop + 8

section Laid

variable {mem mem' : Nat → Nat} {r q : MmRegion} {rs ts ds : List MmRegion} {x : Blk}
  {w p z z' : Nat} {s t : Mm}

/-! ## One region -/

theorem MmRegion.Laid.bounds (h : r.Laid mem) (hx : x ∈ r.blocks) :
    x.Shaped ∧ r.start ≤ x.addr ∧ x.addr + 8 + x.size ≤ r.stop :=
  h.chain.mem_le x hx

theorem MmRegion.Laid.lt (h : r.Laid mem) : r.start + 16 ≤ r.stop := by
  obtain ⟨bs, hbs⟩ := h.info
  have hin : (⟨r.start, 8, false⟩ : Blk) ∈ r.blocks := hbs ▸ List.mem_cons_self
  exact (h.bounds hin).2.2

/-- The other blocks are behind the first one. -/
theorem MmRegion.Laid.behind (h : r.Laid mem) (hx : x ∈ r.blocks) :
    x = ⟨r.start, 8, false⟩ ∨ r.start + 16 ≤ x.addr := by
  obtain ⟨bs, hbs⟩ := h.info
  have hsorted := h.chain.sorted
  rw [hbs] at hsorted hx
  exact (List.mem_cons.mp hx).imp_right fun hx => (List.pairwise_cons.mp hsorted).1 x hx

/-- The links of free blocks are behind the first block and before the last header. -/
theorem MmRegion.Laid.link (h : r.Laid mem) (hw : FreeLink r.blocks w) :
    r.start + 24 ≤ w ∧ w < r.stop := by
  obtain ⟨x, hx, hfree, hlink⟩ := hw
  obtain ⟨hshape, -, hle⟩ := h.bounds hx
  have hlong := hshape.1
  rcases h.behind hx with rfl | hbehind
  · cases hfree
  · omega

-- The words that matter are the two of each header and the one at `start + 8`. The word behind
-- that tells of another region.
theorem MmRegion.Laid.congr (h : r.Laid mem)
    (hsame : ∀ w, r.start ≤ w → w < r.stop + 8 → ¬FreeLink r.blocks w → w ≠ r.start + 12 →
      mem' w = mem w) : r.Laid mem' := by
  have hlt := h.lt
  have hapart := eq_or_apart h.chain.sorted
  have hheader : ∀ x ∈ r.blocks, ∀ w, (w = x.addr ∨ w = x.addr + 4) → mem' w = mem w := by
    intro x hx w hw
    have hx' := h.bounds hx
    have hlong := hx'.1.1
    refine hsame w (by omega) (by omega) ?_ ?_
    · rintro ⟨y, hy, -, hlink⟩
      have hlong' := (h.bounds hy).1.1
      rcases hapart x hx y hy with rfl | hxy
      · omega
      · unfold Blk.Apart Blk.Before at hxy
        omega
    · rcases h.behind hx with rfl | hbehind
      · dsimp only at hw
        omega
      · omega
  have hnot : ∀ w, w < r.start + 24 ∨ r.stop ≤ w → ¬FreeLink r.blocks w := by
    intro w hw hlink
    have hin := h.link hlink
    omega
  refine ⟨h.pos, h.top, h.chain.congr (fun x hx => ?_) ⟨?_, ?_⟩, h.info, ?_, h.short⟩
  · exact ⟨hheader x hx _ (Or.inl rfl), hheader x hx _ (Or.inr rfl)⟩
  · exact hsame _ (by omega) (by omega) (hnot _ (by omega)) (by omega)
  · exact hsame _ (by omega) (by omega) (hnot _ (by omega)) (by omega)
  · rw [hsame _ (by omega) (by omega) (hnot _ (by omega)) (by omega)]
    exact h.tells

/-- The headers of the first block and of the one behind it. -/
theorem MmRegion.Laid.first (h : r.Laid mem) :
    ∃ bs, r.blocks = ⟨r.start, 8, false⟩ :: bs ∧ mem (r.start + 4) = 8 ∧
      Chain mem r.stop r.start false (r.start + 16) bs := by
  obtain ⟨bs, hbs⟩ := h.info
  have hchain := h.chain
  rw [hbs] at hchain
  obtain ⟨-, -, -, hheader, hrest⟩ := hchain
  exact ⟨bs, hbs, hheader.1, hrest⟩

/-- The last header tells whether the last block is free, and how long it is. -/
theorem MmRegion.Laid.tailBytes_eq (h : r.Laid s.mem) :
    s.tailBytes r.stop = lastBytes r.blocks := by
  obtain ⟨p, pf, hseg, hsize, hprev⟩ := chain_seg.mp h.chain
  have hword : s.size r.stop = 0 + false.toNat + 2 * pf.toNat := hsize
  unfold Mm.tailBytes
  cases pf with
  | false =>
      rw [hword, if_neg fun hc => Bool.false_ne_true ((isPrevFree_tag rfl false false).mp hc),
        hseg.lastBytes_eq]
  | true =>
      obtain ⟨ys, q, p', hblocks, hfree, haddr, -, -, hheader, hshape⟩ := hseg.last
      have hsz : s.size q.addr = q.size + true.toNat + 2 * false.toNat := hheader.1
      have hp : s.prev r.stop = q.addr := (hprev rfl).trans haddr.symm
      rw [hword, if_pos ((isPrevFree_tag rfl false true).mpr rfl), hp, hsz,
        blksize_tag hshape.2 true false, hblocks, lastBytes_concat, if_pos hfree]

/-- The second header tells the same of the block behind the first one. -/
theorem MmRegion.Laid.frontBytes_eq (h : r.Laid s.mem) :
    s.frontBytes r.start = firstBytes r.blocks.tail := by
  obtain ⟨bs, hbs, -, hchain⟩ := h.first
  obtain ⟨-, hheader, hrest⟩ := chain_iff.mp hchain
  have hword : s.size (r.start + 16) = headSize bs + (headFree bs).toNat + 2 * false.toNat :=
    hheader.1
  have haligned : headSize bs % 4 = 0 := by
    cases bs with
    | nil => rfl
    | cons b bs => exact hrest.2.1.2
  have hiff := isFree_tag haligned (headFree bs) false
  rw [hbs, List.tail_cons]
  unfold Mm.frontBytes firstBytes
  rw [hword, blksize_tag haligned (headFree bs) false]
  split_ifs with hfree hhead hhead
  · rfl
  · exact absurd (hiff.mp hfree) hhead
  · exact absurd (hiff.mpr hhead) hfree
  · rfl

/-! ## All of them -/

theorem mem_regionBlocks : x ∈ regionBlocks rs ↔ ∃ r ∈ rs, x ∈ r.blocks := List.mem_flatMap

theorem freeLink_regionBlocks : FreeLink (regionBlocks rs) w ↔ ∃ r ∈ rs, FreeLink r.blocks w := by
  constructor
  · rintro ⟨x, hx, hrest⟩
    obtain ⟨r, hr, hx⟩ := mem_regionBlocks.mp hx
    exact ⟨r, hr, x, hx, hrest⟩
  · rintro ⟨r, hr, x, hx, hrest⟩
    exact ⟨x, mem_regionBlocks.mpr ⟨r, hr, hx⟩, hrest⟩

theorem MmRegion.Off.symm (h : r.Off q) : q.Off r := h.elim Or.inr Or.inl

/-- Regions of the list are the same or apart. -/
theorem eq_or_off (h : rs.Pairwise MmRegion.Off) (hr : r ∈ rs) (hq : q ∈ rs) :
    r = q ∨ r.Off q := by
  have hone : rs.Pairwise fun r q => r = q ∨ r.Off q := h.imp fun hrq => Or.inr hrq
  have htwo : rs.Pairwise (flip fun r q => r = q ∨ r.Off q) :=
    h.imp fun hrq => Or.inr hrq.symm
  exact List.Pairwise.forall_of_forall_of_flip (R := fun r q => r = q ∨ r.Off q)
    (fun r _ => Or.inl rfl) hone htwo hr hq

/-- No two blocks have a byte in common, whatever region they are of. -/
theorem regionBlocks_apart (hlaid : ∀ r ∈ rs, r.Laid mem) (hoff : rs.Pairwise MmRegion.Off) :
    ∀ x ∈ regionBlocks rs, ∀ y ∈ regionBlocks rs, x = y ∨ x.Apart y := by
  intro x hx y hy
  obtain ⟨r, hr, hxr⟩ := mem_regionBlocks.mp hx
  obtain ⟨q, hq, hyq⟩ := mem_regionBlocks.mp hy
  rcases eq_or_off hoff hr hq with rfl | hrq
  · exact eq_or_apart (hlaid r hr).chain.sorted x hxr y hyq
  · have hx' := (hlaid r hr).bounds hxr
    have hy' := (hlaid q hq).bounds hyq
    right
    unfold MmRegion.Off at hrq
    unfold Blk.Apart Blk.Before
    omega

/-! ## The list -/

theorem infoSeg_append :
    InfoSeg mem p (rs ++ ts) z ↔ ∃ q, InfoSeg mem p rs q ∧ InfoSeg mem q ts z := by
  induction rs generalizing p with
  | nil =>
      constructor
      · exact fun h => ⟨p, rfl, h⟩
      · rintro ⟨q, rfl, h⟩
        exact h
  | cons r rs ih =>
      constructor
      · rintro ⟨hp, hrest⟩
        obtain ⟨q, hrs, hts⟩ := ih.mp hrest
        exact ⟨q, ⟨hp, hrs⟩, hts⟩
      · rintro ⟨q, ⟨hp, hrs⟩, hts⟩
        exact ⟨hp, ih.mpr ⟨q, hrs, hts⟩⟩

theorem InfoSeg.congr (h : InfoSeg mem p rs z)
    (hsame : ∀ r ∈ rs, mem' (r.start + 12) = mem (r.start + 12)) : InfoSeg mem' p rs z := by
  induction rs generalizing p with
  | nil => exact h
  | cons r rs ih =>
      obtain ⟨hp, hrest⟩ := h
      refine ⟨hp, ?_⟩
      rw [hsame r List.mem_cons_self]
      exact ih hrest fun q hq => hsame q (List.mem_cons_of_mem r hq)

/-- The list begins with one of them. -/
theorem InfoSeg.head (h : InfoSeg mem p rs z) (hne : rs ≠ []) : ∃ r ∈ rs, p = r.start + 8 := by
  cases rs with
  | nil => exact absurd rfl hne
  | cons r rs => exact ⟨r, List.mem_cons_self, h.1⟩

/-- The last of them is to tell another one. -/
theorem InfoSeg.relink (h : InfoSeg mem p (rs ++ [r]) z) (hne : ∀ q ∈ rs, q.start ≠ r.start) :
    InfoSeg (Function.update mem (r.start + 12) z') p (rs ++ [r]) z' := by
  obtain ⟨q, hrs, hq, -⟩ := infoSeg_append.mp h
  refine infoSeg_append.mpr ⟨q, hrs.congr fun d hd => ?_, hq, Function.update_self _ _ _⟩
  have hd' := hne d hd
  exact Function.update_of_ne (by omega) _ _

/-- The list can be read. -/
theorem InfoSeg.regions_eq (h : InfoSeg s.mem p rs 0) (hlaid : ∀ r ∈ rs, r.Laid s.mem)
    {fuel : Nat} (hfuel : rs.length < fuel) :
    s.regions fuel p = rs.map fun r => (r.start, r.stop) := by
  induction rs generalizing p fuel with
  | nil =>
      obtain ⟨n, rfl⟩ := Nat.exists_eq_succ_of_ne_zero (Nat.ne_of_gt hfuel)
      exact if_pos h
  | cons r rs ih =>
      obtain ⟨n, rfl⟩ := Nat.exists_eq_succ_of_ne_zero (Nat.ne_of_gt (Nat.zero_lt_of_lt hfuel))
      obtain ⟨rfl, hrest⟩ := h
      have hr := hlaid r List.mem_cons_self
      have hnext := ih hrest (fun q hq => hlaid q (List.mem_cons_of_mem r hq))
        (Nat.lt_of_succ_lt_succ hfuel)
      unfold Mm.regions Mm.regionEnd Mm.regionNext mmlistHeadSize
      rw [if_neg (Nat.succ_ne_zero _), hr.tells, Nat.add_sub_cancel]
      exact congrArg _ hnext

/-- Only what is in the regions matters, and of that not the links of free blocks. -/
theorem Listed.congr (h : Listed s p ds ts) (hinfo : t.regioninfo = s.regioninfo)
    (hmem : ∀ r ∈ ds ++ ts, ∀ w, r.start ≤ w → w < r.stop + 8 → ¬FreeLink r.blocks w →
      t.mem w = s.mem w) : Listed t p ds ts := by
  have hnext : ∀ r ∈ ds ++ ts, t.mem (r.start + 12) = s.mem (r.start + 12) := by
    intro r hr
    have hlt := (h.laid r hr).lt
    refine hmem r hr _ (by omega) (by omega) fun hlink => ?_
    have hin := (h.laid r hr).link hlink
    omega
  refine ⟨fun r hr => ?_, ?_, ?_⟩
  · exact (h.laid r hr).congr fun w hw hw' hlink _ => hmem r hr w hw hw' hlink
  · rw [hinfo]
    exact h.done.congr fun r hr => hnext r (List.mem_append_left _ hr)
  · exact h.todo.congr fun r hr => hnext r (List.mem_append_right _ hr)

/-- There are fewer regions than addresses. -/
theorem length_lt (hlaid : ∀ r ∈ rs, r.Laid mem) (hoff : rs.Pairwise MmRegion.Off) :
    rs.length < 2 ^ 32 := by
  have hnodup : (rs.map MmRegion.start).Nodup := by
    refine List.pairwise_map.mpr (hoff.imp_of_mem fun {r q} hr hq hrq heq => ?_)
    have hr' := (hlaid r hr).lt
    have hq' := (hlaid q hq).lt
    rcases hrq with hrq | hrq
    · omega
    · omega
  have hsub : rs.map MmRegion.start ⊆ List.range' 1 (2 ^ 32 - 2) := by
    intro w hw
    obtain ⟨r, hr, rfl⟩ := List.mem_map.mp hw
    have hpos := (hlaid r hr).pos
    have hlt := (hlaid r hr).lt
    have htop := (hlaid r hr).top
    exact List.mem_range'_1.mpr ⟨hpos, by omega⟩
  have hle := (List.subperm_of_subset hnodup hsub).length_le
  rw [List.length_map, List.length_range'] at hle
  omega

end Laid

end Rhino

end Wujian100
