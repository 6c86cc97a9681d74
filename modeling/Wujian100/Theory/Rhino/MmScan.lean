import Wujian100.Theory.Rhino.MmJoin

/-!
# The Loop over the Regions

`krhino_add_mm_region` goes once through the list of regions. What touches the memory that is
added is taken off the list and becomes part of it, on one side or the other and in any order;
what does not touch it stays. In the end nothing that is still on the list touches it.

A region that ends with a free block is not to be met before one that begins behind the memory:
`b0->size` is written anew for that one, and the mark of the free block is lost.

## Main definitions

* `Scan`: The heap and the variables before a turn of the loop.

## Theorems

* `Scan.unlink`: A region is taken off the list.
* `Scan.turn`: A turn of the loop.
* `Scan.loop`: All of them.
-/

namespace Wujian100

namespace Rhino

/-- The regions `ds` stay, and the regions `ts` are still to be met. The memory from `c.ib0` to the
    last header at `c.lb0` has the blocks `pre`, the hole at `c.b0` and the blocks `post`; with the
    regions on the list it has the bytes `P`. -/
structure Scan (P : Nat → Prop) (c : AddRegion) (ds ts : List MmRegion) (pre post : List Blk)
    (p : Nat) (pf : Bool) (len : Nat) : Prop where
  hole : Hole c.mm.mem c.ib0 c.lb0 (regionBlocks (ds ++ ts)) c.mm pre [] post p pf c.b0 len 0
  word : c.mm.size c.b0 = len + 2 * pf.toNat
  info : ∃ bs, pre = ⟨c.ib0, 8, false⟩ :: bs
  short : ∀ x ∈ pre ++ post, x.size < 2 ^ maxMmBit
  layout : Layout ds ts c.ib0 c.lb0
  listed : Listed c.mm c.ptr ds ts
  last : ∀ d ∈ ds.getLast?, c.ptrPrev = d.start + 8
  behind : post = [] ∨ ∀ t ∈ ts, t.start ≠ c.lb0 + 8
  before : pre = [⟨c.ib0, 8, false⟩] ∨ ∀ t ∈ ts, t.stop + 8 ≠ c.ib0
  marked : pf = true → ∀ t ∈ ts, t.start ≠ c.lb0 + 8
  room : lastBytes pre + len + firstBytes post + (ts.map (MmRegion.gain c.ib0 c.lb0)).sum
    < 2 ^ maxMmBit
  fixed : c.mm.fixedmblk ≠ 0 → ∃ x ∈ regionBlocks (ds ++ ts) ++ (pre ++ post),
    x.free = false ∧ x.addr = c.mm.fixedmblk ∧ x.addr ≠ c.ib0 ∧ ∀ r ∈ ds ++ ts, x.addr ≠ r.start
  bytes : ∀ w, P w ↔ Covered (ds ++ ts) w ∨ c.ib0 ≤ w ∧ w < c.lb0 + 8

section Blocks

variable {mem : Nat → Nat} {ds ts rs : List MmRegion} {r : MmRegion} {a₀ e : Nat} {x : Blk}

theorem mem_regionBlocks_middle :
    x ∈ regionBlocks (ds ++ r :: ts) ↔ x ∈ regionBlocks (ds ++ ts) ∨ x ∈ r.blocks := by
  simp only [mem_regionBlocks, mem_middle]
  constructor
  · rintro ⟨q, rfl | hq, hx⟩
    · exact Or.inr hx
    · exact Or.inl ⟨q, hq, hx⟩
  · rintro (⟨q, hq, hx⟩ | hx)
    · exact ⟨q, Or.inr hq, hx⟩
    · exact ⟨r, Or.inl rfl, hx⟩

/-- The blocks of regions elsewhere. -/
theorem region_of_laid (hpos : 0 < a₀) (htop : e + 8 ≤ 2 ^ 32) (hlaid : ∀ r ∈ rs, r.Laid mem)
    (hapart : ∀ r ∈ rs, r.stop + 8 ≤ a₀ ∨ e + 8 ≤ r.start) : Region a₀ e (regionBlocks rs) := by
  refine ⟨hpos, htop, fun x hx => ?_⟩
  obtain ⟨r, hr, hxr⟩ := mem_regionBlocks.mp hx
  obtain ⟨hshape, hlow, hhigh⟩ := (hlaid r hr).bounds hxr
  have hr' := hapart r hr
  exact ⟨hshape, (hlaid r hr).short x hxr, by omega⟩

end Blocks

section Scan

variable {P : Nat → Prop} {c : AddRegion} {ds ts : List MmRegion} {pre post : List Blk}
  {p b len ptr a₀ e keep : Nat} {pf : Bool} {r : MmRegion} {m₀ : Nat → Nat} {s : Mm}

/-- A region is taken off the list. All that is written is where the one before it tells which
    one is next. -/
theorem Scan.unlink (h : Scan P c ds (r :: ts) pre post p pf len) :
    c.unlink = { c with mm := c.unlink.mm, ptr := c.unlink.ptr } ∧
      c.unlink.mm.fixedmblk = c.mm.fixedmblk ∧
      Hole c.unlink.mm.mem c.ib0 c.lb0 (regionBlocks (ds ++ r :: ts)) c.unlink.mm pre [] post p pf
        c.b0 len 0 ∧
      c.unlink.mm.size c.b0 = len + 2 * pf.toNat ∧
      r.Laid c.unlink.mm.mem ∧ Listed c.unlink.mm c.unlink.ptr ds ts := by
  obtain ⟨hptr, hrest⟩ := h.listed.todo
  have hproper := h.layout.proper.2
  have hcross := (List.pairwise_append.mp h.layout.off).2.2
  have hdone := (List.pairwise_append.mp h.layout.off).1
  -- what is written, and the part of the list before the region
  obtain ⟨m, ri, hunlink, hsame, hseg⟩ : ∃ m ri,
      c.unlink = { c with
        mm := { c.mm with mem := m, regioninfo := ri }, ptr := c.mm.mem (r.start + 12) } ∧
      (∀ w, (∀ d ∈ ds, w ≠ d.start + 12) → m w = c.mm.mem w) ∧
      InfoSeg m ri ds (c.mm.mem (r.start + 12)) := by
    have hnext : c.mm.regionNext c.ptr = c.mm.mem (r.start + 12) := by
      rw [hptr]
      rfl
    have hstart := h.listed.done
    have hlast := h.last
    unfold AddRegion.unlink
    rw [hnext]
    dsimp only
    rcases List.eq_nil_or_concat ds with rfl | ⟨ds', d, rfl⟩
    · have hfirst : c.mm.regioninfo = c.ptr := hstart
      rw [if_pos hfirst]
      exact ⟨c.mm.mem, _, rfl, fun _ _ => rfl, rfl⟩
    · rw [List.concat_eq_append] at *
      -- another region is the first one of the list
      have hne : ¬c.mm.regioninfo = c.ptr := by
        obtain ⟨q, hq, hq'⟩ :=
          hstart.head (List.append_ne_nil_of_right_ne_nil _ (List.cons_ne_nil _ _))
        have hoff := hcross q hq r List.mem_cons_self
        have hlt := hproper q (List.mem_append_left _ hq)
        have hlt' := hproper r (Layout.head_mem _ r ts)
        unfold MmRegion.Off at hoff
        omega
      have hprev : c.ptrPrev = d.start + 8 := by
        refine hlast d ?_
        rw [List.getLast?_append, List.getLast?_singleton]
        rfl
      rw [if_neg hne]
      refine ⟨Function.update c.mm.mem (d.start + 12) (c.mm.mem (r.start + 12)), _, ?_, ?_,
        hstart.relink fun q hq heq => ?_⟩
      · unfold Mm.setRegionNext
        rw [hprev]
      · intro w hw
        exact Function.update_of_ne (hw d (List.mem_append_right _ List.mem_cons_self)) _ _
      · have hoff := (List.pairwise_append.mp hdone).2.2 q hq d List.mem_cons_self
        have hlt := hproper q (List.mem_append_left _ (List.mem_append_left _ hq))
        have hlt' := hproper d
          (List.mem_append_left _ (List.mem_append_right _ List.mem_cons_self))
        unfold MmRegion.Off at hoff
        omega
  have hlaid : ∀ q ∈ ds ++ r :: ts, q.Laid m := by
    intro q hq
    refine (h.listed.laid q hq).congr fun w hlow hhigh _ hw => hsame w fun d hd heq => ?_
    rcases eq_or_off h.layout.off hq (List.mem_append_left _ hd) with rfl | hoff
    · exact hw heq
    · have hlt := (h.listed.laid d (List.mem_append_left _ hd)).lt
      unfold MmRegion.Off at hoff
      omega
  -- the word is in the buffer of a first block
  have howned : ∀ w, ¬Owned (regionBlocks (ds ++ r :: ts) ++ (pre ++ post)) w →
      m w = c.mm.mem w := by
    refine fun w hw => hsame w fun d hd heq => hw ?_
    obtain ⟨bs, hbs⟩ := (h.listed.laid d (List.mem_append_left _ hd)).info
    refine ⟨⟨d.start, 8, false⟩, List.mem_append_left _ (mem_regionBlocks.mpr
      ⟨d, List.mem_append_left _ hd, hbs ▸ List.mem_cons_self⟩), rfl, ?_, ?_⟩
    · dsimp only
      omega
    · dsimp only
      omega
  have hhole := h.hole.write
    (t := { c.mm with mem := m, regioninfo := ri })
    (regionBlocks_apart h.listed.laid h.layout.off) howned rfl rfl rfl
  have hle := h.hole.le
  have hword : m (c.b0 + 4) = c.mm.mem (c.b0 + 4) := by
    refine hsame _ fun d hd heq => ?_
    have hd' := h.layout.done d hd
    have hlt := (h.listed.laid d (List.mem_append_left _ hd)).lt
    omega
  rw [hunlink]
  refine ⟨rfl, rfl, hhole, hword.trans h.word, hlaid r (Layout.head_mem ds r ts),
    fun q hq => hlaid q (mem_middle.mpr (Or.inr hq)), hseg, hrest.congr fun q hq => ?_⟩
  refine hsame _ fun d hd heq => ?_
  have hoff := hcross d hd q (List.mem_cons_of_mem r hq)
  have hlt := hproper d (List.mem_append_left _ hd)
  have hlt' := hproper q (List.mem_append_right _ (List.mem_cons_of_mem r hq))
  unfold MmRegion.Off at hoff
  omega

/-- The header of the hole is written, and what the header behind it tells. -/
theorem Hole.rewrite (h : Hole m₀ a₀ e (regionBlocks (ds ++ ts)) s pre [] post p pf b len keep)
    (hlisted : Listed s ptr ds ts)
    (hapart : ∀ r ∈ ds ++ ts, r.stop + 8 ≤ a₀ ∨ e + 8 ≤ r.start) :
    Hole ((s.setSize b (len + 2 * pf.toNat)).setPrev (b + 8 + len) b).mem a₀ e
        (regionBlocks (ds ++ ts)) ((s.setSize b (len + 2 * pf.toNat)).setPrev (b + 8 + len) b) pre
        [] post p pf b len 0 ∧
      ((s.setSize b (len + 2 * pf.toNat)).setPrev (b + 8 + len) b).size b = len + 2 * pf.toNat ∧
      Listed ((s.setSize b (len + 2 * pf.toNat)).setPrev (b + 8 + len) b) ptr ds ts := by
  have hle := h.le
  have hlong := h.long
  have h₁ := h.setSize (isPrevFree_tag hlong.2 false pf)
  refine ⟨(h₁.setNextPrev b).now, ?_, hlisted.congr rfl fun r hr w hlow hhigh _ => ?_⟩
  · rw [size_setPrev_of_ne (by omega), size_setSize_self]
  · have hr' := hapart r hr
    exact (Function.update_of_ne (by omega) _ _).trans (Function.update_of_ne (by omega) _ _)

/-- A header and a first block more. -/
theorem joined_size (h : len % 4 = 0) :
    mmAlignDown (len + blksize 8 + 2 * mmlistHeadSize) = len + 24 := by
  have hblk : blksize 8 = 8 := rfl
  unfold mmAlignDown mmlistHeadSize
  rw [hblk]
  omega

/-! ## The turns -/

/-- What the loop reads of the region it is at. -/
theorem Scan.reads (h : Scan P c ds (r :: ts) pre post p pf len) :
    c.ptr - mmlistHeadSize = r.start ∧ c.mm.size r.start = 8 ∧ c.mm.regionEnd c.ptr = r.stop ∧
      nextMmBlk (r.start + mmlistHeadSize) (blksize 8) = r.start + 16 ∧
      (r.start = nextMmBlk c.lb0 mmlistHeadSize ↔ r.start = c.lb0 + 8) ∧
      (nextMmBlk r.stop mmlistHeadSize = c.ib0 ↔ r.stop + 8 = c.ib0) := by
  have hlaid := h.listed.laid r (Layout.head_mem ds r ts)
  obtain ⟨hptr, -⟩ := h.listed.todo
  obtain ⟨-, -, hsize, -⟩ := hlaid.first
  have hlt := hlaid.lt
  have htop := hlaid.top
  have hpos := hlaid.pos
  have hpos' := h.hole.region.pos
  have htop' := h.hole.region.top
  have hle := h.hole.le
  have hblk : blksize 8 = 8 := rfl
  unfold nextMmBlk mmlistHeadSize
  rw [hptr, hblk]
  refine ⟨Nat.add_sub_cancel _ _, hsize, hlaid.tells, ?_, ?_, ?_⟩
  · omega
  · omega
  · omega

/-- The region does not touch the memory. -/
theorem Scan.turnSkip (h : Scan P c ds (r :: ts) pre post p pf len) (hbehind : r.start ≠ c.lb0 + 8)
    (hbefore : r.stop + 8 ≠ c.ib0) : Scan P c.turn (ds ++ [r]) ts pre post p pf len := by
  obtain ⟨hib, hsize, hlb, hb, hnext, hprev⟩ := h.reads
  obtain ⟨hptr, hrest⟩ := h.listed.todo
  have hturn : c.turn = { c with ptrPrev := c.ptr, ptr := c.mm.mem (r.start + 12) } := by
    unfold AddRegion.turn
    dsimp only
    rw [hib, hlb, if_neg fun hc => hbehind (hnext.mp hc), if_neg fun hc => hbefore (hprev.mp hc),
      hptr]
    rfl
  have happend : ds ++ [r] ++ ts = ds ++ r :: ts := List.append_cons ds r ts ▸ rfl
  have hgain : r.gain c.ib0 c.lb0 = 0 := by
    unfold MmRegion.gain
    rw [if_neg hbefore, if_neg hbehind]
  have hroom := h.room
  rw [List.map_cons, List.sum_cons, hgain, Nat.zero_add] at hroom
  have hskip := h.layout.skip hbehind hbefore
  rw [hturn]
  refine ⟨?_, h.word, h.info, h.short, hskip, ⟨?_, ?_, hrest⟩, fun d hd => ?_,
    h.behind.imp_right fun hne t ht => hne t (List.mem_cons_of_mem r ht),
    h.before.imp_right fun hne t ht => hne t (List.mem_cons_of_mem r ht),
    fun hpf t ht => h.marked hpf t (List.mem_cons_of_mem r ht), hroom, ?_, ?_⟩
  · rw [happend]
    exact h.hole
  · rw [happend]
    exact h.listed.laid
  · exact infoSeg_append.mpr ⟨c.ptr, h.listed.done, hptr, rfl⟩
  · rw [List.getLast?_append, List.getLast?_singleton] at hd
    obtain rfl := Option.some.inj hd
    exact hptr
  · rw [happend]
    exact h.fixed
  · rw [happend]
    exact h.bytes

/-- The region begins behind the memory. -/
theorem Scan.turnBehind (h : Scan P c ds (r :: ts) pre post p pf len)
    (hstart : r.start = c.lb0 + 8) :
    ∃ post' len', Scan P c.turn ds ts pre post' p false len' := by
  obtain ⟨hib, hsize, hlb, hb, hnext, -⟩ := h.reads
  obtain ⟨hunlink, hfixed, hhole, hword, hlaid, hlisted⟩ := h.unlink
  obtain ⟨hlayout, hne, hgains, hcovered⟩ := h.layout.behind hstart
  -- it is the first one that does, and no free block is before the hole
  obtain rfl := h.behind.resolve_right fun hc => hc r List.mem_cons_self hstart
  obtain rfl : pf = false := Bool.eq_false_of_not_eq_true fun hpf =>
    h.marked hpf r List.mem_cons_self hstart
  obtain ⟨bs, hblocks, hsize', -⟩ := hlaid.first
  have hlong := hhole.long
  have hle := hhole.le
  have htop := hlaid.top
  have hend : c.b0 + 8 + len = c.lb0 := hhole.rest
  have hjoin := hhole.joinBehind hlaid hstart hblocks
    (region_of_laid hhole.region.pos htop hlisted.laid fun q hq => hlayout.weak hq)
    fun x _ => mem_regionBlocks_middle
  obtain ⟨hhole', hword', hlisted'⟩ := hjoin.rewrite hlisted fun q hq => hlayout.weak hq
  have hb1 : c.b0 + 8 + (len + 24) = r.start + 16 := by omega
  have hturn : c.turn = { c with
      mm := (c.unlink.mm.setSize c.b0 (len + 24 + 2 * false.toNat)).setPrev
        (c.b0 + 8 + (len + 24)) c.b0
      ptr := c.unlink.ptr
      lb0 := r.stop } := by
    have hlen : blksize (len + 2 * false.toNat) = len := blksize_tag hlong.2 false false
    have hsize'' : c.unlink.mm.size r.start = 8 := hsize'
    have hdown : mmAlignDown (len + blksize 8 + 2 * mmlistHeadSize)
        = len + 24 + 2 * false.toNat := joined_size hlong.2
    unfold AddRegion.turn
    dsimp only
    rw [hib, hsize, hlb, hb, if_pos (hnext.mpr hstart), hunlink]
    dsimp only
    rw [hword, hlen, hsize'', hdown, hb1]
  have hroom := h.room
  have hgain : r.gain c.ib0 c.lb0 = 24 + firstBytes bs := by
    unfold MmRegion.gain
    have hlt := h.layout.proper.1
    have hlt' := hlaid.lt
    rw [if_neg (by omega), if_pos hstart, hblocks, List.tail_cons, Nat.zero_add]
  have hnone : firstBytes [] = 0 := rfl
  rw [List.map_cons, List.sum_cons, hgain, hnone] at hroom
  rw [hturn]
  refine ⟨bs, len + 24, hhole', hword', h.info, fun x hx => ?_, hlayout, hlisted', h.last,
    Or.inr hne, ?_, fun hc => absurd hc Bool.false_ne_true, ?_, fun hfix => ?_, fun w => ?_⟩
  · rcases List.mem_append.mp hx with hx | hx
    · exact h.short x (List.mem_append_left _ hx)
    · exact hlaid.short x (hblocks ▸ List.mem_cons_of_mem _ hx)
  · exact h.before.imp_right fun hne' t ht => hne' t (List.mem_cons_of_mem r ht)
  · dsimp only
    rw [List.map_congr_left hgains]
    omega
  · obtain ⟨x, hx, hxfree, haddr, hib', hstarts⟩ := h.fixed (hfixed ▸ hfix)
    refine ⟨x, ?_, hxfree, haddr.trans hfixed.symm, hib',
      fun q hq => hstarts q (mem_middle.mpr (Or.inr hq))⟩
    -- it is not the first block of the region
    have hfirst : x ≠ ⟨r.start, 8, false⟩ := by
      rintro rfl
      exact hstarts r (Layout.head_mem ds r ts) rfl
    rw [List.mem_append, mem_regionBlocks_middle, hblocks, List.mem_cons, or_iff_right hfirst,
      List.append_nil] at hx
    rw [List.mem_append, List.mem_append]
    tauto
  · exact (h.bytes w).trans (hcovered w)

/-- The region ends before the memory. -/
theorem Scan.turnBefore (h : Scan P c ds (r :: ts) pre post p pf len)
    (hbehind : r.start ≠ c.lb0 + 8) (hstop : r.stop + 8 = c.ib0) :
    ∃ pre' p' pf' len', Scan P c.turn ds ts pre' post p' pf' len' := by
  obtain ⟨hib, hsize, hlb, -, hnext, hprev⟩ := h.reads
  obtain ⟨hunlink, hfixed, hhole, hword, hlaid, hlisted⟩ := h.unlink
  obtain ⟨hlayout, hne, hgains, hcovered⟩ := h.layout.before hstop
  -- it is the first one that does
  obtain rfl := h.before.resolve_right fun hc => hc r List.mem_cons_self hstop
  obtain ⟨-, -, -, hheader, -, hpf, hb⟩ := hhole.seg
  dsimp only at hheader hpf hb
  subst hpf
  have hinfo : c.unlink.mm.size c.ib0 = 8 := hheader.1
  have hlong := hhole.long
  have hle := hhole.le
  have htop := hhole.region.top
  obtain ⟨p', pf', hjoin, hmark, hlast⟩ := hhole.joinBefore hlaid hstop
    (region_of_laid hlaid.pos htop hlisted.laid fun q hq => hlayout.weak hq)
    fun x _ => mem_regionBlocks_middle
  obtain ⟨hhole', hword', hlisted'⟩ := hjoin.rewrite hlisted fun q hq => hlayout.weak hq
  have hturn : c.turn = { c with
      mm := (c.unlink.mm.setSize r.stop (len + 24 + 2 * pf'.toNat)).setPrev
        (r.stop + 8 + (len + 24)) r.stop
      ptr := c.unlink.ptr
      b0 := r.stop
      ib0 := r.start } := by
    have hlen : blksize (len + 2 * false.toNat) = len := blksize_tag hlong.2 false false
    have hdown : mmAlignDown (len + blksize 8 + 2 * mmlistHeadSize) = len + 24 :=
      joined_size hlong.2
    have hpre : prestat (2 * pf'.toNat) = 2 * pf'.toNat := by
      unfold prestat
      cases pf' <;> rfl
    have hblk : blksize (len + 24 + 2 * pf'.toNat) = len + 24 :=
      @blksize_tag (len + 24) (by omega) false pf'
    have hnext' : nextMmBlk (r.stop + mmlistHeadSize) (len + 24) = r.stop + 8 + (len + 24) := by
      unfold nextMmBlk mmlistHeadSize
      omega
    unfold AddRegion.turn
    dsimp only
    rw [hib, hlb, if_neg fun hc => hbehind (hnext.mp hc), if_pos (hprev.mpr hstop), hunlink]
    dsimp only
    rw [hword, hlen, hinfo, hdown, hmark, hpre, size_setSize_self, hblk, hnext']
  have hroom := h.room
  have hgain : r.gain c.ib0 c.lb0 = 24 + lastBytes r.blocks := by
    unfold MmRegion.gain
    rw [if_pos hstop, if_neg hbehind, Nat.add_zero]
  have hnone : lastBytes [⟨c.ib0, 8, false⟩] = 0 := rfl
  rw [List.map_cons, List.sum_cons, hgain, hnone] at hroom
  rw [hturn]
  refine ⟨r.blocks, p', pf', len + 24, hhole', hword', hlaid.info, fun x hx => ?_, hlayout,
    hlisted', h.last, ?_, Or.inr hne, fun hpf t ht ht' => ?_, ?_, fun hfix => ?_, fun w => ?_⟩
  · rcases List.mem_append.mp hx with hx | hx
    · exact hlaid.short x hx
    · exact h.short x (List.mem_append_right _ hx)
  · exact h.behind.imp_right fun hne' t ht => hne' t (List.mem_cons_of_mem r ht)
  · -- a free block at its end, and a region behind the memory that is met later
    exact hlast hpf ((List.pairwise_cons.mp h.layout.order).1 t ht hstop ht')
  · dsimp only
    rw [List.map_congr_left hgains]
    omega
  · obtain ⟨x, hx, hxfree, haddr, hib', hstarts⟩ := h.fixed (hfixed ▸ hfix)
    refine ⟨x, ?_, hxfree, haddr.trans hfixed.symm, hstarts r (Layout.head_mem ds r ts),
      fun q hq => hstarts q (mem_middle.mpr (Or.inr hq))⟩
    have hfirst : x ≠ ⟨c.ib0, 8, false⟩ := by
      rintro rfl
      exact hib' rfl
    rw [List.mem_append, mem_regionBlocks_middle, List.mem_append, List.mem_singleton] at hx
    rw [List.mem_append, List.mem_append]
    tauto
  · exact (h.bytes w).trans (hcovered w)

/-- A turn of the loop. -/
theorem Scan.turn (h : Scan P c ds (r :: ts) pre post p pf len) :
    ∃ ds' pre' post' p' pf' len', Scan P c.turn ds' ts pre' post' p' pf' len' := by
  by_cases hbehind : r.start = c.lb0 + 8
  · obtain ⟨post', len', h'⟩ := h.turnBehind hbehind
    exact ⟨ds, pre, post', p, false, len', h'⟩
  · by_cases hbefore : r.stop + 8 = c.ib0
    · obtain ⟨pre', p', pf', len', h'⟩ := h.turnBefore hbehind hbefore
      exact ⟨ds, pre', post, p', pf', len', h'⟩
    · exact ⟨ds ++ [r], pre, post, p, pf, len, h.turnSkip hbehind hbefore⟩

/-- The loop comes to its end, and nothing that is still on the list touches the memory. -/
-- The induction is on the regions that are still to be met, of which every turn meets one.
theorem Scan.loop (h : Scan P c ds ts pre post p pf len) {fuel : Nat} (hfuel : ts.length < fuel) :
    ∃ c' ds' pre' post' p' pf' len', c.loop fuel = some c' ∧
      Scan P c' ds' [] pre' post' p' pf' len' := by
  induction ts generalizing c ds pre post p pf len fuel with
  | nil =>
      obtain ⟨n, rfl⟩ := Nat.exists_eq_succ_of_ne_zero (Nat.ne_of_gt hfuel)
      exact ⟨c, ds, pre, post, p, pf, len, if_pos h.listed.todo, h⟩
  | cons r ts ih =>
      obtain ⟨n, rfl⟩ := Nat.exists_eq_succ_of_ne_zero (Nat.ne_of_gt (Nat.zero_lt_of_lt hfuel))
      have hptr : c.ptr ≠ 0 := by
        rw [h.listed.todo.1]
        exact Nat.succ_ne_zero _
      obtain ⟨ds', pre', post', p', pf', len', h'⟩ := h.turn
      obtain ⟨c', hrest⟩ := ih h' (Nat.lt_of_succ_lt_succ hfuel)
      have hloop : c.loop (n + 1) = c.turn.loop n := if_neg hptr
      rw [hloop]
      exact ⟨c', hrest⟩

end Scan

end Rhino

end Wujian100
