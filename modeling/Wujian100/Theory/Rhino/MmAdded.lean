import Wujian100.Theory.Rhino.MmScan
import Wujian100.Theory.Rhino.MmWraps

/-!
# Memory That Is Added

With the loop done, the memory is a region: its hole is given back, and it becomes the first on the
list. Whatever memory is added one after another, in any order and next to what is there or not,
the regions are all of it, no two of them touch, and each of them is blocks one behind the other.

That needs two conditions on what is added. `k_mm_free` does not ask whether `bitmap_search` has
succeeded, so that a free block of `2 ^ 20` bytes or more would be put in a list that does not
exist. And where a region before the memory ends with a free block, it has to be met after the
region behind it.

## Main definitions

* `Mm.gain`, `Mm.addSafe`: Memory that may be added.
* `Accepts`, `AreaApart`: Memory that `krhino_add_mm_region` takes.
* `RegionsRight`: What is to hold of the regions.

## Theorems

* `Scan.finish`: The memory becomes a region.
* `Regions.start`: What is before the loop.
* `Regions.add`: A call.
* `regions_added`: Any number of them.
-/

namespace Wujian100

namespace Rhino

/-- What a region adds to the block of the memory from `lo` to `hi`, as its headers tell. -/
def Mm.gain (s : Mm) (lo hi : Nat) (r : Nat × Nat) : Nat :=
  (if r.2 + 8 = lo then 24 + s.tailBytes r.2 else 0) +
    if r.1 = hi then 24 + s.frontBytes r.1 else 0

/-- The block that comes of the memory is not too long for the lists, and no region that ends before
    it with a free block is on the list before one that begins behind it. -/
def Mm.addSafe (s : Mm) (area : Nat × Nat) : Prop :=
  area.2 - 32 + ((s.regions (2 ^ 32) s.regioninfo).map (s.gain area.1 (area.1 + area.2))).sum
    < 2 ^ maxMmBit ∧
  (s.regions (2 ^ 32) s.regioninfo).Pairwise fun r q =>
    r.2 + 8 = area.1 → q.1 = area.1 + area.2 → s.tailBytes r.2 = 0

instance (s : Mm) (area : Nat × Nat) : Decidable (s.addSafe area) :=
  inferInstanceAs (Decidable (_ ∧ _))

/-- Memory that there is, and that passes the checks of `krhino_add_mm_region`. -/
def Accepts (area : Nat × Nat) : Prop :=
  area.1 ≠ 0 ∧ area.1 % 4 = 0 ∧ area.2 % 4 = 0 ∧ 40 ≤ area.2 ∧ area.1 + area.2 ≤ 2 ^ 32

instance (area : Nat × Nat) : Decidable (Accepts area) := inferInstanceAs (Decidable (_ ∧ _))

/-- Two pieces of memory have no byte in common. -/
def AreaApart (x y : Nat × Nat) : Prop := x.1 + x.2 ≤ y.1 ∨ y.1 + y.2 ≤ x.1

instance : DecidableRel AreaApart := fun _ _ => inferInstanceAs (Decidable (_ ∨ _))

/-- The regions have the bytes `P`. They are the ones on the list, no two of them overlap or touch,
    each of them is blocks one behind the other, and every free block has a list. -/
def RegionsRight (P : Nat → Prop) (s : Mm) : Prop :=
  ∃ rs, Regions s rs ∧ s.regions (2 ^ 32) s.regioninfo = rs.map (fun r => (r.start, r.stop)) ∧
    (∀ w, Covered rs w ↔ P w) ∧ ∀ x ∈ regionBlocks rs, x.free = true →
      (bitmapSearch x.size .insert).2.1 < fltSize ∧ (bitmapSearch x.size .insert).2.2 < sltSize

section Sizes

variable {mem : Nat → Nat} {e p p' a a' : Nat} {pf pf' : Bool} {bs xs : List Blk} {x : Blk}

theorem tag_lt (size : Nat) (free q : Bool) : size + free.toNat + 2 * q.toNat < size + 4 := by
  have hfree := Bool.toNat_le free
  have hq := Bool.toNat_le q
  omega

/-- What a header holds is little more than the size. -/
theorem Seg.word_lt (h : Seg mem p pf a xs p' pf' a') (hx : x ∈ xs) :
    mem (x.addr + 4) < x.size + 4 := by
  induction xs generalizing p pf a with
  | nil => cases hx
  | cons y ys ih =>
      obtain ⟨rfl, -, -, hheader, hrest⟩ := h
      rcases List.mem_cons.mp hx with rfl | hx
      · rw [hheader.1]
        exact tag_lt _ _ _
      · exact ih hrest hx

theorem Chain.word_lt (h : Chain mem e p pf a bs) (hx : x ∈ bs) :
    mem (x.addr + 4) < x.size + 4 := by
  obtain ⟨p', pf', hseg, -⟩ := chain_seg.mp h
  exact hseg.word_lt hx

/-- A block that begins where the others do is the first one. -/
theorem Chain.head_of_mem (h : Chain mem e p pf a bs) (hx : x ∈ bs) (haddr : x.addr = a) :
    ∃ bs', bs = x :: bs' := by
  cases bs with
  | nil => cases hx
  | cons y ys =>
      obtain ⟨rfl, -, -, -, hrest⟩ := h
      rcases List.mem_cons.mp hx with rfl | hx
      · exact ⟨ys, rfl⟩
      · have hlow := (hrest.mem_le x hx).2.1
        omega

variable {m₀ : Nat → Nat} {a₀ b len keep : Nat} {os pre post : List Blk} {s : Mm}

theorem Hole.word_lt (h : Hole m₀ a₀ e os s pre [] post p pf b len keep) (hx : x ∈ pre ++ post) :
    s.size x.addr < x.size + 4 := by
  rcases List.mem_append.mp hx with hx | hx
  · exact h.seg.word_lt hx
  · obtain ⟨q, hq⟩ := h.tag
    have hrest := h.rest
    cases post with
    | nil => cases hx
    | cons y ys =>
        obtain ⟨haddr, -, hchain⟩ := hrest
        rcases List.mem_cons.mp hx with rfl | hx
        · rw [haddr, hq]
          exact tag_lt _ _ _
        · exact hchain.word_lt hx

end Sizes

section Finish

variable {P : Nat → Prop} {c : AddRegion} {ds rs : List MmRegion} {pre post : List Blk}
  {p len A L S : Nat} {pf : Bool} {s : Mm}

/-! ## The memory becomes a region -/

/-- The heap before the hole is given back. -/
def AddRegion.entered (c : AddRegion) : Mm :=
  let ai := c.ib0 + mmlistHeadSize
  let s := (c.mm.setRegionNext ai c.mm.regioninfo).setRegionEnd ai c.lb0
  let s := { s with regioninfo := ai }
  let used := s.usedSize + (blksize (s.size c.b0) + mmlistHeadSize)
  { s with usedSize := used, usedLog := used :: s.usedLog }

theorem AddRegion.entered_mem_of_ne {w : Nat} (h : w ≠ c.ib0 + 8) (h' : w ≠ c.ib0 + 12) :
    c.entered.mem w = c.mm.mem w :=
  (Function.update_of_ne h _ _).trans (Function.update_of_ne h' _ _)

theorem AddRegion.entered_end (c : AddRegion) : c.entered.mem (c.ib0 + 8) = c.lb0 :=
  Function.update_self _ _ _

theorem AddRegion.entered_next (c : AddRegion) :
    c.entered.mem (c.ib0 + 12) = c.mm.regioninfo :=
  (Function.update_of_ne (by unfold mmlistHeadSize; omega) _ _).trans
    (Function.update_self (c.ib0 + 12) _ _)

/-- The first block of the memory holds where its end is and which region is next. -/
theorem Scan.enter (h : Scan P c ds [] pre post p pf len) :
    Hole c.entered.mem c.ib0 c.lb0 (regionBlocks ds) c.entered pre [] post p pf c.b0 len 0 ∧
      c.entered.size c.b0 = len + 2 * pf.toNat := by
  obtain ⟨bs, hpre⟩ := h.info
  have hfirst : (⟨c.ib0, 8, false⟩ : Blk) ∈ pre := hpre ▸ List.mem_cons_self
  have hbound := (h.hole.pre_le hfirst).2.2
  dsimp only at hbound
  have hlaid := h.listed.laid
  have hoff := h.layout.off
  have hhole := h.hole
  rw [List.append_nil] at hlaid hoff hhole
  constructor
  · refine hhole.write (regionBlocks_apart hlaid hoff) (fun w hw => ?_) rfl rfl rfl
    -- both words are in the buffer of the first block
    have hin : ∀ v, v = c.ib0 + 8 ∨ v = c.ib0 + 12 →
        Owned (regionBlocks ds ++ (pre ++ post)) v := by
      intro v hv
      refine ⟨_, List.mem_append_right _ (List.mem_append_left _ hfirst), rfl, ?_, ?_⟩
      · dsimp only
        omega
      · dsimp only
        omega
    exact AddRegion.entered_mem_of_ne (fun hc => hw (hin w (Or.inl hc)))
      fun hc => hw (hin w (Or.inr hc))
  · have hsame : c.entered.size c.b0 = c.mm.size c.b0 :=
      AddRegion.entered_mem_of_ne (by omega) (by omega)
    rw [hsame]
    exact h.word

/-- The hole is not taken for a small block. -/
theorem Scan.finish_eq (h : Scan P c ds [] pre post p pf len) :
    c.finish = c.entered.tlsfFree c.b0 := by
  obtain ⟨hhole, -⟩ := h.enter
  have hle := hhole.le
  have hne : ¬(c.entered.fixedmblk ≠ 0 ∧ c.entered.isFixedBlk (c.b0 + mmlistHeadSize)) := by
    rintro ⟨hfix, hlow, hhigh⟩
    have hsame : c.entered.fixedmblk = c.mm.fixedmblk := rfl
    obtain ⟨x, hx, hfree, haddr, -, -⟩ := h.fixed hfix
    rw [hsame, ← haddr] at hlow hhigh
    rw [List.append_nil] at hx
    -- its block ends before the hole, or begins behind it
    have hword : c.entered.size x.addr < x.size + 4 := by
      rcases List.mem_append.mp hx with hx | hx
      · obtain ⟨d, hd, hxd⟩ := mem_regionBlocks.mp hx
        have hd' := h.listed.laid d (List.mem_append_left _ hd)
        have hx' := hd'.bounds hxd
        have hapart := h.layout.done d hd
        have hlt := h.layout.proper.1
        have hmem : c.entered.size x.addr = c.mm.size x.addr :=
          AddRegion.entered_mem_of_ne (by omega) (by omega)
        rw [hmem]
        exact hd'.chain.word_lt hxd
      · exact hhole.word_lt hx
    have hout : x.addr + 8 + x.size ≤ c.b0 ∨ c.b0 + 8 ≤ x.addr := by
      rcases List.mem_append.mp hx with hx | hx
      · have hx' := (hhole.region.apart x hx).2.2
        omega
      · rcases List.mem_append.mp hx with hx | hx
        · exact Or.inl (hhole.pre_le hx).2.2
        · have hx' := (hhole.post_le hx).2.1
          omega
    unfold mmlistHeadSize at hlow hhigh
    omega
  have hfinish : c.finish = c.entered.free (c.b0 + mmlistHeadSize) := rfl
  rw [hfinish]
  have hpos : c.b0 + mmlistHeadSize ≠ 0 := Nat.succ_ne_zero _
  unfold Mm.free
  rw [if_neg hpos, if_neg hne]
  rfl

/-- The hole is given back, and the memory is a region. -/
theorem Scan.finish (h : Scan P c ds [] pre post p pf len) :
    ∃ rs, Regions c.finish rs ∧ ∀ w, Covered rs w ↔ P w := by
  obtain ⟨hhole, hword⟩ := h.enter
  obtain ⟨bs, hpre⟩ := h.info
  have hfirst : (⟨c.ib0, 8, false⟩ : Blk) ∈ pre := hpre ▸ List.mem_cons_self
  have hroom := h.room
  rw [List.map_nil, List.sum_nil, Nat.add_zero] at hroom
  obtain ⟨pre', b', len', post', hrep, hlen, hpre', hpost', hallocs, hallocs', -, honly, hframe⟩ :=
    hhole.giveBack hword hroom
  rw [← h.finish_eq] at hrep honly hframe
  have hlaid := h.listed.laid
  have hoff := h.layout.off
  have hfixed := h.fixed
  have hbytes := h.bytes
  rw [List.append_nil] at hlaid hoff hfixed hbytes
  -- what its first block holds is still there
  have hinfo : ∀ w, c.ib0 + 8 ≤ w → w < c.ib0 + 16 → c.finish.mem w = c.entered.mem w :=
    fun w hw hw' => hframe w (Or.inr ⟨_, List.mem_append_left _ hfirst, rfl, hw, hw'⟩)
  -- and so is what is in the other regions
  have hothers : Listed { c.finish with regioninfo := c.mm.regioninfo } c.ptr ds [] := by
    have hlisted := h.listed
    refine hlisted.congr rfl fun d hd w hlow hhigh hlink => ?_
    rw [List.append_nil] at hd
    have hd' := h.layout.done d hd
    have hlt := (hlaid d hd).lt
    have hle := hhole.le
    have hlong := hhole.long
    refine (hframe w (Or.inl ⟨by omega, fun hc => ?_⟩)).trans
      (AddRegion.entered_mem_of_ne (by omega) (by omega))
    obtain ⟨q, hq, hqlink⟩ := freeLink_regionBlocks.mp hc
    rcases eq_or_off hoff hd hq with rfl | hdq
    · exact hlink hqlink
    · have hin := (hlaid q hq).link hqlink
      unfold MmRegion.Off at hdq
      omega
  have hptr : c.ptr = 0 := h.listed.todo
  have hmem : ∀ x : Blk, x.free = false → x ∈ pre ++ post →
      x ∈ pre' ++ ⟨b', len', true⟩ :: post' := by
    intro x hfree hx
    rw [List.mem_append, List.mem_cons]
    rcases List.mem_append.mp hx with hx | hx
    · have hx' : x ∈ allocs pre' := hallocs ▸ mem_allocs.mpr ⟨hx, hfree⟩
      exact Or.inl (mem_allocs.mp hx').1
    · have hx' : x ∈ allocs post' := hallocs' ▸ mem_allocs.mpr ⟨hx, hfree⟩
      exact Or.inr (Or.inr (mem_allocs.mp hx').1)
  have hnew : MmRegion.Laid c.finish.mem ⟨c.ib0, c.lb0, pre' ++ ⟨b', len', true⟩ :: post'⟩ := by
    refine ⟨hrep.region.pos, hrep.region.top, hrep.chain,
      hrep.chain.head_of_mem (hmem _ rfl (List.mem_append_left _ hfirst)) rfl, ?_, fun x hx => ?_⟩
    · rw [hinfo _ (Nat.le_refl _) (by omega)]
      exact c.entered_end
    · rcases List.mem_append.mp hx with hx | hx
      · exact h.short x (List.mem_append_left _ (hpre' x hx))
      · rcases List.mem_cons.mp hx with rfl | hx
        · dsimp only
          omega
        · exact h.short x (List.mem_append_right _ (hpost' x hx))
  -- The new region is the first of the list, with what it joined.
  refine ⟨⟨c.ib0, c.lb0, pre' ++ ⟨b', len', true⟩ :: post'⟩ :: ds, ⟨⟨honly.regioninfo, ?_⟩, ?_, ?_,
    ?_, fun hfix => ?_⟩, fun w => ?_⟩
  · dsimp only
    rw [hinfo _ (by omega) (by omega), c.entered_next, ← hptr]
    exact hothers.done
  · intro r hr
    rcases List.mem_cons.mp hr with rfl | hr
    · exact hnew
    · exact hothers.laid r (List.mem_append_left _ hr)
  · refine List.pairwise_cons.mpr ⟨fun d hd => ?_, hoff⟩
    have hd' := h.layout.done d hd
    exact hd'.symm
  · refine hrep.lists.same fun x _ => ?_
    have hcons : regionBlocks (⟨c.ib0, c.lb0, pre' ++ ⟨b', len', true⟩ :: post'⟩ :: ds)
        = (pre' ++ ⟨b', len', true⟩ :: post') ++ regionBlocks ds := rfl
    rw [hcons, List.mem_append, List.mem_append (s := regionBlocks ds), or_comm]
  · have hsame : c.finish.fixedmblk = c.mm.fixedmblk := honly.fixedmblk
    rw [hsame] at hfix ⊢
    obtain ⟨x, hx, hfree, haddr, hib, hstarts⟩ := hfixed hfix
    refine ⟨x, ?_, hfree, haddr, fun r hr => ?_⟩
    · rcases List.mem_append.mp hx with hx | hx
      · exact List.mem_append_right _ hx
      · exact List.mem_append_left _ (hmem x hfree hx)
    · rcases List.mem_cons.mp hr with rfl | hr
      · exact hib
      · exact hstarts r hr
  · rw [hbytes w]
    unfold Covered
    rw [List.exists_mem_cons_iff, or_comm]

/-! ## The beginning -/

/-- What is before the loop: a region of its own, with a hole in it. -/
theorem Regions.start (h : Regions s rs) (hpos : 0 < A) (hlen : L = S + 32) (haligned : S % 4 = 0)
    (hlong : 8 ≤ S) (htop : A + L ≤ 2 ^ 32)
    (hapart : ∀ r ∈ rs, r.stop + 8 ≤ A ∨ A + L ≤ r.start) (hsafe : s.addSafe (A, L)) :
    Scan (fun w => Covered rs w ∨ A ≤ w ∧ w < A + L) (s.startRegion A L) [] rs [⟨A, 8, false⟩] []
      A false S := by
  have hlist := h.infos.regions_eq h.laid (length_lt h.laid h.off)
  obtain ⟨hroom, horder⟩ := hsafe
  rw [hlist] at hroom horder
  dsimp only at hroom horder
  -- what is cleared and written lies in the memory
  have hout : ∀ w, w < A ∨ A + L ≤ w →
      initMmRegion (memset s.mem A 0 L) A L w = s.mem w := by
    intro w hw
    rw [initMmRegion_frame hlen haligned hw]
    exact if_neg (by omega)
  obtain ⟨hfirst, hcur, -⟩ := @initMmRegion_headers (memset s.mem A 0 L) A L S hlen
    haligned
  -- The info block, and behind it the block that is given back at the end.
  have hstart : s.startRegion A L =
      { mm := { s with mem := initMmRegion (memset s.mem A 0 L) A L }
        ptr := s.regioninfo
        ptrPrev := 0
        ib0 := A
        b0 := A + 16
        lb0 := A + 24 + S } := by
    have height : blksize 8 = 8 := rfl
    have hblk : blksize S = S := @blksize_tag S haligned false false
    have hb : nextMmBlk (A + mmlistHeadSize) 8 = A + 16 := by
      unfold nextMmBlk mmlistHeadSize
      omega
    have hlb : nextMmBlk (A + 16 + mmlistHeadSize) S = A + 24 + S := by
      unfold nextMmBlk mmlistHeadSize
      omega
    unfold Mm.startRegion Mm.size
    dsimp only
    rw [hfirst, height, hb, hcur, hblk, hlb]
  have htails : ∀ r ∈ rs, s.tailBytes r.stop = lastBytes r.blocks :=
    fun r hr => (h.laid r hr).tailBytes_eq
  have hgain : ∀ r ∈ rs, s.gain A (A + L) (r.start, r.stop) = r.gain A (A + 24 + S) := by
    intro r hr
    unfold Mm.gain MmRegion.gain
    dsimp only
    rw [htails r hr, (h.laid r hr).frontBytes_eq, show A + L = A + 24 + S + 8 by omega]
  have hregion : Region A (A + 24 + S) (regionBlocks rs) :=
    region_of_laid hpos (by omega) h.laid fun r hr => by
      have hr' := hapart r hr
      omega
  -- No free block of the heap lies where the region is, so the lists are as they were.
  have hlinks : FreeLists { s with mem := initMmRegion (memset s.mem A 0 L) A L }
      (regionBlocks rs) := by
    refine h.lists.congr (fun w hw => hout w ?_) rfl rfl rfl
    obtain ⟨r, hr, hlink⟩ := freeLink_regionBlocks.mp hw
    have hin := (h.laid r hr).link hlink
    have hr' := hapart r hr
    omega
  rw [hstart]
  refine ⟨initMmRegion_hole rfl hregion hlinks hlen haligned hlong, hcur, ⟨[], rfl⟩,
    fun x hx => ?_, ⟨⟨by dsimp only; omega, fun r hr => ?_⟩, h.off, fun d hd => ?_, fun r hr => ?_,
    ?_⟩, ?_, fun d hd => ?_, Or.inl rfl, Or.inl rfl, fun hc => absurd hc Bool.false_ne_true, ?_,
    fun hfix => ?_, fun w => ?_⟩
  · rw [List.append_nil, List.mem_singleton] at hx
    rw [hx]
    exact Nat.lt_of_lt_of_le (by decide : 8 < 2 ^ 4) (by decide)
  · have hlt := (h.laid r hr).lt
    omega
  · cases hd
  · have hr' := hapart r hr
    dsimp only
    omega
  · refine (List.pairwise_map.mp horder).imp_of_mem fun {r q} hr hq hrq hstop hbegin => ?_
    rw [← htails r hr]
    refine hrq hstop ?_
    dsimp only at hbegin ⊢
    omega
  · have hlisted : Listed s s.regioninfo [] rs := ⟨h.laid, rfl, h.infos⟩
    refine hlisted.congr rfl fun r hr w hlow hhigh _ => hout w ?_
    have hr' := hapart r hr
    omega
  · cases hd
  · rw [List.map_map] at hroom
    have hsum : List.map (s.gain A (A + L) ∘ fun r : MmRegion => (r.start, r.stop)) rs
        = List.map (MmRegion.gain A (A + 24 + S)) rs := List.map_congr_left hgain
    have hnone : lastBytes [⟨A, 8, false⟩] = 0 := rfl
    have hnone' : firstBytes [] = 0 := rfl
    rw [hsum] at hroom
    dsimp only
    rw [hnone, hnone']
    omega
  · obtain ⟨x, hx, hfree, haddr, hstarts⟩ := h.fixed hfix
    refine ⟨x, List.mem_append_left _ hx, hfree, haddr, fun hc => ?_, hstarts⟩
    have hx' := hregion.apart x hx
    dsimp only at hc
    omega
  · dsimp only
    rw [List.nil_append, show A + 24 + S + 8 = A + L by omega]

/-! ## A call -/

/-- Memory is added, and the regions have its bytes as well. -/
theorem Regions.add (h : Regions s rs) (hok : Accepts (A, L))
    (hapart : ∀ r ∈ rs, r.stop + 8 ≤ A ∨ A + L ≤ r.start) (hsafe : s.addSafe (A, L)) :
    ∃ t ts, s.addStep (A, L) = some t ∧ Regions t ts ∧
      ∀ w, Covered ts w ↔ Covered rs w ∨ A ≤ w ∧ w < A + L := by
  obtain ⟨hne, halign, hlen, hlong, htop⟩ := hok
  dsimp only at hne halign hlen hlong htop
  have hscan := h.start (Nat.pos_of_ne_zero hne) (show L = L - 32 + 32 by omega) (by omega)
    (by omega) htop hapart hsafe
  obtain ⟨c, ds, pre, post, p, pf, len, hloop, hend⟩ := hscan.loop (length_lt h.laid h.off)
  obtain ⟨ts, hts, hcovered⟩ := hend.finish
  refine ⟨c.finish, ts, ?_, hts, hcovered⟩
  have hdown : L = mmAlignDown L := by
    unfold mmAlignDown
    omega
  unfold Mm.addStep Mm.addMmRegion kMmRegionInfoSize kMmListSize
  dsimp only
  rw [if_neg hne, if_neg (by omega), if_neg (by omega), hloop]
  rfl

end Finish

section Runs

variable {P : Nat → Prop} {mem : Nat → Nat} {addr len a₀ e left : Nat} {c : Bool} {s₀ t : Mm}
  {priv L : List Blk} {s : MmSys} {acts : List HeapAct} {as : List (Nat × Nat)}
  {rs : List MmRegion}

/-! ## Runs -/

/-- The heap that its users have had so far is one region. -/
theorem HeapView.regions (h : HeapView len a₀ e s priv L left c) :
    ∃ bs, Regions s.mm [⟨a₀, e, bs⟩] := by
  obtain ⟨as, hperm, bs, hrep, hallocs, -⟩ := h.has
  obtain ⟨hinfo, hend, hnext⟩ := h.info
  have hin : ∀ x ∈ priv, x ∈ bs ∧ x.free = false := by
    intro x hx
    have hx' : x ∈ allocs bs := hallocs ▸ hperm.mem_iff.mpr (List.mem_append_left L hx)
    exact mem_allocs.mp hx'
  have hlaid : MmRegion.Laid s.mm.mem ⟨a₀, e, bs⟩ := by
    refine ⟨hrep.region.pos, hrep.region.top, hrep.chain,
      hrep.chain.head_of_mem (hin _ h.priv.first).1 rfl, hend, fun x hx => ?_⟩
    obtain ⟨-, hlow, hhigh⟩ := hrep.chain.mem_le x hx
    have hshort := h.short
    omega
  refine ⟨bs, ⟨hinfo, hnext⟩, fun r hr => List.mem_singleton.mp hr ▸ hlaid,
    List.pairwise_singleton _ _, ?_, fun hfix => ?_⟩
  · refine hrep.lists.same fun x _ => ?_
    have hone : regionBlocks [⟨a₀, e, bs⟩] = bs := List.append_nil bs
    rw [hone, List.nil_append]
  · -- the small blocks are behind the first block
    rcases h.priv with ⟨-, hnone, -⟩ | ⟨fb, rfl, haddr, hpool⟩
    · exact absurd hnone hfix
    · obtain ⟨hfb, hfree⟩ := hin fb (List.mem_cons_of_mem _ List.mem_cons_self)
      refine ⟨fb, List.mem_append_left _ hfb, hfree, hpool.fixed.symm, fun r hr => ?_⟩
      rw [List.mem_singleton.mp hr]
      dsimp only
      omega

theorem Regions.right (h : Regions t rs) (hcovered : ∀ w, Covered rs w ↔ P w) :
    RegionsRight P t := by
  refine ⟨rs, h, h.infos.regions_eq h.laid (length_lt h.laid h.off), hcovered, fun x hx _ => ?_⟩
  obtain ⟨r, hr, hxr⟩ := mem_regionBlocks.mp hx
  obtain ⟨hflt, hslt, -⟩ :=
    classOf_spec ((h.laid r hr).bounds hxr).1.2 ((h.laid r hr).short x hxr)
  exact ⟨hflt, hslt⟩

/-- A region and memory without a byte in common, one of which is behind the other. -/
theorem apart_of_not_covered {r : MmRegion} {area : Nat × Nat} (hlt : r.start < r.stop)
    (hlong : 0 < area.2)
    (hout : ∀ w, r.start ≤ w → w < r.stop + 8 → w < area.1 ∨ area.1 + area.2 ≤ w) :
    r.stop + 8 ≤ area.1 ∨ area.1 + area.2 ≤ r.start := by
  have hstart := hout r.start (Nat.le_refl _) (by omega)
  by_cases hin : r.start ≤ area.1 ∧ area.1 < r.stop + 8
  · have harea := hout area.1 hin.1 hin.2
    omega
  · omega

/-- Memory is added one piece after another. -/
theorem Regions.run {s : Mm} (h : Regions s rs) (hcovered : ∀ w, Covered rs w ↔ P w)
    (hok : ∀ a ∈ as, Accepts a) (hapart : as.Pairwise AreaApart)
    (hout : ∀ a ∈ as, ∀ w, P w → w < a.1 ∨ a.1 + a.2 ≤ w)
    (hsafe : Run.Along Mm.addStep Mm.addSafe s as) :
    ∃ t ts, Run.run Mm.addStep s as = some t ∧ Regions t ts ∧
      ∀ w, Covered ts w ↔ P w ∨ ∃ a ∈ as, a.1 ≤ w ∧ w < a.1 + a.2 := by
  -- By induction on the calls: what one adds is covered for the next, which lies off it.
  induction as generalizing P s rs with
  | nil =>
      refine ⟨s, rs, rfl, h, fun w => (hcovered w).trans ?_⟩
      simp only [List.not_mem_nil, false_and, exists_false, or_false]
  | cons a as ih =>
      obtain ⟨hhead, hrest⟩ := List.pairwise_cons.mp hapart
      have ha := hok a List.mem_cons_self
      have hlong : 0 < a.2 := Nat.lt_of_lt_of_le (by decide) ha.2.2.2.1
      obtain ⟨t, ts, hstep, ht, hadded⟩ := h.add ha (fun r hr =>
        apart_of_not_covered (by have hlt := (h.laid r hr).lt; omega) hlong fun w hlow hhigh =>
          hout a List.mem_cons_self w ((hcovered w).mp ⟨r, hr, hlow, hhigh⟩)) hsafe.1
      obtain ⟨u, us, hrun, hu, hall⟩ := ih (P := fun w => P w ∨ a.1 ≤ w ∧ w < a.1 + a.2) ht
        (fun w => by rw [hadded w, hcovered w]) (fun b hb => hok b (List.mem_cons_of_mem a hb))
        hrest
        (fun b hb w hw => by
          rcases hw with hw | hw
          · exact hout b (List.mem_cons_of_mem a hb) w hw
          · have hab := hhead b hb
            unfold AreaApart at hab
            omega) (hsafe.2 t hstep)
      refine ⟨u, us, (Run.run_cons hstep as).trans hrun, hu, fun w => ?_⟩
      rw [hall w, List.exists_mem_cons_iff, or_assoc]

/-- A heap of 5 KiB after calls that do no harm. -/
theorem safeRun_get {acts : List HeapAct} (hsized : ∀ a ∈ acts, a.Sized)
    (hsafe : Run.Along MmSys.step MmSys.safe ⟨initMm (fun _ => 0) 0x20000000 5120, []⟩ acts)
    (hsome : (Run.run MmSys.step ⟨initMm (fun _ => 0) 0x20000000 5120, []⟩ acts).isSome = true) :
    SafeRun (fun _ => 0) 0x20000000 5120 (initMm (fun _ => 0) 0x20000000 5120) acts
      ((Run.run MmSys.step ⟨initMm (fun _ => 0) 0x20000000 5120, []⟩ acts).get hsome) :=
  ⟨rfl, by decide, hsized, hsafe, (Option.some_get hsome).symm⟩

/-- The header behind a free block says that it is. -/
theorem Chain.marked {mem : Nat → Nat} {e p a : Nat} {pf : Bool} {bs : List Blk}
    (h : Chain mem e p pf a bs) (hne : a ≠ e) (hfree : isFree (mem (a + 4))) :
    isPrevFree (mem (a + 8 + blksize (mem (a + 4)) + 4)) := by
  cases bs with
  | nil => exact absurd h.1 hne
  | cons b bs =>
      obtain ⟨-, hshape, -, hheader, hrest⟩ := h
      rw [hheader.1] at hfree ⊢
      have hb : b.free = true := (isFree_tag hshape.2 b.free pf).mp hfree
      rw [blksize_tag hshape.2 b.free pf]
      obtain ⟨-, hnext, hbehind⟩ := chain_iff.mp hrest
      have haligned : headSize bs % 4 = 0 := by
        cases bs with
        | nil => rfl
        | cons y bs => exact hbehind.2.1.2
      rw [hnext.1, hb]
      exact (isPrevFree_tag haligned (headFree bs) true).mpr rfl

/-- The block behind the first one of the first region, as the headers tell it. -/
theorem RegionsRight.first (h : RegionsRight P t) (hne : t.regioninfo ≠ 0) :
    ∃ r : MmRegion, t.regioninfo = r.start + 8 ∧ r.Laid t.mem ∧ ∀ x ∈ r.blocks, x.free = true →
      (bitmapSearch x.size .insert).2.1 < fltSize := by
  obtain ⟨rs, hregions, -, -, hclass⟩ := h
  cases rs with
  | nil => exact absurd hregions.infos hne
  | cons r rs =>
      exact ⟨r, hregions.infos.1, hregions.laid r List.mem_cons_self, fun x hx hfree =>
        (hclass x (mem_regionBlocks.mpr ⟨r, List.mem_cons_self, hx⟩) hfree).1⟩

end Runs

end Rhino

end Wujian100
