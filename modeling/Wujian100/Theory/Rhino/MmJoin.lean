import Wujian100.Theory.Rhino.MmRegions

/-!
# Regions That Become One

The memory that is added is a hole between its first block and its last header. A region that
touches it at one end becomes part of it: the headers between them are in the hole, and the
blocks of that region are those before the hole or behind it.

## Main definitions

* `Layout`: Where the regions are while the list is gone through.
* `MmRegion.gain`: What a region adds to the hole.

## Theorems

* `Hole.write`: Writes in the buffers of blocks that are allocated.
* `Hole.joinBehind`, `Hole.joinBefore`: The hole reaches into a region.
* `Layout.skip`, `Layout.behind`, `Layout.before`: A turn of the loop.
-/

namespace Wujian100

namespace Rhino

section Write

variable {m₀ : Nat → Nat} {a₀ e p b len keep w : Nat} {pf : Bool} {os os' pre post xs bs : List Blk}
  {s t : Mm} {x : Blk} {r : MmRegion}

/-! ## Writes in buffers -/

/-- A link is in the buffer of a free block. -/
theorem not_owned_of_link (hapart : ∀ x ∈ xs, ∀ y ∈ xs, x = y ∨ x.Apart y)
    (hshape : ∀ x ∈ xs, x.Shaped) (hw : FreeLink xs w) : ¬Owned xs w := by
  obtain ⟨x, hx, hfree, hlink⟩ := hw
  rintro ⟨y, hy, hyfree, hlow, hhigh⟩
  have hlong := (hshape x hx).1
  rcases hapart x hx y hy with rfl | hxy
  · rw [hfree] at hyfree
    cases hyfree
  · unfold Blk.Apart Blk.Before at hxy
    omega

/-- A header is in no buffer. -/
theorem not_owned_of_header (hapart : ∀ x ∈ xs, ∀ y ∈ xs, x = y ∨ x.Apart y) (hx : x ∈ xs)
    (hw : w = x.addr ∨ w = x.addr + 4) : ¬Owned xs w := by
  rintro ⟨y, hy, -, hlow, hhigh⟩
  rcases hapart x hx y hy with rfl | hxy
  · omega
  · unfold Blk.Apart Blk.Before at hxy
    omega

/-- The blocks around a hole are apart, and those of other regions as well. -/
theorem Hole.apart (h : Hole m₀ a₀ e os s pre [] post p pf b len keep)
    (hos : ∀ x ∈ os, ∀ y ∈ os, x = y ∨ x.Apart y) :
    ∀ x ∈ os ++ (pre ++ post), ∀ y ∈ os ++ (pre ++ post), x = y ∨ x.Apart y := by
  have hle := h.le
  have hsorted : (pre ++ post).Pairwise Blk.Before := by
    refine List.pairwise_append.mpr ⟨h.seg.sorted, h.rest.sorted, fun x hx y hy => ?_⟩
    have hx' := (h.pre_le hx).2.2
    have hy' := (h.post_le hy).2.1
    unfold Blk.Before
    omega
  have hin : ∀ x ∈ pre ++ post, a₀ ≤ x.addr ∧ x.addr + 8 + x.size ≤ e := by
    intro x hx
    rcases List.mem_append.mp hx with hx | hx
    · have hx' := (h.pre_le hx).2
      omega
    · have hx' := (h.post_le hx).2
      omega
  intro x hx y hy
  rcases List.mem_append.mp hx with hx | hx
  · rcases List.mem_append.mp hy with hy | hy
    · exact hos x hx y hy
    · have hx' := (h.region.apart x hx).2.2
      have hy' := hin y hy
      right
      unfold Blk.Apart Blk.Before
      omega
  · rcases List.mem_append.mp hy with hy | hy
    · have hx' := hin x hx
      have hy' := (h.region.apart y hy).2.2
      right
      unfold Blk.Apart Blk.Before
      omega
    · exact eq_or_apart hsorted x hx y hy

theorem Hole.shaped (h : Hole m₀ a₀ e os s pre [] post p pf b len keep)
    (hx : x ∈ os ++ (pre ++ post)) : x.Shaped := by
  rcases List.mem_append.mp hx with hx | hx
  · exact (h.region.apart x hx).1
  · rcases List.mem_append.mp hx with hx | hx
    · exact (h.pre_le hx).1
    · exact (h.post_le hx).1

/-- What is kept is what there is now. -/
theorem Hole.now (h : Hole m₀ a₀ e os s pre xs post p pf b len keep) :
    Hole s.mem a₀ e os s pre xs post p pf b len 0 :=
  ⟨h.region, h.seg, h.back, h.bit, h.long, Nat.zero_le _, h.inside, h.tag, h.rest, h.lists,
    fun _ _ => rfl, fun _ _ _ => rfl⟩

/-- Writes in the buffers of blocks that are allocated, wherever they are. -/
theorem Hole.write (h : Hole m₀ a₀ e os s pre [] post p pf b len keep)
    (hos : ∀ x ∈ os, ∀ y ∈ os, x = y ∨ x.Apart y)
    (hmem : ∀ w, ¬Owned (os ++ (pre ++ post)) w → t.mem w = s.mem w)
    (htbl : t.mmTbl = s.mmTbl) (hsl : t.slBitmap = s.slBitmap) (hfl : t.flBitmap = s.flBitmap) :
    Hole t.mem a₀ e os t pre [] post p pf b len 0 := by
  have hle := h.le
  have hapart := h.apart hos
  have hheader : ∀ x ∈ pre ++ post, SameHeader s.mem t.mem x.addr := by
    intro x hx
    have hx' := List.mem_append_right os hx
    exact ⟨hmem _ (not_owned_of_header hapart hx' (Or.inl rfl)),
      hmem _ (not_owned_of_header hapart hx' (Or.inr rfl))⟩
  -- the headers at both ends of the hole, and the last one
  have hends : ∀ w, b ≤ w ∧ w < b + 8 ∨ b + 8 + len ≤ w ∧ w < b + 8 + len + 8 ∨
      e ≤ w ∧ w < e + 8 → t.mem w = s.mem w := by
    intro w hw
    refine hmem w ?_
    rintro ⟨y, hy, -, hlow, hhigh⟩
    rcases List.mem_append.mp hy with hy | hy
    · have hy' := (h.region.apart y hy).2.2
      omega
    · rcases List.mem_append.mp hy with hy | hy
      · have hy' := (h.pre_le hy).2.2
        omega
      · have hy' := (h.post_le hy).2
        omega
  refine ⟨h.region, h.seg.congr fun x hx => hheader x (List.mem_append_left _ hx), fun hpf => ?_,
    ?_, h.long, Nat.zero_le _, h.inside, ?_, h.rest.congr (fun x hx _ => hheader x
      (List.mem_append_right _ hx)) fun _ => ?_, h.lists.congr (fun w hw => hmem w ?_) htbl hsl hfl,
    fun _ _ => rfl, fun _ _ _ => rfl⟩
  · exact (hends b (by omega)).trans (h.back hpf)
  · have hsize : t.size b = s.size b := hends _ (by omega)
    rw [hsize]
    exact h.bit
  · have hsize : t.size (b + 8 + len) = s.size (b + 8 + len) := hends _ (by omega)
    rw [hsize]
    exact h.tag
  · exact ⟨hends _ (by omega), hends _ (by omega)⟩
  · exact not_owned_of_link hapart (fun x hx => h.shaped hx) hw

/-! ## The hole reaches into a region -/

/-- A region begins behind the hole. Its first block and the header behind that are in the hole. -/
theorem Hole.joinBehind (h : Hole m₀ a₀ e os s pre [] [] p pf b len keep) (hr : r.Laid s.mem)
    (hstart : r.start = e + 8) (hblocks : r.blocks = ⟨r.start, 8, false⟩ :: bs)
    (hregion : Region a₀ r.stop os')
    (hsame : ∀ x : Blk, x.free = true → (x ∈ os ↔ x ∈ os' ∨ x ∈ r.blocks)) :
    Hole s.mem a₀ r.stop os' s pre [] bs p pf b (len + 24) 0 := by
  obtain ⟨bs', hbs', -, hchain⟩ := hr.first
  obtain rfl : bs = bs' := (List.cons.inj (hblocks.symm.trans hbs')).2
  obtain ⟨-, hheader, hrest⟩ := chain_iff.mp hchain
  have hend : b + 8 + len = e := h.rest
  have hlong := h.long
  have hnext : b + 8 + (len + 24) = r.start + 16 := by omega
  refine ⟨hregion, h.seg, h.back, h.bit, by omega, Nat.zero_le _,
    fun x hx => absurd hx List.not_mem_nil, ⟨false, ?_⟩, ?_, ?_,
    fun _ _ => rfl, fun _ _ _ => rfl⟩
  · rw [hnext]
    exact hheader.1
  · rw [hnext]
    exact hrest
  · refine h.lists.same fun x hfree => ?_
    have hne : x ≠ ⟨r.start, 8, false⟩ := by
      rintro rfl
      cases hfree
    have hin : x ∈ r.blocks ↔ x ∈ bs := by
      rw [hblocks, List.mem_cons, or_iff_right hne]
    simp only [List.mem_append, List.not_mem_nil, or_false, false_or, hsame x hfree, hin]
    tauto

/-- A region ends before the hole's. Its last header is that of the hole, and the first block is
    in it. -/
theorem Hole.joinBefore (h : Hole m₀ a₀ e os s [⟨a₀, 8, false⟩] [] post p pf b len keep)
    (hr : r.Laid s.mem) (hstop : r.stop + 8 = a₀) (hregion : Region r.start e os')
    (hsame : ∀ x : Blk, x.free = true → (x ∈ os ↔ x ∈ os' ∨ x ∈ r.blocks)) :
    ∃ p' pf', Hole s.mem r.start e os' s r.blocks [] post p' pf' r.stop (len + 24) 0 ∧
      s.size r.stop = 2 * pf'.toNat ∧ (pf' = true → lastBytes r.blocks ≠ 0) := by
  obtain ⟨p', pf', hseg, hheader⟩ := chain_seg.mp hr.chain
  obtain ⟨-, -, -, -, -, -, hb⟩ := h.seg
  have hword : s.size r.stop = 0 + false.toNat + 2 * pf'.toNat := hheader.1
  have hlong := h.long
  have hnext : r.stop + 8 + (len + 24) = b + 8 + len := by
    dsimp only at hb
    omega
  refine ⟨p', pf', ⟨hregion, hseg, hheader.2, ?_, by omega, Nat.zero_le _,
    fun x hx => absurd hx List.not_mem_nil, ?_, ?_, ?_,
    fun _ _ => rfl, fun _ _ _ => rfl⟩, ?_, ?_⟩
  · rw [hword]
    exact isPrevFree_tag rfl false pf'
  · rw [hnext]
    exact h.tag
  · rw [hnext]
    exact h.rest
  · refine h.lists.same fun x hfree => ?_
    have hne : x ≠ ⟨a₀, 8, false⟩ := by
      rintro rfl
      cases hfree
    simp only [List.mem_append, List.mem_singleton, List.not_mem_nil, false_or, hsame x hfree, hne]
    tauto
  · rw [hword]
    exact Nat.zero_add _
  · rintro rfl
    obtain ⟨ys, q, -, hblocks, hfree, -⟩ := hseg.last
    rw [hblocks, lastBytes_concat, if_pos hfree]
    omega

end Write

/-! ## Where the regions are -/

/-- How many bytes a region adds to the hole between `ib` and the last header at `lb`. -/
def MmRegion.gain (ib lb : Nat) (r : MmRegion) : Nat :=
  (if r.stop + 8 = ib then 24 + lastBytes r.blocks else 0) +
    if r.start = lb + 8 then 24 + firstBytes r.blocks.tail else 0

/-- The regions `ds` are away from the memory from `ib` to the last header at `lb`, and the
    regions `ts` may touch it. What ends with a free block before it does not come before what
    begins behind it. -/
structure Layout (ds ts : List MmRegion) (ib lb : Nat) : Prop where
  proper : ib < lb ∧ ∀ r ∈ ds ++ ts, r.start < r.stop
  off : (ds ++ ts).Pairwise MmRegion.Off
  done : ∀ d ∈ ds, d.stop + 8 < ib ∨ lb + 8 < d.start
  todo : ∀ t ∈ ts, t.stop + 8 ≤ ib ∨ lb + 8 ≤ t.start
  order : ts.Pairwise fun r q => r.stop + 8 = ib → q.start = lb + 8 → lastBytes r.blocks = 0

section Layout

variable {ds ts : List MmRegion} {r q : MmRegion} {ib lb w : Nat}

theorem Layout.weak (h : Layout ds ts ib lb) (hq : q ∈ ds ++ ts) :
    q.stop + 8 ≤ ib ∨ lb + 8 ≤ q.start := by
  rcases List.mem_append.mp hq with hq | hq
  · have hq' := h.done q hq
    omega
  · exact h.todo q hq

/-- The region that is looked at is none of the others. -/
theorem Layout.head_off (h : Layout ds (r :: ts) ib lb) (hq : q ∈ ds ++ ts) : q.Off r := by
  obtain ⟨-, hrest, hcross⟩ := List.pairwise_append.mp h.off
  rcases List.mem_append.mp hq with hq | hq
  · exact hcross q hq r List.mem_cons_self
  · exact ((List.pairwise_cons.mp hrest).1 q hq).symm

theorem mem_middle : q ∈ ds ++ r :: ts ↔ q = r ∨ q ∈ ds ++ ts := by
  rw [List.mem_append, List.mem_cons, List.mem_append]
  tauto

theorem Layout.head_mem (ds : List MmRegion) (r : MmRegion) (ts : List MmRegion) :
    r ∈ ds ++ r :: ts := List.mem_append_right _ List.mem_cons_self

/-- A region that does not touch the memory is left alone. -/
theorem Layout.skip (h : Layout ds (r :: ts) ib lb) (hbehind : r.start ≠ lb + 8)
    (hbefore : r.stop + 8 ≠ ib) : Layout (ds ++ [r]) ts ib lb := by
  have happend : ds ++ [r] ++ ts = ds ++ r :: ts := List.append_cons ds r ts ▸ rfl
  refine ⟨?_, ?_, fun d hd => ?_, fun t ht => h.todo t (List.mem_cons_of_mem r ht),
    (List.pairwise_cons.mp h.order).2⟩
  · rw [happend]
    exact h.proper
  · rw [happend]
    exact h.off
  · rcases List.mem_append.mp hd with hd | hd
    · exact h.done d hd
    · obtain rfl := List.mem_singleton.mp hd
      have hd' := h.todo d List.mem_cons_self
      omega

-- The region is away from all others, so that its other end touches none of them. What they add
-- is the same for the new ends.
/-- One that begins behind it becomes part of it, and nothing begins behind that. -/
theorem Layout.behind (h : Layout ds (r :: ts) ib lb) (hstart : r.start = lb + 8) :
    Layout ds ts ib r.stop ∧ (∀ t ∈ ts, t.start ≠ r.stop + 8) ∧
      (∀ t ∈ ts, t.gain ib r.stop = t.gain ib lb) ∧
      ∀ w, Covered (ds ++ r :: ts) w ∨ ib ≤ w ∧ w < lb + 8 ↔
        Covered (ds ++ ts) w ∨ ib ≤ w ∧ w < r.stop + 8 := by
  obtain ⟨hlt, hproper⟩ := h.proper
  have hr := hproper r (Layout.head_mem ds r ts)
  have hoff : ∀ q ∈ ds ++ ts, q.start < q.stop ∧ (q.stop + 8 < r.start ∨ r.stop + 8 < q.start) :=
    fun q hq => ⟨hproper q (mem_middle.mpr (Or.inr hq)), h.head_off hq⟩
  -- Regions lie off each other, so none begins where this one stops.
  have hne : ∀ t ∈ ts, t.start ≠ r.stop + 8 := by
    intro t ht
    have ht' := hoff t (List.mem_append_right _ ht)
    omega
  refine ⟨⟨⟨by omega, fun q hq => (hoff q hq).1⟩, ?_, fun d hd => ?_, fun t ht => ?_, ?_⟩, hne,
    fun t ht => ?_, fun w => ?_⟩
  · exact h.off.sublist (List.Sublist.append_left (List.sublist_cons_self r ts) ds)
  · have hd' := hoff d (List.mem_append_left _ hd)
    have hd'' := h.done d hd
    omega
  · have ht' := hoff t (List.mem_append_right _ ht)
    have ht'' := h.todo t (List.mem_cons_of_mem r ht)
    omega
  · exact List.pairwise_of_forall_mem_list fun q _ t ht _ hstart' => absurd hstart' (hne t ht)
  · have ht' := hoff t (List.mem_append_right _ ht)
    unfold MmRegion.gain
    rw [if_neg (hne t ht), if_neg (show ¬t.start = lb + 8 by omega)]
  · constructor
    · rintro (⟨q, hq, hw⟩ | hw)
      · rcases mem_middle.mp hq with rfl | hq
        · exact Or.inr (by omega)
        · exact Or.inl ⟨q, hq, hw⟩
      · exact Or.inr (by omega)
    · rintro (⟨q, hq, hw⟩ | hw)
      · exact Or.inl ⟨q, mem_middle.mpr (Or.inr hq), hw⟩
      · by_cases hlow : w < lb + 8
        · exact Or.inr ⟨hw.1, hlow⟩
        · exact Or.inl ⟨r, Layout.head_mem ds r ts, by omega⟩

/-- So does one that ends before it. -/
theorem Layout.before (h : Layout ds (r :: ts) ib lb) (hstop : r.stop + 8 = ib) :
    Layout ds ts r.start lb ∧ (∀ t ∈ ts, t.stop + 8 ≠ r.start) ∧
      (∀ t ∈ ts, t.gain r.start lb = t.gain ib lb) ∧
      ∀ w, Covered (ds ++ r :: ts) w ∨ ib ≤ w ∧ w < lb + 8 ↔
        Covered (ds ++ ts) w ∨ r.start ≤ w ∧ w < lb + 8 := by
  obtain ⟨hlt, hproper⟩ := h.proper
  have hr := hproper r (Layout.head_mem ds r ts)
  have hoff : ∀ q ∈ ds ++ ts, q.start < q.stop ∧ (q.stop + 8 < r.start ∨ r.stop + 8 < q.start) :=
    fun q hq => ⟨hproper q (mem_middle.mpr (Or.inr hq)), h.head_off hq⟩
  -- Regions lie off each other, so none stops where this one begins.
  have hne : ∀ t ∈ ts, t.stop + 8 ≠ r.start := by
    intro t ht
    have ht' := hoff t (List.mem_append_right _ ht)
    omega
  refine ⟨⟨⟨by omega, fun q hq => (hoff q hq).1⟩, ?_, fun d hd => ?_, fun t ht => ?_, ?_⟩, hne,
    fun t ht => ?_, fun w => ?_⟩
  · exact h.off.sublist (List.Sublist.append_left (List.sublist_cons_self r ts) ds)
  · have hd' := hoff d (List.mem_append_left _ hd)
    have hd'' := h.done d hd
    omega
  · have ht' := hoff t (List.mem_append_right _ ht)
    have ht'' := h.todo t (List.mem_cons_of_mem r ht)
    omega
  · exact List.pairwise_of_forall_mem_list fun q hq t _ hstop' => absurd hstop' (hne q hq)
  · have ht' := hoff t (List.mem_append_right _ ht)
    unfold MmRegion.gain
    rw [if_neg (hne t ht), if_neg (show ¬t.stop + 8 = ib by omega)]
  · constructor
    · rintro (⟨q, hq, hw⟩ | hw)
      · rcases mem_middle.mp hq with rfl | hq
        · exact Or.inr (by omega)
        · exact Or.inl ⟨q, hq, hw⟩
      · exact Or.inr (by omega)
    · rintro (⟨q, hq, hw⟩ | hw)
      · exact Or.inl ⟨q, mem_middle.mpr (Or.inr hq), hw⟩
      · by_cases hhigh : ib ≤ w
        · exact Or.inr ⟨hhigh, hw.2⟩
        · exact Or.inl ⟨r, Layout.head_mem ds r ts, by omega⟩

end Layout

end Rhino

end Wujian100
