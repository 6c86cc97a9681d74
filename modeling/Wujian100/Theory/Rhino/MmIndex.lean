import Wujian100.Theory.Rhino.MmClass
import Wujian100.Library.Dlist

/-!
# The Free Blocks

A free block is a node of the list of its class, and the bitmaps tell which lists have nodes.
Which blocks are free and what classes they have is a partial function of their addresses:
`insert_block` gives it one more value, `get_block` one less, and `findblk_byidx` finds a value
that is not below what was asked for. Apart from the heads and the bitmaps they only write the
links of nodes.

## Main definitions

* `LinkWord`: The words of the links.
* `Indexed`: The lists and the bitmaps are those of a partial function.

## Theorems

* `Indexed.congr`: Only the links matter.
* `Indexed.insertBlock`, `Indexed.getBlock`: One more and one less.
* `insertBlock_frame`, `getBlock_frame`: What they write.
* `Indexed.popBlock_eq`: `k_mm_alloc` takes the first block of a list as `get_block` does.
* `Indexed.findblkByidx`: What is found.
-/

namespace Wujian100

namespace Rhino

/-- The word is a link of a node. -/
def LinkWord (F : Nat → Option (Nat × Nat)) (w : Nat) : Prop :=
  ∃ x, F x ≠ none ∧ (w = x + 8 ∨ w = x + 12)

/-- The nodes of each list are the blocks of its class. -/
structure IndexedBy (s : Mm) (F : Nat → Option (Nat × Nat)) (L : Nat → Nat → List Nat) : Prop where
  mem : ∀ x flt slt, x ∈ L flt slt ↔ F x = some (flt, slt)
  nodup : ∀ flt slt, (L flt slt).Nodup
  head : ∀ flt slt, s.mmTbl flt slt = (L flt slt).headD 0
  dlist : ∀ flt slt, Dlist s.freePrev s.freeNext 0 (L flt slt)
  sl : ∀ flt slt, (s.slBitmap flt).getLsbD slt = true ↔ L flt slt ≠ []
  fl : ∀ flt, s.flBitmap.getLsbD flt = true ↔ ∃ slt, L flt slt ≠ []
  range : ∀ x flt slt, F x = some (flt, slt) → flt < fltSize ∧ slt < sltSize
  pos : ∀ x, F x ≠ none → 0 < x
  spaced : ∀ x y, F x ≠ none → F y ≠ none → x ≠ y → x + 16 ≤ y ∨ y + 16 ≤ x

/-- The lists and the bitmaps are those of the free blocks. -/
def Indexed (s : Mm) (F : Nat → Option (Nat × Nat)) : Prop := ∃ L, IndexedBy s F L

section Index

variable {s t : Mm} {F : Nat → Option (Nat × Nat)} {L : Nat → Nat → List Nat}
  {x y flt slt : Nat}

theorem setTbl_mmTbl (s : Mm) (f l p i j : Nat) :
    (s.setTbl f l p).mmTbl i j = if i = f ∧ j = l then p else s.mmTbl i j := by
  unfold Mm.setTbl
  dsimp only
  by_cases hi : i = f
  · rw [hi, Function.update_self]
    by_cases hj : j = l
    · rw [hj, Function.update_self, if_pos ⟨rfl, rfl⟩]
    · rw [Function.update_of_ne hj, if_neg fun h => hj h.2]
  · rw [Function.update_of_ne hi, if_neg fun h => hi h.1]

theorem IndexedBy.node (h : IndexedBy s F L) (hx : x ∈ L flt slt) : F x ≠ none := by
  rw [(h.mem x flt slt).mp hx]
  exact Option.some_ne_none _

theorem IndexedBy.zero_not_mem (h : IndexedBy s F L) : 0 ∉ L flt slt :=
  fun hmem => Nat.lt_irrefl 0 (h.pos 0 (h.node hmem))

/-- Only the links matter. -/
theorem Indexed.congr (h : Indexed s F) (hmem : ∀ w, LinkWord F w → t.mem w = s.mem w)
    (htbl : t.mmTbl = s.mmTbl) (hsl : t.slBitmap = s.slBitmap) (hfl : t.flBitmap = s.flBitmap) :
    Indexed t F := by
  rcases h with ⟨L, h⟩
  refine ⟨L, ⟨h.mem, h.nodup, ?_, ?_, ?_, ?_, h.range, h.pos, h.spaced⟩⟩
  · rw [htbl]
    exact h.head
  · intro flt slt
    refine (h.dlist flt slt).congr (fun y hy => ?_) fun y hy => ?_
    · exact hmem _ ⟨y, h.node hy, Or.inl rfl⟩
    · exact hmem _ ⟨y, h.node hy, Or.inr rfl⟩
  · rw [hsl]
    exact h.sl
  · rw [hfl]
    exact h.fl

/-! ## One more -/

theorem insertBlock_mem (s : Mm) (x flt slt w : Nat) :
    (s.insertBlock x flt slt).mem w =
      if s.mmTbl flt slt ≠ 0 ∧ w = s.mmTbl flt slt + 8 then x
      else if w = x + 12 then s.mmTbl flt slt
      else if w = x + 8 then 0
      else s.mem w := by
  unfold Mm.insertBlock Mm.setBits Mm.setTbl Mm.setFreeNext Mm.setFreePrev
  dsimp only
  split
  · rename_i hhead
    dsimp only
    rw [Function.update_apply, Function.update_apply, Function.update_apply]
    by_cases hw : w = s.mmTbl flt slt + 8
    · rw [if_pos hw, if_pos ⟨hhead, hw⟩]
    · have hno : ¬(s.mmTbl flt slt ≠ 0 ∧ w = s.mmTbl flt slt + 8) := fun hc => hw hc.2
      rw [if_neg hw, if_neg hno]
  · rename_i hhead
    dsimp only
    have hno : ¬(s.mmTbl flt slt ≠ 0 ∧ w = s.mmTbl flt slt + 8) := fun hc => hhead hc.1
    rw [Function.update_apply, Function.update_apply, if_neg hno]

theorem insertBlock_mmTbl (s : Mm) (x flt slt i j : Nat) :
    (s.insertBlock x flt slt).mmTbl i j = if i = flt ∧ j = slt then x else s.mmTbl i j := by
  unfold Mm.insertBlock
  dsimp only
  change (Mm.setTbl _ flt slt x).mmTbl i j = _
  rw [setTbl_mmTbl]
  split
  · rfl
  · split
    · rfl
    · rfl

theorem insertBlock_slBitmap (s : Mm) (x flt slt i : Nat) :
    (s.insertBlock x flt slt).slBitmap i
      = if i = flt then s.slBitmap flt ||| BitVec.twoPow 32 slt else s.slBitmap i := by
  unfold Mm.insertBlock Mm.setBits Mm.setTbl Mm.setFreeNext Mm.setFreePrev
  dsimp only
  split
  · exact Function.update_apply _ _ _ _
  · exact Function.update_apply _ _ _ _

theorem insertBlock_flBitmap (s : Mm) (x flt slt : Nat) :
    (s.insertBlock x flt slt).flBitmap = s.flBitmap ||| BitVec.twoPow 32 flt := by
  unfold Mm.insertBlock Mm.setBits Mm.setTbl Mm.setFreeNext Mm.setFreePrev
  dsimp only
  split
  · rfl
  · rfl

/-- A list with one more node in front. -/
def consAt (L : Nat → Nat → List Nat) (x flt slt : Nat) : Nat → Nat → List Nat :=
  fun i j => if i = flt ∧ j = slt then x :: L flt slt else L i j

theorem IndexedBy.insertBlock (h : IndexedBy s F L) (hx : F x = none) (hpos : 0 < x)
    (hflt : flt < fltSize) (hslt : slt < sltSize)
    (hspaced : ∀ y, F y ≠ none → x + 16 ≤ y ∨ y + 16 ≤ x) :
    IndexedBy (s.insertBlock x flt slt) (Function.update F x (some (flt, slt)))
      (consAt L x flt slt) := by
  have hnew : ∀ i j, x ∉ L i j := by
    intro i j hmem
    rw [(h.mem x i j).mp hmem] at hx
    cases hx
  have hother : ∀ y, F y ≠ none → y ≠ x := fun y hy heq => hy (heq ▸ hx)
  have hflt32 : flt < 32 := by
    unfold fltSize maxMmBit at hflt
    omega
  -- which links the nodes of the other lists and of the rest of this one have
  have hprv : ∀ i j, ∀ y ∈ L i j, (s.insertBlock x flt slt).freePrev y
      = if y = (L flt slt).headD 0 then x else s.freePrev y := by
    intro i j y hy
    have hnode := h.node hy
    have happart := hspaced y hnode
    have hypos := h.pos y hnode
    change (s.insertBlock x flt slt).mem (y + 8) = _
    rw [insertBlock_mem, h.head, if_neg (by omega : ¬y + 8 = x + 12),
      if_neg (by omega : ¬y + 8 = x + 8)]
    by_cases hhead : y = (L flt slt).headD 0
    · rw [if_pos hhead, if_pos ⟨by omega, by omega⟩]
    · rw [if_neg hhead, if_neg (by omega)]
      rfl
  have hnxt : ∀ i j, ∀ y ∈ L i j, (s.insertBlock x flt slt).freeNext y = s.freeNext y := by
    intro i j y hy
    have hnode := h.node hy
    have happart := hspaced y hnode
    change (s.insertBlock x flt slt).mem (y + 12) = _
    rw [insertBlock_mem, h.head, if_neg (by omega : ¬y + 12 = x + 12),
      if_neg (by omega : ¬y + 12 = x + 8), if_neg]
    · rfl
    · rintro ⟨hne, heq⟩
      have hmem : (L flt slt).headD 0 ∈ L flt slt := by
        cases hl : L flt slt with
        | nil =>
            rw [hl] at hne
            exact absurd rfl hne
        | cons a l => exact List.mem_cons_self
      have hfirst := h.node hmem
      by_cases hsame : y = (L flt slt).headD 0
      · omega
      · have hbetween := h.spaced y _ hnode hfirst hsame
        omega
  refine ⟨?_, ?_, ?_, ?_, ?_, ?_, ?_, ?_, ?_⟩
  · intro y i j
    unfold consAt
    by_cases hy : y = x
    · rw [hy, Function.update_self]
      by_cases hij : i = flt ∧ j = slt
      · rw [if_pos hij, hij.1, hij.2]
        exact ⟨fun _ => rfl, fun _ => List.mem_cons_self⟩
      · rw [if_neg hij]
        refine ⟨fun hmem => absurd hmem (hnew i j), fun heq => ?_⟩
        cases heq
        exact absurd ⟨rfl, rfl⟩ hij
    · rw [Function.update_of_ne hy]
      by_cases hij : i = flt ∧ j = slt
      · rw [if_pos hij, hij.1, hij.2, List.mem_cons, ← h.mem]
        exact ⟨fun hmem => hmem.resolve_left hy, Or.inr⟩
      · rw [if_neg hij]
        exact h.mem y i j
  · intro i j
    unfold consAt
    split
    · exact List.nodup_cons.mpr ⟨hnew flt slt, h.nodup flt slt⟩
    · exact h.nodup i j
  · intro i j
    rw [insertBlock_mmTbl]
    unfold consAt
    split
    · rfl
    · exact h.head i j
  · intro i j
    unfold consAt
    split
    · refine (h.dlist flt slt).push ?_ ?_ (h.nodup flt slt) (hprv flt slt) (hnxt flt slt)
      · change (s.insertBlock x flt slt).mem (x + 8) = 0
        rw [insertBlock_mem, if_neg, if_neg (by omega), if_pos rfl]
        rintro ⟨hne, heq⟩
        rw [h.head] at hne heq
        cases hl : L flt slt with
        | nil =>
            rw [hl] at hne
            exact hne rfl
        | cons a l =>
            have ha : a ∈ L flt slt := hl ▸ List.mem_cons_self
            rw [hl] at heq
            have happart := hspaced a (h.node ha)
            change x + 8 = a + 8 at heq
            omega
      · change (s.insertBlock x flt slt).mem (x + 12) = _
        rw [insertBlock_mem, if_neg, if_pos rfl]
        · exact h.head flt slt
        · rintro ⟨hne, heq⟩
          rw [h.head] at hne heq
          cases hl : L flt slt with
          | nil =>
              rw [hl] at hne
              exact hne rfl
          | cons a l =>
              have ha : a ∈ L flt slt := hl ▸ List.mem_cons_self
              rw [hl] at heq
              have happart := hspaced a (h.node ha)
              change x + 12 = a + 8 at heq
              omega
    · rename_i hij
      refine (h.dlist i j).congr (fun y hy => ?_) fun y hy => hnxt i j y hy
      rw [hprv i j y hy, if_neg]
      -- the first node of the list of another class
      intro hhead
      have hclass := (h.mem y i j).mp hy
      have hmem : y ∈ L flt slt := by
        have hypos := h.pos y (h.node hy)
        cases hl : L flt slt with
        | nil =>
            rw [hl] at hhead
            change y = 0 at hhead
            omega
        | cons a l =>
            rw [hl] at hhead
            rw [hhead]
            exact List.mem_cons_self
      rw [(h.mem y flt slt).mp hmem] at hclass
      cases hclass
      exact hij ⟨rfl, rfl⟩
  · intro i j
    rw [insertBlock_slBitmap]
    unfold consAt
    by_cases hi : i = flt
    · rw [if_pos hi, BitVec.getLsbD_or, Bool.or_eq_true, hi, h.sl, BitVec.getLsbD_twoPow,
        decide_eq_true (show slt < 32 from hslt), Bool.true_and, decide_eq_true_eq]
      by_cases hj : j = slt
      · rw [if_pos ⟨rfl, hj⟩]
        exact ⟨fun _ => List.cons_ne_nil _ _, fun _ => Or.inr hj.symm⟩
      · rw [if_neg fun hc => hj hc.2]
        exact ⟨fun hor => hor.resolve_right (Ne.symm hj), Or.inl⟩
    · rw [if_neg hi, if_neg fun hc => hi hc.1]
      exact h.sl i j
  · intro i
    rw [insertBlock_flBitmap, BitVec.getLsbD_or, Bool.or_eq_true, h.fl, BitVec.getLsbD_twoPow,
      decide_eq_true hflt32, Bool.true_and, decide_eq_true_eq]
    unfold consAt
    constructor
    · rintro (⟨j, hj⟩ | hi)
      · refine ⟨j, ?_⟩
        split
        · exact List.cons_ne_nil _ _
        · exact hj
      · refine ⟨slt, ?_⟩
        rw [if_pos ⟨hi.symm, rfl⟩]
        exact List.cons_ne_nil _ _
    · rintro ⟨j, hj⟩
      by_cases hij : i = flt ∧ j = slt
      · exact Or.inr hij.1.symm
      · rw [if_neg hij] at hj
        exact Or.inl ⟨j, hj⟩
  · intro y i j hy
    by_cases hyx : y = x
    · rw [hyx, Function.update_self] at hy
      cases hy
      exact ⟨hflt, hslt⟩
    · rw [Function.update_of_ne hyx] at hy
      exact h.range y i j hy
  · intro y hy
    by_cases hyx : y = x
    · rw [hyx]
      exact hpos
    · rw [Function.update_of_ne hyx] at hy
      exact h.pos y hy
  · intro y z hy hz hyz
    by_cases hyx : y = x
    · rw [hyx] at hyz ⊢
      rw [Function.update_of_ne (Ne.symm hyz)] at hz
      exact hspaced z hz
    · rw [Function.update_of_ne hyx] at hy
      by_cases hzx : z = x
      · rw [hzx]
        exact (hspaced y hy).symm
      · rw [Function.update_of_ne hzx] at hz
        exact h.spaced y z hy hz hyz

theorem Indexed.insertBlock (h : Indexed s F) (hx : F x = none) (hpos : 0 < x)
    (hflt : flt < fltSize) (hslt : slt < sltSize)
    (hspaced : ∀ y, F y ≠ none → x + 16 ≤ y ∨ y + 16 ≤ x) :
    Indexed (s.insertBlock x flt slt) (Function.update F x (some (flt, slt))) := by
  rcases h with ⟨L, h⟩
  exact ⟨_, h.insertBlock hx hpos hflt hslt hspaced⟩

/-- What is written: links of nodes, and those of the new one. -/
theorem insertBlock_frame (h : Indexed s F) {w : Nat} (hw : ¬LinkWord F w) (hw8 : w ≠ x + 8)
    (hw12 : w ≠ x + 12) : (s.insertBlock x flt slt).mem w = s.mem w := by
  rcases h with ⟨L, h⟩
  rw [insertBlock_mem, if_neg hw12, if_neg hw8, if_neg]
  rintro ⟨hne, heq⟩
  rw [h.head] at hne heq
  cases hl : L flt slt with
  | nil =>
      rw [hl] at hne
      exact hne rfl
  | cons a l =>
      have ha : a ∈ L flt slt := hl ▸ List.mem_cons_self
      rw [hl] at heq
      exact hw ⟨a, h.node ha, Or.inl heq⟩

/-! ## One less -/

/-- What `get_block` does to the heads and the bitmaps. -/
def unhead (u : Mm) (x flt slt : Nat) : Mm :=
  if u.mmTbl flt slt = x then
    let t := u.setTbl flt slt (u.freeNext x)
    if t.mmTbl flt slt = 0 then t.clearBits flt slt else t
  else u

theorem unhead_mem (u : Mm) (x flt slt : Nat) : (unhead u x flt slt).mem = u.mem := by
  unfold unhead
  dsimp only
  split
  · split
    · rfl
    · rfl
  · rfl

theorem getBlock_mem (s : Mm) (hn : s.freeNext x + 8 ≠ x + 8) (hn' : s.freeNext x + 8 ≠ x + 12)
    (w : Nat) :
    (s.getBlock x flt slt).mem w =
      if w = x + 12 then 0
      else if w = x + 8 then 0
      else if s.freePrev x ≠ 0 ∧ w = s.freePrev x + 12 then s.freeNext x
      else if s.freeNext x ≠ 0 ∧ w = s.freeNext x + 8 then s.freePrev x
      else s.mem w := by
  -- the memory before both links are cleared
  have hclear : ∀ u : Mm, ((u.setFreePrev x 0).setFreeNext x 0).mem w
      = if w = x + 12 then 0 else if w = x + 8 then 0 else u.mem w := by
    intro u
    unfold Mm.setFreeNext Mm.setFreePrev
    dsimp only
    rw [Function.update_apply, Function.update_apply]
  unfold Mm.getBlock
  dsimp only
  rw [hclear]
  change (if w = x + 12 then 0 else if w = x + 8 then 0 else (unhead _ x flt slt).mem w) = _
  rw [unhead_mem]
  by_cases hnext : s.freeNext x ≠ 0
  · have hprev : (s.setFreePrev (s.freeNext x) (s.freePrev x)).freePrev x = s.freePrev x :=
      Function.update_of_ne (Ne.symm hn) _ _
    have hkeep : (s.setFreePrev (s.freeNext x) (s.freePrev x)).freeNext x = s.freeNext x :=
      Function.update_of_ne (Ne.symm hn') _ _
    rw [if_pos hnext, hprev, hkeep]
    by_cases hback : s.freePrev x ≠ 0
    · rw [if_pos hback]
      unfold Mm.setFreeNext Mm.setFreePrev
      dsimp only
      rw [Function.update_apply, Function.update_apply]
      simp only [hnext, hback, ne_eq, not_false_eq_true, true_and]
    · rw [if_neg hback]
      unfold Mm.setFreePrev
      dsimp only
      rw [Function.update_apply]
      simp only [hnext, hback, ne_eq, not_false_eq_true, true_and, false_and, if_false]
  · rw [if_neg hnext]
    by_cases hback : s.freePrev x ≠ 0
    · rw [if_pos hback]
      unfold Mm.setFreeNext
      dsimp only
      rw [Function.update_apply]
      simp only [hnext, hback, ne_eq, not_false_eq_true, true_and, false_and, if_false]
    · rw [if_neg hback]
      simp only [hnext, hback, false_and, if_false]

/-- The links of the neighbours change, the block's own do not. -/
theorem getBlock_freeNext (s : Mm) (flt slt : Nat) (hn : s.freeNext x + 8 ≠ x + 8)
    (hn' : s.freeNext x + 8 ≠ x + 12) (hp : s.freePrev x + 12 ≠ x + 12) :
    ∃ u : Mm, u.freeNext x = s.freeNext x ∧ u.mmTbl = s.mmTbl ∧ u.slBitmap = s.slBitmap ∧
      u.flBitmap = s.flBitmap ∧
      s.getBlock x flt slt = ((unhead u x flt slt).setFreePrev x 0).setFreeNext x 0 := by
  unfold Mm.getBlock
  dsimp only
  by_cases hnext : s.freeNext x ≠ 0
  · have hprev : (s.setFreePrev (s.freeNext x) (s.freePrev x)).freePrev x = s.freePrev x :=
      Function.update_of_ne (Ne.symm hn) _ _
    have hkeep : (s.setFreePrev (s.freeNext x) (s.freePrev x)).freeNext x = s.freeNext x :=
      Function.update_of_ne (Ne.symm hn') _ _
    rw [if_pos hnext, hprev]
    by_cases hback : s.freePrev x ≠ 0
    · rw [if_pos hback]
      refine ⟨(s.setFreePrev (s.freeNext x) (s.freePrev x)).setFreeNext (s.freePrev x)
        ((s.setFreePrev (s.freeNext x) (s.freePrev x)).freeNext x), ?_, rfl, rfl, rfl, rfl⟩
      exact (Function.update_of_ne (Ne.symm hp) _ _).trans hkeep
    · rw [if_neg hback]
      exact ⟨_, hkeep, rfl, rfl, rfl, rfl⟩
  · rw [if_neg hnext]
    by_cases hback : s.freePrev x ≠ 0
    · rw [if_pos hback]
      refine ⟨s.setFreeNext (s.freePrev x) (s.freeNext x), ?_, rfl, rfl, rfl, rfl⟩
      exact Function.update_of_ne (Ne.symm hp) _ _
    · rw [if_neg hback]
      exact ⟨s, rfl, rfl, rfl, rfl, rfl⟩

/-- The heads and the bitmaps without a block. -/
theorem getBlock_tables (s : Mm) (flt slt : Nat) (hn : s.freeNext x + 8 ≠ x + 8)
    (hn' : s.freeNext x + 8 ≠ x + 12) (hp : s.freePrev x + 12 ≠ x + 12) :
    (∀ i j, (s.getBlock x flt slt).mmTbl i j
      = if s.mmTbl flt slt = x ∧ i = flt ∧ j = slt then s.freeNext x else s.mmTbl i j) ∧
    (∀ i, (s.getBlock x flt slt).slBitmap i
      = if s.mmTbl flt slt = x ∧ s.freeNext x = 0 ∧ i = flt
        then s.slBitmap flt &&& ~~~(BitVec.twoPow 32 slt) else s.slBitmap i) ∧
    (s.getBlock x flt slt).flBitmap
      = if (s.mmTbl flt slt = x ∧ s.freeNext x = 0) ∧
          s.slBitmap flt &&& ~~~(BitVec.twoPow 32 slt) = 0
        then s.flBitmap &&& ~~~(BitVec.twoPow 32 flt) else s.flBitmap := by
  rcases getBlock_freeNext s flt slt hn hn' hp with
    ⟨u, hnext, htbl, hsl, hfl, heq⟩
  rw [heq]
  change (∀ i j, (unhead u x flt slt).mmTbl i j = _) ∧
    (∀ i, (unhead u x flt slt).slBitmap i = _) ∧ (unhead u x flt slt).flBitmap = _
  unfold unhead
  dsimp only
  -- The tables change only where the block is the first of its list.
  by_cases hhead : s.mmTbl flt slt = x
  · have hhead' : u.mmTbl flt slt = x := by
      rw [htbl]
      exact hhead
    have hfirst : (u.setTbl flt slt (u.freeNext x)).mmTbl flt slt = s.freeNext x := by
      rw [setTbl_mmTbl]
      exact (if_pos ⟨rfl, rfl⟩).trans hnext
    rw [if_pos hhead', hfirst, hnext]
    -- The bitmaps change only where it is also the last.
    by_cases hlast : s.freeNext x = 0
    · have hsl' : (u.setTbl flt slt 0).slBitmap = s.slBitmap := hsl
      have hfl' : (u.setTbl flt slt 0).flBitmap = s.flBitmap := hfl
      rw [if_pos hlast, hlast]
      refine ⟨fun i j => ?_, fun i => ?_, ?_⟩
      · change (u.setTbl flt slt 0).mmTbl i j = _
        rw [setTbl_mmTbl, htbl]
        by_cases hij : i = flt ∧ j = slt
        · rw [if_pos hij, if_pos ⟨hhead, hij⟩]
        · rw [if_neg hij, if_neg fun hc => hij hc.2]
      · change Function.update u.slBitmap flt _ i = _
        rw [Function.update_apply, hsl]
        by_cases hi : i = flt
        · rw [if_pos hi, if_pos ⟨hhead, rfl, hi⟩, hsl']
          rfl
        · rw [if_neg hi, if_neg fun hc => hi hc.2.2]
      · change (if Function.update u.slBitmap flt _ flt = 0 then _ else _) = _
        rw [Function.update_self, hsl', hfl']
        -- The first level changes only where its row becomes empty.
        by_cases hnone : s.slBitmap flt &&& ~~~(BitVec.twoPow 32 slt) = 0
        · rw [if_pos (by exact hnone), if_pos ⟨⟨hhead, rfl⟩, hnone⟩]
          rfl
        · rw [if_neg (by exact hnone), if_neg fun hc => hnone hc.2]
    · rw [if_neg hlast]
      refine ⟨fun i j => ?_, fun i => ?_, ?_⟩
      · rw [setTbl_mmTbl, htbl]
        by_cases hij : i = flt ∧ j = slt
        · rw [if_pos hij, if_pos ⟨hhead, hij⟩]
        · rw [if_neg hij, if_neg fun hc => hij hc.2]
      · rw [if_neg fun hc => hlast hc.2.1]
        exact congrFun hsl i
      · rw [if_neg fun hc => hlast hc.1.2]
        exact hfl
  · rw [if_neg (by rw [htbl]; exact hhead)]
    refine ⟨fun i j => ?_, fun i => ?_, ?_⟩
    · rw [if_neg fun hc => hhead hc.1, htbl]
    · rw [if_neg fun hc => hhead hc.1, hsl]
    · rw [if_neg fun hc => hhead hc.1.1, hfl]

/-- A list without one of its nodes. -/
def eraseAt (L : Nat → Nat → List Nat) (x flt slt : Nat) : Nat → Nat → List Nat :=
  fun i j => if i = flt ∧ j = slt then (L flt slt).erase x else L i j

/-- The neighbours of a node are elsewhere. -/
theorem IndexedBy.neighbours (h : IndexedBy s F L) (hx : F x = some (flt, slt)) :
    s.freeNext x + 8 ≠ x + 8 ∧ s.freeNext x + 8 ≠ x + 12 ∧ s.freePrev x + 12 ≠ x + 12 := by
  have hmem := (h.mem x flt slt).mpr hx
  have hnode := h.node hmem
  have hpos := h.pos x hnode
  have hne := (h.dlist flt slt).next_ne hmem (h.nodup flt slt) h.zero_not_mem
  have hnext := (h.dlist flt slt).next_mem hmem
  refine ⟨fun heq => hne.1 (Nat.add_right_cancel heq), fun heq => ?_, fun heq => ?_⟩
  · rcases hnext with hnil | hnext
    · omega
    · have hspaced := h.spaced x _ hnode (h.node hnext) (Ne.symm hne.1)
      omega
  · have hprev : s.freePrev x = x := Nat.add_right_cancel heq
    by_cases hhead : (L flt slt).headD 0 = x
    · have hzero := (h.dlist flt slt).prev_head hmem hhead
      omega
    · -- a node that is its own predecessor would be its own successor
      have hself := (h.dlist flt slt).prev_next hmem hhead
      rw [hprev] at hself
      exact hne.1 hself

/-- The last node of a list goes. -/
theorem IndexedBy.erase_nil_iff (h : IndexedBy s F L) (hx : F x = some (flt, slt)) :
    (L flt slt).erase x = [] ↔ s.mmTbl flt slt = x ∧ s.freeNext x = 0 := by
  have hmem := (h.mem x flt slt).mpr hx
  have hhead := (h.dlist flt slt).erase_head (x := x)
  rw [h.head]
  constructor
  · intro hnil
    rw [hnil] at hhead
    by_cases hfirst : (L flt slt).headD 0 = x
    · rw [if_pos ⟨hfirst, List.ne_nil_of_mem hmem⟩] at hhead
      exact ⟨hfirst, hhead.symm⟩
    · rw [if_neg fun hc => hfirst hc.1] at hhead
      cases hl : L flt slt with
      | nil =>
          rw [hl] at hmem
          cases hmem
      | cons a l =>
          rw [hl] at hhead
          have ha : a ∈ L flt slt := hl ▸ List.mem_cons_self
          have hpos := h.pos a (h.node ha)
          change 0 = a at hhead
          omega
  · rintro ⟨hfirst, hlast⟩
    rw [if_pos ⟨hfirst, List.ne_nil_of_mem hmem⟩, hlast] at hhead
    cases hl : (L flt slt).erase x with
    | nil => rfl
    | cons a l =>
        rw [hl] at hhead
        have ha : a ∈ L flt slt := List.mem_of_mem_erase (hl ▸ List.mem_cons_self)
        have hpos := h.pos a (h.node ha)
        change a = 0 at hhead
        omega

theorem IndexedBy.getBlock (h : IndexedBy s F L) (hx : F x = some (flt, slt)) :
    IndexedBy (s.getBlock x flt slt) (Function.update F x none) (eraseAt L x flt slt) := by
  have hmem := (h.mem x flt slt).mpr hx
  have hnode := h.node hmem
  have hpos := h.pos x hnode
  rcases h.neighbours hx with ⟨hn, hn', hp⟩
  rcases getBlock_tables s flt slt hn hn' hp with ⟨htbl, hsl, hfl⟩
  have hlast := h.erase_nil_iff hx
  have hold : ∀ y, Function.update F x none y ≠ none → y ≠ x ∧ F y ≠ none := by
    intro y hy
    have hyx : y ≠ x := by
      rintro rfl
      rw [Function.update_self] at hy
      exact hy rfl
    rw [Function.update_of_ne hyx] at hy
    exact ⟨hyx, hy⟩
  -- what the links of the other nodes are then
  have hprv : ∀ i j, ∀ y ∈ L i j, y ≠ x → (s.getBlock x flt slt).freePrev y
      = if y = s.freeNext x then s.freePrev x else s.freePrev y := by
    intro i j y hy hyx
    have hy' := h.node hy
    have hypos := h.pos y hy'
    have hspaced := h.spaced x y hnode hy' (Ne.symm hyx)
    change (s.getBlock x flt slt).mem (y + 8) = _
    rw [getBlock_mem s hn hn', if_neg (by omega : ¬y + 8 = x + 12),
      if_neg (by omega : ¬y + 8 = x + 8)]
    have hnot : ¬(s.freePrev x ≠ 0 ∧ y + 8 = s.freePrev x + 12) := by
      rintro ⟨hne, heq⟩
      by_cases hhead : (L flt slt).headD 0 = x
      · exact hne ((h.dlist flt slt).prev_head hmem hhead)
      · have hprev := h.node ((h.dlist flt slt).prev_mem hmem hhead)
        by_cases hsame : y = s.freePrev x
        · omega
        · have hbetween := h.spaced y _ hy' hprev hsame
          omega
    rw [if_neg hnot]
    by_cases hnext : y = s.freeNext x
    · rw [if_pos hnext, if_pos ⟨by omega, by omega⟩]
    · rw [if_neg hnext, if_neg fun hc => hnext (by omega)]
      rfl
  have hnxt : ∀ i j, ∀ y ∈ L i j, y ≠ x → (s.getBlock x flt slt).freeNext y
      = if y = s.freePrev x then s.freeNext x else s.freeNext y := by
    intro i j y hy hyx
    have hy' := h.node hy
    have hypos := h.pos y hy'
    have hspaced := h.spaced x y hnode hy' (Ne.symm hyx)
    change (s.getBlock x flt slt).mem (y + 12) = _
    rw [getBlock_mem s hn hn', if_neg (by omega : ¬y + 12 = x + 12),
      if_neg (by omega : ¬y + 12 = x + 8)]
    by_cases hprev : y = s.freePrev x
    · rw [if_pos hprev, if_pos ⟨by omega, by omega⟩]
    · rw [if_neg hprev, if_neg fun hc => hprev (by omega)]
      have hnot : ¬(s.freeNext x ≠ 0 ∧ y + 12 = s.freeNext x + 8) := by
        rintro ⟨hne, heq⟩
        have hnext := h.node (((h.dlist flt slt).next_mem hmem).resolve_left hne)
        by_cases hsame : y = s.freeNext x
        · omega
        · have hbetween := h.spaced y _ hy' hnext hsame
          omega
      rw [if_neg hnot]
      rfl
  have hbits : ∀ i j, ((s.getBlock x flt slt).slBitmap i).getLsbD j = true ↔
      eraseAt L x flt slt i j ≠ [] := by
    intro i j
    rw [hsl]
    unfold eraseAt
    by_cases hi : i = flt
    · by_cases hend : s.mmTbl flt slt = x ∧ s.freeNext x = 0
      · rw [if_pos ⟨hend.1, hend.2, hi⟩, BitVec.getLsbD_and, BitVec.getLsbD_not,
          BitVec.getLsbD_twoPow, Bool.and_eq_true, h.sl, hi]
        by_cases hj : j = slt
        · rw [if_pos ⟨rfl, hj⟩, hlast.mpr hend, decide_eq_true hj.symm]
          have hslt : slt < 32 := (h.range x flt slt hx).2
          rw [decide_eq_true hslt]
          simp
        · rw [if_neg fun hc => hj hc.2, decide_eq_false (Ne.symm hj), Bool.and_false]
          constructor
          · exact fun hc => hc.1
          · intro hne
            have hbit := (h.sl flt j).mpr hne
            exact ⟨hne, by rw [decide_eq_true (BitVec.lt_of_getLsbD hbit)]; rfl⟩
      · rw [if_neg fun hc => hend ⟨hc.1, hc.2.1⟩, h.sl]
        by_cases hj : j = slt
        · rw [if_pos ⟨hi, hj⟩, hi, hj]
          exact ⟨fun _ hnil => hend (hlast.mp hnil), fun _ => List.ne_nil_of_mem hmem⟩
        · rw [if_neg fun hc => hj hc.2]
    · rw [if_neg fun hc => hi hc.2.2, if_neg fun hc => hi hc.1]
      exact h.sl i j
  refine ⟨?_, ?_, ?_, ?_, ?_, ?_, ?_, ?_, ?_⟩
  · intro y i j
    unfold eraseAt
    by_cases hy : y = x
    · rw [hy, Function.update_self]
      refine ⟨fun hin => ?_, fun hc => by cases hc⟩
      split at hin
      · exact absurd hin (List.Nodup.not_mem_erase (h.nodup flt slt))
      · rename_i hij
        have hclass := (h.mem x i j).mp hin
        rw [hx] at hclass
        cases hclass
        exact absurd ⟨rfl, rfl⟩ hij
    · rw [Function.update_of_ne hy]
      split
      · rename_i hij
        rw [List.mem_erase_of_ne hy, hij.1, hij.2]
        exact h.mem y flt slt
      · exact h.mem y i j
  · intro i j
    unfold eraseAt
    split
    · exact (h.nodup flt slt).erase x
    · exact h.nodup i j
  · intro i j
    rw [htbl]
    unfold eraseAt
    by_cases hij : i = flt ∧ j = slt
    · rw [if_pos hij, (h.dlist flt slt).erase_head, ← h.head, hij.1, hij.2]
      by_cases hhead : s.mmTbl flt slt = x
      · rw [if_pos ⟨hhead, rfl, rfl⟩, if_pos ⟨hhead, List.ne_nil_of_mem hmem⟩]
      · rw [if_neg fun hc => hhead hc.1, if_neg fun hc => hhead hc.1]
    · rw [if_neg hij, if_neg fun hc => hij hc.2]
      exact h.head i j
  · intro i j
    unfold eraseAt
    split
    · refine (h.dlist flt slt).erase hmem (h.nodup flt slt) h.zero_not_mem h.zero_not_mem ?_ ?_
      · exact hprv flt slt
      · exact hnxt flt slt
    · rename_i hij
      have hother : ∀ y ∈ L i j, y ∉ L flt slt := by
        intro y hy hy'
        have hclass := (h.mem y i j).mp hy
        rw [(h.mem y flt slt).mp hy'] at hclass
        cases hclass
        exact hij ⟨rfl, rfl⟩
      refine (h.dlist i j).congr (fun y hy => ?_) fun y hy => ?_
      · have hyx : y ≠ x := fun heq => hother y hy (heq ▸ hmem)
        rw [hprv i j y hy hyx, if_neg]
        intro heq
        rcases (h.dlist flt slt).next_mem hmem with hnil | hnext
        · have hypos := h.pos y (h.node hy)
          omega
        · exact hother y hy (heq ▸ hnext)
      · have hyx : y ≠ x := fun heq => hother y hy (heq ▸ hmem)
        rw [hnxt i j y hy hyx, if_neg]
        intro heq
        by_cases hhead : (L flt slt).headD 0 = x
        · have hzero := (h.dlist flt slt).prev_head hmem hhead
          have hypos := h.pos y (h.node hy)
          omega
        · exact hother y hy (heq ▸ (h.dlist flt slt).prev_mem hmem hhead)
  · exact hbits
  · intro i
    rw [hfl]
    by_cases hi : i = flt
    · rw [hi]
      by_cases hnone : (s.mmTbl flt slt = x ∧ s.freeNext x = 0) ∧
          s.slBitmap flt &&& ~~~(BitVec.twoPow 32 slt) = 0
      · have hzero : (s.getBlock x flt slt).slBitmap flt = 0 := by
          rw [hsl, if_pos ⟨hnone.1.1, hnone.1.2, rfl⟩]
          exact hnone.2
        rw [if_pos hnone, BitVec.getLsbD_and, BitVec.getLsbD_not, BitVec.getLsbD_twoPow,
          decide_eq_true rfl]
        constructor
        · intro hbit
          have hflt32 : decide (flt < 32) = true := by
            rw [Bool.and_eq_true] at hbit
            exact decide_eq_true (BitVec.lt_of_getLsbD hbit.1)
          rw [hflt32] at hbit
          simp at hbit
        · rintro ⟨j, hj⟩
          have hbit := (hbits flt j).mpr hj
          rw [hzero] at hbit
          simp at hbit
      · rw [if_neg hnone, h.fl]
        refine ⟨fun _ => ?_, fun _ => ⟨slt, List.ne_nil_of_mem hmem⟩⟩
        by_cases hend : s.mmTbl flt slt = x ∧ s.freeNext x = 0
        · -- another list of the same power of two has a node
          have hne : (s.getBlock x flt slt).slBitmap flt ≠ 0 := by
            rw [hsl, if_pos ⟨hend.1, hend.2, rfl⟩]
            exact fun hc => hnone ⟨hend, hc⟩
          exact ⟨_, (hbits flt _).mp (findLastBit_spec hne).1⟩
        · refine ⟨slt, ?_⟩
          unfold eraseAt
          rw [if_pos ⟨rfl, rfl⟩]
          exact fun hnil => hend (hlast.mp hnil)
    · have hsame : ∀ j, eraseAt L x flt slt i j = L i j := fun j => if_neg fun hc => hi hc.1
      simp only [hsame]
      rw [← h.fl]
      split
      · rw [BitVec.getLsbD_and, BitVec.getLsbD_not, BitVec.getLsbD_twoPow,
          decide_eq_false (Ne.symm hi), Bool.and_false, Bool.and_eq_true]
        refine ⟨fun hc => hc.1, fun hbit => ⟨hbit, ?_⟩⟩
        rw [decide_eq_true (BitVec.lt_of_getLsbD hbit)]
        rfl
      · exact Iff.rfl
  · intro y i j hy
    have hyx : y ≠ x := (hold y (by rw [hy]; exact Option.some_ne_none _)).1
    rw [Function.update_of_ne hyx] at hy
    exact h.range y i j hy
  · intro y hy
    exact h.pos y (hold y hy).2
  · intro y z hy hz hyz
    exact h.spaced y z (hold y hy).2 (hold z hz).2 hyz

theorem Indexed.getBlock (h : Indexed s F) (hx : F x = some (flt, slt)) :
    Indexed (s.getBlock x flt slt) (Function.update F x none) := by
  rcases h with ⟨L, h⟩
  exact ⟨_, h.getBlock hx⟩

/-- What is written: links of nodes. -/
theorem getBlock_frame (h : Indexed s F) (hx : F x = some (flt, slt)) {w : Nat}
    (hw : ¬LinkWord F w) : (s.getBlock x flt slt).mem w = s.mem w := by
  rcases h with ⟨L, h⟩
  have hmem := (h.mem x flt slt).mpr hx
  have hnode := h.node hmem
  rcases h.neighbours hx with ⟨hn, hn', -⟩
  rw [getBlock_mem s hn hn', if_neg fun hc => hw ⟨x, hnode, Or.inr hc⟩,
    if_neg fun hc => hw ⟨x, hnode, Or.inl hc⟩, if_neg, if_neg]
  · rintro ⟨hne, heq⟩
    have hnext := ((h.dlist flt slt).next_mem hmem).resolve_left hne
    exact hw ⟨_, h.node hnext, Or.inl heq⟩
  · rintro ⟨hne, heq⟩
    by_cases hhead : (L flt slt).headD 0 = x
    · exact hne ((h.dlist flt slt).prev_head hmem hhead)
    · exact hw ⟨_, h.node ((h.dlist flt slt).prev_mem hmem hhead), Or.inr heq⟩

/-! ## The first of a list -/

/-- The first node of a list that has one. -/
theorem IndexedBy.first (h : IndexedBy s F L) (hne : L flt slt ≠ []) :
    F (s.mmTbl flt slt) = some (flt, slt) ∧ s.freePrev (s.mmTbl flt slt) = 0 := by
  have hhead := h.head flt slt
  have hdlist := h.dlist flt slt
  cases hl : L flt slt with
  | nil => exact absurd hl hne
  | cons a l =>
      rw [hl] at hhead hdlist
      have ha : s.mmTbl flt slt = a := hhead
      rw [ha]
      exact ⟨(h.mem a flt slt).mp (hl ▸ List.mem_cons_self), hdlist.1⟩

/-- The first block of a list is taken as any other. -/
theorem popBlock_eq (s : Mm) (hhead : s.mmTbl flt slt = x) (hprev : s.freePrev x = 0)
    (hn : s.freeNext x + 8 ≠ x + 8) (hn' : s.freeNext x + 8 ≠ x + 12) :
    s.popBlock x flt slt = s.getBlock x flt slt := by
  have hself : (s.setTbl flt slt (s.freeNext x)).mmTbl flt slt = s.freeNext x := by
    rw [setTbl_mmTbl, if_pos ⟨rfl, rfl⟩]
  unfold Mm.popBlock Mm.getBlock
  dsimp only
  by_cases hnext : s.freeNext x ≠ 0
  · have hprev' : (s.setFreePrev (s.freeNext x) (s.freePrev x)).freePrev x = s.freePrev x :=
      Function.update_of_ne (Ne.symm hn) _ _
    have hkeep : (s.setFreePrev (s.freeNext x) (s.freePrev x)).freeNext x = s.freeNext x :=
      Function.update_of_ne (Ne.symm hn') _ _
    have hhead' : (s.setFreePrev (s.freeNext x) (s.freePrev x)).mmTbl flt slt = x := hhead
    have hself' : ((s.setFreePrev (s.freeNext x) (s.freePrev x)).setTbl flt slt
        (s.freeNext x)).mmTbl flt slt = s.freeNext x := by
      rw [setTbl_mmTbl, if_pos ⟨rfl, rfl⟩]
    rw [hself, if_pos hnext, if_pos hnext, hprev', if_neg (not_not.mpr hprev), if_pos hhead', hkeep,
      hself', if_neg hnext, hprev]
    rfl
  · rw [hself, if_neg hnext, if_neg hnext, if_neg (not_not.mpr hprev), if_pos hhead, hself,
      if_pos (not_not.mp hnext)]

/-! ## What is found -/

theorem getLsbD_mask (b : BitVec 32) (n i : Nat) :
    (b &&& (BitVec.allOnes 32 <<< n)).getLsbD i = true ↔ b.getLsbD i = true ∧ n ≤ i := by
  rw [BitVec.getLsbD_and, BitVec.getLsbD_shiftLeft, BitVec.getLsbD_allOnes, Bool.and_eq_true]
  constructor
  · rintro ⟨hb, hmask⟩
    simp only [Bool.and_eq_true, Bool.not_eq_true', decide_eq_true_eq, decide_eq_false_iff_not]
      at hmask
    exact ⟨hb, by omega⟩
  · rintro ⟨hb, hle⟩
    have hlt := BitVec.lt_of_getLsbD hb
    refine ⟨hb, ?_⟩
    simp only [Bool.and_eq_true, Bool.not_eq_true', decide_eq_true_eq, decide_eq_false_iff_not]
    omega

/-- What is found is the first block of a list whose class is not below the one that is asked
    for. -/
theorem Indexed.findblkByidx (h : Indexed s F) {b flt' slt' : Nat}
    (hfound : s.findblkByidx flt slt = (b, flt', slt')) (hb : b ≠ 0) :
    F b = some (flt', slt') ∧ s.mmTbl flt' slt' = b ∧ s.freePrev b = 0 ∧
      ClassLe flt slt flt' slt' := by
  rcases h with ⟨L, h⟩
  unfold Mm.findblkByidx at hfound
  dsimp only at hfound
  by_cases hsame : s.slBitmap flt &&& (BitVec.allOnes 32 <<< slt) ≠ 0
  · -- in the second level
    rw [if_pos hsame] at hfound
    simp only [Prod.mk.injEq] at hfound
    rcases hfound with ⟨rfl, rfl, hslt⟩
    have hbit := (getLsbD_mask _ _ _).mp (findLastBit_spec hsame).1
    rw [hslt] at hbit ⊢
    have hfirst := h.first ((h.sl flt slt').mp hbit.1)
    exact ⟨hfirst.1, rfl, hfirst.2, Or.inr ⟨rfl, hbit.2⟩⟩
  · rw [if_neg hsame] at hfound
    by_cases hup : findLastBit (s.flBitmap &&& (BitVec.allOnes 32 <<< (flt + 1))) > 0
    · -- in the first level, above
      rw [if_pos hup] at hfound
      simp only [Prod.mk.injEq] at hfound
      rcases hfound with ⟨hhead, hflt, hslt⟩
      have hne : s.flBitmap &&& (BitVec.allOnes 32 <<< (flt + 1)) ≠ 0 := by
        intro hzero
        rw [hzero, findLastBit, if_pos rfl] at hup
        exact Nat.lt_irrefl 0 hup
      have hbit := (getLsbD_mask _ _ _).mp (findLastBit_spec hne).1
      rw [hflt] at hbit hslt hhead
      rw [hslt] at hhead
      -- A bit of the first level says that its row is not empty.
      rcases (h.fl flt').mp hbit.1 with ⟨j, hj⟩
      have hsl : s.slBitmap flt' ≠ 0 := by
        intro hzero
        have hlist := (h.sl flt' j).mpr hj
        rw [hzero] at hlist
        exact Bool.false_ne_true (BitVec.getLsbD_zero.symm.trans hlist)
      have hlist := (h.sl flt' _).mp (findLastBit_spec hsl).1
      rw [hslt] at hlist
      have hfirst := h.first hlist
      rw [hhead] at hfirst
      exact ⟨hfirst.1, hhead, hfirst.2, Or.inl (by omega)⟩
    · rw [if_neg hup] at hfound
      simp only [Prod.mk.injEq] at hfound
      exact absurd hfound.1.symm hb

/-- Where nothing is found, every list of such a class is empty. -/
theorem Indexed.findblkByidx_none (h : Indexed s F) {flt' slt' : Nat}
    (hnone : (s.findblkByidx flt slt).1 = 0) (hx : F x = some (flt', slt')) :
    ¬ClassLe flt slt flt' slt' := by
  rcases h with ⟨L, h⟩
  have hmem : x ∈ L flt' slt' := (h.mem x flt' slt').mpr hx
  -- the first block of a list is not at 0
  have hhead : ∀ i j, L i j ≠ [] → s.mmTbl i j ≠ 0 := by
    intro i j hlist hzero
    have hfirst := (h.first hlist).1
    rw [hzero] at hfirst
    exact Nat.lt_irrefl 0 (h.pos 0 (hfirst ▸ Option.some_ne_none _))
  unfold Mm.findblkByidx at hnone
  dsimp only at hnone
  by_cases hsame : s.slBitmap flt &&& (BitVec.allOnes 32 <<< slt) ≠ 0
  · rw [if_pos hsame] at hnone
    have hbit := (getLsbD_mask _ _ _).mp (findLastBit_spec hsame).1
    exact absurd hnone (hhead _ _ ((h.sl _ _).mp hbit.1))
  · rw [if_neg hsame] at hnone
    rintro (hlt | ⟨rfl, hle⟩)
    · have hbit : (s.flBitmap &&& (BitVec.allOnes 32 <<< (flt + 1))).getLsbD flt' = true :=
        (getLsbD_mask _ _ _).mpr ⟨(h.fl flt').mpr ⟨slt', List.ne_nil_of_mem hmem⟩, hlt⟩
      have hne : s.flBitmap &&& (BitVec.allOnes 32 <<< (flt + 1)) ≠ 0 := by
        intro hzero
        rw [hzero] at hbit
        exact Bool.false_ne_true (BitVec.getLsbD_zero.symm.trans hbit)
      have hlow := (getLsbD_mask _ _ _).mp (findLastBit_spec hne).1
      rw [if_pos (by omega)] at hnone
      -- the level that is found has a list that is not empty
      obtain ⟨j, hj⟩ := (h.fl _).mp hlow.1
      have hsl : s.slBitmap (findLastBit (s.flBitmap &&& (BitVec.allOnes 32 <<< (flt + 1)))) ≠ 0 := by
        intro hzero
        have hlist := (h.sl _ j).mpr hj
        rw [hzero] at hlist
        exact Bool.false_ne_true (BitVec.getLsbD_zero.symm.trans hlist)
      exact absurd hnone (hhead _ _ ((h.sl _ _).mp (findLastBit_spec hsl).1))
    · have hbit := (getLsbD_mask _ _ _).mpr
        ⟨(h.sl flt slt').mpr (List.ne_nil_of_mem hmem), hle⟩
      rw [not_not.mp hsame] at hbit
      exact Bool.false_ne_true (BitVec.getLsbD_zero.symm.trans hbit)

end Index

end Rhino

end Wujian100
