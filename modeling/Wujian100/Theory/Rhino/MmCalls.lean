import Wujian100.Theory.Rhino.MmHole

/-!
# The Calls on Blocks

What `k_mm_alloc`, `k_mm_free` and `k_mm_realloc` do to the blocks of a region. Of these only the
ones that are allocated matter to a caller, and how many bytes are not: a call puts one more
between the others, takes one out, or replaces one by another at its address.

## Main definitions

* `allocs`, `freeBytes`: What a caller sees of the blocks.
* `HeapHas`: A region, as a caller sees it.
* `allocSize`: The size that is looked for.

## Theorems

* `Hole.splitBlk`: A free block is split off.
* `Rep.tlsfAlloc`: One block more.
* `Rep.tlsfFree`: One block less.
* `Rep.shrinkBlk`, `Rep.growBlk`: One block of another size.
-/

namespace Wujian100

namespace Rhino

/-! ## What a caller sees -/

/-- The blocks that are allocated. -/
def allocs (bs : List Blk) : List Blk := bs.filter fun b => !b.free

/-- The bytes that are not, headers included. -/
def freeBytes : List Blk → Nat
  | [] => 0
  | b :: bs => (if b.free then 8 + b.size else 0) + freeBytes bs

/-- The blocks `as` of the region are allocated, and `free` bytes of it are not. -/
def HeapHas (a₀ e : Nat) (os : List Blk) (s : Mm) (as : List Blk) (free : Nat) : Prop :=
  ∃ bs, Rep a₀ e os s bs ∧ allocs bs = as ∧ freeBytes bs = free

section Allocs

variable {xs ys bs : List Blk} {b x : Blk} {w : Nat}

theorem allocs_append (xs ys : List Blk) : allocs (xs ++ ys) = allocs xs ++ allocs ys :=
  List.filter_append xs ys

theorem allocs_cons_free (h : b.free = true) : allocs (b :: bs) = allocs bs := by
  unfold allocs
  rw [List.filter_cons_of_neg]
  rw [h]
  exact Bool.false_ne_true

theorem allocs_cons_alloc (h : b.free = false) : allocs (b :: bs) = b :: allocs bs := by
  unfold allocs
  rw [List.filter_cons_of_pos]
  rw [h]
  rfl

theorem mem_allocs : x ∈ allocs bs ↔ x ∈ bs ∧ x.free = false := by
  unfold allocs
  rw [List.mem_filter, Bool.not_eq_true']

theorem freeBytes_append (xs ys : List Blk) :
    freeBytes (xs ++ ys) = freeBytes xs + freeBytes ys := by
  induction xs with
  | nil => exact (Nat.zero_add _).symm
  | cons x xs ih =>
      rw [List.cons_append, freeBytes, ih, freeBytes, Nat.add_assoc]

theorem freeBytes_cons_free (h : b.free = true) :
    freeBytes (b :: bs) = 8 + b.size + freeBytes bs := by
  rw [freeBytes, if_pos h]

theorem freeBytes_cons_alloc (h : b.free = false) : freeBytes (b :: bs) = freeBytes bs := by
  rw [freeBytes, h, if_neg Bool.false_ne_true, Nat.zero_add]

theorem owned_iff_allocs : Owned bs w ↔ Owned (allocs bs) w := by
  constructor
  · rintro ⟨x, hx, hfree, hw⟩
    exact ⟨x, mem_allocs.mpr ⟨hx, hfree⟩, hfree, hw⟩
  · rintro ⟨x, hx, hfree, hw⟩
    exact ⟨x, (mem_allocs.mp hx).1, hfree, hw⟩

/-- What is kept depends on the blocks that are allocated. -/
theorem kept_congr {a₀ e : Nat} {os : List Blk} (h : allocs xs = allocs ys) :
    Kept a₀ e os xs w ↔ Kept a₀ e os ys w := by
  unfold Kept
  rw [owned_iff_allocs, h, ← owned_iff_allocs]

end Allocs

/-! ## Headers that are written -/

section Words

variable {s : Mm} {a b w : Nat}

theorem size_setSize_self (s : Mm) (b w : Nat) : (s.setSize b w).size b = w :=
  Function.update_self _ _ _

theorem size_setSize_of_ne (h : a ≠ b) : (s.setSize b w).size a = s.size a :=
  Function.update_of_ne (fun hc => h (Nat.add_right_cancel hc)) _ _

theorem size_setPrev_of_ne (h : a + 4 ≠ b) : (s.setPrev b w).size a = s.size a :=
  Function.update_of_ne h _ _

theorem prev_setPrev_self (s : Mm) (b w : Nat) : (s.setPrev b w).prev b = w :=
  Function.update_self _ _ _

theorem prev_setSize_of_ne (h : a ≠ b + 4) : (s.setSize b w).prev a = s.prev a :=
  Function.update_of_ne h _ _

theorem prestat_of_bit {pf : Bool} (h : isPrevFree w ↔ pf = true) : prestat w = 2 * pf.toNat := by
  unfold prestat
  unfold isPrevFree at h
  cases pf with
  | true =>
      rw [h.mpr rfl]
      rfl
  | false =>
      have hno : ¬w / 2 % 2 = 1 := fun hc => Bool.false_ne_true (h.mp hc)
      rw [show w / 2 % 2 = 0 by omega]
      rfl

end Words

section Stats

variable {s t : Mm}

theorem OnlyLists.addsize (h : OnlyLists s t) (n : Nat) :
    OnlyLists (s.addsize n) (t.addsize n) := by
  refine ⟨h.regioninfo, h.fixedmblk, ?_, ?_, ?_, ?_, ?_, h.pool, h.small⟩
  · unfold Mm.addsize
    dsimp only
    rw [h.usedSize]
  · unfold Mm.addsize
    dsimp only
    rw [h.usedSize, h.maxusedSize]
  · unfold Mm.addsize
    dsimp only
    rw [h.freeSize]
  · unfold Mm.addsize
    dsimp only
    rw [h.freeSize, h.clamps]
  · unfold Mm.addsize
    dsimp only
    rw [h.usedSize, h.usedLog]

theorem OnlyLists.removesize (h : OnlyLists s t) (n : Nat) :
    OnlyLists (s.removesize n) (t.removesize n) := by
  refine ⟨h.regioninfo, h.fixedmblk, ?_, h.maxusedSize, ?_, ?_, ?_, h.pool, h.small⟩
  · unfold Mm.removesize
    dsimp only
    rw [h.usedSize]
  · unfold Mm.removesize
    dsimp only
    rw [h.freeSize]
  · unfold Mm.removesize
    dsimp only
    rw [h.usedSize, h.clamps]
  · unfold Mm.removesize
    dsimp only
    rw [h.usedSize, h.usedLog]

end Stats

section Calls

variable {m₀ : Nat → Nat} {a₀ e p b len keep size : Nat} {pf : Bool} {os pre post : List Blk}
  {s t : Mm} {f : Blk}

/-- Numbers aside, a heap is the same. -/
theorem Rep.onlyNumbers {bs : List Blk} (h : Rep a₀ e os s bs) (hmem : t.mem = s.mem)
    (htbl : t.mmTbl = s.mmTbl) (hsl : t.slBitmap = s.slBitmap) (hfl : t.flBitmap = s.flBitmap) :
    Rep a₀ e os t bs := by
  refine ⟨h.region, ?_, h.lists.congr (fun w _ => congrFun hmem w) htbl hsl hfl⟩
  rw [hmem]
  exact h.chain

/-! ## Filling the hole -/

/-- With one block that is allocated. -/
theorem Hole.closeAlloc (h : Hole m₀ a₀ e os s pre [] post p pf b len keep)
    (hb : s.size b = len + 2 * pf.toNat)
    (hn : s.size (b + 8 + len) = headSize post + (headFree post).toNat) :
    Rep a₀ e os s (pre ++ ⟨b, len, false⟩ :: post) := by
  have hseg : Seg s.mem p pf b [⟨b, len, false⟩] b false (b + 8 + len) :=
    ⟨rfl, h.long, fun hc => Bool.false_ne_true hc.2, ⟨hb, h.back⟩, rfl, rfl, rfl⟩
  refine h.close hseg hn (fun hc => Bool.noConfusion hc) (fun hc => Bool.false_ne_true hc.1) ?_
  intro x hx
  constructor
  · intro hmem
    rw [List.mem_singleton.mp hmem] at hx
    exact Bool.noConfusion hx
  · exact fun hmem => absurd hmem List.not_mem_nil

/-- With one block that is free. -/
theorem Hole.closeFree (h : Hole m₀ a₀ e os s pre [⟨b, len, true⟩] post p false b len keep)
    (hb : s.size b = len + 1) (hn : s.size (b + 8 + len) = headSize post + 2)
    (hprev : s.prev (b + 8 + len) = b) (hfree : headFree post = false) :
    Rep a₀ e os s (pre ++ ⟨b, len, true⟩ :: post) := by
  have hseg : Seg s.mem p false b [⟨b, len, true⟩] b true (b + 8 + len) :=
    ⟨rfl, h.long, fun hc => Bool.false_ne_true hc.1, ⟨hb, h.back⟩, rfl, rfl, rfl⟩
  refine h.close hseg ?_ (fun _ => hprev) (fun hc => ?_) fun x _ => Iff.rfl
  · rw [hn, hfree]
    rfl
  · rw [hfree] at hc
    exact Bool.false_ne_true hc.2

/-- With one block that is allocated and what is left, which is free. -/
theorem Hole.splitBlk (h : Hole m₀ a₀ e os s pre [] post p pf b len keep) (mark : Bool)
    (hsize : 8 ≤ size ∧ size % 4 = 0) (hroom : size + 16 ≤ len)
    (hshort : len < 2 ^ maxMmBit) (hkeep : keep ≤ size) (hfree : headFree post = false)
    (hmark : mark = true ∨ s.size (b + 8 + len) = headSize post + 2) :
    ∃ t, s.splitBlk b size (len - size) (b + 8 + len) mark = t ∧ OnlyLists s t ∧
      t.size b = size + 2 * pf.toNat ∧
      Rep a₀ e os t (pre ++ ⟨b, size, false⟩ :: ⟨b + 8 + size, len - size - 8, true⟩ :: post) ∧
      (∀ w, Kept a₀ e os (pre ++ post) w → t.mem w = m₀ w) ∧
      ∀ w, b + 8 ≤ w → w < b + 8 + keep → t.mem w = m₀ w := by
  have hlong := h.long
  have hshape : Blk.Shaped ⟨b + 8 + size, len - size - 8, true⟩ := by
    unfold Blk.Shaped
    dsimp only
    omega
  -- the headers before the free block is put in its list
  have hmid : ∃ u, (if mark then
        ((s.setSize (b + 8 + size) (len - size - 8 + 1)).setPrev (b + 8 + len)
          (b + 8 + size)).setSize (b + 8 + len)
          (setPrevFree (((s.setSize (b + 8 + size) (len - size - 8 + 1)).setPrev (b + 8 + len)
            (b + 8 + size)).size (b + 8 + len)))
      else (s.setSize (b + 8 + size) (len - size - 8 + 1)).setPrev (b + 8 + len) (b + 8 + size)) = u ∧
      Hole m₀ a₀ e os u pre [] post p pf b len keep ∧ OnlyLists s u ∧
      u.size (b + 8 + size) = len - size - 8 + 1 ∧ u.size (b + 8 + len) = headSize post + 2 ∧
      u.prev (b + 8 + len) = b + 8 + size := by
    have h₁ := (h.setInner (b + 8 + size) (len - size - 8 + 1) (by omega)
      (by omega)).setNextPrev (b + 8 + size)
    have hb₂ : ((s.setSize (b + 8 + size) (len - size - 8 + 1)).setPrev (b + 8 + len)
        (b + 8 + size)).size (b + 8 + size) = len - size - 8 + 1 := by
      rw [size_setPrev_of_ne (by omega), size_setSize_self]
    have honly : OnlyLists s ((s.setSize (b + 8 + size) (len - size - 8 + 1)).setPrev (b + 8 + len)
        (b + 8 + size)) := (onlyLists_setSize s _ _).trans (onlyLists_setPrev _ _ _)
    by_cases hm : mark = true
    · obtain ⟨q, hq⟩ := h₁.tag
      have hhead : headSize post % 4 = 0 := by
        cases hpost : post with
        | nil => rfl
        | cons y ys => exact (h.post_le (hpost ▸ List.mem_cons_self)).1.2
      have hset := setPrevFree_tag hhead (headFree post) q
      rw [if_pos hm, hq, hset]
      refine ⟨_, rfl, h₁.setNextSize true, honly.trans (onlyLists_setSize _ _ _), ?_, ?_, ?_⟩
      · rw [size_setSize_of_ne (by omega), hb₂]
      · rw [size_setSize_self, hfree]
        rfl
      · rw [prev_setSize_of_ne (by omega), prev_setPrev_self]
    · rw [if_neg hm]
      refine ⟨_, rfl, h₁, honly, hb₂, ?_, prev_setPrev_self _ _ _⟩
      rw [size_setPrev_of_ne (by omega), size_setSize_of_ne (by omega)]
      exact hmark.resolve_left hm
  obtain ⟨u, hu, h₂, honly, hub₂, hun, hup⟩ := hmid
  obtain ⟨h₃, hmem₃⟩ := h₂.insertFree (f := ⟨b + 8 + size, len - size - 8, true⟩) rfl
    hshape (by dsimp only; omega) (by dsimp only; omega) (by dsimp only; omega)
  dsimp only at h₃ hmem₃
  have hn₃ : (u.insertFree (b + 8 + size) (len - size - 8)).size (b + 8 + len)
      = u.size (b + 8 + len) := hmem₃ _ (by omega) (by omega) (by omega) (by omega)
  have hp₃ : (u.insertFree (b + 8 + size) (len - size - 8)).prev (b + 8 + len)
      = u.prev (b + 8 + len) := hmem₃ _ (by omega) (by omega) (by omega) (by omega)
  have hf₃ : (u.insertFree (b + 8 + size) (len - size - 8)).size (b + 8 + size)
      = u.size (b + 8 + size) := hmem₃ _ (by omega) (by omega) (by omega) (by omega)
  have hpre : prestat ((u.insertFree (b + 8 + size) (len - size - 8)).size b) = 2 * pf.toNat :=
    prestat_of_bit h₃.bit
  have hbit : isPrevFree (size + 2 * pf.toNat) ↔ pf = true := by
    have := isPrevFree_tag hsize.2 false pf
    exact this
  have h₄ := h₃.setSize hbit
  refine ⟨(u.insertFree (b + 8 + size) (len - size - 8)).setSize b (size + 2 * pf.toNat), ?_, ?_,
    size_setSize_self _ _ _, ?_, h₄.frame, h₄.data⟩
  · unfold Mm.splitBlk mmlistHeadSize
    dsimp only
    rw [h.next_eq (by omega), hu, hpre]
  · exact (honly.trans (onlyLists_insertFree _ _ _)).trans (onlyLists_setSize _ _ _)
  · have hseg : Seg ((u.insertFree (b + 8 + size) (len - size - 8)).setSize b
        (size + 2 * pf.toNat)).mem p pf b
        [⟨b, size, false⟩, ⟨b + 8 + size, len - size - 8, true⟩] (b + 8 + size) true
        (b + 8 + len) := by
      refine ⟨rfl, hsize, fun hc => Bool.false_ne_true hc.2, ⟨?_, h₄.back⟩, rfl, hshape,
        fun hc => Bool.false_ne_true hc.1, ⟨?_, fun hc => Bool.noConfusion hc⟩, rfl, rfl, ?_⟩
      · exact size_setSize_self _ _ _
      · refine (size_setSize_of_ne (a := b + 8 + size) (by omega)).trans ?_
        rw [hf₃, hub₂]
        rfl
      · dsimp only
        omega
    refine h₄.close hseg ?_ (fun _ => ?_) (fun hc => ?_) ?_
    · rw [size_setSize_of_ne (by omega), hn₃, hun, hfree]
      rfl
    · rw [prev_setSize_of_ne (by omega), hp₃, hup]
    · rw [hfree] at hc
      exact Bool.false_ne_true hc.2
    · intro x hx
      rw [List.mem_cons, List.mem_singleton, or_iff_right]
      rintro rfl
      exact Bool.noConfusion hx

/-! ## `k_mm_alloc` -/

/-- The size that `k_mm_alloc` looks for. -/
def allocSize (size : Nat) : Nat :=
  if mmAlignUp size < allocMinLength then allocMinLength else mmAlignUp size

theorem allocSize_spec (h : size ≤ sizeLimit) :
    size ≤ allocSize size ∧ allocSize size ≤ sizeLimit ∧ 8 ≤ allocSize size ∧
      allocSize size % 4 = 0 := by
  unfold sizeLimit at h ⊢
  unfold allocSize mmAlignUp allocMinLength
  split_ifs with hsmall
  · omega
  · omega

/-- A block that is found is long enough, and it is the first of its list. -/
theorem FreeLists.found {bs : List Blk} {flt slt flt' slt' : Nat} (h : FreeLists s bs)
    (hbs : ∀ x ∈ bs, x.free = true → x.Shaped ∧ x.size < 2 ^ maxMmBit) (haligned : size % 4 = 0)
    (hfits : size ≤ sizeLimit) (hsearch : bitmapSearch size .get = (true, flt, slt))
    (hfound : s.findblkByidx flt slt = (b, flt', slt')) (hb : b ≠ 0) :
    ∃ f ∈ bs, f.free = true ∧ f.addr = b ∧ size ≤ f.size ∧
      s.popBlock b flt' slt' = s.getBlock b (classOf f.size).1 (classOf f.size).2 := by
  obtain ⟨F, hF, hindex⟩ := h
  obtain ⟨hclass, hhead, hprev, hle⟩ := hindex.findblkByidx hfound hb
  obtain ⟨f, hf, hfree, rfl, hsame⟩ := (hF _ _).mp hclass
  obtain ⟨hflt, hslt, hbase⟩ := le_classBase haligned hfits hsearch
  obtain ⟨hshape, hshort⟩ := hbs f hf hfree
  have hmono := classBase_mono hle hslt
  have hlow := classBase_le hshape.2 hshort
  rw [hsame] at hlow
  obtain ⟨L, hL⟩ := hindex
  obtain ⟨hn, hn', -⟩ := hL.neighbours hclass
  refine ⟨f, hf, hfree, rfl, hbase.trans (hmono.trans hlow), ?_⟩
  rw [hsame]
  exact popBlock_eq s hhead hprev hn hn'

/-- The free blocks of a heap are not too long for the lists. -/
theorem Rep.shaped {bs : List Blk} (h : Rep a₀ e os s bs) :
    ∀ x ∈ os ++ bs, x.free = true → x.Shaped ∧ x.size < 2 ^ maxMmBit := by
  intro x hx hfree
  rcases List.mem_append.mp hx with hos | hbs
  · obtain ⟨hshape, hsize, -⟩ := h.region.apart x hos
    exact ⟨hshape, hsize⟩
  · obtain ⟨hshape, hlow, hhigh⟩ := h.chain.mem_le x hbs
    have htop := h.region.top
    exact ⟨hshape, h.lists.lt hx hfree (by omega)⟩

/-- What `k_mm_alloc` does with the block it found, once it is out of its list. -/
def takeBlk (s : Mm) (b size : Nat) : Nat × Mm :=
  let nextB := nextMmBlk (b + mmlistHeadSize) (blksize (s.size b))
  let tmpSize := (blksize (s.size b) + 2 ^ 32 - size) % 2 ^ 32
  let s :=
    if tmpSize ≥ kMmListSize then s.splitBlk b size tmpSize nextB false
    else
      let s := s.setSize nextB (clearPrevFree (s.size nextB))
      s.setSize b (clearFree (s.size b))
  (b + mmlistHeadSize, s.addsize (blksize (s.size b) + mmlistHeadSize))

theorem tlsfAlloc_eq (s : Mm) (size : Nat) :
    s.tlsfAlloc size =
      match bitmapSearch (allocSize size) .get with
      | (false, _, _) => (0, s)
      | (true, flt, slt) =>
          match s.findblkByidx flt slt with
          | (b, flt, slt) =>
              if b = 0 then (0, s) else takeBlk (s.popBlock b flt slt) b (allocSize size) := rfl

/-- The block is taken. -/
theorem Rep.takeBlk (h : Rep a₀ e os s (pre ++ f :: post)) (hfree : f.free = true)
    (hsize : 8 ≤ size ∧ size % 4 = 0) (hle : size ≤ f.size) :
    ∃ n rest t, takeBlk (s.getFree f.addr) f.addr size = (f.addr + 8, t) ∧ size ≤ n ∧
      n < size + 16 ∧ n ≤ f.size ∧
      Rep a₀ e os t (pre ++ ⟨f.addr, n, false⟩ :: rest) ∧ allocs rest = allocs post ∧
      freeBytes rest + n = freeBytes post + f.size ∧
      (∀ w, Kept a₀ e os (pre ++ post) w → t.mem w = s.mem w) ∧
      OnlyLists (s.addsize (8 + n)) t := by
  -- The block is opened as a hole, and taken off its free list.
  obtain ⟨p, h₁, hsz, hnext, hpost⟩ := h.openFree hfree
  have hshort := (h.shaped f (by simp only [List.mem_append, List.mem_cons, true_or, or_true])
    hfree).2
  have hlong := h₁.long
  have hblk : blksize (f.size + 1) = f.size := blksize_tag hlong.2 true false
  obtain ⟨h₂, hmem⟩ := h₁.getFree hfree (by rw [hsz, hblk]) (Nat.le_refl _)
  have honly := onlyLists_getFree s f.addr
  have hb : (s.getFree f.addr).size f.addr = f.size + 1 :=
    (hmem _ (by omega) (by omega) (by omega) (by omega)).trans hsz
  have hn : (s.getFree f.addr).size (f.addr + 8 + f.size) = headSize post + 2 :=
    (hmem _ (by omega) (by omega) (by omega) (by omega)).trans hnext
  have hpow : (2 : Nat) ^ maxMmBit < 2 ^ 32 := by decide
  have htmp : (f.size + 2 ^ 32 - size) % 2 ^ 32 = f.size - size := by omega
  unfold Rhino.takeBlk mmlistHeadSize kMmListSize
  dsimp only
  rw [hb, hblk, h₂.next_eq (Nat.le_refl _), htmp]
  by_cases hroom : f.size - size ≥ 16
  · -- the rest of the block stays free
    obtain ⟨t, ht, hother, htb, hrep, hframe, -⟩ := h₂.splitBlk false hsize (by omega) hshort
      (Nat.zero_le _) hpost (Or.inr hn)
    have hblk' : blksize (size + 2 * false.toNat) = size := blksize_tag hsize.2 false false
    rw [if_pos hroom, ht, htb, hblk', Nat.add_comm size 8]
    refine ⟨size, _, t.addsize (8 + size), rfl, Nat.le_refl _, by omega, hle,
      hrep.onlyNumbers rfl rfl rfl rfl, allocs_cons_free rfl, ?_, hframe,
      (honly.trans hother).addsize _⟩
    rw [freeBytes_cons_free rfl]
    dsimp only
    omega
  · -- the block is taken as a whole
    have hhead : headSize post % 4 = 0 := by
      cases hpost' : post with
      | nil => rfl
      | cons y ys => exact (h₂.post_le (hpost' ▸ List.mem_cons_self)).1.2
    -- The next block learns that the one before it is no longer free.
    have hclear : clearPrevFree (headSize post + 2) = headSize post + (headFree post).toNat
        + 2 * false.toNat := by
      have htag := clearPrevFree_tag hhead (headFree post) true
      rwa [hpost] at htag ⊢
    have hclear' : clearFree (f.size + 1) = f.size := by
      unfold clearFree
      omega
    have h₃ := (h₂.setNextSize false).setSize (w := f.size) (by
      have hbit := isPrevFree_tag hlong.2 false false
      exact hbit)
    have hself : ((s.getFree f.addr).setSize (f.addr + 8 + f.size) (headSize post
        + (headFree post).toNat + 2 * false.toNat)).size f.addr = f.size + 1 := by
      rw [size_setSize_of_ne (by omega), hb]
    rw [if_neg hroom, hn, hclear, hself, hclear', size_setSize_self]
    have hblk' : blksize f.size = f.size := blksize_tag hlong.2 false false
    rw [hblk', Nat.add_comm f.size 8]
    refine ⟨f.size, post, _, rfl, hle, by omega, Nat.le_refl _, ?_, rfl, rfl, h₃.frame, ?_⟩
    · refine Rep.onlyNumbers (h₃.closeAlloc (size_setSize_self _ _ _) ?_) rfl rfl rfl rfl
      rw [size_setSize_of_ne (by omega), size_setSize_self]
      rfl
    · exact ((honly.trans (onlyLists_setSize _ _ _)).trans (onlyLists_setSize _ _ _)).addsize _

/-- Nothing is taken, or a block that is free and long enough. -/
theorem Rep.tlsfAlloc {bs : List Blk} (h : Rep a₀ e os s bs) (hsize : size ≤ sizeLimit) :
    s.tlsfAlloc size = (0, s) ∨
      ∃ f ∈ os ++ bs, f.free = true ∧ ∀ pre post, bs = pre ++ f :: post →
        ∃ n rest t, s.tlsfAlloc size = (f.addr + 8, t) ∧ allocSize size ≤ n ∧
          n < allocSize size + 16 ∧ n ≤ f.size ∧
          Rep a₀ e os t (pre ++ ⟨f.addr, n, false⟩ :: rest) ∧ allocs rest = allocs post ∧
          freeBytes rest + n = freeBytes post + f.size ∧
          (∀ w, Kept a₀ e os (pre ++ post) w → t.mem w = s.mem w) ∧
          OnlyLists (s.addsize (8 + n)) t := by
  obtain ⟨hle, hfits, hmin, haligned⟩ := allocSize_spec hsize
  rw [tlsfAlloc_eq]
  rcases hsearch : bitmapSearch (allocSize size) .get with ⟨ok, flt, slt⟩
  cases ok with
  | false => exact Or.inl rfl
  | true =>
      dsimp only
      rcases hfound : s.findblkByidx flt slt with ⟨b, flt', slt'⟩
      dsimp only
      by_cases hb : b = 0
      · rw [if_pos hb]
        exact Or.inl rfl
      · rw [if_neg hb]
        obtain ⟨f, hf, hfree, rfl, hlong, hpop⟩ :=
          h.lists.found h.shaped haligned hfits hsearch hfound hb
        refine Or.inr ⟨f, hf, hfree, fun pre post hbs => ?_⟩
        subst hbs
        -- it is taken out of its list as `get_block` does it
        have hget : s.popBlock f.addr flt' slt' = s.getFree f.addr := by
          obtain ⟨p, -, hsz, -⟩ := h.openFree hfree
          have hblk : blksize (f.size + 1) = f.size :=
            blksize_tag (h.shaped f hf hfree).1.2 true false
          unfold Mm.getFree
          rw [hpop, hsz, hblk]
          rfl
        rw [hget]
        exact h.takeBlk hfree ⟨hmin, haligned⟩ hlong

/-- The block is in a class that `k_mm_alloc` searches. -/
def Searched (size : Nat) (f : Blk) : Prop :=
  ∃ flt slt, bitmapSearch (allocSize size) .get = (true, flt, slt) ∧
    ClassLe flt slt (classOf f.size).1 (classOf f.size).2

/-- A block is handed out exactly where there is a free one in a class that is searched. -/
theorem Rep.tlsfAlloc_iff {bs : List Blk} (h : Rep a₀ e os s bs) (hsize : size ≤ sizeLimit) :
    (s.tlsfAlloc size).1 ≠ 0 ↔ ∃ f ∈ os ++ bs, f.free = true ∧ Searched size f := by
  obtain ⟨-, hfits, -, haligned⟩ := allocSize_spec hsize
  obtain ⟨F, hF, hindex⟩ := h.lists
  rw [tlsfAlloc_eq]
  rcases hsearch : bitmapSearch (allocSize size) .get with ⟨ok, flt, slt⟩
  cases ok with
  | false =>
      constructor
      · exact fun hc => absurd rfl hc
      · rintro ⟨f, -, -, flt', slt', hf, -⟩
        rw [hsearch] at hf
        cases (Prod.mk.inj hf).1
  | true =>
      dsimp only
      rcases hfound : s.findblkByidx flt slt with ⟨b, flt', slt'⟩
      dsimp only
      by_cases hb : b = 0
      · rw [if_pos hb]
        constructor
        · exact fun hc => absurd rfl hc
        · rintro ⟨f, hf, hfree, flt₁, slt₁, hf', hle⟩
          rw [hsearch] at hf'
          obtain ⟨rfl, rfl⟩ := Prod.mk.inj (Prod.mk.inj hf').2
          have hnone : (s.findblkByidx flt slt).1 = 0 := by
            rw [hfound]
            exact hb
          exact absurd hle (hindex.findblkByidx_none hnone (hF.mem hf hfree))
      · rw [if_neg hb]
        constructor
        · intro _
          obtain ⟨hclass, -, -, hle⟩ := hindex.findblkByidx hfound hb
          obtain ⟨f, hf, hfree, -, hsame⟩ := (hF _ _).mp hclass
          refine ⟨f, hf, hfree, flt, slt, hsearch, ?_⟩
          rw [hsame]
          exact hle
        · exact fun _ => Nat.succ_ne_zero _

/-! ## `k_mm_free` -/

/-- `k_mm_free`, where the block takes the one behind it in. -/
def mergeNext (s : Mm) (b : Nat) : Mm :=
  let tmpB := nextMmBlk (b + mmlistHeadSize) (blksize (s.size b))
  if isFree (s.size tmpB) then
    let s := s.getFree tmpB
    s.setSize b (s.size b + blksize (s.size tmpB) + mmlistHeadSize)
  else s

/-- `k_mm_free`, where the block before it takes it in. -/
def mergePrev (s : Mm) (b : Nat) : Nat × Mm :=
  if isPrevFree (s.size b) then
    let tmpB := s.prev b
    let s := s.getFree tmpB
    (tmpB, s.setSize tmpB (s.size tmpB + blksize (s.size b) + mmlistHeadSize))
  else (b, s)

/-- `k_mm_free`, where the block is put in a list. -/
def putFree (s : Mm) (b : Nat) : Mm :=
  let s := s.insertFree b (blksize (s.size b))
  let tmpB := nextMmBlk (b + mmlistHeadSize) (blksize (s.size b))
  let s := s.setSize tmpB (setPrevFree (s.size tmpB))
  s.setPrev tmpB b

theorem tlsfFree_eq (s : Mm) (b : Nat) :
    s.tlsfFree b =
      let t := s.setSize b (setFree (s.size b))
      let t := mergeNext (t.removesize (blksize (t.size b) + mmlistHeadSize)) b
      putFree (mergePrev t b).2 (mergePrev t b).1 := rfl

/-- The size that a header tells is that of whole words. -/
theorem Hole.headSize_aligned {xs : List Blk}
    (h : Hole m₀ a₀ e os s pre xs post p pf b len keep) : headSize post % 4 = 0 := by
  cases hpost : post with
  | nil => rfl
  | cons y ys => exact (h.post_le (hpost ▸ List.mem_cons_self)).1.2

/-- The bytes of the first block, if it is free. -/
def firstBytes (post : List Blk) : Nat := if headFree post then 8 + headSize post else 0

/-- The bytes of the last block, if it is free. -/
def lastBytes (pre : List Blk) : Nat :=
  match pre.getLast? with
  | none => 0
  | some x => if x.free then 8 + x.size else 0

theorem lastBytes_concat (xs : List Blk) (x : Blk) :
    lastBytes (xs ++ [x]) = if x.free then 8 + x.size else 0 := by
  unfold lastBytes
  rw [List.getLast?_append, List.getLast?_singleton, Option.some_or]

/-- The header behind a segment tells whether the last block of it is free. -/
theorem Seg.lastBytes_eq {mem : Nat → Nat} {q a a' : Nat} {xs : List Blk}
    (h : Seg mem q false a xs p false a') : lastBytes xs = 0 := by
  rcases List.eq_nil_or_concat xs with rfl | ⟨ys, y, rfl⟩
  · rfl
  · rw [List.concat_eq_append] at h ⊢
    obtain ⟨p'', pf'', a'', -, -, -, -, -, -, hfree, -⟩ := seg_append.mp h
    rw [lastBytes_concat, ← hfree]
    rfl

/-- A free block before the hole is in the region, and so is one behind it. -/
theorem Hole.bytes_le (h : Hole m₀ a₀ e os s pre [] post p pf b len keep) :
    a₀ + lastBytes pre ≤ b ∧ b + 8 + len + firstBytes post ≤ e := by
  have hle := h.le
  constructor
  · rcases List.eq_nil_or_concat pre with rfl | ⟨ys, y, rfl⟩
    · exact hle.1
    · rw [List.concat_eq_append] at h ⊢
      have hy := (h.pre_le (List.mem_append_right ys List.mem_cons_self)).2
      rw [lastBytes_concat]
      split_ifs <;> omega
  · unfold firstBytes
    cases post with
    | nil => exact hle.2
    | cons y post =>
        have hy := (h.post_le List.mem_cons_self).2
        change b + 8 + len + (if headFree (y :: post) then 8 + y.size else 0) ≤ e
        split_ifs <;> omega

theorem Hole.mergeNext (h : Hole m₀ a₀ e os s pre [] post p pf b len keep) (free : Bool)
    (hb : s.size b = len + free.toNat + 2 * pf.toNat) :
    ∃ len' post', Hole m₀ a₀ e os (mergeNext s b) pre [] post' p pf b len' keep ∧
      (mergeNext s b).size b = len' + free.toNat + 2 * pf.toNat ∧ headFree post' = false ∧
      len + firstBytes post = len' ∧ (∀ x ∈ post', x ∈ post) ∧
      allocs post' = allocs post ∧ freeBytes post' + len' = freeBytes post + len ∧
      OnlyLists s (mergeNext s b) := by
  have hlong := h.long
  have hblk : blksize (s.size b) = len := by
    rw [hb]
    exact blksize_tag hlong.2 free pf
  obtain ⟨q, hq⟩ := h.tag
  have hiff := isFree_tag h.headSize_aligned (headFree post) q
  unfold Rhino.mergeNext mmlistHeadSize
  dsimp only
  rw [hblk, h.next_eq (Nat.le_refl _), hq]
  by_cases hfree : headFree post = true
  · cases post with
    | nil => exact absurd hfree Bool.false_ne_true
    | cons f post =>
        have hfree' : f.free = true := hfree
        -- The hole grows over the free block behind it, and behind that is none that is free.
        obtain ⟨haddr, hshape, h₁, hnext, hpost⟩ := h.takeNext hfree'
        have hkept := h.kept
        have hlong' := hshape.1
        have hsz : blksize (s.size f.addr) = f.size := by
          rw [haddr, hq]
          exact blksize_tag hshape.2 f.free q
        obtain ⟨h₂, hmem⟩ := h₁.getFree hfree' hsz (by omega)
        have hb' : (s.getFree f.addr).size b = s.size b :=
          hmem _ (by omega) (by omega) (by omega) (by omega)
        have hf' : (s.getFree f.addr).size f.addr = s.size f.addr :=
          hmem _ (by omega) (by omega) (by omega) (by omega)
        rw [if_pos (hiff.mpr hfree), ← haddr, hb', hf', hsz]
        have hword : s.size b + f.size + 8
            = len + (8 + f.size) + free.toNat + 2 * pf.toNat := by
          rw [hb]
          omega
        have hword' := @isPrevFree_tag (len + (8 + f.size)) (by
          have := hshape.2
          omega) free pf
        rw [hword]
        refine ⟨len + (8 + f.size), post, h₂.setSize hword', size_setSize_self _ _ _, hpost, ?_,
          fun x hx => List.mem_cons_of_mem f hx, (allocs_cons_free hfree').symm, ?_,
          (onlyLists_getFree _ _).trans (onlyLists_setSize _ _ _)⟩
        · unfold firstBytes
          rw [if_pos hfree]
          rfl
        · rw [freeBytes_cons_free hfree']
          omega
  -- The next block is in use: nothing changes.
  · rw [if_neg fun hc => hfree (hiff.mp hc)]
    refine ⟨len, post, h, hb, ?_, ?_, fun x hx => hx, rfl, rfl, OnlyLists.refl s⟩
    · exact Bool.not_eq_true _ ▸ hfree
    · unfold firstBytes
      rw [if_neg hfree, Nat.add_zero]

theorem Hole.mergePrev (h : Hole m₀ a₀ e os s pre [] post p pf b len keep)
    (hb : s.size b = len + 1 + 2 * pf.toNat) :
    ∃ pre' p' b' len' t, Rhino.mergePrev s b = (b', t) ∧
      Hole m₀ a₀ e os t pre' [] post p' false b' len' 0 ∧ t.size b' = len' + 1 ∧
      lastBytes pre + len = len' ∧ (∀ x ∈ pre', x ∈ pre) ∧
      allocs pre' = allocs pre ∧ freeBytes pre' + len' = freeBytes pre + len ∧ OnlyLists s t := by
  have hlong := h.long
  have hblk : blksize (s.size b) = len := by
    rw [hb]
    exact blksize_tag hlong.2 true pf
  unfold Rhino.mergePrev mmlistHeadSize
  dsimp only
  cases pf with
  | true =>
      -- The bit of the header says that the block before is free, and `prev` where it starts.
      obtain ⟨pre', f, p', rfl, hfree, rfl, hshape, rfl, hsz, h₁⟩ := h.takePrev
      have hlong' := hshape.1
      have hfsz : blksize (s.size f.addr) = f.size := by
        rw [hsz]
        exact blksize_tag hshape.2 true false
      obtain ⟨h₂, hmem⟩ := h₁.getFree hfree hfsz (Nat.le_refl _)
      have hb' : (s.getFree f.addr).size (f.addr + 8 + f.size) = s.size (f.addr + 8 + f.size) :=
        hmem _ (by omega) (by omega) (by omega) (by omega)
      have hf' : (s.getFree f.addr).size f.addr = s.size f.addr :=
        hmem _ (by omega) (by omega) (by omega) (by omega)
      have hback := h.back rfl
      rw [if_pos (h.bit.mpr rfl), hback, hb', hblk, hf', hsz]
      have hword : f.size + 1 + len + 8 = f.size + (8 + len) + 1 := by omega
      have hword' := @isPrevFree_tag (f.size + (8 + len)) (by
        have := hshape.2
        omega) true false
      rw [hword]
      refine ⟨pre', p', f.addr, f.size + (8 + len), _, rfl, h₂.setSize hword',
        size_setSize_self _ _ _, ?_, fun x hx => List.mem_append_left _ hx, ?_, ?_,
        (onlyLists_getFree _ _).trans (onlyLists_setSize _ _ _)⟩
      · rw [lastBytes_concat, if_pos hfree]
        omega
      · rw [allocs_append, allocs_cons_free hfree]
        exact (List.append_nil _).symm
      · rw [freeBytes_append, freeBytes_cons_free hfree, freeBytes]
        omega
  | false =>
      have hno : ¬isPrevFree (s.size b) := fun hc => Bool.false_ne_true (h.bit.mp hc)
      rw [if_neg hno]
      refine ⟨pre, p, b, len, s, rfl, h.mono (Nat.zero_le _), hb, ?_, fun x hx => hx, rfl, rfl,
        OnlyLists.refl s⟩
      rw [h.seg.lastBytes_eq, Nat.zero_add]

theorem Hole.putFree (h : Hole m₀ a₀ e os s pre [] post p false b len 0)
    (hb : s.size b = len + 1) (hpost : headFree post = false) (hshort : len < 2 ^ maxMmBit) :
    Rep a₀ e os (putFree s b) (pre ++ ⟨b, len, true⟩ :: post) ∧ OnlyLists s (putFree s b) ∧
      ∀ w, Kept a₀ e os (pre ++ post) w → (putFree s b).mem w = m₀ w := by
  have hlong := h.long
  have hblk : blksize (len + 1) = len := blksize_tag hlong.2 true false
  obtain ⟨h₁, hmem⟩ := h.insertFree (f := ⟨b, len, true⟩) rfl hlong hshort (Nat.le_refl _)
    (Nat.le_refl _)
  dsimp only at h₁ hmem
  have hb' : (s.insertFree b len).size b = len + 1 :=
    (hmem _ (by omega) (by omega) (by omega) (by omega)).trans hb
  obtain ⟨q, hq⟩ := h₁.tag
  have hset := setPrevFree_tag h₁.headSize_aligned (headFree post) q
  have h₂ := (h₁.setNextSize true).setNextPrev b
  unfold Rhino.putFree mmlistHeadSize
  dsimp only
  rw [hb, hblk, hb', hblk, h.next_eq (Nat.le_refl _), hq, hset]
  refine ⟨h₂.closeFree ?_ ?_ (prev_setPrev_self _ _ _) hpost, ?_, h₂.frame⟩
  · rw [size_setPrev_of_ne (by omega), size_setSize_of_ne (by omega), hb']
  · rw [size_setPrev_of_ne (by omega), size_setSize_self, hpost]
    rfl
  · exact ((onlyLists_insertFree _ _ _).trans (onlyLists_setSize _ _ _)).trans
      (onlyLists_setPrev _ _ _)

/-- What is in a hole that says that it is allocated is given back, with the free blocks around
    it. -/
theorem Hole.giveBack (h : Hole m₀ a₀ e os s pre [] post p pf b len 0)
    (hb : s.size b = len + 2 * pf.toNat)
    (hshort : lastBytes pre + len + firstBytes post < 2 ^ maxMmBit) :
    ∃ pre' b' len' post', Rep a₀ e os (s.tlsfFree b) (pre' ++ ⟨b', len', true⟩ :: post') ∧
      lastBytes pre + len + firstBytes post = len' ∧ (∀ x ∈ pre', x ∈ pre) ∧
      (∀ x ∈ post', x ∈ post) ∧ allocs pre' = allocs pre ∧ allocs post' = allocs post ∧
      freeBytes pre' + freeBytes post' + len' = freeBytes pre + freeBytes post + len ∧
      OnlyLists (s.removesize (8 + len)) (s.tlsfFree b) ∧
      ∀ w, Kept a₀ e os (pre ++ post) w → (s.tlsfFree b).mem w = m₀ w := by
  have hlong := h.long
  have hset : setFree (len + 2 * pf.toNat) = len + true.toNat + 2 * pf.toNat := by
    unfold setFree
    cases pf <;> simp only [Bool.toNat_true, Bool.toNat_false] <;> omega
  have h₁ := h.setSize (w := len + true.toNat + 2 * pf.toNat) (isPrevFree_tag hlong.2 true pf)
  have hblk : blksize (len + true.toNat + 2 * pf.toNat) = len := blksize_tag hlong.2 true pf
  -- marked as free, it is merged with its neighbours
  have h₂ := h₁.onlyLists (t := (s.setSize b (len + true.toNat + 2 * pf.toNat)).removesize
    (len + 8)) rfl rfl rfl rfl
  obtain ⟨len₁, post', h₃, hb₃, hpost, hlen, hin, hallocs, hbytes, honly₃⟩ :=
    h₂.mergeNext true (size_setSize_self _ _ _)
  obtain ⟨pre', p', b', len', t, ht, h₄, hb₄, hlen', hin', hallocs', hbytes', honly₄⟩ :=
    h₃.mergePrev hb₃
  obtain ⟨hrep, honly₅, hframe⟩ := h₄.putFree hb₄ hpost (by omega)
  have hsame : allocs (pre' ++ post') = allocs (pre ++ post) := by
    rw [allocs_append, allocs_append, hallocs, hallocs']
  rw [tlsfFree_eq, hb, hset]
  dsimp only
  rw [size_setSize_self, hblk]
  unfold mmlistHeadSize
  rw [ht]
  dsimp only
  refine ⟨pre', b', len', post', hrep, by omega, hin', hin, hallocs', hallocs, by omega, ?_,
    fun w hw => hframe w ((kept_congr hsame).mpr hw)⟩
  rw [Nat.add_comm 8]
  exact (((onlyLists_setSize s _ _).removesize _).trans honly₃).trans (honly₄.trans honly₅)

theorem Hole.tlsfFree (h : Hole m₀ a₀ e os s pre [] post p pf b len 0)
    (hb : s.size b = len + 2 * pf.toNat) (hshort : e < a₀ + 2 ^ maxMmBit) :
    HeapHas a₀ e os (s.tlsfFree b) (allocs pre ++ allocs post)
        (freeBytes pre + freeBytes post + (8 + len)) ∧
      OnlyLists (s.removesize (8 + len)) (s.tlsfFree b) ∧
      ∀ w, Kept a₀ e os (pre ++ post) w → (s.tlsfFree b).mem w = m₀ w := by
  have hle := h.bytes_le
  obtain ⟨pre', b', len', post', hrep, -, -, -, hallocs', hallocs, hbytes, honly, hframe⟩ :=
    h.giveBack hb (by omega)
  refine ⟨⟨_, hrep, ?_, ?_⟩, honly, hframe⟩
  · rw [allocs_append, allocs_cons_free rfl, hallocs, hallocs']
  · rw [freeBytes_append, freeBytes_cons_free rfl]
    dsimp only
    omega

/-- A block is given back. -/
theorem Rep.tlsfFree (h : Rep a₀ e os s (pre ++ f :: post)) (hfree : f.free = false)
    (hshort : e < a₀ + 2 ^ maxMmBit) :
    HeapHas a₀ e os (s.tlsfFree f.addr) (allocs pre ++ allocs post)
        (freeBytes pre + freeBytes post + (8 + f.size)) ∧
      OnlyLists (s.removesize (8 + f.size)) (s.tlsfFree f.addr) ∧
      ∀ w, Kept a₀ e os (pre ++ post) w → (s.tlsfFree f.addr).mem w = s.mem w := by
  obtain ⟨p, pf, hhole, hb, -⟩ := h.openAlloc hfree (Nat.zero_le f.size)
  exact hhole.tlsfFree hb hshort

/-! ## `k_mm_realloc` -/

/-- A block shrinks, or stays. -/
theorem Rep.shrinkBlk (h : Rep a₀ e os s (pre ++ f :: post)) (hfree : f.free = false)
    (hsize : 8 ≤ size ∧ size % 4 = 0) (hle : size ≤ f.size) (hshort : e < a₀ + 2 ^ maxMmBit) :
    ∃ n rest, Rep a₀ e os (s.shrinkBlk f.addr size) (pre ++ ⟨f.addr, n, false⟩ :: rest) ∧
      size ≤ n ∧ n < size + 16 ∧ allocs rest = allocs post ∧
      freeBytes rest + n = freeBytes post + f.size ∧
      OnlyLists ((s.removesize (8 + f.size)).addsize (8 + n)) (s.shrinkBlk f.addr size) ∧
      (∀ w, Kept a₀ e os (pre ++ post) w → (s.shrinkBlk f.addr size).mem w = s.mem w) ∧
      ∀ w, f.addr + 8 ≤ w → w < f.addr + 8 + size → (s.shrinkBlk f.addr size).mem w = s.mem w := by
  obtain ⟨p, pf, h₀, hb, hn⟩ := h.openAlloc hfree hle
  have hlong := h₀.long
  have hblk : blksize (s.size f.addr) = f.size := by
    rw [hb]
    exact blksize_tag hlong.2 false pf
  have hiff := isFree_tag h₀.headSize_aligned (headFree post) false
  have h₁ := h₀.onlyLists (t := s.removesize (f.size + 8)) rfl rfl rfl rfl
  have hblk' : blksize (size + 2 * pf.toNat) = size := blksize_tag hsize.2 false pf
  unfold Mm.shrinkBlk mmlistHeadSize kMmListSize
  dsimp only
  rw [hblk, h₀.next_eq (Nat.le_refl _)]
  have hn' : (s.removesize (f.size + 8)).size (f.addr + 8 + f.size)
      = headSize post + (headFree post).toNat + 2 * false.toNat := hn
  by_cases hnext : headFree post = true
  · cases post with
    | nil => exact absurd hnext Bool.false_ne_true
    | cons g post =>
        -- the block behind it goes back to its list, shorter or longer than it was
        have hnext' : g.free = true := hnext
        obtain ⟨haddr, hshape, h₂, -, hpost⟩ := h₁.takeNext hnext'
        have hlong' := hshape.1
        have hsz : blksize ((s.removesize (f.size + 8)).size g.addr) = g.size := by
          rw [haddr, hn']
          exact blksize_tag hshape.2 g.free false
        obtain ⟨h₃, hmem⟩ := h₂.getFree hnext' hsz (by omega)
        have hg : ((s.removesize (f.size + 8)).getFree g.addr).size g.addr
            = (s.removesize (f.size + 8)).size g.addr :=
          hmem _ (by omega) (by omega) (by omega) (by omega)
        have hroom : size + 16 ≤ f.size + (8 + g.size) := by omega
        have hle₃ := h₃.le
        obtain ⟨t, ht, honly, htb, hrep, hframe, hdata⟩ := h₃.splitBlk true hsize hroom
          (by omega) (Nat.le_refl _) hpost (Or.inl rfl)
        have hnn : nextMmBlk (g.addr + 8) g.size = f.addr + 8 + (f.size + (8 + g.size)) := by
          have hle' := h₃.le
          have htop := h₃.region.top
          unfold nextMmBlk
          rw [Nat.mod_eq_of_lt (by omega)]
          omega
        rw [hn', if_pos (hiff.mpr hnext), ← haddr]
        dsimp only
        rw [hg, hsz, hnn, show f.size + (g.size + 8) - size = f.size + (8 + g.size) - size by omega,
          if_pos (by omega), ht, htb, hblk']
        refine ⟨size, _, hrep.onlyNumbers rfl rfl rfl rfl, Nat.le_refl _, by omega, ?_, ?_, ?_,
          fun w hw => hframe w ?_, hdata⟩
        · rw [allocs_cons_free rfl, allocs_cons_free hnext']
        · rw [freeBytes_cons_free rfl, freeBytes_cons_free hnext']
          dsimp only
          omega
        · rw [Nat.add_comm 8 size, Nat.add_comm 8 f.size]
          exact ((onlyLists_getFree _ _).trans honly).addsize _
        · refine (kept_congr ?_).mpr hw
          rw [allocs_append, allocs_append, allocs_cons_free hnext']
  · rw [hn', if_neg fun hc => hnext (hiff.mp hc)]
    dsimp only
    have hpost : headFree post = false := Bool.not_eq_true _ ▸ hnext
    by_cases hroom : f.size - size ≥ 16
    · -- what is left becomes free
      have hle₁ := h₁.le
      obtain ⟨t, ht, honly, htb, hrep, hframe, hdata⟩ := h₁.splitBlk true hsize (by omega)
        (by omega) (Nat.le_refl _) hpost (Or.inl rfl)
      rw [if_pos hroom, ht, htb, hblk']
      refine ⟨size, _, hrep.onlyNumbers rfl rfl rfl rfl, Nat.le_refl _, by omega,
        allocs_cons_free rfl, ?_, ?_, hframe, hdata⟩
      · rw [freeBytes_cons_free rfl]
        dsimp only
        omega
      · rw [Nat.add_comm 8 size, Nat.add_comm 8 f.size]
        exact honly.addsize _
    · -- too little is left
      have hsame : (s.removesize (f.size + 8)).size f.addr = s.size f.addr := rfl
      rw [if_neg hroom, hsame, hblk]
      have hf : f = ⟨f.addr, f.size, false⟩ := by
        cases f
        cases hfree
        rfl
      refine ⟨f.size, post, ?_, hle, by omega, rfl, rfl, ?_, fun w _ => rfl, fun w _ _ => rfl⟩
      · rw [hf] at h
        exact h.onlyNumbers rfl rfl rfl rfl
      · rw [Nat.add_comm 8 f.size]
        exact OnlyLists.refl _

/-- A block takes of the free one behind it. -/
theorem Rep.growBlk (h : Rep a₀ e os s (pre ++ f :: post)) (hfree : f.free = false)
    (hsize : 8 ≤ size ∧ size % 4 = 0) (hle : f.size ≤ size) (hnext : headFree post = true)
    (hfits : size ≤ f.size + headSize post) (hshort : e < a₀ + 2 ^ maxMmBit) :
    ∃ n rest, Rep a₀ e os (s.growBlk f.addr size) (pre ++ ⟨f.addr, n, false⟩ :: rest) ∧
      size ≤ n ∧ n < size + 16 ∧ allocs rest = allocs post ∧
      freeBytes rest + n = freeBytes post + f.size ∧
      OnlyLists ((s.removesize (8 + f.size)).addsize (8 + n)) (s.growBlk f.addr size) ∧
      (∀ w, Kept a₀ e os (pre ++ post) w → (s.growBlk f.addr size).mem w = s.mem w) ∧
      ∀ w, f.addr + 8 ≤ w → w < f.addr + 8 + f.size →
        (s.growBlk f.addr size).mem w = s.mem w := by
  obtain ⟨p, pf, h₀, hb, hn⟩ := h.openAlloc hfree (Nat.le_refl _)
  have hlong := h₀.long
  have hblk : blksize (s.size f.addr) = f.size := by
    rw [hb]
    exact blksize_tag hlong.2 false pf
  have h₁ := h₀.onlyLists (t := s.removesize (f.size + 8)) rfl rfl rfl rfl
  have hn' : (s.removesize (f.size + 8)).size (f.addr + 8 + f.size)
      = headSize post + (headFree post).toNat + 2 * false.toNat := hn
  obtain ⟨len, post', h₂, hb₂, hpost, hlen, -, hallocs, hbytes, honly⟩ :=
    h₁.mergeNext false hb
  -- `k_mm_realloc` takes the block behind in as `k_mm_free` does
  have hmerge : mergeNext (s.removesize (f.size + 8)) f.addr =
      ((s.removesize (f.size + 8)).getFree (f.addr + 8 + f.size)).setSize f.addr
        (((s.removesize (f.size + 8)).getFree (f.addr + 8 + f.size)).size f.addr
          + blksize (((s.removesize (f.size + 8)).getFree (f.addr + 8 + f.size)).size
            (f.addr + 8 + f.size)) + 8) := by
    have hblk' : blksize ((s.removesize (f.size + 8)).size f.addr) = f.size := hblk
    unfold mergeNext mmlistHeadSize
    dsimp only
    rw [hblk', h₀.next_eq (Nat.le_refl _), hn',
      if_pos ((isFree_tag h₀.headSize_aligned (headFree post) false).mpr hnext)]
  rw [firstBytes, hnext, if_pos rfl] at hlen
  have hlong₂ := h₂.long
  have hblk₂ : blksize ((mergeNext (s.removesize (f.size + 8)) f.addr).size f.addr) = len := by
    rw [hb₂]
    exact blksize_tag hlong₂.2 false pf
  obtain ⟨q, hq⟩ := h₂.tag
  have hclear := clearPrevFree_tag h₂.headSize_aligned (headFree post') q
  have h₃ := (h₂.setNextPrev f.addr).setNextSize false
  have hb₃ : (((mergeNext (s.removesize (f.size + 8)) f.addr).setPrev (f.addr + 8 + len)
      f.addr).setSize (f.addr + 8 + len) (headSize post' + (headFree post').toNat
        + 2 * false.toNat)).size f.addr = len + 2 * pf.toNat := by
    rw [size_setSize_of_ne (by omega), size_setPrev_of_ne (by omega), hb₂]
    rfl
  have hblk₃ : blksize (len + 2 * pf.toNat) = len := blksize_tag hlong₂.2 false pf
  have hsame : allocs (pre ++ post') = allocs (pre ++ post) := by
    rw [allocs_append, allocs_append, hallocs]
  unfold Mm.growBlk mmlistHeadSize kMmListSize
  dsimp only
  rw [hblk, h₀.next_eq (Nat.le_refl _), ← hmerge, hblk₂, h₂.next_eq (Nat.le_refl _),
    size_setPrev_of_ne (by omega), hq, hclear, hb₃, hblk₃]
  by_cases hroom : len - size ≥ 16
  · have hblk' : blksize (size + 2 * pf.toNat) = size := blksize_tag hsize.2 false pf
    have hle₃ := h₃.le
    obtain ⟨t, ht, honly', htb, hrep, hframe, hdata⟩ := h₃.splitBlk true hsize (by omega)
      (by omega) hle hpost (Or.inl rfl)
    rw [if_pos hroom, ht, htb, hblk']
    refine ⟨size, _, hrep.onlyNumbers rfl rfl rfl rfl, Nat.le_refl _, by omega, ?_, ?_, ?_,
      fun w hw => hframe w ((kept_congr hsame).mpr hw), hdata⟩
    · rw [allocs_cons_free rfl, hallocs]
    · rw [freeBytes_cons_free rfl]
      dsimp only
      omega
    · rw [Nat.add_comm 8 size, Nat.add_comm 8 f.size]
      exact ((honly.trans ((onlyLists_setPrev _ _ _).trans (onlyLists_setSize _ _ _))).trans
        honly').addsize _
  · rw [if_neg hroom, hb₃, hblk₃]
    refine ⟨len, post', ?_, by omega, by omega, hallocs, by omega, ?_,
      fun w hw => h₃.frame w ((kept_congr hsame).mpr hw), h₃.data⟩
    · refine Rep.onlyNumbers (h₃.closeAlloc hb₃ ?_) rfl rfl rfl rfl
      rw [size_setSize_self]
      rfl
    · rw [Nat.add_comm 8 len, Nat.add_comm 8 f.size]
      exact (honly.trans ((onlyLists_setPrev _ _ _).trans (onlyLists_setSize _ _ _))).addsize _

end Calls

end Rhino

end Wujian100
