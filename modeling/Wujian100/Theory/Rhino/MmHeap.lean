import Wujian100.Theory.Rhino.MmCalls

/-!
# A Region, as Its Users See It

The calls in terms of the blocks that are allocated: in which order they lie does not matter, only
which there are, that none of them overlaps another, and that with the bytes that are free they
are the whole region.

## Main definitions

* `SameOutside`: A call changed nothing that belongs to others.
* `Resized`: A block has another size.

## Theorems

* `Chain.unique`: The blocks that are allocated determine all blocks.
* `HeapHas.bounds`, `HeapHas.apart`, `HeapHas.total`: Where the blocks are.
* `HeapHas.write`: A write to a buffer.
* `HeapHas.tlsfAlloc`, `HeapHas.tlsfFree`, `HeapHas.tlsfRealloc`: The calls.
-/

namespace Wujian100

namespace Rhino

/-- Nothing in the buffers of the blocks and nothing outside the region has changed. -/
def SameOutside (a₀ e : Nat) (os bs : List Blk) (s t : Mm) : Prop :=
  ∀ w, Kept a₀ e os bs w → t.mem w = s.mem w

/-! ## Which blocks are free -/

section Chain

variable {mem mem' : Nat → Nat} {e p p' a : Nat} {pf pf' : Bool} {bs bs' : List Blk} {x f : Blk}

/-- Behind a free block there is one that is allocated, or the end. -/
theorem Chain.behind_free (h : Chain mem e p true a bs) :
    a = ((allocs bs).head?.map Blk.addr).getD e := by
  cases bs with
  | nil => exact h.1
  | cons b bs =>
      obtain ⟨haddr, -, hnot, -⟩ := h
      have hfree : b.free = false := Bool.eq_false_of_not_eq_true fun hc => hnot ⟨rfl, hc⟩
      rw [allocs_cons_alloc hfree]
      exact haddr.symm

/-- The blocks that are allocated determine all blocks. -/
theorem Chain.unique (h : Chain mem e p pf a bs) (h' : Chain mem' e p' pf' a bs')
    (hsame : allocs bs = allocs bs') : bs = bs' := by
  induction bs generalizing p p' pf pf' a bs' with
  | nil =>
      cases bs' with
      | nil => rfl
      | cons b' bs' =>
          have hend := h.1
          have hle := h'.2.2.2.2.le
          omega
  | cons b bs ih =>
      cases bs' with
      | nil =>
          have hend := h'.1
          have hle := h.2.2.2.2.le
          omega
      | cons b' bs' =>
          obtain ⟨haddr, -, -, -, hrest⟩ := h
          obtain ⟨haddr', -, -, -, hrest'⟩ := h'
          -- the blocks behind the first one begin later
          have hlater : ∀ y ∈ allocs bs, a < y.addr := fun y hy => by
            have hy' := (hrest.mem_le y (mem_allocs.mp hy).1).2.1
            omega
          have hlater' : ∀ y ∈ allocs bs', a < y.addr := fun y hy => by
            have hy' := (hrest'.mem_le y (mem_allocs.mp hy).1).2.1
            omega
          cases hfree : b.free with
          | true =>
              rw [allocs_cons_free hfree] at hsame
              have hfree' : b'.free = true := by
                by_contra hc
                rw [allocs_cons_alloc (Bool.eq_false_of_not_eq_true hc)] at hsame
                have hlt := hlater b' (hsame ▸ List.mem_cons_self)
                omega
              rw [allocs_cons_free hfree'] at hsame
              rw [hfree] at hrest
              rw [hfree'] at hrest'
              -- both end where the next one that is allocated begins
              have hend := hrest.behind_free
              have hend' := hrest'.behind_free
              rw [hsame, ← hend'] at hend
              have hb : b = b' := by
                obtain ⟨addr, size, free⟩ := b
                obtain ⟨addr', size', free'⟩ := b'
                dsimp only at *
                rw [haddr, haddr', hfree, hfree', show size = size' by omega]
              subst hb
              rw [ih hrest hrest' hsame]
          | false =>
              rw [allocs_cons_alloc hfree] at hsame
              have hfree' : b'.free = false := by
                by_contra hc
                rw [allocs_cons_free (Bool.eq_true_of_not_eq_false hc)] at hsame
                have hlt := hlater' b (hsame ▸ List.mem_cons_self)
                omega
              rw [allocs_cons_alloc hfree'] at hsame
              obtain ⟨rfl, htail⟩ := List.cons.inj hsame
              rw [ih hrest hrest' htail]

theorem exists_free (h : freeBytes bs ≠ 0) : ∃ f ∈ bs, f.free = true := by
  induction bs with
  | nil => exact absurd rfl h
  | cons b bs ih =>
      cases hfree : b.free with
      | true => exact ⟨b, List.mem_cons_self, hfree⟩
      | false =>
          rw [freeBytes_cons_alloc hfree] at h
          obtain ⟨f, hf, hf'⟩ := ih h
          exact ⟨f, List.mem_cons_of_mem b hf, hf'⟩

/-- Where only the first block is allocated, a free one is behind it. -/
theorem Chain.free_of_one (h : Chain mem e p pf a bs) (hone : allocs bs = [x]) (hx : x.addr = a)
    (hf : f ∈ bs) (hfree : f.free = true) : bs = [x, f] ∧ f.addr = a + 8 + x.size := by
  cases bs with
  | nil => cases hf
  | cons b bs =>
      obtain ⟨haddr, -, -, -, hrest⟩ := h
      have hb : b.free = false := by
        by_contra hc
        rw [allocs_cons_free (Bool.eq_true_of_not_eq_false hc)] at hone
        have hxmem : x ∈ allocs bs := hone ▸ List.mem_cons_self
        have hx' := (hrest.mem_le x (mem_allocs.mp hxmem).1).2.1
        omega
      rw [allocs_cons_alloc hb] at hone
      obtain ⟨rfl, hnone⟩ := List.cons.inj hone
      rcases List.mem_cons.mp hf with rfl | hf
      · rw [hb] at hfree
        cases hfree
      · cases bs with
        | nil => cases hf
        | cons c bs =>
            obtain ⟨hcaddr, -, -, -, hrest'⟩ := hrest
            have hc : c.free = true := by
              by_contra hc
              rw [allocs_cons_alloc (Bool.eq_false_of_not_eq_true hc)] at hnone
              cases hnone
            rw [allocs_cons_free hc] at hnone
            -- and behind that there is nothing
            have hlast : bs = [] := by
              cases bs with
              | nil => rfl
              | cons d bs =>
                  rw [hc] at hrest'
                  have hd : d.free = false :=
                    Bool.eq_false_of_not_eq_true fun hd => hrest'.2.2.1 ⟨rfl, hd⟩
                  rw [allocs_cons_alloc hd] at hnone
                  cases hnone
            subst hlast
            obtain rfl := List.mem_singleton.mp hf
            exact ⟨rfl, hcaddr⟩

end Chain

section Region

variable {a₀ e free size : Nat} {os as : List Blk} {s t : Mm} {x y : Blk}

/-- A block among the others. -/
theorem HeapHas.split (h : HeapHas a₀ e os s as free) (hx : x ∈ as) :
    x.free = false ∧ ∃ pre post, Rep a₀ e os s (pre ++ x :: post) ∧
      as = allocs pre ++ x :: allocs post ∧ free = freeBytes pre + freeBytes post := by
  obtain ⟨bs, hrep, rfl, rfl⟩ := h
  obtain ⟨hmem, hfree⟩ := mem_allocs.mp hx
  obtain ⟨pre, post, rfl⟩ := List.append_of_mem hmem
  refine ⟨hfree, pre, post, hrep, ?_, ?_⟩
  · rw [allocs_append, allocs_cons_alloc hfree]
  · rw [freeBytes_append, freeBytes_cons_alloc hfree]

/-! ## Where the blocks are -/

theorem HeapHas.region (h : HeapHas a₀ e os s as free) : Region a₀ e os := by
  obtain ⟨bs, hrep, -⟩ := h
  exact hrep.region

theorem HeapHas.bounds (h : HeapHas a₀ e os s as free) (hx : x ∈ as) :
    x.free = false ∧ x.Shaped ∧ a₀ ≤ x.addr ∧ x.addr + 8 + x.size ≤ e := by
  obtain ⟨bs, hrep, rfl, -⟩ := h
  obtain ⟨hmem, hfree⟩ := mem_allocs.mp hx
  exact ⟨hfree, hrep.chain.mem_le x hmem⟩

theorem HeapHas.sorted (h : HeapHas a₀ e os s as free) : as.Pairwise Blk.Before := by
  obtain ⟨bs, hrep, rfl, -⟩ := h
  exact hrep.chain.sorted.filter _

theorem HeapHas.apart (h : HeapHas a₀ e os s as free) (hx : x ∈ as) (hy : y ∈ as) :
    x = y ∨ x.Apart y :=
  eq_or_apart h.sorted x hx y hy

theorem totalBytes_eq (bs : List Blk) : totalBytes bs = totalBytes (allocs bs) + freeBytes bs := by
  induction bs with
  | nil => rfl
  | cons b bs ih =>
      change 8 + b.size + totalBytes bs = _
      cases hfree : b.free with
      | true =>
          rw [allocs_cons_free hfree, freeBytes_cons_free hfree, ih]
          omega
      | false =>
          rw [allocs_cons_alloc hfree, freeBytes_cons_alloc hfree, ih]
          change _ = 8 + b.size + totalBytes (allocs bs) + freeBytes bs
          omega

/-- With the bytes that are free, the blocks are the region. -/
theorem HeapHas.total (h : HeapHas a₀ e os s as free) : a₀ + totalBytes as + free = e := by
  obtain ⟨bs, hrep, rfl, rfl⟩ := h
  have hsum := hrep.chain.totalBytes_eq
  rw [totalBytes_eq bs] at hsum
  omega

theorem freeBytes_pos {bs : List Blk} (h : ∀ b ∈ bs, b.Shaped) :
    freeBytes bs = 0 ∨ 16 ≤ freeBytes bs := by
  induction bs with
  | nil => exact Or.inl rfl
  | cons b bs ih =>
      have hrest := ih fun c hc => h c (List.mem_cons_of_mem b hc)
      have hlong := (h b List.mem_cons_self).1
      cases hfree : b.free with
      | true =>
          rw [freeBytes_cons_free hfree]
          omega
      | false =>
          rw [freeBytes_cons_alloc hfree]
          exact hrest

/-- A free block has room for its header and its links. -/
theorem HeapHas.free_pos (h : HeapHas a₀ e os s as free) : free = 0 ∨ 16 ≤ free := by
  obtain ⟨bs, hrep, -, rfl⟩ := h
  exact freeBytes_pos fun b hb => (hrep.chain.mem_le b hb).1

/-- The word `size` of a block that is allocated. -/
theorem HeapHas.size_eq (h : HeapHas a₀ e os s as free) (hx : x ∈ as) :
    ∃ q : Bool, s.size x.addr = x.size + 2 * q.toNat := by
  obtain ⟨hfree, pre, post, hrep, -⟩ := h.split hx
  obtain ⟨-, pf, -, hb, -⟩ := hrep.openAlloc hfree (Nat.zero_le x.size)
  exact ⟨pf, hb⟩

theorem HeapHas.blksize_eq (h : HeapHas a₀ e os s as free) (hx : x ∈ as) :
    blksize (s.size x.addr) = x.size := by
  obtain ⟨q, hq⟩ := h.size_eq hx
  rw [hq]
  exact blksize_tag (h.bounds hx).2.1.2 false q

/-! ## Writes -/

theorem HeapHas.onlyNumbers (h : HeapHas a₀ e os s as free) (hmem : t.mem = s.mem)
    (htbl : t.mmTbl = s.mmTbl) (hsl : t.slBitmap = s.slBitmap) (hfl : t.flBitmap = s.flBitmap) :
    HeapHas a₀ e os t as free := by
  obtain ⟨bs, hrep, has, hfree⟩ := h
  exact ⟨bs, hrep.onlyNumbers hmem htbl hsl hfl, has, hfree⟩

/-- A header is in no buffer, and neither is a link. -/
theorem HeapHas.write (h : HeapHas a₀ e os s as free)
    (hmem : ∀ w, ¬Owned as w → t.mem w = s.mem w)
    (htbl : t.mmTbl = s.mmTbl) (hsl : t.slBitmap = s.slBitmap) (hfl : t.flBitmap = s.flBitmap) :
    HeapHas a₀ e os t as free := by
  obtain ⟨bs, hrep, rfl, rfl⟩ := h
  have hbound := hrep.chain.mem_le
  have hapart := eq_or_apart hrep.chain.sorted
  have hheader : ∀ b ∈ bs, ∀ w, (w = b.addr ∨ w = b.addr + 4) → t.mem w = s.mem w := by
    intro b hb w hw
    refine hmem w ?_
    rintro ⟨c, hc, -, hin⟩
    rcases hapart b hb c (mem_allocs.mp hc).1 with rfl | hbc
    · omega
    · unfold Blk.Apart Blk.Before at hbc
      omega
  refine ⟨bs, ⟨hrep.region, hrep.chain.congr (fun b hb => ?_) ?_, ?_⟩, rfl, rfl⟩
  · exact ⟨hheader b hb _ (Or.inl rfl), hheader b hb _ (Or.inr rfl)⟩
  · have hlast : ∀ w, e ≤ w → t.mem w = s.mem w := by
      intro w hw
      refine hmem w ?_
      rintro ⟨c, hc, -, hin⟩
      have hc' := (hbound c (mem_allocs.mp hc).1).2.2
      omega
    exact ⟨hlast e (Nat.le_refl e), hlast _ (by omega)⟩
  · refine hrep.lists.congr (fun w hw => hmem w ?_) htbl hsl hfl
    rintro ⟨c, hc, hcfree, hin⟩
    have hc' := hbound c (mem_allocs.mp hc).1
    rcases freeLink_append.mp hw with ⟨y, hy, -, hlink⟩ | ⟨y, hy, hyfree, hlink⟩
    · obtain ⟨hshape, -, hout⟩ := hrep.region.apart y hy
      have hlong := hshape.1
      omega
    · rcases hapart y hy c (mem_allocs.mp hc).1 with rfl | hyc
      · rw [hcfree] at hyfree
        cases hyfree
      · have hlong := (hbound y hy).1.1
        unfold Blk.Apart Blk.Before at hyc
        omega

/-! ## The calls -/

/-- A block more, of at least the size that was asked for. -/
theorem HeapHas.tlsfAlloc (h : HeapHas a₀ e [] s as free) (hsize : size ≤ sizeLimit) :
    s.tlsfAlloc size = (0, s) ∨
      ∃ x as' t, s.tlsfAlloc size = (x.addr + 8, t) ∧ allocSize size ≤ x.size ∧
        x.size < allocSize size + 16 ∧ as'.Perm (x :: as) ∧
        (∃ free', HeapHas a₀ e [] t as' free' ∧ free' + (8 + x.size) = free) ∧
        OnlyLists (s.addsize (8 + x.size)) t ∧ SameOutside a₀ e [] as s t := by
  obtain ⟨bs, hrep, rfl, rfl⟩ := h
  rcases hrep.tlsfAlloc hsize with hnone | ⟨f, hf, hfree, hspec⟩
  · exact Or.inl hnone
  · rw [List.nil_append] at hf
    obtain ⟨pre, post, rfl⟩ := List.append_of_mem hf
    obtain ⟨n, rest, t, ht, hn, hn', -, hrep', hallocs, hbytes, hframe, honly⟩ := hspec pre post rfl
    refine Or.inr ⟨⟨f.addr, n, false⟩, _, t, ht, hn, hn', ?_, ⟨_, ⟨_, hrep', rfl, rfl⟩, ?_⟩, honly,
      fun w hw => hframe w ((kept_congr ?_).mp hw)⟩
    · rw [allocs_append, allocs_append, allocs_cons_alloc rfl, allocs_cons_free hfree, hallocs]
      exact List.perm_middle
    · rw [freeBytes_append, freeBytes_append, freeBytes_cons_alloc rfl, freeBytes_cons_free hfree]
      dsimp only
      omega
    · have hidem : allocs (allocs (pre ++ f :: post)) = allocs (pre ++ f :: post) := by
        unfold allocs
        rw [List.filter_filter]
        simp only [Bool.and_self]
      rw [hidem, allocs_append, allocs_append, allocs_cons_free hfree]

/-- A block less. -/
theorem HeapHas.tlsfFree (h : HeapHas a₀ e os s as free) (hx : x ∈ as)
    (hshort : e < a₀ + 2 ^ maxMmBit) :
    ∃ as', as.Perm (x :: as') ∧ HeapHas a₀ e os (s.tlsfFree x.addr) as' (free + (8 + x.size)) ∧
      OnlyLists (s.removesize (8 + x.size)) (s.tlsfFree x.addr) ∧
      SameOutside a₀ e os as' s (s.tlsfFree x.addr) := by
  obtain ⟨hfree, pre, post, hrep, rfl, rfl⟩ := h.split hx
  obtain ⟨hhas, honly, hframe⟩ := hrep.tlsfFree hfree hshort
  refine ⟨_, List.perm_middle, hhas, honly, fun w hw => hframe w ((kept_congr ?_).mp hw)⟩
  unfold allocs
  rw [List.filter_append, List.filter_filter, List.filter_filter, List.filter_append]
  simp only [Bool.and_self]

/-- The block `x` has the size `n` now, and its first `keep` bytes are as they were. -/
def Resized (a₀ e : Nat) (os : List Blk) (s t : Mm) (as : List Blk) (free : Nat) (x : Blk)
    (n keep : Nat) : Prop :=
  ∃ as' rest free', as.Perm (x :: rest) ∧ as'.Perm (⟨x.addr, n, false⟩ :: rest) ∧
    HeapHas a₀ e os t as' free' ∧ free' + n = free + x.size ∧
    OnlyLists ((s.removesize (8 + x.size)).addsize (8 + n)) t ∧ SameOutside a₀ e os rest s t ∧
    ∀ w, x.addr + 8 ≤ w → w < x.addr + 8 + keep → t.mem w = s.mem w

theorem Rep.resized {pre post rest : List Blk} {n keep : Nat}
    (h : Rep a₀ e os t (pre ++ ⟨x.addr, n, false⟩ :: rest)) (hallocs : allocs rest = allocs post)
    (hbytes : freeBytes rest + n = freeBytes post + x.size)
    (honly : OnlyLists ((s.removesize (8 + x.size)).addsize (8 + n)) t)
    (hframe : ∀ w, Kept a₀ e os (pre ++ post) w → t.mem w = s.mem w)
    (hdata : ∀ w, x.addr + 8 ≤ w → w < x.addr + 8 + keep → t.mem w = s.mem w) :
    Resized a₀ e os s t (allocs pre ++ x :: allocs post) (freeBytes pre + freeBytes post) x n
      keep := by
  refine ⟨_, _, _, List.perm_middle, ?_, ⟨_, h, rfl, rfl⟩, ?_, honly,
    fun w hw => hframe w ((kept_congr ?_).mp hw), hdata⟩
  · rw [allocs_append, allocs_cons_alloc rfl, hallocs]
    exact List.perm_middle
  · rw [freeBytes_append, freeBytes_cons_alloc rfl]
    omega
  · unfold allocs
    rw [List.filter_append, List.filter_filter, List.filter_filter, List.filter_append]
    simp only [Bool.and_self]

/-- The size that `k_mm_realloc` looks for. -/
def reallocSize (size : Nat) : Nat := if size < kMmListSize then kMmListSize else mmAlignUp size

theorem reallocSize_spec (h : size ≤ sizeLimit) :
    size ≤ reallocSize size ∧ reallocSize size ≤ sizeLimit ∧ 16 ≤ reallocSize size ∧
      reallocSize size % 4 = 0 := by
  unfold sizeLimit at h ⊢
  unfold reallocSize mmAlignUp kMmListSize
  split_ifs with hsmall
  · omega
  · omega

/-- The block has `size` bytes, or so it will with the free one behind it. -/
def Mm.staysAt (s : Mm) (oldmem size : Nat) : Prop :=
  let b := oldmem - mmlistHeadSize
  let tmpSize := blksize (s.size b)
  let nextB := nextMmBlk (b + mmlistHeadSize) (blksize (s.size b))
  size ≤ tmpSize ∨ isFree (s.size nextB) ∧ size ≤ tmpSize + blksize (s.size nextB)

/-- What the header of a block and the one behind it say. -/
theorem Rep.headers {pre post : List Blk} (h : Rep a₀ e os s (pre ++ x :: post))
    (hfree : x.free = false) :
    blksize (s.size x.addr) = x.size ∧
      blksize (s.size (nextMmBlk (x.addr + 8) x.size)) = headSize post ∧
      (isFree (s.size (nextMmBlk (x.addr + 8) x.size)) ↔ headFree post = true) := by
  obtain ⟨p, pf, hhole, hb, hn⟩ := h.openAlloc hfree (Nat.zero_le x.size)
  have htag : s.size (x.addr + 8 + x.size)
      = headSize post + (headFree post).toNat + 2 * false.toNat := hn
  rw [hb, hhole.next_eq (Nat.le_refl _), htag]
  exact ⟨blksize_tag hhole.long.2 false pf, blksize_tag hhole.headSize_aligned _ _,
    isFree_tag hhole.headSize_aligned _ _⟩

/-- Whether a block stays where it is. -/
theorem Rep.staysAt_iff {pre post : List Blk} (h : Rep a₀ e os s (pre ++ x :: post))
    (hfree : x.free = false) :
    s.staysAt (x.addr + 8) size ↔
      size ≤ x.size ∨ headFree post = true ∧ size ≤ x.size + headSize post := by
  obtain ⟨hblk, hsize, hiff⟩ := h.headers hfree
  unfold Mm.staysAt mmlistHeadSize
  dsimp only
  rw [Nat.add_sub_cancel, hblk, hsize, hiff]

/-- Which way `k_mm_realloc` goes. -/
theorem Rep.tlsfRealloc_eq {pre post : List Blk} (h : Rep a₀ e os s (pre ++ x :: post))
    (hfree : x.free = false) (size : Nat) :
    s.tlsfRealloc (x.addr + 8) size =
      if reallocSize size ≤ x.size then (x.addr + 8, s.shrinkBlk x.addr (reallocSize size))
      else if headFree post = true ∧ reallocSize size ≤ x.size + headSize post then
        (x.addr + 8, s.growBlk x.addr (reallocSize size))
      else s.moveBlk x.addr (x.addr + 8) (reallocSize size) := by
  obtain ⟨hblk, hsize, hiff⟩ := h.headers hfree
  unfold Mm.tlsfRealloc mmlistHeadSize
  dsimp only
  rw [Nat.add_sub_cancel, hblk, hsize]
  simp only [hiff]
  rfl

/-- The block gets another size where it is, or it is too short and has to move. -/
theorem HeapHas.tlsfRealloc (h : HeapHas a₀ e os s as free) (hx : x ∈ as)
    (hsize : size ≤ sizeLimit) (hshort : e < a₀ + 2 ^ maxMmBit) :
    (s.staysAt (x.addr + 8) (reallocSize size) ∧
      ∃ t n, s.tlsfRealloc (x.addr + 8) size = (x.addr + 8, t) ∧ reallocSize size ≤ n ∧
        n < reallocSize size + 16 ∧ Resized a₀ e os s t as free x n (min x.size size)) ∨
    (¬s.staysAt (x.addr + 8) (reallocSize size) ∧ x.size < reallocSize size ∧
      s.tlsfRealloc (x.addr + 8) size = s.moveBlk x.addr (x.addr + 8) (reallocSize size)) := by
  obtain ⟨hle, -, hmin, haligned⟩ := reallocSize_spec hsize
  obtain ⟨hfree, pre, post, hrep, rfl, rfl⟩ := h.split hx
  have hfits : 8 ≤ reallocSize size ∧ reallocSize size % 4 = 0 := ⟨by omega, haligned⟩
  rw [hrep.tlsfRealloc_eq hfree, hrep.staysAt_iff hfree]
  by_cases hshrink : reallocSize size ≤ x.size
  · rw [if_pos hshrink]
    obtain ⟨n, rest, hrep', hn, hn', hallocs, hbytes, honly, hframe, hdata⟩ :=
      hrep.shrinkBlk hfree hfits hshrink hshort
    exact Or.inl ⟨Or.inl hshrink, _, n, rfl, hn, hn', hrep'.resized hallocs hbytes honly hframe
      fun w hw hw' => hdata w hw (by omega)⟩
  · rw [if_neg hshrink]
    by_cases hgrow : headFree post = true ∧ reallocSize size ≤ x.size + headSize post
    · rw [if_pos hgrow]
      obtain ⟨n, rest, hrep', hn, hn', hallocs, hbytes, honly, hframe, hdata⟩ :=
        hrep.growBlk hfree hfits (by omega) hgrow.1 hgrow.2 hshort
      exact Or.inl ⟨Or.inr hgrow, _, n, rfl, hn, hn', hrep'.resized hallocs hbytes honly hframe
        fun w hw hw' => hdata w hw (by omega)⟩
    · rw [if_neg hgrow]
      exact Or.inr ⟨not_or.mpr ⟨hshrink, hgrow⟩, by omega, rfl⟩

end Region

end Rhino

end Wujian100
