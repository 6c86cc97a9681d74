import Wujian100.Theory.Rhino.MmIndex

/-!
# The Blocks of a Region

The blocks of a region follow each other from its first address to its last header, which
belongs to no block. The header of a block tells its size, whether it is free and whether the
one before it is, and if so where that one is; and of two that follow each other one is not
free.

## Main definitions

* `Blk`: A block.
* `Header`: What a header says.
* `Chain`, `Seg`: The blocks up to the end of the region, and up to an address.
* `Rest`: A chain but for its first header.
* `FreeMap`: The classes of the free blocks.
* `FreeLists`: The lists of a heap are those of its free blocks.
* `Rep`: A heap and the blocks of one of its regions.

## Theorems

* `chain_append`, `chain_seg`: A chain in two parts.
* `Seg.mem_le`, `Seg.sorted`: Where the blocks are.
* `Chain.totalBytes_eq`: They are the region.
* `Seg.congr`, `Rest.congr`: Only the headers matter.
* `Seg.last`: The block before a header that says that it is free.
* `FreeLists.getFree`, `FreeLists.insertFree`: A free block is taken out, and one is put in.
-/

namespace Wujian100

namespace Rhino

/-- A block: where its header is, the bytes of its buffer, and whether it is free. -/
structure Blk where
  addr : Nat
  size : Nat
  free : Bool
deriving DecidableEq

/-- A buffer holds the links of a free block, and words. -/
def Blk.Shaped (b : Blk) : Prop := 8 ≤ b.size ∧ b.size % 4 = 0

/-- The header at `a` tells a size and whether the block is free. The block before it is at `p`
    where `pf` says that it is free. -/
def Header (mem : Nat → Nat) (p : Nat) (pf : Bool) (a size : Nat) (free : Bool) : Prop :=
  mem (a + 4) = size + free.toNat + 2 * pf.toNat ∧ (pf = true → mem a = p)

/-- The size that the header of the first block tells, which is 0 at the end. -/
def headSize : List Blk → Nat
  | [] => 0
  | b :: _ => b.size

/-- Whether the first block is free, which there is none of at the end. -/
def headFree : List Blk → Bool
  | [] => false
  | b :: _ => b.free

/-- From `a` on the blocks follow each other up to the header at `e`. -/
def Chain (mem : Nat → Nat) (e : Nat) : Nat → Bool → Nat → List Blk → Prop
  | p, pf, a, [] => a = e ∧ Header mem p pf a 0 false
  | p, pf, a, b :: bs =>
      b.addr = a ∧ b.Shaped ∧ ¬(pf = true ∧ b.free = true) ∧ Header mem p pf a b.size b.free ∧
        Chain mem e a b.free (a + 8 + b.size) bs

/-- From `a` on the blocks follow each other up to the header at `a'`, behind the block `p'`. -/
def Seg (mem : Nat → Nat) : Nat → Bool → Nat → List Blk → Nat → Bool → Nat → Prop
  | p, pf, a, [], p', pf', a' => p' = p ∧ pf' = pf ∧ a' = a
  | p, pf, a, b :: bs, p', pf', a' =>
      b.addr = a ∧ b.Shaped ∧ ¬(pf = true ∧ b.free = true) ∧ Header mem p pf a b.size b.free ∧
        Seg mem a b.free (a + 8 + b.size) bs p' pf' a'

/-- A chain from `a` on, with nothing said about the header at `a`. -/
def Rest (mem : Nat → Nat) (e a : Nat) : List Blk → Prop
  | [] => a = e
  | b :: bs => b.addr = a ∧ b.Shaped ∧ Chain mem e a b.free (a + 8 + b.size) bs

section Chain

variable {mem mem' : Nat → Nat} {e p p' a a' : Nat} {pf pf' : Bool} {xs ys bs : List Blk}

theorem chain_iff :
    Chain mem e p pf a bs ↔ ¬(pf = true ∧ headFree bs = true) ∧
      Header mem p pf a (headSize bs) (headFree bs) ∧ Rest mem e a bs := by
  cases bs with
  | nil =>
      constructor
      · rintro ⟨hend, hheader⟩
        exact ⟨fun hc => Bool.false_ne_true hc.2, hheader, hend⟩
      · rintro ⟨-, hheader, hend⟩
        exact ⟨hend, hheader⟩
  | cons b bs =>
      constructor
      · rintro ⟨haddr, hshape, hnot, hheader, hrest⟩
        exact ⟨hnot, hheader, haddr, hshape, hrest⟩
      · rintro ⟨hnot, hheader, haddr, hshape, hrest⟩
        exact ⟨haddr, hshape, hnot, hheader, hrest⟩

/-- A chain in two parts. -/
theorem chain_append :
    Chain mem e p pf a (xs ++ ys) ↔
      ∃ p' pf' a', Seg mem p pf a xs p' pf' a' ∧ Chain mem e p' pf' a' ys := by
  induction xs generalizing p pf a with
  | nil =>
      constructor
      · exact fun h => ⟨p, pf, a, ⟨rfl, rfl, rfl⟩, h⟩
      · rintro ⟨p', pf', a', ⟨rfl, rfl, rfl⟩, h⟩
        exact h
  | cons x xs ih =>
      constructor
      · rintro ⟨haddr, hshape, hnot, hheader, hrest⟩
        obtain ⟨p', pf', a', hseg, hchain⟩ := ih.mp hrest
        exact ⟨p', pf', a', ⟨haddr, hshape, hnot, hheader, hseg⟩, hchain⟩
      · rintro ⟨p', pf', a', ⟨haddr, hshape, hnot, hheader, hseg⟩, hchain⟩
        exact ⟨haddr, hshape, hnot, hheader, ih.mpr ⟨p', pf', a', hseg, hchain⟩⟩

theorem seg_append {p'' : Nat} {pf'' : Bool} {a'' : Nat} :
    Seg mem p pf a (xs ++ ys) p'' pf'' a'' ↔
      ∃ p' pf' a', Seg mem p pf a xs p' pf' a' ∧ Seg mem p' pf' a' ys p'' pf'' a'' := by
  induction xs generalizing p pf a with
  | nil =>
      constructor
      · exact fun h => ⟨p, pf, a, ⟨rfl, rfl, rfl⟩, h⟩
      · rintro ⟨p', pf', a', ⟨rfl, rfl, rfl⟩, h⟩
        exact h
  | cons x xs ih =>
      constructor
      · rintro ⟨haddr, hshape, hnot, hheader, hrest⟩
        obtain ⟨p', pf', a', hseg, hseg'⟩ := ih.mp hrest
        exact ⟨p', pf', a', ⟨haddr, hshape, hnot, hheader, hseg⟩, hseg'⟩
      · rintro ⟨p', pf', a', ⟨haddr, hshape, hnot, hheader, hseg⟩, hseg'⟩
        exact ⟨haddr, hshape, hnot, hheader, ih.mpr ⟨p', pf', a', hseg, hseg'⟩⟩

/-- A chain is a segment and a last header. -/
theorem chain_seg :
    Chain mem e p pf a bs ↔ ∃ p' pf', Seg mem p pf a bs p' pf' e ∧ Header mem p' pf' e 0 false := by
  induction bs generalizing p pf a with
  | nil =>
      constructor
      · rintro ⟨rfl, hheader⟩
        exact ⟨p, pf, ⟨rfl, rfl, rfl⟩, hheader⟩
      · rintro ⟨p', pf', ⟨rfl, rfl, rfl⟩, hheader⟩
        exact ⟨rfl, hheader⟩
  | cons b bs ih =>
      constructor
      · rintro ⟨haddr, hshape, hnot, hheader, hrest⟩
        obtain ⟨p', pf', hseg, hend⟩ := ih.mp hrest
        exact ⟨p', pf', ⟨haddr, hshape, hnot, hheader, hseg⟩, hend⟩
      · rintro ⟨p', pf', ⟨haddr, hshape, hnot, hheader, hseg⟩, hend⟩
        exact ⟨haddr, hshape, hnot, hheader, ih.mpr ⟨p', pf', hseg, hend⟩⟩

/-! ## Where the blocks are -/

theorem Seg.le (h : Seg mem p pf a xs p' pf' a') : a ≤ a' := by
  induction xs generalizing p pf a with
  | nil => exact h.2.2.ge
  | cons x xs ih =>
      have hle := ih h.2.2.2.2
      omega

/-- The blocks of a segment are in it. -/
theorem Seg.mem_le (h : Seg mem p pf a xs p' pf' a') :
    ∀ x ∈ xs, x.Shaped ∧ a ≤ x.addr ∧ x.addr + 8 + x.size ≤ a' := by
  induction xs generalizing p pf a with
  | nil => exact fun x hx => absurd hx List.not_mem_nil
  | cons y xs ih =>
      obtain ⟨haddr, hshape, -, -, hrest⟩ := h
      have hle := hrest.le
      intro x hx
      rcases List.mem_cons.mp hx with rfl | hx
      · exact ⟨hshape, haddr.ge, by omega⟩
      · obtain ⟨hx1, hx2, hx3⟩ := ih hrest x hx
        exact ⟨hx1, by omega, hx3⟩

theorem Chain.le (h : Chain mem e p pf a bs) : a ≤ e := by
  obtain ⟨p', pf', hseg, -⟩ := chain_seg.mp h
  exact hseg.le

theorem Chain.mem_le (h : Chain mem e p pf a bs) :
    ∀ x ∈ bs, x.Shaped ∧ a ≤ x.addr ∧ x.addr + 8 + x.size ≤ e := by
  obtain ⟨p', pf', hseg, -⟩ := chain_seg.mp h
  exact hseg.mem_le

theorem Rest.le (h : Rest mem e a bs) : a ≤ e := by
  cases bs with
  | nil => exact Nat.le_of_eq h
  | cons b bs =>
      have hle := h.2.2.le
      omega

theorem Rest.mem_le (h : Rest mem e a bs) :
    ∀ x ∈ bs, x.Shaped ∧ a ≤ x.addr ∧ x.addr + 8 + x.size ≤ e := by
  cases bs with
  | nil => exact fun x hx => absurd hx List.not_mem_nil
  | cons b bs =>
      obtain ⟨haddr, hshape, hrest⟩ := h
      have hle := hrest.le
      intro x hx
      rcases List.mem_cons.mp hx with rfl | hx
      · exact ⟨hshape, haddr.ge, by omega⟩
      · obtain ⟨hx1, hx2, hx3⟩ := hrest.mem_le x hx
        exact ⟨hx1, by omega, hx3⟩

/-- One block ends before the other begins. -/
def Blk.Before (x y : Blk) : Prop := x.addr + 8 + x.size ≤ y.addr

/-- The blocks have no byte in common. -/
def Blk.Apart (x y : Blk) : Prop := x.Before y ∨ y.Before x

theorem Seg.sorted (h : Seg mem p pf a xs p' pf' a') : xs.Pairwise Blk.Before := by
  induction xs generalizing p pf a with
  | nil => exact List.Pairwise.nil
  | cons x xs ih =>
      obtain ⟨rfl, -, -, -, hrest⟩ := h
      exact List.pairwise_cons.mpr ⟨fun y hy => (hrest.mem_le y hy).2.1, ih hrest⟩

theorem Chain.sorted (h : Chain mem e p pf a bs) : bs.Pairwise Blk.Before := by
  obtain ⟨p', pf', hseg, -⟩ := chain_seg.mp h
  exact hseg.sorted

theorem Rest.sorted (h : Rest mem e a bs) : bs.Pairwise Blk.Before := by
  cases bs with
  | nil => exact List.Pairwise.nil
  | cons b bs =>
      obtain ⟨rfl, -, hrest⟩ := h
      exact List.pairwise_cons.mpr ⟨fun y hy => (hrest.mem_le y hy).2.1, hrest.sorted⟩

/-- Blocks in order are the same or apart. -/
theorem eq_or_apart (h : xs.Pairwise Blk.Before) : ∀ x ∈ xs, ∀ y ∈ xs, x = y ∨ x.Apart y := by
  have hone : xs.Pairwise fun x y => x = y ∨ x.Apart y := h.imp fun hxy => Or.inr (Or.inl hxy)
  have htwo : xs.Pairwise (flip fun x y => x = y ∨ x.Apart y) :=
    h.imp fun hxy => Or.inr (Or.inr hxy)
  intro x hx y hy
  exact List.Pairwise.forall_of_forall_of_flip (R := fun x y => x = y ∨ x.Apart y)
    (fun x _ => Or.inl rfl) hone htwo hx hy

/-! ## How long they are -/

/-- The bytes of blocks, with their headers. -/
def totalBytes (bs : List Blk) : Nat := (bs.map fun b => 8 + b.size).sum

theorem Chain.totalBytes_eq (h : Chain mem e p pf a bs) : a + totalBytes bs = e := by
  induction bs generalizing p pf a with
  | nil => exact h.1
  | cons b bs ih =>
      have hrest := ih h.2.2.2.2
      change a + (8 + b.size + totalBytes bs) = e
      omega

/-! ## Only the headers matter -/

/-- The header of a block is as it was. -/
def SameHeader (mem mem' : Nat → Nat) (a : Nat) : Prop :=
  mem' a = mem a ∧ mem' (a + 4) = mem (a + 4)

theorem Header.congr {size : Nat} {free : Bool} (h : Header mem p pf a size free)
    (hsame : SameHeader mem mem' a) : Header mem' p pf a size free :=
  ⟨hsame.2.trans h.1, fun hpf => hsame.1.trans (h.2 hpf)⟩

theorem Seg.congr (h : Seg mem p pf a xs p' pf' a')
    (hsame : ∀ x ∈ xs, SameHeader mem mem' x.addr) : Seg mem' p pf a xs p' pf' a' := by
  induction xs generalizing p pf a with
  | nil => exact h
  | cons x xs ih =>
      obtain ⟨rfl, hshape, hnot, hheader, hrest⟩ := h
      exact ⟨rfl, hshape, hnot, hheader.congr (hsame x List.mem_cons_self),
        ih hrest fun y hy => hsame y (List.mem_cons_of_mem x hy)⟩

theorem Chain.congr (h : Chain mem e p pf a bs) (hsame : ∀ x ∈ bs, SameHeader mem mem' x.addr)
    (hend : SameHeader mem mem' e) : Chain mem' e p pf a bs := by
  obtain ⟨p', pf', hseg, hheader⟩ := chain_seg.mp h
  exact chain_seg.mpr ⟨p', pf', hseg.congr hsame, hheader.congr hend⟩

/-- The headers behind the first one. -/
theorem Rest.congr (h : Rest mem e a bs)
    (hsame : ∀ x ∈ bs, a + 8 ≤ x.addr → SameHeader mem mem' x.addr)
    (hend : a + 8 ≤ e → SameHeader mem mem' e) : Rest mem' e a bs := by
  cases bs with
  | nil => exact h
  | cons b bs =>
      obtain ⟨haddr, hshape, hrest⟩ := h
      have hle := hrest.le
      refine ⟨haddr, hshape, hrest.congr (fun x hx => ?_) (hend (by omega))⟩
      have hx' := (hrest.mem_le x hx).2.1
      exact hsame x (List.mem_cons_of_mem b hx) (by omega)

/-- The block before a header that says that it is free. -/
theorem Seg.last (h : Seg mem p false a xs p' true a') :
    ∃ ys q p'', xs = ys ++ [q] ∧ q.free = true ∧ q.addr = p' ∧ a' = q.addr + 8 + q.size ∧
      Seg mem p false a ys p'' false q.addr ∧ Header mem p'' false q.addr q.size true ∧
      q.Shaped := by
  rcases List.eq_nil_or_concat xs with rfl | ⟨ys, q, rfl⟩
  · exact absurd h.2.1 Bool.false_ne_true.symm
  · rw [List.concat_eq_append] at h ⊢
    obtain ⟨p'', pf'', a'', hseg, haddr, hshape, hnot, hheader, hp, hpf, ha⟩ := seg_append.mp h
    have hfalse : pf'' = false := by
      cases pf'' with
      | false => rfl
      | true => exact absurd ⟨rfl, hpf.symm⟩ hnot
    rw [hfalse, ← hpf] at hheader
    rw [hfalse] at hseg
    subst haddr
    exact ⟨ys, q, p'', rfl, hpf.symm, hp.symm, ha, hseg, hheader, hshape⟩

end Chain

/-! ## The free blocks -/

/-- The classes of the free blocks. -/
def FreeMap (bs : List Blk) (F : Nat → Option (Nat × Nat)) : Prop :=
  ∀ x c, F x = some c ↔ ∃ b ∈ bs, b.free = true ∧ b.addr = x ∧ classOf b.size = c

section FreeMap

variable {F : Nat → Option (Nat × Nat)} {xs ys : List Blk} {b : Blk} {c : Nat × Nat} {w x : Nat}

theorem FreeMap.mem (h : FreeMap xs F) (hb : b ∈ xs) (hfree : b.free = true) :
    F b.addr = some (classOf b.size) :=
  (h b.addr (classOf b.size)).mpr ⟨b, hb, hfree, rfl, rfl⟩

theorem FreeMap.none (h : FreeMap xs F) (hno : ∀ b ∈ xs, b.free = true → b.addr ≠ x) :
    F x = none := by
  cases hF : F x with
  | none => rfl
  | some c =>
      obtain ⟨b, hb, hfree, haddr, -⟩ := (h x c).mp hF
      exact absurd haddr (hno b hb hfree)

theorem FreeMap.congr (h : FreeMap xs F) (hsame : ∀ b : Blk, b.free = true → (b ∈ ys ↔ b ∈ xs)) :
    FreeMap ys F := by
  intro x c
  rw [h x c]
  constructor
  · rintro ⟨b, hb, hfree, hrest⟩
    exact ⟨b, (hsame b hfree).mpr hb, hfree, hrest⟩
  · rintro ⟨b, hb, hfree, hrest⟩
    exact ⟨b, (hsame b hfree).mp hb, hfree, hrest⟩

/-- One block less. -/
theorem FreeMap.remove (h : FreeMap xs F)
    (hsame : ∀ x : Blk, x.free = true → (x ∈ xs ↔ x = b ∨ x ∈ ys))
    (hne : ∀ x ∈ ys, x.addr ≠ b.addr) : FreeMap ys (Function.update F b.addr Option.none) := by
  intro x c
  by_cases hx : x = b.addr
  · rw [hx, Function.update_self]
    constructor
    · intro hc
      cases hc
    · rintro ⟨y, hy, -, haddr, -⟩
      exact absurd haddr (hne y hy)
  · rw [Function.update_of_ne hx, h x c]
    constructor
    · rintro ⟨y, hy, hfree, haddr, hclass⟩
      rcases (hsame y hfree).mp hy with rfl | hy
      · exact absurd haddr.symm hx
      · exact ⟨y, hy, hfree, haddr, hclass⟩
    · rintro ⟨y, hy, hfree, haddr, hclass⟩
      exact ⟨y, (hsame y hfree).mpr (Or.inr hy), hfree, haddr, hclass⟩

/-- The word is a link of a free block. -/
def FreeLink (xs : List Blk) (w : Nat) : Prop :=
  ∃ b ∈ xs, b.free = true ∧ (w = b.addr + 8 ∨ w = b.addr + 12)

theorem FreeMap.linkWord_iff (h : FreeMap xs F) : LinkWord F w ↔ FreeLink xs w := by
  constructor
  · rintro ⟨x, hx, hw⟩
    obtain ⟨c, hc⟩ := Option.ne_none_iff_exists'.mp hx
    obtain ⟨b, hb, hfree, rfl, -⟩ := (h x c).mp hc
    exact ⟨b, hb, hfree, hw⟩
  · rintro ⟨b, hb, hfree, hw⟩
    refine ⟨b.addr, ?_, hw⟩
    rw [h.mem hb hfree]
    exact Option.some_ne_none _

end FreeMap

/-! ## Heaps -/

/-- The word is in the buffer of a block that is allocated. -/
def Owned (bs : List Blk) (w : Nat) : Prop :=
  ∃ x ∈ bs, x.free = false ∧ x.addr + 8 ≤ w ∧ w < x.addr + 8 + x.size

/-- The lists of free blocks are those of the blocks. -/
def FreeLists (s : Mm) (bs : List Blk) : Prop := ∃ F, FreeMap bs F ∧ Indexed s F

/-- A region from `a₀` to the header at `e`, and blocks elsewhere. -/
structure Region (a₀ e : Nat) (os : List Blk) : Prop where
  pos : 0 < a₀
  top : e + 8 ≤ 2 ^ 32
  apart : ∀ x ∈ os, x.Shaped ∧ x.size < 2 ^ maxMmBit ∧
    (x.addr + 8 + x.size ≤ a₀ ∨ e + 8 ≤ x.addr)

/-- The region has the blocks `bs`, and elsewhere there are the blocks `os`. -/
structure Rep (a₀ e : Nat) (os : List Blk) (s : Mm) (bs : List Blk) : Prop where
  region : Region a₀ e os
  chain : Chain s.mem e 0 false a₀ bs
  lists : FreeLists s (os ++ bs)

section FreeLists

variable {s t : Mm} {xs ys bs cs : List Blk} {f : Blk} {w : Nat}

theorem freeLink_append : FreeLink (xs ++ ys) w ↔ FreeLink xs w ∨ FreeLink ys w := by
  constructor
  · rintro ⟨b, hb, hrest⟩
    rcases List.mem_append.mp hb with hb | hb
    · exact Or.inl ⟨b, hb, hrest⟩
    · exact Or.inr ⟨b, hb, hrest⟩
  · rintro (⟨b, hb, hrest⟩ | ⟨b, hb, hrest⟩)
    · exact ⟨b, List.mem_append_left _ hb, hrest⟩
    · exact ⟨b, List.mem_append_right _ hb, hrest⟩

theorem owned_append : Owned (xs ++ ys) w ↔ Owned xs w ∨ Owned ys w := by
  constructor
  · rintro ⟨b, hb, hrest⟩
    rcases List.mem_append.mp hb with hb | hb
    · exact Or.inl ⟨b, hb, hrest⟩
    · exact Or.inr ⟨b, hb, hrest⟩
  · rintro (⟨b, hb, hrest⟩ | ⟨b, hb, hrest⟩)
    · exact ⟨b, List.mem_append_left _ hb, hrest⟩
    · exact ⟨b, List.mem_append_right _ hb, hrest⟩

/-- Only the links of the free blocks matter. -/
theorem FreeLists.congr (h : FreeLists s bs) (hmem : ∀ w, FreeLink bs w → t.mem w = s.mem w)
    (htbl : t.mmTbl = s.mmTbl) (hsl : t.slBitmap = s.slBitmap) (hfl : t.flBitmap = s.flBitmap) :
    FreeLists t bs := by
  obtain ⟨F, hF, hindex⟩ := h
  exact ⟨F, hF, hindex.congr (fun w hw => hmem w (hF.linkWord_iff.mp hw)) htbl hsl hfl⟩

/-- Blocks that are allocated do not matter. -/
theorem FreeLists.same (h : FreeLists s bs) (hsame : ∀ x : Blk, x.free = true → (x ∈ cs ↔ x ∈ bs)) :
    FreeLists s cs := by
  obtain ⟨F, hF, hindex⟩ := h
  exact ⟨F, hF.congr hsame, hindex⟩

/-- A free block is shorter than the lists can tell. -/
theorem FreeLists.lt (h : FreeLists s bs) (hf : f ∈ bs) (hfree : f.free = true)
    (hlt : f.size < 2 ^ 32) : f.size < 2 ^ maxMmBit := by
  obtain ⟨F, hF, L, hL⟩ := h
  exact lt_of_classOf hlt
    (hL.range _ (classOf f.size).1 (classOf f.size).2 (hF.mem hf hfree)).1

/-- A free block is taken out. -/
theorem FreeLists.getFree (h : FreeLists s bs) (hf : f ∈ bs) (hfree : f.free = true)
    (hsize : blksize (s.size f.addr) = f.size)
    (hsame : ∀ x : Blk, x.free = true → (x ∈ bs ↔ x = f ∨ x ∈ cs))
    (hne : ∀ x ∈ cs, x.addr ≠ f.addr) :
    FreeLists (s.getFree f.addr) cs ∧ ∀ w, ¬FreeLink bs w → (s.getFree f.addr).mem w = s.mem w := by
  obtain ⟨F, hF, hindex⟩ := h
  have hclass : F f.addr = some ((classOf f.size).1, (classOf f.size).2) := hF.mem hf hfree
  have hget : s.getFree f.addr = s.getBlock f.addr (classOf f.size).1 (classOf f.size).2 := by
    unfold Mm.getFree
    rw [hsize]
    rfl
  rw [hget]
  refine ⟨⟨_, hF.remove hsame hne, hindex.getBlock hclass⟩, fun w hw => ?_⟩
  exact getBlock_frame hindex hclass fun hlink => hw (hF.linkWord_iff.mp hlink)

/-- A free block is put in. -/
theorem FreeLists.insertFree (h : FreeLists s cs) (hfree : f.free = true) (hshape : f.Shaped)
    (hshort : f.size < 2 ^ maxMmBit) (hpos : 0 < f.addr)
    (hspaced : ∀ y ∈ cs, y.free = true → f.addr + 16 ≤ y.addr ∨ y.addr + 16 ≤ f.addr)
    (hsame : ∀ x : Blk, x.free = true → (x ∈ bs ↔ x = f ∨ x ∈ cs)) :
    FreeLists (s.insertFree f.addr f.size) bs ∧
      ∀ w, ¬FreeLink bs w → (s.insertFree f.addr f.size).mem w = s.mem w := by
  obtain ⟨F, hF, hindex⟩ := h
  have hclass := classOf_spec hshape.2 hshort
  -- its address is that of no other free block
  have hnew : F f.addr = none := by
    refine hF.none fun y hy hyfree haddr => ?_
    have hapart := hspaced y hy hyfree
    omega
  have hspaced' : ∀ y, F y ≠ none → f.addr + 16 ≤ y ∨ y + 16 ≤ f.addr := by
    intro y hy
    obtain ⟨c, hc⟩ := Option.ne_none_iff_exists'.mp hy
    obtain ⟨x, hx, hxfree, rfl, -⟩ := (hF y c).mp hc
    exact hspaced x hx hxfree
  have hmap : FreeMap bs (Function.update F f.addr (some (classOf f.size))) := by
    intro x c
    by_cases hx : x = f.addr
    · rw [hx, Function.update_self]
      constructor
      · exact fun hc => ⟨f, (hsame f hfree).mpr (Or.inl rfl), hfree, rfl, Option.some.inj hc⟩
      · rintro ⟨y, hy, hyfree, haddr, hyclass⟩
        rcases (hsame y hyfree).mp hy with rfl | hy
        · exact congrArg some hyclass
        · have hapart := hspaced y hy hyfree
          omega
    · rw [Function.update_of_ne hx, hF x c]
      constructor
      · rintro ⟨y, hy, hyfree, hrest⟩
        exact ⟨y, (hsame y hyfree).mpr (Or.inr hy), hyfree, hrest⟩
      · rintro ⟨y, hy, hyfree, haddr, hyclass⟩
        rcases (hsame y hyfree).mp hy with rfl | hy
        · exact absurd haddr.symm hx
        · exact ⟨y, hy, hyfree, haddr, hyclass⟩
  refine ⟨⟨_, hmap, hindex.insertBlock hnew hpos hclass.1 hclass.2.1 hspaced'⟩, fun w hw => ?_⟩
  have hf : f ∈ bs := (hsame f hfree).mpr (Or.inl rfl)
  refine insertBlock_frame hindex (fun hlink => hw ?_) ?_ ?_
  · obtain ⟨y, hy, hyfree, hyw⟩ := hF.linkWord_iff.mp hlink
    exact ⟨y, (hsame y hyfree).mpr (Or.inr hy), hyfree, hyw⟩
  · exact fun hc => hw ⟨f, hf, hfree, Or.inl hc⟩
  · exact fun hc => hw ⟨f, hf, hfree, Or.inr hc⟩

end FreeLists

end Rhino

end Wujian100
