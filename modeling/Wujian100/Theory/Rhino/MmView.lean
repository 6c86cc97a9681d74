import Wujian100.Theory.Rhino.MmHeap
import Wujian100.Theory.Rhino.MmBlk

/-!
# The Heap, as Its Users See It

Two kinds of blocks are handed out, those of the region and the small ones, which lie in one of
the region's. Every call changes what the others have in no way, and the numbers are those of the
bytes that are free but for eight, which are missing until nothing is free for the first time.

## Main definitions

* `PoolIn`, `Private`: The blocks that are not handed out.
* `InfoIn`: What the first block holds.
* `HeapCounted`, `Clamps`: What the numbers are.
* `HeapView`: A heap and the blocks of its users.
* `SameBlock`: A block that a call has not changed.

## Theorems

* `HeapView.live_cases`: The blocks of the users.
* `HeapView.write`: A write of an owner.
* `HeapView.tlsfAlloc`, `HeapView.smallblkAlloc`: One block more.
* `HeapView.tlsfFree`, `HeapView.smallblkFree`: One block less.
* `HeapView.resized`: A block of another size.
-/

namespace Wujian100

namespace Rhino

/-- What is handed out for a block. -/
def Blk.ptr (b : Blk) : Nat := b.addr + 8

/-- The small blocks lie in the block `fb`. -/
structure PoolIn (s : Mm) (fb : Blk) : Prop where
  fixed : s.fixedmblk = fb.addr
  alloc : fb.free = false
  long : mblkPoolSize + mmTlfBlkSize ≤ fb.size
  serves : ∃ blocks free,
    MblkBlocks (fb.addr + 8 + mblkPoolSize) defFixBlkSize mmTlfBlkSize blocks ∧
      blocks.length * defFixBlkSize = mmTlfBlkSize ∧
      MblkInv defFixBlkSize blocks free ⟨s.pool, s.mem, s.small⟩

/-- The blocks that are not handed out: the first one, and that of the small ones if there are
    any. -/
def Private (a₀ : Nat) (s : Mm) (priv : List Blk) : Prop :=
  (priv = [⟨a₀, kMmRegionInfoSize, false⟩] ∧ s.fixedmblk = 0 ∧ s.small = [] ∧
      s.pool.blkAvail = 0) ∨
    ∃ fb, priv = [⟨a₀, kMmRegionInfoSize, false⟩, fb] ∧ fb.addr = a₀ + 16 ∧ PoolIn s fb

/-- The first block of the only region tells where its last header is, and that no region is
    behind it. -/
def InfoIn (a₀ e : Nat) (s : Mm) : Prop :=
  s.regioninfo = a₀ + 8 ∧ s.mem (a₀ + 8) = e ∧ s.mem (a₀ + 12) = 0

/-- The numbers where `D` bytes are free: `c` says that there has been a time when none were. -/
structure HeapCounted (len : Nat) (s : Mm) (D : Nat) (c : Bool) : Prop where
  used : s.usedSize + D = len + 8
  free : s.freeSize = if c then D else D - 8
  some : c = false → 16 ≤ D
  seen : c = decide (0 < s.clamps)
  now : s.usedSize ∈ s.usedLog
  peak : s.maxusedSize ∈ s.usedLog
  above : ∀ u ∈ s.usedLog, u ≤ s.maxusedSize

/-- Where nothing is left free, a number was set to 0 for it. -/
def Clamps (len : Nat) (s t : Mm) : Prop :=
  t.clamps = s.clamps + if t.usedSize = len + 8 then 1 else 0

/-- A heap of `len` bytes with the blocks `L` handed out, and small ones. -/
structure HeapView (len a₀ e : Nat) (s : MmSys) (priv L : List Blk) (free : Nat) (c : Bool) :
    Prop where
  has : ∃ as, as.Perm (priv ++ L) ∧ HeapHas a₀ e [] s.mm as free
  priv : Private a₀ s.mm priv
  live : s.live.Perm (L.map Blk.ptr ++ s.mm.small)
  counted : HeapCounted len s.mm (free + 32 * s.mm.pool.blkAvail) c
  whole : len + a₀ = e + 1960 ∧ len ≤ 2 ^ maxMmBit
  info : InfoIn a₀ e s.mm

/-- A block is as long as it was and holds what it held. -/
def SameBlock (s t : Mm) (q : Nat) : Prop :=
  t.extent q = s.extent q ∧ ∀ w, q ≤ w → w < q + s.extent q → t.mem w = s.mem w

/-! ## Numbers -/

section HeapCounted

variable {len D n : Nat} {c : Bool} {s t : Mm}

theorem HeapCounted.max (h : HeapCounted len s D c) : s.usedSize ≤ s.maxusedSize :=
  h.above _ h.now

/-- There is more left than is taken, unless all is. -/
theorem HeapCounted.lt_iff (h : HeapCounted len s D c) {D' : Nat} (hD : D' + n = D)
    (hpos : D' = 0 ∨ 16 ≤ D') : s.freeSize > n ↔ D' ≠ 0 := by
  have hfree := h.free
  cases c with
  | true =>
      rw [if_pos rfl] at hfree
      omega
  | false =>
      have hsome := h.some rfl
      rw [if_neg Bool.false_ne_true] at hfree
      omega

theorem HeapCounted.addsize_clamps (h : HeapCounted len s D c) {D' : Nat} (hD : D' + n = D)
    (hpos : D' = 0 ∨ 16 ≤ D') : Clamps len s (s.addsize n) := by
  have hused := h.used
  have hiff := h.lt_iff hD hpos
  unfold Clamps Mm.addsize
  dsimp only
  by_cases hzero : D' = 0
  · rw [if_neg fun hc => hiff.mp hc hzero, if_pos (by omega)]
  · rw [if_pos (hiff.mpr hzero), if_neg (by omega), Nat.add_zero]

theorem HeapCounted.addsize (h : HeapCounted len s D c) (D' n : Nat) (hD : D' + n = D)
    (hpos : D' = 0 ∨ 16 ≤ D') : HeapCounted len (s.addsize n) D' (c || decide (D' = 0)) := by
  have hiff := h.lt_iff hD hpos
  obtain ⟨hused, hfree, hsome, hseen, hnow, hpeak, habove⟩ := h
  unfold Mm.addsize
  refine ⟨?_, ?_, ?_, ?_, List.mem_cons_self, ?_, ?_⟩
  · dsimp only
    omega
  · dsimp only
    rw [hfree]
    cases c with
    | true =>
        rw [Bool.true_or, if_pos rfl, if_pos rfl]
        split_ifs
        · omega
        · omega
    | false =>
        have hsome' := hsome rfl
        rw [Bool.false_or, if_neg Bool.false_ne_true]
        rcases hpos with hzero | hpos
        · -- the last bytes are taken, and the eight are no longer missing
          rw [decide_eq_true hzero, if_pos rfl, if_neg (by omega)]
          exact hzero.symm
        · rw [decide_eq_false (by omega), if_neg Bool.false_ne_true, if_pos (by omega)]
          omega
  · intro hc
    obtain ⟨-, hne⟩ := Bool.or_eq_false_iff.mp hc
    have := of_decide_eq_false hne
    omega
  · dsimp only
    rw [hseen]
    by_cases hzero : D' = 0
    · rw [decide_eq_true hzero, Bool.or_true, if_neg fun hc => hiff.mp hc hzero,
        decide_eq_true (Nat.succ_pos _)]
    · rw [decide_eq_false hzero, Bool.or_false, if_pos (hiff.mpr hzero)]
  · -- the largest one so far, or the one that comes now
    dsimp only
    split_ifs with hmax
    · exact List.mem_cons_self
    · exact List.mem_cons_of_mem _ hpeak
  · intro u hu
    dsimp only
    rcases List.mem_cons.mp hu with rfl | hu
    · split_ifs with hmax
      · exact Nat.le_refl _
      · exact Nat.le_of_not_gt hmax
    · have hle := habove u hu
      split_ifs with hmax
      · exact hle.trans (Nat.le_of_lt hmax)
      · exact hle

/-- What is given back was used, and no number is set to 0 for it. -/
theorem removesize_clamps (hn : n < s.usedSize) : (s.removesize n).clamps = s.clamps :=
  if_pos hn

theorem HeapCounted.removesize (h : HeapCounted len s D c) (hn : n < s.usedSize) :
    HeapCounted len (s.removesize n) (D + n) c := by
  obtain ⟨hused, hfree, hsome, hseen, hnow, hpeak, habove⟩ := h
  unfold Mm.removesize
  refine ⟨?_, ?_, ?_, ?_, List.mem_cons_self, List.mem_cons_of_mem _ hpeak, ?_⟩
  · dsimp only
    rw [if_pos hn]
    omega
  · dsimp only
    rw [hfree]
    cases c with
    | true =>
        rw [if_pos rfl, if_pos rfl]
    | false =>
        have hsome' := hsome rfl
        rw [if_neg Bool.false_ne_true, if_neg Bool.false_ne_true]
        omega
  · intro hc
    have := hsome hc
    omega
  · dsimp only
    rw [if_pos hn]
    exact hseen
  · intro u hu
    rcases List.mem_cons.mp hu with rfl | hu
    · rw [if_pos hn]
      exact (Nat.sub_le _ _).trans (habove _ hnow)
    · exact habove u hu

theorem HeapCounted.congr (h : HeapCounted len s D c) (hsame : OnlyLists s t) :
    HeapCounted len t D c := by
  obtain ⟨hused, hfree, hsome, hseen, hnow, hpeak, habove⟩ := h
  refine ⟨?_, ?_, hsome, ?_, ?_, ?_, ?_⟩
  · rw [hsame.usedSize]
    exact hused
  · rw [hsame.freeSize]
    exact hfree
  · rw [hsame.clamps]
    exact hseen
  · rw [hsame.usedSize, hsame.usedLog]
    exact hnow
  · rw [hsame.maxusedSize, hsame.usedLog]
    exact hpeak
  · rw [hsame.maxusedSize, hsame.usedLog]
    exact habove

theorem Clamps.congr {u : Mm} (h : Clamps len s t) (hsame : OnlyLists t u) : Clamps len s u := by
  unfold Clamps at h ⊢
  rw [hsame.clamps, hsame.usedSize]
  exact h

end HeapCounted

/-! ## Small blocks -/

section Pool

variable {a₀ p : Nat} {s t : Mm} {fb : Blk} {priv : List Blk}

/-- The pool depends on the words of its block. -/
theorem PoolIn.congr (h : PoolIn s fb) (hfixed : t.fixedmblk = s.fixedmblk)
    (hpool : t.pool = s.pool) (hsmall : t.small = s.small)
    (hmem : ∀ w, fb.addr + 8 ≤ w → w < fb.addr + 8 + fb.size → t.mem w = s.mem w) :
    PoolIn t fb := by
  obtain ⟨hfix, halloc, hlong, blocks, free, hblocks, hcount, hinv⟩ := h
  refine ⟨hfixed.trans hfix, halloc, hlong, blocks, free, hblocks, hcount, ?_⟩
  rw [hpool, hsmall]
  refine ⟨hinv.valid, hinv.size, hinv.whole, hinv.leads.congr fun b hb => hmem b ?_ ?_, hinv.avail,
    hinv.all⟩
  · have hin := (hblocks.inside b (hinv.all.subset (List.mem_append_left _ hb))).1
    omega
  · have hin := (hblocks.inside b (hinv.all.subset (List.mem_append_left _ hb))).2
    unfold mblkPoolSize defFixBlkSize at *
    omega

/-- Where a small block is. -/
theorem PoolIn.bounds (h : PoolIn s fb) (hp : p ∈ s.small) :
    fb.addr + 8 + 32 ≤ p ∧ p + 32 ≤ fb.addr + 8 + 32 + 4096 ∧ 32 + 4096 ≤ fb.size := by
  obtain ⟨-, -, hlong, blocks, free, hblocks, -, hinv⟩ := h
  obtain ⟨hlow, hhigh⟩ := hblocks.inside p (hinv.all.subset (List.mem_append_right _ hp))
  exact ⟨hlow, hhigh, hlong⟩

/-- There are not more small blocks than there is room for. -/
theorem PoolIn.avail_le (h : PoolIn s fb) : 32 * s.pool.blkAvail ≤ 4096 := by
  obtain ⟨-, -, -, blocks, free, -, hcount, hinv⟩ := h
  have hlen := hinv.all.length_eq
  rw [List.length_append] at hlen
  have havail : s.pool.blkAvail = free.length := hinv.avail
  unfold defFixBlkSize mmTlfBlkSize at hcount
  omega

/-- Small blocks have no byte in common. -/
theorem PoolIn.apart (h : PoolIn s fb) : s.small.Pairwise fun a b => a + 32 ≤ b ∨ b + 32 ≤ a := by
  obtain ⟨-, -, -, blocks, free, hblocks, -, hinv⟩ := h
  have hall := (hinv.all.pairwise_iff fun h => h.symm).mpr hblocks.apart
  exact (List.pairwise_append.mp hall).2.1

theorem Private.congr (h : Private a₀ s priv) (hfixed : t.fixedmblk = s.fixedmblk)
    (hpool : t.pool = s.pool) (hsmall : t.small = s.small)
    (hmem : ∀ w, Owned priv w → t.mem w = s.mem w) : Private a₀ t priv := by
  rcases h with ⟨hpriv, hfix, hnone, havail⟩ | ⟨fb, rfl, haddr, hin⟩
  · exact Or.inl ⟨hpriv, hfixed.trans hfix, hsmall.trans hnone, by rw [hpool, havail]⟩
  · refine Or.inr ⟨fb, rfl, haddr, hin.congr hfixed hpool hsmall fun w hw hw' => hmem w ?_⟩
    exact ⟨fb, List.mem_cons_of_mem _ List.mem_cons_self, hin.alloc, hw, hw'⟩

theorem InfoIn.congr {e : Nat} (h : InfoIn a₀ e s) (hregion : t.regioninfo = s.regioninfo)
    (hmem : ∀ w, a₀ + 8 ≤ w → w < a₀ + 16 → t.mem w = s.mem w) : InfoIn a₀ e t := by
  obtain ⟨hinfo, hend, hnext⟩ := h
  refine ⟨hregion.trans hinfo, ?_, ?_⟩
  · rw [hmem _ (Nat.le_refl _) (by omega), hend]
  · rw [hmem _ (by omega) (by omega), hnext]

/-- The first block is not handed out. -/
theorem Private.first (h : Private a₀ s priv) : ⟨a₀, 8, false⟩ ∈ priv := by
  rcases h with ⟨rfl, -⟩ | ⟨fb, rfl, -⟩
  · exact List.mem_cons_self
  · exact List.mem_cons_self

end Pool

section View

variable {len a₀ e free size p q : Nat} {c : Bool} {s : MmSys} {t : Mm} {priv L L' : List Blk}
  {x y : Blk}

/-! ## The blocks of the users -/

/-- The region is not too long for the lists. -/
theorem HeapView.short (h : HeapView len a₀ e s priv L free c) : e < a₀ + 2 ^ maxMmBit := by
  obtain ⟨hwhole, hlen⟩ := h.whole
  omega

/-- The first block holds what it held. -/
theorem HeapView.infoKept (h : HeapView len a₀ e s priv L free c)
    (hregion : t.regioninfo = s.mm.regioninfo)
    (hmem : ∀ y ∈ priv, ∀ w, y.addr + 8 ≤ w → w < y.addr + 8 + y.size → t.mem w = s.mm.mem w) :
    InfoIn a₀ e t := by
  refine h.info.congr hregion fun w hw hw' => hmem _ h.priv.first w hw ?_
  dsimp only
  omega

/-- Where the blocks of the region are, those that are not handed out as well. -/
theorem HeapView.bounds (h : HeapView len a₀ e s priv L free c) (hx : x ∈ priv ++ L) :
    x.free = false ∧ x.Shaped ∧ 0 < a₀ ∧ a₀ ≤ x.addr ∧ x.addr + 8 + x.size ≤ e := by
  obtain ⟨as, hperm, hhas⟩ := h.has
  obtain ⟨h1, h2, h3, h4⟩ := hhas.bounds (hperm.mem_iff.mpr hx)
  exact ⟨h1, h2, hhas.region.pos, h3, h4⟩

theorem HeapView.apart (h : HeapView len a₀ e s priv L free c) (hx : x ∈ priv ++ L)
    (hy : y ∈ priv ++ L) : x = y ∨ x.Apart y := by
  obtain ⟨as, hperm, hhas⟩ := h.has
  exact hhas.apart (hperm.mem_iff.mpr hx) (hperm.mem_iff.mpr hy)

/-- No block is there twice, nor overlaps another. -/
theorem HeapView.pairwise (h : HeapView len a₀ e s priv L free c) :
    (priv ++ L).Pairwise Blk.Apart := by
  obtain ⟨as, hperm, hhas⟩ := h.has
  exact (hperm.pairwise_iff fun h => h.symm).mp (hhas.sorted.imp Or.inl)

theorem HeapView.blksize_eq (h : HeapView len a₀ e s priv L free c) (hx : x ∈ priv ++ L) :
    blksize (s.mm.size x.addr) = x.size := by
  obtain ⟨as, hperm, hhas⟩ := h.has
  exact hhas.blksize_eq (hperm.mem_iff.mpr hx)

/-- A block of the region is not taken for a small one. -/
theorem HeapView.not_fixed (h : HeapView len a₀ e s priv L free c) (hx : x ∈ L) :
    ¬(s.mm.fixedmblk ≠ 0 ∧ s.mm.isFixedBlk x.ptr) := by
  have hpair := h.pairwise
  rcases h.priv with ⟨-, hfixed, -⟩ | ⟨fb, rfl, -, hin⟩
  · exact fun hc => hc.1 hfixed
  · obtain ⟨as, hperm, hhas⟩ := h.has
    have hfb : fb ∈ as := hperm.mem_iff.mpr (by
      simp only [List.mem_append, List.mem_cons, true_or, or_true])
    obtain ⟨q, hq⟩ := hhas.size_eq hfb
    have hapart := (List.pairwise_append.mp hpair).2.2 fb
      (List.mem_cons_of_mem _ List.mem_cons_self) x hx
    have hle : q.toNat ≤ 1 := Bool.toNat_le q
    unfold Blk.Apart Blk.Before at hapart
    unfold Mm.isFixedBlk Blk.ptr mmlistHeadSize
    rw [hin.fixed, hq]
    omega

/-- A small block is taken for one. -/
theorem HeapView.fixed (h : HeapView len a₀ e s priv L free c) (hp : p ∈ s.mm.small) :
    (s.mm.fixedmblk ≠ 0 ∧ s.mm.isFixedBlk p) ∧ p ≠ 0 ∧
      ∃ fb ∈ priv, PoolIn s.mm fb ∧ fb.addr + 8 + 32 ≤ p ∧ p + 32 ≤ fb.addr + 8 + fb.size := by
  obtain ⟨as, hperm, hhas⟩ := h.has
  rcases h.priv with ⟨-, -, hnone, -⟩ | ⟨fb, rfl, haddr, hin⟩
  · rw [hnone] at hp
    cases hp
  · have hfb : fb ∈ as := hperm.mem_iff.mpr (by
      simp only [List.mem_append, List.mem_cons, true_or, or_true])
    obtain ⟨q, hq⟩ := hhas.size_eq hfb
    obtain ⟨hlow, hhigh, hlong⟩ := hin.bounds hp
    refine ⟨⟨?_, ?_⟩, by omega, fb, List.mem_cons_of_mem _ List.mem_cons_self, hin, hlow, by omega⟩
    · rw [hin.fixed]
      omega
    · unfold Mm.isFixedBlk mmlistHeadSize
      rw [hin.fixed, hq]
      omega

theorem HeapView.extent_of_mem (h : HeapView len a₀ e s priv L free c) (hx : x ∈ L) :
    s.mm.extent x.ptr = x.size := by
  unfold Mm.extent
  rw [if_neg (h.not_fixed hx)]
  exact h.blksize_eq (List.mem_append_right _ hx)

theorem HeapView.extent_of_small (h : HeapView len a₀ e s priv L free c) (hp : p ∈ s.mm.small) :
    s.mm.extent p = 32 := by
  unfold Mm.extent
  rw [if_pos (h.fixed hp).1]
  rfl

/-- What the users have. -/
theorem HeapView.live_cases (h : HeapView len a₀ e s priv L free c) (hp : p ∈ s.live) :
    (∃ x ∈ L, p = x.ptr) ∨ p ∈ s.mm.small := by
  rcases List.mem_append.mp (h.live.mem_iff.mp hp) with hp | hp
  · obtain ⟨x, hx, rfl⟩ := List.mem_map.mp hp
    exact Or.inl ⟨x, hx, rfl⟩
  · exact Or.inr hp

/-- Nobody has the first block. -/
theorem HeapView.live_behind (h : HeapView len a₀ e s priv L free c) (hp : p ∈ s.live) :
    a₀ + 16 ≤ p := by
  rcases h.live_cases hp with ⟨x, hx, rfl⟩ | hsmall
  · have hlow := (h.bounds (List.mem_append_right priv hx)).2.2.2.1
    have hapart := (List.pairwise_append.mp h.pairwise).2.2 _ h.priv.first x hx
    unfold Blk.Apart Blk.Before at hapart
    unfold Blk.ptr
    dsimp only at hapart
    omega
  · rcases h.priv with ⟨-, -, hnone, -⟩ | ⟨fb, -, haddr, hin⟩
    · rw [hnone] at hsmall
      cases hsmall
    · have hlow := (hin.bounds hsmall).1
      omega

/-- What a user has lies in a block of the region. -/
theorem HeapView.owned (h : HeapView len a₀ e s priv L free c) (hp : p ∈ s.live) :
    ∃ x ∈ priv ++ L, x.addr + 8 ≤ p ∧ p + s.mm.extent p ≤ x.addr + 8 + x.size ∧
      ((x ∈ L ∧ p = x.ptr) ∨ (x ∈ priv ∧ p ∈ s.mm.small)) := by
  rcases h.live_cases hp with ⟨x, hx, rfl⟩ | hsmall
  · refine ⟨x, List.mem_append_right _ hx, Nat.le_refl _, ?_, Or.inl ⟨hx, rfl⟩⟩
    rw [h.extent_of_mem hx]
    exact Nat.le_refl _
  · obtain ⟨-, -, fb, hfb, -, hlow, hhigh⟩ := h.fixed hsmall
    refine ⟨fb, List.mem_append_left _ hfb, by omega, ?_, Or.inr ⟨hfb, hsmall⟩⟩
    rw [h.extent_of_small hsmall]
    exact hhigh

/-- A block that its owner still has is as long as it was. -/
theorem HeapView.extent_eq {s' : MmSys} {free' : Nat} {c' : Bool}
    (h : HeapView len a₀ e s priv L free c) (h' : HeapView len a₀ e s' priv L' free' c')
    (hq : q ∈ s.live) (hL : ∀ x ∈ L, q = x.ptr → x ∈ L')
    (hsmall : q ∈ s.mm.small → q ∈ s'.mm.small) : s'.mm.extent q = s.mm.extent q := by
  rcases h.live_cases hq with ⟨x, hx, rfl⟩ | hq
  · rw [h'.extent_of_mem (hL x hx rfl), h.extent_of_mem hx]
  · rw [h'.extent_of_small (hsmall hq), h.extent_of_small hq]

/-- A block is the same if its owner still has it and the block it lies in is the same. -/
theorem HeapView.sameBlock {s' : MmSys} {free' : Nat} {c' : Bool}
    (h : HeapView len a₀ e s priv L free c) (h' : HeapView len a₀ e s' priv L' free' c')
    (hq : q ∈ s.live)
    (hL : ∀ x ∈ L, q = x.ptr → x ∈ L' ∧ ∀ w, x.addr + 8 ≤ w → w < x.addr + 8 + x.size →
      s'.mm.mem w = s.mm.mem w)
    (hsmall : q ∈ s.mm.small → q ∈ s'.mm.small ∧ ∀ x ∈ priv, ∀ w, x.addr + 8 ≤ w →
      w < x.addr + 8 + x.size → s'.mm.mem w = s.mm.mem w) : SameBlock s.mm s'.mm q := by
  refine ⟨h.extent_eq h' hq (fun x hx heq => (hL x hx heq).1) fun hq => (hsmall hq).1,
    fun w hw hw' => ?_⟩
  obtain ⟨x, -, hlow, hhigh, hcases⟩ := h.owned hq
  rcases hcases with ⟨hx, rfl⟩ | ⟨hx, hq⟩
  · exact (hL x hx rfl).2 w (by omega) (by omega)
  · exact (hsmall hq).2 x hx w (by omega) (by omega)

/-- More is used than all blocks have, but for the small ones that are free. -/
theorem HeapView.used_eq (h : HeapView len a₀ e s priv L free c) :
    s.mm.usedSize + 32 * s.mm.pool.blkAvail = 1968 + totalBytes (priv ++ L) := by
  obtain ⟨as, hperm, hhas⟩ := h.has
  have htotal := hhas.total
  have hused := h.counted.used
  have hwhole := h.whole.1
  have hsum : totalBytes as = totalBytes (priv ++ L) := (hperm.map _).sum_nat
  omega

theorem totalBytes_of_perm {as bs : List Blk} (h : as.Perm (x :: bs)) :
    totalBytes as = 8 + x.size + totalBytes bs :=
  (h.map fun b : Blk => 8 + b.size).sum_nat

/-- What is taken from the numbers when a block of the region is given back is there. -/
theorem HeapView.lt_used (h : HeapView len a₀ e s priv L free c) (hx : x ∈ L) :
    8 + x.size < s.mm.usedSize := by
  have hused := h.used_eq
  have hL := totalBytes_of_perm (List.perm_cons_erase hx)
  have happend : totalBytes (priv ++ L) = totalBytes priv + totalBytes L := by
    unfold totalBytes
    rw [List.map_append, List.sum_append_nat]
  rcases h.priv with ⟨-, -, -, havail⟩ | ⟨fb, rfl, -, hin⟩
  · omega
  · have hle := hin.avail_le
    have hlong := hin.long
    have htwo : totalBytes [⟨a₀, kMmRegionInfoSize, false⟩, fb]
        = 8 + kMmRegionInfoSize + (8 + fb.size + 0) := rfl
    unfold mblkPoolSize mmTlfBlkSize at hlong
    omega

/-- The same for a small block. -/
theorem HeapView.lt_used_small (h : HeapView len a₀ e s priv L free c) :
    defFixBlkSize < s.mm.usedSize := by
  have hused := h.used_eq
  have happend : totalBytes (priv ++ L) = totalBytes priv + totalBytes L := by
    unfold totalBytes
    rw [List.map_append, List.sum_append_nat]
  unfold defFixBlkSize
  rcases h.priv with ⟨-, -, -, havail⟩ | ⟨fb, rfl, -, hin⟩
  · omega
  · have hle := hin.avail_le
    have hlong := hin.long
    have htwo : totalBytes [⟨a₀, kMmRegionInfoSize, false⟩, fb]
        = 8 + kMmRegionInfoSize + (8 + fb.size + 0) := rfl
    unfold mblkPoolSize mmTlfBlkSize at hlong
    omega

/-! ## Calls on the region -/

/-- What belongs to a block is kept. -/
theorem kept_of_mem {as : List Blk} {w : Nat} (hx : x ∈ as) (hfree : x.free = false)
    (hlow : x.addr + 8 ≤ w) (hhigh : w < x.addr + 8 + x.size) : Kept a₀ e [] as w :=
  Or.inr ⟨x, hx, hfree, hlow, hhigh⟩

theorem HeapView.tlsfAlloc (h : HeapView len a₀ e s priv L free c) (hsize : size ≤ sizeLimit) :
    s.mm.tlsfAlloc size = (0, s.mm) ∨
      ∃ x t free' c', s.mm.tlsfAlloc size = (x.ptr, t) ∧ allocSize size ≤ x.size ∧
        x.size < allocSize size + 16 ∧ (c = true → c' = true) ∧ Clamps len s.mm t ∧
        t.usedSize = s.mm.usedSize + (8 + x.size) ∧
        HeapView len a₀ e ⟨t, x.ptr :: s.live⟩ priv (x :: L) free' c' ∧
        ∀ y ∈ priv ++ L, ∀ w, y.addr + 8 ≤ w → w < y.addr + 8 + y.size →
          t.mem w = s.mm.mem w := by
  obtain ⟨as, hperm, hhas⟩ := h.has
  rcases hhas.tlsfAlloc hsize with hnone | ⟨x, as', t, ht, hle, hlt, hperm',
    ⟨free', hhas', hfree'⟩, honly, hsame⟩
  · exact Or.inl hnone
  · have hmem : ∀ y ∈ priv ++ L, ∀ w, y.addr + 8 ≤ w → w < y.addr + 8 + y.size →
        t.mem w = s.mm.mem w := fun y hy w hw hw' =>
      hsame w (kept_of_mem (hperm.mem_iff.mpr hy) (h.bounds hy).1 hw hw')
    have hpool : t.pool = s.mm.pool := honly.pool
    have hsmall : t.small = s.mm.small := honly.small
    have hpos := hhas'.free_pos
    have hD : free' + 32 * s.mm.pool.blkAvail + (8 + x.size) = free + 32 * s.mm.pool.blkAvail := by
      omega
    refine Or.inr ⟨x, t, free', c || decide (free' + 32 * s.mm.pool.blkAvail = 0), ht, hle, hlt,
      fun hc => Bool.or_eq_true_iff.mpr (Or.inl hc),
      (h.counted.addsize_clamps hD (by omega)).congr honly, honly.usedSize,
      ⟨⟨as', ?_, hhas'⟩, ?_, ?_, ?_, h.whole,
        h.infoKept honly.regioninfo fun y hy => hmem y (List.mem_append_left _ hy)⟩, hmem⟩
    · exact hperm'.trans ((hperm.cons x).trans List.perm_middle.symm)
    · refine h.priv.congr honly.fixedmblk hpool hsmall ?_
      rintro w ⟨y, hy, -, hw, hw'⟩
      exact hmem y (List.mem_append_left _ hy) w hw hw'
    · dsimp only
      rw [hsmall]
      exact h.live.cons _
    · dsimp only
      rw [hpool]
      exact (h.counted.addsize _ _ hD (by omega)).congr honly

theorem HeapView.tlsfFree (h : HeapView len a₀ e s priv L free c) (hx : x ∈ L) :
    HeapView len a₀ e ⟨s.mm.tlsfFree x.addr, s.live.erase x.ptr⟩ priv (L.erase x)
        (free + (8 + x.size)) c ∧
      (s.mm.tlsfFree x.addr).clamps = s.mm.clamps ∧
      ∀ y ∈ priv ++ L.erase x, ∀ w, y.addr + 8 ≤ w → w < y.addr + 8 + y.size →
        (s.mm.tlsfFree x.addr).mem w = s.mm.mem w := by
  obtain ⟨as, hperm, hhas⟩ := h.has
  have hxas : x ∈ as := hperm.mem_iff.mpr (List.mem_append_right _ hx)
  obtain ⟨as', hperm', hhas', honly, hsame⟩ := hhas.tlsfFree hxas h.short
  -- The other allocated blocks are those of before, in some order.
  have hrest : as'.Perm (priv ++ L.erase x) := by
    have hL := (List.perm_cons_erase hx).append_left priv
    exact (hperm'.symm.trans (hperm.trans (hL.trans List.perm_middle))).cons_inv
  have hfree : ∀ y ∈ priv ++ L.erase x, y.free = false := by
    intro y hy
    refine (h.bounds (x := y) ?_).1
    rcases List.mem_append.mp hy with hy | hy
    · exact List.mem_append_left _ hy
    · exact List.mem_append_right _ (List.mem_of_mem_erase hy)
  have hmem : ∀ y ∈ priv ++ L.erase x, ∀ w, y.addr + 8 ≤ w → w < y.addr + 8 + y.size →
      (s.mm.tlsfFree x.addr).mem w = s.mm.mem w := fun y hy w hw hw' =>
    hsame w (kept_of_mem (hrest.mem_iff.mpr hy) (hfree y hy) hw hw')
  have hpool : (s.mm.tlsfFree x.addr).pool = s.mm.pool := honly.pool
  have hsmall : (s.mm.tlsfFree x.addr).small = s.mm.small := honly.small
  refine ⟨⟨⟨as', hrest, hhas'⟩, ?_, ?_, ?_, h.whole,
      h.infoKept honly.regioninfo fun y hy => hmem y (List.mem_append_left _ hy)⟩,
    honly.clamps.trans (removesize_clamps (h.lt_used hx)), hmem⟩
  · refine h.priv.congr honly.fixedmblk hpool hsmall ?_
    rintro w ⟨y, hy, -, hw, hw'⟩
    exact hmem y (List.mem_append_left _ hy) w hw hw'
  · have hlive : s.live.Perm (x.ptr :: ((L.erase x).map Blk.ptr ++ s.mm.small)) :=
      h.live.trans (((List.perm_cons_erase hx).map Blk.ptr).append_right s.mm.small)
    have herase := hlive.erase x.ptr
    rw [List.erase_cons_head] at herase
    dsimp only
    rw [hsmall]
    exact herase
  · have hcounted := (h.counted.removesize (h.lt_used hx)).congr honly
    dsimp only
    rw [hpool, show free + (8 + x.size) + 32 * s.mm.pool.blkAvail
      = free + 32 * s.mm.pool.blkAvail + (8 + x.size) by omega]
    exact hcounted

/-- A block got another size. -/
theorem HeapView.resized {n keep : Nat} {as : List Blk} (h : HeapView len a₀ e s priv L free c)
    (hperm : as.Perm (priv ++ L)) (hx : x ∈ L) (hres : Resized a₀ e [] s.mm t as free x n keep) :
    ∃ free' c', (c = true → c' = true) ∧ Clamps len s.mm t ∧
      t.usedSize + (8 + x.size) = s.mm.usedSize + (8 + n) ∧
      HeapView len a₀ e ⟨t, s.live⟩ priv (⟨x.addr, n, false⟩ :: L.erase x) free' c' ∧
      (∀ y ∈ priv ++ L.erase x, ∀ w, y.addr + 8 ≤ w → w < y.addr + 8 + y.size →
        t.mem w = s.mm.mem w) ∧
      (∀ w, x.addr + 8 ≤ w → w < x.addr + 8 + keep → t.mem w = s.mm.mem w) ∧
      t.small = s.mm.small := by
  obtain ⟨as', rest, free', hperm₁, hperm₂, hhas', hfree', honly, hsame, hdata⟩ := hres
  -- The other allocated blocks are those of before, in some order.
  have hrest : rest.Perm (priv ++ L.erase x) := by
    have hL := (List.perm_cons_erase hx).append_left priv
    exact (hperm₁.symm.trans (hperm.trans (hL.trans List.perm_middle))).cons_inv
  have hfree : ∀ y ∈ priv ++ L.erase x, y.free = false := by
    intro y hy
    refine (h.bounds (x := y) ?_).1
    rcases List.mem_append.mp hy with hy | hy
    · exact List.mem_append_left _ hy
    · exact List.mem_append_right _ (List.mem_of_mem_erase hy)
  have hmem : ∀ y ∈ priv ++ L.erase x, ∀ w, y.addr + 8 ≤ w → w < y.addr + 8 + y.size →
      t.mem w = s.mm.mem w := fun y hy w hw hw' =>
    hsame w (kept_of_mem (hrest.mem_iff.mpr hy) (hfree y hy) hw hw')
  have hpool : t.pool = s.mm.pool := honly.pool
  have hsmall : t.small = s.mm.small := honly.small
  have hlt := h.lt_used hx
  have hpos := hhas'.free_pos
  have hremoved := h.counted.removesize hlt
  -- What the block gained the free bytes have lost.
  have hD : free' + 32 * s.mm.pool.blkAvail + (8 + n)
      = free + 32 * s.mm.pool.blkAvail + (8 + x.size) := by
    omega
  have hclamps := (hremoved.addsize_clamps hD (by omega)).congr honly
  have hused : t.usedSize = (if s.mm.usedSize > 8 + x.size then s.mm.usedSize - (8 + x.size) else 0)
      + (8 + n) := honly.usedSize
  rw [if_pos hlt] at hused
  refine ⟨free', c || decide (free' + 32 * s.mm.pool.blkAvail = 0),
    fun hc => Bool.or_eq_true_iff.mpr (Or.inl hc), ?_, by omega,
    ⟨⟨as', ?_, hhas'⟩, ?_, ?_, ?_, h.whole,
      h.infoKept honly.regioninfo fun y hy => hmem y (List.mem_append_left _ hy)⟩, hmem, hdata,
    hsmall⟩
  · unfold Clamps at hclamps ⊢
    rw [hclamps, removesize_clamps hlt]
  · exact hperm₂.trans ((hrest.cons _).trans List.perm_middle.symm)
  · refine h.priv.congr honly.fixedmblk hpool hsmall ?_
    rintro w ⟨y, hy, -, hw, hw'⟩
    exact hmem y (List.mem_append_left _ hy) w hw hw'
  · dsimp only
    rw [hsmall]
    exact h.live.trans (((List.perm_cons_erase hx).map Blk.ptr).append_right s.mm.small)
  · dsimp only
    rw [hpool]
    exact (hremoved.addsize _ _ hD (by omega)).congr honly

/-! ## Calls on small blocks -/

theorem HeapView.smallblkAlloc (h : HeapView len a₀ e s priv L free c)
    (hfixed : s.mm.fixedmblk ≠ 0) (havail : s.mm.pool.blkAvail > 0) :
    ∃ p t c', s.mm.smallblkAlloc = (p, t) ∧ p = s.mm.pool.availList ∧ t.mem = s.mm.mem ∧
      t.small = p :: s.mm.small ∧
      (c = true → c' = true) ∧ Clamps len s.mm t ∧ t.usedSize = s.mm.usedSize + 32 ∧
      HeapView len a₀ e ⟨t, p :: s.live⟩ priv L free c' := by
  rcases h.priv with ⟨-, hnone, -⟩ | ⟨fb, hpriv, haddr, hin⟩
  · exact absurd hnone hfixed
  · obtain ⟨hfix, halloc, hlong, blocks, fr, hblocks, hcount, hinv⟩ := hin
    have htaken := alloc_taken (s := ⟨s.mm.pool, s.mm.mem, s.mm.small⟩) hinv.valid havail
    obtain ⟨fr', hinv'⟩ := alloc_mblkInv hinv
    rw [htaken] at hinv'
    have heq : s.mm.smallblkAlloc = (s.mm.pool.availList,
        { s.mm with
          pool := { s.mm.pool with
            availList := s.mm.mem s.mm.pool.availList
            blkAvail := s.mm.pool.blkAvail - 1 }
          small := s.mm.pool.availList :: s.mm.small }.addsize defFixBlkSize) := by
      unfold Mm.smallblkAlloc
      rw [htaken]
    obtain ⟨as, hperm, hhas⟩ := h.has
    have hpos := hhas.free_pos
    have hD : free + 32 * (s.mm.pool.blkAvail - 1) + defFixBlkSize
        = free + 32 * s.mm.pool.blkAvail := by
      unfold defFixBlkSize
      omega
    refine ⟨_, _, c || decide (free + 32 * (s.mm.pool.blkAvail - 1) = 0), heq, rfl, rfl, rfl,
      fun hc => Bool.or_eq_true_iff.mpr (Or.inl hc), h.counted.addsize_clamps hD (by omega), rfl,
      ⟨⟨as, hperm, hhas.onlyNumbers rfl rfl rfl rfl⟩, ?_, ?_, ?_, h.whole, h.info⟩⟩
    · exact Or.inr ⟨fb, hpriv, haddr, hfix, halloc, hlong, blocks, fr', hblocks, hcount, hinv'⟩
    · exact (h.live.cons _).trans List.perm_middle.symm
    · have hcounted := h.counted.addsize _ _ hD (by omega)
      obtain ⟨h1, h2, h3, h4, h5, h6, h7⟩ := hcounted
      exact ⟨h1, h2, h3, h4, h5, h6, h7⟩

theorem HeapView.smallblkFree (h : HeapView len a₀ e s priv L free c) (hp : p ∈ s.mm.small) :
    HeapView len a₀ e ⟨s.mm.smallblkFree p, s.live.erase p⟩ priv L free c ∧
      (s.mm.smallblkFree p).small = s.mm.small.erase p ∧
      (s.mm.smallblkFree p).clamps = s.mm.clamps ∧
      ∀ w, w ≠ p → (s.mm.smallblkFree p).mem w = s.mm.mem w := by
  -- The pool lies in one allocated block of the region, and `p` in the pool.
  obtain ⟨-, hne, fb, hfb, hin, hlow, hhigh⟩ := h.fixed hp
  have hfbL : fb ∈ priv ++ L := List.mem_append_left _ hfb
  obtain ⟨as, hperm, hhas⟩ := h.has
  obtain ⟨hfix, halloc, hlong, blocks, fr, hblocks, hcount, hinv⟩ := hin
  have hinv' := free_mblkInv hinv hblocks hp
  have hlen := hinv.all.length_eq
  have hfew := hblocks.few
  have hsmallpos : 0 < s.mm.small.length := List.length_pos_of_mem hp
  rw [List.length_append] at hlen
  have havail : s.mm.pool.blkAvail = fr.length := hinv.avail
  have hnext : (s.mm.pool.blkAvail + 1) % 2 ^ 32 = s.mm.pool.blkAvail + 1 :=
    Nat.mod_eq_of_lt (by
      dsimp only at hlen
      omega)
  have hfree : (Mblk.free ⟨s.mm.pool, s.mm.mem, s.mm.small⟩ p).2 =
      { pool := { s.mm.pool with
          availList := p
          blkAvail := s.mm.pool.blkAvail + 1 }
        mem := Function.update s.mm.mem p s.mm.pool.availList
        allocated := s.mm.small.erase p } := by
    have hvalid : s.mm.pool.valid = true := hinv.valid
    unfold Mblk.free
    dsimp only
    rw [if_neg hne, hvalid, if_neg Bool.noConfusion, hnext]
  -- One word is written, the first of the freed block.
  have heq : s.mm.smallblkFree p =
      { s.mm with
        pool := { s.mm.pool with
          availList := p
          blkAvail := s.mm.pool.blkAvail + 1 }
        mem := Function.update s.mm.mem p s.mm.pool.availList
        small := s.mm.small.erase p }.removesize defFixBlkSize := by
    unfold Mm.smallblkFree
    dsimp only
    rw [hfree]
  rw [hfree] at hinv'
  have hmem : ∀ w, w ≠ p → Function.update s.mm.mem p s.mm.pool.availList w = s.mm.mem w :=
    fun w hw => Function.update_of_ne hw _ _
  rw [heq]
  refine ⟨⟨⟨as, hperm, hhas.write (fun w hw => hmem w ?_) rfl rfl rfl⟩, ?_, ?_, ?_, h.whole,
      h.info.congr rfl fun w _ hw => hmem w ?_⟩, rfl,
    removesize_clamps h.lt_used_small, hmem⟩
  -- No header is written: they all lie outside that block.
  · rintro rfl
    exact hw ⟨fb, hperm.mem_iff.mpr hfbL, halloc, by omega, by omega⟩
  · rcases h.priv with ⟨-, -, hnone, -⟩ | ⟨fb', rfl, haddr, hin'⟩
    · rw [hnone] at hp
      cases hp
    · -- it is the same block
      have hsame : fb' = fb := by
        have h₁ := hin'.fixed.symm.trans hfix
        have hfb' : fb' ∈ [⟨a₀, kMmRegionInfoSize, false⟩, fb'] ++ L :=
          List.mem_append_left _ (List.mem_cons_of_mem _ List.mem_cons_self)
        rcases h.apart hfb' hfbL with heq | hapart
        · exact heq
        · unfold Blk.Apart Blk.Before at hapart
          omega
      subst hsame
      exact Or.inr ⟨fb', rfl, haddr, hfix, halloc, hlong, blocks, p :: fr, hblocks, hcount, hinv'⟩
  · have hlive : s.live.Perm (p :: (L.map Blk.ptr ++ s.mm.small.erase p)) :=
      h.live.trans (((List.perm_cons_erase hp).append_left _).trans List.perm_middle)
    have herase := hlive.erase p
    rw [List.erase_cons_head] at herase
    exact herase
  -- One small block more is free, and 32 bytes less are in use.
  · have hcounted := h.counted.removesize h.lt_used_small
    obtain ⟨h1, h2, h3, h4, h5, h6, h7⟩ := hcounted
    have hD : free + 32 * (s.mm.pool.blkAvail + 1)
        = free + 32 * s.mm.pool.blkAvail + defFixBlkSize := by
      unfold defFixBlkSize
      omega
    change HeapCounted len _ (free + 32 * (s.mm.pool.blkAvail + 1)) c
    rw [hD]
    exact ⟨h1, h2, h3, h4, h5, h6, h7⟩
  · have hp' := h.live_behind (h.live.mem_iff.mpr (List.mem_append_right _ hp))
    omega

/-! ## Writes -/

/-- An owner writes to its block. -/
theorem HeapView.write (h : HeapView len a₀ e s priv L free c) (hp : p ∈ s.live) {m : Nat → Nat}
    (hm : ∀ w, w < p ∨ p + s.mm.extent p ≤ w → m w = s.mm.mem w) :
    HeapView len a₀ e ⟨{ s.mm with mem := m }, s.live⟩ priv L free c := by
  obtain ⟨as, hperm, hhas⟩ := h.has
  obtain ⟨x, hx, hlow, hhigh, hcases⟩ := h.owned hp
  have hbounds := h.bounds hx
  refine ⟨⟨as, hperm, hhas.write (fun w hw => hm w ?_) rfl rfl rfl⟩, ?_, h.live, ?_, h.whole,
    h.info.congr rfl fun w hw hw' => hm w ?_⟩
  · by_contra hin
    exact hw ⟨x, hperm.mem_iff.mpr hx, hbounds.1, by omega, by omega⟩
  · rcases hcases with ⟨hxL, rfl⟩ | ⟨hxpriv, hsmall⟩
    · -- a block of the region is apart from those that are not handed out
      refine h.priv.congr rfl rfl rfl ?_
      rintro w ⟨y, hy, -, hw, hw'⟩
      have hapart := (List.pairwise_append.mp h.pairwise).2.2 y hy x hxL
      refine hm w ?_
      unfold Blk.Apart Blk.Before at hapart
      omega
    · rcases h.priv with ⟨-, -, hnone, -⟩ | ⟨fb, rfl, haddr, hin⟩
      · rw [hnone] at hsmall
        cases hsmall
      · obtain ⟨hfix, halloc, hlong, blocks, fr, hblocks, hcount, hinv⟩ := hin
        refine Or.inr ⟨fb, rfl, haddr, hfix, halloc, hlong, blocks, fr, hblocks, hcount, ?_⟩
        refine ⟨hinv.valid, hinv.size, hinv.whole, hinv.leads.congr fun b hb => hm b ?_, hinv.avail,
          hinv.all⟩
        have hapart := (hinv.apart hblocks hb hsmall).2
        rw [h.extent_of_small hsmall]
        unfold defFixBlkSize at hapart
        omega
  · obtain ⟨h1, h2, h3, h4, h5, h6, h7⟩ := h.counted
    exact ⟨h1, h2, h3, h4, h5, h6, h7⟩
  · have hp' := h.live_behind hp
    omega

end View

end Rhino

end Wujian100
