import Wujian100.Theory.Rhino.MmView

/-!
# What the Users of the Heap Get

`k_mm_alloc`, `k_mm_free` and `k_mm_realloc` with both kinds of blocks: what a user gets is long
enough, lies in the region and overlaps nothing that another one has, and nobody else's block is
touched. A block that moves takes its contents along.

## Main definitions

* `HeapOk`: A heap that its users can rely on.
* `NewBlock`: A block that was handed out.
* `FreeAt`: Where one may be cut off.

## Theorems

* `HeapView.live_apart`: The blocks of the users.
* `HeapView.alloc`, `HeapView.free`, `HeapView.realloc`: The calls.
-/

namespace Wujian100

namespace Rhino

/-- A heap of `len` bytes that its users can rely on. -/
def HeapOk (len a₀ e : Nat) (priv : List Blk) (s : MmSys) (c : Bool) : Prop :=
  ∃ L free, HeapView len a₀ e s priv L free c

/-- A block of at least `size` bytes was handed out, and the blocks `others` are as they were. -/
structure NewBlock (a₀ e : Nat) (s t : Mm) (others : List Nat) (ptr size : Nat) : Prop where
  ne : ptr ≠ 0
  long : size ≤ t.extent ptr
  inside : a₀ ≤ ptr ∧ ptr + t.extent ptr ≤ e
  apart : ∀ q ∈ others, ptr + t.extent ptr ≤ q ∨ q + t.extent q ≤ ptr
  same : ∀ q ∈ others, SameBlock s t q

/-- A free block of the region starts at `ptr` and is long enough, or it is the small block that is
    handed out next. -/
def FreeAt (a₀ e : Nat) (s : Mm) (ptr n : Nat) : Prop :=
  (∃ bs, Rep a₀ e [] s bs ∧ ∃ f ∈ bs, f.free = true ∧ ptr = f.ptr ∧ n ≤ f.size) ∨
    s.pool.blkAvail > 0 ∧ ptr = s.pool.availList ∧ n = defFixBlkSize

section Users

variable {len a₀ e left size p q old : Nat} {c : Bool} {s : MmSys} {t u : Mm}
  {priv L L' : List Blk} {x : Blk}

theorem SameBlock.refl (s : Mm) (q : Nat) : SameBlock s s q := ⟨rfl, fun _ _ _ => rfl⟩

theorem SameBlock.trans {s t u : Mm} (h : SameBlock s t q) (h' : SameBlock t u q) :
    SameBlock s u q := by
  refine ⟨h'.1.trans h.1, fun w hw hw' => ?_⟩
  rw [h'.2 w hw (by rw [h.1]; exact hw'), h.2 w hw hw']

/-- The order of the users does not matter. -/
theorem HeapView.perm (h : HeapView len a₀ e s priv L left c) {live : List Nat}
    (hperm : live.Perm s.live) : HeapView len a₀ e ⟨s.mm, live⟩ priv L left c :=
  ⟨h.has, h.priv, hperm.trans h.live, h.counted, h.whole, h.info⟩

/-- What a user has is in the region, and it is not nothing. -/
theorem HeapView.live_bounds (h : HeapView len a₀ e s priv L left c) (hp : p ∈ s.live) :
    0 < p ∧ a₀ ≤ p ∧ p + s.mm.extent p ≤ e ∧ 0 < s.mm.extent p := by
  obtain ⟨x, hx, hlow, hhigh, hcases⟩ := h.owned hp
  obtain ⟨-, hshape, hpos, hx1, hx2⟩ := h.bounds hx
  have hlong := hshape.1
  refine ⟨by omega, by omega, by omega, ?_⟩
  rcases hcases with ⟨hxL, rfl⟩ | ⟨-, hsmall⟩
  · rw [h.extent_of_mem hxL]
    omega
  · rw [h.extent_of_small hsmall]
    exact Nat.succ_pos 31

/-- No two users have a byte in common. -/
theorem HeapView.live_apart (h : HeapView len a₀ e s priv L left c) :
    s.live.Pairwise fun p q => p + s.mm.extent p ≤ q ∨ q + s.mm.extent q ≤ p := by
  refine (h.live.pairwise_iff fun hpq => hpq.symm).mpr (List.pairwise_append.mpr ⟨?_, ?_, ?_⟩)
  · -- blocks of the region
    rw [List.pairwise_map]
    have hL := (List.pairwise_append.mp h.pairwise).2.1
    refine hL.imp_of_mem fun {x y} hx hy hxy => ?_
    rw [h.extent_of_mem hx, h.extent_of_mem hy]
    unfold Blk.Apart Blk.Before at hxy
    unfold Blk.ptr
    omega
  · -- small blocks
    rcases h.priv with ⟨-, -, hnone, -⟩ | ⟨fb, -, -, hin⟩
    · rw [hnone]
      exact List.Pairwise.nil
    · refine hin.apart.imp_of_mem fun {p q} hp hq hpq => ?_
      rw [h.extent_of_small hp, h.extent_of_small hq]
      exact hpq
  · intro p hp q hq
    obtain ⟨x, hx, rfl⟩ := List.mem_map.mp hp
    obtain ⟨-, -, fb, hfb, -, hlow, hhigh⟩ := h.fixed hq
    have hapart := (List.pairwise_append.mp h.pairwise).2.2 fb hfb x hx
    rw [h.extent_of_mem hx, h.extent_of_small hq]
    unfold Blk.Apart Blk.Before at hapart
    unfold Blk.ptr
    omega

/-- No block is handed out twice. -/
theorem HeapView.not_mem_erase (h : HeapView len a₀ e s priv L left c) (hp : p ∈ s.live) :
    p ∉ s.live.erase p := by
  intro hp'
  have hapart := (h.perm (List.perm_cons_erase hp).symm).live_apart
  have hself := (List.pairwise_cons.mp hapart).1 p hp'
  have hext := (h.live_bounds hp).2.2.2
  dsimp only at hself
  omega

/-- What becomes of a block that is handed out, if the others are as they were. -/
theorem HeapView.newBlock {live : List Nat} (h : HeapView len a₀ e ⟨t, p :: live⟩ priv L left c)
    (hlong : size ≤ t.extent p) (hsame : ∀ q ∈ live, SameBlock s.mm t q) :
    NewBlock a₀ e s.mm t live p size := by
  obtain ⟨hpos, hlow, hhigh, -⟩ := h.live_bounds List.mem_cons_self
  have hapart := (List.pairwise_cons.mp h.live_apart).1
  exact ⟨Nat.ne_of_gt hpos, hlong, ⟨hlow, hhigh⟩, hapart, hsame⟩

/-! ## `k_mm_alloc` -/

/-- Nothing, or a block more. -/
theorem HeapView.alloc (h : HeapView len a₀ e s priv L left c) (hsize : size ≤ sizeLimit) :
    s.mm.alloc size = (0, s.mm) ∨
      ∃ p t L' free' c', s.mm.alloc size = (p, t) ∧ size ≤ t.extent p ∧ (c = true → c' = true) ∧
        HeapView len a₀ e ⟨t, p :: s.live⟩ priv L' free' c' ∧ (∀ x ∈ L, x ∈ L') ∧
        (∀ q ∈ s.mm.small, q ∈ t.small) ∧ ∀ q ∈ s.live, SameBlock s.mm t q := by
  -- a block of the region
  have htlsf : s.mm.alloc size = s.mm.tlsfAlloc size → s.mm.alloc size = (0, s.mm) ∨
      ∃ p t L' free' c', s.mm.alloc size = (p, t) ∧ size ≤ t.extent p ∧ (c = true → c' = true) ∧
        HeapView len a₀ e ⟨t, p :: s.live⟩ priv L' free' c' ∧ (∀ x ∈ L, x ∈ L') ∧
        (∀ q ∈ s.mm.small, q ∈ t.small) ∧ ∀ q ∈ s.live, SameBlock s.mm t q := by
    intro heq
    rw [heq]
    rcases h.tlsfAlloc hsize with hnone | ⟨x, t, free', c', ht, hle, -, hcc, -, -, h', hmem⟩
    · exact Or.inl hnone
    · have hle' := (allocSize_spec hsize).1
      have hsmall : ∀ q ∈ s.mm.small, q ∈ t.small := by
        intro q hq
        obtain ⟨as, hperm, hhas⟩ := h.has
        rcases hhas.tlsfAlloc hsize with hnone | ⟨x', as', t', ht', -, -, -, -, honly, -⟩
        · rw [ht] at hnone
          exact absurd (Prod.mk.inj hnone).1 (Nat.succ_ne_zero _)
        · rw [ht] at ht'
          rw [(Prod.mk.inj ht').2, honly.small]
          exact hq
      refine Or.inr ⟨x.ptr, t, x :: L, free', c', ht, ?_, hcc, h',
        fun y hy => List.mem_cons_of_mem x hy, hsmall, fun q hq => ?_⟩
      · rw [h'.extent_of_mem List.mem_cons_self]
        exact hle'.trans hle
      · exact h.sameBlock h' hq
          (fun y hy _ => ⟨List.mem_cons_of_mem x hy, hmem y (List.mem_append_right _ hy)⟩)
          fun hq => ⟨hsmall q hq, fun y hy => hmem y (List.mem_append_left _ hy)⟩
  by_cases hzero : size = 0
  · left
    unfold Mm.alloc
    rw [if_pos hzero]
  by_cases hpool : s.mm.fixedmblk ≠ 0 ∧ size ≤ defFixBlkSize ∧ s.mm.pool.blkAvail > 0
  · obtain ⟨p, t, c', ht, -, hmem, hsmall, hcc, -, -, h'⟩ := h.smallblkAlloc hpool.1 hpool.2.2
    have hp : p ∈ t.small := hsmall ▸ List.mem_cons_self
    have hne : p ≠ 0 := (h'.fixed hp).2.1
    refine Or.inr ⟨p, t, L, left, c', ?_, ?_, hcc, h', fun x hx => hx, fun q hq => ?_,
      fun q hq => ?_⟩
    · unfold Mm.alloc
      rw [if_neg hzero, if_pos hpool, ht]
      exact if_pos hne
    · rw [h'.extent_of_small hp]
      exact hpool.2.1
    · rw [hsmall]
      exact List.mem_cons_of_mem p hq
    · refine h.sameBlock h' hq (fun y hy _ => ⟨hy, fun w _ _ => congrFun hmem w⟩)
        fun hq => ⟨?_, fun y _ w _ _ => congrFun hmem w⟩
      change q ∈ t.small
      rw [hsmall]
      exact List.mem_cons_of_mem p hq
  · refine htlsf ?_
    unfold Mm.alloc
    rw [if_neg hzero, if_neg hpool]

/-- What is handed out was free. -/
theorem HeapView.alloc_freeAt (h : HeapView len a₀ e s priv L left c) (hsize : size ≤ sizeLimit)
    (ht : s.mm.alloc size = (p, t)) (hne : p ≠ 0) : FreeAt a₀ e s.mm p (t.extent p) := by
  have hzero : size ≠ 0 := by
    rintro rfl
    have hnone : s.mm.alloc 0 = (0, s.mm) := if_pos rfl
    rw [hnone] at ht
    exact hne (Prod.mk.inj ht).1.symm
  -- The allocation takes from the pool, or from a free block of the region.
  by_cases hpool : s.mm.fixedmblk ≠ 0 ∧ size ≤ defFixBlkSize ∧ s.mm.pool.blkAvail > 0
  · -- the first of the small blocks
    obtain ⟨q, u, c', hu, hfirst, -, hsmall, -, -, -, h'⟩ := h.smallblkAlloc hpool.1 hpool.2.2
    have hq : q ∈ u.small := hsmall ▸ List.mem_cons_self
    have heq : s.mm.alloc size = (q, u) := by
      unfold Mm.alloc
      rw [if_neg hzero, if_pos hpool, hu]
      exact if_pos (h'.fixed hq).2.1
    rw [heq] at ht
    obtain ⟨rfl, rfl⟩ := Prod.mk.inj ht
    exact Or.inr ⟨hpool.2.2, hfirst, h'.extent_of_small hq⟩
  · have heq : s.mm.alloc size = s.mm.tlsfAlloc size := by
      unfold Mm.alloc
      rw [if_neg hzero, if_neg hpool]
    rw [heq] at ht
    obtain ⟨as, -, bs, hrep, -, -⟩ := h.has
    rcases hrep.tlsfAlloc hsize with hnone | ⟨f, hf, hfree, hspec⟩
    · rw [hnone] at ht
      exact absurd (Prod.mk.inj ht).1.symm hne
    · rw [List.nil_append] at hf
      obtain ⟨pre, post, rfl⟩ := List.append_of_mem hf
      obtain ⟨n, rest, u, hu, -, -, hle, hrep', -⟩ := hspec pre post rfl
      rw [hu] at ht
      obtain ⟨rfl, rfl⟩ := Prod.mk.inj ht
      refine Or.inl ⟨_, hrep, f, hf, hfree, rfl, ?_⟩
      rcases h.tlsfAlloc hsize with hnone | ⟨x, u', left', c', hu', -, -, -, -, -, h', -⟩
      · rw [hu] at hnone
        exact absurd (Prod.mk.inj hnone).1 (Nat.succ_ne_zero _)
      · -- both are the block at this address, and its header tells one size
        rw [hu] at hu'
        obtain ⟨hptr, rfl⟩ := Prod.mk.inj hu'
        have hx : x.addr = f.addr := Nat.add_right_cancel hptr.symm
        have hhas : HeapHas a₀ e [] u (allocs (pre ++ ⟨f.addr, n, false⟩ :: rest)) _ :=
          ⟨_, hrep', rfl, rfl⟩
        have hn := hhas.blksize_eq (x := ⟨f.addr, n, false⟩)
          (mem_allocs.mpr ⟨List.mem_append_right _ List.mem_cons_self, rfl⟩)
        have hsz := h'.blksize_eq (x := x) (List.mem_append_right _ List.mem_cons_self)
        have hsame : x.size = n := by
          rw [← hsz, hx]
          exact hn
        rw [hptr, h'.extent_of_mem List.mem_cons_self, hsame]
        exact hle

/-! ## `k_mm_free` -/

/-- A block less. -/
theorem HeapView.free (h : HeapView len a₀ e s priv L left c) (hp : p ∈ s.live) :
    (∃ L' free', HeapView len a₀ e ⟨s.mm.free p, s.live.erase p⟩ priv L' free' c) ∧
      ∀ q ∈ s.live.erase p, SameBlock s.mm (s.mm.free p) q := by
  have hpos := (h.live_bounds hp).1
  -- no other user has the same block
  have hother : ∀ q ∈ s.live.erase p, q ≠ p := by
    intro q hq heq
    rw [heq] at hq
    exact h.not_mem_erase hp hq
  rcases h.live_cases hp with ⟨x, hx, rfl⟩ | hsmall
  · have heq : s.mm.free x.ptr = s.mm.tlsfFree x.addr := by
      unfold Mm.free
      rw [if_neg (Nat.ne_of_gt hpos), if_neg (h.not_fixed hx)]
      rfl
    obtain ⟨h', -, hmem⟩ := h.tlsfFree hx
    rw [heq]
    refine ⟨⟨_, _, h'⟩, fun q hq => ?_⟩
    refine h.sameBlock h' (List.mem_of_mem_erase hq) (fun y hy hy' => ?_) fun hq' =>
      ⟨?_, fun y hy => hmem y (List.mem_append_left _ hy)⟩
    · have hne : y ≠ x := by
        rintro rfl
        exact hother q hq hy'
      have hy'' := (List.mem_erase_of_ne hne).mpr hy
      exact ⟨hy'', hmem y (List.mem_append_right _ hy'')⟩
    · obtain ⟨as, hperm, hhas⟩ := h.has
      obtain ⟨-, -, -, honly, -⟩ := hhas.tlsfFree (hperm.mem_iff.mpr (List.mem_append_right _ hx))
        h.short
      change q ∈ (s.mm.tlsfFree x.addr).small
      rw [honly.small]
      exact hq'
  · have hfixed := (h.fixed hsmall).1
    have heq : s.mm.free p = s.mm.smallblkFree p := by
      unfold Mm.free
      rw [if_neg (Nat.ne_of_gt hpos), if_pos hfixed]
    obtain ⟨h', hlist, -, hmem⟩ := h.smallblkFree hsmall
    rw [heq]
    refine ⟨⟨_, _, h'⟩, fun q hq => ?_⟩
    have hqlive := List.mem_of_mem_erase hq
    -- the word that is written is in the block that is given back
    have hapart := (List.pairwise_cons.mp (h.perm (List.perm_cons_erase hp).symm).live_apart).1 q hq
    have hext := h.extent_of_small hsmall
    dsimp only at hapart
    rw [hext] at hapart
    refine ⟨?_, fun w hw hw' => hmem w (by omega)⟩
    rcases h.live_cases hqlive with ⟨y, hy, rfl⟩ | hqsmall
    · rw [h.extent_of_mem hy]
      exact h'.extent_of_mem hy
    · have hq' : q ∈ (s.mm.smallblkFree p).small := by
        rw [hlist]
        exact (List.mem_erase_of_ne (hother q hq)).mpr hqsmall
      rw [h.extent_of_small hqsmall]
      exact h'.extent_of_small hq'

/-! ## `k_mm_realloc` -/

/-- A block that moves: its contents are copied, and the old place is given back. -/
theorem HeapView.moved {left' n : Nat} {c' : Bool} (hold : old ∈ s.live)
    (h' : HeapView len a₀ e ⟨t, p :: s.live⟩ priv L' left' c') (hsame : ∀ q ∈ s.live, SameBlock s.mm t q)
    (hsize : size ≤ t.extent p) (hn : n ≤ t.extent p)
    (hn' : n ≤ s.mm.extent old) :
    HeapOk len a₀ e priv ⟨(t.memcpy p old n).free old, p :: s.live.erase old⟩ c' ∧
      NewBlock a₀ e s.mm ((t.memcpy p old n).free old) (s.live.erase old) p size ∧
      ((t.memcpy p old n).free old).extent p = t.extent p ∧
      ∀ i < n, ((t.memcpy p old n).free old).mem (p + i) = s.mm.mem (old + i) := by
  have hcopy : ∀ w, w < p ∨ p + t.extent p ≤ w → (t.memcpy p old n).mem w = t.mem w :=
    fun w hw => blit_of_not (by omega)
  have hw : HeapView len a₀ e ⟨t.memcpy p old n, p :: s.live⟩ priv L' left' c' :=
    h'.write List.mem_cons_self hcopy
  have hapart := List.pairwise_cons.mp h'.live_apart
  -- the two places are not the same
  have hne : ¬(p == old) = true := by
    intro heq
    have hpo := hapart.1 old hold
    have hext := (h'.live_bounds List.mem_cons_self).2.2.2
    rw [eq_of_beq heq] at hpo hext
    dsimp only at hpo hext
    omega
  obtain ⟨⟨L'', left'', hfree⟩, hkeep⟩ := hw.free (p := old) (List.mem_cons_of_mem p hold)
  dsimp only at hfree hkeep
  rw [List.erase_cons_tail hne] at hfree hkeep
  have hp := hkeep p List.mem_cons_self
  have hext : (t.memcpy p old n).extent p = t.extent p :=
    h'.extent_eq hw List.mem_cons_self (fun x hx _ => hx) id
  refine ⟨⟨L'', left'', hfree⟩, hfree.newBlock ?_ fun q hq => ?_, hp.1.trans hext, fun i hi => ?_⟩
  · rw [hp.1, hext]
    exact hsize
  · have hqlive := List.mem_of_mem_erase hq
    have hcopied : SameBlock t (t.memcpy p old n) q := by
      refine ⟨h'.extent_eq hw (List.mem_cons_of_mem p hqlive) (fun x hx _ => hx) id,
        fun w hw hw' => hcopy w ?_⟩
      have hpq := hapart.1 q hqlive
      dsimp only at hpq
      omega
    exact ((hsame q hqlive).trans hcopied).trans (hkeep q (List.mem_cons_of_mem p hq))
  · have hread : (t.memcpy p old n).mem (p + i) = t.mem (old + (p + i - p)) :=
      blit_of_mem (by omega) (by omega)
    rw [hp.2 (p + i) (by omega) (by omega), hread, Nat.add_sub_cancel_left,
      (hsame old hold).2 (old + i) (by omega) (by omega)]

/-- A block of the region is none of the small ones. -/
theorem HeapView.realloc_eq (h : HeapView len a₀ e s priv L left c) (hx : x ∈ L)
    (hpos : size ≠ 0) : s.mm.realloc x.ptr size = s.mm.tlsfRealloc (x.addr + 8) size := by
  have hne : x.ptr ≠ 0 := Nat.succ_ne_zero _
  unfold Mm.realloc
  rw [if_neg hne, if_neg hpos, if_neg (h.not_fixed hx)]
  rfl

/-- Nothing, or a block that holds what the old one held. -/
theorem HeapView.realloc (h : HeapView len a₀ e s priv L left c) (hold : old ∈ s.live)
    (hpos : size ≠ 0) (hsize : size ≤ sizeLimit) :
    s.mm.realloc old size = (0, s.mm) ∨
      ∃ p t c', s.mm.realloc old size = (p, t) ∧ (c = true → c' = true) ∧
        HeapOk len a₀ e priv ⟨t, p :: s.live.erase old⟩ c' ∧
        NewBlock a₀ e s.mm t (s.live.erase old) p size ∧
        (p = old ∨ FreeAt a₀ e s.mm p (t.extent p)) ∧
        ∀ i < min (s.mm.extent old) size, t.mem (p + i) = s.mm.mem (old + i) := by
  have holdpos := (h.live_bounds hold).1
  have hperm := (List.perm_cons_erase hold).symm
  -- no other user has the same block
  have hother : ∀ q ∈ s.live.erase old, q ≠ old := by
    intro q hq heq
    rw [heq] at hq
    exact h.not_mem_erase hold hq
  rcases h.live_cases hold with ⟨x, hx, rfl⟩ | hsmall
  · have hext := h.extent_of_mem hx
    rw [h.realloc_eq hx hpos, hext]
    obtain ⟨as, hperm', hhas⟩ := h.has
    rcases hhas.tlsfRealloc (hperm'.mem_iff.mpr (List.mem_append_right _ hx)) hsize h.short with
      ⟨-, t, n, ht, hn, -, hres⟩ | ⟨-, hshort, hmove⟩
    · -- in its place
      obtain ⟨left', c', hcc, -, -, h', hmem, hdata, hsm⟩ := h.resized hperm' hx hres
      have h'' := h'.perm hperm
      refine Or.inr ⟨x.ptr, t, c', ht, hcc, ⟨_, _, h''⟩, h''.newBlock ?_ fun q hq => ?_, Or.inl rfl,
        fun i hi => hdata _ (Nat.le_add_right _ _) ?_⟩
      · have hext' := h'.extent_of_mem (x := ⟨x.addr, n, false⟩) List.mem_cons_self
        change t.extent x.ptr = n at hext'
        rw [hext']
        exact (reallocSize_spec hsize).1.trans hn
      · refine h.sameBlock h' (List.mem_of_mem_erase hq) (fun y hy hy' => ?_) fun hq' =>
          ⟨?_, fun y hy => hmem y (List.mem_append_left _ hy)⟩
        · have hne : y ≠ x := by
            rintro rfl
            exact hother q hq hy'
          have hy'' := (List.mem_erase_of_ne hne).mpr hy
          exact ⟨List.mem_cons_of_mem _ hy'', hmem y (List.mem_append_right _ hy'')⟩
        · change q ∈ t.small
          rw [hsm]
          exact hq'
      · unfold Blk.ptr
        omega
    · -- elsewhere
      obtain ⟨-, hfits, -⟩ := reallocSize_spec hsize
      rw [hmove]
      unfold Mm.moveBlk
      rcases h.alloc hfits with hnone | ⟨p, t, L', left', c', ht, hle, hcc, h', hL, hsm, hsame⟩
      · rw [hnone]
        exact Or.inl rfl
      · have hp := (h'.live_bounds List.mem_cons_self).1
        have hwas := h.alloc_freeAt hfits ht (Nat.ne_of_gt hp)
        have hblk : blksize (t.size x.addr) = x.size :=
          h'.blksize_eq (List.mem_append_right _ (hL x hx))
        rw [ht]
        dsimp only
        rw [if_neg (Nat.ne_of_gt hp), hblk, if_neg (by omega)]
        have hsz := (reallocSize_spec hsize).1
        obtain ⟨hok, hnew, hext', hdata⟩ := h'.moved hold hsame (hsz.trans hle) (n := x.size)
          (by omega) (by omega)
        rw [← hext'] at hwas
        exact Or.inr ⟨p, _, c', rfl, hcc, hok, hnew, Or.inr hwas, fun i hi => hdata i (by omega)⟩
  · obtain ⟨hfixed, -⟩ := h.fixed hsmall
    have hext := h.extent_of_small hsmall
    unfold Mm.realloc Mm.smallblkRealloc
    rw [if_neg (Nat.ne_of_gt holdpos), if_neg hpos, if_pos hfixed, hext]
    by_cases hfits : size ≤ defFixBlkSize
    · rw [if_pos hfits]
      have h' := h.perm hperm
      refine Or.inr ⟨old, s.mm, c, rfl, id, ⟨_, _, h'⟩,
        h'.newBlock (by rw [hext]; exact hfits) fun q _ => SameBlock.refl _ q, Or.inl rfl,
        fun i _ => rfl⟩
    · rw [if_neg hfits]
      rcases h.alloc hsize with hnone | ⟨p, t, L', left', c', ht, hle, hcc, h', hL, hsm, hsame⟩
      · rw [hnone]
        exact Or.inl rfl
      · have hp := (h'.live_bounds List.mem_cons_self).1
        have hwas := h.alloc_freeAt hsize ht (Nat.ne_of_gt hp)
        unfold defFixBlkSize at hfits ⊢
        rw [ht]
        dsimp only
        rw [if_pos (Nat.ne_of_gt hp)]
        obtain ⟨hok, hnew, hext', hdata⟩ := h'.moved hold hsame hle (n := 32) (by omega) (by omega)
        rw [← hext'] at hwas
        -- the old block is given back as a small one
        have hlong : 32 ≤ t.extent p := by omega
        have hw : HeapView len a₀ e ⟨t.memcpy p old 32, p :: s.live⟩ priv L' left' c' := by
          refine h'.write List.mem_cons_self fun w hw => blit_of_not ?_
          dsimp only at hw
          omega
        have hfree : (t.memcpy p old 32).free old = (t.memcpy p old 32).smallblkFree old := by
          unfold Mm.free
          rw [if_neg (Nat.ne_of_gt holdpos), if_pos (hw.fixed (hsm old hsmall)).1]
        rw [hfree] at hok hnew hwas hdata
        exact Or.inr ⟨p, _, c', rfl, hcc, hok, hnew, Or.inr hwas, fun i hi => hdata i (by omega)⟩

end Users

end Rhino

end Wujian100
