import Wujian100.Theory.Rhino.MmRuns

/-!
# Sizes That Wrap Around

`k_mm_alloc` rounds a size up to a multiple of four, and `bitmap_search` adds what is missing to
the next class, both in numbers of 32 bits. For the largest sizes one of them wraps around: the
last three are rounded to 0, and those above `2 ^ 32 - 2 ^ 26` are searched for in the class of a
small one. A block that is found there is too short, and what is said to be left of it lies far
outside the region. `k_mm_realloc` rounds the last three to 0 as well and cuts a block down to
nothing, whose links are then written over the next header once it is free.

Where nothing is found nothing happens, and where nothing wraps around all is well.

## Main definitions

* `Mm.findsNone`, `Mm.refuses`: Where nothing is found.
* `MmSys.safe`: Calls whose sizes do no harm.
* `SafeRun`: Such calls one after another, from the beginning on.
* `Granted`, `Hands`: What is handed out.
* `Reallocated`: What becomes of a block that is resized.

## Theorems

* `HeapView.short_blocks`: No block is as long as a size that wraps around.
* `HeapView.realloc_refused`, `HeapView.realloc_granted`: What becomes of a size that wraps around.
* `HeapOk.step_safe`: A call that does no harm.
* `heap_represented`: Blocks, headers and lists in every run of such calls.
* `hands_iff`: Which sizes are served.
* `reallocated_right`: What a block keeps that is resized.
-/

namespace Wujian100

namespace Rhino

/-- Nothing is found from the class of the rounded size on. -/
def Mm.findsNone (s : Mm) (size : Nat) : Prop :=
  match bitmapSearch (allocSize size) .get with
  | (false, _, _) => True
  | (true, flt, slt) => (s.findblkByidx flt slt).1 = 0

instance (s : Mm) (size : Nat) : Decidable (s.findsNone size) := by
  unfold Mm.findsNone
  split <;> infer_instance

/-- `k_mm_realloc` finds nothing for a size that wraps around, and has not rounded it to 0
    before. -/
def Mm.refuses (s : Mm) (oldmem newSize : Nat) : Prop :=
  s.findsNone newSize ∧ (newSize ≤ 2 ^ 32 - 4 ∨ s.fixedmblk ≠ 0 ∧ s.isFixedBlk oldmem)

instance (s : Mm) (oldmem newSize : Nat) : Decidable (s.refuses oldmem newSize) :=
  inferInstanceAs (Decidable (_ ∧ _))

/-- The sizes are those of `size_t`. -/
def HeapAct.Sized : HeapAct → Prop
  | .alloc size => size < 2 ^ 32
  | .realloc _ newSize => newSize < 2 ^ 32
  | _ => True

instance : (a : HeapAct) → Decidable a.Sized
  | .alloc size => inferInstanceAs (Decidable (size < 2 ^ 32))
  | .free _ => inferInstanceAs (Decidable True)
  | .realloc _ newSize => inferInstanceAs (Decidable (newSize < 2 ^ 32))
  | .write .. => inferInstanceAs (Decidable True)

/-- No size wraps around, or no harm comes of it: nothing is found, or `k_mm_alloc` rounds it to
    0 and hands out the shortest block there is. -/
def MmSys.safe (s : MmSys) : HeapAct → Prop
  | .alloc size => size ≤ sizeLimit ∨ 2 ^ 32 - 4 < size ∨ s.mm.findsNone size
  | .realloc oldmem newSize =>
      newSize ≤ sizeLimit ∨
        if oldmem = 0 then 2 ^ 32 - 4 < newSize ∨ s.mm.findsNone newSize
        else s.mm.refuses oldmem newSize
  | _ => True

instance (s : MmSys) : (a : HeapAct) → Decidable (s.safe a)
  | .alloc _ => inferInstanceAs (Decidable (_ ∨ _))
  | .free _ => inferInstanceAs (Decidable True)
  | .realloc .. => inferInstanceAs (Decidable (_ ∨ _))
  | .write .. => inferInstanceAs (Decidable True)

/-- Calls that do no harm lead to `s` in a heap that `krhino_init_mm_head` makes of `len` bytes at
    `addr`. -/
structure SafeRun (mem : Nat → Nat) (addr len : Nat) (s₀ : Mm) (as : List HeapAct) (s : MmSys) :
    Prop where
  init : initMmHead mem addr len = some s₀
  below : addr + len ≤ 2 ^ 32
  sized : ∀ a ∈ as, a.Sized
  safe : Run.Along MmSys.step MmSys.safe ⟨s₀, []⟩ as
  run : Run.run MmSys.step ⟨s₀, []⟩ as = some s

/-! ## Searches -/

section Search

variable {s : Mm} {size size' : Nat}

/-- A large size is none for a small block. -/
theorem alloc_of_big (h : defFixBlkSize < size) : s.alloc size = s.tlsfAlloc size := by
  unfold defFixBlkSize at h
  unfold Mm.alloc defFixBlkSize
  rw [if_neg (by omega), if_neg fun hc => by omega]

/-- Only the rounded size matters. -/
theorem tlsfAlloc_congr (h : allocSize size = allocSize size') :
    s.tlsfAlloc size = s.tlsfAlloc size' := by
  rw [tlsfAlloc_eq, tlsfAlloc_eq, h]

theorem findsNone_congr (h : allocSize size = allocSize size') :
    s.findsNone size ↔ s.findsNone size' := by
  unfold Mm.findsNone
  rw [h]

theorem Mm.findsNone.tlsfAlloc (h : s.findsNone size) : s.tlsfAlloc size = (0, s) := by
  unfold Mm.findsNone at h
  rw [tlsfAlloc_eq]
  revert h
  rcases bitmapSearch (allocSize size) .get with ⟨ok, flt, slt⟩
  cases ok with
  | false => exact fun _ => rfl
  | true => exact fun h => if_pos h

theorem tlsfAlloc_ne (h : ¬s.findsNone size) : (s.tlsfAlloc size).1 ≠ 0 := by
  unfold Mm.findsNone at h
  rw [tlsfAlloc_eq]
  revert h
  rcases bitmapSearch (allocSize size) .get with ⟨ok, flt, slt⟩
  cases ok with
  | false => exact fun h => absurd trivial h
  | true =>
      intro h
      dsimp only at h ⊢
      rw [if_neg h]
      exact Nat.succ_ne_zero _

/-- The last three sizes are rounded to 0. -/
theorem mmAlignUp_wraps (h : 2 ^ 32 - 4 < size) (hlt : size < 2 ^ 32) : mmAlignUp size = 0 := by
  unfold mmAlignUp
  omega

theorem allocSize_wraps (h : 2 ^ 32 - 4 < size) (hlt : size < 2 ^ 32) :
    allocSize size = allocSize 8 := by
  unfold allocSize
  rw [mmAlignUp_wraps h hlt]
  rfl

/-- Rounding once more changes nothing. -/
theorem allocSize_alignUp (size : Nat) : allocSize (mmAlignUp size) = allocSize size := by
  have hsame : mmAlignUp (mmAlignUp size) = mmAlignUp size := by
    unfold mmAlignUp
    omega
  unfold allocSize
  rw [hsame]

end Search

section Wraps

variable {len a₀ e left size old p : Nat} {c : Bool} {s s' : MmSys} {t : Mm} {priv L : List Blk}
  {x : Blk}

/-! ## Sizes that wrap around -/

theorem alloc_refused (hbig : sizeLimit < size) (hnone : t.findsNone size) :
    t.alloc size = (0, t) := by
  have hlarge : defFixBlkSize < size := Nat.lt_trans (by decide) hbig
  rw [alloc_of_big hlarge, hnone.tlsfAlloc]

theorem alloc_granted (hbig : sizeLimit < size) (hfound : ¬t.findsNone size) :
    (t.alloc size).1 ≠ 0 := by
  have hlarge : defFixBlkSize < size := Nat.lt_trans (by decide) hbig
  rw [alloc_of_big hlarge]
  exact tlsfAlloc_ne hfound

/-- No block of the region and none behind it is as long as that. -/
theorem HeapView.short_blocks (h : HeapView len a₀ e s priv L left c) (hx : x ∈ L) :
    ∃ pre post, Rep a₀ e [] s.mm (pre ++ x :: post) ∧ x.free = false ∧
      x.size < 2 ^ 20 ∧ headSize post < 2 ^ 20 := by
  obtain ⟨as, hperm, hhas⟩ := h.has
  obtain ⟨hfree, pre, post, hrep, -, -⟩ :=
    hhas.split (hperm.mem_iff.mpr (List.mem_append_right _ hx))
  have hbound := hrep.chain.mem_le
  have hshort := h.short
  unfold maxMmBit at hshort
  refine ⟨pre, post, hrep, hfree, ?_, ?_⟩
  · have hx' := hbound x (List.mem_append_right pre List.mem_cons_self)
    omega
  · cases post with
    | nil => exact Nat.two_pow_pos _
    | cons y post =>
        have hy := hbound y (List.mem_append_right pre (List.mem_cons_of_mem x List.mem_cons_self))
        change y.size < 2 ^ 20
        omega

/-- Where such a block is to go, or that it is cut down to nothing. -/
theorem HeapView.realloc_big (h : HeapView len a₀ e s priv L left c) (hx : x ∈ L)
    (hbig : sizeLimit < size) (hlt : size < 2 ^ 32) :
    s.mm.realloc x.ptr size =
      if size ≤ 2 ^ 32 - 4 then s.mm.moveBlk x.addr x.ptr (mmAlignUp size)
      else (x.ptr, s.mm.shrinkBlk x.addr 0) := by
  obtain ⟨pre, post, hrep, hfree, hx', hpost⟩ := h.short_blocks hx
  unfold sizeLimit at hbig
  have hsize : reallocSize size = mmAlignUp size := by
    unfold reallocSize kMmListSize
    exact if_neg (by omega)
  rw [h.realloc_eq hx (by omega), hrep.tlsfRealloc_eq hfree, hsize]
  by_cases hround : size ≤ 2 ^ 32 - 4
  · have hle : size ≤ mmAlignUp size := by
      unfold mmAlignUp
      omega
    rw [if_pos hround, if_neg (by omega), if_neg fun hc => by omega]
    rfl
  · rw [if_neg hround, mmAlignUp_wraps (by omega) hlt, if_pos (Nat.zero_le _)]
    rfl

/-- Such a block cannot stay where it is. -/
theorem HeapView.not_staysAt (h : HeapView len a₀ e s priv L left c) (hx : x ∈ L)
    (hbig : sizeLimit < size) : ¬s.mm.staysAt x.ptr size := by
  obtain ⟨pre, post, hrep, hfree, hx', hpost⟩ := h.short_blocks hx
  unfold sizeLimit at hbig
  unfold Blk.ptr
  rw [hrep.staysAt_iff hfree]
  omega

/-- A small block is to become a large one. -/
theorem HeapView.realloc_small (h : HeapView len a₀ e s priv L left c) (hp : p ∈ s.mm.small)
    (hbig : sizeLimit < size) :
    s.mm.realloc p size =
      match s.mm.alloc size with
      | (ptrAux, s) =>
          if ptrAux ≠ 0 then (ptrAux, (s.memcpy ptrAux p defFixBlkSize).smallblkFree p)
          else (0, s) := by
  obtain ⟨hfixed, hne, -⟩ := h.fixed hp
  have hlarge : defFixBlkSize < size := Nat.lt_trans (by decide) hbig
  unfold Mm.realloc Mm.smallblkRealloc
  rw [if_neg hne, if_neg (by omega), if_pos hfixed, if_neg (Nat.not_le.mpr hlarge)]

/-- Nothing happens. -/
theorem HeapView.realloc_refused (h : HeapView len a₀ e s priv L left c) (hold : old ∈ s.live)
    (hbig : sizeLimit < size) (hlt : size < 2 ^ 32) (hrefuses : s.mm.refuses old size) :
    s.mm.realloc old size = (0, s.mm) := by
  obtain ⟨hnone, hcases⟩ := hrefuses
  rcases h.live_cases hold with ⟨x, hx, rfl⟩ | hsmall
  · have hround := hcases.resolve_right (h.not_fixed hx)
    have hle : size ≤ mmAlignUp size := by
      unfold mmAlignUp
      omega
    have hnone' := (findsNone_congr (allocSize_alignUp size)).mpr hnone
    rw [h.realloc_big hx hbig hlt, if_pos hround]
    unfold Mm.moveBlk
    rw [alloc_refused (Nat.lt_of_lt_of_le hbig hle) hnone']
    exact if_pos rfl
  · rw [h.realloc_small hsmall hbig, alloc_refused hbig hnone]
    exact if_neg (not_not.mpr rfl)

/-- Something is handed out. -/
theorem HeapView.realloc_granted (h : HeapView len a₀ e s priv L left c) (hold : old ∈ s.live)
    (hbig : sizeLimit < size) (hlt : size < 2 ^ 32) (hfound : ¬s.mm.refuses old size) :
    (s.mm.realloc old size).1 ≠ 0 := by
  rcases h.live_cases hold with ⟨x, hx, rfl⟩ | hsmall
  · rw [h.realloc_big hx hbig hlt]
    by_cases hround : size ≤ 2 ^ 32 - 4
    · have hle : size ≤ mmAlignUp size := by
        unfold mmAlignUp
        omega
      have hfound' : ¬s.mm.findsNone (mmAlignUp size) := fun hc =>
        hfound ⟨(findsNone_congr (allocSize_alignUp size)).mp hc, Or.inl hround⟩
      have hne := alloc_granted (Nat.lt_of_lt_of_le hbig hle) hfound'
      rw [if_pos hround]
      unfold Mm.moveBlk
      dsimp only
      rw [if_neg hne]
      exact hne
    · rw [if_neg hround]
      exact Nat.succ_ne_zero _
  · have hfound' : ¬s.mm.findsNone size := fun hc => hfound ⟨hc, Or.inr (h.fixed hsmall).1⟩
    have hne := alloc_granted hbig hfound'
    rw [h.realloc_small hsmall hbig]
    dsimp only
    rw [if_pos hne]
    exact hne

/-! ## Calls that do no harm -/

/-- What is rounded to 0 gets a block of eight bytes, or nothing. -/
theorem HeapView.allocRounded (h : HeapView len a₀ e s priv L left c)
    (hround : 2 ^ 32 - 4 < size) (hlt : size < 2 ^ 32)
    (hs' : s' = ⟨(s.mm.alloc size).2,
      if (s.mm.alloc size).1 = 0 then s.live else (s.mm.alloc size).1 :: s.live⟩) :
    ∃ c', HeapOk len a₀ e priv s' c' := by
  have hlarge : defFixBlkSize < size := Nat.lt_trans (by decide) hround
  have heq : s.mm.alloc size = s.mm.tlsfAlloc 8 := by
    rw [alloc_of_big hlarge, tlsfAlloc_congr (allocSize_wraps hround hlt)]
  subst hs'
  rw [heq]
  rcases h.tlsfAlloc (show 8 ≤ sizeLimit by decide) with hnone | ⟨x, t, free', c', ht, -, -, -, -, -, h', -⟩
  · rw [hnone]
    exact ⟨c, L, left, h⟩
  · rw [ht]
    exact ⟨c', x :: L, free', h'⟩

/-- A call that does no harm keeps a heap that its users can rely on. -/
theorem HeapOk.step_safe {a : HeapAct} (h : HeapOk len a₀ e priv s c) (hsized : a.Sized)
    (hsafe : s.safe a) (hstep : s.step a = some s') : ∃ c', HeapOk len a₀ e priv s' c' := by
  by_cases hfits : a.Fits
  · obtain ⟨c', -, hok, -⟩ := h.step hfits hstep
    exact ⟨c', hok⟩
  obtain ⟨L, left, h⟩ := h
  -- a call that nothing comes of
  have hsame : s' = s → ∃ c', HeapOk len a₀ e priv s' c' := fun heq => heq ▸ ⟨c, L, left, h⟩
  cases a with
  | alloc size =>
      unfold MmSys.step at hstep
      have hstep' : s' = ⟨(s.mm.alloc size).2,
          if (s.mm.alloc size).1 = 0 then s.live else (s.mm.alloc size).1 :: s.live⟩ :=
        (Option.some.inj hstep).symm
      rcases hsafe with hle | hround | hnone
      · exact absurd hle hfits
      · exact h.allocRounded hround hsized hstep'
      · rw [alloc_refused (Nat.lt_of_not_le hfits) hnone] at hstep'
        exact hsame hstep'
  | free ptr => exact absurd trivial hfits
  | realloc oldmem newSize =>
      have hbig : sizeLimit < newSize := Nat.lt_of_not_le hfits
      have hpos : newSize ≠ 0 := Nat.ne_of_gt (Nat.lt_of_le_of_lt (Nat.zero_le _) hbig)
      have hlive : oldmem = 0 ∨ oldmem ∈ s.live := by
        by_contra hc
        simp only [MmSys.step, if_neg hc, reduceCtorEq] at hstep
      simp only [MmSys.step, if_pos hlive, Option.some.injEq, if_neg hpos] at hstep
      have hsafe' := hsafe.resolve_left hfits
      by_cases hold : oldmem = 0
      · -- `k_mm_alloc`
        rw [if_pos hold] at hsafe'
        subst hold
        have hnot : 0 ∉ s.live := fun hmem => Nat.lt_irrefl 0 (h.live_bounds hmem).1
        have heq : s.mm.realloc 0 newSize = s.mm.alloc newSize := by
          unfold Mm.realloc
          rw [if_pos rfl, if_pos hpos]
        rw [List.erase_of_not_mem hnot, heq, ite_not] at hstep
        rcases hsafe' with hround | hnone
        · exact h.allocRounded hround hsized hstep.symm
        · rw [alloc_refused hbig hnone] at hstep
          exact hsame hstep.symm
      · rw [if_neg hold] at hsafe'
        rw [h.realloc_refused (hlive.resolve_left hold) hbig hsized hsafe',
          if_neg (not_not.mpr rfl)] at hstep
        exact hsame hstep.symm
  | write ptr addr value => exact absurd trivial hfits

end Wraps

/-! ## What is handed out -/

/-- A block of at least `size` bytes at `ptr`, where there was none or the one at `old`: it was
    free, it lies between `lo` and `hi`, and nobody else has any of it. -/
structure Granted (lo hi : Nat) (s : MmSys) (old size ptr : Nat) (t : Mm) : Prop where
  ne : ptr ≠ 0
  free : ptr = old ∨ FreeAt lo hi s.mm ptr (t.extent ptr)
  apart : ∀ q ∈ s.live, q ≠ old → ptr + t.extent ptr ≤ q ∨ q + s.mm.extent q ≤ ptr
  inside : lo ≤ ptr ∧ ptr + t.extent ptr ≤ hi
  long : size ≤ t.extent ptr

/-- Nothing is handed out and nothing has changed, or such a block is. -/
def Hands (lo hi : Nat) (s : MmSys) (old size : Nat) (r : Nat × Mm) : Prop :=
  r = (0, s.mm) ∨ Granted lo hi s old size r.1 r.2

/-- What becomes of the block at `p` when it is to have `n` bytes: nothing, and all blocks are as
    they were; or it is somewhere else, or still there, with what it held, and all others are as
    they were. -/
def Reallocated (s : MmSys) (p n : Nat) (s' : MmSys) : Prop :=
  (s.mm.realloc p n).1 = 0 ∧ s'.live = s.live ∧ (∀ q ∈ s.live, SameBlock s.mm s'.mm q) ∨
    ∃ p', (s.mm.realloc p n).1 = p' ∧ p' ≠ 0 ∧ p' ∈ s'.live ∧ (p' ≠ p → p ∉ s'.live) ∧
      (∀ i < min (s.mm.extent p) n, s'.mm.mem (p' + i) = s.mm.mem (p + i)) ∧
      ∀ q ∈ s.live, q ≠ p → q ∈ s'.live ∧ SameBlock s.mm s'.mm q

section Grants

variable {len a₀ e left lo hi size old p n : Nat} {c : Bool} {s s' : MmSys} {priv L : List Blk}
  {r : Nat × Mm}

/-- A region has no room for a size that wraps around. -/
theorem not_hands (hne : r.1 ≠ 0) (hbig : hi < lo + size) : ¬Hands lo hi s old size r := by
  rintro (hnone | h)
  · rw [hnone] at hne
    exact hne rfl
  · have hin := h.inside
    have hlong := h.long
    omega

theorem HeapView.hands_alloc (h : HeapView len a₀ e s priv L left c) (hsize : size ≤ sizeLimit) :
    Hands a₀ e s 0 size (s.mm.alloc size) := by
  rcases h.alloc hsize with hnone | ⟨p, t, L', left', c', ht, hle, -, h', -, -, hsame⟩
  · exact Or.inl hnone
  · have hnew := h'.newBlock hle hsame
    rw [ht]
    refine Or.inr ⟨hnew.ne, Or.inr (h.alloc_freeAt hsize ht hnew.ne), fun q hq _ => ?_,
      hnew.inside, hnew.long⟩
    rw [← (hsame q hq).1]
    exact hnew.apart q hq

theorem HeapView.hands_realloc (h : HeapView len a₀ e s priv L left c) (hold : old ∈ s.live)
    (hpos : size ≠ 0) (hsize : size ≤ sizeLimit) :
    Hands a₀ e s old size (s.mm.realloc old size) := by
  rcases h.realloc hold hpos hsize with hnone | ⟨p, t, c', ht, -, -, hnew, hfree, -⟩
  · exact Or.inl hnone
  · rw [ht]
    refine Or.inr ⟨hnew.ne, hfree, fun q hq hne => ?_, hnew.inside, hnew.long⟩
    have hq' := (List.mem_erase_of_ne hne).mpr hq
    rw [← (hnew.same q hq').1]
    exact hnew.apart q hq'

/-- The region is shorter than any size that wraps around. -/
theorem HeapView.end_lt (h : HeapView len a₀ e s priv L left c) (hbig : sizeLimit < size) :
    e < a₀ + size := by
  have hshort := h.short
  unfold maxMmBit at hshort
  unfold sizeLimit at hbig
  omega

theorem HeapView.reallocated (h : HeapView len a₀ e s priv L left c) (hold : old ∈ s.live)
    (hpos : n ≠ 0) (hsize : n ≤ sizeLimit) (hstep : s.step (.realloc old n) = some s') :
    Reallocated s old n s' := by
  have hlive : old = 0 ∨ old ∈ s.live := Or.inr hold
  simp only [MmSys.step, if_pos hlive, Option.some.injEq, if_neg hpos] at hstep
  rcases h.realloc hold hpos hsize with hnone | ⟨p, t, c', ht, -, ⟨L', left', h'⟩, hnew, -, hdata⟩
  · rw [hnone, if_neg (not_not.mpr rfl)] at hstep
    subst hstep
    refine Or.inl ⟨?_, rfl, fun q _ => SameBlock.refl _ q⟩
    rw [hnone]
  · rw [ht, if_pos hnew.ne] at hstep
    subst hstep
    refine Or.inr ⟨p, ?_, hnew.ne, List.mem_cons_self, fun hne hmem => ?_, hdata, fun q hq hne => ?_⟩
    · rw [ht]
    · rcases List.mem_cons.mp hmem with heq | hmem
      · exact hne heq.symm
      · exact h.not_mem_erase hold hmem
    · have hq' := (List.mem_erase_of_ne hne).mpr hq
      exact ⟨List.mem_cons_of_mem p hq', hnew.same q hq'⟩

end Grants

/-! ## Runs -/

section Run

variable {mem : Nat → Nat} {addr len size p n : Nat} {s₀ : Mm} {as : List HeapAct} {s s' : MmSys}

/-- Users can rely on the heap in every run of calls that do no harm. -/
theorem SafeRun.ok (h : SafeRun mem addr len s₀ as s) :
    ∃ priv c, HeapOk (heapLen addr len) (heapStart addr) (heapEnd addr len) priv s c := by
  obtain ⟨priv, left, c, h₀⟩ := initMmHead_view h.init h.below
  have hstep : ∀ s a t,
      (∃ c, HeapOk (heapLen addr len) (heapStart addr) (heapEnd addr len) priv s c) →
      s.safe a ∧ a.Sized → MmSys.step s a = some t →
      ∃ c, HeapOk (heapLen addr len) (heapStart addr) (heapEnd addr len) priv t c :=
    fun s a t ⟨c, hok⟩ ha hst => hok.step_safe ha.2 ha.1 hst
  exact ⟨priv, Run.run_inv hstep as _ _ ⟨c, [], left, h₀⟩
    (h.safe.and (Run.along_of_mem h.sized _)) h.run⟩

/-- A heap of 5 KiB, and what its users have after calls that do no harm. -/
theorem safeRun_small {as : List HeapAct} {live : List Nat} (hsized : ∀ a ∈ as, a.Sized)
    (hsafe : Run.Along MmSys.step MmSys.safe ⟨initMm (fun _ => 0) 0x20000000 5120, []⟩ as)
    (hrun : (Run.run MmSys.step ⟨initMm (fun _ => 0) 0x20000000 5120, []⟩ as).map MmSys.live
      = some live) :
    ∃ s, SafeRun (fun _ => 0) 0x20000000 5120 (initMm (fun _ => 0) 0x20000000 5120) as s ∧
      s.live = live := by
  obtain ⟨s, hs, hlive⟩ := Option.map_eq_some_iff.mp hrun
  exact ⟨s, ⟨rfl, by decide, hsized, hsafe, hs⟩, hlive⟩

/-- The region is blocks one behind the other, of which no two that are free touch; every header
    tells whether its block and the one before it are free, and where that one is; and the lists
    and the bitmaps are those of the free blocks. -/
theorem heap_represented (h : SafeRun mem addr len s₀ as s) :
    ∃ bs, Rep (heapStart addr) (heapEnd addr len) [] s.mm bs := by
  obtain ⟨priv, c, L, left, hs⟩ := h.ok
  obtain ⟨-, -, bs, hrep, -, -⟩ := hs.has
  exact ⟨bs, hrep⟩

theorem heap_represented_two :
    ∃ s : MmSys, s.live = [0x200007b8] ∧
      ∃ bs, Rep (heapStart 0x20000000) (heapEnd 0x20000000 5120) [] s.mm bs := by
  obtain ⟨s, h, hlive⟩ := @safeRun_small [.alloc 100, .alloc 0xFE000000] [0x200007b8]
    (by decide) (by decide +kernel) (by decide +kernel)
  exact ⟨s, hlive, heap_represented h⟩

/-- The next block of a chain, as its header tells it. -/
theorem Chain.next {mem : Nat → Nat} {e p a : Nat} {pf : Bool} {bs : List Blk}
    (h : Chain mem e p pf a bs) (hne : a ≠ e) :
    ∃ free rest, Chain mem e a free (a + 8 + blksize (mem (a + 4))) rest := by
  cases bs with
  | nil => exact absurd h.1 hne
  | cons b bs =>
      obtain ⟨-, hshape, -, hheader, hrest⟩ := h
      have hsize : blksize (mem (a + 4)) = b.size := by
        rw [hheader.1]
        exact blksize_tag hshape.2 b.free pf
      rw [hsize]
      exact ⟨b.free, bs, hrest⟩

/-- A second block that reaches beyond the region is none. -/
theorem not_rep_of_long {a₀ e : Nat} {s : Mm} (hfirst : blksize (s.size a₀) = 8)
    (hlast : a₀ + 16 < e) (hlong : e < a₀ + 24 + blksize (s.size (a₀ + 16))) :
    ¬∃ bs, Rep a₀ e [] s bs := by
  rintro ⟨bs, hrep⟩
  obtain ⟨free, rest, hchain⟩ := hrep.chain.next (by omega)
  have hsize : blksize (s.mem (a₀ + 4)) = 8 := hfirst
  rw [hsize] at hchain
  obtain ⟨free', rest', hchain'⟩ := hchain.next (by omega)
  have hle := hchain'.le
  have hlong' : e < a₀ + 24 + blksize (s.mem (a₀ + 8 + 8 + 4)) := hlong
  omega

/-- What is found for a size that wraps around is left with that size, and reaches beyond the
    region. -/
theorem heap_not_represented :
    ∃ s₀ s, initMmHead (fun _ => 0) 0x20000000 5120 = some s₀ ∧
      Run.run MmSys.step ⟨s₀, []⟩ [.alloc 0xFC000080] = some s ∧
      ¬∃ bs, Rep (heapStart 0x20000000) (heapEnd 0x20000000 5120) [] s.mm bs :=
  ⟨_, _, rfl, rfl, not_rep_of_long (by decide +kernel) (by decide) (by decide +kernel)⟩

/-- A request is refused and nothing changes, or it is granted, exactly where its size does not
    wrap around or nothing is found. -/
theorem hands_iff (h : SafeRun mem addr len s₀ as s) (hpos : 0 < size) (hsized : size < 2 ^ 32) :
    (Hands (heapStart addr) (heapEnd addr len) s 0 size (s.mm.alloc size) ↔
      size ≤ sizeLimit ∨ s.mm.findsNone size) ∧
    ∀ p ∈ s.live,
      (Hands (heapStart addr) (heapEnd addr len) s p size (s.mm.realloc p size) ↔
        size ≤ sizeLimit ∨ s.mm.refuses p size) := by
  obtain ⟨priv, c, L, left, hs⟩ := h.ok
  by_cases hle : size ≤ sizeLimit
  · exact ⟨iff_of_true (hs.hands_alloc hle) (Or.inl hle), fun p hp =>
      iff_of_true (hs.hands_realloc hp (Nat.ne_of_gt hpos) hle) (Or.inl hle)⟩
  · have hbig : sizeLimit < size := Nat.lt_of_not_le hle
    have hshort := hs.end_lt hbig
    refine ⟨⟨fun hh => Or.inr ?_, fun hc => Or.inl ?_⟩, fun p hp => ⟨fun hh => Or.inr ?_, fun hc =>
      Or.inl ?_⟩⟩
    · by_contra hfound
      exact not_hands (alloc_granted hbig hfound) hshort hh
    · exact alloc_refused hbig (hc.resolve_left hle)
    · by_contra hfound
      exact not_hands (hs.realloc_granted hp hbig hsized hfound) hshort hh
    · exact hs.realloc_refused hp hbig hsized (hc.resolve_left hle)

theorem hands_two :
    ∃ s : MmSys, s.live = [0x200007b8] ∧
      Hands (heapStart 0x20000000) (heapEnd 0x20000000 5120) s 0 0xFE000000
        (s.mm.alloc 0xFE000000) ∧
      Hands (heapStart 0x20000000) (heapEnd 0x20000000 5120) s 0x200007b8 200
        (s.mm.realloc 0x200007b8 200) := by
  obtain ⟨s, h, hlive⟩ := @safeRun_small [.alloc 100] [0x200007b8] (by decide) (by decide +kernel)
    (by decide +kernel)
  have hmem : 0x200007b8 ∈ s.live := hlive ▸ List.mem_cons_self
  refine ⟨s, hlive, (hands_iff h (by decide) (by decide)).1.mpr (Or.inr ?_),
    ((hands_iff h (by decide) (by decide)).2 _ hmem).mpr (Or.inl (by decide))⟩
  -- the class is none of the heap's, so that its state does not matter
  unfold Mm.findsNone
  have hclass : (bitmapSearch (allocSize 0xFE000000) .get).1 = false := by decide
  generalize bitmapSearch (allocSize 0xFE000000) .get = found at hclass
  obtain ⟨ok, flt, slt⟩ := found
  subst hclass
  trivial

/-- All memory there is gets eight bytes. -/
theorem hands_not_all :
    ¬Hands (heapStart 0x20000000) (heapEnd 0x20000000 5120)
      ⟨initMm (fun _ => 0) 0x20000000 5120, []⟩ 0 0xFFFFFFFF
      ((initMm (fun _ => 0) 0x20000000 5120).alloc 0xFFFFFFFF) :=
  not_hands (by decide +kernel) (by decide)

/-- A block that is resized keeps what it held, as far as there is room for it, and all others are
    as they were. -/
theorem reallocated_right (h : SafeRun mem addr len s₀ as s) (hp : p ∈ s.live) (hpos : 0 < n)
    (hsize : n ≤ sizeLimit) (hstep : s.step (.realloc p n) = some s') : Reallocated s p n s' := by
  obtain ⟨priv, c, L, left, hs⟩ := h.ok
  exact hs.reallocated hp (Nat.ne_of_gt hpos) hsize hstep

theorem reallocated_right_two :
    ∃ s s' : MmSys, s.live = [0x20000824, 0x200007b8] ∧
      s.step (.realloc 0x200007b8 200) = some s' ∧ Reallocated s 0x200007b8 200 s' := by
  obtain ⟨s, h, hlive⟩ := @safeRun_small [.alloc 100, .alloc 20] [0x20000824, 0x200007b8]
    (by decide) (by decide +kernel) (by decide +kernel)
  have hmem : 0x200007b8 ∈ s.live := hlive ▸ List.mem_cons_of_mem _ List.mem_cons_self
  have hstep : s.step (.realloc 0x200007b8 200) = some _ := if_pos (Or.inr hmem)
  exact ⟨s, _, hlive, hstep, reallocated_right h hmem (by decide) (by decide) hstep⟩

/-- A block that somebody else has is not as long as it was. -/
theorem not_reallocated {q : Nat} (hne : (s.mm.realloc p n).1 ≠ 0) (hq : q ∈ s.live) (hqp : q ≠ p)
    (hext : s'.mm.extent q ≠ s.mm.extent q) : ¬Reallocated s p n s' := by
  rintro (⟨hnone, -⟩ | ⟨-, -, -, -, -, -, hothers⟩)
  · exact hne hnone
  · exact hext (hothers q hq hqp).2.1

/-- A block of 100 bytes is resized to `2 ^ 32 - 1`, which leaves it none, and the block behind it is
    handed out. When it is resized once more, it moves, and its old place is free: the links that
    are written there are in the header of the other. -/
theorem reallocated_not_all :
    ∃ s₀ s s', initMmHead (fun _ => 0) 0x20000000 5120 = some s₀ ∧
      Run.run MmSys.step ⟨s₀, []⟩
        [.alloc 100, .alloc 100, .realloc 0x200007b8 0xFFFFFFFF, .alloc 92] = some s ∧
      0x200007b8 ∈ s.live ∧ s.step (.realloc 0x200007b8 50) = some s' ∧
      ¬Reallocated s 0x200007b8 50 s' := by
  have hrun : ((Run.run MmSys.step ⟨initMm (fun _ => 0) 0x20000000 5120, []⟩
      [.alloc 100, .alloc 100, .realloc 0x200007b8 0xFFFFFFFF, .alloc 92]).bind fun s =>
        (s.step (.realloc 0x200007b8 50)).map fun s' =>
          (s.live, (s.mm.realloc 0x200007b8 50).1, s.mm.extent 0x200007c0, s'.mm.extent 0x200007c0))
      = some ([0x200007c0, 0x200007b8, 0x20000824], 0x20000890, 92, 0) := by decide +kernel
  obtain ⟨s, hs, hrest⟩ := Option.bind_eq_some_iff.mp hrun
  obtain ⟨s', hs', heq⟩ := Option.map_eq_some_iff.mp hrest
  simp only [Prod.mk.injEq] at heq
  obtain ⟨hlive, hptr, hext, hext'⟩ := heq
  refine ⟨_, s, s', rfl, hs, ?_, hs', not_reallocated (q := 0x200007c0) ?_ ?_ (by decide) ?_⟩
  · rw [hlive]
    decide
  · rw [hptr]
    decide
  · rw [hlive]
    decide
  · rw [hext, hext']
    decide

end Run

end Rhino

end Wujian100
