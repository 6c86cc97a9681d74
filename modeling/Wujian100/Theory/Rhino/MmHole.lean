import Wujian100.Theory.Rhino.MmChain

/-!
# A Block That Changes

While a call works on a block, the blocks before it and the blocks behind it are as they should
be, and the memory between them is a hole: its first header may say anything that fits the block
before it, its buffer anything from some byte on. A free neighbour can be made part of the hole,
free blocks can be cut off it, and at the end it is filled with blocks.

## Main definitions

* `Kept`: The memory that a call leaves alone.
* `Hole`: A heap with a hole.
* `OnlyLists`: Two heaps that differ in the lists and the memory only.

## Theorems

* `Rep.openAlloc`, `Rep.openFree`: A block becomes a hole.
* `Hole.congr`: Writes in the hole.
* `Hole.takeNext`, `Hole.takePrev`: A free neighbour becomes part of the hole.
* `Hole.getFree`, `Hole.insertFree`: A free block of the hole leaves its list or joins one.
* `Hole.close`: The hole is filled.
-/

namespace Wujian100

namespace Rhino

/-- The memory that calls on other blocks of the region leave alone. -/
def Kept (a₀ e : Nat) (os bs : List Blk) (w : Nat) : Prop :=
  ((w < a₀ ∨ e + 8 ≤ w) ∧ ¬FreeLink os w) ∨ Owned bs w

/-- A heap with a hole at `b`, of a header and `len` bytes, behind the block `p`. In the hole
    there are the free blocks `xs`, and its first `keep` bytes are as they were. -/
structure Hole (m₀ : Nat → Nat) (a₀ e : Nat) (os : List Blk) (s : Mm) (pre xs post : List Blk)
    (p : Nat) (pf : Bool) (b len keep : Nat) : Prop where
  region : Region a₀ e os
  seg : Seg s.mem 0 false a₀ pre p pf b
  back : pf = true → s.prev b = p
  bit : isPrevFree (s.size b) ↔ pf = true
  long : 8 ≤ len ∧ len % 4 = 0
  kept : keep ≤ len
  inside : ∀ x ∈ xs, b ≤ x.addr ∧ 8 ≤ x.size ∧ x.addr + 8 + x.size ≤ b + 8 + len
  tag : ∃ q : Bool, s.size (b + 8 + len) = headSize post + (headFree post).toNat + 2 * q.toNat
  rest : Rest s.mem e (b + 8 + len) post
  lists : FreeLists s (os ++ (pre ++ (xs ++ post)))
  frame : ∀ w, Kept a₀ e os (pre ++ post) w → s.mem w = m₀ w
  data : ∀ w, b + 8 ≤ w → w < b + 8 + keep → s.mem w = m₀ w

/-- Only the lists and the memory differ. -/
structure OnlyLists (s t : Mm) : Prop where
  regioninfo : t.regioninfo = s.regioninfo
  fixedmblk : t.fixedmblk = s.fixedmblk
  usedSize : t.usedSize = s.usedSize
  maxusedSize : t.maxusedSize = s.maxusedSize
  freeSize : t.freeSize = s.freeSize
  clamps : t.clamps = s.clamps
  usedLog : t.usedLog = s.usedLog
  pool : t.pool = s.pool
  small : t.small = s.small

section OnlyLists

variable {s t u : Mm}

theorem OnlyLists.refl (s : Mm) : OnlyLists s s := ⟨rfl, rfl, rfl, rfl, rfl, rfl, rfl, rfl, rfl⟩

theorem OnlyLists.trans (h : OnlyLists s t) (h' : OnlyLists t u) : OnlyLists s u :=
  ⟨h'.regioninfo.trans h.regioninfo, h'.fixedmblk.trans h.fixedmblk,
    h'.usedSize.trans h.usedSize, h'.maxusedSize.trans h.maxusedSize,
    h'.freeSize.trans h.freeSize, h'.clamps.trans h.clamps, h'.usedLog.trans h.usedLog,
    h'.pool.trans h.pool, h'.small.trans h.small⟩

theorem onlyLists_setSize (s : Mm) (b w : Nat) : OnlyLists s (s.setSize b w) :=
  ⟨rfl, rfl, rfl, rfl, rfl, rfl, rfl, rfl, rfl⟩

theorem onlyLists_setPrev (s : Mm) (b w : Nat) : OnlyLists s (s.setPrev b w) :=
  ⟨rfl, rfl, rfl, rfl, rfl, rfl, rfl, rfl, rfl⟩

theorem onlyLists_insertBlock (s : Mm) (b flt slt : Nat) : OnlyLists s (s.insertBlock b flt slt) := by
  have htable : ∀ u : Mm, OnlyLists u ((u.setTbl flt slt b).setBits flt slt) :=
    fun _ => ⟨rfl, rfl, rfl, rfl, rfl, rfl, rfl, rfl, rfl⟩
  have hlink : ∀ (u : Mm) (x : Nat), OnlyLists u (u.setFreePrev x b) :=
    fun _ _ => ⟨rfl, rfl, rfl, rfl, rfl, rfl, rfl, rfl, rfl⟩
  have hself : ∀ n, OnlyLists s ((s.setFreePrev b 0).setFreeNext b n) :=
    fun _ => ⟨rfl, rfl, rfl, rfl, rfl, rfl, rfl, rfl, rfl⟩
  unfold Mm.insertBlock
  dsimp only
  refine OnlyLists.trans ?_ (htable _)
  split
  · exact (hself _).trans (hlink _ _)
  · exact hself _

theorem onlyLists_unhead (s : Mm) (b flt slt : Nat) : OnlyLists s (unhead s b flt slt) := by
  unfold unhead
  dsimp only
  split
  · split
    · exact ⟨rfl, rfl, rfl, rfl, rfl, rfl, rfl, rfl, rfl⟩
    · exact ⟨rfl, rfl, rfl, rfl, rfl, rfl, rfl, rfl, rfl⟩
  · exact OnlyLists.refl s

theorem onlyLists_getBlock (s : Mm) (b flt slt : Nat) : OnlyLists s (s.getBlock b flt slt) := by
  have hlinks : ∀ u : Mm, OnlyLists u ((u.setFreePrev b 0).setFreeNext b 0) :=
    fun _ => ⟨rfl, rfl, rfl, rfl, rfl, rfl, rfl, rfl, rfl⟩
  unfold Mm.getBlock
  dsimp only
  refine OnlyLists.trans ?_ (hlinks _)
  refine OnlyLists.trans ?_ (onlyLists_unhead _ b flt slt)
  split
  · split
    · exact ⟨rfl, rfl, rfl, rfl, rfl, rfl, rfl, rfl, rfl⟩
    · exact ⟨rfl, rfl, rfl, rfl, rfl, rfl, rfl, rfl, rfl⟩
  · split
    · exact ⟨rfl, rfl, rfl, rfl, rfl, rfl, rfl, rfl, rfl⟩
    · exact OnlyLists.refl s

theorem onlyLists_getFree (s : Mm) (b : Nat) : OnlyLists s (s.getFree b) := onlyLists_getBlock s b _ _

theorem onlyLists_insertFree (s : Mm) (b size : Nat) : OnlyLists s (s.insertFree b size) :=
  onlyLists_insertBlock s b _ _

end OnlyLists

/-! ## What a header says -/

section Header

variable {size k q : Nat}

/-- The three parts of a header. -/
theorem blksize_tag (hsize : size % 4 = 0) (free q : Bool) :
    blksize (size + free.toNat + 2 * q.toNat) = size := by
  unfold blksize
  cases free <;> cases q <;> simp only [Bool.toNat_true, Bool.toNat_false] <;> omega

theorem isFree_tag (hsize : size % 4 = 0) (free q : Bool) :
    isFree (size + free.toNat + 2 * q.toNat) ↔ free = true := by
  unfold isFree
  cases free <;> cases q <;> simp only [Bool.toNat_true, Bool.toNat_false, Bool.false_eq_true, iff_false,
    iff_true] <;> omega

theorem isPrevFree_tag (hsize : size % 4 = 0) (free q : Bool) :
    isPrevFree (size + free.toNat + 2 * q.toNat) ↔ q = true := by
  unfold isPrevFree
  cases free <;> cases q <;> simp only [Bool.toNat_true, Bool.toNat_false, Bool.false_eq_true, iff_false,
    iff_true] <;> omega

theorem setPrevFree_tag (hsize : size % 4 = 0) (free q : Bool) :
    setPrevFree (size + free.toNat + 2 * q.toNat) = size + free.toNat + 2 * true.toNat := by
  unfold setPrevFree
  cases free <;> cases q <;> simp only [Bool.toNat_true, Bool.toNat_false] <;> omega

theorem clearPrevFree_tag (hsize : size % 4 = 0) (free q : Bool) :
    clearPrevFree (size + free.toNat + 2 * q.toNat) = size + free.toNat + 2 * false.toNat := by
  unfold clearPrevFree
  cases free <;> cases q <;> simp only [Bool.toNat_true, Bool.toNat_false] <;> omega

theorem prestat_tag (hsize : size % 4 = 0) (free q : Bool) :
    prestat (size + free.toNat + 2 * q.toNat) = 2 * q.toNat := by
  unfold prestat
  cases free <;> cases q <;> simp only [Bool.toNat_true, Bool.toNat_false] <;> omega

end Header

section Hole

variable {m₀ : Nat → Nat} {a₀ e p b len keep w : Nat} {pf : Bool} {os pre xs post : List Blk}
  {s t : Mm} {x f : Blk}

/-! ## Where the hole is -/

theorem Hole.le (h : Hole m₀ a₀ e os s pre xs post p pf b len keep) : a₀ ≤ b ∧ b + 8 + len ≤ e :=
  ⟨h.seg.le, h.rest.le⟩

theorem Hole.pre_le (h : Hole m₀ a₀ e os s pre xs post p pf b len keep) (hx : x ∈ pre) :
    x.Shaped ∧ a₀ ≤ x.addr ∧ x.addr + 8 + x.size ≤ b :=
  h.seg.mem_le x hx

theorem Hole.post_le (h : Hole m₀ a₀ e os s pre xs post p pf b len keep) (hx : x ∈ post) :
    x.Shaped ∧ b + 8 + len ≤ x.addr ∧ x.addr + 8 + x.size ≤ e :=
  h.rest.mem_le x hx

/-- The address of the header behind the hole does not wrap around. -/
theorem Hole.next_eq (h : Hole m₀ a₀ e os s pre xs post p pf b len keep) {r : Nat} (hr : r ≤ len) :
    nextMmBlk (b + 8) r = b + 8 + r := by
  have hle := h.le
  have htop := h.region.top
  exact Nat.mod_eq_of_lt (by omega)

/-- Where the links of free blocks are that are not in the hole. -/
theorem Hole.link_apart (h : Hole m₀ a₀ e os s pre xs post p pf b len keep)
    (hw : FreeLink (os ++ (pre ++ post)) w) : w + 4 ≤ b ∨ b + 8 + len + 8 ≤ w := by
  have hle := h.le
  rcases freeLink_append.mp hw with ⟨x, hx, -, hlink⟩ | hw
  · obtain ⟨hshape, -, hapart⟩ := h.region.apart x hx
    have hlong := hshape.1
    omega
  · rcases freeLink_append.mp hw with ⟨x, hx, -, hlink⟩ | ⟨x, hx, -, hlink⟩
    · obtain ⟨hshape, hx1, hx2⟩ := h.pre_le hx
      have hlong := hshape.1
      omega
    · obtain ⟨hshape, hx1, hx2⟩ := h.post_le hx
      omega

/-! ## Writes -/

/-- Only the headers around the hole matter, and what is kept in it. -/
theorem Hole.congr (h : Hole m₀ a₀ e os s pre xs post p pf b len keep)
    (hmem : ∀ w, w < b + 4 ∨ (b + 8 ≤ w ∧ w < b + 8 + keep) ∨ b + 8 + len + 8 ≤ w ∨
      FreeLink xs w → t.mem w = s.mem w)
    (hbit : isPrevFree (t.size b) ↔ pf = true)
    (htag : ∃ q : Bool, t.size (b + 8 + len) = headSize post + (headFree post).toNat + 2 * q.toNat)
    (htbl : t.mmTbl = s.mmTbl) (hsl : t.slBitmap = s.slBitmap) (hfl : t.flBitmap = s.flBitmap) :
    Hole m₀ a₀ e os t pre xs post p pf b len keep := by
  have hle := h.le
  refine ⟨h.region, ?_, ?_, hbit, h.long, h.kept, h.inside, htag, ?_, ?_, ?_, ?_⟩
  · refine h.seg.congr fun x hx => ?_
    have hx' := (h.pre_le hx).2.2
    exact ⟨hmem _ (by omega), hmem _ (by omega)⟩
  · exact fun hpf => (hmem b (by omega)).trans (h.back hpf)
  · refine h.rest.congr (fun x _ hx => ?_) fun he => ?_
    · exact ⟨hmem _ (by omega), hmem _ (by omega)⟩
    · exact ⟨hmem _ (by omega), hmem _ (by omega)⟩
  · refine h.lists.congr (fun w hw => ?_) htbl hsl hfl
    rcases freeLink_append.mp hw with hw | hw
    · have hapart := h.link_apart (freeLink_append.mpr (Or.inl hw))
      exact hmem w (by omega)
    · rcases freeLink_append.mp hw with hw | hw
      · have hapart := h.link_apart (freeLink_append.mpr (Or.inr (freeLink_append.mpr (Or.inl hw))))
        exact hmem w (by omega)
      · rcases freeLink_append.mp hw with hw | hw
        · exact hmem w (Or.inr (Or.inr (Or.inr hw)))
        · have hapart :=
            h.link_apart (freeLink_append.mpr (Or.inr (freeLink_append.mpr (Or.inr hw))))
          exact hmem w (by omega)
  · intro w hw
    refine (hmem w ?_).trans (h.frame w hw)
    rcases hw with ⟨hout, -⟩ | hw
    · omega
    · rcases owned_append.mp hw with ⟨x, hx, -, hx'⟩ | ⟨x, hx, -, hx'⟩
      · have hbound := (h.pre_le hx).2.2
        omega
      · have hbound := (h.post_le hx).2.1
        omega
  · exact fun w hw hw' => (hmem w (by omega)).trans (h.data w hw hw')

/-- A link of a free block in the hole is in its buffer. -/
theorem Hole.link_inside (h : Hole m₀ a₀ e os s pre xs post p pf b len keep)
    (hw : FreeLink xs w) : b + 8 ≤ w ∧ w < b + 8 + len := by
  obtain ⟨x, hx, -, hlink⟩ := hw
  obtain ⟨h1, h2, h3⟩ := h.inside x hx
  omega

/-- What is left alone has none of the headers around the hole. -/
theorem Hole.ne_header (h : Hole m₀ a₀ e os s pre xs post p pf b len keep)
    (hw : w < b + 4 ∨ (b + 8 ≤ w ∧ w < b + 8 + keep) ∨ b + 8 + len + 8 ≤ w ∨ FreeLink xs w) :
    w ≠ b + 4 ∧ w ≠ b + 8 + len ∧ w ≠ b + 8 + len + 4 := by
  have hkept := h.kept
  rcases hw with hw | hw | hw | hw
  · omega
  · omega
  · omega
  · have hin := h.link_inside hw
    omega

theorem Hole.setSize (h : Hole m₀ a₀ e os s pre xs post p pf b len keep)
    (hbit : isPrevFree w ↔ pf = true) :
    Hole m₀ a₀ e os (s.setSize b w) pre xs post p pf b len keep := by
  have hlong := h.long.1
  refine h.congr (fun w' hw' => Function.update_of_ne (h.ne_header hw').1 _ _) ?_ ?_ rfl rfl rfl
  · have hself : (s.setSize b w).size b = w := Function.update_self _ _ _
    rw [hself]
    exact hbit
  · have hother : (s.setSize b w).size (b + 8 + len) = s.size (b + 8 + len) :=
      Function.update_of_ne (by omega) _ _
    rw [hother]
    exact h.tag

theorem Hole.setNextSize (h : Hole m₀ a₀ e os s pre xs post p pf b len keep) (q : Bool) :
    Hole m₀ a₀ e os
      (s.setSize (b + 8 + len) (headSize post + (headFree post).toNat + 2 * q.toNat))
      pre xs post p pf b len keep := by
  have hlong := h.long.1
  refine h.congr (fun w' hw' => Function.update_of_ne (h.ne_header hw').2.2 _ _) ?_ ⟨q, ?_⟩
    rfl rfl rfl
  · have hother : ∀ v, (s.setSize (b + 8 + len) v).size b = s.size b :=
      fun v => Function.update_of_ne (by omega) _ _
    rw [hother]
    exact h.bit
  · exact Function.update_self _ _ _

theorem Hole.setNextPrev (h : Hole m₀ a₀ e os s pre xs post p pf b len keep) (v : Nat) :
    Hole m₀ a₀ e os (s.setPrev (b + 8 + len) v) pre xs post p pf b len keep := by
  have hlong := h.long.1
  refine h.congr (fun w' hw' => Function.update_of_ne (h.ne_header hw').2.1 _ _) ?_ ?_ rfl rfl rfl
  · have hother : (s.setPrev (b + 8 + len) v).size b = s.size b :=
      Function.update_of_ne (by omega) _ _
    rw [hother]
    exact h.bit
  · have hother : (s.setPrev (b + 8 + len) v).size (b + 8 + len) = s.size (b + 8 + len) :=
      Function.update_of_ne (by omega) _ _
    rw [hother]
    exact h.tag

/-- A header inside the hole. -/
theorem Hole.setInner (h : Hole m₀ a₀ e os s pre [] post p pf b len keep) (b₂ v : Nat)
    (hlow : b + 8 + keep ≤ b₂) (hhigh : b₂ + 8 ≤ b + 8 + len) :
    Hole m₀ a₀ e os (s.setSize b₂ v) pre [] post p pf b len keep := by
  refine h.congr (fun w' hw' => Function.update_of_ne ?_ _ _) ?_ ?_ rfl rfl rfl
  · rcases hw' with hw' | hw' | hw' | ⟨x, hx, -⟩
    · omega
    · omega
    · omega
    · cases hx
  · have hother : (s.setSize b₂ v).size b = s.size b := Function.update_of_ne (by omega) _ _
    rw [hother]
    exact h.bit
  · have hother : (s.setSize b₂ v).size (b + 8 + len) = s.size (b + 8 + len) :=
      Function.update_of_ne (by omega) _ _
    rw [hother]
    exact h.tag

/-- Less is kept. -/
theorem Hole.mono (h : Hole m₀ a₀ e os s pre xs post p pf b len keep) {keep' : Nat}
    (hle : keep' ≤ keep) : Hole m₀ a₀ e os s pre xs post p pf b len keep' :=
  ⟨h.region, h.seg, h.back, h.bit, h.long, hle.trans h.kept, h.inside, h.tag, h.rest, h.lists,
    h.frame, fun w hw hw' => h.data w hw (by omega)⟩

/-- Only the lists and the memory matter. -/
theorem Hole.onlyLists (h : Hole m₀ a₀ e os s pre xs post p pf b len keep) (hmem : t.mem = s.mem)
    (htbl : t.mmTbl = s.mmTbl) (hsl : t.slBitmap = s.slBitmap) (hfl : t.flBitmap = s.flBitmap) :
    Hole m₀ a₀ e os t pre xs post p pf b len keep := by
  have hsize : ∀ a, t.size a = s.size a := fun a => congrFun hmem _
  refine h.congr (fun w _ => congrFun hmem w) ?_ ?_ htbl hsl hfl
  · rw [hsize]
    exact h.bit
  · rw [hsize]
    exact h.tag

/-! ## A block becomes a hole -/

/-- A block of a heap, and those around it. -/
theorem Rep.split (h : Rep a₀ e os s (pre ++ f :: post)) :
    ∃ p pf, Seg s.mem 0 false a₀ pre p pf f.addr ∧ ¬(pf = true ∧ f.free = true) ∧
      Header s.mem p pf f.addr f.size f.free ∧ f.Shaped ∧
      Chain s.mem e f.addr f.free (f.addr + 8 + f.size) post := by
  obtain ⟨p, pf, a, hseg, rfl, hshape, hnot, hheader, hchain⟩ := chain_append.mp h.chain
  exact ⟨p, pf, hseg, hnot, hheader, hshape, hchain⟩

theorem Rep.openAlloc (h : Rep a₀ e os s (pre ++ f :: post)) (hfree : f.free = false)
    (hkeep : keep ≤ f.size) :
    ∃ p pf, Hole s.mem a₀ e os s pre [] post p pf f.addr f.size keep ∧
      s.size f.addr = f.size + 2 * pf.toNat ∧
      s.size (f.addr + 8 + f.size) = headSize post + (headFree post).toNat := by
  obtain ⟨p, pf, hseg, -, hheader, hshape, hchain⟩ := h.split
  obtain ⟨-, hhead, hrest⟩ := chain_iff.mp hchain
  rw [hfree] at hheader hhead
  have htag : s.size f.addr = f.size + false.toNat + 2 * pf.toNat := hheader.1
  refine ⟨p, pf, ⟨h.region, hseg, hheader.2, ?_, hshape, hkeep, ?_, ⟨false, hhead.1⟩, hrest, ?_,
    fun w _ => rfl, fun w _ _ => rfl⟩, htag, hhead.1⟩
  · rw [htag]
    exact isPrevFree_tag hshape.2 false pf
  · exact fun x hx => absurd hx List.not_mem_nil
  · refine h.lists.same fun x hx => ?_
    have hne : x ≠ f := by
      rintro rfl
      rw [hfree] at hx
      cases hx
    simp only [List.mem_append, List.mem_cons, List.not_mem_nil, false_or, hne]

/-- A free block is a hole with that block in it. -/
theorem Rep.openFree (h : Rep a₀ e os s (pre ++ f :: post)) (hfree : f.free = true) :
    ∃ p, Hole s.mem a₀ e os s pre [f] post p false f.addr f.size 0 ∧ s.size f.addr = f.size + 1 ∧
      s.size (f.addr + 8 + f.size) = headSize post + 2 ∧ headFree post = false := by
  obtain ⟨p, pf, hseg, hnot, hheader, hshape, hchain⟩ := h.split
  obtain ⟨hnot', hhead, hrest⟩ := chain_iff.mp hchain
  have hpf : pf = false := by
    cases pf with
    | false => rfl
    | true => exact absurd ⟨rfl, hfree⟩ hnot
  have hpost : headFree post = false := by
    cases hc : headFree post with
    | false => rfl
    | true => exact absurd ⟨hfree, hc⟩ hnot'
  rw [hfree, hpf] at hheader
  rw [hpf] at hseg
  rw [hfree] at hhead
  have htag : s.size f.addr = f.size + true.toNat + 2 * false.toNat := hheader.1
  have hnext : s.size (f.addr + 8 + f.size) = headSize post + (headFree post).toNat
    + 2 * true.toNat := hhead.1
  refine ⟨p, ⟨h.region, hseg, fun hc => Bool.noConfusion hc, ?_, hshape, Nat.zero_le _, ?_,
    ⟨true, hnext⟩, hrest, ?_, fun w _ => rfl, fun w _ _ => rfl⟩, htag, ?_, hpost⟩
  · rw [htag]
    exact isPrevFree_tag hshape.2 true false
  · intro x hx
    rw [List.mem_singleton.mp hx]
    exact ⟨Nat.le_refl _, hshape.1, Nat.le_refl _⟩
  · exact h.lists
  · rw [hnext, hpost]
    rfl

/-! ## Neighbours -/

/-- The free block behind the hole becomes part of it. -/
theorem Hole.takeNext (h : Hole m₀ a₀ e os s pre [] (f :: post) p pf b len keep)
    (hfree : f.free = true) :
    f.addr = b + 8 + len ∧ f.Shaped ∧
      Hole m₀ a₀ e os s pre [f] post p pf b (len + (8 + f.size)) keep ∧
      s.size (b + 8 + len + 8 + f.size) = headSize post + 2 ∧ headFree post = false := by
  obtain ⟨haddr, hshape, hchain⟩ := h.rest
  obtain ⟨hnot, hhead, hrest⟩ := chain_iff.mp hchain
  have hpost : headFree post = false := by
    cases hc : headFree post with
    | false => rfl
    | true => exact absurd ⟨hfree, hc⟩ hnot
  rw [hfree] at hhead
  have hnext : b + 8 + (len + (8 + f.size)) = b + 8 + len + 8 + f.size := by omega
  have htag : s.size (b + 8 + len + 8 + f.size) = headSize post + (headFree post).toNat
    + 2 * true.toNat := hhead.1
  have hlong := h.long
  have hsize := hshape.2
  refine ⟨haddr, hshape, ⟨h.region, h.seg, h.back, h.bit, by omega, h.kept.trans (by omega), ?_,
    ⟨true, hnext ▸ htag⟩, hnext ▸ hrest, h.lists, fun w hw => h.frame w ?_, h.data⟩, ?_, hpost⟩
  · intro x hx
    rw [List.mem_singleton.mp hx]
    have := hshape.1
    omega
  · rcases hw with hw | hw
    · exact Or.inl hw
    · refine Or.inr ?_
      rcases owned_append.mp hw with hw | ⟨x, hx, hx'⟩
      · exact owned_append.mpr (Or.inl hw)
      · exact owned_append.mpr (Or.inr ⟨x, List.mem_cons_of_mem f hx, hx'⟩)
  · rw [htag, hpost]
    rfl

/-- The free block before the hole becomes part of it. -/
theorem Hole.takePrev (h : Hole m₀ a₀ e os s pre [] post p true b len keep) :
    ∃ pre' f p', pre = pre' ++ [f] ∧ f.free = true ∧ f.addr = p ∧ f.Shaped ∧ b = p + 8 + f.size ∧
      s.size p = f.size + 1 ∧
      Hole m₀ a₀ e os s pre' [f] post p' false p (f.size + (8 + len)) 0 := by
  obtain ⟨pre', f, p', rfl, hfree, rfl, rfl, hseg, hheader, hshape⟩ := h.seg.last
  have htag : s.size f.addr = f.size + true.toNat + 2 * false.toNat := hheader.1
  have hnext : f.addr + 8 + (f.size + (8 + len)) = f.addr + 8 + f.size + 8 + len := by omega
  have hlong := h.long
  have hsize := hshape.2
  refine ⟨pre', f, p', rfl, hfree, rfl, hshape, rfl, htag, ⟨h.region, hseg,
    fun hc => Bool.noConfusion hc, ?_, by omega, Nat.zero_le _, ?_, hnext ▸ h.tag, hnext ▸ h.rest, ?_,
    fun w hw => h.frame w ?_, fun w hw hw' => absurd hw' (by omega)⟩⟩
  · rw [htag]
    exact isPrevFree_tag hshape.2 true false
  · intro x hx
    rw [List.mem_singleton.mp hx]
    have := hshape.1
    omega
  · refine h.lists.same fun x _ => ?_
    simp only [List.mem_append, List.mem_singleton, List.not_mem_nil, false_or, or_assoc]
  · rcases hw with hw | hw
    · exact Or.inl hw
    · refine Or.inr ?_
      rcases owned_append.mp hw with hw | hw
      · exact owned_append.mpr (Or.inl (owned_append.mpr (Or.inl hw)))
      · exact owned_append.mpr (Or.inr hw)

/-! ## The free blocks of the hole -/

/-- A link of another block in the region is neither a header nor in a buffer that is kept. -/
theorem Hole.not_link (h : Hole m₀ a₀ e os s pre xs post p pf b len keep) :
    (∀ x ∈ pre ++ post, ∀ w, (w = x.addr ∨ w = x.addr + 4) → ¬FreeLink (os ++ (pre ++ post)) w) ∧
      ∀ w, Kept a₀ e os (pre ++ post) w → ¬FreeLink (os ++ (pre ++ post)) w := by
  have hle := h.le
  have hapart := eq_or_apart (List.pairwise_append.mpr ⟨h.seg.sorted, h.rest.sorted, fun x hx y hy => by
    have hx' := (h.pre_le hx).2.2
    have hy' := (h.post_le hy).2.1
    unfold Blk.Before
    omega⟩)
  have hbound : ∀ x ∈ pre ++ post, 8 ≤ x.size ∧ a₀ ≤ x.addr ∧ x.addr + 8 + x.size ≤ e := by
    intro x hx
    rcases List.mem_append.mp hx with hx | hx
    · obtain ⟨hshape, hx1, hx2⟩ := h.pre_le hx
      exact ⟨hshape.1, hx1, by omega⟩
    · obtain ⟨hshape, hx1, hx2⟩ := h.post_le hx
      exact ⟨hshape.1, by omega, hx2⟩
  -- The links of other regions lie outside this one.
  have hothers : ∀ w, FreeLink os w → w < a₀ ∨ e + 8 ≤ w := by
    rintro w ⟨y, hy, -, hlink⟩
    obtain ⟨hshape, -, hout⟩ := h.region.apart y hy
    have hlong := hshape.1
    omega
  -- A word that is kept is no link: links are in free blocks, and headers lie apart from them.
  constructor
  · intro x hx w hw hlink
    have hx' := hbound x hx
    rcases freeLink_append.mp hlink with hlink | ⟨y, hy, -, hlink⟩
    · have hout := hothers w hlink
      omega
    · have hy' := hbound y hy
      rcases hapart x hx y hy with rfl | hxy
      · omega
      · unfold Blk.Apart Blk.Before at hxy
        omega
  · rintro w (⟨hout, hno⟩ | ⟨x, hx, hxfree, hw⟩) hlink
    · rcases freeLink_append.mp hlink with hlink | ⟨y, hy, -, hlink⟩
      · exact hno hlink
      · have hy' := hbound y hy
        omega
    · have hx' := hbound x hx
      rcases freeLink_append.mp hlink with hlink | ⟨y, hy, hyfree, hlink⟩
      · have hout := hothers w hlink
        omega
      · have hy' := hbound y hy
        rcases hapart x hx y hy with rfl | hxy
        · rw [hxfree] at hyfree
          cases hyfree
        · unfold Blk.Apart Blk.Before at hxy
          omega

/-- The free blocks in the hole can be others, as long as only links are written. -/
theorem Hole.relist (h : Hole m₀ a₀ e os s pre xs post p pf b len keep) (ys zs : List Blk)
    (hmem : ∀ w, ¬FreeLink (os ++ (pre ++ (zs ++ post))) w → t.mem w = s.mem w)
    (hzs : ∀ x ∈ zs, b + keep ≤ x.addr ∧ 8 ≤ x.size ∧ x.addr + 8 + x.size ≤ b + 8 + len)
    (hys : ∀ x ∈ ys, b ≤ x.addr ∧ 8 ≤ x.size ∧ x.addr + 8 + x.size ≤ b + 8 + len)
    (hlists : FreeLists t (os ++ (pre ++ (ys ++ post)))) :
    Hole m₀ a₀ e os t pre ys post p pf b len keep := by
  have hle := h.le
  obtain ⟨hheaders, hkept⟩ := h.not_link
  -- outside the buffer only the links of the blocks around it are written
  have hout : ∀ w, w < b + 8 + keep ∨ b + 8 + len ≤ w → ¬FreeLink (os ++ (pre ++ post)) w →
      t.mem w = s.mem w := by
    intro w hw hno
    refine hmem w fun hlink => hno ?_
    rcases freeLink_append.mp hlink with hlink | hlink
    · exact freeLink_append.mpr (Or.inl hlink)
    · rcases freeLink_append.mp hlink with hlink | hlink
      · exact freeLink_append.mpr (Or.inr (freeLink_append.mpr (Or.inl hlink)))
      · rcases freeLink_append.mp hlink with ⟨z, hz, -, hlink⟩ | hlink
        · have hz' := hzs z hz
          omega
        · exact freeLink_append.mpr (Or.inr (freeLink_append.mpr (Or.inr hlink)))
  have hkeep := h.kept
  have hb : ∀ w, b ≤ w → w < b + 8 + keep → t.mem w = s.mem w := by
    intro w hw hw'
    refine hout w (by omega) fun hlink => ?_
    have hapart := h.link_apart hlink
    omega
  have hnext : ∀ w, b + 8 + len ≤ w → w < b + 8 + len + 8 → t.mem w = s.mem w := by
    intro w hw hw'
    refine hout w (by omega) fun hlink => ?_
    have hapart := h.link_apart hlink
    omega
  have hlast : ∀ w, e ≤ w → w < e + 8 → t.mem w = s.mem w := by
    intro w hw hw'
    refine hout w (by omega) fun hlink => ?_
    rcases freeLink_append.mp hlink with ⟨y, hy, -, hlink⟩ | ⟨y, hy, -, hlink⟩
    · obtain ⟨hshape, -, hapart⟩ := h.region.apart y hy
      have hlong := hshape.1
      omega
    · have hbound : 8 ≤ y.size ∧ y.addr + 8 + y.size ≤ e := by
        rcases List.mem_append.mp hy with hy | hy
        · obtain ⟨hshape, -, hy'⟩ := h.pre_le hy
          exact ⟨hshape.1, by omega⟩
        · obtain ⟨hshape, -, hy'⟩ := h.post_le hy
          exact ⟨hshape.1, hy'⟩
      omega
  have hsize : t.size b = s.size b := hb _ (by omega) (by omega)
  have hsize' : t.size (b + 8 + len) = s.size (b + 8 + len) := hnext _ (by omega) (by omega)
  refine ⟨h.region, ?_, ?_, ?_, h.long, h.kept, hys, ?_, ?_, hlists, ?_, ?_⟩
  · refine h.seg.congr fun x hx => ?_
    have hx' := (h.pre_le hx).2.2
    have hno := hheaders x (List.mem_append_left _ hx)
    exact ⟨hout _ (by omega) (hno _ (Or.inl rfl)), hout _ (by omega) (hno _ (Or.inr rfl))⟩
  · exact fun hpf => (hb b (by omega) (by omega)).trans (h.back hpf)
  · rw [hsize]
    exact h.bit
  · rw [hsize']
    exact h.tag
  · refine h.rest.congr (fun x hx hx' => ?_) fun he => ?_
    · have hno := hheaders x (List.mem_append_right _ hx)
      exact ⟨hout _ (by omega) (hno _ (Or.inl rfl)), hout _ (by omega) (hno _ (Or.inr rfl))⟩
    · exact ⟨hlast _ (by omega) (by omega), hlast _ (by omega) (by omega)⟩
  · intro w hw
    refine (hout w ?_ (hkept w hw)).trans (h.frame w hw)
    rcases hw with ⟨hw, -⟩ | hw
    · omega
    · rcases owned_append.mp hw with ⟨x, hx, -, hw⟩ | ⟨x, hx, -, hw⟩
      · have hx' := (h.pre_le hx).2.2
        omega
      · have hx' := (h.post_le hx).2.1
        omega
  · exact fun w hw hw' => (hb w (by omega) hw').trans (h.data w hw hw')

/-- The headers around the hole and in it are no links. -/
theorem Hole.relist_mem (h : Hole m₀ a₀ e os s pre xs post p pf b len keep)
    (hmem : ∀ w, ¬FreeLink (os ++ (pre ++ ([f] ++ post))) w → t.mem w = s.mem w) (hlow : b ≤ w)
    (hhigh : w < b + 8 + len + 8) (h8 : w ≠ f.addr + 8) (h12 : w ≠ f.addr + 12) :
    t.mem w = s.mem w := by
  refine hmem w fun hlink => ?_
  rcases freeLink_append.mp hlink with hlink | hlink
  · have hapart := h.link_apart (freeLink_append.mpr (Or.inl hlink))
    omega
  · rcases freeLink_append.mp hlink with hlink | hlink
    · have hapart := h.link_apart (freeLink_append.mpr (Or.inr (freeLink_append.mpr (Or.inl hlink))))
      omega
    · rcases freeLink_append.mp hlink with ⟨y, hy, -, hlink⟩ | hlink
      · rw [List.mem_singleton.mp hy] at hlink
        omega
      · have hapart :=
          h.link_apart (freeLink_append.mpr (Or.inr (freeLink_append.mpr (Or.inr hlink))))
        omega

/-- The block of the hole, and the others. -/
theorem mem_around : x ∈ os ++ (pre ++ ([f] ++ post)) ↔ x = f ∨ x ∈ os ++ (pre ++ ([] ++ post)) := by
  rw [List.nil_append, List.mem_append, List.mem_append, List.mem_append, List.mem_append,
    List.mem_append, List.mem_singleton, @or_left_comm (x ∈ pre), @or_left_comm (x ∈ os)]

/-- The free block of the hole is taken out of its list. -/
theorem Hole.getFree (h : Hole m₀ a₀ e os s pre [f] post p pf b len keep) (hfree : f.free = true)
    (hsize : blksize (s.size f.addr) = f.size) (hlow : b + keep ≤ f.addr) :
    Hole m₀ a₀ e os (s.getFree f.addr) pre [] post p pf b len keep ∧
      ∀ w, b ≤ w → w < b + 8 + len + 8 → w ≠ f.addr + 8 → w ≠ f.addr + 12 →
        (s.getFree f.addr).mem w = s.mem w := by
  obtain ⟨hlow', hlong, hhigh⟩ := h.inside f List.mem_cons_self
  have hle := h.le
  have hne : ∀ x ∈ os ++ (pre ++ ([] ++ post)), x.addr ≠ f.addr := by
    intro x hx
    rcases List.mem_append.mp hx with hx | hx
    · obtain ⟨hshape, -, hapart⟩ := h.region.apart x hx
      omega
    · rcases List.mem_append.mp hx with hx | hx
      · have hx' := (h.pre_le hx).2.2
        omega
      · have hx' := (h.post_le hx).2.1
        omega
  have hf : f ∈ os ++ (pre ++ ([f] ++ post)) := by
    simp only [List.mem_append, List.mem_singleton, true_or, or_true]
  obtain ⟨hlists, hmem⟩ := h.lists.getFree hf hfree hsize (fun x _ => mem_around) hne
  have hhole := h.relist [] [f] hmem
    (fun x hx => by
      rw [List.mem_singleton.mp hx]
      exact ⟨hlow, hlong, hhigh⟩)
    (fun x hx => absurd hx List.not_mem_nil) hlists
  exact ⟨hhole, fun w => h.relist_mem hmem⟩

/-- A free block of the hole is put in its list. -/
theorem Hole.insertFree (h : Hole m₀ a₀ e os s pre [] post p pf b len keep) (hfree : f.free = true)
    (hshape : f.Shaped) (hshort : f.size < 2 ^ maxMmBit) (hlow : b + keep ≤ f.addr)
    (hhigh : f.addr + 8 + f.size ≤ b + 8 + len) :
    Hole m₀ a₀ e os (s.insertFree f.addr f.size) pre [f] post p pf b len keep ∧
      ∀ w, b ≤ w → w < b + 8 + len + 8 → w ≠ f.addr + 8 → w ≠ f.addr + 12 →
        (s.insertFree f.addr f.size).mem w = s.mem w := by
  have hle := h.le
  have hpos := h.region.pos
  have hlong := hshape.1
  have hspaced : ∀ y ∈ os ++ (pre ++ ([] ++ post)), y.free = true →
      f.addr + 16 ≤ y.addr ∨ y.addr + 16 ≤ f.addr := by
    intro y hy _
    rcases List.mem_append.mp hy with hy | hy
    · obtain ⟨hyshape, -, hapart⟩ := h.region.apart y hy
      have hylong := hyshape.1
      omega
    · rcases List.mem_append.mp hy with hy | hy
      · obtain ⟨hyshape, -, hy'⟩ := h.pre_le hy
        have hylong := hyshape.1
        omega
      · have hy' := (h.post_le hy).2.1
        omega
  obtain ⟨hlists, hmem⟩ := h.lists.insertFree hfree hshape hshort (by omega) hspaced
    fun x _ => mem_around
  have hhole := h.relist [f] [f] hmem
    (fun x hx => by
      rw [List.mem_singleton.mp hx]
      exact ⟨hlow, hlong, hhigh⟩)
    (fun x hx => by
      rw [List.mem_singleton.mp hx]
      exact ⟨by omega, hlong, hhigh⟩) hlists
  exact ⟨hhole, fun w => h.relist_mem hmem⟩

/-! ## The hole is filled -/

theorem Hole.close (h : Hole m₀ a₀ e os s pre xs post p pf b len keep) {ys : List Blk} {p' : Nat}
    {pf' : Bool} (hseg : Seg s.mem p pf b ys p' pf' (b + 8 + len))
    (htag : s.size (b + 8 + len) = headSize post + (headFree post).toNat + 2 * pf'.toNat)
    (hprev : pf' = true → s.prev (b + 8 + len) = p')
    (hnot : ¬(pf' = true ∧ headFree post = true))
    (hys : ∀ x : Blk, x.free = true → (x ∈ ys ↔ x ∈ xs)) : Rep a₀ e os s (pre ++ (ys ++ post)) := by
  refine ⟨h.region, ?_, ?_⟩
  · refine chain_append.mpr ⟨p, pf, b, h.seg, chain_append.mpr ⟨p', pf', _, hseg, ?_⟩⟩
    exact chain_iff.mpr ⟨hnot, ⟨htag, hprev⟩, h.rest⟩
  · refine h.lists.same fun x hx => ?_
    rw [List.mem_append, List.mem_append, List.mem_append, List.mem_append, List.mem_append,
      List.mem_append, hys x hx]

end Hole

end Rhino

end Wujian100
