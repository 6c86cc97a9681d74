import Wujian100.Theory.Rhino.MmUsers

/-!
# The Heap at the Beginning

`krhino_init_mm_head`: the header of the heap and the region behind it fill what it is given. The
second block of the region is marked as allocated, with the last header saying that it is free,
and then it is given back. The small blocks are in the first block that is handed out, unless
there is no room for them.

## Main definitions

* `heapStart`, `heapEnd`: Where the region begins and where its last header is.
* `rawMm`: The heap before its block is given back.

## Theorems

* `rawMm_hole`: Its block fits between the first one and the last header.
* `initFixed_view`: The small blocks.
* `initMmHead_view`: What `krhino_init_mm_head` leaves.
-/

namespace Wujian100

namespace Rhino

/-- Where the region begins that is behind the header of the heap. -/
def heapStart (addr : Nat) : Nat := mmAlignUp addr + kMmHeadSize

/-- The bytes that are used of those that are given. -/
def heapLen (addr len : Nat) : Nat := mmAlignDown (len - (mmAlignUp addr - addr))

/-- Where its last header is. -/
def heapEnd (addr len : Nat) : Nat := mmAlignUp addr + heapLen addr len - mmlistHeadSize

/-- The heap before its block is given back. -/
def rawMm (mem : Nat → Nat) (firstblk len : Nat) : Mm :=
  { regioninfo := firstblk + mmlistHeadSize, fixedmblk := 0, usedSize := 0, maxusedSize := 0
    freeSize := 0, clamps := 0, usedLog := [], flBitmap := 0, slBitmap := fun _ => 0
    mmTbl := fun _ _ => 0, pool := ⟨false, 0, 0, 0, 0⟩, small := [], mem := initMmRegion mem firstblk len }

section Region

variable {mem : Nat → Nat} {a₀ n S w : Nat}

theorem rawMm_size (b : Nat) : (rawMm mem a₀ n).size b = initMmRegion mem a₀ n (b + 4) := rfl

/-- What the region holds: the header of the first block, that of the second one and the last
    one. -/
theorem initMmRegion_headers (hn : n = S + 32) (haligned : S % 4 = 0) :
    initMmRegion mem a₀ n (a₀ + 4) = 8 ∧ initMmRegion mem a₀ n (a₀ + 20) = S ∧
      initMmRegion mem a₀ n (a₀ + 24 + S + 4) = 2 := by
  have hsize : mmAlignDown (n - (8 + 3 * 8)) = S := by
    unfold mmAlignDown
    omega
  unfold initMmRegion kMmRegionInfoSize mmlistHeadSize
  rw [hsize]
  refine ⟨?_, ?_, ?_⟩
  · rw [Function.update_of_ne (by omega), Function.update_of_ne (by omega),
      Function.update_of_ne (by omega), Function.update_of_ne (by omega),
      Function.update_of_ne (by omega), Function.update_of_ne (by omega),
      Function.update_of_ne (by omega), Function.update_self]
  · rw [Function.update_of_ne (by omega), Function.update_of_ne (by omega),
      Function.update_of_ne (by omega), Function.update_of_ne (by omega),
      Function.update_of_ne (by omega), Function.update_of_ne (by omega),
      show a₀ + 20 = a₀ + 8 + 8 + 4 by omega, Function.update_self]
  · rw [Function.update_of_ne (by omega), Function.update_of_ne (by omega),
      show a₀ + 24 + S + 4 = a₀ + 8 + 8 + 8 + S + 4 by omega, Function.update_self]

/-- The first block tells where the last header is, and that no region is behind it. -/
theorem initMmRegion_info (hn : n = S + 32) (haligned : S % 4 = 0) :
    initMmRegion mem a₀ n (a₀ + 8) = a₀ + 24 + S ∧ initMmRegion mem a₀ n (a₀ + 12) = 0 := by
  have hsize : mmAlignDown (n - (8 + 3 * 8)) = S := by
    unfold mmAlignDown
    omega
  unfold initMmRegion kMmRegionInfoSize mmlistHeadSize
  rw [hsize]
  refine ⟨Function.update_self _ _ _, ?_⟩
  rw [Function.update_of_ne (by omega), Function.update_self]

/-- Nothing is written outside the region. -/
theorem initMmRegion_frame (hn : n = S + 32) (haligned : S % 4 = 0)
    (hw : w < a₀ ∨ a₀ + n ≤ w) : initMmRegion mem a₀ n w = mem w := by
  have hsize : mmAlignDown (n - (8 + 3 * 8)) = S := by
    unfold mmAlignDown
    omega
  unfold initMmRegion kMmRegionInfoSize mmlistHeadSize
  rw [hsize]
  rw [Function.update_of_ne (by omega), Function.update_of_ne (by omega),
    Function.update_of_ne (by omega), Function.update_of_ne (by omega),
    Function.update_of_ne (by omega), Function.update_of_ne (by omega),
    Function.update_of_ne (by omega), Function.update_of_ne (by omega)]

/-- Nothing is free, and no list has a block. -/
theorem rawMm_lists : FreeLists (rawMm mem a₀ n) [] := by
  refine ⟨fun _ => none, fun x c => ?_, fun _ _ => [], ?_⟩
  · constructor
    · intro hc
      cases hc
    · rintro ⟨b, hb, -⟩
      cases hb
  · refine ⟨fun x flt slt => ?_, fun _ _ => List.nodup_nil, fun _ _ => rfl, fun _ _ => trivial,
      fun flt slt => ?_, fun flt => ?_, fun x flt slt h => ?_, fun x h => absurd rfl h,
      fun x y h => absurd rfl h⟩
    · constructor
      · exact fun h => absurd h List.not_mem_nil
      · intro h
        cases h
    · constructor
      · exact fun h => absurd (BitVec.getLsbD_zero ▸ h) Bool.false_ne_true
      · exact fun h => absurd rfl h
    · constructor
      · exact fun h => absurd (BitVec.getLsbD_zero ▸ h) Bool.false_ne_true
      · rintro ⟨slt, h⟩
        exact absurd rfl h
    · cases h

/-- The block that is given back lies between the first one and the last header. -/
theorem initMmRegion_hole {os : List Blk} {s : Mm} (hmem : s.mem = initMmRegion mem a₀ n)
    (hregion : Region a₀ (a₀ + 24 + S) os) (hlists : FreeLists s os) (hn : n = S + 32)
    (haligned : S % 4 = 0) (hlong : 8 ≤ S) :
    Hole s.mem a₀ (a₀ + 24 + S) os s [⟨a₀, 8, false⟩] [] [] a₀ false (a₀ + 16) S 0 := by
  obtain ⟨hfirst, hcur, hlast⟩ := @initMmRegion_headers mem a₀ n S hn haligned
  rw [← hmem] at hfirst hcur hlast
  have hfour : 8 % 4 = 0 := by decide
  refine ⟨hregion, ?_, ?_, ?_, ⟨hlong, haligned⟩, Nat.zero_le S,
    fun x hx => absurd hx List.not_mem_nil, ⟨true, ?_⟩, ?_, ?_, fun _ _ => rfl, fun _ _ _ => rfl⟩
  · refine ⟨rfl, ⟨Nat.le_refl 8, hfour⟩, fun hc => Bool.false_ne_true hc.1, ⟨hfirst, fun hc => ?_⟩, rfl,
      rfl, rfl⟩
    cases hc
  · intro hc
    cases hc
  · have hsize : s.size (a₀ + 16) = S := hcur
    rw [hsize]
    exact isPrevFree_tag haligned false false
  · have hsize : s.size (a₀ + 24 + S) = 2 := hlast
    rw [show a₀ + 16 + 8 + S = a₀ + 24 + S by omega, hsize]
    rfl
  · change a₀ + 16 + 8 + S = a₀ + 24 + S
    omega
  · -- the first block is allocated, so that the lists have no block more
    refine hlists.same fun x hfree => ?_
    rw [List.mem_append, or_iff_left]
    intro hx
    rw [List.mem_singleton.mp hx] at hfree
    cases hfree

/-- Given back, it is the one block that is free. -/
theorem rawMm_free (hpos : 0 < a₀) (hn : n = S + 32) (haligned : S % 4 = 0) (hlong : 8 ≤ S)
    (htop : a₀ + 24 + S + 8 ≤ 2 ^ 32) (hshort : 24 + S < 2 ^ maxMmBit) :
    Rep a₀ (a₀ + 24 + S) [] ((rawMm mem a₀ n).free (a₀ + 24))
        [⟨a₀, 8, false⟩, ⟨a₀ + 16, S, true⟩] ∧
      OnlyLists ((rawMm mem a₀ n).removesize (8 + S)) ((rawMm mem a₀ n).free (a₀ + 24)) ∧
      InfoIn a₀ (a₀ + 24 + S) ((rawMm mem a₀ n).free (a₀ + 24)) := by
  have hhole := @initMmRegion_hole mem a₀ n S [] (rawMm mem a₀ n) rfl
    ⟨hpos, htop, fun x hx => absurd hx List.not_mem_nil⟩ rawMm_lists hn haligned hlong
  have hcur := (@initMmRegion_headers mem a₀ n S hn haligned).2.1
  have hfree : (rawMm mem a₀ n).free (a₀ + 24) = (rawMm mem a₀ n).tlsfFree (a₀ + 16) := by
    unfold Mm.free
    rw [if_neg (by omega), if_neg fun hc => hc.1 rfl]
    rfl
  obtain ⟨⟨bs, hrep, hallocs, hbytes⟩, honly, hframe⟩ := hhole.tlsfFree hcur (by omega)
  have hinfo : InfoIn a₀ (a₀ + 24 + S) (rawMm mem a₀ n) := ⟨rfl, initMmRegion_info hn haligned⟩
  rw [hfree]
  refine ⟨?_, honly, hinfo.congr honly.regioninfo fun w hw hw' => hframe w ?_⟩
  swap
  · exact Or.inr ⟨⟨a₀, 8, false⟩, List.mem_cons_self, rfl, hw, hw'⟩
  have hone : allocs bs = [⟨a₀, 8, false⟩] := hallocs
  have hsum : freeBytes bs = 0 + 0 + (8 + S) := hbytes
  obtain ⟨f, hf, hffree⟩ := @exists_free bs (by omega)
  obtain ⟨rfl, haddr⟩ := hrep.chain.free_of_one hone rfl hf hffree
  rw [freeBytes_cons_alloc rfl, freeBytes_cons_free hffree, freeBytes] at hsum
  have hf' : f = ⟨a₀ + 16, S, true⟩ := by
    obtain ⟨addr, size, free⟩ := f
    dsimp only at haddr hffree hsum
    rw [haddr, hffree, show size = S by omega]
  rw [← hf']
  exact hrep

end Region

/-! ## The small blocks -/

section Pool

variable {mem : Nat → Nat} {S B P m turns w : Nat}

/-- The loop of `krhino_mblk_pool_init` has turns enough. -/
theorem poolInit_of_lt (hS : S < 2 ^ 32) (h : MblkStops S B P m) (ht : m < turns) :
    mblkPoolInit turns mem S B P = some
      ({ valid := true, blkSize := B, blkAvail := wholeOf S B P m, blkWhole := wholeOf S B P m
         availList := S }, Function.update (linkMem mem S B m) (node S B m) 0) := by
  obtain ⟨r, rfl⟩ := Nat.exists_eq_add_of_lt ht
  unfold mblkPoolInit
  dsimp only
  rw [linkedAt_zero hS, show m + r + 1 = (r + 1) + m by omega, link_run (r + 1) m h.goes, mblkLink,
    if_neg (by exact Nat.not_lt.mpr h.ends)]
  rfl

/-- It writes to the blocks only. -/
theorem linkMem_of_ne (hw : ∀ j < m, w ≠ node S B j) : linkMem mem S B m w = mem w := by
  induction m with
  | zero => rfl
  | succ m ih =>
      have hlast := hw m (Nat.lt_succ_self m)
      unfold linkMem
      rw [Function.update_of_ne hlast, ih fun j hj => hw j (by omega)]

/-- All blocks are free. -/
theorem poolInit_inv (hS : S < 2 ^ 32) (h : MblkStops S B P m) :
    ∃ free, MblkInv B ((List.range' 0 (wholeOf S B P m)).map (node S B)) free
      ⟨{ valid := true, blkSize := B, blkAvail := wholeOf S B P m, blkWhole := wholeOf S B P m
         availList := S }, Function.update (linkMem mem S B m) (node S B m) 0, []⟩ := by
  have hle : 0 + wholeOf S B P m ≤ m + 1 := by
    rw [Nat.zero_add]
    exact wholeOf_le S B P m
  have hleads := leadsAlong_nodes mem h (wholeOf S B P m) 0 hle
  rw [node_zero hS] at hleads
  have hlen : ((List.range' 0 (wholeOf S B P m)).map (node S B)).length = wholeOf S B P m := by
    rw [List.length_map, List.length_range']
  exact ⟨_, rfl, rfl, hlen.symm, hleads, hlen.symm, by rw [List.append_nil]⟩

/-- The small blocks of a heap fit as they are. -/
theorem smallBlocks (hpos : 0 < S) (hend : S + 4096 < 2 ^ 32) :
    MblkStops S 32 4096 127 ∧ wholeOf S 32 4096 127 = 128 ∧
      (∀ j ≤ 128, node S 32 j = S + j * 32) ∧
      MblkBlocks S 32 4096 ((List.range' 0 128).map (node S 32)) := by
  have hE : (S + 4096) % 2 ^ 32 = S + 4096 := Nat.mod_eq_of_lt hend
  have hnode : ∀ j ≤ 128, node S 32 j = S + j * 32 := fun j hj => node_of_lt (by omega)
  refine ⟨⟨?_, fun j hj => ?_⟩, ?_, hnode, ?_⟩
  · rw [hE, hnode 128 (Nat.le_refl 128)]
  · rw [hE, hnode (j + 1) (by omega)]
    omega
  · unfold wholeOf
    rw [hE, hnode 128 (Nat.le_refl 128), if_pos rfl]
  · exact blocks_of_straight hpos (by decide) (by decide) (Nat.le_refl _) fun j hj => hnode j hj.le

end Pool

section Fixed

variable {len a₀ e S : Nat} {s : Mm}

/-- The heap with its small blocks, if there is room for them. -/
theorem initFixed_view (h : HeapView len a₀ e ⟨s, []⟩ [⟨a₀, 8, false⟩] [] (8 + S) false)
    (hrep : Rep a₀ e [] s [⟨a₀, 8, false⟩, ⟨a₀ + 16, S, true⟩]) (haligned : a₀ % 4 = 0)
    (hfixed : s.fixedmblk = 0) :
    ∃ priv free c, HeapView len a₀ e ⟨s.initFixed, []⟩ priv [] free c := by
  have hlimit : 4128 ≤ sizeLimit := by decide
  have halloc : s.alloc (mmTlfBlkSize + mblkPoolSize) = s.tlsfAlloc 4128 := by
    unfold Mm.alloc
    rw [if_neg (by decide), if_neg fun hc => hc.1 hfixed]
    rfl
  unfold Mm.initFixed
  rw [halloc]
  rcases h.tlsfAlloc hlimit with hnone | ⟨x, t, free', c', ht, hle, -, -, -, -, h', hmem⟩
  · rw [hnone]
    exact ⟨_, _, _, h⟩
  · replace hle : 4128 ≤ x.size := (allocSize_spec hlimit).1.trans hle
    have hx := (h'.bounds (List.mem_cons_of_mem _ List.mem_cons_self : x ∈ _ :: [x])).2.2
    have htop := hrep.region.top
    -- it is the block that was free
    have haddr : x.addr = a₀ + 16 := by
      rcases hrep.tlsfAlloc hlimit with hnone | ⟨f, hf, hffree, hspec⟩
      · rw [ht] at hnone
        exact absurd (Prod.mk.inj hnone).1 (Nat.succ_ne_zero _)
      · obtain ⟨pre, post, hbs⟩ := List.append_of_mem hf
        obtain ⟨n, rest, t', ht', -⟩ := hspec pre post hbs
        rw [ht] at ht'
        have hptr := (Prod.mk.inj ht').1
        unfold Blk.ptr at hptr
        rcases List.mem_cons.mp hf with rfl | hf
        · cases hffree
        · rw [List.mem_singleton.mp hf] at hptr
          exact Nat.add_right_cancel hptr
    have hsmall : t.small = [] ∧ t.pool.blkAvail = 0 := by
      rcases h'.priv with ⟨-, -, hnone, havail⟩ | ⟨fb, hpriv, -⟩
      · exact ⟨hnone, havail⟩
      · cases hpriv
    obtain ⟨hstops, hwhole, hnode, hblocks⟩ := @smallBlocks (x.ptr + 32) (by omega) (by
      unfold Blk.ptr
      omega)
    have hS : x.ptr + 32 < 2 ^ 32 := by
      unfold Blk.ptr
      omega
    have hcheck : mblkPoolCheck (x.ptr + mblkPoolSize) defFixBlkSize mmTlfBlkSize = none := by
      unfold mblkPoolCheck mblkPoolSize defFixBlkSize mmTlfBlkSize Blk.ptr
      rw [if_neg (by omega), if_neg (by decide), if_neg (by omega), if_neg (by decide),
        if_neg (by decide)]
    have hinit := @poolInit_of_lt t.mem _ _ _ _ 4096 hS hstops (by decide)
    obtain ⟨fr, hinv⟩ := @poolInit_inv t.mem _ _ _ _ hS hstops
    rw [hwhole] at hinit hinv
    have hinit' : mblkPoolInit mmTlfBlkSize t.mem (x.ptr + mblkPoolSize) defFixBlkSize mmTlfBlkSize
        = _ := hinit
    have hne : x.ptr ≠ 0 := Nat.succ_ne_zero _
    rw [ht]
    dsimp only
    rw [if_neg hne, hcheck, hinit']
    dsimp only
    have hptr : x.ptr - mmlistHeadSize = x.addr := Nat.add_sub_cancel _ _
    rw [hptr]
    -- the links are written in the block
    have hframe : ∀ w, ¬(x.addr + 8 ≤ w ∧ w < x.addr + 8 + x.size) →
        Function.update (linkMem t.mem (x.ptr + 32) 32 127) (node (x.ptr + 32) 32 127) 0 w
          = t.mem w := by
      intro w hw
      have hw' : ∀ j < 128, w ≠ node (x.ptr + 32) 32 j := by
        intro j hj heq
        rw [hnode j hj.le] at heq
        unfold Blk.ptr at heq
        omega
      rw [Function.update_of_ne (hw' 127 (by omega)), linkMem_of_ne fun j hj => hw' j (by omega)]
    obtain ⟨as, hperm, hhas⟩ := h'.has
    have hmemx : x ∈ as := hperm.mem_iff.mpr (List.mem_cons_of_mem _ List.mem_cons_self)
    have hxfree := (hhas.bounds hmemx).1
    refine ⟨[⟨a₀, 8, false⟩, x], free', c',
      ⟨as, hperm, hhas.write (fun w hw => hframe w ?_) rfl rfl rfl⟩,
      Or.inr ⟨x, rfl, haddr, rfl, hxfree, ?_, _, fr, hblocks, ?_, ?_⟩, ?_, ?_, h'.whole, ?_⟩
    · exact fun hin => hw ⟨x, hmemx, hxfree, hin.1, hin.2⟩
    · unfold mblkPoolSize mmTlfBlkSize
      omega
    · rw [List.length_map, List.length_range']
      decide
    · have hnil : ∀ u : Mm, (u.removesize mmTlfBlkSize).small = u.small := fun _ => rfl
      rw [hnil]
      dsimp only
      rw [hsmall.1]
      exact hinv
    · have hnil : ∀ u : Mm, (u.removesize mmTlfBlkSize).small = u.small := fun _ => rfl
      dsimp only
      rw [hnil]
      dsimp only
      rw [hsmall.1]
      exact List.Perm.refl _
    · have hused := h'.lt_used List.mem_cons_self
      have hcounted := h'.counted
      dsimp only at hused hcounted
      rw [hsmall.2] at hcounted
      obtain ⟨h1, h2, h3, h4, h5, h6, h7⟩ := hcounted.removesize (n := 4096) (by omega)
      exact ⟨h1, h2, h3, h4, h5, h6, h7⟩
    · exact h'.info.congr rfl fun w _ hw => hframe w (by omega)

end Fixed

/-! ## The whole heap -/

section Init

variable {mem : Nat → Nat} {addr len : Nat} {s : Mm}

/-- What is given is taken from the first word on. -/
theorem initMmHead_eq (h : initMmHead mem addr len = some s) (hfits : addr + len ≤ 2 ^ 32) :
    s = initMm mem (mmAlignUp addr) (heapLen addr len) ∧ 0 < mmAlignUp addr ∧
      mmAlignUp addr % 4 = 0 ∧ heapLen addr len % 4 = 0 ∧ 5120 ≤ heapLen addr len ∧
      heapLen addr len ≤ 2 ^ maxMmBit ∧ mmAlignUp addr + heapLen addr len ≤ addr + len := by
  unfold initMmHead at h
  dsimp only at h
  split_ifs at h with hzero hlen
  have hbig : ∀ n : Nat, ¬(n = 0 ∨ n < 1024 + mmTlfBlkSize ∨ n > 2 ^ maxMmBit) →
      5120 ≤ n ∧ n ≤ 1048576 := by
    intro n hn
    unfold mmTlfBlkSize maxMmBit at hn
    omega
  obtain ⟨hlow, hhigh⟩ := hbig _ hlen
  -- the length does not wrap around
  have heq : mmAlignDown ((len + 2 ^ 32 - (mmAlignUp addr + 2 ^ 32 - addr) % 2 ^ 32) % 2 ^ 32)
      = heapLen addr len := by
    unfold mmAlignUp mmAlignDown at hlow hhigh
    unfold heapLen mmAlignUp mmAlignDown
    omega
  rw [heq] at h hlow hhigh
  refine ⟨(Option.some.inj h).symm, ?_, ?_, ?_, hlow, hhigh, ?_⟩
  · unfold heapLen mmAlignDown at hlow
    unfold mmAlignUp at hlow ⊢
    omega
  · exact Nat.mul_mod_left _ 4
  · exact Nat.mul_mod_left _ 4
  · unfold heapLen mmAlignDown at hlow ⊢
    unfold mmAlignUp at hlow ⊢
    omega

/-- `krhino_init_mm_head` leaves a heap that its users can rely on. -/
theorem initMmHead_view (h : initMmHead mem addr len = some s) (hfits : addr + len ≤ 2 ^ 32) :
    ∃ priv free c, HeapView (heapLen addr len) (heapStart addr) (heapEnd addr len) ⟨s, []⟩ priv []
      free c := by
  obtain ⟨rfl, hpos, haddr, hlen, hlow, hhigh, hend⟩ := initMmHead_eq h hfits
  have hpow : (2 : Nat) ^ maxMmBit = 1048576 := by decide
  have hhead : kMmHeadSize = 1952 := by decide
  obtain ⟨S, hS⟩ : ∃ S, heapLen addr len = S + 1984 := ⟨heapLen addr len - 1984, by omega⟩
  have hstop : heapEnd addr len = heapStart addr + 24 + S := by
    unfold heapEnd heapStart mmlistHeadSize
    omega
  have hstart : heapStart addr % 4 = 0 := by
    unfold heapStart
    omega
  have hdown : mmAlignDown (heapLen addr len - kMmHeadSize) = S + 32 := by
    unfold mmAlignDown
    omega
  have hfirst : 0 < heapStart addr := by
    unfold heapStart
    omega
  have htop : heapStart addr + 24 + S + 8 ≤ 2 ^ 32 := by
    unfold heapStart
    omega
  have hlast : S % 4 = 0 := by omega
  obtain ⟨hrep, honly, hinfo⟩ :=
    @rawMm_free mem (heapStart addr) _ S hfirst rfl hlast (by omega) htop (by omega)
  -- where the second block is, and how long it is
  have hnext : nextMmBlk (heapStart addr + mmlistHeadSize)
      (blksize ((rawMm mem (heapStart addr) (S + 32)).size (heapStart addr)))
      = heapStart addr + 16 := by
    have hsize := (@initMmRegion_headers mem (heapStart addr) _ S rfl hlast).1
    have height : blksize 8 = 8 := by decide
    unfold nextMmBlk mmlistHeadSize
    rw [rawMm_size, hsize, height]
    exact Nat.mod_eq_of_lt (by omega)
  have hblk : blksize (((rawMm mem (heapStart addr) (S + 32)).free (heapStart addr + 24)).size
      (heapStart addr + 16)) = S := by
    have hheader := hrep.chain.2.2.2.2.2.2.2.1.1
    have hsize : ((rawMm mem (heapStart addr) (S + 32)).free (heapStart addr + 24)).size
        (heapStart addr + 16) = S + true.toNat + 2 * false.toNat := hheader
    rw [hsize]
    exact blksize_tag hlast true false
  have heq : initMm mem (mmAlignUp addr) (heapLen addr len) =
      Mm.initFixed { (rawMm mem (heapStart addr) (S + 32)).free (heapStart addr + 24) with
        freeSize := S
        usedSize := heapLen addr len - S
        maxusedSize := heapLen addr len - S
        clamps := 0
        usedLog := [heapLen addr len - S] } := by
    have hraw : initMm mem (mmAlignUp addr) (heapLen addr len) =
        (let s := rawMm mem (heapStart addr) (mmAlignDown (heapLen addr len - kMmHeadSize))
         let nextblk := nextMmBlk (heapStart addr + mmlistHeadSize)
           (blksize (s.size (heapStart addr)))
         let s := s.free (nextblk + mmlistHeadSize)
         Mm.initFixed { s with
           freeSize := blksize (s.size nextblk)
           usedSize := heapLen addr len - blksize (s.size nextblk)
           maxusedSize := heapLen addr len - blksize (s.size nextblk)
           clamps := 0
           usedLog := [heapLen addr len - blksize (s.size nextblk)] }) := rfl
    rw [hraw, hdown]
    dsimp only
    rw [hnext]
    unfold mmlistHeadSize
    rw [hblk]
  rw [heq, hstop]
  have hpool := honly.pool
  have hfixed := honly.fixedmblk
  have hsmall := honly.small
  refine initFixed_view (S := S)
    ⟨⟨_, List.Perm.refl _, _, hrep.onlyNumbers rfl rfl rfl rfl, rfl, ?_⟩, ?_,
    ?_, ?_, ?_, hinfo.congr rfl fun _ _ _ => rfl⟩ (hrep.onlyNumbers rfl rfl rfl rfl) hstart hfixed
  · rw [freeBytes_cons_alloc rfl, freeBytes_cons_free rfl]
    rfl
  · refine Or.inl ⟨rfl, hfixed, hsmall, ?_⟩
    dsimp only
    rw [hpool]
    rfl
  · dsimp only
    rw [hsmall]
    exact List.Perm.refl _
  · dsimp only
    rw [hpool]
    refine ⟨?_, ?_, fun _ => ?_, rfl, List.mem_cons_self, List.mem_cons_self, fun u hu => ?_⟩
    · change heapLen addr len - S + (8 + S + 32 * 0) = _
      omega
    · change S = 8 + S + 32 * 0 - 8
      omega
    · change 16 ≤ 8 + S + 32 * 0
      omega
    · exact Nat.le_of_eq (List.mem_singleton.mp hu)
  · refine ⟨?_, hhigh⟩
    unfold heapStart
    omega

end Init

end Rhino

end Wujian100
