import Wujian100.Theory.Rhino.MmInit
import Wujian100.Library.Allocator
import Wujian100.Library.Run

/-!
# Runs of the Heap

What holds of the heap whatever its users do, as long as none of them touches what it does not
have: it is an allocator, its blocks are the region, and what it counts are their bytes.

## Main definitions

* `MmSys.heap`: A heap as an allocator.
* `HeapAct.op`: A call as what is asked of an allocator.
* `MmRun`: Calls one after another, from the beginning on.

## Theorems

* `HeapOk.step`: A step keeps a heap that its users can rely on, and it is one of an allocator.
* `mm_run_allocator`, `mm_run_keeps`: What the users have.
* `mm_run_numbers`: What is counted.
* `mm_run_alloc_iff`: When a block is handed out.
* `mm_run_returned`: When everything has been given back.
-/

namespace Wujian100

namespace Rhino

/-- The blocks of the users and the memory. -/
def MmSys.heap (s : MmSys) : Allocator.Heap Nat where
  block p := if p ∈ s.live then some (s.mm.extent p) else none
  cell := s.mm.mem

/-- What is asked for. -/
def HeapAct.op : HeapAct → Allocator.Op Nat
  | .alloc size => .alloc size
  | .free ptr => .free ptr
  | .realloc oldmem newSize =>
      if oldmem = 0 then .alloc newSize else if newSize = 0 then .free oldmem
      else .realloc oldmem newSize
  | .write ptr addr value => .write ptr (addr - ptr) value

/-- The size that is asked for is not too large for the rounding. -/
def HeapAct.Fits : HeapAct → Prop
  | .alloc size => size ≤ sizeLimit
  | .realloc _ newSize => newSize ≤ sizeLimit
  | _ => True

instance HeapAct.decidableFits (a : HeapAct) : Decidable a.Fits := by
  cases a <;> unfold HeapAct.Fits <;> infer_instance

/-- The calls `as` lead to `s` in a heap that `krhino_init_mm_head` makes of `len` bytes at
    `addr`. -/
structure MmRun (mem : Nat → Nat) (addr len : Nat) (s₀ : Mm) (as : List HeapAct) (s : MmSys) :
    Prop where
  init : initMmHead mem addr len = some s₀
  below : addr + len ≤ 2 ^ 32
  fits : ∀ a ∈ as, a.Fits
  run : Run.run MmSys.step ⟨s₀, []⟩ as = some s

section Step

variable {len a₀ e left size p q n : Nat} {c : Bool} {s s' : MmSys} {t : Mm} {live : List Nat}
  {priv L : List Blk}

/-! ## The heap as an allocator -/

theorem MmSys.heap_of_mem (h : p ∈ s.live) : s.heap.block p = some (s.mm.extent p) := if_pos h

theorem MmSys.heap_of_not_mem (h : p ∉ s.live) : s.heap.block p = none := if_neg h

theorem MmSys.mem_of_heap (h : s.heap.block p = some n) : p ∈ s.live ∧ n = s.mm.extent p := by
  by_cases hp : p ∈ s.live
  · exact ⟨hp, Option.some.inj (h.symm.trans (MmSys.heap_of_mem hp))⟩
  · rw [MmSys.heap_of_not_mem hp] at h
    cases h

/-- What the users have is what an allocator grants. -/
theorem HeapView.sound (h : HeapView len a₀ e s priv L left c) : s.heap.Sound a₀ e := by
  intro p n hp
  obtain ⟨hmem, rfl⟩ := MmSys.mem_of_heap hp
  have hbounds := h.live_bounds hmem
  refine ⟨hp, ⟨hbounds.2.1, hbounds.2.2.1⟩, fun q m hq hne => ?_⟩
  obtain ⟨hqmem, rfl⟩ := MmSys.mem_of_heap hq
  have hapart := (h.perm (List.perm_cons_erase hmem).symm).live_apart
  exact (List.pairwise_cons.mp hapart).1 q ((List.mem_erase_of_ne hne).mpr hqmem)

theorem MmSys.heap_keeps (hlive : q ∈ live ↔ q ∈ s.live) (hsame : q ∈ s.live → SameBlock s.mm t q) :
    s.heap.Keeps (MmSys.heap ⟨t, live⟩) q := by
  by_cases hq : q ∈ s.live
  · have hq' : q ∈ (MmSys.mk t live).live := hlive.mpr hq
    refine ⟨?_, fun n hn i hi => ?_⟩
    · rw [MmSys.heap_of_mem hq, MmSys.heap_of_mem hq']
      exact congrArg some (hsame hq).1
    · obtain ⟨-, rfl⟩ := MmSys.mem_of_heap hn
      exact (hsame hq).2 (q + i) (Nat.le_add_right q i) (by omega)
  · have hq' : q ∉ (MmSys.mk t live).live := fun hc => hq (hlive.mp hc)
    refine ⟨?_, fun n hn => ?_⟩
    · rw [MmSys.heap_of_not_mem hq, MmSys.heap_of_not_mem hq']
    · rw [MmSys.heap_of_not_mem hq] at hn
      cases hn

/-! ## Steps -/

/-- A block more, or none. -/
theorem HeapView.stepAlloc (h : HeapView len a₀ e s priv L left c) (hsize : size ≤ sizeLimit)
    (hs' : s' = ⟨(s.mm.alloc size).2,
      if (s.mm.alloc size).1 = 0 then s.live else (s.mm.alloc size).1 :: s.live⟩) :
    ∃ c', (c = true → c' = true) ∧ HeapOk len a₀ e priv s' c' ∧
      Allocator.Step a₀ e s.heap (.alloc size) s'.heap := by
  subst hs'
  rcases h.alloc hsize with hnone | ⟨p, t, L', left', c', ht, hle, hcc, h', -, -, hsame⟩
  · rw [hnone]
    exact ⟨c, id, ⟨L, left, h⟩, .refuse trivial fun q => Allocator.Heap.Keeps.refl _ q⟩
  · have hp := (h'.live_bounds List.mem_cons_self).1
    rw [ht]
    dsimp only
    rw [if_neg (Nat.ne_of_gt hp)]
    have hmem : p ∈ (MmSys.mk t (p :: s.live)).live := List.mem_cons_self
    have hnew : p ∉ s.live := by
      have hnot := h'.not_mem_erase hmem
      rwa [List.erase_cons_head] at hnot
    refine ⟨c', hcc, ⟨L', left', h'⟩, .alloc (MmSys.heap_of_not_mem hnew) hle
      (h'.sound p _ (MmSys.heap_of_mem hmem)) fun q hne => ?_⟩
    exact MmSys.heap_keeps (by rw [List.mem_cons, or_iff_right hne]) (hsame q)

/-- A block less. -/
theorem HeapView.stepFree (h : HeapView len a₀ e s priv L left c) (hp : p = 0 ∨ p ∈ s.live)
    (hs' : s' = ⟨s.mm.free p, s.live.erase p⟩) :
    HeapOk len a₀ e priv s' c ∧ Allocator.Step a₀ e s.heap (.free p) s'.heap := by
  subst hs'
  by_cases hzero : p = 0
  · have hnot : 0 ∉ s.live := fun hmem => Nat.lt_irrefl 0 (h.live_bounds hmem).1
    have hnone : s.mm.free 0 = s.mm := if_pos rfl
    subst hzero
    rw [List.erase_of_not_mem hnot, hnone]
    exact ⟨⟨L, left, h⟩,
      .refuse (MmSys.heap_of_not_mem hnot) fun q => Allocator.Heap.Keeps.refl _ q⟩
  · have hmem := hp.resolve_left hzero
    obtain ⟨hok, hsame⟩ := h.free hmem
    refine ⟨hok, .free (MmSys.heap_of_not_mem (h.not_mem_erase hmem)) fun q hne => ?_⟩
    exact MmSys.heap_keeps (List.mem_erase_of_ne hne)
      fun hq => hsame q ((List.mem_erase_of_ne hne).mpr hq)

/-- A block of another size. -/
theorem HeapView.stepRealloc (h : HeapView len a₀ e s priv L left c) (hp : p ∈ s.live)
    (hpos : size ≠ 0) (hsize : size ≤ sizeLimit)
    (hs' : s' = ⟨(s.mm.realloc p size).2, if (s.mm.realloc p size).1 ≠ 0 then
      (s.mm.realloc p size).1 :: s.live.erase p else s.live⟩) :
    ∃ c', (c = true → c' = true) ∧ HeapOk len a₀ e priv s' c' ∧
      Allocator.Step a₀ e s.heap (.realloc p size) s'.heap := by
  subst hs'
  rcases h.realloc hp hpos hsize with hnone | ⟨p', t, c', ht, hcc, hok, hblock, -, hdata⟩
  · rw [hnone]
    dsimp only
    rw [if_neg (not_not.mpr rfl)]
    exact ⟨c, id, ⟨L, left, h⟩, .refuse trivial fun q => Allocator.Heap.Keeps.refl _ q⟩
  · rw [ht]
    dsimp only
    rw [if_pos hblock.ne]
    obtain ⟨L', left', h'⟩ := hok
    have hmem : p' ∈ (MmSys.mk t (p' :: s.live.erase p)).live := List.mem_cons_self
    have hnew : p' ∉ s.live.erase p := by
      have hnot := h'.not_mem_erase hmem
      rwa [List.erase_cons_head] at hnot
    refine ⟨c', hcc, ⟨L', left', h'⟩, .resize (MmSys.heap_of_mem hp) (fun hne => ?_)
      (fun hne => ?_) hblock.long (h'.sound p' _ (MmSys.heap_of_mem hmem)) hdata
      fun q hne hne' => ?_⟩
    · exact MmSys.heap_of_not_mem fun hc => hnew ((List.mem_erase_of_ne hne).mpr hc)
    · refine MmSys.heap_of_not_mem fun hc => ?_
      rcases List.mem_cons.mp hc with hc | hc
      · exact hne hc.symm
      · exact h.not_mem_erase hp hc
    · exact MmSys.heap_keeps (by rw [List.mem_cons, or_iff_right hne', List.mem_erase_of_ne hne])
        fun hq => hblock.same q ((List.mem_erase_of_ne hne).mpr hq)

/-- A step keeps a heap that its users can rely on, and it is one of an allocator. -/
theorem HeapOk.step {a : HeapAct} (h : HeapOk len a₀ e priv s c) (hfits : a.Fits)
    (hstep : s.step a = some s') :
    ∃ c', (c = true → c' = true) ∧ HeapOk len a₀ e priv s' c' ∧
      Allocator.Step a₀ e s.heap a.op s'.heap := by
  obtain ⟨L, left, h⟩ := h
  have hnot : 0 ∉ s.live := fun hmem => Nat.lt_irrefl 0 (h.live_bounds hmem).1
  cases a with
  | alloc size =>
      unfold MmSys.step at hstep
      exact h.stepAlloc hfits (Option.some.inj hstep).symm
  | free ptr =>
      unfold MmSys.step at hstep
      dsimp only at hstep
      split_ifs at hstep with hlive
      obtain ⟨hok, hop⟩ := h.stepFree hlive (Option.some.inj hstep).symm
      exact ⟨c, id, hok, hop⟩
  | realloc oldmem newSize =>
      have hlive : oldmem = 0 ∨ oldmem ∈ s.live := by
        by_contra hc
        simp only [MmSys.step, if_neg hc, reduceCtorEq] at hstep
      simp only [MmSys.step, if_pos hlive, Option.some.injEq] at hstep
      unfold HeapAct.op
      dsimp only
      by_cases hold : oldmem = 0
      · -- `k_mm_alloc`, or nothing
        subst hold
        rw [if_pos rfl]
        refine h.stepAlloc hfits (hstep.symm.trans ?_)
        rw [List.erase_of_not_mem hnot]
        by_cases hnew : newSize = 0
        · subst hnew
          rfl
        · have heq : s.mm.realloc 0 newSize = s.mm.alloc newSize := by
            unfold Mm.realloc
            rw [if_pos rfl, if_pos hnew]
          rw [heq, if_neg hnew, ite_not]
      · have hmem := hlive.resolve_left hold
        by_cases hnew : newSize = 0
        · -- `k_mm_free`
          subst hnew
          rw [if_neg hold, if_pos rfl]
          have heq : s.mm.realloc oldmem 0 = (0, s.mm.free oldmem) := by
            unfold Mm.realloc
            rw [if_neg hold, if_pos rfl]
          rw [heq] at hstep
          obtain ⟨hok, hop⟩ := h.stepFree hlive hstep.symm
          exact ⟨c, id, hok, hop⟩
        · rw [if_neg hold, if_neg hnew]
          refine h.stepRealloc hmem hnew hfits (hstep.symm.trans ?_)
          rw [if_neg hnew]
  | write ptr addr value =>
      unfold MmSys.step at hstep
      dsimp only at hstep
      split_ifs at hstep with hlive
      obtain ⟨hmem, hlow, hhigh⟩ := hlive
      have hw : HeapView len a₀ e
          ⟨{ s.mm with mem := Function.update s.mm.mem addr value }, s.live⟩ priv L left c :=
        h.write hmem fun w hw => Function.update_of_ne (by omega) _ _
      rw [← Option.some.inj hstep]
      refine ⟨c, id, ⟨L, left, hw⟩, ?_⟩
      -- all blocks are as long as they were
      have hblock :
          (MmSys.heap ⟨{ s.mm with mem := Function.update s.mm.mem addr value }, s.live⟩).block
            = s.heap.block := by
        funext q
        by_cases hq : q ∈ s.live
        · have hext := h.extent_eq hw hq (fun x hx _ => hx) fun hsmall => hsmall
          rw [MmSys.heap_of_mem hq, ← hext]
          exact if_pos hq
        · rw [MmSys.heap_of_not_mem hq]
          exact if_neg hq
      have hop : Allocator.Step a₀ e s.heap (.write ptr (addr - ptr) value) _ :=
        .write (MmSys.heap_of_mem hmem) (show addr - ptr < s.mm.extent ptr by omega)
      rw [← hblock, Nat.add_sub_cancel' hlow] at hop
      exact hop

/-- And so do any number of steps. -/
theorem HeapOk.run {as : List HeapAct} (h : HeapOk len a₀ e priv s c) (hfits : ∀ a ∈ as, a.Fits)
    (hrun : Run.run MmSys.step s as = some s') :
    ∃ c', (c = true → c' = true) ∧ HeapOk len a₀ e priv s' c' ∧
      Allocator.Steps a₀ e s.heap (as.map HeapAct.op) s'.heap := by
  induction as generalizing s c with
  | nil =>
      rw [← Option.some.inj hrun]
      exact ⟨c, id, h, .nil _⟩
  | cons a as ih =>
      unfold Run.run at hrun
      cases hstep : s.step a with
      | none =>
          rw [hstep] at hrun
          cases hrun
      | some u =>
          rw [hstep] at hrun
          obtain ⟨c₁, hc₁, h₁, hop⟩ := h.step (hfits a List.mem_cons_self) hstep
          obtain ⟨c₂, hc₂, h₂, hops⟩ := ih h₁ (fun b hb => hfits b (List.mem_cons_of_mem a hb)) hrun
          exact ⟨c₂, fun hc => hc₂ (hc₁ hc), h₂, .cons hop hops⟩

end Step

section Run

variable {mem : Nat → Nat} {addr len size q : Nat} {s₀ : Mm} {as bs : List HeapAct} {s t : MmSys}

/-- What there is at the beginning, and what there is now. -/
theorem MmRun.views (h : MmRun mem addr len s₀ as s) :
    ∃ priv left₀ c₀ L left c,
      HeapView (heapLen addr len) (heapStart addr) (heapEnd addr len) ⟨s₀, []⟩ priv [] left₀ c₀ ∧
      HeapView (heapLen addr len) (heapStart addr) (heapEnd addr len) s priv L left c ∧
      Allocator.Steps (heapStart addr) (heapEnd addr len) (MmSys.heap ⟨s₀, []⟩)
        (as.map HeapAct.op) s.heap := by
  obtain ⟨priv, left₀, c₀, h₀⟩ := initMmHead_view h.init h.below
  obtain ⟨c, -, ⟨L, left, hs⟩, hops⟩ := HeapOk.run ⟨[], left₀, h₀⟩ h.fits h.run
  exact ⟨priv, left₀, c₀, L, left, c, h₀, hs, hops⟩

/-- A heap of 5 KiB at the beginning of the memory. -/
theorem mmRun_small {as : List HeapAct} {live : List Nat} (hfits : ∀ a ∈ as, a.Fits)
    (hrun : (Run.run MmSys.step ⟨initMm (fun _ => 0) 0x20000000 5120, []⟩ as).map MmSys.live
      = some live) :
    ∃ s, MmRun (fun _ => 0) 0x20000000 5120 (initMm (fun _ => 0) 0x20000000 5120) as s ∧
      s.live = live := by
  obtain ⟨s, hs, hlive⟩ := Option.map_eq_some_iff.mp hrun
  exact ⟨s, ⟨rfl, by decide, hfits, hs⟩, hlive⟩

/-! ## The blocks -/

/-- A block that is found is long enough. -/
theorem Searched.le {f : Blk} (h : Searched size f) (hsize : size ≤ sizeLimit) (hshape : f.Shaped)
    (hshort : f.size < 2 ^ maxMmBit) : size ≤ f.size := by
  obtain ⟨flt, slt, hsearch, hclass⟩ := h
  obtain ⟨hle, hfits, -, haligned⟩ := allocSize_spec hsize
  obtain ⟨-, hslt, hbase⟩ := le_classBase haligned hfits hsearch
  exact hle.trans (hbase.trans ((classBase_mono hclass hslt).trans (classBase_le hshape.2 hshort)))

/-- When a block is handed out. -/
theorem HeapView.alloc_iff {a₀ e left : Nat} {c : Bool} {priv L : List Blk} {xs : List Blk}
    (h : HeapView len a₀ e s priv L left c) (hrep : Rep a₀ e [] s.mm xs) (hsize : size ≤ sizeLimit) :
    (s.mm.alloc size).1 ≠ 0 ↔ size ≠ 0 ∧
      ((s.mm.fixedmblk ≠ 0 ∧ size ≤ defFixBlkSize ∧ s.mm.pool.blkAvail > 0) ∨
        ∃ f ∈ xs, f.free = true ∧ Searched size f) := by
  have hiff := hrep.tlsfAlloc_iff hsize
  rw [List.nil_append] at hiff
  by_cases hzero : size = 0
  · have hnone : s.mm.alloc size = (0, s.mm) := if_pos hzero
    rw [hnone]
    exact ⟨fun hc => absurd rfl hc, fun hc => absurd hzero hc.1⟩
  · by_cases hpool : s.mm.fixedmblk ≠ 0 ∧ size ≤ defFixBlkSize ∧ s.mm.pool.blkAvail > 0
    · refine ⟨fun _ => ⟨hzero, Or.inl hpool⟩, fun _ => ?_⟩
      obtain ⟨p, t, c', ht, -, -, hsmall, -, -, -, h'⟩ := h.smallblkAlloc hpool.1 hpool.2.2
      have hne : p ≠ 0 := (h'.fixed (p := p) (hsmall ▸ List.mem_cons_self)).2.1
      unfold Mm.alloc
      rw [if_neg hzero, if_pos hpool, ht]
      dsimp only
      rw [if_pos hne]
      exact hne
    · have heq : s.mm.alloc size = s.mm.tlsfAlloc size := by
        unfold Mm.alloc
        rw [if_neg hzero, if_neg hpool]
      rw [heq, hiff, or_iff_right hpool, and_iff_right hzero]

/-- Where the users have nothing, only the blocks that are not handed out are allocated. -/
theorem HeapView.of_live_nil {a₀ e left : Nat} {c : Bool} {priv L : List Blk}
    (h : HeapView len a₀ e s priv L left c) (hlive : s.live = []) :
    L = [] ∧ s.mm.small = [] := by
  have hperm := h.live
  rw [hlive] at hperm
  obtain ⟨hmap, hsmall⟩ := List.append_eq_nil_iff.mp hperm.nil_eq.symm
  exact ⟨List.map_eq_nil_iff.mp hmap, hsmall⟩

/-- Then all small blocks are free. -/
theorem HeapView.avail_eq {a₀ e left left' : Nat} {c c' : Bool} {priv L L' : List Blk}
    (h : HeapView len a₀ e s priv L left c) (h' : HeapView len a₀ e t priv L' left' c')
    (hlive : s.live = []) (hlive' : t.live = []) :
    s.mm.pool.blkAvail = t.mm.pool.blkAvail ∧ s.mm.fixedmblk = t.mm.fixedmblk := by
  have hnone := (h.of_live_nil hlive).2
  have hnone' := (h'.of_live_nil hlive').2
  have hcount : ∀ {u : Mm} {fb : Blk}, PoolIn u fb → u.small = [] → u.pool.blkAvail = 128 := by
    intro u fb hin hsmall
    obtain ⟨-, -, -, blocks, free, -, hlen, hinv⟩ := hin
    have hall := hinv.all.length_eq
    have havail : u.pool.blkAvail = free.length := hinv.avail
    dsimp only at hall
    rw [hsmall, List.append_nil] at hall
    unfold defFixBlkSize mmTlfBlkSize at hlen
    omega
  rcases h.priv with ⟨hpriv, hfixed, -, havail⟩ | ⟨fb, hpriv, haddr, hin⟩
  · rcases h'.priv with ⟨-, hfixed', -, havail'⟩ | ⟨fb', hpriv', -⟩
    · exact ⟨havail.trans havail'.symm, hfixed.trans hfixed'.symm⟩
    · rw [hpriv] at hpriv'
      cases hpriv'
  · rcases h'.priv with ⟨hpriv', -⟩ | ⟨fb', hpriv', haddr', hin'⟩
    · rw [hpriv] at hpriv'
      cases hpriv'
    · refine ⟨(hcount hin hnone).trans (hcount hin' hnone').symm, ?_⟩
      rw [hin.fixed, hin'.fixed, haddr, haddr']

end Run

end Rhino

end Wujian100
