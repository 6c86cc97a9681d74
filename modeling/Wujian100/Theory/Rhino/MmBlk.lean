import Wujian100.Core.Rhino.MmBlk
import Wujian100.Library.Run
import Mathlib.Data.List.Nodup
import Mathlib.Data.List.Perm.Basic
import Mathlib.Data.List.Range
import Mathlib.Tactic.Ring

/-!
# Blocks Stay Apart

The loop that links the blocks of a pool goes from one address to the next, block
size by block size and around the end of the address space if it comes there. What
it leaves is a list whose first nodes are the blocks, and as many of them as
`blk_avail` says; a node behind them, for what is left of the pool, is never taken,
since frees put blocks in front of it.

So a pool does what it is for exactly when the loop ends and its first nodes lie in
the pool, which is a matter of arithmetic: `MblkFits`.

## Main definitions

* `node`, `MblkStops`: Where the loop is, and when it ends.
* `MblkOk`, `MblkServes`: What a pool is for.
* `MblkFits`: When it does this.

## Theorems

* `link_stops`: What the loop leaves.
* `step_mblkInv`: What a step keeps.
* `serves_iff_stops`: A pool serves where the loop ends with blocks of the pool.
* `mblk_serves_iff`: And where that is.
* `mblk_zero_endless`: Blocks of no bytes are linked for ever.
-/

namespace Wujian100

namespace Rhino

/-! ## The loop -/

/-- The address the loop is at after so many turns. -/
def node (poolStart blkSize i : Nat) : Nat := (poolStart + i * blkSize) % 2 ^ 32

/-- The loop ends after `m` turns. -/
structure MblkStops (poolStart blkSize poolSize m : Nat) : Prop where
  ends : (poolStart + poolSize) % 2 ^ 32 ≤ node poolStart blkSize (m + 1)
  goes : ∀ j < m, node poolStart blkSize (j + 1) < (poolStart + poolSize) % 2 ^ 32

/-- The blocks counted then. -/
def wholeOf (poolStart blkSize poolSize m : Nat) : Nat :=
  if node poolStart blkSize (m + 1) = (poolStart + poolSize) % 2 ^ 32 then m + 1 else m

/-- Memory after so many turns. -/
def linkMem (mem : Nat → Nat) (poolStart blkSize : Nat) : Nat → Nat → Nat
  | 0 => mem
  | i + 1 => Function.update (linkMem mem poolStart blkSize i) (node poolStart blkSize i)
      (node poolStart blkSize (i + 1))

/-- The loop after so many turns. -/
def linkedAt (mem : Nat → Nat) (poolStart blkSize i : Nat) : MblkLinked where
  mem := linkMem mem poolStart blkSize i
  blks := i
  blkCur := node poolStart blkSize i
  blkNext := node poolStart blkSize (i + 1)

section Loop

variable {S B P m : Nat} {mem : Nat → Nat}

theorem node_succ (S B i : Nat) : node S B (i + 1) = (node S B i + B) % 2 ^ 32 := by
  unfold node
  rw [Nat.mod_add_mod, Nat.add_mul, Nat.one_mul, Nat.add_assoc]

theorem node_zero (hS : S < 2 ^ 32) : node S B 0 = S := by
  rw [node, Nat.zero_mul, Nat.add_zero, Nat.mod_eq_of_lt hS]

theorem wholeOf_le (S B P m : Nat) : wholeOf S B P m ≤ m + 1 := by
  unfold wholeOf
  split_ifs
  · omega
  · omega

theorem le_wholeOf (S B P m : Nat) : m ≤ wholeOf S B P m := by
  unfold wholeOf
  split_ifs
  · omega
  · omega

theorem link_goes {E i : Nat} (h : node S B (i + 1) < E) (t : Nat) :
    mblkLink B E (t + 1) (linkedAt mem S B i) = mblkLink B E t (linkedAt mem S B (i + 1)) := by
  rw [mblkLink, if_pos (by exact h)]
  unfold linkedAt
  dsimp only
  rw [← node_succ S B (i + 1)]
  rfl

/-- The loop takes as many turns as it goes on. -/
theorem link_run {E : Nat} (t i : Nat) (h : ∀ j < i, node S B (j + 1) < E) :
    mblkLink B E (t + i) (linkedAt mem S B 0) = mblkLink B E t (linkedAt mem S B i) := by
  induction i generalizing t with
  | zero => rfl
  | succ i ih =>
      rw [show t + (i + 1) = (t + 1) + i by omega, ih (t + 1) fun j hj => h j (by omega)]
      exact link_goes (h i (by omega)) t

/-- Where it ends, it ends at the first turn that does not go on. -/
theorem link_stops {E : Nat} {r : MblkLinked} (t i : Nat) (hi : ∀ j < i, node S B (j + 1) < E)
    (h : mblkLink B E t (linkedAt mem S B i) = some r) :
    ∃ m, (E ≤ node S B (m + 1) ∧ ∀ j < m, node S B (j + 1) < E) ∧ r = linkedAt mem S B m := by
  induction t generalizing i with
  | zero => cases h
  | succ t ih =>
      by_cases hgo : node S B (i + 1) < E
      · rw [link_goes hgo] at h
        refine ih (i + 1) ?_ h
        intro j hj
        rcases Nat.lt_succ_iff_lt_or_eq.mp hj with hj | rfl
        · exact hi j hj
        · exact hgo
      · rw [mblkLink, if_neg (by exact hgo)] at h
        exact ⟨i, ⟨by omega, hi⟩, (Option.some.inj h).symm⟩

/-- A node that was passed twice was linked twice alike. -/
theorem linkMem_node (i : Nat) : ∀ j < i, linkMem mem S B i (node S B j) = node S B (j + 1) := by
  induction i with
  | zero => intro j hj; omega
  | succ i ih =>
      intro j hj
      rw [linkMem]
      by_cases hsame : node S B j = node S B i
      · rw [hsame, Function.update_self, node_succ S B j, hsame, ← node_succ]
      · rw [Function.update_of_ne hsame]
        refine ih j ?_
        rcases Nat.lt_succ_iff_lt_or_eq.mp hj with hj | rfl
        · exact hj
        · exact absurd rfl hsame

/-- The last node is a new one, so that no link is lost when it gets none. -/
theorem last_node (h : MblkStops S B P m) :
    ∀ j < m, Function.update (linkMem mem S B m) (node S B m) 0 (node S B j) = node S B (j + 1) := by
  intro j hj
  have hne : node S B j ≠ node S B m := by
    intro hsame
    have hgo := h.goes j hj
    have hend := h.ends
    rw [node_succ, ← hsame, ← node_succ] at hend
    omega
  rw [Function.update_of_ne hne, linkMem_node m j hj]

/-- Where the loop begins. -/
theorem linkedAt_zero (hS : S < 2 ^ 32) :
    { mem := mem, blks := 0, blkCur := S, blkNext := (S + B) % 2 ^ 32 } = linkedAt mem S B 0 := by
  unfold linkedAt node linkMem
  rw [Nat.zero_mul, Nat.add_zero, Nat.mod_eq_of_lt hS, Nat.zero_add, Nat.one_mul]

/-- What `krhino_mblk_pool_init` leaves. -/
theorem poolInit_of_stops (hS : S < 2 ^ 32) (h : MblkStops S B P m) :
    mblkPoolInit (m + 1) mem S B P = some
      ({ valid := true, blkSize := B, blkAvail := wholeOf S B P m, blkWhole := wholeOf S B P m
         availList := S }, Function.update (linkMem mem S B m) (node S B m) 0) := by
  unfold mblkPoolInit
  dsimp only
  rw [linkedAt_zero hS, Nat.add_comm m 1, link_run 1 m h.goes, mblkLink,
    if_neg (by exact Nat.not_lt.mpr h.ends)]
  rfl

theorem stops_of_poolInit (hS : S < 2 ^ 32) {t : Nat} {r : MblkPool × (Nat → Nat)}
    (h : mblkPoolInit t mem S B P = some r) :
    ∃ m, MblkStops S B P m ∧ mblkPoolInit (m + 1) mem S B P = some r := by
  have hinit := h
  unfold mblkPoolInit at hinit
  dsimp only at hinit
  rw [linkedAt_zero hS, Option.map_eq_some_iff] at hinit
  rcases hinit with ⟨l, hl, hr⟩
  rcases link_stops t 0 (by intro j hj; omega) hl with ⟨m, ⟨hend, hgo⟩, rfl⟩
  refine ⟨m, ⟨hend, hgo⟩, ?_⟩
  rw [poolInit_of_stops hS ⟨hend, hgo⟩, ← hr]
  rfl

end Loop

/-! ## What a pool is for -/

/-- So many allocations in a row succeed. -/
def Mblk.grants : Nat → Mblk → Prop
  | 0, _ => True
  | n + 1, s => s.alloc.1.1 = .success ∧ s.alloc.2.grants n

/-- The blocks that are allocated have the size asked for, lie in the pool and have
    nothing in common; there are never more of them than `blk_whole`; `blk_avail` is the
    number of those that can still be had, and no allocation fails before it is 0. -/
structure MblkOk (poolStart blkSize poolSize : Nat) (s : Mblk) : Prop where
  size : s.pool.blkSize = blkSize
  apart : s.allocated.Pairwise fun a b => a + blkSize ≤ b ∨ b + blkSize ≤ a
  inside : ∀ b ∈ s.allocated, poolStart ≤ b ∧ b + blkSize ≤ poolStart + poolSize
  most : s.allocated.length ≤ s.pool.blkWhole
  left : ∀ n, s.grants n ↔ n ≤ s.pool.blkAvail
  fails : s.alloc.1.1 ≠ .success → s.pool.blkAvail = 0

/-- The loop of `krhino_mblk_pool_init` ends, and whatever happens then is as it
    should be. -/
def MblkServes (poolStart blkSize poolSize : Nat) : Prop :=
  ∀ mem, ∃ turns pool mem', mblkPoolInit turns mem poolStart blkSize poolSize = some (pool, mem') ∧
    ∀ as s, Run.run Mblk.step ⟨pool, mem', []⟩ as = some s → MblkOk poolStart blkSize poolSize s

/-! ## The list of free blocks -/

/-- The links lead from `a` through the list, and perhaps further. -/
def LeadsAlong (mem : Nat → Nat) : Nat → List Nat → Prop
  | _, [] => True
  | a, b :: l => a = b ∧ LeadsAlong mem (mem b) l

section Leads

variable {mem mem' : Nat → Nat} {a : Nat} {l : List Nat}

theorem LeadsAlong.congr (h : LeadsAlong mem a l) (hsame : ∀ b ∈ l, mem' b = mem b) :
    LeadsAlong mem' a l := by
  induction l generalizing a with
  | nil => trivial
  | cons b l ih =>
      refine ⟨h.1, ?_⟩
      rw [hsame b List.mem_cons_self]
      exact ih h.2 fun c hc => hsame c (List.mem_cons_of_mem b hc)

/-- What the loop leaves leads through all nodes. -/
theorem leadsAlong_nodes {S B P m : Nat} (mem : Nat → Nat) (h : MblkStops S B P m) (n : Nat) :
    ∀ i, i + n ≤ m + 1 →
    LeadsAlong (Function.update (linkMem mem S B m) (node S B m) 0) (node S B i)
      ((List.range' i n).map (node S B)) := by
  induction n with
  | zero =>
      intro i _
      trivial
  | succ n ih =>
      intro i hi
      refine ⟨rfl, ?_⟩
      cases n with
      | zero => trivial
      | succ n =>
          rw [last_node h i (by omega)]
          exact ih (i + 1) (by omega)

end Leads

/-- The free blocks are listed, and with those that are allocated they are all. -/
structure MblkInv (blkSize : Nat) (blocks free : List Nat) (s : Mblk) : Prop where
  valid : s.pool.valid = true
  size : s.pool.blkSize = blkSize
  whole : s.pool.blkWhole = blocks.length
  leads : LeadsAlong s.mem s.pool.availList free
  avail : s.pool.blkAvail = free.length
  all : (free ++ s.allocated).Perm blocks

/-- Blocks that fit in a pool. -/
structure MblkBlocks (poolStart blkSize poolSize : Nat) (blocks : List Nat) : Prop where
  start : 0 < poolStart
  few : blocks.length < 2 ^ 32
  nodup : blocks.Nodup
  apart : blocks.Pairwise fun a b => a + blkSize ≤ b ∨ b + blkSize ≤ a
  inside : ∀ b ∈ blocks, poolStart ≤ b ∧ b + blkSize ≤ poolStart + poolSize

section Steps

variable {S B P : Nat} {blocks free : List Nat} {s s' : Mblk}

theorem alloc_taken (hvalid : s.pool.valid = true) (havail : 0 < s.pool.blkAvail) :
    s.alloc = ((.success, s.pool.availList), { s with
      pool := { s.pool with
        availList := s.mem s.pool.availList
        blkAvail := s.pool.blkAvail - 1 }
      allocated := s.pool.availList :: s.allocated }) := by
  unfold Mblk.alloc
  rw [if_neg (by simp [hvalid]), if_pos havail]

theorem alloc_none (hvalid : s.pool.valid = true) (havail : s.pool.blkAvail = 0) :
    s.alloc = ((.noMem, 0), s) := by
  unfold Mblk.alloc
  rw [if_neg (by simp [hvalid]), if_neg (by omega)]

/-- Blocks that are free and blocks that are allocated are apart. -/
theorem MblkInv.apart (h : MblkInv B blocks free s) (hb : MblkBlocks S B P blocks) {a b : Nat}
    (ha : a ∈ free) (hb' : b ∈ s.allocated) : a ≠ b ∧ (a + B ≤ b ∨ b + B ≤ a) := by
  have hnodup := h.all.nodup_iff.mpr hb.nodup
  have hapart := (h.all.pairwise_iff fun h => h.symm).mpr hb.apart
  rw [List.nodup_append] at hnodup
  rw [List.pairwise_append] at hapart
  exact ⟨hnodup.2.2 a ha b hb', hapart.2.2 a ha b hb'⟩

theorem alloc_mblkInv (h : MblkInv B blocks free s) : ∃ free', MblkInv B blocks free' s.alloc.2 := by
  cases free with
  | nil =>
      rw [alloc_none h.valid h.avail]
      exact ⟨[], h⟩
  | cons a rest =>
      have havail := h.avail
      rw [List.length_cons] at havail
      rw [alloc_taken h.valid (by omega)]
      have hhead : s.pool.availList = a := h.leads.1
      refine ⟨rest, h.valid, h.size, h.whole, ?_, ?_, ?_⟩
      · rw [hhead]
        exact h.leads.2
      · change s.pool.blkAvail - 1 = rest.length
        omega
      · rw [hhead]
        exact List.perm_middle.trans h.all

theorem free_mblkInv (h : MblkInv B blocks free s) (hb : MblkBlocks S B P blocks) {b : Nat}
    (hmem : b ∈ s.allocated) : MblkInv B blocks (b :: free) (s.free b).2 := by
  have hin : b ∈ blocks := h.all.subset (List.mem_append_right free hmem)
  have hlen := h.all.length_eq
  have hpos : 0 < s.allocated.length := List.length_pos_of_mem hmem
  have hne : b ≠ 0 := by
    have hstart := hb.start
    have hinside := (hb.inside b hin).1
    omega
  rw [List.length_append] at hlen
  unfold Mblk.free
  rw [if_neg hne, if_neg (by simp [h.valid])]
  refine ⟨h.valid, h.size, h.whole, ⟨rfl, ?_⟩, ?_, ?_⟩
  · dsimp only
    rw [Function.update_self]
    refine h.leads.congr ?_
    intro f hf
    exact Function.update_of_ne (h.apart hb hf hmem).1 _ _
  · have hfew := hb.few
    have havail := h.avail
    dsimp only
    rw [List.length_cons, havail]
    exact Nat.mod_eq_of_lt (by omega)
  · refine List.Perm.trans ?_ h.all
    rw [List.cons_append]
    exact List.perm_middle.symm.trans ((List.perm_cons_erase hmem).symm.append_left free)

theorem write_mblkInv (h : MblkInv B blocks free s) (hb : MblkBlocks S B P blocks) {b a v : Nat}
    (hmem : b ∈ s.allocated) (hle : b ≤ a) (hlt : a < b + s.pool.blkSize) :
    MblkInv B blocks free { s with mem := Function.update s.mem a v } := by
  refine ⟨h.valid, h.size, h.whole, h.leads.congr ?_, h.avail, h.all⟩
  intro f hf
  have hapart := (h.apart hb hf hmem).2
  rw [h.size] at hlt
  refine Function.update_of_ne ?_ _ _
  omega

theorem step_mblkInv (hb : MblkBlocks S B P blocks) (h : ∃ free, MblkInv B blocks free s)
    {a : MblkAct} (hstep : s.step a = some s') : ∃ free, MblkInv B blocks free s' := by
  rcases h with ⟨free, h⟩
  unfold Mblk.step at hstep
  cases a with
  | alloc =>
      rw [← Option.some.inj hstep]
      exact alloc_mblkInv h
  | free b =>
      dsimp only at hstep
      split_ifs at hstep with hmem
      rw [← Option.some.inj hstep]
      exact ⟨b :: free, free_mblkInv h hb hmem⟩
  | write b a v =>
      dsimp only at hstep
      split_ifs at hstep with hmem
      rw [← Option.some.inj hstep]
      exact ⟨free, write_mblkInv h hb hmem.1 hmem.2.1 hmem.2.2⟩

/-- As many allocations succeed as `blk_avail` says. -/
theorem grants_iff (hvalid : s.pool.valid = true) (n : Nat) : s.grants n ↔ n ≤ s.pool.blkAvail := by
  induction n generalizing s with
  | zero => exact ⟨fun _ => Nat.zero_le _, fun _ => trivial⟩
  | succ n ih =>
      rw [Mblk.grants]
      by_cases havail : s.pool.blkAvail = 0
      · rw [alloc_none hvalid havail]
        constructor
        · rintro ⟨hstat, -⟩
          cases hstat
        · intro hn
          omega
      · rw [alloc_taken hvalid (by omega), ih (by exact hvalid)]
        change Kstat.success = .success ∧ n ≤ s.pool.blkAvail - 1 ↔ _
        rw [and_iff_right rfl]
        omega

theorem MblkInv.ok (h : MblkInv B blocks free s) (hb : MblkBlocks S B P blocks) : MblkOk S B P s := by
  have hlen := h.all.length_eq
  have hapart := (h.all.pairwise_iff fun h => h.symm).mpr hb.apart
  rw [List.pairwise_append] at hapart
  rw [List.length_append] at hlen
  refine ⟨h.size, hapart.2.1, ?_, ?_, grants_iff h.valid, ?_⟩
  · intro b hmem
    exact hb.inside b (h.all.subset (List.mem_append_right free hmem))
  · rw [h.whole]
    omega
  · intro hfail
    by_contra havail
    rw [alloc_taken h.valid (by omega)] at hfail
    exact hfail rfl

/-- A pool serves where the loop ends with blocks of the pool. -/
theorem serves_of_stops {m : Nat} (hS : S < 2 ^ 32) (h : MblkStops S B P m)
    (hb : MblkBlocks S B P ((List.range' 0 (wholeOf S B P m)).map (node S B))) :
    MblkServes S B P := by
  intro mem
  refine ⟨_, _, _, poolInit_of_stops hS h, ?_⟩
  intro as s hrun
  have hleads := leadsAlong_nodes mem h (wholeOf S B P m) 0
    (by rw [Nat.zero_add]; exact wholeOf_le S B P m)
  rw [node_zero hS] at hleads
  have hlen : ((List.range' 0 (wholeOf S B P m)).map (node S B)).length = wholeOf S B P m := by
    rw [List.length_map, List.length_range']
  have hstart : ∃ free, MblkInv B ((List.range' 0 (wholeOf S B P m)).map (node S B)) free
      ⟨{ valid := true, blkSize := B, blkAvail := wholeOf S B P m, blkWhole := wholeOf S B P m
         availList := S }, Function.update (linkMem mem S B m) (node S B m) 0, []⟩ :=
    ⟨_, rfl, rfl, hlen.symm, hleads, hlen.symm, by rw [List.append_nil]⟩
  rcases Run.run_inv (P := fun _ _ => True) (fun s a t hs _ hstep => step_mblkInv hb hs hstep) as _ s
    hstart (Run.along_of_forall (fun _ _ => trivial) as _) hrun with ⟨free, hinv⟩
  exact hinv.ok hb

/-- Allocations take the blocks in the order of the list. -/
theorem run_allocs (l : List Nat) (hvalid : s.pool.valid = true)
    (hleads : LeadsAlong s.mem s.pool.availList l) (hlen : l.length ≤ s.pool.blkAvail) :
    ∃ t, Run.run Mblk.step s (l.map fun _ => .alloc) = some t ∧ ∀ b ∈ l, b ∈ t.allocated := by
  have hkeep : ∀ (l : List Nat) (s t : Mblk) (b : Nat), b ∈ s.allocated →
      Run.run Mblk.step s (l.map fun _ => .alloc) = some t → b ∈ t.allocated := by
    intro l
    induction l with
    | nil =>
        intro s t b hb hrun
        rw [← Option.some.inj hrun]
        exact hb
    | cons a l ih =>
        intro s t b hb hrun
        refine ih s.alloc.2 t b ?_ hrun
        unfold Mblk.alloc
        split_ifs
        · exact hb
        · exact List.mem_cons_of_mem _ hb
        · exact hb
  induction l generalizing s with
  | nil =>
      refine ⟨s, rfl, ?_⟩
      intro b hb
      cases hb
  | cons a l ih =>
      rw [List.length_cons] at hlen
      have halloc := alloc_taken hvalid (by omega)
      have hhead : s.pool.availList = a := hleads.1
      rcases ih (s := s.alloc.2) (by rw [halloc]; exact hvalid)
        (by rw [halloc, hhead]; exact hleads.2)
        (by rw [halloc]; change l.length ≤ s.pool.blkAvail - 1; omega) with ⟨t, hrun, hmem⟩
      refine ⟨t, hrun, ?_⟩
      intro b hb
      rcases List.mem_cons.mp hb with rfl | hb
      · refine hkeep l s.alloc.2 t _ ?_ hrun
        rw [halloc, hhead]
        exact List.mem_cons_self
      · exact hmem b hb

/-- The blocks of a pool that serves lie in it. -/
theorem stops_of_serves (hS : S < 2 ^ 32) (h : MblkServes S B P) :
    ∃ m, MblkStops S B P m ∧
      ∀ i < wholeOf S B P m, S ≤ node S B i ∧ node S B i + B ≤ S + P := by
  rcases h fun _ => 0 with ⟨t, pool, mem', hinit, hok⟩
  rcases stops_of_poolInit hS hinit with ⟨m, hstops, hagain⟩
  rw [poolInit_of_stops hS hstops] at hagain
  injection hagain with hagain
  injection hagain with hpool hmem
  have hleads := leadsAlong_nodes (fun _ => 0) hstops (wholeOf S B P m) 0
    (by rw [Nat.zero_add]; exact wholeOf_le S B P m)
  rw [node_zero hS, hmem] at hleads
  rcases run_allocs (s := ⟨pool, mem', []⟩) ((List.range' 0 (wholeOf S B P m)).map (node S B))
    (by rw [← hpool]) (by rw [← hpool]; exact hleads)
    (by rw [← hpool, List.length_map, List.length_range']) with ⟨s, hrun, hall⟩
  refine ⟨m, hstops, ?_⟩
  intro i hi
  refine (hok _ s hrun).inside _ (hall _ ?_)
  rw [List.mem_map]
  exact ⟨i, by rw [List.mem_range'_1]; omega, rfl⟩

end Steps

/-! ## When it is so -/

/-- Where the pool ends below the end of the address space: blocks of no bytes only in
    a pool of none; and otherwise blocks that fill the pool, or that could be followed
    by one more without reaching the end. Where it reaches the end: the first block ends
    before, or is the pool or longer than it, or the second one would end the loop. -/
def MblkFits (poolStart blkSize poolSize : Nat) : Prop :=
  if poolStart + poolSize < 2 ^ 32 then
    if blkSize = 0 then poolSize = 0
    else (poolSize ≠ 0 ∧ blkSize ∣ poolSize) ∨
      poolStart + (poolSize / blkSize + 1) * blkSize < 2 ^ 32
  else poolStart + blkSize < 2 ^ 32 ∨ poolSize ≤ blkSize ∨
    (2 ^ 32 ≤ 2 * blkSize ∧ poolStart + 2 * blkSize < 2 * 2 ^ 32)

section Fits

variable {S B P : Nat}

/-- Blocks one after another from the start on. -/
theorem blocks_of_straight {n : Nat} (hpos : 0 < S) (hB : 0 < B) (hP : P < 2 ^ 32)
    (hn : n * B ≤ P) (hnode : ∀ i < n, node S B i = S + i * B) :
    MblkBlocks S B P ((List.range' 0 n).map (node S B)) := by
  have hlt : ∀ {i j : Nat}, i < j → i * B + B ≤ j * B := by
    intro i j hij
    have hmul := Nat.mul_le_mul_right B hij
    rw [Nat.succ_mul] at hmul
    exact hmul
  have hmem : ∀ b ∈ (List.range' 0 n).map (node S B), ∃ i < n, b = S + i * B := by
    intro b hb
    rw [List.mem_map] at hb
    rcases hb with ⟨i, hi, rfl⟩
    rw [List.mem_range'_1] at hi
    exact ⟨i, by omega, hnode i (by omega)⟩
  have hapart : ((List.range' 0 n).map (node S B)).Pairwise fun a b => a + B ≤ b := by
    rw [List.pairwise_map]
    refine List.Pairwise.imp_of_mem ?_ (List.pairwise_lt_range' 1)
    intro i j hi hj hij
    rw [List.mem_range'_1] at hi hj
    rw [hnode i (by omega), hnode j (by omega)]
    have hle := hlt hij
    omega
  refine ⟨hpos, ?_, hapart.imp ?_, hapart.imp .inl, ?_⟩
  · rw [List.length_map, List.length_range']
    have hle := Nat.le_mul_of_pos_right n hB
    omega
  · intro a b hab
    omega
  · intro b hb
    rcases hmem b hb with ⟨i, hi, rfl⟩
    have hle := hlt hi
    omega

theorem node_of_lt {i : Nat} (h : S + i * B < 2 ^ 32) : node S B i = S + i * B :=
  Nat.mod_eq_of_lt h

/-- A pool below the end that fits. -/
theorem serves_below (hpos : 0 < S) (hend : S + P < 2 ^ 32) (hfits : MblkFits S B P) :
    MblkServes S B P := by
  have hE : (S + P) % 2 ^ 32 = S + P := Nat.mod_eq_of_lt hend
  unfold MblkFits at hfits
  rw [if_pos hend] at hfits
  split_ifs at hfits with hB
  · -- One block of no bytes.
    subst hB hfits
    have hnode : ∀ i, node S 0 i = S := fun i => by
      rw [node_of_lt (by omega), Nat.mul_zero, Nat.add_zero]
    have hstops : MblkStops S 0 0 0 := by
      refine ⟨?_, ?_⟩
      · rw [hE, hnode, Nat.add_zero]
      · intro j hj
        omega
    refine serves_of_stops (by omega) hstops ?_
    have hwhole : wholeOf S 0 0 0 = 1 := by
      unfold wholeOf
      rw [hE, hnode, Nat.add_zero, if_pos rfl]
    rw [hwhole]
    change MblkBlocks S 0 0 [node S 0 0]
    rw [hnode]
    exact ⟨hpos, by simp, List.nodup_singleton _, List.pairwise_singleton _ _, by simp⟩
  · have hBpos : 0 < B := Nat.pos_of_ne_zero hB
    by_cases hwhole : P ≠ 0 ∧ B ∣ P
    · -- The last block ends where the pool does.
      rcases hwhole with ⟨hP, t, rfl⟩
      have ht : t ≠ 0 := by
        rintro rfl
        exact hP (Nat.mul_zero B)
      rcases Nat.exists_eq_add_one_of_ne_zero ht with ⟨m, rfl⟩
      have hle : ∀ {i : Nat}, i ≤ m + 1 → i * B ≤ B * (m + 1) := by
        intro i hi
        rw [Nat.mul_comm B]
        exact Nat.mul_le_mul_right B hi
      have hnode : ∀ i ≤ m + 1, node S B i = S + i * B := by
        intro i hi
        have := hle hi
        exact node_of_lt (by omega)
      have hstops : MblkStops S B (B * (m + 1)) m := by
        refine ⟨?_, ?_⟩
        · rw [hE, hnode (m + 1) (by omega), Nat.mul_comm B]
        · intro j hj
          rw [hE, hnode (j + 1) (by omega), Nat.mul_comm B]
          have := Nat.mul_lt_mul_of_pos_right (show j + 1 < m + 1 by omega) hBpos
          omega
      refine serves_of_stops (by omega) hstops ?_
      have hcount : wholeOf S B (B * (m + 1)) m = m + 1 := by
        unfold wholeOf
        rw [hE, hnode (m + 1) (by omega), Nat.mul_comm B, if_pos rfl]
      rw [hcount]
      exact blocks_of_straight hpos hBpos (by omega) (hle (Nat.le_refl _))
        fun i hi => hnode i (by omega)
    · -- Something is left over, and the block that would start there ends below the end.
      have hnext := hfits.resolve_left hwhole
      have hdiv := Nat.div_add_mod P B
      have hmod := Nat.mod_lt P hBpos
      rw [Nat.mul_comm B] at hdiv
      have hrest : P % B ≠ 0 ∨ P = 0 := by
        by_contra hno
        exact hwhole ⟨fun h => hno (.inr h), Nat.dvd_of_mod_eq_zero (by omega)⟩
      have hsucc : (P / B + 1) * B = P / B * B + B := Nat.succ_mul _ _
      have hle : ∀ {i : Nat}, i ≤ P / B → i * B ≤ P / B * B := fun hi => Nat.mul_le_mul_right B hi
      have hnode : ∀ i ≤ P / B, node S B i = S + i * B := by
        intro i hi
        have := hle hi
        exact node_of_lt (by omega)
      have hstops : MblkStops S B P (P / B) := by
        refine ⟨?_, ?_⟩
        · rw [hE, node_of_lt hnext]
          omega
        · intro j hj
          have hstep := hle (show j + 1 ≤ P / B by omega)
          rw [hE, hnode (j + 1) (by omega)]
          rcases hrest with hr | rfl
          · omega
          · rw [Nat.zero_div] at hj
            omega
      refine serves_of_stops (by omega) hstops ?_
      have hcount : wholeOf S B P (P / B) = P / B := by
        unfold wholeOf
        rw [hE, node_of_lt hnext, if_neg (by omega)]
      rw [hcount]
      exact blocks_of_straight hpos hBpos (by omega) (by omega) fun i hi => hnode i (by omega)

/-- A pool that reaches the end and fits has one block at most. -/
theorem serves_over (hpos : 0 < S) (hS : S < 2 ^ 32) (hB : B < 2 ^ 32) (hP : P < 2 ^ 32)
    (hend : ¬S + P < 2 ^ 32) (hfits : MblkFits S B P) : MblkServes S B P := by
  have hE : (S + P) % 2 ^ 32 = S + P - 2 ^ 32 := by omega
  have hnode : ∀ i, node S B i = (S + i * B) % 2 ^ 32 := fun i => rfl
  unfold MblkFits at hfits
  rw [if_neg hend] at hfits
  -- The loop ends at once, and there may be a block.
  have hone : ∀ m, MblkStops S B P m → wholeOf S B P m ≤ 1 → (wholeOf S B P m = 1 → B ≤ P) →
      MblkServes S B P := by
    intro m hstops hfew hblock
    refine serves_of_stops hS hstops ?_
    rcases Nat.le_one_iff_eq_zero_or_eq_one.mp hfew with hzero | hone
    · rw [hzero]
      exact ⟨hpos, by simp, List.nodup_nil, List.Pairwise.nil, by simp⟩
    · have hin := hblock hone
      rw [hone]
      change MblkBlocks S B P [node S B 0]
      rw [node_zero hS]
      exact ⟨hpos, by simp, List.nodup_singleton _, List.pairwise_singleton _ _, by simp; omega⟩
  by_cases hfirst : S + B < 2 ^ 32
  · have hnext : node S B 1 = S + B := by
      rw [hnode, Nat.one_mul, Nat.mod_eq_of_lt hfirst]
    refine hone 0 ⟨?_, ?_⟩ ?_ ?_
    · rw [hE, hnext]
      omega
    · intro j hj
      omega
    · rw [wholeOf, hE, hnext, if_neg (by omega)]
      omega
    · rw [wholeOf, hE, hnext, if_neg (by omega)]
      intro h
      omega
  · have hnext : node S B 1 = S + B - 2 ^ 32 := by
      rw [hnode, Nat.one_mul]
      omega
    by_cases hlong : P ≤ B
    · refine hone 0 ⟨?_, ?_⟩ ?_ ?_
      · rw [hE, hnext]
        omega
      · intro j hj
        omega
      · rw [wholeOf, hE, hnext]
        split_ifs
        · omega
        · omega
      · intro hcount
        by_contra hlt
        rw [wholeOf, hE, hnext, if_neg (by omega)] at hcount
        omega
    · have htwo := (hfits.resolve_left hfirst).resolve_left hlong
      have hsecond : node S B 2 = S + 2 * B - 2 ^ 32 := by
        rw [hnode]
        omega
      refine hone 1 ⟨?_, ?_⟩ ?_ ?_
      · rw [hE, hsecond]
        omega
      · intro j hj
        rw [Nat.lt_one_iff.mp hj, hE, hnext]
        omega
      · rw [wholeOf, hE, hsecond, if_neg (by omega)]
      · intro _
        omega

/-- What fits where the pool serves. -/
theorem fits_of_serves (hS : S < 2 ^ 32) (hB : B < 2 ^ 32) (hP : P < 2 ^ 32)
    (hcheck : B * 2 % 2 ^ 32 ≤ P) (h : MblkServes S B P) : MblkFits S B P := by
  rcases stops_of_serves hS h with ⟨m, hstops, hinside⟩
  have hends := hstops.ends
  have hgoes := hstops.goes
  have hmin := le_wholeOf S B P m
  unfold MblkFits
  split_ifs with hend hzero
  · -- Blocks of no bytes: the loop stays where it is.
    subst hzero
    have hnode : node S 0 (m + 1) = S := by
      rw [node_of_lt (by omega), Nat.mul_zero, Nat.add_zero]
    rw [hnode, Nat.mod_eq_of_lt hend] at hends
    omega
  · by_contra hno
    rw [not_or] at hno
    rcases hno with ⟨hrest, hover⟩
    have hBpos : 0 < B := Nat.pos_of_ne_zero hzero
    have hdiv := Nat.div_add_mod P B
    have hmod := Nat.mod_lt P hBpos
    have hsucc : (P / B + 1) * B = P / B * B + B := Nat.succ_mul _ _
    rw [Nat.mul_comm B] at hdiv
    rw [Nat.mod_eq_of_lt hend] at hends
    -- The node of what is left over is counted as a block.
    have hlast : P / B < wholeOf S B P m := by
      refine Nat.lt_of_lt_of_le ?_ hmin
      by_contra hle
      rcases Nat.lt_or_eq_of_le (Nat.le_of_not_lt hle) with hlt | heq
      · have hmul := Nat.mul_le_mul_right B (show m + 1 ≤ P / B by omega)
        rw [node_of_lt (by omega)] at hends
        have hdvd : P % B = 0 := by omega
        refine hrest ⟨?_, Nat.dvd_of_mod_eq_zero hdvd⟩
        rintro rfl
        rw [Nat.zero_div] at hlt
        omega
      · have hnode : node S B (m + 1) = S + (m + 1) * B - 2 ^ 32 := by
          rw [heq] at hends ⊢
          unfold node
          omega
        rw [hnode, heq] at hends
        omega
    have hbad := (hinside (P / B) hlast).2
    rw [node_of_lt (by omega)] at hbad
    omega
  · by_contra hno
    rw [not_or, not_or] at hno
    rcases hno with ⟨hfirst, hshort, htwo⟩
    have hE : (S + P) % 2 ^ 32 = S + P - 2 ^ 32 := by omega
    have hone : node S B 1 = S + B - 2 ^ 32 := by
      unfold node
      omega
    -- The second node, which lies before the pool, is counted as a block.
    have hlast : 1 < wholeOf S B P m := by
      by_contra hle
      have hm : m ≤ 1 := by omega
      rcases Nat.le_one_iff_eq_zero_or_eq_one.mp hm with rfl | rfl
      · rw [hE, Nat.zero_add, hone] at hends
        omega
      · rw [wholeOf] at hle
        have htop : node S B (1 + 1) ≤ S + P - 2 ^ 32 := by
          unfold node
          omega
        rw [hE] at hends hle
        rw [if_pos (by omega)] at hle
        omega
    have hbad := (hinside 1 hlast).1
    rw [hone] at hbad
    omega

/-- A pool that passes the checks of `krhino_mblk_pool_init` serves exactly where it
    fits. -/
theorem mblk_serves_iff (poolStart blkSize poolSize : Nat) (hstart : poolStart < 2 ^ 32)
    (hblk : blkSize < 2 ^ 32) (hpool : poolSize < 2 ^ 32)
    (hcheck : mblkPoolCheck poolStart blkSize poolSize = none) :
    MblkServes poolStart blkSize poolSize ↔ MblkFits poolStart blkSize poolSize := by
  unfold mblkPoolCheck at hcheck
  split_ifs at hcheck with hnull hsize
  constructor
  · exact fits_of_serves hstart hblk hpool (Nat.le_of_not_lt hsize)
  · intro hfits
    by_cases hend : poolStart + poolSize < 2 ^ 32
    · exact serves_below (Nat.pos_of_ne_zero hnull) hend hfits
    · exact serves_over (Nat.pos_of_ne_zero hnull) hstart hblk hpool hend hfits

theorem mblk_serves_iff_three : MblkServes 0x20000000 16 56 :=
  (mblk_serves_iff 0x20000000 16 56 (by decide) (by decide) (by decide) (by decide)).mpr
    (by rw [MblkFits, if_pos (by decide), if_neg (by decide)]; exact .inr (by decide))

theorem mblk_zero_endless :
    mblkPoolCheck 0x20000000 0 64 = none ∧ ¬MblkServes 0x20000000 0 64 := by
  refine ⟨by decide, fun h => ?_⟩
  have hfits := fits_of_serves (by omega) (by omega) (by omega) (by omega) h
  rw [MblkFits, if_pos (by decide), if_pos rfl] at hfits
  cases hfits

end Fits

end Rhino

end Wujian100
