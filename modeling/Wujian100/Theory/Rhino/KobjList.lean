import Wujian100.Core.Rhino.KobjList
import Wujian100.Library.Run
import Wujian100.Theory.Rhino.MmBlk

/-!
# What the Lists of Objects Say

The bound that `csi_kernel_task_list` has for the array is tested in the second loop and not
counted down, so it stores all tasks, however many there are. A pool is put into the list of
pools when it is created and never taken out, and a pool that cannot be created keeps the block
of the heap it was to be in.

## Main definitions

* `ListsFirst`: What a list of tasks should be.
* `Pools.Listed`: The list of pools is that of the pools there are.
* `Pools.Keeps`: A call deletes no pool, and creates none that is turned away too late.

## Theorems

* `task_list_iff`: The tasks are listed as they should exactly if they all fit.
* `Pools.step_listed`: A call that keeps its pool keeps the list.
* `Pools.pools_listed`: So do all calls of a run.
-/

namespace Wujian100

namespace Rhino

/-! ## Tasks -/

/-- The first tasks are stored, as many as fit, in their order from the first place on; their
    number is returned. -/
def ListsFirst (next : Nat → Nat) (taskHead off turns : Nat) (arrayItems : BitVec 32)
    (nodes : List Nat) : Prop :=
  ∃ num, csiKernelTaskList next taskHead off turns arrayItems
      = some (num, ((nodes.map (· - off)).take (min nodes.length arrayItems.toNat)).zipIdx) ∧
    num.toNat = min nodes.length arrayItems.toNat

section Tasks

variable {next prev : Nat → Nat} {taskHead off turns : Nat} {nodes : List Nat}

theorem foldl_count (nodes : List Nat) (num : BitVec 32) :
    nodes.foldl (fun num _ => num + 1) num = num + BitVec.ofNat 32 nodes.length := by
  induction nodes generalizing num with
  | nil => exact (BitVec.add_zero num).symm
  | cons n nodes ih =>
      rw [List.foldl_cons, ih, BitVec.add_assoc, List.length_cons, Nat.add_comm nodes.length 1,
        BitVec.ofNat_add]
      rfl

theorem foldl_stores (nodes : List Nat) (stores : List (Nat × Nat)) :
    nodes.foldl (fun stores tmp => stores ++ [(tmp - off, stores.length)]) stores
      = stores ++ (nodes.map (· - off)).zipIdx stores.length := by
  induction nodes generalizing stores with
  | nil => exact (List.append_nil stores).symm
  | cons n nodes ih =>
      rw [List.foldl_cons, ih, List.map_cons, List.zipIdx_cons, List.append_assoc,
        List.length_append]
      rfl

/-- What `csi_kernel_task_list` does: all tasks are stored, unless the number is zero. -/
theorem csiKernelTaskList_eq (h : Circle next prev taskHead nodes) (off : Nat)
    (hturns : nodes.length < turns) {arrayItems num : BitVec 32} (hitems : arrayItems ≠ 0)
    (hnum : num = if arrayItems < BitVec.ofNat 32 nodes.length then arrayItems
      else BitVec.ofNat 32 nodes.length) :
    csiKernelTaskList next taskHead off turns arrayItems
      = some (num, if num ≥ 1 then (nodes.map (· - off)).zipIdx else []) := by
  unfold csiKernelTaskList
  rw [if_neg hitems, h.forEach _ (fun _ => rfl) _ hturns, foldl_count, BitVec.zero_add]
  change Option.map _ _ = _
  rw [← hnum]
  by_cases hone : num ≥ 1
  · rw [h.forEach _ (fun _ => decide_eq_true hone) _ hturns, foldl_stores, if_pos hone]
    rfl
  · rw [forEach_stop next taskHead (fun _ => decide (num ≥ 1)) _ (Nat.zero_lt_of_lt hturns) _ _
      (decide_eq_false hone), if_neg hone]
    rfl

/-- All tasks are stored, so the first ones are exactly if there are no others. -/
theorem task_list_iff (h : Circle next prev taskHead nodes) (off : Nat)
    (hturns : nodes.length < turns) {arrayItems : BitVec 32} (hitems : arrayItems ≠ 0) :
    ListsFirst next taskHead off turns arrayItems nodes ↔ nodes.length ≤ arrayItems.toNat := by
  have hpos : 0 < arrayItems.toNat := by
    rw [Nat.pos_iff_ne_zero]
    intro hzero
    exact hitems (BitVec.eq_of_toNat_eq hzero)
  have hcount : (BitVec.ofNat 32 nodes.length).toNat = nodes.length % 2 ^ 32 :=
    BitVec.toNat_ofNat _ _
  have heq := csiKernelTaskList_eq h off hturns hitems rfl
  generalize hnum : (if arrayItems < BitVec.ofNat 32 nodes.length then arrayItems
    else BitVec.ofNat 32 nodes.length) = num at heq
  unfold ListsFirst
  rw [heq]
  constructor
  -- With more tasks than items the number returned is the number of items.
  · rintro ⟨num', hsome, hval⟩
    rcases Prod.mk.inj (Option.some.inj hsome) with ⟨rfl, hstores⟩
    by_cases hone : num ≥ 1
    · rw [if_pos hone] at hstores
      have hlen := congrArg List.length hstores
      rw [List.length_zipIdx, List.length_zipIdx, List.length_take, List.length_map] at hlen
      omega
    · have hzero : num.toNat < 1 := Nat.not_le.mp hone
      omega
  · intro hle
    have hlt := arrayItems.isLt
    -- With room for all the number is that of the tasks, and the loop stores each.
    have hnot : ¬arrayItems < BitVec.ofNat 32 nodes.length := by
      rw [BitVec.lt_def, hcount]
      omega
    rw [if_neg hnot] at hnum
    have hval : num.toNat = nodes.length := by
      rw [← hnum, hcount, Nat.mod_eq_of_lt (by omega)]
    have htake : (nodes.map (· - off)).take (min nodes.length arrayItems.toNat)
        = nodes.map (· - off) := by
      refine List.take_of_length_le ?_
      rw [List.length_map]
      omega
    refine ⟨num, ?_, by omega⟩
    rw [htake]
    by_cases hone : num ≥ 1
    · rw [if_pos hone]
    · have hzero : num.toNat < 1 := Nat.not_le.mp hone
      rw [if_neg hone, List.eq_nil_of_length_eq_zero (by omega : nodes.length = 0)]
      rfl

/-- A circle of two nodes behind a head. -/
theorem circle_two : Circle (fun n => (n + 100) % 300) (fun n => (n + 200) % 300) 0 [100, 200] := by
  refine ⟨by decide, ⟨rfl, rfl⟩, ⟨rfl, rfl⟩, rfl, rfl⟩

/-- Two tasks fit into an array of two. -/
theorem task_list_two :
    ListsFirst (fun n => (n + 100) % 300) 0 40 3 2 [100, 200] :=
  (task_list_iff circle_two 40 (by decide) (by decide)).mpr (by decide)

/-- They do not fit into an array of one, and are stored. -/
theorem task_list_past_end :
    ¬∀ (next prev : Nat → Nat) (nodes : List Nat), Circle next prev 0 nodes →
      ∀ turns > nodes.length, ListsFirst next 0 40 turns 1 nodes := by
  intro hall
  rcases hall _ _ _ circle_two 3 (by decide) with ⟨num, hsome, -⟩
  revert hsome
  have hlist : csiKernelTaskList (fun n => (n + 100) % 300) 0 40 3 1
      = some (1, [(60, 0), (160, 1)]) := by
    decide
  rw [hlist]
  intro hsome
  exact absurd (Prod.mk.inj (Option.some.inj hsome)).2 (by decide)

end Tasks

/-! ## Pools -/

section Insert

variable {mem : Nat → Nat} {head x : Nat} {nodes : List Nat}

/-- What a node has behind its `next` is not the `next` of another one. -/
def NodesApart (nodes : List Nat) : Prop :=
  ∀ a ∈ nodes, ∀ b ∈ nodes, a + 4 ≠ b

/-- The words of a list, as links. -/
def prevIn (mem : Nat → Nat) (node : Nat) : Nat := mem (node + 4)

/-- `klist_insert` reads the last node after it has written to the new one. -/
theorem klistInsert_eq (mem : Nat → Nat) (hx : x ≠ head) (hhead : head + 4 ≠ x) :
    klistInsert mem head x
      = Function.update (Function.update (Function.update (Function.update mem (x + 4)
          (prevIn mem head)) x head) (prevIn mem head) x) (head + 4) x := by
  unfold klistInsert
  dsimp only
  rw [Function.update_of_ne hhead, Function.update_of_ne (by omega : head + 4 ≠ x + 4)]
  rfl

theorem circle_klistInsert (h : Circle mem (prevIn mem) head nodes) (hx : x ∉ head :: nodes)
    (hapart : NodesApart (x :: head :: nodes)) :
    Circle (klistInsert mem head x) (prevIn (klistInsert mem head x)) head (nodes ++ [x]) := by
  have hin : head ∈ x :: head :: nodes := List.mem_cons_of_mem x List.mem_cons_self
  have hlast : prevIn mem head ∈ x :: head :: nodes := List.mem_cons_of_mem x h.2.prev_mem
  have hne : x ≠ head := (ne_of_mem_of_not_mem List.mem_cons_self hx).symm
  have hmem : ∀ n ∈ head :: (nodes ++ [x]), n ∈ x :: head :: nodes := by
    intro n hn
    rcases List.mem_cons.mp hn with rfl | hn
    · exact hin
    · rcases List.mem_append.mp hn with hn | hn
      · exact List.mem_cons_of_mem x (List.mem_cons_of_mem head hn)
      · rw [List.mem_singleton.mp hn]
        exact List.mem_cons_self
  -- Four words are written, two of the new node and one of each neighbour.
  have heq := klistInsert_eq mem hne (hapart head hin x List.mem_cons_self)
  refine (h.insert hx).congr (fun n hn => ?_) fun n hn => ?_
  · rw [heq, Function.update_of_ne (hapart head hin n (hmem n hn)).symm]
    unfold insertNext
    by_cases hl : n = prevIn mem head
    · rw [hl, Function.update_self, Function.update_self]
    · rw [Function.update_of_ne hl, Function.update_of_ne hl]
      by_cases hnx : n = x
      · rw [hnx, Function.update_self, Function.update_self]
      · rw [Function.update_of_ne hnx, Function.update_of_ne hnx, Function.update_of_ne
          (hapart x List.mem_cons_self n (hmem n hn)).symm]
  · unfold insertPrev
    rw [heq]
    by_cases hnh : n = head
    · rw [hnh, Function.update_self]
      exact Function.update_self _ _ _
    · change Function.update _ _ _ (n + 4) = _
      rw [Function.update_of_ne hnh, Function.update_of_ne (by omega : n + 4 ≠ head + 4),
        Function.update_of_ne (hapart n (hmem n hn) _ hlast),
        Function.update_of_ne (hapart n (hmem n hn) x List.mem_cons_self)]
      by_cases hnx : n = x
      · rw [hnx, Function.update_self, Function.update_self]
      · rw [Function.update_of_ne hnx, Function.update_of_ne (by omega : n + 4 ≠ x + 4)]
        rfl

end Insert

section Frames

variable {mem : Nat → Nat} {S B P w : Nat}

theorem linkMem_frame (m : Nat) (h : ∀ i < m, node S B i ≠ w) : linkMem mem S B m w = mem w := by
  induction m with
  | zero => rfl
  | succ m ih =>
      rw [linkMem, Function.update_of_ne (h m (Nat.lt_succ_self m)).symm]
      exact ih fun i hi => h i (Nat.lt_succ_of_lt hi)

/-- The loop that links blocks writes to the blocks it comes to. -/
theorem mblkPoolInit_frame (hS : S < 2 ^ 32) {turns : Nat} {p : MblkPool × (Nat → Nat)}
    (h : mblkPoolInit turns mem S B P = some p)
    (hw : ∀ i, (∀ j < i, node S B (j + 1) < (S + P) % 2 ^ 32) → node S B i ≠ w) :
    p.2 w = mem w := by
  rcases stops_of_poolInit hS h with ⟨m, hstops, hinit⟩
  rw [poolInit_of_stops hS hstops] at hinit
  cases hinit
  dsimp only
  rw [Function.update_of_ne (hw m hstops.goes).symm]
  exact linkMem_frame m fun i hi => hw i fun j hj => hstops.goes j (by omega)

/-- The fields of a pool lie before its node. -/
theorem setFields_frame {pool name : Nat} (x : MblkPool) (hw : w < pool ∨ pool + 24 ≤ w) :
    setFields mem pool name x w = mem w := by
  unfold setFields
  rw [Function.update_of_ne (by omega), Function.update_of_ne (by omega),
    Function.update_of_ne (by omega), Function.update_of_ne (by omega),
    Function.update_of_ne (by omega), Function.update_of_ne (by omega)]

end Frames

namespace Pools

/-- The nodes of the pools there are. -/
def nodes (s : Pools) : List Nat := s.pools.map statsItem

/-- The list of pools is a circle over the nodes of the pools there are, and none of them is
    in memory that was given back. -/
structure Listed (head : Nat) (s : Pools) : Prop where
  circle : Circle s.mem (prevIn s.mem) head s.nodes
  live : ∀ p ∈ s.pools, p ∈ s.blocks

/-- A word of the list. -/
def LinkWord (head : Nat) (s : Pools) (w : Nat) : Prop :=
  ∃ n ∈ head :: s.nodes, w = n ∨ w = n + 4

/-- What a call should leave: the list is that of the pools, and nothing changed where no pool
    was created. -/
def Sound (head name : Nat) (s : Pools) : PoolAct → Prop
  | .new turns handle pAddr blockCount blockSize =>
      (∀ block ∈ handle, s.Fresh head block) → ∀ r t,
        s.mpoolNew head name turns handle pAddr blockCount blockSize = some (r, t) →
          t.Listed head ∧ (r = 0 → t = s)
  | .del handle => (s.mpoolDel handle).2.Listed head

/-- A call is turned away before a block is taken from the heap, or creates a pool, and links
    no blocks where the list is; or it deletes nothing that the list is in. -/
def Keeps (head : Nat) (s : Pools) : PoolAct → Prop
  | .new _ handle pAddr blockCount blockSize =>
      mpoolCheck pAddr blockCount blockSize = true ∨ handle = none ∨
        (mblkPoolCheck pAddr.toNat blockSize.toNat (blockCount * blockSize).toNat = none ∧
          ∀ i, (∀ j < i, node pAddr.toNat blockSize.toNat (j + 1)
              < (pAddr.toNat + (blockCount * blockSize).toNat) % 2 ^ 32) →
            ¬LinkWord head s (node pAddr.toNat blockSize.toNat i))
  | .del handle => handle = 0 ∨
      ∀ w, LinkWord head s w → w + 4 ≤ handle ∨ handle + sizeofMblkPool ≤ w

/-- The pools lie apart from each other and from the head. -/
structure Inv (head : Nat) (s : Pools) : Prop where
  listed : s.Listed head
  head_apart : ∀ p ∈ s.pools, head + 8 ≤ p ∨ p + sizeofMblkPool ≤ head
  apart : ∀ p ∈ s.pools, ∀ q ∈ s.pools, p = q ∨ p + sizeofMblkPool ≤ q ∨ q + sizeofMblkPool ≤ p

section Run

variable {head name : Nat} {s : Pools}

theorem linkWord_head : LinkWord head s head ∧ LinkWord head s (head + 4) :=
  ⟨⟨head, List.mem_cons_self, .inl rfl⟩, head, List.mem_cons_self, .inr rfl⟩

theorem nodesApart {pools : List Nat} (h : ∀ p ∈ pools, head + 8 ≤ p ∨ p + sizeofMblkPool ≤ head)
    (h' : ∀ p ∈ pools, ∀ q ∈ pools, p = q ∨ p + sizeofMblkPool ≤ q ∨ q + sizeofMblkPool ≤ p) :
    NodesApart (head :: pools.map statsItem) := by
  intro a ha b hb
  unfold sizeofMblkPool at h h'
  rcases List.mem_cons.mp ha with rfl | ha
  · rcases List.mem_cons.mp hb with rfl | hb
    · omega
    · rcases List.mem_map.mp hb with ⟨q, hq, rfl⟩
      have hq := h q hq
      unfold statsItem
      omega
  · rcases List.mem_map.mp ha with ⟨p, hp, rfl⟩
    have hph := h p hp
    rcases List.mem_cons.mp hb with rfl | hb
    · unfold statsItem
      omega
    · rcases List.mem_map.mp hb with ⟨q, hq, rfl⟩
      have hpq := h' p hp q hq
      unfold statsItem
      omega

/-- Memory that has the same links has the same list. -/
theorem Listed.of_links (h : s.Listed head) {t : Pools} (hpools : t.pools = s.pools)
    (hlive : ∀ p ∈ s.pools, p ∈ t.blocks) (hmem : ∀ w, LinkWord head s w → t.mem w = s.mem w) :
    t.Listed head := by
  have hnodes : t.nodes = s.nodes := by
    unfold nodes
    rw [hpools]
  refine ⟨?_, fun p hp => hlive p (hpools ▸ hp)⟩
  rw [hnodes]
  exact h.circle.congr (fun n hn => hmem n ⟨n, hn, .inl rfl⟩)
    fun n hn => hmem (n + 4) ⟨n, hn, .inr rfl⟩

/-- A pool that is created is linked. -/
theorem created_inv (h : s.Inv head) {handle : Nat} (hfresh : s.Fresh head handle)
    {mem : Nat → Nat} (x : MblkPool) (hmem : ∀ w, LinkWord head s w → mem w = s.mem w) :
    Inv head { mem := klistInsert (setFields mem handle name x) head (statsItem handle)
               blocks := insert handle s.blocks, pools := s.pools ++ [handle] } := by
  rcases hfresh with ⟨-, -, hhead, hblocks⟩
  have happ : ∀ p ∈ s.pools ++ [handle], p ∈ s.pools ∨ p = handle := by
    intro p hp
    rcases List.mem_append.mp hp with hp | hp
    · exact .inl hp
    · exact .inr (List.mem_singleton.mp hp)
  have hblock : ∀ p ∈ s.pools, p + sizeofMblkPool ≤ handle ∨ handle + sizeofMblkPool ≤ p :=
    fun p hp => hblocks p (h.listed.live p hp)
  have hheads : ∀ p ∈ s.pools ++ [handle], head + 8 ≤ p ∨ p + sizeofMblkPool ≤ head := by
    intro p hp
    rcases happ p hp with hp | rfl
    · exact h.head_apart p hp
    · exact hhead
  have hpairs : ∀ p ∈ s.pools ++ [handle], ∀ q ∈ s.pools ++ [handle],
      p = q ∨ p + sizeofMblkPool ≤ q ∨ q + sizeofMblkPool ≤ p := by
    intro p hp q hq
    rcases happ p hp with hpold | hpnew
    · rcases happ q hq with hqold | hqnew
      · exact h.apart p hpold q hqold
      · rw [hqnew]
        exact .inr (hblock p hpold)
    · rw [hpnew]
      rcases happ q hq with hqold | hqnew
      · exact .inr (hblock q hqold).symm
      · exact .inl hqnew.symm
  -- The new pool is none of the nodes, and its fields are none of their links.
  have hlinks : ∀ w, LinkWord head s w → setFields mem handle name x w = s.mem w := by
    rintro w hw
    rw [setFields_frame, hmem w hw]
    rcases hw with ⟨n, hn, hw⟩
    unfold sizeofMblkPool at hhead hblock
    rcases List.mem_cons.mp hn with rfl | hn
    · omega
    · rcases List.mem_map.mp hn with ⟨p, hp, rfl⟩
      have hp := hblock p hp
      unfold statsItem at hw
      omega
  have hcircle : Circle (setFields mem handle name x) (prevIn (setFields mem handle name x)) head
      s.nodes :=
    h.listed.circle.congr (fun n hn => hlinks n ⟨n, hn, .inl rfl⟩)
      fun n hn => hlinks (n + 4) ⟨n, hn, .inr rfl⟩
  have hnew : statsItem handle ∉ head :: s.nodes := by
    unfold sizeofMblkPool at hhead hblock
    intro hmem
    rcases List.mem_cons.mp hmem with heq | hmem
    · unfold statsItem at heq
      omega
    · rcases List.mem_map.mp hmem with ⟨p, hp, heq⟩
      have hp := hblock p hp
      unfold statsItem at heq
      omega
  have hapart : NodesApart (statsItem handle :: head :: s.nodes) := by
    have hall := nodesApart hheads hpairs
    intro a ha b hb
    refine hall a ?_ b ?_
    · rw [List.map_append, ← List.cons_append]
      exact List.mem_append.mpr ((List.mem_cons.mp ha).symm.imp_right List.mem_singleton.mpr)
    · rw [List.map_append, ← List.cons_append]
      exact List.mem_append.mpr ((List.mem_cons.mp hb).symm.imp_right List.mem_singleton.mpr)
  refine ⟨⟨?_, ?_⟩, hheads, hpairs⟩
  · unfold nodes
    dsimp only
    rw [List.map_append]
    exact circle_klistInsert hcircle hnew hapart
  · intro p hp
    rcases happ p hp with hp | rfl
    · exact Finset.mem_insert_of_mem (h.listed.live p hp)
    · exact Finset.mem_insert_self _ _

theorem new_sound (h : s.Inv head) {turns : Nat} {handle : Option Nat}
    {pAddr blockCount blockSize : BitVec 32}
    (hkeep : s.Keeps head (.new turns handle pAddr blockCount blockSize))
    (hfresh : ∀ block ∈ handle, s.Fresh head block) {r : Nat} {t : Pools}
    (ht : s.mpoolNew head name turns handle pAddr blockCount blockSize = some (r, t)) :
    t.Inv head ∧ (r = 0 → t = s) := by
  unfold mpoolNew at ht
  by_cases hcheck : mpoolCheck pAddr blockCount blockSize = true
  · rw [if_pos hcheck] at ht
    cases ht
    exact ⟨h, fun _ => rfl⟩
  · rw [if_neg hcheck] at ht
    cases handle with
    | none =>
        cases ht
        exact ⟨h, fun _ => rfl⟩
    | some handle =>
        rcases hkeep with hcheck' | hnone | ⟨hpool, hlinks⟩
        · exact absurd hcheck' hcheck
        · cases hnone
        · dsimp only at ht
          rw [hpool] at ht
          rcases Option.map_eq_some_iff.mp ht with ⟨p, hinit, hp⟩
          cases hp
          have hblock := hfresh _ rfl
          refine ⟨created_inv h hblock p.1 fun w hw => ?_, fun hzero => absurd hzero hblock.1⟩
          refine mblkPoolInit_frame pAddr.isLt hinit fun i hi heq => hlinks i hi ?_
          rw [heq]
          exact hw

/-- The call that deletes leaves the list alone if it deletes nothing the list is in. -/
theorem del_inv (h : s.Inv head) {handle : Nat} (hkeep : s.Keeps head (.del handle)) :
    (s.mpoolDel handle).2.Inv head := by
  unfold mpoolDel
  by_cases hzero : handle = 0
  · rw [if_pos hzero]
    exact h
  · rw [if_neg hzero]
    rcases hkeep with hcontra | hapart
    · exact absurd hcontra hzero
    · have hnot : handle ∉ s.pools := by
        intro hmem
        have hword := hapart (statsItem handle)
          ⟨statsItem handle, List.mem_cons_of_mem head (List.mem_map_of_mem hmem), .inl rfl⟩
        unfold statsItem sizeofMblkPool at hword
        omega
      have hpools : s.pools.erase handle = s.pools := List.erase_of_not_mem hnot
      refine ⟨h.listed.of_links hpools ?_ ?_, ?_, ?_⟩
      · intro p hp
        exact Finset.mem_erase.mpr ⟨ne_of_mem_of_not_mem hp hnot, h.listed.live p hp⟩
      · exact fun w hw => if_pos (hapart w hw)
      · dsimp only
        rw [hpools]
        exact h.head_apart
      · dsimp only
        rw [hpools]
        exact h.apart

theorem step_inv (h : s.Inv head) {a : PoolAct} (hkeep : s.Keeps head a) {t : Pools}
    (ht : s.step head name a = some t) : t.Inv head := by
  cases a with
  | new turns handle pAddr blockCount blockSize =>
      unfold step at ht
      dsimp only at ht
      by_cases hfresh : ∀ block ∈ handle, s.Fresh head block
      · rw [if_pos hfresh] at ht
        rcases Option.map_eq_some_iff.mp ht with ⟨⟨r, u⟩, hr, rfl⟩
        exact (new_sound h hkeep hfresh hr).1
      · rw [if_neg hfresh] at ht
        cases ht
  | del handle =>
      cases ht
      exact del_inv h hkeep

theorem sound_of_keeps (h : s.Inv head) {a : PoolAct} (hkeep : s.Keeps head a) :
    s.Sound head name a := by
  cases a with
  | new turns handle pAddr blockCount blockSize =>
      intro hfresh r t ht
      rcases new_sound h hkeep hfresh ht with ⟨hinv, hsame⟩
      exact ⟨hinv.listed, hsame⟩
  | del handle => exact (del_inv h hkeep).listed

/-- The list of pools before the first one, in a heap with any blocks. -/
def init (head : Nat) (mem : Nat → Nat) (blocks : Finset Nat) : Pools where
  mem := Function.update (Function.update mem head head) (head + 4) head
  blocks := blocks
  pools := []

theorem init_inv (head : Nat) (mem : Nat → Nat) (blocks : Finset Nat) :
    (init head mem blocks).Inv head := by
  refine ⟨⟨circle_nil ?_ ?_, ?_⟩, ?_, ?_⟩
  · unfold init
    dsimp only
    rw [Function.update_of_ne (by omega), Function.update_self]
  · exact Function.update_self _ _ _
  · exact fun p hp => absurd hp List.not_mem_nil
  · exact fun p hp => absurd hp List.not_mem_nil
  · exact fun p hp => absurd hp List.not_mem_nil

/-- In a run whose calls all keep their pools, every call leaves the list of the pools there
    are, and one that creates no pool leaves everything as it was. -/
theorem pools_listed (name : Nat) (mem : Nat → Nat) (blocks : Finset Nat) (as : List PoolAct)
    (hkeep : Run.Along (step head name) (Keeps head) (init head mem blocks) as) :
    Run.Along (step head name) (Sound head name) (init head mem blocks) as :=
  Run.along_of_inv (fun _ _ _ hinv hk hs => step_inv hinv hk hs)
    (fun _ _ hinv hk => sound_of_keeps hinv hk) as _ (init_inv head mem blocks) hkeep

/-- Two pools of four blocks, a third that has no memory for its blocks, and a deletion of
    nothing. -/
def twoPools : List PoolAct :=
  [.new 5 (some 64) 4096 4 8, .new 5 (some 128) 8192 4 8, .new 5 (some 256) 0 4 8, .del 0]

theorem pools_listed_two :
    Run.Along (step 16 0) (Sound 16 0) (init 16 (fun _ => 0) ∅) twoPools ∧
      (Run.run (step 16 0) (init 16 (fun _ => 0) ∅) twoPools).map Pools.pools = some [64, 128] := by
  -- Four blocks of eight bytes lie behind where the first one does.
  have hblocks : ∀ S < 2 ^ 31, ∀ i, (∀ j < i, node S 8 (j + 1) < (S + 32) % 2 ^ 32) →
      S ≤ node S 8 i := by
    intro S hS i hi
    have hlt : i < 4 := by
      by_contra hge
      have hfourth := hi 3 (by omega)
      unfold node at hfourth
      omega
    unfold node
    omega
  refine ⟨pools_listed 0 _ ∅ twoPools ?_, by decide +kernel⟩
  refine Run.along_cons (.inr (.inr ⟨by decide, ?_⟩)) rfl (Run.along_cons
    (.inr (.inr ⟨by decide, ?_⟩)) rfl (Run.along_cons (.inl (by decide)) rfl
      (Run.along_cons (.inl rfl) rfl trivial)))
  · rintro i hi ⟨n, hn, hw⟩
    have hle := hblocks 4096 (by decide) i hi
    rw [List.mem_singleton.mp hn] at hw
    change node 4096 8 i = 16 ∨ node 4096 8 i = 16 + 4 at hw
    omega
  · rintro i hi ⟨n, hn, hw⟩
    have hle := hblocks 8192 (by decide) i hi
    change n ∈ [16, 88] at hn
    change node 8192 8 i = n ∨ node 8192 8 i = n + 4 at hw
    rcases List.mem_pair.mp hn with rfl | rfl
    · omega
    · omega

/-- A pool that is deleted stays in the list. -/
theorem deleted_pool_listed :
    ¬∀ as : List PoolAct, Run.Along (step 16 0) (Sound 16 0) (init 16 (fun _ => 0) ∅) as := by
  intro hall
  have hcircle := ((hall [.new 5 (some 64) 4096 4 8, .del 64]).2 _ rfl).1.circle
  have hnext := hcircle.2.1
  revert hnext
  decide

end Run

end Pools

end Rhino

end Wujian100
