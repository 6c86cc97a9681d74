import Wujian100.Core.Rhino.Runqueue

/-!
# The Run Queue is Exact

The run queue is for one thing: to know which tasks are ready, each at its
priority, and which priority is the highest. Each operation changes that
knowledge at one task, and keeps the lists, the bits and `highest_pri` in
agreement with it.

## Main definitions

* `hasBit`: A bit of the bitmap.
* `Runqueue.Holds`: The queue is that of the tasks which are ready.

## Theorems

* `findFirstBit_eq`: `krhino_find_first_bit` finds the first bit.
* `Runqueue.addTail_holds`, `Runqueue.addHead_holds`: A task becomes ready.
* `Runqueue.rm_holds`: A task is ready no longer, as long as another one is.
* `Runqueue.headToTail_holds`: A task goes behind the others.
* `Runqueue.Holds.preferred`: The task taken is ready, and none is before it.
-/

namespace Wujian100

namespace Rhino

/-! ## The bitmap -/

/-- The bit of a number, the first of a word its most significant. -/
def hasBit (b : Bitmap) (nr : Nat) : Bool :=
  (b (nr / 32)).getMsbD (nr % 32)

theorem getMsbD_bitmapMask (nr : Nat) {i : Nat} (hi : i < 32) :
    (bitmapMask nr).getMsbD i = decide (i = nr % 32) := by
  have hall : ∀ j i : Fin 32, (1#32 <<< (31 - j.val)).getMsbD i.val = decide (i.val = j.val) := by
    decide
  exact hall ⟨nr % 32, Nat.mod_lt _ (by decide)⟩ ⟨i, hi⟩

/-- A number is its word and its place in it. -/
theorem eq_iff_div_mod (p nr : Nat) : p = nr ↔ p / 32 = nr / 32 ∧ p % 32 = nr % 32 := by
  omega

theorem hasBit_set (b : Bitmap) (nr p : Nat) :
    hasBit (bitmapSet b nr) p = (decide (p = nr) || hasBit b p) := by
  unfold hasBit bitmapSet
  by_cases hw : p / 32 = nr / 32
  · rw [hw, Function.update_self, BitVec.getMsbD_or,
      getMsbD_bitmapMask nr (Nat.mod_lt _ (by decide)), Bool.or_comm]
    have hiff := eq_iff_div_mod p nr
    simp [hiff, hw]
  · rw [Function.update_of_ne hw]
    have hne : p ≠ nr := fun he => hw (by rw [he])
    simp [hne]

theorem hasBit_clear (b : Bitmap) (nr p : Nat) :
    hasBit (bitmapClear b nr) p = (decide (p ≠ nr) && hasBit b p) := by
  unfold hasBit bitmapClear
  have hlt : p % 32 < 32 := Nat.mod_lt _ (by decide)
  by_cases hw : p / 32 = nr / 32
  · rw [hw, Function.update_self, BitVec.getMsbD_and, BitVec.getMsbD_not,
      getMsbD_bitmapMask nr hlt, Bool.and_comm]
    have hiff := eq_iff_div_mod p nr
    simp [hiff, hw, hlt]
  · rw [Function.update_of_ne hw]
    have hne : p ≠ nr := fun he => hw (by rw [he])
    simp [hne]

/-- So many bits of the word are clear, and one of the next `k` is not. -/
structure FirstWithin (w : BitVec 32) (k : Nat) (s : BitVec 32 × Nat) : Prop where
  word : s.1 = w <<< s.2
  clear : ∀ i < s.2, w.getMsbD i = false
  next : ∃ j < k, w.getMsbD (s.2 + j) = true

/-- One test halves what is left to look at. -/
theorem skipClear_within {w : BitVec 32} {k : Nat} {s : BitVec 32 × Nat} {mask : BitVec 32}
    (h : FirstWithin w (k + k) s)
    (hmask : ∀ i < 32, mask.getMsbD i = decide (i < k)) :
    FirstWithin w k (skipClear mask k s) := by
  have hbit : ∀ i, s.1.getMsbD i = w.getMsbD (i + s.2) := by
    intro i
    rw [h.word, BitVec.getMsbD_shiftLeft]
  unfold skipClear
  by_cases hzero : s.1 &&& mask = 0#32
  · rw [if_pos hzero]
    have hclear : ∀ i < k, w.getMsbD (i + s.2) = false := by
      intro i hi
      rw [← hbit]
      by_cases hlt : i < 32
      · have hand : (s.1 &&& mask).getMsbD i = false := by rw [hzero, BitVec.getMsbD_zero]
        rw [BitVec.getMsbD_and, hmask i hlt] at hand
        simpa [hi] using hand
      · exact BitVec.getMsbD_of_ge _ _ (by omega)
    refine ⟨?_, ?_, ?_⟩
    · dsimp only
      rw [h.word, BitVec.shiftLeft_add]
    · intro i hi
      dsimp only at hi
      by_cases hlt : i < s.2
      · exact h.clear i hlt
      · rw [show i = (i - s.2) + s.2 by omega]
        exact hclear _ (by omega)
    · rcases h.next with ⟨j, hj, hset⟩
      -- The bit that is set is not among those that are clear.
      have hge : k ≤ j := by
        by_contra hlt
        rw [Nat.add_comm, hclear j (by omega)] at hset
        cases hset
      refine ⟨j - k, by omega, ?_⟩
      dsimp only
      rw [show s.2 + k + (j - k) = s.2 + j by omega]
      exact hset
  · rw [if_neg hzero]
    refine ⟨h.word, h.clear, ?_⟩
    by_contra hnone
    refine hzero (BitVec.eq_of_getMsbD_eq fun i hi => ?_)
    rw [BitVec.getMsbD_and, hmask i hi, BitVec.getMsbD_zero, hbit]
    by_cases hik : i < k
    · have hfalse : w.getMsbD (i + s.2) = false := by
        by_contra htrue
        exact hnone ⟨i, hik, by rw [Nat.add_comm]; simpa using htrue⟩
      rw [hfalse, Bool.false_and]
    · simp [hik]

theorem firstBitOf_spec {w : BitVec 32} (hw : w ≠ 0#32) :
    w.getMsbD (firstBitOf w) = true ∧ ∀ i < firstBitOf w, w.getMsbD i = false := by
  have hstart : FirstWithin w (16 + 16) (w, 0) := by
    refine ⟨by simp, by simp, ?_⟩
    by_contra hnone
    refine hw (BitVec.eq_of_getMsbD_eq fun i hi => ?_)
    rw [BitVec.getMsbD_zero]
    by_contra htrue
    exact hnone ⟨i, by omega, by simpa using htrue⟩
  have h16 := @skipClear_within w 16 _ 0xFFFF0000#32 hstart (by decide)
  have h8 := @skipClear_within w 8 _ 0xFF000000#32 h16 (by decide)
  have h4 := @skipClear_within w 4 _ 0xF0000000#32 h8 (by decide)
  have h2 := @skipClear_within w 2 _ 0xC0000000#32 h4 (by decide)
  have h1 := @skipClear_within w 1 _ 0x80000000#32 h2 (by decide)
  refine ⟨?_, h1.clear⟩
  rcases h1.next with ⟨j, hj, hset⟩
  rw [Nat.lt_one_iff.mp hj, Nat.add_zero] at hset
  exact hset

/-- The first bit is found, if there is one in the words. -/
theorem findFirstBit_eq {b : Bitmap} {p : Nat} (hp : p < 32 * numWords) (hbit : hasBit b p = true)
    (hfirst : ∀ q < p, hasBit b q = false) : findFirstBit b = some p := by
  -- The words below hold no bit, so the search stops at the word of `p`.
  have hzero : ∀ i < p / 32, b i = 0#32 := by
    intro i hi
    refine BitVec.eq_of_getMsbD_eq fun j hj => ?_
    have hq := hfirst (i * 32 + j) (by omega)
    unfold hasBit at hq
    rw [BitVec.getMsbD_zero, ← hq, show (i * 32 + j) / 32 = i by omega,
      show (i * 32 + j) % 32 = j by omega]
  have hword : b (p / 32) ≠ 0#32 := by
    intro hz
    unfold hasBit at hbit
    rw [hz, BitVec.getMsbD_zero] at hbit
    cases hbit
  have hfind : (List.range numWords).find? (fun i => b i ≠ 0#32) = some (p / 32) := by
    rw [List.find?_range_eq_some]
    refine ⟨by simpa using hword, List.mem_range.mpr (by omega), ?_⟩
    intro j hj
    simpa using hzero j hj
  rcases firstBitOf_spec hword with ⟨hset, hclear⟩
  -- Within it the bit found is neither before nor behind that of `p`.
  have hplace : firstBitOf (b (p / 32)) = p % 32 := by
    rcases Nat.lt_trichotomy (firstBitOf (b (p / 32))) (p % 32) with hlt | heq | hgt
    · have hq := hfirst (p / 32 * 32 + firstBitOf (b (p / 32))) (by omega)
      unfold hasBit at hq
      rw [show (p / 32 * 32 + firstBitOf (b (p / 32))) / 32 = p / 32 by omega,
        show (p / 32 * 32 + firstBitOf (b (p / 32))) % 32 = firstBitOf (b (p / 32)) by omega,
        hset] at hq
      cases hq
    · exact heq
    · have hq := hclear (p % 32) hgt
      unfold hasBit at hbit
      rw [hbit] at hq
      cases hq
  unfold findFirstBit
  rw [hfind, Option.map_some, hplace]
  congr 1
  omega

/-! ## The ready lists -/

namespace Runqueue

variable {T : Type}

/-- The queue is that of the tasks that are ready, `ready t` the priority at which
    `t` is. -/
structure Holds (rq : Runqueue T) (ready : T → Option Nat) : Prop where
  mem : ∀ t p, t ∈ rq.list p ↔ ready t = some p
  nodup : ∀ p, (rq.list p).Nodup
  bit : ∀ p < 32 * numWords, hasBit rq.taskBitMap p = true ↔ rq.list p ≠ []
  bound : ∀ t p, ready t = some p → p < priMax
  least : ∀ p, rq.list p ≠ [] → rq.highestPri ≤ p
  found : rq.list rq.highestPri ≠ [] ∨ rq.highestPri = priMax

section

variable {rq rq' : Runqueue T} {ready : T → Option Nat} {t : T} {prio : Nat}

theorem init_holds : Holds (.init : Runqueue T) fun _ => none := by
  refine ⟨?_, ?_, ?_, ?_, ?_, .inr rfl⟩
  all_goals simp [Runqueue.init, hasBit]

theorem Holds.lt_of_ne_nil (h : Holds rq ready) {p : Nat} (hp : rq.list p ≠ []) : p < priMax := by
  rcases List.exists_mem_of_ne_nil _ hp with ⟨u, hu⟩
  exact h.bound u p ((h.mem u p).mp hu)

/-- The task taken is ready, and none that is ready is before it. -/
theorem Holds.preferred (h : Holds rq ready) {u : T} {q : Nat} (hu : ready u = some q) :
    ∃ t, rq.preferred = some t ∧ ready t = some rq.highestPri ∧
      ∀ u p, ready u = some p → rq.highestPri ≤ p := by
  have hne : rq.list rq.highestPri ≠ [] := by
    rcases h.found with hfound | hmax
    · exact hfound
    · have hle := h.least q (List.ne_nil_of_mem ((h.mem u q).mpr hu))
      have hlt := h.bound u q hu
      omega
  rcases List.exists_cons_of_ne_nil hne with ⟨t, rest, hl⟩
  refine ⟨t, ?_, ?_, ?_⟩
  · unfold Runqueue.preferred
    rw [hl]
    rfl
  · refine (h.mem t _).mp ?_
    rw [hl]
    exact List.mem_cons_self
  · intro v p hv
    exact h.least p (List.ne_nil_of_mem ((h.mem v p).mpr hv))

theorem headToTail_holds (h : Holds rq ready) (ht : ready t = some prio) :
    ∃ rq', rq.headToTail prio = some rq' ∧ Holds rq' ready := by
  have hne : rq.list prio ≠ [] := List.ne_nil_of_mem ((h.mem t prio).mpr ht)
  unfold headToTail
  rw [if_neg hne]
  have hperm : ∀ p, (Function.update rq.list prio ((rq.list prio).rotate 1) p).Perm (rq.list p) := by
    intro p
    by_cases hp : p = prio
    · rw [hp, Function.update_self]
      exact List.rotate_perm _ _
    · rw [Function.update_of_ne hp]
  have hnil : ∀ p, Function.update rq.list prio ((rq.list prio).rotate 1) p ≠ [] ↔
      rq.list p ≠ [] := by
    intro p
    rw [← List.length_pos_iff, ← List.length_pos_iff, (hperm p).length_eq]
  refine ⟨_, rfl, ?_, ?_, ?_, h.bound, ?_, ?_⟩
  · intro u p
    rw [← h.mem u p]
    exact (hperm p).mem_iff
  · intro p
    exact (hperm p).nodup_iff.mpr (h.nodup p)
  · intro p hp
    rw [h.bit p hp]
    exact (hnil p).symm
  · intro p hp
    exact h.least p ((hnil p).mp hp)
  · rcases h.found with hfound | hmax
    · exact .inl ((hnil _).mpr hfound)
    · exact .inr hmax

variable [DecidableEq T]

/-- A list with one task more, at either end. -/
theorem Holds.add (h : Holds rq ready) (ht : ready t = none) (hprio : prio < priMax)
    (hlist : ∀ p, p ≠ prio → rq'.list p = rq.list p)
    (hself : (rq'.list prio).Perm (t :: rq.list prio))
    (hbit : ∀ p, hasBit rq'.taskBitMap p = (decide (p = prio) || hasBit rq.taskBitMap p))
    (hhigh : rq'.highestPri = min prio rq.highestPri) :
    Holds rq' (Function.update ready t (some prio)) := by
  have hnot : t ∉ rq.list prio := by
    intro hmem
    rw [(h.mem t prio).mp hmem] at ht
    cases ht
  have hne : rq'.list prio ≠ [] := by
    intro hnil
    rw [hnil] at hself
    exact absurd hself.length_eq (by simp)
  refine ⟨?_, ?_, ?_, ?_, ?_, ?_⟩
  · intro u p
    by_cases hp : p = prio
    · rw [hp, hself.mem_iff, List.mem_cons]
      by_cases hu : u = t
      · simp [hu]
      · rw [Function.update_of_ne hu, h.mem u prio]
        simp [hu]
    · rw [hlist p hp, h.mem u p]
      by_cases hu : u = t
      · rw [hu, Function.update_self, ht]
        simp [Ne.symm hp]
      · rw [Function.update_of_ne hu]
  · intro p
    by_cases hp : p = prio
    · rw [hp, hself.nodup_iff, List.nodup_cons]
      exact ⟨hnot, h.nodup prio⟩
    · rw [hlist p hp]
      exact h.nodup p
  · intro p hlt
    rw [hbit p]
    by_cases hp : p = prio
    · simp [hp, hne]
    · rw [hlist p hp, ← h.bit p hlt]
      simp [hp]
  · intro u p hu
    by_cases hut : u = t
    · rw [hut, Function.update_self, Option.some.injEq] at hu
      rw [← hu]
      exact hprio
    · rw [Function.update_of_ne hut] at hu
      exact h.bound u p hu
  · intro p hp
    rw [hhigh]
    by_cases hpp : p = prio
    · rw [hpp]
      exact Nat.min_le_left _ _
    · rw [hlist p hpp] at hp
      exact (Nat.min_le_right _ _).trans (h.least p hp)
  · left
    rw [hhigh]
    by_cases hle : prio ≤ rq.highestPri
    · rw [Nat.min_eq_left hle]
      exact hne
    · rw [Nat.min_eq_right (by omega), hlist _ (by omega)]
      -- The list of the highest priority is not that of a lower one.
      rcases h.found with hfound | hmax
      · exact hfound
      · omega

theorem listInit_holds (h : Holds rq ready) (ht : ready t = none) (hprio : prio < priMax)
    (hnil : rq.list prio = []) :
    Holds (rq.listInit prio t) (Function.update ready t (some prio)) := by
  refine h.add ht hprio ?_ ?_ ?_ ?_
  · intro p hp
    exact Function.update_of_ne hp _ _
  · change (Function.update rq.list prio [t] prio).Perm _
    rw [Function.update_self, hnil]
  · exact hasBit_set rq.taskBitMap prio
  · change (if prio < rq.highestPri then prio else rq.highestPri) = _
    split_ifs <;> omega

/-- Where the list is not empty, its bit is set and its priority counts already. -/
theorem addTo_holds (h : Holds rq ready) (ht : ready t = none) (hprio : prio < priMax)
    (hne : rq.list prio ≠ []) {l : List T} (hl : l.Perm (t :: rq.list prio)) :
    Holds { rq with list := Function.update rq.list prio l }
      (Function.update ready t (some prio)) := by
  refine h.add ht hprio ?_ ?_ ?_ ?_
  · intro p hp
    exact Function.update_of_ne hp _ _
  · change (Function.update rq.list prio l prio).Perm _
    rw [Function.update_self]
    exact hl
  · intro p
    by_cases hp : p = prio
    · have hlt : prio < 32 * numWords := by
        unfold priMax at hprio
        unfold numWords priMax
        omega
      rw [hp, (h.bit prio hlt).mpr hne]
      simp
    · simp [hp]
  · have hle := h.least prio hne
    dsimp only
    omega

theorem addTail_holds (h : Holds rq ready) (ht : ready t = none) (hprio : prio < priMax) :
    Holds (rq.addTail prio t) (Function.update ready t (some prio)) := by
  unfold addTail
  by_cases hnil : rq.list prio = []
  · rw [if_pos hnil]
    exact listInit_holds h ht hprio hnil
  · rw [if_neg hnil]
    exact addTo_holds h ht hprio hnil (List.perm_append_singleton t _)

theorem addHead_holds (h : Holds rq ready) (ht : ready t = none) (hprio : prio < priMax) :
    Holds (rq.addHead prio t) (Function.update ready t (some prio)) := by
  unfold addHead
  by_cases hnil : rq.list prio = []
  · rw [if_pos hnil]
    exact listInit_holds h ht hprio hnil
  · rw [if_neg hnil]
    exact addTo_holds h ht hprio hnil (List.Perm.refl _)

/-- A task leaves its list, which keeps others or none. -/
theorem Holds.remove (h : Holds rq ready) (ht : ready t = some prio)
    (hlist : ∀ p, rq'.list p = if p = prio then (rq.list p).erase t else rq.list p)
    (hbit : ∀ p < 32 * numWords, hasBit rq'.taskBitMap p = true ↔ rq'.list p ≠ [])
    (hleast : ∀ p, rq'.list p ≠ [] → rq'.highestPri ≤ p)
    (hfound : rq'.list rq'.highestPri ≠ []) : Holds rq' (Function.update ready t none) := by
  refine ⟨?_, ?_, hbit, ?_, hleast, .inl hfound⟩
  · intro u p
    rw [hlist p]
    by_cases hut : u = t
    · rw [hut, Function.update_self]
      by_cases hp : p = prio
      · simp [hp, (h.nodup prio).not_mem_erase]
      · rw [if_neg hp, h.mem t p, ht]
        simp [Ne.symm hp]
    · rw [Function.update_of_ne hut, ← h.mem u p]
      split_ifs
      · exact List.mem_erase_of_ne hut
      · rfl
  · intro p
    rw [hlist p]
    split_ifs
    · exact (h.nodup p).erase t
    · exact h.nodup p
  · intro u p hu
    by_cases hut : u = t
    · rw [hut, Function.update_self] at hu
      cases hu
    · rw [Function.update_of_ne hut] at hu
      exact h.bound u p hu

/-- The last of its priority goes: the bit is cleared, and the first bit that is
    left is the highest priority. -/
theorem rm_last_holds (h : Holds rq ready) (ht : ready t = some prio) (hsingle : rq.list prio = [t])
    {u : T} {q : Nat} (hut : u ≠ t) (hu : ready u = some q) :
    ∃ rq', rq.rm prio t = some rq' ∧ Holds rq' (Function.update ready t none) := by
  have hqmem := (h.mem u q).mpr hu
  have hqprio : q ≠ prio := by
    intro he
    rw [he, hsingle] at hqmem
    exact hut (by simpa using hqmem)
  have hnew : ∀ p, Function.update rq.list prio [] p
      = if p = prio then (rq.list p).erase t else rq.list p := by
    intro p
    by_cases hp : p = prio
    · rw [hp, Function.update_self, if_pos rfl, hsingle]
      simp
    · rw [Function.update_of_ne hp, if_neg hp]
  have hbit : ∀ p < 32 * numWords, hasBit (bitmapClear rq.taskBitMap prio) p = true ↔
      Function.update rq.list prio [] p ≠ [] := by
    intro p hlt
    rw [hasBit_clear]
    by_cases hp : p = prio
    · simp [hp]
    · rw [Function.update_of_ne hp, ← h.bit p hlt]
      simp [hp]
  unfold rm
  rw [hsingle]
  dsimp only
  by_cases hhigh : prio ≠ rq.highestPri
  · rw [if_pos hhigh]
    refine ⟨_, rfl, h.remove ht hnew hbit ?_ ?_⟩
    · intro p hp
      by_cases hpp : p = prio
      · rw [hpp] at hp
        simp at hp
      · dsimp only at hp
        rw [Function.update_of_ne hpp] at hp
        exact h.least p hp
    · dsimp only
      rw [Function.update_of_ne (Ne.symm hhigh)]
      rcases h.found with hfound | hmax
      · exact hfound
      · have hle := h.least prio (by rw [hsingle]; simp)
        have hlt := h.bound t prio ht
        omega
  · rw [if_neg hhigh]
    -- The least priority with a task is where the first bit is.
    have hex : ∃ p, Function.update rq.list prio [] p ≠ [] := by
      refine ⟨q, ?_⟩
      rw [Function.update_of_ne hqprio]
      exact List.ne_nil_of_mem hqmem
    classical
    have hmin := Nat.find_spec hex
    have hmin' : ∀ p, Function.update rq.list prio [] p ≠ [] → Nat.find hex ≤ p :=
      fun p hp => Nat.find_min' hex hp
    generalize Nat.find hex = m at hmin hmin'
    have hmprio : m ≠ prio := by
      intro he
      rw [he] at hmin
      simp at hmin
    have hlt : m < 32 * numWords := by
      rw [Function.update_of_ne hmprio] at hmin
      have := h.lt_of_ne_nil hmin
      unfold priMax at this
      unfold numWords priMax
      omega
    have hfirst : findFirstBit (bitmapClear rq.taskBitMap prio) = some m := by
      refine findFirstBit_eq hlt ((hbit m hlt).mpr hmin) ?_
      intro p hp
      by_contra htrue
      have := hmin' p ((hbit p (by omega)).mp (by simpa using htrue))
      omega
    rw [hfirst]
    exact ⟨_, rfl, h.remove ht hnew hbit hmin' hmin⟩

/-- A task is ready no longer, as long as another one is. -/
theorem rm_holds (h : Holds rq ready) (ht : ready t = some prio) {u : T} {q : Nat} (hut : u ≠ t)
    (hu : ready u = some q) :
    ∃ rq', rq.rm prio t = some rq' ∧ Holds rq' (Function.update ready t none) := by
  have hmem := (h.mem t prio).mpr ht
  cases hl : rq.list prio with
  | nil =>
      rw [hl] at hmem
      cases hmem
  | cons a rest =>
      cases rest with
      | nil =>
          rw [hl, List.mem_singleton] at hmem
          subst hmem
          exact rm_last_holds h ht hl hut hu
      | cons b rest =>
          have hrm : rq.rm prio t
              = some { rq with list := Function.update rq.list prio ((rq.list prio).erase t) } := by
            unfold rm
            rw [hl]
          -- Another task has this priority, so the bitmap stays and only the list changes.
          have hlen : ((rq.list prio).erase t) ≠ [] := by
            intro hnil
            have hlength := List.length_erase_of_mem hmem
            rw [hnil, hl] at hlength
            simp at hlength
          have hnew : ∀ p, Function.update rq.list prio ((rq.list prio).erase t) p
              = if p = prio then (rq.list p).erase t else rq.list p := by
            intro p
            by_cases hp : p = prio
            · rw [hp, Function.update_self, if_pos rfl]
            · rw [Function.update_of_ne hp, if_neg hp]
          have hsame : ∀ p, Function.update rq.list prio ((rq.list prio).erase t) p ≠ [] ↔
              rq.list p ≠ [] := by
            intro p
            by_cases hp : p = prio
            · rw [hp, Function.update_self]
              exact ⟨fun _ => by rw [hl]; simp, fun _ => hlen⟩
            · rw [Function.update_of_ne hp]
          refine ⟨_, hrm, h.remove ht hnew ?_ ?_ ?_⟩
          · intro p hp
            rw [hsame p]
            exact h.bit p hp
          · intro p hp
            exact h.least p ((hsame p).mp hp)
          · refine (hsame _).mpr ?_
            rcases h.found with hfound | hmax
            · exact hfound
            · have hle := h.least prio (by rw [hl]; simp)
              have hlt := h.bound t prio ht
              omega

end

end Runqueue

end Rhino

end Wujian100
