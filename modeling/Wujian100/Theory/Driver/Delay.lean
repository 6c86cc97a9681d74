import Wujian100.Core.Driver.Delay

/-!
# How Long mdelay Waits

`_mdelay` compares two readings. If the second one is below the first, the difference is what
passed. If not, the timer has started again, and the code takes what passed as one cycle less
than it is and wants more than `cnt`, so that a wait which ends in a new turn is two cycles
late. Equal readings fall into the second branch too. There nothing passed, the code reckons
with the whole load value, and the wait is over before it began.

## Main definitions

* `Coret.elapsed`: The cycles between two readings.
* `Coret.Due`: The first reading at which enough cycles went by.
* `Coret.DelayRight`: A `_mdelay` returns at the reading that is due.
* `Coret.DelayCond`: What makes it do so.

## Theorems

* `mdelayOver_iff`: The condition of the loop, in cycles.
* `mdelayLoop_iff`: The loop returns at the first reading that meets the condition.
* `mdelay_waits_iff`: When `_mdelay` is right, and how long `mdelay` waits if time goes on.
-/

namespace Wujian100

namespace Driver

namespace Coret

variable {c : Coret}

/-- The cycles that go by between two readings. -/
def elapsed (c : Coret) (k i : Nat) : Nat := c.time i - c.time k

/-- Reading `i` is the first one after reading `k` at which `cnt` cycles went by. -/
def Due (c : Coret) (cnt k i : Nat) : Prop :=
  k < i ∧ cnt ≤ c.elapsed k i ∧ ∀ j, k < j → j < i → c.elapsed k j < cnt

/-- The `_mdelay` that begins with reading `k` returns exactly at the reading that is due. -/
def DelayRight (c : Coret) (sysFreq k : Nat) : Prop :=
  ∀ i, (∃ fuel, c._mdelay sysFreq fuel k = some (i + 1)) ↔ c.Due (sysFreq / 1000) k i

/-- A cycle goes by between the first two readings, unless there is nothing to wait for, and
    the reading that is due is not one in a new turn with only `cnt` or `cnt + 1` cycles
    gone. -/
def DelayCond (c : Coret) (sysFreq k : Nat) : Prop :=
  (sysFreq / 1000 = 0 ∨ c.time (k + 1) ≠ c.time k) ∧
    ∀ i, c.Due (sysFreq / 1000) k i →
      ¬ ((c.value k).toNat < c.elapsed k i ∧ c.elapsed k i ≤ sysFreq / 1000 + 1)

section Timer

/-- Two readings differ by the cycles between them. -/
theorem value_elapsed {k i : Nat} (hki : k ≤ i) :
    (c.value i).toNat
      = Countdown.value c.load.toNat (c.value k).toNat (c.elapsed k i) := by
  have hbound (j : Nat) : Countdown.value c.load.toNat c.start.toNat (c.time j) < 2 ^ 32 := by
    have hload := c.load.isLt
    have hstart := c.start.isLt
    rw [Countdown.value]
    split <;> omega
  have hle := c.mono hki
  rw [value, value, BitVec.toNat_ofNat, BitVec.toNat_ofNat, Nat.mod_eq_of_lt (hbound i),
    Nat.mod_eq_of_lt (hbound k), Countdown.value_add, elapsed]
  congr 1
  omega

/-- Within a turn the loop's condition says: at once, after `cnt` cycles before the timer
    starts again, and after two more than that once it did. -/
theorem mdelayOver_iff {start cur load : BitVec 32} {cnt e : Nat} (hcnt : cnt < load.toNat)
    (hcur : cur.toNat = Countdown.value load.toNat start.toNat e) (hturn : e ≤ load.toNat) :
    mdelayOver load start (BitVec.ofNat 32 cnt) cur = true ↔
      e = 0 ∨ (e ≤ start.toNat ∧ cnt ≤ e) ∨ (start.toNat < e ∧ cnt + 2 ≤ e) := by
  have hload := load.isLt
  have hstart := start.isLt
  have hcntNat : (BitVec.ofNat 32 cnt).toNat = cnt := by
    rw [BitVec.toNat_ofNat, Nat.mod_eq_of_lt (by omega)]
  rcases Nat.lt_or_ge start.toNat e with hgt | hle
  · -- The timer started again: it shows more than `start`, and `load - cur + start` is `e - 1`.
    rw [Countdown.value_of_gt hgt (by omega)] at hcur
    have hlt : ¬ start > cur := by
      rw [gt_iff_lt, BitVec.lt_def]
      omega
    have hdiff : (load - cur + start).toNat = e - 1 := by
      rw [BitVec.toNat_add, BitVec.toNat_sub]
      omega
    rw [mdelayOver, if_neg hlt, decide_eq_true_iff, gt_iff_lt, BitVec.lt_def, hdiff,
      hcntNat]
    omega
  · rw [Countdown.value_of_le hle] at hcur
    rcases Nat.eq_zero_or_pos e with rfl | hpos
    · -- Equal readings: `load - cur + start` is the load value, whatever the timer shows.
      have hlt : ¬ start > cur := by
        rw [gt_iff_lt, BitVec.lt_def]
        omega
      have hdiff : (load - cur + start).toNat = load.toNat := by
        rw [BitVec.toNat_add, BitVec.toNat_sub]
        omega
      rw [mdelayOver, if_neg hlt, decide_eq_true_iff, gt_iff_lt, BitVec.lt_def, hdiff,
        hcntNat]
      omega
    · have hlt : start > cur := by
        rw [gt_iff_lt, BitVec.lt_def]
        omega
      have hdiff : (start - cur).toNat = e := by
        rw [BitVec.toNat_sub]
        omega
      rw [mdelayOver, if_pos hlt, decide_eq_true_iff, ge_iff_le, BitVec.le_def, hdiff,
        hcntNat]
      omega

end Timer

section Loop

variable {start cnt : BitVec 32}

/-- The loop returns at the first reading that meets its condition, if it is given enough
    turns. -/
theorem mdelayLoop_iff {k i : Nat} :
    (∃ fuel, c.mdelayLoop start cnt fuel k = some (i + 1)) ↔
      k ≤ i ∧ mdelayOver c.load start cnt (c.value i) = true ∧
        ∀ j, k ≤ j → j < i → mdelayOver c.load start cnt (c.value j) = false := by
  constructor
  · rintro ⟨fuel, h⟩
    induction fuel generalizing k with
    | zero => cases h
    | succ fuel ih =>
        rw [mdelayLoop] at h
        split at h
        next hover =>
          have hki : k = i := by
            have := Option.some.inj h
            omega
          subst hki
          exact ⟨Nat.le_refl k, hover, fun j hj hjk => absurd hjk (by omega)⟩
        next hover =>
          have ⟨hk, hi, hbefore⟩ := ih h
          refine ⟨by omega, hi, fun j hj hji => ?_⟩
          rcases Nat.eq_or_lt_of_le hj with rfl | hlt
          · exact Bool.eq_false_iff.mpr hover
          · exact hbefore j hlt hji
  · rintro ⟨hki, hi, hbefore⟩
    -- Induction on how many readings are still to come before the one that ends the loop.
    obtain ⟨n, rfl⟩ := Nat.exists_eq_add_of_le hki
    refine ⟨n + 1, ?_⟩
    induction n generalizing k with
    | zero => rw [mdelayLoop, if_pos (by simpa only [Nat.add_zero] using hi), Nat.add_zero]
    | succ n ih =>
        have hk := hbefore k (Nat.le_refl k) (by omega)
        rw [mdelayLoop, if_neg (by rw [hk]; exact Bool.false_ne_true)]
        have hnext : k + (n + 1) = k + 1 + n := by omega
        rw [hnext] at hi hbefore ⊢
        exact ih (by omega) hi fun j hj hjn => hbefore j (by omega) hjn

end Loop

section Wait

variable {sysFreq : Nat}

/-- As long as less than `cnt` cycles went by at every reading before, the timer did not come
    round. -/
theorem elapsed_le_load (hcnt : sysFreq / 1000 < c.load.toNat)
    (hgap : ∀ k, c.elapsed k (k + 1) < c.load.toNat + 1 - sysFreq / 1000) {k i : Nat} (hki : k < i)
    (hbefore : ∀ j, k < j → j < i → c.elapsed k j < sysFreq / 1000) :
    c.elapsed k i ≤ c.load.toNat := by
  have hstep := hgap (i - 1)
  rw [Nat.sub_add_cancel (by omega)] at hstep
  have hk := c.mono (show k ≤ i - 1 by omega)
  have hi := c.mono (show i - 1 ≤ i by omega)
  rcases Nat.eq_or_lt_of_le (show k ≤ i - 1 by omega) with heq | hlt
  · rw [← heq] at hstep
    simp only [elapsed] at hstep ⊢
    omega
  · have hprev := hbefore (i - 1) hlt (by omega)
    simp only [elapsed] at hstep hprev ⊢
    omega

/-- What `_mdelay` finds at a reading within the turn. -/
theorem over_iff (hcnt : sysFreq / 1000 < c.load.toNat) {k i : Nat} (hki : k ≤ i)
    (hturn : c.elapsed k i ≤ c.load.toNat) :
    mdelayOver c.load (c.value k) (BitVec.ofNat 32 (sysFreq / 1000)) (c.value i) = true ↔
      c.elapsed k i = 0 ∨ (c.elapsed k i ≤ (c.value k).toNat ∧ sysFreq / 1000 ≤ c.elapsed k i) ∨
        ((c.value k).toNat < c.elapsed k i ∧ sysFreq / 1000 + 2 ≤ c.elapsed k i) :=
  mdelayOver_iff hcnt (value_elapsed hki) hturn

/-- If a cycle went by between the first two readings, some did at every later one. -/
theorem elapsed_pos {k i : Nat} (hk : c.time (k + 1) ≠ c.time k) (hki : k < i) :
    0 < c.elapsed k i := by
  have hnext := c.mono (show k ≤ k + 1 by omega)
  have hi := c.mono (show k + 1 ≤ i by omega)
  rw [elapsed]
  omega

/-- `_mdelay` returns at the reading that is due exactly if the first two readings are not
    made in one cycle and the due one is not made just after the timer started again. -/
theorem delayRight_iff (hcnt : sysFreq / 1000 < c.load.toNat)
    (hgap : ∀ k, c.elapsed k (k + 1) < c.load.toNat + 1 - sysFreq / 1000) (k : Nat) :
    c.DelayRight sysFreq k ↔ c.DelayCond sysFreq k := by
  constructor
  · intro hright
    constructor
    · by_contra hc
      rw [not_or, not_ne_iff] at hc
      -- The second reading ends the wait, with nothing gone.
      have hzero : c.elapsed k (k + 1) = 0 := by rw [elapsed, hc.2, Nat.sub_self]
      have hover := (over_iff hcnt (show k ≤ k + 1 by omega) (by omega)).mpr (Or.inl hzero)
      have hret := mdelayLoop_iff.mpr
        ⟨Nat.le_refl (k + 1), hover, fun j hj hjk => absurd hjk (by omega)⟩
      have hdue := ((hright (k + 1)).mp hret).2.1
      omega
    · rintro i hdue ⟨hgt, hle⟩
      have hturn := elapsed_le_load hcnt hgap hdue.1 hdue.2.2
      have hret := mdelayLoop_iff.mp ((hright i).mpr hdue)
      have hover := (over_iff hcnt (Nat.le_of_lt hdue.1) hturn).mp hret.2.1
      omega
  · rintro ⟨hmove, hlate⟩ i
    -- A due reading meets the condition of the loop.
    have hdueOver : ∀ j, c.Due (sysFreq / 1000) k j →
        mdelayOver c.load (c.value k) (BitVec.ofNat 32 (sysFreq / 1000)) (c.value j) = true := by
      intro j hdue
      have hturn := elapsed_le_load hcnt hgap hdue.1 hdue.2.2
      have hnot := hlate j hdue
      have hcnt' := hdue.2.1
      refine (over_iff hcnt (Nat.le_of_lt hdue.1) hturn).mpr ?_
      omega
    constructor
    · intro hret
      obtain ⟨hki, hover, hbefore⟩ := mdelayLoop_iff.mp hret
      -- No earlier reading was due, for it would have ended the loop.
      have hearly : ∀ j, k < j → j < i → c.elapsed k j < sysFreq / 1000 := by
        intro j
        induction j using Nat.strong_induction_on with
        | _ j ih =>
            intro hkj hji
            by_contra hc
            have hdue : c.Due (sysFreq / 1000) k j :=
              ⟨hkj, by omega, fun j' hk hj' => ih j' hj' hk (by omega)⟩
            have hfalse := hbefore j hkj hji
            rw [hdueOver j hdue] at hfalse
            cases hfalse
      have hturn := elapsed_le_load hcnt hgap hki hearly
      have hcase := (over_iff hcnt (by omega) hturn).mp hover
      refine ⟨hki, ?_, hearly⟩
      rcases hmove with hzero | hne
      · omega
      · have hpos := elapsed_pos hne hki
        omega
    · intro hdue
      refine mdelayLoop_iff.mpr ⟨hdue.1, hdueOver i hdue, fun j hj hji => ?_⟩
      have hlt := hdue.2.2 j hj hji
      have hturn : c.elapsed k j ≤ c.load.toNat := by omega
      have hpos : 0 < c.elapsed k j := by
        rcases hmove with hzero | hne
        · omega
        · exact elapsed_pos hne hj
      rw [Bool.eq_false_iff]
      intro hover
      have hcase := (over_iff hcnt (by omega) hturn).mp hover
      omega

/-- Where `_mdelay` ends enough cycles are gone, if one went by between its first two
    readings. A reading before that cannot have ended it. -/
theorem _mdelay_waits (hcnt : sysFreq / 1000 < c.load.toNat) {fuel k j : Nat}
    (hmove : c.time (k + 1) ≠ c.time k) (h : c._mdelay sysFreq fuel k = some (j + 1)) :
    k < j ∧ c.time k + sysFreq / 1000 ≤ c.time j := by
  obtain ⟨hkj, hover, -⟩ := mdelayLoop_iff.mp ⟨fuel, h⟩
  have hkj' : k < j := hkj
  refine ⟨hkj', ?_⟩
  by_contra hc
  have hpos := elapsed_pos hmove hkj'
  have hmono := c.mono (Nat.le_of_lt hkj')
  have hlt : c.elapsed k j < sysFreq / 1000 := by
    rw [elapsed] at hpos ⊢
    omega
  have hcase := (over_iff hcnt (Nat.le_of_lt hkj') (by omega)).mp hover
  omega

/-- The loop never ends at the reading it begins with. -/
theorem mdelayLoop_succ {start cnt : BitVec 32} {fuel k j : Nat}
    (h : c.mdelayLoop start cnt fuel k = some j) : ∃ i, j = i + 1 := by
  induction fuel generalizing k with
  | zero => cases h
  | succ fuel ih =>
      rw [mdelayLoop] at h
      split at h
      · exact ⟨k, (Option.some.inj h).symm⟩
      · exact ih h

/-- `mdelay` waits at least `ms` times as long as it should wait for one millisecond, if every
    two readings are made in different cycles. -/
theorem mdelay_waits (hcnt : sysFreq / 1000 < c.load.toNat)
    (hmove : ∀ k, c.time (k + 1) ≠ c.time k) {fuel ms k j : Nat}
    (h : c.mdelay sysFreq fuel ms k = some j) :
    c.time k + ms * (sysFreq / 1000) ≤ c.time (if ms = 0 then k else j - 1) := by
  induction ms generalizing k with
  | zero => rw [if_pos rfl, Nat.zero_mul, Nat.add_zero]
  | succ ms ih =>
      rw [mdelay] at h
      split at h
      next => cases h
      next j₁ h₁ =>
        obtain ⟨i, rfl⟩ := mdelayLoop_succ h₁
        have hfirst := (_mdelay_waits hcnt (hmove k) h₁).2
        have hrest := ih h
        have hnext := c.mono (show i ≤ i + 1 by omega)
        rw [if_neg (Nat.succ_ne_zero ms), Nat.add_mul, Nat.one_mul]
        rcases Nat.eq_zero_or_pos ms with rfl | hms
        · -- It was the last one.
          rw [mdelay, Option.some.injEq] at h
          rw [← h, Nat.add_sub_cancel, Nat.zero_mul]
          omega
        · rw [if_neg (by omega)] at hrest
          omega

/-- Each `_mdelay` of a run returns at the first reading with enough cycles gone exactly under
    its condition, and if every two readings are made in different cycles a whole `mdelay`
    waits long enough. -/
theorem mdelay_waits_iff (c : Coret) (sysFreq : Nat) (hcnt : sysFreq / 1000 < c.load.toNat)
    (hgap : ∀ k, c.elapsed k (k + 1) < c.load.toNat + 1 - sysFreq / 1000) :
    (∀ k, c.DelayRight sysFreq k ↔ c.DelayCond sysFreq k) ∧
      ∀ fuel ms k j, (∀ k, c.time (k + 1) ≠ c.time k) → c.mdelay sysFreq fuel ms k = some j →
        c.time k + ms * (sysFreq / 1000) ≤ c.time (if ms = 0 then k else j - 1) :=
  ⟨delayRight_iff hcnt hgap, fun _ _ _ _ hmove h => mdelay_waits hcnt hmove h⟩

/-- The timer of a 20 MHz board with a tick of 10 ms, read every 16 cycles. -/
def steady : Coret := ⟨199999#32, 199999#32, fun k => 16 * k, fun _ _ h => Nat.mul_le_mul_left 16 h⟩

/-- There the first `_mdelay` is right. -/
theorem mdelay_waits_steady : steady.DelayRight 20000000 0 := by
  refine ((mdelay_waits_iff steady 20000000 (by decide) (fun k => ?_)).1 0).mpr ⟨?_, ?_⟩
  · simp only [elapsed, steady, BitVec.toNat_ofNat]
    omega
  · exact Or.inr (by decide)
  · rintro i - ⟨hgt, hle⟩
    have hstart : (steady.value 0).toNat = 199999 := by decide
    omega

/-- The same timer, read twice in its first cycle. -/
def stalled : Coret :=
  ⟨199999#32, 199999#32, fun k => 16 * (k - 1), fun _ _ h => Nat.mul_le_mul_left 16 (by omega)⟩

/-- There a wait of 20000 cycles is over at the second reading, with no cycle gone. -/
theorem mdelay_at_once : stalled._mdelay 20000000 1 0 = some 2 ∧ stalled.elapsed 0 1 = 0 ∧
    (∀ k, stalled.elapsed k (k + 1) < stalled.load.toNat + 1 - 20000000 / 1000) ∧
    ¬ stalled.DelayRight 20000000 0 := by
  have hret : stalled._mdelay 20000000 1 0 = some 2 := by decide
  refine ⟨hret, by decide, fun k => ?_, fun hright => ?_⟩
  · simp only [elapsed, stalled, BitVec.toNat_ofNat]
    omega
  · have hdue := ((hright 1).mp ⟨1, hret⟩).2.1
    exact absurd hdue (by decide)

end Wait

end Coret

end Driver

end Wujian100
