import Wujian100.Theory.Rsa.Multiplier

/-!
# The Widths of the Processing Element

The processing element adds 256 bits, 128 bits and a carry into 256 bits, and
129 bits and twice 256 bits into 257 bits. `mmp_iddmm_addend_3_2` has 258 bits
for the second sum and cuts the highest off, with the remark that this has not
been verified for the data of the algorithm. In a task nothing is ever cut off:
the first sum fits because a product of words leaves room for two words, the
second because the carry from column to column stays below twice the base.

The bit stored above the accumulator is the lowest bit of what is carried out of
the column above the operands. It is all of it, because the accumulator stays
below the sum of the operand and the modulus.

## Main definitions

* `Pe.Fits`: No sum of the processing element overflows.
* `ColumnFits`: Nothing is lost in a column.

## Theorems

* `fullSum_addend32`: What the compressing adder computes.
* `Pe.fits`: The widths are enough for words and a small carry.
* `task_columns_fit`: In every column of every round of a task nothing is lost.
-/

namespace Wujian100

namespace Rsa

/-! ## The compressing adder -/

theorem fullSum_step {a b f : Nat} (ha : a < 2 ^ 256) (hb : b < 2 ^ 256) (hf : f ≤ 1) :
    (P12Adder.step a b f).fullSum = a + b + f * 2 ^ 256 := by
  simp only [P12Adder.fullSum, P12Adder.high, P12Adder.step]
  omega

theorem faSum_lt {a b c : Nat} (ha : a < 2 ^ 256) (hb : b < 2 ^ 256) (hc : c < 2 ^ 256) :
    Addend32.faSum a b c < 2 ^ 256 :=
  Nat.xor_lt_two_pow (Nat.xor_lt_two_pow ha hb) hc

theorem faCout_lt {a b c : Nat} (ha : a < 2 ^ 256) (hb : b < 2 ^ 256) :
    Addend32.faCout a b c < 2 ^ 256 :=
  Nat.or_lt_two_pow (Nat.and_lt_two_pow _ hb) (Nat.and_lt_two_pow _ (Nat.xor_lt_two_pow ha hb))

/-- The compressing adder has all the bits of the sum. -/
theorem fullSum_addend32 {a b c : Nat} (ha : a < 2 ^ 256) (hb : b < 2 ^ 256) (hc : c < 2 ^ 256) :
    (Addend32.step a b c).fullSum = a + b + c := by
  have hsave : Addend32.faSum a b c + 2 * Addend32.faCout a b c = a + b + c :=
    xor_add_two_mul_majority 256 a b c ha hb hc
  have hcout : Addend32.faCout a b c < 2 ^ 256 := faCout_lt ha hb
  rw [Addend32.step, fullSum_step (faSum_lt ha hb hc) (by omega) (by omega)]
  omega

/-! ## One clock -/

/-- No sum overflows: the first, the last, and the last with the compressing
    adder in its place. -/
structure Pe.Fits (p : Pe) (i : PeIn) (sel : Bool) : Prop where
  first : i.xj * i.yi + i.aj + (if sel then p.carry else 0) < 2 ^ (2 * wordBits)
  s : p.s i sel = i.xj * i.yi + i.aj + (if sel then p.carry else 0)
  r : p.r i = i.mj * p.q
  cPre : p.cPre ≤ 2 ^ (wordBits + 1) - 2
  last : p.cPre + p.r i + p.s i sel < 2 ^ (2 * wordBits + 1)
  uC : p.uC i sel = p.cPre + p.r i + p.s i sel
  dropped : Addend32.dropped p.cPre (p.r i) (p.s i sel) = 0
  dOut : Addend32.dOut p.cPre (p.r i) (p.s i sel) = p.uC i sel

theorem two_mul_maxWord : 2 * maxWord = 2 ^ (wordBits + 1) - 2 := by
  rw [pow_succ, radix_eq]
  omega

section Fits

variable {p : Pe} {i : PeIn}

/-- The widths are enough for words and a carry below twice the base. -/
theorem Pe.fits (sel : Bool) (hx : i.xj ≤ maxWord) (hy : i.yi ≤ maxWord) (ha : i.aj ≤ maxWord)
    (hm : i.mj ≤ maxWord) (hq : p.q ≤ maxWord) (hcarry : p.carry ≤ 1)
    (hc : p.cPre ≤ 2 * maxWord) : p.Fits i sel := by
  have hs := Pe.s_eq sel hx hy ha hcarry
  have hxy : i.xj * i.yi ≤ maxWord * maxWord := Nat.mul_le_mul hx hy
  have hmq : i.mj * p.q ≤ maxWord * maxWord := Nat.mul_le_mul hm hq
  have hsel : (if sel then p.carry else 0) ≤ 1 := by split <;> omega
  have hpos := Acc.one_le_maxWord
  have hsq := radix_sq
  have hsq2 := radix_sq_double
  have hr : p.r i = i.mj * p.q := Nat.mod_eq_of_lt (by omega)
  have hfirst : i.xj * i.yi + i.aj + (if sel then p.carry else 0) < 2 ^ (2 * wordBits) := by omega
  have hlast : p.cPre + p.r i + p.s i sel < 2 ^ (2 * wordBits + 1) := by omega
  have huC : p.uC i sel = p.cPre + p.r i + p.s i sel := Nat.mod_eq_of_lt hlast
  have hfull : (Addend32.step p.cPre (p.r i) (p.s i sel)).fullSum
      = p.cPre + p.r i + p.s i sel :=
    fullSum_addend32 (Nat.lt_of_le_of_lt hc (by decide)) (Nat.mod_lt _ (Nat.two_pow_pos _))
      (Nat.mod_lt _ (Nat.two_pow_pos _))
  refine ⟨hfirst, hs, hr, two_mul_maxWord ▸ hc, hlast, huC, ?_, ?_⟩
  · rw [Addend32.dropped, hfull]
    exact Nat.div_eq_of_lt hlast
  · rw [Addend32.dOut, hfull, huC]
    exact Nat.mod_eq_of_lt hlast

end Fits

/-! ## The clocks of a round -/

section Clocks

variable {w : Nat} {job : Job w} {i : Nat} {acc : Acc w} {an : Nat} {s : Sp}

/-- Nothing is cut off in column `k`. -/
theorem fits_column {k : Nat} (h : AtColumn job i acc an k s) (hi : i < 2 ^ w) (hk : k < 2 ^ w) :
    s.pe.Fits s.peIn false := by
  refine Pe.fits false ?_ ?_ ?_ ?_ ?_ ?_ ?_
  · simpa [Sp.peIn, h.xq] using job.x_le k hk
  · simpa [Sp.peIn, h.yq] using job.y_le i hi
  · simpa [Sp.peIn, h.ctrl, Ctrl.columnAt, h.aq] using acc.a_le k hk
  · simpa [Sp.peIn, h.ctrl, Ctrl.columnAt, h.mq] using job.m_le k hk
  · rw [h.quot]
    exact acc.quot_le job i
  · rw [h.carry]
    exact acc.top_le
  · rw [h.cPre]
    exact acc.carries_cols_le hi k (by omega)

/-- Nor in the column above. -/
theorem fits_top (h : AtTop job i acc an s) (hi : i < 2 ^ w) : s.pe.Fits s.peIn true := by
  refine Pe.fits true ?_ ?_ ?_ ?_ ?_ ?_ ?_
  · simp [Sp.peIn, h.xq]
  · simpa [Sp.peIn, h.yq] using job.y_le i hi
  · simp [Sp.peIn, h.ctrl, Ctrl.topAt]
  · simp [Sp.peIn, h.ctrl, Ctrl.topAt]
  · rw [h.quot]
    exact acc.quot_le job i
  · rw [h.carry]
    exact acc.top_le
  · rw [h.cPre]
    exact acc.carries_cols_le hi _ (by omega)

/-- The lowest word is empty. -/
theorem uj_column_zero (h : AtColumn job i acc an 0 s) (hi : i < 2 ^ w) :
    s.pe.uj s.peIn false = 0 := by
  rw [Pe.uj, uC_column h hi (Nat.two_pow_pos w)]
  exact roundColumns_low job.m1_dvd rfl

/-- What is carried out of the column above is a bit. -/
theorem c_top_le (h : AtTop job i acc an s) (hnum : acc.num = job.acc i) (hi : i < 2 ^ w) :
    s.pe.c s.peIn true ≤ 1 := by
  rw [Pe.c, uC_top h hi]
  exact Nat.lt_succ_iff.mp (carries_top_lt hnum hi)

/-- The clock of column `k`, counted from the one in which the quotient is found. -/
theorem atColumn_iterate (h : AtLoad job i acc an s) (hi : i < 2 ^ w) (hw : w ≤ 5) :
    ∀ k, k < 2 ^ w → AtColumn job i acc an k ((Sp.tick w)^[k + 1] s) := by
  intro k
  induction k with
  | zero => exact fun _ => atColumn_load h hi hw
  | succ k ih =>
      intro hk
      rw [Function.iterate_succ_apply']
      exact atColumn_tick (ih (by omega)) hi hk hw

theorem atTop_iterate (h : AtLoad job i acc an s) (hi : i < 2 ^ w) (hw : w ≤ 5) :
    AtTop job i acc an ((Sp.tick w)^[2 ^ w + 1] s) := by
  have hpos : 0 < 2 ^ w := Nat.two_pow_pos w
  have hlast := atColumn_iterate h hi hw (2 ^ w - 1) (by omega)
  rw [show 2 ^ w - 1 + 1 = 2 ^ w by omega] at hlast
  rw [Function.iterate_succ_apply']
  exact atTop_column hlast hi (by omega) hw

end Clocks

/-! ## The clocks of a task -/

/-- The clock in which the quotient of round `i` is found, from the request. -/
def loadClock (w i : Nat) : Nat := 3 + i * (2 ^ w + 2)

section Task

variable {w : Nat} {job : Job w} {s : Sp}

theorem accAt_loadClock (h : s.Idle w) (hheld : job.Held s) (hw : w ≤ 5) {i : Nat}
    (hi : i < 2 ^ w) : AccAt job s.ctrl.refAn i ((Sp.tick w)^[loadClock w i] s) := by
  rcases emits_start h hheld hw with ⟨t, ht, hacc⟩
  rcases emits_accAt hacc hw i hi with ⟨u, hu, hacc'⟩
  have hiter := (ht.append hu).iterate
  rw [List.length_append, List.length_replicate, List.length_replicate] at hiter
  rw [loadClock, ← hiter]
  exact hacc'

end Task

/-- What holds in column `j` of round `i`, the column above the operands
    included: no sum of the processing element overflows, the lowest column is
    empty, and what is carried out of the column above is a bit. -/
structure ColumnFits (w : Nat) (x y m : Nat → Nat) (i j : Nat) (t : Sp) : Prop where
  column : t.ctrl.j = j
  refWrN : t.ctrl.refWrN = decide (j = 2 ^ w)
  xj : t.peIn.xj = x j
  yi : t.peIn.yi = y i
  mj : j < 2 ^ w → t.peIn.mj = m j
  aj : t.peIn.aj < 2 ^ wordBits
  q : t.pe.q < 2 ^ wordBits
  fits : t.pe.Fits t.peIn t.ctrl.refWrN
  low : j = 0 → t.pe.uj t.peIn t.ctrl.refWrN = 0
  top : j = 2 ^ w → t.pe.c t.peIn t.ctrl.refWrN ≤ 1

section Columns

variable {w : Nat} {job : Job w} {i : Nat} {acc : Acc w} {an : Nat} {t : Sp}

theorem columnFits_column {j : Nat} (h : AtColumn job i acc an j t) (hi : i < 2 ^ w)
    (hj : j < 2 ^ w) : ColumnFits w job.x job.y job.m i j t := by
  have hne : j ≠ 2 ^ w := Nat.ne_of_lt hj
  have hwr : t.ctrl.refWrN = false := by rw [h.ctrl]; rfl
  have haj : t.peIn.aj = acc.a j := by simp [Sp.peIn, hwr, h.aq]
  refine ⟨?_, ?_, h.xq, h.yq, ?_, ?_, ?_, ?_, ?_, fun htop => absurd htop hne⟩
  · rw [h.ctrl]
    rfl
  · rw [hwr, decide_eq_false hne]
  · intro _
    simp [Sp.peIn, hwr, h.mq]
  · rw [haj]
    exact lt_radix_iff.mpr (acc.a_le j hj)
  · rw [h.quot]
    exact lt_radix_iff.mpr (acc.quot_le job i)
  · rw [hwr]
    exact fits_column h hi hj
  · intro h0
    rw [h0] at h
    rw [hwr]
    exact uj_column_zero h hi

theorem columnFits_top (h : AtTop job i acc an t) (hnum : acc.num = job.acc i) (hi : i < 2 ^ w) :
    ColumnFits w job.x job.y job.m i (2 ^ w) t := by
  have hpos : 0 < 2 ^ w := Nat.two_pow_pos w
  have hwr : t.ctrl.refWrN = true := by rw [h.ctrl]; rfl
  have haj : t.peIn.aj = 0 := by simp [Sp.peIn, hwr]
  refine ⟨?_, ?_, ?_, h.yq, fun hlt => absurd hlt (Nat.lt_irrefl _), ?_, ?_, ?_,
    fun h0 => absurd h0 (by omega), ?_⟩
  · rw [h.ctrl]
    rfl
  · rw [hwr, decide_eq_true rfl]
  · rw [job.x_top]
    exact h.xq
  · rw [haj]
    exact Nat.two_pow_pos _
  · rw [h.quot]
    exact lt_radix_iff.mpr (acc.quot_le job i)
  · rw [hwr]
    exact fits_top h hi
  · intro _
    rw [hwr]
    exact c_top_le h hnum hi

end Columns

/-- A task with operands of `2 ** w` words, from any state in which the
    multiplier waits. In round `i`, the sum from which the quotient is found does
    not overflow, and in column `j` nothing is cut off, whichever adder the
    processing element is built with. -/
theorem task_columns_fit (w : Nat) (hw : w ≤ 5) (s : Sp) (x y m m1 : Nat)
    (hm : m < 2 ^ (wordBits * 2 ^ w)) (hm1 : (m1 * m + 1) % 2 ^ wordBits = 0) (hidle : s.Idle w)
    (hload : Loaded w s x y m m1) (i : Nat) (hi : i < 2 ^ w) :
    (∀ t, t = (Sp.tick w)^[loadClock w i] s →
      t.ctrl.ctlCPreClr = true ∧ t.peIn.aj < 2 ^ wordBits ∧
        t.pe.s t.peIn false = s.x.mem 0 * s.y.mem i + t.peIn.aj ∧
        s.x.mem 0 * s.y.mem i + t.peIn.aj < 2 ^ (2 * wordBits)) ∧
    ∀ j, j ≤ 2 ^ w →
      ColumnFits w s.x.mem s.y.mem s.m.mem i j ((Sp.tick w)^[loadClock w i + 1 + j] s) := by
  rw [pow_mul] at hm
  have hpos : 0 < 2 ^ w := Nat.two_pow_pos w
  let job := hload.job hm hm1
  have hheld : job.Held s := ⟨rfl, rfl, rfl, hload.m1⟩
  rcases accAt_loadClock hidle hheld hw hi with ⟨acc, hat, hnum⟩
  refine ⟨?_, ?_⟩
  · intro t ht
    rw [← ht] at hat
    have haj : t.peIn.aj = acc.a 0 := by simp [Sp.peIn, hat.ctrl, Ctrl.loadAt, hat.aq]
    have hs : t.pe.s t.peIn false = s.x.mem 0 * s.y.mem i + t.peIn.aj := by
      rw [haj]
      exact s_load hat hi
    refine ⟨?_, ?_, hs, ?_⟩
    · rw [hat.ctrl]
      rfl
    · rw [haj]
      exact lt_radix_iff.mpr (acc.a_le 0 hpos)
    · rw [← hs]
      exact Nat.mod_lt _ (Nat.two_pow_pos _)
  · intro j hj
    rw [show loadClock w i + 1 + j = j + 1 + loadClock w i by omega, Function.iterate_add_apply]
    by_cases htop : j = 2 ^ w
    · rw [htop]
      exact columnFits_top (atTop_iterate hat hi hw) hnum hi
    · have hlt : j < 2 ^ w := by omega
      exact columnFits_column (atColumn_iterate hat hi hw j hlt) hi hlt

theorem task_columns_fit_seven :
    ColumnFits 2 (holding 2 5 2 7 negInvSeven).x.mem (holding 2 5 2 7 negInvSeven).y.mem
      (holding 2 5 2 7 negInvSeven).m.mem 3 4
      ((Sp.tick 2)^[loadClock 2 3 + 1 + 4] (holding 2 5 2 7 negInvSeven)) :=
  (task_columns_fit 2 (by decide) (holding 2 5 2 7 negInvSeven) 5 2 7 negInvSeven
    (by decide +kernel) (by decide +kernel) (idle_holding ..) (loaded_holding ..) 3
    (by decide)).2 4 (by decide)

end Rsa

end Wujian100
