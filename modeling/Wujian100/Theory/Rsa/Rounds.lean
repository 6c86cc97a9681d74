import Wujian100.Core.Rsa.Multiplier
import Wujian100.Library.Montgomery
import Wujian100.Library.Moore

/-!
# The Rounds of the Multiplier

The controller and the processing element compute the rounds of a Montgomery
multiplication. A round is a clock in which the quotient is found, a clock for
each column, and a clock for the column above them, in which the controller is
already on its way to the next round.

The controller does not look at the data, so its states are written out
(`Ctrl.loadAt`, `Ctrl.columnAt`, `Ctrl.topAt`), and each clock takes it from
one of them to the next. In column `k` the accumulator memory holds the columns
of this round below `k - 1` and the words of the last round from there on: the
word a column reads is read two clocks before it is written over.

## Main definitions

* `Job`: The operands of a task.
* `Job.Held`: The memories hold them.
* `AtLoad`, `AtColumn`, `AtTop`: The three kinds of clocks of a round.
* `AccAt`: The accumulator before a round.

## Theorems

* `Pe.uC_eq`: The adders of the processing element do not overflow.
* `atColumn_load`, `atColumn_tick`, `atTop_column`: The clocks of a round.
* `accAt_round`: What a round does to the accumulator.
-/

namespace Wujian100

namespace Rsa

/-! ## Quiet clocks -/

/-- Nothing is written and a task is requested. -/
def runIn : SpIn where
  wrEnaX := false
  wrEnaY := false
  wrAddr := 0
  wrX := 0
  wrY := 0
  wrM1 := 0
  taskReq := true

/-- A clock in the course of a task. -/
def Sp.tick (w : Nat) (s : Sp) : Sp := s.step w runIn

/-- The outputs when there is nothing to show. -/
def silent : SpOut where
  taskEnd := false
  taskGrant := false
  taskRes := 0

theorem ctrl_tick (w : Nat) (s : Sp) :
    (s.tick w).ctrl = s.ctrl.step (2 ^ w) true s.pe.carry s.sub.taskEnd :=
  rfl

theorem sub_tick (w : Nat) (s : Sp) :
    (s.tick w).sub = s.sub.step w s.ctrl.compReq s.a.q s.ctrl.refAn s.m.q :=
  rfl

/-- Without a write the data and address inputs are not looked at. -/
theorem step_eq_tick {w : Nat} {i : SpIn} (hx : i.wrEnaX = false) (hy : i.wrEnaY = false)
    (hreq : i.taskReq = true) (s : Sp) : s.step w i = s.tick w := by
  simp only [Sp.tick, Sp.step, runIn, hx, hy, hreq, Ram.step, Bool.or_self, Bool.false_eq_true,
    if_false]

/-- The comparison waits. -/
structure Sub.Quiet (s : Sub) : Prop where
  st : s.st = .idle
  bf1 : s.bf1 = false
  subVal : s.subVal = false
  nopVal : s.nopVal = false
  odd : s.odd = false

theorem Sub.Quiet.step {s : Sub} (h : s.Quiet) (w aj an mj : Nat) :
    (s.step w false aj an mj).Quiet := by
  constructor <;> simp [Sub.step, Sub.subEna, h.st, h.bf1]

theorem Sub.Quiet.taskEnd {s : Sub} (h : s.Quiet) : s.taskEnd = false := by
  simp [Sub.taskEnd, h.st]

theorem Sub.Quiet.clraWren {s : Sub} (h : s.Quiet) : s.clraWren = false := by
  simp [Sub.clraWren, h.st]

theorem out_of_quiet {s : Sp} (h : s.sub.Quiet) : s.out = silent := by
  simp [Sp.out, silent, Sub.resVal, Sub.res, h.taskEnd, h.nopVal, h.subVal]

/-- The states in which the modulus is subtracted, or is about to be. -/
def Sub.St.subtracts : Sub.St → Bool
  | .compFinSub => true
  | .outSub => true
  | .outSubEnd => true
  | _ => false

/-- What is shown, and whether the modulus is subtracted. -/
def Sp.view (s : Sp) : SpOut × Bool := (s.out, s.sub.st.subtracts)

/-- Nothing to show and nothing subtracted. -/
def still : SpOut × Bool := (silent, false)

theorem view_of_quiet {s : Sp} (h : s.sub.Quiet) : s.view = still := by
  rw [Sp.view, out_of_quiet h, h.st]
  rfl

/-! ## The processing element -/

/-- The largest word. -/
def maxWord : Nat := 2 ^ wordBits - 1

theorem radix_eq : 2 ^ wordBits = maxWord + 1 :=
  (Nat.sub_add_cancel (Nat.two_pow_pos _)).symm

theorem lt_radix_iff {a : Nat} : a < 2 ^ wordBits ↔ a ≤ maxWord := by
  rw [radix_eq]
  exact Nat.lt_succ_iff

theorem radix_sq : 2 ^ (2 * wordBits) = maxWord * maxWord + 2 * maxWord + 1 := by
  rw [Nat.two_mul, pow_add, radix_eq]
  ring

theorem radix_sq_double : 2 ^ (2 * wordBits + 1) = 2 * 2 ^ (2 * wordBits) :=
  pow_succ' 2 _

section Pe

variable {p : Pe} {i : PeIn}

/-- A product of words and a word and a bit fit in two words. -/
theorem Pe.s_eq (sel : Bool) (hx : i.xj ≤ maxWord) (hy : i.yi ≤ maxWord) (ha : i.aj ≤ maxWord)
    (hcarry : p.carry ≤ 1) : p.s i sel = i.xj * i.yi + i.aj + (if sel then p.carry else 0) := by
  have hxy : i.xj * i.yi ≤ maxWord * maxWord := Nat.mul_le_mul hx hy
  have hsel : (if sel then p.carry else 0) ≤ 1 := by split <;> omega
  have hpos : 1 ≤ maxWord := by decide
  have hsq := radix_sq
  rw [Pe.s, Nat.mod_eq_of_lt (a := i.xj * i.yi) (by omega)]
  exact Nat.mod_eq_of_lt (by omega)

/-- The last adder does not overflow either. -/
theorem Pe.uC_eq (sel : Bool) (hx : i.xj ≤ maxWord) (hy : i.yi ≤ maxWord) (ha : i.aj ≤ maxWord)
    (hm : i.mj ≤ maxWord) (hq : p.q ≤ maxWord) (hcarry : p.carry ≤ 1)
    (hc : p.cPre ≤ 2 * maxWord) :
    p.uC i sel
      = p.cPre + (i.xj * i.yi + i.aj + p.q * i.mj + (if sel then p.carry else 0)) := by
  have hxy : i.xj * i.yi ≤ maxWord * maxWord := Nat.mul_le_mul hx hy
  have hmq : p.q * i.mj ≤ maxWord * maxWord := Nat.mul_le_mul hq hm
  have hsel : (if sel then p.carry else 0) ≤ 1 := by split <;> omega
  have hsq := radix_sq
  have hsq2 := radix_sq_double
  rw [Pe.uC, Pe.s_eq sel hx hy ha hcarry, Pe.r, Nat.mul_comm i.mj,
    Nat.mod_eq_of_lt (a := p.q * i.mj) (by omega), Nat.mod_eq_of_lt (by omega)]
  omega

end Pe

/-! ## Jobs -/

/-- The operands of a task, word by word, with the word above the first operand
    empty and `m1` the negated inverse of the modulus. -/
structure Job (w : Nat) where
  x : Nat → Nat
  y : Nat → Nat
  m : Nat → Nat
  m1 : Nat
  x_le : ∀ k, k < 2 ^ w → x k ≤ maxWord
  y_le : ∀ k, k < 2 ^ w → y k ≤ maxWord
  m_le : ∀ k, k < 2 ^ w → m k ≤ maxWord
  x_top : x (2 ^ w) = 0
  m1_dvd : 2 ^ wordBits ∣ m1 * value (2 ^ wordBits) (2 ^ w) m + 1

namespace Job

variable {w : Nat} (job : Job w)

/-- The first operand. -/
def numX : Nat := value (2 ^ wordBits) (2 ^ w) job.x

/-- The modulus. -/
def numM : Nat := value (2 ^ wordBits) (2 ^ w) job.m

/-- The memories of the multiplier hold the operands. -/
structure Held (s : Sp) : Prop where
  x : s.x.mem = job.x
  y : s.y.mem = job.y
  m : s.m.mem = job.m
  m1 : s.m1 = job.m1

variable {job}

theorem Held.tick {s : Sp} (h : job.Held s) : job.Held (s.tick w) := by
  constructor
  · simp [Sp.tick, Sp.step, runIn, Ram.step, h.x]
  · simp [Sp.tick, Sp.step, runIn, Ram.step, h.y]
  · simp [Sp.tick, Sp.step, Ram.step, h.m]
  · simp [Sp.tick, Sp.step, runIn, h.m1]

end Job

/-- An accumulator between two rounds: the words in the memory, and the bit
    above them. -/
structure Acc (w : Nat) where
  a : Nat → Nat
  top : Nat
  a_le : ∀ k, k < 2 ^ w → a k ≤ maxWord
  top_le : top ≤ 1

namespace Acc

variable {w : Nat}

/-- The number in the accumulator. -/
def num (acc : Acc w) : Nat :=
  value (2 ^ wordBits) (2 ^ w) acc.a + acc.top * (2 ^ wordBits) ^ 2 ^ w

variable (job : Job w) (i : Nat) (acc : Acc w)

/-- The multiple of the modulus in round `i`. -/
def quot : Nat := clearing (2 ^ wordBits) job.m1 (acc.num + job.numX * job.y i)

/-- The columns of round `i`. -/
def cols : Nat → Nat := roundColumns (2 ^ w) job.x job.m acc.a (job.y i) (acc.quot job i) acc.top

theorem quot_le : acc.quot job i ≤ maxWord :=
  lt_radix_iff.mp (clearing_lt (Nat.two_pow_pos _) _)

theorem one_le_maxWord : 1 ≤ maxWord := by
  decide

variable {job i}

theorem carries_cols_le (hi : i < 2 ^ w) (k : Nat) (hk : k ≤ 2 ^ w + 1) :
    carries (2 ^ wordBits) (acc.cols job i) k ≤ 2 * maxWord := by
  rw [radix_eq]
  refine carries_le (n := 2 ^ w + 1) ?_ k hk
  exact roundColumns_le job.x_le job.m_le acc.a_le (job.y_le i hi) (acc.quot_le job i)
    (Nat.le_trans acc.top_le one_le_maxWord)

/-- The words of the accumulator after the round. -/
def nextA (job : Job w) (i : Nat) (acc : Acc w) (k : Nat) : Nat :=
  column (2 ^ wordBits) (acc.cols job i) (k + 1)

theorem column_le (k : Nat) : column (2 ^ wordBits) (acc.cols job i) k ≤ maxWord :=
  lt_radix_iff.mp (Nat.mod_lt _ (Nat.two_pow_pos _))

/-- The accumulator after the round. -/
def next (job : Job w) (i : Nat) (acc : Acc w) : Acc w where
  a := acc.nextA job i
  top := carries (2 ^ wordBits) (acc.cols job i) (2 ^ w + 1) % 2
  a_le := fun _ _ => acc.column_le _
  top_le := by omega

end Acc

/-! ## The controller -/

namespace Ctrl

/-- The clock in which the quotient of round `i` is found. -/
def loadAt (i an : Nat) : Ctrl where
  _i := i
  _j := 0
  _j00 := false
  j := 0
  taskEn := true
  st := .st2
  refAn := an
  compReq := false
  refWrN := false
  ctlCarryClr := decide (i = 0)
  ctlCPreClr := true

/-- Column `k` of round `i`. -/
def columnAt (i k an : Nat) : Ctrl where
  _i := i
  _j := k + 1
  _j00 := false
  j := k
  taskEn := true
  st := .st2
  refAn := an
  compReq := false
  refWrN := false
  ctlCarryClr := decide (k = 0) && decide (i = 0)
  ctlCPreClr := false

/-- The column above the `n` columns of round `i`, with the next round ahead. -/
def topAt (n i an : Nat) : Ctrl where
  _i := if i + 1 = n then 0 else i + 1
  _j := 0
  _j00 := decide (i + 1 ≠ n)
  j := n
  taskEn := true
  st := if i + 1 = n then .saveCarry2an else .st1
  refAn := an
  compReq := false
  refWrN := true
  ctlCarryClr := false
  ctlCPreClr := false

section Steps

variable {n i k an c : Nat}

theorem step_loadAt (hn : 0 < n) : (loadAt i an).step n true c false = columnAt i 0 an := by
  have hne : 0 ≠ n := by omega
  simp [Ctrl.step, loadAt, columnAt, hne]
  rfl

theorem step_columnAt (hk : k + 1 < n) (hn : n ≤ 32) :
    (columnAt i k an).step n true c false = columnAt i (k + 1) an := by
  have hne : k + 1 ≠ n := by omega
  have hmod : (k + 1 + 1) % 64 = k + 1 + 1 := Nat.mod_eq_of_lt (by omega)
  simp [Ctrl.step, columnAt, hne, hmod]

theorem step_columnAt_last (hk : k + 1 = n) (hi : i < n) (hn : n ≤ 32) :
    (columnAt i k an).step n true c false = topAt n i an := by
  by_cases hlast : i + 1 = n
  · have hi' : i = n - 1 := by omega
    simp [Ctrl.step, columnAt, topAt, hk, hi']
    omega
  · have hi' : i ≠ n - 1 := by omega
    have hmod : (i + 1) % 32 = i + 1 := Nat.mod_eq_of_lt (by omega)
    simp [Ctrl.step, columnAt, topAt, hk, hlast, hi', hmod]
    omega

theorem step_topAt (hi : i + 1 < n) : (topAt n i an).step n true c false = loadAt (i + 1) an := by
  have hne : i + 1 ≠ n := by omega
  have hpos : 0 ≠ n := by omega
  simp [Ctrl.step, topAt, loadAt, hne, hpos]

end Steps

end Ctrl

/-! ## The clocks of a round -/

/-- A memory of `2 ** w` words is addressed by the five wires in full. -/
theorem port_eq {w a : Nat} (hw : w ≤ 5) (ha : a < 2 ^ w) : Sp.port w a = a := by
  have h32 : 2 ^ w ≤ 2 ^ 5 := Nat.pow_le_pow_right (by omega) hw
  rw [Sp.port, Nat.mod_eq_of_lt (a := a) (b := 2 ^ 5) (by omega), Nat.mod_eq_of_lt ha]

section Phases

variable {w : Nat} (job : Job w) (i : Nat) (acc : Acc w) (an : Nat)

/-- The quotient of round `i` is found. -/
structure AtLoad (s : Sp) : Prop where
  ctrl : s.ctrl = Ctrl.loadAt i an
  held : job.Held s
  quiet : s.sub.Quiet
  first : i = 0 → acc.top = 0
  xq : s.x.q = job.x 0
  yq : s.y.q = job.y i
  mq : s.m.q = job.m 0
  aq : s.a.q = acc.a 0
  carry : s.pe.carry = acc.top
  mem : ∀ l, l < 2 ^ w → s.a.mem l = acc.a l

/-- Column `k` of round `i`. -/
structure AtColumn (k : Nat) (s : Sp) : Prop where
  ctrl : s.ctrl = Ctrl.columnAt i k an
  held : job.Held s
  quiet : s.sub.Quiet
  first : i = 0 → acc.top = 0
  xq : s.x.q = job.x k
  yq : s.y.q = job.y i
  mq : s.m.q = job.m k
  aq : s.a.q = acc.a k
  quot : s.pe.q = acc.quot job i
  cPre : s.pe.cPre = carries (2 ^ wordBits) (acc.cols job i) k
  carry : s.pe.carry = acc.top
  mem : ∀ l, l < 2 ^ w → s.a.mem l = if l + 1 < k then acc.nextA job i l else acc.a l

/-- The column above the columns of round `i`. -/
structure AtTop (s : Sp) : Prop where
  ctrl : s.ctrl = Ctrl.topAt (2 ^ w) i an
  held : job.Held s
  quiet : s.sub.Quiet
  xq : s.x.q = 0
  yq : s.y.q = job.y i
  quot : s.pe.q = acc.quot job i
  cPre : s.pe.cPre = carries (2 ^ wordBits) (acc.cols job i) (2 ^ w)
  carry : s.pe.carry = acc.top
  mem : ∀ l, l + 1 < 2 ^ w → s.a.mem l = acc.nextA job i l

end Phases

section Clocks

variable {w : Nat} {job : Job w} {i : Nat} {acc : Acc w} {an : Nat} {s : Sp}

/-- The quotient depends on the lowest words only. -/
theorem quot_eq : acc.quot job i
    = job.m1 * ((job.x 0 * job.y i + acc.a 0) % 2 ^ wordBits) % 2 ^ wordBits := by
  obtain ⟨n, hn⟩ : ∃ n, 2 ^ w = n + 1 := ⟨2 ^ w - 1, (Nat.sub_add_cancel Nat.one_le_two_pow).symm⟩
  have hlow : ∀ f : Nat → Nat, value (2 ^ wordBits) (2 ^ w) f ≡ f 0 [MOD 2 ^ wordBits] := by
    intro f
    rw [hn]
    exact value_mod _ n f
  have htop : acc.top * (2 ^ wordBits) ^ 2 ^ w ≡ 0 [MOD 2 ^ wordBits] := by
    rw [hn, pow_succ, ← Nat.mul_assoc]
    exact Nat.mul_mod_left _ _
  have hsum : acc.num + job.numX * job.y i
      ≡ acc.a 0 + 0 + job.x 0 * job.y i [MOD 2 ^ wordBits] :=
    ((hlow acc.a).add htop).add ((hlow job.x).mul_right _)
  rw [Acc.quot, clearing, hsum, Nat.add_zero, Nat.add_comm (acc.a 0)]

/-- The sum the quotient is found from. -/
theorem s_load (h : AtLoad job i acc an s) (hi : i < 2 ^ w) :
    s.pe.s s.peIn false = job.x 0 * job.y i + acc.a 0 := by
  have hpos : 0 < 2 ^ w := Nat.two_pow_pos w
  rw [Pe.s_eq false]
  · simp [Sp.peIn, h.ctrl, Ctrl.loadAt, h.xq, h.yq, h.aq]
  · simpa [Sp.peIn, h.xq] using job.x_le 0 hpos
  · simpa [Sp.peIn, h.yq] using job.y_le i hi
  · simpa [Sp.peIn, h.ctrl, Ctrl.loadAt, h.aq] using acc.a_le 0 hpos
  · rw [h.carry]
    exact acc.top_le

/-- After the quotient, the first column. -/
theorem atColumn_load (h : AtLoad job i acc an s) (hi : i < 2 ^ w) (hw : w ≤ 5) :
    AtColumn job i acc an 0 (s.tick w) := by
  have hpos : 0 < 2 ^ w := Nat.two_pow_pos w
  have hs := s_load h hi
  refine ⟨?_, h.held.tick, ?_, h.first, ?_, ?_, ?_, ?_, ?_, ?_, ?_, ?_⟩
  · rw [ctrl_tick, h.ctrl, h.quiet.taskEnd]
    exact Ctrl.step_loadAt hpos
  · rw [sub_tick, h.ctrl]
    exact h.quiet.step ..
  · simp [Sp.tick, Sp.step, Ram.step, h.ctrl, Ctrl.loadAt, h.held.x]
  · simp [Sp.tick, Sp.step, Ram.step, h.ctrl, Ctrl.loadAt, h.held.y, port_eq hw hi]
  · simp [Sp.tick, Sp.step, Ram.step, Sp.rdAddr, h.ctrl, Ctrl.loadAt, h.held.m, port_eq hw hpos]
  · simp [Sp.tick, Sp.step, Ram.step, Sp.rdAddr, h.ctrl, Ctrl.loadAt, h.quiet.clraWren,
      port_eq hw hpos, h.mem 0 hpos]
  · simp only [Sp.tick, Sp.step, Pe.step, h.ctrl, Ctrl.loadAt, if_true, Pe.m1s]
    have hm1 : s.peIn.m1 = job.m1 := h.held.m1
    rw [hs, quot_eq, hm1]
    exact Nat.mod_mod_of_dvd _ (Nat.pow_dvd_pow 2 (Nat.le_mul_of_pos_left _ Nat.two_pos))
  · simp [Sp.tick, Sp.step, Pe.step, h.ctrl, Ctrl.loadAt, carries]
  · simp only [Sp.tick, Sp.step, Pe.step, h.ctrl, Ctrl.loadAt, h.carry]
    by_cases hi0 : i = 0
    · simp [hi0, h.first hi0]
    · simp [hi0]
  · intro l hl
    simp [Sp.tick, Sp.step, Ram.step, h.ctrl, Ctrl.loadAt, Ctrl.refWrAEna, h.quiet.clraWren,
      h.mem l hl]

section Column

variable {k : Nat}

/-- The processing element adds up column `k`. -/
theorem uC_column (h : AtColumn job i acc an k s) (hi : i < 2 ^ w) (hk : k < 2 ^ w) :
    s.pe.uC s.peIn false
      = carries (2 ^ wordBits) (acc.cols job i) k + acc.cols job i k := by
  have hin : s.peIn
      = { xj := job.x k, yi := job.y i, mj := job.m k, m1 := s.m1, aj := acc.a k } := by
    simp [Sp.peIn, h.ctrl, Ctrl.columnAt, h.xq, h.yq, h.mq, h.aq]
  rw [hin, Pe.uC_eq false (job.x_le k hk) (job.y_le i hi) (acc.a_le k hk) (job.m_le k hk)]
  · rw [h.cPre, h.quot, Acc.cols, roundColumns_of_lt hk]
    simp
  · rw [h.quot]
    exact acc.quot_le job i
  · rw [h.carry]
    exact acc.top_le
  · rw [h.cPre]
    exact acc.carries_cols_le hi k (by omega)

theorem cPre_column (h : AtColumn job i acc an k s) (hi : i < 2 ^ w) (hk : k < 2 ^ w) :
    (s.tick w).pe.cPre = carries (2 ^ wordBits) (acc.cols job i) (k + 1) := by
  simp only [Sp.tick, Sp.step, Pe.step, h.ctrl, Ctrl.columnAt, Pe.c, Bool.false_eq_true, if_false]
  rw [uC_column h hi hk, carries]

theorem carry_column (h : AtColumn job i acc an k s) : (s.tick w).pe.carry = acc.top := by
  simp only [Sp.tick, Sp.step, Pe.step, h.ctrl, Ctrl.columnAt, h.carry]
  by_cases hclr : k = 0 ∧ i = 0
  · simp [hclr.1, hclr.2, h.first hclr.2]
  · have hclr' : (decide (k = 0) && decide (i = 0)) = false := by simpa using hclr
    simp [hclr']

/-- Column `k` goes into the memory one word down. -/
theorem mem_column (h : AtColumn job i acc an k s) (hi : i < 2 ^ w) (hk : k < 2 ^ w) (hw : w ≤ 5) :
    ∀ l, l < 2 ^ w →
      (s.tick w).a.mem l = if l + 1 < k + 1 then acc.nextA job i l else acc.a l := by
  intro l hl
  have h32 : 2 ^ w ≤ 2 ^ 5 := Nat.pow_le_pow_right (by omega) hw
  by_cases hk0 : k = 0
  · -- The lowest column is empty and not stored.
    have hmem := h.mem l hl
    simp only [hk0, Nat.not_lt_zero, if_false] at hmem
    simp [Sp.tick, Sp.step, Ram.step, h.ctrl, Ctrl.columnAt, Ctrl.refWrAEna, h.quiet.clraWren,
      hk0, hmem]
  · have haddr : Sp.port w s.ctrl.refWrAAddr = k - 1 := by
      have hj : s.ctrl.refWrAAddr = k - 1 := by
        simp only [h.ctrl, Ctrl.columnAt, Ctrl.refWrAAddr]
        omega
      rw [hj]
      exact port_eq hw (by omega)
    have hena : s.ctrl.refWrAEna = true := by simp [h.ctrl, Ctrl.columnAt, Ctrl.refWrAEna, hk0]
    have hwr : s.ctrl.refWrN = false := by rw [h.ctrl]; rfl
    simp only [Sp.tick, Sp.step, Ram.step, h.quiet.clraWren, hena, haddr, hwr, if_true,
      Bool.false_eq_true, if_false, Pe.uj]
    by_cases hlk : l = k - 1
    · have hlk' : l + 1 = k := by omega
      rw [if_pos hlk, if_pos (by omega), uC_column h hi hk, Acc.nextA, hlk', column]
    · rw [if_neg hlk, h.mem l hl]
      by_cases hlt : l + 1 < k
      · rw [if_pos hlt, if_pos (by omega)]
      · rw [if_neg hlt, if_neg (by omega)]

/-- From one column to the next. -/
theorem atColumn_tick (h : AtColumn job i acc an k s) (hi : i < 2 ^ w) (hk : k + 1 < 2 ^ w)
    (hw : w ≤ 5) : AtColumn job i acc an (k + 1) (s.tick w) := by
  have h32 : 2 ^ w ≤ 2 ^ 5 := Nat.pow_le_pow_right (by omega) hw
  refine ⟨?_, h.held.tick, ?_, h.first, ?_, ?_, ?_, ?_, ?_, cPre_column h hi (by omega),
    carry_column h, mem_column h hi (by omega) hw⟩
  · rw [ctrl_tick, h.ctrl, h.quiet.taskEnd]
    exact Ctrl.step_columnAt hk (by omega)
  · rw [sub_tick, h.ctrl]
    exact h.quiet.step ..
  · have hmod : (k + 1) % 2 ^ (w + 1) = k + 1 := Nat.mod_eq_of_lt (by rw [pow_succ]; omega)
    simp [Sp.tick, Sp.step, Ram.step, h.ctrl, Ctrl.columnAt, h.held.x, hmod]
  · simp [Sp.tick, Sp.step, Ram.step, h.ctrl, Ctrl.columnAt, h.held.y, port_eq hw hi]
  · simp [Sp.tick, Sp.step, Ram.step, Sp.rdAddr, h.ctrl, Ctrl.columnAt, h.held.m, port_eq hw hk]
  · have hmem := h.mem (k + 1) hk
    rw [if_neg (by omega)] at hmem
    simp [Sp.tick, Sp.step, Ram.step, Sp.rdAddr, h.ctrl, Ctrl.columnAt, h.quiet.clraWren,
      port_eq hw hk, hmem]
  · simp [Sp.tick, Sp.step, Pe.step, h.ctrl, Ctrl.columnAt, h.quot]

/-- From the last column to the one above. -/
theorem atTop_column (h : AtColumn job i acc an k s) (hi : i < 2 ^ w) (hk : k + 1 = 2 ^ w)
    (hw : w ≤ 5) : AtTop job i acc an (s.tick w) := by
  have h32 : 2 ^ w ≤ 2 ^ 5 := Nat.pow_le_pow_right (by omega) hw
  refine ⟨?_, h.held.tick, ?_, ?_, ?_, ?_, ?_, carry_column h, ?_⟩
  · rw [ctrl_tick, h.ctrl, h.quiet.taskEnd]
    exact Ctrl.step_columnAt_last hk hi (by omega)
  · rw [sub_tick, h.ctrl]
    exact h.quiet.step ..
  · have hmod : (k + 1) % 2 ^ (w + 1) = 2 ^ w := by
      rw [hk]
      exact Nat.mod_eq_of_lt (by rw [pow_succ]; omega)
    simp [Sp.tick, Sp.step, Ram.step, h.ctrl, Ctrl.columnAt, h.held.x, hmod, job.x_top]
  · simp [Sp.tick, Sp.step, Ram.step, h.ctrl, Ctrl.columnAt, h.held.y, port_eq hw hi]
  · simp [Sp.tick, Sp.step, Pe.step, h.ctrl, Ctrl.columnAt, h.quot]
  · rw [cPre_column h hi (by omega), hk]
  · intro l hl
    rw [mem_column h hi (by omega) hw l (by omega), if_pos (by omega)]

end Column

section Top

/-- The processing element adds up the column above. -/
theorem uC_top (h : AtTop job i acc an s) (hi : i < 2 ^ w) :
    s.pe.uC s.peIn true
      = carries (2 ^ wordBits) (acc.cols job i) (2 ^ w) + acc.cols job i (2 ^ w) := by
  have hin : s.peIn = { xj := 0, yi := job.y i, mj := 0, m1 := s.m1, aj := 0 } := by
    simp [Sp.peIn, h.ctrl, Ctrl.topAt, h.xq, h.yq]
  rw [hin, Pe.uC_eq true (Nat.zero_le _) (job.y_le i hi) (Nat.zero_le _) (Nat.zero_le _)]
  · rw [h.cPre, h.carry, Acc.cols, roundColumns_top]
    simp
  · rw [h.quot]
    exact acc.quot_le job i
  · rw [h.carry]
    exact acc.top_le
  · rw [h.cPre]
    exact acc.carries_cols_le hi _ (by omega)

theorem carry_top (h : AtTop job i acc an s) (hi : i < 2 ^ w) :
    (s.tick w).pe.carry = (acc.next job i).top := by
  simp only [Sp.tick, Sp.step, Pe.step, h.ctrl, Ctrl.topAt, Bool.false_eq_true, if_false, if_true,
    Pe.c]
  rw [uC_top h hi]
  rfl

theorem mem_top (h : AtTop job i acc an s) (hi : i < 2 ^ w) (hw : w ≤ 5) :
    ∀ l, l < 2 ^ w → (s.tick w).a.mem l = (acc.next job i).a l := by
  intro l hl
  have h32 : 2 ^ w ≤ 2 ^ 5 := Nat.pow_le_pow_right (by omega) hw
  have haddr : Sp.port w s.ctrl.refWrAAddr = 2 ^ w - 1 := by
    have hj : s.ctrl.refWrAAddr = 2 ^ w - 1 := by
      simp only [h.ctrl, Ctrl.topAt, Ctrl.refWrAAddr]
      omega
    rw [hj]
    exact port_eq hw (by omega)
  have hena : s.ctrl.refWrAEna = true := by
    simp [h.ctrl, Ctrl.topAt, Ctrl.refWrAEna]
  have hwr : s.ctrl.refWrN = true := by rw [h.ctrl]; rfl
  simp only [Sp.tick, Sp.step, Ram.step, h.quiet.clraWren, hena, haddr, hwr, if_true,
    Bool.false_eq_true, if_false, Pe.uj]
  by_cases hlast : l = 2 ^ w - 1
  · have hl' : l + 1 = 2 ^ w := by omega
    rw [if_pos hlast, uC_top h hi]
    change _ = acc.nextA job i l
    rw [Acc.nextA, hl', column]
  · rw [if_neg hlast, h.mem l (by omega)]
    rfl

/-- From the column above to the next round. -/
theorem atLoad_top (h : AtTop job i acc an s) (hi : i + 1 < 2 ^ w) (hw : w ≤ 5) :
    AtLoad job (i + 1) (acc.next job i) an (s.tick w) := by
  have hpos : 0 < 2 ^ w := Nat.two_pow_pos w
  have hne : i + 1 ≠ 2 ^ w := by omega
  refine ⟨?_, h.held.tick, ?_, nofun, ?_, ?_, ?_, ?_, carry_top h (by omega),
    mem_top h (by omega) hw⟩
  · rw [ctrl_tick, h.ctrl, h.quiet.taskEnd]
    exact Ctrl.step_topAt hi
  · rw [sub_tick, h.ctrl]
    exact h.quiet.step ..
  · simp [Sp.tick, Sp.step, Ram.step, h.ctrl, Ctrl.topAt, h.held.x]
  · simp [Sp.tick, Sp.step, Ram.step, h.ctrl, Ctrl.topAt, h.held.y, hne, port_eq hw hi]
  · simp [Sp.tick, Sp.step, Ram.step, Sp.rdAddr, h.ctrl, Ctrl.topAt, h.held.m, port_eq hw hpos]
  · -- The lowest word was stored long ago.
    have hmem := h.mem 0 (by omega)
    simp [Sp.tick, Sp.step, Ram.step, Sp.rdAddr, h.ctrl, Ctrl.topAt, h.quiet.clraWren,
      port_eq hw hpos, hmem]
    rfl

end Top

end Clocks

/-! ## Rounds -/

section Rounds

variable {w : Nat} {job : Job w}

theorem numX_lt : job.numX < (2 ^ wordBits) ^ 2 ^ w :=
  value_lt fun k hk => lt_radix_iff.mpr (job.x_le k hk)

theorem numM_lt : job.numM < (2 ^ wordBits) ^ 2 ^ w :=
  value_lt fun k hk => lt_radix_iff.mpr (job.m_le k hk)

/-- A modulus with a negated inverse is not zero. -/
theorem numM_pos : 0 < job.numM := by
  rcases Nat.eq_zero_or_pos job.numM with hzero | hpos
  · have hdvd := job.m1_dvd
    rw [show value (2 ^ wordBits) (2 ^ w) job.m = 0 from hzero, Nat.mul_zero, Nat.zero_add,
      Nat.dvd_one] at hdvd
    exact absurd hdvd (by decide)
  · exact hpos

variable (job) in
/-- The accumulator before round `i`. -/
def Job.acc (i : Nat) : Nat :=
  rounds (2 ^ wordBits) job.numX job.numM job.m1 job.y i

theorem jobAcc_lt {i : Nat} (hi : i ≤ 2 ^ w) : job.acc i < 2 * (2 ^ wordBits) ^ 2 ^ w := by
  have hlt : job.acc i < job.numX + job.numM :=
    rounds_lt job.m1_dvd numM_pos fun k hk => lt_radix_iff.mpr (job.y_le k (by omega))
  have hx : job.numX < (2 ^ wordBits) ^ 2 ^ w := numX_lt
  have hm : job.numM < (2 ^ wordBits) ^ 2 ^ w := numM_lt
  omega

/-- The number a round leaves, with all that is carried out of its columns. -/
theorem round_num {i : Nat} {acc : Acc w} (hnum : acc.num = job.acc i) :
    value (2 ^ wordBits) (2 ^ w) (acc.nextA job i)
      + carries (2 ^ wordBits) (acc.cols job i) (2 ^ w + 1) * (2 ^ wordBits) ^ 2 ^ w
      = job.acc (i + 1) := by
  rw [Job.acc, rounds, ← Job.acc, ← hnum]
  exact round_columns (Nat.two_pow_pos wordBits) job.m1_dvd rfl

/-- The bit above the words is enough for what is carried out of them. -/
theorem carries_top_lt {i : Nat} {acc : Acc w} (hnum : acc.num = job.acc i) (hi : i < 2 ^ w) :
    carries (2 ^ wordBits) (acc.cols job i) (2 ^ w + 1) < 2 := by
  have hround := round_num hnum
  have hlt : job.acc (i + 1) < 2 * (2 ^ wordBits) ^ 2 ^ w := jobAcc_lt (by omega)
  refine Nat.lt_of_mul_lt_mul_right (a := (2 ^ wordBits) ^ 2 ^ w) ?_
  omega

/-- What a round does to the number in the accumulator. -/
theorem num_next {i : Nat} {acc : Acc w} (hnum : acc.num = job.acc i) (hi : i < 2 ^ w) :
    (acc.next job i).num = job.acc (i + 1) := by
  rw [← round_num hnum, Acc.num]
  change _ + carries (2 ^ wordBits) (acc.cols job i) (2 ^ w + 1) % 2 * _ = _
  rw [Nat.mod_eq_of_lt (carries_top_lt hnum hi)]
  rfl

variable (job) in
/-- Before round `i`. -/
def AccAt (an i : Nat) (s : Sp) : Prop :=
  ∃ acc : Acc w, AtLoad job i acc an s ∧ acc.num = job.acc i

/-- The clocks of a round up to the column above the operands. -/
theorem emits_columns {an i : Nat} {acc : Acc w} {s : Sp} (h : AtLoad job i acc an s)
    (hi : i < 2 ^ w) (hw : w ≤ 5) :
    ∃ t, Emits (Sp.tick w) Sp.view s (List.replicate (2 ^ w + 1) still) t ∧
      AtTop job i acc an t := by
  have hpos : 0 < 2 ^ w := Nat.two_pow_pos w
  have hload := Emits.one (Sp.tick w) Sp.view s
  rw [view_of_quiet h.quiet] at hload
  rcases emits_silent (Sp.tick w) Sp.view (P := AtColumn job i acc an) (n := 2 ^ w - 1)
    (fun k t _ ht => view_of_quiet ht.quiet)
    (fun k t hk ht => atColumn_tick ht hi (by omega) hw) (Nat.zero_le _)
    (atColumn_load h hi hw) with ⟨t, ht, hcol⟩
  have hlast := Emits.one (Sp.tick w) Sp.view t
  rw [view_of_quiet hcol.quiet] at hlast
  refine ⟨_, ?_, atTop_column hcol hi (by omega) hw⟩
  have hall := (hload.append ht).append hlast
  rw [show 2 ^ w + 1 = 1 + (2 ^ w - 1 - 0) + 1 by omega, List.replicate_add, List.replicate_add]
  exact hall

/-- A round. -/
theorem accAt_round {an i : Nat} {s : Sp} (h : AccAt job an i s) (hi : i + 1 < 2 ^ w)
    (hw : w ≤ 5) :
    ∃ t, Emits (Sp.tick w) Sp.view s (List.replicate (2 ^ w + 2) still) t ∧
      AccAt job an (i + 1) t := by
  rcases h with ⟨acc, hload, hnum⟩
  rcases emits_columns hload (by omega) hw with ⟨t, ht, htop⟩
  have hlast := Emits.one (Sp.tick w) Sp.view t
  rw [view_of_quiet htop.quiet] at hlast
  refine ⟨_, ?_, acc.next job i, atLoad_top htop hi hw, num_next hnum (by omega)⟩
  rw [show 2 ^ w + 2 = 2 ^ w + 1 + 1 by omega, List.replicate_add (2 ^ w + 1)]
  exact ht.append hlast

/-- The rounds below `i`. -/
theorem emits_accAt {an : Nat} {s : Sp} (h : AccAt job an 0 s) (hw : w ≤ 5) :
    ∀ i, i < 2 ^ w →
      ∃ t, Emits (Sp.tick w) Sp.view s (List.replicate (i * (2 ^ w + 2)) still) t ∧
        AccAt job an i t := by
  intro i
  induction i with
  | zero =>
      intro _
      rw [Nat.zero_mul]
      exact ⟨s, rfl, h⟩
  | succ i ih =>
      intro hi
      rcases ih (by omega) with ⟨t, ht, hacc⟩
      rcases accAt_round hacc hi hw with ⟨u, hu, hacc'⟩
      rw [Nat.succ_mul, List.replicate_add]
      exact ⟨u, ht.append hu, hacc'⟩

/-- All the rounds, up to the column above the operands of the last. -/
theorem emits_rounds {an : Nat} {s : Sp} (h : AccAt job an 0 s) (hw : w ≤ 5) :
    ∃ t, Emits (Sp.tick w) Sp.view s
        (List.replicate ((2 ^ w - 1) * (2 ^ w + 2) + (2 ^ w + 1)) still) t ∧
      ∃ acc : Acc w, AtTop job (2 ^ w - 1) acc an t ∧ acc.num = job.acc (2 ^ w - 1) := by
  have hpos : 0 < 2 ^ w := Nat.two_pow_pos w
  rcases emits_accAt h hw (2 ^ w - 1) (by omega) with ⟨t, ht, acc, hload, hnum⟩
  rcases emits_columns hload (by omega) hw with ⟨u, hu, htop⟩
  rw [List.replicate_add]
  exact ⟨u, ht.append hu, acc, htop, hnum⟩

end Rounds

/-! ## Before and after the rounds -/

namespace Ctrl

/-- The task has been seen. -/
def startAt (an : Nat) : Ctrl where
  _i := 0
  _j := 0
  _j00 := false
  j := 0
  taskEn := true
  st := .st0
  refAn := an
  compReq := false
  refWrN := false
  ctlCarryClr := true
  ctlCPreClr := false

/-- The clock before the first round. -/
def firstAt (an : Nat) : Ctrl :=
  { startAt an with _j00 := true, st := .st1 }

/-- The carry is about to be saved. -/
def saveAt (an : Nat) : Ctrl :=
  { startAt an with st := .saveCarry2an }

/-- The comparison and subtraction are at work. -/
def finalAt (an : Nat) : Ctrl :=
  { startAt an with st := .makeFinalsub, compReq := true }

/-- The controller waits for a task. -/
structure Idle (s : Ctrl) : Prop where
  _i : s._i = 0
  _j : s._j = 0
  _j00 : s._j00 = false
  j : s.j = 0
  taskEn : s.taskEn = false
  st : s.st = .st0
  compReq : s.compReq = false
  refWrN : s.refWrN = false

variable {n an c : Nat}

theorem Idle.step_start {s : Ctrl} (h : s.Idle) (hn : 0 < n) :
    s.step n true c false = startAt s.refAn := by
  have hne : 0 ≠ n := by omega
  obtain ⟨_i, _j, _j00, j, taskEn, st, refAn, compReq, refWrN, clr, cpre⟩ := s
  obtain ⟨rfl, rfl, rfl, rfl, rfl, rfl, rfl, rfl⟩ := h
  simp [Ctrl.step, startAt, hne]

theorem Idle.step_wait {s : Ctrl} (h : s.Idle) (hn : 0 < n) : (s.step n false c false).Idle := by
  have hne : 0 ≠ n := by omega
  constructor <;>
    simp [Ctrl.step, h.taskEn, h._i, h._j, h._j00, h.st, h.compReq, hne]

theorem step_startAt (hn : 0 < n) : (startAt an).step n true c false = firstAt an := by
  have hne : 0 ≠ n := by omega
  simp [Ctrl.step, startAt, firstAt, hne]

theorem step_firstAt (hn : 0 < n) : (firstAt an).step n true c false = loadAt 0 an := by
  have hne : 0 ≠ n := by omega
  simp [Ctrl.step, firstAt, startAt, loadAt, hne]

theorem step_topAt_last (hn : 0 < n) :
    (topAt n (n - 1) an).step n true c false = saveAt an := by
  have hne : 0 ≠ n := by omega
  have hlast : n - 1 + 1 = n := by omega
  simp [Ctrl.step, topAt, saveAt, startAt, refWrAEna, hne, hne.symm, hlast]

theorem step_saveAt (hn : 0 < n) : (saveAt an).step n true c false = finalAt c := by
  have hne : 0 ≠ n := by omega
  simp [Ctrl.step, saveAt, finalAt, startAt, refWrAEna, hne]

theorem step_finalAt (hn : 0 < n) : (finalAt an).step n true c false = finalAt an := by
  have hne : 0 ≠ n := by omega
  simp [Ctrl.step, finalAt, startAt, hne]

theorem step_finalAt_end (hn : 0 < n) : ((finalAt an).step n true c true).Idle := by
  have hne : 0 ≠ n := by omega
  constructor <;> simp [Ctrl.step, finalAt, startAt, hne]

end Ctrl

/-- The multiplier waits for a task, with an empty accumulator. -/
structure Sp.Idle (w : Nat) (s : Sp) : Prop where
  ctrl : s.ctrl.Idle
  quiet : s.sub.Quiet
  zero : ∀ l, l < 2 ^ w → s.a.mem l = 0

/-- The comparison and subtraction have the accumulator. -/
structure AtFinal {w : Nat} (job : Job w) (acc : Acc w) (s : Sp) : Prop where
  ctrl : s.ctrl = Ctrl.finalAt acc.top
  held : job.Held s
  mem : ∀ l, l < 2 ^ w → s.a.mem l = acc.a l

section Task

variable {w : Nat} {job : Job w}

/-- A clock in which the controller stores nothing leaves the accumulator. -/
theorem mem_tick {s : Sp} (hj : s.ctrl.j = 0) (hquiet : s.sub.Quiet) :
    (s.tick w).a.mem = s.a.mem := by
  simp [Sp.tick, Sp.step, Ram.step, Ctrl.refWrAEna, hj, hquiet.clraWren]

/-- The three clocks before the first round. -/
theorem emits_start {s : Sp} (h : s.Idle w) (hheld : job.Held s) (hw : w ≤ 5) :
    ∃ t, Emits (Sp.tick w) Sp.view s (List.replicate 3 still) t ∧
      AccAt job s.ctrl.refAn 0 t := by
  have hpos : 0 < 2 ^ w := Nat.two_pow_pos w
  -- The task is seen.
  have hctrl1 : (s.tick w).ctrl = Ctrl.startAt s.ctrl.refAn := by
    rw [ctrl_tick, h.quiet.taskEnd]
    exact h.ctrl.step_start hpos
  have hquiet1 : (s.tick w).sub.Quiet := by
    rw [sub_tick, h.ctrl.compReq]
    exact h.quiet.step ..
  have hmem1 : (s.tick w).a.mem = s.a.mem := mem_tick h.ctrl.j h.quiet
  -- The controller is on its way to the first round.
  have hctrl2 : ((s.tick w).tick w).ctrl = Ctrl.firstAt s.ctrl.refAn := by
    rw [ctrl_tick, hctrl1, hquiet1.taskEnd]
    exact Ctrl.step_startAt hpos
  have hquiet2 : ((s.tick w).tick w).sub.Quiet := by
    rw [sub_tick, hctrl1]
    exact hquiet1.step ..
  have hmem2 : ((s.tick w).tick w).a.mem = s.a.mem := by
    rw [mem_tick (by rw [hctrl1]; rfl) hquiet1, hmem1]
  generalize hs2 : (s.tick w).tick w = s2 at hctrl2 hquiet2 hmem2
  have hheld2 : job.Held s2 := by
    rw [← hs2]
    exact hheld.tick.tick
  refine ⟨s2.tick w, ?_, ⟨fun _ => 0, 0, fun _ _ => Nat.zero_le _, Nat.zero_le _⟩, ?_, ?_⟩
  · refine ⟨view_of_quiet h.quiet, view_of_quiet hquiet1, ?_⟩
    rw [hs2]
    exact ⟨view_of_quiet hquiet2, rfl⟩
  · refine ⟨?_, hheld2.tick, ?_, fun _ => rfl, ?_, ?_, ?_, ?_, ?_, ?_⟩
    · rw [ctrl_tick, hctrl2, hquiet2.taskEnd]
      exact Ctrl.step_firstAt hpos
    · rw [sub_tick, hctrl2]
      exact hquiet2.step ..
    · simp [Sp.tick, Sp.step, Ram.step, hctrl2, Ctrl.firstAt, Ctrl.startAt, hheld2.x]
    · simp [Sp.tick, Sp.step, Ram.step, hctrl2, Ctrl.firstAt, Ctrl.startAt, hheld2.y,
        port_eq hw hpos]
    · simp [Sp.tick, Sp.step, Ram.step, Sp.rdAddr, hctrl2, Ctrl.firstAt, Ctrl.startAt, hheld2.m,
        port_eq hw hpos]
    · simp [Sp.tick, Sp.step, Ram.step, Sp.rdAddr, hctrl2, Ctrl.firstAt, Ctrl.startAt,
        hquiet2.clraWren, port_eq hw hpos, hmem2, h.zero 0 hpos]
    · simp [Sp.tick, Sp.step, Pe.step, hctrl2, Ctrl.firstAt, Ctrl.startAt]
    · intro l hl
      rw [mem_tick (by rw [hctrl2]; rfl) hquiet2, hmem2, h.zero l hl]
  · simp [Acc.num, value, Job.acc, rounds]

/-- The clocks of the rounds. -/
def roundClocks (w : Nat) : Nat :=
  3 + ((2 ^ w - 1) * (2 ^ w + 2) + (2 ^ w + 1)) + 2

/-- From a request to the comparison: the accumulator holds the rounds. -/
theorem emits_task_rounds {s : Sp} (h : s.Idle w) (hheld : job.Held s) (hw : w ≤ 5) :
    ∃ t, Emits (Sp.tick w) Sp.view s (List.replicate (roundClocks w) still) t ∧
      ∃ acc : Acc w, acc.num = job.acc (2 ^ w) ∧ AtFinal job acc t ∧ t.sub.Quiet := by
  have hpos : 0 < 2 ^ w := Nat.two_pow_pos w
  have hlast : 2 ^ w - 1 + 1 = 2 ^ w := by omega
  rcases emits_start h hheld hw with ⟨t, ht, hacc⟩
  rcases emits_rounds hacc hw with ⟨u, hu, acc, htop, hnum⟩
  have hnext := num_next hnum (by omega)
  rw [hlast] at hnext
  -- The last column goes into the memory, then the carry above it is saved.
  have hctrl1 : (u.tick w).ctrl = Ctrl.saveAt s.ctrl.refAn := by
    rw [ctrl_tick, htop.ctrl, htop.quiet.taskEnd]
    exact Ctrl.step_topAt_last hpos
  have hquiet1 : (u.tick w).sub.Quiet := by
    rw [sub_tick, htop.ctrl]
    exact htop.quiet.step ..
  have hcarry1 := carry_top htop (by omega)
  have hmem1 := mem_top htop (by omega) hw
  have hheld1 := htop.held.tick
  generalize hu1 : u.tick w = u1 at hctrl1 hquiet1 hcarry1 hmem1 hheld1
  refine ⟨u1.tick w, ?_, acc.next job (2 ^ w - 1), hnext, ⟨?_, hheld1.tick, ?_⟩, ?_⟩
  · have htwo : Emits (Sp.tick w) Sp.view u (List.replicate 2 still) (u1.tick w) := by
      refine ⟨view_of_quiet htop.quiet, ?_⟩
      rw [hu1]
      exact ⟨view_of_quiet hquiet1, rfl⟩
    rw [roundClocks, List.replicate_add, List.replicate_add 3]
    exact (ht.append hu).append htwo
  · rw [ctrl_tick, hctrl1, hquiet1.taskEnd, hcarry1]
    exact Ctrl.step_saveAt hpos
  · intro l hl
    rw [mem_tick (by rw [hctrl1]; rfl) hquiet1, hmem1 l hl]
  · rw [sub_tick, hctrl1]
    exact hquiet1.step ..

end Task

end Rsa

end Wujian100
