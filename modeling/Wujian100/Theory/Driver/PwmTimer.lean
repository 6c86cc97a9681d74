import Wujian100.Theory.Driver.PwmConfig

/-!
# The Timers and the Divider

`drv_pwm_get_clockdiv` reads the divider's code without the enable bit. The code of 2 is zero,
which is also what is left when the divider is switched off, so a divider of 1 is read as 2 and
a timeout is half as long. All other dividers are read as they were written.

## Main definitions

* `PwmAct`: What sets the divider.
* `Pwm.Coded`: The divider's bits are those of some entry of `cnt_div`.
* `Pwm.TimeoutRight`: What setting a timeout should do.

## Theorems

* `getClockdiv_eq`: What the driver takes for the divider.
* `coded_step`: Every call leaves the bits of an entry.
* `timeout_right_iff`: After any calls a timeout is right exactly if the divider is not 1.
-/

namespace Wujian100

namespace Driver

/-- A call that sets the divider. -/
inductive PwmAct where
  | clockdiv (div : BitVec 32)
  | config (c : PwmCall)

namespace Pwm

variable {s t : Pwm}

/-! ## Reading the divider -/

section Read

/-- What `drv_pwm_get_clockdiv` makes of the three bits of the code. -/
def decode (b : BitVec 3) : BitVec 32 :=
  if b = 0#3 then 2#32 else if b = 1#3 then 4#32 else if b = 2#3 then 8#32
  else if b = 3#3 then 16#32 else if b = 4#3 then 32#32 else if b = 5#3 then 64#32
  else if b = 6#3 then 128#32 else 1#32

theorem cntdivMsk_getLsbD :
    ∀ i < 32, pwmCfgCntdivMsk.getLsbD i = decide (24 ≤ i ∧ i < 27) := by decide

/-- What is left under the mask is the code in its place. -/
theorem and_cntdivMsk (x : BitVec 32) :
    x &&& pwmCfgCntdivMsk = (x.extractLsb' 24 3).setWidth 32 <<< 24 := by
  refine BitVec.eq_of_getLsbD_eq fun i hi => ?_
  rw [BitVec.getLsbD_and, cntdivMsk_getLsbD i hi, BitVec.getLsbD_shiftLeft,
    BitVec.getLsbD_setWidth, BitVec.getLsbD_extractLsb', decide_eq_true hi, Bool.true_and]
  by_cases hin : 24 ≤ i ∧ i < 27
  · rw [decide_eq_true hin, decide_eq_false (show ¬ i < 24 by omega),
      decide_eq_true (show i - 24 < 32 by omega), decide_eq_true (show i - 24 < 3 by omega),
      show 24 + (i - 24) = i by omega]
    simp only [Bool.and_true, Bool.not_false, Bool.true_and]
  · rw [decide_eq_false hin, Bool.and_false]
    by_cases hlow : i < 24
    · rw [decide_eq_true hlow, Bool.not_true, Bool.false_and]
    · rw [decide_eq_false (show ¬ i - 24 < 3 by omega), Bool.false_and, Bool.and_false,
        Bool.and_false]

/-- The driver looks at the code alone. -/
theorem getClockdiv_eq (s : Pwm) : s.getClockdiv = decode (s.pwmcfg.extractLsb' 24 3) := by
  rw [getClockdiv, and_cntdivMsk]
  generalize s.pwmcfg.extractLsb' 24 3 = b
  revert b
  decide

/-- The counters' divider and the driver's, from the bits of an entry: only those of 1 differ. -/
theorem getClockdiv_of_divCode {d : BitVec 32} (hd : d ∈ cntDiv) (h : s.divBits = divCode d) :
    s.hwDiv = d.toNat ∧ s.getClockdiv.toNat = if d.toNat = 1 then 2 else d.toNat := by
  have hget : s.getClockdiv = decode ((divCode d).extractLsb' 0 3) := by
    rw [getClockdiv_eq, ← divBits_code, h]
  refine ⟨by rw [hwDiv_eq, h, divOf_divCode d hd], ?_⟩
  rw [hget]
  simp only [cntDiv, List.mem_cons, List.not_mem_nil, or_false] at hd
  rcases hd with rfl | rfl | rfl | rfl | rfl | rfl | rfl | rfl <;> rfl

end Read

/-! ## The divider in a run -/

section Coded

/-- The divider's bits are those of some entry of `cnt_div`. -/
def Coded (s : Pwm) : Prop := ∃ d ∈ cntDiv, s.divBits = divCode d

/-- A divider that is no entry clears the code and leaves the enable bit. -/
theorem configClockdiv_other {d : BitVec 32} (hd : d ∉ cntDiv) :
    (s.configClockdiv d).pwmcfg = s.pwmcfg &&& ~~~(7#32 <<< 24) := by
  have hne {n : Nat} (hn : BitVec.ofNat 32 n ∈ cntDiv) : d.toNat ≠ (BitVec.ofNat 32 n).toNat :=
    fun h => hd (BitVec.eq_of_toNat_eq h ▸ hn)
  rw [configClockdiv]
  dsimp only
  split
  next h => exact absurd h (hne (n := 1) (by decide))
  next h => exact absurd h (hne (n := 2) (by decide))
  next h => exact absurd h (hne (n := 4) (by decide))
  next h => exact absurd h (hne (n := 8) (by decide))
  next h => exact absurd h (hne (n := 16) (by decide))
  next h => exact absurd h (hne (n := 32) (by decide))
  next h => exact absurd h (hne (n := 64) (by decide))
  next h => exact absurd h (hne (n := 128) (by decide))
  next => rfl

/-- Whatever divider is asked for, the bits are those of an entry afterwards: of the one asked
    for, or of 1 or 2. -/
theorem coded_configClockdiv (s : Pwm) (d : BitVec 32) : (s.configClockdiv d).Coded := by
  by_cases hd : d ∈ cntDiv
  · exact ⟨d, hd, configClockdiv_divBits d hd⟩
  · have hbits : (s.configClockdiv d).divBits = s.divBits &&& 0x8#4 := by
      rw [divBits, configClockdiv_other hd, BitVec.extractLsb'_and]
      rfl
    have hcase : ∀ b : BitVec 4, b &&& 0x8#4 = divCode 1#32 ∨ b &&& 0x8#4 = divCode 2#32 := by
      decide
    rcases hcase s.divBits with h | h
    · exact ⟨1#32, by decide, hbits.trans h⟩
    · exact ⟨2#32, by decide, hbits.trans h⟩

/-- A call of `csi_pwm_config` leaves what it found, or what its search wrote. -/
theorem coded_config {freq : Nat} {c : PwmCall} (h : s.Coded) :
    (s.config freq c.channel.val c.periodUs c.pulseWidthUs).2.Coded := by
  by_cases hle : c.pulseWidthUs ≤ c.periodUs
  · rw [config_eq hle]
    cases firstFit freq c.periodUs cntDiv with
    | none => exact coded_configClockdiv s 128#32
    | some d =>
        obtain ⟨e, he, hbits⟩ := coded_configClockdiv s d
        refine ⟨e, he, ?_⟩
        dsimp only
        rw [configChannel_eq]
        exact hbits
  · rw [config_short hle]
    exact h

/-- A call that sets the divider. -/
def actStep (freq : Nat) (s : Pwm) : PwmAct → Option Pwm
  | .clockdiv div => some (s.configClockdiv div)
  | .config c => some (s.config freq c.channel.val c.periodUs c.pulseWidthUs).2

/-- Every call leaves the bits of an entry. -/
theorem coded_step {freq : Nat} {a : PwmAct} (h : s.Coded) (hs : actStep freq s a = some t) :
    t.Coded := by
  cases a with
  | clockdiv div =>
      rw [← Option.some.inj hs]
      exact coded_configClockdiv s div
  | config c =>
      rw [← Option.some.inj hs]
      exact coded_config h

/-- A register that has been reset has the bits of 1. -/
theorem coded_of_reset (h : s.pwmcfg = 0) : s.Coded := by
  refine ⟨1#32, by decide, ?_⟩
  rw [divBits, h]
  rfl

end Coded

/-! ## A timeout -/

section Timeout

variable {freq : Nat} {ch : Fin 6} {timeout : BitVec 32}

/-- The load of a timer. -/
def timerLoad (s : Pwm) (ch : Fin 6) : BitVec 16 := bank s.timload ch

/-- The counts of a timeout, with the divider the counters run with. -/
def exactCount (freq : Nat) (s : Pwm) (timeout : BitVec 32) : Nat :=
  freq / 1000000 * timeout.toNat / s.hwDiv

/-- The timer is loaded with the exact count, and no other timer's load changes. -/
def TimeoutRight (freq : Nat) (s : Pwm) (ch : Fin 6) (timeout : BitVec 32) : Prop :=
  ((s.timerSetTimeout freq ch.val timeout).timerLoad ch).toNat = exactCount freq s timeout ∧
    ∀ other, other ≠ ch →
      (s.timerSetTimeout freq ch.val timeout).timerLoad other = s.timerLoad other

/-- What `drv_pwm_timer_set_timeout` loads. -/
def timeoutCount (freq : Nat) (s : Pwm) (timeout : BitVec 32) : BitVec 32 :=
  ((counts freq timeout s.getClockdiv).setWidth 16).setWidth 32

theorem timload_of_lt {n : Nat} (hn : n < 6) : (s.timerSetTimeout freq n timeout).timload
    = Function.update s.timload ⟨n / 2, by omega⟩
        (setHalf (n % 2 == 1) (s.timload ⟨n / 2, by omega⟩) (timeoutCount freq s timeout)) := by
  interval_cases n <;> rfl

/-- The six branches do the same for their half. -/
theorem timload_eq : (s.timerSetTimeout freq ch.val timeout).timload
    = setBank s.timload ch (timeoutCount freq s timeout) :=
  timload_of_lt ch.isLt

/-- What is loaded has 16 bits, so the other loads stay. -/
theorem timeoutCount_lt : (timeoutCount freq s timeout).toNat < 2 ^ 16 := by
  rw [timeoutCount, BitVec.toNat_setWidth, Nat.mod_eq_of_lt]
  · exact ((counts freq timeout s.getClockdiv).setWidth 16).isLt
  · have hlt := ((counts freq timeout s.getClockdiv).setWidth 16).isLt
    omega

/-- The count that is loaded is the exact one for the divider the driver takes it for, if the
    counters' has 16 bits. -/
theorem timeoutCount_toNat (hfreq : freq < 2 ^ 31) {d : BitVec 32} (hd : d ∈ cntDiv)
    (h : s.divBits = divCode d) (hcount : exactCount freq s timeout ≤ 0xffff) :
    (timeoutCount freq s timeout).toNat
      = freq / 1000000 * timeout.toNat / if d.toNat = 1 then 2 else d.toNat := by
  have ⟨hhw, hget⟩ := getClockdiv_of_divCode hd h
  have hbounds := cntDiv_bounds d hd
  rw [exactCount, hhw] at hcount
  -- The product is less than 2^16 times the divider.
  have hprod : freq / 1000000 * timeout.toNat < 2 ^ 16 * d.toNat := by
    rw [← Nat.div_lt_iff_lt_mul hbounds.1]
    omega
  have hwrap : freq / 1000000 * timeout.toNat < 2 ^ 32 := by omega
  have hle : freq / 1000000 * timeout.toNat / (if d.toNat = 1 then 2 else d.toNat)
      ≤ freq / 1000000 * timeout.toNat / d.toNat := by
    refine Nat.div_le_div_left ?_ hbounds.1
    split <;> omega
  have hlt := Nat.lt_of_le_of_lt hle (Nat.lt_succ_of_le hcount)
  rw [timeoutCount, BitVec.toNat_setWidth, BitVec.toNat_setWidth, counts_toNat hfreq, hget,
    Nat.mod_eq_of_lt hwrap, Nat.mod_eq_of_lt hlt, Nat.mod_eq_of_lt (Nat.lt_trans hlt (by decide))]

/-- After any calls from a reset, a timeout whose count has 16 bits is right exactly if the
    divider is not 1, or there is nothing to count. -/
theorem timeout_right_iff (freq : Nat) (hfreq : freq < 2 ^ 31) (s t : Pwm) (acts : List PwmAct)
    (hreset : s.pwmcfg = 0) (hrun : Run.run (actStep freq) s acts = some t) (ch : Fin 6)
    (timeout : BitVec 32) (hcount : exactCount freq t timeout ≤ 0xffff) :
    TimeoutRight freq t ch timeout ↔ t.hwDiv ≠ 1 ∨ freq / 1000000 * timeout.toNat = 0 := by
  obtain ⟨d, hd, hbits⟩ : t.Coded :=
    Run.run_inv (P := fun _ _ => True) (fun _ _ _ h _ hs => coded_step h hs) acts s t
      (coded_of_reset hreset) (Run.along_of_forall (fun _ _ => trivial) acts s) hrun
  have hhw := (getClockdiv_of_divCode hd hbits).1
  have hload : ((t.timerSetTimeout freq ch.val timeout).timerLoad ch).toNat
      = freq / 1000000 * timeout.toNat / if d.toNat = 1 then 2 else d.toNat := by
    rw [timerLoad, timload_eq, ← timeoutCount_toNat hfreq hd hbits hcount]
    exact bank_setBank t.timload ch timeoutCount_lt
  have hothers : ∀ other, other ≠ ch →
      (t.timerSetTimeout freq ch.val timeout).timerLoad other = t.timerLoad other := by
    intro other hne
    rw [timerLoad, timload_eq]
    exact bank_setBank_ne t.timload timeoutCount_lt hne
  rw [TimeoutRight, hload, exactCount, hhw, and_iff_left hothers]
  by_cases hone : d.toNat = 1
  · rw [if_pos hone, hone, Nat.div_one]
    omega
  · rw [if_neg hone]
    exact ⟨fun _ => Or.inl hone, fun _ => rfl⟩

/-- A divider of 2 after one of 4, and a timeout of a millisecond at 20 MHz. -/
theorem timeout_right_two :
    ∃ t, Run.run (actStep 20000000) reset [.config ⟨0, 10000#32, 5000#32⟩, .clockdiv 2#32] = some t ∧
      TimeoutRight 20000000 t 3 1000#32 := by
  refine ⟨_, rfl, ?_⟩
  refine (timeout_right_iff 20000000 (by decide) reset _
    [.config ⟨0, 10000#32, 5000#32⟩, .clockdiv 2#32] rfl rfl 3 1000#32 (by decide)).mpr ?_
  exact Or.inl (by decide)

/-- The same timeout with the divider at 1 is loaded as half a millisecond. -/
theorem timeout_halved :
    ((reset.configClockdiv 1#32).timerSetTimeout 20000000 0 1000#32).timerLoad 0 = 10000#16 ∧
      exactCount 20000000 (reset.configClockdiv 1#32) 1000#32 = 20000 ∧
      ¬ TimeoutRight 20000000 (reset.configClockdiv 1#32) 0 1000#32 := by
  have hload : ((reset.configClockdiv 1#32).timerSetTimeout 20000000 0 1000#32).timerLoad 0
      = 10000#16 := by decide
  have hexact : exactCount 20000000 (reset.configClockdiv 1#32) 1000#32 = 20000 := by decide
  refine ⟨hload, hexact, fun h => ?_⟩
  have hsame := h.1
  rw [hexact] at hsame
  exact absurd ((congrArg BitVec.toNat hload).symm.trans hsame) (by decide)

end Timeout

end Pwm

end Driver

end Wujian100
