import Wujian100.Core.Driver.Pwm
import Wujian100.Library.Run
import Mathlib.Tactic.IntervalCases
import Mathlib.Tactic.Ring

/-!
# One Divider for Six Periods

`csi_pwm_config` looks for a divider under which the period of its channel fits, and writes it
for all of them. The other pairs keep their counts, so their periods change with it, and a
period for which no divider fits leaves the last one behind. The counts are products in 32
bits.

## Main definitions

* `Pwm.periodOf`, `Pwm.pulseOf`: What is in effect on a channel, in cycles.
* `Pwm.Within`: Such a time is less than a count away from microseconds.
* `Pwm.CallRight`: What a call should do.
* `Pwm.CallCond`: When it does.

## Theorems

* `searchDiv_eq`: What the loop over the dividers finds and leaves.
* `config_some`, `config_none`: What a call does.
* `call_right_iff`: A call is right exactly under its condition.
* `calls_right_iff`: So are all calls of a sequence.
-/

namespace Wujian100

namespace Driver

/-- The arguments of a call of `csi_pwm_config`. -/
structure PwmCall where
  channel : Fin 12
  periodUs : BitVec 32
  pulseWidthUs : BitVec 32

namespace Pwm

variable {s t : Pwm}

/-! ## The divider -/

section Divider

/-- The bits of `PWMCFG` that make up the divider: the code and the enable bit above it. -/
def divBits (s : Pwm) : BitVec 4 := s.pwmcfg.extractLsb' 24 4

/-- The bits for each entry of `cnt_div`. -/
def divCode (d : BitVec 32) : BitVec 4 :=
  match d.toNat with
  | 2 => 0x8#4
  | 4 => 0x9#4
  | 8 => 0xa#4
  | 16 => 0xb#4
  | 32 => 0xc#4
  | 64 => 0xd#4
  | 128 => 0xe#4
  | _ => 0x0#4

/-- Outside of the divider's bits a register is what it was. -/
def SameRest (a b : BitVec 32) : Prop := ∀ i < 32, i < 24 ∨ 28 ≤ i → a.getLsbD i = b.getLsbD i

/-- The bits outside, and the bits inside, are all there is. -/
theorem eq_of_divBits {a b : BitVec 32} (hrest : SameRest a b)
    (hdiv : a.extractLsb' 24 4 = b.extractLsb' 24 4) : a = b := by
  ext i hi
  by_cases hin : 24 ≤ i ∧ i < 28
  · have hbit := congrArg (fun v => v.getLsbD (i - 24)) hdiv
    simp only [BitVec.getLsbD_extractLsb', show 24 + (i - 24) = i by omega,
      decide_eq_true (show i - 24 < 4 by omega), Bool.true_and] at hbit
    exact hbit
  · exact hrest i hi (by omega)

theorem SameRest.trans {a b c : BitVec 32} (hab : SameRest a b) (hbc : SameRest b c) :
    SameRest a c := fun i hi hout => (hab i hi hout).trans (hbc i hi hout)

theorem SameRest.symm {a b : BitVec 32} (h : SameRest a b) : SameRest b a :=
  fun i hi hout => (h i hi hout).symm

theorem sameRest_and {c m : BitVec 32}
    (hm : ∀ i < 32, i < 24 ∨ 28 ≤ i → m.getLsbD i = true) : SameRest (c &&& m) c := by
  intro i hi hout
  rw [BitVec.getLsbD_and, hm i hi hout, Bool.and_true]

theorem sameRest_or {c v : BitVec 32}
    (hv : ∀ i < 32, i < 24 ∨ 28 ≤ i → v.getLsbD i = false) : SameRest (c ||| v) c := by
  intro i hi hout
  rw [BitVec.getLsbD_or, hv i hi hout, Bool.or_false]

/-- Whatever divider is asked for, no other bit changes. -/
theorem configClockdiv_rest {d : BitVec 32} : SameRest (s.configClockdiv d).pwmcfg s.pwmcfg := by
  have hclear : SameRest (s.pwmcfg &&& ~~~(7#32 <<< 24)) s.pwmcfg := sameRest_and (by decide)
  rw [configClockdiv]
  dsimp only
  split
  · exact (sameRest_and (by decide)).trans hclear
  · exact (sameRest_or (by decide)).trans hclear
  · exact (sameRest_or (by decide)).trans hclear
  · exact (sameRest_or (by decide)).trans hclear
  · exact (sameRest_or (by decide)).trans hclear
  · exact (sameRest_or (by decide)).trans hclear
  · exact (sameRest_or (by decide)).trans hclear
  · exact (sameRest_or (by decide)).trans hclear
  · exact hclear

/-- An entry of `cnt_div` sets both the code and the enable bit. -/
theorem configClockdiv_divBits : ∀ d ∈ cntDiv, (s.configClockdiv d).divBits = divCode d := by
  have hbits (m v : BitVec 32) : ((s.pwmcfg &&& m) ||| v).extractLsb' 24 4
      = (s.pwmcfg.extractLsb' 24 4 &&& m.extractLsb' 24 4) ||| v.extractLsb' 24 4 := by
    rw [BitVec.extractLsb'_or, BitVec.extractLsb'_and]
  have hand (m v : BitVec 32) : ((s.pwmcfg &&& m) &&& v).extractLsb' 24 4
      = (s.pwmcfg.extractLsb' 24 4 &&& m.extractLsb' 24 4) &&& v.extractLsb' 24 4 := by
    rw [BitVec.extractLsb'_and, BitVec.extractLsb'_and]
  intro d hd
  simp only [cntDiv, List.mem_cons, List.not_mem_nil, or_false] at hd
  -- What is left of the old bits does not depend on them.
  rcases hd with rfl | rfl | rfl | rfl | rfl | rfl | rfl | rfl <;>
    simp only [divBits, configClockdiv, divCode, BitVec.toNat_ofNat, Nat.reducePow, Nat.reduceMod,
      hbits, hand] <;>
    generalize s.pwmcfg.extractLsb' 24 4 = x <;> revert x <;> decide

/-- What was configured before does not matter. -/
theorem configClockdiv_twice {d e : BitVec 32} (he : e ∈ cntDiv) :
    (s.configClockdiv d).configClockdiv e = s.configClockdiv e := by
  have hcfg : ((s.configClockdiv d).configClockdiv e).pwmcfg = (s.configClockdiv e).pwmcfg := by
    refine eq_of_divBits ?_ ?_
    · exact (configClockdiv_rest.trans configClockdiv_rest).trans configClockdiv_rest.symm
    · exact (configClockdiv_divBits e he).trans (configClockdiv_divBits e he).symm
  calc
    (s.configClockdiv d).configClockdiv e
        = { s with pwmcfg := ((s.configClockdiv d).configClockdiv e).pwmcfg } := rfl
    _ = { s with pwmcfg := (s.configClockdiv e).pwmcfg } := by rw [hcfg]
    _ = s.configClockdiv e := rfl

/-- The divider the counters run with, from its bits. -/
def divOf (b : BitVec 4) : Nat :=
  if b.getLsbD 3 then 2 ^ (min (b.extractLsb' 0 3).toNat 6 + 1) else 1

theorem divBits_code (s : Pwm) : s.divBits.extractLsb' 0 3 = s.pwmcfg.extractLsb' 24 3 := by
  ext i hi
  simp only [divBits, BitVec.getElem_extractLsb', BitVec.getLsbD_extractLsb', Nat.zero_add]
  rw [decide_eq_true (show i < 4 by omega), Bool.true_and]

theorem hwDiv_eq (s : Pwm) : s.hwDiv = divOf s.divBits := by
  have hen : s.divBits.getLsbD 3 = s.pwmcfg.getLsbD 27 := by
    rw [divBits, BitVec.getLsbD_extractLsb']
    rfl
  rw [hwDiv, divOf, hen, divBits_code]

theorem divOf_divCode : ∀ d ∈ cntDiv, divOf (divCode d) = d.toNat := by
  intro d hd
  simp only [cntDiv, List.mem_cons, List.not_mem_nil, or_false] at hd
  rcases hd with rfl | rfl | rfl | rfl | rfl | rfl | rfl | rfl <;> rfl

/-- The counters run with the divider that was configured. -/
theorem hwDiv_configClockdiv {d : BitVec 32} (hd : d ∈ cntDiv) :
    (s.configClockdiv d).hwDiv = d.toNat := by
  rw [hwDiv_eq, configClockdiv_divBits d hd, divOf_divCode d hd]

end Divider

/-! ## The search for a divider -/

section Search

variable {freq : Nat} {periodUs : BitVec 32}

/-- The first divider of a list under which the counts of the period have 16 bits. -/
def firstFit (freq : Nat) (periodUs : BitVec 32) (ds : List (BitVec 32)) : Option (BitVec 32) :=
  ds.find? fun d => decide (counts freq periodUs d ≤ 0xffff#32)

/-- The loop ends with the first divider that fits, or has written them all. -/
theorem searchDiv_eq {ds : List (BitVec 32)} (hds : ∀ d ∈ ds, d ∈ cntDiv) (s : Pwm) :
    searchDiv freq periodUs ds s = match firstFit freq periodUs ds with
      | some d => (some d, s.configClockdiv d)
      | none => (none, ds.foldl configClockdiv s) := by
  induction ds generalizing s with
  | nil => rfl
  | cons d ds ih =>
      have hrest := ih (fun e he => hds e (List.mem_cons_of_mem d he)) (s.configClockdiv d)
      by_cases hfit : counts freq periodUs d ≤ 0xffff#32
      · have hfirst : firstFit freq periodUs (d :: ds) = some d := by
          simp only [firstFit, List.find?_cons, decide_eq_true hfit]
        rw [hfirst]
        exact if_pos hfit
      · have hfirst : firstFit freq periodUs (d :: ds) = firstFit freq periodUs ds := by
          simp only [firstFit, List.find?_cons, decide_eq_false hfit]
        rw [hfirst]
        refine (if_neg hfit).trans (hrest.trans ?_)
        cases hnext : firstFit freq periodUs ds with
        | none => rfl
        | some e =>
            -- What the later turn leaves is not touched by what this one wrote.
            have he : e ∈ ds := List.mem_of_find?_eq_some hnext
            exact congrArg (Prod.mk (some e))
              (configClockdiv_twice (hds e (List.mem_cons_of_mem d he)))

/-- When all of them were written the last one is left. -/
theorem foldl_cntDiv (s : Pwm) : cntDiv.foldl configClockdiv s = s.configClockdiv 128#32 := by
  have hlast : (128#32) ∈ cntDiv := by decide
  have hfold : ∀ (ds : List (BitVec 32)) (t : Pwm),
      (ds.foldl configClockdiv t).configClockdiv 128#32 = t.configClockdiv 128#32 := by
    intro ds
    induction ds with
    | nil => exact fun _ => rfl
    | cons d ds ih => exact fun t => (ih (t.configClockdiv d)).trans (configClockdiv_twice hlast)
  rw [show cntDiv = cntDiv.dropLast ++ [128#32] by decide, List.foldl_append]
  exact hfold cntDiv.dropLast s

/-- A divider that is found is one of the list, and the counts under it have 16 bits. -/
theorem firstFit_some {d : BitVec 32} (h : firstFit freq periodUs cntDiv = some d) :
    d ∈ cntDiv ∧ counts freq periodUs d ≤ 0xffff#32 :=
  ⟨List.mem_of_find?_eq_some h, of_decide_eq_true
    (List.find?_some (p := fun e => decide (counts freq periodUs e ≤ 0xffff#32)) h)⟩

end Search

/-! ## What is in effect -/

section Effect

/-- The pair of a channel. -/
def pairOf (ch : Fin 12) : Fin 6 := ⟨ch.val / 2, by omega⟩

/-- The counts of a channel's period. -/
def loadOf (s : Pwm) (ch : Fin 12) : BitVec 16 := bank s.pwmload (pairOf ch)

/-- The counts of its pulse width. -/
def cmpOf (s : Pwm) (ch : Fin 12) : BitVec 16 := half (ch.val % 2 == 1) (s.pwmcmp (pairOf ch))

/-- The period in effect on a channel, in cycles of the PWM's clock. -/
def periodOf (s : Pwm) (ch : Fin 12) : Nat := (s.loadOf ch).toNat * s.hwDiv

/-- The pulse width in effect. -/
def pulseOf (s : Pwm) (ch : Fin 12) : Nat := (s.cmpOf ch).toNat * s.hwDiv

/-- A number of cycles is at most one count of the divided clock away from a time in
    microseconds. -/
def Within (freq : Nat) (us : BitVec 32) (div cycles : Nat) : Prop :=
  cycles * 1000000 ≤ us.toNat * freq + div * 1000000 ∧
    us.toNat * freq ≤ cycles * 1000000 + div * 1000000

theorem configChannel_of_lt {n : Nat} (hn : n < 12) (counter cmpCounter : BitVec 32) :
    s.configChannel n counter cmpCounter
      = s.configPair ⟨n / 2, by omega⟩ (n % 2 == 1) counter cmpCounter := by
  interval_cases n <;> rfl

/-- The twelve branches do the same for their pair and half. -/
theorem configChannel_eq (ch : Fin 12) (counter cmpCounter : BitVec 32) :
    s.configChannel ch.val counter cmpCounter
      = s.configPair (pairOf ch) (ch.val % 2 == 1) counter cmpCounter :=
  configChannel_of_lt ch.isLt counter cmpCounter

variable {ch other : Fin 12} {counter cmpCounter : BitVec 32}

/-- The channel's counts are what was written, if they have 16 bits. -/
theorem loadOf_configChannel (hcounter : counter.toNat < 2 ^ 16) :
    ((s.configChannel ch.val counter cmpCounter).loadOf ch).toNat = counter.toNat := by
  rw [configChannel_eq, loadOf]
  exact bank_setBank s.pwmload (pairOf ch) hcounter

theorem cmpOf_configChannel (hcmp : cmpCounter.toNat < 2 ^ 16) :
    ((s.configChannel ch.val counter cmpCounter).cmpOf ch).toNat = cmpCounter.toNat := by
  rw [configChannel_eq, cmpOf, configPair]
  dsimp only
  rw [Function.update_self]
  exact toNat_half_setHalf _ _ hcmp

/-- The counts of the other pairs stay, the one with the same load register's too. -/
theorem loadOf_configChannel_ne (hcounter : counter.toNat < 2 ^ 16)
    (hne : pairOf other ≠ pairOf ch) :
    (s.configChannel ch.val counter cmpCounter).loadOf other = s.loadOf other := by
  rw [configChannel_eq, loadOf]
  exact bank_setBank_ne s.pwmload hcounter hne

theorem cmpOf_configChannel_ne (hne : pairOf other ≠ pairOf ch) :
    (s.configChannel ch.val counter cmpCounter).cmpOf other = s.cmpOf other := by
  rw [configChannel_eq, cmpOf, cmpOf, configPair]
  dsimp only
  rw [Function.update_of_ne hne]

theorem hwDiv_configChannel :
    (s.configChannel ch.val counter cmpCounter).hwDiv = s.hwDiv := by
  rw [configChannel_eq]
  rfl

end Effect

/-! ## A call -/

section Call

variable {freq : Nat}

/-- The channel has what was asked for, and on the other pairs' channels nothing changed. A
    call that fails leaves all registers alone. -/
def CallRight (freq : Nat) (s : Pwm) (c : PwmCall) : Prop :=
  let r := s.config freq c.channel.val c.periodUs c.pulseWidthUs
  if r.1 = none then
    Within freq c.periodUs r.2.hwDiv (r.2.periodOf c.channel) ∧
      Within freq c.pulseWidthUs r.2.hwDiv (r.2.pulseOf c.channel) ∧
      ∀ other, pairOf other ≠ pairOf c.channel →
        r.2.periodOf other = s.periodOf other ∧ r.2.pulseOf other = s.pulseOf other
  else r.2 = s

/-- What is lost of a time by rounding, to whole megahertz and to whole counts, is at most a
    count. -/
def Fine (freq : Nat) (us div : BitVec 32) : Prop :=
  freq / 1000000 * us.toNat % div.toNat * 1000000 + us.toNat * (freq % 1000000)
    ≤ div.toNat * 1000000

/-- If no divider fits, the last one was configured already. If one does, the period's product
    fits in 32 bits, both times lose at most a count, and the divider is the one configured,
    or all other pairs are at zero. -/
def CallCond (freq : Nat) (s : Pwm) (c : PwmCall) : Prop :=
  c.pulseWidthUs ≤ c.periodUs →
    match firstFit freq c.periodUs cntDiv with
    | none => s.divBits = 0xe#4
    | some d =>
        freq / 1000000 * c.periodUs.toNat < 2 ^ 32 ∧ Fine freq c.periodUs d ∧
          Fine freq c.pulseWidthUs d ∧
          (s.hwDiv = d.toNat ∨ ∀ other, pairOf other ≠ pairOf c.channel →
            s.loadOf other = 0 ∧ s.cmpOf other = 0)

theorem counts_toNat (hfreq : freq < 2 ^ 31) (us d : BitVec 32) :
    (counts freq us d).toNat = freq / 1000000 * us.toNat % 2 ^ 32 / d.toNat := by
  rw [counts, BitVec.toNat_udiv, BitVec.toNat_mul, BitVec.toNat_ofNat,
    Nat.mod_eq_of_lt (show freq / 1000000 < 2 ^ 32 by omega)]

/-- The cycles of a time, split into those of the whole megahertz and the rest. -/
theorem us_mul_freq (freq us : Nat) :
    us * freq = 1000000 * (freq / 1000000 * us) + us * (freq % 1000000) := by
  conv_lhs => rw [← Nat.div_add_mod freq 1000000]
  ring

/-- If the product fits, the counts are right exactly if the rounding is. -/
theorem within_iff {us d : BitVec 32} (hprod : freq / 1000000 * us.toNat < 2 ^ 32)
    (hd : 0 < d.toNat) :
    Within freq us d.toNat (freq / 1000000 * us.toNat % 2 ^ 32 / d.toNat * d.toNat)
      ↔ Fine freq us d := by
  have hdiv := Nat.div_add_mod (freq / 1000000 * us.toNat) d.toNat
  have hmod := Nat.mod_lt (freq / 1000000 * us.toNat) hd
  rw [Within, Fine, us_mul_freq freq us.toNat, Nat.mod_eq_of_lt hprod,
    Nat.mul_comm (freq / 1000000 * us.toNat / d.toNat)]
  omega

/-- A product that does not fit makes the period far too short. -/
theorem not_within {us : BitVec 32} {counts d : Nat} (hprod : 2 ^ 32 ≤ freq / 1000000 * us.toNat)
    (hcounts : counts ≤ 0xffff) (hd : d ≤ 128) : ¬ Within freq us d (counts * d) := by
  have hcycles : counts * d ≤ 0xffff * 128 := Nat.mul_le_mul hcounts hd
  rintro ⟨-, hlong⟩
  rw [us_mul_freq freq us.toNat] at hlong
  omega

theorem cntDiv_bounds : ∀ d ∈ cntDiv, 0 < d.toNat ∧ d.toNat ≤ 128 := by
  intro d hd
  simp only [cntDiv, List.mem_cons, List.not_mem_nil, or_false] at hd
  rcases hd with rfl | rfl | rfl | rfl | rfl | rfl | rfl | rfl <;> decide

/-- A divider is written where it is already exactly if its bits are. -/
theorem configClockdiv_eq_self_iff {d : BitVec 32} (hd : d ∈ cntDiv) :
    s.configClockdiv d = s ↔ s.divBits = divCode d := by
  constructor
  · intro h
    rw [← configClockdiv_divBits (s := s) d hd, h]
  · intro h
    have hcfg : (s.configClockdiv d).pwmcfg = s.pwmcfg :=
      eq_of_divBits configClockdiv_rest ((configClockdiv_divBits d hd).trans h.symm)
    calc
      s.configClockdiv d = { s with pwmcfg := (s.configClockdiv d).pwmcfg } := rfl
      _ = { s with pwmcfg := s.pwmcfg } := by rw [hcfg]
      _ = s := rfl

theorem config_short {channel : Nat} {periodUs pulseWidthUs : BitVec 32}
    (h : ¬ pulseWidthUs ≤ periodUs) :
    s.config freq channel periodUs pulseWidthUs = (some .parameter, s) :=
  if_pos (BitVec.not_le.mp h)

/-- What a call does, by the divider that fits. -/
theorem config_eq {channel : Nat} {periodUs pulseWidthUs : BitVec 32}
    (h : pulseWidthUs ≤ periodUs) :
    s.config freq channel periodUs pulseWidthUs =
      match firstFit freq periodUs cntDiv with
      | none => (some .parameter, s.configClockdiv 128#32)
      | some d => (none, (s.configClockdiv d).configChannel channel (counts freq periodUs d)
          (counts freq pulseWidthUs d)) := by
  rw [config, if_neg (BitVec.not_lt.mpr h), searchDiv_eq (fun _ hd => hd)]
  cases firstFit freq periodUs cntDiv with
  | none =>
      simp only [foldl_cntDiv]
  | some d => rfl

/-- A number of counts means the same under another divider exactly if there are none. -/
theorem mul_div_eq_iff {x : BitVec 16} {d e : Nat} : x.toNat * d = x.toNat * e ↔ e = d ∨ x = 0 := by
  rw [mul_eq_mul_left_iff, eq_comm (a := d), ← BitVec.toNat_inj]
  rfl

/-- On the channels of the other pairs nothing changes in effect exactly if the divider does
    not, or they have no counts. -/
theorem others_iff {ch : Fin 12} {d counter cmpCounter : BitVec 32} (hd : d ∈ cntDiv)
    (hcounter : counter.toNat < 2 ^ 16) :
    (∀ other, pairOf other ≠ pairOf ch →
      ((s.configClockdiv d).configChannel ch.val counter cmpCounter).periodOf other
          = s.periodOf other ∧
        ((s.configClockdiv d).configChannel ch.val counter cmpCounter).pulseOf other
          = s.pulseOf other) ↔
      s.hwDiv = d.toNat ∨
        ∀ other, pairOf other ≠ pairOf ch → s.loadOf other = 0 ∧ s.cmpOf other = 0 := by
  have hperiod (other : Fin 12) (hne : pairOf other ≠ pairOf ch) :
      ((s.configClockdiv d).configChannel ch.val counter cmpCounter).periodOf other
          = s.periodOf other ↔ s.hwDiv = d.toNat ∨ s.loadOf other = 0 := by
    rw [periodOf, periodOf, loadOf_configChannel_ne hcounter hne, hwDiv_configChannel,
      hwDiv_configClockdiv hd]
    exact mul_div_eq_iff
  have hpulse (other : Fin 12) (hne : pairOf other ≠ pairOf ch) :
      ((s.configClockdiv d).configChannel ch.val counter cmpCounter).pulseOf other
          = s.pulseOf other ↔ s.hwDiv = d.toNat ∨ s.cmpOf other = 0 := by
    rw [pulseOf, pulseOf, cmpOf_configChannel_ne hne, hwDiv_configChannel, hwDiv_configClockdiv hd]
    exact mul_div_eq_iff
  constructor
  · intro h
    by_cases hdiv : s.hwDiv = d.toNat
    · exact Or.inl hdiv
    · refine Or.inr fun other hne => ⟨?_, ?_⟩
      · exact ((hperiod other hne).mp (h other hne).1).resolve_left hdiv
      · exact ((hpulse other hne).mp (h other hne).2).resolve_left hdiv
  · rintro (hdiv | hzero) other hne
    · exact ⟨(hperiod other hne).mpr (Or.inl hdiv), (hpulse other hne).mpr (Or.inl hdiv)⟩
    · exact ⟨(hperiod other hne).mpr (Or.inr (hzero other hne).1),
        (hpulse other hne).mpr (Or.inr (hzero other hne).2)⟩

/-- The counts that a successful call writes have 16 bits: the period's by the choice of the
    divider, the pulse width's because it is not longer. -/
theorem counts_lt (hfreq : freq < 2 ^ 31) {periodUs pulseWidthUs d : BitVec 32}
    (hd : firstFit freq periodUs cntDiv = some d) (hle : pulseWidthUs ≤ periodUs) :
    (counts freq periodUs d).toNat < 2 ^ 16 ∧
      (freq / 1000000 * periodUs.toNat < 2 ^ 32 → (counts freq pulseWidthUs d).toNat < 2 ^ 16) := by
  have hperiod : (counts freq periodUs d).toNat < 2 ^ 16 := by
    have hcounts := (firstFit_some hd).2
    rw [BitVec.le_def, BitVec.toNat_ofNat] at hcounts
    omega
  refine ⟨hperiod, fun hprod => Nat.lt_of_le_of_lt ?_ hperiod⟩
  have hmul : freq / 1000000 * pulseWidthUs.toNat ≤ freq / 1000000 * periodUs.toNat :=
    Nat.mul_le_mul_left _ (BitVec.le_def.mp hle)
  rw [counts_toNat hfreq, counts_toNat hfreq, Nat.mod_eq_of_lt hprod,
    Nat.mod_eq_of_lt (Nat.lt_of_le_of_lt hmul hprod)]
  exact Nat.div_le_div_right hmul

/-- A call is right exactly under its condition. -/
theorem call_right_iff (hfreq : freq < 2 ^ 31) (s : Pwm) (c : PwmCall) :
    CallRight freq s c ↔ CallCond freq s c := by
  by_cases hle : c.pulseWidthUs ≤ c.periodUs
  · have hcond : CallCond freq s c ↔ match firstFit freq c.periodUs cntDiv with
        | none => s.divBits = 0xe#4
        | some d => freq / 1000000 * c.periodUs.toNat < 2 ^ 32 ∧ Fine freq c.periodUs d ∧
            Fine freq c.pulseWidthUs d ∧ (s.hwDiv = d.toNat ∨
              ∀ other, pairOf other ≠ pairOf c.channel → s.loadOf other = 0 ∧ s.cmpOf other = 0) :=
      ⟨fun h => h hle, fun h _ => h⟩
    rw [hcond, CallRight, config_eq hle]
    cases hfit : firstFit freq c.periodUs cntDiv with
    | none => exact (configClockdiv_eq_self_iff (d := 128#32) (by decide)).trans Iff.rfl
    | some d =>
        have hd := (firstFit_some hfit).1
        have hbounds := cntDiv_bounds d hd
        have ⟨hperiod, hpulse⟩ := counts_lt hfreq hfit hle
        dsimp only
        rw [if_pos rfl, hwDiv_configChannel, hwDiv_configClockdiv hd, periodOf, pulseOf,
          hwDiv_configChannel, hwDiv_configClockdiv hd, loadOf_configChannel hperiod]
        by_cases hprod : freq / 1000000 * c.periodUs.toNat < 2 ^ 32
        · -- All counts are exact but for the rounding.
          have hpulseProd : freq / 1000000 * c.pulseWidthUs.toNat < 2 ^ 32 :=
            Nat.lt_of_le_of_lt (Nat.mul_le_mul_left _ (BitVec.le_def.mp hle)) hprod
          rw [cmpOf_configChannel (hpulse hprod), counts_toNat hfreq, counts_toNat hfreq,
            within_iff hprod hbounds.1, within_iff hpulseProd hbounds.1, and_iff_right hprod]
          exact and_congr Iff.rfl (and_congr Iff.rfl (others_iff hd hperiod))
        · -- The period is one of 16 bits under a divider of at most 128, and too short.
          have hfalse := not_within (d := d.toNat) (Nat.le_of_not_lt hprod)
            (Nat.le_of_lt_succ hperiod) hbounds.2
          exact ⟨fun h => absurd h.1 hfalse, fun h => absurd h.1 hprod⟩
  · rw [CallRight, config_short hle]
    exact ⟨fun _ h => absurd h hle, fun _ => rfl⟩

end Call

/-! ## Sequences of calls -/

/-- A call, whatever it returns. -/
def callStep (freq : Nat) (s : Pwm) (c : PwmCall) : Option Pwm :=
  some (s.config freq c.channel.val c.periodUs c.pulseWidthUs).2

/-- All calls of a sequence are right exactly if all of them meet the condition. -/
theorem calls_right_iff (freq : Nat) (hfreq : freq < 2 ^ 31) (s : Pwm) (calls : List PwmCall) :
    Run.Along (callStep freq) (CallRight freq) s calls ↔
      Run.Along (callStep freq) (CallCond freq) s calls :=
  -- No invariant is needed, a single call being right from any state.
  have hkeep : ∀ (s : Pwm) (c : PwmCall) s', True → CallCond freq s c →
      callStep freq s c = some s' → True := fun _ _ _ _ _ _ => trivial
  Run.along_iff hkeep (fun s c _ => call_right_iff hfreq s c) calls s trivial

/-- The registers after a reset. -/
def reset : Pwm := ⟨0, 0, fun _ => 0, fun _ => 0, 0, fun _ => 0, 0, fun _ => 0⟩

/-- Two pairs with periods of one divider, at 20 MHz. -/
theorem calls_right_two : Run.Along (callStep 20000000) (CallRight 20000000) reset
    [⟨0, 3000#32, 1500#32⟩, ⟨2, 2000#32, 500#32⟩] := by
  refine (calls_right_iff 20000000 (by decide) reset _).mpr ⟨fun _ => ?_, fun t ht => ⟨fun _ => ?_,
    fun _ _ => trivial⟩⟩
  · have hfit : firstFit 20000000 3000#32 cntDiv = some 1#32 := by decide
    dsimp only
    rw [hfit]
    exact ⟨by decide, by rw [Fine]; decide, by rw [Fine]; decide, Or.inl (by decide)⟩
  · have hfit : firstFit 20000000 2000#32 cntDiv = some 1#32 := by decide
    rw [← Option.some.inj ht]
    dsimp only
    rw [hfit]
    exact ⟨by decide, by rw [Fine]; decide, by rw [Fine]; decide, Or.inl (by decide)⟩

/-- A period of a millisecond, and then one of ten on another pair: the first one becomes four
    milliseconds. -/
theorem call_disturbs :
    (reset.config 20000000 0 1000#32 500#32).2.periodOf 0 = 20000 ∧
      ((reset.config 20000000 0 1000#32 500#32).2.config 20000000 2 10000#32 5000#32).1 = none ∧
      ((reset.config 20000000 0 1000#32 500#32).2.config 20000000 2 10000#32 5000#32).2.periodOf 0
        = 80000 ∧
      ¬ Run.Along (callStep 20000000) (CallRight 20000000) reset
        [⟨0, 1000#32, 500#32⟩, ⟨2, 10000#32, 5000#32⟩] := by
  have hbefore : (reset.config 20000000 0 1000#32 500#32).2.periodOf 0 = 20000 := by decide
  have hnone : ((reset.config 20000000 0 1000#32 500#32).2.config 20000000 2 10000#32
      5000#32).1 = none := by decide
  have hafter : ((reset.config 20000000 0 1000#32 500#32).2.config 20000000 2 10000#32
      5000#32).2.periodOf 0 = 80000 := by decide
  refine ⟨hbefore, hnone, hafter, fun h => ?_⟩
  have hcall := (h.2 _ rfl).1
  rw [CallRight] at hcall
  have hkept := ((if_pos hnone).mp hcall).2.2 0 (by decide)
  exact absurd (hafter.symm.trans (hkept.1.trans hbefore)) (by decide)


end Pwm

end Driver

end Wujian100
