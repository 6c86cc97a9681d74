import Wujian100.Core.Libs.ClockGettime
import Wujian100.Theory.Driver.OipTimer
import Wujian100.Library.Run

/-!
# What the Clock Shows

A reading is right when the count it finds is the number of the reloads there had been when it
got the timer's value. The interrupt of a reload can come too late for that, or the reload and
its interrupt can come in between, and then the time is a whole turn of the timer off.

## Main definitions

* `stamp`: The time after a number of cycles.
* `Timespec.Le`: One time is not after another.
* `Clock.CountFits`: The count belongs to the value.
* `Clock.Running`, `Clock.Honest`: What every run keeps, and what those do whose counts fit.

## Theorems

* `stamp_mono`: Later cycles have later times.
* `gettime_eq`: A reading with the right value shows the right time.
* `timerCurrentValue_eq`: When the count fits the value is right.
* `clock_monotonic`: Then the times that are read never go back.
-/

namespace Wujian100

namespace Libs

open Driver (OipTimer)

/-- The time after `p` cycles of a timer with `f` of them in a second. -/
def stamp (f p : Nat) : Timespec := ⟨(p / f : Nat), (p % f * 1000000000 / f : Nat)⟩

/-- `a` is not after `b`. -/
def Timespec.Le (a b : Timespec) : Prop :=
  a.tvSec < b.tvSec ∨ a.tvSec = b.tvSec ∧ a.tvNsec ≤ b.tvNsec

instance (a b : Timespec) : Decidable (a.Le b) :=
  inferInstanceAs (Decidable (a.tvSec < b.tvSec ∨ a.tvSec = b.tvSec ∧ a.tvNsec ≤ b.tvNsec))

/-- The times are in order, the newest first, and each has a number of nanoseconds. -/
def TimesRight (times : List Timespec) : Prop := times.Pairwise fun a b => b.Le a

instance (times : List Timespec) : Decidable (TimesRight times) :=
  inferInstanceAs (Decidable (times.Pairwise fun a b => b.Le a))

/-- The nanoseconds of a time are less than a second. -/
def NsecRight (x : Timespec) : Prop := 0 ≤ x.tvNsec ∧ x.tvNsec ≤ 999999999

section Stamp

variable {f p q : Nat}

theorem stamp_mono (h : p ≤ q) : (stamp f p).Le (stamp f q) := by
  have hdiv : p / f ≤ q / f := Nat.div_le_div_right h
  rcases Nat.eq_or_lt_of_le hdiv with heq | hlt
  · -- Within a second the rest of the division grows.
    have hp := Nat.div_add_mod p f
    have hq := Nat.div_add_mod q f
    have hmod : p % f ≤ q % f := by
      rw [heq] at hp
      omega
    refine Or.inr ⟨congrArg Int.ofNat heq, Int.ofNat_le.mpr ?_⟩
    exact Nat.div_le_div_right (Nat.mul_le_mul_right _ hmod)
  · exact Or.inl (Int.ofNat_lt.mpr hlt)

/-- The rest of a second, in nanoseconds, is less than a second. -/
theorem nsec_lt (hf : 0 < f) : p % f * 1000000000 / f < 1000000000 := by
  rw [Nat.div_lt_iff_lt_mul hf, Nat.mul_comm]
  exact Nat.mul_lt_mul_of_pos_left (Nat.mod_lt p hf) (by decide)

end Stamp

namespace Clock

variable {s t : Clock}

/-- The count that is about to be read is the number of reloads there had been when the value
    was, it can be counted on, and 2^31 seconds are not over. -/
def CountFits (s : Clock) (a : ClockAct) : Prop :=
  a = .readLoop →
    s.timerLoopCount.toNat = s.readAt / (s.timer.txLoadCount.toNat + 1) ∧
      s.timerLoopCount.toNat + 1 < 2 ^ 32 ∧ s.readAt < 2 ^ 31 * s.apbFreq.toNat

instance (s : Clock) (a : ClockAct) : Decidable (s.CountFits a) :=
  inferInstanceAs (Decidable (_ → _ ∧ _ ∧ _))

/-- What every run keeps: the timer runs down from the count the clock was made for, and a
    reading that is under way has the value of an earlier cycle. -/
structure Running (f : Nat) (s : Clock) : Prop where
  freq : s.apbFreq.toNat = f
  load : s.timer.txLoadCount = s.timerLoadcount
  load_lt : s.timerLoadcount.toNat + 1 < 2 ^ 32
  down : s.timerCountRise = false
  readAt : s.readAt ≤ s.passed
  reading : ∀ cv, s.reading = some cv →
    cv.toNat = s.timerLoadcount.toNat - s.readAt % (s.timerLoadcount.toNat + 1)
  nsec : ∀ x ∈ s.times, NsecRight x

/-- What a run keeps whose counts fit: each time is the one of the cycle its value was read
    in. -/
structure Honest (f : Nat) (s : Clock) : Prop extends Running f s where
  stamps : ∀ x ∈ s.times, ∃ p ≤ s.readAt, x = stamp f p
  order : TimesRight s.times

section Reading

variable {f : Nat}

/-- The fields of a time have 32 bits, enough for the nanoseconds and for 2^31 seconds. -/
theorem toInt_setWidth {v : BitVec 64} (h : v.toNat < 2 ^ 31) :
    (v.setWidth 32).toInt = (v.toNat : Int) := by
  have hlow : (v.setWidth 32).toNat = v.toNat := by
    rw [BitVec.toNat_setWidth, Nat.mod_eq_of_lt (by omega)]
  rw [BitVec.toInt_eq_toNat_of_lt (by omega), hlow]

/-- The nanoseconds, which are computed in 64 bits without a loss. -/
theorem gettime_nsec (hf : 0 < f) (hlt : f < 2 ^ 31) (hfreq : s.apbFreq.toNat = f)
    (v : BitVec 64) :
    (s.gettime v).tvNsec = ((v.toNat % f * 1000000000 / f : Nat) : Int) := by
  have hmod := Nat.mod_lt v.toNat hf
  have hns := nsec_lt (p := v.toNat) hf
  have hfreq64 : (s.apbFreq.setWidth 64).toNat = f := by
    rw [BitVec.toNat_setWidth, hfreq, Nat.mod_eq_of_lt (by omega)]
  -- No product leaves the 64 bits, since the rest is less than 2^31.
  have hmillis : ((v % s.apbFreq.setWidth 64) * 1000).toNat = v.toNat % f * 1000 := by
    rw [BitVec.toNat_mul, BitVec.toNat_umod, hfreq64, show (1000 : BitVec 64).toNat = 1000 from rfl,
      Nat.mod_eq_of_lt (by omega)]
  have hnanos : ((v % s.apbFreq.setWidth 64) * 1000 * million.setWidth 64).toNat
      = v.toNat % f * 1000000000 := by
    rw [BitVec.toNat_mul, hmillis, show (million.setWidth 64).toNat = 1000000 from rfl,
      Nat.mod_eq_of_lt (by omega)]
    omega
  have hval : ((v % s.apbFreq.setWidth 64) * 1000 * million.setWidth 64
      / s.apbFreq.setWidth 64).toNat = v.toNat % f * 1000000000 / f := by
    rw [BitVec.toNat_udiv, hnanos, hfreq64]
  have hint := toInt_setWidth (by rw [hval]; omega : ((v % s.apbFreq.setWidth 64) * 1000
    * million.setWidth 64 / s.apbFreq.setWidth 64).toNat < 2 ^ 31)
  rw [hval] at hint
  exact hint

/-- A reading always has less than a second of nanoseconds. -/
theorem gettime_nsecRight (hf : 0 < f) (hlt : f < 2 ^ 31) (hfreq : s.apbFreq.toNat = f)
    (v : BitVec 64) : NsecRight (s.gettime v) := by
  have hns := nsec_lt (p := v.toNat) hf
  rw [NsecRight, gettime_nsec hf hlt hfreq]
  exact ⟨Int.natCast_nonneg _, Int.ofNat_le.mpr (Nat.le_of_lt_succ hns)⟩

/-- A reading with the right value shows the right time, for 2^31 seconds. -/
theorem gettime_eq (hf : 0 < f) (hlt : f < 2 ^ 31) (hfreq : s.apbFreq.toNat = f) {v : BitVec 64}
    {p : Nat} (hv : v.toNat = p) (hp : p < 2 ^ 31 * f) : s.gettime v = stamp f p := by
  have hsec : (v / s.apbFreq.setWidth 64).toNat = p / f := by
    rw [BitVec.toNat_udiv, hv, BitVec.toNat_setWidth, hfreq, Nat.mod_eq_of_lt (by omega)]
  have hsecLt : p / f < 2 ^ 31 := (Nat.div_lt_iff_lt_mul hf).mpr hp
  have hint := toInt_setWidth (v := v / s.apbFreq.setWidth 64) (by omega)
  have hnsec := gettime_nsec (s := s) hf hlt hfreq v
  rw [hsec] at hint
  rw [hv] at hnsec
  rw [stamp, ← hnsec, ← hint]
  rfl

/-- When the count is that of the value's cycle, the value is the number of the cycle. -/
theorem timerCurrentValue_eq (h : Running f s) {cv : BitVec 32} (hcv : s.reading = some cv)
    (hcount : s.timerLoopCount.toNat = s.readAt / (s.timerLoadcount.toNat + 1))
    (hfits : s.timerLoopCount.toNat + 1 < 2 ^ 32) : (s.timerCurrentValue cv).toNat = s.readAt := by
  have hload := h.load_lt
  have hval := h.reading cv hcv
  have hmod := Nat.mod_lt s.readAt (show 0 < s.timerLoadcount.toNat + 1 by omega)
  have hdiv := Nat.div_add_mod s.readAt (s.timerLoadcount.toNat + 1)
  have hloop : ((s.timerLoopCount + 1).setWidth 64).toNat = s.timerLoopCount.toNat + 1 := by
    rw [BitVec.toNat_setWidth, BitVec.toNat_add, show (1 : BitVec 32).toNat = 1 from rfl,
      Nat.mod_eq_of_lt hfits, Nat.mod_eq_of_lt (by omega)]
  have hturn : ((s.timerLoadcount + 1).setWidth 64).toNat = s.timerLoadcount.toNat + 1 := by
    rw [BitVec.toNat_setWidth, BitVec.toNat_add, show (1 : BitVec 32).toNat = 1 from rfl,
      Nat.mod_eq_of_lt hload, Nat.mod_eq_of_lt (by omega)]
  have hcv64 : (cv.setWidth 64).toNat = cv.toNat := by
    rw [BitVec.toNat_setWidth, Nat.mod_eq_of_lt (by omega)]
  -- The count and one more, in cycles.
  have hprod : (s.timerLoopCount.toNat + 1) * (s.timerLoadcount.toNat + 1)
      = (s.timerLoadcount.toNat + 1) * (s.readAt / (s.timerLoadcount.toNat + 1))
        + (s.timerLoadcount.toNat + 1) := by
    rw [hcount, Nat.add_mul, Nat.one_mul, Nat.mul_comm]
  have hprodLt : (s.timerLoopCount.toNat + 1) * (s.timerLoadcount.toNat + 1) < 2 ^ 32 * 2 ^ 32 :=
    Nat.mul_lt_mul'' hfits hload
  rw [timerCurrentValue, h.down, if_neg Bool.false_ne_true, BitVec.toNat_sub, BitVec.toNat_sub,
    BitVec.toNat_mul, hloop, hturn, hcv64, show (1 : BitVec 64).toNat = 1 from rfl]
  omega

end Reading

section Steps

variable {f : Nat}

/-- The timer's value in a cycle, from the cycles since the start. -/
theorem txCurrentValue_toNat (h : Running f s) : s.txCurrentValue.toNat
    = s.timerLoadcount.toNat - s.passed % (s.timerLoadcount.toNat + 1) := by
  have hlt := h.load_lt
  rw [txCurrentValue, h.load, BitVec.toNat_ofNat, Countdown.value_self, Nat.mod_eq_of_lt (by omega)]

/-- Every step keeps the timer running. -/
theorem running_step (hf : 0 < f) (hlt : f < 2 ^ 31) (h : Running f s) {a : ClockAct}
    (hs : s.step a = some t) : Running f t := by
  cases a with
  | pass n =>
      have hpassed : s.readAt ≤ s.passed + n := Nat.le_add_right_of_le h.readAt
      simp only [step] at hs
      split at hs
      · rw [← Option.some.inj hs]
        exact { h with readAt := hpassed }
      · split at hs
        · rw [← Option.some.inj hs]
          exact { h with readAt := hpassed }
        · cases hs
  | irq =>
      simp only [step] at hs
      split at hs
      · rw [← Option.some.inj hs]
        exact { h with }
      · cases hs
  | readValue =>
      simp only [step] at hs
      split at hs
      · cases hs
      · rw [← Option.some.inj hs]
        refine { h with readAt := Nat.le_refl s.passed, reading := fun cv hcv => ?_ }
        rw [← Option.some.inj hcv]
        exact txCurrentValue_toNat h
  | readLoop =>
      simp only [step] at hs
      split at hs
      · cases hs
      next cv _ =>
        rw [← Option.some.inj hs]
        refine { h with reading := fun _ hcv => absurd hcv (by simp), nsec := fun x hx => ?_ }
        rcases List.mem_cons.mp hx with rfl | hx
        · exact gettime_nsecRight hf hlt h.freq _
        · exact h.nsec x hx

/-- What a step does to the times: only the end of a reading adds one, and the cycle of the
    value that is kept never goes back. -/
theorem step_times {a : ClockAct} (h : s.readAt ≤ s.passed) (hs : s.step a = some t) :
    s.readAt ≤ t.readAt ∧ (t.times = s.times ∨
      ∃ cv, a = .readLoop ∧ s.reading = some cv ∧ t.readAt = s.readAt ∧
        t.times = s.gettime (s.timerCurrentValue cv) :: s.times) := by
  cases a with
  | pass n =>
      simp only [step] at hs
      split at hs
      · rw [← Option.some.inj hs]
        exact ⟨Nat.le_refl _, Or.inl rfl⟩
      · split at hs
        · rw [← Option.some.inj hs]
          exact ⟨Nat.le_refl _, Or.inl rfl⟩
        · cases hs
  | irq =>
      simp only [step] at hs
      split at hs
      · rw [← Option.some.inj hs]
        exact ⟨Nat.le_refl _, Or.inl rfl⟩
      · cases hs
  | readValue =>
      simp only [step] at hs
      split at hs
      · cases hs
      · rw [← Option.some.inj hs]
        exact ⟨h, Or.inl rfl⟩
  | readLoop =>
      simp only [step] at hs
      split at hs
      · cases hs
      next cv hcv =>
        rw [← Option.some.inj hs]
        exact ⟨Nat.le_refl _, Or.inr ⟨cv, rfl, hcv, rfl, rfl⟩⟩

/-- A step whose count fits keeps the times those of their cycles, and so in order. -/
theorem honest_step (hf : 0 < f) (hlt : f < 2 ^ 31) (h : Honest f s) {a : ClockAct}
    (hfits : s.CountFits a) (hs : s.step a = some t) : Honest f t := by
  have hrun := running_step hf hlt h.toRunning hs
  obtain ⟨hle, heq | ⟨cv, rfl, hcv, hread, htimes⟩⟩ := step_times h.readAt hs
  · refine { hrun with stamps := fun x hx => ?_, order := heq ▸ h.order }
    obtain ⟨p, hp, hx⟩ := h.stamps x (heq ▸ hx)
    exact ⟨p, Nat.le_trans hp hle, hx⟩
  · -- The new time is that of the cycle the value was read in, and no other one is later.
    obtain ⟨hcount, hroom, hlong⟩ := hfits rfl
    rw [h.load] at hcount
    rw [h.freq] at hlong
    have hnew : s.gettime (s.timerCurrentValue cv) = stamp f s.readAt :=
      gettime_eq hf hlt h.freq (timerCurrentValue_eq h.toRunning hcv hcount hroom) hlong
    rw [hnew] at htimes
    refine { hrun with stamps := fun x hx => ?_, order := ?_ }
    · rw [htimes] at hx
      rcases List.mem_cons.mp hx with rfl | hx
      · exact ⟨s.readAt, hle, rfl⟩
      · obtain ⟨p, hp, hx⟩ := h.stamps x hx
        exact ⟨p, Nat.le_trans hp hle, hx⟩
    · rw [TimesRight, htimes, List.pairwise_cons]
      refine ⟨fun x hx => ?_, h.order⟩
      obtain ⟨p, hp, rfl⟩ := h.stamps x hx
      exact stamp_mono hp

/-- Ten million times the whole megahertz, in 32 bits. -/
theorem timerInit_load {freq : Nat} (hlt : freq < 2 ^ 31) (timer : OipTimer) (cv : BitVec 32) :
    (timerInit timer freq cv cv).timerLoadcount.toNat = 10000000 * (freq / 1000000) % 2 ^ 32 := by
  simp only [timerInit, million, BitVec.toNat_mul, BitVec.toNat_udiv, BitVec.toNat_ofNat,
    Nat.mod_eq_of_lt (show freq < 2 ^ 32 by omega)]

/-- The timer is loaded with the count the clock reckons with. -/
theorem timerStart_load {freq : Nat} (hfreq : 1000000 ≤ freq) (hlt : freq < 2 ^ 31)
    (timer : OipTimer) (cv : BitVec 32) :
    (timerStart freq (timerInit timer freq cv cv)).timer.txLoadCount
      = (timerInit timer freq cv cv).timerLoadcount := by
  have hctl : (timerInit timer freq cv cv).timer.txControl ≠ 0x2#5 :=
    OipTimer.config_ne timer.deactiveControl .reload
  have hload := @OipTimer.start_load (timerInit timer freq cv cv).timer freq
    (OipTimer.config_reload timer.deactiveControl) (show 10#32 * million ≠ 0 by decide)
  rw [if_neg hctl] at hload
  refine BitVec.eq_of_toNat_eq ?_
  rw [timerInit_load hlt]
  rw [timerStart, hload, OipTimer.startLoad_fast hfreq (by omega)]
  rfl

/-- The clock, started on a timer of at least a megahertz, runs down from the count it was
    made for. -/
theorem honest_start {freq : Nat} (hfreq : 1000000 ≤ freq) (hlt : freq < 2 ^ 31) (timer : OipTimer)
    (cv : BitVec 32) : Honest freq (timerStart freq (timerInit timer freq cv cv)) where
  freq := by
    simp only [timerStart, timerInit, BitVec.toNat_ofNat]
    omega
  load := timerStart_load hfreq hlt timer cv
  load_lt := by
    -- The count is even, so it is not the largest one.
    have hload := timerInit_load hlt timer cv
    show (timerInit timer freq cv cv).timerLoadcount.toNat + 1 < 2 ^ 32
    omega
  down := decide_eq_false (by rw [gt_iff_lt, BitVec.lt_def]; exact Nat.lt_irrefl _)
  readAt := Nat.le_refl 0
  reading := fun _ hcv => absurd hcv (by simp [timerStart, timerInit])
  nsec := fun _ hx => absurd hx List.not_mem_nil
  stamps := fun _ hx => absurd hx List.not_mem_nil
  order := List.Pairwise.nil

end Steps

/-- The nanoseconds of every time that is read are less than a second, and as long as the
    counts fit the times never go back. -/
theorem clock_monotonic (freq : Nat) (timer : OipTimer) (cv : BitVec 32) (acts : List ClockAct)
    (s : Clock) (hfreq : 1000000 ≤ freq) (hlt : freq < 2 ^ 31)
    (hrun : Run.run step (timerStart freq (timerInit timer freq cv cv)) acts = some s) :
    (∀ x ∈ s.times, NsecRight x) ∧
      (Run.Along step CountFits (timerStart freq (timerInit timer freq cv cv)) acts →
        TimesRight s.times) := by
  have hf : 0 < freq := by omega
  have hstart := honest_start hfreq hlt timer cv
  constructor
  · have hkeep := Run.run_inv (P := fun _ _ => True)
      (fun s a t h _ hs => running_step hf hlt (s := s) (t := t) (a := a) h hs) acts _ s
      hstart.toRunning (Run.along_of_forall (fun _ _ => trivial) acts _) hrun
    exact hkeep.nsec
  · intro hfits
    exact (Run.run_inv (fun s a t h hfit hs => honest_step hf hlt h hfit hs) acts _ s hstart hfits
      hrun).order

/-- The board's clock, before it has been read. -/
def boardClock : Clock := timerStart 20000000 (timerInit ⟨0, 0, false, 0, false⟩ 20000000 0 0)

/-- Around a reload whose interrupt is served before the next reading. -/
def servedReload : List ClockAct :=
  [.pass 200000000, .readValue, .readLoop, .pass 1, .irq, .readValue, .readLoop]

theorem clock_monotonic_served :
    ∃ s, Run.run step boardClock servedReload = some s ∧ s.times = [⟨10, 50⟩, ⟨10, 0⟩] ∧
      TimesRight s.times := by
  have hrun : (Run.run step boardClock servedReload).map (·.times) = some [⟨10, 50⟩, ⟨10, 0⟩] := by
    decide
  obtain ⟨s, hs, htimes⟩ := Option.map_eq_some_iff.mp hrun
  refine ⟨s, hs, htimes, ?_⟩
  exact (clock_monotonic 20000000 ⟨0, 0, false, 0, false⟩ 0 servedReload s (by decide) (by decide)
    hs).2 (by decide)

/-- The interrupt of the reload has not been served when the clock is read again: it shows the
    time of its start. -/
theorem clock_goes_back :
    (Run.run step boardClock
      [.pass 200000000, .readValue, .readLoop, .pass 1, .readValue, .readLoop]).map (·.times)
      = some [⟨0, 0⟩, ⟨10, 0⟩] ∧ ¬ TimesRight [⟨0, 0⟩, ⟨10, 0⟩] := by
  decide

end Clock

end Libs

end Wujian100
