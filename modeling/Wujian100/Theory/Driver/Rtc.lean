import Mathlib.Tactic.NormNum
import Wujian100.Core.Driver.Rtc
import Wujian100.Theory.Driver.Calendar

/-!
# The Time and the Alarm

A `time_t` of the target ends in January 2038 while calendar times are accepted up to 2099, and
the match register holds 32 bits of a counter that counts ten million times a second. Reading
the time is right as long as the time is before the end of `time_t`, and setting the alarm is
right where the alarm is refused, or where the time can be read and the alarm is less than one
turn of the counter ahead.

## Main definitions

* `Tm.Shows`: A calendar time is the one of a second.
* `Loaded`: The reading of the counter that ends the wait for its load value.
* `now`: The second that it is.
* `GetRight`, `AlarmRight`: A call of `csi_rtc_get_time` or of `csi_rtc_set_alarm` does what it
  should.

## Theorems

* `csiRtcGetTime_eq`: What a call returns, from the counter.
* `gmtimeR_wrapped`: From the end of `time_t` on no time since 1970 is read.
* `csiRtcSetAlarm_eq`: What a call writes.
* `rtc_right_iff`: When the two are right.
-/

namespace Wujian100

namespace Driver

theorem wide_int32 : Wide int32 := fun _ hlo hhi => Int.bmod_eq_of_le (by omega) (by omega)

/-- A number of 33 bits loses the upper half. -/
theorem int32_of_ge {x : Int} (hlo : 2147483648 ≤ x) (hhi : x < 6442450944) :
    int32 x = x - 4294967296 := by
  rw [int32, Int.bmod_def]
  split_ifs <;> omega

theorem int64_of_small {x : Int} (hlo : -9223372036854775808 ≤ x)
    (hhi : x < 9223372036854775808) : int64 x = x :=
  Int.bmod_eq_of_le (by omega) (by omega)

/-- The calendar time `t` is the one of the second `n`. -/
structure Tm.Shows (t : Tm) (n : Int) : Prop where
  year : 70 ≤ t.tmYear
  mon : 0 ≤ t.tmMon ∧ t.tmMon < 12
  mday : 1 ≤ t.tmMday ∧
    t.tmMday + before (clockIsleapyear (t.tmYear + 1900)) t.tmMon
      ≤ before (clockIsleapyear (t.tmYear + 1900)) (t.tmMon + 1)
  hour : 0 ≤ t.tmHour ∧ t.tmHour < 24
  min : 0 ≤ t.tmMin ∧ t.tmMin < 60
  sec : 0 ≤ t.tmSec ∧ t.tmSec < 60
  seconds : seconds t = n

theorem Tm.Valid.shows {t : Tm} (h : t.Valid) : t.Shows (Driver.seconds t) :=
  ⟨h.year.1, h.mon, h.mday, h.hour, h.min, h.sec, rfl⟩

/-- The counter is loaded: `k` is the first reading from `n` on that is not below the load
    value, it comes in time, and the counter goes on from there. -/
structure Loaded (ccvr : Nat → Nat) (n k : Nat) : Prop where
  le : n ≤ k
  inTime : k ≤ n + rtcBusyTimeout
  below : ∀ i, n ≤ i → i < k → ccvr i < 10
  loaded : 10 ≤ ccvr k
  next : 10 ≤ ccvr (k + 1)

/-- The second that it is when the counter stands at `c`, with `t` as the time that was set. -/
def now (t : Tm) (c : Nat) : Int := seconds t + (c - 10) / 10000000

/-! ### Reading the time -/

/-- The wait ends after the first reading that is not below the load value. -/
theorem waitLoaded_eq {ccvr : Nat → Nat} {clr k : Nat} (left : Nat) {n : Nat} (hle : n ≤ k)
    (hleft : k ≤ n + left) (hbelow : ∀ i, n ≤ i → i < k → ccvr i < clr) (hk : clr ≤ ccvr k) :
    waitLoaded ccvr clr left n = k + 1 := by
  induction left generalizing n with
  | zero =>
      rw [show n = k by omega]
      rfl
  | succ left ih =>
      rw [waitLoaded]
      rcases hle.eq_or_lt with rfl | hlt
      · exact if_neg (by omega)
      · rw [if_pos (hbelow n le_rfl hlt)]
        exact ih (by omega) (by omega) fun i hi => hbelow i (by omega)

section Rtc

variable {ccvr : Nat → Nat} {r : Rtc} {t : Tm} {n k : Nat}

/-- The clock after it was initialised and its time set. -/
def setTo (r : Rtc) (t : Tm) : Rtc := (csiRtcSetTime (csiRtcInitialize r) t).2

theorem setTo_eq (ht : t.Valid) : setTo r t = { r with rtcBase := t, clr := 10, div := 0 } := by
  rw [setTo, csiRtcSetTime, if_pos ((wjCheckTmOk_iff t).mpr ht)]
  rfl

theorem setTo_base (ht : t.Valid) : (setTo r t).rtcBase = t := by
  rw [setTo_eq ht]

theorem setTo_clr (ht : t.Valid) : (setTo r t).clr = 10 := by
  rw [setTo_eq ht]

theorem setTo_div (ht : t.Valid) : (setTo r t).div = 0 := by
  rw [setTo_eq ht]

theorem perMilli_zero (hdiv : r.div = 0) : r.perMilli = 10000 := by
  rw [Rtc.perMilli, hdiv]
  rfl

/-- What a call returns is what the second that it is becomes in a `time_t`. -/
theorem csiRtcGetTime_eq (hccvr : ∀ i, ccvr i < 4294967296) (ht : t.Valid)
    (hk : Loaded ccvr n k) (fuel : Nat) :
    csiRtcGetTime ccvr fuel (setTo r t) n
      = (gmtimeR int32 fuel (int32 (now t (ccvr (k + 1)))), k + 2) := by
  have hwait := waitLoaded_eq rtcBusyTimeout hk.le hk.inTime hk.below hk.loaded
  have hc := hccvr (k + 1)
  have hnext := hk.next
  have hbase := ht.seconds_lt
  -- The milliseconds and the seconds that passed fit in a `time_t`.
  have hread : wjRtcReadtime (setTo r t) (ccvr (k + 1)) = (ccvr (k + 1) - 10) / 10000 := by
    have hmod : (ccvr (k + 1) + 18446744073709551616 - 10) % 18446744073709551616
        = ccvr (k + 1) - 10 := by omega
    rw [wjRtcReadtime, setTo_clr ht, perMilli_zero (setTo_div ht), hmod]
  have hsmall : int32 ((ccvr (k + 1) - 10) / 10000 : Nat) = ((ccvr (k + 1) - 10) / 10000 : Nat) :=
    wide_int32 _ (by omega) (by omega)
  have hsec : (((ccvr (k + 1) - 10) / 10000 : Nat) : Int).tdiv 1000
      = (ccvr (k + 1) - 10) / 10000000 := by
    rw [Int.tdiv_eq_ediv_of_nonneg (by omega)]
    omega
  have hwrap : int32 ((ccvr (k + 1) - 10) / 10000000 + int32 (seconds t))
      = int32 (now t (ccvr (k + 1))) := by
    rw [int32, int32, int32, Int.add_bmod_bmod, now, Int.add_comm]
  rw [csiRtcGetTime]
  simp only [setTo_clr ht, setTo_base ht, hwait, hread, hsmall, hsec, mktime_valid wide_int32 ht,
    hwrap]

theorem now_bounds (hccvr : ∀ i, ccvr i < 4294967296) (ht : t.Valid) (i : Nat) (hi : 10 ≤ ccvr i) :
    seconds t ≤ now t (ccvr i) ∧ now t (ccvr i) < 4102445229 := by
  have hc := hccvr i
  have hbase := ht.seconds_lt
  rw [now]
  omega

/-- Before the end of `time_t` the time is read. -/
theorem gmtimeR_shows {s : Int} (hlo : 0 ≤ s) (hhi : s < 2147483648) {fuel : Nat}
    (hfuel : 12 ≤ fuel) :
    ∃ t', gmtimeR int32 fuel (int32 s) = some t' ∧ t'.Valid ∧ seconds t' = s := by
  rw [wide_int32 s (by omega) hhi]
  exact gmtimeR_spec wide_int32 hfuel hlo (by omega)

/-- From the end of `time_t` on no time since 1970 is read. -/
theorem gmtimeR_wrapped {s : Int} (hlo : 2147483648 ≤ s) (hhi : s < 4102445229) {fuel : Nat}
    (hfuel : 12 ≤ fuel) :
    ∃ t', gmtimeR int32 fuel (int32 s) = some t' ∧
      ¬(70 ≤ t'.tmYear ∧ 1 ≤ t'.tmMday ∧ 0 ≤ t'.tmHour ∧ 0 ≤ t'.tmMin ∧ 0 ≤ t'.tmSec) := by
  rw [int32_of_ge hlo (by omega)]
  exact gmtimeR_neg wide_int32 hfuel (by omega) (by omega)

/-- A call of `csi_rtc_get_time` returns the time that was set with the seconds that passed, as
    its last reading of the counter has it. -/
def GetRight (ccvr : Nat → Nat) (fuel : Nat) (r : Rtc) (n : Nat) : Prop :=
  ∃ t m, csiRtcGetTime ccvr fuel r n = (some t, m + 1) ∧ t.Shows (now r.rtcBase (ccvr m))

theorem getRight_iff (hccvr : ∀ i, ccvr i < 4294967296) (ht : t.Valid) (hk : Loaded ccvr n k)
    {fuel : Nat} (hfuel : 12 ≤ fuel) :
    GetRight ccvr fuel (setTo r t) n ↔ now t (ccvr (k + 1)) < 2147483648 := by
  obtain ⟨hlo, hhi⟩ := now_bounds hccvr ht (k + 1) hk.next
  have hbase := ht.seconds_lt
  have hget := csiRtcGetTime_eq (r := r) hccvr ht hk fuel
  rw [GetRight, hget, setTo_base ht]
  constructor
  · rintro ⟨t', m, heq, hshows⟩
    by_contra hge
    obtain ⟨u, hu, hbad⟩ := gmtimeR_wrapped (by omega) hhi hfuel
    obtain ⟨hsome, -⟩ := Prod.mk.inj heq
    obtain rfl : u = t' := Option.some.inj (hu.symm.trans hsome)
    exact hbad ⟨hshows.year, hshows.mday.1, hshows.hour.1, hshows.min.1, hshows.sec.1⟩
  · intro hlt
    obtain ⟨u, hu, hvalid, hsec⟩ := gmtimeR_shows (by omega) hlt hfuel
    exact ⟨u, k + 1, by rw [hu], hsec ▸ hvalid.shows⟩

/-! ### Setting the alarm -/

/-- The counter moves before the wait for it is given up: one of the readings from `n + 1` on
    is above the one of number `n`. -/
def Moves (ccvr : Nat → Nat) (n : Nat) : Prop :=
  ∃ i < rtcBusyTimeout - 1, ccvr n < ccvr (n + 1 + i)

theorem waitMoved_of_exists {lastValue : Nat} (left : Nat) {n : Nat}
    (h : ∃ i < left, lastValue < ccvr (n + i)) :
    ∃ m, waitMoved ccvr lastValue left n = (true, m) := by
  induction left generalizing n with
  | zero => exact absurd h.choose_spec.1 (Nat.not_lt_zero _)
  | succ left ih =>
      obtain ⟨i, hi, hlt⟩ := h
      rw [waitMoved]
      by_cases hle : ccvr n ≤ lastValue
      · -- The reading in question is a later one.
        rw [if_pos hle]
        cases i with
        | zero => exact absurd hlt (by rw [Nat.add_zero]; omega)
        | succ i =>
            exact ih ⟨i, by omega, by rwa [show n + 1 + i = n + (i + 1) by omega]⟩
      · rw [if_neg hle]
        exact ⟨n + 1, rfl⟩

theorem waitMoved_of_forall {lastValue : Nat} (left : Nat) {n : Nat}
    (h : ∀ i < left, ccvr (n + i) ≤ lastValue) :
    ∃ m, waitMoved ccvr lastValue left n = (false, m) := by
  induction left generalizing n with
  | zero => exact ⟨n + 1, rfl⟩
  | succ left ih =>
      have hhere := h 0 (by omega)
      rw [Nat.add_zero] at hhere
      rw [waitMoved, if_pos hhere]
      refine ih fun i hi => ?_
      have := h (i + 1) (by omega)
      rwa [show n + 1 + i = n + (i + 1) by omega]

/-- Once the counter has moved the match register is as many counts ahead of it as the distance
    has, up to whole turns of the counter. -/
theorem wjRtcSetmarchtime_moves (hccvr : ∀ i, ccvr i < 4294967296) (hdiv : r.div = 0) {d : Int}
    (hlo : 0 ≤ d) (hhi : d < 4294967296) (hmoves : Moves ccvr n) :
    ∃ v m, wjRtcSetmarchtime ccvr r (d * 1000) n = (0, some v, m + 1) ∧
      ((v : Int) - ccvr m) % 4294967296 = d * 10000000 % 4294967296 := by
  obtain ⟨m, hwait⟩ := waitMoved_of_exists (rtcBusyTimeout - 1) hmoves
  have hc := hccvr m
  have htime : int64 (d * 1000 * r.perMilli) = d * 10000000 := by
    rw [perMilli_zero hdiv, int64_of_small (by omega) (by omega)]
    omega
  have hsum : int64 (d * 10000000 + ccvr m) = d * 10000000 + ccvr m :=
    int64_of_small (by omega) (by omega)
  refine ⟨((d * 10000000 + ccvr m) % 4294967296).toNat, m, ?_, by omega⟩
  rw [wjRtcSetmarchtime, if_neg (by omega)]
  simp only [hwait, htime, hsum]

/-- When the counter does not move nothing is written. -/
theorem wjRtcSetmarchtime_stuck {d : Int} (hlo : 0 ≤ d) (hstuck : ¬Moves ccvr n) :
    ∃ m, wjRtcSetmarchtime ccvr r (d * 1000) n = (errRtcTimeout, none, m) := by
  have hall : ∀ i < rtcBusyTimeout - 1, ccvr (n + 1 + i) ≤ ccvr n := fun i hi =>
    Nat.le_of_not_lt fun hlt => hstuck ⟨i, hi, hlt⟩
  obtain ⟨m, hwait⟩ := waitMoved_of_forall (rtcBusyTimeout - 1) hall
  refine ⟨m, ?_⟩
  rw [wjRtcSetmarchtime, if_neg (by omega)]
  simp only [hwait]

/-- What a call does with a valid alarm, when `cur` is made of the time that it reads. -/
theorem csiRtcSetAlarm_eq {alarm t' : Tm} {cur : Int} {fuel m : Nat} (ha : alarm.Valid)
    (hget : csiRtcGetTime ccvr fuel r n = (some t', m)) (hcur : mktime int32 t' = some cur)
    {d : Int} (hd : int32 (seconds alarm) - cur = d) (hlo : -4294967296 ≤ d)
    (hhi : d < 4294967296) :
    csiRtcSetAlarm ccvr fuel r alarm n
      = if d < 0 then some (errRtcTime, none, m)
        else some (0, (wjRtcSetmarchtime ccvr r (d * 1000) m).2) := by
  rw [csiRtcSetAlarm, if_pos ((wjCheckTmOk_iff alarm).mpr ha), hget]
  simp only [mktime_valid wide_int32 ha, hcur, hd]
  rw [int64_of_small (x := d) (by omega) (by omega), int64_of_small (by omega) (by omega)]
  rcases lt_or_ge d 0 with hneg | hpos
  · rw [if_pos hneg, if_pos (by omega)]
  · rw [if_neg (by omega), if_neg (by omega)]

/-- A call of `csi_rtc_set_alarm` that returns 0 has written to `RTC_CMR` what is as many counts
    ahead of the counter, as its last reading has it, as there are from now to the alarm. -/
def AlarmRight (ccvr : Nat → Nat) (fuel : Nat) (r : Rtc) (alarm : Tm) (n : Nat) : Prop :=
  ∃ ret cmr m, csiRtcSetAlarm ccvr fuel r alarm n = some (ret, cmr, m) ∧
    (ret = 0 → ∃ c l v, (csiRtcGetTime ccvr fuel r n).2 = c + 1 ∧ m = l + 1 ∧ cmr = some v ∧
      ((v : Int) - ccvr l) % 4294967296
        = (seconds alarm - now r.rtcBase (ccvr c)) * 10000000)

theorem errRtcTime_ne : errRtcTime ≠ 0 := by decide

theorem alarmRight_of_error {fuel : Nat} {alarm : Tm} (m : Nat)
    (h : csiRtcSetAlarm ccvr fuel r alarm n = some (errRtcTime, none, m)) :
    AlarmRight ccvr fuel r alarm n :=
  ⟨_, _, _, h, fun hzero => absurd hzero errRtcTime_ne⟩

/-- What is left of `AlarmRight` when the distance is not negative. -/
theorem alarmRight_iff_of_nonneg {alarm t' : Tm} {cur : Int} {fuel c : Nat}
    (hccvr : ∀ i, ccvr i < 4294967296) (hdiv : r.div = 0) (ha : alarm.Valid)
    (hget : csiRtcGetTime ccvr fuel r n = (some t', c + 1)) (hcur : mktime int32 t' = some cur)
    {d : Int} (hd : int32 (seconds alarm) - cur = d) (hlo : 0 ≤ d) (hhi : d < 4294967296) :
    AlarmRight ccvr fuel r alarm n ↔ Moves ccvr (c + 1) ∧
      d * 10000000 % 4294967296 = (seconds alarm - now r.rtcBase (ccvr c)) * 10000000 := by
  have halarm := csiRtcSetAlarm_eq ha hget hcur hd (by omega) hhi
  rw [if_neg (by omega)] at halarm
  by_cases hmoves : Moves ccvr (c + 1)
  · obtain ⟨v, m, hset, hv⟩ := wjRtcSetmarchtime_moves hccvr hdiv hlo hhi hmoves
    rw [hset] at halarm
    constructor
    · rintro ⟨ret, cmr, m', hres, hright⟩
      obtain ⟨rfl, rfl, rfl⟩ : ret = 0 ∧ cmr = some v ∧ m' = m + 1 := by
        simpa only [halarm, Option.some.injEq, Prod.mk.injEq, eq_comm] using hres
      obtain ⟨c', l, v', hc, hm, hv', heq⟩ := hright rfl
      rw [hget] at hc
      obtain rfl : c = c' := Nat.succ.inj hc
      obtain rfl : m = l := Nat.succ.inj hm
      obtain rfl : v = v' := Option.some.inj hv'
      exact ⟨hmoves, hv ▸ heq⟩
    · rintro ⟨-, heq⟩
      exact ⟨0, some v, m + 1, halarm, fun _ => ⟨c, m, v, by rw [hget], rfl, rfl, hv.trans heq⟩⟩
  · -- The counter does not move, and nothing is written while 0 is returned.
    obtain ⟨m, hset⟩ := wjRtcSetmarchtime_stuck (r := r) hlo hmoves
    rw [hset] at halarm
    refine iff_of_false ?_ fun h => hmoves h.1
    rintro ⟨ret, cmr, m', hres, hright⟩
    obtain ⟨rfl, rfl, rfl⟩ : ret = 0 ∧ cmr = none ∧ m' = m := by
      simpa only [halarm, Option.some.injEq, Prod.mk.injEq, eq_comm] using hres
    obtain ⟨c', l, v', -, -, hv', -⟩ := hright rfl
    cases hv'

theorem alarmRight_iff (hccvr : ∀ i, ccvr i < 4294967296) (ht : t.Valid) (hk : Loaded ccvr n k)
    {fuel : Nat} (hfuel : 12 ≤ fuel) (alarm : Tm) :
    AlarmRight ccvr fuel (setTo r t) alarm n ↔
      ¬alarm.Valid ∨ 2147483648 ≤ seconds alarm ∨ now t (ccvr (k + 1)) < 2147483648 ∧
        (seconds alarm < now t (ccvr (k + 1)) ∨ Moves ccvr (k + 2) ∧
          (seconds alarm - now t (ccvr (k + 1))) * 10000000 < 4294967296) := by
  by_cases ha : alarm.Valid
  swap
  -- An alarm that is no time is refused.
  · refine iff_of_true (alarmRight_of_error n ?_) (Or.inl ha)
    exact if_neg fun hc => ha ((wjCheckTmOk_iff alarm).mp hc)
  obtain ⟨hlo, hhi⟩ := now_bounds hccvr ht (k + 1) hk.next
  have hbase := ht.seconds_lt
  have hsec := ha.seconds_lt
  have hget := csiRtcGetTime_eq (r := r) hccvr ht hk fuel
  have hdiv := setTo_div (r := r) ht
  generalize hnow : now t (ccvr (k + 1)) = s at hlo hhi hget
  by_cases hs : s < 2147483648
  · -- The time is read as it is.
    obtain ⟨t', htime, hvalid, heq⟩ := gmtimeR_shows (by omega) hs hfuel
    rw [htime] at hget
    have hcur : mktime int32 t' = some s := by
      rw [mktime_valid wide_int32 hvalid, heq, wide_int32 s (by omega) hs]
    rcases lt_or_ge (seconds alarm) 2147483648 with halarm | halarm
    · have hd : int32 (seconds alarm) - s = seconds alarm - s := by
        rw [wide_int32 _ (by omega) halarm]
      rcases lt_or_ge (seconds alarm) s with hpast | hfuture
      -- An alarm in the past is refused.
      · refine iff_of_true (alarmRight_of_error (k + 2) ?_) (by omega)
        rw [csiRtcSetAlarm_eq ha hget hcur hd (by omega) (by omega), if_pos (by omega)]
      -- An alarm to come is set, and the difference has to fit the counter.
      · rw [alarmRight_iff_of_nonneg hccvr hdiv ha hget hcur hd (by omega) (by omega),
          setTo_base ht, hnow]
        constructor
        · rintro ⟨hmoves, hturn⟩
          exact Or.inr (Or.inr ⟨hs, Or.inr ⟨hmoves, by omega⟩⟩)
        · rintro (hc | hc | ⟨-, hc | ⟨hmoves, hturn⟩⟩)
          · exact absurd ha hc
          · omega
          · omega
          · exact ⟨hmoves, Int.emod_eq_of_lt (by omega) hturn⟩
    · -- The alarm has become negative.
      refine iff_of_true (alarmRight_of_error (k + 2) ?_)
        (Or.inr (Or.inl halarm))
      have hd : int32 (seconds alarm) - s = seconds alarm - 4294967296 - s := by
        rw [int32_of_ge halarm (by omega)]
      rw [csiRtcSetAlarm_eq ha hget hcur hd (by omega) (by omega), if_pos (by omega)]
  · -- No valid time is read, which counts as the second before 1970.
    obtain ⟨t', htime, hbad⟩ := gmtimeR_wrapped (by omega) hhi hfuel
    rw [htime] at hget
    have hcur : mktime int32 t' = some (-1) := mktime_invalid fun h =>
      hbad ⟨h.year.1, h.mday.1, h.hour.1, h.min.1, h.sec.1⟩
    rcases lt_or_ge (seconds alarm) 2147483648 with halarm | halarm
    · have hd : int32 (seconds alarm) - -1 = seconds alarm + 1 := by
        rw [wide_int32 _ (by omega) halarm, Int.sub_neg]
      rw [alarmRight_iff_of_nonneg hccvr hdiv ha hget hcur hd (by omega) (by omega),
        setTo_base ht, hnow]
      refine iff_of_false ?_ ?_
      · rintro ⟨-, hturn⟩
        omega
      · rintro (hc | hc | ⟨hc, -⟩)
        · exact hc ha
        · omega
        · exact hs hc
    · refine iff_of_true (alarmRight_of_error (k + 2) ?_)
        (Or.inr (Or.inl halarm))
      have hd : int32 (seconds alarm) - -1 = seconds alarm - 4294967296 + 1 := by
        rw [int32_of_ge halarm (by omega), Int.sub_neg]
      rw [csiRtcSetAlarm_eq ha hget hcur hd (by omega) (by omega), if_pos (by omega)]

/-- After the time was set to an accepted time and the counter was loaded, the time is read
    right before the end of `time_t` and not from there on, and an alarm is set right when it is
    refused as invalid, as one after the end of `time_t` or as a past one, and else when the time
    can be read, the counter moves and the alarm is less than a turn of the counter ahead. -/
theorem rtc_right_iff (r : Rtc) (t : Tm) (ccvr : Nat → Nat) (n k turns : Nat)
    (ht : wjCheckTmOk t = true) (hccvr : ∀ i, ccvr i < 4294967296) (hk : Loaded ccvr n k) :
    (GetRight ccvr (turns + 12) (csiRtcSetTime (csiRtcInitialize r) t).2 n ↔
      now t (ccvr (k + 1)) < 2147483648) ∧
    ∀ alarm, AlarmRight ccvr (turns + 12) (csiRtcSetTime (csiRtcInitialize r) t).2 alarm n ↔
      ¬wjCheckTmOk alarm = true ∨ 2147483648 ≤ seconds alarm ∨
        now t (ccvr (k + 1)) < 2147483648 ∧
          (seconds alarm < now t (ccvr (k + 1)) ∨ Moves ccvr (k + 2) ∧
            (seconds alarm - now t (ccvr (k + 1))) * 10000000 < 4294967296) := by
  have hvalid := (wjCheckTmOk_iff t).mp ht
  have hfuel : 12 ≤ turns + 12 := Nat.le_add_left 12 turns
  refine ⟨getRight_iff hccvr hvalid hk hfuel, fun alarm => ?_⟩
  rw [wjCheckTmOk_iff]
  exact alarmRight_iff hccvr hvalid hk hfuel alarm

/-- In 2020, with an alarm seven minutes ahead, both are right. -/
theorem rtc_right_2020 :
    GetRight (fun i => 10 + min i 1000) 12
        (csiRtcSetTime (csiRtcInitialize ⟨⟨0, 0, 0, 1, 0, 70⟩, 0, 0⟩) ⟨0, 0, 0, 1, 0, 120⟩).2 0 ∧
      AlarmRight (fun i => 10 + min i 1000) 12
        (csiRtcSetTime (csiRtcInitialize ⟨⟨0, 0, 0, 1, 0, 70⟩, 0, 0⟩) ⟨0, 0, 0, 1, 0, 120⟩).2
        ⟨0, 7, 0, 1, 0, 120⟩ 0 := by
  have hloaded : Loaded (fun i => 10 + min i 1000) 0 0 :=
    ⟨le_rfl, Nat.zero_le _, fun i _ hi => absurd hi (Nat.not_lt_zero i), by decide, by decide⟩
  have hmoves : Moves (fun i => 10 + min i 1000) 2 := ⟨0, by decide, by decide⟩
  obtain ⟨hget, halarm⟩ := rtc_right_iff ⟨⟨0, 0, 0, 1, 0, 70⟩, 0, 0⟩ ⟨0, 0, 0, 1, 0, 120⟩
    (fun i => 10 + min i 1000) 0 0 0 (by decide) (fun i => by omega) hloaded
  refine ⟨hget.mpr (by decide), (halarm _).mpr (Or.inr (Or.inr ⟨by decide, Or.inr ⟨hmoves, ?_⟩⟩))⟩
  decide

/-- At the first second that a `time_t` does not hold the time is not read, and in 2020 an alarm
    that is 430 seconds ahead is not set as such while 0 is returned. -/
theorem rtc_wrong :
    ¬GetRight (fun i => 10 + min i 1000) 12
        (setTo ⟨⟨0, 0, 0, 1, 0, 70⟩, 0, 0⟩ ⟨8, 14, 3, 19, 0, 138⟩) 0 ∧
      ¬AlarmRight (fun i => 10 + min i 1000) 12
        (setTo ⟨⟨0, 0, 0, 1, 0, 70⟩, 0, 0⟩ ⟨0, 0, 0, 1, 0, 120⟩) ⟨10, 7, 0, 1, 0, 120⟩ 0 := by
  have hloaded : Loaded (fun i => 10 + min i 1000) 0 0 :=
    ⟨le_rfl, Nat.zero_le _, fun i _ hi => absurd hi (Nat.not_lt_zero i), by decide, by decide⟩
  have hccvr : ∀ i, (fun i => 10 + min i 1000) i < 4294967296 := fun i => by
    dsimp only
    omega
  have hend : (⟨8, 14, 3, 19, 0, 138⟩ : Tm).Valid := (wjCheckTmOk_iff _).mp (by decide)
  have hset : (⟨0, 0, 0, 1, 0, 120⟩ : Tm).Valid := (wjCheckTmOk_iff _).mp (by decide)
  have hahead : (⟨10, 7, 0, 1, 0, 120⟩ : Tm).Valid := (wjCheckTmOk_iff _).mp (by decide)
  rw [getRight_iff hccvr hend hloaded le_rfl, alarmRight_iff hccvr hset hloaded le_rfl]
  refine ⟨by decide, ?_⟩
  rintro (hc | hc | ⟨-, hc | ⟨-, hc⟩⟩)
  · exact hc hahead
  all_goals exact absurd hc (by decide)

end Rtc

end Driver

end Wujian100
