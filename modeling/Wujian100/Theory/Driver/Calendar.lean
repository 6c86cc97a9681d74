import Mathlib.Data.List.Lex
import Mathlib.Tactic.IntervalCases
import Wujian100.Core.Driver.Calendar
import Wujian100.Library.Blocks

/-!
# Calendar Times and Seconds

The years cut the days into blocks and the months cut a year into blocks. `clock_utc2calendar`
looks for the block of the year by counting up and for the one of the month by bisection, and
`clock_calendar2utc` adds the starts of the two up again. Up to 2099 every fourth year is a
leap year, which both rely on.

## Main definitions

* `daysBefore`: The days before a year that is counted from 1970.
* `before`: The days of a year before a month.
* `dayNumber`: The days before a date.
* `Wide`: A type for times that holds the numbers of 32 bits.

## Theorems

* `monthLoop_spec`, `yearLoop_spec`: The two loops find the block.
* `clockUtc2calendar_spec`, `gmtimeR_spec`: What comes out is the date of the day.
* `seconds_lt`: Later calendar times have more seconds.
* `calendar_correct`: The two ways agree up to the end of 2099.
-/

namespace Wujian100

namespace Driver

open Blocks

/-! ### Years -/

/-- Up to 2099 the leap years are the multiples of four. -/
theorem clockIsleapyear_iff {year : Int} (hlo : 1970 ≤ year) (hhi : year < 2100) :
    clockIsleapyear year = true ↔ year % 4 = 0 := by
  have h400 : year.tmod 400 = year % 400 := Int.tmod_eq_emod_of_nonneg (by omega)
  have h100 : year.tmod 100 = year % 100 := Int.tmod_eq_emod_of_nonneg (by omega)
  have h4 : year.tmod 4 = year % 4 := Int.tmod_eq_emod_of_nonneg (by omega)
  rw [clockIsleapyear, h400, h100, h4]
  split_ifs <;> simp only [false_iff, true_iff] <;> omega

/-- The days of the year `v` years after 1970. -/
def yearLen (v : Int) : Int := if clockIsleapyear (v + 1970) then 366 else 365

/-- The days from 1970 to the year `v` years later. -/
def daysBefore (v : Int) : Int := v * 365 + (v + 1) / 4

theorem yearLen_pos (v : Int) : 365 ≤ yearLen v ∧ yearLen v ≤ 366 := by
  rw [yearLen]
  split_ifs <;> omega

theorem daysBefore_succ {v : Int} (hlo : 0 ≤ v) (hhi : v < 130) :
    daysBefore (v + 1) = daysBefore v + yearLen v := by
  have hleap : clockIsleapyear (v + 1970) = true ↔ (v + 1970) % 4 = 0 :=
    clockIsleapyear_iff (by omega) (by omega)
  rw [daysBefore, daysBefore, yearLen]
  split_ifs with h
  · have := hleap.mp h
    omega
  · have : ¬(v + 1970) % 4 = 0 := fun hc => h (hleap.mpr hc)
    omega

theorem daysBefore_increasing : Increasing daysBefore 0 130 := by
  intro v hlo hhi
  have := yearLen_pos v
  rw [daysBefore_succ hlo hhi]
  omega

/-! ### Months -/

/-- The days of a year before a month, where the table has the month. -/
def before (leapyear : Bool) (month : Int) : Int := (clockDaysbeforemonth month leapyear).getD 0

/-- The table has thirteen entries. -/
theorem clockDaysbeforemonth_some (leapyear : Bool) {m : Int} (hlo : 0 ≤ m) (hhi : m ≤ 12) :
    clockDaysbeforemonth m leapyear = some (before leapyear m) := by
  interval_cases m <;> cases leapyear <;> rfl

theorem before_increasing (leapyear : Bool) : Increasing (before leapyear) 0 12 := by
  intro month hlo hhi
  interval_cases month <;> cases leapyear <;> decide

@[simp] theorem before_zero (leapyear : Bool) : before leapyear 0 = 0 := by
  cases leapyear <;> rfl

theorem before_twelve (v : Int) : before (clockIsleapyear (v + 1970)) 12 = yearLen v := by
  rw [yearLen]
  cases clockIsleapyear (v + 1970) <;> rfl

/-- The table of a check and the table of the days before a month agree. -/
theorem readTable_months {month : Int} (leapyear : Bool) (hlo : 0 ≤ month) (hhi : month < 12) :
    readTable (if leapyear then leapYear else noleapYear) month
      = some (before leapyear (month + 1) - before leapyear month) := by
  interval_cases month <;> cases leapyear <;> rfl

/-- The bisection ends within the table, whatever the days are, and with the block of the days
    where they are days of a month from `min` to `max`. -/
theorem monthLoop_spec (leapyear : Bool) (days : Int) (fuel : Nat) (min max : Int)
    (hmin : 0 ≤ min) (hle : min ≤ max) (hmax : max ≤ 11) (hfuel : max - min < fuel) :
    ∃ month, monthLoop leapyear days fuel min max = some month ∧ 0 ≤ month ∧ month ≤ 12 ∧
      (before leapyear min ≤ days → days < before leapyear (max + 1) →
        month ≤ max ∧ InBlock (before leapyear) month days) := by
  -- By induction on the fuel: each turn leaves fewer months to search.
  induction fuel generalizing min max with
  | zero => omega
  | succ fuel ih =>
      have hmid : (min + max) >>> (1 : Nat) = (min + max) / 2 := by
        rw [Int.shiftRight_eq_div_pow]
        rfl
      rw [monthLoop, hmid]
      generalize hv : (min + max) / 2 = value
      have hnext := clockDaysbeforemonth_some leapyear (m := value + 1) (by omega) (by omega)
      have hhere := clockDaysbeforemonth_some leapyear (m := value) (by omega) (by omega)
      simp only [hnext, hhere]
      by_cases hlt : before leapyear (value + 1) > days
      · rw [if_pos hlt]
        by_cases hlt' : before leapyear value > days
        · -- The days end before the midpoint, which is not the first month then.
          rw [if_pos hlt']
          by_cases hleft : min < value - 1
          · rw [if_pos hleft]
            obtain ⟨month, hm, h0, h12, hin⟩ :=
              ih min (value - 1) hmin (by omega) (by omega) (by omega)
            refine ⟨month, hm, h0, h12, fun hlo _ => ?_⟩
            rw [Int.sub_add_cancel] at hin
            exact ⟨(hin hlo hlt').1.trans (by omega), (hin hlo hlt').2⟩
          · rw [if_neg hleft]
            refine ⟨min, rfl, hmin, by omega, fun hlo _ => ⟨hle, hlo, ?_⟩⟩
            have hne : min ≠ value := by
              rintro rfl
              omega
            rw [show min + 1 = value by omega]
            exact hlt'
        · rw [if_neg hlt']
          exact ⟨value, rfl, by omega, by omega, fun _ _ => ⟨by omega, by omega, hlt⟩⟩
      · -- The days begin after the midpoint, which is not the last month then.
        rw [if_neg hlt]
        by_cases hright : value + 1 < max
        · rw [if_pos hright]
          obtain ⟨month, hm, h0, h12, hin⟩ :=
            ih (value + 1) max (by omega) (by omega) hmax (by omega)
          exact ⟨month, hm, h0, h12, fun _ hhi => hin (by omega) hhi⟩
        · rw [if_neg hright]
          refine ⟨value + 1, rfl, by omega, by omega, fun _ hhi => ?_⟩
          have hne : value ≠ max := by
            rintro rfl
            omega
          have heq : value + 1 = max := by omega
          exact ⟨heq.le, by omega, heq ▸ hhi⟩

/-! ### Calendar times -/

/-- The fields of a calendar time are in their ranges. -/
structure Tm.Valid (t : Tm) : Prop where
  year : 70 ≤ t.tmYear ∧ t.tmYear < 200
  mon : 0 ≤ t.tmMon ∧ t.tmMon < 12
  mday : 1 ≤ t.tmMday ∧
    t.tmMday + before (clockIsleapyear (t.tmYear + 1900)) t.tmMon
      ≤ before (clockIsleapyear (t.tmYear + 1900)) (t.tmMon + 1)
  hour : 0 ≤ t.tmHour ∧ t.tmHour < 24
  min : 0 ≤ t.tmMin ∧ t.tmMin < 60
  sec : 0 ≤ t.tmSec ∧ t.tmSec < 60

theorem wjCheckTmOk_iff (t : Tm) : wjCheckTmOk t = true ↔ t.Valid := by
  by_cases hy : t.tmYear < 70 ∨ t.tmYear ≥ 200
  · exact iff_of_false (by rw [wjCheckTmOk, if_pos hy]; decide) fun h => by have := h.year; omega
  by_cases hs : t.tmSec < 0 ∨ t.tmSec ≥ 60
  · refine iff_of_false ?_ fun h => by have := h.sec; omega
    rw [wjCheckTmOk, if_neg hy, if_pos hs]
    decide
  by_cases hm : t.tmMin < 0 ∨ t.tmMin ≥ 60
  · refine iff_of_false ?_ fun h => by have := h.min; omega
    rw [wjCheckTmOk, if_neg hy, if_neg hs, if_pos hm]
    decide
  by_cases hh : t.tmHour < 0 ∨ t.tmHour ≥ 24
  · refine iff_of_false ?_ fun h => by have := h.hour; omega
    rw [wjCheckTmOk, if_neg hy, if_neg hs, if_neg hm, if_pos hh]
    decide
  by_cases ho : t.tmMon < 0 ∨ t.tmMon ≥ 12
  · refine iff_of_false ?_ fun h => by have := h.mon; omega
    rw [wjCheckTmOk, if_neg hy, if_neg hs, if_neg hm, if_neg hh, if_pos ho]
    decide
  -- All but the day is in range, so that the month is in the table.
  have htable := readTable_months (clockIsleapyear (t.tmYear + 1900))
    (show 0 ≤ t.tmMon by omega) (show t.tmMon < 12 by omega)
  rw [wjCheckTmOk, if_neg hy, if_neg hs, if_neg hm, if_neg hh, if_neg ho]
  simp only [htable]
  split_ifs with hd
  · exact iff_of_false (by decide) fun h => by have := h.mday; omega
  · exact iff_of_true rfl ⟨by omega, by omega, by omega, by omega, by omega, by omega⟩

/-- A type for times that holds every number of 32 bits. -/
def Wide (timeT : Int → Int) : Prop :=
  ∀ x, -2147483648 ≤ x → x < 2147483648 → timeT x = x

theorem wide_id : Wide id := fun _ _ _ => rfl

/-- The days before a date, whose year is counted from 1900 as in `Tm`. -/
def dayNumber (year month day : Int) : Int :=
  daysBefore (year - 70) + before (clockIsleapyear (year + 1900)) month + (day - 1)

/-- The seconds before a calendar time. -/
def seconds (t : Tm) : Int :=
  ((dayNumber t.tmYear t.tmMon t.tmMday * 24 + t.tmHour) * 60 + t.tmMin) * 60 + t.tmSec

section Wide

variable {timeT : Int → Int}

theorem yearLoop_succ (fuel : Nat) (value days : Int) :
    yearLoop timeT (fuel + 1) value days
      = if days ≥ yearLen value then yearLoop timeT fuel (value + 1) (timeT (days - yearLen value))
        else some (value, days) := rfl

/-- The loop over the years ends with less than a year left, and with the block of the day up
    to the end of 2099. -/
theorem yearLoop_spec (hw : Wide timeT) (fuel : Nat) (value days : Int)
    (hlo : -2147483648 ≤ days) (hhi : days < 2147483648) (hpos : 0 < fuel)
    (hfuel : days < 365 * fuel) :
    ∃ v d, yearLoop timeT fuel value days = some (v, d) ∧ d < yearLen v ∧ -2147483648 ≤ d ∧
      (0 ≤ value → 0 ≤ days → daysBefore value + days < daysBefore 130 →
        0 ≤ v ∧ v < 130 ∧ 0 ≤ d ∧ daysBefore v + d = daysBefore value + days) := by
  induction fuel generalizing value days with
  | zero => omega
  | succ fuel ih =>
      have hlen := yearLen_pos value
      rw [yearLoop_succ]
      by_cases hge : days ≥ yearLen value
      · rw [if_pos hge, hw (days - yearLen value) (by omega) (by omega)]
        obtain ⟨v, d, hloop, hd, hdlo, hblock⟩ :=
          ih (value + 1) (days - yearLen value) (by omega) (by omega) (by omega)
            (by omega)
        refine ⟨v, d, hloop, hd, hdlo, fun hv0 hd0 hend => ?_⟩
        have hv : value < 130 := by
          rw [daysBefore, daysBefore] at hend
          omega
        have hsucc := daysBefore_succ hv0 hv
        obtain ⟨hv0', hv', hd0', hsum⟩ := hblock (by omega) (by omega) (by omega)
        exact ⟨hv0', hv', hd0', by omega⟩
      · rw [if_neg hge]
        refine ⟨value, days, rfl, by omega, hlo, fun hv0 hd0 hend => ⟨hv0, ?_, hd0, rfl⟩⟩
        rw [daysBefore, daysBefore] at hend
        omega

/-- Every number of days is turned into a date, and a day up to the end of 2099 into its own. -/
theorem clockUtc2calendar_spec (hw : Wide timeT) {fuel : Nat} (hfuel : 12 ≤ fuel) (days : Int) :
    ∃ year month day, clockUtc2calendar timeT fuel days = some (year, month, day) ∧
      (0 ≤ days → days < daysBefore 130 →
        70 ≤ year - 1900 ∧ year - 1900 < 200 ∧ 0 ≤ month - 1 ∧ month - 1 < 12 ∧ 1 ≤ day ∧
        day + before (clockIsleapyear year) (month - 1) ≤ before (clockIsleapyear year) month ∧
        dayNumber (year - 1900) (month - 1) day = days) := by
  -- The years of four that are skipped leave less than four years.
  have hrest : days - days.tdiv 1461 * 1461 = days.tmod 1461 := by
    have := Int.tmod_add_mul_tdiv days 1461
    omega
  have hlo : -1461 < days.tmod 1461 := by
    have := Int.lt_tmod_of_pos days (show (0 : Int) < 1461 by decide)
    omega
  have hhi : days.tmod 1461 < 1461 := Int.tmod_lt_of_pos days (by decide)
  have hshift : days.tdiv 1461 <<< (2 : Nat) = days.tdiv 1461 * 4 := by
    rw [Int.shiftLeft_eq]
    rfl
  obtain ⟨v, d, hloop, hd, hdlo, hyear⟩ :=
    yearLoop_spec hw fuel (days.tdiv 1461 * 4) (days.tmod 1461) (by omega)
      (by omega) (by omega) (by omega)
  have hlen := yearLen_pos v
  obtain ⟨m, hbisect, hm0, hm12, hmonth⟩ :=
    monthLoop_spec (clockIsleapyear (v + 1970)) d fuel 0 11 le_rfl (by decide)
      le_rfl (by omega)
  have htable := clockDaysbeforemonth_some (clockIsleapyear (v + 1970)) hm0 hm12
  refine ⟨1970 + v, m + 1, timeT (d - before (clockIsleapyear (v + 1970)) m) + 1, ?_, ?_⟩
  · simp only [clockUtc2calendar, Int.reduceMul, Int.reduceAdd, hrest, hshift]
    rw [hw (days.tmod 1461) (by omega) (by omega), hloop]
    simp only [hbisect, htable]
  · intro hpos hend
    have hdiv : days.tdiv 1461 = days / 1461 := Int.tdiv_eq_ediv_of_nonneg hpos
    have hmod : days.tmod 1461 = days % 1461 := Int.tmod_eq_emod_of_nonneg hpos
    have hstart : daysBefore (days.tdiv 1461 * 4) + days.tmod 1461 = days := by
      rw [daysBefore, hdiv, hmod]
      omega
    obtain ⟨hv0, hv, hd0, hsum⟩ := hyear (by omega) (by omega) (by omega)
    have htwelve := before_twelve v
    have hzero := before_zero (clockIsleapyear (v + 1970))
    obtain ⟨hm11, hblo, hbhi⟩ := hmonth (by omega) (by rw [show (11 : Int) + 1 = 12 from rfl]; omega)
    have hfirst : 0 ≤ before (clockIsleapyear (v + 1970)) m := by
      have := (before_increasing (clockIsleapyear (v + 1970))).le le_rfl hm0 hm12
      omega
    rw [hw (d - before (clockIsleapyear (v + 1970)) m) (by omega) (by omega)]
    rw [dayNumber, show 1970 + v - 1900 - 70 = v by omega,
      show 1970 + v - 1900 + 1900 = v + 1970 by omega, show 1970 + v = v + 1970 by omega,
      Int.add_sub_cancel]
    exact ⟨by omega, by omega, hm0, by omega, by omega, by omega, by omega⟩

/-! ### The way forth and back -/

/-- A valid date is a day up to the end of 2099. -/
theorem Tm.Valid.dayNumber_lt {t : Tm} (h : t.Valid) :
    0 ≤ dayNumber t.tmYear t.tmMon t.tmMday ∧
      dayNumber t.tmYear t.tmMon t.tmMday < daysBefore 130 := by
  obtain ⟨hy, ho, hd, -, -, -⟩ := h
  have hyear := daysBefore_increasing.le (show 0 ≤ t.tmYear - 70 + 1 by omega)
    (show t.tmYear - 70 + 1 ≤ 130 by omega) le_rfl
  have hstart := daysBefore_increasing.le le_rfl (show 0 ≤ t.tmYear - 70 by omega) (by omega)
  have hmonths := before_increasing (clockIsleapyear (t.tmYear + 1900))
  have hfirst := hmonths.le le_rfl ho.1 (by omega)
  have hlast := hmonths.le (show 0 ≤ t.tmMon + 1 by omega) (show t.tmMon + 1 ≤ 12 by omega) le_rfl
  rw [daysBefore_succ (by omega) (by omega)] at hyear
  have htwelve := before_twelve (t.tmYear - 70)
  rw [show t.tmYear - 70 + 1970 = t.tmYear + 1900 by omega] at htwelve
  rw [before_zero] at hfirst
  rw [show daysBefore 0 = 0 from rfl] at hstart
  rw [dayNumber]
  omega

theorem Tm.Valid.seconds_lt {t : Tm} (h : t.Valid) :
    0 ≤ seconds t ∧ seconds t < 4102444800 := by
  have hday := h.dayNumber_lt
  have hh := h.hour
  have hm := h.min
  have hs := h.sec
  rw [show daysBefore 130 = 47482 from rfl] at hday
  rw [seconds]
  omega

theorem clockCalendar2utc_eq (hw : Wide timeT) {t : Tm} (h : t.Valid) :
    clockCalendar2utc timeT (t.tmYear + 1900) t.tmMon t.tmMday
      = some (dayNumber t.tmYear t.tmMon t.tmMday) := by
  have hrange := h.dayNumber_lt
  obtain ⟨hy, ho, hd, -, -, -⟩ := h
  have hshift : (t.tmYear + 1900 - 1969) >>> (2 : Nat) = (t.tmYear + 1900 - 1969) / 4 := by
    rw [Int.shiftRight_eq_div_pow]
    rfl
  have htable := clockDaysbeforemonth_some (clockIsleapyear (t.tmYear + 1900)) ho.1
    (show t.tmMon ≤ 12 by omega)
  have hmonths := before_increasing (clockIsleapyear (t.tmYear + 1900))
  have hfirst := hmonths.le le_rfl ho.1 (by omega)
  rw [before_zero] at hfirst
  rw [show daysBefore 130 = 47482 from rfl, dayNumber, daysBefore] at hrange
  -- The sums grow up to the day itself, which 32 bits hold.
  simp only [clockCalendar2utc, htable, hshift]
  rw [hw ((t.tmYear + 1900 - 1970) * 365) (by omega) (by omega),
    hw (_ + (t.tmYear + 1900 - 1969) / 4) (by omega) (by omega),
    hw (_ + before (clockIsleapyear (t.tmYear + 1900)) t.tmMon) (by omega) (by omega),
    hw _ (by omega) (by omega), dayNumber, daysBefore]
  congr 1
  omega

theorem mktime_valid (hw : Wide timeT) {t : Tm} (h : t.Valid) :
    mktime timeT t = some (timeT (seconds t)) := by
  rw [mktime, if_pos ((wjCheckTmOk_iff t).mpr h), clockCalendar2utc_eq hw h]
  rfl

theorem mktime_invalid {t : Tm} (h : ¬t.Valid) : mktime timeT t = some (-1) :=
  if_neg fun hc => h ((wjCheckTmOk_iff t).mp hc)

/-- What is made of a second up to the end of 2099 is the valid time that it is. -/
theorem gmtimeR_spec (hw : Wide timeT) {fuel : Nat} (hfuel : 12 ≤ fuel) {s : Int} (hlo : 0 ≤ s)
    (hhi : s < 4102444800) :
    ∃ t, gmtimeR timeT fuel s = some t ∧ t.Valid ∧ seconds t = s := by
  obtain ⟨year, month, day, hdate, hspec⟩ := clockUtc2calendar_spec hw hfuel (s.tdiv 86400)
  have hdiv : s.tdiv 86400 = s / 86400 := Int.tdiv_eq_ediv_of_nonneg hlo
  rw [hdiv, show daysBefore 130 = 47482 from rfl] at hspec
  obtain ⟨hy0, hy, hm0, hm, hd0, hd, hday⟩ := hspec (by omega) (by omega)
  have hepoch : timeT (s - 86400 * (s / 86400)) = s % 86400 := by
    rw [hw _ (by omega) (by omega)]
    omega
  have hhour : (s % 86400).tdiv 3600 = s % 86400 / 3600 := Int.tdiv_eq_ediv_of_nonneg (by omega)
  have hrest : timeT (s % 86400 - 3600 * (s % 86400 / 3600)) = s % 3600 := by
    rw [hw _ (by omega) (by omega)]
    omega
  have hmin : (s % 3600).tdiv 60 = s % 3600 / 60 := Int.tdiv_eq_ediv_of_nonneg (by omega)
  have hsec : timeT (s % 3600 - 60 * (s % 3600 / 60)) = s % 60 := by
    rw [hw _ (by omega) (by omega)]
    omega
  refine ⟨⟨s % 60, s % 3600 / 60, s % 86400 / 3600, day, month - 1, year - 1900⟩, ?_, ?_, ?_⟩
  · rw [gmtimeR, hdate, hdiv, hepoch, hhour, hrest, hmin, hsec]
  · have hback : year - 1900 + 1900 = year := by omega
    refine ⟨⟨hy0, hy⟩, ⟨hm0, hm⟩, ⟨hd0, ?_⟩, ?_, ?_, ?_⟩
    · simpa only [hback, Int.sub_add_cancel] using hd
    all_goals
      dsimp only
      omega
  · rw [seconds]
    dsimp only
    rw [hday]
    omega

theorem tdiv_of_nonpos {x b : Int} (h : x ≤ 0) : x.tdiv b = -(-x / b) := by
  have hneg := Int.neg_tdiv (a := -x) (b := b)
  rw [Int.neg_neg, Int.tdiv_eq_ediv_of_nonneg (show 0 ≤ -x by omega)] at hneg
  exact hneg

/-- A negative number of days gives a year before 1970 or no day of a month. -/
theorem clockUtc2calendar_neg (hw : Wide timeT) {fuel : Nat} (hfuel : 12 ≤ fuel) {days : Int}
    (hneg : days < 0) :
    ∃ year month day, clockUtc2calendar timeT fuel days = some (year, month, day) ∧
      (year < 1970 ∨ day < 1) := by
  have hdiv : days.tdiv 1461 = -(-days / 1461) := tdiv_of_nonpos hneg.le
  have hshift : days.tdiv 1461 <<< (2 : Nat) = days.tdiv 1461 * 4 := by
    rw [Int.shiftLeft_eq]
    rfl
  -- What is left is not positive, so that no year is counted up.
  have hrest : timeT (days - days.tdiv 1461 * 1461) = days - days.tdiv 1461 * 1461 :=
    hw _ (by omega) (by omega)
  generalize hd : days - days.tdiv 1461 * 1461 = d at hrest
  generalize hv : days.tdiv 1461 * 4 = v at hshift
  have hlen := yearLen_pos v
  have hloop : yearLoop timeT fuel v d = some (v, d) := by
    rw [show fuel = fuel - 1 + 1 by omega, yearLoop_succ, if_neg (by omega)]
  obtain ⟨m, hbisect, hm0, hm12, -⟩ :=
    monthLoop_spec (clockIsleapyear (v + 1970)) d fuel 0 11 le_rfl (by decide)
      le_rfl (by omega)
  have htable := clockDaysbeforemonth_some (clockIsleapyear (v + 1970)) hm0 hm12
  have hfirst := (before_increasing (clockIsleapyear (v + 1970))).le le_rfl hm0 hm12
  have hlast := (before_increasing (clockIsleapyear (v + 1970))).le hm0 hm12 le_rfl
  rw [before_zero] at hfirst
  rw [before_twelve] at hlast
  refine ⟨1970 + v, m + 1, timeT (d - before (clockIsleapyear (v + 1970)) m) + 1, ?_, ?_⟩
  · simp only [clockUtc2calendar, Int.reduceMul, Int.reduceAdd, hd, hshift, hrest, hloop, hbisect,
      htable]
  · rw [hw (d - before (clockIsleapyear (v + 1970)) m) (by omega) (by omega)]
    omega

/-- What is made of a negative number of seconds is no time since 1970. -/
theorem gmtimeR_neg (hw : Wide timeT) {fuel : Nat} (hfuel : 12 ≤ fuel) {s : Int}
    (hlo : -2147483648 ≤ s) (hneg : s < 0) :
    ∃ t, gmtimeR timeT fuel s = some t ∧
      ¬(70 ≤ t.tmYear ∧ 1 ≤ t.tmMday ∧ 0 ≤ t.tmHour ∧ 0 ≤ t.tmMin ∧ 0 ≤ t.tmSec) := by
  have hdiv : s.tdiv 86400 = -(-s / 86400) := tdiv_of_nonpos hneg.le
  have hepoch : timeT (s - 86400 * s.tdiv 86400) = s - 86400 * s.tdiv 86400 :=
    hw _ (by omega) (by omega)
  generalize hjdn : s.tdiv 86400 = jdn at hdiv hepoch
  generalize he : s - 86400 * jdn = e at hepoch
  have hhour : e.tdiv 3600 = -(-e / 3600) := tdiv_of_nonpos (by omega)
  have hrest : timeT (e - 3600 * e.tdiv 3600) = e - 3600 * e.tdiv 3600 := hw _ (by omega) (by omega)
  have hmin : (e - 3600 * e.tdiv 3600).tdiv 60 = -(-(e - 3600 * e.tdiv 3600) / 60) :=
    tdiv_of_nonpos (by omega)
  have hsec := hw (e - 3600 * e.tdiv 3600 - 60 * (e - 3600 * e.tdiv 3600).tdiv 60) (by omega)
    (by omega)
  rcases lt_or_ge jdn 0 with hday | hday
  · obtain ⟨year, month, day, hdate, hbad⟩ := clockUtc2calendar_neg hw hfuel hday
    refine ⟨_, by simp only [gmtimeR, hjdn, hdate]; rfl, ?_⟩
    dsimp only
    omega
  · -- Within the first day before 1970 the time of the day is negative.
    obtain ⟨year, month, day, hdate, -⟩ := clockUtc2calendar_spec hw hfuel jdn
    refine ⟨_, by simp only [gmtimeR, hjdn, hdate]; rfl, ?_⟩
    dsimp only
    rw [he, hepoch, hrest, hsec]
    omega

end Wide

/-! ### The order -/

/-- The fields of a calendar time, from the years down. -/
def Tm.key (t : Tm) : List Int := [t.tmYear, t.tmMon, t.tmMday, t.tmHour, t.tmMin, t.tmSec]

/-- A day of a valid date lies in the block of its month, and with the days of the years
    before in the block of its year. -/
theorem Tm.Valid.inBlock {t : Tm} (h : t.Valid) :
    InBlock (before (clockIsleapyear (t.tmYear + 1900))) t.tmMon
        (before (clockIsleapyear (t.tmYear + 1900)) t.tmMon + (t.tmMday - 1)) ∧
      InBlock daysBefore (t.tmYear - 70) (dayNumber t.tmYear t.tmMon t.tmMday) := by
  obtain ⟨hy, ho, hd, -, -, -⟩ := h
  have hmonths := before_increasing (clockIsleapyear (t.tmYear + 1900))
  have hfirst := hmonths.le le_rfl ho.1 (by omega)
  have hlast := hmonths.le (show 0 ≤ t.tmMon + 1 by omega) (show t.tmMon + 1 ≤ 12 by omega) le_rfl
  have htwelve := before_twelve (t.tmYear - 70)
  rw [show t.tmYear - 70 + 1970 = t.tmYear + 1900 by omega] at htwelve
  rw [before_zero] at hfirst
  refine ⟨⟨by omega, by omega⟩, ?_, ?_⟩
  · rw [dayNumber]
    omega
  · rw [daysBefore_succ (by omega) (by omega), dayNumber]
    omega

/-- Later dates are later days. -/
theorem dayNumber_lt {a b : Tm} (ha : a.Valid) (hb : b.Valid)
    (h : [a.tmYear, a.tmMon, a.tmMday] < [b.tmYear, b.tmMon, b.tmMday]) :
    dayNumber a.tmYear a.tmMon a.tmMday < dayNumber b.tmYear b.tmMon b.tmMday := by
  have hya := ha.year
  have hyb := hb.year
  have hmb := hb.mon
  have hma := ha.mon
  rw [List.cons_lt_cons_iff, List.cons_lt_cons_iff, List.cons_lt_cons_iff] at h
  obtain hyear | ⟨hyear, hmon | ⟨hmon, hday | ⟨-, hnil⟩⟩⟩ := h
  · exact ha.inBlock.2.lt_of_lt daysBefore_increasing hb.inBlock.2 (by omega) (by omega) (by omega)
  · -- Within one year the month decides.
    have hblock := ha.inBlock.1
    rw [hyear] at hblock
    have hlt := hblock.lt_of_lt (before_increasing _) hb.inBlock.1 hma.1 hmon (by omega)
    rw [dayNumber, dayNumber, hyear]
    omega
  · rw [dayNumber, dayNumber, hyear, hmon]
    omega
  · exact absurd hnil (lt_irrefl _)

/-- Later calendar times have more seconds. -/
theorem seconds_lt {a b : Tm} (ha : a.Valid) (hb : b.Valid) (h : a.key < b.key) :
    seconds a < seconds b := by
  obtain ⟨-, -, -, hha, hma, hsa⟩ := id ha
  obtain ⟨-, -, -, hhb, hmb, hsb⟩ := id hb
  by_cases hdate : [a.tmYear, a.tmMon, a.tmMday] < [b.tmYear, b.tmMon, b.tmMday]
  · have hday := dayNumber_lt ha hb hdate
    rw [seconds, seconds]
    omega
  · -- On one day the time of the day decides.
    simp only [Tm.key, List.cons_lt_cons_iff, not_or, not_and, List.lt_irrefl, and_false, or_false]
      at h hdate
    have hy : a.tmYear = b.tmYear := by omega
    have hm : a.tmMon = b.tmMon := by omega
    have hd : a.tmMday = b.tmMday := by omega
    rw [seconds, seconds, hy, hm, hd]
    omega

theorem key_injective {a b : Tm} (h : a.key = b.key) : a = b := by
  rcases a with ⟨⟩
  rcases b with ⟨⟩
  simp only [Tm.key, List.cons.injEq, and_true] at h
  simp only [h]

/-- A valid time is determined by its seconds. -/
theorem seconds_injective {a b : Tm} (ha : a.Valid) (hb : b.Valid) (h : seconds a = seconds b) :
    a = b := by
  rcases lt_trichotomy a.key b.key with hlt | heq | hgt
  · exact absurd h (seconds_lt ha hb hlt).ne
  · exact key_injective heq
  · exact absurd h.symm (seconds_lt hb ha hgt).ne

/-- From a time to its seconds and back, from a second up to the end of 2099 to its time and
    back, the order, and that every number of days gives a date. The loops are given any number
    of turns from twelve up. -/
theorem calendar_correct (turns : Nat) :
    (∀ t, wjCheckTmOk t = true →
      ∃ s, mktime id t = some s ∧ gmtimeR id (turns + 12) s = some t) ∧
    (∀ s, 0 ≤ s → s < 4102444800 →
      ∃ t, gmtimeR id (turns + 12) s = some t ∧ wjCheckTmOk t = true ∧ mktime id t = some s) ∧
    (∀ a b : Tm, wjCheckTmOk a = true → wjCheckTmOk b = true → a.key < b.key →
      ∃ s s', mktime id a = some s ∧ mktime id b = some s' ∧ s < s') ∧
    ∀ days, ∃ date, clockUtc2calendar id (turns + 12) days = some date := by
  have hfuel : 12 ≤ turns + 12 := Nat.le_add_left 12 turns
  refine ⟨fun t ht => ?_, fun s hlo hhi => ?_, fun a b ha hb hlt => ?_, fun days => ?_⟩
  · have hvalid := (wjCheckTmOk_iff t).mp ht
    obtain ⟨hlo, hhi⟩ := hvalid.seconds_lt
    obtain ⟨t', hback, hvalid', hsec⟩ := gmtimeR_spec wide_id hfuel hlo hhi
    exact ⟨seconds t, mktime_valid wide_id hvalid,
      hback.trans (congrArg some (seconds_injective hvalid' hvalid hsec))⟩
  · obtain ⟨t, hback, hvalid, hsec⟩ := gmtimeR_spec wide_id hfuel hlo hhi
    exact ⟨t, hback, (wjCheckTmOk_iff t).mpr hvalid, hsec ▸ mktime_valid wide_id hvalid⟩
  · have hva := (wjCheckTmOk_iff a).mp ha
    have hvb := (wjCheckTmOk_iff b).mp hb
    exact ⟨seconds a, seconds b, mktime_valid wide_id hva, mktime_valid wide_id hvb,
      seconds_lt hva hvb hlt⟩
  · obtain ⟨year, month, day, hdate, -⟩ := clockUtc2calendar_spec wide_id hfuel days
    exact ⟨_, hdate⟩

end Driver

end Wujian100
