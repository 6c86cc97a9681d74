/-!
# The Calendar

The part of `wj_rtc.c` that turns calendar times into seconds since 1970 and back. What a
variable of type `time_t` can hold is a parameter: `timeT` is what becomes of a number that is
stored in one.

Reading a table past its end yields nothing, and so does a loop that is not given enough turns.

## Main definitions

* `Tm`: A calendar time.
* `wjCheckTmOk`: The calendar times that are accepted.
* `mktime`: The seconds since 1970.
* `clockUtc2calendar`, `gmtimeR`: The way back.
-/

namespace Wujian100

namespace Driver

/-- `struct tm`, as far as it is used. -/
structure Tm where
  tmSec : Int
  tmMin : Int
  tmHour : Int
  tmMday : Int
  tmMon : Int
  tmYear : Int
deriving DecidableEq, Repr

/-- `leap_year`. -/
def leapYear : List Int := [31, 29, 31, 30, 31, 30, 31, 31, 30, 31, 30, 31]

/-- `noleap_year`. -/
def noleapYear : List Int := [31, 28, 31, 30, 31, 30, 31, 31, 30, 31, 30, 31]

/-- `g_noleap_daysbeforemonth`. -/
def noleapDaysbeforemonth : List Int := [0, 31, 59, 90, 120, 151, 181, 212, 243, 273, 304, 334, 365]

/-- A table, read at an index. -/
def readTable (table : List Int) (i : Int) : Option Int := if i < 0 then none else table[i.toNat]?

/-- `clock_isleapyear`. -/
def clockIsleapyear (year : Int) : Bool :=
  if year.tmod 400 ≠ 0 then
    if year.tmod 100 ≠ 0 then if year.tmod 4 ≠ 0 then false else true else false
  else true

/-- Whether `wj_check_tm_ok` returns 0. -/
def wjCheckTmOk (t : Tm) : Bool :=
  if t.tmYear < 70 ∨ t.tmYear ≥ 200 then false
  else if t.tmSec < 0 ∨ t.tmSec ≥ 60 then false
  else if t.tmMin < 0 ∨ t.tmMin ≥ 60 then false
  else if t.tmHour < 0 ∨ t.tmHour ≥ 24 then false
  else if t.tmMon < 0 ∨ t.tmMon ≥ 12 then false
  else
    let days := if clockIsleapyear (t.tmYear + 1900) then leapYear else noleapYear
    match readTable days t.tmMon with
    | none => false
    | some n => if t.tmMday < 1 ∨ t.tmMday > n then false else true

/-- `clock_daysbeforemonth`. -/
def clockDaysbeforemonth (month : Int) (leapyear : Bool) : Option Int :=
  (readTable noleapDaysbeforemonth month).map fun retval =>
    if month ≥ 2 ∧ leapyear then retval + 1 else retval

section TimeT

variable (timeT : Int → Int)

/-- `clock_calendar2utc`. -/
def clockCalendar2utc (year month day : Int) : Option Int :=
  let days := timeT ((year - 1970) * 365)
  let days := timeT (days + (year - 1969) >>> (2 : Nat))
  match clockDaysbeforemonth month (clockIsleapyear year) with
  | none => none
  | some before =>
      let days := timeT (days + before)
      some (timeT (days + day - 1))

/-- `mktime`. -/
def mktime (t : Tm) : Option Int :=
  if wjCheckTmOk t then
    match clockCalendar2utc timeT (t.tmYear + 1900) t.tmMon t.tmMday with
    | none => none
    | some jdn => some (timeT (((jdn * 24 + t.tmHour) * 60 + t.tmMin) * 60 + t.tmSec))
  else some (-1)

/-- The loop over the years of `clock_utc2calendar`: the year found, since 1970, and the days
    into it. -/
def yearLoop : Nat → Int → Int → Option (Int × Int)
  | 0, _, _ => none
  | fuel + 1, value, days =>
      let tmp := if clockIsleapyear (value + 1970) then 366 else 365
      if days ≥ tmp then yearLoop fuel (value + 1) (timeT (days - tmp)) else some (value, days)

/-- Its bisection for the month. -/
def monthLoop (leapyear : Bool) (days : Int) : Nat → Int → Int → Option Int
  | 0, _, _ => none
  | fuel + 1, min, max =>
      let value := (min + max) >>> (1 : Nat)
      match clockDaysbeforemonth (value + 1) leapyear with
      | none => none
      | some tmp =>
          if tmp > days then
            match clockDaysbeforemonth value leapyear with
            | none => none
            | some tmp =>
                if tmp > days then
                  -- No: the month is somewhere from `min` to `value - 1`.
                  if min < value - 1 then monthLoop leapyear days fuel min (value - 1)
                  else some min
                else some value
          else if value + 1 < max then monthLoop leapyear days fuel (value + 1) max
          else some (value + 1)

/-- `clock_utc2calendar`: the year, the month from 1 and the day from 1. -/
def clockUtc2calendar (fuel : Nat) (days : Int) : Option (Int × Int × Int) :=
  let value := days.tdiv (4 * 365 + 1)
  let days := timeT (days - value * (4 * 365 + 1))
  match yearLoop timeT fuel (value <<< (2 : Nat)) days with
  | none => none
  | some (value, days) =>
      let leapyear := clockIsleapyear (value + 1970)
      match monthLoop leapyear days fuel 0 11 with
      | none => none
      | some month =>
          match clockDaysbeforemonth month leapyear with
          | none => none
          | some before =>
              let days := timeT (days - before)
              some (1970 + value, month + 1, days + 1)

/-- `gmtime_r`. -/
def gmtimeR (fuel : Nat) (timer : Int) : Option Tm :=
  let jdn := timer.tdiv 86400
  let epoch := timeT (timer - 86400 * jdn)
  let hour := epoch.tdiv 3600
  let epoch := timeT (epoch - 3600 * hour)
  let min := epoch.tdiv 60
  let sec := timeT (epoch - 60 * min)
  match clockUtc2calendar timeT fuel jdn with
  | none => none
  | some (year, month, day) => some ⟨sec, min, hour, day, month - 1, year - 1900⟩

end TimeT

end Driver

end Wujian100
