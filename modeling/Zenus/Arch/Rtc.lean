import Mathlib.Algebra.Order.BigOperators.Group.Finset
import Mathlib.Tactic.IntervalCases
import Mathlib.Tactic.Ring

/-! # The clock

The time of the clock chip in seconds since 1970: `rtc_to_epoch` counts years from March,
in eras of 400 years.  The calendar below counts the days of the years and months one by one.
-/

namespace Zenus.Arch

open Finset

/-- The leap years of the Gregorian calendar. -/
abbrev leapYear (year : Nat) : Prop := year % 4 = 0 ∧ (year % 100 ≠ 0 ∨ year % 400 = 0)

def yearDays (year : Nat) : Nat := if leapYear year then 366 else 365

def monthDays (year : Nat) : Nat → Nat
  | 2 => if leapYear year then 29 else 28
  | 4 | 6 | 9 | 11 => 30
  | _ => 31

/-- What the chip shows: the year is a `u16`, the other fields are bytes. -/
structure RtcTime where
  second : Nat
  minute : Nat
  hour : Nat
  day : Nat
  month : Nat
  year : Nat
deriving DecidableEq, Repr

/-- The signed sums are below `2 ^ 42` and do not overflow. -/
def rtcToEpoch (t : RtcTime) : Nat :=
  let year : Int := t.year
  let month : Int := t.month
  let day : Int := t.day
  let y := year - if month ≤ 2 then 1 else 0
  let m := month + if month ≤ 2 then 12 else 0
  let era := y.tdiv 400
  let yoe := y - era * 400
  let doy := (153 * (m - 3) + 2).tdiv 5 + day - 1
  let doe := yoe * 365 + yoe.tdiv 4 - yoe.tdiv 100 + doy
  let days := era * 146097 + doe - 719468
  let epoch := days * 86400 + (t.hour : Int) * 3600 + (t.minute : Int) * 60 + t.second
  (epoch % 2 ^ 64).toNat

namespace RtcTime

/-- A date and a time of the calendar, from 1970 to the last year of the field. -/
structure Valid (t : RtcTime) : Prop where
  years : 1970 ≤ t.year ∧ t.year ≤ 65535
  months : 1 ≤ t.month ∧ t.month ≤ 12
  days : 1 ≤ t.day ∧ t.day ≤ monthDays t.year t.month
  hours : t.hour < 24
  minutes : t.minute < 60
  seconds : t.second < 60

/-- The days of the year before this one, month by month. -/
def dayOfYear (t : RtcTime) : Nat := ∑ i ∈ range (t.month - 1), monthDays t.year (i + 1) + (t.day - 1)

/-- The days since 1 January 1970, year by year. -/
def dayNumber (t : RtcTime) : Nat := ∑ i ∈ range (t.year - 1970), yearDays (1970 + i) + t.dayOfYear

def secondsOfDay (t : RtcTime) : Nat := 3600 * t.hour + 60 * t.minute + t.second

/-- The same time of the next day. -/
def tomorrow (t : RtcTime) : RtcTime :=
  if t.day < monthDays t.year t.month then { t with day := t.day + 1 }
  else if t.month < 12 then { t with month := t.month + 1, day := 1 }
  else { t with year := t.year + 1, month := 1, day := 1 }

end RtcTime

/-- A year is longer where one of the closed form's divisions takes a step. -/
theorem yearDays_eq (year : Nat) : (yearDays year : Int) = 365 + (year / 4 - (year - 1 : Int) / 4) -
    (year / 100 - (year - 1 : Int) / 100) + (year / 400 - (year - 1 : Int) / 400) := by
  unfold yearDays
  split <;> omega

theorem sum_yearDays {year : Nat} (late : 1970 ≤ year) :
    ((∑ i ∈ range (year - 1970), yearDays (1970 + i) : Nat) : Int) =
      365 * (year - 1 : Int) + (year - 1 : Int) / 4 - (year - 1 : Int) / 100 + (year - 1 : Int) / 400 - 719162 := by
  induction year, late using Nat.le_induction with
  | base => rfl
  | succ year late ih =>
    have length := yearDays_eq year
    rw [Nat.succ_sub late, sum_range_succ, Nat.add_sub_cancel' late]
    omega

/-- The closed form counts months from March on, 306 days before the year ends. -/
theorem sum_monthDays {year month : Nat} (valid : 1 ≤ month ∧ month ≤ 12) :
    ((∑ i ∈ range (month - 1), monthDays year (i + 1) : Nat) : Int) =
      if month ≤ 2 then (153 * (month + 12 - 3 : Int) + 2) / 5 - 306
      else (153 * (month - 3 : Int) + 2) / 5 + yearDays year - 306 := by
  obtain ⟨low, high⟩ := valid
  unfold yearDays
  interval_cases month <;> simp [sum_range_succ, monthDays] <;> split <;> omega

theorem sum_months (year : Nat) : ∑ i ∈ range 12, monthDays year (i + 1) = yearDays year := by
  simp only [sum_range_succ, monthDays, yearDays]
  split <;> rfl

theorem era_days (y doy : Int) :
    y / 400 * 146097 + ((y - y / 400 * 400) * 365 + (y - y / 400 * 400) / 4 - (y - y / 400 * 400) / 100 + doy) =
      365 * y + y / 4 - y / 100 + y / 400 + doy := by
  have fourth : (y - y / 400 * 400) / 4 = y / 4 - 100 * (y / 400) := by omega
  have hundredth : (y - y / 400 * 400) / 100 = y / 100 - 4 * (y / 400) := by omega
  rw [fourth, hundredth]
  omega

/-- Of places with lengths `f`, one after the other, a position is in one only. -/
theorem place_unique {f : Nat → Nat} {i j a b : Nat} (inI : a < f i) (inJ : b < f j)
    (same : ∑ k ∈ range i, f k + a = ∑ k ∈ range j, f k + b) : i = j ∧ a = b := by
  have after : ∀ {i j a b}, a < f i → i < j → ∑ k ∈ range i, f k + a < ∑ k ∈ range j, f k + b := by
    intro i j a b inside before
    have upto : ∑ k ∈ range (i + 1), f k ≤ ∑ k ∈ range j, f k :=
      sum_le_sum_of_subset (range_subset_range.mpr before)
    rw [sum_range_succ] at upto
    omega
  rcases lt_trichotomy i j with before | rfl | behind
  · exact absurd same (after inI before).ne
  · exact ⟨rfl, by omega⟩
  · exact absurd same (after inJ behind).ne'

namespace RtcTime

variable {t t' : RtcTime}

theorem Valid.dayOfYear_lt (valid : t.Valid) : t.dayOfYear < yearDays t.year := by
  have upto : ∑ i ∈ range t.month, monthDays t.year (i + 1) ≤ ∑ i ∈ range 12, monthDays t.year (i + 1) :=
    sum_le_sum_of_subset (range_subset_range.mpr valid.months.2)
  obtain ⟨last, month⟩ := Nat.exists_eq_add_of_le' valid.months.1
  have days := valid.days
  rw [sum_months, month, sum_range_succ, ← month] at upto
  rw [dayOfYear, month, Nat.add_sub_cancel]
  omega

theorem Valid.secondsOfDay_lt (valid : t.Valid) : t.secondsOfDay < 86400 := by
  obtain ⟨-, -, -, hours, minutes, seconds⟩ := valid
  rw [secondsOfDay]
  omega

theorem Valid.rtcToEpoch_eq (valid : t.Valid) : rtcToEpoch t = 86400 * t.dayNumber + t.secondsOfDay := by
  have early := valid.dayOfYear_lt
  have short := valid.secondsOfDay_lt
  obtain ⟨⟨late, last⟩, months, days, -⟩ := valid
  have years := sum_yearDays late
  have total : ∀ days : Int, days = t.dayNumber →
      ((days * 86400 + (t.hour : Int) * 3600 + (t.minute : Int) * 60 + t.second) % 2 ^ 64).toNat =
        86400 * t.dayNumber + t.secondsOfDay := by
    have length : yearDays t.year ≤ 366 := by
      unfold yearDays
      split <;> decide
    intro days same
    rw [dayNumber] at same ⊢
    rw [secondsOfDay] at short ⊢
    omega
  refine total _ ?_
  rw [dayNumber, dayOfYear, Nat.cast_add, Nat.cast_add, years, sum_monthDays months, Nat.cast_sub days.1]
  -- January and February belong to the year before, which begins in March
  by_cases winter : t.month ≤ 2
  · simp only [show ((t.month : Int) ≤ 2) by omega, winter, if_true]
    simp (disch := omega) only [Int.tdiv_eq_ediv_of_nonneg]
    rw [era_days]
    push_cast
    ring
  · simp only [show ¬ ((t.month : Int) ≤ 2) by omega, winter, if_false, sub_zero, add_zero]
    simp (disch := omega) only [Int.tdiv_eq_ediv_of_nonneg]
    rw [era_days, yearDays_eq]
    push_cast
    ring

theorem Valid.dayNumber_tomorrow (valid : t.Valid) : t.tomorrow.dayNumber = t.dayNumber + 1 := by
  obtain ⟨years, months, days, -⟩ := valid
  obtain ⟨last, month⟩ := Nat.exists_eq_add_of_le' months.1
  unfold tomorrow dayNumber dayOfYear
  split_ifs with inside within
  · dsimp only
    omega
  · dsimp only
    rw [Nat.add_sub_cancel, month, sum_range_succ, Nat.add_sub_cancel, ← month]
    omega
  · -- the months together are the length of the year
    have whole := sum_months t.year
    rw [sum_range_succ] at whole
    obtain rfl : last = 11 := by omega
    dsimp only
    rw [month] at inside days
    rw [Nat.succ_sub years.1, sum_range_succ, Nat.add_sub_cancel' years.1, month, ← whole, Nat.sub_self, range_zero,
      sum_empty, Nat.add_sub_cancel]
    omega

theorem Valid.rtcToEpoch_inj (valid : t.Valid) (valid' : t'.Valid) (same : rtcToEpoch t = rtcToEpoch t') : t = t' := by
  rw [valid.rtcToEpoch_eq, valid'.rtcToEpoch_eq] at same
  have inside := valid.dayOfYear_lt
  have inside' := valid'.dayOfYear_lt
  have short := valid.secondsOfDay_lt
  have short' := valid'.secondsOfDay_lt
  obtain ⟨⟨late, -⟩, months, days, -, minutes, seconds⟩ := valid
  obtain ⟨⟨late', -⟩, months', days', -, minutes', seconds'⟩ := valid'
  -- the day number has one year, and the day of the year one month
  obtain ⟨years, rest⟩ := place_unique (f := fun i => yearDays (1970 + i)) (by rwa [Nat.add_sub_cancel' late])
    (by rwa [Nat.add_sub_cancel' late']) (show t.dayNumber = t'.dayNumber by omega)
  have year : t.year = t'.year := by omega
  rw [dayOfYear, dayOfYear, ← year] at rest
  rw [← year] at days'
  obtain ⟨month, day⟩ := place_unique (f := fun i => monthDays t.year (i + 1))
    (by rw [Nat.sub_add_cancel months.1]; omega) (by rw [Nat.sub_add_cancel months'.1]; omega) rest
  have time : t.secondsOfDay = t'.secondsOfDay := by omega
  unfold secondsOfDay at time
  cases t
  cases t'
  simp only [RtcTime.mk.injEq] at *
  omega

end RtcTime

/-- The seconds are those of the Gregorian calendar, a day has 86400 of them, and no value
    stands for two times. -/
theorem rtcToEpoch_gregorian :
    (∀ t : RtcTime, t.Valid → rtcToEpoch t = 86400 * t.dayNumber + t.secondsOfDay) ∧
    (∀ t : RtcTime, t.Valid → t.tomorrow.Valid → rtcToEpoch t.tomorrow = rtcToEpoch t + 86400) ∧
    ∀ t t' : RtcTime, t.Valid → t'.Valid → rtcToEpoch t = rtcToEpoch t' → t = t' := by
  refine ⟨fun t valid => valid.rtcToEpoch_eq, fun t valid next => ?_, fun t t' valid valid' => valid.rtcToEpoch_inj valid'⟩
  have time : t.tomorrow.secondsOfDay = t.secondsOfDay := by
    unfold RtcTime.tomorrow
    split_ifs <;> rfl
  rw [valid.rtcToEpoch_eq, next.rtcToEpoch_eq, valid.dayNumber_tomorrow, time]
  omega

/-- Noon of a leap day that only the rule for 400 years makes one. -/
theorem rtcToEpoch_leapDay :
    rtcToEpoch ⟨0, 0, 12, 29, 2, 2000⟩ = 86400 * RtcTime.dayNumber ⟨0, 0, 12, 29, 2, 2000⟩ + 43200 :=
  rtcToEpoch_gregorian.1 _ (by constructor <;> decide)

end Zenus.Arch
