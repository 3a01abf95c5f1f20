import Mathlib.Data.Int.Order.Basic
import Mathlib.Order.Monotone.Basic
import Mathlib.Tactic.Common

/-!
# The calendar

Dates of the Gregorian calendar, carried on in both directions, and the days since the epoch
(1 January 1970). A date is a valid one: its month has the day. `toDays` counts the days up to a
date and `ofDays` gives the date of a day; they are inverse (`ofDays_toDays`, `toDays_ofDays`).

A weekday of a month is told by its number in the month, the fifth standing for the last one.
`nthWeekday` finds the day, and each day is found by what is told of it (`nthWeekday_week`).
-/

namespace OpenshiftConsole.Library.Calendar

/-! ### Years -/

/-- The year has a 29 February. -/
def isLeap (y : ℤ) : Bool := y % 4 = 0 ∧ (y % 100 ≠ 0 ∨ y % 400 = 0)

def daysInYear (y : ℤ) : ℤ := if isLeap y then 366 else 365

/-- The days from the epoch to 1 January of a year. -/
def daysBeforeYear (y : ℤ) : ℤ := 365 * (y - 1970) + ((y - 1) / 4 - (y - 1) / 100 + (y - 1) / 400) - 477

theorem daysBeforeYear_succ (y : ℤ) : daysBeforeYear (y + 1) = daysBeforeYear y + daysInYear y := by
  simp only [daysBeforeYear, daysInYear, isLeap, decide_eq_true_eq]
  split <;> omega

theorem daysBeforeYear_lt_succ (y : ℤ) : daysBeforeYear y < daysBeforeYear (y + 1) := by
  rw [daysBeforeYear_succ, daysInYear]
  split <;> omega

theorem daysBeforeYear_lt_iff {y y' : ℤ} : daysBeforeYear y < daysBeforeYear y' ↔ y < y' :=
  (strictMono_int_of_lt_succ daysBeforeYear_lt_succ).lt_iff_lt

/-- The year of a day: the mean length of a year tells it but for one. -/
def yearOfDays (n : ℤ) : ℤ :=
  let y := 1970 + 400 * n / 146097
  if n < daysBeforeYear y then y - 1 else if daysBeforeYear (y + 1) ≤ n then y + 1 else y

theorem yearOfDays_spec (n : ℤ) : daysBeforeYear (yearOfDays n) ≤ n ∧ n < daysBeforeYear (yearOfDays n + 1) := by
  have hlow : daysBeforeYear (1970 + 400 * n / 146097 - 1) ≤ n := by
    simp only [daysBeforeYear]
    omega
  have hhigh : n < daysBeforeYear (1970 + 400 * n / 146097 + 1 + 1) := by
    simp only [daysBeforeYear]
    omega
  rw [yearOfDays]
  split_ifs with hbefore hbehind
  · exact ⟨hlow, by rwa [Int.sub_add_cancel]⟩
  · exact ⟨hbehind, hhigh⟩
  · exact ⟨not_lt.mp hbefore, not_le.mp hbehind⟩

theorem yearOfDays_eq_iff {n y : ℤ} : yearOfDays n = y ↔ daysBeforeYear y ≤ n ∧ n < daysBeforeYear (y + 1) := by
  constructor
  · rintro rfl
    exact yearOfDays_spec n
  · rintro ⟨h, h'⟩
    obtain ⟨hle, hlt⟩ := yearOfDays_spec n
    have h₁ := daysBeforeYear_lt_iff.mp (lt_of_le_of_lt hle h')
    have h₂ := daysBeforeYear_lt_iff.mp (lt_of_le_of_lt h hlt)
    omega

theorem daysBeforeYear_le_iff {y y' : ℤ} : daysBeforeYear y ≤ daysBeforeYear y' ↔ y ≤ y' := by
  rw [← not_lt, daysBeforeYear_lt_iff, not_lt]

theorem daysBeforeYear_epoch : daysBeforeYear 1970 = 0 := by decide

theorem daysBeforeYear_nonneg {y : ℤ} (hy : 1970 ≤ y) : 0 ≤ daysBeforeYear y := by
  rw [← daysBeforeYear_epoch]
  exact daysBeforeYear_le_iff.mpr hy

theorem le_yearOfDays_iff {n y : ℤ} : y ≤ yearOfDays n ↔ daysBeforeYear y ≤ n := by
  obtain ⟨hle, hlt⟩ := yearOfDays_spec n
  constructor
  · intro h
    exact le_trans (daysBeforeYear_le_iff.mpr h) hle
  · intro h
    have := daysBeforeYear_lt_iff.mp (lt_of_le_of_lt h hlt)
    omega

/-! ### Months -/

section

variable (leap : Bool)

def daysInMonth (m : ℤ) : ℤ :=
  if m = 2 then if leap then 29 else 28
  else if m = 4 ∨ m = 6 ∨ m = 9 ∨ m = 11 then 30 else 31

/-- The days from 1 January to the first of a month: months of 30 and 31 days, but for February. -/
def daysBeforeMonth (m : ℤ) : ℤ := (367 * m - 362) / 12 - if m ≤ 2 then 0 else if leap then 1 else 2

/-- The month of a day of the year. -/
def monthOfDay (n : ℤ) : ℤ :=
  (12 * (n + if n < daysBeforeMonth leap 3 then 0 else if leap then 1 else 2) + 373) / 367

theorem month_cases {m : ℤ} (h : 1 ≤ m) (h' : m ≤ 12) :
    m = 1 ∨ m = 2 ∨ m = 3 ∨ m = 4 ∨ m = 5 ∨ m = 6 ∨ m = 7 ∨ m = 8 ∨ m = 9 ∨ m = 10 ∨ m = 11 ∨ m = 12 := by
  omega

variable {leap}

theorem daysBeforeMonth_succ {m : ℤ} (h : 1 ≤ m) (h' : m < 12) :
    daysBeforeMonth leap (m + 1) = daysBeforeMonth leap m + daysInMonth leap m := by
  rcases month_cases h h'.le with rfl | rfl | rfl | rfl | rfl | rfl | rfl | rfl | rfl | rfl | rfl | rfl
  case inr.inr.inr.inr.inr.inr.inr.inr.inr.inr.inr => exact absurd h' (by decide)
  all_goals cases leap <;> rfl

theorem daysBeforeMonth_twelve (y : ℤ) : daysBeforeMonth (isLeap y) 12 + 31 = daysInYear y := by
  rw [daysInYear]
  cases isLeap y <;> rfl

theorem daysInMonth_bounds (leap : Bool) (m : ℤ) : 28 ≤ daysInMonth leap m ∧ daysInMonth leap m ≤ 31 := by
  rw [daysInMonth]
  split_ifs <;> decide

/-- A month lies in the year. -/
theorem daysBeforeMonth_bounds (leap : Bool) {m : ℤ} (h : 1 ≤ m) (h' : m ≤ 12) :
    0 ≤ daysBeforeMonth leap m ∧ daysBeforeMonth leap m + daysInMonth leap m ≤ daysBeforeMonth leap 12 + 31 := by
  rcases month_cases h h' with rfl | rfl | rfl | rfl | rfl | rfl | rfl | rfl | rfl | rfl | rfl | rfl
  all_goals cases leap <;> decide

theorem monthOfDay_spec {n : ℤ} (h : 0 ≤ n) (h' : n < daysBeforeMonth leap 12 + 31) :
    (1 ≤ monthOfDay leap n ∧ monthOfDay leap n ≤ 12) ∧ daysBeforeMonth leap (monthOfDay leap n) ≤ n ∧
      n < daysBeforeMonth leap (monthOfDay leap n) + daysInMonth leap (monthOfDay leap n) := by
  have hmarch : daysBeforeMonth leap 3 = if leap then 60 else 59 := by cases leap <;> rfl
  have hdecember : daysBeforeMonth leap 12 = if leap then 335 else 334 := by cases leap <;> rfl
  rw [hdecember] at h'
  rw [monthOfDay, hmarch]
  generalize hm : (12 * (n + if n < if leap then 60 else 59 then 0 else if leap then 1 else 2) + 373) / 367 = m
  simp only [daysBeforeMonth, daysInMonth]
  cases leap
  · simp only [Bool.false_eq_true, if_false] at *
    split_ifs at * <;> omega
  · simp only [if_true] at *
    split_ifs at * <;> omega

theorem monthOfDay_eq {n m : ℤ} (hm : 1 ≤ m ∧ m ≤ 12) (h : daysBeforeMonth leap m ≤ n)
    (h' : n < daysBeforeMonth leap m + daysInMonth leap m) : monthOfDay leap n = m := by
  have hmarch : daysBeforeMonth leap 3 = if leap then 60 else 59 := by cases leap <;> rfl
  rw [monthOfDay, hmarch]
  rcases month_cases hm.1 hm.2 with rfl | rfl | rfl | rfl | rfl | rfl | rfl | rfl | rfl | rfl | rfl | rfl
  all_goals cases leap <;> simp [daysBeforeMonth, daysInMonth] at h h' ⊢ <;> split_ifs <;> omega

end

/-! ### Dates -/

/-- A date that there is. -/
@[ext]
structure Date where
  year : ℤ
  month : ℤ
  day : ℤ
  month_mem : 1 ≤ month ∧ month ≤ 12
  day_mem : 1 ≤ day ∧ day ≤ daysInMonth (isLeap year) month
deriving DecidableEq

/-- The days from the epoch to a day of a month, by its number. -/
def dayNumber (year month day : ℤ) : ℤ := daysBeforeYear year + daysBeforeMonth (isLeap year) month + (day - 1)

/-- The days from the epoch to a date. -/
def Date.toDays (d : Date) : ℤ := dayNumber d.year d.month d.day

/-- The day of its year that a day is, from 0. -/
def dayOfYear (n : ℤ) : ℤ := n - daysBeforeYear (yearOfDays n)

theorem dayOfYear_bounds (n : ℤ) : 0 ≤ dayOfYear n ∧ dayOfYear n < daysBeforeMonth (isLeap (yearOfDays n)) 12 + 31 := by
  have hspec := yearOfDays_spec n
  rw [daysBeforeYear_succ, ← daysBeforeMonth_twelve] at hspec
  rw [dayOfYear]
  omega

/-- The date of a day since the epoch. -/
def Date.ofDays (n : ℤ) : Date where
  year := yearOfDays n
  month := monthOfDay (isLeap (yearOfDays n)) (dayOfYear n)
  day := dayOfYear n - daysBeforeMonth (isLeap (yearOfDays n)) (monthOfDay (isLeap (yearOfDays n)) (dayOfYear n)) + 1
  month_mem := (monthOfDay_spec (dayOfYear_bounds n).1 (dayOfYear_bounds n).2).1
  day_mem := by
    have hspec := (monthOfDay_spec (dayOfYear_bounds n).1 (dayOfYear_bounds n).2).2
    omega

@[simp] theorem Date.toDays_ofDays (n : ℤ) : (ofDays n).toDays = n := by
  simp only [toDays, dayNumber, ofDays, dayOfYear]
  omega

/-- A date lies in its year. -/
theorem Date.toDays_mem (d : Date) : daysBeforeYear d.year ≤ d.toDays ∧ d.toDays < daysBeforeYear (d.year + 1) := by
  obtain ⟨hfirst, hlast⟩ := daysBeforeMonth_bounds (isLeap d.year) d.month_mem.1 d.month_mem.2
  have hday := d.day_mem
  rw [daysBeforeYear_succ, ← daysBeforeMonth_twelve, toDays, dayNumber]
  omega

@[simp] theorem Date.ofDays_toDays (d : Date) : ofDays d.toDays = d := by
  have hyear : yearOfDays d.toDays = d.year := yearOfDays_eq_iff.mpr d.toDays_mem
  have hday : dayOfYear d.toDays = daysBeforeMonth (isLeap d.year) d.month + (d.day - 1) := by
    rw [dayOfYear, hyear, toDays, dayNumber]
    omega
  have hmonth : monthOfDay (isLeap d.year) (dayOfYear d.toDays) = d.month := by
    have hmem := d.day_mem
    exact monthOfDay_eq d.month_mem (by omega) (by omega)
  ext
  · exact hyear
  · simp only [ofDays, hyear, hmonth]
  · show dayOfYear d.toDays - daysBeforeMonth (isLeap (yearOfDays d.toDays))
      (monthOfDay (isLeap (yearOfDays d.toDays)) (dayOfYear d.toDays)) + 1 = d.day
    rw [hyear, hmonth, hday]
    omega

/-- A date in another year that has as many days. -/
def Date.inYear (d : Date) (year : ℤ) (h : isLeap year = isLeap d.year) : Date :=
  ⟨year, d.month, d.day, d.month_mem, h ▸ d.day_mem⟩

/-! ### Weekdays -/

/-- The weekday of a day, from 0 for Sunday; the epoch was a Thursday. -/
def weekday (n : ℤ) : ℤ := (n + 4) % 7

/-- The day of a month that is the first, second, .. of a weekday; the fifth is the last one. -/
def nthWeekday (year month nth wd : ℤ) : ℤ :=
  let day := 1 + (wd - weekday (dayNumber year month 1)) % 7 + 7 * (nth - 1)
  if day ≤ daysInMonth (isLeap year) month then day else day - 7

/-- Which of its weekdays a day of a month is: the fifth is the last one. -/
def nthOf (year month day : ℤ) : ℤ := if day + 7 > daysInMonth (isLeap year) month then 5 else (day + 6) / 7

/-- A day is found by its weekday. -/
theorem nthWeekday_nthOf {year month day : ℤ} (h : 1 ≤ day) (h' : day ≤ daysInMonth (isLeap year) month) :
    nthWeekday year month (nthOf year month day) (weekday (dayNumber year month day)) = day := by
  have hlength := daysInMonth_bounds (isLeap year) month
  have hfirst : (weekday (dayNumber year month day) - weekday (dayNumber year month 1)) % 7 = (day - 1) % 7 := by
    simp only [weekday, dayNumber]
    omega
  simp only [nthWeekday, nthOf, hfirst]
  split_ifs <;> omega

end OpenshiftConsole.Library.Calendar
