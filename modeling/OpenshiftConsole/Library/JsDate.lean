import OpenshiftConsole.Library.Calendar

/-!
# Dates of JavaScript

Times are milliseconds since the epoch. `utc` is `Date.UTC`, which takes the years 0 to 99 for those of
the twentieth century; setting the year afterwards puts that right (`setUTCFullYear_utc`). The
limit that a time has is not modelled: no time that is made here comes near it.

A zone is what it is ahead of UTC, in seconds, in each second since the epoch. An engine's own
zone is behind the methods of a date without `UTC` in their names; a local time that comes
twice there is the first of the two instants, and one that is skipped is read with the offset before
the change (`utcOfLocal`).
-/

namespace OpenshiftConsole.Library.JsDate

open Calendar

/-! ### Times and their fields -/

/-- `MakeDay`, for months from 0; other months are those of another year. -/
def makeDay (year month date : ℤ) : ℤ := dayNumber (year + month / 12) (month % 12 + 1) date

/-- `MakeTime`, without milliseconds. -/
def makeTime (hour minute second : ℤ) : ℤ := ((hour * 60 + minute) * 60 + second) * 1000

/-- `MakeFullYear` -/
def makeFullYear (year : ℤ) : ℤ := if 0 ≤ year ∧ year ≤ 99 then 1900 + year else year

/-- The milliseconds of a day. -/
def msPerDay : ℤ := 86400000

/-- `Date.UTC` -/
def utc (year month date hour minute second : ℤ) : ℤ :=
  makeDay (makeFullYear year) month date * msPerDay + makeTime hour minute second

/-- The date of a time. -/
def dateOf (time : ℤ) : Date := .ofDays (time / msPerDay)

/-- `date.setUTCFullYear(year)` -/
def setUTCFullYear (time year : ℤ) : ℤ :=
  makeDay year ((dateOf time).month - 1) (dateOf time).day * msPerDay + time % msPerDay

/-- What a date and time input has; months are from 1. -/
structure Fields where
  year : ℤ
  month : ℤ
  day : ℤ
  hour : ℤ
  minute : ℤ
  second : ℤ
deriving DecidableEq

/-- The fields of a time: `getUTCFullYear`, `getUTCMonth() + 1` and so on. -/
def fieldsOf (time : ℤ) : Fields where
  year := (dateOf time).year
  month := (dateOf time).month
  day := (dateOf time).day
  hour := time % msPerDay / 3600000
  minute := time % 3600000 / 60000
  second := time % 60000 / 1000

/-- Fields as a time: `Date.UTC` of them, with the year set once more. -/
def Fields.time (w : Fields) : ℤ :=
  setUTCFullYear (utc w.year (w.month - 1) w.day w.hour w.minute w.second) w.year

variable {time time' : ℤ}

theorem makeDay_date (d : Date) : makeDay d.year (d.month - 1) d.day = d.toDays := by
  have hmonth := d.month_mem
  rw [makeDay, Date.toDays, show d.year + (d.month - 1) / 12 = d.year by omega,
    show (d.month - 1) % 12 + 1 = d.month by omega]

theorem makeDay_dateOf (time : ℤ) :
    makeDay (dateOf time).year ((dateOf time).month - 1) (dateOf time).day = time / msPerDay := by
  rw [makeDay_date, dateOf, Date.toDays_ofDays]

theorem dateOf_day {x : ℤ} (d : Date) (h : 0 ≤ x) (h' : x < msPerDay) : dateOf (d.toDays * msPerDay + x) = d := by
  rw [dateOf, show (d.toDays * msPerDay + x) / msPerDay = d.toDays by simp only [msPerDay] at *; omega, Date.ofDays_toDays]

theorem hour_fieldsOf (time : ℤ) : (fieldsOf time).hour % 24 = (fieldsOf time).hour := by
  simp only [fieldsOf, msPerDay]
  omega

/-- The day before the first of the next month is the last of a month. -/
theorem day_last (d : Date) (h : 100 ≤ d.year) :
    (dateOf (utc d.year d.month 0 0 0 0)).day = daysInMonth (isLeap d.year) d.month := by
  have hmonth := d.month_mem
  let last : Date := ⟨d.year, d.month, daysInMonth (isLeap d.year) d.month, d.month_mem,
    le_trans (by decide) (daysInMonth_bounds _ _).1, le_rfl⟩
  have hlast : last.toDays = daysBeforeYear d.year + daysBeforeMonth (isLeap d.year) d.month +
      (daysInMonth (isLeap d.year) d.month - 1) := rfl
  have hday : makeDay d.year d.month 0 = last.toDays := by
    rcases lt_or_eq_of_le hmonth.2 with hlt | heq
    · rw [makeDay, show d.year + d.month / 12 = d.year by omega, show d.month % 12 = d.month by omega, dayNumber,
        daysBeforeMonth_succ hmonth.1 hlt, hlast]
      omega
    · have hyear := daysBeforeYear_succ d.year
      rw [← daysBeforeMonth_twelve] at hyear
      have hlength : daysInMonth (isLeap d.year) 12 = 31 := rfl
      have hfirst : daysBeforeMonth (isLeap (d.year + 1)) 1 = 0 := rfl
      rw [hlast, makeDay, dayNumber, heq, hlength]
      simp only [Int.reduceDiv, Int.reduceMod, Int.zero_add, hfirst]
      omega
  have hutc : utc d.year d.month 0 0 0 0 = last.toDays * msPerDay + 0 := by
    rw [utc, makeFullYear, if_neg (by omega), hday]
    rfl
  rw [hutc, dateOf_day last le_rfl (by decide)]

/-- The first instant of a year. -/
theorem utc_newYear {y : ℤ} (h : 100 ≤ y) : utc y 0 1 0 0 0 = daysBeforeYear y * msPerDay := by
  have hfirst : daysBeforeMonth (isLeap y) 1 = 0 := rfl
  rw [utc, makeFullYear, if_neg (by omega), makeDay, dayNumber]
  simp only [Int.reduceDiv, Int.reduceMod, Int.zero_add, Int.add_zero, hfirst, makeTime, Int.reduceMul, Int.reduceSub]

/-- The fields tell the second. -/
theorem fieldsOf_inj : fieldsOf time = fieldsOf time' ↔ time / 1000 = time' / 1000 := by
  constructor
  · intro h
    simp only [fieldsOf, Fields.mk.injEq] at h
    obtain ⟨hyear, hmonth, hday, hhour, hminute, hsecond⟩ := h
    have hdate : time / msPerDay = time' / msPerDay := by
      have hdates : dateOf time = dateOf time' := Date.ext hyear hmonth hday
      rw [← Date.toDays_ofDays (time / msPerDay), ← Date.toDays_ofDays (time' / msPerDay)]
      exact congrArg Date.toDays hdates
    clear hyear hmonth hday
    simp only [msPerDay] at hdate hhour
    omega
  · intro h
    have hdate : dateOf time = dateOf time' := by
      rw [dateOf, dateOf, show time / msPerDay = time' / msPerDay by simp only [msPerDay]; omega]
    have hclock : time % msPerDay / 3600000 = time' % msPerDay / 3600000 ∧
        time % 3600000 / 60000 = time' % 3600000 / 60000 ∧ time % 60000 / 1000 = time' % 60000 / 1000 := by
      simp only [msPerDay]
      omega
    rw [fieldsOf, fieldsOf, hdate, hclock.1, hclock.2.1, hclock.2.2]

/-- The leap years of the twentieth century are those of the first, but for the first one. -/
theorem isLeap_century {y : ℤ} (h : 1 ≤ y) (h' : y ≤ 99) : isLeap (1900 + y) = isLeap y := by
  rw [isLeap, isLeap]
  congr 1
  rw [eq_iff_iff]
  omega

/-- The year that `Date.UTC` takes has the days of the year. -/
theorem isLeap_makeFullYear {y : ℤ} (h : 1 ≤ y) : isLeap (makeFullYear y) = isLeap y := by
  rw [makeFullYear]
  split_ifs with hcentury
  · exact isLeap_century h hcentury.2
  · rfl

theorem setUTCFullYear_day {x : ℤ} (d : Date) (year : ℤ) (h : 0 ≤ x) (h' : x < msPerDay) :
    setUTCFullYear (d.toDays * msPerDay + x) year = makeDay year (d.month - 1) d.day * msPerDay + x := by
  rw [setUTCFullYear, dateOf_day d h h', show (d.toDays * msPerDay + x) % msPerDay = x by simp only [msPerDay] at *; omega]

/-- Setting the year that a time is in changes nothing. -/
theorem setUTCFullYear_self (time : ℤ) : setUTCFullYear time (dateOf time).year = time := by
  rw [setUTCFullYear, makeDay_dateOf]
  exact Int.ediv_mul_add_emod time msPerDay

/-- The time of the day that the fields of a time make. -/
theorem makeTime_clock (time : ℤ) :
    let x := makeTime (time % msPerDay / 3600000) (time % 3600000 / 60000) (time % 60000 / 1000)
    0 ≤ x ∧ x < msPerDay ∧ time / msPerDay * msPerDay + x = time / 1000 * 1000 := by
  simp only [makeTime, msPerDay]
  omega

/-- **The fields of a time are those of its second**, also in the years that `Date.UTC` takes for others. -/
theorem time_fieldsOf (h : 1 ≤ (dateOf time).year) : (fieldsOf time).time = time / 1000 * 1000 := by
  obtain ⟨hx, hx', hclock⟩ := makeTime_clock time
  let d := (dateOf time).inYear (makeFullYear (dateOf time).year) (isLeap_makeFullYear h)
  have hutc : utc (dateOf time).year ((dateOf time).month - 1) (dateOf time).day (time % msPerDay / 3600000)
      (time % 3600000 / 60000) (time % 60000 / 1000) = d.toDays * msPerDay +
      makeTime (time % msPerDay / 3600000) (time % 3600000 / 60000) (time % 60000 / 1000) := by
    rw [utc, ← makeDay_date d]
    rfl
  rw [Fields.time, fieldsOf, hutc, setUTCFullYear_day d _ hx hx', ← hclock]
  exact congrArg (· * msPerDay + _) (makeDay_dateOf time)

/-- From the year 100 on `Date.UTC` does it. -/
theorem utc_fieldsOf (h : 100 ≤ (dateOf time).year) :
    utc (fieldsOf time).year ((fieldsOf time).month - 1) (fieldsOf time).day (fieldsOf time).hour
      (fieldsOf time).minute (fieldsOf time).second = time / 1000 * 1000 := by
  obtain ⟨-, -, hclock⟩ := makeTime_clock time
  show utc (dateOf time).year ((dateOf time).month - 1) (dateOf time).day (time % msPerDay / 3600000)
    (time % 3600000 / 60000) (time % 60000 / 1000) = time / 1000 * 1000
  rw [utc, makeFullYear, if_neg (by omega), makeDay_dateOf, hclock]

/-- A time in a year is not before it. -/
theorem le_setUTCFullYear (time year : ℤ) : daysBeforeYear year * msPerDay ≤ setUTCFullYear time year := by
  obtain ⟨hfirst, -⟩ := daysBeforeMonth_bounds (isLeap year) (dateOf time).month_mem.1 (dateOf time).month_mem.2
  have hmonth := (dateOf time).month_mem
  have hday := (dateOf time).day_mem
  rw [setUTCFullYear, makeDay, show year + ((dateOf time).month - 1) / 12 = year by omega,
    show ((dateOf time).month - 1) % 12 + 1 = (dateOf time).month by omega, dayNumber]
  simp only [msPerDay]
  omega

/-- Fields make whole seconds. -/
theorem Fields.time_emod (w : Fields) : w.time % 1000 = 0 := by
  simp only [Fields.time, setUTCFullYear, utc, makeTime, msPerDay]
  omega

/-! ### Zones -/

/-- How far a zone is ahead of UTC, in seconds, in each second since the epoch. -/
abbrev Zone := ℤ → ℤ

variable (zone : Zone)

/-- `LocalTime`: the time that has in UTC the fields that a time has in the zone. -/
def Zone.localTime (time : ℤ) : ℤ := time + zone (time / 1000) * 1000

/-- The times of a local time, at most a day from it. -/
def Zone.instants (localTime : ℤ) : List ℤ :=
  ((List.range 172801).map fun k : ℕ => localTime - 86400000 + k * 1000).filter (zone.localTime · = localTime)

/-- What the zone is ahead of UTC right before a local time that is skipped. -/
def Zone.offsetBefore (localTime : ℤ) : ℤ :=
  ((List.range 86400).findSome? fun k : ℕ => (zone.instants (localTime - (k + 1) * 1000)).getLast?).elim 0 fun time =>
    zone (time / 1000)

/-- `UTC` of a local time: the first of its times. -/
def Zone.utcOfLocal (localTime : ℤ) : ℤ := (zone.instants localTime).headD (localTime - zone.offsetBefore localTime * 1000)

/-- `new Date(year, month, date, hours, minutes, seconds)` -/
def Zone.newDate (year month date hours minutes seconds : ℤ) : ℤ := zone.utcOfLocal (utc year month date hours minutes seconds)

/-- `date.setFullYear(year)` -/
def Zone.setFullYear (time year : ℤ) : ℤ := zone.utcOfLocal (setUTCFullYear (zone.localTime time) year)

variable {zone}

theorem Zone.localTime_ediv : zone.localTime time / 1000 = time / 1000 + zone (time / 1000) := by
  rw [Zone.localTime]
  omega

/-- A local time that there is has a time, unless the zone is more than a day from UTC. -/
theorem Zone.localTime_utcOfLocal {x : ℤ} (hzone : ∀ t, -86400 ≤ zone t ∧ zone t ≤ 86400) (hx : x % 1000 = 0)
    (h : ∃ time, zone.localTime time / 1000 = x / 1000) : zone.localTime (zone.utcOfLocal x) = x := by
  obtain ⟨time, htime⟩ := h
  have hmem : time / 1000 * 1000 ∈ zone.instants x := by
    have hbound := hzone (time / 1000)
    rw [Zone.localTime_ediv] at htime
    rw [Zone.instants, List.mem_filter, List.mem_map]
    refine ⟨⟨(time / 1000 - x / 1000 + 86400).toNat, List.mem_range.mpr (by omega), by omega⟩, ?_⟩
    rw [decide_eq_true_eq, Zone.localTime, Int.mul_ediv_cancel _ (by decide)]
    omega
  obtain ⟨first, rest, hinstants⟩ := List.exists_cons_of_ne_nil (List.ne_nil_of_mem hmem)
  have hfirst : first ∈ zone.instants x := by
    rw [hinstants]
    exact List.mem_cons_self
  rw [Zone.utcOfLocal, hinstants, List.headD_cons]
  simpa using (List.mem_filter.mp hfirst).2

end OpenshiftConsole.Library.JsDate
