import OpenshiftConsole.Library.Changes
import OpenshiftConsole.Library.JsDate

/-!
# Date and time inputs

A date and time input shows a time in the time zone that the user has chosen, or in the browser's own
one, and what is typed there is a time again. A chosen zone is known by what `Intl.DateTimeFormat` shows
only: the time is guessed twice, each guess being corrected by what the zone is ahead of UTC at the
one before, and thrown away if it does not show what was typed.

Around a change of the zone the first guess can be on the wrong side. The second one is not, if there is a
time at all that shows the fields (`settle`), as two changes are further apart than any two offsets.
-/

namespace OpenshiftConsole.Filesystem.DateTimePreferences

open OpenshiftConsole.Library.Changes OpenshiftConsole.Library.JsDate
open OpenshiftConsole.Library.Calendar (daysBeforeYear daysBeforeYear_le_iff le_yearOfDays_iff)

/-- `WallClock` -/
abbrev WallClock := Fields

/-! ### What is shown -/

/-- `Intl.DateTimeFormat` shows the time shifted by what the zone is ahead of UTC. -/
def formatToParts (timeZone : Zone) (time : ℤ) : Fields := fieldsOf (timeZone.localTime time)

/-- `wallClockIn` -/
def wallClockIn (time : ℤ) (timeZone : Zone) : WallClock :=
  let part := formatToParts timeZone time
  { part with hour := part.hour % 24 }

variable (timeZone : Option Zone) (browser : Zone)

/-- `toWallClock`; the methods of `Date` show it in the browser's zone. -/
def toWallClock (date : ℤ) : WallClock :=
  match timeZone with
  | some timeZone => wallClockIn date timeZone
  | none => fieldsOf (browser.localTime date)

/-! ### What is meant -/

/-- A guess, corrected by what it shows. -/
def correct (timeZone : Zone) (asUTC time : ℤ) : ℤ := time + (asUTC - (wallClockIn time timeZone).time)

/-- `fromWallClock`; no time stands for NaN. -/
def fromWallClock (w : WallClock) : Option ℤ :=
  match timeZone with
  | none =>
    let date := browser.setFullYear (browser.newDate w.year (w.month - 1) w.day w.hour w.minute w.second) w.year
    if fieldsOf (browser.localTime date) = w then some date else none
  | some timeZone =>
    let asUTC := w.time
    let time := correct timeZone asUTC (correct timeZone asUTC asUTC)
    if wallClockIn time timeZone = w then some time else none

/-- The ranges of a date and time input's fields. -/
structure InRange (w : WallClock) : Prop where
  year : 100 ≤ w.year ∧ w.year ≤ 9999
  month : 1 ≤ w.month ∧ w.month ≤ 12
  day : 1 ≤ w.day ∧ w.day ≤ 31
  hour : 0 ≤ w.hour ∧ w.hour ≤ 23
  minute : 0 ≤ w.minute ∧ w.minute ≤ 59
  second : 0 ≤ w.second ∧ w.second ≤ 59

/-- A zone is at most 15 hours from UTC, and of any 72 hours it changes in one second at most. -/
structure Regular (zone : Zone) : Prop where
  bounded : ∀ t, -54000 ≤ zone t ∧ zone t ≤ 54000
  seldom : ∀ c d, ChangesAt zone c → ChangesAt zone d → c < d → c + 259200 ≤ d

variable {timeZone browser} {zone : Zone} {w : WallClock} {time : ℤ}

/-! ### Guesses -/

theorem wallClockIn_eq (time : ℤ) (zone : Zone) : wallClockIn time zone = fieldsOf (zone.localTime time) := by
  rw [wallClockIn, formatToParts, hour_fieldsOf]

/-- Two guesses settle a local time that there is. -/
theorem settle (hzone : Regular zone) {t x : ℤ} (h : t + zone t = x) :
    x - zone (x - zone x) + zone (x - zone (x - zone x)) = x := by
  have hone : ∀ c d, x - 54000 < c → d ≤ x + 54000 → ChangesAt zone c → ChangesAt zone d → ¬c < d :=
    fun c d hxc hdx hc hd hcd => by
      have := hzone.seldom c d hc hd hcd
      omega
  obtain ⟨c, a, b, hstep⟩ := exists_step (f := zone) hone
  have ht := hzone.bounded t
  have hx := hzone.bounded x
  have hguess := hzone.bounded (x - zone x)
  rw [hstep t (by omega) (by omega)] at h
  rw [hstep (x - zone (x - zone x)) (by omega) (by omega), hstep (x - zone x) (by omega) (by omega),
    hstep x (by omega) (by omega)]
  split_ifs at * <;> omega

/-- Fields in range are fields of years that `Date.UTC` takes as they are, with two offsets to spare. -/
theorem InRange.le_time (hw : InRange w) : daysBeforeYear 1 * msPerDay + 108000000 ≤ w.time := by
  have hfirst := daysBeforeYear_le_iff.mpr hw.year.1
  have htime := le_setUTCFullYear (utc w.year (w.month - 1) w.day w.hour w.minute w.second) w.year
  have hyears : daysBeforeYear 1 + 2 ≤ daysBeforeYear 100 := by decide
  simp only [Fields.time, msPerDay] at htime ⊢
  omega

/-- A guess is wrong by what the zone is ahead of UTC there. -/
theorem correct_eq {x u : ℤ} (hyear : daysBeforeYear 1 * msPerDay ≤ (u + zone u) * 1000) :
    correct zone (x * 1000) (u * 1000) = (x - zone u) * 1000 := by
  have hlocal : zone.localTime (u * 1000) = (u + zone u) * 1000 := by
    rw [Zone.localTime, Int.mul_ediv_cancel _ (by decide)]
    omega
  have hshown : (fieldsOf ((u + zone u) * 1000)).time = (u + zone u) * 1000 := by
    rw [time_fieldsOf, Int.mul_ediv_cancel _ (by decide)]
    refine le_yearOfDays_iff.mpr ?_
    simp only [msPerDay] at *
    omega
  rw [correct, wallClockIn_eq, hlocal, hshown]
  omega

/-- The fields that a time shows are those of its local second. -/
theorem time_of_shown (hw : InRange w) (h : fieldsOf time = w) : w.time = time / 1000 * 1000 := by
  have hyear := hw.year.1
  subst h
  exact time_fieldsOf (le_trans (by decide) hyear)

/-- What the guesses come to shows the fields, if a time does. -/
theorem shown_by_guesses (hzone : Regular zone) (hw : InRange w) (h : wallClockIn time zone = w) :
    wallClockIn (correct zone w.time (correct zone w.time w.time)) zone = w := by
  obtain ⟨x, hx⟩ : ∃ x, w.time = x * 1000 := ⟨w.time / 1000, by have := w.time_emod; omega⟩
  have hearly := hw.le_time
  rw [wallClockIn_eq] at h
  have hlocal : time / 1000 + zone (time / 1000) = x := by
    have htime := time_of_shown hw h
    rw [Zone.localTime_ediv] at htime
    omega
  have hoffset := hzone.bounded x
  have hguess := hzone.bounded (x - zone x)
  rw [hx] at hearly ⊢
  rw [correct_eq (by omega), correct_eq (by omega), wallClockIn_eq, ← h, fieldsOf_inj, Zone.localTime_ediv,
    Zone.localTime_ediv, hlocal, Int.mul_ediv_cancel _ (by decide)]
  exact settle hzone hlocal

/-- The date that the browser makes shows the fields, if a time does. -/
theorem shown_by_newDate (hzone : Regular zone) (hw : InRange w) (h : fieldsOf (zone.localTime time) = w) :
    fieldsOf (zone.localTime (zone.setFullYear (zone.newDate w.year (w.month - 1) w.day w.hour w.minute w.second) w.year)) =
      w := by
  have hdate : (dateOf (zone.localTime time)).year = w.year := congrArg Fields.year h
  have hutc : utc w.year (w.month - 1) w.day w.hour w.minute w.second = zone.localTime time / 1000 * 1000 := by
    rw [← h]
    exact utc_fieldsOf (hdate ▸ hw.year.1)
  obtain ⟨x, hx⟩ : ∃ x, x = zone.localTime time / 1000 * 1000 := ⟨_, rfl⟩
  have hshown : fieldsOf x = w := by
    rw [← h, fieldsOf_inj, hx, Int.mul_ediv_cancel _ (by decide)]
  have hinstant : zone.localTime (zone.utcOfLocal x) = x :=
    Zone.localTime_utcOfLocal (fun t => by have := hzone.bounded t; omega) (by omega) ⟨time, by omega⟩
  have hyear : setUTCFullYear x w.year = x := by
    rw [← hshown]
    exact setUTCFullYear_self x
  rw [Zone.setFullYear, Zone.newDate, hutc, ← hx, hinstant, hyear, hinstant, hshown]

/-! ### There and back -/

/-- What is meant shows what was typed. -/
theorem toWallClock_of_fromWallClock (h : fromWallClock timeZone browser w = some time) :
    toWallClock timeZone browser time = w := by
  cases timeZone with
  | none =>
    simp only [fromWallClock, Option.ite_none_right_eq_some, Option.some.injEq] at h
    obtain ⟨hshown, rfl⟩ := h
    exact hshown
  | some zone =>
    simp only [fromWallClock, Option.ite_none_right_eq_some, Option.some.injEq] at h
    obtain ⟨hshown, rfl⟩ := h
    exact hshown

/-- What is shown has a time that is meant by it. -/
theorem fromWallClock_ne_none (hzone : Regular (timeZone.getD browser)) (hw : InRange w)
    (h : toWallClock timeZone browser time = w) : fromWallClock timeZone browser w ≠ none := by
  cases timeZone with
  | none =>
    rw [Option.getD_none] at hzone
    rw [fromWallClock, if_pos (shown_by_newDate hzone hw h)]
    exact Option.some_ne_none _
  | some zone =>
    rw [Option.getD_some] at hzone
    rw [fromWallClock, if_pos (shown_by_guesses hzone hw h)]
    exact Option.some_ne_none _

/-- **What is typed is the time that shows it**: no time is meant only if none shows it, and what is meant shows it. -/
theorem fromWallClock_inverts (hzone : Regular (timeZone.getD browser)) (hw : InRange w) :
    (fromWallClock timeZone browser w = none ↔ ∀ time, toWallClock timeZone browser time ≠ w) ∧
      (∀ time, fromWallClock timeZone browser w = some time → toWallClock timeZone browser time = w) ∧
      ∀ time, toWallClock timeZone browser time = w →
        (fromWallClock timeZone browser w).map (toWallClock timeZone browser) = some w := by
  refine ⟨⟨fun hnone time hshown => fromWallClock_ne_none hzone hw hshown hnone, fun hnone => ?_⟩,
    fun time => toWallClock_of_fromWallClock, fun time hshown => ?_⟩
  · by_contra hsome
    obtain ⟨time, htime⟩ := Option.ne_none_iff_exists'.mp hsome
    exact hnone time (toWallClock_of_fromWallClock htime)
  · obtain ⟨meant, hmeant⟩ := Option.ne_none_iff_exists'.mp (fromWallClock_ne_none hzone hw hshown)
    rw [hmeant, Option.map_some, toWallClock_of_fromWallClock hmeant]

/-- A zone whose clocks were put back by an hour on 25 October 2026, at 1:00 UTC. -/
def putBack : Zone := fun t => if t < 1792890000 then 7200 else 3600

/-- It changes once. -/
theorem putBack_regular : Regular putBack where
  bounded t := by
    rw [putBack]
    split_ifs <;> decide
  seldom c d hc hd hcd := by
    simp only [ChangesAt, putBack] at hc hd
    split_ifs at hc hd <;> omega

/-- Half past two comes twice then. -/
theorem fromWallClock_inverts_twice :
    (fromWallClock (some putBack) putBack ⟨2026, 10, 25, 2, 30, 0⟩).map (toWallClock (some putBack) putBack) =
      some ⟨2026, 10, 25, 2, 30, 0⟩ :=
  (@fromWallClock_inverts (some putBack) putBack _ putBack_regular
    ⟨by decide, by decide, by decide, by decide, by decide, by decide⟩).2.2 1792888200000 (by decide)

end OpenshiftConsole.Filesystem.DateTimePreferences
