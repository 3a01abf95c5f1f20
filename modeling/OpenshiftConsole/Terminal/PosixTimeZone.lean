import OpenshiftConsole.Library.Changes
import OpenshiftConsole.Terminal.TimeZone

/-!
# What a session's `TZ` string means

A zone that is of one offset in a year, or changes twice, there and back, can be told by a string of POSIX. The
scan of `posixTimeZone` finds a change in the day that it is in (`scan_change`) and narrows it down to its minute
(`narrow_eq`); a rule that is made of a change is read as the minute of the change again (`ruleOf_at`).

The scan looks at the end of each day, and so at the first instant of the next year. A zone that changes at
that very instant has three changes, and gets a string of one offset only: the string means the zone exactly if it
does not (`posixTimeZone_means`).
-/

namespace OpenshiftConsole.Terminal.TimeZone

open OpenshiftConsole.Library OpenshiftConsole.Library.JsDate OpenshiftConsole.Library.Changes
open OpenshiftConsole.Library.Calendar (Date weekday dayNumber nthOf nthWeekday nthWeekday_nthOf daysBeforeYear
  daysBeforeYear_succ daysInYear yearOfDays yearOfDays_spec yearOfDays_eq_iff daysInMonth isLeap)
open OpenshiftConsole.Library.Lines (Text)
open OpenshiftConsole.Library.PosixTz (Tz Rule parse name offset rule clock EndsClock StopsAt decimal pad hhmm)
open OpenshiftConsole.Logging (Str)

variable {zone : Zone} {f : ℤ → ℤ} {a b c d y start low atNow o o' : ℤ} {i j minutes : ℕ} {rest : Text} {t t' : Transition}

/-! ### Narrowing a change down -/

/-- The loop finds the change in what it looks at, if it is a whole number of minutes from the start. -/
theorem narrow_eq (hlow : low < c) (hhigh : c ≤ low + minutes * MINUTE) (hwhole : (c - low) % MINUTE = 0)
    (hbefore : ∀ x, low ≤ x → x < c → f x = a) (hbehind : ∀ x, c ≤ x → x ≤ low + minutes * MINUTE → f x ≠ a) :
    narrow f a low minutes = c := by
  induction low, minutes using narrow.induct f a with
  | case1 low minutes hmany hsame ih =>
    rw [narrow, if_pos hmany, if_pos hsame]
    have hmid : low + (minutes / 2 : ℕ) * MINUTE < c := by
      by_contra hmid
      exact hbehind _ (not_lt.mp hmid) (by simp only [MINUTE]; omega) hsame
    simp only [MINUTE] at *
    exact ih hmid (by omega) (by omega) (fun x hx => hbefore x (by omega)) fun x hx hx' => hbehind x hx (by omega)
  | case2 low minutes hmany hother ih =>
    rw [narrow, if_pos hmany, if_neg hother]
    have hmid : c ≤ low + (minutes / 2 : ℕ) * MINUTE := by
      by_contra hmid
      exact hother (hbefore _ (by simp only [MINUTE]; omega) (not_le.mp hmid))
    simp only [MINUTE] at *
    exact ih hlow hmid hwhole hbefore fun x hx hx' => hbehind x hx (by omega)
  | case3 low minutes hfew =>
    rw [narrow, if_neg hfew]
    simp only [MINUTE] at *
    omega

/-! ### The scan -/

/-- The scan goes on as it was where the ends of the days have the offset that it saw last. -/
theorem scan_quiet (hij : i ≤ j) (h : ∀ k, i < k → k ≤ j → f (start + k * DAY) = (scan f start i).previous) :
    scan f start j = scan f start i := by
  induction j, hij using Nat.le_induction with
  | base => rfl
  | succ j hij ih =>
    have hday := h (j + 1) (by omega) le_rfl
    rw [scan, ih fun k hk hk' => h k hk (by omega), scanDay, if_neg]
    rw [not_not, ← hday]
    congr 1
    simp only [DAY, MINUTE]
    omega

/-- A day with a change in it, at a whole minute. -/
theorem scan_change (hc : start + i * DAY < c) (hc' : c ≤ start + i * DAY + DAY) (hwhole : (c - start) % MINUTE = 0)
    (hbefore : ∀ x, start + i * DAY ≤ x → x < c → f x = (scan f start i).previous)
    (hbehind : ∀ x, c ≤ x → x ≤ start + i * DAY + DAY → f x = b) (hb : b ≠ (scan f start i).previous) :
    scan f start (i + 1) = ⟨b, (scan f start i).transitions ++ [⟨c, (scan f start i).previous, b⟩]⟩ := by
  have hend : f (start + i * DAY + DAY) = b := hbehind _ hc' le_rfl
  have hday : ((24 * 60 : ℕ) : ℤ) * MINUTE = DAY := rfl
  have hnarrow : narrow f (scan f start i).previous (start + i * DAY) (24 * 60) = c := by
    refine narrow_eq hc (by rw [hday]; exact hc') ?_ hbefore fun x hx hx' => ?_
    · simp only [DAY, MINUTE] at *
      omega
    · rw [hday] at hx'
      rw [hbehind x hx hx']
      exact hb
  rw [scan, scanDay, hend, hnarrow, if_pos hb]

theorem exists_day (h : start < c) : ∃ i : ℕ, start + i * DAY < c ∧ c ≤ start + i * DAY + DAY := by
  refine ⟨((c - start - 1) / DAY).toNat, ?_⟩
  simp only [DAY, MINUTE]
  omega

/-- The scan of what changes twice, there and back, until a day before the end. -/
theorem scan_twice (hc : start + 2 * DAY ≤ c) (hd : c + 2 * DAY ≤ d) (hend : d + 2 * DAY ≤ start + (i + 1 : ℕ) * DAY)
    (hwhole : (c - start) % MINUTE = 0 ∧ (d - start) % MINUTE = 0) (hbefore : ∀ x, start ≤ x → x < c → f x = a)
    (hbetween : ∀ x, c ≤ x → x < d → f x = b) (hbehind : ∀ x, d ≤ x → x < start + (i + 1 : ℕ) * DAY → f x = a) (hab : b ≠ a) :
    scan f start i = ⟨a, [⟨c, a, b⟩, ⟨d, b, a⟩]⟩ := by
  have hday : DAY = 86400000 := rfl
  obtain ⟨j, hj, hj'⟩ := @exists_day c start (by omega)
  obtain ⟨k, hk, hk'⟩ := @exists_day d start (by omega)
  simp only [hday] at hc hd hend hbehind hj hj' hk hk'
  have hstart : scan f start 0 = ⟨a, []⟩ := by rw [scan, hbefore start le_rfl (by omega)]
  have hfirst : scan f start j = ⟨a, []⟩ := by
    rw [scan_quiet (Nat.zero_le j), hstart]
    intro l _ hl
    rw [hstart, hday]
    exact hbefore _ (by omega) (by omega)
  have hthere : scan f start (j + 1) = ⟨b, [⟨c, a, b⟩]⟩ := by
    rw [@scan_change f b c start j hj hj' hwhole.1, hfirst]
    · rfl
    · rw [hfirst]
      exact fun x hx hx' => hbefore x (by rw [hday] at hx; omega) hx'
    · exact fun x hx hx' => hbetween x hx (by rw [hday] at hx'; omega)
    · rw [hfirst]
      exact hab
  have hsecond : scan f start k = ⟨b, [⟨c, a, b⟩]⟩ := by
    rw [@scan_quiet f start (j + 1) k (by omega), hthere]
    intro l hl hl'
    rw [hthere, hday]
    exact hbetween _ (by omega) (by omega)
  have hback : scan f start (k + 1) = ⟨a, [⟨c, a, b⟩, ⟨d, b, a⟩]⟩ := by
    rw [@scan_change f a d start k hk hk' hwhole.2, hsecond]
    · rfl
    · rw [hsecond]
      exact fun x hx hx' => hbetween x (by rw [hday] at hx; omega) hx'
    · exact fun x hx hx' => hbehind x hx (by rw [hday] at hx'; omega)
    · rw [hsecond]
      exact hab.symm
  rw [@scan_quiet f start (k + 1) i (by omega), hback]
  intro l hl hl'
  rw [hback, hday]
  exact hbehind _ (by omega) (by omega)

/-! ### Reading the string -/

theorem isNameChar_of_isDigit {c : Char} (h : c.isDigit = true) : PosixTz.isNameChar c = true := by
  rw [PosixTz.isNameChar, Char.isAlphanum, h, Bool.or_true, Bool.true_or, Bool.true_or]

theorem two_le_length_pad (n : ℕ) : 2 ≤ (pad n).length := by
  rw [pad]
  split_ifs with hdigit
  · exact Nat.succ_le_succ (List.length_pos_iff.mpr Nat.toDigits_ne_nil)
  · by_contra hshort
    exact hdigit ((PosixTz.length_decimal_le_iff Nat.one_pos).mp (Nat.lt_succ_iff.mp (not_le.mp hshort)))

theorem name_posixName (o : ℤ) (rest : Text) : name (posixName o ++ rest) = some rest := by
  have hspell : posixName o ++ rest = '<' :: ((if o < 0 then '-' else '+') :: pad (o.natAbs / 60) ++
      (if o.natAbs % 60 ≠ 0 then pad (o.natAbs % 60) else [])) ++ '>' :: rest := by
    simp only [posixName, List.append_assoc, List.cons_append, List.nil_append]
  rw [hspell]
  refine PosixTz.name_quoted (fun c hc => ?_) ?_
  · rcases List.mem_append.mp hc with hc | hc
    · rcases List.mem_cons.mp hc with rfl | hc
      · split_ifs <;> decide
      · exact isNameChar_of_isDigit (PosixTz.isDigit_of_mem_pad hc)
    · split_ifs at hc
      · exact isNameChar_of_isDigit (PosixTz.isDigit_of_mem_pad hc)
      · exact absurd hc List.not_mem_nil
  · have hhours := two_le_length_pad (o.natAbs / 60)
    rw [List.length_append, List.length_cons]
    omega

/-- A clock time begins with a digit. -/
theorem hhmm_eq_cons (hours minutes : ℕ) : ∃ c s, hhmm hours minutes = c :: s ∧ c.isDigit = true := by
  obtain ⟨c, s, hdecimal⟩ := List.exists_cons_of_ne_nil (show decimal hours ≠ [] from Nat.toDigits_ne_nil)
  refine ⟨c, s ++ _, by rw [hhmm, hdecimal, List.cons_append], ?_⟩
  exact PosixTz.isDigit_of_mem_decimal (n := hours) (by rw [hdecimal]; exact List.mem_cons_self)

theorem offset_of_isDigit {c : Char} {s : Text} (h : c.isDigit = true) :
    offset (c :: s) = (clock (c :: s)).map fun p => (-p.1, p.2) := by
  unfold offset
  split
  · next heq =>
    obtain ⟨rfl, -⟩ := List.cons.inj heq
    exact absurd h (by decide)
  · next heq =>
    obtain ⟨rfl, -⟩ := List.cons.inj heq
    exact absurd h (by decide)
  · rfl

theorem offset_posixOffset (ho : o.natAbs < 1440) (hrest : EndsClock rest) :
    offset (posixOffset o ++ rest) = some (o * 60, rest) := by
  have hclock := @PosixTz.clock_hhmm rest (o.natAbs / 60) (o.natAbs % 60) (by omega) (by omega) hrest
  simp only [posixOffset]
  split_ifs with hpos
  · rw [List.cons_append, List.nil_append, List.cons_append, offset, hclock]
    simp only [Option.some.injEq, Prod.mk.injEq, and_true]
    omega
  · obtain ⟨c, s, hhead, hdigit⟩ := hhmm_eq_cons (o.natAbs / 60) (o.natAbs % 60)
    rw [hhead] at hclock
    rw [hhead, List.nil_append, List.cons_append, offset_of_isDigit hdigit, ← List.cons_append, hclock]
    simp only [Option.map_some, Option.some.injEq, Prod.mk.injEq, and_true]
    omega

theorem endsClock_cons {c : Char} (hdigit : c.isDigit = false) (hcolon : c ≠ ':') (rest : Text) : EndsClock (c :: rest) :=
  ⟨by simp [StopsAt, hdigit], fun h => hcolon (Option.some.inj h)⟩

theorem endsClock_nil : EndsClock [] := ⟨rfl, by simp⟩

theorem parse_fixed (ho : o.natAbs < 1440) : parse (fixed o) = some ⟨o * 60, none⟩ := by
  have hoffset := offset_posixOffset ho endsClock_nil
  rw [List.append_nil] at hoffset
  simp only [parse, fixed, name_posixName, Option.bind_eq_bind, Option.bind_some, hoffset, if_true]

/-- What is read of a rule. -/
def ruleOf (t : Transition) : Rule :=
  let wall := t.time + t.before * MINUTE
  let part := fieldsOf wall
  let daysInMonth := (dateOf (utc part.year part.month 0 0 0 0)).day
  let week := if part.day + 7 > daysInMonth then 5 else (part.day + 6) / 7
  ⟨part.month.toNat, week.toNat, (weekday (wall / msPerDay)).toNat, part.hour.toNat * 3600 + part.minute.toNat * 60⟩

theorem rule_posixRule (t : Transition) (hrest : EndsClock rest) :
    rule (',' :: (posixRule t ++ rest)) = some (ruleOf t, rest) := by
  show rule (',' :: posixRule t ++ rest) = some (ruleOf t, rest)
  obtain ⟨wall, hwall⟩ : ∃ wall, wall = t.time + t.before * MINUTE := ⟨_, rfl⟩
  have hmonth := (dateOf wall).month_mem
  have hday := (dateOf wall).day_mem
  have hlast : (dateOf (utc (fieldsOf wall).year (fieldsOf wall).month 0 0 0 0)).day ≤ 31 :=
    le_trans (dateOf _).day_mem.2 (Calendar.daysInMonth_bounds _ _).2
  simp only [posixRule, ruleOf, ← hwall]
  refine PosixTz.rule_written ?_ ?_ ?_ ?_ ?_ hrest
  · simp only [fieldsOf]
    omega
  · have hfields : (fieldsOf wall).day = (dateOf wall).day := rfl
    split_ifs <;> omega
  · simp only [weekday]
    omega
  · simp only [fieldsOf, msPerDay]
    omega
  · simp only [fieldsOf]
    omega

theorem head?_posixOffset (o : ℤ) (rest : Text) : (posixOffset o ++ rest).head? ≠ some ',' := by
  obtain ⟨c, s, hhead, hdigit⟩ := hhmm_eq_cons (o.natAbs / 60) (o.natAbs % 60)
  simp only [posixOffset, hhead]
  split_ifs
  · simp
  · rw [List.nil_append, List.cons_append, List.head?_cons, ne_eq, Option.some.injEq]
    rintro rfl
    exact absurd hdigit (by decide)

theorem parse_rules (ho : o.natAbs < 1440) (ho' : o'.natAbs < 1440) (t t' : Transition) :
    parse (fixed o ++ fixed o' ++ ',' :: posixRule t ++ ',' :: posixRule t') =
      some ⟨o * 60, some (o' * 60, ruleOf t, ruleOf t')⟩ := by
  have hcomma : ∀ s, EndsClock (',' :: s) := endsClock_cons (by decide) (by decide)
  have hname : ∀ s, EndsClock (posixName o' ++ s) := endsClock_cons (by decide) (by decide)
  have hspell : fixed o ++ fixed o' ++ ',' :: posixRule t ++ ',' :: posixRule t' =
      posixName o ++ (posixOffset o ++ (posixName o' ++ (posixOffset o' ++ ',' :: (posixRule t ++ ',' :: posixRule t')))) := by
    simp only [fixed, List.append_assoc, List.cons_append]
  have hlast := rule_posixRule t' endsClock_nil
  rw [List.append_nil] at hlast
  have hne : posixName o' ++ (posixOffset o' ++ ',' :: (posixRule t ++ ',' :: posixRule t')) ≠ [] := List.cons_ne_nil _ _
  simp only [hspell, parse, name_posixName, Option.bind_eq_bind, Option.bind_some, offset_posixOffset ho (hname _),
    if_neg hne, if_neg (head?_posixOffset o' _), offset_posixOffset ho' (hcomma _), rule_posixRule t (hcomma _), hlast,
    if_true]

/-- **A rule is the minute of its change** in the year that the change is in. -/
theorem ruleOf_at (htime : t.time % MINUTE = 0) (hy : 100 ≤ y)
    (hyear : (dateOf (t.time + t.before * MINUTE)).year = y) : (ruleOf t).at y = t.time / 1000 + t.before * 60 := by
  obtain ⟨wall, hwall⟩ : ∃ wall, wall = t.time + t.before * MINUTE := ⟨_, rfl⟩
  have hsecond : t.time / 1000 + t.before * 60 = wall / 1000 ∧ wall % 60000 = 0 := by
    simp only [hwall, MINUTE] at *
    omega
  rw [← hwall] at hyear
  have hmonth := (dateOf wall).month_mem
  have hday := (dateOf wall).day_mem
  have hdays : dayNumber (dateOf wall).year (dateOf wall).month (dateOf wall).day = wall / msPerDay := Date.toDays_ofDays _
  have hlast : (dateOf (utc (fieldsOf wall).year (fieldsOf wall).month 0 0 0 0)).day =
      daysInMonth (isLeap (dateOf wall).year) (dateOf wall).month := day_last (dateOf wall) (by omega)
  have hweek := nthWeekday_nthOf hday.1 hday.2
  rw [nthOf, hdays] at hweek
  obtain ⟨week, hw⟩ : ∃ week, week = if (fieldsOf wall).day + 7 > daysInMonth (isLeap (dateOf wall).year) (dateOf wall).month
    then 5 else ((fieldsOf wall).day + 6) / 7 := ⟨_, rfl⟩
  have hweekday : weekday (wall / msPerDay) = ((weekday (wall / msPerDay)).toNat : ℤ) := by
    simp only [weekday]
    omega
  have hmonths : (dateOf wall).month = ((fieldsOf wall).month.toNat : ℤ) := (Int.toNat_of_nonneg (by omega)).symm
  have hweeks : week = (week.toNat : ℤ) := by
    have hfields : (fieldsOf wall).day = (dateOf wall).day := rfl
    refine (Int.toNat_of_nonneg ?_).symm
    rw [hw]
    split_ifs <;> omega
  have hfound : nthWeekday (dateOf wall).year ((fieldsOf wall).month.toNat : ℤ) (week.toNat : ℤ)
      ((weekday (wall / msPerDay)).toNat : ℤ) = (dateOf wall).day := by
    rw [← hweekday, ← hmonths, ← hweeks, hw]
    exact hweek
  have hrule : ruleOf t = ⟨(fieldsOf wall).month.toNat, week.toNat, (weekday (wall / msPerDay)).toNat,
      (fieldsOf wall).hour.toNat * 3600 + (fieldsOf wall).minute.toNat * 60⟩ := by
    simp only [ruleOf, ← hwall, hlast, ← hw]
  rw [hrule, Rule.at, ← hyear, hfound, ← hmonths, hdays, hsecond.1]
  simp only [fieldsOf, msPerDay]
  omega

/-- What a string means in a second since the epoch, if it can be read. -/
def evaluate (s : Option Text) (x : ℤ) : Option ℤ := (s.bind parse).map (·.offset x)

theorem evaluate_fixed (ho : o.natAbs < 1440) (x : ℤ) : evaluate (some (fixed o)) x = some (o * 60) := by
  rw [evaluate, Option.bind_some, parse_fixed ho]
  rfl

/-! ### A year -/

/-- The first second of a year in UTC. -/
def yearStart (y : ℤ) : ℤ := daysBeforeYear y * 86400

/-- The zone has one offset in a year. -/
def ConstantIn (zone : Zone) (y : ℤ) : Prop := ∀ x, yearStart y ≤ x → x < yearStart (y + 1) → zone x = zone (yearStart y)

/-- In a year the zone changes in two seconds only, there and back: at whole minutes, two days at least from one
another and from both ends of the year. -/
structure ChangesTwice (zone : Zone) (y c d : ℤ) : Prop where
  whole : c % 60 = 0 ∧ d % 60 = 0
  apart : yearStart y + 172800 ≤ c ∧ c + 172800 ≤ d ∧ d + 172800 ≤ yearStart (y + 1)
  before : ∀ x, yearStart y ≤ x → x < c → zone x = zone (yearStart y)
  between : ∀ x, c ≤ x → x < d → zone x = zone c
  behind : ∀ x, d ≤ x → x < yearStart (y + 1) → zone x = zone (yearStart y)
  there : zone c ≠ zone (yearStart y)

theorem yearOf_eq {x : ℤ} (h : yearStart y ≤ x) (h' : x < yearStart (y + 1)) : yearOfDays (x / 86400) = y := by
  rw [yearOfDays_eq_iff]
  rw [yearStart] at h h'
  omega

theorem yearStart_nonneg (hy : 1970 ≤ y) : 0 ≤ yearStart y := by
  have hepoch := Calendar.daysBeforeYear_nonneg hy
  rw [yearStart]
  omega

/-- Now is in its year. -/
theorem Clock.mem_year (now : Clock) :
    yearStart (dateOf now.time).year ≤ now.time / 1000 ∧ now.time / 1000 < yearStart ((dateOf now.time).year + 1) := by
  have hspec := yearOfDays_spec (now.time / msPerDay)
  rw [show (dateOf now.time).year = yearOfDays (now.time / msPerDay) from rfl]
  simp only [yearStart, msPerDay] at *
  omega

/-- The string is that of the scan of all days of the year. -/
theorem zoneRules_eq (hzone : WholeMinutes zone) (now : Clock) :
    ∃ n : ℕ, yearStart (dateOf now.time).year * 1000 + (n + 1 : ℕ) * DAY = yearStart ((dateOf now.time).year + 1) * 1000 ∧
      zoneRules zone now.time = stringOf (zone (now.time / 1000) / 60)
        (scan (offsetAt zone) (yearStart (dateOf now.time).year * 1000) (n + 1)).transitions := by
  have hyear := now.le_year
  have hlength : 365 ≤ daysInYear (dateOf now.time).year := by
    rw [daysInYear]
    split_ifs <;> decide
  have hnext := daysBeforeYear_succ (dateOf now.time).year
  have hstart : utc (dateOf now.time).year 0 1 0 0 0 = yearStart (dateOf now.time).year * 1000 := by
    rw [utc_newYear (by omega), yearStart, msPerDay]
    omega
  have hstop : utc ((dateOf now.time).year + 1) 0 1 0 0 0 = yearStart ((dateOf now.time).year + 1) * 1000 := by
    rw [utc_newYear (by omega), yearStart, msPerDay]
    omega
  refine ⟨(daysInYear (dateOf now.time).year).toNat - 1, ?_, ?_⟩
  · simp only [yearStart, DAY, MINUTE]
    omega
  · have hdays : ((utc ((dateOf now.time).year + 1) 0 1 0 0 0 - utc (dateOf now.time).year 0 1 0 0 0) / DAY).toNat =
        (daysInYear (dateOf now.time).year).toNat - 1 + 1 := by
      rw [hstart, hstop]
      simp only [yearStart, DAY, MINUTE]
      omega
    rw [zoneRules]
    simp only [hdays]
    rw [hstart, offsetAt_eq hzone now.since]

theorem stringOf_of_length {l : List Transition} (h : l.length ≠ 2) : stringOf atNow l = fixed atNow := by
  unfold stringOf
  split
  · exact absurd rfl h
  · rfl

/-- What the zone is ahead of UTC where it is known. -/
theorem offsetAt_of {x : ℤ} (hzone : WholeMinutes zone) (hy : 1970 ≤ y) (hx : yearStart y * 1000 ≤ x)
    (h : zone (x / 1000) = a) : offsetAt zone x = a / 60 := by
  have hstart := yearStart_nonneg hy
  rw [offsetAt_eq hzone (by omega), h]

/-- A zone of one offset in the year is told as one, even if it changes as the year ends. -/
theorem zoneRules_constant (hzone : WholeMinutes zone) (now : Clock) (h : ConstantIn zone (dateOf now.time).year) :
    zoneRules zone now.time = fixed (zone (now.time / 1000) / 60) := by
  obtain ⟨n, hn, hrules⟩ := zoneRules_eq hzone now
  have hyear := now.le_year
  have hsame : ∀ x, yearStart (dateOf now.time).year * 1000 ≤ x → x < yearStart ((dateOf now.time).year + 1) * 1000 →
      offsetAt zone x = zone (yearStart (dateOf now.time).year) / 60 := fun x hx hx' =>
    offsetAt_of hzone hyear hx (h _ (by omega) (by omega))
  have hday : DAY = 86400000 := rfl
  have hquiet : scan (offsetAt zone) (yearStart (dateOf now.time).year * 1000) n =
      ⟨zone (yearStart (dateOf now.time).year) / 60, []⟩ := by
    have hfirst : scan (offsetAt zone) (yearStart (dateOf now.time).year * 1000) 0 =
        ⟨zone (yearStart (dateOf now.time).year) / 60, []⟩ := by
      rw [scan, hsame _ le_rfl (by rw [hday] at hn; omega)]
    rw [scan_quiet (Nat.zero_le n), hfirst]
    intro k _ hk
    rw [hfirst]
    exact hsame _ (by rw [hday]; omega) (by rw [hday] at hn ⊢; omega)
  rw [hrules, stringOf_of_length]
  rw [scan, hquiet, scanDay]
  split_ifs <;> simp

/-- What the scan has found a day before the end of a year with two changes. -/
theorem scan_changesTwice {n : ℕ} (hzone : WholeMinutes zone) (hy : 1970 ≤ y) (h : ChangesTwice zone y c d)
    (hn : yearStart y * 1000 + (n + 1 : ℕ) * DAY = yearStart (y + 1) * 1000) :
    scan (offsetAt zone) (yearStart y * 1000) n = ⟨zone (yearStart y) / 60,
      [⟨c * 1000, zone (yearStart y) / 60, zone c / 60⟩, ⟨d * 1000, zone c / 60, zone (yearStart y) / 60⟩]⟩ := by
  have hapart := h.apart
  have hwhole := h.whole
  have hthere := h.there
  have hc := hzone.whole c
  have hstart := hzone.whole (yearStart y)
  have hdays : yearStart y = daysBeforeYear y * 86400 := rfl
  apply scan_twice
  · simp only [DAY, MINUTE]
    omega
  · simp only [DAY, MINUTE]
    omega
  · rw [hn]
    simp only [DAY, MINUTE]
    omega
  · simp only [MINUTE]
    omega
  · exact fun x hx hx' => offsetAt_of hzone hy hx (h.before _ (by omega) (by omega))
  · exact fun x hx hx' => offsetAt_of hzone hy (by omega) (h.between _ (by omega) (by omega))
  · exact fun x hx hx' => offsetAt_of hzone hy (by omega) (h.behind _ (by omega) (by rw [hn] at hx'; omega))
  · omega

/-- The last day of the scan: it has a third change if the zone changes as the year ends. -/
theorem scan_end {n : ℕ} (hzone : WholeMinutes zone) (hy : 1970 ≤ y) (h : ChangesTwice zone y c d)
    (hn : yearStart y * 1000 + (n + 1 : ℕ) * DAY = yearStart (y + 1) * 1000) :
    (ChangesAt zone (yearStart (y + 1)) → (scan (offsetAt zone) (yearStart y * 1000) (n + 1)).transitions.length = 3) ∧
      (¬ChangesAt zone (yearStart (y + 1)) → (scan (offsetAt zone) (yearStart y * 1000) (n + 1)).transitions =
        [⟨c * 1000, zone (yearStart y) / 60, zone c / 60⟩, ⟨d * 1000, zone c / 60, zone (yearStart y) / 60⟩]) := by
  have hstart := yearStart_nonneg hy
  have hapart := h.apart
  have hbefore : zone (yearStart (y + 1) - 1) = zone (yearStart y) := h.behind _ (by omega) (by omega)
  have hlast : offsetAt zone (yearStart y * 1000 + n * DAY + DAY) = zone (yearStart (y + 1)) / 60 := by
    have htime : yearStart y * 1000 + n * DAY + DAY = yearStart (y + 1) * 1000 := by
      rw [← hn]
      simp only [DAY, MINUTE]
      omega
    rw [htime]
    exact offsetAt_of hzone hy (by omega) (congrArg zone (Int.mul_ediv_cancel _ (by decide)))
  have hwhole := hzone.whole (yearStart y)
  have hwhole' := hzone.whole (yearStart (y + 1))
  rw [scan, scan_changesTwice hzone hy h hn, scanDay, hlast, ChangesAt, hbefore]
  constructor
  · intro hchange
    have hthird : zone (yearStart (y + 1)) / 60 ≠ zone (yearStart y) / 60 := by omega
    exact congrArg (fun s : Scan => s.transitions.length) (if_pos hthird)
  · intro hquiet
    have hsame : ¬zone (yearStart (y + 1)) / 60 ≠ zone (yearStart y) / 60 := by rw [not_not.mp hquiet, not_not]
    exact congrArg Scan.transitions (if_neg hsame)

/-- A change as the year ends is a third one, and the string is that of one offset. -/
theorem zoneRules_third (hzone : WholeMinutes zone) (now : Clock) (h : ChangesTwice zone (dateOf now.time).year c d)
    (hend : ChangesAt zone (yearStart ((dateOf now.time).year + 1))) :
    zoneRules zone now.time = fixed (zone (now.time / 1000) / 60) := by
  obtain ⟨n, hn, hrules⟩ := zoneRules_eq hzone now
  have hthree := (scan_end hzone now.le_year h hn).1 hend
  rw [hrules, stringOf_of_length (by omega)]

/-- The string of two changes, there and back. -/
theorem stringOf_pair (hab : a ≠ b) :
    stringOf atNow [⟨c, a, b⟩, ⟨d, b, a⟩] =
      if a < b then fixed a ++ fixed b ++ ',' :: posixRule ⟨c, a, b⟩ ++ ',' :: posixRule ⟨d, b, a⟩
      else fixed b ++ fixed a ++ ',' :: posixRule ⟨d, b, a⟩ ++ ',' :: posixRule ⟨c, a, b⟩ := by
  unfold stringOf
  split_ifs with hlt
  · simp only [min_eq_left hlt.le, max_eq_right hlt.le, List.find?_cons, decide_true, decide_eq_false hab.symm]
  · have hlt' : b < a := by omega
    simp only [min_eq_right hlt'.le, max_eq_left hlt'.le, List.find?_cons, decide_true, decide_eq_false hab.symm]

/-- The local minute of a change is in its year, two days from both ends. -/
theorem ruleOf_change (hzone : WholeMinutes zone) (hy : 1970 ≤ y) (hwhole : c % 60 = 0)
    (hc : yearStart y + 172800 ≤ c) (hc' : c + 172800 ≤ yearStart (y + 1)) (x o : ℤ) :
    (ruleOf ⟨c * 1000, zone x / 60, o⟩).at y = c + zone x := by
  have hx := hzone.whole x
  have hbounded := hzone.bounded x
  rw [ruleOf_at (y := y)]
  · simp only
    omega
  · simp only [MINUTE]
    omega
  · omega
  · have hyear := @yearOf_eq y (c + zone x) (by omega) (by omega)
    rw [← hyear]
    show yearOfDays _ = yearOfDays _
    congr 1
    simp only [MINUTE, msPerDay]
    omega

/-- The offset by two rules, there and back. -/
theorem offset_of_rules {tz : Tz} {std dst x : ℤ} {r r' : Rule} (htz : tz = ⟨std, some (dst, r, r')⟩)
    (hx : yearOfDays (x / 86400) = y) (hr : r.at y = c + std) (hr' : r'.at y = d + dst) :
    tz.offset x = if c < d then if c ≤ x ∧ x < d then dst else std else if d ≤ x ∧ x < c then std else dst := by
  rw [htz, Tz.offset]
  simp only [hx, hr, hr', Int.add_sub_cancel]

/-- The string of a zone that changes twice means the zone. -/
theorem evaluate_twice (hzone : WholeMinutes zone) (now : Clock) (h : ChangesTwice zone (dateOf now.time).year c d)
    (hend : ¬ChangesAt zone (yearStart ((dateOf now.time).year + 1))) {x : ℤ} (hx : yearStart (dateOf now.time).year ≤ x)
    (hx' : x < yearStart ((dateOf now.time).year + 1)) : evaluate (some (zoneRules zone now.time)) x = some (zone x) := by
  obtain ⟨n, hn, hrules⟩ := zoneRules_eq hzone now
  obtain ⟨hc, hcd, hd⟩ := h.apart
  have hstd := hzone.bounded (yearStart (dateOf now.time).year)
  have hstd' := hzone.whole (yearStart (dateOf now.time).year)
  have hdst := hzone.bounded c
  have hdst' := hzone.whole c
  have hthere := h.there
  have hyear := yearOf_eq hx hx'
  have hfirst := ruleOf_change hzone now.le_year h.whole.1 hc (by omega) (yearStart (dateOf now.time).year) (zone c / 60)
  have hsecond := ruleOf_change hzone now.le_year h.whole.2 (by omega) hd c (zone (yearStart (dateOf now.time).year) / 60)
  have hvalue : zone x = if c ≤ x ∧ x < d then zone c else zone (yearStart (dateOf now.time).year) := by
    split_ifs with hmid
    · exact h.between x hmid.1 hmid.2
    · rcases lt_or_ge x c with hxc | hxc
      · exact h.before x hx hxc
      · exact h.behind x (not_lt.mp fun hxd => hmid ⟨hxc, hxd⟩) hx'
  rw [hrules, (scan_end hzone now.le_year h hn).2 hend, stringOf_pair (by omega), evaluate, Option.bind_some]
  split_ifs with hlt
  · rw [parse_rules (by omega) (by omega), Option.map_some,
      offset_of_rules rfl hyear (c := c) (d := d) (by rw [hfirst]; omega) (by rw [hsecond]; omega), hvalue, if_pos (by omega)]
    split_ifs <;> congr 1 <;> omega
  · rw [parse_rules (by omega) (by omega), Option.map_some,
      offset_of_rules rfl hyear (c := d) (d := c) (by rw [hsecond]; omega) (by rw [hfirst]; omega), hvalue, if_neg (by omega)]
    split_ifs <;> congr 1 <;> omega

theorem parse_utc : parse "UTC0".toList = some ⟨0, none⟩ := by decide

/-- More than a day from both ends of the year, the local date is in the year as well. -/
theorem local_year (hzone : WholeMinutes zone) {x : ℤ} (hx : yearStart y + 86400 ≤ x) (hx' : x + 86400 ≤ yearStart (y + 1)) :
    yearOfDays ((x + zone x) / 86400) = y := by
  have hbounded := hzone.bounded x
  exact yearOf_eq (by omega) (by omega)

/-- **The string means the zone** in every minute of the year whose local date is in the year, if the zone has one
offset in the year or does not change as the year ends. -/
theorem posixTimeZone_means {zones : Str → Option Zone} {timeZone : Str} (hname : zones timeZone = some zone)
    (hutc : isUtc timeZone → ∀ x, zone x = 0) (hzone : WholeMinutes zone) (now : Clock)
    (hyear : ConstantIn zone (dateOf now.time).year ∨ ∃ c d, ChangesTwice zone (dateOf now.time).year c d) :
    (∀ x, x % 60 = 0 → yearStart (dateOf now.time).year ≤ x → x < yearStart ((dateOf now.time).year + 1) →
        yearOfDays ((x + zone x) / 86400) = (dateOf now.time).year →
        evaluate (posixTimeZone zones timeZone now.time) x = some (zone x)) ↔
      ConstantIn zone (dateOf now.time).year ∨ ¬ChangesAt zone (yearStart ((dateOf now.time).year + 1)) := by
  rw [posixTimeZone]
  split_ifs with hut
  · have hzero := hutc hut
    refine ⟨fun _ => .inl fun x _ _ => by rw [hzero, hzero], fun _ x _ _ _ _ => ?_⟩
    rw [hzero, evaluate, Option.bind_some, parse_utc]
    rfl
  rw [hname, Option.map_some]
  have hwhole := hzone.whole (now.time / 1000)
  have hbounded := hzone.bounded (now.time / 1000)
  constructor
  · intro hmeans
    by_contra hneither
    rw [not_or, not_not] at hneither
    obtain ⟨c, d, h⟩ := hyear.resolve_left hneither.1
    obtain ⟨hc, hcd, hd⟩ := h.apart
    have hthere := hmeans c h.whole.1 (by omega) (by omega) (local_year hzone (by omega) (by omega))
    have hbefore := hmeans (c - 60) (by have := h.whole.1; omega) (by omega) (by omega) (local_year hzone (by omega) (by omega))
    rw [zoneRules_third hzone now h hneither.2, evaluate_fixed (by omega)] at hthere hbefore
    rw [hthere, h.before (c - 60) (by omega) (by omega)] at hbefore
    exact h.there (Option.some.inj hbefore)
  · intro h x hminute hx hx' hlocal
    by_cases hconstant : ConstantIn zone (dateOf now.time).year
    · rw [zoneRules_constant hzone now hconstant, evaluate_fixed (by omega), hconstant x hx hx',
        hconstant _ now.mem_year.1 now.mem_year.2]
      have hstart := hzone.whole (yearStart (dateOf now.time).year)
      congr 1
      omega
    · obtain ⟨c, d, htwice⟩ := hyear.resolve_left hconstant
      exact evaluate_twice hzone now htwice (h.resolve_left hconstant) hx hx'

/-! ### A zone as the year ends -/

/-- An hour ahead of UTC, two hours from 29 March to 25 October 2026. -/
def summer : Zone := fun x => if 1774746000 ≤ x ∧ x < 1792890000 then 7200 else 3600

/-- The same, but two hours ahead for good from 1 January 2027, 0:00 UTC. -/
def moved : Zone := fun x => if x < 1798761600 then summer x else 7200

/-- 1 July 2026, 12:00 UTC. -/
def july : Clock := ⟨1782907200000, by decide, by decide⟩

theorem summer_whole : WholeMinutes summer where
  whole x := by
    rw [summer]
    split_ifs <;> decide
  bounded x := by
    rw [summer]
    split_ifs <;> decide

theorem moved_whole : WholeMinutes moved where
  whole x := by
    rw [moved]
    split_ifs
    · exact summer_whole.whole x
    · decide
  bounded x := by
    rw [moved]
    split_ifs
    · exact summer_whole.bounded x
    · decide

theorem summer_changesTwice : ChangesTwice summer 2026 1774746000 1792890000 := by
  have hstart : yearStart 2026 = 1767225600 := by decide
  have hend : yearStart (2026 + 1) = 1798761600 := by decide
  refine ⟨by decide, by decide, fun x hx hx' => ?_, fun x hx hx' => ?_, fun x hx hx' => ?_, by decide⟩ <;>
    simp only [hstart, summer] at * <;> split_ifs <;> omega

theorem moved_changesTwice : ChangesTwice moved 2026 1774746000 1792890000 := by
  have hstart : yearStart 2026 = 1767225600 := by decide
  have hend : yearStart (2026 + 1) = 1798761600 := by decide
  refine ⟨by decide, by decide, fun x hx hx' => ?_, fun x hx hx' => ?_, fun x hx hx' => ?_, by decide⟩ <;>
    simp only [hstart, hend, moved, summer] at * <;> split_ifs <;> omega

theorem posixTimeZone_means_summer :
    evaluate (posixTimeZone (fun _ => some summer) (ascii "Europe/Berlin".toList) july.time) 1782907200 = some 7200 :=
  (@posixTimeZone_means summer (fun _ => some summer) _ rfl (fun h => absurd h (by decide)) summer_whole july
    (.inr ⟨_, _, summer_changesTwice⟩)).mpr (.inr (by decide)) 1782907200 (by decide) (by decide) (by decide) (by decide)

/-- The zone that moves as the year ends is told as two hours ahead for the whole year, though it is one hour
ahead in winter. -/
theorem posixTimeZone_moved :
    WholeMinutes moved ∧ ChangesTwice moved 2026 1774746000 1792890000 ∧
      posixTimeZone (fun _ => some moved) (ascii "Europe/Berlin".toList) july.time = some "<+02>-2".toList ∧
      yearOfDays ((1768478400 + moved 1768478400) / 86400) = 2026 ∧
      evaluate (some "<+02>-2".toList) 1768478400 = some 7200 ∧ moved 1768478400 = 3600 := by
  refine ⟨moved_whole, moved_changesTwice, ?_, by decide, by decide, by decide⟩
  have hrules := zoneRules_third moved_whole july moved_changesTwice (by decide)
  rw [posixTimeZone, if_neg (by decide), Option.map_some, hrules]
  decide

end OpenshiftConsole.Terminal.TimeZone
