import Mathlib.Algebra.Group.Nat.Defs
import Mathlib.Data.List.TakeWhile
import OpenshiftConsole.Library.Calendar
import OpenshiftConsole.Library.Lines

/-!
# The `TZ` strings of POSIX

`std offset` is a zone of one offset, `std offset dst offset,start,end` one with another offset for a part of the
year. Of the forms of a day, only that of a weekday of a month is here: `Mm.w.d`. Offsets count westwards, and a
change is told in the local time before it. `Tz.offset` is how far the zone is ahead of UTC by the rules of
the year that a second is in.

What is read is a text; a reader gives what it read and what is left of the text.
-/

namespace OpenshiftConsole.Library.PosixTz

open Calendar Lines

/-! ### What a string means -/

/-- `Mm.w.d/time`: the weekday `d` in the week `w` of a month, the fifth being the last, at a time of the day. -/
structure Rule where
  month : ℕ
  week : ℕ
  weekday : ℕ
  time : ℤ
deriving DecidableEq

/-- A zone's offset, and what there is of another one: that offset, its start and its end. -/
structure Tz where
  std : ℤ
  dst : Option (ℤ × Rule × Rule)
deriving DecidableEq

/-- The local second of a change in a year. -/
def Rule.at (r : Rule) (year : ℤ) : ℤ :=
  dayNumber year r.month (nthWeekday year r.month r.week r.weekday) * 86400 + r.time

/-- How far the zone is ahead of UTC in a second since the epoch. -/
def Tz.offset (tz : Tz) (t : ℤ) : ℤ :=
  match tz.dst with
  | none => tz.std
  | some (dst, start, stop) =>
    let begins := start.at (yearOfDays (t / 86400)) - tz.std
    let ends := stop.at (yearOfDays (t / 86400)) - dst
    if begins < ends then if begins ≤ t ∧ t < ends then dst else tz.std
    else if ends ≤ t ∧ t < begins then tz.std else dst

/-! ### Reading -/

/-- The digits that a text begins with. -/
def number (s : Text) : Option (ℕ × Text) :=
  let digits := s.takeWhile Char.isDigit
  if digits = [] then none else some (Nat.ofDigitChars 10 digits 0, s.dropWhile Char.isDigit)

/-- What a quoted name is made of. -/
def isNameChar (c : Char) : Bool := c.isAlphanum || c = '+' || c = '-'

/-- A name, of three characters at least: letters, or anything that names are made of in angle brackets. -/
def name : Text → Option Text
  | '<' :: s =>
    match s.dropWhile isNameChar with
    | '>' :: rest => if 3 ≤ (s.takeWhile isNameChar).length then some rest else none
    | _ => none
  | s => if 3 ≤ (s.takeWhile Char.isAlpha).length then some (s.dropWhile Char.isAlpha) else none

/-- `:mm` or nothing. -/
def sixtieths : Text → Option (ℕ × Text)
  | ':' :: s =>
    match number s with
    | some (n, rest) => if n ≤ 59 then some (n, rest) else none
    | none => none
  | s => some (0, s)

/-- `hh[:mm[:ss]]`, in seconds. -/
def clock (s : Text) : Option (ℤ × Text) := do
  let (hours, s) ← number s
  let (minutes, s) ← sixtieths s
  let (seconds, s) ← sixtieths s
  if hours ≤ 24 then some (hours * 3600 + minutes * 60 + seconds, s) else none

/-- An offset west of UTC, as what the zone is ahead. -/
def offset : Text → Option (ℤ × Text)
  | '-' :: s => clock s
  | '+' :: s => (clock s).map fun p => (-p.1, p.2)
  | s => (clock s).map fun p => (-p.1, p.2)

/-- A character that there must be. -/
def char (c : Char) : Text → Option Text
  | [] => none
  | d :: s => if c = d then some s else none

/-- `,Mm.w.d[/time]`; without a time it is two o'clock. -/
def rule (s : Text) : Option (Rule × Text) := do
  let s ← (char ',' s).bind (char 'M')
  let (month, s) ← number s
  let (week, s) ← (char '.' s).bind number
  let (weekday, s) ← (char '.' s).bind number
  let (time, s) ← if s.head? = some '/' then clock s.tail else some (7200, s)
  if 1 ≤ month ∧ month ≤ 12 ∧ 1 ≤ week ∧ week ≤ 5 ∧ weekday ≤ 6 then some (⟨month, week, weekday, time⟩, s) else none

/-- A whole string; without an offset of its own, the other one is an hour ahead. -/
def parse (s : Text) : Option Tz := do
  let s ← name s
  let (std, s) ← offset s
  if s = [] then some ⟨std, none⟩ else
  let s ← name s
  let (dst, s) ← if s.head? = some ',' then some (std + 3600, s) else offset s
  let (start, s) ← rule s
  let (stop, s) ← rule s
  if s = [] then some ⟨std, some (dst, start, stop)⟩ else none

/-! ### Reading what was written -/

variable {s rest : Text} {n : ℕ} {c : Char}

/-- The text does not go on with a character of a kind. -/
def StopsAt (p : Char → Bool) (rest : Text) : Prop := rest.head?.all (!p ·)

theorem takeWhile_stops {p : Char → Bool} (hs : ∀ c ∈ s, p c = true) (h : StopsAt p rest) :
    (s ++ rest).takeWhile p = s ∧ (s ++ rest).dropWhile p = rest := by
  rw [List.takeWhile_append_of_pos hs, List.dropWhile_append_of_pos hs]
  cases rest with
  | nil => simp
  | cons c rest =>
    have hc : p c = false := by simpa [StopsAt] using h
    simp [hc]

/-- The decimal digits of a number, with a zero before a single one or without. -/
def decimal (n : ℕ) : Text := Nat.toDigits 10 n

def pad (n : ℕ) : Text := if n < 10 then '0' :: decimal n else decimal n

/-- `hh:mm`, or `hh` for a whole hour. -/
def hhmm (hours minutes : ℕ) : Text := decimal hours ++ if minutes ≠ 0 then ':' :: pad minutes else []

theorem length_decimal_le_iff {k : ℕ} (hk : 0 < k) : (decimal n).length ≤ k ↔ n < 10 ^ k :=
  Nat.length_toDigits_le_iff (by decide) hk

theorem isDigit_of_mem_decimal (h : c ∈ decimal n) : c.isDigit = true :=
  Nat.isDigit_of_mem_toDigits (by decide) (by decide) h

theorem isDigit_of_mem_pad (h : c ∈ pad n) : c.isDigit = true := by
  rw [pad] at h
  split_ifs at h
  · rcases List.mem_cons.mp h with rfl | h
    · decide
    · exact isDigit_of_mem_decimal h
  · exact isDigit_of_mem_decimal h

theorem ofDigitChars_pad (n : ℕ) : Nat.ofDigitChars 10 (pad n) 0 = n := by
  rw [pad]
  split_ifs
  · rw [Nat.ofDigitChars_cons]
    exact Nat.ofDigitChars_ten_toDigits
  · exact Nat.ofDigitChars_ten_toDigits

theorem pad_ne_nil (n : ℕ) : pad n ≠ [] := by
  rw [pad]
  split_ifs
  · exact List.cons_ne_nil _ _
  · exact Nat.toDigits_ne_nil

theorem number_digits (hne : s ≠ []) (hs : ∀ c ∈ s, c.isDigit = true) (h : StopsAt Char.isDigit rest) :
    number (s ++ rest) = some (Nat.ofDigitChars 10 s 0, rest) := by
  obtain ⟨htake, hdrop⟩ := takeWhile_stops hs h
  simp only [number, htake, hdrop]
  rw [if_neg hne]

theorem number_decimal (n : ℕ) (h : StopsAt Char.isDigit rest) : number (decimal n ++ rest) = some (n, rest) := by
  rw [number_digits (show decimal n ≠ [] from Nat.toDigits_ne_nil) (fun c => isDigit_of_mem_decimal) h, decimal,
    Nat.ofDigitChars_ten_toDigits]

theorem number_pad (n : ℕ) (h : StopsAt Char.isDigit rest) : number (pad n ++ rest) = some (n, rest) := by
  rw [number_digits (pad_ne_nil n) (fun c => isDigit_of_mem_pad) h, ofDigitChars_pad]

/-- What may come behind a clock time. -/
def EndsClock (rest : Text) : Prop := StopsAt Char.isDigit rest ∧ rest.head? ≠ some ':'

theorem sixtieths_of_ends (h : EndsClock rest) : sixtieths rest = some (0, rest) := by
  rcases rest with - | ⟨c, rest⟩
  · rfl
  · have hc : c ≠ ':' := fun hc => h.2 (congrArg some hc)
    unfold sixtieths
    split
    · next heq => exact absurd (List.cons.inj heq).1 hc
    · rfl

theorem clock_hhmm {hours minutes : ℕ} (hh : hours ≤ 24) (hm : minutes ≤ 59) (h : EndsClock rest) :
    clock (hhmm hours minutes ++ rest) = some ((hours * 3600 + minutes * 60 : ℤ), rest) := by
  have hsixtieths : sixtieths ((if minutes ≠ 0 then ':' :: pad minutes else []) ++ rest) = some (minutes, rest) := by
    split_ifs with hzero
    · rw [List.cons_append, sixtieths, number_pad _ h.1]
      exact if_pos hm
    · rw [not_not.mp hzero]
      exact sixtieths_of_ends h
  have hstop : StopsAt Char.isDigit ((if minutes ≠ 0 then ':' :: pad minutes else []) ++ rest) := by
    split_ifs
    · rfl
    · exact h.1
  rw [hhmm, List.append_assoc, clock, number_decimal hours hstop]
  simp only [Option.bind_eq_bind, Option.bind_some, hsixtieths, sixtieths_of_ends h, if_pos hh]
  simp

/-- A name in angle brackets. -/
theorem name_quoted (hs : ∀ c ∈ s, isNameChar c = true) (hlength : 3 ≤ s.length) :
    name ('<' :: s ++ '>' :: rest) = some rest := by
  have hstop : StopsAt isNameChar ('>' :: rest) := rfl
  obtain ⟨htake, hdrop⟩ := takeWhile_stops hs hstop
  rw [List.cons_append, name, hdrop, htake]
  exact if_pos hlength

theorem rule_written {month week weekday hours minutes : ℕ} (hmonth : 1 ≤ month ∧ month ≤ 12) (hweek : 1 ≤ week ∧ week ≤ 5)
    (hday : weekday ≤ 6) (hh : hours ≤ 24) (hm : minutes ≤ 59) (h : EndsClock rest) :
    rule (',' :: ('M' :: decimal month ++ '.' :: decimal week ++ '.' :: decimal weekday ++ '/' :: hhmm hours minutes) ++ rest) =
      some (⟨month, week, weekday, hours * 3600 + minutes * 60⟩, rest) := by
  have hstop : ∀ t, StopsAt Char.isDigit ('.' :: t) := fun t => rfl
  have hslash : ∀ t, StopsAt Char.isDigit ('/' :: t) := fun t => rfl
  simp only [rule, char, List.cons_append, List.append_assoc, Option.bind_eq_bind, if_true, Option.bind_some,
    number_decimal _ (hstop _), number_decimal _ (hslash _), List.head?_cons, List.tail_cons, clock_hhmm hh hm h]
  exact if_pos ⟨hmonth.1, hmonth.2, hweek.1, hweek.2, hday⟩

end OpenshiftConsole.Library.PosixTz
