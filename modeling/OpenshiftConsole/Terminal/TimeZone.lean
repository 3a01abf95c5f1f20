import OpenshiftConsole.Library.JsDate
import OpenshiftConsole.Library.PosixTz
import OpenshiftConsole.Library.Utf16
import OpenshiftConsole.Logging.LogBuffer

/-!
# The time zone of terminal sessions

A session is told its time zone twice, by its IANA name and by a `TZ` string of POSIX for images without
the data of the zones. The string is made from what `Intl.DateTimeFormat` shows: a day after the other in the
year of `now`, changes of the offset are looked for, and each is narrowed down to its minute.

The shim on a node checks both once more, in C. Its check of names accepts what the console's does
(`isValidTimeZoneName_iff`), and a session's pair passes both of its checks (`sessionTimeZone_valid`).
-/

namespace OpenshiftConsole.Terminal.TimeZone

open OpenshiftConsole.Library OpenshiftConsole.Library.JsDate
open OpenshiftConsole.Library.Calendar (weekday daysInYear)
open OpenshiftConsole.Library.Lines (Text)
open OpenshiftConsole.Library.PosixTz (decimal pad hhmm)
open OpenshiftConsole.Logging (Str)

/-- The code units of ASCII. -/
def ascii (s : Text) : Str := s.map fun c => .ofNat c.toNat

/-! ### The patterns -/

/-- `[A-Za-z0-9_+-]` -/
def isNameUnit (u : UInt16) : Bool :=
  (65 ≤ u && u ≤ 90) || (97 ≤ u && u ≤ 122) || (48 ≤ u && u ≤ 57) || u = 95 || u = 43 || u = 45

/-- `(?![.-])[A-Za-z0-9_+-]+` -/
def segment (s : Str) : Bool := s ≠ [] ∧ s.head? ≠ some 46 ∧ s.head? ≠ some 45 ∧ s.all isNameUnit

/-- `IANA_PATTERN`: segments with slashes in between, which no segment has in it. -/
def IANA_PATTERN (s : Str) : Bool := (s.splitOn 47).all segment

/-- `[A-Za-z0-9<>+\-:,./]` -/
def isPosixUnit (u : UInt16) : Bool :=
  (65 ≤ u && u ≤ 90) || (97 ≤ u && u ≤ 122) || (48 ≤ u && u ≤ 57) || u ∈ ascii "<>+-:,./".toList

/-- `POSIX_PATTERN` -/
def POSIX_PATTERN (s : Str) : Bool := s ≠ [] ∧ s.all isPosixUnit

def isValidTimeZoneName (name : Str) : Bool := name.length ≤ 64 && IANA_PATTERN name

/-! ### What a zone shows -/

def MINUTE : ℤ := 60000

def DAY : ℤ := 24 * 60 * MINUTE

/-- `Math.round` of a quotient. -/
def round (n d : ℤ) : ℤ := (2 * n + d) / (2 * d)

/-- `offsetAt`; the formatter shows the time shifted by what the zone is ahead of UTC. -/
def offsetAt (formatter : Zone) (time : ℤ) : ℤ :=
  let part := fieldsOf (formatter.localTime time)
  let shown := utc part.year (part.month - 1) part.day (part.hour % 24) part.minute part.second
  round (shown - time / 1000 * 1000) MINUTE

/-! ### Changes of the offset -/

/-- `Transition`: the time of a change, the offset before it and the one from there on. -/
structure Transition where
  time : ℤ
  before : ℤ
  behind : ℤ

/-- The loop that narrows a change down: it is behind `low`, by `minutes` at most. -/
def narrow (offsetAt : ℤ → ℤ) (previous : ℤ) (low : ℤ) (minutes : ℕ) : ℤ :=
  if 1 < minutes then
    if offsetAt (low + (minutes / 2 : ℕ) * MINUTE) = previous then
      narrow offsetAt previous (low + (minutes / 2 : ℕ) * MINUTE) (minutes - minutes / 2)
    else narrow offsetAt previous low (minutes / 2)
  else low + minutes * MINUTE
termination_by minutes

/-- What the scan has come to. -/
structure Scan where
  previous : ℤ
  transitions : List Transition

/-- A day of the scan: it looks at the end of the day. -/
def scanDay (offsetAt : ℤ → ℤ) (day : ℤ) (s : Scan) : Scan :=
  let next := offsetAt (day + DAY)
  if next ≠ s.previous then
    ⟨next, s.transitions ++ [⟨narrow offsetAt s.previous day (24 * 60), s.previous, next⟩]⟩
  else s

/-- The scan of a number of days. -/
def scan (offsetAt : ℤ → ℤ) (start : ℤ) : ℕ → Scan
  | 0 => ⟨offsetAt start, []⟩
  | n + 1 => scanDay offsetAt (start + n * DAY) (scan offsetAt start n)

/-! ### The string -/

/-- `posixName` -/
def posixName (offset : ℤ) : Text :=
  let abs := offset.natAbs
  '<' :: (if offset < 0 then '-' else '+') :: pad (abs / 60) ++ (if abs % 60 ≠ 0 then pad (abs % 60) else []) ++ ['>']

/-- `posixOffset` -/
def posixOffset (offset : ℤ) : Text :=
  let abs := offset.natAbs
  (if offset > 0 then ['-'] else []) ++ hhmm (abs / 60) (abs % 60)

/-- `posixRule` -/
def posixRule (t : Transition) : Text :=
  let wall := t.time + t.before * MINUTE
  let part := fieldsOf wall
  let daysInMonth := (dateOf (utc part.year part.month 0 0 0 0)).day
  let week := if part.day + 7 > daysInMonth then 5 else (part.day + 6) / 7
  'M' :: decimal part.month.toNat ++ '.' :: decimal week.toNat ++ '.' :: decimal (weekday (wall / msPerDay)).toNat ++
    '/' :: hhmm part.hour.toNat part.minute.toNat

/-- A zone of one offset. -/
def fixed (offset : ℤ) : Text := posixName offset ++ posixOffset offset

/-- The string of the changes in a year; unless there are two, back and forth, it is the offset `atNow`. -/
def stringOf (atNow : ℤ) (transitions : List Transition) : Text :=
  match transitions with
  | [first, _] =>
    let standard := min first.before first.behind
    let daylight := max first.before first.behind
    match transitions.find? (·.behind = daylight), transitions.find? (·.behind = standard) with
    | some toDaylight, some toStandard =>
      fixed standard ++ fixed daylight ++ ',' :: posixRule toDaylight ++ ',' :: posixRule toStandard
    | _, _ => fixed atNow
  | _ => fixed atNow

/-- The rules of a zone in the year of a time. -/
def zoneRules (formatter : Zone) (now : ℤ) : Text :=
  let year := (dateOf now).year
  let start := utc year 0 1 0 0 0
  let stop := utc (year + 1) 0 1 0 0 0
  stringOf (offsetAt formatter now) (scan (offsetAt formatter) start ((stop - start) / DAY).toNat).transitions

/-- A name of the zone that has no offset. -/
def isUtc (timeZone : Str) : Prop := timeZone = ascii "UTC".toList ∨ timeZone = ascii "Etc/UTC".toList

instance (timeZone : Str) : Decidable (isUtc timeZone) := inferInstanceAs (Decidable (_ ∨ _))

/-- `posixTimeZone`; `Intl` has the zones of some names, and throws for others. -/
def posixTimeZone (zones : Str → Option Zone) (timeZone : Str) (now : ℤ) : Option Text :=
  if isUtc timeZone then some "UTC0".toList
  else (zones timeZone).map fun formatter => zoneRules formatter now

/-! ### A session's zone -/

/-- The browser: what its storage has of the preference, if it has it and can be read; the zones of `Intl`, and
the name of its own one. -/
structure Browser where
  preference : Option Str
  zones : Str → Option Zone
  own : Str

/-- `preferredTimeZone` -/
def preferredTimeZone (b : Browser) : Str :=
  match b.preference with
  | some preference =>
    if preference ≠ [] ∧ preference ≠ ascii "browser".toList ∧ (b.zones preference).isSome then preference else b.own
  | none => b.own

/-- `SessionTimeZone` -/
structure SessionTimeZone where
  name : Str
  posix : Str

/-- `sessionTimeZone`; what throws is none. -/
def sessionTimeZone (b : Browser) (now : ℤ) : Option SessionTimeZone :=
  let name := preferredTimeZone b
  match posixTimeZone b.zones name now with
  | none => none
  | some posix =>
    if isValidTimeZoneName name && POSIX_PATTERN (ascii posix) then some ⟨name, ascii posix⟩ else none

/-! ### The shim -/

/-- A string of C, without its end. -/
structure CString where
  bytes : List UInt8
  noNul : 0 ∉ bytes

/-- The characters of `timezone_valid_iana`. -/
def isNameByte (c : UInt8) : Bool :=
  (65 ≤ c && c ≤ 90) || (97 ≤ c && c ≤ 122) || (48 ≤ c && c ≤ 57) || c = 95 || c = 43 || c = 45

/-- The loop of `timezone_valid_iana`. -/
def ianaLoop : Bool → List UInt8 → Bool
  | atSegmentStart, [] => !atSegmentStart
  | atSegmentStart, c :: p =>
    if c = 47 then if atSegmentStart then false else ianaLoop true p
    else if atSegmentStart && (c = 46 || c = 45) then false
    else if !isNameByte c then false
    else ianaLoop false p

/-- `timezone_valid_iana`, of a pointer that may be null. -/
def timezoneValidIana : Option CString → Bool
  | none => false
  | some name => if name.bytes.length = 0 ∨ name.bytes.length > 64 then false else ianaLoop true name.bytes

/-- The characters of `timezone_valid_posix`. -/
def isPosixByte (c : UInt8) : Bool :=
  (65 ≤ c && c ≤ 90) || (97 ≤ c && c ≤ 122) || (48 ≤ c && c ≤ 57) || c ∈ [60, 62, 43, 45, 58, 44, 46, 47]

/-- `timezone_valid_posix` -/
def timezoneValidPosix : Option CString → Bool
  | none => false
  | some value => if value.bytes.length = 0 ∨ value.bytes.length > 128 then false else value.bytes.all isPosixByte

/-- The shim's check accepts a string of the console: there is a string of C for it, and it passes. -/
def Accepts (check : Option CString → Bool) (s : Str) : Prop := ∃ c : CString, c.bytes = Utf16.encode s ∧ check (some c)

/-! ### Names -/

variable {s seg : Str} {segs : List Str} {u : UInt16} {atSegmentStart : Bool}

/-- What holds of the 128 characters of ASCII. -/
theorem ascii_forall {P : UInt16 → Bool} (hP : (List.range 128).all (fun n => P (.ofNat n)) = true) (hu : u < 0x80) :
    P u = true := by
  have hmem := List.all_eq_true.mp hP u.toNat (List.mem_range.mpr (UInt16.lt_iff_toNat_lt.mp hu))
  rwa [UInt16.ofNat_toNat] at hmem

theorem isNameByte_toUInt8 (hu : u < 0x80) : isNameByte u.toUInt8 = isNameUnit u := by
  simpa using ascii_forall (P := fun u => isNameByte u.toUInt8 == isNameUnit u) (by decide) hu

theorem lt_of_isNameUnit (h : isNameUnit u = true) : u < 0x80 := by
  simp only [isNameUnit, Bool.or_eq_true, Bool.and_eq_true, decide_eq_true_eq, UInt16.le_iff_toNat_le,
    ← UInt16.toNat_inj] at h
  rw [UInt16.lt_iff_toNat_lt]
  simp only [UInt16.reduceToNat] at *
  omega

theorem lt_of_isNameByte {c : UInt8} (h : isNameByte c = true) : c < 0x80 := by
  simp only [isNameByte, Bool.or_eq_true, Bool.and_eq_true, decide_eq_true_eq, UInt8.le_iff_toNat_le,
    ← UInt8.toNat_inj] at h
  rw [UInt8.lt_iff_toNat_lt]
  simp only [UInt8.reduceToNat] at *
  omega

theorem toUInt8_inj {v : UInt16} (hu : u < 0x80) (hv : v < 0x80) : u.toUInt8 = v.toUInt8 ↔ u = v := by
  have hu' := UInt16.lt_iff_toNat_lt.mp hu
  have hv' := UInt16.lt_iff_toNat_lt.mp hv
  simp only [UInt16.reduceToNat] at hu' hv'
  rw [← UInt8.toNat_inj, ← UInt16.toNat_inj, UInt16.toNat_toUInt8, UInt16.toNat_toUInt8, Nat.mod_eq_of_lt (by omega),
    Nat.mod_eq_of_lt (by omega)]

theorem segment_cons (u : UInt16) (s : Str) :
    segment (u :: s) = (!(decide (u = 46) || decide (u = 45)) && (isNameUnit u && s.all isNameUnit)) := by
  rw [segment, Bool.eq_iff_iff]
  simp [and_assoc]

/-- The loop reads segments: one from its start, or the rest of one. -/
theorem ianaLoop_eq (hs : ∀ u ∈ s, u < 0x80) (h : s.splitOn 47 = seg :: segs) :
    ianaLoop true (s.map (·.toUInt8)) = (segment seg && segs.all segment) ∧
      ianaLoop false (s.map (·.toUInt8)) = (seg.all isNameUnit && segs.all segment) := by
  induction s generalizing seg segs with
  | nil =>
    obtain ⟨rfl, rfl⟩ := List.cons.inj h
    exact ⟨rfl, rfl⟩
  | cons u s ih =>
    obtain ⟨seg', segs', hsplit⟩ := List.exists_cons_of_ne_nil (List.splitOn_ne_nil 47 s)
    obtain ⟨hstart, hrest⟩ := ih (fun v hv => hs v (List.mem_cons_of_mem _ hv)) hsplit
    rw [List.splitOn_cons_eq_if_modifyHead, hsplit] at h
    have hbyte := isNameByte_toUInt8 (hs u List.mem_cons_self)
    by_cases hslash : u = 47
    · subst hslash
      obtain ⟨rfl, rfl⟩ := List.cons.inj h
      exact ⟨rfl, hstart⟩
    · rw [if_neg (by simpa using hslash)] at h
      obtain ⟨rfl, rfl⟩ := List.cons.inj h
      have heq : ∀ v : UInt16, v < 0x80 → (u.toUInt8 = v.toUInt8 ↔ u = v) :=
        fun v => toUInt8_inj (hs u List.mem_cons_self)
      have hslash' : ¬u.toUInt8 = 47 := mt (heq 47 (by decide)).mp hslash
      have hdot : decide (u.toUInt8 = 46) = decide (u = 46) := decide_eq_decide.mpr (heq 46 (by decide))
      have hminus : decide (u.toUInt8 = 45) = decide (u = 45) := decide_eq_decide.mpr (heq 45 (by decide))
      rw [List.map_cons, ianaLoop, if_neg hslash', ianaLoop, if_neg hslash', hbyte, hrest, hdot, hminus, segment_cons,
        List.all_cons]
      cases decide (u = 46) || decide (u = 45) <;> cases isNameUnit u <;> simp

/-- A name is made of the characters of its segments, and of slashes. -/
theorem mem_of_iana (h : IANA_PATTERN s = true) (hu : u ∈ s) : isNameUnit u = true ∨ u = 47 := by
  have hpieces : ∀ piece ∈ s.splitOn 47, piece.all isNameUnit = true := fun piece hpiece => by
    have hsegment := List.all_eq_true.mp h piece hpiece
    exact (of_decide_eq_true hsegment).2.2.2
  clear h
  induction s with
  | nil => exact absurd hu List.not_mem_nil
  | cons v s ih =>
    obtain ⟨seg, segs, hsplit⟩ := List.exists_cons_of_ne_nil (List.splitOn_ne_nil 47 s)
    rw [List.splitOn_cons_eq_if_modifyHead, hsplit] at hpieces
    rw [hsplit] at ih
    split_ifs at hpieces with hslash
    · rcases List.mem_cons.mp hu with rfl | hu
      · exact .inr (by simpa using hslash)
      · exact ih hu fun piece hpiece => hpieces piece (List.mem_cons_of_mem _ hpiece)
    · obtain ⟨hfirst, hrest⟩ := List.forall_mem_cons.mp hpieces
      rw [List.all_cons, Bool.and_eq_true] at hfirst
      rcases List.mem_cons.mp hu with rfl | hu
      · exact .inl hfirst.1
      · exact ih hu (List.forall_mem_cons.mpr ⟨hfirst.2, hrest⟩)

theorem ascii_of_ianaLoop {p : List UInt8} (h : ianaLoop atSegmentStart p = true) : ∀ c ∈ p, c < 0x80 := by
  induction p generalizing atSegmentStart with
  | nil => exact fun c hc => absurd hc List.not_mem_nil
  | cons c p ih =>
    rw [ianaLoop] at h
    split_ifs at h with hslash hstart hfirst hname
    · exact List.forall_mem_cons.mpr ⟨by rw [hslash]; decide, ih h⟩
    · exact List.forall_mem_cons.mpr ⟨lt_of_isNameByte (by simpa using hname), ih h⟩

theorem IANA_PATTERN_eq (hs : ∀ u ∈ s, u < 0x80) : ianaLoop true (s.map (·.toUInt8)) = IANA_PATTERN s := by
  obtain ⟨seg, segs, hsplit⟩ := List.exists_cons_of_ne_nil (List.splitOn_ne_nil 47 s)
  rw [(ianaLoop_eq hs hsplit).1, IANA_PATTERN, hsplit, List.all_cons]

/-- A string of ASCII without NUL is one of C. -/
theorem exists_cString (hs : ∀ u ∈ s, u < 0x80 ∧ u ≠ 0) :
    ∃ c : CString, c.bytes = Utf16.encode s ∧ c.bytes = s.map (·.toUInt8) := by
  have hnoNul : 0 ∉ s.map (·.toUInt8) := by
    rw [List.mem_map]
    rintro ⟨u, hu, hzero⟩
    exact (hs u hu).2 ((toUInt8_inj (hs u hu).1 (by decide)).mp hzero)
  exact ⟨⟨s.map (·.toUInt8), hnoNul⟩, (Utf16.encode_ascii fun u hu => (hs u hu).1).symm, rfl⟩

/-- Both ends accept the same names. -/
theorem isValidTimeZoneName_iff (name : Str) :
    isValidTimeZoneName name = true ↔ Accepts timezoneValidIana name := by
  constructor
  · intro h
    obtain ⟨hlength, hpattern⟩ := Bool.and_eq_true_iff.mp h
    have hascii : ∀ u ∈ name, u < 0x80 ∧ u ≠ 0 := fun u hu => by
      rcases mem_of_iana hpattern hu with hname | rfl
      · refine ⟨lt_of_isNameUnit hname, ?_⟩
        rintro rfl
        exact absurd hname (by decide)
      · decide
    have hne : name ≠ [] := by
      rintro rfl
      exact absurd hpattern (by decide)
    obtain ⟨c, hc, hbytes⟩ := exists_cString hascii
    have hlength' : ¬(c.bytes.length = 0 ∨ c.bytes.length > 64) := by
      rw [hbytes, List.length_map, not_or]
      exact ⟨fun hzero => hne (List.length_eq_zero_iff.mp hzero), Nat.not_lt.mpr (of_decide_eq_true hlength)⟩
    refine ⟨c, hc, ?_⟩
    rw [timezoneValidIana, if_neg hlength', hbytes, IANA_PATTERN_eq fun u hu => (hascii u hu).1, hpattern]
  · rintro ⟨c, hc, haccepted⟩
    rw [timezoneValidIana] at haccepted
    split_ifs at haccepted with hlength
    have hascii : ∀ u ∈ name, u < 0x80 := Utf16.ascii_of_encode (hc ▸ ascii_of_ianaLoop haccepted)
    rw [hc, Utf16.encode_ascii hascii, IANA_PATTERN_eq hascii] at haccepted
    rw [hc, Utf16.encode_ascii hascii, List.length_map, not_or] at hlength
    rw [isValidTimeZoneName, haccepted, Bool.and_true, decide_eq_true_eq]
    exact Nat.not_lt.mp hlength.2

/-! ### Strings of POSIX -/

theorem of_isPosixUnit (h : isPosixUnit u = true) : u < 0x80 ∧ u ≠ 0 ∧ isPosixByte u.toUInt8 = true := by
  have hlist : (ascii "<>+-:,./".toList).all (fun v => v < 0x80) = true := by decide
  have hascii : u < 0x80 := by
    have hcases := h
    simp only [isPosixUnit, Bool.or_eq_true, Bool.and_eq_true, decide_eq_true_eq, UInt16.le_iff_toNat_le,
      UInt16.reduceToNat] at hcases
    rcases hcases with hletter | hsign
    · rw [UInt16.lt_iff_toNat_lt]
      simp only [UInt16.reduceToNat]
      omega
    · exact of_decide_eq_true (List.all_eq_true.mp hlist u hsign)
  have hboth := ascii_forall (P := fun u => !isPosixUnit u || (u != 0 && isPosixByte u.toUInt8)) (by decide) hascii
  simpa [h, hascii] using hboth

/-- A string that passes the pattern passes the shim's check, if it is not too long for it. -/
theorem accepts_posix (h : POSIX_PATTERN s = true) (hlength : s.length ≤ 128) : Accepts timezoneValidPosix s := by
  obtain ⟨hne, hall⟩ := of_decide_eq_true h
  have hunits : ∀ u ∈ s, u < 0x80 ∧ u ≠ 0 ∧ isPosixByte u.toUInt8 = true := fun u hu =>
    of_isPosixUnit (List.all_eq_true.mp hall u hu)
  obtain ⟨c, hc, hbytes⟩ := exists_cString fun u hu => ⟨(hunits u hu).1, (hunits u hu).2.1⟩
  have hlength' : ¬(c.bytes.length = 0 ∨ c.bytes.length > 128) := by
    rw [hbytes, List.length_map, not_or]
    exact ⟨fun hzero => hne (List.length_eq_zero_iff.mp hzero), Nat.not_lt.mpr hlength⟩
  refine ⟨c, hc, ?_⟩
  rw [timezoneValidPosix, if_neg hlength', hbytes, List.all_map, List.all_eq_true]
  exact fun u hu => (hunits u hu).2.2

/-! ### Offsets -/

/-- A zone of whole minutes, less than a day from UTC. -/
structure WholeMinutes (zone : Zone) : Prop where
  whole : ∀ t, zone t % 60 = 0
  bounded : ∀ t, -86400 < zone t ∧ zone t < 86400

/-- A time that a clock shows: one since the epoch, of a year whose end is a time of `Date`. -/
structure Clock where
  time : ℤ
  since : 0 ≤ time
  before : (dateOf time).year < 275760

variable {zone : Zone} {time offset : ℤ}

/-- Since the epoch, what is shown tells the offset. -/
theorem offsetAt_eq (hzone : WholeMinutes zone) (htime : 0 ≤ time) : offsetAt zone time = zone (time / 1000) / 60 := by
  have hbounded := hzone.bounded (time / 1000)
  have hwhole := hzone.whole (time / 1000)
  have hyear : 100 ≤ (dateOf (zone.localTime time)).year := by
    refine Calendar.le_yearOfDays_iff.mpr ?_
    have hfirst : Calendar.daysBeforeYear 100 ≤ -1 := by decide
    simp only [Zone.localTime, msPerDay]
    omega
  have hseconds := @Zone.localTime_ediv time zone
  rw [offsetAt, hour_fieldsOf, utc_fieldsOf hyear, round, MINUTE]
  omega

theorem offsetAt_bounds (hzone : WholeMinutes zone) (htime : 0 ≤ time) : (offsetAt zone time).natAbs < 1440 := by
  have hbounded := hzone.bounded (time / 1000)
  have hwhole := hzone.whole (time / 1000)
  rw [offsetAt_eq hzone htime]
  omega

/-! ### How long a string is -/

theorem length_pad {n : ℕ} (h : n < 100) : (pad n).length ≤ 2 := by
  rw [pad]
  split_ifs with hdigit
  · exact Nat.succ_le_succ ((PosixTz.length_decimal_le_iff Nat.one_pos).mpr hdigit)
  · exact (PosixTz.length_decimal_le_iff Nat.two_pos).mpr h

theorem length_hhmm {hours minutes : ℕ} (hh : hours < 100) (hm : minutes < 100) : (hhmm hours minutes).length ≤ 5 := by
  have hhours : (decimal hours).length ≤ 2 := (PosixTz.length_decimal_le_iff Nat.two_pos).mpr hh
  have hminutes := length_pad hm
  rw [hhmm, List.length_append]
  split_ifs
  · rw [List.length_cons]
    omega
  · rw [List.length_nil]
    omega

theorem length_fixed (h : offset.natAbs < 1440) : (fixed offset).length ≤ 13 := by
  have hhours := length_pad (n := offset.natAbs / 60) (by omega)
  have hminutes := length_pad (n := offset.natAbs % 60) (by omega)
  have hclock := @length_hhmm (offset.natAbs / 60) (offset.natAbs % 60) (by omega) (by omega)
  simp only [fixed, posixName, posixOffset, List.length_append, List.length_cons, List.length_nil]
  have hsign : (if offset > 0 then ['-'] else [] : Text).length ≤ 1 := by split_ifs <;> decide
  have hpart : (if offset.natAbs % 60 ≠ 0 then pad (offset.natAbs % 60) else []).length ≤ 2 := by
    split_ifs
    · exact hminutes
    · exact Nat.zero_le _
  omega

theorem length_posixRule (t : Transition) : (posixRule t).length ≤ 13 := by
  obtain ⟨wall, hwall⟩ : ∃ wall, wall = t.time + t.before * MINUTE := ⟨_, rfl⟩
  have hmonth := (dateOf wall).month_mem
  have hday := (dateOf wall).day_mem
  have hlast := Calendar.daysInMonth_bounds (Calendar.isLeap (dateOf wall).year) (dateOf wall).month
  have hfields : (fieldsOf wall).month.toNat < 100 ∧ (fieldsOf wall).day ≤ 31 ∧ (fieldsOf wall).hour.toNat < 100 ∧
      (fieldsOf wall).minute.toNat < 100 ∧ (weekday (wall / msPerDay)).toNat < 10 := by
    simp only [fieldsOf, weekday, msPerDay]
    omega
  obtain ⟨hm, hd, hh, hmin, hwd⟩ := hfields
  have hclock := length_hhmm hh hmin
  have hmonths : (decimal (fieldsOf wall).month.toNat).length ≤ 2 := (PosixTz.length_decimal_le_iff Nat.two_pos).mpr hm
  have hweekdays : (decimal (weekday (wall / msPerDay)).toNat).length ≤ 1 := (PosixTz.length_decimal_le_iff Nat.one_pos).mpr hwd
  have hweek : ∀ last : ℤ, (decimal (if (fieldsOf wall).day + 7 > last then 5 else ((fieldsOf wall).day + 6) / 7).toNat).length ≤ 1 :=
    fun last => (PosixTz.length_decimal_le_iff Nat.one_pos).mpr (by split_ifs <;> omega)
  simp only [posixRule, ← hwall, List.length_append, List.length_cons]
  have := hweek (dateOf (utc (fieldsOf wall).year (fieldsOf wall).month 0 0 0 0)).day
  omega

/-- The scan finds changes between offsets that it has seen. -/
theorem scan_bounds {f : ℤ → ℤ} {start : ℤ} (hf : ∀ time, start ≤ time → (f time).natAbs < 1440) (n : ℕ) :
    (scan f start n).previous.natAbs < 1440 ∧
      ∀ t ∈ (scan f start n).transitions, t.before.natAbs < 1440 ∧ t.behind.natAbs < 1440 := by
  induction n with
  | zero => exact ⟨hf start le_rfl, fun t ht => absurd ht List.not_mem_nil⟩
  | succ n ih =>
    have hnext := hf (start + n * DAY + DAY) (by simp only [DAY, MINUTE]; omega)
    rw [scan, scanDay]
    split_ifs with hchange
    · refine ⟨hnext, fun t ht => ?_⟩
      rcases List.mem_append.mp ht with ht | ht
      · exact ih.2 t ht
      · rw [List.mem_singleton.mp ht]
        exact ⟨ih.1, hnext⟩
    · exact ih

theorem Clock.le_year (now : Clock) : 1970 ≤ (dateOf now.time).year := by
  have hsince := now.since
  refine Calendar.le_yearOfDays_iff.mpr ?_
  rw [Calendar.daysBeforeYear_epoch, msPerDay]
  omega

theorem length_stringOf {atNow : ℤ} {transitions : List Transition} (hnow : atNow.natAbs < 1440)
    (h : ∀ t ∈ transitions, t.before.natAbs < 1440 ∧ t.behind.natAbs < 1440) : (stringOf atNow transitions).length ≤ 54 := by
  have hfixed := length_fixed hnow
  unfold stringOf
  split
  · next first second =>
    obtain ⟨hbefore, hbehind⟩ := h first List.mem_cons_self
    have hmin := @length_fixed (min first.before first.behind) (by omega)
    have hmax := @length_fixed (max first.before first.behind) (by omega)
    dsimp only
    split
    · next toDaylight toStandard _ _ =>
      have hdaylight := length_posixRule toDaylight
      have hstandard := length_posixRule toStandard
      simp only [List.length_append, List.length_cons]
      omega
    · omega
  · omega

theorem length_zoneRules (hzone : WholeMinutes zone) (now : Clock) : (zoneRules zone now.time).length ≤ 54 := by
  have hyear := now.le_year
  have hstart : 0 ≤ utc (dateOf now.time).year 0 1 0 0 0 := by
    have hepoch := Calendar.daysBeforeYear_nonneg hyear
    rw [utc_newYear (by omega), msPerDay]
    omega
  exact length_stringOf (offsetAt_bounds hzone now.since)
    (scan_bounds (fun time htime => offsetAt_bounds hzone (le_trans hstart htime)) _).2

/-- A session's time zone passes the shim's checks. -/
theorem sessionTimeZone_valid {b : Browser} (now : Clock) (hzones : ∀ name zone, b.zones name = some zone → WholeMinutes zone)
    {pair : SessionTimeZone} (h : sessionTimeZone b now.time = some pair) :
    Accepts timezoneValidIana pair.name ∧ Accepts timezoneValidPosix pair.posix := by
  simp only [sessionTimeZone] at h
  split at h
  · exact absurd h (by simp)
  · next posix hposix =>
    split_ifs at h with hvalid
    obtain ⟨hname, hpattern⟩ := Bool.and_eq_true_iff.mp hvalid
    obtain rfl := Option.some.inj h
    have hlength : posix.length ≤ 54 := by
      rw [posixTimeZone] at hposix
      split_ifs at hposix
      · obtain rfl := Option.some.inj hposix
        decide
      · obtain ⟨zone, hzone, rfl⟩ := Option.map_eq_some_iff.mp hposix
        exact length_zoneRules (hzones _ zone hzone) now
    refine ⟨(isValidTimeZoneName_iff _).mp hname, accepts_posix hpattern ?_⟩
    rw [ascii, List.length_map]
    omega

/-- **Both ends accept the same values**: the checks of names agree, and what a session is told passes the shim's. -/
theorem checks_agree (b : Browser) (now : Clock) (hzones : ∀ name zone, b.zones name = some zone → WholeMinutes zone) :
    (∀ name, isValidTimeZoneName name = true ↔ Accepts timezoneValidIana name) ∧
      ∀ pair, sessionTimeZone b now.time = some pair →
        Accepts timezoneValidIana pair.name ∧ Accepts timezoneValidPosix pair.posix :=
  ⟨isValidTimeZoneName_iff, fun _ => sessionTimeZone_valid now hzones⟩

/-- A browser that is in UTC. -/
def utcBrowser : Browser := ⟨none, fun name => if isUtc name then some fun _ => 0 else none, ascii "UTC".toList⟩

theorem checks_agree_utc :
    Accepts timezoneValidIana (ascii "UTC".toList) ∧ Accepts timezoneValidPosix (ascii "UTC0".toList) := by
  refine (checks_agree utcBrowser ⟨0, le_rfl, by decide⟩ fun name zone hzone => ?_).2
    ⟨ascii "UTC".toList, ascii "UTC0".toList⟩ rfl
  simp only [utcBrowser, Option.ite_none_right_eq_some, Option.some.injEq] at hzone
  obtain ⟨-, rfl⟩ := hzone
  exact ⟨fun _ => rfl, fun _ => by decide⟩

end OpenshiftConsole.Terminal.TimeZone
