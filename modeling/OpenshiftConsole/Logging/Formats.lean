import Mathlib.Data.List.TakeWhile
import OpenshiftConsole.Logging.Journal

/-!
# Formats and column types

How a log is rendered: a format, and for the formats that have a record, columns that name a
key of the record and how its value is read. The names are those of the annotation.

The operations on strings that the log's formats are read with are here too: `trim` and
`toLowerCase`, and cutting at the first occurrence of a character.
-/

namespace OpenshiftConsole.Logging

open Journal (ascii isSpace)

/-! ### Strings -/

/-- `s.trim()` -/
def trim (s : Str) : Str := ((s.dropWhile isSpace).reverse.dropWhile isSpace).reverse

/-- The parts of a string before and behind the first occurrence of a character, if there is one. -/
def cutAt (c : UInt16) (s : Str) : Option (Str × Str) :=
  if c ∈ s then some (s.takeWhile (· ≠ c), (s.dropWhile (· ≠ c)).tail) else none

/-- `s.toLowerCase()` for the letters of ASCII. No other character has a lower case that is a letter of a format's name. -/
def toLowerCase (s : Str) : Str := s.map fun c => if 65 ≤ c ∧ c ≤ 90 then c + 32 else c

/-- `','` -/
def comma : UInt16 := 44

/-- `':'` -/
def colon : UInt16 := 58

/-- `'='` -/
def equals : UInt16 := 61

theorem cutAt_append {c : UInt16} {s : Str} (h : c ∉ s) (t : Str) : cutAt c (s ++ c :: t) = some (s, t) := by
  have hs : ∀ a ∈ s, (decide (a ≠ c)) = true := fun a ha => by
    simp only [ne_eq, decide_eq_true_eq]
    rintro rfl
    exact h ha
  rw [cutAt, if_pos (by simp), List.takeWhile_append_of_pos hs, List.dropWhile_append_of_pos hs]
  simp

theorem cutAt_eq_none {c : UInt16} {s : Str} (h : c ∉ s) : cutAt c s = none := if_neg h

/-- A string is trimmed if it neither starts nor ends with white space. -/
theorem trim_eq_self {s : Str} (hhead : ∀ c ∈ s.head?, isSpace c = false) (hlast : ∀ c ∈ s.getLast?, isSpace c = false) :
    trim s = s := by
  have hdrop : ∀ {t : Str}, (∀ c ∈ t.head?, isSpace c = false) → t.dropWhile isSpace = t := fun {t} h => by
    cases t with
    | nil => rfl
    | cons c t => rw [List.dropWhile_cons_of_neg (by simp [h c (by simp)])]
  rw [trim, hdrop hhead, hdrop (by rwa [List.head?_reverse]), List.reverse_reverse]

theorem mem_dropWhile {α : Type*} {p : α → Bool} {c : α} {s : List α} (h : c ∈ s) (hc : p c = false) : c ∈ s.dropWhile p := by
  rw [← List.takeWhile_append_dropWhile (p := p) (l := s), List.mem_append] at h
  exact h.resolve_left fun htake => by simp [List.mem_takeWhile_imp htake] at hc

/-- Trimming takes white space only. -/
theorem mem_trim {c : UInt16} {s : Str} (h : c ∈ s) (hc : isSpace c = false) : c ∈ trim s :=
  List.mem_reverse.mpr (mem_dropWhile (List.mem_reverse.mpr (mem_dropWhile h hc)) hc)

/-! ### Formats -/

/-- `LogFormat` -/
inductive LogFormat where
  | plain
  | json
  | ecs
  | journald
deriving DecidableEq

/-- The name of a format. -/
def LogFormat.name : LogFormat → Str
  | plain => ascii "plain"
  | json => ascii "json"
  | ecs => ascii "ecs"
  | journald => ascii "journald"

/-- `LOG_FORMATS` -/
def logFormats : List LogFormat := [.plain, .json, .ecs, .journald]

/-- The format with a name; `isLogFormat` says whether there is one. -/
def logFormat (name : Str) : Option LogFormat := logFormats.find? (·.name = name)

/-! ### Columns -/

/-- `ColumnType` -/
inductive ColumnType where
  | dateRfc3339
  | dateRfc3339nano
  | dateEpochMs
  | epoch
  | logLevel
  | abbreviate
  | number
  | string
deriving DecidableEq

/-- The name of a column type. -/
def ColumnType.name : ColumnType → Str
  | dateRfc3339 => ascii "date/rfc3339"
  | dateRfc3339nano => ascii "date/rfc3339nano"
  | dateEpochMs => ascii "date/epoch-ms"
  | epoch => ascii "epoch"
  | logLevel => ascii "log-level"
  | abbreviate => ascii "abbreviate"
  | number => ascii "number"
  | string => ascii "string"

/-- `COLUMN_TYPES` -/
def columnTypes : List ColumnType :=
  [.dateRfc3339, .dateRfc3339nano, .dateEpochMs, .epoch, .logLevel, .abbreviate, .number, .string]

/-- The column type with a name; `isColumnType` says whether there is one. -/
def columnType (name : Str) : Option ColumnType := columnTypes.find? (·.name = name)

/-- `ColumnSpec` -/
structure ColumnSpec where
  key : Str
  type : ColumnType

/-- `extraColumns` -/
def extraColumns (columns : List ColumnSpec) : List ColumnSpec := columns.filter fun c => c.type = .string ∨ c.type = .number

/-! ### Names -/

theorem logFormat_name (f : LogFormat) : logFormat f.name = some f := by cases f <;> decide

theorem columnType_name (t : ColumnType) : columnType t.name = some t := by cases t <;> decide

/-- A column type is no format, whatever its case. -/
theorem logFormat_columnType (t : ColumnType) : logFormat (toLowerCase t.name) = none := by cases t <;> decide

/-- Characters that neither a space nor a separator of the annotation is among. -/
theorem isNameChars {s : Str} (h : s.all fun c => !(isSpace c || c == comma || c == colon || c == equals)) :
    ∀ c ∈ s, isSpace c = false ∧ c ≠ comma ∧ c ≠ colon ∧ c ≠ equals := by
  intro c hc
  have := List.all_eq_true.mp h c hc
  simpa [and_assoc] using this

theorem toLowerCase_format (f : LogFormat) : toLowerCase f.name = f.name := by cases f <;> decide

/-- The names have no separators and no white space. -/
theorem format_name (f : LogFormat) :
    f.name ≠ [] ∧ ∀ c ∈ f.name, isSpace c = false ∧ c ≠ comma ∧ c ≠ colon ∧ c ≠ equals :=
  ⟨by cases f <;> decide, isNameChars (by cases f <;> decide)⟩

theorem columnType_name_clean (t : ColumnType) :
    t.name ≠ [] ∧ ∀ c ∈ t.name, isSpace c = false ∧ c ≠ comma ∧ c ≠ colon ∧ c ≠ equals :=
  ⟨by cases t <;> decide, isNameChars (by cases t <;> decide)⟩

end OpenshiftConsole.Logging
