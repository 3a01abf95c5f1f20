import OpenshiftConsole.Logging.AnsiReading
import OpenshiftConsole.Logging.Records

/-!
# Rows

`parseLine` makes the columns of a row from a line: it reads the record that the line is, if the format
has one (`parseDefault`), lets the columns of the annotation override what it read (`applyColumns`), and takes
the escape sequences out (`withoutAnsi`). `parseDefault` and `applyColumns` are total; `withoutAnsi` calls
string functions on the values of the extra columns, and throws where one is `undefined`.

The keys of the two formats differ; how a field is read does not.
-/

namespace OpenshiftConsole.Logging.Parse

open Journal (ascii)
open JSON (Value)
open Ansi (AnsiSpan hasAnsi parseAnsi stripAnsi)

/-! ### Entries -/

/-- `LogEntry` -/
structure LogEntry where
  raw : Str
  timestamp : Option Str
  level : Option Str
  levelClass : Option LogLevel
  logger : Option Str
  loggerShort : Option Str
  priority : Option Str
  unit : Option Str
  message : Str
  messageSpans : Option (List AnsiSpan)
  stackTrace : Option Str
  errorType : Option Str
  errorMessage : Option Str
  record : Option Record
  /-- The values of the extra columns; one may be `undefined`. -/
  extras : List (Option Str)
  structured : Bool

/-- `plainEntry` -/
def plainEntry (raw : Str) : LogEntry where
  raw := raw
  timestamp := none
  level := none
  levelClass := none
  logger := none
  loggerShort := none
  priority := none
  unit := none
  message := raw
  messageSpans := none
  stackTrace := none
  errorType := none
  errorMessage := none
  record := none
  extras := []
  structured := false

/-- `decodeRecord` -/
def decodeRecord (raw : Str) : Option Record :=
  if (trim raw).head? = some 123 then
    match JSON.parse (trim raw) with
    | some (.object members) => some members
    | _ => none
  else none

/-! ### Keys -/

def jsonTimeKeys : List Str :=
  ["@timestamp", "timestamp", "time", "ts", "Time", "datetime", "date", "eventTime"].map ascii

def jsonLevelKeys : List Str :=
  ["log.level", "level", "levelname", "severity", "SeverityText", "loglevel", "lvl", "levelName"].map ascii

def jsonLoggerKeys : List Str :=
  ["log.logger", "logger", "logger_name", "loggerName", "channel", "category", "module", "component", "name"].map ascii

def jsonMessageKeys : List Str := ["message", "msg", "Message", "log", "text", "body", "short_message"].map ascii

def jsonStackKeys : List Str :=
  ["error.stack_trace", "stack_trace", "stacktrace", "stackTrace", "exception", "error.stack", "stack"].map ascii

/-- The keys that the level is read with. -/
def levelKeys (ecs : Bool) : List Str := if ecs then [ascii "log.level"] else jsonLevelKeys

/-- The keys that the message is read with. -/
def messageKeys (ecs : Bool) : List Str := if ecs then [ascii "message"] else jsonMessageKeys

/-! ### Decoding -/

/-- `journaldEntry` -/
def journaldEntry (raw : Str) (record : Record) : LogEntry :=
  let unit := (firstString record [ascii "_SYSTEMD_UNIT"]).or (firstString record [ascii "SYSLOG_IDENTIFIER", ascii "_COMM"])
  let priority := firstString record [ascii "PRIORITY"]
  { raw
    timestamp := journaldTimestamp (property (ascii "__REALTIME_TIMESTAMP") (.json (.object record)))
    level := syslogLevelName priority
    levelClass := normalizeLevel priority
    logger := none
    loggerShort := none
    priority
    unit
    message := (journaldMessage (property (ascii "MESSAGE") (.json (.object record)))).getD raw
    messageSpans := none
    stackTrace := none
    errorType := none
    errorMessage := none
    record := some record
    extras := []
    structured := true }

/-- `parseDefault` of a record that is not the journal's. -/
def recordEntry (raw : Str) (ecs : Bool) (record : Record) : LogEntry :=
  let level := firstString record (levelKeys ecs)
  { raw
    timestamp := firstString record (if ecs then [ascii "@timestamp"] else jsonTimeKeys)
    level
    levelClass := normalizeLevel level
    logger := firstString record (if ecs then [ascii "log.logger"] else jsonLoggerKeys)
    loggerShort := none
    priority := none
    unit := none
    message := (firstString record (messageKeys ecs)).getD raw
    messageSpans := none
    stackTrace :=
      (if ecs then [ascii "error.stack_trace"] else jsonStackKeys).findSome? fun key => asStackTrace (pick record key)
    errorType := firstString record [ascii "error.type"]
    errorMessage := firstString record [ascii "error.message"]
    record := some record
    extras := []
    structured := true }

/-- `parseDefault` -/
def parseDefault (raw : Str) (format : LogFormat) : LogEntry :=
  if format = .plain then plainEntry raw
  else
    match decodeRecord raw with
    | none => plainEntry raw
    | some record => if format = .journald then journaldEntry raw record else recordEntry raw (format = .ecs) record

/-! ### Columns -/

/-- The variables of the loop of `applyColumns`. -/
structure Cells where
  timestamp : Option Str
  level : Option Str
  levelClass : Option LogLevel
  loggerShort : Option Str
  timeSet : Bool
  levelSet : Bool
  loggerSet : Bool
  extras : List (Option Str)

variable (parsesDate : Str → Bool)

/-- A column of the loop of `applyColumns`. -/
def applyColumn (record : Record) (cells : Cells) (column : ColumnSpec) : Cells :=
  let value := pick record column.key
  match column.type with
  | .dateRfc3339 | .dateRfc3339nano | .dateEpochMs | .epoch =>
    match if cells.timeSet then none else asTimestamp parsesDate value column.type with
    | some parsed => { cells with timestamp := some parsed, timeSet := true }
    | none => cells
  | .logLevel =>
    -- What is of type `object` is no text either.
    match if cells.levelSet then none else ownString value with
    | some text => { cells with level := some text, levelClass := normalizeLevel (some text), levelSet := true }
    | none => cells
  | .abbreviate =>
    match if cells.loggerSet then none else ownString value with
    | some text => { cells with loggerShort := some (abbreviateLogger text), loggerSet := true }
    | none => cells
  | .number => { cells with extras := cells.extras ++ [some ((asNumber value).elim [] fun q => (JsNumber.finite q).text)] }
  | .string => { cells with extras := cells.extras ++ [asText value] }

/-- The variables before the first column. -/
def Cells.start (entry : LogEntry) : Cells where
  timestamp := entry.timestamp
  level := entry.level
  levelClass := entry.levelClass
  loggerShort := entry.loggerShort
  timeSet := false
  levelSet := false
  loggerSet := false
  extras := []

/-- `applyColumns` -/
def applyColumns (entry : LogEntry) (record : Record) (columns : List ColumnSpec) : LogEntry :=
  let cells := columns.foldl (applyColumn parsesDate record) (.start entry)
  { entry with timestamp := cells.timestamp, level := cells.level, levelClass := cells.levelClass
               loggerShort := cells.loggerShort, extras := cells.extras }

/-! ### Escape sequences -/

/-- A line break. -/
def isBreak (c : UInt16) : Bool := c = 13 ∨ c = 10

/-- The index of the first line break, `text.search(/[\r\n]/)`. -/
def firstBreak (text : Str) : Option ℕ := text.findIdx? isBreak

/-- `...` -/
def ellipsis : Str := ascii "..."

/-- `firstLine` -/
def firstLine (text : Str) : Str :=
  match firstBreak text with
  | none => text
  | some stop => text.take stop ++ ellipsis

/-- `firstLineSpans` -/
def firstLineSpans (text : Str) : List AnsiSpan :=
  match firstBreak text with
  | none => parseAnsi text
  | some stop => parseAnsi (text.take stop) ++ [{ text := ellipsis, style := none }]

/-- The `TypeError` of a string function that is called on `undefined`. -/
inductive TypeError where
  | ofUndefined
deriving DecidableEq

/-- `hasAnsi` of a value that may be `undefined`. -/
def hasAnsiOf : Option Str → Except TypeError Bool
  | some text => .ok (hasAnsi text)
  | none => .error .ofUndefined

/-- `stripAnsi` of a value that may be `undefined`. -/
def stripAnsiOf : Option Str → Except TypeError Str
  | some text => .ok (stripAnsi text)
  | none => .error .ofUndefined

/-- `fields.some(..)`, which ends at the first field that has an escape sequence; `none` is `undefined`. -/
def someHasAnsi : List (Option Str) → Except TypeError Bool
  | [] => .ok false
  | field :: fields => do if (← hasAnsiOf field) then pure true else someHasAnsi fields

/-- The columns of an entry that are strings; the ones that are `null` are left out. -/
def ownFields (entry : LogEntry) : List Str :=
  entry.message :: (entry.level.toList ++ entry.logger.toList ++ entry.loggerShort.toList ++ entry.unit.toList)

/-- The entry without escape sequences, with the extra columns as they are then. -/
def cleaned (entry : LogEntry) (extras : List Str) : LogEntry :=
  let level := entry.level.map stripAnsi
  { entry with
    message := stripAnsi entry.message
    messageSpans := if hasAnsi entry.message then some (firstLineSpans entry.message) else none
    level
    levelClass := if entry.priority = none then normalizeLevel level else entry.levelClass
    logger := entry.logger.map stripAnsi
    loggerShort := entry.loggerShort.map stripAnsi
    unit := entry.unit.map stripAnsi
    extras := extras.map some }

/-- `withoutAnsi` -/
def withoutAnsi (entry : LogEntry) : Except TypeError LogEntry := do
  if !(← someHasAnsi ((ownFields entry).map some ++ entry.extras)) then return entry
  return cleaned entry (← entry.extras.mapM stripAnsiOf)

/-- The entry of a line before escape sequences are taken out. -/
def entryOf (raw : Str) (format : LogFormat) (columns : List ColumnSpec) : LogEntry :=
  let entry := parseDefault raw format
  match entry.record with
  | none => entry
  | some record => if columns = [] then entry else applyColumns parsesDate entry record columns

/-- `parseLine` -/
def parseLine (raw : Str) (format : LogFormat) (columns : List ColumnSpec) : Except TypeError LogEntry :=
  withoutAnsi (entryOf parsesDate raw format columns)

end OpenshiftConsole.Logging.Parse
