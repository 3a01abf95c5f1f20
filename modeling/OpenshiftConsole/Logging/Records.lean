import OpenshiftConsole.Library.Utf8
import OpenshiftConsole.Logging.Json

/-!
# Records

The record of a log line is the JSON object that it is. `pick` reads one field of it; as it looks for
the key with `in`, and as it follows a dotted path by reading properties, what it gets may also be something
that the record, or an array in it, inherits: a method, or the prototype itself.

How a field is read as text, number, instant or level is here too. `Date.parse` is a parameter: what it
makes of a text that is not of the language's own format is left to the engine.
-/

namespace OpenshiftConsole.Logging.Parse

open OpenshiftConsole.Library
open Journal (ascii isSpace)
open JSON (Value member arrayIndex isHigh isLow)

/-! ### Fields -/

/-- A record: the members of a JSON object. -/
abbrev Record := List (Str × Value)

/-- What reading a property gives. -/
inductive Field where
  | undefined
  | json (v : Value)
  /-- A function that an object or array inherits. -/
  | method
  /-- `Object.prototype` -/
  | objectPrototype
  /-- `Array.prototype` -/
  | arrayPrototype

/-- The names of the functions that `Object.prototype` has. -/
def objectMethods : List Str :=
  ["constructor", "__defineGetter__", "__defineSetter__", "hasOwnProperty", "__lookupGetter__", "__lookupSetter__",
    "isPrototypeOf", "propertyIsEnumerable", "toString", "valueOf", "toLocaleString"].map ascii

/-- The names of the functions that `Array.prototype` has. -/
def arrayMethods : List Str :=
  ["at", "concat", "constructor", "copyWithin", "entries", "every", "fill", "filter", "find", "findIndex", "findLast",
    "findLastIndex", "flat", "flatMap", "forEach", "includes", "indexOf", "join", "keys", "lastIndexOf", "map", "pop", "push",
    "reduce", "reduceRight", "reverse", "shift", "slice", "some", "sort", "splice", "toLocaleString", "toReversed", "toSorted",
    "toSpliced", "toString", "unshift", "values", "with"].map ascii

/-- `__proto__` -/
def proto : Str := ascii "__proto__"

/-- A property of `Object.prototype`, of an object with a prototype. -/
def inherited (prototype : Field) (name : Str) : Field :=
  if name = proto then prototype else if name ∈ objectMethods then .method else .undefined

/-- A property of `Array.prototype`, of an array with a prototype. -/
def inheritedByArray (prototype : Field) (name : Str) : Field :=
  if name = proto then prototype else if name ∈ arrayMethods then .method else inherited prototype name

/-- `cursor[segment]`; nothing of what is no object. -/
def property (name : Str) : Field → Field
  | .json (.object members) => ((member members name).map .json).getD (inherited .objectPrototype name)
  | .json (.array items) =>
    match arrayIndex name with
    | some n => (items[n]?.map .json).getD .undefined
    | none =>
      if name = ascii "length" then .json (.number (.finite items.length)) else inheritedByArray .arrayPrototype name
  | .objectPrototype => inherited (.json .null) name
  | .arrayPrototype =>
    if name = ascii "length" then .json (.number (.finite 0)) else inheritedByArray .objectPrototype name
  | _ => .undefined

/-- `path in record` -/
def hasProperty (record : Record) (path : Str) : Bool :=
  (member record path).isSome ∨ path = proto ∨ path ∈ objectMethods

/-- `pick` -/
def pick (record : Record) (path : Str) : Field :=
  if hasProperty record path then property path (.json (.object record))
  else (path.splitOn 46).foldl (fun cursor segment => property segment cursor) (.json (.object record))

/-! ### Text -/

/-- `firstString({ value }, ['value'])`: the field as text, if it is a text or a number. -/
def ownString : Field → Option Str
  | .json (.string s) => if s ≠ [] then some s else none
  | .json (.number (.finite q)) => some (JsNumber.finite q).text
  | _ => none

/-- `firstString` -/
def firstString (record : Record) (paths : List Str) : Option Str := paths.findSome? fun path => ownString (pick record path)

/-- The strings of an array. -/
def strings (items : List Value) : List Str := items.filterMap fun
  | .string s => some s
  | _ => none

/-- `asStackTrace` -/
def asStackTrace : Field → Option Str
  | .json (.string s) => if s = [] then none else some s
  | .json (.array items) => if strings items ≠ [] then some ((ascii "\n").intercalate (strings items)) else none
  | _ => none

/-- `asText`; nothing where it is `undefined`, which `JSON.stringify` makes of a function. -/
def asText : Field → Option Str
  | .json (.string s) => some s
  | .json (.number n) => some n.text
  | .json (.bool b) => some (ascii (if b then "true" else "false"))
  | .json .null | .undefined => some []
  | .json v => some (JSON.stringify v)
  | .objectPrototype => some (ascii "\x7b\x7d")
  | .arrayPrototype => some (ascii "[]")
  | .method => none

/-- The first character of a segment. -/
def firstChar : Str → Str
  | [] => []
  | [c] => [c]
  | c :: d :: _ => if isHigh c ∧ isLow d then [c, d] else [c]

/-- `abbreviateLogger` -/
def abbreviateLogger (name : Str) : Str :=
  let segments := name.splitOn 46
  [46].intercalate (segments.dropLast.map firstChar ++ segments.getLast?.toList)

/-! ### Numbers and instants -/

/-- `asNumber` -/
def asNumber : Field → Option ℚ
  | .json (.number n) => n.value
  | .json (.string s) => if trim s ≠ [] then (JsNumber.ofString s).value else none
  | _ => none

/-- The time of `new Date(v)`, if it is valid. -/
def timeOf (v : JsNumber) : Option ℤ :=
  match v with
  | .finite q => if |q| ≤ 8640000000000000 then some (if 0 ≤ q then ⌊q⌋ else ⌈q⌉) else none
  | _ => none

/-- The digits of a number, with zeros before them. -/
def padded (width n : ℕ) : Str := List.replicate (width - (Journal.decimal n).length) 48 ++ Journal.decimal n

/-- The year, the month and the day of a day, counted from 1970-01-01. -/
def dateOfDay (day : ℤ) : ℤ × ℕ × ℕ :=
  -- Years begin in March here, so that the leap day is their last, and go in periods of 400.
  let era := (day + 719468) / 146097
  let inEra := ((day + 719468) % 146097).toNat
  let year := (inEra - inEra / 1460 + inEra / 36524 - inEra / 146096) / 365
  let inYear := inEra - (365 * year + year / 4 - year / 100)
  let month := (5 * inYear + 2) / 153
  (era * 400 + year + (if month < 10 then 0 else 1), if month < 10 then month + 3 else month - 9, inYear - (153 * month + 2) / 5 + 1)

/-- `toISOString` -/
def toISOString (time : ℤ) : Str :=
  let (year, month, day) := dateOfDay (time / 86400000)
  let ms := (time % 86400000).toNat
  (if 0 ≤ year ∧ year ≤ 9999 then padded 4 year.toNat
    else ascii (if year < 0 then "-" else "+") ++ padded 6 year.natAbs) ++
    ascii "-" ++ padded 2 month ++ ascii "-" ++ padded 2 day ++ ascii "T" ++ padded 2 (ms / 3600000) ++ ascii ":" ++
    padded 2 (ms / 60000 % 60) ++ ascii ":" ++ padded 2 (ms / 1000 % 60) ++ ascii "." ++ padded 3 (ms % 1000) ++ ascii "Z"

/-- The text has the form: a digit where the form has `0`, and else the form's character. -/
def hasForm (form : String) (s : Str) : Bool :=
  s.length = (ascii form).length ∧ (s.zip (ascii form)).all fun (c, f) => if f = 48 then JsNumber.isDigit 10 c else c = f

/-- `RFC3339.test(value)` -/
def isRfc3339 (s : Str) : Bool :=
  let zone := s.drop 19
  let zone := if zone.head? = some 46 then (zone.tail.dropWhile (JsNumber.isDigit 10)) else zone
  hasForm "0000-00-00" (s.take 10) ∧ (∃ c ∈ s[10]?, c ∈ ascii "Tt ") ∧ hasForm "00:00:00" ((s.take 19).drop 11) ∧
    -- A point is followed by a digit.
    ((s.drop 19).head? = some 46 → ∃ c ∈ s[20]?, JsNumber.isDigit 10 c) ∧
    (zone = ascii "Z" ∨ zone = ascii "z" ∨ hasForm "+00:00" zone ∨ hasForm "-00:00" zone)

/-- `asTimestamp`; `parsesDate` says whether `Date.parse` gives a number. -/
def asTimestamp (parsesDate : Str → Bool) (value : Field) (type : ColumnType) : Option Str :=
  if type = .epoch ∨ type = .dateEpochMs then
    (asNumber value).bind fun q => (timeOf (if type = .epoch then .round (q * 1000) else .finite q)).map toISOString
  else
    match value with
    | .json (.string s) => if isRfc3339 s ∧ parsesDate s then some s else none
    | _ => none

/-! ### Levels -/

/-- `LogLevel` -/
inductive LogLevel where
  | trace
  | debug
  | info
  | warn
  | error
  | fatal
deriving DecidableEq

/-- `LEVEL_WORDS` -/
def levelWords : List (Str × LogLevel) :=
  [("TRACE", .trace), ("FINEST", .trace), ("FINER", .trace), ("VERBOSE", .trace), ("DEBUG", .debug), ("FINE", .debug),
    ("DBG", .debug), ("INFO", .info), ("INFORMATION", .info), ("NOTICE", .info), ("CONFIG", .info), ("WARN", .warn),
    ("WARNING", .warn), ("ERROR", .error), ("ERR", .error), ("SEVERE", .error), ("CRIT", .fatal), ("CRITICAL", .fatal),
    ("FATAL", .fatal), ("ALERT", .fatal), ("EMERG", .fatal), ("PANIC", .fatal), ("DPANIC", .fatal)].map fun (w, l) => (ascii w, l)

/-- The upper case of a character, if it is letters of ASCII. -/
def upperCase (c : UInt16) : Str :=
  if 97 ≤ c ∧ c ≤ 122 then [c - 32]
  else if c = 0x131 then ascii "I"
  else if c = 0x17f then ascii "S"
  else if c = 0xdf then ascii "SS"
  else if c = 0xfb00 then ascii "FF"
  else if c = 0xfb01 then ascii "FI"
  else if c = 0xfb02 then ascii "FL"
  else if c = 0xfb03 then ascii "FFI"
  else if c = 0xfb04 then ascii "FFL"
  else if c = 0xfb05 ∨ c = 0xfb06 then ascii "ST"
  else [c]

/-- `s.toUpperCase()` as far as it is letters of ASCII, as all words for levels are. -/
def toUpperCase (s : Str) : Str := s.flatMap upperCase

/-- The level of a number, on the scale that its magnitude picks. -/
def numericLevel (n : ℚ) : LogLevel :=
  if n ≤ 7 then
    if n ≤ 2 then .fatal else if n = 3 then .error else if n = 4 then .warn else if n ≤ 6 then .info else .debug
  else if n ≤ 10 then .trace
  else if n ≤ 20 then .debug
  else if n ≤ 30 then .info
  else if n ≤ 40 then .warn
  else if n ≤ 50 then .error
  else .fatal

/-- `normalizeLevel` of a text. -/
def classOf (text : Str) : Option LogLevel :=
  match levelWords.find? (·.1 = toUpperCase (trim text)) with
  | some (_, level) => some level
  | none => (JsNumber.ofString text).value.map numericLevel

/-- `normalizeLevel` -/
def normalizeLevel (value : Option Str) : Option LogLevel := value.bind classOf

/-! ### The journal -/

/-- `journaldTimestamp` -/
def journaldTimestamp : Field → Option Str
  | .json (.string s) =>
    if s ≠ [] ∧ s.all (JsNumber.isDigit 10) then
      (JsNumber.ofString s).value.bind fun micros => (JsNumber.round (micros / 1000)).value.bind fun ms =>
        (timeOf (.finite ⌊ms⌋)).map toISOString
    else none
  | _ => none

/-- The code units of a character. -/
def codeUnits (c : Char) : Str :=
  if c.toNat < 0x10000 then [UInt16.ofNat c.toNat]
  else [UInt16.ofNat (0xd800 + (c.toNat - 0x10000) / 1024), UInt16.ofNat (0xdc00 + (c.toNat - 0x10000) % 1024)]

/-- `new TextDecoder().decode(bytes)`; a byte order mark at the start is left out. -/
def decodeText (bytes : List UInt8) : Str :=
  let chars := Utf8.decode bytes
  (if chars.head? = some '\uFEFF' then chars.tail else chars).flatMap codeUnits

/-- The byte that an item of an array is. -/
def byteOf : Value → Option UInt8
  | .number (.finite q) => if 0 ≤ q ∧ q ≤ 255 then some (UInt8.ofNat ⌊q⌋.toNat) else none
  | _ => none

/-- `journaldMessage` -/
def journaldMessage : Field → Option Str
  | .json (.string s) => some s
  | .json (.array items) => (items.mapM byteOf).map decodeText
  | _ => none

/-- `SYSLOG_NAMES` -/
def syslogNames : List Str := ["EMERG", "ALERT", "CRIT", "ERR", "WARNING", "NOTICE", "INFO", "DEBUG"].map ascii

/-- `syslogLevelName` -/
def syslogLevelName (priority : Option Str) : Option Str :=
  priority.map fun p =>
    match (JsNumber.ofString p).value with
    | some q => if q.den = 1 ∧ 0 ≤ q then syslogNames.getD q.num.toNat p else p
    | none => p

end OpenshiftConsole.Logging.Parse
