import OpenshiftConsole.Logging.Numbers

/-!
# JSON

`JSON.parse` and `JSON.stringify`, on strings of UTF-16 code units.

The parser is a machine that reads a text character by character: the arrays and objects that are
open are frames on a stack, and above them is what comes next. A text that the machine gets stuck on,
or does not end behind one value, is one that `JSON.parse` throws a `SyntaxError` for.

An object is the list of its members, in the order in which they were written; a name that comes again
replaces the value. `JSON.stringify` writes them in the order of the object's properties, in which names
that are array indices come first.
-/

namespace OpenshiftConsole.Logging.JSON

open Journal (ascii)

/-! ### Values -/

/-- What `JSON.parse` returns. -/
inductive Value where
  | null
  | bool (b : Bool)
  | number (n : JsNumber)
  | string (s : Str)
  | array (items : List Value)
  | object (members : List (Str × Value))

/-- A member is added; one of its name gets the value. -/
def setMember (members : List (Str × Value)) (key : Str) (v : Value) : List (Str × Value) :=
  if members.any (·.1 = key) then members.map fun m => if m.1 = key then (key, v) else m else members ++ [(key, v)]

/-- The value of a member. -/
def member (members : List (Str × Value)) (key : Str) : Option Value := (members.find? (·.1 = key)).map Prod.snd

/-! ### The parser -/

/-- An array or object that is open. -/
inductive Frame where
  | items (done : List Value)
  /-- An object, behind a key and its colon. -/
  | members (done : List (Str × Value)) (key : Str)

/-- How much of an escape has been read. -/
inductive Escape where
  | none
  | backslash
  /-- `\u` and the value of some hexadecimal digits. -/
  | unicode (digits : ℕ) (code : ℕ)

/-- What comes next. -/
inductive Next where
  /-- A value, or `]` in an array that has no items. -/
  | value (empty : Bool)
  /-- A member's key, or `}` in an object that has no members. -/
  | key (done : List (Str × Value)) (empty : Bool)
  | colon (done : List (Str × Value)) (key : Str)
  /-- What can be behind a value. -/
  | behind (v : Value)
  /-- The rest of a string: of a value, or of the key behind some members. -/
  | chars (done : Option (List (Str × Value))) (s : Str) (escape : Escape)
  /-- The rest of a number or a literal. -/
  | word (s : Str)

/-- The machine; it has stopped where the text is no JSON. -/
abbrev Machine := Option (List Frame × Next)

/-- White space between the parts of a text. -/
def isBlank (c : UInt16) : Bool := c = 32 ∨ c = 9 ∨ c = 10 ∨ c = 13

/-- A character of numbers and literals. -/
def isWordChar (c : UInt16) : Bool := (48 ≤ c ∧ c ≤ 57) ∨ (97 ≤ c ∧ c ≤ 122) ∨ c ∈ ascii "+-.E"

/-- The fraction of a number, and what is behind it. -/
def fraction : Str → Option (Str × Str)
  | 46 :: s => if s.takeWhile (JsNumber.isDigit 10) = [] then none
    else some (s.takeWhile (JsNumber.isDigit 10), s.dropWhile (JsNumber.isDigit 10))
  | s => some ([], s)

/-- A number without sign. -/
def unsignedNumber (s : Str) : Option JsNumber :=
  let ints := s.takeWhile (JsNumber.isDigit 10)
  if ints = [] ∨ (ints.length > 1 ∧ ints.head? = some 48) then none
  else
    match fraction (s.dropWhile (JsNumber.isDigit 10)) with
    | none => none
    | some (fracs, rest) =>
      (JsNumber.exponentPart rest).map fun e =>
        JsNumber.roundPositive (JsNumber.scale10 (JsNumber.ofDigits 10 (ints ++ fracs)) (e - fracs.length))

/-- The value of a number or a literal. -/
def wordValue (s : Str) : Option Value :=
  if s = ascii "true" then some (.bool true)
  else if s = ascii "false" then some (.bool false)
  else if s = ascii "null" then some .null
  else
    match s with
    | 45 :: s => (unsignedNumber s).map fun n => .number n.neg
    | s => (unsignedNumber s).map .number

/-- The character that a one-character escape stands for. -/
def unescape (c : UInt16) : Option UInt16 :=
  if c ∈ ascii "\"\\/" then some c
  else if c = 98 then some 8
  else if c = 102 then some 12
  else if c = 110 then some 10
  else if c = 114 then some 13
  else if c = 116 then some 9
  else none

/-- A character of a string. -/
def stepChars (frames : List Frame) (done : Option (List (Str × Value))) (s : Str) (c : UInt16) : Escape → Machine
  | .none =>
    if c = 34 then some (frames, done.elim (.behind (.string s)) fun done => .colon done s)
    else if c = 92 then some (frames, .chars done s .backslash)
    else if c < 32 then none
    else some (frames, .chars done (s ++ [c]) .none)
  | .backslash =>
    if c = 117 then some (frames, .chars done s (.unicode 0 0))
    else (unescape c).map fun d => (frames, .chars done (s ++ [d]) .none)
  | .unicode digits code =>
    (JsNumber.digit c).map fun d =>
      let code := code * 16 + d
      (frames, if digits = 3 then .chars done (s ++ [UInt16.ofNat code]) .none else .chars done s (.unicode (digits + 1) code))

/-- A character behind a value. -/
def stepBehind (frames : List Frame) (v : Value) (c : UInt16) : Machine :=
  if isBlank c then some (frames, .behind v)
  else
    match frames with
    | [] => none
    | .items done :: frames =>
      if c = 44 then some (.items (done ++ [v]) :: frames, .value false)
      else if c = 93 then some (frames, .behind (.array (done ++ [v])))
      else none
    | .members done key :: frames =>
      if c = 44 then some (frames, .key (setMember done key v) false)
      else if c = 125 then some (frames, .behind (.object (setMember done key v)))
      else none

/-- A character where a value begins. -/
def stepValue (frames : List Frame) (empty : Bool) (c : UInt16) : Machine :=
  if isBlank c then some (frames, .value empty)
  else if c = 91 then some (.items [] :: frames, .value true)
  else if c = 123 then some (frames, .key [] true)
  else if c = 34 then some (frames, .chars none [] .none)
  else if isWordChar c then some (frames, .word [c])
  else if c = 93 ∧ empty then some (frames.tail, .behind (.array []))
  else none

/-- A character. -/
def step (frames : List Frame) (c : UInt16) : Next → Machine
  | .value empty => stepValue frames empty c
  | .key done empty =>
    if isBlank c then some (frames, .key done empty)
    else if c = 34 then some (frames, .chars (some done) [] .none)
    else if c = 125 ∧ empty then some (frames, .behind (.object []))
    else none
  | .colon done key =>
    if isBlank c then some (frames, .colon done key)
    else if c = 58 then some (.members done key :: frames, .value false)
    else none
  | .behind v => stepBehind frames v c
  | .chars done s escape => stepChars frames done s c escape
  | .word s => if isWordChar c then some (frames, .word (s ++ [c])) else (wordValue s).bind fun v => stepBehind frames v c

/-- The machine behind a text. -/
def run (m : Machine) (text : Str) : Machine := text.foldl (fun m c => m.bind fun (frames, next) => step frames c next) m

/-- The value, if the text ends here. -/
def finish : Machine → Option Value
  | some ([], .behind v) => some v
  | some ([], .word s) => wordValue s
  | _ => none

/-- `JSON.parse`; nothing where it throws. -/
def parse (text : Str) : Option Value := finish (run (some ([], .value false)) text)

/-! ### The writer -/

/-- The first half of a surrogate pair. -/
def isHigh (c : UInt16) : Bool := 0xd800 ≤ c ∧ c ≤ 0xdbff

/-- The second half of a surrogate pair. -/
def isLow (c : UInt16) : Bool := 0xdc00 ≤ c ∧ c ≤ 0xdfff

/-- A hexadecimal digit. -/
def hexDigit (n : ℕ) : UInt16 := UInt16.ofNat (if n < 10 then 48 + n else 87 + n)

/-- `\u` and four hexadecimal digits. -/
def unicodeEscape (c : UInt16) : Str :=
  let n := c.toNat
  ascii "\\u" ++ [hexDigit (n / 4096), hexDigit (n / 256 % 16), hexDigit (n / 16 % 16), hexDigit (n % 16)]

/-- A character of a string; half of a surrogate pair is written as it is beside the other half. -/
def writeChar (paired : Bool) (c : UInt16) : Str :=
  if c = 34 then ascii "\\\""
  else if c = 92 then ascii "\\\\"
  else if c = 8 then ascii "\\b"
  else if c = 12 then ascii "\\f"
  else if c = 10 then ascii "\\n"
  else if c = 13 then ascii "\\r"
  else if c = 9 then ascii "\\t"
  else if c < 32 ∨ ((isHigh c ∨ isLow c) ∧ ¬paired) then unicodeEscape c
  else [c]

/-- The characters of a string; `second` says whether the first one is the second half of a pair. -/
def writeChars (second : Bool) : Str → Str
  | [] => []
  | c :: s =>
    let first := isHigh c && s.head?.any isLow
    writeChar (second || first) c ++ writeChars first s

/-- A string. -/
def quote (s : Str) : Str := ascii "\"" ++ writeChars false s ++ ascii "\""

/-- The array index that a name is. -/
def arrayIndex (key : Str) : Option ℕ :=
  let n := JsNumber.ofDigits 10 key
  if key = Journal.decimal n ∧ n < 4294967295 then some n else none

/-- Members in the order of the object's properties. -/
def inOrder {α : Type*} (members : List (Str × α)) : List (Str × α) :=
  (members.filter fun m => (arrayIndex m.1).isSome).mergeSort (fun a b => (arrayIndex a.1).getD 0 ≤ (arrayIndex b.1).getD 0) ++
    members.filter fun m => (arrayIndex m.1).isNone

/-- Texts with a comma between them. -/
def commaSeparated (texts : List Str) : Str := [comma].intercalate texts

mutual

/-- `JSON.stringify` -/
def stringify : Value → Str
  | .null => ascii "null"
  | .bool b => ascii (if b then "true" else "false")
  | .number (.finite q) => (JsNumber.finite q).text
  | .number _ => ascii "null"
  | .string s => quote s
  | .array items => ascii "[" ++ commaSeparated (stringifyItems items) ++ ascii "]"
  | .object members =>
    ascii "\x7b" ++ commaSeparated ((inOrder (stringifyMembers members)).map fun m => quote m.1 ++ [colon] ++ m.2) ++ ascii "\x7d"

/-- The texts of an array's items. -/
def stringifyItems : List Value → List Str
  | [] => []
  | v :: items => stringify v :: stringifyItems items

/-- The names of an object's members with the texts of their values. -/
def stringifyMembers : List (Str × Value) → List (Str × Str)
  | [] => []
  | (key, v) :: members => (key, stringify v) :: stringifyMembers members

end

example : (parse (ascii "\x7b\"b\": [1.50, -3e2], \"2\": null, \"b\": \"\\u0041\"\x7d")).map stringify =
    some (ascii "\x7b\"2\":null,\"b\":\"A\"\x7d") := by decide +kernel

example : (parse (ascii "[1,]")).isNone ∧ (parse (ascii "01")).isNone ∧ (parse (ascii "\"a")).isNone := by decide +kernel

end OpenshiftConsole.Logging.JSON
