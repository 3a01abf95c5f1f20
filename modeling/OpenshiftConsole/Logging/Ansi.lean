import OpenshiftConsole.Library.ControlSequences
import OpenshiftConsole.Library.Exec
import OpenshiftConsole.Logging.Numbers

/-!
# Colours in log lines

`parseAnsi` splits a text into runs of one style each: an escape sequence that sets a style (SGR)
is applied to the style, every other one is left out, and so is one that the end of the text cuts off.
`scanEscape` finds where a sequence ends. `stripAnsi` is the text of the runs.

The loop of `parseAnsi` is given as what it calls `push` with: the runs, each a part of the text
with a style. The spans are put together from them.
-/

namespace OpenshiftConsole.Logging.Ansi

open OpenshiftConsole.Library
open ControlSequences (esc csi bel bracket backslash isStringKind isIntermediate isFinal)
open Journal (ascii)

/-! ### Styles -/

/-- `AnsiColor` -/
inductive AnsiColor where
  | index (n : ℚ)
  | rgb (color : Str)
deriving DecidableEq

/-- `AnsiStyle` -/
structure AnsiStyle where
  fg : Option AnsiColor
  bg : Option AnsiColor
  bold : Bool
  dim : Bool
  italic : Bool
  underline : Bool
  inverse : Bool
  hidden : Bool
  strike : Bool
deriving DecidableEq

/-- `AnsiSpan` -/
structure AnsiSpan where
  text : Str
  style : Option AnsiStyle
deriving DecidableEq

/-- `hasAnsi` -/
def hasAnsi (text : Str) : Bool := esc ∈ text ∨ csi ∈ text

/-- `plainStyle` -/
def plainStyle : AnsiStyle :=
  { fg := none, bg := none, bold := false, dim := false, italic := false, underline := false, inverse := false,
    hidden := false, strike := false }

/-- `isPlain` -/
def isPlain (style : AnsiStyle) : Bool :=
  style.fg = none ∧ style.bg = none ∧ ¬style.bold ∧ ¬style.dim ∧ ¬style.italic ∧ ¬style.underline ∧ ¬style.inverse ∧
    ¬style.hidden ∧ ¬style.strike

/-- `sameStyle` -/
def sameStyle (a b : Option AnsiStyle) : Bool := a = b

/-! ### SGR -/

/-- `toHex` of a byte. -/
def toHex (value : ℕ) : Str :=
  let digits := (Nat.toDigits 16 value).map fun c => UInt16.ofNat c.toNat
  List.replicate (2 - digits.length) 48 ++ digits

/-- `rgb` -/
def rgb (r g b : ℕ) : AnsiColor := .rgb (ascii "#" ++ toHex r ++ toHex g ++ toHex b)

/-- `asByte` -/
def asByte (value : Option Str) : Option ℕ :=
  match value with
  | none => none
  | some [] => some 0
  | some value =>
    match (JsNumber.ofString value).value with
    | some q => if q.den = 1 ∧ 0 ≤ q ∧ q ≤ 255 then some q.num.toNat else none
    | none => none

/-- The colour of three components, if all of them are there. -/
def rgbOf (parts : List Str) : Option AnsiColor :=
  match parts.map fun p => asByte (some p) with
  | some r :: some g :: some b :: _ => some (rgb r g b)
  | _ => none

/-- `extendedColor`: the colour, and how many of the parameters that follow it takes. -/
def extendedColor (sub rest : List Str) : Option AnsiColor × ℕ :=
  if sub.length > 1 then
    if sub[1]? = some (ascii "5") then ((asByte sub[2]?).map fun n => .index n, 0)
    else if sub[1]? = some (ascii "2") then
      (rgbOf (if sub.length ≥ 6 then (sub.take 6).drop 3 else (sub.take 5).drop 2), 0)
    else (none, 0)
  else if rest[0]? = some (ascii "5") then ((asByte rest[1]?).map fun n => .index n, 2)
  else if rest[0]? = some (ascii "2") then (rgbOf ((rest.take 4).drop 1), 4)
  else (none, if rest.length > 0 then 1 else 0)

/-- One turn of the loop of `applySgr`: the style, and how many of the parameters that follow are skipped. -/
def applyCode (code : ℚ) (sub rest : List Str) (next : AnsiStyle) : AnsiStyle × ℕ :=
  if code = 0 then (plainStyle, 0)
  else if code = 1 then ({ next with bold := true }, 0)
  else if code = 2 then ({ next with dim := true }, 0)
  else if code = 3 then ({ next with italic := true }, 0)
  else if code = 4 then ({ next with underline := sub[1]? ≠ some (ascii "0") }, 0)
  else if code = 7 then ({ next with inverse := true }, 0)
  else if code = 8 then ({ next with hidden := true }, 0)
  else if code = 9 then ({ next with strike := true }, 0)
  else if code = 21 then ({ next with underline := true }, 0)
  else if code = 22 then ({ next with bold := false, dim := false }, 0)
  else if code = 23 then ({ next with italic := false }, 0)
  else if code = 24 then ({ next with underline := false }, 0)
  else if code = 27 then ({ next with inverse := false }, 0)
  else if code = 28 then ({ next with hidden := false }, 0)
  else if code = 29 then ({ next with strike := false }, 0)
  else if 30 ≤ code ∧ code ≤ 37 then ({ next with fg := some (.index (code - 30)) }, 0)
  else if code = 39 then ({ next with fg := none }, 0)
  else if 40 ≤ code ∧ code ≤ 47 then ({ next with bg := some (.index (code - 40)) }, 0)
  else if code = 49 then ({ next with bg := none }, 0)
  else if 90 ≤ code ∧ code ≤ 97 then ({ next with fg := some (.index (code - 90 + 8)) }, 0)
  else if 100 ≤ code ∧ code ≤ 107 then ({ next with bg := some (.index (code - 100 + 8)) }, 0)
  else if code = 38 ∨ code = 48 ∨ code = 58 then
    let (color, consumed) := extendedColor sub rest
    -- 58 is the underline colour, which is read only to be skipped.
    if color ≠ none ∧ code ≠ 58 then
      (if code = 38 then { next with fg := color } else { next with bg := color }, consumed)
    else (next, consumed)
  else (next, 0)

/-- The loop of `applySgr` over the parameters; so many of them are skipped first. -/
def applyCodes : ℕ → List Str → AnsiStyle → AnsiStyle
  | _, [], next => next
  | skip + 1, _ :: rest, next => applyCodes skip rest next
  | 0, param :: rest, next =>
    let sub := param.splitOn colon
    let code := if sub.headD [] = [] then .finite 0 else JsNumber.ofString (sub.headD [])
    match code.value with
    | some code =>
      let (next, consumed) := applyCode code sub rest next
      applyCodes consumed rest next
    | none => applyCodes 0 rest next

/-- `applySgr` -/
def applySgr (style : AnsiStyle) (params : Str) : AnsiStyle :=
  applyCodes 0 (if params = [] then [ascii "0"] else params.splitOn 59) style

/-! ### Where a sequence ends -/

/-- What `scanEscape` returns: where the sequence ends, and the parameters if it is SGR. -/
structure Escape where
  stop : ℕ
  sgr : Option Str

/-- A string, up to BEL or ST; from the characters that are left, and where they start. -/
def scanString : Str → ℕ → ℕ
  | [], i => i
  | c :: text, i =>
    if c = bel then i + 1
    else if c = esc ∧ text.head? = some backslash then i + 2
    else scanString text (i + 1)

/-- Intermediates, then a final; `c` is the character before. -/
def scanIntermediates (c : UInt16) : Str → ℕ → ℕ
  | [], i => i
  | d :: text, i => if isIntermediate c then scanIntermediates d text (i + 1) else i

/-- `/[<=>?]/.test(params)` -/
def isPrivate (params : Str) : Bool := params.any fun c => 0x3c ≤ c ∧ c ≤ 0x3f

/-- A control sequence; `params` are the characters it has so far. -/
def scanParams (params : Str) : Str → ℕ → Escape
  | [], i => { stop := i, sgr := none }
  | c :: text, i =>
    if isFinal c then { stop := i + 1, sgr := if c = 0x6d ∧ ¬isPrivate params then some params else none }
    else if c < 0x20 ∨ c > 0x3f then { stop := i, sgr := none }
    else scanParams (params ++ [c]) text (i + 1)

/-- `scanEscape` -/
def scanEscape (text : Str) (start : ℕ) : Escape :=
  let i := start + 1
  if text[start]? = some csi then scanParams [] (text.drop i) i
  else
    match text[i]? with
    | none => { stop := i, sgr := none }
    | some kind =>
      let i := i + 1
      if kind = bracket then scanParams [] (text.drop i) i
      else if isStringKind kind then { stop := scanString (text.drop i) i, sgr := none }
      else { stop := scanIntermediates kind (text.drop i) i, sgr := none }

/-! ### Runs -/

/-- What `push` is called with: a part of the text, and its style. -/
structure AnsiRun where
  start : ℕ
  stop : ℕ
  style : Option AnsiStyle

/-- The variables of the loop of `parseAnsi`. -/
structure LoopState where
  runs : List AnsiRun
  style : AnsiStyle
  current : Option AnsiStyle
  runStart : ℕ
  index : ℕ

/-- The runs after `push(end)`; an empty one is not added. -/
def LoopState.push (s : LoopState) (stop : ℕ) : List AnsiRun :=
  if stop ≤ s.runStart then s.runs else s.runs ++ [{ start := s.runStart, stop, style := s.current }]

/-- One turn of the loop of `parseAnsi`; the last one pushes what is left. -/
def ansiStep (text : Str) (s : LoopState) : Exec (LoopState ⊕ List AnsiRun) :=
  match text[s.index]? with
  | none => .returned (.inr (s.push text.length))
  | some c =>
    if c ≠ esc ∧ c ≠ csi then .returned (.inl { s with index := s.index + 1 })
    else
      let runs := s.push s.index
      let escape := scanEscape text s.index
      let style := escape.sgr.elim s.style (applySgr s.style)
      let current := if escape.sgr.isSome then (if isPlain style then none else some style) else s.current
      .returned (.inl { runs, style, current, runStart := escape.stop, index := escape.stop })

/-- The loop of `parseAnsi`. -/
def runsFor (fuel : ℕ) (text : Str) : Exec (List AnsiRun) :=
  Exec.loop (ansiStep text) fuel { runs := [], style := plainStyle, current := none, runStart := 0, index := 0 }

/-- `push` of a run: it is added to the last span, if that has its style. -/
def pushSpan (text : Str) (spans : List AnsiSpan) (run : AnsiRun) : List AnsiSpan :=
  let chunk := slice text run.start run.stop
  match spans.getLast? with
  | some last =>
    if sameStyle last.style run.style then spans.dropLast ++ [{ last with text := last.text ++ chunk }]
    else spans ++ [{ text := chunk, style := run.style }]
  | none => [{ text := chunk, style := run.style }]

/-- The spans of runs. -/
def spansOf (text : Str) (runs : List AnsiRun) : List AnsiSpan :=
  let spans := runs.foldl (pushSpan text) []
  if spans = [] then [{ text := [], style := none }] else spans

/-- `parseAnsi`, with fuel for its loop. -/
def parseAnsiFor (fuel : ℕ) (text : Str) : Exec (List AnsiSpan) :=
  if hasAnsi text then (runsFor fuel text).andThen fun runs => .returned (spansOf text runs)
  else .returned [{ text, style := none }]

/-- The runs of a text. -/
def runsOf (text : Str) : List AnsiRun :=
  match runsFor (text.length + 1) text with
  | .returned runs => runs
  | _ => []

/-- `parseAnsi` -/
def parseAnsi (text : Str) : List AnsiSpan :=
  if hasAnsi text then spansOf text (runsOf text) else [{ text, style := none }]

/-- The text of spans, joined. -/
def spansText (spans : List AnsiSpan) : Str := spans.flatMap AnsiSpan.text

/-- `stripAnsi` -/
def stripAnsi (text : Str) : Str := if hasAnsi text then spansText (parseAnsi text) else text

example : parseAnsi (esc :: ascii "[1;31mError" ++ esc :: ascii "[0m: x") =
    [{ text := ascii "Error", style := some { plainStyle with fg := some (.index 1), bold := true } },
      { text := ascii ": x", style := none }] := by decide +kernel

end OpenshiftConsole.Logging.Ansi
