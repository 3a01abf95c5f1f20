import Mathlib.Algebra.Group.Nat.Defs
import Mathlib.Data.Int.Notation
import Mathlib.Data.List.Count
import OpenshiftConsole.Library.TypedArray

/-!
# The log buffer

`LogBuffer` keeps the lines of a growing log as extents (page, start, end) in pages of
text. `append` writes into the tail page and indexes each line that a newline completes;
a page is sealed once it is long enough and ends at a line boundary. `prepend` puts
older lines in front, in a page of their own. Past `maxLines` the oldest lines are
dropped, and a page that no line refers to any longer is emptied, unless it is the tail.
The extents lie in a typed array between `base` and `used`: eviction moves `base` up,
a full array is compacted or replaced by one of twice the length, and `prepend` makes
room in front of `base`.

A string is a list of UTF-16 code units. The three parallel arrays of the source are one
array of extents.
-/

namespace OpenshiftConsole.Logging

open OpenshiftConsole.Library

/-- A string, in UTF-16 code units. -/
abbrev Str := List UInt16

instance : LawfulBEq Str := inferInstance

/-- `'\n'`. -/
def nl : UInt16 := 10

/-- `'\r'`, code unit 13. -/
def cr : UInt16 := 13

/-- `s.slice(start, stop)`. -/
def slice (s : Str) (start stop : ℕ) : Str := (s.take stop).drop start

/-- Where a line is: the offsets of its text in its page. -/
structure Extent where
  page : ℕ
  start : ℕ
  stop : ℕ
deriving Inhabited, DecidableEq

/-- `LogBufferOptions`. -/
structure LogBufferOptions where
  maxLines : Option ℕ := none
  pageSize : Option ℕ := none

/-- `class LogBuffer`. -/
structure LogBuffer where
  maxLines : ℕ
  pageSize : ℕ
  pages : List Str
  pageRefs : List ℕ
  tailPage : ℕ
  lines : TypedArray Extent
  base : ℕ
  used : ℕ
  baseSeq : ℤ
  lineStart : ℕ
  scanFrom : ℕ
  gen : ℕ

namespace LogBuffer

/-! ### The buffer -/

/-- `DEFAULT_PAGE_SIZE`. -/
def defaultPageSize : ℕ := 2 ^ 20

/-- `DEFAULT_MAX_LINES`. -/
def defaultMaxLines : ℕ := 200000

/-- `INITIAL_CAPACITY`. -/
def initialCapacity : ℕ := 4096

/-- The constructor. -/
def new (options : LogBufferOptions) : LogBuffer :=
  { maxLines := max 1 (options.maxLines.getD defaultMaxLines)
    pageSize := max 1024 (options.pageSize.getD defaultPageSize)
    pages := [[]], pageRefs := [0], tailPage := 0
    lines := .ofLength initialCapacity, base := 0, used := 0, baseSeq := 0
    lineStart := 0, scanFrom := 0, gen := 0 }

variable (b : LogBuffer)

/-- `this.pages[page]`. -/
def page (page : ℕ) : Str := b.pages.getD page []

/-- The number of retained, complete lines. -/
def length : ℕ := b.used - b.base

/-- The sequence number of the oldest retained line. -/
def firstSeq : ℤ := b.baseSeq

/-- One past the sequence number of the newest retained line. -/
def endSeq : ℤ := b.baseSeq + b.length

/-- The text of one line. -/
def textOf (e : Extent) : Str := slice (b.page e.page) e.start e.stop

/-- `lineAt`: the text of one line, if it is retained. -/
def lineAt (seq : ℤ) : Option Str :=
  let i : ℤ := b.base + (seq - b.baseSeq)
  if i < b.base ∨ i ≥ b.used then none else some (b.textOf (b.lines.cell i.toNat))

/-- The retained lines, in the order of their numbers. -/
def retained : List Str := (List.range b.length).filterMap fun k : ℕ => b.lineAt (b.firstSeq + k)

/-- `text`: the retained lines joined together. -/
def text : Str := if b.retained = [] then [] else [nl].intercalate b.retained ++ [nl]

/-- `newPage`; the new page comes last. -/
def newPage (text : Str) : LogBuffer := { b with pages := b.pages ++ [text], pageRefs := b.pageRefs ++ [0] }

/-- `compactOrGrow`. -/
def compactOrGrow : LogBuffer :=
  if b.base > 0 then
    { b with lines := b.lines.copyToFront b.base b.used, used := b.used - b.base, base := 0 }
  else
    { b with lines := (TypedArray.ofLength (b.lines.length * 2)).write 0 (b.lines.subarray 0 b.lines.length) }

/-- Room for one more line behind `used`. -/
def reserveBack : LogBuffer := if b.used = b.lines.length then b.compactOrGrow else b

/-- `maxLines >> 2`, on the 32 bits of the number. -/
def quarter (maxLines : ℕ) : ℤ := (BitVec.ofNat 32 maxLines).toInt / 4

/-- `reserveFront`: room for `count` lines in front of `base`. -/
def reserveFront (count : ℕ) : LogBuffer :=
  if b.base ≥ count then b
  else
    let live := b.used - b.base
    let gap := (max (count : ℤ) (quarter b.maxLines)).toNat
    let capacity := max b.lines.length (gap + live + 1)
    { b with lines := (TypedArray.ofLength capacity).write gap (b.lines.subarray b.base b.used)
             base := gap, used := gap + live }

/-- The end of a line that ends at `stop`, before a carriage return. -/
def beforeCR (text : Str) (stop : ℕ) : ℕ := if text[stop - 1]? = some cr then stop - 1 else stop

/-- `pushLine`. -/
def pushLine (page start stop : ℕ) : LogBuffer :=
  let trimmed := if stop > start then beforeCR (b.page page) stop else stop
  { b.reserveBack with
    lines := b.reserveBack.lines.set b.reserveBack.used ⟨page, start, trimmed⟩
    used := b.reserveBack.used + 1
    pageRefs := b.reserveBack.pageRefs.modify page (· + 1) }

/-- A line of the page is dropped; the page is emptied when it was the last, unless it is the tail. -/
def unref (page : ℕ) : LogBuffer :=
  let pageRefs := b.pageRefs.modify page (· - 1)
  { b with pageRefs
           pages := if pageRefs[page]? = some 0 ∧ page ≠ b.tailPage then b.pages.set page [] else b.pages }

/-- `evict`. -/
def evict : LogBuffer :=
  let excess := b.used - b.base - b.maxLines
  let b' := (b.lines.subarray b.base (b.base + excess)).foldl (fun b e => b.unref e.page) b
  { b' with base := b.base + excess, baseSeq := b.baseSeq + excess }

/-- The loop of `append` over the text from `from` on. -/
def scan (page : ℕ) : Str → ℕ → LogBuffer → LogBuffer
  | [], _, b => b
  | c :: cs, i, b =>
    if c = nl then scan page cs (i + 1) { b.pushLine page b.lineStart i with lineStart := i + 1 }
    else scan page cs (i + 1) b

/-- A page that is long enough and ends at a line boundary is sealed: the tail is a new one. -/
def sealTail : LogBuffer :=
  let text := b.page b.tailPage
  if text.length ≥ b.pageSize ∧ b.lineStart = text.length then
    { b.newPage [] with tailPage := b.pages.length, lineStart := 0, scanFrom := 0 }
  else b

/-- `append`. -/
def append (chunk : Str) : LogBuffer :=
  if chunk = [] then b
  else
    let text := b.page b.tailPage ++ chunk
    let b' := scan b.tailPage (text.drop b.scanFrom) b.scanFrom { b with pages := b.pages.set b.tailPage text }
    { b' with scanFrom := text.length }.sealTail.evict

/-- `flushPartial`. -/
def flushPartial : LogBuffer :=
  let text := b.page b.tailPage
  if b.lineStart < text.length then
    { b.pushLine b.tailPage b.lineStart text.length with lineStart := text.length }.evict
  else b

/-- The non-empty lines of a chunk: the loop of `prepend`, from a line's start and the present offset on. -/
def extents : Str → ℕ → ℕ → List (ℕ × ℕ)
  | [], start, i => if i > start then [(start, i)] else []
  | c :: cs, start, i =>
    if c = nl then (if i > start then [(start, i)] else []) ++ extents cs (i + 1) (i + 1)
    else extents cs start (i + 1)

/-- The extents of the non-empty lines of a chunk that is the text of a page. -/
def chunkLines (page : ℕ) (chunk : Str) : List Extent :=
  (extents chunk 0 0).map fun (start, stop) => ⟨page, start, beforeCR chunk stop⟩

/-- Extents of a page are put in front of the others, where there is room for them. -/
def putFront (page : ℕ) (added : List Extent) : LogBuffer :=
  { b with
    lines := b.lines.write (b.base - added.length) added
    pageRefs := b.pageRefs.modify page (· + added.length)
    base := b.base - added.length
    baseSeq := b.baseSeq - added.length }

/-- `prepend`, with the number of lines that were added. -/
def prepend (chunk : Str) : LogBuffer × ℕ :=
  if chunk = [] then (b, 0)
  else
    let page := b.pages.length
    let added := chunkLines page chunk
    if added.length = 0 then (b.newPage chunk, 0)
    else (((b.newPage chunk).reserveFront added.length).putFront page added, added.length)

/-- `clear`. -/
def clear : LogBuffer :=
  { b with pages := [[]], pageRefs := [0], tailPage := 0, base := 0, used := 0, baseSeq := 0,
           lineStart := 0, scanFrom := 0, gen := b.gen + 1 }

end LogBuffer

/-! ### Calls -/

/-- A call of a method that changes the buffer. -/
inductive Call where
  | append (chunk : Str)
  | flushPartial
  | prepend (chunk : Str)
  | clear

/-- The buffer after a call. -/
def LogBuffer.call (b : LogBuffer) : Call → LogBuffer
  | .append chunk => b.append chunk
  | .flushPartial => b.flushPartial
  | .prepend chunk => (b.prepend chunk).1
  | .clear => b.clear

/-- The buffer after calls one after the other. -/
def LogBuffer.run (b : LogBuffer) (calls : List Call) : LogBuffer := calls.foldl LogBuffer.call b

/-- What a buffer, or a log, shows. -/
structure View where
  length : ℕ
  firstSeq : ℤ
  endSeq : ℤ
  generation : ℕ
  lineAt : ℤ → Option Str
  text : Str

/-- What the buffer shows. -/
def LogBuffer.view (b : LogBuffer) : View :=
  { length := b.length, firstSeq := b.firstSeq, endSeq := b.endSeq, generation := b.gen, lineAt := b.lineAt, text := b.text }

end OpenshiftConsole.Logging
