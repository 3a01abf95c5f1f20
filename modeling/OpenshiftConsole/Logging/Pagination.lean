import OpenshiftConsole.Logging.LineLog

/-!
# Pages of earlier lines

The kubelet serves the last lines of a log, counted from the present; what is earlier than
the lines held is found by looking for the first of them in a longer tail
(`earlierPodLines`). journald has cursors: a page starts at the entry of a cursor and goes
backwards (`earlierJournalLines`). Reading a line as JSON is left to a parameter.
-/

namespace OpenshiftConsole.Logging

/-- `PAGE_LINES`, and `DEFAULT_TAIL` of both tabs. -/
def pageLines : ℕ := 10000

/-- `JOIN_SEARCH_SLACK`. -/
def joinSearchSlack : ℕ := 2000

/-- Where to look for the join at a distance: before and behind the expected index, where that is an index. -/
def joinCandidates (expected offset : ℕ) : List ℕ :=
  if offset = 0 then [expected] else (if offset ≤ expected then [expected - offset] else []) ++ [expected + offset]

/-- The index of a line, looked for outward from where it is expected. -/
def joinIndex (fetched : List Str) (line : Str) (expected : ℕ) : Option ℕ :=
  (List.range (joinSearchSlack + 1)).findSome? fun offset =>
    (joinCandidates expected offset).find? fun index => fetched[index]? = some line

/-- `earlierPodLines`. -/
def earlierPodLines (fetched : List Str) (currentFirstLine : Option Str) (currentLength : ℕ) : List Str :=
  let expected := fetched.length - currentLength
  match currentFirstLine.bind fun line => joinIndex fetched line expected with
  | some index => fetched.take index
  | none => fetched.take expected

/-- `earlierJournalLines`. -/
def earlierJournalLines (cursorOf : Str → Option Str) (fetched : List Str) (anchorCursor : Option Str) : List Str :=
  (fetched.filter fun line => line ≠ [] ∧ cursorOf line ≠ anchorCursor).reverse

/-- `splitLines`. -/
def splitLines (body : Str) : List Str :=
  let lines := body.splitOn nl
  if lines.getLast? = some [] then lines.dropLast else lines

/-- The chunk that a page of lines is prepended as. -/
def pageChunk (lines : List Str) : Str := [nl].intercalate lines ++ [nl]

/-! ### Pages -/

variable {lines : List Str}

theorem splitLines_newlines (h : ∀ l ∈ lines, nl ∉ l) : splitLines (lines.flatMap (· ++ [nl])) = lines := by
  simp [splitLines, splitOn_newlines h]

/-- The lines of a page that are added: those that are not empty. -/
theorem wholeLines_pageChunk (hne : lines ≠ []) (h : ∀ l ∈ lines, nl ∉ l) :
    LineLog.wholeLines (pageChunk lines) = (lines.filter (· ≠ [])).map dropCR := by
  rw [LineLog.wholeLines, pageChunk, intercalate_newline hne, splitOn_newlines h]
  simp

end OpenshiftConsole.Logging
