import OpenshiftConsole.Logging.PodPaging

/-!
# A page of a log that grows

A container writes on while a page of its log is fetched: the tail that comes ends after the
last line held. Where the page ends is then found by the text of the first line held
(`earlierPodLines`), among lines that are all distinct.

The buffer drops a line's carriage return, and the lines of the page keep theirs. So the first
line held is found exactly if it had none; if it had one, the page ends right only where the
count of lines says so, which is where nothing has been written, and no other line near
is taken for it (`earlier_iff`).
-/

namespace OpenshiftConsole.Logging.PodPaging

variable {log : PodLog} {fetched : List Str} {line : Str} {held i : ℕ}

/-- What `fetchEarlier` makes of the response, for the lines that the buffer holds. -/
def earlierOf (b : LogBuffer) (body : Str) : List Str :=
  earlierPodLines (splitLines body) (b.lineAt b.firstSeq) b.length

/-- The lines of the tail of `tailLines` lines that are before the log's line `a`. -/
def PodLog.before (log : PodLog) (tailLines a : ℕ) : List Str :=
  (log.lines.drop (log.start tailLines)).take (a - log.start tailLines)

/-- What a page of `tailLines` lines is cut off at: the log's line `a`, of which the buffer holds `n` lines from there on. -/
def CutRight (log : PodLog) (tailLines a n : ℕ) : Prop :=
  ∀ l, log.lines[a]? = some l → dropCR l = l ∨
    a + n = log.length ∧ ∀ i, log.start tailLines ≤ i → i ≤ a + joinSearchSlack → a ≤ i + joinSearchSlack →
      log.lines[i]? ≠ some (dropCR l)

/-- The first line held is found where it is, if it is near and nothing else is taken for it. -/
theorem earlierPodLines_found (hl : fetched[i]? = some line) (hunique : ∀ j, fetched[j]? = some line → j = i)
    (hi : i ≤ fetched.length - held + joinSearchSlack) (hi' : fetched.length - held ≤ i + joinSearchSlack) :
    earlierPodLines fetched (some line) held = fetched.take i := by
  simp only [earlierPodLines, Option.bind_some]
  cases hj : joinIndex fetched line (fetched.length - held) with
  | none => exact absurd hl (joinIndex_eq_none hj hi hi')
  | some j => rw [hunique j (joinIndex_eq_some hj).1]

/-- What is returned ends at `i` only if that is where the line was found, or was expected. -/
theorem earlierPodLines_eq_take (hi : i < fetched.length) (hl : fetched[i]? ≠ some line) :
    earlierPodLines fetched (some line) held = fetched.take i ↔
      i = fetched.length - held ∧ ∀ j, j ≤ i + joinSearchSlack → i ≤ j + joinSearchSlack → fetched[j]? ≠ some line := by
  simp only [earlierPodLines, Option.bind_some]
  constructor
  · intro h
    cases hj : joinIndex fetched line (fetched.length - held) with
    | none =>
      have hlen := congrArg List.length h
      simp only [hj, List.length_take] at hlen
      have : i = fetched.length - held := by omega
      exact ⟨this, fun j hj' hj'' => joinIndex_eq_none hj (by omega) (by omega)⟩
    | some j =>
      have hline := (joinIndex_eq_some hj).1
      have hlen := congrArg List.length h
      simp only [hj, List.length_take] at hlen
      have := (List.getElem?_eq_some_iff.mp hline).1
      obtain rfl : j = i := by omega
      exact absurd hline hl
  · rintro ⟨rfl, hfar⟩
    cases hj : joinIndex fetched line (fetched.length - held) with
    | none => rfl
    | some j =>
      obtain ⟨hline, hle, hle'⟩ := joinIndex_eq_some hj
      exact absurd hline (hfar j hle hle')

variable {b : LogBuffer} {a n k : ℕ} {m : LineLog}

/-- The first line and the number of lines of a buffer that holds a run of the log's lines. -/
theorem first_and_length (hb : LogBuffer.Refines k b m) (hn : 0 < n) (ha : a + n ≤ log.length)
    (hheld : b.retained = ((log.lines.drop a).take n).map dropCR) :
    b.lineAt b.firstSeq = log.lines[a]?.map dropCR ∧ b.length = n := by
  rw [hb.retained] at hheld
  have hlen : (log.lines.drop a).length = log.length - a := List.length_drop
  constructor
  · rw [hb.lineAt, hb.firstSeq, LineLog.lineAt_firstSeq, hheld, List.head?_map, List.head?_take, if_neg (by omega),
      List.head?_drop]
  · rw [hb.length, hheld, List.length_map, List.length_take, hlen]
    omega

/-- **A page of a log that has grown** is what is before the lines held exactly if the first of them was ended without a
carriage return, or if nothing was written since and no other line is taken for it. -/
theorem earlier_iff (log : PodLog) (hdistinct : log.lines.Nodup) (options : LogBufferOptions) (calls : List Call)
    (a n tailLines : ℕ) (hn : 0 < n) (ha : a + n ≤ log.length)
    (hheld : ((LogBuffer.new options).run calls).retained = ((log.lines.drop a).take n).map dropCR)
    (htail : log.start tailLines ≤ a) (hgrown : log.length ≤ a + n + joinSearchSlack) :
    earlierOf ((LogBuffer.new options).run calls) (log.body tailLines) = log.before tailLines a ↔
      CutRight log tailLines a n := by
  obtain ⟨hfirst, hlength⟩ := first_and_length ((LogBuffer.new_refines options).run calls) hn ha hheld
  rw [earlierOf, hfirst, hlength, splitLines_body, PodLog.before, CutRight]
  set s := log.start tailLines
  have hlen : (log.lines.drop s).length = log.length - s := List.length_drop
  have hget : ∀ i, (log.lines.drop s)[i]? = log.lines[s + i]? := fun i => List.getElem?_drop
  obtain ⟨l, hline⟩ : ∃ l, log.lines[a]? = some l :=
    ⟨_, List.getElem?_eq_getElem (show a < log.lines.length by rw [← PodLog.length]; omega)⟩
  have hcut : (log.lines.drop s)[a - s]? = some l := by rw [hget, Nat.add_sub_cancel' htail, hline]
  simp only [hline, Option.map_some, Option.some.injEq, forall_eq']
  by_cases hcr : dropCR l = l
  · -- The line is in the tail once, and near, however many lines have come after it.
    have hnodup : (log.lines.drop s).Nodup := hdistinct.sublist (List.drop_sublist ..)
    have hunique : ∀ j, (log.lines.drop s)[j]? = some l → j = a - s := fun j hj =>
      ((List.getElem?_inj (by omega) hnodup).mp (hcut.trans hj.symm)).symm
    rw [hcr, earlierPodLines_found hcut hunique (by omega) (by omega)]
    simp
  · -- The line in the tail is another text than the one that is looked for.
    rw [earlierPodLines_eq_take (by omega) (by rw [hcut]; simpa using Ne.symm hcr)]
    simp only [hcr, false_or, hget]
    refine and_congr (by omega) ⟨fun h i hs hi hi' => ?_, fun h j hj hj' => h _ (by omega) (by omega) (by omega)⟩
    have := h (i - s) (by omega) (by omega)
    rwa [Nat.add_sub_cancel' hs] at this

/-- Two lines that end in LF, and one that ends in CRLF. -/
def mixedLog : PodLog := ⟨[[97], [98], [99, cr]], by decide⟩

/-- The second line is held when the third has been written. -/
theorem earlier_iff_mixed :
    earlierOf ((LogBuffer.new {}).run [.append [98, nl]]) (mixedLog.body 3) = mixedLog.before 3 1 ↔ CutRight mixedLog 3 1 1 :=
  earlier_iff mixedLog (by decide) {} [.append [98, nl]] 1 1 3 (by decide) (by decide) (by decide +kernel) (by decide) (by decide)

/-- Two lines that end in CRLF. -/
def crlfLog : PodLog := ⟨[[97, cr], [98, cr]], by decide⟩

/-- The first line is held when the second has been written: it is returned again. -/
theorem earlier_crlf :
    (crlfLog.lines.map dropCR).Nodup ∧
      ((LogBuffer.new {}).run [.append [97, cr, nl]]).retained = ((crlfLog.lines.drop 0).take 1).map dropCR ∧
      crlfLog.start 2 ≤ 0 ∧ crlfLog.length ≤ 0 + 1 + joinSearchSlack ∧
      earlierOf ((LogBuffer.new {}).run [.append [97, cr, nl]]) (crlfLog.body 2) ≠ crlfLog.before 2 0 := by
  decide +kernel

end OpenshiftConsole.Logging.PodPaging
