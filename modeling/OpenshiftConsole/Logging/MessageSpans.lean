import OpenshiftConsole.Logging.ParseOutcome

/-!
# The message of a row

A row shows the first line of its message: as spans if the message has escape sequences, else as text.
The spans are cut and then read, the text is read and then cut. The two are the same unless an
escape sequence that is not complete takes the first line break; then they are the same only if what
is shown behind it is cut at once, or happens to be what marks the cut (`spans_agree_iff`).
-/

namespace OpenshiftConsole.Logging.Parse

open OpenshiftConsole.Library
open ControlSequences (Mode step esc mem_of_mem_shownText)
open Journal (ascii)
open Ansi (AnsiSpan hasAnsi parseAnsi stripAnsi spansText spansText_eq styled_parseAnsi stripAnsi_eq stripAnsi_text)

/-! ### Cutting -/

variable {front rest : Str} {c : UInt16}

theorem firstLine_of_noBreak {text : Str} (h : ∀ c ∈ text, ¬isBreak c) : firstLine text = text := by
  have : firstBreak text = none := List.findIdx?_eq_none_iff.mpr fun c hc => by simpa using h c hc
  rw [firstLine, this]

theorem firstBreak_cut (hfront : ∀ c ∈ front, ¬isBreak c) (hc : isBreak c) :
    firstBreak (front ++ c :: rest) = some front.length := by
  have hnone : front.findIdx? isBreak = none := List.findIdx?_eq_none_iff.mpr fun c hc => by simpa using hfront c hc
  rw [firstBreak, List.findIdx?_append, hnone, List.findIdx?_cons, if_pos hc]
  simp

/-- There is one first line break. -/
theorem cut_unique {front' rest' : Str} {c' : UInt16} (hfront : ∀ c ∈ front, ¬isBreak c) (hc : isBreak c)
    (hfront' : ∀ c ∈ front', ¬isBreak c) (hc' : isBreak c') (h : front ++ c :: rest = front' ++ c' :: rest') :
    front = front' ∧ c = c' ∧ rest = rest' := by
  have hlength : front.length = front'.length := by
    have : firstBreak (front ++ c :: rest) = some front.length := firstBreak_cut hfront hc
    rw [h, firstBreak_cut hfront' hc', Option.some_inj] at this
    exact this.symm
  obtain ⟨hfronts, hrests⟩ := List.append_inj h hlength
  exact ⟨hfronts, List.cons_eq_cons.mp hrests⟩

/-- A text is one line, or there is a first line break. -/
theorem cut_cases (text : Str) :
    (∀ c ∈ text, ¬isBreak c) ∨ ∃ front c rest, text = front ++ c :: rest ∧ (∀ c ∈ front, ¬isBreak c) ∧ isBreak c := by
  induction text with
  | nil => exact .inl (List.forall_mem_nil _)
  | cons d text ih =>
    by_cases hd : isBreak d
    · exact .inr ⟨[], d, text, rfl, List.forall_mem_nil _, hd⟩
    · rcases ih with h | ⟨front, c, rest, rfl, hfront, hc⟩
      · exact .inl (List.forall_mem_cons.mpr ⟨hd, h⟩)
      · exact .inr ⟨d :: front, c, rest, rfl, List.forall_mem_cons.mpr ⟨hd, hfront⟩, hc⟩

theorem firstLine_cut (hfront : ∀ c ∈ front, ¬isBreak c) (hc : isBreak c) :
    firstLine (front ++ c :: rest) = front ++ ellipsis := by
  rw [firstLine, firstBreak_cut hfront hc]
  simp

/-- What has no line break is in the first line. -/
theorem firstLine_append (hfront : ∀ c ∈ front, ¬isBreak c) : firstLine (front ++ rest) = front ++ firstLine rest := by
  rcases cut_cases rest with hrest | ⟨front', c, rest, rfl, hfront', hc⟩
  · rw [firstLine_of_noBreak hrest, firstLine_of_noBreak]
    simpa only [List.forall_mem_append] using ⟨hfront, hrest⟩
  · rw [firstLine_cut hfront' hc, ← List.append_assoc, firstLine_cut (List.forall_mem_append.mpr ⟨hfront, hfront'⟩) hc,
      List.append_assoc]

/-- What is cut at once is only the mark of the cut. -/
theorem firstLine_eq_ellipsis {text : Str} : firstLine text = ellipsis ↔ text = ellipsis ∨ ∃ c ∈ text.head?, isBreak c := by
  constructor
  · intro h
    rcases cut_cases text with htext | ⟨front, c, rest, rfl, hfront, hc⟩
    · exact .inl (firstLine_of_noBreak htext ▸ h)
    · rw [firstLine_cut hfront hc, List.append_left_eq_self] at h
      rw [h]
      exact .inr ⟨c, rfl, hc⟩
  · rintro (rfl | ⟨c, hhead, hc⟩)
    · decide
    · obtain ⟨rest, rfl⟩ := List.head?_eq_some_iff.mp hhead
      exact firstLine_cut (List.forall_mem_nil _) hc

/-! ### Reading -/

/-- The text of spans is what is shown. -/
theorem spansText_shown (text : Str) : spansText (parseAnsi text) = Mode.ground.shownText text := by
  rw [← stripAnsi_text, stripAnsi_eq, spansText_eq, styled_parseAnsi, List.map_map]
  rfl

/-- The first line break of a message is shown, or what is shown behind it is cut at once, or is the mark of a cut. -/
def CutAgrees (text : Str) : Prop :=
  ∀ front c rest, text = front ++ c :: rest → (∀ c ∈ front, ¬isBreak c) → isBreak c →
    (step (Mode.ground.after front) c).2 = .shown ∨
      Mode.shownText (step (Mode.ground.after front) c).1 rest = ellipsis ∨
      ∃ d ∈ (Mode.shownText (step (Mode.ground.after front) c).1 rest).head?, isBreak d

/-- Behind what is in the first line, the text that is shown must be cut at once, and it is where the line break is shown. -/
theorem spans_cut (text : Str) : spansText (firstLineSpans text) = firstLine (stripAnsi text) ↔ CutAgrees text := by
  rw [stripAnsi_text]
  rcases cut_cases text with htext | ⟨front, c, rest, rfl, hfront, hc⟩
  · have hnone : firstBreak text = none := List.findIdx?_eq_none_iff.mpr fun c hc => by simpa using htext c hc
    have hshown : ∀ c ∈ Mode.ground.shownText text, ¬isBreak c := fun c hc => htext c (mem_of_mem_shownText hc)
    rw [firstLineSpans, hnone, firstLine_of_noBreak hshown]
    refine iff_of_true (spansText_shown text) ?_
    rintro front c rest rfl - hc
    exact absurd hc (htext c (by simp))
  · have hshown : ∀ c ∈ Mode.ground.shownText front, ¬isBreak c := fun c hc => hfront c (mem_of_mem_shownText hc)
    have hspans : spansText (firstLineSpans (front ++ c :: rest)) = Mode.ground.shownText front ++ ellipsis := by
      rw [firstLineSpans, firstBreak_cut hfront hc]
      simp [spansText, ← spansText_shown]
    rw [hspans, Mode.shownText_append, firstLine_append hshown, List.append_right_inj, Mode.shownText]
    set behind := Mode.shownText (step (Mode.ground.after front) c).1 rest with hbehind
    have hcuts : CutAgrees (front ++ c :: rest) ↔
        (step (Mode.ground.after front) c).2 = .shown ∨ behind = ellipsis ∨ ∃ d ∈ behind.head?, isBreak d := by
      constructor
      · exact fun h => h front c rest rfl hfront hc
      · intro h front' c' rest' heq hfront' hc'
        obtain ⟨rfl, rfl, rfl⟩ := cut_unique hfront hc hfront' hc' heq
        exact h
    rw [hcuts, eq_comm]
    split
    · rename_i hbreak
      exact iff_of_true (firstLine_cut (List.forall_mem_nil _) hc) (.inl hbreak)
    · rename_i hbreak
      rw [List.nil_append, firstLine_eq_ellipsis]
      exact (or_iff_right hbreak).symm

/-! ### Rows -/

/-- **The message of a row**: its spans are the text of its first line exactly if cutting the message agrees. -/
theorem spans_agree_iff (parsesDate : Str → Bool) (raw : Str) (format : LogFormat) (columns : List ColumnSpec)
    (entry : LogEntry) (spans : List AnsiSpan) (hentry : parseLine parsesDate raw format columns = .ok entry)
    (hspans : entry.messageSpans = some spans) :
    spansText spans = firstLine entry.message ↔ CutAgrees (parseDefault raw format).message := by
  obtain ⟨hmessage, -, hnone⟩ := message_entryOf parsesDate raw format columns
  rcases withoutAnsi_cases hentry with ⟨rfl, -⟩ | ⟨extras, rfl⟩
  · rw [hnone] at hspans
    cases hspans
  · have hcut : firstLineSpans (parseDefault raw format).message = spans := by
      rw [cleaned, hmessage] at hspans
      dsimp only at hspans
      split at hspans
      · exact Option.some_inj.mp hspans
      · cases hspans
    rw [← hcut, ← spans_cut, ← hmessage]
    rfl

/-- A coloured line and one more. -/
theorem spans_agree_iff_coloured :
    ∃ entry spans, parseLine (fun _ => true) (esc :: ascii "[31ma\nb") .plain [] = .ok entry ∧
      entry.messageSpans = some spans ∧
      (spansText spans = firstLine entry.message ↔ CutAgrees (parseDefault (esc :: ascii "[31ma\nb") .plain).message) :=
  ⟨_, _, rfl, rfl, spans_agree_iff _ _ _ _ _ _ rfl rfl⟩

/-- `a`, ESC, a carriage return and `b`: the spans say that the message goes on, and the text is `ab`. -/
theorem spans_agree_escapedBreak :
    ∃ entry spans, parseLine (fun _ => true) (ascii "a" ++ [esc, 13] ++ ascii "b") .plain [] = .ok entry ∧
      entry.messageSpans = some spans ∧ spansText spans = ascii "a..." ∧ firstLine entry.message = ascii "ab" := by
  refine ⟨_, _, rfl, rfl, ?_, ?_⟩ <;> decide +kernel

end OpenshiftConsole.Logging.Parse
