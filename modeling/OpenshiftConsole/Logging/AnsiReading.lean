import Mathlib.Data.List.Chain
import OpenshiftConsole.Logging.Ansi
import OpenshiftConsole.Logging.LogBufferRefinement

/-!
# What `parseAnsi` shows

`parseAnsi` finds where an escape sequence ends by looking ahead; a reader of control sequences takes
a text character by character. They show the same characters, at the same places and in the same
styles (`runs_reading`): wherever the loop stands, the reader behind the part of the text before it is
in its ground mode, and `scanEscape` skips just what the reader takes.

So `parseAnsi` ends (`parseAnsi_ends`), and its spans are the characters that the reader shows,
neighbours of one style put together.
-/

namespace OpenshiftConsole.Logging.Ansi

open OpenshiftConsole.Library
open ControlSequences

/-- What a complete control sequence does to the style. -/
def act (params : Str) (final : UInt16) (style : AnsiStyle) : AnsiStyle :=
  if final = 0x6d ∧ ¬isPrivate params then applySgr style params else style

/-- The style of a span that is drawn in a style: null for the surrounding one. -/
def spanStyle (style : AnsiStyle) : Option AnsiStyle := if isPlain style then none else some style

/-- What a reader shows, with the styles of spans. -/
def readFrom (r : Reader AnsiStyle) (place : ℕ) (text : Str) : List (Shown (Option AnsiStyle)) :=
  (r.shown act place text).map fun x => ⟨x.place, x.char, spanStyle x.style⟩

theorem readFrom_append (r : Reader AnsiStyle) (place : ℕ) (text rest : Str) :
    readFrom r place (text ++ rest) = readFrom r place text ++ readFrom (r.after act text) (place + text.length) rest := by
  rw [readFrom, Reader.shown_append, List.map_append]
  rfl

/-- What is shown of a text. -/
def reading (text : Str) : List (Shown (Option AnsiStyle)) := readFrom ⟨.ground, plainStyle⟩ 0 text

/-- The characters of a run. -/
def AnsiRun.shown (text : Str) (run : AnsiRun) : List (Shown (Option AnsiStyle)) :=
  placed run.style run.start (slice text run.start run.stop)

/-! ### The scanner skips what the reader takes -/

/-- From place `i`, the reader shows what it shows from `stop` on, in its ground mode and another style. -/
structure Skips (r : Reader AnsiStyle) (text : Str) (i stop : ℕ) (style : AnsiStyle) : Prop where
  le : i ≤ stop
  le_length : stop ≤ i + text.length
  shown : r.shown act i text = Reader.shown act ⟨.ground, style⟩ stop (text.drop (stop - i))

variable {r : Reader AnsiStyle} {text : Str} {i stop : ℕ} {style style' : AnsiStyle} {c : UInt16} {m : Mode}

theorem Skips.here (h : r.shown act i text = Reader.shown act ⟨.ground, style⟩ i text) : Skips r text i i style :=
  ⟨Nat.le_refl i, Nat.le_add_right .., by rwa [Nat.sub_self]⟩

/-- A character is taken, and the rest is skipped. -/
theorem Skips.cons (h : Skips ⟨m, r.style⟩ text (i + 1) stop style) (hc : step r.mode c = (m, .taken)) :
    Skips r (c :: text) i stop style := by
  obtain ⟨hle, hlength, hshown⟩ := h
  refine ⟨by omega, by rw [List.length_cons]; omega, ?_⟩
  have hsub : stop - i = stop - (i + 1) + 1 := by omega
  rw [Reader.shown_cons_of_taken hc, hshown, hsub, List.drop_succ_cons]

/-- The character is the last that is taken. -/
theorem Skips.last (hc : step r.mode c = (.ground, .taken)) : Skips r (c :: text) i (i + 1) r.style :=
  (Skips.here rfl).cons hc

/-- What is skipped from a place in a text. -/
theorem Skips.drop (h : Skips r (text.drop i) i stop style) (hi : i ≤ text.length) :
    stop ≤ text.length ∧ r.shown act i (text.drop i) = Reader.shown act ⟨.ground, style⟩ stop (text.drop stop) := by
  obtain ⟨hle, hlength, hshown⟩ := h
  rw [List.length_drop] at hlength
  refine ⟨by omega, ?_⟩
  rw [hshown, List.drop_drop, Nat.add_sub_cancel' hle]

theorem skips_params (params : Str) (style : AnsiStyle) (text : Str) (i : ℕ) :
    Skips ⟨.control params, style⟩ text i (scanParams params text i).stop
      ((scanParams params text i).sgr.elim style (applySgr style)) := by
  induction text generalizing params i with
  | nil => exact .here rfl
  | cons c text ih =>
    rw [scanParams]
    split
    · rename_i hfinal
      have hstep : step (.control params) c = (.ground, .complete params c) := if_pos hfinal
      refine ⟨Nat.le_succ i, by simp only [List.length_cons]; omega, ?_⟩
      rw [Reader.shown_cons_of_complete hstep, Nat.add_sub_cancel_left, List.drop_one, List.tail_cons, act]
      dsimp only
      split <;> rfl
    · rename_i hfinal
      split
      · rename_i hbroken
        have hstep : step (.control params) c = step .ground c := by
          simp only [step, if_neg hfinal, notParameter_iff.mpr hbroken]
          rfl
        refine .here ?_
        rw [Reader.shown, Reader.shown, Reader.next, Reader.next, hstep]
        rfl
      · rename_i hgood
        refine (ih (params ++ [c]) (i + 1)).cons ?_
        have hparam : isParameter c = true := by
          by_contra h
          exact hgood (notParameter_iff.mp (Bool.eq_false_iff.mpr h))
        simp only [step, if_neg hfinal, hparam, if_true]

theorem skips_string (style : AnsiStyle) (text : Str) (i : ℕ) : Skips ⟨.string, style⟩ text i (scanString text i) style := by
  induction text generalizing i with
  | nil => exact .here rfl
  | cons c text ih =>
    rw [scanString]
    split
    · rename_i hbel
      exact .last (if_pos hbel)
    · rename_i hbel
      have hstep : ∀ {m}, (c = esc → m = .stringEscape) → (c ≠ esc → m = .string) → step .string c = (m, .taken) := by
        intro m h h'
        rw [step, stepString, if_neg hbel]
        split
        · rw [h ‹_›]
        · rw [h' ‹_›]
      split
      · rename_i hst
        obtain ⟨hesc, hhead⟩ := hst
        obtain ⟨rest, rfl⟩ : ∃ rest, text = backslash :: rest := List.head?_eq_some_iff.mp hhead
        exact (Skips.last (r := ⟨.stringEscape, style⟩) rfl).cons (hstep (fun _ => rfl) fun h => absurd hesc h)
      · rename_i hst
        by_cases hesc : c = esc
        · have hhead : text.head? ≠ some backslash := fun h => hst ⟨hesc, h⟩
          obtain ⟨hle, hlength, hshown⟩ := ih (i + 1)
          refine Skips.cons (m := .stringEscape) ⟨hle, hlength, ?_⟩ (hstep (fun _ => rfl) fun h => absurd hesc h)
          rw [Reader.shown_stringEscape hhead, hshown]
        · exact (ih (i + 1)).cons (hstep (fun h => absurd h hesc) fun _ => rfl)

/-- Behind ESC and what may be intermediates. -/
theorem skips_intermediates (style : AnsiStyle) (c : UInt16) (text : Str) (i : ℕ) :
    Skips ⟨if isIntermediate c then .intermediate else .ground, style⟩ text i (scanIntermediates c text i) style := by
  induction text generalizing c i with
  | nil =>
    refine .here ?_
    rfl
  | cons d text ih =>
    rw [scanIntermediates]
    split
    · rename_i hc
      refine (ih d (i + 1)).cons ?_
      rw [step]
      split <;> rfl
    · exact .here rfl

/-- An escape sequence of a text is what the reader takes at its introducer. -/
theorem skips_escape {text : Str} {i : ℕ} (hc : text[i]? = some c) (hintro : c = esc ∨ c = csi) (style : AnsiStyle) :
    i < (scanEscape text i).stop ∧ (scanEscape text i).stop ≤ text.length ∧
      Reader.shown act ⟨.ground, style⟩ i (text.drop i) =
        Reader.shown act ⟨.ground, (scanEscape text i).sgr.elim style (applySgr style)⟩ (scanEscape text i).stop
          (text.drop (scanEscape text i).stop) := by
  obtain ⟨hi, rfl⟩ := List.getElem?_eq_some_iff.mp hc
  have hdrop : ∀ {j} (hj : j < text.length), text.drop j = text[j] :: text.drop (j + 1) := fun hj =>
    List.drop_eq_getElem_cons hj
  have hbehind : ∀ {stop style'}, Skips ⟨.ground, style⟩ (text.drop i) i stop style' → i < stop →
      i < stop ∧ stop ≤ text.length ∧ Reader.shown act ⟨.ground, style⟩ i (text.drop i) =
        Reader.shown act ⟨.ground, style'⟩ stop (text.drop stop) := fun hskip hlt => ⟨hlt, hskip.drop hi.le⟩
  rw [scanEscape]
  dsimp only
  split
  · rename_i hcsi
    rw [hc, Option.some_inj] at hcsi
    have hskip := skips_params [] style (text.drop (i + 1)) (i + 1)
    refine hbehind ?_ (by have := hskip.le; omega)
    rw [hdrop hi]
    exact hskip.cons (by rw [hcsi]; rfl)
  · rename_i hcsi
    have hesc : text[i] = esc := hintro.resolve_right fun h => hcsi (by rw [hc, h])
    have hstep : step .ground text[i] = (.escape, .taken) := if_pos hesc
    cases hk : text[i + 1]? with
    | none =>
      refine hbehind ?_ (Nat.lt_succ_self i)
      rw [hdrop hi, List.drop_eq_nil_of_le (List.getElem?_eq_none_iff.mp hk)]
      exact Skips.cons (m := .escape) (.here rfl) hstep
    | some kind =>
      obtain ⟨hi', rfl⟩ := List.getElem?_eq_some_iff.mp hk
      set kind := text[i + 1]
      have hnext : ∀ {m stop style'}, step .escape kind = (m, .taken) →
          Skips ⟨m, style⟩ (text.drop (i + 1 + 1)) (i + 1 + 1) stop style' → i < stop ∧ stop ≤ text.length ∧
            Reader.shown act ⟨.ground, style⟩ i (text.drop i) = Reader.shown act ⟨.ground, style'⟩ stop (text.drop stop) := by
        intro m stop style' hkind hskip
        refine hbehind ?_ (by have := hskip.le; omega)
        rw [hdrop hi, hdrop hi']
        exact (hskip.cons (r := ⟨.escape, style⟩) hkind).cons hstep
      dsimp only
      split
      · rename_i hbracket
        exact hnext (if_pos hbracket) (skips_params [] style _ _)
      · rename_i hbracket
        split
        · rename_i hstring
          exact hnext (by simp only [step, if_neg hbracket, if_pos hstring]) (skips_string style _ _)
        · rename_i hstring
          refine hnext ?_ (skips_intermediates style kind _ _)
          simp only [step, if_neg hbracket, if_neg hstring]
          split <;> rfl

/-! ### The loop -/

/-- The invariant: what has been pushed, what is to be pushed next, and what the reader shows of the rest. -/
structure Inv (text : Str) (s : LoopState) : Prop where
  current : s.current = spanStyle s.style
  started : s.runStart ≤ s.index
  inside : s.index ≤ text.length
  shown : s.runs.flatMap (AnsiRun.shown text) ++ AnsiRun.shown text ⟨s.runStart, s.index, s.current⟩ ++
    readFrom ⟨.ground, s.style⟩ s.index (text.drop s.index) = reading text

theorem inv_start (text : Str) :
    Inv text { runs := [], style := plainStyle, current := none, runStart := 0, index := 0 } where
  current := rfl
  started := Nat.le_refl 0
  inside := Nat.zero_le _
  shown := by simp [AnsiRun.shown, slice_self, placed, reading]

/-- What is pushed is shown; an empty run shows nothing. -/
theorem push_shown (text : Str) (s : LoopState) (stop : ℕ) :
    (s.push stop).flatMap (AnsiRun.shown text) =
      s.runs.flatMap (AnsiRun.shown text) ++ AnsiRun.shown text ⟨s.runStart, stop, s.current⟩ := by
  rw [LoopState.push]
  split
  · rename_i hle
    have : slice text s.runStart stop = [] := by
      rw [slice]
      exact List.drop_eq_nil_of_le (Nat.le_trans (List.length_take_le ..) hle)
    simp [AnsiRun.shown, this, placed]
  · simp

variable {s : LoopState}

/-- A character that is shown goes into the run. -/
theorem Inv.shows (h : Inv text s) (hc : text[s.index]? = some c) (hplain : isPlainChar c) :
    Inv text { s with index := s.index + 1 } := by
  obtain ⟨hi, rfl⟩ := List.getElem?_eq_some_iff.mp hc
  refine ⟨h.current, Nat.le_succ_of_le h.started, hi, ?_⟩
  have hstep : step .ground text[s.index] = (.ground, .shown) := by
    simp only [step, stepGround, if_neg hplain.1, if_neg hplain.2]
  have hrest : readFrom ⟨.ground, s.style⟩ s.index (text.drop s.index) =
      ⟨s.index, text[s.index], spanStyle s.style⟩ :: readFrom ⟨.ground, s.style⟩ (s.index + 1) (text.drop (s.index + 1)) := by
    rw [List.drop_eq_getElem_cons hi, readFrom, Reader.shown_cons_of_shown hstep]
    rfl
  have hrun : AnsiRun.shown text ⟨s.runStart, s.index + 1, s.current⟩ =
      AnsiRun.shown text ⟨s.runStart, s.index, s.current⟩ ++ [⟨s.index, text[s.index], spanStyle s.style⟩] := by
    simp only [AnsiRun.shown, slice_succ h.started hc, placed_append, length_slice s.runStart h.inside, h.current,
      Nat.add_sub_cancel' h.started, placed]
  rw [← h.shown, hrest, hrun]
  simp

/-- A sequence ends the run, and the next one starts behind it. -/
theorem Inv.skips (h : Inv text s) (hc : text[s.index]? = some c) (hintro : c = esc ∨ c = csi) :
    Inv text {
      runs := s.push s.index
      style := (scanEscape text s.index).sgr.elim s.style (applySgr s.style)
      current := if (scanEscape text s.index).sgr.isSome then
          spanStyle ((scanEscape text s.index).sgr.elim s.style (applySgr s.style)) else s.current
      runStart := (scanEscape text s.index).stop
      index := (scanEscape text s.index).stop } := by
  obtain ⟨-, hle, hskip⟩ := skips_escape hc hintro s.style
  refine ⟨?_, Nat.le_refl _, hle, ?_⟩
  · dsimp only
    cases (scanEscape text s.index).sgr with
    | none => exact h.current
    | some params => rfl
  · dsimp only
    rw [push_shown, ← h.shown, readFrom, readFrom, hskip]
    simp [AnsiRun.shown, slice_self, placed]

/-- Every turn keeps the invariant and moves on, and the last one has pushed what is shown. -/
theorem ansiStep_inv (h : Inv text s) :
    (ansiStep text s).Returns (Sum.elim (fun s' => Inv text s' ∧ text.length - s'.index < text.length - s.index)
      fun runs => runs.flatMap (AnsiRun.shown text) = reading text) := by
  rw [ansiStep]
  split
  · rename_i hend
    have hlength : s.index = text.length := Nat.le_antisymm h.inside (List.getElem?_eq_none_iff.mp hend)
    refine .ret ?_
    rw [Sum.elim_inr, push_shown, ← h.shown, hlength, List.drop_length]
    simp [readFrom]
  · rename_i c hc
    obtain ⟨hi, -⟩ := List.getElem?_eq_some_iff.mp hc
    split
    · rename_i hplain
      exact .ret ⟨h.shows hc hplain, by simp only; omega⟩
    · rename_i hintro
      have hintro : c = esc ∨ c = csi := by
        by_cases hesc : c = esc
        · exact .inl hesc
        · exact .inr (by_contra fun hcsi => hintro ⟨hesc, hcsi⟩)
      obtain ⟨hlt, hle, -⟩ := skips_escape hc hintro s.style
      exact .ret ⟨h.skips hc hintro, by simp only; omega⟩

/-- **`parseAnsi` shows what the reader shows**: its loop ends, and what it pushes are the characters that are
shown, at their places. -/
theorem runsFor_returns (text : Str) :
    ∃ runs, runs.flatMap (AnsiRun.shown text) = reading text ∧
      ∀ fuel, text.length < fuel → runsFor fuel text = .returned runs :=
  Exec.loop_returns (fun s : LoopState => text.length - s.index) (fun _ h => ansiStep_inv h) (inv_start text)

theorem runsFor_eq {text : Str} {fuel : ℕ} (h : text.length < fuel) : runsFor fuel text = .returned (runsOf text) := by
  obtain ⟨runs, -, hruns⟩ := runsFor_returns text
  rw [hruns fuel h, runsOf, hruns _ (Nat.lt_succ_self _)]

theorem runs_reading (text : Str) : (runsOf text).flatMap (AnsiRun.shown text) = reading text := by
  obtain ⟨runs, hshown, hruns⟩ := runsFor_returns text
  rw [runsOf, hruns _ (Nat.lt_succ_self _)]
  exact hshown

/-- `parseAnsi` ends, with any fuel that is more than the text's length. -/
theorem parseAnsi_ends {text : Str} {fuel : ℕ} (h : text.length < fuel) : parseAnsiFor fuel text = .returned (parseAnsi text) := by
  rw [parseAnsiFor, parseAnsi, runsFor_eq h]
  split <;> rfl

/-! ### The spans -/

/-- The characters of spans, each with its style. -/
def styled (spans : List AnsiSpan) : List (UInt16 × Option AnsiStyle) := spans.flatMap fun s => s.text.map (·, s.style)

/-- A character and its style. -/
def charStyle {σ : Type*} (x : Shown σ) : UInt16 × σ := (x.char, x.style)

theorem charStyle_placed {σ : Type*} (style : σ) (i : ℕ) (text : Str) :
    (placed style i text).map charStyle = text.map (·, style) := by
  induction text generalizing i with
  | nil => rfl
  | cons c text ih => rw [placed, List.map_cons, ih]; rfl

theorem styled_pushSpan (text : Str) (spans : List AnsiSpan) (run : AnsiRun) :
    styled (pushSpan text spans run) = styled spans ++ (run.shown text).map charStyle := by
  rw [AnsiRun.shown, charStyle_placed, pushSpan]
  split
  · rename_i last hlast
    split
    · rename_i hsame
      have hstyle : last.style = run.style := by simpa [sameStyle] using hsame
      conv_rhs => rw [← List.dropLast_append_getLast? last hlast]
      simp [styled, hstyle]
    · simp [styled]
  · rename_i hnone
    rw [List.getLast?_eq_none_iff.mp hnone]
    simp [styled]

theorem styled_foldl (text : Str) (runs : List AnsiRun) (spans : List AnsiSpan) :
    styled (runs.foldl (pushSpan text) spans) = styled spans ++ (runs.flatMap (AnsiRun.shown text)).map charStyle := by
  induction runs generalizing spans with
  | nil => simp
  | cons run runs ih => rw [List.foldl_cons, ih, styled_pushSpan, List.flatMap_cons, List.map_append, List.append_assoc]

theorem plain_of_hasAnsi {text : Str} (h : ¬hasAnsi text) : ∀ c ∈ text, isPlainChar c := by
  simp only [hasAnsi, decide_eq_true_eq, not_or] at h
  exact fun c hc => ⟨fun he => h.1 (he ▸ hc), fun he => h.2 (he ▸ hc)⟩

theorem map_placed (style : AnsiStyle) (place : ℕ) (text : Str) :
    (placed style place text).map (fun x => ⟨x.place, x.char, spanStyle x.style⟩) = placed (spanStyle style) place text := by
  induction text generalizing place with
  | nil => rfl
  | cons c text ih => rw [placed, List.map_cons, ih, placed]

/-- Text without escape sequences is read as it is. -/
theorem readFrom_plain {style : AnsiStyle} {place : ℕ} {text : Str} (h : ∀ c ∈ text, isPlainChar c) :
    readFrom ⟨.ground, style⟩ place text = placed (spanStyle style) place text := by
  rw [readFrom, (plain_text act h).2, map_placed]

/-- The spans of a text are the characters that are shown, in their styles. -/
theorem styled_parseAnsi (text : Str) : styled (parseAnsi text) = (reading text).map charStyle := by
  rw [parseAnsi]
  split
  · have hspans : styled (spansOf text (runsOf text)) = styled ((runsOf text).foldl (pushSpan text) []) := by
      rw [spansOf]
      split
      · rename_i hnil
        rw [hnil]
        rfl
      · rfl
    rw [hspans, styled_foldl, runs_reading]
    rfl
  · rename_i hplain
    rw [reading, readFrom_plain (plain_of_hasAnsi hplain), charStyle_placed]
    simp [styled, spanStyle, isPlain, plainStyle]

theorem spansText_eq (spans : List AnsiSpan) : spansText spans = (styled spans).map Prod.fst := by
  simp [spansText, styled, List.map_flatMap, Function.comp_def]

/-- `stripAnsi` gives the characters that are shown. -/
theorem stripAnsi_eq (text : Str) : stripAnsi text = (reading text).map Shown.char := by
  have hspans : spansText (parseAnsi text) = (reading text).map Shown.char := by
    rw [spansText_eq, styled_parseAnsi, List.map_map]
    rfl
  rw [stripAnsi]
  split
  · exact hspans
  · rename_i hplain
    rw [← hspans, parseAnsi, if_neg hplain]
    simp [spansText]

/-- What is shown of a text has no style in it. -/
theorem stripAnsi_text (text : Str) : stripAnsi text = Mode.ground.shownText text := by
  rw [stripAnsi_eq, reading, readFrom, List.map_map]
  exact Reader.shown_chars

/-! ### What holds of every text -/

theorem reading_plain {text : Str} {x : Shown (Option AnsiStyle)} (h : x ∈ reading text) : isPlainChar x.char := by
  obtain ⟨y, hy, rfl⟩ := List.mem_map.mp h
  exact isPlainChar_of_shown act hy

/-- The spans' text introduces no escape sequence. -/
theorem spansText_plain {text : Str} {c : UInt16} (h : c ∈ spansText (parseAnsi text)) : isPlainChar c := by
  rw [spansText_eq, styled_parseAnsi, List.map_map] at h
  obtain ⟨x, hx, rfl⟩ := List.mem_map.mp h
  exact reading_plain hx

theorem hasAnsi_stripAnsi (text : Str) : ¬hasAnsi (stripAnsi text) := by
  have hplain : ∀ c ∈ stripAnsi text, isPlainChar c := fun c hc => by
    rw [stripAnsi_eq] at hc
    obtain ⟨x, hx, rfl⟩ := List.mem_map.mp hc
    exact reading_plain hx
  simp only [hasAnsi, decide_eq_true_eq, not_or]
  exact ⟨fun h => (hplain esc h).1 rfl, fun h => (hplain csi h).2 rfl⟩

theorem stripAnsi_idempotent (text : Str) : stripAnsi (stripAnsi text) = stripAnsi text := if_neg (hasAnsi_stripAnsi text)

/-- A run is put to the last span, or it differs from it in style. -/
theorem styles_pushSpan (text : Str) {spans : List AnsiSpan} (run : AnsiRun)
    (h : (spans.map AnsiSpan.style).IsChain (· ≠ ·)) : ((pushSpan text spans run).map AnsiSpan.style).IsChain (· ≠ ·) := by
  rw [pushSpan]
  split
  · rename_i last hlast
    split
    · have hstyles : (spans.dropLast ++ [{ last with text := last.text ++ slice text run.start run.stop }]).map AnsiSpan.style =
          spans.map AnsiSpan.style := by
        conv_rhs => rw [← List.dropLast_append_getLast? last hlast]
        simp
      rwa [hstyles]
    · rename_i hdiffer
      rw [List.map_append, List.isChain_append]
      refine ⟨h, by simp, ?_⟩
      simp only [List.getLast?_map, hlast, Option.map_some, Option.mem_def, Option.some_inj, List.map_cons, List.map_nil,
        List.head?_cons, forall_eq']
      simpa [sameStyle] using hdiffer
  · simp

/-- Neighbouring spans differ in style. -/
theorem styles_parseAnsi (text : Str) : ((parseAnsi text).map AnsiSpan.style).IsChain (· ≠ ·) := by
  have hfoldl : ∀ (runs : List AnsiRun) (spans : List AnsiSpan), (spans.map AnsiSpan.style).IsChain (· ≠ ·) →
      ((runs.foldl (pushSpan text) spans).map AnsiSpan.style).IsChain (· ≠ ·) := by
    intro runs
    induction runs with
    | nil => exact fun spans h => h
    | cons run runs ih => exact fun spans h => ih _ (styles_pushSpan text run h)
  rw [parseAnsi]
  split
  · rw [spansOf]
    split
    · simp
    · exact hfoldl _ [] (by simp)
  · simp

end OpenshiftConsole.Logging.Ansi
