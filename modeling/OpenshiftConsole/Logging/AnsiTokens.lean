import OpenshiftConsole.Logging.AnsiReading

/-!
# Texts written from escape sequences

A text that is written from tokens, plain runs and escape sequences that are complete, shows its
plain runs, each character in the style that the SGR sequences before it set, and no other
sequence has any effect (`parseAnsi_grammar`).

A text in which something else is left unfinished may show the characters of an SGR sequence. It
does exactly where one comes while a two-character or nF escape waits for its last character: that
takes the ESC, and the rest of the sequence is text (`debris_iff`).
-/

namespace OpenshiftConsole.Logging.Ansi

open OpenshiftConsole.Library
open ControlSequences
open Journal (ascii)

/-! ### Tokens -/

/-- A character of SGR parameters: a digit, `;` or `:`. -/
def isSgrParam (c : UInt16) : Bool := 0x30 ≤ c ∧ c ≤ 0x3b

/-- The last character of a two-character or an nF escape. -/
def isEscapeFinal (c : UInt16) : Bool := 0x30 ≤ c ∧ c ≤ 0x7e

/-- What a text may be written from. -/
inductive Token where
  /-- A run without `ESC` and U+009B. -/
  | plain (run : Str) (clean : ∀ c ∈ run, isPlainChar c)
  /-- An SGR sequence. -/
  | sgr (eightBit : Bool) (params : Str) (clean : ∀ c ∈ params, isSgrParam c)
  /-- Another control sequence without intermediate bytes. -/
  | control (eightBit : Bool) (params : Str) (final : UInt16) (clean : ∀ c ∈ params, 0x30 ≤ c ∧ c ≤ 0x3f)
      (ends : isFinal final) (other : final = 0x6d → isPrivate params)
  /-- A control string (`OSC`, `DCS`, `SOS`, `PM`, `APC`), ended by `ST` or `BEL`. -/
  | string (kind : UInt16) (content : Str) (st : Bool) (isKind : isStringKind kind) (noBel : bel ∉ content)
      (noSt : ¬[esc, backslash] <:+: content)
  /-- An nF sequence. -/
  | nF (intermediates : Str) (final : UInt16) (filled : intermediates ≠ []) (clean : ∀ c ∈ intermediates, isIntermediate c)
      (ends : isEscapeFinal final)
  /-- A two-character escape. -/
  | escape (final : UInt16) (ends : isEscapeFinal final) (other : final ≠ bracket ∧ ¬isStringKind final)

/-- `CSI`, of one character or of two. -/
def introducer (eightBit : Bool) : Str := if eightBit then [csi] else [esc, bracket]

/-- The text of a token. -/
def Token.text : Token → Str
  | plain run _ => run
  | sgr eightBit params _ => introducer eightBit ++ (params ++ [0x6d])
  | control eightBit params final _ _ _ => introducer eightBit ++ (params ++ [final])
  | string kind content st _ _ _ => [esc, kind] ++ (content ++ terminator st)
  | nF intermediates final _ _ _ => [esc] ++ (intermediates ++ [final])
  | escape final _ _ => [esc, final]

/-- The text of tokens. -/
def render (tokens : List Token) : Str := tokens.flatMap Token.text

/-- The text of a token that is shown. -/
def Token.run : Token → Str
  | plain run _ => run
  | _ => []

/-- The plain runs. -/
def plainText (tokens : List Token) : Str := tokens.flatMap Token.run

/-- The characters of the plain runs, in the styles that the SGR sequences before them set. -/
def styledTokens (style : AnsiStyle) : List Token → List (UInt16 × Option AnsiStyle)
  | [] => []
  | .plain run _ :: tokens => run.map (·, spanStyle style) ++ styledTokens style tokens
  | .sgr _ params _ :: tokens => styledTokens (applySgr style params) tokens
  | _ :: tokens => styledTokens style tokens

variable {style : AnsiStyle} {params : Str} {final : UInt16}

theorem takes_introducer (eightBit : Bool) : Takes act ⟨.ground, style⟩ (introducer eightBit) ⟨.control [], style⟩ := by
  cases eightBit
  · exact .cons (m := .escape) rfl (.cons (m := .control []) rfl .nil)
  · exact .cons (m := .control []) rfl .nil

theorem takes_control (style : AnsiStyle) (eightBit : Bool) (hparams : ∀ c ∈ params, isParameter c) (hfinal : isFinal final) :
    Takes act ⟨.ground, style⟩ (introducer eightBit ++ (params ++ [final])) ⟨.ground, act params final style⟩ :=
  (takes_introducer eightBit).append (.control hparams hfinal)

theorem isParameter_of_between {c : UInt16} {hi : UInt16} (h : 0x30 ≤ c ∧ c ≤ hi) (hhi : hi ≤ 0x3f) : isParameter c := by
  simp only [isParameter, decide_eq_true_eq]
  exact ⟨UInt16.le_trans (by decide) h.1, UInt16.le_trans h.2 hhi⟩

/-- SGR parameters are not private. -/
theorem act_sgr (h : ∀ c ∈ params, isSgrParam c) : act params 0x6d style = applySgr style params := by
  have hprivate : isPrivate params = false := by
    simp only [isPrivate, List.any_eq_false, decide_eq_true_eq, not_and]
    intro c hc hle _
    have := h c hc
    simp only [isSgrParam, decide_eq_true_eq] at this
    exact absurd (UInt16.le_trans hle this.2) (by decide)
  rw [act, hprivate]
  exact if_pos ⟨rfl, by decide⟩

theorem act_other (h : final = 0x6d → isPrivate params) : act params final style = style := by
  rw [act]
  exact if_neg fun hm => hm.2 (h hm.1)

/-- A two-character escape's or nF sequence's last character is no intermediate byte. -/
theorem not_isIntermediate {c : UInt16} (h : isEscapeFinal c) : isIntermediate c = false := by
  simp only [isEscapeFinal, isIntermediate, decide_eq_true_eq, decide_eq_false_iff_not, not_and] at h ⊢
  exact fun _ hle => absurd (UInt16.le_trans h.1 hle) (by decide)

theorem takes_nF {intermediates : Str} (hsome : intermediates ≠ []) (hclean : ∀ c ∈ intermediates, isIntermediate c)
    (hfinal : isEscapeFinal final) :
    Takes act ⟨.ground, style⟩ ([esc] ++ (intermediates ++ [final])) ⟨.ground, style⟩ := by
  obtain ⟨c, rest, rfl⟩ := List.exists_cons_of_ne_nil hsome
  have hc : isIntermediate c := hclean c List.mem_cons_self
  have hlow : ∀ d : UInt16, 0x2f < d → c ≠ d := fun d hd he => by
    simp only [isIntermediate, decide_eq_true_eq] at hc
    exact absurd (UInt16.lt_of_lt_of_le hd (he ▸ hc.2)) (UInt16.lt_irrefl _)
  have hkind : isStringKind c = false := by
    simp only [isStringKind, decide_eq_false_iff_not, not_or]
    exact ⟨hlow _ (by decide), hlow _ (by decide), hlow _ (by decide), hlow _ (by decide), hlow _ (by decide)⟩
  refine .cons (m := .escape) rfl (.cons (m := .intermediate) ?_ ?_)
  · simp only [step, if_neg (hlow bracket (by decide)), hkind, hc, if_true, Bool.false_eq_true, if_false]
  · refine (Takes.intermediates fun d hd => hclean d (List.mem_cons_of_mem c hd)).append (.cons (m := .ground) ?_ .nil)
    simp only [step, not_isIntermediate hfinal, Bool.false_eq_true, if_false]

theorem takes_escape (hfinal : isEscapeFinal final) (hother : final ≠ bracket ∧ ¬isStringKind final) :
    Takes act ⟨.ground, style⟩ [esc, final] ⟨.ground, style⟩ := by
  refine .cons (m := .escape) rfl (.cons (m := .ground) ?_ .nil)
  simp only [step, if_neg hother.1, if_neg hother.2, not_isIntermediate hfinal, Bool.false_eq_true, if_false]

theorem takes_string {kind : UInt16} {content : Str} (st : Bool) (hkind : isStringKind kind) (hbel : bel ∉ content)
    (hst : ¬[esc, backslash] <:+: content) :
    Takes act ⟨.ground, style⟩ ([esc, kind] ++ (content ++ terminator st)) ⟨.ground, style⟩ := by
  have hbracket : kind ≠ bracket := by
    rintro rfl
    exact absurd hkind (by decide)
  obtain ⟨m, hm, hcontent⟩ := takes_content act (s := style) (m := .string) (.inl rfl) hbel hst (fun h => by cases h)
  refine .cons (m := .escape) rfl (.cons (m := .string) ?_ (hcontent.append (takes_terminator act hm st)))
  simp only [step, if_neg hbracket, hkind, if_true]

/-- The style behind a token. -/
def Token.restyle (style : AnsiStyle) : Token → AnsiStyle
  | sgr _ params _ => applySgr style params
  | _ => style

/-- A token leaves the reader in its ground mode, and it is shown if it is a plain run. -/
theorem read_token (token : Token) (style : AnsiStyle) (place : ℕ) :
    Reader.after act ⟨.ground, style⟩ token.text = ⟨.ground, token.restyle style⟩ ∧
      readFrom ⟨.ground, style⟩ place token.text = placed (spanStyle style) place token.run := by
  have htakes : ∀ {text style'}, Takes act ⟨.ground, style⟩ text ⟨.ground, style'⟩ →
      Reader.after act ⟨.ground, style⟩ text = ⟨.ground, style'⟩ ∧ readFrom ⟨.ground, style⟩ place text = [] :=
    fun h => ⟨h.after, by rw [readFrom, h.shown]; rfl⟩
  cases token with
  | plain run clean => exact ⟨(@plain_text _ _ place _ act clean).1, readFrom_plain clean⟩
  | sgr eightBit params clean =>
    have hparams : ∀ c ∈ params, isParameter c := fun c hc =>
      isParameter_of_between (by simpa [isSgrParam] using clean c hc) (by decide)
    have := takes_control style eightBit hparams (by decide : isFinal 0x6d)
    rw [act_sgr clean] at this
    exact htakes this
  | control eightBit params final clean ends other =>
    have hparams : ∀ c ∈ params, isParameter c := fun c hc => isParameter_of_between (clean c hc) (by decide)
    have := takes_control style eightBit hparams ends
    rw [act_other other] at this
    exact htakes this
  | string kind content st isKind noBel noSt => exact htakes (takes_string st isKind noBel noSt)
  | nF intermediates final filled clean ends => exact htakes (takes_nF filled clean ends)
  | escape final ends other => exact htakes (takes_escape ends other)

/-- The characters that are shown of tokens, with their styles. -/
theorem read_tokens (tokens : List Token) (style : AnsiStyle) (place : ℕ) :
    (readFrom ⟨.ground, style⟩ place (render tokens)).map charStyle = styledTokens style tokens := by
  induction tokens generalizing style place with
  | nil => rfl
  | cons token tokens ih =>
    obtain ⟨hafter, hshown⟩ := read_token token style place
    rw [render, List.flatMap_cons, readFrom_append, hafter, List.map_append, hshown, charStyle_placed]
    exact congrArg _ (ih (token.restyle style) (place + token.text.length)) |>.trans (by cases token <;> rfl)

/-- The plain runs are shown in some style each. -/
theorem styledTokens_text (style : AnsiStyle) (tokens : List Token) :
    (styledTokens style tokens).map Prod.fst = plainText tokens := by
  induction tokens generalizing style with
  | nil => rfl
  | cons token tokens ih =>
    rw [plainText, List.flatMap_cons]
    cases token with
    | plain run clean =>
      rw [styledTokens, List.map_append, ih, List.map_map]
      exact congrArg (· ++ plainText tokens) (List.map_id run)
    | _ => exact ih _

/-- **The escape grammar**: `parseAnsi` ends on every text, neighbouring spans differ, and nothing introduces a sequence
any more; and a text that is written from tokens shows its plain runs, in the styles that the SGR sequences set. -/
theorem parseAnsi_grammar :
    (∀ text fuel, parseAnsiFor (text.length + 1 + fuel) text = .returned (parseAnsi text) ∧
      ((parseAnsi text).map AnsiSpan.style).IsChain (· ≠ ·) ∧
      esc ∉ spansText (parseAnsi text) ∧ csi ∉ spansText (parseAnsi text) ∧
      stripAnsi (stripAnsi text) = stripAnsi text) ∧
    ∀ tokens, spansText (parseAnsi (render tokens)) = plainText tokens ∧
      styled (parseAnsi (render tokens)) = styledTokens plainStyle tokens := by
  refine ⟨fun text fuel => ⟨parseAnsi_ends (by omega), styles_parseAnsi text, fun h => (spansText_plain h).1 rfl,
    fun h => (spansText_plain h).2 rfl, stripAnsi_idempotent text⟩, fun tokens => ?_⟩
  have hstyled : styled (parseAnsi (render tokens)) = styledTokens plainStyle tokens := by
    rw [styled_parseAnsi]
    exact read_tokens tokens plainStyle 0
  refine ⟨?_, hstyled⟩
  rw [spansText_eq, hstyled]
  exact styledTokens_text plainStyle tokens

/-! ### Debris -/

/-- What a text may be written from where not every escape sequence is complete. -/
inductive Piece where
  /-- Any text: a plain run, a lone ESC, an escape sequence without its end. -/
  | text (run : Str)
  /-- An SGR sequence. -/
  | sgr (params : Str) (clean : ∀ c ∈ params, isSgrParam c)

/-- The text of a piece. -/
def Piece.written : Piece → Str
  | text run => run
  | sgr params _ => [esc, bracket] ++ (params ++ [0x6d])

/-- The text of pieces. -/
def written (pieces : List Piece) : Str := pieces.flatMap Piece.written

/-- The place is one of an SGR sequence. -/
def InSgr (pieces : List Piece) (place : ℕ) : Prop :=
  ∃ front params clean rest, pieces = front ++ .sgr params clean :: rest ∧ (written front).length ≤ place ∧
    place < (written front).length + (Piece.sgr params clean).written.length

/-- The characters of a text that are kept, with their places. -/
def kept (text : Str) : List (Shown (Option AnsiStyle)) := (runsOf text).flatMap (AnsiRun.shown text)

variable {r : Reader AnsiStyle} {place : ℕ}

/-- The characters of an SGR sequence behind its ESC. -/
theorem sgr_chars {c : UInt16} (clean : ∀ c ∈ params, isSgrParam c) (h : c ∈ bracket :: (params ++ [0x6d])) :
    0x30 ≤ c ∧ c ≤ 0x6d := by
  simp only [List.mem_cons, List.mem_append, List.not_mem_nil, or_false] at h
  rcases h with rfl | h | rfl
  · decide
  · have := clean c h
    simp only [isSgrParam, decide_eq_true_eq] at this
    exact ⟨this.1, UInt16.le_trans this.2 (by decide)⟩
  · decide

/-- An SGR sequence is taken unless an escape sequence takes its ESC. -/
theorem sgr_taken (clean : ∀ c ∈ params, isSgrParam c) (h : ¬r.mode.awaitsFinal) :
    r.shown act place (Piece.sgr params clean).written = [] := by
  obtain ⟨m, style⟩ := r
  have hground : Reader.shown act ⟨.ground, style⟩ place (Piece.sgr params clean).written = [] :=
    (takes_control style false
      (fun c hc => isParameter_of_between (by simpa [isSgrParam] using clean c hc) (by decide)) (by decide : isFinal 0x6d)).shown place
  -- In a control string, the sequence is content.
  have hcontent : inString m → Reader.shown act ⟨m, style⟩ place (Piece.sgr params clean).written = [] := by
    intro hm
    have hbehind : esc ∉ bracket :: (params ++ [0x6d]) := fun h => absurd (sgr_chars clean h) (by decide)
    have hbel : bel ∉ esc :: bracket :: (params ++ [0x6d]) :=
      List.not_mem_cons_of_ne_of_not_mem (by decide) fun h => absurd (sgr_chars clean h) (by decide)
    have hst : ¬[esc, backslash] <:+: esc :: bracket :: (params ++ [0x6d]) := by
      rw [List.infix_cons_iff, not_or]
      exact ⟨fun h => absurd (List.cons_prefix_cons.mp (List.cons_prefix_cons.mp h).2).1 (by decide),
        fun h => hbehind (h.subset List.mem_cons_self)⟩
    obtain ⟨m', -, htakes⟩ := takes_content act (s := style) hm hbel hst fun _ => by simp [backslash, esc]
    exact htakes.shown place
  cases m with
  | ground => exact hground
  | escape => exact absurd (.inl rfl) h
  | intermediate => exact absurd (.inr rfl) h
  | control parameters =>
    -- The ESC gives up the control sequence.
    have hesc : step (.control parameters) esc = step .ground esc := rfl
    rw [← hground]
    rfl
  | string => exact hcontent (.inl rfl)
  | stringEscape => exact hcontent (.inr rfl)

/-- An escape sequence that takes the ESC leaves the rest of the SGR sequence as text. -/
theorem sgr_shown (clean : ∀ c ∈ params, isSgrParam c) (h : r.mode.awaitsFinal) :
    r.shown act place (Piece.sgr params clean).written = placed r.style (place + 1) (bracket :: (params ++ [0x6d])) := by
  obtain ⟨m, style⟩ := r
  have hstep : step m esc = (.ground, .taken) := by rcases h with rfl | rfl <;> rfl
  have hplain : ∀ c ∈ bracket :: (params ++ [0x6d]), isPlainChar c := by
    intro c hc
    constructor <;> rintro rfl <;> exact absurd (sgr_chars clean hc) (by decide)
  exact (Reader.shown_cons_of_taken hstep).trans (plain_text act hplain).2

/-- The characters that are kept of a text are those that the reader shows. -/
theorem kept_eq (text : Str) : kept text = reading text := runs_reading text

/-- What is shown of a part of the text, and what is shown of the text at the places of that part. -/
theorem mem_shown_part {front middle : Str} (rest : Str) {x : Shown AnsiStyle} :
    x ∈ (r.after act front).shown act front.length middle ↔
      x ∈ r.shown act 0 (front ++ (middle ++ rest)) ∧ front.length ≤ x.place ∧ x.place < front.length + middle.length := by
  rw [Reader.shown_append, Reader.shown_append, Nat.zero_add, List.mem_append, List.mem_append]
  constructor
  · exact fun h => ⟨.inr (.inl h), place_of_shown act h⟩
  · rintro ⟨h | h | h, hle, hlt⟩
    · have := place_of_shown act h
      omega
    · exact h
    · have := place_of_shown act h
      omega

theorem written_split (front : List Piece) (piece : Piece) (rest : List Piece) :
    written (front ++ piece :: rest) = written front ++ (piece.written ++ written rest) := by
  rw [written, List.flatMap_append, List.flatMap_cons]
  rfl

/-- **Debris**: no character of an SGR sequence is kept exactly where no SGR sequence comes while an escape sequence waits for
its last character. -/
theorem debris_iff (pieces : List Piece) :
    stripAnsi (written pieces) = (kept (written pieces)).map Shown.char ∧
      ((∀ x ∈ kept (written pieces), ¬InSgr pieces x.place) ↔
        ∀ front params clean rest, pieces = front ++ .sgr params clean :: rest →
          ¬(Mode.after .ground (written front)).awaitsFinal) := by
  refine ⟨by rw [stripAnsi_eq, kept_eq], ?_, ?_⟩
  · rintro hkept front params clean rest rfl hawaits
    have hmode : (Reader.after act ⟨.ground, plainStyle⟩ (written front)).mode.awaitsFinal := by rwa [Reader.mode_after]
    -- The `[` is shown.
    have hshown := @sgr_shown _ _ (written front).length clean hmode
    rw [placed] at hshown
    obtain ⟨hmem, hle, hlt⟩ := (mem_shown_part (written rest)).mp (hshown ▸ List.mem_cons_self)
    rw [← written_split] at hmem
    rw [kept_eq] at hkept
    exact hkept _ (List.mem_map_of_mem hmem) ⟨front, params, clean, rest, rfl, hle, hlt⟩
  · intro hfree x hx
    rintro ⟨front, params, clean, rest, rfl, hle, hlt⟩
    rw [kept_eq, reading, readFrom, List.mem_map] at hx
    obtain ⟨y, hy, rfl⟩ := hx
    rw [written_split] at hy
    have hpart := (mem_shown_part _).mpr ⟨hy, hle, hlt⟩
    rw [sgr_taken clean (by rw [Reader.mode_after]; exact hfree front params clean rest rfl)] at hpart
    cases hpart

/-- `ESC`, `ESC[31m` and `x`. -/
def loneEsc : List Piece := [.text [esc], .sgr (ascii "31") (List.all_eq_true.mp (by decide)), .text (ascii "x")]

/-- A lone ESC before an SGR sequence: `[31mx` is shown. -/
theorem debris_loneEsc :
    stripAnsi (written loneEsc) = ascii "[31mx" ∧ ¬∀ x ∈ kept (written loneEsc), ¬InSgr loneEsc x.place := by
  refine ⟨by decide +kernel, fun h => ?_⟩
  have hplace : 2 ∈ (kept (written loneEsc)).map Shown.place := by decide +kernel
  obtain ⟨x, hx, hxplace⟩ := List.mem_map.mp hplace
  exact h x hx ⟨[.text [esc]], ascii "31", List.all_eq_true.mp (by decide), [.text (ascii "x")], rfl,
    by rw [hxplace]; decide, by rw [hxplace]; decide⟩

end OpenshiftConsole.Logging.Ansi
