import Mathlib.Data.List.Basic

/-!
# Control sequences in a text

How a terminal's text is read, character by character, as control functions are coded: ESC introduces
a control sequence (with `[`), a control string (with one of `]PX^_`), or, after any
intermediate bytes, ends with the next character; U+009B introduces a control sequence too. A
control sequence has parameter and intermediate bytes and a final one, and is given up at any other
character; a control string ends with BEL or ESC `\`. What is not part of one of these is shown.

A `Reader` is the mode it is in and a rendition, on which each control sequence that is complete
acts; the action is a parameter. `Reader.after` is the reader behind a text, and
`Reader.shown` is what it shows of it: where, which character, and in which rendition.
-/

namespace OpenshiftConsole.Library.ControlSequences

/-! ### Modes -/

/-- What has been introduced and is not complete. -/
inductive Mode where
  /-- Nothing. -/
  | ground
  /-- ESC. -/
  | escape
  /-- ESC and intermediate bytes. -/
  | intermediate
  /-- A control sequence, with the bytes it has so far. -/
  | control (parameters : List UInt16)
  /-- A control string. -/
  | string
  /-- A control string, and ESC at the end of it. -/
  | stringEscape
deriving DecidableEq

/-- What becomes of a character. -/
inductive Effect where
  /-- It is shown. -/
  | shown
  /-- It belongs to a control function. -/
  | taken
  /-- It completes a control sequence, with parameters and a final byte. -/
  | complete (parameters : List UInt16) (final : UInt16)
deriving DecidableEq

/-- `ESC` -/
def esc : UInt16 := 0x1b

/-- The 8-bit `CSI`. -/
def csi : UInt16 := 0x9b

/-- `BEL` -/
def bel : UInt16 := 0x07

/-- `[` -/
def bracket : UInt16 := 0x5b

/-- `\` -/
def backslash : UInt16 := 0x5c

/-- The character behind ESC introduces a control string. -/
def isStringKind (c : UInt16) : Bool := c = 0x5d ∨ c = 0x50 ∨ c = 0x58 ∨ c = 0x5e ∨ c = 0x5f

/-- An intermediate byte. -/
def isIntermediate (c : UInt16) : Bool := 0x20 ≤ c ∧ c ≤ 0x2f

/-- A parameter byte or an intermediate byte of a control sequence. -/
def isParameter (c : UInt16) : Bool := 0x20 ≤ c ∧ c ≤ 0x3f

/-- The final byte of a control sequence. -/
def isFinal (c : UInt16) : Bool := 0x40 ≤ c ∧ c ≤ 0x7e

/-- A character where nothing has been introduced. -/
def stepGround (c : UInt16) : Mode × Effect :=
  if c = esc then (.escape, .taken) else if c = csi then (.control [], .taken) else (.ground, .shown)

/-- A character in a control string. -/
def stepString (c : UInt16) : Mode × Effect :=
  if c = bel then (.ground, .taken) else if c = esc then (.stringEscape, .taken) else (.string, .taken)

/-- A character. -/
def step : Mode → UInt16 → Mode × Effect
  | .ground, c => stepGround c
  | .escape, c =>
    if c = bracket then (.control [], .taken)
    else if isStringKind c then (.string, .taken)
    else if isIntermediate c then (.intermediate, .taken)
    else (.ground, .taken)
  | .intermediate, c => if isIntermediate c then (.intermediate, .taken) else (.ground, .taken)
  | .control parameters, c =>
    if isFinal c then (.ground, .complete parameters c)
    else if isParameter c then (.control (parameters ++ [c]), .taken)
    else stepGround c
  | .string, c => stepString c
  | .stringEscape, c => if c = backslash then (.ground, .taken) else stepString c

/-- The mode behind a text. -/
def Mode.after (m : Mode) (text : List UInt16) : Mode := text.foldl (fun m c => (step m c).1) m

/-- ESC has been read, maybe with intermediate bytes; the next character ends it, also if that is ESC again. -/
def Mode.awaitsFinal (m : Mode) : Prop := m = .escape ∨ m = .intermediate

/-- What is shown of a text. -/
def Mode.shownText : Mode → List UInt16 → List UInt16
  | _, [] => []
  | m, c :: text => (if (step m c).2 = .shown then [c] else []) ++ shownText (step m c).1 text

theorem Mode.shownText_append (m : Mode) (text rest : List UInt16) :
    m.shownText (text ++ rest) = m.shownText text ++ (m.after text).shownText rest := by
  induction text generalizing m with
  | nil => rfl
  | cons c text ih =>
    rw [List.cons_append, shownText, ih, shownText, List.append_assoc]
    rfl

theorem notParameter_iff {c : UInt16} : isParameter c = false ↔ c < 0x20 ∨ c > 0x3f := by
  simp only [isParameter, decide_eq_false_iff_not, not_and_or, UInt16.not_le]

/-! ### Readers -/

/-- A reader: its mode, and the rendition it shows text in. -/
@[ext] structure Reader (σ : Type*) where
  mode : Mode
  style : σ

/-- A character that is shown. -/
structure Shown (σ : Type*) where
  place : ℕ
  char : UInt16
  style : σ

namespace Reader

variable {σ : Type*} (act : List UInt16 → UInt16 → σ → σ)

/-- The rendition after a character. -/
def restyle (s : σ) : Effect → σ
  | .complete parameters final => act parameters final s
  | _ => s

/-- The reader behind a character. -/
def next (r : Reader σ) (c : UInt16) : Reader σ := ⟨(step r.mode c).1, restyle act r.style (step r.mode c).2⟩

/-- The reader behind a text. -/
def after (r : Reader σ) (text : List UInt16) : Reader σ := text.foldl (next act) r

/-- What is shown of a text that starts at a place. -/
def shown (r : Reader σ) (place : ℕ) : List UInt16 → List (Shown σ)
  | [] => []
  | c :: text =>
    (if (step r.mode c).2 = .shown then [⟨place, c, r.style⟩] else []) ++ shown (r.next act c) (place + 1) text

variable {act} {r : Reader σ} {place : ℕ} {text rest : List UInt16} {c : UInt16}

theorem after_cons : r.after act (c :: text) = (r.next act c).after act text := rfl

@[simp] theorem shown_nil : r.shown act place [] = [] := rfl

theorem after_append : r.after act (text ++ rest) = (r.after act text).after act rest := List.foldl_append

/-- The mode does not depend on the rendition. -/
theorem mode_after : (r.after act text).mode = r.mode.after text := by
  induction text generalizing r with
  | nil => rfl
  | cons c text ih => exact ih

theorem shown_append :
    r.shown act place (text ++ rest) =
      r.shown act place text ++ (r.after act text).shown act (place + text.length) rest := by
  induction text generalizing r place with
  | nil => rfl
  | cons c text ih =>
    rw [List.cons_append, shown, ih, shown, List.append_assoc, after_cons, List.length_cons]
    congr 3
    omega

theorem shown_chars : (r.shown act place text).map Shown.char = r.mode.shownText text := by
  induction text generalizing r place with
  | nil => rfl
  | cons c text ih =>
    rw [shown, List.map_append, ih, Mode.shownText]
    split <;> rfl

/-- What a reader shows of a character it shows. -/
theorem shown_cons_of_shown {m : Mode} (h : step r.mode c = (m, .shown)) :
    r.shown act place (c :: text) = ⟨place, c, r.style⟩ :: Reader.shown act ⟨m, r.style⟩ (place + 1) text := by
  rw [shown, next, h]
  rfl

/-- A character that a control function takes. -/
theorem shown_cons_of_taken {m : Mode} (h : step r.mode c = (m, .taken)) :
    r.shown act place (c :: text) = Reader.shown act ⟨m, r.style⟩ (place + 1) text := by
  rw [shown, next, h]
  rfl

/-- A character that completes a control sequence. -/
theorem shown_cons_of_complete {m : Mode} {parameters : List UInt16} {final : UInt16}
    (h : step r.mode c = (m, .complete parameters final)) :
    r.shown act place (c :: text) = Reader.shown act ⟨m, act parameters final r.style⟩ (place + 1) text := by
  rw [shown, next, h]
  rfl

/-- At the end of a control string, what is not `\` is read as in the string. -/
theorem shown_stringEscape {s : σ} (h : text.head? ≠ some backslash) :
    Reader.shown act ⟨.stringEscape, s⟩ place text = Reader.shown act ⟨.string, s⟩ place text := by
  cases text with
  | nil => rfl
  | cons c text =>
    have hc : c ≠ backslash := by simpa using h
    have hstep : step .stringEscape c = step .string c := if_neg hc
    rw [shown, shown, next, next, hstep]

end Reader

/-! ### Parts of a text -/

variable {σ : Type*} {s : σ} {place : ℕ} {text rest : List UInt16}

/-- The characters of a part of the text, all shown in one rendition. -/
def placed (s : σ) (place : ℕ) : List UInt16 → List (Shown σ)
  | [] => []
  | c :: text => ⟨place, c, s⟩ :: placed s (place + 1) text

theorem placed_append : placed s place (text ++ rest) = placed s place text ++ placed s (place + text.length) rest := by
  induction text generalizing place with
  | nil => rfl
  | cons c text ih =>
    rw [List.cons_append, placed, ih, placed, List.cons_append, List.length_cons]
    congr 3
    omega

/-- The character is shown where nothing is introduced. -/
def isPlainChar (c : UInt16) : Prop := c ≠ esc ∧ c ≠ csi

/-- Text that introduces nothing is shown, and leaves the reader as it is. -/
theorem plain_text (act : List UInt16 → UInt16 → σ → σ) (h : ∀ c ∈ text, isPlainChar c) :
    Reader.after act ⟨.ground, s⟩ text = ⟨.ground, s⟩ ∧ Reader.shown act ⟨.ground, s⟩ place text = placed s place text := by
  induction text generalizing place with
  | nil => exact ⟨rfl, rfl⟩
  | cons c text ih =>
    obtain ⟨hesc, hcsi⟩ := h c List.mem_cons_self
    have hstep : step .ground c = (.ground, .shown) := by simp only [step, stepGround, if_neg hesc, if_neg hcsi]
    obtain ⟨hafter, hshown⟩ := @ih (place + 1) fun d hd => h d (List.mem_cons_of_mem c hd)
    refine ⟨?_, ?_⟩
    · rw [Reader.after_cons, Reader.next, hstep]
      exact hafter
    · rw [Reader.shown_cons_of_shown hstep, hshown, placed]

/-- A character of the text that is shown is one of the text. -/
theorem mem_of_mem_shownText {m : Mode} {c : UInt16} (h : c ∈ m.shownText text) : c ∈ text := by
  induction text generalizing m with
  | nil => exact h
  | cons d text ih =>
    rw [Mode.shownText, List.mem_append] at h
    rcases h with h | h
    · split at h
      · exact List.mem_singleton.mp h ▸ List.mem_cons_self
      · cases h
    · exact List.mem_cons_of_mem d (ih h)

/-- A character that is shown introduces nothing. -/
theorem isPlainChar_of_step {m : Mode} {c : UInt16} (h : (step m c).2 = .shown) : isPlainChar c := by
  have hground : (stepGround c).2 = .shown → isPlainChar c := by
    intro h
    rw [stepGround] at h
    split_ifs at h with hesc hcsi
    exact ⟨hesc, hcsi⟩
  cases m with
  | ground => exact hground h
  | escape =>
    simp only [step] at h
    split_ifs at h
  | intermediate =>
    simp only [step] at h
    split_ifs at h
  | control parameters =>
    simp only [step] at h
    split_ifs at h
    exact hground h
  | string =>
    simp only [step, stepString] at h
    split_ifs at h
  | stringEscape =>
    simp only [step, stepString] at h
    split_ifs at h

theorem isPlainChar_of_shown (act : List UInt16 → UInt16 → σ → σ) {r : Reader σ} {x : Shown σ}
    (h : x ∈ r.shown act place text) : isPlainChar x.char := by
  induction text generalizing r place with
  | nil => cases h
  | cons c text ih =>
    rw [Reader.shown, List.mem_append] at h
    rcases h with h | h
    · split at h
      · rename_i hshown
        rw [List.mem_singleton] at h
        exact h ▸ isPlainChar_of_step hshown
      · cases h
    · exact ih h

theorem place_of_shown (act : List UInt16 → UInt16 → σ → σ) {r : Reader σ} {x : Shown σ} (h : x ∈ r.shown act place text) :
    place ≤ x.place ∧ x.place < place + text.length := by
  induction text generalizing r place with
  | nil => cases h
  | cons c text ih =>
    rw [Reader.shown, List.mem_append] at h
    rw [List.length_cons]
    rcases h with h | h
    · split at h
      · rw [List.mem_singleton] at h
        rw [h]
        exact ⟨Nat.le_refl _, by simp only; omega⟩
      · cases h
    · have := ih h
      omega

/-! ### Control functions -/

/-- Nothing is shown of a text, and behind it the reader is another. -/
structure Takes (act : List UInt16 → UInt16 → σ → σ) (r : Reader σ) (text : List UInt16) (r' : Reader σ) : Prop where
  after : r.after act text = r'
  shown : ∀ place, r.shown act place text = []

namespace Takes

variable {act : List UInt16 → UInt16 → σ → σ} {r r' r'' : Reader σ} {c : UInt16} {m : Mode}

theorem nil : Takes act r [] r := ⟨rfl, fun _ => rfl⟩

theorem append (h : Takes act r text r') (h' : Takes act r' rest r'') : Takes act r (text ++ rest) r'' where
  after := by rw [Reader.after_append, h.after, h'.after]
  shown place := by rw [Reader.shown_append, h.shown, h.after, h'.shown]; rfl

theorem cons (hc : step r.mode c = (m, .taken)) (h : Takes act ⟨m, r.style⟩ text r') : Takes act r (c :: text) r' where
  after := by
    rw [Reader.after_cons, Reader.next, hc]
    exact h.after
  shown place := by rw [Reader.shown_cons_of_taken hc, h.shown]

theorem complete {parameters : List UInt16} {final : UInt16} (hc : step r.mode c = (m, .complete parameters final)) :
    Takes act r [c] ⟨m, act parameters final r.style⟩ where
  after := by
    rw [Reader.after_cons, Reader.next, hc]
    rfl
  shown place := by rw [Reader.shown_cons_of_complete hc]; rfl

/-- Parameter bytes are collected. -/
theorem parameters {parameters : List UInt16} (h : ∀ c ∈ text, isParameter c) :
    Takes act ⟨.control parameters, s⟩ text ⟨.control (parameters ++ text), s⟩ := by
  induction text generalizing parameters with
  | nil =>
    rw [List.append_nil]
    exact nil
  | cons c text ih =>
    have hc := h c List.mem_cons_self
    have hfinal : isFinal c = false := by
      simp only [isParameter, isFinal, decide_eq_true_eq, decide_eq_false_iff_not] at hc ⊢
      intro hf
      have := UInt16.le_iff_toNat_le.mp (UInt16.le_trans hf.1 hc.2)
      exact absurd this (by decide)
    refine cons (m := .control (parameters ++ [c])) ?_ ?_
    · simp only [step, hfinal, hc, if_true, Bool.false_eq_true, if_false]
    · have := @ih (parameters ++ [c]) fun d hd => h d (List.mem_cons_of_mem c hd)
      rwa [List.append_assoc, List.singleton_append] at this

/-- A control sequence from its first parameter on. -/
theorem control {final : UInt16} (h : ∀ c ∈ text, isParameter c) (hf : isFinal final) :
    Takes act ⟨.control [], s⟩ (text ++ [final]) ⟨.ground, act text final s⟩ :=
  (parameters h).append (complete (by simp only [step, hf, if_true, List.nil_append]))

/-- Intermediate bytes are taken. -/
theorem intermediates (h : ∀ c ∈ text, isIntermediate c) : Takes act ⟨.intermediate, s⟩ text ⟨.intermediate, s⟩ := by
  induction text with
  | nil => exact nil
  | cons c text ih =>
    refine cons (m := .intermediate) ?_ (ih fun d hd => h d (List.mem_cons_of_mem c hd))
    simp only [step, h c List.mem_cons_self, if_true]

end Takes

/-- The reader is in a control string, at the end of whose text there may be ESC. -/
def inString (m : Mode) : Prop := m = .string ∨ m = .stringEscape

/-- The content of a control string is taken. -/
theorem takes_content (act : List UInt16 → UInt16 → σ → σ) {m : Mode} (hm : inString m) (hbel : bel ∉ text)
    (hst : ¬[esc, backslash] <:+: text) (hhead : m = .stringEscape → text.head? ≠ some backslash) :
    ∃ m', inString m' ∧ Takes act ⟨m, s⟩ text ⟨m', s⟩ := by
  induction text generalizing m with
  | nil => exact ⟨m, hm, .nil⟩
  | cons c text ih =>
    rw [List.mem_cons, not_or] at hbel
    rw [List.infix_cons_iff, not_or] at hst
    have hstep : step m c = stepString c := by
      rcases hm with rfl | rfl
      · rfl
      · exact if_neg (by simpa using hhead rfl)
    by_cases hesc : c = esc
    · obtain ⟨m', hm', htakes⟩ := ih (m := .stringEscape) (.inr rfl) hbel.2 hst.2 (fun _ hb => hst.1 (by
        obtain ⟨rest, rfl⟩ := List.head?_eq_some_iff.mp hb
        exact ⟨rest, by rw [hesc]; rfl⟩))
      refine ⟨m', hm', .cons (m := .stringEscape) ?_ htakes⟩
      rw [hstep, stepString, if_neg (Ne.symm hbel.1), if_pos hesc]
    · obtain ⟨m', hm', htakes⟩ := ih (m := .string) (.inl rfl) hbel.2 hst.2 (fun h => by cases h)
      refine ⟨m', hm', .cons (m := .string) ?_ htakes⟩
      rw [hstep, stepString, if_neg (Ne.symm hbel.1), if_neg hesc]

/-- What ends a control string: BEL, or ST. -/
def terminator (st : Bool) : List UInt16 := if st then [esc, backslash] else [bel]

theorem takes_terminator (act : List UInt16 → UInt16 → σ → σ) {m : Mode} (hm : inString m) (st : Bool) :
    Takes act ⟨m, s⟩ (terminator st) ⟨.ground, s⟩ := by
  rcases hm with rfl | rfl <;> cases st
  · exact .cons (m := .ground) rfl .nil
  · exact .cons (m := .stringEscape) rfl (.cons (m := .ground) rfl .nil)
  · exact .cons (m := .ground) rfl .nil
  · exact .cons (m := .stringEscape) rfl (.cons (m := .ground) rfl .nil)

end OpenshiftConsole.Library.ControlSequences
