import OpenshiftConsole.Library.Interaction
import OpenshiftConsole.Library.Lines

/-!
# Typing a text into a VNC session

A text is typed key by key, with pauses, as a person at a US keyboard would type it: each character goes out with its
keysym and with the code of its key, and Left Shift is held around a character that needs it.

A server makes a character of a key in one way or another: of the key itself and the state of Shift, of the keysym, or
of the key it finds for the keysym. It reads what was typed in each of these ways (`typeText_types`), and if typing
stops half way because a key could not be sent, it has read a beginning of it, and Shift is up unless releasing it is
what failed. No key follows another without a pause, and none of a character is sent in another state of Shift than the
character's (`typeText_asks`).
-/

namespace OpenshiftConsole.Terminal.TypeText

open OpenshiftConsole.Library
open OpenshiftConsole.Library.Lines (Text)

/-! ### The keyboard -/

/-- A physical key on a US keyboard, and whether Shift has to be held for the character. -/
structure UsKey where
  code : Text
  shift : Bool
  deriving DecidableEq

def unshifted (code : String) : UsKey := ⟨code.toList, false⟩

def shifted (code : String) : UsKey := ⟨code.toList, true⟩

/-- `US_LAYOUT` -/
def US_LAYOUT : List (Char × UsKey) :=
  [(' ', unshifted "Space"), ('`', unshifted "Backquote"), ('~', shifted "Backquote"), ('-', unshifted "Minus"),
    ('_', shifted "Minus"), ('=', unshifted "Equal"), ('+', shifted "Equal"), ('[', unshifted "BracketLeft"),
    ('{', shifted "BracketLeft"), (']', unshifted "BracketRight"), ('}', shifted "BracketRight"),
    ('\\', unshifted "Backslash"), ('|', shifted "Backslash"), (';', unshifted "Semicolon"),
    (':', shifted "Semicolon"), ('\'', unshifted "Quote"), ('"', shifted "Quote"), (',', unshifted "Comma"),
    ('<', shifted "Comma"), ('.', unshifted "Period"), ('>', shifted "Period"), ('/', unshifted "Slash"),
    ('?', shifted "Slash")] ++
  [')', '!', '@', '#', '$', '%', '^', '&', '*', '('].zipIdx.flatMap (fun (symbol, digit) =>
    [(Char.ofNat (48 + digit), ⟨"Digit".toList ++ [Char.ofNat (48 + digit)], false⟩),
      (symbol, ⟨"Digit".toList ++ [Char.ofNat (48 + digit)], true⟩)]) ++
  "abcdefghijklmnopqrstuvwxyz".toList.flatMap (fun letter =>
    [(letter, ⟨"Key".toList ++ [letter.toUpper], false⟩), (letter.toUpper, ⟨"Key".toList ++ [letter.toUpper], true⟩)])

def usKey (c : Char) : Option UsKey := US_LAYOUT.lookup c

def XK_Shift_L : ℕ := 0xffe1
def XK_Return : ℕ := 0xff0d
def XK_Tab : ℕ := 0xff09

/-- `CONTROL_KEYS` -/
def controlKey (c : Char) : Option (ℕ × Text) :=
  if c = '\n' then some (XK_Return, "Enter".toList)
  else if c = '\t' then some (XK_Tab, "Tab".toList)
  else none

/-- `control?.keysym ?? keysymdef.lookup(…)` -/
def keysymOf (lookup : ℕ → ℕ) (c : Char) : ℕ :=
  match controlKey c with
  | some control => control.1
  | none => lookup c.toNat

/-- `control?.code ?? key?.code ?? ''` -/
def codeOf (c : Char) : Text :=
  match controlKey c, usKey c with
  | some control, _ => control.2
  | none, some key => key.code
  | none, none => []

/-- `key?.shift` -/
def shiftOf (c : Char) : Bool := (usKey c).any (·.shift)

/-! ### Typing -/

/-- What typing does: it sends a key, or waits. -/
inductive Call where
  | sendKey (keysym : ℕ) (code : Text) (down : Bool)
  | delay (ms : ℕ)
  deriving DecidableEq

/-- Each call may be refused with an error. -/
abbrev Talk := Interaction Call (Option Text) Text

abbrev History := Interaction.History Call (Option Text)

def sendKey (keysym : ℕ) (code : Text) (down : Bool) : Talk Unit :=
  .send (.sendKey keysym code down) >>= fun
    | none => .done ()
    | some err => .fail err

/-- A timer has no errors. -/
def delay (ms : ℕ) : Talk Unit := .send (.delay ms) >>= fun _ => .done ()

def KEY_EVENT_GAP_MS : ℕ := 10
def CHAR_GAP_MS : ℕ := 25

def shiftKey (down : Bool) : Talk Unit := sendKey XK_Shift_L "ShiftLeft".toList down

/-- The `try` of `typeText`. -/
def pressKey (keysym : ℕ) (code : Text) : Talk Unit := do
  sendKey keysym code true
  delay KEY_EVENT_GAP_MS
  sendKey keysym code false

/-- The body of the loop of `typeText`. -/
def typeChar (lookup : ℕ → ℕ) (c : Char) : Talk Unit := do
  if shiftOf c then
    shiftKey true
    delay KEY_EVENT_GAP_MS
  (pressKey (keysymOf lookup c) (codeOf c)).tryFinally
    (if shiftOf c then do
      delay KEY_EVENT_GAP_MS
      shiftKey false
    else .done ())
  delay CHAR_GAP_MS

def typeChars (lookup : ℕ → ℕ) : Text → Talk Unit
  | [] => .done ()
  | c :: text => do
    typeChar lookup c
    typeChars lookup text

/-- `text.replace(/\r\n?/g, '\n')` -/
def normalized : Text → Text
  | '\r' :: '\n' :: text => '\n' :: normalized text
  | '\r' :: text => '\n' :: normalized text
  | c :: text => c :: normalized text
  | [] => []

/-- `typeText` -/
def typeText (lookup : ℕ → ℕ) (text : Text) : Talk Unit := typeChars lookup (normalized text)

/-! ### Servers -/

/-- How a server makes a character of a key. -/
inductive Reading where
  /-- Of the key's code and the state of Shift, and of the keysym where there is no code. -/
  | code
  /-- Of the keysym. -/
  | keysym
  /-- Of the key that has the keysym's character on a US keyboard, and the state of Shift. -/
  | scancode

/-- The character that a key gives. -/
def usChar (code : Text) (shift : Bool) : Option Char := (US_LAYOUT.find? fun p => p.2 = ⟨code, shift⟩).map (·.1)

/-- The character that a keysym stands for, with `decode` for those of characters. -/
def keysymChar (decode : ℕ → Option Char) (keysym : ℕ) : Option Char :=
  if keysym = XK_Return then some '\n' else if keysym = XK_Tab then some '\t' else decode keysym

def controlChar (code : Text) : Option Char :=
  if code = "Enter".toList then some '\n' else if code = "Tab".toList then some '\t' else none

def Reading.read (decode : ℕ → Option Char) (keysym : ℕ) (code : Text) (shift : Bool) : Reading → Option Char
  | .code => if code = [] then keysymChar decode keysym else (controlChar code).or (usChar code shift)
  | .keysym => keysymChar decode keysym
  | .scancode => (keysymChar decode keysym).bind fun c =>
    match usKey c with
    | some key => usChar key.code shift
    | none => some c

/-- The state of Shift, and what was read. -/
structure Server where
  shift : Bool
  typed : Text
  deriving DecidableEq

/-- A key is read when it goes down. -/
def Server.call (reading : Reading) (decode : ℕ → Option Char) (s : Server) : Call → Server
  | .sendKey keysym code down =>
    if keysym = XK_Shift_L then { s with shift := down }
    else if down then { s with typed := s.typed ++ (reading.read decode keysym code s.shift).toList }
    else s
  | .delay _ => s

/-- A server gets the calls that are not refused. -/
def Server.after (reading : Reading) (decode : ℕ → Option Char) (h : History) : Server :=
  (h.filter fun p => p.2 = none).foldl (fun s p => s.call reading decode p.1) ⟨false, []⟩

/-- What holds of noVNC's table of keysyms, and of a server that knows it: the character of a keysym is found again,
and none has the keysym of a key like Shift or Return. -/
structure Keysyms (lookup : ℕ → ℕ) (decode : ℕ → Option Char) : Prop where
  decode_lookup : ∀ c : Char, decode (lookup c.toNat) = some c
  character : ∀ n, lookup n < 0xff00 ∨ 0x1000000 ≤ lookup n

variable {lookup : ℕ → ℕ} {decode : ℕ → Option Char} {reading : Reading} {c : Char} {h : History} {text typed : Text}

/-! ### A key is read -/

theorem layout_reads : (US_LAYOUT.all fun p => usChar p.2.code p.2.shift = some p.1 && controlChar p.2.code = none &&
    p.2.code ≠ [] && controlKey p.1 = none) = true := by
  decide +kernel

theorem mem_layout {key : UsKey} (hkey : usKey c = some key) : (c, key) ∈ US_LAYOUT := by
  obtain ⟨l, l', hl, -⟩ := List.lookup_eq_some_iff.mp hkey
  rw [hl]
  exact List.mem_append_right l List.mem_cons_self

/-- Each key of the layout gives the character back, and is none of the control keys. -/
theorem usKey_reads {key : UsKey} (hkey : usKey c = some key) : usChar key.code key.shift = some c ∧
    controlChar key.code = none ∧ key.code ≠ [] ∧ controlKey c = none := by
  have hreads := List.all_eq_true.mp layout_reads _ (mem_layout hkey)
  simpa [and_assoc] using hreads

theorem controlKey_cases (c : Char) : c = '\n' ∧ controlKey c = some (XK_Return, "Enter".toList) ∨
    c = '\t' ∧ controlKey c = some (XK_Tab, "Tab".toList) ∨ controlKey c = none := by
  rw [controlKey]
  split
  · exact .inl ⟨by assumption, rfl⟩
  · split
    · exact .inr (.inl ⟨by assumption, rfl⟩)
    · exact .inr (.inr rfl)

theorem keysymOf_ne_shift (hkeys : Keysyms lookup decode) (c : Char) : keysymOf lookup c ≠ XK_Shift_L := by
  rw [keysymOf]
  have hchar := hkeys.character c.toNat
  rcases controlKey_cases c with ⟨-, hc⟩ | ⟨-, hc⟩ | hc
  · rw [hc]
    show 0xff0d ≠ 0xffe1
    decide
  · rw [hc]
    show 0xff09 ≠ 0xffe1
    decide
  · rw [hc]
    show lookup c.toNat ≠ 0xffe1
    omega

theorem keysymChar_keysymOf (hkeys : Keysyms lookup decode) (c : Char) :
    keysymChar decode (keysymOf lookup c) = some c := by
  rw [keysymOf]
  have hchar := hkeys.character c.toNat
  rcases controlKey_cases c with ⟨rfl, hc⟩ | ⟨rfl, hc⟩ | hc
  · rfl
  · rfl
  · rw [hc]
    dsimp only
    have hreturn : lookup c.toNat ≠ XK_Return := by
      show lookup c.toNat ≠ 0xff0d
      omega
    have htab : lookup c.toNat ≠ XK_Tab := by
      show lookup c.toNat ≠ 0xff09
      omega
    rw [keysymChar, if_neg hreturn, if_neg htab]
    exact hkeys.decode_lookup c

/-- Each way of reading finds the character. -/
theorem read_key (hkeys : Keysyms lookup decode) (reading : Reading) (c : Char) :
    reading.read decode (keysymOf lookup c) (codeOf c) (shiftOf c) = some c := by
  have hkeysym := keysymChar_keysymOf hkeys c
  cases reading with
  | keysym => exact hkeysym
  | scancode =>
    rw [Reading.read, hkeysym, Option.bind_some, shiftOf]
    cases hkey : usKey c with
    | none => rfl
    | some key => exact (usKey_reads hkey).1
  | code =>
    rw [Reading.read, hkeysym, codeOf, shiftOf]
    rcases controlKey_cases c with ⟨rfl, hc⟩ | ⟨rfl, hc⟩ | hc
    · rfl
    · rfl
    · rw [hc]
      cases hkey : usKey c with
      | none => rfl
      | some key =>
        obtain ⟨hchar, hcontrol, hne, -⟩ := usKey_reads hkey
        dsimp only
        rw [if_neg hne, hcontrol]
        exact hchar

/-! ### A character is typed -/

theorem after_concat_none (h : History) (q : Call) : Server.after reading decode (h ++ [(q, none)]) =
    (Server.after reading decode h).call reading decode q := by
  simp [Server.after]

theorem after_concat_some (h : History) (q : Call) (err : Text) : Server.after reading decode (h ++ [(q, some err)]) =
    Server.after reading decode h := by
  simp [Server.after]

theorem after_concat_delay (h : History) (ms : ℕ) (r : Option Text) :
    Server.after reading decode (h ++ [(.delay ms, r)]) = Server.after reading decode h := by
  cases r with
  | none => exact after_concat_none h _
  | some err => exact after_concat_some h _ err

/-- The last thing done was to wait for at least the gap between two keys. -/
def Rested (h : History) : Prop := ∀ p ∈ h.getLast?, ∃ ms, p.1 = .delay ms ∧ KEY_EVENT_GAP_MS ≤ ms

/-- A key is sent after a pause, and one of a character of the text in the character's state of Shift. -/
def Proper (reading : Reading) (lookup : ℕ → ℕ) (decode : ℕ → Option Char) (text : Text) (h : History) : Call → Prop
  | .sendKey keysym code _ => Rested h ∧ (keysym ≠ XK_Shift_L → ∃ c ∈ text, keysym = keysymOf lookup c ∧
      code = codeOf c ∧ (Server.after reading decode h).shift = shiftOf c)
  | .delay _ => True

/-- Shift is up, unless releasing it is what was refused last. -/
def Released (reading : Reading) (decode : ℕ → Option Char) (h : History) : Prop :=
  (Server.after reading decode h).shift = true →
    ∃ err, h.getLast? = some (.sendKey XK_Shift_L "ShiftLeft".toList false, some err)

theorem rested_nil : Rested [] := by
  intro p hp
  cases hp

theorem rested_concat (h : History) {ms : ℕ} (hms : KEY_EVENT_GAP_MS ≤ ms) (r : Option Text) :
    Rested (h ++ [(.delay ms, r)]) := by
  intro p hp
  rw [List.getLast?_concat] at hp
  obtain rfl := Option.some.inj hp
  exact ⟨ms, rfl, hms⟩

theorem meets_sendKey {G : History → Call → Prop} {P : History → Except Text Unit → Prop} {keysym : ℕ} {code : Text}
    {down : Bool} : (sendKey keysym code down).Meets G P h ↔ G h (.sendKey keysym code down) ∧
      P (h ++ [(.sendKey keysym code down, none)]) (.ok ()) ∧
      ∀ err, P (h ++ [(.sendKey keysym code down, some err)]) (.error err) := by
  refine Interaction.meets_bind.trans (Interaction.meets_send.trans (and_congr_right fun _ => ?_))
  exact ⟨fun hr => ⟨hr none, fun err => hr (some err)⟩, fun hr r => by
    cases r with
    | none => exact hr.1
    | some err => exact hr.2 err⟩

theorem meets_delay {G : History → Call → Prop} {P : History → Except Text Unit → Prop} {ms : ℕ} :
    (delay ms).Meets G P h ↔ G h (.delay ms) ∧ ∀ r, P (h ++ [(.delay ms, r)]) (.ok ()) :=
  Interaction.meets_bind.trans Interaction.meets_send

/-- What the server has read of a character, and of those before it. -/
def Read (typed : Text) (c : Char) (seen : Text) : Except Text Unit → Prop
  | .ok _ => seen = typed ++ [c]
  | .error _ => seen = typed ∨ seen = typed ++ [c]

/-- The key of a character, in its state of Shift. -/
theorem meets_pressKey (hkeys : Keysyms lookup decode) (hc : c ∈ text) (hrested : Rested h)
    (hafter : Server.after reading decode h = ⟨shiftOf c, typed⟩) :
    (pressKey (keysymOf lookup c) (codeOf c)).Meets (Proper reading lookup decode text)
      (fun h r => (Server.after reading decode h).shift = shiftOf c ∧
        Read typed c (Server.after reading decode h).typed r) h := by
  have hne := keysymOf_ne_shift hkeys c
  refine Interaction.meets_bind.mpr (meets_sendKey.mpr ⟨⟨hrested, fun _ => ⟨c, hc, rfl, rfl, by rw [hafter]⟩⟩, ?_, ?_⟩)
  · have hdown : Server.after reading decode (h ++ [(.sendKey (keysymOf lookup c) (codeOf c) true, none)]) =
        ⟨shiftOf c, typed ++ [c]⟩ := by
      rw [after_concat_none, hafter, Server.call, if_neg hne, if_pos rfl, read_key hkeys reading c]
      rfl
    refine Interaction.meets_bind.mpr (meets_delay.mpr ⟨trivial, fun r => ?_⟩)
    refine meets_sendKey.mpr ⟨⟨rested_concat _ le_rfl r, fun _ => ⟨c, hc, rfl, rfl, ?_⟩⟩, ?_, fun err => ?_⟩
    · rw [after_concat_delay, hdown]
    · rw [after_concat_none, after_concat_delay, hdown, Server.call, if_neg hne, if_neg Bool.false_ne_true]
      exact ⟨rfl, rfl⟩
    · rw [after_concat_some, after_concat_delay, hdown]
      exact ⟨rfl, .inr rfl⟩
  · intro err
    rw [after_concat_some, hafter]
    exact ⟨rfl, .inl rfl⟩

/-- A character is typed with Shift up before and after it; if that fails, Shift is up or cannot be released. -/
theorem meets_typeChar (hkeys : Keysyms lookup decode) (hc : c ∈ text) (hrested : Rested h)
    (hafter : Server.after reading decode h = ⟨false, typed⟩) :
    (typeChar lookup c).Meets (Proper reading lookup decode text)
      (fun h r => Read typed c (Server.after reading decode h).typed r ∧ match r with
        | .ok _ => (Server.after reading decode h).shift = false ∧ Rested h
        | .error _ => Released reading decode h) h := by
  have hne : ∀ P : Prop, XK_Shift_L ≠ XK_Shift_L → P := fun P h => absurd rfl h
  unfold typeChar
  by_cases hshift : shiftOf c = true
  · simp only [hshift, if_true]
    refine Interaction.meets_bind.mpr (meets_sendKey.mpr ⟨⟨hrested, hne _⟩, ?_, ?_⟩)
    · have hdown : Server.after reading decode (h ++ [(.sendKey XK_Shift_L "ShiftLeft".toList true, none)]) =
          ⟨shiftOf c, typed⟩ := by
        rw [after_concat_none, hafter, hshift]
        rfl
      refine Interaction.meets_bind.mpr (meets_delay.mpr ⟨trivial, fun r => ?_⟩)
      rw [← after_concat_delay _ KEY_EVENT_GAP_MS r] at hdown
      refine Interaction.meets_bind.mpr (Interaction.meets_tryFinally.mpr ?_)
      refine (meets_pressKey hkeys hc (rested_concat _ le_rfl r) hdown).mono (fun _ _ hq => hq) ?_
      rintro h r ⟨hheld, hread⟩
      refine Interaction.meets_bind.mpr (meets_delay.mpr ⟨trivial, fun r' => ?_⟩)
      refine meets_sendKey.mpr ⟨⟨rested_concat _ le_rfl r', hne _⟩, ?_, fun err => ?_⟩
      · have hup : Server.after reading decode
            (h ++ [(.delay KEY_EVENT_GAP_MS, r')] ++ [(.sendKey XK_Shift_L "ShiftLeft".toList false, none)]) =
            ⟨false, (Server.after reading decode h).typed⟩ := by
          rw [after_concat_none, after_concat_delay]
          rfl
        cases r with
        | ok u =>
          refine meets_delay.mpr ⟨trivial, fun r'' => ?_⟩
          rw [after_concat_delay, hup]
          exact ⟨hread, rfl, rested_concat _ (by decide) r''⟩
        | error e =>
          refine ⟨by rw [hup]; exact hread, fun hshift => ?_⟩
          rw [hup] at hshift
          cases hshift
      · refine ⟨?_, fun _ => ⟨err, List.getLast?_concat⟩⟩
        rw [after_concat_some, after_concat_delay]
        cases r with
        | ok u => exact .inr hread
        | error e => exact hread
    · intro err
      refine ⟨?_, fun hshift => ?_⟩
      · rw [after_concat_some, hafter]
        exact .inl rfl
      · rw [after_concat_some, hafter] at hshift
        cases hshift
  · have hfalse : shiftOf c = false := Bool.not_eq_true _ ▸ hshift
    simp only [hfalse, if_false, Bool.false_eq_true]
    refine Interaction.meets_bind.mpr (Interaction.meets_tryFinally.mpr ?_)
    rw [← hfalse] at hafter
    refine (meets_pressKey hkeys hc hrested hafter).mono (fun _ _ hq => hq) ?_
    rintro h r ⟨hheld, hread⟩
    rw [hfalse] at hheld
    cases r with
    | ok u =>
      refine meets_delay.mpr ⟨trivial, fun r => ?_⟩
      rw [after_concat_delay]
      exact ⟨hread, hheld, rested_concat _ (by decide) r⟩
    | error e =>
      refine ⟨hread, fun hshift => ?_⟩
      rw [hheld] at hshift
      cases hshift

/-! ### A text is typed -/

/-- What the server has read at the end, and its Shift. -/
def Outcome (reading : Reading) (decode : ℕ → Option Char) (text : Text) (h : History) : Except Text Unit → Prop
  | .ok _ => Server.after reading decode h = ⟨false, text⟩
  | .error _ => (Server.after reading decode h).typed <+: text ∧ Released reading decode h

theorem meets_typeChars (hkeys : Keysyms lookup decode) {cs : Text} (hcs : ∀ c ∈ cs, c ∈ text) (hrested : Rested h)
    (hafter : Server.after reading decode h = ⟨false, typed⟩) :
    (typeChars lookup cs).Meets (Proper reading lookup decode text) (Outcome reading decode (typed ++ cs)) h := by
  induction cs generalizing h typed with
  | nil =>
    show Server.after reading decode h = _
    rw [hafter, List.append_nil]
  | cons c cs ih =>
    obtain ⟨hc, hcs⟩ := List.forall_mem_cons.mp hcs
    refine Interaction.meets_bind.mpr ((meets_typeChar hkeys hc hrested hafter).mono (fun _ _ hq => hq) ?_)
    rintro h r ⟨hread, hend⟩
    cases r with
    | ok u =>
      have hstate : Server.after reading decode h = ⟨false, typed ++ [c]⟩ := by
        rw [← show (Server.after reading decode h).typed = typed ++ [c] from hread, ← hend.1]
      have hrest := ih hcs hend.2 hstate
      rwa [List.append_assoc] at hrest
    | error e =>
      refine ⟨?_, hend⟩
      rcases hread with hread | hread
      · rw [hread]
        exact List.prefix_append _ _
      · rw [hread]
        exact ⟨cs, (List.append_cons typed c cs).symm⟩

theorem meets_typeText (hkeys : Keysyms lookup decode) :
    (typeText lookup text).Meets (Proper reading lookup decode (normalized text))
      (Outcome reading decode (normalized text)) [] :=
  meets_typeChars hkeys (fun _ hc => hc) rested_nil rfl

/-- A server reads what was typed, and has Shift up; of what was not typed to the end it has read the beginning. -/
theorem typeText_types (hkeys : Keysyms lookup decode) (reading : Reading) {r : Except Text Unit}
    (hr : (typeText lookup text).Ends h r) : Outcome reading decode (normalized text) h r :=
  (meets_typeText hkeys).ends hr

/-- Keysyms as Unicode has them: those of Latin-1 are the characters, the others are above. -/
def unicodeKeysym (n : ℕ) : ℕ := if 0x20 ≤ n ∧ n ≤ 0xff then n else 0x1000000 + n

def unicodeChar (keysym : ℕ) : Option Char :=
  some (Char.ofNat (if keysym < 0x1000000 then keysym else keysym - 0x1000000))

theorem keysyms_unicode : Keysyms unicodeKeysym unicodeChar where
  decode_lookup := by
    intro c
    rw [unicodeKeysym, unicodeChar]
    split
    · rw [if_pos (by omega), Char.ofNat_toNat]
    · rw [if_neg (by omega), Nat.add_sub_cancel_left, Char.ofNat_toNat]
  character := by
    intro n
    rw [unicodeKeysym]
    split <;> omega

/-- `|` and a line break -/
theorem typeText_types_two : ∃ h, Outcome .scancode unicodeChar ['|', '\n'] h (.ok ()) := by
  obtain ⟨h, hends, -⟩ := Interaction.ends_run (fun _ => none) (typeText unicodeKeysym ['|', '\r', '\n'])
  have hok : (typeText unicodeKeysym ['|', '\r', '\n']).run (fun _ => none) = .ok () := rfl
  rw [hok] at hends
  exact ⟨h, typeText_types keysyms_unicode .scancode hends⟩

end OpenshiftConsole.Terminal.TypeText
