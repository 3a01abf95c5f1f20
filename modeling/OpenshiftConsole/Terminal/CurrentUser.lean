import Mathlib.Data.List.DropRight
import OpenshiftConsole.NodeTerminal.Identity
import OpenshiftConsole.Terminal.TimeZone

/-!
# The name asked for

`sanitizeUsername` makes the name of an account of the name that somebody has in the console: in lower
case, without a domain, other characters than those of account names replaced by dashes, dashes at the ends
taken off, and at most 32 characters. The shim on the node checks the name once more.

What comes out the shim accepts, or it is empty. Dashes are taken off before the name is cut, and the cut can
bring one to the end again: it does exactly if it falls right behind a separator (`sanitizeUsername_iff`).
-/

namespace OpenshiftConsole.Terminal.CurrentUser

open OpenshiftConsole.Library
open OpenshiftConsole.Library.Lines (Text)
open OpenshiftConsole.Logging (Str)
open OpenshiftConsole.NodeTerminal (identityValidUsername islower SHIM_USERNAME_MAX)
open OpenshiftConsole.Terminal.TimeZone (ascii ascii_forall)

/-! ### The name -/

/-- `'-'`. -/
def dash : UInt16 := 45

/-- `[a-z_]` -/
def isFirst (u : UInt16) : Bool := (97 ≤ u && u ≤ 122) || u = 95

/-- `[a-z0-9_-]` -/
def isKept (u : UInt16) : Bool := isFirst u || (48 ≤ u && u ≤ 57) || u = dash

/-- `s.replace(/[^a-z0-9_-]+/g, '-')`; `inRun` after a character that is not kept. -/
def replaceRuns : Bool → Str → Str
  | _, [] => []
  | inRun, u :: s =>
    if isKept u then u :: replaceRuns false s
    else if inRun then replaceRuns true s
    else dash :: replaceRuns true s

/-- The replacement of `^-+` by nothing. -/
def trimStart (s : Str) : Str := s.dropWhile (· = dash)

/-- The replacement of `-+$` by nothing. -/
def trimEnd (s : Str) : Str := s.rdropWhile (· = dash)

/-- The part of a name before a domain: `s.split('@')[0]`. -/
def localPart (s : Str) : Str := (s.splitOn 64).headD []

/-- `/^[a-z_]/.test(s)` -/
def begins (s : Str) : Bool := s.head?.any isFirst

/-- `sanitizeUsername`. -/
def sanitizeUsername (toLowerCase : Str → Str) (raw : Str) : Str :=
  let cleaned := (trimEnd (trimStart (replaceRuns false (localPart (toLowerCase raw))))).take 32
  if begins cleaned then cleaned else []

/-- The shim's check accepts a string of the console, of which it gets the bytes. -/
def Accepted (s : Str) : Prop := identityValidUsername ((Utf16.encode s).map fun b => Char.ofNat b.toNat) = true

/-- A name that may be asked for: none, or one that the shim accepts, and no dash at its ends. -/
structure Fits (s : Str) : Prop where
  accepted : s = [] ∨ Accepted s
  first : s.head? ≠ some dash
  last : s.getLast? ≠ some dash

/-! ### Where it is cut -/

/-- A character that separates: a dash, or one that becomes a dash. -/
def isSeparator (u : UInt16) : Bool := !isKept u || u = dash

/-- How many characters a text comes to: a run of characters that are not kept is one. -/
def width (s : Str) : ℕ := (replaceRuns false s).length

/-- A separator that is a character of its own behind a text. -/
def Separates (body : Str) (sep : UInt16) : Prop :=
  sep = dash ∨ isKept sep = false ∧ ∀ u ∈ body.getLast?, isKept u = true

/-- The cut falls right behind a separator: the separators in front left away, the text begins a name, the 32nd
character that it comes to is a separator, and not only separators follow. -/
def CutAtSeparator (s : Str) : Prop :=
  ∃ body sep rest, s.dropWhile isSeparator = body ++ sep :: rest ∧ begins body = true ∧ width body = 31 ∧
    Separates body sep ∧ ∃ u ∈ rest, isSeparator u = false

variable {s t : Str} {u : UInt16} {inRun : Bool}

/-! ### The replacement -/

theorem isKept_of_mem_replaceRuns (h : u ∈ replaceRuns inRun s) : isKept u = true := by
  induction s generalizing inRun with
  | nil => cases h
  | cons v s ih =>
    rw [replaceRuns] at h
    split at h
    · rcases List.mem_cons.mp h with rfl | h
      · assumption
      · exact ih h
    · split at h
      · exact ih h
      · rcases List.mem_cons.mp h with rfl | h
        · rfl
        · exact ih h

/-- What is no dash was there before. -/
theorem mem_of_mem_replaceRuns (h : u ∈ replaceRuns inRun s) (hu : u ≠ dash) : u ∈ s := by
  induction s generalizing inRun with
  | nil => cases h
  | cons v s ih =>
    rw [replaceRuns] at h
    split at h
    · exact (List.mem_cons.mp h).elim (fun h => h ▸ List.mem_cons_self) fun h => List.mem_cons_of_mem v (ih h)
    · split at h
      · exact List.mem_cons_of_mem v (ih h)
      · exact List.mem_cons_of_mem v (ih ((List.mem_cons.mp h).resolve_left hu))

/-- What is kept and no dash is still there. -/
theorem mem_replaceRuns (h : u ∈ s) (hu : isKept u = true) : u ∈ replaceRuns inRun s := by
  induction s generalizing inRun with
  | nil => cases h
  | cons v s ih =>
    rw [replaceRuns]
    rcases List.mem_cons.mp h with rfl | h
    · rw [if_pos hu]
      exact List.mem_cons_self
    · split
      · exact List.mem_cons_of_mem v (ih h)
      · split
        · exact ih h
        · exact List.mem_cons_of_mem dash (ih h)

/-- To take off the dashes in front of what comes out is to leave the separators in front away. -/
theorem trimStart_replaceRuns (inRun : Bool) (s : Str) :
    trimStart (replaceRuns inRun s) = replaceRuns false (s.dropWhile isSeparator) := by
  induction s generalizing inRun with
  | nil => rfl
  | cons u s ih =>
    rw [replaceRuns]
    by_cases hkept : isKept u = true
    · rw [if_pos hkept, trimStart, List.dropWhile_cons]
      by_cases hu : u = dash
      · rw [if_pos (decide_eq_true hu), List.dropWhile_cons_of_pos (hu ▸ rfl)]
        exact ih false
      · have hsep : isSeparator u = false := by simp [isSeparator, hkept, hu]
        rw [if_neg (by simpa using hu), List.dropWhile_cons_of_neg (Bool.eq_false_iff.mp hsep), replaceRuns, if_pos hkept]
    · have hsep : isSeparator u = true := by simp [isSeparator, hkept]
      rw [if_neg hkept, List.dropWhile_cons_of_pos hsep, ← ih true]
      split <;> rfl

/-- Whether a text ends in a run of characters that are not kept. -/
def inRunAfter (inRun : Bool) (s : Str) : Bool := s.getLast?.elim inRun fun u => !isKept u

theorem inRunAfter_cons (inRun : Bool) (u : UInt16) (s : Str) : inRunAfter inRun (u :: s) = inRunAfter (!isKept u) s := by
  rw [inRunAfter, inRunAfter, List.getLast?_cons]
  cases s.getLast? <;> rfl

theorem inRunAfter_eq_false : inRunAfter false s = false ↔ ∀ u ∈ s.getLast?, isKept u = true := by
  rw [inRunAfter]
  cases s.getLast? <;> simp

/-- What comes of a character. -/
def written (inRun : Bool) (u : UInt16) : Str := if isKept u then [u] else if inRun then [] else [dash]

theorem replaceRuns_cons (inRun : Bool) (u : UInt16) (s : Str) :
    replaceRuns inRun (u :: s) = written inRun u ++ replaceRuns (!isKept u) s := by
  rw [replaceRuns, written]
  split
  · rename_i hkept
    rw [hkept]
    rfl
  · rename_i hkept
    rw [Bool.not_eq_true] at hkept
    rw [hkept]
    split <;> rfl

theorem replaceRuns_append (inRun : Bool) (s t : Str) :
    replaceRuns inRun (s ++ t) = replaceRuns inRun s ++ replaceRuns (inRunAfter inRun s) t := by
  induction s generalizing inRun with
  | nil => rfl
  | cons u s ih => rw [inRunAfter_cons, List.cons_append, replaceRuns_cons, replaceRuns_cons, ih, List.append_assoc]

/-- A dash is written for a separator only. -/
theorem written_getElem? {n : ℕ} (h : (written inRun u)[n]? = some dash) :
    n = 0 ∧ (written inRun u).length = 1 ∧ (u = dash ∨ isKept u = false ∧ inRun = false) := by
  rw [written] at *
  split at h
  · rename_i hkept
    rw [if_pos hkept]
    cases n with
    | zero => exact ⟨rfl, rfl, .inl (Option.some.inj h)⟩
    | succ n => cases h
  · rename_i hkept
    split at h
    · cases h
    · rename_i hrun
      rw [if_neg hkept, if_neg hrun]
      cases n with
      | zero => exact ⟨rfl, rfl, .inr ⟨Bool.eq_false_iff.mpr hkept, Bool.eq_false_iff.mpr hrun⟩⟩
      | succ n => cases h

/-- A separator is a dash. -/
theorem replaceRuns_separator {body : Str} {sep : UInt16} (h : Separates body sep) (rest : Str) :
    replaceRuns (inRunAfter false body) (sep :: rest) = dash :: replaceRuns (!isKept sep) rest := by
  rw [replaceRuns]
  rcases h with rfl | ⟨hsep, hlast⟩
  · rfl
  · rw [inRunAfter_eq_false.mpr hlast, hsep, if_neg Bool.false_ne_true, if_neg Bool.false_ne_true]
    rfl

/-- A dash that comes out is a separator of the text. -/
theorem replaceRuns_split {n : ℕ} (h : (replaceRuns inRun s)[n]? = some dash) :
    ∃ body sep rest, s = body ++ sep :: rest ∧ (replaceRuns inRun body).length = n ∧
      (sep = dash ∨ isKept sep = false ∧ inRunAfter inRun body = false) ∧
      (replaceRuns inRun s).drop (n + 1) = replaceRuns (!isKept sep) rest := by
  induction s generalizing inRun n with
  | nil => cases h
  | cons u s ih =>
    rw [replaceRuns_cons] at h ⊢
    rcases Nat.lt_or_ge n (written inRun u).length with hlt | hge
    · rw [List.getElem?_append_left hlt] at h
      obtain ⟨rfl, hlen, hsep⟩ := written_getElem? h
      refine ⟨[], u, s, rfl, rfl, hsep, ?_⟩
      rw [Nat.zero_add, ← hlen, List.drop_left]
    · obtain ⟨m, rfl⟩ := Nat.exists_eq_add_of_le hge
      rw [List.getElem?_append_right hge, Nat.add_sub_cancel_left] at h
      obtain ⟨body, sep, rest, rfl, rfl, hsep, hdrop⟩ := ih h
      refine ⟨u :: body, sep, rest, rfl, ?_, ?_, ?_⟩
      · rw [replaceRuns_cons, List.length_append]
      · rwa [inRunAfter_cons]
      · rw [Nat.add_assoc, List.drop_length_add_append, hdrop]

/-! ### The cut -/

/-- What is left when the dashes at the ends are taken off. -/
def trimmed (s : Str) : Str := trimEnd (trimStart (replaceRuns false s))

theorem trimEnd_last (s : Str) : (trimEnd s).getLast? ≠ some dash := by
  intro h
  obtain ⟨hne, hlast⟩ : ∃ hne, (trimEnd s).getLast hne = dash := by
    have hne : trimEnd s ≠ [] := by rintro hn; rw [hn] at h; cases h
    exact ⟨hne, Option.some.inj ((List.getLast?_eq_some_getLast hne).symm.trans h)⟩
  exact List.rdropWhile_last_not _ s hne (decide_eq_true hlast)

/-- Dashes at the end are taken off behind what is none. -/
theorem trimEnd_append (s : Str) (h : ∃ u ∈ t, u ≠ dash) : trimEnd (s ++ t) = s ++ trimEnd t ∧ trimEnd t ≠ [] := by
  have hne : trimEnd t ≠ [] := by
    obtain ⟨u, hu, hne⟩ := h
    intro hnil
    exact hne (of_decide_eq_true (List.rdropWhile_eq_nil_iff.mp hnil u hu))
  refine ⟨?_, hne⟩
  have hback : (t.reverse.dropWhile (· = dash)).isEmpty = false := by
    simpa [trimEnd, List.rdropWhile] using hne
  rw [trimEnd, List.rdropWhile, List.reverse_append, List.dropWhile_append, if_neg (by simp [hback]), List.reverse_append,
    List.reverse_reverse]
  rfl

/-- What does not end in a dash does once it is cut if a dash is the last that is left. -/
theorem take_last_iff (h : t.getLast? ≠ some dash) :
    (t.take 32).getLast? = some dash ↔ 32 < t.length ∧ t[31]? = some dash := by
  rw [List.getLast?_take, if_neg (by decide)]
  constructor
  · intro hdash
    cases h31 : t[31]? with
    | none =>
      rw [h31] at hdash
      exact absurd hdash h
    | some v =>
      rw [h31] at hdash
      have hlen : 31 < t.length := (List.getElem?_eq_some_iff.mp h31).1
      refine ⟨Nat.lt_of_le_of_ne hlen fun hlen => h ?_, hdash⟩
      rw [List.getLast?_eq_getElem?, ← hlen]
      exact h31.trans hdash
  · rintro ⟨-, hdash⟩
    rw [hdash]
    rfl

theorem isKept_of_isFirst (h : isFirst u = true) : isKept u = true := by rw [isKept, h]; rfl

theorem isSeparator_eq_false : isSeparator u = false ↔ isKept u = true ∧ u ≠ dash := by simp [isSeparator]

theorem begins_iff : begins s = true ↔ ∃ u, s.head? = some u ∧ isFirst u = true := Option.any_eq_true ..

theorem begins_append (h : begins s = true) (t : Str) : begins (s ++ t) = true := by
  obtain ⟨u, hu, hfirst⟩ := begins_iff.mp h
  obtain ⟨s, rfl⟩ := List.head?_eq_some_iff.mp hu
  exact begins_iff.mpr ⟨u, rfl, hfirst⟩

/-- What begins with a character that is kept comes out with it. -/
theorem begins_replaceRuns (h : ∃ u, s.head? = some u ∧ isKept u = true) (t : Str) :
    begins (replaceRuns false s ++ t) = begins s := by
  obtain ⟨u, hu, hkept⟩ := h
  obtain ⟨s, rfl⟩ := List.head?_eq_some_iff.mp hu
  rw [replaceRuns, if_pos hkept]
  rfl

/-- The cut brings a dash to the end exactly if it falls right behind a separator. -/
theorem cutAtSeparator_iff (s : Str) :
    CutAtSeparator s ↔ begins (trimmed s) = true ∧ 32 < (trimmed s).length ∧ (trimmed s)[31]? = some dash := by
  rw [trimmed, trimStart_replaceRuns]
  constructor
  · rintro ⟨body, sep, rest, hs, hbegins, hwidth, hsep, v, hv, hcore⟩
    obtain ⟨hkept, hne⟩ := isSeparator_eq_false.mp hcore
    obtain ⟨htrim, hrest⟩ := trimEnd_append (t := replaceRuns (!isKept sep) rest) (replaceRuns false body ++ [dash])
      ⟨v, mem_replaceRuns hv hkept, hne⟩
    have hlen : (replaceRuns false body).length = 31 := hwidth
    rw [hs, replaceRuns_append, replaceRuns_separator hsep, List.append_cons, htrim, List.append_assoc]
    refine ⟨?_, ?_, ?_⟩
    · rw [begins_replaceRuns]
      · exact hbegins
      · obtain ⟨u, hu, hfirst⟩ := begins_iff.mp hbegins
        exact ⟨u, hu, isKept_of_isFirst hfirst⟩
    · have := List.length_pos_iff.mpr hrest
      simp only [List.length_append, List.length_singleton, hlen]
      omega
    · rw [List.getElem?_append_right (Nat.le_of_eq hlen), hlen]
      rfl
  · rintro ⟨hbegins, hlong, hdash⟩
    obtain ⟨x, hx⟩ : trimEnd (replaceRuns false (s.dropWhile isSeparator)) <+: replaceRuns false (s.dropWhile isSeparator) :=
      List.rdropWhile_prefix _ _
    set t := trimEnd (replaceRuns false (s.dropWhile isSeparator)) with ht
    have hw : (replaceRuns false (s.dropWhile isSeparator))[31]? = some dash := by
      rw [← hx, List.getElem?_append_left (by omega), hdash]
    obtain ⟨body, sep, rest, hs, hwidth, hsep, hdrop⟩ := replaceRuns_split hw
    refine ⟨body, sep, rest, hs, ?_, hwidth, hsep.imp_right fun h => ⟨h.1, inRunAfter_eq_false.mp h.2⟩, ?_⟩
    · have hhead : ∃ u, body.head? = some u ∧ isKept u = true := by
        have hstart := List.head?_dropWhile_not isSeparator s
        rw [hs] at hstart
        cases body with
        | nil => cases hwidth
        | cons u body => exact ⟨u, rfl, (isSeparator_eq_false.mp hstart).1⟩
      rw [← begins_replaceRuns hhead (replaceRuns (inRunAfter false body) (sep :: rest)), ← replaceRuns_append, ← hs, ← hx]
      exact begins_append hbegins x
    · -- the last character that is left is one of the rest
      obtain ⟨v, hv⟩ : ∃ v, t.getLast? = some v := ⟨_, List.getLast?_eq_some_getLast (List.length_pos_iff.mp (by omega))⟩
      have hmem : v ∈ t.drop 32 := by
        refine List.mem_of_getLast? ?_
        rw [List.getLast?_drop, if_neg (by omega), hv]
      have hne : v ≠ dash := by
        rintro rfl
        exact trimEnd_last _ hv
      have hrest : v ∈ replaceRuns (!isKept sep) rest := by
        rw [← hdrop, ← hx, List.drop_append_of_le_length (by omega)]
        exact List.mem_append_left _ hmem
      exact ⟨v, mem_of_mem_replaceRuns hrest hne, isSeparator_eq_false.mpr ⟨isKept_of_mem_replaceRuns hrest, hne⟩⟩

/-! ### What the shim accepts -/

theorem lt_of_isKept (h : isKept u = true) : u < 0x80 := by
  simp only [isKept, isFirst, dash, Bool.or_eq_true, Bool.and_eq_true, decide_eq_true_eq, UInt16.le_iff_toNat_le,
    ← UInt16.toNat_inj] at h
  rw [UInt16.lt_iff_toNat_lt]
  simp only [UInt16.reduceToNat] at *
  omega

/-- The character that C has for a byte. -/
def charOf (b : UInt8) : Char := Char.ofNat b.toNat

/-- A character that is kept is one of account names in C. -/
theorem username_char (h : isKept u = true) : (islower (charOf u.toUInt8) || (charOf u.toUInt8).isDigit ||
    charOf u.toUInt8 = '_' || charOf u.toUInt8 = '-') = true := by
  have := ascii_forall (P := fun u => !isKept u || (islower (charOf u.toUInt8) || (charOf u.toUInt8).isDigit ||
    charOf u.toUInt8 = '_' || charOf u.toUInt8 = '-')) (by decide) (lt_of_isKept h)
  rwa [h] at this

/-- One that begins a name begins one in C. -/
theorem username_first (h : isFirst u = true) : (islower (charOf u.toUInt8) || charOf u.toUInt8 = '_') = true := by
  have := ascii_forall (P := fun u => !isFirst u || (islower (charOf u.toUInt8) || charOf u.toUInt8 = '_')) (by decide)
    (lt_of_isKept (isKept_of_isFirst h))
  rwa [h] at this

/-- A name of characters that are kept is accepted if it begins as a name and is not too long. -/
theorem accepted_of_begins (h : begins s = true) (hkept : ∀ u ∈ s, isKept u = true) (hlen : s.length ≤ 32) : Accepted s := by
  obtain ⟨u, hu, hfirst⟩ := begins_iff.mp h
  obtain ⟨s, rfl⟩ := List.head?_eq_some_iff.mp hu
  rw [List.length_cons] at hlen
  rw [Accepted, Utf16.encode_ascii fun u hu => lt_of_isKept (hkept u hu), List.map_map, List.map_cons, identityValidUsername,
    List.length_map, if_neg, if_neg, List.all_map, List.all_eq_true]
  · exact fun v hv => username_char (hkept v (List.mem_cons_of_mem u hv))
  · rw [Function.comp_apply]
    exact fun hnot => absurd (username_first hfirst) (Bool.not_eq_true _ ▸ Bool.not_eq_true' _ ▸ hnot)
  · rw [SHIM_USERNAME_MAX]
    omega

/-- **The name that is asked for is none, or one that the shim accepts, without a dash at its ends**, exactly if
the cut does not fall right behind a separator. -/
theorem sanitizeUsername_iff (toLowerCase : Str → Str) (raw : Str) :
    Fits (sanitizeUsername toLowerCase raw) ↔ ¬ CutAtSeparator (localPart (toLowerCase raw)) := by
  rw [cutAtSeparator_iff, sanitizeUsername]
  set t := trimmed (localPart (toLowerCase raw)) with ht
  have hlast : t.getLast? ≠ some dash := trimEnd_last _
  have hkept : ∀ u ∈ t.take 32, isKept u = true := by
    intro u hu
    have hmem : u ∈ trimStart (replaceRuns false (localPart (toLowerCase raw))) :=
      (List.rdropWhile_prefix _ _).subset (List.mem_of_mem_take hu)
    exact isKept_of_mem_replaceRuns ((List.dropWhile_sublist _).subset hmem)
  have hbegins : begins (t.take 32) = begins t := by
    cases t <;> rfl
  change Fits (if begins (t.take 32) then t.take 32 else []) ↔ _
  rw [hbegins]
  split
  · rename_i h
    obtain ⟨u, hu, hfirst⟩ := begins_iff.mp h
    have hhead : (t.take 32).head? = some u := by
      rw [List.head?_take, if_neg (by decide), hu]
    rw [and_iff_right h, ← take_last_iff hlast]
    refine ⟨fun hfits => hfits.last, fun hcut => ⟨.inr ?_, ?_, hcut⟩⟩
    · exact accepted_of_begins (hbegins.trans h) hkept (List.length_take_le 32 t)
    · rw [hhead]
      rintro ⟨⟩
      exact absurd hfirst (by decide)
  · rename_i h
    exact ⟨fun _ hcut => h hcut.1, fun _ => ⟨.inl rfl, nofun, nofun⟩⟩

/-- A name of 31 letters, a dash and one letter more. -/
theorem sanitizeUsername_cut :
    ¬ Fits (sanitizeUsername id (ascii "aaaaaaaaaaaaaaaaaaaaaaaaaaaaaaa-b".toList)) := by
  intro h
  exact h.last (by decide)

end OpenshiftConsole.Terminal.CurrentUser
