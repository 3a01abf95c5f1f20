import Mathlib.Data.List.Basic
import OpenshiftConsole.Logging.Pagination

/-!
# Requests for a node's journal

The node's tab asks for a number of entries, all or before a cursor, of some units
(`nodeJournalQuery`); the node's service checks the request (`parseJournalQuery`) and builds
the command line of journalctl (`journalArgs`). The plugin's backend, which is between the
two, passes the parameters on as they are. What the service accepts is ASCII, so that its
strings are those of the tab. It accepts what the tab asks for, unless there are too many units
(`parse_allowed`).
-/

namespace OpenshiftConsole.Logging.Journal

/-- A string literal. -/
def ascii (s : String) : Str := s.toList.map fun c => UInt16.ofNat c.toNat

/-- The decimal digits of a number. -/
def decimal (n : ℕ) : Str := ascii (Nat.repr n)

/-! ### Cursors -/

/-- What `JSON.parse` returns, as far as `cursorOf` looks at it: `other` is null, a boolean, a number or an array. -/
inductive Json where
  | string (s : Str)
  | object (members : List (Str × Json))
  | other

/-- `cursorOf`; the parser returns nothing where `JSON.parse` throws. -/
def cursorOf (parse : Str → Option Json) (line : Str) : Option Str :=
  match parse line with
  | some (.object members) =>
    match members.find? (·.1 = ascii "__CURSOR") with
    | some (_, .string cursor) => some cursor
    | _ => none
  | _ => none

/-! ### The request -/

/-- White space of JavaScript's `\s`. -/
def isSpace (c : UInt16) : Bool :=
  (9 ≤ c && c ≤ 13) || c = 32 || c = 0xa0 || c = 0x1680 || (0x2000 ≤ c && c ≤ 0x200a) || c = 0x2028 || c = 0x2029 ||
    c = 0x202f || c = 0x205f || c = 0x3000 || c = 0xfeff

/-- `[A-Za-z0-9]`. -/
def isAlnum (c : UInt16) : Bool := (65 ≤ c && c ≤ 90) || (97 ≤ c && c ≤ 122) || (48 ≤ c && c ≤ 57)

/-- `[A-Za-z0-9@:._]`. -/
def isUnitStart (c : UInt16) : Bool := isAlnum c || c ∈ ascii "@:._"

/-- `unitRE`, and `UNIT_RE` of the tab. -/
def unitRE : Str → Bool
  | [] => false
  | c :: cs => isUnitStart c && cs.all fun c => isUnitStart c || c ∈ ascii "-"

/-- `cursorRE`. -/
def cursorRE : Str → Bool
  | [] => false
  | c :: cs => isAlnum c && cs.length ≤ 511 && cs.all fun c => isAlnum c || c ∈ ascii "=;:._-"

/-- `parseUnits`: a free-text filter is split at white space and commas; what the backend would reject is dropped. -/
def parseUnits (value : Str) : List Str :=
  (value.splitOnP fun c => isSpace c || c ∈ ascii ",").filter fun unit => unit ≠ [] && unitRE unit

/-- The parameters of a request. -/
abbrev Query := List (Str × Str)

/-- The first value of a parameter, or the empty string. -/
def Query.get (q : Query) (key : Str) : Str := ((q.find? (·.1 = key)).map Prod.snd).getD []

/-- All values of a parameter. -/
def Query.all (q : Query) (key : Str) : List Str := (q.filter (·.1 = key)).map Prod.snd

/-- The parameters of `nodeJournalURL`. -/
def nodeJournalQuery (units : List Str) (tailLines : Option ℕ) (beforeCursor : Option Str) : Query :=
  [(ascii "output", ascii "json"), (ascii "tailLines", decimal (tailLines.getD 0))] ++
    (beforeCursor.toList.map fun cursor => (ascii "beforeCursor", cursor)) ++ units.map fun unit => (ascii "unit", unit)

/-! ### The backend -/

/-- `defaultTailLines`. -/
def defaultTailLines : ℕ := 1000

/-- `maxTailLines`. -/
def maxTailLines : ℕ := 10000

/-- `maxUnits`. -/
def maxUnits : ℕ := 20

/-- `journalQuery`. -/
structure JournalQuery where
  units : List Str
  tailLines : ℕ
  asJSON : Bool
  beforeCursor : Str

/-- Why a request is bad. -/
inductive BadRequest where
  /-- `tailLines must be an integer between 0 and 10000`. -/
  | tailLines
  /-- `output must be "short" or "json"`. -/
  | output
  /-- `invalid cursor`. -/
  | cursor
  /-- `invalid unit name` and the name. -/
  | unit (name : Str)
  /-- `at most 20 units may be requested`. -/
  | units

/-- `strconv.Atoi`, but for numbers that are out of range whatever they are checked against. -/
def atoi (s : Str) : Option ℤ :=
  let digits (s : Str) : Option ℤ :=
    if s ≠ [] ∧ s.all fun c => 48 ≤ c && c ≤ 57 then some (s.foldl (fun n c => 10 * n + (c.toNat - 48)) 0) else none
  match s with
  | 43 :: s => digits s
  | 45 :: s => (digits s).map (- ·)
  | s => digits s

/-- The units of a request: those that are empty are skipped. -/
def checkUnits : List Str → Except BadRequest (List Str)
  | [] => .ok []
  | u :: us =>
    if u = [] then checkUnits us
    else if unitRE u then (checkUnits us).map (u :: ·)
    else .error (.unit u)

/-- The number of lines of a request. -/
def checkTailLines (tail : Str) : Except BadRequest ℕ :=
  if tail = [] then .ok defaultTailLines
  else
    match atoi tail with
    | none => .error .tailLines
    | some n => if n < 0 ∨ n > maxTailLines then .error .tailLines else .ok n.toNat

/-- The form of the output of a request. -/
def checkOutput (output : Str) : Except BadRequest Bool :=
  if output = [] ∨ output = ascii "short" then .ok false
  else if output = ascii "json" then .ok true
  else .error .output

/-- The cursor of a request. -/
def checkCursor (cursor : Str) : Except BadRequest Str :=
  if cursor ≠ [] ∧ ¬cursorRE cursor then .error .cursor else .ok cursor

/-- `parseJournalQuery`. -/
def parseJournalQuery (q : Query) : Except BadRequest JournalQuery := do
  let tailLines ← checkTailLines (q.get (ascii "tailLines"))
  let asJSON ← checkOutput (q.get (ascii "output"))
  let beforeCursor ← checkCursor (q.get (ascii "beforeCursor"))
  let units ← checkUnits (q.all (ascii "unit"))
  if units.length > maxUnits then .error .units
  else .ok { units, tailLines, asJSON, beforeCursor }

/-- `journalArgs`. -/
def journalArgs (query : JournalQuery) : List Str :=
  [ascii "--no-pager", ascii "--utc", ascii "-W"] ++
    (if query.beforeCursor ≠ [] then [ascii "-o", ascii "json", ascii "-r", ascii "--cursor=" ++ query.beforeCursor]
      else if query.asJSON then [ascii "-o", ascii "json"]
      else [ascii "-r"]) ++
    (if query.tailLines > 0 then [ascii "-n", decimal query.tailLines] else []) ++
    query.units.flatMap fun unit => [ascii "-u", unit]

/-- `journalHandler`: what journalctl prints, unless the request is bad. -/
def journalHandler (journalctl : List Str → Str) (q : Query) : Option Str :=
  match parseJournalQuery q with
  | .error _ => none
  | .ok query => some (journalctl (journalArgs query))

/-! ### Numbers -/

theorem isDigit_bounds {c : Char} (h : c.isDigit = true) : 48 ≤ c.toNat ∧ c.toNat ≤ 57 := by
  simpa [Char.isDigit, UInt32.le_iff_toNat_le] using h

theorem decimal_eq (n : ℕ) : decimal n = (Nat.toDigits 10 n).map fun c => UInt16.ofNat c.toNat := by
  rw [decimal, ascii, Nat.toList_repr]

/-- The units of a number are digits. -/
theorem digit_of_mem_decimal {n : ℕ} {u : UInt16} (h : u ∈ decimal n) : 48 ≤ u.toNat ∧ u.toNat ≤ 57 := by
  rw [decimal_eq, List.mem_map] at h
  obtain ⟨c, hc, rfl⟩ := h
  have hdigit := isDigit_bounds (Nat.isDigit_of_mem_toDigits (by decide) (by decide) hc)
  rw [UInt16.toNat_ofNat', Nat.mod_eq_of_lt (by omega)]
  exact hdigit

theorem decimal_ne_nil (n : ℕ) : decimal n ≠ [] := by
  rw [decimal_eq, ne_eq, List.map_eq_nil_iff]
  exact Nat.toDigits_ne_nil

theorem foldl_decimal (l : List Char) (h : ∀ c ∈ l, c.isDigit = true) (n : ℕ) :
    (l.map fun c => UInt16.ofNat c.toNat).foldl (fun (n : ℤ) c => 10 * n + (c.toNat - 48)) n = (Nat.ofDigitChars 10 l n : ℕ) := by
  induction l generalizing n with
  | nil => rfl
  | cons c l ih =>
    have hdigit := isDigit_bounds (h c List.mem_cons_self)
    rw [List.map_cons, List.foldl_cons, Nat.ofDigitChars_cons, ← ih fun d hd => h d (List.mem_cons_of_mem c hd)]
    congr 1
    rw [UInt16.toNat_ofNat', Nat.mod_eq_of_lt (by omega)]
    have hzero : '0'.toNat = 48 := rfl
    omega

theorem atoi_decimal (n : ℕ) : atoi (decimal n) = some (n : ℤ) := by
  have hall : (decimal n).all (fun c => 48 ≤ c && c ≤ 57) = true := by
    rw [List.all_eq_true]
    intro u hu
    have hdigit := digit_of_mem_decimal hu
    simp only [Bool.and_eq_true, decide_eq_true_eq, UInt16.le_iff_toNat_le, UInt16.reduceToNat]
    exact hdigit
  have hvalue : (decimal n).foldl (fun (n : ℤ) c => 10 * n + (c.toNat - 48)) 0 = n := by
    have hfold := foldl_decimal (Nat.toDigits 10 n) (fun c => Nat.isDigit_of_mem_toDigits (by decide) (by decide)) 0
    rwa [← decimal_eq, Nat.ofDigitChars_ten_toDigits] at hfold
  have hsign : ∀ u ∈ decimal n, u ≠ 43 ∧ u ≠ 45 := fun u hu => by
    have hdigit := digit_of_mem_decimal hu
    constructor <;> rintro rfl <;> simp at hdigit
  unfold atoi
  dsimp only
  split
  · next heq => exact absurd rfl (hsign 43 (by rw [heq]; exact List.mem_cons_self)).1
  · next heq => exact absurd rfl (hsign 45 (by rw [heq]; exact List.mem_cons_self)).2
  · rw [if_pos ⟨decimal_ne_nil n, hall⟩, hvalue]

/-! ### The tab's requests -/

variable {units : List Str} {tail : Option ℕ} {cursor : Option Str}

theorem of_mem_parseUnits {value unit : Str} (h : unit ∈ parseUnits value) : unit ≠ [] ∧ unitRE unit := by
  simpa using (List.mem_filter.mp h).2

theorem checkUnits_eq (h : ∀ u ∈ units, u ≠ [] ∧ unitRE u) : checkUnits units = .ok units := by
  induction units with
  | nil => rfl
  | cons u us ih =>
    obtain ⟨hne, hre⟩ := h u List.mem_cons_self
    rw [checkUnits, if_neg hne, if_pos hre, ih fun v hv => h v (List.mem_cons_of_mem u hv)]
    rfl

theorem all_unit (cursor : Option Str) (tailLines : Option ℕ) :
    (nodeJournalQuery units tailLines cursor).all (ascii "unit") = units := by
  have hunits : ((units.map fun unit => (ascii "unit", unit)).filter (·.1 = ascii "unit")) =
      units.map fun unit => (ascii "unit", unit) := List.filter_eq_self.mpr (by simp)
  have hcursor : (cursor.toList.map fun cursor => (ascii "beforeCursor", cursor)).filter (·.1 = ascii "unit") = [] := by
    rw [List.filter_eq_nil_iff]
    simp only [List.mem_map, forall_exists_index, and_imp]
    rintro _ c - rfl
    exact show ¬decide (ascii "beforeCursor" = ascii "unit") = true by decide
  rw [Query.all, nodeJournalQuery, List.filter_append, List.filter_append, hcursor, hunits, List.map_append, List.map_append,
    List.map_map]
  exact List.map_id' _

theorem get_beforeCursor (cursor : Option Str) (tailLines : Option ℕ) :
    (nodeJournalQuery units tailLines cursor).get (ascii "beforeCursor") = cursor.getD [] := by
  have hunits : (units.map fun unit => (ascii "unit", unit)).find? (·.1 = ascii "beforeCursor") = none := by
    rw [List.find?_eq_none]
    simp only [List.mem_map, forall_exists_index, and_imp]
    rintro _ u - rfl
    exact show ¬decide (ascii "unit" = ascii "beforeCursor") = true by decide
  cases cursor with
  | none => exact congrArg (fun o => (o.map Prod.snd).getD []) hunits
  | some c => rfl

/-- What the tab may ask for besides units: up to as many entries as the service gives, all of them if it does not
say, and a cursor that is one. -/
structure Allowed (tail : Option ℕ) (cursor : Option Str) : Prop where
  tail : ∀ n ∈ tail, n ≤ maxTailLines
  cursor : ∀ c ∈ cursor, c = [] ∨ cursorRE c = true

/-- A page of entries may be asked for. -/
theorem allowed_page (hc : ∀ c ∈ cursor, cursorRE c = true) : Allowed (some pageLines) cursor :=
  ⟨fun n hn => by rw [← Option.some.inj hn]; decide, fun c h => .inr (hc c h)⟩

/-- The service accepts what the tab may ask for, unless there are too many units. -/
theorem parse_allowed (hu : ∀ u ∈ units, u ≠ [] ∧ unitRE u = true) (h : Allowed tail cursor) :
    parseJournalQuery (nodeJournalQuery units tail cursor) =
      if units.length > maxUnits then .error .units
      else .ok { units, tailLines := tail.getD 0, asJSON := true, beforeCursor := cursor.getD [] } := by
  have hcount : tail.getD 0 ≤ maxTailLines := by
    cases tail with
    | none => decide
    | some n => exact h.tail n rfl
  have htail : checkTailLines ((nodeJournalQuery units tail cursor).get (ascii "tailLines")) = .ok (tail.getD 0) := by
    have hget : (nodeJournalQuery units tail cursor).get (ascii "tailLines") = decimal (tail.getD 0) := rfl
    rw [hget, checkTailLines, if_neg (decimal_ne_nil _), atoi_decimal]
    exact if_neg (by omega)
  have houtput : checkOutput ((nodeJournalQuery units tail cursor).get (ascii "output")) = .ok true := rfl
  have hcursor : checkCursor (cursor.getD []) = .ok (cursor.getD []) := by
    cases cursor with
    | none => rfl
    | some c =>
      refine if_neg fun hbad => ?_
      rcases h.cursor c rfl with rfl | hgood
      · exact hbad.1 rfl
      · exact hbad.2 hgood
  rw [parseJournalQuery, htail, houtput, get_beforeCursor, hcursor, all_unit, checkUnits_eq hu]
  rfl

end OpenshiftConsole.Logging.Journal
