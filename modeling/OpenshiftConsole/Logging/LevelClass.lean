import OpenshiftConsole.Logging.ParseOutcome

/-!
# The level of a row

A level that is read from a text (`levelRead`) is classed when it is read and, in an entry from which escape
sequences are taken out, again afterwards, except if the entry has the journal's priority. So the class is that
of the text as it is shown unless the text has an escape sequence and the entry has a priority; then
there is no class. A blank text is read as the number zero, and gets a class (`levelClass_iff`).
-/

namespace OpenshiftConsole.Logging.Parse

open OpenshiftConsole.Library
open ControlSequences (esc csi)
open Journal (ascii isSpace)
open Ansi (hasAnsi stripAnsi)

/-! ### Classes -/

/-- A text that is blank is the number zero. -/
theorem classOf_blank {text : Str} (h : trim text = []) : classOf text = some .fatal := by
  have hwords : levelWords.find? (·.1 = toUpperCase (trim text)) = none := by
    rw [h]
    decide
  have hzero : JsNumber.ofString text = .finite 0 := by
    rw [JsNumber.ofString, h]
  rw [classOf, hwords, hzero]
  decide

theorem mem_toUpperCase {c : UInt16} {text : Str} (h : c ∈ text) (hc : upperCase c = [c]) : c ∈ toUpperCase text :=
  List.mem_flatMap.mpr ⟨c, h, hc ▸ List.mem_singleton_self c⟩

/-- A text with an escape sequence is no level. -/
theorem classOf_of_hasAnsi {text : Str} (h : hasAnsi text) : classOf text = none := by
  have hchar : ∃ c ∈ text, isSpace c = false ∧ upperCase c = [c] ∧ ¬JsNumber.isNumberChar c ∧ ∀ w ∈ levelWords, c ∉ w.1 := by
    simp only [hasAnsi, decide_eq_true_eq] at h
    rcases h with h | h
    · exact ⟨esc, h, by decide, by decide, by decide, by decide⟩
    · exact ⟨csi, h, by decide, by decide, by decide, by decide⟩
  obtain ⟨c, hc, hspace, hupper, hnumber, hwords⟩ := hchar
  have hnone : levelWords.find? (·.1 = toUpperCase (trim text)) = none := by
    rw [List.find?_eq_none]
    intro w hw heq
    rw [decide_eq_true_eq] at heq
    exact hwords w hw (heq ▸ mem_toUpperCase (mem_trim hc hspace) hupper)
  rw [classOf, hnone, JsNumber.ofString_eq_nan (mem_trim hc hspace) hnumber]
  rfl

/-- The class of a level that is shown as a text: none if that is blank. -/
def shownClass (text : Str) : Option LogLevel := if trim text = [] then none else classOf text

theorem classOf_eq_shownClass {text : Str} : classOf text = shownClass text ↔ trim text ≠ [] := by
  rw [shownClass]
  split
  · rename_i h
    rw [classOf_blank h]
    simp [h]
  · rename_i h
    simp [h]

/-! ### Columns -/

variable {record : Record} {columns : List ColumnSpec}

/-- The level that a column reads. -/
def levelOfColumn (record : Record) (column : ColumnSpec) : Option Str :=
  if column.type = .logLevel then ownString (pick record column.key) else none

/-- What of the variables is about the level. -/
def Cells.levels (cells : Cells) : Bool × Option Str × Option LogLevel := (cells.levelSet, cells.level, cells.levelClass)

/-- A column that reads a level sets it, if none did before. -/
theorem applyColumn_levels (parsesDate : Str → Bool) (record : Record) (cells : Cells) (column : ColumnSpec) :
    (applyColumn parsesDate record cells column).levels =
      if cells.levelSet then cells.levels
      else (levelOfColumn record column).elim cells.levels fun text => (true, some text, classOf text) := by
  obtain ⟨key, type⟩ := column
  have hother : ∀ {cells' : Cells}, cells'.levels = cells.levels →
      cells'.levels = if cells.levelSet then cells.levels else (none : Option Str).elim cells.levels fun text =>
        (true, some text, classOf text) := fun h => h.trans (ite_self _).symm
  cases type with
  | logLevel =>
    simp only [applyColumn, levelOfColumn, if_true]
    cases cells.levelSet with
    | true => rfl
    | false => cases ownString (pick record key) <;> rfl
  | number | string => exact hother rfl
  | _ =>
    refine hother ?_
    simp only [applyColumn]
    split <;> rfl

/-- The first column that reads a level gives the level and its class. -/
theorem foldl_levels (parsesDate : Str → Bool) (record : Record) (columns : List ColumnSpec) (cells : Cells) :
    (columns.foldl (applyColumn parsesDate record) cells).levels =
      if cells.levelSet then cells.levels
      else (columns.findSome? (levelOfColumn record)).elim cells.levels fun text => (true, some text, classOf text) := by
  induction columns generalizing cells with
  | nil => exact (ite_self _).symm
  | cons column columns ih =>
    rw [List.foldl_cons, ih, List.findSome?_cons]
    have hstep := applyColumn_levels parsesDate record cells column
    have hset : (applyColumn parsesDate record cells column).levelSet = (applyColumn parsesDate record cells column).levels.1 :=
      rfl
    rw [hset, hstep]
    cases hcells : cells.levelSet with
    | true =>
      simp only [if_true]
      exact if_pos hcells
    | false =>
      cases levelOfColumn record column with
      | none =>
        simp only [Bool.false_eq_true, if_false, Option.elim_none]
        exact if_neg (by simp [Cells.levels, hcells])
      | some text => rfl

/-! ### Rows -/

variable {raw : Str} {format : LogFormat} {entry : LogEntry}

/-- The level that is read from a text: by a column, or else with the format's keys; the journal has none. -/
def levelRead (raw : Str) (format : LogFormat) (columns : List ColumnSpec) : Option Str :=
  if format = .plain then none
  else
    (decodeRecord raw).bind fun record =>
      (columns.findSome? (levelOfColumn record)).or
        (if format = .journald then none else firstString record (levelKeys (format = .ecs)))

/-- What the columns make of the level and its class. -/
theorem levels_entryOf (parsesDate : Str → Bool) (columns : List ColumnSpec)
    (hrecord : (parseDefault raw format).record = some record) :
    ((entryOf parsesDate raw format columns).level, (entryOf parsesDate raw format columns).levelClass) =
      (columns.findSome? (levelOfColumn record)).elim ((parseDefault raw format).level, (parseDefault raw format).levelClass)
        fun text => (some text, classOf text) := by
  have hcells := foldl_levels parsesDate record columns (.start (parseDefault raw format))
  rw [if_neg (by simp [Cells.start])] at hcells
  rw [entryOf, hrecord]
  dsimp only
  split
  · rename_i hcolumns
    rw [hcolumns]
    rfl
  · refine (congrArg Prod.snd hcells).trans ?_
    cases columns.findSome? (levelOfColumn record) <;> rfl

/-- The level and its class before escape sequences are taken out. -/
theorem level_entryOf (parsesDate : Str → Bool) {text : Str} (h : levelRead raw format columns = some text) :
    (entryOf parsesDate raw format columns).level = some text ∧
      (entryOf parsesDate raw format columns).levelClass = classOf text := by
  rw [levelRead] at h
  split at h
  · cases h
  · rename_i hformat
    obtain ⟨record, hrecord, hlevel⟩ := Option.bind_eq_some_iff.mp h
    have hdefault : (parseDefault raw format).record = some record := by rw [record_parseDefault, if_neg hformat, hrecord]
    have hentry := levels_entryOf parsesDate columns hdefault
    rw [← Prod.mk.injEq, hentry]
    cases hcolumn : columns.findSome? (levelOfColumn record) with
    | some text' =>
      rw [hcolumn, Option.some_or, Option.some_inj] at hlevel
      rw [hlevel]
      rfl
    | none =>
      rw [hcolumn, Option.none_or] at hlevel
      split at hlevel
      · cases hlevel
      · rename_i hjournald
        have hread : parseDefault raw format = recordEntry raw (format = .ecs) record := by
          rw [parseDefault, if_neg hformat, hrecord]
          exact if_neg hjournald
        rw [hread]
        simp [recordEntry, hlevel, normalizeLevel]

/-- When the class of a level is that of the text that is shown: if the entry has a priority and the text escape
sequences, the text that is shown must be no level, and else it must not be blank. -/
def ClassAgrees (priority : Option Str) (text : Str) : Prop :=
  if priority ≠ none ∧ hasAnsi text then shownClass (stripAnsi text) = none else trim (stripAnsi text) ≠ []

/-- **The level of a row**: the level that is shown is the text without escape sequences, and its class is that of the text
that is shown exactly if they agree. -/
theorem levelClass_iff (parsesDate : Str → Bool) (raw : Str) (format : LogFormat) (columns : List ColumnSpec)
    (entry : LogEntry) (text : Str) (hentry : parseLine parsesDate raw format columns = .ok entry)
    (hread : levelRead raw format columns = some text) :
    entry.level = some (stripAnsi text) ∧
      (entry.levelClass = shownClass (stripAnsi text) ↔ ClassAgrees (parseDefault raw format).priority text) := by
  obtain ⟨hlevel, hclass⟩ := level_entryOf parsesDate hread
  obtain ⟨-, hpriority, -⟩ := message_entryOf parsesDate raw format columns
  -- Text without escape sequences is classed as it is shown.
  have hplain : ¬hasAnsi text → stripAnsi text = text := fun h => if_neg h
  rcases withoutAnsi_cases hentry with ⟨rfl, hnone⟩ | ⟨extras, rfl⟩
  · have hansi : ¬hasAnsi text := hnone text (by simp [ownFields, hlevel])
    rw [hplain hansi, hclass, classOf_eq_shownClass, ClassAgrees, if_neg fun h => hansi h.2, hplain hansi]
    exact ⟨hlevel, Iff.rfl⟩
  · refine ⟨by rw [cleaned, hlevel]; rfl, ?_⟩
    rw [ClassAgrees, cleaned, hlevel, hclass, hpriority]
    dsimp only
    split
    · rename_i hno
      rw [if_neg fun h => h.1 hno]
      exact classOf_eq_shownClass
    · rename_i hprio
      split
      · rename_i hboth
        rw [classOf_of_hasAnsi hboth.2]
        exact eq_comm
      · rename_i hboth
        have hansi : ¬hasAnsi text := fun h => hboth ⟨hprio, h⟩
        rw [hplain hansi]
        exact classOf_eq_shownClass

/-- A coloured level. -/
theorem levelClass_iff_coloured :
    ∃ entry, parseLine (fun _ => true) (ascii "\x7b\"level\":\"\\u001b[33mWARN\"\x7d") .json [] = .ok entry ∧
      entry.level = some (stripAnsi (esc :: ascii "[33mWARN")) ∧
      (entry.levelClass = shownClass (stripAnsi (esc :: ascii "[33mWARN")) ↔
        ClassAgrees (parseDefault (ascii "\x7b\"level\":\"\\u001b[33mWARN\"\x7d") .json).priority (esc :: ascii "[33mWARN")) :=
  ⟨_, rfl, levelClass_iff (fun _ => true) _ _ [] _ _ rfl rfl⟩

/-- A blank level, and a coloured one that a column reads of a journal's entry that has a priority. -/
theorem levelClass_blank :
    (∃ entry, parseLine (fun _ => true) (ascii "\x7b\"level\":\" \"\x7d") .json [] = .ok entry ∧
      entry.level = some (ascii " ") ∧ entry.levelClass = some .fatal) ∧
    ∃ entry, parseLine (fun _ => true) (ascii "\x7b\"PRIORITY\":\"6\",\"lvl\":\"\\u001b[31mERROR\"\x7d") .journald
        [⟨ascii "lvl", .logLevel⟩] = .ok entry ∧
      entry.level = some (ascii "ERROR") ∧ entry.levelClass = none := by
  refine ⟨⟨_, rfl, ?_, ?_⟩, _, rfl, ?_, ?_⟩ <;> decide +kernel

end OpenshiftConsole.Logging.Parse
