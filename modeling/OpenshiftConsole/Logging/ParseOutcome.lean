import OpenshiftConsole.Logging.FormatAnnotation
import OpenshiftConsole.Logging.Parse

/-!
# What `parseLine` returns

An extra column is `undefined` where its key names a function that the record, or an array in it,
inherits: `JSON.stringify` gives `undefined` for it. `parseLine` throws exactly where there is such a column
(`parseLine_returns_iff`); else it returns the entry, with the escape sequences taken out if there are any.
-/

namespace OpenshiftConsole.Logging.Parse

open Journal (ascii)
open Ansi (hasAnsi stripAnsi)

/-! ### Escape sequences -/

theorem someHasAnsi_strings (fields : List Str) : someHasAnsi (fields.map some) = .ok (fields.any hasAnsi) := by
  induction fields with
  | nil => rfl
  | cons field fields ih =>
    rw [List.map_cons, someHasAnsi, hasAnsiOf, ih, List.any_cons]
    cases hasAnsi field <;> rfl

/-- A field that is `undefined` is met, or a field before it has an escape sequence. -/
theorem someHasAnsi_undefined {fields : List (Option Str)} (h : none ∈ fields) :
    someHasAnsi fields = .ok true ∨ someHasAnsi fields = .error .ofUndefined := by
  induction fields with
  | nil => cases h
  | cons field fields ih =>
    rw [someHasAnsi]
    cases field with
    | none => exact .inr rfl
    | some field =>
      rw [hasAnsiOf]
      cases hasAnsi field with
      | true => exact .inl rfl
      | false => exact ih (by simpa using h)

theorem mapM_stripAnsiOf_strings (extras : List Str) : (extras.map some).mapM stripAnsiOf = .ok (extras.map stripAnsi) := by
  induction extras with
  | nil => rfl
  | cons extra extras ih =>
    rw [List.map_cons, List.mapM_cons, ih]
    rfl

theorem mapM_stripAnsiOf_undefined {extras : List (Option Str)} (h : none ∈ extras) :
    extras.mapM stripAnsiOf = .error .ofUndefined := by
  induction extras with
  | nil => cases h
  | cons extra extras ih =>
    rw [List.mapM_cons]
    cases extra with
    | none => rfl
    | some extra =>
      rw [ih (by simpa using h)]
      rfl

variable {entry entry' : LogEntry}

/-- The escape sequences are taken out of an entry whose extra columns are strings. -/
theorem withoutAnsi_strings {extras : List Str} (h : entry.extras = extras.map some) :
    withoutAnsi entry =
      .ok (if (ownFields entry ++ extras).any hasAnsi then cleaned entry (extras.map stripAnsi) else entry) := by
  rw [withoutAnsi, h, ← List.map_append, someHasAnsi_strings, mapM_stripAnsiOf_strings]
  cases (ownFields entry ++ extras).any hasAnsi <;> rfl

theorem withoutAnsi_undefined (h : none ∈ entry.extras) : withoutAnsi entry = .error .ofUndefined := by
  rw [withoutAnsi, mapM_stripAnsiOf_undefined h]
  rcases someHasAnsi_undefined (List.mem_append_right ((ownFields entry).map some) h) with hsome | hsome <;> rw [hsome] <;> rfl

/-- The extra columns are strings, or one is `undefined`. -/
theorem strings_or_undefined (extras : List (Option Str)) : none ∈ extras ∨ ∃ texts : List Str, extras = texts.map some := by
  induction extras with
  | nil => exact .inr ⟨[], rfl⟩
  | cons extra extras ih =>
    cases extra with
    | none => exact .inl List.mem_cons_self
    | some text =>
      rcases ih with h | ⟨texts, rfl⟩
      · exact .inl (List.mem_cons_of_mem _ h)
      · exact .inr ⟨text :: texts, rfl⟩

/-- `withoutAnsi` returns exactly the entries whose extra columns are strings, and they are strings then. -/
theorem withoutAnsi_returns_iff :
    (∃ entry', withoutAnsi entry = .ok entry' ∧ ∀ x ∈ entry'.extras, x.isSome) ↔ none ∉ entry.extras := by
  rcases strings_or_undefined entry.extras with h | ⟨texts, h⟩
  · refine iff_of_false ?_ (not_not_intro h)
    rintro ⟨entry', hentry, -⟩
    rw [withoutAnsi_undefined h] at hentry
    cases hentry
  · refine iff_of_true ⟨_, withoutAnsi_strings h, ?_⟩ (by simp [h])
    split
    · simp [cleaned]
    · simp [h]

/-- What is returned: the entry as it was, if no column has an escape sequence, or without them. -/
theorem withoutAnsi_cases (h : withoutAnsi entry = .ok entry') :
    (entry' = entry ∧ ∀ field ∈ ownFields entry, ¬hasAnsi field) ∨ ∃ extras, entry' = cleaned entry extras := by
  rcases strings_or_undefined entry.extras with hextras | ⟨texts, hextras⟩
  · rw [withoutAnsi_undefined hextras] at h
    cases h
  · rw [withoutAnsi_strings hextras, Except.ok.injEq] at h
    split at h
    · exact .inr ⟨_, h.symm⟩
    · rename_i hnone
      refine .inl ⟨h.symm, fun field hfield hansi => hnone ?_⟩
      exact List.any_eq_true.mpr ⟨field, List.mem_append_left texts hfield, hansi⟩

/-! ### Columns -/

variable {parsesDate : Str → Bool} {record : Record} {columns : List ColumnSpec}

/-- What a column adds to the extra ones. -/
def extraOf (record : Record) (column : ColumnSpec) : Option (Option Str) :=
  match column.type with
  | .number => some (some ((asNumber (pick record column.key)).elim [] fun q => (JsNumber.finite q).text))
  | .string => some (asText (pick record column.key))
  | _ => none

theorem applyColumn_extras (cells : Cells) (column : ColumnSpec) :
    (applyColumn parsesDate record cells column).extras = cells.extras ++ (extraOf record column).toList := by
  obtain ⟨key, type⟩ := column
  cases type <;> simp only [applyColumn, extraOf]
  all_goals first | rfl | (split <;> exact (List.append_nil _).symm)

theorem foldl_extras (cells : Cells) :
    (columns.foldl (applyColumn parsesDate record) cells).extras = cells.extras ++ columns.filterMap (extraOf record) := by
  induction columns generalizing cells with
  | nil => exact (List.append_nil _).symm
  | cons column columns ih =>
    rw [List.foldl_cons, ih, applyColumn_extras, List.append_assoc, List.filterMap_cons]
    cases extraOf record column <;> rfl

/-- `asText` is `undefined` of a function only. -/
theorem asText_eq_none {value : Field} : asText value = none ↔ value = .method := by
  constructor
  · intro h
    cases value with
    | json v => cases v <;> simp [asText] at h
    | method => rfl
    | _ => simp [asText] at h
  · rintro rfl
    rfl

theorem extraOf_eq_undefined {column : ColumnSpec} :
    extraOf record column = some none ↔ column.type = .string ∧ pick record column.key = .method := by
  obtain ⟨key, type⟩ := column
  cases type <;> simp [extraOf, asText_eq_none]

/-! ### Keys that name a function -/

/-- The name of a function that objects or arrays inherit. -/
def isMethodName (name : Str) : Prop := name ∈ objectMethods ∨ name ∈ arrayMethods

theorem isMethodName_of_inherited {prototype : Field} {name : Str} (hproto : prototype ≠ .method)
    (h : inherited prototype name = .method) : name ∈ objectMethods := by
  rw [inherited] at h
  split_ifs at h with hname hmethod
  · exact absurd h hproto
  · exact hmethod

theorem isMethodName_of_inheritedByArray {prototype : Field} {name : Str} (hproto : prototype ≠ .method)
    (h : inheritedByArray prototype name = .method) : isMethodName name := by
  rw [inheritedByArray] at h
  split_ifs at h with hname hmethod
  · exact absurd h hproto
  · exact .inr hmethod
  · exact .inl (isMethodName_of_inherited hproto h)

/-- A property that is a function has the name of one. -/
theorem isMethodName_of_property {name : Str} {value : Field} (h : property name value = .method) : isMethodName name := by
  have hlength : ∀ {n : ℕ} {prototype : Field}, prototype ≠ .method →
      (if name = ascii "length" then .json (.number (.finite n)) else inheritedByArray prototype name) = Field.method →
        isMethodName name := by
    intro n prototype hproto h
    split at h
    · cases h
    · exact isMethodName_of_inheritedByArray hproto h
  cases value with
  | json v =>
    cases v with
    | object members =>
      rw [property] at h
      cases hmember : JSON.member members name with
      | none =>
        rw [hmember] at h
        exact .inl (isMethodName_of_inherited (fun h => by cases h) h)
      | some v =>
        rw [hmember] at h
        cases h
    | array items =>
      rw [property] at h
      split at h
      · rename_i n _
        cases hitem : items[n]? with
        | none =>
          rw [hitem] at h
          cases h
        | some v =>
          rw [hitem] at h
          cases h
      · exact hlength (fun h => by cases h) h
    | _ => cases h
  | objectPrototype => exact .inl (isMethodName_of_inherited (fun h => by cases h) h)
  | arrayPrototype => exact hlength (n := 0) (fun h => by cases h) h
  | _ => cases h

/-- The names of functions are not dotted. -/
theorem splitOn_methodName {name : Str} (h : isMethodName name) : name.splitOn 46 = [name] := by
  have hnames : (objectMethods ++ arrayMethods).all fun name => name.splitOn 46 = [name] := by decide +kernel
  simpa using List.all_eq_true.mp hnames name (List.mem_append.mpr h)

/-- A key that names a function ends in the name of one. -/
theorem isMethodName_of_pick {key : Str} (h : pick record key = .method) : ∀ name ∈ (key.splitOn 46).getLast?, isMethodName name := by
  rw [pick] at h
  split at h
  · intro name hname
    have hkey := isMethodName_of_property h
    rw [splitOn_methodName hkey, List.getLast?_singleton, Option.mem_some_iff] at hname
    exact hname ▸ hkey
  · intro name hname
    rw [← List.dropLast_append_getLast? name hname, List.foldl_concat] at h
    exact isMethodName_of_property h

/-! ### Rows -/

variable {raw : Str} {format : LogFormat}

/-- A line is shown as it is, or it is decoded. -/
theorem parseDefault_cases (raw : Str) (format : LogFormat) :
    (format = .plain ∨ decodeRecord raw = none) ∧ parseDefault raw format = plainEntry raw ∨
      ∃ record, format ≠ .plain ∧ decodeRecord raw = some record ∧
        parseDefault raw format =
          if format = .journald then journaldEntry raw record else recordEntry raw (format = .ecs) record := by
  rw [parseDefault]
  split
  · rename_i hformat
    exact .inl ⟨.inl hformat, rfl⟩
  · rename_i hformat
    cases hrecord : decodeRecord raw with
    | none => exact .inl ⟨.inr rfl, rfl⟩
    | some record => exact .inr ⟨record, hformat, rfl, rfl⟩

/-- A record is decoded where the format has one and the line is one. -/
theorem record_parseDefault :
    (parseDefault raw format).record = if format = .plain then none else decodeRecord raw := by
  rcases parseDefault_cases raw format with ⟨hplain | hnone, h⟩ | ⟨record, hformat, hrecord, h⟩
  · rw [h, if_pos hplain]
    rfl
  · rw [h, hnone, ite_self]
    rfl
  · rw [h, if_neg hformat, hrecord]
    split <;> rfl

/-- There are no extra columns and no spans yet. -/
theorem extras_parseDefault : (parseDefault raw format).extras = [] ∧ (parseDefault raw format).messageSpans = none := by
  rcases parseDefault_cases raw format with ⟨-, h⟩ | ⟨record, -, -, h⟩
  · rw [h]
    exact ⟨rfl, rfl⟩
  · rw [h]
    split <;> exact ⟨rfl, rfl⟩

/-- The columns change nothing of the message and the priority, and make no spans. -/
theorem message_entryOf (parsesDate : Str → Bool) (raw : Str) (format : LogFormat) (columns : List ColumnSpec) :
    (entryOf parsesDate raw format columns).message = (parseDefault raw format).message ∧
      (entryOf parsesDate raw format columns).priority = (parseDefault raw format).priority ∧
      (entryOf parsesDate raw format columns).messageSpans = none := by
  have hspans := (@extras_parseDefault raw format).2
  rw [entryOf]
  split
  · exact ⟨rfl, rfl, hspans⟩
  · split <;> exact ⟨rfl, rfl, hspans⟩

theorem extras_entryOf :
    (entryOf parsesDate raw format columns).extras =
      ((parseDefault raw format).record.toList.flatMap fun record => columns.filterMap (extraOf record)) := by
  rw [entryOf]
  split
  · rename_i h
    rw [extras_parseDefault.1, h]
    rfl
  · rename_i record h
    rw [h]
    split
    · rename_i hcolumns
      rw [extras_parseDefault.1, hcolumns]
      rfl
    · simp [applyColumns, foldl_extras, Cells.start]

/-- An extra column is `undefined` where a `string` column names a function that the record inherits. -/
theorem undefined_iff :
    none ∈ (entryOf parsesDate raw format columns).extras ↔
      format ≠ .plain ∧ ∃ record, decodeRecord raw = some record ∧
        ∃ column ∈ columns, column.type = .string ∧ pick record column.key = .method := by
  rw [extras_entryOf, record_parseDefault]
  simp only [List.mem_flatMap, Option.mem_toList, List.mem_filterMap, extraOf_eq_undefined]
  constructor
  · rintro ⟨record, hrecord, hcolumn⟩
    split at hrecord
    · cases hrecord
    · rename_i hformat
      exact ⟨hformat, record, hrecord, hcolumn⟩
  · rintro ⟨hformat, record, hrecord, hcolumn⟩
    exact ⟨record, by rw [if_neg hformat]; exact hrecord, hcolumn⟩

/-- `parseLine` returns, for every line, if no `string` column's key ends in the name of a function. -/
theorem parseLine_returns_of_names
    (h : ∀ column ∈ columns, column.type = .string → ∀ name ∈ (column.key.splitOn 46).getLast?, ¬isMethodName name) :
    ∃ entry, parseLine parsesDate raw format columns = .ok entry ∧ ∀ x ∈ entry.extras, x.isSome := by
  rw [parseLine, withoutAnsi_returns_iff, undefined_iff]
  rintro ⟨-, record, -, column, hcolumn, htype, hpick⟩
  obtain ⟨name, hname⟩ : ∃ name, (column.key.splitOn 46).getLast? = some name :=
    Option.isSome_iff_exists.mp (by simp [List.splitOn_ne_nil])
  exact h column hcolumn htype name hname (isMethodName_of_pick hpick name hname)

end OpenshiftConsole.Logging.Parse
