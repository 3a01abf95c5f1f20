import Mathlib.Data.List.TakeWhile
import OpenshiftConsole.Logging.Formats

/-!
# The format annotation

    container=format(,container=format)*
    format = format-name(:column-name=column-type(,column-name=column-type)*)?

Both lists are comma-separated, so a token is told apart by what it could be: the format of a
container's entry, or the type of a column of the container before. A token that is neither
ends the columns that are being collected.

An annotation that is written from a list of entries reads as these entries, and a token that
is neither and that is put between two others changes at most the entry that it is put
into (`annotation_grammar`).
-/

namespace OpenshiftConsole.Logging.FormatAnnotation

open Journal (ascii isSpace)

/-- `FormatHint` -/
structure FormatHint where
  format : LogFormat
  columns : List ColumnSpec

/-! ### The parser -/

/-- The map, as the pairs that were set; `current` is the last of them while columns are collected. -/
structure Hints where
  set : List (Str × FormatHint)
  collecting : Bool

/-- `current = null` -/
def Hints.stop (h : Hints) : Hints := { h with collecting := false }

/-- `hints.set(name, current)` with a new `current` -/
def Hints.add (h : Hints) (name : Str) (hint : FormatHint) : Hints := { set := h.set ++ [(name, hint)], collecting := true }

/-- `current.columns.push(column)` -/
def Hints.push (h : Hints) (column : ColumnSpec) : Hints :=
  { h with set := h.set.modify (h.set.length - 1) fun (name, hint) => (name, { hint with columns := hint.columns ++ [column] }) }

/-- `hints.get(name)` -/
def Hints.get (h : Hints) (name : Str) : Option FormatHint := (h.set.reverse.find? (·.1 = name)).map Prod.snd

/-- What could be the format's name in the value of a token. -/
def headOf (value : Str) : Str := toLowerCase (trim (value.takeWhile (· ≠ colon)))

/-- The column that rides on a container's entry. -/
def firstColumn (first : Str) : Option ColumnSpec :=
  match cutAt equals first with
  | some (key, type) => if key = [] then none else (columnType (trim type)).map fun type => { key := trim key, type }
  | none => none

/-- One turn of the loop of `parseHints`. -/
def hintStep (h : Hints) (token : Str) : Hints :=
  match cutAt equals token with
  | none => if trim token ≠ [] then h.stop else h
  | some (name, value) =>
    let name := trim name
    let value := trim value
    match cutAt colon value, logFormat (headOf value) with
    | none, none =>
      match columnType value with
      | some type => if h.collecting ∧ name ≠ [] then h.push { key := name, type } else h.stop
      | none => h.stop
    | some _, none => h.stop
    | none, some format => if name = [] then h.stop else h.add name { format, columns := [] }
    | some (_, first), some format =>
      if name = [] then h.stop
      else
        match firstColumn first with
        | some column => (h.add name { format, columns := [] }).push column
        | none => (h.add name { format, columns := [] }).stop

/-- `parseHints` -/
def parseHints ( annotation : Str) : Hints := ( annotation.splitOn comma).foldl hintStep { set := [], collecting := false }

/-- `annotatedFormat`; an annotation that is absent is `none`. -/
def annotatedFormat ( annotation : Option Str) (container : Str) : Option FormatHint :=
  match annotation with
  | none => none
  | some annotation => if annotation = [] then none else (parseHints annotation).get container

/-! ### Annotations -/

/-- A container's name, or a column's key. -/
structure Word where
  text : Str
  filled : text ≠ []
  trimmed : trim text = text
  plain : comma ∉ text ∧ equals ∉ text

/-- What an annotation says of a container. -/
structure Entry where
  container : Word
  format : LogFormat
  columns : List (Word × ColumnType)

/-- The column of a record's key. -/
def spec (column : Word × ColumnType) : ColumnSpec := { key := column.1.text, type := column.2 }

/-- The hint that an entry gives. -/
def Entry.hint (e : Entry) : FormatHint := { format := e.format, columns := e.columns.map spec }

/-- `column-name=column-type` -/
def columnToken (column : Word × ColumnType) : Str := column.1.text ++ equals :: column.2.name

/-- The tokens of an entry; its first column rides on the first of them. -/
def Entry.tokens (e : Entry) : List Str :=
  match e.columns with
  | [] => [e.container.text ++ equals :: e.format.name]
  | column :: columns =>
    (e.container.text ++ equals :: (e.format.name ++ colon :: columnToken column)) :: columns.map columnToken

/-- The tokens of an annotation. -/
def tokens (entries : List Entry) : List Str := entries.flatMap Entry.tokens

/-- The text of an annotation with these tokens. -/
def render (tokens : List Str) : Str := [comma].intercalate tokens

/-- The last entry of a container. -/
def lastEntry (entries : List Entry) (container : Str) : Option Entry := entries.reverse.find? (·.container.text = container)

/-- A container's own entry. -/
def IsEntry (token : Str) : Prop :=
  ∃ name value, cutAt equals token = some (name, value) ∧ trim name ≠ [] ∧ logFormat (headOf (trim value)) ≠ none

/-- A column. -/
def IsColumn (token : Str) : Prop :=
  ∃ name value, cutAt equals token = some (name, value) ∧ trim name ≠ [] ∧ columnType (trim value) ≠ none

/-- A token that cannot be placed. -/
structure Unplaced (token : Str) : Prop where
  single : comma ∉ token
  noEntry : ¬IsEntry token
  noColumn : ¬IsColumn token

/-- The tokens before and after a place that is inside an entry of the container. -/
def InsideEntry (entries : List Entry) (before after : List Str) (container : Str) : Prop :=
  ∃ pre e post first second, entries = pre ++ e :: post ∧ e.container.text = container ∧ e.tokens = first ++ second ∧
    first ≠ [] ∧ second ≠ [] ∧ before = tokens pre ++ first ∧ after = second ++ tokens post

/-! ### What the tokens do -/

variable {h : Hints} {container : Str} {hint : FormatHint} {set : List (Str × FormatHint)}

theorem push_last (column : ColumnSpec) (collecting : Bool) :
    Hints.push { set := set ++ [(container, hint)], collecting } column =
      { set := set ++ [(container, { hint with columns := hint.columns ++ [column] })], collecting } := by
  have hmodify : ∀ (set : List (Str × FormatHint)) f,
      (set ++ [(container, hint)]).modify set.length f = set ++ [f (container, hint)] := by
    intro set f
    induction set with
    | nil => rfl
    | cons a set ih => simp [ih]
  simp [Hints.push, hmodify]

theorem comma_notMem_columnToken (c : Word × ColumnType) : comma ∉ columnToken c := by
  have ht : comma ∉ c.2.name := fun hc => ((columnType_name_clean c.2).2 comma hc).2.1 rfl
  simp only [columnToken, List.mem_append, List.mem_cons, not_or]
  exact ⟨c.1.plain.1, by decide, ht⟩

theorem comma_notMem_tokens {e : Entry} {t : Str} (ht : t ∈ e.tokens) : comma ∉ t := by
  have hf : comma ∉ e.format.name := fun hc => ((format_name e.format).2 comma hc).2.1 rfl
  rw [Entry.tokens] at ht
  split at ht
  · rw [List.mem_singleton] at ht
    subst ht
    simp only [List.mem_append, List.mem_cons, not_or]
    exact ⟨e.container.plain.1, by decide, hf⟩
  · rcases List.mem_cons.mp ht with rfl | ht
    · simp only [List.mem_append, List.mem_cons, not_or]
      exact ⟨e.container.plain.1, by decide, hf, by decide, comma_notMem_columnToken _⟩
    · obtain ⟨c, -, rfl⟩ := List.mem_map.mp ht
      exact comma_notMem_columnToken c

/-- A name is trimmed. -/
theorem trim_clean {s t : Str} (hs : s ≠ []) (hs' : ∀ c ∈ s, isSpace c = false) (ht : t ≠ []) (ht' : ∀ c ∈ t, isSpace c = false)
    (u : Str) : trim s = s ∧ trim (s ++ (u ++ t)) = s ++ (u ++ t) := by
  refine ⟨trim_eq_self (fun c hc => hs' c (List.mem_of_head? hc)) fun c hc => hs' c (List.mem_of_getLast? hc), trim_eq_self ?_ ?_⟩
  · intro c hc
    rw [List.head?_append_of_ne_nil _ hs] at hc
    exact hs' c (List.mem_of_head? hc)
  · intro c hc
    rw [← List.append_assoc, List.getLast?_append_of_ne_nil _ ht] at hc
    exact ht' c (List.mem_of_getLast? hc)

theorem trim_format (f : LogFormat) : trim f.name = f.name :=
  (trim_clean (format_name f).1 (fun c hc => ((format_name f).2 c hc).1) (format_name f).1
    (fun c hc => ((format_name f).2 c hc).1) []).1

theorem trim_columnType (t : ColumnType) : trim t.name = t.name :=
  (trim_clean (columnType_name_clean t).1 (fun c hc => ((columnType_name_clean t).2 c hc).1) (columnType_name_clean t).1
    (fun c hc => ((columnType_name_clean t).2 c hc).1) []).1

theorem colon_notMem_format (f : LogFormat) : colon ∉ f.name := fun hc => ((format_name f).2 colon hc).2.2.1 rfl

/-- What could be the format's name is the format's name, with a column behind it or none. -/
theorem headOf_format (f : LogFormat) (t : Str) : headOf f.name = f.name ∧ headOf (f.name ++ colon :: t) = f.name := by
  have hne : ∀ c ∈ f.name, decide (c ≠ colon) = true := fun c hc => by
    simpa using ((format_name f).2 c hc).2.2.1
  constructor
  · rw [headOf, List.takeWhile_eq_self_iff.mpr hne, trim_format, toLowerCase_format]
  · rw [headOf, List.takeWhile_append_of_pos hne]
    simp [trim_format, toLowerCase_format]

theorem headOf_columnType (t : ColumnType) : logFormat (headOf t.name) = none := by
  have hne : ∀ c ∈ t.name, decide (c ≠ colon) = true := fun c hc => by
    simpa using ((columnType_name_clean t).2 c hc).2.2.1
  rw [headOf, List.takeWhile_eq_self_iff.mpr hne, trim_columnType, logFormat_columnType]

/-- A container's entry without columns. -/
theorem hintStep_format (h : Hints) (c : Word) (f : LogFormat) :
    hintStep h (c.text ++ equals :: f.name) = h.add c.text { format := f, columns := [] } := by
  simp only [hintStep, cutAt_append c.plain.2, c.trimmed, trim_format, cutAt_eq_none (colon_notMem_format f),
    (headOf_format f []).1, logFormat_name, if_neg c.filled]

theorem firstColumn_columnToken (c : Word × ColumnType) : firstColumn (columnToken c) = some (spec c) := by
  simp only [firstColumn, columnToken, cutAt_append c.1.plain.2, if_neg c.1.filled, c.1.trimmed, trim_columnType,
    columnType_name, Option.map_some, spec]

/-- A container's entry with a column. -/
theorem hintStep_formatColumn (h : Hints) (c : Word) (f : LogFormat) (column : Word × ColumnType) :
    hintStep h (c.text ++ equals :: (f.name ++ colon :: columnToken column)) =
      h.add c.text { format := f, columns := [spec column] } := by
  have htrim : trim (f.name ++ colon :: columnToken column) = f.name ++ colon :: columnToken column := by
    have := (trim_clean (format_name f).1 (fun c hc => ((format_name f).2 c hc).1) (columnType_name_clean column.2).1
      (fun c hc => ((columnType_name_clean column.2).2 c hc).1) (colon :: (column.1.text ++ [equals]))).2
    simpa [columnToken] using this
  simp only [hintStep, cutAt_append c.plain.2, c.trimmed, htrim, cutAt_append (colon_notMem_format f),
    (headOf_format f _).2, logFormat_name, if_neg c.filled, firstColumn_columnToken]
  exact push_last (spec column) true

/-- A column. -/
theorem hintStep_column (h : Hints) (c : Word × ColumnType) :
    hintStep h (columnToken c) = if h.collecting then h.push (spec c) else h.stop := by
  have hcolon : colon ∉ c.2.name := fun hc => ((columnType_name_clean c.2).2 colon hc).2.2.1 rfl
  simp only [hintStep, columnToken, cutAt_append c.1.plain.2, c.1.trimmed, trim_columnType, cutAt_eq_none hcolon,
    headOf_columnType, columnType_name, spec]
  simp [c.1.filled]

/-- A token that cannot be placed sets nothing. -/
theorem hintStep_unplaced {token : Str} (ht : Unplaced token) (h : Hints) : (hintStep h token).set = h.set := by
  rw [hintStep]
  split
  · split <;> rfl
  · rename_i name value hcut
    dsimp only
    have hentry : trim name ≠ [] → logFormat (headOf (trim value)) = none := fun hname => by
      by_contra hf
      exact ht.noEntry ⟨name, value, hcut, hname, hf⟩
    have hcolumn : trim name ≠ [] → columnType (trim value) = none := fun hname => by
      by_contra hc
      exact ht.noColumn ⟨name, value, hcut, hname, hc⟩
    by_cases hname : trim name = []
    · simp only [hname, ne_eq, not_true_eq_false, and_false, if_false, if_true]
      split
      · split <;> rfl
      · rfl
      · rfl
      · rfl
    · rw [hentry hname, hcolumn hname]
      cases cutAt colon (trim value) <;> rfl

/-! ### What an annotation reads as -/

/-- Columns behind a container's entry that is being collected are its columns. -/
theorem foldl_columns (set : List (Str × FormatHint)) (container : Str) (hint : FormatHint) (columns : List (Word × ColumnType)) :
    (columns.map columnToken).foldl hintStep { set := set ++ [(container, hint)], collecting := true } =
      { set := set ++ [(container, { hint with columns := hint.columns ++ columns.map spec })], collecting := true } := by
  induction columns generalizing hint with
  | nil => simp
  | cons c columns ih =>
    rw [List.map_cons, List.foldl_cons, hintStep_column, if_pos rfl, push_last, ih]
    simp

/-- Columns change at most the last entry. -/
theorem foldl_columns_set (h : Hints) (hs : h.set = set ++ [(container, hint)]) (columns : List (Word × ColumnType)) :
    ∃ hint', ((columns.map columnToken).foldl hintStep h).set = set ++ [(container, hint')] := by
  induction columns generalizing h hint with
  | nil => exact ⟨hint, hs⟩
  | cons c columns ih =>
    rw [List.map_cons, List.foldl_cons, hintStep_column]
    split
    · obtain ⟨hset, collecting⟩ := h
      subst hs
      rw [push_last]
      exact ih _ rfl
    · exact ih _ hs

/-- An entry's tokens set its container. -/
theorem foldl_entry (h : Hints) (e : Entry) : e.tokens.foldl hintStep h = h.add e.container.text e.hint := by
  rw [Entry.tokens, Entry.hint]
  split
  · rename_i hc
    simp [hc, hintStep_format]
  · rename_i c columns hc
    rw [List.foldl_cons, hintStep_formatColumn, Hints.add, foldl_columns, hc]
    simp [Hints.add]

/-- The pairs that entries set. -/
def pairs (entries : List Entry) : List (Str × FormatHint) := entries.map fun e => (e.container.text, e.hint)

theorem foldl_entries (h : Hints) (entries : List Entry) : ((tokens entries).foldl hintStep h).set = h.set ++ pairs entries := by
  induction entries generalizing h with
  | nil => simp [tokens, pairs]
  | cons e entries ih =>
    rw [tokens, List.flatMap_cons, List.foldl_append, foldl_entry]
    exact (ih _).trans (by simp [Hints.add, pairs])

theorem annotatedFormat_render {ts : List Str} (hts : ∀ t ∈ ts, comma ∉ t) (container : Str) :
    annotatedFormat (some (render ts)) container = (ts.foldl hintStep { set := [], collecting := false }).get container := by
  have hempty : (parseHints []).get container = none := rfl
  have hparse : parseHints (render ts) = ts.foldl hintStep { set := [], collecting := false } := by
    rcases eq_or_ne ts [] with rfl | hne
    · rfl
    · rw [parseHints, render, List.splitOn_intercalate comma hts hne]
  rw [annotatedFormat, ← hparse]
  split
  · rename_i hnil
    rw [hnil, hempty]
  · rfl

/-- An annotation gives each container its last entry. -/
theorem annotatedFormat_tokens (entries : List Entry) (container : Str) :
    annotatedFormat (some (render (tokens entries))) container = (lastEntry entries container).map Entry.hint := by
  have hts : ∀ t ∈ tokens entries, comma ∉ t := fun t ht => by
    obtain ⟨e, -, ht⟩ := List.mem_flatMap.mp ht
    exact comma_notMem_tokens ht
  rw [annotatedFormat_render hts, Hints.get, foldl_entries, List.nil_append, pairs, ← List.map_reverse, List.find?_map,
    lastEntry, Option.map_map]
  rfl

/-! ### Tokens that cannot be placed -/

variable {entries : List Entry} {before after : List Str} {token : Str}

/-- A place in an annotation is between entries or inside one. -/
theorem place_cases (h : tokens entries = before ++ after) :
    (∃ pre post, entries = pre ++ post ∧ before = tokens pre ∧ after = tokens post) ∨
      ∃ container, InsideEntry entries before after container := by
  rw [tokens, List.flatMap_def, List.flatten_eq_append_iff] at h
  rcases h with ⟨as, bs, hmap, rfl, rfl⟩ | ⟨as, bs, c, cs, ds, hmap, rfl, rfl⟩
  · obtain ⟨pre, post, rfl, rfl, rfl⟩ := List.map_eq_append_iff.mp hmap
    exact .inl ⟨pre, post, rfl, by simp [tokens, List.flatMap_def], by simp [tokens, List.flatMap_def]⟩
  · obtain ⟨pre, rest, rfl, rfl, hrest⟩ := List.map_eq_append_iff.mp hmap
    obtain ⟨e, post, rfl, he, rfl⟩ := List.map_eq_cons_iff.mp hrest
    rcases eq_or_ne bs [] with rfl | hbs
    · exact .inl ⟨pre, e :: post, rfl, by simp [tokens, List.flatMap_def], by simp [tokens, List.flatMap_def, he]⟩
    · exact .inr ⟨e.container.text, pre, e, post, bs, c :: cs, rfl, rfl, he, hbs, by simp,
        by simp [tokens, List.flatMap_def], by simp [tokens, List.flatMap_def]⟩

/-- The first tokens of an entry set its container, and the others are columns. -/
theorem tokens_split {e : Entry} {first second : List Str} (he : e.tokens = first ++ second) (hfirst : first ≠ []) (h : Hints) :
    ∃ hint columns, first.foldl hintStep h = h.add e.container.text hint ∧ second = List.map columnToken columns := by
  obtain ⟨t, first, rfl⟩ := List.exists_cons_of_ne_nil hfirst
  rw [Entry.tokens, List.cons_append] at he
  split at he
  · obtain ⟨rfl, hrest⟩ := List.cons.inj he
    obtain ⟨rfl, rfl⟩ := List.append_eq_nil_iff.mp hrest.symm
    exact ⟨_, [], hintStep_format .., rfl⟩
  · rename_i column _ _
    obtain ⟨rfl, hrest⟩ := List.cons.inj he
    obtain ⟨columns, rest, -, rfl, rfl⟩ := List.map_eq_append_iff.mp hrest
    refine ⟨{ format := e.format, columns := [spec column] ++ columns.map spec }, rest, ?_, rfl⟩
    rw [List.foldl_cons, hintStep_formatColumn, Hints.add, foldl_columns]
    rfl

/-- A token that cannot be placed changes nothing between two entries. -/
theorem unplaced_between (ht : Unplaced token) (pre post : List Entry) (h : Hints) :
    ((tokens pre ++ token :: tokens post).foldl hintStep h).set = ((tokens (pre ++ post)).foldl hintStep h).set := by
  rw [List.foldl_append, List.foldl_cons, foldl_entries, hintStep_unplaced ht, foldl_entries, foldl_entries, pairs, pairs,
    pairs, List.map_append, List.append_assoc]

/-- Inside an entry, it changes that entry at most. -/
theorem unplaced_inside (ht : Unplaced token) (pre post : List Entry) {e : Entry} {first second : List Str}
    (he : e.tokens = first ++ second) (hfirst : first ≠ []) (h : Hints) :
    ∃ hint, (((tokens pre ++ first) ++ token :: (second ++ tokens post)).foldl hintStep h).set =
      h.set ++ pairs pre ++ (e.container.text, hint) :: pairs post := by
  obtain ⟨hint, columns, hset, rfl⟩ := tokens_split he hfirst ((tokens pre).foldl hintStep h)
  obtain ⟨hint', hcolumns⟩ := foldl_columns_set (hintStep (((tokens pre ++ first)).foldl hintStep h) token) (by
    rw [hintStep_unplaced ht, List.foldl_append, hset]
    rfl) columns
  refine ⟨hint', ?_⟩
  rw [List.foldl_append, List.foldl_cons, List.foldl_append, foldl_entries, hcolumns, foldl_entries]
  simp

/-- **The annotation's grammar**: what is written from a list of entries reads as these, the last of a container's; and
a token that cannot be placed changes nothing for the containers in whose entries it is not. -/
theorem annotation_grammar (entries : List Entry) :
    (∀ container, annotatedFormat (some (render (tokens entries))) container =
      (lastEntry entries container).map Entry.hint) ∧
    ∀ before after token, tokens entries = before ++ after → Unplaced token →
      ∀ container, ¬InsideEntry entries before after container →
        annotatedFormat (some (render (before ++ token :: after))) container =
          annotatedFormat (some (render (tokens entries))) container := by
  refine ⟨annotatedFormat_tokens entries, fun before after token hplace ht container hinside => ?_⟩
  have hts : ∀ t ∈ tokens entries, comma ∉ t := fun t hmem => by
    obtain ⟨e, -, he⟩ := List.mem_flatMap.mp hmem
    exact comma_notMem_tokens he
  have hts' : ∀ t ∈ before ++ token :: after, comma ∉ t := fun t hmem => by
    rw [hplace] at hts
    simp only [List.mem_append, List.mem_cons] at hmem hts
    rcases hmem with hmem | rfl | hmem
    · exact hts t (.inl hmem)
    · exact ht.single
    · exact hts t (.inr hmem)
  rw [annotatedFormat_render hts', annotatedFormat_render hts, Hints.get, Hints.get]
  rcases place_cases hplace with ⟨pre, post, rfl, rfl, rfl⟩ | ⟨other, pre, e, post, first, second, hin⟩
  · rw [unplaced_between ht]
  · have hne : other ≠ container := fun h => hinside (h ▸ ⟨pre, e, post, first, second, hin⟩)
    obtain ⟨rfl, rfl, he, hfirst, -, rfl, rfl⟩ := hin
    obtain ⟨hint, hset⟩ := unplaced_inside ht pre post he hfirst { set := [], collecting := false }
    rw [hset, foldl_entries]
    simp [pairs, hne]

/-- `app=json:ts=epoch,lvl=log-level` -/
def appEntry : Entry where
  container := ⟨ascii "app", by decide, by decide, by decide⟩
  format := .json
  columns := [(⟨ascii "ts", by decide, by decide, by decide⟩, .epoch), (⟨ascii "lvl", by decide, by decide, by decide⟩, .logLevel)]

/-- `proxy=plain` -/
def proxyEntry : Entry := { container := ⟨ascii "proxy", by decide, by decide, by decide⟩, format := .plain, columns := [] }

/-- A format that is not known, inside the first of two entries, leaves the second. -/
theorem annotation_grammar_xml :
    annotatedFormat (some (ascii "app=json:ts=epoch,app=xml,lvl=log-level,proxy=plain")) (ascii "proxy") =
      annotatedFormat (some (ascii "app=json:ts=epoch,lvl=log-level,proxy=plain")) (ascii "proxy") := by
  have hxml : Unplaced (ascii "app=xml") := by
    refine ⟨by decide, ?_, ?_⟩
    · rintro ⟨name, value, hcut, -, hf⟩
      obtain ⟨rfl, rfl⟩ := Prod.mk.inj (Option.some_inj.mp hcut)
      exact hf (by decide)
    · rintro ⟨name, value, hcut, -, hc⟩
      obtain ⟨rfl, rfl⟩ := Prod.mk.inj (Option.some_inj.mp hcut)
      exact hc (by decide)
  have hproxy : ¬InsideEntry [appEntry, proxyEntry] [ascii "app=json:ts=epoch"] [ascii "lvl=log-level", ascii "proxy=plain"]
      (ascii "proxy") := by
    rintro ⟨pre, e, post, first, second, hentries, hname, he, hfirst, hsecond, -⟩
    have hmem : e ∈ [appEntry, proxyEntry] := by simp [hentries]
    simp only [List.mem_cons, List.not_mem_nil, or_false] at hmem
    rcases hmem with rfl | rfl
    · exact absurd hname (by decide)
    · have hlen := congrArg List.length he
      have := List.length_pos_iff.mpr hfirst
      have := List.length_pos_iff.mpr hsecond
      simp [proxyEntry, Entry.tokens] at hlen
      omega
  exact ( annotation_grammar [appEntry, proxyEntry]).2 [ascii "app=json:ts=epoch"] [ascii "lvl=log-level", ascii "proxy=plain"]
    (ascii "app=xml") (by decide) hxml (ascii "proxy") hproxy

end OpenshiftConsole.Logging.FormatAnnotation
