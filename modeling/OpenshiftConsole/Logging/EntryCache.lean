import OpenshiftConsole.Library.Lines
import OpenshiftConsole.Logging.FormatAnnotation
import OpenshiftConsole.Logging.Parse
import OpenshiftConsole.Logging.SequenceNumbers

/-!
# The cache of the rows

The viewer parses a line when its row is drawn, and keeps what it made of it in a side table of the buffer, under the
line's sequence number (`entryFor`). The table goes when the format, the columns or the buffer's generation have
changed, and an entry goes when there are more than `PARSE_CACHE_SIZE`; it does not go when its line does.

So what is shown of a line is what `parseLine` makes of it (`entry_current`) as long as no line gets a number that
another had in its generation, which is up to `prepend`; and as long as the text that two lists of columns are compared
by tells them apart, which it does where no key has a comma. The keys that an annotation gives have none
(`keys_annotatedFormat`).
-/

namespace OpenshiftConsole.Logging.EntryCache

open Numbered (moment logAt GivesOutNew inv_moment sameLines_of_givesOutNew)
open Parse (LogEntry TypeError parseLine)

def PARSE_CACHE_SIZE : ℕ := 2000

/-- The entries are in the order in which they were set. -/
structure ParseCache where
  format : LogFormat
  columnsKey : Str
  generation : ℕ
  entries : List (ℤ × LogEntry)

def columnText (column : ColumnSpec) : Str := column.key ++ equals :: column.type.name

/-- `columnsKey` -/
def columnsKey (columns : List ColumnSpec) : Str := [comma].intercalate (columns.map columnText)

/-- The cache that is there, if it is for this. -/
def cacheFor (cache : Option ParseCache) (buffer : LogBuffer) (format : LogFormat) (columnsKey : Str) : ParseCache :=
  let fresh : ParseCache := { format, columnsKey, generation := buffer.gen, entries := [] }
  match cache with
  | none => fresh
  | some cache =>
    if cache.format ≠ format ∨ cache.columnsKey ≠ columnsKey ∨ cache.generation ≠ buffer.gen then fresh else cache

/-- A number that has no entry gets one; the oldest goes when there are too many. -/
def ParseCache.set (cache : ParseCache) (seq : ℤ) (entry : LogEntry) : ParseCache :=
  let entries := cache.entries ++ [(seq, entry)]
  { cache with entries := if PARSE_CACHE_SIZE < entries.length then entries.tail else entries }

variable (parsesDate : Str → Bool)

/-- `entryFor`, and the cache that it leaves. -/
def entryFor (cache : Option ParseCache) (buffer : LogBuffer) (seq : ℤ) (format : LogFormat) (columns : List ColumnSpec)
    (columnsKey : Str) : ParseCache × Except TypeError (Option LogEntry) :=
  let cache := cacheFor cache buffer format columnsKey
  match cache.entries.lookup seq with
  | some entry => (cache, .ok (some entry))
  | none =>
    match buffer.lineAt seq with
    | none => (cache, .ok none)
    | some raw =>
      match parseLine parsesDate raw format columns with
      | .error e => (cache, .error e)
      | .ok entry => (cache.set seq entry, .ok (some entry))

/-! ### A buffer and its cache -/

structure State where
  buffer : LogBuffer
  cache : Option ParseCache

inductive Event where
  | call (c : Call)
  /-- A row is drawn. -/
  | draw (seq : ℤ) (format : LogFormat) (columns : List ColumnSpec)

/-- `usedColumns` -/
def usedColumns (format : LogFormat) (columns : List ColumnSpec) : List ColumnSpec :=
  if format = .plain then [] else columns

/-- `entryAt` -/
def entryAt (s : State) (seq : ℤ) (format : LogFormat) (columns : List ColumnSpec) :
    ParseCache × Except TypeError (Option LogEntry) :=
  let used := usedColumns format columns
  entryFor parsesDate s.cache s.buffer seq format used (columnsKey used)

def step (s : State) : Event → State
  | .call c => { s with buffer := s.buffer.call c }
  | .draw seq format columns => { s with cache := some (entryAt parsesDate s seq format columns).1 }

/-- After these events; the buffer was new. -/
def after (options : LogBufferOptions) (es : List Event) : State := es.foldl (step parsesDate) ⟨.new options, none⟩

def callOf : Event → Option Call
  | .call c => some c
  | .draw .. => none

def calls (es : List Event) : List Call := es.filterMap callOf

/-- No key has a comma. -/
def NoComma (columns : List ColumnSpec) : Prop := ∀ c ∈ columns, comma ∉ c.key

/-- Each row was drawn with columns whose keys have no comma. -/
def Drawn (es : List Event) : Prop := ∀ seq format columns, .draw seq format columns ∈ es → NoComma columns

/-! ### Columns -/

theorem columnType_name_injective : Function.Injective ColumnType.name := fun t t' h => by
  have hsome := columnType_name t
  rw [h, columnType_name] at hsome
  exact (Option.some_inj.mp hsome).symm

theorem notMem_name (t : ColumnType) : equals ∉ t.name ∧ comma ∉ t.name := by
  cases t <;> decide

theorem columnText_injective : Function.Injective columnText := by
  rintro ⟨key, t⟩ ⟨key', t'⟩ h
  rcases List.append_eq_append_iff.mp h with ⟨l, hkey, hname⟩ | ⟨l, hkey, hname⟩
  · cases l with
    | nil =>
      obtain ⟨-, hname⟩ := List.cons.inj hname
      simp_all [columnType_name_injective.eq_iff]
    | cons x l =>
      obtain ⟨-, hname⟩ := List.cons.inj hname
      exact absurd (hname ▸ List.mem_append_right l List.mem_cons_self) (notMem_name t).1
  · cases l with
    | nil =>
      obtain ⟨-, hname⟩ := List.cons.inj hname
      simp_all [columnType_name_injective.eq_iff]
    | cons x l =>
      obtain ⟨-, hname⟩ := List.cons.inj hname
      exact absurd (hname ▸ List.mem_append_right l List.mem_cons_self) (notMem_name t').1

/-- The parts of the text between its commas are the columns. -/
theorem splitOn_columnsKey {columns : List ColumnSpec} (h : NoComma columns) (hne : columns ≠ []) :
    (columnsKey columns).splitOn comma = columns.map columnText := by
  refine List.splitOn_intercalate comma (fun l hl => ?_) (by simpa using hne)
  obtain ⟨c, hc, rfl⟩ := List.mem_map.mp hl
  rw [columnText, List.mem_append, List.mem_cons, not_or, not_or]
  exact ⟨h c hc, by decide, (notMem_name c.type).2⟩

theorem columnsKey_ne_nil {columns : List ColumnSpec} (h : NoComma columns) (hne : columns ≠ []) :
    columnsKey columns ≠ [] := by
  intro hnil
  have hsplit := splitOn_columnsKey h hne
  rw [hnil, List.splitOn_nil] at hsplit
  obtain ⟨c, -, hc⟩ := List.mem_map.mp (hsplit ▸ List.mem_singleton_self [])
  exact absurd hc (by simp [columnText])

/-- The text tells columns apart. -/
theorem columnsKey_inj {columns columns' : List ColumnSpec} (h : NoComma columns) (h' : NoComma columns')
    (heq : columnsKey columns = columnsKey columns') : columns = columns' := by
  by_cases hne : columns = []
  · by_contra hdiff
    subst hne
    exact columnsKey_ne_nil h' (Ne.symm hdiff) heq.symm
  · have hne' : columns' ≠ [] := by
      rintro rfl
      exact columnsKey_ne_nil h hne heq
    have hmap : columns.map columnText = columns'.map columnText := by
      rw [← splitOn_columnsKey h hne, heq, splitOn_columnsKey h' hne']
    exact List.map_injective_iff.mpr columnText_injective hmap

/-! ### The columns of an annotation -/

section Annotations

open FormatAnnotation (FormatHint Hints hintStep firstColumn parseHints annotatedFormat)

theorem mem_of_mem_trim {c : UInt16} {s : Str} (h : c ∈ trim s) : c ∈ s := by
  have hrev := (List.dropWhile_suffix _).subset (List.mem_reverse.mp h)
  exact (List.dropWhile_suffix _).subset (List.mem_reverse.mp hrev)

theorem mem_of_cutAt {c d : UInt16} {s name value : Str} (h : cutAt c s = some (name, value)) :
    (d ∈ name → d ∈ s) ∧ (d ∈ value → d ∈ s) := by
  rw [cutAt] at h
  split at h
  · obtain ⟨rfl, rfl⟩ := Prod.mk.inj (Option.some_inj.mp h)
    exact ⟨fun hd => (List.takeWhile_prefix _).subset hd,
      fun hd => (List.dropWhile_suffix _).subset (List.mem_of_mem_tail hd)⟩
  · cases h

/-- No key that was read has a comma. -/
def Plain (h : Hints) : Prop := ∀ x ∈ h.set, NoComma x.2.columns

variable {h : Hints} {token : Str}

theorem Plain.add (hp : Plain h) (name : Str) (format : LogFormat) :
    Plain (h.add name { format, columns := [] }) := by
  intro x hx
  rcases List.mem_append.mp hx with hx | hx
  · exact hp x hx
  · obtain rfl := List.mem_singleton.mp hx
    exact fun c hc => absurd hc List.not_mem_nil

theorem Plain.push (hp : Plain h) {column : ColumnSpec} (hc : comma ∉ column.key) : Plain (h.push column) := by
  intro x hx
  obtain ⟨i, hi⟩ := List.mem_iff_getElem?.mp hx
  rw [Hints.push, List.getElem?_modify] at hi
  obtain ⟨y, hy, rfl⟩ := Option.map_eq_some_iff.mp hi
  have hold := hp y (List.mem_of_getElem? hy)
  split
  · intro c hmem
    rcases List.mem_append.mp hmem with hmem | hmem
    · exact hold c hmem
    · obtain rfl := List.mem_singleton.mp hmem
      exact hc
  · exact hold

theorem key_firstColumn {first : Str} {column : ColumnSpec} (hcomma : comma ∉ first)
    (h : firstColumn first = some column) : comma ∉ column.key := by
  rw [firstColumn] at h
  split at h
  · rename_i key type hcut
    split at h
    · cases h
    · obtain ⟨t, -, rfl⟩ := Option.map_eq_some_iff.mp h
      exact fun hmem => hcomma ((mem_of_cutAt hcut).1 (mem_of_mem_trim hmem))
  · cases h

theorem plain_hintStep (hp : Plain h) (hcomma : comma ∉ token) : Plain (hintStep h token) := by
  rw [hintStep]
  split
  · split
    · exact hp
    · exact hp
  · rename_i name value hcut
    have hname : comma ∉ trim name := fun hmem => hcomma ((mem_of_cutAt hcut).1 (mem_of_mem_trim hmem))
    have hvalue : comma ∉ trim value := fun hmem => hcomma ((mem_of_cutAt hcut).2 (mem_of_mem_trim hmem))
    dsimp only
    split
    · split
      · split
        · exact hp.push hname
        · exact hp
      · exact hp
    · exact hp
    · split
      · exact hp
      · exact hp.add _ _
    · rename_i first format hfirst _
      split
      · exact hp
      · split
        · rename_i column hcolumn
          exact (hp.add _ _).push (key_firstColumn (fun hmem => hvalue ((mem_of_cutAt hfirst).2 hmem)) hcolumn)
        · exact hp.add _ _

theorem Plain.foldl {tokens : List Str} (hp : Plain h) (htokens : ∀ t ∈ tokens, comma ∉ t) :
    Plain (tokens.foldl hintStep h) := by
  induction tokens generalizing h with
  | nil => exact hp
  | cons t tokens ih =>
    exact ih (plain_hintStep hp (htokens t List.mem_cons_self)) fun t' ht => htokens t' (List.mem_cons_of_mem t ht)

/-- The parts between an annotation's commas have none, nor do the keys that are read from them. -/
theorem keys_annotatedFormat {text : Option Str} {container : Str} {hint : FormatHint}
    (hsome : annotatedFormat text container = some hint) : NoComma hint.columns := by
  cases text with
  | none => cases hsome
  | some text =>
    simp only [annotatedFormat] at hsome
    split at hsome
    · cases hsome
    · obtain ⟨x, hfind, rfl⟩ := Option.map_eq_some_iff.mp hsome
      have hempty : Plain { set := [], collecting := false } := fun x hx => absurd hx List.not_mem_nil
      have hplain : Plain (parseHints text) := hempty.foldl fun t ht => Library.Lines.notMem_of_mem_splitOn ht
      exact hplain x (List.mem_reverse.mp (List.mem_of_find?_eq_some hfind))

end Annotations

/-! ### The entries -/

variable {parsesDate : Str → Bool} {options : LogBufferOptions} {es : List Event} {cache : ParseCache}

/-- An entry is what was made of the line that had its number at some moment of the cache's generation. -/
def Made (parsesDate : Str → Bool) (options : LogBufferOptions) (cs : List Call) (cache : ParseCache)
    (x : ℤ × LogEntry) : Prop :=
  ∃ i columns raw, i ≤ cs.length ∧ (moment options cs i).buffer.gen = cache.generation ∧
    (moment options cs i).buffer.lineAt x.1 = some raw ∧ NoComma columns ∧ columnsKey columns = cache.columnsKey ∧
    parseLine parsesDate raw cache.format columns = .ok x.2

/-- The invariant: the buffer is what the calls make of it, and the cache holds what was made of its lines. -/
structure Inv (parsesDate : Str → Bool) (options : LogBufferOptions) (cs : List Call) (s : State) : Prop where
  buffer : s.buffer = (moment options cs cs.length).buffer
  size : ∀ cache, s.cache = some cache → cache.entries.length ≤ PARSE_CACHE_SIZE
  made : ∀ cache, s.cache = some cache → ∀ x ∈ cache.entries, Made parsesDate options cs cache x

theorem buffer_call (n : Numbered) (c : Call) : (n.call c).buffer = n.buffer.call c := by
  cases c <;> rfl

theorem moment_concat {cs : List Call} {c : Call} {i : ℕ} (h : i ≤ cs.length) :
    moment options (cs ++ [c]) i = moment options cs i := by
  rw [moment, moment, List.take_append_of_le_length h]

theorem moment_length_concat {cs : List Call} {c : Call} :
    moment options (cs ++ [c]) (cs ++ [c]).length = (moment options cs cs.length).call c := by
  rw [moment, moment, List.take_length, List.take_length, List.foldl_concat]

/-- What was made stays made. -/
theorem Made.concat {cs : List Call} {x : ℤ × LogEntry} (h : Made parsesDate options cs cache x) (c : Call) :
    Made parsesDate options (cs ++ [c]) cache x := by
  obtain ⟨i, columns, raw, hi, hgen, hline, hmade⟩ := h
  refine ⟨i, columns, raw, ?_, ?_, ?_, hmade⟩
  · rw [List.length_append]
    omega
  · rw [moment_concat hi, hgen]
  · rw [moment_concat hi, hline]

theorem cacheFor_cases (cache : Option ParseCache) (buffer : LogBuffer) (format : LogFormat) (key : Str) :
    let found := cacheFor cache buffer format key
    (found.format = format ∧ found.columnsKey = key ∧ found.generation = buffer.gen) ∧
      (found.entries = [] ∨ cache = some found) := by
  cases cache with
  | none => exact ⟨⟨rfl, rfl, rfl⟩, .inl rfl⟩
  | some cache =>
    dsimp only [cacheFor]
    split
    · exact ⟨⟨rfl, rfl, rfl⟩, .inl rfl⟩
    · rename_i h
      simp only [not_or, not_not] at h
      exact ⟨h, .inr rfl⟩

theorem mem_set {seq : ℤ} {entry : LogEntry} {x : ℤ × LogEntry} (h : x ∈ (cache.set seq entry).entries) :
    x ∈ cache.entries ∨ x = (seq, entry) := by
  rw [← List.mem_singleton, ← List.mem_append]
  dsimp only [ParseCache.set] at h
  split at h
  · exact List.mem_of_mem_tail h
  · exact h

theorem length_set {seq : ℤ} {entry : LogEntry} (h : cache.entries.length ≤ PARSE_CACHE_SIZE) :
    (cache.set seq entry).entries.length ≤ PARSE_CACHE_SIZE := by
  dsimp only [ParseCache.set]
  split
  · rw [List.length_tail, List.length_append]
    exact h
  · omega

theorem mem_of_lookup {seq : ℤ} {entry : LogEntry} {entries : List (ℤ × LogEntry)}
    (h : entries.lookup seq = some entry) : (seq, entry) ∈ entries := by
  obtain ⟨l, r, rfl, -⟩ := List.lookup_eq_some_iff.mp h
  exact List.mem_append_right l List.mem_cons_self

/-- What `entryFor` leaves and answers: an entry that it found, or what `lineAt` and `parseLine` say. -/
theorem entryFor_cases (parsesDate : Str → Bool) (old : Option ParseCache) (buffer : LogBuffer) (seq : ℤ)
    (format : LogFormat) (columns : List ColumnSpec) (key : Str) :
    let found := cacheFor old buffer format key
    let made := entryFor parsesDate old buffer seq format columns key
    (∃ entry, (seq, entry) ∈ found.entries ∧ made = (found, .ok (some entry))) ∨
      (buffer.lineAt seq = none ∧ made = (found, .ok none)) ∨
      (∃ raw e, buffer.lineAt seq = some raw ∧ parseLine parsesDate raw format columns = .error e ∧
        made = (found, .error e)) ∨
      ∃ raw entry, buffer.lineAt seq = some raw ∧ parseLine parsesDate raw format columns = .ok entry ∧
        made = (found.set seq entry, .ok (some entry)) := by
  dsimp only [entryFor]
  cases hcached : (cacheFor old buffer format key).entries.lookup seq with
  | some entry => exact .inl ⟨entry, mem_of_lookup hcached, rfl⟩
  | none =>
    cases hline : buffer.lineAt seq with
    | none => exact .inr (.inl ⟨rfl, rfl⟩)
    | some raw =>
      cases hparse : parseLine parsesDate raw format columns with
      | error e => exact .inr (.inr (.inl ⟨raw, e, rfl, hparse, by simp only [hparse]⟩))
      | ok entry => exact .inr (.inr (.inr ⟨raw, entry, rfl, hparse, by simp only [hparse]⟩))

/-! ### Runs -/

theorem noComma_used {format : LogFormat} {columns : List ColumnSpec} (h : NoComma columns) :
    NoComma (usedColumns format columns) := by
  rw [usedColumns]
  split
  · exact fun c hc => absurd hc List.not_mem_nil
  · exact h

theorem inv_new : Inv parsesDate options [] ⟨.new options, none⟩ where
  buffer := rfl
  size cache h := by cases h
  made cache h := by cases h

theorem Inv.call {cs : List Call} {s : State} (h : Inv parsesDate options cs s) (c : Call) :
    Inv parsesDate options (cs ++ [c]) (step parsesDate s (.call c)) where
  buffer := by
    rw [moment_length_concat, buffer_call, ← h.buffer]
    rfl
  size := h.size
  made cache hcache x hx := (h.made cache hcache x hx).concat c

theorem Inv.draw {cs : List Call} {s : State} (h : Inv parsesDate options cs s) {seq : ℤ} {format : LogFormat}
    {columns : List ColumnSpec} (hcomma : NoComma columns) :
    Inv parsesDate options cs (step parsesDate s (.draw seq format columns)) := by
  let used := usedColumns format columns
  let found := cacheFor s.cache s.buffer format (columnsKey used)
  obtain ⟨⟨hformat, hkey, hgen⟩, hfound⟩ := cacheFor_cases s.cache s.buffer format (columnsKey used)
  have hsize : found.entries.length ≤ PARSE_CACHE_SIZE := by
    rcases hfound with hnil | hold
    · rw [show found.entries = [] from hnil]
      exact Nat.zero_le _
    · exact h.size found hold
  have hmade : ∀ x ∈ found.entries, Made parsesDate options cs found x := by
    rcases hfound with hnil | hold
    · rw [show found.entries = [] from hnil]
      exact fun x hx => absurd hx List.not_mem_nil
    · exact h.made found hold
  have hkeep : Inv parsesDate options cs { s with cache := some found } :=
    ⟨h.buffer, fun cache hcache => Option.some_inj.mp hcache ▸ hsize,
      fun cache hcache => Option.some_inj.mp hcache ▸ hmade⟩
  rw [step, entryAt]
  rcases entryFor_cases parsesDate s.cache s.buffer seq format used (columnsKey used) with
    ⟨entry, -, heq⟩ | ⟨-, heq⟩ | ⟨raw, e, -, -, heq⟩ | ⟨raw, entry, hline, hparse, heq⟩
  · rw [heq]
    exact hkeep
  · rw [heq]
    exact hkeep
  · rw [heq]
    exact hkeep
  · rw [heq]
    refine ⟨h.buffer, fun cache hcache => ?_, fun cache hcache x hx => ?_⟩
    · obtain rfl := Option.some_inj.mp hcache
      exact length_set hsize
    · obtain rfl := Option.some_inj.mp hcache
      rcases mem_set hx with hx | rfl
      · exact hmade x hx
      · refine ⟨cs.length, used, raw, Nat.le_refl _, ?_, h.buffer ▸ hline, noComma_used hcomma, hkey.symm, ?_⟩
        · rw [← h.buffer]
          exact hgen.symm
        · dsimp only [ParseCache.set]
          rw [hformat]
          exact hparse

theorem inv_after (parsesDate : Str → Bool) (options : LogBufferOptions) (hdrawn : Drawn es) :
    Inv parsesDate options (calls es) (after parsesDate options es) := by
  induction es using List.reverseRecOn with
  | nil => exact inv_new
  | append_singleton es e ih =>
    have ih := ih fun seq format columns h => hdrawn seq format columns (List.mem_append_left _ h)
    rw [after, List.foldl_concat, calls, List.filterMap_append]
    cases e with
    | call c => exact ih.call c
    | draw seq format columns =>
      rw [show [Event.draw seq format columns].filterMap callOf = [] from rfl, List.append_nil]
      exact ih.draw (hdrawn seq format columns (List.mem_append_right _ (List.mem_singleton_self _)))

/-- There are never more entries than that. -/
theorem entries_bounded (hdrawn : Drawn es) (h : (after parsesDate options es).cache = some cache) :
    cache.entries.length ≤ PARSE_CACHE_SIZE :=
  (inv_after parsesDate options hdrawn).size cache h

/-- **What is shown of a line is what `parseLine` makes of it**, whatever was drawn before, if no `prepend` has given
out a number that a line of the generation had. -/
theorem entry_current (parsesDate : Str → Bool) (hdrawn : Drawn es) (hnew : GivesOutNew options (calls es)) {seq : ℤ}
    {raw : Str} (hline : (after parsesDate options es).buffer.lineAt seq = some raw) (format : LogFormat)
    {columns : List ColumnSpec} (hcomma : NoComma columns) :
    (entryAt parsesDate (after parsesDate options es) seq format columns).2 =
      (parseLine parsesDate raw format (usedColumns format columns)).map some := by
  have hinv := inv_after parsesDate options hdrawn
  let s := after parsesDate options es
  let used := usedColumns format columns
  obtain ⟨⟨hformat, hkey, hgen⟩, hfound⟩ := cacheFor_cases s.cache s.buffer format (columnsKey used)
  rw [entryAt]
  rcases entryFor_cases parsesDate s.cache s.buffer seq format used (columnsKey used) with
    ⟨entry, hmem, heq⟩ | ⟨hnone, -⟩ | ⟨raw', e, hraw, hparse, heq⟩ | ⟨raw', entry, hraw, hparse, heq⟩
  · rw [heq]
    -- the entry was made of the line that had the number then, which is this one
    have hold : s.cache = some (cacheFor s.cache s.buffer format (columnsKey used)) :=
      hfound.resolve_left fun hnil => by simp [hnil] at hmem
    obtain ⟨i, columns', raw', hi, hgen', hline', hcomma', hkey', hparse⟩ := hinv.made _ hold _ hmem
    obtain rfl : columns' = used := columnsKey_inj hcomma' (noComma_used hcomma) (hkey'.trans hkey)
    have hrow := (inv_moment options (calls es) i).tagged.row_of_lineAt hline'
    have hrow' := (inv_moment options (calls es) (calls es).length).tagged.row_of_lineAt (hinv.buffer ▸ hline)
    obtain ⟨tag, hrow⟩ := hrow
    obtain ⟨tag', hrow'⟩ := hrow'
    have hlog : (logAt options (calls es) i).generation = (logAt options (calls es) (calls es).length).generation := by
      rw [← (inv_moment options (calls es) i).tagged.refines.1.generation,
        ← (inv_moment options (calls es) (calls es).length).tagged.refines.1.generation]
      exact hgen'.trans (hgen.trans (congrArg LogBuffer.gen hinv.buffer))
    obtain ⟨hsame, -⟩ := (sameLines_of_givesOutNew hnew hi).2 hlog
    obtain ⟨-, rfl⟩ := Prod.mk.inj (hsame seq _ _ hrow hrow')
    rw [hformat] at hparse
    exact (congrArg (Except.map some) hparse).symm
  · exact absurd (hnone.symm.trans hline) (by simp)
  · obtain rfl := Option.some_inj.mp (hraw.symm.trans hline)
    rw [heq]
    exact (congrArg (Except.map some) hparse).symm
  · obtain rfl := Option.some_inj.mp (hraw.symm.trans hline)
    rw [heq]
    exact (congrArg (Except.map some) hparse).symm

/-- A line that is drawn, and then an older one. -/
def drawnThenOlder : List Event := [.call (.append [97, nl]), .draw 0 .plain [], .call (.prepend [122, nl])]

theorem givesOutNew_drawnThenOlder : GivesOutNew {} (calls drawnThenOlder) := by
  rintro i j chunk hc hij - seq hlo hhi
  have hj : j = 1 := by
    match j, hc with
    | 1, _ => rfl
  subst hj
  cases hc
  have hfirst : (moment {} (calls drawnThenOlder) 1).buffer.firstSeq = 0 := by decide
  have hone : (LineLog.wholeLines [122, nl]).length = 1 := by decide
  rw [hfirst, hone] at hlo
  rw [hfirst] at hhi
  obtain rfl : seq = -1 := by omega
  obtain rfl | rfl : i = 0 ∨ i = 1 := by omega
  · decide
  · decide

theorem drawn_drawnThenOlder : Drawn drawnThenOlder := by
  intro seq format columns h
  simp only [drawnThenOlder, List.mem_cons, List.not_mem_nil, reduceCtorEq, Event.draw.injEq, false_or, or_false] at h
  obtain ⟨-, -, rfl⟩ := h
  exact fun c hc => absurd hc List.not_mem_nil

theorem entry_current_older :
    (entryAt (fun _ => true) (after (fun _ => true) {} drawnThenOlder) 0 .plain []).2 =
      (parseLine (fun _ => true) [97] .plain []).map some :=
  entry_current _ drawn_drawnThenOlder givesOutNew_drawnThenOlder rfl .plain fun _ hc => absurd hc List.not_mem_nil

/-- A buffer for one line: the line that was drawn is evicted, and an older one gets its number. -/
def drawnThenEvicted : List Event :=
  [.call (.append [97, nl]), .draw 0 .plain [], .call (.append [98, nl]), .call (.prepend [122, nl])]

/-- An entry does not stay valid then: what is shown of the older line is the one that was evicted. -/
theorem entry_stale : ∃ s, after (fun _ => true) { maxLines := some 1 } drawnThenEvicted = s ∧
    s.buffer.lineAt 0 = some [122] ∧
      (entryAt (fun _ => true) s 0 .plain []).2 = (parseLine (fun _ => true) [97] .plain []).map some := by
  refine ⟨_, rfl, ?_, ?_⟩
  · decide +kernel
  · rfl

end OpenshiftConsole.Logging.EntryCache
