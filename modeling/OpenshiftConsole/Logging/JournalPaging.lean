import Mathlib.Data.List.Nodup
import OpenshiftConsole.Library.Runs
import OpenshiftConsole.Logging.Journal
import OpenshiftConsole.Logging.LogBufferRefinement

/-!
# Paging back through a node's journal

The node's tab reads the newest entries of the journal that a unit filter selects, and each
`loadEarlier` a page that starts at the cursor of the oldest entry held and goes backwards:
the backend builds the command line (`journalArgs`), the tab drops the entry of the cursor
and puts the others in order (`earlierJournalLines`). The buffer holds a run of the selected
entries that ends at the newest of the first load, and a page adds nothing only if the run
starts at the first of them (`paging_contiguous`).

journalctl and `JSON.parse` are parameters. Of the first is assumed what it prints for the
two command lines that there are (`Prints`); the second reads the cursor in the line of each
entry. Entries are written at any time, and pages may be loaded while the first response is
still arriving. A page is fetched and put in front in one step: there is one at a time, and
nothing else touches that end of the buffer.
-/

namespace OpenshiftConsole.Logging.JournalPaging

open OpenshiftConsole.Library.Runs OpenshiftConsole.Logging.Journal

variable (parse : Str → Option Json)

/-- An entry of the journal: one line of JSON that carries its cursor. -/
structure Entry where
  line : Str
  cursor : Str
  reads : cursorOf parse line = some cursor
  accepted : cursorRE cursor
  unbroken : nl ∉ line
  filled : line ≠ []
  closed : line.getLast? ≠ some cr

/-- A node's journal: all entries that are ever written, oldest first. -/
structure NodeJournal where
  entries : List (Entry parse)
  distinct : (entries.map Entry.cursor).Nodup

variable {parse}

/-- What journalctl prints for entries: a line each. -/
def printed (entries : List (Entry parse)) : Str := (entries.map Entry.line).flatMap (· ++ [nl])

variable (journalctl : List Str → List (Entry parse) → Str) (selects : List Str → Entry parse → Bool)

/-- What journalctl prints of a journal, at any time, for the entries of some units: the newest ones, and those from
a cursor backwards, which includes the entry of the cursor. -/
structure Prints (journal : NodeJournal parse) (units : List Str) : Prop where
  newest : ∀ written, written <+: journal.entries →
    journalctl ([ascii "--no-pager", ascii "--utc", ascii "-W", ascii "-o", ascii "json", ascii "-n", ascii "10000"] ++
        units.flatMap fun unit => [ascii "-u", unit]) written =
      printed ((written.filter (selects units)).drop ((written.filter (selects units)).length - pageLines))
  backwards : ∀ before entry after, before ++ entry :: after <+: journal.entries →
    journalctl ([ascii "--no-pager", ascii "--utc", ascii "-W", ascii "-o", ascii "json", ascii "-r",
        ascii "--cursor=" ++ entry.cursor, ascii "-n", ascii "10000"] ++ units.flatMap fun unit => [ascii "-u", unit])
        (before ++ entry :: after) =
      printed (((before ++ [entry]).filter (selects units)).reverse.take pageLines)

/-! ### The tab -/

/-- The tab: the buffer, what is still to come of the first response, the number of entries written so far, and
`canLoad`. -/
structure State where
  buffer : LogBuffer
  arriving : Str
  written : ℕ
  canLoad : Bool

inductive Event where
  /-- Entries are written to the journal. -/
  | written (count : ℕ)
  /-- A chunk of the first response arrives. -/
  | arrived (count : ℕ)
  /-- The first response ends. -/
  | ended
  /-- `loadEarlier`, when the reader has scrolled to the top. -/
  | loadEarlier
  /-- `loadEarlier`, when its request fails. -/
  | loadFails

variable (journal : NodeJournal parse) (unitFilter : Str)

/-- The response to a request of the tab, if the request is accepted. -/
def respond (written : ℕ) (beforeCursor : Option Str) : Option Str :=
  journalHandler (fun args => journalctl args (journal.entries.take written))
    (nodeJournalQuery (parseUnits unitFilter) (some pageLines) beforeCursor)

/-- The tab when it sends its first request. -/
def opened (written : ℕ) : State :=
  { buffer := .new { maxLines := some 500000 }
    arriving := (respond journalctl journal unitFilter written none).getD []
    written, canLoad := true }

/-- `fetchEarlier` of the node's tab, if it does not fail. -/
def fetchEarlier (s : State) : Option (List Str) :=
  match (s.buffer.lineAt s.buffer.firstSeq).bind (cursorOf parse) with
  | none => some []
  | some anchor =>
    (respond journalctl journal unitFilter s.written (some anchor)).map fun body =>
      earlierJournalLines (cursorOf parse) (splitLines body) (some anchor)

/-- `loadEarlier`. -/
def loadEarlier (s : State) : State :=
  match fetchEarlier journalctl journal unitFilter s with
  | none => { s with canLoad := false }
  | some lines =>
    if lines = [] then { s with canLoad := false }
    else
      let (buffer, added) := s.buffer.prepend (pageChunk lines)
      { s with buffer, canLoad := s.canLoad && added ≠ 0 }

/-- One event. -/
def step (s : State) : Event → Option State
  | .written count => some { s with written := s.written + count }
  | .arrived count =>
    some { s with buffer := s.buffer.append (s.arriving.take count), arriving := s.arriving.drop count }
  | .ended => if s.arriving = [] then some { s with buffer := s.buffer.flushPartial } else none
  | .loadEarlier =>
    if s.canLoad && s.buffer.length > 0 then some (loadEarlier journalctl journal unitFilter s) else none
  | .loadFails => if s.canLoad && s.buffer.length > 0 then some { s with canLoad := false } else none

/-! ### What it shows -/

/-- The entries that the filter selects. -/
def selected : List (Entry parse) := journal.entries.filter (selects (parseUnits unitFilter))

/-- Those from one index on, up to another. -/
def window (first last : ℕ) : List (Entry parse) := ((selected selects journal unitFilter).take last).drop first

/-- The number of those among the first ones of the journal. -/
def countSelected (written : ℕ) : ℕ := ((journal.entries.take written).filter (selects (parseUnits unitFilter))).length

/-- The buffer holds a run of the selected entries, each once; when the first response has arrived, the run ends
at the newest entry of that load, and has all of it unless it was refused. -/
def Contiguous (written : ℕ) (s : State) : Prop :=
  ∃ first last, first ≤ last ∧ last ≤ countSelected selects journal unitFilter written ∧
    s.buffer.retained = (window selects journal unitFilter first last).map Entry.line ∧ s.buffer.retained.Nodup ∧
    (s.arriving = [] → last = countSelected selects journal unitFilter written ∧
      ((parseUnits unitFilter).length ≤ maxUnits → first ≤ countSelected selects journal unitFilter written - pageLines))

/-- The buffer starts at the first of the selected entries. -/
def AtStart (s : State) : Prop := ∃ last, s.buffer.retained = (window selects journal unitFilter 0 last).map Entry.line

/-! ### Entries -/

variable {journalctl selects journal unitFilter} {written d : ℕ}

theorem dropCR_line (e : Entry parse) : dropCR e.line = e.line := if_neg e.closed

theorem map_dropCR (es : List (Entry parse)) : (es.map Entry.line).map dropCR = es.map Entry.line := by
  rw [List.map_map]
  exact List.map_congr_left fun e _ => dropCR_line e

theorem nl_notMem_lines (es : List (Entry parse)) : ∀ l ∈ es.map Entry.line, nl ∉ l := by
  intro l hl
  obtain ⟨e, -, rfl⟩ := List.mem_map.mp hl
  exact e.unbroken

variable (selects journal unitFilter) in
theorem nodup_cursors : ((selected selects journal unitFilter).map Entry.cursor).Nodup :=
  journal.distinct.sublist (List.filter_sublist.map Entry.cursor)

theorem nodup_lines : ((selected selects journal unitFilter).map Entry.line).Nodup := by
  have hcursors := nodup_cursors selects journal unitFilter
  refine List.Nodup.of_map (cursorOf parse) ?_
  have hread : ((selected selects journal unitFilter).map Entry.line).map (cursorOf parse) =
      ((selected selects journal unitFilter).map Entry.cursor).map some := by
    rw [List.map_map, List.map_map]
    exact List.map_congr_left fun e _ => e.reads
  rw [hread]
  exact hcursors.map (Option.some_injective _)

theorem filter_take (written : ℕ) : (journal.entries.take written).filter (selects (parseUnits unitFilter)) =
    (selected selects journal unitFilter).take (countSelected selects journal unitFilter written) :=
  List.prefix_iff_eq_take.mp ((List.take_prefix written journal.entries).filter _)

theorem countSelected_mono {w w' : ℕ} (h : w ≤ w') :
    countSelected selects journal unitFilter w ≤ countSelected selects journal unitFilter w' :=
  ((List.take_prefix_take_left h).filter _).length_le

/-- Where an entry is that is selected and has been written: what is selected before it. -/
theorem entries_eq (h : d < countSelected selects journal unitFilter written) {e : Entry parse}
    (he : (selected selects journal unitFilter)[d]? = some e) :
    ∃ before after, journal.entries.take written = before ++ e :: after ∧
      (before ++ [e]).filter (selects (parseUnits unitFilter)) = (selected selects journal unitFilter).take d ++ [e] := by
  obtain ⟨hd, he⟩ := List.getElem?_eq_some_iff.mp he
  have hsplit : (journal.entries.take written).filter (selects (parseUnits unitFilter)) =
      (selected selects journal unitFilter).take d ++
        e :: ((selected selects journal unitFilter).take (countSelected selects journal unitFilter written)).drop (d + 1) := by
    have htake := List.take_append_drop d
      ((selected selects journal unitFilter).take (countSelected selects journal unitFilter written))
    rw [List.take_take, Nat.min_eq_left (Nat.le_of_lt h), List.drop_eq_getElem_cons (by simp; omega), List.getElem_take,
      he] at htake
    rw [filter_take, htake]
  obtain ⟨left, right, hentries, hleft, hright⟩ := List.filter_eq_append_iff.mp hsplit
  obtain ⟨gap, after, rfl, hgap, hselected, -⟩ := List.filter_eq_cons_iff.mp hright
  refine ⟨left ++ gap, after, by rw [hentries, List.append_assoc], ?_⟩
  rw [List.filter_append, List.filter_append, hleft, List.filter_eq_nil_iff.mpr hgap, List.append_nil]
  exact congrArg _ (List.filter_cons_of_pos hselected)

/-! ### Windows -/

variable {first mid last : ℕ}

theorem window_append (h : first ≤ mid) (h' : mid ≤ last) :
    window selects journal unitFilter first mid ++ window selects journal unitFilter mid last =
      window selects journal unitFilter first last := by
  obtain ⟨n, rfl⟩ := Nat.exists_eq_add_of_le h
  have hmid : (selected selects journal unitFilter).take (first + n) =
      ((selected selects journal unitFilter).take last).take (first + n) := by
    rw [List.take_take, Nat.min_eq_left h']
  rw [window, window, window, hmid, List.drop_take, Nat.add_sub_cancel_left, ← List.drop_drop, List.take_append_drop]

theorem length_window (h : last ≤ countSelected selects journal unitFilter written) :
    (window selects journal unitFilter first last).length = last - first := by
  have hcount : countSelected selects journal unitFilter written ≤ (selected selects journal unitFilter).length :=
    ((List.take_prefix written journal.entries).filter _).length_le
  rw [window, List.length_drop, List.length_take, Nat.min_eq_left (Nat.le_trans h hcount)]

theorem drop_window (n : ℕ) :
    (window selects journal unitFilter first last).drop n = window selects journal unitFilter (first + n) last :=
  List.drop_drop

theorem take_window {n : ℕ} (h : first + n ≤ last) :
    (window selects journal unitFilter first last).take n = window selects journal unitFilter first (first + n) := by
  rw [window, window, List.drop_take, List.drop_take, List.take_take, Nat.add_sub_cancel_left, Nat.min_eq_left (by omega)]

theorem window_self (n : ℕ) : window selects journal unitFilter n n = [] :=
  List.drop_eq_nil_of_le (List.length_take_le ..)

theorem head?_window (h : first < last) :
    (window selects journal unitFilter first last).head? = (selected selects journal unitFilter)[first]? := by
  rw [window, List.head?_drop, List.getElem?_take_of_lt h]

/-! ### Responses -/

theorem decimal_pageLines : decimal pageLines = ascii "10000" := by decide

/-- A filter with too many units is refused. -/
theorem respond_refused (hu : maxUnits < (parseUnits unitFilter).length) (written : ℕ) :
    respond journalctl journal unitFilter written none = none := by
  rw [respond, journalHandler, parse_allowed (fun u => of_mem_parseUnits) (allowed_page (by simp)), if_pos hu]

/-- The first response: the newest of the selected entries. -/
theorem respond_newest (hp : Prints journalctl selects journal (parseUnits unitFilter))
    (hu : (parseUnits unitFilter).length ≤ maxUnits) (written : ℕ) :
    respond journalctl journal unitFilter written none =
      some (printed (window selects journal unitFilter (countSelected selects journal unitFilter written - pageLines)
        (countSelected selects journal unitFilter written))) := by
  have hargs : journalArgs ⟨parseUnits unitFilter, pageLines, true, []⟩ =
      [ascii "--no-pager", ascii "--utc", ascii "-W", ascii "-o", ascii "json", ascii "-n", ascii "10000"] ++
        (parseUnits unitFilter).flatMap fun unit => [ascii "-u", unit] := by
    rw [journalArgs, if_neg (fun h => h rfl), if_pos rfl, if_pos (show pageLines > 0 by decide), decimal_pageLines]
    rfl
  rw [respond, journalHandler, parse_allowed (fun u => of_mem_parseUnits) (allowed_page (by simp)), if_neg (Nat.not_lt.mpr hu)]
  simp only [Option.getD_none, Option.getD_some]
  rw [hargs, hp.newest _ (List.take_prefix ..), filter_take, ← filter_take, ← countSelected, filter_take]
  rfl

/-- A page: the entry of the cursor, and those before it, backwards. -/
theorem respond_backwards (hp : Prints journalctl selects journal (parseUnits unitFilter))
    (hu : (parseUnits unitFilter).length ≤ maxUnits) (hd : d < countSelected selects journal unitFilter written)
    {e : Entry parse} (he : (selected selects journal unitFilter)[d]? = some e) :
    respond journalctl journal unitFilter written (some e.cursor) =
      some (printed ((e :: ((selected selects journal unitFilter).take d).reverse).take pageLines)) := by
  obtain ⟨before, after, hentries, hfilter⟩ := entries_eq hd he
  have hne : e.cursor ≠ [] := fun h => by simpa [h, cursorRE] using e.accepted
  have hargs : journalArgs ⟨parseUnits unitFilter, pageLines, true, e.cursor⟩ =
      [ascii "--no-pager", ascii "--utc", ascii "-W", ascii "-o", ascii "json", ascii "-r",
        ascii "--cursor=" ++ e.cursor, ascii "-n", ascii "10000"] ++
        (parseUnits unitFilter).flatMap fun unit => [ascii "-u", unit] := by
    rw [journalArgs, if_pos hne, if_pos (show pageLines > 0 by decide), decimal_pageLines]
    rfl
  rw [respond, journalHandler, parse_allowed (fun u => of_mem_parseUnits) (allowed_page (by simpa using e.accepted)),
    if_neg (Nat.not_lt.mpr hu)]
  simp only [Option.getD_some]
  rw [hargs, hentries, hp.backwards _ _ _ (hentries ▸ List.take_prefix ..), hfilter]
  simp

/-- What the tab makes of a page: the entries before that of the cursor, oldest first. -/
theorem earlierJournalLines_printed {e : Entry parse} (he : (selected selects journal unitFilter)[d]? = some e) (n : ℕ) :
    earlierJournalLines (cursorOf parse)
        (splitLines (printed ((e :: ((selected selects journal unitFilter).take d).reverse).take (n + 1)))) (some e.cursor) =
      (window selects journal unitFilter (d - n) d).map Entry.line := by
  obtain ⟨hd, he⟩ := List.getElem?_eq_some_iff.mp he
  have hother : ∀ x ∈ (selected selects journal unitFilter).take d, x.cursor ≠ e.cursor := by
    intro x hx heq
    have hnodup := nodup_cursors selects journal unitFilter
    rw [← List.take_append_drop d (selected selects journal unitFilter), List.drop_eq_getElem_cons hd, he, List.map_append,
      List.map_cons] at hnodup
    exact (List.nodup_append'.mp hnodup).2.2 (List.mem_map_of_mem hx) (heq ▸ List.mem_cons_self)
  have hkept : ∀ x ∈ (((selected selects journal unitFilter).take d).reverse).take n,
      ((fun line => decide (line ≠ [] ∧ cursorOf parse line ≠ some e.cursor)) ∘ Entry.line) x = true := by
    intro x hx
    have hx := List.mem_reverse.mp (List.mem_of_mem_take hx)
    simpa [x.reads, x.filled] using hother x hx
  rw [printed, splitLines_newlines (nl_notMem_lines _), earlierJournalLines, List.take_succ_cons, List.map_cons,
    List.filter_cons_of_neg (by simp [e.reads]), List.filter_map, List.filter_eq_self.mpr hkept, ← List.map_reverse,
    List.take_reverse, List.reverse_reverse, List.length_take, Nat.min_eq_left (Nat.le_of_lt hd)]
  rfl

/-! ### The invariant -/

variable (selects journal unitFilter written) in
/-- The lines of the buffer are a window on the selected entries; what is still to come of the first response is
the rest of them, up to those that had been written. A request that is refused finds the window at its end. -/
structure Inv (k : ℕ) (s : State) (m : LineLog) (first last : ℕ) : Prop where
  refines : LogBuffer.Refines k s.buffer m
  room : pageLines ≤ k
  order : first ≤ last
  bound : last ≤ countSelected selects journal unitFilter written
  lines : m.lines = (window selects journal unitFilter first last).map Entry.line
  coming : m.pending ++ s.arriving =
    printed (window selects journal unitFilter last (countSelected selects journal unitFilter written))
  loaded : (parseUnits unitFilter).length ≤ maxUnits → first ≤ countSelected selects journal unitFilter written - pageLines
  accepted : first < countSelected selects journal unitFilter written → (parseUnits unitFilter).length ≤ maxUnits
  later : written ≤ s.written

variable {k : ℕ} {s : State} {m : LineLog}

/-- When nothing is still to come, the window ends at the newest entry of the first load. -/
theorem Inv.last_eq (h : Inv selects journal unitFilter written k s m first last) (ha : s.arriving = []) :
    last = countSelected selects journal unitFilter written := by
  refine Nat.le_antisymm h.bound (Nat.le_of_not_lt fun hlt => ?_)
  have hcoming := h.coming
  have hunbroken := h.refines.1.unbroken
  have hpos : 0 < (window selects journal unitFilter last (countSelected selects journal unitFilter written)).length := by
    rw [length_window (Nat.le_refl _)]
    omega
  obtain ⟨e, es, hes⟩ := List.exists_cons_of_ne_nil (List.length_pos_iff.mp hpos)
  rw [ha, List.append_nil, hes] at hcoming
  rw [hcoming] at hunbroken
  exact hunbroken (by simp [printed])

theorem Inv.contiguous (h : Inv selects journal unitFilter written k s m first last) :
    Contiguous selects journal unitFilter written s := by
  refine ⟨first, last, h.order, h.bound, h.refines.retained.trans h.lines, ?_, fun ha => ⟨h.last_eq ha, h.loaded⟩⟩
  rw [h.refines.retained, h.lines]
  exact nodup_lines.sublist (((List.drop_sublist ..).trans (List.take_sublist ..)).map Entry.line)

theorem inv_opened (hp : Prints journalctl selects journal (parseUnits unitFilter)) (written : ℕ) :
    ∃ k m first last,
      Inv selects journal unitFilter written k (opened journalctl journal unitFilter written) m first last := by
  have hnew := LogBuffer.new_refines { maxLines := some 500000 }
  have hroom : pageLines ≤ (LogBuffer.new { maxLines := some 500000 }).maxLines := by decide
  by_cases hu : (parseUnits unitFilter).length ≤ maxUnits
  · refine ⟨_, _, countSelected selects journal unitFilter written - pageLines,
      countSelected selects journal unitFilter written - pageLines, hnew, hroom, Nat.le_refl _, Nat.sub_le .., ?_, ?_,
      fun _ => Nat.le_refl _, fun _ => hu, Nat.le_refl _⟩
    · rw [window_self]
      rfl
    · change [] ++ (respond journalctl journal unitFilter written none).getD [] = _
      rw [respond_newest hp hu, Option.getD_some, List.nil_append]
  · refine ⟨_, _, countSelected selects journal unitFilter written, countSelected selects journal unitFilter written, hnew,
      hroom, Nat.le_refl _, Nat.le_refl _, ?_, ?_, fun h => absurd h hu, fun h => absurd h (Nat.lt_irrefl _), Nat.le_refl _⟩
    · rw [window_self]
      rfl
    · change [] ++ (respond journalctl journal unitFilter written none).getD [] = _
      rw [respond_refused (Nat.lt_of_not_le hu), window_self]
      rfl

/-- A chunk of the first response completes some entries; the buffer may drop its oldest ones. -/
theorem Inv.arrived (h : Inv selects journal unitFilter written k s m first last) (count : ℕ) :
    ∃ m' first' last', Inv selects journal unitFilter written k
      { s with buffer := s.buffer.append (s.arriving.take count), arriving := s.arriving.drop count } m' first' last' := by
  have happend := h.refines.append (s.arriving.take count)
  have hcoming := h.coming
  rw [← List.take_append_drop count s.arriving] at hcoming
  have horder := h.order
  have hbound := h.bound
  generalize s.arriving.take count = chunk at *
  generalize s.arriving.drop count = rest at *
  rw [LineLog.append] at happend
  split at happend
  · rename_i hnil
    subst hnil
    exact ⟨m, first, last, { h with refines := happend, coming := hcoming }⟩
  · obtain ⟨i, hi, hfed, hpending⟩ := LineLog.feed_part (nl_notMem_lines _) h.refines.1.unbroken hcoming
    rw [List.length_map, length_window (Nat.le_refl _)] at hi
    have hlast : last + i ≤ countSelected selects journal unitFilter written := by omega
    rw [← List.map_take, map_dropCR, take_window hlast, h.lines, ← List.map_append,
      window_append horder (Nat.le_add_right last i)] at hfed
    rw [← List.map_drop, drop_window] at hpending
    have hlength : (m.feed chunk).lines.length = last + i - first := by
      rw [hfed, List.length_map, length_window hlast]
    refine ⟨_, first + (last + i - first - k), last + i, happend, h.room, by omega, hlast, ?_, hpending, fun hu => ?_,
      fun hlt => h.accepted (by omega), h.later⟩
    · rw [LineLog.trim, hlength, hfed, ← List.map_drop, drop_window]
    · have := h.loaded hu
      have := h.room
      omega

/-- The end of the first response finds no entry unfinished. -/
theorem Inv.ended (h : Inv selects journal unitFilter written k s m first last) (ha : s.arriving = []) :
    Inv selects journal unitFilter written k { s with buffer := s.buffer.flushPartial } m first last := by
  have hflush := h.refines.flushPartial
  have hpending : m.pending = [] := by
    have hcoming := h.coming
    rw [ha, List.append_nil] at hcoming
    rw [hcoming, h.last_eq ha, window_self]
    rfl
  rw [LineLog.flushPartial, if_pos hpending] at hflush
  exact { h with refines := hflush }

/-- What `fetchEarlier` returns: the entries before the window that a page holds. -/
theorem Inv.fetchEarlier (h : Inv selects journal unitFilter written k s m first last)
    (hp : Prints journalctl selects journal (parseUnits unitFilter)) (hlt : first < last) {n : ℕ} (hn : pageLines = n + 1) :
    fetchEarlier journalctl journal unitFilter s =
      some ((window selects journal unitFilter (first - n) first).map Entry.line) := by
  have hfirst : first < countSelected selects journal unitFilter written := Nat.lt_of_lt_of_le hlt h.bound
  have hpos : 0 < (window selects journal unitFilter first last).length := by
    rw [length_window h.bound]
    omega
  obtain ⟨e, es, hes⟩ := List.exists_cons_of_ne_nil (List.length_pos_iff.mp hpos)
  have he : (selected selects journal unitFilter)[first]? = some e := by rw [← head?_window hlt, hes, List.head?_cons]
  have hline : s.buffer.lineAt s.buffer.firstSeq = some e.line := by
    rw [h.refines.lineAt, h.refines.firstSeq, LineLog.lineAt_firstSeq, h.lines, hes]
    rfl
  have hrespond := respond_backwards hp (h.accepted hfirst) (Nat.lt_of_lt_of_le hfirst (countSelected_mono h.later)) he
  rw [JournalPaging.fetchEarlier, hline, Option.bind_some, e.reads]
  dsimp only
  rw [hrespond, Option.map_some, hn, earlierJournalLines_printed he]

/-- A window at the first entry stays, and paging ends. -/
theorem Inv.loadEarlier_start (h : Inv selects journal unitFilter written k s m 0 last)
    (hp : Prints journalctl selects journal (parseUnits unitFilter)) (hlt : 0 < last) :
    loadEarlier journalctl journal unitFilter s = { s with canLoad := false } := by
  rw [loadEarlier, h.fetchEarlier hp hlt rfl, Nat.zero_sub, window_self]
  rfl

/-- Otherwise a page is put in front of the window, and paging goes on. -/
theorem Inv.loadEarlier_page (h : Inv selects journal unitFilter written k s m first last)
    (hp : Prints journalctl selects journal (parseUnits unitFilter)) (hlt : first < last) (hpos : 0 < first) :
    ∃ m', ∃ first' < first, Inv selects journal unitFilter written k (loadEarlier journalctl journal unitFilter s) m' first' last ∧
      (loadEarlier journalctl journal unitFilter s).canLoad = s.canLoad := by
  obtain ⟨n, hn⟩ : ∃ n, pageLines = n + 1 := ⟨9999, rfl⟩
  have hn0 : n ≠ 0 := by
    rintro rfl
    exact absurd hn (by decide)
  have hfetch := h.fetchEarlier hp hlt hn
  have hlength : ((window selects journal unitFilter (first - n) first).map Entry.line).length = first - (first - n) := by
    rw [List.length_map, length_window (Nat.le_trans h.order h.bound)]
  have hne : (window selects journal unitFilter (first - n) first).map Entry.line ≠ [] := by
    rw [← List.length_pos_iff, hlength]
    omega
  have hwhole : LineLog.wholeLines (pageChunk ((window selects journal unitFilter (first - n) first).map Entry.line)) =
      (window selects journal unitFilter (first - n) first).map Entry.line := by
    rw [wholeLines_pageChunk hne (nl_notMem_lines _), List.filter_eq_self.mpr fun l hl => ?_, map_dropCR]
    obtain ⟨e, -, rfl⟩ := List.mem_map.mp hl
    simpa using e.filled
  obtain ⟨hprepend, hadded⟩ := h.refines.prepend (pageChunk ((window selects journal unitFilter (first - n) first).map Entry.line))
  rw [hwhole, hlength] at hadded
  rw [LineLog.prepend, hwhole, h.lines, ← List.map_append, window_append (Nat.sub_le ..) h.order] at hprepend
  refine ⟨{ m with lines := (window selects journal unitFilter (first - n) last).map Entry.line }, first - n, by omega, ?_⟩
  rw [loadEarlier, hfetch]
  dsimp only
  rw [if_neg hne, hadded]
  refine ⟨{ h with
    refines := hprepend
    order := Nat.le_trans (Nat.sub_le ..) h.order
    lines := rfl
    loaded := fun hu => Nat.le_trans (Nat.sub_le ..) (h.loaded hu)
    accepted := fun _ => h.accepted (Nat.lt_of_lt_of_le hlt h.bound) }, ?_⟩
  have hcount : first - (first - n) ≠ 0 := by omega
  simp [hcount]

/-! ### Runs -/

/-- The tab loads a page only when it holds something. -/
theorem Inv.lt_of_ready (h : Inv selects journal unitFilter written k s m first last)
    (hready : s.canLoad && s.buffer.length > 0) : first < last := by
  have hlength : s.buffer.length = last - first := by
    rw [h.refines.length, h.lines, List.length_map, length_window h.bound]
  have hpos : 0 < s.buffer.length := of_decide_eq_true (Bool.and_eq_true_iff.mp hready).2
  omega

/-- Each event keeps the invariant. -/
theorem Inv.step (h : Inv selects journal unitFilter written k s m first last)
    (hp : Prints journalctl selects journal (parseUnits unitFilter)) {event : Event} {s' : State}
    (hs : step journalctl journal unitFilter s event = some s') :
    ∃ m' first' last', Inv selects journal unitFilter written k s' m' first' last' := by
  cases event with
  | written count =>
    obtain rfl := Option.some_inj.mp hs
    exact ⟨m, first, last, { h with later := Nat.le_trans h.later (Nat.le_add_right ..) }⟩
  | arrived count =>
    obtain rfl := Option.some_inj.mp hs
    exact h.arrived count
  | ended =>
    obtain ⟨ha, hs⟩ := Option.ite_none_right_eq_some.mp hs
    obtain rfl := Option.some_inj.mp hs
    exact ⟨m, first, last, h.ended ha⟩
  | loadEarlier =>
    obtain ⟨hready, hs⟩ := Option.ite_none_right_eq_some.mp hs
    obtain rfl := Option.some_inj.mp hs
    have hlt := h.lt_of_ready hready
    rcases Nat.eq_zero_or_pos first with rfl | hpos
    · exact ⟨m, 0, last, h.loadEarlier_start hp hlt ▸ { h with }⟩
    · obtain ⟨m', first', -, h', -⟩ := h.loadEarlier_page hp hlt hpos
      exact ⟨m', first', last, h'⟩
  | loadFails =>
    obtain ⟨-, hs⟩ := Option.ite_none_right_eq_some.mp hs
    obtain rfl := Option.some_inj.mp hs
    exact ⟨m, first, last, { h with }⟩

/-- **Paging loses and repeats nothing.** The buffer always holds a run of the selected entries that ends at the
newest of the first load, and a page adds nothing, or ends paging, only if the run starts at the first of them. -/
theorem paging_contiguous (journal : NodeJournal parse) (unitFilter : Str)
    (hp : Prints journalctl selects journal (parseUnits unitFilter)) (written : ℕ) (events : List Event) (s : State)
    (hs : run (step journalctl journal unitFilter) (opened journalctl journal unitFilter written) events = some s) :
    Contiguous selects journal unitFilter written s ∧
      ∀ s', step journalctl journal unitFilter s .loadEarlier = some s' →
        s'.buffer.length = s.buffer.length ∨ s'.canLoad = false → AtStart selects journal unitFilter s := by
  obtain ⟨k, hopened⟩ := inv_opened hp written
  obtain ⟨m, first, last, h⟩ := Along.invariant (G := fun _ _ _ => True)
    (I := fun s => ∃ m first last, Inv selects journal unitFilter written k s m first last)
    (fun hs _ ⟨_, _, _, h⟩ => h.step hp hs) (Along.of_forall (fun _ _ _ _ => trivial) _) hopened hs
  refine ⟨h.contiguous, fun s' hs' hnone => ?_⟩
  obtain ⟨hready, hs'⟩ := Option.ite_none_right_eq_some.mp hs'
  obtain rfl := Option.some_inj.mp hs'
  have hlt := h.lt_of_ready hready
  rcases Nat.eq_zero_or_pos first with rfl | hpos
  · exact ⟨last, h.refines.retained.trans h.lines⟩
  · obtain ⟨m', first', hmore, h', hcan⟩ := h.loadEarlier_page hp hlt hpos
    rw [h'.refines.length, h.refines.length, h'.lines, h.lines, List.length_map, List.length_map, length_window h.bound,
      length_window h.bound, hcan, (Bool.and_eq_true_iff.mp hready).1] at hnone
    rcases hnone with hsame | hended
    · omega
    · exact absurd hended (by decide)

/-! ### A journal of two entries -/

/-- An object that has nothing but a cursor. -/
def shortLine (cursor : Str) : Str := ascii "\x7b\"__CURSOR\":\"" ++ cursor ++ ascii "\"\x7d"

/-- `JSON.parse` of such objects. -/
def parseShort (line : Str) : Option Json :=
  let cursor := (line.drop 13).dropLast.dropLast
  if line = shortLine cursor then some (.object [(ascii "__CURSOR", .string cursor)]) else none

/-- Two of them. -/
def shortJournal : NodeJournal parseShort where
  entries := [⟨shortLine (ascii "a"), ascii "a", by decide, by decide, by decide, by decide, by decide⟩,
    ⟨shortLine (ascii "b"), ascii "b", by decide, by decide, by decide, by decide, by decide⟩]
  distinct := by decide

/-- journalctl, when it is asked for pages of the whole journal. -/
def journalctlShort (args : List Str) (written : List (Entry parseShort)) : Str :=
  match args with
  | [_, _, _, _, _, _, cursor, _, _] =>
    let isAnchor (e : Entry parseShort) : Bool := ascii "--cursor=" ++ e.cursor = cursor
    printed ((written.takeWhile (!isAnchor ·) ++ (written.find? isAnchor).toList).reverse.take pageLines)
  | _ => printed (written.drop (written.length - pageLines))

theorem prints_short (journal : NodeJournal parseShort) :
    Prints journalctlShort (fun units _ => units = []) journal [] where
  newest written _ := by
    have hall : written.filter (fun _ => decide (([] : List Str) = [])) = written := List.filter_eq_self.mpr (by simp)
    rw [hall]
    rfl
  backwards before entry after h := by
    have hall : (before ++ [entry]).filter (fun _ => decide (([] : List Str) = [])) = before ++ [entry] :=
      List.filter_eq_self.mpr (by simp)
    have hbefore : ∀ e ∈ before, e.cursor ≠ entry.cursor := fun e he heq => by
      have hnodup := journal.distinct.sublist (h.sublist.map Entry.cursor)
      rw [List.map_append, List.map_cons] at hnodup
      exact (List.nodup_append'.mp hnodup).2.2 (List.mem_map_of_mem he) (heq ▸ List.mem_cons_self)
    rw [hall]
    change printed _ = _
    congr 4
    · rw [List.takeWhile_append_of_pos (by simpa using hbefore), List.takeWhile_cons_of_neg (by simp), List.append_nil]
    · rw [List.find?_append, List.find?_eq_none.mpr (by simpa using hbefore)]
      simp

/-- One entry is loaded, the other is written, and there is no page before. -/
theorem paging_contiguous_short : ∃ s,
    run (step journalctlShort shortJournal []) (opened journalctlShort shortJournal [] 1)
      [.arrived 7, .written 1, .arrived 100, .ended] = some s ∧
    Contiguous (fun units _ => units = []) shortJournal [] 1 s ∧
      ∀ s', step journalctlShort shortJournal [] s .loadEarlier = some s' →
        s'.buffer.length = s.buffer.length ∨ s'.canLoad = false →
          AtStart (fun units _ => units = []) shortJournal [] s :=
  ⟨_, rfl, paging_contiguous shortJournal [] (prints_short shortJournal) 1 [.arrived 7, .written 1, .arrived 100, .ended] _ rfl⟩

end OpenshiftConsole.Logging.JournalPaging
