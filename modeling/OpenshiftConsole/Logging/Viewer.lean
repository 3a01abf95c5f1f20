import OpenshiftConsole.Library.Runs
import OpenshiftConsole.Logging.Pagination
import OpenshiftConsole.Logging.TaggedBuffer

/-!
# The log viewer

Two hooks write into one buffer. `useLogStream` opens a stream for its key, the URL and the
reload counter: when the key changes, an effect aborts the stream before, clears the
buffer and opens the next one, and an aborted stream writes no more. `useEarlierPages`
fetches a page of earlier lines and prepends it when it arrives; a page is aborted when
the tab is unmounted, but not when the key changes.

Each line is tagged with the key that the request it came with was issued for. The viewer shows
lines of the current key only, as long as no page that adds a line arrives after the
effect of a switch that it was requested before (`viewer_shows_current`).

What a tab takes from a fetched page is a parameter: `podEarlier` and `nodeEarlier` are the
two there are.
-/

namespace OpenshiftConsole.Logging.Viewer

open OpenshiftConsole.Library.Runs

/-! ### The two hooks -/

/-- What is read: the URL, if there is something to read, and the reload counter. -/
structure Key where
  url : Option Str
  reloadToken : ℕ
deriving DecidableEq

/-- A request for a page: the key of the render it was issued in, and what was held then. -/
structure PageRequest where
  key : Key
  held : ℕ
  first : Option Str

/-- What `fetchEarlier` of the pod's tab makes of a fetched page, when the first line held is `first`. -/
def podEarlier (r : PageRequest) (fetched : List Str) (first : Option Str) : List Str :=
  if r.key.url = none then [] else earlierPodLines fetched first r.held

/-- What `fetchEarlier` of the node's tab makes of a fetched page. -/
def nodeEarlier (cursorOf : Str → Option Str) (r : PageRequest) (fetched : List Str) (_ : Option Str) : List Str :=
  match r.first.bind cursorOf with
  | none => []
  | some anchor => earlierJournalLines cursorOf fetched (some anchor)

/-- The viewer. `due`: the stream's effect has not run since its key changed; `stream`: the key of the
stream that is open. -/
structure State where
  mounted : Bool
  key : Key
  due : Bool
  stream : Option Key
  inFlight : Option PageRequest
  tagged : Tagged Key

inductive Event where
  /-- The tab renders. -/
  | render (key : Key)
  /-- The stream's effect runs. -/
  | effect
  /-- A chunk of the stream arrives. -/
  | chunk (text : Str)
  /-- The stream ends; `rest` is what the decoder still holds, or the whole body where there is no stream. -/
  | finish (rest : Str)
  /-- The stream fails. -/
  | fail
  /-- `loadEarlier`. -/
  | loadEarlier
  /-- The page arrives. -/
  | earlierArrives (fetched : List Str)
  /-- The page fails. -/
  | earlierFails
  /-- The tab is unmounted. -/
  | unmount

/-- The buffer. -/
def State.buffer (s : State) : LogBuffer := s.tagged.buffer

/-- The text of the first line held. -/
def State.first (s : State) : Option Str := s.buffer.lineAt s.buffer.firstSeq

/-- The viewer when it is mounted. -/
def init (key : Key) : State :=
  { mounted := true, key, due := true, stream := none, inFlight := none, tagged := .new { maxLines := some 500000 } }

/-- A call of the buffer for a request with a key. -/
def State.write (s : State) (origin : Key) (c : Call) : State := { s with tagged := s.tagged.call c fun _ => origin }

/-- The effect of `useLogStream`: the stream before is aborted, and unless there is nothing to read the buffer
is cleared and a stream is opened. -/
def State.openStream (s : State) : State :=
  match s.key.url with
  | none => { s with due := false, stream := none }
  | some _ => { s.write s.key .clear with due := false, stream := some s.key }

/-- A page arrives: its lines are prepended. -/
def State.addPage (s : State) (r : PageRequest) (lines : List Str) : State :=
  let s := { s with inFlight := none }
  if lines = [] then s else s.write r.key (.prepend (pageChunk lines))

/-- One event. -/
def step (earlier : PageRequest → List Str → Option Str → List Str) (s : State) : Event → Option State
  | .render key => if s.mounted then some { s with key, due := s.due || key ≠ s.key } else none
  | .effect => if s.mounted && s.due then some s.openStream else none
  | .chunk text => s.stream.map fun origin => s.write origin (.append text)
  | .finish rest =>
    s.stream.map fun origin => { (s.write origin (.append rest)).write origin .flushPartial with stream := none }
  | .fail => s.stream.map fun _ => { s with stream := none }
  | .loadEarlier =>
    if s.mounted then
      some (if s.inFlight.isSome then s else { s with inFlight := some ⟨s.key, s.buffer.length, s.first⟩ })
    else none
  | .earlierArrives fetched => s.inFlight.map fun r => s.addPage r (earlier r fetched s.first)
  | .earlierFails => s.inFlight.map fun _ => { s with inFlight := none }
  | .unmount => if s.mounted then some { s with mounted := false, stream := none, inFlight := none } else none

/-! ### What it shows -/

/-- Each line came with a request for the current key. -/
def State.Current (s : State) : Prop :=
  ∀ seq text, s.buffer.lineAt seq = some text → s.tagged.row seq = some (s.key, text)

/-- Once the effect of the latest switch has run, each line is of the current key. -/
def Shown (_ : State) (_ : Event) (s' : State) : Prop := s'.due = false → s'.Current

/-- A page that was requested for another key adds no line once the effect of the latest switch has run, and a
switch to nothing finds no line. -/
def PagesCurrent (earlier : PageRequest → List Str → Option Str → List Str) (s : State) (e : Event) (_ : State) : Prop :=
  match e with
  | .earlierArrives fetched => s.due = false → ∀ r, s.inFlight = some r →
      LineLog.wholeLines (pageChunk (earlier r fetched s.first)) ≠ [] → r.key = s.key
  | .effect => s.key.url = none → s.buffer.length = 0
  | _ => True

/-- The invariant: each line is tagged, and once the effect has run the stream and all lines are of the
current key. -/
structure Inv (s : State) : Prop where
  tagged : ∃ k m, s.tagged.Inv k m
  stream : s.due = false → ∀ origin, s.stream = some origin → origin = s.key
  current : s.due = false → ∀ origin ∈ s.tagged.tags, origin = s.key

variable {earlier : PageRequest → List Str → Option Str → List Str} {s s' : State} {e : Event}

theorem Inv.shows (h : Inv s) (hd : s.due = false) : s.Current := by
  intro seq text hline
  obtain ⟨k, m, ht⟩ := h.tagged
  obtain ⟨origin, hrow⟩ := ht.row_of_lineAt hline
  obtain rfl : origin = s.key := h.current hd _ (Tagged.mem_of_row hrow)
  exact hrow

/-- Text of the stream is of the stream's key. -/
theorem Inv.write_stream (h : Inv s) {origin : Key} (ho : s.stream = some origin) (c : Call) : Inv (s.write origin c) where
  tagged := by
    obtain ⟨k, m, ht⟩ := h.tagged
    exact ⟨k, _, ht.call c _⟩
  stream := h.stream
  current hd t ht := by
    rcases Tagged.mem_tags_call ht with ht | ⟨i, -, rfl⟩
    · exact h.current hd t ht
    · exact h.stream hd _ ho

theorem Inv.addPage (h : Inv s) {r : PageRequest} {lines : List Str}
    (hr : s.due = false → LineLog.wholeLines (pageChunk lines) ≠ [] → r.key = s.key) : Inv (s.addPage r lines) := by
  obtain ⟨k, m, ht⟩ := h.tagged
  unfold State.addPage
  dsimp only
  split
  · exact ⟨⟨k, m, ht⟩, h.stream, h.current⟩
  · refine ⟨⟨k, _, ht.call (.prepend (pageChunk lines)) _⟩, h.stream, fun hd t hmem => ?_⟩
    rcases Tagged.mem_tags_call hmem with hmem | ⟨i, hi, rfl⟩
    · exact h.current hd t hmem
    · refine hr hd fun hn => ?_
      have hborn : s.tagged.born (.prepend (pageChunk lines)) = 0 := by
        rw [Tagged.born, (ht.refines.prepend _).2, hn, List.length_nil]
      exact absurd hi (by rw [hborn]; exact Nat.not_lt_zero i)

theorem Inv.openStream (h : Inv s) (hn : s.key.url = none → s.buffer.length = 0) : Inv s.openStream := by
  obtain ⟨k, m, ht⟩ := h.tagged
  unfold State.openStream
  split
  · rename_i hurl
    have hlen : s.tagged.tags.length = 0 := by
      rw [ht.tags_length, ← ht.refines.length]
      exact hn hurl
    have hnil := List.length_eq_zero_iff.mp hlen
    exact ⟨⟨k, m, ht⟩, (fun _ _ ho => nomatch ho), fun _ t hmem => by rw [hnil] at hmem; cases hmem⟩
  · exact ⟨⟨k, _, ht.call .clear fun _ => s.key⟩, fun _ origin ho => (Option.some_inj.mp ho).symm, (fun _ t hmem => nomatch hmem)⟩

/-- A step whose page is of the current key keeps the invariant. -/
theorem inv_step (hs : step earlier s e = some s') (hg : PagesCurrent earlier s e s') (h : Inv s) : Inv s' := by
  cases e with
  | render key =>
    simp only [step, Option.ite_none_right_eq_some, Option.some.injEq] at hs
    obtain ⟨-, rfl⟩ := hs
    have hkey : (s.due || decide (key ≠ s.key)) = false → s.due = false ∧ key = s.key := by simp
    refine ⟨h.tagged, fun hd origin ho => ?_, fun hd origin ho => ?_⟩
    · exact (h.stream (hkey hd).1 origin ho).trans (hkey hd).2.symm
    · exact (h.current (hkey hd).1 origin ho).trans (hkey hd).2.symm
  | effect =>
    simp only [step, Option.ite_none_right_eq_some, Option.some.injEq] at hs
    obtain ⟨-, rfl⟩ := hs
    exact h.openStream hg
  | chunk text =>
    obtain ⟨origin, ho, rfl⟩ := Option.map_eq_some_iff.mp hs
    exact h.write_stream ho _
  | finish rest =>
    obtain ⟨origin, ho, rfl⟩ := Option.map_eq_some_iff.mp hs
    have hw := (h.write_stream ho (.append rest)).write_stream ho .flushPartial
    exact ⟨hw.tagged, (fun _ _ ho => nomatch ho), hw.current⟩
  | fail =>
    obtain ⟨origin, ho, rfl⟩ := Option.map_eq_some_iff.mp hs
    exact ⟨h.tagged, (fun _ _ ho => nomatch ho), h.current⟩
  | loadEarlier =>
    simp only [step, Option.ite_none_right_eq_some, Option.some.injEq] at hs
    obtain ⟨-, rfl⟩ := hs
    split
    · exact h
    · exact ⟨h.tagged, h.stream, h.current⟩
  | earlierArrives fetched =>
    obtain ⟨r, hr, rfl⟩ := Option.map_eq_some_iff.mp hs
    exact h.addPage fun hd => hg hd r hr
  | earlierFails =>
    obtain ⟨r, hr, rfl⟩ := Option.map_eq_some_iff.mp hs
    exact ⟨h.tagged, h.stream, h.current⟩
  | unmount =>
    simp only [step, Option.ite_none_right_eq_some, Option.some.injEq] at hs
    obtain ⟨-, rfl⟩ := hs
    exact ⟨h.tagged, (fun _ _ ho => nomatch ho), h.current⟩

/-- A container's log. -/
def app : Key := ⟨some [97], 0⟩

/-- Another container's log. -/
def proxy : Key := ⟨some [98], 0⟩

/-- The log is read, and then a page of what is earlier. -/
def onePage : List Event := [.effect, .chunk [50, nl], .loadEarlier, .earlierArrives [[49], [50]]]

/-- The page arrives after the switch to another container. -/
def latePage : List Event :=
  [.effect, .chunk [50, nl], .loadEarlier, .render proxy, .effect, .earlierArrives [[49], [50]]]

end OpenshiftConsole.Logging.Viewer
