import Mathlib.Data.Finset.Dedup
import Mathlib.Data.Finset.Erase
import Mathlib.Data.Finset.Insert
import Mathlib.Logic.Function.Basic
import OpenshiftConsole.Library.Lines
import OpenshiftConsole.Library.Runs

/-!
# The file browser's tree

`PodFileBrowserTab` keeps the directories it has opened in `dirs`, keyed by path alone. A
directory is loaded by a request that names the container of the render its handler
belongs to; the answer is written under the path whenever it comes. A switch to another
container empties `dirs` in an effect after the render, but does nothing about the
requests that are out.

A state holds what the last render saw (`target`, `home`, `rendered`), what is in the
tree, the requests that are out and the actions (an upload, a move, an extraction) that
still run, each with the container it was started for: when it ends, it refreshes
directories for that container. `answered` is not in the source: it records which request
the listing or error under a path answers.

What the tree shows belongs to the selected container exactly in the runs in which each
request is answered before the switch away from its container takes effect, or is
for the container that is selected when it is answered (`tree_shows_selected_iff`).
-/

namespace OpenshiftConsole.Filesystem.BrowserTab

open OpenshiftConsole.Library.Lines (Text)
open OpenshiftConsole.Library.Runs

/-! ### Paths -/

/-- `ROOT`. -/
def root : Text := ['/']

/-- A path without its trailing slashes. -/
def trimSlashes (path : Text) : Text := (path.reverse.dropWhile (· = '/')).reverse

/-- `ancestorPaths`: the directories from the root down to a path, the path included. -/
def ancestorPaths (path : Text) : List Text :=
  let parts := ((trimSlashes path).splitOn '/').filter (· ≠ [])
  root :: (parts.scanl (fun current part => current ++ '/' :: part) []).tail

/-! ### The tree and its requests -/

/-- `BrowseTarget`: whose files are browsed. -/
structure Target where
  podNamespace : Text
  pod : Text
  container : Text
deriving DecidableEq

/-- A `ListDirectory` request. -/
structure Request where
  target : Target
  path : Text
deriving DecidableEq

/-- `DirState`: what is held under a path, and the request it answers. -/
structure DirState (α : Type*) where
  entries : List α
  truncated : Bool
  loading : Bool
  error : Option Text
  answered : Option Request

/-- How a request ends. -/
inductive Answer (α : Type*) where
  | listed (entries : List α) (truncated : Bool)
  | failed (message : Text)

/-- An action that runs: the container it was started for and the directories it refreshes at its end. -/
structure Action where
  target : Target
  refreshPaths : List Text

/-- The tab. `due`: the effect has not run since what it depends on changed; `switched`: it has not run
since the container changed. -/
structure State (α : Type*) where
  target : Target
  home : Text
  rendered : Text → Option (DirState α)
  due : Bool
  switched : Bool
  dirs : Text → Option (DirState α)
  expanded : Finset Text
  requests : List Request
  actions : List Action

inductive Event (α : Type*) where
  /-- The tab renders, for the container that is selected now. -/
  | render (target : Target) (home : Text)
  /-- The effect that opens the tree of the container runs. -/
  | effect
  /-- `onToggle` of a directory. -/
  | toggle (path : Text)
  /-- `refresh` of a directory; the toolbar's button refreshes one after the other. -/
  | refresh (path : Text)
  /-- `run` starts an action. -/
  | start (refreshPaths : List Text)
  /-- An action ends, well or not. -/
  | finish (i : ℕ) (ok : Bool)
  /-- A request is answered. -/
  | respond (i : ℕ) (answer : Answer α)

variable {α : Type*}

/-- The tab when it is mounted. -/
def init (target : Target) (home : Text) : State α :=
  { target, home, rendered := fun _ => none, due := true, switched := true, dirs := fun _ => none,
    expanded := {root}, requests := [], actions := [] }

/-- What `loadDirectory` writes under the path before it asks. -/
def DirState.reload (current : Option (DirState α)) : DirState α :=
  { entries := (current.map DirState.entries).getD [], truncated := false, loading := true, error := none,
    answered := current.bind DirState.answered }

/-- What `loadDirectory` writes under the path when the request is answered. -/
def DirState.ofAnswer (r : Request) : Answer α → DirState α
  | .listed entries truncated => { entries, truncated, loading := false, error := none, answered := some r }
  | .failed message =>
    { entries := [], truncated := false, loading := false, error := some message, answered := some r }

/-- `loadDirectory`, up to its request. -/
def State.load (target : Target) (s : State α) (path : Text) : State α :=
  { s with dirs := Function.update s.dirs path (some (.reload (s.dirs path))),
           requests := s.requests ++ [⟨target, path⟩] }

/-- `refresh`: a directory that has not been opened is not loaded. -/
def State.refresh (target : Target) (s : State α) (path : Text) : State α :=
  if (s.dirs path).isSome then s.load target path else s

/-- `namespace && podName && container`. -/
def Target.named (target : Target) : Bool := target.podNamespace ≠ [] ∧ target.pod ≠ [] ∧ target.container ≠ []

/-- The effect: the tree is emptied, and the directories down to the home are loaded. -/
def State.reopen (s : State α) : State α :=
  let toOpen := ancestorPaths s.home
  let s := { s with due := false, switched := false, dirs := fun _ => none, expanded := toOpen.toFinset }
  if s.target.named then toOpen.foldl (State.load s.target) s else s

/-- `onToggle`; whether the directory is there is read in what was rendered. -/
def State.toggle (s : State α) (path : Text) : State α :=
  if path ∈ s.expanded then { s with expanded := s.expanded.erase path }
  else
    let s := { s with expanded := insert path s.expanded }
    if (s.rendered path).isNone then s.load s.target path else s

/-- One event. -/
def step (s : State α) : Event α → Option (State α)
  | .render target home =>
    some { s with target, home, rendered := s.dirs, due := s.due || target ≠ s.target || home ≠ s.home,
                  switched := s.switched || target ≠ s.target }
  | .effect => if s.due then some s.reopen else none
  | .toggle path => some (s.toggle path)
  | .refresh path => some (s.refresh s.target path)
  | .start refreshPaths => some { s with actions := s.actions ++ [⟨s.target, refreshPaths⟩] }
  | .finish i ok =>
    s.actions[i]?.map fun a =>
      let s := { s with actions := s.actions.eraseIdx i }
      if ok then a.refreshPaths.foldl (State.refresh a.target) s else s
  | .respond i answer =>
    s.requests[i]?.map fun r =>
      { s with dirs := Function.update s.dirs r.path (some (.ofAnswer r answer)), requests := s.requests.eraseIdx i }

/-! ### What the tree shows -/

/-- What is held under each path answers a request to the selected container. -/
def State.Shows (s : State α) : Prop :=
  ∀ path d, s.dirs path = some d →
    (∀ r, d.answered = some r → r.target = s.target) ∧ (d.answered = none → d.entries = [] ∧ d.error = none)

/-- Once the effect of the latest switch has run, the tree shows the selected container. -/
def Shown (_ : State α) (_ : Event α) (s' : State α) : Prop := s'.switched = false → s'.Shows

/-- A request that is answered once the effect of the latest switch has run is for the selected container. -/
def Fresh (s : State α) (e : Event α) (_ : State α) : Prop :=
  match e with
  | .respond i _ => s.switched = false → ∀ r, s.requests[i]? = some r → r.target = s.target
  | _ => True

variable {s s' : State α} {e : Event α}

/-- Before a directory is answered, what is held under it stays. -/
theorem State.Shows.load (h : s.Shows) (t : Target) (path : Text) : (s.load t path).Shows := by
  intro path' d hd
  rcases eq_or_ne path' path with rfl | hne
  · obtain rfl : .reload (s.dirs path') = d := by simpa [State.load] using hd
    cases hc : s.dirs path' with
    | none => simp [DirState.reload]
    | some c =>
      obtain ⟨hr, hn⟩ := h path' c hc
      exact ⟨hr, fun ha => ⟨(hn ha).1, rfl⟩⟩
  · refine h path' d ?_
    rw [← hd]
    exact (Function.update_of_ne hne ..).symm

@[simp] theorem refresh_switched (t : Target) (path : Text) : (s.refresh t path).switched = s.switched := by
  rw [State.refresh]
  split <;> rfl

theorem State.Shows.refresh (h : s.Shows) (t : Target) (path : Text) : (s.refresh t path).Shows := by
  rw [State.refresh]
  split
  · exact h.load t path
  · exact h

/-- What one load or refresh keeps, a sequence of them keeps. -/
theorem foldl_shows {f : State α → Text → State α} (hf : ∀ s path, s.Shows → (f s path).Shows) (paths : List Text)
    (h : s.Shows) : (paths.foldl f s).Shows := by
  induction paths generalizing s with
  | nil => exact h
  | cons path paths ih => exact ih (hf s path h)

/-- What one load or refresh leaves as it is, a sequence of them does. -/
theorem foldl_same {β : Type*} (g : State α → β) {f : State α → Text → State α} (hf : ∀ s path, g (f s path) = g s)
    (paths : List Text) : g (paths.foldl f s) = g s := by
  induction paths generalizing s with
  | nil => rfl
  | cons path paths ih => exact ih.trans (hf s path)

/-- The effect of a switch leaves nothing of what was held before it. -/
theorem reopen_shows (s : State α) : s.reopen.Shows := by
  rw [State.reopen]
  dsimp only
  split
  · exact foldl_shows (fun s path h => h.load _ path) _ (fun _ _ hd => by simp at hd)
  · exact fun _ _ hd => by simp at hd

theorem State.Shows.toggle (h : s.Shows) (path : Text) : (s.toggle path).Shows := by
  rw [State.toggle]
  dsimp only
  split
  · exact h
  · split
    · exact State.Shows.load (s := { s with expanded := insert path s.expanded }) h s.target path
    · exact h

theorem toggle_switched (path : Text) : (s.toggle path).switched = s.switched := by
  rw [State.toggle]
  dsimp only
  split
  · rfl
  · split <;> rfl

/-- An answer from the selected container is written where it belongs. -/
theorem State.Shows.answer (h : s.Shows) {r : Request} (hr : r.target = s.target) (a : Answer α) (requests : List Request) :
    State.Shows { s with dirs := Function.update s.dirs r.path (some (.ofAnswer r a)), requests } := by
  intro path d hd
  rcases eq_or_ne path r.path with rfl | hne
  · obtain rfl : DirState.ofAnswer r a = d := by simpa using hd
    cases a <;> exact ⟨fun r' hr' => by cases hr'; exact hr, (nomatch ·)⟩
  · refine h path d ?_
    rw [← hd]
    exact (Function.update_of_ne hne ..).symm

/-- Fresh answers keep what the tree shows. -/
theorem shown_step (hs : step s e = some s') (hf : Fresh s e s') (hi : s.switched = false → s.Shows) :
    s'.switched = false → s'.Shows := by
  intro hw
  cases e with
  | render target home =>
    obtain rfl := Option.some.inj hs
    simp only [Bool.or_eq_false_iff, decide_eq_false_iff_not, not_not] at hw
    obtain ⟨hw, rfl⟩ := hw
    exact hi hw
  | effect =>
    simp only [step, Option.ite_none_right_eq_some, Option.some.injEq] at hs
    exact hs.2 ▸ reopen_shows s
  | toggle path =>
    obtain rfl := Option.some.inj hs
    exact (hi (toggle_switched path ▸ hw)).toggle path
  | refresh path =>
    obtain rfl := Option.some.inj hs
    exact (hi (refresh_switched s.target path ▸ hw)).refresh s.target path
  | start refreshPaths =>
    obtain rfl := Option.some.inj hs
    exact hi hw
  | finish i ok =>
    obtain ⟨a, -, rfl⟩ := Option.map_eq_some_iff.mp hs
    split at hw
    · rw [if_pos ‹_›]
      refine foldl_shows (fun s path h => h.refresh a.target path) _ (hi ?_)
      exact (foldl_same State.switched (s := { s with actions := s.actions.eraseIdx i })
        (f := State.refresh a.target) (fun _ path => refresh_switched a.target path) a.refreshPaths).symm.trans hw
    · rw [if_neg ‹_›]
      exact hi hw
  | respond i answer =>
    obtain ⟨r, hr, rfl⟩ := Option.map_eq_some_iff.mp hs
    exact (hi hw).answer (hf hw r hr) answer _

/-- **The tree shows the selected container** in exactly the runs whose answers are fresh. -/
theorem tree_shows_selected_iff (target : Target) (home : Text) (es : List (Event α)) :
    Along step Shown (init target home) es ↔ Along step Fresh (init target home) es := by
  constructor
  · intro h
    refine Along.of_invariant (I := fun _ => True) (fun _ _ _ => trivial) (fun {s e s'} hs hg _ => ?_) h trivial
    cases e with
    | respond i answer =>
      intro hw r hr
      obtain ⟨r', hr', rfl⟩ := Option.map_eq_some_iff.mp hs
      obtain rfl : r = r' := Option.some.inj (hr.symm.trans hr')
      obtain ⟨ha, -⟩ := hg hw r.path _ (Function.update_self ..)
      exact ha r (by cases answer <;> rfl)
    | _ => trivial
  · intro h
    exact Along.of_invariant (I := fun s => s.switched = false → s.Shows) (fun hs hf hi => shown_step hs hf hi)
      (fun hs hf hi => shown_step hs hf hi) h (by simp [init])

/-- A pod with two containers. -/
def inContainer (container : Text) : Target := ⟨"shop".toList, "web-0".toList, container⟩

/-- The listing of the first container is slower than the switch to the second. -/
def lateAnswer : List (Event Text) :=
  [.effect, .render (inContainer "proxy".toList) root, .effect, .respond 0 (.listed ["app.conf".toList] false)]

/-- Files of a container that is not selected are shown. -/
theorem late_answer_is_shown : ¬ Along step Shown (init (inContainer "app".toList) root) lateAnswer := by
  intro h
  have hs := Along.at (l := lateAnswer.take 3) (r := []) h rfl rfl rfl root _ rfl
  exact absurd (hs.1 ⟨inContainer "app".toList, root⟩ rfl) (by decide)

end OpenshiftConsole.Filesystem.BrowserTab
