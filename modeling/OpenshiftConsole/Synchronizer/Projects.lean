import Mathlib.Logic.Function.Basic
import OpenshiftConsole.Library.Lines

/-!
# The synchronizer's projects

`syncNamespace` makes the Project of a name agree with the Namespace of that name, as the
lister has it: it gets the Project, creates it if there is none, updates its status, or deletes
it. Each of these is a call of its own; between them anybody may write any Project, and each may
be refused or its answer lost.

A `World` is the API server and what is to happen at the calls still to be made: what others
write before it, and whether the call gets through. The server after `syncNamespace` is therefore
the server at its last call.

A return without an error has converged, but where the Project appeared after the `Get` with
another phase, so that `Create` finds it there, or where finalizers hold the Project that is
deleted (`syncNamespace_converged_iff`).
-/

namespace OpenshiftConsole.Synchronizer.Projects

open OpenshiftConsole.Library.Lines (Text)

/-! ### The API server -/

/-- A Project, as far as the synchronizer or its deletion look at it. -/
structure Project where
  /-- `status.phase` -/
  phase : Option Text
  finalizers : List Text
  /-- There is a `metadata.deletionTimestamp`. -/
  deleting : Bool
  resourceVersion : ℕ
deriving DecidableEq

/-- `unstructured.NestedString(project.Object, "status", "phase")` -/
def Project.nestedPhase (p : Project) : Text := p.phase.getD []

structure Server where
  projects : Text → Option Project
  /-- The last resource version that was given. -/
  resourceVersion : ℕ

inductive ApiError where
  | notFound | alreadyExists | conflict
  | other (message : Text)
deriving DecidableEq

/-- The server with a Project put in its place, as a version of its own. -/
def Server.put (s : Server) (name : Text) (p : Project) : Server × Project :=
  let p : Project := { p with resourceVersion := s.resourceVersion + 1 }
  (⟨Function.update s.projects name (some p), s.resourceVersion + 1⟩, p)

def Server.remove (s : Server) (name : Text) : Server :=
  ⟨Function.update s.projects name none, s.resourceVersion + 1⟩

/-- `Get` -/
def Server.get (name : Text) (s : Server) : Server × Except ApiError Project :=
  match s.projects name with
  | none => (s, .error .notFound)
  | some p => (s, .ok p)

/-- `Create`. The status of what is created is dropped. -/
def Server.create (name : Text) (p : Project) (s : Server) : Server × Except ApiError Project :=
  match s.projects name with
  | some _ => (s, .error .alreadyExists)
  | none =>
    let (s, p) := s.put name { p with phase := none }
    (s, .ok p)

/-- `UpdateStatus`, which takes nothing but the status, and only of the latest version. -/
def Server.updateStatus (name : Text) (p : Project) (s : Server) : Server × Except ApiError Project :=
  match s.projects name with
  | none => (s, .error .notFound)
  | some current =>
    if current.resourceVersion = p.resourceVersion then
      let (s, p) := s.put name { current with phase := p.phase }
      (s, .ok p)
    else (s, .error .conflict)

/-- `Delete`. A Project with finalizers stays until they are gone. -/
def Server.delete (name : Text) (s : Server) : Server × Except ApiError Unit :=
  match s.projects name with
  | none => (s, .error .notFound)
  | some p =>
    if p.finalizers = [] then (s.remove name, .ok ()) else ((s.put name { p with deleting := true }).1, .ok ())

/-! ### Calls -/

/-- What others do. -/
inductive Write where
  | put (name : Text) (p : Project)
  | remove (name : Text)

def Server.write (s : Server) : Write → Server
  | .put name p => (s.put name p).1
  | .remove name => s.remove name

/-- How a call gets through. -/
inductive Reach where
  | answered
  /-- It is refused, or never arrives. -/
  | refused (message : Text)
  /-- It is done, but the answer does not arrive. -/
  | lost (message : Text)

/-- What happens at a call. -/
structure Turn where
  /-- What others write before it. -/
  writes : List Write
  reach : Reach

structure World where
  server : Server
  turns : List Turn

/-- The server as the next call finds it. -/
def World.found (w : World) : Server := ((w.turns.head?.map Turn.writes).getD []).foldl Server.write w.server

/-- How the next call gets through. -/
def World.reach (w : World) : Reach := (w.turns.head?.map Turn.reach).getD .answered

/-- A call of the API server. -/
def call {α : Type*} (f : Server → Server × Except ApiError α) (w : World) : World × Except ApiError α :=
  match w.reach with
  | .answered => (⟨(f w.found).1, w.turns.tail⟩, (f w.found).2)
  | .refused message => (⟨w.found, w.turns.tail⟩, .error (.other message))
  | .lost message => (⟨(f w.found).1, w.turns.tail⟩, .error (.other message))

/-! ### The controller -/

/-- `fmt.Errorf("<during> %q: %w", name, cause)` -/
structure Error where
  during : Text
  name : Text
  cause : ApiError
deriving DecidableEq

/-- `newProject` -/
def newProject : Project where
  phase := none
  finalizers := []
  deleting := false
  resourceVersion := 0

/-- `syncStatus` -/
def syncStatus (project : Project) (name phase : Text) (w : World) : World × Option Error :=
  if project.nestedPhase = phase then (w, none)
  else
    match call (Server.updateStatus name { project with phase := some phase }) w with
    | (w, .error err) => (w, some ⟨"update status of project".toList, name, err⟩)
    | (w, .ok _) => (w, none)

/-- `reconcileProject` -/
def reconcileProject (name phase : Text) (w : World) : World × Option Error :=
  match call (Server.get name) w with
  | (w, .ok project) => syncStatus project name phase w
  | (w, .error .notFound) =>
    match call (Server.create name newProject) w with
    | (w, .ok project) => syncStatus project name phase w
    | (w, .error .alreadyExists) => (w, none)
    | (w, .error err) => (w, some ⟨"create project".toList, name, err⟩)
  | (w, .error err) => (w, some ⟨"get project".toList, name, err⟩)

/-- `deleteProject` -/
def deleteProject (name : Text) (w : World) : World × Option Error :=
  match call (Server.delete name) w with
  | (w, .ok _) => (w, none)
  | (w, .error .notFound) => (w, none)
  | (w, .error err) => (w, some ⟨"delete project".toList, name, err⟩)

/-- `syncNamespace`. The lister gives the phase of a Namespace. -/
def syncNamespace (namespaceLister : Text → Except ApiError Text) (name : Text) (w : World) : World × Option Error :=
  match namespaceLister name with
  | .error .notFound => deleteProject name w
  | .error err => (w, some ⟨"get namespace".toList, name, err⟩)
  | .ok phase => reconcileProject name phase w

/-- The work queue: what is to be done now, and what is to be done again later. -/
structure Workqueue where
  items : List Text
  later : List Text
  requeues : Text → ℕ

/-- `AddRateLimited` -/
def Workqueue.addRateLimited (q : Workqueue) (name : Text) : Workqueue :=
  { q with later := name :: q.later, requeues := Function.update q.requeues name (q.requeues name + 1) }

/-- `Forget` -/
def Workqueue.forget (q : Workqueue) (name : Text) : Workqueue :=
  { q with requeues := Function.update q.requeues name 0 }

/-- `processNextWorkItem`; without an item there is nothing to do. -/
def processNextWorkItem (namespaceLister : Text → Except ApiError Text) (q : Workqueue) (w : World) : Workqueue × World :=
  match q.items with
  | [] => (q, w)
  | name :: items =>
    match syncNamespace namespaceLister name w with
    | (w, some _) => (Workqueue.addRateLimited { q with items } name, w)
    | (w, none) => (Workqueue.forget { q with items } name, w)

/-! ### Convergence -/

/-- The Project of a name agrees with what the lister has. -/
def Converged (namespaceLister : Text → Except ApiError Text) (name : Text) (s : Server) : Prop :=
  match namespaceLister name with
  | .ok phase => ∃ p, s.projects name = some p ∧ p.nestedPhase = phase
  | .error _ => s.projects name = none

/-- Nothing gets in the way: no finalizers hold the Project that is to be deleted, and a Project that
was not there at the `Get` is not there at the `Create` either, or has the right phase already. -/
def Undisturbed (namespaceLister : Text → Except ApiError Text) (name : Text) (w : World) : Prop :=
  match namespaceLister name with
  | .ok phase => w.found.projects name = none →
    ∀ p, (call (Server.get name) w).1.found.projects name = some p → p.nestedPhase = phase
  | .error _ => ∀ p, w.found.projects name = some p → p.finalizers = []

variable {name phase : Text} {w w' : World}

@[simp] theorem put_projects (s : Server) (name : Text) (p : Project) :
    (s.put name p).1.projects name = some (s.put name p).2 := by
  simp [Server.put]

@[simp] theorem remove_projects (s : Server) (name : Text) : (s.remove name).projects name = none := by
  simp [Server.remove]

/-- An answer of the server itself is one to a call that got through. -/
theorem call_cases {α : Type*} (f : Server → Server × Except ApiError α) (w : World) :
    (∃ message, (call f w).2 = .error (.other message)) ∨
      ((call f w).2 = (f w.found).2 ∧ (call f w).1.server = (f w.found).1) := by
  rw [call]
  split
  · exact .inr ⟨rfl, rfl⟩
  · rename_i message _
    exact .inl ⟨message, rfl⟩
  · rename_i message _
    exact .inl ⟨message, rfl⟩

theorem call_get_ok {p : Project} (h : call (Server.get name) w = (w', .ok p)) :
    w.found.projects name = some p ∧ w'.server = w.found := by
  rcases call_cases (Server.get name) w with ⟨m, hm⟩ | ⟨hr, hs⟩
  · rw [h] at hm
    cases hm
  · rw [h] at hr hs
    rw [Server.get] at hr hs
    split at hr
    · cases hr
    · rename_i q hq
      cases hr
      rw [hq] at hs
      exact ⟨hq, hs⟩

theorem call_get_notFound (h : call (Server.get name) w = (w', .error .notFound)) : w.found.projects name = none := by
  rcases call_cases (Server.get name) w with ⟨m, hm⟩ | ⟨hr, -⟩
  · rw [h] at hm
    cases hm
  · rw [h] at hr
    rw [Server.get] at hr
    split at hr
    · assumption
    · cases hr

theorem call_create_ok {p q : Project} (h : call (Server.create name q) w = (w', .ok p)) :
    w.found.projects name = none ∧ w'.server.projects name = some p := by
  rcases call_cases (Server.create name q) w with ⟨m, hm⟩ | ⟨hr, hs⟩
  · rw [h] at hm
    cases hm
  · rw [h] at hr hs
    rw [Server.create] at hr hs
    split at hr
    · cases hr
    · rename_i hn
      cases hr
      rw [hn] at hs
      refine ⟨hn, ?_⟩
      rw [hs]
      exact put_projects _ _ _

theorem call_create_alreadyExists {q : Project} (h : call (Server.create name q) w = (w', .error .alreadyExists)) :
    ∃ p, w.found.projects name = some p ∧ w'.server = w.found := by
  rcases call_cases (Server.create name q) w with ⟨m, hm⟩ | ⟨hr, hs⟩
  · rw [h] at hm
    cases hm
  · rw [h] at hr hs
    rw [Server.create] at hr hs
    split at hr
    · rename_i p hp
      rw [hp] at hs
      exact ⟨p, hp, hs⟩
    · cases hr

theorem call_updateStatus_ok {p q : Project} (h : call (Server.updateStatus name q) w = (w', .ok p)) :
    ∃ p', w'.server.projects name = some p' ∧ p'.nestedPhase = q.nestedPhase := by
  rcases call_cases (Server.updateStatus name q) w with ⟨m, hm⟩ | ⟨hr, hs⟩
  · rw [h] at hm
    cases hm
  · rw [h] at hr hs
    rw [Server.updateStatus] at hr hs
    split at hr
    · cases hr
    · rename_i current hc
      rw [hc] at hs
      by_cases hv : current.resourceVersion = q.resourceVersion
      · simp only [if_pos hv] at hs
        have hput := put_projects w.found name { current with phase := q.phase }
        rw [← hs] at hput
        exact ⟨_, hput, rfl⟩
      · rw [if_neg hv] at hr
        cases hr

/-- A status update that ends well leaves the phase, if what it is given is what the server has. -/
theorem syncStatus_converged {p : Project} (hp : w.server.projects name = some p)
    (h : (syncStatus p name phase w).2 = none) :
    ∃ q, (syncStatus p name phase w).1.server.projects name = some q ∧ q.nestedPhase = phase := by
  rw [syncStatus] at h ⊢
  split at h
  · rename_i he
    rw [if_pos he]
    exact ⟨p, hp, he⟩
  · rename_i he
    rw [if_neg he]
    rcases hc : call (Server.updateStatus name { p with phase := some phase }) w with ⟨w', _ | q⟩
    · rw [hc] at h
      cases h
    · obtain ⟨q', hq', he'⟩ := call_updateStatus_ok hc
      exact ⟨q', hq', he'⟩

theorem reconcileProject_converged_iff (h : (reconcileProject name phase w).2 = none) :
    (∃ p, (reconcileProject name phase w).1.server.projects name = some p ∧ p.nestedPhase = phase) ↔
      (w.found.projects name = none →
        ∀ p, (call (Server.get name) w).1.found.projects name = some p → p.nestedPhase = phase) := by
  rw [reconcileProject] at h ⊢
  rcases hg : call (Server.get name) w with ⟨u, err | p⟩
  · rw [hg] at h
    cases err with
    | notFound =>
      rcases hc : call (Server.create name newProject) u with ⟨v, err | p⟩
      · simp only [hc] at h ⊢
        cases err with
        | alreadyExists =>
          obtain ⟨q, hq, hv⟩ := call_create_alreadyExists hc
          simp [hv, hq, call_get_notFound hg]
        | notFound | conflict | other => cases h
      · simp only [hc] at h ⊢
        obtain ⟨hn, hp⟩ := call_create_ok hc
        simp only [hn, reduceCtorEq, false_imp_iff, implies_true, iff_true]
        exact syncStatus_converged hp h
    | alreadyExists | conflict | other => cases h
  · rw [hg] at h
    obtain ⟨hp, hu⟩ := call_get_ok hg
    simp only [hp, reduceCtorEq, false_imp_iff, iff_true]
    exact syncStatus_converged (hu ▸ hp) h

theorem deleteProject_converged_iff (h : (deleteProject name w).2 = none) :
    (deleteProject name w).1.server.projects name = none ↔
      ∀ p, w.found.projects name = some p → p.finalizers = [] := by
  rw [deleteProject] at h ⊢
  rcases hd : call (Server.delete name) w with ⟨u, r⟩
  rcases call_cases (Server.delete name) w with ⟨m, hm⟩ | ⟨hr, hs⟩
  · rw [hd] at hm h
    obtain rfl : r = _ := hm
    cases h
  · rw [hd] at hr hs
    obtain rfl : r = _ := hr
    rw [Server.delete] at hs ⊢
    rcases hp : w.found.projects name with _ | p
    · simp [hp] at hs
      simp [hs, hp]
    · by_cases hf : p.finalizers = []
      · simp [hp, hf] at hs
        simp [hf, hs]
      · simp [hp, hf] at hs
        simp [hf, hs]

/-- **When a reconcile without an error has converged.** -/
theorem syncNamespace_converged_iff (namespaceLister : Text → Except ApiError Text) (name : Text) (w : World)
    (h : (syncNamespace namespaceLister name w).2 = none) :
    Converged namespaceLister name (syncNamespace namespaceLister name w).1.server ↔
      Undisturbed namespaceLister name w := by
  rw [syncNamespace] at h ⊢
  rw [Converged, Undisturbed]
  rcases hl : namespaceLister name with err | phase
  · rw [hl] at h
    cases err with
    | notFound => exact deleteProject_converged_iff h
    | alreadyExists | conflict | other => cases h
  · rw [hl] at h
    exact reconcileProject_converged_iff h

/-- What the worker does not take up again has converged, if nothing got in the way. -/
theorem processNextWorkItem_converged {namespaceLister : Text → Except ApiError Text} {q : Workqueue} {items : List Text}
    (hq : q.items = name :: items) (hl : (processNextWorkItem namespaceLister q w).1.later = q.later)
    (hu : Undisturbed namespaceLister name w) :
    Converged namespaceLister name (processNextWorkItem namespaceLister q w).2.server := by
  have hsync := syncNamespace_converged_iff namespaceLister name w
  rw [processNextWorkItem] at hl ⊢
  rw [hq] at hl ⊢
  rcases h : syncNamespace namespaceLister name w with ⟨w', _ | err⟩
  · simp only [h] at hsync ⊢
    exact (hsync trivial).mpr hu
  · simp [h, Workqueue.addRateLimited] at hl

/-- A Namespace that is active, and no other. -/
def activeOnly (name : Text) : Text → Except ApiError Text :=
  fun n => if n = name then .ok "Active".toList else .error .notFound

/-- No Project yet. -/
def noProjects : Server := ⟨fun _ => none, 0⟩

theorem syncNamespace_converged_iff_created :
    (syncNamespace (activeOnly ['p']) ['p'] ⟨noProjects, []⟩).2 = none ∧
      (Converged (activeOnly ['p']) ['p'] (syncNamespace (activeOnly ['p']) ['p'] ⟨noProjects, []⟩).1.server ↔
        Undisturbed (activeOnly ['p']) ['p'] ⟨noProjects, []⟩) :=
  ⟨by rfl, syncNamespace_converged_iff (activeOnly ['p']) ['p'] ⟨noProjects, []⟩ (by rfl)⟩

/-- Another one creates the Project first. -/
def createdMeanwhile : World where
  server := noProjects
  turns := [⟨[], .answered⟩, ⟨[.put ['p'] newProject], .answered⟩]

/-- Its status is not looked at. -/
theorem not_converged_createdMeanwhile :
    ¬ ∀ namespaceLister name w, (syncNamespace namespaceLister name w).2 = none →
      Converged namespaceLister name (syncNamespace namespaceLister name w).1.server := by
  intro h
  have hc : ∃ p, some (Project.mk none [] false 1) = some p ∧ p.nestedPhase = "Active".toList :=
    h (activeOnly ['p']) ['p'] createdMeanwhile (by rfl)
  obtain ⟨p, hp, hphase⟩ := hc
  cases hp
  cases hphase

end OpenshiftConsole.Synchronizer.Projects
