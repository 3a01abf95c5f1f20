import OpenshiftConsole.Library.ControlLoop
import OpenshiftConsole.Synchronizer.Projects

/-!
# The synchronizer's run

The controller watches Namespaces and keeps a Project of the same name for each: the informer's store is the lister,
its handlers put names into the work queue, and workers take them out and reconcile (`syncNamespace`). Here a
reconcile is a worker's calls one by one, so that other workers, others' writes and the informer come in between; the
rest is a control loop with names for keys.

When nothing is left to do about a name, its Project agrees with its Namespace (`projects_agree`), if nobody wrote the
Project since the lister was last read for it: Projects are not watched. The other exception is a Project that was
there at the start with no Namespace. Nothing looks at it, as it is only the informer that names come from.
-/

namespace OpenshiftConsole.Synchronizer.ProjectRuns

open OpenshiftConsole.Library OpenshiftConsole.Library.Runs OpenshiftConsole.Library.ControlLoop
open OpenshiftConsole.Library.Lines (Text)
open Projects hiding syncStatus reconcileProject deleteProject syncNamespace

/-! ### The controller, one call at a time -/

inductive Request where
  | get (name : Text)
  | create (name : Text) (project : Project)
  | updateStatus (name : Text) (project : Project)
  | delete (name : Text)

def Request.name : Request → Text
  | .get name => name
  | .create name _ => name
  | .updateStatus name _ => name
  | .delete name => name

/-- What the API server does. What it answers to a `Delete` is not looked at. -/
def serve : Request → Server → Server × Except ApiError Project
  | .get name, s => s.get name
  | .create name project, s => s.create name project
  | .updateStatus name project, s => s.updateStatus name project
  | .delete name, s =>
    ((s.delete name).1, match s.projects name with
      | none => .error .notFound
      | some p => .ok p)

abbrev Reconcile := Interaction Request (Except ApiError Project) Error Unit

/-- `syncStatus` -/
def syncStatus (project : Project) (name phase : Text) : Reconcile :=
  if project.nestedPhase = phase then .done ()
  else .ask (.updateStatus name { project with phase := some phase }) fun
    | .error err => .fail ⟨"update status of project".toList, name, err⟩
    | .ok _ => .done ()

/-- `reconcileProject` -/
def reconcileProject (name phase : Text) : Reconcile :=
  .ask (.get name) fun
    | .ok project => syncStatus project name phase
    | .error .notFound => .ask (.create name newProject) fun
      | .ok project => syncStatus project name phase
      | .error .alreadyExists => .done ()
      | .error err => .fail ⟨"create project".toList, name, err⟩
    | .error err => .fail ⟨"get project".toList, name, err⟩

/-- `deleteProject` -/
def deleteProject (name : Text) : Reconcile :=
  .ask (.delete name) fun
    | .ok _ => .done ()
    | .error .notFound => .done ()
    | .error err => .fail ⟨"delete project".toList, name, err⟩

/-- `syncNamespace`, of a name and the phase that the Namespace in the informer's store has. -/
def syncNamespace (name : Text) : Option Text → Reconcile
  | none => deleteProject name
  | some phase => reconcileProject name phase

/-- `Controller`, and the API server's Projects. Others put them, or take them away. -/
def controller : Loop Text Text Server Request (Except ApiError Project) Error Text (Option Project) where
  reconcile := syncNamespace
  serve := serve
  failure message := .error (.other message)
  write name p s := s.write (match p with
    | none => .remove name
    | some p => .put name p)

/-- What there is of a name. -/
def view (name : Text) (s : Server) : Option Project := s.projects name

/-- The Project agrees with the Namespace, or is on its way out after it. -/
def Agrees (_ : Text) (namespacePhase : Option Text) (project : Option Project) : Prop :=
  match namespacePhase with
  | some phase => ∃ p, project = some p ∧ p.nestedPhase = phase
  | none => ∀ p, project = some p → p.deleting = true

/-- What a reconcile asks about a name, of whose Namespace the lister had `v`. -/
inductive Proper (name : Text) : Option Text → Request → Prop where
  | get {phase} : Proper name (some phase) (.get name)
  | create {phase} : Proper name (some phase) (.create name newProject)
  | updateStatus {phase p} (h : p.phase = some phase) : Proper name (some phase) (.updateStatus name p)
  | delete : Proper name none (.delete name)

/-- What a reconcile may make of a Project, of whose Namespace the lister had `v`. -/
inductive Changes : Option Text → Option Project → Option Project → Prop where
  | same {v project} : Changes v project project
  | created {phase resourceVersion} : Changes (some phase) none (some { newProject with resourceVersion })
  | updated {phase p resourceVersion} :
    Changes (some phase) (some p) (some { p with phase := some phase, resourceVersion })
  | deleted {p} (h : p.finalizers = []) : Changes none (some p) none
  | deleting {p resourceVersion} : Changes none (some p) (some { p with deleting := true, resourceVersion })

abbrev System := State Text Text Server Request (Except ApiError Project) Error

/-! ### It is the same `syncNamespace` -/

/-- The calls of a reconcile, in a world. -/
def perform : Reconcile → World → World × Option Error
  | .done _, w => (w, none)
  | .fail err, w => (w, some err)
  | .ask q f, w =>
    let (w, r) := call (serve q) w
    perform (f r) w

/-- The lister of the informer's store. -/
def listerOf (store : Text → Option Text) (name : Text) : Except ApiError Text :=
  match store name with
  | none => .error .notFound
  | some phase => .ok phase

variable {name phase : Text} {w : World} {s : Server} {p : Project}

theorem perform_syncStatus : perform (syncStatus p name phase) w = Projects.syncStatus p name phase w := by
  rw [syncStatus, Projects.syncStatus]
  split
  · rfl
  · rw [perform]
    have hserve : call (serve (.updateStatus name { p with phase := some phase })) w =
        call (Server.updateStatus name { p with phase := some phase }) w := rfl
    rw [hserve]
    rcases call (Server.updateStatus name { p with phase := some phase }) w with ⟨w', _ | _⟩ <;> rfl

theorem perform_reconcileProject :
    perform (reconcileProject name phase) w = Projects.reconcileProject name phase w := by
  have hget : call (serve (.get name)) w = call (Server.get name) w := rfl
  rw [reconcileProject, Projects.reconcileProject, perform, hget]
  rcases call (Server.get name) w with ⟨w', err | p⟩
  · cases err with
    | notFound =>
      have hcreate : call (serve (.create name newProject)) w' = call (Server.create name newProject) w' := rfl
      simp only [perform, hcreate]
      rcases call (Server.create name newProject) w' with ⟨w'', err | p⟩
      · cases err <;> rfl
      · exact perform_syncStatus
    | alreadyExists | conflict | other => rfl
  · exact perform_syncStatus

theorem perform_deleteProject : perform (deleteProject name) w = Projects.deleteProject name w := by
  rw [deleteProject, Projects.deleteProject, perform, call, call]
  cases w.reach with
  | answered =>
    simp only [serve, Server.delete]
    cases w.found.projects name with
    | none => rfl
    | some p =>
      dsimp only
      split <;> rfl
  | refused message => rfl
  | lost message => rfl

/-- A reconcile's calls, taken together, are `Projects.syncNamespace`. -/
theorem perform_syncNamespace (store : Text → Option Text) :
    perform (syncNamespace name (store name)) w = Projects.syncNamespace (listerOf store) name w := by
  rw [Projects.syncNamespace, listerOf]
  cases store name with
  | none => exact perform_deleteProject
  | some phase => exact perform_reconcileProject

/-! ### What a reconcile does alone -/

/-- It is about this name. -/
theorem proper_name {v : Option Text} {q : Request} (h : Proper name v q) : q.name = name := by
  cases h <;> rfl

theorem meets_syncStatus {h : Interaction.History Request (Except ApiError Project)} :
    (syncStatus p name phase).Meets (fun _ q => Proper name (some phase) q) (fun _ _ => True) h := by
  rw [syncStatus]
  split
  · trivial
  · refine ⟨.updateStatus rfl, fun r => ?_⟩
    cases r <;> trivial

theorem meets_syncNamespace {v : Option Text} {h : Interaction.History Request (Except ApiError Project)} :
    (syncNamespace name v).Meets (fun _ q => Proper name v q) (fun _ _ => True) h := by
  cases v with
  | none =>
    refine ⟨.delete, fun r => ?_⟩
    cases r with
    | error err => cases err <;> trivial
    | ok p => trivial
  | some phase =>
    refine ⟨.get, fun r => ?_⟩
    cases r with
    | ok p => exact meets_syncStatus
    | error err =>
      cases err with
      | notFound =>
        refine ⟨.create, fun r => ?_⟩
        cases r with
        | ok p => exact meets_syncStatus
        | error err => cases err <;> trivial
      | alreadyExists | conflict | other => trivial

/-- A request leaves the other names alone. -/
theorem view_serve {q : Request} (h : name ≠ q.name) : view name (serve q s).1 = view name s := by
  have hput (s : Server) (p : Project) (n : Text) (hn : name ≠ n) : (s.put n p).1.projects name = s.projects name :=
    Function.update_of_ne hn ..
  cases q with
  | get n =>
    rw [serve, Server.get]
    split <;> rfl
  | create n p =>
    rw [serve, Server.create]
    split
    · rfl
    · exact hput s _ n h
  | updateStatus n p =>
    rw [serve, Server.updateStatus]
    split
    · rfl
    · split
      · exact hput s _ n h
      · rfl
  | delete n =>
    rw [serve, Server.delete]
    split
    · rfl
    · split
      · exact Function.update_of_ne h ..
      · exact hput s _ n h

theorem framed : Framed controller view where
  write w s hk := by
    cases w with
    | none => exact Function.update_of_ne hk ..
    | some p => exact Function.update_of_ne hk ..
  asks hq hk s := by
    have hname : Request.name _ = _ := proper_name (meets_syncNamespace.asks hq)
    exact view_serve (hname ▸ hk)

theorem serve_get_none (h : s.projects name = none) : serve (.get name) s = (s, .error .notFound) := by
  rw [serve, Server.get, h]

theorem serve_get_some (h : s.projects name = some p) : serve (.get name) s = (s, .ok p) := by
  rw [serve, Server.get, h]

/-- What is created is what is answered. -/
theorem serve_create (h : s.projects name = none) :
    ∃ s' p, serve (.create name newProject) s = (s', .ok p) ∧ s'.projects name = some p := by
  refine ⟨_, _, ?_, put_projects s name { newProject with phase := none }⟩
  rw [serve, Server.create, h]

theorem serve_delete_none (h : s.projects name = none) : serve (.delete name) s = (s, .error .notFound) := by
  rw [serve, Server.delete, h]

/-- What is deleted is gone, or on its way out. -/
theorem serve_delete_some (h : s.projects name = some p) :
    ∃ s', serve (.delete name) s = (s', .ok p) ∧ ∀ p', s'.projects name = some p' → p'.deleting = true := by
  simp only [serve, Server.delete, h]
  split
  · exact ⟨_, rfl, by simp⟩
  · refine ⟨_, rfl, fun p' hp => ?_⟩
    rw [put_projects] at hp
    exact Option.some_inj.mp hp ▸ rfl

theorem serve_updateStatus (h : s.projects name = some p) :
    serve (.updateStatus name { p with phase := some phase }) s =
      ((s.put name { p with phase := some phase }).1, .ok (s.put name { p with phase := some phase }).2) := by
  rw [serve, Server.updateStatus, h]
  exact if_pos rfl

theorem leads_syncStatus :
    Leads controller (view name) (Agrees name (some phase)) (syncStatus p name phase) (some p) := by
  rw [syncStatus]
  split
  · rename_i h
    exact ⟨p, rfl, h⟩
  · intro s hs
    refine ⟨?_, fun m => ⟨trivial, trivial⟩⟩
    simp only [controller, serve_updateStatus hs]
    exact ⟨_, put_projects s name _, rfl⟩

/-- Undisturbed, a reconcile ends with an agreement, or fails. -/
theorem leads_syncNamespace (name : Text) (v : Option Text) (x : Option Project) :
    Leads controller (view name) (Agrees name v) (syncNamespace name v) x := by
  cases v with
  | none =>
    intro s hs
    refine ⟨?_, fun m => ⟨trivial, trivial⟩⟩
    cases x with
    | none =>
      simp only [controller, serve_delete_none hs]
      intro p hp
      exact absurd (hs.symm.trans hp) (by simp)
    | some p =>
      obtain ⟨s', hserve, hgone⟩ := serve_delete_some hs
      simp only [controller, hserve]
      exact hgone
  | some phase =>
    intro s hs
    refine ⟨?_, fun m => ⟨trivial, trivial⟩⟩
    cases x with
    | none =>
      simp only [controller, serve_get_none hs]
      intro t ht
      refine ⟨?_, fun m => ⟨trivial, trivial⟩⟩
      obtain ⟨t', p, hserve, hp⟩ := serve_create (ht.trans hs)
      simp only [hserve, view, hp]
      exact leads_syncStatus
    | some p =>
      simp only [controller, serve_get_some hs, view, show s.projects name = some p from hs]
      exact leads_syncStatus

theorem succeeds_syncStatus {n : ℕ} :
    Succeeds controller (view name) (syncStatus p name phase) (n + 1) (some p) := by
  rw [syncStatus]
  split
  · trivial
  · refine ⟨n, rfl, fun s hs => ?_⟩
    simp only [controller, serve_updateStatus hs]
    trivial

/-- Undisturbed, and with each call answered, a reconcile does not fail. -/
theorem succeeds_syncNamespace (name : Text) (v : Option Text) (x : Option Project) :
    Succeeds controller (view name) (syncNamespace name v) 3 x := by
  cases v with
  | none =>
    refine ⟨2, rfl, fun s hs => ?_⟩
    cases x with
    | none =>
      simp only [controller, serve_delete_none hs]
      trivial
    | some p =>
      obtain ⟨s', hserve, -⟩ := serve_delete_some hs
      simp only [controller, hserve]
      trivial
  | some phase =>
    refine ⟨2, rfl, fun s hs => ?_⟩
    cases x with
    | none =>
      simp only [controller, serve_get_none hs]
      refine ⟨1, rfl, fun t ht => ?_⟩
      obtain ⟨t', p, hserve, hp⟩ := serve_create (ht.trans hs)
      simp only [hserve, view, hp]
      exact succeeds_syncStatus
    | some p =>
      simp only [controller, serve_get_some hs, view, show s.projects name = some p from hs]
      exact succeeds_syncStatus

theorem bounded_syncStatus {n : ℕ} : Bounded (syncStatus p name phase) (n + 1) := by
  rw [syncStatus]
  split
  · trivial
  · refine ⟨n, rfl, fun r => ?_⟩
    cases r <;> trivial

/-- Whatever is answered, a reconcile makes three calls at most. -/
theorem bounded_syncNamespace (name : Text) (v : Option Text) : Bounded (syncNamespace name v) 3 := by
  cases v with
  | none =>
    refine ⟨2, rfl, fun r => ?_⟩
    cases r with
    | error err => cases err <;> trivial
    | ok p => trivial
  | some phase =>
    refine ⟨2, rfl, fun r => ?_⟩
    cases r with
    | ok p => exact bounded_syncStatus
    | error err =>
      cases err with
      | notFound =>
        refine ⟨1, rfl, fun r => ?_⟩
        cases r with
        | ok p => exact bounded_syncStatus
        | error err => cases err <;> trivial
      | alreadyExists | conflict | other => trivial

/-- A request changes a Project only so. -/
theorem changes_serve {v : Option Text} {q : Request} (h : Proper name v q) :
    Changes v (s.projects name) ((serve q s).1.projects name) := by
  cases h with
  | get =>
    rw [serve, Server.get]
    split <;> exact .same
  | create =>
    rw [serve, Server.create]
    split
    · exact .same
    · rename_i hnone
      rw [put_projects, hnone]
      exact .created
  | updateStatus hp =>
    rename_i phase p
    rw [serve, Server.updateStatus]
    split
    · exact .same
    · rename_i current hcurrent
      split
      · rw [put_projects, hcurrent, hp]
        exact .updated
      · exact .same
  | delete =>
    rw [serve, Server.delete]
    rcases hp : s.projects name with _ | p
    · simp only [hp]
      exact .same
    · dsimp only
      split
      · rename_i hf
        rw [remove_projects]
        exact .deleted hf
      · rw [put_projects]
        exact .deleting

/-! ### Runs -/

abbrev Run := List (Text × Event Text Text (Option Project))

variable {server : Server} {es es' : Run} {t t' : System} {e : Event Text Text (Option Project)}

/-- **When nothing is left to do about a name, its Project agrees with its Namespace**: the one the API server has,
unless others wrote the Project since the lister was last read for it. What was there without a Namespace stays. -/
theorem projects_agree (hrun : run (step controller) (init server) es = some t) (hrest : (t.keys name).Rest)
    (hd : ¬ Disturbed name es) :
    Agrees name (t.keys name).source (t.server.projects name) ∨
      (t.keys name).source = none ∧ (name, .read) ∉ es ∧ t.server.projects name = server.projects name :=
  agrees_of_rest framed leads_syncNamespace hrun hrest hd

/-- A Namespace appears. -/
def announced : Run := [(['p'], .source (some "Active".toList))]

/-- A Project is created for it, and given its phase. -/
def mirrored : Run :=
  [(['p'], .deliver), (['p'], .notify), (['p'], .take), (['p'], .read), (['p'], .answered), (['p'], .answered),
    (['p'], .answered), (['p'], .finish)]

theorem not_disturbed_mirrored : ¬ Disturbed ['p'] (announced ++ mirrored) := by
  rintro ⟨l, w, r, h, -⟩
  have hmem : (['p'], .write w) ∈ announced ++ mirrored := h ▸ List.mem_append_right l List.mem_cons_self
  simp [announced, mirrored] at hmem

theorem projects_agree_mirrored : ∃ t, run (step controller) (init noProjects) (announced ++ mirrored) = some t ∧
    (Agrees ['p'] (t.keys ['p']).source (t.server.projects ['p']) ∨
      (t.keys ['p']).source = none ∧ (['p'], .read) ∉ announced ++ mirrored ∧
        t.server.projects ['p'] = noProjects.projects ['p']) :=
  ⟨_, rfl, projects_agree rfl ⟨rfl, rfl, rfl, rfl, rfl⟩ not_disturbed_mirrored⟩

/-- **What the controller writes.** A step that is none of others' writes changes nothing but the Project of its own
name, by a call of a worker, who read the lister for it: the Project is created, or given the phase of a version of the
Namespace, or deleted where the lister had none; and the name had a Namespace since the start. -/
theorem projects_confined (hrun : run (step controller) (init server) es = some t)
    (hstep : step controller t (name, e) = some t') (he : ∀ w, e ≠ .write w) :
    (∀ n ≠ name, t'.server.projects n = t.server.projects n) ∧
      (t'.server.projects name = t.server.projects name ∨
        ∃ v todo, (t.keys name).task = some (.running v todo) ∧
          Changes v (t.server.projects name) (t'.server.projects name) ∧
          (∀ phase, v = some phase → (name, .source (some phase)) ∈ es) ∧
          ∃ phase, (name, .source (some phase)) ∈ es) := by
  have hleft := (inv_run framed leads_syncNamespace hrun).left name
  have hknown := known_run hrun name
  obtain ⟨hown, -⟩ := step_cases hstep
  refine ⟨fun n hn => hown.frame framed hleft hn, ?_⟩
  have called {v : Option Text} {q : Request} {f : Except ApiError Project → Reconcile}
      (ht : (t.keys name).task = some (.running v (.ask q f)))
      (hserver : t'.server = (serve q t.server).1) : ∃ v todo, (t.keys name).task = some (.running v todo) ∧
        Changes v (t.server.projects name) (t'.server.projects name) ∧
        (∀ phase, v = some phase → (name, .source (some phase)) ∈ es) ∧
        ∃ phase, (name, .source (some phase)) ∈ es := by
    obtain ⟨past, hq⟩ := (hleft v _ ht).asks .here
    refine ⟨v, _, ht, hserver ▸ changes_serve (meets_syncNamespace.asks hq), ?_, ?_⟩
    · rintro phase rfl
      exact hknown.task phase _ ht
    · by_contra hno
      have hidle := (hknown.idle fun phase hphase => hno ⟨phase, hphase⟩).2.2.2
      exact absurd (ht.symm.trans hidle) (Option.some_ne_none _)
  generalize hserver : t'.server = s at hown called ⊢
  generalize hkey : t'.keys name = x at hown
  cases hown with
  | write w => exact absurd rfl (he w)
  | answered ht => exact .inr (called ht rfl)
  | lost m ht => exact .inr (called ht rfl)
  | source | skip | quiet | deliver | resync | notify | due | take | read | refused | done | failed => exact .inl rfl

theorem projects_confined_mirrored : ∃ t t', run (step controller) (init noProjects) (announced ++ mirrored.take 5) =
    some t ∧ step controller t (['p'], .answered) = some t' ∧
      ∀ n ≠ ['p'], t'.server.projects n = t.server.projects n :=
  ⟨_, _, rfl, rfl, (projects_confined
    (rfl : run (step controller) (init noProjects) (announced ++ mirrored.take 5) = _) rfl
    (show ∀ w, (.answered : Event Text Text (Option Project)) ≠ .write w by simp)).1⟩

end OpenshiftConsole.Synchronizer.ProjectRuns
