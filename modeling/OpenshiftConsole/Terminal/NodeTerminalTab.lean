import OpenshiftConsole.Library.Lines
import OpenshiftConsole.Library.Runs

/-!
# The node terminal's debug namespaces

The effect of `NodeTerminalTab` makes a privileged namespace and, once it is ready, a debug
pod in it. Each run of the effect is a closure of its own: what it knows of its namespace is
in a variable of that closure, and so are what it still waits for and what it has asked of the
API server. Its clean-up deletes the namespace that the variable names; nothing tells the
effect that it was cleaned up.

A state holds the effects that were ever run, the one whose clean-up React holds, and what the
tab shows. An effect's `log` is not in the source: it records, in order, what the effect asked
for, the namespace it was given, and when it was cleaned up.

When the tab is unmounted and nothing is pending, no namespace is left and no pod was asked
for too late exactly if each effect that was cleaned up before it had asked for its pod failed
before it could (`tidy_iff`).
-/

namespace OpenshiftConsole.Terminal.NodeTerminalTab

open OpenshiftConsole.Library.Lines (Text)
open OpenshiftConsole.Library.Runs

/-! ### An effect -/

/-- What `createDebugPod` waits for. -/
inductive Stage where
  | creatingNamespace | gettingUsername | gettingPod | waiting | creatingPod
  /-- It has returned. -/
  | ended
deriving DecidableEq

/-- The pod has not been asked for, and may still be. -/
def Stage.beforePod : Stage → Bool
  | .creatingNamespace | .gettingUsername | .gettingPod | .waiting => true
  | .creatingPod | .ended => false

/-- What an effect did, or what was done to it. -/
inductive Act where
  | createNamespace
  | namespaceCreated (name : Text)
  | createPod (name debugNamespace : Text)
  | deleteNamespace (name : Text)
  | cleanedUp
deriving DecidableEq

structure Effect where
  /-- The mounting of the tab it belongs to. -/
  tab : ℕ
  nodeName : Text
  /-- `namespace?.metadata?.name`, empty while there is none. -/
  debugNamespace : Text
  stage : Stage
  log : List Act
deriving DecidableEq

/-- How what an effect waits for ends. -/
inductive Progress where
  | namespaceCreated (name : Text)
  | namespaceFailed (message : Text)
  /-- `getCurrentUsername` never fails. -/
  | gotUsername
  | gotPod
  | podNotGot (message : Text)
  | waited
  | podCreated (answered : Bool)
  | podFailed (message : Text)
deriving DecidableEq

/-- What an effect changes of what the tab shows. -/
inductive Shown where
  | nothing
  | pod (name debugNamespace : Text)
  | error (message : Text)

/-- The effect after its first step, which asks for the namespace. -/
def Effect.start (tab : ℕ) (nodeName : Text) : Effect where
  tab
  nodeName
  debugNamespace := []
  stage := .creatingNamespace
  log := [.createNamespace]

/-- `if (namespace?.metadata?.name) deleteNamespace(…)` -/
def Effect.delete (f : Effect) : Effect :=
  if f.debugNamespace = [] then f else { f with log := f.log ++ [.deleteNamespace f.debugNamespace] }

/-- `${nodeName.replace(/\./g, '-')}-debug` -/
def podName (nodeName : Text) : Text := nodeName.map (fun c => if c = '.' then '-' else c) ++ "-debug".toList

/-- The `catch` of `createDebugPod`. -/
def Effect.fail (f : Effect) (message : Text) : Effect × Shown := ({ f.delete with stage := .ended }, .error message)

/-- `createDebugPod`, from one `await` to the next. -/
def Effect.advance (f : Effect) (p : Progress) : Option (Effect × Shown) :=
  match f.stage, p with
  | .creatingNamespace, .namespaceCreated name =>
    let f := { f with debugNamespace := name, log := f.log ++ [Act.namespaceCreated name] }
    if name = [] then some (f.fail "Debug namespace was created without a name.".toList)
    else some ({ f with stage := .gettingUsername }, .nothing)
  | .creatingNamespace, .namespaceFailed message => some (f.fail message)
  | .gettingUsername, .gotUsername => some ({ f with stage := .gettingPod }, .nothing)
  | .gettingPod, .gotPod => some ({ f with stage := .waiting }, .nothing)
  | .gettingPod, .podNotGot message => some (f.fail message)
  | .waiting, .waited =>
    some ({ f with stage := .creatingPod, log := f.log ++ [.createPod (podName f.nodeName) f.debugNamespace] }, .nothing)
  | .creatingPod, .podCreated answered =>
    some ({ f with stage := .ended }, if answered then .pod (podName f.nodeName) f.debugNamespace else .nothing)
  | .creatingPod, .podFailed message => some (f.fail message)
  | _, _ => none

/-- What the effect returns to React. -/
def Effect.cleanUp (f : Effect) : Effect := { f with log := f.log ++ [Act.cleanedUp] }.delete

/-! ### The tab -/

structure State where
  /-- How often the tab was mounted. -/
  tabs : ℕ
  mounted : Bool
  /-- `node?.metadata?.name`, empty if there is none. -/
  nodeName : Text
  effects : List Effect
  /-- The effect whose clean-up React holds. -/
  current : Option ℕ
  podName : Text
  podNamespace : Text
  errorMessage : Text
deriving DecidableEq

inductive Event where
  | mount (nodeName : Text)
  /-- The tab renders, for a node that may be another one. -/
  | render (nodeName : Text)
  | unmount
  /-- `closeTab`; the page may stay. -/
  | beforeUnload
  | progress (i : ℕ) (p : Progress)

/-- Nothing was mounted yet. -/
def init : State where
  tabs := 0
  mounted := false
  nodeName := []
  effects := []
  current := none
  podName := []
  podNamespace := []
  errorMessage := []

/-- The clean-up of the effect that React holds, if it holds one. -/
def State.cleanUp (s : State) : State :=
  match s.current with
  | none => s
  | some i => { s with effects := s.effects.modify i Effect.cleanUp, current := none }

/-- The effect runs for a node. -/
def State.runEffect (s : State) (nodeName : Text) : State :=
  if nodeName = [] then { s with nodeName }
  else { s with nodeName, effects := s.effects ++ [.start s.tabs nodeName], current := some s.effects.length }

/-- `setPodName`, `setPodNamespace` and `setErrorMessage`, which do nothing on a tab that is no longer mounted. -/
def State.show (s : State) (tab : ℕ) (shown : Shown) : State :=
  if s.mounted ∧ tab = s.tabs then
    match shown with
    | .nothing => s
    | .pod name debugNamespace => { s with podName := name, podNamespace := debugNamespace }
    | .error message => { s with errorMessage := message }
  else s

def step (s : State) : Event → Option State
  | .mount nodeName =>
    if s.mounted then none
    else
      let s := { s with tabs := s.tabs + 1, mounted := true, podName := [], podNamespace := [], errorMessage := [] }
      some (s.runEffect nodeName)
  | .render nodeName =>
    if s.mounted then some (if nodeName = s.nodeName then s else s.cleanUp.runEffect nodeName) else none
  | .unmount => if s.mounted then some { s.cleanUp with mounted := false } else none
  | .beforeUnload =>
    match s.current with
    | none => some s
    | some i => some { s with effects := s.effects.modify i Effect.delete }
  | .progress i p =>
    match s.effects[i]? with
    | none => none
    | some f => (f.advance p).map fun o => State.show { s with effects := s.effects.set i o.1 } f.tab o.2

/-! ### What is asked of a run -/

/-- The tab is unmounted and nothing is pending any more. -/
def Settled (s : State) : Prop := s.mounted = false ∧ ∀ f ∈ s.effects, f.stage = .ended

/-- A pod was asked for after the clean-up. -/
def Late (log : List Act) : Prop :=
  ∃ l name debugNamespace r, log = l ++ .createPod name debugNamespace :: r ∧ .cleanedUp ∈ l

/-- No namespace is left, and no pod was asked for too late. -/
def Tidy (s : State) : Prop :=
  ∀ f ∈ s.effects, (∀ name, .namespaceCreated name ∈ f.log → .deleteNamespace name ∈ f.log) ∧ ¬ Late f.log

/-- The event cleans up the effect. -/
def Leaves (s : State) (e : Event) (i : ℕ) : Prop :=
  s.current = some i ∧ (e = .unmount ∨ ∃ nodeName, e = .render nodeName ∧ nodeName ≠ s.nodeName)

/-- What ends an effect before it has asked for its pod. -/
def Progress.fails : Progress → Bool
  | .namespaceCreated name => name = []
  | .namespaceFailed _ | .podNotGot _ => true
  | _ => false

/-! ### What a step does to an effect -/

section Delete

variable (f : Effect)

@[simp] theorem delete_stage : f.delete.stage = f.stage := by
  rw [Effect.delete]
  split <;> rfl

@[simp] theorem delete_debugNamespace : f.delete.debugNamespace = f.debugNamespace := by
  rw [Effect.delete]
  split <;> rfl

theorem delete_log : f.delete.log =
    f.log ++ if f.debugNamespace = [] then [] else [.deleteNamespace f.debugNamespace] := by
  rw [Effect.delete]
  split <;> simp

theorem mem_delete_log {f : Effect} {a : Act} :
    a ∈ f.delete.log ↔ a ∈ f.log ∨ f.debugNamespace ≠ [] ∧ a = .deleteNamespace f.debugNamespace := by
  rw [delete_log, List.mem_append]
  split <;> simp_all

end Delete

/-- How an effect goes on. -/
inductive Advances (f : Effect) : Progress → Effect → Prop where
  | named {name : Text} (hs : f.stage = .creatingNamespace) (hn : name ≠ []) :
    Advances f (.namespaceCreated name)
      { f with debugNamespace := name, log := f.log ++ [.namespaceCreated name], stage := .gettingUsername }
  | nameless (hs : f.stage = .creatingNamespace) :
    Advances f (.namespaceCreated []) { f with debugNamespace := [], log := f.log ++ [.namespaceCreated []], stage := .ended }
  | failed {p : Progress} (hs : f.stage.beforePod) (hp : p.fails) (hn : p ≠ .namespaceCreated []) :
    Advances f p { f.delete with stage := .ended }
  | next {p : Progress} {stage : Stage} (hs : f.stage.beforePod) (hf : f.stage ≠ .creatingNamespace)
    (hs' : stage.beforePod) (hn : stage ≠ .creatingNamespace) (hp : p.fails = false) : Advances f p { f with stage }
  | asked (hs : f.stage = .waiting) :
    Advances f .waited
      { f with stage := .creatingPod, log := f.log ++ [.createPod (podName f.nodeName) f.debugNamespace] }
  | made {answered : Bool} (hs : f.stage = .creatingPod) : Advances f (.podCreated answered) { f with stage := .ended }
  | notMade {message : Text} (hs : f.stage = .creatingPod) :
    Advances f (.podFailed message) { f.delete with stage := .ended }

theorem advances {f f' : Effect} {p : Progress} {shown : Shown} (h : f.advance p = some (f', shown)) :
    Advances f p f' := by
  unfold Effect.advance at h
  split at h
  case h_1 name hs =>
    by_cases hn : name = []
    · subst hn
      obtain ⟨rfl, -⟩ : _ ∧ _ := by simpa [Effect.fail, Effect.delete] using h
      exact .nameless hs
    · obtain ⟨rfl, -⟩ : _ ∧ _ := by simpa [hn] using h
      exact .named hs hn
  case h_2 message hs | h_5 message hs =>
    obtain ⟨rfl, -⟩ := Prod.mk.injEq .. ▸ Option.some_inj.mp h
    exact .failed (by rw [hs]; rfl) (by rfl) (by simp)
  case h_3 hs | h_4 hs =>
    obtain ⟨rfl, -⟩ : _ ∧ _ := by simpa using h
    exact .next (by rw [hs]; rfl) (by rw [hs]; decide) rfl (by decide) rfl
  case h_6 hs =>
    obtain ⟨rfl, -⟩ : _ ∧ _ := by simpa using h
    exact .asked hs
  case h_7 answered hs =>
    obtain ⟨rfl, -⟩ : _ ∧ _ := by simpa using h
    exact .made hs
  case h_8 message hs =>
    obtain ⟨rfl, -⟩ := Prod.mk.injEq .. ▸ Option.some_inj.mp h
    exact .notMade hs
  case h_9 => cases h

/-- What an event does to an effect. -/
inductive Changes (s : State) (e : Event) (i : ℕ) (f : Effect) : Effect → Prop where
  | advanced {p : Progress} {f' : Effect} (he : e = .progress i p) (h : Advances f p f') : Changes s e i f f'
  | cleanedUp (h : Leaves s e i) : Changes s e i f f.cleanUp
  | closing (he : e = .beforeUnload) : Changes s e i f f.delete
  | kept (he : ∀ p, e ≠ .progress i p) (hl : ¬ Leaves s e i) : Changes s e i f f

@[simp] theorem show_effects (s : State) (tab : ℕ) (shown : Shown) : (s.show tab shown).effects = s.effects := by
  unfold State.show
  split
  · cases shown <;> rfl
  · rfl

theorem runEffect_effects (s : State) (nodeName : Text) :
    (s.runEffect nodeName).effects = s.effects ++ if nodeName = [] then [] else [.start s.tabs nodeName] := by
  rw [State.runEffect]
  split <;> simp

theorem runEffect_getElem? {s : State} {i : ℕ} {f : Effect} (nodeName : Text) (hi : s.effects[i]? = some f) :
    (s.runEffect nodeName).effects[i]? = some f := by
  rw [runEffect_effects, List.getElem?_append_left (List.getElem?_eq_some_iff.mp hi).1, hi]

theorem cleanUp_getElem? {s : State} {i : ℕ} {f : Effect} (hi : s.effects[i]? = some f) :
    s.cleanUp.effects[i]? = some (if s.current = some i then f.cleanUp else f) := by
  rw [State.cleanUp]
  split
  · rename_i hc
    rw [hi, hc, if_neg (by simp)]
  · rename_i j hc
    rw [hc, List.getElem?_modify, hi]
    by_cases hj : j = i <;> simp [hj]

theorem step_effect {s s' : State} {e : Event} {i : ℕ} {f : Effect} (h : step s e = some s')
    (hi : s.effects[i]? = some f) : ∃ f', s'.effects[i]? = some f' ∧ Changes s e i f f' := by
  cases e with
  | mount nodeName =>
    obtain ⟨-, rfl⟩ : _ ∧ _ := by simpa [step] using h
    exact ⟨f, runEffect_getElem? nodeName hi, .kept (fun p => by simp) (fun hl => by simp [Leaves] at hl)⟩
  | render nodeName =>
    obtain ⟨-, rfl⟩ : _ ∧ _ := by simpa [step] using h
    by_cases hn : nodeName = s.nodeName
    · refine ⟨f, by rw [if_pos hn, hi], .kept (fun p => by simp) (fun hl => ?_)⟩
      simp [Leaves, hn] at hl
    · rw [if_neg hn]
      refine ⟨_, runEffect_getElem? nodeName (cleanUp_getElem? hi), ?_⟩
      split
      · rename_i hc
        exact .cleanedUp ⟨hc, .inr ⟨nodeName, rfl, hn⟩⟩
      · rename_i hc
        exact .kept (fun p => by simp) (fun hl => hc hl.1)
  | unmount =>
    obtain ⟨-, rfl⟩ : _ ∧ _ := by simpa [step] using h
    refine ⟨_, cleanUp_getElem? hi, ?_⟩
    split
    · rename_i hc
      exact .cleanedUp ⟨hc, .inl rfl⟩
    · rename_i hc
      exact .kept (fun p => by simp) (fun hl => hc hl.1)
  | beforeUnload =>
    simp only [step] at h
    split at h
    · obtain rfl := Option.some_inj.mp h
      exact ⟨f, hi, .kept (fun p => by simp) (fun hl => by simp [Leaves] at hl)⟩
    · rename_i j hc
      obtain rfl := Option.some_inj.mp h
      rw [List.getElem?_modify, hi]
      by_cases hj : j = i
      · exact ⟨f.delete, by simp [hj], .closing rfl⟩
      · exact ⟨f, by simp [hj], .kept (fun p => by simp) (fun hl => by simp [Leaves] at hl)⟩
  | progress j p =>
    simp only [step] at h
    split at h
    · cases h
    · rename_i g hg
      obtain ⟨⟨g', shown⟩, hg', rfl⟩ := Option.map_eq_some_iff.mp h
      by_cases hj : j = i
      · subst hj
        obtain rfl : f = g := Option.some_inj.mp (hi.symm.trans hg)
        refine ⟨g', ?_, .advanced rfl (advances hg')⟩
        rw [show_effects, List.getElem?_set_self (List.getElem?_eq_some_iff.mp hi).1]
      · refine ⟨f, ?_, .kept (fun q hq => hj (by cases hq; rfl)) (fun hl => by simp [Leaves] at hl)⟩
        rw [show_effects, List.getElem?_set_ne hj, hi]

theorem runEffect_new {s : State} {i : ℕ} {f : Effect} {nodeName : Text}
    (hf : (s.runEffect nodeName).effects[i]? = some f) (hi : s.effects[i]? = none) :
    (∃ tab, f = .start tab nodeName) ∧ (s.runEffect nodeName).current = some i := by
  have hle := List.getElem?_eq_none_iff.mp hi
  rw [runEffect_effects, List.getElem?_append_right hle] at hf
  by_cases hn : nodeName = []
  · simp [hn] at hf
  · rw [if_neg hn] at hf
    obtain ⟨hlt, rfl⟩ := List.getElem?_eq_some_iff.mp hf
    have hlen : s.effects.length = i := by
      rw [List.length_singleton] at hlt
      omega
    refine ⟨⟨s.tabs, by simp⟩, ?_⟩
    simp [State.runEffect, hn, hlen]

theorem cleanUp_none {s : State} {i : ℕ} (hi : s.effects[i]? = none) : s.cleanUp.effects[i]? = none := by
  rw [State.cleanUp]
  split
  · exact hi
  · rw [List.getElem?_modify, hi]
    rfl

/-- An effect that was not there has only started, and React holds its clean-up. -/
theorem step_new {s s' : State} {e : Event} {i : ℕ} {f : Effect} (h : step s e = some s')
    (hi : s.effects[i]? = none) (hf : s'.effects[i]? = some f) :
    (∃ tab nodeName, f = .start tab nodeName) ∧ s'.current = some i := by
  cases e with
  | mount nodeName =>
    obtain ⟨-, rfl⟩ : _ ∧ _ := by simpa [step] using h
    obtain ⟨⟨tab, hf⟩, hc⟩ := runEffect_new hf hi
    exact ⟨⟨tab, nodeName, hf⟩, hc⟩
  | render nodeName =>
    obtain ⟨-, rfl⟩ : _ ∧ _ := by simpa [step] using h
    split at hf
    · exact absurd (hi.symm.trans hf) (by simp)
    · rename_i hn
      obtain ⟨⟨tab, hf⟩, hc⟩ := runEffect_new hf (cleanUp_none hi)
      exact ⟨⟨tab, nodeName, hf⟩, by rw [if_neg hn, hc]⟩
  | unmount =>
    obtain ⟨-, rfl⟩ : _ ∧ _ := by simpa [step] using h
    exact absurd ((cleanUp_none hi).symm.trans hf) (by simp)
  | beforeUnload =>
    simp only [step] at h
    split at h <;> obtain rfl := Option.some_inj.mp h
    · exact absurd (hi.symm.trans hf) (by simp)
    · simp [List.getElem?_modify, hi] at hf
  | progress j p =>
    simp only [step] at h
    split at h
    · cases h
    · rename_i g hg
      obtain ⟨o, -, rfl⟩ := Option.map_eq_some_iff.mp h
      rw [show_effects, List.getElem?_eq_none (by simpa using hi)] at hf
      cases hf

/-- An effect after a step was there before it or has only started. -/
theorem step_back {s s' : State} {e : Event} {i : ℕ} {f' : Effect} (h : step s e = some s')
    (hf : s'.effects[i]? = some f') :
    (∃ f, s.effects[i]? = some f ∧ Changes s e i f f') ∨
      (∃ tab nodeName, f' = .start tab nodeName) ∧ s'.current = some i := by
  rcases hi : s.effects[i]? with _ | f
  · exact .inr (step_new h hi hf)
  · obtain ⟨g, hg, hc⟩ := step_effect h hi
    obtain rfl := Option.some_inj.mp (hg.symm.trans hf)
    exact .inl ⟨f, rfl, hc⟩

theorem cleanUp_current (s : State) : s.cleanUp.current = none := by
  rw [State.cleanUp]
  split
  · assumption
  · rfl

theorem show_current (s : State) (tab : ℕ) (shown : Shown) : (s.show tab shown).current = s.current := by
  unfold State.show
  split
  · cases shown <;> rfl
  · rfl

theorem show_mounted (s : State) (tab : ℕ) (shown : Shown) : (s.show tab shown).mounted = s.mounted := by
  unfold State.show
  split
  · cases shown <;> rfl
  · rfl

theorem runEffect_mounted (s : State) (nodeName : Text) : (s.runEffect nodeName).mounted = s.mounted := by
  rw [State.runEffect]
  split <;> rfl

/-! ### The invariants -/

theorem late_append {log : List Act} {a : Act} :
    Late (log ++ [a]) ↔ Late log ∨ (∃ name debugNamespace, a = .createPod name debugNamespace) ∧ .cleanedUp ∈ log := by
  constructor
  · rintro ⟨l, name, debugNamespace, r, h, hl⟩
    rcases List.eq_nil_or_concat r with rfl | ⟨r, b, rfl⟩
    · obtain ⟨rfl, hb⟩ := List.append_inj' h rfl
      exact .inr ⟨⟨name, debugNamespace, List.head_eq_of_cons_eq hb⟩, hl⟩
    · rw [List.concat_eq_append, ← List.cons_append, ← List.append_assoc] at h
      exact .inl ⟨l, name, debugNamespace, r, (List.append_inj' h rfl).1, hl⟩
  · rintro (⟨l, name, debugNamespace, r, rfl, hl⟩ | ⟨⟨name, debugNamespace, rfl⟩, hl⟩)
    · exact ⟨l, name, debugNamespace, r ++ [a], by simp, hl⟩
    · exact ⟨log, name, debugNamespace, [], rfl, hl⟩

@[simp] theorem late_delete (f : Effect) : Late f.delete.log ↔ Late f.log := by
  rw [delete_log]
  split
  · rw [List.append_nil]
  · simp [late_append]

/-- What holds of an effect whatever was deleted. -/
structure Recorded (f : Effect) : Prop where
  fresh : f.stage = .creatingNamespace → f.debugNamespace = [] ∧ ∀ name, .namespaceCreated name ∉ f.log
  recorded : ∀ name, .namespaceCreated name ∈ f.log → name = f.debugNamespace
  named : ∀ name, .deleteNamespace name ∈ f.log → name ≠ []
  late : Late f.log → f.stage.beforePod = false

/-- What always holds of an effect: a namespace that is left is one of an effect that goes on, or
that went on too long. -/
structure Sound (f : Effect) : Prop extends Recorded f where
  owed : f.debugNamespace ≠ [] →
    .deleteNamespace f.debugNamespace ∈ f.log ∨ .cleanedUp ∉ f.log ∨ f.stage.beforePod ∨ Late f.log

theorem Sound.start (tab : ℕ) (nodeName : Text) : Sound (.start tab nodeName) where
  fresh _ := ⟨rfl, by simp [Effect.start]⟩
  recorded := by simp [Effect.start]
  named := by simp [Effect.start]
  owed h := absurd rfl h
  late h := by
    rw [Effect.start, ← List.nil_append [Act.createNamespace], late_append] at h
    obtain ⟨l, name, debugNamespace, r, h, -⟩ | ⟨⟨name, debugNamespace, h⟩, -⟩ := h
    · simp at h
    · cases h

theorem Recorded.delete {f : Effect} (h : Recorded f) : Sound f.delete where
  fresh hs := by
    rw [delete_stage] at hs
    simpa [mem_delete_log] using h.fresh hs
  recorded name hn := by
    rw [delete_debugNamespace]
    exact h.recorded name (by simpa [mem_delete_log] using hn)
  named name hn := by
    rcases mem_delete_log.mp hn with hn | ⟨hd, hn⟩
    · exact h.named name hn
    · cases hn
      exact hd
  owed hd := by
    rw [delete_debugNamespace] at hd ⊢
    exact .inl (mem_delete_log.mpr (.inr ⟨hd, rfl⟩))
  late hl := by
    rw [delete_stage]
    exact h.late ((late_delete f).mp hl)

theorem Recorded.cleanUp {f : Effect} (h : Recorded f) : Sound f.cleanUp := by
  apply Recorded.delete
  refine ⟨fun hs => ?_, fun name hn => h.recorded name (by simpa using hn),
    fun name hn => h.named name (by simpa using hn), fun hl => h.late ?_⟩
  · simpa using h.fresh hs
  · simpa [late_append] using hl

/-- What is deleted on failure is deleted. -/
theorem Recorded.fail {f : Effect} (h : Recorded f) : Sound { f.delete with stage := .ended } where
  fresh hs := by cases hs
  recorded := h.delete.recorded
  named := h.delete.named
  owed hd := by
    rw [delete_debugNamespace] at hd
    exact .inl (mem_delete_log.mpr (.inr ⟨hd, by simp⟩))
  late _ := rfl

theorem Sound.advance {f f' : Effect} {p : Progress} (h : Sound f) (ha : Advances f p f') : Sound f' := by
  cases ha with
  | @named name hs hn =>
    obtain ⟨hd, hc⟩ := h.fresh hs
    refine ⟨⟨nofun, fun n hm => ?_, fun n hm => h.named n (by simpa using hm), fun hl => ?_⟩, fun _ => ?_⟩
    · simpa [hc] using hm
    · exact absurd (h.late (by simpa [late_append] using hl)) (by simp [hs, Stage.beforePod])
    · exact .inr (.inr (.inl rfl))
  | nameless hs =>
    obtain ⟨hd, hc⟩ := h.fresh hs
    refine ⟨⟨nofun, fun n hm => ?_, fun n hm => h.named n (by simpa using hm), fun _ => rfl⟩, fun hd' => absurd rfl hd'⟩
    simpa [hc] using hm
  | failed hs hp | notMade hs => exact h.toRecorded.fail
  | next hs hf hs' hn hp =>
    refine ⟨⟨fun h' => absurd h' hn, h.recorded, h.named, fun hl => ?_⟩, fun _ => .inr (.inr (.inl hs'))⟩
    exact absurd (h.late hl) (by simp [hs])
  | asked hs =>
    refine ⟨⟨nofun, fun n hm => h.recorded n (by simpa using hm), fun n hm => h.named n (by simpa using hm),
      fun _ => rfl⟩, fun hd => ?_⟩
    by_cases hc : .cleanedUp ∈ f.log
    · exact .inr (.inr (.inr (late_append.mpr (.inr ⟨⟨_, _, rfl⟩, hc⟩))))
    · exact .inr (.inl (by simpa using hc))
  | made hs =>
    refine ⟨⟨nofun, h.recorded, h.named, fun _ => rfl⟩, fun hd => ?_⟩
    rcases h.owed hd with ho | ho | ho | ho
    · exact .inl ho
    · exact .inr (.inl ho)
    · rw [hs] at ho
      cases ho
    · exact .inr (.inr (.inr ho))

theorem prefix_delete (f : Effect) : f.log <+: f.delete.log := by
  rw [delete_log]
  exact List.prefix_append _ _

theorem Changes.log_grows {s : State} {e : Event} {i : ℕ} {f f' : Effect} (h : Changes s e i f f') :
    f.log <+: f'.log := by
  cases h with
  | advanced he h =>
    cases h with
    | named | nameless | asked => exact List.prefix_append _ _
    | failed | notMade => exact prefix_delete f
    | next | made => exact List.prefix_refl _
  | cleanedUp =>
    apply List.IsPrefix.trans _ (prefix_delete _)
    exact List.prefix_append _ _
  | closing => exact prefix_delete f
  | kept => exact List.prefix_refl _

theorem Late.of_grown {log log' : List Act} (h : Late log) (hp : log <+: log') : Late log' := by
  obtain ⟨l, name, debugNamespace, r, rfl, hl⟩ := h
  obtain ⟨k, rfl⟩ := hp
  exact ⟨l, name, debugNamespace, r ++ k, by simp, hl⟩

/-- What always holds of the tab. -/
structure Inv (s : State) : Prop where
  sound : ∀ f ∈ s.effects, Sound f
  /-- All effects are cleaned up but the one whose clean-up React holds. -/
  cleaned : ∀ i f, s.effects[i]? = some f → s.current ≠ some i → .cleanedUp ∈ f.log
  unmounted : s.mounted = false → s.current = none

theorem inv_init : Inv init where
  sound := by simp [init]
  cleaned := by simp [init]
  unmounted _ := rfl

theorem step_current {s s' : State} {e : Event} {i : ℕ} (hI : Inv s) (h : step s e = some s') (hi : s.current = some i)
    (hl : ¬ Leaves s e i) : s'.current = some i := by
  cases e with
  | mount nodeName =>
    obtain ⟨hm, -⟩ : _ ∧ _ := by simpa [step] using h
    rw [hI.unmounted hm] at hi
    cases hi
  | render nodeName =>
    obtain ⟨-, rfl⟩ : _ ∧ _ := by simpa [step] using h
    by_cases hn : nodeName = s.nodeName
    · rw [if_pos hn, hi]
    · exact absurd ⟨hi, .inr ⟨nodeName, rfl, hn⟩⟩ hl
  | unmount => exact absurd ⟨hi, .inl rfl⟩ hl
  | beforeUnload =>
    simp only [step, hi] at h
    obtain rfl := Option.some_inj.mp h
    rfl
  | progress j p =>
    simp only [step] at h
    split at h
    · cases h
    · obtain ⟨o, -, rfl⟩ := Option.map_eq_some_iff.mp h
      rw [show_current, hi]

theorem step_unmounted {s s' : State} {e : Event} (hI : Inv s) (h : step s e = some s') (hm : s'.mounted = false) :
    s'.current = none := by
  cases e with
  | mount nodeName =>
    obtain ⟨-, rfl⟩ : _ ∧ _ := by simpa [step] using h
    rw [runEffect_mounted] at hm
    cases hm
  | render nodeName =>
    obtain ⟨hs, rfl⟩ : _ ∧ _ := by simpa [step] using h
    split at hm
    · exact absurd hs (by simp [hm])
    · rw [runEffect_mounted, State.cleanUp] at hm
      split at hm <;> exact absurd hs (by simpa using hm)
  | unmount =>
    obtain ⟨-, rfl⟩ : _ ∧ _ := by simpa [step] using h
    exact cleanUp_current s
  | beforeUnload =>
    simp only [step] at h
    split at h <;> obtain rfl := Option.some_inj.mp h
    · assumption
    · exact hI.unmounted hm
  | progress j p =>
    simp only [step] at h
    split at h
    · cases h
    · obtain ⟨o, -, rfl⟩ := Option.map_eq_some_iff.mp h
      rw [show_mounted] at hm
      rw [show_current]
      exact hI.unmounted hm

theorem step_inv {s s' : State} {e : Event} (h : step s e = some s') (hI : Inv s) : Inv s' where
  sound f hf := by
    obtain ⟨i, hi⟩ := List.mem_iff_getElem?.mp hf
    rcases step_back h hi with ⟨g, hg, hc⟩ | ⟨⟨tab, nodeName, rfl⟩, -⟩
    · have hs := hI.sound g (List.mem_of_getElem? hg)
      cases hc with
      | advanced he ha => exact hs.advance ha
      | cleanedUp => exact hs.toRecorded.cleanUp
      | closing => exact hs.toRecorded.delete
      | kept => exact hs
    · exact .start tab nodeName
  cleaned i f hi hc := by
    rcases step_back h hi with ⟨g, hg, hch⟩ | ⟨-, hcur⟩
    · have hg' (hl : ¬ Leaves s e i) : .cleanedUp ∈ f.log :=
        hch.log_grows.subset (hI.cleaned i g hg fun hs => hc (step_current hI h hs hl))
      cases hch with
      | advanced he ha => exact hg' (fun hl => by simp [Leaves, he] at hl)
      | cleanedUp => exact (prefix_delete _).subset (by simp)
      | closing he => exact hg' (fun hl => by simp [Leaves, he] at hl)
      | kept he hl => exact hg' hl
    · exact absurd hcur hc
  unmounted := step_unmounted hI h

theorem run_inv {s t : State} {es : List Event} (h : run step s es = some t) (hI : Inv s) : Inv t :=
  (Along.of_forall (P := fun _ _ _ => True) (fun _ _ _ _ => trivial) s).invariant
    (fun hs _ hI => step_inv hs hI) hI h

/-! ### Runs -/

theorem run_effect {s t : State} {es : List Event} {i : ℕ} {f : Effect} (h : run step s es = some t)
    (hi : s.effects[i]? = some f) : ∃ g, t.effects[i]? = some g ∧ f.log <+: g.log := by
  induction es generalizing s f with
  | nil =>
    obtain rfl := Option.some_inj.mp h
    exact ⟨f, hi, List.prefix_refl _⟩
  | cons e es ih =>
    obtain ⟨u, hu, h⟩ := run_cons_eq_some.mp h
    obtain ⟨f', hf', hc⟩ := step_effect hu hi
    obtain ⟨g, hg, hp⟩ := ih h hf'
    exact ⟨g, hg, hc.log_grows.trans hp⟩

theorem Changes.beforePod {s : State} {e : Event} {i : ℕ} {f f' : Effect} (h : Changes s e i f f')
    (hf : f.stage.beforePod = false) :
    f'.stage.beforePod = false ∧ ∀ p, e = .progress i p → p.fails = false := by
  cases h with
  | advanced he h =>
    subst he
    refine ⟨?_, fun q hq => ?_⟩
    · cases h <;> simp_all [Stage.beforePod]
    · obtain rfl : _ = q := by simpa using hq
      cases h <;> simp_all [Stage.beforePod, Progress.fails]
  | cleanedUp hl =>
    refine ⟨by simpa [Effect.cleanUp] using hf, fun q hq => ?_⟩
    simp [Leaves, hq] at hl
  | closing he => exact ⟨by simpa using hf, fun q hq => by simp [he] at hq⟩
  | kept he => exact ⟨hf, fun q hq => absurd hq (he q)⟩

/-- An effect that is past asking for its pod does not fail before it. -/
theorem run_beforePod {s t : State} {es : List Event} {i : ℕ} {f : Effect} (h : run step s es = some t)
    (hi : s.effects[i]? = some f) (hf : f.stage.beforePod = false) {p : Progress} (hp : .progress i p ∈ es) :
    p.fails = false := by
  induction es generalizing s f with
  | nil => cases hp
  | cons e es ih =>
    obtain ⟨u, hu, h⟩ := run_cons_eq_some.mp h
    obtain ⟨f', hf', hc⟩ := step_effect hu hi
    obtain ⟨hb, hp'⟩ := hc.beforePod hf
    rcases List.mem_cons.mp hp with rfl | hp
    · exact hp' p rfl
    · exact ih h hf' hb hp

/-- An effect that was cleaned up before it asked for its pod fails before it can, or asks too late. -/
theorem fails_or_late {s t : State} {es : List Event} {i : ℕ} {f g : Effect} (h : run step s es = some t)
    (hi : s.effects[i]? = some f) (hf : f.stage.beforePod) (hc : .cleanedUp ∈ f.log) (hg : t.effects[i]? = some g)
    (hb : g.stage.beforePod = false) : (∃ p, .progress i p ∈ es ∧ p.fails) ∨ Late g.log := by
  induction es generalizing s f with
  | nil =>
    obtain rfl := Option.some_inj.mp h
    obtain rfl := Option.some_inj.mp (hi.symm.trans hg)
    rw [hf] at hb
    cases hb
  | cons e es ih =>
    obtain ⟨u, hu, hr⟩ := run_cons_eq_some.mp h
    obtain ⟨f', hf', hch⟩ := step_effect hu hi
    have hrest (hf'' : f'.stage.beforePod) : (∃ p, .progress i p ∈ e :: es ∧ p.fails) ∨ Late g.log := by
      rcases ih hr hf' hf'' (hch.log_grows.subset hc) with ⟨p, hp, hpf⟩ | hl
      · exact .inl ⟨p, List.mem_cons_of_mem e hp, hpf⟩
      · exact .inr hl
    cases hch with
    | advanced he ha =>
      subst he
      cases ha with
      | named => exact hrest rfl
      | nameless => exact .inl ⟨_, List.mem_cons_self, rfl⟩
      | failed hs hp => exact .inl ⟨_, List.mem_cons_self, hp⟩
      | next hs hn hs' => exact hrest hs'
      | asked hs =>
        obtain ⟨g', hg', hp⟩ := run_effect hr hf'
        obtain rfl := Option.some_inj.mp (hg.symm.trans hg')
        exact .inr ((late_append.mpr (.inr ⟨⟨_, _, rfl⟩, hc⟩)).of_grown hp)
      | made hs | notMade hs => simp [hs, Stage.beforePod] at hf
    | cleanedUp => exact hrest (by simpa [Effect.cleanUp] using hf)
    | closing => exact hrest (by simpa using hf)
    | kept => exact hrest hf

/-- An effect that is cleaned up before it has asked for its pod fails before it can. -/
def FailsWhenLeft (s : State) (es : List Event) : Prop :=
  ∀ l e r u i f, es = l ++ e :: r → run step s l = some u → Leaves u e i → u.effects[i]? = some f →
    f.stage.beforePod → ∃ p, .progress i p ∈ r ∧ p.fails

theorem FailsWhenLeft.tail {s u : State} {e : Event} {es : List Event} (h : FailsWhenLeft s (e :: es))
    (hu : step s e = some u) : FailsWhenLeft u es := by
  intro l d r v i f he hv
  exact h (e :: l) d r v i f (by rw [he, List.cons_append]) (run_cons_eq_some.mpr ⟨u, hu, hv⟩)

theorem FailsWhenLeft.head {s : State} {e : Event} {es : List Event} {i : ℕ} {f : Effect}
    (h : FailsWhenLeft s (e :: es)) (hl : Leaves s e i) (hi : s.effects[i]? = some f) (hf : f.stage.beforePod) :
    ∃ p, .progress i p ∈ es ∧ p.fails :=
  h [] e es s i f rfl rfl hl hi hf

theorem Effect.cleanUp_stage (f : Effect) : f.cleanUp.stage = f.stage := delete_stage _

/-- No pod is asked for too late, if the effects that were left before they asked still fail. -/
theorem run_not_late {s t : State} {es : List Event} (h : run step s es = some t) (hw : FailsWhenLeft s es)
    (hs : ∀ i f, s.effects[i]? = some f → .cleanedUp ∈ f.log → f.stage.beforePod → ∃ p, .progress i p ∈ es ∧ p.fails)
    (hl : ∀ f ∈ s.effects, ¬ Late f.log) : ∀ f ∈ t.effects, ¬ Late f.log := by
  induction es generalizing s with
  | nil =>
    obtain rfl := Option.some_inj.mp h
    exact hl
  | cons e es ih =>
    obtain ⟨u, hu, hr⟩ := run_cons_eq_some.mp h
    refine ih hr (hw.tail hu) (fun i f' hi hc hb => ?_) (fun f' hf => ?_)
    · rcases step_back hu hi with ⟨f, hf, hch⟩ | ⟨⟨tab, nodeName, rfl⟩, -⟩
      · have hrest (hf' : f.stage.beforePod) (hc' : .cleanedUp ∈ f.log) (he : ∀ p, p.fails → e ≠ .progress i p) :
            ∃ p, .progress i p ∈ es ∧ p.fails := by
          obtain ⟨p, hp, hpf⟩ := hs i f hf hc' hf'
          rcases List.mem_cons.mp hp with hp | hp
          · exact absurd hp.symm (he p hpf)
          · exact ⟨p, hp, hpf⟩
        cases hch with
        | advanced he ha =>
          subst he
          cases ha with
          | named hst hn =>
            exact hrest (by rw [hst]; rfl) (by simpa using hc) (fun p hp hq => by
              obtain rfl : _ = p := by simpa using hq
              simp [Progress.fails, hn] at hp)
          | next hst hn hst' hn' hp' =>
            exact hrest hst hc (fun p hp hq => by
              obtain rfl : _ = p := by simpa using hq
              simp [hp'] at hp)
          | nameless | failed | asked | made | notMade => cases hb
        | cleanedUp hle => exact hw.head hle hf (by rwa [Effect.cleanUp_stage] at hb)
        | closing he =>
          exact hrest (by rwa [delete_stage] at hb) (by simpa [mem_delete_log] using hc) (fun p _ hq => by simp [he] at hq)
        | kept he => exact hrest hb hc (fun p _ => he p)
      · simp [Effect.start] at hc
    · obtain ⟨i, hi⟩ := List.mem_iff_getElem?.mp hf
      rcases step_back hu hi with ⟨f, hf', hch⟩ | ⟨⟨tab, nodeName, rfl⟩, -⟩
      · have hf'' := hl f (List.mem_of_getElem? hf')
        cases hch with
        | advanced he ha =>
          subst he
          cases ha with
          | named | nameless => simpa [late_append] using hf''
          | failed | notMade => simpa using hf''
          | next | made => exact hf''
          | asked hst =>
            rw [late_append]
            rintro (hla | ⟨-, hc⟩)
            · exact hf'' hla
            · obtain ⟨p, hp, hpf⟩ := hs i f hf' hc (by rw [hst]; rfl)
              rcases List.mem_cons.mp hp with hp | hp
              · obtain rfl : p = .waited := by simpa using hp
                cases hpf
              · exact absurd hpf (by simp [run_beforePod hr hi rfl hp])
        | cleanedUp => simpa [Effect.cleanUp, late_append] using hf''
        | closing => simpa using hf''
        | kept => exact hf''
      · exact fun hla => absurd ((Sound.start tab nodeName).late hla) (by simp [Effect.start, Stage.beforePod])

/-- A namespace without a name is recorded, and never deleted. -/
theorem nameless_recorded {s t : State} {es : List Event} {i : ℕ} (h : run step s es = some t)
    (he : .progress i (.namespaceCreated []) ∈ es) : ∃ g ∈ t.effects, .namespaceCreated [] ∈ g.log := by
  induction es generalizing s with
  | nil => cases he
  | cons e es ih =>
    obtain ⟨u, hu, hr⟩ := run_cons_eq_some.mp h
    rcases List.mem_cons.mp he with rfl | he
    · rcases hi : s.effects[i]? with _ | f
      · simp [step, hi] at hu
      · obtain ⟨f', hf', hc⟩ := step_effect hu hi
        obtain ⟨g, hg, hp⟩ := run_effect hr hf'
        refine ⟨g, List.mem_of_getElem? hg, hp.subset ?_⟩
        cases hc with
        | advanced hq ha =>
          obtain rfl : _ = _ := by simpa using hq
          cases ha with
          | named hs hn => exact absurd rfl hn
          | nameless => simp
          | failed hs hp hn => exact absurd rfl hn
          | next _ _ _ _ hf => simp [Progress.fails] at hf
        | cleanedUp hl => simp [Leaves] at hl
        | closing hq => cases hq
        | kept hq => exact absurd rfl (hq _)
    · exact ih hr he

theorem Changes.named {s : State} {e : Event} {i : ℕ} {f f' : Effect} (h : Changes s e i f f')
    (he : e ≠ .progress i (.namespaceCreated [])) (hf : .namespaceCreated [] ∉ f.log) :
    .namespaceCreated [] ∉ f'.log := by
  cases h with
  | advanced hp h =>
    subst hp
    cases h with
    | named hs hn => simpa [hf] using Ne.symm hn
    | nameless => exact absurd rfl he
    | failed | notMade => simpa [mem_delete_log] using hf
    | next | made => exact hf
    | asked => simpa using hf
  | cleanedUp => simpa [Effect.cleanUp, mem_delete_log] using hf
  | closing => simpa [mem_delete_log] using hf
  | kept => exact hf

/-- If all namespaces have names, no other is recorded. -/
theorem run_named {t : State} {es : List Event} (h : run step init es = some t)
    (he : ∀ i, .progress i (.namespaceCreated []) ∉ es) : ∀ f ∈ t.effects, .namespaceCreated [] ∉ f.log := by
  have hG : Along step (fun _ e _ => ∀ i, e ≠ .progress i (.namespaceCreated [])) init es := by
    apply Along.of_forall
    intro e hes _ _ i hi
    subst hi
    exact he i hes
  refine hG.invariant (I := fun s => ∀ f ∈ s.effects, .namespaceCreated [] ∉ f.log) (fun hs hg hI f' hf' => ?_)
    (by simp [init]) h
  obtain ⟨i, hi⟩ := List.mem_iff_getElem?.mp hf'
  rcases step_back hs hi with ⟨f, hf, hc⟩ | ⟨⟨tab, nodeName, rfl⟩, -⟩
  · exact hc.named (hg i) (hI f (List.mem_of_getElem? hf))
  · simp [Effect.start]

/-- **When the node terminal leaves nothing behind**: exactly in the runs in which each effect that is
cleaned up before it has asked for its pod fails before it can, and each namespace that is created has a name. -/
theorem tidy_iff {t : State} {es : List Event} (h : run step init es = some t) (ht : Settled t) :
    Tidy t ↔ FailsWhenLeft init es ∧ ∀ i, .progress i (.namespaceCreated []) ∉ es := by
  have hI := run_inv h inv_init
  constructor
  · intro htidy
    constructor
    · intro l e r u i f he hu hle hi hb
      subst he
      obtain ⟨u', hu', hr⟩ := run_append_eq_some.mp h
      obtain rfl := Option.some_inj.mp (hu.symm.trans hu')
      obtain ⟨v, hv, hr⟩ := run_cons_eq_some.mp hr
      obtain ⟨f', hf', hc⟩ := step_effect hv hi
      obtain ⟨g, hg, -⟩ := run_effect hr hf'
      have hgt := List.mem_of_getElem? hg
      cases hc with
      | cleanedUp =>
        refine (fails_or_late hr hf' ?_ ((prefix_delete _).subset (by simp)) hg ?_).resolve_right (htidy g hgt).2
        · rwa [Effect.cleanUp_stage]
        · rw [ht.2 g hgt]
          rfl
      | advanced hq | closing hq => simp [Leaves, hq] at hle
      | kept _ hl => exact absurd hle hl
    · intro i he
      obtain ⟨g, hg, hn⟩ := nameless_recorded h he
      exact (hI.sound g hg).named [] ((htidy g hg).1 [] hn) rfl
  · rintro ⟨hw, hn⟩ g hg
    have hlate := run_not_late h hw (by simp [init]) (by simp [init]) g hg
    refine ⟨fun name hname => ?_, hlate⟩
    obtain ⟨i, hi⟩ := List.mem_iff_getElem?.mp hg
    have hs := hI.sound g hg
    obtain rfl := hs.recorded name hname
    have hne : g.debugNamespace ≠ [] := fun hd => run_named h hn g hg (hd ▸ hname)
    rcases hs.owed hne with ho | ho | ho | ho
    · exact ho
    · exact absurd (hI.cleaned i g hi (by simp [hI.unmounted ht.1])) ho
    · simp [ht.2 g hg, Stage.beforePod] at ho
    · exact absurd ho hlate

/-- The tab as its one effect left it. -/
def closed (f : Effect) : State :=
  { init with tabs := 1, nodeName := ['n'], effects := [f] }

theorem closed_settled {f : Effect} (h : f.stage = .ended) : Settled (closed f) := ⟨rfl, by simp [closed, h]⟩

/-- The tab is closed while the username is being asked for, and the pod is not made after all. -/
def closedEarly : List Event :=
  [.mount ['n'], .progress 0 (.namespaceCreated ['d']), .unmount, .progress 0 .gotUsername,
    .progress 0 (.podNotGot ['x'])]

theorem tidy_iff_closedEarly :
    ∃ t, run step init closedEarly = some t ∧ Settled t ∧
      (Tidy t ↔ FailsWhenLeft init closedEarly ∧ ∀ i, .progress i (.namespaceCreated []) ∉ closedEarly) :=
  have h : run step init closedEarly = some (closed ⟨1, ['n'], ['d'], .ended,
      [.createNamespace, .namespaceCreated ['d'], .cleanedUp, .deleteNamespace ['d'], .deleteNamespace ['d']]⟩) := by
    decide
  ⟨_, h, closed_settled rfl, tidy_iff h (closed_settled rfl)⟩

/-- The tab is closed while the namespace is being made. -/
def leftBehind : List Event :=
  [.mount ['n'], .unmount, .progress 0 (.namespaceCreated ['d']), .progress 0 .gotUsername, .progress 0 .gotPod,
    .progress 0 .waited, .progress 0 (.podCreated true)]

/-- The namespace is left, with the pod in it. -/
theorem not_tidy_leftBehind : ¬ ∀ es t, run step init es = some t → Settled t → Tidy t := by
  intro h
  have hr : run step init leftBehind = some (closed ⟨1, ['n'], ['d'], .ended,
      [.createNamespace, .cleanedUp, .namespaceCreated ['d'], .createPod (podName ['n']) ['d']]⟩) := by
    decide
  have hdel := (h _ _ hr (closed_settled rfl) _ List.mem_cons_self).1 ['d'] (by simp)
  simp at hdel

end OpenshiftConsole.Terminal.NodeTerminalTab
