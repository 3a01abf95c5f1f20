import OpenshiftConsole.Filesystem.Spawn
import Mathlib.Data.List.AList
import Mathlib.Data.Set.Card

/-!
# The helper pool

`Pool` keeps at most one helper for a container, hands it to any number of requests at a
time and stops it when it has been idle, when its container is gone or when the agent ends.
A mutex guards the registry and the helpers' fields, but it is given up while a helper is
spawned and while one is killed, so that every other section of the code can run in
between.

Each event of the model is one section under the lock, or one step of the code outside
of it: a spawn, the reading of a stop channel, its closing with the killing of the
process, the exit of a process. `Acquire` has three sections: the look at the registry, the
registration of the spawned helper and, for a request that another one was faster than, the
taking of that one's helper once its own has been killed. What a helper joins is not
looked at here, `Spawn` does that; so here a spawn is one event.

`Rule` lists what an event can do, one rule for each way through a section, and what holds
in every state is proved by cases on it. The module's result is that the registry and the
counts are right in every run (`registry_kept`).
-/

namespace OpenshiftConsole.Filesystem.Pool

open OpenshiftConsole.Library.Lines (Text)
open OpenshiftConsole.Library.Runs
open OpenshiftConsole.Filesystem.Spawn (normalizeContainerID)

/-! ### The pool -/

/-- The fields of `Config` that the pool reads. -/
structure Config where
  /-- `MaxHelpers` -/
  maxHelpers : ℤ
  /-- `HelperGrace` -/
  helperGrace : ℤ

/-- `Helper`, with what has become of its process. -/
structure Helper where
  containerID : Text
  inflight : ℕ
  lastUsed : ℤ
  dead : Bool
  /-- `stopWatch` is closed. -/
  stopWatch : Bool
  /-- Its process has been killed by the pool. -/
  killed : Bool
  /-- Its process runs. -/
  running : Bool
  /-- The goroutine that waits for the container to be gone still waits. -/
  watching : Bool
  /-- The goroutine that waits for the process still waits. -/
  waiting : Bool

/-- Where a call of `Acquire` is. -/
inductive Phase where
  /-- It has not begun. -/
  | idle
  /-- `spawn` is next. -/
  | spawning (id : Text)
  /-- It has spawned a helper and comes to its second section. -/
  | spawned (id : Text) (h : ℕ)
  /-- It has found another helper there, has its own killed and takes the other in its third section. -/
  | losing (id : Text) (h existing : ℕ)
  /-- It has returned the helper, which has not been released yet. -/
  | acquired (id : Text) (h : ℕ)
  /-- It has failed, or its helper is released. -/
  | done
  deriving DecidableEq

/-- Who kills a helper. -/
inductive Killer where
  /-- A request kills its own. -/
  | request (r : ℕ)
  /-- `drop`, called when the container is gone. -/
  | watcher (h : ℕ)
  | reaper
  | closer
  deriving DecidableEq

/-- A call of `kill` that has not come to its end. -/
structure Kill where
  who : Killer
  helper : ℕ
  /-- It has found `stopWatch` open and closes it next. -/
  tested : Bool
  deriving DecidableEq

/-- `Pool.helpers` -/
abbrev Registry := AList fun _ : Text => ℕ

/-- The state of the pool and of all that works on it. -/
structure State where
  /-- `Pool.helpers` -/
  pool : Registry
  /-- `Pool.stopped` -/
  stopped : Bool
  /-- The helpers that have been spawned. -/
  helpers : ℕ → Option Helper
  /-- The calls of `Acquire`. -/
  phase : ℕ → Phase
  /-- The calls of `kill`. -/
  kills : List Kill
  /-- A channel has been closed twice, which ends the agent. -/
  crashed : Bool

/-- What can happen. -/
inductive Event where
  /-- The first section of `Acquire`, at a time. -/
  | acquire (r : ℕ) (containerID : Text) (now : ℤ)
  /-- `spawn` succeeds. -/
  | spawn (r h : ℕ)
  /-- `spawn` fails. -/
  | spawnFails (r : ℕ)
  /-- The second section of `Acquire`. -/
  | register (r : ℕ) (now : ℤ)
  /-- The third section of `Acquire`. -/
  | take (r : ℕ) (now : ℤ)
  /-- `Release` -/
  | release (r : ℕ) (now : ℤ)
  /-- The container is gone, or its watcher gives up: the section of `drop`. -/
  | gone (h : ℕ)
  /-- The helper's process ends by itself. -/
  | exit (h : ℕ)
  /-- `cmd.Wait` has returned: the section after it. -/
  | waited (h : ℕ)
  /-- The section of `reap`, at a tick. -/
  | reap (now : ℤ)
  /-- `kill` looks at the stop channel. -/
  | kill (k : Kill)
  /-- `kill` closes the stop channel. -/
  | closeStop (k : Kill)
  /-- The section of `Close`. -/
  | close

/-! ### Steps -/

namespace Helper

/-- A helper just spawned; nobody reads the time in it. -/
def fresh (id : Text) : Helper := ⟨id, 0, 0, false, false, false, true, true, true⟩

/-- One more request has it. -/
def take (now : ℤ) (x : Helper) : Helper := { x with inflight := x.inflight + 1, lastUsed := now }

/-- The request that spawned it has it. -/
def first (now : ℤ) (x : Helper) : Helper := { x with inflight := 1, lastUsed := now }

/-- One request less has it. -/
def letGo (now : ℤ) (x : Helper) : Helper :=
  { x with inflight := if x.inflight > 0 then x.inflight - 1 else x.inflight, lastUsed := now }

/-- It is not to be handed out again. -/
def die (x : Helper) : Helper := { x with dead := true }

/-- It is dropped, since its container is gone. -/
def drop (x : Helper) : Helper := { x with dead := true, watching := false }

/-- Its process has ended by itself. -/
def exit (x : Helper) : Helper := { x with running := false }

/-- The end of its process has been noticed. -/
def waited (x : Helper) : Helper := { x with dead := true, waiting := false }

/-- Its stop channel is closed and its process is killed. -/
def stop (x : Helper) : Helper := { x with stopWatch := true, killed := true, running := false }

end Helper

namespace State

variable (s : State)

/-- The state with a request somewhere else. -/
def setPhase (r : ℕ) (p : Phase) : State := { s with phase := Function.update s.phase r p }

/-- The state with some helpers changed. -/
def adjust (hs : List ℕ) (f : Helper → Helper) : State :=
  { s with helpers := fun h => if h ∈ hs then (s.helpers h).map f else s.helpers h }

/-- The state with a helper that there was not. -/
def start (h : ℕ) (x : Helper) : State := { s with helpers := Function.update s.helpers h (some x) }

/-- The state with another registry. -/
def setPool (pool : Registry) : State := { s with pool := pool }

/-- The state in which some helpers are to be killed. -/
def toKill (who : Killer) (hs : List ℕ) : State := { s with kills := s.kills ++ hs.map fun h => ⟨who, h, false⟩ }

/-- The helper registered for a container, if it is not dead. -/
def live (id : Text) : Option ℕ := (s.pool.lookup id).filter fun h => (s.helpers h).any fun x => !x.dead

/-- The registry without a helper, if it is registered. -/
def without (id : Text) (h : ℕ) : Registry := if s.pool.lookup id = some h then s.pool.erase id else s.pool

/-- One has helpers still to kill. -/
def busy (who : Killer) : Bool := s.kills.any fun k => k.who = who

/-- A registered helper has been idle for longer than the grace period. -/
def expired (c : Config) (now : ℤ) (h : ℕ) : Bool :=
  (s.helpers h).any fun x => decide (x.inflight = 0) && decide (now - x.lastUsed > c.helperGrace)

/-- The registry without the helpers that are in a list. -/
def survivors (hs : List ℕ) : Registry where
  entries := s.pool.entries.filter fun p => p.2 ∉ hs
  nodupKeys := s.pool.nodupKeys.sublist List.filter_sublist

/-- All registered helpers. -/
def registered : List ℕ := s.pool.entries.map fun p => p.2

/-- The state after a `kill` has come to its end. -/
def stopHelper (k : Kill) : State := { s.adjust [k.helper] Helper.stop with kills := s.kills.erase k }

end State

/-- The state after an event of an agent that runs, if it can happen. -/
def act (c : Config) (s : State) : Event → Option State
  | .acquire r containerID now =>
    match s.phase r with
    | .idle =>
      match normalizeContainerID containerID with
      | none => some (s.setPhase r .done)
      | some id =>
        if s.stopped then some (s.setPhase r .done)
        else
          match s.live id with
          | some h => some ((s.adjust [h] (Helper.take now)).setPhase r (.acquired id h))
          | none =>
            if c.maxHelpers > 0 ∧ s.pool.keys.length ≥ c.maxHelpers then some (s.setPhase r .done)
            else some (s.setPhase r (.spawning id))
    | _ => none
  | .spawn r h =>
    match s.phase r, s.helpers h with
    | .spawning id, none => some ((s.start h (.fresh id)).setPhase r (.spawned id h))
    | _, _ => none
  | .spawnFails r =>
    match s.phase r with
    | .spawning _ => some (s.setPhase r .done)
    | _ => none
  | .register r now =>
    match s.phase r with
    | .spawned id h =>
      match s.live id with
      -- another request has been faster: keep its helper
      | some existing => some ((s.toKill (.request r) [h]).setPhase r (.losing id h existing))
      | none =>
        some (((s.adjust [h] (Helper.first now)).setPool (s.pool.insert id h)).setPhase r (.acquired id h))
    | _ => none
  | .take r now =>
    match s.phase r with
    | .losing id _ existing =>
      if s.busy (.request r) then none
      else some ((s.adjust [existing] (Helper.take now)).setPhase r (.acquired id existing))
    | _ => none
  | .release r now =>
    match s.phase r with
    | .acquired _ h => some ((s.adjust [h] (Helper.letGo now)).setPhase r .done)
    | _ => none
  | .gone h =>
    match s.helpers h with
    | some x =>
      if x.watching then
        some (((s.adjust [h] Helper.drop).setPool (s.without x.containerID h)).toKill (.watcher h) [h])
      else none
    | none => none
  | .exit h =>
    match s.helpers h with
    | some x => if x.running then some (s.adjust [h] Helper.exit) else none
    | none => none
  | .waited h =>
    match s.helpers h with
    | some x =>
      if !x.running && x.waiting then some ((s.adjust [h] Helper.waited).setPool (s.without x.containerID h)) else none
    | none => none
  | .reap now =>
    if s.busy .reaper then none
    else
      let expired := s.registered.filter (s.expired c now)
      some (((s.adjust expired Helper.die).setPool (s.survivors expired)).toKill .reaper expired)
  | .kill k =>
    match s.helpers k.helper with
    | some x =>
      if k ∈ s.kills ∧ k.tested = false then
        if x.stopWatch then some (s.stopHelper k)
        else some { s with kills := { k with tested := true } :: s.kills.erase k }
      else none
    | none => none
  | .closeStop k =>
    match s.helpers k.helper with
    | some x =>
      if k ∈ s.kills ∧ k.tested = true then
        if x.stopWatch then some { s with crashed := true } else some (s.stopHelper k)
      else none
    | none => none
  | .close =>
    if s.stopped then some s
    else some ((({ s with stopped := true }).setPool ∅).toKill .closer s.registered)

/-- The state after an event, if it can happen. -/
def step (c : Config) (s : State) (e : Event) : Option State := if s.crashed then none else act c s e

/-- The pool of an agent that has just started. -/
def State.init : State := ⟨∅, false, fun _ => none, fun _ => .idle, [], false⟩

/-- What an event can do, one rule for each way through its section. -/
inductive Rule (c : Config) (s : State) : Event → State → Prop where
  /-- `Acquire` fails: the id is malformed, the pool is stopped or it is full. -/
  | refused {r : ℕ} {containerID : Text} {now : ℤ} (hp : s.phase r = .idle) :
    Rule c s (.acquire r containerID now) (s.setPhase r .done)
  /-- `Acquire` returns the registered helper. -/
  | reused {r : ℕ} {containerID : Text} {now : ℤ} {id : Text} {h : ℕ} (hp : s.phase r = .idle)
    (hn : normalizeContainerID containerID = some id) (hs : s.stopped = false) (hl : s.live id = some h) :
    Rule c s (.acquire r containerID now) ((s.adjust [h] (Helper.take now)).setPhase r (.acquired id h))
  /-- `Acquire` goes on to spawn a helper. -/
  | admitted {r : ℕ} {containerID : Text} {now : ℤ} {id : Text} (hp : s.phase r = .idle)
    (hn : normalizeContainerID containerID = some id) (hs : s.stopped = false) (hl : s.live id = none)
    (hc : c.maxHelpers > 0 → s.pool.keys.length < c.maxHelpers) :
    Rule c s (.acquire r containerID now) (s.setPhase r (.spawning id))
  | spawned {r h : ℕ} {id : Text} (hp : s.phase r = .spawning id) (hh : s.helpers h = none) :
    Rule c s (.spawn r h) ((s.start h (.fresh id)).setPhase r (.spawned id h))
  | spawnFailed {r : ℕ} {id : Text} (hp : s.phase r = .spawning id) : Rule c s (.spawnFails r) (s.setPhase r .done)
  /-- Another request has been faster. -/
  | lost {r : ℕ} {now : ℤ} {id : Text} {h existing : ℕ} (hp : s.phase r = .spawned id h)
    (hl : s.live id = some existing) :
    Rule c s (.register r now) ((s.toKill (.request r) [h]).setPhase r (.losing id h existing))
  | registered {r : ℕ} {now : ℤ} {id : Text} {h : ℕ} (hp : s.phase r = .spawned id h) (hl : s.live id = none) :
    Rule c s (.register r now)
      (((s.adjust [h] (Helper.first now)).setPool (s.pool.insert id h)).setPhase r (.acquired id h))
  | taken {r : ℕ} {now : ℤ} {id : Text} {h existing : ℕ} (hp : s.phase r = .losing id h existing)
    (hb : s.busy (.request r) = false) :
    Rule c s (.take r now) ((s.adjust [existing] (Helper.take now)).setPhase r (.acquired id existing))
  | released {r : ℕ} {now : ℤ} {id : Text} {h : ℕ} (hp : s.phase r = .acquired id h) :
    Rule c s (.release r now) ((s.adjust [h] (Helper.letGo now)).setPhase r .done)
  | dropped {h : ℕ} {x : Helper} (hh : s.helpers h = some x) :
    Rule c s (.gone h) (((s.adjust [h] Helper.drop).setPool (s.without x.containerID h)).toKill (.watcher h) [h])
  | exited {h : ℕ} : Rule c s (.exit h) (s.adjust [h] Helper.exit)
  | waited {h : ℕ} {x : Helper} (hh : s.helpers h = some x) (hr : x.running = false) :
    Rule c s (.waited h) ((s.adjust [h] Helper.waited).setPool (s.without x.containerID h))
  | reaped {now : ℤ} {hs : List ℕ} (he : hs = s.registered.filter (s.expired c now)) :
    Rule c s (.reap now) (((s.adjust hs Helper.die).setPool (s.survivors hs)).toKill .reaper hs)
  | tested {k : Kill} (hk : k ∈ s.kills) :
    Rule c s (.kill k) { s with kills := { k with tested := true } :: s.kills.erase k }
  /-- The channel is closed already. -/
  | killed {k : Kill} (hk : k ∈ s.kills) : Rule c s (.kill k) (s.stopHelper k)
  | stopped {k : Kill} (hk : k ∈ s.kills) : Rule c s (.closeStop k) (s.stopHelper k)
  | crashed {k : Kill} (hk : k ∈ s.kills) : Rule c s (.closeStop k) { s with crashed := true }
  | closed (hs : s.stopped = false) :
    Rule c s .close ((({ s with stopped := true }).setPool ∅).toKill .closer s.registered)
  /-- The pool is stopped already. -/
  | closedAgain (hs : s.stopped = true) : Rule c s .close s

variable {c : Config} {s s' : State} {e : Event}

theorem step_rule (h : step c s e = some s') : Rule c s e s' := by
  unfold step at h
  split at h
  · cases h
  cases e with
  | acquire r containerID now =>
    simp only [act] at h
    split at h
    · rename_i hp
      split at h
      · cases h
        exact .refused hp
      · rename_i id hn
        split at h
        · cases h
          exact .refused hp
        · rename_i hs
          split at h
          · rename_i k hl
            cases h
            exact .reused hp hn (by simpa using hs) hl
          · rename_i hl
            split at h
            · cases h
              exact .refused hp
            · rename_i hc
              cases h
              exact .admitted hp hn (by simpa using hs) hl fun hpos => by
                rw [not_and] at hc
                exact not_le.mp (hc hpos)
    · cases h
  | spawn r k =>
    simp only [act] at h
    split at h
    · cases h
      exact .spawned ‹_› ‹_›
    · cases h
  | spawnFails r =>
    simp only [act] at h
    split at h
    · cases h
      exact .spawnFailed ‹_›
    · cases h
  | register r now =>
    simp only [act] at h
    split at h
    · rename_i hp
      split at h
      · cases h
        exact .lost hp ‹_›
      · cases h
        exact .registered hp ‹_›
    · cases h
  | take r now =>
    simp only [act] at h
    split at h
    · rename_i hp
      split at h
      · cases h
      · rename_i hb
        cases h
        exact .taken hp (by simpa using hb)
    · cases h
  | release r now =>
    simp only [act] at h
    split at h
    · cases h
      exact .released ‹_›
    · cases h
  | gone k =>
    simp only [act] at h
    split at h
    · rename_i x hx
      split at h
      · cases h
        exact .dropped hx
      · cases h
    · cases h
  | exit k =>
    simp only [act] at h
    split at h
    · split at h
      · cases h
        exact .exited
      · cases h
    · cases h
  | waited k =>
    simp only [act] at h
    split at h
    · rename_i x hx
      split at h
      · rename_i hr
        cases h
        exact .waited hx (by simp_all)
      · cases h
    · cases h
  | reap now =>
    simp only [act] at h
    split at h
    · cases h
    · cases h
      exact .reaped rfl
  | kill k =>
    simp only [act] at h
    split at h
    · split at h
      · rename_i hk
        split at h
        · cases h
          exact .killed hk.1
        · cases h
          exact .tested hk.1
      · cases h
    · cases h
  | closeStop k =>
    simp only [act] at h
    split at h
    · split at h
      · rename_i hk
        split at h
        · cases h
          exact .crashed hk.1
        · cases h
          exact .stopped hk.1
      · cases h
    · cases h
  | close =>
    simp only [act] at h
    split at h
    · rename_i hs
      cases h
      exact .closedAgain hs
    · rename_i hs
      cases h
      exact .closed (by simpa using hs)

/-! ### What a step keeps -/

/-- There is a helper, and it is one for the container. -/
def State.IsFor (s : State) (h : ℕ) (id : Text) : Prop := ∃ x, s.helpers h = some x ∧ x.containerID = id

/-- A call of `Acquire` for a container has to do with a helper. -/
def Phase.Names : Phase → Text → ℕ → Prop
  | .spawned id h, i, k => id = i ∧ h = k
  | .losing id h existing, i, k => id = i ∧ (h = k ∨ existing = k)
  | .acquired id h, i, k => id = i ∧ h = k
  | _, _, _ => False

section Transformers

variable {r r' h k : ℕ} {p : Phase} {hs : List ℕ} {f : Helper → Helper} {id i : Text} {x : Helper}

theorem setPhase_self : (s.setPhase r p).phase r = p := Function.update_self ..

theorem setPhase_of_ne (hr : r' ≠ r) : (s.setPhase r p).phase r' = s.phase r' := Function.update_of_ne hr ..

/-- A request is where it was, or it is the one that moves. -/
theorem setPhase_eq {q : Phase} (hq : (s.setPhase r' p).phase r = q) : s.phase r = q ∨ r = r' ∧ p = q := by
  by_cases he : r = r'
  · subst he
    exact .inr ⟨rfl, setPhase_self.symm.trans hq⟩
  · exact .inl ((setPhase_of_ne he).symm.trans hq)

theorem adjust_helpers : (s.adjust hs f).helpers h = if h ∈ hs then (s.helpers h).map f else s.helpers h := rfl

theorem adjust_eq_some (hx : (s.adjust hs f).helpers h = some x) :
    ∃ y, s.helpers h = some y ∧ (x = f y ∧ h ∈ hs ∨ x = y ∧ h ∉ hs) := by
  rw [adjust_helpers] at hx
  split at hx
  · obtain ⟨y, hy, rfl⟩ := Option.map_eq_some_iff.mp hx
    exact ⟨y, hy, .inl ⟨rfl, ‹_›⟩⟩
  · exact ⟨x, hx, .inr ⟨rfl, ‹_›⟩⟩

theorem start_self : (s.start h x).helpers h = some x := Function.update_self ..

theorem start_of_ne (hk : k ≠ h) : (s.start h x).helpers k = s.helpers k := Function.update_of_ne hk ..

theorem IsFor.adjust (hf : ∀ x, (f x).containerID = x.containerID) (hi : s.IsFor h id) : (s.adjust hs f).IsFor h id := by
  obtain ⟨x, hx, rfl⟩ := hi
  rw [State.IsFor, adjust_helpers, hx]
  split
  · exact ⟨f x, rfl, hf x⟩
  · exact ⟨x, rfl, rfl⟩

theorem lookup_without (hl : (s.without id h).lookup i = some k) : s.pool.lookup i = some k := by
  unfold State.without at hl
  split at hl
  · rcases eq_or_ne i id with rfl | hne
    · rw [AList.lookup_erase] at hl
      cases hl
    · rwa [AList.lookup_erase_ne hne] at hl
  · exact hl

theorem lookup_survivors : (s.survivors hs).lookup i = some k ↔ s.pool.lookup i = some k ∧ k ∉ hs := by
  rw [← Option.mem_def, ← Option.mem_def, AList.mem_lookup_iff, AList.mem_lookup_iff]
  simp [State.survivors]

theorem mem_registered : h ∈ s.registered ↔ ∃ id, s.pool.lookup id = some h := by
  simp only [State.registered, List.mem_map, ← Option.mem_def, AList.mem_lookup_iff]
  exact ⟨fun ⟨p, hp, he⟩ => ⟨p.1, he ▸ hp⟩, fun ⟨id, hp⟩ => ⟨_, hp, rfl⟩⟩

theorem live_eq_some (hl : s.live id = some h) : s.pool.lookup id = some h ∧ ∃ x, s.helpers h = some x ∧ x.dead = false := by
  obtain ⟨hl, hd⟩ := Option.filter_eq_some_iff.mp hl
  refine ⟨hl, ?_⟩
  cases hx : s.helpers h with
  | none => rw [hx] at hd; cases hd
  | some x => exact ⟨x, rfl, by simpa [hx] using hd⟩

end Transformers

/-- A helper stays one for its container. -/
theorem Rule.isFor (hr : Rule c s e s') {h : ℕ} {id : Text} (hi : s.IsFor h id) : s'.IsFor h id := by
  cases hr with
  | reused | taken | registered | released | dropped | exited | waited | reaped | killed | stopped =>
    refine IsFor.adjust ?_ hi
    exact fun _ => rfl
  | spawned _ hh =>
    obtain ⟨x, hx, rfl⟩ := hi
    exact ⟨x, (start_of_ne fun he => by rw [he, hh] at hx; cases hx).trans hx, rfl⟩
  | _ => exact hi

/-- A registered helper has been registered before, or is by the request that spawned it. -/
theorem Rule.lookup (hr : Rule c s e s') {h : ℕ} {id : Text} (hl : s'.pool.lookup id = some h) :
    s.pool.lookup id = some h ∨ ∃ r now, e = .register r now ∧ s.phase r = .spawned id h ∧ s.live id = none ∧
      s'.phase r = .acquired id h := by
  cases hr with
  | @registered r now i k hp hn =>
    replace hl : (s.pool.insert i k).lookup id = some h := hl
    rcases eq_or_ne id i with rfl | hne
    · rw [AList.lookup_insert] at hl
      obtain rfl := Option.some.inj hl
      exact .inr ⟨r, now, rfl, hp, hn, setPhase_self⟩
    · rw [AList.lookup_insert_ne hne] at hl
      exact .inl hl
  | dropped | waited => exact .inl (lookup_without hl)
  | reaped => exact .inl (lookup_survivors.mp hl).1
  | closed =>
    replace hl : AList.lookup id (∅ : Registry) = some h := hl
    rw [AList.lookup_empty] at hl
    cases hl
  | _ => exact .inl hl

/-- At most one request moves. -/
theorem Rule.phase (hr : Rule c s e s') : ∃ r, ∀ r', r' ≠ r → s'.phase r' = s.phase r' := by
  cases hr with
  | @refused r | @reused r | @admitted r | @spawned r | @spawnFailed r | @lost r | @registered r | @taken r | @released r =>
    exact ⟨r, fun r' hr' => setPhase_of_ne hr'⟩
  | _ => exact ⟨0, fun _ _ => rfl⟩

theorem names_setPhase {r r' h : ℕ} {p : Phase} {id : Text} (hn : ((s.setPhase r' p).phase r).Names id h) :
    (s.phase r).Names id h ∨ r = r' ∧ p.Names id h := by
  rcases setPhase_eq (q := (s.setPhase r' p).phase r) rfl with he | ⟨rfl, he⟩
  · exact .inl (he ▸ hn)
  · exact .inr ⟨rfl, he ▸ hn⟩

/-- A request comes to have to do with a helper by finding it registered or by spawning it. -/
theorem Rule.names (hr : Rule c s e s') {r : ℕ} {h : ℕ} {id : Text} (hn : (s'.phase r).Names id h) :
    (s.phase r).Names id h ∨ s.pool.lookup id = some h ∨ s.helpers h = none ∧ s'.IsFor h id := by
  cases hr with
  | refused | admitted | spawnFailed | released =>
    exact (names_setPhase hn).elim .inl fun hm => hm.2.elim
  | reused _ _ _ hl =>
    refine (names_setPhase hn).imp_right fun hm => .inl ?_
    obtain ⟨-, rfl, rfl⟩ := hm
    exact (live_eq_some hl).1
  | spawned _ hh =>
    refine (names_setPhase hn).imp_right fun hm => .inr ?_
    obtain ⟨-, rfl, rfl⟩ := hm
    exact ⟨hh, _, start_self, rfl⟩
  | lost hp hl =>
    rcases names_setPhase hn with hn | ⟨rfl, rfl, rfl | rfl⟩
    · exact .inl hn
    · exact .inl (hp ▸ ⟨rfl, rfl⟩)
    · exact .inr (.inl (live_eq_some hl).1)
  | registered hp =>
    rcases names_setPhase hn with hn | ⟨rfl, hm⟩
    · exact .inl hn
    · exact .inl (hp ▸ hm)
  | taken hp =>
    rcases names_setPhase hn with hn | ⟨rfl, hm⟩
    · exact .inl hn
    · exact .inl (hp ▸ ⟨hm.1, .inr hm.2⟩)
  | _ => exact .inl hn

/-- A request has a helper of its own only once it has spawned it. -/
theorem Rule.spawned_of (hr : Rule c s e s') {r h : ℕ} {id : Text} (hp : s'.phase r = .spawned id h) :
    s.phase r = .spawned id h ∨ s.helpers h = none ∧ s'.helpers h = some (.fresh id) ∧ s'.kills = s.kills := by
  by_cases hs : s.phase r = .spawned id h
  · exact .inl hs
  refine .inr ?_
  cases hr with
  | spawned _ hh =>
    obtain ⟨rfl, he⟩ := (setPhase_eq hp).resolve_left hs
    cases he
    exact ⟨hh, start_self, rfl⟩
  | refused | reused | admitted | spawnFailed | lost | registered | taken | released =>
    exact absurd ((setPhase_eq hp).resolve_right (by simp)) hs
  | _ => exact absurd hp hs

/-! ### The invariant -/

namespace State

/-- The requests that a helper has been returned to and that have not released it. -/
def holders (s : State) (h : ℕ) : Set ℕ := { r | ∃ id, s.phase r = .acquired id h }

/-- Nobody but a request has to do with a helper. -/
def OnlyWith (s : State) (r h : ℕ) : Prop :=
  (∀ id, s.pool.lookup id ≠ some h) ∧ ∀ r', r' ≠ r → ∀ id, ¬ (s.phase r').Names id h

end State

/-- What holds in every state. -/
structure Inv (s : State) : Prop where
  /-- A helper is registered under its own container. -/
  entry : ∀ id h, s.pool.lookup id = some h → s.IsFor h id
  /-- A request has to do with helpers of its container. -/
  named : ∀ r id h, (s.phase r).Names id h → s.IsFor h id
  /-- A helper just spawned is nobody else's. -/
  own : ∀ r id h, s.phase r = .spawned id h → s.OnlyWith r h
  /-- A helper's count is that of the requests that have it. -/
  count : ∀ h x, s.helpers h = some x → (s.holders h).encard = x.inflight
  /-- A request has a helper killed only while it is losing. -/
  killing : ∀ k ∈ s.kills, ∀ r, k.who = .request r → ∃ id existing, s.phase r = .losing id k.helper existing

theorem inv_init : Inv .init where
  entry id h hl := by
    rw [State.init, AList.lookup_empty] at hl
    cases hl
  named _ _ _ hn := nomatch hn
  own _ _ _ hp := nomatch hp
  count _ _ hh := nomatch hh
  killing _ hk := nomatch hk

theorem Inv.own_step (hi : Inv s) (hr : Rule c s e s') {r h : ℕ} {id : Text} (hp : s'.phase r = .spawned id h) :
    s'.OnlyWith r h := by
  obtain ⟨q, hq⟩ := hr.phase
  have hown : s.OnlyWith r h := by
    rcases hr.spawned_of hp with hp | ⟨hh, -⟩
    · exact hi.own r id h hp
    · have hno : ∀ i, ¬ s.IsFor h i := fun i ⟨x, hx, _⟩ => by rw [hh] at hx; cases hx
      exact ⟨fun i hl => hno i (hi.entry i h hl), fun r' _ i hn => hno i (hi.named r' i h hn)⟩
  refine ⟨fun i hl => ?_, fun r' hne i hn => ?_⟩
  · rcases hr.lookup hl with hl | ⟨r', -, -, hr', -, hr''⟩
    · exact hown.1 i hl
    · by_cases he : r' = r
      · rw [he, hp] at hr''
        cases hr''
      · exact hown.2 r' he i (hr' ▸ ⟨rfl, rfl⟩)
  · rcases hr.names hn with hn | hl | ⟨hh, -⟩
    · exact hown.2 r' hne i hn
    · exact hown.1 i hl
    · -- both requests would have moved
      have hmoved : ∀ t i', (s'.phase t).Names i' h → t = q := by
        intro t i' ht
        by_contra hne
        obtain ⟨x, hx, -⟩ := hi.named t i' h (hq t hne ▸ ht)
        rw [hh] at hx
        cases hx
      exact hne ((hmoved r' i hn).trans (hmoved r id (hp ▸ ⟨rfl, rfl⟩)).symm)

section Holders

variable {r h k : ℕ} {p : Phase} {id : Text} {x : Helper} {now : ℤ}

theorem holders_setPhase (hs : ∀ id, s.phase r ≠ .acquired id h) (hp : ∀ id, p ≠ .acquired id h) :
    (s.setPhase r p).holders h = s.holders h := by
  ext q
  by_cases hq : q = r
  · subst hq
    exact ⟨fun ⟨id, hn⟩ => absurd (setPhase_self.symm.trans hn) (hp id), fun ⟨id, hn⟩ => absurd hn (hs id)⟩
  · rw [State.holders, State.holders, Set.mem_ofPred_eq, Set.mem_ofPred_eq, setPhase_of_ne hq]

theorem holders_acquire (hs : ∀ id, s.phase r ≠ .acquired id h) :
    ((s.setPhase r (.acquired id h)).holders h).encard = (s.holders h).encard + 1 := by
  have hr : r ∉ s.holders h := fun ⟨i, hn⟩ => hs i hn
  rw [← Set.encard_insert_of_notMem hr]
  congr 1
  ext q
  by_cases hq : q = r
  · subst hq
    exact ⟨fun _ => .inl rfl, fun _ => ⟨id, setPhase_self⟩⟩
  · rw [State.holders, Set.mem_ofPred_eq, setPhase_of_ne hq, Set.mem_insert_iff]
    exact ⟨.inr, fun hm => hm.resolve_left hq⟩

theorem holders_release (hs : s.phase r = .acquired id h) :
    ((s.setPhase r .done).holders h).encard + 1 = (s.holders h).encard := by
  have hd : (s.setPhase r .done).holders h = s.holders h \ {r} := by
    ext q
    by_cases hq : q = r
    · subst hq
      refine ⟨fun ⟨i, hn⟩ => ?_, fun hm => absurd rfl hm.2⟩
      rw [setPhase_self] at hn
      cases hn
    · rw [State.holders, Set.mem_ofPred_eq, setPhase_of_ne hq]
      exact ⟨fun hm => ⟨hm, hq⟩, fun hm => hm.1⟩
  rw [hd]
  exact Set.encard_sdiff_singleton_add_one ⟨id, hs⟩

theorem pred_of_succ {a : ℕ∞} {n : ℕ} (ha : a + 1 = n) : 0 < n ∧ a = ((n - 1 : ℕ) : ℕ∞) := by
  cases n with
  | zero => simp at ha
  | succ n =>
    rw [Nat.cast_succ] at ha
    exact ⟨Nat.succ_pos n, ENat.add_left_injective_of_ne_top (by simp) ha⟩

/-- A change of helpers that leaves their counts alone. -/
theorem Inv.count_adjust (hi : Inv s) {hs : List ℕ} {f : Helper → Helper} (hf : ∀ x, (f x).inflight = x.inflight)
    (hx : (s.adjust hs f).helpers h = some x) : (s.holders h).encard = x.inflight := by
  obtain ⟨y, hy, ⟨rfl, -⟩ | ⟨rfl, -⟩⟩ := adjust_eq_some hx
  · rw [hf, hi.count h y hy]
  · exact hi.count h x hy

/-- A request that has no helper comes to have one. -/
theorem Inv.count_take (hi : Inv s) (hp : ∀ id h, s.phase r ≠ .acquired id h)
    (hx : (s.adjust [k] (Helper.take now)).helpers h = some x) :
    ((s.setPhase r (.acquired id k)).holders h).encard = x.inflight := by
  obtain ⟨y, hy, ⟨rfl, hk⟩ | ⟨rfl, hk⟩⟩ := adjust_eq_some hx
  · obtain rfl := List.mem_singleton.mp hk
    rw [holders_acquire fun id => hp id h, hi.count h y hy]
    rfl
  · rw [holders_setPhase (fun id => hp id h) (by rintro i ⟨⟩; exact hk (List.mem_singleton_self _)), hi.count h x hy]

end Holders

theorem Inv.count_step (hi : Inv s) (hr : Rule c s e s') {h : ℕ} {x : Helper} (hx : s'.helpers h = some x) :
    (s'.holders h).encard = x.inflight := by
  cases hr with
  | refused hp | admitted hp | spawnFailed hp =>
    rw [holders_setPhase (by simp [hp]) (by simp)]
    exact hi.count h x hx
  | reused hp => exact hi.count_take (by simp [hp]) hx
  | @spawned r k i hp hh =>
    refine (congrArg Set.encard (holders_setPhase (s := s) (by simp [hp]) (by simp))).trans ?_
    by_cases hk : h = k
    · subst hk
      obtain rfl := Option.some.inj (start_self.symm.trans hx)
      refine Set.encard_eq_zero.mpr (Set.eq_empty_of_forall_notMem fun q ⟨j, hq⟩ => ?_)
      obtain ⟨y, hy, -⟩ := hi.named q j h (hq ▸ ⟨rfl, rfl⟩)
      rw [hh] at hy
      cases hy
    · exact hi.count h x ((start_of_ne hk).symm.trans hx)
  | lost hp =>
    refine (congrArg Set.encard (holders_setPhase (s := s) (by simp [hp]) (by simp))).trans ?_
    exact hi.count h x hx
  | @registered r now i k hp =>
    show ((s.setPhase r (.acquired i k)).holders h).encard = x.inflight
    have hown := (hi.own r i k hp).2
    obtain ⟨y, hy, ⟨rfl, hk⟩ | ⟨rfl, hk⟩⟩ := adjust_eq_some hx
    · obtain rfl := List.mem_singleton.mp hk
      have hnone : s.holders h = ∅ := Set.eq_empty_of_forall_notMem fun q ⟨j, hq⟩ => by
        by_cases hqr : q = r
        · rw [hqr, hp] at hq
          cases hq
        · exact hown q hqr j (hq ▸ ⟨rfl, rfl⟩)
      rw [holders_acquire (by simp [hp]), hnone, Set.encard_empty, zero_add]
      rfl
    · rw [holders_setPhase (by simp [hp]) (by rintro j ⟨⟩; exact hk (List.mem_singleton_self _)), hi.count h x hy]
  | taken hp => exact hi.count_take (by simp [hp]) hx
  | @released r now i k hp =>
    show ((s.setPhase r .done).holders h).encard = x.inflight
    obtain ⟨y, hy, ⟨rfl, hk⟩ | ⟨rfl, hk⟩⟩ := adjust_eq_some hx
    · obtain rfl := List.mem_singleton.mp hk
      obtain ⟨hpos, hone⟩ := pred_of_succ ((holders_release hp).trans (hi.count h y hy))
      rw [hone, Helper.letGo, if_pos hpos]
    · rw [holders_setPhase (by rw [hp]; rintro j ⟨⟩; exact hk (List.mem_singleton_self _)) (by simp), hi.count h x hy]
  | dropped | exited | waited | reaped | killed | stopped =>
    refine hi.count_adjust ?_ hx
    exact fun _ => rfl
  | _ => exact hi.count h x hx

theorem Inv.killing_step (hi : Inv s) (hr : Rule c s e s') {k : Kill} (hk : k ∈ s'.kills) {r : ℕ}
    (hw : k.who = .request r) : ∃ id existing, s'.phase r = .losing id k.helper existing := by
  -- a request that is losing moves on only when it has nothing to kill
  have hkeep : ∀ {q : ℕ} {p : Phase}, k ∈ s.kills → (∀ id h existing, s.phase q ≠ .losing id h existing) →
      ∃ id existing, (s.setPhase q p).phase r = .losing id k.helper existing := by
    intro q p hk hq
    obtain ⟨id, existing, hp⟩ := hi.killing k hk r hw
    exact ⟨id, existing, (setPhase_of_ne fun he => hq _ _ _ (he ▸ hp)).trans hp⟩
  have hold : ∀ {who : Killer} {hs : List ℕ}, (∀ r, who ≠ .request r) → k ∈ s.kills ++ hs.map (fun h => ⟨who, h, false⟩) →
      k ∈ s.kills := by
    intro who hs hwho hk
    refine (List.mem_append.mp hk).resolve_right fun hm => ?_
    obtain ⟨h, -, rfl⟩ := List.mem_map.mp hm
    exact hwho r hw
  cases hr with
  | refused hp | reused hp | admitted hp | spawned hp | spawnFailed hp | registered hp | released hp =>
    exact hkeep hk (by simp [hp])
  | @lost q now id h existing hp =>
    rcases List.mem_append.mp hk with hk | hk
    · exact hkeep hk (by simp [hp])
    · obtain rfl := List.mem_singleton.mp hk
      cases hw
      exact ⟨id, existing, setPhase_self⟩
  | @taken q now id h existing hp hb =>
    obtain ⟨i, ex, hr⟩ := hi.killing k hk r hw
    refine ⟨i, ex, (setPhase_of_ne fun he => ?_).trans hr⟩
    -- its own helper is killed already
    subst he
    have : s.busy (.request r) = true := List.any_eq_true.mpr ⟨k, hk, by simpa using hw⟩
    rw [this] at hb
    cases hb
  | dropped | reaped | closed => exact hi.killing k (hold (by simp) hk) r hw
  | @tested k' hk' =>
    rcases List.mem_cons.mp hk with rfl | hk
    · exact hi.killing k' hk' r hw
    · exact hi.killing k (List.mem_of_mem_erase hk) r hw
  | killed | stopped => exact hi.killing k (List.mem_of_mem_erase hk) r hw
  | _ => exact hi.killing k hk r hw

/-- Every step keeps the invariant. -/
theorem Inv.of_rule (hi : Inv s) (hr : Rule c s e s') : Inv s' where
  entry id h hl := by
    rcases hr.lookup hl with hl | ⟨r, -, -, hp, -⟩
    · exact hr.isFor (hi.entry id h hl)
    · exact hr.isFor (hi.named r id h (hp ▸ ⟨rfl, rfl⟩))
  named r id h hn := by
    rcases hr.names hn with hn | hl | ⟨-, hf⟩
    · exact hr.isFor (hi.named r id h hn)
    · exact hr.isFor (hi.entry id h hl)
    · exact hf
  own _ _ _ hp := hi.own_step hr hp
  count _ _ hx := hi.count_step hr hx
  killing _ hk _ hw := hi.killing_step hr hk hw

/-! ### The registry -/

/-- The registry is right: each helper in it is registered under its own container, and its count is
the number of requests that it has been returned to and that have not released it. -/
def Registered (s : State) : Prop :=
  ∀ id h, s.pool.lookup id = some h →
    ∃ x, s.helpers h = some x ∧ x.containerID = id ∧ (s.holders h).encard = x.inflight

/-- A step is fair to the helpers registered: what becomes of one helper takes no other one out of the
registry, the reaper takes out only those that are idle, and a release finds a count to count down. -/
def Fair (c : Config) (s : State) (e : Event) (s' : State) : Prop :=
  match e with
  | .gone h | .exit h | .waited h => ∀ id h', s.pool.lookup id = some h' → h' ≠ h → s'.pool.lookup id = some h'
  | .kill _ | .closeStop _ => s'.pool = s.pool
  | .reap now => ∀ id h', s.pool.lookup id = some h' → s.expired c now h' = false → s'.pool.lookup id = some h'
  | .release r _ => ∀ id h x, s.phase r = .acquired id h → s.helpers h = some x → 0 < x.inflight
  | _ => True

theorem lookup_without_of_ne {h k : ℕ} {id i : Text} (hl : s.pool.lookup i = some k) (hk : k ≠ h) :
    (s.without id h).lookup i = some k := by
  unfold State.without
  split
  · rename_i hid
    rw [AList.lookup_erase_ne]
    · exact hl
    · rintro rfl
      exact hk (Option.some.inj (hl.symm.trans hid))
  · exact hl

theorem Inv.fair (hi : Inv s) (hr : Rule c s e s') : Fair c s e s' := by
  cases hr with
  | @released r now i k hp =>
    intro id h x hp' hx
    exact (pred_of_succ ((holders_release hp').trans (hi.count h x hx))).1
  | dropped | waited => exact fun id h' hl hne => lookup_without_of_ne hl hne
  | exited => exact fun _ _ hl _ => hl
  | reaped he =>
    subst he
    intro id h' hl hx
    refine lookup_survivors.mpr ⟨hl, fun hm => ?_⟩
    rw [List.mem_filter, hx] at hm
    cases hm.2
  | tested | killed | stopped | crashed => rfl
  | _ => trivial

/-- **The registry in every run**, whatever the order of the steps: it is right in every state, and
every step is fair to the helpers in it. -/
theorem registry_kept (c : Config) (es : List Event) :
    Along (step c) (fun s e s' => Registered s' ∧ Fair c s e s') .init es := by
  refine Along.of_invariant (G := fun _ _ _ => True) (I := Inv) (fun hs _ hi => hi.of_rule (step_rule hs))
    (fun hs _ hi => ⟨fun id h hl => ?_, hi.fair (step_rule hs)⟩) (Along.of_forall (fun _ _ _ _ => trivial) _) inv_init
  have hi' := hi.of_rule (step_rule hs)
  obtain ⟨x, hx, hid⟩ := hi'.entry id h hl
  exact ⟨x, hx, hid, hi'.count h x hx⟩

end OpenshiftConsole.Filesystem.Pool
