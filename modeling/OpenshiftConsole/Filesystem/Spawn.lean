import OpenshiftConsole.Library.Lines
import OpenshiftConsole.Library.Runs
import Mathlib.Data.List.Infix
import Mathlib.Logic.Function.Basic

/-!
# Spawning a helper into a container

The agent of a node serves a container's files through a helper: a process of its
own that joins the container's mount namespace by the number of the container's
init. `Pool.spawn` resolves that number, starts a watcher on it and verifies by its
cgroup that it is still the container's; the helper then opens
`/proc/<pid>/ns/mnt` by the same number, in its own time.

The model is a step function over the node's processes, the pool, any number of
requests (each at its place in `Acquire` and `spawn`) and the helpers. Processes
come and go as they like, and a number that has become free can be taken over by
any other process.

`helpers_serve_their_container` is the result: as long as no process outside the
container takes over the number of its helper between the verification's reading
of the cgroup and the helper's opening of the namespace, every answer comes from
the namespace of a process of the container.
-/

namespace OpenshiftConsole.Filesystem.Spawn

open OpenshiftConsole.Library.Lines OpenshiftConsole.Library.Runs

/-! ### Containers and cgroups -/

/-- `NormalizeContainerID`: the id without the runtime's scheme, if it is one. -/
def normalizeContainerID (id : Text) : Option Text :=
  let id := match (id.tails.find? fun t => "://".toList.isPrefixOf t) with
    | some t => t.drop 3
    | none => id
  if id = [] then none
  else if !(id.all fun c => c.isDigit || ('a' ≤ c && c ≤ 'f')) then none
  else if id.length < 12 then none
  else some id

/-- The third of three parts that `strings.SplitN(line, ":", 3)` gives. -/
def cgroupPath (line : Text) : Option Text :=
  match line.splitOn ':' with
  | _ :: _ :: p :: ps => some (List.intercalate [':'] (p :: ps))
  | _ => none

/-- The tokens that `strings.FieldsFunc` finds in a path. -/
def cgroupTokens (path : Text) : List Text :=
  (path.splitOnP fun c => c = '/' || c = '-' || c = '.' || c = '_').filter (· ≠ [])

/-- `cgroupNames`. -/
def cgroupNames (body id : Text) : Bool :=
  (body.splitOn '\n').any fun line =>
    match cgroupPath line with
    | none => false
    | some path => !(path.tails.any fun t => "conmon".toList.isPrefixOf t) && id ∈ cgroupTokens path

/-! ### The node -/

/-- A process as the kernel knows it, whatever its number. -/
structure Task where
  /-- What its `cgroup` file says. -/
  cgroup : Text
  /-- Its mount namespace. -/
  mnt : ℕ

/-- A node and its agent. -/
structure Node where
  /-- The processes that ever run on the node. -/
  task : ℕ → Task
  /-- The mount namespace of the node's init. -/
  nodeNS : ℕ
  /-- `Resolver.hostNS`: that namespace, or nothing if it could not be read. -/
  hostNS : Option ℕ
  /-- `Config.MaxHelpers`. -/
  maxHelpers : ℤ

/-- A process belongs to a container: its cgroup names the container and it does not
share the mount namespace of the node. -/
def Node.Belongs (n : Node) (id : Text) (t : ℕ) : Prop :=
  cgroupNames (n.task t).cgroup id = true ∧ (n.task t).mnt ≠ n.nodeNS

instance (n : Node) (id : Text) (t : ℕ) : Decidable (n.Belongs id t) := by
  unfold Node.Belongs; infer_instance

/-- What a watcher holds on to. -/
inductive Watch where
  /-- A pidfd: the process. -/
  | pidfd (t : ℕ)
  /-- The entry in `/proc`: the number. -/
  | proc (pid : ℕ)

/-- Where a request is. -/
inductive Phase where
  /-- It has not come yet. -/
  | idle
  /-- `Resolver.PID`: the cache is tried next. -/
  | resolving (id : Text)
  /-- `Resolver.scan`, with the lowest number found so far. -/
  | scanning (id : Text) (best : Option ℕ)
  /-- `spawn`: the watcher is started next. -/
  | resolved (id : Text) (pid : ℕ)
  /-- `spawn`: `pidMatches` reads the cgroup next. -/
  | watched (id : Text) (pid : ℕ) (w : Watch)
  /-- `spawn`: `pidMatches` reads the mount namespace next. -/
  | named (id : Text) (pid : ℕ) (w : Watch)
  /-- `spawn`: the helper is started next. -/
  | verified (id : Text) (pid : ℕ) (w : Watch)
  /-- `Acquire`: the helper is registered next. -/
  | spawned (id : Text) (h : ℕ)
  /-- It has the helper that `Acquire` returned. -/
  | acquired (id : Text) (h : ℕ)
  /-- It is over. -/
  | done

/-- Where a helper process is. -/
inductive Stage where
  /-- `Enter`: it opens `/proc/<pid>/ns/mnt` next. -/
  | started
  /-- `Enter`: it holds the mount namespace of this process. -/
  | opened (t : ℕ)
  /-- It has joined the mount namespace of this process, and answers. -/
  | serving (t : ℕ)
  /-- It has ended. -/
  | ended
  deriving DecidableEq

/-- `Helper`. -/
structure Helper where
  /-- The container it is for. -/
  containerID : Text
  /-- The number it was given. -/
  pid : ℕ
  /-- Its watcher. -/
  watch : Watch
  /-- Where its process is. -/
  stage : Stage
  /-- How many requests hold it. -/
  inflight : ℕ
  /-- It is not to be handed out again. -/
  dead : Bool

/-- The state of a node. -/
structure State where
  /-- The process that has a number. -/
  procs : ℕ → Option ℕ
  /-- The processes that have been started. -/
  born : ℕ → Bool
  /-- `Resolver.cache`. -/
  cache : Text → Option ℕ
  /-- `Pool.helpers`. -/
  pool : List (Text × ℕ)
  /-- `Pool.stopped`. -/
  stopped : Bool
  /-- The helpers that have been started. -/
  helpers : ℕ → Option Helper
  /-- The requests. -/
  phase : ℕ → Phase

/-- What can happen. -/
inductive Event where
  /-- A process is started under a number that is free. -/
  | fork (pid t : ℕ)
  /-- The process with this number exits. -/
  | exit (pid : ℕ)
  /-- A request for a container comes in; `Acquire` up to `spawn`. -/
  | acquire (r : ℕ) (containerID : Text)
  /-- `Resolver.PID` looks at its cache; the entry may have expired. -/
  | tryCache (r : ℕ) (fresh : Bool)
  /-- `Resolver.scan` reads one entry of `/proc`. -/
  | scanEntry (r pid : ℕ)
  /-- `Resolver.scan` is through. -/
  | resolve (r : ℕ)
  /-- `watchProcess`; the kernel may have no pidfds. -/
  | watch (r : ℕ) (pidfds : Bool)
  /-- `Verify` reads the cgroup. -/
  | verifyCgroup (r : ℕ)
  /-- `Verify` reads the mount namespace. -/
  | verifyNamespace (r : ℕ)
  /-- `cmd.Start` and the connection to the helper, which may fail. -/
  | start (r h : ℕ) (ok : Bool)
  /-- `Acquire` registers the helper. -/
  | register (r : ℕ)
  /-- The helper answers the request. -/
  | answer (r : ℕ)
  /-- `Release`. -/
  | release (r : ℕ)
  /-- The helper opens the mount namespace of its number. -/
  | helperOpen (h : ℕ)
  /-- The helper joins it and runs itself again inside. -/
  | helperJoin (h : ℕ)
  /-- The helper's process ends. -/
  | helperExit (h : ℕ)
  /-- The agent has waited for the process: `cmd.Wait`. -/
  | reaped (h : ℕ)
  /-- The watcher reports that the process is gone: `drop`. -/
  | notify (h : ℕ)
  /-- The helper has been idle for too long. -/
  | expire (h : ℕ)
  /-- `kill` of a helper that is dead to the pool. -/
  | kill (h : ℕ)
  /-- `Close`. -/
  | close

/-! ### Steps -/

/-- The state with a request somewhere else. -/
def State.setPhase (s : State) (r : ℕ) (p : Phase) : State := { s with phase := Function.update s.phase r p }

/-- The state with a helper started or changed. -/
def State.setHelper (s : State) (h : ℕ) (x : Helper) : State :=
  { s with helpers := Function.update s.helpers h (some x) }

/-- The state with another entry in the cache. -/
def State.setCache (s : State) (id : Text) (pid : Option ℕ) : State :=
  { s with cache := Function.update s.cache id pid }

/-- The state with another map of helpers. -/
def State.setPool (s : State) (pool : List (Text × ℕ)) : State := { s with pool := pool }

/-- `pidMatches`, both of its readings at once. -/
def pidMatches (n : Node) (s : State) (pid : ℕ) (id : Text) : Bool :=
  match s.procs pid with
  | none => false
  | some t => cgroupNames (n.task t).cgroup id && n.hostNS ≠ some (n.task t).mnt

/-- The helper in the pool for a container, if it is not dead. -/
def State.live (s : State) (id : Text) : Option (ℕ × Helper) :=
  (s.pool.lookup id).bind fun h => ((s.helpers h).filter fun x => !x.dead).map fun x => (h, x)

/-- The pool without a helper. -/
def State.without (s : State) (h : ℕ) : List (Text × ℕ) := s.pool.filter fun p => p.2 ≠ h

/-- What the watcher watches is gone. -/
def Watch.gone (s : State) (pid : ℕ) : Watch → Bool
  | .pidfd t => s.procs pid ≠ some t
  | .proc pid => s.procs pid = none

/-- The state after an event, if it can happen. -/
def step (n : Node) (s : State) : Event → Option State
  | .fork pid t =>
    if s.procs pid = none ∧ s.born t = false then
      some { s with procs := Function.update s.procs pid (some t), born := Function.update s.born t true }
    else none
  | .exit pid =>
    if s.procs pid = none then none else some { s with procs := Function.update s.procs pid none }
  | .acquire r containerID =>
    match s.phase r with
    | .idle =>
      match normalizeContainerID containerID with
      | none => some (s.setPhase r .done)
      | some id =>
        if s.stopped then some (s.setPhase r .done)
        else match s.live id with
          | some (h, x) => some ((s.setHelper h { x with inflight := x.inflight + 1 }).setPhase r (.acquired id h))
          | none =>
            if 0 < n.maxHelpers ∧ n.maxHelpers ≤ s.pool.length then some (s.setPhase r .done)
            else some (s.setPhase r (.resolving id))
    | _ => none
  | .tryCache r fresh =>
    match s.phase r with
    | .resolving id =>
      match s.cache id with
      | some pid =>
        if fresh && pidMatches n s pid id then some (s.setPhase r (.resolved id pid))
        else some (s.setPhase r (.scanning id none))
      | none => some (s.setPhase r (.scanning id none))
    | _ => none
  | .scanEntry r pid =>
    match s.phase r with
    | .scanning id best =>
      if 0 < pid ∧ pidMatches n s pid id = true then
        some (s.setPhase r (.scanning id (some (best.elim pid (min pid)))))
      else some s
    | _ => none
  | .resolve r =>
    match s.phase r with
    | .scanning id none => some ((s.setCache id none).setPhase r .done)
    | .scanning id (some pid) => some ((s.setCache id (some pid)).setPhase r (.resolved id pid))
    | _ => none
  | .watch r pidfds =>
    match s.phase r with
    | .resolved id pid =>
      -- a number that nobody has any more is watched in `/proc`, too
      match pidfds, s.procs pid with
      | true, some t => some (s.setPhase r (.watched id pid (.pidfd t)))
      | _, _ => some (s.setPhase r (.watched id pid (.proc pid)))
    | _ => none
  | .verifyCgroup r =>
    match s.phase r with
    | .watched id pid w =>
      if (s.procs pid).any fun t => cgroupNames (n.task t).cgroup id then some (s.setPhase r (.named id pid w))
      else some (s.setPhase r .done)
    | _ => none
  | .verifyNamespace r =>
    match s.phase r with
    | .named id pid w =>
      if (s.procs pid).any fun t => n.hostNS = some (n.task t).mnt then some (s.setPhase r .done)
      else some (s.setPhase r (.verified id pid w))
    | _ => none
  | .start r h ok =>
    match s.phase r, s.helpers h with
    | .verified id pid w, none =>
      if ok then some ((s.setHelper h ⟨id, pid, w, .started, 0, false⟩).setPhase r (.spawned id h))
      else some (s.setPhase r .done)
    | _, _ => none
  | .register r =>
    match s.phase r with
    | .spawned id h =>
      match s.helpers h, s.live id with
      -- another request was first: keep its helper, and kill this one
      | some x, some (h', x') =>
        some (((s.setHelper h { x with stage := .ended }).setHelper h' { x' with inflight := x'.inflight + 1 }).setPhase
          r (.acquired id h'))
      | some x, none =>
        some (((s.setHelper h { x with inflight := 1 }).setPool
          ((id, h) :: s.pool.filter fun p => p.1 ≠ id)).setPhase r (.acquired id h))
      | none, _ => none
    | _ => none
  | .answer r =>
    match s.phase r with
    | .acquired _ h =>
      match s.helpers h with
      | some x =>
        match x.stage with
        | .serving _ => some s
        | _ => none
      | none => none
    | _ => none
  | .release r =>
    match s.phase r with
    | .acquired _ h =>
      match s.helpers h with
      | some x => some ((s.setHelper h { x with inflight := x.inflight - 1 }).setPhase r .done)
      | none => none
    | _ => none
  | .helperOpen h =>
    match s.helpers h with
    | some x =>
      match x.stage with
      | .started =>
        match s.procs x.pid with
        | some t => some (s.setHelper h { x with stage := .opened t })
        | none => some (s.setHelper h { x with stage := .ended })
      | _ => none
    | none => none
  | .helperJoin h =>
    match s.helpers h with
    | some x =>
      match x.stage with
      | .opened t => some (s.setHelper h { x with stage := .serving t })
      | _ => none
    | none => none
  | .helperExit h =>
    match s.helpers h with
    | some x => some (s.setHelper h { x with stage := .ended })
    | none => none
  | .reaped h =>
    match s.helpers h with
    | some x => if x.stage = .ended then some ((s.setHelper h { x with dead := true }).setPool (s.without h)) else none
    | none => none
  | .notify h =>
    match s.helpers h with
    | some x =>
      if x.watch.gone s x.pid then some ((s.setHelper h { x with dead := true }).setPool (s.without h)) else none
    | none => none
  | .expire h =>
    match s.helpers h with
    | some x =>
      if x.inflight = 0 ∧ (x.containerID, h) ∈ s.pool then
        some ((s.setHelper h { x with dead := true }).setPool (s.without h))
      else none
    | none => none
  | .kill h =>
    match s.helpers h with
    | some x => if x.dead then some (s.setHelper h { x with stage := .ended }) else none
    | none => none
  | .close =>
    some { s with
      stopped := true
      pool := []
      helpers := fun h =>
        (s.helpers h).map fun x => if s.pool.any fun p => p.2 = h then { x with stage := .ended } else x }

/-- A node whose agent has just started. -/
def State.init : State := ⟨fun _ => none, fun _ => false, fun _ => none, [], false, fun _ => none, fun _ => .idle⟩

/-- The promise, for one step: an answer comes from the namespace of a process of the
request's container. -/
def Contained (n : Node) (s : State) (e : Event) (_ : State) : Prop :=
  match e with
  | .answer r => ∀ id h x t, s.phase r = .acquired id h → s.helpers h = some x → x.stage = .serving t →
      n.Belongs id t
  | _ => True

/-- A step at which nothing goes wrong: no process outside the container takes over a
number between the reading of the cgroup and the opening of the namespace. -/
def Undisturbed (n : Node) (s : State) (e : Event) (_ : State) : Prop :=
  match e with
  | .fork pid t =>
    (∀ r id w, s.phase r = .named id pid w ∨ s.phase r = .verified id pid w → n.Belongs id t) ∧
      ∀ h x, s.helpers h = some x → x.stage = .started → x.pid = pid → n.Belongs x.containerID t
  | _ => True

/-! ### What holds in every state -/

/-- What a request's place says about the node. -/
def PhaseOk (n : Node) (s : State) : Phase → Prop
  | .named id pid _ => ∀ t, s.procs pid = some t → cgroupNames (n.task t).cgroup id = true
  | .verified id pid _ => ∀ t, s.procs pid = some t → n.Belongs id t
  | .spawned id h => ∃ x, s.helpers h = some x ∧ x.containerID = id
  | .acquired id h => ∃ x, s.helpers h = some x ∧ x.containerID = id
  | _ => True

/-- What a helper's place says about the node. -/
def HelperOk (n : Node) (s : State) (x : Helper) : Prop :=
  match x.stage with
  | .started => ∀ t, s.procs x.pid = some t → n.Belongs x.containerID t
  | .opened t => n.Belongs x.containerID t
  | .serving t => n.Belongs x.containerID t
  | .ended => True

/-- The invariant of undisturbed runs. -/
structure Inv (n : Node) (s : State) : Prop where
  /-- Every request is in order. -/
  phase : ∀ r, PhaseOk n s (s.phase r)
  /-- Every helper is in order. -/
  helper : ∀ h x, s.helpers h = some x → HelperOk n s x
  /-- A helper is in the pool under its container. -/
  pool : ∀ p ∈ s.pool, ∃ x, s.helpers p.2 = some x ∧ x.containerID = p.1

theorem inv_init (n : Node) : Inv n .init where
  phase _ := trivial
  helper _ _ h := nomatch h
  pool _ h := nomatch h

section

variable {n : Node} {s : State}

theorem Inv.setPhase (hi : Inv n s) (r : ℕ) {p : Phase} (hp : PhaseOk n s p) : Inv n (s.setPhase r p) where
  phase q := by
    show PhaseOk n s (Function.update s.phase r p q)
    by_cases hq : q = r
    · subst hq
      rwa [Function.update_self]
    · rw [Function.update_of_ne hq]
      exact hi.phase q
  helper := hi.helper
  pool := hi.pool

theorem Inv.setCache (hi : Inv n s) (id : Text) (pid : Option ℕ) : Inv n (s.setCache id pid) :=
  ⟨hi.phase, hi.helper, hi.pool⟩

theorem Inv.setPool (hi : Inv n s) {pool : List (Text × ℕ)}
    (hp : ∀ p ∈ pool, ∃ x, s.helpers p.2 = some x ∧ x.containerID = p.1) : Inv n (s.setPool pool) :=
  ⟨hi.phase, hi.helper, hp⟩

theorem setHelper_self (h : ℕ) (x : Helper) : (s.setHelper h x).helpers h = some x := Function.update_self ..

theorem setHelper_of_ne {h k : ℕ} (hk : k ≠ h) (x : Helper) : (s.setHelper h x).helpers k = s.helpers k :=
  Function.update_of_ne hk ..

/-- A helper that is changed stays with its container. -/
theorem setHelper_container {h : ℕ} {x' : Helper} (hid : ∀ x ∈ s.helpers h, x'.containerID = x.containerID)
    {k : ℕ} {id : Text} (hk : ∃ x, s.helpers k = some x ∧ x.containerID = id) :
    ∃ x, (s.setHelper h x').helpers k = some x ∧ x.containerID = id := by
  obtain ⟨x, hx, rfl⟩ := hk
  by_cases hkh : k = h
  · subst hkh
    exact ⟨x', setHelper_self k x', hid x hx⟩
  · exact ⟨x, (setHelper_of_ne hkh x').trans hx, rfl⟩

theorem Inv.setHelper (hi : Inv n s) {h : ℕ} {x' : Helper} (hx' : HelperOk n s x')
    (hid : ∀ x ∈ s.helpers h, x'.containerID = x.containerID) : Inv n (s.setHelper h x') where
  phase r := by
    have := hi.phase r
    show PhaseOk n (s.setHelper h x') (s.phase r)
    cases hr : s.phase r <;> rw [hr] at this
    case spawned => exact setHelper_container hid this
    case acquired => exact setHelper_container hid this
    all_goals exact this
  helper k x hk := by
    by_cases hkh : k = h
    · subst hkh
      obtain rfl : x' = x := Option.some_inj.mp ((setHelper_self k x').symm.trans hk)
      exact hx'
    · exact hi.helper k x ((setHelper_of_ne hkh x').symm.trans hk)
  pool p hp := setHelper_container hid (hi.pool p hp)

theorem State.live_eq_some {id : Text} {h : ℕ} {x : Helper} (hl : s.live id = some (h, x)) :
    (id, h) ∈ s.pool ∧ s.helpers h = some x := by
  simp only [State.live, Option.bind_eq_some_iff, Option.map_eq_some_iff, Option.filter_eq_some_iff,
    Prod.mk.injEq] at hl
  obtain ⟨h', hlook, x', ⟨hx, -⟩, rfl, rfl⟩ := hl
  obtain ⟨l₁, l₂, hl, -⟩ := List.lookup_eq_some_iff.mp hlook
  exact ⟨by rw [hl]; simp, hx⟩

/-- What the pool has for a container is a helper of it. -/
theorem Inv.live (hi : Inv n s) {id : Text} {h : ℕ} {x : Helper} (hl : s.live id = some (h, x)) :
    s.helpers h = some x ∧ x.containerID = id := by
  obtain ⟨hp, hx⟩ := State.live_eq_some hl
  obtain ⟨x', hx', hid⟩ := hi.pool _ hp
  obtain rfl : x = x' := Option.some_inj.mp (hx.symm.trans hx')
  exact ⟨hx, hid⟩

/-- A helper that more or fewer requests hold. -/
theorem Inv.setInflight (hi : Inv n s) {h : ℕ} {x : Helper} (hx : s.helpers h = some x) (k : ℕ) :
    Inv n (s.setHelper h { x with inflight := k }) :=
  hi.setHelper (hi.helper h x hx) fun y hy => by
    obtain rfl : x = y := Option.some_inj.mp (hx.symm.trans hy)
    rfl

/-- A helper that moves on. -/
theorem Inv.setStage (hi : Inv n s) {h : ℕ} {x : Helper} (hx : s.helpers h = some x) {stage : Stage}
    (hok : HelperOk n s { x with stage := stage }) : Inv n (s.setHelper h { x with stage := stage }) :=
  hi.setHelper hok fun y hy => by
    obtain rfl : x = y := Option.some_inj.mp (hx.symm.trans hy)
    rfl

/-- A helper that is taken out of the pool. -/
theorem Inv.drop (hi : Inv n s) {h : ℕ} {x : Helper} (hx : s.helpers h = some x) :
    Inv n ((s.setHelper h { x with dead := true }).setPool (s.without h)) := by
  have hi' : Inv n (s.setHelper h { x with dead := true }) :=
    hi.setHelper (hi.helper h x hx) fun y hy => by
      obtain rfl : x = y := Option.some_inj.mp (hx.symm.trans hy)
      rfl
  exact hi'.setPool fun p hp => hi'.pool p (List.mem_of_mem_filter hp)

/-- A helper is registered. -/
theorem Inv.registerFirst (hi : Inv n s) {r h : ℕ} {id : Text} {x : Helper} (hx : s.helpers h = some x)
    (hid : x.containerID = id) :
    Inv n (((s.setHelper h { x with inflight := 1 }).setPool ((id, h) :: s.pool.filter fun p => p.1 ≠ id)).setPhase
      r (.acquired id h)) := by
  have hi' := hi.setInflight hx 1
  have hpool : ∀ p ∈ (id, h) :: s.pool.filter fun p => p.1 ≠ id,
      ∃ y, (s.setHelper h { x with inflight := 1 }).helpers p.2 = some y ∧ y.containerID = p.1 := by
    intro p hp
    rcases List.mem_cons.mp hp with rfl | hp
    · exact ⟨_, setHelper_self _ _, hid⟩
    · exact hi'.pool p (List.mem_of_mem_filter hp)
  exact (hi'.setPool hpool).setPhase r ⟨_, setHelper_self _ _, hid⟩

/-- A helper is killed, as there is one registered already. -/
theorem Inv.registerSecond (hi : Inv n s) {r h h' : ℕ} {id : Text} {x x' : Helper} (hx : s.helpers h = some x)
    (hl : s.live id = some (h', x')) :
    Inv n (((s.setHelper h { x with stage := .ended }).setHelper h' { x' with inflight := x'.inflight + 1 }).setPhase
      r (.acquired id h')) := by
  obtain ⟨hx', hid'⟩ := hi.live hl
  have hi' : Inv n (s.setHelper h { x with stage := .ended }) := hi.setStage hx trivial
  have hok : HelperOk n (s.setHelper h { x with stage := .ended }) { x' with inflight := x'.inflight + 1 } :=
    hi.helper h' x' hx'
  refine (hi'.setHelper hok fun z hz => ?_).setPhase r ⟨_, setHelper_self _ _, hid'⟩
  by_cases hh : h' = h
  · subst hh
    obtain rfl : x = x' := Option.some_inj.mp (hx.symm.trans hx')
    rw [setHelper_self] at hz
    rw [← Option.some_inj.mp hz]
  · rw [setHelper_of_ne hh] at hz
    rw [← Option.some_inj.mp (hx'.symm.trans hz)]

/-- Fewer processes keep the invariant. -/
theorem Inv.exit (hi : Inv n s) {procs : ℕ → Option ℕ}
    (hp : ∀ pid t, procs pid = some t → s.procs pid = some t) : Inv n { s with procs := procs } where
  phase r := by
    have := hi.phase r
    show PhaseOk n { s with procs := procs } (s.phase r)
    cases hr : s.phase r <;> rw [hr] at this
    case named => exact fun t ht => this t (hp _ t ht)
    case verified => exact fun t ht => this t (hp _ t ht)
    all_goals exact this
  helper h x hx := by
    have := hi.helper h x hx
    unfold HelperOk at this ⊢
    cases hst : x.stage <;> rw [hst] at this
    case started => exact fun t ht => this t (hp _ t ht)
    all_goals exact this
  pool := hi.pool

/-- After a fork a number has the new process or the one it had. -/
theorem procs_fork {procs : ℕ → Option ℕ} {pid t q u : ℕ} (h : Function.update procs pid (some t) q = some u) :
    (q = pid ∧ t = u) ∨ procs q = some u := by
  by_cases hq : q = pid
  · rw [hq, Function.update_self] at h
    exact Or.inl ⟨hq, Option.some_inj.mp h⟩
  · rw [Function.update_of_ne hq] at h
    exact Or.inr h

/-- A process that disturbs nobody keeps the invariant. -/
theorem Inv.fork (hi : Inv n s) {pid t : ℕ} {born : ℕ → Bool} {s' : State}
    (hg : Undisturbed n s (.fork pid t) s') :
    Inv n { s with procs := Function.update s.procs pid (some t), born := born } where
  phase r := by
    obtain ⟨hr, -⟩ := hg
    have := hi.phase r
    show PhaseOk n _ (s.phase r)
    cases hp : s.phase r <;> rw [hp] at this
    case named id q w =>
      intro u hu
      rcases procs_fork hu with ⟨rfl, rfl⟩ | hu
      · exact (hr r id w (Or.inl hp)).1
      · exact this u hu
    case verified id q w =>
      intro u hu
      rcases procs_fork hu with ⟨rfl, rfl⟩ | hu
      · exact hr r id w (Or.inr hp)
      · exact this u hu
    all_goals exact this
  helper h x hx := by
    obtain ⟨-, hh⟩ := hg
    have := hi.helper h x hx
    unfold HelperOk at this ⊢
    cases hst : x.stage <;> rw [hst] at this
    case started =>
      intro u hu
      rcases procs_fork hu with ⟨hq, rfl⟩ | hu
      · exact hh h x hx hst hq
      · exact this u hu
    all_goals exact this
  pool := hi.pool

/-- `Close` keeps the invariant. -/
theorem Inv.close (hi : Inv n s) (stop : ℕ → Bool) :
    Inv n { s with
      stopped := true
      pool := []
      helpers := fun h => (s.helpers h).map fun x => if stop h then { x with stage := .ended } else x } where
  phase r := by
    have hkeep : ∀ h id, (∃ x, s.helpers h = some x ∧ x.containerID = id) → ∃ x,
        (s.helpers h).map (fun x => if stop h then { x with stage := .ended } else x) = some x ∧
          x.containerID = id := by
      rintro h id ⟨x, hx, rfl⟩
      refine ⟨_, by rw [hx, Option.map_some], ?_⟩
      split <;> rfl
    have := hi.phase r
    show PhaseOk n _ (s.phase r)
    cases hr : s.phase r <;> rw [hr] at this
    case spawned => exact hkeep _ _ this
    case acquired => exact hkeep _ _ this
    all_goals exact this
  helper h x hx := by
    obtain ⟨y, hy, rfl⟩ := Option.map_eq_some_iff.mp hx
    split
    · exact trivial
    · exact hi.helper h y hy
  pool _ hp := nomatch hp

end

/-- Every undisturbed step keeps the invariant. -/
theorem Inv.of_step {n : Node} (hhost : n.hostNS = some n.nodeNS) {s s' : State} {e : Event}
    (h : step n s e = some s') (hg : Undisturbed n s e s') (hi : Inv n s) : Inv n s' := by
  cases e with
  | fork pid t =>
    simp only [step] at h
    split at h
    · cases h
      exact hi.fork hg
    · cases h
  | exit pid =>
    simp only [step] at h
    split at h
    · cases h
    · cases h
      refine hi.exit fun q t hq => ?_
      by_cases hqp : q = pid
      · rw [hqp, Function.update_self] at hq
        cases hq
      · rwa [Function.update_of_ne hqp] at hq
  | acquire r containerID =>
    simp only [step] at h
    split at h
    · split at h
      · cases h
        exact hi.setPhase r trivial
      · next id _ =>
        split at h
        · cases h
          exact hi.setPhase r trivial
        · split at h
          · next k x hl =>
            cases h
            obtain ⟨hx, hid⟩ := hi.live hl
            exact (hi.setInflight hx _).setPhase r ⟨_, setHelper_self _ _, hid⟩
          · split at h <;> cases h <;> exact hi.setPhase r trivial
    · cases h
  | tryCache r fresh =>
    simp only [step] at h
    split at h
    · split at h
      · split at h <;> cases h <;> exact hi.setPhase r trivial
      · cases h
        exact hi.setPhase r trivial
    · cases h
  | scanEntry r pid =>
    simp only [step] at h
    split at h
    · split at h
      · cases h
        exact hi.setPhase r trivial
      · cases h
        exact hi
    · cases h
  | resolve r =>
    simp only [step] at h
    split at h
    · cases h
      exact (hi.setCache _ _).setPhase r trivial
    · cases h
      exact (hi.setCache _ _).setPhase r trivial
    · cases h
  | watch r pidfds =>
    simp only [step] at h
    split at h
    · split at h <;> cases h <;> exact hi.setPhase r trivial
    · cases h
  | verifyCgroup r =>
    simp only [step] at h
    split at h
    · split at h
      · next hnames =>
        cases h
        refine hi.setPhase r fun t ht => ?_
        rwa [ht, Option.any_some] at hnames
      · cases h
        exact hi.setPhase r trivial
    · cases h
  | verifyNamespace r =>
    simp only [step] at h
    split at h
    · next id pid w hp =>
      have hnames : PhaseOk n s (.named id pid w) := hp ▸ hi.phase r
      split at h
      · cases h
        exact hi.setPhase r trivial
      · next hns =>
        cases h
        refine hi.setPhase r fun t ht => ⟨hnames t ht, fun heq => hns ?_⟩
        rw [ht, Option.any_some, hhost, heq, decide_eq_true rfl]
    · cases h
  | start r k ok =>
    simp only [step] at h
    split at h
    · next id pid w hp hk =>
      have hver : PhaseOk n s (.verified id pid w) := hp ▸ hi.phase r
      split at h
      · cases h
        refine (hi.setHelper (show HelperOk n s ⟨id, pid, w, .started, 0, false⟩ from hver) ?_).setPhase r
          ⟨_, setHelper_self _ _, rfl⟩
        rw [hk]
        exact fun x hx => nomatch hx
      · cases h
        exact hi.setPhase r trivial
    · cases h
  | register r =>
    simp only [step] at h
    split at h
    · next id k hp =>
      obtain ⟨y, hy, hyid⟩ : PhaseOk n s (.spawned id k) := hp ▸ hi.phase r
      split at h
      · next x k' x' hx hl =>
        cases h
        exact hi.registerSecond hx hl
      · next x hx hl =>
        cases h
        obtain rfl : x = y := Option.some_inj.mp (hx.symm.trans hy)
        exact hi.registerFirst hx hyid
      · cases h
    · cases h
  | answer r =>
    simp only [step] at h
    repeat' split at h
    all_goals cases h
    exact hi
  | release r =>
    simp only [step] at h
    split at h
    · split at h
      · next x hx =>
        cases h
        exact (hi.setInflight hx _).setPhase r trivial
      · cases h
    · cases h
  | helperOpen k =>
    simp only [step] at h
    split at h
    · next x hx =>
      split at h
      · next hst =>
        have hok : ∀ t, s.procs x.pid = some t → n.Belongs x.containerID t := by
          have := hi.helper k x hx
          rwa [HelperOk, hst] at this
        split at h
        · next t ht =>
          cases h
          exact hi.setStage hx (hok t ht)
        · cases h
          exact hi.setStage hx trivial
      · cases h
    · cases h
  | helperJoin k =>
    simp only [step] at h
    split at h
    · next x hx =>
      split at h
      · next t hst =>
        cases h
        have hok := hi.helper k x hx
        rw [HelperOk, hst] at hok
        exact hi.setStage hx hok
      · cases h
    · cases h
  | helperExit k =>
    simp only [step] at h
    split at h
    · next x hx =>
      cases h
      exact hi.setStage hx trivial
    · cases h
  | reaped k =>
    simp only [step] at h
    split at h
    · next x hx =>
      split at h
      · cases h
        exact hi.drop hx
      · cases h
    · cases h
  | notify k =>
    simp only [step] at h
    split at h
    · next x hx =>
      split at h
      · cases h
        exact hi.drop hx
      · cases h
    · cases h
  | expire k =>
    simp only [step] at h
    split at h
    · next x hx =>
      split at h
      · cases h
        exact hi.drop hx
      · cases h
    · cases h
  | kill k =>
    simp only [step] at h
    split at h
    · next x hx =>
      split at h
      · cases h
        exact hi.setStage hx trivial
      · cases h
    · cases h
  | close =>
    cases h
    exact hi.close fun h => s.pool.any fun p => p.2 = h

/-- In a state with the invariant an answer comes from the container. -/
theorem Inv.contained {n : Node} {s s' : State} {e : Event} (hi : Inv n s) : Contained n s e s' := by
  cases e with
  | answer r =>
    intro id h x t hp hx hst
    obtain ⟨y, hy, hid⟩ : PhaseOk n s (.acquired id h) := hp ▸ hi.phase r
    obtain rfl : x = y := Option.some_inj.mp (hx.symm.trans hy)
    have := hi.helper h x hx
    rw [HelperOk, hst, hid] at this
    exact this
  | _ => trivial

/-- **A helper serves only the container it was spawned for**, in every run in which no
process outside the container takes over its number before it has opened the namespace. -/
theorem helpers_serve_their_container (n : Node) (hhost : n.hostNS = some n.nodeNS) (es : List Event)
    (h : Along (step n) (Undisturbed n) .init es) : Along (step n) (Contained n) .init es :=
  Along.of_invariant (I := Inv n) (Inv.of_step hhost) (fun _ _ hi => hi.contained) h (inv_init n)

/-- A node with a process of one container, numbered `0`, and one of another. -/
def twoContainers : Node where
  task t :=
    if t = 0 then ⟨"0::/kubepods.slice/crio-aaaaaaaaaaaa.scope".toList, 1⟩
    else ⟨"0::/kubepods.slice/crio-bbbbbbbbbbbb.scope".toList, 2⟩
  nodeNS := 0
  hostNS := some 0
  maxHelpers := 64

/-- A request for the first container, up to its helper in the pool. -/
def opening : List Event :=
  [.fork 100 0, .acquire 0 "cri-o://aaaaaaaaaaaa".toList, .tryCache 0 true, .scanEntry 0 100, .resolve 0,
    .watch 0 true, .verifyCgroup 0, .verifyNamespace 0, .start 0 0 true, .register 0]

/-- A run in which the container stays is safe. -/
theorem helpers_serve_opening :
    Along (step twoContainers) (Contained twoContainers) .init (opening ++ [.helperOpen 0, .helperJoin 0, .answer 0]) :=
  helpers_serve_their_container twoContainers rfl _ <|
    .cons rfl ⟨nofun, nofun⟩ <| .cons rfl trivial <| .cons rfl trivial <| .cons rfl trivial <|
    .cons rfl trivial <| .cons rfl trivial <| .cons rfl trivial <| .cons rfl trivial <|
    .cons rfl trivial <| .cons rfl trivial <| .cons rfl trivial <| .cons rfl trivial <|
    .cons rfl trivial .nil

/-- The first container exits and a process of the second takes over its number, before
the helper opens the namespace and the watcher has reported: the request is answered out
of the second container. -/
theorem reused_pid_serves_other_container :
    ¬ Along (step twoContainers) (Contained twoContainers) .init
      (opening ++ [.exit 100, .fork 100 1, .helperOpen 0, .helperJoin 0] ++ [.answer 0]) := by
  intro h
  have hother := Along.at h rfl rfl
  exact absurd (hother _ _ _ 1 rfl rfl rfl) (by decide)

end OpenshiftConsole.Filesystem.Spawn
