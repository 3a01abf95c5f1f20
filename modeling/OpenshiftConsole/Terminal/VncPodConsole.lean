import OpenshiftConsole.Library.Base64
import OpenshiftConsole.Library.Runs
import OpenshiftConsole.Terminal.Endpoints

/-!
# The VNC console of a pod

`VncPodConsole` shows a container's screen. An effect opens a session of noVNC for what is selected, and its clean-up
disconnects the session; both run when the selection or the attempt becomes another one. A session that was
disconnected may still tell what happened to it, and what it waits for still arrives.

A state holds the sessions that were ever opened, the one whose clean-up React holds, the timers that run, and what the
component shows. A session's `phase` and `log` and the state's `retries` are not in the source: they record how far
noVNC says the session has come, what was done in order, and the delays of the retries since the schedule was last
restarted.

Whatever the order of events, a password goes only to the session that is shown, and each session before it has been
disconnected (`run_confined`).
-/

namespace OpenshiftConsole.Terminal.VncPodConsole

open OpenshiftConsole.Library
open OpenshiftConsole.Library.Runs
open OpenshiftConsole.Logging (Str)
open OpenshiftConsole.Logging.Journal (ascii decimal)
open OpenshiftConsole.Terminal.Endpoints (VncAuth VncEndpoint)

inductive ConnectionState where
  | connecting | connected | disconnected
deriving DecidableEq

def INITIAL_BACKOFF_MS : ℕ := 500

def MAX_BACKOFF_MS : ℕ := 64000

/-! ### What is selected -/

structure Props where
  /-- `obj?.metadata?.namespace`, empty if there is none. -/
  podNamespace : Str
  /-- `obj?.metadata?.name`, empty if there is none. -/
  podName : Str
  containerName : Str
  /-- `vncEndpointsForContainer(obj, containerName)` -/
  endpoints : List VncEndpoint
  connectionId : Str

/-- `endpoint` -/
def Props.endpoint (p : Props) : Option VncEndpoint :=
  (if p.connectionId = [] then none else p.endpoints.find? (decimal ·.port = p.connectionId)).or p.endpoints.head?

/-- What the effect that connects depends on, but for the attempt. -/
structure Target where
  podNamespace : Str
  podName : Str
  containerName : Str
  port : Option ℕ
deriving DecidableEq

def Props.target (p : Props) : Target where
  podNamespace := p.podNamespace
  podName := p.podName
  containerName := p.containerName
  port := p.endpoint.map (·.port)

/-- What the effect that forgets depends on. -/
def Target.server (t : Target) : Str × Str × Option ℕ := (t.podNamespace, t.podName, t.port)

/-! ### Passwords -/

def DEFAULT_SECRET_KEY : Str := ascii "password"

/-- `atob`, if the string is Base 64. -/
def atob (s : Str) : Option Str :=
  (Base64.forgiving (s.map fun c => Char.ofNat c.toNat)).map fun bytes => bytes.map fun b => UInt16.ofNat b.toNat

/-- How the request for a secret ends: `secret?.data` by its keys, or what was thrown. -/
inductive SecretReply where
  | secret (data : Option (List (Str × Str)))
  | failed (message : Str)
deriving DecidableEq

/-- What `atob` throws; the text is the browser's. -/
def notBase64 : Str := ascii "The string to be decoded is not correctly encoded."

/-- `resolveVncPassword`, once its request is answered; with a password in the annotation there is no request. -/
def resolveVncPassword (auth : VncAuth) (reply : SecretReply) : Except Str Str :=
  match auth, reply with
  | .password password, _ => .ok password
  | .secretRef _, .failed message => .error message
  | .secretRef ref, .secret data =>
    let key := ref.key.getD DEFAULT_SECRET_KEY
    match data.bind (·.lookup key) with
    | none => .error (ascii "Secret \"" ++ ref.name ++ ascii "\" has no key \"" ++ key ++ ascii "\"")
    | some value =>
      match atob value with
      | none => .error notBase64
      | some password => .ok password

/-- Kubernetes encodes the bytes of a secret; each is a code unit then, so only a password in ASCII comes back as it
was written. -/
theorem atob_encode (bs : List UInt8) :
    atob ((Base64.encode bs).map fun c => UInt16.ofNat c.toNat) = some (bs.map fun b => UInt16.ofNat b.toNat) := by
  obtain ⟨ds, k, hds, -, hmem, -⟩ := Base64.exists_digits bs
  have hback : ∀ c : Char, c.toNat < 128 → Char.ofNat (UInt16.ofNat c.toNat).toNat = c := fun c hc => by
    rw [UInt16.toNat_ofNat_of_lt' (hc.trans (by decide)), Char.ofNat_toNat]
  have hsame : (Base64.encode bs).map (fun c => Char.ofNat (UInt16.ofNat c.toNat).toNat) = Base64.encode bs := by
    refine (List.map_congr_left fun c hc => ?_).trans (List.map_id _)
    rw [hds, List.mem_append, List.mem_replicate] at hc
    rcases hc with hc | ⟨-, rfl⟩
    · exact hback c (Base64.toNat_lt_of_mem (hmem c hc))
    · exact hback '=' (by decide)
  have hcomp : ((Base64.encode bs).map fun c => UInt16.ofNat c.toNat).map (fun c => Char.ofNat c.toNat) =
      Base64.encode bs := by
    rw [List.map_map]
    exact hsame
  rw [atob, hcomp, Base64.forgiving_encode, Option.map_some]

/-! ### A session -/

/-- Whose password it is: the endpoint's, or what the user has entered. -/
inductive Sender where
  | endpoint | user
deriving DecidableEq

/-- What a session did, or what was done to it. -/
inductive Act where
  | connected
  | disconnected
  /-- The server requires a password, and nothing else. -/
  | required
  | fetchSecret (podNamespace name : Str)
  | replied (reply : SecretReply)
  | sendCredentials (password : Str) (sender : Sender)
  /-- `rfb.disconnect()` -/
  | cleanedUp
deriving DecidableEq

structure Session where
  target : Target
  port : ℕ
  auth : Option VncAuth
  cancelled : Bool
  reportedSpecificError : Bool
  /-- How many passwords are being resolved. -/
  resolving : ℕ
  phase : ConnectionState
  log : List Act

/-- What noVNC tells of a session. -/
inductive RfbEvent where
  | connect
  | disconnect (clean : Bool)
  /-- `event?.detail?.reason`, empty if there is none. -/
  | securityfailure (reason : Str)
  /-- `event?.detail?.types ?? ['password']` -/
  | credentialsrequired (types : List Str)
deriving DecidableEq

/-- The session that the effect opens. -/
def Session.start (target : Target) (endpoint : VncEndpoint) : Session where
  target
  port := endpoint.port
  auth := endpoint.auth
  cancelled := false
  reportedSpecificError := false
  resolving := 0
  phase := .connecting
  log := []

def Session.did (x : Session) (a : Act) : Session := { x with log := x.log ++ [a] }

/-- What `resolveVncPassword` requests. -/
def Session.request (x : Session) : VncAuth → Session
  | .password _ => x
  | .secretRef ref => x.did (.fetchSecret x.target.podNamespace ref.name)

/-- What the listeners leave of a session. -/
def Session.dispatch (x : Session) : RfbEvent → Session
  | .connect => { x.did .connected with phase := .connected }
  | .disconnect _ => { x.did .disconnected with phase := .disconnected }
  | .securityfailure _ => { x with reportedSpecificError := true }
  | .credentialsrequired types =>
    if types ≠ [ascii "password"] then { x with reportedSpecificError := true }
    else
      match x.auth with
      | none => x.did .required
      | some auth => { (x.did .required).request auth with resolving := x.resolving + 1 }

/-- A password is resolved, or not: `resolveVncPassword(…).then(…).catch(…)`. -/
def Session.resolve (x : Session) (auth : VncAuth) (reply : SecretReply) : Session :=
  let x := { x.did (.replied reply) with resolving := x.resolving - 1 }
  if x.cancelled then x
  else
    match resolveVncPassword auth reply with
    | .ok password => x.did (.sendCredentials password .endpoint)
    | .error _ => { x with reportedSpecificError := true }

/-- `rfbRef.current?.sendCredentials` -/
def Session.submit (x : Session) (manualPassword : Str) : Session := x.did (.sendCredentials manualPassword .user)

/-- What the effect returns to React, but for the timer. -/
def Session.cleanUp (x : Session) : Session := { x.did .cleanedUp with cancelled := true }

/-! ### The component -/

/-- A timer of `setTimeout` that has not fired, of a session. -/
structure Timer where
  id : ℕ
  session : ℕ
  delay : ℕ
deriving DecidableEq

structure State where
  mounted : Bool
  /-- What the effects last ran for. -/
  deps : Option (Target × ℕ)
  attempt : ℕ
  sessions : List Session
  /-- `rfbRef.current`, which is the session whose clean-up React holds. -/
  current : Option ℕ
  state : ConnectionState
  /-- `hasConnectedRef` -/
  hasConnected : Bool
  /-- `backoffMsRef` -/
  backoffMs : ℕ
  /-- `reconnectTimerRef` -/
  reconnectTimer : Option ℕ
  timers : List Timer
  /-- The number of the next timer. -/
  nextTimer : ℕ
  needsManualPassword : Bool
  /-- What `onError` was called with last. -/
  error : Option Str
  /-- `typingRef` -/
  typing : Bool
  /-- The calls of `typeClipboard` that go on, and into which session. -/
  typings : List (Option ℕ)
  retries : List ℕ

inductive Event where
  /-- The component is mounted or renders, and the effects run. -/
  | render (props : Props)
  | unmount
  | rfb (i : ℕ) (e : RfbEvent)
  /-- `onStreamError` -/
  | streamError (i : ℕ) (message : Str)
  | resolved (i : ℕ) (reply : SecretReply)
  | timeout (id : ℕ)
  | reconnect
  /-- The form is submitted, with `manualPassword` as it was rendered. -/
  | submitManualPassword (manualPassword : Str)
  | typeClipboard
  /-- A call of `typeClipboard` ends, with what it could not read the clipboard for. -/
  | typed (k : ℕ) (message : Option Str)

/-- Nothing was mounted yet. -/
def init : State where
  mounted := false
  deps := none
  attempt := 0
  sessions := []
  current := none
  state := .connecting
  hasConnected := false
  backoffMs := INITIAL_BACKOFF_MS
  reconnectTimer := none
  timers := []
  nextTimer := 0
  needsManualPassword := false
  error := none
  typing := false
  typings := []
  retries := []

/-- `clearTimeout(reconnectTimerRef.current)` -/
def State.clearTimer (s : State) : State :=
  match s.reconnectTimer with
  | none => s
  | some id => { s with timers := s.timers.filter (·.id ≠ id), reconnectTimer := none }

/-- The clean-up of the session that React holds, if it holds one. -/
def State.cleanUp (s : State) : State :=
  match s.current with
  | none => s
  | some i => { s.clearTimer with sessions := s.sessions.modify i Session.cleanUp, current := none }

/-- The first effect. -/
def State.forget (s : State) : State :=
  { s with hasConnected := false, backoffMs := INITIAL_BACKOFF_MS, retries := [] }

/-- The second effect; the screen is there if there is an endpoint. -/
def State.connect (s : State) (target : Target) (endpoint : Option VncEndpoint) : State :=
  match endpoint with
  | none => s
  | some endpoint =>
    if target.podNamespace = [] ∨ target.podName = [] then s
    else
      { s with
        sessions := s.sessions ++ [.start target endpoint]
        current := some s.sessions.length
        state := .connecting
        needsManualPassword := false
        error := none }

/-- Each effect runs if what it depends on has become another, after the clean-up. -/
def State.commit (s : State) (props : Props) : State :=
  if s.deps = some (props.target, s.attempt) then s
  else
    let forgotten := if s.deps.map (·.1.server) = some props.target.server then s.cleanUp else s.cleanUp.forget
    { forgotten.connect props.target props.endpoint with deps := some (props.target, s.attempt) }

/-- `setTimeout`, and the next delay. -/
def State.retry (s : State) (i : ℕ) : State :=
  { s with
    backoffMs := min (s.backoffMs * 2) MAX_BACKOFF_MS
    reconnectTimer := some s.nextTimer
    timers := s.timers ++ [⟨s.nextTimer, i, s.backoffMs⟩]
    nextTimer := s.nextTimer + 1
    retries := s.retries ++ [s.backoffMs] }

/-- `Lost the VNC connection to {{container}} on port {{port}}.` -/
def lostMessage (x : Session) : Str :=
  ascii "Lost the VNC connection to " ++ x.target.containerName ++ ascii " on port " ++ decimal x.port ++ ascii "."

/-- What the listeners of a session do with the component. -/
def State.dispatch (s : State) (i : ℕ) (x : Session) : RfbEvent → State
  | .connect =>
    { s with
      state := .connected
      needsManualPassword := false
      error := none
      hasConnected := true
      backoffMs := INITIAL_BACKOFF_MS
      retries := [] }
  | .disconnect clean =>
    let error := if clean || x.reportedSpecificError then s.error else some (lostMessage x)
    let s := { s with state := .disconnected, error }
    if s.hasConnected && !x.cancelled then s.retry i else s
  | .securityfailure reason =>
    { s with error := some (if reason = [] then ascii "The VNC server rejected the connection." else reason) }
  | .credentialsrequired types =>
    if types ≠ [ascii "password"] then
      { s with
        error := some (ascii "This VNC server requires a kind of authentication this plugin does not support.") }
    else if x.auth.isNone then { s with needsManualPassword := true }
    else s

/-- What the component shows of a password that is resolved, or not. -/
def State.resolve (s : State) (x : Session) (auth : VncAuth) (reply : SecretReply) : State :=
  if x.cancelled then s
  else
    match resolveVncPassword auth reply with
    | .ok _ => s
    | .error message =>
      { s with error := some (ascii "Could not resolve the VNC password: " ++ message), needsManualPassword := true }

/-- `rfbRef.current?.sendCredentials({ password: manualPassword })` -/
def State.submitted (s : State) (manualPassword : Str) : List Session :=
  match s.current with
  | none => s.sessions
  | some i => s.sessions.modify i (·.submit manualPassword)

def step (s : State) : Event → Option State
  | .render props => if s.mounted || s.deps.isNone then some ({ s with mounted := true }.commit props) else none
  | .unmount => if s.mounted then some { s.cleanUp with mounted := false } else none
  | .rfb i e =>
    match s.sessions[i]? with
    | none => none
    | some x => some { s.dispatch i x e with sessions := s.sessions.set i (x.dispatch e) }
  | .streamError i message => if i < s.sessions.length then some { s with error := some message } else none
  | .resolved i reply =>
    match s.sessions[i]? with
    | none => none
    | some x =>
      match x.auth with
      | none => none
      | some auth =>
        if x.resolving = 0 then none
        else some { s.resolve x auth reply with sessions := s.sessions.set i (x.resolve auth reply) }
  | .timeout id =>
    match s.timers.find? (·.id = id) with
    | none => none
    | some timer =>
      let s := { s with timers := s.timers.filter (·.id ≠ id) }
      -- the state of an unmounted component is set without an effect
      if (s.sessions[timer.session]?.map (·.cancelled)) = some false then some { s with attempt := s.attempt + 1 }
      else some s
  | .reconnect =>
    if s.mounted then
      some { s.clearTimer with backoffMs := INITIAL_BACKOFF_MS, retries := [], attempt := s.attempt + 1 }
    else none
  | .submitManualPassword manualPassword =>
    if s.mounted then
      some { s with sessions := s.submitted manualPassword, needsManualPassword := false }
    else none
  | .typeClipboard =>
    some (if s.typing then s else { s with typing := true, typings := s.typings ++ [s.current] })
  | .typed k message =>
    if k < s.typings.length then
      some { s with typing := false, typings := s.typings.eraseIdx k, error := message.or s.error }
    else none
/-! ### What is asked of a run -/

/-- Each act of a log has the property after those before it. -/
def Each (P : List Act → Act → Prop) (log : List Act) : Prop := ∀ l a r, log = l ++ a :: r → P l a

/-- A password is sent to a session that goes on; the endpoint's own only if the server has required one, and as it was
resolved. A secret is read in the pod's namespace, and only the one that the endpoint names. -/
def Proper (target : Target) (auth : Option VncAuth) (l : List Act) : Act → Prop
  | .sendCredentials password sender => .cleanedUp ∉ l ∧ (sender = .endpoint → .required ∈ l ∧
      ∃ a reply, auth = some a ∧ .replied reply ∈ l ∧ resolveVncPassword a reply = .ok password)
  | .fetchSecret podNamespace name =>
    .required ∈ l ∧ podNamespace = target.podNamespace ∧ ∃ ref, auth = some (.secretRef ref) ∧ ref.name = name
  | .cleanedUp => .cleanedUp ∉ l
  | _ => True

/-- No password goes to a session that was left, and no session that was left goes on. -/
structure Confined (s : State) : Prop where
  proper : ∀ x ∈ s.sessions, Each (Proper x.target x.auth) x.log
  /-- All sessions were disconnected but the one that is shown. -/
  left : ∀ i x, s.sessions[i]? = some x → (.cleanedUp ∈ x.log ↔ s.current ≠ some i)
  unmounted : s.mounted = false → s.current = none
  typings : s.typings.length ≤ 1

variable {s s' : State} {e : Event} {i : ℕ} {x : Session} {log : List Act} {a : Act}

/-! ### What a session does -/

theorem each_append {P : List Act → Act → Prop} :
    Each P (log ++ [a]) ↔ Each P log ∧ P log a := by
  constructor
  · intro h
    exact ⟨fun l b r hl => h l b (r ++ [a]) (by rw [hl]; simp), h log a [] rfl⟩
  · rintro ⟨hlog, ha⟩ l b r hl
    rcases List.eq_nil_or_concat r with rfl | ⟨r, c, rfl⟩
    · obtain ⟨rfl, hb⟩ := List.append_inj' hl rfl
      exact List.head_eq_of_cons_eq hb ▸ ha
    · rw [List.concat_eq_append, ← List.cons_append, ← List.append_assoc] at hl
      exact hlog l b r (List.append_inj' hl rfl).1

/-- What always holds of a session. -/
structure Sound (x : Session) : Prop where
  proper : Each (Proper x.target x.auth) x.log
  cancelled : .cleanedUp ∈ x.log ↔ x.cancelled = true
  required : x.resolving ≠ 0 → .required ∈ x.log

theorem Sound.start (target : Target) (endpoint : VncEndpoint) : Sound (.start target endpoint) where
  proper _ _ _ h := by simp [Session.start] at h
  cancelled := by simp [Session.start]
  required h := absurd rfl h

/-- Anything is done but to clean up. -/
theorem Sound.did (h : Sound x) (ha : Proper x.target x.auth x.log a) (hne : a ≠ .cleanedUp) : Sound (x.did a) where
  proper := each_append.mpr ⟨h.proper, ha⟩
  cancelled := by simp [Session.did, h.cancelled, Ne.symm hne]
  required hr := List.mem_append_left _ (h.required hr)

theorem Sound.request {auth : VncAuth} (h : Sound x) (ha : x.auth = some auth) (hr : .required ∈ x.log) :
    Sound (x.request auth) := by
  cases auth with
  | password => exact h
  | secretRef ref => exact h.did ⟨hr, rfl, ref, ha, rfl⟩ nofun

theorem mem_request {auth : VncAuth} (hr : a ∈ x.log) : a ∈ (x.request auth).log := by
  cases auth with
  | password => exact hr
  | secretRef ref => exact List.mem_append_left _ hr

theorem Sound.dispatch (h : Sound x) (e : RfbEvent) : Sound (x.dispatch e) := by
  cases e with
  | connect =>
    have hdid := h.did (a := .connected) trivial nofun
    exact ⟨hdid.proper, hdid.cancelled, hdid.required⟩
  | disconnect =>
    have hdid := h.did (a := .disconnected) trivial nofun
    exact ⟨hdid.proper, hdid.cancelled, hdid.required⟩
  | securityfailure => exact ⟨h.proper, h.cancelled, h.required⟩
  | credentialsrequired types =>
    rw [Session.dispatch]
    split
    · exact ⟨h.proper, h.cancelled, h.required⟩
    · have hdid := h.did (a := .required) trivial nofun
      have hmem : .required ∈ (x.did .required).log := List.mem_append_right _ List.mem_cons_self
      split
      · exact hdid
      · rename_i auth ha
        have hrequest := hdid.request ha hmem
        exact ⟨hrequest.proper, hrequest.cancelled, fun _ => mem_request hmem⟩

theorem Sound.cleanUp (h : Sound x) (hx : x.cancelled = false) : Sound x.cleanUp where
  proper := each_append.mpr ⟨h.proper, fun hc => by simp [h.cancelled.mp hc] at hx⟩
  cancelled := by simp [Session.cleanUp, Session.did]
  required hr := List.mem_append_left _ (h.required hr)

theorem Sound.submit (h : Sound x) (hx : x.cancelled = false) (manualPassword : Str) :
    Sound (x.submit manualPassword) :=
  h.did ⟨fun hc => by simp [h.cancelled.mp hc] at hx, nofun⟩ nofun

theorem Sound.resolve {auth : VncAuth} (h : Sound x) (ha : x.auth = some auth) (hr : x.resolving ≠ 0)
    (reply : SecretReply) : Sound (x.resolve auth reply) := by
  have hdid := h.did (a := .replied reply) trivial nofun
  have hreplied : Sound { x.did (.replied reply) with resolving := x.resolving - 1 } :=
    ⟨hdid.proper, hdid.cancelled, fun _ => hdid.required hr⟩
  rw [Session.resolve]
  dsimp only
  split
  · exact hreplied
  · rename_i hx
    split
    · rename_i password hp
      refine hreplied.did ⟨fun hc => hx (hreplied.cancelled.mp hc), fun _ => ⟨?_, auth, reply, ha, ?_, hp⟩⟩ nofun
      · exact List.mem_append_left _ (h.required hr)
      · exact List.mem_append_right _ List.mem_cons_self
    · exact ⟨hreplied.proper, hreplied.cancelled, hreplied.required⟩

@[simp] theorem dispatch_cancelled (x : Session) (e : RfbEvent) : (x.dispatch e).cancelled = x.cancelled := by
  cases e with
  | credentialsrequired types =>
    rw [Session.dispatch]
    split
    · rfl
    · split
      · rfl
      · rename_i auth _
        cases auth <;> rfl
  | _ => rfl

@[simp] theorem dispatch_target (x : Session) (e : RfbEvent) : (x.dispatch e).target = x.target := by
  cases e with
  | credentialsrequired types =>
    rw [Session.dispatch]
    split
    · rfl
    · split
      · rfl
      · rename_i auth _
        cases auth <;> rfl
  | _ => rfl

@[simp] theorem resolve_cancelled (x : Session) (auth : VncAuth) (reply : SecretReply) :
    (x.resolve auth reply).cancelled = x.cancelled := by
  rw [Session.resolve]
  dsimp only
  split
  · rfl
  · split <;> rfl

@[simp] theorem resolve_target (x : Session) (auth : VncAuth) (reply : SecretReply) :
    (x.resolve auth reply).target = x.target := by
  rw [Session.resolve]
  dsimp only
  split
  · rfl
  · split <;> rfl

/-! ### What the component does -/

theorem clearTimer_eq (s : State) :
    s.clearTimer = { s with timers := s.clearTimer.timers, reconnectTimer := none } := by
  unfold State.clearTimer
  split
  · rename_i h
    cases s
    simp_all
  · rfl

theorem cleanUp_eq (s : State) : s.cleanUp =
    { s with
      sessions := s.cleanUp.sessions
      current := none
      timers := s.cleanUp.timers
      reconnectTimer := s.cleanUp.reconnectTimer } := by
  unfold State.cleanUp
  split
  · rename_i h
    cases s
    simp_all
  · rw [clearTimer_eq]

theorem cleanUp_getElem? (s : State) (i : ℕ) :
    s.cleanUp.sessions[i]? = s.sessions[i]?.map fun x => if s.current = some i then x.cleanUp else x := by
  rw [State.cleanUp]
  split
  · rename_i hc
    simp [hc]
  · rename_i j hc
    rw [hc, List.getElem?_modify]
    by_cases hj : j = i <;> simp [hj]

/-- What is not connected or disconnected leaves what is shown, but for an error and a form. -/
theorem dispatch_quiet (i : ℕ) (x : Session) (e : RfbEvent) : e = .connect ∨ (∃ clean, e = .disconnect clean) ∨
    ∃ error needsManualPassword, s.dispatch i x e = { s with error, needsManualPassword } := by
  cases e with
  | connect => exact .inl rfl
  | disconnect clean => exact .inr (.inl ⟨clean, rfl⟩)
  | securityfailure => exact .inr (.inr ⟨_, _, rfl⟩)
  | credentialsrequired types =>
    refine .inr (.inr ?_)
    rw [State.dispatch]
    split
    · exact ⟨_, _, rfl⟩
    · split
      · exact ⟨_, _, rfl⟩
      · exact ⟨_, _, rfl⟩

theorem resolve_quiet (x : Session) (auth : VncAuth) (reply : SecretReply) :
    ∃ error needsManualPassword, s.resolve x auth reply = { s with error, needsManualPassword } := by
  rw [State.resolve]
  split
  · exact ⟨_, _, rfl⟩
  · split
    · exact ⟨_, _, rfl⟩
    · exact ⟨_, _, rfl⟩

/-- Only the session that is shown gets what the user enters. -/
theorem submitted_cases (s : State) (manualPassword : Str) : s.submitted manualPassword = s.sessions ∨
    ∃ i x, s.current = some i ∧ s.sessions[i]? = some x ∧
      s.submitted manualPassword = s.sessions.set i (x.submit manualPassword) := by
  unfold State.submitted
  split
  · exact .inl rfl
  · rename_i i hc
    rcases hi : s.sessions[i]? with _ | x
    · exact .inl (List.modify_eq_self (List.getElem?_eq_none_iff.mp hi))
    · refine .inr ⟨i, x, hc, hi, List.ext_getElem? fun j => ?_⟩
      rw [List.getElem?_modify, List.getElem?_set]
      by_cases hj : i = j
      · obtain ⟨hlt, rfl⟩ := List.getElem?_eq_some_iff.mp hi
        subst hj
        simp [hlt]
      · simp [hj]

/-- What the listeners leave alone. -/
theorem dispatch_keeps (s : State) (i : ℕ) (x : Session) (e : RfbEvent) :
    (s.dispatch i x e).current = s.current ∧ (s.dispatch i x e).mounted = s.mounted ∧
      (s.dispatch i x e).typing = s.typing ∧ (s.dispatch i x e).typings = s.typings ∧
      (s.dispatch i x e).deps = s.deps := by
  rcases dispatch_quiet i x e with rfl | ⟨clean, rfl⟩ | ⟨error, needs, hs⟩
  · exact ⟨rfl, rfl, rfl, rfl, rfl⟩
  · rw [State.dispatch]
    dsimp only
    split <;> exact ⟨rfl, rfl, rfl, rfl, rfl⟩
  · rw [hs]
    exact ⟨rfl, rfl, rfl, rfl, rfl⟩

/-! ### No password for a session that was left -/

/-- What always holds of the component. -/
structure Inv (s : State) : Prop where
  sound : ∀ x ∈ s.sessions, Sound x
  /-- React holds the clean-up of the session that is not cleaned up. -/
  current : ∀ i x, s.sessions[i]? = some x → (x.cancelled = false ↔ s.current = some i)
  unmounted : s.mounted = false → s.current = none
  typings : s.typings.length = if s.typing then 1 else 0

theorem inv_init : Inv init where
  sound := by simp [init]
  current := by simp [init]
  unmounted _ := rfl
  typings := rfl

theorem Inv.confined (h : Inv s) : Confined s where
  proper x hx := (h.sound x hx).proper
  left i x hi := by
    have hcurrent := h.current i x hi
    rw [(h.sound x (List.mem_of_getElem? hi)).cancelled, ← Bool.not_eq_false]
    exact not_congr hcurrent
  unmounted := h.unmounted
  typings := by
    rw [h.typings]
    split <;> decide

/-- A session has become another one, and goes on if it did. -/
theorem Inv.set {x' : Session} (h : Inv s) (hi : s.sessions[i]? = some x) (hx : Sound x')
    (hc : x'.cancelled = x.cancelled) : Inv { s with sessions := s.sessions.set i x' } where
  sound y hy := by
    rcases List.mem_or_eq_of_mem_set hy with hy | rfl
    · exact h.sound y hy
    · exact hx
  current j y hj := by
    by_cases hij : i = j
    · subst hij
      rw [List.getElem?_set_self (List.getElem?_eq_some_iff.mp hi).1] at hj
      obtain rfl := Option.some_inj.mp hj
      rw [hc]
      exact h.current i x hi
    · rw [List.getElem?_set_ne hij] at hj
      exact h.current j y hj
  unmounted := h.unmounted
  typings := h.typings

theorem Inv.congr (h : Inv s) (hsessions : s'.sessions = s.sessions) (hcurrent : s'.current = s.current)
    (hmounted : s'.mounted = s.mounted) (htyping : s'.typing = s.typing) (htypings : s'.typings = s.typings) :
    Inv s' where
  sound := hsessions ▸ h.sound
  current := by
    rw [hsessions, hcurrent]
    exact h.current
  unmounted := by
    rw [hmounted, hcurrent]
    exact h.unmounted
  typings := by rw [htyping, htypings, h.typings]

theorem Inv.cleanUp (h : Inv s) : Inv s.cleanUp := by
  have hback : ∀ i y, s.cleanUp.sessions[i]? = some y →
      ∃ x, s.sessions[i]? = some x ∧ y = if s.current = some i then x.cleanUp else x := by
    intro i y hy
    obtain ⟨x, hx, hxy⟩ := Option.map_eq_some_iff.mp ((cleanUp_getElem? s i).symm.trans hy)
    exact ⟨x, hx, hxy.symm⟩
  rw [cleanUp_eq]
  refine ⟨fun y hy => ?_, fun i y hi => ?_, fun _ => rfl, h.typings⟩
  · obtain ⟨i, hi⟩ := List.mem_iff_getElem?.mp hy
    obtain ⟨x, hx, rfl⟩ := hback i y hi
    have hsound := h.sound x (List.mem_of_getElem? hx)
    split
    · rename_i hc
      exact hsound.cleanUp ((h.current i x hx).mpr hc)
    · exact hsound
  · obtain ⟨x, hx, rfl⟩ := hback i y hi
    split
    · simp [Session.cleanUp]
    · rename_i hc
      simp [h.current i x hx, hc]

/-- Nothing is held, and a session may be opened. -/
theorem Inv.connect (h : Inv s) (hm : s.mounted = true) (hc : s.current = none) (target : Target)
    (endpoint : Option VncEndpoint) : Inv (s.connect target endpoint) := by
  unfold State.connect
  split
  · exact h
  · rename_i endpoint
    split
    · exact h
    · refine ⟨fun y hy => ?_, fun i y hi => ?_, fun hm' => ?_, h.typings⟩
      · rcases List.mem_append.mp hy with hy | hy
        · exact h.sound y hy
        · obtain rfl := List.mem_singleton.mp hy
          exact .start target endpoint
      · rcases lt_or_ge i s.sessions.length with hlt | hge
        · rw [List.getElem?_append_left hlt] at hi
          rw [h.current i y hi, hc]
          simp [hlt.ne']
        · rw [List.getElem?_append_right hge] at hi
          obtain ⟨hlt, rfl⟩ := List.getElem?_eq_some_iff.mp hi
          have hlen : i = s.sessions.length := by
            rw [List.length_singleton] at hlt
            omega
          simp [Session.start, hlen]
      · exact absurd hm (by simp [show s.mounted = false from hm'])

theorem Inv.forget (h : Inv s) : Inv s.forget := ⟨h.sound, h.current, h.unmounted, h.typings⟩

theorem cleanUp_current (s : State) : s.cleanUp.current = none := by rw [cleanUp_eq]

theorem cleanUp_mounted (s : State) : s.cleanUp.mounted = s.mounted := by rw [cleanUp_eq]

theorem Inv.commit (h : Inv s) (hm : s.mounted = true) (props : Props) : Inv (s.commit props) := by
  have hm' : s.cleanUp.mounted = true := (cleanUp_mounted s).trans hm
  rw [State.commit]
  split
  · exact h
  · split
    · have hconnect := h.cleanUp.connect hm' (cleanUp_current s) props.target props.endpoint
      exact ⟨hconnect.sound, hconnect.current, hconnect.unmounted, hconnect.typings⟩
    · have hconnect := h.cleanUp.forget.connect hm' (cleanUp_current s) props.target props.endpoint
      exact ⟨hconnect.sound, hconnect.current, hconnect.unmounted, hconnect.typings⟩

theorem step_inv (h : step s e = some s') (hI : Inv s) : Inv s' := by
  cases e with
  | render props =>
    obtain ⟨-, rfl⟩ : _ ∧ _ := by simpa [step] using h
    have hmounted : Inv { s with mounted := true } := ⟨hI.sound, hI.current, nofun, hI.typings⟩
    exact hmounted.commit rfl props
  | unmount =>
    obtain ⟨-, rfl⟩ : _ ∧ _ := by simpa [step] using h
    exact ⟨hI.cleanUp.sound, hI.cleanUp.current, fun _ => cleanUp_current s, hI.cleanUp.typings⟩
  | rfb i e =>
    simp only [step] at h
    split at h
    · cases h
    · rename_i x hi
      obtain rfl := Option.some_inj.mp h
      obtain ⟨hc, hm, ht, hts, -⟩ := dispatch_keeps s i x e
      have hset := hI.set hi ((hI.sound x (List.mem_of_getElem? hi)).dispatch e) (dispatch_cancelled x e)
      exact hset.congr rfl hc hm ht hts
  | streamError i message =>
    obtain ⟨-, rfl⟩ : _ ∧ _ := by simpa [step] using h
    exact hI.congr rfl rfl rfl rfl rfl
  | resolved i reply =>
    simp only [step] at h
    split at h
    · cases h
    · rename_i x hi
      split at h
      · cases h
      · rename_i auth ha
        split at h
        · cases h
        · rename_i hr
          obtain rfl := Option.some_inj.mp h
          have hresolve := (hI.sound x (List.mem_of_getElem? hi)).resolve ha hr reply
          have hset := hI.set hi hresolve (resolve_cancelled x auth reply)
          obtain ⟨error, needs, hs⟩ := resolve_quiet (s := s) x auth reply
          rw [hs]
          exact hset.congr rfl rfl rfl rfl rfl
  | timeout id =>
    simp only [step] at h
    split at h
    · cases h
    · split at h
      · obtain rfl := Option.some_inj.mp h
        exact hI.congr rfl rfl rfl rfl rfl
      · obtain rfl := Option.some_inj.mp h
        exact hI.congr rfl rfl rfl rfl rfl
  | reconnect =>
    obtain ⟨-, rfl⟩ : _ ∧ _ := by simpa [step] using h
    rw [clearTimer_eq]
    exact hI.congr rfl rfl rfl rfl rfl
  | submitManualPassword manualPassword =>
    obtain ⟨-, rfl⟩ : _ ∧ _ := by simpa [step] using h
    rcases submitted_cases s manualPassword with hs | ⟨i, x, hc, hi, hs⟩
    · rw [hs]
      exact hI.congr rfl rfl rfl rfl rfl
    · rw [hs]
      have hx := (hI.current i x hi).mpr hc
      exact (hI.set hi ((hI.sound x (List.mem_of_getElem? hi)).submit hx manualPassword) rfl).congr rfl rfl rfl rfl rfl
  | typeClipboard =>
    obtain rfl : _ = s' := by simpa [step] using h
    split
    · exact hI
    · rename_i ht
      refine ⟨hI.sound, hI.current, hI.unmounted, ?_⟩
      simp [hI.typings, ht]
  | typed k message =>
    obtain ⟨hk, rfl⟩ : _ ∧ _ := by simpa [step] using h
    refine ⟨hI.sound, hI.current, hI.unmounted, ?_⟩
    have hle := hI.confined.typings
    simp only [List.length_eraseIdx, hk, if_true]
    simp
    omega

theorem run_inv {es : List Event} (h : run step s es = some s') (hI : Inv s) : Inv s' :=
  (Along.of_forall (P := fun _ _ _ => True) (fun _ _ _ _ => trivial) s).invariant
    (fun hs _ hI => step_inv hs hI) hI h

/-- The endpoint of a container. -/
def selected (containerName : String) (port : ℕ) (auth : Option VncAuth) : Props where
  podNamespace := ascii "vms"
  podName := ascii "vm"
  containerName := ascii containerName
  endpoints := [⟨port, auth, none, none⟩]
  connectionId := []

/-- A password is typed in the annotation, and another container is selected before it is sent. -/
def leftEarly : List Event :=
  [.render (selected "guest" 5900 (some (.password (ascii "secret")))),
    .rfb 0 (.credentialsrequired [ascii "password"]), .render (selected "qemu" 5901 none),
    .resolved 0 (.secret none), .rfb 1 (.credentialsrequired [ascii "password"]),
    .submitManualPassword (ascii "typed"), .unmount]

/-- Whatever happens in whatever order, a session that was left gets no password, and no session goes on but the one
that is shown. -/
theorem run_confined {es : List Event} (h : run step init es = some s) : Confined s := (run_inv h inv_init).confined

theorem run_confined_leftEarly : ∃ s, run step init leftEarly = some s ∧ Confined s ∧
    s.sessions.map (·.log) = [[.required, .cleanedUp, .replied (.secret none)],
      [.required, .sendCredentials (ascii "typed") .user, .cleanedUp]] :=
  ⟨_, rfl, @run_confined _ leftEarly rfl, rfl⟩

end OpenshiftConsole.Terminal.VncPodConsole
