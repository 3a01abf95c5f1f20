import OpenshiftConsole.Library.Runs
import OpenshiftConsole.NodeTerminal.Identity

/-!
# The handshake of privacy mode

In privacy mode the login session does not run under PID 1 of the pod but under
processes started by `kubectl exec`. The two sides meet in two files of the host's
`/run`: PID 1 publishes the user's name in the active-user marker and waits until a
session-ended marker is there; an exec session polls for the first and, when its
login is over, makes the second.

The state below has PID 1's place in `pipeline_run`, the two markers, and any number
of exec sessions, each at its place in `pipeline_run_exec_session`; the logins they
have spawned may outlive them. `handshake_safe` is the result: as long as no exec
session is about to spawn, and unless termination was requested no login runs, when
PID 1 takes the active-user marker away, no login is spawned after the rollback has
begun and the rollback begins for a reason.
-/

namespace OpenshiftConsole.NodeTerminal.ExecMode

open OpenshiftConsole.Library.Lines OpenshiftConsole.Library.Runs

/-- Where PID 1 is in `pipeline_run`: what it does next. -/
inductive PidOne where
  /-- The set-up steps. -/
  | setUp
  /-- `remove_session_ended_marker`, before publishing. -/
  | clearEnded
  /-- `write_active_user_marker`: opening the file. -/
  | openActive
  /-- `write_active_user_marker`: writing and closing it. -/
  | writeActive
  /-- The loop. -/
  | waiting
  /-- `remove_active_user_marker`. -/
  | removeActive
  /-- `remove_session_ended_marker`, before rolling back. -/
  | removeEnded
  /-- `rollback`. -/
  | rollback
  deriving DecidableEq

/-- Where an exec session is in `pipeline_run_exec_session`. -/
inductive ExecSession where
  /-- It has not been started. -/
  | absent
  /-- It polls for the marker, so many more times. -/
  | polling (attempts : ℕ)
  /-- It has read this name and spawns its login next. -/
  | found (username : Text)
  /-- It waits for its login. -/
  | waiting (username : Text)
  /-- Its wait is over; it makes the session-ended marker next. -/
  | ended
  /-- It has returned, after its session. -/
  | done
  /-- It has returned without one. -/
  | gaveUp

/-- The state of a pod in privacy mode. -/
structure State where
  /-- PID 1. -/
  pidOne : PidOne
  /-- The active-user marker. -/
  active : Option Text
  /-- The session-ended marker is there. -/
  ended : Bool
  /-- PID 1 has been asked to terminate. -/
  terminated : Bool
  /-- The exec sessions. -/
  exec : ℕ → ExecSession
  /-- The login that an exec session has spawned is running. -/
  login : ℕ → Bool

/-- What can happen. -/
inductive Event where
  /-- The next step of PID 1, which fails if `ok` is false. -/
  | pidOne (ok : Bool)
  /-- A termination signal reaches PID 1. -/
  | terminate
  /-- An exec session is started, and gets as far as polling if `ok`. -/
  | start (i : ℕ) (ok : Bool)
  /-- An attempt of an exec session to read the marker. -/
  | attempt (i : ℕ)
  /-- An exec session forks its login; the fork may fail. -/
  | spawn (i : ℕ) (ok : Bool)
  /-- A login ends. -/
  | logout (i : ℕ)
  /-- `waitpid` returns. -/
  | reap (i : ℕ)
  /-- A termination signal reaches an exec session: its wait ends, its login does not. -/
  | interrupt (i : ℕ)
  /-- `write_session_ended_marker`, which may fail. -/
  | signalEnd (i : ℕ) (ok : Bool)

/-- `read_active_user_marker`: the first line, as far as it fits in the buffer. -/
def readActiveUserMarker (marker : Option Text) : Option Text :=
  match marker.bind fun s => (getlines s).head? with
  | none => none
  | some line =>
    let out := chomp (cstr (line.take (SHIM_USERNAME_MAX - 1)))
    if out = [] then none else some out

/-- The next step of PID 1. -/
def pidOneStep (username : Text) (s : State) (ok : Bool) : Option State :=
  match s.pidOne with
  | .setUp => some { s with pidOne := if ok then .clearEnded else .rollback }
  | .clearEnded => some { s with pidOne := .openActive, ended := false }
  | .openActive =>
    if ok then some { s with pidOne := .writeActive, active := some [] }
    else some { s with pidOne := .rollback }
  -- the results of `fprintf` and `fclose` are not looked at
  | .writeActive => some { s with pidOne := .waiting, active := some (if ok then username ++ ['\n'] else []) }
  | .waiting => some { s with pidOne := if s.terminated || s.ended then .removeActive else .waiting }
  | .removeActive => some { s with pidOne := .removeEnded, active := none }
  | .removeEnded => some { s with pidOne := .rollback, ended := false }
  | .rollback => none

/-- The state with an exec session somewhere else. -/
def State.setExec (s : State) (i : ℕ) (p : ExecSession) : State :=
  { s with exec := Function.update s.exec i p }

/-- The state with a login started or ended. -/
def State.setLogin (s : State) (i : ℕ) (b : Bool) : State :=
  { s with login := Function.update s.login i b }

theorem State.setExec_exec_self (s : State) (i : ℕ) (p : ExecSession) : (s.setExec i p).exec i = p :=
  Function.update_self ..

theorem State.setExec_exec_of_ne (s : State) {i j : ℕ} (h : j ≠ i) (p : ExecSession) :
    (s.setExec i p).exec j = s.exec j :=
  Function.update_of_ne h ..

theorem State.setLogin_login_self (s : State) (i : ℕ) (b : Bool) : (s.setLogin i b).login i = b :=
  Function.update_self ..

theorem State.setLogin_login_of_ne (s : State) {i j : ℕ} (h : j ≠ i) (b : Bool) :
    (s.setLogin i b).login j = s.login j :=
  Function.update_of_ne h ..

/-- The state after an event, if it can happen. `username` is the name PID 1 settled on. -/
def step (username : Text) (s : State) : Event → Option State
  | .pidOne ok => pidOneStep username s ok
  | .terminate => some { s with terminated := true }
  | .start i ok =>
    match s.exec i with
    | .absent => some (s.setExec i (if ok then .polling 50 else .gaveUp))
    | _ => none
  | .attempt i =>
    match s.exec i with
    | .polling 0 => some (s.setExec i .gaveUp)
    | .polling (n + 1) =>
      match readActiveUserMarker s.active with
      | some username => some (s.setExec i (.found username))
      | none => some (s.setExec i (.polling n))
    | _ => none
  | .spawn i ok =>
    match s.exec i with
    | .found username =>
      if ok then some ((s.setExec i (.waiting username)).setLogin i true) else some (s.setExec i .ended)
    | _ => none
  | .logout i => if s.login i then some (s.setLogin i false) else none
  | .reap i =>
    match s.exec i with
    | .waiting _ => if s.login i then none else some (s.setExec i .ended)
    | _ => none
  | .interrupt i =>
    match s.exec i with
    | .waiting _ => some (s.setExec i .ended)
    | _ => none
  | .signalEnd i ok =>
    match s.exec i with
    | .ended => some { s.setExec i .done with ended := s.ended || ok }
    | _ => none

/-- A pod whose PID 1 has just started. A container that was killed may have left
markers behind. -/
def State.init (active : Option Text) (ended : Bool) : State :=
  ⟨.setUp, active, ended, false, fun _ => .absent, fun _ => false⟩

/-- The exec session is about to spawn its login. -/
def ExecSession.isFound : ExecSession → Bool
  | .found _ => true
  | _ => false

/-- The exec session has ended. -/
def ExecSession.hasEnded : ExecSession → Bool
  | .ended => true
  | .done => true
  | _ => false

/-- The promise of the handshake, for one step: a login is spawned only while PID 1 has
not begun its rollback, and PID 1 begins it only when termination was requested or an
exec session has ended and no login is running. -/
structure SafeStep (s : State) (_ : Event) (s' : State) : Prop where
  /-- No login is spawned late. -/
  spawned : ∀ i, s.login i = false → s'.login i = true → s.pidOne ≠ .rollback
  /-- The rollback has a reason. -/
  rolledBack : s.pidOne ≠ .rollback → s'.pidOne = .rollback →
    s.terminated = true ∨ (∃ i, (s.exec i).hasEnded = true) ∧ ∀ i, s.login i = false

/-- A step at which nothing goes wrong: the steps of the set-up succeed, and when PID 1
takes the active-user marker away, no exec session is about to spawn and, unless
termination was requested, no login is running. -/
def Orderly (s : State) (e : Event) (_ : State) : Prop :=
  match e with
  | .pidOne ok =>
    (s.pidOne = .setUp ∨ s.pidOne = .openActive → ok = true) ∧
      (s.pidOne = .removeActive →
        ∀ i, (s.exec i).isFound = false ∧ (s.terminated = true ∨ s.login i = false))
  | _ => True

/-! ### What a step can do -/

/-- What an event that is not a step of PID 1 can do. -/
structure SideStep (s s' : State) : Prop where
  /-- PID 1 stays where it is. -/
  pidOne : s'.pidOne = s.pidOne
  /-- The active-user marker is left alone. -/
  active : s'.active = s.active
  /-- A request to terminate stands. -/
  terminated : s.terminated = true → s'.terminated = true
  /-- A session that has ended has ended. -/
  hasEnded : ∀ i, (s.exec i).hasEnded = true → (s'.exec i).hasEnded = true
  /-- The session-ended marker is made by a session that has ended. -/
  ended : s'.ended = true → s.ended = true ∨ ∃ i, (s'.exec i).hasEnded = true
  /-- A name is found in a marker. -/
  isFound : ∀ i, (s'.exec i).isFound = true → (s.exec i).isFound = true ∨ s.active ≠ none
  /-- A login is spawned by a session that has found a name. -/
  login : ∀ i, s.login i = false → s'.login i = true → (s.exec i).isFound = true

theorem SideStep.setExec {s : State} {i : ℕ} {p : ExecSession}
    (hend : (s.exec i).hasEnded = true → p.hasEnded = true) (hfound : p.isFound = true → s.active ≠ none) :
    SideStep s (s.setExec i p) where
  pidOne := rfl
  active := rfl
  terminated h := h
  hasEnded j h := by
    by_cases hj : j = i
    · subst hj
      rw [State.setExec_exec_self]
      exact hend h
    · rwa [State.setExec_exec_of_ne s hj]
  ended h := Or.inl h
  isFound j h := by
    by_cases hj : j = i
    · subst hj
      rw [State.setExec_exec_self] at h
      exact Or.inr (hfound h)
    · rw [State.setExec_exec_of_ne s hj] at h
      exact Or.inl h
  login j h h' := absurd (h.symm.trans h') Bool.false_ne_true

theorem readActiveUserMarker_none : readActiveUserMarker none = none := rfl

/-- An event is a step of PID 1, or does what one beside it can do. -/
theorem step_cases {u : Text} {s s' : State} {e : Event} (h : step u s e = some s') :
    (∃ ok, e = .pidOne ok ∧ pidOneStep u s ok = some s') ∨ SideStep s s' := by
  cases e with
  | pidOne ok => exact Or.inl ⟨ok, rfl, h⟩
  | terminate =>
    cases h
    exact Or.inr ⟨rfl, rfl, fun _ => rfl, fun _ h => h, Or.inl, fun _ => Or.inl,
      fun _ h h' => absurd (h.symm.trans h') Bool.false_ne_true⟩
  | start i ok =>
    simp only [step] at h
    split at h
    · next hi =>
      cases h
      exact Or.inr (.setExec (by rw [hi]; exact fun h => nomatch h) (by cases ok <;> exact fun h => nomatch h))
    · cases h
  | attempt i =>
    simp only [step] at h
    split at h
    · next hi =>
      cases h
      exact Or.inr (.setExec (by rw [hi]; exact fun h => nomatch h) fun h => nomatch h)
    · next n hi =>
      split at h
      · next username hread =>
        cases h
        refine Or.inr (.setExec (by rw [hi]; exact fun h => nomatch h) fun _ hnone => ?_)
        rw [hnone, readActiveUserMarker_none] at hread
        cases hread
      · cases h
        exact Or.inr (.setExec (by rw [hi]; exact fun h => nomatch h) fun h => nomatch h)
    · cases h
  | spawn i ok =>
    simp only [step] at h
    split at h
    · next username hi =>
      split at h
      · cases h
        have hx : SideStep s (s.setExec i (.waiting username)) :=
          .setExec (by rw [hi]; exact fun h => nomatch h) fun h => nomatch h
        refine Or.inr ⟨rfl, rfl, fun h => h, hx.hasEnded, Or.inl, hx.isFound, fun j h h' => ?_⟩
        by_cases hj : j = i
        · rw [hj, hi]
          rfl
        · rw [State.setLogin_login_of_ne _ hj] at h'
          exact absurd (h.symm.trans h') Bool.false_ne_true
      · cases h
        exact Or.inr (.setExec (by rw [hi]; exact fun h => nomatch h) fun h => nomatch h)
    · cases h
  | logout i =>
    simp only [step] at h
    split at h
    · cases h
      refine Or.inr ⟨rfl, rfl, fun h => h, fun _ h => h, Or.inl, fun _ => Or.inl, fun j h h' => ?_⟩
      by_cases hj : j = i
      · rw [hj, State.setLogin_login_self] at h'
        cases h'
      · rw [State.setLogin_login_of_ne s hj] at h'
        exact absurd (h.symm.trans h') Bool.false_ne_true
    · cases h
  | reap i =>
    simp only [step] at h
    split at h
    · split at h
      · cases h
      · cases h
        exact Or.inr (.setExec (fun _ => rfl) fun h => nomatch h)
    · cases h
  | interrupt i =>
    simp only [step] at h
    split at h
    · cases h
      exact Or.inr (.setExec (fun _ => rfl) fun h => nomatch h)
    · cases h
  | signalEnd i ok =>
    simp only [step] at h
    split at h
    · cases h
      have hx : SideStep s (s.setExec i .done) := .setExec (fun _ => rfl) fun h => nomatch h
      have hdone : ((s.setExec i .done).exec i).hasEnded = true := by
        rw [State.setExec_exec_self]
        rfl
      exact Or.inr ⟨rfl, rfl, fun h => h, hx.hasEnded, fun _ => Or.inr ⟨i, hdone⟩, hx.isFound, hx.login⟩
    · cases h

/-! ### The handshake -/

/-- What holds in every state of an orderly run. -/
structure Inv (s : State) : Prop where
  /-- The session-ended marker, once PID 1 has cleared it, means that a session has ended. -/
  marker : s.pidOne ≠ .setUp → s.pidOne ≠ .clearEnded → s.ended = true → ∃ i, (s.exec i).hasEnded = true
  /-- PID 1 leaves its loop for a reason. -/
  reason : s.pidOne = .removeActive ∨ s.pidOne = .removeEnded →
    s.terminated = true ∨ ∃ i, (s.exec i).hasEnded = true
  /-- Without the active-user marker no session gets a name. -/
  gone : s.pidOne = .removeEnded ∨ s.pidOne = .rollback → s.active = none ∧ ∀ i, (s.exec i).isFound = false
  /-- Between taking the marker away and rolling back no login runs, unless termination was requested. -/
  idle : s.pidOne = .removeEnded → s.terminated = true ∨ ∀ i, s.login i = false

theorem inv_init (active : Option Text) (ended : Bool) : Inv (.init active ended) where
  marker h := absurd rfl h
  reason h := by rcases h with h | h <;> cases h
  gone h := by rcases h with h | h <;> cases h
  idle h := nomatch h

theorem Inv.side {s s' : State} (h : SideStep s s') (hi : Inv s) : Inv s' where
  marker h1 h2 h3 := by
    rw [h.pidOne] at h1 h2
    rcases h.ended h3 with h3 | h3
    · obtain ⟨i, hx⟩ := hi.marker h1 h2 h3
      exact ⟨i, h.hasEnded i hx⟩
    · exact h3
  reason hp := by
    rw [h.pidOne] at hp
    exact (hi.reason hp).imp h.terminated fun ⟨i, hx⟩ => ⟨i, h.hasEnded i hx⟩
  gone hp := by
    rw [h.pidOne] at hp
    obtain ⟨ha, hf⟩ := hi.gone hp
    refine ⟨h.active.trans ha, fun i => Bool.eq_false_iff.mpr fun hx => ?_⟩
    rcases h.isFound i hx with hx | hx
    · exact absurd ((hf i).symm.trans hx) Bool.false_ne_true
    · exact hx ha
  idle hp := by
    rw [h.pidOne] at hp
    refine (hi.idle hp).imp h.terminated fun hl i => Bool.eq_false_iff.mpr fun hx => ?_
    exact absurd (((hi.gone (Or.inl hp)).2 i).symm.trans (h.login i (hl i) hx)) Bool.false_ne_true

theorem Inv.pidOne {u : Text} {s s' : State} {ok : Bool} (h : pidOneStep u s ok = some s')
    (hg : Orderly s (.pidOne ok) s') (hi : Inv s) : Inv s' := by
  obtain ⟨hok, hremove⟩ := hg
  unfold pidOneStep at h
  split at h
  · next hp =>
    obtain rfl := hok (Or.inl hp)
    cases h
    exact ⟨fun _ h => absurd rfl h, by simp, by simp, by simp⟩
  · cases h
    exact ⟨by simp, by simp, by simp, by simp⟩
  · next hp =>
    obtain rfl := hok (Or.inr hp)
    cases h
    exact ⟨fun _ _ => hi.marker (by simp [hp]) (by simp [hp]), by simp, by simp, by simp⟩
  · next hp =>
    cases h
    exact ⟨fun _ _ => hi.marker (by simp [hp]) (by simp [hp]), by simp, by simp, by simp⟩
  · next hp =>
    have hmarker := hi.marker (by simp [hp]) (by simp [hp])
    cases h
    by_cases hleave : (s.terminated || s.ended) = true
    · simp only [hleave, if_true]
      refine ⟨fun _ _ => hmarker, fun _ => ?_, by simp, by simp⟩
      exact ((Bool.or_eq_true _ _).mp hleave).imp id hmarker
    · simp only [hleave]
      exact ⟨fun _ _ => hmarker, by simp, by simp, by simp⟩
  · next hp =>
    have hclear := hremove hp
    have hreason := hi.reason (Or.inl hp)
    have hmarker := hi.marker (by simp [hp]) (by simp [hp])
    cases h
    refine ⟨fun _ _ => hmarker, fun _ => hreason, fun _ => ⟨rfl, fun i => (hclear i).1⟩, fun _ => ?_⟩
    by_cases ht : s.terminated = true
    · exact Or.inl ht
    · exact Or.inr fun i => ((hclear i).2).resolve_left ht
  · next hp =>
    have hgone := hi.gone (Or.inl hp)
    cases h
    exact ⟨by simp, by simp, fun _ => hgone, by simp⟩
  · cases h

theorem Inv.of_step {u : Text} {s s' : State} {e : Event} (h : step u s e = some s') (hg : Orderly s e s')
    (hi : Inv s) : Inv s' := by
  rcases step_cases h with ⟨ok, rfl, h⟩ | h
  · exact hi.pidOne h hg
  · exact hi.side h

/-- PID 1 starts no login. -/
theorem pidOneStep_login {u : Text} {s s' : State} {ok : Bool} (h : pidOneStep u s ok = some s') :
    s'.login = s.login := by
  unfold pidOneStep at h
  split at h
  case h_3 => split at h <;> cases h <;> rfl
  case h_8 => cases h
  all_goals cases h; rfl

/-- An orderly step goes to a rollback only from the removal of the session-ended marker. -/
theorem pidOneStep_rollback {u : Text} {s s' : State} {ok : Bool} (h : pidOneStep u s ok = some s')
    (hg : Orderly s (.pidOne ok) s') (hr : s'.pidOne = .rollback) : s.pidOne = .removeEnded := by
  obtain ⟨hok, -⟩ := hg
  unfold pidOneStep at h
  split at h
  · next hp =>
    obtain rfl := hok (Or.inl hp)
    cases h
    cases hr
  · cases h
    cases hr
  · next hp =>
    obtain rfl := hok (Or.inr hp)
    cases h
    cases hr
  · cases h
    cases hr
  · cases h
    revert hr
    dsimp only
    split <;> intro hr <;> cases hr
  · cases h
    cases hr
  · assumption
  · cases h

theorem Inv.safeStep {u : Text} {s s' : State} {e : Event} (h : step u s e = some s') (hg : Orderly s e s')
    (hi : Inv s) : SafeStep s e s' := by
  rcases step_cases h with ⟨ok, rfl, h⟩ | h
  · refine ⟨fun i h1 h2 => ?_, fun _ hr => ?_⟩
    · rw [pidOneStep_login h] at h2
      exact absurd (h1.symm.trans h2) Bool.false_ne_true
    · have hp := pidOneStep_rollback h hg hr
      by_cases ht : s.terminated = true
      · exact Or.inl ht
      · exact Or.inr ⟨(hi.reason (Or.inr hp)).resolve_left ht, (hi.idle hp).resolve_left ht⟩
  · refine ⟨fun i h1 h2 hr => ?_, fun h1 h2 => absurd (h.pidOne.symm.trans h2) h1⟩
    exact absurd (((hi.gone (Or.inr hr)).2 i).symm.trans (h.login i h1 h2)) Bool.false_ne_true

/-- **The handshake is safe in every orderly run**, whatever markers were left behind. -/
theorem handshake_safe (username : Text) (active : Option Text) (ended : Bool) (es : List Event)
    (h : Along (step username) Orderly (.init active ended) es) :
    Along (step username) SafeStep (.init active ended) es :=
  Along.of_invariant (I := Inv) Inv.of_step Inv.safeStep h (inv_init active ended)

/-- PID 1 sets up, and one exec session logs in and out. -/
def oneSession : List Event :=
  [.pidOne true, .pidOne true, .pidOne true, .pidOne true, .start 0 true, .attempt 0, .spawn 0 true,
    .pidOne true, .logout 0, .reap 0, .signalEnd 0 true, .pidOne true, .pidOne true, .pidOne true]

/-- A run with one exec session is safe. -/
theorem handshake_safe_oneSession :
    Along (step "k8s-sess-0badcafe".toList) SafeStep (.init none false) oneSession :=
  handshake_safe _ _ _ _ <|
    .cons rfl ⟨fun _ => rfl, nofun⟩ <| .cons rfl ⟨fun _ => rfl, nofun⟩ <|
    .cons rfl ⟨fun _ => rfl, nofun⟩ <| .cons rfl ⟨fun _ => rfl, nofun⟩ <|
    .cons rfl trivial <| .cons rfl trivial <| .cons rfl trivial <|
    .cons rfl ⟨fun _ => rfl, nofun⟩ <|
    .cons rfl trivial <| .cons rfl trivial <| .cons rfl trivial <|
    .cons rfl ⟨fun _ => rfl, nofun⟩ <|
    .cons rfl ⟨fun _ => rfl, fun _ i => by cases i <;> exact ⟨rfl, Or.inr rfl⟩⟩ <|
    .cons rfl ⟨fun _ => rfl, nofun⟩ .nil

/-- Two exec sessions find the name, and the first logs in and out; PID 1 rolls back. -/
def twoSessions : List Event :=
  [.pidOne true, .pidOne true, .pidOne true, .pidOne true, .start 0 true, .start 1 true, .attempt 0,
    .attempt 1, .spawn 0 true, .logout 0, .reap 0, .signalEnd 0 true, .pidOne true, .pidOne true, .pidOne true]

/-- The sessions share the session-ended marker: the second spawns its login after the
rollback has begun. -/
theorem second_session_spawns_late :
    ¬ Along (step "k8s-sess-0badcafe".toList) SafeStep (.init none false) (twoSessions ++ [.spawn 1 true]) := by
  intro h
  have hlate := Along.at h rfl rfl
  exact hlate.spawned 1 rfl rfl rfl

end OpenshiftConsole.NodeTerminal.ExecMode
