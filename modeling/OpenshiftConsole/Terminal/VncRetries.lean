import Mathlib.Algebra.Group.Nat.Defs
import OpenshiftConsole.Terminal.VncPodConsole

/-!
# What the VNC console shows and retries

noVNC tells each session once that it is connected, and once that it has ended; a session that was disconnected is told
its end later (`Documented`). The component shows what any of its sessions is told. So the state that is shown is that
of the session on the screen as long as no session before it is told its end while this one goes on (`truthful_iff`).

A session that was lost is retried by a timer. There is one timer at most, it is the session's, its server was reached
before, and the delays double from one retry to the next (`run_paced`).
-/

namespace OpenshiftConsole.Terminal.VncPodConsole

open OpenshiftConsole.Library.Runs
open OpenshiftConsole.Logging (Str)
open OpenshiftConsole.Logging.Journal (ascii)
open OpenshiftConsole.Terminal.Endpoints (VncAuth VncEndpoint)

/-- What noVNC documents: a session is connected once and before it was disconnected, and its end is told once. -/
def Documented (s : State) : Event → Prop
  | .rfb i .connect => ∀ x ∈ s.sessions[i]?, x.phase = .connecting ∧ x.cancelled = false
  | .rfb i (.disconnect _) => ∀ x ∈ s.sessions[i]?, x.phase ≠ .disconnected
  | _ => True

/-- The delay before the retry of this number. -/
def delayOf (n : ℕ) : ℕ := min (INITIAL_BACKOFF_MS * 2 ^ n) MAX_BACKOFF_MS

/-- The session that is shown is retried, by one timer and in steps that double, after it was lost and if its server
was ever reached. -/
structure Paced (s : State) : Prop where
  backoffMs : s.backoffMs = delayOf s.retries.length
  retries : s.retries = (List.range s.retries.length).map delayOf
  one : s.timers.length ≤ 1
  timers : ∀ t ∈ s.timers, s.hasConnected = true ∧ s.current = some t.session ∧ s.reconnectTimer = some t.id ∧
    s.retries.getLast? = some t.delay ∧ ∃ x, s.sessions[t.session]? = some x ∧ x.phase = .disconnected
  reached : s.hasConnected = true → ∃ target attempt, s.deps = some (target, attempt) ∧
    ∃ x ∈ s.sessions, x.target.server = target.server ∧ .connected ∈ x.log

/-- What is shown is the state of the session that is shown. -/
def Truthful (s : State) : Prop := ∀ i x, s.current = some i → s.sessions[i]? = some x → s.state = x.phase

/-- A session that was left tells its end while the one that is shown goes on. -/
def Overwrites (s : State) (e : Event) : Prop :=
  ∃ i clean j y, e = .rfb i (.disconnect clean) ∧ s.current = some j ∧ j ≠ i ∧ s.sessions[j]? = some y ∧
    y.phase ≠ .disconnected

variable {s s' : State} {e : Event} {i : ℕ} {x : Session}

/-! ### The state that is shown -/

theorem dispatch_phase (x : Session) (e : RfbEvent) : (x.dispatch e).phase = match e with
    | .connect => .connected
    | .disconnect _ => .disconnected
    | _ => x.phase := by
  cases e with
  | credentialsrequired types =>
    rw [Session.dispatch]
    split
    · rfl
    · split
      · rfl
      · rename_i auth _
        cases auth <;> rfl
  | _ => rfl

theorem resolve_phase (x : Session) (auth : VncAuth) (reply : SecretReply) :
    (x.resolve auth reply).phase = x.phase := by
  rw [Session.resolve]
  dsimp only
  split
  · rfl
  · split <;> rfl

theorem dispatch_state (s : State) (i : ℕ) (x : Session) (e : RfbEvent) : (s.dispatch i x e).state = match e with
    | .connect => .connected
    | .disconnect _ => .disconnected
    | _ => s.state := by
  cases e with
  | disconnect clean =>
    rw [State.dispatch]
    dsimp only
    split <;> rfl
  | credentialsrequired types =>
    rw [State.dispatch]
    split
    · rfl
    · split <;> rfl
  | _ => rfl

/-- What is shown and what noVNC tells are kept. -/
theorem Truthful.congr (h : Truthful s) (hsessions : s'.sessions = s.sessions) (hcurrent : s'.current = s.current)
    (hstate : s'.state = s.state) : Truthful s' := by
  intro i x hc hi
  rw [hcurrent] at hc
  rw [hsessions] at hi
  rw [hstate]
  exact h i x hc hi

theorem Truthful.set {x' : Session} (h : Truthful s) (hi : s.sessions[i]? = some x) (hx : x'.phase = x.phase) :
    Truthful { s with sessions := s.sessions.set i x' } := by
  intro j y hc hj
  by_cases hij : i = j
  · subst hij
    rw [List.getElem?_set_self (List.getElem?_eq_some_iff.mp hi).1] at hj
    obtain rfl := Option.some_inj.mp hj
    rw [hx]
    exact h i x hc hi
  · rw [List.getElem?_set_ne hij] at hj
    exact h j y hc hj

theorem Truthful.of_none (h : s.current = none) : Truthful s := by
  intro i x hc hi
  rw [h] at hc
  cases hc

theorem truthful_connect (hc : s.current = none) (target : Target) (endpoint : Option VncEndpoint) :
    Truthful (s.connect target endpoint) := by
  unfold State.connect
  split
  · exact .of_none hc
  · rename_i endpoint
    split
    · exact .of_none hc
    · intro i x hi hx
      obtain rfl : s.sessions.length = i := Option.some_inj.mp hi
      rw [List.getElem?_concat_length] at hx
      obtain rfl := Option.some_inj.mp hx
      rfl

theorem Truthful.commit (h : Truthful s) (props : Props) : Truthful (s.commit props) := by
  rw [State.commit]
  split
  · exact h
  · split
    · exact (truthful_connect (cleanUp_current s) props.target props.endpoint).congr rfl rfl rfl
    · have hforget : s.cleanUp.forget.current = none := cleanUp_current s
      exact (truthful_connect hforget props.target props.endpoint).congr rfl rfl rfl

/-- Only what noVNC tells can make what is shown untrue. -/
theorem Truthful.step (hT : Truthful s) (h : step s e = some s') (hne : ∀ i re, e ≠ .rfb i re) : Truthful s' := by
  cases e with
  | rfb i re => exact absurd rfl (hne i re)
  | render props =>
    obtain ⟨-, rfl⟩ : _ ∧ _ := by simpa [VncPodConsole.step] using h
    have hmounted : Truthful { s with mounted := true } := hT.congr rfl rfl rfl
    exact hmounted.commit props
  | unmount =>
    obtain ⟨-, rfl⟩ : _ ∧ _ := by simpa [VncPodConsole.step] using h
    exact .of_none (cleanUp_current s)
  | streamError i message =>
    obtain ⟨-, rfl⟩ : _ ∧ _ := by simpa [VncPodConsole.step] using h
    exact hT.congr rfl rfl rfl
  | resolved i reply =>
    simp only [VncPodConsole.step] at h
    split at h
    · cases h
    · rename_i x hi
      split at h
      · cases h
      · rename_i auth ha
        split at h
        · cases h
        · obtain rfl := Option.some_inj.mp h
          obtain ⟨error, needs, hs⟩ := resolve_quiet (s := s) x auth reply
          rw [hs]
          exact (hT.set hi (resolve_phase x auth reply)).congr rfl rfl rfl
  | timeout id =>
    simp only [VncPodConsole.step] at h
    split at h
    · cases h
    · split at h
      · obtain rfl := Option.some_inj.mp h
        exact hT.congr rfl rfl rfl
      · obtain rfl := Option.some_inj.mp h
        exact hT.congr rfl rfl rfl
  | reconnect =>
    obtain ⟨-, rfl⟩ : _ ∧ _ := by simpa [VncPodConsole.step] using h
    rw [clearTimer_eq]
    exact hT.congr rfl rfl rfl
  | submitManualPassword manualPassword =>
    obtain ⟨-, rfl⟩ : _ ∧ _ := by simpa [VncPodConsole.step] using h
    rcases submitted_cases s manualPassword with hs | ⟨i, x, hc, hi, hs⟩
    · rw [hs]
      exact hT.congr rfl rfl rfl
    · rw [hs]
      have hset : Truthful { s with sessions := s.sessions.set i (x.submit manualPassword) } := hT.set hi rfl
      exact hset.congr rfl rfl rfl
  | typeClipboard =>
    obtain rfl : _ = s' := by simpa [VncPodConsole.step] using h
    split
    · exact hT
    · exact hT.congr rfl rfl rfl
  | typed k message =>
    obtain ⟨-, rfl⟩ : _ ∧ _ := by simpa [VncPodConsole.step] using h
    exact hT.congr rfl rfl rfl

/-- What noVNC tells of the session that is shown is true of it. -/
theorem truthful_dispatch {re : RfbEvent} (hT : Truthful s) (hi : s.sessions[i]? = some x) (hc : s.current = some i) :
    Truthful { s.dispatch i x re with sessions := s.sessions.set i (x.dispatch re) } := by
  intro j y hj hy
  have hj' : s.current = some j := (dispatch_keeps s i x re).1.symm.trans hj
  obtain rfl : i = j := Option.some_inj.mp (hc.symm.trans hj')
  rw [List.getElem?_set_self (List.getElem?_eq_some_iff.mp hi).1] at hy
  obtain rfl := Option.some_inj.mp hy
  show (s.dispatch i x re).state = _
  have htrue := hT i x hc hi
  rw [dispatch_state, dispatch_phase]
  split
  · rfl
  · rfl
  · exact htrue

/-- What noVNC tells of another session is not, if it is the end of one while the one that is shown goes on. -/
theorem truthful_dispatch_iff {re : RfbEvent} (hT : Truthful s) (hi : s.sessions[i]? = some x)
    (hc : s.current ≠ some i) (hre : re ≠ .connect) :
    Truthful { s.dispatch i x re with sessions := s.sessions.set i (x.dispatch re) } ↔
      ¬ Overwrites s (.rfb i re) := by
  have hcurrent := (dispatch_keeps s i x re).1
  have hkept : ∀ j y, s.current = some j →
      ((s.sessions.set i (x.dispatch re))[j]? = some y ↔ s.sessions[j]? = some y) := by
    intro j y hj
    have hij : i ≠ j := by
      rintro rfl
      exact hc hj
    rw [List.getElem?_set_ne hij]
  constructor
  · rintro hT' ⟨k, clean, j, y, he, hj, hjk, hy, hphase⟩
    cases he
    exact hphase ((hT' j y (hcurrent.trans hj) ((hkept j y hj).mpr hy)).symm.trans
      (dispatch_state s i x (.disconnect clean)))
  · intro hover j y hj hy
    have hj' : s.current = some j := hcurrent.symm.trans hj
    have hy' := (hkept j y hj').mp hy
    show (s.dispatch i x re).state = _
    rw [dispatch_state]
    split
    · exact absurd rfl hre
    · rename_i clean
      by_contra hne
      refine hover ⟨i, clean, j, y, rfl, hj', ?_, hy', fun hphase => hne hphase.symm⟩
      rintro rfl
      exact hc hj'
    · exact hT j y hj' hy'

/-- What is shown stays true unless a session that was left tells its end. -/
theorem truthful_step_iff (h : step s e = some s') (hd : Documented s e) (hI : Inv s) (hT : Truthful s) :
    Truthful s' ↔ ¬ Overwrites s e := by
  by_cases hre : ∃ i re, e = .rfb i re
  · obtain ⟨i, re, rfl⟩ := hre
    simp only [step] at h
    split at h
    · cases h
    · rename_i x hi
      obtain rfl := Option.some_inj.mp h
      by_cases hc : s.current = some i
      · refine iff_of_true (truthful_dispatch hT hi hc) ?_
        rintro ⟨k, clean, j, y, he, hj, hjk, -⟩
        cases he
        exact hjk (Option.some_inj.mp (hj.symm.trans hc))
      · refine truthful_dispatch_iff hT hi hc ?_
        rintro rfl
        exact hc ((hI.current i x hi).mp (hd x hi).2)
  · refine iff_of_true (hT.step h fun i re he => hre ⟨i, re, he⟩) ?_
    rintro ⟨i, clean, j, y, rfl, -⟩
    exact hre ⟨i, _, rfl⟩

/-- What is shown is true all the time exactly if no session that was left tells its end while the one that is shown
goes on. -/
theorem truthful_iff {es : List Event} (hd : Along step (fun s e _ => Documented s e) init es) :
    Along step (fun _ _ s => Truthful s) init es ↔ Along step (fun s e _ => ¬ Overwrites s e) init es :=
  hd.iff_of_step (I := Inv) (fun hs _ hI => step_inv hs hI) (fun hs hd hI hT => truthful_step_iff hs hd hI hT) inv_init
    (.of_none rfl)

/-- The console is connected to another container before the session with the first has ended. -/
def switched : List Event :=
  [.render (selected "guest" 5900 none), .rfb 0 .connect, .render (selected "qemu" 5901 none), .rfb 1 .connect,
    .rfb 0 (.disconnect true)]

theorem documented_switched : Along step (fun s e _ => Documented s e) init switched := by
  refine .cons rfl trivial (.cons rfl ?_ (.cons rfl trivial (.cons rfl ?_ (.cons rfl ?_ .nil))))
  · rintro x ⟨⟩
    exact ⟨rfl, rfl⟩
  · rintro x ⟨⟩
    exact ⟨rfl, rfl⟩
  · rintro x ⟨⟩
    exact nofun

theorem truthful_iff_switched : ¬ Along step (fun _ _ s => Truthful s) init switched := by
  intro h
  have hleft := (truthful_iff documented_switched).mp h
  exact @Along.at _ _ _ _ _ _ _ _ (switched.take 4) [] hleft rfl rfl
    ⟨0, true, 1, _, rfl, rfl, by decide, rfl, nofun⟩

/-! ### Retries -/

theorem log_request (x : Session) (auth : VncAuth) : x.log ⊆ (x.request auth).log := by
  cases auth with
  | password => exact List.Subset.refl _
  | secretRef ref => exact List.subset_append_left _ _

theorem log_dispatch (x : Session) (re : RfbEvent) : x.log ⊆ (x.dispatch re).log := by
  cases re with
  | securityfailure => exact List.Subset.refl _
  | credentialsrequired types =>
    rw [Session.dispatch]
    split
    · exact List.Subset.refl _
    · split
      · exact List.subset_append_left _ _
      · rename_i auth _
        exact List.Subset.trans (List.subset_append_left _ _) (log_request (x.did .required) auth)
  | _ => exact List.subset_append_left _ _

theorem log_resolve (x : Session) (auth : VncAuth) (reply : SecretReply) : x.log ⊆ (x.resolve auth reply).log := by
  rw [Session.resolve]
  dsimp only
  split
  · exact List.subset_append_left _ _
  · split
    · exact List.Subset.trans (List.subset_append_left _ _) (List.subset_append_left _ _)
    · exact List.subset_append_left _ _

/-- The session that is shown is the one of what is selected. -/
structure Retrying (s : State) : Prop extends Paced s where
  target : ∀ i x, s.current = some i → s.sessions[i]? = some x → ∃ attempt, s.deps = some (x.target, attempt)

theorem retrying_init : Retrying init where
  backoffMs := rfl
  retries := rfl
  one := by simp [init]
  timers := by simp [init]
  reached := nofun
  target := nofun

theorem Retrying.set {x' : Session} (h : Retrying s) (hi : s.sessions[i]? = some x) (ht : x'.target = x.target)
    (hphase : x.phase = .disconnected → x'.phase = .disconnected) (hlog : x.log ⊆ x'.log) :
    Retrying { s with sessions := s.sessions.set i x' } := by
  have hlt := (List.getElem?_eq_some_iff.mp hi).1
  refine ⟨⟨h.backoffMs, h.retries, h.one, fun t hmem => ?_, fun hconnected => ?_⟩, fun j y hj hy => ?_⟩
  · obtain ⟨hconnected, hc, hid, hlast, y, hy, hyphase⟩ := h.timers t hmem
    refine ⟨hconnected, hc, hid, hlast, ?_⟩
    by_cases hij : i = t.session
    · obtain rfl : x = y := Option.some_inj.mp (hi.symm.trans (hij ▸ hy))
      exact ⟨x', by rw [← hij, List.getElem?_set_self hlt], hphase hyphase⟩
    · exact ⟨y, by rw [List.getElem?_set_ne hij, hy], hyphase⟩
  · obtain ⟨target, attempt, hdeps, y, hy, hserver, hmem⟩ := h.reached hconnected
    refine ⟨target, attempt, hdeps, ?_⟩
    obtain ⟨j, hj⟩ := List.mem_iff_getElem?.mp hy
    by_cases hij : i = j
    · subst hij
      obtain rfl : x = y := Option.some_inj.mp (hi.symm.trans hj)
      exact ⟨x', List.mem_iff_getElem?.mpr ⟨i, List.getElem?_set_self hlt⟩, by rw [ht, hserver], hlog hmem⟩
    · exact ⟨y, List.mem_iff_getElem?.mpr ⟨j, by rw [List.getElem?_set_ne hij, hj]⟩, hserver, hmem⟩
  · by_cases hij : i = j
    · subst hij
      rw [List.getElem?_set_self hlt] at hy
      obtain rfl := Option.some_inj.mp hy
      rw [ht]
      exact h.target i x hj hi
    · rw [List.getElem?_set_ne hij] at hy
      exact h.target j y hj hy

/-- The timer that runs is the one that is cleared. -/
theorem Retrying.clearTimer_timers (h : Retrying s) : s.clearTimer.timers = [] := by
  rw [List.eq_nil_iff_forall_not_mem]
  intro t ht
  unfold State.clearTimer at ht
  split at ht
  · rename_i hid
    exact absurd ((h.timers t ht).2.2.1.symm.trans hid) (by simp)
  · rename_i id hid
    obtain ⟨hmem, hne⟩ := List.mem_filter.mp ht
    have hid' := (h.timers t hmem).2.2.1
    exact of_decide_eq_true hne (Option.some_inj.mp (hid'.symm.trans hid))

theorem Retrying.cleanUp_timers (h : Retrying s) : s.cleanUp.timers = [] := by
  unfold State.cleanUp
  split
  · rename_i hc
    rw [List.eq_nil_iff_forall_not_mem]
    intro t ht
    exact absurd ((h.timers t ht).2.1.symm.trans hc) (by simp)
  · exact h.clearTimer_timers

/-- A session that is not lost is not retried. -/
theorem Retrying.timers_eq_nil (h : Retrying s) (hc : s.current = some i) (hi : s.sessions[i]? = some x)
    (hphase : x.phase ≠ .disconnected) : s.timers = [] := by
  rw [List.eq_nil_iff_forall_not_mem]
  intro t ht
  obtain ⟨-, hc', -, -, y, hy, hyphase⟩ := h.timers t ht
  obtain rfl : i = t.session := Option.some_inj.mp (hc.symm.trans hc')
  obtain rfl : x = y := Option.some_inj.mp (hi.symm.trans hy)
  exact hphase hyphase

theorem delayOf_succ (n : ℕ) : delayOf (n + 1) = min (delayOf n * 2) MAX_BACKOFF_MS := by
  unfold delayOf INITIAL_BACKOFF_MS MAX_BACKOFF_MS
  rw [pow_succ]
  omega

/-- What holds of the sessions that were ever opened holds when more are, or some go on. -/
theorem mem_cleanUp (hx : x ∈ s.sessions) :
    ∃ x' ∈ s.cleanUp.sessions, x'.target = x.target ∧ x.log ⊆ x'.log := by
  obtain ⟨i, hi⟩ := List.mem_iff_getElem?.mp hx
  have hi' := cleanUp_getElem? s i
  rw [hi, Option.map_some] at hi'
  refine ⟨_, List.mem_of_getElem? hi', ?_⟩
  split
  · exact ⟨rfl, List.subset_append_left _ _⟩
  · exact ⟨rfl, List.Subset.refl _⟩

theorem Retrying.cleanUp (h : Retrying s) : Retrying s.cleanUp := by
  have htimers := h.cleanUp_timers
  have hcurrent := cleanUp_current s
  rw [cleanUp_eq] at htimers ⊢
  refine ⟨⟨h.backoffMs, h.retries, ?_, fun t ht => ?_, fun hconnected => ?_⟩, nofun⟩
  · simp [show s.cleanUp.timers = [] from htimers]
  · simp [show s.cleanUp.timers = [] from htimers] at ht
  · obtain ⟨target, attempt, hdeps, x, hx, hserver, hmem⟩ := h.reached hconnected
    obtain ⟨x', hx', htarget, hlog⟩ := mem_cleanUp hx
    exact ⟨target, attempt, hdeps, x', hx', by rw [htarget, hserver], hlog hmem⟩

/-- A session is opened for a server that was reached, or that nothing is known of. -/
theorem Retrying.connect (h : Retrying s) (hc : s.current = none) (htimers : s.timers = []) {target : Target}
    (hserver : s.hasConnected = true → s.deps.map (·.1.server) = some target.server) (endpoint : Option VncEndpoint)
    (attempt : ℕ) : Retrying { s.connect target endpoint with deps := some (target, attempt) } := by
  have hreached : s.hasConnected = true → ∃ x ∈ s.sessions, x.target.server = target.server ∧ .connected ∈ x.log := by
    intro hconnected
    obtain ⟨old, _, hdeps, x, hx, hold, hmem⟩ := h.reached hconnected
    have hsame := hserver hconnected
    rw [hdeps, Option.map_some] at hsame
    exact ⟨x, hx, hold.trans (Option.some_inj.mp hsame), hmem⟩
  unfold State.connect
  split
  · refine ⟨⟨h.backoffMs, h.retries, h.one, h.timers, fun hconnected => ?_⟩, ?_⟩
    · exact ⟨target, attempt, rfl, hreached hconnected⟩
    · intro i x hi
      exact absurd (hc.symm.trans hi) (by simp)
  · rename_i endpoint
    split
    · refine ⟨⟨h.backoffMs, h.retries, h.one, h.timers, fun hconnected => ?_⟩, ?_⟩
      · exact ⟨target, attempt, rfl, hreached hconnected⟩
      · intro i x hi
        exact absurd (hc.symm.trans hi) (by simp)
    · refine ⟨⟨h.backoffMs, h.retries, h.one, fun t ht => ?_, fun hconnected => ?_⟩, fun i x hi hx => ?_⟩
      · exact absurd ht (by simp [htimers])
      · obtain ⟨x, hx, hx'⟩ := hreached hconnected
        exact ⟨target, attempt, rfl, x, List.mem_append_left _ hx, hx'⟩
      · obtain rfl : s.sessions.length = i := Option.some_inj.mp hi
        rw [List.getElem?_concat_length] at hx
        obtain rfl := Option.some_inj.mp hx
        exact ⟨attempt, rfl⟩

theorem Retrying.commit (h : Retrying s) (props : Props) : Retrying (s.commit props) := by
  have hdeps : s.cleanUp.deps = s.deps := by rw [cleanUp_eq]
  rw [State.commit]
  split
  · exact h
  · split
    · rename_i hserver
      exact h.cleanUp.connect (cleanUp_current s) h.cleanUp_timers (fun _ => hdeps ▸ hserver) props.endpoint s.attempt
    · have hforget : Retrying s.cleanUp.forget :=
        ⟨⟨rfl, rfl, h.cleanUp.one, fun t ht => absurd ht (by simp [State.forget, h.cleanUp_timers]),
          fun hconnected => absurd hconnected Bool.false_ne_true⟩, h.cleanUp.target⟩
      exact hforget.connect (cleanUp_current s) h.cleanUp_timers
        (fun hconnected => absurd hconnected Bool.false_ne_true) props.endpoint s.attempt

/-- What noVNC tells of a session starts the schedule again, or goes on with it. -/
theorem Retrying.dispatch {re : RfbEvent} (h : Retrying s) (hI : Inv s) (hi : s.sessions[i]? = some x)
    (hd : Documented s (.rfb i re)) :
    Retrying { s.dispatch i x re with sessions := s.sessions.set i (x.dispatch re) } := by
  have hlt := (List.getElem?_eq_some_iff.mp hi).1
  have hphase : x.phase = .disconnected → (x.dispatch re).phase = .disconnected := by
    intro hx
    rw [dispatch_phase]
    split
    · exact absurd ((hd x hi).1.symm.trans hx) nofun
    · rfl
    · exact hx
  have hset := h.set hi (dispatch_target x re) hphase (log_dispatch x re)
  rcases dispatch_quiet (s := s) i x re with rfl | ⟨clean, rfl⟩ | ⟨error, needs, hs⟩
  · obtain ⟨hx, hcancelled⟩ := hd x hi
    have hc := (hI.current i x hi).mp hcancelled
    have htimers : s.timers = [] := h.timers_eq_nil hc hi (by simp [hx])
    obtain ⟨attempt, hdeps⟩ := h.target i x hc hi
    refine ⟨⟨rfl, rfl, h.one, fun t ht => ?_, fun _ => ⟨x.target, attempt, hdeps, x.dispatch .connect, ?_, rfl, ?_⟩⟩,
      hset.target⟩
    · exact absurd ht (by simp [State.dispatch, htimers])
    · exact List.mem_iff_getElem?.mpr ⟨i, List.getElem?_set_self hlt⟩
    · exact List.mem_append_right _ List.mem_cons_self
  · rw [State.dispatch]
    dsimp only
    split
    · rename_i hretry
      obtain ⟨hconnected, hcancelled⟩ : s.hasConnected = true ∧ x.cancelled = false := by simpa using hretry
      have hc := (hI.current i x hi).mp hcancelled
      have htimers : s.timers = [] := h.timers_eq_nil hc hi (hd x hi)
      refine ⟨⟨?_, ?_, ?_, fun t ht => ?_, hset.reached⟩, hset.target⟩
      · simp only [State.retry, List.length_append, List.length_singleton, delayOf_succ, ← h.backoffMs]
      · simp only [State.retry, List.length_append, List.length_singleton, List.range_succ, List.map_append,
          List.map_singleton, ← h.backoffMs, ← h.retries]
      · simp [State.retry, htimers]
      · obtain rfl : t = ⟨s.nextTimer, i, s.backoffMs⟩ := by simpa [State.retry, htimers] using ht
        refine ⟨hconnected, hc, rfl, by simp [State.retry], x.dispatch (.disconnect clean), ?_, rfl⟩
        exact List.getElem?_set_self hlt
    · exact ⟨⟨h.backoffMs, h.retries, h.one, hset.timers, hset.reached⟩, hset.target⟩
  · rw [hs]
    exact ⟨⟨h.backoffMs, h.retries, h.one, hset.timers, hset.reached⟩, hset.target⟩

theorem Retrying.step (h : Retrying s) (he : step s e = some s') (hd : Documented s e) (hI : Inv s) : Retrying s' := by
  cases e with
  | rfb i re =>
    simp only [VncPodConsole.step] at he
    split at he
    · cases he
    · rename_i x hi
      obtain rfl := Option.some_inj.mp he
      exact h.dispatch hI hi hd
  | render props =>
    obtain ⟨-, rfl⟩ : _ ∧ _ := by simpa [VncPodConsole.step] using he
    have hmounted : Retrying { s with mounted := true } :=
      ⟨⟨h.backoffMs, h.retries, h.one, h.timers, h.reached⟩, h.target⟩
    exact hmounted.commit props
  | unmount =>
    obtain ⟨-, rfl⟩ : _ ∧ _ := by simpa [VncPodConsole.step] using he
    have hleft := h.cleanUp
    exact ⟨⟨hleft.backoffMs, hleft.retries, hleft.one, hleft.timers, hleft.reached⟩, hleft.target⟩
  | streamError i message =>
    obtain ⟨-, rfl⟩ : _ ∧ _ := by simpa [VncPodConsole.step] using he
    exact ⟨⟨h.backoffMs, h.retries, h.one, h.timers, h.reached⟩, h.target⟩
  | resolved i reply =>
    simp only [VncPodConsole.step] at he
    split at he
    · cases he
    · rename_i x hi
      split at he
      · cases he
      · rename_i auth ha
        split at he
        · cases he
        · obtain rfl := Option.some_inj.mp he
          obtain ⟨error, needs, hs⟩ := resolve_quiet (s := s) x auth reply
          rw [hs]
          have hset := h.set hi (resolve_target x auth reply) (fun hx => (resolve_phase x auth reply).trans hx)
            (log_resolve x auth reply)
          exact ⟨⟨h.backoffMs, h.retries, h.one, hset.timers, hset.reached⟩, hset.target⟩
  | timeout id =>
    have hfired : ∀ attempt, Retrying { s with timers := s.timers.filter (·.id ≠ id), attempt } := fun attempt =>
      ⟨⟨h.backoffMs, h.retries, (List.length_filter_le _ _).trans h.one,
        fun t ht => h.timers t (List.mem_of_mem_filter ht), h.reached⟩, h.target⟩
    simp only [VncPodConsole.step] at he
    split at he
    · cases he
    · split at he
      · obtain rfl := Option.some_inj.mp he
        exact hfired _
      · obtain rfl := Option.some_inj.mp he
        exact hfired _
  | reconnect =>
    obtain ⟨-, rfl⟩ : _ ∧ _ := by simpa [VncPodConsole.step] using he
    have htimers := h.clearTimer_timers
    rw [clearTimer_eq] at htimers ⊢
    refine ⟨⟨rfl, rfl, ?_, fun t ht => ?_, h.reached⟩, h.target⟩
    · simp [show s.clearTimer.timers = [] from htimers]
    · simp [show s.clearTimer.timers = [] from htimers] at ht
  | submitManualPassword manualPassword =>
    obtain ⟨-, rfl⟩ : _ ∧ _ := by simpa [VncPodConsole.step] using he
    rcases submitted_cases s manualPassword with hs | ⟨i, x, hc, hi, hs⟩
    · rw [hs]
      exact ⟨⟨h.backoffMs, h.retries, h.one, h.timers, h.reached⟩, h.target⟩
    · rw [hs]
      have hset := @Retrying.set s i x (x.submit manualPassword) h hi rfl id (List.subset_append_left _ _)
      exact ⟨⟨h.backoffMs, h.retries, h.one, hset.timers, hset.reached⟩, hset.target⟩
  | typeClipboard =>
    obtain rfl : _ = s' := by simpa [VncPodConsole.step] using he
    split
    · exact h
    · exact ⟨⟨h.backoffMs, h.retries, h.one, h.timers, h.reached⟩, h.target⟩
  | typed k message =>
    obtain ⟨-, rfl⟩ : _ ∧ _ := by simpa [VncPodConsole.step] using he
    exact ⟨⟨h.backoffMs, h.retries, h.one, h.timers, h.reached⟩, h.target⟩

/-- A session is retried by one timer, after 0.5 s and then twice as long each time up to 64 s, if it was lost and its
server was ever reached. -/
theorem run_paced {es : List Event} (hd : Along step (fun s e _ => Documented s e) init es)
    (h : run step init es = some s) : Paced s := by
  have hall : Inv s ∧ Retrying s := hd.invariant (I := fun s => Inv s ∧ Retrying s)
    (fun hs hdoc hI => ⟨step_inv hs hI.1, hI.2.step hs hdoc hI.1⟩) ⟨inv_init, retrying_init⟩ h
  exact hall.2.toPaced

/-- A session that was connected is lost, and so is the one that follows it. -/
def lostTwice : List Event :=
  [.render (selected "guest" 5900 none), .rfb 0 .connect, .rfb 0 (.disconnect false), .timeout 0,
    .render (selected "guest" 5900 none), .rfb 1 (.disconnect false)]

theorem run_paced_lostTwice : ∃ s, run step init lostTwice = some s ∧ Paced s ∧ s.timers = [⟨1, 1, 1000⟩] := by
  have hd : Along step (fun s e _ => Documented s e) init lostTwice := by
    refine .cons rfl trivial (.cons rfl ?_ (.cons rfl ?_ (.cons rfl trivial (.cons rfl trivial (.cons rfl ?_ .nil)))))
    · rintro x ⟨⟩
      exact ⟨rfl, rfl⟩
    · rintro x ⟨⟩
      exact nofun
    · rintro x ⟨⟩
      exact nofun
  exact ⟨_, rfl, run_paced hd rfl, rfl⟩

end OpenshiftConsole.Terminal.VncPodConsole
