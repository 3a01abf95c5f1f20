import OpenshiftConsole.Filesystem.Pool

/-!
# What the pool promises, and when

Three promises of the pool fail in some runs, each because of a section in which
`Acquire` does not look again at what it saw in the one before:

* the cap: a request is let past it before it has its helper registered, and others are
  let past it in between (`pool_capped`);
* the helper that is returned lives: a helper that a request finds registered when it
  comes to register its own can be taken out before it is taken, and its own can have died
  before it is registered (`returned_helper_lives`);
* after `Close` no helper runs: a request can register its helper after it, and `Close` does not
  wait for those that have taken a helper out to kill it (`close_leaves_no_helper`).

For each there is the condition on the steps under which it holds in every run, and a run
that breaks it.
-/

namespace OpenshiftConsole.Filesystem.Pool

open OpenshiftConsole.Library.Lines (Text)
open OpenshiftConsole.Library.Runs
open OpenshiftConsole.Filesystem.Spawn (normalizeContainerID)

variable {c : Config} {s s' : State} {e : Event}

/-! ### The cap -/

/-- A call of `Acquire` has been let past the cap and has not registered its helper yet. -/
def Phase.Heads : Phase → Text → Prop
  | .spawning id, i => id = i
  | .spawned id _, i => id = i
  | _, _ => False

/-- The containers that have a helper registered or on the way. -/
def State.claimed (s : State) : Set Text := { id | id ∈ s.pool ∨ ∃ r, (s.phase r).Heads id }

/-- A request is let past the cap only if there is room for its container beside those that have a helper
registered or on the way. -/
def Room (c : Config) (s : State) (e : Event) (_ : State) : Prop :=
  match e with
  | .acquire r containerID _ => ∀ id, s.phase r = .idle → normalizeContainerID containerID = some id →
      s.stopped = false → s.live id = none → s.pool.keys.length < c.maxHelpers →
      (insert id s.claimed).encard ≤ c.maxHelpers.toNat
  | _ => True

theorem heads_setPhase {r r' : ℕ} {p : Phase} {id : Text} (hn : ((s.setPhase r' p).phase r).Heads id) :
    (∃ r, (s.phase r).Heads id) ∨ p.Heads id := by
  rcases setPhase_eq (q := (s.setPhase r' p).phase r) rfl with he | ⟨rfl, he⟩
  · exact .inl ⟨r, he ▸ hn⟩
  · exact .inr (he ▸ hn)

/-- A container comes to be claimed only by a request that is let past the cap. -/
theorem Rule.claimed (hr : Rule c s e s') {i : Text} (hi : i ∈ s'.claimed) :
    i ∈ s.claimed ∨ ∃ r containerID now, e = .acquire r containerID now ∧ s.phase r = .idle ∧
      normalizeContainerID containerID = some i ∧ s.stopped = false ∧ s.live i = none ∧
      (c.maxHelpers > 0 → s.pool.keys.length < c.maxHelpers) := by
  rcases hi with hi | ⟨q, hq⟩
  · obtain ⟨h, hl⟩ := Option.isSome_iff_exists.mp (AList.lookup_isSome.mpr hi)
    rcases hr.lookup hl with hl | ⟨r, -, -, hp, -⟩
    · exact .inl (.inl (AList.lookup_isSome.mp (Option.isSome_of_eq_some hl)))
    · exact .inl (.inr ⟨r, hp ▸ rfl⟩)
  · cases hr with
    | refused | reused | spawnFailed | lost | registered | taken | released =>
      exact .inl (.inr ((heads_setPhase hq).resolve_right fun hm => hm))
    | @admitted r containerID now id hp hn hs hl hc =>
      refine (heads_setPhase hq).imp .inr ?_
      rintro rfl
      exact ⟨r, containerID, now, rfl, hp, hn, hs, hl, hc⟩
    | @spawned r h id hp =>
      rcases heads_setPhase hq with hq | rfl
      · exact .inl (.inr hq)
      · exact .inl (.inr ⟨r, hp ▸ rfl⟩)
    | _ => exact .inl (.inr ⟨q, hq⟩)

/-- The invariant: the containers that have a helper registered or on the way are within the cap. -/
theorem claimed_step (hc : 0 < c.maxHelpers) (hr : Rule c s e s') (hg : Room c s e s')
    (hi : s.claimed.encard ≤ c.maxHelpers.toNat) : s'.claimed.encard ≤ c.maxHelpers.toNat := by
  by_cases hsub : s'.claimed ⊆ s.claimed
  · exact (Set.encard_le_encard hsub).trans hi
  · obtain ⟨i, hi', hni⟩ := Set.not_subset.mp hsub
    obtain ⟨r, containerID, now, rfl, hp, hn, hs, hl, hlen⟩ := (hr.claimed hi').resolve_left hni
    refine (Set.encard_le_encard fun j hj => ?_).trans (hg i hp hn hs hl (hlen hc))
    rcases hr.claimed hj with hj | ⟨r', containerID', now', he, -, hn', -⟩
    · exact .inr hj
    · cases he
      exact .inl (Option.some.inj (hn'.symm.trans hn))

/-- The registered containers are among those claimed. -/
theorem length_keys_le (s : State) : (s.pool.keys.length : ℕ∞) ≤ s.claimed.encard := by
  rw [← List.toFinset_card_of_nodup s.pool.keys_nodup, ← Set.encard_coe_eq_coe_finsetCard]
  exact Set.encard_le_encard fun id hid => .inl (AList.mem_keys.mpr (List.mem_toFinset.mp (Finset.mem_coe.mp hid)))

/-- **The cap holds** in every run in which each request that is let past it has room. -/
theorem pool_capped (c : Config) (hc : 0 < c.maxHelpers) (es : List Event) (h : Along (step c) (Room c) .init es) :
    Along (step c) (fun _ _ s' => s'.pool.keys.length ≤ c.maxHelpers) .init es := by
  have hinit : State.init.claimed = ∅ := by
    refine Set.eq_empty_of_forall_notMem fun id hid => ?_
    rcases hid with hid | ⟨r, hr⟩
    · exact absurd hid (AList.notMem_empty id)
    · exact hr
  refine Along.of_invariant (I := fun s => s.claimed.encard ≤ (c.maxHelpers.toNat : ℕ∞))
    (fun hs hg hi => claimed_step hc (step_rule hs) hg hi) (fun {s e s'} hs hg hi => ?_) h (by simp [hinit])
  have hle := (length_keys_le s').trans (claimed_step hc (step_rule hs) hg hi)
  have := Nat.cast_le.mp hle
  omega

/-- A request for a container, up to its helper in the registry. -/
def opening : List Event := [.acquire 0 "aaaaaaaaaaaa".toList 0, .spawn 0 0, .register 0 0]

/-- One container under a cap of one. -/
theorem pool_capped_opening : Along (step ⟨1, 15⟩) (fun _ _ s' => s'.pool.keys.length ≤ (1 : ℤ)) .init opening := by
  have hnone : State.init.claimed = ∅ := Set.eq_empty_of_forall_notMem fun i hi =>
    hi.elim (AList.notMem_empty i) fun ⟨_, hr⟩ => hr
  refine pool_capped ⟨1, 15⟩ (by decide) opening (.cons rfl (fun id _ _ _ _ _ => ?_) <| .cons rfl trivial <| .cons rfl trivial .nil)
  rw [hnone, insert_empty_eq, Set.encard_singleton]
  decide

/-- Both requests are let past the cap before the first has registered its helper. -/
theorem two_helpers_under_a_cap_of_one :
    ¬ Along (step ⟨1, 15⟩) (fun _ _ s' => s'.pool.keys.length ≤ (1 : ℤ)) .init
      ([.acquire 0 "aaaaaaaaaaaa".toList 0, .acquire 1 "bbbbbbbbbbbb".toList 0, .spawn 0 0, .spawn 1 1,
        .register 0 0] ++ [.register 1 0]) :=
  fun h => absurd (Along.at h rfl rfl) (by decide)

/-! ### A returned helper lives -/

/-- What a helper's being returned promises: it is not dead and not killed then, and the reaper does
not kill it before it is released. -/
def Lives (s : State) (e : Event) (s' : State) : Prop :=
  match e with
  | .acquire r _ _ | .register r _ | .take r _ => ∀ id h, s'.phase r = .acquired id h →
      ∃ x, s'.helpers h = some x ∧ x.dead = false ∧ x.killed = false
  | .kill k | .closeStop k => k.who = .reaper → ∀ r id, s.phase r ≠ .acquired id k.helper
  | _ => True

/-- Nothing happens to a helper between two sections of an `Acquire` that is about to return it: what a
request has spawned does not die before the request comes to register it, and what a request
has found in its place is not taken out of the registry before the request takes it. -/
def Unhurried (c : Config) (s : State) (e : Event) (_ : State) : Prop :=
  match e with
  | .gone h | .waited h => ∀ r id k, s.phase r ≠ .spawned id h ∧ s.phase r ≠ .losing id k h
  | .reap now => ∀ r id k h, s.phase r = .losing id k h → s.expired c now h = false
  | .close => ∀ r id k h, s.phase r ≠ .losing id k h
  | _ => True

/-- A helper that can be handed out. -/
def State.Fit (s : State) (h : ℕ) : Prop :=
  ∃ x, s.helpers h = some x ∧ x.dead = false ∧ x.killed = false ∧ ∀ k ∈ s.kills, k.helper ≠ h

/-- An event means death to a helper. -/
def Hits (c : Config) (s : State) (h : ℕ) : Event → Prop
  | .gone k | .waited k => h = k
  | .register r _ => ∃ id existing, s.phase r = .spawned id h ∧ s.live id = some existing
  | .reap now => h ∈ s.registered ∧ s.expired c now h = true
  | .close => s.stopped = false ∧ h ∈ s.registered
  | _ => False

section Fit

variable {h : ℕ} {hs : List ℕ} {f : Helper → Helper} {who : Killer}

theorem Fit.adjust (hf : ∀ x, h ∈ hs → (f x).dead = x.dead ∧ (f x).killed = x.killed) (hi : s.Fit h) :
    (s.adjust hs f).Fit h := by
  obtain ⟨x, hx, hd, hk, hn⟩ := hi
  rw [State.Fit, adjust_helpers, hx]
  split
  · rename_i hm
    obtain ⟨h₁, h₂⟩ := hf x hm
    exact ⟨f x, rfl, h₁.trans hd, h₂.trans hk, hn⟩
  · exact ⟨x, rfl, hd, hk, hn⟩

theorem Fit.toKill (hh : h ∉ hs) (hi : s.Fit h) : (s.toKill who hs).Fit h := by
  obtain ⟨x, hx, hd, hk, hn⟩ := hi
  refine ⟨x, hx, hd, hk, fun k hm => ?_⟩
  rcases List.mem_append.mp hm with hm | hm
  · exact hn k hm
  · obtain ⟨j, hj, rfl⟩ := List.mem_map.mp hm
    rintro rfl
    exact hh hj

theorem Fit.stopHelper {k : Kill} (hk : k ∈ s.kills) (hi : s.Fit h) : (s.stopHelper k).Fit h := by
  have hne := hi.elim fun _ hx => hx.2.2.2 k hk
  obtain ⟨x, hx, hd, hkd, hn⟩ := Fit.adjust (f := Helper.stop)
    (fun x (hm : h ∈ [k.helper]) => absurd (List.mem_singleton.mp hm).symm hne) hi
  exact ⟨x, hx, hd, hkd, fun j hj => hn j (List.mem_of_mem_erase hj)⟩

end Fit

/-- A helper that can be handed out still can, unless the event means death to it. -/
theorem Rule.fit (hr : Rule c s e s') {h : ℕ} (hi : s.Fit h) (hh : ¬ Hits c s h e) : s'.Fit h := by
  cases hr with
  | reused | registered | taken | released | exited => exact Fit.adjust (fun _ _ => ⟨rfl, rfl⟩) hi
  | @spawned r k id hp hn =>
    obtain ⟨x, hx, hrest⟩ := hi
    exact ⟨x, (start_of_ne fun he => by rw [he, hn] at hx; cases hx).trans hx, hrest⟩
  | @lost r now id k existing hp hl =>
    refine Fit.toKill (fun hm => hh ?_) hi
    obtain rfl := List.mem_singleton.mp hm
    exact ⟨id, existing, hp, hl⟩
  | dropped | waited =>
    have hm : h ∉ [_] := fun hm => hh (List.mem_singleton.mp hm)
    first
      | exact Fit.toKill hm (Fit.adjust (fun _ hm' => absurd hm' hm) hi)
      | exact Fit.adjust (fun _ hm' => absurd hm' hm) hi
  | reaped he =>
    subst he
    have hm : h ∉ s.registered.filter (s.expired c _) := fun hm => hh (List.mem_filter.mp hm)
    exact Fit.toKill hm (Fit.adjust (fun _ hm' => absurd hm' hm) hi)
  | @tested k hk =>
    obtain ⟨x, hx, hd, hkd, hn⟩ := hi
    refine ⟨x, hx, hd, hkd, fun j hj => ?_⟩
    rcases List.mem_cons.mp hj with rfl | hj
    · exact hn k hk
    · exact hn j (List.mem_of_mem_erase hj)
  | killed hk | stopped hk => exact Fit.stopHelper hk hi
  | closed hs => exact Fit.toKill (fun hm => hh ⟨hs, hm⟩) hi
  | _ => exact hi

/-- The invariant of unhurried runs: what is registered, about to be registered or about to be taken can be
handed out, and what the reaper kills nobody has. -/
structure Kept (s : State) : Prop where
  fit : ∀ id h, s.pool.lookup id = some h → s.Fit h
  own : ∀ r id h, s.phase r = .spawned id h → s.Fit h
  found : ∀ r id h existing, s.phase r = .losing id h existing → s.pool.lookup id = some existing
  reaped : ∀ k ∈ s.kills, k.who = .reaper → ∀ r id, s.phase r ≠ .acquired id k.helper
  target : ∀ k ∈ s.kills, ∃ x, s.helpers k.helper = some x

theorem kept_init : Kept .init where
  fit id h hl := by
    rw [State.init, AList.lookup_empty] at hl
    cases hl
  own _ _ _ hp := nomatch hp
  found _ _ _ _ hp := nomatch hp
  reaped _ hk := nomatch hk
  target _ hk := nomatch hk

/-- What is registered before and after a step is not hit by it. -/
theorem Rule.not_hits (hr : Rule c s e s') (hi : Inv s) {h : ℕ} {id : Text} (hl : s.pool.lookup id = some h)
    (hl' : s'.pool.lookup id = some h) : ¬ Hits c s h e := by
  have hwithout : ∀ {k : ℕ} {x : Helper}, s.helpers k = some x → (s.without x.containerID k).lookup id = some h →
      h ≠ k := by
    rintro k x hx hw rfl
    obtain ⟨y, hy, rfl⟩ := hi.entry id h hl
    obtain rfl := Option.some.inj (hx.symm.trans hy)
    rw [State.without, if_pos hl, AList.lookup_erase] at hw
    cases hw
  cases hr with
  | lost hp =>
    rintro ⟨i, existing, hp', -⟩
    exact (hi.own _ i h hp').1 id hl
  | registered hp hn =>
    rintro ⟨i, existing, hp', hlive⟩
    cases hp.symm.trans hp'
    rw [hn] at hlive
    cases hlive
  | dropped hx | waited hx => exact hwithout hx hl'
  | reaped he =>
    subst he
    exact fun hm => (lookup_survivors.mp hl').2 (List.mem_filter.mpr hm)
  | closed =>
    replace hl' : AList.lookup id (∅ : Registry) = some h := hl'
    rw [AList.lookup_empty] at hl'
    cases hl'
  | closedAgain hs =>
    rintro ⟨hs', -⟩
    rw [hs] at hs'
    cases hs'
  | _ => exact fun hh => hh

/-- What is registered and can be handed out stays registered, unless the event means death to it. -/
theorem Rule.stays (hr : Rule c s e s') {h : ℕ} {id : Text} (hl : s.pool.lookup id = some h) (hf : s.Fit h)
    (hh : ¬ Hits c s h e) : s'.pool.lookup id = some h := by
  cases hr with
  | @registered r now i k hp hn =>
    refine (AList.lookup_insert_ne ?_).trans hl
    rintro rfl
    obtain ⟨x, hx, hd, -⟩ := hf
    have : s.live id = some h := Option.filter_eq_some_iff.mpr ⟨hl, by simp [hx, hd]⟩
    rw [this] at hn
    cases hn
  | dropped | waited => exact lookup_without_of_ne hl hh
  | reaped he =>
    subst he
    exact lookup_survivors.mpr ⟨hl, fun hm => hh (List.mem_filter.mp hm)⟩
  | closed hs => exact absurd ⟨hs, mem_registered.mpr ⟨id, hl⟩⟩ hh
  | _ => exact hl

/-- A request loses to a helper that is registered. -/
theorem Rule.losing_of (hr : Rule c s e s') {r h existing : ℕ} {id : Text} (hp : s'.phase r = .losing id h existing) :
    s.phase r = .losing id h existing ∨ s.live id = some existing ∧ s'.pool = s.pool := by
  cases hr with
  | lost _ hl =>
    refine (setPhase_eq hp).imp_right fun he => ?_
    cases he.2
    exact ⟨hl, rfl⟩
  | refused | reused | admitted | spawned | spawnFailed | registered | taken | released =>
    exact .inl ((setPhase_eq hp).resolve_right (by simp))
  | _ => exact .inl hp

/-- What is returned could be handed out. -/
theorem Kept.acquired_of (hk : Kept s) (hr : Rule c s e s') {r h : ℕ} {id : Text} (hp : s'.phase r = .acquired id h) :
    s.phase r = .acquired id h ∨ s.Fit h := by
  cases hr with
  | reused _ _ _ hl =>
    refine (setPhase_eq hp).imp_right fun he => ?_
    cases he.2
    exact hk.fit _ _ (live_eq_some hl).1
  | registered hs =>
    refine (setPhase_eq hp).imp_right fun he => ?_
    cases he.2
    exact hk.own _ _ _ hs
  | taken hs =>
    refine (setPhase_eq hp).imp_right fun he => ?_
    cases he.2
    exact hk.fit _ _ (hk.found _ _ _ _ hs)
  | refused | admitted | spawned | spawnFailed | lost | released =>
    exact .inl ((setPhase_eq hp).resolve_right (by simp))
  | _ => exact .inl hp

/-- Whoever is to be killed was before, or is there to be killed now; the reaper only takes what nobody has. -/
theorem Rule.kills_of (hr : Rule c s e s') (hi : Inv s) {k : Kill} (hk : k ∈ s'.kills) :
    (∃ j ∈ s.kills, j.who = k.who ∧ j.helper = k.helper) ∨
      (∃ id, s.IsFor k.helper id) ∧ (k.who = .reaper → s.holders k.helper = ∅ ∧ s'.phase = s.phase) := by
  have hnew : ∀ {who : Killer} {hs : List ℕ}, k ∈ s.kills ++ hs.map (fun h => ⟨who, h, false⟩) →
      (∃ j ∈ s.kills, j.who = k.who ∧ j.helper = k.helper) ∨ k.helper ∈ hs ∧ k.who = who := by
    intro who hs hk
    rcases List.mem_append.mp hk with hk | hk
    · exact .inl ⟨k, hk, rfl, rfl⟩
    · obtain ⟨h, hh, rfl⟩ := List.mem_map.mp hk
      exact .inr ⟨hh, rfl⟩
  cases hr with
  | @lost r now id h existing hp =>
    refine (hnew hk).imp_right fun ⟨hh, hw⟩ => ⟨?_, by simp [hw]⟩
    rw [List.mem_singleton.mp hh]
    exact ⟨id, hi.named r id h (hp ▸ ⟨rfl, rfl⟩)⟩
  | dropped hx =>
    refine (hnew hk).imp_right fun ⟨hh, hw⟩ => ⟨?_, by simp [hw]⟩
    rw [List.mem_singleton.mp hh]
    exact ⟨_, _, hx, rfl⟩
  | reaped he =>
    subst he
    refine (hnew hk).imp_right fun ⟨hh, hw⟩ => ?_
    obtain ⟨hreg, hex⟩ := List.mem_filter.mp hh
    obtain ⟨id, hl⟩ := mem_registered.mp hreg
    obtain ⟨x, hx, hid⟩ := hi.entry id _ hl
    refine ⟨⟨id, x, hx, hid⟩, fun _ => ⟨?_, rfl⟩⟩
    rw [← Set.encard_eq_zero, hi.count _ x hx]
    simp only [State.expired, hx, Option.any_some, Bool.and_eq_true, decide_eq_true_eq] at hex
    rw [hex.1, Nat.cast_zero]
  | closed =>
    refine (hnew hk).imp_right fun ⟨hh, hw⟩ => ⟨?_, by simp [hw]⟩
    obtain ⟨id, hl⟩ := mem_registered.mp hh
    exact ⟨id, hi.entry id _ hl⟩
  | @tested j hj =>
    rcases List.mem_cons.mp hk with rfl | hk
    · exact .inl ⟨j, hj, rfl, rfl⟩
    · exact .inl ⟨k, List.mem_of_mem_erase hk, rfl, rfl⟩
  | killed | stopped => exact .inl ⟨k, List.mem_of_mem_erase hk, rfl, rfl⟩
  | _ => exact .inl ⟨k, hk, rfl, rfl⟩

/-- Every unhurried step keeps the invariant. -/
theorem Kept.of_rule (hk : Kept s) (hi : Inv s) (hr : Rule c s e s') (hg : Unhurried c s e s') : Kept s' where
  fit id h hl' := by
    rcases hr.lookup hl' with hl | ⟨r, now, rfl, hp, hn, -⟩
    · exact hr.fit (hk.fit id h hl) (hr.not_hits hi hl hl')
    · refine hr.fit (hk.own r id h hp) ?_
      rintro ⟨i, existing, hp', hlive⟩
      cases hp.symm.trans hp'
      rw [hn] at hlive
      cases hlive
  own r id h hp' := by
    rcases hr.spawned_of hp' with hp | ⟨hh, hx, hkills⟩
    · refine hr.fit (hk.own r id h hp) ?_
      obtain ⟨hreg, hown⟩ := hi.own r id h hp
      have hnot : h ∉ s.registered := fun hm => (mem_registered.mp hm).elim hreg
      cases e with
      | gone | waited => rintro rfl; exact (hg r id 0).1 hp
      | reap => exact fun hm => hnot hm.1
      | close => exact fun hm => hnot hm.2
      | register q now =>
        rintro ⟨i, existing, hq, hlive⟩
        -- another request's helper, or the one of a request that moves on
        by_cases hqr : q = r
        · subst hqr
          cases hr with
          | lost | registered =>
            rw [setPhase_self] at hp'
            cases hp'
        · exact hown q hqr i (hq ▸ ⟨rfl, rfl⟩)
      | _ => exact fun hm => hm
    · refine ⟨_, hx, rfl, rfl, fun k hk' => ?_⟩
      rintro rfl
      obtain ⟨x, hx'⟩ := hk.target k (hkills ▸ hk')
      rw [hh] at hx'
      cases hx'
  found r id h existing hp' := by
    rcases hr.losing_of hp' with hp | ⟨hl, hpool⟩
    · have hl := hk.found r id h existing hp
      refine hr.stays hl (hk.fit id existing hl) ?_
      cases e with
      | gone | waited => rintro rfl; exact (hg r id h).2 hp
      | reap =>
        intro hm
        have := hm.2
        rw [hg r id h existing hp] at this
        cases this
      | close => exact fun _ => hg r id h existing hp
      | register q now =>
        rintro ⟨i, existing', hq, -⟩
        exact (hi.own q i existing hq).1 id hl
      | _ => exact fun hm => hm
    · rw [hpool]
      exact (live_eq_some hl).1
  reaped k hk' hw r id hp := by
    rcases hr.kills_of hi hk' with ⟨j, hj, hjw, hjh⟩ | ⟨-, hnew⟩
    · rcases hk.acquired_of hr hp with hp | ⟨-, -, -, -, hf⟩
      · exact hk.reaped j hj (hjw.trans hw) r id (hjh ▸ hp)
      · exact hf j hj hjh
    · obtain ⟨hempty, hphase⟩ := hnew hw
      have hm : r ∈ s.holders k.helper := ⟨id, hphase ▸ hp⟩
      rw [hempty] at hm
      exact hm
  target k hk' := by
    rcases hr.kills_of hi hk' with ⟨j, hj, -, hjh⟩ | ⟨⟨id, hf⟩, -⟩
    · obtain ⟨x, hx⟩ := hk.target j hj
      obtain ⟨y, hy, -⟩ := hr.isFor ⟨x, hx, rfl⟩
      exact ⟨y, hjh ▸ hy⟩
    · obtain ⟨y, hy, -⟩ := hr.isFor hf
      exact ⟨y, hy⟩

theorem Kept.lives (hk : Kept s) (hr : Rule c s e s') : Lives s e s' := by
  have hfit : ∀ {h : ℕ}, s'.Fit h → ∃ x, s'.helpers h = some x ∧ x.dead = false ∧ x.killed = false :=
    fun ⟨x, hx, hd, hkd, _⟩ => ⟨x, hx, hd, hkd⟩
  have hrule := hr
  cases hr with
  | refused =>
    intro id h hp
    rw [setPhase_self] at hp
    cases hp
  | admitted =>
    intro id h hp
    rw [setPhase_self] at hp
    cases hp
  | lost =>
    intro id h hp
    rw [setPhase_self] at hp
    cases hp
  | reused hp hn hs hl =>
    intro id h hp'
    rw [setPhase_self] at hp'
    cases hp'
    exact hfit (hrule.fit (hk.fit _ _ (live_eq_some hl).1) fun hm => hm)
  | registered hp hn =>
    intro id h hp'
    rw [setPhase_self] at hp'
    cases hp'
    refine hfit (hrule.fit (hk.own _ _ _ hp) ?_)
    rintro ⟨i, existing, hp', hlive⟩
    cases hp.symm.trans hp'
    rw [hn] at hlive
    cases hlive
  | taken hp hb =>
    intro id h hp'
    rw [setPhase_self] at hp'
    cases hp'
    exact hfit (hrule.fit (hk.fit _ _ (hk.found _ _ _ _ hp)) fun hm => hm)
  | tested hm | killed hm | stopped hm | crashed hm => exact hk.reaped _ hm
  | _ => trivial

/-- A call of `Acquire` has begun and has not returned. -/
def Phase.underway : Phase → Bool
  | .spawning _ | .spawned .. | .losing .. => true
  | _ => false

/-- Once `Close` and the calls of `Acquire` have returned no helper runs and none is registered. -/
def Drained (s : State) : Prop :=
  s.stopped = true → (∀ k ∈ s.kills, k.who ≠ .closer) → (∀ r, (s.phase r).underway = false) →
    (∀ id, s.pool.lookup id = none) ∧ ∀ h x, s.helpers h = some x → x.running = false

/-- No request comes to register a helper in a stopped pool, and `Close` finds no helper that `drop` or the
reaper has taken out of the registry and not killed yet. -/
def Orderly (s : State) (e : Event) (_ : State) : Prop :=
  match e with
  | .register .. => s.stopped = false
  | .close => s.stopped = false → ∀ k ∈ s.kills, ∀ x, s.helpers k.helper = some x → x.running = true →
      ∃ r, k.who = .request r
  | _ => True

namespace State

/-- Somebody that one can wait for is to kill a helper. -/
def Doomed (s : State) (W : Killer → Prop) (h : ℕ) : Prop := ∃ k ∈ s.kills, k.helper = h ∧ W k.who

/-- A request has just spawned a helper. -/
def JustSpawned (s : State) (h : ℕ) : Prop := ∃ r id, s.phase r = .spawned id h

end State

/-- The invariant of orderly runs: who is to kill a helper that runs, or where it is. -/
structure Accounted (s : State) : Prop where
  /-- It is to be killed, or it is not dead and is registered or just spawned. -/
  running : ∀ h x, s.helpers h = some x → x.running = true →
    s.Doomed (fun _ => True) h ∨ x.dead = false ∧ (h ∈ s.registered ∨ s.JustSpawned h)
  /-- After `Close` nothing is registered, and a helper that runs is to be killed by `Close` or by a request, or is
  just spawned. -/
  stopped : s.stopped = true → (∀ id, s.pool.lookup id = none) ∧ ∀ h x, s.helpers h = some x → x.running = true →
    s.Doomed (fun w => w = .closer ∨ ∃ r, w = .request r) h ∨ s.JustSpawned h

theorem accounted_init : Accounted .init where
  running _ _ hx := nomatch hx
  stopped hs := nomatch hs

section Doomed

variable {W : Killer → Prop} {h : ℕ} {hs : List ℕ} {who : Killer}

theorem Doomed.toKill (hd : s.Doomed W h) : (s.toKill who hs).Doomed W h := by
  obtain ⟨k, hk, hrest⟩ := hd
  exact ⟨k, List.mem_append_left _ hk, hrest⟩

theorem doomed_toKill (hw : W who) (hh : h ∈ hs) : (s.toKill who hs).Doomed W h :=
  ⟨⟨who, h, false⟩, List.mem_append_right _ (List.mem_map.mpr ⟨h, hh, rfl⟩), rfl, hw⟩

/-- Nobody stops being to be killed but by being killed. -/
theorem Rule.doomed (hr : Rule c s e s') (hd : s.Doomed W h) {x : Helper} (hx : s'.helpers h = some x)
    (hrun : x.running = true) : s'.Doomed W h := by
  have hstop : ∀ {k : Kill}, (s.stopHelper k).helpers h = some x → (s.stopHelper k).Doomed W h := by
    intro k hx
    obtain ⟨j, hj, hjh, hw⟩ := hd
    refine ⟨j, (List.mem_erase_of_ne ?_).mpr hj, hjh, hw⟩
    rintro rfl
    obtain ⟨y, -, ⟨rfl, -⟩ | ⟨-, hn⟩⟩ := adjust_eq_some hx
    · cases hrun
    · exact hn (List.mem_singleton.mpr hjh.symm)
  cases hr with
  | lost | reaped | closed => exact Doomed.toKill hd
  | dropped => exact Doomed.toKill hd
  | @tested k hk =>
    obtain ⟨j, hj, hjh, hw⟩ := hd
    by_cases hjk : j = k
    · subst hjk
      exact ⟨_, List.mem_cons_self, hjh, hw⟩
    · exact ⟨j, List.mem_cons_of_mem _ ((List.mem_erase_of_ne hjk).mpr hj), hjh, hw⟩
  | killed | stopped => exact hstop hx
  | _ => exact hd

end Doomed

/-- What runs after a step ran before and is dead only if it was, unless it is to be killed now, or it has
just been spawned. -/
theorem Rule.running_of (hr : Rule c s e s') {h : ℕ} {x : Helper} (hx : s'.helpers h = some x)
    (hrun : x.running = true) :
    (∃ y, s.helpers h = some y ∧ y.running = true ∧ (x.dead = y.dead ∨ s'.Doomed (fun _ => True) h)) ∨
      x.dead = false ∧ s'.JustSpawned h := by
  -- a change that lets a process run lets it live, or the helper is to be killed
  have hadjust : ∀ {hs : List ℕ} {f : Helper → Helper}, (s.adjust hs f).helpers h = some x →
      (∀ y, h ∈ hs → (f y).running = true → y.running = true ∧ ((f y).dead = y.dead ∨ s'.Doomed (fun _ => True) h)) →
      ∃ y, s.helpers h = some y ∧ y.running = true ∧ (x.dead = y.dead ∨ s'.Doomed (fun _ => True) h) := by
    intro hs f hx hf
    obtain ⟨y, hy, ⟨rfl, hm⟩ | ⟨rfl, -⟩⟩ := adjust_eq_some hx
    · exact ⟨y, hy, hf y hm hrun⟩
    · exact ⟨x, hy, hrun, .inl rfl⟩
  cases hr with
  | reused | registered | taken | released => exact .inl (hadjust hx fun y _ hy => ⟨hy, .inl rfl⟩)
  | exited | killed | stopped => exact .inl (hadjust hx fun y _ hy => nomatch hy)
  | waited hw hnot =>
    obtain ⟨y, hy, ⟨rfl, hm⟩ | ⟨rfl, -⟩⟩ := adjust_eq_some hx
    · obtain rfl := List.mem_singleton.mp hm
      obtain rfl := Option.some.inj (hw.symm.trans hy)
      exact absurd (hnot.symm.trans hrun) (by decide)
    · exact .inl ⟨x, hy, hrun, .inl rfl⟩
  | dropped => exact .inl (hadjust hx fun y hm hy => ⟨hy, .inr (doomed_toKill trivial hm)⟩)
  | reaped => exact .inl (hadjust hx fun y hm hy => ⟨hy, .inr (doomed_toKill trivial hm)⟩)
  | @spawned r k id =>
    by_cases hk : h = k
    · subst hk
      obtain rfl := Option.some.inj (start_self.symm.trans hx)
      exact .inr ⟨rfl, r, id, setPhase_self⟩
    · exact .inl ⟨x, (start_of_ne hk).symm.trans hx, hrun, .inl rfl⟩
  | _ => exact .inl ⟨x, hx, hrun, .inl rfl⟩

/-- A helper just spawned still is after a step, unless it has been registered or lost to another. -/
theorem Rule.justSpawned (hr : Rule c s e s') {h : ℕ} (hj : s.JustSpawned h) :
    s'.JustSpawned h ∨ (∃ r now, e = .register r now) ∧ (h ∈ s'.registered ∨ s'.Doomed (fun _ => True) h) := by
  obtain ⟨q, i, hq⟩ := hj
  have hkeep : ∀ {r : ℕ} {p : Phase}, (∀ h, s.phase r ≠ .spawned i h) → (s.setPhase r p).JustSpawned h := by
    intro r p hne
    exact ⟨q, i, (setPhase_of_ne (by rintro rfl; exact hne h hq)).trans hq⟩
  cases hr with
  | refused hp | reused hp | admitted hp | spawned hp | spawnFailed hp | taken hp | released hp =>
    exact .inl (hkeep (by simp [hp]))
  | @lost r now id k existing hp =>
    by_cases hqr : q = r
    · subst hqr
      cases hp.symm.trans hq
      have hdoomed : (s.toKill (.request q) [h]).Doomed (fun _ => True) h := doomed_toKill trivial (List.mem_singleton_self h)
      exact .inr ⟨⟨q, now, rfl⟩, .inr hdoomed⟩
    · exact .inl ⟨q, i, (setPhase_of_ne hqr).trans hq⟩
  | @registered r now id k hp =>
    by_cases hqr : q = r
    · subst hqr
      cases hp.symm.trans hq
      exact .inr ⟨⟨q, now, rfl⟩, .inl (mem_registered.mpr ⟨i, AList.lookup_insert _⟩)⟩
    · exact .inl ⟨q, i, (setPhase_of_ne hqr).trans hq⟩
  | _ => exact .inl ⟨q, i, hq⟩

/-- A registered helper that is not dead still is registered after a step, or is to be killed. -/
theorem Rule.stillRegistered (hr : Rule c s e s') {h : ℕ} {x : Helper} (hx : s.helpers h = some x)
    (hd : x.dead = false) (hrun : x.running = true) (hm : h ∈ s.registered) :
    h ∈ s'.registered ∨ s'.Doomed (fun w => e = .close → w = .closer) h := by
  obtain ⟨i, hl⟩ := mem_registered.mp hm
  cases hr with
  | @registered r now id k hp hn =>
    refine .inl (mem_registered.mpr ⟨i, (AList.lookup_insert_ne ?_).trans hl⟩)
    rintro rfl
    have : s.live i = some h := Option.filter_eq_some_iff.mpr ⟨hl, by simp [hx, hd]⟩
    rw [this] at hn
    cases hn
  | @dropped k =>
    by_cases hk : h = k
    · exact .inr (doomed_toKill nofun (List.mem_singleton.mpr hk))
    · exact .inl (mem_registered.mpr ⟨i, lookup_without_of_ne hl hk⟩)
  | @waited k y hy hnot =>
    refine .inl (mem_registered.mpr ⟨i, lookup_without_of_ne hl ?_⟩)
    rintro rfl
    obtain rfl := Option.some.inj (hx.symm.trans hy)
    exact absurd (hnot.symm.trans hrun) (by decide)
  | @reaped now hs =>
    by_cases hk : h ∈ hs
    · exact .inr (doomed_toKill nofun hk)
    · exact .inl (mem_registered.mpr ⟨i, lookup_survivors.mpr ⟨hl, hk⟩⟩)
  | closed => exact .inr (doomed_toKill (fun _ => rfl) hm)
  | _ => exact .inl hm

theorem Doomed.mono {W V : Killer → Prop} {h : ℕ} (hd : s.Doomed W h) (hWV : ∀ w, W w → V w) : s.Doomed V h := by
  obtain ⟨k, hk, hkh, hw⟩ := hd
  exact ⟨k, hk, hkh, hWV _ hw⟩

theorem Accounted.running_step (ha : Accounted s) (hr : Rule c s e s') {h : ℕ} {x : Helper}
    (hx : s'.helpers h = some x) (hrun : x.running = true) :
    s'.Doomed (fun _ => True) h ∨ x.dead = false ∧ (h ∈ s'.registered ∨ s'.JustSpawned h) := by
  rcases hr.running_of hx hrun with ⟨y, hy, hyrun, hdead⟩ | ⟨hd, hj⟩
  · rcases hdead with hdead | hdoomed
    · rcases ha.running h y hy hyrun with hdoomed | ⟨hd, hreg | hj⟩
      · exact .inl (hr.doomed hdoomed hx hrun)
      · rcases hr.stillRegistered hy hd hyrun hreg with hreg | hdoomed
        · exact .inr ⟨hdead.trans hd, .inl hreg⟩
        · exact .inl (Doomed.mono hdoomed fun _ _ => trivial)
      · rcases hr.justSpawned hj with hj | ⟨-, hreg | hdoomed⟩
        · exact .inr ⟨hdead.trans hd, .inr hj⟩
        · exact .inr ⟨hdead.trans hd, .inl hreg⟩
        · exact .inl hdoomed
    · exact .inl hdoomed
  · exact .inr ⟨hd, .inr hj⟩

/-- A pool is stopped by `Close` only. -/
theorem Rule.stopped_of (hr : Rule c s e s') (hs : s'.stopped = true) :
    s.stopped = true ∨ s.stopped = false ∧ e = .close ∧ s' = (({ s with stopped := true }).setPool ∅).toKill .closer s.registered := by
  cases hr with
  | closed hn => exact .inr ⟨hn, rfl, rfl⟩
  | _ => exact .inl hs

theorem Accounted.stopped_step (ha : Accounted s) (hr : Rule c s e s') (hg : Orderly s e s') (hs : s'.stopped = true) :
    (∀ id, s'.pool.lookup id = none) ∧ ∀ h x, s'.helpers h = some x → x.running = true →
      s'.Doomed (fun w => w = .closer ∨ ∃ r, w = .request r) h ∨ s'.JustSpawned h := by
  rcases hr.stopped_of hs with hs₀ | ⟨hs₀, rfl, hs'⟩
  · -- it has been stopped before, and no request registers
    obtain ⟨hpool, hrunning⟩ := ha.stopped hs₀
    have hno : ∀ r now, e ≠ .register r now := by
      rintro r now rfl
      exact absurd (hg.symm.trans hs₀) (by decide)
    refine ⟨fun id => Option.eq_none_iff_forall_ne_some.mpr fun h hl => ?_, fun h x hx hrun => ?_⟩
    · rcases hr.lookup hl with hl | ⟨r, now, he, -⟩
      · rw [hpool id] at hl
        cases hl
      · exact hno r now he
    · rcases hr.running_of hx hrun with ⟨y, hy, hyrun, -⟩ | ⟨-, hj⟩
      · rcases hrunning h y hy hyrun with hdoomed | hj
        · exact .inl (hr.doomed hdoomed hx hrun)
        · exact (hr.justSpawned hj).elim .inr fun ⟨⟨r, now, he⟩, _⟩ => absurd he (hno r now)
      · exact .inr hj
  · -- it is stopped now
    subst hs'
    refine ⟨fun id => AList.lookup_empty id, fun h x hx hrun => ?_⟩
    rcases ha.running h x hx hrun with ⟨k, hk, rfl, -⟩ | ⟨-, hreg | hj⟩
    · exact .inl ⟨k, List.mem_append_left _ hk, rfl, .inr (hg hs₀ k hk x hx hrun)⟩
    · exact .inl (doomed_toKill (.inl rfl) hreg)
    · exact .inr hj

theorem Accounted.of_rule (ha : Accounted s) (hr : Rule c s e s') (hg : Orderly s e s') : Accounted s' :=
  ⟨fun _ _ hx hrun => ha.running_step hr hx hrun, fun hs => ha.stopped_step hr hg hs⟩

theorem Accounted.drained (ha : Accounted s) (hi : Inv s) : Drained s := by
  intro hs hcloser hquiet
  obtain ⟨hpool, hrunning⟩ := ha.stopped hs
  refine ⟨hpool, fun h x hx => Bool.not_eq_true _ ▸ fun hrun => ?_⟩
  rcases hrunning h x hx hrun with ⟨k, hk, -, hw | ⟨r, hw⟩⟩ | ⟨r, id, hp⟩
  · exact hcloser k hk hw
  · obtain ⟨id, existing, hp⟩ := hi.killing k hk r hw
    have := hquiet r
    rw [hp] at this
    cases this
  · have := hquiet r
    rw [hp] at this
    cases this

/-- **`Close` leaves no helper**, in every orderly run: once it and all calls of `Acquire` have returned, none
is registered and none runs. -/
theorem close_leaves_no_helper (c : Config) (es : List Event) (h : Along (step c) Orderly .init es) :
    Along (step c) (fun _ _ s' => Drained s') .init es :=
  Along.of_invariant (I := fun s => Inv s ∧ Accounted s)
    (fun hs hg hi => ⟨hi.1.of_rule (step_rule hs), hi.2.of_rule (step_rule hs) hg⟩)
    (fun hs hg hi => (hi.2.of_rule (step_rule hs) hg).drained (hi.1.of_rule (step_rule hs))) h
    ⟨inv_init, accounted_init⟩

/-- A helper is registered, and `Close` kills it. -/
theorem close_leaves_no_helper_opening :
    Along (step ⟨1, 15⟩) (fun _ _ s' => Drained s') .init
      (opening ++ [.close, .kill ⟨.closer, 0, false⟩, .closeStop ⟨.closer, 0, true⟩]) :=
  close_leaves_no_helper ⟨1, 15⟩ _ <|
    .cons rfl trivial <| .cons rfl trivial <| .cons rfl rfl <| .cons rfl (fun _ => nofun) <|
    .cons rfl trivial <| .cons rfl trivial .nil

/-- The request has spawned its helper when the pool is closed, and registers it then. -/
theorem helper_registered_after_close :
    ¬ Along (step ⟨1, 15⟩) (fun _ _ s' => Drained s') .init
      ([.acquire 0 "aaaaaaaaaaaa".toList 0, .spawn 0 0, .close] ++ [.register 0 0]) := by
  intro h
  obtain ⟨hpool, -⟩ := Along.at h rfl rfl rfl nofun fun r => by cases r <;> rfl
  exact absurd (hpool "aaaaaaaaaaaa".toList) (by decide)

end OpenshiftConsole.Filesystem.Pool
