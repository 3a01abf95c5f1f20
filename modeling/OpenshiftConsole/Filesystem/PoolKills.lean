import OpenshiftConsole.Filesystem.PoolRuns

/-!
# Stopping a helper once

`kill` closes a helper's stop channel unless it finds it closed, and holds no lock between the
look and the closing. A helper can be killed by more than one: `drop` kills it when its container
is gone, which it also is told once the channel is closed, while the reaper or `Close` has taken the
helper out and kills it too. If both look before either closes, the second closes a closed channel, and
the agent ends.

As long as nobody looks while another is about to close, each helper has at most one `kill` that has
found its channel open, and the channel is open then (`Once`).
-/

namespace OpenshiftConsole.Filesystem.Pool

open OpenshiftConsole.Library.Runs

variable {c : Config} {s s' : State} {e : Event}

/-- A helper's stop channel is open. -/
def State.Open (s : State) (h : ℕ) : Prop := ∃ x, s.helpers h = some x ∧ x.stopWatch = false

/-- A stop channel is looked at only while no other `kill` has found it open and is about to close it. -/
def Alone (s : State) (e : Event) (_ : State) : Prop :=
  match e with
  | .kill k => ∀ j ∈ s.kills, j.helper = k.helper → j.tested = false
  | _ => True

/-- No channel has been closed twice, and of each helper one `kill` at most is about to close its channel, which is open. -/
structure Once (s : State) : Prop where
  crashed : s.crashed = false
  opened : ∀ k ∈ s.kills, k.tested = true → s.Open k.helper
  single : s.kills.Pairwise fun j k => j.helper = k.helper → j.tested = true → k.tested = false

theorem once_init : Once .init where
  crashed := rfl
  opened _ hk := nomatch hk
  single := .nil

/-- An agent that has not crashed runs. -/
theorem Once.step_eq (h : Once s) : step c s e = act c s e := if_neg (Bool.eq_false_iff.mp h.crashed)

section Open

variable {h : ℕ} {hs : List ℕ} {f : Helper → Helper}

theorem Open.adjust (hf : ∀ x, (f x).stopWatch = x.stopWatch) (ho : s.Open h) : (s.adjust hs f).Open h := by
  obtain ⟨x, hx, hopen⟩ := ho
  rw [State.Open, adjust_helpers, hx]
  split
  · exact ⟨f x, rfl, (hf x).trans hopen⟩
  · exact ⟨x, rfl, hopen⟩

theorem Open.stopHelper {k : Kill} (hne : h ≠ k.helper) (ho : s.Open h) : (s.stopHelper k).Open h := by
  obtain ⟨x, hx, hopen⟩ := ho
  refine ⟨x, Eq.trans ?_ hx, hopen⟩
  exact if_neg fun hm => hne (List.mem_singleton.mp hm)

end Open

/-! ### Other sections -/

/-- Only a `kill` closes a channel. -/
theorem Rule.keeps_open (hr : Rule c s e s') (hk : ∀ k, e ≠ .kill k) (hc : ∀ k, e ≠ .closeStop k) {h : ℕ} (ho : s.Open h) :
    s'.Open h := by
  cases hr with
  | reused | taken | registered | released | dropped | exited | waited | reaped =>
    refine Open.adjust ?_ ho
    exact fun _ => rfl
  | spawned _ hh =>
    obtain ⟨x, hx, hopen⟩ := ho
    exact ⟨x, (start_of_ne fun he => by rw [he, hh] at hx; cases hx).trans hx, hopen⟩
  | tested | killed => exact absurd rfl (hk _)
  | stopped => exact absurd rfl (hc _)
  | _ => exact ho

/-- A section that has helpers killed adds calls of `kill` that have not looked yet. -/
theorem Rule.adds_kills (hr : Rule c s e s') (hk : ∀ k, e ≠ .kill k) (hc : ∀ k, e ≠ .closeStop k) :
    s'.crashed = s.crashed ∧ ∃ who hs, s'.kills = s.kills ++ List.map (fun h => ⟨who, h, false⟩) hs := by
  cases hr with
  | lost | dropped | reaped | closed => exact ⟨rfl, _, _, rfl⟩
  | tested | killed => exact absurd rfl (hk _)
  | stopped | crashed => exact absurd rfl (hc _)
  | _ => exact ⟨rfl, .closer, [], (List.append_nil _).symm⟩

theorem Once.of_rule (h : Once s) (hr : Rule c s e s') (hk : ∀ k, e ≠ .kill k) (hc : ∀ k, e ≠ .closeStop k) : Once s' := by
  obtain ⟨hcrash, who, hs, hkills⟩ := hr.adds_kills hk hc
  have hnew : ∀ k ∈ hs.map (fun h => (⟨who, h, false⟩ : Kill)), k.tested = false := by
    intro k hk
    obtain ⟨j, -, rfl⟩ := List.mem_map.mp hk
    rfl
  refine ⟨hcrash.trans h.crashed, fun k hm ht => ?_, ?_⟩
  · rw [hkills] at hm
    rcases List.mem_append.mp hm with hm | hm
    · exact hr.keeps_open hk hc (h.opened k hm ht)
    · exact absurd (hnew k hm) (by simp [ht])
  · rw [hkills, List.pairwise_append]
    refine ⟨h.single, ?_, fun j _ k hm _ _ => hnew k hm⟩
    exact List.pairwise_of_forall_mem_list fun j _ k hm _ _ => hnew k hm

/-! ### Looking and closing -/

/-- A helper that nobody else is about to stop is stopped. -/
theorem Once.stopHelper (h : Once s) {k : Kill} (hk : ∀ j ∈ s.kills.erase k, j.helper = k.helper → j.tested = false) :
    Once (s.stopHelper k) where
  crashed := h.crashed
  opened j hj ht := by
    refine Open.stopHelper (fun he => ?_) (h.opened j (List.mem_of_mem_erase hj) ht)
    rw [hk j hj he] at ht
    cases ht
  single := h.single.sublist List.erase_sublist

/-- One who looks either finds the channel closed, and nobody is about to close it, or is the only one who has found it open. -/
theorem Once.kill (h : Once s) {k : Kill} (hs : step c s (.kill k) = some s') (hg : Alone s (.kill k) s') : Once s' := by
  have hg' : ∀ j ∈ s.kills.erase k, j.helper = k.helper → j.tested = false := fun j hj => hg j (List.mem_of_mem_erase hj)
  rw [h.step_eq] at hs
  simp only [act] at hs
  split at hs
  · rename_i x hx
    split at hs
    · split at hs
      · cases hs
        exact h.stopHelper hg'
      · rename_i hopen
        cases hs
        refine ⟨h.crashed, fun j hj ht => ?_, ?_⟩
        · rcases List.mem_cons.mp hj with rfl | hj
          · exact ⟨x, hx, Bool.eq_false_iff.mpr hopen⟩
          · exact h.opened j (List.mem_of_mem_erase hj) ht
        · rw [List.pairwise_cons]
          exact ⟨fun j hj he _ => hg' j hj he.symm, h.single.sublist List.erase_sublist⟩
    · cases hs
  · cases hs

/-- One who has found the channel open finds it open still. -/
theorem Once.closeStop (h : Once s) {k : Kill} (hs : step c s (.closeStop k) = some s') : Once s' := by
  rw [h.step_eq] at hs
  simp only [act] at hs
  split at hs
  · rename_i x hx
    split at hs
    · rename_i hk
      obtain ⟨y, hy, hopen⟩ := h.opened k hk.1 hk.2
      obtain rfl := Option.some.inj (hx.symm.trans hy)
      rw [if_neg (Bool.eq_false_iff.mp hopen)] at hs
      cases hs
      have hpair := h.single.perm (List.perm_cons_erase hk.1) fun hjk he ht => by
        by_contra hne
        exact absurd (hjk he.symm (Bool.not_eq_false _ ▸ hne)) (by simp [ht])
      refine h.stopHelper fun j hj he => ?_
      exact (List.pairwise_cons.mp hpair).1 j hj he.symm hk.2
    · cases hs
  · cases hs

theorem Once.next (h : Once s) (hs : step c s e = some s') (hg : Alone s e s') : Once s' := by
  cases e with
  | kill k => exact h.kill hs hg
  | closeStop k => exact h.closeStop hs
  | _ => exact h.of_rule (step_rule hs) nofun nofun

/-- **A helper's stop channel is closed once**, in every run in which nobody looks at it while another is about
to close it. -/
theorem stopWatch_closed_once (c : Config) (es : List Event) (h : Along (step c) Alone .init es) :
    Along (step c) (fun _ _ s' => s'.crashed = false) .init es :=
  Along.of_invariant (I := Once) (fun hs hg hi => hi.next hs hg) (fun hs hg hi => (hi.next hs hg).crashed) h once_init

/-- An idle helper is reaped, and its watcher, told by the closed channel, finds it closed. -/
theorem stopWatch_closed_once_reaped :
    Along (step ⟨1, 15⟩) (fun _ _ s' => s'.crashed = false) .init
      (opening ++ [.release 0 0, .reap 20, .kill ⟨.reaper, 0, false⟩, .closeStop ⟨.reaper, 0, true⟩, .gone 0,
        .kill ⟨.watcher 0, 0, false⟩]) :=
  stopWatch_closed_once ⟨1, 15⟩ _ <|
    .cons rfl trivial <| .cons rfl trivial <| .cons rfl trivial <| .cons rfl trivial <| .cons rfl trivial <|
    .cons rfl (by unfold Alone; decide) <| .cons rfl trivial <| .cons rfl trivial <| .cons rfl (by unfold Alone; decide) .nil

/-- The container is gone while its helper is reaped, and both look before either closes. -/
theorem stopWatch_closed_twice :
    ¬ Along (step ⟨1, 15⟩) (fun _ _ s' => s'.crashed = false) .init
      (opening ++ [.release 0 0, .reap 20, .gone 0, .kill ⟨.reaper, 0, false⟩, .kill ⟨.watcher 0, 0, false⟩,
        .closeStop ⟨.reaper, 0, true⟩] ++ [.closeStop ⟨.watcher 0, 0, true⟩]) :=
  fun h => absurd (Along.at h rfl rfl) (by decide)

/-- The condition asks no more than it needs to: a look at a channel that another is about to close lets both close it. -/
theorem Once.not_alone (h : Once s) {j k : Kill} (hj : j ∈ s.kills) (hjt : j.tested = true) (hk : k ∈ s.kills)
    (hkt : k.tested = false) (he : j.helper = k.helper) :
    ∃ s', run (step c) s [.kill k, .closeStop j, .closeStop { k with tested := true }] = some s' ∧ s'.crashed = true := by
  obtain ⟨x, hx, hopen⟩ := h.opened j hj hjt
  have hne : j ≠ k := by
    rintro rfl
    exact absurd (hjt.symm.trans hkt) (by decide)
  have hmem : j ∈ s.kills.erase k := (List.mem_erase_of_ne hne).mpr hj
  set k' : Kill := { k with tested := true } with hk'
  set t : State := { s with kills := k' :: s.kills.erase k } with ht
  have hlook : step c s (.kill k) = some t := by
    rw [h.step_eq]
    simp [act, he ▸ hx, hk, hkt, hopen, ht, hk']
  have hclose : step c t (.closeStop j) = some (t.stopHelper j) := by
    refine (if_neg (Bool.eq_false_iff.mp h.crashed)).trans ?_
    simp [act, ht, hx, hmem, hjt, hopen]
  have hclosed : (t.stopHelper j).helpers k'.helper = some x.stop := by
    have hstop : (s.adjust [j.helper] Helper.stop).helpers j.helper = (s.helpers j.helper).map Helper.stop :=
      if_pos (List.mem_singleton_self _)
    rw [hx] at hstop
    exact (congrArg (t.stopHelper j).helpers he.symm).trans hstop
  have hleft : k' ∈ (t.stopHelper j).kills := by
    change k' ∈ (k' :: s.kills.erase k).erase j
    by_cases hjk : k' = j
    · rw [hjk, List.erase_cons_head]
      exact hmem
    · exact (List.mem_erase_of_ne hjk).mpr List.mem_cons_self
  have hcrash : step c (t.stopHelper j) (.closeStop k') = some { t.stopHelper j with crashed := true } := by
    refine (if_neg (Bool.eq_false_iff.mp h.crashed)).trans ?_
    simp only [act, hclosed]
    rw [if_pos ⟨hleft, rfl⟩]
    rfl
  refine ⟨{ t.stopHelper j with crashed := true }, ?_, rfl⟩
  rw [run_cons_eq_some]
  exact ⟨t, hlook, run_cons_eq_some.mpr ⟨_, hclose, run_cons_eq_some.mpr ⟨_, hcrash, rfl⟩⟩⟩

end OpenshiftConsole.Filesystem.Pool
