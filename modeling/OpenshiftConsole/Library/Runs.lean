import Mathlib.Data.Option.Basic
import Mathlib.Tactic.Common

/-!
# Runs of a labelled step function

A system is a partial function `step`: the state after an event, if the event can
happen. A run is a list of events. `Along step P s es` says that each step the run
takes from `s` satisfies `P`, a property of the state before, the event and the
state after; a guard is such a property that reads only the first two.

The rule for both is the same: an invariant that every guarded step keeps holds
after a guarded run (`Along.invariant`), and what every guarded step from a state
with the invariant satisfies, each step of the run does (`Along.of_invariant`).
-/

namespace OpenshiftConsole.Library.Runs

variable {σ ε : Type*} (step : σ → ε → Option σ)

/-- The state after a run, if each of its events can happen in turn. -/
def run : σ → List ε → Option σ
  | s, [] => some s
  | s, e :: es => (step s e).bind fun s' => run s' es

/-- Each step that the run takes satisfies `P`. -/
def Along (P : σ → ε → σ → Prop) : σ → List ε → Prop
  | _, [] => True
  | s, e :: es => ∀ s', step s e = some s' → P s e s' ∧ Along P s' es

variable {step}

@[simp] theorem run_nil (s : σ) : run step s [] = some s := rfl

theorem run_cons_eq_some {s t : σ} {e : ε} {es : List ε} :
    run step s (e :: es) = some t ↔ ∃ s', step s e = some s' ∧ run step s' es = some t := by
  simp [run, Option.bind_eq_some_iff]

theorem run_append_eq_some {s u : σ} {l r : List ε} :
    run step s (l ++ r) = some u ↔ ∃ t, run step s l = some t ∧ run step t r = some u := by
  induction l generalizing s with
  | nil => simp
  | cons e l ih =>
    simp only [List.cons_append, run_cons_eq_some, ih]
    constructor
    · rintro ⟨v, hv, t, ht, hu⟩
      exact ⟨t, ⟨v, hv, ht⟩, hu⟩
    · rintro ⟨t, ⟨v, hv, ht⟩, hu⟩
      exact ⟨v, hv, t, ht, hu⟩

theorem Along.nil {P : σ → ε → σ → Prop} {s : σ} : Along step P s [] := trivial

theorem Along.cons {P : σ → ε → σ → Prop} {s t : σ} {e : ε} {es : List ε} (he : step s e = some t)
    (hP : P s e t) (h : Along step P t es) : Along step P s (e :: es) := by
  intro s' hs
  obtain rfl : t = s' := Option.some_inj.mp (he.symm.trans hs)
  exact ⟨hP, h⟩

/-- What holds of every step with one of the events holds along the run. -/
theorem Along.of_forall {P : σ → ε → σ → Prop} {es : List ε} (h : ∀ e ∈ es, ∀ s s', P s e s') (s : σ) :
    Along step P s es := by
  induction es generalizing s with
  | nil => trivial
  | cons e es ih =>
    exact fun s' _ => ⟨h e List.mem_cons_self s s', ih (fun d hd => h d (List.mem_cons_of_mem e hd)) s'⟩

/-- What each step satisfies together, each run does. -/
theorem Along.congr {P Q : σ → ε → σ → Prop} (h : ∀ s e s', step s e = some s' → (P s e s' ↔ Q s e s')) (s : σ)
    (es : List ε) : Along step P s es ↔ Along step Q s es := by
  induction es generalizing s with
  | nil => exact Iff.rfl
  | cons e es ih =>
    constructor
    · intro hP s' hs
      obtain ⟨hp, hes⟩ := hP s' hs
      exact ⟨(h s e s' hs).mp hp, (ih s').mp hes⟩
    · intro hQ s' hs
      obtain ⟨hq, hes⟩ := hQ s' hs
      exact ⟨(h s e s' hs).mpr hq, (ih s').mpr hes⟩

/-- Each step of a run satisfies what holds along it. -/
theorem Along.at {P : σ → ε → σ → Prop} {s t t' : σ} {e : ε} {l r : List ε}
    (h : Along step P s (l ++ e :: r)) (ht : run step s l = some t) (he : step t e = some t') : P t e t' := by
  induction l generalizing s with
  | nil =>
    obtain rfl : s = t := Option.some_inj.mp ht
    exact (h t' he).1
  | cons d l ih =>
    obtain ⟨u, hu, ht⟩ := run_cons_eq_some.mp ht
    exact ih (h u hu).2 ht

/-- An invariant that guarded steps keep holds after a guarded run. -/
theorem Along.invariant {G : σ → ε → σ → Prop} {I : σ → Prop}
    (hstep : ∀ {s e s'}, step s e = some s' → G s e s' → I s → I s') {s t : σ} {es : List ε}
    (h : Along step G s es) (hI : I s) (ht : run step s es = some t) : I t := by
  induction es generalizing s with
  | nil => exact Option.some_inj.mp ht ▸ hI
  | cons e es ih =>
    obtain ⟨u, hu, ht⟩ := run_cons_eq_some.mp ht
    obtain ⟨hg, h⟩ := h u hu
    exact ih h (hstep hu hg hI) ht

/-- What guarded steps from states with the invariant satisfy holds along a guarded run. -/
theorem Along.of_invariant {G P : σ → ε → σ → Prop} {I : σ → Prop}
    (hstep : ∀ {s e s'}, step s e = some s' → G s e s' → I s → I s')
    (hP : ∀ {s e s'}, step s e = some s' → G s e s' → I s → P s e s') {s : σ} {es : List ε}
    (h : Along step G s es) (hI : I s) : Along step P s es := by
  induction es generalizing s with
  | nil => trivial
  | cons e es ih =>
    intro s' hs
    obtain ⟨hg, h⟩ := h s' hs
    exact ⟨hP hs hg hI, ih h (hstep hs hg hI)⟩

/-- If a step keeps `J` exactly when it satisfies `Q`, a run goes through states with `J` exactly when each of its steps
satisfies `Q`. -/
theorem Along.iff_of_step {G : σ → ε → σ → Prop} {Q : σ → ε → Prop} {I J : σ → Prop}
    (hstep : ∀ {s e s'}, step s e = some s' → G s e s' → I s → I s')
    (hiff : ∀ {s e s'}, step s e = some s' → G s e s' → I s → J s → (J s' ↔ Q s e)) {s : σ} {es : List ε}
    (h : Along step G s es) (hI : I s) (hJ : J s) :
    Along step (fun _ _ s' => J s') s es ↔ Along step (fun s e _ => Q s e) s es := by
  induction es generalizing s with
  | nil => exact Iff.rfl
  | cons e es ih =>
    constructor
    · intro hall s' hs
      obtain ⟨hJ', hes⟩ := hall s' hs
      obtain ⟨hg, h⟩ := h s' hs
      exact ⟨(hiff hs hg hI hJ).mp hJ', (ih h (hstep hs hg hI) hJ').mp hes⟩
    · intro hall s' hs
      obtain ⟨hQ, hes⟩ := hall s' hs
      obtain ⟨hg, h⟩ := h s' hs
      have hJ' := (hiff hs hg hI hJ).mpr hQ
      exact ⟨hJ', (ih h (hstep hs hg hI) hJ').mpr hes⟩

end OpenshiftConsole.Library.Runs
