import Mathlib.Tactic.Common

/-!
# Runs that may not end

A computation with some fuel is `running` when the fuel is used up, or it `panics`, or it has
`returned`. `loop step` takes steps until one says that it is the last. `Returns e P` is
total correctness: `e` has returned, and what it returned has `P`; it follows the computation's
binds (`Returns.bind`).

A loop returns if every step keeps an invariant and makes a measure smaller (`loop_returns`),
and then any fuel above the measure gives the same result.
-/

namespace OpenshiftConsole.Library

/-- How far a computation has come. -/
inductive Exec (α : Type*) where
  | running
  | panics
  | returned (a : α)

namespace Exec

universe u

variable {α β σ ρ : Type*}

/-- One computation after another. -/
def andThen (e : Exec α) (f : α → Exec β) : Exec β :=
  match e with
  | running => running
  | panics => panics
  | returned a => f a

instance : Monad Exec where
  pure := returned
  bind := andThen

/-- What an optional value is, or a panic. -/
def ofOption : Option α → Exec α
  | none => panics
  | some a => returned a

/-- Steps until one gives a result. -/
def loop (step : σ → Exec (σ ⊕ ρ)) : ℕ → σ → Exec ρ
  | 0, _ => running
  | fuel + 1, s => (step s).andThen (Sum.elim (loop step fuel) returned)

/-- The computation has returned, with a property. -/
def Returns (e : Exec α) (P : α → Prop) : Prop := ∃ a, e = returned a ∧ P a

variable {P : α → Prop} {e : Exec α}

theorem returned_bind {α β : Type u} (a : α) (f : α → Exec β) : (returned a >>= f) = f a := rfl

/-- A computation after another has returned if both have. -/
theorem bind_eq_returned {α β : Type u} {e : Exec α} {f : α → Exec β} {b : β} :
    (e >>= f) = returned b ↔ ∃ a, e = returned a ∧ f a = returned b := by
  constructor
  · intro h
    cases e with
    | running => cases h
    | panics => cases h
    | returned a => exact ⟨a, rfl, h⟩
  · rintro ⟨a, rfl, h⟩
    exact h

theorem Returns.ret {a : α} (h : P a) : (returned a).Returns P := ⟨a, rfl, h⟩

theorem Returns.pure {a : α} (h : P a) : (Pure.pure a : Exec α).Returns P := ⟨a, rfl, h⟩

theorem Returns.ofOption {a : α} {o : Option α} (h : o = some a) (ha : P a) : (Exec.ofOption o).Returns P :=
  ⟨a, by rw [h, Exec.ofOption], ha⟩

theorem Returns.bind {α β : Type u} {e : Exec α} {f : α → Exec β} {P : α → Prop} {Q : β → Prop} (h : e.Returns P)
    (hf : ∀ a, P a → (f a).Returns Q) : (e >>= f).Returns Q := by
  obtain ⟨a, rfl, ha⟩ := h
  exact hf a ha

/-- **A loop returns**: each step keeps the invariant and makes the measure smaller, or it is the last. -/
theorem loop_returns {step : σ → Exec (σ ⊕ ρ)} {I : σ → Prop} {R : ρ → Prop} (measure : σ → ℕ)
    (hstep : ∀ s, I s → (step s).Returns (Sum.elim (fun s' => I s' ∧ measure s' < measure s) R)) {s : σ} (hs : I s) :
    ∃ r, R r ∧ ∀ fuel, measure s < fuel → loop step fuel s = returned r := by
  induction h : measure s using Nat.strongRecOn generalizing s with
  | _ n ih =>
    subst h
    obtain ⟨next, hnext, hr⟩ := hstep s hs
    cases next with
    | inl s' =>
      obtain ⟨r, hR, hloop⟩ := ih (measure s') hr.2 hr.1 rfl
      refine ⟨r, hR, fun fuel hfuel => ?_⟩
      obtain ⟨fuel, rfl⟩ := Nat.exists_eq_succ_of_ne_zero (Nat.ne_zero_of_lt hfuel)
      rw [loop, hnext]
      exact hloop fuel (Nat.lt_of_lt_of_le hr.2 (Nat.le_of_lt_succ hfuel))
    | inr r =>
      refine ⟨r, hr, fun fuel hfuel => ?_⟩
      obtain ⟨fuel, rfl⟩ := Nat.exists_eq_succ_of_ne_zero (Nat.ne_zero_of_lt hfuel)
      rw [loop, hnext]
      rfl

end Exec

end OpenshiftConsole.Library
