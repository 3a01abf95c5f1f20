import Mathlib.Tactic.Common

/-!
# Loops that stop at the first error

`forEach f l s` does `f` for each element of `l` in turn, on a state that it changes, until
one fails. What every turn keeps, the loop keeps (`forEach_invariant`), also where it matters whether
a turn fails (`forEach_rule`), and a loop that takes all its turns takes the first and then the rest
(`forEach_cons_eq_none`). `forEach_inStep` compares two loops over one list.
-/

namespace OpenshiftConsole.Library.Loops

variable {α σ ε : Type*} {f : α → σ → σ × Option ε} {l : List α} {s : σ}

/-- Do `f` for each element, up to the first error. -/
def forEach (f : α → σ → σ × Option ε) : List α → σ → σ × Option ε
  | [], s => (s, none)
  | a :: l, s =>
    match f a s with
    | (s, some err) => (s, some err)
    | (s, none) => forEach f l s

/-- What every turn keeps, the loop keeps. -/
theorem forEach_invariant {I : σ → Prop} (hf : ∀ a ∈ l, ∀ s, I s → I (f a s).1) (hs : I s) : I (forEach f l s).1 := by
  induction l generalizing s with
  | nil => exact hs
  | cons a l ih =>
    have ha := hf a List.mem_cons_self s hs
    unfold forEach
    rcases hfa : f a s with ⟨s', _ | err⟩ <;> rw [hfa] at ha
    · exact ih (fun b hb => hf b (List.mem_cons_of_mem a hb)) ha
    · exact ha

/-- What holds of the state while every turn succeeds holds at the end, and where a turn fails what
that turn leaves holds. -/
theorem forEach_rule {I E : σ → Prop}
    (hf : ∀ a ∈ l, ∀ s, I s → ((f a s).2 = none → I (f a s).1) ∧ ((f a s).2 ≠ none → E (f a s).1)) (hs : I s) :
    ((forEach f l s).2 = none → I (forEach f l s).1) ∧ ((forEach f l s).2 ≠ none → E (forEach f l s).1) := by
  induction l generalizing s with
  | nil => exact ⟨fun _ => hs, fun h => absurd rfl h⟩
  | cons a l ih =>
    have ha := hf a List.mem_cons_self s hs
    rw [forEach]
    rcases hfa : f a s with ⟨s', _ | err⟩ <;> rw [hfa] at ha
    · exact ih (fun b hb => hf b (List.mem_cons_of_mem a hb)) (ha.1 rfl)
    · exact ⟨by simp, fun _ => ha.2 (by simp)⟩

theorem forEach_cons_eq_none {a : α} {s' : σ} :
    forEach f (a :: l) s = (s', none) ↔ ∃ s₁, f a s = (s₁, none) ∧ forEach f l s₁ = (s', none) := by
  conv_lhs => unfold forEach
  rcases hfa : f a s with ⟨s₁, _ | err⟩
  · refine ⟨fun h => ⟨s₁, rfl, h⟩, ?_⟩
    rintro ⟨_, h, hs⟩
    obtain ⟨rfl, -⟩ := Prod.mk.inj h
    exact hs
  · refine ⟨by simp, ?_⟩
    rintro ⟨_, h, -⟩
    cases h

/-- What every turn that succeeds keeps, a loop that takes all its turns keeps. -/
theorem forEach_kept {I : σ → Prop} {s' : σ} (hf : ∀ a ∈ l, ∀ s s', I s → f a s = (s', none) → I s') (hs : I s)
    (h : forEach f l s = (s', none)) : I s' := by
  induction l generalizing s with
  | nil => exact (Prod.mk.inj h).1 ▸ hs
  | cons a l ih =>
    obtain ⟨s₁, h₁, h₂⟩ := forEach_cons_eq_none.mp h
    exact ih (fun b hb => hf b (List.mem_cons_of_mem a hb)) (hf a List.mem_cons_self s s₁ hs h₁) h₂

/-- The turn for an element, with what comes before and after it. -/
theorem forEach_mem {R : σ → σ → Prop} {a : α} {s' : σ} (hrefl : ∀ s, R s s) (htrans : ∀ s₁ s₂ s₃, R s₁ s₂ → R s₂ s₃ → R s₁ s₃)
    (hf : ∀ b ∈ l, ∀ s s', f b s = (s', none) → R s s') (h : forEach f l s = (s', none)) (ha : a ∈ l) :
    ∃ s₁ s₂, R s s₁ ∧ f a s₁ = (s₂, none) ∧ R s₂ s' := by
  induction l generalizing s with
  | nil => cases ha
  | cons b l ih =>
    obtain ⟨s₁, h₁, h₂⟩ := forEach_cons_eq_none.mp h
    have hrest := fun c hc => hf c (List.mem_cons_of_mem b hc)
    rcases List.mem_cons.mp ha with rfl | ha
    · refine ⟨s, s₁, hrefl s, h₁, ?_⟩
      exact forEach_kept (I := R s₁) (fun c hc s s' hs hc' => htrans _ _ _ hs (hrest c hc s s' hc')) (hrefl s₁) h₂
    · obtain ⟨s₂, s₃, hs₂, ha', hs₃⟩ := ih hrest h₂ ha
      exact ⟨s₂, s₃, htrans _ _ _ (hf b List.mem_cons_self s s₁ h₁) hs₂, ha', hs₃⟩

/-- Two loops over one list, of which the first takes all its turns. They go on in step as long as `A` holds of
the elements, and the second is lost from the first element on of which it does not. -/
theorem forEach_inStep {τ : Type*} {g : α → τ → τ × Option ε} {R : σ → τ → Prop} {A : α → Prop} {Lost : τ → Prop}
    (hturn : ∀ a ∈ l, ∀ s t s', R s t → f a s = (s', none) →
      (A a ∧ ∃ t', g a t = (t', none) ∧ R s' t') ∨ (¬ A a ∧ ∀ t', g a t = (t', none) → Lost t'))
    (hlost : ∀ a ∈ l, ∀ t t', Lost t → g a t = (t', none) → Lost t') {s s' : σ} {t : τ} (hs : R s t)
    (h : forEach f l s = (s', none)) :
    ((∀ a ∈ l, A a) ∧ ∃ t', forEach g l t = (t', none) ∧ R s' t') ∨
      (¬ (∀ a ∈ l, A a) ∧ ∀ t', forEach g l t = (t', none) → Lost t') := by
  induction l generalizing s t with
  | nil =>
    obtain rfl := (Prod.mk.inj h).1
    exact .inl ⟨by simp, t, rfl, hs⟩
  | cons a l ih =>
    obtain ⟨s₁, h₁, h₂⟩ := forEach_cons_eq_none.mp h
    have hlost' := fun b hb => hlost b (List.mem_cons_of_mem a hb)
    rcases hturn a List.mem_cons_self s t s₁ hs h₁ with ⟨ha, t₁, ht₁, hs₁⟩ | ⟨ha, hl⟩
    · rcases ih (fun b hb => hturn b (List.mem_cons_of_mem a hb)) hlost' hs₁ h₂ with ⟨hall, t', ht', hs'⟩ | ⟨hall, hl⟩
      · exact .inl ⟨List.forall_mem_cons.mpr ⟨ha, hall⟩, t', forEach_cons_eq_none.mpr ⟨t₁, ht₁, ht'⟩, hs'⟩
      · refine .inr ⟨fun h => hall (List.forall_mem_cons.mp h).2, fun t' ht' => hl t' ?_⟩
        obtain ⟨t₂, ht₂, ht'⟩ := forEach_cons_eq_none.mp ht'
        rw [ht₁] at ht₂
        obtain rfl := (Prod.mk.inj ht₂).1
        exact ht'
    · refine .inr ⟨fun h => ha (List.forall_mem_cons.mp h).1, fun t' ht' => ?_⟩
      obtain ⟨t₁, ht₁, ht'⟩ := forEach_cons_eq_none.mp ht'
      exact forEach_kept hlost' (hl t₁ ht₁) ht'

end OpenshiftConsole.Library.Loops
