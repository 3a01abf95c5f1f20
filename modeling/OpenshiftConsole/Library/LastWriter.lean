import Mathlib.Data.List.Induction
import Mathlib.Data.List.Perm.Basic

/-!
# Last writers

Several writers may each write one register, or leave it; what the last of them wrote is what
it holds. The order of the writers does not show if and only if all that write write the same
(`lastWriter_perm_iff`).
-/

namespace OpenshiftConsole.Library.LastWriter

variable {α : Type*} {l : List (Option α)}

/-- What the register holds in the end, if anything was written. -/
def lastWriter (l : List (Option α)) : Option α := l.foldl (fun held written => written.or held) none

theorem lastWriter_concat (l : List (Option α)) (w : Option α) : lastWriter (l ++ [w]) = w.or (lastWriter l) := by
  rw [lastWriter]
  rw [List.foldl_append]
  rfl

/-- What the register holds was written. -/
theorem mem_of_lastWriter {a : α} (h : lastWriter l = some a) : some a ∈ l := by
  induction l using List.reverseRecOn with
  | nil => cases h
  | append_singleton l w ih =>
    rw [lastWriter_concat] at h
    cases w with
    | none => exact List.mem_append_left _ (ih h)
    | some b => exact List.mem_append_right _ (List.mem_singleton.mpr h.symm)

theorem exists_lastWriter {a : α} (h : some a ∈ l) : ∃ b, lastWriter l = some b := by
  induction l using List.reverseRecOn with
  | nil => cases h
  | append_singleton l w ih =>
    rw [lastWriter_concat]
    cases w with
    | none =>
      rcases List.mem_append.mp h with h | h
      · exact ih h
      · cases List.mem_singleton.mp h
    | some b => exact ⟨b, rfl⟩

/-- If all that write write the same, it is what the register holds. -/
theorem lastWriter_eq_some {a : α} (h : some a ∈ l) (hagree : ∀ b, some b ∈ l → b = a) : lastWriter l = some a := by
  obtain ⟨b, hb⟩ := exists_lastWriter h
  rw [hb, hagree b (mem_of_lastWriter hb)]

/-- A register that each step of a loop writes or leaves. -/
theorem foldl_eq_lastWriter {σ β : Type*} {step : σ → β → σ} (register : σ → α) {writes : β → Option α}
    (h : ∀ s b, register (step s b) = (writes b).getD (register s)) (l : List β) (s : σ) :
    register (l.foldl step s) = (lastWriter (l.map writes)).getD (register s) := by
  induction l using List.reverseRecOn with
  | nil => rfl
  | append_singleton l b ih =>
    rw [List.foldl_append, List.foldl_cons, List.foldl_nil, h, ih, List.map_append, List.map_singleton, lastWriter_concat]
    cases writes b <;> rfl

/-- **The order of the writers**: it does not show exactly if all write the same. -/
theorem lastWriter_perm_iff {β : Type*} (writes : β → Option α) (l : List β) :
    (∀ l₁ l₂ : List β, l₁.Perm l → l₂.Perm l → lastWriter (l₁.map writes) = lastWriter (l₂.map writes)) ↔
      ∀ x ∈ l, ∀ y ∈ l, ∀ a b, writes x = some a → writes y = some b → a = b := by
  constructor
  · intro h x hx y hy a b ha hb
    have hlast : ∀ z ∈ l, ∀ c, writes z = some c → ∃ l' : List β, l'.Perm l ∧ lastWriter (l'.map writes) = some c := by
      intro z hz c hc
      obtain ⟨s, t, rfl⟩ := List.mem_iff_append.mp hz
      refine ⟨s ++ t ++ [z], (List.perm_append_singleton _ _).trans List.perm_middle.symm, ?_⟩
      rw [List.map_append, List.map_singleton, lastWriter_concat, hc, Option.some_or]
    obtain ⟨l₁, hl₁, h₁⟩ := hlast x hx a ha
    obtain ⟨l₂, hl₂, h₂⟩ := hlast y hy b hb
    exact Option.some_inj.mp (h₁.symm.trans ((h l₁ l₂ hl₁ hl₂).trans h₂))
  · intro h l₁ l₂ h₁ h₂
    have hp : (l₁.map writes).Perm (l₂.map writes) := List.Perm.map writes (h₁.trans h₂.symm)
    rcases hw : lastWriter (l₁.map writes) with _ | a
    · rcases hw' : lastWriter (l₂.map writes) with _ | b
      · rfl
      · obtain ⟨c, hc⟩ := exists_lastWriter (hp.mem_iff.mpr (mem_of_lastWriter hw'))
        exact absurd (hw.symm.trans hc) (by simp)
    · have ha := hp.mem_iff.mp (mem_of_lastWriter hw)
      refine (lastWriter_eq_some ha fun b hb => ?_).symm
      obtain ⟨x, hx, hxa⟩ := List.mem_map.mp ha
      obtain ⟨y, hy, hyb⟩ := List.mem_map.mp hb
      exact h y (h₂.mem_iff.mp hy) x (h₂.mem_iff.mp hx) b a hyb hxa

end OpenshiftConsole.Library.LastWriter
