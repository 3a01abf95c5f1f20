import Mathlib.Data.Int.Order.Basic
import Mathlib.Tactic.Common

/-!
# Functions of time that seldom change

A function of the integers changes at a point if its value before it is another one. Without a change
in between two values are the same (`eq_of_quiet`), and where there is one change at most the
function has two values, the one up to a point and the other from there on (`exists_step`).
-/

namespace OpenshiftConsole.Library.Changes

variable {α : Type*} {f : ℤ → α} {x y : ℤ}

/-- The value at the point is not the one before it. -/
def ChangesAt (f : ℤ → α) (c : ℤ) : Prop := f (c - 1) ≠ f c

instance [DecidableEq α] (f : ℤ → α) (c : ℤ) : Decidable (ChangesAt f c) := inferInstanceAs (Decidable (_ ≠ _))

theorem eq_of_quiet (hxy : x ≤ y) (h : ∀ c, x < c → c ≤ y → ¬ChangesAt f c) : f y = f x := by
  obtain ⟨k, rfl⟩ : ∃ k : ℕ, y = x + k := ⟨(y - x).toNat, by omega⟩
  clear hxy
  induction k with
  | zero => simp
  | succ k ih =>
    have hsame : f (x + k) = f (x + (k + 1 : ℕ)) := by
      have hquiet := not_not.mp (h (x + (k + 1 : ℕ)) (by omega) le_rfl)
      rwa [show x + ((k + 1 : ℕ) : ℤ) - 1 = x + k by omega] at hquiet
    rw [← hsame]
    exact ih fun c hc hc' => h c hc (by omega)

/-- With one change at most there are a value before it and one from there on. -/
theorem exists_step (h : ∀ c d, x < c → d ≤ y → ChangesAt f c → ChangesAt f d → ¬c < d) :
    ∃ c a b, ∀ t, x ≤ t → t ≤ y → f t = if t < c then a else b := by
  by_cases hchange : ∃ c, x < c ∧ c ≤ y ∧ ChangesAt f c
  · obtain ⟨c, hxc, hcy, hc⟩ := hchange
    have honly : ∀ d, x < d → d ≤ y → ChangesAt f d → d = c := fun d hxd hdy hd =>
      le_antisymm (not_lt.mp (h c d hxc hdy hc hd)) (not_lt.mp (h d c hxd hcy hd hc))
    refine ⟨c, f x, f y, fun t hxt hty => ?_⟩
    split_ifs with ht
    · exact eq_of_quiet hxt fun d hxd hdt hd => by
        have := honly d hxd (le_trans hdt hty) hd
        omega
    · exact (eq_of_quiet hty fun d htd hdy hd => by
        have := honly d (by omega) hdy hd
        omega).symm
  · refine ⟨x, f x, f x, fun t hxt hty => ?_⟩
    rw [ite_self]
    exact eq_of_quiet hxt fun c hxc hct hc => hchange ⟨c, hxc, le_trans hct hty, hc⟩

end OpenshiftConsole.Library.Changes
