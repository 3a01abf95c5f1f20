import Mathlib.Data.List.Basic
import Mathlib.Data.List.Infix
import Mathlib.Tactic.Common

/-!
# Paths as lists of components

A path in a hierarchy is the list of its components, outermost first: one is at or above another
when it is a prefix of it. `resolveDots` takes out the components that stay where they are and those that
go up, as far as a text alone can tell.

Written out, every component has a separator before it (`joined`). Whether one path is above another
can then be read off the texts, as long as no component has a separator in it: the one with a separator
behind it starts the other (`joined_prefix_iff`).

`Reached` is what can be reached from the root by listings that show some of the members of a directory.
-/

namespace OpenshiftConsole.Library.Hierarchy

variable {κ χ : Type*}

/-! ### Components -/

/-- One more component of a path. -/
def step (here up : κ → Bool) (way : List κ) (c : κ) : List κ :=
  if here c then way else if up c then way.dropLast else way ++ [c]

/-- The path that the components of a text lead to, by the text alone. -/
def resolveDots (here up : κ → Bool) (l : List κ) : List κ := l.foldl (step here up) []

/-- The paths are the same, or one is above the other. -/
def Related (a b : List κ) : Prop := a <+: b ∨ b <+: a

instance [DecidableEq κ] (a b : List κ) : Decidable (Related a b) := inferInstanceAs (Decidable (_ ∨ _))

variable {here up : κ → Bool} {l a b : List κ} {c n : κ}

theorem resolveDots_concat : resolveDots here up (l ++ [c]) = step here up (resolveDots here up l) c := by
  rw [resolveDots, List.foldl_append]
  rfl

/-- What a path leads to has only components that go down. -/
theorem mem_resolveDots (hc : c ∈ resolveDots here up l) : c ∈ l ∧ here c = false ∧ up c = false := by
  induction l using List.reverseRecOn with
  | nil => cases hc
  | append_singleton l x ih =>
    rw [resolveDots_concat] at hc
    have hold : c ∈ resolveDots here up l → c ∈ l ++ [x] ∧ here c = false ∧ up c = false :=
      fun h => ⟨List.mem_append_left _ (ih h).1, (ih h).2⟩
    rw [step] at hc
    split at hc
    · exact hold hc
    · rename_i hhere
      split at hc
      · exact hold (List.dropLast_subset _ hc)
      · rename_i hup
        rcases List.mem_append.mp hc with hc | hc
        · exact hold hc
        · rw [List.mem_singleton.mp hc]
          exact ⟨by simp, by simpa using hhere, by simpa using hup⟩

/-- Components that only go down stay. -/
theorem resolveDots_of_down (h : ∀ c ∈ l, here c = false ∧ up c = false) : resolveDots here up l = l := by
  induction l using List.reverseRecOn with
  | nil => rfl
  | append_singleton l x ih =>
    have hx := h x (by simp)
    rw [resolveDots_concat, ih fun c hc => h c (List.mem_append_left _ hc), step, if_neg (by simp [hx.1]), if_neg (by simp [hx.2])]

/-! ### Texts -/

/-- A path written out, with a separator before each component. -/
def joined (sep : χ) (a : List (List χ)) : List χ := a.flatMap (sep :: ·)

variable {sep : χ} {v w s t : List χ} {ps qs : List (List χ)}

theorem joined_cons : joined sep (w :: ps) = sep :: (w ++ joined sep ps) := rfl

/-- Components that separators end are the same, if texts start with them. -/
theorem sep_prefix_iff (hv : sep ∉ v) (hw : sep ∉ w) : v ++ sep :: s <+: w ++ sep :: t ↔ v = w ∧ s <+: t := by
  induction v generalizing w with
  | nil =>
    cases w with
    | nil => simp
    | cons x w =>
      have hx : sep ≠ x := fun h => hw (h ▸ List.mem_cons_self)
      simp [hx]
  | cons y v ih =>
    simp only [List.mem_cons, not_or] at hv
    cases w with
    | nil => simp [Ne.symm hv.1]
    | cons x w =>
      simp only [List.mem_cons, not_or] at hw
      simp [ih hv.2 hw.2, and_assoc]

theorem joined_append_sep : joined sep ps ++ [sep] = sep :: ps.flatMap (· ++ [sep]) := by
  induction ps with
  | nil => rfl
  | cons w ps ih =>
    rw [joined_cons, List.cons_append, List.append_assoc, ih, List.flatMap_cons, List.append_assoc]
    rfl

/-- **Prefixes of paths are prefixes of texts**, with a separator behind each. -/
theorem joined_sep_prefix_iff (hp : ∀ w ∈ ps, sep ∉ w) (hq : ∀ w ∈ qs, sep ∉ w) :
    joined sep ps ++ [sep] <+: joined sep qs ++ [sep] ↔ ps <+: qs := by
  rw [joined_append_sep, joined_append_sep, List.prefix_cons_inj]
  induction ps generalizing qs with
  | nil => simp
  | cons v ps ih =>
    cases qs with
    | nil => simp
    | cons w qs =>
      have hrest := ih (fun x hx => hp x (List.mem_cons_of_mem v hx)) (fun x hx => hq x (List.mem_cons_of_mem w hx))
      have hsep := sep_prefix_iff (s := ps.flatMap (· ++ [sep])) (t := qs.flatMap (· ++ [sep]))
        (hp v List.mem_cons_self) (hq w List.mem_cons_self)
      simpa [hrest] using hsep

theorem joined_inj (hp : ∀ w ∈ ps, sep ∉ w) (hq : ∀ w ∈ qs, sep ∉ w) : joined sep ps = joined sep qs ↔ ps = qs := by
  refine ⟨fun h => ?_, fun h => by rw [h]⟩
  have hle := (joined_sep_prefix_iff hp hq).mp (by rw [h])
  have hge := (joined_sep_prefix_iff hq hp).mp (by rw [h])
  exact hle.eq_of_length (le_antisymm hle.length_le hge.length_le)

/-- A path is above another exactly when its text with a separator behind it starts the other's. -/
theorem joined_prefix_iff (hp : ∀ w ∈ ps, sep ∉ w) (hq : ∀ w ∈ qs, sep ∉ w) :
    joined sep ps ++ [sep] <+: joined sep qs ↔ ps <+: qs ∧ ps ≠ qs := by
  constructor
  · intro h
    refine ⟨(joined_sep_prefix_iff hp hq).mp (h.trans (List.prefix_append _ _)), ?_⟩
    rintro rfl
    exact absurd h.length_le (by simp)
  · rintro ⟨h, hne⟩
    obtain ⟨rest, rfl⟩ := h
    cases rest with
    | nil => exact absurd (List.append_nil ps).symm hne
    | cons w rest => exact ⟨w ++ joined sep rest, by simp [joined]⟩

/-! ### Going down by listings -/

/-- What is reached from the root, where `shows a n` says that the listing of the directory `a` shows `n`. -/
inductive Reached (shows : List κ → κ → Prop) : List κ → Prop where
  | root : Reached shows []
  | member {a : List κ} {n : κ} : Reached shows a → shows a n → Reached shows (a ++ [n])

/-- A path is reached exactly when each of its components is shown where it is. -/
theorem reached_iff {shows : List κ → κ → Prop} : Reached shows l ↔ ∀ a n, a ++ [n] <+: l → shows a n := by
  induction l using List.reverseRecOn with
  | nil => exact ⟨fun _ a n h => absurd (List.prefix_nil.mp h) (by simp), fun _ => .root⟩
  | append_singleton l x ih =>
    constructor
    · intro h
      generalize hl : l ++ [x] = way at h
      cases h with
      | root => simp at hl
      | @member a n h hn =>
        obtain ⟨rfl, hx⟩ := List.append_inj' hl rfl
        obtain rfl := List.singleton_injective hx
        intro b m hb
        rcases List.prefix_concat_iff.mp hb with he | hb
        · obtain ⟨rfl, hm⟩ := List.append_inj' he rfl
          rwa [List.singleton_injective hm]
        · exact ih.mp h b m hb
    · intro h
      exact .member (ih.mpr fun a n ha => h a n (ha.trans (List.prefix_append l [x]))) (h l x (List.prefix_refl _))

end OpenshiftConsole.Library.Hierarchy
