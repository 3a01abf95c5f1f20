import Mathlib.Data.List.Basic
import Mathlib.Data.List.TakeWhile
import Mathlib.Tactic.Common

/-!
# Lines of a text

A text is a string of characters; `getlines` cuts it into lines the way C's
`getline` does, each line with its newline and the last one possibly without.
`fileLines` is the same cut with the newlines taken off: what a line-oriented
file says, whether or not its last line is terminated.

A list of lines is `WellLined` when it is the cut of some text; filtering lines
keeps that (`WellLined.filter`), so a file from which lines are dropped reads
back as exactly the lines that were kept (`getlines_flatten`).
-/

namespace OpenshiftConsole.Library.Lines

/-- A text. -/
abbrev Text := List Char

instance : LawfulBEq Text := inferInstance

/-- The lines of a text, each with its newline, the last one possibly without. -/
def getlines : Text → List Text
  | [] => []
  | c :: cs =>
    if c = '\n' then [c] :: getlines cs
    else match getlines cs with
      | [] => [[c]]
      | l :: ls => (c :: l) :: ls

/-- A line that ends in its newline. -/
def Terminated (l : Text) : Prop := ∃ b, '\n' ∉ b ∧ l = b ++ ['\n']

/-- A line without a newline: only the last of a text. -/
def Unterminated (l : Text) : Prop := l ≠ [] ∧ '\n' ∉ l

/-- A list of lines that is the cut of a text. -/
def WellLined : List Text → Prop
  | [] => True
  | [l] => Terminated l ∨ Unterminated l
  | l :: ls => Terminated l ∧ WellLined ls

/-- A line without its newline. -/
def chomp (l : Text) : Text := l.takeWhile (· ≠ '\n')

/-- What a line-oriented file says: its lines without their newlines. -/
def fileLines (s : Text) : List Text := (getlines s).map chomp

/-- The text with its final newline supplied when it is missing. -/
def terminate (s : Text) : Text := if s = [] ∨ s.getLast? = some '\n' then s else s ++ ['\n']

@[simp] theorem getlines_nil : getlines [] = [] := rfl

@[simp] theorem fileLines_nil : fileLines [] = [] := rfl

theorem getlines_newline_cons (s : Text) : getlines ('\n' :: s) = ['\n'] :: getlines s := by
  simp [getlines]

theorem getlines_cons_of_ne {c : Char} (hc : c ≠ '\n') (s : Text) :
    getlines (c :: s) = (match getlines s with | [] => [[c]] | l :: ls => (c :: l) :: ls) := by
  simp [getlines, hc]

/-- The lines of a text put together again are the text. -/
theorem flatten_getlines (s : Text) : (getlines s).flatten = s := by
  induction s with
  | nil => rfl
  | cons c s ih =>
    by_cases hc : c = '\n'
    · subst hc
      rw [getlines_newline_cons, List.flatten_cons, ih]
      rfl
    · rw [getlines_cons_of_ne hc]
      cases hs : getlines s with
      | nil => rw [hs] at ih; simp at ih; simp [← ih]
      | cons l ls => rw [hs] at ih; simp at ih; simp [ih]

theorem getlines_eq_nil {s : Text} : getlines s = [] ↔ s = [] := by
  constructor
  · intro h
    have := flatten_getlines s
    rw [h] at this
    exact this.symm
  · rintro rfl
    rfl

/-! ### One line -/

/-- A line in front of a text: it is the text's first line. -/
theorem getlines_line_append {b : Text} (hb : '\n' ∉ b) (s : Text) :
    getlines (b ++ '\n' :: s) = (b ++ ['\n']) :: getlines s := by
  induction b with
  | nil => exact getlines_newline_cons s
  | cons c b ih =>
    simp only [List.mem_cons, not_or] at hb
    rw [List.cons_append, getlines_cons_of_ne (Ne.symm hb.1), ih hb.2]
    rfl

/-- A text that starts with `b` has a first line that does. -/
theorem getlines_append_of_notMem {b : Text} (hb : '\n' ∉ b) (hne : b ≠ []) (s : Text) :
    ∃ l ls, getlines (b ++ s) = (b ++ l) :: ls := by
  induction b with
  | nil => exact absurd rfl hne
  | cons c b ih =>
    have hc : c ≠ '\n' := fun h => hb (h ▸ List.mem_cons_self)
    rw [List.cons_append, getlines_cons_of_ne hc]
    by_cases hb' : b = []
    · subst hb'
      rw [List.nil_append]
      cases getlines s with
      | nil => exact ⟨[], [], rfl⟩
      | cons l ls => exact ⟨l, ls, rfl⟩
    · obtain ⟨l, ls, h⟩ := ih (fun h => hb (List.mem_cons_of_mem c h)) hb'
      rw [h]
      exact ⟨l, ls, rfl⟩

theorem getlines_unterminated {l : Text} (h : Unterminated l) : getlines l = [l] := by
  obtain ⟨hne, hl⟩ := h
  induction l with
  | nil => exact absurd rfl hne
  | cons c l ih =>
    simp only [List.mem_cons, not_or] at hl
    rw [getlines_cons_of_ne (Ne.symm hl.1)]
    cases l with
    | nil => rfl
    | cons d l => rw [ih (by simp) hl.2]

theorem chomp_append_newline {b : Text} (hb : '\n' ∉ b) (s : Text) : chomp (b ++ '\n' :: s) = b := by
  rw [chomp]
  rw [List.takeWhile_append_of_pos (by intro c hc; simp; rintro rfl; exact hb hc)]
  simp

theorem chomp_of_notMem {l : Text} (hl : '\n' ∉ l) : chomp l = l := by
  rw [chomp]
  rw [List.takeWhile_eq_self_iff]
  intro c hc
  simp only [ne_eq, decide_eq_true_eq]
  rintro rfl
  exact hl hc

theorem newline_notMem_chomp (l : Text) : '\n' ∉ chomp l := by
  intro h
  simpa using List.mem_takeWhile_imp h

/-- A prefix without a newline is a prefix of the line exactly when it is one of
the line without its newline. -/
theorem prefix_chomp_iff {p l : Text} (hp : '\n' ∉ p) : p <+: chomp l ↔ p <+: l := by
  constructor
  · exact fun h => h.trans (List.takeWhile_prefix _)
  · rintro ⟨t, rfl⟩
    rw [chomp]
    rw [List.takeWhile_append_of_pos (by intro c hc; simp; rintro rfl; exact hp hc)]
    exact List.prefix_append _ _

/-! ### Well-lined lists -/

theorem WellLined.tail {l : Text} {ls : List Text} (h : WellLined (l :: ls)) : WellLined ls := by
  cases ls with
  | nil => trivial
  | cons _ _ => exact h.2

theorem wellLined_cons {l : Text} {ls : List Text} (hl : Terminated l) (h : WellLined ls) :
    WellLined (l :: ls) := by
  cases ls with
  | nil => exact Or.inl hl
  | cons _ _ => exact ⟨hl, h⟩

theorem WellLined.head {l : Text} {ls : List Text} (h : WellLined (l :: ls)) :
    Terminated l ∨ (Unterminated l ∧ ls = []) := by
  cases ls with
  | nil => exact h.imp id fun hu => ⟨hu, rfl⟩
  | cons _ _ => exact Or.inl h.1

/-- The lines of a text are well-lined. -/
theorem wellLined_getlines (s : Text) : WellLined (getlines s) := by
  induction s with
  | nil => trivial
  | cons c s ih =>
    by_cases hc : c = '\n'
    · subst hc
      rw [getlines_newline_cons]
      exact wellLined_cons ⟨[], by simp, rfl⟩ ih
    · rw [getlines_cons_of_ne hc]
      cases hs : getlines s with
      | nil => exact Or.inr ⟨by simp, by simpa using Ne.symm hc⟩
      | cons l ls =>
        rw [hs] at ih
        rcases ih.head with ⟨b, hb, rfl⟩ | ⟨⟨hne, hu⟩, rfl⟩
        · exact wellLined_cons ⟨c :: b, by simp [hb, Ne.symm hc], rfl⟩ ih.tail
        · exact Or.inr ⟨by simp, by simp [hu, Ne.symm hc]⟩

/-- A well-lined list is the cut of the text it makes. -/
theorem getlines_flatten {ls : List Text} (h : WellLined ls) : getlines ls.flatten = ls := by
  induction ls with
  | nil => rfl
  | cons l ls ih =>
    rcases h.head with ⟨b, hb, rfl⟩ | ⟨hu, rfl⟩
    · rw [List.flatten_cons, List.append_assoc, List.singleton_append, getlines_line_append hb, ih h.tail]
    · simpa using getlines_unterminated hu

/-- Dropping lines leaves a well-lined list. -/
theorem WellLined.filter (p : Text → Bool) {ls : List Text} (h : WellLined ls) : WellLined (ls.filter p) := by
  induction ls with
  | nil => trivial
  | cons l ls ih =>
    rw [List.filter_cons]
    split
    · rcases h.head with ht | ⟨hu, rfl⟩
      · exact wellLined_cons ht (ih h.tail)
      · exact Or.inr hu
    · exact ih h.tail

/-! ### Putting texts together -/

/-- Replacing lines by lines that end in a newline keeps a cut a cut. -/
theorem WellLined.map {f : Text → Text} (hf : ∀ l, f l = l ∨ Terminated (f l)) {ls : List Text} (h : WellLined ls) :
    WellLined (ls.map f) := by
  induction ls with
  | nil => trivial
  | cons l ls ih =>
    rw [List.map_cons]
    rcases h.head with hl | ⟨hl, rfl⟩
    · refine wellLined_cons ?_ (ih h.tail)
      rcases hf l with hfl | hfl
      · rwa [hfl]
      · exact hfl
    · rcases hf l with hfl | hfl
      · exact Or.inr (hfl.symm ▸ hl)
      · exact Or.inl hfl

theorem WellLined.mem {ls : List Text} (h : WellLined ls) {l : Text} (hl : l ∈ ls) : Terminated l ∨ Unterminated l := by
  induction ls with
  | nil => cases hl
  | cons m ls ih =>
    rcases List.mem_cons.mp hl with rfl | hl
    · exact h.head.imp_right And.left
    · exact ih h.tail hl

/-- A prefix of a line that does not end in a newline is one of the line without it. -/
theorem prefix_chomp_of_mem_getlines {s l p : Text} (hl : l ∈ getlines s) (hp : p.getLast? ≠ some '\n')
    (h : p <+: l) : p <+: chomp l := by
  rcases (wellLined_getlines s).mem hl with ⟨b, hb, rfl⟩ | ⟨-, hb⟩
  · rw [chomp_append_newline hb]
    rcases List.prefix_concat_iff.mp h with rfl | h
    · simp at hp
    · exact h
  · rwa [chomp_of_notMem hb]

theorem getlines_append_of_terminated {ls : List Text} (h : ∀ l ∈ ls, Terminated l) (t : Text) :
    getlines (ls.flatten ++ t) = ls ++ getlines t := by
  induction ls with
  | nil => rfl
  | cons l ls ih =>
    obtain ⟨b, hb, rfl⟩ := h l (by simp)
    rw [List.flatten_cons, List.append_assoc, List.append_assoc, List.singleton_append,
      getlines_line_append hb, ih fun l hl => h l (by simp [hl])]
    rfl

/-- Every line of a terminated text is terminated. -/
theorem terminated_of_mem_getlines {s : Text} (hs : s.getLast? = some '\n') :
    ∀ l ∈ getlines s, Terminated l := by
  induction s with
  | nil => simp
  | cons c s ih =>
    cases hs' : s with
    | nil =>
      subst hs'
      simp only [List.getLast?_singleton, Option.some.injEq] at hs
      subst hs
      simp only [getlines_newline_cons, getlines_nil, List.mem_singleton, forall_eq]
      exact ⟨[], by simp, rfl⟩
    | cons d s' =>
      have hlast : s.getLast? = some '\n' := by rw [hs'] at hs ⊢; simpa using hs
      rw [← hs']
      intro l hl
      by_cases hc : c = '\n'
      · subst hc
        rw [getlines_newline_cons] at hl
        rcases List.mem_cons.mp hl with rfl | hl
        · exact ⟨[], by simp, rfl⟩
        · exact ih hlast l hl
      · rw [getlines_cons_of_ne hc] at hl
        cases hg : getlines s with
        | nil => rw [getlines_eq_nil] at hg; simp [hg] at hlast
        | cons m ls =>
          rw [hg] at hl
          rcases List.mem_cons.mp hl with rfl | hl
          · obtain ⟨b, hb, rfl⟩ := ih hlast m (by simp [hg])
            exact ⟨c :: b, by simp [hb, Ne.symm hc], rfl⟩
          · exact ih hlast l (by simp [hg, hl])

/-- After a terminated text the lines go on with those of what follows. -/
theorem getlines_append {s : Text} (hs : s = [] ∨ s.getLast? = some '\n') (t : Text) :
    getlines (s ++ t) = getlines s ++ getlines t := by
  rcases hs with rfl | hs
  · rfl
  · conv_lhs => rw [← flatten_getlines s]
    exact getlines_append_of_terminated (terminated_of_mem_getlines hs) t

theorem terminate_terminated (s : Text) : terminate s = [] ∨ (terminate s).getLast? = some '\n' := by
  rw [terminate]
  split
  · assumption
  · simp

theorem fileLines_flatten_newline {ls : List Text} (hl : WellLined ls) (hne : ls.flatten ≠ [])
    (hlast : ls.flatten.getLast? ≠ some '\n') : fileLines (ls.flatten ++ ['\n']) = ls.map chomp := by
  induction ls with
  | nil => exact absurd rfl hne
  | cons l ls ih =>
    rcases hl.head with ⟨b, hb, rfl⟩ | ⟨⟨-, hn⟩, rfl⟩
    · have hls : ls.flatten ≠ [] := fun he => hlast (by simp [he])
      have hlast' : ls.flatten.getLast? ≠ some '\n' := fun he =>
        hlast (by rw [List.flatten_cons, List.getLast?_append, he]; rfl)
      have hrest := ih hl.tail hls hlast'
      simp only [fileLines] at hrest ⊢
      rw [List.flatten_cons, List.append_assoc, List.append_assoc, List.singleton_append,
        getlines_line_append hb, List.map_cons, hrest, List.map_cons]
    · simp only [fileLines, List.flatten_cons, List.flatten_nil, List.append_nil, List.map_cons,
        List.map_nil]
      rw [getlines_line_append hn]
      simp [chomp_append_newline hn, chomp_of_notMem hn]

/-- Supplying a missing final newline changes no line. -/
theorem fileLines_terminate (s : Text) : fileLines (terminate s) = fileLines s := by
  rw [terminate]
  split
  · rfl
  · next h =>
    push Not at h
    have hs := fileLines_flatten_newline (wellLined_getlines s) (by rw [flatten_getlines]; exact h.1)
      (by rw [flatten_getlines]; exact h.2)
    rwa [flatten_getlines] at hs

/-- The lines of a terminated text followed by one line. -/
theorem fileLines_terminate_append (s t : Text) :
    fileLines (terminate s ++ t) = fileLines s ++ fileLines t := by
  rw [← fileLines_terminate s]
  simp only [fileLines, getlines_append (terminate_terminated s), List.map_append]

/-- A text of one line. -/
theorem fileLines_line {b : Text} (hb : '\n' ∉ b) : fileLines (b ++ ['\n']) = [b] := by
  have := getlines_line_append hb []
  simp only [fileLines, this, getlines_nil, List.map_cons, List.map_nil, chomp_append_newline hb]

/-- Keeping the lines a test accepts keeps exactly those, when the test reads no
newline. -/
theorem fileLines_filter (q : Text → Bool) (hq : ∀ l, q (chomp l) = q l) (s : Text) :
    fileLines ((getlines s).filter q).flatten = (fileLines s).filter q := by
  unfold fileLines
  rw [getlines_flatten ((wellLined_getlines s).filter q), List.filter_map]
  congr 1
  exact List.filter_congr fun l _ => (hq l).symm

/-- Rewriting lines one by one rewrites what the file says one by one. -/
theorem fileLines_map {f : Text → Text} (hf : ∀ l, f l = l ∨ Terminated (f l)) (s : Text) :
    fileLines ((getlines s).map f).flatten = (getlines s).map fun l => chomp (f l) := by
  rw [fileLines]
  rw [getlines_flatten ((wellLined_getlines s).map hf), List.map_map]
  rfl

/-- The first line of a text to which a newline is added. -/
theorem chomp_mem_fileLines (t : Text) : chomp t ∈ fileLines (t ++ ['\n']) := by
  by_cases ht : '\n' ∈ t
  · obtain ⟨t₁, t₂, rfl, ht₁⟩ := List.eq_append_cons_of_mem ht
    rw [List.append_assoc, List.cons_append]
    simp only [fileLines, getlines_line_append ht₁, List.map_cons, chomp_append_newline ht₁]
    exact List.mem_cons_self
  · rw [fileLines_line ht, chomp_of_notMem ht]
    exact List.mem_singleton_self t

/-! ### Fields -/

theorem mem_of_mem_splitOn {d c : Char} {s t : Text} (ht : t ∈ s.splitOn d) (hc : c ∈ t) : c ∈ s := by
  induction s generalizing t with
  | nil =>
    rw [List.splitOn_nil, List.mem_singleton] at ht
    rwa [ht] at hc
  | cons a s ih =>
    rw [List.splitOn_cons_eq_if_modifyHead] at ht
    split at ht
    · rcases List.mem_cons.mp ht with rfl | ht
      · cases hc
      · exact List.mem_cons_of_mem a (ih ht hc)
    · obtain ⟨t₀, ts, hs⟩ := List.exists_cons_of_ne_nil (List.splitOn_ne_nil d s)
      rw [hs, List.modifyHead_cons] at ht
      rcases List.mem_cons.mp ht with rfl | ht
      · rcases List.mem_cons.mp hc with rfl | hc
        · exact List.mem_cons_self
        · exact List.mem_cons_of_mem a (ih (by rw [hs]; exact List.mem_cons_self) hc)
      · exact List.mem_cons_of_mem a (ih (by rw [hs]; exact List.mem_cons_of_mem t₀ ht) hc)

theorem notMem_of_mem_splitOn {α : Type*} [DecidableEq α] {d : α} {s t : List α} (ht : t ∈ s.splitOn d) : d ∉ t := by
  induction s generalizing t with
  | nil =>
    rw [List.splitOn_nil, List.mem_singleton] at ht
    rw [ht]
    exact List.not_mem_nil
  | cons a s ih =>
    rw [List.splitOn_cons_eq_if_modifyHead] at ht
    split at ht
    · rcases List.mem_cons.mp ht with rfl | ht
      · exact List.not_mem_nil
      · exact ih ht
    · next had =>
      obtain ⟨t₀, ts, hs⟩ := List.exists_cons_of_ne_nil (List.splitOn_ne_nil d s)
      rw [hs, List.modifyHead_cons] at ht
      rcases List.mem_cons.mp ht with rfl | ht
      · intro hc
        rcases List.mem_cons.mp hc with rfl | hc
        · exact had (beq_self_eq_true d)
        · exact ih (by rw [hs]; exact List.mem_cons_self) hc
      · exact ih (by rw [hs]; exact List.mem_cons_of_mem t₀ ht)

end OpenshiftConsole.Library.Lines
