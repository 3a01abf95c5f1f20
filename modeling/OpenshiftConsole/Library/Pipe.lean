import Mathlib.Algebra.BigOperators.Group.List.Basic
import Mathlib.Tactic.Common

/-!
# A pipe

One side writes texts, the other reads them into a buffer. A read gives what is left of one text, as much as
fits; a text that is empty is read once, and gives nothing. What is read is what was written (`flatten_read`), and it is
read to the end if the buffer has any room (`exists_read_iff`).
-/

namespace OpenshiftConsole.Library.Pipe

variable {α : Type*}

/-- The parts that are not empty, of at most `fuel` reads with a buffer of this size; `none` if these are not all. -/
def read (size : ℕ) : ℕ → List (List α) → Option (List (List α))
  | _, [] => some []
  | 0, _ :: _ => none
  | fuel + 1, w :: ws =>
    let n := min size w.length
    let rest := if n = w.length then ws else w.drop n :: ws
    (read size fuel rest).map fun parts => if n = 0 then parts else w.take n :: parts

variable {size fuel : ℕ} {w : List α} {ws parts : List (List α)}

theorem flatten_read (h : read size fuel ws = some parts) : parts.flatten = ws.flatten := by
  induction fuel generalizing ws parts with
  | zero =>
    cases ws with
    | nil => exact Option.some_inj.mp h ▸ rfl
    | cons w ws => cases h
  | succ fuel ih =>
    cases ws with
    | nil => exact Option.some_inj.mp h ▸ rfl
    | cons w ws =>
      obtain ⟨later, hlater, rfl⟩ := Option.map_eq_some_iff.mp h
      have hrest := ih hlater
      have hpart : w.take (min size w.length) ++ later.flatten = w ++ ws.flatten := by
        rw [hrest]
        split
        · rename_i hall
          rw [hall, List.take_length]
        · rw [List.flatten_cons, ← List.append_assoc, List.take_append_drop]
      split
      · rename_i hnone
        rw [hnone, List.take_zero, List.nil_append] at hpart
        rw [hpart, List.flatten_cons]
      · rw [List.flatten_cons, hpart, List.flatten_cons]

/-- Each part fits, and has something. -/
theorem length_read (h : read size fuel ws = some parts) : ∀ part ∈ parts, 0 < part.length ∧ part.length ≤ size := by
  induction fuel generalizing ws parts with
  | zero =>
    cases ws with
    | nil =>
      obtain rfl := Option.some_inj.mp h
      simp
    | cons w ws => cases h
  | succ fuel ih =>
    cases ws with
    | nil =>
      obtain rfl := Option.some_inj.mp h
      simp
    | cons w ws =>
      obtain ⟨later, hlater, rfl⟩ := Option.map_eq_some_iff.mp h
      split
      · exact ih hlater
      · rename_i hsome
        refine List.forall_mem_cons.mpr ⟨?_, ih hlater⟩
        rw [List.length_take]
        omega

theorem exists_read (hsize : 0 < size) (h : ws.flatten.length + ws.length ≤ fuel) :
    ∃ parts, read size fuel ws = some parts := by
  induction fuel generalizing ws with
  | zero =>
    cases ws with
    | nil => exact ⟨[], rfl⟩
    | cons w ws => simp at h
  | succ fuel ih =>
    cases ws with
    | nil => exact ⟨[], rfl⟩
    | cons w ws =>
      rw [List.flatten_cons, List.length_append, List.length_cons] at h
      obtain ⟨later, hlater⟩ : ∃ later, read size fuel
          (if min size w.length = w.length then ws else w.drop (min size w.length) :: ws) = some later := by
        split
        · exact ih (by omega)
        · refine ih ?_
          rw [List.flatten_cons, List.length_append, List.length_cons, List.length_drop]
          omega
      exact ⟨_, Option.map_eq_some_iff.mpr ⟨later, hlater, rfl⟩⟩

/-- Without any room nothing is read, and what is written is never read to the end. -/
theorem read_zero (h : read 0 fuel ws = some parts) : ws.flatten = [] := by
  have hnone : parts = [] := List.eq_nil_iff_forall_not_mem.mpr fun part hpart => by
    have hlength := length_read h part hpart
    omega
  rw [← flatten_read h, hnone, List.flatten_nil]

/-- What is written is read to the end if there is any room, or nothing to be read. -/
theorem exists_read_iff : (∃ fuel parts, read size fuel ws = some parts) ↔ 0 < size ∨ ws.flatten = [] := by
  constructor
  · rintro ⟨fuel, parts, h⟩
    rcases Nat.eq_zero_or_pos size with rfl | hsize
    · exact .inr (read_zero h)
    · exact .inl hsize
  · rintro (hsize | hempty)
    · exact ⟨_, exists_read hsize (Nat.le_refl _)⟩
    · refine ⟨ws.length, [], ?_⟩
      induction ws with
      | nil => rfl
      | cons w ws ih =>
        obtain ⟨rfl, hws⟩ := List.append_eq_nil_iff.mp (List.flatten_cons ▸ hempty)
        simp [read, ih hws]

/-- More reads do not read anything else. -/
theorem read_mono {more : ℕ} (h : read size fuel ws = some parts) (hle : fuel ≤ more) :
    read size more ws = some parts := by
  induction fuel generalizing ws parts more with
  | zero =>
    cases ws with
    | nil =>
      cases more <;> exact h
    | cons w ws => cases h
  | succ fuel ih =>
    cases ws with
    | nil =>
      cases more <;> exact h
    | cons w ws =>
      obtain ⟨more, rfl⟩ : ∃ k, more = k + 1 := ⟨more - 1, by omega⟩
      obtain ⟨later, hlater, rfl⟩ := Option.map_eq_some_iff.mp h
      exact Option.map_eq_some_iff.mpr ⟨later, ih hlater (by omega), rfl⟩

end OpenshiftConsole.Library.Pipe
