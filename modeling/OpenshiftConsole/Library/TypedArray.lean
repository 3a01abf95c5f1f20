import Mathlib.Data.List.Basic
import Mathlib.Logic.Function.Basic
import Mathlib.Tactic.Common

/-!
# Typed arrays

An array of a fixed number of cells, as JavaScript's typed arrays are: a write past the
end does nothing, and to grow one is to copy it into a longer one. What a program keeps in
the cells from `lo` to `hi` is `subarray lo hi`; each operation has its lemma about
the subarrays it leaves.
-/

namespace OpenshiftConsole.Library

/-- An array of a fixed number of cells. -/
structure TypedArray (α : Type*) where
  length : ℕ
  cell : ℕ → α

namespace TypedArray

variable {α : Type*}

/-- A new array, every cell at its default. -/
def ofLength [Inhabited α] (length : ℕ) : TypedArray α := ⟨length, fun _ => default⟩

/-- Write one cell. -/
def set (a : TypedArray α) (i : ℕ) (x : α) : TypedArray α :=
  if i < a.length then { a with cell := Function.update a.cell i x } else a

/-- Write cells one after the other, from `i` on. -/
def write (a : TypedArray α) : ℕ → List α → TypedArray α
  | _, [] => a
  | i, x :: xs => (a.set i x).write (i + 1) xs

/-- The cells from `lo` up to `hi`. -/
def subarray (a : TypedArray α) (lo hi : ℕ) : List α := (List.range' lo (hi - lo)).map a.cell

/-- Copy the cells from `lo` up to `hi` to the front. -/
def copyToFront (a : TypedArray α) (lo hi : ℕ) : TypedArray α :=
  { a with cell := fun i => if i < hi - lo then a.cell (lo + i) else a.cell i }

@[simp] theorem length_set (a : TypedArray α) (i : ℕ) (x : α) : (a.set i x).length = a.length := by
  unfold set
  split <;> rfl

@[simp] theorem length_write (a : TypedArray α) (i : ℕ) (xs : List α) : (a.write i xs).length = a.length := by
  induction xs generalizing a i with
  | nil => rfl
  | cons x xs ih => rw [write, ih, length_set]

@[simp] theorem length_copyToFront (a : TypedArray α) (lo hi : ℕ) : (a.copyToFront lo hi).length = a.length := rfl

@[simp] theorem length_ofLength [Inhabited α] (n : ℕ) : (ofLength n : TypedArray α).length = n := rfl

@[simp] theorem length_subarray (a : TypedArray α) (lo hi : ℕ) : (a.subarray lo hi).length = hi - lo := by
  simp [subarray]

@[simp] theorem subarray_self (a : TypedArray α) (i : ℕ) : a.subarray i i = [] := by simp [subarray]

theorem getElem?_subarray (a : TypedArray α) {lo hi k : ℕ} (hk : lo + k < hi) :
    (a.subarray lo hi)[k]? = some (a.cell (lo + k)) := by
  rw [subarray, List.getElem?_map, List.getElem?_range' (by omega), Option.map_some, Nat.one_mul]

/-- A subarray is its part below a cell and its part from there on. -/
theorem subarray_append (a : TypedArray α) {lo mid hi : ℕ} (h₁ : lo ≤ mid) (h₂ : mid ≤ hi) :
    a.subarray lo mid ++ a.subarray mid hi = a.subarray lo hi := by
  obtain ⟨m, rfl⟩ := Nat.exists_eq_add_of_le h₁
  obtain ⟨n, rfl⟩ := Nat.exists_eq_add_of_le h₂
  rw [subarray, subarray, subarray, ← List.map_append, Nat.add_sub_cancel_left, Nat.add_sub_cancel_left,
    show lo + m + n - lo = m + n by omega, List.range'_append_1]

/-- Arrays with the same cells from `lo` to `hi` have the same subarray there. -/
theorem subarray_congr {a b : TypedArray α} {lo hi : ℕ} (h : ∀ i, lo ≤ i → i < hi → a.cell i = b.cell i) :
    a.subarray lo hi = b.subarray lo hi := by
  refine List.map_congr_left fun i hi => ?_
  obtain ⟨k, hk, rfl⟩ := List.mem_range'.mp hi
  exact h _ (by omega) (by omega)

theorem cell_set_of_ne (a : TypedArray α) {i j : ℕ} (h : j ≠ i) (x : α) : (a.set i x).cell j = a.cell j := by
  unfold set
  split
  · exact Function.update_of_ne h ..
  · rfl

theorem cell_set_self (a : TypedArray α) {i : ℕ} (h : i < a.length) (x : α) : (a.set i x).cell i = x := by
  rw [set, if_pos h]
  exact Function.update_self ..

/-- A write to the cell after a subarray extends it. -/
theorem subarray_set_succ (a : TypedArray α) {lo hi : ℕ} (h : lo ≤ hi) (hl : hi < a.length) (x : α) :
    (a.set hi x).subarray lo (hi + 1) = a.subarray lo hi ++ [x] := by
  rw [← subarray_append _ h (Nat.le_succ hi), subarray_congr fun i _ hi' => cell_set_of_ne a (Nat.ne_of_lt hi') x]
  simp [subarray, cell_set_self a hl]

theorem cell_write_of_lt (a : TypedArray α) {i j : ℕ} (h : j < i) (xs : List α) : (a.write i xs).cell j = a.cell j := by
  induction xs generalizing a i with
  | nil => rfl
  | cons x xs ih => rw [write, ih _ (by omega), cell_set_of_ne a (by omega)]

theorem cell_write_of_ge (a : TypedArray α) {i j : ℕ} {xs : List α} (h : i + xs.length ≤ j) :
    (a.write i xs).cell j = a.cell j := by
  induction xs generalizing a i with
  | nil => rfl
  | cons x xs ih =>
    rw [List.length_cons] at h
    rw [write, ih _ (by omega), cell_set_of_ne a (by omega)]

/-- What is written is there. -/
theorem subarray_write (a : TypedArray α) {i : ℕ} {l : List α} (h : i + l.length ≤ a.length) :
    (a.write i l).subarray i (i + l.length) = l := by
  induction l generalizing a i with
  | nil => simp
  | cons x l ih =>
    rw [List.length_cons] at h
    have hrest := ih (a.set i x) (i := i + 1) (by rw [length_set]; omega)
    rw [List.length_cons, ← subarray_append _ (Nat.le_succ i) (by omega), write, Nat.succ_eq_add_one,
      show i + (l.length + 1) = i + 1 + l.length by omega, hrest]
    simp [subarray, cell_write_of_lt _ (Nat.lt_succ_self i), cell_set_self a (by omega : i < a.length)]

/-- A write in front of a subarray extends it. -/
theorem subarray_write_append (a : TypedArray α) {i hi : ℕ} {l : List α} (h : i + l.length ≤ hi) (hl : hi ≤ a.length) :
    (a.write i l).subarray i hi = l ++ a.subarray (i + l.length) hi := by
  rw [← subarray_append _ (Nat.le_add_right i l.length) h, subarray_write a (by omega)]
  exact congrArg _ (subarray_congr fun j hj _ => cell_write_of_ge a hj)

/-- Cells copied to the front. -/
theorem subarray_copyToFront (a : TypedArray α) (lo hi : ℕ) :
    (a.copyToFront lo hi).subarray 0 (hi - lo) = a.subarray lo hi := by
  rw [subarray, subarray, Nat.sub_zero, List.range'_eq_map_range (s := lo), ← List.range_eq_range', List.map_map]
  refine List.map_congr_left fun i hi => ?_
  exact if_pos (List.mem_range.mp hi)

end TypedArray

end OpenshiftConsole.Library
