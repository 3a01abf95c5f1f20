import Mathlib.Algebra.Order.Archimedean.Basic
import Mathlib.Algebra.Order.BigOperators.Group.List
import Mathlib.Algebra.Order.Floor.Ring
import Mathlib.Data.Int.ConditionallyCompleteOrder
import Mathlib.Data.List.Sort
import Mathlib.Order.Monotone.Basic
import Mathlib.Tactic.Linarith
import Mathlib.Tactic.Ring

/-!
# The viewer's geometry

The rows of a log are drawn at offsets of their own: each takes `rowHeight`, an expanded one its
expansion below it. A row's offset is `topOf`; `indexAt` finds the row that is drawn at an
offset, in one walk over the expansions.

A row ends where the next one begins (`topOf_succ`). So the offsets increase from row to
row, and the walk finds the row whose part of the page the offset lies in
(`indexAt_topOf`). The arithmetic is exact, in any ordered field with a floor.
-/

namespace OpenshiftConsole.Logging.Geometry

/-- `ROW_HEIGHT`. -/
def rowHeight : ℕ := 22

/-- The expanded rows: their sequence numbers, with the height reserved below each. -/
structure Expanded (α : Type*) [Zero α] [LE α] where
  entries : List (ℤ × α)
  nodup : (entries.map Prod.fst).Nodup
  nonneg : ∀ e ∈ entries, 0 ≤ e.2

/-- An expanded row that is in the buffer. -/
structure Expansion (α : Type*) where
  index : ℤ
  seq : ℤ
  height : α

variable {α : Type*} [Field α]

/-- `expansions`. -/
def expansions [LE α] (expanded : Expanded α) (firstSeq : ℤ) (count : ℕ) : List (Expansion α) :=
  (expanded.entries.filterMap fun (seq, height) =>
    let index := seq - firstSeq
    if 0 ≤ index ∧ index < count then some { index, seq, height } else none).mergeSort
      fun a b => a.index ≤ b.index

/-- `extraHeight`. -/
def extraHeight (expansions : List (Expansion α)) : α := expansions.foldl (fun sum e => sum + e.height) 0

/-- `totalHeight`. -/
def totalHeight (expansions : List (Expansion α)) (count : ℕ) : α := count * rowHeight + extraHeight expansions

/-- The heights of the expansions before a row, added to `extra`; the walk ends at the first one that is not before it. -/
def extraBefore (index : ℤ) : List (Expansion α) → α → α
  | [], extra => extra
  | e :: rest, extra => if index ≤ e.index then extra else extraBefore index rest (extra + e.height)

/-- `topOf`. -/
def topOf (expansions : List (Expansion α)) (index : ℤ) : α := index * rowHeight + extraBefore index expansions 0

/-- The walk of `indexAt` over the expansions that are left, from the row `index` that is drawn at `top`. -/
def indexFrom [LinearOrder α] [FloorRing α] (offset : α) : List (Expansion α) → ℤ → α → ℤ
  | [], index, top => index + ⌊(offset - top) / rowHeight⌋
  | e :: rest, index, top =>
    let blockTop := top + (e.index - index) * rowHeight
    let blockBottom := blockTop + rowHeight + e.height
    if offset < blockBottom then
      if offset < blockTop then index + ⌊(offset - top) / rowHeight⌋ else e.index
    else indexFrom offset rest (e.index + 1) blockBottom

/-- `indexAt`. -/
def indexAt [LinearOrder α] [FloorRing α] (expansions : List (Expansion α)) (offset : α) : ℤ := indexFrom offset expansions 0 0

/-! ### Where the rows are -/

/-- The height of a row's expansion. -/
def expansionHeight (es : List (Expansion α)) (index : ℤ) : α := ((es.filter (·.index = index)).map Expansion.height).sum

variable {es : List (Expansion α)} {index : ℤ} {top offset extra : α}

theorem expansionHeight_of_lt (h : ∀ e ∈ es, index < e.index) : expansionHeight es index = 0 := by
  have : es.filter (·.index = index) = [] := by simpa using fun e he => (h e he).ne'
  simp [expansionHeight, this]

/-- The walk of `topOf` adds nothing where every expansion is at the row or after it. -/
theorem extraBefore_of_le (h : ∀ e ∈ es, index ≤ e.index) : extraBefore index es extra = extra := by
  cases es with
  | nil => rfl
  | cons e rest => rw [extraBefore, if_pos (h e List.mem_cons_self)]

theorem extraBefore_add : extraBefore index es extra = extra + extraBefore index es 0 := by
  induction es generalizing extra with
  | nil => simp [extraBefore]
  | cons e rest ih =>
    simp only [extraBefore]
    split
    · simp
    · rw [ih, @ih (0 + e.height)]
      ring

theorem extraBefore_cons {e : Expansion α} (h : e.index < index) :
    extraBefore index (e :: es) 0 = e.height + extraBefore index es 0 := by
  rw [extraBefore, if_neg h.not_ge, extraBefore_add, zero_add]

/-- The height that `extraHeight` adds up is what `topOf` finds before a row after every expansion. -/
theorem extraHeight_eq (h : ∀ e ∈ es, e.index < index) : extraHeight es = extraBefore index es 0 := by
  rw [extraHeight]
  generalize (0 : α) = extra
  induction es generalizing extra with
  | nil => rfl
  | cons e rest ih =>
    rw [extraBefore, if_neg (h e List.mem_cons_self).not_ge, List.foldl_cons]
    exact ih (fun x hx => h x (List.mem_cons_of_mem e hx)) _

variable [LinearOrder α]

/-- The expansions of distinct rows, in their order, none of negative height. -/
structure Laid (es : List (Expansion α)) : Prop where
  ordered : es.Pairwise fun a b => a.index < b.index
  nonneg : ∀ e ∈ es, 0 ≤ e.height

theorem Laid.tail {e : Expansion α} (h : Laid (e :: es)) : Laid es :=
  ⟨h.ordered.of_cons, fun x hx => h.nonneg x (List.mem_cons_of_mem e hx)⟩

theorem Laid.lt {e : Expansion α} (h : Laid (e :: es)) {x : Expansion α} (hx : x ∈ es) :
    e.index < x.index := List.rel_of_pairwise_cons h.ordered hx

theorem extraBefore_succ (h : Laid es) :
    extraBefore (index + 1) es 0 = extraBefore index es 0 + expansionHeight es index := by
  induction es with
  | nil => simp [extraBefore, expansionHeight]
  | cons e rest ih =>
    rcases lt_trichotomy index e.index with hi | rfl | hi
    · have hle : ∀ x ∈ e :: rest, index < x.index := by
        simp only [List.mem_cons, forall_eq_or_imp]
        exact ⟨hi, fun x hx => hi.trans (h.lt hx)⟩
      rw [extraBefore_of_le fun x hx => hle x hx, extraBefore_of_le fun x hx => (hle x hx).le,
        expansionHeight_of_lt hle, add_zero]
    · rw [extraBefore_cons (lt_add_one _), extraBefore_of_le fun x hx => h.lt hx,
        extraBefore, if_pos le_rfl]
      have := expansionHeight_of_lt fun x hx => h.lt hx
      simp only [expansionHeight] at this ⊢
      simp [this]
    · rw [extraBefore_cons (hi.trans (lt_add_one _)), extraBefore_cons hi, ih h.tail]
      simp [expansionHeight, hi.ne, add_assoc]

/-- A row, with its expansion, ends where the next one begins. -/
theorem topOf_succ (h : Laid es) (index : ℤ) :
    topOf es (index + 1) = topOf es index + (rowHeight + expansionHeight es index) := by
  rw [topOf, topOf, extraBefore_succ h]
  push_cast
  ring

theorem mem_expansions {expanded : Expanded α} {firstSeq : ℤ} {count : ℕ} {e : Expansion α} (h : e ∈ expansions expanded firstSeq count) :
    0 ≤ e.index ∧ e.index < count ∧ e.seq = e.index + firstSeq ∧ (e.seq, e.height) ∈ expanded.entries := by
  rw [expansions, (List.mergeSort_perm _ _).mem_iff, List.mem_filterMap] at h
  obtain ⟨⟨seq, height⟩, hm, hs⟩ := h
  simp only [Option.ite_none_right_eq_some, Option.some.injEq] at hs
  obtain ⟨⟨h0, hc⟩, rfl⟩ := hs
  exact ⟨h0, hc, by simp, hm⟩

/-- Rows that differ in their sequence number have indices that differ, so the sorted ones increase. -/
theorem laid_expansions (expanded : Expanded α) (firstSeq : ℤ) (count : ℕ) :
    Laid (expansions expanded firstSeq count) := by
  have hne : (expansions expanded firstSeq count).Pairwise fun a b => a.index ≠ b.index := by
    rw [expansions, (List.mergeSort_perm _ _).pairwise_iff fun h => Ne.symm h]
    refine List.Pairwise.filterMap _ ?_ (List.pairwise_map.1 expanded.nodup)
    rintro ⟨s, h⟩ ⟨s', h'⟩ hss
    simp only [Option.ite_none_right_eq_some, Option.some.injEq]
    rintro _ ⟨-, rfl⟩ _ ⟨-, rfl⟩
    simpa using hss
  have hle : (expansions expanded firstSeq count).Pairwise fun a b => a.index ≤ b.index := by
    have hsorted := @List.pairwise_mergeSort (Expansion α) (fun a b => a.index ≤ b.index)
      (fun a b c => by simpa using le_trans) (fun a b => by simpa using le_total a.index b.index)
    simpa [expansions] using hsorted _
  exact ⟨(hle.and hne).imp fun h => lt_of_le_of_ne h.1 h.2, fun e he => expanded.nonneg _ (mem_expansions he).2.2.2⟩

theorem topOf_count (expanded : Expanded α) (firstSeq : ℤ) (count : ℕ) :
    topOf (expansions expanded firstSeq count) count = totalHeight (expansions expanded firstSeq count) count := by
  rw [topOf, totalHeight, extraHeight_eq fun e he => (mem_expansions he).2.1, Int.cast_natCast]

variable [IsStrictOrderedRing α]

theorem rowHeight_pos : (0 : α) < rowHeight := by
  rw [rowHeight]
  norm_num

theorem Laid.expansionHeight_nonneg (h : Laid es) (index : ℤ) : 0 ≤ expansionHeight es index := by
  refine List.sum_nonneg fun x hx => ?_
  obtain ⟨e, he, rfl⟩ := List.mem_map.1 hx
  exact h.nonneg e (List.mem_of_mem_filter he)

theorem topOf_strictMono (h : Laid es) : StrictMono (topOf es) := by
  refine strictMono_int_of_lt_succ fun index => ?_
  rw [topOf_succ h]
  have hr : (0 : α) < rowHeight := rowHeight_pos
  have he := h.expansionHeight_nonneg index
  linarith

/-! ### The row at an offset -/

variable [FloorRing α]

/-- Where no row is expanded, the quotient is the number of rows from `top` to the offset. -/
theorem floor_between (htop : top ≤ offset) :
    0 ≤ ⌊(offset - top) / rowHeight⌋ ∧ (⌊(offset - top) / rowHeight⌋ : α) * rowHeight ≤ offset - top ∧
      offset - top < (⌊(offset - top) / rowHeight⌋ + 1) * rowHeight :=
  ⟨Int.floor_nonneg.2 (div_nonneg (sub_nonneg.2 htop) rowHeight_pos.le),
    (le_div_iff₀ rowHeight_pos).1 (Int.floor_le _), (div_lt_iff₀ rowHeight_pos).1 (Int.lt_floor_add_one _)⟩

/-- The walk, from the row `index` at `top`: the row it ends at is `index` or after it, and the offset
is between its top and the next one's. -/
theorem indexFrom_between (h : Laid es) (hes : ∀ e ∈ es, index ≤ e.index) (htop : top ≤ offset) :
    index ≤ indexFrom offset es index top ∧
      top + (indexFrom offset es index top - index) * rowHeight
        + extraBefore (indexFrom offset es index top) es 0 ≤ offset ∧
      offset < top + (indexFrom offset es index top + 1 - index) * rowHeight
        + extraBefore (indexFrom offset es index top + 1) es 0 := by
  induction es generalizing index top with
  | nil =>
    obtain ⟨hfloor, hlo, hhi⟩ := floor_between htop
    simp only [indexFrom, extraBefore]
    push_cast
    exact ⟨by omega, by linarith, by linarith⟩
  | cons e rest ih =>
    have he : index ≤ e.index := hes e List.mem_cons_self
    have hrest : ∀ x ∈ rest, e.index + 1 ≤ x.index := fun x hx => h.lt hx
    rw [indexFrom]
    split_ifs with hbottom hblock
    · -- Above the expanded row.
      obtain ⟨hfloor, hlo, hhi⟩ := floor_between htop
      set n : ℤ := ⌊(offset - top) / rowHeight⌋
      have hn : (n : α) < (e.index - index : ℤ) := by
        refine lt_of_mul_lt_mul_right ?_ rowHeight_pos.le
        push_cast
        linarith
      have hlt : index + n < e.index := by
        have := Int.cast_lt.1 hn
        omega
      have hle : ∀ x ∈ e :: rest, index + n + 1 ≤ x.index := by
        simp only [List.mem_cons, forall_eq_or_imp]
        exact ⟨hlt, fun x hx => hlt.trans_le (by have := hrest x hx; omega)⟩
      rw [extraBefore_of_le hle, extraBefore_of_le fun x hx => (lt_add_one _).le.trans (hle x hx)]
      push_cast
      exact ⟨by omega, by linarith, by linarith⟩
    · -- In the expanded row, or in its expansion.
      rw [extraBefore_cons (lt_add_one _), extraBefore_of_le hrest, extraBefore, if_pos le_rfl]
      exact ⟨he, by linarith, by linarith⟩
    · -- Below the expansion: the walk goes on with the row after.
      obtain ⟨hi, hlo, hhi⟩ := ih h.tail hrest (not_lt.1 hbottom)
      rw [extraBefore_cons (by omega), extraBefore_cons (by omega)]
      push_cast at hlo hhi ⊢
      exact ⟨by omega, by linarith, by linarith⟩

/-- `indexAt` is the inverse of `topOf`: at every offset of the page it finds the row that is drawn there. -/
theorem indexAt_topOf (expanded : Expanded α) (firstSeq : ℤ) (count : ℕ) :
    let es := expansions expanded firstSeq count
    StrictMono (topOf es) ∧ topOf es count = totalHeight es count ∧
      ∀ offset, 0 ≤ offset → offset < totalHeight es count →
        0 ≤ indexAt es offset ∧ indexAt es offset < count ∧
          topOf es (indexAt es offset) ≤ offset ∧ offset < topOf es (indexAt es offset + 1) := by
  intro es
  have hmono : StrictMono (topOf es) := topOf_strictMono (laid_expansions ..)
  refine ⟨hmono, topOf_count .., fun offset h0 htotal => ?_⟩
  obtain ⟨hi, hlo, hhi⟩ := indexFrom_between (laid_expansions ..) (fun e he => (mem_expansions he).1) h0
  have hle : topOf es (indexAt es offset) ≤ offset := by simpa [topOf, indexAt] using hlo
  have hlt : offset < topOf es (indexAt es offset + 1) := by simpa [topOf, indexAt] using hhi
  have hcount : topOf es (indexAt es offset) < topOf es count := by
    rw [topOf_count]
    exact hle.trans_lt htotal
  exact ⟨hi, hmono.lt_iff_lt.1 hcount, hle, hlt⟩

/-- The second of six rows is expanded. -/
theorem indexAt_topOf_expanded :
    let es := expansions (⟨[(5, 30)], by decide, by decide⟩ : Expanded ℚ) 4 6
    0 ≤ indexAt es 50 ∧ indexAt es 50 < 6 ∧ topOf es (indexAt es 50) ≤ 50 ∧ 50 < topOf es (indexAt es 50 + 1) :=
  (indexAt_topOf (⟨[(5, 30)], by decide, by decide⟩ : Expanded ℚ) 4 6).2.2 50 (by norm_num) (by
    simp [totalHeight, extraHeight, expansions, rowHeight]
    norm_num)

end OpenshiftConsole.Logging.Geometry
