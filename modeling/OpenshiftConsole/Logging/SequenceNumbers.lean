import Mathlib.Order.Monotone.Basic
import OpenshiftConsole.Logging.TaggedBuffer

/-!
# Sequence numbers

The viewer keeps what it has parsed of a line under the line's sequence number, as long as
the buffer's generation stays. That is right as long as a number never names two lines of
one generation. `append` gives out the numbers from `endSeq` on, which nothing has had
before; `prepend` gives out those below `firstSeq`, which lines that were evicted have had.

A `Numbered` buffer is a buffer whose lines are tagged with their occurrence: each line that a
call adds is a new one. Numbers name lines uniquely in exactly the runs in which `prepend`
gives out only numbers under which no line of the generation has been held
(`numbers_unique_iff`).
-/

namespace OpenshiftConsole.Logging

/-- A buffer with the occurrences of its lines, and the next one. -/
structure Numbered where
  tagged : Tagged ℕ
  next : ℕ

namespace Numbered

/-- A new buffer. -/
def new (options : LogBufferOptions) : Numbered := ⟨.new options, 0⟩

/-- The buffer. -/
def buffer (n : Numbered) : LogBuffer := n.tagged.buffer

/-- A call: each line it adds is a new occurrence. -/
def call (n : Numbered) (c : Call) : Numbered :=
  { tagged := n.tagged.call c (n.next + ·), next := n.next + n.tagged.born c }

/-- The buffer after the first `i` of the calls. -/
def moment (options : LogBufferOptions) (calls : List Call) (i : ℕ) : Numbered := (calls.take i).foldl call (new options)

/-- A number that names a line at both moments names one and the same. -/
def SameLines (n n' : Numbered) : Prop :=
  ∀ seq line line', n.tagged.row seq = some line → n'.tagged.row seq = some line' → line = line'

/-- Each two moments of a generation agree on the numbers. -/
def NumbersUnique (options : LogBufferOptions) (calls : List Call) : Prop :=
  ∀ i j, i ≤ j → (moment options calls i).buffer.gen = (moment options calls j).buffer.gen →
    SameLines (moment options calls i) (moment options calls j)

/-- Each `prepend` gives out only numbers under which no line has been held in the generation. -/
def GivesOutNew (options : LogBufferOptions) (calls : List Call) : Prop :=
  ∀ i j chunk, calls[j]? = some (.prepend chunk) → i ≤ j →
    (moment options calls i).buffer.gen = (moment options calls j).buffer.gen →
    ∀ seq, (moment options calls j).buffer.firstSeq - (LineLog.wholeLines chunk).length ≤ seq →
      seq < (moment options calls j).buffer.firstSeq → (moment options calls i).buffer.lineAt seq = none

/-! ### One call -/

/-- The invariant: each retained line is an occurrence, and none of them is the next one. -/
structure Inv (k : ℕ) (n : Numbered) (m : LineLog) : Prop where
  tagged : n.tagged.Inv k m
  old : ∀ id ∈ n.tagged.tags, id < n.next

variable {k : ℕ} {n n₀ : Numbered} {m m₀ : LineLog}

theorem next_le_call (n : Numbered) (c : Call) : n.next ≤ (n.call c).next := Nat.le_add_right ..

theorem Inv.call (h : Inv k n m) (c : Call) : Inv k (n.call c) (m.call k c) := by
  refine ⟨h.tagged.call c _, fun id hid => ?_⟩
  rcases Tagged.mem_tags_call hid with hid | ⟨i, hi, rfl⟩
  · exact Nat.lt_of_lt_of_le (h.old id hid) (next_le_call n c)
  · exact Nat.add_lt_add_left hi n.next

/-- A call other than `clear` that gives out no number held at an earlier moment agrees with it. -/
theorem sameLines_call (h₀ : n₀.tagged.Inv k m₀) (h : n.tagged.Inv k m) (hs : SameLines n₀ n) (hended : m₀.ended ≤ m.ended)
    {c : Call} (hc : c ≠ .clear)
    (hnew : ∀ chunk, c = .prepend chunk → ∀ seq, m.firstSeq - (LineLog.wholeLines chunk).length ≤ seq → seq < m.firstSeq →
      n₀.buffer.lineAt seq = none) :
    SameLines n₀ (n.call c) ∧ m₀.ended ≤ (m.call k c).ended := by
  have hbehind : ∀ {n' : Numbered} {m' : LineLog},
      (∀ seq line, n'.tagged.row seq = some line → n.tagged.row seq = some line ∨ (m.ended : ℤ) ≤ seq) →
      m.ended ≤ m'.ended → SameLines n₀ n' ∧ m₀.ended ≤ m'.ended := by
    refine fun hrow hle => ⟨fun seq line line' hline hline' => ?_, Nat.le_trans hended hle⟩
    rcases hrow seq line' hline' with hold | hseq
    · exact hs seq line line' hline hold
    · have := (h₀.row_isSome seq).mp (Option.isSome_of_eq_some hline)
      omega
  have hadded : ((List.range (n.tagged.born c)).map (n.next + ·)).length = n.tagged.born c := by simp
  cases c with
  | append chunk =>
    obtain ⟨-, hle, hrow⟩ := h.extend (h.refines.call (.append chunk)) (grows_append m k chunk) hadded
    exact hbehind hrow hle
  | flushPartial =>
    obtain ⟨-, hle, hrow⟩ := h.extend (h.refines.call .flushPartial) (grows_flushPartial m k) hadded
    exact hbehind hrow hle
  | prepend chunk =>
    obtain ⟨hinv, hkept, -⟩ := h.prepend chunk (n.next + ·)
    refine ⟨fun seq line line' hline hline' => ?_, hended⟩
    by_cases hseq : m.firstSeq ≤ seq
    · exact hs seq line line' hline (hkept seq hseq ▸ hline')
    · have hheld := ((hinv.row_isSome seq).mp (Option.isSome_of_eq_some hline')).1
      have hfirst : (m.prepend chunk).firstSeq = m.firstSeq - (LineLog.wholeLines chunk).length := by
        simp only [LineLog.firstSeq, LineLog.prepend, List.length_append]
        omega
      have := (h₀.lineAt_eq_none seq).mp (hnew chunk rfl seq (hfirst ▸ hheld) (by omega))
      cases hline.symm.trans this
  | clear => exact absurd rfl hc

theorem generation_call (m : LineLog) (k : ℕ) {c : Call} (hc : c ≠ .clear) : (m.call k c).generation = m.generation := by
  cases c with
  | append chunk => obtain ⟨-, -, -, -, -, h⟩ := grows_append m k chunk; exact h
  | flushPartial => obtain ⟨-, -, -, -, -, h⟩ := grows_flushPartial m k; exact h
  | prepend chunk => rfl
  | clear => exact absurd rfl hc

/-! ### All moments of a run -/

variable {options : LogBufferOptions} {calls : List Call}

/-- The log at a moment. -/
def logAt (options : LogBufferOptions) (calls : List Call) (i : ℕ) : LineLog :=
  LineLog.empty.run (LogBuffer.new options).maxLines (calls.take i)

theorem moment_succ {i : ℕ} {c : Call} (hc : calls[i]? = some c) :
    moment options calls (i + 1) = (moment options calls i).call c ∧
      logAt options calls (i + 1) = (logAt options calls i).call (LogBuffer.new options).maxLines c := by
  simp [moment, logAt, LineLog.run, List.take_add_one, hc, List.foldl_append]

theorem moment_succ_of_none {i : ℕ} (hc : calls[i]? = none) :
    moment options calls (i + 1) = moment options calls i ∧ logAt options calls (i + 1) = logAt options calls i := by
  simp [moment, logAt, List.take_add_one, hc]

variable (options calls) in
/-- The invariant holds at every moment. -/
theorem inv_moment (i : ℕ) : Inv (LogBuffer.new options).maxLines (moment options calls i) (logAt options calls i) := by
  induction i with
  | zero => exact ⟨Tagged.inv_new options, fun id hid => nomatch hid⟩
  | succ i ih =>
    cases hc : calls[i]? with
    | none => rw [(moment_succ_of_none hc).1, (moment_succ_of_none hc).2]; exact ih
    | some c => rw [(moment_succ hc).1, (moment_succ hc).2]; exact ih.call c

theorem next_mono : Monotone fun i => (moment options calls i).next := by
  refine monotone_nat_of_le_succ fun i => ?_
  cases hc : calls[i]? with
  | none => rw [(moment_succ_of_none hc).1]
  | some c => rw [(moment_succ hc).1]; exact next_le_call _ c

/-- Two moments of a generation agree if what `prepend` has given out by the second was not held at the first. -/
theorem sameLines_of_givesOutNew (h : GivesOutNew options calls) {i j : ℕ} (hij : i ≤ j) :
    (logAt options calls i).generation ≤ (logAt options calls j).generation ∧
      ((logAt options calls i).generation = (logAt options calls j).generation →
        SameLines (moment options calls i) (moment options calls j) ∧ (logAt options calls i).ended ≤ (logAt options calls j).ended) := by
  induction j, hij using Nat.le_induction with
  | base => exact ⟨Nat.le_refl _, fun _ => ⟨fun _ _ _ hline hline' => Option.some_inj.mp (hline.symm.trans hline'), Nat.le_refl _⟩⟩
  | succ j hij ih =>
    obtain ⟨hle, ih⟩ := ih
    cases hc : calls[j]? with
    | none => rw [(moment_succ_of_none hc).1, (moment_succ_of_none hc).2]; exact ⟨hle, ih⟩
    | some c =>
      rw [(moment_succ hc).1, (moment_succ hc).2]
      by_cases hclear : c = .clear
      · subst hclear
        have hgen : ((logAt options calls j).call (LogBuffer.new options).maxLines .clear).generation =
            (logAt options calls j).generation + 1 := rfl
        rw [hgen]
        exact ⟨by omega, fun hg => by omega⟩
      · rw [generation_call _ _ hclear]
        refine ⟨hle, fun hgen => ?_⟩
        obtain ⟨hs, hended⟩ := ih hgen
        refine sameLines_call (inv_moment options calls i).tagged (inv_moment options calls j).tagged hs hended hclear fun chunk hp seq hlo hhi => ?_
        have hi := (inv_moment options calls i).tagged.refines
        have hj := (inv_moment options calls j).tagged.refines
        exact h i j chunk (hp ▸ hc) hij (hi.1.generation.trans (hgen.trans hj.1.generation.symm)) seq
          (hj.firstSeq ▸ hlo) (hj.firstSeq ▸ hhi)

/-- **Numbers name lines uniquely** in exactly the runs in which each `prepend` gives out only numbers that
nothing has had. -/
theorem numbers_unique_iff (options : LogBufferOptions) (calls : List Call) :
    NumbersUnique options calls ↔ GivesOutNew options calls := by
  constructor
  · intro h i j chunk hc hij hgen seq hlo hhi
    have hi := inv_moment options calls i
    have hj := inv_moment options calls j
    obtain ⟨-, -, hborn⟩ := hj.tagged.prepend chunk ((moment options calls j).next + ·)
    obtain ⟨line', p, hline', hid⟩ := hborn seq (hj.tagged.refines.firstSeq ▸ hlo) (hj.tagged.refines.firstSeq ▸ hhi)
    refine (hi.tagged.lineAt_eq_none seq).mpr (Option.eq_none_iff_forall_ne_some.mpr fun line hline => ?_)
    have hgen' : (moment options calls i).buffer.gen = (moment options calls (j + 1)).buffer.gen := by
      rw [(moment_succ hc).1, hgen]
      exact hj.tagged.refines.1.generation.trans (hj.call (.prepend chunk)).tagged.refines.1.generation.symm
    have hsame := h i (j + 1) (Nat.le_succ_of_le hij) hgen' seq line line' hline ((moment_succ hc).1 ▸ hline')
    have hold : line.1 < (moment options calls j).next :=
      Nat.lt_of_lt_of_le (hi.old line.1 (Tagged.mem_of_row hline)) (next_mono hij)
    rw [hsame, hid] at hold
    omega
  · intro h i j hij hgen
    have hi := (inv_moment options calls i).tagged.refines
    have hj := (inv_moment options calls j).tagged.refines
    exact ((sameLines_of_givesOutNew h hij).2 (hi.1.generation.symm.trans (hgen.trans hj.1.generation))).1

/-- A buffer for one line. -/
def oneLine : LogBufferOptions := { maxLines := some 1 }

/-- Two lines, of which the second evicts the first, and an older one. -/
def evictThenPrepend : List Call := [.append [97, nl], .append [98, nl], .prepend [122, nl]]

/-- The older line has the number of the one that was evicted. -/
theorem evicted_number_given_out_again : ¬ NumbersUnique oneLine evictThenPrepend := by
  intro h
  have hfirst : (moment oneLine evictThenPrepend 1).tagged.row 0 = some (0, [97]) := by decide +kernel
  have hlast : (moment oneLine evictThenPrepend 3).tagged.row 0 = some (2, [122]) := by decide +kernel
  exact absurd (h 1 3 (by decide) rfl 0 _ _ hfirst hlast) (by decide)

end Numbered

end OpenshiftConsole.Logging
