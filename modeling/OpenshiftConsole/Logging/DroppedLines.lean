import Mathlib.Algebra.GroupWithZero.Nat
import Mathlib.Data.List.DropRight
import OpenshiftConsole.Logging.LogBuffer

/-!
# Dropped lines

`droppedLines` is documented as the number of lines dropped because of `maxLines`, and the
panel shows it as that. It is the sequence number of the oldest line: `evict` raises it by what
it drops, but `prepend` lowers it by what it adds.

A `Counted` buffer counts what `evict` drops, since the log was last cleared. The count
and `droppedLines` differ by the lines that have been prepended (`run_evicted`), so they agree
exactly when no `prepend` since has added a line (`droppedLines_iff`).
-/

namespace OpenshiftConsole.Logging

namespace LogBuffer

variable (b : LogBuffer)

/-- `droppedLines`. -/
def droppedLines : ℤ := b.baseSeq

/-- The number of lines that `evict` drops. -/
def excess : ℕ := b.used - b.base - b.maxLines

/-- What `append` makes of the buffer before it evicts. -/
def appended (chunk : Str) : LogBuffer :=
  let text := b.page b.tailPage ++ chunk
  { scan b.tailPage (text.drop b.scanFrom) b.scanFrom { b with pages := b.pages.set b.tailPage text } with
    scanFrom := text.length }.sealTail

/-- What `flushPartial` makes of the buffer before it evicts. -/
def flushed : LogBuffer :=
  let text := b.page b.tailPage
  { b.pushLine b.tailPage b.lineStart text.length with lineStart := text.length }

theorem append_eq (chunk : Str) : b.append chunk = if chunk = [] then b else (b.appended chunk).evict := rfl

theorem flushPartial_eq :
    b.flushPartial = if b.lineStart < (b.page b.tailPage).length then b.flushed.evict else b := rfl

/-- The number of lines that a call evicts. -/
def evictedBy : Call → ℕ
  | .append chunk => if chunk = [] then 0 else (b.appended chunk).excess
  | .flushPartial => if b.lineStart < (b.page b.tailPage).length then b.flushed.excess else 0
  | .prepend _ => 0
  | .clear => 0

end LogBuffer

/-- A buffer and the number of lines that have been evicted since it was last cleared. -/
structure Counted where
  buffer : LogBuffer
  evicted : ℕ

namespace Counted

/-- A new buffer. -/
def new (options : LogBufferOptions) : Counted := ⟨.new options, 0⟩

/-- A call. -/
def call (s : Counted) (c : Call) : Counted :=
  { buffer := s.buffer.call c
    evicted := match c with
      | .clear => 0
      | c => s.evicted + s.buffer.evictedBy c }

/-- The calls one after the other. -/
def run (s : Counted) (calls : List Call) : Counted := calls.foldl call s

end Counted

/-- The call is not `clear`. -/
def Call.isUpdate : Call → Bool
  | .clear => false
  | _ => true

/-- The calls since the last `clear`. -/
def sinceClear (calls : List Call) : List Call := calls.rtakeWhile Call.isUpdate

/-- The number of lines that a call prepends. -/
def Call.prepended : Call → ℕ
  | .prepend chunk => (LogBuffer.extents chunk 0 0).length
  | _ => 0

/-! ### What a call does to `baseSeq` -/

namespace LogBuffer

theorem baseSeq_reserveBack (b : LogBuffer) : b.reserveBack.baseSeq = b.baseSeq := by
  rw [reserveBack]
  split
  · rw [compactOrGrow]
    split <;> rfl
  · rfl

theorem baseSeq_reserveFront (b : LogBuffer) (count : ℕ) : (b.reserveFront count).baseSeq = b.baseSeq := by
  rw [reserveFront]
  split <;> rfl

theorem baseSeq_pushLine (b : LogBuffer) (page start stop : ℕ) : (b.pushLine page start stop).baseSeq = b.baseSeq :=
  b.baseSeq_reserveBack

theorem baseSeq_scan (page : ℕ) (text : Str) (i : ℕ) (b : LogBuffer) : (scan page text i b).baseSeq = b.baseSeq := by
  induction text generalizing i b with
  | nil => rfl
  | cons c text ih =>
    rw [scan]
    split
    · exact (ih ..).trans (b.baseSeq_pushLine page b.lineStart i)
    · exact ih ..

theorem baseSeq_sealTail (b : LogBuffer) : b.sealTail.baseSeq = b.baseSeq := by
  simp only [sealTail]
  split <;> rfl

theorem baseSeq_evict (b : LogBuffer) : b.evict.baseSeq = b.baseSeq + b.excess := rfl

theorem baseSeq_appended (b : LogBuffer) (chunk : Str) : (b.appended chunk).baseSeq = b.baseSeq :=
  (baseSeq_sealTail _).trans (baseSeq_scan ..)

theorem baseSeq_flushed (b : LogBuffer) : b.flushed.baseSeq = b.baseSeq :=
  b.baseSeq_pushLine b.tailPage b.lineStart (b.page b.tailPage).length

theorem baseSeq_prepend (b : LogBuffer) (chunk : Str) :
    (b.prepend chunk).1.baseSeq = b.baseSeq - (extents chunk 0 0).length := by
  have hlen : (chunkLines b.pages.length chunk).length = (extents chunk 0 0).length := List.length_map _
  rw [prepend]
  dsimp only
  split_ifs with hnil hzero
  · subst hnil
    simp [extents]
  · rw [← hlen, hzero]
    simp [newPage]
  · simp only [putFront, hlen, baseSeq_reserveFront]
    rfl

/-- A call raises `baseSeq` by what it evicts and lowers it by what it prepends. -/
theorem baseSeq_call (b : LogBuffer) {c : Call} (hc : c ≠ .clear) :
    (b.call c).baseSeq + c.prepended = b.baseSeq + b.evictedBy c := by
  cases c with
  | append chunk =>
    simp only [call, append_eq, evictedBy, Call.prepended]
    split
    · rfl
    · rw [baseSeq_evict, baseSeq_appended]
      simp
  | flushPartial =>
    simp only [call, flushPartial_eq, evictedBy, Call.prepended]
    split
    · rw [baseSeq_evict, baseSeq_flushed]
      simp
    · rfl
  | prepend chunk =>
    simp only [call, baseSeq_prepend, evictedBy, Call.prepended]
    omega
  | clear => exact absurd rfl hc

/-- The loop of `prepend` finds no line in a chunk exactly if there are newlines only. -/
theorem extents_eq_nil {text : Str} {start i : ℕ} (h : start ≤ i) :
    extents text start i = [] ↔ start = i ∧ ∀ c ∈ text, c = nl := by
  induction text generalizing start i with
  | nil =>
    simp only [extents, List.not_mem_nil, false_imp_iff, implies_true, and_true]
    split
    · simp
      omega
    · simp
      omega
  | cons c text ih =>
    simp only [extents, List.mem_cons, forall_eq_or_imp]
    split
    · rename_i hc
      rw [List.append_eq_nil_iff, ih le_rfl]
      split
      · simp
        omega
      · simp [hc]
        omega
    · rename_i hc
      rw [ih (by omega)]
      simp [hc]
      omega

end LogBuffer

/-! ### Runs -/

theorem sinceClear_concat (calls : List Call) (c : Call) :
    sinceClear (calls ++ [c]) = if c.isUpdate then sinceClear calls ++ [c] else [] := List.rtakeWhile_concat ..

/-- The invariant of every run: what has been evicted since the last `clear` is what `droppedLines` shows and what has
been prepended since. -/
theorem Counted.run_evicted (options : LogBufferOptions) (calls : List Call) :
    ((new options).run calls).buffer.droppedLines + ((sinceClear calls).map Call.prepended).sum =
      ((new options).run calls).evicted := by
  induction calls using List.reverseRecOn with
  | nil => rfl
  | append_singleton calls c ih =>
    rw [run, List.foldl_concat, ← run, sinceClear_concat]
    by_cases hc : c = .clear
    · subst hc
      rfl
    · have hcall := ((new options).run calls).buffer.baseSeq_call hc
      have hupdate : c.isUpdate = true := by cases c <;> simp_all [Call.isUpdate]
      have hevicted : (((new options).run calls).call c).evicted =
          ((new options).run calls).evicted + ((new options).run calls).buffer.evictedBy c := by
        cases c <;> simp_all [call]
      rw [if_pos hupdate, List.map_append, List.sum_append, hevicted]
      simp only [LogBuffer.droppedLines, call] at ih ⊢
      simp only [List.map_cons, List.map_nil, List.sum_cons, List.sum_nil]
      omega

/-- **`droppedLines` is the number of evicted lines** exactly if no `prepend` since the last `clear` added a line. -/
theorem droppedLines_iff (options : LogBufferOptions) (calls : List Call) :
    ((Counted.new options).run calls).buffer.droppedLines = ((Counted.new options).run calls).evicted ↔
      ∀ chunk, Call.prepend chunk ∈ sinceClear calls → ∀ c ∈ chunk, c = nl := by
  have hrun := Counted.run_evicted options calls
  have hsum : ((sinceClear calls).map Call.prepended).sum = 0 ↔
      ∀ chunk, Call.prepend chunk ∈ sinceClear calls → ∀ c ∈ chunk, c = nl := by
    rw [List.sum_eq_zero_iff_forall_eq_nat, List.forall_mem_map]
    constructor
    · intro h chunk hchunk
      exact ((LogBuffer.extents_eq_nil le_rfl).1 (List.length_eq_zero_iff.1 (h _ hchunk))).2
    · intro h c hc
      cases c with
      | prepend chunk => exact List.length_eq_zero_iff.2 ((LogBuffer.extents_eq_nil le_rfl).2 ⟨rfl, h chunk hc⟩)
      | append chunk => rfl
      | flushPartial => rfl
      | clear => rfl
  rw [← hsum]
  omega

/-- The newest line of a log is held, and a page of one earlier line arrives: nothing has been evicted. -/
theorem droppedLines_prepended :
    let s := (Counted.new {}).run [.append [98, nl], .prepend [97, nl]]
    s.buffer.droppedLines < 0 ∧ s.buffer.droppedLines ≠ s.evicted := by decide +kernel

end OpenshiftConsole.Logging
