import Mathlib.Data.List.TakeDrop
import OpenshiftConsole.Logging.LogBuffer

/-!
# What the log buffer is for

A `LineLog` is a log as its reader sees it: the fragment that has no newline yet, the
lines that are retained, the sequence number after the last of them, which is the
number of lines that have been ended so far, and how often the log was started anew.
Text is fed to it in chunks; where it is cut does not matter (`appends_eq`).
-/

namespace OpenshiftConsole.Logging

/-- A line without one carriage return at its end. -/
def dropCR (line : Str) : Str := if line.getLast? = some cr then line.dropLast else line

/-- A log: the fragment without a newline, the retained lines, the number of lines ended so far and the
number of logs before this one. -/
@[ext] structure LineLog where
  pending : Str
  lines : List Str
  ended : ℕ
  generation : ℕ

namespace LineLog

/-- The empty log. -/
def empty : LineLog := ⟨[], [], 0, 0⟩

variable (m : LineLog)

/-- The pending fragment is a line. -/
def commit : LineLog :=
  { m with pending := [], lines := m.lines ++ [dropCR m.pending], ended := m.ended + 1 }

/-- The lines that a text completes are added, and the rest is pending. -/
def feed (text : Str) : LineLog :=
  let pieces := (m.pending ++ text).splitOn nl
  { m with pending := pieces.getLastD [], lines := m.lines ++ pieces.dropLast.map dropCR,
           ended := m.ended + pieces.dropLast.length }

/-- Only the newest lines are kept. -/
def trim (maxLines : ℕ) : LineLog := { m with lines := m.lines.drop (m.lines.length - maxLines) }

/-- Text is added at the end. -/
def append (maxLines : ℕ) (chunk : Str) : LineLog := if chunk = [] then m else (m.feed chunk).trim maxLines

/-- A pending fragment is added as a line. -/
def flushPartial (maxLines : ℕ) : LineLog := if m.pending = [] then m else m.commit.trim maxLines

/-- The lines of a chunk that are not empty. -/
def wholeLines (chunk : Str) : List Str := ((chunk.splitOn nl).filter (· ≠ [])).map dropCR

/-- Older lines are added in front. -/
def prepend (chunk : Str) : LineLog := { m with lines := wholeLines chunk ++ m.lines }

/-- A new log is started. -/
def clear : LineLog := { empty with generation := m.generation + 1 }

/-- The sequence number of the oldest retained line. -/
def firstSeq : ℤ := m.ended - m.lines.length

/-- The line with a sequence number, if it is retained. -/
def lineAt (seq : ℤ) : Option Str := if seq < m.firstSeq then none else m.lines[(seq - m.firstSeq).toNat]?

/-- The retained lines, each with a newline. -/
def text : Str := m.lines.flatMap (· ++ [nl])

/-- What the log shows. -/
def view : View :=
  { length := m.lines.length, firstSeq := m.firstSeq, endSeq := m.ended, generation := m.generation,
    lineAt := m.lineAt, text := m.text }

/-- The log after a call. -/
def call (maxLines : ℕ) : Call → LineLog
  | .append chunk => m.append maxLines chunk
  | .flushPartial => m.flushPartial maxLines
  | .prepend chunk => m.prepend chunk
  | .clear => m.clear

/-- The log after calls one after the other. -/
def run (maxLines : ℕ) (calls : List Call) : LineLog := calls.foldl (fun m c => m.call maxLines c) m

end LineLog

/-! ### Lines and their text -/

/-- Lines joined by newlines, with one more at the end, are the lines with a newline each. -/
theorem intercalate_newline {l : List Str} (h : l ≠ []) : [nl].intercalate l ++ [nl] = l.flatMap (· ++ [nl]) := by
  induction l with
  | nil => exact absurd rfl h
  | cons s l ih =>
    rcases eq_or_ne l [] with rfl | hl
    · simp
    · rw [List.intercalate_cons_of_ne_nil hl, List.flatMap_cons, ← ih hl]
      simp

/-- The text of lines with a newline each is split into the lines, and what is behind the last newline. -/
theorem splitOn_newlines {l : List Str} (h : ∀ s ∈ l, nl ∉ s) : (l.flatMap (· ++ [nl])).splitOn nl = l ++ [[]] := by
  induction l with
  | nil => rfl
  | cons s l ih =>
    have hl := ih fun t ht => h t (List.mem_cons_of_mem s ht)
    rw [List.flatMap_cons, List.append_assoc, List.singleton_append,
      List.splitOn_append_cons_self_of_not_mem (h s List.mem_cons_self), hl, List.cons_append]

namespace LineLog

variable {m : LineLog}

/-! ### Feeding text -/

/-- Lines with a newline each are fed to a log whose last line has ended. -/
theorem feed_newlines {l : List Str} (h : ∀ s ∈ l, nl ∉ s) (hp : m.pending = []) :
    m.feed (l.flatMap (· ++ [nl])) = { m with lines := m.lines ++ l.map dropCR, ended := m.ended + l.length } := by
  rw [feed, hp, List.nil_append, splitOn_newlines h]
  simp

theorem lineAt_firstSeq (m : LineLog) : m.lineAt m.firstSeq = m.lines.head? := by
  simp [lineAt, List.head?_eq_getElem?]

theorem feed_nil (hp : nl ∉ m.pending) : m.feed [] = m := by
  simp [feed, List.splitOn_eq_singleton hp]

theorem feed_nl_cons (hp : nl ∉ m.pending) (text : Str) : m.feed (nl :: text) = m.commit.feed text := by
  have hne := List.splitOn_ne_nil nl text
  simp only [feed, commit, List.splitOn_append_cons_self_of_not_mem hp, List.nil_append,
    List.dropLast_cons_of_ne_nil hne, List.map_cons, List.length_cons, List.append_assoc, List.singleton_append]
  ext1
  · rw [List.getLastD_cons, List.getLastD_eq_getLast?, List.getLastD_eq_getLast?, List.getLast?_eq_some_getLast hne]
    rfl
  · rfl
  · simp only
    omega
  · rfl

theorem feed_cons (c : UInt16) (text : Str) : m.feed (c :: text) = { m with pending := m.pending ++ [c] }.feed text := by
  simp [feed]

/-- Of lines that are yet to come, a part of their text completes the first few. -/
theorem feed_part {l : List Str} (h : ∀ s ∈ l, nl ∉ s) (hp : nl ∉ m.pending) {text rest : Str}
    (ht : m.pending ++ (text ++ rest) = l.flatMap (· ++ [nl])) :
    ∃ i ≤ l.length, (m.feed text).lines = m.lines ++ (l.take i).map dropCR ∧
      (m.feed text).pending ++ rest = (l.drop i).flatMap (· ++ [nl]) := by
  induction text generalizing m l with
  | nil =>
    rw [feed_nil hp]
    exact ⟨0, Nat.zero_le _, by simp, ht⟩
  | cons c text ih =>
    by_cases hc : c = nl
    · subst hc
      cases l with
      | nil => simp at ht
      | cons s l =>
        have hs := congrArg (List.splitOn nl) ht
        rw [List.flatMap_cons, List.append_assoc, List.singleton_append, List.cons_append,
          List.splitOn_append_cons_self_of_not_mem hp,
          List.splitOn_append_cons_self_of_not_mem (h s List.mem_cons_self)] at hs
        obtain ⟨rfl, -⟩ := List.cons_eq_cons.mp hs
        have hrest : text ++ rest = l.flatMap (· ++ [nl]) := by simpa using ht
        obtain ⟨i, hi, hlines, hpending⟩ :=
          ih (m := m.commit) (fun s hs => h s (List.mem_cons_of_mem _ hs)) List.not_mem_nil hrest
        rw [feed_nl_cons hp]
        exact ⟨i + 1, Nat.succ_le_succ hi, by rw [hlines]; simp [commit], hpending⟩
    · rw [feed_cons]
      exact ih h (by simp [hp, Ne.symm hc]) (by simpa using ht)

theorem nl_notMem_pending_feed (hp : nl ∉ m.pending) (text : Str) : nl ∉ (m.feed text).pending := by
  induction text generalizing m with
  | nil => rwa [feed_nil hp]
  | cons c text ih =>
    by_cases hc : c = nl
    · rw [hc, feed_nl_cons hp]
      exact ih List.not_mem_nil
    · rw [feed_cons]
      exact ih (by simp [hp, Ne.symm hc])

/-- Text may be fed in two parts. -/
theorem feed_append (hp : nl ∉ m.pending) (s t : Str) : m.feed (s ++ t) = (m.feed s).feed t := by
  induction s generalizing m with
  | nil => rw [feed_nil hp, List.nil_append]
  | cons c s ih =>
    by_cases hc : c = nl
    · rw [hc, List.cons_append, feed_nl_cons hp, feed_nl_cons hp]
      exact ih List.not_mem_nil
    · rw [List.cons_append, feed_cons, feed_cons]
      exact ih (by simp [hp, Ne.symm hc])

/-- Nothing is dropped of a log that is not too long. -/
theorem trim_of_le {k : ℕ} (h : m.lines.length ≤ k) : m.trim k = m := by
  rw [trim, Nat.sub_eq_zero_of_le h, List.drop_zero]

/-- Lines that were dropped before are dropped again. -/
theorem trim_feed_trim (k : ℕ) (text : Str) : ((m.trim k).feed text).trim k = (m.feed text).trim k := by
  simp only [trim, feed]
  ext1
  · rfl
  · simp only [List.length_append, List.length_drop, List.drop_append, List.drop_drop]
    congr 2 <;> omega
  · rfl
  · rfl

/-- **Where a text is cut does not matter**: chunks appended one after the other are their text
appended at once. -/
theorem appends_eq (hp : nl ∉ m.pending) (k : ℕ) (chunks : List Str) :
    chunks.foldl (fun m chunk => m.append k chunk) m = m.append k chunks.flatten := by
  induction chunks generalizing m with
  | nil => rfl
  | cons c chunks ih =>
    rcases eq_or_ne c [] with rfl | hc
    · exact ih hp
    · have hm : m.append k c = (m.feed c).trim k := if_neg hc
      have hp' : nl ∉ ((m.feed c).trim k).pending := nl_notMem_pending_feed hp c
      rw [List.foldl_cons, hm, ih hp', List.flatten_cons, append, append, if_neg (by simp [hc] : ¬c ++ chunks.flatten = [])]
      by_cases hcs : chunks.flatten = []
      · rw [if_pos hcs, hcs, List.append_nil]
      · rw [if_neg hcs, feed_append hp, trim_feed_trim]

/-- Lines with a newline each are appended to the empty log. -/
theorem append_newlines {k : ℕ} {l : List Str} (h : ∀ s ∈ l, nl ∉ s) (hk : l.length ≤ k) :
    empty.append k (l.flatMap (· ++ [nl])) = { empty with lines := l.map dropCR, ended := l.length } := by
  rw [append]
  split
  · cases l with
    | nil => rfl
    | cons s l => simp_all
  · rw [feed_newlines h rfl, trim_of_le (by simpa [empty] using hk)]
    simp [empty]

end LineLog

end OpenshiftConsole.Logging
