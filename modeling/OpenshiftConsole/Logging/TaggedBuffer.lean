import OpenshiftConsole.Logging.LogBufferRefinement

/-!
# A buffer whose lines are tagged

To speak of where a line of the buffer comes from, a `Tagged` buffer keeps a tag for each
line it retains: the lines that a call adds get the tags that are given with the call, and
a line that is dropped takes its tag with it. The tags are not in the source; nothing of the
buffer depends on them.

A call leaves the lines that stay with their numbers, texts and tags; what it adds has
numbers from `endSeq` on, or below `firstSeq` for a `prepend` (`Inv.extend`, `Inv.prepend`).
-/

namespace OpenshiftConsole.Logging

/-! ### Windows of numbers -/

/-- The element with a number, of a list whose first element has the number `first`. -/
def numbered {α : Type*} (first : ℤ) (l : List α) (seq : ℤ) : Option α :=
  if seq < first then none else l[(seq - first).toNat]?

section Windows

variable {α : Type*} {first seq : ℤ} {l added : List α} {x : α}

variable (first seq l) in
theorem numbered_isSome : (numbered first l seq).isSome ↔ first ≤ seq ∧ seq < first + l.length := by
  rw [numbered]
  split
  · simp
    omega
  · rw [Option.isSome_iff_ne_none, Ne, List.getElem?_eq_none_iff]
    omega

theorem mem_of_numbered (h : numbered first l seq = some x) : x ∈ l := by
  rw [numbered] at h
  split at h
  · cases h
  · exact List.mem_of_getElem? h

/-- What is left of a list after elements were added behind and dropped in front has its numbers. -/
theorem numbered_append_drop {d : ℕ} (h : numbered (first + d) ((l ++ added).drop d) seq = some x) :
    numbered first (l ++ added) seq = some x := by
  rw [numbered] at h ⊢
  split at h
  · cases h
  · rw [if_neg (by omega), ← h, List.getElem?_drop]
    congr 1
    omega

theorem numbered_append (hseq : seq < first + l.length) : numbered first (l ++ added) seq = numbered first l seq := by
  unfold numbered
  split
  · rfl
  · exact List.getElem?_append_left (by omega)

/-- Elements added in front have the numbers below. -/
theorem numbered_prepend_of_le (hseq : first ≤ seq) :
    numbered (first - added.length) (added ++ l) seq = numbered first l seq := by
  unfold numbered
  rw [if_neg (by omega), if_neg (by omega), List.getElem?_append_right (by omega)]
  congr 1
  omega

theorem numbered_prepend_of_lt (hseq : seq < first) :
    numbered (first - added.length) (added ++ l) seq = numbered (first - added.length) added seq := by
  unfold numbered
  split
  · rfl
  · exact List.getElem?_append_left (by omega)

end Windows

/-- Lines are added behind, and then some are dropped in front. -/
def Grows (m m' : LineLog) : Prop :=
  ∃ added d, d ≤ (m.lines ++ added).length ∧ m'.lines = (m.lines ++ added).drop d ∧ m'.ended = m.ended + added.length ∧
    m'.generation = m.generation

theorem grows_append (m : LineLog) (k : ℕ) (chunk : Str) : Grows m (m.append k chunk) := by
  rw [LineLog.append]
  split
  · exact ⟨[], 0, Nat.zero_le _, by simp, rfl, rfl⟩
  · exact ⟨_, _, Nat.sub_le .., rfl, congrArg (m.ended + ·) (List.length_map ..).symm, rfl⟩

theorem grows_flushPartial (m : LineLog) (k : ℕ) : Grows m (m.flushPartial k) := by
  rw [LineLog.flushPartial]
  split
  · exact ⟨[], 0, Nat.zero_le _, by simp, rfl, rfl⟩
  · exact ⟨_, _, Nat.sub_le .., rfl, rfl, rfl⟩

/-! ### Tags -/

/-- A buffer and a tag for each line it retains. -/
structure Tagged (τ : Type*) where
  buffer : LogBuffer
  tags : List τ

namespace Tagged

variable {τ : Type*}

/-- A new buffer. -/
def new (options : LogBufferOptions) : Tagged τ := ⟨.new options, []⟩

/-- The number of lines that a call adds. -/
def born (n : Tagged τ) : Call → ℕ
  | .prepend chunk => (n.buffer.prepend chunk).2
  | .clear => 0
  | c => ((n.buffer.call c).endSeq - n.buffer.endSeq).toNat

/-- A call; `tag` gives the tags of the lines that it adds. -/
def call (n : Tagged τ) (c : Call) (tag : ℕ → τ) : Tagged τ :=
  let buffer := n.buffer.call c
  let added := (List.range (n.born c)).map tag
  match c with
  | .prepend _ => { buffer, tags := added ++ n.tags }
  | .clear => { buffer, tags := [] }
  | _ => { buffer, tags := (n.tags ++ added).drop (n.tags.length + added.length - buffer.length) }

/-- The line with a number: its tag and its text. -/
def row (n : Tagged τ) (seq : ℤ) : Option (τ × Str) :=
  (numbered n.buffer.firstSeq n.tags seq).bind fun tag => (n.buffer.lineAt seq).map fun text => (tag, text)

/-- The invariant: the buffer is the log, and each retained line has a tag. -/
structure Inv (k : ℕ) (n : Tagged τ) (m : LineLog) : Prop where
  refines : n.buffer.Refines k m
  tags_length : n.tags.length = m.lines.length

variable {k : ℕ} {n : Tagged τ} {m : LineLog} {c : Call} {tag : ℕ → τ}

theorem inv_new (options : LogBufferOptions) : Inv (LogBuffer.new options).maxLines (new options : Tagged τ) .empty :=
  ⟨LogBuffer.new_refines options, rfl⟩

theorem mem_of_row {seq : ℤ} {line : τ × Str} (h : n.row seq = some line) : line.1 ∈ n.tags := by
  rw [row, Option.bind_eq_some_iff] at h
  obtain ⟨t, ht, h⟩ := h
  obtain ⟨text, -, rfl⟩ := Option.map_eq_some_iff.mp h
  exact mem_of_numbered ht

theorem lineAt_of_row {seq : ℤ} {line : τ × Str} (h : n.row seq = some line) : n.buffer.lineAt seq = some line.2 := by
  rw [row, Option.bind_eq_some_iff] at h
  obtain ⟨t, -, h⟩ := h
  obtain ⟨text, htext, rfl⟩ := Option.map_eq_some_iff.mp h
  exact htext

/-- A tag was there before the call, or is one of those given with it. -/
theorem mem_tags_call {t : τ} (h : t ∈ (n.call c tag).tags) : t ∈ n.tags ∨ ∃ i < n.born c, t = tag i := by
  have hadded : t ∈ (List.range (n.born c)).map tag → ∃ i < n.born c, t = tag i := fun h => by
    obtain ⟨i, hi, rfl⟩ := List.mem_map.mp h
    exact ⟨i, List.mem_range.mp hi, rfl⟩
  cases c with
  | append chunk => exact (List.mem_append.mp (List.mem_of_mem_drop h)).imp_right hadded
  | flushPartial => exact (List.mem_append.mp (List.mem_of_mem_drop h)).imp_right hadded
  | prepend chunk => exact (List.mem_append.mp h).symm.imp_right hadded
  | clear => cases h

theorem Inv.row (h : Inv k n m) (seq : ℤ) :
    n.row seq = (numbered m.firstSeq n.tags seq).bind fun t => (numbered m.firstSeq m.lines seq).map fun text => (t, text) := by
  rw [Tagged.row, h.refines.firstSeq, h.refines.lineAt]
  rfl

/-- A row is there when its line is. -/
theorem Inv.row_isSome (h : Inv k n m) (seq : ℤ) : (n.row seq).isSome ↔ m.firstSeq ≤ seq ∧ seq < m.ended := by
  have htags := numbered_isSome m.firstSeq seq n.tags
  have hlines := numbered_isSome m.firstSeq seq m.lines
  have hend : m.ended = m.firstSeq + m.lines.length := by rw [LineLog.firstSeq]; omega
  rw [h.tags_length, ← hlines] at htags
  rw [h.row, hend, ← hlines]
  cases ht : numbered m.firstSeq n.tags seq with
  | none => simpa [ht] using htags
  | some t => simp

theorem Inv.lineAt_eq_none (h : Inv k n m) (seq : ℤ) : n.buffer.lineAt seq = none ↔ n.row seq = none := by
  have hlines := numbered_isSome m.firstSeq seq m.lines
  have hend : m.ended = m.firstSeq + m.lines.length := by rw [LineLog.firstSeq]; omega
  have hrow := h.row_isSome seq
  rw [hend, ← hlines] at hrow
  have hline : n.buffer.lineAt seq = numbered m.firstSeq m.lines seq := h.refines.lineAt seq
  rw [← Option.not_isSome_iff_eq_none, ← Option.not_isSome_iff_eq_none, hrow, hline]

theorem Inv.row_of_lineAt (h : Inv k n m) {seq : ℤ} {text : Str} (hline : n.buffer.lineAt seq = some text) :
    ∃ tag, n.row seq = some (tag, text) := by
  obtain ⟨⟨tag, text'⟩, hrow⟩ : ∃ line, n.row seq = some line := by
    rw [← Option.ne_none_iff_exists']
    exact fun hn => Option.some_ne_none text (hline.symm.trans ((h.lineAt_eq_none seq).mpr hn))
  obtain rfl : text' = text := Option.some_inj.mp ((lineAt_of_row hrow).symm.trans hline)
  exact ⟨tag, hrow⟩

/-- Lines added behind have new numbers, and those that stay keep theirs. -/
theorem Inv.extend (h : Inv k n m) {buffer : LogBuffer} {m' : LineLog} (hb : buffer.Refines k m') (hm : Grows m m')
    {added : List τ} (hadded : added.length = (buffer.endSeq - n.buffer.endSeq).toNat) :
    let n' : Tagged τ := { buffer, tags := (n.tags ++ added).drop (n.tags.length + added.length - buffer.length) }
    Inv k n' m' ∧ m.ended ≤ m'.ended ∧ ∀ seq line, n'.row seq = some line → n.row seq = some line ∨ m.ended ≤ seq := by
  intro n'
  obtain ⟨lines, d, hd, hlines, hended, -⟩ := hm
  have hlength : added.length = lines.length := by rw [hadded, hb.endSeq, h.refines.endSeq, hended]; omega
  rw [List.length_append] at hd
  have hlen : m'.lines.length = m.lines.length + lines.length - d := by rw [hlines, List.length_drop, List.length_append]
  have hdrop : n.tags.length + added.length - buffer.length = d := by rw [hb.length, hlen, h.tags_length, hlength]; omega
  have htags : n'.tags = (n.tags ++ added).drop d := by rw [← hdrop]
  have hinv : Inv k n' m' := ⟨hb, by rw [htags, List.length_drop, List.length_append, hlen, h.tags_length, hlength]⟩
  refine ⟨hinv, by omega, fun seq line hrow => ?_⟩
  by_cases hseq : (m.ended : ℤ) ≤ seq
  · exact .inr hseq
  · have hfirst : m'.firstSeq = m.firstSeq + d := by rw [LineLog.firstSeq, LineLog.firstSeq, hlen, hended]; omega
    have hlt : seq < m.firstSeq + m.lines.length := by rw [LineLog.firstSeq]; omega
    rw [hinv.row, htags, hlines, hfirst, Option.bind_eq_some_iff] at hrow
    obtain ⟨t, ht, hrow⟩ := hrow
    obtain ⟨text, htext, rfl⟩ := Option.map_eq_some_iff.mp hrow
    have ht := numbered_append_drop ht
    have htext := numbered_append_drop htext
    rw [numbered_append (by rw [h.tags_length]; exact hlt)] at ht
    rw [numbered_append hlt] at htext
    exact .inl (by rw [h.row, ht, htext]; rfl)

/-- Lines added in front have the numbers below, and the others keep theirs. -/
theorem Inv.prepend (h : Inv k n m) (chunk : Str) (tag : ℕ → τ) :
    Inv k (n.call (.prepend chunk) tag) (m.prepend chunk) ∧
      (∀ seq, m.firstSeq ≤ seq → (n.call (.prepend chunk) tag).row seq = n.row seq) ∧
      ∀ seq, m.firstSeq - (LineLog.wholeLines chunk).length ≤ seq → seq < m.firstSeq →
        ∃ line i, (n.call (.prepend chunk) tag).row seq = some line ∧ line.1 = tag i := by
  obtain ⟨hb, hcount⟩ := h.refines.prepend chunk
  have htags : (n.call (.prepend chunk) tag).tags = (List.range (LineLog.wholeLines chunk).length).map tag ++ n.tags := by
    rw [← hcount]
    rfl
  have hinv : Inv k (n.call (.prepend chunk) tag) (m.prepend chunk) := by
    refine ⟨hb, ?_⟩
    rw [htags, List.length_append, List.length_map, List.length_range, h.tags_length, LineLog.prepend, List.length_append]
  have hfirst : (m.prepend chunk).firstSeq = m.firstSeq - (LineLog.wholeLines chunk).length := by
    simp only [LineLog.firstSeq, LineLog.prepend, List.length_append]
    omega
  have hfirst' : (m.prepend chunk).firstSeq =
      m.firstSeq - ((List.range (LineLog.wholeLines chunk).length).map tag).length := by
    rw [hfirst, List.length_map, List.length_range]
  refine ⟨hinv, fun seq hseq => ?_, fun seq hlo hhi => ?_⟩
  · rw [hinv.row, h.row, htags]
    nth_rewrite 1 [hfirst']
    rw [numbered_prepend_of_le hseq, hfirst, LineLog.prepend, numbered_prepend_of_le hseq]
  · have hend : m.firstSeq ≤ m.ended := by rw [LineLog.firstSeq]; omega
    have hsome := (hinv.row_isSome seq).mpr ⟨hfirst ▸ hlo, Int.lt_of_lt_of_le hhi hend⟩
    obtain ⟨line, hline⟩ := Option.isSome_iff_exists.mp hsome
    have hrow := hline
    rw [hinv.row, htags, hfirst', numbered_prepend_of_lt hhi, Option.bind_eq_some_iff] at hrow
    obtain ⟨t, ht, hrow⟩ := hrow
    obtain ⟨text, -, rfl⟩ := Option.map_eq_some_iff.mp hrow
    obtain ⟨i, -, hi⟩ := List.mem_map.mp (mem_of_numbered ht)
    exact ⟨_, i, hline, hi.symm⟩

/-- Every call keeps the invariant. -/
theorem Inv.call (h : Inv k n m) (c : Call) (tag : ℕ → τ) : Inv k (n.call c tag) (m.call k c) := by
  have hadded : ((List.range (n.born c)).map tag).length = n.born c := by simp
  cases c with
  | append chunk => exact (h.extend (h.refines.call (.append chunk)) (grows_append m k chunk) hadded).1
  | flushPartial => exact (h.extend (h.refines.call .flushPartial) (grows_flushPartial m k) hadded).1
  | prepend chunk => exact (h.prepend chunk tag).1
  | clear => exact ⟨h.refines.clear, rfl⟩

end Tagged

end OpenshiftConsole.Logging
