import Mathlib.Data.List.Count
import Mathlib.Data.List.GetD
import OpenshiftConsole.Logging.LineLog

/-!
# The log buffer is a list of lines

Whatever is appended, flushed, prepended and cleared, the buffer shows what the plain log
`LineLog` shows (`logBuffer_refines`). The relation between the two, `Refines`, says that the
extents between `base` and `used` give the retained lines, that each page counts the
extents that refer to it, and that the tail page from `lineStart` on is the pending fragment,
all of it looked at. While `append` looks through the tail page, the same holds up to
the offset it has come to (`Reading`).
-/

namespace OpenshiftConsole.Logging

open OpenshiftConsole.Library

/-! ### Slices -/

theorem slice_append {s : Str} {start stop : ℕ} (h : stop ≤ s.length) (t : Str) : slice (s ++ t) start stop = slice s start stop := by
  rw [slice, slice, List.take_append_of_le_length h]

theorem slice_self (s : Str) (i : ℕ) : slice s i i = [] := by
  rw [slice, List.drop_eq_nil_of_le]
  exact List.length_take_le i s

theorem slice_succ {s : Str} {start i : ℕ} {c : UInt16} (h : start ≤ i) (hc : s[i]? = some c) :
    slice s start (i + 1) = slice s start i ++ [c] := by
  obtain ⟨hi, -⟩ := List.getElem?_eq_some_iff.mp hc
  rw [slice, slice, List.take_add_one, hc, Option.toList_some, List.drop_append_of_le_length]
  rw [List.length_take]
  omega

theorem length_slice {s : Str} (start : ℕ) {stop : ℕ} (h : stop ≤ s.length) : (slice s start stop).length = stop - start := by
  rw [slice, List.length_drop, List.length_take, Nat.min_eq_left h]

/-- A line whose extent ends before the carriage return is the line without it. -/
theorem slice_beforeCR {s : Str} {start stop : ℕ} (h : start < stop) (hs : stop ≤ s.length) :
    slice s start (LogBuffer.beforeCR s stop) = dropCR (slice s start stop) := by
  obtain ⟨i, rfl⟩ := Nat.exists_eq_succ_of_ne_zero (Nat.ne_zero_of_lt h)
  obtain ⟨c, hc⟩ : ∃ c, s[i]? = some c := ⟨s[i], List.getElem?_eq_getElem hs⟩
  have hl : slice s start (i + 1) = slice s start i ++ [c] := slice_succ (Nat.le_of_lt_succ h) hc
  rw [LogBuffer.beforeCR, dropCR, hl, List.getLast?_concat, List.dropLast_concat, Nat.succ_sub_one, hc]
  split <;> simp [hl]

theorem beforeCR_le (s : Str) (stop : ℕ) : LogBuffer.beforeCR s stop ≤ stop := by
  rw [LogBuffer.beforeCR]
  split <;> omega

theorem le_beforeCR (s : Str) {start stop : ℕ} (h : start < stop) : start ≤ LogBuffer.beforeCR s stop := by
  rw [LogBuffer.beforeCR]
  split <;> omega

/-! ### Pages and their lines -/

/-- An extent lies in its page. -/
def Within (pages : List Str) (e : Extent) : Prop :=
  e.page < pages.length ∧ e.start ≤ e.stop ∧ e.stop ≤ (pages.getD e.page []).length

/-- The text of an extent. -/
def textIn (pages : List Str) (e : Extent) : Str := slice (pages.getD e.page []) e.start e.stop

/-- The extents hold the lines, and each page counts the extents that refer to it. -/
structure Holds (pages : List Str) (refs : List ℕ) (es : List Extent) (ls : List Str) : Prop where
  texts : es.map (textIn pages) = ls
  within : ∀ e ∈ es, Within pages e
  refs_length : refs.length = pages.length
  counted : ∀ p < pages.length, refs[p]? = some (es.countP (·.page = p))

variable {pages : List Str} {refs : List ℕ} {es : List Extent} {ls : List Str}

theorem Holds.length_eq (h : Holds pages refs es ls) : es.length = ls.length := by
  rw [← h.texts, List.length_map]

/-- Pages in which every extent reads the same hold the same lines. -/
theorem Holds.congr {pages' : List Str} (h : Holds pages refs es ls) (hl : pages'.length = pages.length)
    (hw : ∀ e ∈ es, Within pages e → Within pages' e ∧ textIn pages' e = textIn pages e) : Holds pages' refs es ls where
  texts := by
    rw [← h.texts]
    exact List.map_congr_left fun e he => (hw e he (h.within e he)).2
  within e he := (hw e he (h.within e he)).1
  refs_length := h.refs_length.trans hl.symm
  counted p hp := h.counted p (hl ▸ hp)

/-- Text is added to a page. -/
theorem Holds.write (h : Holds pages refs es ls) (p : ℕ) (chunk : Str) :
    Holds (pages.set p (pages.getD p [] ++ chunk)) refs es ls := by
  refine h.congr List.length_set fun e _ ⟨hp, hle, hlen⟩ => ?_
  rcases eq_or_ne e.page p with rfl | hne
  · have hget : (pages.set e.page (pages.getD e.page [] ++ chunk)).getD e.page [] = pages.getD e.page [] ++ chunk := by
      simp [List.getD_eq_getElem?_getD, hp]
    rw [Within, textIn, hget, List.length_set, slice_append hlen]
    exact ⟨⟨hp, hle, by rw [List.length_append]; omega⟩, rfl⟩
  · have hget : (pages.set p (pages.getD p [] ++ chunk)).getD e.page [] = pages.getD e.page [] := by
      simp [List.getD_eq_getElem?_getD, List.getElem?_set_ne hne.symm]
    rw [Within, textIn, hget, List.length_set]
    exact ⟨⟨hp, hle, hlen⟩, rfl⟩

/-- A page is added. -/
theorem Holds.newPage (h : Holds pages refs es ls) (text : Str) : Holds (pages ++ [text]) (refs ++ [0]) es ls := by
  have hget : ∀ e ∈ es, (pages ++ [text]).getD e.page [] = pages.getD e.page [] := fun e he => by
    rw [List.getD_append _ _ _ _ (h.within e he).1]
  refine ⟨?_, fun e he => ?_, by simp [h.refs_length], fun p hp => ?_⟩
  · rw [← h.texts]
    exact List.map_congr_left fun e he => by rw [textIn, textIn, hget e he]
  · obtain ⟨hp, hle, hlen⟩ := h.within e he
    exact ⟨by rw [List.length_append]; omega, hle, by rwa [hget e he]⟩
  · rcases Nat.lt_or_ge p pages.length with hlt | hge
    · rw [List.getElem?_append_left (h.refs_length ▸ hlt), h.counted p hlt]
    · obtain rfl : p = refs.length := by rw [List.length_append, List.length_singleton] at hp; rw [h.refs_length]; omega
      rw [List.getElem?_concat_length, eq_comm, Option.some.injEq, List.countP_eq_zero]
      intro e he
      have := (h.within e he).1
      rw [h.refs_length]
      simp
      omega

/-- Lines are added on one page, in front or behind. -/
theorem Holds.add (h : Holds pages refs es ls) (added : List Extent) {p : ℕ} (hp : ∀ e ∈ added, e.page = p)
    (hw : ∀ e ∈ added, Within pages e) {es' : List Extent} {ls' : List Str} (hes : es'.Perm (added ++ es))
    (hls : es'.map (textIn pages) = ls') : Holds pages (refs.modify p (· + added.length)) es' ls' where
  texts := hls
  within e he := by
    rcases List.mem_append.mp (hes.mem_iff.mp he) with he | he
    · exact hw e he
    · exact h.within e he
  refs_length := (List.length_modify ..).trans h.refs_length
  counted q hq := by
    rw [List.getElem?_modify, h.counted q hq, Option.map_eq_map, Option.map_some, hes.countP_eq, List.countP_append]
    rcases eq_or_ne p q with rfl | hne
    · rw [List.countP_eq_length.mpr fun e he => decide_eq_true (hp e he)]
      simp [Nat.add_comm]
    · have hnone : added.countP (·.page = q) = 0 := List.countP_eq_zero.mpr fun e he => by simp [hp e he, hne]
      simp [hnone, hne]

/-- A line of a page is dropped, and the page emptied if no other refers to it. -/
theorem Holds.unref {b : LogBuffer} {e : Extent} {l : Str} (h : Holds b.pages b.pageRefs (e :: es) (l :: ls)) :
    Holds (b.unref e.page).pages (b.unref e.page).pageRefs es ls := by
  have hcount : ∀ p < b.pages.length, (b.pageRefs.modify e.page (· - 1))[p]? = some (es.countP (·.page = p)) := by
    intro p hp
    rw [List.getElem?_modify, h.counted p hp, Option.map_eq_map, Option.map_some, List.countP_cons]
    rcases eq_or_ne e.page p with he | he <;> simp [he]
  have hrest : Holds b.pages (b.pageRefs.modify e.page (· - 1)) es ls :=
    ⟨(List.cons.inj h.texts).2, fun x hx => h.within x (List.mem_cons_of_mem e hx), (List.length_modify ..).trans h.refs_length,
      hcount⟩
  rw [LogBuffer.unref]
  split
  · rename_i hc
    refine hrest.congr List.length_set fun x hx hw => ?_
    have hne : x.page ≠ e.page := by
      rw [hcount e.page (h.within e List.mem_cons_self).1, Option.some.injEq, List.countP_eq_zero] at hc
      simpa using hc.1 x hx
    have hget : (b.pages.set e.page []).getD x.page [] = b.pages.getD x.page [] := by
      simp [List.getD_eq_getElem?_getD, List.getElem?_set_ne hne.symm]
    rw [Within, textIn, hget, List.length_set]
    exact ⟨hw, rfl⟩
  · exact hrest

/-! ### The window of the typed array -/

namespace LogBuffer

variable {b : LogBuffer} {k : ℕ}

/-- The extents of the retained lines. -/
def live (b : LogBuffer) : List Extent := b.lines.subarray b.base b.used

/-- The retained lines lie in the array. -/
structure Window (b : LogBuffer) : Prop where
  base_le : b.base ≤ b.used
  used_le : b.used ≤ b.lines.length
  pos : 0 < b.lines.length

/-- Two buffers that differ at most in where their extents lie. -/
structure SameLines (b b' : LogBuffer) : Prop where
  live : b'.live = b.live
  pages : b'.pages = b.pages
  pageRefs : b'.pageRefs = b.pageRefs
  tailPage : b'.tailPage = b.tailPage
  baseSeq : b'.baseSeq = b.baseSeq
  lineStart : b'.lineStart = b.lineStart
  scanFrom : b'.scanFrom = b.scanFrom
  maxLines : b'.maxLines = b.maxLines
  gen : b'.gen = b.gen

theorem length_live (b : LogBuffer) : b.live.length = b.length := TypedArray.length_subarray ..

/-- Room is made behind the lines. -/
theorem reserveBack_spec (h : b.Window) :
    SameLines b b.reserveBack ∧ b.reserveBack.base ≤ b.reserveBack.used ∧ b.reserveBack.used < b.reserveBack.lines.length := by
  obtain ⟨hb, hu, hpos⟩ := h
  rw [reserveBack]
  split
  · rename_i hfull
    rw [compactOrGrow]
    split
    · exact ⟨⟨b.lines.subarray_copyToFront b.base b.used, rfl, rfl, rfl, rfl, rfl, rfl, rfl, rfl⟩, Nat.zero_le _,
        by simp only [TypedArray.length_copyToFront]; omega⟩
    · have hbase : b.base = 0 := by omega
      have hcopy := TypedArray.subarray_write (TypedArray.ofLength (b.lines.length * 2)) (i := 0)
        (l := b.lines.subarray 0 b.lines.length) (by simp; omega)
      refine ⟨⟨?_, rfl, rfl, rfl, rfl, rfl, rfl, rfl, rfl⟩, hb, by simp only [TypedArray.length_write, TypedArray.length_ofLength]; omega⟩
      simpa [live, hbase, hfull] using hcopy
  · exact ⟨⟨rfl, rfl, rfl, rfl, rfl, rfl, rfl, rfl, rfl⟩, hb, by omega⟩

/-- Room is made in front of the lines. -/
theorem reserveFront_spec (h : b.Window) (count : ℕ) :
    SameLines b (b.reserveFront count) ∧ (b.reserveFront count).Window ∧ count ≤ (b.reserveFront count).base := by
  obtain ⟨hb, hu, hpos⟩ := h
  rw [reserveFront]
  split
  · exact ⟨⟨rfl, rfl, rfl, rfl, rfl, rfl, rfl, rfl, rfl⟩, ⟨hb, hu, hpos⟩, ‹_›⟩
  · have hgap : count ≤ (max (count : ℤ) (quarter b.maxLines)).toNat := by omega
    refine ⟨⟨?_, rfl, rfl, rfl, rfl, rfl, rfl, rfl, rfl⟩, ⟨Nat.le_add_right .., ?_, ?_⟩, hgap⟩
    · have hwrite := fun gap n hn => TypedArray.subarray_write (TypedArray.ofLength n) (i := gap)
        (l := b.lines.subarray b.base b.used) hn
      simp only [TypedArray.length_subarray, TypedArray.length_ofLength] at hwrite
      exact hwrite _ _ (by omega)
    · simp only [TypedArray.length_write, TypedArray.length_ofLength]
      omega
    · simp only [TypedArray.length_write, TypedArray.length_ofLength]
      omega

/-! ### The refinement -/

/-- The buffer is the log, its tail page looked at up to an offset. -/
structure Reading (k : ℕ) (b : LogBuffer) (m : LineLog) (i : ℕ) : Prop where
  window : b.Window
  holds : Holds b.pages b.pageRefs b.live m.lines
  tail : b.tailPage < b.pages.length
  started : b.lineStart ≤ i
  read : i ≤ (b.page b.tailPage).length
  pending : slice (b.page b.tailPage) b.lineStart i = m.pending
  unbroken : nl ∉ m.pending
  numbered : b.baseSeq + m.lines.length = m.ended
  generation : b.gen = m.generation
  limit : b.maxLines = k

/-- The buffer is the log. -/
def Refines (k : ℕ) (b : LogBuffer) (m : LineLog) : Prop :=
  Reading k b m b.scanFrom ∧ b.scanFrom = (b.page b.tailPage).length

theorem new_refines (options : LogBufferOptions) : Refines (new options).maxLines (new options) .empty :=
  ⟨{ window := ⟨Nat.le_refl 0, Nat.zero_le _, Nat.zero_lt_succ 4095⟩
     holds := ⟨by simp [live, new, LineLog.empty], by simp [live, new], rfl, by simp [live, new]⟩
     tail := Nat.zero_lt_one
     started := Nat.le_refl 0
     read := Nat.zero_le _
     pending := rfl
     unbroken := List.not_mem_nil
     numbered := rfl
     generation := rfl
     limit := rfl }, rfl⟩

variable {m : LineLog} {i : ℕ}

/-- The extent of a new line comes behind the others. -/
theorem pushLine_live (h : b.Window) (page start stop : ℕ) : (b.pushLine page start stop).live =
    b.live ++ [⟨page, start, if stop > start then beforeCR (b.page page) stop else stop⟩] := by
  obtain ⟨hs, hb, hu⟩ := reserveBack_spec h
  rw [← hs.live]
  exact TypedArray.subarray_set_succ _ hb hu _

/-- The pending fragment up to the offset is indexed as a line; the next one starts at `j`. -/
theorem Reading.pushLine (h : Reading k b m i) {j : ℕ} (hj : j ≤ (b.page b.tailPage).length) :
    Reading k { b.pushLine b.tailPage b.lineStart i with lineStart := j } m.commit j := by
  obtain ⟨hs, hb, hu⟩ := reserveBack_spec h.window
  set stop := if i > b.lineStart then beforeCR (b.page b.tailPage) i else i with hstop
  have htext : textIn b.pages ⟨b.tailPage, b.lineStart, stop⟩ = dropCR m.pending := by
    rw [← h.pending, hstop]
    split
    · exact slice_beforeCR ‹_› h.read
    · have : i = b.lineStart := by have := h.started; omega
      rw [this, textIn, slice_self, slice_self]
      rfl
  have hwithin : Within b.pages ⟨b.tailPage, b.lineStart, stop⟩ := by
    refine ⟨h.tail, ?_, ?_⟩ <;> rw [hstop] <;> split
    · exact le_beforeCR _ ‹_›
    · exact h.started
    · exact Nat.le_trans (beforeCR_le _ i) h.read
    · exact h.read
  have hlive : live { b.pushLine b.tailPage b.lineStart i with lineStart := j } = b.live ++ [⟨b.tailPage, b.lineStart, stop⟩] :=
    pushLine_live h.window b.tailPage b.lineStart i
  have hpages : (b.pushLine b.tailPage b.lineStart i).pages = b.pages := hs.pages
  have htail : (b.pushLine b.tailPage b.lineStart i).tailPage = b.tailPage := hs.tailPage
  have hpage : LogBuffer.page { b.pushLine b.tailPage b.lineStart i with lineStart := j } b.tailPage = b.page b.tailPage :=
    congrArg (·.getD b.tailPage []) hpages
  have hlines : m.commit.lines = m.lines ++ [dropCR m.pending] := rfl
  refine ⟨⟨Nat.le_succ_of_le hb, ?_, ?_⟩, ?_, ?_, Nat.le_refl j, ?_, ?_, List.not_mem_nil, ?_, hs.gen.trans h.generation,
    hs.maxLines.trans h.limit⟩
  · exact (TypedArray.length_set ..).symm ▸ hu
  · exact (TypedArray.length_set ..).symm ▸ Nat.lt_of_le_of_lt (Nat.zero_le _) hu
  · have hadd := h.holds.add [⟨b.tailPage, b.lineStart, stop⟩] (p := b.tailPage) (by simp) (by simpa using hwithin)
      (List.perm_append_singleton _ b.live) (by rw [List.map_append, h.holds.texts, List.map_singleton, htext])
    rw [hlive, hlines]
    convert hadd using 1
    exact congrArg (·.modify b.tailPage (· + 1)) hs.pageRefs
  · change (b.pushLine b.tailPage b.lineStart i).tailPage < (b.pushLine b.tailPage b.lineStart i).pages.length
    rw [htail, hpages]
    exact h.tail
  · rw [htail, hpage]
    exact hj
  · rw [htail, hpage]
    exact slice_self _ j
  · have := h.numbered
    rw [hlines, List.length_append, List.length_singleton]
    simp only [LogBuffer.pushLine, hs.baseSeq, LineLog.commit]
    omega

theorem pushLine_pages (h : b.Window) (page start stop : ℕ) : (b.pushLine page start stop).pages = b.pages :=
  (reserveBack_spec h).1.pages

theorem pushLine_tailPage (h : b.Window) (page start stop : ℕ) : (b.pushLine page start stop).tailPage = b.tailPage :=
  (reserveBack_spec h).1.tailPage

/-- The offset moves over a character that ends no line. -/
theorem Reading.skip (h : Reading k b m i) {c : UInt16} (hc : (b.page b.tailPage)[i]? = some c) (hne : c ≠ nl) :
    Reading k b { m with pending := m.pending ++ [c] } (i + 1) :=
  { h with
    started := Nat.le_succ_of_le h.started
    read := (List.getElem?_eq_some_iff.mp hc).1
    pending := by rw [slice_succ h.started hc, h.pending]
    unbroken := by simp [h.unbroken, Ne.symm hne] }

/-- The next character of a page, and what is behind it. -/
theorem next_of_drop {s text : Str} {c : UInt16} (h : s.drop i = c :: text) : s[i]? = some c ∧ s.drop (i + 1) = text := by
  constructor
  · rw [← List.head?_drop, h, List.head?_cons]
  · rw [← List.drop_drop, h, List.drop_one, List.tail_cons]

/-- The loop of `append` feeds the log the rest of the tail page. -/
theorem Reading.scan (h : Reading k b m i) {page : ℕ} (hp : b.tailPage = page) {text : Str}
    (ht : (b.page page).drop i = text) :
    Reading k (LogBuffer.scan page text i b) (m.feed text) (i + text.length) ∧
      (LogBuffer.scan page text i b).pages = b.pages ∧ (LogBuffer.scan page text i b).tailPage = page := by
  induction text generalizing b m i with
  | nil =>
    rw [LineLog.feed_nil h.unbroken]
    exact ⟨h, rfl, hp⟩
  | cons c text ih =>
    subst hp
    obtain ⟨hc, hrest⟩ := next_of_drop ht
    rw [LogBuffer.scan, List.length_cons, show i + (text.length + 1) = i + 1 + text.length by omega]
    split
    · rename_i hnl
      subst hnl
      rw [LineLog.feed_nl_cons h.unbroken]
      have hpages := pushLine_pages h.window b.tailPage b.lineStart i
      have hpush := h.pushLine (j := i + 1) (List.getElem?_eq_some_iff.mp hc).1
      obtain ⟨hread, hp, htail⟩ := ih hpush (pushLine_tailPage h.window b.tailPage b.lineStart i)
        ((congrArg (fun pages => (pages.getD b.tailPage []).drop (i + 1)) hpages).trans hrest)
      exact ⟨hread, hp.trans hpages, htail⟩
    · rw [LineLog.feed_cons]
      exact ih (h.skip hc ‹_›) rfl hrest

/-- A sealed page is looked at to its end, and nothing of it is pending. -/
theorem Refines.sealTail (h : Refines k b m) : Refines k b.sealTail m := by
  obtain ⟨h, hscan⟩ := h
  rw [LogBuffer.sealTail]
  dsimp only
  split
  · rename_i hc
    have hpage : (b.pages ++ [[]]).getD b.pages.length [] = [] := by simp
    have hpending : m.pending = [] := by rw [← h.pending, hscan, hc.2, slice_self]
    refine ⟨{ h with window := ⟨h.window.1, h.window.2, h.window.3⟩, holds := h.holds.newPage [], tail := ?_, started := Nat.le_refl 0,
                     read := Nat.zero_le _, pending := hpending.symm ▸ slice_self _ 0 }, (congrArg List.length hpage).symm⟩
    simp [LogBuffer.newPage]
  · exact ⟨h, hscan⟩

theorem length_unref_pages (b : LogBuffer) (page : ℕ) : (b.unref page).pages.length = b.pages.length := by
  rw [LogBuffer.unref]
  dsimp only
  split
  · exact List.length_set
  · rfl

/-- Lines are dropped from the front: the tail page and the other lines stay. -/
theorem foldl_unref {dropped kept : List Extent} {ls ls' : List Str} (hl : dropped.length = ls.length)
    (h : Holds b.pages b.pageRefs (dropped ++ kept) (ls ++ ls')) :
    ∃ pages pageRefs, dropped.foldl (fun b e => b.unref e.page) b = { b with pages, pageRefs } ∧
      pages.length = b.pages.length ∧ pages.getD b.tailPage [] = b.page b.tailPage ∧ Holds pages pageRefs kept ls' := by
  induction dropped generalizing b ls with
  | nil =>
    obtain rfl : ls = [] := List.length_eq_zero_iff.mp hl.symm
    exact ⟨b.pages, b.pageRefs, rfl, rfl, rfl, h⟩
  | cons e dropped ih =>
    obtain ⟨l, ls, rfl⟩ := List.exists_cons_of_length_eq_add_one hl.symm
    obtain ⟨pages, pageRefs, hb, hlen, htail, hrest⟩ := ih (Nat.succ_inj.mp hl) h.unref
    refine ⟨pages, pageRefs, hb, hlen.trans (length_unref_pages b e.page), htail.trans ?_, hrest⟩
    rw [LogBuffer.unref]
    dsimp only
    split
    · rename_i hc
      simp [LogBuffer.page, List.getD_eq_getElem?_getD, List.getElem?_set_ne hc.2]
    · rfl

/-- Eviction keeps the newest lines. -/
theorem Refines.evict (h : Refines k b m) : Refines k b.evict (m.trim k) := by
  obtain ⟨h, hscan⟩ := h
  have hlen : b.used - b.base = m.lines.length := (length_live b).symm.trans h.holds.length_eq
  have hlimit := h.limit
  obtain ⟨hb, hu, hpos⟩ := h.window
  set excess := b.used - b.base - b.maxLines with hexcess
  have hle : b.base + excess ≤ b.used := by omega
  have hlive : b.lines.subarray b.base (b.base + excess) ++ b.lines.subarray (b.base + excess) b.used = b.live :=
    TypedArray.subarray_append _ (Nat.le_add_right ..) hle
  have hcount : (b.lines.subarray b.base (b.base + excess)).length = (m.lines.take excess).length := by
    simp
    omega
  have hsplit : Holds b.pages b.pageRefs
      (b.lines.subarray b.base (b.base + excess) ++ b.lines.subarray (b.base + excess) b.used)
      (m.lines.take excess ++ m.lines.drop excess) := by
    rw [hlive, List.take_append_drop]
    exact h.holds
  obtain ⟨pages, pageRefs, hfold, hpages, htail, hrest⟩ := foldl_unref hcount hsplit
  have hevict : b.evict = { b with pages, pageRefs, base := b.base + excess, baseSeq := b.baseSeq + excess } := by
    rw [LogBuffer.evict, ← hexcess, hfold]
  have htrim : m.trim k = { m with lines := m.lines.drop excess } := by rw [LineLog.trim, ← hlen, ← hlimit]
  rw [hevict, htrim]
  refine ⟨⟨⟨hle, hu, hpos⟩, hrest, hpages ▸ h.tail, h.started,
    Nat.le_trans h.read (Nat.le_of_eq (congrArg List.length htail.symm)), ?_, h.unbroken, ?_, h.generation, h.limit⟩, ?_⟩
  · rw [← h.pending]
    exact congrArg (slice · _ _) htail
  · have := h.numbered
    simp only [List.length_drop]
    omega
  · rw [hscan]
    exact congrArg List.length htail.symm

/-- The text of a chunk is written to the tail page, and not yet looked at. -/
theorem Refines.write (h : Refines k b m) (chunk : Str) :
    Reading k { b with pages := b.pages.set b.tailPage (b.page b.tailPage ++ chunk) } m b.scanFrom ∧
      (b.pages.set b.tailPage (b.page b.tailPage ++ chunk)).getD b.tailPage [] = b.page b.tailPage ++ chunk := by
  obtain ⟨h, -⟩ := h
  have hpage : (b.pages.set b.tailPage (b.page b.tailPage ++ chunk)).getD b.tailPage [] = b.page b.tailPage ++ chunk := by
    simp [List.getD_eq_getElem?_getD, h.tail]
  exact
    ⟨{ h with
       window := ⟨h.window.1, h.window.2, h.window.3⟩
       holds := h.holds.write b.tailPage chunk
       tail := List.length_set.symm ▸ h.tail
       read := Nat.le_trans h.read (Nat.le_trans (by simp) (Nat.le_of_eq (congrArg List.length hpage.symm)))
       pending := by rw [← h.pending, ← slice_append h.read chunk]; exact congrArg (slice · _ _) hpage }, hpage⟩

/-- The chunk is written and looked through. -/
theorem Refines.scanned (h : Refines k b m) (chunk : Str) {text : Str} (htext : b.page b.tailPage ++ chunk = text) {b' : LogBuffer}
    (hb' : scan b.tailPage (text.drop b.scanFrom) b.scanFrom { b with pages := b.pages.set b.tailPage text } = b') :
    Refines k { b' with scanFrom := text.length } (m.feed chunk) ∧ b'.page b'.tailPage = text := by
  subst htext hb'
  have hscan := h.2
  obtain ⟨hread, hpage⟩ := h.write chunk
  obtain ⟨hread, hpages, htail⟩ := hread.scan rfl (congrArg (List.drop b.scanFrom) hpage)
  have hrest : (b.page b.tailPage ++ chunk).drop b.scanFrom = chunk := by rw [hscan, List.drop_left]
  rw [hrest] at hread hpages htail ⊢
  rw [show b.scanFrom + chunk.length = (b.page b.tailPage ++ chunk).length by rw [hscan, List.length_append]] at hread
  have hnow := (congrArg₂ (fun pages tail => List.getD pages tail []) hpages htail).trans hpage
  exact ⟨⟨{ hread with window := ⟨hread.window.1, hread.window.2, hread.window.3⟩ }, (congrArg List.length hnow).symm⟩, hnow⟩

/-- **Appending to the buffer appends to the log.** -/
theorem Refines.append (h : Refines k b m) (chunk : Str) : Refines k (b.append chunk) (m.append k chunk) := by
  rw [LogBuffer.append, LineLog.append]
  dsimp only
  split
  · exact h
  · exact (h.scanned chunk rfl rfl).1.sealTail.evict

/-- The pending fragment is indexed as a line. -/
theorem Refines.flushed (h : Refines k b m) :
    Refines k { b.pushLine b.tailPage b.lineStart (b.page b.tailPage).length with lineStart := (b.page b.tailPage).length }
      m.commit := by
  obtain ⟨h, hscan⟩ := h
  have hpage : (b.pushLine b.tailPage b.lineStart b.scanFrom).page (b.pushLine b.tailPage b.lineStart b.scanFrom).tailPage
      = b.page b.tailPage := by
    rw [pushLine_tailPage h.window]
    exact congrArg (·.getD b.tailPage []) (pushLine_pages h.window ..)
  have hpush := h.pushLine h.read
  have hsame : (b.pushLine b.tailPage b.lineStart b.scanFrom).scanFrom = b.scanFrom := (reserveBack_spec h.window).1.scanFrom
  rw [← hscan]
  refine ⟨?_, hsame.trans (hscan.trans (congrArg List.length hpage).symm)⟩
  exact (congrArg (Reading k _ m.commit) hsame).mpr hpush

/-- A pending fragment is indexed as a line. -/
theorem Refines.flushPartial (h : Refines k b m) : Refines k b.flushPartial (m.flushPartial k) := by
  have hlen : m.pending.length = b.scanFrom - b.lineStart := by rw [← h.1.pending, length_slice _ h.1.read]
  have hstarted := h.1.started
  have hscan := h.2
  rw [LogBuffer.flushPartial, LineLog.flushPartial]
  dsimp only
  split
  · rw [if_neg (fun hp => by rw [hp, List.length_nil] at hlen; omega)]
    exact h.flushed.evict
  · rw [if_pos (List.length_eq_zero_iff.mp (by omega))]
    exact h

/-- Where a piece of a chunk ends, `prepend` finds it unless it is empty. -/
theorem piece_spec {chunk : Str} (start : ℕ) {i : ℕ} (hi : i ≤ chunk.length) :
    (∀ e ∈ (if i > start then [(start, i)] else []), e.1 < e.2 ∧ e.2 ≤ chunk.length) ∧
      (if i > start then [(start, i)] else []).map (fun e => slice chunk e.1 e.2) =
        [slice chunk start i].filter (· ≠ []) := by
  have hlen := length_slice start hi
  split
  · have : slice chunk start i ≠ [] := fun hs => by rw [hs, List.length_nil] at hlen; omega
    exact ⟨by simp; omega, by simp [this]⟩
  · have : slice chunk start i = [] := List.length_eq_zero_iff.mp (by omega)
    exact ⟨by simp, by simp [this]⟩

/-- What `prepend` finds in a chunk are its pieces that are not empty. -/
theorem extents_spec {chunk text : Str} {start i : ℕ} (hs : start ≤ i) (ht : chunk.drop i = text)
    (hi : i ≤ chunk.length) (hnl : nl ∉ slice chunk start i) :
    (∀ e ∈ extents text start i, e.1 < e.2 ∧ e.2 ≤ chunk.length) ∧
      (extents text start i).map (fun e => slice chunk e.1 e.2) =
        ((slice chunk start i ++ text).splitOn nl).filter (· ≠ []) := by
  obtain ⟨hone, hmap⟩ := piece_spec start hi
  induction text generalizing start i with
  | nil =>
    rw [extents, List.append_nil, List.splitOn_eq_singleton hnl]
    exact ⟨hone, hmap⟩
  | cons c text ih =>
    have hc : chunk[i]? = some c := by rw [← List.head?_drop, ht, List.head?_cons]
    have hi' : i + 1 ≤ chunk.length := (List.getElem?_eq_some_iff.mp hc).1
    have hrest : chunk.drop (i + 1) = text := by rw [← List.drop_drop, ht, List.drop_one, List.tail_cons]
    rw [extents]
    split
    · rename_i hc
      subst hc
      have hnext := slice_self chunk (i + 1)
      obtain ⟨hone', hmap'⟩ := ih (Nat.le_refl _) hrest hi' (hnext ▸ List.not_mem_nil) (piece_spec _ hi').1 (piece_spec _ hi').2
      rw [hnext, List.nil_append] at hmap'
      refine ⟨fun e he => (List.mem_append.mp he).elim (hone e) (hone' e), ?_⟩
      rw [List.splitOn_append_cons_self_of_not_mem hnl, List.map_append, hmap, hmap', ← List.filter_append, List.singleton_append]
    · have hnext := slice_succ hs hc
      have hnl' : nl ∉ slice chunk start (i + 1) := by
        rw [hnext]
        simp [hnl, Ne.symm ‹c ≠ nl›]
      have := ih (Nat.le_succ_of_le hs) hrest hi' hnl' (piece_spec _ hi').1 (piece_spec _ hi').2
      rwa [hnext, List.append_assoc, List.singleton_append] at this

/-- The lines that `prepend` indexes in a chunk. -/
theorem chunkLines_spec (pages : List Str) (chunk : Str) :
    (∀ e ∈ chunkLines pages.length chunk, e.page = pages.length ∧ Within (pages ++ [chunk]) e) ∧
      (chunkLines pages.length chunk).map (textIn (pages ++ [chunk])) = LineLog.wholeLines chunk := by
  obtain ⟨hes, htexts⟩ := extents_spec (Nat.le_refl 0) (List.drop_zero (l := chunk)) (Nat.zero_le _)
    (by rw [slice_self]; exact List.not_mem_nil)
  rw [slice_self, List.nil_append] at htexts
  have hpage : (pages ++ [chunk]).getD pages.length [] = chunk := by simp
  constructor
  · intro e he
    obtain ⟨x, hx, rfl⟩ := List.mem_map.mp he
    refine ⟨rfl, by simp, le_beforeCR chunk (hes x hx).1, ?_⟩
    rw [hpage]
    exact Nat.le_trans (beforeCR_le chunk x.2) (hes x hx).2
  · rw [LineLog.wholeLines, ← htexts, chunkLines, List.map_map, List.map_map]
    refine List.map_congr_left fun x hx => ?_
    rw [Function.comp_apply, Function.comp_apply, ← slice_beforeCR (hes x hx).1 (hes x hx).2, textIn, hpage]

/-- A page is added beside the tail. -/
theorem Reading.newPage (h : Reading k b m i) (text : Str) : Reading k (b.newPage text) m i := by
  have htail : (b.pages ++ [text]).getD b.tailPage [] = b.page b.tailPage := List.getD_append _ _ _ _ h.tail
  exact
    { h with
      window := ⟨h.window.1, h.window.2, h.window.3⟩
      holds := h.holds.newPage text
      tail := by simpa [LogBuffer.newPage] using Nat.lt_add_right 1 h.tail
      read := Nat.le_trans h.read (Nat.le_of_eq (congrArg List.length htail.symm))
      pending := h.pending ▸ congrArg (slice · _ _) htail }

/-- The extents are moved. -/
theorem Reading.same {b' : LogBuffer} (h : Reading k b m i) (hs : SameLines b b') (hw : b'.Window) : Reading k b' m i where
  window := hw
  holds := by rw [hs.pages, hs.pageRefs, hs.live]; exact h.holds
  tail := by rw [hs.pages, hs.tailPage]; exact h.tail
  started := hs.lineStart ▸ h.started
  read := by rw [LogBuffer.page, hs.pages, hs.tailPage]; exact h.read
  pending := by rw [LogBuffer.page, hs.pages, hs.tailPage, hs.lineStart]; exact h.pending
  unbroken := h.unbroken
  numbered := hs.baseSeq ▸ h.numbered
  generation := hs.gen ▸ h.generation
  limit := hs.maxLines ▸ h.limit

theorem putFront_live (h : b.Window) (page : ℕ) {added : List Extent} (hroom : added.length ≤ b.base) :
    (b.putFront page added).live = added ++ b.live := by
  obtain ⟨hb, hu, -⟩ := h
  have := TypedArray.subarray_write_append b.lines (i := b.base - added.length) (l := added) (by omega) hu
  rwa [Nat.sub_add_cancel hroom] at this

/-- Lines are put in front. -/
theorem Reading.putFront (h : Reading k b m i) {page : ℕ} {added : List Extent} (hroom : added.length ≤ b.base)
    (hadded : ∀ e ∈ added, e.page = page ∧ Within b.pages e) :
    Reading k (b.putFront page added) { m with lines := added.map (textIn b.pages) ++ m.lines } i := by
  obtain ⟨hb, hu, hpos⟩ := h.window
  have hlive := putFront_live h.window page hroom
  have hlen : (added.map (textIn b.pages) ++ m.lines).length = added.length + m.lines.length := by simp
  have hnum := h.numbered
  exact
    { h with
      window := ⟨by simp only [LogBuffer.putFront]; omega, by simpa [LogBuffer.putFront] using hu,
        by simpa [LogBuffer.putFront] using hpos⟩
      holds := hlive ▸ h.holds.add _ (fun e he => (hadded e he).1) (fun e he => (hadded e he).2) (List.Perm.refl _)
        (by rw [List.map_append, h.holds.texts])
      numbered := by rw [hlen]; simp only [LogBuffer.putFront]; omega }

/-- **Prepending to the buffer prepends to the log.** -/
theorem Refines.prepend (h : Refines k b m) (chunk : Str) :
    Refines k (b.prepend chunk).1 (m.prepend chunk) ∧ (b.prepend chunk).2 = (LineLog.wholeLines chunk).length := by
  obtain ⟨h, hscan⟩ := h
  obtain ⟨hadded, htexts⟩ := chunkLines_spec b.pages chunk
  have hcount : (chunkLines b.pages.length chunk).length = (LineLog.wholeLines chunk).length := by
    rw [← htexts, List.length_map]
  have hnone : LineLog.wholeLines chunk = [] → m.prepend chunk = m := fun hn => by rw [LineLog.prepend, hn]; rfl
  have hpaged := h.newPage chunk
  have htail : (b.pages ++ [chunk]).getD b.tailPage [] = b.page b.tailPage := List.getD_append _ _ _ _ h.tail
  rw [LogBuffer.prepend]
  dsimp only
  split
  · rename_i hnil
    subst hnil
    rw [hnone rfl]
    exact ⟨⟨h, hscan⟩, rfl⟩
  · split
    · rename_i hzero
      have hempty := List.length_eq_zero_iff.mp (hcount ▸ hzero)
      rw [hnone hempty, hempty]
      exact ⟨⟨hpaged, hscan.trans (congrArg List.length htail.symm)⟩, rfl⟩
    · refine ⟨?_, hcount⟩
      obtain ⟨hs, hw, hroom⟩ := reserveFront_spec hpaged.window (chunkLines b.pages.length chunk).length
      have hfront := (hpaged.same hs hw).putFront hroom (fun e he => ⟨(hadded e he).1, hs.pages ▸ (hadded e he).2⟩)
      rw [hs.pages] at hfront
      have hsame : (((b.newPage chunk).reserveFront (chunkLines b.pages.length chunk).length).putFront b.pages.length
          (chunkLines b.pages.length chunk)).scanFrom = b.scanFrom := hs.scanFrom
      refine ⟨?_, ?_⟩
      · rw [hsame, LineLog.prepend, ← htexts]
        exact hfront
      · rw [hsame, hscan, ← htail]
        exact congrArg List.length (congrArg₂ (fun pages tail => List.getD pages tail []) hs.pages hs.tailPage).symm

theorem Refines.clear (h : Refines k b m) : Refines k b.clear m.clear :=
  ⟨{ window := ⟨Nat.le_refl 0, Nat.zero_le _, h.1.window.pos⟩
     holds := ⟨by simp [live, LogBuffer.clear, LineLog.clear, LineLog.empty], by simp [live, LogBuffer.clear], rfl,
       by simp [live, LogBuffer.clear]⟩
     tail := Nat.zero_lt_one
     started := Nat.le_refl 0
     read := Nat.zero_le _
     pending := rfl
     unbroken := List.not_mem_nil
     numbered := rfl
     generation := congrArg (· + 1) h.1.generation
     limit := h.1.limit }, rfl⟩

/-! ### What is shown -/

theorem Refines.length (h : Refines k b m) : b.length = m.lines.length :=
  (length_live b).symm.trans h.1.holds.length_eq

theorem Refines.firstSeq (h : Refines k b m) : b.firstSeq = m.firstSeq := by
  have := h.1.numbered
  rw [LogBuffer.firstSeq, LineLog.firstSeq]
  omega

theorem Refines.endSeq (h : Refines k b m) : b.endSeq = m.ended := by
  rw [LogBuffer.endSeq, h.length, h.1.numbered]

theorem Refines.lineAt (h : Refines k b m) (seq : ℤ) : b.lineAt seq = m.lineAt seq := by
  have hfirst : b.baseSeq = m.firstSeq := h.firstSeq
  have hlength : b.used - b.base = m.lines.length := h.length
  have hb := h.1.window.base_le
  rw [LogBuffer.lineAt, LineLog.lineAt, hfirst]
  split
  · split
    · rfl
    · rw [List.getElem?_eq_none (by omega)]
  · rw [if_neg (by omega)]
    obtain ⟨n, hn⟩ : ∃ n : ℕ, seq - m.firstSeq = n := ⟨_, (Int.toNat_of_nonneg (by omega)).symm⟩
    have hcell : b.live[n]? = some (b.lines.cell (b.base + n)) := TypedArray.getElem?_subarray _ (by omega)
    rw [hn, Int.toNat_natCast, ← h.1.holds.texts, List.getElem?_map, hcell, ← Int.natCast_add, Int.toNat_natCast]
    rfl

theorem Refines.retained (h : Refines k b m) : b.retained = m.lines := by
  have hline : ∀ n ∈ List.range b.length, b.lineAt (b.firstSeq + n) = some (m.lines.getD n []) := by
    intro n hn
    have hn : n < m.lines.length := h.length ▸ List.mem_range.mp hn
    rw [h.lineAt, h.firstSeq, LineLog.lineAt, if_neg (by omega), show (m.firstSeq + n - m.firstSeq).toNat = n by omega,
      List.getD_eq_getElem _ _ hn, List.getElem?_eq_getElem hn]
  rw [LogBuffer.retained, List.filterMap_congr hline, ← Function.comp_def some, List.filterMap_eq_map, h.length]
  exact List.ext_getElem (by simp) fun n _ hn => by simp [hn]

theorem Refines.text (h : Refines k b m) : b.text = m.text := by
  rw [LogBuffer.text, h.retained, LineLog.text]
  split
  · rw [‹m.lines = []›, List.flatMap_nil]
  · exact intercalate_newline ‹_›

theorem Refines.view (h : Refines k b m) : b.view = m.view := by
  rw [LogBuffer.view, LineLog.view, h.length, h.firstSeq, h.endSeq, h.text, h.1.generation, funext h.lineAt]

/-- A call keeps the refinement. -/
theorem Refines.call (h : Refines k b m) (c : Call) : Refines k (b.call c) (m.call k c) := by
  cases c with
  | append chunk => exact h.append chunk
  | flushPartial => exact h.flushPartial
  | prepend chunk => exact (h.prepend chunk).1
  | clear => exact h.clear

/-- So do calls one after the other. -/
theorem Refines.run (h : Refines k b m) (calls : List Call) : Refines k (b.run calls) (m.run k calls) := by
  induction calls generalizing b m with
  | nil => exact h
  | cons c calls ih => exact ih (h.call c)

/-- **The buffer shows what the log shows**, after all calls of its methods, and chunks appended one after
the other are their text appended at once. -/
theorem logBuffer_refines (options : LogBufferOptions) (calls : List Call) :
    ((new options).run calls).view = (LineLog.empty.run (new options).maxLines calls).view ∧
      ∀ (chunks : List Str) (rest : List Call), ((new options).run (calls ++ chunks.map .append ++ rest)).view =
        ((new options).run (calls ++ [.append chunks.flatten] ++ rest)).view := by
  have h := fun calls => (new_refines options).run calls
  refine ⟨(h calls).view, fun chunks rest => ?_⟩
  have happends : LineLog.empty.run (new options).maxLines (calls ++ chunks.map .append) =
      LineLog.empty.run (new options).maxLines (calls ++ [.append chunks.flatten]) := by
    rw [LineLog.run, LineLog.run, List.foldl_append, List.foldl_append, List.foldl_map]
    exact LineLog.appends_eq (h calls).1.unbroken _ chunks
  have hrest : ∀ calls : List Call, LineLog.empty.run (new options).maxLines (calls ++ rest) =
      (LineLog.empty.run (new options).maxLines calls).run (new options).maxLines rest := fun _ => List.foldl_append
  rw [(h _).view, (h _).view, hrest, hrest, happends]

end LogBuffer

end OpenshiftConsole.Logging
