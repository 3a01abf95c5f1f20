import OpenshiftConsole.Logging.DroppedLines
import OpenshiftConsole.Logging.LogBufferRefinement

/-!
# The pages of the log buffer

A page counts the retained lines on it, and is emptied when the last of them is dropped.
The counts are right in every state (`Holds.counted`). That no page is kept without a line
rests on one more fact about the tail: once a line of it has ended, the newest
retained line lies on it (`Tidy.last`), so that a page that is sealed is still referred to, and
eviction empties it later. `prepend` breaks this: a chunk of newlines only gets a page, and no
line of it is indexed, so nothing ever drops the page.
-/

namespace OpenshiftConsole.Logging

open OpenshiftConsole.Library

/-- A page on which no extent lies is empty, unless it is the tail. -/
def Released (pages : List Str) (tail : ℕ) (es : List Extent) : Prop :=
  ∀ p, p ≠ tail → (∀ e ∈ es, e.page ≠ p) → pages.getD p [] = []

/-- A call that prepends text in which every line is empty. -/
def Call.PrependsBlank : Call → Prop
  | .prepend chunk => chunk ≠ [] ∧ ∀ c ∈ chunk, c = nl
  | _ => False

namespace LogBuffer

/-- Each page counts the retained lines on it, and one without any has been emptied, unless it is the tail. -/
structure Accounted (b : LogBuffer) : Prop where
  counted : ∀ p < b.pages.length, b.pageRefs[p]? = some (b.live.countP (·.page = p))
  released : ∀ p < b.pages.length, p ≠ b.tailPage → b.live.countP (·.page = p) = 0 → b.page p = []

/-- No page but the tail is kept without a line, and once a line of the tail has ended, the newest line is there. -/
structure Tidy (b : LogBuffer) : Prop where
  released : Released b.pages b.tailPage b.live
  last : 0 < b.lineStart → ∃ e, b.live.getLast? = some e ∧ e.page = b.tailPage

variable {b : LogBuffer} {m : LineLog} {k i : ℕ}

theorem Refines.accounted (h : Refines k b m) (ht : b.Tidy) : b.Accounted where
  counted := h.1.holds.counted
  released p _ hp hcount := by
    refine ht.released p hp fun e he hpage => ?_
    rw [List.countP_eq_zero] at hcount
    simpa [hpage] using hcount e he

theorem new_tidy (options : LogBufferOptions) : (new options).Tidy := by
  refine ⟨fun p hp _ => ?_, fun h => absurd h (Nat.lt_irrefl 0)⟩
  exact List.getD_eq_default _ _ (Nat.one_le_iff_ne_zero.mpr hp)

/-! ### Lines are added at the end -/

/-- A line that ends on the tail page is indexed. -/
theorem Tidy.pushLine (h : b.Tidy) (hw : b.Window) (start stop j : ℕ) :
    Tidy { b.pushLine b.tailPage start stop with lineStart := j } := by
  have hlive := pushLine_live hw b.tailPage start stop
  have htail := pushLine_tailPage hw b.tailPage start stop
  have hpages := pushLine_pages hw b.tailPage start stop
  constructor
  · intro p hp hnone
    have hnone : ∀ e ∈ (b.pushLine b.tailPage start stop).live, e.page ≠ p := hnone
    rw [hlive] at hnone
    have := h.released p (htail ▸ hp) fun e he => hnone e (List.mem_append_left _ he)
    rwa [← hpages] at this
  · intro _
    refine ⟨_, (congrArg List.getLast? hlive).trans List.getLast?_concat, htail.symm⟩

/-- The loop of `append` leaves the pages in order. -/
theorem Tidy.scan (h : b.Tidy) (hw : Reading k b m i) {page : ℕ} (hp : b.tailPage = page) {text : Str}
    (ht : (b.page page).drop i = text) : (LogBuffer.scan page text i b).Tidy := by
  induction text generalizing b m i with
  | nil => exact h
  | cons c text ih =>
    subst hp
    obtain ⟨hc, hrest⟩ := next_of_drop ht
    rw [LogBuffer.scan]
    split
    · have hpages := pushLine_pages hw.window b.tailPage b.lineStart i
      exact ih (h.pushLine hw.window b.lineStart i (i + 1)) (hw.pushLine (List.getElem?_eq_some_iff.mp hc).1)
        (pushLine_tailPage hw.window b.tailPage b.lineStart i)
        ((congrArg (fun pages => (pages.getD b.tailPage []).drop (i + 1)) hpages).trans hrest)
    · exact ih h (hw.skip hc ‹_›) rfl hrest

/-! ### Pages are sealed and emptied -/

theorem getD_concat_of_ne (pages : List Str) (text : Str) {p : ℕ} (h : p ≠ pages.length) :
    (pages ++ [text]).getD p [] = pages.getD p [] := by
  rcases Nat.lt_or_ge p pages.length with hlt | hge
  · rw [List.getD_append _ _ _ _ hlt]
  · rw [List.getD_eq_default _ _ hge, List.getD_eq_default]
    rw [List.length_append, List.length_singleton]
    omega

/-- A tail that is sealed is still referred to, by its last line. -/
theorem Tidy.sealTail (h : b.Tidy) (hne : b.page b.tailPage ≠ []) : b.sealTail.Tidy := by
  rw [LogBuffer.sealTail]
  dsimp only
  split
  · rename_i hc
    obtain ⟨e, hlast, hpage⟩ := h.last (hc.2 ▸ List.length_pos_iff.mpr hne)
    refine ⟨fun p hp hnone => ?_, fun h => absurd h (Nat.lt_irrefl 0)⟩
    have hold : p ≠ b.tailPage := by
      rintro rfl
      exact hnone e (List.mem_of_getLast? hlast) hpage
    exact (getD_concat_of_ne b.pages [] hp).trans (h.released p hold hnone)
  · exact h

/-- The last line of a page is dropped: the page is emptied, and the others stay. -/
theorem Released.unref {e : Extent} {es : List Extent} {l : Str} {ls : List Str}
    (hr : Released b.pages b.tailPage (e :: es)) (h : Holds b.pages b.pageRefs (e :: es) (l :: ls)) :
    Released (b.unref e.page).pages b.tailPage es := by
  intro p hp hnone
  have hlt : e.page < b.pages.length := (h.within e List.mem_cons_self).1
  rcases eq_or_ne e.page p with rfl | hne
  · have hcount : (b.pageRefs.modify e.page (· - 1))[e.page]? = some 0 := by
      refine (h.unref.counted e.page (length_unref_pages b e.page ▸ hlt)).trans (congrArg some ?_)
      rw [List.countP_eq_zero]
      intro x hx
      simpa using hnone x hx
    rw [LogBuffer.unref]
    dsimp only
    rw [if_pos ⟨hcount, hp⟩]
    simp [List.getD_eq_getElem?_getD, hlt]
  · have hempty := hr p hp fun x hx => (List.mem_cons.mp hx).elim (fun he => he ▸ hne) (hnone x)
    rw [LogBuffer.unref]
    dsimp only
    split
    · rw [List.getD_eq_getElem?_getD, List.getElem?_set_ne hne, ← List.getD_eq_getElem?_getD]
      exact hempty
    · exact hempty

/-- Lines are dropped from the front. -/
theorem Released.foldl_unref {dropped kept : List Extent} {ls : List Str} (hr : Released b.pages b.tailPage (dropped ++ kept))
    (h : Holds b.pages b.pageRefs (dropped ++ kept) ls) :
    Released (dropped.foldl (fun b e => b.unref e.page) b).pages b.tailPage kept := by
  induction dropped generalizing b ls with
  | nil => exact hr
  | cons e dropped ih =>
    cases ls with
    | nil => exact absurd h.length_eq (Nat.succ_ne_zero _)
    | cons l ls => exact ih (Released.unref hr h) h.unref

theorem foldl_unref_eq (dropped : List Extent) (b : LogBuffer) :
    dropped.foldl (fun b e => b.unref e.page) b =
      { b with pages := (dropped.foldl (fun b e => b.unref e.page) b).pages
               pageRefs := (dropped.foldl (fun b e => b.unref e.page) b).pageRefs } := by
  induction dropped generalizing b with
  | nil => rfl
  | cons e dropped ih => exact ih (b.unref e.page)

/-- Eviction empties the pages that it takes the last line from, and keeps the newest line. -/
theorem Tidy.evict (h : b.Tidy) (hb : Refines k b m) (hk : 0 < k) : b.evict.Tidy := by
  have hbase := hb.1.window.base_le
  have hlimit := hb.1.limit
  rw [LogBuffer.evict]
  set excess := b.used - b.base - b.maxLines with hexcess
  have hlive : b.lines.subarray b.base (b.base + excess) ++ b.lines.subarray (b.base + excess) b.used = b.live :=
    TypedArray.subarray_append _ (Nat.le_add_right ..) (by omega)
  rw [foldl_unref_eq]
  constructor
  · exact Released.foldl_unref (hlive.symm ▸ h.released) (hlive.symm ▸ hb.1.holds)
  · intro hstart
    obtain ⟨e, hlast, hpage⟩ := h.last hstart
    have hpos : 0 < b.length := length_live b ▸ List.length_pos_of_mem (List.mem_of_getLast? hlast)
    refine ⟨e, ?_, hpage⟩
    have hne : b.lines.subarray (b.base + excess) b.used ≠ [] := by
      rw [← List.length_pos_iff, TypedArray.length_subarray]
      rw [LogBuffer.length] at hpos
      omega
    rwa [← hlive, List.getLast?_append_of_ne_nil _ hne] at hlast

/-! ### The calls -/

/-- Text is written to the tail page. -/
theorem Tidy.write (h : b.Tidy) (text : Str) : Tidy { b with pages := b.pages.set b.tailPage text } := by
  refine ⟨fun p hp hnone => ?_, h.last⟩
  change (b.pages.set b.tailPage text).getD p [] = []
  rw [List.getD_eq_getElem?_getD, List.getElem?_set_ne (Ne.symm hp), ← List.getD_eq_getElem?_getD]
  exact h.released p hp hnone

theorem Tidy.append (h : b.Tidy) (hb : Refines k b m) (hk : 0 < k) (chunk : Str) : (b.append chunk).Tidy := by
  rw [LogBuffer.append]
  dsimp only
  split
  · exact h
  · rename_i hne
    obtain ⟨hread, hpage⟩ := hb.write chunk
    obtain ⟨hscanned, htext⟩ := hb.scanned chunk rfl rfl
    have hscan := (h.write (b.page b.tailPage ++ chunk)).scan hread rfl (congrArg (List.drop b.scanFrom) hpage)
    refine Tidy.evict (Tidy.sealTail ⟨hscan.released, hscan.last⟩ ?_) hscanned.sealTail hk
    intro hempty
    exact hne (List.append_eq_nil_iff.mp (htext.symm.trans hempty)).2

theorem Tidy.flushPartial (h : b.Tidy) (hb : Refines k b m) (hk : 0 < k) : b.flushPartial.Tidy := by
  rw [LogBuffer.flushPartial]
  dsimp only
  split
  · exact (h.pushLine hb.1.window ..).evict hb.flushed hk
  · exact h

theorem clear_tidy (b : LogBuffer) : b.clear.Tidy := by
  refine ⟨fun p hp _ => ?_, fun h => absurd h (Nat.lt_irrefl 0)⟩
  exact List.getD_eq_default _ _ (Nat.one_le_iff_ne_zero.mpr hp)

theorem chunkLines_eq_nil (page : ℕ) (chunk : Str) : chunkLines page chunk = [] ↔ ∀ c ∈ chunk, c = nl := by
  rw [chunkLines, List.map_eq_nil_iff, extents_eq_nil (Nat.le_refl 0)]
  simp

/-- Lines put in front lie on a page of their own. -/
theorem Tidy.prepend (h : b.Tidy) (hb : Refines k b m) {chunk : Str} (hc : chunk ≠ [] → ∃ c ∈ chunk, c ≠ nl) :
    (b.prepend chunk).1.Tidy := by
  rw [LogBuffer.prepend]
  dsimp only
  split
  · exact h
  · obtain ⟨c, hmem, hne⟩ := hc ‹_›
    have hadded : chunkLines b.pages.length chunk ≠ [] := fun hnil => hne ((chunkLines_eq_nil _ _).mp hnil c hmem)
    rw [if_neg (fun hzero => hadded (List.length_eq_zero_iff.mp hzero))]
    set added := chunkLines b.pages.length chunk with hlines
    obtain ⟨hs, hw, hroom⟩ := reserveFront_spec (hb.1.newPage chunk).window added.length
    have hlive := (putFront_live hw b.pages.length hroom).trans (congrArg (added ++ ·) hs.live)
    constructor
    · intro p hp hnone
      have hnone : ∀ e ∈ (((b.newPage chunk).reserveFront added.length).putFront b.pages.length added).live, e.page ≠ p := hnone
      rw [hlive] at hnone
      have hnew : p ≠ b.pages.length := by
        rintro rfl
        obtain ⟨e, he⟩ := List.exists_mem_of_ne_nil _ hadded
        exact hnone e (List.mem_append_left _ he) ((chunkLines_spec b.pages chunk).1 e he).1
      have hempty := h.released p (hs.tailPage ▸ hp) fun e he => hnone e (List.mem_append_right _ he)
      exact (congrArg (·.getD p []) hs.pages).trans ((getD_concat_of_ne b.pages chunk hnew).trans hempty)
    · intro hstart
      obtain ⟨e, hlast, hpage⟩ := h.last (hs.lineStart ▸ hstart)
      refine ⟨e, ?_, hpage.trans hs.tailPage.symm⟩
      rw [hlive, List.getLast?_append_of_ne_nil]
      · exact hlast
      · exact List.ne_nil_of_mem (List.mem_of_getLast? hlast)

/-- A call that prepends no blank text leaves no page behind. -/
theorem Tidy.call (h : b.Tidy) (hb : Refines k b m) (hk : 0 < k) {c : Call} (hc : ¬ c.PrependsBlank) : (b.call c).Tidy := by
  cases c with
  | append chunk => exact h.append hb hk chunk
  | flushPartial => exact h.flushPartial hb hk
  | prepend chunk =>
    refine h.prepend hb fun hne => ?_
    by_contra hnone
    push Not at hnone
    exact hc ⟨hne, hnone⟩
  | clear => exact clear_tidy b

/-- Nor do calls one after the other. -/
theorem Tidy.run (h : b.Tidy) (hb : Refines k b m) (hk : 0 < k) {calls : List Call} (hc : ∀ c ∈ calls, ¬ c.PrependsBlank) :
    (b.run calls).Tidy := by
  induction calls generalizing b m with
  | nil => exact h
  | cons c calls ih =>
    rw [List.forall_mem_cons] at hc
    exact ih (h.call hb hk hc.1) (hb.call c) hc.2

/-- Blank text is left behind, on a page that no line refers to. -/
theorem Refines.leaves_blank (h : Refines k b m) {c : Call} (hc : c.PrependsBlank) : ¬ (b.call c).Accounted := by
  cases c with
  | prepend chunk =>
    obtain ⟨hne, hblank⟩ := hc
    intro haccounted
    have hprepend : b.call (.prepend chunk) = b.newPage chunk := by
      rw [LogBuffer.call, LogBuffer.prepend, if_neg hne]
      dsimp only
      rw [if_pos (List.length_eq_zero_iff.mpr ((chunkLines_eq_nil _ _).mpr hblank))]
    rw [hprepend] at haccounted
    have hempty := haccounted.released b.pages.length (by simp [newPage]) (Nat.ne_of_gt h.1.tail) (by
      rw [List.countP_eq_zero]
      intro e he
      have := (h.1.holds.within e he).1
      simp
      omega)
    refine hne (Eq.trans ?_ hempty)
    simp [LogBuffer.page, newPage]
  | append chunk => exact hc.elim
  | flushPartial => exact hc.elim
  | clear => exact hc.elim

/-- **The pages are accounted for throughout a run exactly if no call prepends blank text.** -/
theorem logBuffer_accounted_iff (options : LogBufferOptions) (calls : List Call) :
    (∀ before, before <+: calls → ((new options).run before).Accounted) ↔ ∀ c ∈ calls, ¬ c.PrependsBlank := by
  constructor
  · intro h c hc hblank
    obtain ⟨before, after, rfl⟩ := List.append_of_mem hc
    have hstate := h (before ++ [c]) ⟨after, by simp⟩
    rw [LogBuffer.run, List.foldl_append] at hstate
    exact ((new_refines options).run before).leaves_blank hblank hstate
  · rintro h before ⟨after, rfl⟩
    have hk : 0 < (new options).maxLines := Nat.lt_of_lt_of_le Nat.one_pos (Nat.le_max_left ..)
    have htidy := (new_tidy options).run (new_refines options) hk fun c hc => h c (List.mem_append_left _ hc)
    exact ((new_refines options).run before).accounted htidy

/-- A blank line that is prepended to an empty buffer stays on a page of its own. -/
theorem prepended_blank_kept : ¬ ((new {}).run [.prepend [nl]]).Accounted := by
  intro h
  exact absurd (h.released 1 (by decide) (by decide) (by decide)) (by decide)

end LogBuffer

end OpenshiftConsole.Logging
