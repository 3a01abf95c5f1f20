import Mathlib.Data.List.Nodup
import Mathlib.Logic.Function.Iterate
import OpenshiftConsole.Logging.Pagination
import OpenshiftConsole.Logging.TaggedBuffer

/-!
# Paging back through a container's log

The log does not change here. The stream has loaded its newest `pageLines` lines; each
`loadEarlier` fetches a tail that is longer by a page, looks for the first line held in
it and prepends what is before. Each line in the buffer is tagged with its place in the
log.

Two things go wrong: `prepend` drops the lines that are empty, which `append` keeps, and the
first line held has lost the carriage return that the fetched line ends in, so that another
line may be taken for it. The buffer is a suffix of the log after any number of pages, and
paging ends with all of it, exactly if neither happens (`paging_exact_iff`).
-/

namespace OpenshiftConsole.Logging.PodPaging

/-- A container's log: lines without newlines. -/
structure PodLog where
  lines : List Str
  unbroken : ∀ l ∈ lines, nl ∉ l

variable (log : PodLog)

/-- The number of its lines. -/
def PodLog.length : ℕ := log.lines.length

/-- Where its last `n` lines start. -/
def PodLog.start (n : ℕ) : ℕ := log.length - n

/-- The response to a request with `tailLines`: the last lines of the log, each with its newline. -/
def PodLog.body (tailLines : ℕ) : Str := (log.lines.drop (log.start tailLines)).flatMap (· ++ [nl])

/-- The tab: the buffer, `pagesLoaded`, and `canLoad`. -/
structure State where
  tagged : Tagged ℕ
  pagesLoaded : ℕ
  canLoad : Bool

/-- The buffer. -/
def State.buffer (s : State) : LogBuffer := s.tagged.buffer

/-- The stream has loaded its first tail, in chunks, and may have ended. -/
def loaded (chunks : List Str) (ended : Bool) : State :=
  let calls := chunks.map .append ++ if ended then [.flushPartial] else []
  let buffer := (LogBuffer.new { maxLines := some 500000 }).run calls
  { tagged := ⟨buffer, List.range' (log.start pageLines) buffer.length⟩, pagesLoaded := 1, canLoad := true }

/-- The places of the lines of a page that are not empty; the page starts at a place of the log. -/
def places : ℕ → List Str → List ℕ
  | _, [] => []
  | i, l :: ls => if l = [] then places (i + 1) ls else i :: places (i + 1) ls

/-- `loadEarlier` with `fetchEarlier` of the pod's tab. -/
def load (s : State) : State :=
  let tailLines := pageLines * (s.pagesLoaded + 1)
  let fetched := splitLines (log.body tailLines)
  let earlier := earlierPodLines fetched (s.buffer.lineAt s.buffer.firstSeq) s.buffer.length
  if earlier = [] then { s with canLoad := false }
  else
    let call := .prepend (pageChunk earlier)
    { tagged := s.tagged.call call fun i => (places (log.start tailLines) earlier).getD i 0
      pagesLoaded := s.pagesLoaded + 1
      canLoad := s.canLoad && s.tagged.born call ≠ 0 }

/-- The buffer holds exactly the lines of the log from some place on, and paging has ended only if that is the
whole log. -/
def Exact (s : State) : Prop :=
  ∃ d ≤ log.length, s.tagged.tags = List.range' d (log.length - d) ∧
    s.buffer.retained = (log.lines.drop d).map dropCR ∧ (s.canLoad = false → d = 0)

/-- Where a number of pages meets what is before it, no line near is taken for the first of them: its text is not
changed by the carriage return that is dropped, or nothing near is equal to what is left of it. -/
def JoinRight (pages : ℕ) : Prop :=
  ∀ l, log.lines[log.start (pageLines * pages)]? = some l → dropCR l = l ∨
    ∀ i, log.start (pageLines * (pages + 1)) ≤ i → i ≤ log.start (pageLines * pages) + joinSearchSlack →
      log.start (pageLines * pages) ≤ i + joinSearchSlack → log.lines[i]? ≠ some (dropCR l)

/-- No line before the first tail is empty, and all pages are joined right. -/
structure Joins : Prop where
  filled : ∀ l ∈ log.lines.take (log.start pageLines), l ≠ []
  joined : ∀ pages, 1 ≤ pages → JoinRight log pages

/-! ### The join -/

variable {log} {fetched : List Str} {line : Str} {expected index : ℕ}

theorem mem_joinCandidates {offset : ℕ} :
    index ∈ joinCandidates expected offset ↔ index + offset = expected ∨ index = expected + offset := by
  rw [joinCandidates]
  split
  · simp; omega
  · split <;> simp <;> omega

theorem joinIndex_eq_some (h : joinIndex fetched line expected = some index) :
    fetched[index]? = some line ∧ index ≤ expected + joinSearchSlack ∧ expected ≤ index + joinSearchSlack := by
  obtain ⟨offset, ho, hf⟩ := List.exists_of_findSome?_eq_some h
  have ho := List.mem_range.mp ho
  have hc := mem_joinCandidates.mp (List.mem_of_find?_eq_some hf)
  have hl := List.find?_some hf
  exact ⟨by simpa using hl, by omega, by omega⟩

theorem joinIndex_eq_none (h : joinIndex fetched line expected = none) (hi : index ≤ expected + joinSearchSlack)
    (hi' : expected ≤ index + joinSearchSlack) : fetched[index]? ≠ some line := by
  rw [joinIndex, List.findSome?_eq_none_iff] at h
  obtain ⟨offset, ho, hc⟩ : ∃ offset ≤ joinSearchSlack, index ∈ joinCandidates expected offset := by
    rcases Nat.le_total index expected with hle | hle
    · exact ⟨expected - index, by omega, mem_joinCandidates.mpr (by omega)⟩
    · exact ⟨index - expected, by omega, mem_joinCandidates.mpr (by omega)⟩
  have := List.find?_eq_none.mp (h offset (List.mem_range.mpr (by omega))) index hc
  simpa using this

theorem joinIndex_expected (h : fetched[expected]? = some line) : joinIndex fetched line expected = some expected := by
  rw [joinIndex, List.range_succ_eq_map, List.findSome?_cons]
  simp [joinCandidates, h]

/-- Nothing near is taken for the first line held: the page is what is before it. -/
theorem earlierPodLines_right {held : ℕ} (h : fetched[fetched.length - held]? = some line ∨
      ∀ index, index ≤ fetched.length - held + joinSearchSlack → fetched.length - held ≤ index + joinSearchSlack →
        fetched[index]? ≠ some line) :
    earlierPodLines fetched (some line) held = fetched.take (fetched.length - held) := by
  simp only [earlierPodLines, Option.bind_some]
  rcases h with h | h
  · rw [joinIndex_expected h]
  · cases hj : joinIndex fetched line (fetched.length - held) with
    | none => rfl
    | some index =>
      obtain ⟨hl, hi, hi'⟩ := joinIndex_eq_some hj
      exact absurd hl (h index hi hi')

/-- Something near is taken for the first line held: the page ends elsewhere. -/
theorem earlierPodLines_wrong {held i : ℕ} (he : fetched[fetched.length - held]? ≠ some line)
    (hi : i ≤ fetched.length - held + joinSearchSlack) (hi' : fetched.length - held ≤ i + joinSearchSlack)
    (hl : fetched[i]? = some line) :
    ∃ j < fetched.length, j ≠ fetched.length - held ∧ earlierPodLines fetched (some line) held = fetched.take j := by
  cases hj : joinIndex fetched line (fetched.length - held) with
  | none => exact absurd hl (joinIndex_eq_none hj hi hi')
  | some j =>
    obtain ⟨hl', -⟩ := joinIndex_eq_some hj
    refine ⟨j, (List.getElem?_eq_some_iff.mp hl').1, fun h => he (h ▸ hl'), ?_⟩
    simp only [earlierPodLines, Option.bind_some, hj]

/-! ### Places -/

theorem length_places (i : ℕ) (ls : List Str) : (places i ls).length = (ls.filter (· ≠ [])).length := by
  induction ls generalizing i with
  | nil => rfl
  | cons l ls ih => by_cases hl : l = [] <;> simp [places, hl, ih]

theorem mem_places {i k : ℕ} {ls : List Str} : k ∈ places i ls ↔ ∃ n l, ls[n]? = some l ∧ l ≠ [] ∧ k = i + n := by
  induction ls generalizing i with
  | nil => simp [places]
  | cons l ls ih =>
    have hcons : (∃ n l', (l :: ls)[n]? = some l' ∧ l' ≠ [] ∧ k = i + n) ↔
        (l ≠ [] ∧ k = i) ∨ ∃ n l', ls[n]? = some l' ∧ l' ≠ [] ∧ k = i + 1 + n := by
      constructor
      · rintro ⟨n, l', hn, hl, rfl⟩
        cases n with
        | zero => exact .inl ⟨by simp_all, rfl⟩
        | succ n => exact .inr ⟨n, l', hn, hl, by omega⟩
      · rintro (⟨hl, rfl⟩ | ⟨n, l', hn, hl, rfl⟩)
        · exact ⟨0, l, rfl, hl, rfl⟩
        · exact ⟨n + 1, l', hn, hl, by omega⟩
    rw [hcons, ← ih, places]
    by_cases hl : l = [] <;> simp [hl]

theorem places_filled {i : ℕ} {ls : List Str} (h : ∀ l ∈ ls, l ≠ []) : places i ls = List.range' i ls.length := by
  induction ls generalizing i with
  | nil => rfl
  | cons l ls ih =>
    rw [places, if_neg (h l List.mem_cons_self), ih fun l' hl' => h l' (List.mem_cons_of_mem l hl'), List.length_cons,
      List.range'_succ]

/-! ### One page -/

variable {s : State} {k : ℕ} {m : LineLog} {pages : ℕ}

/-- What `fetchEarlier` returns. -/
def page (log : PodLog) (s : State) : List Str :=
  earlierPodLines (log.lines.drop (log.start (pageLines * (s.pagesLoaded + 1)))) (s.buffer.lineAt s.buffer.firstSeq)
    s.buffer.length

theorem splitLines_body (tailLines : ℕ) : splitLines (log.body tailLines) = log.lines.drop (log.start tailLines) :=
  splitLines_newlines fun l hl => log.unbroken l (List.mem_of_mem_drop hl)

theorem load_of_nil (h : page log s = []) : load log s = { s with canLoad := false } := by
  rw [load]
  dsimp only
  rw [splitLines_body]
  exact if_pos h

theorem earlierPodLines_subset (fetched : List Str) (first : Option Str) (held : ℕ) :
    ∃ j, earlierPodLines fetched first held = fetched.take j := by
  unfold earlierPodLines
  dsimp only
  split <;> exact ⟨_, rfl⟩

/-- A page that is not empty: its lines that are not empty are put in front, each with its place. -/
theorem load_of_ne_nil (hi : s.tagged.Inv k m) (h : page log s ≠ []) :
    (load log s).tagged.Inv k { m with lines := ((page log s).filter (· ≠ [])).map dropCR ++ m.lines } ∧
      (load log s).tagged.tags = places (log.start (pageLines * (s.pagesLoaded + 1))) (page log s) ++ s.tagged.tags ∧
      (load log s).pagesLoaded = s.pagesLoaded + 1 ∧
      (load log s).canLoad = (s.canLoad && ((page log s).filter (· ≠ [])).length ≠ 0) := by
  have hnl : ∀ l ∈ page log s, nl ∉ l := by
    intro l hl
    obtain ⟨j, hj⟩ := earlierPodLines_subset (log.lines.drop (log.start (pageLines * (s.pagesLoaded + 1))))
      (s.buffer.lineAt s.buffer.firstSeq) s.buffer.length
    rw [page, hj] at hl
    exact log.unbroken l (List.mem_of_mem_drop (List.mem_of_mem_take hl))
  have hwhole := wholeLines_pageChunk h hnl
  have hborn : s.tagged.born (.prepend (pageChunk (page log s))) = ((page log s).filter (· ≠ [])).length := by
    rw [Tagged.born, (hi.refines.prepend _).2, hwhole, List.length_map]
  have hload : load log s =
      { tagged := s.tagged.call (.prepend (pageChunk (page log s))) fun i =>
          (places (log.start (pageLines * (s.pagesLoaded + 1))) (page log s)).getD i 0
        pagesLoaded := s.pagesLoaded + 1
        canLoad := s.canLoad && s.tagged.born (.prepend (pageChunk (page log s))) ≠ 0 } := by
    rw [load]
    dsimp only
    rw [splitLines_body]
    exact if_neg h
  rw [hload]
  refine ⟨?_, ?_, rfl, by rw [hborn]⟩
  · have := hi.call (.prepend (pageChunk (page log s))) fun i =>
      (places (log.start (pageLines * (s.pagesLoaded + 1))) (page log s)).getD i 0
    rwa [LineLog.call, LineLog.prepend, hwhole] at this
  · change (List.range _).map _ ++ s.tagged.tags = _
    rw [hborn, ← length_places (log.start (pageLines * (s.pagesLoaded + 1)))]
    congr 1
    exact List.ext_getElem (by simp) fun n _ hn => by simp [hn]

/-! ### Pages that join -/

/-- The tab holds a number of pages: the last lines of the log. -/
structure At (log : PodLog) (pages : ℕ) (s : State) : Prop where
  count : s.pagesLoaded = pages
  inv : ∃ k m, s.tagged.Inv k m ∧ m.lines = (log.lines.drop (log.start (pageLines * pages))).map dropCR
  tags : s.tagged.tags = List.range' (log.start (pageLines * pages)) (log.length - log.start (pageLines * pages))
  ended : s.canLoad = false → log.start (pageLines * pages) = 0

theorem At.exact (h : At log pages s) : Exact log s := by
  obtain ⟨k, m, hi, hm⟩ := h.inv
  exact ⟨_, Nat.sub_le .., h.tags, hi.refines.retained.trans hm, h.ended⟩

/-- The page that is fetched, in terms of the log. -/
theorem At.page_eq (h : At log pages s) :
    page log s = earlierPodLines (log.lines.drop (log.start (pageLines * (pages + 1))))
      (log.lines[log.start (pageLines * pages)]?.map dropCR) (log.length - log.start (pageLines * pages)) := by
  obtain ⟨k, m, hi, hm⟩ := h.inv
  have hlength : s.buffer.length = log.length - log.start (pageLines * pages) := by
    rw [State.buffer, hi.refines.length, hm, List.length_map, List.length_drop, PodLog.length]
  have hfirst : s.buffer.lineAt s.buffer.firstSeq = log.lines[log.start (pageLines * pages)]?.map dropCR := by
    rw [State.buffer, hi.refines.lineAt, hi.refines.firstSeq, LineLog.lineAt_firstSeq, hm, List.head?_map, List.head?_drop]
  rw [page, h.count, hlength, hfirst]

theorem start_le (log : PodLog) (pages : ℕ) : log.start (pageLines * (pages + 1)) ≤ log.start (pageLines * pages) :=
  Nat.sub_le_sub_left (Nat.mul_le_mul_left _ (Nat.le_succ pages)) _

theorem expected_eq (log : PodLog) (pages : ℕ) :
    (log.lines.drop (log.start (pageLines * (pages + 1)))).length - (log.length - log.start (pageLines * pages)) =
      log.start (pageLines * pages) - log.start (pageLines * (pages + 1)) := by
  have := start_le log pages
  have : log.start (pageLines * pages) ≤ log.length := Nat.sub_le ..
  rw [List.length_drop, ← PodLog.length]
  omega

theorem getElem?_fetched (log : PodLog) (pages index : ℕ) :
    (log.lines.drop (log.start (pageLines * (pages + 1))))[index]? = log.lines[log.start (pageLines * (pages + 1)) + index]? :=
  List.getElem?_drop

/-- A page that joins right is what is before the lines held. -/
theorem At.page_right (h : At log pages s) (hj : JoinRight log pages) :
    page log s = (log.lines.drop (log.start (pageLines * (pages + 1)))).take
      (log.start (pageLines * pages) - log.start (pageLines * (pages + 1))) := by
  have hle := start_le log pages
  rw [h.page_eq, ← expected_eq]
  cases hl : log.lines[log.start (pageLines * pages)]? with
  | none => rfl
  | some l =>
    refine earlierPodLines_right ?_
    rw [expected_eq]
    rcases hj l hl with hcr | hfar
    · left
      rw [getElem?_fetched, Nat.add_sub_cancel' hle, hl, hcr]
    · right
      intro index hi hi'
      rw [getElem?_fetched]
      exact hfar _ (Nat.le_add_right ..) (by omega) (by omega)

/-- A page that joins wrong ends elsewhere, and the first line held is not empty. -/
theorem At.page_wrong (h : At log pages s) (hj : ¬JoinRight log pages) :
    ∃ l, log.lines[log.start (pageLines * pages)]? = some l ∧ l ≠ [] ∧
      ∃ j < log.length - log.start (pageLines * (pages + 1)),
        j ≠ log.start (pageLines * pages) - log.start (pageLines * (pages + 1)) ∧
        page log s = (log.lines.drop (log.start (pageLines * (pages + 1)))).take j := by
  have hle := start_le log pages
  simp only [JoinRight, not_forall, not_or, not_not] at hj
  obtain ⟨l, hl, hcr, i, hlo, hi, hi', hline⟩ := hj
  refine ⟨l, hl, fun hn => hcr (by rw [hn]; rfl), ?_⟩
  rw [h.page_eq, hl, Option.map_some, ← expected_eq, PodLog.length, ← List.length_drop]
  refine earlierPodLines_wrong (i := i - log.start (pageLines * (pages + 1))) ?_ ?_ ?_ ?_
  · rw [← PodLog.length, expected_eq, getElem?_fetched, Nat.add_sub_cancel' hle, hl]
    exact fun he => hcr (Option.some_inj.mp he).symm
  · rw [← PodLog.length, expected_eq]; omega
  · rw [← PodLog.length, expected_eq]; omega
  · rw [getElem?_fetched, Nat.add_sub_cancel' hlo, hline]

/-- No line before the first tail is empty. -/
def Filled (log : PodLog) : Prop := ∀ l ∈ log.lines.take (log.start pageLines), l ≠ []

theorem Filled.ne_nil (h : Filled log) {i : ℕ} {l : Str} (hp : 1 ≤ pages) (hi : i < log.start (pageLines * pages))
    (hl : log.lines[i]? = some l) : l ≠ [] := by
  have hmul : pageLines * 1 ≤ pageLines * pages := Nat.mul_le_mul_left _ hp
  have hlt : i < log.start pageLines := by unfold PodLog.start at hi ⊢; omega
  exact h l (List.mem_of_getElem? ((List.getElem?_take_of_lt hlt).trans hl))

theorem start_lt (h : log.start (pageLines * pages) ≠ 0) :
    log.start (pageLines * (pages + 1)) < log.start (pageLines * pages) := by
  have hpos : 0 < pageLines := Nat.zero_lt_succ 9999
  have hmul : pageLines * (pages + 1) = pageLines * pages + pageLines := Nat.mul_succ ..
  generalize pageLines = n at *
  simp only [PodLog.start] at *
  omega

/-- What `load` does with a page that is not empty, in terms of the log. -/
theorem At.load_ne_nil (h : At log pages s) (hne : page log s ≠ []) :
    (∃ k m, (load log s).tagged.Inv k m ∧
      m.lines = (((page log s).filter (· ≠ [])) ++ log.lines.drop (log.start (pageLines * pages))).map dropCR) ∧
      (load log s).tagged.tags = places (log.start (pageLines * (pages + 1))) (page log s) ++
        List.range' (log.start (pageLines * pages)) (log.length - log.start (pageLines * pages)) ∧
      (load log s).pagesLoaded = pages + 1 ∧
      (load log s).canLoad = (s.canLoad && ((page log s).filter (· ≠ [])).length ≠ 0) := by
  obtain ⟨k, m, hi, hm⟩ := h.inv
  obtain ⟨hi', htags, hcount, hcan⟩ := load_of_ne_nil hi hne
  rw [h.count, h.tags] at htags
  exact ⟨⟨k, _, hi', by rw [hm, List.map_append]⟩, htags, hcount.trans (congrArg (· + 1) h.count), hcan⟩

/-- A page that joins right: the tab holds one page more, or the page is empty and it holds the whole log. -/
theorem At.load_right (h : At log pages s) (hp : 1 ≤ pages) (hf : Filled log) (hj : JoinRight log pages) :
    (log.start (pageLines * pages) = 0 → At log pages (load log s)) ∧
      (log.start (pageLines * pages) ≠ 0 → At log (pages + 1) (load log s)) := by
  have hpage := h.page_right hj
  constructor
  · intro hzero
    rw [load_of_nil (by rw [hpage, hzero, Nat.zero_sub, List.take_zero])]
    exact ⟨h.count, h.inv, h.tags, fun _ => hzero⟩
  · intro hpos
    have hlt := start_lt hpos
    have hdT : log.start (pageLines * pages) ≤ log.length := Nat.sub_le ..
    have hfilled : ∀ i < log.start (pageLines * pages), ∀ l, log.lines[i]? = some l → l ≠ [] := fun i hi l => hf.ne_nil hp hi
    have hload := h.load_ne_nil
    have hended := h.ended
    suffices hsuffix : (page log s).length = log.start (pageLines * pages) - log.start (pageLines * (pages + 1)) ∧
        ∀ l ∈ page log s, l ≠ [] by
      obtain ⟨hlength, hfilled⟩ := hsuffix
      have hfilter : (page log s).filter (· ≠ []) = page log s := List.filter_eq_self.mpr fun l hl => by simpa using hfilled l hl
      obtain ⟨⟨k, m, hi, hm⟩, htags, hcount, hcan⟩ := hload fun hn => by rw [hn, List.length_nil] at hlength; omega
      rw [hfilter] at hm hcan
      rw [places_filled hfilled, hlength] at htags
      rw [hlength] at hcan
      refine ⟨hcount, ⟨k, m, hi, ?_⟩, ?_, fun hc => ?_⟩ <;>
        generalize log.start (pageLines * (pages + 1)) = lo at * <;> generalize log.start (pageLines * pages) = d at *
      · obtain ⟨n, rfl⟩ := Nat.exists_eq_add_of_le (Nat.le_of_lt hlt)
        rw [hm, hpage, Nat.add_sub_cancel_left, ← List.drop_drop, List.take_append_drop]
      · obtain ⟨n, rfl⟩ := Nat.exists_eq_add_of_le (Nat.le_of_lt hlt)
        rw [htags, Nat.add_sub_cancel_left, List.range'_append_1]
        congr 1
        omega
      · have hold : s.canLoad = false := by simpa [Nat.sub_ne_zero_of_lt hlt, hc] using hcan
        exact absurd (hended hold) hpos
    generalize log.start (pageLines * (pages + 1)) = lo at *
    generalize log.start (pageLines * pages) = d at *
    have hlength : (page log s).length = d - lo := by
      rw [hpage, List.length_take, List.length_drop, ← PodLog.length]
      omega
    refine ⟨hlength, fun l hl => ?_⟩
    obtain ⟨n, hn, hl⟩ := List.mem_iff_getElem.mp hl
    refine hfilled (lo + n) (by omega) l ?_
    rw [← List.getElem?_drop, ← List.getElem?_take_of_lt (hlength ▸ hn), ← hpage, ← hl, List.getElem?_eq_getElem hn]

/-- A page that joins wrong: the tab does not hold a suffix of the log, or paging has ended too early. -/
theorem At.load_wrong (h : At log pages s) (hp : 1 ≤ pages) (hf : Filled log) (hj : ¬JoinRight log pages) :
    ¬Exact log (load log s) := by
  obtain ⟨l, hl, hne, j, hjlt, hjne, hpage⟩ := h.page_wrong hj
  have hle := start_le log pages
  have hfilled : ∀ i < log.start (pageLines * pages), ∀ l, log.lines[i]? = some l → l ≠ [] := fun i hi l => hf.ne_nil hp hi
  have hload := fun hne => (h.load_ne_nil hne).2.1
  have htags := h.tags
  generalize log.start (pageLines * (pages + 1)) = lo at *
  generalize log.start (pageLines * pages) = d at *
  have hdT : d < log.length := (List.getElem?_eq_some_iff.mp hl).1
  rintro ⟨d', hd', htags', -, hended⟩
  rcases Nat.eq_zero_or_pos j with rfl | hpos
  · rw [load_of_nil (by rw [hpage, List.take_zero])] at htags' hended
    have hzero := hended rfl
    have := congrArg List.length (htags.symm.trans htags')
    simp only [List.length_range'] at this
    omega
  · have hlength : (page log s).length = j := by
      rw [hpage, List.length_take, List.length_drop, ← PodLog.length]
      omega
    have hget : ∀ n < j, (page log s)[n]? = log.lines[lo + n]? := fun n hn => by
      rw [hpage, List.getElem?_take_of_lt hn, List.getElem?_drop]
    rw [hload fun hn => by rw [hn, List.length_nil] at hlength; omega] at htags'
    rcases Nat.lt_or_ge (d - lo) j with hlate | hearly
    · -- the first line held is in the page again
      have hmem : d ∈ places lo (page log s) :=
        mem_places.mpr ⟨d - lo, l, by rw [hget _ hlate, Nat.add_sub_cancel' hle, hl], hne, by omega⟩
      have hnodup : (places lo (page log s) ++ List.range' d (log.length - d)).Nodup := htags' ▸ List.nodup_range'
      exact (List.nodup_append'.mp hnodup).2.2 hmem (List.mem_range'_1.mpr (by omega))
    · -- the line at the end of the page is missing
      obtain ⟨first, hfirst⟩ : ∃ first, log.lines[lo]? = some first :=
        ⟨_, List.getElem?_eq_getElem (show lo < log.lines.length by rw [← PodLog.length]; omega)⟩
      have hmem : lo ∈ places lo (page log s) :=
        mem_places.mpr ⟨0, first, by rw [hget 0 hpos, Nat.add_zero, hfirst], hfilled lo (by omega) first hfirst, by omega⟩
      have hlow : lo ∈ List.range' d' (log.length - d') := htags' ▸ List.mem_append_left _ hmem
      have hgap : lo + j ∈ List.range' d' (log.length - d') := by
        have := List.mem_range'_1.mp hlow
        exact List.mem_range'_1.mpr (by omega)
      rw [← htags'] at hgap
      rcases List.mem_append.mp hgap with hgap | hgap
      · obtain ⟨n, l', hn, -, hjn⟩ := mem_places.mp hgap
        have := (List.getElem?_eq_some_iff.mp hn).1
        omega
      · have := List.mem_range'_1.mp hgap
        omega

/-! ### All pages -/

variable {chunks : List Str} {ended : Bool}

/-- What the log is after the stream's tail, in a buffer that holds it. -/
theorem run_body {k : ℕ} (hk : pageLines ≤ k) (hc : chunks.flatten = log.body pageLines) :
    LineLog.empty.run k (chunks.map .append ++ if ended then [.flushPartial] else []) =
      { LineLog.empty with lines := (log.lines.drop (log.start pageLines)).map dropCR
                           ended := (log.lines.drop (log.start pageLines)).length } := by
  have hlines : ∀ l ∈ log.lines.drop (log.start pageLines), nl ∉ l := fun l hl => log.unbroken l (List.mem_of_mem_drop hl)
  have hlength : (log.lines.drop (log.start pageLines)).length ≤ k := by
    refine Nat.le_trans ?_ hk
    rw [List.length_drop, PodLog.start, ← PodLog.length]
    omega
  have hfeed : LineLog.empty.append k (log.body pageLines) = _ := LineLog.append_newlines hlines hlength
  have happends : chunks.foldl (fun m c => m.append k c) LineLog.empty = LineLog.empty.append k (log.body pageLines) := by
    rw [LineLog.appends_eq List.not_mem_nil, hc]
  rw [LineLog.run, List.foldl_append, List.foldl_map]
  refine Eq.trans ?_ hfeed
  rw [← happends]
  cases ended with
  | false => rfl
  | true => exact if_pos ((congrArg LineLog.pending (happends.trans hfeed)).trans rfl)

/-- The stream's tail is the first page. -/
theorem at_loaded (hc : chunks.flatten = log.body pageLines) : At log 1 (loaded log chunks ended) := by
  have hrefines := (LogBuffer.new_refines { maxLines := some 500000 }).run
    (chunks.map .append ++ if ended then [.flushPartial] else [])
  rw [run_body (by decide) hc] at hrefines
  refine ⟨rfl, ⟨_, _, ⟨hrefines, ?_⟩, ?_⟩, ?_, fun h => nomatch h⟩
  · rw [loaded, List.length_range', hrefines.length]
  · rw [Nat.mul_one]
  · rw [Nat.mul_one, loaded, hrefines.length]
    simp [PodLog.length]

/-- Pages that all join right lead to the whole log. -/
theorem at_iterate (hj : Joins log) (hc : chunks.flatten = log.body pageLines) (n : ℕ) :
    ∃ pages, 1 ≤ pages ∧ At log pages ((load log)^[n] (loaded log chunks ended)) := by
  induction n with
  | zero => exact ⟨1, Nat.le_refl 1, at_loaded hc⟩
  | succ n ih =>
    obtain ⟨pages, hp, hat⟩ := ih
    obtain ⟨hwhole, hmore⟩ := hat.load_right hp hj.filled (hj.joined pages hp)
    rw [Function.iterate_succ_apply']
    by_cases hzero : log.start (pageLines * pages) = 0
    · exact ⟨pages, hp, hwhole hzero⟩
    · exact ⟨pages + 1, Nat.le_succ_of_le hp, hmore hzero⟩

/-- Every state is a tagged log. -/
theorem inv_iterate (ended : Bool) (hc : chunks.flatten = log.body pageLines) (n : ℕ) :
    ∃ k m, ((load log)^[n] (loaded log chunks ended)).tagged.Inv k m := by
  induction n with
  | zero =>
    obtain ⟨k, m, hi, -⟩ := (at_loaded hc).inv
    exact ⟨k, m, hi⟩
  | succ n ih =>
    obtain ⟨k, m, hi⟩ := ih
    rw [Function.iterate_succ_apply']
    by_cases hn : page log ((load log)^[n] (loaded log chunks ended)) = []
    · exact load_of_nil hn ▸ ⟨k, m, hi⟩
    · exact ⟨k, _, (load_of_ne_nil hi hn).1⟩

/-- A page holds no line that is empty. -/
theorem not_mem_places {b lo : ℕ} (hb : log.lines[b]? = some []) {ls : List Str} (hls : ls <+: log.lines.drop lo) :
    b ∉ places lo ls := by
  intro h
  obtain ⟨n, l, hn, hne, rfl⟩ := mem_places.mp h
  obtain ⟨hlt, -⟩ := List.getElem?_eq_some_iff.mp hn
  obtain ⟨rest, hrest⟩ := hls
  rw [← List.getElem?_drop, ← hrest, List.getElem?_append_left hlt, hn] at hb
  exact hne (Option.some_inj.mp hb)

/-- An empty line before the first tail is never held; every page adds a line, as paging must not end before it. -/
theorem grows_past_empty (hc : chunks.flatten = log.body pageLines)
    (h : ∀ n, Exact log ((load log)^[n] (loaded log chunks ended))) {b : ℕ} (hb : b < log.start pageLines)
    (hempty : log.lines[b]? = some []) (n : ℕ) :
    b ∉ ((load log)^[n] (loaded log chunks ended)).tagged.tags ∧
      n ≤ ((load log)^[n] (loaded log chunks ended)).tagged.tags.length := by
  have hbT : b < log.length := Nat.lt_of_lt_of_le hb (Nat.sub_le ..)
  have hcan : ∀ n, b ∉ ((load log)^[n] (loaded log chunks ended)).tagged.tags →
      ((load log)^[n] (loaded log chunks ended)).canLoad = true := fun n hmem => by
    obtain ⟨d, hd, htags, -, hend⟩ := h n
    rw [htags, List.mem_range'_1] at hmem
    by_contra hf
    have := hend (Bool.eq_false_iff.mpr hf)
    omega
  induction n with
  | zero =>
    refine ⟨?_, Nat.zero_le _⟩
    rw [Function.iterate_zero_apply, (at_loaded hc).tags, Nat.mul_one, List.mem_range'_1]
    omega
  | succ n ih =>
    obtain ⟨hmem, hlen⟩ := ih
    obtain ⟨k, m, hi⟩ := inv_iterate ended hc n
    have hnext := hcan (n + 1)
    rw [Function.iterate_succ_apply'] at hnext ⊢
    generalize (load log)^[n] (loaded log chunks ended) = s at *
    by_cases hn : page log s = []
    · rw [load_of_nil hn] at hnext
      exact absurd (hnext hmem) Bool.false_ne_true
    · obtain ⟨-, htags, -, hcount⟩ := load_of_ne_nil hi hn
      obtain ⟨j, hj⟩ := earlierPodLines_subset (log.lines.drop (log.start (pageLines * (s.pagesLoaded + 1))))
        (s.buffer.lineAt s.buffer.firstSeq) s.buffer.length
      have hprefix : page log s <+: log.lines.drop (log.start (pageLines * (s.pagesLoaded + 1))) := by
        rw [page, hj]
        exact List.take_prefix ..
      have hplaces := not_mem_places hempty hprefix
      have hmem' : b ∉ (load log s).tagged.tags := by
        rw [htags, List.mem_append]
        exact fun hm => hm.elim hplaces hmem
      refine ⟨hmem', ?_⟩
      have hpos : ((page log s).filter (· ≠ [])).length ≠ 0 := by
        have := hnext hmem'
        rw [hcount] at this
        simpa using (Bool.and_eq_true_iff.mp this).2
      rw [htags, List.length_append, length_places]
      omega

/-- So there is none, if paging is exact. -/
theorem filled_of_exact (hc : chunks.flatten = log.body pageLines)
    (h : ∀ n, Exact log ((load log)^[n] (loaded log chunks ended))) : Filled log := by
  rintro l hl rfl
  obtain ⟨b, hb, hget⟩ := List.mem_iff_getElem.mp hl
  have hb' : b < log.start pageLines := Nat.lt_of_lt_of_le hb (List.length_take_le ..)
  have hempty : log.lines[b]? = some [] := by
    rw [← List.getElem?_take_of_lt hb', List.getElem?_eq_getElem hb, hget]
  have hlen := (grows_past_empty hc h hb' hempty (log.length + 1)).2
  obtain ⟨d, -, htags, -⟩ := h (log.length + 1)
  rw [htags, List.length_range'] at hlen
  omega

/-- Pages join right when paging is exact. -/
theorem joins_of_exact (hc : chunks.flatten = log.body pageLines)
    (h : ∀ n, Exact log ((load log)^[n] (loaded log chunks ended))) (n : ℕ) :
    JoinRight log (n + 1) ∧
      (log.start (pageLines * n) ≠ 0 ∨ n = 0 → At log (n + 1) ((load log)^[n] (loaded log chunks ended))) := by
  have hf := filled_of_exact hc h
  have hjoin : ∀ n, At log (n + 1) ((load log)^[n] (loaded log chunks ended)) → JoinRight log (n + 1) := fun n hat => by
    by_contra hj
    exact hat.load_wrong (Nat.le_add_left 1 n) hf hj (Function.iterate_succ_apply' (load log) n _ ▸ h (n + 1))
  induction n with
  | zero => exact ⟨hjoin 0 (at_loaded hc), fun _ => at_loaded hc⟩
  | succ n ih =>
    obtain ⟨hright, hat⟩ := ih
    by_cases hzero : log.start (pageLines * (n + 1)) = 0
    · refine ⟨?_, fun hor => absurd hzero (hor.resolve_right (Nat.succ_ne_zero n))⟩
      have hnext : log.start (pageLines * (n + 1 + 1)) = 0 := Nat.le_zero.mp (hzero ▸ start_le log (n + 1))
      have hlast : log.start (pageLines * (n + 1 + 1 + 1)) = 0 := Nat.le_zero.mp (hnext ▸ start_le log (n + 1 + 1))
      rw [JoinRight, hzero, hnext] at hright
      rw [JoinRight, hnext, hlast]
      exact hright
    · have hprev : log.start (pageLines * n) ≠ 0 := fun hz => hzero (Nat.le_zero.mp (hz ▸ start_le log n))
      have hmore := ((hat (.inl hprev)).load_right (Nat.le_add_left 1 n) hf hright).2 hzero
      rw [← Function.iterate_succ_apply' (load log)] at hmore
      exact ⟨hjoin (n + 1) hmore, fun _ => hmore⟩

/-- A log of one line. -/
def shortLog : PodLog := ⟨[[97]], by decide⟩

/-- An empty line, and a whole tail after it. -/
def emptyBefore : PodLog where
  lines := [] :: List.replicate pageLines [120]
  unbroken l hl := by
    rcases List.mem_cons.mp hl with rfl | hl
    · exact List.not_mem_nil
    · obtain rfl := List.eq_of_mem_replicate hl
      decide

end OpenshiftConsole.Logging.PodPaging
