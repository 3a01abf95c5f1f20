import Mathlib.Data.List.Chain
import OpenshiftConsole.Library.FormUrl
import OpenshiftConsole.Library.Utf16
import OpenshiftConsole.Logging.Journal

/-!
# Requests as they are sent

The tab's request is a query string, which the service reads into parameters. What the tab sends is ASCII, and
the service reads the very parameters that were written (`queryOf_toQueryString`); it accepts the units of a
filter exactly if there are not too many of them (`unitFilter_accepted_iff`).

What a request says ends up in the command line of journalctl. `tracedArgs` is the command line with what is
the request's told from what is the service's: no element with the request's data in it can be read as an
option of its own (`journalArgs_safe`).
-/

namespace OpenshiftConsole.Logging.Journal

open OpenshiftConsole.Library

/-! ### The query string -/

/-- The text of `URLSearchParams`, in bytes. -/
def toQueryString (q : Query) : List UInt8 := FormUrl.serialize (q.map fun p => (Utf16.encode p.1, Utf16.encode p.2))

/-- A string of Go, a unit for each of its bytes. -/
def goString (s : List UInt8) : Str := s.map (·.toUInt16)

/-- `r.URL.Query()` -/
def queryOf (rawQuery : List UInt8) : Query := (FormUrl.parse rawQuery).map fun p => (goString p.1, goString p.2)

/-- The words of a filter. -/
def words (value : Str) : List Str := value.splitOnP fun c => isSpace c || c ∈ ascii ","

def IsAscii (s : Str) : Prop := ∀ u ∈ s, u < 0x80

variable {s : Str} {units : List Str} {tail : Option ℕ} {cursor : Option Str} {query : JournalQuery} {q : Query}

theorem goString_encode (hs : IsAscii s) : goString (Utf16.encode s) = s := by
  have hsame : ∀ u ∈ s, (u.toUInt8).toUInt16 = u := fun u hu => by
    have hlt := UInt16.lt_iff_toNat_lt.mp (hs u hu)
    simp only [UInt16.reduceToNat] at hlt
    rw [← UInt16.toNat_inj, UInt8.toNat_toUInt16, UInt16.toNat_toUInt8]
    omega
  rw [goString, Utf16.encode_ascii hs, List.map_map]
  exact (List.map_congr_left hsame).trans (List.map_id s)

/-- The service reads the parameters that the tab wrote, if they are ASCII. -/
theorem queryOf_toQueryString (h : ∀ p ∈ q, IsAscii p.1 ∧ IsAscii p.2) : queryOf (toQueryString q) = q := by
  rw [queryOf, toQueryString, FormUrl.parse_serialize, List.map_map]
  have hsame : ∀ p ∈ q, (goString (Utf16.encode p.1), goString (Utf16.encode p.2)) = p := fun p hp => by
    rw [goString_encode (h p hp).1, goString_encode (h p hp).2]
  exact (List.map_congr_left hsame).trans (List.map_id q)

/-! ### ASCII -/

theorem isAscii_of_all (h : s.all (fun u => u < 0x80) = true) : IsAscii s := fun u hu =>
  of_decide_eq_true (List.all_eq_true.mp h u hu)

theorem lt_of_isAlnum {u : UInt16} (h : isAlnum u = true) : u < 0x80 := by
  simp only [isAlnum, Bool.or_eq_true, Bool.and_eq_true, decide_eq_true_eq, UInt16.le_iff_toNat_le,
    UInt16.reduceToNat] at h
  rw [UInt16.lt_iff_toNat_lt]
  simp only [UInt16.reduceToNat]
  omega

theorem lt_of_isUnitStart {u : UInt16} (h : isUnitStart u = true) : u < 0x80 := by
  rw [isUnitStart, Bool.or_eq_true] at h
  rcases h with h | h
  · exact lt_of_isAlnum h
  · exact isAscii_of_all (s := ascii "@:._") (by decide) u (of_decide_eq_true h)

theorem isAscii_of_unitRE (h : unitRE s = true) : IsAscii s := by
  cases s with
  | nil => exact fun u hu => absurd hu List.not_mem_nil
  | cons c cs =>
    rw [unitRE, Bool.and_eq_true, List.all_eq_true] at h
    refine List.forall_mem_cons.mpr ⟨lt_of_isUnitStart h.1, fun u hu => ?_⟩
    have hu' := h.2 u hu
    rw [Bool.or_eq_true] at hu'
    rcases hu' with hu' | hu'
    · exact lt_of_isUnitStart hu'
    · exact isAscii_of_all (s := ascii "-") (by decide) u (of_decide_eq_true hu')

theorem isAscii_of_cursorRE (h : cursorRE s = true) : IsAscii s := by
  cases s with
  | nil => exact fun u hu => absurd hu List.not_mem_nil
  | cons c cs =>
    rw [cursorRE, Bool.and_eq_true, Bool.and_eq_true, List.all_eq_true] at h
    refine List.forall_mem_cons.mpr ⟨lt_of_isAlnum h.1.1, fun u hu => ?_⟩
    have hu' := h.2 u hu
    rw [Bool.or_eq_true] at hu'
    rcases hu' with hu' | hu'
    · exact lt_of_isAlnum hu'
    · exact isAscii_of_all (s := ascii "=;:._-") (by decide) u (of_decide_eq_true hu')

/-! ### A filter's request -/

theorem isAscii_decimal (n : ℕ) : IsAscii (decimal n) := fun u hu => by
  have hdigit := digit_of_mem_decimal hu
  rw [UInt16.lt_iff_toNat_lt]
  simp only [UInt16.reduceToNat]
  omega

theorem isAscii_nodeJournalQuery (hu : ∀ u ∈ units, unitRE u = true) (h : Allowed tail cursor) :
    ∀ p ∈ nodeJournalQuery units tail cursor, IsAscii p.1 ∧ IsAscii p.2 := by
  intro p hp
  simp only [nodeJournalQuery, List.mem_append, List.mem_cons, List.not_mem_nil, or_false, List.mem_map, Option.mem_toList] at hp
  rcases hp with ((rfl | rfl) | ⟨c, hc, rfl⟩) | ⟨u, hu', rfl⟩
  · exact ⟨isAscii_of_all (by decide), isAscii_of_all (by decide)⟩
  · exact ⟨isAscii_of_all (s := ascii "tailLines") (by decide), isAscii_decimal _⟩
  · refine ⟨isAscii_of_all (s := ascii "beforeCursor") (by decide), ?_⟩
    rcases h.cursor c hc with rfl | hcursor
    · exact fun u hu => absurd hu List.not_mem_nil
    · exact isAscii_of_cursorRE hcursor
  · exact ⟨isAscii_of_all (s := ascii "unit") (by decide), isAscii_of_unitRE (hu u hu')⟩

/-- The units of a filter are those of its words that are names of units. -/
theorem length_parseUnits (value : Str) : (parseUnits value).length = (words value).countP unitRE := by
  have hsame : ∀ unit ∈ words value, (decide (unit ≠ []) && unitRE unit) = unitRE unit := fun unit _ => by
    cases unit <;> rfl
  rw [List.countP_eq_length_filter, ← List.filter_congr hsame]
  rfl

/-- **A filter's request is accepted**, and yields the units of the filter, exactly if no more than twenty of its
words are names of units. -/
theorem unitFilter_accepted_iff (value : Str) (h : Allowed tail cursor) :
    (∃ query, parseJournalQuery (queryOf (toQueryString (nodeJournalQuery (parseUnits value) tail cursor))) = .ok query ∧
        query.units = parseUnits value) ↔ (words value).countP unitRE ≤ maxUnits := by
  have hunits : ∀ u ∈ parseUnits value, u ≠ [] ∧ unitRE u = true := fun u => of_mem_parseUnits
  rw [queryOf_toQueryString (isAscii_nodeJournalQuery (fun u hu => (hunits u hu).2) h), parse_allowed hunits h,
    ← length_parseUnits]
  split_ifs with hmany
  · refine ⟨?_, fun hfew => absurd hmany (Nat.not_lt.mpr hfew)⟩
    rintro ⟨query, hquery, -⟩
    exact absurd hquery (by simp)
  · exact ⟨fun _ => Nat.not_lt.mp hmany, fun _ => ⟨_, rfl, rfl⟩⟩

/-- Two units, a word that is none, and a cursor. -/
theorem unitFilter_accepted_two :
    ∃ query, parseJournalQuery (queryOf (toQueryString
        (nodeJournalQuery (parseUnits (ascii "kubelet.service, -x crio.service")) (some 500) (some (ascii "s=a;i=1"))))) =
          .ok query ∧ query.units = parseUnits (ascii "kubelet.service, -x crio.service") :=
  (unitFilter_accepted_iff (ascii "kubelet.service, -x crio.service")
    ⟨fun n hn => by rw [← Option.some.inj hn]; decide, fun c hc => by rw [← Option.some.inj hc]; exact .inr (by decide)⟩).mpr
    (by decide)

/-- Twenty-one units are refused. -/
theorem unitFilter_twentyOne :
    parseJournalQuery (queryOf (toQueryString
      (nodeJournalQuery (parseUnits (ascii "a b c d e f g h i j k l m n o p q r s t u")) none none))) = .error .units := by
  have hunits : ∀ u ∈ parseUnits (ascii "a b c d e f g h i j k l m n o p q r s t u"), u ≠ [] ∧ unitRE u = true :=
    fun u => of_mem_parseUnits
  have hallowed : Allowed none none := ⟨fun n hn => absurd hn (by simp), fun c hc => absurd hc (by simp)⟩
  rw [queryOf_toQueryString (isAscii_nodeJournalQuery (fun u hu => (hunits u hu).2) hallowed), parse_allowed hunits hallowed,
    if_pos (by rw [length_parseUnits]; decide)]

/-! ### The command line -/

/-- A part of an argument: the service's own, or data of the request. -/
inductive Piece where
  | code (s : Str)
  | data (s : Str)

def Piece.text : Piece → Str
  | code s => s
  | data s => s

/-- An argument by its parts. -/
abbrev Argument := List Piece

def Argument.text (a : Argument) : Str := a.flatMap Piece.text

/-- The argument has data of the request in it. -/
def Argument.HasData (a : Argument) : Prop := ∃ s, Piece.data s ∈ a

/-- An option of the service's. -/
def own (s : String) : Argument := [.code (ascii s)]

/-- `journalArgs`, with the request's data told from the service's own. -/
def tracedArgs (query : JournalQuery) : List Argument :=
  [own "--no-pager", own "--utc", own "-W"] ++
    (if query.beforeCursor ≠ [] then [own "-o", own "json", own "-r", [.code (ascii "--cursor="), .data query.beforeCursor]]
      else if query.asJSON then [own "-o", own "json"]
      else [own "-r"]) ++
    (if query.tailLines > 0 then [own "-n", [.data (decimal query.tailLines)]] else []) ++
    query.units.flatMap fun unit => [own "-u", [.data unit]]

/-- The parts make the arguments. -/
theorem journalArgs_eq (query : JournalQuery) : journalArgs query = (tracedArgs query).map Argument.text := by
  have hown : ∀ s, Argument.text (own s) = ascii s := fun s => List.append_nil _
  have hdata : ∀ s, Argument.text [Piece.data s] = s := fun s => List.append_nil _
  have hcursor : ∀ s, Argument.text [.code (ascii "--cursor="), .data s] = ascii "--cursor=" ++ s := fun s => by
    simp [Argument.text, Piece.text]
  rw [journalArgs, tracedArgs, List.map_append, List.map_append, List.map_append, List.map_flatMap]
  split_ifs <;> simp [hown, hdata, hcursor]

theorem of_mem_checkUnits {us vs : List Str} (h : checkUnits us = .ok vs) : ∀ u ∈ vs, u ∈ us ∧ unitRE u = true := by
  induction us generalizing vs with
  | nil =>
    obtain rfl := Except.ok.inj h
    exact fun u hu => absurd hu List.not_mem_nil
  | cons u us ih =>
    rw [checkUnits] at h
    split_ifs at h with hempty hname
    · exact fun v hv => ⟨List.mem_cons_of_mem u (ih h v hv).1, (ih h v hv).2⟩
    · cases hrest : checkUnits us with
      | error e =>
        rw [hrest] at h
        exact absurd h (by simp [Except.map])
      | ok ws =>
        rw [hrest] at h
        obtain rfl := Except.ok.inj h
        refine List.forall_mem_cons.mpr ⟨⟨List.mem_cons_self, hname⟩, fun v hv => ?_⟩
        exact ⟨List.mem_cons_of_mem u (ih hrest v hv).1, (ih hrest v hv).2⟩

/-- The units of an accepted request are names of units. -/
theorem units_of_parse (h : parseJournalQuery q = .ok query) : ∀ u ∈ query.units, unitRE u = true := by
  simp only [parseJournalQuery, bind, Except.bind] at h
  split at h
  · cases h
  split at h
  · cases h
  split at h
  · cases h
  split at h
  · cases h
  · next units hunits =>
    split_ifs at h
    obtain rfl := Except.ok.inj h
    exact fun u hu => (of_mem_checkUnits hunits u hu).2

/-- An argument behind another one that is not an option of its own: the value of `-u`, which has no dash at its
start, the cursor's value in one argument with its option, or the number of `-n`. -/
def Harmless (previous a : Argument) : Prop :=
  (previous = own "-u" ∧ ∃ c cs, a.text = c :: cs ∧ c ≠ 45) ∨
    (∃ cursor, a.text = ascii "--cursor=" ++ cursor) ∨
    (previous = own "-n" ∧ ∃ n, a.text = decimal n)

/-- What the request's data may stand behind. -/
def Placed (previous a : Argument) : Prop := a.HasData → Harmless previous a

theorem not_hasData_own (s : String) : ¬(own s).HasData := by
  rintro ⟨data, hdata⟩
  exact absurd (List.mem_singleton.mp hdata) (by simp)

theorem placed_own (previous : Argument) (s : String) : Placed previous (own s) := fun h => absurd h (not_hasData_own s)

theorem placed_append {l l' : List Argument} (h : l.IsChain Placed) (h' : l'.IsChain Placed)
    (hhead : ∀ a ∈ l'.head?, ∃ s, a = own s) : (l ++ l').IsChain Placed := by
  refine h.append h' fun previous _ a ha => ?_
  obtain ⟨s, rfl⟩ := hhead a ha
  exact placed_own previous s

theorem placed_units (h : ∀ u ∈ units, unitRE u = true) :
    (units.flatMap fun unit => [own "-u", [Piece.data unit]]).IsChain Placed := by
  induction units with
  | nil => exact List.IsChain.nil
  | cons u us ih =>
    rw [List.flatMap_cons]
    refine placed_append ?_ (ih fun v hv => h v (List.mem_cons_of_mem u hv)) fun a ha => ?_
    · refine List.isChain_cons_cons.mpr ⟨fun _ => .inl ⟨rfl, ?_⟩, List.isChain_singleton _⟩
      have hu := h u List.mem_cons_self
      cases u with
      | nil => exact absurd hu (by decide)
      | cons c cs =>
        refine ⟨c, cs, List.append_nil _, ?_⟩
        rintro rfl
        rw [unitRE, Bool.and_eq_true] at hu
        exact absurd hu.1 (by decide)
    · cases us with
      | nil => exact absurd ha (by simp)
      | cons v vs => exact ⟨"-u", (Option.some.inj ha).symm⟩

theorem placed_tracedArgs (h : ∀ u ∈ query.units, unitRE u = true) : (tracedArgs query).IsChain Placed := by
  have hcursor : Placed (own "-r") [.code (ascii "--cursor="), .data query.beforeCursor] := fun _ =>
    .inr (.inl ⟨query.beforeCursor, by simp [Argument.text, Piece.text]⟩)
  have hlines : Placed (own "-n") [.data (decimal query.tailLines)] := fun _ =>
    .inr (.inr ⟨rfl, query.tailLines, List.append_nil _⟩)
  refine placed_append (placed_append (placed_append ?_ ?_ ?_) ?_ ?_) (placed_units h) fun a ha => ?_
  · simp [placed_own]
  · split_ifs <;> simp [placed_own, hcursor]
  · intro a ha
    split_ifs at ha <;> exact ⟨_, (Option.some.inj ha).symm⟩
  · split_ifs <;> simp [hlines]
  · intro a ha
    split_ifs at ha
    · exact ⟨_, (Option.some.inj ha).symm⟩
    · exact absurd ha (by simp)
  · cases hunits : query.units with
    | nil =>
      rw [hunits] at ha
      exact absurd ha (by simp)
    | cons u us =>
      rw [hunits] at ha
      exact ⟨"-u", (Option.some.inj ha).symm⟩

/-- **No value of a request is an option**: in the command line of a request that is accepted, each argument with
data of the request in it stands behind the service's option that it belongs to. -/
theorem journalArgs_safe (rawQuery : List UInt8) (h : parseJournalQuery (queryOf rawQuery) = .ok query) :
    journalArgs query = (tracedArgs query).map Argument.text ∧
      ∀ before a after, tracedArgs query = before ++ a :: after → a.HasData →
        ∃ previous, before.getLast? = some previous ∧ Harmless previous a := by
  refine ⟨journalArgs_eq query, fun before a after hargs hdata => ?_⟩
  have hchain := placed_tracedArgs (units_of_parse h)
  rcases List.eq_nil_or_concat before with rfl | ⟨front, previous, rfl⟩
  · have hfirst : a = own "--no-pager" := (List.cons.inj hargs).1.symm
    rw [hfirst] at hdata
    exact absurd hdata (not_hasData_own _)
  · refine ⟨previous, by rw [List.concat_eq_append, List.getLast?_concat], ?_⟩
    rw [hargs, List.concat_eq_append, List.append_assoc, List.singleton_append, List.isChain_append_cons_cons] at hchain
    exact hchain.2.1 hdata

/-- `unit=a%40b` -/
theorem journalArgs_safe_unit :
    ∃ previous, [own "--no-pager", own "--utc", own "-W", own "-r", own "-n", [.data (decimal 1000)], own "-u"].getLast? =
      some previous ∧ Harmless previous [.data (ascii "a@b")] :=
  (@journalArgs_safe ⟨[ascii "a@b"], 1000, false, []⟩ [117, 110, 105, 116, 61, 97, 37, 52, 48, 98] rfl).2 _ _ [] rfl
    ⟨ascii "a@b", List.mem_singleton_self _⟩

end OpenshiftConsole.Logging.Journal
