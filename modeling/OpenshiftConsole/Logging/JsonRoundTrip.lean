import OpenshiftConsole.Logging.Json

/-!
# What is written as JSON is read back

`JSON.parse` of what `JSON.stringify` writes of a value gives the value, if the value is as a parser gives it: the
members of its objects have names that differ, in the order of properties, and the texts of its numbers
are read as the numbers (`parse_stringify`).

The machine reads each part of a text into the part of the value that it is, whatever frames are below it.
-/

namespace OpenshiftConsole.Logging.JSON

open Journal (ascii)

/-! ### Running -/

variable {m : Machine} {text rest : Str} {frames : List Frame} {c : UInt16} {v : Value}

theorem run_append : run m (text ++ rest) = run (run m text) rest := List.foldl_append

theorem run_cons {next : Next} : run (some (frames, next)) (c :: text) = run (step frames c next) text := rfl

/-- The machine has read a value; of a number or a literal, more could come. -/
def Behind (m : Machine) (frames : List Frame) (v : Value) : Prop :=
  m = some (frames, .behind v) ∨ ∃ s, m = some (frames, .word s) ∧ wordValue s = some v

/-- What is behind a value, if it does not belong to a number or a literal. -/
theorem Behind.run_cons (h : Behind m frames v) (hc : isWordChar c = false) :
    run m (c :: text) = run (stepBehind frames v c) text := by
  rcases h with rfl | ⟨s, rfl, hs⟩
  · rfl
  · rw [JSON.run_cons, step, if_neg (by simp [hc]), hs]
    rfl

theorem Behind.finish (h : Behind m [] v) : JSON.finish m = some v := by
  rcases h with rfl | ⟨s, rfl, hs⟩
  · rfl
  · exact hs

/-! ### Words -/

/-- A word is read to its end. -/
theorem run_word {s : Str} (h : ∀ c ∈ text, isWordChar c) :
    run (some (frames, .word s)) text = some (frames, .word (s ++ text)) := by
  induction text generalizing s with
  | nil => rw [List.append_nil]; rfl
  | cons c text ih =>
    rw [run_cons, step, if_pos (h c List.mem_cons_self), ih fun d hd => h d (List.mem_cons_of_mem c hd), List.append_assoc]
    rfl

/-- A number or a literal. -/
theorem behind_word (hne : text ≠ []) (h : ∀ c ∈ text, isWordChar c) (hv : wordValue text = some v) (empty : Bool) :
    Behind (run (some (frames, .value empty)) text) frames v := by
  obtain ⟨c, text, rfl⟩ := List.exists_cons_of_ne_nil hne
  have hc := h c List.mem_cons_self
  have hstep : step frames c (.value empty) = some (frames, .word [c]) := by
    have hne : ∀ d, isWordChar d = false → c ≠ d := by
      rintro d hd rfl
      simp [hd] at hc
    have hblank : isBlank c = false := by
      simp only [isBlank, decide_eq_false_iff_not, not_or]
      exact ⟨hne _ (by decide), hne _ (by decide), hne _ (by decide), hne _ (by decide)⟩
    simp only [step, stepValue, hblank, Bool.false_eq_true, if_false, if_neg (hne 91 (by decide)), if_neg (hne 123 (by decide)),
      if_neg (hne 34 (by decide)), hc, if_true]
  rw [run_cons, hstep, run_word fun d hd => h d (List.mem_cons_of_mem c hd)]
  exact .inr ⟨_, rfl, hv⟩

/-! ### Strings -/

theorem digit_hexDigit : ∀ n < 16, JsNumber.digit (hexDigit n) = some n := by decide

variable {done : Option (List (Str × Value))} {s : Str}

/-- Four hexadecimal digits are read as the character. -/
theorem run_unicodeEscape (c : UInt16) :
    run (some (frames, .chars done s .none)) (unicodeEscape c) = some (frames, .chars done (s ++ [c]) .none) := by
  have hc : c.toNat < 65536 := c.toNat_lt
  have hdigits : unicodeEscape c = [92, 117, hexDigit (c.toNat / 4096), hexDigit (c.toNat / 256 % 16),
      hexDigit (c.toNat / 16 % 16), hexDigit (c.toNat % 16)] := rfl
  have hcode : (((0 * 16 + c.toNat / 4096) * 16 + c.toNat / 256 % 16) * 16 + c.toNat / 16 % 16) * 16 + c.toNat % 16 = c.toNat := by
    omega
  have hdigit : ∀ {n digits code : ℕ}, n < 16 → step frames (hexDigit n) (.chars done s (.unicode digits code)) =
      some (frames, if digits = 3 then .chars done (s ++ [UInt16.ofNat (code * 16 + n)]) .none
        else .chars done s (.unicode (digits + 1) (code * 16 + n))) := fun hn => by
    rw [step, stepChars, digit_hexDigit _ hn]
    rfl
  have hstart : run (some (frames, .chars done s .none)) (unicodeEscape c) = run (some (frames, .chars done s (.unicode 0 0)))
      [hexDigit (c.toNat / 4096), hexDigit (c.toNat / 256 % 16), hexDigit (c.toNat / 16 % 16), hexDigit (c.toNat % 16)] := by
    rw [hdigits]
    rfl
  rw [hstart, run_cons, hdigit (by omega), if_neg (by decide), run_cons, hdigit (by omega), if_neg (by decide), run_cons,
    hdigit (by omega), if_neg (by decide), run_cons, hdigit (by omega), if_pos (by decide), hcode, UInt16.ofNat_toNat]
  rfl

/-- A character is read as it was written. -/
theorem run_writeChar (paired : Bool) (c : UInt16) :
    run (some (frames, .chars done s .none)) (writeChar paired c) = some (frames, .chars done (s ++ [c]) .none) := by
  rw [writeChar]
  split_ifs with h34 h92 h8 h12 h10 h13 h9 hunicode
  · rw [h34]; rfl
  · rw [h92]; rfl
  · rw [h8]; rfl
  · rw [h12]; rfl
  · rw [h10]; rfl
  · rw [h13]; rfl
  · rw [h9]; rfl
  · exact run_unicodeEscape c
  · rw [not_or] at hunicode
    rw [run_cons, step, stepChars, if_neg h34, if_neg h92, if_neg hunicode.1]
    rfl

theorem run_writeChars (second : Bool) (text : Str) :
    run (some (frames, .chars done s .none)) (writeChars second text) = some (frames, .chars done (s ++ text) .none) := by
  induction text generalizing second s with
  | nil => rw [List.append_nil]; rfl
  | cons c text ih =>
    rw [writeChars, run_append, run_writeChar, ih, List.append_assoc]
    rfl

theorem run_string (s : Str) (empty : Bool) :
    run (some (frames, .value empty)) (quote s) = some (frames, .behind (.string s)) := by
  have hstart : run (some (frames, .value empty)) (quote s) =
      run (some (frames, .chars none [] .none)) (writeChars false s ++ [34]) := rfl
  rw [hstart, run_append, run_writeChars]
  rfl

theorem run_key (members : List (Str × Value)) (empty : Bool) (key : Str) :
    run (some (frames, .key members empty)) (quote key) = some (frames, .colon members key) := by
  have hstart : run (some (frames, .key members empty)) (quote key) =
      run (some (frames, .chars (some members) [] .none)) (writeChars false key ++ [34]) := rfl
  rw [hstart, run_append, run_writeChars]
  rfl

/-! ### Arrays and objects -/

/-- A value whose text is read, anywhere a value is expected. -/
def Reads (v : Value) : Prop :=
  ∀ (frames : List Frame) (empty : Bool), Behind (run (some (frames, .value empty)) (stringify v)) frames v

theorem stringifyItems_eq (items : List Value) : stringifyItems items = items.map stringify := by
  induction items with
  | nil => rfl
  | cons v items ih => rw [stringifyItems, ih, List.map_cons]

theorem stringifyMembers_eq (members : List (Str × Value)) :
    stringifyMembers members = members.map fun m => (m.1, stringify m.2) := by
  induction members with
  | nil => rfl
  | cons m members ih =>
    obtain ⟨key, v⟩ := m
    rw [stringifyMembers, ih, List.map_cons]

theorem commaSeparated_cons (text : Str) {texts : List Str} (h : texts ≠ []) :
    commaSeparated (text :: texts) = text ++ comma :: commaSeparated texts := by
  obtain ⟨text', texts, rfl⟩ := List.exists_cons_of_ne_nil h
  simp [commaSeparated]

/-- The items of an array, from where a value is expected. -/
theorem run_items {items done : List Value} (hne : items ≠ []) (hitems : ∀ v ∈ items, Reads v) (empty : Bool) :
    run (some (.items done :: frames, .value empty)) (commaSeparated (items.map stringify) ++ [93]) =
      some (frames, .behind (.array (done ++ items))) := by
  induction items generalizing done empty with
  | nil => exact absurd rfl hne
  | cons v items ih =>
    have hv := hitems v List.mem_cons_self (.items done :: frames) empty
    by_cases hlast : items = []
    · subst hlast
      have htext : commaSeparated ([v].map stringify) = stringify v := by simp [commaSeparated]
      rw [htext, run_append, hv.run_cons (by decide)]
      rfl
    · rw [List.map_cons, commaSeparated_cons _ (by simpa using hlast), List.append_assoc, run_append, List.cons_append,
        hv.run_cons (by decide)]
      have hnext : stepBehind (.items done :: frames) v comma = some (.items (done ++ [v]) :: frames, .value false) := rfl
      rw [hnext, ih hlast (fun w hw => hitems w (List.mem_cons_of_mem v hw)), List.append_assoc]
      rfl

/-- The text of a member. -/
def memberText (m : Str × Value) : Str := quote m.1 ++ [colon] ++ stringify m.2

theorem setMember_fresh {members : List (Str × Value)} {key : Str} (h : key ∉ members.map Prod.fst) (v : Value) :
    setMember members key v = members ++ [(key, v)] := by
  rw [setMember, if_neg]
  simpa using h

/-- The members of an object, from where a key is expected. -/
theorem run_members {members done : List (Str × Value)} (hne : members ≠ []) (hmembers : ∀ m ∈ members, Reads m.2)
    (hnodup : ((done ++ members).map Prod.fst).Nodup) (empty : Bool) :
    run (some (frames, .key done empty)) (commaSeparated (members.map memberText) ++ [125]) =
      some (frames, .behind (.object (done ++ members))) := by
  induction members generalizing done empty with
  | nil => exact absurd rfl hne
  | cons m members ih =>
    obtain ⟨key, v⟩ := m
    have hv := hmembers (key, v) List.mem_cons_self (.members done key :: frames) false
    have hfresh : key ∉ done.map Prod.fst := by
      rw [List.map_append, List.map_cons] at hnodup
      exact fun h => (List.nodup_append.mp hnodup).2.2 key h key List.mem_cons_self rfl
    have hkey : ∀ rest, run (some (frames, .key done empty)) (memberText (key, v) ++ rest) =
        run (run (some (.members done key :: frames, .value false)) (stringify v)) rest := by
      intro rest
      rw [memberText, List.append_assoc, List.append_assoc, run_append, run_key]
      have hcolon : run (some (frames, .colon done key)) ([colon] ++ (stringify v ++ rest)) =
          run (some (.members done key :: frames, .value false)) (stringify v ++ rest) := rfl
      exact hcolon.trans run_append
    by_cases hlast : members = []
    · subst hlast
      have htext : commaSeparated ([(key, v)].map memberText) = memberText (key, v) := by simp [commaSeparated]
      rw [htext, hkey, hv.run_cons (by decide)]
      have hend : stepBehind (.members done key :: frames) v 125 = some (frames, .behind (.object (setMember done key v))) := rfl
      rw [hend, setMember_fresh hfresh]
      rfl
    · rw [List.map_cons, commaSeparated_cons _ (by simpa using hlast), List.append_assoc, hkey, List.cons_append,
        hv.run_cons (by decide)]
      have hnext : stepBehind (.members done key :: frames) v comma = some (frames, .key (setMember done key v) false) := rfl
      rw [hnext, setMember_fresh hfresh, ih hlast (fun w hw => hmembers w (List.mem_cons_of_mem _ hw)) (by simpa using hnodup),
        List.append_assoc]
      rfl

/-! ### Values -/

/-- The text of a number is read as the number. -/
def ReadsBack (n : JsNumber) : Prop := n.text ≠ [] ∧ (∀ c ∈ n.text, isWordChar c) ∧ wordValue n.text = some (.number n)

example : ReadsBack (.finite 12) := by
  have htext : (JsNumber.finite 12).text = ascii "12" := by decide +kernel
  have hvalue : unsignedNumber (ascii "12") = some (.finite 12) := by decide +kernel
  rw [ReadsBack, htext]
  exact ⟨by decide, List.all_eq_true.mp (by decide), congrArg (Option.map Value.number) hvalue⟩

/-- A value as a parser gives it. -/
inductive Parsed : Value → Prop where
  | null : Parsed .null
  | bool (b : Bool) : Parsed (.bool b)
  | number {q : ℚ} (h : ReadsBack (.finite q)) : Parsed (.number (.finite q))
  | string (s : Str) : Parsed (.string s)
  | array {items : List Value} (h : ∀ v ∈ items, Parsed v) : Parsed (.array items)
  | object {members : List (Str × Value)} (h : ∀ m ∈ members, Parsed m.2) (nodup : (members.map Prod.fst).Nodup)
      (ordered : inOrder members = members) : Parsed (.object members)

/-- The order of an object's properties is one of their names. -/
theorem inOrder_map {α β : Type*} (f : α → β) (members : List (Str × α)) :
    inOrder (members.map fun m => (m.1, f m.2)) = (inOrder members).map fun m => (m.1, f m.2) := by
  rw [inOrder, inOrder, List.map_append, List.filter_map, List.filter_map]
  congr 1
  refine (List.map_mergeSort ?_).symm
  exact fun a _ b _ => rfl

theorem reads_array {items : List Value} (h : ∀ v ∈ items, Reads v) : Reads (.array items) := by
  intro frames empty
  have htext : stringify (.array items) = 91 :: (commaSeparated (items.map stringify) ++ [93]) := by
    rw [stringify, stringifyItems_eq]
    rfl
  have hopen : step frames 91 (.value empty) = some (.items [] :: frames, .value true) := rfl
  rw [htext, run_cons, hopen]
  refine .inl ?_
  cases items with
  | nil => rfl
  | cons v items => exact run_items (List.cons_ne_nil v items) h true

theorem reads_object {members : List (Str × Value)} (h : ∀ m ∈ members, Reads m.2) (nodup : (members.map Prod.fst).Nodup)
    (ordered : inOrder members = members) : Reads (.object members) := by
  intro frames empty
  have htexts : (inOrder (stringifyMembers members)).map (fun m => quote m.1 ++ [colon] ++ m.2) = members.map memberText := by
    rw [stringifyMembers_eq, inOrder_map, ordered, List.map_map]
    rfl
  have htext : stringify (.object members) = 123 :: (commaSeparated (members.map memberText) ++ [125]) := by
    rw [stringify, htexts]
    rfl
  have hopen : step frames 123 (.value empty) = some (frames, .key [] true) := rfl
  rw [htext, run_cons, hopen]
  refine .inl ?_
  cases members with
  | nil => rfl
  | cons m members => exact run_members (List.cons_ne_nil m members) h nodup true

theorem reads_parsed (h : Parsed v) : Reads v := by
  induction h with
  | null => exact fun frames empty => behind_word (by decide) (List.all_eq_true.mp (by decide)) rfl empty
  | bool b => cases b <;> exact fun frames empty => behind_word (by decide) (List.all_eq_true.mp (by decide)) rfl empty
  | number h => exact fun frames empty => behind_word h.1 h.2.1 h.2.2 empty
  | string s => exact fun frames empty => .inl (run_string s empty)
  | array _ ih => exact reads_array ih
  | object _ nodup ordered ih => exact reads_object ih nodup ordered

/-- **What is written is read back.** -/
theorem parse_stringify (h : Parsed v) : parse (stringify v) = some v := (reads_parsed h [] false).finish

end OpenshiftConsole.Logging.JSON
