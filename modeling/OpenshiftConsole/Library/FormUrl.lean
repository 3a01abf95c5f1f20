import Mathlib.Data.List.TakeWhile
import Mathlib.Tactic.Common

/-!
# Query strings

The serializer of `application/x-www-form-urlencoded`, and a reader of query strings as Go has it: pairs
are between `&`, a pair with a `;` in it or a broken escape is left out. What was written is read again
(`parse_serialize`), whatever bytes the names and values have.
-/

namespace OpenshiftConsole.Library.FormUrl

/-- A byte that is written as it is. -/
def isUnreserved (b : UInt8) : Bool :=
  (48 ≤ b && b ≤ 57) || (65 ≤ b && b ≤ 90) || (97 ≤ b && b ≤ 122) || b ∈ [42, 45, 46, 95]

def hexDigit (n : ℕ) : UInt8 := if n < 10 then .ofNat (48 + n) else .ofNat (55 + n)

/-- A byte: a space is `+`, others are `%` and two digits. -/
def encodeByte (b : UInt8) : List UInt8 :=
  if isUnreserved b then [b] else if b = 32 then [43] else [37, hexDigit (b.toNat / 16), hexDigit (b.toNat % 16)]

def encode (s : List UInt8) : List UInt8 := s.flatMap encodeByte

/-- `name=value` -/
def encodePair (p : List UInt8 × List UInt8) : List UInt8 := encode p.1 ++ 61 :: encode p.2

def serialize (pairs : List (List UInt8 × List UInt8)) : List UInt8 := [38].intercalate (pairs.map encodePair)

def hexValue (c : UInt8) : Option ℕ :=
  if 48 ≤ c ∧ c ≤ 57 then some (c.toNat - 48)
  else if 97 ≤ c ∧ c ≤ 102 then some (c.toNat - 87)
  else if 65 ≤ c ∧ c ≤ 70 then some (c.toNat - 55)
  else none

/-- The bytes that are written, unless an escape is broken. -/
def unescape : List UInt8 → Option (List UInt8)
  | [] => some []
  | c :: s =>
    if c = 37 then
      match s with
      | a :: b :: s =>
        match hexValue a, hexValue b with
        | some high, some low => (unescape s).map (.ofNat (16 * high + low) :: ·)
        | _, _ => none
      | _ => none
    else (unescape s).map ((if c = 43 then 32 else c) :: ·)

/-- A pair: the name ends at the first `=`. -/
def parsePair (s : List UInt8) : Option (List UInt8 × List UInt8) :=
  if s = [] ∨ 59 ∈ s then none
  else
    match unescape (s.takeWhile (· ≠ 61)), unescape ((s.dropWhile (· ≠ 61)).tail) with
    | some name, some value => some (name, value)
    | _, _ => none

def parse (s : List UInt8) : List (List UInt8 × List UInt8) := (s.splitOn 38).filterMap parsePair

/-- `a=%2B+&b;c=d&=%zz` has one pair that can be read. -/
example : parse [97, 61, 37, 50, 66, 43, 38, 98, 59, 99, 61, 100, 38, 61, 37, 122, 122] = [([97], [43, 32])] := by decide

/-! ### Writers with other safe bytes -/

/-- A byte that is not safe is escaped in the same way. -/
def escapeByte (safe : UInt8 → Bool) (b : UInt8) : List UInt8 :=
  if safe b then [b] else if b = 32 then [43] else [37, hexDigit (b.toNat / 16), hexDigit (b.toNat % 16)]

def escape (safe : UInt8 → Bool) (s : List UInt8) : List UInt8 := s.flatMap (escapeByte safe)

def escapePair (safe : UInt8 → Bool) (p : List UInt8 × List UInt8) : List UInt8 :=
  escape safe p.1 ++ 61 :: escape safe p.2

def write (safe : UInt8 → Bool) (pairs : List (List UInt8 × List UInt8)) : List UInt8 :=
  [38].intercalate (pairs.map (escapePair safe))

theorem serialize_eq (pairs : List (List UInt8 × List UInt8)) : serialize pairs = write isUnreserved pairs := rfl

/-- The bytes with a meaning of their own are not safe. -/
def Reserves (safe : UInt8 → Bool) : Prop := ∀ b ∈ [37, 38, 43, 59, 61], safe b = false

instance (safe : UInt8 → Bool) : Decidable (Reserves safe) := inferInstanceAs (Decidable (∀ b ∈ _, _))

/-! ### What is written is read -/

variable {safe : UInt8 → Bool} {s : List UInt8} {b c : UInt8}

theorem hexDigit_spec {n : ℕ} (h : n < 16) :
    hexValue (hexDigit n) = some n ∧ hexDigit n ≠ 38 ∧ hexDigit n ≠ 61 ∧ hexDigit n ≠ 59 := by
  have hall : (List.range 16).all (fun n =>
      hexValue (hexDigit n) = some n ∧ hexDigit n ≠ 38 ∧ hexDigit n ≠ 61 ∧ hexDigit n ≠ 59) = true := by decide
  exact of_decide_eq_true (List.all_eq_true.mp hall n (List.mem_range.mpr h))

/-- What is written of a byte has nothing in it that ends it. -/
theorem ne_of_mem_escapeByte (hsafe : Reserves safe) (h : c ∈ escapeByte safe b) : c ≠ 38 ∧ c ≠ 61 ∧ c ≠ 59 := by
  have hbyte := b.toNat_lt
  rw [escapeByte] at h
  split_ifs at h with hun
  · rw [List.mem_singleton] at h
    refine ⟨?_, ?_, ?_⟩ <;> rintro rfl <;> rw [← h, hsafe _ (by decide)] at hun <;> cases hun
  · rw [List.mem_singleton.mp h]
    decide
  · simp only [List.mem_cons, List.not_mem_nil, or_false] at h
    rcases h with rfl | rfl | rfl
    · decide
    · exact (hexDigit_spec (by omega)).2
    · exact (hexDigit_spec (by omega)).2

theorem ne_of_mem_escape (hsafe : Reserves safe) (h : c ∈ escape safe s) : c ≠ 38 ∧ c ≠ 61 ∧ c ≠ 59 := by
  obtain ⟨b, -, hc⟩ := List.mem_flatMap.mp h
  exact ne_of_mem_escapeByte hsafe hc

theorem unescape_of_ne (h : c ≠ 37) : unescape (c :: s) = (unescape s).map ((if c = 43 then 32 else c) :: ·) := by
  rw [unescape.eq_def]
  exact if_neg h

theorem unescape_escapeByte (hsafe : Reserves safe) (b : UInt8) (s : List UInt8) :
    unescape (escapeByte safe b ++ s) = (unescape s).map (b :: ·) := by
  rw [escapeByte]
  split_ifs with hun hspace
  · have hpercent : b ≠ 37 := by
      rintro rfl
      rw [hsafe _ (by decide)] at hun
      cases hun
    have hplus : b ≠ 43 := by
      rintro rfl
      rw [hsafe _ (by decide)] at hun
      cases hun
    rw [List.singleton_append, unescape_of_ne hpercent, if_neg hplus]
  · rw [List.singleton_append, unescape_of_ne (by decide), if_pos rfl, hspace]
  · have hbyte := b.toNat_lt
    have hhigh := (hexDigit_spec (show b.toNat / 16 < 16 by omega)).1
    have hlow := (hexDigit_spec (show b.toNat % 16 < 16 by omega)).1
    simp only [List.cons_append, List.nil_append, unescape, if_true, hhigh, hlow, Nat.div_add_mod, UInt8.ofNat_toNat]

theorem unescape_escape (hsafe : Reserves safe) (s : List UInt8) : unescape (escape safe s) = some s := by
  induction s with
  | nil => rfl
  | cons b s ih =>
    rw [escape, List.flatMap_cons, unescape_escapeByte hsafe, show s.flatMap (escapeByte safe) = escape safe s from rfl,
      ih, Option.map_some]

theorem parsePair_escapePair (hsafe : Reserves safe) (p : List UInt8 × List UInt8) :
    parsePair (escapePair safe p) = some p := by
  have hname : ∀ c ∈ escape safe p.1, decide (c ≠ 61) = true := fun c hc =>
    decide_eq_true (ne_of_mem_escape hsafe hc).2.1
  have hgood : ¬(escapePair safe p = [] ∨ 59 ∈ escapePair safe p) := by
    rw [escapePair, not_or, List.mem_append, List.mem_cons, not_or, not_or]
    exact ⟨by simp, fun h => (ne_of_mem_escape hsafe h).2.2 rfl, by decide, fun h => (ne_of_mem_escape hsafe h).2.2 rfl⟩
  rw [parsePair, if_neg hgood, escapePair, List.takeWhile_append_of_pos hname, List.dropWhile_append_of_pos hname]
  simp [unescape_escape hsafe]

theorem parse_write (hsafe : Reserves safe) (pairs : List (List UInt8 × List UInt8)) :
    parse (write safe pairs) = pairs := by
  cases pairs with
  | nil => rfl
  | cons p pairs =>
    have hamp : ∀ s ∈ (p :: pairs).map (escapePair safe), 38 ∉ s := by
      intro s hs h
      obtain ⟨q, -, rfl⟩ := List.mem_map.mp hs
      rcases List.mem_append.mp h with h | h
      · exact (ne_of_mem_escape hsafe h).1 rfl
      · rcases List.mem_cons.mp h with h | h
        · exact absurd h (by decide)
        · exact (ne_of_mem_escape hsafe h).1 rfl
    rw [parse, write, List.splitOn_intercalate 38 hamp (by simp), List.filterMap_map]
    have hread : parsePair ∘ escapePair safe = some := funext (parsePair_escapePair hsafe)
    rw [hread, List.filterMap_some]

theorem reserves_iff {safe : UInt8 → Bool} : Reserves safe ↔
    safe 37 = false ∧ safe 38 = false ∧ safe 43 = false ∧ safe 59 = false ∧ safe 61 = false := by
  simp [Reserves]

theorem reserves_isUnreserved : Reserves isUnreserved := reserves_iff.mpr (by decide)

/-- **What is written is read.** -/
theorem parse_serialize (pairs : List (List UInt8 × List UInt8)) : parse (serialize pairs) = pairs := by
  rw [serialize_eq, parse_write reserves_isUnreserved]

end OpenshiftConsole.Library.FormUrl
