import Mathlib.Data.Rat.Floor
import OpenshiftConsole.Logging.Formats

/-!
# Numbers

The numbers that text is read as: doubles, of which the finite ones are rationals; negative zero
is zero. `JsNumber.ofString` is `Number(s)` of a string: its decimal literals with sign, fraction and
exponent, `Infinity`, the hexadecimal, octal and binary literals, and 0 for a blank string. The value
of a literal is rounded to the nearest double.

`JsNumber.text` is `String(n)` of a number: the fewest digits that are read as the number again.
-/

namespace OpenshiftConsole.Logging

open Journal (ascii isSpace)

/-- A number. -/
inductive JsNumber where
  | finite (q : ℚ)
  | infinite (negative : Bool)
  | nan
deriving DecidableEq

namespace JsNumber

/-! ### Rounding -/

/-- A power of two. -/
def pow2 (k : ℤ) : ℚ := if 0 ≤ k then (2 ^ k.toNat : ℕ) else 1 / (2 ^ (-k).toNat : ℕ)

/-- The exponent of a positive number: the greatest power of two that is not above it. -/
def exponent (q : ℚ) : ℤ :=
  let k : ℤ := Nat.log2 q.num.natAbs - Nat.log2 q.den
  if pow2 k ≤ q then k else k - 1

/-- The nearest integer, an even one where two are as near. -/
def roundEven (q : ℚ) : ℤ :=
  let n := ⌊q⌋
  let frac := q - n
  if frac < 1 / 2 then n else if 1 / 2 < frac then n + 1 else if n % 2 = 0 then n else n + 1

/-- The nearest double of a number that is not negative. -/
def roundPositive (q : ℚ) : JsNumber :=
  if q = 0 then finite 0
  else
    let unit := pow2 (max (exponent q - 52) (-1074))
    let rounded := roundEven (q / unit) * unit
    if pow2 1024 ≤ rounded then infinite false else finite rounded

/-- A number with its sign changed. -/
def neg : JsNumber → JsNumber
  | finite q => finite (-q)
  | infinite negative => infinite !negative
  | nan => nan

/-- The nearest double. -/
def round (q : ℚ) : JsNumber := if q < 0 then (roundPositive (-q)).neg else roundPositive q

/-! ### Literals -/

/-- The value of a digit, of one of the bases up to 16. -/
def digit (c : UInt16) : Option ℕ :=
  if 48 ≤ c ∧ c ≤ 57 then some (c.toNat - 48)
  else if 97 ≤ c ∧ c ≤ 102 then some (c.toNat - 87)
  else if 65 ≤ c ∧ c ≤ 70 then some (c.toNat - 55)
  else none

/-- A digit of a base. -/
def isDigit (base : ℕ) (c : UInt16) : Bool := ∃ d ∈ digit c, d < base

/-- The value of digits in a base. -/
def ofDigits (base : ℕ) (ds : Str) : ℕ := ds.foldl (fun n c => n * base + (digit c).getD 0) 0

/-- The decimal exponent that a literal ends with. -/
def exponentPart : Str → Option ℤ
  | [] => some 0
  | c :: s =>
    if c ∈ ascii "eE" then
      let (negative, ds) : Bool × Str := match s with
        | 43 :: ds => (false, ds)
        | 45 :: ds => (true, ds)
        | ds => (false, ds)
      if ds ≠ [] ∧ ds.all (isDigit 10) then
        some (if negative then -ofDigits 10 ds else ofDigits 10 ds)
      else none
    else none

/-- A number times a power of ten. -/
def scale10 (n : ℕ) (e : ℤ) : ℚ := if 0 ≤ e then n * (10 ^ e.toNat : ℕ) else n / (10 ^ (-e).toNat : ℕ)

/-- A decimal literal without a sign. -/
def unsignedDecimal (s : Str) : JsNumber :=
  if s = ascii "Infinity" then infinite false
  else
    let ints := s.takeWhile (isDigit 10)
    let rest := s.dropWhile (isDigit 10)
    let (fracs, rest) : Str × Str := match rest with
      | 46 :: r => (r.takeWhile (isDigit 10), r.dropWhile (isDigit 10))
      | r => ([], r)
    if ints = [] ∧ fracs = [] then nan
    else
      match exponentPart rest with
      | some e => roundPositive (scale10 (ofDigits 10 (ints ++ fracs)) (e - fracs.length))
      | none => nan

/-- The digits behind the prefix of a literal of another base. -/
def otherBase (base : ℕ) (ds : Str) : JsNumber :=
  if ds ≠ [] ∧ ds.all (isDigit base) then roundPositive (ofDigits base ds) else nan

/-- `Number(s)` -/
def ofString (s : Str) : JsNumber :=
  match trim s with
  | [] => finite 0
  | 48 :: c :: ds =>
    if c ∈ ascii "xX" then otherBase 16 ds
    else if c ∈ ascii "oO" then otherBase 8 ds
    else if c ∈ ascii "bB" then otherBase 2 ds
    else unsignedDecimal (48 :: c :: ds)
  | 43 :: s => unsignedDecimal s
  | 45 :: s => (unsignedDecimal s).neg
  | s => unsignedDecimal s

/-- The value of a finite number. -/
def value : JsNumber → Option ℚ
  | finite q => some q
  | _ => none

example : ofString (ascii " -12.50e1 ") = finite (-125) := by decide +kernel

example : ofString (ascii "254.99999999999999999999") = finite 255 := by decide +kernel

example : ofString (ascii "0x1F") = finite 31 ∧ ofString (ascii "1 2") = nan ∧ ofString [] = finite 0 := by decide +kernel

/-- A character that numbers are written with. -/
def isNumberChar (c : UInt16) : Bool := (digit c).isSome ∨ c ∈ ascii "+-.eExXoObBInfity"

section

variable {c : UInt16} {s : Str}

theorem not_isDigit {base : ℕ} (hc : ¬isNumberChar c) : isDigit base c = false := by
  simp only [isNumberChar, decide_eq_true_eq, not_or] at hc
  have hnone : digit c = none := by simpa using hc.1
  simp [isDigit, hnone]

theorem all_isDigit_eq_false {base : ℕ} (h : c ∈ s) (hc : ¬isNumberChar c) : s.all (isDigit base) = false :=
  List.all_eq_false.mpr ⟨c, h, by simp [not_isDigit hc]⟩

theorem ne_of_isNumberChar {d : UInt16} (hc : ¬isNumberChar c) (hd : isNumberChar d) : c ≠ d := by
  rintro rfl
  exact hc hd

theorem exponentPart_eq_none (h : c ∈ s) (hc : ¬isNumberChar c) : exponentPart s = none := by
  cases s with
  | nil => cases h
  | cons e s =>
    rw [exponentPart.eq_def]
    dsimp only
    split
    · rename_i he
      have hs : c ∈ s :=
        List.mem_of_ne_of_mem (ne_of_isNumberChar hc (List.all_eq_true.mp (by decide : (ascii "eE").all isNumberChar) e he)) h
      -- The character is among the exponent's digits.
      split
      · rw [all_isDigit_eq_false (List.mem_of_ne_of_mem (ne_of_isNumberChar hc (by decide)) hs) hc]
        simp
      · rw [all_isDigit_eq_false (List.mem_of_ne_of_mem (ne_of_isNumberChar hc (by decide)) hs) hc]
        simp
      · rw [all_isDigit_eq_false hs hc]
        simp
    · rfl

theorem unsignedDecimal_eq_nan (h : c ∈ s) (hc : ¬isNumberChar c) : unsignedDecimal s = nan := by
  have hdrop : ∀ {s : Str}, c ∈ s → c ∈ s.dropWhile (isDigit 10) := fun h => mem_dropWhile h (not_isDigit hc)
  have hinfinity : s ≠ ascii "Infinity" := by
    rintro rfl
    exact hc (List.all_eq_true.mp (by decide : (ascii "Infinity").all isNumberChar) c h)
  rw [unsignedDecimal, if_neg hinfinity]
  dsimp only
  split
  · rename_i r hrest
    have hr : c ∈ r := by
      have := hdrop h
      rw [hrest] at this
      exact List.mem_of_ne_of_mem (ne_of_isNumberChar hc (by decide)) this
    rw [exponentPart_eq_none (hdrop hr) hc]
    exact ite_self _
  · rw [exponentPart_eq_none (hdrop h) hc]
    exact ite_self _

theorem otherBase_eq_nan {base : ℕ} (h : c ∈ s) (hc : ¬isNumberChar c) : otherBase base s = nan := by
  rw [otherBase, all_isDigit_eq_false h hc]
  exact if_neg fun hall => by simp at hall

/-- A text is no number if it has a character that no number has. -/
theorem ofString_eq_nan (h : c ∈ trim s) (hc : ¬isNumberChar c) : ofString s = nan := by
  have htail : ∀ {d : UInt16} {t : Str}, isNumberChar d → c ∈ d :: t → c ∈ t := fun hd ht =>
    List.mem_of_ne_of_mem (ne_of_isNumberChar hc hd) ht
  rw [ofString]
  split
  · rename_i hnil
    rw [hnil] at h
    cases h
  · rename_i d ds htrim
    rw [htrim] at h
    have hds : ∀ {text : String}, (ascii text).all isNumberChar → d ∈ ascii text → c ∈ ds := fun htext hd =>
      htail (List.all_eq_true.mp htext d hd) (htail (by decide) h)
    split_ifs with hx ho hb
    · exact otherBase_eq_nan (hds (by decide) hx) hc
    · exact otherBase_eq_nan (hds (by decide) ho) hc
    · exact otherBase_eq_nan (hds (by decide) hb) hc
    · exact unsignedDecimal_eq_nan h hc
  · rename_i t htrim
    rw [htrim] at h
    exact unsignedDecimal_eq_nan (htail (by decide) h) hc
  · rename_i t htrim
    rw [htrim] at h
    rw [unsignedDecimal_eq_nan (htail (by decide) h) hc]
    rfl
  · exact unsignedDecimal_eq_nan h hc

end

/-! ### Texts -/

/-- Of a positive number, how many digits are before the decimal point; how many zeros behind it, below zero. -/
def magnitude (q : ℚ) : ℤ :=
  if 1 ≤ q then (Journal.decimal ⌊q⌋.toNat).length else 1 - ((Journal.decimal (⌈1 / q⌉.toNat - 1)).length : ℤ)

/-- So many digits that are read as the number, if there are some, and its magnitude as they give it. -/
def digitsOfLength (q : ℚ) (k : ℕ) : Option (Str × ℤ) :=
  let unit := scale10 1 (magnitude q - k)
  -- The nearest, or one on the number's other side.
  let near : List ℤ := [roundEven (q / unit), ⌊q / unit⌋, ⌊q / unit⌋ + 1]
  (near.find? fun s : ℤ => roundPositive (s * unit) = finite q).map fun s : ℤ =>
    let digits := Journal.decimal s.toNat
    ((digits.reverse.dropWhile (· = 48)).reverse, magnitude q + (digits.length - k))

/-- Digits with a decimal point or an exponent. -/
def layout (digits : Str) (n : ℤ) : Str :=
  if digits.length ≤ n ∧ n ≤ 21 then digits ++ List.replicate (n - digits.length).toNat 48
  else if 0 < n ∧ n ≤ 21 then digits.take n.toNat ++ ascii "." ++ digits.drop n.toNat
  else if -6 < n ∧ n ≤ 0 then ascii "0." ++ List.replicate (-n).toNat 48 ++ digits
  else
    digits.take 1 ++ (if digits.length = 1 then [] else ascii "." ++ digits.drop 1) ++
      ascii (if n - 1 < 0 then "e-" else "e+") ++ Journal.decimal (n - 1).natAbs

/-- `String(n)` of a positive number. -/
def positiveText (q : ℚ) : Str :=
  match (List.range 17).findSome? fun k => digitsOfLength q (k + 1) with
  | some (digits, n) => layout digits n
  | none => []

/-- `String(n)` -/
def text : JsNumber → Str
  | finite q => if q = 0 then ascii "0" else if q < 0 then ascii "-" ++ positiveText (-q) else positiveText q
  | infinite negative => ascii (if negative then "-Infinity" else "Infinity")
  | nan => ascii "NaN"

example : (ofString (ascii "-0.1")).text = ascii "-0.1" ∧ (ofString (ascii "1e23")).text = ascii "1e+23" := by decide +kernel

example : (ofString (ascii "120000")).text = ascii "120000" ∧ (ofString (ascii "12e-8")).text = ascii "1.2e-7" := by
  decide +kernel

end JsNumber

end OpenshiftConsole.Logging
