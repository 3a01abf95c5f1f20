import OpenshiftConsole.Library.Bootstring
import OpenshiftConsole.Library.Lines

/-!
# Names in other scripts

A label of a host name in another script is written in ASCII, as `xn--` and a bootstring of its characters. The
details of a certificate show what it stands for: `decodeLabel` decodes a label that begins so, and leaves it as it
is if that fails; `decodeIDN` does it for each label of a name.

The encoder is not in the repository. `encode` is the procedure that the decoder's comment refers to, for the same
parameters: what it writes is read back (`decodeIDN_toASCII`). The other way round, two host names in ASCII are not
shown alike (`decodeIDN_ne`), but for labels with nothing to decode behind their last dash.

Numbers are exact here. Those of the source are below `2 ^ 53`; where one gets there, the code points are beyond
what a string can have, and the label is left as it is either way.
-/

namespace OpenshiftConsole.CertManager.Punycode

open OpenshiftConsole.Library.Bootstring
open OpenshiftConsole.Library.Lines (notMem_of_mem_splitOn)

/-- A string: its units of UTF-16. -/
abbrev Str := List UInt16

/-! ### The decoder -/

def BASE : ℕ := 36
def T_MIN : ℕ := 1
def T_MAX : ℕ := 26
def SKEW : ℕ := 38
def DAMP : ℕ := 700
def INITIAL_BIAS : ℤ := 72
def INITIAL_N : ℕ := 128

/-- `DELIMITER`: `-`. -/
def DELIMITER : UInt16 := 45

/-- `delta >> 1`: the operator takes 32 bits with a sign. -/
def shiftRight (delta : ℕ) : ℤ := (delta : ℤ).bmod (2 ^ 32) / 2

/-- The loop of `adapt`, which divides at most `fuel` times. A quotient by zero is minus infinity there; its only use is
to be less than every `k`, as zero is. -/
def adaptLoop : ℕ → ℤ → ℤ → ℤ
  | 0, d, k => k + ((BASE - T_MIN + 1 : ℕ) * d).fdiv (d + SKEW)
  | fuel + 1, d, k =>
    if ((BASE - T_MIN) * T_MAX / 2 : ℕ) < d then adaptLoop fuel (d / (BASE - T_MIN : ℕ)) (k + BASE)
    else k + ((BASE - T_MIN + 1 : ℕ) * d).fdiv (d + SKEW)

/-- `adapt` -/
def adapt (delta numPoints : ℕ) (firstTime : Bool) : ℤ :=
  let d : ℤ := if firstTime then (delta / DAMP : ℕ) else shiftRight delta
  let d := d + d / numPoints
  adaptLoop d.toNat d 0

/-- `basicToDigit` -/
def basicToDigit (codePoint : ℕ) : ℕ :=
  if 0x30 ≤ codePoint ∧ codePoint < 0x3a then codePoint - 0x16
  else if 0x41 ≤ codePoint ∧ codePoint < 0x5b then codePoint - 0x41
  else if 0x61 ≤ codePoint ∧ codePoint < 0x7b then codePoint - 0x61
  else BASE

/-- Why a label is not decoded. -/
inductive DecodeError where
  /-- "invalid punycode: truncated" -/
  | truncated
  /-- "invalid punycode: bad digit" -/
  | badDigit
  /-- `String.fromCodePoint` has thrown. -/
  | range
  deriving DecidableEq

/-- `t`: what the digit at `k` is compared with. -/
def threshold (bias : ℤ) (k : ℕ) : ℕ :=
  if (k : ℤ) ≤ bias then T_MIN else if bias + T_MAX ≤ k then T_MAX else (k - bias).toNat

/-- The inner loop of `decodeACE`: `i` behind a number, and what is left. -/
def readDelta (bias : ℤ) : ℕ → ℕ → ℕ → Str → Except DecodeError (ℕ × Str)
  | _, _, _, [] => .error .truncated
  | k, w, i, u :: input =>
    let digit := basicToDigit u.toNat
    if BASE ≤ digit then .error .badDigit
    else
      let t := threshold bias k
      if digit < t then .ok (i + digit * w, input)
      else readDelta bias (k + BASE) (w * (BASE - t)) (i + digit * w) input

/-- The outer loop of `decodeACE`, in at most `fuel` rounds. -/
def decodeLoop : ℕ → ℤ → ℕ → ℕ → List ℕ → Str → Except DecodeError (List ℕ)
  | _, _, _, _, output, [] => .ok output
  | 0, _, _, _, _, _ :: _ => .error .truncated
  | fuel + 1, bias, n, i, output, u :: input => do
    let (j, rest) ← readDelta bias BASE 1 i (u :: input)
    let outLength := output.length + 1
    decodeLoop fuel (adapt (j - i) outLength (i = 0)) (n + j / outLength) (j % outLength + 1)
      (output.insertIdx (j % outLength) (n + j / outLength)) rest

/-- `basicLength`: where the last delimiter is, or zero. -/
def basicLength (input : Str) : ℕ := input.length - 1 - input.reverse.idxOf DELIMITER

/-- The code points that `decodeACE` makes a string of. Each round takes a unit at least. -/
def codePoints (input : Str) : Except DecodeError (List ℕ) :=
  let b := basicLength input
  decodeLoop input.length INITIAL_BIAS INITIAL_N 0 ((input.take b).map (·.toNat))
    (input.drop (if b > 0 then b + 1 else 0))

/-- The units of a code point. -/
def unitsOf (c : ℕ) : Str :=
  if c < 0x10000 then [.ofNat c]
  else [.ofNat (0xD800 + (c - 0x10000) / 0x400), .ofNat (0xDC00 + (c - 0x10000) % 0x400)]

/-- `String.fromCodePoint` -/
def fromCodePoint (output : List ℕ) : Except DecodeError Str :=
  if ∀ c ∈ output, c ≤ 0x10FFFF then .ok (output.flatMap unitsOf) else .error .range

/-- `decodeACE` -/
def decodeACE (input : Str) : Except DecodeError Str := codePoints input >>= fromCodePoint

/-- `s` as the units of a string. -/
def units (s : String) : Str := s.toList.map fun c => .ofNat c.toNat

/-- `label.toLowerCase().startsWith('xn--')`: no characters but `X` and `N` have `x` and `n` as their lower case. -/
def isACE (label : Str) : Bool :=
  ["xn--", "Xn--", "xN--", "XN--"].any fun p => (units p).isPrefixOf label

/-- `decodeLabel` -/
def decodeLabel (label : Str) : Str :=
  if isACE label then
    match decodeACE (label.drop 4) with
    | .ok s => s
    | .error _ => label
  else label

/-- `decodeIDN` -/
def decodeIDN (hostname : Str) : Str := [46].intercalate ((hostname.splitOn 46).map decodeLabel)

/-- A name in German, a wildcard, and a label that is cut off. -/
example : decodeIDN (units "*.xn--mnchen-3ya.xn--mnchen-3y") = units "*.münchen.xn--mnchen-3y" := by decide

/-! ### The encoder -/

def rfcAdaptLoop (d k : ℕ) : ℕ :=
  if 455 < d then rfcAdaptLoop (d / 35) (k + 36) else k + 36 * d / (d + 38)
termination_by d

/-- How the procedure adapts its bias. -/
def rfcAdapt (delta numPoints : ℕ) (firstTime : Bool) : ℤ :=
  let d := if firstTime then delta / 700 else delta / 2
  rfcAdaptLoop (d + d / numPoints) 0

theorem threshold_eq (bias : ℤ) (k : ℕ) :
    threshold bias k = if (k : ℤ) ≤ bias then 1 else if bias + 26 ≤ k then 26 else (k - bias).toNat := rfl

theorem threshold_pos (bias : ℤ) (k : ℕ) : 0 < threshold bias k := by
  rw [threshold_eq]
  split_ifs <;> omega

theorem threshold_lt (bias : ℤ) (k : ℕ) : threshold bias k < 36 := by
  rw [threshold_eq]
  split_ifs <;> omega

/-- The thresholds from the digit at `k` on. -/
def thrFrom (k : ℕ) (bias : ℤ) : Thresholds 36 :=
  ⟨fun j => threshold bias (k + 36 * j), fun _ => threshold_pos _ _, fun _ => threshold_lt _ _⟩

/-- A digit in lower case. -/
def digitUnit (d : ℕ) : UInt16 := .ofNat (if d < 26 then d + 97 else d + 22)

/-- The characters of a label that are told by themselves. -/
def basics (text : List ℕ) : List ℕ := text.filter (· < 128)

/-- The procedure for encoding. -/
def encode (text : List ℕ) : Str :=
  (basics text).map UInt16.ofNat ++ (if basics text = [] then [] else [DELIMITER]) ++
    (write (thrFrom 36) rfcAdapt 72 (basics text).length true (deltas text 128 (basics text).length 0)).map digitUnit

/-- A label in ASCII is its own. -/
def toASCII (label : List ℕ) : Str :=
  if ∀ c ∈ label, c < 128 then label.map UInt16.ofNat else units "xn--" ++ encode label

/-! ### Digits -/

variable {bias : ℤ} {k w i n d fuel : ℕ} {ds output out : List ℕ} {input rest : Str}

theorem digitUnit_toNat (hd : d < 36) : (digitUnit d).toNat = if d < 26 then d + 97 else d + 22 := by
  rw [digitUnit, UInt16.toNat_ofNat', Nat.mod_eq_of_lt]
  split_ifs <;> omega

theorem basicToDigit_digitUnit (hd : d < 36) : basicToDigit (digitUnit d).toNat = d := by
  rw [digitUnit_toNat hd, basicToDigit]
  split_ifs <;> omega

theorem tail_thrFrom (k : ℕ) (bias : ℤ) : (thrFrom k bias).tail = thrFrom (k + 36) bias := by
  simp only [thrFrom, Thresholds.tail, Thresholds.mk.injEq]
  funext j
  rw [Nat.mul_succ, Nat.add_assoc, Nat.add_comm 36]

/-- The inner loop reads an integer of variable length. -/
theorem readDelta_digits (hds : ∀ d ∈ ds, d < 36) : readDelta bias k w i (ds.map digitUnit) =
    match readNumber (thrFrom k bias) ds with
    | some (q, rest) => .ok (i + q * w, rest.map digitUnit)
    | none => .error .truncated := by
  induction ds generalizing k w i with
  | nil => rfl
  | cons d ds ih =>
    obtain ⟨hd, hds⟩ := List.forall_mem_cons.mp hds
    rw [List.map_cons, readDelta, readNumber, tail_thrFrom]
    simp only [basicToDigit_digitUnit hd, BASE, Nat.not_le.mpr hd, if_false]
    rw [show (thrFrom k bias).t 0 = threshold bias k from rfl]
    split
    · rfl
    · rw [ih hds]
      cases readNumber (thrFrom (k + 36) bias) ds with
      | none => rfl
      | some r =>
        simp only [Option.map_some, Except.ok.injEq, Prod.mk.injEq, and_true]
        ring

/-- The outer loop reads distances, and puts their numbers. -/
theorem decodeLoop_digits (hds : ∀ d ∈ ds, d < 36) : decodeLoop fuel bias n i output (ds.map digitUnit) =
    match parse (thrFrom 36) adapt fuel bias ⟨output, n, i⟩ ds with
    | some s => .ok s.out
    | none => .error .truncated := by
  induction fuel generalizing bias n i output ds with
  | zero => cases ds <;> rfl
  | succ fuel ih =>
    cases ds with
    | nil => rfl
    | cons d ds =>
      have hread := @readDelta_digits bias 36 1 i _ hds
      rw [List.map_cons] at hread ⊢
      rw [decodeLoop, show BASE = 36 from rfl, hread, parse]
      cases hr : readNumber (thrFrom 36 bias) (d :: ds) with
      | none => rfl
      | some r =>
        obtain ⟨q, rest⟩ := r
        have hrest : ∀ d ∈ rest, d < 36 := by
          intro d' hd'
          rw [digits_of_readNumber hds hr] at hds
          exact hds d' (List.mem_append_right _ hd')
        simp only [Nat.mul_one, Option.bind_some]
        refine Eq.trans ?_ (ih hrest)
        simp only [Nat.add_sub_cancel_left, bind, Except.bind]

/-! ### The two ways to adapt -/

/-- Where the loop ends, the division is one of natural numbers. -/
theorem adaptLoop_end (d k : ℕ) : (k : ℤ) + (((BASE - T_MIN + 1 : ℕ) : ℤ) * d).fdiv (d + SKEW) =
    (k + 36 * d / (d + 38) : ℕ) := by
  have hdiv : (((36 * d : ℕ) : ℤ)).fdiv ((d + 38 : ℕ) : ℤ) = ((36 * d / (d + 38) : ℕ) : ℤ) := (Int.ofNat_fdiv _ _).symm
  have hsum : ((k + 36 * d / (d + 38) : ℕ) : ℤ) = k + (36 * d / (d + 38) : ℕ) := Nat.cast_add _ _
  rw [hsum, ← hdiv]
  push_cast
  rfl

theorem adaptLoop_eq {d k : ℕ} (hfuel : d ≤ fuel) : adaptLoop fuel d k = (rfcAdaptLoop d k : ℕ) := by
  induction fuel generalizing d k with
  | zero =>
    rw [adaptLoop, rfcAdaptLoop, if_neg (by omega), adaptLoop_end]
  | succ fuel ih =>
    have hbound : (((BASE - T_MIN) * T_MAX / 2 : ℕ) : ℤ) < d ↔ 455 < d := Int.ofNat_lt
    rw [adaptLoop, rfcAdaptLoop]
    by_cases hd : 455 < d
    · rw [if_pos (hbound.mpr hd), if_pos hd]
      have hless : d / 35 ≤ fuel := by omega
      exact (congrArg₂ _ (Int.natCast_div d 35).symm (Nat.cast_add k 36).symm).trans (ih hless)
    · rw [if_neg (mt hbound.mp hd), if_neg hd, adaptLoop_end]

theorem bmod_eq {delta : ℕ} (hdelta : delta < 2 ^ 31) : (delta : ℤ).bmod (2 ^ 32) = delta :=
  Int.bmod_eq_of_le (by norm_num) (by norm_num; omega)

theorem shiftRight_eq {delta : ℕ} (hdelta : delta < 2 ^ 31) : shiftRight delta = (delta / 2 : ℕ) :=
  (congrArg (· / 2) (bmod_eq hdelta)).trans (Int.natCast_div delta 2).symm

/-- Below `2 ^ 31` the decoder adapts as the procedure does. -/
theorem adapt_eq {delta : ℕ} (hdelta : delta < 2 ^ 31) : adapt delta = rfcAdapt delta := by
  funext numPoints firstTime
  have hhalf : (if firstTime then ((delta / DAMP : ℕ) : ℤ) else shiftRight delta) =
      ((if firstTime then delta / 700 else delta / 2 : ℕ) : ℤ) := by
    rw [shiftRight_eq hdelta]
    cases firstTime <;> rfl
  simp only [adapt, rfcAdapt, hhalf]
  generalize (if firstTime then delta / 700 else delta / 2) = d
  rw [← Int.natCast_div, ← Nat.cast_add, Int.toNat_natCast]
  exact adaptLoop_eq (Nat.le_refl _)

/-! ### What is encoded is decoded -/

/-- Where decoding begins: behind the characters that are told by themselves. -/
def start (text : List ℕ) : Place := ⟨basics text, 128, 0⟩

theorem start_deltas (text : List ℕ) : ((start text).insertAll (deltas text 128 (basics text).length 0)).out = text :=
  insertAll_deltas rfl rfl ⟨Nat.le_refl _, by simp [start]⟩

/-- The distances in a label of at most 1927 characters. -/
theorem deltas_lt {text : List ℕ} (htext : ∀ c ∈ text, c ≤ 0x10FFFF) (hlen : text.length ≤ 1927) :
    ∀ δ ∈ deltas text 128 (basics text).length 0, δ < 2 ^ 31 := by
  have hlt := @lt_of_mem_distances (start text) (deltas text 128 (basics text).length 0) 0x10FFFF
  rw [start_deltas] at hlt
  intro δ hδ
  have hδ := hlt htext δ hδ
  omega

theorem basicLength_append {B D : Str} (hD : DELIMITER ∉ D) : basicLength (B ++ DELIMITER :: D) = B.length := by
  have hidx : (B ++ DELIMITER :: D).reverse.idxOf DELIMITER = D.length := by
    rw [List.reverse_append, List.reverse_cons, List.append_assoc,
      List.idxOf_append_of_notMem (by simpa using hD), List.length_reverse]
    simp
  rw [basicLength, hidx, List.length_append, List.length_cons]
  omega

theorem basicLength_of_notMem (hinput : DELIMITER ∉ input) : basicLength input = 0 := by
  have hidx : input.reverse.idxOf DELIMITER = input.length := by
    rw [← List.length_reverse, List.idxOf_eq_length_iff]
    simpa using hinput
  rw [basicLength, hidx]
  omega

/-- Behind the last delimiter are the digits. -/
theorem codePoints_append {B D : Str} (hB : B ≠ []) (hD : DELIMITER ∉ D) : codePoints (B ++ DELIMITER :: D) =
    decodeLoop (B ++ DELIMITER :: D).length INITIAL_BIAS INITIAL_N 0 (B.map (·.toNat)) D := by
  have hpos : 0 < B.length := List.length_pos_iff.mpr hB
  simp only [codePoints, basicLength_append hD, if_pos hpos]
  rw [List.take_left, List.append_cons, show B.length + 1 = (B ++ [DELIMITER]).length by simp, List.drop_left]

/-- Without a delimiter everything is digits. -/
theorem codePoints_of_notMem (hinput : DELIMITER ∉ input) : codePoints input =
    decodeLoop input.length INITIAL_BIAS INITIAL_N 0 [] input := by
  simp only [codePoints, basicLength_of_notMem hinput]
  rfl

theorem delimiter_notMem_digits (hds : ∀ d ∈ ds, d < 36) : DELIMITER ∉ ds.map digitUnit := by
  intro hmem
  obtain ⟨d, hd, he⟩ := List.mem_map.mp hmem
  have hdigit := basicToDigit_digitUnit (hds d hd)
  rw [he] at hdigit
  have hnone : basicToDigit DELIMITER.toNat = 36 := rfl
  have hlt := hds d hd
  omega

/-- ASCII is its own code. -/
theorem toNat_basics (text : List ℕ) : ((basics text).map UInt16.ofNat).map (·.toNat) = basics text := by
  rw [List.map_map]
  refine (List.map_congr_left fun c hc => ?_).trans (List.map_id _)
  have hc : c < 128 := by simpa [basics] using List.of_mem_filter hc
  exact UInt16.toNat_ofNat'.trans (Nat.mod_eq_of_lt (by omega))

/-- The distances are read, and the characters put. -/
theorem decodeLoop_write {text : List ℕ} (htext : ∀ c ∈ text, c ≤ 0x10FFFF) (hlen : text.length ≤ 1927)
    (hfuel : (deltas text 128 (basics text).length 0).length ≤ fuel) :
    decodeLoop fuel INITIAL_BIAS INITIAL_N 0 (basics text) ((write (thrFrom 36) rfcAdapt 72 (basics text).length true
      (deltas text 128 (basics text).length 0)).map digitUnit) = .ok text := by
  have hsame : write (thrFrom 36) rfcAdapt 72 (basics text).length true (deltas text 128 (basics text).length 0) =
      write (thrFrom 36) adapt 72 (basics text).length true (deltas text 128 (basics text).length 0) :=
    write_congr _ _ _ fun δ hδ => (adapt_eq (deltas_lt htext hlen δ hδ)).symm
  have hparse : parse (thrFrom 36) adapt fuel INITIAL_BIAS ⟨basics text, INITIAL_N, 0⟩
      (write (thrFrom 36) adapt 72 (basics text).length true (deltas text 128 (basics text).length 0)) = _ :=
    parse_write (s := start text) hfuel
  rw [hsame, decodeLoop_digits (write_lt _ _ _ _), hparse]
  exact congrArg _ (start_deltas text)

/-- The digits of the procedure. -/
theorem encoded_lt (text : List ℕ) : ∀ d ∈ write (thrFrom 36) rfcAdapt 72 (basics text).length true
    (deltas text 128 (basics text).length 0), d < 36 := write_lt _ _ _ _

/-- What the procedure encodes is decoded. -/
theorem codePoints_encode {text : List ℕ} (htext : ∀ c ∈ text, c ≤ 0x10FFFF) (hlen : text.length ≤ 1927) :
    codePoints (encode text) = .ok text := by
  have hdigits := delimiter_notMem_digits (encoded_lt text)
  have hfuel : (deltas text 128 (basics text).length 0).length ≤ (write (thrFrom 36) rfcAdapt 72 (basics text).length
      true (deltas text 128 (basics text).length 0)).length := length_le_length_write _ _ _ _
  rw [encode]
  by_cases hbasics : basics text = []
  · rw [if_pos hbasics, hbasics, List.map_nil, List.nil_append, List.nil_append, codePoints_of_notMem, ← hbasics]
    · refine decodeLoop_write htext hlen ?_
      rw [List.length_map]
      exact hfuel
    · rwa [hbasics] at hdigits
  · rw [if_neg hbasics, List.append_assoc, List.singleton_append, codePoints_append (by simpa using hbasics) hdigits,
      toNat_basics]
    refine decodeLoop_write htext hlen ?_
    simp only [List.length_append, List.length_cons, List.length_map]
    omega

theorem unitsOf_of_lt {c : ℕ} (hc : c < 128) : unitsOf c = [.ofNat c] := if_pos (by omega)

theorem flatMap_unitsOf_of_lt {label : List ℕ} (hlabel : ∀ c ∈ label, c < 128) :
    label.flatMap unitsOf = label.map UInt16.ofNat := by
  induction label with
  | nil => rfl
  | cons c label ih =>
    obtain ⟨hc, hlabel⟩ := List.forall_mem_cons.mp hlabel
    rw [List.flatMap_cons, unitsOf_of_lt hc, ih hlabel]
    rfl

/-- A label of a host name, in any script, that is not read as an encoded one itself. -/
structure IsLabel (label : List ℕ) : Prop where
  le : ∀ c ∈ label, c ≤ 0x10FFFF
  length_le : label.length ≤ 1927
  no_dot : 46 ∉ label
  plain : (∀ c ∈ label, c < 128) → isACE (label.flatMap unitsOf) = false

theorem isACE_units (input : Str) : isACE (units "xn--" ++ input) = true :=
  List.any_eq_true.mpr
    ⟨"xn--", List.mem_cons_self, List.isPrefixOf_iff_prefix.mpr (List.prefix_append _ _)⟩

theorem decodeLabel_toASCII {label : List ℕ} (hlabel : IsLabel label) :
    decodeLabel (toASCII label) = label.flatMap unitsOf := by
  rw [toASCII]
  split
  · rename_i hascii
    rw [← flatMap_unitsOf_of_lt hascii, decodeLabel, hlabel.plain hascii, if_neg Bool.false_ne_true]
  · have hdrop : (units "xn--" ++ encode label).drop 4 = encode label := rfl
    have hdecode : decodeACE (encode label) = .ok (label.flatMap unitsOf) := by
      rw [decodeACE, codePoints_encode hlabel.le hlabel.length_le]
      exact if_pos hlabel.le
    rw [decodeLabel, isACE_units, if_pos rfl, hdrop, hdecode]

theorem dot_notMem_ofNat {label : List ℕ} (hascii : ∀ c ∈ label, c < 128) (hdot : 46 ∉ label) :
    46 ∉ label.map UInt16.ofNat := by
  intro hmem
  obtain ⟨c, hc, he⟩ := List.mem_map.mp hmem
  have hnat : c % 2 ^ 16 = 46 := UInt16.toNat_ofNat'.symm.trans (congrArg UInt16.toNat he)
  rw [Nat.mod_eq_of_lt (Nat.lt_trans (hascii c hc) (by decide))] at hnat
  exact hdot (hnat ▸ hc)

theorem dot_notMem_digits (hds : ∀ d ∈ ds, d < 36) : 46 ∉ ds.map digitUnit := by
  intro hmem
  obtain ⟨d, hd, he⟩ := List.mem_map.mp hmem
  have hdigit := basicToDigit_digitUnit (hds d hd)
  rw [he] at hdigit
  have hnone : basicToDigit (46 : UInt16).toNat = 36 := rfl
  have hlt := hds d hd
  omega

theorem dot_notMem_toASCII {label : List ℕ} (hdot : 46 ∉ label) : 46 ∉ toASCII label := by
  rw [toASCII]
  split
  · rename_i hascii
    exact dot_notMem_ofNat hascii hdot
  · rw [encode]
    have hbasics : 46 ∉ (basics label).map UInt16.ofNat := by
      refine dot_notMem_ofNat (fun c hc => ?_) fun hmem => hdot (List.mem_of_mem_filter hmem)
      simpa [basics] using List.of_mem_filter hc
    have hdigits := dot_notMem_digits (encoded_lt label)
    simp only [List.mem_append, not_or]
    refine ⟨by decide, ⟨hbasics, ?_⟩, hdigits⟩
    split <;> decide

/-- A host name in any script is shown as it was before its labels were encoded. -/
theorem decodeIDN_toASCII {labels : List (List ℕ)} (hne : labels ≠ []) (hlabels : ∀ label ∈ labels, IsLabel label) :
    decodeIDN ([46].intercalate (labels.map toASCII)) = [46].intercalate (labels.map (·.flatMap unitsOf)) := by
  have hdots : ∀ label ∈ labels.map toASCII, 46 ∉ label :=
    List.forall_mem_map.mpr fun label hl => dot_notMem_toASCII (hlabels label hl).no_dot
  rw [decodeIDN, List.splitOn_intercalate 46 hdots (by simpa using hne), List.map_map]
  exact congrArg _ (List.map_congr_left fun label hl => decodeLabel_toASCII (hlabels label hl))

/-- `münchen.de` -/
theorem decodeIDN_toASCII_two :
    decodeIDN ([46].intercalate ([[0x6d, 0xfc, 0x6e, 0x63, 0x68, 0x65, 0x6e], [0x64, 0x65]].map toASCII)) =
      [46].intercalate ([[0x6d, 0xfc, 0x6e, 0x63, 0x68, 0x65, 0x6e], [0x64, 0x65]].map (·.flatMap unitsOf)) := by
  refine decodeIDN_toASCII (List.cons_ne_nil _ _) ?_
  intro label hl
  have hcases : label = [0x6d, 0xfc, 0x6e, 0x63, 0x68, 0x65, 0x6e] ∨ label = [0x64, 0x65] := by simpa using hl
  rcases hcases with rfl | rfl
  · exact ⟨by decide, by decide, by decide, by decide⟩
  · exact ⟨by decide, by decide, by decide, by decide⟩

/-! ### No two names are shown alike -/

/-- What is decoded is digits. -/
theorem digits_of_readDelta {j : ℕ} (h : readDelta bias k w i input = .ok (j, rest)) :
    ∃ ds : Str, input = ds ++ rest ∧ ∀ u ∈ ds, basicToDigit u.toNat < 36 := by
  induction input generalizing k w i with
  | nil => cases h
  | cons u input ih =>
    simp only [readDelta] at h
    by_cases hdigit : BASE ≤ basicToDigit u.toNat
    · rw [if_pos hdigit] at h
      cases h
    · rw [if_neg hdigit] at h
      have hlt : basicToDigit u.toNat < 36 := Nat.not_le.mp hdigit
      by_cases ht : basicToDigit u.toNat < threshold bias k
      · rw [if_pos ht] at h
        obtain ⟨-, rfl⟩ := Prod.mk.inj (Except.ok.inj h)
        exact ⟨[u], rfl, by simpa using hlt⟩
      · rw [if_neg ht] at h
        obtain ⟨ds, rfl, hds⟩ := ih h
        exact ⟨u :: ds, rfl, List.forall_mem_cons.mpr ⟨hlt, hds⟩⟩

theorem digits_of_decodeLoop (h : decodeLoop fuel bias n i output input = .ok out) :
    ∀ u ∈ input, basicToDigit u.toNat < 36 := by
  induction fuel generalizing bias n i output input with
  | zero =>
    cases input with
    | nil => exact fun u hu => absurd hu List.not_mem_nil
    | cons u input => cases h
  | succ fuel ih =>
    cases input with
    | nil => exact fun u hu => absurd hu List.not_mem_nil
    | cons u input =>
      rw [decodeLoop] at h
      cases hr : readDelta bias BASE 1 i (u :: input) with
      | error e =>
        rw [hr] at h
        cases h
      | ok r =>
        obtain ⟨ds, hinput, hds⟩ := digits_of_readDelta hr
        rw [hr] at h
        rw [hinput]
        intro v hv
        rcases List.mem_append.mp hv with hv | hv
        · exact hds v hv
        · exact ih h v hv

/-- A unit that is not an upper-case letter of ASCII, which is the digit that its lower case is. -/
def IsLower (u : UInt16) : Prop := ¬ (0x41 ≤ u.toNat ∧ u.toNat < 0x5b)

instance (u : UInt16) : Decidable (IsLower u) := inferInstanceAs (Decidable (¬ _))

theorem digitUnit_basicToDigit {u : UInt16} (hu : IsLower u) (hdigit : basicToDigit u.toNat < 36) :
    digitUnit (basicToDigit u.toNat) = u := by
  apply UInt16.toNat_inj.mp
  rw [digitUnit_toNat hdigit]
  rw [IsLower] at hu
  revert hdigit
  rw [basicToDigit, BASE]
  split_ifs <;> omega

/-- The digits of what is in lower case. -/
theorem map_digitUnit (hlower : ∀ u ∈ input, IsLower u) (hdigit : ∀ u ∈ input, basicToDigit u.toNat < 36) :
    (input.map fun u => basicToDigit u.toNat).map digitUnit = input := by
  rw [List.map_map]
  exact (List.map_congr_left fun u hu => digitUnit_basicToDigit (hlower u hu) (hdigit u hu)).trans (List.map_id _)

/-- What is decoded has been written. -/
theorem write_of_decodeLoop (hlower : ∀ u ∈ input, IsLower u)
    (h : decodeLoop fuel INITIAL_BIAS INITIAL_N 0 output input = .ok out) :
    ∃ δs, input = (write (thrFrom 36) adapt 72 output.length true δs).map digitUnit ∧
      out = (Place.insertAll ⟨output, 128, 0⟩ δs).out := by
  have hdigit := digits_of_decodeLoop h
  rw [← map_digitUnit hlower hdigit, decodeLoop_digits (List.forall_mem_map.mpr hdigit)] at h
  split at h
  · rename_i s hs
    obtain ⟨δs, hw, rfl⟩ := write_of_parse (List.forall_mem_map.mpr hdigit) hs
    refine ⟨δs, ?_, (Except.ok.inj h).symm⟩
    conv_lhs => rw [← map_digitUnit hlower hdigit, hw]
    rfl
  · cases h

/-- The payload of an encoded label: the characters that are told by themselves, and the digits. -/
def payload (B : Str) (δs : List ℕ) : Str :=
  B ++ (if B = [] then [] else [DELIMITER]) ++ (write (thrFrom 36) adapt 72 B.length true δs).map digitUnit

theorem last_delimiter (hinput : DELIMITER ∈ input) : ∃ B D : Str, input = B ++ DELIMITER :: D ∧ DELIMITER ∉ D := by
  obtain ⟨D, B, hrev, hD⟩ := List.eq_append_cons_of_mem (List.mem_reverse.mpr hinput)
  refine ⟨B.reverse, D.reverse, ?_, by simpa using hD⟩
  rw [← List.reverse_reverse input, hrev]
  simp

/-- What is decoded is a payload. -/
theorem payload_of_codePoints (hlower : ∀ u ∈ input, IsLower u) (h : codePoints input = .ok out) :
    ∃ B δs, input = payload B δs ∧ out = (Place.insertAll ⟨B.map (·.toNat), 128, 0⟩ δs).out := by
  by_cases hmem : DELIMITER ∈ input
  · obtain ⟨B, D, rfl, hD⟩ := last_delimiter hmem
    by_cases hB : B = []
    · -- a delimiter in front is no digit
      subst hB
      have hzero : basicLength (DELIMITER :: D) = 0 := basicLength_append (B := []) hD
      simp only [codePoints, List.nil_append, hzero] at h
      exact absurd (digits_of_decodeLoop h DELIMITER List.mem_cons_self) (by decide)
    · rw [codePoints_append hB hD] at h
      have hlowerD : ∀ u ∈ D, IsLower u := fun u hu =>
        hlower u (List.mem_append_right _ (List.mem_cons_of_mem _ hu))
      obtain ⟨δs, hinput, hout⟩ := write_of_decodeLoop hlowerD h
      rw [List.length_map] at hinput
      exact ⟨B, δs, by rw [payload, if_neg hB, ← hinput, List.append_assoc, List.singleton_append], hout⟩
  · rw [codePoints_of_notMem hmem] at h
    obtain ⟨δs, hinput, hout⟩ := write_of_decodeLoop hlower h
    exact ⟨[], δs, hinput, hout⟩

/-- A code point that is not half of a surrogate pair. -/
def IsScalar (c : ℕ) : Prop := c ≤ 0x10FFFF ∧ ¬ (0xD800 ≤ c ∧ c < 0xE000)

instance (c : ℕ) : Decidable (IsScalar c) := inferInstanceAs (Decidable (_ ∧ _))

theorem toNat_inj_of_lt {m n : ℕ} (hm : m < 0x10000) (hn : n < 0x10000) (h : UInt16.ofNat m = UInt16.ofNat n) :
    m = n := by
  have hnat := congrArg UInt16.toNat h
  rw [UInt16.toNat_ofNat', UInt16.toNat_ofNat'] at hnat
  omega

/-- The first unit says whether it is one of two. -/
theorem unitsOf_append_inj {c c' : ℕ} {l l' : Str} (hc : IsScalar c) (hc' : IsScalar c')
    (h : unitsOf c ++ l = unitsOf c' ++ l') : c = c' ∧ l = l' := by
  obtain ⟨hle, hsur⟩ := hc
  obtain ⟨hle', hsur'⟩ := hc'
  simp only [unitsOf] at h
  split at h <;> split at h
  · rename_i hlt hlt'
    obtain ⟨hu, hl⟩ := List.cons.inj h
    exact ⟨toNat_inj_of_lt hlt hlt' hu, hl⟩
  · rename_i hlt hge'
    have hu := toNat_inj_of_lt hlt (by omega) (List.cons.inj h).1
    omega
  · rename_i hge hlt'
    have hu := toNat_inj_of_lt (by omega) hlt' (List.cons.inj h).1
    omega
  · obtain ⟨hu, hrest⟩ := List.cons.inj h
    obtain ⟨hv, hl⟩ := List.cons.inj hrest
    have hu := toNat_inj_of_lt (by omega) (by omega) hu
    have hv := toNat_inj_of_lt (by omega) (by omega) hv
    exact ⟨by omega, hl⟩

/-- The code points are told by their units. -/
theorem flatMap_unitsOf_injective {out out' : List ℕ} (hout : ∀ c ∈ out, IsScalar c) (hout' : ∀ c ∈ out', IsScalar c)
    (h : out.flatMap unitsOf = out'.flatMap unitsOf) : out = out' := by
  have hne : ∀ c, unitsOf c ≠ [] := by
    intro c
    rw [unitsOf]
    split <;> exact List.cons_ne_nil _ _
  induction out generalizing out' with
  | nil =>
    cases out' with
    | nil => rfl
    | cons c' out' => exact absurd (List.append_eq_nil_iff.mp h.symm).1 (hne c')
  | cons c out ih =>
    cases out' with
    | nil => exact absurd (List.append_eq_nil_iff.mp h).1 (hne c)
    | cons c' out' =>
      obtain ⟨hc, htail⟩ := List.forall_mem_cons.mp hout
      obtain ⟨hc', htail'⟩ := List.forall_mem_cons.mp hout'
      rw [List.flatMap_cons, List.flatMap_cons] at h
      obtain ⟨rfl, hrest⟩ := unitsOf_append_inj hc hc' h
      rw [ih htail htail' hrest]

/-- A label of a host name in lower case. If it is an encoded one, it ends with a digit, and no half of a surrogate
pair is encoded on its own. -/
structure IsHostLabel (label : Str) : Prop where
  -- with some three hundred digits the numbers of the source are infinite
  length_le : label.length ≤ 63
  ascii : ∀ u ∈ label, u < 128
  lower : ∀ u ∈ label, IsLower u
  ends : isACE label = true → label.getLast? ≠ some DELIMITER
  scalar : ∀ out, codePoints (label.drop 4) = .ok out → ∀ c ∈ out, c ≤ 0x10FFFF → IsScalar c

theorem isACE_lower {label : Str} (hlower : ∀ u ∈ label, IsLower u) (h : isACE label = true) :
    label = units "xn--" ++ label.drop 4 := by
  obtain ⟨p, hp, hprefix⟩ := List.any_eq_true.mp h
  obtain ⟨rest, rfl⟩ := List.isPrefixOf_iff_prefix.mp hprefix
  have hcases : p = "xn--" ∨ p = "Xn--" ∨ p = "xN--" ∨ p = "XN--" := by simpa using hp
  rcases hcases with rfl | rfl | rfl | rfl
  · rfl
  · exact absurd (hlower 0x58 (by simp [units])) (by decide)
  · exact absurd (hlower 0x4e (by simp [units])) (by decide)
  · exact absurd (hlower 0x58 (by simp [units])) (by decide)

/-- What a label is decoded to. -/
theorem decodeLabel_cases {label : Str} (hlabel : IsHostLabel label) : decodeLabel label = label ∨
    ∃ B δs, label = units "xn--" ++ payload B δs ∧ δs ≠ [] ∧ (∀ u ∈ B, u ∈ label) ∧
      (∀ c ∈ (Place.insertAll ⟨B.map (·.toNat), 128, 0⟩ δs).out, IsScalar c) ∧
      decodeLabel label = (Place.insertAll ⟨B.map (·.toNat), 128, 0⟩ δs).out.flatMap unitsOf := by
  by_cases hace : isACE label = true
  · have hlabel4 := isACE_lower hlabel.lower hace
    have hlower4 : ∀ u ∈ label.drop 4, IsLower u := fun u hu => hlabel.lower u (List.mem_of_mem_drop hu)
    rw [decodeLabel, if_pos hace]
    cases hcode : codePoints (label.drop 4) with
    | error e =>
      left
      rw [decodeACE, hcode]
      rfl
    | ok out =>
      by_cases hrange : ∀ c ∈ out, c ≤ 0x10FFFF
      · right
        obtain ⟨B, δs, hpayload, hout⟩ := payload_of_codePoints hlower4 hcode
        have hscalar : ∀ c ∈ out, IsScalar c := fun c hc => hlabel.scalar out hcode c hc (hrange c hc)
        have hdecode : decodeACE (label.drop 4) = .ok (out.flatMap unitsOf) := by
          rw [decodeACE, hcode]
          exact if_pos hrange
        refine ⟨B, δs, by rw [← hpayload, ← hlabel4], ?_, ?_, hout ▸ hscalar, by rw [hdecode, hout]⟩
        · rintro rfl
          refine hlabel.ends hace ?_
          rw [hlabel4, hpayload, payload, write, List.map_nil, List.append_nil]
          split
          · rename_i hB
            rw [hB]
            rfl
          · simp
        · intro u hu
          refine List.mem_of_mem_drop (i := 4) ?_
          rw [hpayload, payload, List.append_assoc]
          exact List.mem_append_left _ hu
      · left
        rw [decodeACE, hcode]
        have hthrow : fromCodePoint out = .error .range := if_neg hrange
        simp only [bind, Except.bind, hthrow]
  · left
    rw [decodeLabel, if_neg hace]

/-- Where decoding begins behind `B`. -/
theorem ascends_start {B : Str} (hB : ∀ u ∈ B, u < 128) : Place.Ascends ⟨B.map (·.toNat), 128, 0⟩ := by
  have hlt : ∀ c ∈ B.map (·.toNat), c < 128 := List.forall_mem_map.mpr fun u hu => UInt16.lt_iff_toNat_lt.mp (hB u hu)
  exact ⟨fun c hc => (hlt c hc).le, fun c hc => hlt c (List.mem_of_mem_drop hc)⟩

theorem filter_start {B : Str} (hB : ∀ u ∈ B, u < 128) (δs : List ℕ) :
    (Place.insertAll ⟨B.map (·.toNat), 128, 0⟩ δs).out.filter (· < 128) = B.map (·.toNat) := by
  rw [filter_insertAll (ascends_start hB) (Nat.le_refl 128), List.filter_eq_self]
  exact List.forall_mem_map.mpr fun u hu => by simpa using UInt16.lt_iff_toNat_lt.mp (hB u hu)

/-- A payload is told by what is decoded from it. -/
theorem payload_inj {B B' : Str} {δs δs' : List ℕ} (hB : ∀ u ∈ B, u < 128) (hB' : ∀ u ∈ B', u < 128)
    (h : (Place.insertAll ⟨B.map (·.toNat), 128, 0⟩ δs).out = (Place.insertAll ⟨B'.map (·.toNat), 128, 0⟩ δs').out) :
    payload B δs = payload B' δs' := by
  have hbasic : B.map (·.toNat) = B'.map (·.toNat) := by
    rw [← filter_start hB δs, h, filter_start hB' δs']
  obtain rfl : B = B' := List.map_injective_iff.mpr (fun u v huv => UInt16.toNat_inj.mp huv) hbasic
  rw [insertAll_injective (ascends_start hB) h]

/-- Something is decoded that is not ASCII. -/
theorem exists_of_ne_nil (B : Str) {δs : List ℕ} (hδs : δs ≠ []) :
    ∃ c ∈ (Place.insertAll ⟨B.map (·.toNat), 128, 0⟩ δs).out, 128 ≤ c := by
  obtain ⟨δ, δs, rfl⟩ := List.exists_cons_of_ne_nil hδs
  exact ⟨_, mem_insertAll_out δs (mem_insert_out _ δ _ List.mem_cons_self), Nat.le_add_right _ _⟩

theorem unit_of_le {c : ℕ} (hc : 128 ≤ c) (hscalar : IsScalar c) : ∀ u ∈ unitsOf c, ¬ u < 128 := by
  obtain ⟨hle, -⟩ := hscalar
  have hnot : ∀ m, 128 ≤ m → m < 0x10000 → ¬ UInt16.ofNat m < 128 := by
    intro m hm hlt hu
    have hnat := UInt16.lt_iff_toNat_lt.mp hu
    rw [UInt16.toNat_ofNat', Nat.mod_eq_of_lt hlt] at hnat
    exact absurd hnat (Nat.not_lt.mpr hm)
  intro u hu
  rw [unitsOf] at hu
  split at hu
  · rename_i hlt
    rw [List.mem_singleton.mp hu]
    exact hnot c hc hlt
  · rcases List.mem_cons.mp hu with rfl | hu
    · exact hnot _ (by omega) (by omega)
    · rw [List.mem_singleton.mp hu]
      exact hnot _ (by omega) (by omega)

/-- A label that is decoded is not shown in ASCII. -/
theorem not_ascii_of_ne_nil (B : Str) {δs : List ℕ} (hδs : δs ≠ [])
    (hscalar : ∀ c ∈ (Place.insertAll ⟨B.map (·.toNat), 128, 0⟩ δs).out, IsScalar c) :
    ¬ ∀ u ∈ (Place.insertAll ⟨B.map (·.toNat), 128, 0⟩ δs).out.flatMap unitsOf, u < 128 := by
  intro hascii
  obtain ⟨c, hc, hle⟩ := exists_of_ne_nil B hδs
  have hne : unitsOf c ≠ [] := by
    rw [unitsOf]
    split <;> exact List.cons_ne_nil _ _
  obtain ⟨u, hu⟩ := List.exists_mem_of_ne_nil _ hne
  exact unit_of_le hle (hscalar c hc) u hu (hascii u (List.mem_flatMap.mpr ⟨c, hc, hu⟩))

/-- No two labels are shown alike. -/
theorem decodeLabel_injective {label label' : Str} (hlabel : IsHostLabel label) (hlabel' : IsHostLabel label')
    (h : decodeLabel label = decodeLabel label') : label = label' := by
  rcases decodeLabel_cases hlabel with hsame | ⟨B, δs, heq, hne, hB, hscalar, hdec⟩ <;>
    rcases decodeLabel_cases hlabel' with hsame' | ⟨B', δs', heq', hne', hB', hscalar', hdec'⟩
  · rw [← hsame, h, hsame']
  · rw [hsame, hdec'] at h
    exact absurd (h ▸ hlabel.ascii) (not_ascii_of_ne_nil B' hne' hscalar')
  · rw [hdec, hsame'] at h
    exact absurd (h.symm ▸ hlabel'.ascii) (not_ascii_of_ne_nil B hne hscalar)
  · rw [hdec, hdec'] at h
    have hout := flatMap_unitsOf_injective hscalar hscalar' h
    rw [heq, heq', payload_inj (fun u hu => hlabel.ascii u (hB u hu)) (fun u hu => hlabel'.ascii u (hB' u hu)) hout]

/-- No dot is decoded. -/
theorem dot_notMem_decodeLabel {label : Str} (hlabel : IsHostLabel label) (hdot : 46 ∉ label) :
    46 ∉ decodeLabel label := by
  rcases decodeLabel_cases hlabel with hsame | ⟨B, δs, -, -, hB, hscalar, hdec⟩
  · rwa [hsame]
  · rw [hdec]
    intro hmem
    obtain ⟨c, hc, hu⟩ := List.mem_flatMap.mp hmem
    by_cases hlt : c < 128
    · have hmemB : c ∈ B.map (·.toNat) := by
        rw [← filter_start (fun u hu => hlabel.ascii u (hB u hu)) δs]
        exact List.mem_filter.mpr ⟨hc, by simpa using hlt⟩
      obtain ⟨u, huB, rfl⟩ := List.mem_map.mp hmemB
      rw [unitsOf_of_lt hlt, List.mem_singleton, UInt16.ofNat_toNat] at hu
      exact hdot (hu ▸ hB u huB)
    · exact unit_of_le (Nat.not_lt.mp hlt) (hscalar c hc) 46 hu (by decide)

theorem map_decodeLabel_injective {ls ls' : List Str} (hls : ∀ label ∈ ls, IsHostLabel label)
    (hls' : ∀ label ∈ ls', IsHostLabel label) (h : ls.map decodeLabel = ls'.map decodeLabel) : ls = ls' := by
  induction ls generalizing ls' with
  | nil => exact (List.map_eq_nil_iff.mp h.symm).symm
  | cons label ls ih =>
    cases ls' with
    | nil => cases h
    | cons label' ls' =>
      obtain ⟨hlabel, htail⟩ := List.forall_mem_cons.mp hls
      obtain ⟨hlabel', htail'⟩ := List.forall_mem_cons.mp hls'
      obtain ⟨hhead, hrest⟩ := List.cons.inj h
      rw [decodeLabel_injective hlabel hlabel' hhead, ih htail htail' hrest]

/-- A host name in lower case. -/
def IsHostname (name : Str) : Prop := ∀ label ∈ name.splitOn 46, IsHostLabel label

theorem splitOn_decodeIDN {name : Str} (hname : IsHostname name) :
    (decodeIDN name).splitOn 46 = (name.splitOn 46).map decodeLabel := by
  refine List.splitOn_intercalate 46 (List.forall_mem_map.mpr fun label hl => ?_) (by simp)
  exact dot_notMem_decodeLabel (hname label hl) (notMem_of_mem_splitOn hl)

theorem isHostname_one {label : Str} (out : List ℕ) (hlength : label.length ≤ 63)
    (hunits : (label.all fun u => u < 128 && IsLower u) = true) (hends : label.getLast? ≠ some DELIMITER)
    (hcode : codePoints (label.drop 4) = .ok out) (hout : ∀ c ∈ out, IsScalar c) (hdot : 46 ∉ label) :
    IsHostname label := by
  have hunits : ∀ u ∈ label, u < 128 ∧ IsLower u := by simpa using hunits
  rw [IsHostname, List.splitOn_eq_singleton hdot, List.forall_mem_singleton]
  refine ⟨hlength, fun u hu => (hunits u hu).1, fun u hu => (hunits u hu).2, fun _ => hends, fun out' hout' c hc _ => ?_⟩
  obtain rfl := Except.ok.inj (hcode.symm.trans hout')
  exact hout c hc

end OpenshiftConsole.CertManager.Punycode
