import Mathlib.Data.List.Basic
import Mathlib.Tactic.Common

/-!
# Base 64

Three bytes are four digits of six bits; what is left over at the end is padded. Decoding what was
encoded gives it back (`decode_encode`).
-/

namespace OpenshiftConsole.Library.Base64

/-- The digits. -/
def alphabet : List Char := "ABCDEFGHIJKLMNOPQRSTUVWXYZabcdefghijklmnopqrstuvwxyz0123456789+/".toList

def digit (n : ℕ) : Char := alphabet.getD n '='

def value (c : Char) : ℕ := alphabet.idxOf c

def encode : List UInt8 → List Char
  | [] => []
  | [a] => [digit (a.toNat / 4), digit (a.toNat % 4 * 16), '=', '=']
  | [a, b] => [digit (a.toNat / 4), digit (a.toNat % 4 * 16 + b.toNat / 16), digit (b.toNat % 16 * 4), '=']
  | a :: b :: c :: bs =>
    digit (a.toNat / 4) :: digit (a.toNat % 4 * 16 + b.toNat / 16) ::
      digit (b.toNat % 16 * 4 + c.toNat / 64) :: digit (c.toNat % 64) :: encode bs

/-- The bytes of four digits, of which the last may be padding. -/
def group (p q r s : Char) : List UInt8 :=
  let a := UInt8.ofNat (value p * 4 + value q / 16)
  let b := UInt8.ofNat (value q % 16 * 16 + value r / 4)
  let c := UInt8.ofNat (value r % 4 * 64 + value s)
  if r = '=' then [a] else if s = '=' then [a, b] else [a, b, c]

def decode : List Char → List UInt8
  | p :: q :: r :: s :: cs => group p q r s ++ decode cs
  | _ => []

/-- The digits without padding, if there are as many as padding makes whole. -/
def unpad (cs : List Char) : List Char :=
  if cs.length % 4 ≠ 0 then cs
  else if ['=', '='] <:+ cs then cs.dropLast.dropLast
  else if ['='] <:+ cs then cs.dropLast
  else cs

def isSpace (c : Char) : Bool := c ∈ ['\t', '\n', '\x0c', '\r', ' ']

/-- As browsers read it: white space is left out, and padding may be left out. -/
def forgiving (cs : List Char) : Option (List UInt8) :=
  let digits := unpad (cs.filter (!isSpace ·))
  if digits.length % 4 = 1 ∨ ¬ digits.all (· ∈ alphabet) then none
  else some (decode (digits ++ List.replicate ((4 - digits.length % 4) % 4) '='))

theorem value_digit {n : ℕ} (h : n < 64) : value (digit n) = n := by
  have hall : ∀ n < 64, value (digit n) = n := by decide +kernel
  exact hall n h

theorem digit_ne {n : ℕ} (h : n < 64) : digit n ≠ '=' := by
  have hall : ∀ n < 64, digit n ≠ '=' := by decide +kernel
  exact hall n h

theorem ofNat_eq {n : ℕ} {a : UInt8} (h : n = a.toNat) : UInt8.ofNat n = a := by
  subst h
  exact UInt8.ofNat_toNat

theorem decode_encode (bs : List UInt8) : decode (encode bs) = bs := by
  induction bs using encode.induct with
  | case1 => rfl
  | case2 a =>
    have ha := a.toNat_lt
    rw [encode, decode, group]
    rw [value_digit (by omega), value_digit (by omega), if_pos rfl, ofNat_eq (a := a) (by omega)]
    rfl
  | case3 a b =>
    have ha := a.toNat_lt
    have hb := b.toNat_lt
    rw [encode, decode, group]
    rw [if_neg (digit_ne (by omega)), if_pos rfl, value_digit (by omega), value_digit (by omega), value_digit (by omega),
      ofNat_eq (a := a) (by omega), ofNat_eq (a := b) (by omega)]
    rfl
  | case4 a b c bs ih =>
    have ha := a.toNat_lt
    have hb := b.toNat_lt
    have hc := c.toNat_lt
    rw [encode, decode, group]
    rw [if_neg (digit_ne (by omega)), if_neg (digit_ne (by omega)), value_digit (by omega), value_digit (by omega),
      value_digit (by omega), value_digit (by omega), ofNat_eq (a := a) (by omega), ofNat_eq (a := b) (by omega),
      ofNat_eq (a := c) (by omega), ih]
    rfl

theorem digit_mem (n : ℕ) (h : n < 64) : digit n ∈ alphabet := by
  have hall : ∀ n < 64, digit n ∈ alphabet := by decide +kernel
  exact hall n h

theorem not_mem_alphabet {c : Char} (h : c = '=' ∨ isSpace c = true) : c ∉ alphabet := by
  have hall : (alphabet.all fun c => c != '=' && !isSpace c) = true := by decide +kernel
  intro hc
  have hne := List.all_eq_true.mp hall c hc
  rcases h with rfl | h
  · simp at hne
  · simp [h] at hne

theorem toNat_lt_of_mem {c : Char} (h : c ∈ alphabet) : c.toNat < 128 := by
  have hall : (alphabet.all fun c => decide (c.toNat < 128)) = true := by decide +kernel
  exact of_decide_eq_true (List.all_eq_true.mp hall c h)

/-- What is encoded are digits, and padding to a multiple of four. -/
theorem exists_digits (bs : List UInt8) : ∃ ds k, encode bs = ds ++ List.replicate k '=' ∧ k ≤ 2 ∧
    (∀ c ∈ ds, c ∈ alphabet) ∧ (ds.length + k) % 4 = 0 := by
  induction bs using encode.induct with
  | case1 => exact ⟨[], 0, rfl, by omega, by simp, rfl⟩
  | case2 a =>
    have ha := a.toNat_lt
    refine ⟨[digit (a.toNat / 4), digit (a.toNat % 4 * 16)], 2, rfl, by omega, ?_, by simp⟩
    simp [digit_mem _ (show a.toNat / 4 < 64 by omega), digit_mem _ (show a.toNat % 4 * 16 < 64 by omega)]
  | case3 a b =>
    have ha := a.toNat_lt
    have hb := b.toNat_lt
    refine ⟨[digit (a.toNat / 4), digit (a.toNat % 4 * 16 + b.toNat / 16), digit (b.toNat % 16 * 4)], 1, rfl,
      by omega, ?_, by simp⟩
    simp [digit_mem _ (show a.toNat / 4 < 64 by omega),
      digit_mem _ (show a.toNat % 4 * 16 + b.toNat / 16 < 64 by omega),
      digit_mem _ (show b.toNat % 16 * 4 < 64 by omega)]
  | case4 a b c bs ih =>
    have ha := a.toNat_lt
    have hb := b.toNat_lt
    have hc := c.toNat_lt
    obtain ⟨ds, k, hds, hk, hmem, hlen⟩ := ih
    refine ⟨digit (a.toNat / 4) :: digit (a.toNat % 4 * 16 + b.toNat / 16) ::
      digit (b.toNat % 16 * 4 + c.toNat / 64) :: digit (c.toNat % 64) :: ds, k, by rw [encode, hds]; rfl, hk, ?_, ?_⟩
    · simp only [List.forall_mem_cons]
      exact ⟨digit_mem _ (by omega), digit_mem _ (by omega), digit_mem _ (by omega), digit_mem _ (by omega), hmem⟩
    · simp only [List.length_cons]
      omega

theorem unpad_append {ds : List Char} {k : ℕ} (hk : k ≤ 2) (hds : '=' ∉ ds) (hlen : (ds.length + k) % 4 = 0) :
    unpad (ds ++ List.replicate k '=') = ds := by
  have hlast : ¬ ['='] <:+ ds := fun h => hds (h.subset List.mem_cons_self)
  have hboth : ¬ ['=', '='] <:+ ds := fun h => hds (h.subset List.mem_cons_self)
  unfold unpad
  rw [if_neg (by simp [hlen])]
  obtain rfl | rfl | rfl : k = 0 ∨ k = 1 ∨ k = 2 := by omega
  · rw [List.replicate_zero, List.append_nil, if_neg hboth, if_neg hlast]
  · have hone : ¬ ['=', '='] <:+ ds ++ ['='] := fun h =>
      hlast ((@List.suffix_append_self_iff _ ['='] ds ['=']).mp h)
    rw [List.replicate_one, if_neg hone, if_pos (List.suffix_append _ _), List.dropLast_concat]
  · show (if ['=', '='] <:+ ds ++ ['=', '='] then (ds ++ ['=', '=']).dropLast.dropLast else _) = ds
    rw [if_pos (List.suffix_append _ _)]
    simp

/-- What is encoded is read with its padding. -/
theorem forgiving_encode (bs : List UInt8) : forgiving (encode bs) = some bs := by
  obtain ⟨ds, k, hds, hk, hmem, hlen⟩ := exists_digits bs
  have hspace : (encode bs).filter (!isSpace ·) = encode bs := by
    refine List.filter_eq_self.mpr fun c hc => ?_
    rw [hds, List.mem_append, List.mem_replicate] at hc
    rcases hc with hc | ⟨-, rfl⟩
    · exact Bool.not_eq_true' _ ▸ Bool.eq_false_iff.mpr fun hs => not_mem_alphabet (.inr hs) (hmem c hc)
    · rfl
  have hpad : '=' ∉ ds := fun h => not_mem_alphabet (.inl rfl) (hmem '=' h)
  have hk' : (4 - ds.length % 4) % 4 = k := by omega
  rw [forgiving, hspace, hds, unpad_append hk hpad hlen]
  rw [if_neg, hk', ← hds, decode_encode]
  rintro (hone | hall)
  · omega
  · exact hall (List.all_eq_true.mpr fun c hc => decide_eq_true (hmem c hc))

end OpenshiftConsole.Library.Base64
