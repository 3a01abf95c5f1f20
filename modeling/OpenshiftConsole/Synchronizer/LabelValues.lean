import Mathlib.Data.List.DropRight
import OpenshiftConsole.Library.Utf8
import OpenshiftConsole.Synchronizer.NodeLabels

/-!
# Values of labels

`sanitizeLabelValue` makes a label's value of any string: what is no character of a value becomes
a dash, separators at the ends are taken off, and what is too long is cut. The cut can bring a separator to
the end, which is taken off too; the beginning is not touched again (`sanitizeLabelValue_isValue`).

A string is bytes. The regular expression sees its runes, of which each byte that is not UTF-8
is one, and what it leaves is ASCII, so that from there on a character is a byte.
-/

namespace OpenshiftConsole.Synchronizer.NodeLabels

open OpenshiftConsole.Library
open OpenshiftConsole.Library.Lines (Text)

/-- A letter or a digit of ASCII. -/
def alphanumeric (c : Char) : Bool := ('A' ≤ c ∧ c ≤ 'Z') ∨ ('a' ≤ c ∧ c ≤ 'z') ∨ ('0' ≤ c ∧ c ≤ '9')

/-- The characters of a value, and how it begins and ends. -/
structure IsValue (v : Text) : Prop where
  length_le : v.length ≤ 63
  chars : ∀ c ∈ v, alphanumeric c = true ∨ c = '-' ∨ c = '_' ∨ c = '.'
  first : ∃ c, v.head? = some c ∧ alphanumeric c = true
  last : ∃ c, v.getLast? = some c ∧ alphanumeric c = true

variable {s : Text} {c : Char}

/-! ### The steps -/

theorem labelChar_iff : labelChar c = true ↔ alphanumeric c = true ∨ c = '-' ∨ c = '_' ∨ c = '.' := by
  simp only [labelChar, alphanumeric, decide_eq_true_eq]
  tauto

/-- A character of a value that is no separator. -/
theorem alphanumeric_of (hc : labelChar c = true) (hcut : inCutset c = false) : alphanumeric c = true := by
  rw [inCutset, decide_eq_false_iff_not] at hcut
  exact (labelChar_iff.mp hc).resolve_right fun h => hcut (by tauto)

theorem not_inCutset (hc : alphanumeric c = true) : inCutset c = false := by
  rw [inCutset, decide_eq_false_iff_not]
  rintro (rfl | rfl | rfl) <;> cases hc

/-- The replacement leaves characters of values only. -/
theorem labelChar_of_mem_replaceInvalid {inRun : Bool} (h : c ∈ replaceInvalid inRun s) : labelChar c = true := by
  induction s generalizing inRun with
  | nil => cases h
  | cons d s ih =>
    rw [replaceInvalid] at h
    split at h
    · rcases List.mem_cons.mp h with rfl | h
      · assumption
      · exact ih h
    · split at h
      · exact ih h
      · rcases List.mem_cons.mp h with rfl | h
        · rfl
        · exact ih h

/-- The replacement leaves what has such characters only. -/
theorem replaceInvalid_eq_self {inRun : Bool} (h : ∀ c ∈ s, labelChar c = true) : replaceInvalid inRun s = s := by
  induction s generalizing inRun with
  | nil => rfl
  | cons d s ih =>
    rw [List.forall_mem_cons] at h
    rw [replaceInvalid, if_pos h.1, ih h.2]

theorem trimRight_starts (s : Text) : trimRight s <+: s := List.rdropWhile_prefix inCutset s

/-- What is trimmed ends in no separator. -/
theorem trimRight_last (h : trimRight s ≠ []) : ∃ c, (trimRight s).getLast? = some c ∧ inCutset c = false :=
  ⟨_, List.getLast?_eq_some_getLast h, Bool.not_eq_true _ ▸ List.rdropWhile_last_not inCutset s h⟩

theorem trimRight_eq_self (hc : s.getLast? = some c) (hcut : inCutset c = false) : trimRight s = s := by
  refine List.rdropWhile_eq_self_iff.mpr fun hne => ?_
  rw [List.getLast?_eq_some_getLast hne, Option.some.injEq] at hc
  rw [hc, hcut]
  exact Bool.false_ne_true

/-- What begins a trimmed text is no separator. -/
theorem head_of_dropWhile (h : (s.dropWhile inCutset).head? = some c) : inCutset c = false := by
  have := List.head?_dropWhile_not inCutset s
  rw [h] at this
  simpa using this

/-- A prefix that is not empty begins as the whole. -/
theorem head_of_start {t : Text} (h : t <+: s) (hc : t.head? = some c) : s.head? = some c := by
  obtain ⟨u, rfl⟩ := h
  rw [List.head?_append, hc]
  rfl

/-! ### The whole -/

/-- Cutting and trimming at the end leave the beginning of what was trimmed. -/
theorem sanitizeLabelValue_starts (s : Text) : sanitizeLabelValue s <+: (replaceInvalid false s).dropWhile inCutset := by
  rw [sanitizeLabelValue, trim]
  split
  · exact (trimRight_starts _).trans ((List.take_prefix 63 _).trans (trimRight_starts _))
  · exact trimRight_starts _

theorem length_sanitizeLabelValue_le (s : Text) : (sanitizeLabelValue s).length ≤ 63 := by
  rw [sanitizeLabelValue]
  split
  · exact Nat.le_trans (trimRight_starts _).length_le (List.length_take_le 63 _)
  · omega

theorem sanitizeLabelValue_last (h : sanitizeLabelValue s ≠ []) :
    ∃ c, (sanitizeLabelValue s).getLast? = some c ∧ inCutset c = false := by
  rw [sanitizeLabelValue, trim] at *
  split
  · rename_i hlong
    rw [if_pos hlong] at h
    exact trimRight_last h
  · rename_i hshort
    rw [if_neg hshort] at h
    exact trimRight_last h

/-- What `sanitizeLabelValue` gives is nothing, or a value. -/
theorem sanitizeLabelValue_isValue (h : sanitizeLabelValue s ≠ []) : IsValue (sanitizeLabelValue s) := by
  have hchars : ∀ c ∈ sanitizeLabelValue s, labelChar c = true := fun c hc =>
    labelChar_of_mem_replaceInvalid ((List.dropWhile_sublist _).subset ((sanitizeLabelValue_starts s).subset hc))
  obtain ⟨c, hc⟩ : ∃ c, (sanitizeLabelValue s).head? = some c := ⟨_, List.head?_eq_some_head h⟩
  obtain ⟨d, hd, hcut⟩ := sanitizeLabelValue_last h
  have hfirst := head_of_dropWhile (head_of_start (sanitizeLabelValue_starts s) hc)
  exact
    { length_le := length_sanitizeLabelValue_le s
      chars := fun c hc => labelChar_iff.mp (hchars c hc)
      first := ⟨c, hc, alphanumeric_of (hchars c (List.mem_of_head? hc)) hfirst⟩
      last := ⟨d, hd, alphanumeric_of (hchars d (List.mem_of_getLast? hd)) hcut⟩ }

/-- A value stays as it is. -/
theorem IsValue.sanitizeLabelValue (h : IsValue s) : sanitizeLabelValue s = s := by
  obtain ⟨c, hc, hfirst⟩ := h.first
  obtain ⟨d, hd, hlast⟩ := h.last
  have hdrop : s.dropWhile inCutset = s := by
    obtain ⟨t, rfl⟩ := List.head?_eq_some_iff.mp hc
    rw [List.dropWhile_cons, not_inCutset hfirst]
    rfl
  have htrim : trim (replaceInvalid false s) = s := by
    rw [replaceInvalid_eq_self fun c hc => labelChar_iff.mpr (h.chars c hc), trim, hdrop,
      trimRight_eq_self hd (not_inCutset hlast)]
  rw [NodeLabels.sanitizeLabelValue, htrim]
  exact if_neg (Nat.not_lt.mpr h.length_le)

/-! ### Bytes -/

/-- `sanitizeLabelValue`, of a string of bytes. -/
def sanitizeLabelValueBytes (s : List UInt8) : List UInt8 := Utf8.encode (sanitizeLabelValue (Utf8.runes s))

/-- The bytes of a value. -/
def IsValueBytes (v : List UInt8) : Prop := ∃ t, IsValue t ∧ v = Utf8.encode t

/-- The characters of a value are ASCII. -/
theorem toNat_lt_of_labelChar (h : labelChar c = true) : c.toNat < 0x80 := by
  simp only [labelChar, decide_eq_true_eq, Char.le_def, UInt32.le_iff_toNat_le] at h
  rcases h with h | h | h | rfl | rfl | rfl
  · exact Nat.lt_of_le_of_lt h.2 (by decide)
  · exact Nat.lt_of_le_of_lt h.2 (by decide)
  · exact Nat.lt_of_le_of_lt h.2 (by decide)
  all_goals decide

/-- The bytes of a value are its characters. -/
theorem IsValue.runes_encode (h : IsValue s) : Utf8.runes (Utf8.encode s) = s := by
  have hascii : ∀ c ∈ s, c.toNat < 0x80 := fun c hc => toNat_lt_of_labelChar (labelChar_iff.mpr (h.chars c hc))
  have hbyte : ∀ c ∈ s, c.val.toUInt8.toNat = c.toNat := fun c hc => by
    have := hascii c hc
    exact (UInt32.toNat_toUInt8 c.val).trans (Nat.mod_eq_of_lt (Nat.lt_of_lt_of_le this (by decide)))
  rw [Utf8.encode_ascii hascii, Utf8.runes_ascii, List.map_map]
  · refine (List.map_congr_left fun c hc => ?_).trans (List.map_id s)
    rw [Function.comp_apply, hbyte c hc, Char.ofNat_toNat, id]
  · intro b hb
    obtain ⟨c, hc, rfl⟩ := List.mem_map.mp hb
    rw [hbyte c hc]
    exact hascii c hc

/-- **What `sanitizeLabelValue` gives is nothing, or a value**, whatever the bytes; a value it leaves, and so what it gave. -/
theorem sanitizeLabelValueBytes_isValue (s : List UInt8) :
    (sanitizeLabelValueBytes s = [] ∨ IsValueBytes (sanitizeLabelValueBytes s)) ∧
      (∀ v, IsValueBytes v → sanitizeLabelValueBytes v = v) ∧
      sanitizeLabelValueBytes (sanitizeLabelValueBytes s) = sanitizeLabelValueBytes s := by
  have hfix : ∀ v, IsValueBytes v → sanitizeLabelValueBytes v = v := by
    rintro v ⟨t, ht, rfl⟩
    rw [sanitizeLabelValueBytes, ht.runes_encode, ht.sanitizeLabelValue]
  have hvalue : sanitizeLabelValueBytes s = [] ∨ IsValueBytes (sanitizeLabelValueBytes s) := by
    by_cases h : sanitizeLabelValue (Utf8.runes s) = []
    · exact .inl (congrArg Utf8.encode h)
    · exact .inr ⟨_, sanitizeLabelValue_isValue h, rfl⟩
  refine ⟨hvalue, hfix, ?_⟩
  rcases hvalue with h | h
  · rw [h]
    rfl
  · exact hfix _ h

end OpenshiftConsole.Synchronizer.NodeLabels
