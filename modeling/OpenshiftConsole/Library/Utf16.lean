import Mathlib.Tactic.Common

/-!
# UTF-16 as UTF-8

What the strings of JavaScript are in bytes: two halves of a surrogate pair are one character, and half of a
pair on its own is U+FFFD. Strings of ASCII are their own bytes, and no others have bytes of ASCII only
(`encode_ascii`, `ascii_of_encode`).
-/

namespace OpenshiftConsole.Library.Utf16

/-- The first half of a surrogate pair. -/
def isHigh (u : UInt16) : Bool := 0xD800 ≤ u.toNat ∧ u.toNat < 0xDC00

/-- The second half. -/
def isLow (u : UInt16) : Bool := 0xDC00 ≤ u.toNat ∧ u.toNat < 0xE000

/-- The bytes of a character. -/
def bytesOf (code : ℕ) : List UInt8 :=
  if code < 0x80 then [.ofNat code]
  else if code < 0x800 then [.ofNat (0xC0 + code / 0x40), .ofNat (0x80 + code % 0x40)]
  else if code < 0x10000 then
    [.ofNat (0xE0 + code / 0x1000), .ofNat (0x80 + code / 0x40 % 0x40), .ofNat (0x80 + code % 0x40)]
  else
    [.ofNat (0xF0 + code / 0x40000), .ofNat (0x80 + code / 0x1000 % 0x40), .ofNat (0x80 + code / 0x40 % 0x40),
      .ofNat (0x80 + code % 0x40)]

/-- The character of a unit that is not half of a pair. -/
def single (u : UInt16) : ℕ := if isHigh u || isLow u then 0xFFFD else u.toNat

/-- The character of a pair. -/
def pair (u v : UInt16) : ℕ := 0x10000 + (u.toNat - 0xD800) * 0x400 + (v.toNat - 0xDC00)

def encode : List UInt16 → List UInt8
  | [] => []
  | [u] => bytesOf (single u)
  | u :: v :: s => if isHigh u && isLow v then bytesOf (pair u v) ++ encode s else bytesOf (single u) ++ encode (v :: s)

/-- Characters of one to four bytes, and half of a pair. -/
example : encode [0x41, 0xE9, 0x20AC, 0xD83D, 0xDE00, 0xD83D] =
    [0x41, 0xC3, 0xA9, 0xE2, 0x82, 0xAC, 0xF0, 0x9F, 0x98, 0x80, 0xEF, 0xBF, 0xBD] := by
  decide

variable {s : List UInt16} {u v : UInt16} {code : ℕ}

theorem bytesOf_single_ascii (h : u < 0x80) : bytesOf (single u) = [u.toUInt8] := by
  have hu : u.toNat < 0x80 := UInt16.lt_iff_toNat_lt.mp h
  have hhigh : isHigh u = false := decide_eq_false (by omega)
  have hlow : isLow u = false := decide_eq_false (by omega)
  simp only [single, hhigh, hlow, Bool.or_self, Bool.false_eq_true, if_false, bytesOf, if_pos hu]
  rfl

theorem not_isHigh (h : u < 0x80) : isHigh u = false := by
  have hu : u.toNat < 0x80 := UInt16.lt_iff_toNat_lt.mp h
  exact decide_eq_false (by omega)

theorem encode_ascii_cons (h : u < 0x80) (s : List UInt16) : encode (u :: s) = u.toUInt8 :: encode s := by
  cases s with
  | nil => exact bytesOf_single_ascii h
  | cons v s =>
    rw [encode, not_isHigh h, Bool.false_and, if_neg Bool.false_ne_true, bytesOf_single_ascii h]
    rfl

/-- ASCII is its own bytes. -/
theorem encode_ascii (h : ∀ u ∈ s, u < 0x80) : encode s = s.map (·.toUInt8) := by
  induction s with
  | nil => rfl
  | cons u s ih =>
    rw [encode_ascii_cons (h u List.mem_cons_self), ih fun v hv => h v (List.mem_cons_of_mem _ hv), List.map_cons]

/-- Another character has a byte that is not ASCII. -/
theorem lt_of_bytesOf (h : ∀ b ∈ bytesOf code, b < 0x80) : code < 0x80 := by
  by_contra hcode
  have hlast : UInt8.ofNat (0x80 + code % 0x40) ∈ bytesOf code := by
    rw [bytesOf, if_neg hcode]
    split_ifs <;> simp
  have hlt := UInt8.lt_iff_toNat_lt.mp (h _ hlast)
  rw [UInt8.toNat_ofNat', Nat.mod_eq_of_lt (by omega)] at hlt
  exact absurd hlt (Nat.not_lt.mpr (Nat.le_add_right _ _))

theorem lt_of_single (h : single u < 0x80) : u < 0x80 := by
  rw [single] at h
  split_ifs at h
  · exact absurd h (by decide)
  · exact UInt16.lt_iff_toNat_lt.mpr h

theorem le_pair : 0x10000 ≤ pair u v :=
  Nat.le_trans (Nat.le_add_right _ ((u.toNat - 0xD800) * 0x400)) (Nat.le_add_right _ _)

/-- Bytes of ASCII are those of ASCII only. -/
theorem ascii_of_encode (h : ∀ b ∈ encode s, b < 0x80) : ∀ u ∈ s, u < 0x80 := by
  induction s using encode.induct with
  | case1 => exact fun u hu => absurd hu List.not_mem_nil
  | case2 u =>
    have hu : u < 0x80 := lt_of_single (lt_of_bytesOf h)
    simpa using hu
  | case3 u v s hpair ih =>
    rw [encode, if_pos hpair] at h
    have hcode : pair u v < 0x80 := lt_of_bytesOf fun b hb => h b (List.mem_append_left _ hb)
    exact absurd (Nat.lt_of_le_of_lt le_pair hcode) (by decide)
  | case4 u v s hpair ih =>
    rw [encode, if_neg hpair] at h
    intro w hw
    rcases List.mem_cons.mp hw with rfl | hw
    · exact lt_of_single (lt_of_bytesOf fun b hb => h b (List.mem_append_left _ hb))
    · exact ih (fun b hb => h b (List.mem_append_right _ hb)) w hw

end OpenshiftConsole.Library.Utf16
