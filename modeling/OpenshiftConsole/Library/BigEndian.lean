import Mathlib.Algebra.Group.Nat.Defs
import Mathlib.Data.List.Infix
import Mathlib.Tactic.Common

/-!
# Bytes of a message

Numbers are written with their highest byte first: `bytes16` and `bytes32` take a number apart and `ofBytes16`
and `ofBytes32` put it together again, each undoing the other.

`At msg offset bytes` says that some bytes stand at an offset of a message. Two parts that stand one behind the other
are one part (`at_append`), and at one offset there is only one part of a length (`At.unique`).
-/

namespace OpenshiftConsole.Library.BigEndian

/-! ### Numbers -/

/-- The two bytes of a number. -/
def bytes16 (v : UInt16) : List UInt8 := [(v >>> 8).toUInt8, v.toUInt8]

/-- The number that two bytes are. -/
def ofBytes16 (hi lo : UInt8) : UInt16 := hi.toUInt16 <<< 8 ||| lo.toUInt16

/-- The four bytes of a number. -/
def bytes32 (v : UInt32) : List UInt8 := [(v >>> 24).toUInt8, (v >>> 16).toUInt8, (v >>> 8).toUInt8, v.toUInt8]

/-- The number that four bytes are. -/
def ofBytes32 (b0 b1 b2 b3 : UInt8) : UInt32 :=
  b0.toUInt32 <<< 24 ||| b1.toUInt32 <<< 16 ||| b2.toUInt32 <<< 8 ||| b3.toUInt32

@[simp] theorem length_bytes16 (v : UInt16) : (bytes16 v).length = 2 := rfl

theorem mul_or_eq_add {a b n : ℕ} (hb : b < 2 ^ n) : a * 2 ^ n ||| b = a * 2 ^ n + b := by
  rw [← Nat.shiftLeft_eq, Nat.shiftLeft_add_eq_or_of_lt hb]

theorem toNat_ofBytes16 (hi lo : UInt8) : (ofBytes16 hi lo).toNat = hi.toNat * 2 ^ 8 + lo.toNat := by
  have hhi := hi.toNat_lt
  have hlo := lo.toNat_lt
  rw [ofBytes16, UInt16.toNat_or, UInt16.toNat_shiftLeft, UInt8.toNat_toUInt16, UInt8.toNat_toUInt16,
    show (8 : UInt16).toNat % 16 = 8 from rfl, Nat.shiftLeft_eq, Nat.mod_eq_of_lt (by omega), mul_or_eq_add hlo]

theorem toNat_shiftLeft_byte (b : UInt8) {n : UInt32} (hn : n.toNat ≤ 24) :
    (b.toUInt32 <<< n).toNat = b.toNat * 2 ^ n.toNat := by
  have hb := b.toNat_lt
  have hpow : 2 ^ n.toNat ≤ 2 ^ 24 := Nat.pow_le_pow_right (by decide) hn
  have hmul : b.toNat * 2 ^ n.toNat < 2 ^ 8 * 2 ^ 24 := Nat.mul_lt_mul_of_lt_of_le hb hpow (by decide)
  rw [UInt32.toNat_shiftLeft, UInt8.toNat_toUInt32, Nat.mod_eq_of_lt (a := n.toNat) (by omega), Nat.shiftLeft_eq,
    Nat.mod_eq_of_lt (by omega)]

theorem toNat_ofBytes32 (b0 b1 b2 b3 : UInt8) :
    (ofBytes32 b0 b1 b2 b3).toNat = b0.toNat * 2 ^ 24 + b1.toNat * 2 ^ 16 + b2.toNat * 2 ^ 8 + b3.toNat := by
  have h1 := b1.toNat_lt
  have h2 := b2.toNat_lt
  have h3 := b3.toNat_lt
  rw [ofBytes32, UInt32.toNat_or, UInt32.toNat_or, UInt32.toNat_or, toNat_shiftLeft_byte b0 (by decide),
    toNat_shiftLeft_byte b1 (by decide), toNat_shiftLeft_byte b2 (by decide), UInt8.toNat_toUInt32]
  simp only [UInt32.reduceToNat]
  -- Each byte is added below what is there, which is a multiple of a higher power.
  rw [mul_or_eq_add (by omega),
    show b0.toNat * 2 ^ 24 + b1.toNat * 2 ^ 16 = (b0.toNat * 2 ^ 8 + b1.toNat) * 2 ^ 16 by omega, mul_or_eq_add (by omega),
    show (b0.toNat * 2 ^ 8 + b1.toNat) * 2 ^ 16 + b2.toNat * 2 ^ 8 =
      (b0.toNat * 2 ^ 16 + b1.toNat * 2 ^ 8 + b2.toNat) * 2 ^ 8 by omega, mul_or_eq_add (by omega)]

/-- Taking a number apart and putting it together again. -/
theorem ofBytes16_bytes16 (v : UInt16) : ofBytes16 (v >>> 8).toUInt8 v.toUInt8 = v := by
  have hv := v.toNat_lt
  rw [← UInt16.toNat_inj, toNat_ofBytes16, UInt16.toNat_toUInt8, UInt16.toNat_toUInt8, UInt16.toNat_shiftRight,
    show (8 : UInt16).toNat % 16 = 8 from rfl, Nat.shiftRight_eq_div_pow]
  omega

theorem ofBytes32_bytes32 (v : UInt32) :
    ofBytes32 (v >>> 24).toUInt8 (v >>> 16).toUInt8 (v >>> 8).toUInt8 v.toUInt8 = v := by
  have hv := v.toNat_lt
  rw [← UInt32.toNat_inj, toNat_ofBytes32]
  simp only [UInt32.toNat_toUInt8, UInt32.toNat_shiftRight, Nat.shiftRight_eq_div_pow, UInt32.reduceToNat, Nat.reduceMod]
  omega

theorem bytes16_inj {v v' : UInt16} (h : bytes16 v = bytes16 v') : v = v' := by
  obtain ⟨hhi, hrest⟩ := List.cons.inj h
  rw [← ofBytes16_bytes16 v, ← ofBytes16_bytes16 v', hhi, List.head_eq_of_cons_eq hrest]

theorem bytes32_inj {v v' : UInt32} (h : bytes32 v = bytes32 v') : v = v' := by
  obtain ⟨h0, hrest⟩ := List.cons.inj h
  obtain ⟨h1, hrest⟩ := List.cons.inj hrest
  obtain ⟨h2, hrest⟩ := List.cons.inj hrest
  rw [← ofBytes32_bytes32 v, ← ofBytes32_bytes32 v', h0, h1, h2, List.head_eq_of_cons_eq hrest]

/-- Putting a number together and taking it apart again. -/
theorem bytes16_ofBytes16 (hi lo : UInt8) : bytes16 (ofBytes16 hi lo) = [hi, lo] := by
  have hhi := hi.toNat_lt
  have hlo := lo.toNat_lt
  have hhi' : (ofBytes16 hi lo >>> 8).toUInt8 = hi := by
    rw [← UInt8.toNat_inj, UInt16.toNat_toUInt8, UInt16.toNat_shiftRight, show (8 : UInt16).toNat % 16 = 8 from rfl,
      Nat.shiftRight_eq_div_pow, toNat_ofBytes16]
    omega
  have hlo' : (ofBytes16 hi lo).toUInt8 = lo := by
    rw [← UInt8.toNat_inj, UInt16.toNat_toUInt8, toNat_ofBytes16]
    omega
  rw [bytes16, hhi', hlo']

/-- One byte of a number, counted in powers of 256 from its end. -/
theorem toUInt8_shiftRight (v : UInt32) {n : UInt32} (hn : n.toNat < 32) :
    (v >>> n).toUInt8.toNat = v.toNat / 2 ^ n.toNat % 2 ^ 8 := by
  rw [UInt32.toNat_toUInt8, UInt32.toNat_shiftRight, Nat.mod_eq_of_lt hn, Nat.shiftRight_eq_div_pow]

theorem bytes32_ofBytes32 (b0 b1 b2 b3 : UInt8) : bytes32 (ofBytes32 b0 b1 b2 b3) = [b0, b1, b2, b3] := by
  have h0 := b0.toNat_lt
  have h1 := b1.toNat_lt
  have h2 := b2.toNat_lt
  have h3 := b3.toNat_lt
  have hv := toNat_ofBytes32 b0 b1 b2 b3
  have h24 := toUInt8_shiftRight (ofBytes32 b0 b1 b2 b3) (n := 24) (by decide)
  have h16 := toUInt8_shiftRight (ofBytes32 b0 b1 b2 b3) (n := 16) (by decide)
  have h8 := toUInt8_shiftRight (ofBytes32 b0 b1 b2 b3) (n := 8) (by decide)
  have hlow := UInt32.toNat_toUInt8 (ofBytes32 b0 b1 b2 b3)
  simp only [UInt32.reduceToNat, Nat.reducePow] at h24 h16 h8 hv
  simp only [bytes32, List.cons.injEq, ← UInt8.toNat_inj, and_true]
  omega

/-! ### Parts of a message -/

/-- The bytes stand at the offset. -/
def At (msg : List UInt8) (offset : ℕ) (bytes : List UInt8) : Prop := bytes <+: msg.drop offset

instance (msg : List UInt8) (offset : ℕ) (bytes : List UInt8) : Decidable (At msg offset bytes) :=
  inferInstanceAs (Decidable (bytes <+: msg.drop offset))

variable {msg xs ys : List UInt8} {offset : ℕ} {b : UInt8}

theorem At.length_le (h : At msg offset xs) (hxs : xs ≠ []) : offset + xs.length ≤ msg.length := by
  have hle := List.IsPrefix.length_le h
  have hpos := List.length_pos_iff.mpr hxs
  rw [List.length_drop] at hle
  omega

theorem at_append : At msg offset (xs ++ ys) ↔ At msg offset xs ∧ At msg (offset + xs.length) ys := by
  unfold At
  constructor
  · intro h
    refine ⟨(List.prefix_append xs ys).trans h, ?_⟩
    obtain ⟨zs, hzs⟩ := h
    rw [← List.drop_drop, ← hzs, List.append_assoc, List.drop_left]
    exact List.prefix_append ys zs
  · rintro ⟨⟨zs, hzs⟩, h⟩
    rw [← List.drop_drop, ← hzs, List.drop_left] at h
    rw [← hzs]
    exact (List.prefix_append_right_inj xs).mpr h

theorem at_cons : At msg offset (b :: ys) ↔ At msg offset [b] ∧ At msg (offset + 1) ys :=
  @at_append msg [b] ys offset

theorem At.unique (hxs : At msg offset xs) (hys : At msg offset ys) (h : xs.length = ys.length) : xs = ys :=
  (List.prefix_of_prefix_length_le hxs hys h.le).eq_of_length h

theorem At.unique16 {v v' : UInt16} (h : At msg offset (bytes16 v)) (h' : At msg offset (bytes16 v')) : v = v' :=
  bytes16_inj (h.unique h' rfl)

theorem At.unique32 {v v' : UInt32} (h : At msg offset (bytes32 v)) (h' : At msg offset (bytes32 v')) : v = v' :=
  bytes32_inj (h.unique h' rfl)

/-- Parts that stand at one offset begin with the same byte. -/
theorem At.head_eq {b' : UInt8} (hxs : At msg offset (b :: xs)) (hys : At msg offset (b' :: ys)) : b = b' :=
  List.head_eq_of_cons_eq ((at_cons.mp hxs).1.unique (at_cons.mp hys).1 rfl)

/-- What stands at an offset, as it is cut out. -/
theorem At.slice (h : At msg offset xs) : (msg.take (offset + xs.length)).drop offset = xs := by
  rw [List.drop_take, Nat.add_sub_cancel_left]
  exact (List.prefix_iff_eq_take.mp h).symm

theorem at_slice (msg : List UInt8) (offset stop : ℕ) : At msg offset ((msg.take stop).drop offset) := by
  rw [At, List.drop_take]
  exact List.take_prefix _ _

theorem at_singleton : At msg offset [b] ↔ msg[offset]? = some b := by
  rw [At, List.prefix_iff_eq_take, List.length_singleton, List.take_one, List.head?_drop]
  cases msg[offset]? <;> simp [eq_comm]

/-- A message stands at its own beginning. -/
theorem at_self (msg : List UInt8) : At msg 0 msg := List.prefix_rfl

end OpenshiftConsole.Library.BigEndian
