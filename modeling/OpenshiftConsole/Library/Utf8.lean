import Mathlib.Data.List.Basic
import Mathlib.Tactic.Common

/-!
# Decoding UTF-8

The decoder of the encoding standard, byte by byte: an incomplete or broken sequence becomes one
U+FFFD, and the byte that breaks it is decoded anew. A state says how many bytes of a sequence are
still to come and what the next may be.

Decoding piece by piece, each piece on its own, gives what decoding the whole gives unless a piece
ends in a sequence that the next byte goes on with; then it gives more characters
(`decode_append`, `length_decode_append_lt`, and for any number of pieces `flatMap_decode_iff`).
-/

namespace OpenshiftConsole.Library.Utf8

/-! ### The decoder -/

/-- What the next byte of a sequence may be. -/
inductive Continuation where
  /-- Any continuation byte. -/
  | any
  /-- What may follow E0: the sequence must not be too long. -/
  | afterE0
  /-- What may follow ED: no surrogate. -/
  | afterED
  | afterF0
  /-- What may follow F4: no more than U+10FFFF. -/
  | afterF4
deriving DecidableEq

def Continuation.lower : Continuation → ℕ
  | .any | .afterED | .afterF4 => 0x80
  | .afterE0 => 0xA0
  | .afterF0 => 0x90

def Continuation.upper : Continuation → ℕ
  | .any | .afterE0 | .afterF0 => 0xBF
  | .afterED => 0x9F
  | .afterF4 => 0x8F

def Continuation.allows (k : Continuation) (b : UInt8) : Bool := k.lower ≤ b.toNat ∧ b.toNat ≤ k.upper

inductive State where
  | ground
  /-- `more + 1` bytes of a sequence are to come; those that came make `code`. -/
  | pending (more : ℕ) (next : Continuation) (code : ℕ)
deriving DecidableEq

/-- What stands for what is not UTF-8. -/
def replacement : Char := '\uFFFD'

/-- A byte where a sequence begins. -/
def lead (b : UInt8) : List Char × State :=
  let n := b.toNat
  if n < 0x80 then ([Char.ofNat n], .ground)
  else if n < 0xC2 then ([replacement], .ground)
  else if n < 0xE0 then ([], .pending 0 .any (n - 0xC0))
  else if n = 0xE0 then ([], .pending 1 .afterE0 0)
  else if n = 0xED then ([], .pending 1 .afterED 0xD)
  else if n < 0xF0 then ([], .pending 1 .any (n - 0xE0))
  else if n = 0xF0 then ([], .pending 2 .afterF0 0)
  else if n < 0xF4 then ([], .pending 2 .any (n - 0xF0))
  else if n = 0xF4 then ([], .pending 2 .afterF4 4)
  else ([replacement], .ground)

/-- A byte. -/
def feed : State → UInt8 → List Char × State
  | .ground, b => lead b
  | .pending more next code, b =>
    if next.allows b then
      let code := code * 64 + (b.toNat - 0x80)
      match more with
      | 0 => ([Char.ofNat code], .ground)
      | more + 1 => ([], .pending more .any code)
    else (replacement :: (lead b).1, (lead b).2)

def run : State → List UInt8 → List Char × State
  | s, [] => ([], s)
  | s, b :: bs => ((feed s b).1 ++ (run (feed s b).2 bs).1, (run (feed s b).2 bs).2)

/-- What is left when the bytes end. -/
def finish : State → List Char
  | .ground => []
  | .pending .. => [replacement]

/-- The characters of bytes that follow on a state. -/
def decodeFrom (s : State) (bs : List UInt8) : List Char := (run s bs).1 ++ finish (run s bs).2

/-- The characters of bytes. -/
def decode (bs : List UInt8) : List Char := decodeFrom .ground bs

/-- Characters of one to four bytes, and a sequence that is cut short by a byte of its own. -/
example : decode [0x41, 0xC3, 0xA9, 0xE2, 0x82, 0xAC, 0xF0, 0x9F, 0x98, 0x80, 0xE2, 0x82, 0x41] =
    ['A', 'é', '€', '😀', replacement, 'A'] := by
  decide

/-! ### Runes -/

/-- The character of a sequence that goes on, if it is whole. -/
def sequence : ℕ → Continuation → ℕ → List UInt8 → Option Char
  | _, _, _, [] => none
  | more, next, code, b :: bs =>
    if next.allows b then
      let code := code * 64 + (b.toNat - 0x80)
      match more with
      | 0 => some (Char.ofNat code)
      | more + 1 => sequence more .any code bs
    else none

/-- The first rune and its width. -/
def decodeRune (b : UInt8) (bs : List UInt8) : Char × ℕ :=
  match lead b with
  | (cs, .ground) => (cs.headD replacement, 1)
  | (_, .pending more next code) =>
    match sequence more next code bs with
    | some c => (c, more + 2)
    | none => (replacement, 1)

/-- The runes of bytes, of which the first few belong to the one before: a byte that begins no whole sequence is a
U+FFFD of its own. -/
def runesFrom : ℕ → List UInt8 → List Char
  | _, [] => []
  | skip + 1, _ :: bs => runesFrom skip bs
  | 0, b :: bs => (decodeRune b bs).1 :: runesFrom ((decodeRune b bs).2 - 1) bs

/-- The runes of bytes. -/
def runes (bs : List UInt8) : List Char := runesFrom 0 bs

/-- Where a sequence is cut short, each of its bytes is a rune. -/
example : runes [0x41, 0xC3, 0xA9, 0xE2, 0x82, 0xAC, 0xF0, 0x9F, 0x98, 0x80, 0xE2, 0x82, 0x41] =
    ['A', 'é', '€', '😀', replacement, replacement, 'A'] := by
  decide

/-- The bytes of ASCII are its runes. -/
theorem runes_ascii {bs : List UInt8} (h : ∀ b ∈ bs, b.toNat < 0x80) : runes bs = bs.map fun b => Char.ofNat b.toNat := by
  induction bs with
  | nil => rfl
  | cons b bs ih =>
    rw [List.forall_mem_cons] at h
    have hlead : lead b = ([Char.ofNat b.toNat], .ground) := if_pos h.1
    rw [runes, runesFrom, decodeRune, hlead, List.map_cons]
    exact congrArg (_ :: ·) (ih h.2)

/-- The bytes of characters. -/
def encode (cs : List Char) : List UInt8 := cs.flatMap String.utf8EncodeChar

/-- Characters of ASCII are a byte each. -/
theorem encode_ascii {cs : List Char} (h : ∀ c ∈ cs, c.toNat < 0x80) : encode cs = cs.map fun c => c.val.toUInt8 := by
  induction cs with
  | nil => rfl
  | cons c cs ih =>
    rw [List.forall_mem_cons] at h
    have hsize : c.utf8Size = 1 := Char.utf8Size_eq_one_iff.mpr (Nat.le_of_lt_succ h.1)
    rw [encode, List.flatMap_cons, String.utf8EncodeChar_eq_singleton hsize, List.map_cons]
    exact congrArg (_ :: ·) (ih h.2)

/-! ### Pieces -/

theorem run_append (s : State) (a b : List UInt8) :
    run s (a ++ b) = ((run s a).1 ++ (run (run s a).2 b).1, (run (run s a).2 b).2) := by
  induction a generalizing s with
  | nil => rfl
  | cons c a ih => simp only [List.cons_append, run, ih, List.append_assoc]

@[simp] theorem decodeFrom_nil (s : State) : decodeFrom s [] = finish s := List.nil_append _

theorem decodeFrom_cons (s : State) (b : UInt8) (bs : List UInt8) :
    decodeFrom s (b :: bs) = (feed s b).1 ++ decodeFrom (feed s b).2 bs := by
  rw [decodeFrom, run, decodeFrom, List.append_assoc]

theorem decodeFrom_append (s : State) (a b : List UInt8) :
    decodeFrom s (a ++ b) = (run s a).1 ++ decodeFrom (run s a).2 b := by
  rw [decodeFrom, run_append, decodeFrom, List.append_assoc]

theorem feed_allowed {more : ℕ} {next : Continuation} {code : ℕ} {b : UInt8} (h : next.allows b) :
    feed (.pending more next code) b =
      match more with
      | 0 => ([Char.ofNat (code * 64 + (b.toNat - 0x80))], .ground)
      | more + 1 => ([], .pending more .any (code * 64 + (b.toNat - 0x80))) := if_pos h

theorem feed_refused {more : ℕ} {next : Continuation} {code : ℕ} {b : UInt8} (h : ¬ next.allows b) :
    feed (.pending more next code) b = (replacement :: (lead b).1, (lead b).2) := if_neg h

theorem feed_ground (b : UInt8) : feed .ground b = lead b := rfl

/-- A state takes a byte as part of its sequence. -/
def State.takes (s : State) (bs : List UInt8) : Prop :=
  ∃ more next code b bs', s = .pending more next code ∧ bs = b :: bs' ∧ next.allows b

/-- What a state does not take it decodes like the start, after what is left of the state. -/
theorem decodeFrom_of_not_takes {s : State} {bs : List UInt8} (h : ¬ s.takes bs) :
    decodeFrom s bs = finish s ++ decodeFrom .ground bs := by
  cases bs with
  | nil => simp [finish]
  | cons b bs =>
    cases s with
    | ground => rfl
    | pending more next code =>
      have hb : ¬ next.allows b := fun hb => h ⟨more, next, code, b, bs, rfl, rfl, hb⟩
      rw [decodeFrom_cons, decodeFrom_cons, feed_refused hb]
      rfl

theorem lead_of_allows {next : Continuation} {b : UInt8} (h : next.allows b) : lead b = ([replacement], .ground) := by
  obtain ⟨hl, hu⟩ := of_decide_eq_true h
  have hl' : 0x80 ≤ next.lower := by cases next <;> decide
  have hu' : next.upper ≤ 0xBF := by cases next <;> decide
  unfold lead
  simp only
  rw [if_neg (by omega), if_pos (by omega)]

/-- A state spares at most the character that stands for it. -/
theorem length_decodeFrom_pending_le (more : ℕ) (next : Continuation) (code : ℕ) (bs : List UInt8) :
    (decodeFrom (.pending more next code) bs).length ≤ (decodeFrom .ground bs).length + 1 := by
  induction bs generalizing more next code with
  | nil => simp [finish]
  | cons b bs ih =>
    by_cases hb : next.allows b
    · rw [decodeFrom_cons, decodeFrom_cons, feed_allowed hb, feed_ground, lead_of_allows hb]
      cases more with
      | zero => simp
      | succ more =>
        have := ih more .any (code * 64 + (b.toNat - 0x80))
        simp only [List.length_append, List.length_nil, List.length_singleton]
        omega
    · rw [decodeFrom_of_not_takes]
      · simp [finish, Nat.add_comm]
      · rintro ⟨m, n, c, b', bs', hs, hbs, hn⟩
        cases hs
        cases hbs
        exact hb hn

/-- A sequence that goes on is fewer characters than its two parts. -/
theorem length_decodeFrom_lt {s : State} {bs : List UInt8} (h : s.takes bs) :
    (decodeFrom s bs).length < (finish s).length + (decodeFrom .ground bs).length := by
  obtain ⟨more, next, code, b, bs, rfl, rfl, hb⟩ := h
  rw [decodeFrom_cons, decodeFrom_cons, feed_allowed hb, feed_ground, lead_of_allows hb]
  cases more with
  | zero => simp [finish]
  | succ more =>
    have := length_decodeFrom_pending_le more .any (code * 64 + (b.toNat - 0x80)) bs
    simp only [List.length_append, List.length_nil, List.length_singleton, finish]
    omega

/-- The first piece ends in a sequence that the next byte goes on with. -/
def Splits (a b : List UInt8) : Prop := (run .ground a).2.takes b

theorem decode_append {a b : List UInt8} (h : ¬ Splits a b) : decode (a ++ b) = decode a ++ decode b := by
  rw [decode, decodeFrom_append, decodeFrom_of_not_takes h, ← List.append_assoc]
  rfl

theorem length_decode_append_lt {a b : List UInt8} (h : Splits a b) :
    (decode (a ++ b)).length < (decode a).length + (decode b).length := by
  have hlt := length_decodeFrom_lt h
  have ha : (decode a).length = (run .ground a).1.length + (finish (run .ground a).2).length := List.length_append
  have hb : decode b = decodeFrom .ground b := rfl
  rw [ha, hb, decode, decodeFrom_append, List.length_append]
  omega

theorem length_decode_append_le (a b : List UInt8) :
    (decode (a ++ b)).length ≤ (decode a).length + (decode b).length := by
  by_cases h : Splits a b
  · exact Nat.le_of_lt (length_decode_append_lt h)
  · apply Nat.le_of_eq
    rw [decode_append h, List.length_append]

theorem length_decode_flatten_le (ps : List (List UInt8)) :
    (decode ps.flatten).length ≤ (ps.flatMap decode).length := by
  induction ps with
  | nil => simp [decode, finish]
  | cons p ps ih =>
    rw [List.flatten_cons, List.flatMap_cons, List.length_append]
    exact Nat.le_trans (length_decode_append_le p ps.flatten) (Nat.add_le_add_left ih _)

/-- **Decoding piece by piece** is decoding the whole exactly if no piece ends in a sequence that
the next byte goes on with. -/
theorem flatMap_decode_iff (ps : List (List UInt8)) :
    ps.flatMap decode = decode ps.flatten ↔ ∀ l p r, ps = l ++ p :: r → ¬ Splits p r.flatten := by
  induction ps with
  | nil => simp [decode, finish]
  | cons p ps ih =>
    rw [List.flatten_cons, List.flatMap_cons]
    constructor
    · intro h l q r hq
      have hle := length_decode_flatten_le ps
      have hlen := congrArg List.length h
      rw [List.length_append] at hlen
      have hp : ¬ Splits p ps.flatten := by
        intro hs
        have := length_decode_append_lt hs
        omega
      rw [decode_append hp] at h
      cases l with
      | nil =>
        obtain ⟨rfl, rfl⟩ := List.cons.inj hq
        exact hp
      | cons x l => exact ih.mp (List.append_cancel_left h) l q r (List.cons.inj hq).2
    · intro h
      rw [decode_append (h [] p ps rfl), ih.mpr (fun l q r hq => h (p :: l) q r (by rw [hq, List.cons_append]))]

end OpenshiftConsole.Library.Utf8
