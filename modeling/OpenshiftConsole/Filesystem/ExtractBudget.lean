import OpenshiftConsole.Filesystem.Extract
import Mathlib.Algebra.BigOperators.Group.List.Basic
import Mathlib.Algebra.GroupWithZero.Nat

/-!
# The byte budget of an extraction

`ExtractLimits.MaxBytes` is to bound what an archive unpacks to: at most that many bytes
are written, and one more to notice the overrun, and an archive that holds more does not
unpack without an error (`Budgeted`). `writeFile` counts the budget down and takes a value
that is not positive for no limit, so a budget used up exactly at the end of a member is
none for the members after it.

The law is about the bodies that get a file. They are those of the run in which every body
is copied whole (`copyWhole`), which knows no budget, and the run with a budget is compared
with it: `ledger_of_budget` says what the one copies in terms of the other, by induction on
the members, with the budget left as what the induction carries. From it follows when the
budget holds (`extract_budgeted_iff`).
-/

namespace OpenshiftConsole.Filesystem.Extract

open OpenshiftConsole.Library.Lines (Text)
open OpenshiftConsole.Library.PathWalk OpenshiftConsole.Library.FileTree

/-! ### What an archive holds and what is to hold -/

/-- The bytes that a regular-file member holds. -/
def Member.size (m : Member) : ℕ :=
  match m.content with
  | .regular _ body => body.data.length
  | _ => 0

/-- The bytes that the regular-file members hold together. -/
def Archive.held (a : Archive) : ℕ := (a.members.map Member.size).sum

/-- The byte budget as it is meant, for a call and the archive that it found. -/
def Budgeted (maxBytes : ℤ) (found : Except Error Archive) (result : Progress × Option Error) : Prop :=
  (result.1.copies.sum : ℤ) ≤ maxBytes + 1 ∧ ∀ a, found = .ok a → maxBytes < a.held → result.2 ≠ none

/-! ### Copying without a budget -/

/-- The bytes that can be copied of a body, and whether it breaks off then. -/
def Body.whole (body : Body) : ℕ × Option Error :=
  match body.fault with
  | none => (body.data.length, none)
  | some k => (min k body.data.length, some .broken)

/-- A body copied whole. -/
def copyWhole (budget : ℤ) (body : Body) : Copied := ⟨body.whole.1, body.whole.2, budget⟩

/-- A body of which nothing is read. -/
def copyNothing (budget : ℤ) (_ : Body) : Copied := ⟨0, none, budget⟩

variable (K : Kernel) (dest : Text) (overwrite : Bool) (limits : ExtractLimits)

/-- The archive's loop with a way to copy that knows no budget. -/
def Archive.run (copy : ℤ → Body → Copied) (a : Archive) (d : Fs) : Progress × Option Error :=
  match extractMembers K copy dest overwrite limits a.members ⟨d, 0, 0, []⟩ with
  | (s, some err) => (s, some err)
  | (s, none) => (s, a.ending)

/-- When a budget holds. `copyWhole` says which bodies get a file: if the first of them add up to
exactly the budget, at most one byte may follow, and none if nothing else ends the extraction; and if
they do not exceed the budget, neither may the archive, unless something else ends the extraction.
One more than the largest budget is no 64-bit number: with it every copy ends before its first byte. -/
def Archive.Fits (maxBytes : ℤ) (a : Archive) (d : Fs) : Prop :=
  let whole := a.run K dest overwrite limits copyWhole d
  let nothing := a.run K dest overwrite limits copyNothing d
  if maxBytes = 2 ^ 63 - 1 then (a.held : ℤ) ≤ maxBytes ∨ nothing.2 ≠ none
  else
    (∀ first, first <+: whole.1.copies → (first.sum : ℤ) = maxBytes → (whole.1.copies.sum : ℤ) ≤ maxBytes + 1) ∧
      ((a.held : ℤ) ≤ maxBytes ∨ whole.2 ≠ none ∨
        maxBytes < whole.1.copies.sum ∧ ∀ first, first <+: whole.1.copies → (first.sum : ℤ) ≠ maxBytes)

/-! ### One copy -/

section Copies

variable {limit budget : ℤ} {body : Body}

theorem int64_succ (h₀ : 0 ≤ limit) (h : limit < 2 ^ 63 - 1) : int64 (limit + 1) = limit + 1 := by
  rw [int64, Int.bmod_def]
  omega

/-- A limit that is not reached cuts nothing short. -/
theorem copyLimited_of_le (h₀ : 0 ≤ limit) (h : (body.whole.1 : ℤ) ≤ limit) :
    copyLimited (limit + 1) body = (body.whole.1, body.whole.2.isSome) := by
  rw [copyLimited, Body.whole] at *
  rw [if_neg (by omega)]
  cases hf : body.fault with
  | none =>
    rw [hf] at h
    dsimp only at h ⊢
    rw [min_eq_right (by omega)]
    rfl
  | some k =>
    rw [hf] at h
    dsimp only at h ⊢
    rw [if_pos (by omega)]
    rfl

/-- A body that exceeds the limit is copied to one byte more than that. -/
theorem copyLimited_of_gt (h₀ : 0 ≤ limit) (h : limit < body.whole.1) :
    copyLimited (limit + 1) body = ((limit + 1).toNat, false) := by
  rw [copyLimited, Body.whole] at *
  rw [if_neg (by omega)]
  cases hf : body.fault with
  | none =>
    rw [hf] at h
    dsimp only at h ⊢
    rw [min_eq_left (by omega)]
  | some k =>
    rw [hf] at h
    dsimp only at h ⊢
    rw [if_neg (by omega)]

theorem whole_err (body : Body) : body.whole.2 = none ∨ body.whole.2 = some .broken := by
  rw [Body.whole]
  cases body.fault <;> simp

/-- The number of bytes that `writeFile` takes for its limit. -/
def limitOf (budget : ℤ) : ℤ := if budget ≤ 0 then 2 ^ 62 else budget

theorem copyWithin_of_le (hb : budget < 2 ^ 63 - 1) (h : (body.whole.1 : ℤ) ≤ limitOf budget) :
    copyWithin budget body =
      ⟨body.whole.1, body.whole.2,
        if body.whole.2 = none ∧ budget > 0 then budget - body.whole.1 else budget⟩ := by
  have h₀ : 0 ≤ limitOf budget ∧ limitOf budget < 2 ^ 63 - 1 := by unfold limitOf; split <;> omega
  unfold copyWithin
  rw [show (if budget ≤ 0 then 2 ^ 62 else budget) = limitOf budget from rfl]
  dsimp only
  rw [int64_succ h₀.1 h₀.2, copyLimited_of_le h₀.1 h]
  rcases whole_err body with he | he
  · simp only [he, Option.isSome_none, true_and]
    rw [if_neg (by omega)]
  · simp [he]

theorem copyWithin_of_gt (hb : budget < 2 ^ 63 - 1) (h : limitOf budget < body.whole.1) :
    copyWithin budget body = ⟨(limitOf budget + 1).toNat, some .tooBig, budget⟩ := by
  have h₀ : 0 ≤ limitOf budget ∧ limitOf budget < 2 ^ 63 - 1 := by unfold limitOf; split <;> omega
  unfold copyWithin
  rw [show (if budget ≤ 0 then 2 ^ 62 else budget) = limitOf budget from rfl]
  dsimp only
  rw [int64_succ h₀.1 h₀.2, copyLimited_of_gt h₀.1 h]
  dsimp only
  rw [if_pos (by omega)]

/-- One more than the largest budget is negative, and nothing is copied. -/
theorem copyWithin_largest : copyWithin (2 ^ 63 - 1) body = copyNothing (2 ^ 63 - 1) body := by
  have h : copyLimited (int64 (2 ^ 63 - 1 + 1)) body = (0, false) := if_pos (by decide)
  unfold copyWithin copyNothing
  rw [if_neg (by decide)]
  dsimp only
  rw [h]
  decide

end Copies

/-! ### One member -/

/-- `writeFile` fails before it copies, or copies; which, does not depend on the way to copy or the budget. -/
theorem writeFile_cases (target : Text) (perm : ℕ) (src : Body) (d : Fs) :
    (∃ d' err, ∀ copy b, writeFile K copy target perm src overwrite b d = (d', ⟨0, some err, b⟩)) ∨
      ∃ after : ℕ → Fs, ∀ copy b,
        writeFile K copy target perm src overwrite b d = (after (copy b src).n, copy b src) := by
  unfold writeFile
  rcases makeParent K target d with ⟨d₁, _ | err⟩
  · by_cases he : (!overwrite && (Root.lstat d₁ target).isOk) = true
    · exact .inl ⟨d₁, .alreadyExists target, fun copy b => if_pos he⟩
    · simp only [if_neg he]
      rcases Root.openWrite K d₁ target (if perm = 0 then 0o644 else perm) true with err | ⟨out, d₂⟩
      · exact .inl ⟨d₁, .os err, fun _ _ => rfl⟩
      · exact .inr ⟨fun n => write K d₂ out 0 (src.data.take n), fun _ _ => rfl⟩
  · exact .inl ⟨d₁, .os err, fun _ _ => rfl⟩

/-- A member is skipped, or no body is copied for it, or one is and all else depends only on
how many bytes of it are and whether it breaks off. -/
theorem writeMember_cases (target : Text) (m : Member) (s : Progress) :
    (∀ copy b, writeMember K copy target overwrite m { s with budget := b } = (none, none)) ∨
      (∃ d zs e, (zs = [] ∨ zs = [0] ∧ e ≠ none) ∧ ∀ copy b,
        writeMember K copy target overwrite m { s with budget := b } =
          (some ⟨d, b, s.written, s.copies ++ zs⟩, e)) ∨
      ∃ (body : Body) (after : ℕ → Fs), ∀ copy b,
        writeMember K copy target overwrite m { s with budget := b } =
          (some ⟨after (copy b body).n, (copy b body).budget, s.written, s.copies ++ [(copy b body).n]⟩,
            (copy b body).err) := by
  unfold writeMember
  cases m.content with
  | dir =>
    exact .inr (.inl ⟨(Root.mkdirAll K s.disk target m.perm).1, [],
      (Root.mkdirAll K s.disk target m.perm).2.map .os, .inl rfl, fun copy b => by rw [List.append_nil]⟩)
  | symlink link =>
    cases link with
    | error err => exact .inr (.inl ⟨s.disk, [], some err, .inl rfl, fun copy b => by rw [List.append_nil]⟩)
    | ok link =>
      exact .inr (.inl ⟨(writeSymlink K target link overwrite s.disk).1, [],
        (writeSymlink K target link overwrite s.disk).2, .inl rfl, fun copy b => by rw [List.append_nil]⟩)
  | regular openErr body =>
    cases openErr with
    | some err => exact .inr (.inl ⟨s.disk, [], some err, .inl rfl, fun copy b => by rw [List.append_nil]⟩)
    | none =>
      rcases writeFile_cases K overwrite target m.perm body s.disk with
        ⟨d', err, h⟩ | ⟨after, h⟩
      · exact .inr (.inl ⟨d', [0], some err, .inr ⟨rfl, by simp⟩, fun copy b => by simp only [h]⟩)
      · exact .inr (.inr ⟨body, after, fun copy b => by simp only [h]⟩)
  | other => exact .inl fun _ _ => rfl

/-- What a turn of the loop does, whatever the way to copy and the budget. -/
theorem extractMember_cases (m : Member) (s : Progress) :
    (∃ d w zs e, (zs = [] ∨ zs = [0] ∧ e ≠ none) ∧ ∀ copy b,
      extractMember K copy dest overwrite limits m { s with budget := b } = (⟨d, b, w, s.copies ++ zs⟩, e)) ∨
      ∃ (body : Body) (after : ℕ → Option Error → Fs) (w : Option Error → ℕ), ∀ copy b,
        extractMember K copy dest overwrite limits m { s with budget := b } =
          (⟨after (copy b body).n (copy b body).err, (copy b body).budget, w (copy b body).err,
            s.copies ++ [(copy b body).n]⟩, (copy b body).err) := by
  unfold extractMember
  cases safeName m.name with
  | error err => exact .inl ⟨s.disk, s.written, [], some err, .inl rfl, fun _ _ => by rw [List.append_nil]⟩
  | ok name =>
    by_cases h₁ : name = []
    · exact .inl ⟨s.disk, s.written, [], none, .inl rfl, fun _ _ => by simp only [if_pos h₁, List.append_nil]⟩
    by_cases h₂ : limits.maxEntries > 0 ∧ (s.written : ℤ) ≥ limits.maxEntries
    · exact .inl ⟨s.disk, s.written, [], some (.tooManyEntries limits.maxEntries), .inl rfl,
        fun _ _ => by simp only [if_neg h₁, if_pos h₂, List.append_nil]⟩
    simp only [if_neg h₁, if_neg h₂]
    rcases writeMember_cases K overwrite (Rootfs.join dest name) m s with
      h | ⟨d, zs, e, hzs, h⟩ | ⟨body, after, h⟩
    · exact .inl ⟨s.disk, s.written, [], none, .inl rfl, fun copy b => by simp only [h, List.append_nil]⟩
    · cases e with
      | some err => exact .inl ⟨d, s.written, zs, some err, hzs, fun copy b => by simp only [h]⟩
      | none =>
        exact .inl ⟨setTimes K (Rootfs.join dest name) m.modTime d, s.written + 1, zs, none, hzs,
          fun copy b => by simp only [h]⟩
    · refine .inr ⟨body, fun n e => if e = none then setTimes K (Rootfs.join dest name) m.modTime (after n) else after n,
        fun e => if e = none then s.written + 1 else s.written, fun copy b => ?_⟩
      rw [h]
      cases (copy b body).err <;> simp

/-! ### The loop -/

section Turns

variable {K dest overwrite limits}

theorem extractMembers_cons_some {copy : ℤ → Body → Copied} {m : Member} {ms : List Member} {s s' : Progress} {err : Error}
    (h : extractMember K copy dest overwrite limits m s = (s', some err)) :
    extractMembers K copy dest overwrite limits (m :: ms) s = (s', some err) := by
  simp only [extractMembers, h]

theorem extractMembers_cons_none {copy : ℤ → Body → Copied} {m : Member} {ms : List Member} {s s' : Progress}
    (h : extractMember K copy dest overwrite limits m s = (s', none)) :
    extractMembers K copy dest overwrite limits (m :: ms) s = extractMembers K copy dest overwrite limits ms s' := by
  simp only [extractMembers, h]

end Turns

/-- The copies `zs'` of a run with budget `b`, and its error, beside those of the run that copies all
bodies whole. A run with budget 0 has no limit, and its budget is used up from the start. -/
structure Ledger (b : ℤ) (zs : List ℕ) (e : Option Error) (zs' : List ℕ) (e' : Option Error) : Prop where
  below : (zs.sum : ℤ) < b → zs'.sum = zs.sum ∧ e' = e
  above : (∀ first, first <+: zs → (first.sum : ℤ) ≠ b) → b < zs.sum → (zs'.sum : ℤ) = b + 1 ∧ e' ≠ none
  hit : (∃ first, first <+: zs ∧ (first.sum : ℤ) = b) →
    ((zs.sum : ℤ) ≤ b + 1 → zs'.sum = zs.sum ∧ e' = e) ∧ (b + 2 ≤ zs.sum → b + 2 ≤ zs'.sum)

namespace Ledger

variable {b : ℤ} {n m : ℕ} {zs zs' : List ℕ} {e e' : Option Error}

theorem refl (e : Option Error) (h : b = 0 ∨ (zs.sum : ℤ) ≤ b) : Ledger b zs e zs e := by
  refine ⟨fun _ => ⟨rfl, rfl⟩, fun hf hs => ?_, fun _ => ⟨fun _ => ⟨rfl, rfl⟩, id⟩⟩
  rcases h with rfl | h
  · exact absurd rfl (hf [] List.nil_prefix)
  · omega

/-- A prefix that starts with a body leaves a prefix of the rest. -/
theorem rest_of_cons (h₀ : 0 < b) {first : List ℕ} (hf : first <+: n :: zs) (hs : (first.sum : ℤ) = b) :
    ∃ rest, rest <+: zs ∧ (rest.sum : ℤ) = b - n := by
  cases first with
  | nil =>
    rw [List.sum_nil] at hs
    omega
  | cons x first =>
    obtain ⟨rfl, hfirst⟩ := List.cons_prefix_cons.mp hf
    rw [List.sum_cons] at hs
    exact ⟨first, hfirst, by omega⟩

/-- A body within the budget counts it down. -/
theorem cons (h₀ : 0 < b) (h : Ledger (b - n) zs e zs' e') : Ledger b (n :: zs) e (n :: zs') e' := by
  obtain ⟨h₁, h₂, h₃⟩ := h
  refine ⟨fun hs => ?_, fun hf hs => ?_, fun ⟨first, hfirst, hs⟩ => ?_⟩
  · rw [List.sum_cons] at hs
    obtain ⟨hz, rfl⟩ := h₁ (by omega)
    exact ⟨by rw [List.sum_cons, List.sum_cons, hz], rfl⟩
  · have hf' : ∀ first, first <+: zs → (first.sum : ℤ) ≠ b - n := by
      intro first hfirst he
      refine hf (n :: first) (List.cons_prefix_cons.mpr ⟨rfl, hfirst⟩) ?_
      rw [List.sum_cons]
      omega
    rw [List.sum_cons] at hs ⊢
    obtain ⟨hz, he⟩ := h₂ hf' (by omega)
    exact ⟨by omega, he⟩
  · obtain ⟨hle, hge⟩ := h₃ (rest_of_cons h₀ hfirst hs)
    rw [List.sum_cons, List.sum_cons]
    refine ⟨fun h' => ?_, fun h' => ?_⟩
    · obtain ⟨hz, he⟩ := hle (by omega)
      exact ⟨by omega, he⟩
    · have := hge (by omega)
      omega

/-- Once the budget is used up nothing is counted. -/
theorem cons_zero (h : Ledger 0 zs e zs' e') : Ledger 0 (n :: zs) e (n :: zs') e' := by
  obtain ⟨hle, hge⟩ := h.hit ⟨[], List.nil_prefix, rfl⟩
  refine ⟨fun hs => by omega, fun hf => absurd rfl (hf [] List.nil_prefix), fun _ => ?_⟩
  rw [List.sum_cons, List.sum_cons]
  refine ⟨fun hs => ?_, fun hs => ?_⟩
  · obtain ⟨hz, he⟩ := hle (by omega)
    exact ⟨by omega, he⟩
  · by_cases hz : (zs.sum : ℤ) ≤ 0 + 1
    · have := (hle hz).1
      omega
    · have := hge (by omega)
      omega

/-- A body that exceeds the limit ends the run. -/
theorem exceeded (h : 0 < b ∧ b < n ∧ (m : ℤ) = b + 1 ∨ b = 0 ∧ 2 ≤ n ∧ 2 ≤ m) :
    Ledger b (n :: zs) e [m] (some .tooBig) := by
  rcases h with ⟨h₀, hn, hm⟩ | ⟨rfl, hn, hm⟩
  · refine ⟨fun hs => ?_, fun _ _ => ⟨by simpa using hm, by simp⟩, fun ⟨first, hfirst, hs⟩ => ?_⟩
    · rw [List.sum_cons] at hs
      omega
    · obtain ⟨rest, -, hr⟩ := rest_of_cons h₀ hfirst hs
      omega
  · refine ⟨fun hs => by omega, fun hf => absurd rfl (hf [] List.nil_prefix), fun _ => ?_⟩
    rw [List.sum_cons, List.sum_singleton]
    exact ⟨fun hs => by omega, fun _ => by omega⟩

/-- When a run keeps its budget, in terms of the run that copies all bodies whole. -/
theorem budgeted_iff (h : Ledger b zs e zs' e') (held : ℤ) (f : Prop) :
    (zs'.sum : ℤ) ≤ b + 1 ∧ (b < held → e' ≠ none ∨ f) ↔
      (∀ first, first <+: zs → (first.sum : ℤ) = b → (zs.sum : ℤ) ≤ b + 1) ∧
        (held ≤ b ∨ (e ≠ none ∨ f) ∨ b < zs.sum ∧ ∀ first, first <+: zs → (first.sum : ℤ) ≠ b) := by
  obtain ⟨hbelow, habove, hhit⟩ := h
  by_cases hf : ∃ first, first <+: zs ∧ (first.sum : ℤ) = b
  · obtain ⟨hle, hge⟩ := hhit hf
    have hno : ¬ ∀ first, first <+: zs → (first.sum : ℤ) ≠ b := fun hn => hf.elim fun l hl => hn l hl.1 hl.2
    have hsum : (∀ first, first <+: zs → (first.sum : ℤ) = b → (zs.sum : ℤ) ≤ b + 1) ↔ (zs.sum : ℤ) ≤ b + 1 :=
      ⟨fun hall => hf.elim fun l hl => hall l hl.1 hl.2, fun hs _ _ _ => hs⟩
    rw [hsum]
    by_cases hs : (zs.sum : ℤ) ≤ b + 1
    · obtain ⟨hz, rfl⟩ := hle hs
      rw [hz]
      simp only [hs, hno, and_false, or_false, true_and]
      exact ⟨fun h => (Int.lt_or_le b held).elim (fun hlt => .inr (h hlt)) .inl,
        fun h hlt => h.resolve_left (Int.not_le.mpr hlt)⟩
    · have := hge (by omega)
      exact ⟨fun h => absurd h.1 (by omega), fun h => absurd h.1 hs⟩
  · have hno : ∀ first, first <+: zs → (first.sum : ℤ) ≠ b := fun l hl hs => hf ⟨l, hl, hs⟩
    by_cases hs : b < zs.sum
    · obtain ⟨hz, he⟩ := habove hno hs
      exact ⟨fun _ => ⟨fun l hl hs => absurd hs (hno l hl), .inr (.inr ⟨hs, hno⟩)⟩,
        fun _ => ⟨by omega, fun _ => .inl he⟩⟩
    · have hlt : (zs.sum : ℤ) < b := by
        have := hno zs (List.prefix_refl zs)
        omega
      obtain ⟨hz, rfl⟩ := hbelow hlt
      refine ⟨fun h => ⟨fun l hl hs => absurd hs (hno l hl), ?_⟩, fun h => ⟨by omega, fun hgt => ?_⟩⟩
      · exact (Int.lt_or_le b held).elim (fun hgt => .inr (.inl (h.2 hgt))) .inl
      · rcases h.2 with h | h | h
        · omega
        · exact h
        · exact absurd h.1 hs

end Ledger

/-- The run that copies all bodies whole adds copies to those there are. -/
theorem whole_copies (ms : List Member) (s : Progress) (b : ℤ) :
    ∃ zs, (extractMembers K copyWhole dest overwrite limits ms { s with budget := b }).1.copies = s.copies ++ zs := by
  induction ms generalizing s with
  | nil => exact ⟨[], by simp [extractMembers]⟩
  | cons m ms ih =>
    rcases extractMember_cases K dest overwrite limits m s with
      ⟨d, w, ys, _ | err, -, h⟩ | ⟨body, after, w, h⟩
    · rw [extractMembers_cons_none (h copyWhole b)]
      obtain ⟨zs, hzs⟩ := ih ⟨d, b, w, s.copies ++ ys⟩
      exact ⟨ys ++ zs, by rw [hzs, List.append_assoc]⟩
    · rw [extractMembers_cons_some (h copyWhole b)]
      exact ⟨ys, rfl⟩
    · rcases hw : body.whole with ⟨n, e⟩
      have hc := h copyWhole b
      simp only [copyWhole, hw] at hc
      cases e with
      | none =>
        rw [extractMembers_cons_none hc]
        obtain ⟨zs, hzs⟩ := ih ⟨after n none, b, w none, s.copies ++ [n]⟩
        exact ⟨n :: zs, by rw [hzs, List.append_assoc]; rfl⟩
      | some err =>
        rw [extractMembers_cons_some hc]
        exact ⟨[n], rfl⟩

/-- **What a budget makes of a run**: the copies and the error of the run with the budget, beside
those of the run from the same state that copies all bodies whole. -/
theorem ledger_of_budget (ms : List Member) (s : Progress) {b : ℤ} (b₀ : ℤ) (h₀ : 0 ≤ b) (hmax : b < 2 ^ 63 - 1) :
    ∃ zs zs', (extractMembers K copyWhole dest overwrite limits ms { s with budget := b₀ }).1.copies = s.copies ++ zs ∧
      (extractMembers K copyWithin dest overwrite limits ms { s with budget := b }).1.copies = s.copies ++ zs' ∧
      Ledger b zs (extractMembers K copyWhole dest overwrite limits ms { s with budget := b₀ }).2
        zs' (extractMembers K copyWithin dest overwrite limits ms { s with budget := b }).2 := by
  induction ms generalizing s b with
  | nil => exact ⟨[], [], by simp [extractMembers], by simp [extractMembers], Ledger.refl _ (.inr (by simpa using h₀))⟩
  | cons m ms ih =>
    rcases extractMember_cases K dest overwrite limits m s with
      ⟨d, w, ys, _ | err, hys, h⟩ | ⟨body, after, w, h⟩
    · obtain rfl : ys = [] := hys.resolve_right fun h => h.2 rfl
      rw [extractMembers_cons_none (h copyWhole b₀), extractMembers_cons_none (h copyWithin b)]
      obtain ⟨zs, zs', hzs, hzs', hl⟩ := ih ⟨d, b, w, s.copies ++ []⟩ h₀ hmax
      exact ⟨zs, zs', by simpa using hzs, by simpa using hzs', hl⟩
    · rw [extractMembers_cons_some (h copyWhole b₀), extractMembers_cons_some (h copyWithin b)]
      refine ⟨ys, ys, rfl, rfl, Ledger.refl _ (.inr ?_)⟩
      rcases hys with rfl | ⟨rfl, -⟩ <;> simpa using h₀
    · rcases hw : body.whole with ⟨n, e⟩
      have hwhole := h copyWhole b₀
      have hwithin := h copyWithin b
      simp only [copyWhole, hw] at hwhole
      by_cases hn : (n : ℤ) ≤ limitOf b
      · -- the body fits
        rw [copyWithin_of_le hmax (by rw [hw]; exact hn)] at hwithin
        simp only [hw] at hwithin
        cases e with
        | some err =>
          rw [extractMembers_cons_some hwhole, extractMembers_cons_some hwithin]
          refine ⟨[n], [n], rfl, rfl, Ledger.refl _ ?_⟩
          rw [limitOf] at hn
          split at hn
          · exact .inl (by omega)
          · exact .inr (by simpa using hn)
        | none =>
          rw [extractMembers_cons_none hwhole, extractMembers_cons_none hwithin]
          rcases (by omega : b = 0 ∨ 0 < b) with rfl | hb
          · obtain ⟨zs, zs', hzs, hzs', hl⟩ := ih ⟨after n none, 0, w none, s.copies ++ [n]⟩ h₀ hmax
            exact ⟨n :: zs, n :: zs', by simpa using hzs, by simpa using hzs', hl.cons_zero⟩
          · rw [limitOf, if_neg (by omega)] at hn
            obtain ⟨zs, zs', hzs, hzs', hl⟩ :=
              ih ⟨after n none, 0, w none, s.copies ++ [n]⟩ (b := b - n) (by omega) (by omega)
            rw [if_pos ⟨rfl, hb⟩]
            exact ⟨n :: zs, n :: zs', by simpa using hzs, by simpa using hzs', hl.cons hb⟩
      · -- the body exceeds the limit
        rw [copyWithin_of_gt hmax (by rw [hw]; exact Int.not_le.mp hn)] at hwithin
        rw [extractMembers_cons_some hwithin]
        have hover : 0 < b ∧ b < n ∧ ((limitOf b + 1).toNat : ℤ) = b + 1 ∨ b = 0 ∧ 2 ≤ n ∧ 2 ≤ (limitOf b + 1).toNat := by
          rw [limitOf] at hn ⊢
          split at hn <;> omega
        cases e with
        | some err =>
          rw [extractMembers_cons_some hwhole]
          exact ⟨[n], _, rfl, rfl, Ledger.exceeded hover⟩
        | none =>
          rw [extractMembers_cons_none hwhole]
          obtain ⟨zs, hzs⟩ := whole_copies K dest overwrite limits ms
            ⟨after n none, b₀, w none, s.copies ++ [n]⟩ b₀
          exact ⟨n :: zs, _, by simpa using hzs, rfl, Ledger.exceeded hover⟩

/-- With the largest budget the run is the one in which nothing is copied. -/
theorem extractMembers_largest (ms : List Member) (s : Progress) (b₀ : ℤ) :
    (extractMembers K copyWithin dest overwrite limits ms { s with budget := 2 ^ 63 - 1 }).2 =
        (extractMembers K copyNothing dest overwrite limits ms { s with budget := b₀ }).2 ∧
      ∃ zs, zs.sum = 0 ∧
        (extractMembers K copyWithin dest overwrite limits ms { s with budget := 2 ^ 63 - 1 }).1.copies =
          s.copies ++ zs := by
  induction ms generalizing s with
  | nil => exact ⟨rfl, [], rfl, by simp [extractMembers]⟩
  | cons m ms ih =>
    rcases extractMember_cases K dest overwrite limits m s with
      ⟨d, w, ys, _ | err, hys, h⟩ | ⟨body, after, w, h⟩
    · obtain rfl : ys = [] := hys.resolve_right fun h => h.2 rfl
      rw [extractMembers_cons_none (h copyWithin _), extractMembers_cons_none (h copyNothing b₀)]
      obtain ⟨he, zs, hz, hzs⟩ := ih ⟨d, b₀, w, s.copies ++ []⟩
      exact ⟨he, zs, hz, by rw [hzs, List.append_nil]⟩
    · rw [extractMembers_cons_some (h copyWithin _), extractMembers_cons_some (h copyNothing b₀)]
      refine ⟨rfl, ys, ?_, rfl⟩
      rcases hys with rfl | ⟨rfl, -⟩ <;> rfl
    · have hwithin := h copyWithin (2 ^ 63 - 1)
      rw [copyWithin_largest] at hwithin
      rw [extractMembers_cons_none hwithin, extractMembers_cons_none (h copyNothing b₀)]
      obtain ⟨he, zs, hz, hzs⟩ := ih ⟨after 0 none, b₀, w none, s.copies ++ [0]⟩
      exact ⟨he, 0 :: zs, by simpa using hz, by simpa [copyNothing] using hzs⟩

/-! ### The call -/

theorem run_eq (copy : ℤ → Body → Copied) (a : Archive) (d : Fs) :
    a.run K dest overwrite limits copy d =
      withEnding a (extractMembers K copy dest overwrite limits a.members ⟨d, 0, 0, []⟩) := by
  rw [Archive.run]
  rcases extractMembers K copy dest overwrite limits a.members ⟨d, 0, 0, []⟩ with ⟨s, _ | err⟩ <;> rfl

theorem or_ne_none {e f : Option Error} : e.or f ≠ none ↔ e ≠ none ∨ f ≠ none := by
  cases e <;> simp

/-- An archive unpacks within a budget just when it fits. -/
theorem unpack_budgeted_iff (a : Archive) (d : Fs) (h₀ : 0 < limits.maxBytes) (hmax : limits.maxBytes < 2 ^ 63) :
    Budgeted limits.maxBytes (.ok a) (unpack K a dest overwrite limits d) ↔
      a.Fits K dest overwrite limits limits.maxBytes d := by
  rw [Budgeted, Archive.Fits]
  simp only [unpack_eq, run_eq, withEnding, Except.ok.injEq, forall_eq', or_ne_none]
  by_cases hb : limits.maxBytes = 2 ^ 63 - 1
  · obtain ⟨he, zs, hz, hzs⟩ := extractMembers_largest K dest overwrite limits a.members ⟨d, 0, 0, []⟩ 0
    rw [if_pos hb, hb, he, hzs, List.nil_append, hz]
    exact ⟨fun h => (Int.lt_or_le (2 ^ 63 - 1) a.held).elim (fun hlt => .inr (h.2 hlt)) .inl,
      fun h => ⟨by decide, fun hlt => h.resolve_left (Int.not_le.mpr hlt)⟩⟩
  · obtain ⟨zs, zs', hzs, hzs', hl⟩ := ledger_of_budget K dest overwrite limits a.members ⟨d, 0, 0, []⟩ 0 (by omega : 0 ≤ limits.maxBytes) (by omega)
    rw [if_neg hb, hzs, hzs', List.nil_append, List.nil_append]
    exact hl.budgeted_iff a.held (a.ending ≠ none)

/-- **When an extraction keeps its byte budget**: exactly when the archive it finds, if it
gets as far as to write any of it, fits the budget on the file system as it is then. -/
theorem extract_budgeted_iff (C : Codec) (archivePath : Text) (d : Fs) (h₀ : 0 < limits.maxBytes)
    (hmax : limits.maxBytes < 2 ^ 63) :
    Budgeted limits.maxBytes (prepare K C archivePath dest d).2
        (extract K C archivePath dest overwrite limits d) ↔
      ∀ a, (prepare K C archivePath dest d).2 = .ok a →
        a.Fits K dest overwrite limits limits.maxBytes (prepare K C archivePath dest d).1 := by
  rw [extract]
  rcases prepare K C archivePath dest d with ⟨d', err | a⟩
  · exact ⟨fun _ _ => (by simp), fun _ => ⟨by simp only [List.sum_nil]; omega, fun _ => (by simp)⟩⟩
  · refine (unpack_budgeted_iff K dest overwrite limits a d' h₀ hmax).trans ⟨fun h b hb => ?_, fun h => h a rfl⟩
    exact Except.ok.inj hb ▸ h

/-- A zip of two bytes, extracted with a budget of three. -/
theorem extract_budgeted_two_bytes :
    Budgeted 3 (prepare .willing (zipOf [.plain ['x'] ['1', '2']]) ['/', 'a'] ['/', 'd'] (.start oneZip)).2
      (extract .willing (zipOf [.plain ['x'] ['1', '2']]) ['/', 'a'] ['/', 'd'] false ⟨0, 3⟩ (.start oneZip)) := by
  refine (extract_budgeted_iff .willing ['/', 'd'] false ⟨0, 3⟩ _ ['/', 'a'] (.start oneZip) (by decide)
    (by decide)).mpr fun a ha => ?_
  obtain rfl := Except.ok.inj ((by rfl : _ = Except.ok _).symm.trans ha)
  exact ⟨fun _ _ _ => by decide, .inl (by decide)⟩

/-- The first member uses the budget of three bytes up, and the five bytes of the second are written too. -/
theorem used_up_budget_is_no_limit :
    ¬ Budgeted 3
      (prepare .willing (zipOf [.plain ['x'] ['1', '2', '3'], .plain ['y'] ['1', '2', '3', '4', '5']]) ['/', 'a'] ['/', 'd']
        (.start oneZip)).2
      (extract .willing (zipOf [.plain ['x'] ['1', '2', '3'], .plain ['y'] ['1', '2', '3', '4', '5']]) ['/', 'a'] ['/', 'd']
        false ⟨0, 3⟩ (.start oneZip)) :=
  fun h => absurd h.1 (by decide)

end OpenshiftConsole.Filesystem.Extract
