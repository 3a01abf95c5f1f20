import Mathlib.Algebra.GroupWithZero.Nat
import Mathlib.Data.List.Pairwise
import Mathlib.Data.Set.Function
import Mathlib.Data.Set.Lattice
import Mathlib.Order.CompletePartialOrder
import OpenshiftConsole.Library.Fields
import OpenshiftConsole.Library.Lines
import OpenshiftConsole.Library.PosixTz

/-!
# User ids inside and outside

A pod in a user namespace of its own numbers its users differently from the node. `loadIDMap`
reads the ranges of ids from the kernel's table, `ToContainer` and `ToHost` look an id up in them:
the same loop, once from the side of the node and once from the side of the container
(`translate`).

The ranges of a kernel's table do not overlap, on either side, and none runs past the last
id (`IDMap.Valid`). Then the two are inverse to each other between the ids mapped (`idMaps_invert`).
-/

namespace OpenshiftConsole.Filesystem.IdMap

open OpenshiftConsole.Library
open OpenshiftConsole.Library.Lines
open OpenshiftConsole.Library.PosixTz (decimal isDigit_of_mem_decimal length_decimal_le_iff)

/-! ### Tables -/

/-- `idRange` -/
structure IdRange where
  /-- The first id inside. -/
  container : UInt32
  /-- The first id outside. -/
  host : UInt32
  /-- How many ids there are. -/
  length : UInt32
deriving DecidableEq

/-- `IDMap` -/
structure IDMap where
  ranges : List IdRange

/-- `strconv.ParseUint(s, 10, 32)` -/
def parseUint (s : Text) : Option UInt32 :=
  let n := Nat.ofDigitChars 10 s 0
  if s ≠ [] ∧ s.all Char.isDigit ∧ n < 2 ^ 32 then some (.ofNat n) else none

/-- A line of the table, if it is one. -/
def parseRange (line : Text) : Option IdRange :=
  match fields isSpace line with
  | [container, host, length] =>
    match parseUint container, parseUint host, parseUint length with
    | some container, some host, some length => some ⟨container, host, length⟩
    | _, _, _ => none
  | _ => none

/-- `bufio.MaxScanTokenSize`, in bytes. -/
def maxScanTokenSize : ℕ := 64 * 1024

/-- The lines that a `bufio.Scanner` gives: it stops at one that is too long, and takes a carriage return off an end. -/
def scanLines (text : Text) : List Text :=
  ((fileLines text).takeWhile fun l => (l.map Char.utf8Size).sum < maxScanTokenSize).map fun l =>
    if l.getLast? = some '\r' then l.dropLast else l

/-- The table as it is read. -/
def parseMap (text : Text) : IDMap := ⟨(scanLines text).filterMap parseRange⟩

/-- `isIdentity` -/
def IDMap.isIdentity (m : IDMap) : Bool := m.ranges.all fun r => r.container = r.host

/-- A table that is the identity is not kept: `nil` stands for it. -/
def IDMap.collapse (m : IDMap) : Option IDMap := if m.isIdentity then none else some m

/-- `loadIDMap`, of a file that there is or not. -/
def loadIDMap (file : Option Text) : Option IDMap :=
  match file with
  | none => none
  | some text => (parseMap text).collapse

/-- The loop of `ToContainer` and `ToHost`: an id of one side, counted on from the first one of the range it is in. -/
def translate (start image : IdRange → UInt32) (ranges : List IdRange) (id : UInt32) : UInt32 :=
  match ranges.find? fun r => id ≥ start r ∧ id - start r < r.length with
  | some r => image r + (id - start r)
  | none => id

/-- `ToContainer` -/
def toContainer (m : Option IDMap) (host : UInt32) : UInt32 :=
  match m with
  | none => host
  | some m => translate IdRange.host IdRange.container m.ranges host

/-- `ToHost` -/
def toHost (m : Option IDMap) (container : UInt32) : UInt32 :=
  match m with
  | none => container
  | some m => translate IdRange.container IdRange.host m.ranges container

/-! ### The ids of a range -/

/-- The ids that a range has on a side. -/
def idsOf (start : IdRange → UInt32) (r : IdRange) : Set UInt32 :=
  { id | (start r).toNat ≤ id.toNat ∧ id.toNat < (start r).toNat + r.length.toNat }

/-- The ids that are mapped, on a side. -/
def mapped (start : IdRange → UInt32) (ranges : List IdRange) : Set UInt32 := { id | ∃ r ∈ ranges, id ∈ idsOf start r }

/-- The ranges do not overlap on a side, and none runs past the last id. -/
structure Apart (start : IdRange → UInt32) (ranges : List IdRange) : Prop where
  disjoint : ranges.Pairwise fun r s => Disjoint (idsOf start r) (idsOf start s)
  within : ∀ r ∈ ranges, (start r).toNat + r.length.toNat ≤ 2 ^ 32

/-- The ids that are mapped, as the node numbers them. -/
def IDMap.hostIds (m : IDMap) : Set UInt32 := mapped IdRange.host m.ranges

/-- The ids that are mapped, as the container numbers them. -/
def IDMap.containerIds (m : IDMap) : Set UInt32 := mapped IdRange.container m.ranges

/-- A map as the kernel accepts it. -/
structure IDMap.Valid (m : IDMap) : Prop where
  container : Apart IdRange.container m.ranges
  host : Apart IdRange.host m.ranges

variable {start image : IdRange → UInt32} {ranges : List IdRange} {r : IdRange} {id : UInt32}

theorem mem_idsOf : id ∈ idsOf start r ↔ id ≥ start r ∧ id - start r < r.length := by
  rw [idsOf, Set.mem_ofPred_eq, ge_iff_le, UInt32.le_iff_toNat_le, UInt32.lt_iff_toNat_lt]
  refine and_congr_right fun hle => ?_
  rw [UInt32.toNat_sub_of_le _ _ (UInt32.le_iff_toNat_le.mpr hle)]
  omega

/-- Counted from one start or from the other, an id of a range is one of the range. -/
theorem idsOf_shift (hr : (start r).toNat + r.length.toNat ≤ 2 ^ 32) (hi : (image r).toNat + r.length.toNat ≤ 2 ^ 32)
    (hid : id ∈ idsOf start r) : image r + (id - start r) ∈ idsOf image r := by
  obtain ⟨hle, hlt⟩ := hid
  rw [idsOf, Set.mem_ofPred_eq, UInt32.toNat_add, UInt32.toNat_sub_of_le _ _ (UInt32.le_iff_toNat_le.mpr hle)]
  omega

/-! ### Looking an id up -/

/-- An id that is mapped is in one range, which the loop finds. -/
theorem translate_of_mem (h : Apart start ranges) (hr : r ∈ ranges) (hid : id ∈ idsOf start r) :
    translate start image ranges id = image r + (id - start r) := by
  have hsome : (ranges.find? fun r => id ≥ start r ∧ id - start r < r.length).isSome :=
    List.find?_isSome.mpr ⟨r, hr, decide_eq_true (mem_idsOf.mp hid)⟩
  obtain ⟨s, hs⟩ := Option.isSome_iff_exists.mp hsome
  have hcond : decide (id ≥ start s ∧ id - start s < s.length) = true := List.find?_some (p := fun r => decide _) hs
  obtain rfl : s = r := by
    by_contra hne
    have : Std.Symm fun r s => Disjoint (idsOf start r) (idsOf start s) := ⟨fun _ _ h => h.symm⟩
    have hdis := h.disjoint.forall (List.mem_of_find?_eq_some hs) hr hne
    exact Set.disjoint_left.mp hdis (mem_idsOf.mpr (of_decide_eq_true hcond)) hid
  rw [translate, hs]

/-- An id that is not mapped stays. -/
theorem translate_of_notMem (hid : id ∉ mapped start ranges) : translate start image ranges id = id := by
  have hnone : (ranges.find? fun r => id ≥ start r ∧ id - start r < r.length) = none := by
    rw [List.find?_eq_none]
    intro r hr hcond
    exact hid ⟨r, hr, mem_idsOf.mpr (of_decide_eq_true hcond)⟩
  rw [translate, hnone]

/-- What is mapped on one side is mapped on the other. -/
theorem translate_mapsTo (hs : Apart start ranges) (hi : Apart image ranges) :
    Set.MapsTo (translate start image ranges) (mapped start ranges) (mapped image ranges) := by
  rintro id ⟨r, hr, hid⟩
  rw [translate_of_mem hs hr hid]
  exact ⟨r, hr, idsOf_shift (hs.within r hr) (hi.within r hr) hid⟩

/-- There and back again. -/
theorem translate_leftInvOn (hs : Apart start ranges) (hi : Apart image ranges) :
    Set.LeftInvOn (translate image start ranges) (translate start image ranges) (mapped start ranges) := by
  rintro id ⟨r, hr, hid⟩
  have himage := idsOf_shift (hs.within r hr) (hi.within r hr) hid
  rw [translate_of_mem hs hr hid, translate_of_mem hi hr himage, UInt32.add_comm (image r), UInt32.add_sub_cancel,
    UInt32.add_comm, UInt32.sub_add_cancel]

/-- Ranges that begin at the same id on both sides change nothing. -/
theorem translate_identity (h : ∀ r ∈ ranges, start r = image r) : translate start image ranges id = id := by
  rw [translate]
  split
  · rename_i r hr
    rw [← h r (List.mem_of_find?_eq_some hr), UInt32.add_comm, UInt32.sub_add_cancel]
  · rfl

/-- The two directions of a map are inverse to each other between the ids it maps, and leave others as they are. -/
structure Inverts (m : IDMap) (inward outward : UInt32 → UInt32) : Prop where
  inverse : Set.InvOn outward inward m.hostIds m.containerIds
  bijOn_inward : Set.BijOn inward m.hostIds m.containerIds
  bijOn_outward : Set.BijOn outward m.containerIds m.hostIds
  unmapped_inward : ∀ id ∉ m.hostIds, inward id = id
  unmapped_outward : ∀ id ∉ m.containerIds, outward id = id

theorem IDMap.Valid.inverts {m : IDMap} (h : m.Valid) : Inverts m (toContainer (some m)) (toHost (some m)) := by
  have hinv : Set.InvOn (toHost (some m)) (toContainer (some m)) m.hostIds m.containerIds :=
    ⟨translate_leftInvOn h.host h.container, translate_leftInvOn h.container h.host⟩
  have hinward : Set.MapsTo (toContainer (some m)) m.hostIds m.containerIds := translate_mapsTo h.host h.container
  have houtward : Set.MapsTo (toHost (some m)) m.containerIds m.hostIds := translate_mapsTo h.container h.host
  exact ⟨hinv, hinv.bijOn hinward houtward, hinv.symm.bijOn houtward hinward,
    fun _ => translate_of_notMem, fun _ => translate_of_notMem⟩

/-- A table that is not kept changes nothing. -/
theorem collapse_agrees (m : IDMap) : toContainer m.collapse = toContainer (some m) ∧ toHost m.collapse = toHost (some m) := by
  rw [IDMap.collapse]
  split
  · rename_i h
    have hsame : ∀ r ∈ m.ranges, r.container = r.host := fun r hr => of_decide_eq_true (List.all_eq_true.mp h r hr)
    exact ⟨funext fun _ => (translate_identity fun r hr => (hsame r hr).symm).symm,
      funext fun _ => (translate_identity hsame).symm⟩
  · exact ⟨rfl, rfl⟩

/-! ### The kernel's file -/

/-- `%10u` -/
def column (n : UInt32) : Text := List.replicate (10 - (decimal n.toNat).length) ' ' ++ decimal n.toNat

theorem parseUint_decimal (n : UInt32) : parseUint (decimal n.toNat) = some n := by
  have hvalue : Nat.ofDigitChars 10 (decimal n.toNat) 0 = n.toNat := Nat.ofDigitChars_ten_toDigits
  have hall : (decimal n.toNat).all Char.isDigit = true := List.all_eq_true.mpr fun _ => isDigit_of_mem_decimal
  rw [parseUint, hvalue, if_pos ⟨Nat.toDigits_ne_nil, hall, n.toNat_lt⟩, UInt32.ofNat_toNat]

/-- A number is a field. -/
theorem isWord_decimal (n : ℕ) : IsWord isSpace (decimal n) := by
  refine ⟨Nat.toDigits_ne_nil, fun c hc => ?_⟩
  have hdigit := isDigit_of_mem_decimal hc
  rw [Char.isDigit, Bool.and_eq_true, decide_eq_true_eq, decide_eq_true_eq, ge_iff_le, UInt32.le_iff_toNat_le,
    UInt32.le_iff_toNat_le] at hdigit
  obtain ⟨hle, hge⟩ : 48 ≤ c.toNat ∧ c.toNat ≤ 57 := hdigit
  rw [isSpace, decide_eq_false_iff_not]
  simp
  omega

theorem length_column (n : UInt32) : (column n).length = 10 := by
  have hlen := (length_decimal_le_iff (n := n.toNat) (k := 10) (by decide)).mpr (Nat.lt_of_lt_of_le n.toNat_lt (by decide))
  rw [column, List.length_append, List.length_replicate]
  omega

theorem isSpace_of_mem_padding {k : ℕ} {c : Char} (hc : c ∈ List.replicate k ' ') : isSpace c = true :=
  List.eq_of_mem_replicate hc ▸ rfl

/-- A range, as a line of the file. -/
def printRange (r : IdRange) : Text := column r.container ++ ' ' :: (column r.host ++ ' ' :: column r.length)

theorem parseRange_printRange (r : IdRange) : parseRange (printRange r) = some r := by
  have hcolumn : ∀ (n : UInt32) (s : Text), fields isSpace (column n ++ ' ' :: s) = decimal n.toNat :: fields isSpace s := by
    intro n s
    rw [column, List.append_assoc, fields_append fun _ => isSpace_of_mem_padding, fields_word_append (isWord_decimal _) rfl]
  have hlast : fields isSpace (column r.length) = [decimal r.length.toNat] := by
    rw [column, fields_append fun _ => isSpace_of_mem_padding, fields_word (isWord_decimal _)]
  rw [parseRange, printRange, hcolumn, hcolumn, hlast]
  simp only [parseUint_decimal]

/-- A line of the file has spaces and digits only. -/
theorem mem_printRange {r : IdRange} {c : Char} (hc : c ∈ printRange r) : c = ' ' ∨ c.isDigit = true := by
  have hcolumn : ∀ n : UInt32, c ∈ column n → c = ' ' ∨ c.isDigit = true := by
    intro n hc
    exact (List.mem_append.mp hc).imp List.eq_of_mem_replicate isDigit_of_mem_decimal
  rw [printRange, List.mem_append, List.mem_cons, List.mem_append, List.mem_cons] at hc
  rcases hc with hc | hc | hc | hc | hc
  · exact hcolumn _ hc
  · exact .inl hc
  · exact hcolumn _ hc
  · exact .inl hc
  · exact hcolumn _ hc

theorem notMem_printRange {c : Char} (hs : c ≠ ' ') (hd : c.isDigit = false) (r : IdRange) : c ∉ printRange r := by
  intro hc
  rcases mem_printRange hc with h | h
  · exact hs h
  · rw [hd] at h
    cases h

/-- A line of the file is short. -/
theorem size_printRange (r : IdRange) : ((printRange r).map Char.utf8Size).sum < maxScanTokenSize := by
  have hsize : ∀ l : Text, (l.map Char.utf8Size).sum ≤ 4 * l.length := by
    intro l
    induction l with
    | nil => exact Nat.le_refl 0
    | cons c l ih =>
      have := c.utf8Size_le_four
      rw [List.map_cons, List.sum_cons, List.length_cons]
      omega
  have hlen : (printRange r).length = 32 := by
    simp only [printRange, List.length_append, List.length_cons, length_column]
  have := hsize (printRange r)
  rw [maxScanTokenSize]
  omega

/-- The file `uid_map`, as the kernel prints it. -/
def uidMap (m : IDMap) : Text := m.ranges.flatMap fun r => printRange r ++ ['\n']

/-- The file is read as it was printed. -/
theorem parseMap_uidMap (m : IDMap) : parseMap (uidMap m) = m := by
  obtain ⟨ranges⟩ := m
  rw [parseMap, uidMap, IDMap.mk.injEq]
  induction ranges with
  | nil => rfl
  | cons r ranges ih =>
    have hnl := notMem_printRange (c := '\n') (by decide) rfl r
    have hcr : (printRange r).getLast? ≠ some '\r' := fun h =>
      notMem_printRange (by decide) rfl r (List.mem_of_getLast? h)
    rw [List.flatMap_cons, List.append_assoc, List.singleton_append, scanLines, fileLines, getlines_line_append hnl,
      List.map_cons, chomp_append_newline hnl, List.takeWhile_cons, if_pos (decide_eq_true (size_printRange r)), List.map_cons,
      if_neg hcr, List.filterMap_cons, parseRange_printRange]
    exact congrArg (r :: ·) ih

/-- **The two are inverse to each other**, in a map as it is and as it is loaded from the kernel's file, and a map
that is not kept agrees with what was read. -/
theorem idMaps_invert (m : IDMap) (h : m.Valid) :
    Inverts m (toContainer (some m)) (toHost (some m)) ∧
      Inverts m (toContainer (loadIDMap (some (uidMap m)))) (toHost (loadIDMap (some (uidMap m)))) ∧
      ∀ text, toContainer (loadIDMap (some text)) = toContainer (some (parseMap text)) ∧
        toHost (loadIDMap (some text)) = toHost (some (parseMap text)) := by
  refine ⟨h.inverts, ?_, fun text => collapse_agrees _⟩
  obtain ⟨hto, hback⟩ := collapse_agrees (parseMap (uidMap m))
  rw [loadIDMap, hto, hback, parseMap_uidMap]
  exact h.inverts

/-- Two ranges of a container's ids, far apart on the node. -/
def twoRanges : IDMap := ⟨[⟨0, 100000, 1000⟩, ⟨2000, 200000, 500⟩]⟩

theorem idMaps_invert_twoRanges :
    Inverts twoRanges (toContainer (some twoRanges)) (toHost (some twoRanges)) ∧
      Inverts twoRanges (toContainer (loadIDMap (some (uidMap twoRanges)))) (toHost (loadIDMap (some (uidMap twoRanges)))) := by
  have hapart : ∀ start : IdRange → UInt32, (start ⟨0, 100000, 1000⟩).toNat + 1000 ≤ (start ⟨2000, 200000, 500⟩).toNat →
      (start ⟨2000, 200000, 500⟩).toNat + 500 ≤ 2 ^ 32 → Apart start twoRanges.ranges := by
    intro start hlt hle
    refine ⟨List.pairwise_pair.mpr (Set.disjoint_left.mpr fun id h₁ h₂ => ?_), ?_⟩
    · have := h₁.2
      have := h₂.1
      simp only [UInt32.reduceToNat] at *
      omega
    · intro r hr
      rcases List.mem_pair.mp hr with rfl | rfl
      · exact Nat.le_trans hlt (Nat.le_trans (Nat.le_add_right _ 500) hle)
      · exact hle
  have h := idMaps_invert twoRanges ⟨hapart _ (by decide) (by decide), hapart _ (by decide) (by decide)⟩
  exact ⟨h.1, h.2.1⟩

end OpenshiftConsole.Filesystem.IdMap
