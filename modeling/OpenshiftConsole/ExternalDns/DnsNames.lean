import OpenshiftConsole.ExternalDns.DnsMessage
import OpenshiftConsole.Library.BigEndian

/-!
# Names in a DNS message

`NameAt` says how a name stands in a message: label by label, each behind its length, up to an empty one or to a
pointer, behind which it goes on elsewhere. The offset behind a name is behind the first of its pointers.

`decodeDNSName` reads exactly the names that take at most 64 pointers (`decodeDNSName_ok_iff`), wherever they point to,
and there is only one name at an offset (`NameAt.unique`). What `encodeDNSName` writes is such a name
(`nameAt_of_encodeDNSName`), whose labels are those of the text that are not empty.
-/

namespace OpenshiftConsole.ExternalDns.DnsNames

open OpenshiftConsole.Library OpenshiftConsole.Library.BigEndian
open OpenshiftConsole.ExternalDns.DnsMessage

/-- The labels of a name, joined by dots. -/
def dotted (labels : List Bytes) : Bytes := [46].intercalate labels

/-- A name in a message: where it stands, its labels, the offset behind it, and the number of pointers it takes. A
length below 192 is that of a label, as the decoder has it. -/
inductive NameAt (msg : Bytes) : ℕ → List Bytes → ℕ → ℕ → Prop where
  | root {offset} : At msg offset [0] → NameAt msg offset [] (offset + 1) 0
  | label {offset length label labels next jumps} : length ≠ 0 → length.toNat < 192 → label.length = length.toNat →
      At msg offset (length :: label) → NameAt msg (offset + 1 + length.toNat) labels next jumps →
      NameAt msg offset (label :: labels) next jumps
  | pointer {offset hi lo labels next jumps} : 192 ≤ hi.toNat → At msg offset [hi, lo] →
      NameAt msg ((hi.toNat - 192) * 2 ^ 8 + lo.toNat) labels next jumps → NameAt msg offset labels (offset + 2) (jumps + 1)

variable {msg b xs : Bytes} {start offset next next' jumps jumps' fuel : ℕ} {labels labels' : List Bytes} {s : NameState}
  {v : UInt16} {w : UInt32} {hi lo length : UInt8} {label name enc : Bytes}

/-! ### Writing names -/

/-- `strings.Trim(name, ".")` -/
def trimDots (name : Bytes) : Bytes := ((name.dropWhile (· = 46)).reverse.dropWhile (· = 46)).reverse

/-- `dns label %q exceeds 63 bytes` -/
structure LabelTooLong where
  label : Bytes

/-- The loop of `encodeDNSName`. -/
def encodeLabels : List Bytes → Bytes → Except LabelTooLong Bytes
  | [], out => .ok (out ++ [0])
  | label :: labels, out =>
    if label = [] then encodeLabels labels out
    else if label.length > 63 then .error ⟨label⟩
    else encodeLabels labels (out ++ [label.length.toUInt8] ++ label)

/-- `encodeDNSName` -/
def encodeDNSName (name : Bytes) : Except LabelTooLong Bytes := encodeLabels ((trimDots name).splitOn 46) []

/-- The labels of a name that are not empty. -/
def labelsOf (name : Bytes) : List Bytes := (name.splitOn 46).filter (· ≠ [])

/-! ### Reading what stands in a message -/

theorem index_of_at (h : At msg start [hi]) : index msg start = .returned hi := by
  rw [index, at_singleton.mp h]
  rfl

theorem subslice_of_at (h : At msg start xs) (hxs : xs ≠ []) : subslice msg start (start + xs.length) = .returned xs := by
  rw [subslice, if_pos ⟨Nat.le_add_right .., h.length_le hxs⟩, h.slice]
  rfl

theorem uint16At_of_at (h : At msg start [hi, lo]) : uint16At msg start = .returned (ofBytes16 hi lo) := by
  rw [uint16At, show start + 2 = start + [hi, lo].length from rfl, subslice_of_at h (List.cons_ne_nil _ _)]
  rfl

theorem uint16At_of_bytes16 (h : At msg start (bytes16 v)) : uint16At msg start = .returned v := by
  rw [uint16At_of_at h, ofBytes16_bytes16]

theorem uint32At_of_bytes32 (h : At msg start (bytes32 w)) : uint32At msg start = .returned w := by
  rw [uint32At, show start + 4 = start + (bytes32 w).length from rfl, subslice_of_at h (List.cons_ne_nil _ _)]
  exact congrArg Exec.returned (ofBytes32_bytes32 w)

/-- Where there are two bytes there is a number. -/
theorem exists_bytes16 (msg : Bytes) (start : ℕ) (h : start + 2 ≤ msg.length) : ∃ v, At msg start (bytes16 v) := by
  have hat := at_slice msg start (start + 2)
  have hlen : ((msg.take (start + 2)).drop start).length = 2 := by
    rw [List.length_drop, List.length_take]
    omega
  obtain ⟨hi, lo, heq⟩ := List.length_eq_two.mp hlen
  refine ⟨ofBytes16 hi lo, ?_⟩
  rwa [bytes16_ofBytes16, ← heq]

theorem exists_bytes32 (msg : Bytes) (start : ℕ) (h : start + 4 ≤ msg.length) : ∃ w, At msg start (bytes32 w) := by
  have hat := at_slice msg start (start + 4)
  have hlen : ((msg.take (start + 4)).drop start).length = 4 := by
    rw [List.length_drop, List.length_take]
    omega
  obtain ⟨b0, b1, b2, b3, heq⟩ := List.length_eq_four.mp hlen
  refine ⟨ofBytes32 b0 b1 b2 b3, ?_⟩
  rwa [bytes32_ofBytes32, ← heq]

/-! ### Steps of the decoder -/

/-- Both of the highest bits of a length are set if it is a pointer. -/
theorem and_C0_eq_iff (length : UInt8) : length &&& 0xC0 = 0xC0 ↔ 192 ≤ length.toNat := by
  have hall : ∀ b : BitVec 8, b &&& 0xC0#8 = 0xC0#8 ↔ 192 ≤ b.toNat := by decide
  rw [← UInt8.toBitVec_inj]
  exact hall length.toBitVec

/-- Where a pointer points to. -/
theorem toNat_pointer (h : 192 ≤ hi.toNat) :
    (ofBytes16 hi lo &&& ~~~0xC000).toNat = (hi.toNat - 192) * 2 ^ 8 + lo.toNat := by
  have hhi := hi.toNat_lt
  have hlo := lo.toNat_lt
  rw [show (~~~0xC000 : UInt16) = 0x3FFF from rfl, UInt16.toNat_and, toNat_ofBytes16,
    show (0x3FFF : UInt16).toNat = 2 ^ 14 - 1 from rfl, Nat.and_two_pow_sub_one_eq_mod]
  omega

theorem nameStep_root (h : At msg s.cursor [0]) :
    nameStep msg s = .returned (.inr (.ok (dotted s.labels, s.stop.getD (s.cursor + 1)))) := by
  have hlen := h.length_le (List.cons_ne_nil _ _)
  rw [List.length_singleton] at hlen
  rw [nameStep, if_neg (by omega), index_of_at h]
  rfl

theorem nameStep_label (hpos : length ≠ 0) (hshort : length.toNat < 192) (hlabel : label.length = length.toNat)
    (h : At msg s.cursor (length :: label)) :
    nameStep msg s = .returned (.inl { s with labels := s.labels ++ [label], cursor := s.cursor + 1 + length.toNat }) := by
  have hlen := h.length_le (List.cons_ne_nil _ _)
  obtain ⟨hlength, hrest⟩ := at_cons.mp h
  rw [List.length_cons, hlabel] at hlen
  have hne : label ≠ [] := by
    intro hnil
    rw [hnil] at hlabel
    exact hpos (UInt8.toNat_inj.mp hlabel.symm)
  rw [nameStep, if_neg (by omega), index_of_at hlength, Exec.returned_bind, if_neg hpos,
    if_neg (by rw [and_C0_eq_iff]; omega)]
  dsimp only
  rw [if_neg (by omega), ← hlabel, subslice_of_at hrest hne]
  rfl

theorem nameStep_pointer (hlong : 192 ≤ hi.toNat) (h : At msg s.cursor [hi, lo]) (hj : s.jumps < 64) :
    nameStep msg s = .returned (.inl { s with
      cursor := (hi.toNat - 192) * 2 ^ 8 + lo.toNat, stop := some (s.stop.getD (s.cursor + 2)), jumps := s.jumps + 1 }) := by
  have hlen := h.length_le (List.cons_ne_nil _ _)
  rw [List.length_cons, List.length_singleton] at hlen
  have hne : hi ≠ 0 := by
    rintro rfl
    exact absurd hlong (by decide)
  rw [nameStep, if_neg (by omega), index_of_at (at_cons.mp h).1, Exec.returned_bind, if_neg hne,
    if_pos ((and_C0_eq_iff hi).mpr hlong), if_neg (by omega), if_neg (by omega), uint16At_of_at h, Exec.returned_bind,
    toNat_pointer hlong]
  rfl

/-- What a turn of the decoder can be. -/
theorem nameStep_cases {r : NameState ⊕ NameResult} (h : nameStep msg s = .returned r) :
    (At msg s.cursor [0] ∧ r = .inr (.ok (dotted s.labels, s.stop.getD (s.cursor + 1)))) ∨
      (∃ length label, length ≠ 0 ∧ length.toNat < 192 ∧ label.length = length.toNat ∧ At msg s.cursor (length :: label) ∧
        r = .inl { s with labels := s.labels ++ [label], cursor := s.cursor + 1 + length.toNat }) ∨
      (∃ hi lo, 192 ≤ hi.toNat ∧ At msg s.cursor [hi, lo] ∧ s.jumps < 64 ∧ r = .inl { s with
        cursor := (hi.toNat - 192) * 2 ^ 8 + lo.toNat, stop := some (s.stop.getD (s.cursor + 2)), jumps := s.jumps + 1 }) ∨
      ∃ err, r = .inr (.error err) := by
  by_cases hend : s.cursor ≥ msg.length
  · rw [nameStep, if_pos hend] at h
    cases h
    exact .inr (.inr (.inr ⟨_, rfl⟩))
  have hbyte : At msg s.cursor [msg[s.cursor]] := at_singleton.mpr (List.getElem?_eq_getElem (by omega))
  generalize msg[s.cursor] = length at hbyte
  by_cases hzero : length = 0
  · subst hzero
    rw [nameStep_root hbyte] at h
    cases h
    exact .inl ⟨hbyte, rfl⟩
  by_cases hpointer : 192 ≤ length.toNat
  · rw [nameStep, if_neg hend, index_of_at hbyte, Exec.returned_bind, if_neg hzero,
      if_pos ((and_C0_eq_iff length).mpr hpointer)] at h
    split_ifs at h with hbehind hjumps
    · cases h
      exact .inr (.inr (.inr ⟨_, rfl⟩))
    · cases h
      exact .inr (.inr (.inr ⟨_, rfl⟩))
    · have hlo : At msg (s.cursor + 1) [msg[s.cursor + 1]] := at_singleton.mpr (List.getElem?_eq_getElem (by omega))
      have hboth := at_append.mpr ⟨hbyte, hlo⟩
      rw [uint16At_of_at hboth, Exec.returned_bind, toNat_pointer hpointer] at h
      cases h
      exact .inr (.inr (.inl ⟨length, _, hpointer, hboth, by omega, rfl⟩))
  · by_cases hlabel : s.cursor + 1 + length.toNat > msg.length
    · rw [nameStep, if_neg hend, index_of_at hbyte, Exec.returned_bind, if_neg hzero,
        if_neg (by rw [and_C0_eq_iff]; exact hpointer)] at h
      dsimp only at h
      rw [if_pos hlabel] at h
      cases h
      exact .inr (.inr (.inr ⟨_, rfl⟩))
    · have hrest := at_slice msg (s.cursor + 1) (s.cursor + 1 + length.toNat)
      have hlen : ((msg.take (s.cursor + 1 + length.toNat)).drop (s.cursor + 1)).length = length.toNat := by
        rw [List.length_drop, List.length_take]
        omega
      generalize (msg.take (s.cursor + 1 + length.toNat)).drop (s.cursor + 1) = label at hrest hlen
      have hboth : At msg s.cursor (length :: label) := at_append.mpr ⟨hbyte, hrest⟩
      rw [nameStep_label hzero (by omega) hlen hboth] at h
      cases h
      exact .inr (.inl ⟨length, label, hzero, by omega, hlen, hboth, rfl⟩)

/-! ### Names -/

/-- A name that takes few enough pointers is read, with any fuel that is enough. -/
theorem loop_of_nameAt (h : NameAt msg offset labels next jumps) (hs : s.cursor = offset) (hj : s.jumps + jumps ≤ 64) :
    ∃ enough, ∀ fuel, enough ≤ fuel →
      Exec.loop (nameStep msg) fuel s = .returned (.ok (dotted (s.labels ++ labels), s.stop.getD next)) := by
  induction h generalizing s with
  | root hat =>
    subst hs
    refine ⟨1, fun fuel hfuel => ?_⟩
    obtain ⟨fuel, rfl⟩ := Nat.exists_eq_add_of_le' hfuel
    rw [Exec.loop, nameStep_root hat, List.append_nil]
    rfl
  | @label offset length label labels next jumps hpos hshort hlabel hat _ ih =>
    subst hs
    obtain ⟨enough, hread⟩ := ih (s := { s with
      labels := s.labels ++ [label], cursor := s.cursor + 1 + length.toNat }) rfl hj
    refine ⟨enough + 1, fun fuel hfuel => ?_⟩
    obtain ⟨fuel, rfl⟩ := Nat.exists_eq_add_of_le' (Nat.le_of_add_left_le hfuel)
    rw [Exec.loop, nameStep_label hpos hshort hlabel hat]
    rw [List.append_assoc] at hread
    exact hread fuel (by omega)
  | @pointer offset hi lo labels next jumps hlong hat _ ih =>
    subst hs
    obtain ⟨enough, hread⟩ := ih (s := { s with
      cursor := (hi.toNat - 192) * 2 ^ 8 + lo.toNat, stop := some (s.stop.getD (s.cursor + 2)), jumps := s.jumps + 1 }) rfl
      (by dsimp only; omega)
    refine ⟨enough + 1, fun fuel hfuel => ?_⟩
    obtain ⟨fuel, rfl⟩ := Nat.exists_eq_add_of_le' (Nat.le_of_add_left_le hfuel)
    rw [Exec.loop, nameStep_pointer hlong hat (by omega)]
    exact hread fuel (by omega)

/-- Whatever is read as a name is one, and takes few enough pointers. -/
theorem nameAt_of_loop (h : Exec.loop (nameStep msg) fuel s = .returned (.ok (name, next))) (hj : s.jumps ≤ 64) :
    ∃ labels stop jumps, NameAt msg s.cursor labels stop jumps ∧ s.jumps + jumps ≤ 64 ∧
      name = dotted (s.labels ++ labels) ∧ next = s.stop.getD stop := by
  induction fuel generalizing s with
  | zero => cases h
  | succ fuel ih =>
    rw [Exec.loop] at h
    obtain ⟨r, hstep, h⟩ := Exec.bind_eq_returned.mp h
    rcases nameStep_cases hstep with ⟨hat, rfl⟩ | ⟨length, label, hpos, hshort, hlabel, hat, rfl⟩ |
      ⟨hi, lo, hlong, hat, hmore, rfl⟩ | ⟨err, rfl⟩
    · cases h
      exact ⟨[], s.cursor + 1, 0, .root hat, hj, by rw [List.append_nil], rfl⟩
    · obtain ⟨labels, stop, jumps, hname, hjumps, rfl, rfl⟩ := ih h hj
      exact ⟨label :: labels, stop, jumps, .label hpos hshort hlabel hat hname, hjumps,
        by rw [List.append_assoc, List.singleton_append], rfl⟩
    · obtain ⟨labels, stop, jumps, hname, hjumps, rfl, rfl⟩ := ih h hmore
      exact ⟨labels, s.cursor + 2, jumps + 1, .pointer hlong hat hname, by dsimp only at hjumps; omega, rfl, rfl⟩
    · cases h

/-- **The decoder reads the names** that take at most 64 pointers, and nothing else. -/
theorem decodeDNSName_ok_iff (hfuel : turns msg ≤ fuel) :
    decodeDNSName fuel msg offset = .returned (.ok (name, next)) ↔
      ∃ labels jumps, NameAt msg offset labels next jumps ∧ jumps ≤ 64 ∧ name = dotted labels := by
  constructor
  · intro h
    obtain ⟨labels, stop, jumps, hname, hjumps, rfl, rfl⟩ := nameAt_of_loop h (Nat.zero_le 64)
    exact ⟨labels, jumps, hname, by dsimp only at hjumps; omega, rfl⟩
  · rintro ⟨labels, jumps, hname, hjumps, rfl⟩
    obtain ⟨result, hresult⟩ := decodeDNSName_returns msg offset
    obtain ⟨enough, hread⟩ := loop_of_nameAt (s := ⟨[], offset, none, 0⟩) hname rfl (by dsimp only; omega)
    rw [hresult fuel hfuel, ← hresult (max enough (turns msg)) (Nat.le_max_right ..)]
    exact hread _ (Nat.le_max_left ..)

/-- The decoder fails, or reads the name that stands there. -/
theorem decodeDNSName_cases (hfuel : turns msg ≤ fuel) (offset : ℕ) :
    (∃ err, decodeDNSName fuel msg offset = .returned (.error err)) ∨
      ∃ labels next jumps, NameAt msg offset labels next jumps ∧ jumps ≤ 64 ∧
        decodeDNSName fuel msg offset = .returned (.ok (dotted labels, next)) := by
  obtain ⟨result, hresult⟩ := decodeDNSName_returns msg offset
  have hread := hresult fuel hfuel
  cases result with
  | error err => exact .inl ⟨err, hread⟩
  | ok read =>
    obtain ⟨name, next⟩ := read
    obtain ⟨labels, jumps, hname, hjumps, rfl⟩ := (decodeDNSName_ok_iff hfuel).mp hread
    exact .inr ⟨labels, next, jumps, hname, hjumps, hread⟩

/-- A name has bytes at its offset. -/
theorem NameAt.lt_length (h : NameAt msg offset labels next jumps) : offset < msg.length := by
  cases h with
  | root hat => exact hat.length_le (List.cons_ne_nil _ _)
  | label _ _ _ hat _ =>
    have hle := hat.length_le (List.cons_ne_nil _ _)
    rw [List.length_cons] at hle
    omega
  | pointer _ hat _ =>
    have hle := hat.length_le (List.cons_ne_nil _ _)
    rw [List.length_cons] at hle
    omega

/-- There is one name at an offset. -/
theorem NameAt.unique (h : NameAt msg offset labels next jumps) (h' : NameAt msg offset labels' next' jumps') :
    labels = labels' ∧ next = next' ∧ jumps = jumps' := by
  induction h generalizing labels' next' jumps' with
  | root hat =>
    cases h' with
    | root _ => exact ⟨rfl, rfl, rfl⟩
    | label hpos _ _ hat' _ => exact absurd (hat.head_eq hat').symm hpos
    | pointer hlong hat' _ =>
      rw [← hat.head_eq hat'] at hlong
      exact absurd hlong (by decide)
  | label hpos hshort hlabel hat _ ih =>
    cases h' with
    | root hat' => exact absurd (hat.head_eq hat') hpos
    | label _ _ hlabel' hat' hname' =>
      obtain rfl := hat.head_eq hat'
      have heq := hat.unique hat' (by rw [List.length_cons, List.length_cons, hlabel, hlabel'])
      obtain ⟨rfl, rfl, rfl⟩ := ih hname'
      exact ⟨by rw [List.tail_eq_of_cons_eq heq], rfl, rfl⟩
    | pointer hlong hat' _ =>
      rw [← hat.head_eq hat'] at hlong
      omega
  | pointer hlong hat _ ih =>
    cases h' with
    | root hat' =>
      rw [hat.head_eq hat'] at hlong
      exact absurd hlong (by decide)
    | label _ hshort _ hat' _ =>
      rw [hat.head_eq hat'] at hlong
      omega
    | pointer _ hat' hname' =>
      have heq := hat.unique hat' rfl
      obtain ⟨rfl, htail⟩ := List.cons.inj heq
      obtain ⟨rfl, -⟩ := List.cons.inj htail
      obtain ⟨rfl, -, rfl⟩ := ih hname'
      exact ⟨rfl, rfl, rfl⟩

/-! ### Names that are written -/

/-- A label behind its length. -/
def wireLabel (label : Bytes) : Bytes := label.length.toUInt8 :: label

/-- The labels that are not empty are written one behind the other, if none is too long. -/
theorem encodeLabels_ok {out : Bytes} (h : encodeLabels labels out = .ok enc) :
    enc = out ++ ((labels.filter (· ≠ [])).flatMap wireLabel ++ [0]) ∧ ∀ label ∈ labels, label.length ≤ 63 := by
  induction labels generalizing out with
  | nil =>
    cases h
    exact ⟨rfl, fun label hlabel => absurd hlabel List.not_mem_nil⟩
  | cons label labels ih =>
    rw [encodeLabels] at h
    split_ifs at h with hempty hlong
    · obtain ⟨rfl, hlabels⟩ := ih h
      subst hempty
      exact ⟨rfl, List.forall_mem_cons.mpr ⟨Nat.zero_le 63, hlabels⟩⟩
    · obtain ⟨rfl, hlabels⟩ := ih h
      refine ⟨?_, List.forall_mem_cons.mpr ⟨by omega, hlabels⟩⟩
      have hkeep : decide (label ≠ []) = true := decide_eq_true hempty
      simp only [List.filter_cons, hkeep, if_true, List.flatMap_cons, wireLabel, List.append_assoc, List.cons_append,
        List.nil_append]

theorem labelsOf_concat_dot (name : Bytes) : labelsOf (name ++ [46]) = labelsOf name := by
  rw [labelsOf, List.splitOn_append_cons_self, List.splitOn_nil, List.filter_append]
  exact List.append_nil _

theorem labelsOf_dot_cons (name : Bytes) : labelsOf (46 :: name) = labelsOf name := by
  rw [labelsOf, List.splitOn_cons_eq_if_modifyHead, if_pos (beq_self_eq_true _)]
  rfl

/-- The dots at the ends of a name separate nothing. -/
theorem labelsOf_trimDots (name : Bytes) : labelsOf (trimDots name) = labelsOf name := by
  have hfront : ∀ name : Bytes, labelsOf (name.dropWhile (· = 46)) = labelsOf name := by
    intro name
    induction name with
    | nil => rfl
    | cons c name ih =>
      rw [List.dropWhile_cons]
      split_ifs with hdot
      · rw [ih, decide_eq_true_eq.mp hdot, labelsOf_dot_cons]
      · rfl
  have hback : ∀ name : Bytes, labelsOf (name.reverse.dropWhile (· = 46)).reverse = labelsOf name := by
    intro name
    induction name using List.reverseRecOn with
    | nil => rfl
    | append_singleton name c ih =>
      rw [List.reverse_concat, List.dropWhile_cons]
      split_ifs with hdot
      · rw [ih, decide_eq_true_eq.mp hdot, labelsOf_concat_dot]
      · rw [List.reverse_cons, List.reverse_reverse]
  rw [trimDots, hback, hfront]

/-- Labels that are written one behind the other are a name. -/
theorem nameAt_of_labels (hlabels : ∀ label ∈ labels, label ≠ [] ∧ label.length ≤ 63)
    (h : At msg offset (labels.flatMap wireLabel ++ [0])) :
    NameAt msg offset labels (offset + (labels.flatMap wireLabel ++ [0]).length) 0 := by
  induction labels generalizing offset with
  | nil => exact .root h
  | cons label labels ih =>
    obtain ⟨⟨hne, hshort⟩, hlabels⟩ := List.forall_mem_cons.mp hlabels
    have hlen : label.length.toUInt8.toNat = label.length := UInt8.toNat_ofNat_of_lt' (Nat.lt_of_le_of_lt hshort (by decide))
    rw [List.flatMap_cons, List.append_assoc] at h ⊢
    obtain ⟨hlabel, hrest⟩ := at_append.mp h
    have hname := ih hlabels hrest
    rw [wireLabel, List.length_cons, ← Nat.add_assoc, Nat.add_right_comm] at hname
    rw [List.length_append, wireLabel, List.length_cons, ← Nat.add_assoc, ← Nat.add_assoc, Nat.add_right_comm offset]
    refine .label (fun hzero => hne ?_) (by omega) hlen.symm hlabel (by rwa [hlen])
    rw [← List.length_eq_zero_iff, ← hlen, hzero]
    rfl

/-- **What is written for a name is a name**, with the labels of the text that are not empty. -/
theorem nameAt_of_encodeDNSName (henc : encodeDNSName name = .ok enc) (h : At msg offset enc) :
    NameAt msg offset (labelsOf name) (offset + enc.length) 0 := by
  obtain ⟨rfl, hshort⟩ := encodeLabels_ok henc
  have hlabels : ((trimDots name).splitOn 46).filter (· ≠ []) = labelsOf name := labelsOf_trimDots name
  rw [hlabels, List.nil_append] at h ⊢
  refine nameAt_of_labels (fun label hlabel => ?_) h
  rw [← hlabels, List.mem_filter, decide_eq_true_eq] at hlabel
  exact ⟨hlabel.2, hshort label hlabel.1⟩

end OpenshiftConsole.ExternalDns.DnsNames
