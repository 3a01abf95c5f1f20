import Mathlib.Data.List.Forall2
import Mathlib.Data.List.ReduceOption
import OpenshiftConsole.ExternalDns.DnsNames

/-!
# Records in a DNS message

`Questions` and `Records` say how questions and records stand in a message, one behind the other: a question is a name
and four bytes, and a record is a name, a header of ten bytes and the data of which the header has the length.
`Read` says what the parser takes a record's data for.

`parseDNSResponse` returns without an error exactly on the messages that are `Accepted`
(`parseDNSResponse_ok_iff`): those whose questions have names, and whose records lie in the message one behind the
other until they are as many as the header announces or the message is at its end.
-/

namespace OpenshiftConsole.ExternalDns.DnsResponses

open OpenshiftConsole.Library OpenshiftConsole.Library.BigEndian
open OpenshiftConsole.ExternalDns.DnsMessage OpenshiftConsole.ExternalDns.DnsNames

/-! ### Questions and records -/

/-- Some questions stand at an offset, with another behind them; whether the type and the class of the last one are in
the message is open. -/
inductive Questions (msg : Bytes) : ℕ → ℕ → ℕ → Prop where
  | nil {offset} : Questions msg offset 0 offset
  | cons {offset labels next jumps n stop} : NameAt msg offset labels next jumps → jumps ≤ 64 →
      Questions msg (next + 4) n stop → Questions msg offset (n + 1) stop

/-- What a record's header says, and where its data lie. -/
structure Frame where
  type : UInt16
  ttl : UInt32
  start : ℕ
  stop : ℕ

/-- A record stands at an offset, all of it in the message. -/
inductive RecordAt (msg : Bytes) : ℕ → Frame → Prop where
  | mk {offset labels next jumps type ttl rdlength} : NameAt msg offset labels next jumps → jumps ≤ 64 →
      At msg next (bytes16 type) → At msg (next + 4) (bytes32 ttl) → At msg (next + 8) (bytes16 rdlength) →
      next + 10 + rdlength.toNat ≤ msg.length → RecordAt msg offset ⟨type, ttl, next + 10, next + 10 + rdlength.toNat⟩

/-- Some records stand at an offset, with another behind them. -/
inductive Records (msg : Bytes) : ℕ → List Frame → ℕ → Prop where
  | nil {offset} : Records msg offset [] offset
  | cons {offset f fs stop} : RecordAt msg offset f → Records msg f.stop fs stop → Records msg offset (f :: fs) stop

/-- The data have the type and the length of an address. -/
def Frame.IsAddress (f : Frame) : Prop :=
  f.type = dnsTypeA ∧ f.stop - f.start = 4 ∨ f.type = dnsTypeAAAA ∧ f.stop - f.start = 16

/-- What the parser takes the data of a record for; nothing, if they are neither an address nor a name. -/
inductive Read (msg : Bytes) (f : Frame) : Option DnsRR → Prop where
  | address {ip} : f.IsAddress → f.stop = f.start + ip.length → At msg f.start ip →
      Read msg f (some ⟨f.type, ipString ip, f.ttl⟩)
  | cname {labels next jumps} : f.type = dnsTypeCNAME → NameAt msg f.start labels next jumps → jumps ≤ 64 →
      Read msg f (some ⟨f.type, dotted labels, f.ttl⟩)
  | skipped : ¬f.IsAddress →
      (f.type = dnsTypeCNAME → ∀ labels next jumps, NameAt msg f.start labels next jumps → 64 < jumps) → Read msg f none

/-- What the parser reads of a header. -/
structure Header where
  flags : UInt16
  qdcount : UInt16
  ancount : UInt16

/-- The bit that says that a message is cut off. -/
def Header.truncated (h : Header) : Bool := h.flags &&& 0x0200 ≠ 0

/-- The header of a message. -/
structure HeaderAt (msg : Bytes) (id : UInt16) (h : Header) : Prop where
  length : 12 ≤ msg.length
  id : At msg 0 (bytes16 id)
  flags : At msg 2 (bytes16 h.flags)
  qdcount : At msg 4 (bytes16 h.qdcount)
  ancount : At msg 6 (bytes16 h.ancount)

instance (msg : Bytes) (id : UInt16) (h : Header) : Decidable (HeaderAt msg id h) :=
  decidable_of_iff (12 ≤ msg.length ∧ At msg 0 (bytes16 id) ∧ At msg 2 (bytes16 h.flags) ∧ At msg 4 (bytes16 h.qdcount) ∧
      At msg 6 (bytes16 h.ancount))
    ⟨fun ⟨hlen, hid, hflags, hqdcount, hancount⟩ => ⟨hlen, hid, hflags, hqdcount, hancount⟩,
      fun ⟨hlen, hid, hflags, hqdcount, hancount⟩ => ⟨hlen, hid, hflags, hqdcount, hancount⟩⟩

/-- What the parser lets through. The records may be fewer than announced where the message ends. -/
structure Accepted (msg : Bytes) (id : UInt16) (h : Header) (offset : ℕ) (fs : List Frame) (stop : ℕ) : Prop where
  header : HeaderAt msg id h
  rcode : h.flags &&& 0x000F = 0 ∨ h.flags &&& 0x000F = 3
  questions : Questions msg 12 h.qdcount.toNat offset
  records : Records msg offset fs stop
  count : fs.length = h.ancount.toNat ∨ fs.length < h.ancount.toNat ∧ msg.length ≤ stop

variable {msg name : Bytes} {fuel n offset offset' stop stop' : ℕ} {f f' : Frame} {fs fs' : List Frame} {v v' : Option DnsRR}
  {vs : List (Option DnsRR)} {records rs : List DnsRR} {id : UInt16} {h h' : Header} {truncated : Bool}

/-! ### One reading -/

theorem RecordAt.bounds (hf : RecordAt msg offset f) : offset < msg.length ∧ f.start ≤ f.stop ∧ f.stop ≤ msg.length := by
  cases hf with
  | mk hname _ _ _ _ hend => exact ⟨hname.lt_length, Nat.le_add_right .., hend⟩

theorem HeaderAt.unique {id' : UInt16} (hh : HeaderAt msg id h) (hh' : HeaderAt msg id' h') : id = id' ∧ h = h' := by
  obtain ⟨flags, qdcount, ancount⟩ := h
  obtain ⟨flags', qdcount', ancount'⟩ := h'
  obtain rfl : flags = flags' := hh.flags.unique16 hh'.flags
  obtain rfl : qdcount = qdcount' := hh.qdcount.unique16 hh'.qdcount
  obtain rfl : ancount = ancount' := hh.ancount.unique16 hh'.ancount
  exact ⟨hh.id.unique16 hh'.id, rfl⟩

theorem Questions.unique (hq : Questions msg offset n stop) (hq' : Questions msg offset n stop') : stop = stop' := by
  induction hq with
  | nil =>
    cases hq'
    rfl
  | cons hname _ _ ih =>
    cases hq' with
    | cons hname' _ hq' =>
      obtain ⟨-, rfl, -⟩ := hname.unique hname'
      exact ih hq'

theorem RecordAt.unique (hf : RecordAt msg offset f) (hf' : RecordAt msg offset f') : f = f' := by
  cases hf with
  | mk hname _ htype httl hrdlength _ =>
    cases hf' with
    | mk hname' _ htype' httl' hrdlength' _ =>
      obtain ⟨-, rfl, -⟩ := hname.unique hname'
      rw [htype.unique16 htype', httl.unique32 httl', hrdlength.unique16 hrdlength']

/-- Records that stand in a message are the first ones of any more of them. -/
theorem Records.firsts (hfs : Records msg offset fs stop) (hfs' : Records msg offset fs' stop')
    (hle : fs.length ≤ fs'.length) :
    fs = fs' ∧ stop = stop' ∨ fs.length < fs'.length ∧ stop < msg.length := by
  induction hfs generalizing fs' with
  | nil =>
    cases hfs' with
    | nil => exact .inl ⟨rfl, rfl⟩
    | cons hf _ => exact .inr ⟨Nat.succ_pos _, hf.bounds.1⟩
  | cons hf _ ih =>
    cases hfs' with
    | nil => exact absurd hle (Nat.not_succ_le_zero _)
    | cons hf' hfs' =>
      obtain rfl := hf.unique hf'
      rcases ih hfs' (Nat.le_of_succ_le_succ hle) with ⟨rfl, rfl⟩ | ⟨hlt, hstop⟩
      · exact .inl ⟨rfl, rfl⟩
      · exact .inr ⟨Nat.succ_lt_succ hlt, hstop⟩

/-! ### Reading records -/

theorem exists_read (msg : Bytes) (hf : f.stop ≤ msg.length) : ∃ v, Read msg f v := by
  by_cases haddress : f.IsAddress
  · refine ⟨_, .address haddress ?_ (at_slice msg f.start f.stop)⟩
    rw [List.length_drop, List.length_take, Nat.min_eq_left hf]
    rcases haddress with ⟨-, hlen⟩ | ⟨-, hlen⟩ <;> omega
  · by_cases hname : f.type = dnsTypeCNAME ∧ ∃ labels next jumps, NameAt msg f.start labels next jumps ∧ jumps ≤ 64
    · obtain ⟨htype, labels, next, jumps, hname, hjumps⟩ := hname
      exact ⟨_, .cname htype hname hjumps⟩
    · refine ⟨none, .skipped haddress fun htype labels next jumps hat => ?_⟩
      exact Nat.lt_of_not_le fun hjumps => hname ⟨htype, labels, next, jumps, hat, hjumps⟩

/-- The parser reads a record as it is to be read. -/
theorem readRecord_of_read (hfuel : turns msg ≤ fuel) (h : Read msg f v) :
    readRecord fuel msg f.type f.ttl f.start f.stop = .returned v := by
  cases h with
  | @address ip haddress hstop hat =>
    have hne : ip ≠ [] := by
      rintro rfl
      rw [List.length_nil] at hstop
      rcases haddress with ⟨-, hlen⟩ | ⟨-, hlen⟩ <;> omega
    unfold Frame.IsAddress at haddress
    simp only [readRecord]
    rw [if_pos haddress, hstop, subslice_of_at hat hne]
    rfl
  | cname htype hname hjumps =>
    have hno : ¬(f.type = dnsTypeA ∧ f.stop - f.start = 4 ∨ f.type = dnsTypeAAAA ∧ f.stop - f.start = 16) := by
      rw [htype]
      rintro (⟨hA, -⟩ | ⟨hAAAA, -⟩)
      · exact absurd hA (by decide)
      · exact absurd hAAAA (by decide)
    simp only [readRecord]
    rw [if_neg hno, if_pos htype, (decodeDNSName_ok_iff hfuel).mpr ⟨_, _, hname, hjumps, rfl⟩]
    rfl
  | skipped haddress hno =>
    unfold Frame.IsAddress at haddress
    simp only [readRecord]
    rw [if_neg haddress]
    split_ifs with htype
    · rcases decodeDNSName_cases hfuel f.start with ⟨err, herr⟩ | ⟨labels, next, jumps, hname, hjumps, -⟩
      · rw [herr]
        rfl
      · exact absurd (hno htype labels next jumps hname) (Nat.not_lt_of_le hjumps)
    · rfl

/-- A record is read in one way only. -/
theorem Read.unique (h : Read msg f v) (h' : Read msg f v') : v = v' := by
  have heq := (readRecord_of_read le_rfl h).symm.trans (readRecord_of_read le_rfl h')
  cases heq
  rfl

theorem exists_reads (msg : Bytes) (hfs : Records msg offset fs stop) : ∃ vs, List.Forall₂ (Read msg) fs vs := by
  induction hfs with
  | nil => exact ⟨[], .nil⟩
  | cons hf _ ih =>
    obtain ⟨v, hv⟩ := exists_read msg hf.bounds.2.2
    obtain ⟨vs, hvs⟩ := ih
    exact ⟨v :: vs, .cons hv hvs⟩

/-! ### Reading messages -/

theorem skipQuestions_ok_iff (hfuel : turns msg ≤ fuel) :
    skipQuestions fuel msg n offset = .returned (.ok stop) ↔ Questions msg offset n stop := by
  induction n generalizing offset with
  | zero =>
    constructor
    · intro h
      cases h
      exact .nil
    · intro h
      cases h
      rfl
  | succ n ih =>
    rw [skipQuestions]
    constructor
    · intro h
      rcases decodeDNSName_cases hfuel offset with ⟨err, herr⟩ | ⟨labels, next, jumps, hat, hjumps, hread⟩
      · rw [herr] at h
        cases h
      · rw [hread, Exec.returned_bind] at h
        exact .cons hat hjumps (ih.mp h)
    · rintro (_ | ⟨hat, hjumps, hquestions⟩)
      rw [(decodeDNSName_ok_iff hfuel).mpr ⟨_, _, hat, hjumps, rfl⟩, Exec.returned_bind]
      exact ih.mpr hquestions

/-- A record that stands in the message is read, and the next one where it stops. -/
theorem readAnswers_cons (hfuel : turns msg ≤ fuel) (hf : RecordAt msg offset f) (hv : Read msg f v) :
    readAnswers fuel msg (n + 1) offset records = readAnswers fuel msg n f.stop (records ++ v.toList) := by
  have hoffset := hf.bounds.1
  cases hf with
  | @mk labels next jumps type ttl rdlength hname hjumps htype httl hrdlength hend =>
    rw [readAnswers, if_neg (by omega), (decodeDNSName_ok_iff hfuel).mpr ⟨labels, jumps, hname, hjumps, rfl⟩,
      Exec.returned_bind]
    dsimp only
    rw [if_neg (by omega), uint16At_of_bytes16 htype, Exec.returned_bind, uint32At_of_bytes32 httl, Exec.returned_bind,
      uint16At_of_bytes16 hrdlength, Exec.returned_bind, if_neg (by omega), readRecord_of_read hfuel hv, Exec.returned_bind]

/-- If an answer is read without an error, then a record stands in the message, or the message is at its end. -/
theorem readAnswers_ok_cases (hfuel : turns msg ≤ fuel)
    (h : readAnswers fuel msg (n + 1) offset records = .returned (rs, none)) :
    msg.length ≤ offset ∧ rs = records ∨ ∃ f, RecordAt msg offset f := by
  rw [readAnswers] at h
  split_ifs at h with hend
  · cases h
    exact .inl ⟨hend, rfl⟩
  · right
    rcases decodeDNSName_cases hfuel offset with ⟨err, herr⟩ | ⟨labels, next, jumps, hat, hjumps, hread⟩
    · rw [herr] at h
      cases h
    · rw [hread, Exec.returned_bind] at h
      dsimp only at h
      split_ifs at h with hheader
      · cases h
      · obtain ⟨type, htype⟩ := exists_bytes16 msg next (by omega)
        obtain ⟨ttl, httl⟩ := exists_bytes32 msg (next + 4) (by omega)
        obtain ⟨rdlength, hrdlength⟩ := exists_bytes16 msg (next + 8) (by omega)
        rw [uint16At_of_bytes16 htype, Exec.returned_bind, uint32At_of_bytes32 httl, Exec.returned_bind,
          uint16At_of_bytes16 hrdlength, Exec.returned_bind] at h
        split_ifs at h with hdata
        · cases h
        · exact ⟨_, .mk hat hjumps htype httl hrdlength (by omega)⟩

theorem readAnswers_of_records (hfuel : turns msg ≤ fuel) (hfs : Records msg offset fs stop)
    (hvs : List.Forall₂ (Read msg) fs vs) (hcount : fs.length = n ∨ fs.length < n ∧ msg.length ≤ stop) :
    readAnswers fuel msg n offset records = .returned (records ++ vs.reduceOption, none) := by
  induction hfs generalizing n vs records with
  | nil =>
    cases hvs
    rw [List.reduceOption_nil, List.append_nil]
    cases n with
    | zero => rfl
    | succ n =>
      rw [readAnswers, if_pos (by simpa using hcount)]
      rfl
  | @cons offset f fs stop hf _ ih =>
    cases hvs with
    | @cons _ v _ vs hv hvs =>
      rw [List.length_cons] at hcount
      obtain ⟨n, rfl⟩ := Nat.exists_eq_add_of_le' (show 1 ≤ n by omega)
      rw [readAnswers_cons hfuel hf hv, ih hvs (by omega)]
      cases v with
      | none => rw [List.reduceOption_cons_of_none, Option.toList_none, List.append_nil]
      | some rr => rw [List.reduceOption_cons_of_some, Option.toList_some, List.append_assoc, List.singleton_append]

theorem records_of_readAnswers (hfuel : turns msg ≤ fuel)
    (h : readAnswers fuel msg n offset records = .returned (rs, none)) :
    ∃ fs stop, Records msg offset fs stop ∧ (fs.length = n ∨ fs.length < n ∧ msg.length ≤ stop) := by
  induction n generalizing offset records with
  | zero => exact ⟨[], offset, .nil, .inl rfl⟩
  | succ n ih =>
    rcases readAnswers_ok_cases hfuel h with ⟨hend, -⟩ | ⟨f, hf⟩
    · exact ⟨[], offset, .nil, .inr ⟨Nat.succ_pos n, hend⟩⟩
    · obtain ⟨v, hv⟩ := exists_read msg hf.bounds.2.2
      rw [readAnswers_cons hfuel hf hv] at h
      obtain ⟨fs, stop, hfs, hcount⟩ := ih h
      refine ⟨f :: fs, stop, .cons hf hfs, ?_⟩
      rw [List.length_cons]
      omega

theorem exists_header (hlen : 12 ≤ msg.length) : ∃ id h, HeaderAt msg id h := by
  obtain ⟨id, hid⟩ := exists_bytes16 msg 0 (by omega)
  obtain ⟨flags, hflags⟩ := exists_bytes16 msg 2 (by omega)
  obtain ⟨qdcount, hqdcount⟩ := exists_bytes16 msg 4 (by omega)
  obtain ⟨ancount, hancount⟩ := exists_bytes16 msg 6 (by omega)
  exact ⟨id, ⟨flags, qdcount, ancount⟩, hlen, hid, hflags, hqdcount, hancount⟩

/-- **The parser returns without an error** exactly on the messages that it accepts, with what their records are read as. -/
theorem parseDNSResponse_ok_iff (hfuel : turns msg ≤ fuel) :
    parseDNSResponse fuel msg id = .returned ⟨records, truncated, none⟩ ↔ ∃ h offset fs stop vs,
      Accepted msg id h offset fs stop ∧ List.Forall₂ (Read msg) fs vs ∧ records = vs.reduceOption ∧
        truncated = h.truncated := by
  constructor
  · intro hparse
    rw [parseDNSResponse] at hparse
    split_ifs at hparse with hlen
    · cases hparse
    obtain ⟨gotID, h, hheader⟩ := exists_header (Nat.le_of_not_lt hlen)
    rw [uint16At_of_bytes16 hheader.id, Exec.returned_bind] at hparse
    split_ifs at hparse with hid
    · cases hparse
    rw [uint16At_of_bytes16 hheader.flags, Exec.returned_bind, uint16At_of_bytes16 hheader.qdcount, Exec.returned_bind,
      uint16At_of_bytes16 hheader.ancount, Exec.returned_bind] at hparse
    obtain ⟨result, hquestions, hparse⟩ := Exec.bind_eq_returned.mp hparse
    cases result with
    | error err => cases hparse
    | ok offset =>
      dsimp only at hparse
      split_ifs at hparse with hrcode
      · cases hparse
      obtain ⟨⟨rs, err⟩, hanswers, hparse⟩ := Exec.bind_eq_returned.mp hparse
      cases hparse
      obtain ⟨fs, stop, hfs, hcount⟩ := records_of_readAnswers hfuel hanswers
      obtain ⟨vs, hvs⟩ := exists_reads msg hfs
      rw [readAnswers_of_records hfuel hfs hvs hcount] at hanswers
      cases hanswers
      rw [not_ne_iff] at hid
      subst hid
      refine ⟨h, offset, fs, stop, vs, ⟨hheader, ?_, (skipQuestions_ok_iff hfuel).mp hquestions, hfs, hcount⟩, hvs, rfl, rfl⟩
      rwa [not_and_or, not_ne_iff, not_ne_iff] at hrcode
  · rintro ⟨h, offset, fs, stop, vs, haccepted, hvs, rfl, rfl⟩
    obtain ⟨hlen, hid, hflags, hqdcount, hancount⟩ := haccepted.header
    rw [parseDNSResponse, if_neg (by omega), uint16At_of_bytes16 hid, Exec.returned_bind, if_neg (not_ne_iff.mpr rfl),
      uint16At_of_bytes16 hflags, Exec.returned_bind, uint16At_of_bytes16 hqdcount, Exec.returned_bind,
      uint16At_of_bytes16 hancount, Exec.returned_bind, (skipQuestions_ok_iff hfuel).mpr haccepted.questions,
      Exec.returned_bind]
    dsimp only
    have hrcode := haccepted.rcode
    rw [if_neg (by tauto), readAnswers_of_records hfuel haccepted.records hvs haccepted.count]
    rfl

end OpenshiftConsole.ExternalDns.DnsResponses
