import OpenshiftConsole.Library.Exec

/-!
# Reading a DNS response

`decodeDNSName` reads a name label by label and follows compression pointers, at most 64 of them;
`parseDNSResponse` skips the questions and reads the records of the answer section. A message is
a list of bytes; reading a byte or a part that is not in it is a panic.

Both end on every message and never panic (`parser_safe`). A name ends as each step makes
a measure smaller: a label moves the cursor on, and a pointer, which may move it anywhere, uses up
one of the jumps.
-/

namespace OpenshiftConsole.ExternalDns.DnsMessage

open OpenshiftConsole.Library

/-- A byte slice, or a string of Go. -/
abbrev Bytes := List UInt8

/-! ### Reading bytes -/

/-- `b[i]` -/
def index (b : Bytes) (i : ℕ) : Exec UInt8 := .ofOption b[i]?

/-- `b[start:stop]`, which must lie in the slice. -/
def subslice (b : Bytes) (start stop : ℕ) : Exec Bytes :=
  .ofOption (if start ≤ stop ∧ stop ≤ b.length then some ((b.take stop).drop start) else none)

/-- `binary.BigEndian.Uint16` -/
def bigEndianUint16 (b : Bytes) : Exec UInt16 := do
  let hi ← index b 0
  let lo ← index b 1
  return hi.toUInt16 <<< 8 ||| lo.toUInt16

/-- `binary.BigEndian.Uint32` -/
def bigEndianUint32 (b : Bytes) : Exec UInt32 := do
  let b0 ← index b 0
  let b1 ← index b 1
  let b2 ← index b 2
  let b3 ← index b 3
  return b0.toUInt32 <<< 24 ||| b1.toUInt32 <<< 16 ||| b2.toUInt32 <<< 8 ||| b3.toUInt32

/-- `binary.BigEndian.Uint16(msg[start:start+2])` -/
def uint16At (msg : Bytes) (start : ℕ) : Exec UInt16 := subslice msg start (start + 2) >>= bigEndianUint16

/-- `binary.BigEndian.Uint32(msg[start:start+4])` -/
def uint32At (msg : Bytes) (start : ℕ) : Exec UInt32 := subslice msg start (start + 4) >>= bigEndianUint32

/-! ### Names -/

/-- The variables of `decodeDNSName`; `stop` is `end`, once a pointer is followed. -/
structure NameState where
  labels : List Bytes
  cursor : ℕ
  stop : Option ℕ
  jumps : ℕ

/-- A name and the offset past it, or an error. -/
abbrev NameResult := Except String (Bytes × ℕ)

/-- One turn of the loop of `decodeDNSName`. -/
def nameStep (msg : Bytes) (s : NameState) : Exec (NameState ⊕ NameResult) :=
  if s.cursor ≥ msg.length then return .inr (.error "dns name runs past end of message")
  else do
    let length ← index msg s.cursor
    if length = 0 then return .inr (.ok ([46].intercalate s.labels, s.stop.getD (s.cursor + 1)))
    else if length &&& 0xC0 = 0xC0 then
      if s.cursor + 1 ≥ msg.length then return .inr (.error "dns name pointer runs past end of message")
      else if s.jumps + 1 > 64 then return .inr (.error "dns name has too many compression pointers")
      else
        let pointer ← uint16At msg s.cursor
        return .inl { s with
          cursor := (pointer &&& ~~~0xC000).toNat
          stop := some (s.stop.getD (s.cursor + 2))
          jumps := s.jumps + 1 }
    else
      let labelStart := s.cursor + 1
      let labelEnd := labelStart + length.toNat
      if labelEnd > msg.length then return .inr (.error "dns name label runs past end of message")
      else
        let label ← subslice msg labelStart labelEnd
        return .inl { s with labels := s.labels ++ [label], cursor := labelEnd }

/-- `decodeDNSName` -/
def decodeDNSName (fuel : ℕ) (msg : Bytes) (offset : ℕ) : Exec NameResult :=
  Exec.loop (nameStep msg) fuel { labels := [], cursor := offset, stop := none, jumps := 0 }

/-! ### Addresses -/

/-- The characters of an ASCII text. -/
def ascii (s : String) : Bytes := s.toList.map fun c => c.toNat.toUInt8

/-- A number in a base, with small letters. -/
def digits (base n : ℕ) : Bytes := (Nat.toDigits base n).map fun c => c.toNat.toUInt8

/-- `netip.AddrFrom4(ip).String()` -/
def addr4String (ip : Bytes) : Bytes := [46].intercalate (ip.map fun b => digits 10 b.toNat)

/-- The eight groups of an IPv6 address. -/
def groups : Bytes → List ℕ
  | hi :: lo :: rest => (hi.toNat * 256 + lo.toNat) :: groups rest
  | _ => []

/-- The first of the longest runs of two or more zero groups: where it starts, and how long it is. -/
def longestZeros (gs : List ℕ) : ℕ × ℕ :=
  (List.range gs.length).foldl (fun best i =>
    let l := ((gs.drop i).takeWhile (· = 0)).length
    if l ≥ 2 ∧ l > best.2 then (i, l) else best) (0, 0)

/-- `netip.AddrFrom16(ip).String()` of an address that is no IPv4 address. -/
def addr16String (ip : Bytes) : Bytes :=
  let hex (gs : List ℕ) : Bytes := [58].intercalate (gs.map (digits 16))
  let gs := groups ip
  let (start, l) := longestZeros gs
  if l = 0 then hex gs else hex (gs.take start) ++ [58, 58] ++ hex (gs.drop (start + l))

/-- `ip.To4()` -/
def to4 (ip : Bytes) : Option Bytes :=
  if ip.length = 4 then some ip
  else if ip.length = 16 ∧ ip.take 12 = List.replicate 10 0 ++ [255, 255] then some (ip.drop 12)
  else none

/-- `net.IP(ip).String()` of an address of 4 or 16 bytes. -/
def ipString (ip : Bytes) : Bytes := ((to4 ip).map addr4String).getD (addr16String ip)

/-! ### Responses -/

/-- `dnsRR` -/
structure DnsRR where
  type : UInt16
  value : Bytes
  ttl : UInt32

/-- What `parseDNSResponse` returns. -/
structure Response where
  records : List DnsRR
  truncated : Bool
  err : Option String

/-- `dnsTypeA` -/
def dnsTypeA : UInt16 := 1

/-- `dnsTypeCNAME` -/
def dnsTypeCNAME : UInt16 := 5

/-- `dnsTypeAAAA` -/
def dnsTypeAAAA : UInt16 := 28

/-- The loop over the questions: the offset behind them. -/
def skipQuestions (fuel : ℕ) (msg : Bytes) : ℕ → ℕ → Exec (Except String ℕ)
  | 0, offset => return .ok offset
  | qdcount + 1, offset => do
    match ← decodeDNSName fuel msg offset with
    | .error err => return .error err
    | .ok (_, next) => skipQuestions fuel msg qdcount (next + 4)

/-- The record that the data from `rdataStart` to `rdataEnd` stands for, if it is one that is kept. -/
def readRecord (fuel : ℕ) (msg : Bytes) (type : UInt16) (ttl : UInt32) (rdataStart rdataEnd : ℕ) : Exec (Option DnsRR) :=
  let rdlength := rdataEnd - rdataStart
  if type = dnsTypeA ∧ rdlength = 4 ∨ type = dnsTypeAAAA ∧ rdlength = 16 then do
    let ip ← subslice msg rdataStart rdataEnd
    return some { type, value := ipString ip, ttl }
  else if type = dnsTypeCNAME then do
    match ← decodeDNSName fuel msg rdataStart with
    | .error _ => return none
    | .ok (target, _) => return some { type, value := target, ttl }
  else return none

/-- The loop over the answers: the records read before it ends, and the error that ends it. -/
def readAnswers (fuel : ℕ) (msg : Bytes) : ℕ → ℕ → List DnsRR → Exec (List DnsRR × Option String)
  | 0, _, records => return (records, none)
  | ancount + 1, offset, records =>
    if offset ≥ msg.length then return (records, none)
    else do
      match ← decodeDNSName fuel msg offset with
      | .error err => return (records, some err)
      | .ok (_, offset) =>
        if offset + 10 > msg.length then
          return (records, some "dns resource record header runs past end of message")
        else
          let rrType ← uint16At msg offset
          let ttl ← uint32At msg (offset + 4)
          let rdlength ← uint16At msg (offset + 8)
          let rdataStart := offset + 10
          let rdataEnd := rdataStart + rdlength.toNat
          if rdataEnd > msg.length then
            return (records, some "dns resource record data runs past end of message")
          else
            let record ← readRecord fuel msg rrType ttl rdataStart rdataEnd
            readAnswers fuel msg ancount rdataEnd (records ++ record.toList)

/-- `parseDNSResponse` -/
def parseDNSResponse (fuel : ℕ) (msg : Bytes) (wantID : UInt16) : Exec Response :=
  if msg.length < 12 then return { records := [], truncated := false, err := some "dns response shorter than a header" }
  else do
    let gotID ← uint16At msg 0
    if gotID ≠ wantID then return { records := [], truncated := false, err := some "dns response id mismatch" }
    else
      let flags ← uint16At msg 2
      let truncated : Bool := flags &&& 0x0200 ≠ 0
      let rcode := flags &&& 0x000F
      let qdcount ← uint16At msg 4
      let ancount ← uint16At msg 6
      match ← skipQuestions fuel msg qdcount.toNat 12 with
      | .error err => return { records := [], truncated, err := some err }
      | .ok offset =>
        if rcode ≠ 0 ∧ rcode ≠ 3 then
          return { records := [], truncated, err := some ("dns response code " ++ toString rcode.toNat) }
        else
          let (records, err) ← readAnswers fuel msg ancount.toNat offset []
          return { records, truncated, err }

/-! ### Reads within the message -/

variable {b msg : Bytes} {i start stop : ℕ}

theorem index_returns (h : i < b.length) : (index b i).Returns fun _ => True :=
  .ofOption (List.getElem?_eq_getElem h) trivial

theorem subslice_returns (h : start ≤ stop) (h' : stop ≤ b.length) :
    (subslice b start stop).Returns fun s => s.length = stop - start := by
  refine .ofOption (if_pos ⟨h, h'⟩) ?_
  rw [List.length_drop, List.length_take, Nat.min_eq_left h']

theorem uint16At_returns (h : start + 2 ≤ msg.length) : (uint16At msg start).Returns fun _ => True := by
  refine (subslice_returns (Nat.le_add_right ..) h).bind fun s hs => ?_
  refine (index_returns (by omega)).bind fun hi _ => ?_
  refine (index_returns (by omega)).bind fun lo _ => ?_
  exact .pure trivial

theorem uint32At_returns (h : start + 4 ≤ msg.length) : (uint32At msg start).Returns fun _ => True := by
  refine (subslice_returns (Nat.le_add_right ..) h).bind fun s hs => ?_
  refine (index_returns (by omega)).bind fun b0 _ => ?_
  refine (index_returns (by omega)).bind fun b1 _ => ?_
  refine (index_returns (by omega)).bind fun b2 _ => ?_
  refine (index_returns (by omega)).bind fun b3 _ => ?_
  exact .pure trivial

/-! ### Names end -/

/-- What each turn makes smaller: the jumps that are left, each worth the whole message, and the bytes that are left. -/
def measure (msg : Bytes) (s : NameState) : ℕ := (64 - s.jumps) * (msg.length + 1) + (msg.length - s.cursor)

/-- The number of turns that are enough for any name of the message. -/
def turns (msg : Bytes) : ℕ := 65 * (msg.length + 1)

theorem nameStep_returns {s : NameState} (hj : s.jumps ≤ 64) :
    (nameStep msg s).Returns (Sum.elim (fun s' => s'.jumps ≤ 64 ∧ measure msg s' < measure msg s) fun _ => True) := by
  rw [nameStep]
  split
  · exact .pure trivial
  · rename_i hend
    refine (index_returns (by omega)).bind fun length _ => ?_
    split
    · exact .pure trivial
    · rename_i hzero
      split
      · split
        · exact .pure trivial
        · split
          · exact .pure trivial
          · -- A pointer: the cursor is anywhere, and one jump less is left.
            refine (uint16At_returns (by omega)).bind fun pointer _ => .pure ⟨by dsimp only; omega, ?_⟩
            have hmul : (64 - s.jumps) * (msg.length + 1) = (64 - (s.jumps + 1)) * (msg.length + 1) + (msg.length + 1) := by
              rw [← Nat.succ_mul]
              congr 1
              omega
            simp only [measure]
            omega
      · dsimp only
        split
        · exact .pure trivial
        · -- A label, which is not empty.
          have hpos : 0 < length.toNat := Nat.pos_of_ne_zero fun h => hzero (UInt8.toNat_inj.mp h)
          refine (subslice_returns (by omega) (by omega)).bind fun label _ => .pure ⟨hj, ?_⟩
          simp only [measure]
          omega

/-- A name is read in a number of turns that the message's length bounds. -/
theorem decodeDNSName_returns (msg : Bytes) (offset : ℕ) :
    ∃ result, ∀ fuel, turns msg ≤ fuel → decodeDNSName fuel msg offset = .returned result := by
  obtain ⟨result, -, h⟩ := Exec.loop_returns (measure msg) (fun s (hj : s.jumps ≤ 64) => nameStep_returns hj)
    (s := { labels := [], cursor := offset, stop := none, jumps := 0 }) (Nat.zero_le _)
  refine ⟨result, fun fuel hfuel => h fuel ?_⟩
  simp only [measure, turns] at hfuel ⊢
  omega

/-! ### Responses end -/

theorem name_returns {fuel : ℕ} (h : turns msg ≤ fuel) (offset : ℕ) : (decodeDNSName fuel msg offset).Returns fun _ => True := by
  obtain ⟨result, hresult⟩ := decodeDNSName_returns msg offset
  exact ⟨result, hresult fuel h, trivial⟩

theorem skipQuestions_returns {fuel : ℕ} (h : turns msg ≤ fuel) (qdcount offset : ℕ) :
    (skipQuestions fuel msg qdcount offset).Returns fun _ => True := by
  induction qdcount generalizing offset with
  | zero => exact .pure trivial
  | succ qdcount ih =>
    refine (name_returns h offset).bind fun result _ => ?_
    cases result with
    | error err => exact .pure trivial
    | ok next => exact ih _

theorem readRecord_returns {fuel : ℕ} (h : turns msg ≤ fuel) (type : UInt16) (ttl : UInt32) (hs : start ≤ stop)
    (hs' : stop ≤ msg.length) : (readRecord fuel msg type ttl start stop).Returns fun _ => True := by
  simp only [readRecord]
  split_ifs with haddress hname
  · exact (subslice_returns hs hs').bind fun ip _ => .pure trivial
  · refine (name_returns h start).bind fun result _ => ?_
    cases result with
    | error err => exact .pure trivial
    | ok target => exact .pure trivial
  · exact .pure trivial

theorem readAnswers_returns {fuel : ℕ} (h : turns msg ≤ fuel) (ancount offset : ℕ) (records : List DnsRR) :
    (readAnswers fuel msg ancount offset records).Returns fun _ => True := by
  induction ancount generalizing offset records with
  | zero => exact .pure trivial
  | succ ancount ih =>
    rw [readAnswers]
    split_ifs with hend
    · exact .pure trivial
    · refine (name_returns h offset).bind fun result _ => ?_
      cases result with
      | error err => exact .pure trivial
      | ok next =>
        dsimp only
        split_ifs with hheader
        · exact .pure trivial
        · refine (uint16At_returns (by omega)).bind fun rrType _ => ?_
          refine (uint32At_returns (by omega)).bind fun ttl _ => ?_
          refine (uint16At_returns (by omega)).bind fun rdlength _ => ?_
          split_ifs with hdata
          · exact .pure trivial
          · exact (readRecord_returns h rrType ttl (by omega) (by omega)).bind fun record _ => ih _ _

theorem parseDNSResponse_returns {fuel : ℕ} (h : turns msg ≤ fuel) (wantID : UInt16) :
    (parseDNSResponse fuel msg wantID).Returns fun _ => True := by
  rw [parseDNSResponse]
  split_ifs with hheader
  · exact .pure trivial
  · refine (uint16At_returns (by omega)).bind fun gotID _ => ?_
    split_ifs with hid
    · exact .pure trivial
    · refine (uint16At_returns (by omega)).bind fun flags _ => ?_
      refine (uint16At_returns (by omega)).bind fun qdcount _ => ?_
      refine (uint16At_returns (by omega)).bind fun ancount _ => ?_
      refine (skipQuestions_returns h _ 12).bind fun result _ => ?_
      cases result with
      | error err => exact .pure trivial
      | ok offset =>
        dsimp only
        split_ifs with hcode
        · exact .pure trivial
        · exact (readAnswers_returns h _ offset []).bind fun answers _ => .pure trivial

/-- **The parser is safe on every input**: it ends, with a result, and never reads outside the message. -/
theorem parser_safe (msg : Bytes) (wantID : UInt16) (offset fuel : ℕ) (hfuel : turns msg ≤ fuel) :
    (∃ result, decodeDNSName fuel msg offset = .returned result) ∧
      ∃ response, parseDNSResponse fuel msg wantID = .returned response := by
  obtain ⟨result, hresult, -⟩ := name_returns hfuel offset
  obtain ⟨response, hresponse, -⟩ := parseDNSResponse_returns hfuel wantID
  exact ⟨⟨result, hresult⟩, ⟨response, hresponse⟩⟩

/-- One question, whose name is a pointer at itself. -/
def selfPointer : Bytes := [0, 7, 0x81, 0x80, 0, 1, 0, 0, 0, 0, 0, 0, 0xC0, 12, 0, 1, 0, 1]

theorem parser_safe_selfPointer :
    (∃ result, decodeDNSName 1235 selfPointer 12 = .returned result) ∧
      ∃ response, parseDNSResponse 1235 selfPointer 7 = .returned response :=
  parser_safe selfPointer 7 12 1235 (by decide)

end OpenshiftConsole.ExternalDns.DnsMessage
