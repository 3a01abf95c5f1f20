import OpenshiftConsole.ExternalDns.DnsResponses

/-!
# Queries and what is taken for their answers

`queryRecords` sends a query as a datagram, and once more over TCP if the answer is cut off. Whatever the network gives
back is taken for the answer if the parser accepts it.

The parser compares the id and nothing else. A message from which records are taken answers the question that was asked
(`Answers`) exactly if it is no `Mismatch`: it says that it is a response, it has one question, and that is the query's
(`queryRecords_answers_iff`).
-/

namespace OpenshiftConsole.ExternalDns.DnsQuery

open OpenshiftConsole.Library OpenshiftConsole.Library.BigEndian
open OpenshiftConsole.ExternalDns.DnsMessage OpenshiftConsole.ExternalDns.DnsNames OpenshiftConsole.ExternalDns.DnsResponses

/-! ### Queries -/

/-- `dnsTypeOPT` -/
def dnsTypeOPT : UInt16 := 41

/-- `dnsClassIN` -/
def dnsClassIN : UInt16 := 1

/-- `dnsUDPPayloadSize` -/
def dnsUDPPayloadSize : UInt16 := 4096

/-- Why there are no records. -/
inductive QueryError where
  | label (err : LabelTooLong)
  /-- `generating query id: %w` -/
  | random (err : String)
  | exchange (err : String)

/-- `buildDNSQuery`, with what `rand.Read` gives. -/
def buildDNSQuery (rand : Except String UInt16) (name : Bytes) (qtype : UInt16) : Except QueryError (Bytes × UInt16) :=
  match encodeDNSName name with
  | .error err => .error (.label err)
  | .ok qname =>
    match rand with
    | .error err => .error (.random err)
    | .ok id =>
      let header := bytes16 id ++ bytes16 0x0100 ++ bytes16 1 ++ bytes16 0 ++ bytes16 0 ++ bytes16 1
      let question := qname ++ bytes16 qtype ++ bytes16 dnsClassIN
      let opt := [0] ++ bytes16 dnsTypeOPT ++ bytes16 dnsUDPPayloadSize ++ bytes32 0 ++ bytes16 0
      .ok (header ++ question ++ opt, id)

/-- What is received on a connection, piece by piece, and the error that it ends with. -/
structure Conn where
  pieces : List Bytes
  err : String

/-- What is received for what is sent, unless the resolver cannot be reached. -/
structure Network where
  udp : Bytes → Except String Bytes
  tcp : Bytes → Except String Conn

/-- `readFull`: some bytes and what is received behind them, if there are so many. -/
def readFull : List Bytes → ℕ → Option (Bytes × List Bytes)
  | pieces, 0 => some ([], pieces)
  | [], _ + 1 => none
  | piece :: pieces, n + 1 =>
    if piece.length ≤ n + 1 then (readFull pieces (n + 1 - piece.length)).map fun read => (piece ++ read.1, read.2)
    else some (piece.take (n + 1), piece.drop (n + 1) :: pieces)

/-- `queryOverUDP` -/
def queryOverUDP (fuel : ℕ) (network : Network) (query : Bytes) (id : UInt16) : Exec Response :=
  match network.udp query with
  | .error err => return { records := [], truncated := false, err := some err }
  | .ok datagram => parseDNSResponse fuel (datagram.take 65535) id

/-- `queryOverTCP` -/
def queryOverTCP (fuel : ℕ) (network : Network) (query : Bytes) (id : UInt16) : Exec (List DnsRR × Option String) :=
  match network.tcp (bytes16 query.length.toUInt16 ++ query) with
  | .error err => return ([], some err)
  | .ok conn =>
    match readFull conn.pieces 2 with
    | none => return ([], some conn.err)
    | some (lenBuf, pieces) => do
      let respLen ← bigEndianUint16 lenBuf
      match readFull pieces respLen.toNat with
      | none => return ([], some conn.err)
      | some (resp, _) =>
        let response ← parseDNSResponse fuel resp id
        return (response.records, response.err)

/-- `queryRecords` -/
def queryRecords (fuel : ℕ) (network : Network) (rand : Except String UInt16) (name : Bytes) (qtype : UInt16) :
    Exec (List DnsRR × Option QueryError) :=
  match buildDNSQuery rand name qtype with
  | .error err => return ([], some err)
  | .ok (query, id) => do
    let response ← queryOverUDP fuel network query id
    match response.err with
    | some err => return ([], some (.exchange err))
    | none =>
      if response.truncated then
        let (records, err) ← queryOverTCP fuel network query id
        return (records, err.map .exchange)
      else return (response.records, none)

/-! ### Answers -/

/-- A letter as a small one. -/
def toLower (c : UInt8) : UInt8 := if 65 ≤ c ∧ c ≤ 90 then c + 32 else c

/-- Two names are the same up to the case of their letters. -/
def SameName (labels labels' : List Bytes) : Prop := labels.map (·.map toLower) = labels'.map (·.map toLower)

/-- The first question of a message is for a name and a type. -/
def Asks (msg name : Bytes) (qtype : UInt16) : Prop :=
  ∃ labels next jumps, NameAt msg 12 labels next jumps ∧ SameName labels (labelsOf name) ∧ At msg next (bytes16 qtype)

/-- A message is a response to a query: it says so, has the query's id, and has the query's question and no other. -/
def Answers (msg : Bytes) (id : UInt16) (name : Bytes) (qtype : UInt16) : Prop :=
  ∃ h, HeaderAt msg id h ∧ h.flags &&& 0x8000 ≠ 0 ∧ h.qdcount = 1 ∧ Asks msg name qtype

/-- A message is not the response to a query, for all that its header and its question say. -/
inductive Mismatch (msg : Bytes) (h : Header) (name : Bytes) (qtype : UInt16) : Prop where
  | query : h.flags &&& 0x8000 = 0 → Mismatch msg h name qtype
  | count : h.qdcount ≠ 1 → Mismatch msg h name qtype
  | name {labels next jumps} : NameAt msg 12 labels next jumps → ¬SameName labels (labelsOf name) → Mismatch msg h name qtype
  | type {labels next jumps} : NameAt msg 12 labels next jumps → ¬At msg next (bytes16 qtype) → Mismatch msg h name qtype

/-- The message that the records are taken from: the datagram, or what is received over TCP, behind its length, if the
datagram is cut off. -/
inductive Source (network : Network) (query : Bytes) (id : UInt16) : Bytes → Prop where
  | udp {datagram h offset fs stop} : network.udp query = .ok datagram →
      Accepted (datagram.take 65535) id h offset fs stop → h.truncated = false →
      Source network query id (datagram.take 65535)
  | tcp {datagram h offset fs stop conn len msg rest} : network.udp query = .ok datagram →
      Accepted (datagram.take 65535) id h offset fs stop → h.truncated = true →
      network.tcp (bytes16 query.length.toUInt16 ++ query) = .ok conn →
      conn.pieces.flatten = bytes16 len ++ (msg ++ rest) → msg.length = len.toNat → Source network query id msg

variable {fuel n : ℕ} {network : Network} {rand : Except String UInt16} {name query msg msg' buf : Bytes} {qtype id : UInt16}
  {pieces pieces' : List Bytes} {records : List DnsRR}

/-- What is sent asks for the name and the type, under its id. -/
theorem buildDNSQuery_asks (hquery : buildDNSQuery rand name qtype = .ok (query, id)) :
    HeaderAt query id ⟨0x0100, 1, 0⟩ ∧ Asks query name qtype := by
  unfold buildDNSQuery at hquery
  split at hquery
  · cases hquery
  · next qname henc =>
    split at hquery
    · cases hquery
    · next id =>
      obtain ⟨heq, rfl⟩ := Prod.mk.inj (Except.ok.inj hquery)
      have hall := at_self query
      nth_rewrite 2 [← heq] at hall
      simp only [at_append, List.length_append, length_bytes16, Nat.zero_add, Nat.reduceAdd] at hall
      obtain ⟨⟨⟨⟨⟨⟨⟨hid, hflags⟩, hqdcount⟩, hancount⟩, -⟩, -⟩, ⟨hqname, hqtype⟩, -⟩, -⟩ := hall
      have hlen := congrArg List.length heq
      simp only [List.length_append, length_bytes16] at hlen
      exact ⟨⟨by omega, hid, hflags, hqdcount, hancount⟩,
        labelsOf name, _, 0, nameAt_of_encodeDNSName henc hqname, rfl, hqtype⟩

/-! ### Reading from a connection -/

/-- What is read is what was received first. -/
theorem readFull_eq_some (h : readFull pieces n = some (buf, pieces')) :
    pieces.flatten = buf ++ pieces'.flatten ∧ buf.length = n := by
  induction pieces generalizing n buf with
  | nil =>
    cases n with
    | zero =>
      cases h
      exact ⟨rfl, rfl⟩
    | succ n => cases h
  | cons piece pieces ih =>
    cases n with
    | zero =>
      cases h
      exact ⟨rfl, rfl⟩
    | succ n =>
      rw [readFull] at h
      split_ifs at h with hshort
      · obtain ⟨⟨buf', rest⟩, hread, heq⟩ := Option.map_eq_some_iff.mp h
        obtain ⟨rfl, rfl⟩ := Prod.mk.inj heq
        obtain ⟨hflatten, hlen⟩ := ih hread
        dsimp only
        rw [List.flatten_cons, hflatten, List.length_append, List.append_assoc]
        exact ⟨rfl, by omega⟩
      · cases h
        rw [List.flatten_cons, List.flatten_cons, ← List.append_assoc, List.take_append_drop, List.length_take]
        exact ⟨rfl, by omega⟩

/-- As many bytes as were received can be read. -/
theorem exists_readFull (h : n ≤ pieces.flatten.length) : ∃ buf pieces', readFull pieces n = some (buf, pieces') := by
  induction pieces generalizing n with
  | nil =>
    obtain rfl : n = 0 := Nat.le_zero.mp h
    exact ⟨_, _, rfl⟩
  | cons piece pieces ih =>
    cases n with
    | zero => exact ⟨_, _, rfl⟩
    | succ n =>
      rw [List.flatten_cons, List.length_append] at h
      rw [readFull]
      split_ifs with hshort
      · obtain ⟨buf, rest, hread⟩ := ih (n := n + 1 - piece.length) (by omega)
        rw [hread]
        exact ⟨_, _, rfl⟩
      · exact ⟨_, _, rfl⟩

theorem bigEndianUint16_of_length (h : buf.length = 2) : ∃ len, bigEndianUint16 buf = .returned len ∧ buf = bytes16 len := by
  obtain ⟨hi, lo, rfl⟩ := List.length_eq_two.mp h
  exact ⟨ofBytes16 hi lo, rfl, (bytes16_ofBytes16 hi lo).symm⟩

/-- Enough fuel for any message that can be received. -/
theorem turns_le (hfuel : 65 * 65536 ≤ fuel) (h : msg.length ≤ 65535) : turns msg ≤ fuel := by
  unfold turns
  omega

theorem queryOverUDP_ok_iff (hfuel : 65 * 65536 ≤ fuel) {truncated : Bool} :
    queryOverUDP fuel network query id = .returned ⟨records, truncated, none⟩ ↔
      ∃ datagram h offset fs stop vs, network.udp query = .ok datagram ∧ Accepted (datagram.take 65535) id h offset fs stop ∧
        List.Forall₂ (Read (datagram.take 65535)) fs vs ∧ records = vs.reduceOption ∧ truncated = h.truncated := by
  unfold queryOverUDP
  cases network.udp query with
  | error err =>
    constructor
    · intro h
      cases h
    · rintro ⟨datagram, h, offset, fs, stop, vs, hudp, -⟩
      cases hudp
  | ok datagram =>
    dsimp only
    rw [parseDNSResponse_ok_iff (turns_le hfuel (List.length_take_le ..))]
    constructor
    · rintro ⟨h, offset, fs, stop, vs, hall⟩
      exact ⟨datagram, h, offset, fs, stop, vs, rfl, hall⟩
    · rintro ⟨_, h, offset, fs, stop, vs, hudp, hall⟩
      cases hudp
      exact ⟨h, offset, fs, stop, vs, hall⟩

theorem queryOverTCP_ok_iff (hfuel : 65 * 65536 ≤ fuel) :
    queryOverTCP fuel network query id = .returned (records, none) ↔
      ∃ conn len msg rest h offset fs stop vs, network.tcp (bytes16 query.length.toUInt16 ++ query) = .ok conn ∧
        conn.pieces.flatten = bytes16 len ++ (msg ++ rest) ∧ msg.length = len.toNat ∧ Accepted msg id h offset fs stop ∧
        List.Forall₂ (Read msg) fs vs ∧ records = vs.reduceOption := by
  unfold queryOverTCP
  cases network.tcp (bytes16 query.length.toUInt16 ++ query) with
  | error err =>
    constructor
    · intro h
      cases h
    · rintro ⟨conn, len, msg, rest, h, offset, fs, stop, vs, htcp, -⟩
      cases htcp
  | ok conn =>
    dsimp only
    constructor
    · intro hread
      split at hread
      · cases hread
      · next lenBuf pieces hlenBuf =>
        obtain ⟨hflatten, hlen⟩ := readFull_eq_some hlenBuf
        obtain ⟨len, hlen', rfl⟩ := bigEndianUint16_of_length hlen
        rw [hlen', Exec.returned_bind] at hread
        split at hread
        · cases hread
        · next msg rest hmsg =>
          obtain ⟨hflatten', hlen⟩ := readFull_eq_some hmsg
          obtain ⟨⟨records', truncated, err⟩, hparse, hread⟩ := Exec.bind_eq_returned.mp hread
          cases hread
          have hfuel' := turns_le hfuel (Nat.le_of_lt_succ (hlen ▸ len.toNat_lt))
          obtain ⟨h, offset, fs, stop, vs, haccepted, hvs, hrecords, -⟩ := (parseDNSResponse_ok_iff hfuel').mp hparse
          exact ⟨conn, len, msg, rest.flatten, h, offset, fs, stop, vs, rfl, by rw [hflatten, hflatten'], hlen, haccepted,
            hvs, hrecords⟩
    · rintro ⟨_, len, msg, rest, h, offset, fs, stop, vs, htcp, hflatten, hlen, haccepted, hvs, rfl⟩
      cases htcp
      have hlong : 2 ≤ conn.pieces.flatten.length := by
        rw [hflatten, List.length_append, length_bytes16]
        omega
      obtain ⟨lenBuf, pieces, hlenBuf⟩ := exists_readFull hlong
      obtain ⟨hflatten', hlen'⟩ := readFull_eq_some hlenBuf
      obtain ⟨rfl, hpieces⟩ := List.append_inj (hflatten.symm.trans hflatten') (by rw [hlen', length_bytes16])
      have hlong' : len.toNat ≤ pieces.flatten.length := by
        rw [← hpieces, List.length_append]
        omega
      obtain ⟨resp, pieces', hresp⟩ := exists_readFull hlong'
      obtain ⟨hflatten'', hlen''⟩ := readFull_eq_some hresp
      obtain ⟨rfl, -⟩ := List.append_inj (hpieces.trans hflatten'') (by rw [hlen, hlen''])
      have hfuel' := turns_le hfuel (Nat.le_of_lt_succ (hlen ▸ len.toNat_lt))
      have hparse := (parseDNSResponse_ok_iff hfuel').mpr ⟨h, offset, fs, stop, vs, haccepted, hvs, rfl, rfl⟩
      have hbig : bigEndianUint16 (bytes16 len) = .returned len := congrArg Exec.returned (ofBytes16_bytes16 len)
      rw [hlenBuf]
      dsimp only
      rw [hbig, Exec.returned_bind, hresp]
      dsimp only
      rw [hparse]
      rfl

/-! ### What is accepted -/

/-- Records are taken from one message only. -/
theorem Source.unique (h : Source network query id msg) (h' : Source network query id msg') : msg = msg' := by
  cases h with
  | udp hudp haccepted htruncated =>
    cases h' with
    | udp hudp' _ _ => rw [Except.ok.inj (hudp.symm.trans hudp')]
    | tcp hudp' haccepted' htruncated' =>
      rw [Except.ok.inj (hudp.symm.trans hudp')] at haccepted
      obtain ⟨-, rfl⟩ := haccepted.header.unique haccepted'.header
      rw [htruncated] at htruncated'
      cases htruncated'
  | tcp hudp haccepted htruncated htcp hflatten hlen =>
    cases h' with
    | udp hudp' haccepted' htruncated' =>
      rw [Except.ok.inj (hudp.symm.trans hudp')] at haccepted
      obtain ⟨-, rfl⟩ := haccepted.header.unique haccepted'.header
      rw [htruncated] at htruncated'
      cases htruncated'
    | tcp _ _ _ htcp' hflatten' hlen' =>
      rw [← Except.ok.inj (htcp.symm.trans htcp'), hflatten] at hflatten'
      obtain ⟨hbytes, hrest⟩ := List.append_inj hflatten' rfl
      rw [← bytes16_inj hbytes] at hlen'
      exact (List.append_inj hrest (hlen.trans hlen'.symm)).1

/-- Records are returned where the parser accepts the message that they are taken from. -/
theorem queryRecords_ok_iff (hfuel : 65 * 65536 ≤ fuel) (hquery : buildDNSQuery rand name qtype = .ok (query, id)) :
    queryRecords fuel network rand name qtype = .returned (records, none) ↔ ∃ msg h offset fs stop vs,
      Source network query id msg ∧ Accepted msg id h offset fs stop ∧ List.Forall₂ (Read msg) fs vs ∧
        records = vs.reduceOption := by
  rw [queryRecords, hquery]
  dsimp only
  constructor
  · intro hrun
    obtain ⟨⟨records', truncated, err⟩, hresponse, hrun⟩ := Exec.bind_eq_returned.mp hrun
    cases err with
    | some err => cases hrun
    | none =>
      obtain ⟨datagram, h, offset, fs, stop, vs, hudp, haccepted, hvs, rfl, rfl⟩ := (queryOverUDP_ok_iff hfuel).mp hresponse
      dsimp only at hrun
      split_ifs at hrun with htruncated
      · obtain ⟨⟨records', err⟩, hresponse', hrun⟩ := Exec.bind_eq_returned.mp hrun
        cases err with
        | some err => cases hrun
        | none =>
          cases hrun
          obtain ⟨conn, len, msg, rest, h', offset', fs', stop', vs', htcp, hflatten, hlen, haccepted', hvs', rfl⟩ :=
            (queryOverTCP_ok_iff hfuel).mp hresponse'
          exact ⟨msg, h', offset', fs', stop', vs', .tcp hudp haccepted htruncated htcp hflatten hlen, haccepted', hvs', rfl⟩
      · cases hrun
        exact ⟨_, h, offset, fs, stop, vs, .udp hudp haccepted (Bool.eq_false_iff.mpr htruncated), haccepted, hvs, rfl⟩
  · rintro ⟨msg, h, offset, fs, stop, vs, hsource, haccepted, hvs, rfl⟩
    cases hsource with
    | @udp datagram h' offset' fs' stop' hudp haccepted' htruncated =>
      obtain ⟨-, rfl⟩ := haccepted'.header.unique haccepted.header
      rw [(queryOverUDP_ok_iff hfuel).mpr ⟨datagram, h', offset, fs, stop, vs, hudp, haccepted, hvs, rfl, rfl⟩,
        Exec.returned_bind]
      dsimp only
      rw [if_neg (by rw [htruncated]; exact Bool.false_ne_true)]
      rfl
    | @tcp datagram h' offset' fs' stop' conn len _ rest hudp haccepted' htruncated htcp hflatten hlen =>
      obtain ⟨vs', hvs'⟩ := exists_reads _ haccepted'.records
      rw [(queryOverUDP_ok_iff hfuel).mpr ⟨datagram, h', offset', fs', stop', vs', hudp, haccepted', hvs', rfl, rfl⟩,
        Exec.returned_bind]
      dsimp only
      rw [if_pos htruncated, (queryOverTCP_ok_iff hfuel).mpr
        ⟨conn, len, msg, rest, h, offset, fs, stop, vs, htcp, hflatten, hlen, haccepted, hvs, rfl⟩]
      rfl

/-- The parser compares the id; the rest of an answer is right if nothing else in it is wrong. -/
theorem answers_iff {h : Header} {offset stop : ℕ} {fs : List Frame} (haccepted : Accepted msg id h offset fs stop) :
    Answers msg id name qtype ↔ ¬Mismatch msg h name qtype := by
  constructor
  · rintro ⟨h', hheader, hresponse, hcount, labels, next, jumps, hname, hsame, htype⟩ hmismatch
    obtain ⟨-, rfl⟩ := haccepted.header.unique hheader
    cases hmismatch with
    | query hquery => exact hresponse hquery
    | count hcount' => exact hcount' hcount
    | name hname' hother =>
      obtain ⟨rfl, -, -⟩ := hname.unique hname'
      exact hother hsame
    | type hname' hother =>
      obtain ⟨-, rfl, -⟩ := hname.unique hname'
      exact hother htype
  · intro hno
    have hcount : h.qdcount = 1 := by_contra fun hcount => hno (.count hcount)
    have hquestions := haccepted.questions
    rw [hcount] at hquestions
    cases hquestions with
    | cons hname _ _ =>
      refine ⟨h, haccepted.header, fun hquery => hno (.query hquery), hcount, _, _, _, hname, ?_, ?_⟩
      · exact by_contra fun hother => hno (.name hname hother)
      · exact by_contra fun hother => hno (.type hname hother)

/-- **The records that a query returns** are those of an answer to it exactly if the message that they are taken from is
no mismatch, of which the parser checks nothing. -/
theorem queryRecords_answers_iff (hfuel : 65 * 65536 ≤ fuel) (hquery : buildDNSQuery rand name qtype = .ok (query, id)) :
    (∀ records, queryRecords fuel network rand name qtype = .returned (records, none) → records ≠ [] →
        ∃ msg, Source network query id msg ∧ Answers msg id name qtype) ↔
      ∀ msg h offset fs stop vs, Source network query id msg → Accepted msg id h offset fs stop →
        List.Forall₂ (Read msg) fs vs → vs.reduceOption ≠ [] → ¬Mismatch msg h name qtype := by
  constructor
  · intro hall msg h offset fs stop vs hsource haccepted hvs hne
    obtain ⟨msg', hsource', hanswers⟩ := hall _ ((queryRecords_ok_iff hfuel hquery).mpr
      ⟨msg, h, offset, fs, stop, vs, hsource, haccepted, hvs, rfl⟩) hne
    obtain rfl := hsource.unique hsource'
    exact (answers_iff haccepted).mp hanswers
  · intro hno records hrun hne
    obtain ⟨msg, h, offset, fs, stop, vs, hsource, haccepted, hvs, rfl⟩ := (queryRecords_ok_iff hfuel hquery).mp hrun
    exact ⟨msg, hsource, (answers_iff haccepted).mpr (hno msg h offset fs stop vs hsource haccepted hvs hne)⟩

/-- A network that gives a datagram back and has no TCP. -/
def datagramOnly (datagram : Bytes) : Network where
  udp := fun _ => .ok datagram
  tcp := fun _ => .error "connection refused"

/-- The query for the address of `a`, with the id 7. -/
def queryA : Bytes := [0, 7, 1, 0, 0, 1, 0, 0, 0, 0, 0, 1, 1, 97, 0, 0, 1, 0, 1, 0, 0, 41, 16, 0, 0, 0, 0, 0, 0, 0]

/-- A response to it, with a question for `A`. -/
def responseA : Bytes :=
  [0, 7, 0x81, 0x80, 0, 1, 0, 1, 0, 0, 0, 0, 1, 65, 0, 0, 1, 0, 1, 0xC0, 12, 0, 1, 0, 1, 0, 0, 0, 60, 0, 4, 192, 0, 2, 1]

theorem queryRecords_answers_iff_responseA :
    ∃ msg, Source (datagramOnly responseA) queryA 7 msg ∧ Answers msg 7 (ascii "a") dnsTypeA := by
  have hquery : buildDNSQuery (.ok 7) (ascii "a") dnsTypeA = .ok (queryA, 7) := rfl
  have hrun : queryRecords (65 * 65536) (datagramOnly responseA) (.ok 7) (ascii "a") dnsTypeA =
      .returned ([⟨dnsTypeA, ascii "192.0.2.1", 60⟩], none) := rfl
  refine (queryRecords_answers_iff le_rfl hquery).mpr (fun msg h offset fs stop vs hsource haccepted _ _ => ?_) _ hrun
    (List.cons_ne_nil _ _)
  have hheader : HeaderAt responseA 7 ⟨0x8180, 1, 1⟩ := by decide
  have hlabel : At responseA 12 [1, 65] := by decide
  have hname : NameAt responseA 12 [[65]] 15 0 := .label (by decide) (by decide) (by rfl) hlabel (.root (by decide))
  cases hsource with
  | udp hudp _ _ =>
    cases hudp
    exact (answers_iff haccepted).mp ⟨_, hheader, by decide, rfl, _, _, _, hname, rfl, by decide⟩
  | tcp _ _ _ htcp _ _ => cases htcp

/-- A query of its own, with the id that is waited for, no question and an address. -/
def forged : Bytes := [0, 7, 0, 0, 0, 0, 0, 1, 0, 0, 0, 0, 0, 0, 1, 0, 1, 0, 0, 0, 60, 0, 4, 192, 0, 2, 1]

theorem queryRecords_forged :
    queryRecords (65 * 65536) (datagramOnly forged) (.ok 7) (ascii "a") dnsTypeA =
        .returned ([⟨dnsTypeA, ascii "192.0.2.1", 60⟩], none) ∧
      ¬∃ msg, Source (datagramOnly forged) queryA 7 msg ∧ Answers msg 7 (ascii "a") dnsTypeA := by
  refine ⟨rfl, ?_⟩
  rintro ⟨msg, hsource, h, hheader, hresponse, -⟩
  cases hsource with
  | udp hudp _ _ =>
    cases hudp
    have hforged : HeaderAt forged 7 ⟨0, 0, 1⟩ := by decide
    obtain ⟨-, rfl⟩ := hheader.unique hforged
    exact hresponse rfl
  | tcp _ _ _ htcp _ _ => cases htcp

end OpenshiftConsole.ExternalDns.DnsQuery
