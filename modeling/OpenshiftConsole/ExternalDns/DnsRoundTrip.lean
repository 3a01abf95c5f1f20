import OpenshiftConsole.ExternalDns.DnsResponses

/-!
# Decoding undoes encoding

A message is the encoding of some answers if they stand in it one behind the other, behind any questions: addresses
byte by byte, and a CNAME's target as a name that fills its data. The names may be compressed in any way that takes at
most 64 pointers for each of them, and answers of other types have any data (`WellFormed`).

The parser returns the addresses and the targets of such a message, and the decoder the labels of a name that
`encodeDNSName` wrote (`decoding_undoes_encoding`).
-/

namespace OpenshiftConsole.ExternalDns.DnsRoundTrip

open OpenshiftConsole.Library OpenshiftConsole.Library.BigEndian
open OpenshiftConsole.ExternalDns.DnsMessage OpenshiftConsole.ExternalDns.DnsNames OpenshiftConsole.ExternalDns.DnsResponses

/-- What an answer says. -/
inductive Data where
  | a (ip : Bytes)
  | aaaa (ip : Bytes)
  | cname (target : List Bytes)
  | other (type : UInt16)

/-- An answer. -/
structure Answer where
  ttl : UInt32
  data : Data

/-- The record that an answer is returned as. -/
def Answer.record (a : Answer) : Option DnsRR :=
  match a.data with
  | .a ip => some ⟨dnsTypeA, ipString ip, a.ttl⟩
  | .aaaa ip => some ⟨dnsTypeAAAA, ipString ip, a.ttl⟩
  | .cname target => some ⟨dnsTypeCNAME, dotted target, a.ttl⟩
  | .other _ => none

/-- The data of a record are those of an answer. -/
inductive Encodes (msg : Bytes) (f : Frame) : Answer → Prop where
  | a {ip} : f.type = dnsTypeA → ip.length = 4 → f.stop = f.start + 4 → At msg f.start ip → Encodes msg f ⟨f.ttl, .a ip⟩
  | aaaa {ip} : f.type = dnsTypeAAAA → ip.length = 16 → f.stop = f.start + 16 → At msg f.start ip →
      Encodes msg f ⟨f.ttl, .aaaa ip⟩
  | cname {target jumps} : f.type = dnsTypeCNAME → NameAt msg f.start target f.stop jumps → jumps ≤ 64 →
      Encodes msg f ⟨f.ttl, .cname target⟩
  | other : f.type ∉ [dnsTypeA, dnsTypeAAAA, dnsTypeCNAME] → Encodes msg f ⟨f.ttl, .other f.type⟩

/-- A successful response with some answers. -/
structure WellFormed (msg : Bytes) (id : UInt16) (h : Header) (answers : List Answer) : Prop where
  header : HeaderAt msg id h
  success : h.flags &&& 0x000F = 0
  count : answers.length = h.ancount.toNat
  sections : ∃ offset fs stop, Questions msg 12 h.qdcount.toNat offset ∧ offset ≤ msg.length ∧ Records msg offset fs stop ∧
    List.Forall₂ (Encodes msg) fs answers

variable {msg : Bytes} {f : Frame} {a : Answer}

/-- The parser takes the data of an answer for what they are. -/
theorem Encodes.read (h : Encodes msg f a) : Read msg f a.record := by
  cases h with
  | a htype hlen hstop hat =>
    rw [Answer.record, ← htype]
    exact .address (.inl ⟨htype, by omega⟩) (by rw [hlen]; exact hstop) hat
  | aaaa htype hlen hstop hat =>
    rw [Answer.record, ← htype]
    exact .address (.inr ⟨htype, by omega⟩) (by rw [hlen]; exact hstop) hat
  | cname htype hname hjumps =>
    rw [Answer.record, ← htype]
    exact .cname htype hname hjumps
  | other htype =>
    rw [List.mem_cons, List.mem_cons, List.mem_singleton, not_or, not_or] at htype
    obtain ⟨hA, hAAAA, hCNAME⟩ := htype
    refine .skipped ?_ fun h => absurd h hCNAME
    rintro (⟨h, -⟩ | ⟨h, -⟩)
    · exact hA h
    · exact hAAAA h

/-- **Decoding undoes encoding**, of messages with any questions and answers, and of any name that can be written. -/
theorem decoding_undoes_encoding :
    (∀ msg id h answers fuel, turns msg ≤ fuel → WellFormed msg id h answers →
        parseDNSResponse fuel msg id = .returned ⟨answers.filterMap Answer.record, h.truncated, none⟩) ∧
      ∀ name enc msg offset fuel, turns msg ≤ fuel → encodeDNSName name = .ok enc → At msg offset enc →
        decodeDNSName fuel msg offset = .returned (.ok (dotted (labelsOf name), offset + enc.length)) := by
  constructor
  · intro msg id h answers fuel hfuel hwell
    obtain ⟨offset, fs, stop, hquestions, -, hfs, hencodes⟩ := hwell.sections
    have hreads : List.Forall₂ (Read msg) fs (answers.map Answer.record) := by
      rw [List.forall₂_map_right_iff]
      exact hencodes.imp fun _ _ h => h.read
    refine (parseDNSResponse_ok_iff hfuel).mpr
      ⟨h, offset, fs, stop, _, ⟨hwell.header, .inl hwell.success, hquestions, hfs, ?_⟩, hreads, ?_, rfl⟩
    · rw [hencodes.length_eq, hwell.count]
      exact .inl rfl
    · rw [List.reduceOption, List.filterMap_map]
      rfl
  · intro name enc msg offset fuel hfuel henc hat
    exact (decodeDNSName_ok_iff hfuel).mpr ⟨labelsOf name, 0, nameAt_of_encodeDNSName henc hat, Nat.zero_le 64, rfl⟩

/-- A question for `a.b`; behind it a CNAME, whose target ends in a pointer, a text, and an address of the target. -/
def compressed : Bytes :=
  [0, 7, 0x81, 0x80, 0, 1, 0, 3, 0, 0, 0, 0, 1, 97, 1, 98, 0, 0, 1, 0, 1,
    0xC0, 12, 0, 5, 0, 1, 0, 0, 0, 60, 0, 4, 1, 99, 0xC0, 14,
    0xC0, 12, 0, 16, 0, 1, 0, 0, 0, 60, 0, 2, 1, 120,
    0xC0, 33, 0, 1, 0, 1, 0, 0, 0, 30, 0, 4, 192, 0, 2, 1]

theorem wellFormed_compressed :
    WellFormed compressed 7 ⟨0x8180, 1, 3⟩ [⟨60, .cname [[99], [98]]⟩, ⟨60, .other 16⟩, ⟨30, .a [192, 0, 2, 1]⟩] where
  header := by decide
  success := rfl
  count := rfl
  sections := by
    have hb : NameAt compressed 14 [[98]] 17 0 := by
      have hlabel : At compressed 14 [1, 98] := by decide
      exact .label (by decide) (by decide) (by rfl) hlabel (.root (by decide))
    have hab : NameAt compressed 12 [[97], [98]] 17 0 := by
      have hlabel : At compressed 12 [1, 97] := by decide
      exact .label (by decide) (by decide) (by rfl) hlabel hb
    have hcb : NameAt compressed 33 [[99], [98]] 37 1 := by
      have hlabel : At compressed 33 [1, 99] := by decide
      have hpointer : At compressed 35 [0xC0, 14] := by decide
      exact .label (by decide) (by decide) (by rfl) hlabel (.pointer (by decide) hpointer hb)
    have howner (offset : ℕ) (h : At compressed offset [0xC0, 12]) : NameAt compressed offset [[97], [98]] (offset + 2) 1 :=
      .pointer (by decide) h hab
    have htarget : NameAt compressed 51 [[99], [98]] 53 2 := by
      have hpointer : At compressed 51 [0xC0, 33] := by decide
      exact .pointer (by decide) hpointer hcb
    have hlengths : At compressed 31 (bytes16 4) ∧ At compressed 47 (bytes16 2) ∧ At compressed 61 (bytes16 4) := by decide
    obtain ⟨hlen₁, hlen₂, hlen₃⟩ := hlengths
    refine ⟨21, [⟨5, 60, 33, 37⟩, ⟨16, 60, 49, 51⟩, ⟨1, 30, 63, 67⟩], 67, .cons hab (by decide) .nil, by decide, ?_, ?_⟩
    · refine .cons (.mk (howner 21 (by decide)) (by decide) (by decide) (by decide) hlen₁ (by decide)) ?_
      refine .cons (.mk (howner 37 (by decide)) (by decide) (by decide) (by decide) hlen₂ (by decide)) ?_
      exact .cons (.mk htarget (by decide) (by decide) (by decide) hlen₃ (by decide)) .nil
    · exact .cons (.cname rfl hcb (by decide)) (.cons (.other (by decide)) (.cons (.a rfl rfl rfl (by decide)) .nil))

theorem decoding_undoes_encoding_compressed :
    parseDNSResponse 4420 compressed 7 = .returned
        ⟨[⟨dnsTypeCNAME, ascii "c.b", 60⟩, ⟨dnsTypeA, ascii "192.0.2.1", 30⟩], false, none⟩ ∧
      decodeDNSName 4420 compressed 12 = .returned (.ok (dotted (labelsOf (ascii ".a..b")), 17)) :=
  ⟨decoding_undoes_encoding.1 _ _ _ _ _ (by decide) wellFormed_compressed,
    decoding_undoes_encoding.2 (ascii ".a..b") [1, 97, 1, 98, 0] _ 12 _ (by decide) rfl (by decide)⟩

end OpenshiftConsole.ExternalDns.DnsRoundTrip
