import OpenshiftConsole.ExternalDns.Cache
import OpenshiftConsole.Library.LastWriter

/-!
# What a lookup finds

A hostname is looked up by queries that run side by side: TXT records at its name and at the
names with a record type's prefix, for who claims it, and its addresses. Each query's answer is
merged into the result when it is there, under a lock; so the order in which they complete is the
order of the merges. An order is a permutation of the queries.

The managed flag and the addresses do not depend on the order. The owner is the last one that a
TXT answer claims, and a CNAME that comes with the A and with the AAAA records is listed twice:
the result is what it should be exactly if the TXT answers that name an owner end with the same
one, and no record is answered twice (`settled_iff`).
-/

namespace OpenshiftConsole.ExternalDns.Lookup

open OpenshiftConsole.Library.Lines (Text)
open OpenshiftConsole.Library.LastWriter

/-- What the lookups are configured with. -/
structure Settings where
  enableIPv4 : Bool
  enableIPv6 : Bool
  txtHeritageMarker : Text

/-! ### Claims -/

/-- `txtOwnerKey` -/
def txtOwnerKey : Text := "external-dns/owner".toList

/-- `strings.Trim(field, "\\" ")` -/
def trimQuotes (s : Text) : Text :=
  let quote (c : Char) : Bool := c = '"' ∨ c = ' '
  ((s.dropWhile quote).reverse.dropWhile quote).reverse

/-- `strings.Cut(field, "=")` -/
def cutEquals (field : Text) : Option (Text × Text) :=
  if '=' ∈ field then some (field.takeWhile (· ≠ '='), (field.dropWhile (· ≠ '=')).drop 1) else none

/-- The owner that a field names. -/
def fieldOwner (field : Text) : Option Text :=
  match cutEquals (trimQuotes field) with
  | some (key, value) => if trimSpace key = txtOwnerKey then some (trimSpace value) else none
  | none => none

/-- `parseTXTClaim`: the owner that a claim names, empty if it names none. -/
def parseTXTClaim (marker data : Text) : Option Text :=
  if contains data marker then some (((data.splitOn ',').findSome? fieldOwner).getD []) else none

/-- `txtRecordTypePrefixes` -/
def txtRecordTypePrefixes (cfg : Settings) : List Text :=
  [[]] ++ (if cfg.enableIPv4 then ["a-".toList] else []) ++ (if cfg.enableIPv6 then ["aaaa-".toList] else []) ++
    ["cname-".toList]

/-! ### Answers -/

/-- `ip4` or `ip6`. -/
inductive Network where
  | ip4 | ip6
deriving DecidableEq

/-- How `LookupIP` fails. -/
structure LookupError where
  isNotFound : Bool
  text : Text

/-- The types of the records that are kept of an answer. -/
inductive RRType where
  | a | aaaa | cname
deriving DecidableEq

/-- `dnsRecordTypeName` -/
def dnsRecordTypeName : RRType → Text
  | .a => "A".toList
  | .aaaa => "AAAA".toList
  | .cname => "CNAME".toList

/-- `dnsRR` -/
structure RR where
  type : RRType
  value : Text
  ttl : ℕ
deriving DecidableEq

/-- The type that is asked for. -/
inductive QType where
  | a | aaaa
deriving DecidableEq

/-- What each query is answered. -/
structure Answers where
  /-- `lookupTXT`, by the name it asks for. -/
  txt : Text → Except Text (List Text)
  ip : Network → Except LookupError (List Text)
  /-- `queryRecords` -/
  records : QType → Except Text (List RR)

/-! ### Ownership -/

/-- What `lookupTXTOwnership` has found so far. -/
structure Ownership where
  managed : Bool
  ownerID : Text
  err : Option Text

variable (cfg : Settings) (hostname : Text) (answers : Answers)

/-- A TXT record is merged. -/
def Ownership.claim (o : Ownership) (data : Text) : Ownership :=
  match parseTXTClaim cfg.txtHeritageMarker data with
  | some owner => { o with managed := true, ownerID := if owner ≠ [] then owner else o.ownerID }
  | none => o

/-- The answer for a name is merged. -/
def Ownership.complete (o : Ownership) (name : Text) : Ownership :=
  match answers.txt name with
  | .error err => { o with err := o.err.or (some err) }
  | .ok records => records.foldl (Ownership.claim cfg) o

/-- The names that are asked for TXT records. -/
def txtNames : List Text := (txtRecordTypePrefixes cfg).map (· ++ hostname)

/-- `lookupTXTOwnership`, if the queries complete in this order. -/
def lookupTXTOwnership (order : List Text) : Ownership :=
  order.foldl (Ownership.complete cfg answers) ⟨false, [], none⟩

/-! ### Addresses -/

/-- What `lookupHost` has found so far. -/
structure Hosts where
  addrs : List Text
  firstErr : Option Text

/-- The answer for an address family is merged. -/
def Hosts.complete (h : Hosts) (network : Network) : Hosts :=
  match answers.ip network with
  | .error err => if err.isNotFound then h else { h with firstErr := h.firstErr.or (some err.text) }
  | .ok ips => { h with addrs := h.addrs ++ ips }

/-- The address families that are asked for. -/
def networks : List Network := (if cfg.enableIPv4 then [.ip4] else []) ++ (if cfg.enableIPv6 then [.ip6] else [])

/-- `lookupHost`, if the queries complete in this order. -/
def lookupHost (order : List Network) : Except Text (List Text) :=
  let h := order.foldl (Hosts.complete answers) ⟨[], none⟩
  match h.addrs, h.firstErr with
  | [], some err => .error err
  | addrs, _ => .ok addrs

/-- `HostnameResult` -/
structure HostnameResult where
  hostname : Text
  managed : Bool
  ownerID : Text
  addresses : List Text
  error : Text

/-- The two parts of `resolveHostname`. -/
inductive HostnamePart where
  | ownership | addresses
deriving DecidableEq

/-- An order in which the queries of `resolveHostname` complete. -/
structure HostnameOrder where
  txt : List Text
  ip : List Network
  parts : List HostnamePart
  txt_perm : txt.Perm (txtNames cfg hostname)
  ip_perm : ip.Perm (networks cfg)
  parts_perm : parts.Perm [.ownership, .addresses]

/-- The first error is kept. -/
def keepError (error : Text) (err : Option Text) : Text :=
  match err with
  | some text => if error = [] then text else error
  | none => error

variable {cfg hostname}

/-- A part of the result is there. -/
def HostnameResult.merge (o : HostnameOrder cfg hostname) (r : HostnameResult) : HostnamePart → HostnameResult
  | .ownership =>
    let own := lookupTXTOwnership cfg answers o.txt
    { r with managed := own.managed, ownerID := own.ownerID, error := keepError r.error own.err }
  | .addresses =>
    match lookupHost answers o.ip with
    | .error err => { r with error := keepError r.error (some err) }
    | .ok addrs => { r with addresses := addrs }

/-- `resolveHostname`, and how long the result keeps. -/
def resolveHostname (o : HostnameOrder cfg hostname) : HostnameResult × ℕ :=
  (o.parts.foldl (HostnameResult.merge answers o) ⟨hostname, false, [], [], []⟩,
    Cache.clampCacheTTL Cache.fallbackCacheTTL)

/-! ### Records -/

/-- `DNSRecord` -/
structure DNSRecord where
  type : Text
  value : Text
  ttl : ℕ
deriving DecidableEq

/-- `DNSSettingsResult` -/
structure DNSSettingsResult where
  hostname : Text
  managed : Bool
  ownerID : Text
  records : List DNSRecord
  error : Text

/-- What `resolveDNSSettings` has found so far. -/
structure Found where
  result : DNSSettingsResult
  firstErr : Option Text
  minTTL : Option ℕ

/-- The three parts of `resolveDNSSettings`. -/
inductive SettingsPart where
  | ownership
  | records (qtype : QType)
deriving DecidableEq

variable (cfg hostname)

/-- An order in which the queries of `resolveDNSSettings` complete. -/
structure SettingsOrder where
  txt : List Text
  parts : List SettingsPart
  txt_perm : txt.Perm (txtNames cfg hostname)
  parts_perm : parts.Perm [.ownership, .records .a, .records .aaaa]

variable {cfg hostname}

/-- A record is appended. -/
def Found.append (f : Found) (rr : RR) : Found :=
  { f with
    result := { f.result with records := f.result.records ++ [⟨dnsRecordTypeName rr.type, rr.value, rr.ttl⟩] }
    minTTL := match f.minTTL with
      | none => some rr.ttl
      | some ttl => if rr.ttl < ttl then some rr.ttl else some ttl }

/-- A part of the result is there. -/
def Found.merge (o : SettingsOrder cfg hostname) (f : Found) : SettingsPart → Found
  | .ownership =>
    let own := lookupTXTOwnership cfg answers o.txt
    { f with
      result := { f.result with managed := own.managed, ownerID := own.ownerID }
      firstErr := f.firstErr.or own.err }
  | .records qtype =>
    match answers.records qtype with
    | .error err => { f with firstErr := f.firstErr.or (some err) }
    | .ok recs => recs.foldl Found.append f

/-- `resolveDNSSettings`, and how long the result keeps. -/
def resolveDNSSettings (o : SettingsOrder cfg hostname) : DNSSettingsResult × ℕ :=
  let f := o.parts.foldl (Found.merge answers o) ⟨⟨hostname, false, [], [], []⟩, none, none⟩
  let result := match f.result.records, f.firstErr with
    | [], some err => { f.result with error := err }
    | _, _ => f.result
  (result, match f.minTTL with
    | none => Cache.fallbackCacheTTL
    | some ttl => Cache.clampCacheTTL (ttl * Cache.second))

/-! ### What the order leaves open -/

variable (cfg)

/-- The owner that a claim names, if it names one. -/
def namedOwner (data : Text) : Option Text := (parseTXTClaim cfg.txtHeritageMarker data).filter (· ≠ [])

/-- The last owner that the answer for a name names. -/
def lastOwner (name : Text) : Option Text :=
  match answers.txt name with
  | .error _ => none
  | .ok records => lastWriter (records.map (namedOwner cfg))

/-- There is a claim in the answer for a name. -/
def claimed (name : Text) : Bool :=
  match answers.txt name with
  | .error _ => false
  | .ok records => records.any fun data => (parseTXTClaim cfg.txtHeritageMarker data).isSome

variable {cfg}

theorem claim_ownerID (o : Ownership) (data : Text) :
    (o.claim cfg data).ownerID = (namedOwner cfg data).getD o.ownerID := by
  rw [Ownership.claim, namedOwner]
  rcases parseTXTClaim cfg.txtHeritageMarker data with _ | owner
  · rfl
  · by_cases h : owner = [] <;> simp [h, Option.filter]

theorem complete_ownerID (o : Ownership) (name : Text) :
    (o.complete cfg answers name).ownerID = (lastOwner cfg answers name).getD o.ownerID := by
  rw [Ownership.complete, lastOwner]
  rcases answers.txt name with err | records
  · rfl
  · exact foldl_eq_lastWriter Ownership.ownerID claim_ownerID records o

theorem lookupTXTOwnership_ownerID (order : List Text) :
    (lookupTXTOwnership cfg answers order).ownerID = (lastWriter (order.map (lastOwner cfg answers))).getD [] :=
  foldl_eq_lastWriter Ownership.ownerID (complete_ownerID answers) order _

theorem claims_managed (records : List Text) (o : Ownership) :
    (records.foldl (Ownership.claim cfg) o).managed =
      (o.managed || records.any fun data => (parseTXTClaim cfg.txtHeritageMarker data).isSome) := by
  induction records generalizing o with
  | nil => rw [List.foldl_nil, List.any_nil, Bool.or_false]
  | cons data records ih =>
    rw [List.foldl_cons, ih, List.any_cons, ← Bool.or_assoc]
    congr 1
    rw [Ownership.claim]
    rcases parseTXTClaim cfg.txtHeritageMarker data with _ | owner <;> simp

theorem complete_managed (o : Ownership) (name : Text) :
    (o.complete cfg answers name).managed = (o.managed || claimed cfg answers name) := by
  rw [Ownership.complete, claimed]
  rcases answers.txt name with err | records
  · rw [Bool.or_false]
  · exact claims_managed records o

theorem lookupTXTOwnership_managed (order : List Text) :
    (lookupTXTOwnership cfg answers order).managed = order.any (claimed cfg answers) := by
  have hfold : ∀ o : Ownership, (order.foldl (Ownership.complete cfg answers) o).managed =
      (o.managed || order.any (claimed cfg answers)) := by
    induction order with
    | nil => simp
    | cons name order ih =>
      intro o
      rw [List.foldl_cons, ih, complete_managed, List.any_cons, Bool.or_assoc]
  rw [lookupTXTOwnership, hfold, Bool.false_or]

/-- The addresses in the answer for a family. -/
def ipsOf (network : Network) : List Text :=
  match answers.ip network with
  | .error _ => []
  | .ok ips => ips

theorem complete_addrs (h : Hosts) (network : Network) :
    (h.complete answers network).addrs = h.addrs ++ ipsOf answers network := by
  rw [Hosts.complete, ipsOf]
  rcases answers.ip network with err | ips
  · by_cases hn : err.isNotFound <;> simp [hn]
  · rfl

theorem hosts_addrs (order : List Network) (h : Hosts) :
    (order.foldl (Hosts.complete answers) h).addrs = h.addrs ++ order.flatMap (ipsOf answers) := by
  induction order generalizing h with
  | nil => simp
  | cons network order ih =>
    rw [List.foldl_cons, ih, complete_addrs, List.flatMap_cons, List.append_assoc]

theorem lookupHost_eq (order : List Network) :
    (∃ err, lookupHost answers order = .error err ∧ order.flatMap (ipsOf answers) = []) ∨
      lookupHost answers order = .ok (order.flatMap (ipsOf answers)) := by
  have ha := hosts_addrs answers order ⟨[], none⟩
  rw [lookupHost]
  rcases hh : order.foldl (Hosts.complete answers) ⟨[], none⟩ with ⟨addrs, firstErr⟩
  rw [hh] at ha
  obtain rfl : addrs = order.flatMap (ipsOf answers) := ha
  rcases hips : order.flatMap (ipsOf answers) with _ | ⟨addr, addrs⟩
  · cases firstErr with
    | none => exact .inr rfl
    | some err => exact .inl ⟨err, rfl, rfl⟩
  · exact .inr rfl

/-- A part that is there leaves its mark, whenever it comes. -/
theorem lastWriter_part {π ρ : Type*} [DecidableEq π] {parts all : List π} {part : π} {r : ρ} (hp : parts.Perm all)
    (hmem : part ∈ all) : lastWriter (parts.map fun q => if q = part then some r else none) = some r := by
  apply lastWriter_eq_some
  · exact List.mem_map.mpr ⟨part, hp.mem_iff.mpr hmem, if_pos rfl⟩
  · intro b hb
    obtain ⟨q, -, hq⟩ := List.mem_map.mp hb
    split at hq
    · exact (Option.some_inj.mp hq).symm
    · cases hq

theorem resolveHostname_owner (o : HostnameOrder cfg hostname) :
    let r := (resolveHostname answers o).1
    (r.managed, r.ownerID) = (o.txt.any (claimed cfg answers), (lastWriter (o.txt.map (lastOwner cfg answers))).getD []) := by
  have hstep : ∀ (r : HostnameResult) (part : HostnamePart), ((r.merge answers o part).managed, (r.merge answers o part).ownerID) =
      (if part = .ownership then
        some ((lookupTXTOwnership cfg answers o.txt).managed, (lookupTXTOwnership cfg answers o.txt).ownerID)
      else none).getD (r.managed, r.ownerID) := by
    intro r part
    cases part with
    | ownership => rfl
    | addresses =>
      rw [HostnameResult.merge]
      rcases lookupHost answers o.ip with err | addrs <;> rfl
  have hfold := foldl_eq_lastWriter (fun r : HostnameResult => (r.managed, r.ownerID)) hstep o.parts
    ⟨hostname, false, [], [], []⟩
  rw [lastWriter_part o.parts_perm List.mem_cons_self, Option.getD_some] at hfold
  rw [← lookupTXTOwnership_managed, ← lookupTXTOwnership_ownerID]
  exact hfold

theorem resolveHostname_addresses (o : HostnameOrder cfg hostname) :
    (resolveHostname answers o).1.addresses = o.ip.flatMap (ipsOf answers) := by
  rcases lookupHost_eq answers o.ip with ⟨err, he, hnil⟩ | he
  · rw [hnil]
    refine List.foldlRecOn (motive := fun r : HostnameResult => r.addresses = []) _ _ rfl (fun r hr part _ => ?_)
    cases part with
    | ownership => exact hr
    | addresses =>
      rw [HostnameResult.merge]
      rw [he]
      exact hr
  · have hstep : ∀ (r : HostnameResult) (part : HostnamePart), (r.merge answers o part).addresses =
        (if part = .addresses then some (o.ip.flatMap (ipsOf answers)) else none).getD r.addresses := by
      intro r part
      cases part with
      | ownership => rfl
      | addresses =>
        rw [HostnameResult.merge]
        rw [he]
        rfl
    have hfold := foldl_eq_lastWriter HostnameResult.addresses hstep o.parts ⟨hostname, false, [], [], []⟩
    rw [lastWriter_part o.parts_perm (List.mem_cons_of_mem _ List.mem_cons_self), Option.getD_some] at hfold
    exact hfold

/-- The records in the answer for a type. -/
def recordsOf (qtype : QType) : List DNSRecord :=
  match answers.records qtype with
  | .error _ => []
  | .ok recs => recs.map fun rr => ⟨dnsRecordTypeName rr.type, rr.value, rr.ttl⟩

/-- The records that a part of the result brings. -/
def partRecords : SettingsPart → List DNSRecord
  | .ownership => []
  | .records qtype => recordsOf answers qtype

theorem append_result (recs : List RR) (f : Found) :
    let r := (recs.foldl Found.append f).result
    r.records = f.result.records ++ recs.map (fun rr => ⟨dnsRecordTypeName rr.type, rr.value, rr.ttl⟩) ∧
      (r.managed, r.ownerID) = (f.result.managed, f.result.ownerID) := by
  induction recs generalizing f with
  | nil => simp
  | cons rr recs ih =>
    obtain ⟨hr, ho⟩ := ih (f.append rr)
    refine ⟨?_, ho⟩
    rw [List.foldl_cons, hr, List.map_cons, Found.append, List.append_assoc, List.singleton_append]

theorem merge_records (o : SettingsOrder cfg hostname) (f : Found) (part : SettingsPart) :
    (f.merge answers o part).result.records = f.result.records ++ partRecords answers part := by
  cases part with
  | ownership => exact (List.append_nil _).symm
  | records qtype =>
    simp only [Found.merge, partRecords, recordsOf]
    rcases answers.records qtype with err | recs
    · exact (List.append_nil _).symm
    · exact (append_result recs f).1

theorem merge_owner (o : SettingsOrder cfg hostname) (f : Found) (part : SettingsPart) :
    ((f.merge answers o part).result.managed, (f.merge answers o part).result.ownerID) =
      (if part = .ownership then
        some ((lookupTXTOwnership cfg answers o.txt).managed, (lookupTXTOwnership cfg answers o.txt).ownerID)
      else none).getD (f.result.managed, f.result.ownerID) := by
  cases part with
  | ownership => rfl
  | records qtype =>
    simp only [Found.merge]
    rcases answers.records qtype with err | recs
    · rfl
    · exact (append_result recs f).2

theorem resolveDNSSettings_records (o : SettingsOrder cfg hostname) :
    (resolveDNSSettings answers o).1.records = o.parts.flatMap (partRecords answers) := by
  have hfold : ∀ (parts : List SettingsPart) (f : Found), (parts.foldl (Found.merge answers o) f).result.records =
      f.result.records ++ parts.flatMap (partRecords answers) := by
    intro parts
    induction parts with
    | nil => simp
    | cons part parts ih =>
      intro f
      rw [List.foldl_cons, ih, merge_records, List.flatMap_cons, List.append_assoc]
  rw [resolveDNSSettings]
  simp only
  split <;> rw [hfold, List.nil_append]

theorem resolveDNSSettings_owner (o : SettingsOrder cfg hostname) :
    let r := (resolveDNSSettings answers o).1
    (r.managed, r.ownerID) = (o.txt.any (claimed cfg answers), (lastWriter (o.txt.map (lastOwner cfg answers))).getD []) := by
  have hfold := foldl_eq_lastWriter (fun f : Found => (f.result.managed, f.result.ownerID))
    (merge_owner answers o) o.parts ⟨⟨hostname, false, [], [], []⟩, none, none⟩
  rw [lastWriter_part o.parts_perm List.mem_cons_self, Option.getD_some] at hfold
  rw [← lookupTXTOwnership_managed, ← lookupTXTOwnership_ownerID]
  rw [resolveDNSSettings]
  simp only
  split <;> exact hfold

/-! ### When the order does not show -/

/-- The result does not depend on the order, up to the order of what it lists, and lists no record twice. -/
structure Settled (cfg : Settings) (hostname : Text) (answers : Answers) : Prop where
  ofHostname : ∀ o o' : HostnameOrder cfg hostname,
    let r := (resolveHostname answers o).1
    let r' := (resolveHostname answers o').1
    r.managed = r'.managed ∧ r.ownerID = r'.ownerID ∧ ∀ a, a ∈ r.addresses ↔ a ∈ r'.addresses
  ofSettings : ∀ o o' : SettingsOrder cfg hostname,
    let r := (resolveDNSSettings answers o).1
    let r' := (resolveDNSSettings answers o').1
    r.managed = r'.managed ∧ r.ownerID = r'.ownerID ∧ (∀ a, a ∈ r.records ↔ a ∈ r'.records) ∧ r.records.Nodup

/-- The TXT answers that name an owner end with the same one. -/
def OneOwner (cfg : Settings) (hostname : Text) (answers : Answers) : Prop :=
  ∀ x ∈ txtNames cfg hostname, ∀ y ∈ txtNames cfg hostname, ∀ a b,
    lastOwner cfg answers x = some a → lastOwner cfg answers y = some b → a = b

variable (cfg hostname) in
/-- The queries complete in the order in which they are started, but for the TXT queries. -/
def inOrder (txt : List Text) (h : txt.Perm (txtNames cfg hostname)) : HostnameOrder cfg hostname where
  txt
  ip := networks cfg
  parts := [.ownership, .addresses]
  txt_perm := h
  ip_perm := .refl _
  parts_perm := .refl _

/-- An owner that is named is not empty. -/
theorem lastOwner_ne {name owner : Text} (h : lastOwner cfg answers name = some owner) : owner ≠ [] := by
  rw [lastOwner] at h
  split at h
  · cases h
  · obtain ⟨data, -, hd⟩ := List.mem_map.mp (mem_of_lastWriter h)
    rw [namedOwner] at hd
    rw [Option.filter_eq_some_iff] at hd
    simpa using hd.2

/-- The owner of a lookup tells which was named last. -/
theorem lastOwner_inj {l l' : List Text} (h : (lastWriter (l.map (lastOwner cfg answers))).getD [] =
    (lastWriter (l'.map (lastOwner cfg answers))).getD []) :
    lastWriter (l.map (lastOwner cfg answers)) = lastWriter (l'.map (lastOwner cfg answers)) := by
  have hne : ∀ {l : List Text} {a : Text}, lastWriter (l.map (lastOwner cfg answers)) = some a → a ≠ [] := by
    intro l a ha
    obtain ⟨name, -, hn⟩ := List.mem_map.mp (mem_of_lastWriter ha)
    exact lastOwner_ne answers hn
  rcases ha : lastWriter (l.map (lastOwner cfg answers)) with _ | a <;>
    rcases hb : lastWriter (l'.map (lastOwner cfg answers)) with _ | b
  · rfl
  · rw [ha, hb] at h
    exact absurd h.symm (hne hb)
  · rw [ha, hb] at h
    exact absurd h (hne ha)
  · rw [ha, hb] at h
    exact congrArg some h

theorem owner_eq {l l' : List Text} (h : OneOwner cfg hostname answers) (hl : l.Perm (txtNames cfg hostname))
    (hl' : l'.Perm (txtNames cfg hostname)) :
    (l.any (claimed cfg answers), (lastWriter (l.map (lastOwner cfg answers))).getD []) =
      (l'.any (claimed cfg answers), (lastWriter (l'.map (lastOwner cfg answers))).getD []) := by
  rw [(hl.trans hl'.symm).any_eq, (lastWriter_perm_iff (lastOwner cfg answers) (txtNames cfg hostname)).mpr h l l' hl hl']

theorem records_perm (o : SettingsOrder cfg hostname) :
    (resolveDNSSettings answers o).1.records.Perm (recordsOf answers .a ++ recordsOf answers .aaaa) := by
  rw [resolveDNSSettings_records]
  refine (List.Perm.flatMap_right (partRecords answers) o.parts_perm).trans ?_
  simp [partRecords]

/-- **When the order of the queries does not show in the result**, and no record is listed twice. -/
theorem settled_iff (cfg : Settings) (hostname : Text) (answers : Answers) :
    Settled cfg hostname answers ↔
      OneOwner cfg hostname answers ∧ (recordsOf answers .a ++ recordsOf answers .aaaa).Nodup := by
  constructor
  · rintro ⟨hh, hs⟩
    constructor
    · refine (lastWriter_perm_iff (lastOwner cfg answers) (txtNames cfg hostname)).mp (fun l₁ l₂ h₁ h₂ => ?_)
      have howner := (hh (inOrder cfg hostname l₁ h₁) (inOrder cfg hostname l₂ h₂)).2.1
      have e₁ := congrArg Prod.snd (resolveHostname_owner answers (inOrder cfg hostname l₁ h₁))
      have e₂ := congrArg Prod.snd (resolveHostname_owner answers (inOrder cfg hostname l₂ h₂))
      exact lastOwner_inj answers (e₁.symm.trans (howner.trans e₂))
    · let o : SettingsOrder cfg hostname := ⟨txtNames cfg hostname, [.ownership, .records .a, .records .aaaa], .refl _, .refl _⟩
      exact (records_perm answers o).nodup_iff.mp (hs o o).2.2.2
  · rintro ⟨howner, hnodup⟩
    constructor
    · intro o o'
      have e := (resolveHostname_owner answers o).trans
        ((owner_eq answers howner o.txt_perm o'.txt_perm).trans (resolveHostname_owner answers o').symm)
      refine ⟨congrArg Prod.fst e, congrArg Prod.snd e, fun a => ?_⟩
      rw [resolveHostname_addresses, resolveHostname_addresses]
      exact (List.Perm.flatMap_right _ (o.ip_perm.trans o'.ip_perm.symm)).mem_iff
    · intro o o'
      have e := (resolveDNSSettings_owner answers o).trans
        ((owner_eq answers howner o.txt_perm o'.txt_perm).trans (resolveDNSSettings_owner answers o').symm)
      refine ⟨congrArg Prod.fst e, congrArg Prod.snd e, fun a => ?_, (records_perm answers o).nodup_iff.mpr hnodup⟩
      exact ((records_perm answers o).trans (records_perm answers o').symm).mem_iff

/-- An alias, whose A and AAAA records are asked for. -/
def aliased : Answers where
  txt _ := .ok []
  ip _ := .ok []
  records _ := .ok [⟨.cname, "target.example".toList, 300⟩]

/-- Its CNAME is listed twice. -/
theorem not_settled_aliased : ¬ ∀ (cfg : Settings) (hostname : Text) (answers : Answers), Settled cfg hostname answers := by
  intro h
  have hs := (h ⟨true, true, "heritage=external-dns".toList⟩ ['h'] aliased).ofSettings
  let o : SettingsOrder ⟨true, true, "heritage=external-dns".toList⟩ ['h'] :=
    ⟨_, [.ownership, .records .a, .records .aaaa], .refl _, .refl _⟩
  have hnodup := (hs o o).2.2.2
  revert hnodup
  decide

end OpenshiftConsole.ExternalDns.Lookup
