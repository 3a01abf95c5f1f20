import OpenshiftConsole.Library.JsDate
import OpenshiftConsole.Library.Lines

/-!
# Certificates by address family

A host is asked for its certificates over IPv4 and over IPv6, and the two answers become one: the fields of a
family that connected, and whether the families differ. Two families that connected are compared by some
fields of their first certificates (`familyDetailsEqual`); the fields of the result are those of IPv4 then.

What is reported of a family depends on its certificates only (`details_of_chain`), but for what a clock was asked. So
the result is true of both families exactly if they do not differ in what is not compared (`combineFamilyResults_iff`).
-/

namespace OpenshiftConsole.CertManager.CertCheck

open OpenshiftConsole.Library.JsDate (fieldsOf)
open OpenshiftConsole.Library.Lines (Text)

/-! ### Certificates -/

/-- `cert.PublicKey`, of the types that are told apart. -/
inductive PublicKey where
  | rsa (bitLen : ℕ)
  /-- A curve may have no parameters. -/
  | ecdsa (curve : Option Text)
  | ed25519
  | other (publicKeyAlgorithm : Text)

/-- `x509.Certificate`: the texts of its names and its number, and its times as seconds since the epoch. -/
structure Certificate where
  subject : Text
  issuer : Text
  serialNumber : Text
  notBefore : ℤ
  notAfter : ℤ
  isCA : Bool
  publicKey : PublicKey

/-- `CertInfo` -/
structure CertInfo where
  subject : Text
  issuer : Text
  serialNumber : Text
  notBefore : Text
  notAfter : Text
  isCA : Bool
  keyAlgorithm : Text
  keySize : ℕ
  keyCurve : Text

/-- `keyDetails` -/
def keyDetails (cert : Certificate) : Text × ℕ × Text :=
  match cert.publicKey with
  | .rsa bitLen => ("RSA".toList, bitLen, [])
  | .ecdsa curve => ("ECDSA".toList, 0, curve.getD [])
  | .ed25519 => ("Ed25519".toList, 0, [])
  | .other publicKeyAlgorithm => (publicKeyAlgorithm, 0, [])

/-- The decimal digits of a number, with zeros before it up to a width. -/
def padded (width : ℕ) (n : ℤ) : Text :=
  let digits := Nat.toDigits 10 n.natAbs
  (if n < 0 then ['-'] else []) ++ List.replicate (width - digits.length) '0' ++ digits

/-- `UTC().Format(time.RFC3339)` -/
def rfc3339 (seconds : ℤ) : Text :=
  let t := fieldsOf (seconds * 1000)
  padded 4 t.year ++ '-' :: padded 2 t.month ++ '-' :: padded 2 t.day ++ 'T' :: padded 2 t.hour ++ ':' :: padded 2 t.minute ++
    ':' :: padded 2 t.second ++ ['Z']

example : rfc3339 1774746000 = "2026-03-29T01:00:00Z".toList := by decide

/-- A certificate of a chain. -/
def certInfo (c : Certificate) : CertInfo where
  subject := c.subject
  issuer := c.issuer
  serialNumber := c.serialNumber
  notBefore := rfc3339 c.notBefore
  notAfter := rfc3339 c.notAfter
  isCA := c.isCA
  keyAlgorithm := (keyDetails c).1
  keySize := (keyDetails c).2.1
  keyCurve := (keyDetails c).2.2

/-! ### One family -/

/-- `FamilyCertResult` -/
structure FamilyCertResult where
  family : Text
  connected : Bool
  subject : Text
  issuer : Text
  rootCA : Text
  notBefore : Text
  notAfter : Text
  expiresInSeconds : ℤ
  expired : Bool
  keyAlgorithm : Text
  keySize : ℕ
  keyCurve : Text
  chainLength : ℕ
  error : Text

/-- `familyProbe` -/
structure FamilyProbe extends FamilyCertResult where
  chain : List CertInfo
  attempted : Bool

/-- How a family's connection ends: it fails, when it is made or in the handshake, or it has the peer's certificates. -/
inductive Outcome where
  | failed (error : Text)
  | presented (certs : List Certificate)

/-- What the clock says of a certificate's end: the seconds until it, and whether it is over. -/
abbrev Clock := Certificate → ℤ × Bool

/-- A probe before anything is known. -/
def unconnected (familyLabel error : Text) : FamilyProbe :=
  ⟨⟨familyLabel, false, [], [], [], [], [], 0, false, [], 0, [], 0, error⟩, [], false⟩

/-- `checkHostnameOnNetwork`, by how the connection ends. -/
def checkHostnameOnNetwork (familyLabel : Text) (clock : Clock) : Outcome → FamilyProbe
  | .failed error => unconnected familyLabel error
  | .presented [] => unconnected familyLabel "server did not present a certificate".toList
  | .presented (leaf :: certs) =>
    let root := (leaf :: certs).getLast (List.cons_ne_nil leaf certs)
    { family := familyLabel
      connected := true
      subject := leaf.subject
      issuer := leaf.issuer
      rootCA := root.subject
      notBefore := rfc3339 leaf.notBefore
      notAfter := rfc3339 leaf.notAfter
      expiresInSeconds := (clock leaf).1
      expired := (clock leaf).2
      keyAlgorithm := (keyDetails leaf).1
      keySize := (keyDetails leaf).2.1
      keyCurve := (keyDetails leaf).2.2
      chainLength := (leaf :: certs).length
      error := []
      chain := (leaf :: certs).map certInfo
      attempted := false }

/-! ### Both families -/

/-- `HostnameCertResult` -/
structure HostnameCertResult where
  hostname : Text
  port : ℕ
  subject : Text
  issuer : Text
  rootCA : Text
  notBefore : Text
  notAfter : Text
  expiresInSeconds : ℤ
  expired : Bool
  keyAlgorithm : Text
  keySize : ℕ
  keyCurve : Text
  chainLength : ℕ
  chain : List CertInfo
  ipv4Connected : Bool
  ipv6Connected : Bool
  familiesDiffer : Bool
  families : List FamilyCertResult
  error : Text

/-- `familyDetailsEqual` -/
def familyDetailsEqual (a b : FamilyCertResult) : Bool :=
  a.subject = b.subject ∧ a.issuer = b.issuer ∧ a.notAfter = b.notAfter ∧ a.keyAlgorithm = b.keyAlgorithm ∧
    a.keySize = b.keySize ∧ a.keyCurve = b.keyCurve

/-- `applyFamilyToResult` -/
def applyFamilyToResult (result : HostnameCertResult) (p : FamilyProbe) : HostnameCertResult :=
  { result with
    subject := p.subject
    issuer := p.issuer
    rootCA := p.rootCA
    notBefore := p.notBefore
    notAfter := p.notAfter
    expiresInSeconds := p.expiresInSeconds
    expired := p.expired
    keyAlgorithm := p.keyAlgorithm
    keySize := p.keySize
    keyCurve := p.keyCurve
    chainLength := p.chainLength
    chain := p.chain }

/-- `applySoleFamilyToResult` -/
def applySoleFamilyToResult (result : HostnameCertResult) (p : FamilyProbe) : HostnameCertResult :=
  if p.connected then applyFamilyToResult result p else { result with error := p.error }

/-- `errOrNone` -/
def errOrNone (s : Text) : Text := if s = [] then "no error recorded".toList else s

/-- `combineFamilyResults` -/
def combineFamilyResults (hostname : Text) (port : ℕ) (v4 v6 : FamilyProbe) : HostnameCertResult :=
  let result : HostnameCertResult :=
    ⟨hostname, port, [], [], [], [], [], 0, false, [], 0, [], 0, [], v4.attempted && v4.connected,
      v6.attempted && v6.connected, false, [], []⟩
  if v4.attempted && v6.attempted then
    let result :=
      if v4.connected && v6.connected then
        applyFamilyToResult { result with familiesDiffer := !familyDetailsEqual v4.toFamilyCertResult v6.toFamilyCertResult } v4
      else if v4.connected then applyFamilyToResult { result with familiesDiffer := true } v4
      else if v6.connected then applyFamilyToResult { result with familiesDiffer := true } v6
      else { result with error := "IPv4: ".toList ++ errOrNone v4.error ++ "; IPv6: ".toList ++ errOrNone v6.error }
    if result.familiesDiffer then { result with families := [v4.toFamilyCertResult, v6.toFamilyCertResult] } else result
  else if v4.attempted then applySoleFamilyToResult result v4
  else if v6.attempted then applySoleFamilyToResult result v6
  else
    { result with
      error :=
        "no address family is enabled (CERT_MANAGER_ENABLE_IPV4/CERT_MANAGER_ENABLE_IPV6 both false)".toList }

/-- The probe of a family that is enabled. -/
def attempt (familyLabel : Text) (clock : Clock) (outcome : Outcome) : FamilyProbe :=
  { checkHostnameOnNetwork familyLabel clock outcome with attempted := true }

/-- `checkHostname`; a family that is disabled is not probed. -/
def checkHostname (ipv4Enabled ipv6Enabled : Bool) (hostname : Text) (port : ℕ) (clock4 clock6 : Clock) (v4 v6 : Outcome) :
    HostnameCertResult :=
  combineFamilyResults hostname port
    (if ipv4Enabled then attempt "IPv4".toList clock4 v4 else unconnected [] [])
    (if ipv6Enabled then attempt "IPv6".toList clock6 v6 else unconnected [] [])

/-! ### What does not depend on the clock -/

/-- The fields of a result that its certificates decide. -/
structure Details where
  subject : Text
  issuer : Text
  rootCA : Text
  notBefore : Text
  notAfter : Text
  keyAlgorithm : Text
  keySize : ℕ
  keyCurve : Text
  chainLength : ℕ
  chain : List CertInfo

def HostnameCertResult.details (r : HostnameCertResult) : Details :=
  ⟨r.subject, r.issuer, r.rootCA, r.notBefore, r.notAfter, r.keyAlgorithm, r.keySize, r.keyCurve, r.chainLength, r.chain⟩

def FamilyProbe.details (p : FamilyProbe) : Details :=
  ⟨p.subject, p.issuer, p.rootCA, p.notBefore, p.notAfter, p.keyAlgorithm, p.keySize, p.keyCurve, p.chainLength, p.chain⟩

/-- The result is of one family: its fields are the family's, those of the clock as well. -/
def HostnameCertResult.Of (r : HostnameCertResult) (p : FamilyProbe) : Prop :=
  r.details = p.details ∧ r.expiresInSeconds = p.expiresInSeconds ∧ r.expired = p.expired

/-- What a chain says of a family. -/
def detailsOfChain (chain : List CertInfo) : Option Details :=
  match chain.head?, chain.getLast? with
  | some leaf, some root =>
    some ⟨leaf.subject, leaf.issuer, root.subject, leaf.notBefore, leaf.notAfter, leaf.keyAlgorithm, leaf.keySize,
      leaf.keyCurve, chain.length, chain⟩
  | _, _ => none

variable {familyLabel familyLabel' hostname : Text} {clock clock' : Clock} {outcome outcome' : Outcome} {port : ℕ}
  {p p' : FamilyProbe}

theorem detailsOfChain_attempt (h : (attempt familyLabel clock outcome).connected = true) :
    detailsOfChain (attempt familyLabel clock outcome).chain = some (attempt familyLabel clock outcome).details := by
  cases outcome with
  | failed error => exact absurd h Bool.false_ne_true
  | presented certs =>
    cases certs with
    | nil => exact absurd h Bool.false_ne_true
    | cons leaf certs =>
      have hroot : ((leaf :: certs).map certInfo).getLast? =
          some (certInfo ((leaf :: certs).getLast (List.cons_ne_nil leaf certs))) := by
        rw [List.getLast?_map, List.getLast?_eq_some_getLast (List.cons_ne_nil leaf certs), Option.map_some]
      have hlength : ((leaf :: certs).map certInfo).length = (leaf :: certs).length := List.length_map certInfo
      show detailsOfChain ((leaf :: certs).map certInfo) = _
      rw [detailsOfChain, hroot, hlength]
      rfl

/-- Families whose chains are described the same have the same fields. -/
theorem details_of_chain (h : (attempt familyLabel clock outcome).connected = true)
    (h' : (attempt familyLabel' clock' outcome').connected = true)
    (hchain : (attempt familyLabel clock outcome).chain = (attempt familyLabel' clock' outcome').chain) :
    (attempt familyLabel clock outcome).details = (attempt familyLabel' clock' outcome').details := by
  have hdetails := detailsOfChain_attempt h
  rw [hchain, detailsOfChain_attempt h'] at hdetails
  exact (Option.some.inj hdetails).symm

/-! ### The merge -/

/-- Two families that connected: the result has IPv4's fields, and says whether the compared ones differ. -/
theorem combine_both (ha : p.attempted = true) (ha' : p'.attempted = true) (h : p.connected = true) (h' : p'.connected = true) :
    (combineFamilyResults hostname port p p').Of p ∧
      (combineFamilyResults hostname port p p').familiesDiffer = !familyDetailsEqual p.toFamilyCertResult p'.toFamilyCertResult := by
  simp only [combineFamilyResults, ha, ha', h, h', Bool.and_self, if_true]
  split_ifs with hdiffer
  · exact ⟨⟨rfl, rfl, rfl⟩, rfl⟩
  · exact ⟨⟨rfl, rfl, rfl⟩, rfl⟩

theorem combine_first (ha : p.attempted = true) (ha' : p'.attempted = true) (h : p.connected = true) (h' : p'.connected = false) :
    (combineFamilyResults hostname port p p').Of p ∧ (combineFamilyResults hostname port p p').familiesDiffer = true := by
  simp only [combineFamilyResults, ha, ha', h, h', Bool.and_self, if_true, Bool.and_false, Bool.false_eq_true, if_false]
  exact ⟨⟨rfl, rfl, rfl⟩, rfl⟩

theorem combine_second (ha : p.attempted = true) (ha' : p'.attempted = true) (h : p.connected = false) (h' : p'.connected = true) :
    (combineFamilyResults hostname port p p').Of p' ∧ (combineFamilyResults hostname port p p').familiesDiffer = true := by
  simp only [combineFamilyResults, ha, ha', h, h', Bool.and_self, if_true, Bool.false_and, Bool.false_eq_true, if_false]
  exact ⟨⟨rfl, rfl, rfl⟩, rfl⟩

/-- **Families that are said to agree do** exactly if what is not compared is the same too: for two enabled families,
the result is true of both of them unless it says that they differ, and of the one that connected if one did, exactly
if their chains are described the same or the compared fields tell them apart. -/
theorem combineFamilyResults_iff (hostname : Text) (port : ℕ) (clock4 clock6 : Clock) (outcome4 outcome6 : Outcome) :
    let v4 := attempt "IPv4".toList clock4 outcome4
    let v6 := attempt "IPv6".toList clock6 outcome6
    let result := combineFamilyResults hostname port v4 v6
    ((v4.connected = true → v6.connected = true → result.familiesDiffer = false →
          result.details = v4.details ∧ result.details = v6.details) ∧
        (v4.connected = true → v6.connected = false → result.familiesDiffer = true ∧ result.Of v4) ∧
        (v4.connected = false → v6.connected = true → result.familiesDiffer = true ∧ result.Of v6)) ↔
      (v4.connected = true → v6.connected = true →
        familyDetailsEqual v4.toFamilyCertResult v6.toFamilyCertResult = true → v4.chain = v6.chain) := by
  intro v4 v6 result
  constructor
  · rintro ⟨hboth, -, -⟩ h4 h6 hequal
    obtain ⟨-, hdiffer⟩ := @combine_both hostname port v4 v6 rfl rfl h4 h6
    obtain ⟨hof4, hof6⟩ := hboth h4 h6 (by rw [hdiffer, hequal, Bool.not_true])
    exact congrArg Details.chain (hof4.symm.trans hof6)
  · intro hchain
    refine ⟨fun h4 h6 hsame => ?_, fun h4 h6 => (combine_first rfl rfl h4 h6).symm, fun h4 h6 => (combine_second rfl rfl h4 h6).symm⟩
    obtain ⟨hof, hdiffer⟩ := @combine_both hostname port v4 v6 rfl rfl h4 h6
    rw [hdiffer, Bool.not_eq_false'] at hsame
    exact ⟨hof.1, hof.1.trans (details_of_chain h4 h6 (hchain h4 h6 hsame))⟩

/-- A certificate of 1 January 2026, and another of the same names, key and end that begins a month later. -/
def january : Certificate :=
  ⟨"CN=console".toList, "CN=issuer".toList, "1".toList, 1767225600, 1798761600, false, .rsa 2048⟩

def february : Certificate := { january with serialNumber := "2".toList, notBefore := 1769904000 }

/-- The two are said to agree, and the result begins in January. -/
theorem combineFamilyResults_renewed :
    let v4 := attempt "IPv4".toList (fun _ => (0, false)) (.presented [january])
    let v6 := attempt "IPv6".toList (fun _ => (0, false)) (.presented [february])
    let result := combineFamilyResults "console".toList 443 v4 v6
    v4.connected = true ∧ v6.connected = true ∧ result.familiesDiffer = false ∧
      result.notBefore = "2026-01-01T00:00:00Z".toList ∧ v6.notBefore = "2026-02-01T00:00:00Z".toList := by
  decide

end OpenshiftConsole.CertManager.CertCheck
