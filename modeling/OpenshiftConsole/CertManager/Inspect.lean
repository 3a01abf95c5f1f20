import OpenshiftConsole.Backend.Client
import OpenshiftConsole.CertManager.CertCheck
import OpenshiftConsole.CertManager.Hostnames
import OpenshiftConsole.Library.Interaction

/-!
# Inspecting the certificates of an object

The backend of the certificates is asked for those of an object, by its kind, namespace and name. It reads the object
with the caller's credentials, finds its host names, and makes a handshake with each of them, over the families of
addresses that are enabled.

Whatever the API server and the hosts answer, it asks the API server once, and dials no host but one that the object
names, which the API server has shown to the caller (`inspect_confined`). What it answers is a result for each of these
hosts, in their order, made of what the host has presented; if it answers with an error it has dialled none
(`inspect_outcome`).
-/

namespace OpenshiftConsole.CertManager.Inspect

open OpenshiftConsole.Library
open OpenshiftConsole.Library.Lines (Text)
open Backend CertCheck

/-! ### Requests and handshakes -/

inductive Query where
  | request (q : HttpRequest Unit)
  /-- A handshake over one family of addresses. -/
  | dial (familyLabel hostname : Text) (port : ℕ)

/-- An answer to a request, or what comes of a handshake; the clock is looked at then. -/
structure Reply where
  http : Backend.Reply
  outcome : CertCheck.Outcome
  clock : Clock

abbrev Talk := Interaction Query Reply

abbrev History := Interaction.History Query Reply

/-- What the bodies decode to: an object, and the message of a status. -/
structure Decoders where
  object : Bytes → Except Text (Option Json)
  message : Bytes → Text

/-- The families of addresses that are enabled. -/
structure Families where
  ipv4Enabled : Bool
  ipv6Enabled : Bool

/-! ### The client -/

/-- Why the object could not be read. -/
inductive ClientError where
  | credentials (err : CredentialError)
  | unreachable (err : Text)
  /-- "kube-apiserver %s: %s", or "kube-apiserver returned %s for %s" without a message -/
  | status (line message : Text)
  | undecodable (err : Text)

/-- What `do` makes of a reply: only a 200 is a success. -/
def bodyOf (json : Decoders) : Backend.Reply → Except ClientError Bytes
  | .failed err => .error (.unreachable err)
  | .response status line body => if status ≠ 200 then .error (.status line (json.message body)) else .ok body

/-- The object of a body. -/
def readObject (json : Decoders) (reply : Backend.Reply) : Except ClientError (Option Json) :=
  match bodyOf json reply with
  | .error err => .error err
  | .ok bytes => (json.object bytes).mapError .undecodable

/-- `getResource` -/
def getResource (env : Env) (json : Decoders) (header : Header) (path : Text) : Talk ClientError (Option Json) :=
  match applyCredentials env header with
  | .error err => .fail (.credentials err)
  | .ok out =>
    .send (.request ⟨.get, .apiServer, path, .values [], out.set accept applicationJson, .empty⟩) >>= fun reply =>
      .ofExcept (readObject json reply.http)

/-! ### The handshakes -/

def defaultTLSPort : ℕ := 443

/-- One family in `checkHostname`. -/
def checkFamily {ε : Type} (enabled : Bool) (familyLabel hostname : Text) (port : ℕ) : Talk ε FamilyProbe :=
  if enabled then do
    let reply ← .send (.dial familyLabel hostname port)
    pure (attempt familyLabel reply.clock reply.outcome)
  else pure (unconnected [] [])

/-- `checkHostname`; the families are dialled at the same time. -/
def checkHostname {ε : Type} (families : Families) (hostname : Text) (port : ℕ) : Talk ε HostnameCertResult := do
  let v4 ← checkFamily families.ipv4Enabled "IPv4".toList hostname port
  let v6 ← checkFamily families.ipv6Enabled "IPv6".toList hostname port
  pure (combineFamilyResults hostname port v4 v6)

/-- `ResourceCertResult`; there is no result of a host name where there is an error of the resource. -/
structure ResourceCertResult where
  kind : Text
  objNamespace : Text
  name : Text
  resourceError : Text
  result : Option HostnameCertResult

def excludedError : Text := "excluded via the external-dns.alpha.kubernetes.io/exclude annotation".toList
def noHostnameError : Text := "no hostname could be determined for this resource".toList
def metadataNamespacePath : List Text := ["metadata".toList, "namespace".toList]
def metadataNamePath : List Text := ["metadata".toList, "name".toList]

/-- `objMeta` -/
def objMeta (obj : Option Json) : Text × Text :=
  (stringOr (getPath obj metadataNamespacePath), stringOr (getPath obj metadataNamePath))

/-- The hosts of `certInfoForObject`, one after the other; there they are probed at the same time. -/
def checkHosts {ε : Type} (families : Families) (kind objNamespace name : Text) :
    List Text → Talk ε (List ResourceCertResult)
  | [] => pure []
  | host :: hosts => do
    let result ← checkHostname families host defaultTLSPort
    let results ← checkHosts families kind objNamespace name hosts
    pure (⟨kind, objNamespace, name, [], some result⟩ :: results)

/-- `certInfoForObject` -/
def certInfoForObject {ε : Type} (families : Families) (kind : Text) (entry : KindEntry) (obj : Option Json) :
    Talk ε (List ResourceCertResult) :=
  let (objNamespace, name) := objMeta obj
  match annotationHostnames obj with
  | none => pure [⟨kind, objNamespace, name, excludedError, none⟩]
  | some annotHosts =>
    let hosts := uniqStrings (entry.hostnames obj ++ annotHosts)
    if hosts = [] then pure [⟨kind, objNamespace, name, noHostnameError, none⟩]
    else checkHosts families kind objNamespace name hosts

/-! ### The handler -/

/-- Why a request is not answered with results. -/
inductive HandlerError where
  /-- "method not allowed" -/
  | methodNotAllowed
  /-- "namespace and name are required" -/
  | unnamed
  /-- "invalid gvk: expected group~version~kind, got %q" -/
  | invalidGVK (gvk : Text)
  /-- "unsupported kind %q, must be one of: %s" -/
  | unsupportedKind (kind : Text)
  /-- "kind %q is namespaced, a real namespace is required" -/
  | namespaced (kind : Text)
  /-- "kind %q is cluster-scoped, use %q as the namespace segment" -/
  | clusterScoped (kind : Text)
  /-- `writeResourceFetchError` -/
  | fetch (err : ClientError)

/-- The status that an error is answered with. -/
def HandlerError.status : HandlerError → ℕ
  | .methodNotAllowed => 405
  | .fetch (.credentials .noCredentials) => 401
  | .fetch (.credentials (.noToken _)) => 500
  | .fetch _ => 502
  | _ => 400

/-- The segments of the request's path. -/
structure Segments where
  objNamespace : Text
  gvk : Text
  name : Text

/-- `clusterScopedSegment` -/
def clusterScopedSegment : Text := ['-']

/-- `parseGVKPath` -/
def parseGVKPath (s : Text) : Option (Text × Text × Text) :=
  match s.splitOn '~' with
  | [group, version, kind] => some (group, version, kind)
  | _ => none

/-- What a request is about: the kind, and where its object is. -/
structure Target where
  kind : Text
  entry : KindEntry
  path : Text

/-- The checks of `inspectResourceHandlerWithClient`. -/
def targetOf (seg : Segments) : Except HandlerError Target :=
  if seg.objNamespace = [] ∨ seg.name = [] then .error .unnamed
  else
    match parseGVKPath seg.gvk with
    | none => .error (.invalidGVK seg.gvk)
    | some (group, version, kind) =>
      match kindRegistry.lookup kind with
      | none => .error (.unsupportedKind kind)
      | some entry =>
        if entry.namespaced ∧ seg.objNamespace = clusterScopedSegment then .error (.namespaced kind)
        else if ¬entry.namespaced ∧ seg.objNamespace ≠ clusterScopedSegment then .error (.clusterScoped kind)
        else
          let effectiveNamespace := if entry.namespaced then seg.objNamespace else []
          .ok ⟨kind, entry, resourcePath group version entry.plural effectiveNamespace seg.name⟩

/-- `inspectResourceHandlerWithClient` -/
def inspectResourceHandler (env : Env) (families : Families) (json : Decoders) (header : Header) (isGet : Bool)
    (seg : Segments) : Talk HandlerError (List ResourceCertResult) :=
  if !isGet then .fail .methodNotAllowed
  else
    match targetOf seg with
    | .error err => .fail err
    | .ok target => do
      let obj ← (getResource env json header target.path).mapError .fetch
      certInfoForObject families target.kind target.entry obj

/-! ### Whatever is answered -/

variable {env : Env} {families : Families} {json : Decoders} {header : Header} {isGet : Bool} {seg : Segments}
  {target : Target} {obj : Option Json} {h h' : History} {hosts : List Text} {host : Text} {ε : Type}

/-- The API server has shown an object at a path, and there was no other request. -/
def Shown (json : Decoders) (path : Text) (obj : Option Json) (h : History) : Prop :=
  ∃ q reply rest bytes, h = (.request q, reply) :: rest ∧ (∀ p ∈ rest, ∃ l host port, p.1 = .dial l host port) ∧
    q.path = path ∧ bodyOf json reply.http = .ok bytes ∧ json.object bytes = .ok obj

/-- A request to the API server is the first and the only one, for the object, and with one's credentials only; a host
is dialled at the port of TLS, over a family that is enabled, after the API server has shown an object that names it. -/
def Proper (env : Env) (families : Families) (json : Decoders) (header : Header) (seg : Segments) (h : History) :
    Query → Prop
  | .request q => h = [] ∧ q.method = .get ∧ q.host = .apiServer ∧ Credentialed env header q.header ∧
      ∃ target, targetOf seg = .ok target ∧ q.path = target.path
  | .dial familyLabel host port => port = defaultTLSPort ∧
      (familyLabel = "IPv4".toList ∧ families.ipv4Enabled ∨ familyLabel = "IPv6".toList ∧ families.ipv6Enabled) ∧
      ∃ target obj, targetOf seg = .ok target ∧ Shown json target.path obj h ∧ host ∈ hostsOf target.entry obj

/-- What is known of a family: nothing if it is disabled, and else what it presented. -/
def Dialled (enabled : Bool) (familyLabel host : Text) (h : History) (probe : FamilyProbe) : Prop :=
  if enabled then ∃ reply, (.dial familyLabel host defaultTLSPort, reply) ∈ h ∧
    probe = attempt familyLabel reply.clock reply.outcome
  else probe = unconnected [] []

/-- A result is of its host, and of what the host has presented. -/
def Presented (families : Families) (h : History) (host : Text) (result : HostnameCertResult) : Prop :=
  ∃ v4 v6, Dialled families.ipv4Enabled "IPv4".toList host h v4 ∧
    Dialled families.ipv6Enabled "IPv6".toList host h v6 ∧
    result = combineFamilyResults host defaultTLSPort v4 v6

/-- The results of an object: one for each host, in their order, or an error of the object. -/
def Results (families : Families) (kind : Text) (entry : KindEntry) (obj : Option Json) (h : History)
    (results : List ResourceCertResult) : Prop :=
  if hostsOf entry obj = [] then
    results = [⟨kind, (objMeta obj).1, (objMeta obj).2,
      if (annotationHostnames obj).isNone then excludedError else noHostnameError, none⟩]
  else List.Forall₂ (fun host r => ∃ result, r = ⟨kind, (objMeta obj).1, (objMeta obj).2, [], some result⟩ ∧
    Presented families h host result) (hostsOf entry obj) results

/-- How the handler ends: with the results of the object that the API server has shown, or with an error, and no host
dialled. -/
def Outcome (families : Families) (json : Decoders) (seg : Segments) (h : History) :
    Except HandlerError (List ResourceCertResult) → Prop
  | .ok results => ∃ target obj, targetOf seg = .ok target ∧ Shown json target.path obj h ∧
      Results families target.kind target.entry obj h results
  | .error _ => ∀ p ∈ h, ∃ q, p.1 = .request q

theorem Shown.concat {path : Text} (hs : Shown json path obj h) (familyLabel host : Text) (port : ℕ) (reply : Reply) :
    Shown json path obj (h ++ [(.dial familyLabel host port, reply)]) := by
  obtain ⟨q, first, rest, bytes, rfl, hrest, hpath⟩ := hs
  refine ⟨q, first, rest ++ [(.dial familyLabel host port, reply)], bytes, rfl, fun p hp => ?_, hpath⟩
  rcases List.mem_append.mp hp with hp | hp
  · exact hrest p hp
  · obtain rfl := List.mem_singleton.mp hp
    exact ⟨familyLabel, host, port, rfl⟩

theorem Dialled.mono {enabled : Bool} {familyLabel : Text} {probe : FamilyProbe}
    (hd : Dialled enabled familyLabel host h probe) (hh : h <+: h') : Dialled enabled familyLabel host h' probe := by
  rw [Dialled] at hd ⊢
  split
  · rename_i henabled
    rw [if_pos henabled] at hd
    obtain ⟨reply, hreply, hprobe⟩ := hd
    exact ⟨reply, hh.subset hreply, hprobe⟩
  · rename_i hdisabled
    rwa [if_neg hdisabled] at hd

theorem Presented.mono {result : HostnameCertResult} (hp : Presented families h host result) (hh : h <+: h') :
    Presented families h' host result := by
  obtain ⟨v4, v6, h4, h6, hresult⟩ := hp
  exact ⟨v4, v6, h4.mono hh, h6.mono hh, hresult⟩

section Hosts

variable (htarget : targetOf seg = .ok target)
include htarget

/-- A family of a host that the object names. -/
theorem meets_checkFamily {enabled : Bool} {familyLabel : Text} (hshown : Shown json target.path obj h)
    (hhost : host ∈ hostsOf target.entry obj) (henabled : enabled = true →
      familyLabel = "IPv4".toList ∧ families.ipv4Enabled ∨ familyLabel = "IPv6".toList ∧ families.ipv6Enabled) :
    (checkFamily enabled familyLabel host defaultTLSPort : Talk ε FamilyProbe).Meets
      (Proper env families json header seg)
      (fun h' r => Shown json target.path obj h' ∧ h <+: h' ∧ ∃ probe, r = .ok probe ∧
        Dialled enabled familyLabel host h' probe) h := by
  rw [checkFamily]
  split
  · rename_i hon
    refine Interaction.meets_bind.mpr (Interaction.meets_send.mpr ⟨⟨rfl, henabled hon, target, obj, htarget, hshown,
      hhost⟩, fun reply => ⟨hshown.concat _ _ _ _, List.prefix_append _ _, _, rfl, ?_⟩⟩)
    rw [Dialled, if_pos hon]
    exact ⟨reply, List.mem_append_right _ List.mem_cons_self, rfl⟩
  · rename_i hoff
    refine ⟨hshown, List.prefix_rfl, _, rfl, ?_⟩
    rw [Dialled, if_neg hoff]

theorem meets_checkHostname (hshown : Shown json target.path obj h) (hhost : host ∈ hostsOf target.entry obj) :
    (checkHostname families host defaultTLSPort : Talk ε HostnameCertResult).Meets
      (Proper env families json header seg)
      (fun h' r => Shown json target.path obj h' ∧ h <+: h' ∧ ∃ result, r = .ok result ∧
        Presented families h' host result) h := by
  refine Interaction.meets_bind.mpr ((meets_checkFamily htarget hshown hhost fun hon => .inl ⟨rfl, hon⟩).mono
    (fun _ _ hq => hq) ?_)
  rintro h4 r ⟨hshown4, hh4, v4, rfl, hd4⟩
  refine Interaction.meets_bind.mpr ((meets_checkFamily htarget hshown4 hhost fun hon => .inr ⟨rfl, hon⟩).mono
    (fun _ _ hq => hq) ?_)
  rintro h6 r ⟨hshown6, hh6, v6, rfl, hd6⟩
  exact ⟨hshown6, hh4.trans hh6, _, rfl, v4, v6, hd4.mono hh6, hd6, rfl⟩

/-- Each host has its result. -/
theorem meets_checkHosts {kind objNamespace name : Text} (hshown : Shown json target.path obj h)
    (hhosts : ∀ host ∈ hosts, host ∈ hostsOf target.entry obj) :
    (checkHosts families kind objNamespace name hosts : Talk ε (List ResourceCertResult)).Meets
      (Proper env families json header seg)
      (fun h' r => Shown json target.path obj h' ∧ h <+: h' ∧ ∃ results, r = .ok results ∧
        List.Forall₂ (fun host r => ∃ result, r = ⟨kind, objNamespace, name, [], some result⟩ ∧
          Presented families h' host result) hosts results) h := by
  induction hosts generalizing h with
  | nil => exact ⟨hshown, List.prefix_rfl, [], rfl, .nil⟩
  | cons host hosts ih =>
    obtain ⟨hhost, hhosts⟩ := List.forall_mem_cons.mp hhosts
    refine Interaction.meets_bind.mpr ((meets_checkHostname htarget hshown hhost).mono (fun _ _ hq => hq) ?_)
    rintro h' r ⟨hshown', hh', result, rfl, hresult⟩
    refine Interaction.meets_bind.mpr ((ih hshown' hhosts).mono (fun _ _ hq => hq) ?_)
    rintro h'' r ⟨hshown'', hh'', results, rfl, hresults⟩
    exact ⟨hshown'', hh'.trans hh'', _, rfl, .cons ⟨result, rfl, hresult.mono hh''⟩ hresults⟩

theorem meets_certInfoForObject (hshown : Shown json target.path obj h) :
    (certInfoForObject families target.kind target.entry obj : Talk HandlerError (List ResourceCertResult)).Meets
      (Proper env families json header seg) (Outcome families json seg) h := by
  have hempty : ∀ {err}, hostsOf target.entry obj = [] →
      (if (annotationHostnames obj).isNone then excludedError else noHostnameError) = err →
      Outcome families json seg h (.ok [⟨target.kind, (objMeta obj).1, (objMeta obj).2, err, none⟩]) := by
    rintro err hnone rfl
    refine ⟨target, obj, htarget, hshown, ?_⟩
    rw [Results, if_pos hnone]
  rw [certInfoForObject]
  dsimp only
  split
  · rename_i hexcluded
    refine hempty ?_ ?_
    · rw [hostsOf, hexcluded]
    · rw [hexcluded]
      rfl
  · rename_i annotHosts hannot
    have hhosts : hostsOf target.entry obj = uniqStrings (target.entry.hostnames obj ++ annotHosts) := by
      rw [hostsOf, hannot]
    rw [← hhosts]
    split
    · rename_i hnone
      refine hempty hnone ?_
      rw [hannot]
      rfl
    · rename_i hsome
      refine (meets_checkHosts htarget hshown fun host hhost => hhost).mono (fun _ _ hq => hq) ?_
      rintro h' r ⟨hshown', -, results, rfl, hresults⟩
      refine ⟨target, obj, htarget, hshown', ?_⟩
      rw [Results, if_neg hsome]
      exact hresults

end Hosts

theorem readObject_ok {reply : Backend.Reply} (hread : readObject json reply = .ok obj) :
    ∃ bytes, bodyOf json reply = .ok bytes ∧ json.object bytes = .ok obj := by
  rw [readObject] at hread
  cases hbody : bodyOf json reply with
  | error err =>
    rw [hbody] at hread
    cases hread
  | ok bytes =>
    rw [hbody] at hread
    have hread : (json.object bytes).mapError ClientError.undecodable = .ok obj := hread
    cases hobj : json.object bytes with
    | error err =>
      rw [hobj] at hread
      cases hread
    | ok obj' =>
      rw [hobj] at hread
      exact ⟨bytes, rfl, hobj.trans (congrArg _ (Except.ok.inj hread))⟩

theorem meets_inspectResourceHandler : (inspectResourceHandler env families json header isGet seg).Meets
    (Proper env families json header seg) (Outcome families json seg) [] := by
  have hsilent : ∀ err, Outcome families json seg [] (.error err) := fun err p hp => absurd hp List.not_mem_nil
  rw [inspectResourceHandler]
  split
  · exact hsilent _
  · split
    · exact hsilent _
    · rename_i target htarget
      refine Interaction.meets_bind.mpr (Interaction.meets_mapError.mpr ?_)
      rw [getResource]
      split
      · rename_i err _
        exact hsilent (.fetch (.credentials err))
      · rename_i out hout
        have hcred : Credentialed env header (out.set accept applicationJson) :=
          (credentialed_of_apply hout).set (by decide) applicationJson
        refine Interaction.meets_bind.mpr (Interaction.meets_send.mpr ⟨⟨rfl, rfl, rfl, hcred, target, htarget, rfl⟩,
          fun reply => (Interaction.meets_ofExcept _).mpr ?_⟩)
        cases hread : readObject json reply.http with
        | error err => exact fun p hp => ⟨_, congrArg Prod.fst (List.mem_singleton.mp hp)⟩
        | ok obj =>
          obtain ⟨bytes, hbody, hobj⟩ := readObject_ok hread
          refine meets_certInfoForObject htarget ?_
          exact ⟨_, reply, [], bytes, rfl, fun p hp => absurd hp List.not_mem_nil, rfl, hbody, hobj⟩

/-- Only the hosts are dialled that the API server has shown to the caller, and it is asked with the caller's
credentials only, or with the plugin's only. -/
theorem inspect_confined {q : Query} (hq : (inspectResourceHandler env families json header isGet seg).Asks h q) :
    Proper env families json header seg h q :=
  meets_inspectResourceHandler.asks hq

/-- A route to the host `a`. -/
def oneRoute : Json := .object [("spec".toList, .object [("hostnames".toList, .array [.string ['a']])])]

def oneDecoders : Decoders := ⟨fun _ => .ok (some oneRoute), fun _ => []⟩

def oneSegments : Segments := ⟨['n'], "g~v1~HTTPRoute".toList, ['r']⟩

def oneReply : Reply := ⟨.response 200 "200 OK".toList [], .failed "refused".toList, fun _ => (0, false)⟩

theorem inspect_confined_route : ∃ h,
    Proper ⟨false, .ok []⟩ ⟨true, true⟩ oneDecoders caller oneSegments h (.dial "IPv4".toList ['a'] 443) := by
  have hasks : (inspectResourceHandler ⟨false, .ok []⟩ ⟨true, true⟩ oneDecoders caller true oneSegments).Asks
      [(_, oneReply)] (.dial "IPv4".toList ['a'] 443) := .later .here
  exact ⟨_, inspect_confined hasks⟩

/-- Each host that the object names has its result, of what it has presented; an error has dialled none. -/
theorem inspect_outcome {r : Except HandlerError (List ResourceCertResult)}
    (hr : (inspectResourceHandler env families json header isGet seg).Ends h r) : Outcome families json seg h r :=
  meets_inspectResourceHandler.ends hr

theorem inspect_outcome_route : ∃ h result, Outcome ⟨true, true⟩ oneDecoders oneSegments h (.ok [result]) := by
  have hends : (inspectResourceHandler ⟨false, .ok []⟩ ⟨true, true⟩ oneDecoders caller true oneSegments).Ends
      [(_, oneReply), (_, oneReply), (_, oneReply)] (.ok [_]) := .ask (.ask (.ask .done))
  exact ⟨_, _, inspect_outcome hends⟩

end OpenshiftConsole.CertManager.Inspect
