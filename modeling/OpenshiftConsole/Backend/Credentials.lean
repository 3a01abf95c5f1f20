import Mathlib.Logic.Function.Basic
import OpenshiftConsole.Library.Interaction
import OpenshiftConsole.Library.Lines

/-!
# Whose credentials a request has

What the backends of the plugins share. A request that comes in over an authorized route has the caller's token, and
headers to impersonate others; these go on to the API server as they came (`applyForwardedCredentials`). What the
backend asks for itself has its own token, and nothing of the caller's (`ownCredentials`).

Two of the backends ask the API server whether the caller may do what they are about to do (`askReview`), and find a
pod on a node as themselves (`lookupPod`). The API server, and the JSON of what it answers, are outside; an answer may
be anything.
-/

namespace OpenshiftConsole.Backend

open OpenshiftConsole.Library
open OpenshiftConsole.Library.Lines (Text)

/-! ### Requests -/

/-- `http.Header`: the values of each key in canonical form, none for one that is absent. -/
abbrev Header := Text → List Text

/-- `Get`: the first value. -/
def Header.get (header : Header) (key : Text) : Text := (header key).headD []

/-- `Set` -/
def Header.set (header : Header) (key value : Text) : Header := Function.update header key [value]

def noHeader : Header := fun _ => []

inductive Method where
  | get | post | patch
  deriving DecidableEq

/-- Where a request goes: the API server, or a pod's address and port. -/
inductive Host where
  | apiServer
  | pod (ip port : Text)
  deriving DecidableEq

abbrev Bytes := List UInt8

/-- `accessReviewResource` -/
structure ReviewResource where
  podNamespace : Text
  group : Text
  resource : Text
  subresource : Text
  verb : Text
  name : Text
  deriving DecidableEq

/-- What a request says, `M` for other things than a review. -/
inductive Body (M : Type) where
  | empty
  /-- A `SelfSubjectAccessReview`. -/
  | review (resource : ReviewResource)
  | message (m : M)

/-- What stands behind the path: pairs that `url.Values.Encode` writes, or what came in. -/
inductive Query where
  | values (pairs : List (Text × Text))
  | raw (query : Bytes)

structure HttpRequest (M : Type) where
  method : Method
  host : Host
  path : Text
  query : Query
  header : Header
  body : Body M

/-- What comes back: an error of the transport, or a response with its status line. -/
inductive Reply where
  | failed (err : Text)
  | response (status : ℕ) (line : Text) (body : Bytes)

/-! ### Credentials -/

def authorization : Text := "Authorization".toList

/-- `strings.HasPrefix(key, "Impersonate-")` -/
def isImpersonate (key : Text) : Bool := "Impersonate-".toList.isPrefixOf key

/-- `applyForwardedCredentials`: `none` is `errNoCredentials`. -/
def applyForwardedCredentials (out header : Header) : Option Header :=
  if header.get authorization = [] then none
  else some fun key =>
    if isImpersonate key ∧ header key ≠ [] then header key else out.set authorization (header.get authorization) key

/-- The header of a request with this plugin's own token. -/
def ownCredentials (token : Text) : Header := noHeader.set authorization ("Bearer ".toList ++ token)

def accept : Text := "Accept".toList
def contentType : Text := "Content-Type".toList
def applicationJson : Text := "application/json".toList

/-- What says in which form something is said, not who says it. -/
def formal : List Text := [accept, contentType]

/-- The header has the caller's token and whom to impersonate, and nothing else that says who asks. -/
structure OfCaller (header out : Header) : Prop where
  authorized : header.get authorization ≠ []
  token : out authorization = [header.get authorization]
  impersonates : ∀ key, isImpersonate key = true → out key = header key
  others : ∀ key, key ≠ authorization → isImpersonate key = false → key ∉ formal → out key = []

/-- The header has a token of the plugin's, and nothing else that says who asks: no one is impersonated. -/
structure OfPlugin (token : Text) (out : Header) : Prop where
  token : out authorization = ["Bearer ".toList ++ token]
  others : ∀ key, key ≠ authorization → key ∉ formal → out key = []

variable {header out out' : Header} {key token : Text}

theorem set_of_ne {other value : Text} (h : key ≠ other) : out.set other value key = out key :=
  Function.update_of_ne h _ _

theorem ne_of_isImpersonate (hkey : isImpersonate key = true) : key ≠ authorization ∧ key ∉ formal := by
  have hnot : ∀ other ∈ authorization :: formal, isImpersonate other = false := by decide
  constructor
  · rintro rfl
    rw [hnot _ List.mem_cons_self] at hkey
    cases hkey
  · intro hmem
    rw [hnot key (List.mem_cons_of_mem _ hmem)] at hkey
    cases hkey

/-- What is forwarded is the caller's. -/
theorem ofCaller_of_apply (hout : ∀ key, key ∉ formal → out key = [])
    (h : applyForwardedCredentials out header = some out') : OfCaller header out' := by
  rw [applyForwardedCredentials] at h
  split at h
  · cases h
  · rename_i hauth
    obtain rfl := Option.some.inj h
    refine ⟨hauth, ?_, fun key hkey => ?_, fun key hkey himp hform => ?_⟩
    · rw [if_neg (by simp [show isImpersonate authorization = false by decide])]
      exact Function.update_self _ _ _
    · obtain ⟨hne, hform⟩ := ne_of_isImpersonate hkey
      split
      · rfl
      · rename_i hnone
        have hempty : header key = [] := by simpa [hkey] using hnone
        rw [set_of_ne hne, hout key hform, hempty]
    · rw [if_neg (by simp [himp]), set_of_ne hkey, hout key hform]

theorem ofPlugin_ownCredentials (token : Text) : OfPlugin token (ownCredentials token) where
  token := Function.update_self authorization _ noHeader
  others _ hkey _ := set_of_ne hkey

/-- In which form something is said may be added. -/
theorem OfCaller.set (h : OfCaller header out) (hkey : key ∈ formal) (value : Text) :
    OfCaller header (out.set key value) := by
  have hauth : authorization ≠ key := by
    rintro rfl
    exact absurd hkey (by decide)
  refine ⟨h.authorized, (set_of_ne hauth).trans h.token, fun k hk => ?_, fun k hk himp hform => ?_⟩
  · have hne : k ≠ key := by
      rintro rfl
      exact (ne_of_isImpersonate hk).2 hkey
    exact (set_of_ne hne).trans (h.impersonates k hk)
  · have hne : k ≠ key := by
      rintro rfl
      exact hform hkey
    exact (set_of_ne hne).trans (h.others k hk himp hform)

theorem OfPlugin.set (h : OfPlugin token out) (hkey : key ∈ formal) (value : Text) :
    OfPlugin token (out.set key value) := by
  have hauth : authorization ≠ key := by
    rintro rfl
    exact absurd hkey (by decide)
  refine ⟨(set_of_ne hauth).trans h.token, fun k hk hform => ?_⟩
  have hne : k ≠ key := by
    rintro rfl
    exact hform hkey
  exact (set_of_ne hne).trans (h.others k hk hform)

/-! ### Asking whether the caller may -/

/-- The part of a review's status that decides. -/
structure ReviewStatus where
  allowed : Bool
  reason : Text

/-- Why there is no permission. -/
inductive ReviewError where
  /-- `k8sAPI` has failed. -/
  | notInCluster (err : Text)
  /-- "no credentials on the request: console forwards them only on authorized plugin proxy routes" -/
  | noCredentials
  /-- "checking ... access: %w" -/
  | unreachable (err : Text)
  /-- "checking ... access: %s", with the API server's own status -/
  | rejected (status : ℕ) (line : Text)
  /-- "checking ... access: %s: %s" -/
  | failed (line : Text) (body : Bytes)
  /-- "decoding access review: %w" -/
  | undecodable (err : Text)
  /-- A denial, with its reason. -/
  | denied (reason : Text)

/-- `accessReviewPath` -/
def accessReviewPath : Text := "/apis/authorization.k8s.io/v1/selfsubjectaccessreviews".toList

variable {M : Type}

def reviewRequest (out : Header) (resource : ReviewResource) : HttpRequest M :=
  ⟨.post, .apiServer, accessReviewPath, .values [], out, .review resource⟩

/-- The verdict that a reply comes to. -/
def verdict (decode : Bytes → Except Text ReviewStatus) : Reply → Except ReviewError Unit
  | .failed err => .error (.unreachable err)
  | .response status line body =>
    if status = 401 ∨ status = 403 then .error (.rejected status line)
    else if status / 100 ≠ 2 then .error (.failed line (body.take 4096))
    else
      match decode body with
      | .error err => .error (.undecodable err)
      | .ok result => if result.allowed then .ok () else .error (.denied result.reason)

/-- `authorizeContainerAccess` and `authorizeNodeLogs`, behind the check of `useServiceAccountToken`. -/
def askReview (k8sAPI : Except Text Unit) (decode : Bytes → Except Text ReviewStatus) (header : Header)
    (resource : ReviewResource) : Interaction (HttpRequest M) Reply ReviewError Unit :=
  match k8sAPI with
  | .error err => .fail (.notInCluster err)
  | .ok () =>
    match applyForwardedCredentials (noHeader.set contentType applicationJson) header with
    | none => .fail .noCredentials
    | some out => .send (reviewRequest out resource) >>= fun reply => .ofExcept (verdict decode reply)

/-- The API server has said yes, and nothing else went wrong. -/
def Allows (decode : Bytes → Except Text ReviewStatus) (reply : Reply) : Prop :=
  ∃ status line body result, reply = .response status line body ∧ status / 100 = 2 ∧ decode body = .ok result ∧
    result.allowed = true

theorem verdict_eq_ok {decode : Bytes → Except Text ReviewStatus} {reply : Reply} :
    verdict decode reply = .ok () ↔ Allows decode reply := by
  constructor
  · intro h
    cases reply with
    | failed err => cases h
    | response status line body =>
      rw [verdict] at h
      split at h
      · cases h
      · split at h
        · cases h
        · rename_i hstatus
          split at h
          · cases h
          · rename_i result hresult
            split at h
            · rename_i hallowed
              exact ⟨status, line, body, result, rfl, not_not.mp hstatus, hresult, hallowed⟩
            · cases h
  · rintro ⟨status, line, body, result, rfl, hstatus, hresult, hallowed⟩
    have hnot : ¬(status = 401 ∨ status = 403) := by omega
    simp [verdict, hnot, hstatus, hresult, hallowed]

theorem set_contentType_of_notMem (hkey : key ∉ formal) : noHeader.set contentType applicationJson key = [] := by
  refine set_of_ne ?_
  rintro rfl
  exact hkey (by decide)

/-- The only question is the review, with the caller's credentials, and permission is the answer to it. -/
theorem meets_askReview {k8sAPI : Except Text Unit} {decode : Bytes → Except Text ReviewStatus}
    {resource : ReviewResource} {G : Interaction.History (HttpRequest M) Reply → HttpRequest M → Prop}
    {P : Interaction.History (HttpRequest M) Reply → Except ReviewError Unit → Prop}
    {h : Interaction.History (HttpRequest M) Reply} (herror : ∀ h' e, P h' (.error e))
    (hask : ∀ out, OfCaller header out → G h (reviewRequest out resource) ∧
      ∀ reply, Allows decode reply → P (h ++ [(reviewRequest out resource, reply)]) (.ok ())) :
    (askReview k8sAPI decode header resource).Meets G P h := by
  unfold askReview
  split
  · exact herror _ _
  · split
    · exact herror _ _
    · rename_i out hout
      obtain ⟨hG, hP⟩ := hask out (ofCaller_of_apply (fun _ => set_contentType_of_notMem) hout)
      refine Interaction.meets_bind.mpr (Interaction.meets_send.mpr ⟨hG, fun reply => ?_⟩)
      dsimp only
      rw [Interaction.meets_ofExcept]
      cases hv : verdict decode reply with
      | error e => exact herror _ _
      | ok u => exact hP reply (verdict_eq_ok.mp hv)

/-! ### Finding a pod on a node -/

/-- Why no pod is found. -/
inductive LookupError where
  /-- `k8sAPI` has failed. -/
  | notInCluster (err : Text)
  /-- "determining namespace: %w" -/
  | noNamespace (err : Text)
  /-- "reading ServiceAccount token: %w" -/
  | noToken (err : Text)
  /-- "invalid node name" -/
  | invalidNode
  /-- "listing ...: %w" -/
  | unreachable (err : Text)
  /-- "listing ...: %s: %s" -/
  | failed (line : Text) (body : Bytes)
  /-- "decoding ... pod list: %w" -/
  | undecodable (err : Text)
  /-- "no running ... found on node %s" -/
  | noPod (node : Text)

/-- The running pods on a node, as this plugin's own ServiceAccount sees them. -/
def listRequest (podNamespace token selector node : Text) : HttpRequest M where
  method := .get
  host := .apiServer
  path := "/api/v1/namespaces/".toList ++ podNamespace ++ "/pods".toList
  query := .values [("fieldSelector".toList, "spec.nodeName=".toList ++ node ++ ",status.phase=Running".toList),
    ("labelSelector".toList, selector)]
  header := ownCredentials token
  body := .empty

/-- The first pod that has an address, in a list of addresses. -/
def firstIP (decode : Bytes → Except Text (List Text)) (node : Text) : Reply → Except LookupError Text
  | .failed err => .error (.unreachable err)
  | .response status line body =>
    if status ≠ 200 then .error (.failed line (body.take 4096))
    else
      match decode body with
      | .error err => .error (.undecodable err)
      | .ok ips =>
        match ips.find? (· ≠ []) with
        | some ip => .ok ip
        | none => .error (.noPod node)

/-- What the lookup reads of its surroundings. -/
structure Own where
  podNamespace : Except Text Text
  token : Except Text Text
  selector : Text

/-- `lookupAgent`, behind its check of the name, and `lookupNodeLogsPod`. -/
def lookupPod (k8sAPI : Except Text Unit) (own : Own) (decode : Bytes → Except Text (List Text)) (node : Text) :
    Interaction (HttpRequest M) Reply LookupError Text :=
  match k8sAPI, own.podNamespace, own.token with
  | .error err, _, _ => .fail (.notInCluster err)
  | .ok (), .error err, _ => .fail (.noNamespace err)
  | .ok (), .ok _, .error err => .fail (.noToken err)
  | .ok (), .ok podNamespace, .ok token =>
    .send (listRequest podNamespace token own.selector node) >>= fun reply => .ofExcept (firstIP decode node reply)

/-- A reply lists a pod with an address. -/
def Lists (decode : Bytes → Except Text (List Text)) (reply : Reply) (ip : Text) : Prop :=
  ∃ line body ips, reply = .response 200 line body ∧ decode body = .ok ips ∧ ip ∈ ips ∧ ip ≠ []

theorem lists_of_firstIP {decode : Bytes → Except Text (List Text)} {node ip : Text} {reply : Reply}
    (h : firstIP decode node reply = .ok ip) : Lists decode reply ip := by
  cases reply with
  | failed err => cases h
  | response status line body =>
    rw [firstIP] at h
    split at h
    · cases h
    · rename_i hstatus
      split at h
      · cases h
      · rename_i ips hips
        split at h
        · rename_i ip' hfind
          obtain rfl := Except.ok.inj h
          have hne : ip' ≠ [] := by simpa using List.find?_some hfind
          exact ⟨line, body, ips, by rw [not_not.mp hstatus], hips, List.mem_of_find?_eq_some hfind, hne⟩
        · cases h

/-- The only question is the list, with this plugin's own token. -/
theorem meets_lookupPod {k8sAPI : Except Text Unit} {own : Own} {decode : Bytes → Except Text (List Text)} {node : Text}
    {G : Interaction.History (HttpRequest M) Reply → HttpRequest M → Prop}
    {P : Interaction.History (HttpRequest M) Reply → Except LookupError Text → Prop}
    {h : Interaction.History (HttpRequest M) Reply} (herror : ∀ h' e, P h' (.error e))
    (hask : ∀ podNamespace token, own.token = .ok token → G h (listRequest podNamespace token own.selector node) ∧
      ∀ reply ip, Lists decode reply ip →
        P (h ++ [(listRequest podNamespace token own.selector node, reply)]) (.ok ip)) :
    (lookupPod k8sAPI own decode node).Meets G P h := by
  unfold lookupPod
  split
  · exact herror _ _
  · exact herror _ _
  · exact herror _ _
  · rename_i podNamespace token _ htoken
    obtain ⟨hG, hP⟩ := hask podNamespace token htoken
    refine Interaction.meets_bind.mpr (Interaction.meets_send.mpr ⟨hG, fun reply => ?_⟩)
    dsimp only
    rw [Interaction.meets_ofExcept]
    cases hip : firstIP decode node reply with
    | error e => exact herror _ _
    | ok ip => exact hP reply ip (lists_of_firstIP hip)

end OpenshiftConsole.Backend
