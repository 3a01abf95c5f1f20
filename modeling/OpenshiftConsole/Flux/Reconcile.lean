import OpenshiftConsole.Backend.Client
import OpenshiftConsole.Backend.Objects

/-!
# Reconciling an object of Flux

A reconciliation is asked for by an annotation with the time. The flux plugin's backend sets it on an object, and on
the source of the object first, if the caller wants that: it reads the object to find the source (`resolveSource`), and
patches one after the other (`reconcileHandler`).

Whatever the API server answers, it gets requests with the caller's credentials only, or with the plugin's only, and
at the end no more than the two objects have been patched, the source before the object. A success means that each
was, with the same time; a failure leaves at most the source patched (`reconcile_outcome`).
-/

namespace OpenshiftConsole.Flux

open OpenshiftConsole.Library
open OpenshiftConsole.Library.Lines (Text)
open Backend

/-! ### Kinds -/

/-- `reconcileGVR` -/
structure GVR where
  group : Text
  version : Text
  plural : Text
  deriving DecidableEq

def sourceGroup : Text := "source.toolkit.fluxcd.io".toList
def imageGroup : Text := "image.toolkit.fluxcd.io".toList
def v1 : Text := "v1".toList

/-- `reconcilableKinds` -/
def reconcilableKinds : List (Text × GVR) :=
  [("Bucket".toList, ⟨sourceGroup, v1, "buckets".toList⟩),
    ("GitRepository".toList, ⟨sourceGroup, v1, "gitrepositories".toList⟩),
    ("HelmRepository".toList, ⟨sourceGroup, v1, "helmrepositories".toList⟩),
    ("OCIRepository".toList, ⟨sourceGroup, v1, "ocirepositories".toList⟩),
    ("HelmChart".toList, ⟨sourceGroup, v1, "helmcharts".toList⟩),
    ("HelmRelease".toList, ⟨"helm.toolkit.fluxcd.io".toList, "v2".toList, "helmreleases".toList⟩),
    ("Kustomization".toList, ⟨"kustomize.toolkit.fluxcd.io".toList, v1, "kustomizations".toList⟩),
    ("ImagePolicy".toList, ⟨imageGroup, v1, "imagepolicies".toList⟩),
    ("ImageRepository".toList, ⟨imageGroup, v1, "imagerepositories".toList⟩),
    ("ImageUpdateAutomation".toList, ⟨imageGroup, v1, "imageupdateautomations".toList⟩),
    ("Receiver".toList, ⟨"notification.toolkit.fluxcd.io".toList, v1, "receivers".toList⟩)]

/-- `reconcileTarget` -/
structure Target where
  group : Text
  version : Text
  kind : Text
  objNamespace : Text
  name : Text
  withSource : Bool
  force : Bool
  reset : Bool

/-! ### The source of an object -/

/-- What an object says of its source: a kind, a name and a namespace, each of which may be missing. -/
structure Ref where
  kind : Text
  name : Text
  objNamespace : Text
  deriving DecidableEq

def kindKey : Text := "kind".toList
def nameKey : Text := "name".toList
def namespaceKey : Text := "namespace".toList

/-- The fields of a reference that are strings. -/
def refOf (ref : Option Json) : Ref :=
  ⟨stringOr (field ref kindKey), stringOr (field ref nameKey), stringOr (field ref namespaceKey)⟩

def sourceRefPath : List Text := ["spec".toList, "sourceRef".toList]
def chartRefPath : List Text := ["spec".toList, "chartRef".toList]
def chartSourceRefPath : List Text := ["spec".toList, "chart".toList, "spec".toList, "sourceRef".toList]

/-- The switch of `resolveSource`; `none` for a kind without a source. -/
def sourceRef (target : Target) (obj : Option Json) : Option Ref :=
  if target.kind = "Kustomization".toList ∨ target.kind = "HelmChart".toList then
    some (match asMap (getPath obj sourceRefPath) with
      | some ref => refOf (some ref)
      | none => ⟨[], [], []⟩)
  else if target.kind = "HelmRelease".toList then
    some (match asMap (getPath obj chartRefPath) with
      | some ref => refOf (some ref)
      -- the chart that helm-controller makes of the template
      | none => ⟨"HelmChart".toList, target.objNamespace ++ '-' :: target.name,
          stringOr (getPath obj (chartSourceRefPath ++ [namespaceKey]))⟩)
  else none

/-- A reference without a namespace is one to the object's own. -/
def Ref.inNamespace (ref : Ref) (objNamespace : Text) : Option Ref :=
  if ref.kind = [] ∨ ref.name = [] then none
  else some { ref with objNamespace := if ref.objNamespace = [] then objNamespace else ref.objNamespace }

/-- The source, if there is one. -/
def sourceOf (target : Target) (obj : Option Json) : Option Ref :=
  (sourceRef target obj).bind fun ref => ref.inNamespace target.objNamespace

/-! ### The client -/

/-- The annotations of a merge patch. -/
abbrev Annotations := List (Text × Text)

abbrev Talk := Interaction (HttpRequest Annotations) Reply

abbrev History := Interaction.History (HttpRequest Annotations) Reply

/-- What the bodies decode to: an object, and the message of a status. -/
structure Decoders where
  object : Bytes → Except Text (Option Json)
  message : Bytes → Text

/-- Why a request to the API server has failed. -/
inductive ClientError where
  | credentials (err : CredentialError)
  | unreachable (err : Text)
  /-- "kube-apiserver %s: %s", or "kube-apiserver returned %s for %s %s" without a message -/
  | status (line message : Text)
  | undecodable (err : Text)
  /-- "unsupported source kind %q" -/
  | unsupportedSource (kind : Text)

/-- What `do` makes of a reply. -/
def bodyOf (json : Decoders) : Reply → Except ClientError Bytes
  | .failed err => .error (.unreachable err)
  | .response status line body =>
    if status < 200 ∨ 300 ≤ status then .error (.status line (json.message body)) else .ok body

/-- `do` -/
def clientDo (env : Env) (json : Decoders) (header : Header) (method : Method) (path type : Text)
    (body : Body Annotations) : Talk ClientError Bytes :=
  match applyCredentials env header with
  | .error err => .fail (.credentials err)
  | .ok out =>
    let out := out.set accept applicationJson
    let out := if type ≠ [] then out.set contentType type else out
    .send ⟨method, .apiServer, path, .values [], out, body⟩ >>= fun reply => .ofExcept (bodyOf json reply)

/-- `getResource` -/
def getResource (env : Env) (json : Decoders) (header : Header) (path : Text) : Talk ClientError (Option Json) := do
  let body ← clientDo env json header .get path [] .empty
  .ofExcept ((json.object body).mapError .undecodable)

/-- `patchAnnotations` -/
def patchAnnotations (env : Env) (json : Decoders) (header : Header) (path : Text) (annotations : Annotations) :
    Talk ClientError Unit := do
  let _ ← clientDo env json header .patch path "application/merge-patch+json".toList (.message annotations)
  pure ()

/-! ### The handler -/

/-- Why a request is not answered with a success. -/
inductive HandlerError where
  /-- "method not allowed" -/
  | methodNotAllowed
  /-- "invalid request body: expected a JSON object" -/
  | invalidBody
  /-- "namespace and name are required" -/
  | unnamed
  /-- "unsupported kind %q, must be one of: %s" -/
  | unsupportedKind (kind : Text)
  /-- "resolving source: " -/
  | resolvingSource (err : ClientError)
  /-- "reconciling source: " -/
  | reconcilingSource (err : ClientError)
  /-- "reconciling: " -/
  | reconciling (err : ClientError)

/-- `writeCredentialError` takes two errors of the client for itself; the others mean a bad gateway. -/
def ClientError.httpStatus : ClientError → ℕ
  | .credentials .noCredentials => 401
  | .credentials (.noToken _) => 500
  | _ => 502

/-- The status that an error is answered with. -/
def HandlerError.status : HandlerError → ℕ
  | .methodNotAllowed => 405
  | .invalidBody => 400
  | .unnamed => 400
  | .unsupportedKind _ => 400
  | .resolvingSource err => err.httpStatus
  | .reconcilingSource err => err.httpStatus
  | .reconciling err => err.httpStatus

/-- `reconcileResponse`; the source is there if it was patched, at the same time. -/
structure Response where
  requestedAt : Text
  source : Option Ref
  deriving DecidableEq

def requestedAtKey : Text := "reconcile.fluxcd.io/requestedAt".toList

/-- The annotations of the object itself. -/
def annotationsOf (target : Target) (ts : Text) : Annotations :=
  (requestedAtKey, ts) ::
    (if target.kind = "HelmRelease".toList ∧ target.force then [("reconcile.fluxcd.io/forceAt".toList, ts)] else []) ++
    (if target.kind = "HelmRelease".toList ∧ target.reset then [("reconcile.fluxcd.io/resetAt".toList, ts)] else [])

def GVR.path (gvr : GVR) (objNamespace name : Text) : Text :=
  resourcePath gvr.group gvr.version gvr.plural objNamespace name

/-- `resolveSource`: the object is read where the caller says that its kind is served. -/
def resolveSource (env : Env) (json : Decoders) (header : Header) (target : Target) (gvr : GVR) :
    Talk ClientError (Option (Ref × GVR)) := do
  let obj ← getResource env json header
    (resourcePath target.group target.version gvr.plural target.objNamespace target.name)
  match sourceOf target obj with
  | none => pure none
  | some ref =>
    match reconcilableKinds.lookup ref.kind with
    | none => .fail (.unsupportedSource ref.kind)
    | some sourceGVR => pure (some (ref, sourceGVR))

/-- The source is patched, if the caller wants it and there is one. -/
def reconcileSource (env : Env) (json : Decoders) (header : Header) (ts : Text) (target : Target) (gvr : GVR) :
    Talk HandlerError (Option Ref) :=
  if !target.withSource then .done none
  else do
    let source ← (resolveSource env json header target gvr).mapError .resolvingSource
    match source with
    | none => pure none
    | some (ref, sourceGVR) =>
      (patchAnnotations env json header (sourceGVR.path ref.objNamespace ref.name) [(requestedAtKey, ts)]).mapError
        .reconcilingSource
      pure (some ref)

/-- `reconcileHandlerWithClient`, for a request with a method and a body that may decode. -/
def reconcileHandler (env : Env) (json : Decoders) (header : Header) (ts : Text) (isPost : Bool)
    (body : Option Target) : Talk HandlerError Response :=
  if !isPost then .fail .methodNotAllowed
  else
    match body with
    | none => .fail .invalidBody
    | some target =>
      if target.objNamespace = [] ∨ target.name = [] then .fail .unnamed
      else
        match reconcilableKinds.lookup target.kind with
        | none => .fail (.unsupportedKind target.kind)
        | some gvr => do
          let source ← reconcileSource env json header ts target gvr
          let path := gvr.path target.objNamespace target.name
          (patchAnnotations env json header path (annotationsOf target ts)).mapError .reconciling
          pure ⟨ts, source⟩

/-! ### Whatever the API server answers -/

/-- A request is to the API server, and with one's credentials only. -/
structure Confined (env : Env) (header : Header) (q : HttpRequest Annotations) : Prop where
  host : q.host = .apiServer
  credentials : Credentialed env header q.header

/-- A patch that the API server has accepted: where, and which annotations. -/
def accepted (q : HttpRequest Annotations) (reply : Reply) : Option (Text × Annotations) :=
  match q.method, q.body, reply with
  | .patch, .message annotations, .response status _ _ =>
    if status < 200 ∨ 300 ≤ status then none else some (q.path, annotations)
  | _, _, _ => none

/-- The patches of a history, in order. -/
def patched (h : History) : List (Text × Annotations) := h.filterMap fun p => accepted p.1 p.2

variable {env : Env} {json : Decoders} {header out : Header} {ts : Text} {isPost : Bool} {body : Option Target}
  {target : Target} {gvr : GVR} {h : History} {q : HttpRequest Annotations}

theorem patched_concat (h : History) (q : HttpRequest Annotations) (reply : Reply) :
    patched (h ++ [(q, reply)]) = patched h ++ (accepted q reply).toList := by
  rw [patched, List.filterMap_append]
  cases hp : accepted q reply <;> simp [patched, hp]

/-- The only question of `do` is confined, and its reply decides. -/
theorem meets_clientDo {method : Method} {path type : Text} {body : Body Annotations}
    {P : History → Except ClientError Bytes → Prop} (herror : ∀ e, P h (.error e))
    (hreply : ∀ out reply, P (h ++ [(⟨method, .apiServer, path, .values [], out, body⟩, reply)]) (bodyOf json reply)) :
    (clientDo env json header method path type body).Meets (fun _ q => Confined env header q) P h := by
  unfold clientDo
  split
  · exact herror _
  · rename_i out hout
    have haccept : Credentialed env header (out.set accept applicationJson) :=
      (credentialed_of_apply hout).set (by decide) _
    have htype : Credentialed env header (if type ≠ [] then (out.set accept applicationJson).set contentType type
        else out.set accept applicationJson) := by
      split
      · exact haccept.set (by decide) type
      · exact haccept
    refine Interaction.meets_bind.mpr (Interaction.meets_send.mpr ⟨⟨rfl, htype⟩, fun reply => ?_⟩)
    dsimp only
    rw [Interaction.meets_ofExcept]
    exact hreply _ reply

/-- The API server has shown an object at a path. -/
def Shown (json : Decoders) (path : Text) (obj : Option Json) (h : History) : Prop :=
  ∃ q reply bytes, (q, reply) ∈ h ∧ q.method = .get ∧ q.path = path ∧ bodyOf json reply = .ok bytes ∧
    json.object bytes = .ok obj

theorem Shown.mono {path : Text} {obj : Option Json} {h' : History} (hshown : Shown json path obj h) (hh : h <+: h') :
    Shown json path obj h' := by
  obtain ⟨q, reply, bytes, hmem, hrest⟩ := hshown
  exact ⟨q, reply, bytes, hh.subset hmem, hrest⟩

/-- Reading an object patches nothing. -/
theorem meets_getResource {path : Text} :
    (getResource env json header path).Meets (fun _ q => Confined env header q)
      (fun h' r => patched h' = patched h ∧ ∀ obj, r = .ok obj → Shown json path obj h') h := by
  refine Interaction.meets_bind.mpr (meets_clientDo (fun e => ⟨rfl, fun obj he => by cases he⟩) fun out reply => ?_)
  have hnone : patched (h ++ [(⟨.get, .apiServer, path, .values [], out, .empty⟩, reply)]) = patched h :=
    (patched_concat _ _ _).trans (List.append_nil _)
  cases hbody : bodyOf json reply with
  | error e => exact ⟨hnone, fun obj he => by cases he⟩
  | ok bytes =>
    refine (Interaction.meets_ofExcept _).mpr ⟨hnone, fun obj hobj => ?_⟩
    refine ⟨_, reply, bytes, List.mem_append_right h List.mem_cons_self, rfl, rfl, hbody, ?_⟩
    cases hdecode : json.object bytes with
    | error e =>
      rw [hdecode] at hobj
      cases hobj
    | ok obj' =>
      rw [hdecode] at hobj
      exact congrArg _ (Except.ok.inj hobj)

theorem accepted_patch (host : Host) (path : Text) (query : Query) (out : Header) (annotations : Annotations)
    (status : ℕ) (line : Text) (bytes : Bytes) :
    accepted ⟨.patch, host, path, query, out, .message annotations⟩ (.response status line bytes) =
      if status < 200 ∨ 300 ≤ status then none else some (path, annotations) := rfl

/-- A patch has been accepted if, and only if, patching has succeeded. -/
theorem meets_patchAnnotations {path : Text} {annotations : Annotations} :
    (patchAnnotations env json header path annotations).Meets (fun _ q => Confined env header q)
      (fun h' r => h <+: h' ∧ patched h' = match r with
        | .ok _ => patched h ++ [(path, annotations)]
        | .error _ => patched h) h := by
  refine Interaction.meets_bind.mpr (meets_clientDo (fun e => ⟨List.prefix_rfl, rfl⟩) fun out reply => ?_)
  cases reply with
  | failed err => exact ⟨List.prefix_append _ _, (patched_concat _ _ _).trans (List.append_nil _)⟩
  | response status line bytes =>
    by_cases hstatus : status < 200 ∨ 300 ≤ status
    · rw [bodyOf, if_pos hstatus]
      refine ⟨List.prefix_append _ _, (patched_concat _ _ _).trans ?_⟩
      rw [accepted_patch, if_pos hstatus]
      exact List.append_nil _
    · rw [bodyOf, if_neg hstatus]
      refine ⟨List.prefix_append _ _, (patched_concat _ _ _).trans ?_⟩
      rw [accepted_patch, if_neg hstatus]
      rfl

/-- The source that the object has, as the API server shows it, and where the kind of the source is served. -/
def Resolved (json : Decoders) (target : Target) (h : History) (ref : Ref) (sourceGVR : GVR) : Prop :=
  ∃ gvr obj, reconcilableKinds.lookup target.kind = some gvr ∧
    Shown json (resourcePath target.group target.version gvr.plural target.objNamespace target.name) obj h ∧
    sourceOf target obj = some ref ∧ reconcilableKinds.lookup ref.kind = some sourceGVR

theorem meets_resolveSource (hkind : reconcilableKinds.lookup target.kind = some gvr) :
    (resolveSource env json header target gvr).Meets (fun _ q => Confined env header q)
      (fun h' r => patched h' = patched h ∧ ∀ ref sourceGVR, r = .ok (some (ref, sourceGVR)) →
        Resolved json target h' ref sourceGVR) h := by
  refine Interaction.meets_bind.mpr (meets_getResource.mono (fun _ _ hq => hq) fun h' r hr => ?_)
  cases r with
  | error e => exact ⟨hr.1, fun ref sourceGVR he => by cases he⟩
  | ok obj =>
    dsimp only
    split
    · exact ⟨hr.1, fun ref sourceGVR he => by cases he⟩
    · rename_i ref hsource
      split
      · exact ⟨hr.1, fun ref sourceGVR he => by cases he⟩
      · rename_i sourceGVR hserved
        refine ⟨hr.1, fun ref' sourceGVR' he => ?_⟩
        obtain ⟨rfl, rfl⟩ := Prod.mk.inj (Option.some.inj (Except.ok.inj he))
        exact ⟨gvr, obj, hkind, hr.2 obj rfl, hsource, hserved⟩

/-- The patches for a source: one, if there is one and the caller wants it. -/
def SourcePatched (json : Decoders) (ts : Text) (target : Target) (source : Option Ref) (h : History)
    (patches : List (Text × Annotations)) : Prop :=
  match source with
  | none => patches = []
  | some ref => target.withSource = true ∧ ∃ sourceGVR, Resolved json target h ref sourceGVR ∧
      patches = [(sourceGVR.path ref.objNamespace ref.name, [(requestedAtKey, ts)])]

theorem SourcePatched.mono {source : Option Ref} {h' : History} {patches : List (Text × Annotations)}
    (hsource : SourcePatched json ts target source h patches) (hh : h <+: h') :
    SourcePatched json ts target source h' patches := by
  cases source with
  | none => exact hsource
  | some ref =>
    obtain ⟨hwith, sourceGVR, ⟨gvr, obj, hkind, hshown, hof, hserved⟩, hpatches⟩ := hsource
    exact ⟨hwith, sourceGVR, ⟨gvr, obj, hkind, hshown.mono hh, hof, hserved⟩, hpatches⟩

theorem meets_reconcileSource (hkind : reconcilableKinds.lookup target.kind = some gvr) (hh : patched h = []) :
    (reconcileSource env json header ts target gvr).Meets (fun _ q => Confined env header q)
      (fun h' r => match r with
        | .ok source => SourcePatched json ts target source h' (patched h')
        | .error _ => patched h' = []) h := by
  rw [reconcileSource]
  split
  · exact hh
  · rename_i hwith
    refine Interaction.meets_bind.mpr (Interaction.meets_mapError.mpr ?_)
    refine (meets_resolveSource hkind).mono (fun _ _ hq => hq) fun h' r hr => ?_
    rw [hh] at hr
    cases r with
    | error e => exact hr.1
    | ok source =>
      cases source with
      | none => exact hr.1
      | some source =>
        obtain ⟨ref, sourceGVR⟩ := source
        refine Interaction.meets_bind.mpr (Interaction.meets_mapError.mpr ?_)
        refine meets_patchAnnotations.mono (fun _ _ hq => hq) fun h'' r hpatched => ?_
        rw [hr.1] at hpatched
        cases r with
        | error e => exact hpatched.2
        | ok u =>
          obtain ⟨gvr', obj, hkind', hshown, hof, hserved⟩ := hr.2 ref sourceGVR rfl
          refine ⟨by simpa using hwith, sourceGVR, ?_, hpatched.2⟩
          exact ⟨gvr', obj, hkind', hshown.mono hpatched.1, hof, hserved⟩

/-- How the handler ends: with both patched at the same time, or with an error, and at most the source patched. -/
def Outcome (json : Decoders) (ts : Text) (body : Option Target) (h : History) : Except HandlerError Response → Prop
  | .ok response => ∃ target gvr patches, body = some target ∧ reconcilableKinds.lookup target.kind = some gvr ∧
      SourcePatched json ts target response.source h patches ∧ response.requestedAt = ts ∧
      patched h = patches ++ [(gvr.path target.objNamespace target.name, annotationsOf target ts)]
  | .error e => patched h = [] ∨ ∃ target source err, body = some target ∧
      SourcePatched json ts target source h (patched h) ∧ e = .reconciling err

theorem meets_reconcileHandler :
    (reconcileHandler env json header ts isPost body).Meets (fun _ q => Confined env header q)
      (Outcome json ts body) [] := by
  unfold reconcileHandler
  split
  · exact .inl rfl
  · cases body with
    | none => exact .inl rfl
    | some target =>
      dsimp only
      split
      · exact .inl rfl
      · split
        · exact .inl rfl
        · rename_i gvr hkind
          refine Interaction.meets_bind.mpr ((meets_reconcileSource hkind rfl).mono (fun _ _ hq => hq) fun h r hr => ?_)
          cases r with
          | error e => exact .inl hr
          | ok source =>
            refine Interaction.meets_bind.mpr (Interaction.meets_mapError.mpr ?_)
            refine meets_patchAnnotations.mono (fun _ _ hq => hq) fun h' r' hpatched => ?_
            obtain ⟨hh, hpatched⟩ := hpatched
            cases r' with
            | error err =>
              rw [← show patched h' = patched h from hpatched] at hr
              exact .inr ⟨target, source, err, rfl, hr.mono hh, rfl⟩
            | ok u => exact ⟨target, gvr, patched h, rfl, hkind, hr.mono hh, rfl, hpatched⟩

/-- A release with a template for its chart, in its own namespace. -/
def oneTarget : Target :=
  ⟨"helm.toolkit.fluxcd.io".toList, "v2".toList, "HelmRelease".toList, ['n'], ['r'], true, true, false⟩

def oneDecoders : Decoders := ⟨fun _ => .ok (some (.object [])), fun _ => []⟩

def oneReply : Reply := .response 200 "200 OK".toList []

/-- The release `r`, with its source, the chart `n-r`. -/
def oneResponse : Response := ⟨['1'], some ⟨"HelmChart".toList, ['n', '-', 'r'], ['n']⟩⟩

/-- Whatever the API server answers, each request has the caller's credentials only, or the plugin's only. -/
theorem reconcile_confined (hq : (reconcileHandler env json header ts isPost body).Asks h q) : Confined env header q :=
  meets_reconcileHandler.asks hq

theorem reconcile_confined_release : ∃ q, q.method = .get ∧ Confined ⟨false, .ok ['k']⟩ caller q := by
  have hasks : (reconcileHandler ⟨false, .ok ['k']⟩ oneDecoders caller ['1'] true (some oneTarget)).Asks [] _ := .here
  exact ⟨_, rfl, reconcile_confined hasks⟩

end OpenshiftConsole.Flux
