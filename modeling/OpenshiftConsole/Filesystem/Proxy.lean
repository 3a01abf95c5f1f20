import OpenshiftConsole.Backend.Credentials
import OpenshiftConsole.Filesystem.Policy

/-!
# What the backend asks before it reaches a container

`connectAgent` in `Policy` takes the API server's answers as given. Here are the requests that they answer: a review
of the caller's permission to exec into the pod and the pod itself, both with the caller's credentials, and the agents
on the pod's node, with the plugin's own. With answers that are a function of the request it is the one in `Policy`
(`run_connectAgent`).

Whatever the API server answers, each request is the next one of this conversation (`serve_asks`): the agent is
reached with a permission for just this pod (`serve_permitted`), no request has the plugin's token and something of
the caller's, and the caller's credentials go to the API server only (`serve_confined`). Without credentials nothing
is asked, `USE_SERVICE_ACCOUNT_TOKEN` or not: the switch leaves out the review, but the pod is still read as the
caller.
-/

namespace OpenshiftConsole.Filesystem.Proxy

open OpenshiftConsole.Library
open OpenshiftConsole.Library.Lines (Text)
open Backend
open Api (Target Request Call Pod PodTarget Connection ConnectError Cluster newVisibility requestPaths dnsName
  containerName)

/-- What the API server has said, or what went wrong on the way to it. -/
inductive ApiError where
  | review (err : ReviewError)
  | lookup (err : LookupError)
  /-- `k8sAPI` has failed. -/
  | notInCluster (err : Text)
  /-- `errNoCredentials` -/
  | noCredentials
  /-- "reading pod %s/%s: %w" -/
  | unreachable (err : Text)
  /-- "reading pod %s/%s: %s: %s", with the API server's own status -/
  | status (status : ℕ) (line : Text) (body : Bytes)
  /-- "decoding pod %s/%s: %w" -/
  | undecodable (err : Text)

/-- The settings of the backend, and what it reads of its own pod; the selector is `AGENT_SELECTOR`. -/
structure Env where
  useServiceAccountToken : Bool
  k8sAPI : Except Text Unit
  own : Own
  agentPort : Text
  agentToken : Text

/-- What the bodies decode to. -/
structure Decoders where
  review : Bytes → Except Text ReviewStatus
  pod : Bytes → Except Text Pod
  podIPs : Bytes → Except Text (List Text)

abbrev Talk := Interaction (HttpRequest Request) Reply (ConnectError ApiError)

abbrev History := Interaction.History (HttpRequest Request) Reply

/-! ### The requests -/

def execResource (podNamespace pod : Text) : ReviewResource :=
  ⟨podNamespace, [], "pods".toList, "exec".toList, "create".toList, pod⟩

/-- The pod; its names need no escapes. -/
def podRequest (out : Header) (podNamespace pod : Text) : HttpRequest Request :=
  ⟨.get, .apiServer, "/api/v1/namespaces/".toList ++ podNamespace ++ "/pods/".toList ++ pod, .values [], out, .empty⟩

/-- `HeaderContainerID` -/
def containerIDKey : Text := "X-Filesystem-Container-Id".toList

/-- The procedure of a request. -/
def procedure : Request → Text
  | .listDirectory .. => "/filesystem.v1.FileBrowser/ListDirectory".toList
  | .stat .. => "/filesystem.v1.FileBrowser/Stat".toList
  | .readFile .. => "/filesystem.v1.FileBrowser/ReadFile".toList
  | .upload .. => "/filesystem.v1.FileBrowser/Upload".toList
  | .archive .. => "/filesystem.v1.FileBrowser/Archive".toList
  | .extract .. => "/filesystem.v1.FileBrowser/Extract".toList
  | .move .. => "/filesystem.v1.FileBrowser/Move".toList
  | .delete .. => "/filesystem.v1.FileBrowser/Delete".toList
  | .createDirectory .. => "/filesystem.v1.FileBrowser/CreateDirectory".toList

variable (env : Env) (json : Decoders) (header : Header)

/-- The headers that the agent gets. -/
def agentHeader (containerID : Text) : Header :=
  if env.agentToken = [] then noHeader.set containerIDKey containerID
  else (noHeader.set containerIDKey containerID).set authorization ("Bearer ".toList ++ env.agentToken)

/-- The caller's own message, to the agent. -/
def agentRequest (ip containerID : Text) (msg : Request) : HttpRequest Request :=
  ⟨.post, .pod ip env.agentPort, procedure msg, .values [], agentHeader env containerID, .message msg⟩

/-! ### The backend -/

/-- `authorizeContainerAccess` -/
def authorizeContainerAccess (podNamespace pod : Text) : Interaction (HttpRequest Request) Reply ReviewError Unit :=
  if env.useServiceAccountToken then .done ()
  else askReview env.k8sAPI json.review header (execResource podNamespace pod)

/-- What a reply shows of the pod. -/
def podOf : Reply → Except ApiError Pod
  | .failed err => .error (.unreachable err)
  | .response status line body =>
    if status / 100 ≠ 2 then .error (.status status line (body.take 4096))
    else
      match json.pod body with
      | .error err => .error (.undecodable err)
      | .ok pod => .ok pod

/-- The part of `resolvePod` that asks. -/
def readPod (podNamespace pod : Text) : Interaction (HttpRequest Request) Reply ApiError Pod :=
  match env.k8sAPI with
  | .error err => .fail (.notInCluster err)
  | .ok () =>
    match applyForwardedCredentials noHeader header with
    | none => .fail .noCredentials
    | some out => .send (podRequest out podNamespace pod) >>= fun reply => .ofExcept (podOf json reply)

/-- `resolvePod` -/
def resolvePod (podNamespace pod container : Text) : Talk PodTarget :=
  if !dnsName podNamespace then .fail .invalidNamespace
  else if !dnsName pod then .fail .invalidPod
  else if container ≠ [] ∧ !containerName container then .fail .invalidContainer
  else do
    let parsed ← (readPod env json header podNamespace pod).mapError .cluster
    .ofExcept (parsed.resolve podNamespace pod container)

/-- `lookupAgent` -/
def lookupAgent (node : Text) : Interaction (HttpRequest Request) Reply LookupError Text :=
  if !dnsName node then .fail .invalidNode else lookupPod env.k8sAPI env.own json.podIPs node

/-- `connectAgent` -/
def connectAgent (call : Call) : Talk Connection :=
  match call.target with
  | none => .fail .noTarget
  | some target =>
    if target.podNamespace = [] ∨ target.pod = [] then .fail .unnamedTarget
    else do
      (authorizeContainerAccess env json header target.podNamespace target.pod).mapError fun err => .cluster (.review err)
      let resolved ← resolvePod env json header target.podNamespace target.pod target.container
      let vis := newVisibility resolved
      match (requestPaths call.msg).find? fun p => p ≠ [] && !vis.allowed p with
      | some p => .fail (.notVisible p)
      | none =>
        let ip ← (lookupAgent env json resolved.node).mapError fun err => .cluster (.lookup err)
        pure ⟨ip, resolved.containerID, vis⟩

/-- `forwardUnary`, and `forwardStream` up to the agent's answer. -/
def serve (call : Call) : Talk (Connection × Reply) := do
  let conn ← connectAgent env json header call
  let reply ← .send (agentRequest env conn.agent conn.containerID call.msg)
  pure (conn, reply)

/-! ### What the API server answers -/

/-- The answers to each request, as `Policy` takes them. -/
def clusterOf (answer : HttpRequest Request → Reply) : Cluster ApiError where
  authorize podNamespace pod :=
    ((authorizeContainerAccess env json header podNamespace pod).run answer).mapError .review
  readPod podNamespace pod := (readPod env json header podNamespace pod).run answer
  lookupAgent node := ((lookupAgent env json node).run answer).mapError .lookup

variable {env json header}

theorem run_resolvePod (answer : HttpRequest Request → Reply) (podNamespace pod container : Text) :
    (resolvePod env json header podNamespace pod container).run answer =
      Api.resolvePod (clusterOf env json header answer) podNamespace pod container := by
  unfold resolvePod Api.resolvePod
  split
  · rfl
  · split
    · rfl
    · split
      · rfl
      · rw [Interaction.run_bind, Interaction.run_mapError]
        dsimp only [clusterOf]
        cases (readPod env json header podNamespace pod).run answer with
        | error e => rfl
        | ok parsed => exact Interaction.run_ofExcept _

/-- The backend with these requests is the one that is given their answers. -/
theorem run_connectAgent (answer : HttpRequest Request → Reply) (call : Call) :
    (connectAgent env json header call).run answer = Api.connectAgent (clusterOf env json header answer) call := by
  unfold connectAgent Api.connectAgent
  cases call.target with
  | none => rfl
  | some target =>
    dsimp only
    split
    · rfl
    · rw [Interaction.run_bind, Interaction.run_mapError]
      rw [show (clusterOf env json header answer).authorize target.podNamespace target.pod =
        ((authorizeContainerAccess env json header target.podNamespace target.pod).run answer).mapError .review from rfl]
      cases (authorizeContainerAccess env json header target.podNamespace target.pod).run answer with
      | error e => rfl
      | ok _ =>
        refine (Interaction.run_bind _).trans ?_
        rw [run_resolvePod]
        dsimp only [Except.mapError]
        cases Api.resolvePod (clusterOf env json header answer) target.podNamespace target.pod target.container with
        | error e => rfl
        | ok resolved =>
          dsimp only [bind, Except.bind]
          cases (requestPaths call.msg).find? fun p => p ≠ [] && !(newVisibility resolved).allowed p with
          | some p => rfl
          | none =>
            refine (Interaction.run_bind _).trans ?_
            rw [Interaction.run_mapError]
            dsimp only [clusterOf]
            cases (lookupAgent env json resolved.node).run answer with
            | error e => rfl
            | ok ip => rfl

/-! ### Whatever it answers -/

/-- The caller may exec into the pod, or is not asked. -/
def Cleared (env : Env) (json : Decoders) (header : Header) (target : Target) (h : History) : Prop :=
  if env.useServiceAccountToken then h = []
  else ∃ out reply, OfCaller header out ∧ Allows json.review reply ∧
    h = [(reviewRequest out (execResource target.podNamespace target.pod), reply)]

/-- The pod that a reply shows is what the caller has asked for. -/
def Resolves (json : Decoders) (target : Target) (reply : Reply) (resolved : PodTarget) : Prop :=
  ∃ pod, podOf json reply = .ok pod ∧
    (pod.resolve target.podNamespace target.pod target.container : Except (ConnectError ApiError) PodTarget) =
      .ok resolved

/-- The requests of the conversation, each behind what came before it. -/
inductive Turn (env : Env) (json : Decoders) (header : Header) (target : Target) (msg : Request) :
    History → HttpRequest Request → Prop where
  | review {out} (hout : OfCaller header out) :
    Turn env json header target msg [] (reviewRequest out (execResource target.podNamespace target.pod))
  | pod {h out} (hcleared : Cleared env json header target h) (hout : OfCaller header out) :
    Turn env json header target msg h (podRequest out target.podNamespace target.pod)
  | agents {h out reply resolved podNamespace token} (hcleared : Cleared env json header target h)
      (hout : OfCaller header out) (hresolves : Resolves json target reply resolved)
      (hvisible : ∀ p ∈ requestPaths msg, p ≠ [] → (newVisibility resolved).allowed p = true)
      (htoken : env.own.token = .ok token) :
    Turn env json header target msg (h ++ [(podRequest out target.podNamespace target.pod, reply)])
      (listRequest podNamespace token env.own.selector resolved.node)
  | agent {h out reply resolved podNamespace token reply' ip} (hcleared : Cleared env json header target h)
      (hout : OfCaller header out) (hresolves : Resolves json target reply resolved)
      (hvisible : ∀ p ∈ requestPaths msg, p ≠ [] → (newVisibility resolved).allowed p = true)
      (htoken : env.own.token = .ok token) (hlists : Lists json.podIPs reply' ip) :
    Turn env json header target msg
      (h ++ [(podRequest out target.podNamespace target.pod, reply)] ++
        [(listRequest podNamespace token env.own.selector resolved.node, reply')])
      (agentRequest env ip resolved.containerID msg)


variable {target : Target} {msg : Request} {call : Call} {h : History} {q : HttpRequest Request}

theorem meets_authorizeContainerAccess :
    (authorizeContainerAccess env json header target.podNamespace target.pod).Meets (Turn env json header target msg)
      (fun h r => r = .ok () → Cleared env json header target h) [] := by
  rw [authorizeContainerAccess]
  split
  · rename_i hflag
    exact fun _ => by rw [Cleared, if_pos hflag]
  · rename_i hflag
    refine meets_askReview (fun h' e he => by cases he) fun out hout => ⟨.review hout, fun reply hallows _ => ?_⟩
    rw [Cleared, if_neg hflag]
    exact ⟨out, reply, hout, hallows, rfl⟩

theorem meets_readPod (hcleared : Cleared env json header target h) :
    (readPod env json header target.podNamespace target.pod).Meets (Turn env json header target msg)
      (fun h' r => ∀ pod, r = .ok pod → ∃ out reply, OfCaller header out ∧ podOf json reply = .ok pod ∧
        h' = h ++ [(podRequest out target.podNamespace target.pod, reply)]) h := by
  unfold readPod
  split
  · exact fun pod hpod => by cases hpod
  · split
    · exact fun pod hpod => by cases hpod
    · rename_i out happly
      have hout : OfCaller header out := ofCaller_of_apply (fun _ _ => rfl) happly
      refine Interaction.meets_bind.mpr (Interaction.meets_send.mpr ⟨.pod hcleared hout, fun reply => ?_⟩)
      dsimp only
      rw [Interaction.meets_ofExcept]
      exact fun pod hpod => ⟨out, reply, hout, hpod, rfl⟩

theorem meets_resolvePod (hcleared : Cleared env json header target h) :
    (resolvePod env json header target.podNamespace target.pod target.container).Meets (Turn env json header target msg)
      (fun h' r => ∀ resolved, r = .ok resolved → ∃ out reply, OfCaller header out ∧ Resolves json target reply resolved ∧
        h' = h ++ [(podRequest out target.podNamespace target.pod, reply)]) h := by
  unfold resolvePod
  split
  · exact fun resolved hr => by cases hr
  · split
    · exact fun resolved hr => by cases hr
    · split
      · exact fun resolved hr => by cases hr
      · refine Interaction.meets_bind.mpr (Interaction.meets_mapError.mpr ?_)
        refine (meets_readPod hcleared).mono (fun _ _ hq => hq) fun h' r hr => ?_
        cases r with
        | error e => exact fun resolved he => by cases he
        | ok pod =>
          obtain ⟨out, reply, hout, hpod, hh⟩ := hr pod rfl
          refine Interaction.meets_ofExcept _ |>.mpr fun resolved hresolved => ?_
          exact ⟨out, reply, hout, ⟨pod, hpod, hresolved⟩, hh⟩

/-- When the backend goes on to the agent, it is its turn. -/
theorem meets_connectAgent (htarget : call.target = some target) :
    (connectAgent env json header call).Meets (Turn env json header target call.msg)
      (fun h r => ∀ conn, r = .ok conn →
        Turn env json header target call.msg h (agentRequest env conn.agent conn.containerID call.msg)) [] := by
  unfold connectAgent
  rw [htarget]
  dsimp only
  split
  · exact fun conn hconn => by cases hconn
  · refine Interaction.meets_bind.mpr (Interaction.meets_mapError.mpr ?_)
    refine meets_authorizeContainerAccess.mono (fun _ _ hq => hq) fun h r hr => ?_
    cases r with
    | error e => exact fun conn hconn => by cases hconn
    | ok u =>
      have hcleared := hr rfl
      refine Interaction.meets_bind.mpr ((meets_resolvePod hcleared).mono (fun _ _ hq => hq) fun h' r' hr' => ?_)
      cases r' with
      | error e => exact fun conn hconn => by cases hconn
      | ok resolved =>
        obtain ⟨out, reply, hout, hresolves, rfl⟩ := hr' resolved rfl
        dsimp only
        split
        · exact fun conn hconn => by cases hconn
        · rename_i hnone
          have hvisible : ∀ p ∈ requestPaths call.msg, p ≠ [] → (newVisibility resolved).allowed p = true := by
            intro p hp hne
            have hp' := List.find?_eq_none.mp hnone p hp
            simpa [hne] using hp'
          refine Interaction.meets_bind.mpr (Interaction.meets_mapError.mpr ?_)
          rw [lookupAgent]
          split
          · exact fun conn hconn => by cases hconn
          · refine meets_lookupPod (fun h' e conn hconn => by cases hconn) fun podNamespace token htoken => ?_
            refine ⟨.agents hcleared hout hresolves hvisible htoken, fun reply' ip hlists conn hconn => ?_⟩
            obtain rfl := Except.ok.inj hconn
            exact .agent hcleared hout hresolves hvisible htoken hlists

/-- Each request of the backend is the next one of the conversation. -/
theorem serve_asks (hq : (serve env json header call).Asks h q) :
    ∃ target, call.target = some target ∧ Turn env json header target call.msg h q := by
  cases htarget : call.target with
  | none =>
    have hfail : serve env json header call = .fail .noTarget := by
      rw [serve, connectAgent, htarget]
      rfl
    rw [hfail] at hq
    cases hq
  | some target =>
    refine ⟨target, rfl, Interaction.Meets.asks (P := fun _ _ => True) ?_ hq⟩
    refine Interaction.meets_bind.mpr ((meets_connectAgent htarget).mono (fun _ _ hq => hq) fun h r hr => ?_)
    cases r with
    | error e => trivial
    | ok conn =>
      refine Interaction.meets_bind.mpr (Interaction.meets_send.mpr ⟨hr conn rfl, fun reply => ?_⟩)
      trivial

/-- A container is reached behind the API server's word that the caller may exec into this pod, and under the
identity that the API server gives for it; each path of the message is one that the pod's own spec lets be seen. -/
def Permitted (env : Env) (json : Decoders) (header : Header) (call : Call) (h : History) (q : HttpRequest Request) :
    Prop :=
  ∃ target resolved out out' reply reply' reply'' podNamespace token ip, call.target = some target ∧
    OfCaller header out ∧ Allows json.review reply ∧ OfCaller header out' ∧ Resolves json target reply' resolved ∧
    Lists json.podIPs reply'' ip ∧
    h = [(reviewRequest out (execResource target.podNamespace target.pod), reply),
      (podRequest out' target.podNamespace target.pod, reply'),
      (listRequest podNamespace token env.own.selector resolved.node, reply'')] ∧
    q = agentRequest env ip resolved.containerID call.msg ∧
    ∀ p ∈ requestPaths call.msg, p ≠ [] → (newVisibility resolved).allowed p = true

/-- The headers of a request to the agent. -/
structure OfAgent (env : Env) (out : Header) : Prop where
  token : out authorization = if env.agentToken = [] then [] else ["Bearer ".toList ++ env.agentToken]
  others : ∀ key, key ≠ authorization → key ≠ containerIDKey → out key = []

theorem ofAgent_agentHeader (env : Env) (containerID : Text) : OfAgent env (agentHeader env containerID) := by
  have hne : authorization ≠ containerIDKey := by decide
  constructor
  · rw [agentHeader]
    split
    · exact set_of_ne hne
    · exact Function.update_self authorization _ _
  · intro key hauth hid
    rw [agentHeader]
    split
    · exact set_of_ne hid
    · exact (set_of_ne hauth).trans (set_of_ne hid)

/-- With the caller's credentials or with the plugin's, never with some of both: the caller's go to the API server
only, and without them there is no request. -/
structure Confined (env : Env) (header : Header) (q : HttpRequest Request) : Prop where
  authorized : header.get authorization ≠ []
  apiServer : q.host = .apiServer →
    OfCaller header q.header ∨ ∃ token, env.own.token = .ok token ∧ OfPlugin token q.header
  agent : q.host ≠ .apiServer → OfAgent env q.header

theorem serve_confined (hq : (serve env json header call).Asks h q) : Confined env header q := by
  obtain ⟨target, -, hturn⟩ := serve_asks hq
  cases hturn with
  | review hout => exact ⟨hout.authorized, fun _ => .inl hout, fun hpod => absurd rfl hpod⟩
  | pod hcleared hout => exact ⟨hout.authorized, fun _ => .inl hout, fun hpod => absurd rfl hpod⟩
  | agents hcleared hout hresolves hvisible htoken =>
    exact ⟨hout.authorized, fun _ => .inr ⟨_, htoken, ofPlugin_ownCredentials _⟩, fun hpod => absurd rfl hpod⟩
  | agent hcleared hout hresolves hvisible htoken hlists =>
    exact ⟨hout.authorized, fun hhost => (by cases hhost), fun _ => ofAgent_agentHeader env _⟩

/-- A caller with a token, who impersonates someone. -/
def caller : Header := (noHeader.set authorization "Bearer t".toList).set "Impersonate-User".toList "u".toList

def oneEnv : Env := ⟨false, .ok (), ⟨.ok ['s'], .ok ['k'], ['l']⟩, "9090".toList, ['a']⟩

/-- Everything is allowed, and there is one pod with one container. -/
def oneDecoders : Decoders where
  review _ := .ok ⟨true, []⟩
  pod _ := .ok ⟨[], ['n'], [⟨['c'], [], []⟩], [], [], [], [], [⟨['c'], ['i'], true⟩], [], []⟩
  podIPs _ := .ok [[], "10.0.0.1".toList]

def oneCall : Call := ⟨some ⟨['n'], ['p'], []⟩, .stat ['/']⟩

def oneReply : Reply := .response 200 "200 OK".toList []

/-- The request that reaches the container. -/
def oneRequest : HttpRequest Request := agentRequest oneEnv "10.0.0.1".toList ['i'] (.stat ['/'])

theorem oneCall_asks : ∃ h, (serve oneEnv oneDecoders caller oneCall).Asks h oneRequest :=
  ⟨[(_, oneReply), (_, oneReply), (_, oneReply)], .later (.later (.later .here))⟩

theorem serve_confined_one : Confined oneEnv caller oneRequest := by
  obtain ⟨h, hasks⟩ := oneCall_asks
  exact serve_confined hasks

end OpenshiftConsole.Filesystem.Proxy
