import OpenshiftConsole.Filesystem.Paths

/-!
# What a caller may name

The plugin's backend, between the browser and the agents. It reads the pod with the
caller's credentials, works out of its spec which paths below `/dev` and `/proc` are the
container's own (`allowedDevPaths`, `procSysPaths`), and lets a request pass if every path
text that the request has is visible (`connectAgent`). A listing that comes back is
filtered once more (`filterEntries`); nothing else that comes back is.

The check is on texts: `cleanPath` is `path.Clean`, which knows nothing of the container's
links. What the kernel makes of the same texts is in `Syscalls`.

The API server and the lookup of an agent are not part of the repository; `Cluster` is what
they answer.
-/

namespace OpenshiftConsole.Filesystem.Api

open OpenshiftConsole.Library.Lines (Text)

/-! ### The messages -/

/-- The container that a request is about. -/
structure Target where
  podNamespace : Text
  pod : Text
  container : Text

/-- The formats of an archive that is asked for. -/
inductive ArchiveFormat where
  | unspecified | zip | tar | tarGz | tarZstd
  deriving DecidableEq

/-- The requests of the service `FileBrowser`, without their targets. -/
inductive Request where
  | listDirectory (path : Text)
  | stat (path : Text)
  | readFile (path : Text) (maxBytes : ℤ)
  | upload (path : Text) (offset : ℤ) (data : Text) (last : Bool) (mode : ℕ)
  | archive (path : Text) (format : ArchiveFormat)
  | extract (path destination : Text) (overwrite : Bool)
  | move (source destination : Text) (overwrite : Bool)
  | delete (path : Text) (recursive : Bool)
  | createDirectory (path : Text) (mode : ℕ)

/-- A request as it comes in. -/
structure Call where
  target : Option Target
  msg : Request

/-! ### The pod -/

/-- A volume of a container by name, and where it is mounted. -/
structure VolumeMount where
  name : Text
  mountPath : Text

/-- A container of the pod's spec; of a volume device only the path matters. -/
structure ContainerSpec where
  name : Text
  volumeMounts : List VolumeMount
  volumeDevices : List Text

/-- A volume of the pod, with the type of its host path, if it is one. -/
structure Volume where
  name : Text
  hostPathType : Option Text

/-- What the pod's status says of a container. -/
structure ContainerStatus where
  name : Text
  containerID : Text
  running : Bool

/-- `podResponse` -/
structure Pod where
  annotations : List (Text × Text)
  nodeName : Text
  containers : List ContainerSpec
  initContainers : List ContainerSpec
  ephemeralContainers : List ContainerSpec
  volumes : List Volume
  /-- The names of the sysctls of the pod's security context. -/
  sysctls : List Text
  containerStatuses : List ContainerStatus
  initStatuses : List ContainerStatus
  ephemeral : List ContainerStatus

/-- `hostPathType` of `allowedDevPaths`: of several volumes with a name the last counts. -/
def Pod.hostPathType (pod : Pod) (name : Text) : Text :=
  ((pod.volumes.reverse.filterMap fun v => v.hostPathType.map fun type => (v.name, type)).lookup name).getD []

/-- The paths that one container spec gives to its container. -/
def ContainerSpec.devPaths (hostPathType : Text → Text) (cs : ContainerSpec) : List Text :=
  cs.volumeDevices ++ (cs.volumeMounts.filter fun vm =>
    hostPathType vm.name ∈ ["CharDevice".toList, "BlockDevice".toList]).map VolumeMount.mountPath

/-- `allowedDevPaths` -/
def Pod.allowedDevPaths (pod : Pod) (container : Text) : List Text :=
  ((pod.containers ++ pod.initContainers ++ pod.ephemeralContainers).filter (·.name = container)).flatMap
    (ContainerSpec.devPaths pod.hostPathType)

/-- `sysctlProcSysPath` -/
def sysctlProcSysPath (name : Text) : Text := "/proc/sys/".toList ++ name.map fun c => if c = '.' then '/' else c

/-- `procSysPaths` -/
def Pod.procSysPaths (pod : Pod) : List Text := pod.sysctls.map sysctlProcSysPath

/-- `defaultContainer` -/
def defaultContainer (pod : Pod) (statuses : List ContainerStatus) : Text :=
  let name := (pod.annotations.lookup "kubectl.kubernetes.io/default-container".toList).getD []
  if name ≠ [] then name
  else
    match statuses.find? (·.running) with
    | some status => status.name
    | none =>
      match pod.containers with
      | cs :: _ => cs.name
      | [] => []

/-- `podTarget` -/
structure PodTarget where
  node : Text
  containerID : Text
  container : Text
  allowedDevPaths : List Text
  procSysPaths : List Text

/-! ### Visibility -/

/-- `visibility`: the exceptions to what is hidden. -/
structure Visibility where
  devPaths : List Text
  procSysPaths : List Text

/-- `cleanPath` of the policy. -/
def cleanPath (p : Text) : Text := pathClean (if ['/'].isPrefixOf p then p else '/' :: p)

/-- `cleanAll` -/
def cleanAll (paths : List Text) : List Text := (paths.filter (· ≠ [])).map cleanPath

/-- `newVisibility` -/
def newVisibility (target : PodTarget) : Visibility := ⟨cleanAll target.allowedDevPaths, cleanAll target.procSysPaths⟩

/-- `matchesAny`: whether a path is a leaf, above one or below one. -/
def matchesAny (p : Text) (leaves : List Text) : Bool :=
  leaves.any fun leaf => p == leaf || (p ++ ['/']).isPrefixOf leaf || (leaf ++ ['/']).isPrefixOf p

/-- Whether a clean path is a directory of the root or below it: a case of `allowed`. -/
def isUnder (top p : Text) : Bool := p == top || (top ++ ['/']).isPrefixOf p

/-- `allowed` -/
def Visibility.allowed (v : Visibility) (p : Text) : Bool :=
  let p := cleanPath p
  if isUnder "/sys".toList p then false
  else if isUnder "/dev".toList p then matchesAny p v.devPaths
  else if isUnder "/proc".toList p then matchesAny p v.procSysPaths
  else true

/-- `filterEntries`: an entry is judged by the text of the directory's path and its name. -/
def filterEntries {α : Type} (name : α → Text) (entries : List α) (dir : Text) (vis : Visibility) : List α :=
  entries.filter fun entry => vis.allowed (pathClean (if dir = [] then name entry else dir ++ '/' :: name entry))

/-- `requestPaths` -/
def requestPaths : Request → List Text
  | .listDirectory path | .stat path | .readFile path _ | .upload path .. | .archive path _ | .delete path _
  | .createDirectory path _ => [path]
  | .extract path destination _ => path :: if destination ≠ [] then [destination] else []
  | .move source destination _ => [source, destination]

/-! ### Connecting -/

/-- What the backend learns from others: errors are of the type `ε`. -/
structure Cluster (ε : Type) where
  /-- `authorizeContainerAccess`, for a namespace and a pod. -/
  authorize : Text → Text → Except ε Unit
  /-- The pod, as the API server gives it to the caller. -/
  readPod : Text → Text → Except ε Pod
  /-- `lookupAgent`: the address of the agent on a node. -/
  lookupAgent : Text → Except ε Text

/-- Why a request goes no further. -/
inductive ConnectError (ε : Type) where
  /-- "request has no target container" -/
  | noTarget
  /-- "target must name a namespace and a pod" -/
  | unnamedTarget
  /-- What the API server or the lookup of the agent has said. -/
  | cluster (err : ε)
  /-- "invalid namespace name" -/
  | invalidNamespace
  /-- "invalid pod name" -/
  | invalidPod
  /-- "invalid container name" -/
  | invalidContainer
  /-- "pod %s/%s is not scheduled to a node" -/
  | notScheduled (podNamespace pod : Text)
  /-- "container %q in pod %s/%s has no running container to browse" -/
  | notRunning (container podNamespace pod : Text)
  /-- "pod %s/%s has no container %q" -/
  | noContainer (podNamespace pod container : Text)
  /-- "%q is not visible" -/
  | notVisible (path : Text)

/-- A lower-case letter or a digit. -/
def isAlnum (c : Char) : Bool := c.isLower || c.isDigit

/-- A name of letters, digits and some other characters that are not at its ends. -/
def isNameOf (others : List Char) (s : Text) : Bool :=
  s.head?.any isAlnum && s.getLast?.any isAlnum && s.all fun c => isAlnum c || c ∈ others

/-- `dnsNameRE` -/
def dnsName : Text → Bool := isNameOf ['.', '-']

/-- `containerRE` -/
def containerName : Text → Bool := isNameOf ['-']

variable {ε : Type}

/-- The container of the pod that is meant, among those that the status lists. -/
def Pod.resolve (pod : Pod) (podNamespace name container : Text) : Except (ConnectError ε) PodTarget :=
  if pod.nodeName = [] then .error (.notScheduled podNamespace name)
  else
    let statuses := pod.containerStatuses ++ pod.initStatuses ++ pod.ephemeral
    let container := if container = [] then defaultContainer pod statuses else container
    match statuses.find? (·.name = container) with
    | none => .error (.noContainer podNamespace name container)
    | some status =>
      if status.containerID = [] then .error (.notRunning container podNamespace name)
      else .ok ⟨pod.nodeName, status.containerID, container, pod.allowedDevPaths container, pod.procSysPaths⟩

/-- `resolvePod` -/
def resolvePod (cluster : Cluster ε) (podNamespace pod container : Text) : Except (ConnectError ε) PodTarget :=
  if !dnsName podNamespace then .error .invalidNamespace
  else if !dnsName pod then .error .invalidPod
  else if container ≠ [] ∧ !containerName container then .error .invalidContainer
  else
    match cluster.readPod podNamespace pod with
    | .error err => .error (.cluster err)
    | .ok parsed => parsed.resolve podNamespace pod container

/-- What a request goes on with: the agent, the container it is told and the caller's view. -/
structure Connection where
  agent : Text
  containerID : Text
  vis : Visibility

/-- `connectAgent` -/
def connectAgent (cluster : Cluster ε) (call : Call) : Except (ConnectError ε) Connection :=
  match call.target with
  | none => .error .noTarget
  | some target =>
    if target.podNamespace = [] ∨ target.pod = [] then .error .unnamedTarget
    else
      match cluster.authorize target.podNamespace target.pod with
      | .error err => .error (.cluster err)
      | .ok () =>
        match resolvePod cluster target.podNamespace target.pod target.container with
        | .error err => .error err
        | .ok resolved =>
          let vis := newVisibility resolved
          match (requestPaths call.msg).find? fun p => p ≠ [] && !vis.allowed p with
          | some p => .error (.notVisible p)
          | none =>
            match cluster.lookupAgent resolved.node with
            | .error err => .error (.cluster err)
            | .ok agent => .ok ⟨agent, resolved.containerID, vis⟩

/-- The view is the one of the pod's spec, and it shows every path that the request names. -/
theorem connectAgent_ok {cluster : Cluster ε} {call : Call} {conn : Connection}
    (h : connectAgent cluster call = .ok conn) :
    (∃ target resolved, call.target = some target ∧
      resolvePod cluster target.podNamespace target.pod target.container = .ok resolved ∧
        conn.vis = newVisibility resolved) ∧
      ∀ p ∈ requestPaths call.msg, p ≠ [] → conn.vis.allowed p = true := by
  unfold connectAgent at h
  split at h
  · cases h
  · rename_i target ht
    split at h
    · cases h
    · split at h
      · cases h
      · split at h
        · cases h
        · rename_i resolved hr
          dsimp only at h
          split at h
          · cases h
          · rename_i hnone
            split at h
            · cases h
            · obtain rfl := Except.ok.inj h
              refine ⟨⟨target, resolved, ht, hr, rfl⟩, fun p hp hne => ?_⟩
              have hp' := List.find?_eq_none.mp hnone p hp
              simpa [hne] using hp'

end OpenshiftConsole.Filesystem.Api
