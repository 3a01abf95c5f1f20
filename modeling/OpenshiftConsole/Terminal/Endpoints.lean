import Mathlib.Data.List.Induction
import Mathlib.Data.List.Nodup
import OpenshiftConsole.Logging.Json

/-!
# The VNC endpoints of a pod

A pod that is served over VNC says in an annotation which of its containers listen on which ports. The text
is free: what is no JSON array has no endpoints, and an entry of an array that names no container of the pod, no
valid port or one that is taken is left out (`vncConnections`).

The endpoints are then grouped by container in an object of JavaScript, which has the properties of
`Object.prototype` from the start. A container may have the name of one of them, `constructor`, and no other. So the
endpoints of each container are those that were found for it exactly if no container has that name
(`vncEndpoints_iff`).
-/

namespace OpenshiftConsole.Terminal.Endpoints

open OpenshiftConsole.Logging (Str JsNumber trim)
open OpenshiftConsole.Logging.Journal (ascii)
open OpenshiftConsole.Logging.JSON (Value member)

/-! ### Endpoints -/

def VNC_ENABLED_LABEL : Str := ascii "vnc.container.kubernetes.io/enabled"

def VNC_ENDPOINTS_ANNOTATION : Str := ascii "vnc.container.kubernetes.io/endpoints"

def DEFAULT_VNC_PORT : ℕ := 5900

def MAX_PORT : ℕ := 65535

/-- `VncSecretRef` -/
structure VncSecretRef where
  name : Str
  key : Option Str

/-- `VncAuth` -/
inductive VncAuth where
  | password (password : Str)
  | secretRef (secretRef : VncSecretRef)

/-- `VncEndpoint` -/
structure VncEndpoint where
  port : ℕ
  auth : Option VncAuth
  label : Option Str
  priority : Option ℚ

/-- `VncConnection` -/
structure VncConnection extends VncEndpoint where
  containerName : Str

/-- `PodKind`: its labels and annotations by name, and the names of its containers. -/
structure Pod where
  labels : Str → Option Str
  annotations : Str → Option Str
  containers : List Str

/-- `isVncPod` -/
def isVncPod (obj : Pod) : Bool := obj.labels VNC_ENABLED_LABEL = some (ascii "true")

/-! ### Parsing -/

/-- A property of an object that `JSON.parse` has made; arrays have none of the names that are asked for. -/
def property (raw : Value) (key : Str) : Option Value :=
  match raw with
  | .object members => member members key
  | _ => none

/-- `raw && typeof raw === 'object'` -/
def isObject : Option Value → Bool
  | some (.object _) | some (.array _) => true
  | _ => false

/-- The end of `parsePort`: a whole number that is a port. -/
def portOf : JsNumber → Option ℕ
  | .finite q => if q.den = 1 ∧ 1 ≤ q ∧ q ≤ MAX_PORT then some q.num.toNat else none
  | _ => none

/-- `parsePort` -/
def parsePort : Option Value → Option ℕ
  | none => some DEFAULT_VNC_PORT
  | some (.number n) => portOf n
  | some (.string s) => if s ≠ [] ∧ s.all fun c => 48 ≤ c && c ≤ 57 then portOf (.ofString s) else none
  | some _ => none

/-- `parsePriority` -/
def parsePriority : Option Value → Option ℚ
  | some (.number n) => n.value
  | _ => none

/-- A string that is not empty. -/
def nonEmpty : Option Value → Option Str
  | some (.string s) => if s ≠ [] then some s else none
  | _ => none

/-- `parseAuth` -/
def parseAuth (raw : Option Value) : Option VncAuth :=
  match raw with
  | none => none
  | some v =>
    if isObject raw then
      match nonEmpty (property v (ascii "password")) with
      | some password => some (.password password)
      | none =>
        match property v (ascii "secretRef") with
        | none => none
        | some ref =>
          if isObject (some ref) then
            (nonEmpty (property ref (ascii "name"))).map fun name => .secretRef ⟨name, nonEmpty (property ref (ascii "key"))⟩
          else none
    else none

/-! ### Connections -/

/-- What the loop has come to. -/
structure Found where
  connections : List VncConnection
  claimedPorts : List ℕ

/-- The container and the port of an entry, if the pod has such a container and the port is one. -/
def target (containerNames : List Str) (rawEntry : Value) : Option (Str × ℕ) :=
  match property rawEntry (ascii "container") with
  | some (.string container) =>
    if container ∈ containerNames then (parsePort (property rawEntry (ascii "port"))).map (container, ·) else none
  | _ => none

/-- The connection that an entry is. -/
def connectionOf (rawEntry : Value) (container : Str) (port : ℕ) : VncConnection where
  port := port
  auth := parseAuth (property rawEntry (ascii "auth"))
  label := nonEmpty (property rawEntry (ascii "label"))
  priority := parsePriority (property rawEntry (ascii "priority"))
  containerName := container

/-- An entry of the annotation. -/
def addEntry (containerNames : List Str) (found : Found) (rawEntry : Value) : Found :=
  match target containerNames rawEntry with
  | none => found
  | some (container, port) =>
    if port ∈ found.claimedPorts then found
    else ⟨found.connections ++ [connectionOf rawEntry container port], port :: found.claimedPorts⟩

/-- The connections of an annotation's entries. -/
def entryConnections (containerNames : List Str) (entries : List Value) : List VncConnection :=
  (entries.foldl (addEntry containerNames) ⟨[], []⟩).connections

/-- `vncConnections` -/
def vncConnections (obj : Pod) : List VncConnection :=
  if isVncPod obj then
    let spec := trim ((obj.annotations VNC_ENDPOINTS_ANNOTATION).getD [])
    if spec = [] then (obj.containers.head?.map fun container => ⟨⟨DEFAULT_VNC_PORT, none, none, none⟩, container⟩).toList
    else
      match Logging.JSON.parse spec with
      | some (.array entries) => entryConnections obj.containers entries
      | _ => []
  else []

/-! ### Groups -/

/-- The names of the properties of `Object.prototype`. -/
def objectPrototype : List Str :=
  ["constructor", "hasOwnProperty", "isPrototypeOf", "propertyIsEnumerable", "toLocaleString", "toString", "valueOf",
    "__defineGetter__", "__defineSetter__", "__lookupGetter__", "__lookupSetter__", "__proto__"].map ascii

/-- A value of the object that groups: a list of endpoints, or what an object has from its prototype. -/
inductive Grouped where
  | endpoints (list : List VncEndpoint)
  | inherited (name : Str)

/-- `VncEndpoints`: the properties of its own. -/
abbrev VncEndpoints := List (Str × List VncEndpoint)

/-- `endpoints[name]` -/
def VncEndpoints.get (endpoints : VncEndpoints) (name : Str) : Option Grouped :=
  match endpoints.find? (·.1 = name) with
  | some (_, list) => some (.endpoints list)
  | none => if name ∈ objectPrototype then some (.inherited name) else none

/-- `(endpoints[containerName] ??= []).push(endpoint)`; what is inherited is no list and has no `push`. -/
def VncEndpoints.push (endpoints : VncEndpoints) (c : VncConnection) : Option VncEndpoints :=
  match endpoints.get c.containerName with
  | none => some (endpoints ++ [(c.containerName, [c.toVncEndpoint])])
  | some (.endpoints _) =>
    some (endpoints.map fun p => if p.1 = c.containerName then (p.1, p.2 ++ [c.toVncEndpoint]) else p)
  | some (.inherited _) => none

/-- `vncEndpoints`, unless it throws. -/
def vncEndpoints (obj : Pod) : Option VncEndpoints := (vncConnections obj).foldlM VncEndpoints.push []

/-- `vncEndpointsForContainer`, unless it throws. -/
def vncEndpointsForContainer (obj : Pod) (containerName : Str) : Option Grouped :=
  (vncEndpoints obj).map fun endpoints => (endpoints.get containerName).getD (.endpoints [])

/-! ### What is found -/

/-- The entry names a container that there is, and a valid port. -/
def Names (containerNames : List Str) (rawEntry : Value) (container : Str) (port : ℕ) : Prop :=
  property rawEntry (ascii "container") = some (.string container) ∧ container ∈ containerNames ∧
    parsePort (property rawEntry (ascii "port")) = some port

/-- The connections of entries: in order, those that name a container and a port that no kept one before has. -/
inductive Kept (containerNames : List Str) : List Value → List VncConnection → Prop where
  | nil : Kept containerNames [] []
  | keep {es cs e container port} : Kept containerNames es cs → Names containerNames e container port →
      port ∉ cs.map (·.port) → Kept containerNames (es ++ [e]) (cs ++ [connectionOf e container port])
  | drop {es cs e} : Kept containerNames es cs →
      (∀ container port, Names containerNames e container port → port ∈ cs.map (·.port)) → Kept containerNames (es ++ [e]) cs

/-- The connections of a pod are well-formed. -/
structure WellFormed (obj : Pod) : Prop where
  ports : ((vncConnections obj).map (·.port)).Nodup
  valid : ∀ c ∈ vncConnections obj, (1 ≤ c.port ∧ c.port ≤ MAX_PORT) ∧ c.containerName ∈ obj.containers
  entries : ∀ text entries, obj.annotations VNC_ENDPOINTS_ANNOTATION = some text →
    Logging.JSON.parse (trim text) = some (.array entries) → Kept obj.containers entries (vncConnections obj)

variable {containerNames : List Str} {e : Value} {container name : Str} {port : ℕ} {es : List Value}
  {cs ds : List VncConnection} {c : VncConnection} {o o' : VncEndpoints} {obj : Pod}

theorem target_eq_some_iff : target containerNames e = some (container, port) ↔ Names containerNames e container port := by
  unfold target Names
  split
  · next found hfound =>
    rw [hfound, Option.some.injEq, Value.string.injEq]
    split_ifs with hmem
    · rw [Option.map_eq_some_iff]
      constructor
      · rintro ⟨p, hp, heq⟩
        obtain ⟨rfl, rfl⟩ := Prod.mk.inj heq
        exact ⟨rfl, hmem, hp⟩
      · rintro ⟨rfl, -, hp⟩
        exact ⟨port, hp, rfl⟩
    · refine ⟨fun h => absurd h (by simp), ?_⟩
      rintro ⟨rfl, hmem', -⟩
      exact absurd hmem' hmem
  · next hno =>
    refine ⟨fun h => absurd h (by simp), ?_⟩
    rintro ⟨hfound, -⟩
    exact absurd hfound (hno container)

theorem portOf_bounds {n : JsNumber} (h : portOf n = some port) : 1 ≤ port ∧ port ≤ MAX_PORT := by
  cases n with
  | finite q =>
    rw [portOf] at h
    split_ifs at h with hq
    obtain rfl := Option.some.inj h
    obtain ⟨hden, hlow, hhigh⟩ := hq
    have hnum : (q.num : ℚ) = q := Rat.coe_int_num_of_den_eq_one hden
    rw [← hnum] at hlow hhigh
    have hlow' : 1 ≤ q.num := by exact_mod_cast hlow
    have hhigh' : q.num ≤ MAX_PORT := by exact_mod_cast hhigh
    simp only [MAX_PORT] at *
    omega
  | infinite negative => exact absurd h (by simp [portOf])
  | nan => exact absurd h (by simp [portOf])

theorem parsePort_bounds {raw : Option Value} (h : parsePort raw = some port) : 1 ≤ port ∧ port ≤ MAX_PORT := by
  unfold parsePort at h
  split at h
  · obtain rfl := Option.some.inj h
    decide
  · exact portOf_bounds h
  · split_ifs at h
    exact portOf_bounds h
  · exact absurd h (by simp)

/-- What is kept has a port of its own and a container that there is. -/
theorem Kept.wellFormed (h : Kept containerNames es cs) :
    (cs.map (·.port)).Nodup ∧ ∀ c ∈ cs, (1 ≤ c.port ∧ c.port ≤ MAX_PORT) ∧ c.containerName ∈ containerNames := by
  induction h with
  | nil => exact ⟨List.nodup_nil, fun c hc => absurd hc List.not_mem_nil⟩
  | keep _ hnames hport ih =>
    constructor
    · rw [List.map_append, List.map_singleton]
      refine List.nodup_append.mpr ⟨ih.1, List.nodup_singleton _, fun p hp q hq heq => hport ?_⟩
      rw [heq, List.mem_singleton.mp hq] at hp
      exact hp
    · intro c hc
      rcases List.mem_append.mp hc with hc | hc
      · exact ih.2 c hc
      · rw [List.mem_singleton.mp hc]
        exact ⟨parsePort_bounds hnames.2.2, hnames.2.1⟩
  | drop _ _ ih => exact ih

/-- The loop keeps what is to be kept. -/
theorem kept_foldl (es : List Value) :
    Kept containerNames es (es.foldl (addEntry containerNames) ⟨[], []⟩).connections ∧
      ∀ p, p ∈ (es.foldl (addEntry containerNames) ⟨[], []⟩).claimedPorts ↔
        p ∈ (es.foldl (addEntry containerNames) ⟨[], []⟩).connections.map (·.port) := by
  induction es using List.reverseRecOn with
  | nil => exact ⟨.nil, fun p => Iff.rfl⟩
  | append_singleton es e ih =>
    obtain ⟨hkept, hclaimed⟩ := ih
    rw [List.foldl_append, List.foldl_cons, List.foldl_nil]
    generalize es.foldl (addEntry containerNames) ⟨[], []⟩ = found at *
    unfold addEntry
    split
    · next hnone =>
      refine ⟨.drop hkept fun container port hnames => ?_, hclaimed⟩
      rw [target_eq_some_iff.mpr hnames] at hnone
      exact absurd hnone (by simp)
    · next container port htarget =>
      have hnames := target_eq_some_iff.mp htarget
      split_ifs with hport
      · refine ⟨.drop hkept fun container' port' hnames' => ?_, hclaimed⟩
        rw [← target_eq_some_iff, htarget] at hnames'
        obtain ⟨-, rfl⟩ := Prod.mk.inj (Option.some.inj hnames')
        exact (hclaimed port).mp hport
      · refine ⟨.keep hkept hnames fun h => hport ((hclaimed port).mpr h), fun p => ?_⟩
        rw [List.map_append, List.mem_append, List.mem_cons, hclaimed, List.map_singleton, List.mem_singleton, or_comm]
        rfl

theorem vncConnections_array {text : Str} {entries : List Value} (hvnc : isVncPod obj = true)
    (ha : obj.annotations VNC_ENDPOINTS_ANNOTATION = some text)
    (hparse : Logging.JSON.parse (trim text) = some (.array entries)) :
    vncConnections obj = entryConnections obj.containers entries := by
  have hne : trim text ≠ [] := by
    intro hempty
    rw [hempty, show Logging.JSON.parse [] = none from rfl] at hparse
    exact absurd hparse (by simp)
  simp only [vncConnections, hvnc, if_true, ha, Option.getD_some, if_neg hne, hparse]

theorem wellFormed (hvnc : isVncPod obj = true) : WellFormed obj := by
  have hcases : ((vncConnections obj).map (·.port)).Nodup ∧
      ∀ c ∈ vncConnections obj, (1 ≤ c.port ∧ c.port ≤ MAX_PORT) ∧ c.containerName ∈ obj.containers := by
    simp only [vncConnections, hvnc, if_true]
    split_ifs with hspec
    · cases hhead : obj.containers.head? with
      | none => exact ⟨List.nodup_nil, fun c hc => absurd hc List.not_mem_nil⟩
      | some container =>
        refine ⟨List.nodup_singleton _, fun c hc => ?_⟩
        rw [List.mem_singleton.mp hc]
        exact ⟨show 1 ≤ DEFAULT_VNC_PORT ∧ DEFAULT_VNC_PORT ≤ MAX_PORT by decide, List.mem_of_head? hhead⟩
    · split
      · exact (kept_foldl _).1.wellFormed
      · exact ⟨List.nodup_nil, fun c hc => absurd hc List.not_mem_nil⟩
  refine ⟨hcases.1, hcases.2, fun text entries ha hparse => ?_⟩
  rw [vncConnections_array hvnc ha hparse]
  exact (kept_foldl entries).1

/-! ### Groups -/

/-- The endpoints of a container's connections. -/
def endpointsOf (cs : List VncConnection) (containerName : Str) : List VncEndpoint :=
  (cs.filter (·.containerName = containerName)).map (·.toVncEndpoint)

/-- The object has the connections, grouped, and nothing else. -/
def Groups (o : VncEndpoints) (cs : List VncConnection) : Prop :=
  ∀ name, o.find? (·.1 = name) = if endpointsOf cs name = [] then none else some (name, endpointsOf cs name)

theorem endpointsOf_concat (cs : List VncConnection) (c : VncConnection) (name : Str) :
    endpointsOf (cs ++ [c]) name = endpointsOf cs name ++ if c.containerName = name then [c.toVncEndpoint] else [] := by
  rw [endpointsOf, endpointsOf, List.filter_append, List.map_append]
  congr 1
  split_ifs with h <;> simp [h]

/-- A connection is added to its group, unless its container has the name of something inherited. -/
theorem Groups.push (h : Groups o cs) (hc : c.containerName ∉ objectPrototype) :
    ∃ o', o.push c = some o' ∧ Groups o' (cs ++ [c]) := by
  have hown := h c.containerName
  split_ifs at hown with hfirst
  · refine ⟨o ++ [(c.containerName, [c.toVncEndpoint])], ?_, fun name => ?_⟩
    · rw [VncEndpoints.push, VncEndpoints.get, hown]
      simp only [if_neg hc]
    · rw [List.find?_append, h name, endpointsOf_concat]
      by_cases hname : c.containerName = name
      · subst hname
        simp [hfirst]
      · simp [hname]
  · refine ⟨o.map fun p => if p.1 = c.containerName then (p.1, p.2 ++ [c.toVncEndpoint]) else p, ?_, fun name => ?_⟩
    · rw [VncEndpoints.push, VncEndpoints.get, hown]
    · have hkey : ((fun p : Str × List VncEndpoint => decide (p.1 = name)) ∘
          fun p => if p.1 = c.containerName then (p.1, p.2 ++ [c.toVncEndpoint]) else p) = fun p => decide (p.1 = name) := by
        funext p
        simp only [Function.comp]
        split_ifs <;> rfl
      rw [List.find?_map, hkey, h name, endpointsOf_concat]
      by_cases hname : c.containerName = name
      · subst hname
        simp [hfirst]
      · have hname' : ¬name = c.containerName := fun heq => hname heq.symm
        rw [if_neg hname, List.append_nil]
        split_ifs <;> simp [hname']

theorem Groups.foldlM (h : Groups o cs) (hds : ∀ c ∈ ds, c.containerName ∉ objectPrototype) :
    ∃ o', ds.foldlM VncEndpoints.push o = some o' ∧ Groups o' (cs ++ ds) := by
  induction ds generalizing o cs with
  | nil => exact ⟨o, rfl, by rwa [List.append_nil]⟩
  | cons c ds ih =>
    obtain ⟨o₁, hpush, hgroups⟩ := h.push (hds c List.mem_cons_self)
    obtain ⟨o₂, hfold, hgroups'⟩ := ih hgroups fun d hd => hds d (List.mem_cons_of_mem c hd)
    refine ⟨o₂, ?_, by rwa [List.append_assoc] at hgroups'⟩
    rw [List.foldlM_cons, hpush]
    exact hfold

theorem Groups.get (h : Groups o cs) (hname : name ∉ objectPrototype) :
    (o.get name).getD (.endpoints []) = .endpoints (endpointsOf cs name) := by
  rw [VncEndpoints.get, h name]
  split_ifs with hnone
  · rw [hnone]
    simp only [Option.getD_none]
  · rfl

/-- What is inherited and has no connections is got as it is. -/
theorem Groups.get_inherited (h : Groups o cs) (hname : name ∈ objectPrototype) (hnone : endpointsOf cs name = []) :
    o.get name = some (.inherited name) := by
  rw [VncEndpoints.get, h name, if_pos hnone]
  simp only [if_pos hname]

/-- A connection whose container has an inherited name cannot be added, as no property of that name is the object's own. -/
theorem push_inherited (ho : ∀ p ∈ o, p.1 ∉ objectPrototype) (hc : c.containerName ∈ objectPrototype) : o.push c = none := by
  have hfind : o.find? (·.1 = c.containerName) = none := by
    rw [List.find?_eq_none]
    intro p hp heq
    rw [decide_eq_true_eq] at heq
    exact ho p hp (heq ▸ hc)
  rw [VncEndpoints.push, VncEndpoints.get, hfind]
  simp only [if_pos hc]

/-- What is added has the name of its container, and the names that were there stay. -/
theorem push_names (ho : ∀ p ∈ o, p.1 ∉ objectPrototype) (hc : c.containerName ∉ objectPrototype) (h : o.push c = some o') :
    ∀ p ∈ o', p.1 ∉ objectPrototype := by
  unfold VncEndpoints.push at h
  split at h
  · obtain rfl := Option.some.inj h
    intro p hp
    rcases List.mem_append.mp hp with hp | hp
    · exact ho p hp
    · rw [List.mem_singleton.mp hp]
      exact hc
  · obtain rfl := Option.some.inj h
    intro p hp
    obtain ⟨q, hq, rfl⟩ := List.mem_map.mp hp
    split_ifs <;> exact ho q hq
  · exact absurd h (by simp)

/-- One connection whose container has an inherited name is enough for the whole pod to have no endpoints. -/
theorem foldlM_inherited (ho : ∀ p ∈ o, p.1 ∉ objectPrototype) (hc : c ∈ ds) (hname : c.containerName ∈ objectPrototype) :
    ds.foldlM VncEndpoints.push o = none := by
  induction ds generalizing o with
  | nil => exact absurd hc List.not_mem_nil
  | cons d ds ih =>
    rw [List.foldlM_cons]
    by_cases hd : d.containerName ∈ objectPrototype
    · rw [push_inherited ho hd]
      rfl
    · cases hpush : o.push d with
      | none => rfl
      | some o₁ =>
        rcases List.mem_cons.mp hc with rfl | hc
        · exact absurd hname hd
        · exact ih (push_names ho hd hpush) hc

/-! ### Names of containers -/

/-- A name of a container that Kubernetes allows: a label of DNS. -/
def isDnsLabel (s : Str) : Bool :=
  s ≠ [] ∧ s.length ≤ 63 ∧ (s.all fun c => (97 ≤ c && c ≤ 122) || (48 ≤ c && c ≤ 57) || c = 45) ∧ s.head? ≠ some 45 ∧
    s.getLast? ≠ some 45

/-- Of the inherited names, a container can have one only. -/
theorem eq_constructor (h : isDnsLabel name = true) (hname : name ∈ objectPrototype) : name = ascii "constructor" := by
  have hall : objectPrototype.all (fun name => !isDnsLabel name || name = ascii "constructor") = true := by decide
  simpa [h] using List.all_eq_true.mp hall name hname

/-- **The endpoints of a pod's containers** are well-formed, and each container has its own, exactly if no container has
the name of something that objects inherit. -/
theorem vncEndpoints_iff (hvnc : isVncPod obj = true) (hnames : ∀ name ∈ obj.containers, isDnsLabel name = true) :
    (WellFormed obj ∧ ∀ name ∈ obj.containers,
        vncEndpointsForContainer obj name = some (.endpoints (endpointsOf (vncConnections obj) name))) ↔
      ascii "constructor" ∉ obj.containers := by
  have hwell := wellFormed hvnc
  have hempty : Groups [] [] := fun name => rfl
  have hinherited : ascii "constructor" ∈ objectPrototype := List.mem_cons_self
  constructor
  · rintro ⟨-, hall⟩ hmem
    have hconstructor := hall _ hmem
    by_cases hused : ∃ c ∈ vncConnections obj, c.containerName ∈ objectPrototype
    · -- The endpoints cannot be grouped at all.
      obtain ⟨c, hc, hname⟩ := hused
      rw [vncEndpointsForContainer, vncEndpoints,
        foldlM_inherited (fun p hp => absurd hp List.not_mem_nil) hc hname] at hconstructor
      exact absurd hconstructor (by simp)
    · -- They are grouped, but `constructor` is found where it is inherited.
      have hfree : ∀ c ∈ vncConnections obj, c.containerName ∉ objectPrototype := fun c hc hname => hused ⟨c, hc, hname⟩
      obtain ⟨o, hfold, hgroups⟩ := hempty.foldlM hfree
      rw [List.nil_append] at hgroups
      have hnone : endpointsOf (vncConnections obj) (ascii "constructor") = [] := by
        rw [endpointsOf, List.map_eq_nil_iff, List.filter_eq_nil_iff]
        intro c hc heq
        exact hfree c hc (decide_eq_true_eq.mp heq ▸ hinherited)
      rw [vncEndpointsForContainer, vncEndpoints, hfold, Option.map_some,
        hgroups.get_inherited hinherited hnone] at hconstructor
      exact absurd hconstructor (by simp)
  · intro hno
    refine ⟨hwell, fun name hname => ?_⟩
    have hfree : ∀ name ∈ obj.containers, name ∉ objectPrototype := fun name hname hproto =>
      hno (eq_constructor (hnames name hname) hproto ▸ hname)
    obtain ⟨o, hfold, hgroups⟩ := hempty.foldlM fun c hc => hfree _ (hwell.valid c hc).2
    rw [List.nil_append] at hgroups
    rw [vncEndpointsForContainer, vncEndpoints, hfold, Option.map_some, hgroups.get (hfree name hname)]

/-- A pod that is served over VNC and says nothing of its endpoints. -/
def vncPod (containerName : String) : Pod where
  labels := fun key => if key = VNC_ENABLED_LABEL then some (ascii "true") else none
  annotations := fun _ => none
  containers := [ascii containerName]

theorem vncEndpoints_iff_web :
    WellFormed (vncPod "web") ∧ ∀ name ∈ (vncPod "web").containers, vncEndpointsForContainer (vncPod "web") name =
        some (.endpoints (endpointsOf (vncConnections (vncPod "web")) name)) :=
  (vncEndpoints_iff (by decide) (List.forall_mem_singleton.mpr (by decide))).mpr (by decide)

/-- The only container of a pod is named `constructor`: asking for its endpoints throws. -/
theorem vncEndpointsForContainer_constructor :
    isVncPod (vncPod "constructor") = true ∧ (∀ name ∈ (vncPod "constructor").containers, isDnsLabel name = true) ∧
      ascii "constructor" ∈ (vncPod "constructor").containers ∧
        vncEndpointsForContainer (vncPod "constructor") (ascii "constructor") = none :=
  ⟨by decide, List.forall_mem_singleton.mpr (by decide), List.mem_singleton_self _, rfl⟩

end OpenshiftConsole.Terminal.Endpoints
