import Mathlib.Data.List.Basic
import OpenshiftConsole.Library.Lines
import OpenshiftConsole.Library.Runs

/-!
# The synchronizer's node labels

`syncNode` reads a node from the lister's cache, decides which of two labels to set, and sends
them in a merge patch. A label that another field manager owns, by the node's `managedFields`,
is not to be touched. The cache may be behind the API server, the backend that is asked for an
instance type takes its time, and the patch names no version of the node: it applies to whatever
the node has become.

A state holds the node as the server has it, its versions that are still on their way to the
cache, the cache, and how far `syncNode` got; a workqueue never works twice on one node at a
time. Others may write anything at any time. What the server records in `managedFields` for a
patch is its own business, and is part of the event.

A patch leaves alone what others own at that moment if and only if whatever they own of the two
labels they owned in the version that was read, or the label has, or had there, the wanted value,
or no value is wanted (`keeps_iff_stillOwned`).
-/

namespace OpenshiftConsole.Synchronizer.NodeLabels

open OpenshiftConsole.Library.Lines (Text)
open OpenshiftConsole.Library.Runs

/-! ### Nodes and their managers -/

/-- A JSON value, as far as it is an object. -/
inductive Json where
  | object (fields : List (Text × Json))
  /-- No object, or not JSON. -/
  | other

/-- `json.Unmarshal` into a `map[string]json.RawMessage`, and the map's entry for a key: the last one counts. -/
def Json.field (key : Text) : Json → Option Json
  | .object fields => fields.reverse.lookup key
  | .other => none

/-- An entry of `managedFields`. -/
structure ManagedFieldsEntry where
  manager : Text
  fieldsV1 : Option Json

structure Node where
  name : Text
  labels : Text → Option Text
  managedFields : List ManagedFieldsEntry

/-- `node.Labels[label]` -/
def Node.label (node : Node) (label : Text) : Text := (node.labels label).getD []

/-- `fieldManager` -/
def fieldManager : Text := "openshift-synchronizer".toList

/-- `instanceTypeSourceLabel` -/
def instanceTypeSourceLabel : Text := "openshift.io/instance-type".toList

/-- `instanceTypeTargetLabel` -/
def instanceTypeTargetLabel : Text := "beta.kubernetes.io/instance-type".toList

/-- `zoneSourceLabel` -/
def zoneSourceLabel : Text := "topology.openshift.io/zone".toList

/-- `zoneTargetLabel` -/
def zoneTargetLabel : Text := "topology.kubernetes.io/zone".toList

/-- The entry claims the label. -/
def ManagedFieldsEntry.claims (mf : ManagedFieldsEntry) (label : Text) : Bool :=
  (mf.fieldsV1.bind fun raw =>
    (raw.field "f:metadata".toList).bind fun metadata =>
      (metadata.field "f:labels".toList).bind fun labels => labels.field ("f:".toList ++ label)).isSome

/-- `isLabelManagedByOthers` -/
def isLabelManagedByOthers (node : Node) (label : Text) : Bool :=
  node.managedFields.any fun mf => mf.manager ≠ fieldManager && mf.claims label

/-! ### The values of the labels -/

/-- The characters that `labelValueInvalidChars` leaves. -/
def labelChar (c : Char) : Bool :=
  ('A' ≤ c ∧ c ≤ 'Z') ∨ ('a' ≤ c ∧ c ≤ 'z') ∨ ('0' ≤ c ∧ c ≤ '9') ∨ c = '_' ∨ c = '.' ∨ c = '-'

/-- `labelValueInvalidChars.ReplaceAllString(s, "-")`; `inRun` after an invalid character. -/
def replaceInvalid : Bool → Text → Text
  | _, [] => []
  | inRun, c :: cs =>
    if labelChar c then c :: replaceInvalid false cs
    else if inRun then replaceInvalid true cs
    else '-' :: replaceInvalid true cs

/-- The cutset `-_.`. -/
def inCutset (c : Char) : Bool := c = '-' ∨ c = '_' ∨ c = '.'

/-- `strings.TrimRight(s, "-_.")` -/
def trimRight (s : Text) : Text := (s.reverse.dropWhile inCutset).reverse

/-- `strings.Trim(s, "-_.")` -/
def trim (s : Text) : Text := trimRight (s.dropWhile inCutset)

/-- `sanitizeLabelValue` -/
def sanitizeLabelValue (s : Text) : Text :=
  let s := trim (replaceInvalid false s)
  if s.length > 63 then trimRight (s.take 63) else s

/-- `instanceTypeFromDMI` -/
def instanceTypeFromDMI (metric : Text → Text) : Text :=
  if metric "board_vendor".toList ≠ "KVM".toList then
    sanitizeLabelValue (List.intercalate ['-']
      [metric "board_vendor".toList, metric "board_name".toList, metric "bios_release".toList])
  else sanitizeLabelValue (List.intercalate ['-'] [metric "system_vendor".toList, metric "product_name".toList])

/-- What the backend says, if it is asked. -/
inductive Answer where
  /-- The request fails, or what comes back cannot be read. -/
  | failed
  | answered (status : Text) (result : List (Text → Text))

/-- `instanceTypeFromPrometheus`; an error gives no value. -/
def instanceTypeFromPrometheus : Answer → Text
  | .failed => []
  | .answered status result =>
    if status ≠ "success".toList then []
    else
      match result with
      | [metric] => instanceTypeFromDMI metric
      | _ => []

/-- `desiredInstanceType` -/
def desiredInstanceType (prometheusURL : Text) (answer : Answer) (node : Node) : Text :=
  if node.label instanceTypeSourceLabel ≠ [] then node.label instanceTypeSourceLabel
  else if prometheusURL = [] then []
  else instanceTypeFromPrometheus answer

/-- A label that `syncNode` takes care of, and the value it is to have. -/
structure Target where
  label : Text
  value : Text

/-- The two labels and their values, for a node. -/
def targets (prometheusURL : Text) (answer : Answer) (node : Node) : List Target :=
  [⟨instanceTypeTargetLabel, desiredInstanceType prometheusURL answer node⟩,
    ⟨zoneTargetLabel, node.label zoneSourceLabel⟩]

/-- Whether `syncNode` puts a label into `toApply`. -/
def applies (node : Node) (t : Target) : Bool :=
  !isLabelManagedByOthers node t.label && t.value ≠ [] && node.label t.label ≠ t.value

/-- `toApply` -/
def toApply (prometheusURL : Text) (answer : Answer) (node : Node) : List (Text × Text) :=
  ((targets prometheusURL answer node).filter (applies node)).map fun t => (t.label, t.value)

/-- A merge patch of the labels. -/
def mergePatch (patch : List (Text × Text)) (labels : Text → Option Text) (label : Text) : Option Text :=
  (patch.lookup label).orElse fun _ => labels label

/-! ### Runs -/

/-- An error of `syncNode`: `fmt.Errorf("<during> %q: %w", name, cause)`. -/
structure Error where
  during : Text
  name : Text
  cause : Text

/-- How far `syncNode` got. -/
inductive Sync where
  /-- It has returned. -/
  | idle (err : Option Error)
  /-- It has read the node. -/
  | deciding (node : Node)
  /-- It has sent a patch, for the node that it read and what it was answered. -/
  | patching (node : Node) (answer : Answer)

structure State where
  /-- The node as the API server has it. -/
  server : Option Node
  /-- Its versions that the lister's cache does not know yet. -/
  pending : List (Option Node)
  cache : Option Node
  sync : Sync

inductive Event where
  /-- Others write the node, or remove it. -/
  | write (node : Option Node)
  /-- The cache learns of a version, and skips those before it. -/
  | deliver (i : ℕ)
  /-- `syncNode` reads the node from the cache. -/
  | read
  /-- The lister fails. -/
  | readFails (cause : Text)
  /-- `syncNode` decides, with what it was answered. -/
  | decide (answer : Answer)
  /-- The patch is applied. -/
  | patched (managedFields : List ManagedFieldsEntry)
  /-- The patch is not applied. -/
  | patchFails (cause : Text)

def init : State where
  server := none
  pending := []
  cache := none
  sync := .idle none

variable (prometheusURL name : Text)

/-- The node after the patch of a `syncNode`. -/
def patchedNode (current node : Node) (answer : Answer) (managedFields : List ManagedFieldsEntry) : Node :=
  { current with labels := mergePatch (toApply prometheusURL answer node) current.labels, managedFields }

def step (s : State) : Event → Option State
  | .write node => some { s with server := node, pending := s.pending ++ [node] }
  | .deliver i =>
    match s.pending[i]? with
    | none => none
    | some node => some { s with cache := node, pending := s.pending.drop (i + 1) }
  | .read =>
    match s.sync, s.cache with
    | .idle _, none => some { s with sync := .idle none }
    | .idle _, some node => some { s with sync := .deciding node }
    | _, _ => none
  | .readFails cause =>
    match s.sync with
    | .idle _ => some { s with sync := .idle (some ⟨"get node".toList, name, cause⟩) }
    | _ => none
  | .decide answer =>
    match s.sync with
    | .deciding node =>
      some { s with sync := if toApply prometheusURL answer node = [] then .idle none else .patching node answer }
    | _ => none
  | .patched managedFields =>
    match s.sync, s.server with
    | .patching node answer, some current =>
      let patched := patchedNode prometheusURL current node answer managedFields
      some { s with server := some patched, pending := s.pending ++ [some patched], sync := .idle none }
    | _, _ => none
  | .patchFails cause =>
    match s.sync with
    | .patching _ _ => some { s with sync := .idle (some ⟨"patch labels on node".toList, name, cause⟩) }
    | _ => none

/-! ### What a patch may touch -/

/-- A manager other than the synchronizer owns the label. -/
def OwnedByOthers (node : Node) (label : Text) : Prop :=
  ∃ mf ∈ node.managedFields, mf.manager ≠ fieldManager ∧ ∃ raw metadata labels claim, mf.fieldsV1 = some raw ∧
    raw.field "f:metadata".toList = some metadata ∧ metadata.field "f:labels".toList = some labels ∧
      labels.field ("f:".toList ++ label) = some claim

/-- A patch does not change a label that others own at that moment. -/
def Keeps (s : State) (e : Event) (s' : State) : Prop :=
  ∀ managedFields, e = .patched managedFields → ∀ node node', s.server = some node → s'.server = some node' →
    ∀ label, OwnedByOthers node label → node'.labels label = node.labels label

/-- What others own of the two labels when the patch is applied, they owned already when the node was
read; or there was and is nothing to change. -/
def StillOwned (s : State) (e : Event) (_ : State) : Prop :=
  ∀ managedFields, e = .patched managedFields → ∀ read answer current, s.sync = .patching read answer →
    s.server = some current → ∀ t ∈ targets prometheusURL answer read, OwnedByOthers current t.label →
      OwnedByOthers read t.label ∨ t.value = [] ∨ read.label t.label = t.value ∨ current.labels t.label = some t.value

theorem claims_iff (mf : ManagedFieldsEntry) (label : Text) :
    mf.claims label ↔ ∃ raw metadata labels claim, mf.fieldsV1 = some raw ∧
      raw.field "f:metadata".toList = some metadata ∧ metadata.field "f:labels".toList = some labels ∧
        labels.field ("f:".toList ++ label) = some claim := by
  unfold ManagedFieldsEntry.claims
  rw [Option.isSome_iff_exists]
  constructor
  · rintro ⟨claim, h⟩
    obtain ⟨raw, hr, h⟩ := Option.bind_eq_some_iff.mp h
    obtain ⟨metadata, hm, h⟩ := Option.bind_eq_some_iff.mp h
    obtain ⟨labels, hl, h⟩ := Option.bind_eq_some_iff.mp h
    exact ⟨raw, metadata, labels, claim, hr, hm, hl, h⟩
  · rintro ⟨raw, metadata, labels, claim, hr, hm, hl, h⟩
    refine ⟨claim, ?_⟩
    rw [hr, Option.bind_some, hm, Option.bind_some, hl, Option.bind_some, h]

/-- `isLabelManagedByOthers` finds exactly what others own. -/
theorem isLabelManagedByOthers_iff (node : Node) (label : Text) :
    isLabelManagedByOthers node label ↔ OwnedByOthers node label := by
  unfold isLabelManagedByOthers OwnedByOthers
  rw [List.any_eq_true]
  simp only [Bool.and_eq_true, decide_eq_true_eq, ← claims_iff]

theorem applies_iff {node : Node} {t : Target} :
    applies node t ↔ ¬ OwnedByOthers node t.label ∧ t.value ≠ [] ∧ node.label t.label ≠ t.value := by
  unfold applies
  rw [← isLabelManagedByOthers_iff]
  simp [and_assoc]

variable {prometheusURL name : Text} {answer : Answer} {node : Node}

theorem target_label {t t' : Target} (ht : t ∈ targets prometheusURL answer node)
    (ht' : t' ∈ targets prometheusURL answer node) (h : t.label = t'.label) : t = t' := by
  have hne : instanceTypeTargetLabel ≠ zoneTargetLabel := by decide
  simp only [targets, List.mem_cons, List.not_mem_nil, or_false] at ht ht'
  rcases ht with rfl | rfl <;> rcases ht' with rfl | rfl
  · rfl
  · exact absurd h hne
  · exact absurd h.symm hne
  · rfl

/-- The patch sets the labels of the targets that apply, to their values. -/
theorem lookup_toApply {label value : Text} :
    (toApply prometheusURL answer node).lookup label = some value ↔
      ∃ t ∈ targets prometheusURL answer node, applies node t ∧ t.label = label ∧ t.value = value := by
  constructor
  · intro h
    obtain ⟨l, r, he, -⟩ := List.lookup_eq_some_iff.mp h
    have hm : (label, value) ∈ toApply prometheusURL answer node := by simp [he]
    obtain ⟨t, ht, hv⟩ := List.mem_map.mp hm
    obtain ⟨htt, ha⟩ := List.mem_filter.mp ht
    exact ⟨t, htt, ha, congrArg Prod.fst hv, congrArg Prod.snd hv⟩
  · rintro ⟨t, ht, ha, rfl, rfl⟩
    rcases h : (toApply prometheusURL answer node).lookup t.label with _ | value
    · have hm : (t.label, t.value) ∈ toApply prometheusURL answer node :=
        List.mem_map.mpr ⟨t, List.mem_filter.mpr ⟨ht, ha⟩, rfl⟩
      have hne := List.lookup_eq_none_iff.mp h _ hm
      simp at hne
    · obtain ⟨l, r, he, -⟩ := List.lookup_eq_some_iff.mp h
      have hm : (t.label, value) ∈ toApply prometheusURL answer node := by simp [he]
      obtain ⟨t', ht', hv⟩ := List.mem_map.mp hm
      obtain rfl := target_label (List.mem_filter.mp ht').1 ht (congrArg Prod.fst hv)
      obtain rfl : _ = value := congrArg Prod.snd hv
      rfl

theorem step_patched {s s' : State} {managedFields : List ManagedFieldsEntry}
    (h : step prometheusURL name s (.patched managedFields) = some s') :
    ∃ read answer current, s.sync = .patching read answer ∧ s.server = some current ∧
      s'.server = some (patchedNode prometheusURL current read answer managedFields) := by
  simp only [step] at h
  split at h
  · rename_i read answer current hs hc
    obtain rfl := Option.some_inj.mp h
    exact ⟨read, answer, current, hs, hc, rfl⟩
  · cases h

/-- What a patch leaves of a label. -/
theorem patchedNode_label_iff {current read : Node} {managedFields : List ManagedFieldsEntry} {label : Text} :
    (patchedNode prometheusURL current read answer managedFields).labels label = current.labels label ↔
      ∀ t ∈ targets prometheusURL answer read, applies read t → t.label = label → current.labels label = some t.value := by
  have hl : (patchedNode prometheusURL current read answer managedFields).labels label =
      ((toApply prometheusURL answer read).lookup label).orElse fun _ => current.labels label := rfl
  rcases h : (toApply prometheusURL answer read).lookup label with _ | value
  · rw [hl, h, Option.orElse_none, eq_self, true_iff]
    intro t ht ha hl
    rw [lookup_toApply.mpr ⟨t, ht, ha, hl, rfl⟩] at h
    cases h
  · rw [hl, h, Option.orElse_some]
    obtain ⟨t, ht, ha, rfl, rfl⟩ := lookup_toApply.mp h
    constructor
    · intro he t' ht' _ hl
      rw [target_label ht' ht hl, he]
    · intro he
      rw [he t ht ha rfl]

/-- **When a patch leaves alone what others own.** -/
theorem keeps_iff_stillOwned {s s' : State} {e : Event} (h : step prometheusURL name s e = some s') :
    Keeps s e s' ↔ StillOwned prometheusURL s e s' := by
  constructor
  · intro hk managedFields he read answer current hs hc t ht howned
    subst he
    obtain ⟨read', answer', current', hs', hc', hn⟩ := step_patched h
    obtain ⟨rfl, rfl⟩ : read' = read ∧ answer' = answer := by simpa [hs] using hs'.symm
    obtain rfl := Option.some_inj.mp (hc'.symm.trans hc)
    have hlabel := patchedNode_label_iff.mp (hk managedFields rfl _ _ hc hn t.label howned) t ht
    by_contra hnot
    simp only [not_or] at hnot
    obtain ⟨h1, h2, h3, h4⟩ := hnot
    exact h4 (hlabel (applies_iff.mpr ⟨h1, h2, h3⟩) rfl)
  · intro hso managedFields he current node' hc hc' label howned
    subst he
    obtain ⟨read, answer, current', hs, hc'', hn⟩ := step_patched h
    obtain rfl := Option.some_inj.mp (hc''.symm.trans hc)
    obtain rfl := Option.some_inj.mp (hn.symm.trans hc')
    rw [patchedNode_label_iff]
    rintro t ht ha rfl
    obtain ⟨h1, h2, h3⟩ := applies_iff.mp ha
    rcases hso managedFields rfl read answer current' hs hc t ht howned with h | h | h | h
    · exact absurd h h1
    · exact absurd h h2
    · exact absurd h h3
    · exact h

/-- **When no patch of a run changes what others own.** -/
theorem along_keeps_iff (prometheusURL name : Text) (s : State) (es : List Event) :
    Along (step prometheusURL name) Keeps s es ↔
      Along (step prometheusURL name) (StillOwned prometheusURL) s es := by
  apply Along.congr
  intro u e u' h
  exact keeps_iff_stillOwned h

/-- A node with an instance type of OpenShift's. -/
def openshiftNode : Node where
  name := ['n']
  labels := fun label => if label = instanceTypeSourceLabel then some ['a'] else none
  managedFields := []

/-- The node after a cloud provider set its own. -/
def cloudNode : Node where
  name := ['n']
  labels := fun label => if label = instanceTypeTargetLabel then some ['b'] else openshiftNode.labels label
  managedFields := [⟨"cloud".toList, some (.object [("f:metadata".toList,
    .object [("f:labels".toList, .object [("f:".toList ++ instanceTypeTargetLabel, .object [])])])])⟩]

/-- The cloud provider writes while the synchronizer decides. -/
def overtaken : List Event :=
  [.write (some openshiftNode), .deliver 0, .read, .write (some cloudNode), .decide .failed, .patched []]

theorem not_keeps_overtaken : ¬ ∀ prometheusURL name es, Along (step prometheusURL name) Keeps init es := by
  intro h
  have hk : some ['a'] = some ['b'] := (h [] ['n'] overtaken).at (l := overtaken.take 5) (r := []) rfl rfl [] rfl _ _ rfl rfl instanceTypeTargetLabel
    ⟨_, List.mem_cons_self, by decide, _, _, _, _, rfl, rfl, rfl, by simp [Json.field]; rfl⟩
  cases hk

end OpenshiftConsole.Synchronizer.NodeLabels
