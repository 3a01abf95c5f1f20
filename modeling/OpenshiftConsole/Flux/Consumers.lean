import OpenshiftConsole.Flux.Reconcile

/-!
# Who consumes a source

The tabs of a source list its consumers: the objects that refer to it, each found out in the browser
(`matchesReference`, `helmReleaseReferencesHelmChart`). The backend finds out the source of an object when that is to
be reconciled with it (`sourceOf`). Of well-typed objects the two say the same (`consumers_iff`), but for a release
with neither a chart nor a reference to one: for the backend it has the chart that its name would make.
-/

namespace OpenshiftConsole.Flux

open OpenshiftConsole.Library.Lines (Text)
open Backend

/-! ### The browser -/

/-- `v === s` for a string `s`. -/
def isString (v : Option Json) (s : Text) : Bool := asString v = some s

/-- `v || w` -/
def orElse (v w : Option Json) : Option Json := if truthy v then v else w

/-- `matchesReference` -/
def matchesReference (ref consumerNamespace : Option Json) (targetKind targetNamespace targetName : Text) : Bool :=
  if !truthy (field ref kindKey) || !truthy (field ref nameKey) then false
  else isString (field ref kindKey) targetKind && isString (field ref nameKey) targetName &&
    isString (orElse (field ref namespaceKey) consumerNamespace) targetNamespace

def metadataNamespacePath : List Text := ["metadata".toList, namespaceKey]
def metadataNamePath : List Text := ["metadata".toList, nameKey]

/-- `hr.metadata?.namespace || ''` -/
def namespaceOf (obj : Option Json) : Option Json := orElse (getPath obj metadataNamespacePath) (some (.string []))

/-- `impliedHelmChartRef`: a namespace and a name. -/
def impliedHelmChartRef (hr : Option Json) : Option (Option Json × Text) :=
  if truthy (getPath hr chartRefPath) then none
  else
    let sourceRef := getPath hr chartSourceRefPath
    let objNamespace := getPath hr metadataNamespacePath
    let name := getPath hr metadataNamePath
    if !truthy (field sourceRef kindKey) || !truthy objNamespace || !truthy name then none
    else some (orElse (field sourceRef namespaceKey) objNamespace, stringOr objNamespace ++ '-' :: stringOr name)

/-- `helmReleaseReferencesSource` -/
def helmReleaseReferencesSource (hr : Option Json) (targetKind targetNamespace targetName : Text) : Bool :=
  if matchesReference (getPath hr chartSourceRefPath) (namespaceOf hr) targetKind targetNamespace targetName then true
  else matchesReference (getPath hr chartRefPath) (namespaceOf hr) targetKind targetNamespace targetName

/-- `helmReleaseReferencesHelmChart` -/
def helmReleaseReferencesHelmChart (hr : Option Json) (targetNamespace targetName : Text) : Bool :=
  match impliedHelmChartRef hr with
  | some implied => isString implied.1 targetNamespace && implied.2 = targetName
  | none => matchesReference (getPath hr chartRefPath) (namespaceOf hr) "HelmChart".toList targetNamespace targetName

/-! ### What both take for granted -/

/-- A reference, or nothing. -/
structure IsRef (v : Option Json) : Prop where
  map : v = none ∨ v = some .null ∨ ∃ members, v = some (.object members)
  kind : IsText (field v kindKey)
  name : IsText (field v nameKey)
  objNamespace : IsText (field v namespaceKey)

/-- The object that a request is about, as its schema lets it be. -/
structure IsObject (target : Target) (obj : Option Json) : Prop where
  objNamespace : getPath obj metadataNamespacePath = some (.string target.objNamespace)
  name : getPath obj metadataNamePath = some (.string target.name)
  objNamespace_ne : target.objNamespace ≠ []
  name_ne : target.name ≠ []
  sourceRef : IsRef (getPath obj sourceRefPath)
  chartRef : IsRef (getPath obj chartRefPath)
  chartSourceRef : IsRef (getPath obj chartSourceRefPath)

variable {target : Target} {obj ref v : Option Json} {objNamespace kind name s : Text}

theorem isString_iff (h : IsText v) (hne : stringOr v ≠ []) : isString v s = true ↔ stringOr v = s := by
  rw [isString, decide_eq_true_eq, asString_eq_some]
  constructor
  · rintro rfl
    rfl
  · rintro rfl
    exact stringOr_of_ne h hne

/-- The namespace of a reference, or else the object's own. -/
theorem stringOr_orElse (h : IsText v) : stringOr (orElse v (some (.string objNamespace))) =
    if stringOr v = [] then objNamespace else stringOr v := by
  rw [orElse]
  by_cases hv : stringOr v = []
  · rw [if_pos hv, if_neg (by rw [truthy_iff h]; exact not_not.mpr hv)]
    rfl
  · rw [if_neg hv, if_pos ((truthy_iff h).mpr hv)]

theorem isText_orElse (h : IsText v) : IsText (orElse v (some (.string objNamespace))) := by
  rw [orElse]
  split
  · exact h
  · exact .inr (.inr ⟨objNamespace, rfl⟩)

/-- The browser finds what the backend makes of a reference. -/
theorem matchesReference_iff (href : IsRef ref) (hne : objNamespace ≠ []) {k ns n : Text} :
    matchesReference ref (some (.string objNamespace)) k ns n = true ↔
      (refOf ref).inNamespace objNamespace = some ⟨k, n, ns⟩ := by
  have hkind := truthy_iff href.kind
  have hname := truthy_iff href.name
  have hns := @stringOr_orElse _ objNamespace href.objNamespace
  rw [matchesReference, Ref.inNamespace]
  by_cases hmissing : (refOf ref).kind = [] ∨ (refOf ref).name = []
  · have hguard : (!truthy (field ref kindKey) || !truthy (field ref nameKey)) = true := by
      rw [Bool.or_eq_true, Bool.not_eq_true', Bool.not_eq_true', ← Bool.not_eq_true, ← Bool.not_eq_true, hkind, hname,
        not_not, not_not]
      exact hmissing
    rw [if_pos hguard, if_pos hmissing]
    simp
  · obtain ⟨hk, hn⟩ := not_or.mp hmissing
    have hguard : ¬(!truthy (field ref kindKey) || !truthy (field ref nameKey)) = true := by
      rw [Bool.or_eq_true, Bool.not_eq_true', Bool.not_eq_true', ← Bool.not_eq_true, ← Bool.not_eq_true, hkind, hname,
        not_not, not_not]
      exact hmissing
    have hfound : stringOr (orElse (field ref namespaceKey) (some (.string objNamespace))) ≠ [] := by
      rw [hns]
      split
      · exact hne
      · assumption
    rw [if_neg hguard, if_neg hmissing, Bool.and_eq_true, Bool.and_eq_true, isString_iff href.kind hk,
      isString_iff href.name hn, isString_iff (isText_orElse href.objNamespace) hfound, hns]
    rw [Option.some.injEq, Ref.mk.injEq, and_assoc]
    by_cases hempty : stringOr (field ref namespaceKey) = []
    · simp [refOf, hempty]
    · simp [refOf, hempty]

theorem namespaceOf_eq (hobj : IsObject target obj) : namespaceOf obj = some (.string target.objNamespace) := by
  rw [namespaceOf, hobj.objNamespace, orElse, if_pos]
  exact (truthy_iff (.inr (.inr ⟨_, rfl⟩))).mpr hobj.objNamespace_ne

/-- A reference that counts as true is a map. -/
theorem asMap_eq (h : IsRef ref) : asMap ref = if truthy ref then ref else none := by
  rcases h.map with rfl | rfl | ⟨members, rfl⟩ <;> rfl

theorem matchesReference_of_not_truthy (h : IsRef ref) (hfalse : ¬truthy ref = true) {k ns n : Text} :
    matchesReference ref v k ns n = false := by
  rcases h.map with rfl | rfl | ⟨members, rfl⟩
  · rfl
  · rfl
  · exact absurd rfl hfalse

def releaseKind : Text := "HelmRelease".toList
def chartKind : Text := "HelmChart".toList

/-- The source of a release: what its chart refers to, or the chart that is made of its template. -/
theorem sourceOf_release (hkind : target.kind = releaseKind) (hobj : IsObject target obj) : sourceOf target obj =
    if truthy (getPath obj chartRefPath) then (refOf (getPath obj chartRefPath)).inNamespace target.objNamespace
    else Ref.inNamespace ⟨chartKind, target.objNamespace ++ '-' :: target.name,
      stringOr (field (getPath obj chartSourceRefPath) namespaceKey)⟩ target.objNamespace := by
  have hone : ¬(target.kind = "Kustomization".toList ∨ target.kind = "HelmChart".toList) := by
    rw [hkind]
    decide
  have htwo : target.kind = "HelmRelease".toList := hkind
  have hlast : getPath obj (chartSourceRefPath ++ [namespaceKey]) =
      field (getPath obj chartSourceRefPath) namespaceKey := by
    rw [getPath, List.foldl_append]
    rfl
  rw [sourceOf, sourceRef, if_neg hone, if_pos htwo, Option.bind_some, asMap_eq hobj.chartRef, hlast]
  split
  · rename_i ref hmap
    split at hmap
    · rename_i htrue
      rw [if_pos htrue, hmap]
    · cases hmap
  · rename_i hmap
    split at hmap
    · rename_i htrue
      rw [hmap] at htrue
      cases htrue
    · rename_i hfalse
      rw [if_neg hfalse]
      rfl

/-- The source of the other objects that have one. -/
theorem sourceOf_other (hkind : target.kind = "Kustomization".toList ∨ target.kind = chartKind)
    (hobj : IsObject target obj) :
    sourceOf target obj = (refOf (getPath obj sourceRefPath)).inNamespace target.objNamespace := by
  have hone : target.kind = "Kustomization".toList ∨ target.kind = "HelmChart".toList := hkind
  rw [sourceOf, sourceRef, if_pos hone, Option.bind_some, asMap_eq hobj.sourceRef]
  split
  · rename_i ref hmap
    split at hmap
    · rw [hmap]
    · cases hmap
  · rename_i hmap
    split at hmap
    · rename_i htrue
      rw [hmap] at htrue
      cases htrue
    · rename_i hfalse
      rcases hobj.sourceRef.map with hv | hv | ⟨members, hv⟩
      · rw [hv]
        rfl
      · rw [hv]
        rfl
      · rw [hv] at hfalse
        exact absurd rfl hfalse

theorem chart_present (objNamespace name : Text) : ¬(chartKind = [] ∨ objNamespace ++ '-' :: name = []) := by
  rintro (h | h)
  · exact absurd h (by decide)
  · exact absurd (List.append_eq_nil_iff.mp h).2 (List.cons_ne_nil _ _)

/-- The browser's chart of a release without a reference to one. -/
theorem helmChart_implied (hkind : target.kind = releaseKind) (hobj : IsObject target obj)
    (hchart : ¬truthy (getPath obj chartRefPath) = true)
    (htemplate : truthy (field (getPath obj chartSourceRefPath) kindKey) = true) {ns n : Text} :
    helmReleaseReferencesHelmChart obj ns n = true ↔ sourceOf target obj = some ⟨chartKind, n, ns⟩ := by
  have hns : truthy (getPath obj metadataNamespacePath) = true := by
    rw [hobj.objNamespace]
    exact (truthy_iff (.inr (.inr ⟨_, rfl⟩))).mpr hobj.objNamespace_ne
  have hname : truthy (getPath obj metadataNamePath) = true := by
    rw [hobj.name]
    exact (truthy_iff (.inr (.inr ⟨_, rfl⟩))).mpr hobj.name_ne
  have himplied : impliedHelmChartRef obj = some (orElse (field (getPath obj chartSourceRefPath) namespaceKey)
      (some (.string target.objNamespace)), target.objNamespace ++ '-' :: target.name) := by
    rw [impliedHelmChartRef, if_neg hchart]
    simp only [htemplate, hns, hname, Bool.not_true, Bool.or_self, Bool.false_eq_true, if_false]
    rw [hobj.objNamespace, hobj.name]
    rfl
  have htext := hobj.chartSourceRef.objNamespace
  have hfound : stringOr (orElse (field (getPath obj chartSourceRefPath) namespaceKey)
      (some (.string target.objNamespace))) ≠ [] := by
    rw [stringOr_orElse htext]
    split
    · exact hobj.objNamespace_ne
    · assumption
  rw [helmReleaseReferencesHelmChart, himplied, sourceOf_release hkind hobj, if_neg hchart, Ref.inNamespace,
    if_neg (chart_present target.objNamespace target.name)]
  dsimp only
  rw [Bool.and_eq_true, isString_iff (isText_orElse htext) hfound, stringOr_orElse htext, decide_eq_true_eq,
    Option.some.injEq, Ref.mk.injEq]
  constructor
  · rintro ⟨hns, hn⟩
    exact ⟨rfl, hn, hns⟩
  · rintro ⟨-, hn, hns⟩
    exact ⟨hns, hn⟩

/-- What the browser and the backend say of a release's chart is the same, if the release has a reference to it or
makes it of a template; without either it is never the same. -/
theorem helmChart_iff (hkind : target.kind = releaseKind) (hobj : IsObject target obj) :
    (∀ ns n, helmReleaseReferencesHelmChart obj ns n = true ↔ sourceOf target obj = some ⟨chartKind, n, ns⟩) ↔
      truthy (getPath obj chartRefPath) = true ∨ truthy (field (getPath obj chartSourceRefPath) kindKey) = true := by
  by_cases hchart : truthy (getPath obj chartRefPath) = true
  · refine iff_of_true (fun ns n => ?_) (.inl hchart)
    have himplied : impliedHelmChartRef obj = none := if_pos hchart
    rw [helmReleaseReferencesHelmChart, himplied, namespaceOf_eq hobj, sourceOf_release hkind hobj, if_pos hchart]
    exact matchesReference_iff hobj.chartRef hobj.objNamespace_ne
  · by_cases htemplate : truthy (field (getPath obj chartSourceRefPath) kindKey) = true
    · exact iff_of_true (fun ns n => helmChart_implied hkind hobj hchart htemplate) (.inr htemplate)
    · refine iff_of_false (fun hsame => ?_) (not_or.mpr ⟨hchart, htemplate⟩)
      -- the backend has a chart, the browser has none
      have hsource := sourceOf_release hkind hobj
      rw [if_neg hchart, Ref.inNamespace, if_neg (chart_present target.objNamespace target.name)] at hsource
      have hbrowser := (hsame _ _).mpr hsource
      have himplied : impliedHelmChartRef obj = none := by
        rw [impliedHelmChartRef, if_neg hchart]
        simp [htemplate]
      rw [helmReleaseReferencesHelmChart, himplied] at hbrowser
      dsimp only at hbrowser
      rw [matchesReference_of_not_truthy hobj.chartRef hchart] at hbrowser
      cases hbrowser

/-- The browser and the backend say the same of who consumes what. -/
theorem consumers_iff (hobj : IsObject target obj) :
    (target.kind = "Kustomization".toList ∨ target.kind = chartKind → ∀ k ns n,
      matchesReference (getPath obj sourceRefPath) (namespaceOf obj) k ns n = true ↔
        sourceOf target obj = some ⟨k, n, ns⟩) ∧
    (target.kind = releaseKind →
      ((∀ ns n, helmReleaseReferencesHelmChart obj ns n = true ↔ sourceOf target obj = some ⟨chartKind, n, ns⟩) ↔
        truthy (getPath obj chartRefPath) = true ∨ truthy (field (getPath obj chartSourceRefPath) kindKey) = true) ∧
      ∀ k ns n, helmReleaseReferencesSource obj k ns n = true ↔
        (refOf (getPath obj chartSourceRefPath)).inNamespace target.objNamespace = some ⟨k, n, ns⟩ ∨
          (truthy (getPath obj chartRefPath) = true ∧ sourceOf target obj = some ⟨k, n, ns⟩)) := by
  refine ⟨fun hkind k ns n => ?_, fun hkind => ⟨helmChart_iff hkind hobj, fun k ns n => ?_⟩⟩
  · rw [namespaceOf_eq hobj, sourceOf_other hkind hobj]
    exact matchesReference_iff hobj.sourceRef hobj.objNamespace_ne
  · have htemplate := @matchesReference_iff _ _ hobj.chartSourceRef hobj.objNamespace_ne k ns n
    rw [helmReleaseReferencesSource, namespaceOf_eq hobj, Bool.if_true_left, Bool.or_eq_true, decide_eq_true_eq,
      htemplate]
    refine or_congr Iff.rfl ?_
    by_cases hchart : truthy (getPath obj chartRefPath) = true
    · rw [sourceOf_release hkind hobj, if_pos hchart, matchesReference_iff hobj.chartRef hobj.objNamespace_ne]
      exact (and_iff_right hchart).symm
    · rw [matchesReference_of_not_truthy hobj.chartRef hchart]
      exact iff_of_false Bool.false_ne_true fun h => hchart h.1

/-- The release `n/r`, with a template that refers to the repository `g`. -/
def oneRelease : Json :=
  .object [("metadata".toList, .object [(namespaceKey, .string ['n']), (nameKey, .string ['r'])]),
    ("spec".toList, .object [("chart".toList, .object [("spec".toList, .object [("sourceRef".toList,
      .object [(kindKey, .string "GitRepository".toList), (nameKey, .string ['g'])])])])])]

theorem isObject_oneRelease : IsObject oneTarget (some oneRelease) where
  objNamespace := rfl
  name := rfl
  objNamespace_ne := List.cons_ne_nil _ _
  name_ne := List.cons_ne_nil _ _
  sourceRef := ⟨.inl rfl, .inl rfl, .inl rfl, .inl rfl⟩
  chartRef := ⟨.inl rfl, .inl rfl, .inl rfl, .inl rfl⟩
  chartSourceRef := ⟨.inr (.inr ⟨_, rfl⟩), .inr (.inr ⟨_, rfl⟩), .inr (.inr ⟨_, rfl⟩), .inl rfl⟩

theorem consumers_iff_release : helmReleaseReferencesHelmChart (some oneRelease) ['n'] ['n', '-', 'r'] = true ↔
    sourceOf oneTarget (some oneRelease) = some ⟨chartKind, ['n', '-', 'r'], ['n']⟩ :=
  ((consumers_iff isObject_oneRelease).2 rfl).1.mpr (.inr rfl) ['n'] ['n', '-', 'r']

end OpenshiftConsole.Flux
