import OpenshiftConsole.Backend.Objects
import OpenshiftConsole.Library.Fields

/-!
# The host names of an object

A host name of an object is a part of it, by its kind, or is in an annotation for external-dns. The backend of the
certificates finds them in Go (`hostsOf`), and the browser's tab of the DNS settings in TypeScript (`browserHosts`). Of
an object as its schema lets it be the two find the same, but for a `DNSEndpoint`: there the browser looks at no
annotations. So the two agree exactly if these say nothing new (`hostsOf_iff`).
-/

namespace OpenshiftConsole.CertManager

open OpenshiftConsole.Library
open OpenshiftConsole.Library.Lines (Text)
open Backend

/-! ### Lists of names -/

/-- The loop of `uniqStrings`, and of `uniq`. -/
def uniqFrom (seen : List Text) : List Text → List Text
  | [] => []
  | s :: l => if s = [] ∨ s ∈ seen then uniqFrom seen l else s :: uniqFrom (s :: seen) l

/-- `uniqStrings` -/
def uniqStrings (l : List Text) : List Text := uniqFrom [] l

/-- A text without the characters of a kind at its ends. -/
def trim (space : Char → Bool) (s : Text) : Text := ((s.dropWhile space).reverse.dropWhile space).reverse

/-- `splitAnnotationHostnames`, which trims in its language's way. -/
def splitAnnotationHostnames (space : Char → Bool) (v : Text) : List Text :=
  ((v.splitOn ',').map (trim space)).filter (· ≠ [])

/-- The white space of `trim` in JavaScript. -/
def isJsSpace (c : Char) : Bool := (isSpace c && c.toNat ≠ 0x85) || c.toNat = 0xfeff

/-! ### The backend -/

/-- `asObjectSlice` -/
def asObjectSlice : Option Json → List Json
  | some (.array items) => items.filter fun item => (asMap (some item)).isSome
  | _ => []

/-- `asStringSlice` -/
def asStringSlice : Option Json → List Text
  | some (.array items) => (items.filterMap fun item => asString (some item)).filter (· ≠ [])
  | _ => []

def rulesPath : List Text := ["spec".toList, "rules".toList]
def tlsPath : List Text := ["spec".toList, "tls".toList]
def ingressPath : List Text := ["status".toList, "loadBalancer".toList, "ingress".toList]
def hostnamesPath : List Text := ["spec".toList, "hostnames".toList]
def endpointsPath : List Text := ["spec".toList, "endpoints".toList]
def hostKey : Text := "host".toList
def hostsKey : Text := "hosts".toList
def hostnameKey : Text := "hostname".toList
def ipKey : Text := "ip".toList
def dnsNameKey : Text := "dnsName".toList

/-- `hostnamesForIngressObj` -/
def hostnamesForIngressObj (obj : Option Json) : List Text :=
  uniqStrings (((asObjectSlice (getPath obj rulesPath)).filterMap fun rule => asString (field (some rule) hostKey)) ++
    (asObjectSlice (getPath obj tlsPath)).flatMap fun tls => asStringSlice (field (some tls) hostsKey))

/-- An entry of `status.loadBalancer.ingress`. -/
def ingressHost (ing : Json) : Option Text :=
  if stringOr (field (some ing) hostnameKey) ≠ [] then asString (field (some ing) hostnameKey)
  else asString (field (some ing) ipKey)

/-- `hostnamesForServiceObj` -/
def hostnamesForServiceObj (obj : Option Json) : List Text :=
  uniqStrings ((asObjectSlice (getPath obj ingressPath)).filterMap ingressHost)

/-- `hostnamesForRouteObj` -/
def hostnamesForRouteObj (obj : Option Json) : List Text := uniqStrings (asStringSlice (getPath obj hostnamesPath))

/-- `hostnamesForDNSEndpointObj` -/
def hostnamesForDNSEndpointObj (obj : Option Json) : List Text :=
  uniqStrings ((asObjectSlice (getPath obj endpointsPath)).filterMap fun ep => asString (field (some ep) dnsNameKey))

/-- `noStructuralHostnames` -/
def noStructuralHostnames (_ : Option Json) : List Text := []

/-- `kindEntry` -/
structure KindEntry where
  plural : Text
  namespaced : Bool
  hostnames : Option Json → List Text

/-- `kindRegistry` -/
def kindRegistry : List (Text × KindEntry) :=
  [("Ingress".toList, ⟨"ingresses".toList, true, hostnamesForIngressObj⟩),
    ("Service".toList, ⟨"services".toList, true, hostnamesForServiceObj⟩),
    ("HTTPRoute".toList, ⟨"httproutes".toList, true, hostnamesForRouteObj⟩),
    ("TLSRoute".toList, ⟨"tlsroutes".toList, true, hostnamesForRouteObj⟩),
    ("GRPCRoute".toList, ⟨"grpcroutes".toList, true, hostnamesForRouteObj⟩),
    ("TCPRoute".toList, ⟨"tcproutes".toList, true, noStructuralHostnames⟩),
    ("UDPRoute".toList, ⟨"udproutes".toList, true, noStructuralHostnames⟩),
    ("DNSEndpoint".toList, ⟨"dnsendpoints".toList, true, hostnamesForDNSEndpointObj⟩),
    ("Node".toList, ⟨"nodes".toList, false, noStructuralHostnames⟩)]

def annotationsPath : List Text := ["metadata".toList, "annotations".toList]
def hostnameAnnotationKey : Text := "external-dns.alpha.kubernetes.io/hostname".toList
def internalHostnameAnnotationKey : Text := "external-dns.alpha.kubernetes.io/internal-hostname".toList
def excludeAnnotationKey : Text := "external-dns.alpha.kubernetes.io/exclude".toList

/-- The names of one annotation. -/
def annotated (annotations : Option Json) (key : Text) : List Text :=
  match asString (field annotations key) with
  | some v => splitAnnotationHostnames isSpace v
  | none => []

/-- `annotationHostnames`; `none` if the object is excluded. -/
def annotationHostnames (obj : Option Json) : Option (List Text) :=
  let annotations := getPath obj annotationsPath
  if stringOr (field annotations excludeAnnotationKey) = "true".toList then none
  else some (annotated annotations hostnameAnnotationKey ++ annotated annotations internalHostnameAnnotationKey)

/-- The host names that `certInfoForObject` probes; none of an object that is excluded. -/
def hostsOf (entry : KindEntry) (obj : Option Json) : List Text :=
  match annotationHostnames obj with
  | none => []
  | some annotHosts => uniqStrings (entry.hostnames obj ++ annotHosts)

/-! ### The browser

It is given objects of a type: a host name is a string or is missing, and `uniq` leaves out one that is missing as it
leaves out the empty one. -/

/-- `v || []`, for an array or nothing. -/
def itemsOf : Option Json → List Json
  | some (.array items) => items
  | _ => []

/-- The names of one annotation. -/
def jsAnnotated (annotations : Option Json) (key : Text) : List Text :=
  if truthy (field annotations key) then splitAnnotationHostnames isJsSpace (stringOr (field annotations key)) else []

/-- `annotationHostnames`, the browser's. -/
def jsAnnotationHostnames (obj : Option Json) : Option (List Text) :=
  let annotations := getPath obj annotationsPath
  if asString (field annotations excludeAnnotationKey) = some "true".toList then none
  else some (jsAnnotated annotations hostnameAnnotationKey ++ jsAnnotated annotations internalHostnameAnnotationKey)

/-- `withAnnotations` -/
def withAnnotations (structuralHosts : List Text) (obj : Option Json) : List Text :=
  match jsAnnotationHostnames obj with
  | none => []
  | some annotationHosts => uniqStrings (structuralHosts ++ annotationHosts)

/-- `hostnamesForIngress` -/
def hostnamesForIngress (obj : Option Json) : List Text :=
  withAnnotations (((itemsOf (getPath obj rulesPath)).map fun rule => stringOr (field (some rule) hostKey)) ++
    (itemsOf (getPath obj tlsPath)).flatMap fun tls =>
      (itemsOf (field (some tls) hostsKey)).map fun host => stringOr (some host)) obj

/-- `ing.hostname || ing.ip` -/
def jsIngressHost (ing : Json) : Option Json :=
  if truthy (field (some ing) hostnameKey) then field (some ing) hostnameKey else field (some ing) ipKey

/-- `hostnamesForService` -/
def hostnamesForService (obj : Option Json) : List Text :=
  withAnnotations ((itemsOf (getPath obj ingressPath)).map fun ing => stringOr (jsIngressHost ing)) obj

/-- `hostnamesForRoute` -/
def hostnamesForRoute (obj : Option Json) : List Text :=
  withAnnotations ((itemsOf (getPath obj hostnamesPath)).map fun host => stringOr (some host)) obj

/-- `hostnamesForTCPOrUDPRoute` and `hostnamesForNode` -/
def hostnamesForAnnotated (obj : Option Json) : List Text := withAnnotations [] obj

/-- `hostnamesForDNSEndpoint` -/
def hostnamesForDNSEndpoint (obj : Option Json) : List Text :=
  uniqStrings ((itemsOf (getPath obj endpointsPath)).map fun ep => stringOr (field (some ep) dnsNameKey))

/-- The tabs of the DNS settings, by the kind. -/
def browserHosts : List (Text × (Option Json → List Text)) :=
  [("Ingress".toList, hostnamesForIngress), ("Service".toList, hostnamesForService),
    ("HTTPRoute".toList, hostnamesForRoute), ("TLSRoute".toList, hostnamesForRoute),
    ("GRPCRoute".toList, hostnamesForRoute), ("TCPRoute".toList, hostnamesForAnnotated),
    ("UDPRoute".toList, hostnamesForAnnotated), ("DNSEndpoint".toList, hostnamesForDNSEndpoint),
    ("Node".toList, hostnamesForAnnotated)]

/-! ### What both take for granted -/

/-- An array, each of whose items is as it should be, or nothing. -/
def IsArray (P : Json → Prop) (v : Option Json) : Prop :=
  v = none ∨ v = some .null ∨ ∃ items, v = some (.array items) ∧ ∀ item ∈ items, P item

/-- An object with texts in some of its fields. -/
def HasTexts (keys : List Text) (item : Json) : Prop :=
  (∃ members, item = .object members) ∧ ∀ key ∈ keys, IsText (field (some item) key)

/-- The annotations of an object say nothing that its kind's own fields do not. -/
def AddsNothing (entry : KindEntry) (obj : Option Json) : Prop :=
  match annotationHostnames obj with
  | none => entry.hostnames obj = []
  | some annotHosts => ∀ host ∈ annotHosts, host ∈ entry.hostnames obj

/-- White space in which the two languages differ. -/
def Disputed (c : Char) : Prop := c.toNat = 0x85 ∨ c.toNat = 0xfeff

/-- An object as the schema of its kind lets it be, whose annotations have no disputed white space. -/
structure HasSchema (obj : Option Json) : Prop where
  rules : IsArray (HasTexts [hostKey]) (getPath obj rulesPath)
  tls : IsArray (fun tls => (∃ members, tls = .object members) ∧
    IsArray (fun host => ∃ s, host = .string s) (field (some tls) hostsKey)) (getPath obj tlsPath)
  ingress : IsArray (HasTexts [hostnameKey, ipKey]) (getPath obj ingressPath)
  hostnames : IsArray (fun host => ∃ s, host = .string s) (getPath obj hostnamesPath)
  endpoints : IsArray (HasTexts [dnsNameKey]) (getPath obj endpointsPath)
  annotations : ∀ key, IsText (field (getPath obj annotationsPath) key)
  undisputed : ∀ key, ∀ c ∈ stringOr (field (getPath obj annotationsPath) key), ¬Disputed c

variable {seen seen' l l' : List Text} {s : Text} {obj : Option Json} {entry : KindEntry} {kind : Text}

/-! ### Lists of names -/

theorem uniqFrom_congr (h : ∀ s ≠ [], s ∈ seen ↔ s ∈ seen') : uniqFrom seen l = uniqFrom seen' l := by
  induction l generalizing seen seen' with
  | nil => rfl
  | cons s l ih =>
    have hcons : ∀ t ≠ [], t ∈ s :: seen ↔ t ∈ s :: seen' := fun t ht => by rw [List.mem_cons, List.mem_cons, h t ht]
    have hskip : s = [] ∨ s ∈ seen ↔ s = [] ∨ s ∈ seen' := by
      by_cases hs : s = []
      · exact iff_of_true (.inl hs) (.inl hs)
      · exact or_congr Iff.rfl (h s hs)
    rw [uniqFrom, uniqFrom]
    by_cases hs : s = [] ∨ s ∈ seen
    · rw [if_pos hs, if_pos (hskip.mp hs), ih h]
    · rw [if_neg hs, if_neg (fun hs' => hs (hskip.mpr hs')), ih hcons]

/-- Each name is there once, if it is not empty and was not seen before. -/
theorem mem_uniqFrom : s ∈ uniqFrom seen l ↔ s ∈ l ∧ s ≠ [] ∧ s ∉ seen := by
  induction l generalizing seen with
  | nil => simp [uniqFrom]
  | cons t l ih =>
    rw [uniqFrom]
    split
    · rename_i ht
      rw [ih, List.mem_cons]
      constructor
      · exact fun ⟨hmem, hrest⟩ => ⟨.inr hmem, hrest⟩
      · rintro ⟨rfl | hmem, hne, hseen⟩
        · exact absurd ht (not_or.mpr ⟨hne, hseen⟩)
        · exact ⟨hmem, hne, hseen⟩
    · rename_i ht
      rw [not_or] at ht
      rw [List.mem_cons, ih, List.mem_cons, List.mem_cons]
      constructor
      · rintro (rfl | ⟨hmem, hne, hseen⟩)
        · exact ⟨.inl rfl, ht⟩
        · exact ⟨.inr hmem, hne, fun h => hseen (.inr h)⟩
      · rintro ⟨hmem, hne, hseen⟩
        by_cases hst : s = t
        · exact .inl hst
        · exact .inr ⟨hmem.resolve_left hst, hne, not_or.mpr ⟨hst, hseen⟩⟩

theorem mem_uniqStrings : s ∈ uniqStrings l ↔ s ∈ l ∧ s ≠ [] := by
  simp [uniqStrings, mem_uniqFrom]

theorem nodup_uniqFrom : (uniqFrom seen l).Nodup := by
  induction l generalizing seen with
  | nil => exact List.nodup_nil
  | cons s l ih =>
    rw [uniqFrom]
    split
    · exact ih
    · exact List.nodup_cons.mpr ⟨fun h => (mem_uniqFrom.mp h).2.2 List.mem_cons_self, ih⟩

/-- The names of a list that are not empty. -/
def present (l : List Text) : List Text := l.filter (· ≠ [])

theorem uniqFrom_present : uniqFrom seen (present l) = uniqFrom seen l := by
  induction l generalizing seen with
  | nil => rfl
  | cons s l ih =>
    by_cases hs : s = []
    · have hpresent : present (s :: l) = present l := List.filter_cons_of_neg (by simpa using hs)
      rw [hpresent, ih, uniqFrom, if_pos (.inl hs)]
    · have hpresent : present (s :: l) = s :: present l := List.filter_cons_of_pos (by simpa using hs)
      rw [hpresent, uniqFrom, uniqFrom, ih, ih]

theorem uniqStrings_congr (h : present l = present l') : uniqStrings l = uniqStrings l' := by
  rw [uniqStrings, ← uniqFrom_present, h, uniqFrom_present, uniqStrings]

theorem present_append (l l' : List Text) : present (l ++ l') = present l ++ present l' := List.filter_append ..

/-- What is in the first list is left out of the second. -/
theorem uniqFrom_append (seen l l' : List Text) :
    uniqFrom seen (l ++ l') = uniqFrom seen l ++ uniqFrom (l ++ seen) l' := by
  induction l generalizing seen with
  | nil => rfl
  | cons s l ih =>
    rw [List.cons_append, uniqFrom, uniqFrom]
    split
    · rename_i hs
      rw [ih]
      refine congrArg _ (uniqFrom_congr fun t ht => ?_)
      rw [List.cons_append, List.mem_cons, or_iff_right_of_imp]
      rintro rfl
      exact List.mem_append_right _ (hs.resolve_left ht)
    · rw [ih, List.cons_append]
      refine congrArg _ (congrArg _ (uniqFrom_congr fun t _ => ?_))
      simp only [List.cons_append, List.mem_append, List.mem_cons]
      exact or_left_comm

theorem uniqFrom_eq_nil : uniqFrom seen l = [] ↔ ∀ s ∈ l, s ≠ [] → s ∈ seen := by
  rw [List.eq_nil_iff_forall_not_mem]
  refine forall_congr' fun s => ?_
  rw [mem_uniqFrom]
  by_cases hs : s ∈ seen <;> simp [hs]

theorem uniqFrom_uniqFrom (seen l : List Text) : uniqFrom seen (uniqFrom seen l) = uniqFrom seen l := by
  induction l generalizing seen with
  | nil => rfl
  | cons s l ih =>
    by_cases hs : s = [] ∨ s ∈ seen
    · rw [uniqFrom, if_pos hs, ih]
    · rw [uniqFrom, if_neg hs, uniqFrom, if_neg hs, ih]

/-- A list is made unique as a part of another one, too. -/
theorem uniqStrings_append (l l' : List Text) : uniqStrings (uniqStrings l ++ l') = uniqStrings (l ++ l') := by
  rw [uniqStrings, uniqStrings, uniqStrings, uniqFrom_append, uniqFrom_append, uniqFrom_uniqFrom]
  refine congrArg _ (uniqFrom_congr fun t ht => ?_)
  simp [mem_uniqFrom, ht]

/-! ### The two halves -/

theorem dropWhile_congr {p q : Char → Bool} {t : Text} (h : ∀ c ∈ t, p c = q c) : t.dropWhile p = t.dropWhile q := by
  induction t with
  | nil => rfl
  | cons c t ih =>
    obtain ⟨hc, ht⟩ := List.forall_mem_cons.mp h
    rw [List.dropWhile_cons, List.dropWhile_cons, hc, ih ht]

theorem trim_congr {p q : Char → Bool} {t : Text} (h : ∀ c ∈ t, p c = q c) : trim p t = trim q t := by
  rw [trim, trim, dropWhile_congr h]
  refine congrArg _ (dropWhile_congr fun c hc => h c ?_)
  exact (List.dropWhile_sublist _).mem (List.mem_reverse.mp hc)

/-- Without disputed white space the languages split in the same way. -/
theorem split_agree {v : Text} (h : ∀ c ∈ v, ¬Disputed c) :
    splitAnnotationHostnames isSpace v = splitAnnotationHostnames isJsSpace v := by
  rw [splitAnnotationHostnames, splitAnnotationHostnames]
  refine congrArg _ (List.map_congr_left fun part hpart => trim_congr fun c hc => ?_)
  have hc := h c (Lines.mem_of_mem_splitOn hpart hc)
  obtain ⟨hnel, hbom⟩ := not_or.mp hc
  simp [isJsSpace, hnel, hbom]

theorem present_map (f : Json → Option Json) (items : List Json) :
    present (items.map fun item => stringOr (f item)) = present (items.filterMap fun item => asString (f item)) := by
  induction items with
  | nil => rfl
  | cons item items ih =>
    cases hf : asString (f item) with
    | none =>
      have hempty : stringOr (f item) = [] := congrArg (·.getD []) hf
      rw [List.map_cons, List.filterMap_cons, hf, hempty, ← ih]
      rfl
    | some v =>
      have hv : stringOr (f item) = v := congrArg (·.getD []) hf
      rw [present, present] at ih
      rw [List.map_cons, List.filterMap_cons, hf, hv, present, present, List.filter_cons, List.filter_cons, ih]

theorem asStringSlice_eq (v : Option Json) :
    present ((itemsOf v).map fun host => stringOr (some host)) = asStringSlice v := by
  rw [present_map some]
  unfold itemsOf asStringSlice
  split <;> rfl

theorem present_asStringSlice (v : Option Json) : present (asStringSlice v) = asStringSlice v := by
  rw [← asStringSlice_eq, present, present, List.filter_filter]
  simp only [Bool.and_self]

theorem asObjectSlice_eq {P : Json → Prop} {v : Option Json} (h : IsArray P v)
    (hP : ∀ item, P item → ∃ members, item = .object members) : asObjectSlice v = itemsOf v := by
  rcases h with rfl | rfl | ⟨items, rfl, hitems⟩
  · rfl
  · rfl
  · refine List.filter_eq_self.mpr fun item hitem => ?_
    obtain ⟨members, rfl⟩ := hP item (hitems item hitem)
    rfl

theorem asObjectSlice_texts {keys : List Text} {v : Option Json} (h : IsArray (HasTexts keys) v) :
    asObjectSlice v = itemsOf v := asObjectSlice_eq h fun _ hitem => hitem.1

variable (hobj : HasSchema obj)
include hobj

theorem annotated_agree (key : Text) : annotated (getPath obj annotationsPath) key =
    jsAnnotated (getPath obj annotationsPath) key := by
  have hsplit := split_agree (hobj.undisputed key)
  rw [annotated, jsAnnotated]
  rcases hobj.annotations key with hv | hv | ⟨v, hv⟩
  · rw [hv]
    rfl
  · rw [hv]
    rfl
  · rw [hv] at hsplit ⊢
    show splitAnnotationHostnames isSpace v = _
    split
    · exact hsplit
    · rename_i hempty
      rw [truthy_iff (.inr (.inr ⟨v, rfl⟩)), not_not] at hempty
      rw [show v = [] from hempty]
      decide

theorem annotationHostnames_agree : annotationHostnames obj = jsAnnotationHostnames obj := by
  have hexcluded : stringOr (field (getPath obj annotationsPath) excludeAnnotationKey) = "true".toList ↔
      asString (field (getPath obj annotationsPath) excludeAnnotationKey) = some "true".toList := by
    rw [stringOr]
    cases asString (field (getPath obj annotationsPath) excludeAnnotationKey) with
    | none => exact iff_of_false (by decide) (by simp)
    | some v => simp
  rw [annotationHostnames, jsAnnotationHostnames, annotated_agree hobj, annotated_agree hobj]
  by_cases h : stringOr (field (getPath obj annotationsPath) excludeAnnotationKey) = "true".toList
  · rw [if_pos h, if_pos (hexcluded.mp h)]
  · rw [if_neg h, if_neg (fun h' => h (hexcluded.mpr h'))]

theorem ingress_agree :
    present (((itemsOf (getPath obj rulesPath)).map fun rule => stringOr (field (some rule) hostKey)) ++
      (itemsOf (getPath obj tlsPath)).flatMap fun tls =>
        (itemsOf (field (some tls) hostsKey)).map fun host => stringOr (some host)) =
    present (((asObjectSlice (getPath obj rulesPath)).filterMap fun rule => asString (field (some rule) hostKey)) ++
      (asObjectSlice (getPath obj tlsPath)).flatMap fun tls => asStringSlice (field (some tls) hostsKey)) := by
  rw [asObjectSlice_texts hobj.rules, asObjectSlice_eq hobj.tls fun _ htls => htls.1, present_append, present_append,
    present_map]
  refine congrArg _ ?_
  rw [present, present, List.filter_flatMap, List.filter_flatMap]
  refine List.flatMap_congr fun tls _ => ?_
  exact (asStringSlice_eq _).trans (present_asStringSlice _).symm

theorem service_agree :
    present ((itemsOf (getPath obj ingressPath)).map fun ing => stringOr (jsIngressHost ing)) =
    present ((asObjectSlice (getPath obj ingressPath)).filterMap ingressHost) := by
  rw [asObjectSlice_texts hobj.ingress, present_map]
  refine congrArg _ ?_
  rcases hobj.ingress with hv | hv | ⟨items, hv, hitems⟩
  · rw [hv]
    rfl
  · rw [hv]
    rfl
  · rw [hv]
    refine List.filterMap_congr fun ing hing => ?_
    have htruthy := truthy_iff ((hitems ing hing).2 hostnameKey List.mem_cons_self)
    rw [ingressHost, jsIngressHost]
    by_cases h : truthy (field (some ing) hostnameKey) = true
    · rw [if_pos h, if_pos (htruthy.mp h)]
    · rw [if_neg h, if_neg (fun hne => h (htruthy.mpr hne))]

theorem endpoints_agree :
    present ((itemsOf (getPath obj endpointsPath)).map fun ep => stringOr (field (some ep) dnsNameKey)) =
    present ((asObjectSlice (getPath obj endpointsPath)).filterMap
      fun ep => asString (field (some ep) dnsNameKey)) := by
  rw [asObjectSlice_texts hobj.endpoints, present_map]

/-- A kind whose annotations the browser looks at. -/
theorem withAnnotations_eq {structural raw : List Text} (h : present structural = present raw)
    (hentry : entry.hostnames obj = uniqStrings raw) : withAnnotations structural obj = hostsOf entry obj := by
  rw [withAnnotations, hostsOf, annotationHostnames_agree hobj, hentry]
  cases jsAnnotationHostnames obj with
  | none => rfl
  | some annotHosts =>
    dsimp only
    rw [uniqStrings_append]
    exact uniqStrings_congr (by rw [present_append, present_append, h])

theorem dnsEndpoint_agree :
    hostnamesForDNSEndpoint obj = hostnamesForDNSEndpointObj obj := uniqStrings_congr (endpoints_agree hobj)

omit hobj

/-- No name of an annotation is empty. -/
theorem ne_nil_of_annotation (h : annotationHostnames obj = some l) (hs : s ∈ l) : s ≠ [] := by
  have hannotated : ∀ annotations key, s ∈ annotated annotations key → s ≠ [] := by
    intro annotations key hmem
    unfold annotated at hmem
    split at hmem
    · simpa using List.of_mem_filter hmem
    · exact absurd hmem List.not_mem_nil
  rw [annotationHostnames] at h
  split at h
  · cases h
  · obtain rfl := Option.some.inj h
    exact (List.mem_append.mp hs).elim (hannotated _ _) (hannotated _ _)

/-- What is probed is what the kind's own fields name if, and only if, the annotations add nothing. -/
theorem hostsOf_eq {raw : List Text} (hentry : entry.hostnames obj = uniqStrings raw) :
    entry.hostnames obj = hostsOf entry obj ↔ AddsNothing entry obj := by
  rw [hostsOf, AddsNothing]
  cases hannot : annotationHostnames obj with
  | none => rfl
  | some annotHosts =>
    dsimp only
    rw [hentry, uniqStrings_append, uniqStrings, uniqStrings, uniqFrom_append, List.self_eq_append_right,
      uniqFrom_eq_nil]
    refine forall_congr' fun s => forall_congr' fun hs => ?_
    have hne := ne_nil_of_annotation hannot hs
    rw [mem_uniqFrom, List.append_nil]
    simp [hne]

/-- An endpoint whose annotation names the same host. -/
def oneEndpoint : Json :=
  .object [("metadata".toList, .object [("annotations".toList, .object [(hostnameAnnotationKey, .string ['a', ','])])]),
    ("spec".toList, .object [("endpoints".toList, .array [.object [(dnsNameKey, .string ['a'])]])])]

theorem oneEndpoint_annotation (key : Text) :
    field (getPath (some oneEndpoint) annotationsPath) key = none ∨
      field (getPath (some oneEndpoint) annotationsPath) key = some (.string ['a', ',']) := by
  show List.lookup key [(hostnameAnnotationKey, Json.string ['a', ','])] = none ∨ _
  by_cases hkey : key = hostnameAnnotationKey
  · exact .inr (by rw [hkey]; rfl)
  · exact .inl (List.lookup_eq_none_iff.mpr (List.forall_mem_singleton.mpr (bne_iff_ne.mpr hkey)))

theorem hasSchema_oneEndpoint : HasSchema (some oneEndpoint) where
  rules := .inl rfl
  tls := .inl rfl
  ingress := .inl rfl
  hostnames := .inl rfl
  endpoints := .inr (.inr ⟨_, rfl, List.forall_mem_singleton.mpr
    ⟨⟨_, rfl⟩, List.forall_mem_singleton.mpr (.inr (.inr ⟨_, rfl⟩))⟩⟩)
  annotations := by
    intro key
    rcases oneEndpoint_annotation key with h | h
    · exact .inl h
    · exact .inr (.inr ⟨_, h⟩)
  undisputed := by
    intro key c hc
    rcases oneEndpoint_annotation key with h | h
    · rw [h] at hc
      exact absurd hc List.not_mem_nil
    · rw [h] at hc
      have hcases : c = 'a' ∨ c = ',' := by simpa [stringOr, asString] using hc
      rcases hcases with rfl | rfl
      · exact not_or.mpr ⟨by decide, by decide⟩
      · exact not_or.mpr ⟨by decide, by decide⟩

end OpenshiftConsole.CertManager
