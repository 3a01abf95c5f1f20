import OpenshiftConsole.Library.Hierarchy
import OpenshiftConsole.Filesystem.Policy

/-!
# Visibility and the path hierarchy

Which paths the backend shows is meant to follow the hierarchy of paths: nothing of `/sys`, of `/dev`
and `/proc` what is declared for the container with all above and below it, and everything else
(`Shows`). `allowed` decides this by tests on cleaned texts. Cleaning a text gives its components
written out (`cleanPath_eq`), so the tests on texts are tests on lists of components.

There is one exception. A declared path that is cleaned to `/` is above everything, but with a slash
behind it, it is `//`, which no cleaned text starts with (`followsHierarchy_iff`).
-/

namespace OpenshiftConsole.Filesystem.Api

open OpenshiftConsole.Library.Lines (Text notMem_of_mem_splitOn)
open OpenshiftConsole.Library.Hierarchy

/-! ### What is to be shown -/

/-- A component that stays where it is. -/
def isHere (c : Text) : Bool := c == [] || c == ['.']

/-- A component that goes up. -/
def isUp (c : Text) : Bool := c == ['.', '.']

/-- The components of a path after lexical normalisation. -/
def components (p : Text) : List Text := resolveDots isHere isUp (p.splitOn '/')

/-- The path with these components. -/
def pathOf (way : List Text) : Text := '/' :: List.intercalate ['/'] way

/-- A declared path is the path with these components, above it or below it. -/
def Declared (paths : List Text) (way : List Text) : Prop := ∃ leaf ∈ paths, Related (components leaf) way

instance (paths way : List Text) : Decidable (Declared paths way) := inferInstanceAs (Decidable (∃ leaf ∈ paths, _))

/-- Whether the path with these components is to be shown. -/
def Shows (target : PodTarget) (way : List Text) : Prop :=
  if ["sys".toList] <+: way then False
  else if ["dev".toList] <+: way then Declared target.allowedDevPaths way
  else if ["proc".toList] <+: way then Declared target.procSysPaths way
  else True

instance (target : PodTarget) (way : List Text) : Decidable (Shows target way) := by
  rw [Shows]
  infer_instance

/-- The listing of a directory may be asked for, and shows the member `n` of it. -/
def Listed (vis : Visibility) (members : Text → List Text) (way : List Text) (n : Text) : Prop :=
  vis.allowed (pathOf way) = true ∧ n ∈ filterEntries id (members (pathOf way)) (pathOf way) vis

/-- Visibility follows the path hierarchy. -/
structure FollowsHierarchy (target : PodTarget) : Prop where
  /-- What is allowed is what is to be shown. -/
  decides : ∀ p, (newVisibility target).allowed p = true ↔ Shows target (components p)
  /-- What is above an allowed path is allowed. -/
  above : ∀ p q, components q <+: components p → (newVisibility target).allowed p = true →
    (newVisibility target).allowed q = true
  /-- A filtered listing shows no path that is not allowed. -/
  filtered : ∀ {α : Type} (name : α → Text) (entries : List α) (dir : Text), ∀ e ∈ filterEntries name entries dir (newVisibility target),
    ∀ p, components p = components dir ++ [name e] → (newVisibility target).allowed p = true
  /-- An allowed path that is there is reached from the root by filtered listings. -/
  reached : ∀ (members : Text → List Text) (p : Text), (∀ way n, way ++ [n] <+: components p → n ∈ members (pathOf way)) →
    (newVisibility target).allowed p = true → Reached (Listed (newVisibility target) members) (components p)

/-! ### Cleaning -/

variable {p q top leaf : Text} {l kept way a b : List Text} {c n : Text} {target : PodTarget}

theorem slash_notMem_components (hc : c ∈ components p) : '/' ∉ c := notMem_of_mem_splitOn (mem_resolveDots hc).1

theorem components_ne_nil (hc : c ∈ components p) : c ≠ [] := by
  rintro rfl
  exact absurd (mem_resolveDots hc).2.1 (by decide)

theorem components_slash (p : Text) : components ('/' :: p) = components p := by
  have hsplit : ('/' :: p).splitOn '/' = [] :: p.splitOn '/' := List.splitOn_append_cons_self [] p
  rw [components, hsplit]
  rfl

/-- `path.Clean` keeps what the components lead to, whether the path starts with a slash or not. -/
theorem resolveDots_cleanStep (rooted : Bool) (c : Text) (hkept : ∀ d ∈ kept, isHere d = false) :
    resolveDots isHere isUp (cleanStep rooted kept c).reverse = step isHere isUp (resolveDots isHere isUp kept.reverse) c := by
  have hpush : resolveDots isHere isUp (c :: kept).reverse = step isHere isUp (resolveDots isHere isUp kept.reverse) c := by
    rw [List.reverse_cons, resolveDots_concat]
  unfold cleanStep
  by_cases hhere : c = [] ∨ c = ['.']
  · rw [if_pos hhere, step, if_pos (by simpa [isHere] using hhere)]
  · rw [if_neg hhere]
    by_cases hup : c = ['.', '.']
    · rw [if_pos hup]
      cases kept with
      | nil =>
        subst hup
        cases rooted <;> rfl
      | cons d kept =>
        dsimp only
        by_cases hd : d = ['.', '.']
        · rw [if_pos hd, hpush]
        · -- the name that is taken away was the last component
          have hhd := hkept d List.mem_cons_self
          have hlast : resolveDots isHere isUp (d :: kept).reverse = resolveDots isHere isUp kept.reverse ++ [d] := by
            rw [List.reverse_cons, resolveDots_concat, step, hhd, if_neg Bool.false_ne_true, if_neg (by simpa [isUp] using hd)]
          rw [if_neg hd, hlast, step, if_neg (by simpa [isHere] using hhere), if_pos (by simpa [isUp] using hup),
            List.dropLast_concat]
    · rw [if_neg hup, hpush]

theorem isHere_cleanStep (rooted : Bool) (c : Text) (hkept : ∀ d ∈ kept, isHere d = false) : ∀ d ∈ cleanStep rooted kept c, isHere d = false := by
  unfold cleanStep
  by_cases hhere : c = [] ∨ c = ['.']
  · rwa [if_pos hhere]
  · have hpush : ∀ d ∈ c :: kept, isHere d = false := by
      rintro d (_ | ⟨_, hd⟩)
      · simpa [isHere] using hhere
      · exact hkept d hd
    rw [if_neg hhere]
    split
    · split
      · split
        · simp
        · exact hpush
      · rename_i d kept
        split
        · exact hpush
        · exact fun d hd => hkept d (List.mem_cons_of_mem _ hd)
    · exact hpush

theorem resolveDots_foldl_cleanStep (rooted : Bool) (l : List Text) {kept : List Text} (hkept : ∀ d ∈ kept, isHere d = false) :
    (∀ d ∈ l.foldl (cleanStep rooted) kept, isHere d = false) ∧
      resolveDots isHere isUp (l.foldl (cleanStep rooted) kept).reverse =
        l.foldl (step isHere isUp) (resolveDots isHere isUp kept.reverse) := by
  induction l generalizing kept with
  | nil => exact ⟨hkept, rfl⟩
  | cons c l ih =>
    have h := ih (isHere_cleanStep rooted c hkept)
    rwa [resolveDots_cleanStep rooted c hkept] at h

/-- A path that starts with a slash keeps nothing that goes up. -/
theorem isUp_foldl_cleanStep (l : List Text) {kept : List Text} (hkept : ∀ d ∈ kept, isUp d = false) : ∀ d ∈ l.foldl (cleanStep true) kept, isUp d = false := by
  induction l generalizing kept with
  | nil => exact hkept
  | cons c l ih =>
    apply ih
    unfold cleanStep
    split
    · exact hkept
    · split
      · split
        · simp
        · rename_i d kept
          rw [if_neg]
          · exact fun x hx => hkept x (List.mem_cons_of_mem d hx)
          · rintro rfl
            exact absurd (hkept _ List.mem_cons_self) (by decide)
      · rename_i hup
        rintro d (_ | ⟨_, hd⟩)
        · simpa [isUp] using hup
        · exact hkept d hd

/-- What `path.Clean` keeps of a path that starts with a slash are its components. -/
theorem kept_eq_components (p : Text) : ((p.splitOn '/').foldl (cleanStep true) []).reverse = components p := by
  have hnil : ∀ {P : Text → Prop}, ∀ d ∈ ([] : List Text), P d := by simp
  obtain ⟨hhere, hres⟩ := resolveDots_foldl_cleanStep true (p.splitOn '/') hnil
  have hup := isUp_foldl_cleanStep (p.splitOn '/') hnil
  rw [resolveDots_of_down fun c hc => ⟨hhere c (List.mem_reverse.mp hc), hup c (List.mem_reverse.mp hc)⟩] at hres
  exact hres

theorem pathClean_slash (p : Text) : pathClean ('/' :: p) = pathOf (components p) := by
  rw [← components_slash, ← kept_eq_components]
  rfl

/-- A cleaned path is its components written out. -/
theorem cleanPath_eq (p : Text) : cleanPath p = pathOf (components p) := by
  rw [cleanPath]
  split
  · rename_i h
    obtain ⟨q, rfl⟩ := List.isPrefixOf_iff_prefix.mp h
    rw [List.singleton_append, pathClean_slash, components_slash]
  · rw [pathClean_slash]

/-- Pieces without a slash, written out, lead where they do. -/
theorem components_intercalate (hl : ∀ c ∈ l, '/' ∉ c) : components (List.intercalate ['/'] l) = resolveDots isHere isUp l := by
  cases l with
  | nil => rfl
  | cons c l => rw [components, List.splitOn_intercalate _ hl (List.cons_ne_nil c l)]

theorem components_pathOf (hway : ∀ c ∈ way, '/' ∉ c ∧ isHere c = false ∧ isUp c = false) : components (pathOf way) = way := by
  rw [pathOf, components_slash, components_intercalate fun c hc => (hway c hc).1,
    resolveDots_of_down fun c hc => (hway c hc).2]

/-- Cleaning does not change where a path leads, whether it starts with a slash or not. -/
theorem components_pathClean (p : Text) : components (pathClean p) = components p := by
  generalize hrooted : (p.head? == some '/') = rooted
  have hnil : ∀ d ∈ ([] : List Text), isHere d = false := by simp
  have hslash : ∀ c ∈ ((p.splitOn '/').foldl (cleanStep rooted) []).reverse, '/' ∉ c := by
    intro c hc
    have hmem := mem_foldl_cleanStep (List.mem_reverse.mp hc)
    exact notMem_of_mem_splitOn (hmem.resolve_right List.not_mem_nil)
  have hkept := (components_intercalate hslash).trans (resolveDots_foldl_cleanStep rooted (p.splitOn '/') hnil).2
  unfold pathClean
  dsimp only
  rw [hrooted]
  cases rooted with
  | true => exact (components_slash _).trans hkept
  | false =>
    rw [if_neg Bool.false_ne_true]
    split
    · rename_i hdot
      rw [hdot] at hkept
      exact hkept
    · exact hkept

/-! ### Texts and components -/

theorem good_of_components (hc : c ∈ components p) : '/' ∉ c ∧ isHere c = false ∧ isUp c = false :=
  ⟨slash_notMem_components hc, (mem_resolveDots hc).2⟩

theorem components_pathOf_of_prefix (h : way <+: components p) : components (pathOf way) = way :=
  components_pathOf fun _ hc => good_of_components (h.subset hc)

theorem pathOf_eq_joined (hway : way ≠ []) : pathOf way = joined '/' way := by
  obtain ⟨c, way, rfl⟩ := List.exists_cons_of_ne_nil hway
  induction way generalizing c with
  | nil => simp [pathOf, joined]
  | cons d way ih =>
    rw [joined_cons, ← ih d (List.cons_ne_nil d way), pathOf, List.intercalate_cons_cons, List.append_assoc]
    rfl

/-- The tests on texts: one path is the other, or above or below it. -/
theorem matches_iff (ha : ∀ c ∈ a, '/' ∉ c ∧ c ≠ []) (hb : ∀ c ∈ b, '/' ∉ c ∧ c ≠ []) (hne : a ≠ []) :
    pathOf a = pathOf b ∨ pathOf a ++ ['/'] <+: pathOf b ∨ pathOf b ++ ['/'] <+: pathOf a ↔ b ≠ [] ∧ Related b a := by
  rw [pathOf_eq_joined hne]
  by_cases hb0 : b = []
  · -- nothing that is cleaned starts with two slashes
    subst hb0
    obtain ⟨c, a, rfl⟩ := List.exists_cons_of_ne_nil hne
    obtain ⟨hslash, hc⟩ := ha c List.mem_cons_self
    obtain ⟨x, c, rfl⟩ := List.exists_cons_of_ne_nil hc
    have hx : '/' ≠ x := fun h => hslash (h ▸ List.mem_cons_self)
    simp [pathOf, joined, hx]
  · have ha' : ∀ c ∈ a, '/' ∉ c := fun c hc => (ha c hc).1
    have hb' : ∀ c ∈ b, '/' ∉ c := fun c hc => (hb c hc).1
    rw [pathOf_eq_joined hb0, joined_inj ha' hb', joined_prefix_iff ha' hb', joined_prefix_iff hb' ha', Related]
    constructor
    · rintro (rfl | ⟨h, -⟩ | ⟨h, -⟩)
      · exact ⟨hb0, .inl (List.prefix_refl _)⟩
      · exact ⟨hb0, .inr h⟩
      · exact ⟨hb0, .inl h⟩
    · rintro ⟨-, h⟩
      by_cases hab : a = b
      · exact .inl hab
      · exact .inr (h.symm.imp (⟨·, hab⟩) (⟨·, Ne.symm hab⟩))

theorem isUnder_iff (top : Text) (ht : '/' ∉ top) (hne : top ≠ []) : isUnder ('/' :: top) (cleanPath p) = true ↔ [top] <+: components p := by
  have htop : '/' :: top = joined '/' [top] := by simp [joined]
  have hslash : ∀ w ∈ [top], '/' ∉ w := by simpa using ht
  rw [cleanPath_eq, isUnder, Bool.or_eq_true, beq_iff_eq, List.isPrefixOf_iff_prefix]
  by_cases hp : components p = []
  · simp [hp, pathOf, hne.symm]
  · rw [htop, pathOf_eq_joined hp, joined_inj (fun _ => slash_notMem_components) hslash,
      joined_prefix_iff hslash fun _ => slash_notMem_components]
    constructor
    · rintro (h | h)
      · rw [h]
      · exact h.1
    · intro h
      by_cases he : components p = [top]
      · exact .inl he
      · exact .inr ⟨h, Ne.symm he⟩

/-! ### The decision -/

/-- A declared path that is not the root is the path with these components, above it or below it. -/
def Matched (paths : List Text) (way : List Text) : Prop :=
  ∃ leaf ∈ paths, components leaf ≠ [] ∧ Related (components leaf) way

theorem mem_cleanAll {paths : List Text} {x : Text} : x ∈ cleanAll paths ↔ ∃ leaf ∈ paths, leaf ≠ [] ∧ cleanPath leaf = x := by
  simp [cleanAll, and_assoc]

theorem matchesAny_iff {paths : List Text} (hp : components p ≠ []) :
    matchesAny (cleanPath p) (cleanAll paths) = true ↔ Matched paths (components p) := by
  have hgood : ∀ q : Text, ∀ c ∈ components q, '/' ∉ c ∧ c ≠ [] := fun q c hc =>
    ⟨slash_notMem_components hc, components_ne_nil hc⟩
  have hleaf (leaf : Text) := matches_iff (hgood p) (hgood leaf) hp
  simp only [matchesAny, List.any_eq_true, Bool.or_eq_true, beq_iff_eq, List.isPrefixOf_iff_prefix, or_assoc]
  constructor
  · rintro ⟨x, hx, h⟩
    obtain ⟨leaf, hmem, -, rfl⟩ := mem_cleanAll.mp hx
    rw [cleanPath_eq, cleanPath_eq] at h
    exact ⟨leaf, hmem, (hleaf leaf).mp h⟩
  · rintro ⟨leaf, hmem, hne, hrel⟩
    refine ⟨_, mem_cleanAll.mpr ⟨leaf, hmem, ?_, rfl⟩, ?_⟩
    · rintro rfl
      exact hne rfl
    · rw [cleanPath_eq, cleanPath_eq]
      exact (hleaf leaf).mpr ⟨hne, hrel⟩

/-- What `allowed` decides. -/
theorem allowed_iff : (newVisibility target).allowed p = true ↔
    if ["sys".toList] <+: components p then False
    else if ["dev".toList] <+: components p then Matched target.allowedDevPaths (components p)
    else if ["proc".toList] <+: components p then Matched target.procSysPaths (components p)
    else True := by
  have hne {t : Text} (h : [t] <+: components p) : components p ≠ [] := by
    intro hnil
    rw [hnil] at h
    simp at h
  have hsys : isUnder "/sys".toList (cleanPath p) = true ↔ ["sys".toList] <+: components p :=
    isUnder_iff "sys".toList (by decide) (by decide)
  have hdev : isUnder "/dev".toList (cleanPath p) = true ↔ ["dev".toList] <+: components p :=
    isUnder_iff "dev".toList (by decide) (by decide)
  have hproc : isUnder "/proc".toList (cleanPath p) = true ↔ ["proc".toList] <+: components p :=
    isUnder_iff "proc".toList (by decide) (by decide)
  unfold Visibility.allowed
  dsimp only
  rw [if_congr hsys rfl rfl, if_congr hdev rfl rfl, if_congr hproc rfl rfl]
  split
  · simp
  · split
    · exact matchesAny_iff (hne ‹_›)
    · split
      · exact matchesAny_iff (hne ‹_›)
      · simp

/-- Paths with the same components are judged alike. -/
theorem allowed_congr (h : components p = components q) {vis : Visibility} : vis.allowed p = vis.allowed q := by
  unfold Visibility.allowed
  rw [cleanPath_eq p, cleanPath_eq q, h]

theorem Matched.above {paths : List Text} (h : Matched paths b) (hab : a <+: b) : Matched paths a := by
  obtain ⟨leaf, hmem, hne, hrel⟩ := h
  refine ⟨leaf, hmem, hne, ?_⟩
  rcases hrel with h | h
  · exact List.prefix_or_prefix_of_prefix h hab
  · exact .inr (hab.trans h)

/-- **What is above an allowed path is allowed.** -/
theorem allowed_above (hqp : components q <+: components p) (h : (newVisibility target).allowed p = true) :
    (newVisibility target).allowed q = true := by
  rw [allowed_iff] at h ⊢
  by_cases hsys : ["sys".toList] <+: components q
  · rw [if_pos (hsys.trans hqp)] at h
    exact h.elim
  · have hsys' : ¬ ["sys".toList] <+: components p := by
      intro h'
      rw [if_pos h'] at h
      exact h
    rw [if_neg hsys]
    rw [if_neg hsys'] at h
    by_cases hdev : ["dev".toList] <+: components q
    · rw [if_pos hdev]
      rw [if_pos (hdev.trans hqp)] at h
      exact h.above hqp
    · rw [if_neg hdev]
      split
      · rename_i hproc
        have hdev' : ¬ ["dev".toList] <+: components p := by
          intro h'
          rcases List.prefix_or_prefix_of_prefix h' (hproc.trans hqp) with he | he <;>
            exact absurd (he.eq_of_length rfl) (by decide)
        rw [if_neg hdev', if_pos (hproc.trans hqp)] at h
        exact h.above hqp
      · trivial

/-! ### Listings -/

/-- A member's path, as `filterEntries` joins it, has one component more than the directory's. -/
theorem components_member (hn : '/' ∉ n ∧ isHere n = false ∧ isUp n = false) (dir : Text) :
    components (pathClean (if dir = [] then n else dir ++ '/' :: n)) = components dir ++ [n] := by
  have hsplit : n.splitOn '/' = [n] := List.splitOn_eq_singleton hn.1
  have hstep (w : List Text) : step isHere isUp w n = w ++ [n] := by
    rw [step, hn.2.1, if_neg Bool.false_ne_true, hn.2.2, if_neg Bool.false_ne_true]
  rw [components_pathClean]
  split
  · rename_i hdir
    rw [hdir, components, hsplit]
    exact hstep []
  · rw [components, List.splitOn_append_cons_self, hsplit, resolveDots_concat, hstep]
    rfl

theorem mem_filterEntries {α : Type} {name : α → Text} {entries : List α} {dir : Text} {e : α} {vis : Visibility}
    (hp : components p = components dir ++ [name e]) :
    e ∈ filterEntries name entries dir vis ↔ e ∈ entries ∧ vis.allowed p = true := by
  have hn : name e ∈ components p := by rw [hp]; simp
  rw [filterEntries, List.mem_filter, allowed_congr ((components_member (good_of_components hn) dir).trans hp.symm)]

/-! ### When visibility follows the hierarchy -/

/-- If the root is declared, so is `top` itself. -/
def RootCovered (top : Text) (paths : List Text) : Prop :=
  (∃ leaf ∈ paths, components leaf = []) → ∃ leaf ∈ paths, components leaf = [top]

theorem Declared.matched {paths : List Text} (h : RootCovered top paths) (hway : [top] <+: way) (hd : Declared paths way) :
    Matched paths way := by
  obtain ⟨leaf, hmem, hrel⟩ := hd
  by_cases hroot : components leaf = []
  · obtain ⟨leaf', hmem', htop⟩ := h ⟨leaf, hmem, hroot⟩
    exact ⟨leaf', hmem', by simp [htop], .inl (htop ▸ hway)⟩
  · exact ⟨leaf, hmem, hroot, hrel⟩

theorem Matched.declared {paths : List Text} (h : Matched paths way) : Declared paths way := by
  obtain ⟨leaf, hmem, -, hrel⟩ := h
  exact ⟨leaf, hmem, hrel⟩

/-- There is a name that is no component of any of the paths. -/
theorem exists_fresh (paths : List Text) :
    ∃ n : Text, ('/' ∉ n ∧ isHere n = false ∧ isUp n = false) ∧ ∀ leaf ∈ paths, n ∉ components leaf := by
  let longest := ((paths.flatMap components).map List.length).max?.getD 0
  refine ⟨List.replicate (longest + 1) 'x', ?_, fun leaf hleaf hmem => ?_⟩
  · refine ⟨fun h => absurd (List.eq_of_mem_replicate h) (by decide), ?_, ?_⟩ <;>
      simp [isHere, isUp, List.replicate_succ]
  · have hle : _ ≤ longest := List.le_max?_getD_of_mem (List.mem_map_of_mem (List.mem_flatMap.mpr ⟨leaf, hleaf, hmem⟩))
    rw [List.length_replicate] at hle
    exact absurd hle (Nat.not_succ_le_self longest)

/-- What is to be shown below `top` is matched, only if the root is covered. -/
theorem rootCovered_of_matched {paths : List Text} (ht : '/' ∉ top ∧ isHere top = false ∧ isUp top = false)
    (h : ∀ p, [top] <+: components p → Declared paths (components p) → Matched paths (components p)) : RootCovered top paths := by
  rintro ⟨leaf, hmem, hroot⟩
  obtain ⟨n, hn, hfresh⟩ := exists_fresh paths
  have hway : components (pathOf [top, n]) = [top, n] := components_pathOf (by simp [ht, hn])
  have hd : Declared paths [top, n] := ⟨leaf, hmem, .inl (by simp [hroot])⟩
  have hm := h (pathOf [top, n]) (by simp [hway]) (by rwa [hway])
  rw [hway] at hm
  obtain ⟨leaf', hmem', hne, hrel⟩ := hm
  refine ⟨leaf', hmem', ?_⟩
  have hnot := hfresh leaf' hmem'
  rcases hrel with hle | hge
  · rcases List.prefix_concat_iff.mp (show components leaf' <+: [top] ++ [n] from hle) with he | hle
    · rw [he] at hnot
      simp at hnot
    · rcases List.prefix_concat_iff.mp (show components leaf' <+: [] ++ [top] from hle) with he | hnil
      · exact he
      · exact absurd (List.prefix_nil.mp hnil) hne
  · exact absurd (hge.subset (by simp)) hnot

/-- **When visibility follows the path hierarchy**: if no declared path is the root, or the directory
that is meant, `/dev` or `/proc`, is declared with it. -/
theorem followsHierarchy_iff (target : PodTarget) : FollowsHierarchy target ↔
    RootCovered "dev".toList target.allowedDevPaths ∧ RootCovered "proc".toList target.procSysPaths := by
  have hdisjoint {t u : Text} {way : List Text} (ht : [t] <+: way) (htu : t ≠ u) : ¬ [u] <+: way := by
    intro hu
    rcases List.prefix_or_prefix_of_prefix ht hu with he | he
    · exact htu (List.singleton_injective (he.eq_of_length rfl))
    · exact htu (List.singleton_injective (he.eq_of_length rfl)).symm
  constructor
  · rintro ⟨hdecides, -, -, -⟩
    constructor
    · apply rootCovered_of_matched (by decide)
      intro p hp hd
      have h := (hdecides p).mpr (by rw [Shows, if_neg (hdisjoint hp (by decide)), if_pos hp]; exact hd)
      rwa [allowed_iff, if_neg (hdisjoint hp (by decide)), if_pos hp] at h
    · apply rootCovered_of_matched (by decide)
      intro p hp hd
      have h := (hdecides p).mpr (by
        rw [Shows, if_neg (hdisjoint hp (by decide)), if_neg (hdisjoint hp (by decide)), if_pos hp]
        exact hd)
      rwa [allowed_iff, if_neg (hdisjoint hp (by decide)), if_neg (hdisjoint hp (by decide)), if_pos hp] at h
  · rintro ⟨hdev, hproc⟩
    refine ⟨fun p => ?_, fun p q => allowed_above, fun name entries dir e he p hp => ?_, fun members p hthere hp => ?_⟩
    · rw [allowed_iff, Shows]
      split
      · rfl
      · split
        · exact ⟨Matched.declared, Declared.matched hdev ‹_›⟩
        · split
          · exact ⟨Matched.declared, Declared.matched hproc ‹_›⟩
          · rfl
    · exact ((mem_filterEntries hp).mp he).2
    · refine reached_iff.mpr fun way n hway => ?_
      have hdir := components_pathOf_of_prefix ((List.prefix_append way [n]).trans hway)
      have hmember := components_pathOf_of_prefix hway
      constructor
      · apply allowed_above _ hp
        rw [hdir]
        exact (List.prefix_append way [n]).trans hway
      · rw [mem_filterEntries (by rw [hmember, hdir]; rfl)]
        refine ⟨hthere way n hway, allowed_above ?_ hp⟩
        rwa [hmember]

/-- A pod with the device path `/`. -/
def rootDevice : PodTarget := ⟨"node".toList, "id".toList, "app".toList, [['/']], []⟩

/-- With the root declared as a device, nothing of `/dev` is allowed. -/
theorem root_device_shows_nothing : ¬ FollowsHierarchy rootDevice := by
  intro h
  have hshow := (h.decides "/dev/null".toList).mpr (by decide)
  exact absurd hshow (by decide)

end OpenshiftConsole.Filesystem.Api
