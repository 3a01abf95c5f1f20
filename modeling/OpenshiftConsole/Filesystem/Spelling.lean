import OpenshiftConsole.Filesystem.Rootfs

/-!
# Paths made of names

A path text that says `..` or `.` nowhere means the names in it, one below the other, and the
functions on path texts that the helper uses keep that meaning: cleaned, joined with a name or cut
to its directory, the text still spells the names it should (`Spells`). So does the text that an
archive has for an entry (`relText`).
-/

namespace OpenshiftConsole.Filesystem

open OpenshiftConsole.Library.Lines (Text mem_of_mem_splitOn)
open OpenshiftConsole.Library.PathWalk

/-- The text of a name. -/
def Name.text (n : Name) : Text := n.val

/-- The text spells the names, outermost first, and nothing else. -/
structure Spells (p : Text) (ns : List Name) : Prop where
  steps : steps p = ns.map .down
  nul : '\x00' ∉ p

variable {p q : Text} {n : Name} {ns ms : List Name}

/-! ### Steps -/

/-- The last name is known from the steps. -/
theorem last_of_steps {i j : List (Step Name)} {m : Name} (h : i ++ [.down m] = j ++ [.down n]) : m = n := by
  have hlast := (List.append_inj' h rfl).2
  exact Step.down.inj (List.singleton_injective hlast)

/-! ### Cleaning -/

theorem stepOf_eq_up {c : Text} : stepOf c = some .up ↔ c = ['.', '.'] := by
  rw [stepOf]
  split
  · simp_all
  · split
    · simp_all
    · split
      · simp_all
      · split <;> simp_all

theorem stepOf_eq_here {c : Text} : stepOf c = some .here ↔ c = ['.'] := by
  rw [stepOf]
  split
  · simp_all
  · split
    · simp_all
    · split
      · simp_all
      · split <;> simp_all

/-- What `path.Clean` keeps of the components of a path without `..`. -/
theorem foldl_cleanStep {rooted : Bool} {l kept : List Text} (h : ['.', '.'] ∉ l) :
    l.foldl (cleanStep rooted) kept = (l.filter fun c => c != [] && c != ['.']).reverse ++ kept := by
  induction l generalizing kept with
  | nil => rfl
  | cons c l ih =>
    have hc : c ≠ ['.', '.'] := fun hc => h (hc ▸ List.mem_cons_self)
    rw [List.foldl_cons, ih fun hm => h (List.mem_cons_of_mem c hm)]
    unfold cleanStep
    rw [if_neg hc]
    by_cases hk : c = [] ∨ c = ['.']
    · rw [if_pos hk, List.filter_cons_of_neg (by rcases hk with rfl | rfl <;> decide)]
    · rw [if_neg hk, List.filter_cons_of_pos (by simpa using hk), List.reverse_cons, List.append_assoc]
      rfl

theorem steps_intercalate {l : List Text} (h : ∀ c ∈ l, '/' ∉ c) :
    steps (List.intercalate ['/'] l) = l.filterMap stepOf := by
  cases l with
  | nil => exact steps_nil
  | cons c l => rw [steps, List.splitOn_intercalate _ h (List.cons_ne_nil c l)]

theorem mem_intercalate {c x : Char} {l : List Text} (h : c ∈ List.intercalate [x] l) : c = x ∨ ∃ w ∈ l, c ∈ w := by
  induction l with
  | nil => cases h
  | cons w l ih =>
    cases l with
    | nil => exact .inr ⟨w, List.mem_cons_self, by simpa using h⟩
    | cons v l =>
      rw [List.intercalate_cons_cons, List.append_assoc, List.mem_append, List.mem_append, List.mem_singleton] at h
      rcases h with h | h | h
      · exact .inr ⟨w, List.mem_cons_self, h⟩
      · exact .inl h
      · exact (ih h).imp_right fun ⟨v', hv, hc⟩ => ⟨v', List.mem_cons_of_mem w hv, hc⟩

/-- Only a name stands for a step down. -/
theorem stepOf_eq_down {c : Text} (h : stepOf c = some (.down n)) : c = n.text := by
  rw [stepOf] at h
  split at h
  · cases h
  · split at h
    · cases h
    · split at h
      · cases h
      · split at h
        · rw [← Step.down.inj (Option.some.inj h)]
          rfl
        · cases h

/-- A component that stands for no step is empty, or none. -/
theorem stepOf_eq_none {c : Text} (h : stepOf c = none) : c = [] ∨ '/' ∈ c := by
  rw [stepOf] at h
  split at h
  · exact .inl ‹_›
  · split at h
    · cases h
    · split at h
      · cases h
      · split at h
        · cases h
        · refine .inr ?_
          simp_all [IsName]

theorem eq_map_of_steps {l : List Text} (hl : ∀ c ∈ l, c ≠ [] ∧ '/' ∉ c) (h : l.filterMap stepOf = ns.map .down) :
    l = ns.map Name.text := by
  induction l generalizing ns with
  | nil =>
    obtain rfl : ns = [] := by simpa using h.symm
    rfl
  | cons c l ih =>
    obtain ⟨hne, hc⟩ := hl c List.mem_cons_self
    cases hs : stepOf c with
    | none => exact absurd (stepOf_eq_none hs) (by simp [hne, hc])
    | some x =>
      rw [List.filterMap_cons_some hs] at h
      cases ns with
      | nil => cases h
      | cons n ns =>
        obtain ⟨rfl, ht⟩ := List.cons.inj h
        rw [List.map_cons, ← ih (fun x hx => hl x (List.mem_cons_of_mem c hx)) ht, stepOf_eq_down hs]

/-- The components of a path that has only names are the names. -/
theorem splitComponents_of_steps (h : steps p = ns.map .down) : Rootfs.splitComponents p = ns.map Name.text := by
  apply eq_map_of_steps fun c hc => Root.mem_splitComponents hc
  rw [Rootfs.splitComponents, Root.filterMap_stepOf_filter]
  show (steps p).filter _ = _
  rw [h]
  exact List.filter_eq_self.mpr (by simp)

theorem Spells.splitComponents (h : Spells p ns) : Rootfs.splitComponents p = ns.map Name.text :=
  splitComponents_of_steps h.steps

theorem Spells.steps_concat (h : Spells p (ns ++ [n])) : Filesystem.steps p = ns.map .down ++ [.down n] := by
  rw [h.steps, List.map_append]
  rfl

theorem Spells.nul_names (h : Spells p ns) : ∀ n ∈ ns, '\x00' ∉ n.text := by
  intro n hn hz
  have hm : n.text ∈ Rootfs.splitComponents p := h.splitComponents ▸ List.mem_map_of_mem hn
  exact h.nul (mem_of_mem_splitOn (List.mem_of_mem_filter hm) hz)

theorem Spells.trimLeft (h : Spells p ns) : Spells (trimLeft p) ns :=
  ⟨(steps_trimLeft p).trans h.steps, fun hm => h.nul ((List.dropWhile_sublist _).subset hm)⟩

/-- A path that spells names is cleaned to itself, or to `.` where there are none. -/
theorem Spells.cleanPath (h : Spells p ns) :
    ∃ cleaned, Rootfs.cleanPath p = some cleaned ∧
      (cleaned = ['.'] ∧ ns = [] ∨ cleaned = Filesystem.trimLeft p ∧ cleaned ≠ ['.'] ∧ Spells cleaned ns) := by
  have hz : ¬ p.contains '\x00' = true := by simpa using h.nul
  have ht := h.trimLeft
  rw [Rootfs.cleanPath]
  rw [if_neg hz]
  split
  · rename_i hnil
    refine ⟨['.'], rfl, .inl ⟨rfl, ?_⟩⟩
    have hs := ht.steps
    rw [hnil, steps_nil] at hs
    simpa using hs.symm
  · refine ⟨_, rfl, .inr ⟨rfl, fun hdot => ?_, ht⟩⟩
    have hs := ht.steps
    have hhere : Filesystem.steps ['.'] = [.here] := by decide
    rw [hdot, hhere] at hs
    cases ns with
    | nil => cases hs
    | cons n ns => cases hs

theorem up_notMem_of_steps (h : steps p = ns.map .down) : ['.', '.'] ∉ p.splitOn '/' := by
  intro hc
  have hup : Step.up ∈ steps p := List.mem_filterMap.mpr ⟨_, hc, stepOf_eq_up.mpr rfl⟩
  rw [h] at hup
  simp at hup

/-! ### The text of a list of names -/

/-- The names with slashes between them. -/
def spell (ns : List Name) : Text := List.intercalate ['/'] (ns.map Name.text)

theorem spell_concat (hns : ns ≠ []) : spell (ns ++ [n]) = spell ns ++ '/' :: n.text := by
  induction ns with
  | nil => exact absurd rfl hns
  | cons m ns ih =>
    cases ns with
    | nil =>
      show List.intercalate ['/'] [m.text, n.text] = _
      simp [spell]
    | cons k ns =>
      have hk := ih (List.cons_ne_nil k ns)
      simp only [spell, List.cons_append, List.map_cons, List.intercalate_cons_cons] at hk ⊢
      rw [hk]
      simp

theorem slash_notMem_name (n : Name) : '/' ∉ n.text := by
  have h : IsName n.text = true := n.property
  simp only [IsName, Bool.and_eq_true, Bool.not_eq_true', List.contains_eq_mem, decide_eq_false_iff_not] at h
  exact h.1.1.2

theorem name_ne_nil (n : Name) : n.text ≠ [] := by
  have h : IsName n.text = true := n.property
  simp only [IsName, Bool.and_eq_true, Bool.not_eq_true', List.isEmpty_eq_false_iff] at h
  exact h.1.1.1

theorem mem_spell {c : Char} (h : c ∈ spell ns) : c = '/' ∨ ∃ n ∈ ns, c ∈ n.text := by
  rcases mem_intercalate h with hc | ⟨w, hw, hc⟩
  · exact .inl hc
  · obtain ⟨n, hn, rfl⟩ := List.mem_map.mp hw
    exact .inr ⟨n, hn, hc⟩

theorem steps_spell (ns : List Name) : steps (spell ns) = ns.map .down := by
  rw [spell, steps_intercalate]
  · rw [List.filterMap_map, ← List.filterMap_eq_map]
    refine List.filterMap_congr fun n _ => ?_
    have hn : steps n.text = [.down n] := steps_name n
    rw [steps_of_notMem (slash_notMem_name n)] at hn
    exact Option.toList_eq_singleton_iff.mp hn
  · simp only [List.mem_map, forall_exists_index, and_imp, forall_apply_eq_imp_iff₂]
    exact fun n _ => slash_notMem_name n

theorem spells_spell (hns : ∀ n ∈ ns, '\x00' ∉ n.text) : Spells (spell ns) ns := by
  refine ⟨steps_spell ns, fun h => ?_⟩
  rcases mem_spell h with h | ⟨n, hn, h⟩
  · cases h
  · exact hns n hn h

theorem trailingSlash_concat_name (q : Text) (n : Name) : trailingSlash (q ++ n.text) = false := by
  rw [trailingSlash, List.getLast?_append_of_ne_nil _ (name_ne_nil n)]
  rw [beq_eq_false_iff_ne]
  exact fun h => slash_notMem_name n (List.mem_of_getLast? h)

theorem spell_ne_nil (hns : ns ≠ []) : spell ns ≠ [] := by
  intro h
  obtain ⟨n, ms, rfl⟩ := List.exists_cons_of_ne_nil hns
  rw [spell] at h
  cases hn : n.text with
  | nil => exact name_ne_nil n hn
  | cons c w =>
    rw [List.map_cons, hn, List.intercalate_cons_cons_left] at h
    cases h

theorem built_spell (ms : List Name) (n : Name) :
    (if (spell ms).isEmpty then n.text else spell ms ++ '/' :: n.text) = spell (ms ++ [n]) := by
  by_cases hms : ms = []
  · subst hms
    show n.text = List.intercalate ['/'] [n.text]
    rw [List.intercalate_singleton]
  · rw [if_neg (by simpa using spell_ne_nil hms), spell_concat hms]

theorem trailingSlash_spell : trailingSlash (spell (ns ++ [n])) = false := by
  by_cases hns : ns = []
  · subst hns
    show trailingSlash (List.intercalate ['/'] [n.text]) = false
    rw [List.intercalate_singleton]
    exact trailingSlash_concat_name [] n
  · rw [spell_concat hns, List.append_cons]
    exact trailingSlash_concat_name (spell ns ++ ['/']) n

/-- **Cleaning keeps the names**. -/
theorem pathClean_of_steps (h : steps p = ns.map .down) :
    pathClean p = if p.head? == some '/' then '/' :: spell ns else if ns = [] then ['.'] else spell ns := by
  have hc : (p.splitOn '/').filter (fun c => c != [] && c != ['.']) = ns.map Name.text := splitComponents_of_steps h
  unfold pathClean
  dsimp only
  rw [foldl_cleanStep (up_notMem_of_steps h), List.append_nil, List.reverse_reverse, hc]
  simp only [List.map_eq_nil_iff]
  rfl

theorem Spells.pathClean (h : Spells p ns) :
    pathClean p = if p.head? == some '/' then '/' :: spell ns else if ns = [] then ['.'] else spell ns :=
  pathClean_of_steps h.steps

theorem head?_spell : (spell ns).head? ≠ some '/' := by
  cases ns with
  | nil => simp [spell]
  | cons n ns =>
    intro h
    have hmem : '/' ∈ n.text := by
      cases hn : n.text with
      | nil => exact absurd hn (name_ne_nil n)
      | cons c w =>
        rw [spell] at h
        rw [List.map_cons, hn, List.intercalate_cons_cons_left] at h
        rw [Option.some.inj h]
        exact List.mem_cons_self
    exact slash_notMem_name n hmem

theorem Spells.slash (h : Spells p ns) : Spells ('/' :: p) ns :=
  ⟨(steps_slash p).trans h.steps, fun hm => (List.mem_cons.mp hm).elim (by simp) h.nul⟩

/-! ### The last name -/

/-- The text up to the last slash. -/
def upToSlash (p : Text) : Text := (p.reverse.dropWhile (· != '/')).reverse

/-- The text after the last slash. -/
def lastComponent (p : Text) : Text := (p.reverse.takeWhile (· != '/')).reverse

theorem upToSlash_append (p : Text) : upToSlash p ++ lastComponent p = p := by
  rw [upToSlash, lastComponent, ← List.reverse_append, List.takeWhile_append_dropWhile, List.reverse_reverse]

theorem slash_notMem_lastComponent (p : Text) : '/' ∉ lastComponent p := by
  intro hm
  have := List.mem_takeWhile_imp (List.mem_reverse.mp hm)
  simp at this

theorem upToSlash_eq (p : Text) : upToSlash p = [] ∨ ∃ u, upToSlash p = u ++ ['/'] := by
  rw [upToSlash]
  rcases hd : p.reverse.dropWhile (· != '/') with _ | ⟨c, w⟩
  · exact .inl rfl
  · have hc := List.head?_dropWhile_not (· != '/') p.reverse
    rw [hd] at hc
    refine .inr ⟨w.reverse, ?_⟩
    rw [List.reverse_cons]
    simp_all

theorem head?_upToSlash (hroot : p.head? = some '/') : (upToSlash p).head? = some '/' := by
  rw [← upToSlash_append p] at hroot
  cases hu : upToSlash p with
  | nil =>
    rw [hu, List.nil_append] at hroot
    exact absurd (List.mem_of_mem_head? hroot) (slash_notMem_lastComponent p)
  | cons c w =>
    rw [hu] at hroot
    exact hroot

/-- The directory of a path that starts with a slash does so, too. -/
theorem head?_pathDir (hroot : p.head? = some '/') : (pathDir p).head? = some '/' := by
  show (pathClean (upToSlash p)).head? = some '/'
  unfold pathClean
  dsimp only
  rw [head?_upToSlash hroot]
  rfl

theorem lastComponent_ne_nil (hp : trailingSlash p = false) (hne : p ≠ []) : lastComponent p ≠ [] := by
  intro hnil
  have hsplit := upToSlash_append p
  rw [hnil, List.append_nil] at hsplit
  rcases upToSlash_eq p with hu | ⟨u, hu⟩ <;> rw [hsplit] at hu
  · exact hne hu
  · rw [hu] at hp
    simp [trailingSlash] at hp

theorem lastComponent_of_slash (hp : trailingSlash p = true) : lastComponent p = [] := by
  obtain ⟨u, rfl⟩ := List.getLast?_eq_some_iff.mp (beq_iff_eq.mp hp)
  simp [lastComponent]

theorem lastComponent_trimLeft (p : Text) : lastComponent (trimLeft p) = lastComponent p := by
  induction p with
  | nil => rfl
  | cons c p ih =>
    by_cases hc : c = '/'
    · subst hc
      rw [show trimLeft ('/' :: p) = trimLeft p from rfl, ih, lastComponent, lastComponent, List.reverse_cons,
        List.takeWhile_append]
      split
      · rename_i hall
        rw [(List.takeWhile_sublist _).eq_of_length hall, show ['/'].takeWhile (· != '/') = [] from rfl, List.append_nil]
      · rfl
    · rw [show trimLeft (c :: p) = c :: p from List.dropWhile_cons_of_neg (by simpa using hc)]

/-- The last step of a path is what comes after the last slash. -/
theorem steps_lastComponent (p : Text) :
    Filesystem.steps p = Filesystem.steps (upToSlash p) ++ (stepOf (lastComponent p)).toList := by
  have hlast := steps_of_notMem (slash_notMem_lastComponent p)
  rw [← hlast]
  conv_lhs => rw [← upToSlash_append p]
  rcases upToSlash_eq p with hu | ⟨u, hu⟩ <;> rw [hu]
  · rw [List.nil_append, steps_nil, List.nil_append]
  · rw [List.append_assoc, List.singleton_append, steps_append_slash, steps_append_singleton_slash]

/-- What comes after the last slash is a name, or `.` or `..`. -/
theorem lastComponent_cases (hp : trailingSlash p = false) (hne : p ≠ []) :
    (∃ n, lastComponent p = n.text ∧ Filesystem.steps p = Filesystem.steps (upToSlash p) ++ [.down n]) ∨
      lastComponent p = ['.'] ∨ lastComponent p = ['.', '.'] := by
  have hsteps := steps_lastComponent p
  cases hs : stepOf (lastComponent p) with
  | none =>
    exact absurd (stepOf_eq_none hs) (by simp [lastComponent_ne_nil hp hne, slash_notMem_lastComponent p])
  | some x =>
    rw [hs] at hsteps
    cases x with
    | down n => exact .inl ⟨n, stepOf_eq_down hs, hsteps⟩
    | here => exact .inr (.inl (stepOf_eq_here.mp hs))
    | up => exact .inr (.inr (stepOf_eq_up.mp hs))

/-- What comes up to the last slash spells all names but the last, which comes after it. -/
theorem Spells.upToSlash (h : Spells p (ns ++ [n])) (hp : trailingSlash p = false) :
    lastComponent p = n.text ∧ Spells (upToSlash p) ns := by
  have hsteps := h.steps_concat
  have hne : p ≠ [] := by
    rintro rfl
    rw [steps_nil] at hsteps
    simp at hsteps
  rw [steps_lastComponent] at hsteps
  rcases lastComponent_cases hp hne with ⟨m, hm, -⟩ | hm | hm <;> rw [hm] at hsteps
  · have hname : (stepOf m.text).toList = [.down m] := by
      rw [← steps_of_notMem (slash_notMem_name m)]
      exact steps_name m
    rw [hname] at hsteps
    obtain ⟨hns, hmn⟩ := List.append_inj' hsteps rfl
    obtain rfl : m = n := Step.down.inj (List.singleton_injective hmn)
    refine ⟨hm, hns, fun hz => h.nul ?_⟩
    rw [← upToSlash_append p]
    exact List.mem_append_left _ hz
  · have hhere : stepOf ['.'] = some .here := by decide
    rw [hhere] at hsteps
    simpa using congrArg List.getLast? hsteps
  · rw [stepOf_eq_up.mpr rfl] at hsteps
    simpa using congrArg List.getLast? hsteps

/-- The directory of a path that starts with a slash. -/
theorem Spells.pathDir (h : Spells p (ns ++ [n])) (hp : trailingSlash p = false) (hroot : p.head? = some '/') :
    pathDir p = '/' :: spell ns := by
  have hup := (h.upToSlash hp).2
  rw [Filesystem.pathDir]
  refine hup.pathClean.trans ?_
  rw [head?_upToSlash hroot]
  rfl

/-! ### Joining -/

theorem cleanPath_of_ne (hz : '\x00' ∉ p) (hne : trimLeft p ≠ []) : Rootfs.cleanPath p = some (trimLeft p) := by
  rw [Rootfs.cleanPath, if_neg (by simpa using hz), if_neg hne]

theorem resolve_of_ne (hz : '\x00' ∉ p) (hne : trimLeft p ≠ [] ∧ trimLeft p ≠ ['.']) :
    Rootfs.resolve p = some ('/' :: trimLeft p) := by
  rw [Rootfs.resolve, cleanPath_of_ne hz hne.1, Option.map_some, if_neg hne.2]

theorem head?_trimLeft (p : Text) : (trimLeft p).head? ≠ some '/' := by
  intro h
  have := List.head?_dropWhile_not (· == '/') p
  rw [trimLeft] at h
  rw [h] at this
  cases this

theorem trimLeft_of_head? (hp : p.head? ≠ some '/') : trimLeft p = p := List.dropWhile_beq_eq_self_of_head?_ne hp

theorem trim_eq (hp : trailingSlash p = false) : trim p = trimLeft p := by
  by_cases ht : trimLeft p = []
  · rw [trim, ht]
    rfl
  · have hlast := Rootfs.trailingSlash_trimLeft ht
    rw [hp, trailingSlash, beq_eq_false_iff_ne, List.getLast?_eq_head?_reverse] at hlast
    rw [trim, trimLeft_of_head? hlast, List.reverse_reverse]

theorem trimLeft_join (hp : trailingSlash p = false) (ht : trimLeft p ≠ []) (q : Text) :
    trimLeft (Rootfs.join p q) = trimLeft p ++ '/' :: q := by
  have htrim := trim_eq hp
  rw [Rootfs.join]
  rw [htrim, if_neg ht, List.cons_append]
  show trimLeft (trimLeft p ++ '/' :: q) = _
  apply trimLeft_of_head?
  rw [List.head?_append_of_ne_nil _ ht]
  exact head?_trimLeft p

theorem nul_join (hp : '\x00' ∉ p) (hq : '\x00' ∉ q) : '\x00' ∉ Rootfs.join p q := by
  have htrim : '\x00' ∉ trim p := by
    intro h
    rw [trim, trimLeft] at h
    have h' := List.mem_reverse.mp ((List.dropWhile_sublist _).subset (List.mem_reverse.mp h))
    exact hp ((List.dropWhile_sublist _).subset h')
  rw [Rootfs.join]
  split <;> simp [htrim, hq]

theorem mem_join {c : Char} (hc : c ∈ q) : c ∈ Rootfs.join p q := by
  rw [Rootfs.join]
  split <;> simp [hc]

theorem Spells.join (hp : Spells p ms) (hq : Spells q ns) : Spells (Rootfs.join p q) (ms ++ ns) := by
  refine ⟨?_, nul_join hp.nul hq.nul⟩
  rw [Rootfs.steps_join, hp.steps, hq.steps, List.map_append]

theorem head?_join (p q : Text) : (Rootfs.join p q).head? = some '/' := by
  rw [Rootfs.join]
  split <;> rfl

theorem trailingSlash_join {p q : Text} (hq : q ≠ []) : trailingSlash (Rootfs.join p q) = trailingSlash q := by
  unfold Rootfs.join trailingSlash
  split
  · rw [List.getLast?_cons_of_ne_nil hq]
  · rw [List.getLast?_append_of_ne_nil _ (List.cons_ne_nil _ _), List.getLast?_cons_of_ne_nil hq]

/-- A path with the names of a place below it. -/
def pathBelow (p : Text) : Loc Name → Text
  | [] => p
  | n :: r => pathBelow p r ++ '/' :: n.text

theorem pathBelow_append (p q : Text) (r : Loc Name) : pathBelow (p ++ q) r = p ++ pathBelow q r := by
  induction r with
  | nil => rfl
  | cons n r ih => rw [pathBelow, ih, pathBelow, List.append_assoc]

theorem pathBelow_name (r : Loc Name) : pathBelow n.text r = spell (n :: r.reverse) := by
  induction r with
  | nil =>
    show n.text = List.intercalate ['/'] [n.text]
    rw [List.intercalate_singleton]
  | cons m r ih =>
    rw [pathBelow, ih, List.reverse_cons, ← List.cons_append, spell_concat (List.cons_ne_nil _ _)]

end OpenshiftConsole.Filesystem
