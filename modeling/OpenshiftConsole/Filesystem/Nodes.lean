import OpenshiftConsole.Filesystem.Spelling

/-!
# What stands where

`nodeAt` is a file system without modes, owners and times: what stands at each location. A kernel
that refuses nothing puts what a call makes where the path's names lead to (`Names`), and nothing else
changes; so for each call there is an equation between what stands where before and after it.
-/

namespace OpenshiftConsole.Filesystem

open OpenshiftConsole.Library.Lines (Text)
open OpenshiftConsole.Library.PathWalk OpenshiftConsole.Library.FileTree

/-- What stands at a location. -/
def nodeAt (d : Fs) (L : Loc Name) : Option Node := (d.tree.get L).map Entry.node

variable {K : Kernel} {d d' : Fs} {D E L M : Loc Name} {p : Text} {n m : Name} {ns ms ks : List Name}
  {s t : List (Step Name)}

theorem nodeAt_eq_none : nodeAt d L = none ↔ d.tree.get L = none := by simp [nodeAt]

theorem kindAt_dir_iff : d.tree.kindAt L = some .dir ↔ nodeAt d L = some .dir := by
  rw [nodeAt, Tree.kindAt]
  cases d.tree.get L with
  | none => simp
  | some e =>
    obtain ⟨node, mode, uid, gid, mtime⟩ := e
    cases node <;> simp [Entry.kind]

theorem kindAt_congr (h : nodeAt d' L = nodeAt d M) : d'.tree.kindAt L = d.tree.kindAt M := by
  unfold nodeAt at h
  unfold Tree.kindAt
  cases he : d.tree.get M with
  | none =>
    rw [he] at h
    rw [Option.map_eq_none_iff.mp h]
  | some e =>
    rw [he] at h
    obtain ⟨e', he', hnode⟩ := Option.map_eq_some_iff.mp h
    rw [he', Option.map_some, Option.map_some, Entry.kind, Entry.kind, hnode]

/-- Where nothing stands, something is put. -/
theorem extends_of_update (h : nodeAt d' = Function.update (nodeAt d) M (some node)) (hM : nodeAt d M = none) :
    Extends d.tree.kindAt d'.tree.kindAt := by
  intro L a ha
  have hL : L ≠ M := by
    rintro rfl
    rw [(Tree.kindAt_eq_none _).mpr (nodeAt_eq_none.mp hM)] at ha
    cases ha
  rw [← ha]
  exact kindAt_congr (by rw [h, Function.update_of_ne hL])

theorem nodeAt_alter {b : Act} {f : Entry → Entry} {hf : ∀ e, (f e).kind = e.kind} (hnode : ∀ e, (f e).node = e.node) :
    nodeAt (d.alter b M f hf) = nodeAt d := by
  funext L
  by_cases hL : L = M
  · refine (congrArg (Option.map Entry.node) (if_pos hL)).trans ?_
    rw [Option.map_map]
    exact congrArg (fun g => Option.map g (d.tree.get L)) (funext hnode)
  · exact congrArg (Option.map Entry.node) (if_neg hL)

/-! ### The calls that make something -/

theorem nodeAt_create {c : Call} {e : Entry} (h : create K d c e M = .ok d') :
    nodeAt d' = Function.update (nodeAt d) M (some e.node) := by
  obtain ⟨n, D, rfl, hD, hM, rfl⟩ := create_cases h
  rw [nodeAt_alter (Entry.node_setMtime _)]
  funext L
  by_cases hL : L = n :: D
  · rw [hL, Function.update_self]
    exact congrArg (Option.map Entry.node) (if_pos rfl)
  · rw [Function.update_of_ne hL]
    exact congrArg (Option.map Entry.node) (if_neg hL)

/-- A kernel that refuses nothing. -/
def Kernel.Willing (K : Kernel) : Prop := ∀ t c L, K.refuses t c L = false

theorem create_willing (hK : K.Willing) (c : Call) (e : Entry) (hD : nodeAt d D = some .dir)
    (hM : nodeAt d (n :: D) = none) : ∃ d', create K d c e (n :: D) = .ok d' := by
  rw [create_missing c e (kindAt_dir_iff.mpr hD) (nodeAt_eq_none.mp hM), hK, if_neg Bool.false_ne_true]
  exact ⟨_, rfl⟩

theorem nodeAt_write {bytes : Text} (h : nodeAt d L = some (.file [])) :
    nodeAt (write K d L 0 bytes) = Function.update (nodeAt d) L (some (.file bytes)) := by
  rw [write]
  split
  · rename_i hb
    rw [List.isEmpty_iff.mp hb, ← h, Function.update_eq_self]
  · funext M
    by_cases hM : M = L
    · subst hM
      obtain ⟨e, he, hnode⟩ := Option.map_eq_some_iff.mp h
      rw [Function.update_self]
      refine (congrArg (Option.map Entry.node) (if_pos rfl)).trans ?_
      rw [he, Option.map_some, Option.map_some, Entry.setData, hnode]
      simp [overwriteAt]
    · rw [Function.update_of_ne hM]
      exact congrArg (Option.map Entry.node) (if_neg hM)

/-! ### Where a path leads -/

/-- The steps lead to a directory. -/
structure Leads (d : Fs) (s : List (Step Name)) (D : Loc Name) : Prop where
  walk : walk d.tree.kindAt maxSymlinks [] s = .found D
  dir : nodeAt d D = some .dir

/-- The path names the place `n` of the directory `D`. -/
structure Names (d : Fs) (p : Text) (s : List (Step Name)) (n : Name) (D : Loc Name) : Prop where
  steps : steps p = s ++ [.down n]
  nul : '\x00' ∉ p
  slash : trailingSlash p = false
  leads : Leads d s D

theorem Leads.mono (h : Leads d s D) (he : Extends d.tree.kindAt d'.tree.kindAt) : Leads d' s D :=
  ⟨walk_found_of_extends he h.walk, kindAt_dir_iff.mp (he _ _ (kindAt_dir_iff.mpr h.dir))⟩

theorem Leads.down (h : Leads d s D) (hn : nodeAt d (n :: D) = some .dir) : Leads d (s ++ [.down n]) (n :: D) :=
  ⟨walk_down_found h.walk (kindAt_dir_iff.mpr h.dir) (.inl (kindAt_dir_iff.mpr hn)), hn⟩

/-- A place below a directory that steps lead to. -/
theorem leads_below {y : Loc Name} (h : Leads d s D) (hy : nodeAt d (y ++ D) = some .dir) :
    Leads d (s ++ y.reverse.map .down) (y ++ D) := by
  induction y with
  | nil =>
    rw [List.reverse_nil, List.map_nil, List.append_nil]
    exact h
  | cons n y ih =>
    have hdir : nodeAt d (y ++ D) = some .dir := by
      apply kindAt_dir_iff.mp
      exact d.tree.dir_tail (kindAt_dir_iff.mpr hy)
    rw [List.reverse_cons, List.map_append, ← List.append_assoc]
    exact (ih hdir).down hy

/-- Steps lead to a directory if more of them do. -/
theorem Leads.take (h : Leads d (s ++ t) D) : ∃ E, Leads d s E := by
  by_cases ht : t = []
  · rw [ht, List.append_nil] at h
    exact ⟨D, h⟩
  · obtain ⟨E, hE, hdir⟩ := d.tree.walk_take d.tree.root_dir ht (by rw [h.walk]; simp)
    exact ⟨E, hE, kindAt_dir_iff.mp hdir⟩

theorem Names.ne_root (h : Names d p s n D) : trimLeft p ≠ [] ∧ trimLeft p ≠ ['.'] := by
  rw [← not_or]
  intro hroot
  rcases Rootfs.steps_of_root hroot with hs | hs <;> rw [h.steps] at hs
  · simp at hs
  · simpa using congrArg List.getLast? hs

theorem Names.host (h : Names d p s n D) :
    ∃ host, Rootfs.resolve p = some host ∧ Filesystem.steps host = s ++ [.down n] ∧ trailingSlash host = false := by
  refine ⟨_, resolve_of_ne h.nul h.ne_root, ?_, ?_⟩
  · rw [steps_slash, steps_trimLeft, h.steps]
  · rw [trailingSlash, List.getLast?_cons_of_ne_nil h.ne_root.1]
    exact (Rootfs.trailingSlash_trimLeft h.ne_root.1).trans h.slash

theorem Names.cleanPath (h : Names d p s n D) : Rootfs.cleanPath p ≠ some ['.'] := by
  rw [cleanPath_of_ne h.nul h.ne_root.1]
  exact fun he => h.ne_root.2 (Option.some.inj he)

theorem Names.place (h : Names d p s n D) : place d.tree.kindAt maxSymlinks (s ++ [.down n]) = some (n :: D) :=
  place_eq_some.mpr ⟨_, n, D, rfl, h.leads.walk, kindAt_dir_iff.mpr h.leads.dir, rfl⟩

/-- The path of a place further down. -/
theorem Leads.join {L : Loc Name} (h : Leads d (Filesystem.steps p) L) (hz : '\x00' ∉ p) (hn : '\x00' ∉ n.text) :
    Names d (Rootfs.join p n.text) (Filesystem.steps p) n L := by
  refine ⟨(Rootfs.steps_join p n.text).trans (congrArg _ (steps_name n)), nul_join hz hn, ?_, h⟩
  rw [trailingSlash_join (name_ne_nil n)]
  exact trailingSlash_concat_name [] n

/-! ### Calls that look -/

theorem lstat_place {e : Entry} (ht : trailingSlash p = false)
    (hp : place d.tree.kindAt maxSymlinks (steps p) = some L) (he : d.tree.get L = some e) : lstat d p = .ok (L, e) := by
  obtain ⟨i, n, D, hs, -, -, -⟩ := place_eq_some.mp hp
  rw [lstat, nofollow, if_neg (by simp [ht, splitLast_eq_some.mpr hs]), hp]
  dsimp only
  rw [if_pos (by rw [he]; rfl), entryAt, he]

theorem Names.lstat {e : Entry} (h : Names d p s n D) (he : d.tree.get (n :: D) = some e) :
    Root.lstat d p = .ok (n :: D, e) := by
  obtain ⟨host, hr, hs, ht⟩ := h.host
  rw [Root.lstat, if_neg h.cleanPath, Root.onHost, hr]
  apply lstat_place ht _ he
  rw [hs]
  exact h.place

theorem Names.lstat_missing (h : Names d p s n D) (hn : nodeAt d (n :: D) = none) :
    (Root.lstat d p).isOk = false := by
  obtain ⟨host, hr, hs, ht⟩ := h.host
  rw [Root.lstat, if_neg h.cleanPath, Root.onHost, hr]
  show (Filesystem.lstat d host).isOk = false
  rw [Filesystem.lstat, nofollow, if_neg (by simp [ht, hs, splitLast_eq_some.mpr rfl]), hs, h.place]
  dsimp only
  rw [nodeAt_eq_none.mp hn]
  rfl

theorem Names.follow (h : Names d p s n D)
    (hk : d.tree.kindAt (n :: D) = some .dir ∨ d.tree.kindAt (n :: D) = some .leaf) : follow d p = .found (n :: D) := by
  rw [Filesystem.follow, fullSteps, h.slash, if_neg Bool.false_ne_true, h.steps]
  exact walk_down_found h.leads.walk (kindAt_dir_iff.mpr h.leads.dir) hk

/-- The path of a directory that is there. -/
theorem Names.stat_dir (h : Names d p s n D) (hE : Leads d (s ++ [.down n]) E) :
    ∃ e, Root.stat d p = .ok (E, e) ∧ e.node = .dir := by
  obtain ⟨e, he, hnode⟩ := Option.map_eq_some_iff.mp hE.dir
  obtain ⟨host, hr, -, -⟩ := h.host
  refine ⟨e, Root.stat_iff.mpr ⟨by rw [hr]; rfl, ?_, he⟩, hnode⟩
  rw [Filesystem.follow, fullSteps, h.slash, if_neg Bool.false_ne_true, h.steps]
  exact hE.walk

/-- A path that is not followed leads to the place that its last name has in the directory before it. -/
theorem nofollow_place (hf : nofollow d p = .found L) (ht : trailingSlash p = false) (hs : steps p = s ++ [.down n]) :
    ∃ D, L = n :: D ∧ Leads d s D := by
  rw [nofollow, if_neg (by simp [ht, splitLast_eq_some.mpr hs])] at hf
  split at hf
  · cases hf
  · rename_i M hM
    obtain ⟨i, m, D, hs', hw, hD, rfl⟩ := place_eq_some.mp hM
    split at hf
    · rw [hs] at hs'
      obtain rfl := last_of_steps hs'
      obtain rfl := List.append_cancel_right hs'
      exact ⟨D, (Stop.found.inj hf).symm, hw, kindAt_dir_iff.mp hD⟩
    · cases hf

theorem get_of_lstat {e : Entry} (hl : Root.lstat d p = .ok (L, e)) : d.tree.get L = some e := by
  rw [Root.lstat] at hl
  split at hl
  · exact (Root.stat_iff.mp hl).2.2
  · obtain ⟨host, -, hl⟩ := Root.onHost_ok hl
    exact (entryAt_eq_ok.mp hl).2

theorem nul_of_lstat {e : Entry} (hl : Root.lstat d p = .ok (L, e)) : '\x00' ∉ p := by
  intro hz
  have hc : Rootfs.cleanPath p = none := if_pos (by simpa using hz)
  rw [Root.lstat, if_neg (by simp [hc]), Root.onHost, Rootfs.resolve, hc] at hl
  cases hl

/-- A path that is found without following its last name is found there when that is followed, too, if
there is no link. -/
theorem follow_of_lstat {e : Entry} (hl : Root.lstat d p = .ok (L, e))
    (hk : d.tree.kindAt L = some .dir ∨ d.tree.kindAt L = some .leaf) : follow d p = .found L := by
  rw [Root.lstat] at hl
  split at hl
  · exact (Root.stat_iff.mp hl).2.1
  · obtain ⟨host, hr, hl⟩ := Root.onHost_ok hl
    rw [follow, ← Rootfs.walk_resolve hr]
    exact follow_of_nofollow (entryAt_eq_ok.mp hl).1 hk

/-- The path of a directory leads to it. -/
theorem leads_of_lstat {e : Entry} (hl : Root.lstat d p = .ok (L, e)) (he : e.node = .dir) : Leads d (steps p) L := by
  have hdir : nodeAt d L = some .dir := by
    rw [nodeAt, get_of_lstat hl, Option.map_some, he]
  have hf := follow_of_lstat hl (.inl (kindAt_dir_iff.mpr hdir))
  refine ⟨?_, hdir⟩
  rw [follow, fullSteps] at hf
  split at hf
  · -- from a directory, the slash at the end goes nowhere
    obtain ⟨E, hE, hdirE⟩ := d.tree.walk_take d.tree.root_dir (List.cons_ne_nil _ _) (by rw [hf]; simp)
    have hhere := walk_append hE hdirE (t := [.here]) rfl (by simp [advance])
    rw [hf] at hhere
    obtain rfl := Stop.found.inj hhere
    exact hE
  · exact hf

/-- For a path with a last name `Lstat` finds what the kernel does. -/
theorem lstat_host {e : Entry} (hs : steps p = s ++ [.down m]) (hl : Root.lstat d p = .ok (L, e)) :
    ∃ host, Rootfs.resolve p = some host ∧ steps host = s ++ [.down m] ∧
      trailingSlash host = trailingSlash p ∧ nofollow d host = .found L := by
  have hne : ¬ (trimLeft p = [] ∨ trimLeft p = ['.']) := by
    intro hroot
    rcases Rootfs.steps_of_root hroot with h | h <;> rw [hs] at h
    · simp at h
    · simpa using congrArg List.getLast? h
  rw [Root.lstat, if_neg fun hc => hne (Rootfs.trimLeft_of_cleanPath hc)] at hl
  obtain ⟨host, hr, hl⟩ := Root.onHost_ok hl
  obtain ⟨hsteps, hslash⟩ := (Rootfs.resolve_eq_some hr).resolve_right fun h => hne h.2
  exact ⟨host, hr, hsteps.trans hs, hslash, (entryAt_eq_ok.mp hl).1⟩

/-- The path of a name in a directory leads to it, also in a tree with fewer entries. -/
theorem lstat_join {e : Entry} (hs : Extends d'.tree.kindAt d.tree.kindAt) (hD : Leads d (steps p) L)
    (hl : Root.lstat d' (Rootfs.join p m.text) = .ok (M, e)) : M = m :: L := by
  have hsteps : steps (Rootfs.join p m.text) = steps p ++ [.down m] :=
    (Rootfs.steps_join p m.text).trans (congrArg _ (steps_name m))
  obtain ⟨host, -, hhost, hslash, hf⟩ := lstat_host hsteps hl
  rw [trailingSlash_join (name_ne_nil m)] at hslash
  obtain ⟨E, rfl, hE⟩ := nofollow_place hf (hslash.trans (trailingSlash_concat_name [] m)) hhost
  rw [Stop.found.inj ((walk_found_of_extends hs hE.walk).symm.trans hD.walk)]

/-- The path is passed to the kernel, and `Lstat` and `Readlink` look at the same entry. -/
theorem readlink_of_lstat {e : Entry} {target : Text} (hl : Root.lstat d p = .ok (L, e))
    (hdot : Rootfs.cleanPath p ≠ some ['.']) (hlink : e.node = .symlink target) : Root.readlink d p = .ok target := by
  rw [Root.lstat, if_neg hdot] at hl
  obtain ⟨host, hr, hl⟩ := Root.onHost_ok hl
  rw [Root.readlink, Root.onHost, hr]
  dsimp only
  rw [hl]
  dsimp only
  rw [hlink]

/-- What is opened is what the path leads to. -/
theorem openRead_follow (hf : follow d p = .found M) (ho : Root.openRead K d p = .ok L) : L = M := by
  obtain ⟨host, hr, ho⟩ := Root.onHost_ok ho
  have hw : follow d host = .found M := (Rootfs.walk_resolve hr _ _).trans hf
  rw [Filesystem.openRead, hw] at ho
  dsimp only at ho
  split at ho
  · cases ho
  · exact (Except.ok.inj ho).symm

theorem dirent_name {host : Text} : (Root.dirent d host p m).map Root.Dirent.name =
    Option.guard (fun m => (lstat d (pathClean (host ++ '/' :: m.text))).isOk) m := by
  obtain ⟨found, hl⟩ : ∃ found, lstat d (pathClean (host ++ '/' :: m.text)) = found := ⟨_, rfl⟩
  have hl' : lstat d (pathClean (host ++ '/' :: m.val)) = found := hl
  rw [Root.dirent, hl', Option.guard, hl]
  cases found with
  | error err => rfl
  | ok found =>
    dsimp only
    split <;> rfl

/-- What is listed of a directory: the names for which the cleaned path leads to an entry. -/
theorem list_names {host : Text} {entries : List Root.Dirent} {truncated : Bool} (hr : Rootfs.resolve p = some host)
    (hf : follow d p = .found M) (hl : Root.list K d p 0 = .ok (L, entries, truncated)) :
    entries.map Root.Dirent.name = ((d.tree.children M).insertionSort fun a b => a.val ≤ b.val).filter
      fun m => (lstat d (pathClean (host ++ '/' :: m.text))).isOk := by
  rw [Root.list, Root.onHost, hr] at hl
  dsimp only at hl
  split at hl
  · cases hl
  · rename_i L' ho
    obtain rfl : L' = M := by
      apply openRead_follow (K := K) (p := p) hf
      rw [Root.openRead, Root.onHost, hr]
      exact ho
    split at hl
    · cases hl
    · rename_i names hnames
      have hn : names = d.tree.children L' := by
        rw [readdir] at hnames
        split at hnames
        · cases hnames
        · split at hnames
          · cases hnames
          · exact (Except.ok.inj hnames).symm
      rw [if_neg (by simp)] at hl
      obtain ⟨-, hentries, -⟩ : _ ∧ _ ∧ _ := by simpa using hl
      rw [← hentries, hn, List.map_filterMap, ← List.filterMap_eq_filter]
      exact congrArg (fun f => List.filterMap f _) (funext fun m => dirent_name)

/-! ### Calls that make -/

theorem Names.symlink (h : Names d p s n D) (hK : K.Willing) (hn : nodeAt d (n :: D) = none) {target : Text}
    (htarget : target ≠ [] ∧ '\x00' ∉ target) :
    ∃ d', Root.symlink K d target p = .ok d' ∧
      nodeAt d' = Function.update (nodeAt d) (n :: D) (some (.symlink target)) := by
  obtain ⟨host, hr, hs, ht⟩ := h.host
  obtain ⟨d', hd'⟩ := create_willing hK .symlink (newEntry K (.symlink target) 0o777) h.leads.dir hn
  refine ⟨d', ?_, nodeAt_create hd'⟩
  rw [Root.symlink, Root.onHost, hr]
  show Filesystem.symlink K d target host = _
  rw [Filesystem.symlink, if_neg (by simpa using htarget.2), if_neg (by simp [htarget.1, ht]),
    if_neg (by simp [hs, splitLast_eq_some.mpr rfl]), hs, h.place]
  exact hd'

theorem Names.openWrite (h : Names d p s n D) (hK : K.Willing) (hn : nodeAt d (n :: D) = none) (perm : ℕ) :
    ∃ d', Root.openWrite K d p perm true = .ok (n :: D, d') ∧
      nodeAt d' = Function.update (nodeAt d) (n :: D) (some (.file [])) := by
  obtain ⟨host, hr, hs, ht⟩ := h.host
  obtain ⟨d', hd'⟩ := create_willing hK .create (newEntry K (.file []) (K.masked perm)) h.leads.dir hn
  have hw := walk_down_missing h.leads.walk (kindAt_dir_iff.mpr h.leads.dir)
    ((Tree.kindAt_eq_none _).mpr (nodeAt_eq_none.mp hn))
  refine ⟨d', ?_, nodeAt_create hd'⟩
  rw [Root.openWrite, Root.onHost, hr]
  show Filesystem.openWrite K d host perm true = _
  rw [Filesystem.openWrite, if_neg (by simp [ht, hs, splitLast_eq_some.mpr rfl]), hs, hw]
  dsimp only
  rw [hd']
  rfl

theorem Names.mkdir (h : Names d p s n D) (hK : K.Willing) (hn : nodeAt d (n :: D) = none) (perm : ℕ) :
    ∃ d', Root.mkdir K d p perm = .ok d' ∧ nodeAt d' = Function.update (nodeAt d) (n :: D) (some .dir) := by
  obtain ⟨host, hr, hs, ht⟩ := h.host
  obtain ⟨d', hd'⟩ := create_willing hK .mkdir (newEntry K .dir (K.masked perm)) h.leads.dir hn
  refine ⟨d', ?_, nodeAt_create hd'⟩
  rw [Root.mkdir, Root.onHost, hr]
  show Filesystem.mkdir K d host perm = _
  rw [Filesystem.mkdir, if_neg (by simp [hs, splitLast_eq_some.mpr rfl]), hs, h.place]
  exact hd'

theorem Names.mkdir_there (h : Names d p s n D) (hE : Leads d (s ++ [.down n]) E) (perm : ℕ) :
    ∃ err, Root.mkdir K d p perm = .error err := by
  cases hm : Root.mkdir K d p perm with
  | error err => exact ⟨err, rfl⟩
  | ok d' =>
    obtain ⟨i, m, D', hs, hw, hmakes⟩ := Root.mkdir_ok hm
    have hmissing := walk_down_missing hw hmakes.dir hmakes.empty
    rw [← hs, h.steps, hE.walk] at hmissing
    cases hmissing

/-! ### MkdirAll on a path of names -/

theorem names_spell (hnul : ∀ m ∈ ns ++ [n], '\x00' ∉ m.text) (hD : Leads d (ns.map .down) D) :
    Names d ('/' :: spell (ns ++ [n])) (ns.map .down) n D := by
  have hspells := (spells_spell hnul).slash
  refine ⟨hspells.steps_concat, hspells.nul, ?_, hD⟩
  rw [trailingSlash, List.getLast?_cons_of_ne_nil (spell_ne_nil (by simp))]
  exact trailingSlash_spell

/-- The loop passes the directories that are there. -/
theorem mkdirLoop_passes (perm : ℕ) (ms ns ks : List Name) (hnul : ∀ m ∈ ms ++ ns, '\x00' ∉ m.text)
    (hD : Leads d ((ms ++ ns).map .down) D) :
    Root.mkdirLoop K perm (spell ms) ((ns ++ ks).map Name.text) d =
      Root.mkdirLoop K perm (spell (ms ++ ns)) (ks.map Name.text) d := by
  induction ns generalizing ms with
  | nil => rw [List.append_nil, List.nil_append]
  | cons n ns ih =>
    rw [List.append_cons] at hnul hD ⊢
    obtain ⟨E, hE⟩ := (List.map_append ▸ hD).take
    rw [List.map_append] at hE
    obtain ⟨E', hE'⟩ := hE.take
    have hnames := names_spell (fun m hm => hnul m (List.mem_append_left _ hm)) hE'
    obtain ⟨err, herr⟩ := hnames.mkdir_there (K := K) hE perm
    obtain ⟨e, hs, he⟩ := hnames.stat_dir hE
    rw [List.cons_append, List.map_cons, Root.mkdirLoop, built_spell, herr, hs]
    dsimp only
    rw [if_pos he]
    exact ih (ms ++ [n]) hnul hD

/-- The directory that a path of names leads to is there. -/
theorem mkdirAll_there (hp : Spells p ns) (hD : Leads d (ns.map .down) D) (perm : ℕ) :
    Root.mkdirAll K d p perm = (d, none) := by
  obtain ⟨cleaned, hc, ⟨rfl, -⟩ | ⟨-, hdot, hs⟩⟩ := hp.cleanPath
  · rw [Root.mkdirAll, hc]
    rfl
  · rw [Root.mkdirAll, hc]
    dsimp only
    have hpass := mkdirLoop_passes (K := K) perm [] ns [] hs.nul_names hD
    rw [List.append_nil] at hpass
    rw [if_neg hdot, hs.splitComponents]
    exact hpass

/-- A directory is made at the place that a path of names leads to. -/
theorem mkdirAll_missing (hp : Spells p (ns ++ [n])) (hD : Leads d (ns.map .down) D) (hK : K.Willing)
    (hn : nodeAt d (n :: D) = none) (perm : ℕ) :
    ∃ d', Root.mkdirAll K d p perm = (d', none) ∧
      nodeAt d' = Function.update (nodeAt d) (n :: D) (some .dir) := by
  obtain ⟨cleaned, hc, ⟨-, hnil⟩ | ⟨-, hdot, hs⟩⟩ := hp.cleanPath
  · simp at hnil
  · rw [Root.mkdirAll, hc]
    dsimp only
    have hnul := hs.nul_names
    have hpass := mkdirLoop_passes (K := K) perm [] ns [n] (fun m hm => hnul m (List.mem_append_left _ hm)) hD
    obtain ⟨d', hd', hnodes⟩ := (names_spell hnul hD).mkdir hK hn perm
    refine ⟨d', ?_, hnodes⟩
    rw [if_neg hdot, hs.splitComponents]
    refine hpass.trans ?_
    rw [List.nil_append, List.map_singleton, Root.mkdirLoop, built_spell, hd']
    rfl

end OpenshiftConsole.Filesystem
