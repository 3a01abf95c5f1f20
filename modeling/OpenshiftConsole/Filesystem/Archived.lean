import OpenshiftConsole.Filesystem.Nodes
import OpenshiftConsole.Filesystem.WriteTar

/-!
# What an archive holds

`WriteTar` visits a directory and all that is below it in the order of a walk over the tree
(`Tree.preorder`), and an archive that is written without an error has an entry for each place
visited (`writeTar_archives`): its name spells the way from the directory's parent, a directory's
name ends with a slash, and contents and link targets are those of the file system.
-/

namespace OpenshiftConsole.Filesystem.WriteTar

open OpenshiftConsole.Library.Lines (Text)
open OpenshiftConsole.Library.PathWalk OpenshiftConsole.Library.FileTree OpenshiftConsole.Library.Loops
open Extract (contents)

variable {K : Kernel} {d : Fs} {held : Loc Name → Text} {headerLen : TarEntry → ℕ} {limit : ℤ} {opts : ArchiveOptions}
  {w w' : Writer} {D L r : Loc Name} {path c : Text} {own m : Name}

/-! ### The tar writer -/

theorem count_ok {k : ℕ} (h : w.count limit k = (w', none)) : w'.entries = w.entries ∧ w'.left = w.left := by
  rw [Writer.count] at h
  split at h
  · cases h
  · rw [← (Prod.mk.inj h).1]
    exact ⟨rfl, rfl⟩

theorem flush_ok (h : w.flush limit = (w', none)) : w'.entries = w.entries := by
  rw [Writer.flush] at h
  split at h
  · cases h
  · exact (count_ok h).1

theorem writeHeader_ok {len : ℕ} {e : TarEntry} (h : w.writeHeader limit len e = (w', none)) :
    w'.entries = e :: w.entries ∧ w'.left = e.size := by
  rw [Writer.writeHeader] at h
  rcases hf : w.flush limit with ⟨w₁, _ | err⟩ <;> rw [hf] at h
  · dsimp only at h
    rcases hc : w₁.count limit len with ⟨w₂, _ | err⟩ <;> rw [hc] at h
    · rw [← (Prod.mk.inj h).1, ← flush_ok hf, ← (count_ok hc).1]
      exact ⟨rfl, rfl⟩
    · cases h
  · cases h

theorem copy_ok {data : Text} {e : TarEntry} {es : List TarEntry} (he : w.entries = e :: es) (hleft : w.left = data.length)
    (h : w.copy limit data = (w', none)) : w'.entries = { e with data := e.data ++ data } :: es := by
  unfold Writer.copy at h
  dsimp only at h
  rw [he, hleft, Nat.min_self] at h
  generalize (if limit > 0 ∧ ((w.written + data.length : ℕ) : ℤ) > limit then
    (limit - w.written).toNat / copyBuffer * copyBuffer else data.length) = sent at h
  obtain ⟨rfl, herr⟩ := Prod.mk.inj h
  by_cases hsent : sent < data.length
  · rw [if_pos hsent] at herr
    cases herr
  · rw [List.take_of_length_le (Nat.le_of_not_lt hsent)]

theorem close_ok (h : w.close limit = (w', none)) : w'.entries = w.entries := by
  rw [Writer.close] at h
  rcases hf : w.flush limit with ⟨w₁, _ | err⟩ <;> rw [hf] at h
  · exact (count_ok h).1.trans (flush_ok hf)
  · cases h

/-! ### One entry -/

/-- What an archive has for the entry that is `r` below `L`, where `base` is the name for `L`. -/
def Archived (d : Fs) (base : Text) (L r : Loc Name) (e : TarEntry) : Prop :=
  match nodeAt d (r ++ L) with
  | some .dir => e.typeflag = .dir ∧ e.name = pathBelow base r ++ ['/']
  | some (.file data) => e.typeflag = .reg ∧ e.name = pathBelow base r ∧ e.data = data
  | some (.symlink target) => e.typeflag = .symlink ∧ e.name = pathBelow base r ∧ e.linkname = target
  | some .special | none => False

/-- `c` is the path at which the walk from `path` is at the entry that is `r` below `L`. -/
structure Current (d : Fs) (path : Text) (L r : Loc Name) (c : Text) : Prop where
  text : trimLeft c = pathBelow (trimLeft path) r
  ne : trimLeft c ≠ [] ∧ trimLeft c ≠ ['.']
  nul : '\x00' ∉ c
  slash : trailingSlash c = false
  lstat : ∀ e, d.tree.get (r ++ L) = some e → Root.lstat d c = .ok (r ++ L, e)
  follow : d.tree.kindAt (r ++ L) = some .dir ∨ d.tree.kindAt (r ++ L) = some .leaf → follow d c = .found (r ++ L)

theorem archiveName_of_ne (hz : '\x00' ∉ c) (hne : trimLeft c ≠ [] ∧ trimLeft c ≠ ['.']) {p q : Text}
    (h : trimLeft c = p ++ q) : archiveName c p = q := by
  rw [WriteTar.archiveName, cleanPath_of_ne hz hne.1]
  dsimp only
  rw [if_neg hne.2, h, if_pos (List.isPrefixOf_iff_prefix.mpr (List.prefix_append _ _)), List.drop_left]

theorem Current.archiveName (h : Current d path L r c) :
    archiveName c (upToSlash (trimLeft path)) =
      pathBelow (lastComponent (trimLeft path)) r := by
  apply archiveName_of_ne h.nul h.ne
  rw [h.text, ← pathBelow_append, upToSlash_append]

/-- The path does not stand for the root. -/
theorem Current.ne_root (h : Current d path L r c) : Rootfs.cleanPath c ≠ some ['.'] := by
  rw [cleanPath_of_ne h.nul h.ne.1]
  exact fun he => h.ne.2 (Option.some.inj he)

/-- One name further. -/
theorem Current.join (h : Current d path L r c) (hdir : nodeAt d (r ++ L) = some .dir) (hm : '\x00' ∉ m.text) :
    Current d path L (m :: r) (Rootfs.join c m.val) := by
  have hleads : Leads d (steps c) (r ++ L) := by
    refine ⟨?_, hdir⟩
    have hf := h.follow (.inl (kindAt_dir_iff.mpr hdir))
    rwa [Filesystem.follow, fullSteps, h.slash, if_neg Bool.false_ne_true] at hf
  have hn : Names d (Rootfs.join c m.val) (steps c) m (r ++ L) := hleads.join h.nul hm
  refine ⟨?_, hn.ne_root, hn.nul, hn.slash, fun e he => hn.lstat he, hn.follow⟩
  rw [trimLeft_join h.slash h.ne.1, h.text]
  rfl

theorem contents_eq {data : Text} (h : nodeAt d L = some (.file data)) : contents d L = data := by
  rw [contents]
  rw [show (d.tree.get L).map Entry.node = some (.file data) from h]

/-- An entry that is visited without an error is in the archive. -/
theorem Current.visit {st : Entry} {link base : Text} (h : Current d path L r c) (hr : d.tree.get (r ++ L) = some st)
    (hsp : st.node ≠ .special) (hlink : ∀ target, st.node = .symlink target → link = target)
    (hv : visit K d (contents d) headerLen limit (header (pathBelow base r) (r ++ L) st link) c w = (w', none)) :
    ∃ e, w'.entries = e :: w.entries ∧ Archived d base L r e := by
  have hnode : nodeAt d (r ++ L) = some st.node := by rw [nodeAt, hr]; rfl
  rw [WriteTar.visit] at hv
  rcases hw : w.writeHeader limit (headerLen (header (pathBelow base r) (r ++ L) st link))
    (header (pathBelow base r) (r ++ L) st link) with ⟨w₁, _ | err⟩ <;> rw [hw] at hv
  · obtain ⟨hentries, hleft⟩ := writeHeader_ok hw
    dsimp only at hv
    unfold Archived
    rw [hnode]
    cases hst : st.node with
    | dir =>
      simp only [header, hst] at hv hentries
      rw [if_pos (by decide)] at hv
      rw [← (Prod.mk.inj hv).1]
      exact ⟨_, hentries, rfl, rfl⟩
    | symlink target =>
      simp only [header, hst] at hv hentries
      rw [if_pos (by decide)] at hv
      rw [← (Prod.mk.inj hv).1]
      exact ⟨_, hentries, rfl, rfl, hlink target hst⟩
    | special => exact absurd hst hsp
    | file data =>
      simp only [header, hst] at hv hentries hleft
      rw [if_neg (by decide)] at hv
      split at hv
      · cases hv
      · rename_i file hopen
        have hleaf : d.tree.kindAt (r ++ L) = some .leaf := by
          rw [Tree.kindAt, hr, Option.map_some, Entry.kind, hst]
        obtain rfl := openRead_follow (h.follow (.inr hleaf)) hopen
        split at hv
        · cases hv
        · rw [contents_eq (hnode.trans (congrArg some hst))] at hv
          refine ⟨_, copy_ok hentries hleft hv, rfl, rfl, rfl⟩
  · cases hv

/-! ### The walk -/

/-- The order in which the walk takes the names in a directory. -/
def byName (names : List Name) : List Name := names.insertionSort fun a b => a.val ≤ b.val

/-- What the walk from `path` finds in the directory that is `r` below `L`. -/
def listed (d : Fs) (path : Text) (L r : Loc Name) : List Name :=
  (byName (d.tree.children (r ++ L))).filter fun m =>
    (lstat d (pathClean ('/' :: pathBelow (trimLeft path) (m :: r)))).isOk

theorem mem_listed : m ∈ listed d path L r ↔
    (d.tree.get (m :: r ++ L)).isSome ∧ (lstat d (pathClean ('/' :: pathBelow (trimLeft path) (m :: r)))).isOk := by
  rw [listed, List.mem_filter]
  have hm : m ∈ byName (d.tree.children (r ++ L)) ↔ m ∈ d.tree.children (r ++ L) := (List.perm_insertionSort _ _).mem_iff
  rw [hm, d.tree.mem_children]
  rfl

theorem nodup_listed : (listed d path L r).Nodup := by
  apply List.Nodup.filter
  exact (List.perm_insertionSort _ _).nodup_iff.mpr d.tree.nodup_children

/-- Nothing is found in what is no directory. -/
theorem listed_eq_nil (hdir : nodeAt d (r ++ L) ≠ some .dir) : listed d path L r = [] := by
  rw [List.eq_nil_iff_forall_not_mem]
  intro m hm
  exact hdir (kindAt_dir_iff.mp (d.tree.parent_dir (mem_listed.mp hm).1))

/-- The entries that are listed for a directory are those found in it, and they are there. -/
theorem Current.list (hc : Current d path L r c) (hdir : nodeAt d (r ++ L) = some .dir) {M : Loc Name}
    {entries : List Root.Dirent} {truncated : Bool} (h : Root.list K d c 0 = .ok (M, entries, truncated)) :
    entries.map Root.Dirent.name = listed d path L r ∧ ∀ e ∈ entries, (d.tree.get (e.name :: r ++ L)).isSome := by
  have hnames : entries.map Root.Dirent.name = listed d path L r := by
    have hlistNames := list_names (resolve_of_ne hc.nul hc.ne) (hc.follow (.inl (kindAt_dir_iff.mpr hdir))) h
    rw [hc.text] at hlistNames
    exact hlistNames
  refine ⟨hnames, fun e he => ?_⟩
  have hm : e.name ∈ entries.map Root.Dirent.name := List.mem_map_of_mem he
  rw [hnames] at hm
  exact (mem_listed.mp hm).1

/-- What is at and below `L` are directories, regular files and links, with names and targets
that Linux allows. -/
structure Plain (d : Fs) (L : Loc Name) : Prop where
  names : ∀ n r, (d.tree.get (n :: r ++ L)).isSome → '\x00' ∉ n.text
  kinds : ∀ r, nodeAt d (r ++ L) ≠ some .special
  links : ∀ r target, nodeAt d (r ++ L) = some (.symlink target) → target ≠ [] ∧ '\x00' ∉ target

variable {fuel : ℕ} {s s' : Walk}

/-- The walk, one entry after the other. -/
theorem forEach_archives (P : Loc Name → TarEntry → Prop) (visits : Name → List (Loc Name))
    {f : Root.Dirent → Walk → Walk × Option Error} {entries : List Root.Dirent}
    (hf : ∀ e ∈ entries, ∀ s s', f e s = (s', none) →
      ∃ es, s'.writer.entries = es.reverse ++ s.writer.entries ∧ List.Forall₂ P (visits e.name) es)
    (h : forEach f entries s = (s', none)) : ∃ es, s'.writer.entries = es.reverse ++ s.writer.entries ∧
      List.Forall₂ P ((entries.map Root.Dirent.name).flatMap visits) es := by
  induction entries generalizing s with
  | nil =>
    obtain rfl := (Prod.mk.inj h).1
    exact ⟨[], rfl, .nil⟩
  | cons e entries ih =>
    obtain ⟨s₁, h₁, h₂⟩ := forEach_cons_eq_none.mp h
    obtain ⟨es₁, hes₁, hall₁⟩ := hf e List.mem_cons_self s s₁ h₁
    obtain ⟨es₂, hes₂, hall₂⟩ := ih (fun e he => hf e (List.mem_cons_of_mem _ he)) h₂
    refine ⟨es₁ ++ es₂, ?_, ?_⟩
    · rw [hes₂, hes₁, List.reverse_append, List.append_assoc]
    · rw [List.map_cons, List.flatMap_cons]
      exact List.rel_append hall₁ hall₂

/-- **The walk archives what it visits.** -/
theorem recurse_archives (hp : Plain d L) (hc : Current d path L r c) (hs : (d.tree.get (r ++ L)).isSome)
    (h : recurse K d (contents d) headerLen opts (upToSlash (trimLeft path)) fuel c s = (s', none)) :
    ∃ es, s'.writer.entries = es.reverse ++ s.writer.entries ∧
      List.Forall₂ (Archived d (lastComponent (trimLeft path)) L) (preorder (listed d path L) fuel r) es := by
  induction fuel generalizing r c s s' with
  | zero =>
    obtain rfl := (Prod.mk.inj h).1
    exact ⟨[], rfl, .nil⟩
  | succ fuel ih =>
    obtain ⟨M, st, w, hl, -, hv, hrest⟩ := recurse_eq_none.mp h
    obtain ⟨e, he⟩ := Option.isSome_iff_exists.mp hs
    obtain ⟨rfl, rfl⟩ := Prod.mk.inj (Except.ok.inj (hl.symm.trans (hc.lstat e he)))
    have hnode : nodeAt d (r ++ L) = some st.node := by rw [nodeAt, he]; rfl
    -- the entry itself
    obtain ⟨-, hv⟩ := hv.resolve_left fun hsp => hp.kinds r (hnode.trans (congrArg some hsp.1))
    rw [hc.archiveName] at hv
    have hlink : ∀ target, st.node = .symlink target → linkOf d c st = target := by
      intro target ht
      rw [linkOf, ht, readlink_of_lstat hl hc.ne_root ht]
    obtain ⟨e, hentry, harch⟩ := hc.visit he (fun hsp => hp.kinds r (hnode.trans (congrArg some hsp))) hlink hv
    rcases hrest with ⟨hdir, rfl⟩ | ⟨hdir, M, entries, truncated, hlist, hrest⟩
    · refine ⟨[e], hentry, ?_⟩
      rw [preorder, listed_eq_nil (by rw [hnode]; exact fun h => hdir (Option.some.inj h))]
      exact .cons harch .nil
    · -- and what is in it
      have hdir' : nodeAt d (r ++ L) = some .dir := hnode.trans (congrArg some hdir)
      obtain ⟨hnames, hchild⟩ := hc.list hdir' hlist
      obtain ⟨es, hes, hall⟩ := forEach_archives (Archived d (lastComponent (trimLeft path)) L)
        (fun n => preorder (listed d path L) fuel (n :: r))
        (fun e he s s' hs => ih (hc.join hdir' (hp.names e.name r (hchild e he))) (hchild e he) hs) hrest
      rw [hnames] at hall
      refine ⟨e :: es, ?_, .cons harch hall⟩
      rw [hes, hentry, List.reverse_cons, List.append_assoc]
      rfl

/-- A path that is found and stands for the root leads there, and every other one has a name in it. -/
theorem root_or_ne {st : Entry} (hl : Root.lstat d path = .ok (L, st)) :
    Rootfs.cleanPath path = some ['.'] ∧ L = [] ∨
      Rootfs.cleanPath path ≠ some ['.'] ∧ trimLeft path ≠ [] ∧ trimLeft path ≠ ['.'] := by
  by_cases hdot : Rootfs.cleanPath path = some ['.']
  · refine .inl ⟨hdot, ?_⟩
    rw [Root.lstat, if_pos hdot] at hl
    have hfound : walk d.tree.kindAt maxSymlinks [] (fullSteps path) = .found [] := by
      refine walk_of_advance ?_ (by simp)
      rw [fullSteps]
      rcases Rootfs.steps_of_root (Rootfs.trimLeft_of_cleanPath hdot) with hs | hs <;> rw [hs] <;> split <;> rfl
    exact Stop.found.inj ((Root.stat_iff.mp hl).2.1.symm.trans hfound)
  · refine .inr ⟨hdot, ?_⟩
    rw [← not_or]
    intro hroot
    rw [Rootfs.cleanPath, if_neg (by simpa using nul_of_lstat hl)] at hdot
    rcases hroot with ht | ht <;> rw [ht] at hdot <;> exact hdot rfl

/-- The path that the walk starts from, if it does not stand for the root. -/
theorem current_of_ne {st : Entry} (hslash : trailingSlash path = false) (hdot : Rootfs.cleanPath path ≠ some ['.'])
    (hl : Root.lstat d path = .ok (L, st)) : Current d path L [] path := by
  obtain ⟨-, hne⟩ := (root_or_ne hl).resolve_left fun h => hdot h.1
  refine ⟨rfl, hne, nul_of_lstat hl, hslash, fun e he => ?_, fun hk => follow_of_lstat hl hk⟩
  rw [hl, Option.some.inj ((get_of_lstat hl).symm.trans he)]
  rfl

/-- The path that the walk starts from, where that is not the root. -/
theorem current_start {st : Entry} (hslash : trailingSlash path = false)
    (hl : Root.lstat d path = .ok (own :: D, st)) : Current d path (own :: D) [] path := by
  obtain ⟨hdot, -⟩ := (root_or_ne hl).resolve_left fun h => List.cons_ne_nil _ _ h.2
  exact current_of_ne hslash hdot hl

/-- **What a tar holds** that is written without an error: an entry for each place of the walk, in order. -/
theorem writeTar_archives {st : Entry} (hslash : trailingSlash path = false)
    (hl : Root.lstat d path = .ok (own :: D, st)) (hp : Plain d (own :: D))
    (h : writeTar K d (contents d) headerLen path opts = (w, none)) :
    List.Forall₂ (Archived d (lastComponent (trimLeft path)) (own :: D))
      (preorder (listed d path (own :: D)) (d.tree.height + 1) []) w.entries.reverse := by
  have hc := current_start hslash hl
  have hs : (d.tree.get ([] ++ own :: D)).isSome := Option.isSome_iff_exists.mpr ⟨st, get_of_lstat hl⟩
  rw [writeTar] at h
  rw [cleanPath_of_ne hc.nul hc.ne.1] at h
  dsimp only at h
  split at h
  · cases h
  · rename_i s hr
    obtain ⟨es, hes, hall⟩ := recurse_archives hp hc hs hr
    rw [close_ok h, hes, List.reverse_append, List.reverse_reverse]
    exact hall

end OpenshiftConsole.Filesystem.WriteTar
