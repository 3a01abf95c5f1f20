import OpenshiftConsole.Filesystem.Archived

/-!
# The names in an archive

`WriteTar` is to name its entries so that unpacking them makes one directory: the names are distinct, all of
them equal to or below one name, and each directory comes before what is in it (`OneTree`).

The first name is cut from the path as it was asked for, and the others from paths that `rootfs.Join` has made
of it. Where the path has a slash at its end, what is cut off is all of it, and the first name is empty. Where it
stands for the root the first name is `root`, and the others are not below that. There is no other way in which the
names do not form one tree (`writeTar_oneTree_iff`): the root makes one only if there is nothing in it to be
archived. With `.` or `..` at the end of the path the names are below `.` or `..`.
-/

namespace OpenshiftConsole.Filesystem.WriteTar

open OpenshiftConsole.Library.Lines (Text)
open OpenshiftConsole.Library.PathWalk OpenshiftConsole.Library.FileTree OpenshiftConsole.Library.Loops

variable {K : Kernel} {d : Fs} {held : Loc Name → Text} {headerLen : TarEntry → ℕ} {opts : ArchiveOptions} {limit : ℤ}
  {w w' : Writer} {D L r : Loc Name} {path c parent base : Text} {st : Entry} {fuel : ℕ} {h e : TarEntry} {s u : Walk}

/-! ### What is to hold, and when -/

/-- The name of an entry without the slash that a directory has at its end. -/
def TarEntry.bare (e : TarEntry) : Text := if e.typeflag = .dir then e.name.dropLast else e.name

/-- The entries form one tree. -/
structure OneTree (entries : List TarEntry) : Prop where
  /-- All names are equal to or below one. -/
  top : ∃ top, top ≠ [] ∧ '/' ∉ top ∧ ∀ e ∈ entries, e.bare = top ∨ (top ++ ['/']) <+: e.bare
  names : (entries.map TarEntry.name).Nodup
  bare : (entries.map TarEntry.bare).Nodup
  /-- The directory that an entry is in comes before it. -/
  ordered : ∀ before e after q x, entries = before ++ e :: after → e.bare = q ++ '/' :: x → '/' ∉ x →
    ∃ e' ∈ before, e'.typeflag = .dir ∧ e'.bare = q

/-- When the entries of an archive of a directory form one tree: the path has no slash at its end, or
stands for the root and there is nothing in the root that is archived. -/
def NamesOneTree (d : Fs) (path : Text) : Prop :=
  if Rootfs.cleanPath path = some ['.'] then ∀ n, nodeAt d [n] = none ∨ nodeAt d [n] = some .special
  else trailingSlash path = false

/-! ### One entry -/

theorem copy_entries {data : Text} {es : List TarEntry} (he : w.entries = e :: es) :
    ∃ data', (w.copy limit data).1.entries = { e with data := data' } :: es := by
  rw [Writer.copy, he]
  exact ⟨_, rfl⟩

/-- An entry that is visited is in the archive with its header. -/
theorem visit_entries (hv : visit K d held headerLen limit h c w = (w', none)) :
    ∃ data, w'.entries = { h with data := data } :: w.entries := by
  rw [visit] at hv
  rcases hw : w.writeHeader limit (headerLen h) h with ⟨w₁, _ | err⟩ <;> rw [hw] at hv
  · have hentries := (writeHeader_ok hw).1
    dsimp only at hv
    split at hv
    · rw [← (Prod.mk.inj hv).1]
      exact ⟨h.data, hentries⟩
    · split at hv
      · cases hv
      · split at hv
        · cases hv
        · obtain ⟨data, hdata⟩ := copy_entries hentries
          exact ⟨data, (congrArg (fun r => r.1.entries) hv).symm.trans hdata⟩
  · cases hv

/-- An entry named `p` of what stands at `L`. -/
structure Named (d : Fs) (p : Text) (L : Loc Name) (e : TarEntry) : Prop where
  name : e.name = if nodeAt d L = some .dir then p ++ ['/'] else p
  dir : e.typeflag = .dir ↔ nodeAt d L = some .dir

theorem Named.bare {p : Text} (h : Named d p L e) : e.bare = p := by
  rw [TarEntry.bare, h.name]
  by_cases hdir : nodeAt d L = some .dir
  · rw [if_pos (h.dir.mpr hdir), if_pos hdir, List.dropLast_concat]
  · rw [if_neg fun ht => hdir (h.dir.mp ht), if_neg hdir]

/-- The entry of what is visited. -/
theorem visited_named {p link : Text} (hl : Root.lstat d c = .ok (L, st))
    (hv : visit K d held headerLen limit (header p L st link) c w = (w', none)) :
    ∃ e, w'.entries = e :: w.entries ∧ Named d p L e := by
  obtain ⟨data, he⟩ := visit_entries hv
  have hnode : nodeAt d L = some st.node := by rw [nodeAt, get_of_lstat hl]; rfl
  refine ⟨_, he, ?_, ?_⟩
  · rw [hnode, header]
    cases hst : st.node <;> simp
  · rw [hnode, header]
    cases hst : st.node <;> simp

/-! ### The walk -/

/-- A walk that does not fail adds entries, its own first unless that is special. -/
theorem recurse_adds (h : recurse K d held headerLen opts parent fuel c s = (u, none)) :
    ∃ es, u.writer.entries = es.reverse ++ s.writer.entries ∧
      (fuel ≠ 0 → ∃ L st, Root.lstat d c = .ok (L, st) ∧ (st.node ≠ .special → ∃ e es', es = e :: es' ∧
        Named d (archiveName c parent) L e)) := by
  induction fuel generalizing c s u with
  | zero =>
    obtain rfl := (Prod.mk.inj h).1
    exact ⟨[], rfl, fun h => absurd rfl h⟩
  | succ fuel ih =>
    obtain ⟨L, st, w, hl, -, hv, hrest⟩ := recurse_eq_none.mp h
    have hmore : ∃ es : List TarEntry, u.writer.entries = es.reverse ++ w.entries := by
      rcases hrest with ⟨-, rfl⟩ | ⟨-, M, entries, truncated, -, hall⟩
      · exact ⟨[], rfl⟩
      · refine forEach_kept (I := fun s : Walk => ∃ es : List TarEntry, s.writer.entries = es.reverse ++ w.entries) ?_ ⟨[], rfl⟩ hall
        rintro m - s s' ⟨es, hes⟩ hm
        obtain ⟨es', hes', -⟩ := ih hm
        exact ⟨es ++ es', by rw [hes', hes, List.reverse_append, List.append_assoc]⟩
    obtain ⟨es, hes⟩ := hmore
    rcases hv with ⟨hsp, rfl⟩ | ⟨-, hv⟩
    · exact ⟨es, hes, fun _ => ⟨L, st, hl, fun hne => absurd hsp hne⟩⟩
    · obtain ⟨e, he, hnamed⟩ := visited_named hl hv
      refine ⟨e :: es, ?_, fun _ => ⟨L, st, hl, fun _ => ⟨e, es, rfl, hnamed⟩⟩⟩
      rw [hes, he, List.reverse_cons, List.append_assoc]
      rfl

/-- Nothing is added where only what is special can be found. -/
theorem recurse_special (hsp : ∀ L st, Root.lstat d c = .ok (L, st) → st.node = .special)
    (h : recurse K d held headerLen opts parent fuel c s = (u, none)) : u.writer = s.writer := by
  cases fuel with
  | zero => rw [(Prod.mk.inj h).1]
  | succ fuel =>
    obtain ⟨L, st, w, hl, -, ⟨-, rfl⟩ | ⟨hne, -⟩, hrest⟩ := recurse_eq_none.mp h
    · rcases hrest with ⟨-, rfl⟩ | ⟨hdir, -⟩
      · rfl
      · rw [hsp L st hl] at hdir
        cases hdir
    · exact absurd (hsp L st hl) hne

/-- The places at and below `L` that a walk has entries for. -/
def archivedPlaces (d : Fs) (path : Text) (L : Loc Name) (fuel : ℕ) (r : Loc Name) : List (Loc Name) :=
  (preorder (listed d path L) fuel r).filter fun x => nodeAt d (x ++ L) ≠ some .special

theorem archivedPlaces_succ : archivedPlaces d path L (fuel + 1) r =
    (if nodeAt d (r ++ L) = some .special then [] else [r]) ++
      (listed d path L r).flatMap fun m => archivedPlaces d path L fuel (m :: r) := by
  rw [archivedPlaces, preorder, List.filter_cons, List.filter_flatMap]
  by_cases hsp : nodeAt d (r ++ L) = some .special
  · rw [if_pos hsp, if_neg (by simpa using hsp)]
    rfl
  · rw [if_neg hsp, if_pos (by simpa using hsp)]
    rfl

/-- **The names of a walk**: those of the places that it visits. -/
theorem recurse_named (hc : '\x00' ∉ c → Current d path L r c) (hs : (d.tree.get (r ++ L)).isSome)
    (h : recurse K d held headerLen opts (upToSlash (trimLeft path)) fuel c s = (u, none)) :
    ∃ es, u.writer.entries = es.reverse ++ s.writer.entries ∧
      List.Forall₂ (fun x e => Named d (pathBelow (lastComponent (trimLeft path)) x) (x ++ L) e)
        (archivedPlaces d path L fuel r) es := by
  induction fuel generalizing r c s u with
  | zero =>
    obtain rfl := (Prod.mk.inj h).1
    exact ⟨[], rfl, .nil⟩
  | succ fuel ih =>
    obtain ⟨M, st, w, hl, -, hv, hrest⟩ := recurse_eq_none.mp h
    have hc := hc (nul_of_lstat hl)
    obtain ⟨e, he⟩ := Option.isSome_iff_exists.mp hs
    obtain ⟨rfl, rfl⟩ := Prod.mk.inj (Except.ok.inj (hl.symm.trans (hc.lstat e he)))
    have hnode : nodeAt d (r ++ L) = some st.node := by rw [nodeAt, he]; rfl
    rw [archivedPlaces_succ, hnode]
    -- the entry itself
    have hown : ∃ es, w.entries = es.reverse ++ s.writer.entries ∧
        List.Forall₂ (fun x e => Named d (pathBelow (lastComponent (trimLeft path)) x) (x ++ L) e)
          (if some st.node = some Node.special then [] else [r]) es := by
      rcases hv with ⟨hsp, rfl⟩ | ⟨hsp, hv⟩
      · rw [if_pos (congrArg some hsp)]
        exact ⟨[], rfl, .nil⟩
      · obtain ⟨e, hes, hnamed⟩ := visited_named hl hv
        rw [hc.archiveName] at hnamed
        rw [if_neg fun h => hsp (Option.some.inj h)]
        exact ⟨[e], hes, .cons hnamed .nil⟩
    obtain ⟨es, hes, hall⟩ := hown
    rcases hrest with ⟨hdir, rfl⟩ | ⟨hdir, M, entries, truncated, hlist, hrest⟩
    · rw [listed_eq_nil (by rw [hnode]; exact fun h => hdir (Option.some.inj h)), List.flatMap_nil, List.append_nil]
      exact ⟨es, hes, hall⟩
    · -- and what is in it
      have hdir' : nodeAt d (r ++ L) = some .dir := hnode.trans (congrArg some hdir)
      obtain ⟨hnames, hchild⟩ := hc.list hdir' hlist
      obtain ⟨es', hes', hall'⟩ := forEach_archives _ (fun m => archivedPlaces d path L fuel (m :: r))
        (fun m hm s s' hs => ih (fun hz => hc.join hdir' fun hm => hz (mem_join hm)) (hchild m hm) hs) hrest
      rw [hnames] at hall'
      refine ⟨es ++ es', ?_, List.rel_append hall hall'⟩
      rw [hes', hes, List.reverse_append, List.append_assoc]

/-! ### Names of places -/

/-- A text has one last component. -/
theorem append_slash_inj {p q x y : Text} (hx : '/' ∉ x) (hy : '/' ∉ y) (h : p ++ '/' :: x = q ++ '/' :: y) :
    p = q ∧ x = y := by
  have hlast : ∀ {p x : Text}, '/' ∉ x → lastComponent (p ++ '/' :: x) = x := by
    intro p x hx
    have hrev : ∀ c ∈ x.reverse, (c != '/') = true := by
      intro c hc
      rw [bne_iff_ne]
      rintro rfl
      exact hx (List.mem_reverse.mp hc)
    rw [lastComponent, List.reverse_append, List.reverse_cons, List.append_assoc, List.takeWhile_append_of_pos hrev]
    simp
  obtain rfl : x = y := (hlast hx).symm.trans ((congrArg lastComponent h).trans (hlast hy))
  exact ⟨List.append_cancel_right h, rfl⟩

section Places

variable {x y : Loc Name} {places : List (Loc Name)} {entries : List TarEntry}

theorem pathBelow_inj (hbase : '/' ∉ base) (h : pathBelow base x = pathBelow base y) : x = y := by
  induction x generalizing y with
  | nil =>
    cases y with
    | nil => rfl
    | cons m y =>
      rw [pathBelow, pathBelow] at h
      exact absurd (h ▸ by simp) hbase
  | cons n x ih =>
    cases y with
    | nil =>
      rw [pathBelow, pathBelow] at h
      exact absurd (h ▸ by simp) hbase
    | cons m y =>
      obtain ⟨hxy, hnm⟩ := append_slash_inj (slash_notMem_name n) (slash_notMem_name m) h
      rw [ih hxy, Subtype.ext hnm]

theorem trailingSlash_pathBelow (hbase : '/' ∉ base) : trailingSlash (pathBelow base x) = false := by
  cases x with
  | nil =>
    rw [pathBelow, trailingSlash, beq_eq_false_iff_ne]
    exact fun h => hbase (List.mem_of_getLast? h)
  | cons n x =>
    rw [pathBelow, List.append_cons]
    exact trailingSlash_concat_name _ n

theorem prefix_pathBelow (hx : x ≠ []) : base ++ ['/'] <+: pathBelow base x := by
  induction x with
  | nil => exact absurd rfl hx
  | cons n x ih =>
    by_cases hnil : x = []
    · subst hnil
      exact ⟨n.text, by simp [pathBelow]⟩
    · exact (ih hnil).trans (List.prefix_append _ _)

theorem exists_of_forall₂ {α β : Type*} {R : α → β → Prop} {as : List α} {bs : List β} {a : α}
    (hall : List.Forall₂ R as bs) (ha : a ∈ as) : ∃ b ∈ bs, R a b := by
  induction hall with
  | nil => cases ha
  | cons hab _ ih =>
    rcases List.mem_cons.mp ha with rfl | ha
    · exact ⟨_, List.mem_cons_self, hab⟩
    · obtain ⟨b, hb, hR⟩ := ih ha
      exact ⟨b, List.mem_cons_of_mem _ hb, hR⟩

/-- **Entries named after places make one tree**, if there is a directory for each that is in one. -/
theorem oneTree_of_named (hne : base ≠ []) (hbase : '/' ∉ base) (horder : Orderly (fun _ => False) places)
    (hdir : ∀ n x, n :: x ∈ places → nodeAt d (x ++ L) = some .dir)
    (hall : List.Forall₂ (fun x e => Named d (pathBelow base x) (x ++ L) e) places entries) : OneTree entries := by
  have hbare : entries.map TarEntry.bare = places.map (pathBelow base) := by
    symm
    rw [← List.forall₂_eq_eq_eq, List.forall₂_map_left_iff, List.forall₂_map_right_iff]
    exact hall.imp fun x e he => he.bare.symm
  have hnames : entries.map TarEntry.name = places.map fun x =>
      if nodeAt d (x ++ L) = some .dir then pathBelow base x ++ ['/'] else pathBelow base x := by
    symm
    rw [← List.forall₂_eq_eq_eq, List.forall₂_map_left_iff, List.forall₂_map_right_iff]
    exact hall.imp fun x e he => he.name.symm
  refine ⟨⟨base, hne, hbase, fun e he => ?_⟩, ?_, ?_, ?_⟩
  · obtain ⟨x, -, hx⟩ : ∃ x ∈ places, pathBelow base x = e.bare := by
      rw [← List.mem_map, ← hbare]
      exact List.mem_map_of_mem he
    by_cases hnil : x = []
    · subst hnil
      exact .inl hx.symm
    · exact .inr (hx ▸ prefix_pathBelow hnil)
  · rw [hnames]
    refine horder.nodup.map fun x y hxy => ?_
    have hslash : ∀ x y, pathBelow base x ++ ['/'] ≠ pathBelow base y := by
      intro x y hxy
      have hend := trailingSlash_pathBelow (x := y) hbase
      rw [← hxy] at hend
      simp [trailingSlash] at hend
    split_ifs at hxy
    · exact pathBelow_inj hbase (List.append_cancel_right hxy)
    · exact absurd hxy (hslash x y)
    · exact absurd hxy.symm (hslash y x)
    · exact pathBelow_inj hbase hxy
  · rw [hbare]
    exact horder.nodup.map fun x y hxy => pathBelow_inj hbase hxy
  · rintro before e after q x rfl heq hx
    have hbefore := List.forall₂_take_append _ _ _ hall
    obtain ⟨z, rest, hz, -, hrest⟩ := List.forall₂_cons_right_iff.mp (List.forall₂_drop_append _ _ _ hall)
    have hsplit : places = places.take before.length ++ z :: rest := by rw [← hrest, List.take_append_drop]
    rw [hz.bare] at heq
    cases z with
    | nil =>
      rw [pathBelow] at heq
      exact absurd (heq ▸ by simp) hbase
    | cons n y =>
      obtain ⟨rfl, -⟩ := append_slash_inj (slash_notMem_name n) hx heq
      obtain ⟨e', he', hy⟩ := exists_of_forall₂ hbefore (horder.tail_mem hsplit)
      exact ⟨e', he', hy.dir.mpr (hdir n y (hsplit ▸ by simp)), hy.bare⟩

end Places

/-! ### Whole archives -/

/-- An archive that is written without an error has what the walk adds to it. -/
theorem writeTar_entries (h : writeTar K d held headerLen path opts = (w, none)) :
    ∃ base u, Rootfs.cleanPath path = some base ∧ w.entries = u.writer.entries ∧
      recurse K d held headerLen opts (upToSlash base) (d.tree.height + 1) path ⟨0, .empty⟩ = (u, none) := by
  rw [writeTar] at h
  split at h
  · cases h
  · rename_i base hbase
    dsimp only at h
    split at h
    · cases h
    · rename_i u hu
      exact ⟨base, u, hbase, close_ok h, hu⟩

theorem orderly_archivedPlaces : Orderly (fun _ => False) (archivedPlaces d path L fuel []) := by
  have horder : Orderly (fun _ => False) (preorder (listed d path L) fuel []) :=
    orderly_preorder (fun _ => nodup_listed) (fun _ _ => id) (.inl rfl)
  refine horder.filter (fun n x hx _ => ?_) fun x => by simp
  have hsome := (mem_listed.mp (mem_names_of_mem_preorder hx List.nil_suffix)).1
  have hdir : nodeAt d (x ++ L) = some .dir := kindAt_dir_iff.mp (d.tree.parent_dir hsome)
  rw [hdir]
  rfl

/-- **A path without a slash at its end** makes one tree. -/
theorem writeTar_oneTree (hslash : trailingSlash path = false) (hdot : Rootfs.cleanPath path ≠ some ['.'])
    (hl : Root.lstat d path = .ok (L, st)) (h : writeTar K d held headerLen path opts = (w, none)) :
    OneTree w.entries.reverse := by
  have hc := current_of_ne hslash hdot hl
  obtain ⟨base, u, hbase, hw, hu⟩ := writeTar_entries h
  rw [cleanPath_of_ne hc.nul hc.ne.1] at hbase
  obtain rfl := Option.some.inj hbase
  obtain ⟨es, hes, hall⟩ := recurse_named (fun _ => hc) (Option.isSome_iff_exists.mpr ⟨st, get_of_lstat hl⟩) hu
  rw [hw, hes, List.reverse_append, List.reverse_reverse]
  refine oneTree_of_named ?_ (slash_notMem_lastComponent _) orderly_archivedPlaces (fun n x hx => ?_) hall
  · exact lastComponent_ne_nil ((Rootfs.trailingSlash_trimLeft hc.ne.1).trans hslash) hc.ne.1
  · have hsome := (mem_listed.mp (mem_names_of_mem_preorder (List.mem_of_mem_filter hx) List.nil_suffix)).1
    exact kindAt_dir_iff.mp (d.tree.parent_dir hsome)

/-- The first entry of a directory's archive. -/
theorem writeTar_first (hl : Root.lstat d path = .ok (L, st)) (hdir : st.node = .dir)
    (h : writeTar K d held headerLen path opts = (w, none)) :
    ∃ base e es, Rootfs.cleanPath path = some base ∧ w.entries.reverse = e :: es ∧
      Named d (archiveName path (upToSlash base)) L e := by
  obtain ⟨base, u, hbase, hw, hu⟩ := writeTar_entries h
  obtain ⟨es, hes, hfirst⟩ := recurse_adds hu
  obtain ⟨L', st', hl', hown⟩ := hfirst (Nat.succ_ne_zero _)
  obtain ⟨rfl, rfl⟩ := Prod.mk.inj (Except.ok.inj (hl.symm.trans hl'))
  obtain ⟨e, es', rfl, hnamed⟩ := hown (by rw [hdir]; simp)
  exact ⟨base, e, es', hbase, by rw [hw, hes, List.reverse_append, List.reverse_reverse]; rfl, hnamed⟩

/-- **With a slash at the end of the path** the first name is empty. -/
theorem not_oneTree_of_slash (hslash : trailingSlash path = true) (hdot : Rootfs.cleanPath path ≠ some ['.'])
    (hl : Root.lstat d path = .ok (L, st)) (hdir : st.node = .dir)
    (h : writeTar K d held headerLen path opts = (w, none)) : ¬ OneTree w.entries.reverse := by
  obtain ⟨base, e, es, hbase, hw, hnamed⟩ := writeTar_first hl hdir h
  obtain ⟨-, hroot⟩ := (root_or_ne hl).resolve_left fun h => hdot h.1
  have hz := nul_of_lstat hl
  rw [cleanPath_of_ne hz hroot.1] at hbase
  obtain rfl := Option.some.inj hbase
  have hname : archiveName path (upToSlash (trimLeft path)) = [] := by
    rw [archiveName_of_ne hz hroot (upToSlash_append _).symm]
    exact lastComponent_of_slash ((Rootfs.trailingSlash_trimLeft hroot.1).trans hslash)
  rintro ⟨⟨top, hne, -, hall⟩, -, -, -⟩
  rw [hname] at hnamed
  rcases hall e (by rw [hw]; exact List.mem_cons_self) with htop | htop <;> rw [hnamed.bare] at htop
  · exact hne htop.symm
  · have := htop.length_le
    simp at this

/-! ### The root -/

/-- What is in the root is named after itself. -/
theorem archiveName_join_root {n : Name} (hdot : Rootfs.cleanPath path = some ['.'])
    (hz : '\x00' ∉ Rootfs.join path n.text) :
    archiveName (Rootfs.join path n.text) [] = n.text ∨ archiveName (Rootfs.join path n.text) [] = '.' :: '/' :: n.text := by
  have hn : trimLeft n.text = n.text := by
    apply trimLeft_of_head?
    exact fun h => slash_notMem_name n (List.mem_of_mem_head? h)
  have hname : n.text ≠ ['.'] := by
    intro h
    have hprop : IsName n.text = true := n.property
    rw [h] at hprop
    exact absurd hprop (by decide)
  rcases Rootfs.trimLeft_of_cleanPath hdot with ht | ht
  · have hjoin : Rootfs.join path n.text = '/' :: n.text := by
      rw [Rootfs.join, trim, ht]
      exact if_pos rfl
    rw [hjoin] at hz ⊢
    have htrim : trimLeft ('/' :: n.text) = [] ++ n.text := hn
    exact .inl (archiveName_of_ne hz ⟨htrim ▸ name_ne_nil n, htrim ▸ hname⟩ htrim)
  · have hjoin : Rootfs.join path n.text = '/' :: '.' :: '/' :: n.text := by
      rw [Rootfs.join, trim, ht]
      exact if_neg (by decide)
    rw [hjoin] at hz ⊢
    have htrim : trimLeft ('/' :: '.' :: '/' :: n.text) = [] ++ '.' :: '/' :: n.text := rfl
    exact .inr (archiveName_of_ne hz ⟨htrim ▸ List.cons_ne_nil _ _, htrim ▸ by simp⟩ htrim)

/-- Nothing that is named after itself is below `root`. -/
theorem not_oneTree_beside {e' : TarEntry} {es : List TarEntry} {n : Name} (he : e.bare = ['r', 'o', 'o', 't'])
    (he' : e'.bare = n.text ∨ e'.bare = '.' :: '/' :: n.text) (hone : OneTree (e :: es)) (hmem : e' ∈ es) : False := by
  obtain ⟨⟨top, -, -, htop⟩, -, hdistinct, -⟩ := hone
  obtain rfl : ['r', 'o', 'o', 't'] = top := by
    refine (he ▸ htop e List.mem_cons_self).resolve_right fun hpre => ?_
    have hslash : '/' ∈ ['r', 'o', 'o', 't'] := hpre.subset (by simp)
    exact absurd hslash (by decide)
  rcases htop e' (List.mem_cons_of_mem e hmem) with heq | hbelow
  · rw [List.map_cons, List.nodup_cons, he] at hdistinct
    exact hdistinct.1 (List.mem_map.mpr ⟨e', hmem, heq⟩)
  · rcases he' with hq | hq
    · exact slash_notMem_name n (hq ▸ hbelow.subset (by simp))
    · rw [hq] at hbelow
      simp at hbelow

/-- All names in the root are found there. -/
theorem mem_list_root {M : Loc Name} {entries : List Root.Dirent} {truncated : Bool} {n : Name}
    (hdot : Rootfs.cleanPath path = some ['.']) (hf : follow d path = .found [])
    (hlist : Root.list K d path 0 = .ok (M, entries, truncated)) (hn : (d.tree.get [n]).isSome) :
    ∃ m ∈ entries, m.name = n := by
  rw [← List.mem_map, list_names (by rw [Rootfs.resolve, hdot]; rfl) hf hlist, List.mem_filter]
  refine ⟨(List.perm_insertionSort _ _).mem_iff.mpr (d.tree.mem_children.mpr hn), ?_⟩
  have hsteps : steps (['/'] ++ '/' :: n.text) = [n].map .down := by
    rw [List.singleton_append, steps_slash, steps_slash]
    exact steps_name n
  show (lstat d (pathClean (['/'] ++ '/' :: n.text))).isOk = true
  rw [pathClean_of_steps hsteps]
  show (lstat d ('/' :: spell ([] ++ [n]))).isOk = true
  apply lstat_isOk (i := []) (n := n) (D := [])
  · rw [trailingSlash, List.getLast?_cons_of_ne_nil (spell_ne_nil (by simp))]
    exact trailingSlash_spell
  · rw [steps_slash, steps_spell]
    rfl
  · exact walk_of_advance rfl (by simp)
  · rw [ne_eq, Tree.kindAt_eq_none, ← ne_eq, ← Option.isSome_iff_ne_none]
    exact hn

/-- **The root's archive** has its own name, and besides that those of what is in it. -/
theorem writeTar_root_iff (hdot : Rootfs.cleanPath path = some ['.']) (hl : Root.lstat d path = .ok (L, st))
    (hdir : st.node = .dir) (h : writeTar K d held headerLen path opts = (w, none)) :
    OneTree w.entries.reverse ↔ ∀ n, nodeAt d [n] = none ∨ nodeAt d [n] = some .special := by
  obtain ⟨-, rfl⟩ := (root_or_ne hl).resolve_right fun h => h.1 hdot
  obtain ⟨base, u, hbase, hw, hu⟩ := writeTar_entries h
  obtain rfl := Option.some.inj (hbase.symm.trans hdot)
  obtain ⟨L, st', w₁, hl', -, hv, hrest⟩ := recurse_eq_none.mp hu
  obtain ⟨rfl, rfl⟩ := Prod.mk.inj (Except.ok.inj (hl.symm.trans hl'))
  have hleads := leads_of_lstat hl hdir
  have hf := follow_of_lstat hl (.inl (kindAt_dir_iff.mpr hleads.dir))
  rcases hv with ⟨hsp, -⟩ | ⟨-, hv⟩
  · rw [hsp] at hdir
    cases hdir
  obtain ⟨e, he, hnamed⟩ := visited_named hl hv
  have hroot : archiveName path (upToSlash ['.']) = ['r', 'o', 'o', 't'] := by
    rw [archiveName, hdot]
    rfl
  rw [hroot] at hnamed
  rcases hrest with ⟨hne, -⟩ | ⟨-, M, entries, truncated, hlist, hall⟩
  · exact absurd hdir hne
  have hchild : ∀ {m : Name} {L : Loc Name} {st : Entry}, Root.lstat d (Rootfs.join path m.text) = .ok (L, st) →
      nodeAt d [m] = some st.node := by
    intro m L st hl
    rw [nodeAt, ← lstat_join (Extends.refl _) hleads hl, get_of_lstat hl]
    rfl
  constructor
  · intro hone n
    by_contra hn
    rw [not_or] at hn
    have hsome : (d.tree.get [n]).isSome := by
      rw [← Option.isSome_map (f := Entry.node)]
      exact Option.isSome_iff_ne_none.mpr hn.1
    obtain ⟨m, hm, rfl⟩ := mem_list_root hdot hf hlist hsome
    have htrans : ∀ s s' s'' : Walk, (∃ es : List TarEntry, s'.writer.entries = es.reverse ++ s.writer.entries) →
        (∃ es : List TarEntry, s''.writer.entries = es.reverse ++ s'.writer.entries) →
        ∃ es : List TarEntry, s''.writer.entries = es.reverse ++ s.writer.entries := by
      rintro s s' s'' ⟨es, hes⟩ ⟨es', hes'⟩
      exact ⟨es ++ es', by rw [hes', hes, List.reverse_append, List.append_assoc]⟩
    obtain ⟨s₁, s₂, ⟨es₁, h₁⟩, hturn, ⟨es₂, h₂⟩⟩ := forEach_mem
      (R := fun s s' : Walk => ∃ es : List TarEntry, s'.writer.entries = es.reverse ++ s.writer.entries)
      (fun s => ⟨[], rfl⟩) htrans (fun m _ s s' hs => (recurse_adds hs).imp fun _ h => h.1) hall hm
    obtain ⟨es, hes, hfirst⟩ := recurse_adds hturn
    have hheight := d.tree.length_le_height hsome
    obtain ⟨L', st', hl', hown⟩ := hfirst (Nat.one_le_iff_ne_zero.mp hheight)
    obtain ⟨e', es', rfl, hnamed'⟩ := hown fun hsp => hn.2 ((hchild hl').trans (congrArg some hsp))
    have hentries : w.entries.reverse = e :: (es₁ ++ (e' :: es') ++ es₂) := by
      rw [hw, h₂, hes, h₁, he]
      simp [Writer.empty]
    have hbare : e'.bare = m.name.text ∨ e'.bare = '.' :: '/' :: m.name.text := by
      rw [hnamed'.bare]
      exact archiveName_join_root hdot (nul_of_lstat hl')
    exact not_oneTree_beside hnamed.bare hbare (hentries ▸ hone) (by simp)
  · intro hspecial
    have hentries : w.entries = [e] := by
      rw [hw]
      refine forEach_kept (I := fun s : Walk => s.writer.entries = [e]) (fun m _ s s' hs hturn => ?_) he hall
      rw [← hs]
      refine congrArg Writer.entries (recurse_special (fun L st hl => ?_) hturn)
      have hnode := hchild hl
      rcases hspecial m.name with hnone | hsp
      · rw [hnone] at hnode
        cases hnode
      · exact Option.some.inj (hnode.symm.trans hsp)
    rw [hentries]
    have horder : Orderly (fun _ => False) [([] : Loc Name)] := ⟨id, .inl rfl, trivial⟩
    exact oneTree_of_named (by decide) (by decide) horder (by simp) (.cons hnamed .nil)

/-- **When the names of a directory's archive form one tree.** -/
theorem writeTar_oneTree_iff (hl : Root.lstat d path = .ok (L, st)) (hdir : st.node = .dir)
    (h : writeTar K d held headerLen path opts = (w, none)) : OneTree w.entries.reverse ↔ NamesOneTree d path := by
  rw [NamesOneTree]
  split
  · exact writeTar_root_iff ‹_› hl hdir h
  · rename_i hdot
    cases hslash : trailingSlash path with
    | false => exact ⟨fun _ => rfl, fun _ => writeTar_oneTree hslash hdot hl h⟩
    | true => exact ⟨fun hone => absurd hone (not_oneTree_of_slash hslash hdot hl hdir h), by simp⟩

/-- The archive of a directory with one file. -/
def oneFileTar (path : Text) : Writer × Option Error :=
  writeTar .willing (.start oneFileDir) (Extract.contents (.start oneFileDir)) (fun _ => 512) path ⟨0, 0⟩

private theorem oneFileTar_eq {path : Text} {o : Option Error} (h : (oneFileTar path).2 = o) :
    writeTar .willing (.start oneFileDir) (Extract.contents (.start oneFileDir)) (fun _ => 512) path ⟨0, 0⟩ =
      ((oneFileTar path).1, o) :=
  Prod.ext rfl h

/-- The archive at `/w` is one tree. -/
theorem writeTar_oneTree_w : (oneFileTar ['/', 'w']).2 = none ∧ OneTree (oneFileTar ['/', 'w']).1.entries.reverse := by
  have hw : (oneFileTar ['/', 'w']).2 = none := by rfl
  have hl : Root.lstat (.start oneFileDir) ['/', 'w'] = .ok ([⟨['w'], rfl⟩], ⟨.dir, 0o755, 0, 0, 0⟩) := by rfl
  refine ⟨hw, (writeTar_oneTree_iff hl rfl (oneFileTar_eq hw)).mpr ?_⟩
  rw [NamesOneTree, if_neg (by decide)]
  rfl

/-- Those at `/` and at `/w/` are not. -/
theorem root_is_not_one_tree :
    (oneFileTar ['/']).2 = none ∧ ¬ OneTree (oneFileTar ['/']).1.entries.reverse ∧
      (oneFileTar ['/', 'w', '/']).2 = none ∧ ¬ OneTree (oneFileTar ['/', 'w', '/']).1.entries.reverse := by
  have hroot : (oneFileTar ['/']).2 = none := by rfl
  have hslash : (oneFileTar ['/', 'w', '/']).2 = none := by rfl
  refine ⟨hroot, fun hone => ?_, hslash, ?_⟩
  · have hl : Root.lstat (.start oneFileDir) ['/'] = .ok ([], ⟨.dir, 0o755, 0, 0, 0⟩) := by rfl
    have hall := (writeTar_root_iff (by decide) hl rfl (oneFileTar_eq hroot)).mp hone
    exact absurd (hall ⟨['w'], rfl⟩) (by decide)
  · have hl : Root.lstat (.start oneFileDir) ['/', 'w', '/'] = .ok ([⟨['w'], rfl⟩], ⟨.dir, 0o755, 0, 0, 0⟩) := by rfl
    exact not_oneTree_of_slash (by decide) (by decide) hl rfl (oneFileTar_eq hslash)

end OpenshiftConsole.Filesystem.WriteTar
