import OpenshiftConsole.Filesystem.Archived
import OpenshiftConsole.Filesystem.NoBackslash

/-!
# Extracting what was archived

`Extract` is to undo `WriteTar`: below its own name a directory comes back as it was. Both halves are
known, the archive from `writeTar_archives` and what is made of it from `extractMembers_restores`; they
meet where a member's name, made safe, spells the way to the entry that was archived.

That is where they miss each other, too. `WriteTar` writes the names as they are, and `safeName` takes
a backslash for a slash, so a tree with such a name does not come back. `Undoable` has this
and the other ways in which the round trip fails; there is none beside them
(`extractTar_undoes_writeTar_iff`).
-/

namespace OpenshiftConsole.Filesystem.Extract

open OpenshiftConsole.Library.Lines (Text)
open OpenshiftConsole.Library.PathWalk OpenshiftConsole.Library.FileTree
open WriteTar (TarEntry ArchiveOptions Writer Archived Plain listed writeTar)

/-! ### What is to hold, and when -/

/-- What a tar reader delivers for an entry that was written; times are rounded. -/
structure ReadsBack (e : TarEntry) (h : TarHeader) : Prop where
  name : h.name = e.name
  typeflag : h.typeflag = e.typeflag
  linkname : h.linkname = e.linkname
  mode : h.mode = e.mode
  body : h.body = ⟨e.data, none⟩

/-- The reader delivers the entries that were written, and then the end. -/
structure Reads (entries : List TarEntry) (reader : TarReader) : Prop where
  headers : List.Forall₂ ReadsBack entries reader.headers
  err : reader.err = none

/-- Below its own name the destination `R` has what the directory in `D` has, and nothing else. -/
def Recreated (d : Fs) (D : Loc Name) (own : Name) (d' : Fs) (R : Loc Name) : Prop :=
  ∀ r, nodeAt d' (r ++ own :: R) = nodeAt d (r ++ own :: D)

/-- When an archive is undone: of the directory `own` in `D`, archived at `path` and extracted with the
byte limit `maxBytes`. -/
structure Undoable (d : Fs) (path : Text) (own : Name) (D : Loc Name) (maxBytes : ℤ) : Prop where
  /-- The path ends in the directory's name, not in `.` or `..`. -/
  named : lastComponent path = own.text
  /-- What is below the directory is found at the cleaned path, too: by this one `Root.List` looks at it. -/
  found : ∀ r, r ≠ [] → (nodeAt d (r ++ own :: D)).isSome →
    (lstat d (pathClean ('/' :: pathBelow (trimLeft path) r))).isOk = true
  /-- No name has a backslash. -/
  clean : ∀ r, (nodeAt d (r ++ own :: D)).isSome → ∀ n ∈ r ++ [own], '\\' ∉ n.text
  /-- With the largest limit there is, no file has any bytes. -/
  bytes : maxBytes = 2 ^ 63 - 1 → ∀ r data, nodeAt d (r ++ own :: D) = some (.file data) → data = []

variable {K K' : Kernel} {d d' : Fs} {D L M R r y : Loc Name} {path dest base : Text} {own : Name} {ns ms : List Name}
  {limits : ExtractLimits} {headerLen : TarEntry → ℕ} {opts : ArchiveOptions} {w : Writer} {reader : TarReader}
  {overwrite : Bool} {st : Entry} {e : TarEntry} {h : TarHeader} {members : List Member} {l : List (Loc Name)}

/-! ### Names of members -/

/-- A name that is written for an entry, with or without the slash of a directory. -/
theorem safeName_spell (hns : ns ≠ []) (hnul : ∀ n ∈ ns, '\x00' ∉ n.text) (hb : ∀ n ∈ ns, '\\' ∉ n.text) {slash : Text}
    (hslash : slash = [] ∨ slash = ['/']) : safeName (spell ns ++ slash) = .ok (spell ns) := by
  have hspells := spells_spell hnul
  have hclean : '\\' ∉ spell ns := by
    intro hc
    rcases mem_spell hc with hc | ⟨n, hn, hc⟩
    · cases hc
    · exact hb n hn hc
  apply safeName_spells _ hns
  · rcases hslash with rfl | rfl <;> simpa using hclean
  · rw [List.head?_append_of_ne_nil _ (spell_ne_nil hns)]
    exact head?_spell
  · rcases hslash with rfl | rfl
    · rw [List.append_nil]
      exact hspells
    · refine ⟨(steps_append_singleton_slash _).trans hspells.steps, ?_⟩
      have hz := hspells.nul
      simpa using hz

/-- A leading `.` means nothing. -/
theorem safeName_dot {q name : Text} (hq : safeName q = .ok name) (hh : q.head? ≠ some '/') (hb : '\\' ∉ q) :
    safeName ('.' :: '/' :: q) = .ok name := by
  have hmap : (q.map fun c => if c = '\\' then '/' else c) = q := by
    refine (List.map_congr_left fun c hc => if_neg ?_).trans (List.map_id q)
    rintro rfl
    exact hb hc
  have hclean : pathClean ('.' :: '/' :: q) = pathClean q := by
    have hsplit : ('.' :: '/' :: q).splitOn '/' = ['.'] :: q.splitOn '/' := by
      refine (List.splitOn_append_cons_self ['.'] q).trans ?_
      rfl
    have hroot : (q.head? == some '/') = false := by simpa using hh
    unfold pathClean
    rw [hsplit, hroot]
    rfl
  have hhead : ('.' :: '/' :: q).head? ≠ some '/' := by simp
  have hmap' : (('.' :: '/' :: q).map fun c => if c = '\\' then '/' else c) = '.' :: '/' :: q := by
    rw [List.map_cons, List.map_cons, hmap]
    rfl
  have hnul : ('.' :: '/' :: q).contains '\x00' = q.contains '\x00' := by simp
  rw [safeName] at hq ⊢
  dsimp only at hq ⊢
  rw [hmap, if_neg hh] at hq
  rw [hnul, hmap', if_neg hhead, hclean]
  split_ifs at hq ⊢ <;> exact hq

theorem nul_below (hp : Plain d L) (hs : (d.tree.get (r ++ L)).isSome) : ∀ n ∈ r, '\x00' ∉ n.text := by
  induction r with
  | nil => simp
  | cons n r ih =>
    have hdir : d.tree.kindAt (r ++ L) = some .dir := d.tree.parent_dir hs
    intro m hm
    rcases List.mem_cons.mp hm with rfl | hm
    · exact hp.names m r hs
    · refine ih ?_ m hm
      rw [← Tree.kindAt_isSome, hdir]
      rfl

theorem isSome_of_archived (ha : Archived d base L r e) : (nodeAt d (r ++ L)).isSome := by
  rw [Archived] at ha
  cases hnode : nodeAt d (r ++ L) with
  | none => exact absurd ha (by simp [hnode])
  | some node => rfl

/-- An entry of the archive as a member, if its name, made safe, spells the way to `y`. -/
theorem holds_of_archived (hp : Plain d L) (ha : Archived d base L r e) (hr : ReadsBack e h)
    (hname : ∀ slash, slash = [] ∨ slash = ['/'] → safeName (pathBelow base r ++ slash) = .ok (spell y.reverse))
    (hnul : ∀ n ∈ y, '\x00' ∉ n.text) : ∃ node, nodeAt d (r ++ L) = some node ∧ h.member.Holds y node := by
  obtain ⟨node, hnode⟩ := Option.isSome_iff_exists.mp (isSome_of_archived ha)
  rw [Archived] at ha
  rw [hnode] at ha
  refine ⟨node, hnode, ?_, hnul, ?_⟩
  · show safeName h.name = _
    rw [hr.name]
    cases node with
    | dir =>
      rw [ha.2]
      exact hname _ (.inr rfl)
    | file data =>
      rw [ha.2.1, ← List.append_nil (pathBelow base r)]
      exact hname _ (.inl rfl)
    | symlink link =>
      rw [ha.2.1, ← List.append_nil (pathBelow base r)]
      exact hname _ (.inl rfl)
    | special => exact absurd ha id
  · cases node with
    | dir => simp only [TarHeader.member, hr.typeflag, ha.1]
    | file data => simp only [TarHeader.member, hr.typeflag, ha.1, hr.body, ha.2.2]
    | symlink link =>
      simp only [TarHeader.member, hr.typeflag, ha.1, hr.linkname, ha.2.2, true_and]
      exact hp.links r link hnode
    | special => exact absurd ha id

/-! ### What is extracted -/

theorem empty_below (hempty : ∀ n, nodeAt d (n :: R) = none) (hy : y ≠ []) : nodeAt d (y ++ R) = none := by
  obtain ⟨r, n, rfl⟩ := (List.eq_nil_or_concat y).resolve_left hy
  rw [List.concat_eq_append, List.append_assoc, List.singleton_append]
  apply nodeAt_eq_none.mpr
  exact d.tree.none_below (nodeAt_eq_none.mp (hempty n)) (List.suffix_append r _)

/-- Members of the nodes below `M`, in order, are put below an empty destination, and nothing else is. -/
theorem extractMembers_copies (overwrite : Bool) (hK : K.Willing) (hdest : Spells dest ms) (hR : Leads d' (ms.map .down) R)
    (hempty : ∀ n, nodeAt d' (n :: R) = none) (hmax : limits.maxBytes < 2 ^ 63)
    (hlimits : Within limits.maxEntries 0 limits.maxBytes members) (horder : Orderly (fun y => y = []) l)
    (hall : List.Forall₂ (fun y m => ∃ node, nodeAt d (y ++ M) = some node ∧ m.Holds y node) l members) :
    ∃ s, extractMembers K copyWithin dest overwrite limits members ⟨d', limits.maxBytes, 0, []⟩ = (s, none) ∧
      (∀ y, y ≠ [] → y ∈ l → nodeAt s.disk (y ++ R) = (nodeAt d (y ++ M)).map (restored limits.maxBytes)) ∧
      ∀ y, y ≠ [] → y ∉ l → nodeAt s.disk (y ++ R) = none := by
  let src : Loc Name → Option Node := fun y => (nodeAt d (y ++ M)).map (restored limits.maxBytes)
  have hall' : List.Forall₂ (fun y m => ∃ node, m.Holds y node ∧ src y = some (restored limits.maxBytes node)) l members := by
    refine hall.imp fun y m ⟨node, hnode, hm⟩ => ⟨node, hm, ?_⟩
    show (nodeAt d (y ++ M)).map _ = _
    rw [hnode]
    rfl
  have hsrc : ∀ n y, y ≠ [] → src (n :: y) ≠ none → src y = some .dir := by
    intro n y _ hn
    have hsome : (d.tree.get (n :: y ++ M)).isSome := by
      rw [Option.isSome_iff_ne_none]
      intro hnone
      exact hn (congrArg (Option.map _) (nodeAt_eq_none.mpr hnone))
    have hdir : d.tree.kindAt (y ++ M) = some .dir := d.tree.parent_dir hsome
    show (nodeAt d (y ++ M)).map _ = _
    rw [kindAt_dir_iff.mp hdir]
    rfl
  have hstart : Restoring src R (fun y => y = []) d' := ⟨fun y hy hnil => absurd hnil hy, fun y hy _ => empty_below hempty hy⟩
  obtain ⟨s, hs, hres⟩ := extractMembers_restores overwrite (s := ⟨d', limits.maxBytes, 0, []⟩)
    hK hdest hmax hsrc hall' horder rfl hR hstart ⟨le_rfl, fun _ => rfl⟩ hlimits
  exact ⟨s, hs, fun y hy hyl => hres.there y hy (.inr hyl), fun y hy hyl => hres.empty y hy fun hor => hyl (hor.resolve_left hy)⟩

/-! ### The archive and what it is extracted to -/

/-- The reader reads what `WriteTar` has written of the directory `own` in `D`, archived at `path`. -/
structure OfTar (K : Kernel) (d : Fs) (headerLen : TarEntry → ℕ) (opts : ArchiveOptions) (path : Text) (own : Name)
    (D : Loc Name) (reader : TarReader) : Prop where
  slash : trailingSlash path = false
  lstat : ∃ st, Root.lstat d path = .ok (own :: D, st) ∧ st.node = .dir
  plain : Plain d (own :: D)
  written : ∃ w, writeTar K d (contents d) headerLen path opts = (w, none) ∧ Reads w.entries.reverse reader

/-- The places that the archive has entries for. -/
def visited (d : Fs) (path : Text) (L : Loc Name) : List (Loc Name) := preorder (listed d path L) (d.tree.height + 1) []

theorem orderly_visited : Orderly (fun _ => False) (visited d path L) := by
  apply orderly_preorder fun z => WriteTar.nodup_listed
  · exact fun _ _ => id
  · exact .inl rfl

theorem forall₂_comp {α β γ : Type*} {P : α → β → Prop} {Q : β → γ → Prop} {as : List α} {bs : List β} {cs : List γ}
    (h : List.Forall₂ P as bs) (h' : List.Forall₂ Q bs cs) : List.Forall₂ (fun a c => ∃ b, P a b ∧ Q b c) as cs := by
  induction h generalizing cs with
  | nil =>
    cases h'
    exact .nil
  | cons hp _ ih =>
    cases h' with
    | cons hq h' => exact .cons ⟨_, hp, hq⟩ (ih h')

theorem OfTar.headers (ha : OfTar K d headerLen opts path own D reader) :
    List.Forall₂ (fun r h => ∃ e, Archived d (lastComponent path) (own :: D) r e ∧ ReadsBack e h)
      (visited d path (own :: D)) reader.headers := by
  obtain ⟨st, hl, -⟩ := ha.lstat
  obtain ⟨w, hw, hreads⟩ := ha.written
  have harch := WriteTar.writeTar_archives ha.slash hl ha.plain hw
  rw [lastComponent_trimLeft] at harch
  exact forall₂_comp harch hreads.headers

theorem OfTar.err (ha : OfTar K d headerLen opts path own D reader) : reader.err = none := by
  obtain ⟨w, -, hreads⟩ := ha.written
  exact hreads.err

theorem OfTar.dir (ha : OfTar K d headerLen opts path own D reader) : nodeAt d (own :: D) = some .dir := by
  obtain ⟨st, hl, hdir⟩ := ha.lstat
  rw [nodeAt, get_of_lstat hl, Option.map_some, hdir]

/-- The path of an empty directory. -/
structure EmptyDir (d : Fs) (dest : Text) (R : Loc Name) : Prop where
  names : ∃ ms, Spells dest ms ∧ Leads d (ms.map .down) R
  empty : ∀ n, nodeAt d (n :: R) = none

/-- **What is extracted** where the path ends in the directory's name and no name has a backslash:
all that was visited, and nothing else. -/
theorem OfTar.extracted (ha : OfTar K d headerLen opts path own D reader) (overwrite : Bool) (hK : K'.Willing) (hdest : EmptyDir d' dest R)
    (hmax : limits.maxBytes < 2 ^ 63)
    (hlimits : Within limits.maxEntries 0 limits.maxBytes (reader.headers.map TarHeader.member))
    (hnamed : lastComponent path = own.text)
    (hclean : ∀ r, (nodeAt d (r ++ own :: D)).isSome → ∀ n ∈ r ++ [own], '\\' ∉ n.text) :
    ∃ s, extractTar K' reader dest overwrite limits d' = (s, none) ∧
      (∀ r ∈ visited d path (own :: D),
        nodeAt s.disk (r ++ own :: R) = (nodeAt d (r ++ own :: D)).map (restored limits.maxBytes)) ∧
      ∀ r, r ∉ visited d path (own :: D) → nodeAt s.disk (r ++ own :: R) = none := by
  obtain ⟨ms, hspells, hleads⟩ := hdest.names
  have hown : '\x00' ∉ own.text := by
    obtain ⟨st, hl, -⟩ := ha.lstat
    intro hz
    apply (WriteTar.current_start ha.slash hl).nul
    rw [← upToSlash_append path, hnamed]
    exact List.mem_append_right _ hz
  have hall : List.Forall₂ (fun y m => ∃ node, nodeAt d (y ++ D) = some node ∧ m.Holds y node)
      ((visited d path (own :: D)).map (· ++ [own])) (reader.headers.map TarHeader.member) := by
    rw [List.forall₂_map_left_iff, List.forall₂_map_right_iff]
    refine ha.headers.imp fun r h ⟨e, he, hr⟩ => ?_
    have hsome := isSome_of_archived he
    have hnul : ∀ n ∈ r ++ [own], '\x00' ∉ n.text := by
      intro n hn
      rcases List.mem_append.mp hn with hn | hn
      · exact nul_below ha.plain (by rwa [nodeAt, Option.isSome_map] at hsome) n hn
      · rw [List.mem_singleton.mp hn]
        exact hown
    rw [List.append_assoc]
    apply holds_of_archived ha.plain he hr _ hnul
    intro slash hslash
    have hrev : (r ++ [own]).reverse = own :: r.reverse := by simp
    rw [hnamed, pathBelow_name, ← hrev]
    apply safeName_spell (by simp) _ _ hslash
    · exact fun n hn => hnul n (List.mem_reverse.mp hn)
    · exact fun n hn => hclean r hsome n (List.mem_reverse.mp hn)
  have horder : Orderly (fun y => y = []) ((visited d path (own :: D)).map (· ++ [own])) := by
    apply orderly_map_append orderly_visited
    · simp
    · exact .inr rfl
  obtain ⟨s, hs, hin, hout⟩ := extractMembers_copies overwrite hK hspells hleads hdest.empty hmax hlimits
    horder hall
  refine ⟨s, ?_, fun r hr => ?_, fun r hr => ?_⟩
  · rw [extractTar, hs, ha.err]
  · have hmem : r ++ [own] ∈ (visited d path (own :: D)).map (· ++ [own]) := List.mem_map_of_mem hr
    have hnode := hin (r ++ [own]) (by simp) hmem
    rwa [List.append_assoc, List.append_assoc] at hnode
  · have hnode := hout (r ++ [own]) (by simp) fun hm => by
      obtain ⟨r', hr', he⟩ := List.mem_map.mp hm
      exact hr (List.append_cancel_right he ▸ hr')
    rwa [List.append_assoc] at hnode

/-! ### Paths that do not end in a name -/

theorem pathBelow_dot (hr : r ≠ []) : pathBelow ['.'] r = '.' :: '/' :: spell r.reverse := by
  induction r with
  | nil => exact absurd rfl hr
  | cons n r ih =>
    by_cases hr0 : r = []
    · subst hr0
      show _ = '.' :: '/' :: List.intercalate ['/'] [n.text]
      rw [List.intercalate_singleton]
      rfl
    · rw [pathBelow, ih hr0, List.reverse_cons, spell_concat (by simpa using hr0)]
      rfl

/-- A path that does not end in the directory's name ends in `.` or `..`. -/
theorem OfTar.ends (ha : OfTar K d headerLen opts path own D reader) :
    lastComponent path = own.text ∨ lastComponent path = ['.'] ∨ lastComponent path = ['.', '.'] := by
  obtain ⟨st, hl, -⟩ := ha.lstat
  have hc := WriteTar.current_start ha.slash hl
  have hne : path ≠ [] := by
    rintro rfl
    exact hc.ne.1 rfl
  apply (lastComponent_cases ha.slash hne).imp_left
  rintro ⟨n, hn, hsteps⟩
  rw [hn]
  have hdot : Rootfs.cleanPath path ≠ some ['.'] := by
    rw [cleanPath_of_ne hc.nul hc.ne.1]
    exact fun he => hc.ne.2 (Option.some.inj he)
  rw [Root.lstat, if_neg hdot, Root.onHost, resolve_of_ne hc.nul hc.ne] at hl
  obtain ⟨hfound, -⟩ := entryAt_eq_ok.mp hl
  have hhost : steps ('/' :: trimLeft path) = steps (upToSlash path) ++ [.down n] := by
    rw [steps_slash, steps_trimLeft, hsteps]
  have hslash : trailingSlash ('/' :: trimLeft path) = false := by
    rw [trailingSlash, List.getLast?_cons_of_ne_nil hc.ne.1]
    exact (Rootfs.trailingSlash_trimLeft hc.ne.1).trans ha.slash
  obtain ⟨E, hE, -⟩ := nofollow_place hfound hslash hhost
  rw [(List.cons.inj hE).1]

/-- The directory's own entry comes first. -/
theorem OfTar.first (ha : OfTar K d headerLen opts path own D reader) :
    ∃ h hs, reader.headers = h :: hs ∧ h.name = lastComponent path ++ ['/'] ∧
      List.Forall₂ (fun r h => ∃ e, Archived d (lastComponent path) (own :: D) r e ∧ ReadsBack e h)
        (visited d path (own :: D)).tail hs := by
  have hall := ha.headers
  cases hh : reader.headers with
  | nil =>
    rw [hh] at hall
    cases hall
  | cons h hs =>
    rw [hh] at hall
    obtain ⟨⟨e, he, hr⟩, hrest⟩ := List.forall₂_cons.mp hall
    refine ⟨h, hs, rfl, ?_, hrest⟩
    have hdir : nodeAt d ([] ++ own :: D) = some .dir := ha.dir
    rw [Archived] at he
    rw [hdir] at he
    exact hr.name.trans he.2

/-- With `..` at the end of the path nothing is extracted. -/
theorem OfTar.parent_fails (ha : OfTar K d headerLen opts path own D reader) (hbase : lastComponent path = ['.', '.']) :
    (extractTar K' reader dest overwrite limits d').2 ≠ none := by
  obtain ⟨h, hs, hheaders, hname, -⟩ := ha.first
  have hsafe : safeName h.member.name = .error (.outside ['.', '.', '/']) := by
    rw [show h.member.name = h.name from rfl, hname, hbase]
    rfl
  rw [extractTar, hheaders, List.map_cons, extractMembers, extractMember, hsafe]
  exact Option.some_ne_none _

/-- With `.` at the end of the path what is in the directory is extracted without the directory's name.
If it came back below that name all the same, there would be no end to the directories of that name. -/
theorem OfTar.here_fails (ha : OfTar K d headerLen opts path own D reader) (hK : K'.Willing) (hdest : EmptyDir d' dest R)
    (hmax : limits.maxBytes < 2 ^ 63)
    (hlimits : Within limits.maxEntries 0 limits.maxBytes (reader.headers.map TarHeader.member))
    (hbase : lastComponent path = ['.'])
    (hclean : ∀ r, (nodeAt d (r ++ own :: D)).isSome → ∀ n ∈ r ++ [own], '\\' ∉ n.text) :
    ¬ Recreated d D own (extractTar K' reader dest overwrite limits d').1.disk R := by
  obtain ⟨ms, hspells, hleads⟩ := hdest.names
  obtain ⟨h, hs, hheaders, hname, hrest⟩ := ha.first
  rw [hheaders, List.map_cons] at hlimits
  have horder : Orderly (fun y => y = []) (visited d path (own :: D)).tail := by
    have hrest : Orderly (fun y => False ∨ y = []) (visited d path (own :: D)).tail := orderly_visited.2.2
    simpa only [false_or] using hrest
  have hall : List.Forall₂ (fun y m => ∃ node, nodeAt d (y ++ own :: D) = some node ∧ m.Holds y node)
      (visited d path (own :: D)).tail (hs.map TarHeader.member) := by
    rw [List.forall₂_map_right_iff]
    refine ((List.forall₂_and_left _ _).mpr ⟨fun r hr => horder.not_done hr, hrest⟩).imp fun r h ⟨hr0, e, he, hr⟩ => ?_
    have hsome := isSome_of_archived he
    have hnul := nul_below ha.plain (by rwa [nodeAt, Option.isSome_map] at hsome)
    have hb : ∀ n ∈ r.reverse, '\\' ∉ n.text := fun n hn =>
      hclean r hsome n (List.mem_append_left _ (List.mem_reverse.mp hn))
    have hrev : r.reverse ≠ [] := by simpa using hr0
    apply holds_of_archived ha.plain he hr _ hnul
    intro slash hslash
    rw [hbase, pathBelow_dot hr0]
    apply safeName_dot (safeName_spell hrev (fun n hn => hnul n (List.mem_reverse.mp hn)) hb hslash)
    · rw [List.head?_append_of_ne_nil _ (spell_ne_nil hrev)]
      exact head?_spell
    · intro hm
      rcases List.mem_append.mp hm with hm | hm
      · rcases mem_spell hm with hm | ⟨n, hn, hm⟩
        · cases hm
        · exact hb n hn hm
      · rcases hslash with rfl | rfl <;> simp at hm
  obtain ⟨s, hs', hin, hout⟩ := extractMembers_copies overwrite hK hspells hleads hdest.empty hmax
    hlimits.skip horder hall
  have hfirst : extractMember K' copyWithin dest overwrite limits h.member ⟨d', limits.maxBytes, 0, []⟩ =
      (⟨d', limits.maxBytes, 0, []⟩, none) := by
    have hsafe : safeName h.member.name = .ok [] := by
      rw [show h.member.name = h.name from rfl, hname, hbase]
      rfl
    rw [extractMember, hsafe]
    rfl
  rw [extractTar, hheaders, List.map_cons, extractMembers_cons_none hfirst, hs']
  intro hrec
  have hdeep : ∀ k, nodeAt d (List.replicate k own ++ own :: D) = some .dir := by
    intro k
    induction k with
    | zero => exact ha.dir
    | succ k ih =>
      have hk : nodeAt s.disk (List.replicate (k + 1) own ++ R) = some .dir := by
        rw [List.replicate_succ', List.append_assoc]
        exact (hrec _).trans ih
      have hne : List.replicate (k + 1) own ≠ [] := List.cons_ne_nil _ _
      by_cases hmem : List.replicate (k + 1) own ∈ (visited d path (own :: D)).tail
      · rw [hin _ hne hmem] at hk
        obtain ⟨node, hnode, hres⟩ := Option.map_eq_some_iff.mp hk
        rw [hnode, restored_eq_dir.mp hres]
      · rw [hout _ hne hmem] at hk
        cases hk
  have htall := hdeep d.tree.height
  have hsome : (d.tree.get (List.replicate d.tree.height own ++ own :: D)).isSome := by
    rw [← Option.isSome_map (f := Entry.node)]
    exact Option.isSome_iff_exists.mpr ⟨_, htall⟩
  have hle := d.tree.length_le_height hsome
  rw [List.length_append, List.length_replicate, List.length_cons] at hle
  omega

/-! ### The round trip -/

/-- A name with a backslash does not come back. -/
theorem OfTar.clean_of_recreated (hdest : EmptyDir d' dest R)
    (hrec : Recreated d D own (extractTar K' reader dest false limits d').1.disk R) :
    ∀ r, (nodeAt d (r ++ own :: D)).isSome → ∀ n ∈ r ++ [own], '\\' ∉ n.text := by
  obtain ⟨ms, hspells, hleads⟩ := hdest.names
  have hstart : Tidy d' ms R := by
    refine ⟨hleads, fun y hy => ?_⟩
    by_cases hy0 : y = []
    · rw [hy0]
      simp
    · exact absurd ((Tree.kindAt_eq_none _).mpr (nodeAt_eq_none.mp (empty_below hdest.empty hy0))) hy
  have hend : Tidy (extractTar K' reader dest false limits d').1.disk ms R := by
    have hrun := extractMembers_tidy (K := K') copyWithin limits (reader.headers.map TarHeader.member)
      (s := ⟨d', limits.maxBytes, 0, []⟩) hstart hspells
    rw [extractTar]
    split
    · rename_i hs
      rw [hs] at hrun
      exact hrun
    · rename_i hs
      rw [hs] at hrun
      exact hrun
  intro r hr
  apply hend.names
  rw [List.append_assoc, List.singleton_append, ← Option.isSome_iff_ne_none, Tree.kindAt_isSome]
  rwa [← hrec r, nodeAt, Option.isSome_map] at hr

/-- All that is found is visited. -/
theorem mem_visited (hfound : ∀ r, r ≠ [] → (nodeAt d (r ++ L)).isSome →
    (lstat d (pathClean ('/' :: pathBelow (trimLeft path) r))).isOk = true) (hr : (nodeAt d (r ++ L)).isSome) :
    r ∈ visited d path L := by
  rw [nodeAt, Option.isSome_map] at hr
  apply mem_preorder List.nil_suffix
  · have hle := d.tree.length_le_height hr
    rw [List.length_append] at hle
    rw [List.length_nil]
    omega
  · rintro n z - ⟨u, hu⟩
    have hn : (d.tree.get (n :: z ++ L)).isSome := by
      by_contra hnone
      rw [← hu, List.append_assoc, d.tree.none_below (by simpa using hnone) (List.suffix_append u _)] at hr
      cases hr
    refine WriteTar.mem_listed.mpr ⟨hn, hfound _ (List.cons_ne_nil n z) ?_⟩
    rwa [nodeAt, Option.isSome_map]

/-- **When `Extract` undoes `WriteTar`**, whether it may overwrite or not. -/
theorem extractTar_undoes_writeTar_iff (ha : OfTar K d headerLen opts path own D reader) (hK : K'.Willing)
    (hdest : EmptyDir d' dest R) (hmax : limits.maxBytes < 2 ^ 63)
    (hlimits : Within limits.maxEntries 0 limits.maxBytes (reader.headers.map TarHeader.member)) :
    (∀ overwrite, (extractTar K' reader dest overwrite limits d').2 = none ∧
        Recreated d D own (extractTar K' reader dest overwrite limits d').1.disk R) ↔
      Undoable d path own D limits.maxBytes := by
  constructor
  · intro h
    obtain ⟨hok, hrec⟩ := h false
    have hclean := OfTar.clean_of_recreated hdest hrec
    have hnamed : lastComponent path = own.text := by
      rcases ha.ends with hnamed | hdot | hdots
      · exact hnamed
      · exact absurd hrec (ha.here_fails hK hdest hmax hlimits hdot hclean)
      · exact absurd hok (ha.parent_fails hdots)
    obtain ⟨s, hs, hin, hout⟩ := ha.extracted false hK hdest hmax hlimits hnamed hclean
    rw [hs] at hrec
    have hvisited : ∀ r, (nodeAt d (r ++ own :: D)).isSome → r ∈ visited d path (own :: D) := by
      intro r hr
      by_contra hmem
      rw [← hrec r, hout r hmem] at hr
      cases hr
    refine ⟨hnamed, fun r hr0 hr => ?_, hclean, fun hm r data hfile => ?_⟩
    · obtain ⟨n, z, rfl⟩ := List.exists_cons_of_ne_nil hr0
      exact (WriteTar.mem_listed.mp (mem_names_of_mem_preorder (hvisited _ hr) List.nil_suffix)).2
    · have hnode := hin r (hvisited r (by rw [hfile]; rfl))
      rw [hrec r, hfile, Option.map_some, restored, if_pos hm] at hnode
      exact Node.file.inj (Option.some.inj hnode)
  · intro h overwrite
    obtain ⟨s, hs, hin, hout⟩ := ha.extracted overwrite hK hdest hmax hlimits h.named h.clean
    rw [hs]
    refine ⟨rfl, fun r => ?_⟩
    cases hnode : nodeAt d (r ++ own :: D) with
    | none =>
      by_cases hr : r ∈ visited d path (own :: D)
      · rw [hin r hr, hnode]
        rfl
      · exact hout r hr
    | some node =>
      rw [hin r (mem_visited h.found (by rw [hnode]; rfl)), hnode, Option.map_some]
      cases node with
      | file data =>
        rw [restored]
        split
        · rw [h.bytes ‹_› r data hnode]
        · rfl
      | _ => rfl

/-! ### Two directories -/

/-- `/u` with the file `b`, `/w` with the file `b\c`, and the empty directory `/d`. -/
def twoDirs : FsTree :=
  Tree.ofList [([], ⟨.dir, 0o755, 0, 0, 0⟩), ([⟨['u'], isName_u⟩], ⟨.dir, 0o755, 0, 0, 0⟩),
    ([⟨['b'], isName_b⟩, ⟨['u'], isName_u⟩], ⟨.file ['x'], 0o644, 0, 0, 0⟩), ([⟨['w'], isName_w⟩], ⟨.dir, 0o755, 0, 0, 0⟩),
    ([⟨['b', '\\', 'c'], rfl⟩, ⟨['w'], isName_w⟩], ⟨.file ['x'], 0o644, 0, 0, 0⟩), ([⟨['d'], rfl⟩], ⟨.dir, 0o755, 0, 0, 0⟩)]
    (by decide) (by decide)

/-- What is read of the archive of a directory with one file. -/
def oneFileTar (dir file : Text) : TarReader :=
  ⟨[⟨dir ++ ['/'], .dir, [], 0o755, none, ⟨[], none⟩⟩, ⟨dir ++ '/' :: file, .reg, [], 0o644, none, ⟨['x'], none⟩⟩], none⟩

theorem twoDirs_below {n : Name} (hs : (nodeAt (.start twoDirs) (r ++ [n])).isSome) :
    r = [] ∨ n = ⟨['u'], rfl⟩ ∧ r = [⟨['b'], rfl⟩] ∨ n = ⟨['w'], rfl⟩ ∧ r = [⟨['b', '\\', 'c'], rfl⟩] := by
  rw [nodeAt, Option.isSome_map] at hs
  have hmem : r ++ [n] ∈ twoDirs.locs := twoDirs.mem_locs hs
  have hr : r = (r ++ [n]).dropLast := by simp
  have hn : (r ++ [n]).getLast? = some n := by simp
  generalize r ++ [n] = L at hmem hr hn
  simp only [twoDirs, Tree.ofList, List.map_cons, List.map_nil, List.mem_cons, List.not_mem_nil, or_false] at hmem
  rcases hmem with rfl | rfl | rfl | rfl | rfl | rfl
  · cases hn
  · exact .inl hr
  · exact .inr (.inl ⟨(Option.some.inj hn).symm, hr⟩)
  · exact .inl hr
  · exact .inr (.inr ⟨(Option.some.inj hn).symm, hr⟩)
  · exact .inl hr

theorem twoDirs_plain {n : Name} (hn : n = ⟨['u'], rfl⟩ ∨ n = ⟨['w'], rfl⟩) : Plain (.start twoDirs) [n] := by
  refine ⟨fun m r hs => ?_, fun r hr => ?_, fun r target hr => ?_⟩
  · rcases twoDirs_below (r := m :: r) (by rwa [nodeAt, Option.isSome_map]) with h | ⟨-, h⟩ | ⟨-, h⟩ <;> cases h <;> decide
  · rcases twoDirs_below (by rw [hr]; rfl) with rfl | ⟨rfl, rfl⟩ | ⟨rfl, rfl⟩
    · rcases hn with rfl | rfl <;> cases hr
    · cases hr
    · cases hr
  · rcases twoDirs_below (by rw [hr]; rfl) with rfl | ⟨rfl, rfl⟩ | ⟨rfl, rfl⟩
    · rcases hn with rfl | rfl <;> cases hr
    · cases hr
    · cases hr

theorem emptyDir_d : EmptyDir (.start twoDirs) ['/', 'd'] [⟨['d'], rfl⟩] := by
  refine ⟨⟨[⟨['d'], rfl⟩], ⟨by decide, by decide⟩, ⟨by decide, by decide⟩⟩, fun n => ?_⟩
  by_contra hn
  rcases twoDirs_below (r := [n]) (Option.isSome_iff_ne_none.mpr hn) with h | ⟨h, -⟩ | ⟨h, -⟩ <;> cases h

/-- The file in `/u` comes back. -/
theorem extractTar_undoes_writeTar_plain :
    (extractTar .willing (oneFileTar ['u'] ['b']) ['/', 'd'] false ⟨10, 100⟩ (.start twoDirs)).2 = none ∧
      Recreated (.start twoDirs) [] ⟨['u'], rfl⟩
        (extractTar .willing (oneFileTar ['u'] ['b']) ['/', 'd'] false ⟨10, 100⟩ (.start twoDirs)).1.disk
        [⟨['d'], rfl⟩] := by
  have htar : OfTar .willing (.start twoDirs) (fun _ => 512) ⟨0, 0⟩ ['/', 'u'] ⟨['u'], rfl⟩ [] (oneFileTar ['u'] ['b']) :=
    ⟨by decide, ⟨_, rfl, rfl⟩, twoDirs_plain (.inl rfl),
      ⟨_, rfl, .cons ⟨rfl, rfl, rfl, rfl, rfl⟩ (.cons ⟨rfl, rfl, rfl, rfl, rfl⟩ .nil), rfl⟩⟩
  refine (extractTar_undoes_writeTar_iff htar (fun _ _ _ => rfl) emptyDir_d (by decide)
    ⟨by decide, by decide, by decide⟩).mpr ⟨by decide, fun r hr hs => ?_, fun r hs => ?_, fun hm => absurd hm (by decide)⟩ false
  · rcases twoDirs_below hs with rfl | ⟨-, rfl⟩ | ⟨h, -⟩
    · exact absurd rfl hr
    · decide
    · cases h
  · rcases twoDirs_below hs with rfl | ⟨-, rfl⟩ | ⟨h, -⟩
    · decide
    · decide
    · cases h

/-- The file `b\c` in `/w` does not come back. -/
theorem backslash_does_not_come_back :
    OfTar .willing (.start twoDirs) (fun _ => 512) ⟨0, 0⟩ ['/', 'w'] ⟨['w'], rfl⟩ [] (oneFileTar ['w'] ['b', '\\', 'c']) ∧
      EmptyDir (.start twoDirs) ['/', 'd'] [⟨['d'], rfl⟩] ∧
      Within 10 0 100 ((oneFileTar ['w'] ['b', '\\', 'c']).headers.map TarHeader.member) ∧
      ∀ overwrite, ¬
        ((extractTar .willing (oneFileTar ['w'] ['b', '\\', 'c']) ['/', 'd'] overwrite ⟨10, 100⟩ (.start twoDirs)).2 = none ∧
          Recreated (.start twoDirs) [] ⟨['w'], rfl⟩
            (extractTar .willing (oneFileTar ['w'] ['b', '\\', 'c']) ['/', 'd'] overwrite ⟨10, 100⟩ (.start twoDirs)).1.disk
            [⟨['d'], rfl⟩]) := by
  refine ⟨⟨by decide, ⟨_, rfl, rfl⟩, twoDirs_plain (.inr rfl),
      ⟨_, rfl, .cons ⟨rfl, rfl, rfl, rfl, rfl⟩ (.cons ⟨rfl, rfl, rfl, rfl, rfl⟩ .nil), rfl⟩⟩, emptyDir_d,
    ⟨by decide, by decide, by decide⟩, fun overwrite h => ?_⟩
  have hnode := h.2 [⟨['b', '\\', 'c'], rfl⟩]
  cases overwrite <;> exact absurd hnode (by decide)

end OpenshiftConsole.Filesystem.Extract
