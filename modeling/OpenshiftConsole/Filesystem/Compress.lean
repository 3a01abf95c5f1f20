import OpenshiftConsole.Filesystem.ArchiveNames
import OpenshiftConsole.Filesystem.TarRoundTrip
import OpenshiftConsole.Filesystem.UpToTimes

/-!
# The archive as a zip

`agent.tarToZip`: the helper's tar stream member by member as a zip. A zip has no kinds of members: a directory
is one whose name ends with a slash or whose mode says so, a link one whose mode says so and whose contents are
the target.

`archive/zip` is not part of the repository; `ZipReadsBack` says what its reader delivers for an entry that was
written. For what `WriteTar` writes a zip member is then the tar member that it was made of, but for the time
(`zipMember_same`), so the zip is extracted as the tar is (`extractZip_tarToZip`).
-/

namespace OpenshiftConsole.Filesystem.Compress

open OpenshiftConsole.Library.Lines (Text)
open OpenshiftConsole.Library.PathWalk OpenshiftConsole.Library.FileTree OpenshiftConsole.Library.Loops
open Extract
open WriteTar (TarEntry ArchiveOptions Writer Walk Visited visit recurse writeTar archiveName header)

/-! ### tarToZip -/

/-- `fs.FileMode`: the type bits, and the twelve bits below. -/
structure FileMode where
  dir : Bool
  symlink : Bool
  /-- A device, socket or fifo. -/
  other : Bool
  perm : ℕ

/-- `FileInfo().Mode()` of a tar header whose type flag is one of those that `tarToZip` copies: type bits in the
header's mode count, too. -/
def fileInfoMode (h : TarHeader) : FileMode :=
  let fmt := h.mode / 0o10000 * 0o10000
  { dir := fmt = 0o040000 || h.typeflag = .dir
    symlink := fmt = 0o120000 || h.typeflag = .symlink
    other := [0o010000, 0o020000, 0o060000, 0o140000].contains fmt
    perm := h.mode % 0o10000 }

/-- An entry of the zip: its header, and what was written after it. -/
structure ZipEntry where
  name : Text
  /-- `Store`, not `Deflate`. -/
  store : Bool
  modified : Option Time
  mode : FileMode
  data : Text

/-- Why the zip breaks off. -/
inductive ZipError where
  /-- The tar stream cannot be read any further. -/
  | read (err : Extract.Error)
  /-- A member's contents cannot be read to their end. -/
  | body
  /-- The zip writer's "write to directory" -/
  | writeToDirectory
  deriving DecidableEq

/-- A write to the entry just created: the zip writer takes one whose name ends with a slash for a directory. -/
def writeBody (e : ZipEntry) (data : Text) : ZipEntry × Option ZipError :=
  if trailingSlash e.name ∧ data ≠ [] then (e, some .writeToDirectory) else ({ e with data := data }, none)

/-- The zip entry of a tar member; `none` where there is none. -/
def zipMember (h : TarHeader) : Option (ZipEntry × Option ZipError) :=
  let entry : ZipEntry := ⟨h.name, false, h.modTime, fileInfoMode h, []⟩
  match h.typeflag with
  | .dir => some ({ entry with store := true, name := if trailingSlash h.name then h.name else h.name ++ ['/'] }, none)
  | .symlink => some (writeBody entry h.linkname)
  | .reg =>
    match h.body.fault with
    | none => some (writeBody entry h.body.data)
    | some k => some ((writeBody entry (h.body.data.take k)).map id fun err => err.or (some .body))
  | .other => none

/-- The entries of the zip, up to the first error. -/
def zipMembers : List TarHeader → List ZipEntry × Option ZipError
  | [] => ([], none)
  | h :: hs =>
    match zipMember h with
    | none => zipMembers hs
    | some (e, some err) => ([e], some err)
    | some (e, none) => (zipMembers hs).map (e :: ·) id

/-- `tarToZip`, which closes the zip only if nothing fails. -/
def tarToZip (reader : TarReader) : List ZipEntry × Option ZipError :=
  (zipMembers reader.headers).map id fun err => err.or (reader.err.map .read)

/-- What a zip reader delivers for an entry that was written; times are rounded. -/
structure ZipReadsBack (e : ZipEntry) (f : ZipFile) : Prop where
  name : f.name = e.name
  /-- `Mode`: a name that ends with a slash is a directory's. -/
  isDir : f.isDir = (e.mode.dir || trailingSlash e.name)
  isSymlink : f.isSymlink = e.mode.symlink
  isRegular : f.isRegular = !(e.mode.dir || trailingSlash e.name || e.mode.symlink || e.mode.other)
  mode : f.mode = e.mode.perm
  openErr : f.openErr = none
  body : f.body = ⟨e.data, none⟩

/-! ### What WriteTar writes -/

/-- A member as `WriteTar` writes it. -/
structure Proper (e : TarEntry) : Prop where
  typeflag : e.typeflag ≠ .other
  /-- A directory's name ends with a slash, and no other does. -/
  slash : trailingSlash e.name = true ↔ e.typeflag = .dir
  /-- `RawMode`: permission, setuid, setgid and sticky bits. -/
  mode : e.mode < 0o10000

variable {K : Kernel} {d : Fs} {held : Loc Name → Text} {headerLen : TarEntry → ℕ} {opts : ArchiveOptions}
  {w : Writer} {L : Loc Name} {path c parent : Text} {st : Entry} {fuel : ℕ} {e : TarEntry} {s u : Walk}

/-- A path with a slash at its end leads to a directory, if to anything. -/
theorem node_of_trailingSlash (hl : Root.lstat d c = .ok (L, st)) (hc : trailingSlash c = true) : st.node = .dir := by
  have hdir : ∀ p, trailingSlash p = true → follow d p = .found L → d.tree.kindAt L = some .dir := by
    intro p hp hf
    rw [follow, fullSteps, if_pos hp] at hf
    obtain ⟨D, hD, hdir⟩ := d.tree.walk_take d.tree.root_dir (List.cons_ne_nil _ _) (by rw [hf]; simp)
    have hhere := walk_append hD hdir (t := [.here]) rfl (by simp [advance])
    rw [hf] at hhere
    exact Stop.found.inj hhere ▸ hdir
  suffices hL : d.tree.kindAt L = some .dir by
    have hnode := kindAt_dir_iff.mp hL
    rw [nodeAt, get_of_lstat hl] at hnode
    exact Option.some.inj hnode
  rw [Root.lstat] at hl
  split at hl
  · exact hdir c hc (Root.stat_iff.mp hl).2.1
  · obtain ⟨host, hr, hhost⟩ := Root.onHost_ok hl
    have hslash : trailingSlash host = true := by
      rcases Rootfs.resolve_eq_some hr with ⟨-, ht⟩ | ⟨rfl, -⟩
      · rw [ht, hc]
      · rfl
    have hf := (entryAt_eq_ok.mp hhost).1
    rw [nofollow, if_pos (.inl hslash)] at hf
    exact hdir host hslash hf

/-- A slash at the end of an entry's name is one at the end of its path. -/
theorem trailingSlash_archiveName (h : trailingSlash (archiveName c parent) = true) : trailingSlash c = true := by
  rw [archiveName] at h
  split at h
  · exact h
  · rename_i cleaned hc
    split at h
    · cases h
    · rename_i hdot
      have hcleaned : trailingSlash cleaned = true → trailingSlash c = true := by
        intro ht
        rw [Rootfs.cleanPath] at hc
        split at hc
        · cases hc
        · split at hc
          · exact absurd (Option.some.inj hc).symm hdot
          · rename_i hne
            rw [← Rootfs.trailingSlash_trimLeft hne, Option.some.inj hc, ht]
      split at h
      · apply hcleaned
        rw [trailingSlash, beq_iff_eq] at h ⊢
        rw [List.getLast?_drop] at h
        split at h
        · cases h
        · exact h
      · exact hcleaned h

theorem visited_proper (hmode : st.mode < 0o10000) (hl : Root.lstat d c = .ok (L, st))
    (hs : ∀ e ∈ s.writer.entries, Proper e) (hv : Visited K d held headerLen opts parent c L st s w) :
    ∀ e ∈ w.entries, Proper e := by
  rcases hv with ⟨-, rfl⟩ | ⟨hsp, hv⟩
  · exact hs
  · obtain ⟨data, hdata⟩ := WriteTar.visit_entries hv
    rw [hdata]
    refine List.forall_mem_cons.mpr ⟨?_, hs⟩
    have hslash : trailingSlash (archiveName c parent) = true → st.node = .dir := fun ht =>
      node_of_trailingSlash hl (trailingSlash_archiveName ht)
    rw [header]
    cases hst : st.node with
    | dir => exact ⟨by simp, iff_of_true (by simp [trailingSlash]) rfl, hmode⟩
    | file | symlink =>
      rw [hst] at hslash
      exact ⟨by simp, iff_of_false (fun ht => by cases hslash ht) (by simp), hmode⟩
    | special => exact absurd hst hsp

theorem recurse_proper (hmode : ∀ L e, d.tree.get L = some e → e.mode < 0o10000)
    (hs : ∀ e ∈ s.writer.entries, Proper e) (h : recurse K d held headerLen opts parent fuel c s = (u, none)) :
    ∀ e ∈ u.writer.entries, Proper e := by
  induction fuel generalizing c s u with
  | zero =>
    obtain rfl := (Prod.mk.inj h).1
    exact hs
  | succ fuel ih =>
    obtain ⟨L, st, w, hl, -, hv, hrest⟩ := WriteTar.recurse_eq_none.mp h
    have hw := visited_proper (hmode L st (get_of_lstat hl)) hl hs hv
    rcases hrest with ⟨-, rfl⟩ | ⟨-, M, entries, truncated, -, hall⟩
    · exact hw
    · exact forEach_kept (I := fun s : Walk => ∀ e ∈ s.writer.entries, Proper e) (fun _ _ _ _ hs hm => ih hs hm) hw hall

/-- **What `WriteTar` writes**. -/
theorem writeTar_proper (hmode : ∀ L e, d.tree.get L = some e → e.mode < 0o10000)
    (h : writeTar K d held headerLen path opts = (w, none)) : ∀ e ∈ w.entries, Proper e := by
  obtain ⟨base, u, -, hw, hu⟩ := WriteTar.writeTar_entries h
  rw [hw]
  exact recurse_proper hmode (fun _ he => absurd he List.not_mem_nil) hu

/-! ### The zip is read as the tar -/

variable {h : TarHeader} {z : ZipEntry} {f : ZipFile}

/-- A zip link is read to the end of its target, if that is not too long. -/
theorem readLink_eq {link : Text} (hopen : f.openErr = none) (hbody : f.body = ⟨link, none⟩) (hlen : link.length ≤ 4096) :
    f.readLink = .ok link := by
  rw [ZipFile.readLink, hopen, hbody, copyLimited, if_neg (by decide)]
  show Except.ok (link.take (min (4096 : ℤ).toNat link.length)) = _
  rw [List.take_of_length_le]
  exact le_min hlen le_rfl

theorem fileInfoMode_eq (h : TarHeader) (hmode : h.mode < 0o10000) :
    fileInfoMode h = ⟨h.typeflag = .dir, h.typeflag = .symlink, false, h.mode⟩ := by
  have hfmt : h.mode / 0o10000 * 0o10000 = 0 := by rw [Nat.div_eq_of_lt hmode, Nat.zero_mul]
  rw [fileInfoMode, hfmt, Nat.mod_eq_of_lt hmode]
  rfl

/-- The kind of a zip member is that of the tar member whose name and mode it has. -/
theorem ZipReadsBack.kind (hf : ZipReadsBack z f) (hname : z.name = h.name) (hz : z.mode = fileInfoMode h)
    (hmode : h.mode < 0o10000) (hslash : trailingSlash h.name = true ↔ h.typeflag = .dir)
    (hother : h.typeflag ≠ .other) :
    f.isDir = decide (h.typeflag = .dir) ∧ f.isSymlink = decide (h.typeflag = .symlink) ∧
      f.isRegular = decide (h.typeflag = .reg) ∧ permOf f.mode = permOf h.mode := by
  have hend : trailingSlash h.name = decide (h.typeflag = .dir) := by
    rw [Bool.eq_iff_iff, decide_eq_true_iff]
    exact hslash
  have hmode := hz.trans (fileInfoMode_eq h hmode)
  refine ⟨?_, ?_, ?_, ?_⟩
  · rw [hf.isDir, hmode, hname, hend, Bool.or_self]
  · rw [hf.isSymlink, hmode]
  · rw [hf.isRegular, hmode, hname, hend]
    cases ht : h.typeflag with
    | dir | symlink | reg => rfl
    | other => exact absurd ht hother
  · rw [hf.mode, hmode]

/-- **A zip member is the tar member** that it was made of. -/
theorem zipMember_same (hr : ReadsBack e h) (he : Proper e)
    (hlink : e.typeflag = .symlink → e.linkname.length ≤ 4096) :
    ∃ z, zipMember h = some (z, none) ∧ ∀ f, ZipReadsBack z f → SameMember h.member f.member := by
  have hslash : trailingSlash h.name = true ↔ h.typeflag = .dir := by
    rw [hr.name, hr.typeflag]
    exact he.slash
  have hmode : h.mode < 0o10000 := hr.mode ▸ he.mode
  have hother : h.typeflag ≠ .other := hr.typeflag ▸ he.typeflag
  have hwrite : ∀ data, h.typeflag ≠ .dir → writeBody ⟨h.name, false, h.modTime, fileInfoMode h, []⟩ data =
      (⟨h.name, false, h.modTime, fileInfoMode h, data⟩, none) := fun data hdir =>
    if_neg fun hend => hdir (hslash.mp hend.1)
  cases ht : h.typeflag with
  | dir =>
    refine ⟨⟨h.name, true, h.modTime, fileInfoMode h, []⟩, ?_, fun f hf => ?_⟩
    · rw [zipMember, ht]
      dsimp only
      rw [if_pos (hslash.mpr ht)]
    · obtain ⟨hdir, -, -, hperm⟩ := hf.kind rfl rfl hmode hslash hother
      refine ⟨hf.name, ?_, hperm⟩
      rw [ht] at hdir
      rw [ZipFile.member, TarHeader.member, ht]
      exact if_pos hdir
  | symlink =>
    refine ⟨⟨h.name, false, h.modTime, fileInfoMode h, h.linkname⟩, ?_, fun f hf => ?_⟩
    · rw [zipMember, ht]
      dsimp only
      rw [hwrite _ (by rw [ht]; simp)]
    · obtain ⟨hdir, hsym, -, hperm⟩ := hf.kind rfl rfl hmode hslash hother
      refine ⟨hf.name, ?_, hperm⟩
      have hlen : h.linkname.length ≤ 4096 := by
        rw [hr.linkname]
        exact hlink (hr.typeflag ▸ ht)
      rw [ht] at hdir hsym
      rw [ZipFile.member, TarHeader.member, ht]
      dsimp only
      rw [hdir, hsym, readLink_eq hf.openErr hf.body hlen]
      rfl
  | reg =>
    refine ⟨⟨h.name, false, h.modTime, fileInfoMode h, h.body.data⟩, ?_, fun f hf => ?_⟩
    · have hfault : h.body.fault = none := by rw [hr.body]
      rw [zipMember, ht]
      dsimp only
      rw [hfault]
      dsimp only
      rw [hwrite _ (by rw [ht]; simp)]
    · obtain ⟨hdir, hsym, hreg, hperm⟩ := hf.kind rfl rfl hmode hslash hother
      refine ⟨hf.name, ?_, hperm⟩
      have hbody : f.body = h.body := by rw [hf.body, hr.body]
      rw [ht] at hdir hsym hreg
      rw [ZipFile.member, TarHeader.member, ht]
      dsimp only
      rw [hdir, hsym, hreg, hf.openErr, hbody]
      rfl
  | other => exact absurd ht hother

/-- All members of an archive are copied, and read back as they were. -/
theorem zipMembers_same {entries : List TarEntry} {headers : List TarHeader} (hr : List.Forall₂ ReadsBack entries headers)
    (he : ∀ e ∈ entries, Proper e) (hlink : ∀ e ∈ entries, e.typeflag = .symlink → e.linkname.length ≤ 4096) :
    (zipMembers headers).2 = none ∧ ∀ files, List.Forall₂ ZipReadsBack (zipMembers headers).1 files →
      List.Forall₂ SameMember (headers.map TarHeader.member) (files.map ZipFile.member) := by
  induction hr with
  | nil =>
    refine ⟨rfl, fun files hf => ?_⟩
    obtain rfl := List.forall₂_nil_left_iff.mp hf
    exact .nil
  | @cons e h entries headers hrh _ ih =>
    obtain ⟨hnone, hall⟩ := ih (fun e' he' => he e' (List.mem_cons_of_mem e he'))
      fun e' he' => hlink e' (List.mem_cons_of_mem e he')
    obtain ⟨z, hz, hsame⟩ := zipMember_same hrh (he e List.mem_cons_self) (hlink e List.mem_cons_self)
    have hcons : zipMembers (h :: headers) = (z :: (zipMembers headers).1, (zipMembers headers).2) := by
      rw [zipMembers, hz]
      rfl
    rw [hcons]
    refine ⟨hnone, fun files hf => ?_⟩
    obtain ⟨f, rest, hfz, hrest, rfl⟩ := List.forall₂_cons_left_iff.mp hf
    exact .cons (hsame f hfz) (hall rest hrest)

/-- **The zip carries the tar's tree**: `tarToZip` copies an archive of `WriteTar`'s to its end, and the zip is
extracted as the tar is, into any file system, up to times. -/
theorem extractZip_tarToZip {K' : Kernel} {d' : Fs} {dest : Text} {overwrite : Bool} {limits : ExtractLimits}
    {reader : TarReader} {files : List ZipFile} (hK : IgnoresTimes K')
    (hmode : ∀ L e, d.tree.get L = some e → e.mode < 0o10000)
    (hw : writeTar K d held headerLen path opts = (w, none)) (hr : Reads w.entries.reverse reader)
    (hlink : ∀ e ∈ w.entries, e.typeflag = .symlink → e.linkname.length ≤ 4096)
    (hz : List.Forall₂ ZipReadsBack (tarToZip reader).1 files) :
    (tarToZip reader).2 = none ∧
      Alike (extractTar K' reader dest overwrite limits d').1.disk.tree
          (extractZip K' files dest overwrite limits d').1.disk.tree ∧
        (extractZip K' files dest overwrite limits d').1.written =
            (extractTar K' reader dest overwrite limits d').1.written ∧
          (extractZip K' files dest overwrite limits d').2 = (extractTar K' reader dest overwrite limits d').2 := by
  have hproper := writeTar_proper hmode hw
  obtain ⟨hnone, hsame⟩ := zipMembers_same hr.headers (fun e he => hproper e (List.mem_reverse.mp he))
    fun e he => hlink e (List.mem_reverse.mp he)
  have hend : (tarToZip reader).2 = none := by
    rw [tarToZip, hr.err]
    show (zipMembers reader.headers).2.or none = none
    rw [hnone]
    rfl
  obtain ⟨hs, herr⟩ := extractMembers_alike copyWithin dest overwrite limits hK (hsame files hz)
    (s := ⟨d', limits.maxBytes, 0, []⟩) ⟨.refl _, rfl, rfl, rfl⟩
  have htar : extractTar K' reader dest overwrite limits d' = extractMembers K' copyWithin dest overwrite limits
      (reader.headers.map TarHeader.member) ⟨d', limits.maxBytes, 0, []⟩ := by
    rw [extractTar, hr.err]
    rcases extractMembers K' copyWithin dest overwrite limits _ _ with ⟨s, _ | err⟩ <;> rfl
  rw [htar, extractZip]
  exact ⟨hend, hs.disk, hs.written, herr.symm⟩

theorem twoDirs_mode {x : Entry} (hx : twoDirs.get L = some x) : x.mode < 0o10000 := by
  obtain ⟨l₁, l₂, hl, -⟩ := List.lookup_eq_some_iff.mp hx
  have hall : ∀ y ∈ l₁ ++ (L, x) :: l₂, y.2.mode < 0o10000 := by
    rw [← hl]
    decide
  exact hall (L, x) (List.mem_append_right _ List.mem_cons_self)

/-- The zip of `/u`, extracted into `/d`. -/
theorem extractZip_tarToZip_u :
    (tarToZip (oneFileTar ['u'] ['b'])).2 = none ∧
      let files : List ZipFile := [⟨['u', '/'], true, false, false, 0o755, none, none, ⟨[], none⟩⟩,
        ⟨['u', '/', 'b'], false, false, true, 0o644, none, none, ⟨['x'], none⟩⟩]
      let tar := extractTar .willing (oneFileTar ['u'] ['b']) ['/', 'd'] false ⟨0, 0⟩ (.start twoDirs)
      let zip := extractZip .willing files ['/', 'd'] false ⟨0, 0⟩ (.start twoDirs)
      Alike tar.1.disk.tree zip.1.disk.tree ∧ zip.1.written = tar.1.written ∧ zip.2 = tar.2 := by
  have hw : writeTar .willing (.start twoDirs) (contents (.start twoDirs)) (fun _ => 512) ['/', 'u'] ⟨0, 0⟩ =
    (_, none) := rfl
  refine extractZip_tarToZip (fun _ _ _ _ _ => rfl) (fun L x hx => twoDirs_mode hx) hw ⟨?_, rfl⟩ (by decide) ?_
  · exact .cons ⟨rfl, rfl, rfl, rfl, rfl⟩ (.cons ⟨rfl, rfl, rfl, rfl, rfl⟩ .nil)
  · exact .cons ⟨rfl, rfl, rfl, rfl, rfl, rfl, rfl⟩ (.cons ⟨rfl, rfl, rfl, rfl, rfl, rfl, rfl⟩ .nil)

end OpenshiftConsole.Filesystem.Compress
