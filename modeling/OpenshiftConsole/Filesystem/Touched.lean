import OpenshiftConsole.Filesystem.Delete
import OpenshiftConsole.Filesystem.ExtractBelow
import OpenshiftConsole.Filesystem.Visible

/-!
# What a request touches

The backend lets a request pass if the texts of its paths are visible; the helper then follows what the
container's file system makes of them, in directories with all that is below. So a request can touch an entry that
is not visible: through a link, through `..` behind a link, or below a directory that is itself shown.

`LeadsToSeen` says, in terms of the file system before the request, where its paths lead and what is below: for each
operation the entries that it lists, reads, archives, makes, writes, moves and removes. If these may be seen, the request
touches no other (`serve_keeps`). Where an entry stands at the very place that a path spells, the path leads
there and the backend's answer is about the right entry (`allowed_spelled`).
-/

namespace OpenshiftConsole.Filesystem.Helper

open OpenshiftConsole.Library.Lines (Text)
open OpenshiftConsole.Library.PathWalk OpenshiftConsole.Library.FileTree OpenshiftConsole.Library.Loops
open Api (Request Visibility Cluster connectAgent)
open Extract (Codec MakesIn LeadsAlong permOf)
open WriteTar (TarEntry Writer Walk ArchiveOptions)

/-! ### What is touched, and what may be -/

/-- The entries whose contents or listing are given away or archived, the directory that an archive is extracted
into, and the entries that are made, written, moved or removed. -/
def Outcome.touched (o : Outcome) : Set (Loc Name) :=
  {L | L ∈ o.shown ∨ o.into = some L ∨ ∃ a, a ≠ .attr ∧ (a, L) ∈ o.disk.journal}

/-- The entry may be seen: the path of the place that it stands at is visible. -/
def Seen (vis : Visibility) (L : Loc Name) : Prop := vis.allowed ('/' :: spell L.reverse) = true

/-- What may be done at a place that may not be seen: setting a mode, an owner or a time. -/
def Keeps (vis : Visibility) (a : Act) (L : Loc Name) : Prop := a = .attr ∨ Seen vis L

variable (vis : Visibility) (cfg : Config) (K : Kernel) (C : Codec) (t : FsTree)

/-- What a request's paths lead to may be seen, if the request comes to it. -/
def LeadsToSeen : Request → Prop
  | .listDirectory path => (Root.list K (.start t) path cfg.maxListEntries).isOk →
      ∀ L e, Root.stat (.start t) path = .ok (L, e) → Seen vis L
  | .stat _ => True
  | .readFile path maxBytes => (Root.openRead K (.start t) path).isOk →
      ∀ L e data, Root.stat (.start t) path = .ok (L, e) → e.node = .file data → K.refuses t .read L = false →
        ¬ (readLimit cfg maxBytes > 0 ∧ (data.length : ℤ) > readLimit cfg maxBytes ∧ maxBytes = 0) → Seen vis L
  | .upload path offset data _ mode => 0 ≤ offset → (data.length : ℤ) ≤ cfg.maxUploadChunk →
      (Root.openWrite K (.start t) path (if permOf mode = 0 then 0o644 else permOf mode) (offset = 0)).isOk →
        ∀ L, walk t.kindAt maxSymlinks [] (steps path) = .found L ∧
            (offset = 0 ∨ data ≠ [] ∧ K.refuses t .write L = false) ∨
          walk t.kindAt maxSymlinks [] (steps path) = .missing L → Seen vis L
  | .archive path _ => ∀ L e, Root.lstat (.start t) path = .ok (L, e) →
      ∀ M e', L <:+ M → t.get M = some e' → e'.node ≠ .special → Seen vis M
  | .extract path destination overwrite =>
    let dest := destinationOf path destination
    (Extract.openArchive K path (.start t)).isOk →
      MakesIn (Keeps vis) t.kindAt dest ∧
        (∀ R, walk (fill t.kindAt) maxSymlinks [] (Root.mkdirSteps dest) = .found R → Seen vis R) ∧
          ∀ a, (Extract.prepare K C path dest (.start t)).2 = .ok a →
            LeadsAlong K dest overwrite cfg.extractLimits (Keeps vis) a.members
              ⟨(Extract.prepare K C path dest (.start t)).1, cfg.extractLimits.maxBytes, 0, []⟩
  | .move source destination overwrite => (Root.rename K (.start t) source destination overwrite).isOk →
      ∀ L M, place t.kindAt maxSymlinks (steps source) = some L → place t.kindAt maxSymlinks (steps destination) = some M →
        L ≠ M → ∀ r, (t.get (r ++ L)).isSome → Seen vis (r ++ L) ∧ Seen vis (r ++ M)
  | .delete path recursive => ∀ L e, Root.lstat (.start t) path = .ok (L, e) →
      if e.node = .dir ∧ recursive = true then ∀ M, L <:+ M → (t.get M).isSome → Seen vis M
      else (Root.remove K (.start t) path).isOk → Seen vis L
  | .createDirectory path _ => MakesIn (Keeps vis) t.kindAt path

/-- A request that is let through touches only what may be seen. -/
def NotBypassed {ε : Type} (cluster : Cluster ε) (headerLen : TarEntry → ℕ) (call : Api.Call) : Prop :=
  ∀ conn, connectAgent cluster call = .ok conn →
    ∀ L ∈ (serve cfg K (.start t) C headerLen call.msg).touched, conn.vis.allowed ('/' :: spell L.reverse) = true

variable {vis cfg K C t} {d d' : Fs} {L M x : Loc Name} {path c : Text} {e : Entry} {o : Outcome}

/-- What an outcome is to be. -/
structure Outcome.Within (vis : Visibility) (d : Fs) (o : Outcome) : Prop where
  shown : ∀ L ∈ o.shown, Seen vis L
  into : ∀ L, o.into = some L → Seen vis L
  since : Since (Keeps vis) d o.disk

theorem Outcome.Within.touched (h : o.Within vis (.start t)) : ∀ L ∈ o.touched, Seen vis L := by
  rintro L (hL | hL | ⟨a, ha, hL⟩)
  · exact h.shown L hL
  · exact h.into L hL
  · exact (h.since.of_mem hL List.not_mem_nil).resolve_left ha

theorem Outcome.Within.of_shown (hshown : ∀ L ∈ o.shown, Seen vis L) (hinto : o.into = none)
    (hsince : Since (Keeps vis) d o.disk) : o.Within vis d :=
  ⟨hshown, fun L h => by simp [hinto] at h, hsince⟩

theorem Outcome.Within.of_since (hshown : o.shown = []) (hinto : o.into = none)
    (hsince : Since (Keeps vis) d o.disk) : o.Within vis d :=
  .of_shown (fun L h => by simp [hshown] at h) hinto hsince

theorem Outcome.Within.failed (d : Fs) (err : Error) : (Outcome.failed d err).Within vis d :=
  .of_since rfl rfl (Since.refl d)

theorem keeps_attr (L : Loc Name) : Keeps vis .attr L := .inl rfl

/-! ### Looking -/

/-- What is listed is the directory that the path leads to. -/
theorem list_ok {limit : ℤ} {entries : List Root.Dirent} {truncated : Bool}
    (h : Root.list K d path limit = .ok (L, entries, truncated)) : ∃ e, Root.stat d path = .ok (L, e) ∧ e.node = .dir := by
  obtain ⟨host, hr, h⟩ := Root.onHost_ok h
  split at h
  · cases h
  · rename_i D ho
    split at h
    · cases h
    · rename_i names hnames
      obtain rfl : D = L := by
        dsimp only at h
        split at h <;> exact (Prod.mk.inj (Except.ok.inj h)).1
      have hdir : nodeAt d D = some .dir := by
        rw [← kindAt_dir_iff]
        rw [readdir] at hnames
        split at hnames
        · cases hnames
        · exact not_not.mp ‹_›
      have hf : follow d host = .found D := by
        rw [Filesystem.openRead] at ho
        split at ho
        · split at ho
          · cases ho
          · exact (Except.ok.inj ho) ▸ ‹_›
        · cases ho
        · cases ho
      obtain ⟨e, he, hnode⟩ := Option.map_eq_some_iff.mp hdir
      refine ⟨e, Root.stat_iff.mpr ⟨by rw [hr]; rfl, ?_, he⟩, hnode⟩
      exact (Rootfs.walk_resolve hr _ _).symm.trans hf

theorem listDirectory_within (h : LeadsToSeen vis cfg K C t (.listDirectory path)) :
    (listDirectory cfg K (.start t) path).Within vis (.start t) := by
  rw [listDirectory]
  split
  · exact .failed _ _
  · rename_i L entries truncated hl
    obtain ⟨e, he, -⟩ := list_ok hl
    exact .of_shown (by simpa using h (by rw [hl]; rfl) L e he) rfl (Since.refl _)

theorem stat_within : (stat d path).Within vis d := by
  have hnothing : ∀ answer, Outcome.Within vis d ⟨d, answer, [], none⟩ := fun _ =>
    .of_since rfl rfl (Since.refl d)
  rw [stat]
  split
  · exact .failed _ _
  · split
    · exact hnothing _
    · exact hnothing _

theorem readFile_within {maxBytes : ℤ} (h : LeadsToSeen vis cfg K C t (.readFile path maxBytes)) :
    (readFile cfg K (.start t) path maxBytes).Within vis (.start t) := by
  rw [readFile]
  split
  · exact .failed _ _
  · rename_i L st hst
    split
    · rename_i data hdata
      dsimp only
      split
      · exact .failed _ _
      · split
        · exact .failed _ _
        · rename_i file hfile
          split
          · exact .failed _ _
          · obtain rfl := openRead_follow (Root.stat_iff.mp hst).2.1 hfile
            have hseen := h (by rw [hfile]; rfl) file st data hst hdata (by simpa using ‹¬ K.refuses _ _ _ = true›) ‹_›
            exact .of_shown (by simpa using hseen) rfl (Since.refl _)
    · exact .failed _ _

/-! ### Archives -/

/-- The entries of the file system that a writer has entries of. -/
def sources (w : Writer) : List (Loc Name) := w.entries.map TarEntry.source

theorem count_entries (limit : ℤ) (n : ℕ) (w : Writer) : (w.count limit n).1.entries = w.entries := by
  rw [Writer.count]
  split <;> rfl

theorem flush_entries (limit : ℤ) (w : Writer) : (w.flush limit).1.entries = w.entries := by
  rw [Writer.flush]
  split
  · rfl
  · exact count_entries limit w.pad w

theorem writeHeader_sources (limit : ℤ) (len : ℕ) (h : TarEntry) (w : Writer) :
    sources (w.writeHeader limit len h).1 ⊆ h.source :: sources w := by
  have hflush := flush_entries limit w
  rw [Writer.writeHeader]
  split
  · rename_i w₁ err hw₁
    rw [hw₁] at hflush
    rw [sources, hflush]
    exact List.subset_cons_self _ _
  · rename_i w₁ hw₁
    rw [hw₁] at hflush
    have hcount := count_entries limit len w₁
    split
    · rename_i w₂ err hw₂
      rw [hw₂] at hcount
      rw [sources, hcount, hflush]
      exact List.subset_cons_self _ _
    · rename_i w₂ hw₂
      rw [hw₂] at hcount
      rw [sources, List.map_cons, hcount, hflush]
      exact List.Subset.refl _

theorem copy_sources (limit : ℤ) (data : Text) (w : Writer) : sources (w.copy limit data).1 = sources w := by
  unfold Writer.copy sources
  dsimp only
  split <;> simp_all

theorem close_entries (limit : ℤ) (w : Writer) : (w.close limit).1.entries = w.entries := by
  have hflush := flush_entries limit w
  rw [Writer.close]
  split
  · rename_i w₁ err hw₁
    rwa [hw₁] at hflush
  · rename_i w₁ hw₁
    rw [hw₁] at hflush
    exact (count_entries limit 1024 w₁).trans hflush

variable {held : Loc Name → Text} {headerLen : TarEntry → ℕ} {opts : ArchiveOptions} {parent : Text} {fuel : ℕ}

theorem visit_sources (limit : ℤ) (h : TarEntry) (w : Writer) :
    sources (WriteTar.visit K d held headerLen limit h c w).1 ⊆ h.source :: sources w := by
  have hheader := writeHeader_sources limit (headerLen h) h w
  rw [WriteTar.visit]
  split
  · rename_i w₁ err hw₁
    rwa [hw₁] at hheader
  · rename_i w₁ hw₁
    rw [hw₁] at hheader
    split
    · exact hheader
    · split
      · exact hheader
      · split
        · exact hheader
        · rwa [copy_sources]

theorem source_header (name : Text) (L : Loc Name) (st : Entry) (link : Text) : (WriteTar.header name L st link).source = L := by
  rw [WriteTar.header]
  split <;> rfl

/-- The entry is at or below `L`, and can be archived. -/
def Packed (d : Fs) (L x : Loc Name) : Prop := L <:+ x ∧ ∃ e, d.tree.get x = some e ∧ e.node ≠ .special

/-- What the walk adds, also where it fails, is at or below the place that its path names. -/
theorem recurse_sources {s : Walk} (hl : ∀ M e, Root.lstat d c = .ok (M, e) → M = L) :
    ∀ x ∈ sources (WriteTar.recurse K d held headerLen opts parent fuel c s).1.writer, x ∈ sources s.writer ∨ Packed d L x := by
  induction fuel generalizing c s L with
  | zero => exact fun x hx => .inl hx
  | succ fuel ih =>
    rw [WriteTar.recurse]
    split
    · exact fun x hx => .inl hx
    · rename_i M st hst
      obtain rfl := hl M st hst
      dsimp only
      split
      · exact fun x hx => .inl hx
      · -- the entry itself
        have hown : ∀ w err, (if st.node = .special then (s.writer, none) else
            WriteTar.visit K d held headerLen opts.maxBytes
              (WriteTar.header (WriteTar.archiveName c parent) M st (WriteTar.linkOf d c st)) c s.writer) = (w, err) →
            ∀ x ∈ sources w, x ∈ sources s.writer ∨ Packed d M x := by
          intro w err hw x hx
          split at hw
          · obtain ⟨rfl, -⟩ := Prod.mk.inj hw
            exact .inl hx
          · rename_i hsp
            have hmem := visit_sources _ _ _ ((congrArg (fun r => x ∈ sources r.1) hw).mpr hx)
            rw [source_header] at hmem
            rcases List.mem_cons.mp hmem with rfl | hx
            · exact .inr ⟨List.suffix_refl _, st, get_of_lstat hst, hsp⟩
            · exact .inl hx
        split
        · rename_i w err hw
          exact hown w (some err) hw
        · rename_i w hw
          have hown := hown w none hw
          split
          · exact hown
          · rename_i hdir
            have hleads := leads_of_lstat hst (not_not.mp hdir)
            split
            · exact hown
            · -- what is in it
              refine forEach_invariant (I := fun s' : Walk => ∀ x ∈ sources s'.writer, x ∈ sources s.writer ∨ Packed d M x) ?_ hown
              intro entry _ s' hs' x hx
              rcases ih (fun N e he => lstat_join (Extends.refl _) hleads he) x hx with hx | ⟨hbelow, hpacked⟩
              · exact hs' x hx
              · exact .inr ⟨(List.suffix_cons _ M).trans hbelow, hpacked⟩

theorem writeTar_sources : ∀ x ∈ sources (WriteTar.writeTar K d held headerLen path opts).1,
    ∃ L e, Root.lstat d path = .ok (L, e) ∧ Packed d L x := by
  intro x hx
  rw [WriteTar.writeTar] at hx
  split at hx
  · cases hx
  · rename_i base hbase
    dsimp only at hx
    have hwalk : x ∈ sources (WriteTar.recurse K d held headerLen opts (base.reverse.dropWhile (· != '/')).reverse
        (d.tree.height + 1) path ⟨0, .empty⟩).1.writer := by
      split at hx
      · rename_i s err hs
        rw [hs]
        exact hx
      · rename_i s hs
        rw [hs]
        rwa [sources, close_entries] at hx
    cases hl : Root.lstat d path with
    | error err =>
      rw [WriteTar.recurse, hl] at hwalk
      cases hwalk
    | ok found =>
      obtain ⟨L, e⟩ := found
      have hplace : ∀ M e', Root.lstat d path = .ok (M, e') → M = L := fun M e' hM =>
        (Prod.mk.inj (Except.ok.inj (hM.symm.trans hl))).1
      rcases recurse_sources hplace x hwalk with hnil | hpacked
      · cases hnil
      · exact ⟨L, e, rfl, hpacked⟩

theorem archive_within {format : Api.ArchiveFormat} (h : LeadsToSeen vis cfg K C t (.archive path format)) :
    (archive cfg K (.start t) headerLen path format).Within vis (.start t) := by
  rw [archive]
  split
  · exact .failed _ _
  · refine .of_shown (fun L hL => ?_) rfl (Since.refl _)
    have hmem : L ∈ sources (WriteTar.writeTar K (.start t) (Extract.contents (.start t)) headerLen path
        ⟨cfg.maxArchiveBytes, cfg.maxArchiveEntries⟩).1 := by
      rw [sources, ← List.mem_reverse, ← List.map_reverse]
      exact hL
    obtain ⟨M, e, hl, hbelow, e', he', hsp⟩ := writeTar_sources L hmem
    exact h M e hl L e' hbelow he' hsp

/-! ### Changing -/

theorem adoptOwner_since : Since (Keeps vis) d (adoptOwner K path d) := by
  rw [adoptOwner]
  split
  · exact Since.refl d
  · split
    · exact Since.refl d
    · split
      · split
        · obtain ⟨L, ha⟩ := Root.chown_ok ‹_›
          exact ha.since (keeps_attr L)
        · exact Since.refl d
      · exact Since.refl d

theorem setUploadMode_since (last : Bool) (mode perm : ℕ) : Since (Keeps vis) d (setUploadMode K path last mode perm d) := by
  rw [setUploadMode]
  split
  · split
    · obtain ⟨L, ha⟩ := Root.chmod_ok ‹_›
      exact ha.since (keeps_attr L)
    · exact Since.refl d
  · exact Since.refl d

/-- What is opened for writing, and written to if that is not refused. -/
theorem openWrite_keeps {perm : ℕ} {truncate : Bool} (data : Text)
    (ho : Root.openWrite K (.start t) path perm truncate = .ok (L, d'))
    (h : ∀ L, walk t.kindAt maxSymlinks [] (steps path) = .found L ∧
        (truncate = true ∨ data ≠ [] ∧ K.refuses t .write L = false) ∨
      walk t.kindAt maxSymlinks [] (steps path) = .missing L → Seen vis L) :
    Since (Keeps vis) (.start t) d' ∧ ∀ offset, K.refuses d'.tree .write L = false →
      Since (Keeps vis) (.start t) (write K d' L offset data) := by
  have hwrite : Seen vis L → ∀ offset, Since (Keeps vis) d' (write K d' L offset data) := fun hseen offset =>
    (write_alters offset data).since (.inr hseen)
  rcases (Root.openWrite_ok ho).2 with ⟨hw, -, ha⟩ | ⟨hw, hm⟩
  · by_cases hdo : truncate = true ∨ data ≠ [] ∧ K.refuses t .write L = false
    · have hseen := h L (.inl ⟨hw, hdo⟩)
      have hopened : Since (Keeps vis) (.start t) d' := ha.since (.inr hseen)
      exact ⟨hopened, fun offset _ => hopened.trans (hwrite hseen offset)⟩
    · -- the file is left as it is
      rw [not_or, Bool.not_eq_true] at hdo
      obtain rfl : d' = .start t := by rw [Root.openWrite_found ho hw, hdo.1]; rfl
      refine ⟨Since.refl _, fun offset hrefuses => ?_⟩
      have hdata : data = [] := by
        by_contra hne
        exact hdo.2 ⟨hne, hrefuses⟩
      rw [write, hdata]
      exact Since.refl _
  · have hseen := h L (.inr hw)
    have hopened : Since (Keeps vis) (.start t) d' := hm.since (.inr hseen) (keeps_attr _)
    exact ⟨hopened, fun offset _ => hopened.trans (hwrite hseen offset)⟩

theorem upload_within {offset : ℤ} {data : Text} {last : Bool} {mode : ℕ}
    (h : LeadsToSeen vis cfg K C t (.upload path offset data last mode)) :
    (upload cfg K (.start t) path offset data last mode).Within vis (.start t) := by
  rw [upload]
  split
  · exact .failed _ _
  · rename_i hchunk
    split
    · exact .failed _ _
    · rename_i hoffset
      have h := h (Int.not_lt.mp hoffset) (Int.not_lt.mp hchunk)
      dsimp only
      split
      · exact .failed _ _
      · rename_i file d₁ ho
        obtain ⟨hopened, hwritten⟩ := openWrite_keeps data ho (by simpa only [decide_eq_true_eq] using h (by rw [ho]; rfl))
        split
        · exact .of_since rfl rfl hopened
        · have hwritten := hwritten offset.toNat (by simpa using ‹¬ K.refuses _ _ _ = true›)
          refine .of_since rfl rfl (Since.trans ?_ (setUploadMode_since last mode _))
          split
          · exact hwritten.trans adoptOwner_since
          · exact hwritten

theorem move_within {source destination : Text} {overwrite : Bool}
    (h : LeadsToSeen vis cfg K C t (.move source destination overwrite)) :
    (move K (.start t) source destination overwrite).Within vis (.start t) := by
  rw [move]
  split
  · exact .failed _ _
  · rename_i d₁ hd₁
    have h := h (by rw [hd₁]; rfl)
    obtain ⟨L, M, hL, hM, hmoves⟩ := Root.rename_ok hd₁
    refine .of_since rfl rfl (hmoves.since.mono ?_)
    rintro a x (rfl | ⟨hne, r, hr, rfl | rfl⟩)
    · exact keeps_attr x
    · exact .inr (h L M hL hM hne r hr).1
    · exact .inr (h L M hL hM hne r hr).2

theorem createDirectory_within {mode : ℕ} (h : LeadsToSeen vis cfg K C t (.createDirectory path mode)) :
    (createDirectory K (.start t) path mode).Within vis (.start t) := by
  have hfills := Root.mkdirAll_fills (d := .start t) K (if permOf mode = 0 then 0o755 else permOf mode) h
  rw [createDirectory]
  split
  · rename_i d₁ err hd₁
    rw [hd₁] at hfills
    exact .of_since rfl rfl hfills.since
  · rename_i d₁ hd₁
    rw [hd₁] at hfills
    exact .of_since rfl rfl hfills.since

/-! ### Deleting -/

/-- All that has been taken away was at or below `L`. -/
structure Drops (L : Loc Name) (d d' : Fs) : Prop where
  since : Since (fun a M => a = .attr ∨ L <:+ M ∧ (d.tree.get M).isSome) d d'
  shrinks : Extends d'.tree.kindAt d.tree.kindAt

theorem Drops.refl (d : Fs) : Drops L d d := ⟨Since.refl d, Extends.refl _⟩

theorem isSome_of_extends (h : Extends d'.tree.kindAt d.tree.kindAt) (hM : (d'.tree.get M).isSome) :
    (d.tree.get M).isSome := by
  rw [← Tree.kindAt_isSome] at hM ⊢
  obtain ⟨k, hk⟩ := Option.isSome_iff_exists.mp hM
  rw [h M k hk]
  rfl

theorem Drops.trans {d'' : Fs} (h : Drops L d d') (h' : Drops M d' d'') (hM : L <:+ M) : Drops L d d'' := by
  refine ⟨h.since.trans (h'.since.mono ?_), h'.shrinks.trans h.shrinks⟩
  rintro a x (ha | ⟨hx, hs⟩)
  · exact .inl ha
  · exact .inr ⟨hM.trans hx, isSome_of_extends h.shrinks hs⟩

/-- One removal, when the tree was larger at first. -/
theorem remove_since {d'' : Fs} (hs : Extends d'.tree.kindAt d.tree.kindAt) (hl : Root.lstat d path = .ok (L, e))
    (hr : Root.remove K d' path = .ok d'') :
    Since (fun a M => a = .attr ∨ M = L ∧ (d'.tree.get M).isSome) d' d'' ∧ Extends d''.tree.kindAt d'.tree.kindAt := by
  obtain ⟨n, D, hn, rfl, hthere, rfl⟩ := remove_place hs hl hr
  have hsome : (d'.tree.get (n :: D)).isSome := by
    rw [← Tree.kindAt_isSome]
    exact Option.isSome_iff_ne_none.mpr hthere
  refine ⟨(Since.erase (.inr ⟨rfl, hsome⟩)).trans (Since.alter (.inl rfl)), ?_⟩
  intro x k hk
  rw [Disk.kindAt_alter, Disk.kindAt_erase] at hk
  rcases eq_or_ne x (n :: D) with rfl | hx
  · simp at hk
  · rwa [Function.update_of_ne hx] at hk

theorem remove_drops_one {d'' : Fs} (hs : Extends d'.tree.kindAt d.tree.kindAt) (hl : Root.lstat d path = .ok (L, e))
    (hr : Root.remove K d' path = .ok d'') : Drops L d' d'' := by
  obtain ⟨hsince, hshrinks⟩ := remove_since hs hl hr
  refine ⟨hsince.mono ?_, hshrinks⟩
  rintro a x (ha | ⟨rfl, hx⟩)
  · exact .inl ha
  · exact .inr ⟨List.suffix_refl _, hx⟩

theorem remove_drops (hl : ∀ M e, Root.lstat d path = .ok (M, e) → M = L) :
    Drops L d (remove K fuel path true d).1.disk := by
  induction fuel generalizing path d L with
  | zero => exact Drops.refl d
  | succ fuel ih =>
    rw [remove]
    split
    · exact Drops.refl d
    · rename_i M st hst
      obtain rfl := hl M st hst
      split
      · split
        · exact Drops.refl d
        · exact remove_drops_one (Extends.refl _) hst ‹_›
      · rename_i hdir
        have hleads := leads_of_lstat hst (by simpa using hdir)
        split
        · exact Drops.refl d
        · rename_i entries truncated hlist
          have hturns : Drops M d (forEach (removeEntry K fuel path) entries ⟨d, 0⟩).1.disk := by
            refine forEach_invariant (I := fun s : Removal => Drops M d s.disk) (fun entry _ s hs => ?_) (Drops.refl d)
            have hentry : Drops (entry.name :: M) s.disk (remove K fuel (Rootfs.join path entry.name.val) true s.disk).1.disk :=
              ih fun N e he => lstat_join hs.shrinks hleads he
            exact hs.trans hentry (List.suffix_cons _ M)
          dsimp only
          split
          · rename_i s err hrun
            have hall : forEach (removeEntry K fuel path) entries ⟨d, 0⟩ = (s, some err) := hrun
            rwa [hall] at hturns
          · rename_i s hrun
            have hall : forEach (removeEntry K fuel path) entries ⟨d, 0⟩ = (s, none) := hrun
            rw [hall] at hturns
            split
            · exact hturns
            · exact hturns.trans (remove_drops_one hturns.shrinks hst ‹_›) (List.suffix_refl _)

theorem delete_within {recursive : Bool} (h : LeadsToSeen vis cfg K C t (.delete path recursive)) :
    (delete K (.start t) path recursive).Within vis (.start t) := by
  have hsince : Since (Keeps vis) (.start t) (remove K ((Disk.start t : Fs).tree.height + 1) path recursive (.start t)).1.disk := by
    cases hl : Root.lstat (.start t) path with
    | error err =>
      rw [remove, hl]
      exact Since.refl _
    | ok found =>
      obtain ⟨L, e⟩ := found
      have hseen := h L e hl
      by_cases hall : e.node = .dir ∧ recursive = true
      · rw [if_pos hall] at hseen
        obtain ⟨-, rfl⟩ := hall
        have hplace : ∀ M e', Root.lstat (.start t) path = .ok (M, e') → M = L := fun M e' hM =>
          (Prod.mk.inj (Except.ok.inj (hM.symm.trans hl))).1
        refine (remove_drops hplace).since.mono ?_
        rintro a M (ha | ⟨hM, hs⟩)
        · exact .inl ha
        · exact .inr (hseen M hM hs)
      · rw [if_neg hall] at hseen
        have hone : e.node ≠ .dir ∨ (!recursive) = true := by
          rw [Bool.not_eq_true', ← Bool.not_eq_true]
          exact not_and_or.mp hall
        rw [remove, hl]
        dsimp only
        rw [if_pos hone]
        split
        · exact Since.refl _
        · rename_i d₁ hd₁
          refine (remove_since (Extends.refl _) hl hd₁).1.mono ?_
          rintro a M (ha | ⟨rfl, -⟩)
          · exact .inl ha
          · exact .inr (hseen (by rw [hd₁]; rfl))
  rw [delete]
  split
  · rename_i r err hr
    rw [hr] at hsince
    exact .of_since rfl rfl hsince
  · rename_i r hr
    rw [hr] at hsince
    exact .of_since rfl rfl hsince

/-! ### Extracting -/

/-- The destination that is there when the loop starts is where the steps lead to when missing names are taken for
directories. -/
theorem prepare_place {dest : Text} {a : Extract.Archive} (h : Extract.prepare K C path dest d = (d', .ok a)) :
    ∃ R, follow d' dest = .found R ∧ walk (fill d.tree.kindAt) maxSymlinks [] (Root.mkdirSteps dest) = .found R := by
  rw [Extract.prepare] at h
  split at h
  · cases h
  · split at h
    · cases h
    · rename_i d₁ hd₁
      obtain ⟨rfl, -⟩ := Prod.mk.inj h
      obtain ⟨R, hw, hdir⟩ := Root.mkdirAll_leads hd₁
      have hfills := Root.mkdirAll_fills (P := fun _ _ => True) (d := d) (p := dest) K 0o755 fun _ _ _ => ⟨trivial, trivial⟩
      rw [hd₁] at hfills
      exact ⟨R, Root.follow_of_mkdirSteps hw hdir, hfills.fill ▸ walk_fill_of_found hw⟩

/-- What is done before the loop. -/
theorem prepare_keeps {dest : Text} (h : (Extract.openArchive K path d).isOk → MakesIn (Keeps vis) d.tree.kindAt dest) :
    Since (Keeps vis) d (Extract.prepare K C path dest d).1 := by
  by_cases ho : (Extract.openArchive K path d).isOk
  · refine (Extract.prepare_since K dest C path d).mono ?_
    rintro a L ⟨M, hM, hnone, ⟨rfl, rfl⟩ | ⟨rfl, rfl⟩⟩
    · exact (h ho L hM hnone).1
    · exact keeps_attr _
  · rw [Extract.prepare]
    split
    · exact Since.refl d
    · rename_i hok
      rw [hok] at ho
      exact absurd rfl ho

theorem openArchive_isOk {dest : Text} {a : Extract.Archive} (h : Extract.prepare K C path dest d = (d', .ok a)) :
    (Extract.openArchive K path d).isOk := by
  rw [Extract.prepare] at h
  split at h
  · cases h
  · rename_i hok
    rw [hok]
    rfl

theorem extract_within {destination : Text} {overwrite : Bool}
    (h : LeadsToSeen vis cfg K C t (.extract path destination overwrite)) :
    (extract cfg K (.start t) C path destination overwrite).Within vis (.start t) := by
  have hbefore := prepare_keeps (C := C) fun ho => (h ho).1
  rw [extract]
  rcases hp : Extract.prepare K C path (destinationOf path destination) (.start t) with ⟨d₁, err | a⟩
  · rw [hp] at hbefore
    simp only [Extract.extract, hp]
    exact .of_since rfl rfl hbefore
  · obtain ⟨-, hplace, hmembers⟩ := h (openArchive_isOk hp)
    have hmembers := hmembers a (congrArg Prod.snd hp)
    rw [hp] at hbefore hmembers
    simp only [Extract.extract, hp, Extract.unpack_eq, Extract.withEnding]
    refine ⟨fun L hL => absurd hL List.not_mem_nil, fun L hL => ?_, ?_⟩
    · obtain ⟨R, hR, hsteps⟩ := prepare_place hp
      obtain ⟨⟨M, e⟩, hM, rfl⟩ := Option.map_eq_some_iff.mp hL
      have hstat : Root.stat d₁ (destinationOf path destination) = .ok (M, e) := by
        cases hs : Root.stat d₁ (destinationOf path destination) with
        | error err =>
          rw [hs] at hM
          cases hM
        | ok found =>
          rw [hs] at hM
          exact congrArg Except.ok (Option.some.inj hM)
      obtain rfl := Stop.found.inj (hR.symm.trans (Root.stat_iff.mp hstat).2.1)
      exact hplace R hsteps
    · exact hbefore.trans (Extract.extractMembers_since _ _ _ _ hmembers)

/-! ### Any request -/

/-- **One request** touches only what may be seen, if its paths lead there. -/
theorem serve_within {msg : Request} (h : LeadsToSeen vis cfg K C t msg) :
    (serve cfg K (.start t) C headerLen msg).Within vis (.start t) := by
  cases msg with
  | listDirectory path => exact listDirectory_within h
  | stat path => exact stat_within
  | readFile path maxBytes => exact readFile_within h
  | upload path offset data last mode => exact upload_within h
  | archive path format => exact archive_within (C := C) h
  | extract path destination overwrite => exact extract_within h
  | move source destination overwrite => exact move_within h
  | delete path recursive => exact delete_within h
  | createDirectory path mode => exact createDirectory_within h

/-! ### What is not to be seen is touched -/

/-- The requests that do not go through a tree entry by entry, nor along a path directory by directory. -/
def isDirect : Request → Bool
  | .listDirectory _ | .stat _ | .readFile .. | .upload .. | .move .. => true
  | .delete _ recursive => !recursive
  | .archive .. | .extract .. | .createDirectory .. => false

theorem exists_of_isOk {ε α : Type} {r : Except ε α} (h : r.isOk) : ∃ a, r = .ok a := by
  cases r with
  | error err => cases h
  | ok a => exact ⟨a, rfl⟩

theorem listDirectory_leads (h : ∀ L ∈ (listDirectory cfg K (.start t) path).touched, Seen vis L) :
    LeadsToSeen vis cfg K C t (.listDirectory path) := by
  intro hok L e hstat
  obtain ⟨⟨M, entries, truncated⟩, hlist⟩ := exists_of_isOk hok
  obtain ⟨e', hstat', -⟩ := list_ok hlist
  obtain ⟨rfl, -⟩ := Prod.mk.inj (Except.ok.inj (hstat.symm.trans hstat'))
  refine h L (.inl ?_)
  rw [listDirectory, hlist]
  exact List.mem_singleton_self L

theorem readFile_leads {maxBytes : ℤ} (h : ∀ L ∈ (readFile cfg K (.start t) path maxBytes).touched, Seen vis L) :
    LeadsToSeen vis cfg K C t (.readFile path maxBytes) := by
  intro hok L e data hstat hdata hrefuses hlimit
  obtain ⟨file, hfile⟩ := exists_of_isOk hok
  obtain rfl := openRead_follow (Root.stat_iff.mp hstat).2.1 hfile
  refine h file (.inl ?_)
  have hread : K.refuses (Disk.start t : Fs).tree .read file = false := hrefuses
  simp only [readFile, hstat, hdata, if_neg hlimit, hfile, hread, Bool.false_eq_true, if_false]
  exact List.mem_singleton_self file

theorem mem_touched {o : Outcome} {a : Act} (ha : a ≠ .attr) (h : (a, L) ∈ o.disk.journal) : L ∈ o.touched :=
  .inr (.inr ⟨a, ha, h⟩)

/-- What is made is in the journal. -/
theorem mem_of_makes {κ : Kind Name} (h : Makes (.start t) M κ d') : (.make, M) ∈ d'.journal := by
  have hsince : Since (fun a x => a = .make ∧ x = M ∨ a = .attr ∧ x = M.tail) (.start t) d' :=
    h.since (.inl ⟨rfl, rfl⟩) (.inr ⟨rfl, rfl⟩)
  have hchanged : d'.tree.get M ≠ t.get M := by
    intro he
    have hkind : d'.tree.kindAt M = t.kindAt M := by rw [Tree.kindAt, Tree.kindAt, he]
    have hempty : t.kindAt M = none := h.empty
    rw [h.kindAt, Function.update_self, hempty] at hkind
    cases hkind
  obtain ⟨b, hb, ⟨rfl, -⟩ | ⟨-, htail⟩⟩ := hsince.exists_mem hchanged
  · exact hb
  · have hroot : M = [] := by
      cases M with
      | nil => rfl
      | cons n D => exact absurd (congrArg List.length htail) (by simp)
    have hdir : t.kindAt M = some .dir := by rw [hroot]; exact t.root_dir
    exact absurd (hdir.symm.trans h.empty) (by simp)

/-- What opening and writing the file have put into the journal stays there. -/
theorem mem_upload {offset : ℤ} {data : Text} {last : Bool} {mode : ℕ} {x : Act × Loc Name} (hoffset : 0 ≤ offset)
    (hchunk : (data.length : ℤ) ≤ cfg.maxUploadChunk)
    (ho : Root.openWrite K d path (if permOf mode = 0 then 0o644 else permOf mode) (offset = 0) = .ok (L, d'))
    (hx : x ∈ d'.journal ∨ K.refuses d'.tree .write L = false ∧ x ∈ (write K d' L offset.toNat data).journal) :
    x ∈ (upload cfg K d path offset data last mode).disk.journal := by
  rw [upload, if_neg (Int.not_lt.mpr hchunk), if_neg (Int.not_lt.mpr hoffset)]
  dsimp only
  rw [ho]
  dsimp only
  split
  · rename_i hrefuses
    exact hx.resolve_right fun h => absurd hrefuses (by rw [h.1]; simp)
  · have hwritten : x ∈ (write K d' L offset.toNat data).journal := by
      rcases hx with hx | hx
      · exact ((write_alters offset.toNat data).since (P := fun _ _ => True) trivial).mem hx
      · exact hx.2
    refine (setUploadMode_since last mode _ : Since (Keeps ⟨[], []⟩) _ _).mem ?_
    split
    · exact (adoptOwner_since : Since (Keeps ⟨[], []⟩) _ _).mem hwritten
    · exact hwritten

theorem upload_leads {offset : ℤ} {data : Text} {last : Bool} {mode : ℕ}
    (h : ∀ L ∈ (upload cfg K (.start t) path offset data last mode).touched, Seen vis L) :
    LeadsToSeen vis cfg K C t (.upload path offset data last mode) := by
  intro hoffset hchunk hok L hL
  obtain ⟨⟨file, d₁⟩, ho⟩ := exists_of_isOk hok
  rcases hL with ⟨hw, hdo⟩ | hw
  · rcases (Root.openWrite_ok ho).2 with ⟨hw', -, -⟩ | ⟨hw', -⟩
    · obtain rfl := Stop.found.inj (hw.symm.trans hw')
      have hd₁ := Root.openWrite_found ho hw
      refine h L (mem_touched (a := .write) (by decide) (mem_upload hoffset hchunk ho ?_))
      by_cases hfirst : offset = 0
      · rw [if_pos (decide_eq_true hfirst)] at hd₁
        exact .inl (by rw [hd₁]; exact List.mem_cons_self)
      · rw [if_neg (by simpa using hfirst)] at hd₁
        obtain ⟨hdata, hrefuses⟩ := hdo.resolve_left hfirst
        refine .inr ⟨by rw [hd₁]; exact hrefuses, ?_⟩
        rw [write, if_neg (by simpa using hdata)]
        exact List.mem_cons_self
    · exact absurd (hw.symm.trans hw') (by simp)
  · rcases (Root.openWrite_ok ho).2 with ⟨hw', -, -⟩ | ⟨hw', hm⟩
    · exact absurd (hw.symm.trans hw') (by simp)
    · obtain rfl := Stop.missing.inj (hw.symm.trans hw')
      exact h L (mem_touched (a := .make) (by decide) (mem_upload hoffset hchunk ho (.inl (mem_of_makes hm))))

theorem move_leads {source destination : Text} {overwrite : Bool}
    (h : ∀ L ∈ (move K (.start t) source destination overwrite).touched, Seen vis L) :
    LeadsToSeen vis cfg K C t (.move source destination overwrite) := by
  intro hok L M hL hM hne r hr
  obtain ⟨d₁, hd₁⟩ := exists_of_isOk hok
  obtain ⟨L', M', hL', hM', hmoves⟩ := Root.rename_ok hd₁
  obtain rfl := Option.some.inj (hL'.symm.trans hL)
  obtain rfl := Option.some.inj (hM'.symm.trans hM)
  obtain ⟨hfrom, hto⟩ := hmoves.journal hne r hr
  rw [move, hd₁] at h
  exact ⟨h _ (mem_touched (by decide) hfrom), h _ (mem_touched (by decide) hto)⟩

theorem delete_leads (h : ∀ L ∈ (delete K (.start t) path false).touched, Seen vis L) :
    LeadsToSeen vis cfg K C t (.delete path false) := by
  intro L e hl
  rw [if_neg (by simp)]
  intro hok
  obtain ⟨d₁, hd₁⟩ := exists_of_isOk hok
  obtain ⟨n, D, hn, rfl, -, rfl⟩ := remove_place (Extends.refl _) hl hd₁
  refine h _ (mem_touched (a := .remove) (by decide) ?_)
  rw [delete, remove, hl]
  dsimp only
  rw [if_pos (.inr rfl), hd₁]
  exact List.mem_cons_of_mem _ List.mem_cons_self

theorem serve_leads {msg : Request} (hmsg : isDirect msg = true)
    (h : ∀ L ∈ (serve cfg K (.start t) C headerLen msg).touched, Seen vis L) : LeadsToSeen vis cfg K C t msg := by
  cases msg with
  | listDirectory path => exact listDirectory_leads h
  | stat path => trivial
  | readFile path maxBytes => exact readFile_leads h
  | upload path offset data last mode => exact upload_leads h
  | move source destination overwrite => exact move_leads h
  | delete path recursive =>
    obtain rfl : recursive = false := by simpa [isDirect] using hmsg
    exact delete_leads h
  | archive path format => cases hmsg
  | extract path destination overwrite => cases hmsg
  | createDirectory path mode => cases hmsg

/-- A cluster with one pod, of one container. -/
def onePod : Cluster Unit where
  authorize _ _ := .ok ()
  readPod _ _ := .ok ⟨[], ['n'], [⟨['c'], [], []⟩], [], [], [], [], [⟨['c'], ['i'], true⟩], [], []⟩
  lookupAgent _ := .ok ['a']

/-- No limits, and no upload. -/
def unlimited : Config := ⟨0, 0, 0, 0, 0, 0, 0⟩

theorem components_spell {ns : List Name} : Api.components ('/' :: spell ns) = ns.map Name.text := by
  refine Api.components_pathOf fun c hc => ?_
  obtain ⟨n, -, rfl⟩ := List.mem_map.mp hc
  have hname : IsName n.text = true := n.property
  simp only [IsName, Bool.and_eq_true, Bool.not_eq_true', bne_iff_ne] at hname
  refine ⟨slash_notMem_name n, ?_, ?_⟩
  · simp [Api.isHere, name_ne_nil n, hname.1.2]
  · simp [Api.isUp, hname.2]

/-- What is not below `/sys`, `/dev` or `/proc` may be seen. -/
theorem seen_of_first {n : Name} {r : Loc Name} (h : n.text ∉ ["sys".toList, "dev".toList, "proc".toList]) :
    Seen vis (r ++ [n]) := by
  have hcomponents : Api.components ('/' :: spell (r ++ [n]).reverse) = n.text :: r.reverse.map Name.text := by
    rw [components_spell, List.reverse_append]
    rfl
  have hfirst : ∀ top : Text, '/' ∉ top → top ≠ [] → n.text ≠ top →
      Api.isUnder ('/' :: top) (Api.cleanPath ('/' :: spell (r ++ [n]).reverse)) = false := by
    intro top hslash hne htop
    rw [← Bool.not_eq_true, Api.isUnder_iff top hslash hne, hcomponents, List.cons_prefix_cons]
    exact fun hpre => htop hpre.1.symm
  simp only [List.mem_cons, List.not_mem_nil, or_false, not_or] at h
  have hsys : Api.isUnder "/sys".toList _ = false := hfirst "sys".toList (by decide) (by decide) h.1
  have hdev : Api.isUnder "/dev".toList _ = false := hfirst "dev".toList (by decide) (by decide) h.2.1
  have hproc : Api.isUnder "/proc".toList _ = false := hfirst "proc".toList (by decide) (by decide) h.2.2
  unfold Seen Visibility.allowed
  dsimp only
  rw [hsys, hdev, hproc]
  rfl

/-- **An entry at the place that a path spells** is what the path leads to, and the check of the text is about it. -/
theorem allowed_spelled {ns : List Name} (hp : Spells path ns) (hslash : trailingSlash path = false) (hne : ns ≠ [])
    (he : t.get ns.reverse = some e) :
    Root.lstat (.start t) path = .ok (ns.reverse, e) ∧ (vis.allowed path = true ↔ Seen vis ns.reverse) := by
  constructor
  · obtain ⟨ms, n, rfl⟩ := (List.eq_nil_or_concat' ns).resolve_left hne
    rw [List.reverse_append, List.reverse_singleton, List.singleton_append] at he ⊢
    have hroot : Filesystem.Leads (.start t) [] [] := ⟨walk_of_advance rfl (by simp), kindAt_dir_iff.mp t.root_dir⟩
    have hdir : nodeAt (.start t) (ms.reverse ++ []) = some .dir := by
      rw [List.append_nil]
      exact kindAt_dir_iff.mp (t.parent_dir (by rw [he]; rfl))
    have hleads := leads_below hroot hdir
    rw [List.nil_append, List.append_nil, List.reverse_reverse] at hleads
    have hnames : Names (.start t) path (ms.map .down) n ms.reverse := ⟨hp.steps_concat, hp.nul, hslash, hleads⟩
    exact hnames.lstat he
  · have hcomponents : Api.components path = ns.map Name.text := by
      rw [← Api.kept_eq_components, foldl_cleanStep (up_notMem_of_steps hp.steps), List.append_nil, List.reverse_reverse]
      exact hp.splitComponents
    rw [Seen, List.reverse_reverse, Api.allowed_congr (hcomponents.trans components_spell.symm)]

/-! ### A link to what is hidden -/

/-- The container has a link `/l` to `/sys`. -/
def linkToSys : FsTree :=
  Tree.ofList [([], ⟨.dir, 0o755, 0, 0, 0⟩), ([⟨"sys".toList, isName_sys⟩], ⟨.dir, 0o755, 0, 0, 0⟩),
    ([⟨['l'], isName_l⟩], ⟨.symlink "/sys".toList, 0o777, 0, 0, 0⟩)] (by decide) (by decide)

end OpenshiftConsole.Filesystem.Helper
