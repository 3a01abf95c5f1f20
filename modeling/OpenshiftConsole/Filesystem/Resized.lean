import OpenshiftConsole.Filesystem.Archived

/-!
# Files that change their size while they are archived

`WriteTar` writes an entry's header before it reads the file. What a file holds by then may be longer or
shorter than its header says; the archive is to have an entry of the announced size all the same, and all
other entries as they are (`Survives`).

Of a file that has grown no more is copied than was announced. One that has become shorter ends the archive:
`io.CopyN` stops at the end of the file, and the tar writer does not pad an entry, it refuses the next header
or the end. So the archive survives exactly if no file that the walk comes to has become shorter
(`writeTar_survives_iff`). The run is compared with the one in which no file changes, entry by entry: both
writers stay in step (`InStep`) until a file falls short.
-/

namespace OpenshiftConsole.Filesystem.WriteTar

open OpenshiftConsole.Library.Lines (Text)
open OpenshiftConsole.Library.PathWalk OpenshiftConsole.Library.FileTree OpenshiftConsole.Library.Loops
open Extract (contents)

variable {K : Kernel} {d : Fs} {held : Loc Name → Text} {headerLen : TarEntry → ℕ} {opts : ArchiveOptions} {limit : ℤ}
  {w w' t t' : Writer} {L : Loc Name} {path c parent name link : Text} {st : Entry} {fuel : ℕ}

/-! ### What is to hold, and when -/

/-- The entry `e'` of an archive of changed files in place of `e`: all that the header says is the same, it has
the size that the header announces, and what has not changed is there as it is. -/
structure Intact (d : Fs) (held : Loc Name → Text) (e e' : TarEntry) : Prop where
  header : e' = { e with data := e'.data }
  size : e'.data.length = e'.size
  data : e'.typeflag = .reg → held e'.source = contents d e'.source → e'.data = contents d e'.source

/-- The archive is written although the files hold `held` when they are read; `w` is the one that is written
where none has changed. -/
def Survives (K : Kernel) (d : Fs) (held : Loc Name → Text) (headerLen : TarEntry → ℕ) (path : Text)
    (opts : ArchiveOptions) (w : Writer) : Prop :=
  ∃ w', writeTar K d held headerLen path opts = (w', none) ∧ List.Forall₂ (Intact d held) w.entries w'.entries

/-- A walk that starts at a path comes to another one. -/
inductive Visits (K : Kernel) (d : Fs) : Text → Text → Prop where
  | here (c : Text) : Visits K d c c
  | entry {c x : Text} {L M : Loc Name} {st : Entry} {entries : List Root.Dirent} {truncated : Bool} {m : Root.Dirent} :
      Root.lstat d c = .ok (L, st) → st.node = .dir → Root.list K d c 0 = .ok (M, entries, truncated) → m ∈ entries →
        Visits K d (Rootfs.join c m.name.val) x → Visits K d c x

/-- The path is that of a regular file that holds less when it is read than it did. -/
def Short (d : Fs) (held : Loc Name → Text) (c : Text) : Prop :=
  ∃ L st data, Root.lstat d c = .ok (L, st) ∧ st.node = .file data ∧ (held L).length < data.length

/-- No file that the walk comes to holds less when it is read than it did. -/
def Unshrunk (K : Kernel) (d : Fs) (held : Loc Name → Text) (c : Text) : Prop := ∀ x, Visits K d c x → ¬ Short d held x

/-! ### The two writers -/

/-- The writer of the archive of changed files is where that of the unchanged ones is. -/
structure InStep (d : Fs) (held : Loc Name → Text) (limit : ℤ) (w w' : Writer) : Prop where
  entries : List.Forall₂ (Intact d held) w.entries w'.entries
  left : w.left = 0
  left' : w'.left = 0
  pad : w'.pad = w.pad
  written : w'.written = w.written
  fits : limit > 0 → (w.written : ℤ) ≤ limit

theorem count_eq_none {n : ℕ} : w.count limit n = (t, none) ↔
    ¬ (limit > 0 ∧ ((w.written + n : ℕ) : ℤ) > limit) ∧ t = { w with written := w.written + n } := by
  rw [Writer.count]
  split
  · rename_i h
    exact ⟨by simp, fun h' => absurd h h'.1⟩
  · rename_i h
    exact ⟨fun he => ⟨h, (Prod.mk.inj he).1.symm⟩, fun he => by rw [he.2]⟩

theorem flush_of_left (h : w.left = 0) : w.flush limit = w.count limit w.pad := if_neg (by omega)

theorem flush_lost (h : 0 < w.left) : (w.flush limit).2 ≠ none := by
  rw [Writer.flush, if_pos h]
  simp

theorem InStep.count {n : ℕ} (h : InStep d held limit w w') (hc : w.count limit n = (t, none)) :
    ∃ t', w'.count limit n = (t', none) ∧ InStep d held limit t t' := by
  obtain ⟨hfit, rfl⟩ := count_eq_none.mp hc
  refine ⟨{ w' with written := w'.written + n }, count_eq_none.mpr ⟨h.written ▸ hfit, rfl⟩, h.entries, h.left, h.left',
    h.pad, congrArg (· + n) h.written, fun hl => ?_⟩
  exact not_lt.mp fun hlt => hfit ⟨hl, hlt⟩

theorem InStep.flush (h : InStep d held limit w w') (hf : w.flush limit = (t, none)) :
    ∃ t', w'.flush limit = (t', none) ∧ InStep d held limit t t' := by
  rw [flush_of_left h.left] at hf
  rw [flush_of_left h.left', h.pad]
  exact h.count hf

theorem InStep.close (h : InStep d held limit w w') (hc : w.close limit = (t, none)) :
    ∃ t', w'.close limit = (t', none) ∧ InStep d held limit t t' := by
  rw [Writer.close] at hc
  rcases hf : w.flush limit with ⟨w₁, _ | err⟩ <;> rw [hf] at hc
  · obtain ⟨w₁', hf', h₁⟩ := h.flush hf
    rw [Writer.close, hf']
    exact h₁.count hc
  · cases hc

/-- After a header both writers wait for the same number of bytes. -/
theorem InStep.writeHeader {len : ℕ} {e : TarEntry} (h : InStep d held limit w w')
    (hw : w.writeHeader limit len e = (t, none)) :
    ∃ w₁ w₁' pad, InStep d held limit w₁ w₁' ∧ t = { w₁ with entries := e :: w₁.entries, left := e.size, pad := pad } ∧
      w'.writeHeader limit len e = ({ w₁' with entries := e :: w₁'.entries, left := e.size, pad := pad }, none) := by
  rw [Writer.writeHeader] at hw
  rcases hf : w.flush limit with ⟨w₀, _ | err⟩ <;> rw [hf] at hw
  · obtain ⟨w₀', hf', h₀⟩ := h.flush hf
    dsimp only at hw
    rcases hc : w₀.count limit len with ⟨w₁, _ | err⟩ <;> rw [hc] at hw
    · obtain ⟨w₁', hc', h₁⟩ := h₀.count hc
      refine ⟨w₁, w₁', _, h₁, (Prod.mk.inj hw).1.symm, ?_⟩
      rw [Writer.writeHeader, hf']
      dsimp only
      rw [hc']
    · cases hw
  · cases hw

theorem writeHeader_lost {len : ℕ} {e : TarEntry} (h : 0 < w.left) : (w.writeHeader limit len e).2 ≠ none := by
  have hf : (w.flush limit).2 ≠ none := flush_lost h
  rw [Writer.writeHeader]
  rcases hw : w.flush limit with ⟨w₁, _ | err⟩ <;> rw [hw] at hf
  · exact absurd rfl hf
  · simp

theorem close_lost (h : 0 < w.left) : (w.close limit).2 ≠ none := by
  have hf : (w.flush limit).2 ≠ none := flush_lost h
  rw [Writer.close]
  rcases hw : w.flush limit with ⟨w₁, _ | err⟩ <;> rw [hw] at hf
  · exact absurd rfl hf
  · simp

/-- A copy that there is room for sends the file's bytes, as many as are waited for. -/
theorem copy_of_fits {data : Text} {e : TarEntry} {es : List TarEntry} (he : w.entries = e :: es)
    (hfit : limit > 0 → (w.written : ℤ) + min w.left data.length ≤ limit) :
    w.copy limit data =
      ({ w with
          entries := { e with data := e.data ++ data.take (min w.left data.length) } :: es
          left := w.left - min w.left data.length
          written := w.written + min w.left data.length }, none) := by
  rw [Writer.copy]
  rw [if_neg (by omega), he, if_neg (lt_irrefl _)]

theorem fits_of_copy {data : Text} (hfit : limit > 0 → (w.written : ℤ) ≤ limit) (h : w.copy limit data = (t, none)) :
    limit > 0 → (w.written : ℤ) + min w.left data.length ≤ limit := by
  intro hl
  by_contra hlt
  rw [Writer.copy] at h
  rw [if_pos (by omega)] at h
  have herr := (Prod.mk.inj h).2
  rw [if_pos] at herr
  · cases herr
  · have hle := Nat.div_mul_le_self (limit - w.written).toNat copyBuffer
    have := hfit hl
    omega

/-! ### One entry -/

/-- A regular file that is found is the one that is opened. -/
theorem openRead_of_lstat {data : Text} {file : Loc Name} (hl : Root.lstat d c = .ok (L, st)) (hst : st.node = .file data)
    (ho : Root.openRead K d c = .ok file) : file = L := by
  refine openRead_follow (follow_of_lstat hl (.inr ?_)) ho
  rw [Tree.kindAt, get_of_lstat hl, Option.map_some, Entry.kind, hst]

/-- After its header a file's bytes are copied; the writer that gets changed ones stays in step if there are
enough of them, and else waits for more. -/
theorem InStep.copy {e : TarEntry} {data : Text} {pad : ℕ} (h : InStep d held limit w w') (he : e.data = [])
    (hsize : e.size = data.length) (hdata : contents d e.source = data)
    (hv : ({ w with entries := e :: w.entries, left := e.size, pad := pad } : Writer).copy limit data = (t, none)) :
    ∃ t', ({ w' with entries := e :: w'.entries, left := e.size, pad := pad } : Writer).copy limit (held e.source) =
        (t', none) ∧
      ((held e.source).length < data.length → 0 < t'.left) ∧
      (data.length ≤ (held e.source).length → InStep d held limit t t') := by
  have hfit : limit > 0 → (w.written : ℤ) + min e.size data.length ≤ limit :=
    fits_of_copy (w := { w with entries := e :: w.entries, left := e.size, pad := pad }) h.fits hv
  have hfit' : limit > 0 → (w'.written : ℤ) + min e.size (held e.source).length ≤ limit := by
    have := h.written
    omega
  rw [copy_of_fits rfl hfit] at hv
  obtain rfl := (Prod.mk.inj hv).1
  refine ⟨_, copy_of_fits rfl hfit', fun hlt => ?_, fun hle => ?_⟩
  · show 0 < e.size - min e.size (held e.source).length
    omega
  · have hmin : min e.size data.length = e.size := by omega
    have hmin' : min e.size (held e.source).length = e.size := by omega
    dsimp only
    rw [hmin, hmin', he, List.nil_append, List.nil_append]
    refine ⟨.cons ⟨rfl, ?_, fun _ hheld => ?_⟩ h.entries, Nat.sub_self _, Nat.sub_self _, rfl,
      congrArg (· + e.size) h.written, fun hl => ?_⟩
    · rw [List.length_take, hmin']
    · show (held e.source).take e.size = contents d e.source
      rw [hheld, hdata, hsize, List.take_length]
    · have := hfit hl
      rw [hmin] at this
      exact_mod_cast this

theorem short_iff (hl : Root.lstat d c = .ok (L, st)) :
    Short d held c ↔ ∃ data, st.node = .file data ∧ (held L).length < data.length := by
  constructor
  · rintro ⟨L', st', data, hl', hst, hlt⟩
    obtain ⟨rfl, rfl⟩ := Prod.mk.inj (Except.ok.inj (hl.symm.trans hl'))
    exact ⟨data, hst, hlt⟩
  · rintro ⟨data, hst, hlt⟩
    exact ⟨L, st, data, hl, hst, hlt⟩

/-- An entry that is visited while the files are as they were is visited in step with it, unless its file
falls short; then the writer waits for bytes that do not come. -/
theorem visit_inStep (hl : Root.lstat d c = .ok (L, st)) (hsp : st.node ≠ .special) (h : InStep d held limit w w')
    (hv : visit K d (contents d) headerLen limit (header name L st link) c w = (t, none)) :
    (¬ Short d held c ∧ ∃ t', visit K d held headerLen limit (header name L st link) c w' = (t', none) ∧
        InStep d held limit t t') ∨
      (Short d held c ∧ ∃ t', visit K d held headerLen limit (header name L st link) c w' = (t', none) ∧ 0 < t'.left) := by
  rw [visit] at hv
  rcases hw : w.writeHeader limit (headerLen (header name L st link)) (header name L st link) with ⟨w₁, _ | err⟩ <;>
    rw [hw] at hv
  · obtain ⟨w₀, w₀', pad, h₀, rfl, hw'⟩ := h.writeHeader hw
    rw [visit, hw']
    cases hst : st.node with
    | file data =>
      have hheader : header name L st link =
          ⟨name, .reg, st.mode, st.uid, st.gid, st.mtime, link, data.length, [], L⟩ := by
        rw [header, hst]
      rw [hheader] at hv ⊢
      dsimp only at hv ⊢
      rw [if_neg (by decide)] at hv ⊢
      split at hv
      · cases hv
      · rename_i file ho
        obtain rfl := openRead_of_lstat hl hst ho
        split at hv
        · cases hv
        · rename_i hread
          rw [if_neg hread]
          have hdata := contents_eq (d := d) (L := file) (by rw [nodeAt, get_of_lstat hl, Option.map_some, hst])
          rw [hdata] at hv
          obtain ⟨t', ht', hlost, hstep⟩ := h₀.copy rfl rfl hdata hv
          by_cases hshort : (held file).length < data.length
          · exact .inr ⟨(short_iff hl).mpr ⟨data, hst, hshort⟩, t', ht', hlost hshort⟩
          · refine .inl ⟨?_, t', ht', hstep (not_lt.mp hshort)⟩
            rw [short_iff hl, hst]
            rintro ⟨data', hdata', hlt⟩
            cases hdata'
            exact hshort hlt
    | special => exact absurd hst hsp
    | dir | symlink =>
      -- a header without contents
      have hsize : (header name L st link).size = 0 := by rw [header, hst]
      have hdata : (header name L st link).data = [] := by rw [header, hst]
      have hreg : (header name L st link).typeflag ≠ .reg := by rw [header, hst]; simp
      rw [hsize] at hv ⊢
      dsimp only at hv ⊢
      rw [if_pos hreg] at hv ⊢
      obtain rfl := (Prod.mk.inj hv).1
      refine .inl ⟨?_, _, rfl, .cons ⟨rfl, ?_, fun h => absurd h hreg⟩ h₀.entries, rfl, rfl, rfl, h₀.written, h₀.fits⟩
      · rw [short_iff hl, hst]
        rintro ⟨data', hfile, -⟩
        cases hfile
      · rw [hdata, hsize]
        rfl
  · cases hv

theorem visit_lost {h : TarEntry} (hw : 0 < w.left) : (visit K d held headerLen limit h c w).2 ≠ none := by
  have hh : (w.writeHeader limit (headerLen h) h).2 ≠ none := writeHeader_lost hw
  rw [visit]
  rcases hr : w.writeHeader limit (headerLen h) h with ⟨w₁, _ | err⟩ <;> rw [hr] at hh
  · exact absurd rfl hh
  · simp

/-! ### The walk -/

/-- From what is no directory the walk goes nowhere. -/
theorem unshrunk_of_ne_dir (h : ∀ L st, Root.lstat d c = .ok (L, st) → st.node ≠ .dir) :
    Unshrunk K d held c ↔ ¬ Short d held c := by
  refine ⟨fun hu => hu c (.here c), fun hc x hx => ?_⟩
  cases hx with
  | here => exact hc
  | entry hl hdir => exact absurd hdir (h _ _ hl)

theorem unshrunk_dir {M : Loc Name} {entries : List Root.Dirent} {truncated : Bool} (hl : Root.lstat d c = .ok (L, st))
    (hdir : st.node = .dir) (hlist : Root.list K d c 0 = .ok (M, entries, truncated)) :
    Unshrunk K d held c ↔ ∀ m ∈ entries, Unshrunk K d held (Rootfs.join c m.name.val) := by
  constructor
  · exact fun hu m hm x hx => hu x (.entry hl hdir hlist hm hx)
  · intro hall x hx
    cases hx with
    | here =>
      rw [short_iff hl, hdir]
      rintro ⟨data, hfile, -⟩
      cases hfile
    | entry hl' _ hlist' hm hx =>
      obtain ⟨-, rfl, -⟩ : _ ∧ _ ∧ _ := by simpa using hlist.symm.trans hlist'
      exact hall _ hm x hx

/-- A walk that does not fail goes on waiting. -/
theorem recurse_lost {s u : Walk} (hs : 0 < s.writer.left)
    (h : recurse K d held headerLen opts parent fuel c s = (u, none)) : 0 < u.writer.left := by
  cases fuel with
  | zero =>
    obtain rfl := (Prod.mk.inj h).1
    exact hs
  | succ fuel =>
    obtain ⟨L, st, w, -, -, ⟨hsp, rfl⟩ | ⟨-, hv⟩, hrest⟩ := recurse_eq_none.mp h
    · rcases hrest with ⟨-, rfl⟩ | ⟨hdir, -⟩
      · exact hs
      · rw [hsp] at hdir
        cases hdir
    · exact absurd (congrArg Prod.snd hv) (visit_lost hs)

/-- The two walks are at the same entry. -/
def WalkInStep (d : Fs) (held : Loc Name → Text) (limit : ℤ) (s s' : Walk) : Prop :=
  InStep d held limit s.writer s'.writer ∧ s'.count = s.count

/-- **The walk over changed files** goes on in step with the one over the unchanged ones, or comes to a
file that has become shorter and does not end well. -/
theorem recurse_inStep {s s' u : Walk}
    (hfuel : ∀ L st, Root.lstat d c = .ok (L, st) → d.tree.height < L.length + fuel)
    (hs : WalkInStep d held opts.maxBytes s s')
    (h : recurse K d (contents d) headerLen opts parent fuel c s = (u, none)) :
    (Unshrunk K d held c ∧ ∃ u', recurse K d held headerLen opts parent fuel c s' = (u', none) ∧
        WalkInStep d held opts.maxBytes u u') ∨
      (¬ Unshrunk K d held c ∧ ∀ u', recurse K d held headerLen opts parent fuel c s' = (u', none) →
        0 < u'.writer.left) := by
  induction fuel generalizing c s s' u with
  | zero =>
    -- there is nothing so deep
    have hnone : ∀ L st, Root.lstat d c ≠ .ok (L, st) := by
      intro L st hl
      have hle := d.tree.length_le_height (Option.isSome_iff_exists.mpr ⟨st, get_of_lstat hl⟩)
      have hlt := hfuel L st hl
      omega
    obtain rfl := (Prod.mk.inj h).1
    refine .inl ⟨(unshrunk_of_ne_dir fun L st hl => absurd hl (hnone L st)).mpr ?_, s', rfl, hs⟩
    rintro ⟨L, st, data, hl, -⟩
    exact hnone L st hl
  | succ fuel ih =>
    obtain ⟨L, st, w, hl, hmany, hvisit, hrest⟩ := recurse_eq_none.mp h
    rw [← hs.2] at hmany
    -- the entry itself
    have hentry : (¬ Short d held c ∧ ∃ w', Visited K d held headerLen opts parent c L st s' w' ∧
          InStep d held opts.maxBytes w w') ∨
        (Short d held c ∧ ∃ w', Visited K d held headerLen opts parent c L st s' w' ∧ 0 < w'.left) := by
      rcases hvisit with ⟨hsp, rfl⟩ | ⟨hsp, hv⟩
      · refine .inl ⟨?_, s'.writer, .inl ⟨hsp, rfl⟩, hs.1⟩
        rw [short_iff hl, hsp]
        rintro ⟨data, hdata, -⟩
        cases hdata
      · rcases visit_inStep hl hsp hs.1 hv with ⟨hshort, w', hv', hw⟩ | ⟨hshort, w', hv', hw⟩
        · exact .inl ⟨hshort, w', .inr ⟨hsp, hv'⟩, hw⟩
        · exact .inr ⟨hshort, w', .inr ⟨hsp, hv'⟩, hw⟩
    rcases hentry with ⟨hshort, w', hv', hw⟩ | ⟨hshort, w', hv', hw⟩
    · rcases hrest with ⟨hdir, rfl⟩ | ⟨hdir, M, entries, truncated, hlist, hall⟩
      · refine .inl ⟨(unshrunk_of_ne_dir ?_).mpr hshort, ⟨s'.count + 1, w'⟩,
          recurse_eq_none.mpr ⟨L, st, w', hl, hmany, hv', .inl ⟨hdir, rfl⟩⟩, hw, congrArg (· + 1) hs.2⟩
        intro L' st' hl'
        obtain ⟨-, rfl⟩ := Prod.mk.inj (Except.ok.inj (hl.symm.trans hl'))
        exact hdir
      · -- the entries of a directory
        have hleads := leads_of_lstat hl hdir
        let lost : Walk → Prop := fun s => 0 < s.writer.left
        have hstep := forEach_inStep (R := WalkInStep d held opts.maxBytes)
          (A := fun m : Root.Dirent => Unshrunk K d held (Rootfs.join c m.name.val))
          (g := fun m => recurse K d held headerLen opts parent fuel (Rootfs.join c m.name.val))
          (fun m _ s s' u hs hu => ih (fun N e he => by
            obtain rfl := lstat_join (Extends.refl _) hleads he
            have hlt := hfuel L st hl
            rw [List.length_cons]
            omega) hs hu)
          (fun m _ s u (hs : lost s) hu => recurse_lost hs hu) (t := ⟨s'.count + 1, w'⟩) ⟨hw, congrArg (· + 1) hs.2⟩ hall
        rw [unshrunk_dir hl hdir hlist]
        refine hstep.imp (And.imp_right ?_) (And.imp_right ?_)
        · rintro ⟨u', hu', hs'⟩
          exact ⟨u', recurse_eq_none.mpr ⟨L, st, w', hl, hmany, hv', .inr ⟨hdir, M, entries, truncated, hlist, hu'⟩⟩, hs'⟩
        · intro hlost u' hu'
          obtain ⟨L', st', w₂, hl', -, hv₂, hrest⟩ := recurse_eq_none.mp hu'
          obtain ⟨rfl, rfl⟩ := Prod.mk.inj (Except.ok.inj (hl.symm.trans hl'))
          obtain rfl := hv'.unique hv₂
          rcases hrest with ⟨hdir', -⟩ | ⟨-, M', entries', truncated', hlist', hall'⟩
          · exact absurd hdir hdir'
          · obtain ⟨-, rfl, -⟩ : _ ∧ _ ∧ _ := by simpa using hlist.symm.trans hlist'
            exact hlost u' hall'
    · -- a file that has become shorter
      obtain ⟨data, hst, -⟩ := (short_iff hl).mp hshort
      refine .inr ⟨fun hu => hu c (.here c) hshort, fun u' hu' => ?_⟩
      obtain ⟨L', st', w₂, hl', -, hv₂, hrest⟩ := recurse_eq_none.mp hu'
      obtain ⟨rfl, rfl⟩ := Prod.mk.inj (Except.ok.inj (hl.symm.trans hl'))
      obtain rfl := hv'.unique hv₂
      rcases hrest with ⟨-, rfl⟩ | ⟨hdir, -⟩
      · exact hw
      · rw [hst] at hdir
        cases hdir

/-- **When an archive survives files that change their size**: if none that the walk comes to has become shorter. -/
theorem writeTar_survives_iff (h : writeTar K d (contents d) headerLen path opts = (w, none)) :
    Survives K d held headerLen path opts w ↔ Unshrunk K d held path := by
  rw [writeTar] at h
  split at h
  · cases h
  · rename_i base hbase
    dsimp only at h
    split at h
    · cases h
    · rename_i u hu
      have hstart : WalkInStep d held opts.maxBytes ⟨0, .empty⟩ ⟨0, .empty⟩ :=
        ⟨⟨.nil, rfl, rfl, rfl, rfl, fun hl => le_of_lt hl⟩, rfl⟩
      have hwrite : ∀ s, recurse K d held headerLen opts (base.reverse.dropWhile (· != '/')).reverse (d.tree.height + 1)
          path ⟨0, .empty⟩ = (s, none) → writeTar K d held headerLen path opts = s.writer.close opts.maxBytes := by
        intro s hs
        simp only [writeTar, hbase, hs]
      rcases recurse_inStep (fun L st _ => by omega) hstart hu with ⟨hall, u', hu', hstep⟩ | ⟨hall, hlost⟩
      · obtain ⟨w', hw', hclosed⟩ := hstep.1.close h
        exact ⟨fun _ => hall, fun _ => ⟨w', (hwrite u' hu').trans hw', hclosed.entries⟩⟩
      · refine ⟨?_, fun h => absurd h hall⟩
        rintro ⟨w', hw', -⟩
        rw [writeTar, hbase] at hw'
        dsimp only at hw'
        split at hw'
        · cases hw'
        · rename_i u' hu'
          exact absurd (congrArg Prod.snd hw') (close_lost (hlost u' hu'))

/-- The archive survives that the file grows. -/
theorem writeTar_survives_grown :
    Survives .willing (.start oneFileDir) (fun _ => ['x', 'y']) (fun _ => 512) ['/', 'w'] ⟨0, 0⟩
      (writeTar .willing (.start oneFileDir) (contents (.start oneFileDir)) (fun _ => 512) ['/', 'w'] ⟨0, 0⟩).1 := by
  refine (writeTar_survives_iff (by rfl)).mpr ?_
  rintro x - ⟨L, st, data, hl, hst, hlt⟩
  -- no file there is as long as that
  obtain ⟨l₁, l₂, hsplit, -⟩ := List.lookup_eq_some_iff.mp (get_of_lstat hl)
  have hmem : (L, st) ∈ l₁ ++ (L, st) :: l₂ := by simp
  rw [← hsplit] at hmem
  simp only [List.mem_cons, List.not_mem_nil, or_false, Prod.mk.injEq] at hmem
  rcases hmem with ⟨-, rfl⟩ | ⟨-, rfl⟩ | ⟨-, rfl⟩
  · cases hst
  · cases hst
  · obtain rfl := Node.file.inj hst
    exact absurd hlt (by simp)

/-- It does not survive that the file is emptied. -/
theorem shrunk_file_breaks_archive :
    (writeTar .willing (.start oneFileDir) (contents (.start oneFileDir)) (fun _ => 512) ['/', 'w'] ⟨0, 0⟩).2 = none ∧
      ¬ Survives .willing (.start oneFileDir) (fun _ => []) (fun _ => 512) ['/', 'w'] ⟨0, 0⟩
        (writeTar .willing (.start oneFileDir) (contents (.start oneFileDir)) (fun _ => 512) ['/', 'w'] ⟨0, 0⟩).1 := by
  refine ⟨by rfl, ?_⟩
  rintro ⟨w', hw', -⟩
  have herr : (writeTar .willing (.start oneFileDir) (fun _ => []) (fun _ => 512) ['/', 'w'] ⟨0, 0⟩).2 = some (.missed 1) := by
    rfl
  rw [hw'] at herr
  cases herr

end OpenshiftConsole.Filesystem.WriteTar
