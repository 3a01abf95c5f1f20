import OpenshiftConsole.Filesystem.Service

/-!
# Uploads

`uploadFile` sends a file in chunks, a call each: the helper opens the target for every one of them,
cuts it for the one at offset 0 and writes the chunk where it belongs. So whatever an upload that was
broken off has left is gone with the first chunk of the next, and the chunks that follow each find
what the ones before have written (`Holding.send`): an upload that completes leaves the file's bytes
and nothing else (`uploadFile_reproduces`).
-/

namespace OpenshiftConsole.Filesystem.Upload

open OpenshiftConsole.Library.Lines (Text)
open OpenshiftConsole.Library.PathWalk OpenshiftConsole.Library.FileTree OpenshiftConsole.Library.Loops
open Helper (Config Error)

/-! ### The client -/

/-- A browser's file. -/
structure File where
  name : Text
  bytes : Text

/-- The path that a file is uploaded to. -/
def targetPath (directory name : Text) : Text :=
  if directory = ['/'] then '/' :: name else (trimLeft directory.reverse).reverse ++ '/' :: name

/-- What one call of `uploadFile` sends. -/
structure Chunk where
  offset : ℕ
  data : Text
  last : Bool
  deriving DecidableEq

/-- `file.slice` -/
def slice (bytes : Text) (start stop : ℕ) : Text := (bytes.drop start).take (stop - start)

/-- The turns of `uploadFile`'s loop, from an offset. -/
def chunks (chunkBytes : ℤ) (bytes : Text) (offset : ℕ) : List Chunk :=
  let step := (max 1 chunkBytes).toNat
  if offset = 0 ∨ offset < bytes.length then
    let data := slice bytes offset (min (offset + step) bytes.length)
    if bytes.length ≤ offset + step then [⟨offset, data, true⟩]
    else ⟨offset, data, false⟩ :: chunks chunkBytes bytes (offset + step)
  else []
termination_by bytes.length - offset

section

variable (cfg : Config) (K : ℕ → Kernel) (path : Text)

/-- A call of `client.upload`, answered by the helper; `K` is the kernel at the time of each offset. -/
def send (c : Chunk) (d : Fs) : Fs × Option Error :=
  let o := Helper.upload cfg (K c.offset) d path c.offset c.data c.last 0
  match o.answer with
  | .ok _ => (o.disk, none)
  | .error err => (o.disk, some err)

/-- `uploadFile`: what is left of the file system, and the error that it ends with. -/
def uploadFile (directory : Text) (file : File) (chunkBytes : ℤ) (d : Fs) : Fs × Option Error :=
  forEach (send cfg K (targetPath directory file.name)) (chunks chunkBytes file.bytes 0) d

end

/-- An upload that is broken off after some of its calls, or that one of them fails. -/
structure Attempt where
  bytes : Text
  chunkBytes : ℤ
  /-- The calls that are made. -/
  calls : ℕ
  kernel : ℕ → Kernel

/-- What an attempt leaves. -/
def Attempt.run (cfg : Config) (path : Text) (d : Fs) (a : Attempt) : Fs :=
  (forEach (send cfg a.kernel path) ((chunks a.chunkBytes a.bytes 0).take a.calls) d).1

/-! ### What the target holds -/

/-- What the regular file at a path holds. -/
def contentsAt (d : Fs) (path : Text) : Option Text :=
  match Root.stat d path with
  | .ok (_, ⟨.file data, _, _, _, _⟩) => some data
  | _ => none

/-- The path leads to no entry, or to a regular file. -/
def AbsentOrFile (d : Fs) (path : Text) : Prop :=
  ∀ L e, Root.stat d path = .ok (L, e) → ∃ data, e.node = .file data

/-- The path leads to the entry at `L`, a regular file that holds `data`. -/
def Holding (d : Fs) (path : Text) (L : Loc Name) (data : Text) : Prop :=
  ∃ e, Root.stat d path = .ok (L, e) ∧ e.node = .file data

variable {K : Kernel} {d d' : Fs} {p : Text} {L : Loc Name} {old data : Text}

/-- What is set beside the contents. -/
theorem Holding.attr (h : Holding d p L data) {b : Act} {M : Loc Name} {f : Entry → Entry}
    {hf : ∀ e, (f e).kind = e.kind} (hnode : ∀ e, (f e).node = e.node) : Holding (d.alter b M f hf) p L data := by
  obtain ⟨e, hs, he⟩ := h
  obtain ⟨hr, hw, hg⟩ := Root.stat_iff.mp hs
  have hw' : follow (d.alter b M f hf) p = .found L := by
    rw [follow]
    rw [Disk.kindAt_alter]
    exact hw
  by_cases hL : L = M
  · refine ⟨f e, Root.stat_iff.mpr ⟨hr, hw', ?_⟩, by rw [hnode, he]⟩
    exact (if_pos hL).trans (by rw [hg]; rfl)
  · exact ⟨e, Root.stat_iff.mpr ⟨hr, hw', (if_neg hL).trans hg⟩, he⟩

theorem Holding.setData (h : Holding d p L data) {b : Act} {t : Time} (f : Text → Text) :
    Holding (d.alter b L (Entry.setData t f) (Entry.kind_setData t f)) p L (f data) := by
  obtain ⟨e, hs, he⟩ := h
  obtain ⟨hr, hw, hg⟩ := Root.stat_iff.mp hs
  refine ⟨e.setData t f, Root.stat_iff.mpr ⟨hr, ?_, ?_⟩, ?_⟩
  · rw [follow]
    rw [Disk.kindAt_alter]
    exact hw
  · exact (if_pos rfl).trans (by rw [hg]; rfl)
  · rw [Entry.setData, he]

theorem overwriteAt_end (bytes old : Text) : overwriteAt old.length bytes old = old ++ bytes := by
  rw [overwriteAt, Nat.sub_self, List.replicate_zero, List.append_nil, List.take_length,
    List.drop_eq_nil_of_le (Nat.le_add_right _ _), List.append_nil]

theorem Holding.write (h : Holding d p L old) (off : ℕ) (bytes : Text) :
    ∃ new, Holding (write K d L off bytes) p L new ∧ (off = old.length → new = old ++ bytes) := by
  rw [Filesystem.write]
  split
  · rename_i hb
    rw [List.isEmpty_iff.mp hb, List.append_nil]
    exact ⟨old, h, fun _ => rfl⟩
  · refine ⟨_, h.setData _, ?_⟩
    rintro rfl
    exact overwriteAt_end bytes old

theorem Holding.setAttr (h : Holding d p L data) {c : Call} {f : Entry → Entry} {hf : ∀ e, (f e).kind = e.kind}
    (hnode : ∀ e, (f e).node = e.node) {s : Stop Name} (hd : Filesystem.setAttr K d c f hf s = .ok d') :
    Holding d' p L data := by
  unfold Filesystem.setAttr at hd
  split at hd
  · split at hd
    · cases hd
    · rw [← Except.ok.inj hd]
      exact h.attr hnode
  · cases hd
  · cases hd

theorem Holding.adoptOwner (h : Holding d p L data) (q : Text) : Holding (Helper.adoptOwner K q d) p L data := by
  rw [Helper.adoptOwner]
  split
  · exact h
  · split
    · exact h
    · split
      · split
        · rename_i hc
          obtain ⟨host, -, hc⟩ := Root.onHost_ok hc
          exact h.setAttr (Entry.node_setOwner _ _) hc
        · exact h
      · exact h

theorem Holding.setUploadMode (h : Holding d p L data) (q : Text) (last : Bool) (mode perm : ℕ) :
    Holding (Helper.setUploadMode K q last mode perm d) p L data := by
  rw [Helper.setUploadMode]
  split
  · split
    · rename_i hc
      obtain ⟨host, -, hc⟩ := Root.onHost_ok hc
      exact h.setAttr (Entry.node_setMode _) hc
    · exact h
  · exact h

theorem AbsentOrFile.of_holding (h : Holding d p L data) : AbsentOrFile d p := by
  intro L' e' hs'
  obtain ⟨e, hs, he⟩ := h
  obtain ⟨rfl, rfl⟩ := Prod.mk.inj (Except.ok.inj (hs.symm.trans hs'))
  exact ⟨data, he⟩

theorem Holding.unique {L' : Loc Name} (h : Holding d p L old) (h' : Holding d p L' data) : L = L' ∧ old = data := by
  obtain ⟨e, hs, he⟩ := h
  obtain ⟨e', hs', he'⟩ := h'
  obtain ⟨rfl, rfl⟩ := Prod.mk.inj (Except.ok.inj (hs.symm.trans hs'))
  exact ⟨rfl, Node.file.inj (he.symm.trans he')⟩

/-- The target, once it is opened: empty if it is cut or new, else what it was. -/
theorem AbsentOrFile.openWrite (hd : AbsentOrFile d p) {perm : ℕ} {truncate : Bool}
    (h : Root.openWrite K d p perm truncate = .ok (L, d')) :
    ∃ data, Holding d' p L data ∧ (truncate = true → data = []) ∧
      (truncate = false → ∀ L₀ old, Holding d p L₀ old → data = old) := by
  obtain ⟨host, hr, h⟩ := Root.onHost_ok h
  have hr' : (Rootfs.resolve p).isSome := by rw [hr]; rfl
  have hf : ∀ d : Fs, follow d host = follow d p := fun d => Rootfs.walk_resolve hr _ _
  have hfull : fullSteps host = steps host := by rw [fullSteps, (Filesystem.openWrite_ok h).1]; rfl
  rcases (Filesystem.openWrite_ok h).2 with ⟨hw, hndir, ha⟩ | ⟨hw, hm⟩
  · -- a file that is there
    have hw' : follow d p = .found L := by
      rw [← hf, follow, hfull]
      exact hw
    obtain ⟨e, he⟩ := Option.isSome_iff_exists.mp (d.tree.walk_found d.tree.root_dir hw)
    have hs : Root.stat d p = .ok (L, e) := Root.stat_iff.mpr ⟨hr', hw', he⟩
    obtain ⟨old, hold⟩ := hd L e hs
    have hh : Holding d p L old := ⟨e, hs, hold⟩
    rw [openWrite_found h hw]
    cases truncate with
    | true => exact ⟨[], hh.setData _, fun _ => rfl, fun h => by cases h⟩
    | false => exact ⟨old, hh, by simp, fun _ L₀ old₀ h₀ => (hh.unique h₀).2⟩
  · -- a file that is made
    have hw' : follow d p = .missing L := by
      rw [← hf, follow, hfull]
      exact hw
    have hnone : ∀ L₀ old, ¬ Holding d p L₀ old := by
      rintro L₀ old ⟨e, hs, -⟩
      have := (Root.stat_iff.mp hs).2.1
      rw [hw'] at this
      cases this
    have hfound : follow d' p = .found L := by
      rw [← hf, follow, hfull]
      exact walk_found_of_missing hw hm.grows (.inr (by rw [hm.kindAt, Function.update_self]))
    exact ⟨[], ⟨_, Root.stat_iff.mpr ⟨hr', hfound, openWrite_missing h hw⟩, rfl⟩, fun _ => rfl,
      fun _ L₀ old h₀ => absurd h₀ (hnone L₀ old)⟩

/-! ### One call -/

variable {cfg : Config} {C : ℕ → Kernel} {c : Chunk}

/-- What comes of a chunk: an error and a target that is absent or a file still, or the target with the chunk
written to what it has held; the chunk at offset 0 finds it empty. -/
theorem AbsentOrFile.upload (hd : AbsentOrFile d p) (off : ℕ) (bytes : Text) (last : Bool) (mode : ℕ) :
    let o := Helper.upload cfg K d p off bytes last mode
    AbsentOrFile o.disk p ∧ ∀ a, o.answer = .ok a → ∃ L old new, Holding o.disk p L new ∧
      (off = 0 → old = []) ∧ (off ≠ 0 → ∀ L₀ old₀, Holding d p L₀ old₀ → old = old₀) ∧
      (off = old.length → new = old ++ bytes) := by
  rw [Helper.upload]
  split
  · exact ⟨hd, fun a ha => by cases ha⟩
  · split
    · exact ⟨hd, fun a ha => by cases ha⟩
    · dsimp only
      split
      · exact ⟨hd, fun a ha => by cases ha⟩
      · rename_i file d₁ hopen
        obtain ⟨old, hold, hcut, hkept⟩ := hd.openWrite hopen
        split
        · exact ⟨.of_holding hold, fun a ha => by cases ha⟩
        · obtain ⟨new, hnew, hend⟩ := hold.write (K := K) off bytes
          rw [Int.toNat_natCast]
          have hdone : ∀ perm, Holding (Helper.setUploadMode K p last mode perm
              (if ((off : ℤ) = 0) then Helper.adoptOwner K p (Filesystem.write K d₁ file off bytes)
                else Filesystem.write K d₁ file off bytes)) p file new := by
            intro perm
            apply Holding.setUploadMode
            split
            · exact hnew.adoptOwner p
            · exact hnew
          refine ⟨.of_holding (hdone _), fun a _ => ⟨file, old, new, hdone _, fun h0 => hcut ?_, fun h0 => hkept ?_, hend⟩⟩
          · simp [h0]
          · simp [h0]

/-- The first bytes of a file have been sent to the target. -/
structure Sent (d : Fs) (p : Text) (data : Text) : Prop where
  target : AbsentOrFile d p
  holding : data ≠ [] → ∃ L, Holding d p L data

/-- A call of an upload. -/
theorem AbsentOrFile.send (hd : AbsentOrFile d p) : AbsentOrFile (send cfg C p c d).1 p := by
  have ho := (hd.upload c.offset c.data c.last 0 : AbsentOrFile (Helper.upload cfg (C c.offset) d p _ _ _ _).disk p ∧ _).1
  unfold Upload.send
  dsimp only
  split <;> exact ho

/-- The next chunk. -/
theorem Sent.send (h : Sent d p data) (hc : c.offset = data.length) (hs : send cfg C p c d = (d', none)) :
    ∃ L, Holding d' p L (data ++ c.data) := by
  unfold Upload.send at hs
  dsimp only at hs
  split at hs
  · rename_i a ha
    obtain ⟨L, old, new, hnew, hcut, hkept, hend⟩ := (h.target.upload _ _ _ _).2 a ha
    rw [(Prod.mk.inj hs).1] at hnew
    have hold : old = data := by
      by_cases hd : data = []
      · rw [hcut (by rw [hc, hd]; rfl), hd]
      · obtain ⟨L₀, h₀⟩ := h.holding hd
        apply hkept _ L₀ data h₀
        rw [hc]
        exact mt List.length_eq_zero_iff.mp hd
    rw [hend (by rw [hc, hold]), hold] at hnew
    exact ⟨L, hnew⟩
  · cases hs

/-! ### The whole upload -/

theorem take_append_slice (bytes : Text) (offset step : ℕ) :
    bytes.take offset ++ slice bytes offset (min (offset + step) bytes.length) = bytes.take (offset + step) := by
  rw [slice]
  rw [List.take_add, Nat.min_def]
  split
  · rw [Nat.add_sub_cancel_left]
  · rename_i hle
    rw [List.take_of_length_le (i := bytes.length - offset), List.take_of_length_le (i := step)]
    · rw [List.length_drop]
      omega
    · exact Nat.le_of_eq List.length_drop

/-- The rest of an upload that completes. -/
theorem Sent.chunks {chunkBytes : ℤ} {bytes : Text} {offset : ℕ} (h : Sent d p (bytes.take offset))
    (ho : offset = 0 ∨ offset < bytes.length)
    (hs : forEach (Upload.send cfg C p) (chunks chunkBytes bytes offset) d = (d', none)) :
    ∃ L, Holding d' p L bytes := by
  induction offset using chunks.induct chunkBytes bytes generalizing d with
  | case1 offset =>
    rename_i hlast
    rw [Upload.chunks] at hs
    dsimp only at hs
    rw [if_pos ho, if_pos hlast] at hs
    obtain ⟨d₁, hc, hd'⟩ := forEach_cons_eq_none.mp hs
    obtain rfl : d₁ = d' := (Prod.mk.inj hd').1
    have hlen : offset = (bytes.take offset).length := by
      rw [List.length_take]
      omega
    obtain ⟨L, hL⟩ := h.send hlen hc
    rw [take_append_slice, List.take_of_length_le hlast] at hL
    exact ⟨L, hL⟩
  | case2 offset =>
    rename_i hlast ih
    rw [Upload.chunks] at hs
    dsimp only at hs
    rw [if_pos ho, if_neg hlast] at hs
    obtain ⟨d₁, hc, hd'⟩ := forEach_cons_eq_none.mp hs
    have hlen : offset = (bytes.take offset).length := by
      rw [List.length_take]
      omega
    obtain ⟨L, hL⟩ := h.send hlen hc
    rw [take_append_slice] at hL
    exact ih ⟨.of_holding hL, fun _ => ⟨L, hL⟩⟩ (.inr (Nat.lt_of_not_le hlast)) hd'
  | case3 offset hno => exact absurd ho hno

theorem Attempt.run_absentOrFile (hd : AbsentOrFile d p) (a : Attempt) : AbsentOrFile (a.run cfg p d) p := by
  apply forEach_invariant (I := fun d => AbsentOrFile d p) _ hd
  intro c _ d h
  exact h.send

theorem runs_absentOrFile (hd : AbsentOrFile d p) (attempts : List Attempt) :
    AbsentOrFile (attempts.foldl (Attempt.run cfg p) d) p := by
  induction attempts generalizing d with
  | nil => exact hd
  | cons a attempts ih => exact ih (a.run_absentOrFile hd)

theorem Holding.contentsAt (h : Holding d p L data) : contentsAt d p = some data := by
  obtain ⟨⟨node, mode, uid, gid, mtime⟩, hs, he⟩ := h
  obtain rfl : node = .file data := he
  rw [Upload.contentsAt]
  rw [hs]

/-- **An upload reproduces the file**, whatever uploads that were broken off have left of the target. -/
theorem uploadFile_reproduces (cfg : Config) (directory : Text) (file : File) (chunkBytes : ℤ) (C : ℕ → Kernel)
    (attempts : List Attempt) (d d' : Fs) (hd : AbsentOrFile d (targetPath directory file.name))
    (h : uploadFile cfg C directory file chunkBytes
      (attempts.foldl (Attempt.run cfg (targetPath directory file.name)) d) = (d', none)) :
    contentsAt d' (targetPath directory file.name) = some file.bytes := by
  have hsent : Sent (attempts.foldl (Attempt.run cfg (targetPath directory file.name)) d)
      (targetPath directory file.name) (file.bytes.take 0) := ⟨runs_absentOrFile hd attempts, fun h0 => absurd rfl h0⟩
  obtain ⟨L, hL⟩ := hsent.chunks (.inl rfl) h
  exact hL.contentsAt

/-- A root with the one file `f`. -/
def oneFile : FsTree :=
  Tree.ofList [([], ⟨.dir, 0o755, 0, 0, 0⟩), ([⟨['f'], rfl⟩], ⟨.file "older".toList, 0o644, 0, 0, 0⟩)] rfl
    (by decide)

/-- No bounds but one on a chunk. -/
def unbounded : Config := ⟨0, 0, 0, 0, 0, 0, 16⟩

/-- The file is uploaded again, byte by byte, when an attempt has been broken off. -/
theorem uploadFile_reproduces_again :
    contentsAt (uploadFile unbounded (fun _ => .willing) ['/'] ⟨['f'], ['a', 'b']⟩ 1
      ([⟨['x', 'y', 'z'], 2, 1, fun _ => .willing⟩].foldl
        (Attempt.run unbounded (targetPath ['/'] ['f'])) (Disk.start oneFile))).1
      (targetPath ['/'] ['f']) = some ['a', 'b'] := by
  apply uploadFile_reproduces unbounded ['/'] ⟨['f'], ['a', 'b']⟩ 1 (fun _ => .willing)
    [⟨['x', 'y', 'z'], 2, 1, fun _ => .willing⟩] (Disk.start oneFile)
  · intro L e h
    have hs : Root.stat (Disk.start oneFile) (targetPath ['/'] ['f']) =
      .ok ([⟨['f'], rfl⟩], ⟨.file "older".toList, 0o644, 0, 0, 0⟩) := by rfl
    obtain ⟨-, rfl⟩ := Prod.mk.inj (Except.ok.inj (hs.symm.trans h))
    exact ⟨_, rfl⟩
  · have hchunks : chunks 1 ['a', 'b'] 0 = [⟨0, ['a'], false⟩, ⟨1, ['b'], true⟩] := by
      simp [chunks, slice]
    have hchunks' : chunks 2 ['x', 'y', 'z'] 0 = [⟨0, ['x', 'y'], false⟩, ⟨2, ['z'], true⟩] := by
      simp [chunks, slice]
    refine Prod.ext_iff.mpr ⟨rfl, ?_⟩
    simp only [uploadFile, List.foldl_cons, List.foldl_nil, Attempt.run, hchunks, hchunks']
    rfl

end OpenshiftConsole.Filesystem.Upload
