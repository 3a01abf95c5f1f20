import OpenshiftConsole.Filesystem.Extract
import OpenshiftConsole.Library.Loops

/-!
# Writing an archive

`helper.WriteTar`: the walk over a path and everything under it, depth first and in the order
of the names, and what it hands to the tar writer for each entry. A link is an entry of its
own and is not followed, but the path that the walk starts from is followed as far as the
kernel does, and each entry below is reached through a path text that is joined on to it.

`tar.Writer` is not part of the repository. `Writer` holds what of it the walk depends on: the
entries begun so far with the contents they got, the bytes that the last one still lacks (the
next header, or the end, is refused then) and the bytes handed on, which `countingWriter`
bounds. How long an entry's header is, is left open.
-/

namespace OpenshiftConsole.Filesystem.WriteTar

open OpenshiftConsole.Library.Lines (Text)
open OpenshiftConsole.Library.PathWalk OpenshiftConsole.Library.FileTree OpenshiftConsole.Library.Loops
open Extract (Typeflag)

/-- Why an archive breaks off. -/
inductive Error where
  | os (e : Errno)
  /-- `ErrArchiveTooLarge` -/
  | tooLarge
  /-- `ErrArchiveTooLarge` with "more than %d entries" -/
  | tooManyEntries (max : ℤ)
  /-- The tar writer's "missed writing %d bytes" -/
  | missed (bytes : ℕ)
  deriving DecidableEq

/-! ### The tar writer -/

/-- An entry of the archive: its header and the contents written after it. -/
structure TarEntry where
  name : Text
  typeflag : Typeflag
  mode : ℕ
  uid : ℕ
  gid : ℕ
  modTime : Time
  linkname : Text
  size : ℕ
  data : Text
  /-- Not in the archive: the entry of the file system that it is of. -/
  source : Loc Name
  deriving DecidableEq

/-- The tar writer and the `countingWriter` under it. -/
structure Writer where
  /-- The entries begun, latest first. -/
  entries : List TarEntry
  /-- What the latest entry lacks of its size. -/
  left : ℕ
  /-- The padding after it. -/
  pad : ℕ
  /-- The bytes handed on. -/
  written : ℕ

/-- A writer that nothing has been given to. -/
def Writer.empty : Writer := ⟨[], 0, 0, 0⟩

/-- `countingWriter.Write`; no limit where it is not positive. -/
def Writer.count (limit : ℤ) (n : ℕ) (w : Writer) : Writer × Option Error :=
  if limit > 0 ∧ ((w.written + n : ℕ) : ℤ) > limit then (w, some .tooLarge)
  else ({ w with written := w.written + n }, none)

/-- `Flush`: the latest entry is ended. -/
def Writer.flush (limit : ℤ) (w : Writer) : Writer × Option Error :=
  if w.left > 0 then (w, some (.missed w.left)) else w.count limit w.pad

/-- `WriteHeader`, for a header of `len` bytes. -/
def Writer.writeHeader (limit : ℤ) (len : ℕ) (e : TarEntry) (w : Writer) : Writer × Option Error :=
  match w.flush limit with
  | (w, some err) => (w, some err)
  | (w, none) =>
    match w.count limit len with
    | (w, some err) => (w, some err)
    | (w, none) =>
      ({ w with entries := e :: w.entries, left := e.size, pad := (512 - e.size % 512) % 512 }, none)

/-- How much `io.Copy` reads at a time. -/
def copyBuffer : ℕ := 32768

/-- `io.CopyN` of a file to the latest entry, up to the entry's size: a file that has become shorter is no error. -/
def Writer.copy (limit : ℤ) (data : Text) (w : Writer) : Writer × Option Error :=
  let n := min w.left data.length
  let sent :=
    if limit > 0 ∧ ((w.written + n : ℕ) : ℤ) > limit then (limit - w.written).toNat / copyBuffer * copyBuffer else n
  let entries :=
    match w.entries with
    | e :: es => { e with data := e.data ++ data.take sent } :: es
    | [] => []
  ({ w with entries := entries, left := w.left - sent, written := w.written + sent },
    if sent < n then some .tooLarge else none)

/-- `Close` -/
def Writer.close (limit : ℤ) (w : Writer) : Writer × Option Error :=
  match w.flush limit with
  | (w, some err) => (w, some err)
  | (w, none) => w.count limit 1024

/-! ### The walk -/

/-- `ArchiveOptions`; no bound where a value is not positive. -/
structure ArchiveOptions where
  maxBytes : ℤ
  maxEntries : ℤ

/-- `archiveName` -/
def archiveName (current parent : Text) : Text :=
  match Rootfs.cleanPath current with
  | none => current
  | some cleaned =>
    if cleaned = ['.'] then "root".toList
    else if parent.isPrefixOf cleaned then cleaned.drop parent.length
    else cleaned

/-- What the walk has come to: the entries counted and what they were written to. -/
structure Walk where
  count : ℕ
  writer : Writer

variable (K : Kernel) (d : Fs)

/-- The header of an entry. -/
def header (name : Text) (L : Loc Name) (st : Entry) (link : Text) : TarEntry :=
  match st.node with
  | .dir => ⟨name ++ ['/'], .dir, st.mode, st.uid, st.gid, st.mtime, link, 0, [], L⟩
  | .symlink _ => ⟨name, .symlink, st.mode, st.uid, st.gid, st.mtime, link, 0, [], L⟩
  | .file data => ⟨name, .reg, st.mode, st.uid, st.gid, st.mtime, link, data.length, [], L⟩
  | .special => ⟨name, .reg, st.mode, st.uid, st.gid, st.mtime, link, 0, [], L⟩

/-- What `WriteTar` does with an entry that the walk visits; `held` is what a file holds when it is read. -/
def visit (held : Loc Name → Text) (headerLen : TarEntry → ℕ) (limit : ℤ) (h : TarEntry) (current : Text)
    (w : Writer) : Writer × Option Error :=
  match w.writeHeader limit (headerLen h) h with
  | (w, some err) => (w, some err)
  | (w, none) =>
    if h.typeflag ≠ .reg then (w, none)
    else
      match Root.openRead K d current with
      | .error err => (w, some (.os err))
      | .ok file => if K.refuses d.tree .read file then (w, some (.os .refused)) else w.copy limit (held file)

/-- `recurse` in `walk`. The source has no bound on the depth: `fuel` is one that no tree reaches. -/
def recurse (held : Loc Name → Text) (headerLen : TarEntry → ℕ) (opts : ArchiveOptions) (parent : Text) :
    ℕ → Text → Walk → Walk × Option Error
  | 0, _, s => (s, none)
  | fuel + 1, current, s =>
    match Root.lstat d current with
    | .error err => (s, some (.os err))
    | .ok (L, st) =>
      let s := { s with count := s.count + 1 }
      if opts.maxEntries > 0 ∧ (s.count : ℤ) > opts.maxEntries then (s, some (.tooManyEntries opts.maxEntries))
      else
        let link := match st.node, Root.readlink d current with
          | .symlink _, .ok target => target
          | _, _ => []
        let visited :=
          if st.node = .special then (s.writer, none)
          else visit K d held headerLen opts.maxBytes (header (archiveName current parent) L st link) current s.writer
        match visited with
        | (w, some err) => ({ s with writer := w }, some err)
        | (w, none) =>
          let s := { s with writer := w }
          if st.node ≠ .dir then (s, none)
          else
            match Root.list K d current 0 with
            | .error err => (s, some (.os err))
            | .ok (_, entries, _) =>
              forEach (fun entry => recurse held headerLen opts parent fuel (Rootfs.join current entry.name.val)) entries s

/-- `WriteTar` -/
def writeTar (held : Loc Name → Text) (headerLen : TarEntry → ℕ) (path : Text) (opts : ArchiveOptions) :
    Writer × Option Error :=
  match Rootfs.cleanPath path with
  | none => (.empty, some (.os .inval))
  | some base =>
    let parent := (base.reverse.dropWhile (· != '/')).reverse
    match recurse K d held headerLen opts parent (d.tree.height + 1) path ⟨0, .empty⟩ with
    | (s, some err) => (s.writer, some err)
    | (s, none) => s.writer.close opts.maxBytes

/-! ### Walks that do not fail -/

/-- The target that a link's header names. -/
def linkOf (c : Text) (st : Entry) : Text :=
  match st.node, Root.readlink d c with
  | .symlink _, .ok target => target
  | _, _ => []

/-- What the walk has handed on when it has been at the entry `st`. -/
def Visited (K : Kernel) (d : Fs) (held : Loc Name → Text) (headerLen : TarEntry → ℕ) (opts : ArchiveOptions)
    (parent c : Text) (L : Loc Name) (st : Entry) (s : Walk) (w : Writer) : Prop :=
  st.node = .special ∧ w = s.writer ∨ st.node ≠ .special ∧
    visit K d held headerLen opts.maxBytes (header (archiveName c parent) L st (linkOf d c st)) c s.writer = (w, none)

variable {K d} {held : Loc Name → Text} {headerLen : TarEntry → ℕ} {opts : ArchiveOptions} {parent c : Text} {fuel : ℕ}

theorem Visited.unique {L : Loc Name} {st : Entry} {s : Walk} {w w' : Writer}
    (h : Visited K d held headerLen opts parent c L st s w)
    (h' : Visited K d held headerLen opts parent c L st s w') : w = w' := by
  rcases h with ⟨hsp, rfl⟩ | ⟨hsp, hv⟩ <;> rcases h' with ⟨hsp', rfl⟩ | ⟨hsp', hv'⟩
  · rfl
  · exact absurd hsp hsp'
  · exact absurd hsp' hsp
  · exact (Prod.mk.inj (hv.symm.trans hv')).1

/-- A walk that does not fail finds an entry at its path, has room for it, visits it unless it is special and goes
on into a directory. -/
theorem recurse_eq_none {s u : Walk} : recurse K d held headerLen opts parent (fuel + 1) c s = (u, none) ↔
    ∃ L st w, Root.lstat d c = .ok (L, st) ∧ ¬ (opts.maxEntries > 0 ∧ ((s.count + 1 : ℕ) : ℤ) > opts.maxEntries) ∧
      Visited K d held headerLen opts parent c L st s w ∧
      (st.node ≠ .dir ∧ u = ⟨s.count + 1, w⟩ ∨ st.node = .dir ∧ ∃ M entries truncated,
        Root.list K d c 0 = .ok (M, entries, truncated) ∧
          forEach (fun entry => recurse K d held headerLen opts parent fuel (Rootfs.join c entry.name.val)) entries
            ⟨s.count + 1, w⟩ = (u, none)) := by
  rw [recurse]
  constructor
  · intro h
    split at h
    · cases h
    · rename_i L st hl
      dsimp only at h
      split at h
      · cases h
      · rename_i hmany
        split at h
        · cases h
        · rename_i w hv
          refine ⟨L, st, w, hl, hmany, ?_, ?_⟩
          · split at hv
            · exact .inl ⟨‹_›, (Prod.mk.inj hv).1.symm⟩
            · exact .inr ⟨‹_›, hv⟩
          · by_cases hdir : st.node = .dir
            · rw [if_neg (not_not.mpr hdir)] at h
              split at h
              · cases h
              · exact .inr ⟨hdir, _, _, _, ‹_›, h⟩
            · rw [if_pos hdir] at h
              exact .inl ⟨hdir, (Prod.mk.inj h).1.symm⟩
  · rintro ⟨L, st, w, hl, hmany, hv, hrest⟩
    simp only [hl, if_neg hmany]
    have hvisited : (if st.node = .special then (s.writer, none)
        else visit K d held headerLen opts.maxBytes (header (archiveName c parent) L st (linkOf d c st)) c s.writer) =
          (w, none) := by
      rcases hv with ⟨hsp, rfl⟩ | ⟨hsp, hv⟩
      · exact if_pos hsp
      · exact (if_neg hsp).trans hv
    rw [linkOf] at hvisited
    rw [hvisited]
    rcases hrest with ⟨hdir, rfl⟩ | ⟨hdir, M, entries, truncated, hlist, hrest⟩
    · exact if_pos hdir
    · rw [hlist]
      exact (if_neg (not_not.mpr hdir)).trans hrest

/-- `/w` with one file. -/
def oneFileDir : FsTree :=
  Tree.ofList [([], ⟨.dir, 0o755, 0, 0, 0⟩), ([⟨['w'], isName_w⟩], ⟨.dir, 0o755, 0, 0, 0⟩),
    ([⟨['a'], isName_a⟩, ⟨['w'], isName_w⟩], ⟨.file ['x'], 0o644, 0, 0, 0⟩)] (by decide) (by decide)

end OpenshiftConsole.Filesystem.WriteTar
