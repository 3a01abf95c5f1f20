import OpenshiftConsole.Filesystem.Rootfs
import Mathlib.Algebra.Group.Nat.Defs
import Mathlib.Algebra.Ring.Int.Defs

/-!
# Extracting an archive

`helper.Extract`: open the archive, tell its format from the first bytes, make the
destination and write the members one after the other (`extractTar`, `extractZip`). The
two loops do the same with what they read from a tar stream or a zip directory, so both
are `extractMembers` on members in one form; `TarHeader.member` and `ZipFile.member` are
the two readings.

What decodes the archive's bytes is not part of the repository: `Codec` gives the members
for the bytes, and any members can come. A member's body may break off at some byte, be it
that the reader fails or that the file takes no more.

The loop takes the function that copies a body as a parameter. The code's is
`copyWithin`, which counts a byte budget down; what is said of it elsewhere compares
it with simpler ones.
-/

namespace OpenshiftConsole.Filesystem.Extract

open OpenshiftConsole.Library.Lines (Text)
open OpenshiftConsole.Library.PathWalk OpenshiftConsole.Library.FileTree

/-- Why an extraction fails. -/
inductive Error where
  | os (e : Errno)
  /-- "archive member name contains a NUL byte" -/
  | nulInName
  /-- "archive member %q is an absolute path" -/
  | absolute (name : Text)
  /-- "archive member %q points outside the destination" -/
  | outside (name : Text)
  /-- "%s already exists: extract with overwrite to replace it" -/
  | alreadyExists (target : Text)
  /-- "%s is not a regular file" -/
  | notRegular (path : Text)
  /-- `ErrUnknownArchive` -/
  | unknownArchive
  /-- `ErrArchiveTooBig` -/
  | tooBig
  /-- `ErrArchiveTooBig` with "more than %d entries" -/
  | tooManyEntries (max : ℤ)
  /-- The archive cannot be read any further, or a body cannot be copied to its end. -/
  | broken
  deriving DecidableEq

/-! ### Names -/

/-- A member's name below the destination, or `[]` for the destination itself. -/
def safeName (name : Text) : Except Error Text :=
  if name.contains '\x00' then .error .nulInName
  else
    let name := name.map fun c => if c = '\\' then '/' else c
    if name.head? = some '/' then .error (.absolute name)
    else
      let cleaned := pathClean name
      if cleaned = ['.'] ∨ cleaned = ['/'] then .ok []
      else if cleaned = ['.', '.'] ∨ ['.', '.', '/'].isPrefixOf cleaned then .error (.outside name)
      else .ok cleaned

/-- `strings.ToLower`, as far as a comparison with ASCII text sees it: `A`-`Z` and the two
letters of other alphabets, `İ` and the Kelvin sign, that have an ASCII lower case. -/
def toLower : Text → Text
  | '\xc4' :: '\xb0' :: s => 'i' :: toLower s
  | '\xe2' :: '\x84' :: '\xaa' :: s => 'k' :: toLower s
  | c :: s => c.toLower :: toLower s
  | [] => []

/-- The suffixes that name an archive, longest first. -/
def archiveSuffixes : List Text :=
  [".tar.zst", ".tar.zstd", ".tar.gz", ".tgz", ".tzst", ".tar", ".zip"].map String.toList

/-- Where an archive unpacks when no destination is named. -/
def defaultDestination (archivePath : Text) : Text :=
  let cleaned := '/' :: trim archivePath
  match archiveSuffixes.find? fun suffix => suffix.isSuffixOf (toLower cleaned) with
  | some suffix => cleaned.take (cleaned.length - suffix.length)
  | none => cleaned ++ ".extracted".toList

/-! ### What the readers deliver -/

/-- The contents of a member: the copy breaks off after `fault` bytes, if that is given. -/
structure Body where
  data : Text
  fault : Option ℕ

/-- What a member is, as both loops see it. -/
inductive Content where
  | dir
  | symlink (link : Except Error Text)
  /-- With the error that opening the contents ends in, if it does. -/
  | regular (openErr : Option Error) (body : Body)
  /-- Devices, fifos, hard links: skipped. -/
  | other

/-- A member of an archive. -/
structure Member where
  name : Text
  content : Content
  perm : ℕ
  /-- `none` for Go's zero time. -/
  modTime : Option Time

/-- The type flags of a tar header that the extraction tells apart. -/
inductive Typeflag where
  | reg | dir | symlink | other
  deriving DecidableEq

/-- A tar member. -/
structure TarHeader where
  name : Text
  typeflag : Typeflag
  linkname : Text
  mode : ℕ
  modTime : Option Time
  body : Body

/-- What `tar.Reader` delivers: the members, and the error that comes after them in place of the end. -/
structure TarReader where
  headers : List TarHeader
  err : Option Error

/-- A zip member: the type bits of its mode, the permission bits and the contents. -/
structure ZipFile where
  name : Text
  isDir : Bool
  isSymlink : Bool
  isRegular : Bool
  mode : ℕ
  modified : Option Time
  /-- What `File.Open` returns, if it fails. -/
  openErr : Option Error
  body : Body

/-- `FileMode.Perm` -/
def permOf (mode : ℕ) : ℕ := mode &&& 0o777

/-- `io.Copy` from `io.LimitReader(body, limit)`: how much is copied, and whether the copy breaks off. -/
def copyLimited (limit : ℤ) (body : Body) : ℕ × Bool :=
  if limit ≤ 0 then (0, false)
  else
    match body.fault with
    | none => (min limit.toNat body.data.length, false)
    | some k =>
      if (min k body.data.length : ℤ) < limit then (min k body.data.length, true)
      else (limit.toNat, false)

/-- A tar member in the form of the loop. -/
def TarHeader.member (h : TarHeader) : Member where
  name := h.name
  content :=
    match h.typeflag with
    | .dir => .dir
    | .symlink => .symlink (.ok h.linkname)
    | .reg => .regular none h.body
    | .other => .other
  perm := permOf h.mode
  modTime := h.modTime

/-- The target of a zip member's link: the first 4096 bytes of its contents. -/
def ZipFile.readLink (f : ZipFile) : Except Error Text :=
  match f.openErr with
  | some err => .error err
  | none =>
    match copyLimited 4096 f.body with
    | (_, true) => .error .broken
    | (n, false) => .ok (f.body.data.take n)

/-- A zip member in the form of the loop. -/
def ZipFile.member (f : ZipFile) : Member where
  name := f.name
  content :=
    if f.isDir then .dir
    else if f.isSymlink then .symlink f.readLink
    else if f.isRegular then .regular f.openErr f.body
    else .other
  perm := permOf f.mode
  modTime := f.modified

/-! ### One file -/

/-- The limits of an extraction; none where a value is not positive. -/
structure ExtractLimits where
  maxEntries : ℤ
  maxBytes : ℤ

/-- What a copy returns: the bytes written, an error, and the budget left. -/
structure Copied where
  n : ℕ
  err : Option Error
  budget : ℤ
  deriving DecidableEq

/-- The value of an integer expression in 64 bits. -/
def int64 (x : ℤ) : ℤ := x.bmod (2 ^ 64)

/-- The copy in `writeFile`: a budget that is not positive is none. -/
def copyWithin (budget : ℤ) (body : Body) : Copied :=
  let limit := if budget ≤ 0 then 2 ^ 62 else budget
  match copyLimited (int64 (limit + 1)) body with
  | (n, true) => ⟨n, some .broken, budget⟩
  | (n, false) =>
    if (n : ℤ) > limit then ⟨n, some .tooBig, budget⟩
    else ⟨n, none, if budget > 0 then budget - n else budget⟩

variable (K : Kernel)

/-- The directory that a member is written to is made first. -/
def makeParent (target : Text) (d : Fs) : Fs × Option Errno :=
  let dir := pathDir target
  if dir ≠ [] ∧ dir ≠ ['.'] then Root.mkdirAll K d dir 0o755 else (d, none)

/-- `writeFile`, with the function that copies. -/
def writeFile (copy : ℤ → Body → Copied) (target : Text) (perm : ℕ) (src : Body) (overwrite : Bool) (budget : ℤ)
    (d : Fs) : Fs × Copied :=
  match makeParent K target d with
  | (d, some err) => (d, ⟨0, some (.os err), budget⟩)
  | (d, none) =>
    if !overwrite && (Root.lstat d target).isOk then (d, ⟨0, some (.alreadyExists target), budget⟩)
    else
      match Root.openWrite K d target (if perm = 0 then 0o644 else perm) true with
      | .error err => (d, ⟨0, some (.os err), budget⟩)
      | .ok (out, d) =>
        let c := copy budget src
        (write K d out 0 (src.data.take c.n), c)

/-- What stands where a link is to be is removed first, if that was asked for. -/
def makeRoom (target : Text) (overwrite : Bool) (d : Fs) : Fs × Option Error :=
  if (Root.lstat d target).isOk then
    if !overwrite then (d, some (.alreadyExists target))
    else
      match Root.remove K d target with
      | .ok d => (d, none)
      | .error .noent => (d, none)
      | .error err => (d, some (.os err))
  else (d, none)

/-- `writeSymlink` -/
def writeSymlink (target link : Text) (overwrite : Bool) (d : Fs) : Fs × Option Error :=
  match makeParent K target d with
  | (d, some err) => (d, some (.os err))
  | (d, none) =>
    match makeRoom K target overwrite d with
    | (d, some err) => (d, some err)
    | (d, none) =>
      match Root.symlink K d link target with
      | .ok d => (d, none)
      | .error err => (d, some (.os err))

/-! ### The loop -/

/-- Where the loop is. -/
structure Progress where
  disk : Fs
  budget : ℤ
  /-- The entries written. -/
  written : ℕ
  /-- The bytes that each `writeFile` has reported; the loop itself drops them. -/
  copies : List ℕ

/-- The time of a member is set last, and no failure to do so is noticed. -/
def setTimes (target : Text) (modTime : Option Time) (d : Fs) : Fs :=
  match modTime with
  | none => d
  | some t =>
    match Root.chtimes K d target t with
    | .ok d => d
    | .error _ => d

/-- The cases of the loop: what is written for a member. `none` in place of the state means `continue`. -/
def writeMember (copy : ℤ → Body → Copied) (target : Text) (overwrite : Bool) (m : Member) (s : Progress) :
    Option Progress × Option Error :=
  match m.content with
  | .dir =>
    let (d, err) := Root.mkdirAll K s.disk target m.perm
    (some { s with disk := d }, err.map .os)
  | .symlink (.error err) => (some s, some err)
  | .symlink (.ok link) =>
    let (d, err) := writeSymlink K target link overwrite s.disk
    (some { s with disk := d }, err)
  | .regular (some err) _ => (some s, some err)
  | .regular none body =>
    let (d, c) := writeFile K copy target m.perm body overwrite s.budget s.disk
    (some { s with disk := d, budget := c.budget, copies := s.copies ++ [c.n] }, c.err)
  | .other => (none, none)

/-- One turn of the loop. -/
def extractMember (copy : ℤ → Body → Copied) (dest : Text) (overwrite : Bool) (limits : ExtractLimits) (m : Member)
    (s : Progress) : Progress × Option Error :=
  match safeName m.name with
  | .error err => (s, some err)
  | .ok name =>
    if name = [] then (s, none)
    else if limits.maxEntries > 0 ∧ (s.written : ℤ) ≥ limits.maxEntries then
      (s, some (.tooManyEntries limits.maxEntries))
    else
      let target := Rootfs.join dest name
      match writeMember K copy target overwrite m s with
      | (none, _) => (s, none)
      | (some s, some err) => (s, some err)
      | (some s, none) =>
        ({ s with disk := setTimes K target m.modTime s.disk, written := s.written + 1 }, none)

/-- The loop, up to the first error. -/
def extractMembers (copy : ℤ → Body → Copied) (dest : Text) (overwrite : Bool) (limits : ExtractLimits) :
    List Member → Progress → Progress × Option Error
  | [], s => (s, none)
  | m :: ms, s =>
    match extractMember K copy dest overwrite limits m s with
    | (s, some err) => (s, some err)
    | (s, none) => extractMembers copy dest overwrite limits ms s

/-- `extractTar` -/
def extractTar (reader : TarReader) (dest : Text) (overwrite : Bool) (limits : ExtractLimits) (d : Fs) :
    Progress × Option Error :=
  match extractMembers K copyWithin dest overwrite limits (reader.headers.map TarHeader.member)
    ⟨d, limits.maxBytes, 0, []⟩ with
  | (s, some err) => (s, some err)
  | (s, none) => (s, reader.err)

/-- `extractZip` -/
def extractZip (files : List ZipFile) (dest : Text) (overwrite : Bool) (limits : ExtractLimits) (d : Fs) :
    Progress × Option Error :=
  extractMembers K copyWithin dest overwrite limits (files.map ZipFile.member) ⟨d, limits.maxBytes, 0, []⟩

/-! ### The call -/

/-- The formats that the first bytes can tell. -/
inductive ArchiveKind where
  | unknown | zip | tar | tarGz | tarZstd
  deriving DecidableEq

/-- `detect` -/
def detect (head name : Text) : ArchiveKind :=
  if ['P', 'K', '\x03', '\x04'].isPrefixOf head || ['P', 'K', '\x05', '\x06'].isPrefixOf head then .zip
  else if ['\x1f', '\x8b'].isPrefixOf head then .tarGz
  else if ['\x28', '\xb5', '\x2f', '\xfd'].isPrefixOf head then .tarZstd
  else if decide (head.length ≥ 262) && ['u', 's', 't', 'a', 'r'].isPrefixOf (head.drop 257) then .tar
  else if ['.', 't', 'a', 'r'].isSuffixOf name then .tar
  else .unknown

/-- The packages that decode an archive's bytes. -/
structure Codec where
  zip : Text → Except Error (List ZipFile)
  /-- A tar stream, after it has been decompressed as its kind asks for. -/
  tar : ArchiveKind → Text → Except Error TarReader

/-- An archive as it is delivered to one of the two loops. -/
inductive Archive where
  | tar (reader : TarReader)
  | zip (files : List ZipFile)

/-- The members of an archive, as its loop takes them. -/
def Archive.members : Archive → List Member
  | .tar reader => reader.headers.map TarHeader.member
  | .zip files => files.map ZipFile.member

/-- What comes after the members in place of the end. -/
def Archive.ending : Archive → Option Error
  | .tar reader => reader.err
  | .zip _ => none

/-- The bytes of an open file. -/
def contents (d : Fs) (L : Loc Name) : Text :=
  match (d.tree.get L).map Entry.node with
  | some (.file data) => data
  | _ => []

/-- The archive's bytes and kind, before anything is written. -/
def openArchive (archivePath : Text) (d : Fs) : Except Error (Text × ArchiveKind) :=
  match Root.openRead K d archivePath with
  | .error err => .error (.os err)
  | .ok file =>
    match Root.stat d archivePath with
    | .error err => .error (.os err)
    | .ok (_, st) =>
      match st.node with
      | .file _ =>
        if K.refuses d.tree .read file then .error (.os .refused)
        else
          let data := contents d file
          match detect (data.take 512) (toLower archivePath) with
          | .unknown => .error .unknownArchive
          | kind => .ok (data, kind)
      | _ => .error (.notRegular archivePath)

/-- The archive in the form its loop takes. -/
def decode (C : Codec) (data : Text) : ArchiveKind → Except Error Archive
  | .zip => (C.zip data).map .zip
  | kind => (C.tar kind data).map .tar

/-- The loop of the archive's format. -/
def unpack (archive : Archive) (dest : Text) (overwrite : Bool) (limits : ExtractLimits) (d : Fs) :
    Progress × Option Error :=
  match archive with
  | .tar reader => extractTar K reader dest overwrite limits d
  | .zip files => extractZip K files dest overwrite limits d

/-- All that `Extract` does before its loop: the disk then, and the archive or the error that ends the call. -/
def prepare (C : Codec) (archivePath dest : Text) (d : Fs) : Fs × Except Error Archive :=
  match openArchive K archivePath d with
  | .error err => (d, .error err)
  | .ok (data, kind) =>
    match Root.mkdirAll K d dest 0o755 with
    | (d, some err) => (d, .error (.os err))
    | (d, none) => (d, decode C data kind)

/-- `Extract` -/
def extract (C : Codec) (archivePath dest : Text) (overwrite : Bool) (limits : ExtractLimits) (d : Fs) :
    Progress × Option Error :=
  match prepare K C archivePath dest d with
  | (d, .error err) => (⟨d, limits.maxBytes, 0, []⟩, some err)
  | (d, .ok archive) => unpack K archive dest overwrite limits d

/-! ### Both loops are one -/

/-- What the loop returns, with what comes after the members. -/
def withEnding (a : Archive) (r : Progress × Option Error) : Progress × Option Error := (r.1, r.2.or a.ending)

theorem unpack_eq (a : Archive) (dest : Text) (overwrite : Bool) (limits : ExtractLimits) (d : Fs) :
    unpack K a dest overwrite limits d =
      withEnding a (extractMembers K copyWithin dest overwrite limits a.members ⟨d, limits.maxBytes, 0, []⟩) := by
  cases a with
  | tar reader =>
    simp only [unpack, extractTar, Archive.members, Archive.ending, withEnding]
    rcases extractMembers K copyWithin dest overwrite limits _ _ with ⟨s, _ | err⟩ <;> rfl
  | zip files =>
    simp only [unpack, extractZip, Archive.members, Archive.ending, withEnding]
    rcases extractMembers K copyWithin dest overwrite limits _ _ with ⟨s, _ | err⟩ <;> rfl

/-! ### A small archive -/

/-- A file system with one file, `/a`, that begins like a zip. -/
def oneZip : FsTree :=
  Tree.ofList [([], ⟨.dir, 0o755, 0, 0, 0⟩), ([⟨['a'], isName_a⟩], ⟨.file ['P', 'K', '\x03', '\x04'], 0o644, 0, 0, 0⟩)]
    (by decide) (by decide)

/-- What the zip's directory says. -/
def zipOf (files : List ZipFile) : Codec where
  zip _ := .ok files
  tar _ _ := .error .broken

/-- A regular file in a zip. -/
def ZipFile.plain (name data : Text) : ZipFile := ⟨name, false, false, true, 0o644, none, none, ⟨data, none⟩⟩

/-- A symbolic link in a zip. -/
def ZipFile.link (name target : Text) : ZipFile := ⟨name, false, true, false, 0o777, none, none, ⟨target, none⟩⟩

end OpenshiftConsole.Filesystem.Extract
