import OpenshiftConsole.Filesystem.Policy
import OpenshiftConsole.Filesystem.WriteTar

/-!
# The helper's service

What a helper does with each request: it works on its own `/`, which is the container's
root, through the root handle, and checks nothing about where a path leads. What a request
named has been checked before it got here.

`serve` answers one request. Beside the answer and the file system an `Outcome` records what
the answer gives away: the directory that a listing is of, the file that bytes are from, the
entries in an archive, and the directory that an archive was extracted into. What is made,
written, moved and removed is in the file system's journal.
-/

namespace OpenshiftConsole.Filesystem.Helper

open OpenshiftConsole.Library.Lines (Text)
open OpenshiftConsole.Library.PathWalk OpenshiftConsole.Library.FileTree OpenshiftConsole.Library.Loops
open Api (Request ArchiveFormat)
open Extract (Codec ExtractLimits permOf)
open WriteTar (TarEntry)

/-- `Config`, without the size of a stream's messages; no bound where a value is not positive,
the upload's apart. -/
structure Config where
  maxListEntries : ℤ
  maxReadBytes : ℤ
  maxExtractBytes : ℤ
  maxExtractEntries : ℤ
  maxArchiveBytes : ℤ
  maxArchiveEntries : ℤ
  maxUploadChunk : ℤ

/-- Why a request fails. -/
inductive Error where
  | os (e : Errno)
  | tar (e : WriteTar.Error)
  | extract (e : Extract.Error)
  /-- "%s is not a regular file" -/
  | notRegular (path : Text)
  /-- "%s is %d bytes, more than this agent will serve in one read (%d)" -/
  | tooLarge (path : Text) (size : ℕ) (limit : ℤ)
  /-- "upload chunk of %d bytes exceeds the limit of %d" -/
  | chunkTooLarge (len : ℕ) (limit : ℤ)
  /-- "upload offset must not be negative" -/
  | negativeOffset
  /-- "the helper only produces uncompressed tar; the agent compresses (asked for %s)" -/
  | notTar (format : ArchiveFormat)
  deriving DecidableEq

/-- What a request is answered with. A stream is one text or one list here. -/
inductive Answer where
  | listing (entries : List Root.Dirent) (truncated : Bool)
  /-- The entry, where a link points and whether to a directory. -/
  | entry (stat : Entry) (linkTarget : Text) (targetIsDir : Bool)
  | contents (totalSize : ℕ) (data : Text)
  | uploaded (bytesWritten : ℕ) (size : ℤ)
  /-- The entries of a tar, in order. -/
  | tar (entries : List TarEntry)
  | extracted (destination : Text) (entriesWritten : ℕ)
  | moved (destination : Text)
  | deleted (entriesRemoved : ℕ)
  | created (path : Text)

/-- What comes of a request. -/
structure Outcome where
  disk : Fs
  answer : Except Error Answer
  /-- The entries whose contents or listing have been sent, in an archive or not. -/
  shown : List (Loc Name)
  /-- The directory that an archive has been extracted into. -/
  into : Option (Loc Name)

/-- A request that has failed and that nothing was done for. -/
def Outcome.failed (d : Fs) (err : Error) : Outcome := ⟨d, .error err, [], none⟩

variable (cfg : Config) (K : Kernel) (d : Fs)

/-! ### Looking -/

/-- `ListDirectory` -/
def listDirectory (path : Text) : Outcome :=
  match Root.list K d path cfg.maxListEntries with
  | .error err => .failed d (.os err)
  | .ok (L, entries, truncated) => ⟨d, .ok (.listing entries truncated), [L], none⟩

/-- `Stat` -/
def stat (path : Text) : Outcome :=
  match Root.lstat d path with
  | .error err => .failed d (.os err)
  | .ok (_, st) =>
    match st.node with
    | .symlink _ =>
      let linkTarget := match Root.readlink d path with
        | .ok target => target
        | .error _ => []
      let targetIsDir := match Root.stat d path with
        | .ok (_, target) => target.node = .dir
        | .error _ => false
      ⟨d, .ok (.entry st linkTarget targetIsDir), [], none⟩
    | _ => ⟨d, .ok (.entry st [] false), [], none⟩

/-- The bytes that one read may give: the request's bound, where it is stricter than the helper's. -/
def readLimit (maxBytes : ℤ) : ℤ :=
  if maxBytes > 0 ∧ (cfg.maxReadBytes ≤ 0 ∨ maxBytes < cfg.maxReadBytes) then maxBytes else cfg.maxReadBytes

/-- `ReadFile` -/
def readFile (path : Text) (maxBytes : ℤ) : Outcome :=
  match Root.stat d path with
  | .error err => .failed d (.os err)
  | .ok (_, st) =>
    match st.node with
    | .file data =>
      let limit := readLimit cfg maxBytes
      if limit > 0 ∧ (data.length : ℤ) > limit ∧ maxBytes = 0 then .failed d (.tooLarge path data.length limit)
      else
        match Root.openRead K d path with
        | .error err => .failed d (.os err)
        | .ok file =>
          if K.refuses d.tree .read file then .failed d (.os .refused)
          else
            let bytes := Extract.contents d file
            ⟨d, .ok (.contents data.length (if limit > 0 then bytes.take limit.toNat else bytes)), [file], none⟩
    | _ => .failed d (.notRegular path)

/-- `Archive` -/
def archive (headerLen : TarEntry → ℕ) (path : Text) (format : ArchiveFormat) : Outcome :=
  if format ≠ .tar ∧ format ≠ .unspecified then .failed d (.notTar format)
  else
    let (w, err) := WriteTar.writeTar K d (Extract.contents d) headerLen path ⟨cfg.maxArchiveBytes, cfg.maxArchiveEntries⟩
    let entries := w.entries.reverse
    let answer := match err with
      | some err => .error (.tar err)
      | none => .ok (.tar entries)
    ⟨d, answer, entries.map TarEntry.source, none⟩

/-! ### Changing -/

/-- The owner of an uploaded file is that of the directory that it is in, unless that is root's. -/
def adoptOwner (path : Text) (d : Fs) : Fs :=
  match Rootfs.splitParent path with
  | none => d
  | some (dir, _) =>
    match Root.stat d ('/' :: dir) with
    | .error _ => d
    | .ok (_, parent) =>
      if parent.uid ≠ 0 ∨ parent.gid ≠ 0 then
        match Root.chown K d path parent.uid parent.gid with
        | .ok d => d
        | .error _ => d
      else d

/-- The mode that the last chunk of an upload sets, if it sets one. -/
def setUploadMode (path : Text) (last : Bool) (mode perm : ℕ) (d : Fs) : Fs :=
  if last && mode ≠ 0 then
    match Root.chmod K d path perm with
    | .ok d => d
    | .error _ => d
  else d

/-- `Upload` -/
def upload (path : Text) (offset : ℤ) (data : Text) (last : Bool) (mode : ℕ) : Outcome :=
  if (data.length : ℤ) > cfg.maxUploadChunk then .failed d (.chunkTooLarge data.length cfg.maxUploadChunk)
  else if offset < 0 then .failed d .negativeOffset
  else
    let perm := if permOf mode = 0 then 0o644 else permOf mode
    let first := offset = 0
    match Root.openWrite K d path perm first with
    | .error err => .failed d (.os err)
    | .ok (file, d) =>
      if K.refuses d.tree .write file then ⟨d, .error (.os .refused), [], none⟩
      else
        let d := write K d file offset.toNat data
        let d := if first then adoptOwner K path d else d
        let d := setUploadMode K path last mode perm d
        let size := match Root.stat d path with
          | .ok (_, st) => match st.node with
            | .file data => (data.length : ℤ)
            | _ => 0
          | .error _ => offset + data.length
        ⟨d, .ok (.uploaded data.length size), [], none⟩

/-- The white space of Unicode, in UTF-8. -/
def isBlank : Text → Bool
  | [] => true
  | '\xc2' :: c :: s => (c = '\x85' || c = '\xa0') && isBlank s
  | '\xe1' :: '\x9a' :: c :: s => c = '\x80' && isBlank s
  | '\xe2' :: '\x80' :: c :: s =>
    (('\x80' ≤ c && c ≤ '\x8a') || c = '\xa8' || c = '\xa9' || c = '\xaf') && isBlank s
  | '\xe2' :: '\x81' :: c :: s => c = '\x9f' && isBlank s
  | '\xe3' :: '\x80' :: c :: s => c = '\x80' && isBlank s
  | c :: s => (c = ' ' || ('\t' ≤ c && c ≤ '\r')) && isBlank s

/-- Where an archive is extracted to: a blank destination is none. -/
def destinationOf (path destination : Text) : Text :=
  if isBlank destination then Extract.defaultDestination path else destination

/-- The limits of an extraction. -/
def Config.extractLimits : ExtractLimits := ⟨cfg.maxExtractEntries, cfg.maxExtractBytes⟩

/-- `Extract` -/
def extract (C : Codec) (path destination : Text) (overwrite : Bool) : Outcome :=
  let dest := destinationOf path destination
  let (s, err) := Extract.extract K C path dest overwrite cfg.extractLimits d
  let answer := match err with
    | some err => .error (.extract err)
    | none => .ok (.extracted dest s.written)
  let into := match Extract.prepare K C path dest d with
    | (d, .ok _) => (Root.stat d dest).toOption.map Prod.fst
    | (_, .error _) => none
  ⟨s.disk, answer, [], into⟩

/-- `Move` -/
def move (source destination : Text) (overwrite : Bool) : Outcome :=
  match Root.rename K d source destination overwrite with
  | .error err => .failed d (.os err)
  | .ok d => ⟨d, .ok (.moved destination), [], none⟩

/-- What `remove` has come to: the file system and the entries counted. -/
structure Removal where
  disk : Fs
  removed : ℕ

/-- `remove`. The source has no bound on the depth: `fuel` is one that no tree reaches. -/
def remove : ℕ → Text → Bool → Fs → Removal × Option Errno
  | 0, _, _, d => (⟨d, 0⟩, none)
  | fuel + 1, path, recursive, d =>
    match Root.lstat d path with
    | .error err => (⟨d, 0⟩, some err)
    | .ok (_, st) =>
      if st.node ≠ .dir ∨ !recursive then
        match Root.remove K d path with
        | .error err => (⟨d, 1⟩, some err)
        | .ok d => (⟨d, 1⟩, none)
      else
        match Root.list K d path 0 with
        | .error err => (⟨d, 0⟩, some err)
        | .ok (_, entries, _) =>
          let members := forEach (fun entry s =>
            let (r, err) := remove fuel (Rootfs.join path entry.name.val) true s.disk
            (⟨r.disk, s.removed + r.removed⟩, err)) entries ⟨d, 0⟩
          match members with
          | (s, some err) => (s, some err)
          | (s, none) =>
            match Root.remove K s.disk path with
            | .error err => (s, some err)
            | .ok d => (⟨d, s.removed + 1⟩, none)

/-- `Delete` -/
def delete (path : Text) (recursive : Bool) : Outcome :=
  match remove K (d.tree.height + 1) path recursive d with
  | (r, some err) => ⟨r.disk, .error (.os err), [], none⟩
  | (r, none) => ⟨r.disk, .ok (.deleted r.removed), [], none⟩

/-- `CreateDirectory` -/
def createDirectory (path : Text) (mode : ℕ) : Outcome :=
  let perm := if permOf mode = 0 then 0o755 else permOf mode
  match Root.mkdirAll K d path perm with
  | (d, some err) => ⟨d, .error (.os err), [], none⟩
  | (d, none) => ⟨d, .ok (.created path), [], none⟩

/-! ### One request -/

/-- What the agent passes on to the helper: of an archive it compresses the tar itself. -/
def forward : Request → Request
  | .archive path _ => .archive path .tar
  | msg => msg

/-- One request, from the agent to the helper and through it. -/
def serve (C : Codec) (headerLen : TarEntry → ℕ) (msg : Request) : Outcome :=
  match forward msg with
  | .listDirectory path => listDirectory cfg K d path
  | .stat path => stat d path
  | .readFile path maxBytes => readFile cfg K d path maxBytes
  | .upload path offset data last mode => upload cfg K d path offset data last mode
  | .archive path format => archive cfg K d headerLen path format
  | .extract path destination overwrite => extract cfg K d C path destination overwrite
  | .move source destination overwrite => move K d source destination overwrite
  | .delete path recursive => delete K d path recursive
  | .createDirectory path mode => createDirectory K d path mode

end OpenshiftConsole.Filesystem.Helper
