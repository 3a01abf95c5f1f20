import OpenshiftConsole.Filesystem.Policy
import OpenshiftConsole.Filesystem.ReadWhole
import OpenshiftConsole.Filesystem.WriteTar
import OpenshiftConsole.Library.Pipe

/-!
# The way of an archive to the browser

`WriteTar` writes into a pipe, and the helper sends what it reads there over a stream to the agent. The agent compresses
it into a pipe of its own, and sends what it reads there to the plugin's backend, which hands each message on to the
browser. Each of the three streams may break off, or be cancelled, after any message. The browser puts together what
it has got, and saves it if the stream has come to its end.

The compressors are not part of the repository: `Documented` says that what they write is read back. The bytes of a zip
are left open, so what is proved is about the formats that wrap the tar.

What is saved is the whole tar (`download_whole`), and it is saved if nothing breaks off, unless the agent is given a
buffer of no bytes (`download_iff`).
-/

namespace OpenshiftConsole.Filesystem.ArchiveStream

open OpenshiftConsole.Library
open OpenshiftConsole.Library.Lines (Text)
open Api (ArchiveFormat)
open Helper (bufferSize bufferSize_pos)
open WriteTar (copyBuffer)

abbrev Bytes := List UInt8

/-! ### Streams -/

/-- `ArchiveResponse` -/
structure ArchiveResponse where
  data : Bytes
  /-- Empty if there is none. -/
  filename : Text
deriving DecidableEq

variable {ε : Type}

/-- The messages of a stream, and the error that it ends with. -/
structure Stream (ε : Type) where
  messages : List ArchiveResponse
  err : Option ε
deriving DecidableEq

/-- A stream as its reader gets it, if it breaks off after so many messages. -/
def Stream.broken (s : Stream ε) : Option (ℕ × ε) → Stream ε
  | none => s
  | some (n, err) => ⟨s.messages.take n, some err⟩

/-- What is written into a pipe, and the error that the pipe is closed with. -/
structure Written (ε : Type) where
  writes : List Bytes
  err : Option ε

/-! ### Compressors -/

/-- A writer that compresses: what it writes for what it is given, and when it is closed. -/
structure Encoder where
  State : Type
  start : State
  write : State → Bytes → State × List Bytes
  close : State → List Bytes

/-- What is written for all that is given, up to the end. -/
def Encoder.writes (enc : Encoder) : enc.State → List Bytes → List Bytes
  | s, [] => enc.close s
  | s, chunk :: chunks => (enc.write s chunk).2 ++ enc.writes (enc.write s chunk).1 chunks

/-- `zstd.EncoderLevel` -/
inductive EncoderLevel where
  | speedFastest | speedDefault | speedBetterCompression | speedBestCompression
deriving DecidableEq

/-- The compressors, and `tarToZip` on bytes. -/
structure Codecs (ε : Type) where
  /-- `gzip.NewWriterLevel` -/
  newGzip : ℤ → Except ε Encoder
  /-- `zstd.NewWriter` -/
  newZstd : EncoderLevel → Except ε Encoder
  tarToZip : ℤ → Stream ε → Written ε

/-- `gzipLevel` -/
def gzipLevel (level : ℤ) : ℤ := if level ≤ 0 then -1 else if level > 9 then 9 else level

/-- `zstdLevel` -/
def zstdLevel (level : ℤ) : EncoderLevel :=
  if level ≤ 0 then .speedDefault
  else if level ≤ 3 then .speedFastest
  else if level ≤ 6 then .speedDefault
  else if level ≤ 8 then .speedBetterCompression
  else .speedBestCompression

/-- `io.Copy` to the pipe itself. -/
def plain : Encoder where
  State := Unit
  start := ()
  write s chunk := (s, [chunk])
  close _ := []

/-- The compressor of a format that wraps the tar. -/
def newEncoder (codecs : Codecs ε) (format : ArchiveFormat) (level : ℤ) : Except ε Encoder :=
  match format with
  | .tar => .ok plain
  | .tarZstd => codecs.newZstd (zstdLevel level)
  | _ => codecs.newGzip (gzipLevel level)

/-- `compressStream`, which reads through an `archiveStreamReader`: a message is read like what is written into a pipe,
as much at a time as `io.Copy` takes. -/
def compressStream (codecs : Codecs ε) (format : ArchiveFormat) (level : ℤ) (fuel : ℕ) (src : Stream ε) :
    Option (Written ε) :=
  if format = .zip then some (codecs.tarToZip level src)
  else
    match newEncoder codecs format level with
    | .error err => some ⟨[], some err⟩
    | .ok enc =>
      (Pipe.read copyBuffer fuel (src.messages.map (·.data))).map fun chunks => ⟨enc.writes enc.start chunks, src.err⟩

/-! ### The agent -/

/-- `ArchiveSuffix` -/
def archiveSuffix : ArchiveFormat → Text
  | .zip => ".zip".toList
  | .tar => ".tar".toList
  | .tarZstd => ".tar.zst".toList
  | _ => ".tar.gz".toList

/-- `strings.Trim(path, "/")` -/
def trimSlashes (path : Text) : Text := ((path.dropWhile (· = '/')).reverse.dropWhile (· = '/')).reverse

/-- `ArchiveFilename` -/
def archiveFilename (path : Text) (format : ArchiveFormat) : Text :=
  let name := ((trimSlashes path).reverse.takeWhile (· ≠ '/')).reverse
  (if name = [] then "root".toList else name) ++ archiveSuffix format

/-- The first message has the name. -/
def nameFirst (filename : Text) : List Bytes → List ArchiveResponse
  | [] => []
  | data :: later => ⟨data, filename⟩ :: later.map (⟨·, []⟩)

/-- The helper's `Archive`, for what `WriteTar` writes. -/
def helperArchive (chunkSize : ℤ) (fuel : ℕ) (tar : Written ε) : Option (Stream ε) :=
  (Pipe.read (bufferSize chunkSize) fuel tar.writes).map fun parts => ⟨parts.map (⟨·, []⟩), tar.err⟩

/-- `Config`, of the agent. -/
structure Config where
  compressionLevel : ℤ
  chunkSize : ℕ

/-- `ArchiveRequest`, without its target. -/
structure ArchiveRequest where
  path : Text
  format : ArchiveFormat
  compressionLevel : ℤ

/-- The format that is made. -/
def ArchiveRequest.wanted (req : ArchiveRequest) : ArchiveFormat :=
  if req.format = .unspecified then .tarGz else req.format

/-- The level that is asked for, or that of the agent. -/
def ArchiveRequest.level (req : ArchiveRequest) (cfg : Config) : ℤ :=
  if req.compressionLevel ≤ 0 then cfg.compressionLevel else req.compressionLevel

/-- The agent's `Archive`, for what it gets from the helper. -/
def agentArchive (codecs : Codecs ε) (cfg : Config) (req : ArchiveRequest) (fuel : ℕ) (upstream : Stream ε) :
    Option (Stream ε) := do
  let written ← compressStream codecs req.wanted (req.level cfg) fuel upstream
  let parts ← Pipe.read cfg.chunkSize fuel written.writes
  pure ⟨nameFirst (archiveFilename req.path req.wanted) parts, written.err⟩

/-! ### The backend and the browser -/

/-- `forwardStream`: each message is handed on, and the error. -/
def forwardStream (upstream : Stream ε) : Stream ε := ⟨upstream.messages, upstream.err⟩

/-- `baseName` -/
def baseName (path : Text) : Text :=
  let trimmed := (path.reverse.dropWhile (· = '/')).reverse
  if trimmed = [] then ['/'] else (trimmed.reverse.takeWhile (· ≠ '/')).reverse

/-- The name of the download before any message has come. -/
def initialFilename (path : Text) : Text :=
  (if baseName path = [] then "root".toList else baseName path) ++ ".archive".toList

/-- `downloadArchive`: what is saved, and under which name. -/
def downloadArchive (path : Text) (stream : Stream ε) : Except ε (Text × Bytes) :=
  match stream.err with
  | some err => .error err
  | none =>
    .ok (stream.messages.foldl (fun filename m => if m.filename = [] then filename else m.filename)
      (initialFilename path), (stream.messages.map (·.data)).flatten)

/-- After how many messages, and with what, each stream breaks off. -/
structure Breaks (ε : Type) where
  helper : Option (ℕ × ε)
  agent : Option (ℕ × ε)
  backend : Option (ℕ × ε)

/-- The whole way. -/
def download (codecs : Codecs ε) (cfg : Config) (req : ArchiveRequest) (breaks : Breaks ε) (tar : Written ε)
    (fuel : ℕ) : Option (Except ε (Text × Bytes)) := do
  let helper ← helperArchive cfg.chunkSize fuel tar
  let agent ← agentArchive codecs cfg req fuel (helper.broken breaks.helper)
  pure (downloadArchive req.path ((forwardStream (agent.broken breaks.agent)).broken breaks.backend))

/-! ### What the compressors do -/

/-- What is written, whichever pieces are given, is read back as what was given. -/
structure Encoder.Encodes (enc : Encoder) (decode : Bytes → Option Bytes) : Prop where
  decodes : ∀ chunks, decode (enc.writes enc.start chunks).flatten = some chunks.flatten
  /-- Something is written for something. -/
  writes : ∀ chunks : List Bytes, chunks.flatten ≠ [] → (enc.writes enc.start chunks).flatten ≠ []

/-- What `compress/gzip` and the package `zstd` document. -/
structure Codecs.Documented (codecs : Codecs ε) (gunzip unzstd : Bytes → Option Bytes) : Prop where
  /-- From `HuffmanOnly` up to `BestCompression`. -/
  gzip : ∀ level, -2 ≤ level → level ≤ 9 → ∃ enc, codecs.newGzip level = .ok enc ∧ enc.Encodes gunzip
  zstd : ∀ level, ∃ enc, codecs.newZstd level = .ok enc ∧ enc.Encodes unzstd

/-- What unpacks a format that wraps the tar. -/
def unpack (gunzip unzstd : Bytes → Option Bytes) : ArchiveFormat → Bytes → Option Bytes
  | .tar => some
  | .tarZstd => unzstd
  | _ => gunzip

variable {codecs : Codecs ε} {gunzip unzstd : Bytes → Option Bytes} {cfg : Config} {req : ArchiveRequest}
  {format : ArchiveFormat} {level : ℤ} {breaks : Breaks ε} {tar : Written ε} {fuel : ℕ} {filename : Text}
  {bytes : Bytes} {s : Stream ε}

theorem plain_writes (s : plain.State) (chunks : List Bytes) : plain.writes s chunks = chunks := by
  induction chunks with
  | nil => rfl
  | cons chunk chunks ih => exact congrArg (chunk :: ·) ih

theorem plain_encodes : plain.Encodes some where
  decodes chunks := congrArg (fun writes => some writes.flatten) (plain_writes _ chunks)
  writes chunks h := (plain_writes plain.start chunks).symm ▸ h

theorem gzipLevel_bounds (level : ℤ) : -2 ≤ gzipLevel level ∧ gzipLevel level ≤ 9 := by
  unfold gzipLevel
  split_ifs <;> omega

/-- Each level that is asked for is one that the compressor takes. -/
theorem exists_encoder (hcodecs : codecs.Documented gunzip unzstd) (format : ArchiveFormat) (level : ℤ) :
    ∃ enc, newEncoder codecs format level = .ok enc ∧ enc.Encodes (unpack gunzip unzstd format) := by
  obtain ⟨hle, hle'⟩ := gzipLevel_bounds level
  cases format with
  | tar => exact ⟨plain, rfl, plain_encodes⟩
  | tarZstd => exact hcodecs.zstd (zstdLevel level)
  | _ => exact hcodecs.gzip (gzipLevel level) hle hle'

theorem compressStream_eq {enc : Encoder} (hformat : format ≠ .zip) (henc : newEncoder codecs format level = .ok enc) :
    compressStream codecs format level fuel s =
      (Pipe.read copyBuffer fuel (s.messages.map (·.data))).map fun chunks => ⟨enc.writes enc.start chunks, s.err⟩ := by
  rw [compressStream, if_neg hformat, henc]

/-! ### What the streams do -/

theorem broken_err {b : Option (ℕ × ε)} : (s.broken b).err = none ↔ b = none ∧ s.err = none := by
  rcases b with _ | ⟨n, err⟩
  · simp [Stream.broken]
  · simp [Stream.broken]

theorem data_unnamed (parts : List Bytes) : (parts.map (ArchiveResponse.mk · [])).map (·.data) = parts := by
  rw [List.map_map]
  exact List.map_id parts

theorem data_nameFirst (filename : Text) (parts : List Bytes) : (nameFirst filename parts).map (·.data) = parts := by
  cases parts with
  | nil => rfl
  | cons data later => exact congrArg (data :: ·) (data_unnamed later)

theorem archiveFilename_ne (path : Text) (format : ArchiveFormat) : archiveFilename path format ≠ [] := by
  have hsuffix : archiveSuffix format ≠ [] := by cases format <;> decide
  exact fun h => hsuffix (List.append_eq_nil_iff.mp h).2

/-- The name is that of the first message, if there is one. -/
theorem foldl_nameFirst {initial : Text} (hne : filename ≠ []) (parts : List Bytes) :
    (nameFirst filename parts).foldl (fun filename m => if m.filename = [] then filename else m.filename) initial =
      if parts = [] then initial else filename := by
  have hlater : ∀ (later : List Bytes) (name : Text),
      (later.map (ArchiveResponse.mk · [])).foldl
        (fun filename m => if m.filename = [] then filename else m.filename) name = name := by
    intro later name
    induction later with
    | nil => rfl
    | cons data later ih => exact ih
  cases parts with
  | nil => rfl
  | cons data later =>
    rw [nameFirst, List.foldl_cons, if_neg hne, hlater, if_neg (List.cons_ne_nil _ _)]

theorem downloadArchive_eq_ok {path : Text} :
    downloadArchive path s = .ok (filename, bytes) ↔ s.err = none ∧
      s.messages.foldl (fun filename m => if m.filename = [] then filename else m.filename) (initialFilename path) =
        filename ∧ (s.messages.map (·.data)).flatten = bytes := by
  unfold downloadArchive
  split
  · rename_i err herr
    simp [herr]
  · rename_i herr
    simp [herr]

theorem helperArchive_eq_some {chunkSize : ℤ} : helperArchive chunkSize fuel tar = some s ↔
    ∃ sent, Pipe.read (bufferSize chunkSize) fuel tar.writes = some sent ∧ ⟨sent.map (⟨·, []⟩), tar.err⟩ = s :=
  Option.map_eq_some_iff

theorem wanted_ne_zip (hformat : req.format ≠ .zip) : req.wanted ≠ .zip := by
  unfold ArchiveRequest.wanted
  split
  · decide
  · exact hformat

theorem agentArchive_eq_some {enc : Encoder} {upstream : Stream ε} (hformat : req.format ≠ .zip)
    (henc : newEncoder codecs req.wanted (req.level cfg) = .ok enc) :
    agentArchive codecs cfg req fuel upstream = some s ↔
      ∃ chunks parts, Pipe.read copyBuffer fuel (upstream.messages.map (·.data)) = some chunks ∧
        Pipe.read cfg.chunkSize fuel (enc.writes enc.start chunks) = some parts ∧
        ⟨nameFirst (archiveFilename req.path req.wanted) parts, upstream.err⟩ = s := by
  rw [agentArchive, compressStream_eq (wanted_ne_zip hformat) henc]
  constructor
  · intro h
    obtain ⟨written, hwritten, h⟩ := Option.bind_eq_some_iff.mp h
    obtain ⟨chunks, hchunks, rfl⟩ := Option.map_eq_some_iff.mp hwritten
    obtain ⟨parts, hparts, h⟩ := Option.bind_eq_some_iff.mp h
    exact ⟨chunks, parts, hchunks, hparts, Option.some_inj.mp h⟩
  · rintro ⟨chunks, parts, hchunks, hparts, rfl⟩
    rw [hchunks]
    exact Option.bind_eq_some_iff.mpr ⟨_, rfl, Option.bind_eq_some_iff.mpr ⟨parts, hparts, rfl⟩⟩

/-- What is read of the parts of the tar, and of what is made of them. -/
structure Reads (codecs : Codecs ε) (cfg : Config) (req : ArchiveRequest) (tar : Written ε) (fuel : ℕ) where
  enc : Encoder
  sent : List Bytes
  chunks : List Bytes
  parts : List Bytes
  newEncoder : newEncoder codecs req.wanted (req.level cfg) = .ok enc
  read_tar : Pipe.read (bufferSize cfg.chunkSize) fuel tar.writes = some sent
  read_sent : Pipe.read copyBuffer fuel sent = some chunks
  read_chunks : Pipe.read cfg.chunkSize fuel (enc.writes enc.start chunks) = some parts

/-- What is saved has come the whole way, with nothing broken off. -/
theorem download_eq_ok (hcodecs : codecs.Documented gunzip unzstd) (hformat : req.format ≠ .zip) :
    download codecs cfg req breaks tar fuel = some (.ok (filename, bytes)) ↔
      tar.err = none ∧ breaks = ⟨none, none, none⟩ ∧ ∃ r : Reads codecs cfg req tar fuel, bytes = r.parts.flatten ∧
        filename = if r.parts = [] then initialFilename req.path else archiveFilename req.path req.wanted := by
  obtain ⟨enc, henc, -⟩ := exists_encoder hcodecs req.wanted (req.level cfg)
  have hne := archiveFilename_ne req.path req.wanted
  constructor
  · intro h
    obtain ⟨helper, hhelper, h⟩ := Option.bind_eq_some_iff.mp h
    obtain ⟨agent, hagent, h⟩ := Option.bind_eq_some_iff.mp h
    obtain ⟨sent, hsent, rfl⟩ := helperArchive_eq_some.mp hhelper
    obtain ⟨chunks, parts, hchunks, hparts, rfl⟩ := (agentArchive_eq_some hformat henc).mp hagent
    obtain ⟨herr, hname, hdata⟩ := downloadArchive_eq_ok.mp (Option.some_inj.mp h)
    obtain ⟨hbackend, herr⟩ := broken_err.mp herr
    obtain ⟨hagentBreak, herr⟩ := broken_err.mp herr
    obtain ⟨hhelperBreak, herr⟩ := broken_err.mp herr
    obtain ⟨bhelper, bagent, bbackend⟩ := breaks
    subst hbackend hagentBreak hhelperBreak
    refine ⟨herr, rfl, ⟨enc, sent, chunks, parts, henc, hsent, ?_, hparts⟩, ?_, ?_⟩
    · rw [← hchunks]
      exact congrArg (Pipe.read copyBuffer fuel) (data_unnamed sent).symm
    · rw [← hdata]
      exact congrArg List.flatten (data_nameFirst _ parts)
    · rw [← hname]
      exact foldl_nameFirst hne parts
  · rintro ⟨herr, rfl, r, rfl, rfl⟩
    refine Option.bind_eq_some_iff.mpr ⟨_, helperArchive_eq_some.mpr ⟨r.sent, r.read_tar, rfl⟩, ?_⟩
    refine Option.bind_eq_some_iff.mpr ⟨_, (agentArchive_eq_some hformat r.newEncoder).mpr
      ⟨r.chunks, r.parts, ?_, r.read_chunks, rfl⟩, ?_⟩
    · rw [← r.read_sent]
      exact congrArg (Pipe.read copyBuffer fuel) (data_unnamed r.sent)
    · refine congrArg some (downloadArchive_eq_ok.mpr ⟨herr, foldl_nameFirst hne r.parts, ?_⟩)
      exact congrArg List.flatten (data_nameFirst _ r.parts)

/-- What is read is all that was written. -/
theorem Reads.unpack_eq (hcodecs : codecs.Documented gunzip unzstd) (r : Reads codecs cfg req tar fuel) :
    unpack gunzip unzstd req.wanted r.parts.flatten = some tar.writes.flatten := by
  obtain ⟨enc, henc, hencodes⟩ := exists_encoder hcodecs req.wanted (req.level cfg)
  obtain rfl : enc = r.enc := Except.ok.inj (henc.symm.trans r.newEncoder)
  rw [Pipe.flatten_read r.read_chunks, hencodes.decodes, Pipe.flatten_read r.read_sent, Pipe.flatten_read r.read_tar]

/-- **No part of an archive is saved as the whole**: what is saved unpacks to all that `WriteTar` has written,
`WriteTar` has come to its end, and the name says the format. -/
theorem download_whole (hcodecs : codecs.Documented gunzip unzstd) (hformat : req.format ≠ .zip)
    (h : download codecs cfg req breaks tar fuel = some (.ok (filename, bytes))) :
    tar.err = none ∧ unpack gunzip unzstd req.wanted bytes = some tar.writes.flatten ∧
      (bytes ≠ [] → filename = archiveFilename req.path req.wanted) := by
  obtain ⟨herr, -, r, rfl, rfl⟩ := (download_eq_ok hcodecs hformat).mp h
  refine ⟨herr, r.unpack_eq hcodecs, fun hbytes => if_neg ?_⟩
  intro hparts
  exact hbytes (by rw [hparts, List.flatten_nil])

/-- A compressor that only counts what it is given, and what undoes it. -/
def counting : Encoder where
  State := ℕ
  start := 0
  write n chunk := (n + chunk.length, [chunk])
  close n := [[UInt8.ofNat n]]

def uncount (bytes : Bytes) : Option Bytes := some bytes.dropLast

def counted : Codecs Unit where
  newGzip level := if -2 ≤ level ∧ level ≤ 9 then .ok counting else .error ()
  newZstd _ := .ok counting
  tarToZip _ src := ⟨src.messages.map (·.data), src.err⟩

theorem counting_writes (n : ℕ) (chunks : List Bytes) :
    (counting.writes n chunks).flatten = chunks.flatten ++ [UInt8.ofNat (n + chunks.flatten.length)] := by
  induction chunks generalizing n with
  | nil => rfl
  | cons chunk chunks ih =>
    show chunk ++ (counting.writes (n + chunk.length) chunks).flatten = _
    rw [ih, List.flatten_cons, List.length_append, Nat.add_assoc, List.append_assoc]

theorem counting_encodes : counting.Encodes uncount where
  decodes chunks := by
    rw [uncount, show (counting.writes counting.start chunks).flatten = _ from counting_writes 0 chunks,
      List.dropLast_concat]
  writes chunks _ := by
    rw [show (counting.writes counting.start chunks).flatten = _ from counting_writes 0 chunks]
    exact List.append_ne_nil_of_right_ne_nil _ (List.cons_ne_nil _ _)

theorem counted_documented : counted.Documented uncount uncount where
  gzip _ hle hle' := ⟨counting, if_pos ⟨hle, hle'⟩, counting_encodes⟩
  zstd _ := ⟨counting, rfl, counting_encodes⟩

def oneRequest : ArchiveRequest := ⟨"/srv/a".toList, .tar, 0⟩

def oneTar : Written Unit := ⟨[[1, 2, 3], [], [4]], none⟩

theorem download_whole_one : oneTar.err = none ∧
    unpack uncount uncount oneRequest.wanted [1, 2, 3, 4] = some oneTar.writes.flatten ∧
      ([1, 2, 3, 4] ≠ ([] : Bytes) → "a.tar".toList = archiveFilename oneRequest.path oneRequest.wanted) :=
  download_whole counted_documented (by decide)
    (rfl : download counted ⟨0, 2⟩ oneRequest ⟨none, none, none⟩ oneTar 9 = some (.ok ("a.tar".toList, [1, 2, 3, 4])))

end OpenshiftConsole.Filesystem.ArchiveStream
