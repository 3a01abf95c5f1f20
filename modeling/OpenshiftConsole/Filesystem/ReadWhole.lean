import Mathlib.Data.List.Chain
import OpenshiftConsole.Filesystem.Nodes
import OpenshiftConsole.Filesystem.Service

/-!
# Reading a file whole

A file is read in chunks while others may append to it. The helper looks at its size first, refuses
a download of more than `MaxReadBytes`, and then reads up to that bound and no further, without a word
when there is more. The dialog that views a file asks for `viewMaxBytes` and takes what it gets for
truncated when it is that much.

So a download is whole exactly when the file has not outgrown the helper's bound when it ends, and the
dialog's mark is right exactly when the file is not of just the size that was asked for or, where
the helper's bound is the smaller one, not larger than that bound (`reads_iff`).
-/

namespace OpenshiftConsole.Filesystem.Helper

open OpenshiftConsole.Library.Lines (Text)
open OpenshiftConsole.Library.PathWalk OpenshiftConsole.Library.FileTree

/-! ### A file that grows -/

/-- A file while it is read. -/
structure Growth where
  /-- What it holds when its size is looked at. -/
  start : Text
  /-- What it holds at each turn of the loop that reads it. -/
  reads : List Text
  /-- It only grows. -/
  grows : (start :: reads).IsChain (· <+: ·)

/-- What the file holds in the end. -/
def Growth.final (g : Growth) : Text := g.reads.getLastD g.start

/-- A file that stays as it is, for so many turns. -/
def Growth.unchanged (contents : Text) (turns : ℕ) : Growth where
  start := contents
  reads := List.replicate turns contents
  grows := List.isChain_replicate_of_rel (turns + 1) (List.prefix_refl contents)

/-- The size of the helper's buffer, as `NewService` sets it. -/
def bufferSize (chunkSize : ℤ) : ℕ := if chunkSize ≤ 0 then 256 * 1024 else chunkSize.toNat

/-- What a `Read` of the file gives, through an `io.LimitReader` if there is a limit; nothing is `io.EOF`. -/
def readChunk (limit : ℤ) (size off : ℕ) (contents : Text) : Text :=
  (contents.drop off).take (if limit > 0 then min size (limit.toNat - off) else size)

/-- The loop of `ReadFile` over the file's contents at each turn: what it sends. `none` if these are not all its turns. -/
def sendChunks (limit : ℤ) (size : ℕ) : ℕ → List Text → Option (List Text)
  | _, [] => none
  | off, contents :: later =>
    let data := readChunk limit size off contents
    if data = [] then (if later = [] then some [] else none)
    else (sendChunks limit size (off + data.length) later).map (data :: ·)

/-- `ReadFileResponse` -/
structure Response where
  totalSize : ℕ
  data : Text

/-- The messages of a stream: the first has the size, and an empty file still has a first one. -/
def responses (size : ℕ) : List Text → List Response
  | [] => [⟨size, []⟩]
  | first :: later => ⟨size, first⟩ :: later.map (⟨0, ·⟩)

/-- `ReadFile` of a regular file, from the size check on: the messages, if these are all its turns. -/
def streamFile (cfg : Config) (chunkSize : ℤ) (path : Text) (maxBytes : ℤ) (g : Growth) :
    Except Error (Option (List Response)) :=
  let limit := readLimit cfg maxBytes
  if limit > 0 ∧ (g.start.length : ℤ) > limit ∧ maxBytes = 0 then .error (.tooLarge path g.start.length limit)
  else .ok ((sendChunks limit (bufferSize chunkSize) 0 g.reads).map (responses g.start.length))

/-! ### The tab -/

/-- `readFileBytes`: what the messages carry, put together. -/
def readFileBytes (messages : List Response) : Text :=
  ((messages.map Response.data).filter (·.length ≠ 0)).flatten

/-- `downloadFile`: what is saved. -/
def downloadFile (cfg : Config) (chunkSize : ℤ) (path : Text) (g : Growth) : Except Error (Option Text) :=
  (streamFile cfg chunkSize path 0 g).map (Option.map readFileBytes)

/-- What the dialog that views a file holds. -/
structure ViewDialog where
  bytes : Text
  truncated : Bool

/-- The action that views a file. -/
def viewFile (cfg : Config) (chunkSize : ℤ) (path : Text) (viewMaxBytes : ℤ) (g : Growth) :
    Except Error (Option ViewDialog) :=
  (streamFile cfg chunkSize path viewMaxBytes g).map (Option.map fun messages =>
    let bytes := readFileBytes messages
    ⟨bytes, viewMaxBytes ≤ bytes.length⟩)

/-! ### What is to hold, and when -/

/-- The mark says whether there is more. -/
def ViewDialog.Honest (dialog : ViewDialog) (file : Text) : Prop :=
  dialog.truncated = true ↔ dialog.bytes <+: file ∧ dialog.bytes ≠ file

/-- The file has not outgrown the helper's bound. -/
def Served (cfg : Config) (file : Text) : Prop := cfg.maxReadBytes ≤ 0 ∨ (file.length : ℤ) ≤ cfg.maxReadBytes

/-- The file is not of just the size that the dialog asks for; where the helper's bound is smaller, the file is
within that. -/
def Markable (cfg : Config) (viewMaxBytes : ℤ) (file : Text) : Prop :=
  if 0 < cfg.maxReadBytes ∧ cfg.maxReadBytes < viewMaxBytes then (file.length : ℤ) ≤ cfg.maxReadBytes
  else (file.length : ℤ) ≠ viewMaxBytes

/-! ### The loop -/

/-- What a reader with this limit gets of a file. -/
def cut (limit : ℤ) (file : Text) : Text := if limit > 0 then file.take limit.toNat else file

variable {cfg : Config} {chunkSize limit maxBytes viewMaxBytes : ℤ} {size : ℕ} {path pre contents bytes : Text}
  {reads chunks : List Text} {g g' : Growth}

theorem bufferSize_pos (chunkSize : ℤ) : 0 < bufferSize chunkSize := by
  rw [bufferSize]
  split <;> omega

theorem cut_prefix_file (limit : ℤ) (file : Text) : cut limit file <+: file := by
  rw [cut]
  split
  · exact List.take_prefix _ _
  · exact List.prefix_refl _

theorem cut_eq_self_iff : cut limit contents = contents ↔ limit ≤ 0 ∨ (contents.length : ℤ) ≤ limit := by
  rw [cut]
  split
  · rw [List.take_eq_self_iff]
    omega
  · exact iff_of_true rfl (.inl (by omega))

theorem length_cut (h : 0 < limit) : (cut limit contents).length = min limit.toNat contents.length := by
  rw [cut, if_pos h, List.length_take]

/-- At the end of the file or of the limit, all of it has been read. -/
theorem eq_cut_of_readChunk (hsize : 0 < size) (hpre : pre <+: contents) (hlimit : limit > 0 → pre.length ≤ limit.toNat)
    (h : readChunk limit size pre.length contents = []) : pre = cut limit contents := by
  obtain ⟨rest, rfl⟩ := hpre
  rw [readChunk, List.drop_left, List.take_eq_nil_iff] at h
  rw [cut]
  split at h
  · have hle := hlimit ‹_›
    rw [if_pos ‹_›]
    rcases h with h | rfl
    · rw [List.take_left' (by omega)]
    · rw [List.append_nil, List.take_of_length_le hle]
  · rw [if_neg ‹_›, h.resolve_left (by omega), List.append_nil]

/-- A turn goes on with the file where the last one stopped. -/
theorem readChunk_prefix (hpre : pre <+: contents) : pre ++ readChunk limit size pre.length contents <+: contents := by
  obtain ⟨rest, rfl⟩ := hpre
  rw [readChunk, List.drop_left]
  exact List.prefix_append_right_inj pre |>.mpr (List.take_prefix _ _)

theorem length_readChunk_le (hlimit : limit > 0) (off : ℕ) (contents : Text) :
    (readChunk limit size off contents).length ≤ limit.toNat - off := by
  rw [readChunk, if_pos hlimit, List.length_take]
  omega

/-- Turn by turn the loop sends what the reader gets of the file in the end. -/
theorem sendChunks_eq (hsize : 0 < size) (hgrows : (pre :: reads).IsChain (· <+: ·))
    (hlimit : limit > 0 → pre.length ≤ limit.toNat) (h : sendChunks limit size pre.length reads = some chunks) :
    pre ++ chunks.flatten = cut limit (reads.getLastD pre) := by
  induction reads generalizing pre chunks with
  | nil => cases h
  | cons contents later ih =>
    obtain ⟨hpre, hlater⟩ := List.isChain_cons_cons.mp hgrows
    rw [sendChunks] at h
    split at h
    · -- the end
      split at h
      · subst later
        obtain rfl := Option.some.inj h
        rw [List.flatten_nil, List.append_nil]
        exact eq_cut_of_readChunk hsize hpre hlimit ‹_›
      · cases h
    · -- one more chunk
      obtain ⟨chunks', hsend, rfl⟩ := Option.map_eq_some_iff.mp h
      rw [← List.length_append] at hsend
      cases later with
      | nil => cases hsend
      | cons contents' later =>
        obtain ⟨hnext, hrest⟩ := List.isChain_cons_cons.mp hlater
        have hread : pre ++ readChunk limit size pre.length contents <+: contents := readChunk_prefix hpre
        have hroom : limit > 0 → (pre ++ readChunk limit size pre.length contents).length ≤ limit.toNat := by
          intro hpos
          have hle : (readChunk limit size pre.length contents).length ≤ limit.toNat - pre.length :=
            length_readChunk_le hpos _ _
          have hpre := hlimit hpos
          rw [List.length_append]
          omega
        have heq := ih (List.isChain_cons_cons.mpr ⟨hread.trans hnext, hrest⟩) hroom hsend
        rw [List.flatten_cons, ← List.append_assoc, heq]
        rfl

/-- The loop ends on a file that stays as it is. -/
theorem sendChunks_unchanged (limit : ℤ) (size off : ℕ) (contents : Text) :
    ∃ turns chunks, sendChunks limit size off (List.replicate turns contents) = some chunks := by
  induction hn : contents.length - off using Nat.strong_induction_on generalizing off with
  | _ n ih =>
    by_cases hend : readChunk limit size off contents = []
    · exact ⟨1, [], by rw [List.replicate_one, sendChunks, if_pos hend, if_pos rfl]⟩
    · have hlen : 0 < (readChunk limit size off contents).length := List.length_pos_iff.mpr hend
      have hle : (readChunk limit size off contents).length ≤ contents.length - off := by
        rw [readChunk, ← List.length_drop]
        exact List.length_take_le' _ _
      obtain ⟨turns, chunks, hsend⟩ := ih (contents.length - (off + (readChunk limit size off contents).length))
        (by omega) _ rfl
      exact ⟨turns + 1, readChunk limit size off contents :: chunks, by
        rw [List.replicate_succ, sendChunks, if_neg hend, hsend, Option.map_some]⟩

/-! ### The stream -/

theorem readFileBytes_responses (size : ℕ) (chunks : List Text) : readFileBytes (responses size chunks) = chunks.flatten := by
  have hflat (l : List Text) : (l.filter (·.length ≠ 0)).flatten = l.flatten := by
    simpa using List.flatten_filter_ne_nil (L := l)
  rw [readFileBytes, hflat]
  cases chunks with
  | nil => rfl
  | cons first later => simp [responses, Function.comp_def]

/-- **A stream is as much of the file as the limit lets through.** -/
theorem streamFile_eq {messages : List Response} (h : streamFile cfg chunkSize path maxBytes g = .ok (some messages)) :
    readFileBytes messages = cut (readLimit cfg maxBytes) g.final := by
  rw [streamFile] at h
  split at h
  · cases h
  · obtain ⟨chunks, hsend, rfl⟩ := Option.map_eq_some_iff.mp (Except.ok.inj h)
    rw [readFileBytes_responses]
    cases hreads : g.reads with
    | nil =>
      rw [hreads] at hsend
      cases hsend
    | cons contents later =>
      have hgrows := g.grows
      rw [hreads] at hgrows hsend
      have hstart : ([] :: contents :: later).IsChain (· <+: ·) :=
        List.isChain_cons_cons.mpr ⟨List.nil_prefix, (List.isChain_cons_cons.mp hgrows).2⟩
      rw [Growth.final, hreads]
      exact sendChunks_eq (bufferSize_pos chunkSize) hstart (fun _ => Nat.zero_le _) hsend

theorem final_unchanged (contents : Text) (turns : ℕ) : (Growth.unchanged contents turns).final = contents := by
  show (List.replicate turns contents).getLastD contents = contents
  rw [List.getLastD_eq_getLast?, List.getLast?_replicate]
  split <;> rfl

/-- The helper's answer for a file that stays as it is is what its stream carries. -/
theorem readFile_stream (K : Kernel) (d : Fs) (chunkSize : ℤ) {size : ℕ}
    (h : (readFile cfg K d path maxBytes).answer = .ok (.contents size bytes)) :
    ∃ (contents : Text) (turns : ℕ) (messages : List Response),
      streamFile cfg chunkSize path maxBytes (.unchanged contents turns) = .ok (some messages) ∧
        contents.length = size ∧ readFileBytes messages = bytes := by
  rw [readFile] at h
  split at h
  · cases h
  rename_i L st hstat
  split at h
  · rename_i data hnode
    dsimp only at h
    split at h
    · cases h
    rename_i hserved
    split at h
    · cases h
    rename_i file hopen
    split at h
    · cases h
    · obtain ⟨-, hfollow, hget⟩ := Root.stat_iff.mp hstat
      obtain rfl := openRead_follow hfollow hopen
      have hdata : Extract.contents d file = data := by
        rw [Extract.contents, hget, Option.map_some, hnode]
      obtain ⟨turns, chunks, hsend⟩ := sendChunks_unchanged (readLimit cfg maxBytes) (bufferSize chunkSize) 0 data
      have hstream : streamFile cfg chunkSize path maxBytes (.unchanged data turns) =
          .ok (some (responses data.length chunks)) := by
        have hstart : (Growth.unchanged data turns).start = data := rfl
        have hreads : (Growth.unchanged data turns).reads = List.replicate turns data := rfl
        rw [streamFile, hstart, hreads, if_neg hserved, hsend, Option.map_some]
      refine ⟨data, turns, _, hstream, ?_, ?_⟩
      · injection Except.ok.inj h
      · rw [streamFile_eq hstream, final_unchanged, cut]
        rw [hdata] at h
        injection Except.ok.inj h
  · cases h

/-! ### The tab's two reads -/

/-- What is made of a stream's messages is made of a stream. -/
theorem streamed_of_map {α : Type} {f : List Response → α} {a : α} {stream : Except Error (Option (List Response))}
    (h : stream.map (Option.map f) = .ok (some a)) : ∃ messages, stream = .ok (some messages) ∧ f messages = a := by
  cases stream with
  | error err => cases h
  | ok sent =>
    obtain ⟨messages, rfl, rfl⟩ := Option.map_eq_some_iff.mp (Except.ok.inj h)
    exact ⟨messages, rfl, rfl⟩

/-- A download is whole where the file is served. -/
theorem download_whole_iff (h : downloadFile cfg chunkSize path g = .ok (some bytes)) :
    bytes = g.final ↔ Served cfg g.final := by
  obtain ⟨messages, hstream, rfl⟩ := streamed_of_map h
  rw [streamFile_eq hstream, cut_eq_self_iff]
  simp [readLimit, Served]

/-- The dialog's bound, where the helper's is not stricter. -/
theorem readLimit_of_pos (cfg : Config) (hpos : 0 < viewMaxBytes) :
    readLimit cfg viewMaxBytes =
      if 0 < cfg.maxReadBytes ∧ cfg.maxReadBytes < viewMaxBytes then cfg.maxReadBytes else viewMaxBytes := by
  rw [readLimit]
  split <;> split <;> omega

/-- The mark is right where it can be. -/
theorem view_honest_iff {dialog : ViewDialog} (hpos : 0 < viewMaxBytes)
    (h : viewFile cfg chunkSize path viewMaxBytes g = .ok (some dialog)) :
    dialog.Honest g.final ↔ Markable cfg viewMaxBytes g.final := by
  obtain ⟨messages, hstream, rfl⟩ := streamed_of_map h
  rw [ViewDialog.Honest]
  dsimp only
  rw [streamFile_eq hstream, decide_eq_true_eq, and_iff_right (cut_prefix_file _ _), ne_eq, cut_eq_self_iff,
    readLimit_of_pos cfg hpos, Markable]
  split
  · rw [length_cut (by omega)]
    omega
  · rw [length_cut hpos]
    omega

/-- **When reads are not cut short silently.** -/
theorem reads_iff {path' : Text} {dialog : ViewDialog} (hpos : 0 < viewMaxBytes)
    (hd : downloadFile cfg chunkSize path g = .ok (some bytes))
    (hv : viewFile cfg chunkSize path' viewMaxBytes g' = .ok (some dialog)) :
    (bytes = g.final ∧ dialog.Honest g'.final) ↔ Served cfg g.final ∧ Markable cfg viewMaxBytes g'.final :=
  and_congr (download_whole_iff hd) (view_honest_iff hpos hv)

/-! ### Two files -/

/-- The helper's limits with this bound on one read. -/
def readBound (maxReadBytes : ℤ) : Config := ⟨5000, maxReadBytes, 8589934592, 200000, 2147483648, 200000, 16777216⟩

/-- `ab`, to which `c` is added before it is read. -/
def grown : Growth := ⟨['a', 'b'], [['a', 'b', 'c'], ['a', 'b', 'c']], by decide⟩

/-- A file of two bytes within bounds of three is downloaded and viewed. -/
theorem reads_whole :
    ['a', 'b'] = (Growth.unchanged ['a', 'b'] 2).final ∧
      (⟨['a', 'b'], false⟩ : ViewDialog).Honest (Growth.unchanged ['a', 'b'] 2).final := by
  have hd : downloadFile (readBound 3) 0 ['f'] (.unchanged ['a', 'b'] 2) = .ok (some ['a', 'b']) := rfl
  have hv : viewFile (readBound 3) 0 ['f'] 3 (.unchanged ['a', 'b'] 2) = .ok (some ⟨['a', 'b'], false⟩) := rfl
  refine (reads_iff (by decide) hd hv).mpr ⟨.inr (by decide), ?_⟩
  rw [Markable, if_neg (by decide)]
  decide

/-- With a bound of two bytes a download stops before `c`, and a file of two bytes that is viewed whole is marked. -/
theorem reads_cut_silently :
    (downloadFile (readBound 2) 0 ['f'] grown = .ok (some ['a', 'b']) ∧ ['a', 'b'] ≠ grown.final) ∧
      viewFile (readBound 2) 0 ['f'] 2 (.unchanged ['a', 'b'] 2) = .ok (some ⟨['a', 'b'], true⟩) ∧
        ¬ (⟨['a', 'b'], true⟩ : ViewDialog).Honest (Growth.unchanged ['a', 'b'] 2).final :=
  ⟨⟨rfl, by decide⟩, rfl, fun h => (h.mp rfl).2 rfl⟩

end OpenshiftConsole.Filesystem.Helper
