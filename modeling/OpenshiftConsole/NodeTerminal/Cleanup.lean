import OpenshiftConsole.NodeTerminal.Identity
import Mathlib.Data.List.Nodup

/-!
# The session sweep

When a session ends, `cleanup_full_sweep` kills what is left of it in three
passes: the session's process group, then every process of the session's user,
then every process that refers to the session's home directory by its working
directory, its executable, an open file or a mapped file. The passes read `/proc`,
which is modelled with its texts: the status file, the link targets and the lines
of `maps` as the kernel writes them.

The last pass decides by strings: a link target refers to the home directory when
it starts with its characters, a line of `maps` when what follows its last blank
does. `cleanupFullSweep_exact_iff` says for which process tables this kills exactly
the session's processes.
-/

namespace OpenshiftConsole.NodeTerminal

open OpenshiftConsole.Library.Lines

/-! ### What `/proc` shows -/

/-- The status file of a process, as far as the line of its user ids. -/
structure StatusFile where
  /-- The lines before that line. -/
  before : List Text
  /-- They are lines, and none is taken for it. -/
  before_ok : ∀ l ∈ before, '\n' ∉ l ∧ ¬ "Uid:".toList <+: l
  /-- The real user id. -/
  ruid : UInt32
  /-- The other ids, and the lines after. -/
  after : Text

/-- The file's text. -/
def StatusFile.text (s : StatusFile) : Text :=
  (s.before.map (· ++ ['\n'])).flatten ++ ("Uid:\t".toList ++ (decimal s.ruid.toNat ++ '\t' :: s.after))

/-- A mapping of a process. -/
structure Mapping where
  /-- Address range, permissions, offset, device and inode, and the blanks behind them. -/
  header : Text
  /-- It ends in a blank. -/
  header_blank : header.getLast? = some ' '
  /-- It is part of a line. -/
  header_line : '\n' ∉ header
  /-- The path of the mapped file, or nothing. -/
  path : Text

/-- A path as the kernel writes it into `maps`: on one line. -/
def seqEscape (path : Text) : Text := path.flatMap fun c => if c = '\n' then "\\012".toList else [c]

/-- A line of `maps`. -/
def Mapping.line (m : Mapping) : Text := m.header ++ seqEscape m.path ++ ['\n']

/-- A process, as `/proc/<pid>` shows it. A link that cannot be read is `none`. -/
structure Process where
  /-- Its id. -/
  pid : ℕ
  /-- Its process group. -/
  pgid : ℤ
  /-- `status`. -/
  status : StatusFile
  /-- What `cwd` links to. -/
  cwd : Option Text
  /-- What `exe` links to. -/
  exe : Option Text
  /-- What the links in `fd` lead to. -/
  fds : List Text
  /-- `maps`. -/
  mappings : List Mapping

/-- The text of `maps`. -/
def Process.maps (p : Process) : Text := (p.mappings.map Mapping.line).flatten

/-- An entry of `/proc`: a process directory, or something else. -/
structure DirEntry where
  /-- `d_name`. -/
  name : Text
  /-- The process of this directory. -/
  process : Option Process

/-- `is_all_digits`. -/
def isAllDigits (s : Text) : Bool := s ≠ [] && s.all Char.isDigit

/-- `atoi` of a name that is all digits. -/
def atoi (s : Text) : ℕ := Nat.ofDigitChars 10 s 0

/-- The directory `/proc`: the names made of digits are those of the processes. -/
structure ProcFs where
  /-- Its entries, in the order `readdir` gives them. -/
  entries : List DirEntry
  /-- A process directory has its id for a name, and nothing else is all digits. -/
  named : ∀ e ∈ entries, match e.process with
    | some p => e.name = decimal p.pid
    | none => isAllDigits e.name = false
  /-- No name occurs twice. -/
  distinct : (entries.map (·.name)).Nodup

/-- The processes of the node. -/
def ProcFs.processes (fs : ProcFs) : List Process := fs.entries.filterMap (·.process)

/-- `/proc` after some processes have left it. -/
def ProcFs.without (fs : ProcFs) (left : ℕ → Bool) : ProcFs where
  entries := fs.entries.filter fun e => !e.process.any fun p => left p.pid
  named e he := fs.named e (List.mem_of_mem_filter he)
  distinct := fs.distinct.sublist (List.filter_sublist.map _)

/-! ### The passes -/

/-- `cleanup_kill_pgid`: the processes signalled. -/
def cleanupKillPgid (fs : ProcFs) (pgid : ℤ) : List ℕ :=
  if pgid ≤ 1 then []
  else (fs.processes.filter fun p => p.pgid = pgid).map (·.pid)

/-- `parse_uid_from_status`. -/
def parseUidFromStatus (status : Text) : Option ℕ :=
  ((getlines status).find? fun l => "Uid:".toList.isPrefixOf l).bind fun l => strtoul (l.drop 4)

/-- A pass over the process directories of `/proc`: the processes signalled. -/
def killMatching (fs : ProcFs) (wanted : Process → Bool) : List ℕ :=
  (fs.entries.filter fun e => isAllDigits e.name && e.process.any wanted).map fun e => atoi e.name

/-- `cleanup_kill_by_uid`. -/
def cleanupKillByUid (fs : ProcFs) (uid : UInt32) : List ℕ :=
  killMatching fs fun p => parseUidFromStatus p.status.text = some uid.toNat

/-- `link_target_has_prefix`: the target is read into a buffer of 4096. -/
def linkTargetHasPrefix (link : Option Text) (pre : Text) : Bool :=
  link.any fun target => pre.isPrefixOf (target.take 4095)

/-- What follows the last blank of a line, its newline taken off; `none` without a blank. -/
def pathField (line : Text) : Option Text :=
  if ' ' ∈ line then
    let f := (line.reverse.takeWhile (· ≠ ' ')).reverse
    some (if f.getLast? = some '\n' then f.dropLast else f)
  else none

/-- `maps_reference_prefix`. -/
def mapsReferencePrefix (maps pre : Text) : Bool :=
  (getlines maps).any fun line => (pathField line).any fun f => pre.isPrefixOf f

/-- `pid_references_path_prefix`. -/
def pidReferencesPathPrefix (p : Process) (pre : Text) : Bool :=
  linkTargetHasPrefix p.cwd pre || linkTargetHasPrefix p.exe pre ||
    p.fds.any (fun target => linkTargetHasPrefix (some target) pre) || mapsReferencePrefix p.maps pre

/-- `cleanup_kill_by_path_ref`. -/
def cleanupKillByPathRef (fs : ProcFs) (pathPrefix : Text) : List ℕ :=
  killMatching fs fun p => pidReferencesPathPrefix p pathPrefix

/-- `cleanup_full_sweep`: the processes signalled, pass after pass. Of those signalled
before a pass, `reaped` says which have left `/proc` when it runs. -/
def cleanupFullSweep (fs : ProcFs) (reaped : ℕ → ℕ → Bool) (pgid : ℤ) (uid : UInt32) (homeDir : Text) :
    List ℕ :=
  let byPgid := cleanupKillPgid fs pgid
  let byUid := cleanupKillByUid (fs.without fun pid => pid ∈ byPgid && reaped 1 pid) uid
  let byPath := cleanupKillByPathRef (fs.without fun pid => pid ∈ byPgid ++ byUid && reaped 2 pid) homeDir
  byPgid ++ byUid ++ byPath

/-! ### What the passes see -/

theorem isAllDigits_decimal (n : ℕ) : isAllDigits (decimal n) = true := by
  simp only [isAllDigits, Bool.and_eq_true, decide_eq_true_eq]
  exact ⟨decimal_ne_nil n, List.all_eq_true.mpr fun c hc => isDigit_of_mem_decimal hc⟩

theorem atoi_decimal (n : ℕ) : atoi (decimal n) = n := Nat.ofDigitChars_ten_toDigits

theorem ProcFs.mem_processes {fs : ProcFs} {p : Process} :
    p ∈ fs.processes ↔ ⟨decimal p.pid, some p⟩ ∈ fs.entries := by
  simp only [ProcFs.processes, List.mem_filterMap]
  constructor
  · rintro ⟨⟨name, proc⟩, he, rfl⟩
    have hname : name = decimal p.pid := fs.named _ he
    exact hname ▸ he
  · exact fun he => ⟨_, he, rfl⟩

/-- No two processes have the same id. -/
theorem ProcFs.pid_inj {fs : ProcFs} {p q : Process} (hp : p ∈ fs.processes) (hq : q ∈ fs.processes)
    (h : p.pid = q.pid) : p = q := by
  rw [ProcFs.mem_processes] at hp hq
  have := List.inj_on_of_nodup_map fs.distinct hp hq (by rw [h])
  exact Option.some_inj.mp (congrArg DirEntry.process this)

theorem ProcFs.mem_processes_without {fs : ProcFs} {left : ℕ → Bool} {p : Process} :
    p ∈ (fs.without left).processes ↔ p ∈ fs.processes ∧ left p.pid = false := by
  simp [ProcFs.mem_processes, ProcFs.without]

/-- A pass over `/proc` signals the processes it looks for. -/
theorem mem_killMatching {fs : ProcFs} {wanted : Process → Bool} {pid : ℕ} :
    pid ∈ killMatching fs wanted ↔ ∃ p ∈ fs.processes, p.pid = pid ∧ wanted p = true := by
  simp only [killMatching, List.mem_map, List.mem_filter, Bool.and_eq_true]
  constructor
  · rintro ⟨⟨name, proc⟩, ⟨he, -, hw⟩, rfl⟩
    cases proc with
    | none => cases hw
    | some p =>
      have hname : name = decimal p.pid := fs.named _ he
      subst hname
      exact ⟨p, ProcFs.mem_processes.mpr he, (atoi_decimal _).symm, hw⟩
  · rintro ⟨p, hp, rfl, hw⟩
    exact ⟨_, ⟨ProcFs.mem_processes.mp hp, isAllDigits_decimal _, hw⟩, atoi_decimal _⟩

/-- The user id in a status file is the real one. -/
theorem parseUidFromStatus_text (s : StatusFile) : parseUidFromStatus s.text = some s.ruid.toNat := by
  have hbefore : ∀ l ∈ s.before.map (· ++ ['\n']), Terminated l := by
    rintro l hl
    obtain ⟨b, hb, rfl⟩ := List.mem_map.mp hl
    exact ⟨b, (s.before_ok b hb).1, rfl⟩
  have hskip : ∀ l ∈ s.before.map (· ++ ['\n']), "Uid:".toList.isPrefixOf l ≠ true := by
    rintro l hl hpre
    obtain ⟨b, hb, rfl⟩ := List.mem_map.mp hl
    rw [List.isPrefixOf_iff_prefix, ← prefix_chomp_iff (by decide), chomp_append_newline (s.before_ok b hb).1] at hpre
    exact (s.before_ok b hb).2 hpre
  -- the line of the ids: nothing in front of the tab behind the first id is a newline
  obtain ⟨l, ls, hline⟩ := getlines_append_of_notMem (b := "Uid:\t".toList ++ (decimal s.ruid.toNat ++ ['\t']))
    (by simp [newline_notMem_decimal]) (by simp) s.after
  rw [List.append_assoc, List.append_assoc, List.singleton_append] at hline
  rw [parseUidFromStatus, StatusFile.text, getlines_append_of_terminated hbefore, hline, List.find?_append,
    List.find?_eq_none.mpr hskip, Option.none_or, List.find?_cons_of_pos (by rfl), Option.bind_some]
  show strtoul ('\t' :: (decimal s.ruid.toNat ++ ['\t'] ++ l)) = _
  rw [strtoul_cons_of_isspace (by decide), List.append_assoc, strtoul_decimal]
  · have := s.ruid.toNat_lt
    omega
  · rfl

/-! ### References -/

/-- What follows the last blank of a path: all of it when there is none. -/
def afterLastBlank (path : Text) : Text := (path.reverse.takeWhile (· ≠ ' ')).reverse

/-- The part of a line of `maps` that is compared: what follows the last blank of the path. -/
theorem pathField_line (m : Mapping) : pathField m.line = some (afterLastBlank (seqEscape m.path)) := by
  obtain ⟨h, hh⟩ := List.getLast?_eq_some_iff.mp m.header_blank
  have hblank : ' ' ∈ m.line := by simp [Mapping.line, hh]
  have hrev : m.line.reverse = '\n' :: ((seqEscape m.path).reverse ++ ' ' :: h.reverse) := by
    simp [Mapping.line, hh]
  have htake : ((seqEscape m.path).reverse ++ ' ' :: h.reverse).takeWhile (· ≠ ' ') =
      (seqEscape m.path).reverse.takeWhile (· ≠ ' ') := by
    rw [List.takeWhile_append]
    split
    · next hall =>
      rw [List.takeWhile_cons_of_neg (by simp), List.append_nil]
      exact (List.Sublist.eq_of_length (List.takeWhile_sublist _) hall).symm
    · rfl
  unfold pathField afterLastBlank
  rw [if_pos hblank, hrev, List.takeWhile_cons_of_pos (by decide), htake]
  simp

theorem terminated_mapping_line (m : Mapping) : Terminated m.line := by
  refine ⟨m.header ++ seqEscape m.path, ?_, rfl⟩
  simp only [List.mem_append, not_or, seqEscape, List.mem_flatMap, not_exists, not_and]
  refine ⟨m.header_line, fun c _ => ?_⟩
  split
  · decide
  · next h => simpa using Ne.symm h

/-- The lines of `maps` are those of the mappings. -/
theorem getlines_maps (p : Process) : getlines p.maps = p.mappings.map Mapping.line := by
  have h : ∀ l ∈ p.mappings.map Mapping.line, Terminated l := by
    intro l hl
    obtain ⟨m, -, rfl⟩ := List.mem_map.mp hl
    exact terminated_mapping_line m
  have := getlines_append_of_terminated h []
  simpa [Process.maps] using this

/-- The link targets of a process. -/
def Process.links (p : Process) : List Text := p.cwd.toList ++ p.exe.toList ++ p.fds

/-- What a process refers to: its working directory, executable, open files and mapped files. -/
def Process.references (p : Process) : List Text := p.links ++ p.mappings.map (·.path)

/-- The last pass takes a process by a link that starts with the characters of the
directory, or by a mapped path whose part behind the last blank does. -/
theorem pidReferencesPathPrefix_iff (p : Process) (pre : Text) :
    pidReferencesPathPrefix p pre = true ↔
      (∃ t ∈ p.links, pre <+: t.take 4095) ∨
        ∃ m ∈ p.mappings, pre <+: afterLastBlank (seqEscape m.path) := by
  have hlink (o : Option Text) : linkTargetHasPrefix o pre = true ↔ ∃ t ∈ o.toList, pre <+: t.take 4095 := by
    cases o <;> simp [linkTargetHasPrefix]
  have hmaps : mapsReferencePrefix p.maps pre = true ↔
      ∃ m ∈ p.mappings, pre <+: afterLastBlank (seqEscape m.path) := by
    simp [mapsReferencePrefix, getlines_maps, pathField_line]
  simp only [pidReferencesPathPrefix, Bool.or_eq_true, List.any_eq_true, hlink, hmaps, Process.links,
    List.mem_append, or_and_right, exists_or]
  simp

/-! ### The sweep kills the session's processes -/

/-- What fits in the `home_dir` buffer of a session. -/
abbrev HomeDir := { s : Text // s.length ≤ SHIM_PATH_MAX - 1 }

/-- The path is the directory or lies below it. -/
def AtOrBelow (dir path : Text) : Prop :=
  path = dir ∨ (if dir.getLast? = some '/' then dir else dir ++ ['/']) <+: path

instance (dir path : Text) : Decidable (AtOrBelow dir path) := by unfold AtOrBelow; infer_instance

theorem AtOrBelow.starts {dir path : Text} (h : AtOrBelow dir path) : dir <+: path := by
  rcases h with rfl | h
  · exact List.prefix_rfl
  · split at h
    · exact h
    · exact (List.prefix_append dir ['/']).trans h

/-- The process is one of the session's. -/
def Process.Belongs (p : Process) (pgid : ℤ) (uid : UInt32) (homeDir : Text) : Prop :=
  p.pgid = pgid ∨ p.status.ruid = uid ∨ ∃ r ∈ p.references, AtOrBelow homeDir r

/-- The processes signalled are exactly the session's. -/
def SweepExact (fs : ProcFs) (signalled : List ℕ) (pgid : ℤ) (uid : UInt32) (homeDir : Text) : Prop :=
  ∀ pid, pid ∈ signalled ↔ ∃ p ∈ fs.processes, p.pid = pid ∧ p.Belongs pgid uid homeDir

theorem mem_cleanupKillPgid (fs : ProcFs) {pgid : ℤ} (hpgid : 1 < pgid) (pid : ℕ) :
    pid ∈ cleanupKillPgid fs pgid ↔ ∃ p ∈ fs.processes, p.pid = pid ∧ p.pgid = pgid := by
  rw [cleanupKillPgid, if_neg (by omega)]
  simp only [List.mem_map, List.mem_filter, decide_eq_true_eq]
  exact exists_congr fun p => by tauto

theorem mem_cleanupKillByUid {fs : ProcFs} {uid : UInt32} {pid : ℕ} :
    pid ∈ cleanupKillByUid fs uid ↔ ∃ p ∈ fs.processes, p.pid = pid ∧ p.status.ruid = uid := by
  simp only [cleanupKillByUid, mem_killMatching, parseUidFromStatus_text, Option.some.injEq, UInt32.toNat_inj,
    decide_eq_true_eq]

/-- The sweep signals what one of its passes looks for, whichever processes are gone
by the time of the later ones. -/
theorem mem_cleanupFullSweep (fs : ProcFs) (reaped : ℕ → ℕ → Bool) {pgid : ℤ} (hpgid : 1 < pgid) (uid : UInt32)
    (homeDir : Text) (pid : ℕ) :
    pid ∈ cleanupFullSweep fs reaped pgid uid homeDir ↔ ∃ p ∈ fs.processes, p.pid = pid ∧
      (p.pgid = pgid ∨ p.status.ruid = uid ∨ pidReferencesPathPrefix p homeDir = true) := by
  simp only [cleanupFullSweep, List.mem_append]
  set byPgid := cleanupKillPgid fs pgid with hpg
  set byUid := cleanupKillByUid (fs.without fun pid => pid ∈ byPgid && reaped 1 pid) uid with hby
  have h1 := mem_cleanupKillPgid fs hpgid pid
  rw [← hpg] at h1
  have h2 : pid ∈ byUid ↔ ∃ p ∈ fs.processes, (p.pid ∈ byPgid && reaped 1 p.pid) = false ∧
      p.pid = pid ∧ p.status.ruid = uid := by
    rw [hby, mem_cleanupKillByUid]
    simp only [ProcFs.mem_processes_without, and_assoc]
  rw [cleanupKillByPathRef, mem_killMatching]
  simp only [ProcFs.mem_processes_without, and_assoc]
  constructor
  · rintro ((h | h) | ⟨p, hp, -, rfl, hw⟩)
    · obtain ⟨p, hp, rfl, hg⟩ := h1.mp h
      exact ⟨p, hp, rfl, Or.inl hg⟩
    · obtain ⟨p, hp, -, rfl, hu⟩ := h2.mp h
      exact ⟨p, hp, rfl, Or.inr (Or.inl hu)⟩
    · exact ⟨p, hp, rfl, Or.inr (Or.inr hw)⟩
  · rintro ⟨p, hp, rfl, hw⟩
    by_cases hg : p.pid ∈ byPgid
    · exact Or.inl (Or.inl hg)
    by_cases hu : p.pid ∈ byUid
    · exact Or.inl (Or.inr hu)
    refine Or.inr ⟨p, hp, by simp [hg, hu], rfl, ?_⟩
    rcases hw with hw | hw | hw
    · exact absurd (h1.mpr ⟨p, hp, rfl, hw⟩) hg
    · exact absurd (h2.mpr ⟨p, hp, by simp [hg], rfl, hw⟩) hu
    · exact hw

/-- **The sweep kills exactly the session's processes** when, of the other users'
processes outside the group that have no link at or below the home directory, those
with a mapped file there are the ones with a link that starts with its characters or
with a mapped path whose part behind the last blank does. -/
theorem cleanupFullSweep_exact_iff (fs : ProcFs) (reaped : ℕ → ℕ → Bool) {pgid : ℤ} (hpgid : 1 < pgid)
    (uid : UInt32) (home : HomeDir) :
    SweepExact fs (cleanupFullSweep fs reaped pgid uid home.val) pgid uid home.val ↔
      ∀ p ∈ fs.processes, p.pgid ≠ pgid → p.status.ruid ≠ uid → (∀ t ∈ p.links, ¬ AtOrBelow home.val t) →
        ((∃ m ∈ p.mappings, AtOrBelow home.val m.path) ↔
          (∃ t ∈ p.links, home.val <+: t) ∨ ∃ m ∈ p.mappings, home.val <+: afterLastBlank (seqEscape m.path)) := by
  obtain ⟨home, hlen⟩ := home
  have hfits (t : Text) : home <+: t.take 4095 ↔ home <+: t := by
    rw [List.prefix_take_iff]
    simp only [SHIM_PATH_MAX] at hlen
    exact ⟨And.left, fun h => ⟨h, by omega⟩⟩
  have hrefs (p : Process) : (∃ r ∈ p.references, AtOrBelow home r) ↔
      (∃ t ∈ p.links, AtOrBelow home t) ∨ ∃ m ∈ p.mappings, AtOrBelow home m.path := by
    simp [Process.references, or_and_right, exists_or]
  simp only [SweepExact, mem_cleanupFullSweep fs reaped hpgid, Process.Belongs, hrefs,
    pidReferencesPathPrefix_iff, hfits]
  constructor
  · intro h p hp hg hu hlinks
    have hnone : ¬ ∃ t ∈ p.links, AtOrBelow home t := fun ⟨t, ht, hb⟩ => hlinks t ht hb
    have := h p.pid
    constructor
    · intro hm
      obtain ⟨q, hq, hpid, hw⟩ := this.mpr ⟨p, hp, rfl, Or.inr (Or.inr (Or.inr hm))⟩
      obtain rfl := ProcFs.pid_inj hq hp hpid
      exact (hw.resolve_left hg).resolve_left hu
    · intro hw
      obtain ⟨q, hq, hpid, hb⟩ := this.mp ⟨p, hp, rfl, Or.inr (Or.inr hw)⟩
      obtain rfl := ProcFs.pid_inj hq hp hpid
      exact ((hb.resolve_left hg).resolve_left hu).resolve_left hnone
  · intro h pid
    refine exists_congr fun p => and_congr_right fun hp => and_congr_right fun _ => ?_
    by_cases hg : p.pgid = pgid
    · simp [hg]
    by_cases hu : p.status.ruid = uid
    · simp [hu]
    by_cases hlinks : ∃ t ∈ p.links, AtOrBelow home t
    · obtain ⟨t, ht, hb⟩ := hlinks
      exact iff_of_true (Or.inr (Or.inr (Or.inl ⟨t, ht, hb.starts⟩))) (Or.inr (Or.inr (Or.inl ⟨t, ht, hb⟩)))
    · have := h p hp hg hu fun t ht hb => hlinks ⟨t, ht, hb⟩
      simp only [hg, hu, hlinks, false_or, this]

/-- A process of another user, at home in `/home/alice`. -/
def aliceProcess : Process where
  pid := 900
  pgid := 900
  status := ⟨["Name:\tbash".toList], by decide, 1000, "1000\t1000\t1000\n".toList⟩
  cwd := some "/home/alice".toList
  exe := some "/usr/bin/bash".toList
  fds := []
  mappings := []

/-- A node on which only that process runs. -/
def aliceNode : ProcFs where
  entries := [⟨"900".toList, some aliceProcess⟩]
  named e he := by
    rw [List.mem_singleton.mp he]
    decide
  distinct := by decide

/-- The end of the session of a user called `al` kills the processes of `alice`. -/
theorem al_session_kills_alice :
    ¬ SweepExact aliceNode (cleanupFullSweep aliceNode (fun _ _ => true) 500 60000 "/home/al".toList) 500 60000
      "/home/al".toList := by
  intro h
  obtain ⟨p, hp, -, hb⟩ := (h 900).mp (by decide)
  obtain rfl : p = aliceProcess := by simpa [ProcFs.processes, aliceNode] using hp
  rcases hb with hb | hb | hb <;> revert hb <;> decide

/-- The end of a session in `/home/k8s-sess-0badcafe` leaves them alone. -/
theorem cleanupFullSweep_exact_other_home :
    SweepExact aliceNode
      (cleanupFullSweep aliceNode (fun _ _ => true) 500 60000 "/home/k8s-sess-0badcafe".toList) 500 60000
      "/home/k8s-sess-0badcafe".toList :=
  (cleanupFullSweep_exact_iff aliceNode (fun _ _ => true) (by decide) 60000
    ⟨"/home/k8s-sess-0badcafe".toList, by decide⟩).mpr fun p hp _ _ _ => by
      obtain rfl : p = aliceProcess := by simpa [ProcFs.processes, aliceNode] using hp
      decide

end OpenshiftConsole.NodeTerminal
