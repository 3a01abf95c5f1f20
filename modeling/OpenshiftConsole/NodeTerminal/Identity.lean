import OpenshiftConsole.NodeTerminal.FileUtil
import Mathlib.Data.Nat.Digits.Defs
import Mathlib.Logic.Function.Basic

/-!
# Session identities

The node terminal gives every session an account of its own: a line in
`/etc/passwd`, `/etc/shadow` and `/etc/group` under a session name, appended when
the session is set up (`identity_write_entries_at`) and taken out again by name
when it is rolled back (`identity_remove_entries_at`). Both go through
`atomic_rewrite_file`, one file at a time.

Two results are about single sessions. A rewrite by any of the shim's transforms
is all or nothing under the condition of `rewrite_allOrNothing_iff`. Writing the
entries and removing them again restores the lines of all three files exactly
when none of those lines already starts with the session's name
(`leavesNoTrace_iff`): the code looks for the name in `passwd` only.
-/

namespace OpenshiftConsole.NodeTerminal

open OpenshiftConsole.Library.Lines

/-! ### C strings -/

/-- The smallest id reserved for sessions. -/
def SHIM_UID_RANGE_MIN : ℕ := 60000

/-- The largest id reserved for sessions. -/
def SHIM_UID_RANGE_MAX : ℕ := 65000

/-- The prefix of the names the shim makes up. -/
def SHIM_USER_PREFIX : Text := "k8s-sess-".toList

/-- Where the home directories are. -/
def SHIM_HOME_BASE : Text := "/home".toList

/-- The size of a buffer for a user name. -/
def SHIM_USERNAME_MAX : ℕ := 64

/-- The size of a buffer for a path. -/
def SHIM_PATH_MAX : ℕ := 256

/-- How many groups a session joins at most. -/
def SHIM_MAX_INHERITED_GROUPS : ℕ := 32

/-- The size of a buffer for a group name. -/
def SHIM_GROUPNAME_MAX : ℕ := 64

/-- What fits in a buffer of `size` characters, its final NUL counted. -/
def snprintf (size : ℕ) (s : Text) : Text := s.take (size - 1)

/-- A line as a C string: up to its first NUL. -/
def cstr (s : Text) : Text := s.takeWhile (· ≠ '\x00')

/-- The tokens that calls of `strtok_r` with the one delimiter `d` yield: the
non-empty pieces between delimiters. -/
def strtok (d : Char) (s : Text) : List Text := (s.splitOn d).filter (· ≠ [])

/-- C's `isspace`. -/
def isspace (c : Char) : Bool := c ∈ [' ', '\t', '\n', '\x0b', '\x0c', '\r']

/-- `strtoul(s, &end, 10)` on a 64-bit host; `none` when no digit is read or the
value is out of range. -/
def strtoul (s : Text) : Option ℕ :=
  let s := s.dropWhile isspace
  let neg := s.head? = some '-'
  let s := if s.head? = some '-' ∨ s.head? = some '+' then s.tail else s
  let ds := s.takeWhile Char.isDigit
  let v := Nat.ofDigitChars 10 ds 0
  if ds = [] then none
  else if 2 ^ 64 ≤ v then none
  else if neg then some ((2 ^ 64 - v) % 2 ^ 64) else some v

/-- `%u` and `%ld` of a number that is not negative. -/
def decimal (n : ℕ) : Text := Nat.toDigits 10 n

/-- What `fopen(path, "r")` gives. -/
inductive Opened where
  /-- `ENOENT`. -/
  | absent
  /-- Any other failure. -/
  | failed
  /-- A stream with these contents. -/
  | file (contents : Text)

/-- The stream opened on a file that can be read when it is there. -/
def openFile : Option Inode → Opened
  | none => .absent
  | some i => .file i.contents

theorem isDigit_of_mem_decimal {n : ℕ} {c : Char} (h : c ∈ decimal n) : c.isDigit = true :=
  Nat.isDigit_of_mem_toDigits (by decide) (by decide) h

theorem newline_notMem_decimal (n : ℕ) : '\n' ∉ decimal n := fun h =>
  absurd (isDigit_of_mem_decimal h) (by decide)

theorem colon_notMem_decimal (n : ℕ) : ':' ∉ decimal n := fun h =>
  absurd (isDigit_of_mem_decimal h) (by decide)

theorem decimal_ne_nil (n : ℕ) : decimal n ≠ [] := Nat.toDigits_ne_nil

theorem length_decimal_uint32 (n : UInt32) : (decimal n.toNat).length ≤ 10 :=
  (Nat.length_toDigits_le_iff (by decide) (by decide)).mpr (by have := n.toNat_lt; omega)

theorem strtoul_cons_of_isspace {c : Char} (hc : isspace c = true) (s : Text) : strtoul (c :: s) = strtoul s := by
  unfold strtoul
  rw [List.dropWhile_cons_of_pos hc]

/-- A number written out reads back, whatever comes behind it that is not a digit. -/
theorem strtoul_decimal {n : ℕ} (hn : n < 2 ^ 64) {rest : Text} (hrest : rest.head?.all (!·.isDigit)) :
    strtoul (decimal n ++ rest) = some n := by
  obtain ⟨c, cs, hd⟩ := List.exists_cons_of_ne_nil (decimal_ne_nil n)
  have hc : c.isDigit = true := isDigit_of_mem_decimal (n := n) (by rw [hd]; exact List.mem_cons_self)
  have hspace : isspace c = false := by
    by_contra h
    simp only [isspace, Bool.not_eq_false, decide_eq_true_eq, List.mem_cons, List.not_mem_nil, or_false] at h
    rcases h with rfl | rfl | rfl | rfl | rfl | rfl <;> revert hc <;> decide
  have hsign : ∀ d, d.isDigit = false → c ≠ d := fun d hd' h => by rw [h, hd'] at hc; cases hc
  have hskip : (decimal n ++ rest).dropWhile isspace = decimal n ++ rest := by
    rw [hd, List.cons_append, List.dropWhile_cons_of_neg (by simp [hspace])]
  have hhead : (decimal n ++ rest).head? = some c := by rw [hd]; rfl
  have hdigits : (decimal n ++ rest).takeWhile Char.isDigit = decimal n := by
    rw [List.takeWhile_append_of_pos fun d hd => isDigit_of_mem_decimal hd]
    cases rest with
    | nil => simp
    | cons d _ => rw [List.takeWhile_cons_of_neg (by simpa using hrest), List.append_nil]
  rw [strtoul]
  simp only [hskip, hhead, Option.some.injEq, hsign '-' (by decide), hsign '+' (by decide), or_self, if_false,
    hdigits, decimal_ne_nil]
  rw [decimal, Nat.ofDigitChars_ten_toDigits, if_neg (by omega)]

/-! ### Free ids -/

/-- The id in a line of `passwd`, as the scan reads it: the third token. -/
def uidOfLine (line : Text) : Option ℕ := ((strtok ':' (cstr line))[2]?).bind strtoul

/-- `identity_find_free_uid`. -/
def identityFindFreeUid (passwd : Opened) (rangeMin rangeMax : ℕ) : Option ℕ :=
  if rangeMax < rangeMin then none
  else
    let scan (used : List ℕ) :=
      ((List.range (rangeMax - rangeMin + 1)).map (rangeMin + ·)).find? (· ∉ used)
    match passwd with
    | .failed => none
    | .absent => scan []
    | .file s => scan ((getlines s).filterMap uidOfLine)

/-! ### The transforms -/

/-- `append_transform`: the input, its final newline supplied, and one line. -/
def appendTransform (line : Text) : AtomicTransform := fun input =>
  let s := input.getD []
  let lastWasNewline := s.getLast?.all (· = '\n')
  some (s ++ (if lastWasNewline then [] else ['\n']) ++ line ++ ['\n'])

/-- `remove_transform`: the input without the lines that start with `pre`. -/
def removeTransform (pre : Text) : AtomicTransform
  | none => some []
  | some s => some ((getlines s).filter fun l => !pre.isPrefixOf l).flatten

/-- The four fields of a group line, as `split_group_line` finds them. -/
structure GroupLine where
  /-- The first token. -/
  name : Text
  /-- The second token. -/
  passwd : Text
  /-- The third token. -/
  gid : Text
  /-- The fourth token, if there is one. -/
  members : Option Text

/-- `split_group_line`. -/
def splitGroupLine (lineCopy : Text) : Option GroupLine :=
  match strtok ':' (chomp lineCopy) with
  | name :: passwd :: gid :: rest => some ⟨name, passwd, gid, rest.head?⟩
  | _ => none

/-- `strncat` into the 2048 characters of `newmembers`. -/
def strncatMembers (acc s : Text) : Text := acc ++ s.take (2048 - acc.length - 1)

/-- One more member behind those already there. -/
def addMember (acc tok : Text) : Text :=
  strncatMembers (if acc = [] then acc else strncatMembers acc [',']) tok

/-- The member list `group_member_transform` writes for a group: the old one
without `username` when it is to be absent, with it when it is to be present. -/
def newMembers (members : Option Text) (username : Text) (add : Bool) : Text :=
  let toks := (members.map (strtok ',')).getD []
  let acc := (toks.filter fun tok => !(tok = username && !add)).foldl addMember []
  if add && !toks.contains username then addMember acc username else acc

/-- What `group_member_transform` writes for one line. -/
def groupMemberLine (groupName username : Text) (add : Bool) (line : Text) : Text :=
  if (groupName ++ [':']).isPrefixOf line then
    match splitGroupLine (cstr line) with
    | none => line
    | some g =>
      g.name ++ ':' :: g.passwd ++ ':' :: g.gid ++ ':' :: newMembers g.members username add ++ ['\n']
  else line

/-- `group_member_transform`. -/
def groupMemberTransform (groupName username : Text) (add : Bool) : AtomicTransform
  | none => some []
  | some s => some ((getlines s).map (groupMemberLine groupName username add)).flatten

/-- The transforms `atomic_rewrite_file` is used with, with their data. -/
inductive Transform where
  /-- `append_transform`. -/
  | append (line : Text)
  /-- `remove_transform`. -/
  | remove (pre : Text)
  /-- `group_member_transform`. -/
  | groupMember (groupName username : Text) (add : Bool)

/-- The function a transform is. -/
def Transform.fn : Transform → AtomicTransform
  | .append line => appendTransform line
  | .remove pre => removeTransform pre
  | .groupMember g u add => groupMemberTransform g u add

/-- None of the transforms aborts a rewrite. -/
theorem Transform.fn_ne_none (t : Transform) (input : Option Text) : t.fn input ≠ none := by
  cases t <;> cases input <;> simp [Transform.fn, appendTransform, removeTransform, groupMemberTransform]

/-- **A rewrite of a host file is all or nothing** exactly when one of its steps
reports a failure, or the target has the mode and owner of the temporary file and
neither an unreadable or cut-short input nor a lost early write changes what the
transform leaves. -/
theorem rewrite_allOrNothing_iff (shim : ℕ × ℕ) (fl : Faults) (t : Transform) (path : Option Inode) :
    AllOrNothing t.fn path (atomicRewriteFile shim fl t.fn path) ↔
      fl.Reported ∨
        ((t.fn (fl.seen path)).map fl.kept = t.fn (path.map (·.contents)) ∧
          ∀ i ∈ path, i.mode = fl.tmpMode ∧ i.uid = shim.1 ∧ i.gid = shim.2) := by
  rw [allOrNothing_iff]
  simp [t.fn_ne_none]

/-- The shadow file of a host, `root:shadow` and not readable by others, comes out of
a rewrite in which nothing fails with mode `0644` and group `root`. -/
theorem rewrite_publishes_shadow :
    ¬ AllOrNothing (Transform.append "k8s-sess-0badcafe:!:20000:0:99999:7:::".toList).fn
      (some ⟨"root:*:19000:0:99999:7:::\n".toList, 0o640, 0, 42⟩)
      (atomicRewriteFile (0, 0) Faults.none (Transform.append "k8s-sess-0badcafe:!:20000:0:99999:7:::".toList).fn
        (some ⟨"root:*:19000:0:99999:7:::\n".toList, 0o640, 0, 42⟩)) := by
  rw [allOrNothing_iff]
  decide

/-! ### Names -/

/-- A lower-case hexadecimal digit. -/
def isLowerHex (c : Char) : Bool := c.isDigit || ('a' ≤ c && c ≤ 'f')

/-- C's `islower`. -/
def islower (c : Char) : Bool := 'a' ≤ c && c ≤ 'z'

/-- `identity_valid_username`. -/
def identityValidUsername : Text → Bool
  | [] => false
  | c0 :: rest =>
    if rest.length + 1 > SHIM_USERNAME_MAX - 1 then false
    else if !(islower c0 || c0 = '_') then false
    else rest.all fun c => islower c || c.isDigit || c = '_' || c = '-'

/-- A session id: eight lower-case hexadecimal digits, as `fileutil_gen_random_hex`
makes them. -/
abbrev SessionId := { s : Text // s.length = 8 ∧ s.all isLowerHex = true }

/-- A login shell: a C string that fits in the `shell` buffer of a session. -/
abbrev Shell := { s : Text // s.length ≤ SHIM_PATH_MAX - 1 ∧ '\x00' ∉ s }

/-- The shell of a session for which no other is found. -/
def defaultShell : Shell := ⟨"/bin/sh".toList, by decide⟩

/-- The name the shim makes up for a session. -/
def fallbackName (sid : SessionId) : Text := SHIM_USER_PREFIX ++ sid.val

theorem isUsernameChar_of_isLowerHex {c : Char} (hc : isLowerHex c = true) :
    (islower c || c.isDigit || c = '_' || c = '-') = true := by
  simp only [isLowerHex, islower, Bool.or_eq_true, Bool.and_eq_true, decide_eq_true_eq] at hc ⊢
  rcases hc with h | ⟨h1, h2⟩
  · exact Or.inl (Or.inl (Or.inr h))
  · exact Or.inl (Or.inl (Or.inl ⟨h1, Char.le_trans h2 (by decide)⟩))

theorem validUsername_fallbackName (sid : SessionId) : identityValidUsername (fallbackName sid) = true := by
  obtain ⟨s, hlen, hhex⟩ := sid
  rw [List.all_eq_true] at hhex
  show (if ("8s-sess-".toList ++ s).length + 1 > SHIM_USERNAME_MAX - 1 then false
    else if !(islower 'k' || 'k' = '_') then false
    else ("8s-sess-".toList ++ s).all fun c => islower c || c.isDigit || c = '_' || c = '-') = true
  have hfit : ("8s-sess-".toList ++ s).length + 1 = 17 := by rw [List.length_append, hlen]; rfl
  rw [hfit, if_neg (by decide), if_neg (by decide), List.all_append, Bool.and_eq_true]
  exact ⟨by decide, List.all_eq_true.mpr fun c hc => isUsernameChar_of_isLowerHex (hhex c hc)⟩

/-- The part of `session_ctx_t` that names a session. The name is always one that
`identity_valid_username` accepts: the requested one, or the one made up. -/
structure SessionCtx where
  /-- The random id. -/
  sessionId : SessionId
  /-- The account's name. -/
  username : Text
  /-- The name is valid. -/
  valid : identityValidUsername username = true
  /-- The account's shell. -/
  shell : Shell

/-- The home directory: `main` and `identity_resolve_username` both derive it from the name. -/
def SessionCtx.homeDir (ctx : SessionCtx) : Text := SHIM_HOME_BASE ++ '/' :: ctx.username

/-- The name and id `main` starts with: the requested user if it is a valid name. -/
def mainCtx (requested : Option Text) (sid : SessionId) (shell : Shell) : SessionCtx :=
  match requested with
  | none => ⟨sid, fallbackName sid, validUsername_fallbackName sid, shell⟩
  | some u =>
    if h : identityValidUsername u = true then ⟨sid, u, h, shell⟩
    else ⟨sid, fallbackName sid, validUsername_fallbackName sid, shell⟩

/-- `identity_username_exists_at`. -/
def identityUsernameExistsAt (passwd : Opened) (username : Text) : Bool :=
  match passwd with
  | .file s => (getlines s).any fun line => (username ++ [':']).isPrefixOf line
  | _ => false

/-- `identity_resolve_username`. -/
def identityResolveUsername (passwd : Opened) (ctx : SessionCtx) : SessionCtx :=
  if identityUsernameExistsAt passwd ctx.username then
    { ctx with username := fallbackName ctx.sessionId, valid := validUsername_fallbackName ctx.sessionId }
  else ctx

/-- The group a line is about, if the user is one of its members. -/
def supplementaryGroup (username line : Text) : Option Text :=
  (splitGroupLine (cstr line)).bind fun g =>
    g.members.bind fun members =>
      if (strtok ',' members).contains username then some (snprintf SHIM_GROUPNAME_MAX g.name) else none

/-- `identity_find_supplementary_groups_at`. -/
def identityFindSupplementaryGroupsAt (group : Opened) (username : Text) (maxNames : ℕ) : Option (List Text) :=
  match group with
  | .failed => none
  | .absent => some []
  | .file s => some (((getlines s).filterMap (supplementaryGroup username)).take maxNames)

/-- The groups that `identity_inherit_groups` has the session join: those of the
reference user, if there is a valid one. -/
def groupsToInherit (group : Opened) (referenceUser : Option Text) : List Text :=
  match referenceUser with
  | none => []
  | some u =>
    if identityValidUsername u then
      (identityFindSupplementaryGroupsAt group u SHIM_MAX_INHERITED_GROUPS).getD []
    else []

/-! ### Entries -/

/-- The three files of accounts. -/
inductive EtcFile where
  /-- `/etc/passwd`. -/
  | passwd
  /-- `/etc/shadow`. -/
  | shadow
  /-- `/etc/group`. -/
  | group
  deriving DecidableEq

/-- The account files of a host. -/
abbrev EtcFiles := EtcFile → Option Inode

/-- What a host's account file says, line by line. -/
def EtcFiles.lines (f : EtcFiles) (k : EtcFile) : List Text :=
  match f k with
  | none => []
  | some i => fileLines i.contents

/-- `atomic_rewrite_file` on one of the account files. -/
def EtcFiles.rewrite (f : EtcFiles) (shim : ℕ × ℕ) (fl : Faults) (fn : AtomicTransform) (k : EtcFile) :
    ℤ × EtcFiles :=
  let r := atomicRewriteFile shim fl fn (f k)
  (r.1, Function.update f k r.2)

/-- The line a session has in one of the files, `days` after the epoch. -/
def entryLine (username : Text) (uid gid : ℕ) (homeDir shell : Text) (days : ℕ) : EtcFile → Text
  | .passwd => snprintf 512 (username ++ ":x:".toList ++ decimal uid ++ ':' :: decimal gid ++
      ":node-terminal ephemeral session:".toList ++ homeDir ++ ':' ::
      (if shell = [] then "/bin/sh".toList else shell))
  | .shadow => snprintf 512 (username ++ ":!:".toList ++ decimal days ++ ":0:99999:7:::".toList)
  | .group => snprintf 512 (username ++ ":x:".toList ++ decimal gid ++ [':'])

/-- What a session's lines start with, as the removal spells it. -/
def entryPrefix (username : Text) : Text := snprintf (SHIM_USERNAME_MAX + 1) (username ++ [':'])

/-- The rewrites that writing a session's entries may make. -/
inductive WriteCall where
  /-- The entry of one file. -/
  | entry (k : EtcFile)
  /-- Taking the entry of one file out again after another has failed. -/
  | undo (failed k : EtcFile)
  deriving DecidableEq

/-- `identity_write_entries_at`, with the faults of each of its rewrites. -/
def identityWriteEntriesAt (shim : ℕ × ℕ) (fl : WriteCall → Faults) (f : EtcFiles) (username : Text)
    (uid gid : ℕ) (homeDir shell : Text) (days : ℕ) : ℤ × EtcFiles :=
  let line := entryLine username uid gid homeDir shell days
  let rm := removeTransform (entryPrefix username)
  let (rc, f) := f.rewrite shim (fl (.entry .passwd)) (appendTransform (line .passwd)) .passwd
  if rc ≠ 0 then (-1, f)
  else
    let (rc, f) := f.rewrite shim (fl (.entry .group)) (appendTransform (line .group)) .group
    if rc ≠ 0 then
      let (_, f) := f.rewrite shim (fl (.undo .group .passwd)) rm .passwd
      (-1, f)
    else
      let (rc, f) := f.rewrite shim (fl (.entry .shadow)) (appendTransform (line .shadow)) .shadow
      if rc ≠ 0 then
        let (_, f) := f.rewrite shim (fl (.undo .shadow .passwd)) rm .passwd
        let (_, f) := f.rewrite shim (fl (.undo .shadow .group)) rm .group
        (-1, f)
      else (0, f)

/-- `identity_remove_entries_at`, with the faults of each of its rewrites. -/
def identityRemoveEntriesAt (shim : ℕ × ℕ) (fl : EtcFile → Faults) (f : EtcFiles) (username : Text) :
    ℤ × EtcFiles :=
  let rm := removeTransform (entryPrefix username)
  let (rc1, f) := f.rewrite shim (fl .passwd) rm .passwd
  let (rc2, f) := f.rewrite shim (fl .shadow) rm .shadow
  let (rc3, f) := f.rewrite shim (fl .group) rm .group
  (if rc1 ≠ 0 ∨ rc2 ≠ 0 ∨ rc3 ≠ 0 then -1 else 0, f)

/-! ### One file -/

theorem appendTransform_eq (line : Text) (input : Option Text) :
    appendTransform line input = some (terminate (input.getD []) ++ (line ++ ['\n'])) := by
  simp only [appendTransform, terminate]
  cases hl : (input.getD []).getLast? with
  | none => simp [List.getLast?_eq_none_iff.mp hl]
  | some c =>
    by_cases hc : c = '\n'
    · simp [hc]
    · have hne : input.getD [] ≠ [] := by intro h; simp [h] at hl
      simp [hc, hne]

theorem removeTransform_eq (pre : Text) (input : Option Text) :
    removeTransform pre input =
      some ((getlines (input.getD [])).filter fun l => !pre.isPrefixOf l).flatten := by
  cases input <;> rfl

/-- The lines left by a removal. -/
theorem fileLines_remove {pre : Text} (hpre : '\n' ∉ pre) (s : Text) :
    fileLines ((getlines s).filter fun l => !pre.isPrefixOf l).flatten =
      (fileLines s).filter fun l => !pre.isPrefixOf l := by
  apply fileLines_filter
  intro l
  congr 1
  rw [Bool.eq_iff_iff, List.isPrefixOf_iff_prefix, List.isPrefixOf_iff_prefix]
  exact prefix_chomp_iff hpre

/-- A list is kept by a filter and a second list removed exactly when every element
of the one passes and none of the other does. -/
theorem filter_append_filter_eq_iff {α : Type*} (p : α → Bool) (l m : List α) :
    l.filter p ++ m.filter p = l ↔ (∀ a ∈ l, p a = true) ∧ ∀ a ∈ m, p a = false := by
  constructor
  · intro h
    have hl : ∀ a ∈ l, p a = true := by
      intro a ha
      rw [← h, ← List.filter_append] at ha
      exact (List.mem_filter.mp ha).2
    rw [List.filter_eq_self.mpr hl, List.append_right_eq_self, List.filter_eq_nil_iff] at h
    exact ⟨hl, fun a ha => by simpa using h a ha⟩
  · rintro ⟨hl, hm⟩
    rw [List.filter_eq_self.mpr hl, List.filter_eq_nil_iff.mpr fun a ha => by simp [hm a ha], List.append_nil]

theorem mem_strtok {d : Char} {s t : Text} (h : t ∈ strtok d s) : t ≠ [] ∧ d ∉ t := by
  constructor
  · simpa using (List.mem_filter.mp h).2
  · exact notMem_of_mem_splitOn (List.mem_of_mem_filter h)

/-- The groups that are inherited have their names from lines of groups. -/
theorem of_mem_groupsToInherit {group : Opened} {referenceUser : Option Text} {g : Text}
    (hg : g ∈ groupsToInherit group referenceUser) :
    ∃ line gl, splitGroupLine (cstr line) = some gl ∧ g = snprintf SHIM_GROUPNAME_MAX gl.name := by
  unfold groupsToInherit at hg
  split at hg
  · cases hg
  · split at hg
    · unfold identityFindSupplementaryGroupsAt at hg
      split at hg
      · cases hg
      · cases hg
      · obtain ⟨line, -, hline⟩ := List.mem_filterMap.mp (List.mem_of_mem_take hg)
        simp only [supplementaryGroup, Option.bind_eq_some_iff] at hline
        obtain ⟨gl, hgl, members, -, hname⟩ := hline
        split at hname
        · cases hname
          exact ⟨line, gl, hgl, rfl⟩
        · cases hname
    · cases hg

/-- The fields of a group line are tokens of it. -/
theorem splitGroupLine_mem {l : Text} {g : GroupLine} (h : splitGroupLine l = some g) :
    g.name ∈ strtok ':' (chomp l) ∧ g.passwd ∈ strtok ':' (chomp l) ∧ g.gid ∈ strtok ':' (chomp l) ∧
      ∀ ms ∈ g.members, ms ∈ strtok ':' (chomp l) := by
  rw [splitGroupLine] at h
  split at h
  · next name passwd gid rest heq =>
    cases h
    rw [heq]
    refine ⟨by simp, by simp, by simp, fun ms hms => ?_⟩
    have := List.mem_of_mem_head? hms
    simp [this]
  · cases h

theorem colon_notMem_groupsToInherit {group : Opened} {referenceUser : Option Text} {g : Text}
    (hg : g ∈ groupsToInherit group referenceUser) : ':' ∉ g := by
  obtain ⟨line, gl, hgl, rfl⟩ := of_mem_groupsToInherit hg
  exact fun hc => (mem_strtok (splitGroupLine_mem hgl).1).2 (List.mem_of_mem_take hc)

theorem mem_of_mem_strtok {d c : Char} {s t : Text} (ht : t ∈ strtok d s) (hc : c ∈ t) : c ∈ s :=
  mem_of_mem_splitOn (List.mem_of_mem_filter ht) hc

theorem mem_strncatMembers {acc s : Text} {c : Char} (hc : c ∈ strncatMembers acc s) : c ∈ acc ∨ c ∈ s :=
  (List.mem_append.mp hc).imp_right List.mem_of_mem_take

theorem mem_addMember {acc tok : Text} {c : Char} (hc : c ∈ addMember acc tok) : c ∈ acc ∨ c = ',' ∨ c ∈ tok := by
  rcases mem_strncatMembers hc with hc | hc
  · split at hc
    · exact Or.inl hc
    · rcases mem_strncatMembers hc with hc | hc
      · exact Or.inl hc
      · exact Or.inr (Or.inl (by simpa using hc))
  · exact Or.inr (Or.inr hc)

theorem mem_foldl_addMember {toks : List Text} {acc : Text} {c : Char} (hc : c ∈ toks.foldl addMember acc) :
    c ∈ acc ∨ c = ',' ∨ ∃ t ∈ toks, c ∈ t := by
  induction toks generalizing acc with
  | nil => exact Or.inl hc
  | cons t ts ih =>
    rcases ih hc with h | h | ⟨t', ht', h⟩
    · rcases mem_addMember h with h | h | h
      · exact Or.inl h
      · exact Or.inr (Or.inl h)
      · exact Or.inr (Or.inr ⟨t, List.mem_cons_self, h⟩)
    · exact Or.inr (Or.inl h)
    · exact Or.inr (Or.inr ⟨t', List.mem_cons_of_mem t ht', h⟩)

/-- The member list a group gets is made of the old one, commas and the name. -/
theorem mem_newMembers {members : Option Text} {username : Text} {add : Bool} {c : Char}
    (hc : c ∈ newMembers members username add) : (∃ ms ∈ members, c ∈ ms) ∨ c = ',' ∨ c ∈ username := by
  have hkept {p : Text → Bool} (hc : c ∈ (((members.map (strtok ',')).getD []).filter p).foldl addMember []) :
      (∃ ms ∈ members, c ∈ ms) ∨ c = ',' := by
    rcases mem_foldl_addMember hc with h | h | ⟨t, ht, h⟩
    · cases h
    · exact Or.inr h
    · cases members with
      | none => cases ht
      | some ms => exact Or.inl ⟨ms, rfl, mem_of_mem_strtok (List.mem_of_mem_filter ht) h⟩
  unfold newMembers at hc
  simp only at hc
  split at hc
  · rcases mem_addMember hc with h | h | h
    · exact (hkept h).imp_right Or.inl
    · exact Or.inr (Or.inl h)
    · exact Or.inr (Or.inr h)
  · exact (hkept hc).imp_right Or.inl

/-- A line is left alone or written anew with its newline. -/
theorem groupMemberLine_terminated {groupName username : Text} {add : Bool} (hu : '\n' ∉ username) (l : Text) :
    groupMemberLine groupName username add l = l ∨ Terminated (groupMemberLine groupName username add l) := by
  rw [groupMemberLine]
  split
  · split
    · exact Or.inl rfl
    · next g hg =>
      obtain ⟨h1, h2, h3, h4⟩ := splitGroupLine_mem hg
      have htok : ∀ t ∈ strtok ':' (chomp (cstr l)), '\n' ∉ t := fun t ht hc =>
        newline_notMem_chomp _ (mem_of_mem_strtok ht hc)
      have hmembers : '\n' ∉ newMembers g.members username add := by
        intro hc
        rcases mem_newMembers hc with ⟨ms, hms, h⟩ | h | h
        · exact htok ms (h4 ms hms) h
        · exact absurd h (by decide)
        · exact hu h
      refine Or.inr ⟨_, ?_, rfl⟩
      simp [htok _ h1, htok _ h2, htok _ h3, hmembers]
  · exact Or.inl rfl

/-! ### All three files, when nothing fails -/

/-- What an account file holds: nothing when it is absent. -/
def EtcFiles.contents (f : EtcFiles) (k : EtcFile) : Text := ((f k).map (·.contents)).getD []

theorem EtcFiles.lines_eq (f : EtcFiles) (k : EtcFile) : f.lines k = fileLines (f.contents k) := by
  rw [EtcFiles.lines, EtcFiles.contents]
  cases f k <;> rfl

theorem rewrite_append (f : EtcFiles) (shim : ℕ × ℕ) (line : Text) (k : EtcFile) :
    f.rewrite shim Faults.none (appendTransform line) k = (0, Function.update f k
      (some ⟨terminate (f.contents k) ++ (line ++ ['\n']), 0o644, shim.1, shim.2⟩)) := by
  simp only [EtcFiles.rewrite, atomicRewriteFile_none (appendTransform_eq line _), EtcFiles.contents]

theorem rewrite_remove (f : EtcFiles) (shim : ℕ × ℕ) (pre : Text) (k : EtcFile) :
    f.rewrite shim Faults.none (removeTransform pre) k = (0, Function.update f k
      (some ⟨((getlines (f.contents k)).filter fun l => !pre.isPrefixOf l).flatten, 0o644, shim.1, shim.2⟩)) := by
  simp only [EtcFiles.rewrite, atomicRewriteFile_none (removeTransform_eq pre _), EtcFiles.contents]

theorem contents_update_self (f : EtcFiles) (k : EtcFile) (i : Inode) :
    EtcFiles.contents (Function.update f k (some i)) k = i.contents := by
  simp [EtcFiles.contents]

theorem contents_update_of_ne (f : EtcFiles) {k k' : EtcFile} (h : k' ≠ k) (i : Option Inode) :
    EtcFiles.contents (Function.update f k i) k' = f.contents k' := by
  simp [EtcFiles.contents, Function.update_of_ne h]

/-- Writing the entries puts one line behind each file. -/
theorem identityWriteEntriesAt_none (shim : ℕ × ℕ) (f : EtcFiles) (username : Text) (uid gid : ℕ)
    (homeDir shell : Text) (days : ℕ) (k : EtcFile) :
    (identityWriteEntriesAt shim (fun _ => Faults.none) f username uid gid homeDir shell days).2.contents k =
      terminate (f.contents k) ++ (entryLine username uid gid homeDir shell days k ++ ['\n']) := by
  simp only [identityWriteEntriesAt, rewrite_append, ne_eq, not_true_eq_false, if_false]
  cases k <;> simp [contents_update_self, contents_update_of_ne]

/-- Removing the entries drops the lines that start with the name. -/
theorem identityRemoveEntriesAt_none (shim : ℕ × ℕ) (f : EtcFiles) (username : Text) (k : EtcFile) :
    (identityRemoveEntriesAt shim (fun _ => Faults.none) f username).2.contents k =
      ((getlines (f.contents k)).filter fun l => !(entryPrefix username).isPrefixOf l).flatten := by
  simp only [identityRemoveEntriesAt, rewrite_remove]
  cases k <;> simp [contents_update_self, contents_update_of_ne]

/-! ### The entries of a valid name -/

theorem validUsername_cons_iff (c0 : Char) (rest : Text) :
    identityValidUsername (c0 :: rest) = true ↔ rest.length ≤ 62 ∧ (islower c0 || c0 = '_') = true ∧
      (rest.all fun c => islower c || c.isDigit || c = '_' || c = '-') = true := by
  have hfit : (rest.length + 1 > SHIM_USERNAME_MAX - 1) ↔ ¬ rest.length ≤ 62 := by
    simp only [SHIM_USERNAME_MAX]; omega
  simp only [identityValidUsername, hfit]
  by_cases h : rest.length ≤ 62 <;> cases h0 : islower c0 || decide (c0 = '_') <;> simp [h]

theorem validUsername_length {u : Text} (h : identityValidUsername u = true) : u.length ≤ 63 := by
  cases u with
  | nil => simp
  | cons c0 rest =>
    have := ((validUsername_cons_iff c0 rest).mp h).1
    rw [List.length_cons]
    omega

/-- The characters of a valid name. -/
theorem validUsername_mem {u : Text} (h : identityValidUsername u = true) {c : Char} (hc : c ∈ u) :
    (islower c || c.isDigit || c = '_' || c = '-') = true := by
  cases u with
  | nil => simp at hc
  | cons c0 rest =>
    obtain ⟨-, h0, hrest⟩ := (validUsername_cons_iff c0 rest).mp h
    rcases List.mem_cons.mp hc with rfl | hc
    · rcases (Bool.or_eq_true _ _).mp h0 with h | h <;> simp [h]
    · exact List.all_eq_true.mp hrest c hc

theorem newline_notMem_username {u : Text} (h : identityValidUsername u = true) : '\n' ∉ u := fun hc =>
  absurd (validUsername_mem h hc) (by decide)

theorem colon_notMem_username {u : Text} (h : identityValidUsername u = true) : ':' ∉ u := fun hc =>
  absurd (validUsername_mem h hc) (by decide)

theorem entryPrefix_eq {u : Text} (h : identityValidUsername u = true) : entryPrefix u = u ++ [':'] := by
  have := validUsername_length h
  exact List.take_of_length_le (by simp [SHIM_USERNAME_MAX]; omega)

theorem newline_notMem_entryPrefix {u : Text} (h : identityValidUsername u = true) : '\n' ∉ entryPrefix u := by
  rw [entryPrefix_eq h]
  simp [newline_notMem_username h]

/-- The name that a line starts with is its own. -/
theorem eq_of_common_start {u v l : Text} (hu : ':' ∉ u) (hv : ':' ∉ v) (h : u ++ [':'] <+: l)
    (h' : v ++ [':'] <+: l) : u = v := by
  have hfirst : ∀ {w : Text}, ':' ∉ w → w ++ [':'] <+: l → l.takeWhile (· ≠ ':') = w := by
    rintro w hw ⟨t, rfl⟩
    have hne : ∀ c ∈ w, decide (c ≠ ':') = true := fun c hc => decide_eq_true fun h => hw (h ▸ hc)
    rw [List.append_assoc, List.takeWhile_append_of_pos hne, List.singleton_append,
      List.takeWhile_cons_of_neg (by simp), List.append_nil]
  exact (hfirst hu h).symm.trans (hfirst hv h')

/-- Nothing is cut off the `passwd` line of a session. -/
theorem passwdLine_eq (ctx : SessionCtx) (uid gid : UInt32) (days : ℕ) :
    entryLine ctx.username uid.toNat gid.toNat ctx.homeDir ctx.shell.val days .passwd =
      ctx.username ++ ":x:".toList ++ decimal uid.toNat ++ ':' :: decimal gid.toNat ++
        ":node-terminal ephemeral session:".toList ++ ctx.homeDir ++ ':' ::
        (if ctx.shell.val = [] then "/bin/sh".toList else ctx.shell.val) := by
  have h1 := validUsername_length ctx.valid
  have h2 := length_decimal_uint32 uid
  have h3 := length_decimal_uint32 gid
  have h4 := ctx.shell.property.1
  have h5 : (if ctx.shell.val = [] then "/bin/sh".toList else ctx.shell.val).length ≤ 255 := by
    split
    · decide
    · exact h4
  apply List.take_of_length_le
  simp only [SessionCtx.homeDir, SHIM_HOME_BASE, List.length_append, List.length_cons,
    show "/home".toList.length = 5 from rfl, show ":x:".toList.length = 3 from rfl,
    show ":node-terminal ephemeral session:".toList.length = 33 from rfl]
  omega

/-- Of a line whose first three fields are not empty the scan reads the third. -/
theorem uidOfLine_of_fields {a b c line : Text} (h : ∀ t ∈ [a, b, c], t ≠ [] ∧ ':' ∉ t ∧ '\x00' ∉ t)
    (hl : a ++ ':' :: (b ++ ':' :: (c ++ [':'])) <+: line) : uidOfLine line = strtoul c := by
  obtain ⟨rest, rfl⟩ := hl
  obtain ⟨⟨ha, hac, ha0⟩, ⟨hb, hbc, hb0⟩, hc, hcc, hc0⟩ := by simpa only [List.forall_mem_cons, List.not_mem_nil,
    IsEmpty.forall_iff, implies_true, and_true] using h
  have hnul : '\x00' ∉ a ++ ':' :: (b ++ ':' :: (c ++ [':'])) := by simp [ha0, hb0, hc0]
  have hcstr : cstr (a ++ ':' :: (b ++ ':' :: (c ++ [':'])) ++ rest) =
      a ++ ':' :: (b ++ ':' :: (c ++ ':' :: cstr rest)) := by
    rw [cstr, List.takeWhile_append_of_pos fun x hx => by simpa using ne_of_mem_of_not_mem hx hnul]
    simp [cstr]
  rw [uidOfLine, hcstr, strtok, List.splitOn_append_cons_self_of_not_mem hac,
    List.splitOn_append_cons_self_of_not_mem hbc, List.splitOn_append_cons_self_of_not_mem hcc,
    List.filter_cons_of_pos (by simpa using ha), List.filter_cons_of_pos (by simpa using hb),
    List.filter_cons_of_pos (by simpa using hc)]
  rfl

/-- The scan finds the id of a line that starts as a session's line in `passwd` does. -/
theorem uidOfLine_of_prefix {u : Text} (hu : identityValidUsername u = true) {uid : ℕ} (huid : uid < 2 ^ 64)
    {line : Text} (h : u ++ ":x:".toList ++ decimal uid ++ [':'] <+: line) : uidOfLine line = some uid := by
  have hfields : ∀ t ∈ [u, ['x'], decimal uid], t ≠ [] ∧ ':' ∉ t ∧ '\x00' ∉ t := by
    simp only [List.forall_mem_cons, List.not_mem_nil, IsEmpty.forall_iff, implies_true, and_true]
    refine ⟨⟨?_, colon_notMem_username hu, fun hc => absurd (validUsername_mem hu hc) (by decide)⟩, by decide,
      decimal_ne_nil uid, colon_notMem_decimal uid, fun hc => absurd (isDigit_of_mem_decimal hc) (by decide)⟩
    rintro rfl
    cases hu
  have hread : strtoul (decimal uid ++ []) = some uid := strtoul_decimal huid rfl
  rw [List.append_nil] at hread
  rw [uidOfLine_of_fields hfields (by simpa using h), hread]

/-- The ids that the scan reads off the lines of `passwd`. -/
def scannedUids (passwd : Option Inode) : List ℕ :=
  (getlines ((passwd.map (·.contents)).getD [])).filterMap uidOfLine

theorem identityFindFreeUid_openFile (passwd : Option Inode) {lo hi : ℕ} (h : lo ≤ hi) :
    identityFindFreeUid (openFile passwd) lo hi =
      ((List.range (hi - lo + 1)).map (lo + ·)).find? (· ∉ scannedUids passwd) := by
  rw [identityFindFreeUid, if_neg h.not_gt]
  cases passwd <;> rfl

/-- The id that is found is the smallest of the range that the scan reads off no line. -/
theorem identityFindFreeUid_eq_some_iff {passwd : Option Inode} {lo hi uid : ℕ} :
    identityFindFreeUid (openFile passwd) lo hi = some uid ↔
      IsLeast {id | id ∈ Set.Icc lo hi ∧ id ∉ scannedUids passwd} uid := by
  rcases Nat.lt_or_ge hi lo with hlt | hle
  · rw [identityFindFreeUid, if_pos hlt]
    refine iff_of_false nofun fun h => ?_
    obtain ⟨⟨hlo, hhi⟩, -⟩ := h.1
    omega
  rw [identityFindFreeUid_openFile passwd hle, List.find?_map, Option.map_eq_some_iff]
  simp only [List.find?_range_eq_some, Function.comp_apply, decide_eq_true_eq, List.mem_range, decide_not,
    Bool.not_eq_true', decide_eq_false_iff_not, Bool.not_eq_false']
  constructor
  · rintro ⟨k, ⟨hfree, hk, hbelow⟩, rfl⟩
    refine ⟨⟨⟨by omega, by omega⟩, hfree⟩, fun id ⟨⟨hlo, hhi⟩, hid⟩ => ?_⟩
    by_contra hlt
    refine hid ?_
    have hmem := hbelow (id - lo) (by omega)
    rwa [Nat.add_sub_cancel' hlo] at hmem
  · rintro ⟨⟨⟨hlo, hhi⟩, hfree⟩, hleast⟩
    refine ⟨uid - lo, ⟨?_, by omega, fun k hk => ?_⟩, by omega⟩
    · rwa [Nat.add_sub_cancel' hlo]
    · by_contra hid
      have hle := hleast ⟨⟨Nat.le_add_right lo k, by omega⟩, hid⟩
      omega

/-- No id is found when the scan reads the whole range. -/
theorem identityFindFreeUid_eq_none_iff {passwd : Option Inode} {lo hi : ℕ} :
    identityFindFreeUid (openFile passwd) lo hi = none ↔ ∀ id ∈ Set.Icc lo hi, id ∈ scannedUids passwd := by
  rcases Nat.lt_or_ge hi lo with hlt | hle
  · rw [identityFindFreeUid, if_pos hlt]
    refine iff_of_true rfl fun id ⟨hlo, hhi⟩ => ?_
    omega
  rw [identityFindFreeUid_openFile passwd hle, List.find?_eq_none]
  simp only [List.mem_map, List.mem_range, decide_eq_true_eq, not_not, forall_exists_index, and_imp]
  constructor
  · intro h id ⟨hlo, hhi⟩
    exact h id (id - lo) (by omega) (by omega)
  · rintro h id k hk rfl
    exact h _ ⟨Nat.le_add_right lo k, by omega⟩

/-- A free id is in the range and in no line of `passwd`. -/
theorem identityFindFreeUid_eq_some {passwd : Option Inode} {lo hi uid : ℕ}
    (h : identityFindFreeUid (openFile passwd) lo hi = some uid) :
    (lo ≤ uid ∧ uid ≤ hi) ∧ ∀ l ∈ getlines ((passwd.map (·.contents)).getD []), uidOfLine l ≠ some uid := by
  obtain ⟨⟨hrange, hfree⟩, -⟩ := identityFindFreeUid_eq_some_iff.mp h
  exact ⟨hrange, fun l hl heq => hfree (List.mem_filterMap.mpr ⟨l, hl, heq⟩)⟩

/-- The lines of a text that starts with `b` on its first line. -/
theorem fileLines_append_of_notMem {b : Text} (hb : '\n' ∉ b) (s : Text) :
    ∃ l, fileLines (b ++ (s ++ ['\n'])) = (b ++ l) :: (fileLines (s ++ ['\n'])).tail := by
  by_cases hs : '\n' ∈ s
  · obtain ⟨s₁, s₂, rfl, hs₁⟩ := List.eq_append_cons_of_mem hs
    refine ⟨s₁, ?_⟩
    have hbs : '\n' ∉ b ++ s₁ := by simp [hb, hs₁]
    rw [show b ++ (s₁ ++ '\n' :: s₂ ++ ['\n']) = (b ++ s₁) ++ '\n' :: (s₂ ++ ['\n']) by simp,
      show s₁ ++ '\n' :: s₂ ++ ['\n'] = s₁ ++ '\n' :: (s₂ ++ ['\n']) by simp]
    simp only [fileLines, getlines_line_append hbs, getlines_line_append hs₁, List.map_cons,
      List.tail_cons, chomp_append_newline hbs]
  · refine ⟨s, ?_⟩
    rw [← List.append_assoc, fileLines_line (by simp [hb, hs]), fileLines_line hs]
    rfl

/-- A line made of a name, a colon and more, cut to its buffer, starts with the name. -/
theorem entryPrefix_prefix_snprintf {u : Text} (h : identityValidUsername u = true) (rest : Text) :
    entryPrefix u <+: snprintf 512 (u ++ ':' :: rest) := by
  rw [entryPrefix_eq h, snprintf, List.prefix_take_iff]
  refine ⟨⟨rest, by simp⟩, ?_⟩
  have := validUsername_length h
  simp only [List.length_append, List.length_singleton]
  omega

theorem fileLines_snprintf {u : Text} (h : identityValidUsername u = true) {rest : Text} (hrest : '\n' ∉ rest) :
    fileLines (snprintf 512 (u ++ ':' :: rest) ++ ['\n']) = [snprintf 512 (u ++ ':' :: rest)] := by
  refine fileLines_line fun hc => ?_
  have := List.mem_of_mem_take hc
  simp [newline_notMem_username h, hrest] at this

/-- An entry is a name, a colon and more, cut to its buffer. -/
theorem entryLine_eq_snprintf (u : Text) (uid gid : ℕ) (home shell : Text) (days : ℕ) (k : EtcFile) :
    ∃ rest, entryLine u uid gid home shell days k = snprintf 512 (u ++ ':' :: rest) ∧
      (k ≠ .passwd → '\n' ∉ rest) := by
  cases k with
  | passwd =>
    refine ⟨"x:".toList ++ decimal uid ++ ':' :: decimal gid ++ ":node-terminal ephemeral session:".toList ++
      home ++ ':' :: (if shell = [] then "/bin/sh".toList else shell), ?_, fun h => absurd rfl h⟩
    rw [entryLine, show ":x:".toList = ':' :: "x:".toList from rfl]
    simp only [List.append_assoc, List.cons_append]
  | shadow =>
    refine ⟨"!:".toList ++ decimal days ++ ":0:99999:7:::".toList, ?_, fun _ => ?_⟩
    · rw [entryLine, show ":!:".toList = ':' :: "!:".toList from rfl]
      simp only [List.append_assoc, List.cons_append]
    · simp [newline_notMem_decimal]
  | group =>
    refine ⟨"x:".toList ++ decimal gid ++ [':'], ?_, fun _ => ?_⟩
    · rw [entryLine, show ":x:".toList = ':' :: "x:".toList from rfl]
      simp only [List.append_assoc, List.cons_append]
    · simp [newline_notMem_decimal]

/-- An entry starts with the name. -/
theorem entryPrefix_prefix_entryLine {u : Text} (h : identityValidUsername u = true) (uid gid : ℕ)
    (home shell : Text) (days : ℕ) (k : EtcFile) : entryPrefix u <+: entryLine u uid gid home shell days k := by
  obtain ⟨rest, heq, -⟩ := entryLine_eq_snprintf u uid gid home shell days k
  rw [heq]
  exact entryPrefix_prefix_snprintf h rest

/-- The entry of `shadow` and of `group` is one line. -/
theorem fileLines_entryLine {u : Text} (h : identityValidUsername u = true) (uid gid : ℕ) (home shell : Text)
    (days : ℕ) {k : EtcFile} (hk : k ≠ .passwd) :
    fileLines (entryLine u uid gid home shell days k ++ ['\n']) = [entryLine u uid gid home shell days k] := by
  obtain ⟨rest, heq, hrest⟩ := entryLine_eq_snprintf u uid gid home shell days k
  rw [heq]
  exact fileLines_snprintf h (hrest hk)

/-- The lines of the entry of `passwd`: one that starts with the name, and those that
newlines in the shell make. -/
theorem entryLine_passwd (ctx : SessionCtx) (uid gid : UInt32) (days : ℕ) :
    ∃ l, entryPrefix ctx.username <+: l ∧
      fileLines (entryLine ctx.username uid.toNat gid.toNat ctx.homeDir ctx.shell.val days .passwd ++ ['\n']) =
        l :: (fileLines (ctx.shell.val ++ ['\n'])).tail := by
  have hn := newline_notMem_username ctx.valid
  set base := ctx.username ++ ":x:".toList ++ decimal uid.toNat ++ ':' :: decimal gid.toNat ++
    ":node-terminal ephemeral session:".toList ++ ctx.homeDir ++ [':'] with hbase
  have hb : '\n' ∉ base := by
    simp only [hbase, SessionCtx.homeDir, List.mem_append, List.mem_cons, not_or]
    exact ⟨⟨⟨⟨⟨⟨hn, by decide⟩, newline_notMem_decimal _⟩, by decide, newline_notMem_decimal _⟩, by decide⟩,
      by decide, by decide, hn⟩, by decide, by simp⟩
  obtain ⟨l, hl⟩ := fileLines_append_of_notMem hb
    (if ctx.shell.val = [] then "/bin/sh".toList else ctx.shell.val)
  refine ⟨base ++ l, ?_, ?_⟩
  · rw [entryPrefix_eq ctx.valid, hbase]
    exact ⟨"x:".toList ++ decimal uid.toNat ++ ':' :: decimal gid.toNat ++
      ":node-terminal ephemeral session:".toList ++ ctx.homeDir ++ [':'] ++ l,
      by simp only [List.append_assoc, show ":x:".toList = [':'] ++ "x:".toList from rfl]⟩
  · rw [passwdLine_eq]
    have hsplit : ctx.username ++ ":x:".toList ++ decimal uid.toNat ++ ':' :: decimal gid.toNat ++
        ":node-terminal ephemeral session:".toList ++ ctx.homeDir ++ ':' ::
        (if ctx.shell.val = [] then "/bin/sh".toList else ctx.shell.val) ++ ['\n'] =
        base ++ ((if ctx.shell.val = [] then "/bin/sh".toList else ctx.shell.val) ++ ['\n']) := by
      simp only [hbase, List.append_assoc, List.cons_append, List.nil_append]
    rw [hsplit, hl]
    congr 1
    split
    · next he => rw [he]; rfl
    · rfl

/-! ### A session leaves no trace -/

/-- Resolving the name, writing the entries and removing them again leaves all three
files with the lines they had. -/
def LeavesNoTrace (shim : ℕ × ℕ) (f : EtcFiles) (ctx : SessionCtx) (uid gid : UInt32) (days : ℕ) : Prop :=
  let ctx' := identityResolveUsername (openFile (f .passwd)) ctx
  let w := identityWriteEntriesAt shim (fun _ => Faults.none) f ctx'.username uid.toNat gid.toNat
    ctx'.homeDir ctx'.shell.val days
  let r := identityRemoveEntriesAt shim (fun _ => Faults.none) w.2 ctx'.username
  ∀ k, r.2.lines k = f.lines k

theorem lines_written_removed (shim : ℕ × ℕ) (f : EtcFiles) (ctx : SessionCtx) (uid gid : UInt32)
    (days : ℕ) (k : EtcFile) :
    let w := identityWriteEntriesAt shim (fun _ => Faults.none) f ctx.username uid.toNat gid.toNat
      ctx.homeDir ctx.shell.val days
    (identityRemoveEntriesAt shim (fun _ => Faults.none) w.2 ctx.username).2.lines k =
      ((f.lines k).filter fun l => !(entryPrefix ctx.username).isPrefixOf l) ++
        (fileLines (entryLine ctx.username uid.toNat gid.toNat ctx.homeDir ctx.shell.val days k ++ ['\n'])).filter
          fun l => !(entryPrefix ctx.username).isPrefixOf l := by
  intro w
  rw [EtcFiles.lines_eq, identityRemoveEntriesAt_none, fileLines_remove (newline_notMem_entryPrefix ctx.valid),
    identityWriteEntriesAt_none, fileLines_terminate_append, List.filter_append, ← EtcFiles.lines_eq]

theorem identityResolveUsername_shell (passwd : Opened) (ctx : SessionCtx) :
    (identityResolveUsername passwd ctx).shell = ctx.shell := by
  rw [identityResolveUsername]
  split <;> rfl

/-- **A session leaves no trace** exactly when no line of the three files starts with
the name it settles on and every further line that newlines in its shell put into
`passwd` does. -/
theorem leavesNoTrace_iff (shim : ℕ × ℕ) (f : EtcFiles) (ctx : SessionCtx) (uid gid : UInt32) (days : ℕ) :
    LeavesNoTrace shim f ctx uid gid days ↔
      let name := (identityResolveUsername (openFile (f .passwd)) ctx).username
      (∀ k, ∀ l ∈ f.lines k, ¬ (name ++ [':']) <+: l) ∧
        ∀ l ∈ (fileLines (ctx.shell.val ++ ['\n'])).tail, (name ++ [':']) <+: l := by
  set ctx' := identityResolveUsername (openFile (f .passwd)) ctx with hctx'
  have hshell : ctx.shell = ctx'.shell := (identityResolveUsername_shell _ ctx).symm
  have hfile (k : EtcFile) := lines_written_removed shim f ctx' uid gid days k
  simp only [LeavesNoTrace, ← hctx', hfile, filter_append_filter_eq_iff, ← entryPrefix_eq ctx'.valid]
  simp only [Bool.not_eq_true', ← Bool.not_eq_true, List.isPrefixOf_iff_prefix, not_not]
  obtain ⟨l, hl, hlines⟩ := entryLine_passwd ctx' uid gid days
  constructor
  · intro h
    refine ⟨fun k => (h k).1, fun m hm => (h .passwd).2 m ?_⟩
    rw [hlines, ← hshell]
    exact List.mem_cons_of_mem _ hm
  · rintro ⟨hold, hshl⟩ k
    refine ⟨hold k, fun m hm => ?_⟩
    by_cases hk : k = .passwd
    · subst hk
      rw [hlines, ← hshell] at hm
      rcases List.mem_cons.mp hm with rfl | hm
      · exact hl
      · exact hshl m hm
    · rw [fileLines_entryLine ctx'.valid _ _ _ _ _ hk, List.mem_singleton] at hm
      exact hm ▸ entryPrefix_prefix_entryLine ctx'.valid _ _ _ _ _ k

/-- A host with a group but no user `docker`. -/
def dockerHost : EtcFiles
  | .passwd => some ⟨"root:x:0:0:root:/root:/bin/bash\n".toList, 0o644, 0, 0⟩
  | .shadow => some ⟨"root:*:19000:0:99999:7:::\n".toList, 0o640, 0, 42⟩
  | .group => some ⟨"root:x:0:\ndocker:x:998:alice,bob\n".toList, 0o644, 0, 0⟩

/-- The session of a console user called `docker`. -/
def dockerCtx : SessionCtx := mainCtx (some "docker".toList) ⟨"0badcafe".toList, by decide⟩ defaultShell

/-- The session of a user called `docker` takes the host's group of that name with it. -/
theorem docker_session_removes_group : ¬ LeavesNoTrace (0, 0) dockerHost dockerCtx 60000 60000 20000 := by
  intro h
  exact absurd (h .group) (by decide)

end OpenshiftConsole.NodeTerminal
