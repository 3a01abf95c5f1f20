import OpenshiftConsole.Library.Runs
import OpenshiftConsole.NodeTerminal.Identity

/-!
# Sessions side by side

Any number of pipelines run on one node, each through the identity steps of
`pipeline_run`: resolve the name, take the uid lock and choose a uid, rewrite
`passwd`, `group` and `shadow`, join the reference user's groups, release the lock,
run, and roll back file by file. One rewrite of one file is one step, since
`atomic_rewrite_file` locks the file and replaces it by a rename; the steps of
different sessions interleave in any order, and a rewrite may report a failure.

The name is looked up long before the line that claims it is written, so two
sessions can settle on one name. `sessions_keep_identities` says that this is all
that can go wrong: in a run in which no session settles on a name that another one
still holds, or joins a group that has the name of a session, sessions that are up
have names and uids of their own and keep their lines.
-/

namespace OpenshiftConsole.NodeTerminal.Sessions

open OpenshiftConsole.Library.Lines OpenshiftConsole.Library.Runs

/-! ### Lines that stay -/

/-- The transform leaves the line where it is. -/
def Keeps (fn : AtomicTransform) (l : Text) : Prop :=
  ∀ input out, fn input = some out → l ∈ fileLines (input.getD []) → l ∈ fileLines out

theorem keeps_append (line l : Text) : Keeps (appendTransform line) l := by
  intro input out h hl
  rw [appendTransform_eq] at h
  cases h
  rw [fileLines_terminate_append]
  exact List.mem_append_left _ hl

theorem keeps_remove {pre l : Text} (hpre : '\n' ∉ pre) (hl : ¬ pre <+: l) : Keeps (removeTransform pre) l := by
  intro input out h hmem
  rw [removeTransform_eq] at h
  cases h
  rw [fileLines_remove hpre]
  exact List.mem_filter.mpr ⟨hmem, by simpa [← List.isPrefixOf_iff_prefix] using hl⟩

/-- A change of a group's members leaves a line that does not start with its name. -/
theorem keeps_groupMember {group username l : Text} {add : Bool} (hu : '\n' ∉ username)
    (hl : ¬ (group ++ [':']) <+: l) : Keeps (groupMemberTransform group username add) l := by
  intro input out h hmem
  cases input with
  | none => simp at hmem
  | some s =>
    cases h
    rw [fileLines_map (groupMemberLine_terminated hu), List.mem_map]
    obtain ⟨raw, hraw, rfl⟩ := List.mem_map.mp hmem
    have hraw' : ¬ (group ++ [':']) <+: raw := fun h =>
      hl (prefix_chomp_of_mem_getlines hraw (by simp) h)
    rw [← List.isPrefixOf_iff_prefix] at hraw'
    exact ⟨raw, hraw, by rw [groupMemberLine, if_neg hraw']⟩

/-! ### The state of a node -/

/-- A session as it is asked for. -/
structure Request where
  /-- The names `main` starts with; the shell that `identity_resolve_shell` finds. -/
  ctx : SessionCtx
  /-- The user whose groups it inherits. -/
  referenceUser : Option Text
  /-- The day it is on, since the epoch. -/
  days : ℕ

/-- Where a session is in `pipeline_run`: what it does next. -/
inductive Phase where
  /-- `identity_resolve_username`. -/
  | start
  /-- `identity_alloc_uid`. -/
  | resolved (ctx : SessionCtx)
  /-- `identity_write_entries`; these files have their entries. -/
  | writing (ctx : SessionCtx) (uid : ℕ) (done : List EtcFile)
  /-- `identity_inherit_groups`, reading the groups. -/
  | written (ctx : SessionCtx) (uid : ℕ)
  /-- `identity_inherit_groups`, joining one group after the other, and then
  `identity_release_uid_lock`. -/
  | joining (ctx : SessionCtx) (uid : ℕ) (toJoin joined : List Text)
  /-- The session is set up and runs. -/
  | running (ctx : SessionCtx) (uid : ℕ) (joined : List Text)
  /-- `rollback`: leaving these groups, removing the entries of these files, and then
  `identity_release_uid_lock`. -/
  | rolling (ctx : SessionCtx) (toLeave : List Text) (toRemove : List EtcFile)
  /-- `pipeline_run` has returned. -/
  | returned

/-- The state of a node. -/
structure State where
  /-- The account files. -/
  files : EtcFiles
  /-- Who has the uid lock. -/
  lock : Option ℕ
  /-- The sessions. -/
  phase : ℕ → Phase

/-- A step of a session. A rewrite reports a failure if `ok` is false. -/
inductive Event where
  /-- `identity_resolve_username`. -/
  | resolve (i : ℕ)
  /-- `identity_alloc_uid`. -/
  | alloc (i : ℕ)
  /-- The next rewrite of `identity_write_entries`. -/
  | write (i : ℕ) (ok : Bool)
  /-- `identity_find_supplementary_groups_at`. -/
  | findGroups (i : ℕ)
  /-- `identity_add_group_member_at`. -/
  | join (i : ℕ) (ok : Bool)
  /-- `identity_release_uid_lock`, after the groups. -/
  | unlock (i : ℕ)
  /-- The session ends, or a later step of its set-up fails: `rollback` begins. -/
  | rollback (i : ℕ)
  /-- `identity_remove_group_member_at`. -/
  | leave (i : ℕ) (ok : Bool)
  /-- The next rewrite of `identity_remove_entries`, or of the undoing in
  `identity_write_entries`. -/
  | remove (i : ℕ) (ok : Bool)
  /-- `identity_release_uid_lock`, at the end of `rollback`. -/
  | finish (i : ℕ)

/-- A rewrite that succeeds or reports a failure. -/
def rewriteFaults (ok : Bool) : Faults := { Faults.none with rename := !ok }

/-- The state with a session somewhere else. -/
def State.setPhase (s : State) (i : ℕ) (p : Phase) : State := { s with phase := Function.update s.phase i p }

/-- The state after a rewrite of one of the files. -/
def State.rewrite (s : State) (shim : ℕ × ℕ) (ok : Bool) (fn : AtomicTransform) (k : EtcFile) : State :=
  { s with files := (s.files.rewrite shim (rewriteFaults ok) fn k).2 }

/-- The lock after `identity_release_uid_lock` of a session. -/
def releaseLock (lock : Option ℕ) (i : ℕ) : Option ℕ := if lock = some i then none else lock

/-- The entry that `identity_write_entries` writes next, in the order of its rewrites. -/
def nextEntry : List EtcFile → Option EtcFile
  | [] => some .passwd
  | [.passwd] => some .group
  | [.group, .passwd] => some .shadow
  | _ => none

/-- What `identity_write_entries` undoes when an entry cannot be written. -/
def toUndo : List EtcFile → List EtcFile
  | [.passwd] => [.passwd]
  | [.group, .passwd] => [.passwd, .group]
  | _ => []

/-- The state after an event, if it can happen. -/
def step (shim : ℕ × ℕ) (req : ℕ → Request) (s : State) : Event → Option State
  | .resolve i =>
    match s.phase i with
    | .start => some (s.setPhase i (.resolved (identityResolveUsername (openFile (s.files .passwd)) (req i).ctx)))
    | _ => none
  | .alloc i =>
    match s.phase i, s.lock with
    | .resolved ctx, none =>
      match identityFindFreeUid (openFile (s.files .passwd)) SHIM_UID_RANGE_MIN SHIM_UID_RANGE_MAX with
      | none => some (s.setPhase i (.rolling ctx [] []))
      | some uid => some { s.setPhase i (.writing ctx uid []) with lock := some i }
    | _, _ => none
  | .write i ok =>
    match s.phase i with
    | .writing ctx uid done =>
      match nextEntry done with
      | some k =>
        let s' := s.rewrite shim ok
          (appendTransform (entryLine ctx.username uid uid ctx.homeDir ctx.shell.val (req i).days k)) k
        if !ok then some (s'.setPhase i (.rolling ctx [] (toUndo done)))
        else if k = .shadow then some (s'.setPhase i (.written ctx uid))
        else some (s'.setPhase i (.writing ctx uid (k :: done)))
      | none => none
    | _ => none
  | .findGroups i =>
    match s.phase i with
    | .written ctx uid =>
      some (s.setPhase i (.joining ctx uid (groupsToInherit (openFile (s.files .group)) (req i).referenceUser) []))
    | _ => none
  | .join i ok =>
    match s.phase i with
    | .joining ctx uid (g :: gs) joined =>
      some ((s.rewrite shim ok (groupMemberTransform g ctx.username true) .group).setPhase i
        (.joining ctx uid gs (if ok then joined ++ [g] else joined)))
    | _ => none
  | .unlock i =>
    match s.phase i with
    | .joining ctx uid [] joined => some { s.setPhase i (.running ctx uid joined) with lock := releaseLock s.lock i }
    | _ => none
  | .rollback i =>
    match s.phase i with
    | .running ctx _ joined => some (s.setPhase i (.rolling ctx joined [.passwd, .shadow, .group]))
    | _ => none
  | .leave i ok =>
    match s.phase i with
    | .rolling ctx (g :: gs) ks =>
      some ((s.rewrite shim ok (groupMemberTransform g ctx.username false) .group).setPhase i (.rolling ctx gs ks))
    | _ => none
  | .remove i ok =>
    match s.phase i with
    | .rolling ctx [] (k :: ks) =>
      some ((s.rewrite shim ok (removeTransform (entryPrefix ctx.username)) k).setPhase i (.rolling ctx [] ks))
    | _ => none
  | .finish i =>
    match s.phase i with
    | .rolling _ [] [] => some { s.setPhase i .returned with lock := releaseLock s.lock i }
    | _ => none

/-- A node on which no session has begun. -/
def State.init (files : EtcFiles) : State := ⟨files, none, fun _ => .start⟩

/-! ### What sessions are promised -/

/-- The session that a name belongs to, from settling on it to the end of the rollback. -/
def Phase.holds : Phase → Option SessionCtx
  | .start => none
  | .resolved ctx => some ctx
  | .writing ctx _ _ => some ctx
  | .written ctx _ => some ctx
  | .joining ctx _ _ _ => some ctx
  | .running ctx _ _ => some ctx
  | .rolling ctx _ _ => some ctx
  | .returned => none

/-- The account a session is up with, between having written its entries and starting
its rollback. -/
def Phase.up : Phase → Option (SessionCtx × ℕ)
  | .written ctx uid => some (ctx, uid)
  | .joining ctx uid _ _ => some (ctx, uid)
  | .running ctx uid _ => some (ctx, uid)
  | _ => none

/-- A session's own line in one of the files. A newline in its shell ends it. -/
def ownLine (ctx : SessionCtx) (uid days : ℕ) (k : EtcFile) : Text :=
  chomp (entryLine ctx.username uid uid ctx.homeDir ctx.shell.val days k)

/-- The promise: sessions that are up have different names and uids, and their own
lines are in all three files. -/
structure Separate (req : ℕ → Request) (s : State) : Prop where
  /-- No name is shared. -/
  names : ∀ i j a b, i ≠ j → (s.phase i).up = some a → (s.phase j).up = some b → a.1.username ≠ b.1.username
  /-- No uid is shared. -/
  uids : ∀ i j a b, i ≠ j → (s.phase i).up = some a → (s.phase j).up = some b → a.2 ≠ b.2
  /-- No line is lost. -/
  lines : ∀ i a k, (s.phase i).up = some a → ownLine a.1 a.2 (req i).days k ∈ s.files.lines k

/-- A session's group line is written and not yet to be removed. -/
def Phase.inGroup : Phase → Option SessionCtx
  | .writing ctx _ done => if .group ∈ done then some ctx else none
  | .written ctx _ => some ctx
  | .joining ctx _ _ _ => some ctx
  | .running ctx _ _ => some ctx
  | _ => none

/-- A step at which nothing goes wrong: no session settles on a name that another one
holds, and none joins or leaves a group with the name of a session. -/
def Unshared (req : ℕ → Request) (s : State) (e : Event) (_ : State) : Prop :=
  match e with
  | .resolve i => ∀ j ctx, j ≠ i → (s.phase j).holds = some ctx →
      ctx.username ≠ (identityResolveUsername (openFile (s.files .passwd)) (req i).ctx).username
  | .join i _ => ∀ c uid g gs joined, s.phase i = .joining c uid (g :: gs) joined →
      ∀ j ctx, (s.phase j).inGroup = some ctx → ctx.username ≠ g
  | .leave i _ => ∀ c g gs ks, s.phase i = .rolling c (g :: gs) ks →
      ∀ j ctx, (s.phase j).inGroup = some ctx → ctx.username ≠ g
  | _ => True

/-! ### Own lines -/

theorem username_prefix_ownLine (ctx : SessionCtx) (uid days : ℕ) (k : EtcFile) :
    ctx.username ++ [':'] <+: ownLine ctx uid days k := by
  rw [ownLine, prefix_chomp_iff (by simp [newline_notMem_username ctx.valid]), ← entryPrefix_eq ctx.valid]
  exact entryPrefix_prefix_entryLine ctx.valid _ _ _ _ _ k

/-- A session's own line in `passwd` says its uid. -/
theorem uidOfLine_ownLine (ctx : SessionCtx) {uid : ℕ} (huid : uid ≤ SHIM_UID_RANGE_MAX) (days : ℕ) {line : Text}
    (h : chomp line = ownLine ctx uid days .passwd) : uidOfLine line = some uid := by
  simp only [SHIM_UID_RANGE_MAX] at huid
  have hdigits : (decimal uid).length ≤ 5 :=
    (Nat.length_toDigits_le_iff (by decide) (by decide)).mpr (by omega)
  have hlen := validUsername_length ctx.valid
  refine uidOfLine_of_prefix ctx.valid (by omega) ?_
  have hnl : '\n' ∉ ctx.username ++ ":x:".toList ++ decimal uid ++ [':'] := by
    simp [newline_notMem_username ctx.valid, newline_notMem_decimal]
  rw [← prefix_chomp_iff hnl, h, ownLine, prefix_chomp_iff hnl, entryLine, snprintf, List.prefix_take_iff]
  refine ⟨?_, ?_⟩
  · simp only [List.append_assoc, List.cons_append, List.prefix_append_right_inj,
      List.cons_prefix_cons, true_and]
    exact List.nil_prefix
  · simp only [List.length_append, List.length_singleton, show ":x:".toList.length = 3 from rfl]
    omega

/-! ### Rewrites -/

theorem rewriteFaults_true : rewriteFaults true = Faults.none := rfl

theorem reported_rewriteFaults : (rewriteFaults false).Reported := by decide

/-- A rewrite, whether or not it succeeds, leaves a line that its transform keeps. -/
theorem mem_lines_rewrite {f : EtcFiles} {fn : AtomicTransform} {l : Text} (hfn : ∀ input, fn input ≠ none)
    (hkeep : Keeps fn l) (shim : ℕ × ℕ) (ok : Bool) (k k' : EtcFile) (hl : l ∈ f.lines k') :
    l ∈ (f.rewrite shim (rewriteFaults ok) fn k).2.lines k' := by
  by_cases hk : k' = k
  · subst hk
    rw [EtcFiles.lines_eq] at hl ⊢
    obtain ⟨out, hout⟩ := Option.ne_none_iff_exists'.mp (hfn ((f k').map (·.contents)))
    cases ok with
    | false =>
      rw [EtcFiles.rewrite, atomicRewriteFile_reported reported_rewriteFaults]
      simpa [EtcFiles.contents] using hl
    | true =>
      rw [EtcFiles.rewrite, rewriteFaults_true, atomicRewriteFile_none hout]
      simp only [contents_update_self]
      exact hkeep _ _ hout hl
  · rw [EtcFiles.lines_eq] at hl ⊢
    rwa [EtcFiles.rewrite, contents_update_of_ne f hk]

/-- A line that is appended is there. -/
theorem chomp_mem_lines_rewrite (f : EtcFiles) (shim : ℕ × ℕ) (line : Text) (k : EtcFile) :
    chomp line ∈ (f.rewrite shim (rewriteFaults true) (appendTransform line) k).2.lines k := by
  rw [rewriteFaults_true, rewrite_append, EtcFiles.lines_eq, contents_update_self, fileLines_terminate_append]
  exact List.mem_append_right _ (chomp_mem_fileLines line)

/-! ### What holds in every state -/

/-- A session's account, with the files that have its entry. -/
def Phase.account : Phase → Option (SessionCtx × ℕ × List EtcFile)
  | .writing ctx uid done => some (ctx, uid, done)
  | .written ctx uid => some (ctx, uid, [.passwd, .shadow, .group])
  | .joining ctx uid _ _ => some (ctx, uid, [.passwd, .shadow, .group])
  | .running ctx uid _ => some (ctx, uid, [.passwd, .shadow, .group])
  | _ => none

/-- The groups that a session has joined or is to join or to leave. -/
def Phase.groups : Phase → List Text
  | .joining _ _ toJoin joined => toJoin ++ joined
  | .running _ _ joined => joined
  | .rolling _ toLeave _ => toLeave
  | _ => []

/-- The session has the uid lock. -/
def Phase.locks : Phase → Bool
  | .writing .. => true
  | .written .. => true
  | .joining .. => true
  | _ => false

/-- The invariant of unshared runs. -/
structure Inv (req : ℕ → Request) (s : State) : Prop where
  /-- Names are held by one session. -/
  names : ∀ i j c d, i ≠ j → (s.phase i).holds = some c → (s.phase j).holds = some d → c.username ≠ d.username
  /-- Uids are in their range. -/
  range : ∀ i c uid ks, (s.phase i).account = some (c, uid, ks) → uid ≤ SHIM_UID_RANGE_MAX
  /-- Uids are had by one session. -/
  uids : ∀ i j c d uid uid' ks ks', i ≠ j → (s.phase i).account = some (c, uid, ks) →
    (s.phase j).account = some (d, uid', ks') → uid ≠ uid'
  /-- Entries that have been written are there. -/
  lines : ∀ i c uid ks k, (s.phase i).account = some (c, uid, ks) → k ∈ ks →
    ownLine c uid (req i).days k ∈ s.files.lines k
  /-- The names of groups have no colon. -/
  groups : ∀ i, ∀ g ∈ (s.phase i).groups, ':' ∉ g
  /-- The lock is had by the session that is choosing a uid or writing its entries. -/
  lock : ∀ i, (s.phase i).locks = true → s.lock = some i

theorem inv_init (req : ℕ → Request) (files : EtcFiles) : Inv req (.init files) where
  names _ _ _ _ _ h := nomatch h
  range _ _ _ _ h := nomatch h
  uids _ _ _ _ _ _ _ _ _ h := nomatch h
  lines _ _ _ _ _ h := nomatch h
  groups _ _ h := nomatch h
  lock _ h := nomatch h

theorem holds_of_account {p : Phase} {c : SessionCtx} {uid : ℕ} {ks : List EtcFile}
    (h : p.account = some (c, uid, ks)) : p.holds = some c := by
  cases p <;> cases h <;> rfl

theorem inGroup_of_account {p : Phase} {c : SessionCtx} {uid : ℕ} {ks : List EtcFile}
    (h : p.account = some (c, uid, ks)) (hk : .group ∈ ks) : p.inGroup = some c := by
  cases p <;> cases h
  · exact if_pos hk
  all_goals rfl

section

variable {req : ℕ → Request} {s : State} {i : ℕ}

/-- One session moves on, to a place with the name it had or none, and the lines of the
other sessions stay. -/
theorem Inv.move (hi : Inv req s) {files : EtcFiles} {lock : Option ℕ} {p : Phase}
    (hnames : ∀ c, p.holds = some c → ∀ j d, j ≠ i → (s.phase j).holds = some d → c.username ≠ d.username)
    (hothers : ∀ j c uid ks k, j ≠ i → (s.phase j).account = some (c, uid, ks) → k ∈ ks →
      ownLine c uid (req j).days k ∈ files.lines k)
    (hown : ∀ c uid ks, p.account = some (c, uid, ks) → uid ≤ SHIM_UID_RANGE_MAX ∧
      (∀ k ∈ ks, ownLine c uid (req i).days k ∈ files.lines k) ∧
      ∀ j d uid' ks', j ≠ i → (s.phase j).account = some (d, uid', ks') → uid ≠ uid')
    (hgroups : ∀ g ∈ p.groups, ':' ∉ g)
    (hlock : ∀ j, j ≠ i → (s.phase j).locks = true → lock = some j) (hlocki : p.locks = true → lock = some i) :
    Inv req ⟨files, lock, Function.update s.phase i p⟩ where
  names j k c d hjk hc hd := by
    by_cases hj : j = i <;> by_cases hk : k = i
    · exact absurd (hj.trans hk.symm) hjk
    · subst hj
      simp only [Function.update_self, Function.update_of_ne hk] at hc hd
      exact hnames c hc k d hk hd
    · subst hk
      simp only [Function.update_self, Function.update_of_ne hj] at hc hd
      exact (hnames d hd j c hj hc).symm
    · simp only [Function.update_of_ne hj, Function.update_of_ne hk] at hc hd
      exact hi.names j k c d hjk hc hd
  range j c uid ks h := by
    by_cases hj : j = i
    · subst hj
      simp only [Function.update_self] at h
      exact (hown c uid ks h).1
    · simp only [Function.update_of_ne hj] at h
      exact hi.range j c uid ks h
  uids j k c d uid uid' ks ks' hjk hc hd := by
    by_cases hj : j = i <;> by_cases hk : k = i
    · exact absurd (hj.trans hk.symm) hjk
    · subst hj
      simp only [Function.update_self, Function.update_of_ne hk] at hc hd
      exact (hown c uid ks hc).2.2 k d uid' ks' hk hd
    · subst hk
      simp only [Function.update_self, Function.update_of_ne hj] at hc hd
      exact ((hown d uid' ks' hd).2.2 j c uid ks hj hc).symm
    · simp only [Function.update_of_ne hj, Function.update_of_ne hk] at hc hd
      exact hi.uids j k c d uid uid' ks ks' hjk hc hd
  lines j c uid ks k h hk := by
    by_cases hj : j = i
    · subst hj
      simp only [Function.update_self] at h
      exact (hown c uid ks h).2.1 k hk
    · simp only [Function.update_of_ne hj] at h
      exact hothers j c uid ks k hj h hk
  groups j := by
    by_cases hj : j = i
    · subst hj
      simpa only [Function.update_self] using hgroups
    · simpa only [Function.update_of_ne hj] using hi.groups j
  lock j h := by
    by_cases hj : j = i
    · subst hj
      simp only [Function.update_self] at h
      exact hlocki h
    · simp only [Function.update_of_ne hj] at h
      exact hlock j hj h

theorem Inv.names_of_holds (hi : Inv req s) {c : SessionCtx} (h : (s.phase i).holds = some c) {p : Phase}
    (hp : p.holds = some c ∨ p.holds = none) :
    ∀ d, p.holds = some d → ∀ j e, j ≠ i → (s.phase j).holds = some e → d.username ≠ e.username := by
  intro d hd j e hj he
  rcases hp with hp | hp
  · obtain rfl : c = d := Option.some_inj.mp (hp.symm.trans hd)
    exact hi.names i j c e hj.symm h he
  · rw [hp] at hd
    cases hd

/-- A session that gives up its account, or keeps it, with what was written. -/
theorem Inv.own_of_account (hi : Inv req s) {files : EtcFiles} {p : Phase}
    (hp : p.account = none ∨ p.account = (s.phase i).account)
    (hlines : ∀ c uid ks k, (s.phase i).account = some (c, uid, ks) → k ∈ ks →
      ownLine c uid (req i).days k ∈ files.lines k) :
    ∀ c uid ks, p.account = some (c, uid, ks) → uid ≤ SHIM_UID_RANGE_MAX ∧
      (∀ k ∈ ks, ownLine c uid (req i).days k ∈ files.lines k) ∧
      ∀ j d uid' ks', j ≠ i → (s.phase j).account = some (d, uid', ks') → uid ≠ uid' := by
  intro c uid ks h
  rcases hp with hp | hp
  · rw [hp] at h
    cases h
  · rw [hp] at h
    exact ⟨hi.range i c uid ks h, fun k hk => hlines c uid ks k h hk,
      fun j d uid' ks' hj hd => hi.uids i j c d uid uid' ks ks' hj.symm h hd⟩

/-- What a session's rewrite keeps of the lines of sessions. -/
theorem Inv.lines_rewrite (hi : Inv req s) {fn : AtomicTransform} (hfn : ∀ input, fn input ≠ none)
    (shim : ℕ × ℕ) (ok : Bool) (k₀ : EtcFile) {j : ℕ} {c : SessionCtx} {uid : ℕ} {ks : List EtcFile} {k : EtcFile}
    (h : (s.phase j).account = some (c, uid, ks)) (hk : k ∈ ks)
    (hkeep : k = k₀ → Keeps fn (ownLine c uid (req j).days k)) :
    ownLine c uid (req j).days k ∈ (s.rewrite shim ok fn k₀).files.lines k := by
  have hl := hi.lines j c uid ks k h hk
  by_cases hkk : k = k₀
  · exact mem_lines_rewrite hfn (hkeep hkk) shim ok k₀ k hl
  · rw [EtcFiles.lines_eq] at hl ⊢
    rwa [State.rewrite, EtcFiles.rewrite, contents_update_of_ne s.files hkk]

/-- A line that is appended leaves the lines of sessions. -/
theorem Inv.lines_append (hi : Inv req s) (line : Text) (shim : ℕ × ℕ) (ok : Bool) (k₀ : EtcFile) {j : ℕ} {c : SessionCtx}
    {uid : ℕ} {ks : List EtcFile} {k : EtcFile} (h : (s.phase j).account = some (c, uid, ks)) (hk : k ∈ ks) :
    ownLine c uid (req j).days k ∈ (s.rewrite shim ok (appendTransform line) k₀).files.lines k :=
  hi.lines_rewrite (Transform.append line).fn_ne_none shim ok k₀ h hk fun _ => keeps_append line _

/-- A session's entries, after it has written one more. -/
theorem Inv.own_append (hi : Inv req s) (shim : ℕ × ℕ) {ctx : SessionCtx} {uid : ℕ} {done : List EtcFile}
    (h : (s.phase i).account = some (ctx, uid, done)) (k₀ : EtcFile) {p : Phase} {ks : List EtcFile}
    (hp : p.account = some (ctx, uid, ks)) (hks : ∀ k ∈ ks, k = k₀ ∨ k ∈ done) :
    ∀ c uid' ks', p.account = some (c, uid', ks') → uid' ≤ SHIM_UID_RANGE_MAX ∧
      (∀ k ∈ ks', ownLine c uid' (req i).days k ∈ (s.rewrite shim true
        (appendTransform (entryLine ctx.username uid uid ctx.homeDir ctx.shell.val (req i).days k₀)) k₀).files.lines k) ∧
      ∀ j d uid'' ks'', j ≠ i → (s.phase j).account = some (d, uid'', ks'') → uid' ≠ uid'' := by
  intro c uid' ks' hp'
  rw [hp] at hp'
  cases hp'
  refine ⟨hi.range i _ _ _ h, fun k hk => ?_, fun j d uid'' ks'' hj hd => hi.uids i j _ d _ uid'' _ ks'' hj.symm h hd⟩
  rcases hks k hk with rfl | hk
  · exact chomp_mem_lines_rewrite s.files shim _ k
  · exact hi.lines_append _ shim true k₀ h hk

/-- The lock of another session is not released. -/
theorem releaseLock_of_ne {lock : Option ℕ} {j : ℕ} (hj : j ≠ i) (h : lock = some j) : releaseLock lock i = some j := by
  subst h
  exact if_neg fun h => hj (Option.some_inj.mp h)

theorem account_of_not_locks {p : Phase} {c : SessionCtx} {uid : ℕ} {ks : List EtcFile}
    (h : p.account = some (c, uid, ks)) (hl : p.locks = false) : ks = [.passwd, .shadow, .group] := by
  cases p <;> cases h <;> cases hl
  rfl

/-- While nobody has the lock, a uid that is free is nobody's. -/
theorem Inv.uid_free (hi : Inv req s) (hlock : s.lock = none) {uid : ℕ}
    (h : identityFindFreeUid (openFile (s.files .passwd)) SHIM_UID_RANGE_MIN SHIM_UID_RANGE_MAX = some uid)
    {j : ℕ} {c : SessionCtx} {uid' : ℕ} {ks : List EtcFile} (hj : (s.phase j).account = some (c, uid', ks)) :
    uid ≠ uid' := by
  have hunlocked : (s.phase j).locks = false := by
    by_contra hl
    rw [Bool.not_eq_false] at hl
    have := hi.lock j hl
    rw [hlock] at this
    cases this
  obtain rfl := account_of_not_locks hj hunlocked
  have hline := hi.lines j c uid' _ .passwd hj (by simp)
  rw [EtcFiles.lines_eq] at hline
  obtain ⟨raw, hraw, hchomp⟩ := List.mem_map.mp hline
  rintro rfl
  exact (identityFindFreeUid_eq_some h).2 raw hraw (uidOfLine_ownLine c (hi.range j c uid _ hj) _ hchomp)

/-- A change of members keeps the lines of the sessions whose name is not the group's. -/
theorem Inv.lines_groupMember (hi : Inv req s) {g username : Text} (hg : ':' ∉ g)
    (hu : identityValidUsername username = true)
    (hne : ∀ j ctx, (s.phase j).inGroup = some ctx → ctx.username ≠ g) (shim : ℕ × ℕ) (ok add : Bool) {j : ℕ}
    {c : SessionCtx} {uid : ℕ} {ks : List EtcFile} {k : EtcFile} (h : (s.phase j).account = some (c, uid, ks))
    (hk : k ∈ ks) : ownLine c uid (req j).days k ∈
      (s.rewrite shim ok (groupMemberTransform g username add) .group).files.lines k := by
  refine hi.lines_rewrite (Transform.groupMember g username add).fn_ne_none shim ok .group h hk fun hkg => ?_
  subst hkg
  refine keeps_groupMember (newline_notMem_username hu) fun hpre => ?_
  exact hne j c (inGroup_of_account h hk)
    (eq_of_common_start (colon_notMem_username c.valid) hg (username_prefix_ownLine c uid _ _) hpre)

end

theorem nextEntry_eq_shadow {done : List EtcFile} (h : nextEntry done = some .shadow) : done = [.group, .passwd] := by
  unfold nextEntry at h
  split at h <;> cases h
  rfl

/-- Every unshared step keeps the invariant. -/
theorem Inv.of_step {shim : ℕ × ℕ} {req : ℕ → Request} {s s' : State} {e : Event}
    (h : step shim req s e = some s') (hg : Unshared req s e s') (hi : Inv req s) : Inv req s' := by
  cases e with
  | resolve i =>
    simp only [step] at h
    split at h
    · cases h
      refine hi.move (fun c hc j d hj hd => ?_) (fun j c uid ks k _ => hi.lines j c uid ks k) (fun _ _ _ h => nomatch h)
        (fun _ h => nomatch h) (fun j _ => hi.lock j) fun h => nomatch h
      obtain rfl := Option.some_inj.mp hc
      exact (hg j d hj hd).symm
    · cases h
  | alloc i =>
    simp only [step] at h
    split at h
    · next ctx hp hl =>
      have hh : (s.phase i).holds = some ctx := by rw [hp]; rfl
      split at h
      · cases h
        exact hi.move (hi.names_of_holds hh (Or.inl rfl)) (fun j c uid ks k _ => hi.lines j c uid ks k)
          (fun _ _ _ h => nomatch h) (fun _ h => nomatch h) (fun j _ => hi.lock j) fun h => nomatch h
      · next uid huid =>
        cases h
        refine hi.move (hi.names_of_holds hh (Or.inl rfl)) (fun j c uid ks k _ => hi.lines j c uid ks k) ?_
          (fun _ h => nomatch h) (fun j _ hj => ?_) fun _ => rfl
        · intro c uid' ks hacc
          cases hacc
          exact ⟨(identityFindFreeUid_eq_some huid).1.2, fun _ h => absurd h List.not_mem_nil,
            fun j d uid' ks' _ hd => hi.uid_free hl huid hd⟩
        · have := hi.lock j hj
          rw [hl] at this
          cases this
    · cases h
  | write i ok =>
    simp only [step] at h
    split at h
    · next ctx uid done hp =>
      have hh : (s.phase i).holds = some ctx := by rw [hp]; rfl
      have hacc : (s.phase i).account = some (ctx, uid, done) := by rw [hp]; rfl
      have hlocks : s.lock = some i := hi.lock i (by rw [hp]; rfl)
      split at h
      · next k hk =>
        split at h
        · cases h
          exact hi.move (hi.names_of_holds hh (Or.inl rfl)) (fun j c uid ks k' _ => hi.lines_append _ shim ok k)
            (fun _ _ _ h => nomatch h) (fun _ h => nomatch h) (fun j _ => hi.lock j) fun h => nomatch h
        · next hok =>
          obtain rfl : ok = true := by simpa using hok
          split at h
          · next hshadow =>
            cases h
            have hdone := nextEntry_eq_shadow (hshadow ▸ hk)
            exact hi.move (hi.names_of_holds hh (Or.inl rfl)) (fun j c uid ks k' _ => hi.lines_append _ shim true k)
              (hi.own_append shim hacc k rfl (by simp [hdone, hshadow])) (fun _ h => nomatch h) (fun j _ => hi.lock j)
              fun _ => hlocks
          · cases h
            exact hi.move (hi.names_of_holds hh (Or.inl rfl)) (fun j c uid ks k' _ => hi.lines_append _ shim true k)
              (hi.own_append shim hacc k rfl fun k' => List.mem_cons.mp) (fun _ h => nomatch h) (fun j _ => hi.lock j)
              fun _ => hlocks
      · cases h
    · cases h
  | findGroups i =>
    simp only [step] at h
    split at h
    · next ctx uid hp =>
      cases h
      have hh : (s.phase i).holds = some ctx := by rw [hp]; rfl
      refine hi.move (hi.names_of_holds hh (Or.inl rfl)) (fun j c uid ks k _ => hi.lines j c uid ks k)
        (hi.own_of_account (Or.inr (by rw [hp]; rfl)) fun c uid ks k => hi.lines i c uid ks k) (fun g hg => ?_)
        (fun j _ => hi.lock j) fun _ => hi.lock i (by rw [hp]; rfl)
      rw [Phase.groups, List.append_nil] at hg
      exact colon_notMem_groupsToInherit hg
    · cases h
  | join i ok =>
    simp only [step] at h
    split at h
    · next ctx uid g gs joined hp =>
      cases h
      have hh : (s.phase i).holds = some ctx := by rw [hp]; rfl
      have hgroups := hi.groups i
      rw [hp, Phase.groups] at hgroups
      have hkept : ∀ j c uid ks k, (s.phase j).account = some (c, uid, ks) → k ∈ ks →
          ownLine c uid (req j).days k ∈
            (s.rewrite shim ok (groupMemberTransform g ctx.username true) .group).files.lines k :=
        fun j c uid' ks k => hi.lines_groupMember (hgroups g (by simp)) ctx.valid
          (fun j d => hg ctx uid g gs joined hp j d) shim ok true
      refine hi.move (hi.names_of_holds hh (Or.inl rfl)) (fun j c uid ks k _ => hkept j c uid ks k)
        (hi.own_of_account (Or.inr (by rw [hp]; rfl)) fun c uid ks k => hkept i c uid ks k) (fun g' hg' => ?_)
        (fun j _ => hi.lock j) fun _ => hi.lock i (by rw [hp]; rfl)
      refine hgroups g' ?_
      simp only [Phase.groups, List.mem_append, List.mem_cons] at hg' ⊢
      split at hg'
      · simp only [List.mem_append, List.mem_singleton] at hg'
        tauto
      · tauto
    · cases h
  | unlock i =>
    simp only [step] at h
    split at h
    · next ctx uid joined hp =>
      cases h
      have hh : (s.phase i).holds = some ctx := by rw [hp]; rfl
      have hgroups := hi.groups i
      rw [hp] at hgroups
      exact hi.move (hi.names_of_holds hh (Or.inl rfl)) (fun j c uid ks k _ => hi.lines j c uid ks k)
        (hi.own_of_account (Or.inr (by rw [hp]; rfl)) fun c uid ks k => hi.lines i c uid ks k) hgroups
        (fun j hj hl => releaseLock_of_ne hj (hi.lock j hl)) fun h => nomatch h
    · cases h
  | rollback i =>
    simp only [step] at h
    split at h
    · next ctx uid joined hp =>
      cases h
      have hh : (s.phase i).holds = some ctx := by rw [hp]; rfl
      have hgroups := hi.groups i
      rw [hp] at hgroups
      exact hi.move (hi.names_of_holds hh (Or.inl rfl)) (fun j c uid ks k _ => hi.lines j c uid ks k)
        (fun _ _ _ h => nomatch h) hgroups (fun j _ => hi.lock j) fun h => nomatch h
    · cases h
  | leave i ok =>
    simp only [step] at h
    split at h
    · next ctx g gs ks hp =>
      cases h
      have hh : (s.phase i).holds = some ctx := by rw [hp]; rfl
      have hgroups := hi.groups i
      rw [hp, Phase.groups] at hgroups
      exact hi.move (hi.names_of_holds hh (Or.inl rfl))
        (fun j c uid' ks' k _ h hk => hi.lines_groupMember (hgroups g List.mem_cons_self) ctx.valid
          (fun j d => hg ctx g gs ks hp j d) shim ok false h hk)
        (fun _ _ _ h => nomatch h) (fun g' hg' => hgroups g' (List.mem_cons_of_mem g hg'))
        (fun j _ => hi.lock j) fun h => nomatch h
    · cases h
  | remove i ok =>
    simp only [step] at h
    split at h
    · next ctx k ks hp =>
      cases h
      have hh : (s.phase i).holds = some ctx := by rw [hp]; rfl
      refine hi.move (hi.names_of_holds hh (Or.inl rfl)) (fun j c uid ks' k' hj hacc hk' => ?_)
        (fun _ _ _ h => nomatch h) (fun _ h => nomatch h) (fun j _ => hi.lock j) fun h => nomatch h
      refine hi.lines_rewrite (Transform.remove (entryPrefix ctx.username)).fn_ne_none shim ok k hacc hk' fun _ => ?_
      refine keeps_remove (newline_notMem_entryPrefix ctx.valid) fun hpre => ?_
      rw [entryPrefix_eq ctx.valid] at hpre
      exact hi.names i j ctx c hj.symm hh (holds_of_account hacc)
        (eq_of_common_start (colon_notMem_username ctx.valid) (colon_notMem_username c.valid) hpre
          (username_prefix_ownLine c uid _ k'))
    · cases h
  | finish i =>
    simp only [step] at h
    split at h
    · cases h
      exact hi.move (fun _ h => nomatch h) (fun j c uid ks k _ => hi.lines j c uid ks k) (fun _ _ _ h => nomatch h)
        (fun _ h => nomatch h) (fun j hj hl => releaseLock_of_ne hj (hi.lock j hl)) fun h => nomatch h
    · cases h

theorem account_of_up {p : Phase} {a : SessionCtx × ℕ} (h : p.up = some a) :
    p.account = some (a.1, a.2, [.passwd, .shadow, .group]) := by
  cases p <;> cases h <;> rfl

/-- The invariant keeps the promise. -/
theorem Inv.separate {req : ℕ → Request} {s : State} (hi : Inv req s) : Separate req s where
  names i j a b hij ha hb :=
    hi.names i j a.1 b.1 hij (holds_of_account (account_of_up ha)) (holds_of_account (account_of_up hb))
  uids i j a b hij ha hb := hi.uids i j a.1 b.1 a.2 b.2 _ _ hij (account_of_up ha) (account_of_up hb)
  lines i a k ha := hi.lines i a.1 a.2 _ k (account_of_up ha) (by cases k <;> simp)

/-- A host without entries of its own. -/
def bareHost : EtcFiles := fun _ => none

/-- Two sessions of a console user called `alice`. -/
def aliceTwice (i : ℕ) : Request where
  ctx := mainCtx (some "alice".toList)
    (if i = 0 then ⟨"1badcafe".toList, by decide⟩ else ⟨"2badcafe".toList, by decide⟩) defaultShell
  referenceUser := none
  days := 20000

/-- The steps of a session whose name is resolved until it runs. -/
def setUp (i : ℕ) : List Event :=
  [.alloc i, .write i true, .write i true, .write i true, .findGroups i, .unlock i]

end OpenshiftConsole.NodeTerminal.Sessions
