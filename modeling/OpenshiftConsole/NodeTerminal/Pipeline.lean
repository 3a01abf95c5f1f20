import OpenshiftConsole.NodeTerminal.GroupMembers
import OpenshiftConsole.NodeTerminal.Sessions

/-!
# Setting a session up and rolling it back

`pipeline_run` sets a session up in a dozen steps, most of them on the host, waits for its end, and
undoes in reverse order what its flags say was done (`rollback`), as it does when a step fails.
Every call that can fail is a field of `Fails`; the calls of the rollback do not fail.

Three things are not as they were. `mkdir` may find a directory at the home path, and then the
session takes it over and `rmdir` removes it if it is empty. The name is looked up in `passwd` only,
and the entries are removed by name from all three files. And the lines of the groups that are
joined are written anew. `rollback_restores_iff` says that there is nothing else.
-/

namespace OpenshiftConsole.NodeTerminal.Pipeline

open OpenshiftConsole.Library.Lines

/-- Where the terminals of sessions are. -/
def SHIM_CTTY_BASE : Text := "/dev".toList

/-! ### The host -/

/-- A directory, as `stat` and `readdir` show it. -/
structure Dir where
  /-- Its owner. -/
  uid : ℕ
  /-- Its group. -/
  gid : ℕ
  /-- What is in it. -/
  entries : List Text
  deriving DecidableEq

/-- The owner and group of a directory. -/
def Dir.owner (d : Dir) : ℕ × ℕ := (d.uid, d.gid)

/-- What can be at the path of a terminal. -/
inductive TtyNode where
  /-- An empty file, as `open` creates it. -/
  | created
  /-- The container's terminal. -/
  | pty
  /-- Anything else. -/
  | other
  deriving DecidableEq

/-- What a session changes on a host. At a path there is nothing, or a node and what is mounted on
it, the newest mount first. -/
structure Host where
  /-- The account files. -/
  etc : EtcFiles
  /-- The directories at paths of homes. -/
  homes : Text → List Dir
  /-- The nodes at paths of terminals. -/
  ttys : Text → List TtyNode
  /-- The file at `shim_binary_path`. -/
  binary : Option Text
  /-- Its temporary file. -/
  binaryTmp : Option Text

/-- `umount2` with `MNT_DETACH`: the newest mount goes; `EINVAL` where nothing is mounted. -/
def umount {α : Type} : List α → List α
  | _ :: a :: l => a :: l
  | l => l

/-- `unlink`: `EBUSY` where something is mounted, `ENOENT` where nothing is. -/
def unlink {α : Type} : List α → List α
  | [_] => []
  | l => l

/-- `mkdir` by a process of this user and group; `EEXIST` where something is. -/
def mkdir (owner : ℕ × ℕ) : List Dir → List Dir
  | [] => [⟨owner.1, owner.2, []⟩]
  | l => l

/-- `chown`, of what shows at the path. -/
def chown (uid gid : ℕ) : List Dir → List Dir
  | [] => []
  | d :: l => { d with uid := uid, gid := gid } :: l

/-- `rmdir`: `EBUSY` where something is mounted, `ENOTEMPTY` where something is in the directory. -/
def rmdir : List Dir → List Dir
  | [d] => if d.entries = [] then [] else [d]
  | l => l

/-- `open` with `O_CREAT`. -/
def create : List TtyNode → List TtyNode
  | [] => [.created]
  | l => l

/-- The host with something else at a path of homes. -/
def Host.setHome (h : Host) (path : Text) (f : List Dir → List Dir) : Host :=
  { h with homes := Function.update h.homes path (f (h.homes path)) }

/-- The host with something else at a path of terminals. -/
def Host.setTty (h : Host) (path : Text) (f : List TtyNode → List TtyNode) : Host :=
  { h with ttys := Function.update h.ttys path (f (h.ttys path)) }

/-! ### A session -/

/-- Which of the calls of a set-up fail. -/
structure Fails where
  /-- `mountns_capture_target`. -/
  captureTarget : Bool
  /-- `mountns_capture_ctty`. -/
  captureCtty : Bool
  /-- `nsenter_host`. -/
  enterNs : Bool
  /-- `publish_shim_binary`: `mkdir` of its directory, for another reason than `EEXIST`. -/
  publishMkdir : Bool
  /-- Opening `/proc/self/exe`. -/
  publishOpenExe : Bool
  /-- Opening the temporary file. -/
  publishOpenTmp : Bool
  /-- Reading or writing. -/
  publishCopy : Bool
  /-- Renaming the temporary file. -/
  publishRename : Bool
  /-- `mountns_resolve_source`. -/
  resolveSource : Bool
  /-- `mountns_bind_ctty`: `open`. -/
  openCtty : Bool
  /-- `move_mount`. -/
  moveCtty : Bool
  /-- `identity_username_exists_at`: opening `passwd`, for another reason than absence. -/
  readNames : Bool
  /-- `identity_alloc_uid`: opening the lock file. -/
  openUidLock : Bool
  /-- Locking it. -/
  flockUidLock : Bool
  /-- Opening `passwd`, for another reason than absence. -/
  readUids : Bool
  /-- `identity_write_entries_at`: the rewrite of a file. -/
  write : EtcFile → Bool
  /-- `identity_find_supplementary_groups_at`: opening `group`, for another reason than absence. -/
  readGroups : Bool
  /-- `identity_add_group_member_at`, by the place of the group. -/
  join : ℕ → Bool
  /-- `mountns_mkdir_home`: `mkdir`, for another reason than `EEXIST`. -/
  mkdirHome : Bool
  /-- `chown`. -/
  chownHome : Bool
  /-- `mountns_bind_mount`. -/
  bindMount : Bool
  /-- `write_active_user_marker`. -/
  marker : Bool

/-- What a session is set up with. -/
structure Env where
  /-- The session as it is asked for. -/
  request : Sessions.Request
  /-- The user and group of the shim. -/
  shim : ℕ × ℕ
  /-- Whether `NODE_TERMINAL_EXEC_MODE` is set. -/
  execMode : Bool
  /-- The shim's own binary. -/
  exe : Text
  /-- The directory at `src_path`. -/
  source : Dir
  /-- The calls that fail. -/
  fails : Fails

/-- `session_ctx_t` and the host, as far as the pipeline changes them. -/
structure Run where
  /-- The names. -/
  ctx : SessionCtx
  /-- The uid. -/
  uid : UInt32
  /-- The gid. -/
  gid : UInt32
  /-- Whether `uid_lock_fd` is open. -/
  uidLock : Bool
  /-- `inherited_groups`. -/
  inheritedGroups : List Text
  /-- `done_publish_shim`. -/
  donePublishShim : Bool
  /-- `done_bind_ctty`. -/
  doneBindCtty : Bool
  /-- `done_alloc_uid`. -/
  doneAllocUid : Bool
  /-- `done_write_identity`. -/
  doneWriteIdentity : Bool
  /-- `done_inherit_groups`. -/
  doneInheritGroups : Bool
  /-- `done_mkdir_home`. -/
  doneMkdirHome : Bool
  /-- `done_bind_mount`. -/
  doneBindMount : Bool
  /-- The host. -/
  host : Host

/-- `ctty_path`. -/
def cttyPath (ctx : SessionCtx) : Text := snprintf SHIM_PATH_MAX (SHIM_CTTY_BASE ++ "/ntty".toList ++ ctx.sessionId.val)

/-- `fopen(path, "r")`. -/
def fopen (failed : Bool) (path : Option Inode) : Opened := if failed then .failed else openFile path

/-! ### The steps

A step that returns `0` is `.ok`, any other `.error`; both say what is left. -/

/-- `nsenter_host`. -/
def nsenterHost (e : Env) (r : Run) : Except Run Run := if e.fails.enterNs then .error r else .ok r

/-- `publish_shim_binary`. -/
def publishShimBinary (e : Env) (r : Run) : Except Run Run :=
  if e.fails.publishMkdir then .error r
  else if e.fails.publishOpenExe then .error r
  else if e.fails.publishOpenTmp then .error r
  else if e.fails.publishCopy then .error { r with host := { r.host with binaryTmp := none } }
  else if e.fails.publishRename then .error { r with host := { r.host with binaryTmp := none } }
  else .ok { r with host := { r.host with binary := some e.exe, binaryTmp := none } }

/-- `mountns_resolve_source`. -/
def mountnsResolveSource (e : Env) (r : Run) : Except Run Run := if e.fails.resolveSource then .error r else .ok r

/-- `mountns_bind_ctty`. -/
def mountnsBindCtty (e : Env) (r : Run) : Except Run Run :=
  if e.fails.openCtty then .error r
  else
    let host := r.host.setTty (cttyPath r.ctx) create
    if e.fails.moveCtty then .error { r with host := host.setTty (cttyPath r.ctx) unlink }
    else .ok { r with host := host.setTty (cttyPath r.ctx) (.pty :: ·) }

/-- `mountns_unmount_ctty`. -/
def mountnsUnmountCtty (r : Run) : Run :=
  { r with host := (r.host.setTty (cttyPath r.ctx) umount).setTty (cttyPath r.ctx) unlink }

/-- `identity_alloc_uid`. -/
def identityAllocUid (e : Env) (r : Run) : Except Run Run :=
  if e.fails.openUidLock then .error r
  else if e.fails.flockUidLock then .error r
  else
    match identityFindFreeUid (fopen e.fails.readUids (r.host.etc .passwd)) SHIM_UID_RANGE_MIN SHIM_UID_RANGE_MAX with
    | none => .error r
    | some uid => .ok { r with uid := UInt32.ofNat uid, gid := UInt32.ofNat uid, uidLock := true }

/-- `identity_release_uid_lock`. -/
def identityReleaseUidLock (r : Run) : Run := { r with uidLock := false }

/-- The faults of the rewrites of `identity_write_entries_at`. -/
def Fails.writeFaults (fails : Fails) : WriteCall → Faults
  | .entry k => Sessions.rewriteFaults (!fails.write k)
  | .undo _ _ => Faults.none

/-- `identity_write_entries`. -/
def identityWriteEntries (e : Env) (r : Run) : Except Run Run :=
  let (rc, etc) := identityWriteEntriesAt e.shim e.fails.writeFaults r.host.etc r.ctx.username r.uid.toNat r.gid.toNat
    r.ctx.homeDir r.ctx.shell.val e.request.days
  let r := { r with host := { r.host with etc := etc } }
  if rc ≠ 0 then .error r else .ok r

/-- `identity_remove_entries`. -/
def identityRemoveEntries (e : Env) (r : Run) : Run :=
  { r with host := { r.host with
      etc := (identityRemoveEntriesAt e.shim (fun _ => Faults.none) r.host.etc r.ctx.username).2 } }

/-- `identity_add_group_member_at` for one of the groups to inherit, given with its place. -/
def joinGroup (e : Env) (r : Run) (group : Text × ℕ) : Run :=
  let ok := !e.fails.join group.2
  { r with
    host := { r.host with
      etc := (r.host.etc.rewrite e.shim (Sessions.rewriteFaults ok)
        (groupMemberTransform group.1 r.ctx.username true) .group).2 }
    inheritedGroups := if ok then r.inheritedGroups ++ [group.1] else r.inheritedGroups }

/-- `identity_inherit_groups`. -/
def identityInheritGroups (e : Env) (r : Run) : Run :=
  let groups := groupsToInherit (fopen e.fails.readGroups (r.host.etc .group)) e.request.referenceUser
  groups.zipIdx.foldl (joinGroup e) r

/-- `identity_remove_group_member_at`. -/
def leaveGroup (e : Env) (username : Text) (etc : EtcFiles) (group : Text) : EtcFiles :=
  (etc.rewrite e.shim Faults.none (groupMemberTransform group username false) .group).2

/-- `identity_leave_inherited_groups`. -/
def identityLeaveInheritedGroups (e : Env) (r : Run) : Run :=
  { r with
    host := { r.host with etc := r.inheritedGroups.foldl (leaveGroup e r.ctx.username) r.host.etc }
    inheritedGroups := [] }

/-- `mountns_mkdir_home`. -/
def mountnsMkdirHome (e : Env) (r : Run) : Except Run Run :=
  if e.fails.mkdirHome then .error r
  else
    -- `EEXIST` is taken for success
    let host := r.host.setHome r.ctx.homeDir (mkdir e.shim)
    if e.fails.chownHome then .error { r with host := host.setHome r.ctx.homeDir rmdir }
    else .ok { r with host := host.setHome r.ctx.homeDir (chown r.uid.toNat r.gid.toNat) }

/-- `mountns_rmdir_home`. -/
def mountnsRmdirHome (r : Run) : Run := { r with host := r.host.setHome r.ctx.homeDir rmdir }

/-- `mountns_bind_mount`. -/
def mountnsBindMount (e : Env) (r : Run) : Except Run Run :=
  if e.fails.bindMount then .error r
  else .ok { r with host := r.host.setHome r.ctx.homeDir (e.source :: ·) }

/-- `mountns_unmount`. -/
def mountnsUnmount (r : Run) : Run := { r with host := r.host.setHome r.ctx.homeDir umount }

/-- `write_active_user_marker`. -/
def writeActiveUserMarker (e : Env) (r : Run) : Except Run Run := if e.fails.marker then .error r else .ok r

/-! ### The pipeline -/

/-- `rollback` of the home directory. The processes that `cleanup_full_sweep` kills before are not seen here. -/
def rollbackHome (r : Run) : Run :=
  let r := if r.doneBindMount then { mountnsUnmount r with doneBindMount := false } else r
  if r.doneMkdirHome then { mountnsRmdirHome r with doneMkdirHome := false } else r

/-- `rollback` of the account. -/
def rollbackAccount (e : Env) (r : Run) : Run :=
  let r := if r.doneInheritGroups then { identityLeaveInheritedGroups e r with doneInheritGroups := false } else r
  if r.doneWriteIdentity then { identityRemoveEntries e r with doneWriteIdentity := false } else r

/-- `rollback` of the rest: the uid lock, the terminal and the binary. -/
def rollbackRest (r : Run) : Run :=
  let r := if r.doneAllocUid then { identityReleaseUidLock r with doneAllocUid := false } else r
  let r := if r.doneBindCtty then { mountnsUnmountCtty r with doneBindCtty := false } else r
  if r.donePublishShim then { r with host := { r.host with binary := none }, donePublishShim := false } else r

/-- `rollback`. -/
def rollback (e : Env) (r : Run) : Run := rollbackRest (rollbackAccount e (rollbackHome r))

/-- The steps of `pipeline_run` up to `identity_alloc_uid`: they enter the host and prepare. -/
def enterHost (e : Env) (r : Run) : Except Run Run := do
  let r ← nsenterHost e r
  let r ← (if e.execMode then (publishShimBinary e r).map ({ · with donePublishShim := true }) else .ok r)
  let r ← mountnsResolveSource e r
  let r ← mountnsBindCtty e r
  let r := { r with doneBindCtty := true }
  let r := { r with ctx := identityResolveUsername (fopen e.fails.readNames (r.host.etc .passwd)) r.ctx }
  let r ← identityAllocUid e r
  .ok { r with doneAllocUid := true }

/-- The steps that make an account. -/
def makeAccount (e : Env) (r : Run) : Except Run Run := do
  let r ← identityWriteEntries e r
  let r := { r with doneWriteIdentity := true }
  let r := identityInheritGroups e r
  let r := { r with doneInheritGroups := true }
  .ok (identityReleaseUidLock r)

/-- The steps that make a home directory, and the last one. -/
def makeHome (e : Env) (r : Run) : Except Run Run := do
  let r ← mountnsMkdirHome e r
  let r := { r with doneMkdirHome := true }
  let r ← mountnsBindMount e r
  let r := { r with doneBindMount := true }
  if e.execMode then writeActiveUserMarker e r else .ok r

/-- What `pipeline_run` starts with: nothing is done. -/
def Run.start (e : Env) (host : Host) : Run :=
  ⟨e.request.ctx, 0, 0, false, [], false, false, false, false, false, false, false, host⟩

/-- `pipeline_run` on a host: what it returns, and what it leaves. The session itself, between the
set-up and the rollback, is not seen here. -/
def pipelineRun (e : Env) (host : Host) : ℤ × Run :=
  let r := Run.start e host
  if e.fails.captureTarget then (1, r)
  else if e.fails.captureCtty then (1, r)
  else
    match enterHost e r >>= makeAccount e >>= makeHome e with
    | .error r => (1, rollback e r)
    | .ok r => (0, rollback e r)

/-! ### What is promised -/

/-- A run of the pipeline leaves the host as it was. -/
structure Restored (h : Host) (r : Run) : Prop where
  /-- The homes there were are there, with their owners, and no others. -/
  homes : ∀ p, (r.host.homes p).head?.map Dir.owner = (h.homes p).head?.map Dir.owner
  /-- Nothing more is mounted on them. -/
  mounts : ∀ p, (r.host.homes p).length - 1 ≤ (h.homes p).length - 1
  /-- A terminal is gone, with what was mounted on it, or was never touched. -/
  ttys : ∀ p, r.host.ttys p = [] ∨ r.host.ttys p = h.ttys p
  /-- The account files say what they said. -/
  lines : ∀ k, r.host.etc.lines k = h.etc.lines k
  /-- The published binary is gone, or was never published. -/
  binary : r.host.binary = none ∨ r.host.binary = h.binary
  /-- The uid lock is released. -/
  lock : r.uidLock = false

/-- The names the session settles on. -/
def Env.settled (e : Env) (h : Host) : SessionCtx :=
  identityResolveUsername (fopen e.fails.readNames (h.etc .passwd)) e.request.ctx

/-- The uid it finds. -/
def Env.freeUid (e : Env) (h : Host) : Option ℕ :=
  identityFindFreeUid (fopen e.fails.readUids (h.etc .passwd)) SHIM_UID_RANGE_MIN SHIM_UID_RANGE_MAX

/-- The groups it joins. -/
def Env.joined (e : Env) (h : Host) : List Text :=
  ((groupsToInherit (fopen e.fails.readGroups (h.etc .group)) e.request.referenceUser).zipIdx.filter
    fun g => !e.fails.join g.2).map (·.1)

/-- No call before `identity_write_entries` fails. -/
structure Env.Enters (e : Env) (h : Host) : Prop where
  /-- In the container. -/
  container : e.fails.captureTarget = false ∧ e.fails.captureCtty = false ∧ e.fails.enterNs = false
  /-- In `publish_shim_binary`. -/
  publish : e.execMode = true → e.fails.publishMkdir = false ∧ e.fails.publishOpenExe = false ∧
    e.fails.publishOpenTmp = false ∧ e.fails.publishCopy = false ∧ e.fails.publishRename = false
  /-- On the mounts. -/
  mounts : e.fails.resolveSource = false ∧ e.fails.openCtty = false ∧ e.fails.moveCtty = false
  /-- In `identity_alloc_uid`. -/
  uid : e.fails.openUidLock = false ∧ e.fails.flockUidLock = false ∧ (e.freeUid h).isSome = true

/-- No line of the file starts with the name. -/
def Fresh (h : Host) (username : Text) (k : EtcFile) : Prop :=
  ∀ l ∈ h.etc.lines k, ¬ username ++ [':'] <+: l

/-- What is at a home path stands `mountns_mkdir_home` and `mountns_rmdir_home`. -/
def HomeStays (e : Env) (owner : ℕ × ℕ) : List Dir → Prop
  | [] => True
  | [d] => d.entries ≠ [] ∧ (e.fails.chownHome = true ∨ d.owner = owner)
  | d :: _ :: _ => e.fails.chownHome = true ∨ d.owner = owner

/-- The host before the session is one that comes back from the steps the session gets to. -/
def Restorable (e : Env) (h : Host) : Prop :=
  e.Enters h → ∀ uid ∈ e.freeUid h,
    let ctx := e.settled h
    e.fails.write .passwd = false →
      Fresh h ctx.username .passwd ∧
      (∀ l ∈ (fileLines (ctx.shell.val ++ ['\n'])).tail, ctx.username ++ [':'] <+: l) ∧
      (e.fails.write .group = false →
        Fresh h ctx.username .group ∧
        (e.fails.write .shadow = false →
          Fresh h ctx.username .shadow ∧
          (∀ g ∈ e.joined h, ∀ l ∈ h.etc.lines .group, g ++ [':'] <+: l → Tidy ctx.username l) ∧
          (e.fails.mkdirHome = false → HomeStays e (uid, uid) (h.homes ctx.homeDir))))

/-! ### Entering the host -/

/-- The steps end in `P` when they succeed and in `Q` when one fails. -/
def Ends (P Q : Run → Prop) : Except Run Run → Prop
  | .ok r => P r
  | .error r => Q r

theorem Ends.mono {P P' Q Q' : Run → Prop} {x : Except Run Run} (hx : Ends P Q x) (hP : ∀ r, P r → P' r)
    (hQ : ∀ r, Q r → Q' r) : Ends P' Q' x := by
  cases x with
  | ok r => exact hP r hx
  | error r => exact hQ r hx

theorem Ends.bind {P P' Q : Run → Prop} {x : Except Run Run} {f : Run → Except Run Run} (hx : Ends P Q x)
    (hf : ∀ r, P r → Ends P' Q (f r)) : Ends P' Q (x >>= f) := by
  cases x with
  | ok r => exact hf r hx
  | error r => exact hx

/-! ### What the rollback leaves -/

/-- The homes after `rollback`. -/
def homesLeft (r : Run) : Text → List Dir :=
  let homes := if r.doneBindMount then Function.update r.host.homes r.ctx.homeDir (umount (r.host.homes r.ctx.homeDir))
    else r.host.homes
  if r.doneMkdirHome then Function.update homes r.ctx.homeDir (rmdir (homes r.ctx.homeDir)) else homes

/-- The account files after `rollback`. -/
def etcLeft (e : Env) (r : Run) : EtcFiles :=
  let etc := if r.doneInheritGroups then r.inheritedGroups.foldl (leaveGroup e r.ctx.username) r.host.etc
    else r.host.etc
  if r.doneWriteIdentity then (identityRemoveEntriesAt e.shim (fun _ => Faults.none) etc r.ctx.username).2 else etc

/-- The terminals after `rollback`. -/
def ttysLeft (r : Run) : Text → List TtyNode :=
  if r.doneBindCtty then
    Function.update r.host.ttys (cttyPath r.ctx) (unlink (umount (r.host.ttys (cttyPath r.ctx))))
  else r.host.ttys

theorem rollbackHome_eq (r : Run) :
    rollbackHome r =
      { r with host := { r.host with homes := homesLeft r }, doneBindMount := false, doneMkdirHome := false } := by
  cases r with
  | mk ctx uid gid uidLock groups publish ctty alloc write inherit made mounted host =>
    cases mounted <;> cases made <;>
      simp [rollbackHome, homesLeft, mountnsUnmount, mountnsRmdirHome, Host.setHome]

theorem rollbackAccount_eq (e : Env) (r : Run) :
    rollbackAccount e r =
      { r with
        host := { r.host with etc := etcLeft e r }
        inheritedGroups := if r.doneInheritGroups then [] else r.inheritedGroups
        doneInheritGroups := false
        doneWriteIdentity := false } := by
  cases r with
  | mk ctx uid gid uidLock groups publish ctty alloc write inherit made mounted host =>
    cases inherit <;> cases write <;>
      simp [rollbackAccount, etcLeft, identityLeaveInheritedGroups, identityRemoveEntries]

theorem rollbackRest_eq (r : Run) :
    rollbackRest r =
      { r with
        host := { r.host with
          ttys := ttysLeft r
          binary := if r.donePublishShim then none else r.host.binary }
        uidLock := r.uidLock && !r.doneAllocUid
        doneAllocUid := false
        doneBindCtty := false
        donePublishShim := false } := by
  cases r with
  | mk ctx uid gid uidLock groups publish ctty alloc write inherit made mounted host =>
    cases alloc <;> cases ctty <;> cases publish <;>
      simp [rollbackRest, ttysLeft, identityReleaseUidLock, mountnsUnmountCtty, Host.setTty]

/-- The terminal, the binary and the lock are touched only where the flags say so. -/
structure Aside (h : Host) (r : Run) : Prop where
  ttys : ∀ p, ttysLeft r p = [] ∨ ttysLeft r p = h.ttys p
  binary : r.donePublishShim = true ∨ r.host.binary = h.binary
  lock : r.uidLock = true → r.doneAllocUid = true

/-- What is left to show of a run in which only homes and account files matter. -/
theorem restored_rollback_iff {e : Env} {h : Host} {r : Run} (hr : Aside h r) :
    Restored h (rollback e r) ↔
      (∀ p, (homesLeft r p).head?.map Dir.owner = (h.homes p).head?.map Dir.owner ∧
        (homesLeft r p).length - 1 ≤ (h.homes p).length - 1) ∧
      ∀ k, (etcLeft e r).lines k = h.etc.lines k := by
  rw [rollback, rollbackHome_eq, rollbackAccount_eq, rollbackRest_eq]
  constructor
  · intro hres
    exact ⟨fun p => ⟨hres.homes p, hres.mounts p⟩, hres.lines⟩
  · rintro ⟨hhomes, hlines⟩
    exact {
      homes := fun p => (hhomes p).1
      mounts := fun p => (hhomes p).2
      ttys := hr.ttys
      lines := hlines
      binary := by
        rcases hr.binary with hp | hb
        · simp [hp]
        · simp only
          split
          · exact Or.inl rfl
          · exact Or.inr hb
      lock := by
        have := hr.lock
        cases hl : r.uidLock <;> simp_all }

/-- Nothing but the terminal and the binary is touched, and of those only what the flags say. -/
structure Untouched (h : Host) (r : Run) : Prop extends Aside h r where
  etc : r.host.etc = h.etc
  homes : r.host.homes = h.homes
  flags : r.doneWriteIdentity = false ∧ r.doneInheritGroups = false ∧ r.doneMkdirHome = false ∧ r.doneBindMount = false
  groups : r.inheritedGroups = []

/-- The terminal is untouched too, and there is no uid yet. -/
structure Waiting (e : Env) (h : Host) (r : Run) : Prop extends Untouched h r where
  ctx : r.ctx = e.request.ctx
  ttysEq : r.host.ttys = h.ttys
  noCtty : r.doneBindCtty = false
  noLock : r.uidLock = false

/-- The terminal is there, and there is no uid yet. -/
structure Named (e : Env) (h : Host) (r : Run) : Prop extends Untouched h r where
  ctx : r.ctx = e.settled h
  noLock : r.uidLock = false

/-- The session has its names and its uid. -/
structure Entered (e : Env) (h : Host) (uid : ℕ) (r : Run) : Prop extends Untouched h r where
  ctx : r.ctx = e.settled h
  found : uid ∈ e.freeUid h
  uidEq : r.uid = UInt32.ofNat uid
  gidEq : r.gid = UInt32.ofNat uid
  hasLock : r.doneAllocUid = true

variable {e : Env} {h : Host} {r : Run}

theorem waiting_start (e : Env) (h : Host) : Waiting e h (Run.start e h) where
  etc := rfl
  homes := rfl
  flags := ⟨rfl, rfl, rfl, rfl⟩
  groups := rfl
  ttys _ := Or.inr rfl
  binary := Or.inr rfl
  lock h := h
  ctx := rfl
  ttysEq := rfl
  noCtty := rfl
  noLock := rfl

theorem nsenterHost_ends (hr : Waiting e h r) :
    Ends (fun r => Waiting e h r ∧ e.fails.enterNs = false) (fun r => Untouched h r ∧ ¬ e.Enters h) (nsenterHost e r) := by
  rw [nsenterHost]
  split
  · next hf =>
    exact ⟨hr.toUntouched, fun he => by simp [he.container.2.2] at hf⟩
  · next hf =>
    exact ⟨hr, by simpa using hf⟩

theorem publishShimBinary_ends (hr : Waiting e h r) :
    Ends (fun r => Waiting e h r ∧ (e.execMode = true → e.fails.publishMkdir = false ∧ e.fails.publishOpenExe = false ∧
        e.fails.publishOpenTmp = false ∧ e.fails.publishCopy = false ∧ e.fails.publishRename = false))
      (fun r => Untouched h r ∧ ¬ e.Enters h)
      (if e.execMode then (publishShimBinary e r).map ({ · with donePublishShim := true }) else .ok r) := by
  by_cases hmode : e.execMode = true
  · rw [if_pos hmode]
    have htmp : Untouched h { r with host := { r.host with binaryTmp := none } } := { hr.toUntouched with }
    rw [publishShimBinary]
    repeat' split
    · next hf => exact ⟨hr.toUntouched, fun he => by simp [he.publish hmode] at hf⟩
    · next hf => exact ⟨hr.toUntouched, fun he => by simp [he.publish hmode] at hf⟩
    · next hf => exact ⟨hr.toUntouched, fun he => by simp [he.publish hmode] at hf⟩
    · next hf => exact ⟨htmp, fun he => by simp [he.publish hmode] at hf⟩
    · next hf => exact ⟨htmp, fun he => by simp [he.publish hmode] at hf⟩
    · next h1 h2 h3 h4 h5 =>
      exact ⟨{ hr with binary := Or.inl rfl }, fun _ => by simp [h1, h2, h3, h4, h5]⟩
  · rw [if_neg hmode]
    exact ⟨hr, fun h => absurd h hmode⟩

theorem mountnsResolveSource_ends (hr : Waiting e h r) :
    Ends (fun r => Waiting e h r ∧ e.fails.resolveSource = false) (fun r => Untouched h r ∧ ¬ e.Enters h)
      (mountnsResolveSource e r) := by
  rw [mountnsResolveSource]
  split
  · next hf =>
    exact ⟨hr.toUntouched, fun he => by simp [he.mounts.1] at hf⟩
  · next hf =>
    exact ⟨hr, by simpa using hf⟩

theorem unlink_create (l : List TtyNode) : unlink (create l) = [] ∨ unlink (create l) = l := by
  match l with
  | [] => exact Or.inl rfl
  | [_] => exact Or.inl rfl
  | _ :: _ :: _ => exact Or.inr rfl

theorem umount_mounted {α : Type} (a : α) {l : List α} (hl : l ≠ []) : umount (a :: l) = l := by
  obtain ⟨b, l, rfl⟩ := List.exists_cons_of_ne_nil hl
  rfl

theorem create_ne_nil (l : List TtyNode) : create l ≠ [] := by
  cases l <;> simp [create]

theorem mountnsBindCtty_ends (hr : Waiting e h r) :
    Ends (fun r => (Untouched h { r with doneBindCtty := true } ∧ r.ctx = e.request.ctx ∧ r.uidLock = false) ∧
        e.fails.openCtty = false ∧ e.fails.moveCtty = false)
      (fun r => Untouched h r ∧ ¬ e.Enters h) (mountnsBindCtty e r) := by
  rw [mountnsBindCtty]
  split
  · next hf => exact ⟨hr.toUntouched, fun he => by simp [he.mounts.2.1] at hf⟩
  · next ho =>
    split
    · next hf =>
      refine ⟨{ hr.toUntouched with ttys := fun p => ?_ }, fun he => by simp [he.mounts.2.2] at hf⟩
      simp only [ttysLeft, hr.noCtty, Bool.false_eq_true, if_false, Host.setTty, hr.ttysEq, Function.update_idem,
        Function.update_self]
      by_cases hp : p = cttyPath r.ctx
      · subst hp
        rw [Function.update_self]
        exact unlink_create _
      · exact Or.inr (Function.update_of_ne hp ..)
    · next hm =>
      refine ⟨⟨{ hr.toUntouched with ttys := fun p => ?_ }, hr.ctx, hr.noLock⟩, by simpa using ho, by simpa using hm⟩
      simp only [ttysLeft, if_true, Host.setTty, hr.ttysEq, Function.update_idem, Function.update_self,
        umount_mounted _ (create_ne_nil _)]
      by_cases hp : p = cttyPath r.ctx
      · subst hp
        rw [Function.update_self]
        exact unlink_create _
      · exact Or.inr (Function.update_of_ne hp ..)

theorem identityResolveUsername_sessionId (passwd : Opened) (ctx : SessionCtx) :
    (identityResolveUsername passwd ctx).sessionId = ctx.sessionId := by
  rw [identityResolveUsername]
  split <;> rfl

theorem identityAllocUid_ends (hr : Named e h r) :
    Ends (fun r => ∃ uid, Entered e h uid { r with doneAllocUid := true } ∧
        e.fails.openUidLock = false ∧ e.fails.flockUidLock = false)
      (fun r => Untouched h r ∧ ¬ e.Enters h) (identityAllocUid e r) := by
  rw [identityAllocUid]
  split
  · next hf => exact ⟨hr.toUntouched, fun he => by simp [he.uid.1] at hf⟩
  split
  · next hf => exact ⟨hr.toUntouched, fun he => by simp [he.uid.2.1] at hf⟩
  next ho hl =>
    split
    · next hf =>
      rw [hr.etc] at hf
      have hnone : ¬ e.Enters h := by
        intro he
        have huid := he.uid.2.2
        rw [Env.freeUid, hf] at huid
        cases huid
      exact ⟨hr.toUntouched, hnone⟩
    · next uid hf =>
      rw [hr.etc] at hf
      have hent : Entered e h uid { r with
          uid := UInt32.ofNat uid, gid := UInt32.ofNat uid, uidLock := true, doneAllocUid := true } :=
        { hr.toUntouched with ctx := hr.ctx, found := hf, uidEq := rfl, gidEq := rfl, hasLock := rfl, lock := fun _ => rfl }
      exact ⟨uid, hent, by simpa using ho, by simpa using hl⟩

/-- **Entering the host**: the session has its names and its uid, or a step fails and hardly anything is touched. -/
theorem enterHost_ends (hc : e.fails.captureTarget = false ∧ e.fails.captureCtty = false) :
    Ends (fun r => e.Enters h ∧ ∃ uid, Entered e h uid r) (fun r => Untouched h r ∧ ¬ e.Enters h)
      (enterHost e (Run.start e h)) := by
  rw [enterHost]
  refine (nsenterHost_ends (waiting_start e h)).bind fun r₁ ⟨h₁, hns⟩ => ?_
  refine (publishShimBinary_ends h₁).bind fun r₂ ⟨h₂, hpublish⟩ => ?_
  refine (mountnsResolveSource_ends h₂).bind fun r₃ ⟨h₃, hsource⟩ => ?_
  refine (mountnsBindCtty_ends h₃).bind fun r₄ ⟨⟨h₄, hctx, hlock⟩, hopen, hmove⟩ => ?_
  have hnamed : Named e h { r₄ with
      doneBindCtty := true, ctx := identityResolveUsername (fopen e.fails.readNames (r₄.host.etc .passwd)) r₄.ctx } := by
    have hetc : r₄.host.etc = h.etc := h₄.etc
    refine { h₄ with ctx := ?_, noLock := hlock, ttys := ?_ }
    · have htty := h₄.ttys
      simp only [ttysLeft, cttyPath, identityResolveUsername_sessionId] at htty ⊢
      exact htty
    · show identityResolveUsername (fopen e.fails.readNames (r₄.host.etc .passwd)) r₄.ctx = e.settled h
      rw [hetc, hctx]
      rfl
  refine (identityAllocUid_ends hnamed).bind fun r₅ ⟨uid, h₅, hlockfile, hflock⟩ => ?_
  refine ⟨⟨⟨hc.1, hc.2, hns⟩, hpublish, ⟨hsource, hopen, hmove⟩, hlockfile, hflock, ?_⟩, uid, h₅⟩
  exact Option.isSome_iff_exists.mpr ⟨uid, h₅.found⟩

theorem Untouched.restored (hr : Untouched h r) : Restored h (rollback e r) := by
  obtain ⟨hwrite, hinherit, hmade, hmounted⟩ := hr.flags
  refine (restored_rollback_iff hr.toAside).mpr ⟨fun p => ?_, fun k => ?_⟩
  · simp [homesLeft, hmade, hmounted, hr.homes]
  · simp [etcLeft, hwrite, hinherit, hr.etc]

/-! ### The account files -/

theorem rewrite_rewriteFaults (f : EtcFiles) (shim : ℕ × ℕ) (ok : Bool) (fn : AtomicTransform) (k : EtcFile) :
    f.rewrite shim (Sessions.rewriteFaults ok) fn k = if ok then f.rewrite shim Faults.none fn k else (-1, f) := by
  cases ok with
  | true => rfl
  | false =>
    rw [EtcFiles.rewrite, atomicRewriteFile_reported Sessions.reported_rewriteFaults]
    simp

theorem lines_update_of_ne (f : EtcFiles) {k k' : EtcFile} (hk : k' ≠ k) (i : Option Inode) :
    EtcFiles.lines (Function.update f k i) k' = f.lines k' := by
  rw [EtcFiles.lines_eq, EtcFiles.lines_eq, contents_update_of_ne f hk]

theorem newline_notMem_of_mem_lines {f : EtcFiles} {k : EtcFile} {l : Text} (hl : l ∈ f.lines k) : '\n' ∉ l := by
  rw [EtcFiles.lines_eq] at hl
  obtain ⟨raw, -, rfl⟩ := List.mem_map.mp hl
  exact newline_notMem_chomp raw

/-- The lines a session has in a file. -/
def entryLines (e : Env) (r : Run) (k : EtcFile) : List Text :=
  fileLines (entryLine r.ctx.username r.uid.toNat r.gid.toNat r.ctx.homeDir r.ctx.shell.val e.request.days k ++ ['\n'])

/-- Whether a removal by name leaves a line. -/
def stays (username l : Text) : Bool := !(entryPrefix username).isPrefixOf l

theorem stays_iff (ctx : SessionCtx) (l : Text) : stays ctx.username l = true ↔ ¬ ctx.username ++ [':'] <+: l := by
  rw [stays, Bool.not_eq_true', ← Bool.not_eq_true, List.isPrefixOf_iff_prefix, entryPrefix_eq ctx.valid]

/-- The account files with the entry of one of them. -/
def putEntry (e : Env) (r : Run) (f : EtcFiles) (k : EtcFile) : EtcFiles :=
  (f.rewrite e.shim Faults.none (appendTransform (entryLine r.ctx.username r.uid.toNat r.gid.toNat r.ctx.homeDir
    r.ctx.shell.val e.request.days k)) k).2

/-- The account files without the lines of a name in one of them. -/
def takeEntry (e : Env) (username : Text) (f : EtcFiles) (k : EtcFile) : EtcFiles :=
  (f.rewrite e.shim Faults.none (removeTransform (entryPrefix username)) k).2

theorem rewrite_putEntry (e : Env) (r : Run) (f : EtcFiles) (k : EtcFile) :
    f.rewrite e.shim Faults.none (appendTransform (entryLine r.ctx.username r.uid.toNat r.gid.toNat r.ctx.homeDir
      r.ctx.shell.val e.request.days k)) k = (0, putEntry e r f k) := by
  rw [putEntry, rewrite_append]

theorem rewrite_takeEntry (e : Env) (username : Text) (f : EtcFiles) (k : EtcFile) :
    f.rewrite e.shim Faults.none (removeTransform (entryPrefix username)) k = (0, takeEntry e username f k) := by
  rw [takeEntry, rewrite_remove]

theorem lines_putEntry (e : Env) (r : Run) (f : EtcFiles) (k k' : EtcFile) :
    (putEntry e r f k).lines k' = if k' = k then f.lines k ++ entryLines e r k else f.lines k' := by
  rw [putEntry, rewrite_append]
  split
  · next h =>
    rw [h, EtcFiles.lines_eq, contents_update_self, fileLines_terminate_append, ← EtcFiles.lines_eq, entryLines]
  · next h => exact lines_update_of_ne f h _

theorem lines_takeEntry (e : Env) {ctx : SessionCtx} (f : EtcFiles) (k k' : EtcFile) :
    (takeEntry e ctx.username f k).lines k' = if k' = k then (f.lines k).filter (stays ctx.username) else f.lines k' := by
  rw [takeEntry, rewrite_remove]
  split
  · next h =>
    rw [h, EtcFiles.lines_eq, contents_update_self, fileLines_remove (newline_notMem_entryPrefix ctx.valid),
      ← EtcFiles.lines_eq]
    rfl
  · next h => exact lines_update_of_ne f h _

/-- When the entry of a file is removed by name, the file says what it said if no line of it starts
with the name and every line of the entry does. -/
theorem entry_removed_iff (e : Env) (h : Host) (r : Run) (k : EtcFile) :
    (h.etc.lines k ++ entryLines e r k).filter (stays r.ctx.username) = h.etc.lines k ↔
      Fresh h r.ctx.username k ∧
        (k = .passwd → ∀ l ∈ (fileLines (r.ctx.shell.val ++ ['\n'])).tail, r.ctx.username ++ [':'] <+: l) := by
  have hkeep : (∀ l ∈ h.etc.lines k, stays r.ctx.username l = true) ↔ Fresh h r.ctx.username k :=
    forall₂_congr fun l _ => stays_iff r.ctx l
  have hdrop (l : Text) : stays r.ctx.username l = false ↔ r.ctx.username ++ [':'] <+: l := by
    rw [← Bool.not_eq_true, stays_iff, not_not]
  rw [List.filter_append, filter_append_filter_eq_iff, hkeep]
  refine and_congr_right fun _ => ?_
  simp only [hdrop]
  by_cases hk : k = .passwd
  · subst hk
    obtain ⟨l, hl, hlines⟩ := entryLine_passwd r.ctx r.uid r.gid e.request.days
    rw [entryPrefix_eq r.ctx.valid] at hl
    rw [entryLines, hlines]
    simp [hl]
  · rw [entryLines, fileLines_entryLine r.ctx.valid _ _ _ _ _ hk]
    have hpre := entryPrefix_prefix_entryLine r.ctx.valid r.uid.toNat r.gid.toNat r.ctx.homeDir r.ctx.shell.val
      e.request.days k
    rw [entryPrefix_eq r.ctx.valid] at hpre
    simp [hk, hpre]

/-- What `Restorable` says of the entries, with `P` for what it says of the steps after them. -/
def EntriesComeBack (e : Env) (h : Host) (ctx : SessionCtx) (P : Prop) : Prop :=
  e.fails.write .passwd = false →
    Fresh h ctx.username .passwd ∧
    (∀ l ∈ (fileLines (ctx.shell.val ++ ['\n'])).tail, ctx.username ++ [':'] <+: l) ∧
    (e.fails.write .group = false →
      Fresh h ctx.username .group ∧ (e.fails.write .shadow = false → Fresh h ctx.username .shadow ∧ P))

/-- The same run with other account files. -/
def Run.withEtc (r : Run) (etc : EtcFiles) : Run := { r with host := { r.host with etc := etc } }

theorem forall_etcFile {P : EtcFile → Prop} : (∀ k, P k) ↔ P .passwd ∧ P .group ∧ P .shadow := by
  constructor
  · intro h
    exact ⟨h _, h _, h _⟩
  · rintro ⟨hp, hg, hs⟩ k
    cases k with
    | passwd => exact hp
    | group => exact hg
    | shadow => exact hs

/-- **Writing the entries**: they are behind the lines there were, or a rewrite fails, and what is
undone then comes back if the files are free of the name. -/
theorem identityWriteEntries_ends (hr : r.host.etc = h.etc) :
    Ends
      (fun r' => ∃ etc, r' = r.withEtc etc ∧ (∀ k, e.fails.write k = false) ∧
        ∀ k, etc.lines k = h.etc.lines k ++ entryLines e r k)
      (fun r' => ∃ etc, r' = r.withEtc etc ∧
        ∀ P, (∀ k, etc.lines k = h.etc.lines k) ↔ EntriesComeBack e h r.ctx P)
      (identityWriteEntries e r) := by
  have hpasswd := entry_removed_iff e h r .passwd
  have hgroup := entry_removed_iff e h r .group
  simp only [forall_const, reduceCtorEq, false_implies, and_true] at hpasswd hgroup
  rw [identityWriteEntries, identityWriteEntriesAt]
  simp only [Fails.writeFaults, rewrite_rewriteFaults, hr]
  cases hp : e.fails.write .passwd with
  | true =>
    refine ⟨h.etc, by simp [Run.withEtc], fun P => ?_⟩
    simp [EntriesComeBack, hp]
  | false =>
    simp only [Bool.not_false, if_true, rewrite_putEntry, rewrite_takeEntry]
    cases hg : e.fails.write .group with
    | true =>
      refine ⟨takeEntry e r.ctx.username (putEntry e r h.etc .passwd) .passwd, by simp [Run.withEtc], fun P => ?_⟩
      simp [-List.filter_append, forall_etcFile, lines_takeEntry, lines_putEntry, EntriesComeBack, hp, hg, hpasswd]
    | false =>
      simp only [Bool.not_false, if_true]
      cases hs : e.fails.write .shadow with
      | true =>
        refine ⟨takeEntry e r.ctx.username (takeEntry e r.ctx.username
          (putEntry e r (putEntry e r h.etc .passwd) .group) .passwd) .group, by simp [Run.withEtc], fun P => ?_⟩
        simp [-List.filter_append, forall_etcFile, lines_takeEntry, lines_putEntry, EntriesComeBack, hp, hg, hs, hpasswd,
          hgroup, and_assoc]
      | false =>
        refine ⟨putEntry e r (putEntry e r (putEntry e r h.etc .passwd) .group) .shadow, by simp [Run.withEtc], ?_, ?_⟩
        · exact forall_etcFile.mpr ⟨hp, hg, hs⟩
        · simp [forall_etcFile, lines_putEntry]

/-! ### The groups -/

/-- The groups of a list that are joined. -/
def joinedOf (e : Env) (groups : List (Text × ℕ)) : List Text := (groups.filter fun g => !e.fails.join g.2).map (·.1)

theorem username_ne_nil (ctx : SessionCtx) : ctx.username ≠ [] := by
  intro hnil
  have hvalid := ctx.valid
  rw [hnil] at hvalid
  cases hvalid

theorem plain_username (ctx : SessionCtx) : Plain ctx.username where
  colon := colon_notMem_username ctx.valid
  newline := newline_notMem_username ctx.valid
  nul hc := absurd (validUsername_mem ctx.valid hc) (by decide)

theorem lines_rewrite_of_ne (f : EtcFiles) (shim : ℕ × ℕ) (fl : Faults) (fn : AtomicTransform) {k k' : EtcFile}
    (hk : k' ≠ k) : (f.rewrite shim fl fn k).2.lines k' = f.lines k' := lines_update_of_ne f hk _

/-- Joining groups rewrites the lines of the group file, and nothing else changes but the list of
the groups joined. -/
theorem foldl_joinGroup (e : Env) (groups : List (Text × ℕ)) (hg : ∀ g ∈ groups, '\n' ∉ g.1) (r : Run) :
    ∃ etc, groups.foldl (joinGroup e) r =
        { r.withEtc etc with inheritedGroups := r.inheritedGroups ++ joinedOf e groups } ∧
      etc.lines .group = (r.host.etc.lines .group).map (memberLines (joinedOf e groups) r.ctx.username true) ∧
      ∀ k, k ≠ .group → etc.lines k = r.host.etc.lines k := by
  induction groups generalizing r with
  | nil => exact ⟨r.host.etc, by simp [Run.withEtc, joinedOf], by simp [joinedOf, memberLines_nil], fun _ _ => rfl⟩
  | cons g groups ih =>
    obtain ⟨etc, heq, hgroup, hother⟩ := ih (fun g hg' => hg g (List.mem_cons_of_mem _ hg')) (joinGroup e r g)
    have hnl := hg g List.mem_cons_self
    refine ⟨etc, ?_, ?_, fun k hk => ?_⟩
    · rw [List.foldl_cons, heq]
      cases hj : e.fails.join g.2 <;> simp [joinGroup, hj, joinedOf, Run.withEtc]
    · rw [hgroup]
      simp only [joinGroup, rewrite_rewriteFaults]
      cases hj : e.fails.join g.2 with
      | true => simp [joinedOf, hj]
      | false =>
        simp only [Bool.not_false, if_true, lines_groupMember _ _ hnl (plain_username r.ctx).newline, List.map_map]
        simp [joinedOf, hj, memberLines_cons]
    · rw [hother k hk]
      exact lines_rewrite_of_ne _ _ _ _ hk

/-- Leaving them rewrites those lines again. -/
theorem foldl_leaveGroup (e : Env) {username : Text} (hu : '\n' ∉ username) (groups : List Text)
    (hg : ∀ g ∈ groups, '\n' ∉ g) (etc : EtcFiles) :
    (groups.foldl (leaveGroup e username) etc).lines .group = (etc.lines .group).map (memberLines groups username false) ∧
      ∀ k, k ≠ .group → (groups.foldl (leaveGroup e username) etc).lines k = etc.lines k := by
  induction groups generalizing etc with
  | nil => exact ⟨by simp [memberLines_nil], fun _ _ => rfl⟩
  | cons g groups ih =>
    obtain ⟨hgroup, hother⟩ := ih (fun g hg' => hg g (List.mem_cons_of_mem _ hg')) (leaveGroup e username etc g)
    constructor
    · rw [List.foldl_cons, hgroup, leaveGroup, lines_groupMember _ _ (hg g List.mem_cons_self) hu, List.map_map,
        memberLines_cons]
    · intro k hk
      rw [List.foldl_cons, hother k hk]
      exact lines_rewrite_of_ne _ _ _ _ hk

/-- The supplementary groups of a user are in what the group file says. -/
theorem identityFindSupplementaryGroupsAt_lines (f : EtcFiles) (username : Text) (maxNames : ℕ) :
    identityFindSupplementaryGroupsAt (openFile (f .group)) username maxNames =
      some (((f.lines .group).filterMap (supplementaryGroup username)).take maxNames) := by
  rw [EtcFiles.lines]
  cases f .group with
  | none => simp [openFile, identityFindSupplementaryGroupsAt]
  | some i =>
    have hchomp : supplementaryGroup username ∘ chomp = supplementaryGroup username := by
      funext l
      simp only [Function.comp_apply, supplementaryGroup, splitGroupLine_chomp]
    simp only [openFile, identityFindSupplementaryGroupsAt, fileLines, List.filterMap_map, hchomp]

/-- A session's own group has no members. -/
theorem supplementaryGroup_entryLine (ctx : SessionCtx) (uid gid : UInt32) (days : ℕ) (username : Text) :
    supplementaryGroup username (entryLine ctx.username uid.toNat gid.toNat ctx.homeDir ctx.shell.val days .group) =
      none := by
  have hu := validUsername_length ctx.valid
  have hgid := length_decimal_uint32 gid
  have hfit : entryLine ctx.username uid.toNat gid.toNat ctx.homeDir ctx.shell.val days .group =
      ctx.username ++ ':' :: (['x'] ++ ':' :: (decimal gid.toNat ++ ':' :: [])) := by
    rw [entryLine, snprintf, List.take_of_length_le]
    · simp
    · simp only [List.length_append, List.length_singleton, show ":x:".toList.length = 3 from rfl]
      omega
  have hdecimal : Plain (decimal gid.toNat) := {
    colon := colon_notMem_decimal _
    newline := newline_notMem_decimal _
    nul := fun hc => absurd (isDigit_of_mem_decimal hc) (by decide) }
  have hsplit : splitGroupLine (cstr (entryLine ctx.username uid.toNat gid.toNat ctx.homeDir ctx.shell.val days .group)) =
      some ⟨ctx.username, ['x'], decimal gid.toNat, none⟩ := by
    rw [hfit, splitGroupLine, strtok_field (username_ne_nil ctx) (plain_username ctx),
      strtok_field (by simp) ⟨by decide, by decide, by decide⟩, strtok_field (decimal_ne_nil _) hdecimal]
    rfl
  rw [supplementaryGroup, hsplit]
  rfl

/-- The session finds the groups that were there before it wrote its entries. -/
theorem groupsToInherit_written (e : Env) (h : Host) (r : Run) {etc : EtcFiles}
    (hetc : etc.lines .group = h.etc.lines .group ++ entryLines e r .group) (failed : Bool) (referenceUser : Option Text) :
    groupsToInherit (fopen failed (etc .group)) referenceUser =
      groupsToInherit (fopen failed (h.etc .group)) referenceUser := by
  cases referenceUser with
  | none => rfl
  | some u =>
    cases failed with
    | true => rfl
    | false =>
      have hentry : entryLines e r .group = [entryLine r.ctx.username r.uid.toNat r.gid.toNat r.ctx.homeDir
          r.ctx.shell.val e.request.days .group] := fileLines_entryLine r.ctx.valid _ _ _ _ _ (by decide)
      simp only [groupsToInherit, fopen, Bool.false_eq_true, if_false, identityFindSupplementaryGroupsAt_lines, hetc, hentry,
        List.filterMap_append, List.filterMap_cons, supplementaryGroup_entryLine, List.filterMap_nil, List.append_nil]

theorem plain_of_mem_groupsToInherit {group : Opened} {referenceUser : Option Text} {g : Text}
    (hg : g ∈ groupsToInherit group referenceUser) : g ≠ [] ∧ Plain g := by
  obtain ⟨line, gl, hgl, rfl⟩ := of_mem_groupsToInherit hg
  have hname := (splitGroupLine_mem hgl).1
  have hplain := plain_of_mem_strtok hname
  constructor
  · have hne := (mem_strtok hname).1
    cases hn : gl.name with
    | nil => exact absurd hn hne
    | cons c rest => simp [snprintf, SHIM_GROUPNAME_MAX]
  · exact ⟨fun hc => hplain.colon (List.mem_of_mem_take hc), fun hc => hplain.newline (List.mem_of_mem_take hc),
      fun hc => hplain.nul (List.mem_of_mem_take hc)⟩

theorem mem_joined {g : Text} (hg : g ∈ e.joined h) :
    g ∈ groupsToInherit (fopen e.fails.readGroups (h.etc .group)) e.request.referenceUser := by
  obtain ⟨p, hp, rfl⟩ := List.mem_map.mp hg
  exact List.fst_mem_of_mem_zipIdx (List.mem_of_mem_filter hp)

/-- Filtering and rewriting a list leaves it as it is if every element passes and stays. -/
theorem map_filter_eq_iff {α : Type} {p : α → Bool} {f : α → α} {l : List α} :
    (l.filter p).map f = l ↔ (∀ a ∈ l, p a = true) ∧ ∀ a ∈ l, f a = a := by
  have hmap : l.map f = l ↔ ∀ a ∈ l, f a = a := by
    constructor
    · intro h
      exact List.map_inj_left.mp (h.trans l.map_id.symm)
    · intro h
      exact (List.map_congr_left h).trans l.map_id
  constructor
  · intro h
    have hlen : (l.filter p).length = l.length := by rw [← List.length_map f, h]
    have hall := List.length_filter_eq_length_iff.mp hlen
    rw [List.filter_eq_self.mpr hall] at h
    exact ⟨hall, hmap.mp h⟩
  · rintro ⟨hall, hf⟩
    rw [List.filter_eq_self.mpr hall]
    exact hmap.mpr hf

/-- The group file says what it said, when groups have been joined and left and the entry is
removed, if no line of it starts with the name and those of the groups are tidy. -/
theorem groups_left_iff (e : Env) (h : Host) (r : Run) {groups : List Text} (hgroups : ∀ g ∈ groups, g ≠ [] ∧ Plain g) :
    (((h.etc.lines .group ++ entryLines e r .group).map (memberLines groups r.ctx.username true)).map
        (memberLines groups r.ctx.username false)).filter (stays r.ctx.username) = h.etc.lines .group ↔
      Fresh h r.ctx.username .group ∧
        ∀ g ∈ groups, ∀ l ∈ h.etc.lines .group, g ++ [':'] <+: l → Tidy r.ctx.username l := by
  have hplain := plain_username r.ctx
  have hlen : r.ctx.username.length ≤ membersMax := (validUsername_length r.ctx.valid).trans (by decide)
  have hu : r.ctx.username ≠ [] ∧ ',' ∉ r.ctx.username := by
    constructor
    · exact username_ne_nil r.ctx
    · exact fun hc => absurd (validUsername_mem r.ctx.valid hc) (by decide)
  have hnl : ∀ l ∈ h.etc.lines .group ++ entryLines e r .group, '\n' ∉ l := by
    intro l hl
    rcases List.mem_append.mp hl with hl | hl
    · exact newline_notMem_of_mem_lines hl
    · obtain ⟨raw, -, rfl⟩ := List.mem_map.mp hl
      exact newline_notMem_chomp raw
  have hstays : ∀ l ∈ h.etc.lines .group ++ entryLines e r .group,
      (stays r.ctx.username ∘ memberLines groups r.ctx.username false ∘ memberLines groups r.ctx.username true) l =
        stays r.ctx.username l := by
    intro l hl
    rw [Function.comp_apply, Function.comp_apply, Bool.eq_iff_iff, stays_iff, stays_iff,
      starts_memberLines hplain.colon hgroups hplain (newline_notMem_memberLines (hnl l hl)),
      starts_memberLines hplain.colon hgroups hplain (hnl l hl)]
  have hdrop : (entryLines e r .group).filter (stays r.ctx.username) = [] := by
    have hpre := entryPrefix_prefix_entryLine r.ctx.valid r.uid.toNat r.gid.toNat r.ctx.homeDir r.ctx.shell.val
      e.request.days .group
    rw [entryPrefix_eq r.ctx.valid] at hpre
    rw [entryLines, fileLines_entryLine r.ctx.valid _ _ _ _ _ (by decide), List.filter_cons_of_neg, List.filter_nil]
    rw [stays_iff, not_not]
    exact hpre
  rw [List.map_map, List.filter_map, List.filter_congr hstays, List.filter_append, hdrop, List.append_nil,
    map_filter_eq_iff]
  refine and_congr (forall₂_congr fun l _ => stays_iff r.ctx l) ?_
  constructor
  · intro hback g hg l hl
    exact (memberLines_leave_join_iff hgroups hu hplain hlen (newline_notMem_of_mem_lines hl)).mp (hback l hl) g hg
  · intro htidy l hl
    exact (memberLines_leave_join_iff hgroups hu hplain hlen (newline_notMem_of_mem_lines hl)).mpr
      fun g hg hpre => htidy g hg l hl hpre

theorem lines_removeEntries (shim : ℕ × ℕ) (f : EtcFiles) (ctx : SessionCtx) (k : EtcFile) :
    (identityRemoveEntriesAt shim (fun _ => Faults.none) f ctx.username).2.lines k =
      (f.lines k).filter (stays ctx.username) := by
  rw [EtcFiles.lines_eq, identityRemoveEntriesAt_none, fileLines_remove (newline_notMem_entryPrefix ctx.valid),
    ← EtcFiles.lines_eq]
  rfl

/-! ### The account -/

/-- What the steps that make the account leave, for a host from which the entries and the groups go. -/
def AccountComesBack (e : Env) (h : Host) (ctx : SessionCtx) : Prop :=
  (Fresh h ctx.username .passwd ∧ ∀ l ∈ (fileLines (ctx.shell.val ++ ['\n'])).tail, ctx.username ++ [':'] <+: l) ∧
    (Fresh h ctx.username .group ∧ ∀ g ∈ e.joined h, ∀ l ∈ h.etc.lines .group, g ++ [':'] <+: l → Tidy ctx.username l) ∧
    Fresh h ctx.username .shadow

/-- The session has an account. -/
structure HasAccount (e : Env) (h : Host) (uid : ℕ) (r : Run) : Prop extends Aside h r where
  homes : r.host.homes = h.homes
  flags : r.doneMkdirHome = false ∧ r.doneBindMount = false
  ctx : r.ctx = e.settled h
  uidEq : r.uid = UInt32.ofNat uid
  gidEq : r.gid = UInt32.ofNat uid
  written : ∀ k, e.fails.write k = false
  back : (∀ k, (etcLeft e r).lines k = h.etc.lines k) ↔ AccountComesBack e h r.ctx

/-- Inheriting groups puts the name into the lines of those that are joined. -/
theorem identityInheritGroups_eq (hr : r.host.etc.lines .group = h.etc.lines .group ++ entryLines e r .group) :
    ∃ etc, identityInheritGroups e r =
        { r.withEtc etc with inheritedGroups := r.inheritedGroups ++ e.joined h } ∧
      etc.lines .group = (r.host.etc.lines .group).map (memberLines (e.joined h) r.ctx.username true) ∧
      ∀ k, k ≠ .group → etc.lines k = r.host.etc.lines k := by
  rw [identityInheritGroups, groupsToInherit_written e h r hr]
  exact foldl_joinGroup e _ (fun g hg => (plain_of_mem_groupsToInherit (List.fst_mem_of_mem_zipIdx hg)).2.newline) r

/-- What comes back when the groups are left and the entries removed. -/
theorem account_removed_iff (e : Env) (h : Host) (r : Run) {etc : EtcFiles}
    (hgroup : etc.lines .group =
      (h.etc.lines .group ++ entryLines e r .group).map (memberLines (e.joined h) r.ctx.username true))
    (hother : ∀ k, k ≠ .group → etc.lines k = h.etc.lines k ++ entryLines e r k) :
    (∀ k, (identityRemoveEntriesAt e.shim (fun _ => Faults.none)
        ((e.joined h).foldl (leaveGroup e r.ctx.username) etc) r.ctx.username).2.lines k = h.etc.lines k) ↔
      AccountComesBack e h r.ctx := by
  have hjoined : ∀ g ∈ e.joined h, g ≠ [] ∧ Plain g := fun g hg => plain_of_mem_groupsToInherit (mem_joined hg)
  obtain ⟨hleft, hkept⟩ := foldl_leaveGroup e (plain_username r.ctx).newline (e.joined h)
    (fun g hg => (hjoined g hg).2.newline) etc
  have hpasswd := entry_removed_iff e h r .passwd
  have hshadow := entry_removed_iff e h r .shadow
  have hgroups := groups_left_iff e h r hjoined
  simp only [forall_const, reduceCtorEq, false_implies, and_true] at hpasswd hshadow
  rw [← hgroup, ← hleft] at hgroups
  simp only [lines_removeEntries]
  rw [forall_etcFile, hgroups, hkept .passwd (by decide), hother .passwd (by decide), hpasswd,
    hkept .shadow (by decide), hother .shadow (by decide), hshadow]
  rfl

/-- **Making the account**: the rollback undoes it if the account files are free of the name and
the groups tidy, and whatever of it was undone at once if they are free of the name. -/
theorem makeAccount_ends {uid : ℕ} (hr : Entered e h uid r) :
    Ends (HasAccount e h uid)
      (fun r => ∀ P, Restored h (rollback e r) ↔ EntriesComeBack e h (e.settled h) P) (makeAccount e r) := by
  obtain ⟨hwrite, hinherit, hmade, hmounted⟩ := hr.flags
  have hentries := identityWriteEntries_ends (e := e) hr.etc
  rw [makeAccount]
  cases hw : identityWriteEntries e r with
  | error r' =>
    rw [hw] at hentries
    obtain ⟨etc, rfl, hback⟩ := hentries
    intro P
    have haside : Aside h (r.withEtc etc) := { hr.toAside with }
    rw [← hr.ctx, ← hback P]
    refine (restored_rollback_iff haside).trans ?_
    simp [homesLeft, etcLeft, Run.withEtc, hwrite, hinherit, hmade, hmounted, hr.homes]
  | ok r' =>
    rw [hw] at hentries
    obtain ⟨etc, rfl, hwritten, hlines⟩ := hentries
    obtain ⟨etc', hrun, hgroup, hother⟩ := identityInheritGroups_eq (e := e) (h := h)
      (r := { r.withEtc etc with doneWriteIdentity := true }) (hlines .group)
    have hback := account_removed_iff e h r (hgroup.trans (congrArg _ (hlines .group)))
      fun k hk => (hother k hk).trans (hlines k)
    show HasAccount e h uid (identityReleaseUidLock
      { identityInheritGroups e { r.withEtc etc with doneWriteIdentity := true } with doneInheritGroups := true })
    rw [hrun]
    have haside : Aside h r := hr.toAside
    refine { haside with
      homes := hr.homes, flags := ⟨hmade, hmounted⟩, ctx := hr.ctx, uidEq := hr.uidEq, gidEq := hr.gidEq,
      written := hwritten, lock := fun h => absurd h Bool.false_ne_true
      back := ?_ }
    simp only [etcLeft, identityReleaseUidLock, Run.withEtc, if_true, hr.groups, List.nil_append]
    exact hback

/-! ### The home directory -/

/-- What `mountns_mkdir_home` and `mountns_rmdir_home` make of what is at a path. -/
def homeLeft (e : Env) (r : Run) (l : List Dir) : List Dir :=
  rmdir (if e.fails.chownHome then mkdir e.shim l else chown r.uid.toNat r.gid.toNat (mkdir e.shim l))

theorem homeLeft_iff (e : Env) (r : Run) (l : List Dir) :
    ((homeLeft e r l).head?.map Dir.owner = l.head?.map Dir.owner ∧ (homeLeft e r l).length - 1 ≤ l.length - 1) ↔
      HomeStays e (r.uid.toNat, r.gid.toNat) l := by
  cases hc : e.fails.chownHome with
  | true =>
    match l with
    | [] => simp [homeLeft, hc, mkdir, rmdir, HomeStays]
    | [d] => by_cases hd : d.entries = [] <;> simp [homeLeft, hc, mkdir, rmdir, HomeStays, hd]
    | d :: d' :: l => simp [homeLeft, hc, mkdir, rmdir, HomeStays]
  | false =>
    match l with
    | [] => simp [homeLeft, hc, mkdir, chown, rmdir, HomeStays]
    | [d] => by_cases hd : d.entries = [] <;> simp [homeLeft, hc, mkdir, chown, rmdir, HomeStays, hd, Dir.owner, eq_comm]
    | d :: d' :: l => simp [homeLeft, hc, mkdir, chown, rmdir, HomeStays, Dir.owner, eq_comm]

theorem chown_mkdir_ne_nil (uid gid : ℕ) (owner : ℕ × ℕ) (l : List Dir) : chown uid gid (mkdir owner l) ≠ [] := by
  cases l <;> simp [mkdir, chown]

/-- A run that has been through the home directory, and is rolled back. -/
theorem restored_home_iff {uid : ℕ} (hr : HasAccount e h uid r) {r' : Run} (haside : Aside h r')
    (hetc : etcLeft e r' = etcLeft e r)
    (hhomes : homesLeft r' = Function.update h.homes r.ctx.homeDir (homeLeft e r (h.homes r.ctx.homeDir))) :
    Restored h (rollback e r') ↔
      HomeStays e (r.uid.toNat, r.gid.toNat) (h.homes r.ctx.homeDir) ∧ AccountComesBack e h r.ctx := by
  rw [restored_rollback_iff haside, hetc, hr.back, hhomes, ← homeLeft_iff]
  refine and_congr_left fun _ => ?_
  constructor
  · intro h
    have := h r.ctx.homeDir
    rwa [Function.update_self] at this
  · intro h p
    by_cases hp : p = r.ctx.homeDir
    · subst hp
      rwa [Function.update_self]
    · rw [Function.update_of_ne hp]
      exact ⟨rfl, le_rfl⟩

/-- The last step changes nothing. -/
theorem lastStep_ends {P : Run → Prop} (hP : P r) :
    Ends P P (if e.execMode then writeActiveUserMarker e r else .ok r) := by
  rw [writeActiveUserMarker]
  split
  · split
    · exact hP
    · exact hP
  · exact hP

/-- **Making the home directory**: whatever step is the last, the rollback undoes what was done if
it undoes the account and, where `mkdir` is called, the home path is one that stays. -/
theorem makeHome_ends {uid : ℕ} (hr : HasAccount e h uid r) :
    let back := fun r' => Restored h (rollback e r') ↔
      (e.fails.mkdirHome = false → HomeStays e (r.uid.toNat, r.gid.toNat) (h.homes r.ctx.homeDir)) ∧
        AccountComesBack e h r.ctx
    Ends back back (makeHome e r) := by
  intro back
  obtain ⟨hmade, hmounted⟩ := hr.flags
  rw [makeHome, mountnsMkdirHome]
  cases hm : e.fails.mkdirHome with
  | true =>
    show back r
    simp only [back, restored_rollback_iff hr.toAside, hr.back, hm, Bool.true_eq_false, false_implies, true_and]
    refine and_iff_right fun p => ?_
    simp [homesLeft, hmade, hmounted, hr.homes]
  | false =>
    simp only [back, hm, forall_const]
    cases hc : e.fails.chownHome with
    | true =>
      refine restored_home_iff hr { hr.toAside with } rfl ?_
      simp [homesLeft, hmade, hmounted, hr.homes, Host.setHome, homeLeft, hc]
    | false =>
      have hne := chown_mkdir_ne_nil r.uid.toNat r.gid.toNat e.shim (h.homes r.ctx.homeDir)
      show Ends _ _ (mountnsBindMount e _ >>= _)
      rw [mountnsBindMount]
      cases hb : e.fails.bindMount with
      | true =>
        refine restored_home_iff hr { hr.toAside with } rfl ?_
        simp [homesLeft, hmounted, hr.homes, Host.setHome, homeLeft, hc]
      | false =>
        apply lastStep_ends
        refine restored_home_iff hr { hr.toAside with } rfl ?_
        simp [homesLeft, hr.homes, Host.setHome, homeLeft, hc, umount_mounted _ hne]

theorem toNat_freeUid {uid : ℕ} (hfound : uid ∈ e.freeUid h) : (UInt32.ofNat uid).toNat = uid := by
  have hrange : uid ≤ SHIM_UID_RANGE_MAX := by
    rw [Env.freeUid, fopen, Option.mem_def] at hfound
    split at hfound
    · simp [identityFindFreeUid, SHIM_UID_RANGE_MAX, SHIM_UID_RANGE_MIN] at hfound
    · exact (identityFindFreeUid_eq_some hfound).1.2
  simp only [SHIM_UID_RANGE_MAX] at hrange
  exact UInt32.toNat_ofNat_of_lt' (by simp only [UInt32.size]; omega)

/-- What `Restorable` says when the account is made. -/
theorem restorable_iff {uid : ℕ} (he : e.Enters h) (hfound : uid ∈ e.freeUid h) :
    Restorable e h ↔ EntriesComeBack e h (e.settled h)
      ((∀ g ∈ e.joined h, ∀ l ∈ h.etc.lines .group, g ++ [':'] <+: l → Tidy (e.settled h).username l) ∧
        (e.fails.mkdirHome = false → HomeStays e (uid, uid) (h.homes (e.settled h).homeDir))) := by
  constructor
  · intro hrest
    exact hrest he uid hfound
  · intro hback _ uid' hfound'
    cases Option.mem_unique hfound hfound'
    exact hback

/-- **The rollback restores the host** exactly when the host is `Restorable`: whichever step of the
set-up fails, and when the session ends. -/
theorem rollback_restores_iff (e : Env) (h : Host) : Restored h (pipelineRun e h).2 ↔ Restorable e h := by
  have hstart : Restored h (Run.start e h) :=
    ⟨fun _ => rfl, fun _ => le_rfl, fun _ => Or.inr rfl, fun _ => rfl, Or.inr rfl, rfl⟩
  rw [pipelineRun]
  cases hct : e.fails.captureTarget with
  | true => exact iff_of_true hstart fun he => by simp [he.container.1] at hct
  | false =>
    cases hcc : e.fails.captureCtty with
    | true => exact iff_of_true hstart fun he => by simp [he.container.2.1] at hcc
    | false =>
      let Back (r : Run) : Prop := Restored h (rollback e r) ↔ Restorable e h
      have henter : Ends (fun r => e.Enters h ∧ ∃ uid, Entered e h uid r) Back (enterHost e (Run.start e h)) := by
        refine (enterHost_ends ⟨hct, hcc⟩).mono (fun _ hr => hr) ?_
        rintro r ⟨hr, hne⟩
        exact iff_of_true hr.restored fun he => absurd he hne
      have haccount : Ends (fun r => e.Enters h ∧ ∃ uid ∈ e.freeUid h, HasAccount e h uid r) Back
          (enterHost e (Run.start e h) >>= makeAccount e) := by
        refine henter.bind ?_
        rintro r ⟨he, uid, hr⟩
        refine (makeAccount_ends hr).mono (fun r' hr' => ⟨he, uid, hr.found, hr'⟩) ?_
        intro r' hback
        exact (hback _).trans (restorable_iff he hr.found).symm
      have hends : Ends Back Back (enterHost e (Run.start e h) >>= makeAccount e >>= makeHome e) := by
        refine haccount.bind ?_
        rintro r ⟨he, uid, hfound, hr⟩
        have hrest : (e.fails.mkdirHome = false → HomeStays e (r.uid.toNat, r.gid.toNat) (h.homes r.ctx.homeDir)) ∧
            AccountComesBack e h r.ctx ↔ Restorable e h := by
          rw [restorable_iff he hfound, hr.uidEq, hr.gidEq, toNat_freeUid hfound, hr.ctx]
          simp only [EntriesComeBack, AccountComesBack, hr.written, forall_const]
          tauto
        refine (makeHome_ends hr).mono ?_ ?_
        · intro r' hr'
          exact hr'.trans hrest
        · intro r' hr'
          exact hr'.trans hrest
      show Restored h (match enterHost e (Run.start e h) >>= makeAccount e >>= makeHome e with
        | .error r => ((1 : ℤ), rollback e r)
        | .ok r => (0, rollback e r)).2 ↔ Restorable e h
      cases hx : enterHost e (Run.start e h) >>= makeAccount e >>= makeHome e with
      | error r =>
        rw [hx] at hends
        exact hends
      | ok r =>
        rw [hx] at hends
        exact hends

/-- A host without the name, and without a home directory of it, comes back from a session that joins no groups. -/
theorem restorable_of_fresh (hname : ∀ k, Fresh h (e.settled h).username k) (hshell : '\n' ∉ (e.settled h).shell.val)
    (hgroups : e.request.referenceUser = none) (hhome : h.homes (e.settled h).homeDir = []) : Restorable e h := by
  intro _ uid _ ctx _
  have hlines : (fileLines (ctx.shell.val ++ ['\n'])).tail = [] := by
    rw [fileLines_line hshell]
    rfl
  have hnone : e.joined h = [] := by
    rw [Env.joined, hgroups]
    rfl
  refine ⟨hname _, by simp [hlines], fun _ => ⟨hname _, fun _ => ⟨hname _, by simp [hnone], fun _ => ?_⟩⟩⟩
  rw [hhome]
  trivial

/-- No call fails. -/
def noFails : Fails where
  captureTarget := false
  captureCtty := false
  enterNs := false
  publishMkdir := false
  publishOpenExe := false
  publishOpenTmp := false
  publishCopy := false
  publishRename := false
  resolveSource := false
  openCtty := false
  moveCtty := false
  readNames := false
  openUidLock := false
  flockUidLock := false
  readUids := false
  write _ := false
  readGroups := false
  join _ := false
  mkdirHome := false
  chownHome := false
  bindMount := false
  marker := false

/-- A session of a console user called `alice`. -/
def aliceEnv : Env where
  request := ⟨mainCtx (some "alice".toList) ⟨"3badcafe".toList, by decide⟩ defaultShell, none, 20000⟩
  shim := (0, 0)
  execMode := false
  exe := []
  source := ⟨0, 0, []⟩
  fails := noFails

/-- A host without accounts, where an empty directory of another owner is at the home path of `alice`. -/
def hostWithHome : Host where
  etc _ := none
  homes p := if p = "/home/alice".toList then [⟨1000, 1000, []⟩] else []
  ttys _ := []
  binary := none
  binaryTmp := none

/-- A session of `alice` takes the directory with it. -/
theorem alice_session_removes_home : ¬ Restored hostWithHome (pipelineRun aliceEnv hostWithHome).2 := by
  intro h
  exact absurd (h.homes "/home/alice".toList) (by decide +kernel)

end OpenshiftConsole.NodeTerminal.Pipeline
