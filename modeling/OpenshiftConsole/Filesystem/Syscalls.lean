import OpenshiftConsole.Library.FileTree
import OpenshiftConsole.Filesystem.Paths

/-!
# The container's file system

The file system a helper works on: entries with their contents, mode, owner and time of
modification, and the system calls on path texts that the helper's Go code makes
(`os.Mkdir`, `os.OpenFile`, `os.Remove`, ...). A call follows symbolic links as the kernel
does: the last name of the path too when it opens, stats or sets times, not when it makes,
removes, renames or lstats. `Kernel` holds what a call's result also depends on and the
tree does not say: the clock, the umask and whether the kernel refuses (for want of
permission or room, say).

Every call that changes something is journaled on the `Disk`. For each there is one lemma
that says where the change is and what the tree looks like to later walks.
-/

namespace OpenshiftConsole.Filesystem

open OpenshiftConsole.Library.Lines (Text)
open OpenshiftConsole.Library.PathWalk OpenshiftConsole.Library.FileTree

/-! ### Entries -/

/-- A time, in nanoseconds. -/
abbrev Time := ℤ

/-- What an entry is. -/
inductive Node where
  | dir
  | file (data : Text)
  | symlink (target : Text)
  /-- A device, socket or fifo. -/
  | special
  deriving DecidableEq

/-- An entry of the file system. -/
structure Entry where
  node : Node
  /-- The permission bits. -/
  mode : ℕ
  uid : ℕ
  gid : ℕ
  mtime : Time
  deriving DecidableEq

namespace Entry

/-- What a walk sees of an entry. -/
def kind (e : Entry) : Kind Name :=
  match e.node with
  | .dir => .dir
  | .symlink target => .link (target.head? == some '/') (fullSteps target)
  | .file _ | .special => .leaf

/-- The entry with its modification time set. -/
def setMtime (t : Time) (e : Entry) : Entry := { e with mtime := t }

/-- The entry with its permission bits set. -/
def setMode (mode : ℕ) (e : Entry) : Entry := { e with mode := mode }

/-- The entry with its owner set. -/
def setOwner (uid gid : ℕ) (e : Entry) : Entry := { e with uid := uid, gid := gid }

/-- The entry after a write to it at time `t`: only a regular file holds what is written. -/
def setData (t : Time) (f : Text → Text) (e : Entry) : Entry :=
  match e.node with
  | .file data => { e with node := .file (f data), mtime := t }
  | _ => e

@[simp] theorem kind_setMtime (t : Time) (e : Entry) : (e.setMtime t).kind = e.kind := rfl

@[simp] theorem kind_setMode (mode : ℕ) (e : Entry) : (e.setMode mode).kind = e.kind := rfl

@[simp] theorem kind_setOwner (uid gid : ℕ) (e : Entry) : (e.setOwner uid gid).kind = e.kind := rfl

@[simp] theorem node_setMtime (t : Time) (e : Entry) : (e.setMtime t).node = e.node := rfl

@[simp] theorem node_setMode (mode : ℕ) (e : Entry) : (e.setMode mode).node = e.node := rfl

@[simp] theorem node_setOwner (uid gid : ℕ) (e : Entry) : (e.setOwner uid gid).node = e.node := rfl

@[simp] theorem kind_setData (t : Time) (f : Text → Text) (e : Entry) : (e.setData t f).kind = e.kind := by
  obtain ⟨node, mode, uid, gid, mtime⟩ := e
  cases node <;> rfl

end Entry

/-- What a call does at a place. -/
inductive Act where
  /-- A new entry is made. -/
  | make
  /-- The contents are written or cut. -/
  | write
  /-- The entry is taken away. -/
  | remove
  /-- The entry is moved from or to the place, or overwritten by one that is. -/
  | move
  /-- Mode, owner or modification time are set. -/
  | attr
  deriving DecidableEq

/-- A tree of entries. -/
abbrev FsTree := Tree Entry.kind

/-- The file system while a request is served. -/
abbrev Fs := Disk Entry.kind Act

/-! ### The kernel -/

/-- Why a call fails. -/
inductive Errno where
  /-- The path leads nowhere: a name on the way is missing or no directory, or there are too many links. -/
  | unresolved
  | noent
  | exist
  | isdir
  | notdir
  | notempty
  | inval
  /-- The kernel refuses for a reason that the tree does not show. -/
  | refused
  deriving DecidableEq

/-- The calls that a kernel may refuse; a process of root's may look at what there is. -/
inductive Call where
  | open | mkdir | create | unlink | symlink | rename | utimes | chmod | chown | readdir | read | write
  deriving DecidableEq

/-- What a call depends on beside the tree. -/
structure Kernel where
  /-- The current time. -/
  now : Time
  /-- The permission bits a new entry does not get. -/
  umask : ℕ
  /-- Whether a call on the entry or place is refused. -/
  refuses : FsTree → Call → Loc Name → Bool

/-- `maxSymlinks`, Linux's own limit. -/
def maxSymlinks : ℕ := 40

/-- A kernel that refuses nothing. -/
def Kernel.willing : Kernel := ⟨0, 0o022, fun _ _ _ => false⟩

/-- The mode that a new entry gets when `perm` is asked for. -/
def Kernel.masked (K : Kernel) (perm : ℕ) : ℕ := perm ^^^ (perm &&& K.umask)

/-- An entry just made; the helper runs as root. -/
def newEntry (K : Kernel) (node : Node) (mode : ℕ) : Entry := ⟨node, mode, 0, 0, K.now⟩

variable (K : Kernel) (d : Fs)

/-! ### Looking -/

/-- Where a path leads when its last name is followed too. -/
def follow (p : Text) : Stop Name := walk d.tree.kindAt maxSymlinks [] (fullSteps p)

/-- Where a path leads when its last name is not followed, unless a slash comes after it. -/
def nofollow (p : Text) : Stop Name :=
  if trailingSlash p ∨ splitLast (steps p) = none then follow d p
  else
    match place d.tree.kindAt maxSymlinks (steps p) with
    | none => .stuck
    | some M => if (d.tree.get M).isSome then .found M else .missing M

/-- The entry where a walk ended, with its location. -/
def entryAt : Stop Name → Except Errno (Loc Name × Entry)
  | .found L =>
    match d.tree.get L with
    | none => .error .noent
    | some e => .ok (L, e)
  | .missing _ => .error .noent
  | _ => .error .unresolved

/-- `stat(2)` -/
def stat (p : Text) : Except Errno (Loc Name × Entry) := entryAt d (follow d p)

/-- `lstat(2)` -/
def lstat (p : Text) : Except Errno (Loc Name × Entry) := entryAt d (nofollow d p)

/-- `open(2)` for reading: the entry that the descriptor is for. -/
def openRead (p : Text) : Except Errno (Loc Name) :=
  match follow d p with
  | .found L => if K.refuses d.tree .open L then .error .refused else .ok L
  | .missing _ => .error .noent
  | _ => .error .unresolved

/-- `readdir(3)` on an open directory. -/
def readdir (L : Loc Name) : Except Errno (List Name) :=
  if d.tree.kindAt L ≠ some .dir then .error .notdir
  else if K.refuses d.tree .readdir L then .error .refused
  else .ok (d.tree.children L)

/-! ### Changing -/

/-- A new entry at a place, in the directory there is. -/
def create (c : Call) (e : Entry) : Loc Name → Except Errno Fs
  | [] => .error .exist
  | n :: D =>
    if hD : d.tree.kindAt D = some .dir then
      match hM : d.tree.get (n :: D) with
      | some _ => .error .exist
      | none =>
        if K.refuses d.tree c (n :: D) then .error .refused
        else .ok ((d.insert .make n D e hD hM).alter .attr D (Entry.setMtime K.now) (Entry.kind_setMtime K.now))
    else .error .notdir

/-- `mkdir(2)` -/
def mkdir (p : Text) (perm : ℕ) : Except Errno Fs :=
  if splitLast (steps p) = none then .error .exist
  else
    match place d.tree.kindAt maxSymlinks (steps p) with
    | none => .error .unresolved
    | some M => create K d .mkdir (newEntry K .dir (K.masked perm)) M

/-- `symlink(2)` -/
def symlink (target p : Text) : Except Errno Fs :=
  if target.contains '\x00' then .error .inval
  else if target.isEmpty || trailingSlash p then .error .noent
  else if splitLast (steps p) = none then .error .exist
  else
    match place d.tree.kindAt maxSymlinks (steps p) with
    | none => .error .unresolved
    | some M => create K d .symlink (newEntry K (.symlink target) 0o777) M

/-- `open(2)` with `O_WRONLY|O_CREAT`, and `O_TRUNC` if asked: the entry that the descriptor is for. -/
def openWrite (p : Text) (perm : ℕ) (truncate : Bool) : Except Errno (Loc Name × Fs) :=
  if trailingSlash p ∨ splitLast (steps p) = none then .error .isdir
  else
    match walk d.tree.kindAt maxSymlinks [] (steps p) with
    | .found L =>
      if d.tree.kindAt L = some .dir then .error .isdir
      else if K.refuses d.tree .open L then .error .refused
      else if truncate then
        .ok (L, d.alter .write L (Entry.setData K.now fun _ => []) (Entry.kind_setData K.now _))
      else .ok (L, d)
    | .missing L => (create K d .create (newEntry K (.file []) (K.masked perm)) L).map fun d => (L, d)
    | _ => .error .unresolved

/-- What a file holds after `bytes` are written at an offset. -/
def overwriteAt (off : ℕ) (bytes old : Text) : Text :=
  (old ++ List.replicate (off - old.length) '\x00').take off ++ bytes ++ old.drop (off + bytes.length)

/-- `pwrite(2)` on an open file, to the end: nothing is written where there are no bytes. -/
def write (L : Loc Name) (off : ℕ) (bytes : Text) : Fs :=
  if bytes.isEmpty then d
  else d.alter .write L (Entry.setData K.now (overwriteAt off bytes)) (Entry.kind_setData K.now _)

/-- `os.Remove`: `unlink(2)`, or `rmdir(2)` of an empty directory. -/
def remove (p : Text) : Except Errno Fs :=
  if splitLast (steps p) = none then .error .inval
  else
    match place d.tree.kindAt maxSymlinks (steps p) with
    | none | some [] => .error .unresolved
    | some (n :: D) =>
      match d.tree.get (n :: D) with
      | none => .error .noent
      | some e =>
        if trailingSlash p ∧ e.kind ≠ .dir then .error .notdir
        else if hn : d.tree.children (n :: D) = [] then
          if K.refuses d.tree .unlink (n :: D) then .error .refused
          else .ok ((d.erase .remove n D hn).alter .attr D (Entry.setMtime K.now) (Entry.kind_setMtime K.now))
        else .error .notempty

/-- What forbids that an entry takes the place of the one at `M`. -/
def replaceErr (e : Entry) (M : Loc Name) : Option Errno :=
  match d.tree.get M with
  | none => none
  | some f =>
    if e.kind = .dir ∧ f.kind ≠ .dir then some .notdir
    else if e.kind ≠ .dir ∧ f.kind = .dir then some .isdir
    else if d.tree.children M ≠ [] then some .notempty
    else none

/-- `rename(2)` -/
def rename (p q : Text) : Except Errno Fs :=
  match place d.tree.kindAt maxSymlinks (steps p), place d.tree.kindAt maxSymlinks (steps q) with
  | some (n :: D), some (m :: E) =>
    match d.tree.get (n :: D) with
    | none => .error .noent
    | some e =>
      if e.kind ≠ .dir ∧ (trailingSlash p ∨ trailingSlash q) then .error .notdir
      else if hin : (n :: D) <:+ E then .error .inval
      else if (m :: E) <:+ D then .error .notempty
      else if n :: D = m :: E then .ok d
      else if hE : d.tree.kindAt E = some .dir then
        match replaceErr d e (m :: E) with
        | some err => .error err
        | none =>
          if K.refuses d.tree .rename (n :: D) || K.refuses d.tree .rename (m :: E) then .error .refused
          else
            .ok (((d.move .move n D m E hE hin).alter .attr D (Entry.setMtime K.now) (Entry.kind_setMtime K.now)).alter
              .attr E (Entry.setMtime K.now) (Entry.kind_setMtime K.now))
      else .error .notdir
  | _, _ => .error .unresolved

/-- `os.Rename`: a directory is not replaced, not even an empty one. -/
def osRename (p q : Text) : Except Errno Fs :=
  match lstat d q with
  | .error _ => rename K d p q
  | .ok (M, f) =>
    if f.node ≠ .dir then rename K d p q
    else
      match lstat d p with
      | .error err => .error err
      | .ok (L, _) => if p = q ∨ L ≠ M then .error .exist else rename K d p q

/-- Set something beside contents and kind of the entry where a walk ended. -/
def setAttr (c : Call) (f : Entry → Entry) (hf : ∀ e, (f e).kind = e.kind) : Stop Name → Except Errno Fs
  | .found L => if K.refuses d.tree c L then .error .refused else .ok (d.alter .attr L f hf)
  | .missing _ => .error .noent
  | _ => .error .unresolved

/-- `utimensat(2)`, which follows the last name. -/
def utimes (p : Text) (t : Time) : Except Errno Fs :=
  setAttr K d .utimes (Entry.setMtime t) (Entry.kind_setMtime t) (follow d p)

/-- `chmod(2)`, which follows the last name. -/
def chmod (p : Text) (mode : ℕ) : Except Errno Fs :=
  setAttr K d .chmod (Entry.setMode mode) (Entry.kind_setMode mode) (follow d p)

/-- `lchown(2)`, which does not. -/
def lchown (p : Text) (uid gid : ℕ) : Except Errno Fs :=
  setAttr K d .chown (Entry.setOwner uid gid) (Entry.kind_setOwner uid gid) (nofollow d p)

section Looking

variable {d} {s : Stop Name} {e : Entry} {L : Loc Name} {p : Text}

theorem entryAt_eq_ok : entryAt d s = .ok (L, e) ↔ s = .found L ∧ d.tree.get L = some e := by
  constructor
  · intro h
    unfold entryAt at h
    split at h
    · split at h
      · cases h
      · rename_i hg
        obtain ⟨rfl, rfl⟩ := Prod.mk.inj (Except.ok.inj h)
        exact ⟨rfl, hg⟩
    · cases h
    · cases h
  · rintro ⟨rfl, hg⟩
    rw [entryAt, hg]

/-- What is no link is found also when the last name is followed. -/
theorem follow_of_nofollow (h : nofollow d p = .found L)
    (hk : d.tree.kindAt L = some .dir ∨ d.tree.kindAt L = some .leaf) : follow d p = .found L := by
  rw [nofollow] at h
  split at h
  · exact h
  · rename_i hp
    rw [not_or] at hp
    split at h
    · cases h
    · rename_i M hM
      obtain ⟨i, n, D, hs, hw, hD, rfl⟩ := place_eq_some.mp hM
      split at h
      · obtain rfl := Stop.found.inj h
        rw [follow, fullSteps, if_neg hp.1, hs]
        exact walk_down_found hw hD hk
      · cases h

end Looking

/-- An entry of the path's last name is found, without following it. -/
theorem lstat_isOk {p : Text} {i : List (Step Name)} {n : Name} {D : Loc Name} (hp : trailingSlash p = false)
    (hs : steps p = i ++ [.down n]) (hw : walk d.tree.kindAt maxSymlinks [] i = .found D)
    (hk : d.tree.kindAt (n :: D) ≠ none) : (lstat d p).isOk = true := by
  have hg : (d.tree.get (n :: D)).isSome := by
    rw [← Tree.kindAt_isSome]
    exact Option.isSome_iff_ne_none.mpr hk
  have hplace : place d.tree.kindAt maxSymlinks (steps p) = some (n :: D) :=
    place_eq_some.mpr ⟨i, n, D, hs, hw, d.tree.parent_dir hg, rfl⟩
  obtain ⟨e, he⟩ := Option.isSome_iff_exists.mp hg
  rw [lstat, nofollow, if_neg (by simp [hp, splitLast_eq_some.mpr hs]), hplace]
  dsimp only
  rw [if_pos hg, entryAt, he]
  rfl

/-! ### What a call has done -/

/-- The call has made an entry of kind `κ` at `M`, where there was none. -/
structure Makes (d : Fs) (M : Loc Name) (κ : Kind Name) (d' : Fs) : Prop where
  empty : d.tree.kindAt M = none
  dir : d.tree.kindAt M.tail = some .dir
  kindAt : d'.tree.kindAt = Function.update d.tree.kindAt M (some κ)
  since : ∀ {P}, P .make M → P .attr M.tail → Since P d d'

/-- The call has changed what the entry at `L` holds, and no kind. -/
structure Alters (d : Fs) (a : Act) (L : Loc Name) (d' : Fs) : Prop where
  kindAt : d'.tree.kindAt = d.tree.kindAt
  since : ∀ {P : Act → Loc Name → Prop}, P a L → Since P d d'

/-- The call has taken the entry at `M` away. -/
structure Removes (d : Fs) (M : Loc Name) (d' : Fs) : Prop where
  nonempty : d.tree.kindAt M ≠ none
  kindAt : d'.tree.kindAt = Function.update d.tree.kindAt M none
  since : ∀ {P}, P .remove M → P .attr M.tail → Since P d d'

variable {K d} {d' : Fs} {p : Text} {M L : Loc Name}

theorem Makes.grows {κ : Kind Name} (h : Makes d M κ d') : Extends d.tree.kindAt d'.tree.kindAt := by
  intro L a ha
  rw [h.kindAt, Function.update_of_ne _ _ _]
  · exact ha
  · rintro rfl
    rw [h.empty] at ha
    cases ha

theorem Makes.fill (h : Makes d M .dir d') : fill d'.tree.kindAt = fill d.tree.kindAt := by
  rw [h.kindAt, fill_update h.empty]

theorem Removes.shrinks (h : Removes d M d') : Extends d'.tree.kindAt d.tree.kindAt := by
  intro L a ha
  rw [h.kindAt] at ha
  rcases eq_or_ne L M with rfl | hL
  · simp at ha
  · rwa [Function.update_of_ne hL] at ha

theorem create_missing {n : Name} {D : Loc Name} (c : Call) (e : Entry) (hD : d.tree.kindAt D = some .dir)
    (hM : d.tree.get (n :: D) = none) :
    create K d c e (n :: D) = if K.refuses d.tree c (n :: D) then .error .refused
      else .ok ((d.insert .make n D e hD hM).alter .attr D (Entry.setMtime K.now) (Entry.kind_setMtime K.now)) := by
  rw [create, dif_pos hD]
  split
  · rename_i f hf
    rw [hM] at hf
    cases hf
  · rfl

/-- An entry that is made stands at an empty place of a directory, whose time is set. -/
theorem create_cases {c : Call} {e : Entry} (h : create K d c e M = .ok d') :
    ∃ n D, M = n :: D ∧ ∃ (hD : d.tree.kindAt D = some .dir) (hM : d.tree.get (n :: D) = none),
      d' = (d.insert .make n D e hD hM).alter .attr D (Entry.setMtime K.now) (Entry.kind_setMtime K.now) := by
  cases M with
  | nil => cases h
  | cons n D =>
    by_cases hD : d.tree.kindAt D = some .dir
    · cases hM : d.tree.get (n :: D) with
      | some f =>
        rw [create, dif_pos hD] at h
        split at h
        · cases h
        · rename_i hnone
          rw [hM] at hnone
          cases hnone
      | none =>
        rw [create_missing c e hD hM] at h
        split at h
        · cases h
        · exact ⟨n, D, rfl, hD, hM, (Except.ok.inj h).symm⟩
    · rw [create, dif_neg hD] at h
      cases h

theorem create_ok {c : Call} {e : Entry} (h : create K d c e M = .ok d') : Makes d M e.kind d' := by
  obtain ⟨n, D, rfl, hD, hM, rfl⟩ := create_cases h
  refine ⟨(Tree.kindAt_eq_none _).mpr hM, hD, ?_, fun hm ha => (Since.insert hm).trans (Since.alter ha)⟩
  rw [Disk.kindAt_alter, Disk.kindAt_insert]

/-- The entry that a call has made. -/
theorem get_create {c : Call} {e : Entry} (h : create K d c e M = .ok d') : d'.tree.get M = some e := by
  obtain ⟨n, D, rfl, hD, hM, rfl⟩ := create_cases h
  rw [Disk.alter, Tree.get_alter, if_neg (List.cons_ne_self n D)]
  exact if_pos rfl

theorem mkdir_ok {perm : ℕ} (h : mkdir K d p perm = .ok d') :
    ∃ i n D, steps p = i ++ [.down n] ∧ walk d.tree.kindAt maxSymlinks [] i = .found D ∧ Makes d (n :: D) .dir d' := by
  rw [mkdir] at h
  split at h
  · cases h
  · split at h
    · cases h
    · rename_i M hM
      obtain ⟨i, n, D, hs, hw, -, rfl⟩ := place_eq_some.mp hM
      exact ⟨i, n, D, hs, hw, create_ok h⟩

theorem symlink_ok {target : Text} (h : symlink K d target p = .ok d') :
    trailingSlash p = false ∧ ∃ i n D, steps p = i ++ [.down n] ∧
      walk d.tree.kindAt maxSymlinks [] i = .found D ∧
      Makes d (n :: D) (.link (target.head? == some '/') (fullSteps target)) d' := by
  rw [symlink] at h
  split at h
  · cases h
  · split at h
    · cases h
    · rename_i hp
      refine ⟨by simp_all, ?_⟩
      split at h
      · cases h
      · split at h
        · cases h
        · rename_i M hM
          obtain ⟨i, n, D, hs, hw, -, rfl⟩ := place_eq_some.mp hM
          exact ⟨i, n, D, hs, hw, create_ok h⟩

theorem openWrite_ok {perm : ℕ} {truncate : Bool} (h : openWrite K d p perm truncate = .ok (L, d')) :
    trailingSlash p = false ∧
      (walk d.tree.kindAt maxSymlinks [] (steps p) = .found L ∧ d.tree.kindAt L ≠ some .dir ∧
          Alters d .write L d' ∨
        walk d.tree.kindAt maxSymlinks [] (steps p) = .missing L ∧ Makes d L .leaf d') := by
  rw [openWrite] at h
  split at h
  · cases h
  · rename_i hp
    refine ⟨by simpa using fun hs => hp (.inl hs), ?_⟩
    split at h
    · rename_i L' hw
      refine .inl ?_
      split at h
      · cases h
      · rename_i hndir
        split at h
        · cases h
        · split at h
          · obtain ⟨rfl, rfl⟩ := Prod.mk.inj (Except.ok.inj h)
            exact ⟨hw, hndir, Disk.kindAt_alter, Since.alter⟩
          · obtain ⟨rfl, rfl⟩ := Prod.mk.inj (Except.ok.inj h)
            exact ⟨hw, hndir, rfl, fun _ => Since.refl _⟩
    · rename_i L' hw
      refine .inr ?_
      cases hc : create K d .create (newEntry K (.file []) (K.masked perm)) L' with
      | error e => rw [hc] at h; cases h
      | ok d₁ =>
        rw [hc] at h
        obtain ⟨rfl, rfl⟩ := Prod.mk.inj (Except.ok.inj h)
        exact ⟨hw, create_ok hc⟩
    · cases h

theorem openWrite_found {perm : ℕ} {truncate : Bool} (h : openWrite K d p perm truncate = .ok (L, d'))
    (hw : walk d.tree.kindAt maxSymlinks [] (steps p) = .found M) :
    d' = if truncate then d.alter .write L (Entry.setData K.now fun _ => []) (Entry.kind_setData K.now _) else d := by
  rw [openWrite] at h
  rw [hw] at h
  split at h
  · cases h
  · dsimp only at h
    split at h
    · cases h
    · split at h
      · cases h
      · cases truncate <;> exact (Prod.mk.inj (Except.ok.inj h)).2.symm ▸ (Prod.mk.inj (Except.ok.inj h)).1 ▸ rfl

theorem openWrite_missing {perm : ℕ} {truncate : Bool} (h : openWrite K d p perm truncate = .ok (L, d'))
    (hw : walk d.tree.kindAt maxSymlinks [] (steps p) = .missing M) :
    d'.tree.get L = some (newEntry K (.file []) (K.masked perm)) := by
  rw [openWrite] at h
  rw [hw] at h
  split at h
  · cases h
  · dsimp only at h
    cases hc : create K d .create (newEntry K (.file []) (K.masked perm)) M with
    | error err => rw [hc] at h; cases h
    | ok d₁ =>
      rw [hc] at h
      obtain ⟨rfl, rfl⟩ := Prod.mk.inj (Except.ok.inj h)
      exact get_create hc

theorem write_alters (off : ℕ) (bytes : Text) : Alters d .write L (write K d L off bytes) := by
  rw [write]
  split
  · exact ⟨rfl, fun _ => Since.refl _⟩
  · exact ⟨Disk.kindAt_alter, Since.alter⟩

/-- What is removed has nothing below it, and is a directory if a slash comes after its name. -/
theorem remove_eq (h : remove K d p = .ok d') :
    ∃ i n D hn, steps p = i ++ [.down n] ∧ walk d.tree.kindAt maxSymlinks [] i = .found D ∧
      (trailingSlash p = true → d.tree.kindAt (n :: D) = some .dir) ∧ d.tree.kindAt (n :: D) ≠ none ∧
      d' = (d.erase .remove n D hn).alter .attr D (Entry.setMtime K.now) (Entry.kind_setMtime K.now) := by
  rw [remove] at h
  split at h
  · cases h
  · split at h
    · cases h
    · cases h
    · rename_i n D hM
      obtain ⟨i, n', D', hs, hw, -, hnD⟩ := place_eq_some.mp hM
      obtain ⟨rfl, rfl⟩ := List.cons.inj hnD
      split at h
      · cases h
      · rename_i e he
        have hkind : d.tree.kindAt (n :: D) = some e.kind := by rw [Tree.kindAt, he]; rfl
        split at h
        · cases h
        · rename_i hslash
          split at h
          · rename_i hn
            split at h
            · cases h
            · refine ⟨i, n, D, hn, hs, hw, fun ht => ?_, ?_, (Except.ok.inj h).symm⟩
              · rw [hkind, not_not.mp fun hdir => hslash ⟨ht, hdir⟩]
              · rw [hkind]
                exact Option.some_ne_none _
          · cases h

theorem remove_ok (h : remove K d p = .ok d') :
    ∃ i n D, steps p = i ++ [.down n] ∧ walk d.tree.kindAt maxSymlinks [] i = .found D ∧ Removes d (n :: D) d' := by
  obtain ⟨i, n, D, hn, hs, hw, -, hnone, rfl⟩ := remove_eq h
  refine ⟨i, n, D, hs, hw, hnone, ?_, fun hr ha => (Since.erase hr).trans (Since.alter ha)⟩
  rw [Disk.kindAt_alter, Disk.kindAt_erase]

/-- The call has moved what is at and below `L` to `M`, unless that is where it is. -/
structure Moves (d : Fs) (L M : Loc Name) (d' : Fs) : Prop where
  since : Since (fun a x => a = .attr ∨ L ≠ M ∧ ∃ r, (d.tree.get (r ++ L)).isSome ∧ (x = r ++ L ∨ x = r ++ M)) d d'
  journal : L ≠ M → ∀ r, (d.tree.get (r ++ L)).isSome → (.move, r ++ L) ∈ d'.journal ∧ (.move, r ++ M) ∈ d'.journal

/-- Nothing is below a place where an entry can be put. -/
theorem replaceErr_eq_none {e : Entry} (h : replaceErr d e M = none) {r : Loc Name} (hr : (d.tree.get (r ++ M)).isSome) :
    r = [] := by
  by_contra hne
  have hnone : d.tree.get (r ++ M) = none := by
    rw [replaceErr] at h
    split at h
    · exact d.tree.none_below ‹_› (List.suffix_append r M)
    · split at h
      · cases h
      · split at h
        · cases h
        · split at h
          · cases h
          · exact d.tree.none_of_children (not_not.mp ‹_›) hne
  rw [hnone] at hr
  cases hr

/-- What stands at or below one of the two places of a move has been moved, or is what the move replaces. -/
theorem moved_place {n m : Name} {D E x : Loc Name} {e : Entry} {hE : d.tree.kindAt E = some .dir}
    {hin : ¬ (n :: D) <:+ E} (he : d.tree.get (n :: D) = some e) (hnone : replaceErr d e (m :: E) = none)
    (hx : (n :: D) <:+ x ∨ (m :: E) <:+ x)
    (hs : (d.tree.get x).isSome ∨ ((d.tree.move n D m E hE hin).get x).isSome) :
    ∃ r, (d.tree.get (r ++ n :: D)).isSome ∧ (x = r ++ n :: D ∨ x = r ++ m :: E) := by
  by_cases hto : (m :: E) <:+ x
  · obtain ⟨r, rfl⟩ := hto
    rcases hs with hs | hs
    · obtain rfl := replaceErr_eq_none hnone hs
      exact ⟨[], by rw [List.nil_append, he]; rfl, .inr rfl⟩
    · simp only [Tree.move, dropSuffix?_eq_some.mpr rfl] at hs
      exact ⟨r, hs, .inr rfl⟩
  · have hfrom := hx.resolve_right hto
    rcases hs with hs | hs
    · obtain ⟨r, rfl⟩ := hfrom
      exact ⟨r, hs, .inl rfl⟩
    · simp only [Tree.move, dropSuffix?_eq_none.mpr hto, if_pos hfrom] at hs
      cases hs

theorem mem_move {n m : Name} {D E r : Loc Name} {hE : d.tree.kindAt E = some .dir} {hin : ¬ (n :: D) <:+ E}
    (hr : (d.tree.get (r ++ n :: D)).isSome) :
    (Act.move, r ++ n :: D) ∈ (d.move .move n D m E hE hin).journal ∧
      (Act.move, r ++ m :: E) ∈ (d.move .move n D m E hE hin).journal := by
  have hmem : ∀ x, ((n :: D) <:+ x ∨ (m :: E) <:+ x) →
      (d.tree.get x).isSome ∨ ((d.tree.move n D m E hE hin).get x).isSome →
        (Act.move, x) ∈ (d.move .move n D m E hE hin).journal := by
    intro x hx hs
    refine List.mem_append_left _ (List.mem_map.mpr ⟨x, List.mem_filter.mpr ⟨?_, decide_eq_true ⟨hx, hs⟩⟩, rfl⟩)
    exact hs.elim (fun h => List.mem_append_left _ (d.tree.mem_locs h)) (Tree.mem_locs _)
  constructor
  · exact hmem _ (.inl (List.suffix_append r _)) (.inl hr)
  · refine hmem _ (.inr (List.suffix_append r _)) (.inr ?_)
    simp only [Tree.move, dropSuffix?_eq_some.mpr rfl]
    exact hr

theorem rename_ok {q : Text} (h : rename K d p q = .ok d') :
    ∃ L M, place d.tree.kindAt maxSymlinks (steps p) = some L ∧ place d.tree.kindAt maxSymlinks (steps q) = some M ∧
      Moves d L M d' := by
  rw [rename] at h
  split at h
  · rename_i n D m E hL hM
    refine ⟨_, _, hL, hM, ?_⟩
    split at h
    · cases h
    · rename_i e he
      split at h
      · cases h
      · split at h
        · cases h
        · split at h
          · cases h
          · split at h
            · obtain rfl := Except.ok.inj h
              exact ⟨Since.refl d, fun hne => absurd ‹_› hne⟩
            · rename_i hne
              split at h
              · split at h
                · cases h
                · rename_i hnone
                  split at h
                  · cases h
                  · obtain rfl := Except.ok.inj h
                    constructor
                    · refine ((Since.move fun x hx hs => .inr ⟨hne, ?_⟩).trans (Since.alter (.inl rfl))).trans
                        (Since.alter (.inl rfl))
                      exact moved_place he hnone hx hs
                    · intro _ r hr
                      obtain ⟨hfrom, hto⟩ := mem_move hr
                      exact ⟨List.mem_cons_of_mem _ (List.mem_cons_of_mem _ hfrom),
                        List.mem_cons_of_mem _ (List.mem_cons_of_mem _ hto)⟩
              · cases h
  · cases h

theorem osRename_ok {q : Text} (h : osRename K d p q = .ok d') :
    ∃ L M, place d.tree.kindAt maxSymlinks (steps p) = some L ∧ place d.tree.kindAt maxSymlinks (steps q) = some M ∧
      Moves d L M d' := by
  rw [osRename] at h
  split at h
  · exact rename_ok h
  · split at h
    · exact rename_ok h
    · split at h
      · cases h
      · split at h
        · cases h
        · exact rename_ok h

theorem setAttr_ok {c : Call} {f : Entry → Entry} {hf : ∀ e, (f e).kind = e.kind} {s : Stop Name}
    (h : setAttr K d c f hf s = .ok d') : ∃ L, s = .found L ∧ Alters d .attr L d' := by
  unfold setAttr at h
  split at h
  · rename_i L
    split at h
    · cases h
    · obtain rfl := Except.ok.inj h
      exact ⟨L, rfl, Disk.kindAt_alter, Since.alter⟩
  · cases h
  · cases h

end OpenshiftConsole.Filesystem
