import OpenshiftConsole.Filesystem.Syscalls
import Mathlib.Data.Char
import Mathlib.Data.List.Lex
import Mathlib.Data.List.Sort

/-!
# The root handle

The methods of `rootfs.Root` that the helper works through, for the native root: the
helper has joined the container's mount namespace, so each method cleans the path
(which only rejects a NUL byte and sees to one leading slash) and makes the system call.
`MkdirAll` is the one with a loop: it makes each prefix of the path in turn and goes on
where a directory is there already, also through a link. What it makes are places that
are missing when every missing place is taken for a directory, and that tree stays as it
is (`mkdirAll_spec`).
-/

namespace OpenshiftConsole.Filesystem.Root

open OpenshiftConsole.Library.Lines (Text notMem_of_mem_splitOn)
open OpenshiftConsole.Library.PathWalk OpenshiftConsole.Library.FileTree

variable (K : Kernel) (d : Fs)

/-- A call on the cleaned path. -/
def onHost {α : Type} (p : Text) (call : Text → Except Errno α) : Except Errno α :=
  match Rootfs.resolve p with
  | none => .error .inval
  | some host => call host

/-- `Root.Open` -/
def openRead (p : Text) : Except Errno (Loc Name) := onHost p (Filesystem.openRead K d)

/-- `Root.OpenWrite` -/
def openWrite (p : Text) (perm : ℕ) (truncate : Bool) : Except Errno (Loc Name × Fs) :=
  onHost p fun host => Filesystem.openWrite K d host perm truncate

/-- `Root.Stat` -/
def stat (p : Text) : Except Errno (Loc Name × Entry) := onHost p (Filesystem.stat d)

/-- `Root.Lstat` -/
def lstat (p : Text) : Except Errno (Loc Name × Entry) :=
  if Rootfs.cleanPath p = some ['.'] then stat d p else onHost p (Filesystem.lstat d)

/-- `Root.Mkdir` -/
def mkdir (p : Text) (perm : ℕ) : Except Errno Fs := onHost p fun host => Filesystem.mkdir K d host perm

/-- `Root.Remove` -/
def remove (p : Text) : Except Errno Fs := onHost p (Filesystem.remove K d)

/-- `Root.Symlink` -/
def symlink (target p : Text) : Except Errno Fs := onHost p (Filesystem.symlink K d target)

/-- `Root.Chtimes`, by `os.Chtimes`, which follows the last name whatever `resolve` was asked for. -/
def chtimes (p : Text) (mtime : Time) : Except Errno Fs := onHost p fun host => utimes K d host mtime

/-- `Root.Chmod` -/
def chmod (p : Text) (perm : ℕ) : Except Errno Fs := onHost p fun host => Filesystem.chmod K d host perm

/-- `Root.Chown` -/
def chown (p : Text) (uid gid : ℕ) : Except Errno Fs := onHost p fun host => lchown K d host uid gid

/-- `Root.Readlink` -/
def readlink (p : Text) : Except Errno Text :=
  onHost p fun host =>
    match Filesystem.lstat d host with
    | .error err => .error err
    | .ok (_, st) =>
      match st.node with
      | .symlink target => .ok target
      | _ => .error .inval

/-- `Root.Rename` -/
def rename (src dst : Text) (overwrite : Bool) : Except Errno Fs :=
  onHost src fun fromHost => onHost dst fun toHost =>
    if !overwrite && (Filesystem.lstat d toHost).isOk then .error .exist else osRename K d fromHost toHost

/-- `Dirent` -/
structure Dirent where
  name : Name
  stat : Entry
  linkTarget : Text
  targetIsDir : Bool

/-- A name that `Root.List` has read, on the host path and on the path that was asked for. -/
def dirent (host p : Text) (name : Name) : Option Dirent :=
  -- filepath.Join cleans: a ".." in the path takes the name before it away, be that a link or not
  match Filesystem.lstat d (pathClean (host ++ '/' :: name.val)) with
  | .error _ => none
  | .ok (_, st) =>
    match st.node with
    | .symlink target =>
      some ⟨name, st, target,
        match stat d (Rootfs.join p name.val) with
        | .ok (_, e) => e.node = .dir
        | .error _ => false⟩
    | _ => some ⟨name, st, [], false⟩

/-- `Root.List`, with the directory that was read; no limit where it is not positive. -/
def list (p : Text) (limit : ℤ) : Except Errno (Loc Name × List Dirent × Bool) :=
  onHost p fun host =>
    match Filesystem.openRead K d host with
    | .error err => .error err
    | .ok L =>
      match readdir K d L with
      | .error err => .error err
      | .ok names =>
        let names := names.insertionSort fun a b => a.val ≤ b.val
        if limit > 0 ∧ names.length > limit then .ok (L, (names.take limit.toNat).filterMap (dirent d host p), true)
        else .ok (L, names.filterMap (dirent d host p), false)

/-- The loop of `Root.MkdirAll`, with what has been built of the path so far. -/
def mkdirLoop (perm : ℕ) : Text → List Text → Fs → Fs × Option Errno
  | _, [], d => (d, none)
  | built, part :: rest, d =>
    let built := if built.isEmpty then part else built ++ '/' :: part
    match mkdir K d ('/' :: built) perm with
    | .ok d => mkdirLoop perm built rest d
    | .error err =>
      match stat d ('/' :: built) with
      | .ok (_, st) => if st.node = .dir then mkdirLoop perm built rest d else (d, some err)
      | .error _ => (d, some err)

/-- `Root.MkdirAll` -/
def mkdirAll (p : Text) (perm : ℕ) : Fs × Option Errno :=
  match Rootfs.cleanPath p with
  | none => (d, some .inval)
  | some cleaned => if cleaned = ['.'] then (d, none) else mkdirLoop K perm [] (Rootfs.splitComponents cleaned) d

variable {K d} {d' : Fs} {p : Text} {L M : Loc Name}

theorem onHost_ok {α : Type} {call : Text → Except Errno α} {a : α} (h : onHost p call = .ok a) :
    ∃ host, Rootfs.resolve p = some host ∧ call host = .ok a := by
  rw [onHost] at h
  split at h
  · cases h
  · rename_i host hr
    exact ⟨host, hr, h⟩

theorem mkdir_ok {perm : ℕ} (h : mkdir K d p perm = .ok d') :
    ∃ i n D, steps p = i ++ [.down n] ∧ walk d.tree.kindAt maxSymlinks [] i = .found D ∧ Makes d (n :: D) .dir d' := by
  obtain ⟨host, hr, h⟩ := onHost_ok h
  obtain ⟨i, n, D, hs, hw, hm⟩ := Filesystem.mkdir_ok h
  exact ⟨i, n, D, Rootfs.steps_resolve hr hs, hw, hm⟩

theorem symlink_ok {target : Text} (h : symlink K d target p = .ok d') :
    trailingSlash p = false ∧ ∃ i n D, steps p = i ++ [.down n] ∧
      walk d.tree.kindAt maxSymlinks [] i = .found D ∧
      Makes d (n :: D) (.link (target.head? == some '/') (fullSteps target)) d' := by
  obtain ⟨host, hr, h⟩ := onHost_ok h
  obtain ⟨ht, i, n, D, hs, hw, hm⟩ := Filesystem.symlink_ok h
  exact ⟨Rootfs.trailingSlash_resolve hr hs ▸ ht, i, n, D, Rootfs.steps_resolve hr hs, hw, hm⟩

theorem remove_ok (h : remove K d p = .ok d') :
    ∃ i n D, steps p = i ++ [.down n] ∧ walk d.tree.kindAt maxSymlinks [] i = .found D ∧ Removes d (n :: D) d' := by
  obtain ⟨host, hr, h⟩ := onHost_ok h
  obtain ⟨i, n, D, hs, hw, hm⟩ := Filesystem.remove_ok h
  exact ⟨i, n, D, Rootfs.steps_resolve hr hs, hw, hm⟩

theorem openWrite_ok {perm : ℕ} {truncate : Bool} (h : openWrite K d p perm truncate = .ok (L, d')) :
    trailingSlash p = false ∧
      (walk d.tree.kindAt maxSymlinks [] (steps p) = .found L ∧ d.tree.kindAt L ≠ some .dir ∧
          Alters d .write L d' ∨
        walk d.tree.kindAt maxSymlinks [] (steps p) = .missing L ∧ Makes d L .leaf d') := by
  obtain ⟨host, hr, h⟩ := onHost_ok h
  rcases Rootfs.resolve_eq_some hr with ⟨hs, ht⟩ | ⟨rfl, -⟩
  · rw [← hs, ← ht]
    exact Filesystem.openWrite_ok h
  · cases h

theorem openWrite_found {perm : ℕ} {truncate : Bool} (h : openWrite K d p perm truncate = .ok (L, d'))
    (hw : walk d.tree.kindAt maxSymlinks [] (steps p) = .found M) :
    d' = if truncate then d.alter .write L (Entry.setData K.now fun _ => []) (Entry.kind_setData K.now _) else d := by
  obtain ⟨host, hr, h⟩ := onHost_ok h
  rcases Rootfs.resolve_eq_some hr with ⟨hs, -⟩ | ⟨rfl, -⟩
  · exact Filesystem.openWrite_found h (hs ▸ hw)
  · cases h

/-- The place of a path's last name. -/
theorem place_resolve {host : Text} (hr : Rootfs.resolve p = some host) {k : Loc Name → Option (Kind Name)} {h : ℕ}
    (hL : place k h (steps host) = some L) : place k h (steps p) = some L := by
  obtain ⟨i, n, D, hs, hw, hD, rfl⟩ := place_eq_some.mp hL
  exact place_eq_some.mpr ⟨i, n, D, Rootfs.steps_resolve hr hs, hw, hD, rfl⟩

theorem rename_ok {dst : Text} {overwrite : Bool} (h : rename K d p dst overwrite = .ok d') :
    ∃ L M, place d.tree.kindAt maxSymlinks (steps p) = some L ∧
      place d.tree.kindAt maxSymlinks (steps dst) = some M ∧ Moves d L M d' := by
  obtain ⟨host, hr, h⟩ := onHost_ok h
  obtain ⟨toHost, hto, h⟩ := onHost_ok h
  split at h
  · cases h
  · obtain ⟨L, M, hL, hM, hmoves⟩ := osRename_ok h
    exact ⟨L, M, place_resolve hr hL, place_resolve hto hM, hmoves⟩

theorem chmod_ok {perm : ℕ} (h : chmod K d p perm = .ok d') : ∃ L, Alters d .attr L d' := by
  obtain ⟨host, -, h⟩ := onHost_ok h
  obtain ⟨L, -, ha⟩ := setAttr_ok h
  exact ⟨L, ha⟩

theorem chown_ok {uid gid : ℕ} (h : chown K d p uid gid = .ok d') : ∃ L, Alters d .attr L d' := by
  obtain ⟨host, -, h⟩ := onHost_ok h
  obtain ⟨L, -, ha⟩ := setAttr_ok h
  exact ⟨L, ha⟩

theorem chtimes_ok {t : Time} (h : chtimes K d p t = .ok d') :
    ∃ L, walk d.tree.kindAt maxSymlinks [] (fullSteps p) = .found L ∧ Alters d .attr L d' := by
  obtain ⟨host, hr, h⟩ := onHost_ok h
  obtain ⟨L, hw, ha⟩ := setAttr_ok h
  exact ⟨L, (Rootfs.walk_resolve hr _ _).symm.trans hw, ha⟩

/-- Nothing but a time is changed. -/
theorem chtimes_eq {t : Time} (h : chtimes K d p t = .ok d') :
    ∃ L, d' = d.alter .attr L (Entry.setMtime t) (Entry.kind_setMtime t) := by
  obtain ⟨host, -, h⟩ := onHost_ok h
  unfold utimes setAttr at h
  split at h
  · split at h
    · cases h
    · exact ⟨_, (Except.ok.inj h).symm⟩
  · cases h
  · cases h

/-- An entry of the path's last name is found, without following it. -/
theorem lstat_isOk {host : Text} {i : List (Step Name)} {n : Name} {D : Loc Name}
    (hr : Rootfs.resolve p = some host) (hp : trailingSlash p = false) (hs : steps p = i ++ [.down n])
    (hw : walk d.tree.kindAt maxSymlinks [] i = .found D) (hk : d.tree.kindAt (n :: D) ≠ none) :
    (lstat d p).isOk = true := by
  have hne : ∀ s : List (Step Name), s = [] ∨ s = [.here] → s ≠ i ++ [.down n] := by
    rintro s (rfl | rfl) h
    · simp at h
    · simpa using congrArg List.getLast? h
  have hc : Rootfs.cleanPath p ≠ some ['.'] := fun hc =>
    hne _ (Rootfs.steps_of_root (Rootfs.trimLeft_of_cleanPath hc)) hs
  rw [lstat, if_neg hc, onHost, hr]
  rcases Rootfs.resolve_eq_some hr with ⟨hs', ht'⟩ | ⟨-, hroot⟩
  · exact Filesystem.lstat_isOk d (ht'.trans hp) (hs'.trans hs) hw hk
  · exact absurd hs (hne _ (Rootfs.steps_of_root hroot))

/-- What is opened for writing where nothing was found is made there. -/
theorem openWrite_makes {perm : ℕ} {truncate : Bool} (ho : openWrite K d p perm truncate = .ok (L, d'))
    (hl : (lstat d p).isOk ≠ true) :
    ∃ i n D, steps p = i ++ [.down n] ∧ walk d.tree.kindAt maxSymlinks [] i = .found D ∧ L = n :: D ∧
      Makes d L .leaf d' := by
  obtain ⟨host, hr, hhost⟩ := onHost_ok ho
  obtain ⟨ht, hcases⟩ := openWrite_ok ho
  -- the last step of a path that is opened is a name
  obtain ⟨i, n, hs⟩ : ∃ i n, steps p = i ++ [.down n] := by
    rw [Filesystem.openWrite] at hhost
    split at hhost
    · cases hhost
    · rename_i hlast
      rw [not_or] at hlast
      obtain ⟨⟨i, n⟩, hin⟩ := Option.ne_none_iff_exists'.mp hlast.2
      have hs := splitLast_eq_some.mp hin
      exact ⟨i, n, Rootfs.steps_resolve hr hs⟩
  have hne : walk d.tree.kindAt maxSymlinks [] (steps p) ≠ .stuck := by
    rcases hcases with ⟨hw, -⟩ | ⟨hw, -⟩ <;> rw [hw] <;> simp
  rw [hs] at hne hcases
  obtain ⟨D, hw, hD⟩ := d.tree.walk_take d.tree.root_dir (List.cons_ne_nil _ _) hne
  have hnone : d.tree.kindAt (n :: D) = none := by
    by_contra hk
    exact hl (lstat_isOk hr ht hs hw hk)
  have hmissing := walk_down_missing hw hD hnone
  rcases hcases with ⟨hfound, -⟩ | ⟨hw', hm⟩
  · rw [hmissing] at hfound
    cases hfound
  · rw [hmissing] at hw'
    obtain rfl := Stop.missing.inj hw'
    exact ⟨i, n, D, hs, hw, rfl, hm⟩

/-! ### MkdirAll -/

/-- The steps that `MkdirAll` takes: it leaves `.` out. -/
def mkdirSteps (p : Text) : List (Step Name) := (steps p).filter (· ≠ .here)

/-- All that was done satisfies `P` and was to make directories where there was nothing. -/
structure Fills (P : Act → Loc Name → Prop) (d d' : Fs) : Prop where
  since : Since P d d'
  grows : Extends d.tree.kindAt d'.tree.kindAt
  fill : fill d'.tree.kindAt = fill d.tree.kindAt

variable {P : Act → Loc Name → Prop}

theorem Fills.refl (d : Fs) : Fills P d d := ⟨Since.refl d, Extends.refl _, rfl⟩

theorem Fills.trans {d'' : Fs} (h : Fills P d d') (h' : Fills P d' d'') : Fills P d d'' :=
  ⟨h.since.trans h'.since, h.grows.trans h'.grows, h'.fill.trans h.fill⟩

theorem filterMap_stepOf_filter (l : List Text) :
    (l.filter fun c => c != [] && c != ['.']).filterMap stepOf = (l.filterMap stepOf).filter (· ≠ .here) := by
  induction l with
  | nil => rfl
  | cons c l ih =>
    by_cases h₁ : c = []
    · simpa [h₁, stepOf] using ih
    by_cases h₂ : c = ['.']
    · simpa [h₂, stepOf] using ih
    have hc : stepOf c ≠ some .here := by
      rw [stepOf]
      rw [if_neg h₁, if_neg h₂]
      split <;> [skip; split] <;> simp
    rw [List.filter_cons_of_pos (by simp [h₁, h₂])]
    cases hs : stepOf c with
    | none => rw [List.filterMap_cons_none hs, List.filterMap_cons_none hs, ih]
    | some x =>
      rw [List.filterMap_cons_some hs, List.filterMap_cons_some hs, ih, List.filter_cons_of_pos]
      simpa using fun hx : x = .here => hc (hx ▸ hs)

theorem filterMap_stepOf_cons (c : Text) (l : List Text) :
    (c :: l).filterMap stepOf = (stepOf c).toList ++ l.filterMap stepOf := by
  cases hs : stepOf c with
  | none => rw [List.filterMap_cons_none hs]; rfl
  | some x => rw [List.filterMap_cons_some hs]; rfl

/-- The parts of a cleaned path stand for the steps that `MkdirAll` takes. -/
theorem splitComponents_steps {cleaned : Text} (hc : Rootfs.cleanPath p = some cleaned) (hd : cleaned ≠ ['.']) :
    (Rootfs.splitComponents cleaned).filterMap stepOf = mkdirSteps p := by
  rw [Rootfs.splitComponents, filterMap_stepOf_filter, mkdirSteps, ← Rootfs.steps_cleanPath hc hd]
  rfl

theorem mem_splitComponents {c : Text} (hc : c ∈ Rootfs.splitComponents p) : c ≠ [] ∧ '/' ∉ c := by
  obtain ⟨hm, hc⟩ := List.mem_filter.mp hc
  refine ⟨?_, notMem_of_mem_splitOn hm⟩
  rintro rfl
  cases hc

theorem steps_built (built : Text) {part : Text} (hpart : '/' ∉ part) :
    steps ('/' :: if built.isEmpty then part else built ++ '/' :: part) = steps built ++ (stepOf part).toList := by
  rw [steps_slash]
  split
  · rename_i h
    rw [List.isEmpty_iff.mp h, steps_nil, List.nil_append, steps_of_notMem hpart]
  · rw [steps_append_slash, steps_of_notMem hpart]

theorem mkdirLoop_fills {perm : ℕ} {built : Text} {parts : List Text} (hparts : ∀ c ∈ parts, '/' ∉ c)
    (hP : ∀ s M, s <+: parts.filterMap stepOf →
      walk (fill d.tree.kindAt) maxSymlinks [] (steps built ++ s) = .found M → d.tree.kindAt M = none →
      P .make M ∧ P .attr M.tail) :
    Fills P d (mkdirLoop K perm built parts d).1 := by
  induction parts generalizing built d with
  | nil => exact Fills.refl d
  | cons part rest ih =>
    have hb := steps_built built (hparts part List.mem_cons_self)
    have hcons := filterMap_stepOf_cons part rest
    rw [steps_slash] at hb
    -- what is made later extends what is made now
    have hrest : ∀ {d₁ : Fs}, Fills P d d₁ → ∀ s M, s <+: rest.filterMap stepOf →
        walk (fill d₁.tree.kindAt) maxSymlinks []
          (steps (if built.isEmpty then part else built ++ '/' :: part) ++ s) = .found M →
        d₁.tree.kindAt M = none → P .make M ∧ P .attr M.tail := by
      intro d₁ hd s M hs hw hM
      refine hP ((stepOf part).toList ++ s) M ?_ ?_ (hd.grows.eq_none hM)
      · rw [hcons]
        exact (List.prefix_append_right_inj _).mpr hs
      · rw [← List.append_assoc, ← hb, ← hd.fill]
        exact hw
    have hrest' := fun {d₁ : Fs} (hd : Fills P d d₁) =>
      ih (fun c hc => hparts c (List.mem_cons_of_mem _ hc)) (hrest hd)
    rw [mkdirLoop]
    split
    · rename_i d₁ hd₁
      obtain ⟨i, n, D, hs, hw, hm⟩ := mkdir_ok hd₁
      rw [steps_slash, hb] at hs
      have hmade := hP (stepOf part).toList (n :: D) (by rw [hcons]; exact List.prefix_append _ _)
        (by rw [hs]; exact walk_fill_of_missing (walk_down_missing hw hm.dir hm.empty)) hm.empty
      have hd : Fills P d d₁ := ⟨hm.since hmade.1 hmade.2, hm.grows, hm.fill⟩
      exact hd.trans (hrest' hd)
    · split
      · split
        · exact hrest' (Fills.refl d)
        · exact Fills.refl d
      · exact Fills.refl d

/-- **What `MkdirAll` makes**: directories at places that its path passes and that were missing. -/
theorem mkdirAll_fills (K : Kernel) (perm : ℕ)
    (hP : ∀ M, Passes d.tree.kindAt maxSymlinks (mkdirSteps p) M → d.tree.kindAt M = none →
      P .make M ∧ P .attr M.tail) :
    Fills P d (mkdirAll K d p perm).1 := by
  rw [mkdirAll]
  cases hc : Rootfs.cleanPath p with
  | none => exact Fills.refl d
  | some cleaned =>
    dsimp only
    split
    · exact Fills.refl d
    · rename_i hd
      refine mkdirLoop_fills (fun c hc => (mem_splitComponents hc).2) fun s M hs hw =>
        hP M ⟨s, splitComponents_steps hc hd ▸ hs, ?_⟩
      simpa [steps_nil] using hw

theorem stat_iff {e : Entry} :
    stat d p = .ok (L, e) ↔ (Rootfs.resolve p).isSome ∧ follow d p = .found L ∧ d.tree.get L = some e := by
  rw [stat, onHost]
  cases hr : Rootfs.resolve p with
  | none => simp
  | some host =>
    have hf : follow d host = follow d p := Rootfs.walk_resolve hr _ _
    rw [Option.isSome_some, eq_self_iff_true, true_and, ← hf]
    exact entryAt_eq_ok

theorem stat_dir {e : Entry} (h : stat d p = .ok (L, e)) (he : e.node = .dir) :
    follow d p = .found L ∧ d.tree.kindAt L = some .dir := by
  obtain ⟨-, hw, hg⟩ := stat_iff.mp h
  refine ⟨hw, ?_⟩
  rw [Tree.kindAt, hg, Option.map_some, Entry.kind, he]

theorem fullSteps_built (built : Text) {part : Text} (hne : part ≠ []) (hpart : '/' ∉ part) :
    fullSteps ('/' :: if built.isEmpty then part else built ++ '/' :: part) = steps built ++ (stepOf part).toList := by
  rw [fullSteps, steps_built built hpart, if_neg]
  have hlast : part.getLast? ≠ some '/' := fun h => hpart (List.mem_of_getLast? h)
  rw [trailingSlash, beq_iff_eq]
  split
  · rw [List.getLast?_cons_of_ne_nil hne]
    exact hlast
  · rw [← List.cons_append, List.getLast?_append_of_ne_nil _ (by simp), List.getLast?_cons_of_ne_nil hne]
    exact hlast

theorem mkdirLoop_found {perm : ℕ} {built : Text} {parts : List Text} (hparts : ∀ c ∈ parts, c ≠ [] ∧ '/' ∉ c)
    (h : mkdirLoop K perm built parts d = (d', none))
    (hb : ∃ D, walk d.tree.kindAt maxSymlinks [] (steps built) = .found D ∧ d.tree.kindAt D = some .dir) :
    ∃ R, walk d'.tree.kindAt maxSymlinks [] (steps built ++ parts.filterMap stepOf) = .found R ∧
      d'.tree.kindAt R = some .dir := by
  induction parts generalizing built d with
  | nil =>
    obtain ⟨rfl, -⟩ := Prod.mk.inj h
    simpa using hb
  | cons part rest ih =>
    obtain ⟨hne, hpart⟩ := hparts part List.mem_cons_self
    have hrest := fun c hc => hparts c (List.mem_cons_of_mem part hc)
    have hs := steps_built built hpart
    have hcons : steps built ++ (part :: rest).filterMap stepOf =
        steps (if built.isEmpty then part else built ++ '/' :: part) ++ rest.filterMap stepOf := by
      rw [steps_slash] at hs
      rw [hs, List.append_assoc, filterMap_stepOf_cons]
    rw [hcons]
    rw [mkdirLoop] at h
    split at h
    · rename_i d₁ hd₁
      obtain ⟨i, n, D, hi, hw, hm⟩ := mkdir_ok hd₁
      refine ih hrest h ⟨n :: D, ?_, by rw [hm.kindAt, Function.update_self]⟩
      rw [steps_slash] at hi
      rw [hi]
      exact walk_down_found (walk_found_of_extends hm.grows hw) (hm.grows _ _ hm.dir)
        (.inl (by rw [hm.kindAt, Function.update_self]))
    · split at h
      · rename_i L st hst
        split at h
        · rename_i hdir
          obtain ⟨hw, hL⟩ := stat_dir hst hdir
          refine ih hrest h ⟨L, ?_, hL⟩
          rw [follow, fullSteps_built built hne hpart] at hw
          rw [steps_slash] at hs
          rw [hs]
          exact hw
        · cases (Prod.mk.inj h).2
      · cases (Prod.mk.inj h).2

/-- After `MkdirAll` the steps it takes lead to a directory. -/
theorem mkdirAll_leads {perm : ℕ} (h : mkdirAll K d p perm = (d', none)) :
    ∃ R, walk d'.tree.kindAt maxSymlinks [] (mkdirSteps p) = .found R ∧ d'.tree.kindAt R = some .dir := by
  rw [mkdirAll] at h
  cases hc : Rootfs.cleanPath p with
  | none => rw [hc] at h; cases (Prod.mk.inj h).2
  | some cleaned =>
    rw [hc] at h
    dsimp only at h
    split at h
    · rename_i hd
      obtain ⟨rfl, -⟩ := Prod.mk.inj h
      have hroot : mkdirSteps p = [] := by
        rcases Rootfs.steps_of_root (Rootfs.trimLeft_of_cleanPath (hc.trans (congrArg some hd))) with hp | hp <;>
          rw [mkdirSteps, hp] <;> rfl
      exact ⟨[], by rw [hroot]; exact walk_of_advance rfl (by simp), d.tree.root_dir⟩
    · rename_i hd
      have hf := mkdirLoop_found (fun c hc => mem_splitComponents hc) h
        ⟨[], walk_of_advance (by rw [steps_nil]; rfl) (by simp), d.tree.root_dir⟩
      rw [steps_nil, List.nil_append, splitComponents_steps hc hd] at hf
      exact hf

/-- Where the steps of `MkdirAll` lead to a directory, so does the path. -/
theorem follow_of_mkdirSteps (hw : walk d.tree.kindAt maxSymlinks [] (mkdirSteps p) = .found M)
    (hM : d.tree.kindAt M = some .dir) : follow d p = .found M := by
  have hsteps := walk_skips (Skips.filter (steps p)) hw hM
  rw [follow, fullSteps]
  split
  · exact walk_append hsteps hM rfl (by simp)
  · exact hsteps

/-- After `MkdirAll` its path leads to a directory. -/
theorem mkdirAll_found {perm : ℕ} (h : mkdirAll K d p perm = (d', none)) :
    ∃ R, follow d' p = .found R ∧ d'.tree.kindAt R = some .dir := by
  obtain ⟨R, hw, hR⟩ := mkdirAll_leads h
  exact ⟨R, follow_of_mkdirSteps hw hR, hR⟩

end OpenshiftConsole.Filesystem.Root
