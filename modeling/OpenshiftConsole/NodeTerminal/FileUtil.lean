import OpenshiftConsole.Library.Lines

/-!
# Rewriting a host file

`atomic_rewrite_file` of the node terminal's shim: lock a sibling lock file, read
the target through a transform into a temporary file of the same directory, sync
it and rename it over the target. The header promises that it "either fully lands
or leaves `path` completely untouched".

Every step that can fail is a field of `Faults`: the reported ones end the call
with `-1`; the silent ones (`openIn`, `readCut`, `fchmod`, `lostWrite`) are
those whose result the code does not look at.
-/

namespace OpenshiftConsole.NodeTerminal

open OpenshiftConsole.Library.Lines

/-- A regular file of the host. -/
structure Inode where
  /-- What it holds. -/
  contents : Text
  /-- Its permission bits. -/
  mode : ℕ
  /-- Its owner. -/
  uid : ℕ
  /-- Its group. -/
  gid : ℕ
  deriving DecidableEq

/-- A transform: from what it reads (`none` when the file could not be opened) to
what it writes, or `none` when it aborts the rewrite. -/
abbrev AtomicTransform := Option Text → Option Text

/-- Which of the steps of `atomic_rewrite_file` fail. -/
structure Faults where
  /-- Opening the lock file. -/
  openLock : Bool
  /-- Locking it. -/
  flock : Bool
  /-- Opening the target for reading, for another reason than absence. -/
  openIn : Bool
  /-- Reading the target: after this many characters the stream says it is at its end. -/
  readCut : Option ℕ
  /-- Making the temporary file. -/
  mkstemp : Bool
  /-- Setting its mode. -/
  fchmod : Bool
  /-- Making a stream of it. -/
  fdopen : Bool
  /-- The characters, by their place in the output, that an early buffered write fails to write. -/
  lostWrite : ℕ → Bool
  /-- Flushing the stream. -/
  flush : Bool
  /-- Syncing it. -/
  fsync : Bool
  /-- Renaming the temporary file over the target. -/
  rename : Bool

/-- No step fails. -/
def Faults.none : Faults :=
  ⟨false, false, false, Option.none, false, false, false, fun _ => false, false, false, false⟩

/-- What the transform can read of the target. -/
def Faults.seen (fl : Faults) (path : Option Inode) : Option Text :=
  match path with
  | .none => .none
  | some i =>
    if fl.openIn then .none
    else match fl.readCut with
      | .none => some i.contents
      | some n => some (i.contents.take n)

/-- What reaches the temporary file of what the transform writes. -/
def Faults.kept (fl : Faults) (out : Text) : Text :=
  (out.zipIdx.filter fun p => !fl.lostWrite p.2).map (·.1)

/-- The mode of the temporary file: what `fchmod` sets, or else what `mkstemp` gives. -/
def Faults.tmpMode (fl : Faults) : ℕ := if fl.fchmod then 0o600 else 0o644

/-- `atomic_rewrite_file`, run by a process whose user and group are `shim`: the
value returned, and the target afterwards. -/
def atomicRewriteFile (shim : ℕ × ℕ) (fl : Faults) (fn : AtomicTransform) (path : Option Inode) :
    ℤ × Option Inode :=
  if fl.openLock then (-1, path)
  else if fl.flock then (-1, path)
  -- `fopen(path, "r")` failing is taken for absence, whatever the reason
  else if fl.mkstemp then (-1, path)
  else if fl.fdopen then (-1, path)
  else match fn (fl.seen path) with
    | .none => (-1, path)
    | some out =>
      if fl.flush || fl.fsync then (-1, path)
      else if fl.rename then (-1, path)
      else (0, some ⟨fl.kept out, fl.tmpMode, shim.1, shim.2⟩)

/-- What the header promises of a call that returned `r`: on `0` the contents are
the transform of the complete old contents and a target that existed keeps its mode
and owner; on `-1` nothing has changed. -/
def AllOrNothing (fn : AtomicTransform) (path : Option Inode) (r : ℤ × Option Inode) : Prop :=
  (r.1 = 0 → ∃ i', r.2 = some i' ∧ fn (path.map (·.contents)) = some i'.contents ∧
    ∀ i ∈ path, i'.mode = i.mode ∧ i'.uid = i.uid ∧ i'.gid = i.gid) ∧
  (r.1 = -1 → r.2 = path)

/-- A step whose failure the code looks at fails. -/
def Faults.Reported (fl : Faults) : Prop :=
  fl.openLock ∨ fl.flock ∨ fl.mkstemp ∨ fl.fdopen ∨ fl.flush ∨ fl.fsync ∨ fl.rename

instance (fl : Faults) : Decidable fl.Reported := by unfold Faults.Reported; infer_instance

/-- A rewrite none of whose steps reports a failure. -/
theorem atomicRewriteFile_landed {shim : ℕ × ℕ} {fl : Faults} {fn : AtomicTransform} {path : Option Inode}
    {out : Text} (hfl : ¬ fl.Reported) (hfn : fn (fl.seen path) = some out) :
    atomicRewriteFile shim fl fn path = (0, some ⟨fl.kept out, fl.tmpMode, shim.1, shim.2⟩) := by
  simp only [Faults.Reported, not_or, Bool.not_eq_true] at hfl
  obtain ⟨h1, h2, h3, h4, h5, h6, h7⟩ := hfl
  simp [atomicRewriteFile, h1, h2, h3, h4, h5, h6, h7, hfn]

/-- A rewrite one of whose steps reports a failure. -/
theorem atomicRewriteFile_reported {shim : ℕ × ℕ} {fl : Faults} {fn : AtomicTransform} {path : Option Inode}
    (hfl : fl.Reported) : atomicRewriteFile shim fl fn path = (-1, path) := by
  unfold atomicRewriteFile
  rcases hfl with h | h | h | h | h | h | h <;> simp only [h, if_true, ite_self, Bool.true_or, Bool.or_true] <;>
    cases fn (fl.seen path) <;> simp

/-- A transform that aborts. -/
theorem atomicRewriteFile_aborted {shim : ℕ × ℕ} {fl : Faults} {fn : AtomicTransform} {path : Option Inode}
    (hfn : fn (fl.seen path) = none) : atomicRewriteFile shim fl fn path = (-1, path) := by
  simp [atomicRewriteFile, hfn]

/-- **A rewrite is all or nothing** exactly when it fails visibly, or neither what it
could not read nor what it lost while writing matters to the transform and the target
has the mode and the owner that the temporary file gets. -/
theorem allOrNothing_iff (shim : ℕ × ℕ) (fl : Faults) (fn : AtomicTransform) (path : Option Inode) :
    AllOrNothing fn path (atomicRewriteFile shim fl fn path) ↔
      fl.Reported ∨ fn (fl.seen path) = none ∨
        ((fn (fl.seen path)).map fl.kept = fn (path.map (·.contents)) ∧
          ∀ i ∈ path, i.mode = fl.tmpMode ∧ i.uid = shim.1 ∧ i.gid = shim.2) := by
  by_cases hrep : fl.Reported
  · rw [atomicRewriteFile_reported hrep]
    simp [AllOrNothing, hrep]
  cases hfn : fn (fl.seen path) with
  | none =>
    rw [atomicRewriteFile_aborted hfn]
    simp [AllOrNothing]
  | some out =>
    rw [atomicRewriteFile_landed hrep hfn]
    simp only [AllOrNothing, hrep, reduceCtorEq, false_or, Option.map_some, true_implies]
    constructor
    · rintro ⟨h, -⟩
      obtain ⟨i', hi', hc, hm⟩ := h
      cases hi'
      exact ⟨hc.symm, fun i hi => by obtain ⟨h1, h2, h3⟩ := hm i hi; exact ⟨h1.symm, h2.symm, h3.symm⟩⟩
    · rintro ⟨hc, hm⟩
      refine ⟨⟨_, rfl, hc.symm, fun i hi => ?_⟩, by simp⟩
      obtain ⟨h1, h2, h3⟩ := hm i hi
      exact ⟨h1.symm, h2.symm, h3.symm⟩

/-! ### Without faults -/

theorem Faults.not_reported_none : ¬ Faults.none.Reported := by decide

theorem kept_of_no_loss {fl : Faults} (h : ∀ n, fl.lostWrite n = false) (out : Text) : fl.kept out = out := by
  simp [Faults.kept, h]

theorem seen_none (path : Option Inode) : Faults.none.seen path = path.map (·.contents) := by
  cases path <;> rfl

/-- When no step fails, the target holds what the transform makes of it. -/
theorem atomicRewriteFile_none {shim : ℕ × ℕ} {fn : AtomicTransform} {path : Option Inode} {out : Text}
    (hfn : fn (path.map (·.contents)) = some out) :
    atomicRewriteFile shim Faults.none fn path = (0, some ⟨out, 0o644, shim.1, shim.2⟩) := by
  rw [atomicRewriteFile_landed Faults.not_reported_none (by rw [seen_none]; exact hfn),
    kept_of_no_loss fun _ => rfl]
  rfl

end OpenshiftConsole.NodeTerminal
