import OpenshiftConsole.Filesystem.ExtractBelow
import OpenshiftConsole.Filesystem.Restored

/-!
# What an extraction leaves as it was

An extraction that is not to overwrite makes entries and writes to files that it has made, and
nothing else: every entry that was there when it began is there when it ends, with the contents or
the target it had (`extract_keeps`). That holds whatever the archive is, wherever the destination's
links lead and at whatever member the extraction ends.

`Keeps` is a preorder, so each call of the loop is looked at alone. A call that makes something keeps
all there is (`Makes.keeps`); a body is written to what the call before it has made
(`writeFile_new`).
-/

namespace OpenshiftConsole.Filesystem

open OpenshiftConsole.Library.Lines (Text)
open OpenshiftConsole.Library.PathWalk OpenshiftConsole.Library.FileTree OpenshiftConsole.Library.Loops

/-- What stood somewhere still stands there: files with their contents, links with their targets. -/
def Keeps (d d' : Fs) : Prop := ∀ L node, nodeAt d L = some node → nodeAt d' L = some node

variable {K : Kernel} {d d' d'' : Fs} {L M : Loc Name} {κ : Kind Name} {p : Text} {perm : ℕ}

namespace Keeps

theorem refl (d : Fs) : Keeps d d := fun _ _ => id

theorem trans (h : Keeps d d') (h' : Keeps d' d'') : Keeps d d'' := fun L node hn => h' L node (h L node hn)

theorem of_eq (h : nodeAt d' = nodeAt d) : Keeps d d' := fun L _ hn => (congrFun h L).trans hn

/-- What was not there may be changed. -/
theorem alters {a : Act} (h : Keeps d d') (hL : nodeAt d L = none) (ha : Alters d' a L d'') : Keeps d d'' := by
  intro M node hM
  have hne : M ≠ L := by
    rintro rfl
    rw [hL] at hM
    cases hM
  have hframe := (ha.since (P := fun _ N => N = L) rfl).frame M fun _ => hne
  rw [nodeAt, hframe]
  exact h M node hM

end Keeps

/-- A call that makes something changes nothing there was but the times of the directory it is in. -/
theorem Makes.keeps (h : Makes d M κ d') : Keeps d d' := by
  intro L node hL
  by_cases hdir : L = M.tail
  · subst hdir
    rw [kindAt_dir_iff.mp h.dir] at hL
    rw [← hL]
    exact kindAt_dir_iff.mp (h.grows _ _ h.dir)
  · have hM : L ≠ M := by
      rintro rfl
      rw [nodeAt_eq_none.mpr ((Tree.kindAt_eq_none _).mp h.empty)] at hL
      cases hL
    have hframe := (h.since (P := fun _ N => N = M ∨ N = M.tail) (.inl rfl) (.inr rfl)).frame L
      fun _ => not_or.mpr ⟨hM, hdir⟩
    rw [nodeAt, hframe]
    exact hL

theorem Makes.nodeAt_eq_none (h : Makes d M κ d') : nodeAt d M = none :=
  Filesystem.nodeAt_eq_none.mpr ((Tree.kindAt_eq_none _).mp h.empty)

/-! ### Directories -/

theorem Root.mkdirLoop_keeps {built : Text} {parts : List Text} : Keeps d (Root.mkdirLoop K perm built parts d).1 := by
  induction parts generalizing built d with
  | nil => exact Keeps.refl d
  | cons part rest ih =>
    rw [Root.mkdirLoop]
    split
    · rename_i d₁ hd₁
      obtain ⟨_, _, _, -, -, hm⟩ := Root.mkdir_ok hd₁
      exact hm.keeps.trans ih
    · split
      · split
        · exact ih
        · exact Keeps.refl d
      · exact Keeps.refl d

theorem Root.mkdirAll_keeps (K : Kernel) (d : Fs) (p : Text) (perm : ℕ) : Keeps d (Root.mkdirAll K d p perm).1 := by
  rw [Root.mkdirAll]
  split
  · exact Keeps.refl d
  · split
    · exact Keeps.refl d
    · exact Root.mkdirLoop_keeps

namespace Extract

variable {dest target link : Text} {limits : ExtractLimits} {copy : ℤ → Body → Copied} {src : Body} {budget : ℤ}

/-! ### One member -/

theorem makeParent_keeps (K : Kernel) (target : Text) (d : Fs) : Keeps d (makeParent K target d).1 := by
  rw [makeParent]
  split
  · exact Root.mkdirAll_keeps K d _ 0o755
  · exact Keeps.refl d

theorem setTimes_keeps (K : Kernel) (target : Text) (modTime : Option Time) (d : Fs) :
    Keeps d (setTimes K target modTime d) := .of_eq nodeAt_setTimes

/-- A body is written to a file that was not there. -/
theorem writeFile_keeps : Keeps d (writeFile K copy target perm src false budget d).1 := by
  have hparent := makeParent_keeps K target d
  rcases writeFile_new K copy target perm src budget d with hd | ⟨_, _, _, _, -, hm, ha⟩
  · rw [hd]
    exact hparent
  · exact hparent.trans (hm.keeps.alters hm.nodeAt_eq_none ha)

/-- A link is made where there was nothing. -/
theorem writeSymlink_keeps : Keeps d (writeSymlink K target link false d).1 := by
  have hparent := makeParent_keeps K target d
  rcases writeSymlink_new K target link d with hd | ⟨_, _, _, _, -, hm⟩
  · rw [hd]
    exact hparent
  · exact hparent.trans hm.keeps

theorem writeMember_keeps {m : Member} {s s' : Progress} {err : Option Error}
    (h : writeMember K copy target false m s = (some s', err)) : Keeps s.disk s'.disk := by
  rw [writeMember] at h
  split at h <;> obtain ⟨hs, -⟩ := Prod.mk.inj h
  · obtain rfl := Option.some.inj hs
    exact Root.mkdirAll_keeps K s.disk target m.perm
  · obtain rfl := Option.some.inj hs
    exact Keeps.refl _
  · obtain rfl := Option.some.inj hs
    exact writeSymlink_keeps
  · obtain rfl := Option.some.inj hs
    exact Keeps.refl _
  · obtain rfl := Option.some.inj hs
    exact writeFile_keeps
  · cases hs

/-- **One turn of the loop** keeps what there is, whether it ends in an error or not. -/
theorem extractMember_keeps (m : Member) (s : Progress) :
    Keeps s.disk (extractMember K copy dest false limits m s).1.disk :=
  extractMember_invariant (Keeps.refl _) (fun _ _ _ _ _ => writeMember_keeps) fun target d hd =>
    hd.trans (setTimes_keeps K target m.modTime d)

/-! ### The run and the call -/

theorem extractMembers_keeps (members : List Member) (s : Progress) :
    Keeps s.disk (extractMembers K copy dest false limits members s).1.disk := by
  rw [extractMembers_eq]
  exact forEach_invariant (I := fun s' => Keeps s.disk s'.disk) (fun m _ s' hs => hs.trans (extractMember_keeps m s'))
    (Keeps.refl _)

theorem prepare_keeps (C : Codec) (archivePath : Text) : Keeps d (prepare K C archivePath dest d).1 := by
  rw [prepare]
  split
  · exact Keeps.refl d
  · have hdest := Root.mkdirAll_keeps K d dest 0o755
    rcases hd₁ : Root.mkdirAll K d dest 0o755 with ⟨d₁, _ | err⟩ <;> rw [hd₁] at hdest <;> exact hdest

/-- **An extraction that does not overwrite touches nothing that was there**: every entry that stood
somewhere before the call stands there after it, with the same contents or target, whatever the
archive and however the call ends. -/
theorem extract_keeps (K : Kernel) (C : Codec) (archivePath dest : Text) (limits : ExtractLimits) (d : Fs) :
    Keeps d (extract K C archivePath dest false limits d).1.disk := by
  have hprepare : Keeps d (prepare K C archivePath dest d).1 := prepare_keeps C archivePath
  rw [extract]
  rcases hd₁ : prepare K C archivePath dest d with ⟨d₁, err | a⟩ <;> rw [hd₁] at hprepare
  · exact hprepare
  · dsimp only
    rw [unpack_eq]
    have hd : Keeps d d₁ := hprepare
    exact hd.trans (extractMembers_keeps a.members ⟨d₁, limits.maxBytes, 0, []⟩)

end Extract

end OpenshiftConsole.Filesystem
