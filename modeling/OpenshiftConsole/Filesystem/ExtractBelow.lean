import OpenshiftConsole.Filesystem.Extract
import OpenshiftConsole.Library.Loops

/-!
# Where an extraction writes

An extraction is to change nothing but what is below its destination. `safeName` sees to
that for the text of a member's name; what a name leads to also depends on the links that
the file system has when the member comes, those of earlier members among them.

`Member.Leads` says where a member leads on a given file system, in terms of walks alone:
the directories that its path would have made, the entry that a file is written to, the
place of a link and the entry whose times are set all satisfy `P`. `extractMember_since`
is the step: a member that leads where `P` holds does only what satisfies `P`. The rest is
the run (`extractMembers_since`) and the call, whose destination is a directory when the
loop starts (`extract_staysBelow`). The step is stated for any `P` and serves for other
bounds than the destination too.
-/

namespace OpenshiftConsole.Filesystem.Extract

open OpenshiftConsole.Library.Lines (Text)
open OpenshiftConsole.Library.PathWalk OpenshiftConsole.Library.FileTree OpenshiftConsole.Library.Loops

/-! ### Where a member leads -/

/-- Making the directories of a path that are missing satisfies `P`. -/
def MakesIn (P : Act → Loc Name → Prop) (k : Loc Name → Option (Kind Name)) (p : Text) : Prop :=
  ∀ M, Passes k maxSymlinks (Root.mkdirSteps p) M → k M = none → P .make M ∧ P .attr M.tail

/-- Setting times at a path satisfies `P`, if they are set. -/
def TimesIn (P : Act → Loc Name → Prop) (k : Loc Name → Option (Kind Name)) (p : Text) (modTime : Option Time) : Prop :=
  modTime ≠ none → ∀ L, walk (fill k) maxSymlinks [] (fullSteps p) = .found L → P .attr L

/-- There is an entry of the path's last name. -/
def Present (k : Loc Name → Option (Kind Name)) (p : Text) : Prop :=
  ∃ i n D, steps p = i ++ [.down n] ∧ walk k maxSymlinks [] i = .found D ∧ k (n :: D) ≠ none

/-- What is made, written, removed and set for a member's content at a target path satisfies `P`, as
far as the path goes on a file system with kinds `k`; missing names count as directories that are
made on the way. A file or link that is there and not to be overwritten ends the extraction. -/
def Content.Leads (P : Act → Loc Name → Prop) (k : Loc Name → Option (Kind Name)) (overwrite : Bool) (target : Text)
    (modTime : Option Time) : Content → Prop
  | .dir => MakesIn P k target ∧ TimesIn P k target modTime
  | .regular none _ =>
    MakesIn P k (pathDir target) ∧
      (overwrite = true ∨ ¬ Present k target →
        ∀ L, walk (fill k) maxSymlinks [] (steps target) = .found L → k L ≠ some .dir →
          P .write L ∧ (modTime ≠ none → P .attr L) ∧ (k L = none → P .make L ∧ P .attr L.tail))
  | .symlink (.ok link) =>
    MakesIn P k (pathDir target) ∧
      (overwrite = true ∨ ¬ Present k target →
        ∀ i n D, steps target = i ++ [.down n] → walk (fill k) maxSymlinks [] i = .found D →
          P .make (n :: D) ∧ P .remove (n :: D) ∧ P .attr D ∧
            -- the times are set at what the new link leads to
            TimesIn P (Function.update k (n :: D) (some (.link (link.head? == some '/') (fullSteps link)))) target
              modTime)
  | _ => True

/-- Where a member leads, if its name is one that is extracted, satisfies `P`. -/
def Member.Leads (P : Act → Loc Name → Prop) (k : Loc Name → Option (Kind Name)) (dest : Text) (overwrite : Bool)
    (m : Member) : Prop :=
  ∀ name, safeName m.name = .ok name → name ≠ [] → m.content.Leads P k overwrite (Rootfs.join dest name) m.modTime

variable {K : Kernel} {P : Act → Loc Name → Prop} {d d' : Fs} {dest target : Text} {overwrite : Bool}
  {limits : ExtractLimits}

/-! ### One member -/

theorem makeParent_fills {err : Option Errno} (h : makeParent K target d = (d', err))
    (hP : MakesIn P d.tree.kindAt (pathDir target)) : Root.Fills P d d' := by
  unfold makeParent at h
  dsimp only at h
  split at h
  · obtain rfl : (Root.mkdirAll K d (pathDir target) 0o755).1 = d' := by rw [h]
    exact Root.mkdirAll_fills K 0o755 hP
  · obtain rfl := (Prod.mk.inj h).1
    exact Root.Fills.refl d

theorem setTimes_since {modTime : Option Time}
    (h : modTime ≠ none → ∀ L, follow d target = .found L → P .attr L) : Since P d (setTimes K target modTime d) := by
  unfold setTimes
  split
  · exact Since.refl d
  · split
    · obtain ⟨L, hw, ha⟩ := Root.chtimes_ok ‹_›
      exact ha.since (h (by simp) L hw)
    · exact Since.refl d

/-- Times that are set once directories have been made where they were missing. -/
theorem TimesIn.of_fill {modTime : Option Time} (h : TimesIn P d.tree.kindAt target modTime)
    (hk : fill d'.tree.kindAt = fill d.tree.kindAt) :
    modTime ≠ none → ∀ L, follow d' target = .found L → P .attr L :=
  fun ht L hw => h ht L (hk ▸ walk_fill_of_found hw)

/-- Where the entry of a target's name is looked for and not found, there was none before. -/
theorem not_present {host : Text} (hfill : Root.Fills P d d') (hr : Rootfs.resolve target = some host)
    (ht : trailingSlash target = false) (hl : (Root.lstat d' target).isOk ≠ true) : ¬ Present d.tree.kindAt target := by
  rintro ⟨i, n, D, hs, hw, hk⟩
  obtain ⟨κ, hκ⟩ := Option.ne_none_iff_exists'.mp hk
  refine hl (Root.lstat_isOk hr ht hs (walk_found_of_extends hfill.grows hw) ?_)
  rw [hfill.grows _ _ hκ]
  simp

theorem writeFile_since {copy : ℤ → Body → Copied} {perm : ℕ} {src : Body} {budget : ℤ} {c : Copied}
    {modTime : Option Time} (h : writeFile K copy target perm src overwrite budget d = (d', c))
    (hm : (Content.regular none src).Leads P d.tree.kindAt overwrite target modTime) :
    Since P d d' ∧ (c.err = none → modTime ≠ none → ∀ L, follow d' target = .found L → P .attr L) := by
  obtain ⟨hdir, hfile⟩ := hm
  rw [writeFile] at h
  rcases hp : makeParent K target d with ⟨d₁, _ | err⟩ <;> rw [hp] at h <;> have hd₁ := makeParent_fills hp hdir
  · dsimp only at h
    split at h
    · obtain ⟨rfl, rfl⟩ := Prod.mk.inj h
      exact ⟨hd₁.since, by simp⟩
    · rename_i hover
      split at h
      · obtain ⟨rfl, rfl⟩ := Prod.mk.inj h
        exact ⟨hd₁.since, by simp⟩
      · rename_i out d₂ ho
        obtain ⟨rfl, rfl⟩ := Prod.mk.inj h
        obtain ⟨ht, hcase⟩ := Root.openWrite_ok ho
        have hs : fullSteps target = steps target := if_neg (by rw [ht]; decide)
        have hnew : overwrite = true ∨ ¬ Present d.tree.kindAt target := by
          obtain ⟨host, hr, -⟩ := Root.onHost_ok ho
          cases overwrite with
          | true => exact .inl rfl
          | false => exact .inr (not_present hd₁ hr ht (by simpa using hover))
        have hwr := write_alters (K := K) (d := d₂) (L := out) 0 (src.data.take (copy budget src).n)
        rcases hcase with ⟨hw, hndir, ha⟩ | ⟨hw, hmade⟩
        · -- the entry is there
          have hf := hfile hnew out (hd₁.fill ▸ walk_fill_of_found hw) fun hk => hndir (hd₁.grows _ _ hk)
          refine ⟨(hd₁.since.trans (ha.since hf.1)).trans (hwr.since hf.1), fun _ hmt L hL => ?_⟩
          rw [follow, hwr.kindAt, ha.kindAt, hs, hw] at hL
          cases hL
          exact hf.2.1 hmt
        · -- the entry is made
          have hnone := hd₁.grows.eq_none hmade.empty
          have hf := hfile hnew out (hd₁.fill ▸ walk_fill_of_missing hw) (by simp [hnone])
          obtain ⟨hmake, hattr⟩ := hf.2.2 hnone
          refine ⟨(hd₁.since.trans (hmade.since hmake hattr)).trans (hwr.since hf.1), fun _ hmt L hL => ?_⟩
          have hout := walk_found_of_missing hw hmade.grows (.inr (by rw [hmade.kindAt, Function.update_self]))
          rw [follow, hwr.kindAt, hs, hout] at hL
          cases hL
          exact hf.2.1 hmt
  · obtain ⟨rfl, rfl⟩ := Prod.mk.inj h
    exact ⟨hd₁.since, by simp⟩

/-- A link's place is cleared if that is asked for, and otherwise was empty or ends the extraction. -/
theorem makeRoom_cases {err : Option Error} (h : makeRoom K target overwrite d = (d', err)) :
    (overwrite = true ∨ err ≠ none ∨ (Root.lstat d target).isOk ≠ true) ∧
      (d' = d ∨ overwrite = true ∧ ∃ i n D, steps target = i ++ [.down n] ∧
        walk d.tree.kindAt maxSymlinks [] i = .found D ∧ Removes d (n :: D) d') := by
  rw [makeRoom] at h
  split at h
  · split at h
    · obtain ⟨rfl, rfl⟩ := Prod.mk.inj h
      exact ⟨.inr (.inl (by simp)), .inl rfl⟩
    · rename_i hover
      have hover : overwrite = true := by simpa using hover
      refine ⟨.inl hover, ?_⟩
      split at h
      · obtain rfl := (Prod.mk.inj h).1
        exact .inr ⟨hover, Root.remove_ok ‹_›⟩
      · exact .inl (Prod.mk.inj h).1.symm
      · exact .inl (Prod.mk.inj h).1.symm
  · rename_i hl
    exact ⟨.inr (.inr hl), .inl (Prod.mk.inj h).1.symm⟩

/-- A file that is to replace nothing: the directories on the way are made, and if all goes well the file,
which is then written to. -/
theorem writeFile_new (K : Kernel) (copy : ℤ → Body → Copied) (target : Text) (perm : ℕ) (src : Body) (budget : ℤ)
    (d : Fs) : (writeFile K copy target perm src false budget d).1 = (makeParent K target d).1 ∨
      ∃ i n D d₂, steps target = i ++ [.down n] ∧ Makes (makeParent K target d).1 (n :: D) .leaf d₂ ∧
        Alters d₂ .write (n :: D) (writeFile K copy target perm src false budget d).1 := by
  rw [writeFile]
  rcases makeParent K target d with ⟨d₁, _ | err⟩
  · dsimp only
    split
    · exact .inl rfl
    · rename_i hl
      split
      · exact .inl rfl
      · rename_i out d₂ ho
        obtain ⟨i, n, D, hs, -, rfl, hm⟩ := Root.openWrite_makes ho (by simpa using hl)
        exact .inr ⟨i, n, D, d₂, hs, hm, write_alters 0 _⟩
  · exact .inl rfl

/-- A link that is to replace nothing: the directories on the way are made, and if all goes well the link. -/
theorem writeSymlink_new (K : Kernel) (target link : Text) (d : Fs) :
    (writeSymlink K target link false d).1 = (makeParent K target d).1 ∨
      ∃ i n D κ, steps target = i ++ [.down n] ∧
        Makes (makeParent K target d).1 (n :: D) κ (writeSymlink K target link false d).1 := by
  rw [writeSymlink]
  rcases makeParent K target d with ⟨d₁, _ | err⟩
  · dsimp only
    rcases hroom : makeRoom K target false d₁ with ⟨d₂, _ | err⟩ <;>
      obtain rfl : d₂ = d₁ := (makeRoom_cases hroom).2.resolve_right fun hr => Bool.false_ne_true hr.1
    · dsimp only
      split
      · rename_i d₃ hd₃
        obtain ⟨-, i, n, D, hs, -, hm⟩ := Root.symlink_ok hd₃
        exact .inr ⟨i, n, D, _, hs, hm⟩
      · exact .inl rfl
    · exact .inl rfl
  · exact .inl rfl

theorem writeSymlink_since {link : Text} {modTime : Option Time} {err : Option Error}
    (h : writeSymlink K target link overwrite d = (d', err))
    (hm : (Content.symlink (.ok link)).Leads P d.tree.kindAt overwrite target modTime) :
    Since P d d' ∧ (err = none → modTime ≠ none → ∀ L, follow d' target = .found L → P .attr L) := by
  obtain ⟨hdir, hlink⟩ := hm
  rw [writeSymlink] at h
  rcases hp : makeParent K target d with ⟨d₁, _ | e⟩ <;> rw [hp] at h <;> have hd₁ := makeParent_fills hp hdir
  · dsimp only at h
    rcases hr : makeRoom K target overwrite d₁ with ⟨d₂, er⟩
    obtain ⟨hnew, hroom⟩ := makeRoom_cases hr
    -- whatever was removed, the link's place is the same
    have hplace : Since P d d₂ ∧ Extends d₂.tree.kindAt d₁.tree.kindAt ∧ ∀ i n D, steps target = i ++ [.down n] →
        walk d₁.tree.kindAt maxSymlinks [] i = .found D →
          d₂.tree.kindAt = d₁.tree.kindAt ∨ d₂.tree.kindAt = Function.update d₁.tree.kindAt (n :: D) none := by
      rcases hroom with rfl | ⟨hover, i, n, D, hs, hw, hrem⟩
      · exact ⟨hd₁.since, Extends.refl _, fun _ _ _ _ _ => .inl rfl⟩
      · obtain ⟨-, hremove, hattr, -⟩ := hlink (.inl hover) i n D hs (hd₁.fill ▸ walk_fill_of_found hw)
        refine ⟨hd₁.since.trans (hrem.since hremove hattr), hrem.shrinks, fun i' n' D' hs' hw' => .inr ?_⟩
        obtain ⟨rfl, hn⟩ := List.append_inj' (hs.symm.trans hs') rfl
        obtain ⟨rfl, -⟩ : n = n' ∧ True := by simpa using hn
        obtain rfl : D = D' := by simpa using hw.symm.trans hw'
        exact hrem.kindAt
    rw [hr] at h
    cases er with
    | some e =>
      obtain ⟨rfl, rfl⟩ := Prod.mk.inj h
      exact ⟨hplace.1, by simp⟩
    | none =>
      dsimp only at h
      split at h
      · rename_i d₃ hs₃
        obtain ⟨rfl, rfl⟩ := Prod.mk.inj h
        obtain ⟨host, hres, -⟩ := Root.onHost_ok hs₃
        obtain ⟨ht, i, n, D, hs, hw, hmade⟩ := Root.symlink_ok hs₃
        have hnew : overwrite = true ∨ ¬ Present d.tree.kindAt target :=
          hnew.imp_right fun h => not_present hd₁ hres ht (h.resolve_left (by simp))
        have hw₁ := walk_found_of_extends hplace.2.1 hw
        obtain ⟨hmake, -, hattr, htimes⟩ := hlink hnew i n D hs (hd₁.fill ▸ walk_fill_of_found hw₁)
        refine ⟨hplace.1.trans (hmade.since hmake hattr), fun _ ht L hL => htimes ht L ?_⟩
        have hk : d₃.tree.kindAt =
            Function.update d₁.tree.kindAt (n :: D) (some (.link (link.head? == some '/') (fullSteps link))) := by
          rw [hmade.kindAt]
          rcases hplace.2.2 i n D hs hw₁ with hk | hk <;> rw [hk]
          rw [Function.update_idem]
        rw [fill_update_some, ← hd₁.fill, ← fill_update_some, ← hk]
        exact walk_fill_of_found hL
      · obtain ⟨rfl, rfl⟩ := Prod.mk.inj h
        exact ⟨hplace.1, by simp⟩
  · obtain ⟨rfl, rfl⟩ := Prod.mk.inj h
    exact ⟨hd₁.since, by simp⟩

theorem writeMember_since {copy : ℤ → Body → Copied} {m : Member} {s s' : Progress} {err : Option Error}
    (h : writeMember K copy target overwrite m s = (some s', err))
    (hm : m.content.Leads P s.disk.tree.kindAt overwrite target m.modTime) :
    Since P s.disk s'.disk ∧ (err = none → m.modTime ≠ none → ∀ L, follow s'.disk target = .found L → P .attr L) := by
  rw [writeMember] at h
  split at h <;> rename_i hc <;> rw [hc] at hm <;> obtain ⟨hs, rfl⟩ := Prod.mk.inj h
  · -- a directory
    obtain rfl := Option.some.inj hs
    have hf := Root.mkdirAll_fills K m.perm hm.1
    exact ⟨hf.since, fun _ => hm.2.of_fill hf.fill⟩
  · obtain rfl := Option.some.inj hs
    exact ⟨Since.refl _, by simp⟩
  · -- a link
    obtain rfl := Option.some.inj hs
    exact writeSymlink_since rfl hm
  · obtain rfl := Option.some.inj hs
    exact ⟨Since.refl _, by simp⟩
  · -- a file
    obtain rfl := Option.some.inj hs
    exact writeFile_since rfl hm
  · cases hs

/-- **One member**: it does only what satisfies `P`, if it leads only to that. -/
theorem extractMember_since (K : Kernel) (limits : ExtractLimits) (copy : ℤ → Body → Copied) {m : Member} {s : Progress}
    (h : m.Leads P s.disk.tree.kindAt dest overwrite) :
    Since P s.disk (extractMember K copy dest overwrite limits m s).1.disk := by
  rw [extractMember]
  split
  · exact Since.refl _
  · rename_i name hname
    split
    · exact Since.refl _
    · rename_i hne
      have hm := h name hname hne
      split
      · exact Since.refl _
      · dsimp only
        rcases hw : writeMember K copy (Rootfs.join dest name) overwrite m s with ⟨_ | s', err⟩
        · exact Since.refl _
        · obtain ⟨hs, ht⟩ := writeMember_since hw hm
          cases err with
          | some err => exact hs
          | none => exact hs.trans (setTimes_since (ht rfl))

/-- What writing a member and setting times keep, its turn of the loop keeps. -/
theorem extractMember_invariant {I : Fs → Prop} {copy : ℤ → Body → Copied} {m : Member} {s : Progress} (hs : I s.disk)
    (hwrite : ∀ name, safeName m.name = .ok name → name ≠ [] → ∀ s' err,
      writeMember K copy (Rootfs.join dest name) overwrite m s = (some s', err) → I s'.disk)
    (htimes : ∀ target d, I d → I (setTimes K target m.modTime d)) :
    I (extractMember K copy dest overwrite limits m s).1.disk := by
  rw [extractMember]
  split
  · exact hs
  · rename_i name hname
    split
    · exact hs
    · rename_i hne
      split
      · exact hs
      · dsimp only
        rcases hw : writeMember K copy (Rootfs.join dest name) overwrite m s with ⟨_ | s', err⟩
        · exact hs
        · have hs' := hwrite name hname hne s' err hw
          cases err with
          | some err => exact hs'
          | none => exact htimes _ s'.disk hs'

/-! ### The run -/

/-- The run is a loop up to the first error. -/
theorem extractMembers_eq (copy : ℤ → Body → Copied) (members : List Member) (s : Progress) :
    extractMembers K copy dest overwrite limits members s =
      forEach (extractMember K copy dest overwrite limits) members s := by
  induction members generalizing s with
  | nil => rfl
  | cons m members ih =>
    rw [extractMembers, forEach]
    rcases extractMember K copy dest overwrite limits m s with ⟨s', _ | err⟩
    · exact ih s'
    · rfl

variable (K dest overwrite limits)

/-- Each member that the loop comes to leads only to what satisfies `P`, as the file system is then. -/
def LeadsAlong (P : Act → Loc Name → Prop) : List Member → Progress → Prop
  | [], _ => True
  | m :: ms, s =>
    m.Leads P s.disk.tree.kindAt dest overwrite ∧
      ∀ s', extractMember K copyWithin dest overwrite limits m s = (s', none) → LeadsAlong P ms s'

theorem extractMembers_since {ms : List Member} {s : Progress} (h : LeadsAlong K dest overwrite limits P ms s) :
    Since P s.disk (extractMembers K copyWithin dest overwrite limits ms s).1.disk := by
  induction ms generalizing s with
  | nil => exact Since.refl _
  | cons m ms ih =>
    have hm := extractMember_since K limits copyWithin h.1
    rw [extractMembers]
    rcases hs : extractMember K copyWithin dest overwrite limits m s with ⟨s', _ | err⟩ <;> rw [hs] at hm
    · exact hm.trans (ih (h.2 s' hs))
    · exact hm

/-! ### The call -/

/-- A directory is made that was missing on the way of a path, or one gets a new entry so. -/
def OnTheWay (k : Loc Name → Option (Kind Name)) (p : Text) (a : Act) (L : Loc Name) : Prop :=
  ∃ M, Passes k maxSymlinks (Root.mkdirSteps p) M ∧ k M = none ∧ (a = .make ∧ L = M ∨ a = .attr ∧ L = M.tail)

/-- An extraction as it is meant: it makes the directories that are missing on the way to its
destination, and all else it does is done at or below the place that this leads to. -/
def StaysBelow (C : Codec) (archivePath : Text) (d : Fs) : Prop :=
  let before := (prepare K C archivePath dest d).1
  let after := (extract K C archivePath dest overwrite limits d).1.disk
  Since (OnTheWay d.tree.kindAt dest) d before ∧
    match (prepare K C archivePath dest d).2 with
    | .error _ => after = before
    | .ok _ => ∃ R, follow before dest = .found R ∧ Since (fun _ L => R <:+ L) before after

theorem prepare_since (C : Codec) (archivePath : Text) (d : Fs) :
    Since (OnTheWay d.tree.kindAt dest) d (prepare K C archivePath dest d).1 := by
  rw [prepare]
  split
  · exact Since.refl d
  · have hf := Root.mkdirAll_fills (P := OnTheWay d.tree.kindAt dest) (d := d) (p := dest) K 0o755
      fun M hM hnone => ⟨⟨M, hM, hnone, .inl ⟨rfl, rfl⟩⟩, ⟨M, hM, hnone, .inr ⟨rfl, rfl⟩⟩⟩
    split
    · rename_i d₁ err h
      rw [h] at hf
      exact hf.since
    · rename_i d₁ h
      rw [h] at hf
      exact hf.since

/-- When the loop starts the destination is there. -/
theorem prepare_found {C : Codec} {archivePath : Text} {d : Fs} {a : Archive}
    (h : (prepare K C archivePath dest d).2 = .ok a) :
    ∃ R, follow (prepare K C archivePath dest d).1 dest = .found R := by
  rw [prepare] at h ⊢
  split at h
  · cases h
  · rename_i data kind ho
    split at h
    · cases h
    · rename_i d₁ hd₁
      obtain ⟨R, hR, -⟩ := Root.mkdirAll_found hd₁
      exact ⟨R, by simpa [ho, hd₁] using hR⟩

end OpenshiftConsole.Filesystem.Extract
