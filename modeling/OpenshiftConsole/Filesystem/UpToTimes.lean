import OpenshiftConsole.Filesystem.ExtractBudget
import OpenshiftConsole.Filesystem.Nodes

/-!
# File systems that differ in times

Nothing that the helper does depends on the times that entries have, if the kernel's refusals do not. `Alike`
relates file systems that differ in nothing else; every call takes two such file systems to two such file
systems, or fails on both for the same reason (`SameResult`). Setting times changes nothing up to times, so an
extraction does the same whatever times its members record (`extractMembers_alike`).
-/

namespace OpenshiftConsole.Filesystem

open OpenshiftConsole.Library.Lines (Text)
open OpenshiftConsole.Library.PathWalk OpenshiftConsole.Library.FileTree

/-! ### Alike -/

/-- The entry without its time. -/
def Entry.timeless (e : Entry) : Entry := e.setMtime 0

/-- The trees differ in times at most. -/
def Alike (t t' : FsTree) : Prop := ∀ L, (t.get L).map Entry.timeless = (t'.get L).map Entry.timeless

/-- The kernel's refusals do not depend on times. -/
def IgnoresTimes (K : Kernel) : Prop := ∀ t t', Alike t t' → ∀ c L, K.refuses t c L = K.refuses t' c L

/-- Both fail for the same reason, or the results of both are related. -/
def SameResult {ε α : Type*} (R : α → α → Prop) : Except ε α → Except ε α → Prop
  | .ok a, .ok b => R a b
  | .error err, .error err' => err = err'
  | _, _ => False

variable {K : Kernel} {d d' : Fs} {t t' : FsTree} {e e' : Entry} {L M : Loc Name} {n : Name} {D : Loc Name} {p : Text}

theorem SameResult.cases {ε α : Type*} {R : α → α → Prop} {r r' : Except ε α} (h : SameResult R r r') :
    (∃ err, r = .error err ∧ r' = .error err) ∨ ∃ a b, r = .ok a ∧ r' = .ok b ∧ R a b := by
  cases r with
  | error err =>
    cases r' with
    | error err' => exact .inl ⟨err, rfl, congrArg Except.error (Eq.symm h)⟩
    | ok b => exact h.elim
  | ok a =>
    cases r' with
    | error err' => exact h.elim
    | ok b => exact .inr ⟨a, b, rfl, rfl, h⟩

/-- Two outcomes that come with the same second part, and what relates the first ones. -/
theorem same_outcome {σ ε : Type*} {R : σ → σ → Prop} {x y : σ × ε} (h : R x.1 y.1 ∧ x.2 = y.2) :
    ∃ a b err, x = (a, err) ∧ y = (b, err) ∧ R a b :=
  ⟨x.1, y.1, x.2, rfl, Prod.ext rfl h.2.symm, h.1⟩

theorem Entry.kind_of_timeless (h : e.timeless = e'.timeless) : e.kind = e'.kind := by
  rw [← Entry.kind_setMtime 0 e, ← Entry.kind_setMtime 0 e']
  exact congrArg Entry.kind h

theorem Entry.node_of_timeless (h : e.timeless = e'.timeless) : e.node = e'.node := by
  rw [← Entry.node_setMtime 0 e, ← Entry.node_setMtime 0 e']
  exact congrArg Entry.node h

/-- Writing does the same to entries that differ in times. -/
theorem Entry.timeless_setData (now : Time) (f : Text → Text) (h : e.timeless = e'.timeless) :
    (e.setData now f).timeless = (e'.setData now f).timeless := by
  obtain ⟨node, mode, uid, gid, mtime⟩ := e
  obtain ⟨node', mode', uid', gid', mtime'⟩ := e'
  obtain ⟨rfl, rfl, rfl, rfl⟩ : node = node' ∧ mode = mode' ∧ uid = uid' ∧ gid = gid' := by
    simpa [Entry.timeless, Entry.setMtime] using h
  cases node <;> rfl

theorem Alike.refl (t : FsTree) : Alike t t := fun _ => rfl

theorem Alike.symm (h : Alike t t') : Alike t' t := fun L => (h L).symm

theorem Alike.trans {t'' : FsTree} (h : Alike t t') (h' : Alike t' t'') : Alike t t'' := fun L => (h L).trans (h' L)

/-- The entries at a place: both are there, and differ in their times, or neither is. -/
theorem Alike.get (h : Alike t t') (L : Loc Name) :
    t.get L = none ∧ t'.get L = none ∨ ∃ e e', t.get L = some e ∧ t'.get L = some e' ∧ e.timeless = e'.timeless := by
  have hL := h L
  cases he : t.get L with
  | none =>
    rw [he] at hL
    exact .inl ⟨rfl, Option.map_eq_none_iff.mp hL.symm⟩
  | some e =>
    rw [he] at hL
    obtain ⟨e', he', htime⟩ := Option.map_eq_some_iff.mp hL.symm
    exact .inr ⟨e, e', rfl, he', htime.symm⟩

theorem Alike.isSome (h : Alike t t') (L : Loc Name) : (t.get L).isSome = (t'.get L).isSome := by
  rcases h.get L with ⟨he, he'⟩ | ⟨e, e', he, he', -⟩
  · rw [he, he']
  · rw [he, he']
    rfl

theorem Alike.kindAt (h : Alike t t') : t.kindAt = t'.kindAt := by
  funext L
  rw [Tree.kindAt, Tree.kindAt]
  rcases h.get L with ⟨he, he'⟩ | ⟨e, e', he, he', htime⟩
  · rw [he, he']
  · rw [he, he']
    exact congrArg some (Entry.kind_of_timeless htime)

theorem Alike.children (h : Alike t t') (L : Loc Name) : t.children L = [] ↔ t'.children L = [] := by
  simp only [List.eq_nil_iff_forall_not_mem, Tree.mem_children, h.isSome]

theorem Alike.alter {a a' : Act} {f f' : Entry → Entry} {hf : ∀ e, (f e).kind = e.kind}
    {hf' : ∀ e, (f' e).kind = e.kind} (h : Alike d.tree d'.tree)
    (hff : ∀ e e', e.timeless = e'.timeless → (f e).timeless = (f' e').timeless) :
    Alike (d.alter a M f hf).tree (d'.alter a' M f' hf').tree := by
  intro L
  rw [Disk.alter, Disk.alter, Tree.get_alter, Tree.get_alter]
  by_cases hL : L = M
  · rw [if_pos hL, if_pos hL]
    rcases h.get L with ⟨he, he'⟩ | ⟨e, e', he, he', htime⟩ <;> rw [he, he']
    · rfl
    · exact congrArg some (hff e e' htime)
  · rw [if_neg hL, if_neg hL]
    exact h L

theorem timeless_setMtime (now now' : Time) (h : e.timeless = e'.timeless) :
    (e.setMtime now).timeless = (e'.setMtime now').timeless := h

/-- Setting a time changes nothing else. -/
theorem alike_setMtime {a : Act} {now : Time} :
    Alike (d.alter a M (Entry.setMtime now) (Entry.kind_setMtime now)).tree d.tree := by
  intro L
  rw [Disk.alter, Tree.get_alter]
  split
  · cases d.tree.get L <;> rfl
  · rfl

theorem Alike.insert {a a' : Act} {hD : d.tree.kindAt D = some .dir} {hM : d.tree.get (n :: D) = none}
    {hD' : d'.tree.kindAt D = some .dir} {hM' : d'.tree.get (n :: D) = none} (h : Alike d.tree d'.tree) :
    Alike (d.insert a n D e hD hM).tree (d'.insert a' n D e hD' hM').tree := by
  intro L
  rw [Disk.insert, Disk.insert, Tree.get_insert, Tree.get_insert]
  split
  · rfl
  · exact h L

theorem Alike.erase {a a' : Act} {hn : d.tree.children (n :: D) = []} {hn' : d'.tree.children (n :: D) = []}
    (h : Alike d.tree d'.tree) : Alike (d.erase a n D hn).tree (d'.erase a' n D hn').tree := by
  intro L
  rw [Disk.erase, Disk.erase, Tree.get_erase, Tree.get_erase]
  split
  · rfl
  · exact h L

/-! ### Calls -/

/-- The same entry was found. -/
def SameEntry (r r' : Loc Name × Entry) : Prop := r.1 = r'.1 ∧ r.2.timeless = r'.2.timeless

theorem entryAt_alike (h : Alike d.tree d'.tree) (s : Stop Name) : SameResult SameEntry (entryAt d s) (entryAt d' s) := by
  cases s with
  | found L =>
    rw [entryAt, entryAt]
    rcases h.get L with ⟨he, he'⟩ | ⟨e, e', he, he', htime⟩ <;> rw [he, he']
    · exact rfl
    · exact ⟨rfl, htime⟩
  | missing | link | stuck => exact rfl

theorem Alike.follow (h : Alike d.tree d'.tree) (p : Text) : follow d p = follow d' p := by
  rw [Filesystem.follow, Filesystem.follow, h.kindAt]

theorem Alike.nofollow (h : Alike d.tree d'.tree) (p : Text) : nofollow d p = nofollow d' p := by
  rw [Filesystem.nofollow, Filesystem.nofollow, h.kindAt, h.follow]
  simp only [h.isSome]

theorem create_there (c : Call) (e : Entry) {f : Entry} (hD : d.tree.kindAt D = some .dir)
    (hM : d.tree.get (n :: D) = some f) : create K d c e (n :: D) = .error .exist := by
  unfold create
  dsimp only
  rw [dif_pos hD]
  split
  · rfl
  · rename_i hf
    rw [hM] at hf
    cases hf

theorem create_alike (hK : IgnoresTimes K) (h : Alike d.tree d'.tree) (c : Call) (e : Entry) (M : Loc Name) :
    SameResult (fun d d' => Alike d.tree d'.tree) (create K d c e M) (create K d' c e M) := by
  cases M with
  | nil => exact rfl
  | cons n D =>
    by_cases hD : d.tree.kindAt D = some .dir
    · have hD' : d'.tree.kindAt D = some .dir := h.kindAt ▸ hD
      rcases h.get (n :: D) with ⟨he, he'⟩ | ⟨f, f', he, he', -⟩
      · rw [create_missing c e hD he, create_missing c e hD' he', hK _ _ h]
        split
        · exact rfl
        · exact h.insert.alter fun e e' => timeless_setMtime _ _
      · rw [create_there c e hD he, create_there c e hD' he']
        exact rfl
    · rw [create, create, dif_neg hD, dif_neg (h.kindAt ▸ hD)]
      exact rfl

theorem write_alike (h : Alike d.tree d'.tree) (L : Loc Name) (off : ℕ) (bytes : Text) :
    Alike (write K d L off bytes).tree (write K d' L off bytes).tree := by
  unfold write
  split
  · exact h
  · exact h.alter fun e e' => Entry.timeless_setData _ _

theorem mkdir_alike (hK : IgnoresTimes K) (h : Alike d.tree d'.tree) (p : Text) (perm : ℕ) :
    SameResult (fun d d' => Alike d.tree d'.tree) (mkdir K d p perm) (mkdir K d' p perm) := by
  rw [mkdir, mkdir, h.kindAt]
  split
  · exact rfl
  · split
    · exact rfl
    · exact create_alike hK h _ _ _

theorem symlink_alike (hK : IgnoresTimes K) (h : Alike d.tree d'.tree) (target p : Text) :
    SameResult (fun d d' => Alike d.tree d'.tree) (symlink K d target p) (symlink K d' target p) := by
  rw [symlink, symlink, h.kindAt]
  split
  · exact rfl
  · split
    · exact rfl
    · split
      · exact rfl
      · split
        · exact rfl
        · exact create_alike hK h _ _ _

/-- The same entry was opened. -/
def SameOpened (r r' : Loc Name × Fs) : Prop := r.1 = r'.1 ∧ Alike r.2.tree r'.2.tree

theorem openWrite_alike (hK : IgnoresTimes K) (h : Alike d.tree d'.tree) (p : Text) (perm : ℕ) (truncate : Bool) :
    SameResult SameOpened (openWrite K d p perm truncate) (openWrite K d' p perm truncate) := by
  rw [openWrite, openWrite, h.kindAt]
  split
  · exact rfl
  · split
    · rename_i L hw
      rw [hK _ _ h]
      split
      · exact rfl
      · split
        · exact rfl
        · split
          · exact ⟨rfl, h.alter fun e e' => Entry.timeless_setData _ _⟩
          · exact ⟨rfl, h⟩
    · rename_i L hw
      have hc := create_alike hK h .create (newEntry K (.file []) (K.masked perm)) L
      rcases hc.cases with ⟨err, hd, hd'⟩ | ⟨d₁, d₁', hd, hd', halike⟩
      · rw [hd, hd']
        exact rfl
      · rw [hd, hd']
        exact ⟨rfl, halike⟩
    · exact rfl

theorem remove_alike (hK : IgnoresTimes K) (h : Alike d.tree d'.tree) (p : Text) :
    SameResult (fun d d' => Alike d.tree d'.tree) (remove K d p) (remove K d' p) := by
  rw [remove, remove, h.kindAt]
  split
  · exact rfl
  · split
    · exact rfl
    · exact rfl
    · rename_i n D hM
      rcases h.get (n :: D) with ⟨he, he'⟩ | ⟨e, e', he, he', htime⟩
      · rw [he, he']
        exact rfl
      · rw [he, he']
        dsimp only
        rw [Entry.kind_of_timeless htime]
        split
        · exact rfl
        · by_cases hn : d.tree.children (n :: D) = []
          · have hn' := (h.children _).mp hn
            rw [dif_pos hn, dif_pos hn', hK _ _ h]
            split
            · exact rfl
            · exact h.erase.alter fun e e' => timeless_setMtime _ _
          · rw [dif_neg hn, dif_neg fun hn' => hn ((h.children _).mpr hn')]
            exact rfl

/-! ### The root handle -/

namespace Root

theorem onHost_alike {α : Type} {R : α → α → Prop} {call call' : Text → Except Errno α}
    (h : ∀ host, SameResult R (call host) (call' host)) (p : Text) : SameResult R (onHost p call) (onHost p call') := by
  rw [onHost, onHost]
  split
  · exact rfl
  · exact h _

theorem stat_alike (h : Alike d.tree d'.tree) (p : Text) : SameResult SameEntry (stat d p) (stat d' p) :=
  onHost_alike (fun host => by rw [Filesystem.stat, Filesystem.stat, h.follow]; exact entryAt_alike h _) p

theorem lstat_alike (h : Alike d.tree d'.tree) (p : Text) : SameResult SameEntry (lstat d p) (lstat d' p) := by
  rw [lstat, lstat]
  split
  · exact stat_alike h p
  · exact onHost_alike (fun host => by rw [Filesystem.lstat, Filesystem.lstat, h.nofollow]; exact entryAt_alike h _) p

theorem isOk_lstat_alike (h : Alike d.tree d'.tree) (p : Text) : (lstat d p).isOk = (lstat d' p).isOk := by
  rcases (lstat_alike h p).cases with ⟨err, h₁, h₂⟩ | ⟨r, r', h₁, h₂, -⟩
  · rw [h₁, h₂]
  · rw [h₁, h₂]
    rfl

/-- Both loops make the same directories. -/
theorem mkdirLoop_alike (hK : IgnoresTimes K) (perm : ℕ) (built : Text) (parts : List Text)
    (h : Alike d.tree d'.tree) :
    Alike (mkdirLoop K perm built parts d).1.tree (mkdirLoop K perm built parts d').1.tree ∧
      (mkdirLoop K perm built parts d).2 = (mkdirLoop K perm built parts d').2 := by
  induction parts generalizing built d d' with
  | nil => exact ⟨h, rfl⟩
  | cons part rest ih =>
    rw [mkdirLoop, mkdirLoop]
    generalize (if built.isEmpty = true then part else built ++ '/' :: part) = built
    have hm : SameResult _ (mkdir K d ('/' :: built) perm) (mkdir K d' ('/' :: built) perm) :=
      onHost_alike (fun host => mkdir_alike hK h host perm) _
    rcases hm.cases with ⟨err, h₁, h₂⟩ | ⟨d₁, d₂, h₁, h₂, halike⟩
    · rw [h₁, h₂]
      dsimp only
      rcases (stat_alike h ('/' :: built)).cases with ⟨err', h₃, h₄⟩ | ⟨r, r', h₃, h₄, hsame⟩
      · rw [h₃, h₄]
        exact ⟨h, rfl⟩
      · rw [h₃, h₄]
        dsimp only
        rw [Entry.node_of_timeless hsame.2]
        split
        · exact ih _ h
        · exact ⟨h, rfl⟩
    · rw [h₁, h₂]
      exact ih _ halike

theorem mkdirAll_alike (hK : IgnoresTimes K) (h : Alike d.tree d'.tree) (p : Text) (perm : ℕ) :
    Alike (mkdirAll K d p perm).1.tree (mkdirAll K d' p perm).1.tree ∧
      (mkdirAll K d p perm).2 = (mkdirAll K d' p perm).2 := by
  rw [mkdirAll, mkdirAll]
  split
  · exact ⟨h, rfl⟩
  · split
    · exact ⟨h, rfl⟩
    · exact mkdirLoop_alike hK perm _ _ h

end Root

namespace Extract

variable (copy : ℤ → Body → Copied) (target dest : Text) (overwrite : Bool) (limits : ExtractLimits) {m m' : Member}
  {members members' : List Member} {s s' : Progress}

/-! ### Members -/

theorem makeParent_alike (hK : IgnoresTimes K) (h : Alike d.tree d'.tree) :
    Alike (makeParent K target d).1.tree (makeParent K target d').1.tree ∧
      (makeParent K target d).2 = (makeParent K target d').2 := by
  rw [makeParent, makeParent]
  split
  · exact Root.mkdirAll_alike hK h _ _
  · exact ⟨h, rfl⟩

theorem writeFile_alike (hK : IgnoresTimes K) (h : Alike d.tree d'.tree) (perm : ℕ) (src : Body) (budget : ℤ) :
    Alike (writeFile K copy target perm src overwrite budget d).1.tree
        (writeFile K copy target perm src overwrite budget d').1.tree ∧
      (writeFile K copy target perm src overwrite budget d).2 =
        (writeFile K copy target perm src overwrite budget d').2 := by
  obtain ⟨d₁, d₂, err, h₁, h₂, hd⟩ :=
    same_outcome (R := fun d d' : Fs => Alike d.tree d'.tree) (makeParent_alike target hK h)
  rw [writeFile, writeFile, h₁, h₂]
  cases err with
  | some err => exact ⟨hd, rfl⟩
  | none =>
    dsimp only
    rw [Root.isOk_lstat_alike hd]
    split
    · exact ⟨hd, rfl⟩
    · have ho := Root.onHost_alike (fun host =>
        openWrite_alike hK hd host (if perm = 0 then 0o644 else perm) true) target
      change SameResult SameOpened (Root.openWrite K d₁ target _ true) (Root.openWrite K d₂ target _ true) at ho
      rcases ho.cases with ⟨err, h₃, h₄⟩ | ⟨⟨out, d₃⟩, ⟨out', d₄⟩, h₃, h₄, hout, halike⟩
      · rw [h₃, h₄]
        exact ⟨hd, rfl⟩
      · rw [h₃, h₄]
        obtain rfl : out = out' := hout
        exact ⟨write_alike halike _ _ _, rfl⟩

theorem makeRoom_alike (hK : IgnoresTimes K) (h : Alike d.tree d'.tree) :
    Alike (makeRoom K target overwrite d).1.tree (makeRoom K target overwrite d').1.tree ∧
      (makeRoom K target overwrite d).2 = (makeRoom K target overwrite d').2 := by
  rw [makeRoom, makeRoom, Root.isOk_lstat_alike h]
  split
  · split
    · exact ⟨h, rfl⟩
    · have hr : SameResult _ (Root.remove K d target) (Root.remove K d' target) :=
        Root.onHost_alike (fun host => remove_alike hK h host) target
      rcases hr.cases with ⟨err, h₁, h₂⟩ | ⟨d₁, d₂, h₁, h₂, halike⟩
      · rw [h₁, h₂]
        cases err <;> exact ⟨h, rfl⟩
      · rw [h₁, h₂]
        exact ⟨halike, rfl⟩
  · exact ⟨h, rfl⟩

theorem writeSymlink_alike (hK : IgnoresTimes K) (h : Alike d.tree d'.tree) (link : Text) :
    Alike (writeSymlink K target link overwrite d).1.tree (writeSymlink K target link overwrite d').1.tree ∧
      (writeSymlink K target link overwrite d).2 = (writeSymlink K target link overwrite d').2 := by
  obtain ⟨d₁, d₂, err, h₁, h₂, hd⟩ :=
    same_outcome (R := fun d d' : Fs => Alike d.tree d'.tree) (makeParent_alike target hK h)
  rw [writeSymlink, writeSymlink, h₁, h₂]
  cases err with
  | some err => exact ⟨hd, rfl⟩
  | none =>
    dsimp only
    obtain ⟨d₃, d₄, err, h₃, h₄, hroom⟩ :=
      same_outcome (R := fun d d' : Fs => Alike d.tree d'.tree) (makeRoom_alike target overwrite hK hd)
    rw [h₃, h₄]
    cases err with
    | some err => exact ⟨hroom, rfl⟩
    | none =>
      dsimp only
      have hs : SameResult _ (Root.symlink K d₃ link target) (Root.symlink K d₄ link target) :=
        Root.onHost_alike (fun host => symlink_alike hK hroom link host) target
      rcases hs.cases with ⟨err, h₅, h₆⟩ | ⟨d₅, d₆, h₅, h₆, halike⟩
      · rw [h₅, h₆]
        exact ⟨hroom, rfl⟩
      · rw [h₅, h₆]
        exact ⟨halike, rfl⟩

/-- Setting times changes nothing up to times, be it done or not. -/
theorem setTimes_alike (modTime : Option Time) (d : Fs) :
    Alike (setTimes K target modTime d).tree d.tree := by
  unfold setTimes
  split
  · exact .refl _
  · split
    · obtain ⟨L, rfl⟩ := Root.chtimes_eq ‹_›
      exact alike_setMtime
    · exact .refl _

/-- The members are the same but for the times that they record. -/
structure SameMember (m m' : Member) : Prop where
  name : m'.name = m.name
  content : m'.content = m.content
  perm : m'.perm = m.perm

/-- The loops are at the same point, and their file systems are alike. -/
structure SameProgress (s s' : Progress) : Prop where
  disk : Alike s.disk.tree s'.disk.tree
  budget : s'.budget = s.budget
  written : s'.written = s.written
  copies : s'.copies = s.copies

/-- The same was written for a member, and failed in the same way. -/
def SameWritten : Option Progress × Option Error → Option Progress × Option Error → Prop
  | (some s, err), (some s', err') => SameProgress s s' ∧ err' = err
  | (none, err), (none, err') => err' = err
  | _, _ => False

theorem writeMember_alike (hK : IgnoresTimes K) (hm : SameMember m m') (hs : SameProgress s s') :
    SameWritten (writeMember K copy target overwrite m s) (writeMember K copy target overwrite m' s') := by
  rw [writeMember, writeMember, hm.content, hm.perm]
  split
  · obtain ⟨hd, herr⟩ := Root.mkdirAll_alike hK hs.disk target m.perm
    exact ⟨⟨hd, hs.budget, hs.written, hs.copies⟩, congrArg _ herr.symm⟩
  · exact ⟨hs, rfl⟩
  · rename_i link hc
    obtain ⟨hd, herr⟩ := writeSymlink_alike target overwrite hK hs.disk link
    exact ⟨⟨hd, hs.budget, hs.written, hs.copies⟩, herr.symm⟩
  · exact ⟨hs, rfl⟩
  · rename_i body hc
    obtain ⟨hd, hcopied⟩ := writeFile_alike copy target overwrite hK hs.disk m.perm body s.budget
    rw [hs.budget, hs.copies]
    exact ⟨⟨hd, congrArg Copied.budget hcopied.symm, hs.written,
      congrArg (fun c => s.copies ++ [c.n]) hcopied.symm⟩, congrArg Copied.err hcopied.symm⟩
  · exact rfl

/-- One turn of the loop. -/
theorem extractMember_alike (hK : IgnoresTimes K) (hm : SameMember m m') (hs : SameProgress s s') :
    SameProgress (extractMember K copy dest overwrite limits m s).1
        (extractMember K copy dest overwrite limits m' s').1 ∧
      (extractMember K copy dest overwrite limits m s).2 = (extractMember K copy dest overwrite limits m' s').2 := by
  rw [extractMember, extractMember, hm.name, hs.written]
  split
  · exact ⟨hs, rfl⟩
  · rename_i name hname
    split
    · exact ⟨hs, rfl⟩
    · split
      · exact ⟨hs, rfl⟩
      · dsimp only
        have hw := writeMember_alike copy (Rootfs.join dest name) overwrite hK hm hs
        rcases h₁ : writeMember K copy (Rootfs.join dest name) overwrite m s with ⟨_ | s₁, e₁⟩ <;>
          rcases h₂ : writeMember K copy (Rootfs.join dest name) overwrite m' s' with ⟨_ | s₂, e₂⟩ <;> rw [h₁, h₂] at hw
        · exact ⟨hs, rfl⟩
        · exact hw.elim
        · exact hw.elim
        · obtain ⟨hs₁, rfl⟩ := hw
          cases e₂ with
          | some err => exact ⟨hs₁, rfl⟩
          | none =>
            refine ⟨⟨?_, hs₁.budget, congrArg (· + 1) hs₁.written, hs₁.copies⟩, rfl⟩
            exact ((setTimes_alike _ _ _).trans hs₁.disk).trans (setTimes_alike _ _ _).symm

/-- **An extraction does not depend on times**: neither on those that the file system has nor on those that the
members record. -/
theorem extractMembers_alike (hK : IgnoresTimes K) (hm : List.Forall₂ SameMember members members')
    (hs : SameProgress s s') :
    SameProgress (extractMembers K copy dest overwrite limits members s).1
        (extractMembers K copy dest overwrite limits members' s').1 ∧
      (extractMembers K copy dest overwrite limits members s).2 =
        (extractMembers K copy dest overwrite limits members' s').2 := by
  induction hm generalizing s s' with
  | nil => exact ⟨hs, rfl⟩
  | @cons m m' members members' hmm _ ih =>
    obtain ⟨s₁, s₂, err, h₁, h₂, hs₁⟩ := same_outcome (extractMember_alike copy dest overwrite limits hK hmm hs)
    cases err with
    | some err =>
      rw [extractMembers_cons_some h₁, extractMembers_cons_some h₂]
      exact ⟨hs₁, rfl⟩
    | none =>
      rw [extractMembers_cons_none h₁, extractMembers_cons_none h₂]
      exact ih hs₁

end Extract

end OpenshiftConsole.Filesystem
