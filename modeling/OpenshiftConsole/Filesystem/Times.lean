import OpenshiftConsole.Filesystem.ExtractBelow
import OpenshiftConsole.Filesystem.Growth
import OpenshiftConsole.Filesystem.Restored

/-!
# The times of what is extracted

`Extract` sets the time that a member records right after the member is written. What comes later can
change it again: an entry that is made in a directory sets the directory's time to the current one, and no
time is set a second time. So a directory keeps its recorded time only if all that comes to be in it is there
before its own member has been written.

One turn of the loop writes an entry and sets its time (`extractMember_turn`); what a run does to the time of an
entry that is there depends on what the members bring into it (`extractMembers_mtime`).
-/

namespace OpenshiftConsole.Filesystem.Extract

open OpenshiftConsole.Library.Lines (Text)
open OpenshiftConsole.Library.PathWalk OpenshiftConsole.Library.FileTree

variable {K : Kernel} {now : Time} {d d' : Fs} {p archivePath dest : Text} {overwrite : Bool} {limits : ExtractLimits}
  {m : Member} {members : List Member} {s s' : Progress} {x y L R : Loc Name} {t : Time}

/-! ### What a member brings -/

/-- The member is a directory or a file, and its entry is at `y` below the destination. -/
def Member.At (m : Member) (y : Loc Name) : Prop :=
  y ≠ [] ∧ safeName m.name = .ok (spell y.reverse) ∧
    (m.content = .dir ∨ ∃ openErr body, m.content = .regular openErr body)

/-- The path that the loop has for a place below the destination. -/
def targetOf (dest : Text) (y : Loc Name) : Text := Rootfs.join dest (spell y.reverse)

/-- The place is one that the member's path passes or, for a file, the path of its directory, which is cleaned
as a text: if there is no entry there, one is made. -/
def Member.Brings (k : Loc Name → Option (Kind Name)) (dest : Text) (m : Member) (L : Loc Name) : Prop :=
  ∃ y, m.At y ∧ (Passes k maxSymlinks (Root.mkdirSteps (targetOf dest y)) L ∨
    m.content ≠ .dir ∧ Passes k maxSymlinks (Root.mkdirSteps (pathDir (targetOf dest y))) L)

theorem spell_injective {ns ms : List Name} (h : spell ns = spell ms) : ns = ms := by
  have hsteps := congrArg Filesystem.steps h
  rw [steps_spell, steps_spell] at hsteps
  exact List.map_injective_iff.mpr (fun _ _ => Step.down.inj) hsteps

theorem Member.At.eq (hx : m.At x) (hy : m.At y) : x = y := by
  obtain ⟨-, hx, -⟩ := hx
  obtain ⟨-, hy, -⟩ := hy
  exact List.reverse_injective (spell_injective (Except.ok.inj (hx.symm.trans hy)))

/-- A directory brings what its path passes. -/
theorem brings_dir {k : Loc Name → Option (Kind Name)} (hm : m.At y) (hc : m.content = .dir) :
    Passes k maxSymlinks (Root.mkdirSteps (targetOf dest y)) L ↔ m.Brings k dest L := by
  constructor
  · exact fun hL => ⟨y, hm, .inl hL⟩
  · rintro ⟨z, hz, hL | ⟨hfile, -⟩⟩
    · exact hz.eq hm ▸ hL
    · exact absurd hc hfile

/-- A file brings what its path and that of its directory pass. -/
theorem brings_file {k : Loc Name → Option (Kind Name)} (hm : m.At y) (hc : m.content ≠ .dir) :
    Passes k maxSymlinks (Root.mkdirSteps (targetOf dest y)) L ∨
      Passes k maxSymlinks (Root.mkdirSteps (pathDir (targetOf dest y))) L ↔ m.Brings k dest L := by
  constructor
  · exact fun hL => ⟨y, hm, hL.imp_right fun hL => ⟨hc, hL⟩⟩
  · rintro ⟨z, hz, hL⟩
    rw [← hz.eq hm]
    exact hL.imp_right And.right

/-- A name that is extracted is that of a place. -/
theorem exists_place {name : Text} (h : safeName p = .ok name) (hne : name ≠ []) :
    ∃ y, y ≠ [] ∧ name = spell y.reverse := by
  obtain ⟨ns, hns, rfl, -⟩ := safeName_ok h hne
  exact ⟨ns.reverse, by simpa using hns, by rw [List.reverse_reverse]⟩

theorem steps_targetOf (dest : Text) (y : Loc Name) :
    steps (targetOf dest y) = steps dest ++ y.reverse.map .down := by
  rw [targetOf, Rootfs.steps_join, steps_spell]

theorem filter_down (ns : List Name) : (ns.map Step.down).filter (· ≠ .here) = ns.map .down :=
  List.filter_eq_self.mpr fun c hc => by
    obtain ⟨n, -, rfl⟩ := List.mem_map.mp hc
    simp

theorem mkdirSteps_targetOf (dest : Text) (y : Loc Name) :
    Root.mkdirSteps (targetOf dest y) = Root.mkdirSteps dest ++ y.reverse.map .down := by
  rw [Root.mkdirSteps, steps_targetOf, List.filter_append, filter_down, Root.mkdirSteps]

theorem Member.At.nul (h : m.At y) : ∀ n ∈ y.reverse, '\x00' ∉ n.text := by
  obtain ⟨hy, hname, -⟩ := h
  obtain ⟨ns, -, hns, hnul, -⟩ := safeName_ok hname (spell_ne_nil (by simpa using hy))
  rw [spell_injective hns]
  exact hnul

/-- Where no dots are, the directory of a member's path is its path without the last name. -/
theorem mkdirSteps_pathDir {n : Name} {ms : List Name} (h : m.At (n :: y)) (hdest : Spells dest ms) :
    Root.mkdirSteps (pathDir (targetOf dest (n :: y))) = ms.map .down ++ y.reverse.map .down := by
  have hspells := hdest.join (spells_spell h.nul)
  have hslash : trailingSlash (targetOf dest (n :: y)) = false := by
    rw [targetOf, trailingSlash_join (spell_ne_nil (by simp)), List.reverse_cons, trailingSlash_spell]
  rw [List.reverse_cons, ← List.append_assoc] at hspells
  rw [targetOf, List.reverse_cons] at hslash ⊢
  rw [hspells.pathDir hslash (head?_join _ _), Root.mkdirSteps, steps_slash, steps_spell, filter_down, List.map_append]

theorem fullSteps_targetOf (dest : Text) (hy : y ≠ []) : fullSteps (targetOf dest y) = steps (targetOf dest y) := by
  obtain ⟨n, z, rfl⟩ := List.exists_cons_of_ne_nil hy
  refine if_neg ?_
  rw [targetOf, trailingSlash_join (spell_ne_nil (by simp)), List.reverse_cons, trailingSlash_spell]
  exact Bool.false_ne_true

/-! ### The destination -/

/-- The destination is an empty directory. -/
structure Empty (d : Fs) (dest : Text) (R : Loc Name) : Prop where
  leads : walk d.tree.kindAt maxSymlinks [] (Root.mkdirSteps dest) = .found R
  dir : d.tree.kindAt R = some .dir
  empty : ∀ n, d.tree.kindAt (n :: R) = none

theorem Empty.below (h : Empty d dest R) (hy : y ≠ []) : d.tree.kindAt (y ++ R) = none := by
  obtain ⟨z, n, rfl⟩ := (List.eq_nil_or_concat y).resolve_left hy
  rw [List.concat_eq_append, List.append_assoc]
  rw [Tree.kindAt_eq_none]
  exact d.tree.none_below ((Tree.kindAt_eq_none _).mp (h.empty n)) (List.suffix_append z _)

/-- Where nothing is missing, a member's path leads to its place. -/
theorem Empty.walk_targetOf (h : Empty d dest R) (y : Loc Name) :
    walk (fill d.tree.kindAt) maxSymlinks [] (steps (targetOf dest y)) = .found (y ++ R) := by
  have hsteps := walk_skips (Skips.filter (steps dest)) h.leads h.dir
  have hdown := advance_fill_down (fun r hr => h.below hr) y.reverse
  rw [List.reverse_reverse] at hdown
  rw [steps_targetOf]
  exact walk_append (walk_fill_of_found hsteps) (extends_fill _ _ _ h.dir) hdown (by simp)

/-- A path that leads to an entry, once some have been made, leads to the place of its name. -/
theorem Empty.place (h : Empty d dest R) (hg : Grown d.tree.kindAt d'.tree.kindAt)
    (hw : walk d'.tree.kindAt maxSymlinks [] (steps (targetOf dest y)) = .found L) : L = y ++ R :=
  Stop.found.inj ((hg.walk_fill hw).symm.trans (h.walk_targetOf y))

/-- Steps that lead to the destination lead to an entry below it with the names of that. -/
theorem Empty.walk_below (h : Empty d dest R) (hg : Grown d.tree.kindAt d'.tree.kindAt) (hy : y ≠ [])
    (hthere : d'.tree.kindAt (y ++ R) ≠ none) {i : List (Step Name)}
    (hi : walk d.tree.kindAt maxSymlinks [] i = .found R) :
    walk d'.tree.kindAt maxSymlinks [] (i ++ y.reverse.map .down) = .found (y ++ R) := by
  obtain ⟨n, z, rfl⟩ := List.exists_cons_of_ne_nil hy
  have hR : Leads d' i R := ⟨walk_found_of_extends hg.kept hi, kindAt_dir_iff.mp (hg.kept _ _ h.dir)⟩
  have hs : (d'.tree.get (n :: (z ++ R))).isSome := by
    rw [← Tree.kindAt_isSome]
    exact Option.isSome_iff_ne_none.mpr hthere
  have hz := leads_below hR (kindAt_dir_iff.mp (d'.tree.parent_dir hs))
  rw [List.reverse_cons, List.map_append, ← List.append_assoc]
  refine walk_down_found hz.walk (kindAt_dir_iff.mpr hz.dir) ?_
  obtain ⟨κ, hκ⟩ := Option.ne_none_iff_exists'.mp hthere
  cases κ with
  | dir => exact .inl hκ
  | leaf => exact .inr hκ
  | link r p => exact absurd hκ (hg.plain _ r p (h.below hy))

/-- The steps that `MkdirAll` takes lead to an entry that there is. -/
theorem Empty.walk_mkdirSteps (h : Empty d dest R) (hg : Grown d.tree.kindAt d'.tree.kindAt) (hy : y ≠ [])
    (hthere : d'.tree.kindAt (y ++ R) ≠ none) :
    walk d'.tree.kindAt maxSymlinks [] (Root.mkdirSteps (targetOf dest y)) = .found (y ++ R) := by
  rw [mkdirSteps_targetOf]
  exact h.walk_below hg hy hthere h.leads

/-- So do the steps of the path. -/
theorem Empty.walk_steps (h : Empty d dest R) (hg : Grown d.tree.kindAt d'.tree.kindAt) (hy : y ≠ [])
    (hthere : d'.tree.kindAt (y ++ R) ≠ none) :
    walk d'.tree.kindAt maxSymlinks [] (steps (targetOf dest y)) = .found (y ++ R) := by
  rw [steps_targetOf]
  exact h.walk_below hg hy hthere (walk_skips (Skips.filter (steps dest)) h.leads h.dir)

/-- With a destination that is spelled without dots, a member brings its place and what is above that. -/
theorem brings_iff {ms : List Name} (h : Empty d dest R) (hdest : Spells dest ms) :
    m.Brings d.tree.kindAt dest (x ++ R) ↔ ∃ y, m.At y ∧ x <:+ y := by
  have hms : Root.mkdirSteps dest = ms.map .down := by rw [Root.mkdirSteps, hdest.steps, filter_down]
  have hdown : ∀ z : Loc Name,
      walk (fill d.tree.kindAt) maxSymlinks [] (Root.mkdirSteps dest ++ z.reverse.map .down) = .found (z ++ R) := by
    intro z
    have hz := advance_fill_down (fun r hr => h.below hr) z.reverse
    rw [List.reverse_reverse] at hz
    exact walk_append (walk_fill_of_found h.leads) (extends_fill _ _ _ h.dir) hz (by simp)
  have hpasses : ∀ y : Loc Name,
      Passes d.tree.kindAt maxSymlinks (Root.mkdirSteps dest ++ y.reverse.map .down) (x ++ R) ↔ x <:+ y := by
    intro y
    constructor
    · rintro ⟨q, hq, hw⟩
      rcases List.prefix_or_prefix_of_prefix hq (List.prefix_append _ _) with hq' | ⟨r, rfl⟩
      · -- on the way to the destination
        by_cases hx : x = []
        · rw [hx]
          exact List.nil_suffix
        · exact absurd (h.below hx) (Root.there_of_passes (.refl d.tree.kindAt) h.leads ⟨q, hq', hw⟩)
      · obtain ⟨l, hl, rfl⟩ := List.prefix_map_iff.mp ((List.prefix_append_right_inj _).mp hq)
        have hwl := hdown l.reverse
        rw [List.reverse_reverse] at hwl
        rw [List.append_cancel_right (Stop.found.inj (hw.symm.trans hwl)), ← List.reverse_prefix, List.reverse_reverse]
        exact hl
    · rintro ⟨r, rfl⟩
      refine ⟨_, ?_, hdown x⟩
      rw [List.reverse_append, List.map_append, ← List.append_assoc]
      exact List.prefix_append _ _
  constructor
  · rintro ⟨y, hm, hL | ⟨-, hL⟩⟩
    · rw [mkdirSteps_targetOf] at hL
      exact ⟨y, hm, (hpasses y).mp hL⟩
    · obtain ⟨n, z, rfl⟩ := List.exists_cons_of_ne_nil hm.1
      rw [mkdirSteps_pathDir hm hdest, ← hms] at hL
      exact ⟨n :: z, hm, ((hpasses z).mp hL).trans (List.suffix_cons n z)⟩
  · rintro ⟨y, hm, hx⟩
    refine ⟨y, hm, .inl ?_⟩
    rw [mkdirSteps_targetOf]
    exact (hpasses y).mpr hx

/-! ### One member -/

/-- The entry at `y` below the destination was written, and what was made with it satisfies `made`. -/
structure Written (now : Time) (dest : Text) (R y : Loc Name) (made : Loc Name → Prop) (d d' : Fs) : Prop where
  grows : Grows now (· = y ++ R) d d'
  resolves : (Rootfs.resolve (targetOf dest y)).isSome
  follow : follow d' (targetOf dest y) = .found (y ++ R)
  there : ∀ L, d'.tree.kindAt L ≠ none ↔ d.tree.kindAt L ≠ none ∨ made L

theorem Written.entry {made : Loc Name → Prop} (h : Written now dest R y made d d') :
    d'.tree.kindAt (y ++ R) ≠ none := by
  rw [← Option.isSome_iff_ne_none, Tree.kindAt_isSome]
  exact d'.tree.walk_found d'.tree.root_dir h.follow

variable {base : Fs}

theorem mkdirAll_written {perm : ℕ} (hb : Empty base dest R) (hg : Grown base.tree.kindAt d.tree.kindAt) (hy : y ≠ [])
    (h : Root.mkdirAll K d (targetOf dest y) perm = (d', none)) :
    Written K.now dest R y (Passes base.tree.kindAt maxSymlinks (Root.mkdirSteps (targetOf dest y))) d d' := by
  have hgrows : Grows K.now (· = y ++ R) d (Root.mkdirAll K d (targetOf dest y) perm).1 := Root.mkdirAll_grows _ _ d
  rw [h] at hgrows
  refine ⟨hgrows, ?_, ?_, fun L => Root.mkdirAll_there hg h⟩
  · cases hc : Rootfs.cleanPath (targetOf dest y) with
    | none =>
      rw [Root.mkdirAll, hc] at h
      cases (Prod.mk.inj h).2
    | some cleaned =>
      rw [Rootfs.resolve, hc]
      rfl
  · obtain ⟨L, hL, -⟩ := Root.mkdirAll_found h
    rw [follow, fullSteps_targetOf dest hy] at hL ⊢
    rw [← hb.place (hg.trans hgrows.grown) hL]
    exact hL

theorem writeFile_written {copy : ℤ → Body → Copied} {perm : ℕ} {src : Body} {budget : ℤ} {c : Copied}
    (hb : Empty base dest R) (hg : Grown base.tree.kindAt d.tree.kindAt) (hy : y ≠ [])
    (h : writeFile K copy (targetOf dest y) perm src overwrite budget d = (d', c)) (herr : c.err = none) :
    Written K.now dest R y (fun L => Passes base.tree.kindAt maxSymlinks (Root.mkdirSteps (targetOf dest y)) L ∨
      Passes base.tree.kindAt maxSymlinks (Root.mkdirSteps (pathDir (targetOf dest y))) L) d d' := by
  have hhead : (pathDir (targetOf dest y)).head? = some '/' := head?_pathDir (head?_join _ _)
  have hdir : pathDir (targetOf dest y) ≠ [] ∧ pathDir (targetOf dest y) ≠ ['.'] := by
    constructor <;> intro he <;> rw [he] at hhead <;> cases hhead
  rw [writeFile, makeParent] at h
  dsimp only at h
  rw [if_pos hdir] at h
  rcases hp : Root.mkdirAll K d (pathDir (targetOf dest y)) 0o755 with ⟨d₁, _ | err⟩ <;> rw [hp] at h
  · dsimp only at h
    split at h
    · obtain ⟨-, rfl⟩ := Prod.mk.inj h
      cases herr
    · split at h
      · obtain ⟨-, rfl⟩ := Prod.mk.inj h
        cases herr
      · rename_i out d₂ ho
        obtain ⟨rfl, -⟩ := Prod.mk.inj h
        have hg₁ : Grows K.now (· = y ++ R) d (Root.mkdirAll K d (pathDir (targetOf dest y)) 0o755).1 :=
          Root.mkdirAll_grows _ _ d
        rw [hp] at hg₁
        obtain ⟨hg₂, hw, hthere⟩ := Root.openWrite_grows ho
        have hgrown := (hg.trans hg₁.grown).trans hg₂.grown
        obtain rfl := hb.place hgrown hw
        have hwr := write_alters (K := K) (d := d₂) (L := y ++ R) 0 (src.data.take (copy budget src).n)
        have hentry : d₂.tree.kindAt (y ++ R) ≠ none := (hthere _).mpr (.inr rfl)
        have hpath := hb.walk_mkdirSteps hgrown hy hentry
        have hg₃ : Grows K.now (· = y ++ R) d₂ (write K d₂ (y ++ R) 0 (src.data.take (copy budget src).n)) :=
          write_grows (by rfl) _ _
        obtain ⟨host, hr, -⟩ := Root.onHost_ok ho
        refine ⟨(hg₁.trans hg₂).trans hg₃, by rw [hr]; rfl, ?_, fun L => ?_⟩
        · rw [follow, fullSteps_targetOf dest hy, hwr.kindAt, hw]
        · rw [hwr.kindAt, hthere, Root.mkdirAll_there hg hp]
          constructor
          · rintro ((hL | hL) | rfl)
            · exact .inl hL
            · exact .inr (.inr hL)
            · exact .inr (.inl ⟨_, List.prefix_refl _, hgrown.walk_fill hpath⟩)
          · rintro (hL | hL | hL)
            · exact .inl (.inl hL)
            · have hL₂ := Root.there_of_passes hgrown hpath hL
              rw [hthere, Root.mkdirAll_there hg hp] at hL₂
              exact hL₂
            · exact .inl (.inr hL)
  · obtain ⟨-, rfl⟩ := Prod.mk.inj h
    cases herr

/-- The kernel sets the times that it is asked to set. -/
def SetsTimes (K : Kernel) : Prop := ∀ t L, K.refuses t .utimes L = false

theorem setTimes_some (hK : SetsTimes K) (hr : (Rootfs.resolve p).isSome) (hf : follow d p = .found L) (t : Time) :
    setTimes K p (some t) d = d.alter .attr L (Entry.setMtime t) (Entry.kind_setMtime t) := by
  obtain ⟨host, hhost⟩ := Option.isSome_iff_exists.mp hr
  have hw : follow d host = .found L := (Rootfs.walk_resolve hhost _ _).trans hf
  rw [setTimes, Root.chtimes, Root.onHost, hhost]
  dsimp only
  rw [utimes, hw, setAttr, hK, if_neg Bool.false_ne_true]

theorem kindAt_setTimes (modTime : Option Time) : (setTimes K p modTime d).tree.kindAt = d.tree.kindAt :=
  funext fun _ => kindAt_congr (congrFun nodeAt_setTimes _)

/-- One turn of the loop, for a member whose entry is at `y` below the destination. -/
structure Turn (now : Time) (k : Loc Name → Option (Kind Name)) (dest : Text) (R : Loc Name) (m : Member) (y : Loc Name)
    (d d' : Fs) : Prop where
  place : m.At y
  resolves : (Rootfs.resolve (targetOf dest y)).isSome
  grown : Grown d.tree.kindAt d'.tree.kindAt
  there : ∀ L, d'.tree.kindAt L ≠ none ↔ d.tree.kindAt L ≠ none ∨ m.Brings k dest L
  entry : d'.tree.kindAt (y ++ R) ≠ none
  time : ∀ t, m.modTime = some t → mtimeAt d' (y ++ R) = some t
  fresh : ∀ L, L ≠ y ++ R → Gains d d' L → mtimeAt d' L = some now
  quiet : ∀ L, L ≠ y ++ R → d.tree.kindAt L ≠ none → ¬ Gains d d' L → mtimeAt d' L = mtimeAt d L

/-- The time is set last, and where there is an entry nothing else is changed by that. -/
theorem Written.turn {k : Loc Name → Option (Kind Name)} {made : Loc Name → Prop} (hK : SetsTimes K) (hm : m.At y)
    (h : Written K.now dest R y made d d') (hmade : ∀ L, made L ↔ m.Brings k dest L) :
    Turn K.now k dest R m y d (setTimes K (targetOf dest y) m.modTime d') := by
  have hkind := kindAt_setTimes (K := K) (p := targetOf dest y) (d := d') m.modTime
  have hgains : ∀ L, Gains d (setTimes K (targetOf dest y) m.modTime d') L ↔ Gains d d' L := by
    intro L
    unfold Gains
    rw [hkind]
  have hrest : ∀ L, L ≠ y ++ R → mtimeAt (setTimes K (targetOf dest y) m.modTime d') L = mtimeAt d' L := by
    intro L hL
    cases m.modTime with
    | none => rfl
    | some t => rw [setTimes_some hK h.resolves h.follow, mtimeAt, Disk.alter, Tree.get_alter, if_neg hL, mtimeAt]
  refine ⟨hm, h.resolves, by rw [hkind]; exact h.grows.grown, fun L => ?_, by rw [hkind]; exact h.entry, ?_, ?_, ?_⟩
  · rw [hkind, h.there, hmade]
  · intro t ht
    have hs : (d'.tree.get (y ++ R)).isSome := by
      rw [← Tree.kindAt_isSome]
      exact Option.isSome_iff_ne_none.mpr h.entry
    obtain ⟨e, he⟩ := Option.isSome_iff_exists.mp hs
    rw [ht, setTimes_some hK h.resolves h.follow, mtimeAt, Disk.alter, Tree.get_alter, if_pos rfl, he]
    rfl
  · intro L hL hgain
    rw [hrest L hL]
    exact h.grows.fresh L ((hgains L).mp hgain)
  · intro L hL hthere hquiet
    rw [hrest L hL]
    exact h.grows.quiet L hthere hL fun hgain => hquiet ((hgains L).mpr hgain)

/-- **One turn of the loop**: the member is skipped, or its entry is written and its time is set. -/
theorem extractMember_turn (hK : SetsTimes K) (hb : Empty base dest R) (hg : Grown base.tree.kindAt s.disk.tree.kindAt)
    (hlink : ∀ link, m.content ≠ .symlink link)
    (h : extractMember K copyWithin dest overwrite limits m s = (s', none)) :
    (∀ y, ¬ m.At y) ∧ s'.disk = s.disk ∨ ∃ y, Turn K.now base.tree.kindAt dest R m y s.disk s'.disk := by
  rw [extractMember] at h
  cases hname : safeName m.name with
  | error err =>
    rw [hname] at h
    cases (Prod.mk.inj h).2
  | ok name =>
    rw [hname] at h
    dsimp only at h
    split at h
    · -- the destination itself
      rename_i hnil
      refine .inl ⟨fun y hy => ?_, by rw [(Prod.mk.inj h).1]⟩
      have hspell := Except.ok.inj (hname.symm.trans hy.2.1)
      exact spell_ne_nil (by simpa using hy.1) (hspell.symm.trans hnil)
    · rename_i hne
      obtain ⟨y, hy, rfl⟩ := exists_place hname hne
      split at h
      · cases (Prod.mk.inj h).2
      · rw [writeMember] at h
        cases hc : m.content with
        | symlink link => exact absurd hc (hlink link)
        | other =>
          rw [hc] at h
          refine .inl ⟨fun z hz => ?_, by rw [(Prod.mk.inj h).1]⟩
          rcases hz.2.2 with hz | ⟨openErr, body, hz⟩ <;> rw [hc] at hz <;> cases hz
        | dir =>
          right
          have hm : m.At y := ⟨hy, hname, .inl hc⟩
          rw [hc] at h
          dsimp only at h
          rcases hd : Root.mkdirAll K s.disk (Rootfs.join dest (spell y.reverse)) m.perm with ⟨d₁, _ | err⟩ <;>
            rw [hd] at h
          · obtain ⟨rfl, -⟩ := Prod.mk.inj h
            exact ⟨y, (mkdirAll_written hb hg hy hd).turn hK hm fun L => brings_dir hm hc⟩
          · cases (Prod.mk.inj h).2
        | regular openErr body =>
          rw [hc] at h
          cases openErr with
          | some err => cases (Prod.mk.inj h).2
          | none =>
            right
            have hm : m.At y := ⟨hy, hname, .inr ⟨none, body, hc⟩⟩
            dsimp only at h
            rcases hd : writeFile K copyWithin (Rootfs.join dest (spell y.reverse)) m.perm body overwrite s.budget
              s.disk with ⟨d₁, c⟩
            rw [hd] at h
            cases herr : c.err with
            | some err =>
              dsimp only at h
              rw [herr] at h
              cases (Prod.mk.inj h).2
            | none =>
              dsimp only at h
              rw [herr] at h
              obtain ⟨rfl, -⟩ := Prod.mk.inj h
              exact ⟨y, (writeFile_written hb hg hy hd herr).turn hK hm fun L => brings_file hm (by rw [hc]; simp)⟩

/-! ### A run -/

/-- One of the members brings an entry into the directory that is not there yet. -/
def Freshens (k : Loc Name → Option (Kind Name)) (dest : Text) (d : Fs) (members : List Member) (L : Loc Name) : Prop :=
  ∃ n, d.tree.kindAt (n :: L) = none ∧ ∃ m ∈ members, m.Brings k dest (n :: L)

/-- After a run there is what was there, and what the members bring. -/
theorem extractMembers_there (hK : SetsTimes K) (hb : Empty base dest R)
    (hg : Grown base.tree.kindAt s.disk.tree.kindAt) (hlink : ∀ m ∈ members, ∀ link, m.content ≠ .symlink link)
    (h : extractMembers K copyWithin dest overwrite limits members s = (s', none)) :
    Grown base.tree.kindAt s'.disk.tree.kindAt ∧ ∀ L, s'.disk.tree.kindAt L ≠ none ↔
      s.disk.tree.kindAt L ≠ none ∨ ∃ m ∈ members, m.Brings base.tree.kindAt dest L := by
  induction members generalizing s with
  | nil =>
    obtain ⟨rfl, -⟩ := Prod.mk.inj h
    exact ⟨hg, fun L => by simp⟩
  | cons m members ih =>
    rcases hm : extractMember K copyWithin dest overwrite limits m s with ⟨s₁, _ | err⟩
    · rw [extractMembers_cons_none hm] at h
      have hrest := fun m' hm' => hlink m' (List.mem_cons_of_mem m hm')
      rcases extractMember_turn hK hb hg (hlink m List.mem_cons_self) hm with ⟨hnone, hd⟩ | ⟨y, hturn⟩
      · obtain ⟨hgrown, hthere⟩ := ih (hd ▸ hg) hrest h
        have hskip : ∀ L, ¬ m.Brings base.tree.kindAt dest L := fun L ⟨y, hy, _⟩ => hnone y hy
        refine ⟨hgrown, fun L => ?_⟩
        rw [hthere, hd, List.exists_mem_cons_iff, or_iff_right (hskip L)]
      · obtain ⟨hgrown, hthere⟩ := ih (hg.trans hturn.grown) hrest h
        refine ⟨hgrown, fun L => ?_⟩
        rw [hthere, hturn.there, List.exists_mem_cons_iff, or_assoc]
    · rw [extractMembers_cons_some hm] at h
      cases (Prod.mk.inj h).2

/-- **What a run does to the time of an entry** that none of its members writes: the time is the current one
if the entry gets a new one in it, and is kept otherwise. -/
theorem extractMembers_mtime (hK : SetsTimes K) (hb : Empty base dest R)
    (hg : Grown base.tree.kindAt s.disk.tree.kindAt) (hlink : ∀ m ∈ members, ∀ link, m.content ≠ .symlink link)
    (h : extractMembers K copyWithin dest overwrite limits members s = (s', none))
    (hy : s.disk.tree.kindAt (y ++ R) ≠ none) (hlast : ∀ m ∈ members, ¬ m.At y) :
    (Freshens base.tree.kindAt dest s.disk members (y ++ R) → mtimeAt s'.disk (y ++ R) = some K.now) ∧
      (¬ Freshens base.tree.kindAt dest s.disk members (y ++ R) →
        mtimeAt s'.disk (y ++ R) = mtimeAt s.disk (y ++ R)) := by
  induction members generalizing s with
  | nil =>
    obtain ⟨rfl, -⟩ := Prod.mk.inj h
    exact ⟨fun ⟨_, _, _, hm, _⟩ => absurd hm List.not_mem_nil, fun _ => rfl⟩
  | cons m members ih =>
    rcases hm : extractMember K copyWithin dest overwrite limits m s with ⟨s₁, _ | err⟩
    · rw [extractMembers_cons_none hm] at h
      have hrest := fun m' hm' => hlink m' (List.mem_cons_of_mem m hm')
      have hlast' := fun m' hm' => hlast m' (List.mem_cons_of_mem m hm')
      rcases extractMember_turn hK hb hg (hlink m List.mem_cons_self) hm with ⟨hnone, hd⟩ | ⟨x, hturn⟩
      · obtain ⟨hfresh, hquiet⟩ := ih (hd ▸ hg) hrest h (hd ▸ hy) hlast'
        rw [hd] at hfresh hquiet
        have hiff : Freshens base.tree.kindAt dest s.disk (m :: members) (y ++ R) ↔
            Freshens base.tree.kindAt dest s.disk members (y ++ R) := by
          have hskip : ∀ L, ¬ m.Brings base.tree.kindAt dest L := fun L ⟨x, hx, _⟩ => hnone x hx
          simp only [Freshens, List.exists_mem_cons_iff, hskip, false_or]
        rw [hiff]
        exact ⟨hfresh, hquiet⟩
      · have hne : y ++ R ≠ x ++ R := fun he =>
          hlast m List.mem_cons_self (List.append_cancel_right he ▸ hturn.place)
        have hy₁ : s₁.disk.tree.kindAt (y ++ R) ≠ none := (hturn.there _).mpr (.inl hy)
        obtain ⟨hfresh, hquiet⟩ := ih (hg.trans hturn.grown) hrest h hy₁ hlast'
        -- a time once set to the current one stays that
        have hgain : Gains s.disk s₁.disk (y ++ R) → mtimeAt s'.disk (y ++ R) = some K.now := by
          intro hgain
          by_cases hf : Freshens base.tree.kindAt dest s₁.disk members (y ++ R)
          · exact hfresh hf
          · rw [hquiet hf]
            exact hturn.fresh _ hne hgain
        constructor
        · rintro ⟨n, hn, m', hm', hbrings⟩
          by_cases hn₁ : s₁.disk.tree.kindAt (n :: (y ++ R)) = none
          · refine hfresh ⟨n, hn₁, m', ?_, hbrings⟩
            refine (List.mem_cons.mp hm').resolve_left ?_
            rintro rfl
            exact (hturn.there _).mpr (.inr hbrings) hn₁
          · exact hgain ⟨n, hn, hn₁⟩
        · intro hnot
          have hnogain : ¬ Gains s.disk s₁.disk (y ++ R) := by
            rintro ⟨n, hn, hn₁⟩
            have hbrings := ((hturn.there _).mp hn₁).resolve_left (not_not.mpr hn)
            exact hnot ⟨n, hn, m, List.mem_cons_self, hbrings⟩
          rw [hquiet, hturn.quiet _ hne hy hnogain]
          rintro ⟨n, hn, m', hm', hbrings⟩
          exact hnot ⟨n, hturn.grown.kept.eq_none hn, m', List.mem_cons_of_mem m hm', hbrings⟩
    · rw [extractMembers_cons_some hm] at h
      cases (Prod.mk.inj h).2

theorem extractMembers_append {before rest : List Member}
    (h : extractMembers K copyWithin dest overwrite limits (before ++ rest) s = (s', none)) :
    ∃ s₁, extractMembers K copyWithin dest overwrite limits before s = (s₁, none) ∧
      extractMembers K copyWithin dest overwrite limits rest s₁ = (s', none) := by
  induction before generalizing s with
  | nil => exact ⟨s, rfl, h⟩
  | cons m before ih =>
    rw [List.cons_append] at h
    rcases hm : extractMember K copyWithin dest overwrite limits m s with ⟨s₁, _ | err⟩
    · rw [extractMembers_cons_none hm] at h ⊢
      exact ih h
    · rw [extractMembers_cons_some hm] at h
      cases (Prod.mk.inj h).2

/-! ### The call -/

/-- All that comes to a recorded directory with the members after its own had come before them. -/
def ComesBefore (k : Loc Name → Option (Kind Name)) (dest : Text) (before rest : List Member) (L : Loc Name) : Prop :=
  ∀ n, ∀ m ∈ rest, m.Brings k dest (n :: L) → ∃ m ∈ before, m.Brings k dest (n :: L)

theorem not_freshens_iff {k : Loc Name → Option (Kind Name)} {before rest : List Member}
    (hthere : ∀ n, d.tree.kindAt (n :: L) ≠ none ↔ ∃ m ∈ before, m.Brings k dest (n :: L)) :
    ¬ Freshens k dest d rest L ↔ ComesBefore k dest before rest L := by
  constructor
  · intro hno n m hm hbrings
    rw [← hthere]
    exact fun hnone => hno ⟨n, hnone, m, hm, hbrings⟩
  · rintro hyes ⟨n, hnone, m, hm, hbrings⟩
    exact (hthere n).mpr (hyes n m hm hbrings) hnone

/-- The time that the last member for an entry records is the one that the entry has in the end. -/
def KeepsTimes (dest : Text) (members : List Member) (after : Fs) : Prop :=
  ∀ before m rest y t, members = before ++ m :: rest → m.At y → (∀ m' ∈ rest, ¬ m'.At y) → m.modTime = some t →
    ∃ L e, Root.stat after (targetOf dest y) = .ok (L, e) ∧ e.mtime = t

/-- The members come in an order that keeps the times, or record the current one. -/
def InTime (now : Time) (k : Loc Name → Option (Kind Name)) (dest : Text) (R : Loc Name) (members : List Member) :
    Prop :=
  ∀ before m rest y t, members = before ++ m :: rest → m.At y → (∀ m' ∈ rest, ¬ m'.At y) → m.modTime = some t →
    t = now ∨ ComesBefore k dest (before ++ [m]) rest (y ++ R)

/-- What has become of an entry in the end. -/
theorem extractMembers_stat {before rest : List Member} (hK : SetsTimes K) (hb : Empty s.disk dest R)
    (hlink : ∀ m' ∈ before ++ m :: rest, ∀ link, m'.content ≠ .symlink link)
    (h : extractMembers K copyWithin dest overwrite limits (before ++ m :: rest) s = (s', none)) (hm : m.At y)
    (hlast : ∀ m' ∈ rest, ¬ m'.At y) (ht : m.modTime = some t) :
    ∃ e, Root.stat s'.disk (targetOf dest y) = .ok (y ++ R, e) ∧
      (e.mtime = t ↔ t = K.now ∨ ComesBefore s.disk.tree.kindAt dest (before ++ [m]) rest (y ++ R)) := by
  obtain ⟨s₁, hs₁, hrest⟩ := extractMembers_append h
  obtain ⟨hg₁, hthere⟩ := extractMembers_there hK hb (.refl _)
    (fun m' hm' => hlink m' (List.mem_append_left _ hm')) hs₁
  rcases hs₂ : extractMember K copyWithin dest overwrite limits m s₁ with ⟨s₂, _ | err⟩
  · rw [extractMembers_cons_none hs₂] at hrest
    rcases extractMember_turn hK hb hg₁ (hlink m (List.mem_append_right _ List.mem_cons_self)) hs₂ with
      ⟨hnone, -⟩ | ⟨x, hturn⟩
    · exact absurd hm (hnone y)
    · obtain rfl := hturn.place.eq hm
      have hg₂ := hg₁.trans hturn.grown
      have hlink' : ∀ m' ∈ rest, ∀ link, m'.content ≠ .symlink link := fun m' hm' =>
        hlink m' (List.mem_append_right _ (List.mem_cons_of_mem m hm'))
      obtain ⟨hg, hall⟩ := extractMembers_there hK hb hg₂ hlink' hrest
      obtain ⟨hfresh, hquiet⟩ := extractMembers_mtime hK hb hg₂ hlink' hrest hturn.entry hlast
      rw [hturn.time t ht] at hquiet
      -- where a directory stands now, nothing stood at first
      have hcomes : ¬ Freshens s.disk.tree.kindAt dest s₂.disk rest (x ++ R) ↔
          ComesBefore s.disk.tree.kindAt dest (before ++ [m]) rest (x ++ R) := by
        refine not_freshens_iff fun n => ?_
        have hempty : ¬ s.disk.tree.kindAt (n :: (x ++ R)) ≠ none :=
          not_not.mpr (hb.below (List.cons_ne_nil n x))
        rw [hturn.there, hthere, or_iff_right hempty]
        simp only [List.mem_append, List.mem_singleton, or_and_right, exists_or, exists_eq_left]
      have hentry : s'.disk.tree.kindAt (x ++ R) ≠ none := (hall _).mpr (.inl hturn.entry)
      obtain ⟨e, he⟩ : ∃ e, s'.disk.tree.get (x ++ R) = some e := by
        rw [← Option.isSome_iff_exists, ← Tree.kindAt_isSome]
        exact Option.isSome_iff_ne_none.mpr hentry
      have hmtime : mtimeAt s'.disk (x ++ R) = some e.mtime := by rw [mtimeAt, he, Option.map_some]
      refine ⟨e, Root.stat_iff.mpr ⟨hturn.resolves, ?_, he⟩, ?_⟩
      · rw [follow, fullSteps_targetOf dest hm.1]
        exact hb.walk_steps hg hm.1 hentry
      · rw [← hcomes]
        rw [hmtime, Option.some.injEq] at hfresh hquiet
        constructor
        · intro het
          by_cases hf : Freshens s.disk.tree.kindAt dest s₂.disk rest (x ++ R)
          · exact .inl (het.symm.trans (hfresh hf))
          · exact .inr hf
        · rintro (rfl | hf)
          · by_cases hf : Freshens s.disk.tree.kindAt dest s₂.disk rest (x ++ R)
            · exact hfresh hf
            · exact hquiet hf
          · exact hquiet hf
  · rw [extractMembers_cons_some hs₂] at hrest
    cases (Prod.mk.inj hrest).2

/-- When the loop starts, the steps of the destination lead to it. -/
theorem prepare_empty {C : Codec} {a : Archive} (ha : (prepare K C archivePath dest d).2 = .ok a)
    (hR : follow (prepare K C archivePath dest d).1 dest = .found R)
    (hempty : ∀ n, (prepare K C archivePath dest d).1.tree.get (n :: R) = none) :
    Empty (prepare K C archivePath dest d).1 dest R := by
  suffices hs : ∃ L,
      walk (prepare K C archivePath dest d).1.tree.kindAt maxSymlinks [] (Root.mkdirSteps dest) = .found L ∧
        (prepare K C archivePath dest d).1.tree.kindAt L = some .dir by
    obtain ⟨L, hw, hL⟩ := hs
    obtain rfl := Stop.found.inj ((Root.follow_of_mkdirSteps hw hL).symm.trans hR)
    exact ⟨hw, hL, fun n => (Tree.kindAt_eq_none _).mpr (hempty n)⟩
  rw [prepare] at ha ⊢
  split at ha
  · cases ha
  · rename_i data kind ho
    split at ha
    · cases ha
    · rename_i d₁ hd₁
      simpa [ho, hd₁] using Root.mkdirAll_leads hd₁

/-- **When extracted entries have the times that the archive records**: an archive without links that is
extracted without an error into an empty directory leaves every entry with the time of its last member if and
only if the times that the archive records are the current one, save those of entries to which nothing
comes any more once their own member has come. -/
theorem extract_keepsTimes_iff {C : Codec} {a : Archive} (hK : SetsTimes K)
    (ha : (prepare K C archivePath dest d).2 = .ok a)
    (hR : follow (prepare K C archivePath dest d).1 dest = .found R)
    (hempty : ∀ n, (prepare K C archivePath dest d).1.tree.get (n :: R) = none)
    (hlink : ∀ m ∈ a.members, ∀ link, m.content ≠ .symlink link)
    (h : extract K C archivePath dest overwrite limits d = (s', none)) :
    KeepsTimes dest a.members s'.disk ↔
      InTime K.now (prepare K C archivePath dest d).1.tree.kindAt dest R a.members := by
  have hb := prepare_empty ha hR hempty
  have hrun : extractMembers K copyWithin dest overwrite limits a.members
      ⟨(prepare K C archivePath dest d).1, limits.maxBytes, 0, []⟩ = (s', none) := by
    rw [extract] at h
    rcases hp : prepare K C archivePath dest d with ⟨d₁, err | a'⟩ <;> rw [hp] at h ha
    · cases ha
    · obtain rfl := Except.ok.inj ha
      dsimp only at h
      rw [unpack_eq, withEnding] at h
      obtain ⟨hs, hnone⟩ := Prod.mk.inj h
      exact Prod.ext hs (Option.or_eq_none_iff.mp hnone).1
  have hstat := fun before m rest y t (hsplit : a.members = before ++ m :: rest) (hm : m.At y)
      (hlast : ∀ m' ∈ rest, ¬ m'.At y) (ht : m.modTime = some t) =>
    extractMembers_stat (s := ⟨(prepare K C archivePath dest d).1, limits.maxBytes, 0, []⟩) hK hb (hsplit ▸ hlink)
      (hsplit ▸ hrun) hm hlast ht
  constructor
  · intro hkeeps before m rest y t hsplit hm hlast ht
    obtain ⟨e, he, hiff⟩ := hstat before m rest y t hsplit hm hlast ht
    obtain ⟨L, e', he', het⟩ := hkeeps before m rest y t hsplit hm hlast ht
    obtain ⟨rfl, rfl⟩ := Prod.mk.inj (Except.ok.inj (he.symm.trans he'))
    exact hiff.mp het
  · intro hin before m rest y t hsplit hm hlast ht
    obtain ⟨e, he, hiff⟩ := hstat before m rest y t hsplit hm hlast ht
    exact ⟨_, e, he, hiff.mpr (hin before m rest y t hsplit hm hlast ht)⟩

/-- A file in a zip with a time. -/
def ZipFile.timed (name : Text) (isDir : Bool) (modified : Time) : ZipFile :=
  ⟨name, isDir, false, !isDir, 0o755, some modified, none, ⟨['1'], none⟩⟩

/-- A file in a zip keeps its time. -/
theorem extract_keepsTimes_file :
    KeepsTimes ['/', 'd'] [(ZipFile.timed ['x'] false 5).member]
      (extract .willing (zipOf [.timed ['x'] false 5]) ['/', 'a'] ['/', 'd'] false ⟨0, 0⟩ (.start oneZip)).1.disk := by
  have ha : (prepare .willing (zipOf [.timed ['x'] false 5]) ['/', 'a'] ['/', 'd'] (.start oneZip)).2 =
    .ok (.zip [.timed ['x'] false 5]) := rfl
  have hrun : extract .willing (zipOf [.timed ['x'] false 5]) ['/', 'a'] ['/', 'd'] false ⟨0, 0⟩ (.start oneZip) =
    (_, none) := rfl
  refine (extract_keepsTimes_iff (R := [⟨['d'], rfl⟩]) (fun _ _ => rfl) ha rfl (fun n => ?_) ?_ hrun).mpr ?_
  · exact Tree.none_of_children _ (by rfl) (List.cons_ne_nil n [])
  · intro m hm link h
    obtain rfl := List.mem_singleton.mp hm
    cases h
  · intro before m rest y t hsplit _ _ _
    right
    -- nothing comes after the one member
    have hrest : rest = [] := by
      have hlen := congrArg List.length hsplit
      simp only [Archive.members, List.map_cons, List.map_nil, List.length_append, List.length_cons,
        List.length_nil] at hlen
      exact List.eq_nil_of_length_eq_zero (by omega)
    rw [hrest]
    exact fun n m hm => absurd hm List.not_mem_nil

/-- A zip of a directory that comes before the file in it. -/
def lateFile : List ZipFile := [.timed ['x', '/'] true 5, .timed ['x', '/', 'y'] false 5]

theorem mem_lateFile (hm : m ∈ (Archive.zip lateFile).members) :
    m = (ZipFile.timed ['x', '/'] true 5).member ∨ m = (ZipFile.timed ['x', '/', 'y'] false 5).member := by
  rcases List.mem_cons.mp hm with rfl | hm
  · exact .inl rfl
  · exact .inr (List.mem_singleton.mp hm)

/-- The file sets the time of its directory after that has been set: distinct names do not keep the times. -/
theorem directory_time_lost :
    ¬ ∀ (K : Kernel) (C : Codec) (archivePath dest : Text) (overwrite : Bool) (limits : ExtractLimits) (d : Fs)
      (a : Archive) (R : Loc Name) (s' : Progress), SetsTimes K → (prepare K C archivePath dest d).2 = .ok a →
      follow (prepare K C archivePath dest d).1 dest = .found R →
      (∀ n, (prepare K C archivePath dest d).1.tree.get (n :: R) = none) → (a.members.map Member.name).Nodup →
      (∀ m ∈ a.members, ∀ link, m.content ≠ .symlink link) →
      extract K C archivePath dest overwrite limits d = (s', none) → KeepsTimes dest a.members s'.disk := by
  intro hall
  have hkeeps := hall .willing (zipOf lateFile) ['/', 'a'] ['/', 'd'] false ⟨0, 0⟩ (.start oneZip) (.zip lateFile)
    [⟨['d'], rfl⟩] _ (fun _ _ => rfl) rfl rfl
    (fun n => Tree.none_of_children _ (by rfl) (List.cons_ne_nil n [])) (by decide)
    (fun m hm link h => by rcases mem_lateFile hm with rfl | rfl <;> cases h) rfl
  have hlast : ∀ m ∈ [(ZipFile.timed ['x', '/', 'y'] false 5).member], ¬ m.At [⟨['x'], rfl⟩] := by
    intro m hm hat
    obtain rfl := List.mem_singleton.mp hm
    exact absurd (Except.ok.inj hat.2.1) (by decide)
  obtain ⟨L, e, he, het⟩ := hkeeps [] _ _ [⟨['x'], rfl⟩] 5 rfl ⟨by simp, by rfl, .inl rfl⟩ hlast rfl
  have hstat := congrArg (Except.map fun r => r.2.mtime) he
  rw [Except.map, het] at hstat
  exact absurd hstat (by decide)

end OpenshiftConsole.Filesystem.Extract
