import OpenshiftConsole.Filesystem.Nodes
import OpenshiftConsole.Filesystem.Service

/-!
# Deleting a directory with all that is in it

The helper's `remove` looks at what its path names without following it, lists a directory, calls itself
for each name in it and then removes the directory, each time by a path text. What it takes away is the entry
that the path names and all below it, whatever links there are (`remove_prunes`).

The tree only gets smaller while that goes on (`Thins`). So a path that still leads somewhere leads to where it
led at first, although the links on its way may themselves be taken away; and a directory is only removed when
nothing is left in it. The count is compared with the number of entries there are (`Tree.entries`).
-/

namespace OpenshiftConsole.Filesystem.Helper

open OpenshiftConsole.Library.Lines (Text)
open OpenshiftConsole.Library.PathWalk OpenshiftConsole.Library.FileTree OpenshiftConsole.Library.Loops

variable {K : Kernel} {d d' d'' : Fs} {L M : Loc Name} {path : Text} {m : Name} {e : Entry} {fuel : ℕ} {now : Time}
  {gone gone' timed timed' : Set (Loc Name)}

/-! ### A tree that gets smaller -/

/-- At every place all is as it was, or nothing is left and the place is in `gone`, or the time has been set
and the place is in `timed`. -/
def Thins (now : Time) (gone timed : Set (Loc Name)) (d d' : Fs) : Prop :=
  ∀ M, d'.tree.get M = d.tree.get M ∨ M ∈ gone ∧ d'.tree.get M = none ∨
    M ∈ timed ∧ d'.tree.get M = (d.tree.get M).map (Entry.setMtime now)

namespace Thins

theorem refl (d : Fs) : Thins now gone timed d d := fun _ => .inl rfl

theorem trans (h : Thins now gone timed d d') (h' : Thins now gone timed d' d'') : Thins now gone timed d d'' := by
  intro M
  rcases h' M with h' | ⟨hg, h'⟩ | ⟨ht, h'⟩
  · rw [h']
    exact h M
  · exact .inr (.inl ⟨hg, h'⟩)
  · rcases h M with h | ⟨hg, h⟩ | ⟨-, h⟩ <;> rw [h] at h'
    · exact .inr (.inr ⟨ht, h'⟩)
    · exact .inr (.inl ⟨hg, h'⟩)
    · rw [Option.map_map] at h'
      exact .inr (.inr ⟨ht, h'⟩)

theorem mono (h : Thins now gone timed d d') (hg : gone ⊆ gone') (ht : timed ⊆ timed') : Thins now gone' timed' d d' :=
  fun M => (h M).imp_right (Or.imp (And.imp_left fun hM => hg hM) (And.imp_left fun hM => ht hM))

theorem get_eq_none (h : Thins now gone timed d d') (hM : d.tree.get M = none) : d'.tree.get M = none := by
  rcases h M with h | ⟨-, h⟩ | ⟨-, h⟩
  · exact h.trans hM
  · exact h
  · rw [h, hM]
    rfl

/-- What is still there is what was there. -/
theorem shrinks (h : Thins now gone timed d d') : Extends d'.tree.kindAt d.tree.kindAt := by
  intro M a ha
  rw [Tree.kindAt] at ha ⊢
  rcases h M with h | ⟨-, h⟩ | ⟨-, h⟩ <;> rw [h] at ha
  · exact ha
  · cases ha
  · rw [Option.map_map] at ha
    exact ha

theorem isSome (h : Thins now gone timed d d') (hM : (d'.tree.get M).isSome) : (d.tree.get M).isSome := by
  by_contra hnone
  rw [h.get_eq_none (by simpa using hnone)] at hM
  cases hM

theorem isSome_of_notMem (h : Thins now gone timed d d') (hM : M ∉ gone) :
    (d'.tree.get M).isSome = (d.tree.get M).isSome := by
  rcases h M with h | ⟨hg, -⟩ | ⟨-, h⟩
  · rw [h]
  · exact absurd hg hM
  · rw [h, Option.isSome_map]

end Thins

/-- What a path removes is what it named before, when the tree was larger. -/
theorem remove_place (hs : Extends d'.tree.kindAt d.tree.kindAt) (hl : Root.lstat d path = .ok (L, e))
    (hr : Root.remove K d' path = .ok d'') :
    ∃ n D hn, L = n :: D ∧ d'.tree.kindAt L ≠ none ∧
      d'' = (d'.erase .remove n D hn).alter .attr D (Entry.setMtime K.now) (Entry.kind_setMtime K.now) := by
  obtain ⟨host, hhost, hr⟩ := Root.onHost_ok hr
  obtain ⟨i, n, D, hn, hsteps, hw, hslash, hnone, rfl⟩ := remove_eq hr
  obtain ⟨host', hhost', -, -, hf⟩ := lstat_host (Rootfs.steps_resolve hhost hsteps) hl
  obtain rfl : host' = host := Option.some.inj (hhost'.symm.trans hhost)
  have hD := walk_found_of_extends hs hw
  obtain rfl : L = n :: D := by
    cases ht : trailingSlash host' with
    | false =>
      obtain ⟨E, rfl, hE⟩ := nofollow_place hf ht hsteps
      rw [Stop.found.inj (hD.symm.trans hE.walk)]
    | true =>
      -- a slash at the end is only passed over on a directory
      have hdir := hs _ _ (hslash ht)
      have hfound := walk_down_found hD (d.tree.dir_tail hdir) (.inl hdir)
      have hhere : walk d.tree.kindAt maxSymlinks [] (i ++ [.down n] ++ [.here]) = .found (n :: D) :=
        walk_append hfound hdir rfl (by simp)
      rw [nofollow, if_pos (.inl ht), follow, fullSteps, if_pos ht, hsteps, hhere] at hf
      exact (Stop.found.inj hf).symm
  exact ⟨n, D, hn, rfl, hnone, rfl⟩

/-! ### What is removed -/

/-- The places at and below `L`. -/
def atOrBelow (L : Loc Name) : Set (Loc Name) := {M | L <:+ M}

/-- The places at and below `L`, and the directory that it is in. -/
def aroundOf (L : Loc Name) : Set (Loc Name) := {M | L <:+ M ∨ M = L.tail}

/-- What a removal at `L` is to do: nothing is taken away but what is at or below `L`, and if there is
no error all of it is, and has been counted. -/
structure Prunes (K : Kernel) (L : Loc Name) (d : Fs) (r : Removal × Option Errno) : Prop where
  thins : Thins K.now (atOrBelow L) (aroundOf L) d r.1.disk
  gone : r.2 = none → ∀ M ∈ atOrBelow L, r.1.disk.tree.get M = none
  counted : r.2 = none → r.1.removed + r.1.disk.tree.entries.card = d.tree.entries.card

/-- One removal. -/
theorem remove_one (hs : Extends d'.tree.kindAt d.tree.kindAt) (hl : Root.lstat d path = .ok (L, e))
    (hr : Root.remove K d' path = .ok d'') :
    Thins K.now (atOrBelow L) (aroundOf L) d' d'' ∧ (∀ M ∈ atOrBelow L, d''.tree.get M = none) ∧
      1 + d''.tree.entries.card = d'.tree.entries.card := by
  obtain ⟨n, D, hn, rfl, hthere, rfl⟩ := remove_place hs hl hr
  have hget : ∀ M, ((d'.erase .remove n D hn).alter .attr D (Entry.setMtime K.now) (Entry.kind_setMtime K.now)).tree.get M =
      if M = n :: D then none else if M = D then (d'.tree.get M).map (Entry.setMtime K.now) else d'.tree.get M := by
    intro M
    rw [Disk.alter, Tree.get_alter, Disk.erase, Tree.get_erase]
    split_ifs <;> rfl
  have hgone : ∀ M ∈ atOrBelow (n :: D), d'.tree.get M = none ∨ M = n :: D := by
    rintro M ⟨r, rfl⟩
    by_cases hr : r = []
    · exact .inr (by rw [hr]; rfl)
    · exact .inl (d'.tree.none_of_children hn hr)
  refine ⟨fun M => ?_, fun M hM => ?_, ?_⟩
  · rw [hget]
    split_ifs with h₁ h₂
    · exact .inr (.inl ⟨h₁ ▸ List.suffix_refl _, rfl⟩)
    · exact .inr (.inr ⟨.inr h₂, rfl⟩)
    · exact .inl rfl
  · rw [hget]
    split_ifs with h₁ h₂
    · rfl
    · rw [(hgone M hM).resolve_right h₁]
      rfl
    · exact (hgone M hM).resolve_right h₁
  · rw [ne_eq, Tree.kindAt_eq_none, ← ne_eq, ← Option.isSome_iff_ne_none, ← Tree.mem_entries] at hthere
    rw [← Finset.card_erase_add_one hthere, add_comm]
    congr 2
    ext M
    rw [Finset.mem_erase, Tree.mem_entries, Tree.mem_entries, hget]
    split_ifs with h₁ h₂
    · simp [h₁]
    · simp [h₁]
    · simp [h₁]

/-- The loop over the names in a directory: what it has come to. -/
structure Emptying (K : Kernel) (L : Loc Name) (d : Fs) (s : Removal) : Prop where
  thins : Thins K.now (atOrBelow L) (atOrBelow L) d s.disk
  counted : s.removed + s.disk.tree.entries.card = d.tree.entries.card

/-- One turn of that loop. -/
def removeEntry (K : Kernel) (fuel : ℕ) (path : Text) (entry : Root.Dirent) (s : Removal) : Removal × Option Errno :=
  let (r, err) := remove K fuel (Rootfs.join path entry.name.val) true s.disk
  (⟨r.disk, s.removed + r.removed⟩, err)

/-- What is done at a place in a directory is done below the directory, or sets the directory's time. -/
theorem Thins.up (h : Thins now (atOrBelow (m :: L)) (aroundOf (m :: L)) d d') :
    Thins now (atOrBelow L) (atOrBelow L) d d' := by
  have hsub : atOrBelow (m :: L) ⊆ atOrBelow L := fun M hM => (List.suffix_cons m L).trans hM
  apply h.mono hsub
  rintro M (hM | rfl)
  · exact hsub hM
  · exact List.suffix_refl _

theorem removeEntry_emptying {entry : Root.Dirent} {s : Removal} (hs : Emptying K L d s)
    (hr : Prunes K (entry.name :: L) s.disk (remove K fuel (Rootfs.join path entry.name.val) true s.disk)) :
    ((removeEntry K fuel path entry s).2 = none → Emptying K L d (removeEntry K fuel path entry s).1) ∧
      ((removeEntry K fuel path entry s).2 ≠ none →
        Thins K.now (atOrBelow L) (atOrBelow L) d (removeEntry K fuel path entry s).1.disk) := by
  have hthins := hs.thins.trans hr.thins.up
  refine ⟨fun hok => ⟨hthins, ?_⟩, fun _ => hthins⟩
  exact (Nat.add_assoc _ _ _).trans ((congrArg (s.removed + ·) (hr.counted hok)).trans hs.counted)

/-- **What `remove` takes away** is what its path names and all that is below it. -/
theorem remove_prunes (hl : ∀ M e, Root.lstat d path = .ok (M, e) → M = L)
    (hfuel : ∀ M, (d.tree.get M).isSome → M.length < L.length + fuel) : Prunes K L d (remove K fuel path true d) := by
  induction fuel generalizing path d L with
  | zero =>
    refine ⟨Thins.refl d, fun _ M hM => ?_, fun _ => Nat.zero_add _⟩
    -- nothing is as deep as that
    by_contra hne
    have hlt := hfuel M (Option.isSome_iff_ne_none.mpr hne)
    have hle := List.IsSuffix.length_le hM
    omega
  | succ fuel ih =>
    rw [remove]
    split
    · exact ⟨Thins.refl d, by simp, by simp⟩
    · rename_i M st hst
      obtain rfl := hl M st hst
      split
      · split
        · exact ⟨Thins.refl d, by simp, by simp⟩
        · rename_i d' hd'
          obtain ⟨hthins, hgone, hcount⟩ := remove_one (Extends.refl _) hst hd'
          exact ⟨hthins, fun _ => hgone, fun _ => hcount⟩
      · rename_i hdir
        have hleads := leads_of_lstat hst (by simpa using hdir)
        split
        · exact ⟨Thins.refl d, by simp, by simp⟩
        · rename_i entries truncated hlist
          have hturns := forEach_rule (f := removeEntry K fuel path) (l := entries) (s := ⟨d, 0⟩)
            (I := Emptying K M d) (E := fun s => Thins K.now (atOrBelow M) (atOrBelow M) d s.disk)
            (fun entry _ s hs => removeEntry_emptying hs (ih
              (fun N e he => lstat_join hs.thins.shrinks hleads he)
              (fun N hN => by
                have hlt := hfuel N (hs.thins.isSome hN)
                rw [List.length_cons]
                omega)))
            ⟨Thins.refl d, Nat.zero_add _⟩
          have hup : atOrBelow M ⊆ aroundOf M := fun _ => .inl
          dsimp only
          split
          · rename_i s err hrun
            have hall : forEach (removeEntry K fuel path) entries ⟨d, 0⟩ = (s, some err) := hrun
            rw [hall] at hturns
            exact ⟨(hturns.2 (by simp)).mono subset_rfl hup, by simp, by simp⟩
          · rename_i s hrun
            have hall : forEach (removeEntry K fuel path) entries ⟨d, 0⟩ = (s, none) := hrun
            rw [hall] at hturns
            have hs := hturns.1 rfl
            split
            · exact ⟨hs.thins.mono subset_rfl hup, by simp, by simp⟩
            · rename_i d' hd'
              obtain ⟨hthins, hgone, hcount⟩ := remove_one hs.thins.shrinks hst hd'
              refine ⟨(hs.thins.mono subset_rfl hup).trans hthins, fun _ => hgone, fun _ => ?_⟩
              exact (Nat.add_assoc _ _ _).trans ((congrArg (s.removed + ·) hcount).trans hs.counted)

/-! ### The subtree -/

/-- A removal of the subtree at `L`: what is not in it is as it was, but for the time of the directory that
it was in; of what is in it nothing is changed but times, until it is gone; and if there is no error
all of it is gone and the count is the number of entries that it had. -/
structure RemovesSubtree (K : Kernel) (L : Loc Name) (d : Fs) (r : Removal × Option Errno) : Prop where
  outside : ∀ M, ¬ L <:+ M → r.1.disk.tree.get M = d.tree.get M ∨
    M = L.tail ∧ r.1.disk.tree.get M = (d.tree.get M).map (Entry.setMtime K.now)
  inside : ∀ M, L <:+ M → r.1.disk.tree.get M = none ∨ r.1.disk.tree.get M = d.tree.get M ∨
    r.1.disk.tree.get M = (d.tree.get M).map (Entry.setMtime K.now)
  gone : r.2 = none → ∀ M, L <:+ M → r.1.disk.tree.get M = none
  counted : r.2 = none → r.1.removed = (d.tree.entries.filter (L <:+ ·)).card

theorem Prunes.removesSubtree {r : Removal × Option Errno} (h : Prunes K L d r) : RemovesSubtree K L d r := by
  refine ⟨fun M hM => ?_, fun M hM => ?_, h.gone, fun hok => ?_⟩
  · rcases h.thins M with he | ⟨hL, -⟩ | ⟨ht, he⟩
    · exact .inl he
    · exact absurd hL hM
    · exact .inr ⟨ht.resolve_left hM, he⟩
  · rcases h.thins M with he | ⟨-, he⟩ | ⟨-, he⟩
    · exact .inr (.inl he)
    · exact .inl he
    · exact .inr (.inr he)
  · -- what is left is what was not in the subtree
    have hleft : r.1.disk.tree.entries = d.tree.entries.filter fun M => ¬ L <:+ M := by
      ext M
      rw [Finset.mem_filter, Tree.mem_entries, Tree.mem_entries]
      by_cases hM : L <:+ M
      · simp [h.gone hok M hM, hM]
      · simp [h.thins.isSome_of_notMem (M := M) hM, hM]
    have hcount := h.counted hok
    rw [hleft] at hcount
    exact Nat.add_right_cancel (hcount.trans (Finset.card_filter_add_card_filter_not (L <:+ ·)).symm)

/-- **Recursive removal takes away exactly the subtree** that the path names, without following the path's
last name or any link in the subtree; also where it fails, nothing else. -/
theorem remove_removesSubtree (K : Kernel) (hl : Root.lstat d path = .ok (L, e)) (hfuel : d.tree.height < fuel) :
    RemovesSubtree K L d (remove K fuel path true d) := by
  apply Prunes.removesSubtree
  apply remove_prunes
  · intro M e' hM
    exact (Prod.mk.inj (Except.ok.inj (hM.symm.trans hl))).1
  · intro M hM
    have hle := d.tree.length_le_height hM
    omega

/-- `/w` with a link to `/u` and an empty directory in it, and `/u` with a file. -/
def linkOut : FsTree :=
  Tree.ofList [([], ⟨.dir, 0o755, 0, 0, 0⟩), ([⟨['u'], isName_u⟩], ⟨.dir, 0o755, 0, 0, 0⟩),
    ([⟨['b'], isName_b⟩, ⟨['u'], isName_u⟩], ⟨.file ['x'], 0o644, 0, 0, 0⟩), ([⟨['w'], isName_w⟩], ⟨.dir, 0o755, 0, 0, 0⟩),
    ([⟨['l'], rfl⟩, ⟨['w'], isName_w⟩], ⟨.symlink ['/', 'u'], 0o777, 0, 0, 0⟩),
    ([⟨['e'], rfl⟩, ⟨['w'], isName_w⟩], ⟨.dir, 0o755, 0, 0, 0⟩)] (by decide) (by decide)

/-- Three entries are removed, and what the link points to stays. -/
theorem remove_removesSubtree_linkOut :
    RemovesSubtree .willing [⟨['w'], rfl⟩] (.start linkOut) (remove .willing 4 ['/', 'w'] true (.start linkOut)) ∧
      (remove .willing 4 ['/', 'w'] true (.start linkOut)).2 = none ∧
      (remove .willing 4 ['/', 'w'] true (.start linkOut)).1.removed = 3 :=
  ⟨remove_removesSubtree .willing (e := ⟨.dir, 0o755, 0, 0, 0⟩) (by rfl) (by decide), by decide, by decide⟩

end OpenshiftConsole.Filesystem.Helper
