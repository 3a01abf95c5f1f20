import OpenshiftConsole.Filesystem.Nodes

/-!
# What calls do to times

A new entry sets the time of its directory to the current one, and so does a write the time of what is
written. `Grows` says so of any number of calls that make entries and write, and holds of each
(`create_grows`, `alter_grows`): what was made, whose time was set and whose was not. After `MkdirAll` there
is what its path passes, and nothing else is new (`mkdirAll_there`).
-/

namespace OpenshiftConsole.Filesystem

open OpenshiftConsole.Library.Lines (Text)
open OpenshiftConsole.Library.PathWalk OpenshiftConsole.Library.FileTree

/-- The time of the entry at a location. -/
def mtimeAt (d : Fs) (L : Loc Name) : Option Time := (d.tree.get L).map Entry.mtime

/-- A directory has got a new entry. -/
def Gains (d d' : Fs) (L : Loc Name) : Prop := ∃ n, d.tree.kindAt (n :: L) = none ∧ d'.tree.kindAt (n :: L) ≠ none

/-- Entries that are no links were made, and those that `own` holds of were written, all at the time `now`. -/
structure Grows (now : Time) (own : Loc Name → Prop) (d d' : Fs) : Prop where
  grown : Grown d.tree.kindAt d'.tree.kindAt
  journal : ∃ J, d'.journal = J ++ d.journal ∧
    ∀ L, d.tree.kindAt L = none → d'.tree.kindAt L ≠ none → (Act.make, L) ∈ J
  mtime : ∀ L, mtimeAt d' L = mtimeAt d L ∨ mtimeAt d' L = some now
  fresh : ∀ L, Gains d d' L → mtimeAt d' L = some now
  quiet : ∀ L, d.tree.kindAt L ≠ none → ¬ own L → ¬ Gains d d' L → mtimeAt d' L = mtimeAt d L

variable {K : Kernel} {now : Time} {own : Loc Name → Prop} {d d' d'' : Fs} {p : Text} {L M R : Loc Name}

theorem Grows.refl (d : Fs) : Grows now own d d :=
  ⟨.refl _, ⟨[], rfl, fun _ h h' => absurd h h'⟩, fun _ => .inl rfl, fun _ ⟨_, h, h'⟩ => absurd h h',
    fun _ _ _ _ => rfl⟩

theorem Grows.trans (h : Grows now own d d') (h' : Grows now own d' d'') : Grows now own d d'' := by
  have there : ∀ L, d'.tree.kindAt L ≠ none → d''.tree.kindAt L ≠ none := by
    intro L hL hnone
    exact hL (h'.grown.kept.eq_none hnone)
  refine ⟨h.grown.trans h'.grown, ?_, fun L => ?_, ?_, fun L hL hown hgains => ?_⟩
  · obtain ⟨J, hJ, hmade⟩ := h.journal
    obtain ⟨J', hJ', hmade'⟩ := h'.journal
    refine ⟨J' ++ J, by rw [hJ', hJ, List.append_assoc], fun L hL hL'' => ?_⟩
    by_cases hL' : d'.tree.kindAt L = none
    · exact List.mem_append_left _ (hmade' L hL' hL'')
    · exact List.mem_append_right _ (hmade L hL hL')
  · rcases h'.mtime L with hkept | hnow
    · rw [hkept]
      exact h.mtime L
    · exact .inr hnow
  · rintro L ⟨n, hn, hn''⟩
    by_cases hn' : d'.tree.kindAt (n :: L) = none
    · exact h'.fresh L ⟨n, hn', hn''⟩
    · rcases h'.mtime L with hkept | hnow
      · rw [hkept]
        exact h.fresh L ⟨n, hn, hn'⟩
      · exact hnow
  · have hL' : d'.tree.kindAt L ≠ none := fun hnone => hL (h.grown.kept.eq_none hnone)
    rw [h'.quiet L hL' hown fun ⟨n, hn, hn''⟩ => hgains ⟨n, h.grown.kept.eq_none hn, hn''⟩]
    exact h.quiet L hL hown fun ⟨n, hn, hn'⟩ => hgains ⟨n, hn, there _ hn'⟩

/-- What was made, the journal says was made. -/
theorem Grows.of_since {P : Act → Loc Name → Prop} (h : Grows now own d d') (hs : Since P d d')
    (hL : d.tree.kindAt L = none) (hL' : d'.tree.kindAt L ≠ none) : P .make L := by
  obtain ⟨J, hJ, hmade⟩ := h.journal
  obtain ⟨J', hJ', hP⟩ := hs.journal
  obtain rfl : J = J' := List.append_cancel_right (hJ.symm.trans hJ')
  exact hP _ (hmade L hL hL')

/-- A new entry sets the time of its directory. -/
theorem create_grows {c : Call} {e : Entry} (h : create K d c e M = .ok d') (htime : e.mtime = K.now)
    (hlink : ∀ r s, e.kind ≠ .link r s) : Grows K.now own d d' := by
  have hmakes := create_ok h
  have hnew : ∀ L, d.tree.kindAt L = none → d'.tree.kindAt L ≠ none → L = M := by
    intro L hL hL'
    by_contra hne
    rw [hmakes.kindAt, Function.update_of_ne hne] at hL'
    exact hL' hL
  have hgrown : Grown d.tree.kindAt d'.tree.kindAt := by
    refine ⟨hmakes.grows, fun L r s hL hL' => ?_⟩
    obtain rfl := hnew L hL (by rw [hL']; simp)
    rw [hmakes.kindAt, Function.update_self] at hL'
    exact hlink r s (Option.some.inj hL')
  have hget := get_create h
  obtain ⟨n, D, rfl, hD, hM, hd'⟩ := create_cases h
  have hdir : mtimeAt d' D = some K.now := by
    have hs : (d.tree.get D).isSome := by
      rw [← Tree.kindAt_isSome, hD]
      rfl
    obtain ⟨f, hf⟩ := Option.isSome_iff_exists.mp hs
    rw [mtimeAt, hd', Disk.alter, Tree.get_alter, if_pos rfl, Disk.insert, Tree.get_insert,
      if_neg (List.cons_ne_self n D).symm, hf]
    rfl
  have hrest : ∀ L, L ≠ D → L ≠ n :: D → mtimeAt d' L = mtimeAt d L := by
    intro L hLD hLn
    rw [mtimeAt, hd', Disk.alter, Tree.get_alter, if_neg hLD, Disk.insert, Tree.get_insert, if_neg hLn]
    rfl
  refine ⟨hgrown, ⟨[(.attr, D), (.make, n :: D)], hd' ▸ rfl, fun L hL hL' => ?_⟩, fun L => ?_, ?_, ?_⟩
  · rw [hnew L hL hL']
    exact List.mem_cons_of_mem _ List.mem_cons_self
  · by_cases hLn : L = n :: D
    · right
      rw [hLn, mtimeAt, hget, Option.map_some, htime]
    · by_cases hLD : L = D
      · exact .inr (hLD ▸ hdir)
      · exact .inl (hrest L hLD hLn)
  · rintro L ⟨m, hm, hm'⟩
    obtain ⟨-, rfl⟩ := List.cons.inj (hnew _ hm hm')
    exact hdir
  · intro L hL _ hgains
    refine hrest L ?_ ?_
    · rintro rfl
      refine hgains ⟨n, hmakes.empty, ?_⟩
      rw [hmakes.kindAt, Function.update_self]
      exact Option.some_ne_none _
    · rintro rfl
      exact hL hmakes.empty

/-- A write sets the time of what is written, if it does anything. -/
theorem alter_grows {a : Act} {f : Entry → Entry} {hf : ∀ e, (f e).kind = e.kind} (hown : own M)
    (hmtime : ∀ e, (f e).mtime = e.mtime ∨ (f e).mtime = now) : Grows now own d (d.alter a M f hf) := by
  have hkind : (d.alter a M f hf).tree.kindAt = d.tree.kindAt := Disk.kindAt_alter
  have hgains : ∀ L, ¬ Gains d (d.alter a M f hf) L := fun L ⟨n, hn, hn'⟩ => hn' (hkind ▸ hn)
  refine ⟨hkind ▸ .refl _, ⟨[(a, M)], rfl, fun L hL hL' => absurd (hkind ▸ hL) hL'⟩, fun L => ?_,
    fun L hL => absurd hL (hgains L), fun L _ hL _ => ?_⟩
  · by_cases hLM : L = M
    · rw [mtimeAt, mtimeAt, Disk.alter, Tree.get_alter, if_pos hLM]
      cases d.tree.get L with
      | none => exact .inl rfl
      | some e => exact (hmtime e).imp (congrArg some) (congrArg some)
    · rw [mtimeAt, mtimeAt, Disk.alter, Tree.get_alter, if_neg hLM]
      exact .inl rfl
  · have hLM : L ≠ M := by
      rintro rfl
      exact hL hown
    rw [mtimeAt, mtimeAt, Disk.alter, Tree.get_alter, if_neg hLM]

theorem Entry.mtime_setData (t : Time) (f : Text → Text) (e : Entry) :
    (e.setData t f).mtime = e.mtime ∨ (e.setData t f).mtime = t := by
  obtain ⟨node, mode, uid, gid, mtime⟩ := e
  cases node with
  | file data => exact .inr rfl
  | dir | symlink | special => exact .inl rfl

theorem write_grows (hown : own L) (off : ℕ) (bytes : Text) : Grows K.now own d (write K d L off bytes) := by
  rw [write]
  split
  · exact Grows.refl d
  · exact alter_grows hown (Entry.mtime_setData _ _)

namespace Root

theorem mkdir_grows {perm : ℕ} (h : mkdir K d p perm = .ok d') : Grows K.now own d d' := by
  obtain ⟨host, -, hm⟩ := onHost_ok h
  rw [Filesystem.mkdir] at hm
  split at hm
  · cases hm
  · split at hm
    · cases hm
    · exact create_grows hm rfl (by simp [newEntry, Entry.kind])

theorem mkdirLoop_grows (perm : ℕ) (built : Text) (parts : List Text) (d : Fs) :
    Grows K.now own d (mkdirLoop K perm built parts d).1 := by
  induction parts generalizing built d with
  | nil => exact Grows.refl d
  | cons part rest ih =>
    rw [mkdirLoop]
    split
    · exact (mkdir_grows ‹_›).trans (ih _ _)
    · split
      · split
        · exact ih _ _
        · exact Grows.refl d
      · exact Grows.refl d

theorem mkdirAll_grows (p : Text) (perm : ℕ) (d : Fs) : Grows K.now own d (mkdirAll K d p perm).1 := by
  rw [mkdirAll]
  split
  · exact Grows.refl d
  · split
    · exact Grows.refl d
    · exact mkdirLoop_grows perm _ _ d

/-- Where steps lead, and all that they pass, is there. -/
theorem there_of_passes {k : Loc Name → Option (Kind Name)} {s : List (Step Name)} (hg : Grown k d.tree.kindAt)
    (hw : walk d.tree.kindAt maxSymlinks [] s = .found R) (hM : Passes k maxSymlinks s M) : d.tree.kindAt M ≠ none := by
  obtain ⟨q, ⟨t, rfl⟩, hq⟩ := hM
  by_cases ht : t = []
  · rw [ht, List.append_nil] at hw
    obtain rfl : R = M := Stop.found.inj ((hg.walk_fill hw).symm.trans hq)
    rw [← Option.isSome_iff_ne_none, Tree.kindAt_isSome]
    exact d.tree.walk_found d.tree.root_dir hw
  · obtain ⟨D, hD, hdir⟩ := d.tree.walk_take d.tree.root_dir ht (by rw [hw]; simp)
    obtain rfl : D = M := Stop.found.inj ((hg.walk_fill hD).symm.trans hq)
    rw [hdir]
    exact Option.some_ne_none _

/-- After `MkdirAll` what was there is, and what its path passes. -/
theorem mkdirAll_there {k : Loc Name → Option (Kind Name)} {perm : ℕ} (hg : Grown k d.tree.kindAt)
    (h : mkdirAll K d p perm = (d', none)) :
    d'.tree.kindAt M ≠ none ↔ d.tree.kindAt M ≠ none ∨ Passes k maxSymlinks (mkdirSteps p) M := by
  have hgrows : Grows K.now (fun _ => False) d d' := by
    have hall : Grows K.now (fun _ => False) d (mkdirAll K d p perm).1 := mkdirAll_grows p perm d
    rwa [h] at hall
  constructor
  · intro hM'
    by_cases hM : d.tree.kindAt M = none
    · right
      have hfills := mkdirAll_fills (P := fun a L => a = .make → Passes k maxSymlinks (mkdirSteps p) L)
        (d := d) (p := p) K perm fun L ⟨q, hq, hw⟩ _ => ⟨fun _ => ⟨q, hq, hg.fill.walk_fill hw⟩, by simp⟩
      rw [h] at hfills
      exact hgrows.of_since hfills.since hM hM' rfl
    · exact .inl hM
  · rintro (hM | hM)
    · exact fun hnone => hM (hgrows.grown.kept.eq_none hnone)
    · obtain ⟨R, hw, -⟩ := mkdirAll_leads h
      exact there_of_passes (hg.trans hgrows.grown) hw hM

/-- What is opened for writing is there, and nothing else has been made. -/
theorem openWrite_grows {perm : ℕ} (h : openWrite K d p perm true = .ok (L, d')) :
    Grows K.now (· = L) d d' ∧ walk d'.tree.kindAt maxSymlinks [] (steps p) = .found L ∧
      ∀ M, d'.tree.kindAt M ≠ none ↔ d.tree.kindAt M ≠ none ∨ M = L := by
  obtain ⟨-, hcases⟩ := openWrite_ok h
  obtain ⟨host, hr, hhost⟩ := onHost_ok h
  have hsteps : steps host = steps p := by
    refine (Rootfs.resolve_eq_some hr).elim And.left ?_
    rintro ⟨rfl, -⟩
    cases hhost
  rcases hcases with ⟨hw, -, ha⟩ | ⟨hw, hm⟩
  · have hd' := openWrite_found h hw
    rw [if_pos rfl] at hd'
    have hL : d.tree.kindAt L ≠ none := by
      rw [← Option.isSome_iff_ne_none, Tree.kindAt_isSome]
      exact d.tree.walk_found d.tree.root_dir hw
    refine ⟨hd' ▸ alter_grows rfl (Entry.mtime_setData _ _), by rw [ha.kindAt, hw], fun M => ?_⟩
    rw [ha.kindAt]
    exact ⟨.inl, fun h => h.elim id fun h => h ▸ hL⟩
  · rw [Filesystem.openWrite] at hhost
    rw [hsteps, hw] at hhost
    split at hhost
    · cases hhost
    · dsimp only at hhost
      cases hc : create K d .create (newEntry K (.file []) (K.masked perm)) L with
      | error err => rw [hc] at hhost; cases hhost
      | ok d₁ =>
        rw [hc] at hhost
        obtain ⟨-, rfl⟩ := Prod.mk.inj (Except.ok.inj hhost)
        refine ⟨create_grows hc rfl (by simp [newEntry, Entry.kind]), ?_, fun M => ?_⟩
        · exact walk_found_of_missing hw hm.grows (.inr (by rw [hm.kindAt, Function.update_self]))
        · rw [hm.kindAt]
          by_cases hM : M = L
          · simp [hM]
          · rw [Function.update_of_ne hM]
            exact ⟨.inl, fun h => h.resolve_right hM⟩

end Root

end OpenshiftConsole.Filesystem
