import OpenshiftConsole.Library.PathWalk
import Mathlib.Data.List.Dedup
import Mathlib.Data.List.Infix
import Mathlib.Data.Finset.Card

/-!
# Trees of entries, and what is changed in them

A `Tree` says which entry stands at each location. It holds finitely many, its root is
a directory and every other entry stands in a directory; the operations that change it
take what they need for that to stay true.

A `Disk` is a tree in use: the tree it started as, the tree now and a journal of the
places that were changed in between, each with a word on how. The journal cannot leave
a change out, since a `Disk` carries the proof that the two trees agree elsewhere.
`Since P d d'` says that everything done to get from `d` to `d'` satisfies `P`; to
bound what a program changes is to prove this step by step.
-/

namespace OpenshiftConsole.Library.FileTree

open OpenshiftConsole.Library.PathWalk

variable {ν α β : Type*} {kind : α → Kind ν}

/-- Finitely many entries in directories below one root. -/
structure Tree (kind : α → Kind ν) where
  /-- The entry at a location. -/
  get : Loc ν → Option α
  /-- Where entries can be: a list that misses none. -/
  locs : List (Loc ν)
  mem_locs : ∀ {L}, (get L).isSome → L ∈ locs
  root_dir : (get []).map kind = some .dir
  parent_dir : ∀ {n L}, (get (n :: L)).isSome → (get L).map kind = some .dir

theorem dropSuffix?_eq_some [DecidableEq ν] {L T r : List ν} : L.dropSuffix? T = some r ↔ L = r ++ T := by
  simp [List.dropSuffix?_eq_some_iff]

theorem dropSuffix?_eq_none [DecidableEq ν] {L T : List ν} : L.dropSuffix? T = none ↔ ¬ T <:+ L := by
  rw [Option.eq_none_iff_forall_ne_some]
  exact ⟨fun h ⟨r, hr⟩ => h r (dropSuffix?_eq_some.mpr hr.symm), fun h r hr => h ⟨r, (dropSuffix?_eq_some.mp hr).symm⟩⟩

/-! ### Orderly lists -/

/-- A list of places in which none is twice, or was done before, and what is above one comes before it
or was done. -/
def Orderly : (Loc ν → Prop) → List (Loc ν) → Prop
  | _, [] => True
  | done, x :: l => ¬ done x ∧ (x = [] ∨ done x.tail) ∧ Orderly (fun y => done y ∨ y = x) l

theorem Orderly.not_done {done : Loc ν → Prop} {l : List (Loc ν)} {x : Loc ν} (h : Orderly done l) (hx : x ∈ l) : ¬ done x := by
  induction l generalizing done with
  | nil => cases hx
  | cons y l ih =>
    rcases List.mem_cons.mp hx with rfl | hx
    · exact h.1
    · exact fun hd => ih h.2.2 hx (.inl hd)

theorem orderly_append {done : Loc ν → Prop} {l l' : List (Loc ν)} :
    Orderly done (l ++ l') ↔ Orderly done l ∧ Orderly (fun y => done y ∨ y ∈ l) l' := by
  induction l generalizing done with
  | nil => simp [Orderly]
  | cons x l ih =>
    rw [List.cons_append, Orderly, Orderly, ih, and_assoc, and_assoc]
    simp only [or_assoc, List.mem_cons]

theorem Orderly.nodup {done : Loc ν → Prop} {l : List (Loc ν)} (h : Orderly done l) : l.Nodup := by
  induction l generalizing done with
  | nil => exact .nil
  | cons x l ih => exact (ih h.2.2).cons fun hx => h.2.2.not_done hx (.inr rfl)

/-- What is above a place in the list comes before it. -/
theorem Orderly.tail_mem {l before after : List (Loc ν)} {n : ν} {x : Loc ν} (h : Orderly (fun _ => False) l)
    (hl : l = before ++ (n :: x) :: after) : x ∈ before := by
  rw [hl, orderly_append] at h
  rcases h.2.2.1 with hnil | hdone | hmem
  · cases hnil
  · exact hdone.elim
  · exact hmem

/-- Some of the places, if what is above them is among them. -/
theorem Orderly.filter {done done' : Loc ν → Prop} {l : List (Loc ν)} {p : Loc ν → Bool} (h : Orderly done l)
    (hp : ∀ n x, n :: x ∈ l → p (n :: x) = true → p x = true) (hdone : ∀ x, done' x ↔ done x ∧ p x = true) :
    Orderly done' (l.filter p) := by
  induction l generalizing done done' with
  | nil => trivial
  | cons x l ih =>
    have hrest := fun n y hy => hp n y (List.mem_cons_of_mem x hy)
    by_cases hx : p x = true
    · rw [List.filter_cons_of_pos hx]
      refine ⟨fun hd => h.1 ((hdone x).mp hd).1, ?_, ih h.2.2 hrest fun y => ?_⟩
      · cases x with
        | nil => exact .inl rfl
        | cons n x => exact .inr ((hdone x).mpr ⟨h.2.1.resolve_left (List.cons_ne_nil n x), hp n x List.mem_cons_self hx⟩)
      · rw [hdone]
        constructor
        · rintro (⟨hd, hy⟩ | rfl)
          · exact ⟨.inl hd, hy⟩
          · exact ⟨.inr rfl, hx⟩
        · rintro ⟨hd | rfl, hy⟩
          · exact .inl ⟨hd, hy⟩
          · exact .inr rfl
    · rw [List.filter_cons_of_neg hx]
      refine ih h.2.2 hrest fun y => ?_
      rw [hdone]
      constructor
      · exact fun ⟨hd, hy⟩ => ⟨.inl hd, hy⟩
      · rintro ⟨hd | rfl, hy⟩
        · exact ⟨hd, hy⟩
        · exact absurd hy hx

/-- Lists of what is below different names, one after the other. -/
theorem orderly_flatMap {f : ν → List (Loc ν)} {y : Loc ν} {names : List ν} (hnodup : names.Nodup)
    (hmem : ∀ n, ∀ x ∈ f n, n :: y <:+ x)
    (hf : ∀ n (done : Loc ν → Prop), (∀ x, n :: y <:+ x → ¬ done x) → done y → Orderly done (f n))
    {done : Loc ν → Prop} (hnew : ∀ n ∈ names, ∀ x, n :: y <:+ x → ¬ done x) (hy : done y) :
    Orderly done (names.flatMap f) := by
  induction names generalizing done with
  | nil => trivial
  | cons n names ih =>
    rw [List.flatMap_cons, orderly_append]
    refine ⟨hf n done (hnew n List.mem_cons_self) hy, ih hnodup.of_cons ?_ (.inl hy)⟩
    rintro m hm x hx (hd | hd)
    · exact hnew m (List.mem_cons_of_mem n hm) x hx hd
    · -- nothing is below two names of one directory
      have heq : n :: y = m :: y := (List.suffix_of_suffix_length_le (hmem n x hd) hx (by simp)).eq_of_length (by simp)
      obtain rfl := (List.cons.inj heq).1
      exact (List.nodup_cons.mp hnodup).1 hm

/-- The same list further down. -/
theorem orderly_map_append {M : Loc ν} {done done' : Loc ν → Prop} {l : List (Loc ν)} (h : Orderly done l)
    (hdone : ∀ x, done' (x ++ M) ↔ done x) (hM : M = [] ∨ done' M.tail) : Orderly done' (l.map (· ++ M)) := by
  induction l generalizing done done' with
  | nil => trivial
  | cons x l ih =>
    obtain ⟨hnew, habove, h⟩ := h
    refine ⟨fun hd => hnew ((hdone x).mp hd), ?_, ih h (fun y => ?_) (hM.imp_right .inl)⟩
    · cases x with
      | nil => exact hM
      | cons n x => exact .inr ((hdone x).mpr (habove.resolve_left (List.cons_ne_nil n x)))
    · rw [hdone, List.append_cancel_right_eq]

/-! ### Walks that list names -/

/-- What a walk visits at and below the place `y`, depth first; `names` says what it finds at a place. -/
def preorder (names : Loc ν → List ν) : ℕ → Loc ν → List (Loc ν)
  | 0, _ => []
  | fuel + 1, y => y :: (names y).flatMap fun n => preorder names fuel (n :: y)

section Preorder

variable {names : Loc ν → List ν} {fuel : ℕ} {x y : Loc ν} {n : ν}

theorem suffix_of_mem_preorder (h : x ∈ preorder names fuel y) : y <:+ x := by
  induction fuel generalizing y with
  | zero => cases h
  | succ fuel ih =>
    rcases List.mem_cons.mp h with rfl | h
    · exact List.suffix_refl _
    · obtain ⟨n, -, hn⟩ := List.mem_flatMap.mp h
      exact (List.suffix_cons n y).trans (ih hn)

/-- What is visited was found where the walk came from. -/
theorem mem_names_of_mem_preorder (h : n :: x ∈ preorder names fuel y) (hy : y <:+ x) : n ∈ names x := by
  induction fuel generalizing y with
  | zero => cases h
  | succ fuel ih =>
    rcases List.mem_cons.mp h with rfl | h
    · exact absurd hy.length_le (by simp)
    · obtain ⟨m, hm, h⟩ := List.mem_flatMap.mp h
      rcases List.suffix_cons_iff.mp (suffix_of_mem_preorder h) with he | hx
      · obtain ⟨rfl, rfl⟩ := List.cons.inj he
        exact hm
      · exact ih h hx

/-- A walk that goes deep enough visits what is found at every place on the way. -/
theorem mem_preorder (hyx : y <:+ x) (hfuel : x.length < y.length + fuel)
    (hnames : ∀ n z, y <:+ z → n :: z <:+ x → n ∈ names z) : x ∈ preorder names fuel y := by
  induction fuel generalizing y with
  | zero =>
    have := hyx.length_le
    omega
  | succ fuel ih =>
    obtain ⟨r, hr⟩ := hyx
    rcases List.eq_nil_or_concat r with rfl | ⟨r, n, rfl⟩
    · rw [← hr]
      exact List.mem_cons_self
    · have hsuffix : n :: y <:+ x := ⟨r, by simpa using hr⟩
      refine List.mem_cons_of_mem _ (List.mem_flatMap.mpr ⟨n, hnames n y (List.suffix_refl y) hsuffix, ?_⟩)
      apply ih hsuffix
      · rw [List.length_cons]
        omega
      · exact fun m z hz => hnames m z ((List.suffix_cons n y).trans hz)

/-- A walk is orderly. -/
theorem orderly_preorder (hnodup : ∀ z, (names z).Nodup) {done : Loc ν → Prop} (hnew : ∀ x, y <:+ x → ¬ done x)
    (habove : y = [] ∨ done y.tail) : Orderly done (preorder names fuel y) := by
  induction fuel generalizing y done with
  | zero => trivial
  | succ fuel ih =>
    refine ⟨hnew y (List.suffix_refl y), habove, ?_⟩
    apply orderly_flatMap (y := y)
    · exact hnodup y
    · exact fun n x hx => suffix_of_mem_preorder hx
    · exact fun n done hnew hy => ih hnew (.inr hy)
    · rintro n - x hx (hd | rfl)
      · exact hnew x ((List.suffix_cons n y).trans hx) hd
      · exact absurd hx.length_le (by simp)
    · exact .inr rfl

end Preorder

namespace Tree

variable (t : Tree kind) {L M D : Loc ν} {n m : ν}

/-- The kind of entry at a location: what a walk sees of the tree. -/
def kindAt (L : Loc ν) : Option (Kind ν) := (t.get L).map kind

theorem kindAt_isSome : (t.kindAt L).isSome = (t.get L).isSome := by simp [kindAt]

theorem kindAt_eq_none : t.kindAt L = none ↔ t.get L = none := by simp [kindAt]

/-- Everything above an entry is a directory. -/
theorem dir_above {r : List ν} (hr : r ≠ []) (hs : (t.get (r ++ L)).isSome) : t.kindAt L = some .dir := by
  induction r with
  | nil => exact absurd rfl hr
  | cons n r ih =>
    have hd := t.parent_dir hs
    cases r with
    | nil => exact hd
    | cons m r =>
      refine ih (List.cons_ne_nil m r) ?_
      rw [← kindAt_isSome]
      exact Option.isSome_iff_exists.mpr ⟨_, hd⟩

/-- Nothing stands below a place that is empty. -/
theorem none_below (hM : t.get M = none) (hL : M <:+ L) : t.get L = none := by
  obtain ⟨r, rfl⟩ := hL
  cases r with
  | nil => exact hM
  | cons n r =>
    by_contra hne
    have hd := t.dir_above (List.cons_ne_nil n r) (Option.isSome_iff_ne_none.mpr hne)
    rw [kindAt, hM] at hd
    cases hd

/-- How far below the root an entry can be. -/
def height : ℕ := t.locs.foldr (fun L h => max L.length h) 0

theorem length_le_height (hs : (t.get L).isSome) : L.length ≤ t.height := by
  have hm := t.mem_locs hs
  unfold height
  generalize t.locs = locs at hm
  induction locs with
  | nil => cases hm
  | cons M locs ih =>
    rcases List.mem_cons.mp hm with rfl | hm
    · exact le_max_left _ _
    · exact (ih hm).trans (le_max_right _ _)

/-- What is above a directory is one. -/
theorem dir_tail (hL : t.kindAt L = some .dir) : t.kindAt L.tail = some .dir := by
  cases L with
  | nil => exact hL
  | cons n L =>
    have hs : (t.get (n :: L)).isSome := by
      rw [← kindAt_isSome, hL]
      rfl
    exact t.parent_dir hs

/-- A walk from a directory ends on an entry there is, and meets its links in directories. -/
theorem advance_found {s : List (Step ν)} (hL : t.kindAt L = some .dir) :
    (∀ M, advance t.kindAt L s = .found M → (t.get M).isSome) ∧
      ∀ D r p rest, advance t.kindAt L s = .link D r p rest → t.kindAt D = some .dir := by
  induction s generalizing L with
  | nil =>
    refine ⟨fun M h => ?_, fun D r p rest h => by cases h⟩
    obtain rfl : L = M := by simpa [advance] using h
    rw [← kindAt_isSome, hL]
    rfl
  | cons c s ih =>
    cases c with
    | here => exact ih hL
    | up => exact ih (t.dir_tail hL)
    | down n =>
      cases hk : t.kindAt (n :: L) with
      | none =>
        simp only [advance, hk]
        split <;> exact ⟨by simp, by simp⟩
      | some a =>
        cases a with
        | dir =>
          simp only [advance, hk]
          exact ih hk
        | leaf =>
          simp only [advance, hk]
          split
          · refine ⟨fun M h => ?_, fun D r p rest h => by cases h⟩
            obtain rfl := Stop.found.inj h
            rw [← kindAt_isSome, hk]
            rfl
          · exact ⟨by simp, by simp⟩
        | link r p =>
          simp only [advance, hk]
          refine ⟨by simp, fun D r' p' rest h => ?_⟩
          obtain rfl := (Stop.link.inj h).1
          exact hL

theorem walk_found {h : ℕ} {s : List (Step ν)} (hL : t.kindAt L = some .dir) (hw : walk t.kindAt h L s = .found M) :
    (t.get M).isSome := by
  induction h using Nat.strongRecOn generalizing L s with
  | ind h ih =>
    rcases walk_cases hw (by simp) with ⟨ha, -⟩ | ⟨j, D, r, p, rest, rfl, ha, hj⟩
    · exact (t.advance_found hL).1 M ha
    · have hD := (t.advance_found hL).2 D r p rest ha
      refine ih j (Nat.lt_succ_self j) ?_ hj
      cases r with
      | true => exact t.root_dir
      | false => exact hD

/-- Steps that others come after end in a directory, or at the link that all of them end at. -/
theorem advance_take {s u : List (Step ν)} (hL : t.kindAt L = some .dir) (hu : u ≠ []) :
    advance t.kindAt L (s ++ u) = .stuck ∨ (∃ D, advance t.kindAt L s = .found D ∧ t.kindAt D = some .dir) ∨
      ∃ D r p rest, advance t.kindAt L s = .link D r p rest ∧ t.kindAt D = some .dir := by
  induction s generalizing L with
  | nil => exact .inr (.inl ⟨L, rfl, hL⟩)
  | cons c s ih =>
    cases c with
    | here => exact ih hL
    | up => exact ih (t.dir_tail hL)
    | down n =>
      have hsu : (s ++ u).isEmpty = false := by simp [hu]
      cases hk : t.kindAt (n :: L) with
      | none =>
        refine .inl ?_
        simp only [List.cons_append, advance, hk, hsu]
        rfl
      | some a =>
        cases a with
        | dir =>
          simp only [List.cons_append, advance, hk]
          exact ih hk
        | leaf =>
          refine .inl ?_
          simp only [List.cons_append, advance, hk, hsu]
          rfl
        | link r p => exact .inr (.inr ⟨L, r, p, s, by simp only [advance, hk], hL⟩)

/-- What comes before the last steps of a walk leads to a directory. -/
theorem walk_take {h : ℕ} {s u : List (Step ν)} (hL : t.kindAt L = some .dir) (hu : u ≠ [])
    (hw : walk t.kindAt h L (s ++ u) ≠ .stuck) : ∃ D, walk t.kindAt h L s = .found D ∧ t.kindAt D = some .dir := by
  induction h using Nat.strongRecOn generalizing L s with
  | ind h ih =>
    rcases t.advance_take hL hu with ha | ⟨D, ha, hD⟩ | ⟨D, r, p, rest, ha, hD⟩
    · exact absurd (walk_of_advance ha (by simp)) hw
    · exact ⟨D, walk_of_advance ha (by simp), hD⟩
    · cases h with
      | zero => exact absurd (by simp only [walk, advance_append_link ha]) hw
      | succ j =>
        simp only [walk, advance_append_link ha, ← List.append_assoc] at hw
        simp only [walk, ha]
        refine ih j (Nat.lt_succ_self j) ?_ hw
        cases r with
        | true => exact t.root_dir
        | false => exact hD

variable [DecidableEq ν]

/-- The names in a directory. -/
def children (L : Loc ν) : List ν :=
  (t.locs.filterMap fun
    | n :: M => if M = L ∧ (t.get (n :: M)).isSome then some n else none
    | [] => none).dedup

theorem mem_children : n ∈ t.children L ↔ (t.get (n :: L)).isSome := by
  rw [children, List.mem_dedup, List.mem_filterMap]
  constructor
  · rintro ⟨M, -, hM⟩
    cases M with
    | nil => cases hM
    | cons m M =>
      obtain ⟨⟨rfl, hs⟩, rfl⟩ : (M = L ∧ (t.get (m :: M)).isSome) ∧ m = n := by simpa using hM
      exact hs
  · intro hs
    exact ⟨n :: L, t.mem_locs hs, by simp [hs]⟩

theorem nodup_children : (t.children L).Nodup := List.nodup_dedup _

/-- Nothing stands below a place that has no names in it. -/
theorem none_of_children (hL : t.children L = []) {r : List ν} (hr : r ≠ []) : t.get (r ++ L) = none := by
  obtain ⟨r, n, rfl⟩ := (List.eq_nil_or_concat r).resolve_left hr
  have hn : t.get (n :: L) = none := by
    by_contra hne
    have hm := t.mem_children.mpr (Option.isSome_iff_ne_none.mpr hne)
    rw [hL] at hm
    cases hm
  rw [List.concat_eq_append, List.append_assoc]
  exact t.none_below hn (List.suffix_append r _)

/-- All places where something stands. -/
def entries : Finset (Loc ν) := (t.locs.filter fun L => (t.get L).isSome).toFinset

theorem mem_entries : L ∈ t.entries ↔ (t.get L).isSome := by
  rw [entries, List.mem_toFinset, List.mem_filter]
  exact ⟨fun h => h.2, fun h => ⟨t.mem_locs h, h⟩⟩

/-! ### Changes -/

/-- Change what the entry at a location holds, not its kind. -/
def alter (M : Loc ν) (f : α → α) (hf : ∀ a, kind (f a) = kind a) : Tree kind where
  get L := if L = M then (t.get L).map f else t.get L
  locs := t.locs
  mem_locs {L} hs := t.mem_locs (by split at hs <;> simpa using hs)
  root_dir := by
    have h := t.root_dir
    split <;> simpa [Function.comp_def, hf] using h
  parent_dir {n L} hs := by
    have h := t.parent_dir (n := n) (L := L) (by split at hs <;> simpa using hs)
    split <;> simpa [Function.comp_def, hf] using h

/-- Put an entry into a directory that has none of the name. -/
def insert (n : ν) (D : Loc ν) (a : α) (hD : t.kindAt D = some .dir) (hM : t.get (n :: D) = none) : Tree kind where
  get L := if L = n :: D then some a else t.get L
  locs := (n :: D) :: t.locs
  mem_locs {L} hs := by
    split at hs
    · rename_i hL; exact hL ▸ List.mem_cons_self
    · exact List.mem_cons_of_mem _ (t.mem_locs hs)
  root_dir := by simpa using t.root_dir
  parent_dir {m L} hs := by
    by_cases hL : m :: L = n :: D
    · obtain ⟨rfl, rfl⟩ := List.cons.inj hL
      rw [if_neg (List.ne_cons_self)]
      exact hD
    · rw [if_neg hL] at hs
      rw [if_neg]
      · exact t.parent_dir hs
      · rintro rfl
        rw [t.none_below hM (List.suffix_cons m _)] at hs
        cases hs

/-- Take away an entry that is not the root and has nothing below it. -/
def erase (n : ν) (D : Loc ν) (hn : t.children (n :: D) = []) : Tree kind where
  get L := if L = n :: D then none else t.get L
  locs := t.locs
  mem_locs {L} hs := t.mem_locs (by split at hs <;> simp_all)
  root_dir := by simpa using t.root_dir
  parent_dir {m L} hs := by
    have hs' : (t.get (m :: L)).isSome := by split at hs <;> simp_all
    rw [if_neg]
    · exact t.parent_dir hs'
    · rintro rfl
      have hm := t.mem_children.mpr hs'
      rw [hn] at hm
      cases hm

/-- Move the entry at `n :: D`, and all below it, to `m :: E`, in place of what is there. -/
def move (n : ν) (D : Loc ν) (m : ν) (E : Loc ν) (hE : t.kindAt E = some .dir) (hin : ¬ (n :: D) <:+ E) :
    Tree kind where
  get L :=
    match L.dropSuffix? (m :: E) with
    | some r => t.get (r ++ n :: D)
    | none => if (n :: D) <:+ L then none else t.get L
  locs := t.locs ++ t.locs.filterMap fun L => (L.dropSuffix? (n :: D)).map (· ++ m :: E)
  mem_locs {L} hs := by
    split at hs
    · rename_i r hr
      obtain rfl := dropSuffix?_eq_some.mp hr
      refine List.mem_append_right _ (List.mem_filterMap.mpr ⟨_, t.mem_locs hs, ?_⟩)
      rw [dropSuffix?_eq_some.mpr rfl]
      rfl
    · split at hs
      · cases hs
      · exact List.mem_append_left _ (t.mem_locs hs)
  root_dir := by
    rw [dropSuffix?_eq_none.mpr (by simp)]
    simpa using t.root_dir
  parent_dir {x L} hs := by
    by_cases hx : (m :: E) <:+ x :: L
    · obtain ⟨r, hr⟩ := hx
      cases r with
      | nil =>
        obtain ⟨rfl, rfl⟩ := List.cons.inj hr
        rw [dropSuffix?_eq_none.mpr fun h => absurd h.length_le (by simp)]
        exact (if_neg hin).symm ▸ hE
      | cons y r =>
        obtain ⟨rfl, hL⟩ := List.cons.inj hr
        rw [dropSuffix?_eq_some.mpr hr.symm] at hs
        rw [dropSuffix?_eq_some.mpr hL.symm]
        exact t.parent_dir hs
    · rw [dropSuffix?_eq_none.mpr hx] at hs
      by_cases hn : (n :: D) <:+ x :: L
      · rw [if_pos hn] at hs
        cases hs
      · rw [if_neg hn] at hs
        rw [dropSuffix?_eq_none.mpr fun h => hx (h.trans (List.suffix_cons x L))]
        simpa only [if_neg fun h => hn (List.IsSuffix.trans h (List.suffix_cons x L))] using t.parent_dir hs

/-- The tree of the entries in a list. -/
def ofList (l : List (Loc ν × α)) (hroot : (l.lookup []).map kind = some .dir)
    (hdir : ∀ x ∈ l, x.1 = [] ∨ (l.lookup x.1.tail).map kind = some .dir) : Tree kind where
  get L := l.lookup L
  locs := l.map Prod.fst
  mem_locs {L} hs := by
    obtain ⟨a, ha⟩ := Option.isSome_iff_exists.mp hs
    obtain ⟨l₁, l₂, rfl, -⟩ := List.lookup_eq_some_iff.mp ha
    simp
  root_dir := hroot
  parent_dir {n L} hs := by
    obtain ⟨a, ha⟩ := Option.isSome_iff_exists.mp hs
    obtain ⟨l₁, l₂, hl, -⟩ := List.lookup_eq_some_iff.mp ha
    rcases hdir (n :: L, a) (by simp [hl]) with h | h
    · cases h
    · exact h

section Lookups

variable {t} {f : α → α} {hf : ∀ a, kind (f a) = kind a} {a : α} {hD : t.kindAt D = some .dir}
  {hM : t.get (n :: D) = none} {hn : t.children (n :: D) = []}

theorem get_alter : (t.alter M f hf).get L = if L = M then (t.get L).map f else t.get L := rfl

theorem get_insert : (t.insert n D a hD hM).get L = if L = n :: D then some a else t.get L := rfl

theorem get_erase : (t.erase n D hn).get L = if L = n :: D then none else t.get L := rfl

@[simp] theorem kindAt_alter : (t.alter M f hf).kindAt = t.kindAt := by
  funext L
  rw [kindAt, get_alter]
  split <;> simp [kindAt, Function.comp_def, hf]

theorem kindAt_insert : (t.insert n D a hD hM).kindAt = Function.update t.kindAt (n :: D) (some (kind a)) := by
  funext L
  rw [kindAt, get_insert, Function.update_apply]
  split <;> rfl

theorem kindAt_erase : (t.erase n D hn).kindAt = Function.update t.kindAt (n :: D) none := by
  funext L
  rw [kindAt, get_erase, Function.update_apply]
  split <;> rfl

end Lookups

end Tree

/-! ### A tree in use -/

/-- A tree, the tree it was at first, and the places changed in between. -/
structure Disk (kind : α → Kind ν) (β : Type*) where
  /-- The tree at first. -/
  initial : Tree kind
  /-- The tree now. -/
  tree : Tree kind
  /-- Every place changed since, latest first, with what was done there. -/
  journal : List (β × Loc ν)
  frame : ∀ L, (∀ b, (b, L) ∉ journal) → tree.get L = initial.get L

/-- Everything done to get from `d` to `d'` satisfies `P`, and where nothing does the trees agree. -/
structure Since (P : β → Loc ν → Prop) (d d' : Disk kind β) : Prop where
  initial : d'.initial = d.initial
  journal : ∃ J, d'.journal = J ++ d.journal ∧ ∀ x ∈ J, P x.1 x.2
  frame : ∀ L, (∀ b, ¬ P b L) → d'.tree.get L = d.tree.get L

namespace Disk

/-- A tree of which nothing has been changed. -/
def start (t : Tree kind) : Disk kind β := ⟨t, t, [], fun _ _ => rfl⟩

variable [DecidableEq ν] (d : Disk kind β) (b : β)

/-- Change what an entry holds. -/
def alter (M : Loc ν) (f : α → α) (hf : ∀ a, kind (f a) = kind a) : Disk kind β where
  initial := d.initial
  tree := d.tree.alter M f hf
  journal := (b, M) :: d.journal
  frame L hL := by
    have hne : L ≠ M := by rintro rfl; exact hL b List.mem_cons_self
    rw [Tree.get_alter, if_neg hne]
    exact d.frame L fun c hc => hL c (List.mem_cons_of_mem _ hc)

/-- Put a new entry into a directory. -/
def insert (n : ν) (D : Loc ν) (a : α) (hD : d.tree.kindAt D = some .dir) (hM : d.tree.get (n :: D) = none) :
    Disk kind β where
  initial := d.initial
  tree := d.tree.insert n D a hD hM
  journal := (b, n :: D) :: d.journal
  frame L hL := by
    have hne : L ≠ n :: D := by rintro rfl; exact hL b List.mem_cons_self
    rw [Tree.get_insert, if_neg hne]
    exact d.frame L fun c hc => hL c (List.mem_cons_of_mem _ hc)

/-- Take away an entry that has nothing below it. -/
def erase (n : ν) (D : Loc ν) (hn : d.tree.children (n :: D) = []) : Disk kind β where
  initial := d.initial
  tree := d.tree.erase n D hn
  journal := (b, n :: D) :: d.journal
  frame L hL := by
    have hne : L ≠ n :: D := by rintro rfl; exact hL b List.mem_cons_self
    rw [Tree.get_erase, if_neg hne]
    exact d.frame L fun c hc => hL c (List.mem_cons_of_mem _ hc)

/-- Move an entry and all below it; each place left, taken or overwritten is changed. -/
def move (n : ν) (D : Loc ν) (m : ν) (E : Loc ν) (hE : d.tree.kindAt E = some .dir) (hin : ¬ (n :: D) <:+ E) :
    Disk kind β where
  initial := d.initial
  tree := d.tree.move n D m E hE hin
  journal :=
    (((d.tree.move n D m E hE hin).locs.filter fun L =>
      ((n :: D) <:+ L ∨ (m :: E) <:+ L) ∧
        ((d.tree.get L).isSome ∨ ((d.tree.move n D m E hE hin).get L).isSome)).map fun L => (b, L)) ++ d.journal
  frame L hL := by
    rw [← d.frame L fun c hc => hL c (List.mem_append_right _ hc)]
    have hout : ∀ {L}, (d.tree.get L).isSome → L ∈ (d.tree.move n D m E hE hin).locs := fun hs =>
      List.mem_append_left _ (d.tree.mem_locs hs)
    by_cases hc : (n :: D) <:+ L ∨ (m :: E) <:+ L
    · have hnone : ¬ ((d.tree.get L).isSome ∨ ((d.tree.move n D m E hE hin).get L).isSome) := fun hs =>
        hL b (List.mem_append_left _ (List.mem_map.mpr ⟨L, List.mem_filter.mpr
          ⟨hs.elim hout (Tree.mem_locs _), by simpa using ⟨hc, hs⟩⟩, rfl⟩))
      rw [not_or, Option.not_isSome_iff_eq_none, Option.not_isSome_iff_eq_none] at hnone
      rw [hnone.1, hnone.2]
    · rw [not_or] at hc
      simp only [Tree.move, dropSuffix?_eq_none.mpr hc.2, if_neg hc.1]

section Lookups

variable {d b} {M D : Loc ν} {n : ν} {f : α → α} {hf : ∀ a, kind (f a) = kind a} {a : α}
  {hD : d.tree.kindAt D = some .dir} {hM : d.tree.get (n :: D) = none} {hn : d.tree.children (n :: D) = []}

@[simp] theorem kindAt_alter : (d.alter b M f hf).tree.kindAt = d.tree.kindAt := by
  rw [alter, Tree.kindAt_alter]

theorem kindAt_insert :
    (d.insert b n D a hD hM).tree.kindAt = Function.update d.tree.kindAt (n :: D) (some (kind a)) := by
  rw [insert, Tree.kindAt_insert]

theorem kindAt_erase : (d.erase b n D hn).tree.kindAt = Function.update d.tree.kindAt (n :: D) none := by
  rw [erase, Tree.kindAt_erase]

end Lookups

end Disk

namespace Since

variable {P Q : β → Loc ν → Prop} {d d' d'' : Disk kind β}

theorem refl (d : Disk kind β) : Since P d d := ⟨rfl, ⟨[], rfl, by simp⟩, fun _ _ => rfl⟩

theorem trans (h : Since P d d') (h' : Since P d' d'') : Since P d d'' := by
  obtain ⟨hi, ⟨J, hJ, hP⟩, hf⟩ := h
  obtain ⟨hi', ⟨J', hJ', hP'⟩, hf'⟩ := h'
  refine ⟨hi'.trans hi, ⟨J' ++ J, by rw [hJ', hJ, List.append_assoc], fun x hx => ?_⟩,
    fun L hL => (hf' L hL).trans (hf L hL)⟩
  rcases List.mem_append.mp hx with hx | hx
  · exact hP' x hx
  · exact hP x hx

theorem mono (h : Since P d d') (hPQ : ∀ b L, P b L → Q b L) : Since Q d d' := by
  obtain ⟨hi, ⟨J, hJ, hP⟩, hf⟩ := h
  exact ⟨hi, ⟨J, hJ, fun x hx => hPQ _ _ (hP x hx)⟩, fun L hL => hf L fun b hb => hL b (hPQ b L hb)⟩

/-- The journal only grows. -/
theorem mem (h : Since P d d') {x : β × Loc ν} (hx : x ∈ d.journal) : x ∈ d'.journal := by
  obtain ⟨-, ⟨J, hJ, -⟩, -⟩ := h
  rw [hJ]
  exact List.mem_append_right J hx

/-- A word and place of the later journal that the earlier one does not have satisfy `P`. -/
theorem of_mem (h : Since P d d') {b : β} {L : Loc ν} (hd' : (b, L) ∈ d'.journal) (hd : (b, L) ∉ d.journal) : P b L := by
  obtain ⟨-, ⟨J, hJ, hP⟩, -⟩ := h
  rw [hJ] at hd'
  exact hP (b, L) ((List.mem_append.mp hd').resolve_right hd)

/-- What has changed is in the journal, with a word that satisfies `P`. -/
theorem exists_mem {t : Tree kind} (h : Since P (Disk.start t) d') {L : Loc ν} (hL : d'.tree.get L ≠ t.get L) :
    ∃ b, (b, L) ∈ d'.journal ∧ P b L := by
  by_contra hnone
  refine hL ((d'.frame L fun b hb => hnone ⟨b, hb, ?_⟩).trans (by rw [h.initial]; rfl))
  exact h.of_mem hb List.not_mem_nil

variable [DecidableEq ν] {b : β} {M D : Loc ν} {n m : ν} {E : Loc ν}

theorem alter {f : α → α} {hf : ∀ a, kind (f a) = kind a} (hP : P b M) : Since P d (d.alter b M f hf) := by
  refine ⟨rfl, ⟨[(b, M)], rfl, by simpa using hP⟩, fun L hL => if_neg ?_⟩
  rintro rfl
  exact hL b hP

theorem insert {a : α} {hD : d.tree.kindAt D = some .dir} {hM : d.tree.get (n :: D) = none} (hP : P b (n :: D)) :
    Since P d (d.insert b n D a hD hM) := by
  refine ⟨rfl, ⟨[(b, n :: D)], rfl, by simpa using hP⟩, fun L hL => if_neg ?_⟩
  rintro rfl
  exact hL b hP

theorem erase {hn : d.tree.children (n :: D) = []} (hP : P b (n :: D)) : Since P d (d.erase b n D hn) := by
  refine ⟨rfl, ⟨[(b, n :: D)], rfl, by simpa using hP⟩, fun L hL => if_neg ?_⟩
  rintro rfl
  exact hL b hP

/-- A move, where what stands at its two places or below them, before it or after it, satisfies `P`. -/
theorem move {hE : d.tree.kindAt E = some .dir} {hin : ¬ (n :: D) <:+ E}
    (hP : ∀ L, (n :: D) <:+ L ∨ (m :: E) <:+ L →
      (d.tree.get L).isSome ∨ ((d.tree.move n D m E hE hin).get L).isSome → P b L) :
    Since P d (d.move b n D m E hE hin) := by
  refine ⟨rfl, ⟨_, rfl, fun x hx => ?_⟩, fun L hL => ?_⟩
  · obtain ⟨L, hmem, rfl⟩ := List.mem_map.mp hx
    obtain ⟨hc, hs⟩ := of_decide_eq_true (List.mem_filter.mp hmem).2
    exact hP L hc hs
  · by_cases hc : (n :: D) <:+ L ∨ (m :: E) <:+ L
    · have hnone : ¬ ((d.tree.get L).isSome ∨ ((d.tree.move n D m E hE hin).get L).isSome) := fun hs => hL b (hP L hc hs)
      rw [not_or, Option.not_isSome_iff_eq_none, Option.not_isSome_iff_eq_none] at hnone
      exact hnone.2.trans hnone.1.symm
    · rw [not_or] at hc
      simp only [Disk.move, Tree.move, dropSuffix?_eq_none.mpr hc.2, if_neg hc.1]

end Since

end OpenshiftConsole.Library.FileTree
