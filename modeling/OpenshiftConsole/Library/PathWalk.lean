import Mathlib.Data.List.Basic
import Mathlib.Tactic.Common

/-!
# Path resolution

What a path leads to in a tree of directories, symbolic links and other entries. The
tree is seen through a function that says what kind of entry stands at a location, if
one does. A location is the list of the names on the way to it, innermost first: the
directory of `n :: L` is `L`, the root is `[]`, and `A <:+ L` says that `L` is at or
below `A`.

`walk` takes the steps of a path one by one, follows each symbolic link it meets (the
last step's too) and gives up after a number of them. It ends on an entry, on a place
where only the last name is missing, or nowhere. Three facts carry what is proved of
programs that make directories on their way: a walk that ends on an entry still does
when entries are added elsewhere (`walk_found_of_extends`); so does one that ends on
a missing place once an entry is put there (`walk_found_of_missing`); and the tree in
which every missing place is taken for a directory (`fill`) does not change when such
a directory is made (`fill_update`).
-/

namespace OpenshiftConsole.Library.PathWalk

variable {ν : Type*}

/-- A location: the names on the way to it from the root, innermost first. -/
abbrev Loc (ν : Type*) := List ν

/-- One component of a path. -/
inductive Step (ν : Type*) where
  /-- `.`, or what a trailing slash stands for. -/
  | here
  /-- `..` -/
  | up
  /-- A name. -/
  | down (n : ν)
  deriving DecidableEq

/-- What matters of an entry for the walk. -/
inductive Kind (ν : Type*) where
  | dir
  /-- A symbolic link: whether its target starts at the root, and the target's steps. -/
  | link (rooted : Bool) (path : List (Step ν))
  /-- Any other entry. -/
  | leaf
  deriving DecidableEq

/-- Where a walk ends. -/
inductive Stop (ν : Type*) where
  /-- On an entry. -/
  | found (L : Loc ν)
  /-- In a directory that has no entry of the last name. -/
  | missing (L : Loc ν)
  /-- At a link in directory `L`, with the steps still to take after its target. -/
  | link (L : Loc ν) (rooted : Bool) (path rest : List (Step ν))
  /-- A name is missing on the way, a step starts from no directory, or there are too many links. -/
  | stuck
  deriving DecidableEq

/-! ### The walk -/

/-- The walk up to the first link. -/
def advance (k : Loc ν → Option (Kind ν)) : Loc ν → List (Step ν) → Stop ν
  | L, [] => .found L
  | L, .here :: s => advance k L s
  | L, .up :: s => advance k L.tail s
  | L, .down n :: s =>
    match k (n :: L) with
    | none => if s.isEmpty then .missing (n :: L) else .stuck
    | some .dir => advance k (n :: L) s
    | some .leaf => if s.isEmpty then .found (n :: L) else .stuck
    | some (.link r p) => .link L r p s

/-- The walk from directory `L`, through at most `h` links. -/
def walk (k : Loc ν → Option (Kind ν)) : ℕ → Loc ν → List (Step ν) → Stop ν
  | 0, L, s =>
    match advance k L s with
    | .link .. => .stuck
    | t => t
  | h + 1, L, s =>
    match advance k L s with
    | .link D r p rest => walk k h (if r then [] else D) (p ++ rest)
    | t => t

variable {k k' : Loc ν → Option (Kind ν)} {h : ℕ} {L M D : Loc ν} {s i : List (Step ν)} {n : ν}

/-- A step down ends the walk on an entry that is no directory, and goes on into one that is. -/
theorem advance_down_eq_found :
    advance k L (.down n :: s) = .found M ↔
      k (n :: L) = some .dir ∧ advance k (n :: L) s = .found M ∨ k (n :: L) = some .leaf ∧ s = [] ∧ n :: L = M := by
  rw [advance]
  cases hk : k (n :: L) with
  | none => cases s <;> simp
  | some a =>
    cases a with
    | dir => simp
    | link r p => simp
    | leaf => cases s <;> simp

theorem advance_down_eq_missing :
    advance k L (.down n :: s) = .missing M ↔
      k (n :: L) = some .dir ∧ advance k (n :: L) s = .missing M ∨ k (n :: L) = none ∧ s = [] ∧ n :: L = M := by
  rw [advance]
  cases hk : k (n :: L) with
  | none => cases s <;> simp
  | some a =>
    cases a with
    | dir => simp
    | link r p => simp
    | leaf => cases s <;> simp

theorem advance_down_eq_link {r : Bool} {p rest : List (Step ν)} :
    advance k L (.down n :: s) = .link D r p rest ↔
      k (n :: L) = some .dir ∧ advance k (n :: L) s = .link D r p rest ∨
        k (n :: L) = some (.link r p) ∧ L = D ∧ s = rest := by
  rw [advance]
  cases hk : k (n :: L) with
  | none => cases s <;> simp
  | some a =>
    cases a with
    | dir => simp
    | link r' p' =>
      simp
      tauto
    | leaf => cases s <;> simp

theorem walk_of_advance {t : Stop ν} (ha : advance k L s = t) (ht : ∀ D r p rest, t ≠ .link D r p rest) :
    walk k h L s = t := by
  subst ha
  cases ha : advance k L s with
  | link D r p rest => exact absurd ha (ht D r p rest)
  | found | missing | stuck => cases h <;> simp [walk, ha]

/-- A walk that does not get stuck ends before the first link, or goes on from there. -/
theorem walk_cases {t : Stop ν} (hw : walk k h L s = t) (ht : t ≠ .stuck) :
    (advance k L s = t ∧ ∀ D r p rest, t ≠ .link D r p rest) ∨
      ∃ j D r p rest, h = j + 1 ∧ advance k L s = .link D r p rest ∧
        walk k j (if r then [] else D) (p ++ rest) = t := by
  subst hw
  cases h with
  | zero => cases ha : advance k L s <;> simp_all [walk]
  | succ j =>
    cases ha : advance k L s with
    | link D r p rest => exact .inr ⟨j, D, r, p, rest, rfl, rfl, by simp [walk, ha]⟩
    | found | missing | stuck => exact .inl ⟨by simp [walk, ha], by simp [walk, ha]⟩

/-! ### Trees with more entries -/

/-- Every entry of the one tree stands in the other, with its kind. -/
def Extends (k k' : Loc ν → Option (Kind ν)) : Prop := ∀ L a, k L = some a → k' L = some a

theorem Extends.refl (k : Loc ν → Option (Kind ν)) : Extends k k := fun _ _ => id

theorem Extends.trans {k'' : Loc ν → Option (Kind ν)} (h₁ : Extends k k') (h₂ : Extends k' k'') : Extends k k'' :=
  fun L a ha => h₂ L a (h₁ L a ha)

theorem Extends.eq_none (he : Extends k k') (hM : k' M = none) : k M = none := by
  cases hk : k M with
  | none => rfl
  | some a => rw [he M a hk] at hM; cases hM

/-- The walk up to the first link only notices new entries where it misses one. -/
theorem advance_extends (he : Extends k k') (L : Loc ν) (s : List (Step ν)) :
    (∃ M, advance k L s = .missing M) ∨ advance k L s = .stuck ∨ advance k' L s = advance k L s := by
  induction s generalizing L with
  | nil => exact .inr (.inr rfl)
  | cons c s ih =>
    cases c with
    | here => exact ih L
    | up => exact ih L.tail
    | down n =>
      simp only [advance]
      cases hk : k (n :: L) with
      | none =>
        cases s with
        | nil => exact .inl ⟨n :: L, rfl⟩
        | cons => exact .inr (.inl rfl)
      | some a =>
        rw [he _ _ hk]
        cases a with
        | dir => exact ih (n :: L)
        | link | leaf => exact .inr (.inr rfl)

/-- A walk that ends on an entry ends there in every tree with more entries. -/
theorem walk_found_of_extends (he : Extends k k') (hw : walk k h L s = .found M) : walk k' h L s = .found M := by
  induction h using Nat.strongRecOn generalizing L s with
  | ind h ih =>
    rcases walk_cases hw (by simp) with ⟨ha, -⟩ | ⟨j, D, r, p, rest, rfl, ha, hj⟩
    · rcases advance_extends he L s with ⟨M', h'⟩ | h' | h'
      · rw [ha] at h'; cases h'
      · rw [ha] at h'; cases h'
      · exact walk_of_advance (h'.trans ha) (by simp)
    · rcases advance_extends he L s with ⟨M', h'⟩ | h' | h'
      · rw [ha] at h'; cases h'
      · rw [ha] at h'; cases h'
      · simp only [walk, h', ha]
        exact ih j (Nat.lt_succ_self j) hj

theorem advance_missing (ha : advance k L s = .missing M) :
    k M = none ∧ ∀ k', Extends k k' →
      (k' M = none → advance k' L s = .missing M) ∧
        (k' M = some .dir ∨ k' M = some .leaf → advance k' L s = .found M) := by
  induction s generalizing L with
  | nil => cases ha
  | cons c s ih =>
    cases c with
    | here => exact ih ha
    | up => exact ih ha
    | down n =>
      rcases advance_down_eq_missing.mp ha with ⟨hk, ha⟩ | ⟨hk, rfl, rfl⟩
      · obtain ⟨h₁, h₂⟩ := ih ha
        refine ⟨h₁, fun k' he => ?_⟩
        simp only [advance, he _ _ hk]
        exact h₂ k' he
      · exact ⟨hk, fun k' _ => ⟨fun h' => by simp [advance, h'], by rintro (h' | h') <;> simp [h', advance]⟩⟩

/-- A place that a walk misses is empty, and the walk ends there in every tree with
more entries, on an entry once a directory or another entry that is no link is put there. -/
theorem walk_missing (hw : walk k h L s = .missing M) :
    k M = none ∧ ∀ k', Extends k k' →
      (k' M = none → walk k' h L s = .missing M) ∧
        (k' M = some .dir ∨ k' M = some .leaf → walk k' h L s = .found M) := by
  induction h using Nat.strongRecOn generalizing L s with
  | ind h ih =>
    rcases walk_cases hw (by simp) with ⟨ha, -⟩ | ⟨j, D, r, p, rest, rfl, ha, hj⟩
    · obtain ⟨h₁, h₂⟩ := advance_missing ha
      exact ⟨h₁, fun k' he =>
        ⟨fun hM => walk_of_advance ((h₂ k' he).1 hM) (by simp), fun hM => walk_of_advance ((h₂ k' he).2 hM) (by simp)⟩⟩
    · obtain ⟨h₁, h₂⟩ := ih j (Nat.lt_succ_self j) hj
      refine ⟨h₁, fun k' he => ?_⟩
      rcases advance_extends he L s with ⟨M', h'⟩ | h' | h'
      · rw [ha] at h'; cases h'
      · rw [ha] at h'; cases h'
      · simp only [walk, h', ha]
        exact h₂ k' he

theorem walk_found_of_missing (hw : walk k h L s = .missing M) (he : Extends k k')
    (hM : k' M = some .dir ∨ k' M = some .leaf) : walk k' h L s = .found M :=
  ((walk_missing hw).2 k' he).2 hM

/-! ### One more name -/

theorem advance_append (ha : advance k L s = .found D) (hD : k D = some .dir) (t : List (Step ν)) :
    advance k L (s ++ t) = advance k D t := by
  induction s generalizing L with
  | nil =>
    obtain rfl : L = D := by simpa [advance] using ha
    rfl
  | cons c s ih =>
    cases c with
    | here => exact ih ha
    | up => exact ih ha
    | down n =>
      rcases advance_down_eq_found.mp ha with ⟨hk, ha⟩ | ⟨hk, rfl, rfl⟩
      · simp only [List.cons_append, advance, hk]
        exact ih ha
      · rw [hk] at hD
        cases hD

theorem advance_append_link {r : Bool} {p rest : List (Step ν)} (ha : advance k L s = .link D r p rest)
    (t : List (Step ν)) : advance k L (s ++ t) = .link D r p (rest ++ t) := by
  induction s generalizing L with
  | nil => cases ha
  | cons c s ih =>
    cases c with
    | here => exact ih ha
    | up => exact ih ha
    | down n =>
      rcases advance_down_eq_link.mp ha with ⟨hk, ha⟩ | ⟨hk, rfl, rfl⟩
      · simp only [List.cons_append, advance, hk]
        exact ih ha
      · simp only [List.cons_append, advance, hk]

/-- From a directory that a walk ends in, steps that meet no link can be taken as well. -/
theorem walk_append (hw : walk k h L s = .found D) (hD : k D = some .dir) {t : List (Step ν)} {u : Stop ν}
    (ht : advance k D t = u) (hu : ∀ D r p rest, u ≠ .link D r p rest) : walk k h L (s ++ t) = u := by
  induction h using Nat.strongRecOn generalizing L s with
  | ind h ih =>
    rcases walk_cases hw (by simp) with ⟨ha, -⟩ | ⟨j, E, r, p, rest, rfl, ha, hj⟩
    · exact walk_of_advance ((advance_append ha hD t).trans ht) hu
    · simp only [walk, advance_append_link ha]
      rw [← List.append_assoc]
      exact ih j (Nat.lt_succ_self j) hj

theorem walk_down_missing (hw : walk k h L s = .found D) (hD : k D = some .dir) (hn : k (n :: D) = none) :
    walk k h L (s ++ [.down n]) = .missing (n :: D) :=
  walk_append hw hD (by simp [advance, hn]) (by simp)

theorem walk_down_found (hw : walk k h L s = .found D) (hD : k D = some .dir)
    (hn : k (n :: D) = some .dir ∨ k (n :: D) = some .leaf) : walk k h L (s ++ [.down n]) = .found (n :: D) :=
  walk_append hw hD (by rcases hn with hn | hn <;> simp [advance, hn]) (by simp)

/-! ### Steps that stay -/

/-- `s` is `t` without some of its steps that stay where they are. -/
inductive Skips : List (Step ν) → List (Step ν) → Prop where
  | nil : Skips [] []
  | here {s t : List (Step ν)} : Skips s t → Skips s (.here :: t)
  | cons {s t : List (Step ν)} (c : Step ν) : Skips s t → Skips (c :: s) (c :: t)

theorem Skips.append_left {s t : List (Step ν)} (h : Skips s t) (p : List (Step ν)) : Skips (p ++ s) (p ++ t) := by
  induction p with
  | nil => exact h
  | cons c p ih => exact .cons c ih

theorem Skips.filter [DecidableEq ν] (s : List (Step ν)) : Skips (s.filter (· ≠ .here)) s := by
  induction s with
  | nil => exact .nil
  | cons c s ih =>
    by_cases hc : c = .here
    · subst hc
      simpa using ih.here
    · rw [List.filter_cons_of_pos (by simpa using hc)]
      exact ih.cons c

theorem advance_skips {t : List (Step ν)} (hs : Skips s t) (ha : advance k L s = .found M) (hM : k M = some .dir) :
    advance k L t = .found M := by
  induction hs generalizing L with
  | nil => exact ha
  | here _ ih => exact ih ha
  | @cons s t c _ ih =>
    cases c with
    | here => exact ih ha
    | up => exact ih ha
    | down n =>
      rcases advance_down_eq_found.mp ha with ⟨hk, ha⟩ | ⟨hk, rfl, rfl⟩
      · exact advance_down_eq_found.mpr (.inl ⟨hk, ih ha⟩)
      · rw [hk] at hM
        cases hM

theorem advance_skips_link {t : List (Step ν)} (hs : Skips s t) {r : Bool} {p rest : List (Step ν)}
    (ha : advance k L s = .link D r p rest) : ∃ rest', advance k L t = .link D r p rest' ∧ Skips rest rest' := by
  induction hs generalizing L with
  | nil => cases ha
  | here _ ih => exact ih ha
  | @cons s t c hst ih =>
    cases c with
    | here => exact ih ha
    | up => exact ih ha
    | down n =>
      rcases advance_down_eq_link.mp ha with ⟨hk, ha⟩ | ⟨hk, rfl, rfl⟩
      · obtain ⟨rest', ha', hr⟩ := ih ha
        exact ⟨rest', advance_down_eq_link.mpr (.inl ⟨hk, ha'⟩), hr⟩
      · exact ⟨t, advance_down_eq_link.mpr (.inr ⟨hk, rfl, rfl⟩), hst⟩

/-- Steps that stay do not matter to a walk that ends in a directory. -/
theorem walk_skips {t : List (Step ν)} (hs : Skips s t) (hw : walk k h L s = .found M) (hM : k M = some .dir) :
    walk k h L t = .found M := by
  induction h using Nat.strongRecOn generalizing L s t with
  | ind h ih =>
    rcases walk_cases hw (by simp) with ⟨ha, -⟩ | ⟨j, D, r, p, rest, rfl, ha, hj⟩
    · exact walk_of_advance (advance_skips hs ha hM) (by simp)
    · obtain ⟨rest', ha', hr⟩ := advance_skips_link hs ha
      simp only [walk, ha']
      exact ih j (Nat.lt_succ_self j) (hr.append_left p) hj

/-! ### The last name, not followed -/

/-- The steps before the last one, and the last one's name, if it is one. -/
def splitLast (s : List (Step ν)) : Option (List (Step ν) × ν) :=
  match s.getLast? with
  | some (.down n) => some (s.dropLast, n)
  | _ => none

theorem splitLast_eq_some : splitLast s = some (i, n) ↔ s = i ++ [.down n] := by
  constructor
  · intro hs
    rw [splitLast] at hs
    split at hs
    · rename_i m hm
      obtain ⟨rfl, rfl⟩ : s.dropLast = i ∧ m = n := by simpa using hs
      exact (List.dropLast_append_getLast? _ hm).symm
    · cases hs
  · rintro rfl
    simp [splitLast]

/-- The place that a path names without following its last name: in the directory
that the steps before it lead to. -/
def place [DecidableEq ν] (k : Loc ν → Option (Kind ν)) (h : ℕ) (s : List (Step ν)) : Option (Loc ν) :=
  match splitLast s with
  | none => none
  | some (i, n) =>
    match walk k h [] i with
    | .found D => if k D = some .dir then some (n :: D) else none
    | _ => none

theorem place_eq_some [DecidableEq ν] :
    place k h s = some M ↔
      ∃ i n D, s = i ++ [.down n] ∧ walk k h [] i = .found D ∧ k D = some .dir ∧ M = n :: D := by
  constructor
  · intro hp
    rw [place] at hp
    split at hp
    · cases hp
    · rename_i i n hs
      split at hp
      · rename_i D hw
        split at hp
        · rename_i hD
          exact ⟨i, n, D, splitLast_eq_some.mp hs, hw, hD, by simpa using hp.symm⟩
        · cases hp
      · cases hp
  · rintro ⟨i, n, D, rfl, hw, hD, rfl⟩
    simp [place, splitLast_eq_some.mpr rfl, hw, hD]

/-- The place that steps from `L` name without following the last of them. -/
def Picks (k : Loc ν → Option (Kind ν)) (h : ℕ) (L : Loc ν) (s : List (Step ν)) (M : Loc ν) : Prop :=
  ∃ i n D, s = i ++ [.down n] ∧ walk k h L i = .found D ∧ M = n :: D

theorem picks_of_place [DecidableEq ν] (hp : place k h s = some M) : Picks k h [] s M := by
  obtain ⟨i, n, D, hs, hw, -, hM⟩ := place_eq_some.mp hp
  exact ⟨i, n, D, hs, hw, hM⟩

theorem Picks.place [DecidableEq ν] (hp : Picks k h [] s (n :: D)) (hD : k D = some .dir) : place k h s = some (n :: D) := by
  obtain ⟨i, m, E, hs, hw, hM⟩ := hp
  obtain ⟨rfl, rfl⟩ := List.cons.inj hM
  exact place_eq_some.mpr ⟨i, n, D, hs, hw, hD, rfl⟩

theorem not_picks_nil : ¬ Picks k h L [] M := by
  rintro ⟨i, n, D, hs, -, -⟩
  simp at hs

theorem picks_singleton : Picks k h L [.down n] M ↔ M = n :: L := by
  have hhere : walk k h L [] = .found L := walk_of_advance rfl (by simp)
  constructor
  · rintro ⟨i, m, D, hs, hw, rfl⟩
    have hsplit : [] ++ [Step.down n] = i ++ [.down m] := hs
    obtain ⟨rfl, hm⟩ := List.append_inj' hsplit rfl
    obtain rfl := Step.down.inj (List.singleton_injective hm)
    obtain rfl : L = D := Stop.found.inj (hhere.symm.trans hw)
    rfl
  · rintro rfl
    exact ⟨[], n, L, rfl, hhere, rfl⟩

/-- The first of several steps is one of those that are followed. -/
theorem picks_cons {c : Step ν} (hs : s ≠ []) :
    Picks k h L (c :: s) M ↔ ∃ i n D, s = i ++ [.down n] ∧ walk k h L (c :: i) = .found D ∧ M = n :: D := by
  constructor
  · rintro ⟨i, n, D, hi, hw, rfl⟩
    cases i with
    | nil => exact absurd (List.cons.inj hi).2 hs
    | cons c' i =>
      obtain ⟨rfl, rfl⟩ := List.cons.inj hi
      exact ⟨i, n, D, rfl, hw, rfl⟩
  · rintro ⟨i, n, D, rfl, hw, rfl⟩
    exact ⟨c :: i, n, D, rfl, hw, rfl⟩

theorem picks_up : Picks k h L (.up :: s) M ↔ Picks k h L.tail s M := by
  have hwalk : ∀ i, walk k h L (.up :: i) = walk k h L.tail i := fun i => by cases h <;> rfl
  by_cases hs : s = []
  · subst hs
    refine ⟨fun hp => ?_, fun hp => absurd hp not_picks_nil⟩
    obtain ⟨i, n, D, hi, -, -⟩ := hp
    have hsplit : [] ++ [Step.up] = i ++ [.down n] := hi
    exact absurd (List.append_inj' hsplit rfl).2 (by simp)
  · rw [picks_cons hs]
    simp only [hwalk, Picks]

theorem picks_down_dir (hs : s ≠ []) (hn : k (n :: L) = some .dir) :
    Picks k h L (.down n :: s) M ↔ Picks k h (n :: L) s M := by
  have hwalk : ∀ i, walk k h L (.down n :: i) = walk k h (n :: L) i := fun i => by cases h <;> simp only [walk, advance, hn]
  rw [picks_cons hs]
  simp only [hwalk, Picks]

theorem not_picks_down_none (hs : s ≠ []) (hn : k (n :: L) = none) : ¬ Picks k h L (.down n :: s) M := by
  rw [picks_cons hs]
  rintro ⟨i, m, D, -, hw, -⟩
  cases h <;> cases i <;> simp [walk, advance, hn] at hw

theorem not_picks_down_link (hs : s ≠ []) {r : Bool} {p : List (Step ν)} (hn : k (n :: L) = some (.link r p)) :
    ¬ Picks k 0 L (.down n :: s) M := by
  rw [picks_cons hs]
  rintro ⟨i, m, D, -, hw, -⟩
  simp [walk, advance, hn] at hw

theorem picks_down_link (hs : s ≠ []) {r : Bool} {p : List (Step ν)} (hn : k (n :: L) = some (.link r p)) :
    Picks k (h + 1) L (.down n :: s) M ↔ Picks k h (if r then [] else L) (p ++ s) M := by
  have hwalk : ∀ i, walk k (h + 1) L (.down n :: i) = walk k h (if r then [] else L) (p ++ i) := fun i => by
    simp only [walk, advance, hn]
  rw [picks_cons hs]
  simp only [hwalk]
  constructor
  · rintro ⟨i, m, D, rfl, hw, rfl⟩
    exact ⟨p ++ i, m, D, (List.append_assoc p i _).symm, hw, rfl⟩
  · rintro ⟨j, m, D, hj, hw, rfl⟩
    obtain ⟨i, c, rfl⟩ := (List.eq_nil_or_concat' s).resolve_left hs
    rw [← List.append_assoc] at hj
    obtain ⟨rfl, hc⟩ := List.append_inj' hj rfl
    rw [List.singleton_injective hc]
    exact ⟨i, m, D, rfl, hw, rfl⟩

/-! ### Missing places taken for directories -/

/-- The tree with every missing place taken for a directory, as `mkdir -p` would make it. -/
def fill (k : Loc ν → Option (Kind ν)) : Loc ν → Option (Kind ν) := fun L => some ((k L).getD .dir)

theorem extends_fill (k : Loc ν → Option (Kind ν)) : Extends k (fill k) := fun L a ha => by simp [fill, ha]

theorem fill_eq_of_missing_dir (hk : ∀ L, k' L = k L ∨ k L = none ∧ k' L = some .dir) : fill k' = fill k := by
  funext L
  rcases hk L with h' | ⟨h₁, h₂⟩
  · simp [fill, h']
  · simp [fill, h₁, h₂]

/-- Making a missing directory does not change the tree in which missing places are directories. -/
theorem fill_update [DecidableEq ν] (hM : k M = none) : fill (Function.update k M (some .dir)) = fill k := by
  refine fill_eq_of_missing_dir fun L => ?_
  rcases eq_or_ne L M with rfl | hL
  · exact .inr ⟨hM, by simp⟩
  · exact .inl (Function.update_of_ne hL _ _)

theorem fill_update_some [DecidableEq ν] (M : Loc ν) (a : Kind ν) :
    fill (Function.update k M (some a)) = Function.update (fill k) M (some a) := by
  funext L
  rcases eq_or_ne L M with rfl | hL
  · simp [fill]
  · simp [fill, Function.update_of_ne hL]

theorem walk_fill_of_found (hw : walk k h L s = .found M) : walk (fill k) h L s = .found M :=
  walk_found_of_extends (extends_fill k) hw

theorem walk_fill_of_missing (hw : walk k h L s = .missing M) : walk (fill k) h L s = .found M := by
  have hM := (walk_missing hw).1
  exact walk_found_of_missing hw (extends_fill k) (.inl (by simp [fill, hM]))

/-- The tree with entries added to it that are no links. -/
structure Grown (k k' : Loc ν → Option (Kind ν)) : Prop where
  kept : Extends k k'
  plain : ∀ L r p, k L = none → k' L ≠ some (.link r p)

theorem Grown.refl (k : Loc ν → Option (Kind ν)) : Grown k k := ⟨Extends.refl k, fun L r p hk => by rw [hk]; simp⟩

theorem Grown.trans {k'' : Loc ν → Option (Kind ν)} (h : Grown k k') (h' : Grown k' k'') : Grown k k'' := by
  refine ⟨h.kept.trans h'.kept, fun L r p hk hlink => ?_⟩
  cases hk' : k' L with
  | none => exact h'.plain L r p hk' hlink
  | some a =>
    rw [h'.kept L a hk', Option.some.injEq] at hlink
    exact h.plain L r p hk (hlink ▸ hk')

theorem Grown.fill (h : Grown k k') : Grown k (fill k') := by
  refine ⟨h.kept.trans (extends_fill k'), fun L r p hk hlink => ?_⟩
  cases hk' : k' L with
  | none =>
    rw [PathWalk.fill, hk', Option.getD_none] at hlink
    cases hlink
  | some a =>
    rw [extends_fill k' L a hk', Option.some.injEq] at hlink
    exact h.plain L r p hk (hlink ▸ hk')

/-- Of entries that are added and no links a walk notices only that a name is still missing, or is no directory. -/
theorem Grown.advance_fill (hg : Grown k k') (L : Loc ν) (s : List (Step ν)) :
    (∃ M, advance k' L s = .missing M) ∨ advance k' L s = .stuck ∨ advance (PathWalk.fill k) L s = advance k' L s := by
  induction s generalizing L with
  | nil => exact .inr (.inr rfl)
  | cons c s ih =>
    cases c with
    | here => exact ih L
    | up => exact ih L.tail
    | down n =>
      simp only [advance]
      cases hk : k (n :: L) with
      | some a =>
        rw [hg.kept _ _ hk, extends_fill k _ _ hk]
        cases a with
        | dir => exact ih (n :: L)
        | link | leaf => exact .inr (.inr rfl)
      | none =>
        have hfill : PathWalk.fill k (n :: L) = some .dir := by rw [PathWalk.fill, hk, Option.getD_none]
        rw [hfill]
        cases hk' : k' (n :: L) with
        | none =>
          cases s with
          | nil => exact .inl ⟨n :: L, rfl⟩
          | cons => exact .inr (.inl rfl)
        | some a =>
          cases a with
          | dir => exact ih (n :: L)
          | leaf =>
            cases s with
            | nil => exact .inr (.inr rfl)
            | cons => exact .inr (.inl rfl)
          | link r p => exact absurd hk' (hg.plain _ r p hk)

/-- A walk that ends on an entry would have ended there before, missing places being taken for directories. -/
theorem Grown.walk_fill (hg : Grown k k') (hw : walk k' h L s = .found M) : walk (PathWalk.fill k) h L s = .found M := by
  induction h using Nat.strongRecOn generalizing L s with
  | ind h ih =>
    rcases walk_cases hw (by simp) with ⟨ha, -⟩ | ⟨j, D, r, p, rest, rfl, ha, hj⟩
    · rcases hg.advance_fill L s with ⟨M', h'⟩ | h' | h'
      · rw [ha] at h'; cases h'
      · rw [ha] at h'; cases h'
      · exact walk_of_advance (h'.trans ha) (by simp)
    · rcases hg.advance_fill L s with ⟨M', h'⟩ | h' | h'
      · rw [ha] at h'; cases h'
      · rw [ha] at h'; cases h'
      · simp only [walk, h', ha]
        exact ih j (Nat.lt_succ_self j) hj

/-- Names lead down from a directory below which there is nothing. -/
theorem advance_fill_down (hD : ∀ r, r ≠ [] → k (r ++ D) = none) (ns : List ν) :
    advance (fill k) D (ns.map .down) = .found (ns.reverse ++ D) := by
  suffices hs : ∀ r, advance (fill k) (r ++ D) (ns.map .down) = .found (ns.reverse ++ (r ++ D)) from hs []
  induction ns with
  | nil => exact fun r => rfl
  | cons n ns ih =>
    intro r
    have hfill : fill k (n :: (r ++ D)) = some .dir := by
      rw [fill, ← List.cons_append, hD _ (List.cons_ne_nil n r), Option.getD_none]
    rw [List.map_cons, advance, hfill, List.reverse_cons, List.append_assoc]
    exact ih (n :: r)

/-- The path passes `M` on its way, missing places being taken for directories. -/
def Passes (k : Loc ν → Option (Kind ν)) (h : ℕ) (s : List (Step ν)) (M : Loc ν) : Prop :=
  ∃ p, p <+: s ∧ walk (fill k) h [] p = .found M

end OpenshiftConsole.Library.PathWalk
