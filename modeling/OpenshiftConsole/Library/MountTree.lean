import Mathlib.Data.List.Induction
import Mathlib.Tactic.Common

/-!
# Paths in a tree of mounts

A mount shows a directory of a device at a place of the mount that it is on. Several mounts can be
stacked on one path: each is on the one before, and only the last one is seen. What is mounted below a
directory is out of sight once something else is mounted on the directory, since the new mount's own
places are others than those of the old one.

`lookup` is the kernel's way along a path: name by name, and at each name to the mount on top there. A path goes
on within the mount that it has come to as long as nothing is mounted on it there (`lookup_append`).
-/

namespace OpenshiftConsole.Library.MountTree

/-- A directory of a device, seen at a path. -/
structure Mount (δ ν : Type*) where
  id : ℕ
  /-- The mount that it is on. -/
  parent : ℕ
  dev : δ
  /-- The names from the device's root to the directory. -/
  root : List ν
  /-- The names from the tree's root to where it is mounted. -/
  point : List ν

/-- Where a path has come to. -/
structure Place (δ ν : Type*) where
  mount : Mount δ ν
  /-- The names that have been taken. -/
  path : List ν
  /-- Those since the mount's own root. -/
  below : List ν

variable {δ ν : Type*} [DecidableEq ν] {table : List (Mount δ ν)} {m : Mount δ ν} {x : Place δ ν} {p q : List ν}

/-- The directory of its device that a place is. -/
def Place.dir (x : Place δ ν) : List ν := x.mount.root ++ x.below

/-- The mount is on the place. -/
def Place.Carries (x : Place δ ν) (c : Mount δ ν) : Prop := c.parent = x.mount.id ∧ c.point = x.path

instance (x : Place δ ν) (c : Mount δ ν) : Decidable (x.Carries c) := inferInstanceAs (Decidable (_ ∧ _))

/-- To the mount that is on a place, and to the one on that. -/
def cross (table : List (Mount δ ν)) : ℕ → Place δ ν → Place δ ν
  | 0, x => x
  | k + 1, x =>
    match table.find? (x.Carries ·) with
    | none => x
    | some c => cross table k ⟨c, x.path, []⟩

/-- One name. -/
def step (table : List (Mount δ ν)) (x : Place δ ν) (n : ν) : Place δ ν :=
  cross table table.length ⟨x.mount, x.path ++ [n], x.below ++ [n]⟩

/-- The root of the tree: on top of the mount there that is on no other. -/
def start (table : List (Mount δ ν)) : Option (Place δ ν) :=
  (table.find? fun m => m.point = [] ∧ ∀ c ∈ table, c.id ≠ m.parent).map fun m => cross table table.length ⟨m, [], []⟩

/-- Where a path leads. -/
def lookup (table : List (Mount δ ν)) (p : List ν) : Option (Place δ ν) := (start table).map (p.foldl (step table))

/-- The mount is what is seen at a path. -/
def Tops (table : List (Mount δ ν)) (p : List ν) (m : Mount δ ν) : Prop :=
  ∃ x, lookup table p = some x ∧ x.mount = m ∧ x.below = []

/-- Nothing is mounted on the mount on the way to the names below it. -/
def Bare (table : List (Mount δ ν)) (m : Mount δ ν) (q : List ν) : Prop :=
  ∀ s, s ≠ [] → s <+: q → ∀ c ∈ table, ¬ (c.parent = m.id ∧ c.point = m.point ++ s)

/-- A path leads to a directory of a device. -/
def Names (table : List (Mount δ ν)) (p : List ν) (dev : δ) (dir : List ν) : Prop :=
  ∃ x, lookup table p = some x ∧ x.mount.dev = dev ∧ x.dir = dir

theorem cross_of_bare (h : ∀ c ∈ table, ¬ x.Carries c) (k : ℕ) : cross table k x = x := by
  cases k with
  | zero => rfl
  | succ k =>
    have hfind : table.find? (x.Carries ·) = none :=
      List.find?_eq_none.mpr fun c hc => by simpa using h c hc
    rw [cross, hfind]

/-- On top there is what a mount shows at its root, or nothing has been mounted. -/
theorem cross_cases (table : List (Mount δ ν)) (k : ℕ) (x : Place δ ν) :
    (cross table k x).below = [] ∧ (cross table k x).path = x.path ∧ (cross table k x).mount.point = x.path ∧
        (cross table k x).mount ∈ table ∨
      cross table k x = x ∧ (k ≠ 0 → ∀ c ∈ table, ¬ x.Carries c) := by
  induction k generalizing x with
  | zero => exact .inr ⟨rfl, fun h => absurd rfl h⟩
  | succ k ih =>
    rw [cross]
    split
    · rename_i hfind
      exact .inr ⟨rfl, fun _ c hc => by simpa using List.find?_eq_none.mp hfind c hc⟩
    · rename_i c hfind
      have hcarries : x.Carries c := by simpa using List.find?_some hfind
      rcases ih ⟨c, x.path, []⟩ with h | ⟨h, -⟩
      · exact .inl h
      · rw [h]
        exact .inl ⟨rfl, rfl, hcarries.2, List.mem_of_find?_eq_some hfind⟩

/-- What is known of a place that a path leads to. -/
structure Attained (table : List (Mount δ ν)) (p : List ν) (x : Place δ ν) : Prop where
  path : x.path = p
  mem : x.mount ∈ table
  below : p = x.mount.point ++ x.below
  tops : Tops table x.mount.point x.mount
  bare : Bare table x.mount x.below

/-- What is on top at the end of a path. -/
theorem attained_of_nil (hx : lookup table p = some x) (hpath : x.path = p) (hmem : x.mount ∈ table)
    (hpoint : x.mount.point = p) (hbelow : x.below = []) : Attained table p x := by
  refine ⟨hpath, hmem, by rw [hpoint, hbelow, List.append_nil], ⟨x, by rw [hpoint, hx], rfl, hbelow⟩, ?_⟩
  intro s hs hprefix
  rw [hbelow] at hprefix
  exact absurd (List.prefix_nil.mp hprefix) hs

theorem lookup_append (p q : List ν) : lookup table (p ++ q) = (lookup table p).map (q.foldl (step table)) := by
  rw [lookup, lookup, Option.map_map]
  congr 1
  funext x
  exact List.foldl_append

theorem attained_of_lookup (hx : lookup table p = some x) : Attained table p x := by
  induction p using List.reverseRecOn generalizing x with
  | nil =>
    obtain ⟨y, hy, rfl⟩ := Option.map_eq_some_iff.mp hx
    obtain ⟨m, hm, rfl⟩ := Option.map_eq_some_iff.mp hy
    have hroot : m.point = [] := by
      have hfound := List.find?_some hm
      simp only [decide_eq_true_eq] at hfound
      exact hfound.1
    rw [List.foldl_nil] at hx ⊢
    rcases cross_cases table table.length ⟨m, [], []⟩ with ⟨hbelow, hpath, hpoint, hmem⟩ | ⟨hcross, -⟩
    · exact attained_of_nil hx hpath hmem hpoint hbelow
    · rw [hcross] at hx ⊢
      exact attained_of_nil hx rfl (List.mem_of_find?_eq_some hm) hroot rfl
  | append_singleton p n ih =>
    rw [lookup_append] at hx
    obtain ⟨y, hy, hstep⟩ := Option.map_eq_some_iff.mp hx
    have hprev := ih hy
    have hlookup : lookup table (p ++ [n]) = some x := by rw [lookup_append, hx]
    rw [List.foldl_cons, List.foldl_nil, step] at hstep
    rcases cross_cases table table.length ⟨y.mount, y.path ++ [n], y.below ++ [n]⟩ with
      ⟨hbelow, hpath, hpoint, hmem⟩ | ⟨hcross, hbare⟩
    · rw [hstep] at hbelow hpath hpoint hmem
      rw [hprev.path] at hpath hpoint
      exact attained_of_nil hlookup hpath hmem hpoint hbelow
    · rw [hcross] at hstep
      subst hstep
      refine ⟨congrArg (· ++ [n]) hprev.path, hprev.mem, ?_, hprev.tops, ?_⟩
      · rw [← List.append_assoc, ← hprev.below]
      · intro s hs hprefix c hc
        rcases List.prefix_concat_iff.mp hprefix with rfl | hprefix
        · intro hcarries
          refine hbare (Nat.ne_of_gt (List.length_pos_of_mem hprev.mem)) c hc ⟨hcarries.1, ?_⟩
          rw [hcarries.2, ← List.append_assoc, ← hprev.below, hprev.path]
        · exact hprev.bare s hs hprefix c hc

/-- Names that lead to no place with a mount on it stay in the mount. -/
theorem foldl_step_of_bare (h : ∀ s, s ≠ [] → s <+: q → ∀ c ∈ table, ¬ (c.parent = x.mount.id ∧ c.point = x.path ++ s)) :
    q.foldl (step table) x = ⟨x.mount, x.path ++ q, x.below ++ q⟩ := by
  induction q generalizing x with
  | nil => rw [List.foldl_nil, List.append_nil, List.append_nil]
  | cons n q ih =>
    have hstep : step table x n = ⟨x.mount, x.path ++ [n], x.below ++ [n]⟩ := by
      refine cross_of_bare (fun c hc => ?_) _
      exact h [n] (List.cons_ne_nil n []) ⟨q, rfl⟩ c hc
    rw [List.foldl_cons, hstep, ih, List.append_assoc, List.append_assoc]
    · rfl
    · intro s hs hsq c hc
      have hcons := h (n :: s) (List.cons_ne_nil n s) (List.cons_prefix_cons.mpr ⟨rfl, hsq⟩) c hc
      rw [List.append_assoc]
      exact hcons

/-- **Where a path leads**: through a mount that is seen at its mount point to what the other names lead to
in it, if nothing is mounted on it on the way. -/
theorem names_iff {dev : δ} {dir : List ν} :
    Names table p dev dir ↔
      ∃ m q, Tops table m.point m ∧ Bare table m q ∧ p = m.point ++ q ∧ m.dev = dev ∧ m.root ++ q = dir := by
  constructor
  · rintro ⟨x, hx, hdev, hdir⟩
    have h := attained_of_lookup hx
    exact ⟨x.mount, x.below, h.tops, h.bare, h.below, hdev, hdir⟩
  · rintro ⟨m, q, ⟨x, hx, rfl, hbelow⟩, hbare, rfl, hdev, hdir⟩
    have hpath := (attained_of_lookup hx).path
    refine ⟨⟨x.mount, x.path ++ q, x.below ++ q⟩, ?_, hdev, ?_⟩
    · rw [lookup_append, hx, Option.map_some, foldl_step_of_bare]
      rw [hpath]
      exact hbare
    · rw [Place.dir, hbelow, List.nil_append]
      exact hdir

end OpenshiftConsole.Library.MountTree
