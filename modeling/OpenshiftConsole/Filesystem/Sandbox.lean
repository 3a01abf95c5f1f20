import OpenshiftConsole.Filesystem.Nodes
import OpenshiftConsole.Library.Exec
import Mathlib.Algebra.GroupWithZero.Nat
import Mathlib.Algebra.Order.BigOperators.Group.List
import Mathlib.Algebra.Order.Group.Nat

/-!
# A directory for a root

`rootfs.Sandbox` takes an ordinary directory for the root of a file system and takes the kernel's
work on itself: `resolve` goes through a path name by name, does not go above the root for `..` and starts at
the root again for a link that starts with a slash, and what it returns is a path that is passed to
the kernel.

The path it returns leads from the root's directory down through names that are no links, the last one
at most. So a call that does not follow the last name, or that has had it followed by `resolve`, ends
in the root. `Chtimes` is neither: it asks `resolve` not to follow the last name and makes a call that
does, and gets wherever a link in the root points to (`resolve_contained`).
-/

namespace OpenshiftConsole.Filesystem

open OpenshiftConsole.Library
open OpenshiftConsole.Library.Lines (Text)
open OpenshiftConsole.Library.PathWalk OpenshiftConsole.Library.FileTree

/-- A `rootfs.Root` that is not native. -/
structure Sandbox (d : Fs) where
  /-- The names in `dir`, which `filepath.Abs` has cleaned. -/
  names : List Name
  /-- The directory that `os.Stat` has found there. -/
  loc : Loc Name
  leads : Leads d (names.map .down) loc

namespace Sandbox

variable {d : Fs} (root : Sandbox d)

/-! ### Resolution -/

/-- `filepath.Join` -/
def filepathJoin (elems : List Text) : Text :=
  match elems.dropWhile (· = []) with
  | [] => []
  | elems => pathClean (List.intercalate ['/'] elems)

/-- `dir` -/
def dir : Text := '/' :: spell root.names

/-- Why a path is not resolved. -/
inductive Cause where
  /-- `CleanPath` fails. -/
  | inval
  | errno (err : Errno)
  /-- `too many levels of symbolic links` -/
  | tooManyLinks

/-- `os.PathError` -/
structure PathError where
  op : Text
  path : Text
  err : Cause

/-- What `resolve` returns, and the paths that it has called `os.Readlink` on. -/
structure Resolution where
  path : Except PathError Text
  links : List Text

/-- The variables of `resolve`, and the paths that it has called `os.Readlink` on. -/
structure State where
  stack : List Text
  remaining : List Text
  hops : ℕ
  links : List Text

/-- One turn of the loop of `resolve`. -/
def step (op p : Text) (followFinal : Bool) (s : State) : State ⊕ Resolution :=
  match s.remaining with
  | [] => .inr ⟨.ok (filepathJoin (root.dir :: s.stack)), s.links⟩
  | part :: remaining =>
    if part = ['.', '.'] then .inl { s with stack := s.stack.dropLast, remaining := remaining }
    else
      let next := s.stack ++ [part]
      let host := filepathJoin (root.dir :: next)
      match lstat d host with
      | .error err =>
        if remaining = [] ∧ err = .noent then .inr ⟨.ok host, s.links⟩
        else .inr ⟨.error ⟨op, p, .errno err⟩, s.links⟩
      | .ok (_, info) =>
        match info.node with
        | .symlink target =>
          if remaining = [] ∧ followFinal = false then .inl { s with stack := next, remaining := remaining }
          else if s.hops + 1 > maxSymlinks then .inr ⟨.error ⟨op, p, .tooManyLinks⟩, s.links⟩
          else
            .inl
              { stack := if target.head? == some '/' then [] else s.stack
                remaining := Rootfs.splitComponents (trimLeft target) ++ remaining
                hops := s.hops + 1
                links := s.links ++ [host] }
        | _ => .inl { s with stack := next, remaining := remaining }

/-- `Root.resolve` -/
def resolve (op p : Text) (followFinal : Bool) (fuel : ℕ) : Exec Resolution :=
  match Rootfs.cleanPath p with
  | none => .returned ⟨.error ⟨op, p, .inval⟩, []⟩
  | some cleaned =>
    Exec.loop (fun s => .returned (root.step op p followFinal s)) fuel
      { stack := [], remaining := Rootfs.splitComponents cleaned, hops := 0, links := [] }

/-! ### The system calls -/

/-- The methods of a `Root` that make a call on a path from `resolve`. -/
inductive Method where
  | openRead | openWrite | stat | lstat | readlink | list | mkdir | remove | rename | chmod | chown | chtimes | symlink
  | statfs
deriving DecidableEq

namespace Method

/-- The name that it gives `resolve` for its errors. -/
def op : Method → Text
  | openRead | openWrite | list => "open".toList
  | stat => "stat".toList
  | lstat => "lstat".toList
  | readlink => "readlink".toList
  | mkdir => "mkdir".toList
  | remove => "remove".toList
  | rename => "rename".toList
  | chmod => "chmod".toList
  | chown => "chown".toList
  | chtimes => "chtimes".toList
  | symlink => "symlink".toList
  | statfs => "statfs".toList

/-- Whether it has `resolve` follow the last name. -/
def followFinal : Method → Bool
  | openRead | openWrite | stat | list | chmod | statfs => true
  | lstat | readlink | mkdir | remove | rename | chown | chtimes | symlink => false

/-- Whether the call that it makes follows the last name. -/
def callFollows : Method → Bool
  | openRead | openWrite | stat | list | chmod | chtimes | statfs => true
  | lstat | readlink | mkdir | remove | rename | chown | symlink => false

/-- Where the call ends. -/
def reaches (m : Method) (d : Fs) (host : Text) : Stop Name := if m.callFollows then follow d host else nofollow d host

theorem callFollows_eq {m : Method} (hm : m ≠ .chtimes) : m.callFollows = m.followFinal := by
  cases m <;> first | rfl | exact absurd rfl hm

end Method

/-- A directory whose absolute path says `..` nowhere can be the root, as `Sandbox` cleans the path. -/
theorem exists_of_stat {p : Text} {ns : List Name} {L : Loc Name} {info : Entry} (hp : steps p = ns.map .down)
    (habs : p.head? = some '/') (hstat : stat d p = .ok (L, info)) (hdir : info.node = .dir) :
    ∃ root : Sandbox d, root.dir = pathClean p ∧ root.loc = L := by
  obtain ⟨hfollow, hinfo⟩ := entryAt_eq_ok.mp hstat
  have hnode : nodeAt d L = some .dir := by rw [nodeAt, hinfo, Option.map_some, hdir]
  have hwalk : walk d.tree.kindAt maxSymlinks [] (steps p) = .found L := by
    rw [follow, fullSteps] at hfollow
    split at hfollow
    · obtain ⟨D, hD, hkind⟩ := d.tree.walk_take d.tree.root_dir (List.cons_ne_nil _ _) (by rw [hfollow]; simp)
      rw [walk_append hD hkind rfl (by simp [advance])] at hfollow
      rwa [← Stop.found.inj hfollow]
    · exact hfollow
  refine ⟨⟨ns, L, hp ▸ hwalk, hnode⟩, ?_, rfl⟩
  rw [pathClean_of_steps hp, habs]
  rfl

/-! ### Paths below the root -/

/-- The path of a location below the root. -/
def path (L : Loc Name) : Text := '/' :: spell (root.names ++ L.reverse)

/-- The components of `stack`, for the location that they lead to. -/
def texts (L : Loc Name) : List Text := L.reverse.map Name.text

theorem texts_cons (n : Name) (L : Loc Name) : texts (n :: L) = texts L ++ [n.text] := by
  rw [texts, List.reverse_cons, List.map_append]
  rfl

theorem dropLast_texts (L : Loc Name) : (texts L).dropLast = texts L.tail := by
  cases L with
  | nil => rfl
  | cons n L => rw [texts_cons, List.dropLast_concat, List.tail_cons]

theorem steps_path (L : Loc Name) : steps (root.path L) = (root.names ++ L.reverse).map .down := by
  rw [path, steps_slash, steps_spell]

theorem steps_path_cons (n : Name) (L : Loc Name) :
    steps (root.path (n :: L)) = (root.names ++ L.reverse).map .down ++ [.down n] := by
  rw [steps_path, List.reverse_cons, ← List.append_assoc, List.map_append]
  rfl

theorem path_injective {L M : Loc Name} (h : root.path L = root.path M) : L = M := by
  have hsteps := congrArg steps h
  rw [steps_path, steps_path] at hsteps
  have hnames := List.map_injective_iff.mpr (fun a b hab => Step.down.inj hab) hsteps
  exact List.reverse_injective (List.append_cancel_left hnames)

theorem trailingSlash_path (n : Name) (L : Loc Name) : trailingSlash (root.path (n :: L)) = false := by
  rw [path, List.reverse_cons, ← List.append_assoc, trailingSlash,
    List.getLast?_cons_of_ne_nil (spell_ne_nil (by simp))]
  exact trailingSlash_spell

/-- What `filepath.Join` makes of the root's path and `stack`. -/
theorem filepathJoin_texts (L : Loc Name) : filepathJoin (root.dir :: texts L) = root.path L := by
  have hsteps : steps (List.intercalate ['/'] (root.dir :: texts L)) = (root.names ++ L.reverse).map .down := by
    cases hL : texts L with
    | nil =>
      obtain rfl : L = [] := by simpa [texts] using hL
      rw [List.intercalate_singleton, dir, steps_slash, steps_spell, List.reverse_nil, List.append_nil]
    | cons c l =>
      rw [List.intercalate_cons_cons, List.append_assoc, List.singleton_append, steps_append_slash, dir, steps_slash,
        steps_spell, ← hL, List.map_append]
      exact congrArg _ (steps_spell L.reverse)
  have hhead : (List.intercalate ['/'] (root.dir :: texts L)).head? = some '/' := by
    cases texts L with
    | nil => rw [List.intercalate_singleton, dir, List.head?_cons]
    | cons c l => rw [List.intercalate_cons_cons, dir, List.cons_append, List.cons_append, List.head?_cons]
  have hdrop : (root.dir :: texts L).dropWhile (· = []) = root.dir :: texts L :=
    List.dropWhile_cons_of_neg (by simp [dir])
  rw [filepathJoin, hdrop]
  dsimp only
  rw [pathClean_of_steps hsteps, hhead, path]
  rfl

/-! ### What the kernel sees -/

variable {root} {op p : Text} {followFinal : Bool} {n : Name} {L M D : Loc Name} {s s' : State}

/-- There is an entry at the location below the root that is no link. -/
def Plain (root : Sandbox d) (L : Loc Name) : Prop :=
  d.tree.kindAt (L ++ root.loc) = some .dir ∨ d.tree.kindAt (L ++ root.loc) = some .leaf

/-- There is a link to `target` at the location below the root. -/
def LinkAt (root : Sandbox d) (L : Loc Name) (target : Text) : Prop :=
  ∃ info, d.tree.get (L ++ root.loc) = some info ∧ info.node = .symlink target

theorem plain_nil : root.Plain [] := .inl (kindAt_dir_iff.mpr root.leads.dir)

theorem leads_path (hL : d.tree.kindAt (L ++ root.loc) = some .dir) :
    Leads d ((root.names ++ L.reverse).map .down) (L ++ root.loc) := by
  rw [List.map_append]
  exact leads_below root.leads (kindAt_dir_iff.mp hL)

/-- The path of an entry that is no link leads there. -/
theorem walk_path (hL : root.Plain L) :
    walk d.tree.kindAt maxSymlinks [] (steps (root.path L)) = .found (L ++ root.loc) := by
  rcases hL with hL | hL
  · rw [steps_path]
    exact (leads_path hL).walk
  · cases L with
    | nil =>
      rw [List.nil_append, kindAt_dir_iff.mpr root.leads.dir] at hL
      cases hL
    | cons n L =>
      have hD : d.tree.kindAt (L ++ root.loc) = some .dir := by
        apply d.tree.parent_dir (n := n)
        rw [← Tree.kindAt_isSome]
        exact Option.isSome_iff_exists.mpr ⟨_, hL⟩
      rw [steps_path_cons]
      exact walk_down_found (leads_path hD).walk hD (.inr hL)

theorem place_path (n : Name) (hL : root.Plain L) :
    place d.tree.kindAt maxSymlinks (steps (root.path (n :: L))) =
      if d.tree.kindAt (L ++ root.loc) = some .dir then some (n :: (L ++ root.loc)) else none := by
  rw [steps_path_cons, place, splitLast_eq_some.mpr rfl]
  dsimp only
  rw [← steps_path, walk_path hL]

/-- What `os.Lstat` says of a name in a directory, or below another entry that is no link. -/
theorem lstat_path (n : Name) (hL : root.Plain L) :
    lstat d (root.path (n :: L)) =
      match d.tree.get (n :: (L ++ root.loc)) with
      | some info => .ok (n :: (L ++ root.loc), info)
      | none => .error (if d.tree.kindAt (L ++ root.loc) = some .dir then .noent else .unresolved) := by
  have hsplit : splitLast (steps (root.path (n :: L))) ≠ none := by
    rw [steps_path_cons, splitLast_eq_some.mpr rfl]
    exact Option.some_ne_none _
  rw [lstat, nofollow, if_neg (by simp [trailingSlash_path, hsplit]), place_path n hL]
  cases hn : d.tree.get (n :: (L ++ root.loc)) with
  | some info =>
    have hD : d.tree.kindAt (L ++ root.loc) = some .dir := d.tree.parent_dir (by rw [hn]; rfl)
    rw [if_pos hD]
    simp only [hn, Option.isSome_some, if_true, entryAt]
  | none =>
    by_cases hD : d.tree.kindAt (L ++ root.loc) = some .dir
    · simp only [if_pos hD, hn, Option.isSome_none, Bool.false_eq_true, if_false, entryAt]
    · simp only [if_neg hD, entryAt]

/-! ### One turn -/

/-- What a component can be. -/
def IsComponent (c : Text) : Prop := c = ['.', '.'] ∨ ∃ n : Name, c = n.text

theorem isComponent_of_mem {c q : Text} (h : c ∈ Rootfs.splitComponents q) : IsComponent c := by
  have hmem := Root.mem_splitComponents h
  have hdot : c ≠ ['.'] := by
    rintro rfl
    exact absurd (List.mem_filter.mp h).2 (by simp)
  by_cases hup : c = ['.', '.']
  · exact .inl hup
  · exact .inr ⟨⟨c, by simp [IsName, hmem.1, hmem.2, hdot, hup]⟩, rfl⟩

theorem text_ne_up (n : Name) : n.text ≠ ['.', '.'] := by
  intro h
  have hn : IsName n.text = true := n.property
  rw [h] at hn
  exact absurd hn (by decide)

/-- How a turn can go on, from one location to another. -/
inductive Goes (root : Sandbox d) (followFinal : Bool) (L : Loc Name) : State → Loc Name → State → Prop
  | up {rest : List Text} {h : ℕ} {l : List Text} :
    Goes root followFinal L ⟨texts L, ['.', '.'] :: rest, h, l⟩ L.tail ⟨texts L.tail, rest, h, l⟩
  | enters {n : Name} {rest : List Text} {h : ℕ} {l : List Text} (hn : root.Plain (n :: L)) :
    Goes root followFinal L ⟨texts L, n.text :: rest, h, l⟩ (n :: L) ⟨texts (n :: L), rest, h, l⟩
  | keeps {n : Name} {h : ℕ} {l : List Text} {target : Text} (hn : root.LinkAt (n :: L) target) (hf : followFinal = false) :
    Goes root followFinal L ⟨texts L, [n.text], h, l⟩ (n :: L) ⟨texts (n :: L), [], h, l⟩
  | follows {n : Name} {rest : List Text} {h : ℕ} {l : List Text} {target : Text} {L' : Loc Name}
      (hn : root.LinkAt (n :: L) target) (hf : rest ≠ [] ∨ followFinal = true) (hh : h < maxSymlinks)
      (hL' : L' = if target.head? == some '/' then [] else L) :
    Goes root followFinal L ⟨texts L, n.text :: rest, h, l⟩ L'
      ⟨texts L', Rootfs.splitComponents (trimLeft target) ++ rest, h + 1, l ++ [root.path (n :: L)]⟩

/-- How a turn can be the last one. -/
inductive Ends (root : Sandbox d) (followFinal : Bool) (L : Loc Name) : State → Resolution → Prop
  | done {h : ℕ} {l : List Text} : Ends root followFinal L ⟨texts L, [], h, l⟩ ⟨.ok (root.path L), l⟩
  | missing {n : Name} {h : ℕ} {l : List Text} (hD : d.tree.kindAt (L ++ root.loc) = some .dir)
      (hn : d.tree.get (n :: L ++ root.loc) = none) :
    Ends root followFinal L ⟨texts L, [n.text], h, l⟩ ⟨.ok (root.path (n :: L)), l⟩
  | fails {n : Name} {rest : List Text} {h : ℕ} {l : List Text} {err : PathError}
      (hn : d.tree.get (n :: L ++ root.loc) = none) :
    Ends root followFinal L ⟨texts L, n.text :: rest, h, l⟩ ⟨.error err, l⟩
  | tooMany {n : Name} {rest : List Text} {h : ℕ} {l : List Text} {target : Text} {err : PathError}
      (hn : root.LinkAt (n :: L) target) (hf : rest ≠ [] ∨ followFinal = true) (hh : maxSymlinks ≤ h) :
    Ends root followFinal L ⟨texts L, n.text :: rest, h, l⟩ ⟨.error err, l⟩

/-- **One turn**, at a location that `stack` leads to. -/
theorem step_cases (hstack : s.stack = texts L) (hL : root.Plain L ∨ s.remaining = [])
    (hcomps : ∀ c ∈ s.remaining, IsComponent c) :
    (∃ L' s', root.step op p followFinal s = .inl s' ∧ Goes root followFinal L s L' s') ∨
      ∃ r, root.step op p followFinal s = .inr r ∧ Ends root followFinal L s r := by
  obtain ⟨stack, remaining, hops, links⟩ := s
  obtain rfl : stack = texts L := hstack
  cases remaining with
  | nil =>
    rw [step]
    dsimp only
    rw [filepathJoin_texts]
    exact .inr ⟨_, rfl, .done⟩
  | cons c rest =>
    have hplain := hL.resolve_right (List.cons_ne_nil c rest)
    rw [step]
    dsimp only
    rcases hcomps c List.mem_cons_self with rfl | ⟨n, rfl⟩
    · rw [if_pos rfl, dropLast_texts]
      exact .inl ⟨_, _, rfl, .up⟩
    · rw [if_neg (text_ne_up n), ← texts_cons, filepathJoin_texts, lstat_path n hplain]
      cases hn : d.tree.get (n :: (L ++ root.loc)) with
      | none =>
        dsimp only
        by_cases hD : d.tree.kindAt (L ++ root.loc) = some .dir
        · rw [if_pos hD]
          split
          · rename_i hrest
            rw [hrest.1]
            exact .inr ⟨_, rfl, .missing hD hn⟩
          · exact .inr ⟨_, rfl, .fails hn⟩
        · rw [if_neg hD, if_neg (by simp)]
          exact .inr ⟨_, rfl, .fails hn⟩
      | some info =>
        have hkind : d.tree.kindAt (n :: L ++ root.loc) = some info.kind := congrArg (Option.map Entry.kind) hn
        dsimp only
        cases hnode : info.node with
        | symlink target =>
          have hlink : root.LinkAt (n :: L) target := ⟨info, hn, hnode⟩
          dsimp only
          split
          · rename_i hrest
            rw [hrest.1]
            exact .inl ⟨_, _, rfl, .keeps hlink hrest.2⟩
          · rename_i hrest
            rw [not_and_or, Bool.not_eq_false] at hrest
            split
            · rename_i hh
              exact .inr ⟨_, rfl, .tooMany hlink hrest (Nat.le_of_lt_succ hh)⟩
            · rename_i hh
              have hstack : (if target.head? == some '/' then [] else texts L) =
                  texts (if target.head? == some '/' then [] else L) := by split <;> rfl
              rw [hstack]
              exact .inl ⟨_, _, rfl, .follows hlink hrest (Nat.lt_of_succ_le (Nat.le_of_not_gt hh)) rfl⟩
        | dir => exact .inl ⟨_, _, rfl, .enters (.inl (by rw [hkind, Entry.kind, hnode]))⟩
        | file data => exact .inl ⟨_, _, rfl, .enters (.inr (by rw [hkind, Entry.kind, hnode]))⟩
        | special => exact .inl ⟨_, _, rfl, .enters (.inr (by rw [hkind, Entry.kind, hnode]))⟩

/-! ### The loop ends -/

/-- How many components the target of a link has. -/
def targetSize (d : Fs) (L : Loc Name) : ℕ :=
  match (d.tree.get L).map Entry.node with
  | some (.symlink target) => (Rootfs.splitComponents (trimLeft target)).length
  | _ => 0

/-- No fewer than the target of any link has. -/
def targetSizes (d : Fs) : ℕ := (d.tree.locs.map (targetSize d)).sum

theorem targetSize_le {target : Text} (h : root.LinkAt L target) :
    (Rootfs.splitComponents (trimLeft target)).length ≤ targetSizes d := by
  obtain ⟨info, hL, hnode⟩ := h
  have hmem : L ++ root.loc ∈ d.tree.locs := d.tree.mem_locs (by rw [hL]; rfl)
  have hsize : targetSize d (L ++ root.loc) = (Rootfs.splitComponents (trimLeft target)).length := by
    rw [targetSize, hL, Option.map_some, hnode]
  rw [← hsize]
  exact List.le_sum_of_mem (List.mem_map_of_mem hmem)

/-- What is left to do: components, and those that links can still bring. -/
def measure (d : Fs) (s : State) : ℕ := (maxSymlinks - s.hops) * (targetSizes d + 1) + s.remaining.length

/-- What is known of the variables when `stack` leads to `L`. -/
structure Inv (root : Sandbox d) (followFinal : Bool) (s : State) (L : Loc Name) : Prop where
  stack : s.stack = texts L
  plain : root.Plain L ∨ s.remaining = [] ∧ followFinal = false ∧ (d.tree.get (L ++ root.loc)).isSome
  comps : ∀ c ∈ s.remaining, IsComponent c
  hops : s.hops ≤ maxSymlinks
  links : s.links.length = s.hops

/-- What is known of a location that `resolve` returns the path of. -/
structure Reached (root : Sandbox d) (followFinal : Bool) (L : Loc Name) : Prop where
  parent : L ≠ [] → d.tree.kindAt (L.tail ++ root.loc) = some .dir
  last : followFinal = true → ∀ r p, d.tree.kindAt (L ++ root.loc) ≠ some (.link r p)

theorem plain_isSome (h : root.Plain L) : (d.tree.get (L ++ root.loc)).isSome := by
  rw [← Tree.kindAt_isSome]
  rcases h with h | h <;> rw [h] <;> rfl

theorem parent_of_isSome (h : (d.tree.get (L ++ root.loc)).isSome) (hL : L ≠ []) :
    d.tree.kindAt (L.tail ++ root.loc) = some .dir := by
  obtain ⟨n, D, rfl⟩ := List.exists_cons_of_ne_nil hL
  exact d.tree.parent_dir h

theorem plain_tail (h : root.Plain L) : root.Plain L.tail := by
  by_cases hL : L = []
  · rw [hL]
    exact plain_nil
  · exact .inl (parent_of_isSome (plain_isSome h) hL)

theorem Plain.not_link (h : root.Plain L) (r : Bool) (p : List (Step Name)) :
    d.tree.kindAt (L ++ root.loc) ≠ some (.link r p) := by
  rcases h with h | h <;> rw [h] <;> simp

/-- A turn that goes on leaves less to do. -/
theorem Inv.goes (h : Inv root followFinal s L) (hs : Goes root followFinal L s M s') :
    Inv root followFinal s' M ∧ measure d s' < measure d s := by
  cases hs with
  | up =>
    have hplain := h.plain.resolve_right (by simp)
    refine ⟨⟨rfl, .inl (plain_tail hplain), ?_, h.hops, h.links⟩, ?_⟩
    · exact fun c hc => h.comps c (List.mem_cons_of_mem _ hc)
    · simp [measure]
  | enters hn =>
    refine ⟨⟨rfl, .inl hn, ?_, h.hops, h.links⟩, ?_⟩
    · exact fun c hc => h.comps c (List.mem_cons_of_mem _ hc)
    · simp [measure]
  | keeps hn hf =>
    obtain ⟨info, hn, -⟩ := hn
    refine ⟨⟨rfl, .inr ⟨rfl, hf, by rw [hn]; rfl⟩, ?_, h.hops, h.links⟩, ?_⟩
    · exact fun c hc => absurd hc List.not_mem_nil
    · simp [measure]
  | @follows n rest hops links target _ hn hf hh hL' =>
    have hplain := h.plain.resolve_right (by simp)
    have hsize := targetSize_le hn
    refine ⟨⟨rfl, .inl ?_, ?_, hh, ?_⟩, ?_⟩
    · rw [hL']
      split
      · exact plain_nil
      · exact hplain
    · intro c hc
      rcases List.mem_append.mp hc with hc | hc
      · exact isComponent_of_mem hc
      · exact h.comps c (List.mem_cons_of_mem _ hc)
    · rw [List.length_append, List.length_singleton]
      exact congrArg (· + 1) h.links
    · obtain ⟨k, hk⟩ : ∃ k, maxSymlinks - hops = k + 1 := ⟨maxSymlinks - hops - 1, by omega⟩
      have hk' : maxSymlinks - (hops + 1) = k := by omega
      simp only [measure, hk, hk', List.length_append, List.length_cons, Nat.succ_mul]
      omega

/-- After the last turn. -/
theorem Inv.ends {r : Resolution} (h : Inv root followFinal s L) (hr : Ends root followFinal L s r) :
    r.links.length ≤ maxSymlinks ∧ ∀ host, r.path = .ok host → ∃ M, host = root.path M ∧ Reached root followFinal M := by
  have hlinks := Nat.le_trans (Nat.le_of_eq h.links) h.hops
  cases hr with
  | done =>
    refine ⟨hlinks, fun host hhost => ⟨L, (Except.ok.inj hhost).symm, ?_⟩⟩
    rcases h.plain with hplain | ⟨-, hf, hsome⟩
    · exact ⟨parent_of_isSome (plain_isSome hplain), fun _ => hplain.not_link⟩
    · exact ⟨parent_of_isSome hsome, fun htrue => absurd (hf.symm.trans htrue) Bool.false_ne_true⟩
  | @missing n _ _ hD hn =>
    refine ⟨hlinks, fun host hhost => ⟨n :: L, (Except.ok.inj hhost).symm, fun _ => hD, fun _ r p hlink => ?_⟩⟩
    rw [(Tree.kindAt_eq_none _).mpr hn] at hlink
    cases hlink
  | fails hn => exact ⟨hlinks, fun host hhost => by cases hhost⟩
  | tooMany hn hf hh => exact ⟨hlinks, fun host hhost => by cases hhost⟩

/-! ### The link that a path names -/

/-- The root's tree for `resolve`: `..` comes back from whatever is no link, and a link's target is its components. -/
def seen (root : Sandbox d) (L : Loc Name) : Option (Kind Name) :=
  (d.tree.get (L ++ root.loc)).map fun info =>
    match info.node with
    | .symlink target => .link (target.head? == some '/') (Root.mkdirSteps target)
    | _ => .dir

/-- The place in the root that a path names if its last name is not followed. -/
def place (root : Sandbox d) (p : Text) : Option (Loc Name) :=
  match Rootfs.cleanPath p with
  | none => none
  | some _ => PathWalk.place root.seen maxSymlinks (Root.mkdirSteps p)

variable {target : Text}

theorem LinkAt.kind (h : root.LinkAt L target) :
    d.tree.kindAt (L ++ root.loc) = some (.link (target.head? == some '/') (fullSteps target)) := by
  obtain ⟨info, hL, hnode⟩ := h
  rw [Tree.kindAt, hL, Option.map_some, Entry.kind, hnode]

theorem LinkAt.not_plain (h : root.LinkAt L target) : ¬ root.Plain L := fun hplain => hplain.not_link _ _ h.kind

theorem LinkAt.isSome (h : root.LinkAt L target) : (d.tree.get (L ++ root.loc)).isSome := by
  obtain ⟨info, hL, -⟩ := h
  rw [hL]
  rfl

theorem linkAt_or_plain (h : (d.tree.get (L ++ root.loc)).isSome) : (∃ target, root.LinkAt L target) ∨ root.Plain L := by
  obtain ⟨info, hL⟩ := Option.isSome_iff_exists.mp h
  have hkind : d.tree.kindAt (L ++ root.loc) = some info.kind := congrArg (Option.map Entry.kind) hL
  cases hnode : info.node with
  | symlink target => exact .inl ⟨target, info, hL, hnode⟩
  | dir => exact .inr (.inl (by rw [hkind, Entry.kind, hnode]))
  | file data => exact .inr (.inr (by rw [hkind, Entry.kind, hnode]))
  | special => exact .inr (.inr (by rw [hkind, Entry.kind, hnode]))

theorem seen_link (h : root.LinkAt L target) :
    root.seen L = some (.link (target.head? == some '/') (Root.mkdirSteps target)) := by
  obtain ⟨info, hL, hnode⟩ := h
  rw [seen, hL, Option.map_some, hnode]

theorem seen_eq_dir : root.seen L = some .dir ↔ root.Plain L := by
  constructor
  · intro h
    have hsome : (d.tree.get (L ++ root.loc)).isSome := by
      rw [seen] at h
      obtain ⟨info, hL, -⟩ := Option.map_eq_some_iff.mp h
      rw [hL]
      rfl
    rcases linkAt_or_plain hsome with ⟨target, hlink⟩ | hplain
    · rw [seen_link hlink] at h
      cases h
    · exact hplain
  · intro h
    obtain ⟨info, hL⟩ := Option.isSome_iff_exists.mp (plain_isSome h)
    rw [seen, hL, Option.map_some]
    split
    · rename_i target hnode
      exact absurd h (LinkAt.not_plain ⟨info, hL, hnode⟩)
    · rfl

theorem stepOf_text (n : Name) : stepOf n.text = some (.down n) := by
  have hn : steps n.text = [.down n] := steps_name n
  rw [steps_of_notMem (slash_notMem_name n)] at hn
  exact Option.toList_eq_singleton_iff.mp hn

theorem filterMap_stepOf_ne_nil {l : List Text} (hl : l ≠ []) (h : ∀ c ∈ l, IsComponent c) : l.filterMap stepOf ≠ [] := by
  obtain ⟨c, l, rfl⟩ := List.exists_cons_of_ne_nil hl
  rcases h c List.mem_cons_self with rfl | ⟨n, rfl⟩
  · rw [List.filterMap_cons_some (stepOf_eq_up.mpr rfl)]
    exact List.cons_ne_nil _ _
  · rw [List.filterMap_cons_some (stepOf_text n)]
    exact List.cons_ne_nil _ _

theorem filterMap_splitComponents (target : Text) :
    (Rootfs.splitComponents (trimLeft target)).filterMap stepOf = Root.mkdirSteps target := by
  rw [Rootfs.splitComponents, Root.filterMap_stepOf_filter, Root.mkdirSteps, ← steps_trimLeft target]
  rfl

/-- What is left of the path names `M`, or has led there. -/
def Aims (root : Sandbox d) (s : State) (L M : Loc Name) : Prop :=
  s.remaining = [] ∧ L = M ∨ Picks root.seen (maxSymlinks - s.hops) L (s.remaining.filterMap stepOf) M

theorem Aims.of_cons {c : Text} {rest : List Text} {h : ℕ} {l stack : List Text} :
    root.Aims ⟨stack, c :: rest, h, l⟩ L M ↔ Picks root.seen (maxSymlinks - h) L ((c :: rest).filterMap stepOf) M :=
  or_iff_right fun hnil => List.cons_ne_nil c rest hnil.1

/-- A turn does not change which link the path names, if the last name is not to be followed. -/
theorem Inv.aims_goes (h : Inv root false s L) (hs : Goes root false L s D s') (hM : root.LinkAt M target) :
    root.Aims s' D M ↔ root.Aims s L M := by
  cases hs with
  | @up rest hops links =>
    rw [Aims.of_cons, List.filterMap_cons_some (stepOf_eq_up.mpr rfl), picks_up]
    refine or_iff_right fun hnil => hM.not_plain ?_
    rw [← hnil.2]
    exact plain_tail (h.plain.resolve_right (by simp))
  | @enters n rest hops links hn =>
    rw [Aims.of_cons, List.filterMap_cons_some (stepOf_text n)]
    have hne : n :: L ≠ M := fun heq => hM.not_plain (heq ▸ hn)
    by_cases hrest : rest = []
    · subst hrest
      rw [List.filterMap_nil, picks_singleton]
      exact iff_of_false (not_or.mpr ⟨fun hnil => hne hnil.2, not_picks_nil⟩) (Ne.symm hne)
    · have hsteps := filterMap_stepOf_ne_nil hrest fun c hc => h.comps c (List.mem_cons_of_mem _ hc)
      rw [picks_down_dir hsteps (seen_eq_dir.mpr hn)]
      exact or_iff_right fun hnil => hne hnil.2
  | @keeps n hops links _ hn hf =>
    rw [Aims.of_cons, List.filterMap_cons_some (stepOf_text n), List.filterMap_nil, picks_singleton]
    exact ⟨fun haims => (haims.resolve_right not_picks_nil).2.symm, fun heq => .inl ⟨rfl, heq.symm⟩⟩
  | @follows n rest hops links target' _ hn hf hh hL' =>
    have hrest : rest ≠ [] := hf.resolve_right Bool.false_ne_true
    have hsteps := filterMap_stepOf_ne_nil hrest fun c hc => h.comps c (List.mem_cons_of_mem _ hc)
    obtain ⟨k, hk⟩ : ∃ k, maxSymlinks - hops = k + 1 := ⟨maxSymlinks - hops - 1, by omega⟩
    have hk' : maxSymlinks - (hops + 1) = k := by omega
    rw [Aims.of_cons, List.filterMap_cons_some (stepOf_text n), hk, picks_down_link hsteps (seen_link hn), ← hL', Aims,
      List.filterMap_append, filterMap_splitComponents, hk']
    exact or_iff_right fun hnil => hrest (List.append_eq_nil_iff.mp hnil.1).2

/-- After the last turn it is the link that the path returned leads to. -/
theorem Inv.aims_ends {r : Resolution} (h : Inv root false s L) (hr : Ends root false L s r) (hM : root.LinkAt M target) :
    r.path = .ok (root.path M) ↔ root.Aims s L M := by
  cases hr with
  | done =>
    refine ⟨fun hpath => .inl ⟨rfl, root.path_injective (Except.ok.inj hpath)⟩, fun haims => ?_⟩
    rw [(haims.resolve_right not_picks_nil).2]
  | @missing n hops links hD hn =>
    have hne : n :: L ≠ M := by
      rintro rfl
      exact absurd hM.isSome (by rw [hn]; exact Bool.false_ne_true)
    rw [Aims.of_cons, List.filterMap_cons_some (stepOf_text n), List.filterMap_nil, picks_singleton]
    exact iff_of_false (fun hpath => hne (root.path_injective (Except.ok.inj hpath))) (Ne.symm hne)
  | @fails n rest hops links err hn =>
    refine iff_of_false (fun hpath => by cases hpath) ?_
    rw [Aims.of_cons, List.filterMap_cons_some (stepOf_text n)]
    by_cases hrest : rest = []
    · subst hrest
      rw [List.filterMap_nil, picks_singleton]
      rintro rfl
      exact absurd hM.isSome (by rw [hn]; exact Bool.false_ne_true)
    · have hsteps := filterMap_stepOf_ne_nil hrest fun c hc => h.comps c (List.mem_cons_of_mem _ hc)
      exact not_picks_down_none hsteps (congrArg (Option.map _) hn)
  | @tooMany n rest hops links _ err hn hf hh =>
    refine iff_of_false (fun hpath => by cases hpath) ?_
    have hrest : rest ≠ [] := hf.resolve_right Bool.false_ne_true
    have hsteps := filterMap_stepOf_ne_nil hrest fun c hc => h.comps c (List.mem_cons_of_mem _ hc)
    rw [Aims.of_cons, List.filterMap_cons_some (stepOf_text n), Nat.sub_eq_zero_of_le hh]
    exact not_picks_down_link hsteps (seen_link hn)

theorem place_eq_some (hM : root.LinkAt M target) {p cleaned : Text} (hc : Rootfs.cleanPath p = some cleaned) :
    root.place p = some M ↔ Picks root.seen maxSymlinks [] (Root.mkdirSteps p) M := by
  rw [place, hc]
  refine ⟨picks_of_place, fun hp => ?_⟩
  cases M with
  | nil => exact absurd plain_nil hM.not_plain
  | cons n D => exact hp.place (seen_eq_dir.mpr (.inl (parent_of_isSome hM.isSome (List.cons_ne_nil n D))))

theorem filterMap_cleaned {p cleaned : Text} (hc : Rootfs.cleanPath p = some cleaned) :
    (Rootfs.splitComponents cleaned).filterMap stepOf = Root.mkdirSteps p := by
  by_cases hd : cleaned = ['.']
  · subst hd
    rcases Rootfs.steps_of_root (Rootfs.trimLeft_of_cleanPath hc) with hp | hp <;> rw [Root.mkdirSteps, hp] <;> rfl
  · exact Root.splitComponents_steps hc hd

/-- What is known of what `resolve` returns. -/
structure Resolved (root : Sandbox d) (p : Text) (followFinal : Bool) (r : Resolution) : Prop where
  links : r.links.length ≤ maxSymlinks
  reached : ∀ host, r.path = .ok host → ∃ L, host = root.path L ∧ Reached root followFinal L
  /-- A link is returned just where the path names it. -/
  link : followFinal = false → ∀ M target, root.LinkAt M target → (r.path = .ok (root.path M) ↔ root.place p = some M)

/-- What is known before each turn. -/
def Resolving (root : Sandbox d) (p : Text) (followFinal : Bool) (s : State) : Prop :=
  ∃ L, Inv root followFinal s L ∧
    (followFinal = false → ∀ M target, root.LinkAt M target → (root.Aims s L M ↔ root.place p = some M))

theorem step_resolves (hs : Resolving root p followFinal s) :
    (Exec.returned (root.step op p followFinal s)).Returns
      (Sum.elim (fun s' => Resolving root p followFinal s' ∧ measure d s' < measure d s) (Resolved root p followFinal)) := by
  obtain ⟨L, h, haims⟩ := hs
  refine .ret ?_
  rcases step_cases h.stack (h.plain.imp_right fun hlast => hlast.1) h.comps with ⟨L', s', hstep, hgoes⟩ | ⟨r, hstep, hends⟩
  · rw [hstep]
    have hnext := h.goes hgoes
    refine ⟨⟨L', hnext.1, ?_⟩, hnext.2⟩
    rintro rfl M target hM
    exact (h.aims_goes hgoes hM).trans (haims rfl M target hM)
  · rw [hstep]
    have hlast := h.ends hends
    refine ⟨hlast.1, hlast.2, ?_⟩
    rintro rfl M target hM
    exact (h.aims_ends hends hM).trans (haims rfl M target hM)

/-- Before the first turn. -/
theorem resolving_start {cleaned : Text} (hc : Rootfs.cleanPath p = some cleaned) :
    Resolving root p followFinal ⟨[], Rootfs.splitComponents cleaned, 0, []⟩ := by
  refine ⟨[], ⟨rfl, .inl plain_nil, fun c hmem => isComponent_of_mem hmem, Nat.zero_le _, rfl⟩, ?_⟩
  rintro - M target hM
  rw [place_eq_some hM hc, ← filterMap_cleaned hc]
  exact or_iff_right fun hnil => hM.not_plain (hnil.2 ▸ plain_nil)

/-- **Resolution ends**, whatever the links in the root are. -/
theorem resolve_returns (root : Sandbox d) (op p : Text) (followFinal : Bool) :
    ∃ turns r, Resolved root p followFinal r ∧ ∀ fuel, turns < fuel → root.resolve op p followFinal fuel = .returned r := by
  cases hc : Rootfs.cleanPath p with
  | none =>
    refine ⟨0, ⟨.error ⟨op, p, .inval⟩, []⟩, ⟨Nat.zero_le _, ?_, ?_⟩, fun fuel _ => by rw [resolve, hc]⟩
    · intro host hhost
      cases hhost
    · rintro - M target -
      rw [place, hc]
      exact iff_of_false (fun hpath => by cases hpath) (fun hplace => by cases hplace)
  | some cleaned =>
    have hstep : ∀ s, Resolving root p followFinal s → (Exec.returned (root.step op p followFinal s)).Returns _ :=
      fun s hs => step_resolves hs
    have hstart : Resolving root p followFinal ⟨[], Rootfs.splitComponents cleaned, 0, []⟩ := resolving_start hc
    obtain ⟨r, hr, hloop⟩ := Exec.loop_returns (measure d) hstep hstart
    exact ⟨_, r, hr, fun fuel hfuel => by rw [resolve, hc]; exact hloop fuel hfuel⟩

/-! ### In the root -/

/-- The path leads down from the root's directory, and no name on it is a link, the last one at most if it is not to
be followed. -/
def Within (root : Sandbox d) (followFinal : Bool) (host : Text) : Prop :=
  ∃ L, host = root.path L ∧ ∀ M target, M <:+ L → (M = L → followFinal = true) → ¬ root.LinkAt M target

/-- The call ends in the root, if it ends anywhere, or it is made on the root's own path and does not follow it. -/
def Stays (root : Sandbox d) (m : Method) (host : Text) : Prop :=
  (∀ L, m.reaches d host = .found L ∨ m.reaches d host = .missing L → root.loc <:+ L) ∨
    host = root.dir ∧ m.callFollows = false

theorem Reached.within (h : Reached root followFinal L) : root.Within followFinal (root.path L) := by
  refine ⟨L, rfl, fun M target hML hlast hM => ?_⟩
  by_cases hne : M = L
  · subst hne
    exact h.last (hlast rfl) _ _ hM.kind
  · obtain ⟨r, rfl⟩ := hML
    cases r with
    | nil => exact hne rfl
    | cons n r =>
      have hparent : d.tree.kindAt (r ++ M ++ root.loc) = some .dir := h.parent (List.cons_ne_nil n _)
      cases r with
      | nil => exact hM.not_plain (.inl hparent)
      | cons m r =>
        refine hM.not_plain (.inl (d.tree.dir_above (List.cons_ne_nil m r) ?_))
        rw [← Tree.kindAt_isSome, ← List.append_assoc, hparent]
        rfl

/-- A call that follows a path of names that are no links ends at the path's location. -/
theorem Reached.follow (h : Reached root true L) :
    follow d (root.path L) = .found (L ++ root.loc) ∨ follow d (root.path L) = .missing (L ++ root.loc) := by
  cases L with
  | nil =>
    have hsteps : Root.mkdirSteps (root.path []) = root.names.map .down := by
      rw [Root.mkdirSteps, steps_path, List.reverse_nil, List.append_nil]
      exact List.filter_eq_self.mpr (by simp)
    refine .inl (Root.follow_of_mkdirSteps ?_ (kindAt_dir_iff.mpr root.leads.dir))
    rw [hsteps]
    exact root.leads.walk
  | cons n L =>
    have hD : d.tree.kindAt (L ++ root.loc) = some .dir := h.parent (List.cons_ne_nil n L)
    rw [Filesystem.follow, fullSteps, trailingSlash_path, if_neg Bool.false_ne_true, steps_path_cons]
    cases hn : d.tree.kindAt (n :: (L ++ root.loc)) with
    | none => exact .inr (walk_down_missing (leads_path hD).walk hD hn)
    | some kind =>
      cases kind with
      | dir => exact .inl (walk_down_found (leads_path hD).walk hD (.inl hn))
      | leaf => exact .inl (walk_down_found (leads_path hD).walk hD (.inr hn))
      | link r p => exact absurd hn (h.last rfl r p)

theorem Reached.nofollow (h : Reached root followFinal (n :: L)) :
    nofollow d (root.path (n :: L)) = .found (n :: L ++ root.loc) ∨
      nofollow d (root.path (n :: L)) = .missing (n :: L ++ root.loc) := by
  have hD : d.tree.kindAt (L ++ root.loc) = some .dir := h.parent (List.cons_ne_nil n L)
  have hsplit : splitLast (steps (root.path (n :: L))) ≠ none := by
    rw [steps_path_cons, splitLast_eq_some.mpr rfl]
    exact Option.some_ne_none _
  rw [Filesystem.nofollow, if_neg (by simp [trailingSlash_path, hsplit]), place_path n (.inl hD), if_pos hD]
  dsimp only
  split
  · exact .inl rfl
  · exact .inr rfl

theorem stays_of_eq {m : Method} {host : Text}
    (h : m.reaches d host = .found (L ++ root.loc) ∨ m.reaches d host = .missing (L ++ root.loc)) : root.Stays m host := by
  refine .inl fun M hM => ?_
  obtain rfl : L ++ root.loc = M := by
    rcases h with h | h <;> rw [h] at hM <;> simpa using hM
  exact List.suffix_append L root.loc

theorem Reached.stays {m : Method} (h : Reached root m.callFollows L) : root.Stays m (root.path L) := by
  cases hm : m.callFollows with
  | true =>
    rw [hm] at h
    apply stays_of_eq (L := L)
    rw [Method.reaches, if_pos hm]
    exact h.follow
  | false =>
    cases L with
    | nil => exact .inr ⟨by rw [path, dir, List.reverse_nil, List.append_nil], hm⟩
    | cons n L =>
      apply stays_of_eq (L := n :: L)
      rw [Method.reaches, if_neg (by rw [hm]; exact Bool.false_ne_true)]
      exact h.nofollow

/-- What is at the place that a path names is a link, or a call on its path stays. -/
theorem stays_of_place (hL : root.place p = some L) (hlink : ∀ target, ¬ root.LinkAt L target) :
    root.Stays .chtimes (root.path L) := by
  rw [place] at hL
  split at hL
  · cases hL
  · obtain ⟨-, n, D, -, -, hD, rfl⟩ := PathWalk.place_eq_some.mp hL
    refine .inl fun M hM => ?_
    have hfollow : follow d (root.path (n :: D)) ≠ .stuck := by
      rintro hstuck
      rcases hM with hM | hM <;> cases hstuck.symm.trans hM
    rw [follow, fullSteps, trailingSlash_path, if_neg Bool.false_ne_true, steps_path_cons] at hfollow
    -- A name below an entry that is no directory leads nowhere.
    obtain ⟨E, hE, hdir⟩ := d.tree.walk_take d.tree.root_dir (List.cons_ne_nil _ _) hfollow
    rw [← steps_path, walk_path (seen_eq_dir.mp hD)] at hE
    obtain rfl := Stop.found.inj hE
    have hreached : Reached root true (n :: D) := by
      refine ⟨fun _ => hdir, fun _ r q hkind => ?_⟩
      have hsome : (d.tree.get (n :: D ++ root.loc)).isSome := by
        rw [← Tree.kindAt_isSome, hkind]
        rfl
      rcases linkAt_or_plain hsome with ⟨target, h⟩ | h
      · exact hlink target h
      · exact h.not_link r q hkind
    have hstays : root.Stays .chtimes (root.path (n :: D)) := hreached.stays
    exact hstays.elim (fun h => h M hM) (fun h => by cases h.2)

/-- **Contained**. Resolution ends, after no more links than there may be, and the path it returns lies in the
root, with no link on it but a last one that it was not to follow. The call made on the path stays in the root, too,
unless `Chtimes` gets the path of a link that leads out of it. -/
theorem resolve_contained (root : Sandbox d) (m : Method) (p : Text) :
    (∃ turns r, (∀ fuel, turns < fuel → root.resolve m.op p m.followFinal fuel = .returned r) ∧
        r.links.length ≤ maxSymlinks ∧
        ∀ host, r.path = .ok host → root.Within m.followFinal host ∧ root.Stays m host) ↔
      (m = .chtimes → ∀ L, root.place p = some L → root.Stays m (root.path L)) := by
  obtain ⟨turns, r, hresolved, hr⟩ := root.resolve_returns m.op p m.followFinal
  constructor
  · rintro ⟨turns', r', hr', -, hstays⟩ rfl L hL
    have hboth := (hr (turns + turns' + 1) (by omega)).symm.trans (hr' (turns + turns' + 1) (by omega))
    obtain rfl : r = r' := Exec.returned.inj hboth
    by_cases hlink : ∃ target, root.LinkAt L target
    · obtain ⟨target, hlink⟩ := hlink
      exact (hstays _ ((hresolved.link rfl L target hlink).mpr hL)).2
    · exact stays_of_place hL (not_exists.mp hlink)
  · intro hcond
    refine ⟨turns, r, hr, hresolved.links, fun host hhost => ?_⟩
    obtain ⟨L, rfl, hreached⟩ := hresolved.reached host hhost
    refine ⟨hreached.within, ?_⟩
    by_cases hm : m = .chtimes
    · subst hm
      by_cases hlink : ∃ target, root.LinkAt L target
      · obtain ⟨target, hlink⟩ := hlink
        exact hcond rfl L ((hresolved.link rfl L target hlink).mp hhost)
      · have hlast : Reached root true L := by
          refine ⟨hreached.parent, fun _ r q hkind => ?_⟩
          have hsome : (d.tree.get (L ++ root.loc)).isSome := by
            rw [← Tree.kindAt_isSome, hkind]
            rfl
          rcases linkAt_or_plain hsome with h | h
          · exact hlink h
          · exact h.not_link r q hkind
        exact hlast.stays
    · apply Reached.stays
      rw [Method.callFollows_eq hm]
      exact hreached

/-- `/a` with a link to `../b` in it, and a file `/b`. -/
def escape : FsTree :=
  Tree.ofList [([], ⟨.dir, 0o755, 0, 0, 0⟩), ([⟨['a'], isName_a⟩], ⟨.dir, 0o755, 0, 0, 0⟩),
    ([⟨['u'], isName_u⟩, ⟨['a'], isName_a⟩], ⟨.symlink ['.', '.', '/', 'b'], 0o777, 0, 0, 0⟩),
    ([⟨['b'], isName_b⟩], ⟨.file ['x'], 0o600, 0, 0, 0⟩)] (by decide) (by decide)

/-- The directory `/a` as a root. -/
def escapeRoot : Sandbox (.start escape) := ⟨[⟨['a'], isName_a⟩], [⟨['a'], isName_a⟩], ⟨rfl, rfl⟩⟩

/-- `Chtimes` of the link sets the times of the file outside. -/
theorem chtimes_leaves :
    ¬ ∃ turns r, (∀ fuel, turns < fuel →
        escapeRoot.resolve Method.chtimes.op ['/', 'u'] Method.chtimes.followFinal fuel = .returned r) ∧
      r.links.length ≤ maxSymlinks ∧
      ∀ host, r.path = .ok host → escapeRoot.Within Method.chtimes.followFinal host ∧ escapeRoot.Stays .chtimes host := by
  rintro ⟨turns, r, hr, -, hpath⟩
  have hlast := hr (turns + 2) (by omega)
  have hhost : escapeRoot.resolve Method.chtimes.op ['/', 'u'] Method.chtimes.followFinal (turns + 2) =
      .returned ⟨.ok ['/', 'a', '/', 'u'], []⟩ := rfl
  obtain rfl := Exec.returned.inj (hhost.symm.trans hlast)
  obtain ⟨-, hin | hin⟩ := hpath _ rfl
  · have hreach : Method.chtimes.reaches (.start escape) ['/', 'a', '/', 'u'] = .found [⟨['b'], isName_b⟩] := rfl
    have hsuffix := hin _ (.inl hreach)
    exact absurd hsuffix (by decide)
  · exact absurd hin.2 (by decide)

end Sandbox

end OpenshiftConsole.Filesystem
