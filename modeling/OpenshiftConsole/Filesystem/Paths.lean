import OpenshiftConsole.Library.Lines
import OpenshiftConsole.Library.PathWalk

/-!
# Path texts

The functions on path texts that the filesystem plugin uses: Go's `path.Clean` and
`path.Dir`, the package `rootfs`'s own (`Rootfs`), and how the kernel takes a path text apart (`steps`). A text is a
byte string, one `Char` a byte.

`path.Clean` works on the text alone and removes `x/..`, whatever `x` is in the file
system; the kernel's `..` is a step from wherever the steps before it have led. Both
are here, and `steps_append_slash` and `Rootfs.steps_join` say how the kernel reads what the
plugin puts together.
-/

namespace OpenshiftConsole.Filesystem

open OpenshiftConsole.Library.Lines (Text)
open OpenshiftConsole.Library.PathWalk

/-! ### Names and steps -/

/-- Whether a component of a path text is a name of its own: not empty, `.` or `..`. -/
def IsName (c : Text) : Bool := !c.isEmpty && !c.contains '/' && c != ['.'] && c != ['.', '.']

/-- A file name. -/
def Name := { c : Text // IsName c = true }

instance : DecidableEq Name := inferInstanceAs (DecidableEq { c : Text // IsName c = true })

-- The names that the small trees of several modules have in common.
theorem isName_a : IsName ['a'] = true := rfl
theorem isName_b : IsName ['b'] = true := rfl
theorem isName_l : IsName ['l'] = true := rfl
theorem isName_u : IsName ['u'] = true := rfl
theorem isName_w : IsName ['w'] = true := rfl
theorem isName_sys : IsName "sys".toList = true := rfl

/-- The step that a component of a path text stands for; an empty one stands for none. -/
def stepOf (c : Text) : Option (Step Name) :=
  if c = [] then none
  else if c = ['.'] then some .here
  else if c = ['.', '.'] then some .up
  else if h : IsName c = true then some (.down ⟨c, h⟩)
  else none

/-- The steps of a path text, as the kernel reads it. -/
def steps (p : Text) : List (Step Name) := (p.splitOn '/').filterMap stepOf

/-- Whether a path text ends with a slash. -/
def trailingSlash (p : Text) : Bool := p.getLast? == some '/'

/-- The steps of a path that is followed to its end: after a trailing slash only a directory will do. -/
def fullSteps (p : Text) : List (Step Name) := if trailingSlash p then steps p ++ [.here] else steps p

theorem steps_append_slash (a b : Text) : steps (a ++ '/' :: b) = steps a ++ steps b := by
  rw [steps, List.splitOn_append_cons_self, List.filterMap_append]
  rfl

theorem steps_nil : steps [] = [] := by decide

theorem steps_slash (p : Text) : steps ('/' :: p) = steps p := by
  rw [← List.nil_append ('/' :: p), steps_append_slash, steps_nil, List.nil_append]

theorem steps_append_singleton_slash (p : Text) : steps (p ++ ['/']) = steps p := by
  rw [steps_append_slash, steps_nil, List.append_nil]

theorem steps_of_notMem {c : Text} (hc : '/' ∉ c) : steps c = (stepOf c).toList := by
  rw [steps, List.splitOn_eq_singleton hc]
  cases h : stepOf c <;> simp [h]

theorem steps_name (n : Name) : steps n.val = [.down n] := by
  obtain ⟨c, hc⟩ := n
  have hc' := hc
  simp only [IsName, Bool.and_eq_true, Bool.not_eq_true', bne_iff_ne, ne_eq, List.isEmpty_eq_false_iff] at hc'
  obtain ⟨⟨⟨h₁, h₂⟩, h₃⟩, h₄⟩ := hc'
  rw [steps_of_notMem (by simpa using h₂)]
  simp [stepOf, h₁, h₃, h₄, hc]

/-! ### Slashes at the ends -/

/-- `strings.TrimLeft(p, "/")` -/
def trimLeft (p : Text) : Text := p.dropWhile (· == '/')

/-- `strings.Trim(p, "/")` -/
def trim (p : Text) : Text := (trimLeft (trimLeft p).reverse).reverse

theorem steps_trimLeft (p : Text) : steps (trimLeft p) = steps p := by
  induction p with
  | nil => rfl
  | cons c p ih =>
    rw [trimLeft, List.dropWhile_cons]
    split
    · rename_i hc
      rw [eq_of_beq hc, steps_slash]
      exact ih
    · rfl

theorem steps_reverse_trimLeft (q : Text) : steps (trimLeft q).reverse = steps q.reverse := by
  induction q with
  | nil => rfl
  | cons c q ih =>
    rw [trimLeft, List.dropWhile_cons]
    split
    · rename_i hc
      rw [eq_of_beq hc, List.reverse_cons, steps_append_singleton_slash]
      exact ih
    · rfl

theorem steps_trim (p : Text) : steps (trim p) = steps p := by
  rw [trim, steps_reverse_trimLeft, List.reverse_reverse, steps_trimLeft]

/-! ### Go's package path -/

/-- One component of `path.Clean`: the components kept so far, last first. -/
def cleanStep (rooted : Bool) (kept : List Text) (c : Text) : List Text :=
  if c = [] ∨ c = ['.'] then kept
  else if c = ['.', '.'] then
    match kept with
    | [] => if rooted then [] else [c]
    | d :: rest => if d = ['.', '.'] then c :: kept else rest
  else c :: kept

/-- `path.Clean` -/
def pathClean (p : Text) : Text :=
  let rooted := p.head? == some '/'
  let kept := ((p.splitOn '/').foldl (cleanStep rooted) []).reverse
  if rooted then '/' :: List.intercalate ['/'] kept
  else if kept = [] then ['.'] else List.intercalate ['/'] kept

/-- `path.Dir`: all up to the last slash, cleaned. -/
def pathDir (p : Text) : Text := pathClean (p.reverse.dropWhile (· != '/')).reverse

/-- What is kept of a path are components of it. -/
theorem mem_cleanStep {rooted : Bool} {c x : Text} {kept : List Text} (h : x ∈ cleanStep rooted kept c) :
    x = c ∨ x ∈ kept := by
  unfold cleanStep at h
  split at h
  · exact .inr h
  · split at h
    · split at h
      · split at h
        · cases h
        · exact .inl (List.mem_singleton.mp h)
      · split at h
        · exact List.mem_cons.mp h
        · exact .inr (List.mem_cons_of_mem _ h)
    · exact List.mem_cons.mp h

theorem mem_foldl_cleanStep {rooted : Bool} {l kept : List Text} {x : Text} (h : x ∈ l.foldl (cleanStep rooted) kept) :
    x ∈ l ∨ x ∈ kept := by
  induction l generalizing kept with
  | nil => exact .inr h
  | cons c l ih =>
    rcases ih h with h | h
    · exact .inl (List.mem_cons_of_mem c h)
    · rcases mem_cleanStep h with rfl | h
      · exact .inl List.mem_cons_self
      · exact .inr h

/-! ### Package rootfs -/

namespace Rootfs

/-- `CleanPath`: `none` where it is an error. -/
def cleanPath (p : Text) : Option Text :=
  if p.contains '\x00' then none
  else if trimLeft p = [] then some ['.'] else some (trimLeft p)

/-- `Root.resolve` of the native root: the path that is passed to the kernel. -/
def resolve (p : Text) : Option Text :=
  (cleanPath p).map fun cleaned => if cleaned = ['.'] then ['/'] else '/' :: cleaned

/-- `Join` -/
def join (dir name : Text) : Text :=
  if trim dir = [] then '/' :: name else '/' :: trim dir ++ '/' :: name

/-- `splitComponents` -/
def splitComponents (p : Text) : List Text := (p.splitOn '/').filter fun c => c != [] && c != ['.']

/-- `SplitParent`: `none` where it is an error. -/
def splitParent (p : Text) : Option (Text × Text) :=
  match cleanPath p with
  | none => none
  | some cleaned =>
    if cleaned = ['.'] then none
    else if !cleaned.contains '/' then some (['.'], cleaned)
    else
      let base := (cleaned.reverse.takeWhile (· != '/')).reverse
      let dir := ((cleaned.reverse.dropWhile (· != '/')).drop 1).reverse
      if base = [] ∨ base = ['.'] ∨ base = ['.', '.'] then none
      else some (if dir = [] then ['.'] else dir, base)

theorem steps_join (dir name : Text) : steps (join dir name) = steps dir ++ steps name := by
  rw [join]
  split
  · rename_i h
    rw [steps_slash, ← steps_trim dir, h, steps_nil, List.nil_append]
  · rw [List.cons_append, steps_slash, steps_append_slash, steps_trim]

theorem trailingSlash_trimLeft {p : Text} (h : trimLeft p ≠ []) : trailingSlash (trimLeft p) = trailingSlash p := by
  obtain ⟨w, hw⟩ := List.dropWhile_suffix (l := p) (· == '/')
  rw [trimLeft] at h ⊢
  generalize p.dropWhile (· == '/') = q at h hw ⊢
  rw [trailingSlash, trailingSlash, ← hw, List.getLast?_append_of_ne_nil _ h]

theorem steps_cleanPath {p cleaned : Text} (h : cleanPath p = some cleaned) (hd : cleaned ≠ ['.']) :
    steps cleaned = steps p := by
  rw [cleanPath] at h
  split at h
  · cases h
  · split at h
    · exact absurd (Option.some.inj h).symm hd
    · rw [← Option.some.inj h, steps_trimLeft]

theorem trimLeft_of_cleanPath {p : Text} (h : cleanPath p = some ['.']) : trimLeft p = [] ∨ trimLeft p = ['.'] := by
  rw [cleanPath] at h
  split at h
  · cases h
  · split at h
    · exact .inl ‹_›
    · exact .inr (Option.some.inj h)

/-- What the kernel gets to read is the path itself, or `/` where the path has no name. -/
theorem resolve_eq_some {p host : Text} (h : resolve p = some host) :
    steps host = steps p ∧ trailingSlash host = trailingSlash p ∨
      host = ['/'] ∧ (trimLeft p = [] ∨ trimLeft p = ['.']) := by
  rw [resolve, cleanPath] at h
  by_cases hz : p.contains '\x00' = true
  · rw [if_pos hz] at h
    cases h
  · rw [if_neg hz] at h
    by_cases ht : trimLeft p = []
    · rw [if_pos ht] at h
      exact .inr ⟨(Option.some.inj h).symm, .inl ht⟩
    · rw [if_neg ht] at h
      by_cases hd : trimLeft p = ['.']
      · rw [hd] at h
        exact .inr ⟨(Option.some.inj h).symm, .inr hd⟩
      · rw [Option.map_some, if_neg hd] at h
        obtain rfl := Option.some.inj h
        refine .inl ⟨by rw [steps_slash, steps_trimLeft], ?_⟩
        rw [← trailingSlash_trimLeft ht, trailingSlash, List.getLast?_cons_of_ne_nil ht]
        rfl

theorem steps_of_root {p : Text} (h : trimLeft p = [] ∨ trimLeft p = ['.']) : steps p = [] ∨ steps p = [.here] := by
  rw [← steps_trimLeft p]
  rcases h with h | h <;> rw [h]
  · exact .inl steps_nil
  · exact .inr (by decide)

/-- A path that is followed leads to where the one passed to the kernel does. -/
theorem walk_resolve {p host : Text} (h : resolve p = some host) (k : Loc Name → Option (Kind Name)) (m : ℕ) :
    walk k m [] (fullSteps host) = walk k m [] (fullSteps p) := by
  rcases resolve_eq_some h with ⟨hs, ht⟩ | ⟨rfl, hp⟩
  · rw [fullSteps, fullSteps, hs, ht]
  · have hroot : ∀ q, steps q = [] ∨ steps q = [.here] → walk k m [] (fullSteps q) = .found [] := by
      intro q hq
      refine walk_of_advance ?_ (by simp)
      rw [fullSteps]
      split <;> rcases hq with hq | hq <;> simp [hq, advance]
    rw [hroot _ (.inl (by decide)), hroot _ (steps_of_root hp)]

/-- A path with a last name is passed to the kernel with its steps. -/
theorem steps_resolve {p host : Text} (h : resolve p = some host) {i : List (Step Name)} {n : Name}
    (hs : steps host = i ++ [.down n]) : steps p = i ++ [.down n] := by
  rcases resolve_eq_some h with ⟨hs', -⟩ | ⟨rfl, -⟩
  · rw [← hs', hs]
  · have : steps ['/'] = [] := by decide
    rw [this] at hs
    simp at hs

theorem trailingSlash_resolve {p host : Text} (h : resolve p = some host) {i : List (Step Name)} {n : Name}
    (hs : steps host = i ++ [.down n]) : trailingSlash host = trailingSlash p := by
  rcases resolve_eq_some h with ⟨-, ht⟩ | ⟨rfl, -⟩
  · exact ht
  · have : steps ['/'] = [] := by decide
    rw [this] at hs
    simp at hs

end Rootfs

end OpenshiftConsole.Filesystem
