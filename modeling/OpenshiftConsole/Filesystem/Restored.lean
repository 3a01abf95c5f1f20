import OpenshiftConsole.Filesystem.Archived
import OpenshiftConsole.Filesystem.ExtractBudget

/-!
# What an extraction makes of an archive

Members that come in the order of a walk over a tree, each after the directory that it is in, and whose
names have no backslash are put below the destination one by one, and what stands there after each is
the part of the tree that has come (`extractMembers_restores`).

No name with a backslash is ever made: `safeName` takes a backslash for a slash, whatever the archive
(`extractMembers_tidy`).
-/

namespace OpenshiftConsole.Filesystem.Extract

open OpenshiftConsole.Library.Lines (Text mem_of_mem_splitOn notMem_of_mem_splitOn)
open OpenshiftConsole.Library.PathWalk OpenshiftConsole.Library.FileTree

variable {K : Kernel} {d d' : Fs} {D E L R : Loc Name} {p target dest : Text} {n : Name} {ns ms : List Name}
  {limits : ExtractLimits}

/-! ### Names of members -/

theorem safeName_spells (h : Spells p ns) (hns : ns ≠ []) (hb : '\\' ∉ p) (hh : p.head? ≠ some '/') :
    safeName p = .ok (spell ns) := by
  have hz : ¬ p.contains '\x00' = true := by simpa using h.nul
  have hmap : (p.map fun c => if c = '\\' then '/' else c) = p := by
    refine (List.map_congr_left fun c hc => if_neg ?_).trans (List.map_id p)
    rintro rfl
    exact hb hc
  have hclean : pathClean p = spell ns := by rw [h.pathClean, if_neg (by simpa using hh), if_neg hns]
  have hsteps : steps (spell ns) = ns.map .down := (spells_spell h.nul_names).steps
  have hdot : spell ns ≠ ['.'] := by
    intro he
    rw [he, show steps ['.'] = [.here] by decide] at hsteps
    cases ns <;> cases hsteps
  have hroot : spell ns ≠ ['/'] := by
    intro he
    rw [he, show steps ['/'] = [] by decide] at hsteps
    exact hns (List.map_eq_nil_iff.mp hsteps.symm)
  have hup : .up ∉ steps (spell ns) := by
    rw [hsteps]
    simp
  have hdots : spell ns ≠ ['.', '.'] := by
    intro he
    rw [he] at hup
    exact hup (by decide)
  have hbeyond : ¬ ['.', '.', '/'].isPrefixOf (spell ns) = true := by
    intro hp
    obtain ⟨rest, hrest⟩ := List.isPrefixOf_iff_prefix.mp hp
    have hs : steps (spell ns) = steps ['.', '.'] ++ steps rest := by
      rw [← steps_append_slash, ← hrest]
      rfl
    rw [hs] at hup
    exact hup (List.mem_append_left _ (by decide))
  rw [safeName]
  rw [if_neg hz]
  dsimp only
  rw [hmap, if_neg hh, hclean, if_neg (by simp [hdot, hroot]), if_neg (by simpa [hdots] using hbeyond)]

/-- What cleaning a relative path keeps, last first: names, below any number of `..`. -/
def Kept (kept : List Text) : Prop :=
  ∃ names dots, kept = names ++ dots ∧ (∀ c ∈ names, c ≠ [] ∧ c ≠ ['.'] ∧ c ≠ ['.', '.']) ∧ ∀ c ∈ dots, c = ['.', '.']

theorem Kept.cleanStep {kept : List Text} (h : Kept kept) (c : Text) : Kept (cleanStep false kept c) := by
  obtain ⟨names, dots, rfl, hnames, hdots⟩ := h
  unfold Filesystem.cleanStep
  split
  · exact ⟨names, dots, rfl, hnames, hdots⟩
  · rename_i hc
    split
    · rename_i hup
      cases names with
      | nil =>
        have hall : ∀ x ∈ c :: dots, x = ['.', '.'] := by
          intro x hx
          rcases List.mem_cons.mp hx with rfl | hx
          · exact hup
          · exact hdots x hx
        cases dots with
        | nil => exact ⟨[], [c], rfl, by simp, hall⟩
        | cons u dots =>
          simp only [List.nil_append]
          rw [if_pos (hdots u List.mem_cons_self)]
          exact ⟨[], _, rfl, by simp, hall⟩
      | cons x names =>
        simp only [List.cons_append]
        rw [if_neg (hnames x List.mem_cons_self).2.2]
        exact ⟨names, dots, rfl, fun c hc => hnames c (List.mem_cons_of_mem x hc), hdots⟩
    · rename_i hup
      refine ⟨c :: names, dots, rfl, fun x hx => ?_, hdots⟩
      rcases List.mem_cons.mp hx with rfl | hx
      · exact ⟨fun h => hc (.inl h), fun h => hc (.inr h), hup⟩
      · exact hnames x hx

theorem kept_foldl (l : List Text) {kept : List Text} (h : Kept kept) : Kept (l.foldl (cleanStep false) kept) := by
  induction l generalizing kept with
  | nil => exact h
  | cons c l ih => exact ih (h.cleanStep c)

theorem exists_names {l : List Text} (h : ∀ c ∈ l, IsName c = true) : ∃ ns : List Name, l = ns.map Name.text := by
  induction l with
  | nil => exact ⟨[], rfl⟩
  | cons c l ih =>
    obtain ⟨ns, rfl⟩ := ih fun c hc => h c (List.mem_cons_of_mem _ hc)
    exact ⟨⟨c, h c List.mem_cons_self⟩ :: ns, rfl⟩

/-- A relative path that is not cleaned to the directory itself or one above it spells names. -/
theorem pathClean_relative {q : Text} (hz : '\x00' ∉ q) (hh : q.head? ≠ some '/') (hdot : pathClean q ≠ ['.'])
    (hdots : pathClean q ≠ ['.', '.']) (hbeyond : ¬ ['.', '.', '/'].isPrefixOf (pathClean q) = true) :
    ∃ ns, ns ≠ [] ∧ pathClean q = spell ns ∧ (∀ n ∈ ns, '\x00' ∉ n.text) ∧ ∀ n ∈ ns, ∀ c ∈ n.text, c ∈ q := by
  have hclean : pathClean q = if ((q.splitOn '/').foldl (cleanStep false) []).reverse = [] then ['.']
      else List.intercalate ['/'] ((q.splitOn '/').foldl (cleanStep false) []).reverse := by
    unfold pathClean
    dsimp only
    rw [show (q.head? == some '/') = false by simpa using hh]
    rfl
  have hnil : Kept [] := ⟨[], [], rfl, by simp, by simp⟩
  obtain ⟨names, dots, hkept, hnames, hdot'⟩ := kept_foldl (q.splitOn '/') hnil
  have hmem : ∀ c ∈ names, c ∈ q.splitOn '/' := by
    intro c hc
    have hc' : c ∈ (q.splitOn '/').foldl (cleanStep false) [] := by
      rw [hkept]
      exact List.mem_append_left _ hc
    exact (mem_foldl_cleanStep hc').resolve_right List.not_mem_nil
  rw [hkept, List.reverse_append] at hclean
  have hnone : dots = [] := by
    rcases List.eq_nil_or_concat dots with hd | ⟨u, x, rfl⟩
    · exact hd
    · exfalso
      have hx : x = ['.', '.'] := hdot' x (by simp)
      rw [List.concat_eq_append, List.reverse_append, List.reverse_singleton, List.singleton_append, List.cons_append,
        if_neg (List.cons_ne_nil _ _), hx] at hclean
      cases hu : u.reverse ++ names.reverse with
      | nil =>
        rw [hu, List.intercalate_singleton] at hclean
        exact hdots hclean
      | cons v vs =>
        rw [hu, List.intercalate_cons_cons] at hclean
        exact hbeyond (List.isPrefixOf_iff_prefix.mpr ⟨_, hclean.symm⟩)
  rw [hnone, List.reverse_nil, List.nil_append] at hclean
  have hisName : ∀ c ∈ names.reverse, IsName c = true := by
    intro c hc
    have hc := List.mem_reverse.mp hc
    obtain ⟨h₁, h₂, h₃⟩ := hnames c hc
    have h₄ := notMem_of_mem_splitOn (hmem c hc)
    simp [IsName, h₁, h₂, h₃, h₄]
  obtain ⟨ns, hns⟩ := exists_names hisName
  have hchar : ∀ n ∈ ns, ∀ c ∈ n.text, c ∈ q := by
    intro n hn c hc
    have hm : n.text ∈ names.reverse := hns ▸ List.mem_map_of_mem hn
    exact mem_of_mem_splitOn (hmem _ (List.mem_reverse.mp hm)) hc
  rw [hns] at hclean
  refine ⟨ns, ?_, ?_, fun n hn hc => hz (hchar n hn _ hc), hchar⟩
  · rintro rfl
    exact hdot hclean
  · rw [hclean, if_neg]
    · rfl
    · intro hnil
      rw [List.map_eq_nil_iff.mp hnil] at hclean
      exact hdot hclean

/-- A member's name that is extracted spells names, in none of which is a backslash. -/
theorem safeName_ok {name : Text} (h : safeName p = .ok name) (hne : name ≠ []) :
    ∃ ns, ns ≠ [] ∧ name = spell ns ∧ (∀ n ∈ ns, '\x00' ∉ n.text) ∧ ∀ n ∈ ns, '\\' ∉ n.text := by
  rw [safeName] at h
  split at h
  · cases h
  · rename_i hz
    have hz : '\x00' ∉ p := by simpa using hz
    dsimp only at h
    split at h
    · cases h
    · rename_i hh
      split at h
      · exact absurd (Except.ok.inj h).symm hne
      · rename_i hdot
        split at h
        · cases h
        · rename_i hdots
          rw [not_or] at hdot hdots
          have hmap : ∀ x ∈ p.map (fun c => if c = '\\' then '/' else c), x ≠ '\x00' ∧ x ≠ '\\' := by
            intro x hx
            obtain ⟨c, hc, rfl⟩ := List.mem_map.mp hx
            split
            · exact ⟨by decide, by decide⟩
            · exact ⟨fun he => hz (he ▸ hc), ‹_›⟩
          obtain ⟨ns, hns, hspell, hnul, hchar⟩ :=
            pathClean_relative (fun hm => (hmap _ hm).1 rfl) hh hdot.1 hdots.1 hdots.2
          exact ⟨ns, hns, (Except.ok.inj h).symm.trans hspell, hnul, fun n hn hb => (hmap _ (hchar n hn _ hb)).2 rfl⟩

/-! ### One member -/

/-- The path of what is written: names, the last of which is one in the directory `D`. -/
structure Target (d : Fs) (p : Text) (ns : List Name) (n : Name) (D : Loc Name) : Prop where
  spells : Spells p (ns ++ [n])
  slash : trailingSlash p = false
  root : p.head? = some '/'
  leads : Leads d (ns.map .down) D

theorem Target.names (h : Target d target ns n D) : Names d target (ns.map .down) n D :=
  ⟨h.spells.steps_concat, h.spells.nul, h.slash, h.leads⟩

/-- The directory of what is written is there. -/
theorem makeParent_there (h : Target d target ns n D) : makeParent K target d = (d, none) := by
  unfold makeParent
  dsimp only
  have hnul : ∀ m ∈ ns, '\x00' ∉ m.text := fun m hm => h.spells.nul_names m (List.mem_append_left _ hm)
  rw [h.spells.pathDir h.slash h.root]
  split
  · exact mkdirAll_there (spells_spell hnul).slash h.leads 0o755
  · rfl

theorem nodeAt_setTimes {modTime : Option Time} : nodeAt (setTimes K target modTime d) = nodeAt d := by
  unfold setTimes
  split
  · rfl
  · split
    · obtain ⟨L, rfl⟩ := Root.chtimes_eq ‹_›
      exact nodeAt_alter (Entry.node_setMtime _)
    · rfl

theorem writeSymlink_missing (overwrite : Bool) {link : Text} (h : Target d target ns n D) (hK : K.Willing)
    (hn : nodeAt d (n :: D) = none) (hlink : link ≠ [] ∧ '\x00' ∉ link) :
    ∃ d', writeSymlink K target link overwrite d = (d', none) ∧
      nodeAt d' = Function.update (nodeAt d) (n :: D) (some (.symlink link)) := by
  obtain ⟨d', hd', hnodes⟩ := h.names.symlink hK hn hlink
  refine ⟨d', ?_, hnodes⟩
  have hroom : makeRoom K target overwrite d = (d, none) := by
    rw [makeRoom]
    rw [h.names.lstat_missing hn, if_neg Bool.false_ne_true]
  rw [writeSymlink, makeParent_there h]
  dsimp only
  rw [hroom]
  dsimp only
  rw [hd']

theorem writeFile_missing (copy : ℤ → Body → Copied) (perm : ℕ) (src : Body) (overwrite : Bool) (budget : ℤ)
    (h : Target d target ns n D) (hK : K.Willing) (hn : nodeAt d (n :: D) = none) :
    ∃ d', writeFile K copy target perm src overwrite budget d = (d', copy budget src) ∧
      nodeAt d' = Function.update (nodeAt d) (n :: D) (some (.file (src.data.take (copy budget src).n))) := by
  obtain ⟨d', hd', hnodes⟩ := h.names.openWrite hK hn (if perm = 0 then 0o644 else perm)
  refine ⟨write K d' (n :: D) 0 (src.data.take (copy budget src).n), ?_, ?_⟩
  · rw [writeFile, makeParent_there h]
    dsimp only
    rw [h.names.lstat_missing hn, Bool.and_false, if_neg Bool.false_ne_true, hd']
  · have hfile : nodeAt d' (n :: D) = some (.file []) := by rw [hnodes, Function.update_self]
    rw [nodeAt_write hfile, hnodes, Function.update_idem]

/-- The member is of the node that is to be at `y` below the destination. -/
structure Member.Holds (m : Member) (y : Loc Name) (node : Node) : Prop where
  name : safeName m.name = .ok (spell y.reverse)
  nul : ∀ n ∈ y, '\x00' ∉ n.text
  content :
    match node with
    | .dir => m.content = .dir
    | .file data => m.content = .regular none ⟨data, none⟩
    | .symlink link => m.content = .symlink (.ok link) ∧ link ≠ [] ∧ '\x00' ∉ link
    | .special => False

/-- The members left stay within the limits; without a limit no file is longer than `writeFile` takes. -/
structure Within (maxEntries : ℤ) (written : ℕ) (budget : ℤ) (members : List Member) : Prop where
  entries : 0 < maxEntries → (written + members.length : ℤ) ≤ maxEntries
  bytes : 0 < budget → ((members.map Member.size).sum : ℤ) ≤ budget
  each : budget ≤ 0 → ∀ m ∈ members, m.size ≤ 2 ^ 62

/-- What is made of a node: a file stays empty with the largest budget there is. -/
def restored (maxBytes : ℤ) : Node → Node
  | .file data => .file (if maxBytes = 2 ^ 63 - 1 then [] else data)
  | node => node

theorem restored_eq_dir {maxBytes : ℤ} {node : Node} : restored maxBytes node = .dir ↔ node = .dir := by
  cases node <;> simp [restored]

/-- The budget is what is left of `maxBytes`. -/
structure LeftOf (maxBytes budget : ℤ) : Prop where
  le : budget ≤ maxBytes
  largest : maxBytes = 2 ^ 63 - 1 → budget = maxBytes

/-- A file within the budget. -/
theorem copyWithin_plain {maxBytes budget : ℤ} {data : Text} (hmax : maxBytes < 2 ^ 63) (h : LeftOf maxBytes budget)
    (hle : 0 < budget → (data.length : ℤ) ≤ budget) (heach : budget ≤ 0 → data.length ≤ 2 ^ 62) :
    ∃ k budget', copyWithin budget ⟨data, none⟩ = ⟨k, none, budget'⟩ ∧
      restored maxBytes (.file data) = .file (data.take k) ∧ LeftOf maxBytes budget' ∧
      (budget' = budget ∨ 0 < budget ∧ budget' = budget - data.length) := by
  have hbound := h.le
  by_cases hm : maxBytes = 2 ^ 63 - 1
  · refine ⟨0, budget, ?_, ?_, h, .inl rfl⟩
    · rw [h.largest hm, hm, copyWithin_largest]
      rfl
    · rw [restored, if_pos hm, List.take_zero]
  · have hlimit : (data.length : ℤ) ≤ limitOf budget := by
      rw [limitOf]
      split
      · have := heach ‹_›
        omega
      · exact hle (by omega)
    refine ⟨data.length, _, copyWithin_of_le (by omega) hlimit, ?_, ⟨?_, fun he => absurd he hm⟩, ?_⟩
    · rw [restored, if_neg hm, List.take_length]
    · split
      · have : 0 ≤ (data.length : ℤ) := Int.natCast_nonneg _
        simp only [Body.whole]
        omega
      · exact hbound
    · split
      · rename_i hpos
        exact .inr ⟨hpos.2, rfl⟩
      · exact .inl rfl

/-- One member fewer. -/
theorem Within.tail {maxEntries budget budget' : ℤ} {written : ℕ} {m : Member} {members : List Member}
    (h : Within maxEntries written budget (m :: members)) (hb : budget' = budget ∨ 0 < budget ∧ budget' = budget - m.size) :
    Within maxEntries (written + 1) budget' members := by
  have hbytes := h.bytes
  rw [List.map_cons, List.sum_cons] at hbytes
  refine ⟨fun hpos => ?_, fun hpos => ?_, fun hle x hx => ?_⟩
  · have hcount := h.entries hpos
    rw [List.length_cons] at hcount
    omega
  · have := hbytes (by omega)
    omega
  · rcases hb with rfl | ⟨hpos, rfl⟩
    · exact h.each hle x (List.mem_cons_of_mem m hx)
    · -- the budget is used up, and what is left is empty
      have hsum := hbytes hpos
      have hnone := List.sum_eq_zero_iff_forall_eq_nat.mp (by omega : (members.map Member.size).sum = 0)
      rw [hnone _ (List.mem_map_of_mem hx)]
      exact Nat.zero_le _

theorem Within.skip {maxEntries budget : ℤ} {written : ℕ} {m : Member} {members : List Member}
    (h : Within maxEntries written budget (m :: members)) : Within maxEntries written budget members := by
  have hbytes := h.bytes
  rw [List.map_cons, List.sum_cons] at hbytes
  refine ⟨fun hpos => ?_, fun hpos => ?_, fun hle x hx => h.each hle x (List.mem_cons_of_mem m hx)⟩
  · have hcount := h.entries hpos
    rw [List.length_cons] at hcount
    omega
  · have := hbytes hpos
    omega

variable {m : Member} {members : List Member} {node : Node} {s : Progress} {y : Loc Name}

/-- The member's node is put at a place where there is nothing. -/
theorem writeMember_holds (overwrite : Bool) (hK : K.Willing) (h : Target s.disk target ns n D)
    (hn : nodeAt s.disk (n :: D) = none) (hm : m.Holds y node) (hmax : limits.maxBytes < 2 ^ 63)
    (hb : LeftOf limits.maxBytes s.budget) (hw : Within limits.maxEntries s.written s.budget (m :: members)) :
    ∃ s', writeMember K copyWithin target overwrite m s = (some s', none) ∧ s'.written = s.written ∧
      nodeAt s'.disk = Function.update (nodeAt s.disk) (n :: D) (some (restored limits.maxBytes node)) ∧
      LeftOf limits.maxBytes s'.budget ∧
      (s'.budget = s.budget ∨ 0 < s.budget ∧ s'.budget = s.budget - m.size) := by
  have hcontent := hm.content
  rw [writeMember]
  cases node with
  | dir =>
    dsimp only at hcontent
    obtain ⟨d', hd', hnodes⟩ := mkdirAll_missing h.spells h.leads hK hn m.perm
    rw [hcontent]
    dsimp only
    rw [hd']
    exact ⟨_, rfl, rfl, hnodes, hb, .inl rfl⟩
  | symlink link =>
    obtain ⟨hcontent, hlink⟩ := hcontent
    obtain ⟨d', hd', hnodes⟩ := writeSymlink_missing overwrite h hK hn hlink
    rw [hcontent]
    dsimp only
    rw [hd']
    exact ⟨_, rfl, rfl, hnodes, hb, .inl rfl⟩
  | file data =>
    dsimp only at hcontent
    have hsize : m.size = data.length := by rw [Member.size, hcontent]
    have hbytes := hw.bytes
    rw [List.map_cons, List.sum_cons, hsize] at hbytes
    obtain ⟨k, budget', hcopy, hrestored, hb', hleft⟩ := copyWithin_plain hmax hb
      (fun hpos => by have := hbytes hpos; omega) (fun hle => hsize ▸ hw.each hle m List.mem_cons_self)
    obtain ⟨d', hd', hnodes⟩ := writeFile_missing copyWithin m.perm ⟨data, none⟩ overwrite s.budget h hK hn
    rw [hcopy] at hd' hnodes
    rw [hcontent, hsize, hrestored]
    dsimp only
    rw [hd']
    exact ⟨_, rfl, rfl, hnodes, hb', hleft⟩
  | special => exact absurd hcontent id

/-- **One turn of the loop** puts the member's node at its place, and changes nothing else. -/
theorem extractMember_holds (overwrite : Bool) (hK : K.Willing) (hdest : Spells dest ms)
    (hR : Leads s.disk (ms.map .down) R)
    (habove : nodeAt s.disk (y ++ R) = some .dir) (hn : nodeAt s.disk (n :: y ++ R) = none) (hm : m.Holds (n :: y) node)
    (hmax : limits.maxBytes < 2 ^ 63) (hb : LeftOf limits.maxBytes s.budget)
    (hw : Within limits.maxEntries s.written s.budget (m :: members)) :
    ∃ s', extractMember K copyWithin dest overwrite limits m s = (s', none) ∧
      nodeAt s'.disk = Function.update (nodeAt s.disk) (n :: y ++ R) (some (restored limits.maxBytes node)) ∧
      LeftOf limits.maxBytes s'.budget ∧ Within limits.maxEntries s'.written s'.budget members := by
  have hne : (n :: y).reverse ≠ [] := by simp
  have hrev : ∀ k ∈ (n :: y).reverse, '\x00' ∉ k.text := fun k hk => hm.nul k (List.mem_reverse.mp hk)
  have htarget : Target s.disk (Rootfs.join dest (spell (n :: y).reverse)) (ms ++ y.reverse) n (y ++ R) := by
    refine ⟨?_, ?_, head?_join _ _, List.map_append ▸ leads_below hR habove⟩
    · have hspells := hdest.join (spells_spell hrev)
      rw [List.reverse_cons, ← List.append_assoc] at hspells
      rw [List.reverse_cons]
      exact hspells
    · rw [trailingSlash_join (spell_ne_nil hne), List.reverse_cons]
      exact trailingSlash_spell
  obtain ⟨s', hs', hwritten, hnodes, hb', hleft⟩ :=
    writeMember_holds overwrite hK htarget hn hm hmax hb hw
  have hcount : ¬ (limits.maxEntries > 0 ∧ (s.written : ℤ) ≥ limits.maxEntries) := by
    rintro ⟨hpos, hge⟩
    have := hw.entries hpos
    rw [List.length_cons] at this
    omega
  let target := Rootfs.join dest (spell (n :: y).reverse)
  refine ⟨{ s' with disk := setTimes K target m.modTime s'.disk, written := s'.written + 1 }, ?_,
    nodeAt_setTimes.trans hnodes, hb', hwritten ▸ hw.tail hleft⟩
  rw [extractMember, hm.name]
  dsimp only
  rw [if_neg (spell_ne_nil hne), if_neg hcount, hs']

/-! ### The loop -/

/-- What is done of a tree stands below the destination, and nothing else does. -/
structure Restoring (src : Loc Name → Option Node) (R : Loc Name) (done : Loc Name → Prop) (d : Fs) : Prop where
  there : ∀ y, y ≠ [] → done y → nodeAt d (y ++ R) = src y
  empty : ∀ y, y ≠ [] → ¬ done y → nodeAt d (y ++ R) = none

variable {src : Loc Name → Option Node} {done : Loc Name → Prop} {l : List (Loc Name)}

theorem Restoring.update (h : Restoring src R done d) (hd' : nodeAt d' = Function.update (nodeAt d) (y ++ R) (src y)) :
    Restoring src R (fun x => done x ∨ x = y) d' := by
  constructor
  · intro x hx hdone
    rw [hd']
    by_cases hxy : x = y
    · rw [hxy, Function.update_self]
    · rw [Function.update_of_ne fun he => hxy (List.append_cancel_right he)]
      exact h.there x hx (hdone.resolve_right hxy)
  · intro x hx hdone
    rw [not_or] at hdone
    rw [hd', Function.update_of_ne fun he => hdone.2 (List.append_cancel_right he)]
    exact h.empty x hx hdone.1

/-- **What an extraction makes of an orderly archive**: each member's node at its place, and nothing else. -/
theorem extractMembers_restores (overwrite : Bool) (hK : K.Willing) (hdest : Spells dest ms) (hmax : limits.maxBytes < 2 ^ 63)
    (hsrc : ∀ n y, y ≠ [] → src (n :: y) ≠ none → src y = some .dir)
    (hall : List.Forall₂ (fun y m => ∃ node, m.Holds y node ∧ src y = some (restored limits.maxBytes node)) l members)
    (horder : Orderly done l) (hnil : done []) (hR : Leads s.disk (ms.map .down) R) (hres : Restoring src R done s.disk)
    (hb : LeftOf limits.maxBytes s.budget) (hw : Within limits.maxEntries s.written s.budget members) :
    ∃ s', extractMembers K copyWithin dest overwrite limits members s = (s', none) ∧
      Restoring src R (fun y => done y ∨ y ∈ l) s'.disk := by
  induction hall generalizing done s with
  | nil =>
    refine ⟨s, rfl, ?_⟩
    simpa using hres
  | @cons x m l members hx hall ih =>
    obtain ⟨node, hm, hnode⟩ := hx
    obtain ⟨hnew, habove, horder⟩ := horder
    cases x with
    | nil => exact absurd hnil hnew
    | cons n y =>
      have hn := hres.empty (n :: y) (List.cons_ne_nil n y) hnew
      have hy : nodeAt s.disk (y ++ R) = some .dir := by
        by_cases hy : y = []
        · rw [hy]
          exact hR.dir
        · rw [hres.there y hy (habove.resolve_left (List.cons_ne_nil n y))]
          exact hsrc n y hy (by rw [hnode]; simp)
      obtain ⟨s₁, hs₁, hnodes, hb₁, hw₁⟩ := extractMember_holds overwrite hK hdest hR hy hn hm hmax hb hw
      rw [extractMembers_cons_none hs₁]
      have hR₁ : Leads s₁.disk (ms.map .down) R := hR.mono (extends_of_update hnodes hn)
      rw [← hnode] at hnodes
      obtain ⟨s', hs', hres'⟩ := ih horder (.inl hnil) hR₁ (hres.update hnodes) hb₁ hw₁
      refine ⟨s', hs', ?_⟩
      simpa only [or_assoc, List.mem_cons] using hres'

end OpenshiftConsole.Filesystem.Extract
