import OpenshiftConsole.Library.Fields
import OpenshiftConsole.Library.MountTree
import OpenshiftConsole.NodeTerminal.Identity

/-!
# The host path of the home

The home of a session is a mount of the container's, and the host is to bind the same directory. So
the shim looks the mount point up in the container's mount table, remembers the device and the directory of the
device that is mounted (`mountns_parse_target`), looks in the host's table for a place where all of the
device is mounted (`mountns_parse_device_root`), and puts the two together (`join_host_path`).

Both tables are read as the kernel prints them, line by line, and the first line that fits is taken. So what is
found is the right directory just where the first lines spell a way to it (`findsHome_iff`). They do if, of the mounts
stacked on the mount point, the first one listed shows the same directory as the one on top, if the first mount
of the whole device is in sight and nothing is mounted on it on the way, if no name has a character in it
that is printed as a number, and if the path fits in its buffer (`spelled_of_listed`).
-/

namespace OpenshiftConsole.NodeTerminal.MountNs

open OpenshiftConsole.Library OpenshiftConsole.Library.Lines
open OpenshiftConsole.Library.MountTree (Mount Tops Bare Names)

/-! ### What the kernel prints -/

/-- A device's number. -/
structure Device where
  major : UInt32
  minor : UInt32
deriving DecidableEq

def Device.text (dev : Device) : Text := decimal dev.major.toNat ++ ':' :: decimal dev.minor.toNat

/-- The characters of a path that are printed as octal numbers. -/
def special : List Char := [' ', '\t', '\n', '\\']

def escapeChar (c : Char) : Text :=
  if c ∈ special then '\\' :: [c.toNat / 64 % 8, c.toNat / 8 % 8, c.toNat % 8].map Nat.digitChar else [c]

/-- A path as it is printed. -/
def escape (s : Text) : Text := s.flatMap escapeChar

/-- The path of the names. -/
def pathText (p : List Text) : Text := if p = [] then ['/'] else p.flatMap ('/' :: ·)

/-- One component of a path. -/
def nameStep (names : List Text) (c : Text) : List Text :=
  if c = ['.'] then names else if c = ['.', '.'] then names.dropLast else names ++ [c]

/-- The names that a path leads through. -/
def pathNames (p : Text) : List Text := (fields (· = '/') p).foldl nameStep []

/-- What a name in a directory can be. -/
def IsFileName (c : Text) : Prop := IsWord (· = '/') c ∧ '\x00' ∉ c ∧ c ≠ ['.'] ∧ c ≠ ['.', '.']

instance (c : Text) : Decidable (IsFileName c) := inferInstanceAs (Decidable (_ ∧ _ ∧ _ ∧ _))

/-- A line of a mount table. -/
structure Line where
  mount : Mount Device Text
  /-- The options, the optional fields and what comes after them. -/
  rest : Text
  names : ∀ c ∈ mount.root ++ mount.point, IsFileName c
  newline : '\n' ∉ rest

namespace Line

/-- The first columns. -/
def columns (l : Line) : List Text :=
  [decimal l.mount.id, decimal l.mount.parent, l.mount.dev.text, escape (pathText l.mount.root),
    escape (pathText l.mount.point)]

def print (l : Line) : Text := l.columns.flatMap (· ++ [' ']) ++ (l.rest ++ ['\n'])

end Line

/-- `/proc/self/mountinfo` -/
def mountinfo (table : List Line) : Text := (table.map Line.print).flatten

/-! ### What the shim reads -/

/-- The delimiters that `strtok_r` is given. -/
def isDelim (c : Char) : Bool := c = ' ' ∨ c = '\t' ∨ c = '\n'

def MOUNTINFO_MAX_TOKENS : ℕ := 64

/-- The size of `csi_mount_dev`. -/
def csiMountDevSize : ℕ := 32

/-- `mountinfo_tokenize` -/
def mountinfoTokenize (line : Text) : List Text := (fields isDelim (cstr line)).take MOUNTINFO_MAX_TOKENS

/-- `mountns_parse_target`, with the sizes of its two buffers. -/
def parseTarget (info mountPoint : Text) (devSize rootSize : ℕ) : Option (Text × Text) :=
  (getlines info).findSome? fun line =>
    match mountinfoTokenize line with
    | _ :: _ :: dev :: root :: point :: _ =>
      if point = mountPoint then some (snprintf devSize dev, snprintf rootSize root) else none
    | _ => none

/-- `mountns_parse_device_root`, with the size of its buffer. -/
def parseDeviceRoot (info devId : Text) (size : ℕ) : Option Text :=
  (getlines info).findSome? fun line =>
    match mountinfoTokenize line with
    | _ :: _ :: dev :: root :: point :: _ => if dev = devId ∧ root = ['/'] then some (snprintf size point) else none
    | _ => none

/-- `join_host_path` -/
def joinHostPath (base root : Text) (size : ℕ) : Text :=
  snprintf size (if root = ['/'] then base else if base = ['/'] then root else base ++ root)

/-- `mountns_capture_target` -/
def captureTarget (info csiMountPoint : Text) : Option (Text × Text) :=
  parseTarget info csiMountPoint csiMountDevSize SHIM_PATH_MAX

/-- `mountns_resolve_source` -/
def resolveSource (info csiMountDev csiMountRoot : Text) : Option Text :=
  (parseDeviceRoot info csiMountDev SHIM_PATH_MAX).map fun base => joinHostPath base csiMountRoot SHIM_PATH_MAX

/-- `src_path`, from the container's table and then the host's. -/
def srcPath (container host csiMountPoint : Text) : Option Text :=
  (captureTarget container csiMountPoint).bind fun (dev, root) => resolveSource host dev root

/-! ### Texts -/

variable {l : Line} {s : Text} {p q : List Text} {c : Char}

theorem escapeChar_special : ∀ x ∈ special, ∀ c ∈ escapeChar x, isDelim c = false ∧ c ≠ '\x00' := by
  simp [special, escapeChar, isDelim]

theorem mem_escape (h : c ∈ escape s) : isDelim c = false ∧ (c = '\x00' → '\x00' ∈ s) := by
  obtain ⟨x, hx, hc⟩ := List.mem_flatMap.mp h
  by_cases hs : x ∈ special
  · have hspecial := escapeChar_special x hs c hc
    exact ⟨hspecial.1, fun hnul => absurd hnul hspecial.2⟩
  · rw [escapeChar, if_neg hs] at hc
    obtain rfl := List.mem_singleton.mp hc
    refine ⟨?_, fun hnul => hnul ▸ hx⟩
    simp only [special, List.mem_cons, List.not_mem_nil, or_false, not_or] at hs
    simp [isDelim, hs]

/-- Without a special character a text is printed as it is. -/
theorem escape_of_forall (h : ∀ c ∈ s, c ∉ special) : escape s = s := by
  induction s with
  | nil => rfl
  | cons c s ih =>
    rw [List.forall_mem_cons] at h
    rw [escape, List.flatMap_cons, escapeChar, if_neg h.1]
    exact congrArg (c :: ·) (ih h.2)

theorem pathText_of_ne (hp : p ≠ []) : pathText p = p.flatMap ('/' :: ·) := if_neg hp

theorem escape_slash (s : Text) : escape ('/' :: s) = '/' :: escape s := rfl

theorem escape_eq_nil : escape s = [] ↔ s = [] := by
  constructor
  · intro h
    cases s with
    | nil => rfl
    | cons c s =>
      rw [escape, List.flatMap_cons, escapeChar] at h
      split at h <;> cases h
  · rintro rfl
    rfl

theorem isWord_escape_pathText (p : List Text) : IsWord isDelim (escape (pathText p)) := by
  refine ⟨?_, fun c hc => (mem_escape hc).1⟩
  rw [ne_eq, escape_eq_nil]
  cases p with
  | nil => simp [pathText]
  | cons n p => simp [pathText]

/-- Only the whole device has the root `/`. -/
theorem escape_pathText_eq_slash (hp : ∀ c ∈ p, IsFileName c) : escape (pathText p) = ['/'] ↔ p = [] := by
  constructor
  · intro h
    cases p with
    | nil => rfl
    | cons n p =>
      rw [pathText_of_ne (List.cons_ne_nil n p), List.flatMap_cons, List.cons_append, escape_slash] at h
      have hnil := escape_eq_nil.mp (List.cons.inj h).2
      exact absurd (List.append_eq_nil_iff.mp hnil).1 (hp n List.mem_cons_self).1.1
  · rintro rfl
    rfl

theorem nul_notMem_escape_pathText (hp : ∀ c ∈ p, IsFileName c) : '\x00' ∉ escape (pathText p) := by
  intro h
  have hmem := (mem_escape h).2 rfl
  by_cases hnil : p = []
  · rw [hnil] at hmem
    revert hmem
    decide
  · rw [pathText_of_ne hnil] at hmem
    obtain ⟨n, hn, hmem⟩ := List.mem_flatMap.mp hmem
    rcases List.mem_cons.mp hmem with hmem | hmem
    · cases hmem
    · exact (hp n hn).2.1 hmem

theorem decimal_word (n : ℕ) : IsWord isDelim (decimal n) ∧ '\x00' ∉ decimal n := by
  refine ⟨⟨decimal_ne_nil n, fun c hc => ?_⟩, fun h => absurd (isDigit_of_mem_decimal h) (by decide)⟩
  have hdigit := isDigit_of_mem_decimal hc
  rw [← Bool.not_eq_true]
  intro hdelim
  simp only [isDelim, decide_eq_true_eq] at hdelim
  rcases hdelim with rfl | rfl | rfl <;> revert hdigit <;> decide

theorem device_word (dev : Device) : IsWord isDelim dev.text ∧ '\x00' ∉ dev.text := by
  obtain ⟨⟨hne, hmajor⟩, hnul⟩ := decimal_word dev.major.toNat
  obtain ⟨⟨-, hminor⟩, hnul'⟩ := decimal_word dev.minor.toNat
  refine ⟨⟨by simp [Device.text], fun c hc => ?_⟩, by simp [Device.text, hnul, hnul']⟩
  rcases List.mem_append.mp hc with hc | hc
  · exact hmajor c hc
  · rcases List.mem_cons.mp hc with rfl | hc
    · rfl
    · exact hminor c hc

theorem Device.text_injective {d e : Device} (h : d.text = e.text) : d = e := by
  have hsplit := congrArg (List.splitOn ':') h
  rw [Device.text, Device.text, List.splitOn_append_cons_self_of_not_mem (colon_notMem_decimal _),
    List.splitOn_append_cons_self_of_not_mem (colon_notMem_decimal _), List.splitOn_eq_singleton (colon_notMem_decimal _),
    List.splitOn_eq_singleton (colon_notMem_decimal _)] at hsplit
  have hdecimal : ∀ {a b : UInt32}, decimal a.toNat = decimal b.toNat → a = b := by
    intro a b hab
    have hvalue := congrArg (Nat.ofDigitChars 10 · 0) hab
    simp only [decimal, Nat.ofDigitChars_ten_toDigits] at hvalue
    exact UInt32.toNat_inj.mp hvalue
  obtain ⟨hmajor, hminor⟩ := List.cons.inj hsplit
  exact congrArg₂ Device.mk (hdecimal hmajor) (hdecimal (List.singleton_injective hminor))

theorem length_device_text (dev : Device) : dev.text.length ≤ 21 := by
  have hmajor := length_decimal_uint32 dev.major
  have hminor := length_decimal_uint32 dev.minor
  rw [Device.text, List.length_append, List.length_cons]
  omega

/-! ### Lines -/

theorem Line.columns_words (l : Line) : ∀ w ∈ l.columns, IsWord isDelim w ∧ '\x00' ∉ w := by
  have hroot : ∀ c ∈ l.mount.root, IsFileName c := fun c hc => l.names c (List.mem_append_left _ hc)
  have hpoint : ∀ c ∈ l.mount.point, IsFileName c := fun c hc => l.names c (List.mem_append_right _ hc)
  intro w hw
  simp only [columns, List.mem_cons, List.not_mem_nil, or_false] at hw
  rcases hw with rfl | rfl | rfl | rfl | rfl
  · exact decimal_word _
  · exact decimal_word _
  · exact device_word _
  · exact ⟨isWord_escape_pathText _, nul_notMem_escape_pathText hroot⟩
  · exact ⟨isWord_escape_pathText _, nul_notMem_escape_pathText hpoint⟩

/-- Words with a blank behind each are the first tokens. -/
theorem fields_words {ws : List Text} (h : ∀ w ∈ ws, IsWord isDelim w ∧ '\x00' ∉ w) (s : Text) :
    fields isDelim (cstr (ws.flatMap (· ++ [' ']) ++ s)) = ws ++ fields isDelim (cstr s) := by
  induction ws with
  | nil => rfl
  | cons w ws ih =>
    rw [List.forall_mem_cons] at h
    have hcstr : cstr ((w :: ws).flatMap (· ++ [' ']) ++ s) = w ++ ' ' :: cstr (ws.flatMap (· ++ [' ']) ++ s) := by
      rw [List.flatMap_cons, List.append_assoc, List.append_assoc, List.singleton_append, cstr,
        List.takeWhile_append_of_pos fun c hc => by simpa using ne_of_mem_of_not_mem hc h.1.2]
      rfl
    rw [hcstr, fields_word_append h.1.1 rfl, ih h.2, List.cons_append]

/-- What `mountinfo_tokenize` makes of a line of the table. -/
theorem tokenize_print (l : Line) : ∃ more, mountinfoTokenize l.print = l.columns ++ more := by
  refine ⟨(fields isDelim (cstr (l.rest ++ ['\n']))).take 59, ?_⟩
  rw [mountinfoTokenize, Line.print, fields_words l.columns_words, List.take_append]
  rfl

theorem getlines_mountinfo (table : List Line) : getlines (mountinfo table) = table.map Line.print := by
  refine getlines_flatten ?_
  induction table with
  | nil => trivial
  | cons l table ih =>
    refine wellLined_cons ⟨l.columns.flatMap (· ++ [' ']) ++ l.rest, ?_, ?_⟩ ih
    · intro h
      rcases List.mem_append.mp h with h | h
      · obtain ⟨w, hw, h⟩ := List.mem_flatMap.mp h
        rcases List.mem_append.mp h with h | h
        · exact absurd ((l.columns_words w hw).1.2 _ h) (by decide)
        · exact absurd h (by decide)
      · exact l.newline h
    · rw [Line.print, List.append_assoc]

theorem findSome?_ite {α β : Type*} (p : α → Prop) [DecidablePred p] (g : α → β) (as : List α) :
    (as.findSome? fun a => if p a then some (g a) else none) = (as.find? (p ·)).map g := by
  induction as with
  | nil => rfl
  | cons a as ih =>
    by_cases ha : p a
    · rw [List.findSome?_cons, if_pos ha, List.find?_cons_of_pos (by simpa using ha)]
      rfl
    · rw [List.findSome?_cons, if_neg ha, List.find?_cons_of_neg (by simpa using ha)]
      exact ih

/-- `mountns_parse_target` gives the device and the root of the first line with the mount point. -/
theorem parseTarget_mountinfo (table : List Line) (mountPoint : Text) (devSize rootSize : ℕ) :
    parseTarget (mountinfo table) mountPoint devSize rootSize =
      (table.find? fun l => escape (pathText l.mount.point) = mountPoint).map fun l =>
        (snprintf devSize l.mount.dev.text, snprintf rootSize (escape (pathText l.mount.root))) := by
  rw [parseTarget, getlines_mountinfo, List.findSome?_map, ← findSome?_ite]
  congr 1
  funext l
  obtain ⟨more, hmore⟩ := tokenize_print l
  simp only [Function.comp_apply, hmore, Line.columns, List.cons_append, List.nil_append]

/-- `mountns_parse_device_root` gives the mount point of the first line of the whole device. -/
theorem parseDeviceRoot_mountinfo (table : List Line) (dev : Device) (size : ℕ) :
    parseDeviceRoot (mountinfo table) dev.text size =
      (table.find? fun l => l.mount.dev = dev ∧ l.mount.root = []).map fun l =>
        snprintf size (escape (pathText l.mount.point)) := by
  rw [parseDeviceRoot, getlines_mountinfo, List.findSome?_map, ← findSome?_ite]
  congr 1
  funext l
  obtain ⟨more, hmore⟩ := tokenize_print l
  have hdev : l.mount.dev.text = dev.text ↔ l.mount.dev = dev := ⟨Device.text_injective, fun h => by rw [h]⟩
  have hroot := escape_pathText_eq_slash fun c hc => l.names c (List.mem_append_left _ hc)
  simp only [Function.comp_apply, hmore, Line.columns, List.cons_append, List.nil_append, hdev, hroot]

/-! ### Paths -/

theorem slash_word : ∀ c ∈ ['/'], decide (c = '/') = true := by simp

/-- Names with a slash before each are the fields. -/
theorem fields_flatMap_slash (hp : ∀ n ∈ p, IsFileName n) : fields (· = '/') (p.flatMap ('/' :: ·)) = p := by
  induction p with
  | nil => exact fields_nil
  | cons n p ih =>
    rw [List.forall_mem_cons] at hp
    have hrest := ih hp.2
    rw [List.flatMap_cons, List.cons_append, ← List.singleton_append, fields_append slash_word]
    cases p with
    | nil =>
      rw [List.flatMap_nil, List.append_nil]
      exact fields_word hp.1.1
    | cons m p =>
      rw [List.flatMap_cons, List.cons_append, ← List.singleton_append, fields_append slash_word] at hrest
      rw [List.flatMap_cons, List.cons_append, fields_word_append hp.1.1 (decide_eq_true rfl), hrest]

theorem foldl_nameStep (hp : ∀ n ∈ p, IsFileName n) (names : List Text) : p.foldl nameStep names = names ++ p := by
  induction p generalizing names with
  | nil => exact (List.append_nil names).symm
  | cons n p ih =>
    rw [List.forall_mem_cons] at hp
    rw [List.foldl_cons, nameStep, if_neg hp.1.2.2.1, if_neg hp.1.2.2.2, ih hp.2, List.append_assoc]
    rfl

theorem pathNames_pathText (hp : ∀ n ∈ p, IsFileName n) : pathNames (pathText p) = p := by
  by_cases hnil : p = []
  · rw [hnil]
    rfl
  · rw [pathNames, pathText_of_ne hnil, fields_flatMap_slash hp, foldl_nameStep hp, List.nil_append]

theorem escape_pathText (hp : ∀ n ∈ p, ∀ c ∈ n, c ∉ special) : escape (pathText p) = pathText p := by
  refine escape_of_forall fun c hc => ?_
  by_cases hnil : p = []
  · rw [hnil] at hc
    obtain rfl := List.mem_singleton.mp hc
    decide
  · rw [pathText_of_ne hnil] at hc
    obtain ⟨n, hn, hc⟩ := List.mem_flatMap.mp hc
    rcases List.mem_cons.mp hc with rfl | hc
    · decide
    · exact hp n hn c hc

theorem pathText_append (hp : p ≠ []) (hq : q ≠ []) : pathText (p ++ q) = pathText p ++ pathText q := by
  rw [pathText_of_ne hp, pathText_of_ne hq, pathText_of_ne (by simp [hp]), List.flatMap_append]

theorem escape_append (s t : Text) : escape (s ++ t) = escape s ++ escape t := List.flatMap_append

theorem snprintf_of_lt {size : ℕ} (h : s.length < size) : snprintf size s = s :=
  List.take_of_length_le (Nat.le_sub_one_of_lt h)

theorem snprintf_snprintf (size : ℕ) (s : Text) : snprintf size (snprintf size s) = snprintf size s := by
  rw [snprintf, snprintf, List.take_take, Nat.min_self]

/-- To cut two texts before they are put together is to cut what they make. -/
theorem snprintf_append (size : ℕ) (s t : Text) :
    snprintf size (snprintf size s ++ snprintf size t) = snprintf size (s ++ t) := by
  simp only [snprintf, List.take_append, List.take_take, List.length_take]
  congr 2 <;> omega

/-- Only a single slash is a slash in the buffer. -/
theorem snprintf_eq_slash : snprintf SHIM_PATH_MAX s = ['/'] ↔ s = ['/'] := by
  cases s with
  | nil => simp [snprintf]
  | cons c s =>
    cases s with
    | nil => simp [snprintf, SHIM_PATH_MAX]
    | cons d s => simp [snprintf, SHIM_PATH_MAX]

/-- The two paths put together are one path, printed and cut. -/
theorem joinHostPath_escape (hq : ∀ n ∈ q, IsFileName n) (hp : ∀ n ∈ p, IsFileName n) :
    joinHostPath (snprintf SHIM_PATH_MAX (escape (pathText p))) (snprintf SHIM_PATH_MAX (escape (pathText q))) SHIM_PATH_MAX =
      snprintf SHIM_PATH_MAX (escape (pathText (p ++ q))) := by
  simp only [joinHostPath, snprintf_eq_slash, escape_pathText_eq_slash hq, escape_pathText_eq_slash hp]
  by_cases hqnil : q = []
  · rw [if_pos hqnil, snprintf_snprintf, hqnil, List.append_nil]
  · rw [if_neg hqnil]
    by_cases hpnil : p = []
    · rw [if_pos hpnil, snprintf_snprintf, hpnil, List.nil_append]
    · rw [if_neg hpnil, snprintf_append, ← escape_append, ← pathText_append hpnil hqnil]

/-! ### The home -/

/-- The mounts of a table. -/
def mounts (table : List Line) : List (Mount Device Text) := table.map Line.mount

/-- The mount is on top of the mount point in the container, and the host sees a mount of all of its device. -/
def Shown (container host : List Line) (csiMountPoint : Text) (m : Mount Device Text) : Prop :=
  Tops (mounts container) (pathNames csiMountPoint) m ∧ ∃ v, Tops (mounts host) v.point v ∧ v.dev = m.dev ∧ v.root = []

/-- There is a source path, and it leads in the host's tree to the directory that the container's mount shows. -/
def FindsHome (container host : List Line) (csiMountPoint : Text) : Prop :=
  ∀ m, Shown container host csiMountPoint m →
    ∃ src, srcPath (mountinfo container) (mountinfo host) csiMountPoint = some src ∧
      Names (mounts host) (pathNames src) m.dev m.root

/-- The names that a path has once it has been printed into a buffer: with the numbers for the characters in them,
and up to where the buffer ends. -/
def printedNames (p : List Text) : List Text := pathNames ((escape (pathText p)).take (SHIM_PATH_MAX - 1))

/-- `t` is the first line of the container's with the mount point, and `base` the first line of the host's that
shows all of the device. -/
def Listed (container host : List Line) (csiMountPoint : Text) (t base : Line) : Prop :=
  container.find? (fun l => escape (pathText l.mount.point) = csiMountPoint) = some t ∧
    host.find? (fun l => l.mount.dev = t.mount.dev ∧ l.mount.root = []) = some base

variable {container host : List Line} {csiMountPoint src : Text} {m c : Mount Device Text} {t base : Line}

theorem srcPath_eq_some :
    srcPath (mountinfo container) (mountinfo host) csiMountPoint = some src ↔
      ∃ t base, Listed container host csiMountPoint t base ∧
        snprintf SHIM_PATH_MAX (escape (pathText (base.mount.point ++ t.mount.root))) = src := by
  have hdevice : ∀ dev : Device, snprintf csiMountDevSize dev.text = dev.text := fun dev =>
    snprintf_of_lt (Nat.lt_of_le_of_lt (length_device_text dev) (by decide))
  have hjoin : ∀ t base : Line, joinHostPath (snprintf SHIM_PATH_MAX (escape (pathText base.mount.point)))
      (snprintf SHIM_PATH_MAX (escape (pathText t.mount.root))) SHIM_PATH_MAX =
        snprintf SHIM_PATH_MAX (escape (pathText (base.mount.point ++ t.mount.root))) := fun t base =>
    joinHostPath_escape (fun n hn => t.names n (List.mem_append_left _ hn))
      fun n hn => base.names n (List.mem_append_right _ hn)
  have hsrc : srcPath (mountinfo container) (mountinfo host) csiMountPoint =
      (container.find? fun l => escape (pathText l.mount.point) = csiMountPoint).bind fun t =>
        (host.find? fun l => l.mount.dev = t.mount.dev ∧ l.mount.root = []).map fun base =>
          snprintf SHIM_PATH_MAX (escape (pathText (base.mount.point ++ t.mount.root))) := by
    rw [srcPath, captureTarget, parseTarget_mountinfo, Option.bind_map]
    congr 1
    funext t
    simp only [Function.comp_apply, resolveSource, hdevice, parseDeviceRoot_mountinfo, Option.map_map]
    exact congrArg (Option.map · _) (funext fun base => hjoin t base)
  simp only [hsrc, Option.bind_eq_some_iff, Option.map_eq_some_iff, Listed]
  constructor
  · rintro ⟨t, ht, base, hbase, rfl⟩
    exact ⟨t, base, ⟨ht, hbase⟩, rfl⟩
  · rintro ⟨t, base, ⟨ht, hbase⟩, rfl⟩
    exact ⟨t, ht, base, hbase, rfl⟩

/-- The lines that come first spell a way to the directory that `m` shows: the names of their mount point and root,
as they are printed, lead through a mount `c` of its device that is seen on the host, with nothing mounted on it on the
way. -/
structure Spelled (container host : List Line) (csiMountPoint : Text) (m : Mount Device Text) (t base : Line)
    (c : Mount Device Text) (q : List Text) : Prop where
  listed : Listed container host csiMountPoint t base
  names : printedNames (base.mount.point ++ t.mount.root) = c.point ++ q
  seen : Tops (mounts host) c.point c
  bare : Bare (mounts host) c q
  dev : c.dev = m.dev
  dir : c.root ++ q = m.root

/-- **The home is found** where the lines that come first spell a way to it. -/
theorem findsHome_iff (container host : List Line) (csiMountPoint : Text) :
    FindsHome container host csiMountPoint ↔
      ∀ m, Shown container host csiMountPoint m → ∃ t base c q, Spelled container host csiMountPoint m t base c q := by
  unfold FindsHome
  refine forall_congr' fun m => imp_congr_right fun _ => ?_
  constructor
  · rintro ⟨src, hsrc, hnames⟩
    obtain ⟨t, base, hlisted, rfl⟩ := srcPath_eq_some.mp hsrc
    obtain ⟨c, q, hseen, hbare, hreads, hdev, hdir⟩ := MountTree.names_iff.mp hnames
    exact ⟨t, base, c, q, hlisted, hreads, hseen, hbare, hdev, hdir⟩
  · rintro ⟨t, base, c, q, h⟩
    refine ⟨_, srcPath_eq_some.mpr ⟨t, base, h.listed, rfl⟩, ?_⟩
    exact MountTree.names_iff.mpr ⟨c, q, h.seen, h.bare, h.names, h.dev, h.dir⟩

/-- A path is printed as it is if there is nothing to escape in it and it fits. -/
theorem printedNames_of_plain (hnames : ∀ n ∈ p, IsFileName n) (hplain : ∀ n ∈ p, ∀ c ∈ n, c ∉ special)
    (hfits : (pathText p).length < SHIM_PATH_MAX) : printedNames p = p := by
  have hcut : (pathText p).take (SHIM_PATH_MAX - 1) = pathText p := snprintf_of_lt hfits
  rw [printedNames, escape_pathText hplain, hcut, pathNames_pathText hnames]

/-- The usual way: the first line with the mount point shows the same directory as the mount on top, and the first
mount of all of the device is the one to go through. -/
theorem spelled_of_listed (hlisted : Listed container host csiMountPoint t base) (hdev : t.mount.dev = m.dev)
    (hroot : t.mount.root = m.root) (hseen : Tops (mounts host) base.mount.point base.mount)
    (hbare : Bare (mounts host) base.mount m.root) (hplain : ∀ n ∈ base.mount.point ++ m.root, ∀ c ∈ n, c ∉ special)
    (hfits : (pathText (base.mount.point ++ m.root)).length < SHIM_PATH_MAX) :
    Spelled container host csiMountPoint m t base base.mount m.root := by
  have hbase : base.mount.dev = t.mount.dev ∧ base.mount.root = [] := by simpa using List.find?_some hlisted.2
  rw [← hroot] at hplain hfits
  refine ⟨hlisted, ?_, hseen, hbare, hbase.1.trans hdev, by rw [hbase.2, List.nil_append]⟩
  rw [printedNames_of_plain ?_ hplain hfits, hroot]
  intro n hn
  rcases List.mem_append.mp hn with hn | hn
  · exact base.names n (List.mem_append_right _ hn)
  · exact t.names n (List.mem_append_left _ hn)

/-- The container has the directory `a b` of a device mounted on `/m`. -/
def blankContainer : List Line :=
  [⟨⟨1, 0, ⟨0, 1⟩, [], []⟩, "rw - overlay overlay rw".toList, by simp, by decide⟩,
    ⟨⟨2, 1, ⟨8, 1⟩, [['a', ' ', 'b']], [['m']]⟩, "rw shared:1 - ext4 /dev/sda1 rw".toList, by decide, by decide⟩]

/-- The host has the device for its root. -/
def blankHost : List Line :=
  [⟨⟨3, 0, ⟨8, 1⟩, [], []⟩, "rw shared:1 - ext4 /dev/sda1 rw".toList, by simp, by decide⟩]

/-- The blank is read as it is printed: the source path names a directory `a\040b`. -/
theorem blank_not_found : ¬ FindsHome blankContainer blankHost ['/', 'm'] := by
  intro h
  have hshown : Shown blankContainer blankHost ['/', 'm'] ⟨2, 1, ⟨8, 1⟩, [['a', ' ', 'b']], [['m']]⟩ :=
    ⟨⟨_, rfl, rfl, rfl⟩, ⟨3, 0, ⟨8, 1⟩, [], []⟩, ⟨_, rfl, rfl, rfl⟩, rfl, rfl⟩
  obtain ⟨src, hsrc, x, hx, -, hdir⟩ := h _ hshown
  have hpath : srcPath (mountinfo blankContainer) (mountinfo blankHost) ['/', 'm'] =
      some ['/', 'a', '\\', '0', '4', '0', 'b'] := rfl
  obtain rfl := Option.some.inj (hpath.symm.trans hsrc)
  obtain rfl := Option.some.inj hx
  revert hdir
  decide

end OpenshiftConsole.NodeTerminal.MountNs
