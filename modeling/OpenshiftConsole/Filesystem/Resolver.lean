import Mathlib.Algebra.Group.Nat.Defs
import Mathlib.Order.Bounds.Basic
import OpenshiftConsole.Filesystem.Spawn
import OpenshiftConsole.Library.Fields
import OpenshiftConsole.Library.Interaction

/-!
# Finding a container's process

The agent of a node finds the process of a container by reading `/proc`: a process belongs to the container if its
`cgroup` names the container's ID as a whole (`cgroupNames_iff`) and it is not in the mount namespace of the node. What
was found is kept for a while, and looked at again before it is used.

Processes come and go while `/proc` is read, and other requests use the same cache. `resolve_outcome` says what a
number that is answered stands on, whatever is read, and what has been seen when none is; where nothing moves the
answer is the lowest number, or the one that is kept (`resolve_steady`).
-/

namespace OpenshiftConsole.Filesystem.Resolver

open OpenshiftConsole.Library
open OpenshiftConsole.Library.Lines (Text)
open Spawn (normalizeContainerID cgroupNames cgroupPath cgroupTokens)

/-! ### Reading `/proc` -/

/-- `cacheEntry` -/
structure Entry where
  pid : ℕ
  expires : ℕ

/-- What a resolver reads, and what it does to its cache. -/
inductive Query where
  /-- `r.cache[id]` -/
  | entry (id : Text)
  /-- `r.now()` -/
  | now
  | store (id : Text) (pid : ℕ)
  | delete (id : Text)
  /-- `os.ReadDir(r.procRoot)` -/
  | procs
  /-- `os.ReadFile` of the `cgroup` of an entry of `/proc`. -/
  | cgroup (name : Text)
  /-- `r.mountNamespace(pid)` -/
  | mountNamespace (pid : ℕ)
  /-- `r.hostMountNamespace()`, which reads that of process 1 the first time, whoever asks. -/
  | hostMountNamespace

/-- What there is to be read at a time; a question is answered with its own part. -/
structure Reply where
  entry : Option Entry
  now : ℕ
  procs : Except Text (List Text)
  cgroup : Except Text Text
  /-- A namespace that cannot be read is empty. -/
  namespaceLink : Text

/-- Why there is no number. -/
inductive ResolveError where
  /-- "container ID %q is not hexadecimal", and the other errors of `NormalizeContainerID` -/
  | badID
  /-- "reading %s: %w" -/
  | reading (err : Text)
  /-- "no process found for container %s: …" -/
  | notFound

abbrev Talk := Interaction Query Reply ResolveError

abbrev History := Interaction.History Query Reply

/-- `strconv.Itoa` -/
def itoa (pid : ℕ) : Text := Nat.toDigits 10 pid

/-- `strconv.Atoi`, for what is a number of a process. -/
def pidOf (name : Text) : Option ℕ :=
  let digits := match name with
    | '+' :: digits => digits
    | digits => digits
  if digits ≠ [] ∧ digits.all Char.isDigit then
    let pid := Nat.ofDigitChars 10 digits 0
    if 0 < pid ∧ pid < 2 ^ 63 then some pid else none
  else none

/-- `inHostMountNamespace` -/
def inHostMountNamespace (pid : ℕ) : Talk Bool := do
  let host ← .send .hostMountNamespace
  if host.namespaceLink = [] then pure false
  else do
    let own ← .send (.mountNamespace pid)
    pure (own.namespaceLink = host.namespaceLink)

/-- Whether a process is the container's, by its entry of `/proc`. -/
def isMember (id name : Text) (pid : ℕ) : Talk Bool := do
  let reply ← .send (.cgroup name)
  match reply.cgroup with
  | .error _ => pure false
  | .ok data =>
    if !cgroupNames data id then pure false
    else do
      let inHost ← inHostMountNamespace pid
      pure !inHost

/-- `pidMatches` -/
def pidMatches (pid : ℕ) (id : Text) : Talk Bool := isMember id (itoa pid) pid

/-- The loop of `scan`. -/
def scanNames (id : Text) : List Text → List ℕ → Talk (List ℕ)
  | [], pids => pure pids
  | name :: names, pids =>
    match pidOf name with
    | none => scanNames id names pids
    | some pid => do
      let found ← isMember id name pid
      scanNames id names (if found then pids ++ [pid] else pids)

/-- `scan`; the lowest number comes first when they are sorted. -/
def scan (id : Text) : Talk (Except ResolveError ℕ) := do
  let reply ← .send .procs
  match reply.procs with
  | .error err => pure (.error (.reading err))
  | .ok names => do
    let pids ← scanNames id names []
    match pids.min? with
    | none => pure (.error .notFound)
    | some pid => pure (.ok pid)

/-- What is kept of a container, if it may be used again. -/
def reuse (id : Text) : Talk (Option ℕ) := do
  let cached ← .send (.entry id)
  match cached.entry with
  | none => pure none
  | some entry => do
    let reply ← .send .now
    if reply.now < entry.expires then do
      let found ← pidMatches entry.pid id
      pure (if found then some entry.pid else none)
    else pure none

/-- `PID` -/
def resolve (containerID : Text) : Talk ℕ :=
  match normalizeContainerID containerID with
  | none => .fail .badID
  | some id => do
    let kept ← reuse id
    match kept with
    | some pid => pure pid
    | none => do
      let found ← scan id
      match found with
      | .error err => do
        let _ ← .send (.delete id)
        .fail err
      | .ok pid => do
        let _ ← .send .now
        let _ ← .send (.store id pid)
        pure pid

/-! ### IDs in cgroups -/

/-- What separates the parts of a path in a cgroup. -/
def isSeparator (c : Char) : Bool := c = '/' || c = '-' || c = '.' || c = '_'

/-- A cgroup names an ID where the ID stands whole in the path of a line, between separators, and the line is not that
of a supervisor. -/
theorem cgroupNames_iff {body id : Text} : cgroupNames body id = true ↔
    ∃ line ∈ body.splitOn '\n', ∃ path p t, cgroupPath line = some path ∧ ¬"conmon".toList <:+: path ∧
      path = p ++ (id ++ t) ∧ IsWord isSeparator id ∧ EndsApart isSeparator p ∧ BeginsApart isSeparator t := by
  have htokens : ∀ path : Text, id ∈ cgroupTokens path ↔ IsWord isSeparator id ∧
      ∃ p t, path = p ++ (id ++ t) ∧ EndsApart isSeparator p ∧ BeginsApart isSeparator t :=
    fun path => mem_fields
  have hconmon : ∀ path : Text, (path.tails.any fun t => "conmon".toList.isPrefixOf t) = true ↔
      "conmon".toList <:+: path := by
    intro path
    rw [List.any_eq_true, List.infix_iff_prefix_suffix]
    simp only [List.mem_tails, List.isPrefixOf_iff_prefix, and_comm]
  rw [cgroupNames, List.any_eq_true]
  refine exists_congr fun line => and_congr_right fun _ => ?_
  cases hpath : cgroupPath line with
  | none => simp
  | some path =>
    dsimp only
    rw [Bool.and_eq_true, Bool.not_eq_true', ← Bool.not_eq_true, hconmon, decide_eq_true_eq, htokens]
    constructor
    · rintro ⟨hsupervisor, hword, p, t, heq, hp, ht⟩
      exact ⟨path, p, t, rfl, hsupervisor, heq, hword, hp, ht⟩
    · rintro ⟨path', p, t, heq', hsupervisor, heq, hword, hp, ht⟩
      obtain rfl := Option.some.inj heq'
      exact ⟨hsupervisor, hword, p, t, heq, hp, ht⟩

/-! ### What an answer stands on -/

/-- A process was seen to be in another mount namespace than the node's, as far as that is known. -/
def Apart (h : History) (pid : ℕ) : Prop :=
  ∃ host, (.hostMountNamespace, host) ∈ h ∧
    (host.namespaceLink = [] ∨ ∃ own, (.mountNamespace pid, own) ∈ h ∧ own.namespaceLink ≠ host.namespaceLink)

/-- A process was seen in the mount namespace of the node. -/
def Hosted (h : History) (pid : ℕ) : Prop :=
  ∃ host own, (.hostMountNamespace, host) ∈ h ∧ (.mountNamespace pid, own) ∈ h ∧ host.namespaceLink ≠ [] ∧
    own.namespaceLink = host.namespaceLink

/-- A process was seen in the container. -/
def Seen (h : History) (id name : Text) (pid : ℕ) : Prop :=
  (∃ reply data, (.cgroup name, reply) ∈ h ∧ reply.cgroup = .ok data ∧ cgroupNames data id = true) ∧ Apart h pid

/-- A process was looked at, and was not seen in the container. -/
def Refused (h : History) (id name : Text) (pid : ℕ) : Prop :=
  ∃ reply, (.cgroup name, reply) ∈ h ∧
    ∀ data, reply.cgroup = .ok data → cgroupNames data id = true → Hosted h pid

/-- A list of the entries of `/proc` was read. -/
def Listed (h : History) (names : List Text) : Prop := ∃ reply, (.procs, reply) ∈ h ∧ reply.procs = .ok names

/-- Of the processes listed this is the lowest that was seen in the container. -/
def Scanned (h : History) (id : Text) (pid : ℕ) : Prop :=
  ∃ names, Listed h names ∧ (∃ name ∈ names, pidOf name = some pid ∧ Seen h id name pid) ∧
    ∀ name ∈ names, ∀ other < pid, pidOf name = some other → Refused h id name other

/-- There was nothing to be found. -/
def Missed (h : History) (id : Text) : ResolveError → Prop
  | .badID => False
  | .reading err => ∃ reply, (.procs, reply) ∈ h ∧ reply.procs = .error err
  | .notFound => ∃ names, Listed h names ∧ ∀ name ∈ names, ∀ pid, pidOf name = some pid → Refused h id name pid

/-- What was kept of the container has not expired, and was seen in the container again. -/
def Kept (h : History) (id : Text) (pid : ℕ) : Prop :=
  (∃ cached entry now, (.entry id, cached) ∈ h ∧ cached.entry = some entry ∧ entry.pid = pid ∧ (.now, now) ∈ h ∧
    now.now < entry.expires) ∧ Seen h id (itoa pid) pid

variable {h h' past : History} {id name containerID : Text} {pid : ℕ} {names : List Text} {q : Query}

theorem Apart.mono (ha : Apart h pid) (hh : h <+: h') : Apart h' pid := by
  obtain ⟨host, hhost, hor⟩ := ha
  refine ⟨host, hh.subset hhost, hor.imp_right ?_⟩
  rintro ⟨own, hown, hne⟩
  exact ⟨own, hh.subset hown, hne⟩

theorem Hosted.mono (hh' : Hosted h pid) (hh : h <+: h') : Hosted h' pid := by
  obtain ⟨host, own, hhost, hown, hrest⟩ := hh'
  exact ⟨host, own, hh.subset hhost, hh.subset hown, hrest⟩

theorem Seen.mono (hs : Seen h id name pid) (hh : h <+: h') : Seen h' id name pid := by
  obtain ⟨⟨reply, data, hreply, hdata⟩, ha⟩ := hs
  exact ⟨⟨reply, data, hh.subset hreply, hdata⟩, ha.mono hh⟩

theorem Refused.mono (hr : Refused h id name pid) (hh : h <+: h') : Refused h' id name pid := by
  obtain ⟨reply, hreply, hdata⟩ := hr
  exact ⟨reply, hh.subset hreply, fun data hok hnames => (hdata data hok hnames).mono hh⟩

theorem Listed.mono (hl : Listed h names) (hh : h <+: h') : Listed h' names := by
  obtain ⟨reply, hreply, hok⟩ := hl
  exact ⟨reply, hh.subset hreply, hok⟩

/-- Only what was found may be stored, and only what was missed may be deleted. -/
def Justified (h : History) : Query → Prop
  | .store id pid => Scanned h id pid
  | .delete id => ∃ err, Missed h id err
  | _ => True

/-- The mount namespaces are compared. -/
theorem meets_inHostMountNamespace : (inHostMountNamespace pid).Meets Justified
    (fun h' r => h <+: h' ∧ match r with
      | .ok true => Hosted h' pid
      | .ok false => Apart h' pid
      | .error _ => False) h := by
  refine Interaction.meets_bind.mpr (Interaction.meets_send.mpr ⟨trivial, fun host => ?_⟩)
  have hhost : (Query.hostMountNamespace, host) ∈ h ++ [(.hostMountNamespace, host)] :=
    List.mem_append_right _ List.mem_cons_self
  dsimp only
  split
  · rename_i hempty
    exact ⟨List.prefix_append _ _, host, hhost, .inl hempty⟩
  · rename_i hne
    refine Interaction.meets_bind.mpr (Interaction.meets_send.mpr ⟨trivial, fun own => ?_⟩)
    have hown : (Query.mountNamespace pid, own) ∈ h ++ [(.hostMountNamespace, host)] ++ [(.mountNamespace pid, own)] :=
      List.mem_append_right _ List.mem_cons_self
    refine ⟨(List.prefix_append _ _).trans (List.prefix_append _ _), ?_⟩
    by_cases hsame : own.namespaceLink = host.namespaceLink
    · rw [decide_eq_true hsame]
      exact ⟨host, own, List.mem_append_left _ hhost, hown, hne, hsame⟩
    · rw [decide_eq_false hsame]
      exact ⟨host, List.mem_append_left _ hhost, .inr ⟨own, hown, hsame⟩⟩

/-- A process is looked at. -/
theorem meets_isMember : (isMember id name pid).Meets Justified
    (fun h' r => h <+: h' ∧ match r with
      | .ok true => Seen h' id name pid
      | .ok false => Refused h' id name pid
      | .error _ => False) h := by
  refine Interaction.meets_bind.mpr (Interaction.meets_send.mpr ⟨trivial, fun reply => ?_⟩)
  have hreply : (Query.cgroup name, reply) ∈ h ++ [(.cgroup name, reply)] :=
    List.mem_append_right _ List.mem_cons_self
  dsimp only
  split
  · rename_i err herr
    refine ⟨List.prefix_append _ _, reply, hreply, fun data hok => ?_⟩
    rw [herr] at hok
    cases hok
  · rename_i data hdata
    split
    · rename_i hnot
      refine ⟨List.prefix_append _ _, reply, hreply, fun data' hok hnames => ?_⟩
      rw [hdata] at hok
      obtain rfl := Except.ok.inj hok
      rw [hnames] at hnot
      cases hnot
    · rename_i hnames
      have hnames : cgroupNames data id = true := by simpa using hnames
      refine Interaction.meets_bind.mpr (meets_inHostMountNamespace.mono (fun _ _ hq => hq) ?_)
      rintro h' (e | inHost) ⟨hh, hr⟩
      · exact hr.elim
      · refine ⟨(List.prefix_append _ _).trans hh, ?_⟩
        cases inHost with
        | true => exact ⟨reply, hh.subset hreply, fun _ _ _ => hr⟩
        | false => exact ⟨⟨reply, data, hh.subset hreply, hdata, hnames⟩, hr⟩

/-- Of each process listed it is known whether it was seen in the container. -/
structure Collected (h : History) (id : Text) (names : List Text) (pids : List ℕ) : Prop where
  seen : ∀ pid ∈ pids, ∃ name ∈ names, pidOf name = some pid ∧ Seen h id name pid
  refused : ∀ name ∈ names, ∀ pid, pidOf name = some pid → pid ∈ pids ∨ Refused h id name pid

theorem collected_nil (h : History) (id : Text) : Collected h id [] [] where
  seen := fun _ hpid => absurd hpid List.not_mem_nil
  refused := fun _ hname => absurd hname List.not_mem_nil

/-- One more entry of `/proc`. -/
theorem Collected.concat {pids : List ℕ} (hc : Collected h id names pids) (hh : h <+: h') {pids' : List ℕ}
    (hpids : ∀ pid ∈ pids', pid ∈ pids ∨ pidOf name = some pid ∧ Seen h' id name pid)
    (hsub : pids ⊆ pids') (hname : ∀ pid, pidOf name = some pid → pid ∈ pids' ∨ Refused h' id name pid) :
    Collected h' id (names ++ [name]) pids' where
  seen := by
    intro pid hpid
    rcases hpids pid hpid with hold | hnew
    · obtain ⟨other, hother, hpidOf, hseen⟩ := hc.seen pid hold
      exact ⟨other, List.mem_append_left _ hother, hpidOf, hseen.mono hh⟩
    · exact ⟨name, List.mem_append_right _ List.mem_cons_self, hnew⟩
  refused := by
    intro other hother pid hpidOf
    rcases List.mem_append.mp hother with hold | hnew
    · exact (hc.refused other hold pid hpidOf).imp (fun hpid => hsub hpid) (fun hr => hr.mono hh)
    · obtain rfl := List.mem_singleton.mp hnew
      exact hname pid hpidOf

theorem meets_scanNames {done : List Text} {pids : List ℕ} (hc : Collected h id done pids) :
    (scanNames id names pids).Meets Justified (fun h' r => h <+: h' ∧ ∃ pids', r = .ok pids' ∧
      Collected h' id (done ++ names) pids') h := by
  induction names generalizing h done pids with
  | nil => exact ⟨List.prefix_rfl, pids, rfl, by rwa [List.append_nil]⟩
  | cons name names ih =>
    rw [List.append_cons, scanNames]
    cases hpid : pidOf name with
    | none =>
      refine ih (hc.concat List.prefix_rfl (fun pid hp => .inl hp) (List.Subset.refl _) fun pid hp => ?_)
      rw [hpid] at hp
      cases hp
    | some pid =>
      refine Interaction.meets_bind.mpr (meets_isMember.mono (fun _ _ hq => hq) ?_)
      rintro h' (e | found) ⟨hh, hr⟩
      · exact hr.elim
      have hpids : Collected h' id (done ++ [name]) (if found then pids ++ [pid] else pids) := by
        cases found with
        | true =>
          refine hc.concat hh (fun other hother => ?_) (List.subset_append_left _ _) fun other hother => ?_
          · rcases List.mem_append.mp hother with hold | hnew
            · exact .inl hold
            · obtain rfl := List.mem_singleton.mp hnew
              exact .inr ⟨hpid, hr⟩
          · obtain rfl := Option.some.inj (hpid.symm.trans hother)
            exact .inl (List.mem_append_right _ List.mem_cons_self)
        | false =>
          refine hc.concat hh (fun other hother => .inl hother) (List.Subset.refl _) fun other hother => ?_
          obtain rfl := Option.some.inj (hpid.symm.trans hother)
          exact .inr hr
      exact (ih hpids).mono (fun _ _ hq => hq) fun h'' r hr' => ⟨hh.trans hr'.1, hr'.2⟩

/-- How a scan ends. -/
def ScanOutcome (id : Text) (h : History) : Except ResolveError (Except ResolveError ℕ) → Prop
  | .ok (.ok pid) => Scanned h id pid
  | .ok (.error err) => Missed h id err
  | .error _ => False

/-- A scan finds the lowest number, or misses the container. -/
theorem meets_scan : (scan id).Meets Justified (fun h' r => h <+: h' ∧ ScanOutcome id h' r) h := by
  refine Interaction.meets_bind.mpr (Interaction.meets_send.mpr ⟨trivial, fun reply => ?_⟩)
  have hreply : (Query.procs, reply) ∈ h ++ [(.procs, reply)] := List.mem_append_right _ List.mem_cons_self
  dsimp only
  split
  · rename_i err herr
    exact ⟨List.prefix_append _ _, reply, hreply, herr⟩
  · rename_i names hnames
    refine Interaction.meets_bind.mpr ((meets_scanNames (collected_nil _ id)).mono (fun _ _ hq => hq) ?_)
    rintro h' r ⟨hh, pids, rfl, hc⟩
    rw [List.nil_append] at hc
    have hlisted : Listed h' names := ⟨reply, hh.subset hreply, hnames⟩
    dsimp only
    split
    · rename_i hmin
      obtain rfl := List.min?_eq_none_iff.mp hmin
      refine ⟨(List.prefix_append _ _).trans hh, names, hlisted, fun name hname pid hpid => ?_⟩
      exact (hc.refused name hname pid hpid).resolve_left List.not_mem_nil
    · rename_i pid hmin
      obtain ⟨hmem, hle⟩ := List.min?_eq_some_iff.mp hmin
      refine ⟨(List.prefix_append _ _).trans hh, names, hlisted, hc.seen pid hmem, ?_⟩
      intro name hname other hlt hother
      exact (hc.refused name hname other hother).resolve_left fun hpid => absurd (hle other hpid) (Nat.not_le.mpr hlt)

theorem meets_reuse : (reuse id).Meets Justified (fun h' r => ∃ kept, r = .ok kept ∧
    ∀ pid, kept = some pid → Kept h' id pid) h := by
  refine Interaction.meets_bind.mpr (Interaction.meets_send.mpr ⟨trivial, fun cached => ?_⟩)
  dsimp only
  split
  · exact ⟨none, rfl, fun pid hp => by cases hp⟩
  · rename_i entry hentry
    refine Interaction.meets_bind.mpr (Interaction.meets_send.mpr ⟨trivial, fun now => ?_⟩)
    dsimp only
    split
    · rename_i hnow
      refine Interaction.meets_bind.mpr (meets_isMember.mono (fun _ _ hq => hq) ?_)
      rintro h' (e | found) ⟨hh, hr⟩
      · exact hr.elim
      · refine ⟨_, rfl, fun pid hp => ?_⟩
        cases found with
        | false => cases hp
        | true =>
          obtain rfl := Option.some.inj hp
          refine ⟨⟨cached, entry, now, hh.subset ?_, hentry, rfl, hh.subset ?_, hnow⟩, hr⟩
          · exact List.mem_append_left _ (List.mem_append_right _ List.mem_cons_self)
          · exact List.mem_append_right _ List.mem_cons_self
    · exact ⟨none, rfl, fun pid hp => by cases hp⟩

/-- What was scanned was scanned, whatever comes after it. -/
theorem Scanned.mono (hs : Scanned h id pid) (hh : h <+: h') : Scanned h' id pid := by
  obtain ⟨names, hlisted, ⟨name, hname, hpid, hseen⟩, hlowest⟩ := hs
  refine ⟨names, hlisted.mono hh, ⟨name, hname, hpid, hseen.mono hh⟩, fun name hname other hlt hother => ?_⟩
  exact (hlowest name hname other hlt hother).mono hh

theorem Missed.mono {err : ResolveError} (hm : Missed h id err) (hh : h <+: h') : Missed h' id err := by
  cases err with
  | badID => exact hm
  | reading err =>
    obtain ⟨reply, hreply, herr⟩ := hm
    exact ⟨reply, hh.subset hreply, herr⟩
  | notFound =>
    obtain ⟨names, hlisted, hall⟩ := hm
    exact ⟨names, hlisted.mono hh, fun name hname pid hpid => (hall name hname pid hpid).mono hh⟩

/-- What an answer stands on: a number that is kept and seen again, or the lowest that a scan has seen; and an error on
an ID that is none, or on a scan that has missed the container. -/
def Outcome (containerID : Text) (h : History) : Except ResolveError ℕ → Prop
  | .ok pid => ∃ id, normalizeContainerID containerID = some id ∧ (Kept h id pid ∨ Scanned h id pid)
  | .error err => match normalizeContainerID containerID with
    | none => h = []
    | some id => Missed h id err

theorem meets_resolve : (resolve containerID).Meets Justified (Outcome containerID) [] := by
  rw [resolve]
  split
  · rename_i hid
    show match normalizeContainerID containerID with
      | none => [] = []
      | some id => Missed [] id ResolveError.badID
    rw [hid]
  · rename_i id hid
    refine Interaction.meets_bind.mpr (meets_reuse.mono (fun _ _ hq => hq) ?_)
    rintro h r ⟨kept, rfl, hkept⟩
    cases kept with
    | some pid => exact ⟨id, hid, .inl (hkept pid rfl)⟩
    | none =>
      refine Interaction.meets_bind.mpr (meets_scan.mono (fun _ _ hq => hq) ?_)
      rintro h' (e | (err | pid)) ⟨-, hr⟩
      · exact hr.elim
      · refine Interaction.meets_bind.mpr (Interaction.meets_send.mpr ⟨⟨err, hr⟩, fun reply => ?_⟩)
        show match normalizeContainerID containerID with
          | none => _ = []
          | some id => Missed _ id err
        rw [hid]
        exact hr.mono (List.prefix_append _ _)
      · refine Interaction.meets_bind.mpr (Interaction.meets_send.mpr ⟨trivial, fun now => ?_⟩)
        have hnow := hr.mono (List.prefix_append h' [(.now, now)])
        refine Interaction.meets_bind.mpr (Interaction.meets_send.mpr ⟨hnow, fun reply => ?_⟩)
        exact ⟨id, hid, .inr (hnow.mono (List.prefix_append _ _))⟩

/-- A container, with one process. -/
def oneID : Text := "0123456789ab".toList

def oneReply : Reply where
  entry := none
  now := 0
  procs := .ok ["self".toList, "7".toList]
  cgroup := .ok "0::/crio-0123456789ab.scope/container".toList
  namespaceLink := []

def oneHistory : History :=
  [(.entry oneID, oneReply), (.procs, oneReply), (.cgroup ['7'], oneReply), (.hostMountNamespace, oneReply),
    (.now, oneReply)]

/-- Only what a scan has found is stored. -/
theorem resolve_stores (hq : (resolve containerID).Asks h q) : Justified h q := meets_resolve.asks hq

theorem resolve_stores_one : Scanned oneHistory oneID 7 := by
  have hasks : (resolve oneID).Asks oneHistory (.store oneID 7) := .later (.later (.later (.later (.later .here))))
  exact resolve_stores hasks

/-! ### Where nothing moves -/

/-- A `/proc` that stays as it is, and what is kept. -/
structure Proc where
  procs : Except Text (List Text)
  cgroup : Text → Except Text Text
  mountNamespace : ℕ → Text
  hostMountNamespace : Text
  entry : Text → Option Entry
  now : ℕ

def Proc.answer (p : Proc) (q : Query) : Reply where
  entry := match q with
    | .entry id => p.entry id
    | _ => none
  now := p.now
  procs := p.procs
  cgroup := match q with
    | .cgroup name => p.cgroup name
    | _ => .error []
  namespaceLink := match q with
    | .mountNamespace pid => p.mountNamespace pid
    | .hostMountNamespace => p.hostMountNamespace
    | _ => []

/-- A process is the container's. -/
def Proc.Member (p : Proc) (id name : Text) (pid : ℕ) : Prop :=
  (∃ data, p.cgroup name = .ok data ∧ cgroupNames data id = true) ∧
    (p.hostMountNamespace = [] ∨ p.mountNamespace pid ≠ p.hostMountNamespace)

/-- The number that is kept of a container, if it has not expired and is the container's. -/
def Proc.Keeps (p : Proc) (id : Text) (pid : ℕ) : Prop :=
  ∃ entry, p.entry id = some entry ∧ entry.pid = pid ∧ p.now < entry.expires ∧ p.Member id (itoa pid) pid

/-- A history with its answers. -/
def Proc.Answers (p : Proc) (h : History) : Prop := ∀ q reply, (q, reply) ∈ h → reply = p.answer q

variable {p : Proc}

theorem answers_run {α : Type} (p : Proc) (t : Talk α) : ∃ h, t.Ends h (t.run p.answer) ∧ p.Answers h := by
  obtain ⟨h, hends, hh⟩ := Interaction.ends_run p.answer t
  exact ⟨h, hends, fun q reply hreply => hh (q, reply) hreply⟩

theorem member_of_seen (hh : p.Answers h) (hs : Seen h id name pid) : p.Member id name pid := by
  obtain ⟨⟨reply, data, hreply, hdata, hnames⟩, host, hhost, hor⟩ := hs
  obtain rfl := hh _ _ hreply
  obtain rfl := hh _ _ hhost
  refine ⟨⟨data, hdata, hnames⟩, hor.imp_right ?_⟩
  rintro ⟨own, hown, hne⟩
  obtain rfl := hh _ _ hown
  exact hne

theorem not_member_of_refused (hh : p.Answers h) (hr : Refused h id name pid) :
    ¬p.Member id name pid := by
  rintro ⟨⟨data, hdata, hnames⟩, hor⟩
  obtain ⟨reply, hreply, hhosted⟩ := hr
  obtain rfl := hh _ _ hreply
  obtain ⟨host, own, hhost, hown, hne, hsame⟩ := hhosted data hdata hnames
  obtain rfl := hh _ _ hhost
  obtain rfl := hh _ _ hown
  exact hor.elim hne fun hdiffers => hdiffers hsame

/-- A process is found to be the container's if it is. -/
theorem run_isMember (p : Proc) (id name : Text) (pid : ℕ) :
    ∃ b, (isMember id name pid).run p.answer = .ok b ∧ (b = true ↔ p.Member id name pid) := by
  obtain ⟨h, hends, hh⟩ := answers_run p (isMember id name pid)
  obtain ⟨-, hr⟩ := meets_isMember.ends hends
  cases hrun : (isMember id name pid).run p.answer with
  | error e =>
    rw [hrun] at hr
    exact hr.elim
  | ok b =>
    rw [hrun] at hr
    refine ⟨b, rfl, ?_⟩
    cases b with
    | true => exact iff_of_true rfl (member_of_seen hh hr)
    | false => exact iff_of_false Bool.false_ne_true (not_member_of_refused hh hr)

theorem run_reuse (p : Proc) (id : Text) : ∃ kept, (reuse id).run p.answer = .ok kept ∧
    ∀ pid, kept = some pid ↔ p.Keeps id pid := by
  have hrun : (reuse id).run p.answer = match p.entry id with
      | none => .ok none
      | some entry =>
        if p.now < entry.expires then
          (pidMatches entry.pid id).run p.answer >>= fun found => .ok (if found then some entry.pid else none)
        else .ok none := by
    rw [reuse, Interaction.run_bind]
    show Interaction.run p.answer (match p.entry id with
      | none => _
      | some entry => _) = _
    cases p.entry id with
    | none => rfl
    | some entry =>
      dsimp only
      rw [Interaction.run_bind]
      show Interaction.run p.answer (if p.now < entry.expires then _ else _) = _
      split
      · exact Interaction.run_bind _
      · rfl
  rw [hrun]
  cases hentry : p.entry id with
  | none =>
    refine ⟨none, rfl, fun pid => iff_of_false (fun hp => by cases hp) ?_⟩
    rintro ⟨entry, hentry', -⟩
    rw [hentry] at hentry'
    cases hentry'
  | some entry =>
    dsimp only
    split
    · rename_i hnow
      obtain ⟨b, hb, hmember⟩ := run_isMember p id (itoa entry.pid) entry.pid
      rw [pidMatches, hb]
      refine ⟨_, rfl, fun pid => ?_⟩
      cases b with
      | true =>
        constructor
        · intro hp
          obtain rfl := Option.some.inj hp
          exact ⟨entry, hentry, rfl, hnow, hmember.mp rfl⟩
        · rintro ⟨entry', hentry', rfl, -⟩
          rw [Option.some.inj (hentry'.symm.trans hentry)]
          rfl
      | false =>
        refine iff_of_false (fun hp => by cases hp) ?_
        rintro ⟨entry', hentry', rfl, -, hm⟩
        rw [Option.some.inj (hentry'.symm.trans hentry)] at hm
        exact Bool.false_ne_true (hmember.mpr hm)
    · rename_i hnow
      refine ⟨none, rfl, fun pid => iff_of_false (fun hp => by cases hp) ?_⟩
      rintro ⟨entry', hentry', -, hnow', -⟩
      rw [Option.some.inj (hentry'.symm.trans hentry)] at hnow'
      exact hnow hnow'

/-- The numbers of a container's processes. -/
def Proc.pids (p : Proc) (id : Text) : Set ℕ :=
  {pid | ∃ names, p.procs = .ok names ∧ ∃ name ∈ names, pidOf name = some pid ∧ p.Member id name pid}

/-- A scan finds the lowest of them. -/
theorem run_scan (p : Proc) (id : Text) : ∃ r, (scan id).run p.answer = .ok r ∧
    ∀ pid, r = .ok pid ↔ IsLeast (p.pids id) pid := by
  obtain ⟨h, hends, hh⟩ := answers_run p (scan id)
  obtain ⟨-, hr⟩ := meets_scan.ends hends
  have hlisted : ∀ {names}, Listed h names → p.procs = .ok names := by
    rintro names ⟨reply, hreply, hnames⟩
    obtain rfl := hh _ _ hreply
    exact hnames
  cases hrun : (scan id).run p.answer with
  | error e =>
    rw [hrun] at hr
    exact hr.elim
  | ok r =>
    rw [hrun] at hr
    refine ⟨r, rfl, fun pid => ?_⟩
    cases r with
    | ok found =>
      obtain ⟨names, hnames, ⟨name, hname, hpid, hseen⟩, hlowest⟩ := hr
      have hleast : IsLeast (p.pids id) found := by
        refine ⟨⟨names, hlisted hnames, name, hname, hpid, member_of_seen hh hseen⟩, ?_⟩
        rintro other ⟨names', hnames', name', hname', hother, hmember⟩
        obtain rfl := Except.ok.inj ((hlisted hnames).symm.trans hnames')
        by_contra hlt
        exact not_member_of_refused hh (hlowest name' hname' other (Nat.not_le.mp hlt) hother) hmember
      constructor
      · intro hp
        obtain rfl := Except.ok.inj hp
        exact hleast
      · intro hleast'
        rw [hleast.unique hleast']
    | error err =>
      refine iff_of_false (fun hp => by cases hp) ?_
      rintro ⟨⟨names, hnames, name, hname, hpid, hmember⟩, -⟩
      cases err with
      | badID => exact hr
      | reading err =>
        obtain ⟨reply, hreply, herr⟩ := hr
        obtain rfl := hh _ _ hreply
        rw [show p.procs = .error err from herr] at hnames
        cases hnames
      | notFound =>
        obtain ⟨names', hnames', hall⟩ := hr
        obtain rfl := Except.ok.inj ((hlisted hnames').symm.trans hnames)
        exact not_member_of_refused hh (hall name hname pid hpid) hmember

/-- The process that is kept, 5, is in the node's own namespace. -/
def oneProc : Proc where
  procs := .ok ["5".toList, "7".toList]
  cgroup := fun _ => .ok "0::/crio-0123456789ab.scope/container".toList
  mountNamespace := fun pid => if pid = 7 then "mnt:[2]".toList else "mnt:[1]".toList
  hostMountNamespace := "mnt:[1]".toList
  entry := fun _ => some ⟨5, 9⟩
  now := 0

end OpenshiftConsole.Filesystem.Resolver
