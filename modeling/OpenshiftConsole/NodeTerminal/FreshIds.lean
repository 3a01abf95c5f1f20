import OpenshiftConsole.NodeTerminal.Pipeline

/-!
# Fresh ids

A session's uid is to be the smallest of the reserved range that no entry of `passwd` has, and its
gid, the same number, is to be no group's. `identity_find_free_uid` looks at `passwd` only, and takes
the third token of a line for its third field. `strtok_r` skips empty fields: of `u::60000:100:…` it
reads the gid, and the uid 60000 looks free.

The ids are fresh exactly when the scan errs on no line that matters and the group file does not
already have the number (`freshIds_iff`). Where every entry has its first three fields, only the
group file matters (`idsReadRight_iff_of_filled`).
-/

namespace OpenshiftConsole.NodeTerminal.Pipeline

open OpenshiftConsole.Library.Lines

/-! ### What is promised, and when it is kept -/

/-- The number in the third field of an entry of `passwd` or `group`. -/
def idField (line : Text) : Option ℕ := ((line.splitOn ':')[2]?).bind strtoul

/-- An entry of the file has this id. -/
def Taken (f : EtcFiles) (k : EtcFile) (id : ℕ) : Prop := ∃ l ∈ f.lines k, idField l = some id

/-- The ids reserved for sessions. -/
def reservedIds : Set ℕ := Set.Icc SHIM_UID_RANGE_MIN SHIM_UID_RANGE_MAX

/-- No call of `identity_alloc_uid` fails for another reason than a lack of ids. -/
def Env.Allocates (e : Env) : Prop :=
  e.fails.openUidLock = false ∧ e.fails.flockUidLock = false ∧ e.fails.readUids = false

/-- The ids that `identity_alloc_uid` gives a session are fresh, and there are none only when all
of them are in use. -/
structure FreshIds (e : Env) (r : Run) : Prop where
  /-- The uid is the smallest that no account has. -/
  uid : ∀ r', identityAllocUid e r = .ok r' →
    IsLeast {id | id ∈ reservedIds ∧ ¬ Taken r.host.etc .passwd id} r'.uid.toNat
  /-- The gid is the same number, and no group has it. -/
  gid : ∀ r', identityAllocUid e r = .ok r' → r'.gid = r'.uid ∧ ¬ Taken r.host.etc .group r'.gid.toNat
  /-- There is a free id unless all are in use. -/
  used : ∀ r', identityAllocUid e r = .error r' → e.Allocates →
    ∀ id ∈ reservedIds, Taken r.host.etc .passwd id ∨ Taken r.host.etc .group id

/-- The first id that no account has is read off no line and no group has it, and those before it are
read; or all ids are read and in use. -/
def IdsReadRight (f : EtcFiles) : Prop :=
  (∃ m, IsLeast {id | id ∈ reservedIds ∧ ¬ Taken f .passwd id} m ∧ m ∉ scannedUids (f .passwd) ∧ ¬ Taken f .group m ∧
    ∀ id ∈ reservedIds, id < m → id ∈ scannedUids (f .passwd)) ∨
  ∀ id ∈ reservedIds, id ∈ scannedUids (f .passwd) ∧ (Taken f .passwd id ∨ Taken f .group id)

/-! ### The allocation -/

variable {e : Env} {r r' : Run} {f : EtcFiles} {l : Text}

theorem toNat_ofNat_reserved {id : ℕ} (h : id ∈ reservedIds) : (UInt32.ofNat id).toNat = id := by
  obtain ⟨-, hhi⟩ := h
  simp only [SHIM_UID_RANGE_MAX] at hhi
  rw [UInt32.toNat_ofNat']
  omega

/-- An allocation whose calls work is the search for an id. -/
theorem identityAllocUid_eq (he : e.Allocates) (r : Run) :
    identityAllocUid e r =
      match identityFindFreeUid (openFile (r.host.etc .passwd)) SHIM_UID_RANGE_MIN SHIM_UID_RANGE_MAX with
      | none => .error r
      | some uid => .ok { r with uid := UInt32.ofNat uid, gid := UInt32.ofNat uid, uidLock := true } := by
  have hopen : fopen e.fails.readUids (r.host.etc .passwd) = openFile (r.host.etc .passwd) := by simp [fopen, he.2.2]
  rewrite [identityAllocUid, if_neg (by simp [he.1]), if_neg (by simp [he.2.1]), hopen]
  rfl

/-- Any other hands out nothing. -/
theorem allocates_of_ok (h : identityAllocUid e r = .ok r') : e.Allocates := by
  rw [identityAllocUid] at h
  split at h
  · cases h
  · split at h
    · cases h
    · rename_i ho hl
      refine ⟨by simpa using ho, by simpa using hl, ?_⟩
      by_contra hp
      have hopen : fopen e.fails.readUids (r.host.etc .passwd) = .failed := by simp [fopen, hp]
      rw [hopen] at h
      simp [identityFindFreeUid] at h

/-- An allocation succeeds with the smallest id that the scan does not read. -/
theorem identityAllocUid_ok_iff (he : e.Allocates) :
    identityAllocUid e r = .ok r' ↔
      ∃ m, IsLeast {id | id ∈ reservedIds ∧ id ∉ scannedUids (r.host.etc .passwd)} m ∧
        { r with uid := UInt32.ofNat m, gid := UInt32.ofNat m, uidLock := true } = r' := by
  rw [identityAllocUid_eq he]
  simp only [reservedIds, ← identityFindFreeUid_eq_some_iff]
  cases identityFindFreeUid (openFile (r.host.etc .passwd)) SHIM_UID_RANGE_MIN SHIM_UID_RANGE_MAX with
  | none => exact ⟨nofun, nofun⟩
  | some m =>
    constructor
    · exact fun h => ⟨m, rfl, Except.ok.inj h⟩
    · rintro ⟨m', hm, rfl⟩
      rw [Option.some.inj hm]

/-- It fails when the scan reads all ids. -/
theorem identityAllocUid_error_iff (he : e.Allocates) :
    identityAllocUid e r = .error r' ↔ (∀ id ∈ reservedIds, id ∈ scannedUids (r.host.etc .passwd)) ∧ r = r' := by
  rw [identityAllocUid_eq he]
  simp only [reservedIds, ← identityFindFreeUid_eq_none_iff]
  cases identityFindFreeUid (openFile (r.host.etc .passwd)) SHIM_UID_RANGE_MIN SHIM_UID_RANGE_MAX with
  | none =>
    constructor
    · exact fun h => ⟨rfl, Except.error.inj h⟩
    · rintro ⟨-, rfl⟩
      rfl
  | some m => exact ⟨nofun, nofun⟩

/-! ### When the ids are fresh -/

/-- Where the ids are read right, the scan stops at the id that is wanted. -/
theorem fresh_of_readRight (h : IdsReadRight r.host.etc) (hr : identityAllocUid e r = .ok r') :
    ∃ m, IsLeast {id | id ∈ reservedIds ∧ ¬ Taken r.host.etc .passwd id} m ∧ ¬ Taken r.host.etc .group m ∧
      r'.uid = UInt32.ofNat m ∧ r'.gid = UInt32.ofNat m := by
  obtain ⟨m', hleast, rfl⟩ := (identityAllocUid_ok_iff (allocates_of_ok hr)).mp hr
  rcases h with ⟨m, hm, hfree, hgroup, hbelow⟩ | hall
  · have hle : m' ≤ m := hleast.2 ⟨hm.1.1, hfree⟩
    have heq : m' = m := by
      by_contra hne
      exact hleast.1.2 (hbelow m' hleast.1.1 (lt_of_le_of_ne hle hne))
    exact ⟨m, hm, hgroup, by rw [heq], by rw [heq]⟩
  · exact absurd (hall m' hleast.1.1).1 hleast.1.2

theorem freshIds_of_readRight (h : e.Allocates → IdsReadRight r.host.etc) : FreshIds e r := by
  refine ⟨fun r' hr => ?_, fun r' hr => ?_, fun r' hr he id hid => ?_⟩
  · obtain ⟨m, hm, -, hu, -⟩ := fresh_of_readRight (h (allocates_of_ok hr)) hr
    rwa [hu, toNat_ofNat_reserved hm.1.1]
  · obtain ⟨m, hm, hgroup, hu, hg⟩ := fresh_of_readRight (h (allocates_of_ok hr)) hr
    rw [hu, hg, toNat_ofNat_reserved hm.1.1]
    exact ⟨rfl, hgroup⟩
  · obtain ⟨hscan, -⟩ := (identityAllocUid_error_iff he).mp hr
    rcases h he with ⟨m, hm, hfree, -, -⟩ | hall
    · exact absurd (hscan m hm.1.1) hfree
    · exact (hall id hid).2

/-- What the scan finds is what is wanted only if it reads the ids right. -/
theorem FreshIds.readRight (h : FreshIds e r) (he : e.Allocates) : IdsReadRight r.host.etc := by
  cases hr : identityAllocUid e r with
  | error r' =>
    obtain ⟨hscan, -⟩ := (identityAllocUid_error_iff he).mp hr
    exact .inr fun id hid => ⟨hscan id hid, h.used r' hr he id hid⟩
  | ok r' =>
    obtain ⟨m, hleast, rfl⟩ := (identityAllocUid_ok_iff he).mp hr
    have huid := h.uid _ hr
    have hgid := (h.gid _ hr).2
    simp only [toNat_ofNat_reserved hleast.1.1] at huid hgid
    refine .inl ⟨m, huid, hleast.1.2, hgid, fun id hid hlt => ?_⟩
    by_contra hfree
    exact absurd (hleast.2 ⟨hid, hfree⟩) hlt.not_ge

/-- **When a session's ids are fresh**: when the ids are read right. -/
theorem freshIds_iff (e : Env) (r : Run) : FreshIds e r ↔ (e.Allocates → IdsReadRight r.host.etc) :=
  ⟨FreshIds.readRight, freshIds_of_readRight⟩

/-! ### Entries whose fields are not empty -/

/-- The first three fields of the line are there and not empty, and a colon follows them. -/
def Filled (l : Text) : Prop :=
  ∃ a b c, (∀ t ∈ [a, b, c], t ≠ [] ∧ Plain t) ∧ a ++ ':' :: (b ++ ':' :: (c ++ [':'])) <+: l

/-- Of such an entry the scan reads the third field. -/
theorem uidOfLine_of_filled (h : Filled (chomp l)) : uidOfLine l = idField (chomp l) := by
  obtain ⟨a, b, c, hplain, hl⟩ := h
  have hfields : ∀ t ∈ [a, b, c], t ≠ [] ∧ ':' ∉ t ∧ '\x00' ∉ t := fun t ht =>
    ⟨(hplain t ht).1, (hplain t ht).2.colon, (hplain t ht).2.nul⟩
  rw [uidOfLine_of_fields hfields (hl.trans (List.takeWhile_prefix _))]
  obtain ⟨rest, hrest⟩ := hl
  have hline : chomp l = a ++ ':' :: (b ++ ':' :: (c ++ ':' :: rest)) := by simp [← hrest]
  rw [idField, hline, List.splitOn_append_cons_self_of_not_mem (hfields a (by simp)).2.1,
    List.splitOn_append_cons_self_of_not_mem (hfields b (by simp)).2.1,
    List.splitOn_append_cons_self_of_not_mem (hfields c (by simp)).2.1]
  rfl

theorem scanned_iff_taken (h : ∀ l ∈ f.lines .passwd, Filled l) (id : ℕ) :
    id ∈ scannedUids (f .passwd) ↔ Taken f .passwd id := by
  rw [EtcFiles.lines_eq, fileLines, List.forall_mem_map] at h
  simp only [Taken, EtcFiles.lines_eq, fileLines, scannedUids, List.mem_filterMap, List.mem_map, exists_exists_and_eq_and]
  exact exists_congr fun l => and_congr_right fun hl => by rw [uidOfLine_of_filled (h l hl)]

/-- Where all entries are filled, it is enough that no group has the first free id. -/
theorem idsReadRight_iff_of_filled (h : ∀ l ∈ f.lines .passwd, Filled l) :
    IdsReadRight f ↔ ∀ m, IsLeast {id | id ∈ reservedIds ∧ ¬ Taken f .passwd id} m → ¬ Taken f .group m := by
  have hscan := scanned_iff_taken h
  constructor
  · rintro (⟨m, hm, -, hgroup, -⟩ | hall) m' hm'
    · rwa [hm'.unique hm]
    · exact absurd ((hscan m').mp (hall m' hm'.1.1).1) hm'.1.2
  · intro hgroup
    by_cases hfree : {id | id ∈ reservedIds ∧ ¬ Taken f .passwd id}.Nonempty
    · obtain ⟨m, hm, hmin⟩ := Nat.lt_wfRel.wf.has_min _ hfree
      have hm : IsLeast {id | id ∈ reservedIds ∧ ¬ Taken f .passwd id} m := ⟨hm, fun id hid => not_lt.mp (hmin id hid)⟩
      refine .inl ⟨_, hm, (hscan _).not.mpr hm.1.2, hgroup _ hm, fun id hid hlt => (hscan id).mpr ?_⟩
      by_contra hid'
      exact absurd (hm.2 ⟨hid, hid'⟩) hlt.not_ge
    · refine .inr fun id hid => ?_
      have htaken : Taken f .passwd id := by
        by_contra hid'
        exact hfree ⟨id, hid, hid'⟩
      exact ⟨(hscan id).mpr htaken, .inl htaken⟩

/-! ### Two hosts -/

/-- A host with these lines in `passwd` and `group`. -/
def hostWithEtc (passwd group : Text) : Host :=
  { hostWithHome with
    etc := fun
      | .passwd => some ⟨passwd, 0o644, 0, 0⟩
      | .group => some ⟨group, 0o644, 0, 0⟩
      | .shadow => none }

/-- The session `alice` asks for, on this host. -/
def aliceRun (passwd group : Text) : Run := Run.start aliceEnv (hostWithEtc passwd group)

/-- An account with an empty password field and the uid 60000 gives its uid to the session; so does a
group with the gid 60000 give its gid. -/
theorem ids_given_twice :
    ¬ FreshIds aliceEnv (aliceRun "u::60000:100::/home/u:/bin/sh\n".toList []) ∧
      ¬ FreshIds aliceEnv (aliceRun [] "g:x:60000:\n".toList) := by
  have hfree (passwd group : Text) (hscan : 60000 ∉ scannedUids ((hostWithEtc passwd group).etc .passwd)) :
      ∃ r', identityAllocUid aliceEnv (aliceRun passwd group) = .ok r' ∧ r'.uid.toNat = 60000 ∧ r'.gid.toNat = 60000 := by
    have hleast : IsLeast {id | id ∈ reservedIds ∧ id ∉ scannedUids ((hostWithEtc passwd group).etc .passwd)} 60000 :=
      ⟨⟨⟨le_rfl, by decide⟩, hscan⟩, fun id hid => hid.1.1⟩
    exact ⟨_, (identityAllocUid_ok_iff ⟨rfl, rfl, rfl⟩).mpr ⟨60000, hleast, rfl⟩, rfl, rfl⟩
  constructor
  · intro h
    obtain ⟨r', hr, hu, -⟩ := hfree "u::60000:100::/home/u:/bin/sh\n".toList [] (by decide)
    have hleast := h.uid r' hr
    rw [hu] at hleast
    exact hleast.1.2 ⟨_, List.mem_singleton_self _, by decide⟩
  · intro h
    obtain ⟨r', hr, -, hg⟩ := hfree [] "g:x:60000:\n".toList (by decide)
    have hgroup := (h.gid r' hr).2
    rw [hg] at hgroup
    exact hgroup ⟨_, List.mem_singleton_self _, by decide⟩

end OpenshiftConsole.NodeTerminal.Pipeline
