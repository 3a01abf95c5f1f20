import OpenshiftConsole.NodeTerminal.GroupMembers
import Mathlib.Data.List.Nodup

/-!
# Adding a member and removing it again

To add a user to a group is to change the member list of its line by that user, and removing the user
afterwards is to bring every line back. The transform does so for a group whose password field is not
empty and whose new member list fits in `newmembers`, and for no other (`addRemove_iff`): `strtok_r`
takes the gid of `wheel::10:` for the password, finds only two fields and leaves the line as it is; of
`wheel::10:bob` it makes `wheel:10:bob:alice`.
-/

namespace OpenshiftConsole.NodeTerminal

open OpenshiftConsole.Library.Lines

/-! ### Group files -/

/-- A user name, as far as it can be in a member list. -/
structure UserName (u : Text) : Prop where
  /-- It is a name. -/
  ne_nil : u ≠ []
  /-- It is one name. -/
  comma : ',' ∉ u
  /-- It is within a field. -/
  plain : Plain u

/-- An entry of a group file as `group(5)` has it. The password may be empty, and so may the members. -/
structure GroupEntry where
  /-- The name of the group. -/
  name : Text
  /-- The password. -/
  passwd : Text
  /-- The gid. -/
  gid : Text
  /-- The users in the group. -/
  members : List Text
  /-- A group has a name. -/
  name_ok : name ≠ [] ∧ Plain name
  /-- The password is a field. -/
  passwd_ok : Plain passwd
  /-- A group has a gid. -/
  gid_ok : gid ≠ [] ∧ Plain gid
  /-- The members are users. -/
  members_ok : ∀ m ∈ members, UserName m

namespace GroupEntry

/-- The line of an entry up to its member list. -/
def start (g : GroupEntry) : Text := g.name ++ ':' :: (g.passwd ++ ':' :: (g.gid ++ [':']))

/-- The line of an entry. -/
def text (g : GroupEntry) : Text := g.start ++ memberList g.members

end GroupEntry

/-- `identity_add_group_member_at` or `identity_remove_group_member_at`, where no step of the rewrite fails. -/
def setMember (shim : ℕ × ℕ) (f : EtcFiles) (groupName username : Text) (add : Bool) : EtcFiles :=
  (f.rewrite shim Faults.none (groupMemberTransform groupName username add) .group).2

/-- Adding the user to the group `g` of a file with these entries and removing the user again are inverse. -/
structure AddRemove (shim : ℕ × ℕ) (f : EtcFiles) (entries : List GroupEntry) (g : GroupEntry) (u : Text) : Prop where
  /-- A user who is not in the group is added to its member list, and nothing else changes. -/
  adds : u ∉ g.members → ∃ members, members.Perm (u :: g.members) ∧
    (setMember shim f g.name u true).lines .group =
      entries.map fun e => if e.name = g.name then g.start ++ memberList members else e.text
  /-- Removing the user restores every line. -/
  restores : u ∉ g.members →
    (setMember shim (setMember shim f g.name u true) g.name u false).lines .group = f.lines .group
  /-- Adding a member changes no line. -/
  stays : u ∈ g.members → (setMember shim f g.name u true).lines .group = f.lines .group

/-- The password field is not empty, and the member list with the user in it fits in the buffer. -/
def Addable (g : GroupEntry) (u : Text) : Prop :=
  g.passwd ≠ [] ∧ (memberList (if u ∈ g.members then g.members else g.members ++ [u])).length ≤ membersMax

/-! ### The line of the group -/

variable {shim : ℕ × ℕ} {f : EtcFiles} {entries : List GroupEntry} {g e : GroupEntry} {u : Text} {toks : List Text}

theorem plain_memberList (h : ∀ t ∈ toks, UserName t) : Plain (memberList toks) := by
  have hnot : ∀ c, c ≠ ',' → (∀ t ∈ toks, c ∉ t) → c ∉ memberList toks := by
    intro c hc htoks hmem
    obtain ⟨t, ht, hmem⟩ := List.mem_flatMap.mp (List.mem_of_mem_tail hmem)
    rcases List.mem_cons.mp hmem with rfl | hmem
    · exact hc rfl
    · exact htoks t ht hmem
  exact ⟨hnot ':' (by decide) fun t ht => (h t ht).plain.colon, hnot '\n' (by decide) fun t ht => (h t ht).plain.newline,
    hnot '\x00' (by decide) fun t ht => (h t ht).plain.nul⟩

theorem UserName.token (h : ∀ t ∈ toks, UserName t) : ∀ t ∈ toks, t ≠ [] ∧ ',' ∉ t := fun t ht =>
  ⟨(h t ht).ne_nil, (h t ht).comma⟩

/-- The order of the names does not matter for the room they take. -/
theorem length_memberList_perm {toks' : List Text} (h : toks.Perm toks') :
    (memberList toks).length = (memberList toks').length := by
  rw [memberList, memberList, List.length_tail, List.length_tail, (h.flatMap_right _).length_eq]

theorem GroupEntry.name_prefix_text (g : GroupEntry) : g.name ++ [':'] <+: g.text :=
  ⟨g.passwd ++ ':' :: (g.gid ++ ':' :: memberList g.members), by simp [GroupEntry.text, GroupEntry.start]⟩

theorem GroupEntry.newline_notMem_text (g : GroupEntry) : '\n' ∉ g.text := by
  simp [GroupEntry.text, GroupEntry.start, g.name_ok.2.newline, g.passwd_ok.newline, g.gid_ok.2.newline,
    (plain_memberList g.members_ok).newline]

/-- The line of another group stays. -/
theorem memberLine_of_ne (h : e.name ≠ g.name) (u : Text) (add : Bool) : memberLine g.name u add e.text = e.text := by
  refine memberLine_of_not_starts e.newline_notMem_text fun hpre => h ?_
  exact eq_of_common_start e.name_ok.2.colon g.name_ok.2.colon e.name_prefix_text hpre

/-- With a password, the line is written anew with its new members. -/
theorem memberLine_start (hp : g.passwd ≠ []) (h : ∀ t ∈ toks, UserName t) (hu : Plain u) (add : Bool) :
    memberLine g.name u add (g.start ++ memberList toks) =
      g.start ++ newMembers (some (memberList toks)) u add := by
  have hfields : ∀ t ∈ [g.name, g.passwd, g.gid], t ≠ [] ∧ Plain t := by
    simp only [List.forall_mem_cons, List.not_mem_nil, IsEmpty.forall_iff, implies_true, and_true]
    exact ⟨g.name_ok, ⟨hp, g.passwd_ok⟩, g.gid_ok⟩
  have hsplit := splitGroupLine_fields hfields (plain_memberList h)
  have hline : g.start ++ memberList toks = g.name ++ ':' :: (g.passwd ++ ':' :: (g.gid ++ ':' :: memberList toks)) := by
    simp [GroupEntry.start]
  rw [hline, memberLine_of_split ⟨_, List.append_cons _ _ _ |>.symm⟩ hsplit hu, ← newMembers_getD]
  by_cases hnil : memberList toks = [] <;> simp [GroupLine.text, GroupEntry.start, hnil]

theorem strtok_colon (s : Text) : strtok ':' (chomp (cstr (':' :: s))) = strtok ':' (chomp (cstr s)) := by
  have hsplit := List.splitOn_append_cons_self ([] : Text) (chomp (cstr s)) (a := ':')
  rw [List.nil_append, List.splitOn_nil] at hsplit
  rw [cstr_colon, chomp_colon, strtok, hsplit, List.singleton_append, List.filter_cons_of_neg (by simp)]
  rfl

/-- Without one, the gid is taken for the password, and the line does not get the members. -/
theorem memberLine_of_passwd_nil (hp : g.passwd = []) (hu : UserName u) (h : ∀ t ∈ toks, UserName t) (hne : toks ≠ []) :
    memberLine g.name u true g.text ≠ g.start ++ memberList toks := by
  have hline : g.text = g.name ++ ':' :: ':' :: (g.gid ++ ':' :: memberList g.members) := by
    simp [GroupEntry.text, GroupEntry.start, hp]
  have hplain := plain_memberList g.members_ok
  have hstrtok : strtok ':' (chomp (cstr g.text)) =
      g.name :: g.gid :: if memberList g.members = [] then [] else [memberList g.members] := by
    rw [hline, strtok_field g.name_ok.1 g.name_ok.2, strtok_colon, strtok_field g.gid_ok.1 g.gid_ok.2, strtok_last hplain]
  by_cases hnil : memberList g.members = []
  · -- the line has two tokens and stays
    have hsplit : splitGroupLine (cstr g.text) = none := by
      rw [splitGroupLine, hstrtok, if_pos hnil]
    rw [memberLine_of_not_split g.newline_notMem_text hsplit, GroupEntry.text, hnil]
    intro heq
    exact memberList_ne_nil (UserName.token h) hne (List.append_cancel_left heq).symm
  · have hsplit : splitGroupLine (cstr g.text) = some ⟨g.name, g.gid, memberList g.members, none⟩ := by
      rw [splitGroupLine, hstrtok, if_neg hnil]
      rfl
    rw [memberLine_of_split g.name_prefix_text hsplit hu.plain]
    intro heq
    -- where the gid is written, the line has a colon
    simp only [GroupLine.text, GroupEntry.start, hp, List.append_assoc, List.cons_append, List.nil_append,
      List.append_cancel_left_eq, List.cons.injEq, true_and] at heq
    obtain ⟨c, cs, hgid⟩ := List.exists_cons_of_ne_nil g.gid_ok.1
    rw [hgid, List.cons_append, List.cons.injEq] at heq
    exact g.gid_ok.2.colon (by rw [hgid, heq.1]; exact List.mem_cons_self)

/-- A line that gets these members has a password, and they fit. -/
theorem addable_of_memberLine (hu : UserName u) (h : ∀ t ∈ toks, UserName t) (hne : toks ≠ [])
    (hline : memberLine g.name u true g.text = g.start ++ memberList toks) :
    g.passwd ≠ [] ∧ (memberList toks).length ≤ membersMax := by
  have hp : g.passwd ≠ [] := fun hp => memberLine_of_passwd_nil hp hu h hne hline
  rw [GroupEntry.text, memberLine_start hp g.members_ok hu.plain] at hline
  rw [← List.append_cancel_left hline]
  exact ⟨hp, length_newMembers_le ..⟩

/-- With room, the new members are written. -/
theorem newMembers_add (h : ∀ t ∈ toks, UserName t) (hu : UserName u)
    (hfit : (memberList (if u ∈ toks then toks else toks ++ [u])).length ≤ membersMax) :
    newMembers (some (memberList toks)) u true = memberList (if u ∈ toks then toks else toks ++ [u]) := by
  have htoks := UserName.token h
  rw [newMembers_some, names_memberList htoks]
  simp only [Bool.not_true, Bool.and_false, Bool.not_false, List.filter_true, Bool.true_and]
  by_cases hmem : u ∈ toks
  · rw [if_pos hmem] at hfit ⊢
    rw [if_neg (by simp [hmem]), foldl_addMember_eq htoks hfit]
  · rw [if_neg hmem] at hfit ⊢
    rw [if_pos (by simp [hmem]), ← foldl_addMember_eq _ hfit, List.foldl_append]
    · rfl
    · exact List.forall_mem_append.mpr ⟨htoks, List.forall_mem_singleton.mpr ⟨hu.ne_nil, hu.comma⟩⟩

/-- Leaving takes the new member out. -/
theorem newMembers_remove (h : ∀ t ∈ toks, UserName t) (hu : UserName u) (hmem : u ∉ toks)
    (hfit : (memberList (toks ++ [u])).length ≤ membersMax) :
    newMembers (some (memberList (toks ++ [u]))) u false = memberList toks := by
  have hkeep : toks.filter (· ≠ u) = toks :=
    List.filter_eq_self.mpr fun t ht => by simpa using ne_of_mem_of_not_mem ht hmem
  rw [leave_eq u hfit, names_concat (UserName.token h) ⟨hu.ne_nil, hu.comma⟩, List.filter_append, hkeep,
    List.filter_cons_of_neg (by simp), List.filter_nil, List.append_nil]

/-! ### The file -/

/-- A rewrite for a group changes the line of this group. -/
theorem lines_setMember (hlines : f.lines .group = entries.map GroupEntry.text)
    (hdistinct : (entries.map GroupEntry.name).Nodup) (hg : g ∈ entries) (hu : UserName u) (add : Bool) :
    (setMember shim f g.name u add).lines .group =
      entries.map fun e => if e.name = g.name then memberLine g.name u add g.text else e.text := by
  rw [setMember, lines_groupMember f shim g.name_ok.2.newline hu.plain.newline, hlines, List.map_map]
  refine List.map_congr_left fun e he => ?_
  by_cases heq : e.name = g.name
  · obtain rfl := List.inj_on_of_nodup_map hdistinct he hg heq
    rw [if_pos rfl]
    rfl
  · rw [if_neg heq]
    exact memberLine_of_ne heq u add

/-- The line of a group in a file that has these lines. -/
theorem memberLine_of_lines {t : Text} (hg : g ∈ entries)
    (h : (entries.map fun e => if e.name = g.name then memberLine g.name u true g.text else e.text) =
      entries.map fun e => if e.name = g.name then t else e.text) : memberLine g.name u true g.text = t := by
  have hline := List.map_inj_left.mp h g hg
  rwa [if_pos rfl, if_pos rfl] at hline

theorem map_text_eq (hdistinct : (entries.map GroupEntry.name).Nodup) (hg : g ∈ entries) :
    (entries.map fun e => if e.name = g.name then g.text else e.text) = entries.map GroupEntry.text := by
  refine List.map_congr_left fun e he => ?_
  split
  · rw [List.inj_on_of_nodup_map hdistinct he hg ‹_›]
  · rfl

/-- **When adding a member and removing it are inverse.** -/
theorem addRemove_iff (shim : ℕ × ℕ) (hlines : f.lines .group = entries.map GroupEntry.text)
    (hdistinct : (entries.map GroupEntry.name).Nodup) (hg : g ∈ entries) (hu : UserName u) :
    AddRemove shim f entries g u ↔ Addable g u := by
  have hadd : (setMember shim f g.name u true).lines .group = _ := lines_setMember hlines hdistinct hg hu true
  constructor
  · intro h
    by_cases hmem : u ∈ g.members
    · have hstays := h.stays hmem
      rw [hadd, hlines, ← map_text_eq hdistinct hg] at hstays
      rw [Addable, if_pos hmem]
      exact addable_of_memberLine hu g.members_ok (List.ne_nil_of_mem hmem) (memberLine_of_lines hg hstays)
    · obtain ⟨members, hperm, hadds⟩ := h.adds hmem
      rw [hadd] at hadds
      have hperm' : members.Perm (g.members ++ [u]) := hperm.trans (List.perm_append_singleton u g.members).symm
      have hmembers : ∀ t ∈ members, UserName t := by
        intro t ht
        rcases List.mem_cons.mp (hperm.mem_iff.mp ht) with rfl | ht
        · exact hu
        · exact g.members_ok t ht
      have hne : members ≠ [] := List.ne_nil_of_mem (hperm.mem_iff.mpr List.mem_cons_self)
      rw [Addable, if_neg hmem, ← length_memberList_perm hperm']
      exact addable_of_memberLine hu hmembers hne (memberLine_of_lines hg hadds)
  · rintro ⟨hp, hfit⟩
    have hline : memberLine g.name u true g.text =
        g.start ++ memberList (if u ∈ g.members then g.members else g.members ++ [u]) := by
      rw [GroupEntry.text, memberLine_start hp g.members_ok hu.plain, newMembers_add g.members_ok hu hfit]
    rw [hline] at hadd
    refine ⟨fun hmem => ?_, fun hmem => ?_, fun hmem => ?_⟩
    · rw [if_neg hmem] at hadd
      exact ⟨_, List.perm_append_singleton u g.members, hadd⟩
    · rw [if_neg hmem] at hadd hfit
      have hnew : ∀ t ∈ g.members ++ [u], UserName t :=
        List.forall_mem_append.mpr ⟨g.members_ok, List.forall_mem_singleton.mpr hu⟩
      rw [setMember, lines_groupMember _ shim g.name_ok.2.newline hu.plain.newline, hadd, hlines, List.map_map,
        ← map_text_eq hdistinct hg]
      refine List.map_congr_left fun e he => ?_
      by_cases heq : e.name = g.name
      · simp only [Function.comp_apply, if_pos heq]
        rw [memberLine_start hp hnew hu.plain, newMembers_remove g.members_ok hu hmem hfit]
        rfl
      · simp only [Function.comp_apply, if_neg heq]
        exact memberLine_of_ne heq u false
    · rw [if_pos hmem] at hadd
      rw [hadd, hlines]
      exact map_text_eq hdistinct hg

/-! ### Two files -/

/-- `wheel:x:10:`. -/
def wheel : GroupEntry :=
  ⟨"wheel".toList, ['x'], "10".toList, [], ⟨by decide, by constructor <;> decide⟩, by constructor <;> decide,
    ⟨by decide, by constructor <;> decide⟩, nofun⟩

/-- `wheel::10:`. -/
def wheelWithoutPassword : GroupEntry :=
  ⟨"wheel".toList, [], "10".toList, [], ⟨by decide, by constructor <;> decide⟩, by constructor <;> decide,
    ⟨by decide, by constructor <;> decide⟩, nofun⟩

/-- A host with only this group. -/
def groupFile (g : GroupEntry) : EtcFiles
  | .group => some ⟨g.text ++ ['\n'], 0o644, 0, 0⟩
  | _ => none

theorem lines_groupFile (g : GroupEntry) : (groupFile g).lines .group = [g].map GroupEntry.text :=
  fileLines_line g.newline_notMem_text

theorem userName_alice : UserName "alice".toList := ⟨by decide, by decide, by constructor <;> decide⟩

/-- A group with a password field can be joined and left. -/
theorem addRemove_wheel : AddRemove (0, 0) (groupFile wheel) [wheel] wheel "alice".toList :=
  (addRemove_iff (0, 0) (lines_groupFile wheel) (List.nodup_singleton _) (List.mem_singleton_self _) userName_alice).mpr
    ⟨by decide, by decide⟩

/-- One without cannot. -/
theorem not_addRemove_of_no_password :
    ¬ AddRemove (0, 0) (groupFile wheelWithoutPassword) [wheelWithoutPassword] wheelWithoutPassword "alice".toList := by
  intro h
  obtain ⟨members, hperm, hadds⟩ := h.adds (by decide)
  have hg : wheelWithoutPassword ∈ [wheelWithoutPassword] := List.mem_singleton_self _
  rw [lines_setMember (lines_groupFile _) (List.nodup_singleton _) hg userName_alice] at hadds
  obtain rfl := List.perm_singleton.mp hperm
  exact (addable_of_memberLine userName_alice (List.forall_mem_singleton.mpr userName_alice) (by simp)
    (memberLine_of_lines hg hadds)).1 rfl

end OpenshiftConsole.NodeTerminal
