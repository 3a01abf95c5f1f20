import Mathlib.Data.List.Flatten
import Mathlib.Data.List.Induction
import OpenshiftConsole.NodeTerminal.Identity

/-!
# Joining and leaving a group

A session joins groups of the host by a rewrite of `/etc/group` and leaves them by another
one (`group_member_transform`). Both write the line of the group anew from its fields, as
`strtok_r` finds them: empty fields and empty members are skipped, a fifth field is
dropped, and what does not fit in the buffer of the members is cut off.

A line comes back when it is `Tidy`: written as the transform writes lines, with
room for the session's name, which is not there yet. `leave_join_iff` says that no other line does.
-/

namespace OpenshiftConsole.NodeTerminal

open OpenshiftConsole.Library.Lines

/-- The length of the longest member list that fits in `newmembers`. -/
def membersMax : ℕ := 2047

/-- The names of a member list. -/
def names (members : Text) : List Text := strtok ',' members

/-- The member list of names: a comma between each two. -/
def memberList (toks : List Text) : Text := (toks.flatMap (',' :: ·)).tail

/-- The member list is written as the transform writes it, `u` is not in it, and there is room for
all of `u` or for no letter of it. -/
def TidyMembers (u members : Text) : Prop :=
  members = memberList (names members) ∧ u ∉ names members ∧
    (names members = [] ∨ members.length + 1 + u.length ≤ membersMax ∨
      membersMax ≤ members.length + 1 ∧ members.length ≤ membersMax)

/-- A group line with these members, as the transform writes it. -/
def GroupLine.text (g : GroupLine) (members : Text) : Text :=
  g.name ++ ':' :: (g.passwd ++ ':' :: (g.gid ++ ':' :: members))

/-- The line has fewer than three fields, or is written as the transform writes it, with a tidy member list. -/
def Tidy (u l : Text) : Prop :=
  ∀ g, splitGroupLine (cstr l) = some g → l = g.text (g.members.getD []) ∧ TidyMembers u (g.members.getD [])

/-- What the transform makes of a line without its newline. -/
def memberLine (groupName username : Text) (add : Bool) (line : Text) : Text :=
  chomp (groupMemberLine groupName username add line)

/-- What rewrites for these groups, one after the other, make of a line. -/
def memberLines (groups : List Text) (username : Text) (add : Bool) (line : Text) : Text :=
  groups.foldl (fun l g => memberLine g username add l) line

/-! ### Member lists -/

variable {u m t : Text} {toks : List Text}

theorem mem_names (h : t ∈ names m) : t ≠ [] ∧ ',' ∉ t := mem_strtok h

theorem memberList_eq_intercalate (toks : List Text) : memberList toks = [','].intercalate toks := by
  induction toks with
  | nil => rfl
  | cons t toks ih =>
    cases toks with
    | nil => simp [memberList]
    | cons s toks =>
      rw [List.intercalate_cons_cons, ← ih]
      simp [memberList]

/-- A member list has the names it is made of. -/
theorem names_memberList (h : ∀ t ∈ toks, t ≠ [] ∧ ',' ∉ t) : names (memberList toks) = toks := by
  rcases eq_or_ne toks [] with rfl | hne
  · rfl
  · rw [names, strtok, memberList_eq_intercalate, List.splitOn_intercalate _ (fun t ht => (h t ht).2) hne]
    exact List.filter_eq_self.mpr fun t ht => by simpa using (h t ht).1

theorem memberList_append (hne : toks ≠ []) (t : Text) : memberList (toks ++ [t]) = memberList toks ++ ',' :: t := by
  obtain ⟨s, ss, rfl⟩ := List.exists_cons_of_ne_nil hne
  simp [memberList]

theorem memberList_ne_nil (h : ∀ t ∈ toks, t ≠ [] ∧ ',' ∉ t) (hne : toks ≠ []) : memberList toks ≠ [] := by
  intro hnil
  apply hne
  rw [← names_memberList h, hnil]
  rfl

/-- A comma at the end makes no name. -/
theorem names_append_comma (m : Text) : names (m ++ [',']) = names m := by
  simp [names, strtok, List.splitOn_append_cons_self]

/-- Some of the names take no more room than all of them. -/
theorem length_memberList_filter_le (p : Text → Bool) (toks : List Text) :
    (memberList (toks.filter p)).length ≤ (memberList toks).length := by
  have h : List.Sublist ((toks.filter p).flatMap (',' :: ·)) (toks.flatMap (',' :: ·)) :=
    List.filter_sublist.flatMap _
  exact h.tail.length_le

theorem length_memberList_names (m : Text) : (memberList (names m)).length ≤ m.length := by
  have h := length_memberList_filter_le (· ≠ []) (m.splitOn ',')
  rwa [memberList_eq_intercalate (m.splitOn ','), List.intercalate_splitOn] at h

/-- Without one of them they take less. -/
theorem length_memberList_filter_lt {p : Text → Bool} (ht : t ∈ toks) (hne : t ≠ []) (hp : p t = false) :
    (memberList (toks.filter p)).length < (memberList toks).length := by
  obtain ⟨l, r, rfl⟩ := List.append_of_mem ht
  have hsome (s : List Text) : ((s.filter p).flatMap (',' :: ·)).length ≤ (s.flatMap (',' :: ·)).length :=
    (List.filter_sublist.flatMap _).length_le
  have hl := hsome l
  have hr := hsome r
  have hpos := List.length_pos_iff.mpr hne
  rw [List.filter_append, List.filter_cons_of_neg (by simp [hp])]
  simp only [memberList, List.flatMap_append, List.flatMap_cons, List.length_tail, List.length_append, List.length_cons]
  omega

/-! ### The buffer of the members -/

theorem length_strncatMembers_le (acc s : Text) : (strncatMembers acc s).length ≤ max acc.length membersMax := by
  simp only [strncatMembers, membersMax, List.length_append, List.length_take]
  omega

theorem strncatMembers_of_room {acc s : Text} (h : acc.length + s.length ≤ membersMax) :
    strncatMembers acc s = acc ++ s := by
  simp only [membersMax] at h
  rw [strncatMembers, List.take_of_length_le (by omega)]

theorem strncatMembers_full {acc : Text} (h : membersMax ≤ acc.length) (s : Text) : strncatMembers acc s = acc := by
  simp only [membersMax] at h
  rw [strncatMembers, Nat.sub_eq_zero_of_le (by omega), List.take_zero, List.append_nil]

theorem length_addMember_le (acc tok : Text) : (addMember acc tok).length ≤ max acc.length membersMax := by
  unfold addMember
  split
  · exact length_strncatMembers_le acc tok
  · have h := length_strncatMembers_le (strncatMembers acc [',']) tok
    have := length_strncatMembers_le acc [',']
    omega

theorem length_foldl_addMember_le (toks : List Text) (acc : Text) :
    (toks.foldl addMember acc).length ≤ max acc.length membersMax := by
  induction toks generalizing acc with
  | nil => exact Nat.le_max_left ..
  | cons t toks ih =>
    have h := ih (addMember acc t)
    have := length_addMember_le acc t
    rw [List.foldl_cons]
    omega

/-- One more member, cut to the room there is. -/
theorem addMember_eq_take {acc : Text} (hne : acc ≠ []) (h : acc.length + 1 ≤ membersMax) (tok : Text) :
    addMember acc tok = acc ++ ',' :: tok.take (membersMax - (acc.length + 1)) := by
  have hcomma : strncatMembers acc [','] = acc ++ [','] := strncatMembers_of_room h
  have hroom : 2048 - (acc.length + 1) - 1 = membersMax - (acc.length + 1) := by
    simp only [membersMax]
    omega
  rw [addMember, if_neg hne, hcomma, strncatMembers, List.length_append, List.length_singleton, List.append_assoc,
    List.singleton_append, hroom]

theorem addMember_of_room {acc : Text} (hne : acc ≠ []) (h : acc.length + 1 + t.length ≤ membersMax) :
    addMember acc t = acc ++ ',' :: t := by
  rw [addMember_eq_take hne (by omega), List.take_of_length_le (by omega)]

theorem addMember_full {acc : Text} (hne : acc ≠ []) (h : membersMax ≤ acc.length) (tok : Text) :
    addMember acc tok = acc := by
  rw [addMember, if_neg hne, strncatMembers_full h, strncatMembers_full h]

/-- Where there is no room for a letter, no name is added. -/
theorem names_addMember_full {acc : Text} (hne : acc ≠ []) (h : membersMax ≤ acc.length + 1) (tok : Text) :
    names (addMember acc tok) = names acc := by
  rcases Nat.lt_or_ge acc.length membersMax with hone | hzero
  · have hcomma : strncatMembers acc [','] = acc ++ [','] := strncatMembers_of_room hone
    rw [addMember, if_neg hne, hcomma, strncatMembers_full (by simpa using h), names_append_comma]
  · rw [addMember_full hne hzero]

/-- Names that fit are listed. -/
theorem foldl_addMember_eq (h : ∀ t ∈ toks, t ≠ [] ∧ ',' ∉ t) (hfit : (memberList toks).length ≤ membersMax) :
    toks.foldl addMember [] = memberList toks := by
  induction toks using List.reverseRecOn with
  | nil => rfl
  | append_singleton toks t ih =>
    rcases eq_or_ne toks [] with rfl | hne
    · have hlist : memberList [t] = t := by simp [memberList]
      rw [List.nil_append] at hfit ⊢
      rw [hlist] at hfit ⊢
      rw [List.foldl_cons, List.foldl_nil, addMember, if_pos rfl, strncatMembers_of_room (by simpa using hfit),
        List.nil_append]
    · have hold : ∀ s ∈ toks, s ≠ [] ∧ ',' ∉ s := fun s hs => h s (List.mem_append_left _ hs)
      rw [memberList_append hne, List.length_append, List.length_cons] at hfit
      rw [List.foldl_append, List.foldl_cons, List.foldl_nil, ih hold (by omega),
        addMember_of_room (memberList_ne_nil hold hne) (by omega), memberList_append hne]

/-! ### What joining and leaving make of a member list -/

theorem newMembers_some (m u : Text) (add : Bool) :
    newMembers (some m) u add =
      let acc := ((names m).filter fun tok => !(tok = u && !add)).foldl addMember []
      if add && !(names m).contains u then addMember acc u else acc := rfl

theorem newMembers_getD (ms : Option Text) (u : Text) (add : Bool) :
    newMembers (some (ms.getD [])) u add = newMembers ms u add := by
  cases ms <;> rfl

theorem length_newMembers_le (ms : Option Text) (u : Text) (add : Bool) : (newMembers ms u add).length ≤ membersMax := by
  have hkept (toks : List Text) : (toks.foldl addMember []).length ≤ membersMax := by
    simpa using length_foldl_addMember_le toks []
  rw [← newMembers_getD, newMembers_some]
  simp only
  split
  · exact (length_addMember_le _ u).trans (max_le (hkept _) le_rfl)
  · exact hkept _

/-- Joining puts the name behind the others unless it is there. -/
theorem join_eq (u : Text) (hm : m.length ≤ membersMax) :
    newMembers (some m) u true =
      if u ∈ names m then memberList (names m) else addMember (memberList (names m)) u := by
  have hfit := length_memberList_names m
  have hlist : (names m).foldl addMember [] = memberList (names m) :=
    foldl_addMember_eq (fun t => mem_names) (by omega)
  simp only [newMembers_some, Bool.not_true, Bool.and_false, Bool.not_false, List.filter_true, Bool.true_and, hlist]
  by_cases hu : u ∈ names m <;> simp [hu]

/-- Leaving takes the name out. -/
theorem leave_eq (u : Text) (hm : m.length ≤ membersMax) :
    newMembers (some m) u false = memberList ((names m).filter (· ≠ u)) := by
  have hfit := length_memberList_names m
  have hsome := length_memberList_filter_le (· ≠ u) (names m)
  have hlist : ((names m).filter (· ≠ u)).foldl addMember [] = memberList ((names m).filter (· ≠ u)) :=
    foldl_addMember_eq (fun t ht => mem_names (List.mem_of_mem_filter ht)) (by omega)
  simpa [newMembers_some] using hlist

/-- What comes of a member list with one more name: the name is listed, or there is room for
no letter of it, or for some of its letters only. -/
inductive Joined (u : Text) (toks : List Text) : Text → Prop where
  /-- The name fits. -/
  | fits (h : toks = [] ∨ (memberList toks).length + 1 + u.length ≤ membersMax) :
      Joined u toks (memberList (toks ++ [u]))
  /-- Nothing of the name fits; a comma may. -/
  | full {m' : Text} (hne : toks ≠ []) (h : membersMax ≤ (memberList toks).length + 1) (hm' : names m' = toks) :
      Joined u toks m'
  /-- The name is cut off. -/
  | cut {t : Text} (hne : toks ≠ []) (h : (memberList toks).length + 1 < membersMax)
      (h' : membersMax < (memberList toks).length + 1 + u.length) (ht : t ≠ u) (htok : t ≠ [] ∧ ',' ∉ t)
      (hfull : (memberList (toks ++ [t])).length = membersMax) : Joined u toks (memberList (toks ++ [t]))

theorem joined_addMember (hcomma : ',' ∉ u) (hlen : u.length ≤ membersMax)
    (h : ∀ t ∈ toks, t ≠ [] ∧ ',' ∉ t) : Joined u toks (addMember (memberList toks) u) := by
  rcases eq_or_ne toks [] with rfl | hne
  · have hfirst : addMember (memberList []) u = memberList ([] ++ [u]) := by
      show strncatMembers [] u = _
      rw [strncatMembers_of_room (by simpa using hlen)]
      simp [memberList]
    rw [hfirst]
    exact Joined.fits (Or.inl rfl)
  have hacc := memberList_ne_nil h hne
  rcases Nat.lt_or_ge membersMax ((memberList toks).length + 1 + u.length) with hlong | hroom
  · rcases Nat.lt_or_ge ((memberList toks).length + 1) membersMax with hsome | hnone
    · have htake : (u.take (membersMax - ((memberList toks).length + 1))).length =
          membersMax - ((memberList toks).length + 1) := by
        rw [List.length_take]
        omega
      rw [addMember_eq_take hacc hsome.le, ← memberList_append hne]
      apply Joined.cut hne hsome hlong
      · intro heq
        rw [heq] at htake
        omega
      · constructor
        · intro hnil
          rw [hnil, List.length_nil] at htake
          omega
        · exact fun hc => hcomma (List.mem_of_mem_take hc)
      · rw [memberList_append hne, List.length_append, List.length_cons, htake]
        omega
    · apply Joined.full hne hnone
      rw [names_addMember_full hacc hnone, names_memberList h]
  · rw [addMember_of_room hacc hroom, ← memberList_append hne]
    exact Joined.fits (Or.inr hroom)

/-! ### Joining and leaving again -/

theorem names_concat (h : ∀ t ∈ toks, t ≠ [] ∧ ',' ∉ t) (ht : t ≠ [] ∧ ',' ∉ t) :
    names (memberList (toks ++ [t])) = toks ++ [t] :=
  names_memberList (List.forall_mem_append.mpr ⟨h, List.forall_mem_singleton.mpr ht⟩)

/-- Leaving once is enough. -/
theorem leave_leave (u : Text) (hm : m.length ≤ membersMax) :
    newMembers (some (newMembers (some m) u false)) u false = newMembers (some m) u false := by
  rw [leave_eq u (length_newMembers_le ..), leave_eq u hm,
    names_memberList fun t ht => mem_names (List.mem_of_mem_filter ht), List.filter_filter]
  simp only [Bool.and_self]

/-- Joining once is enough. -/
theorem join_join (hu : u ≠ [] ∧ ',' ∉ u) (hlen : u.length ≤ membersMax) (hm : m.length ≤ membersMax) :
    newMembers (some (newMembers (some m) u true)) u true = newMembers (some m) u true := by
  have hnames : ∀ t ∈ names m, t ≠ [] ∧ ',' ∉ t := fun t => mem_names
  rw [join_eq u (length_newMembers_le ..), join_eq u hm]
  by_cases hmem : u ∈ names m
  · rw [if_pos hmem, names_memberList hnames, if_pos hmem]
  · rw [if_neg hmem]
    generalize hm' : addMember (memberList (names m)) u = m'
    have hj : Joined u (names m) m' := hm' ▸ joined_addMember hu.2 hlen hnames
    cases hj with
    | fits h => rw [names_concat hnames hu, if_pos (by simp)]
    | full hne h hnames' => rw [hnames', if_neg hmem, hm']
    | cut hne h h' ht htok hfull =>
      have hacc := memberList_ne_nil (List.forall_mem_append.mpr ⟨hnames, List.forall_mem_singleton.mpr htok⟩) (by simp)
      rw [names_concat hnames htok, if_neg (by simp [hmem, Ne.symm ht]), addMember_full hacc hfull.ge]

/-- **A member list comes back** from joining and leaving exactly when it is tidy. -/
theorem leave_join_iff (hu : u ≠ [] ∧ ',' ∉ u) (hlen : u.length ≤ membersMax) (hm : m.length ≤ membersMax) :
    newMembers (some (newMembers (some m) u true)) u false = m ↔ TidyMembers u m := by
  have hnames : ∀ t ∈ names m, t ≠ [] ∧ ',' ∉ t := fun t => mem_names
  have hfit := length_memberList_names m
  rw [leave_eq u (length_newMembers_le ..), join_eq u hm, TidyMembers]
  by_cases hmem : u ∈ names m
  · -- the name is lost, and the list shorter
    have hlt := length_memberList_filter_lt (p := (· ≠ u)) hmem hu.1 (by simp)
    rw [if_pos hmem, names_memberList hnames]
    constructor
    · intro h
      rw [h] at hlt
      omega
    · exact fun h => absurd hmem h.2.1
  · have hkeep : (names m).filter (· ≠ u) = names m :=
      List.filter_eq_self.mpr fun t ht => by simpa using ne_of_mem_of_not_mem ht hmem
    rw [if_neg hmem]
    generalize hm' : addMember (memberList (names m)) u = m'
    have hj : Joined u (names m) m' := hm' ▸ joined_addMember hu.2 hlen hnames
    cases hj with
    | fits h =>
      rw [names_concat hnames hu, List.filter_append, hkeep, List.filter_cons_of_neg (by simp), List.filter_nil,
        List.append_nil]
      constructor
      · intro heq
        rw [heq] at h
        exact ⟨heq.symm, hmem, h.imp_right Or.inl⟩
      · exact fun h => h.1.symm
    | full hne h hnames' =>
      rw [hnames', hkeep]
      constructor
      · intro heq
        rw [heq] at h
        exact ⟨heq.symm, hmem, Or.inr (Or.inr ⟨h, hm⟩)⟩
      · exact fun h => h.1.symm
    | @cut t hne h h' ht htok hfull =>
      have hkeep' : (names m ++ [t]).filter (· ≠ u) = names m ++ [t] := by
        rw [List.filter_append, hkeep, List.filter_cons_of_pos (by simpa using ht), List.filter_nil]
      rw [names_concat hnames htok, hkeep']
      constructor
      · intro heq
        have hback := names_concat hnames htok
        rw [heq] at hback
        simp at hback
      · rintro ⟨heq, -, hnil | hroom | hfull'⟩
        · exact absurd hnil hne
        · rw [heq] at hroom
          omega
        · rw [heq] at hfull'
          omega

/-! ### One line -/

/-- A text without the characters that end a field, a line or a string. -/
structure Plain (t : Text) : Prop where
  /-- It is within a field. -/
  colon : ':' ∉ t
  /-- It is within a line. -/
  newline : '\n' ∉ t
  /-- It is within a string. -/
  nul : '\x00' ∉ t

theorem Plain.cstr_append (h : Plain t) (s : Text) : cstr (t ++ s) = t ++ cstr s :=
  List.takeWhile_append_of_pos fun c hc => by simpa using ne_of_mem_of_not_mem hc h.nul

theorem Plain.chomp_append (h : Plain t) (s : Text) : chomp (t ++ s) = t ++ chomp s :=
  List.takeWhile_append_of_pos fun c hc => by simpa using ne_of_mem_of_not_mem hc h.newline

theorem cstr_colon (s : Text) : cstr (':' :: s) = ':' :: cstr s := List.takeWhile_cons_of_pos (by decide)

theorem chomp_colon (s : Text) : chomp (':' :: s) = ':' :: chomp s := List.takeWhile_cons_of_pos (by decide)

/-- A token of a line is plain. -/
theorem plain_of_mem_strtok {l : Text} (h : t ∈ strtok ':' (chomp (cstr l))) : Plain t where
  colon := (mem_strtok h).2
  newline hc := newline_notMem_chomp _ (mem_of_mem_strtok h hc)
  nul hc := by simpa using List.mem_takeWhile_imp ((List.takeWhile_prefix _).subset (mem_of_mem_strtok h hc))

/-- The first token of a line that starts with a field. -/
theorem strtok_field (hne : t ≠ []) (h : Plain t) (s : Text) :
    strtok ':' (chomp (cstr (t ++ ':' :: s))) = t :: strtok ':' (chomp (cstr s)) := by
  rw [h.cstr_append, h.chomp_append, cstr_colon, chomp_colon, strtok,
    List.splitOn_append_cons_self_of_not_mem h.colon, List.filter_cons_of_pos (by simpa using hne)]
  rfl

theorem strtok_last (h : Plain t) : strtok ':' (chomp (cstr t)) = if t = [] then [] else [t] := by
  have ht := h.chomp_append []
  have hc := h.cstr_append []
  simp only [List.append_nil, cstr, chomp, List.takeWhile_nil] at ht hc
  rw [cstr, hc, chomp, ht, strtok, List.splitOn_eq_singleton h.colon]
  by_cases hne : t = [] <;> simp [hne]

variable {g : GroupLine} {l groupName : Text} {add : Bool}

/-- A line with three fields that are not empty has these fields. -/
theorem splitGroupLine_fields {name passwd gid : Text} (h : ∀ t ∈ [name, passwd, gid], t ≠ [] ∧ Plain t) (hm : Plain m) :
    splitGroupLine (cstr (name ++ ':' :: (passwd ++ ':' :: (gid ++ ':' :: m)))) =
      some ⟨name, passwd, gid, if m = [] then none else some m⟩ := by
  have hname := h name (by simp)
  have hpasswd := h passwd (by simp)
  have hgid := h gid (by simp)
  rw [splitGroupLine, strtok_field hname.1 hname.2, strtok_field hpasswd.1 hpasswd.2, strtok_field hgid.1 hgid.2,
    strtok_last hm]
  by_cases hne : m = [] <;> simp [hne]

/-- What is written reads back. -/
theorem splitGroupLine_text (h : splitGroupLine (cstr l) = some g) (hm : Plain m) :
    splitGroupLine (cstr (g.text m)) = some { g with members := if m = [] then none else some m } := by
  obtain ⟨h1, h2, h3, -⟩ := splitGroupLine_mem h
  refine splitGroupLine_fields ?_ hm
  simp only [List.forall_mem_cons, List.not_mem_nil, IsEmpty.forall_iff, implies_true, and_true]
  exact ⟨⟨(mem_strtok h1).1, plain_of_mem_strtok h1⟩, ⟨(mem_strtok h2).1, plain_of_mem_strtok h2⟩,
    (mem_strtok h3).1, plain_of_mem_strtok h3⟩

theorem newline_notMem_text (h : splitGroupLine (cstr l) = some g) (hm : Plain m) : '\n' ∉ g.text m := by
  obtain ⟨h1, h2, h3, -⟩ := splitGroupLine_mem h
  simp [GroupLine.text, (plain_of_mem_strtok h1).newline, (plain_of_mem_strtok h2).newline,
    (plain_of_mem_strtok h3).newline, hm.newline]

theorem notMem_newMembers {c : Char} (hc : c ≠ ',') (hm : c ∉ m) (hu : c ∉ u) : c ∉ newMembers (some m) u add := by
  intro h
  rcases mem_newMembers h with ⟨ms, hms, h⟩ | h | h
  · cases hms
    exact hm h
  · exact hc h
  · exact hu h

/-- The members that are written are plain if those read are. -/
theorem plain_newMembers (hm : Plain m) (hu : Plain u) (add : Bool) : Plain (newMembers (some m) u add) where
  colon := notMem_newMembers (by decide) hm.colon hu.colon
  newline := notMem_newMembers (by decide) hm.newline hu.newline
  nul := notMem_newMembers (by decide) hm.nul hu.nul

theorem plain_members (h : splitGroupLine (cstr l) = some g) : Plain (g.members.getD []) := by
  obtain ⟨-, -, -, h4⟩ := splitGroupLine_mem h
  cases hm : g.members with
  | none => exact ⟨List.not_mem_nil, List.not_mem_nil, List.not_mem_nil⟩
  | some ms => exact plain_of_mem_strtok (h4 ms hm)

/-- The name of a line that starts with one. -/
theorem name_of_split (hne : groupName ≠ []) (hg : Plain groupName) (hpre : groupName ++ [':'] <+: l)
    (h : splitGroupLine (cstr l) = some g) : g.name = groupName := by
  obtain ⟨s, rfl⟩ := hpre
  have htok := strtok_field hne hg s
  rw [List.append_assoc, List.singleton_append, splitGroupLine, htok] at h
  split at h
  · next name _ _ _ heq =>
    cases h
    exact (List.cons.inj heq).1.symm
  · cases h

/-- The transform writes a line of the group anew. -/
theorem memberLine_of_split (hpre : groupName ++ [':'] <+: l) (h : splitGroupLine (cstr l) = some g) (hu : Plain u) :
    memberLine groupName u add l = g.text (newMembers g.members u add) := by
  have hnl := newline_notMem_text h (plain_newMembers (plain_members h) hu add)
  rw [newMembers_getD] at hnl
  have hline : groupMemberLine groupName u add l = g.text (newMembers g.members u add) ++ '\n' :: [] := by
    rw [groupMemberLine, if_pos (List.isPrefixOf_iff_prefix.mpr hpre), h]
    simp [GroupLine.text]
  rw [memberLine, hline, chomp_append_newline hnl]

/-- Other lines stay. -/
theorem memberLine_of_not_starts (hl : '\n' ∉ l) (hpre : ¬ groupName ++ [':'] <+: l) : memberLine groupName u add l = l := by
  rw [← List.isPrefixOf_iff_prefix] at hpre
  rw [memberLine, groupMemberLine, if_neg hpre, chomp_of_notMem hl]

theorem memberLine_of_not_split (hl : '\n' ∉ l) (h : splitGroupLine (cstr l) = none) :
    memberLine groupName u add l = l := by
  by_cases hpre : groupName ++ [':'] <+: l
  · rw [memberLine, groupMemberLine, if_pos (List.isPrefixOf_iff_prefix.mpr hpre), h]
    exact chomp_of_notMem hl
  · exact memberLine_of_not_starts hl hpre

theorem splitGroupLine_chomp (l : Text) : splitGroupLine (cstr (chomp l)) = splitGroupLine (cstr l) := by
  have h : chomp (cstr (chomp l)) = chomp (cstr l) := by
    simp only [chomp, cstr, List.takeWhile_takeWhile]
    congr 1
    funext c
    by_cases hc : c = '\n' <;> simp [hc]
  rw [splitGroupLine, splitGroupLine, h]

theorem chomp_groupMemberLine (hg : '\n' ∉ groupName) (l : Text) :
    chomp (groupMemberLine groupName u add l) = memberLine groupName u add (chomp l) := by
  have hpre : (groupName ++ [':']).isPrefixOf (chomp l) = (groupName ++ [':']).isPrefixOf l := by
    rw [Bool.eq_iff_iff, List.isPrefixOf_iff_prefix, List.isPrefixOf_iff_prefix]
    exact prefix_chomp_iff (by simp [hg])
  have hchomp : chomp (chomp l) = chomp l := chomp_of_notMem (newline_notMem_chomp l)
  rw [memberLine, groupMemberLine, groupMemberLine, hpre, splitGroupLine_chomp]
  split
  · split
    · exact hchomp.symm
    · rfl
  · exact hchomp.symm

/-- A line that starts with one name starts with another one only if they are the same. -/
theorem starts_iff {v : Text} (hv : ':' ∉ v) (hg : ':' ∉ groupName) (hpre : groupName ++ [':'] <+: l) :
    v ++ [':'] <+: l ↔ v = groupName := by
  constructor
  · exact fun h => eq_of_common_start hv hg h hpre
  · rintro rfl
    exact hpre

theorem name_prefix_text (g : GroupLine) (m : Text) : g.name ++ [':'] <+: g.text m :=
  ⟨g.passwd ++ ':' :: (g.gid ++ ':' :: m), by simp [GroupLine.text]⟩

/-- Whom a line is about does not change. -/
theorem starts_memberLine {v : Text} (hv : ':' ∉ v) (hne : groupName ≠ []) (hg : Plain groupName) (hu : Plain u)
    (hl : '\n' ∉ l) : v ++ [':'] <+: memberLine groupName u add l ↔ v ++ [':'] <+: l := by
  by_cases hpre : groupName ++ [':'] <+: l
  · cases hs : splitGroupLine (cstr l) with
    | none => rw [memberLine_of_not_split hl hs]
    | some g =>
      have hname := name_of_split hne hg hpre hs
      have hpre' := name_prefix_text g (newMembers g.members u add)
      rw [hname] at hpre'
      rw [memberLine_of_split hpre hs hu, starts_iff hv hg.colon hpre', starts_iff hv hg.colon hpre]
  · rw [memberLine_of_not_starts hl hpre]

/-! ### Any number of groups -/

variable {groups : List Text}

theorem memberLines_nil (u : Text) (add : Bool) : memberLines [] u add = id := rfl

theorem memberLines_cons (g : Text) (groups : List Text) (u : Text) (add : Bool) :
    memberLines (g :: groups) u add = memberLines groups u add ∘ memberLine g u add := rfl

theorem newline_notMem_memberLines (hl : '\n' ∉ l) : '\n' ∉ memberLines groups u add l := by
  induction groups generalizing l with
  | nil => exact hl
  | cons g groups ih => exact ih (newline_notMem_chomp _)

theorem starts_memberLines {v : Text} (hv : ':' ∉ v) (hg : ∀ g ∈ groups, g ≠ [] ∧ Plain g) (hu : Plain u)
    (hl : '\n' ∉ l) : v ++ [':'] <+: memberLines groups u add l ↔ v ++ [':'] <+: l := by
  induction groups generalizing l with
  | nil => exact Iff.rfl
  | cons g groups ih =>
    obtain ⟨hne, hplain⟩ := hg g List.mem_cons_self
    have hrest := ih (fun g hg' => hg g (List.mem_cons_of_mem _ hg'))
      (newline_notMem_chomp (groupMemberLine g u add l))
    exact hrest.trans (starts_memberLine hv hne hplain hu hl)

theorem memberLines_of_not_starts (hl : '\n' ∉ l) (h : ∀ g ∈ groups, ¬ g ++ [':'] <+: l) :
    memberLines groups u add l = l := by
  induction groups with
  | nil => rfl
  | cons g groups ih =>
    rw [memberLines, List.foldl_cons, memberLine_of_not_starts hl (h g List.mem_cons_self)]
    exact ih fun g hg => h g (List.mem_cons_of_mem _ hg)

theorem memberLines_of_not_split (hl : '\n' ∉ l) (h : splitGroupLine (cstr l) = none) :
    memberLines groups u add l = l := by
  induction groups with
  | nil => rfl
  | cons g groups ih => rwa [memberLines, List.foldl_cons, memberLine_of_not_split hl h]

/-- Joining or leaving once more changes nothing. -/
theorem newMembers_again (hu : u ≠ [] ∧ ',' ∉ u) (hlen : u.length ≤ membersMax) (hm : m.length ≤ membersMax) :
    newMembers (some (newMembers (some m) u add)) u add = newMembers (some m) u add := by
  cases add with
  | true => exact join_join hu hlen hm
  | false => exact leave_leave u hm

/-- A line written by the transform gets the members it gets from one rewrite. -/
theorem memberLines_text (add : Bool) (hgroups : ∀ g ∈ groups, g ≠ [] ∧ Plain g) (hu : u ≠ [] ∧ ',' ∉ u) (hplain : Plain u)
    (hlen : u.length ≤ membersMax) (h : splitGroupLine (cstr l) = some g) (hp : Plain m) (hm : m.length ≤ membersMax) :
    memberLines groups u add (g.text m) = g.text (if g.name ∈ groups then newMembers (some m) u add else m) := by
  induction groups generalizing m with
  | nil => simp [memberLines]
  | cons g' groups ih =>
    have hrest := fun x hx => hgroups x (List.mem_cons_of_mem g' hx)
    obtain ⟨-, hg'⟩ := hgroups g' List.mem_cons_self
    have hname := plain_of_mem_strtok (splitGroupLine_mem h).1
    rw [memberLines, List.foldl_cons]
    by_cases heq : g' = g.name
    · subst heq
      have hwritten : memberLine g.name u add (g.text m) = g.text (newMembers (some m) u add) := by
        rw [memberLine_of_split (name_prefix_text g m) (splitGroupLine_text h hp) hplain]
        by_cases hne : m = []
        · rw [if_pos hne, hne]
          rfl
        · rw [if_neg hne]
          rfl
      have hfold := ih hrest (plain_newMembers hp hplain add) (length_newMembers_le (some m) u add)
      rw [memberLines] at hfold
      rw [hwritten, hfold, newMembers_again hu hlen hm, ite_self, if_pos List.mem_cons_self]
    · have hpre : ¬ g' ++ [':'] <+: g.text m := fun hpre =>
        heq (eq_of_common_start hg'.colon hname.colon hpre (name_prefix_text g m))
      have hfold := ih hrest hp hm
      rw [memberLines] at hfold
      rw [memberLine_of_not_starts (newline_notMem_text h hp) hpre, hfold]
      simp only [List.mem_cons, Ne.symm heq, false_or]

/-- The line of one of the groups is written by the transform, and if its old members fit, with
the members it gets from one rewrite. -/
theorem memberLines_of_split (add : Bool) (hgroups : ∀ g ∈ groups, g ≠ [] ∧ Plain g) (hu : u ≠ [] ∧ ',' ∉ u) (hplain : Plain u)
    (hlen : u.length ≤ membersMax) (h : splitGroupLine (cstr l) = some g) (hl : '\n' ∉ l)
    (hpre : g.name ++ [':'] <+: l) (hmem : g.name ∈ groups) :
    ∃ m', Plain m' ∧ m'.length ≤ membersMax ∧ memberLines groups u add l = g.text m' ∧
      ((g.members.getD []).length ≤ membersMax → m' = newMembers (some (g.members.getD [])) u add) := by
  induction groups with
  | nil => cases hmem
  | cons g' groups ih =>
    have hrest := fun x hx => hgroups x (List.mem_cons_of_mem g' hx)
    obtain ⟨-, hg'⟩ := hgroups g' List.mem_cons_self
    have hname := plain_of_mem_strtok (splitGroupLine_mem h).1
    by_cases heq : g' = g.name
    · subst heq
      have hp : Plain (newMembers (some (g.members.getD [])) u add) := plain_newMembers (plain_members h) hplain add
      have hm := length_newMembers_le (some (g.members.getD [])) u add
      have hfold := memberLines_text add hrest hu hplain hlen h hp hm
      rw [memberLines] at hfold
      rw [memberLines, List.foldl_cons, memberLine_of_split hpre h hplain, ← newMembers_getD, hfold]
      refine ⟨_, ?_, ?_, rfl, ?_⟩
      · split
        · exact plain_newMembers hp hplain add
        · exact hp
      · split
        · exact length_newMembers_le ..
        · exact hm
      · intro hold
        rw [newMembers_again hu hlen hold, ite_self]
    · have hpre' : ¬ g' ++ [':'] <+: l := fun h' => heq (eq_of_common_start hg'.colon hname.colon h' hpre)
      rw [memberLines, List.foldl_cons, memberLine_of_not_starts hl hpre']
      exact ih hrest ((List.mem_cons.mp hmem).resolve_left (Ne.symm heq))

theorem TidyMembers.length_le (h : TidyMembers u m) : m.length ≤ membersMax := by
  obtain ⟨hlist, -, hnil | hroom | hfull⟩ := h
  · rw [hlist, hnil]
    exact Nat.zero_le _
  · omega
  · exact hfull.2

/-- **A line comes back** from joining groups and leaving them exactly when it is tidy or of none of them. -/
theorem memberLines_leave_join_iff (hgroups : ∀ g ∈ groups, g ≠ [] ∧ Plain g) (hu : u ≠ [] ∧ ',' ∉ u)
    (hplain : Plain u) (hlen : u.length ≤ membersMax) (hl : '\n' ∉ l) :
    memberLines groups u false (memberLines groups u true l) = l ↔ ∀ g ∈ groups, g ++ [':'] <+: l → Tidy u l := by
  by_cases hpre : ∃ g ∈ groups, g ++ [':'] <+: l
  · obtain ⟨groupName, hmem, hpre⟩ := hpre
    obtain ⟨hne, hg⟩ := hgroups groupName hmem
    have htidy : (∀ g ∈ groups, g ++ [':'] <+: l → Tidy u l) ↔ Tidy u l :=
      ⟨fun h => h groupName hmem hpre, fun h _ _ _ => h⟩
    rw [htidy]
    cases hs : splitGroupLine (cstr l) with
    | none =>
      rw [memberLines_of_not_split hl hs, memberLines_of_not_split hl hs]
      exact iff_of_true rfl fun g hg => by rw [hs] at hg; cases hg
    | some g =>
      have hname := name_of_split hne hg hpre hs
      subst hname
      obtain ⟨m₁, hp₁, hm₁, hline, hjoin⟩ := memberLines_of_split true hgroups hu hplain hlen hs hl hpre hmem
      rw [hline, memberLines_text false hgroups hu hplain hlen hs hp₁ hm₁, if_pos hmem]
      have hp₂ := plain_newMembers hp₁ hplain false
      constructor
      · intro heq
        have hback := splitGroupLine_text hs hp₂
        rw [heq, hs, Option.some.injEq] at hback
        have hmembers : g.members.getD [] = newMembers (some m₁) u false := by
          rw [hback]
          by_cases hnil : newMembers (some m₁) u false = [] <;> simp [hnil]
        have hlen' := length_newMembers_le (some m₁) u false
        rw [← hmembers] at heq hlen'
        rw [hjoin hlen'] at hmembers
        intro g' hg'
        rw [hs] at hg'
        cases hg'
        exact ⟨heq.symm, (leave_join_iff hu hlen hlen').mp hmembers.symm⟩
      · intro h
        obtain ⟨heq, hmembers⟩ := h g hs
        have hback := (leave_join_iff hu hlen hmembers.length_le).mpr hmembers
        rw [hjoin hmembers.length_le, hback]
        exact heq.symm
  · push Not at hpre
    rw [memberLines_of_not_starts hl hpre, memberLines_of_not_starts hl hpre]
    exact iff_of_true rfl fun g hg h => absurd h (hpre g hg)

/-- A rewrite of the group file rewrites what it says line by line. -/
theorem lines_groupMember (f : EtcFiles) (shim : ℕ × ℕ) (hg : '\n' ∉ groupName) (hu : '\n' ∉ u) (add : Bool) :
    (f.rewrite shim Faults.none (groupMemberTransform groupName u add) .group).2.lines .group =
      (f.lines .group).map (memberLine groupName u add) := by
  have hfn : groupMemberTransform groupName u add ((f .group).map (·.contents)) =
      some ((getlines (f.contents .group)).map (groupMemberLine groupName u add)).flatten := by
    unfold EtcFiles.contents
    cases f .group <;> rfl
  rw [EtcFiles.lines_eq, EtcFiles.lines_eq]
  simp only [EtcFiles.rewrite, atomicRewriteFile_none hfn, contents_update_self]
  rw [fileLines_map (groupMemberLine_terminated hu), fileLines, List.map_map]
  exact List.map_congr_left fun l _ => chomp_groupMemberLine hg l

end OpenshiftConsole.NodeTerminal
