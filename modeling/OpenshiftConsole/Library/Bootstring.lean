import Mathlib.Data.List.Basic
import Mathlib.Data.List.Induction
import Mathlib.Data.List.InsertIdx
import Mathlib.Tactic.Linarith
import Mathlib.Tactic.Ring

/-!
# Bootstrings

A bootstring tells a list of numbers by those below a bound, and by where the others are put between them, in
ascending order. Each of these is told by how far it is from the one before, counting the places of a list of the
length reached for each number passed over (`Place.insert`); the distances are integers of variable length, whose
last digit is the first one below its threshold (`digits`, `readNumber`).

Every list has such distances (`insertAll_deltas`), and no other distances give it (`insertAll_injective`). The
digits of a distance are read back (`readNumber_digits`), and what is read are no other digits
(`digits_of_readNumber`). So it is for a list of distances, with thresholds that adapt to them in any way
(`parse_write`, `write_of_parse`).
-/

namespace OpenshiftConsole.Library.Bootstring

/-! ### Integers of variable length -/

/-- What each digit is compared with: at least one, and below the base. -/
structure Thresholds (b : ℕ) where
  t : ℕ → ℕ
  pos : ∀ j, 0 < t j
  lt : ∀ j, t j < b

variable {b : ℕ}

/-- The thresholds behind the first. -/
def Thresholds.tail (t : Thresholds b) : Thresholds b :=
  ⟨fun j => t.t (j + 1), fun j => t.pos (j + 1), fun j => t.lt (j + 1)⟩

/-- The digits of a number, the least one first. -/
def digits (t : Thresholds b) (q : ℕ) : List ℕ :=
  if q < t.t 0 then [q]
  else (t.t 0 + (q - t.t 0) % (b - t.t 0)) :: digits t.tail ((q - t.t 0) / (b - t.t 0))
termination_by q
decreasing_by
  have hpos := t.pos 0
  exact Nat.lt_of_le_of_lt (Nat.div_le_self _ _) (by omega)

/-- The number that the digits begin with, and the digits behind it. -/
def readNumber (t : Thresholds b) : List ℕ → Option (ℕ × List ℕ)
  | [] => none
  | d :: ds => if d < t.t 0 then some (d, ds) else (readNumber t.tail ds).map fun r => (d + r.1 * (b - t.t 0), r.2)

variable {t : Thresholds b} {q : ℕ} {ds rest : List ℕ}

theorem digits_ne_nil (t : Thresholds b) (q : ℕ) : digits t q ≠ [] := by
  rw [digits]
  split <;> simp

theorem digits_lt (t : Thresholds b) (q : ℕ) : ∀ d ∈ digits t q, d < b := by
  induction q using Nat.strongRecOn generalizing t with
  | ind q ih =>
    have hpos := t.pos 0
    have hlt := t.lt 0
    rw [digits]
    split
    · rintro d hd
      rw [List.mem_singleton.mp hd]
      omega
    · intro d hd
      rcases List.mem_cons.mp hd with rfl | hd
      · have hmod : (q - t.t 0) % (b - t.t 0) < b - t.t 0 := Nat.mod_lt _ (by omega)
        omega
      · exact ih _ (Nat.lt_of_le_of_lt (Nat.div_le_self _ _) (by omega)) _ d hd

/-- The digits of a number are read back, whatever stands behind them. -/
theorem readNumber_digits (t : Thresholds b) (q : ℕ) (rest : List ℕ) :
    readNumber t (digits t q ++ rest) = some (q, rest) := by
  induction q using Nat.strongRecOn generalizing t with
  | ind q ih =>
    have hpos := t.pos 0
    rw [digits]
    split
    · rename_i hq
      simp [readNumber, hq]
    · rename_i hq
      have hdiv := Nat.mod_add_div' (q - t.t 0) (b - t.t 0)
      rw [List.cons_append, readNumber, if_neg (by omega),
        ih _ (Nat.lt_of_le_of_lt (Nat.div_le_self _ _) (by omega)) t.tail]
      simp only [Option.map_some]
      rw [Nat.add_assoc, hdiv, Nat.add_sub_cancel' (Nat.not_lt.mp hq)]

/-- What is read has been its digits. -/
theorem digits_of_readNumber (hds : ∀ d ∈ ds, d < b) (h : readNumber t ds = some (q, rest)) :
    ds = digits t q ++ rest := by
  induction ds generalizing t q with
  | nil => cases h
  | cons d ds ih =>
    obtain ⟨hd, hds⟩ := List.forall_mem_cons.mp hds
    rw [readNumber] at h
    split at h
    · rename_i hlt
      obtain ⟨rfl, rfl⟩ := Prod.mk.inj (Option.some.inj h)
      rw [digits, if_pos hlt]
      rfl
    · rename_i hge
      obtain ⟨⟨q', rest'⟩, hr, he⟩ := Option.map_eq_some_iff.mp h
      obtain ⟨rfl, rfl⟩ := Prod.mk.inj he
      have hwidth : 0 < b - t.t 0 := by have := t.lt 0; omega
      have hsub : d + q' * (b - t.t 0) - t.t 0 = (d - t.t 0) + q' * (b - t.t 0) := by omega
      have hsmall : d - t.t 0 < b - t.t 0 := by omega
      rw [digits, if_neg (by omega), hsub, Nat.add_mul_mod_self_right, Nat.mod_eq_of_lt hsmall,
        Nat.add_mul_div_right _ _ hwidth, Nat.div_eq_of_lt hsmall, Nat.zero_add, Nat.add_sub_cancel' (by omega),
        ih hds hr, List.cons_append]

/-! ### Where the numbers are put -/

/-- The list so far, the number that was put last, and the place behind it. -/
structure Place where
  out : List ℕ
  n : ℕ
  i : ℕ
  deriving DecidableEq

/-- The next number is put at the place that is so far away. -/
def Place.insert (s : Place) (δ : ℕ) : Place :=
  let len := s.out.length + 1
  let n := s.n + (s.i + δ) / len
  let i := (s.i + δ) % len
  ⟨s.out.insertIdx i n, n, i + 1⟩

def Place.insertAll (s : Place) (δs : List ℕ) : Place := δs.foldl Place.insert s

variable {s s' : Place} {δ : ℕ} {δs δs' : List ℕ}

@[simp] theorem insertAll_nil (s : Place) : s.insertAll [] = s := rfl

theorem insertAll_cons (s : Place) (δ : ℕ) (δs : List ℕ) : s.insertAll (δ :: δs) = (s.insert δ).insertAll δs := rfl

theorem insertAll_append (s : Place) (δs δs' : List ℕ) : s.insertAll (δs ++ δs') = (s.insertAll δs).insertAll δs' :=
  List.foldl_append

theorem length_insert (s : Place) (δ : ℕ) : (s.insert δ).out.length = s.out.length + 1 :=
  List.length_insertIdx_of_le_length (Nat.le_of_lt_succ (Nat.mod_lt _ (Nat.succ_pos _))) _

theorem length_insertAll (s : Place) (δs : List ℕ) : (s.insertAll δs).out.length = s.out.length + δs.length := by
  induction δs generalizing s with
  | nil => rfl
  | cons δ δs ih =>
    refine (ih (s.insert δ)).trans ?_
    rw [length_insert, List.length_cons]
    omega

theorem insertIdx_append (l r : List ℕ) (n : ℕ) : (l ++ r).insertIdx l.length n = l ++ n :: r := by
  induction l with
  | nil => rfl
  | cons m l ih => rw [List.cons_append, List.length_cons, List.insertIdx_succ_cons, ih, List.cons_append]

/-- A count of `δ` comes to the place `p` of a list for the number `n`. -/
def Place.Counts (s : Place) (n δ p : ℕ) : Prop := s.n ≤ n ∧ s.i + δ = (n - s.n) * (s.out.length + 1) + p

/-- A number is put where the count comes to. -/
theorem insert_eq {n : ℕ} {l r : List ℕ} (hout : s.out = l ++ r) (h : s.Counts n δ l.length) :
    s.insert δ = ⟨l ++ n :: r, n, l.length + 1⟩ := by
  obtain ⟨hn, h⟩ := h
  have hlen : l.length < s.out.length + 1 := by
    rw [hout, List.length_append]
    omega
  have hdiv : (s.i + δ) / (s.out.length + 1) = n - s.n := by
    rw [h, Nat.add_comm, Nat.add_mul_div_right _ _ (Nat.succ_pos _), Nat.div_eq_of_lt hlen, Nat.zero_add]
  have hmod : (s.i + δ) % (s.out.length + 1) = l.length := by
    rw [h, Nat.add_comm, Nat.add_mul_mod_self_right, Nat.mod_eq_of_lt hlen]
  simp only [Place.insert, hdiv, hmod, Nat.add_sub_cancel' hn]
  rw [hout, insertIdx_append]

/-! ### The distances of a list -/

/-- One pass over the list, for the number `n`: the distances of its occurrences, and what has been counted since the
last one. -/
def scan (n : ℕ) : List ℕ → ℕ → List ℕ × ℕ
  | [], δ => ([], δ)
  | c :: cs, δ =>
    if c < n then scan n cs (δ + 1)
    else if c = n then (δ :: (scan n cs 0).1, (scan n cs 0).2)
    else scan n cs δ

/-- The passes for the numbers from `n` on, when `h` numbers are there and `δ` has been counted. -/
def deltas (text : List ℕ) (n h δ : ℕ) : List ℕ :=
  match _hm : (text.filter (n ≤ ·)).min? with
  | none => []
  | some m =>
    (scan m text (δ + (m - n) * (h + 1))).1 ++
      deltas text (m + 1) (h + (scan m text (δ + (m - n) * (h + 1))).1.length)
        ((scan m text (δ + (m - n) * (h + 1))).2 + 1)
termination_by (text.filter (n ≤ ·)).length
decreasing_by
  obtain ⟨hmem, -⟩ := List.min?_eq_some_iff.mp _hm
  have hsub : text.filter (m + 1 ≤ ·) = (text.filter (n ≤ ·)).filter (m + 1 ≤ ·) := by
    have hn : n ≤ m := by simpa using List.of_mem_filter hmem
    rw [List.filter_filter]
    refine List.filter_congr fun c _ => ?_
    simp only [← Bool.decide_and, decide_eq_decide]
    omega
  rw [hsub]
  exact List.length_filter_lt_length_iff_exists.mpr ⟨m, hmem, by simp⟩

/-- One pass puts the occurrences of `n` where they belong. -/
theorem insertAll_scan {n : ℕ} {done todo : List ℕ} (hout : s.out = done.filter (· ≤ n) ++ todo.filter (· < n))
    (h : s.Counts n δ (done.filter (· ≤ n)).length) :
    (s.insertAll (scan n todo δ).1).out = (done ++ todo).filter (· ≤ n) ∧
      (s.insertAll (scan n todo δ).1).Counts n (scan n todo δ).2 (s.insertAll (scan n todo δ).1).out.length := by
  induction todo generalizing done s δ with
  | nil =>
    rw [List.filter_nil, List.append_nil] at hout
    rw [← hout] at h
    rw [List.append_nil]
    exact ⟨hout, h⟩
  | cons c todo ih =>
    rw [List.append_cons]
    rcases Nat.lt_trichotomy c n with hlt | rfl | hgt
    · -- a smaller one is there already
      rw [scan, if_pos hlt]
      refine ih ?_ ⟨h.1, ?_⟩
      · rw [hout]
        simp [hlt, hlt.le]
      · rw [← Nat.add_assoc, h.2]
        simp [hlt.le, Nat.add_assoc]
    · rw [scan, if_neg (Nat.lt_irrefl _), if_pos rfl]
      have hout' : s.out = done.filter (· ≤ c) ++ todo.filter (· < c) := by simpa using hout
      have hins := insert_eq hout' h
      rw [insertAll_cons]
      refine ih ?_ ⟨?_, ?_⟩
      · rw [hins]
        simp
      · rw [hins]
      · rw [hins]
        simp
    · -- a greater one comes later
      rw [scan, if_neg (Nat.lt_asymm hgt), if_neg hgt.ne']
      refine ih ?_ ⟨h.1, ?_⟩
      · rw [hout]
        simp [hgt.not_gt, hgt.not_ge]
      · rw [h.2]
        simp [hgt.not_ge]

/-- The distances of a list put its numbers where they belong. -/
theorem insertAll_deltas {text : List ℕ} {n h : ℕ} (hout : s.out = text.filter (· < n)) (hlen : s.out.length = h)
    (hs : s.Counts n δ 0) : (s.insertAll (deltas text n h δ)).out = text := by
  induction n, h, δ using deltas.induct text generalizing s with
  | case1 n h δ hm =>
    rw [deltas, hm]
    have hall : text.filter (n ≤ ·) = [] := by simpa using hm
    rw [insertAll_nil, hout, List.filter_eq_self]
    intro c hc
    have hno := List.filter_eq_nil_iff.mp hall c hc
    simpa using hno
  | case2 n h δ m hm ih =>
    obtain ⟨hmem, hle⟩ := List.min?_eq_some_iff.mp hm
    have hnm : n ≤ m := by simpa using List.of_mem_filter hmem
    -- between `n` and `m` there is nothing
    have hbelow : text.filter (· < n) = text.filter (· < m) := by
      refine List.filter_congr fun c hc => ?_
      have hcm : n ≤ c → m ≤ c := fun hn => hle c (List.mem_filter.mpr ⟨hc, by simpa using hn⟩)
      simp only [decide_eq_decide]
      omega
    have hstart : s.Counts m (δ + (m - n) * (h + 1)) (([] : List ℕ).filter (· ≤ m)).length := by
      refine ⟨hs.1.trans hnm, ?_⟩
      have hsplit : m - s.n = (n - s.n) + (m - n) := by have := hs.1; omega
      rw [← Nat.add_assoc, hs.2, hsplit, Nat.add_mul, hlen]
      rfl
    have hbegin : s.out = ([] : List ℕ).filter (· ≤ m) ++ text.filter (· < m) := by
      rw [hout, hbelow]
      rfl
    obtain ⟨hout', hcounts⟩ := insertAll_scan hbegin hstart
    rw [deltas, hm]
    dsimp only
    rw [insertAll_append]
    refine ih ?_ ?_ ⟨hcounts.1.trans (Nat.le_succ m), ?_⟩
    · rw [hout', List.nil_append]
      exact List.filter_congr fun c _ => by simp [Nat.lt_succ_iff]
    · rw [length_insertAll, hlen]
    · rw [Nat.succ_sub hcounts.1, ← Nat.add_assoc, hcounts.2, Nat.succ_mul]
      omega

/-! ### No other distances -/

/-- The numbers are at most the last one, and behind its place they are below it. -/
structure Place.Ascends (s : Place) : Prop where
  le : ∀ c ∈ s.out, c ≤ s.n
  lt : ∀ c ∈ s.out.drop s.i, c < s.n

/-- A number is put between those that are at most as great, and those behind are less. -/
theorem Place.Ascends.insert (hs : s.Ascends) (δ : ℕ) :
    ∃ l r, s.out = l ++ r ∧ s.insert δ = ⟨l ++ (s.insert δ).n :: r, (s.insert δ).n, l.length + 1⟩ ∧
      (∀ c ∈ l, c ≤ (s.insert δ).n) ∧ (∀ c ∈ r, c < (s.insert δ).n) ∧ s.Counts (s.insert δ).n δ l.length := by
  have hplace : (s.i + δ) % (s.out.length + 1) ≤ s.out.length := Nat.le_of_lt_succ (Nat.mod_lt _ (Nat.succ_pos _))
  have hle : ∀ c ∈ s.out, c ≤ (s.insert δ).n := fun c hc => (hs.le c hc).trans (Nat.le_add_right _ _)
  have hl : (s.out.take ((s.i + δ) % (s.out.length + 1))).length = (s.i + δ) % (s.out.length + 1) :=
    List.length_take_of_le hplace
  have hcounts : s.Counts (s.insert δ).n δ ((s.i + δ) % (s.out.length + 1)) := by
    refine ⟨Nat.le_add_right _ _, ?_⟩
    rw [show (s.insert δ).n - s.n = (s.i + δ) / (s.out.length + 1) from Nat.add_sub_cancel_left _ _,
      Nat.div_add_mod']
  refine ⟨s.out.take ((s.i + δ) % (s.out.length + 1)), s.out.drop ((s.i + δ) % (s.out.length + 1)),
    (List.take_append_drop _ _).symm, ?_, fun c hc => hle c (List.mem_of_mem_take hc), ?_, ?_⟩
  · exact insert_eq (List.take_append_drop _ _).symm (hl.symm ▸ hcounts)
  · intro c hc
    rcases Nat.eq_zero_or_pos ((s.i + δ) / (s.out.length + 1)) with hzero | hpos
    · -- the same number once more, at a place behind
      have hsmall : s.i + δ < s.out.length + 1 := by
        rcases Nat.div_eq_zero_iff.mp hzero with h | h
        · exact absurd h (Nat.succ_ne_zero _)
        · exact h
      rw [Nat.mod_eq_of_lt hsmall, ← List.drop_drop] at hc
      have hlt := hs.lt c (List.mem_of_mem_drop hc)
      exact Nat.lt_of_lt_of_le hlt (Nat.le_add_right _ _)
    · have hlt : s.n < (s.insert δ).n := Nat.lt_add_of_pos_right hpos
      exact Nat.lt_of_le_of_lt (hs.le c (List.mem_of_mem_drop hc)) hlt
  · exact hl.symm ▸ hcounts

theorem ascends_insert (hs : s.Ascends) (δ : ℕ) : (s.insert δ).Ascends := by
  obtain ⟨l, r, -, hins, hl, hr, -⟩ := hs.insert δ
  generalize (s.insert δ).n = n at hins hl hr
  rw [hins]
  constructor
  · intro c hc
    rcases List.mem_append.mp hc with hc | hc
    · exact hl c hc
    · rcases List.mem_cons.mp hc with rfl | hc
      · exact Nat.le_refl _
      · exact (hr c hc).le
  · intro c hc
    have hdrop : (l ++ n :: r).drop (l.length + 1) = r := by simp
    rw [hdrop] at hc
    exact hr c hc

theorem ascends_insertAll (hs : s.Ascends) (δs : List ℕ) : (s.insertAll δs).Ascends := by
  induction δs generalizing s with
  | nil => exact hs
  | cons δ δs ih => exact ih (ascends_insert hs δ)

/-- The place of the last number with only smaller ones behind is the only one. -/
theorem append_cons_inj {n n' : ℕ} {l l' r r' : List ℕ} (h : l ++ n :: r = l' ++ n' :: r') (hl : ∀ c ∈ l, c ≤ n)
    (hr : ∀ c ∈ r, c < n) (hl' : ∀ c ∈ l', c ≤ n') (hr' : ∀ c ∈ r', c < n') : l = l' ∧ n = n' ∧ r = r' := by
  have hn : n = n' := by
    apply Nat.le_antisymm
    · have hmem : n ∈ l' ++ n' :: r' := h ▸ List.mem_append_right l List.mem_cons_self
      rcases List.mem_append.mp hmem with hm | hm
      · exact hl' n hm
      · rcases List.mem_cons.mp hm with hm | hm
        · exact hm.le
        · exact (hr' n hm).le
    · have hmem : n' ∈ l ++ n :: r := h ▸ List.mem_append_right l' List.mem_cons_self
      rcases List.mem_append.mp hmem with hm | hm
      · exact hl n' hm
      · rcases List.mem_cons.mp hm with hm | hm
        · exact hm.le
        · exact (hr n' hm).le
  subst hn
  have hnot : n ∉ r := fun hm => Nat.lt_irrefl n (hr n hm)
  have hnot' : n ∉ r' := fun hm => Nat.lt_irrefl n (hr' n hm)
  rcases List.append_eq_append_iff.mp h with ⟨m, hl', hm⟩ | ⟨m, hl', hm⟩
  · cases m with
    | nil => simp_all
    | cons c m =>
      have hmem : n ∈ r := by
        rw [(List.cons.inj hm).2]
        exact List.mem_append_right m List.mem_cons_self
      exact absurd hmem hnot
  · cases m with
    | nil => simp_all
    | cons c m =>
      have hmem : n ∈ r' := by
        rw [(List.cons.inj hm).2]
        exact List.mem_append_right m List.mem_cons_self
      exact absurd hmem hnot'

/-- A list has no other distances. -/
theorem insertAll_injective (hs : s.Ascends) (h : (s.insertAll δs).out = (s.insertAll δs').out) : δs = δs' := by
  induction δs using List.reverseRecOn generalizing δs' with
  | nil =>
    have hlen := congrArg List.length h
    rw [length_insertAll, length_insertAll] at hlen
    exact (List.length_eq_zero_iff.mp (by simpa using hlen.symm)).symm
  | append_singleton δs δ ih =>
    rcases List.eq_nil_or_concat' δs' with rfl | ⟨δs', δ', rfl⟩
    · have hlen := congrArg List.length h
      rw [length_insertAll, length_insertAll] at hlen
      simp at hlen
    · rw [insertAll_append, insertAll_append, insertAll_cons, insertAll_cons, insertAll_nil, insertAll_nil] at h
      obtain ⟨l, r, hout, hins, hl, hr, hcounts⟩ := (ascends_insertAll hs δs).insert δ
      obtain ⟨l', r', hout', hins', hl', hr', hcounts'⟩ := (ascends_insertAll hs δs').insert δ'
      rw [hins, hins'] at h
      obtain ⟨rfl, hn, rfl⟩ := append_cons_inj h hl hr hl' hr'
      obtain rfl := ih (hout.trans hout'.symm)
      rw [← hn] at hcounts'
      have hδ := hcounts.2.trans hcounts'.2.symm
      rw [Nat.add_left_cancel hδ]

/-- What was there from the beginning is still found among the others. -/
theorem filter_insertAll {n : ℕ} (hs : s.Ascends) (hn : n ≤ s.n) :
    (s.insertAll δs).out.filter (· < n) = s.out.filter (· < n) := by
  induction δs generalizing s with
  | nil => rfl
  | cons δ δs ih =>
    obtain ⟨l, r, hout, hins, -, -, hcounts⟩ := hs.insert δ
    have hle : n ≤ (s.insert δ).n := hn.trans hcounts.1
    have hone : (s.insert δ).out.filter (· < n) = s.out.filter (· < n) := by
      rw [hins, hout]
      simp [Nat.not_lt.mpr hle]
    exact (ih (ascends_insert hs δ) hle).trans hone

/-! ### How far it can be -/

theorem mem_insert_out (s : Place) (δ : ℕ) : ∀ c ∈ (s.insert δ).n :: s.out, c ∈ (s.insert δ).out := by
  have hplace : (s.i + δ) % (s.out.length + 1) ≤ s.out.length := Nat.le_of_lt_succ (Nat.mod_lt _ (Nat.succ_pos _))
  intro c hc
  exact (List.mem_insertIdx hplace).mpr (List.mem_cons.mp hc)

theorem mem_insertAll_out (δs : List ℕ) {c : ℕ} (h : c ∈ s.out) : c ∈ (s.insertAll δs).out := by
  induction δs generalizing s with
  | nil => exact h
  | cons δ δs ih => exact ih (mem_insert_out s δ c (List.mem_cons_of_mem _ h))

/-- The distances of a list of `l` numbers up to `m` are less than `(m + 1) * l`. -/
theorem lt_of_mem_distances {m : ℕ} (h : ∀ c ∈ (s.insertAll δs).out, c ≤ m) :
    ∀ δ ∈ δs, δ < (m + 1) * (s.insertAll δs).out.length := by
  induction δs generalizing s with
  | nil => exact fun δ hδ => absurd hδ List.not_mem_nil
  | cons δ δs ih =>
    intro δ' hδ'
    rcases List.mem_cons.mp hδ' with rfl | hδ'
    · have hn : (s.insert δ').n ≤ m := h _ (mem_insertAll_out δs (mem_insert_out s δ' _ List.mem_cons_self))
      have hdiv : (s.i + δ') / (s.out.length + 1) ≤ m := (Nat.le_add_left _ _).trans hn
      have hlt : s.i + δ' < (m + 1) * (s.out.length + 1) :=
        (Nat.div_lt_iff_lt_mul (Nat.succ_pos _)).mp (Nat.lt_succ_of_le hdiv)
      have hlen : s.out.length + 1 ≤ (s.insertAll (δ' :: δs)).out.length := by
        rw [length_insertAll, List.length_cons]
        omega
      calc δ' ≤ s.i + δ' := Nat.le_add_left _ _
        _ < (m + 1) * (s.out.length + 1) := hlt
        _ ≤ (m + 1) * (s.insertAll (δ' :: δs)).out.length := Nat.mul_le_mul_left _ hlen
    · exact ih (s := s.insert δ) h δ' hδ'

/-! ### Lists of distances -/

section Adapting

variable {β : Type*} (thr : β → Thresholds b) (adapt : ℕ → ℕ → Bool → β)

/-- The digits of distances, when `h` numbers are there. The thresholds adapt to each distance, the length reached,
and whether it was the first one. -/
def write : β → ℕ → Bool → List ℕ → List ℕ
  | _, _, _, [] => []
  | bias, h, first, δ :: δs => digits (thr bias) δ ++ write (adapt δ (h + 1) first) (h + 1) false δs

/-- Distance after distance is read, and its number put. -/
def parse : ℕ → β → Place → List ℕ → Option Place
  | _, _, s, [] => some s
  | 0, _, _, _ :: _ => none
  | fuel + 1, bias, s, d :: ds =>
    (readNumber (thr bias) (d :: ds)).bind fun r =>
      parse fuel (adapt r.1 (s.out.length + 1) (s.i = 0)) (s.insert r.1) r.2

variable {thr adapt} {bias : β} {fuel : ℕ}

theorem parse_of_readNumber (h : readNumber (thr bias) ds = some (δ, rest)) :
    parse thr adapt (fuel + 1) bias s ds =
      parse thr adapt fuel (adapt δ (s.out.length + 1) (s.i = 0)) (s.insert δ) rest := by
  cases ds with
  | nil => cases h
  | cons d ds => rw [parse, h, Option.bind_some]

/-- What is written is read back. -/
theorem parse_write (hfuel : δs.length ≤ fuel) :
    parse thr adapt fuel bias s (write thr adapt bias s.out.length (s.i = 0) δs) = some (s.insertAll δs) := by
  induction δs generalizing fuel bias s with
  | nil =>
    rw [write, parse]
    rfl
  | cons δ δs ih =>
    obtain ⟨fuel, rfl⟩ : ∃ f, fuel = f + 1 := Nat.exists_eq_succ_of_ne_zero (by rintro rfl; simp at hfuel)
    rw [write, parse_of_readNumber (readNumber_digits _ _ _)]
    have hlater : decide ((s.insert δ).i = 0) = false := decide_eq_false (Nat.succ_ne_zero _)
    rw [← length_insert s δ, ← hlater]
    exact ih (Nat.le_of_succ_le_succ hfuel)

/-- What is read has been written. -/
theorem write_of_parse (hds : ∀ d ∈ ds, d < b) (h : parse thr adapt fuel bias s ds = some s') :
    ∃ δs, ds = write thr adapt bias s.out.length (s.i = 0) δs ∧ s' = s.insertAll δs := by
  induction fuel generalizing bias s ds with
  | zero =>
    cases ds with
    | nil => exact ⟨[], rfl, (Option.some.inj h).symm⟩
    | cons d ds => cases h
  | succ fuel ih =>
    cases ds with
    | nil => exact ⟨[], rfl, (Option.some.inj h).symm⟩
    | cons d ds =>
      obtain ⟨⟨δ, rest⟩, hread, h⟩ := Option.bind_eq_some_iff.mp h
      have hdigits := digits_of_readNumber hds hread
      rw [hdigits] at hds
      obtain ⟨δs, hrest, hs'⟩ := ih (fun d hd => hds d (List.mem_append_right _ hd)) h
      have hlater : decide ((s.insert δ).i = 0) = false := decide_eq_false (Nat.succ_ne_zero _)
      rw [length_insert, hlater] at hrest
      exact ⟨δ :: δs, by rw [hdigits, write, hrest], hs'⟩

theorem length_le_length_write (bias : β) (h : ℕ) (first : Bool) (δs : List ℕ) :
    δs.length ≤ (write thr adapt bias h first δs).length := by
  induction δs generalizing bias h first with
  | nil => exact Nat.zero_le _
  | cons δ δs ih =>
    have hpos : 0 < (digits (thr bias) δ).length := List.length_pos_iff.mpr (digits_ne_nil _ _)
    have hle := ih (adapt δ (h + 1) first) (h + 1) false
    rw [write, List.length_append, List.length_cons]
    omega

theorem write_lt (bias : β) (h : ℕ) (first : Bool) (δs : List ℕ) : ∀ d ∈ write thr adapt bias h first δs, d < b := by
  induction δs generalizing bias h first with
  | nil => exact fun d hd => absurd hd List.not_mem_nil
  | cons δ δs ih =>
    intro d hd
    rcases List.mem_append.mp hd with hd | hd
    · exact digits_lt _ _ d hd
    · exact ih _ _ _ d hd

/-- Another way to adapt writes the same, if it is the same for the distances. -/
theorem write_congr {adapt' : ℕ → ℕ → Bool → β} (bias : β) (h : ℕ) (first : Bool)
    (hadapt : ∀ δ ∈ δs, adapt δ = adapt' δ) : write thr adapt bias h first δs = write thr adapt' bias h first δs := by
  induction δs generalizing bias h first with
  | nil => rfl
  | cons δ δs ih =>
    obtain ⟨hδ, hδs⟩ := List.forall_mem_cons.mp hadapt
    rw [write, write, hδ, ih _ _ _ hδs]

end Adapting

end OpenshiftConsole.Library.Bootstring
