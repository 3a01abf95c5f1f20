import Mathlib.Algebra.GroupWithZero.Nat
import Mathlib.Algebra.Order.BigOperators.Group.List
import Mathlib.Algebra.Order.Group.Nat
import Mathlib.Data.List.Perm.Subperm
import Mathlib.Logic.Function.Basic
import OpenshiftConsole.Library.Runs

/-!
# A few lookups at a time

`mapWithConcurrency` runs a task for each item, so many at a time. Its workers share the index of the next
item: a worker takes it, calls the task's function and waits for the promise, unless the function
throws, and comes back for the next one. A task that fails leaves `undefined` in its place.

An event is one turn of a worker's loop up to where it waits, the end of a task's promise, or a worker's going on
after it. The events come in any order. In each state the tasks that have been started are those of
the first items, once each, and no more than the limit are in flight; when all workers have
returned, the list of results has each task's own outcome in the place of its item
(`mapWithConcurrency_spec`). Until then something can always happen, and no run is longer than three
events for an item and one for a worker.
-/

namespace OpenshiftConsole.ExternalDns.DnsLookup

open OpenshiftConsole.Library.Runs

variable {T R : Type*}

/-! ### Workers and tasks -/

/-- What has become of an item's task; an outcome of a task that failed is nothing. -/
inductive Task (R : Type*) where
  | unstarted
  /-- Its promise is pending. -/
  | inFlight
  | settled (outcome : Option R)

/-- Where a worker is. -/
inductive Worker where
  /-- At the head of its loop. -/
  | ready
  /-- At `await fn(items[i])`. -/
  | awaiting (i : ℕ)
  | returned
deriving DecidableEq

/-- A call of `mapWithConcurrency`. -/
structure State (T R : Type*) where
  /-- `next`. -/
  next : ℕ
  workers : List Worker
  /-- The tasks, by the indices of their items. -/
  tasks : ℕ → Task R
  /-- `results`, in which nothing is `undefined`. -/
  results : List (Option R)
  /-- The items that `fn` has been called with, in this order. -/
  calls : List T

inductive Event (R : Type*) where
  /-- A worker takes an index; if there is an item, `fn` throws or gives a promise. -/
  | turn (w : ℕ) (throws : Bool)
  /-- A task's promise is fulfilled with a value, or rejected. -/
  | settle (i : ℕ) (outcome : Option R)
  /-- A worker goes on after its promise. -/
  | resume (w : ℕ)

/-- The state in which the workers have been created. -/
def State.init (items : List T) (limit : ℕ) : State T R :=
  { next := 0
    workers := List.replicate (min limit items.length) .ready
    tasks := fun _ => .unstarted
    results := List.replicate items.length none
    calls := [] }

/-- The state after an event, if it can happen. -/
def step (items : List T) (s : State T R) : Event R → Option (State T R)
  | .turn w throws =>
    match s.workers[w]? with
    | some .ready =>
      match items[s.next]? with
      | none => some { s with next := s.next + 1, workers := s.workers.set w .returned }
      | some item =>
        if throws then
          some { s with next := s.next + 1, calls := s.calls ++ [item]
                        tasks := Function.update s.tasks s.next (.settled none), results := s.results.set s.next none }
        else
          some { s with next := s.next + 1, calls := s.calls ++ [item]
                        tasks := Function.update s.tasks s.next .inFlight, workers := s.workers.set w (.awaiting s.next) }
    | _ => none
  | .settle i outcome =>
    match s.tasks i with
    | .inFlight => some { s with tasks := Function.update s.tasks i (.settled outcome) }
    | _ => none
  | .resume w =>
    match s.workers[w]? with
    | some (.awaiting i) =>
      match s.tasks i with
      | .settled outcome => some { s with results := s.results.set i outcome, workers := s.workers.set w .ready }
      | _ => none
    | _ => none

/-- `Promise.all` resolves: all workers have returned. -/
def State.Resolved (s : State T R) : Prop := ∀ w ∈ s.workers, w = .returned

/-- The tasks in flight, of so many. -/
def State.inFlight (s : State T R) (n : ℕ) : List ℕ :=
  (List.range n).filter fun i => match s.tasks i with | .inFlight => true | _ => false

/-- What an event can do, one rule for each way through. -/
inductive Rule (items : List T) (s : State T R) : Event R → State T R → Prop
  | returns {w : ℕ} {throws : Bool} (hw : s.workers[w]? = some .ready) (hi : items.length ≤ s.next) :
    Rule items s (.turn w throws) { s with next := s.next + 1, workers := s.workers.set w .returned }
  | throws {w : ℕ} {item : T} (hw : s.workers[w]? = some .ready) (hi : items[s.next]? = some item) :
    Rule items s (.turn w true)
      { s with next := s.next + 1, calls := s.calls ++ [item]
               tasks := Function.update s.tasks s.next (.settled none), results := s.results.set s.next none }
  | awaits {w : ℕ} {item : T} (hw : s.workers[w]? = some .ready) (hi : items[s.next]? = some item) :
    Rule items s (.turn w false)
      { s with next := s.next + 1, calls := s.calls ++ [item]
               tasks := Function.update s.tasks s.next .inFlight, workers := s.workers.set w (.awaiting s.next) }
  | settles {i : ℕ} {outcome : Option R} (hi : s.tasks i = .inFlight) :
    Rule items s (.settle i outcome) { s with tasks := Function.update s.tasks i (.settled outcome) }
  | resumes {w i : ℕ} {outcome : Option R} (hw : s.workers[w]? = some (.awaiting i)) (hi : s.tasks i = .settled outcome) :
    Rule items s (.resume w) { s with results := s.results.set i outcome, workers := s.workers.set w .ready }

variable {items : List T} {limit : ℕ} {s s' : State T R} {e : Event R}

theorem step_rule (h : step items s e = some s') : Rule items s e s' := by
  cases e with
  | turn w throws =>
    simp only [step] at h
    split at h
    · split at h
      · rename_i hi
        cases h
        exact .returns ‹_› (List.getElem?_eq_none_iff.mp hi)
      · split at h
        · rename_i hthrows
          cases h
          subst hthrows
          exact .throws ‹_› ‹_›
        · rename_i hthrows
          rw [Bool.not_eq_true] at hthrows
          cases h
          subst hthrows
          exact .awaits ‹_› ‹_›
    · cases h
  | settle i outcome =>
    simp only [step] at h
    split at h
    · cases h
      exact .settles ‹_›
    · cases h
  | resume w =>
    simp only [step] at h
    split at h
    · split at h
      · cases h
        exact .resumes ‹_› ‹_›
      · cases h
    · cases h

/-! ### The invariant -/

/-- What holds in every state. -/
structure Inv (items : List T) (limit : ℕ) (s : State T R) : Prop where
  calls : s.calls = items.take s.next
  /-- The tasks of the items taken have been started. -/
  started : ∀ i < items.length, i < s.next → s.tasks i ≠ .unstarted
  /-- No other task has. -/
  fresh : ∀ i, s.next ≤ i → s.tasks i = .unstarted
  /-- A worker waits for a task in flight. -/
  inFlight : ∀ i, s.tasks i = .inFlight → .awaiting i ∈ s.workers
  awaited : ∀ i, .awaiting i ∈ s.workers → s.tasks i ≠ .unstarted ∧ i < items.length
  /-- An outcome is in its place, or a worker is to put it there. -/
  settled : ∀ i outcome, s.tasks i = .settled outcome → s.results[i]? = some outcome ∨ .awaiting i ∈ s.workers
  /-- A worker returns when all items have been taken. -/
  finished : .returned ∈ s.workers → items.length ≤ s.next
  workers_length : s.workers.length = min limit items.length
  results_length : s.results.length = items.length

theorem inv_init (items : List T) (limit : ℕ) : Inv items limit (State.init (R := R) items limit) where
  calls := rfl
  started _ _ h := absurd h (Nat.not_lt_zero _)
  fresh _ _ := rfl
  inFlight _ h := nomatch h
  awaited _ h := by
    cases List.eq_of_mem_replicate h
  settled _ _ h := nomatch h
  finished h := by
    cases List.eq_of_mem_replicate h
  workers_length := List.length_replicate
  results_length := List.length_replicate

/-- A task is the one that changes, or it stays. -/
theorem update_cases {t : ℕ → Task R} {i j : ℕ} {x y : Task R} (h : Function.update t i x j = y) :
    j = i ∧ x = y ∨ j ≠ i ∧ t j = y := by
  by_cases hj : j = i
  · subst hj
    exact .inl ⟨rfl, (Function.update_self j x t).symm.trans h⟩
  · exact .inr ⟨hj, (Function.update_of_ne hj x t).symm.trans h⟩

/-- A task that changes has been started. -/
theorem started_update {t : ℕ → Task R} {i j : ℕ} {x : Task R} (hx : x ≠ .unstarted) (ht : j ≠ i → t j ≠ .unstarted) :
    Function.update t i x j ≠ .unstarted := by
  intro h
  rcases update_cases h with ⟨-, h⟩ | ⟨hne, h⟩
  · exact hx h
  · exact ht hne h

/-- What is in a list still is when another of its elements is replaced. -/
theorem mem_set_of_ne {α : Type*} {l : List α} {i : ℕ} {a b c : α} (hb : l[i]? = some b) (ha : a ∈ l) (hne : a ≠ b) :
    a ∈ l.set i c := by
  obtain ⟨j, hj⟩ := List.mem_iff_getElem?.mp ha
  have hij : i ≠ j := by
    rintro rfl
    exact hne (Option.some.inj (hj.symm.trans hb))
  exact List.mem_iff_getElem?.mpr ⟨j, (List.getElem?_set_ne hij).trans hj⟩

section Steps

variable {w i : ℕ} {item : T} {outcome : Option R}

/-- The next item has been called. -/
theorem Inv.take_succ (h : Inv items limit s) (hi : items[s.next]? = some item) : s.calls ++ [item] = items.take (s.next + 1) := by
  rw [List.take_add_one, hi, h.calls]
  rfl

/-- The task of the item taken has been started with the others. -/
theorem Inv.started_succ (h : Inv items limit s) {x : Task R} (hx : x ≠ .unstarted) :
    ∀ i < items.length, i < s.next + 1 → Function.update s.tasks s.next x i ≠ .unstarted := by
  intro i hlen hlt
  refine started_update hx fun hne => h.started i hlen ?_
  exact Nat.lt_of_le_of_ne (Nat.le_of_lt_succ hlt) hne

/-- The tasks behind it have not. -/
theorem Inv.fresh_succ (h : Inv items limit s) (x : Task R) :
    ∀ i, s.next + 1 ≤ i → Function.update s.tasks s.next x i = .unstarted := by
  intro i hle
  rw [Function.update_of_ne (Nat.ne_of_gt hle)]
  exact h.fresh i (Nat.le_of_succ_le hle)

theorem Inv.returns (h : Inv items limit s) (hw : s.workers[w]? = some .ready) (hi : items.length ≤ s.next) :
    Inv items limit { s with next := s.next + 1, workers := s.workers.set w .returned } where
  calls := by
    rw [h.calls, List.take_of_length_le hi, List.take_of_length_le (Nat.le_succ_of_le hi)]
  started i hlen _ := h.started i hlen (Nat.lt_of_lt_of_le hlen hi)
  fresh i hle := h.fresh i (Nat.le_of_succ_le hle)
  inFlight i ht := mem_set_of_ne hw (h.inFlight i ht) nofun
  awaited i hm := h.awaited i ((List.mem_or_eq_of_mem_set hm).resolve_right nofun)
  settled i outcome ht := (h.settled i outcome ht).imp_right fun hm => mem_set_of_ne hw hm nofun
  finished _ := Nat.le_succ_of_le hi
  workers_length := (List.length_set ..).trans h.workers_length
  results_length := h.results_length

theorem Inv.throws (h : Inv items limit s) (hi : items[s.next]? = some item) :
    Inv items limit
      { s with next := s.next + 1, calls := s.calls ++ [item]
               tasks := Function.update s.tasks s.next (.settled none), results := s.results.set s.next none } where
  calls := h.take_succ hi
  started := h.started_succ nofun
  fresh := h.fresh_succ _
  inFlight i ht := by
    rcases update_cases ht with ⟨-, ht⟩ | ⟨-, ht⟩
    · cases ht
    · exact h.inFlight i ht
  awaited i hm := ⟨started_update nofun fun _ => (h.awaited i hm).1, (h.awaited i hm).2⟩
  settled i outcome ht := by
    rcases update_cases ht with ⟨rfl, houtcome⟩ | ⟨hne, ht⟩
    · cases houtcome
      exact .inl (List.getElem?_set_self (h.results_length ▸ (List.getElem?_eq_some_iff.mp hi).1))
    · exact (h.settled i outcome ht).imp_left fun hr => (List.getElem?_set_ne hne.symm).trans hr
  finished hm := Nat.le_succ_of_le (h.finished hm)
  workers_length := h.workers_length
  results_length := (List.length_set ..).trans h.results_length

theorem Inv.awaits (h : Inv items limit s) (hw : s.workers[w]? = some .ready) (hi : items[s.next]? = some item) :
    Inv items limit
      { s with next := s.next + 1, calls := s.calls ++ [item]
               tasks := Function.update s.tasks s.next .inFlight, workers := s.workers.set w (.awaiting s.next) } where
  calls := h.take_succ hi
  started := h.started_succ nofun
  fresh := h.fresh_succ _
  inFlight i ht := by
    rcases update_cases ht with ⟨rfl, -⟩ | ⟨-, ht⟩
    · exact List.mem_set (List.getElem?_eq_some_iff.mp hw).1 _
    · exact mem_set_of_ne hw (h.inFlight i ht) nofun
  awaited i hm := by
    rcases List.mem_or_eq_of_mem_set hm with hm | he
    · exact ⟨started_update nofun fun _ => (h.awaited i hm).1, (h.awaited i hm).2⟩
    · cases he
      exact ⟨started_update nofun fun hne => absurd rfl hne, (List.getElem?_eq_some_iff.mp hi).1⟩
  settled i outcome ht := by
    rcases update_cases ht with ⟨-, ht⟩ | ⟨-, ht⟩
    · cases ht
    · exact (h.settled i outcome ht).imp_right fun hm => mem_set_of_ne hw hm nofun
  finished hm := Nat.le_succ_of_le (h.finished ((List.mem_or_eq_of_mem_set hm).resolve_right nofun))
  workers_length := (List.length_set ..).trans h.workers_length
  results_length := h.results_length

theorem Inv.settles (h : Inv items limit s) (hi : s.tasks i = .inFlight) :
    Inv items limit { s with tasks := Function.update s.tasks i (.settled outcome) } where
  calls := h.calls
  started j hlen hlt := started_update nofun fun _ => h.started j hlen hlt
  fresh j hle := by
    have hj := h.fresh j hle
    refine (Function.update_of_ne ?_ ..).trans hj
    rintro rfl
    cases hi.symm.trans hj
  inFlight j ht := by
    rcases update_cases ht with ⟨-, ht⟩ | ⟨-, ht⟩
    · cases ht
    · exact h.inFlight j ht
  awaited j hm := ⟨started_update nofun fun _ => (h.awaited j hm).1, (h.awaited j hm).2⟩
  settled j outcome ht := by
    rcases update_cases ht with ⟨rfl, -⟩ | ⟨-, ht⟩
    · exact .inr (h.inFlight j hi)
    · exact h.settled j outcome ht
  finished := h.finished
  workers_length := h.workers_length
  results_length := h.results_length

theorem Inv.resumes (h : Inv items limit s) (hw : s.workers[w]? = some (.awaiting i)) (hi : s.tasks i = .settled outcome) :
    Inv items limit { s with results := s.results.set i outcome, workers := s.workers.set w .ready } where
  calls := h.calls
  started := h.started
  fresh := h.fresh
  inFlight j ht := by
    refine mem_set_of_ne hw (h.inFlight j ht) fun he => ?_
    cases he
    cases hi.symm.trans ht
  awaited j hm := h.awaited j ((List.mem_or_eq_of_mem_set hm).resolve_right nofun)
  settled j outcome' ht := by
    have hlen := (h.awaited i (List.mem_of_getElem? hw)).2
    by_cases hji : j = i
    · subst hji
      cases hi.symm.trans ht
      exact .inl (List.getElem?_set_self (h.results_length ▸ hlen))
    · refine (h.settled j outcome' ht).imp (fun hr => (List.getElem?_set_ne (Ne.symm hji)).trans hr) fun hm => ?_
      exact mem_set_of_ne hw hm fun he => hji (Worker.awaiting.inj he)
  finished hm := h.finished ((List.mem_or_eq_of_mem_set hm).resolve_right nofun)
  workers_length := (List.length_set ..).trans h.workers_length
  results_length := (List.length_set ..).trans h.results_length

end Steps

theorem Inv.of_rule (h : Inv items limit s) (hr : Rule items s e s') : Inv items limit s' := by
  cases hr with
  | returns hw hi => exact h.returns hw hi
  | throws hw hi => exact h.throws hi
  | awaits hw hi => exact h.awaits hw hi
  | settles hi => exact h.settles hi
  | resumes hw hi => exact h.resumes hw hi

/-! ### The limit and the results -/

/-- The task that a worker waits for. -/
def Worker.task : Worker → Option ℕ
  | .awaiting i => some i
  | _ => none

/-- Each task in flight has a worker that waits for it. -/
theorem Inv.inFlight_le (h : Inv items limit s) : (s.inFlight items.length).length ≤ limit := by
  have hsub : s.inFlight items.length ⊆ s.workers.filterMap Worker.task := by
    intro i hi
    obtain ⟨-, hflight⟩ := List.mem_filter.mp hi
    refine List.mem_filterMap.mpr ⟨.awaiting i, h.inFlight i ?_, rfl⟩
    split at hflight
    · assumption
    · cases hflight
  have hnodup : (s.inFlight items.length).Nodup := List.nodup_range.filter _
  have hle := (List.subperm_of_subset hnodup hsub).length_le
  have hworkers := h.workers_length
  have := List.length_filterMap_le Worker.task s.workers
  omega

/-- When all workers have returned, all tasks have been started, and each has its outcome in its place. -/
theorem Inv.resolved (h : Inv items limit s) (hlimit : 1 ≤ limit) (hs : s.Resolved) :
    s.calls = items ∧ s.results.length = items.length ∧
      ∀ i < items.length, ∃ outcome, s.tasks i = .settled outcome ∧ s.results[i]? = some outcome := by
  have hnext : items.length ≤ s.next := by
    rcases Nat.eq_zero_or_pos items.length with hzero | hpos
    · omega
    · have hlen := h.workers_length
      obtain ⟨w, hw⟩ := List.exists_mem_of_length_pos (by omega : 0 < s.workers.length)
      exact h.finished (hs w hw ▸ hw)
  refine ⟨h.calls.trans (List.take_of_length_le hnext), h.results_length, fun i hi => ?_⟩
  have hnone : .awaiting i ∉ s.workers := fun hm => nomatch hs _ hm
  cases ht : s.tasks i with
  | unstarted => exact absurd ht (h.started i hi (Nat.lt_of_lt_of_le hi hnext))
  | inFlight => exact absurd (h.inFlight i ht) hnone
  | settled outcome => exact ⟨outcome, rfl, (h.settled i outcome ht).resolve_right hnone⟩

/-- Until then something can happen. -/
theorem Inv.progress (h : Inv items limit s) (hs : ¬ s.Resolved) : ∃ e, (step items s e).isSome := by
  rw [State.Resolved] at hs
  push Not at hs
  obtain ⟨w, hw, hne⟩ := hs
  obtain ⟨k, hk⟩ := List.mem_iff_getElem?.mp hw
  cases w with
  | ready =>
    refine ⟨.turn k false, ?_⟩
    rw [step, hk]
    dsimp only
    split <;> rfl
  | awaiting i =>
    cases ht : s.tasks i with
    | unstarted => exact absurd ht (h.awaited i hw).1
    | inFlight =>
      refine ⟨.settle i none, ?_⟩
      rw [step, ht]
      rfl
    | settled outcome =>
      refine ⟨.resume k, ?_⟩
      rw [step, hk]
      dsimp only
      rw [ht]
      rfl
  | returned => exact absurd rfl hne

/-! ### The length of a run -/

/-- How many events a worker has before it at most, up to its next turn. -/
def weight (tasks : ℕ → Task R) : Worker → ℕ
  | .ready => 1
  | .awaiting i => match tasks i with | .inFlight => 3 | _ => 2
  | .returned => 0

/-- How many events are to come at most. -/
def State.todo (s : State T R) (n : ℕ) : ℕ := 3 * (n - s.next) + (s.workers.map (weight s.tasks)).sum

theorem sum_map_set {α : Type*} (f : α → ℕ) {l : List α} {i : ℕ} {a : α} (h : l[i]? = some a) (b : α) :
    ((l.set i b).map f).sum + f a = (l.map f).sum + f b := by
  induction l generalizing i with
  | nil => cases h
  | cons c l ih =>
    cases i with
    | zero =>
      obtain rfl := Option.some.inj h
      simp only [List.set_cons_zero, List.map_cons, List.sum_cons]
      omega
    | succ i =>
      have := ih h
      simp only [List.set_cons_succ, List.map_cons, List.sum_cons]
      omega

/-- A task that no worker waits for counts for none. -/
theorem Inv.map_weight (h : Inv items limit s) (x : Task R) :
    s.workers.map (weight (Function.update s.tasks s.next x)) = s.workers.map (weight s.tasks) := by
  refine List.map_congr_left fun w hw => ?_
  cases w with
  | awaiting i =>
    have hne : i ≠ s.next := fun he => (h.awaited i hw).1 (h.fresh i (Nat.le_of_eq he.symm))
    rw [weight, weight, Function.update_of_ne hne]
  | ready => rfl
  | returned => rfl

/-- Each event leaves fewer to come. -/
theorem Inv.todo_lt (h : Inv items limit s) (hr : Rule items s e s') : s'.todo items.length < s.todo items.length := by
  cases hr with
  | returns hw hi =>
    have hsum := sum_map_set (weight s.tasks) hw .returned
    simp only [State.todo, weight] at *
    omega
  | throws hw hi =>
    have hlen := (List.getElem?_eq_some_iff.mp hi).1
    have hsum := congrArg List.sum (h.map_weight (.settled none))
    simp only [State.todo] at *
    omega
  | awaits hw hi =>
    have hlen := (List.getElem?_eq_some_iff.mp hi).1
    have hsum := sum_map_set (weight (Function.update s.tasks s.next .inFlight)) hw (.awaiting s.next)
    rw [h.map_weight] at hsum
    simp only [State.todo, weight, Function.update_self] at *
    omega
  | @settles i outcome hi =>
    have hsum : (s.workers.map (weight (Function.update s.tasks i (.settled outcome)))).sum <
        (s.workers.map (weight s.tasks)).sum := by
      refine List.sum_lt_sum _ _ (fun w _ => ?_) ⟨.awaiting i, h.inFlight i hi, ?_⟩
      · cases w with
        | awaiting j =>
          by_cases hji : j = i
          · subst hji
            rw [weight, weight, Function.update_self, hi]
            exact Nat.le_succ 2
          · rw [weight, weight, Function.update_of_ne hji]
        | ready => exact Nat.le_refl 1
        | returned => exact Nat.le_refl 0
      · rw [weight, weight, Function.update_self, hi]
        exact Nat.lt_succ_self 2
    simp only [State.todo]
    omega
  | resumes hw hi =>
    have hsum := sum_map_set (weight s.tasks) hw .ready
    simp only [State.todo, weight, hi] at *
    omega

/-- A run is no longer than that. -/
theorem Inv.length_le (h : Inv items limit s) {es : List (Event R)} (hrun : run (step items) s es = some s') :
    es.length + s'.todo items.length ≤ s.todo items.length := by
  induction es generalizing s with
  | nil =>
    obtain rfl : s = s' := Option.some.inj hrun
    exact Nat.le_of_eq (Nat.zero_add _)
  | cons e es ih =>
    obtain ⟨t, ht, hrun⟩ := run_cons_eq_some.mp hrun
    have hlt := h.todo_lt (step_rule ht)
    have hle := ih (h.of_rule (step_rule ht)) hrun
    rw [List.length_cons]
    omega

/-- The invariant holds after every run. -/
theorem inv_run {es : List (Event R)} (hrun : run (step items) (.init items limit) es = some s) : Inv items limit s :=
  Along.invariant (G := fun _ _ _ => True) (I := Inv items limit) (fun hs _ hi => hi.of_rule (step_rule hs))
    (Along.of_forall (fun _ _ _ _ => trivial) _) (inv_init items limit) hrun

/-- **Every item once.** After every run of a call, `fn` has been called with the first items, in order, and no
more tasks are in flight than the limit says. Once the call resolves, `fn` has been called with each item, and each
task's own outcome is in the place of its item. Until then something can happen, and not for ever. -/
theorem mapWithConcurrency_spec (items : List T) (limit : ℕ) (hlimit : 1 ≤ limit) (es : List (Event R)) (s : State T R)
    (hrun : run (step items) (.init items limit) es = some s) :
    s.calls = items.take s.next ∧ (s.inFlight items.length).length ≤ limit ∧
      (s.Resolved → s.calls = items ∧ s.results.length = items.length ∧
        ∀ i < items.length, ∃ outcome, s.tasks i = .settled outcome ∧ s.results[i]? = some outcome) ∧
      (¬ s.Resolved → ∃ e, (step items s e).isSome) ∧ es.length ≤ 3 * items.length + min limit items.length := by
  have h := inv_run hrun
  have hle := (inv_init (R := R) items limit).length_le hrun
  refine ⟨h.calls, h.inFlight_le, fun hs => h.resolved hlimit hs, fun hs => h.progress hs, ?_⟩
  have htodo : (State.init (R := R) items limit).todo items.length = 3 * items.length + min limit items.length := by
    simp [State.todo, State.init, weight]
  omega

/-- Three items, two at a time: the first one's function throws, the third is done before the second, which fails. -/
def threeTurns : List (Event ℕ) :=
  [.turn 0 true, .turn 1 false, .turn 0 false, .settle 2 (some 7), .resume 0, .turn 0 false, .settle 1 none, .resume 1,
    .turn 1 false]

theorem mapWithConcurrency_three : ∃ s, run (step ['a', 'b', 'c']) (.init ['a', 'b', 'c'] 2) threeTurns = some s ∧
    s.calls = ['a', 'b', 'c'] ∧ s.results = [none, none, some 7] := by
  obtain ⟨s, hrun, hresults⟩ : ∃ s, run (step ['a', 'b', 'c']) (.init ['a', 'b', 'c'] 2) threeTurns = some s ∧
      (s.Resolved ∧ s.results = [none, none, some 7]) := ⟨_, rfl, by unfold State.Resolved; decide, rfl⟩
  have hspec := mapWithConcurrency_spec ['a', 'b', 'c'] 2 (Nat.le_succ 1) threeTurns s hrun
  exact ⟨s, hrun, (hspec.2.2.1 hresults.1).1, hresults.2⟩

end OpenshiftConsole.ExternalDns.DnsLookup
