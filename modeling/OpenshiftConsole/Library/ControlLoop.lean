import Mathlib.Data.List.Induction
import Mathlib.Logic.Function.Basic
import OpenshiftConsole.Library.Interaction
import OpenshiftConsole.Library.Runs

/-!
# Control loops

A controller watches objects, each under a key, and brings something else on a server in line with them. What it
watches reaches a store of its own, with a delay; for each version that gets there it is told the key, and puts it into
a work queue. Workers take keys out of the queue, read the store, and ask the server for what is to be done about the
key; if that fails the key comes back into the queue later. The queue holds a key at most once, hands it to one worker
at a time, and takes it up again while one is at it.

Others write what is watched, and what is brought in line with it, whenever they like. The order in which keys are
handed out is anything, requests about different keys come in any order, and each of them may be refused or its answer
be lost. So a state is the server and, for each key on its own, how far it got (`Key`); an event is one key's.

`agrees_of_rest`: when nothing is left to do about a key, what was to be brought in line agrees with what is watched,
if others have not written it since the store was last read for it. `settles`: when no one disturbs it any more, there
are only so many steps left for a key.
-/

namespace OpenshiftConsole.Library.ControlLoop

open Runs

variable {K V X S Q R ε M W : Type}

/-- A controller and its server. -/
structure Loop (K V S Q R ε M W : Type) where
  /-- What is to be done about a key of which the store has this. -/
  reconcile : K → Option V → Interaction Q R ε Unit
  serve : Q → S → S × R
  /-- What is heard of a request that is refused, or whose answer is lost. -/
  failure : M → R
  /-- What others do about a key. -/
  write : K → W → S → S

/-- How far a worker got with a key. -/
inductive Task (V Q R ε : Type) where
  | taken
  /-- The store had `v`; `todo` is left. -/
  | running (v : Option V) (todo : Interaction Q R ε Unit)

/-- How far a key got. -/
structure Key (V Q R ε : Type) where
  source : Option V
  /-- The versions of the source on their way to the store, the oldest first. -/
  watch : List (Option V)
  store : Option V
  /-- How often the controller is still to be told of it. -/
  notices : ℕ
  /-- It is in the queue. -/
  pending : Bool
  /-- How often it will be put into the queue later. -/
  later : ℕ
  task : Option (Task V Q R ε)

structure State (K V S Q R ε : Type) where
  server : S
  keys : K → Key V Q R ε

inductive Event (V M W : Type) where
  /-- Others write the source, or remove it. -/
  | source (v : Option V)
  /-- Others write what is to be brought in line with it. -/
  | write (w : W)
  /-- A version is left out, as there is a later one. -/
  | skip
  /-- A version gets to the store. -/
  | deliver
  /-- The controller is to be told again of what is in the store. -/
  | resync
  | notify
  | due
  | take
  | read
  | answered
  | refused (m : M)
  | lost (m : M)
  | finish

/-- No source yet, and nothing to do. -/
def Key.init : Key V Q R ε where
  source := none
  watch := []
  store := none
  notices := 0
  pending := false
  later := 0
  task := none

def init (server : S) : State K V S Q R ε := ⟨server, fun _ => .init⟩

def State.set [DecidableEq K] (s : State K V S Q R ε) (k : K) (x : Key V Q R ε) : State K V S Q R ε :=
  { s with keys := Function.update s.keys k x }

def step [DecidableEq K] (c : Loop K V S Q R ε M W) (s : State K V S Q R ε) :
    K × Event V M W → Option (State K V S Q R ε)
  | (k, .source v) =>
    let x := s.keys k
    some (s.set k { x with source := v, watch := x.watch ++ [v] })
  | (k, .write w) => some { s with server := c.write k w s.server }
  | (k, .skip) =>
    let x := s.keys k
    match x.watch with
    | _ :: v :: vs => some (s.set k { x with watch := v :: vs })
    | _ => none
  | (k, .deliver) =>
    let x := s.keys k
    match x.watch with
    | [] => none
    | v :: vs =>
      -- nothing is told of what neither was nor is there
      let notices := if v.isNone && x.store.isNone then x.notices else x.notices + 1
      some (s.set k { x with store := v, watch := vs, notices })
  | (k, .resync) =>
    let x := s.keys k
    if x.store.isSome then some (s.set k { x with notices := x.notices + 1 }) else none
  | (k, .notify) =>
    let x := s.keys k
    match x.notices with
    | 0 => none
    | n + 1 => some (s.set k { x with notices := n, pending := true })
  | (k, .due) =>
    let x := s.keys k
    match x.later with
    | 0 => none
    | n + 1 => some (s.set k { x with later := n, pending := true })
  | (k, .take) =>
    let x := s.keys k
    match x.pending, x.task with
    | true, none => some (s.set k { x with pending := false, task := some .taken })
    | _, _ => none
  | (k, .read) =>
    let x := s.keys k
    match x.task with
    | some .taken => some (s.set k { x with task := some (.running x.store (c.reconcile k x.store)) })
    | _ => none
  | (k, .answered) =>
    let x := s.keys k
    match x.task with
    | some (.running v (.ask q f)) =>
      let (server, r) := c.serve q s.server
      some ({ s with server }.set k { x with task := some (.running v (f r)) })
    | _ => none
  | (k, .refused m) =>
    let x := s.keys k
    match x.task with
    | some (.running v (.ask _ f)) => some (s.set k { x with task := some (.running v (f (c.failure m))) })
    | _ => none
  | (k, .lost m) =>
    let x := s.keys k
    match x.task with
    | some (.running v (.ask q f)) =>
      let (server, _) := c.serve q s.server
      some ({ s with server }.set k { x with task := some (.running v (f (c.failure m))) })
    | _ => none
  | (k, .finish) =>
    let x := s.keys k
    match x.task with
    | some (.running _ (.done _)) => some (s.set k { x with task := none })
    | some (.running _ (.fail _)) => some (s.set k { x with task := none, later := x.later + 1 })
    | _ => none

/-! ### What a step does -/

section Set

variable [DecidableEq K] (s : State K V S Q R ε) {k k' : K} (x : Key V Q R ε)

@[simp] theorem set_server : (s.set k x).server = s.server := rfl

@[simp] theorem set_keys_self : (s.set k x).keys k = x := Function.update_self ..

theorem set_keys_of_ne (h : k' ≠ k) : (s.set k x).keys k' = s.keys k' := Function.update_of_ne h ..

end Set

/-- What an event makes of a key, and how it asks the server. -/
inductive Step (c : Loop K V S Q R ε M W) (k : K) (x : Key V Q R ε) (s : S) : Event V M W → Key V Q R ε → S → Prop where
  | source (v : Option V) : Step c k x s (.source v) { x with source := v, watch := x.watch ++ [v] } s
  | write (w : W) : Step c k x s (.write w) x (c.write k w s)
  | skip {v w vs} (h : x.watch = v :: w :: vs) : Step c k x s .skip { x with watch := w :: vs } s
  | quiet {vs} (h : x.watch = none :: vs) (hs : x.store = none) :
    Step c k x s .deliver { x with watch := vs } s
  | deliver {v vs} (h : x.watch = v :: vs) (hs : v ≠ none ∨ x.store ≠ none) :
    Step c k x s .deliver { x with store := v, watch := vs, notices := x.notices + 1 } s
  | resync (h : x.store.isSome = true) : Step c k x s .resync { x with notices := x.notices + 1 } s
  | notify {n} (h : x.notices = n + 1) : Step c k x s .notify { x with notices := n, pending := true } s
  | due {n} (h : x.later = n + 1) : Step c k x s .due { x with later := n, pending := true } s
  | take (h : x.pending = true) (ht : x.task = none) :
    Step c k x s .take { x with pending := false, task := some .taken } s
  | read (h : x.task = some .taken) :
    Step c k x s .read { x with task := some (.running x.store (c.reconcile k x.store)) } s
  | answered {v q f} (h : x.task = some (.running v (.ask q f))) :
    Step c k x s .answered { x with task := some (.running v (f (c.serve q s).2)) } (c.serve q s).1
  | refused {v q f} (m : M) (h : x.task = some (.running v (.ask q f))) :
    Step c k x s (.refused m) { x with task := some (.running v (f (c.failure m))) } s
  | lost {v q f} (m : M) (h : x.task = some (.running v (.ask q f))) :
    Step c k x s (.lost m) { x with task := some (.running v (f (c.failure m))) } (c.serve q s).1
  | done {v} (h : x.task = some (.running v (.done ()))) : Step c k x s .finish { x with task := none } s
  | failed {v e} (h : x.task = some (.running v (.fail e))) :
    Step c k x s .finish { x with task := none, later := x.later + 1 } s

variable {c : Loop K V S Q R ε M W} {s s' : State K V S Q R ε} {k k' : K} {e : Event V M W}

/-- An event is one key's; it changes nothing of the others. -/
theorem step_cases [DecidableEq K] (h : step c s (k, e) = some s') :
    Step c k (s.keys k) s.server e (s'.keys k) s'.server ∧ ∀ k' ≠ k, s'.keys k' = s.keys k' := by
  have hset (server : S) (x : Key V Q R ε) : ∀ k' ≠ k, ({ s with server }.set k x).keys k' = s.keys k' :=
    fun k' hk => set_keys_of_ne _ x hk
  cases e with
  | source v =>
    cases h
    exact ⟨by simpa using .source v, hset _ _⟩
  | write w =>
    cases h
    exact ⟨.write w, fun _ _ => rfl⟩
  | skip =>
    simp only [step] at h
    split at h
    · rename_i hw
      cases h
      exact ⟨by simpa using .skip hw, hset _ _⟩
    · cases h
  | deliver =>
    simp only [step] at h
    split at h
    · cases h
    · rename_i v vs hw
      cases h
      refine ⟨?_, hset _ _⟩
      rw [set_keys_self, set_server]
      split
      · rename_i hnone
        rw [Bool.and_eq_true, Option.isNone_iff_eq_none, Option.isNone_iff_eq_none] at hnone
        obtain ⟨rfl, hs⟩ := hnone
        have hquiet : Step c k (s.keys k) s.server .deliver { s.keys k with watch := vs } s.server := .quiet hw hs
        rw [← hs]
        exact hquiet
      · rename_i hsome
        rw [Bool.and_eq_true, Option.isNone_iff_eq_none, Option.isNone_iff_eq_none] at hsome
        exact .deliver hw (Classical.not_and_iff_not_or_not.mp hsome)
  | resync =>
    simp only [step] at h
    split at h
    · rename_i hs
      cases h
      exact ⟨by simpa using .resync hs, hset _ _⟩
    · cases h
  | notify =>
    simp only [step] at h
    split at h
    · cases h
    · rename_i hn
      cases h
      exact ⟨by simpa using .notify hn, hset _ _⟩
  | due =>
    simp only [step] at h
    split at h
    · cases h
    · rename_i hn
      cases h
      exact ⟨by simpa using .due hn, hset _ _⟩
  | take =>
    simp only [step] at h
    split at h
    · rename_i hp ht
      cases h
      exact ⟨by simpa using .take hp ht, hset _ _⟩
    · cases h
  | read =>
    simp only [step] at h
    split at h
    · rename_i ht
      cases h
      exact ⟨by simpa using .read ht, hset _ _⟩
    · cases h
  | answered =>
    simp only [step] at h
    split at h
    · rename_i ht
      cases h
      exact ⟨by simpa using .answered ht, hset _ _⟩
    · cases h
  | refused m =>
    simp only [step] at h
    split at h
    · rename_i ht
      cases h
      exact ⟨by simpa using .refused m ht, hset _ _⟩
    · cases h
  | lost m =>
    simp only [step] at h
    split at h
    · rename_i ht
      cases h
      exact ⟨by simpa using .lost m ht, hset _ _⟩
    · cases h
  | finish =>
    simp only [step] at h
    split at h
    · rename_i ht
      cases h
      exact ⟨by simpa using .done ht, hset _ _⟩
    · rename_i ht
      cases h
      exact ⟨by simpa using .failed ht, hset _ _⟩
    · cases h

/-! ### Nothing is forgotten -/

/-- Nothing is left to do about a key. -/
structure Key.Rest (x : Key V Q R ε) : Prop where
  watch : x.watch = []
  notices : x.notices = 0
  pending : x.pending = false
  later : x.later = 0
  task : x.task = none

/-- Others wrote it after the store was last read for it. -/
def Disturbed (k : K) (es : List (K × Event V M W)) : Prop :=
  ∃ l w r, es = l ++ (k, .write w) :: r ∧ (k, .read) ∉ r

theorem disturbed_concat {es : List (K × Event V M W)} {d : K × Event V M W} :
    Disturbed k (es ++ [d]) ↔ (∃ w, d = (k, .write w)) ∨ Disturbed k es ∧ d ≠ (k, .read) := by
  constructor
  · rintro ⟨l, w, r, h, hr⟩
    rcases List.eq_nil_or_concat r with rfl | ⟨r, d', rfl⟩
    · exact .inl ⟨w, (List.append_inj' h rfl).2 |> List.singleton_inj.mp⟩
    · rw [List.concat_eq_append] at h hr
      rw [← List.cons_append, ← List.append_assoc] at h
      obtain ⟨rfl, hd⟩ := List.append_inj' h rfl
      obtain rfl := List.singleton_inj.mp hd
      rw [List.mem_append, not_or, List.mem_singleton] at hr
      exact .inr ⟨⟨l, w, r, rfl, hr.1⟩, Ne.symm hr.2⟩
  · rintro (⟨w, rfl⟩ | ⟨⟨l, w, r, rfl, hr⟩, hd⟩)
    · exact ⟨es, w, [], rfl, List.not_mem_nil⟩
    · refine ⟨l, w, r ++ [d], by simp, ?_⟩
      rw [List.mem_append, not_or, List.mem_singleton]
      exact ⟨hr, hd.symm⟩

/-- What is done about a key concerns only what is seen of the server at this key. -/
structure Framed (c : Loop K V S Q R ε M W) (view : K → S → X) : Prop where
  write : ∀ {k k'} w s, k' ≠ k → view k' (c.write k w s) = view k' s
  asks : ∀ {k k' v h q}, (c.reconcile k v).Asks h q → k' ≠ k → ∀ s, view k' (c.serve q s).1 = view k' s

/-- Done while the view is nobody else's, this fails or ends with `A`. -/
def Leads (c : Loop K V S Q R ε M W) (view : S → X) (A : X → Prop) : Interaction Q R ε Unit → X → Prop
  | .done _, x => A x
  | .fail _, _ => True
  | .ask q f, x => ∀ s, view s = x → Leads c view A (f (c.serve q s).2) (view (c.serve q s).1) ∧
      ∀ m, Leads c view A (f (c.failure m)) x ∧ Leads c view A (f (c.failure m)) (view (c.serve q s).1)

/-- What a worker has left to do is left of what is to be done about its key. -/
def Key.Left (c : Loop K V S Q R ε M W) (k : K) (x : Key V Q R ε) : Prop :=
  ∀ v todo, x.task = some (.running v todo) → (c.reconcile k v).Left todo

section Rest

variable (c) (view : K → S → X) (Agrees : K → Option V → X → Prop) (s₀ : S)

/-- Why a key is not forgotten. -/
inductive Handled (k : K) (es : List (K × Event V M W)) (x : Key V Q R ε) (s : S) : Prop where
  | noticed (h : 0 < x.notices)
  | pending (h : x.pending = true)
  | later (h : 0 < x.later)
  | taken (h : x.task = some .taken)
  /-- A worker is at it, with what the store has. -/
  | running {v todo} (h : x.task = some (.running v todo)) (hl : Leads c (view k) (Agrees k x.store) todo (view k s))
  | agrees (ht : x.task = none) (h : Agrees k x.store (view k s))
  /-- Nothing of it was ever in the store. -/
  | untouched (ht : x.task = none) (h : x.store = none) (hr : (k, .read) ∉ es) (hv : view k s = view k s₀)

/-- What holds of every state that a run reaches. -/
structure Inv (es : List (K × Event V M W)) (s : State K V S Q R ε) : Prop where
  latest : ∀ k, (s.keys k).watch.getLast?.getD (s.keys k).store = (s.keys k).source
  left : ∀ k, (s.keys k).Left c k
  handled : ∀ k, ¬ Disturbed k es → Handled c view Agrees s₀ k es (s.keys k) s.server

variable {c view Agrees s₀} {x x' : Key V Q R ε} {server server' : S} {es : List (K × Event V M W)}

/-- What is not read is as before. -/
theorem Handled.congr {d : K × Event V M W} (h : Handled c view Agrees s₀ k es x server)
    (hnotices : x'.notices = x.notices) (hpending : x'.pending = x.pending) (hlater : x'.later = x.later)
    (htask : x'.task = x.task) (hstore : x'.store = x.store) (hview : view k server' = view k server)
    (hd : d ≠ (k, .read)) : Handled c view Agrees s₀ k (es ++ [d]) x' server' := by
  cases h with
  | noticed h => exact .noticed (hnotices ▸ h)
  | pending h => exact .pending (hpending ▸ h)
  | later h => exact .later (hlater ▸ h)
  | taken h => exact .taken (htask.trans h)
  | running h hl => exact .running (htask.trans h) (by rwa [hstore, hview])
  | agrees ht h => exact .agrees (htask.trans ht) (by rwa [hstore, hview])
  | untouched ht h hr hv =>
    refine .untouched (htask.trans ht) (hstore.trans h) ?_ (hview.trans hv)
    rw [List.mem_append, not_or, List.mem_singleton]
    exact ⟨hr, hd.symm⟩

/-- A worker goes on with a key. -/
theorem Handled.goOn {v : Option V} {todo todo' : Interaction Q R ε Unit} {d : K × Event V M W}
    (h : Handled c view Agrees s₀ k es x server) (ht : x.task = some (.running v todo))
    (hl : Leads c (view k) (Agrees k x.store) todo (view k server) →
      Leads c (view k) (Agrees k x.store) todo' (view k server')) :
    Handled c view Agrees s₀ k (es ++ [d]) { x with task := some (.running v todo') } server' := by
  cases h with
  | noticed h => exact .noticed h
  | pending h => exact .pending h
  | later h => exact .later h
  | taken h => exact absurd (ht.symm.trans h) (by simp)
  | running h hleads =>
    obtain ⟨-, rfl⟩ : v = _ ∧ todo = _ := by simpa using ht.symm.trans h
    exact .running rfl (hl hleads)
  | agrees h => exact absurd (ht.symm.trans h) (by simp)
  | untouched h => exact absurd (ht.symm.trans h) (by simp)

/-- Its own events do not make a key forgotten; reading the store, it is taken care of anyway. -/
theorem handled_step (hleads : ∀ k v x, Leads c (view k) (Agrees k v) (c.reconcile k v) x)
    (hstep : Step c k x server e x' server') (hw : ∀ w, e ≠ .write w)
    (h : e = .read ∨ Handled c view Agrees s₀ k es x server) :
    Handled c view Agrees s₀ k (es ++ [(k, e)]) x' server' := by
  have handled (he : e ≠ .read) : Handled c view Agrees s₀ k es x server := h.resolve_left he
  cases hstep with
  | source v => exact (handled nofun).congr rfl rfl rfl rfl rfl rfl (by simp)
  | write w => exact absurd rfl (hw w)
  | skip => exact (handled nofun).congr rfl rfl rfl rfl rfl rfl (by simp)
  | quiet => exact (handled nofun).congr rfl rfl rfl rfl rfl rfl (by simp)
  | deliver => exact .noticed (Nat.succ_pos _)
  | resync => exact .noticed (Nat.succ_pos _)
  | notify => exact .pending rfl
  | due => exact .pending rfl
  | take => exact .taken rfl
  | read => exact .running rfl (hleads k x.store _)
  | answered ht => exact (handled nofun).goOn ht fun hl => (hl server rfl).1
  | refused m ht => exact (handled nofun).goOn ht fun hl => ((hl server rfl).2 m).1
  | lost m ht => exact (handled nofun).goOn ht fun hl => ((hl server rfl).2 m).2
  | done ht =>
    cases handled nofun with
    | noticed h => exact .noticed h
    | pending h => exact .pending h
    | later h => exact .later h
    | taken h => exact absurd (ht.symm.trans h) (by simp)
    | running h hl =>
      obtain ⟨-, rfl⟩ : _ ∧ Interaction.done () = _ := by simpa using ht.symm.trans h
      exact .agrees rfl hl
    | agrees h => exact absurd (ht.symm.trans h) (by simp)
    | untouched h => exact absurd (ht.symm.trans h) (by simp)
  | failed => exact .later (Nat.succ_pos _)

theorem Step.latest (hstep : Step c k x server e x' server') (h : x.watch.getLast?.getD x.store = x.source) :
    x'.watch.getLast?.getD x'.store = x'.source := by
  cases hstep with
  | source v => simp
  | skip hw => simpa [hw] using h
  | @quiet vs hw hs =>
    rw [hw] at h
    cases vs with
    | nil => simpa [hs] using h
    | cons => simpa using h
  | @deliver v vs hw =>
    rw [hw] at h
    cases vs with
    | nil => simpa using h
    | cons => simpa [List.getLast?_cons] using h
  | write | resync | notify | due | take | read | answered | refused | lost | done | failed => exact h

theorem Step.left (hstep : Step c k x server e x' server') (h : x.Left c k) : x'.Left c k := by
  intro v todo ht
  cases hstep with
  | take => simp at ht
  | read =>
    obtain ⟨rfl, rfl⟩ : _ ∧ c.reconcile k _ = _ := by simpa using ht
    exact .all
  | answered hx =>
    obtain ⟨rfl, rfl⟩ : _ ∧ _ = _ := by simpa using ht
    exact .after (h _ _ hx) _
  | refused m hx =>
    obtain ⟨rfl, rfl⟩ : _ ∧ _ = _ := by simpa using ht
    exact .after (h _ _ hx) _
  | lost m hx =>
    obtain ⟨rfl, rfl⟩ : _ ∧ _ = _ := by simpa using ht
    exact .after (h _ _ hx) _
  | done | failed => simp at ht
  | source | write | skip | quiet | deliver | resync | notify | due => exact h v todo ht

/-- The other keys see nothing of it. -/
theorem Step.frame (hframe : Framed c view) (hstep : Step c k x server e x' server') (h : x.Left c k) (hk : k' ≠ k) :
    view k' server' = view k' server := by
  cases hstep with
  | write w => exact hframe.write w server hk
  | answered hx =>
    obtain ⟨past, hq⟩ := (h _ _ hx).asks .here
    exact hframe.asks hq hk server
  | lost m hx =>
    obtain ⟨past, hq⟩ := (h _ _ hx).asks .here
    exact hframe.asks hq hk server
  | source | skip | quiet | deliver | resync | notify | due | take | read | refused | done | failed => rfl

theorem inv_init : Inv c view Agrees s₀ [] (init s₀) where
  latest _ := rfl
  left k v todo h := absurd h (by simp [init, Key.init])
  handled _ _ := .untouched rfl rfl List.not_mem_nil rfl

theorem inv_step [DecidableEq K] (hframe : Framed c view)
    (hleads : ∀ k v x, Leads c (view k) (Agrees k v) (c.reconcile k v) x)
    (h : Inv c view Agrees s₀ es s) (hstep : step c s (k, e) = some s') :
    Inv c view Agrees s₀ (es ++ [(k, e)]) s' := by
  obtain ⟨hown, hothers⟩ := step_cases hstep
  refine ⟨fun k' => ?_, fun k' => ?_, fun k' hd => ?_⟩
  · by_cases hk : k' = k
    · exact hk ▸ hown.latest (h.latest k)
    · exact hothers k' hk ▸ h.latest k'
  · by_cases hk : k' = k
    · exact hk ▸ hown.left (h.left k)
    · exact hothers k' hk ▸ h.left k'
  · rw [disturbed_concat, not_or, not_and_not_right] at hd
    by_cases hk : k' = k
    · subst hk
      refine handled_step hleads hown (fun w he => hd.1 ⟨w, by rw [he]⟩) ?_
      by_cases hread : e = .read
      · exact .inl hread
      · exact .inr (h.handled k' fun hdist => hread (by simpa using hd.2 hdist))
    · have hne : ((k, e) : K × Event V M W) ≠ (k', .read) := fun heq => hk (congrArg Prod.fst heq).symm
      rw [hothers k' hk]
      refine (h.handled k' fun hdist => hne (hd.2 hdist)).congr rfl rfl rfl rfl rfl ?_ hne
      exact hown.frame hframe (h.left k) hk

theorem inv_run [DecidableEq K] (hframe : Framed c view)
    (hleads : ∀ k v x, Leads c (view k) (Agrees k v) (c.reconcile k v) x)
    (h : run (step c) (init s₀) es = some s) : Inv c view Agrees s₀ es s := by
  induction es using List.reverseRecOn generalizing s with
  | nil => exact Option.some_inj.mp h ▸ inv_init
  | append_singleton es d ih =>
    obtain ⟨t, ht, hs⟩ := run_append_eq_some.mp h
    obtain ⟨u, hu, hs⟩ := run_cons_eq_some.mp hs
    obtain rfl : u = s := Option.some_inj.mp hs
    exact inv_step hframe hleads (ih ht) hu

/-- When nothing is left to do about a key that nobody disturbed, what was to be brought in line agrees with the
source, or was never touched, as there was nothing to watch. -/
theorem agrees_of_rest [DecidableEq K] (hframe : Framed c view)
    (hleads : ∀ k v x, Leads c (view k) (Agrees k v) (c.reconcile k v) x)
    (h : run (step c) (init s₀) es = some s) (hrest : (s.keys k).Rest) (hd : ¬ Disturbed k es) :
    Agrees k (s.keys k).source (view k s.server) ∨
      (s.keys k).source = none ∧ (k, .read) ∉ es ∧ view k s.server = view k s₀ := by
  have hinv := inv_run hframe hleads h
  have hlatest := hinv.latest k
  rw [hrest.watch] at hlatest
  have hsource : (s.keys k).store = (s.keys k).source := hlatest
  rw [← hsource]
  cases hinv.handled k hd with
  | noticed h => exact absurd hrest.notices (Nat.ne_of_gt h)
  | pending h => exact absurd (hrest.pending.symm.trans h) (by simp)
  | later h => exact absurd hrest.later (Nat.ne_of_gt h)
  | taken h => exact absurd (hrest.task.symm.trans h) (by simp)
  | running h => exact absurd (hrest.task.symm.trans h) (by simp)
  | agrees _ h => exact .inl h
  | untouched _ h hr hv => exact .inr ⟨h, hr, hv⟩

end Rest

/-! ### Where keys come from -/

/-- A key is looked at only after it had a source, and nothing is heard of a source but what was written. -/
structure Known (k : K) (es : List (K × Event V M W)) (x : Key V Q R ε) : Prop where
  watch : ∀ v, some v ∈ x.watch → (k, .source (some v)) ∈ es
  store : ∀ v, x.store = some v → (k, .source (some v)) ∈ es
  task : ∀ v todo, x.task = some (.running (some v) todo) → (k, .source (some v)) ∈ es
  idle : (∀ v, (k, .source (some v)) ∉ es) → x.notices = 0 ∧ x.pending = false ∧ x.later = 0 ∧ x.task = none

section Known

variable {x x' : Key V Q R ε} {server server' : S} {es es' : List (K × Event V M W)}

theorem Known.mono (h : Known k es x) (hes : es ⊆ es') : Known k es' x where
  watch v hv := hes (h.watch v hv)
  store v hv := hes (h.store v hv)
  task v todo ht := hes (h.task v todo ht)
  idle hno := h.idle fun v hv => hno v (hes hv)

/-- A worker goes on with what it read. -/
theorem Known.goOn {v : Option V} {todo todo' : Interaction Q R ε Unit} (h : Known k es x)
    (ht : x.task = some (.running v todo)) : Known k es { x with task := some (.running v todo') } where
  watch := h.watch
  store := h.store
  task u _ hu := by
    obtain ⟨rfl, -⟩ : v = some u ∧ _ := by simpa using hu
    exact h.task u todo ht
  idle hno := absurd (ht.symm.trans (h.idle hno).2.2.2) (by simp)

/-- A worker ends with it. -/
theorem Known.goes {task : Task V Q R ε} {later : ℕ} (h : Known k es x) (ht : x.task = some task) :
    Known k es ({ x with task := none, later } : Key V Q R ε) where
  watch := h.watch
  store := h.store
  task _ _ hu := absurd hu.symm (Option.some_ne_none _)
  idle hno := absurd (ht.symm.trans (h.idle hno).2.2.2) (Option.some_ne_none task)

theorem Step.known (hstep : Step c k x server e x' server') (h : Known k es x) : Known k (es ++ [(k, e)]) x' := by
  have h := h.mono (List.subset_append_left es [(k, e)])
  cases hstep with
  | source v =>
    refine ⟨fun u hu => ?_, h.store, h.task, h.idle⟩
    rcases List.mem_append.mp hu with hu | hu
    · exact h.watch u hu
    · obtain rfl : some u = v := List.mem_singleton.mp hu
      exact List.mem_append_right es (List.mem_singleton_self _)
  | write => exact h
  | skip hw => exact ⟨fun u hu => h.watch u (hw ▸ List.mem_cons_of_mem _ hu), h.store, h.task, h.idle⟩
  | quiet hw => exact ⟨fun u hu => h.watch u (hw ▸ List.mem_cons_of_mem _ hu), h.store, h.task, h.idle⟩
  | @deliver v vs hw hsome =>
    have hwatch (u : V) (hu : some u ∈ v :: vs) : (k, .source (some u)) ∈ es ++ [(k, .deliver)] := h.watch u (hw ▸ hu)
    refine ⟨fun u hu => hwatch u (List.mem_cons_of_mem v hu), fun u hu => hwatch u (hu ▸ List.mem_cons_self), h.task,
      fun hno => ?_⟩
    rcases hsome with hv | hs
    · obtain ⟨u, rfl⟩ := Option.ne_none_iff_exists'.mp hv
      exact absurd (hwatch u List.mem_cons_self) (hno u)
    · obtain ⟨u, hu⟩ := Option.ne_none_iff_exists'.mp hs
      exact absurd (h.store u hu) (hno u)
  | resync hs =>
    refine ⟨h.watch, h.store, h.task, fun hno => ?_⟩
    obtain ⟨u, hu⟩ := Option.isSome_iff_exists.mp hs
    exact absurd (h.store u hu) (hno u)
  | notify hn => exact ⟨h.watch, h.store, h.task, fun hno => absurd (hn.symm.trans (h.idle hno).1) (by simp)⟩
  | due hn => exact ⟨h.watch, h.store, h.task, fun hno => absurd (hn.symm.trans (h.idle hno).2.2.1) (by simp)⟩
  | take hp =>
    exact ⟨h.watch, h.store, fun _ _ hu => absurd hu (by simp),
      fun hno => absurd (hp.symm.trans (h.idle hno).2.1) (by simp)⟩
  | read ht =>
    refine ⟨h.watch, h.store, fun u todo hu => ?_, fun hno => absurd (ht.symm.trans (h.idle hno).2.2.2) (by simp)⟩
    obtain ⟨hs, -⟩ : x.store = some u ∧ _ := by simpa using hu
    exact h.store u hs
  | answered ht => exact h.goOn ht
  | refused m ht => exact h.goOn ht
  | lost m ht => exact h.goOn ht
  | done ht => exact h.goes ht
  | failed ht => exact h.goes ht

theorem known_run [DecidableEq K] {s₀ : S} (h : run (step c) (init s₀) es = some s) (k : K) :
    Known k es (s.keys k) := by
  induction es using List.reverseRecOn generalizing s with
  | nil =>
    obtain rfl : init s₀ = s := Option.some_inj.mp h
    exact ⟨fun _ hv => absurd hv List.not_mem_nil, fun _ hv => absurd hv (by simp [init, Key.init]),
      fun _ _ hv => absurd hv (by simp [init, Key.init]), fun _ => ⟨rfl, rfl, rfl, rfl⟩⟩
  | append_singleton es d ih =>
    obtain ⟨t, ht, hs⟩ := run_append_eq_some.mp h
    obtain ⟨u, hu, hs⟩ := run_cons_eq_some.mp hs
    obtain rfl : u = s := Option.some_inj.mp hs
    obtain ⟨hown, hothers⟩ := step_cases hu
    by_cases hk : k = d.1
    · subst hk
      exact hown.known (ih ht)
    · exact hothers k hk ▸ (ih ht).mono (List.subset_append_left es [d])

end Known

/-! ### There is an end to it -/

/-- What goes on by itself when nobody disturbs it and each request is answered. -/
def Event.own : Event V M W → Bool
  | .skip | .deliver | .notify | .due | .take | .read | .answered | .finish => true
  | .source _ | .write _ | .resync | .refused _ | .lost _ => false

/-- Whatever is answered, it asks at most so often. -/
def Bounded : Interaction Q R ε Unit → ℕ → Prop
  | .done _, _ => True
  | .fail _, _ => True
  | .ask _ f, n => ∃ m, n = m + 1 ∧ ∀ r, Bounded (f r) m

/-- Answered while the view is nobody else's, it does not fail, and asks at most so often. -/
def Succeeds (c : Loop K V S Q R ε M W) (view : S → X) : Interaction Q R ε Unit → ℕ → X → Prop
  | .done _, _, _ => True
  | .fail _, _, _ => False
  | .ask q f, n, x => ∃ m, n = m + 1 ∧
      ∀ s, view s = x → Succeeds c view (f (c.serve q s).2) m (view (c.serve q s).1)

/-- How many steps there are at most for what is not with a worker yet, if what is done about a key asks at most `b`
times. -/
def Key.queued (b : ℕ) (x : Key V Q R ε) : ℕ :=
  (b + 5) * x.watch.length + (b + 4) * (x.notices + x.later) + (b + 3) * x.pending.toNat

/-- How many steps a key has left at most. -/
def Key.budget (b : ℕ) (x : Key V Q R ε) : ℕ := x.queued b + if x.task.isSome then 2 * b + 5 else 0

section Budget

variable (c) (view : S → X) (b : ℕ)

/-- A bound on the steps that a worker has left, and on those after a failure. -/
inductive TaskBudget (x : X) : Option (Task V Q R ε) → ℕ → Prop where
  | idle {n} : TaskBudget x none n
  | taken {n} (h : b + 2 ≤ n) : TaskBudget x (some .taken) n
  | succeeds {v todo m n} (ht : Succeeds c view todo m x) (h : m < n) : TaskBudget x (some (.running v todo)) n
  | fails {v todo m n} (ht : Bounded todo m) (h : m + b + 4 < n) : TaskBudget x (some (.running v todo)) n

/-- A bound on the steps that a key has left. -/
def Budget (x : Key V Q R ε) (s : S) (n : ℕ) : Prop :=
  ∃ t, TaskBudget c view b (view s) x.task t ∧ x.queued b + t ≤ n

variable {c view b} {k : K} {x x' : Key V Q R ε} {s s' : S} {e : Event V M W} {n t t' : ℕ}

theorem budget_less (hn : x.queued b + t ≤ n) (ht : TaskBudget c view b (view s') x'.task t')
    (hlt : x'.queued b + t' < x.queued b + t) : ∃ m, n = m + 1 ∧ Budget c view b x' s' m :=
  ⟨n - 1, by omega, t', ht, by omega⟩

/-- Each step of its own is one less. -/
theorem Budget.step (hsucceeds : ∀ v x, Succeeds c view (c.reconcile k v) b x) (hstep : Step c k x s e x' s')
    (he : e.own = true) (h : Budget c view b x s n) : ∃ m, n = m + 1 ∧ Budget c view b x' s' m := by
  obtain ⟨t, ht, hn⟩ := h
  cases hstep with
  | source | write | resync | refused | lost => simp [Event.own] at he
  | skip hw =>
    refine budget_less hn ht (Nat.add_lt_add_right ?_ t)
    simp only [Key.queued, hw, List.length_cons, Nat.mul_add]
    omega
  | quiet hw =>
    refine budget_less hn ht (Nat.add_lt_add_right ?_ t)
    simp only [Key.queued, hw, List.length_cons, Nat.mul_add]
    omega
  | deliver hw =>
    refine budget_less hn ht (Nat.add_lt_add_right ?_ t)
    simp only [Key.queued, hw, List.length_cons, Nat.mul_add]
    omega
  | notify hx =>
    refine budget_less hn ht (Nat.add_lt_add_right ?_ t)
    simp only [Key.queued, hx, Nat.mul_add, Bool.toNat_true]
    omega
  | due hx =>
    refine budget_less hn ht (Nat.add_lt_add_right ?_ t)
    simp only [Key.queued, hx, Nat.mul_add, Bool.toNat_true]
    omega
  | take hp =>
    refine budget_less hn (.taken (Nat.le_refl _)) ?_
    simp only [Key.queued, hp, Bool.toNat_true, Bool.toNat_false]
    omega
  | read hx =>
    rw [hx] at ht
    cases ht with
    | taken h =>
      have hlt : b + 1 < t := h
      exact budget_less hn (.succeeds (hsucceeds _ _) (Nat.lt_succ_self b)) (Nat.add_lt_add_left hlt _)
  | answered hx =>
    rw [hx] at ht
    cases ht with
    | succeeds ht h =>
      obtain ⟨m, rfl, hm⟩ := ht
      exact budget_less hn (.succeeds (hm s rfl) (Nat.lt_succ_self m)) (Nat.add_lt_add_left h _)
    | fails ht h =>
      obtain ⟨m, rfl, hm⟩ := ht
      have hlt : m + b + 5 < t := by omega
      exact budget_less hn (.fails (hm _) (Nat.lt_succ_self _)) (Nat.add_lt_add_left hlt _)
  | done hx =>
    rw [hx] at ht
    have hpos : 0 < t := by
      cases ht with
      | succeeds _ h => exact Nat.zero_lt_of_lt h
      | fails _ h => exact Nat.zero_lt_of_lt h
    exact budget_less hn .idle (Nat.add_lt_add_left hpos _)
  | failed hx =>
    rw [hx] at ht
    cases ht with
    | succeeds ht => exact ht.elim
    | fails _ h =>
      refine budget_less hn (@TaskBudget.idle _ _ _ _ _ _ _ _ _ _ _ _ _ 0) ?_
      simp only [Key.queued, Nat.mul_add]
      omega

end Budget

/-- What is left of it asks no oftener. -/
theorem Bounded.left {t u : Interaction Q R ε Unit} {n : ℕ} (h : Bounded t n) (hu : t.Left u) :
    ∃ m ≤ n, Bounded u m := by
  induction hu with
  | all => exact ⟨n, Nat.le_refl n, h⟩
  | after _ r ih =>
    obtain ⟨_, hle, m, rfl, hm⟩ := ih
    exact ⟨m, Nat.le_of_succ_le hle, hm r⟩

/-- The budget of a key is one, if what is done about it asks no oftener. -/
theorem budget_of_left {view : S → X} {b : ℕ} {x : Key V Q R ε} {server : S} (hb : ∀ v, Bounded (c.reconcile k v) b)
    (hx : x.Left c k) : Budget c view b x server (x.budget b) := by
  have key (n : ℕ) (h : TaskBudget c view b (view server) x.task n) (hn : x.task.isSome → n = 2 * b + 5)
      (h0 : x.task = none → n = 0) : Budget c view b x server (x.budget b) := by
    refine ⟨n, h, ?_⟩
    rw [Key.budget]
    cases ht : x.task with
    | none => simp [h0 ht]
    | some _ => simp [hn (by simp [ht])]
  rcases ht : x.task with _ | _ | ⟨v, todo⟩
  · exact key 0 (ht ▸ .idle) (by simp [ht]) fun _ => rfl
  · exact key (2 * b + 5) (ht ▸ .taken (by omega)) (fun _ => rfl) (by simp [ht])
  · obtain ⟨m, hm, hbounded⟩ := (hb v).left (hx v todo ht)
    exact key (2 * b + 5) (ht ▸ .fails hbounded (by omega)) (fun _ => rfl) (by simp [ht])

/-- Where no step of its own is left for a key, nothing is. -/
theorem rest_of_none [DecidableEq K] (h : ∀ e : Event V M W, e.own = true → step c s (k, e) = none) :
    (s.keys k).Rest := by
  have htask : (s.keys k).task = none := by
    rcases ht : (s.keys k).task with _ | _ | ⟨v, _ | _ | _⟩
    · rfl
    · simpa [step, ht] using h .read rfl
    · simpa [step, ht] using h .finish rfl
    · simpa [step, ht] using h .finish rfl
    · simpa [step, ht] using h .answered rfl
  refine ⟨?_, ?_, ?_, ?_, htask⟩
  · cases hw : (s.keys k).watch with
    | nil => rfl
    | cons v vs => simpa [step, hw] using h .deliver rfl
  · cases hn : (s.keys k).notices with
    | zero => rfl
    | succ n => simpa [step, hn] using h .notify rfl
  · cases hp : (s.keys k).pending with
    | false => rfl
    | true => simpa [step, hp, htask] using h .take rfl
  · cases hn : (s.keys k).later with
    | zero => rfl
    | succ n => simpa [step, hn] using h .due rfl

section Settles

variable [DecidableEq K] {view : K → S → X} {Agrees : K → Option V → X → Prop} {s₀ : S} {b n : ℕ}
  {t : State K V S Q R ε} {es es' : List (K × Event V M W)}

/-- While nobody disturbs a key, its own steps are within its budget, whatever happens to the others. -/
theorem countP_le (hframe : Framed c view) (hsucceeds : ∀ k v x, Succeeds c (view k) (c.reconcile k v) b x)
    (hleft : ∀ k, (s.keys k).Left c k) (hquiet : ∀ d ∈ es, d.1 = k → d.2.own = true)
    (hrun : run (step c) s es = some t) (h : Budget c (view k) b (s.keys k) s.server n) :
    es.countP (·.1 = k) ≤ n := by
  induction es generalizing s n with
  | nil => exact Nat.zero_le n
  | cons d es ih =>
    obtain ⟨u, hu, hrun⟩ := run_cons_eq_some.mp hrun
    obtain ⟨hown, hothers⟩ := step_cases hu
    have hleft' : ∀ k, (u.keys k).Left c k := by
      intro k'
      by_cases hk : k' = d.1
      · exact hk ▸ hown.left (hleft d.1)
      · exact hothers k' hk ▸ hleft k'
    have hquiet' : ∀ d ∈ es, d.1 = k → d.2.own = true := fun d' hd => hquiet d' (List.mem_cons_of_mem d hd)
    by_cases hk : d.1 = k
    · subst hk
      obtain ⟨m, rfl, hm⟩ := h.step (hsucceeds d.1) hown (hquiet d List.mem_cons_self rfl)
      rw [List.countP_cons_of_pos (by simp)]
      exact Nat.succ_le_succ (ih hleft' hquiet' hrun hm)
    · rw [List.countP_cons_of_neg (by simpa using hk)]
      refine ih hleft' hquiet' hrun ?_
      rw [hothers k (Ne.symm hk)]
      obtain ⟨m, hm, hn⟩ := h
      exact ⟨m, by rwa [hown.frame hframe (hleft d.1) (Ne.symm hk)], hn⟩

/-- From any state that a run reaches: if nobody disturbs a key any more and its requests are answered, it takes so
many steps at most, and where it takes no more, nothing is left to do. -/
theorem settles (hframe : Framed c view) (hb : ∀ k v, Bounded (c.reconcile k v) b)
    (hsucceeds : ∀ k v x, Succeeds c (view k) (c.reconcile k v) b x) (hinv : Inv c view Agrees s₀ es s)
    (hquiet : ∀ d ∈ es', d.1 = k → d.2.own = true) (hrun : run (step c) s es' = some t) :
    es'.countP (·.1 = k) ≤ (s.keys k).budget b ∧
      ((∀ e : Event V M W, e.own = true → step c t (k, e) = none) → (t.keys k).Rest) :=
  ⟨countP_le hframe hsucceeds hinv.left hquiet hrun (budget_of_left (hb k) (hinv.left k)), rest_of_none⟩

end Settles

end OpenshiftConsole.Library.ControlLoop
