import Mathlib.Data.Set.Function
import Mathlib.Logic.Function.Basic
import OpenshiftConsole.ExternalDns.Handlers

/-!
# The DNS backend's cache

`cachedFetch` answers a question from the cache while its entry has not expired, and has it
resolved again in the background once half of its time is over; otherwise it resolves the
question itself, under the context of the request it serves, and keeps the result. Questions to
the cluster's own resolver bypass the cache.

How long a question takes to resolve, and what comes of it, is the environment's doing, and so is
when the context of a caller ends; a context that ends first breaks off what is resolved under it.
A run is what happens tick by tick, given what is asked at each tick. What is under way is kept
with the time at which it will have ended. Which question a result was got for is not in the
source; it is recorded with each entry and answer.

Two things are asked of the cache. An answer should be to the question that was asked: that is so
exactly as long as different questions have different keys (`answers_own_iff`). And the end of
one caller's context should not show in the answer to another: that is so as long as no context
ends under which something is resolved that the cache keeps (`same_answer`).
-/

namespace OpenshiftConsole.ExternalDns.Cache

open OpenshiftConsole.Library.Lines (Text)

/-! ### Time -/

/-- A second, in nanoseconds. -/
def second : ℕ := 1000000000

/-- `lookupTimeout` -/
def lookupTimeout : ℕ := 5 * second

/-- `minCacheTTL` -/
def minCacheTTL : ℕ := 30 * second

/-- `maxCacheTTL` -/
def maxCacheTTL : ℕ := 30 * 60 * second

/-- `fallbackCacheTTL` -/
def fallbackCacheTTL : ℕ := 5 * 60 * second

/-- `clampCacheTTL` -/
def clampCacheTTL (ttl : ℕ) : ℕ :=
  if ttl < minCacheTTL then minCacheTTL else if ttl > maxCacheTTL then maxCacheTTL else ttl

/-! ### Resolving -/

/-- What `resolve` returns. -/
structure Resolution (T : Type*) where
  result : T
  ttl : ℕ

structure Env (T : Type*) where
  /-- What comes of a question that is resolved from a time on, if the context lives. -/
  resolve : Pair → ℕ → Resolution T
  /-- How long that takes. -/
  latency : Pair → ℕ → ℕ
  /-- What comes of it if the context ends before, at a later time. -/
  broken : Pair → ℕ → ℕ → Resolution T

/-- Something is being resolved, and will have ended at `finish`. -/
structure Flight (T : Type*) where
  pair : Pair
  finish : ℕ
  /-- The context lives until then. -/
  alive : Bool
  resolution : Resolution T

variable {T : Type*}

/-- A call of `resolve` at a time, under a context that may end. -/
def Env.fly (env : Env T) (ends : Option ℕ) (p : Pair) (t : ℕ) : Flight T :=
  match ends with
  | none => ⟨p, t + env.latency p t, true, env.resolve p t⟩
  | some d =>
    if t + env.latency p t ≤ d then ⟨p, t + env.latency p t, true, env.resolve p t⟩
    else ⟨p, max t d, false, env.broken p t (max t d)⟩

/-! ### The cache -/

structure Request where
  /-- The context of the caller. -/
  ctx : ℕ
  pair : Pair
deriving DecidableEq

/-- A request that was made: the how manieth it is, and when. -/
structure Asked where
  number : ℕ
  time : ℕ
  request : Request
deriving DecidableEq

/-- `cacheEntry`, and the question it was got for. -/
structure Entry (T : Type*) where
  result : T
  ttl : ℕ
  fetchedAt : ℕ
  resolved : Pair

/-- An answer, when it was given, and the question it was got for. -/
structure Answer (T : Type*) where
  asked : Asked
  answeredAt : ℕ
  resolved : Pair
  result : T
deriving DecidableEq

/-- `expired` -/
def Entry.expired (e : Entry T) (t : ℕ) : Bool := e.ttl ≤ t - e.fetchedAt

/-- `stale` -/
def Entry.stale (e : Entry T) (t : ℕ) : Bool := e.ttl / 2 ≤ t - e.fetchedAt

/-- Something is resolved for the cache: for a request that waits for it, or in the background. -/
structure Work (T : Type*) where
  flight : Flight T
  waiting : Option Asked

/-- `resultCache`, what is resolved for it, and what was answered through it. -/
structure Shared (T : Type*) where
  entries : Text → Option (Entry T)
  refreshing : List Text
  work : List (Work T)
  answers : ℕ → Option (Answer T)

/-- What bypasses the cache. -/
structure Direct (T : Type*) where
  work : List (Flight T × Asked)
  answers : ℕ → Option (Answer T)

structure State (T : Type*) where
  /-- The requests there were. -/
  asked : List Asked
  shared : Shared T
  direct : Direct T

def State.init : State T where
  asked := []
  shared := ⟨fun _ => none, [], [], fun _ => none⟩
  direct := ⟨[], fun _ => none⟩

/-- The answer to a request. -/
def State.answer (s : State T) (n : ℕ) : Option (Answer T) := (s.shared.answers n).orElse fun _ => s.direct.answers n

/-- A request is answered. -/
def Shared.reply (c : Shared T) (a : Answer T) : Shared T :=
  { c with answers := Function.update c.answers a.asked.number (some a) }

/-- What was resolved is kept, and given to the request that waits for it. -/
def Shared.complete (t : ℕ) (c : Shared T) (w : Work T) : Shared T :=
  let f := w.flight
  let c := { c with
    entries := Function.update c.entries (cacheKey f.pair) (some ⟨f.resolution.result, f.resolution.ttl, t, f.pair⟩) }
  match w.waiting with
  | some a => c.reply ⟨a, t, f.pair, f.resolution.result⟩
  | none => { c with refreshing := c.refreshing.filter (· ≠ cacheKey f.pair) }

/-- `refreshInBackground` -/
def Shared.refreshInBackground (env : Env T) (t : ℕ) (p : Pair) (c : Shared T) : Shared T :=
  if cacheKey p ∈ c.refreshing then c
  else { c with
    refreshing := cacheKey p :: c.refreshing
    work := c.work ++ [⟨env.fly (some (t + lookupTimeout)) p t, none⟩] }

/-- The call of `resolve` that `cachedFetch` waits for. -/
def Shared.fetch (env : Env T) (ends : Option ℕ) (a : Asked) (c : Shared T) : Shared T :=
  { c with work := c.work ++ [⟨env.fly ends a.request.pair a.time, some a⟩] }

/-- `cachedFetch`, if the cache is not skipped. -/
def Shared.cachedFetch (env : Env T) (ends : Option ℕ) (a : Asked) (c : Shared T) : Shared T :=
  match c.entries (cacheKey a.request.pair) with
  | none => c.fetch env ends a
  | some e =>
    if e.expired a.time then c.fetch env ends a
    else
      let c := if e.stale a.time then c.refreshInBackground env a.time a.request.pair else c
      c.reply ⟨a, a.time, e.resolved, e.result⟩

variable (cfg : Config) (env : Env T) (ends : ℕ → Option ℕ)

/-- `cachedLookupHostname`, or `cachedResolveDNSSettings`, at a time. -/
def lookup (t : ℕ) (s : State T) (r : Request) : State T :=
  let a : Asked := ⟨s.asked.length, t, r⟩
  let s := { s with asked := s.asked ++ [a] }
  if isInternalClusterResolver cfg r.pair.resolver then
    { s with direct := { s.direct with work := s.direct.work ++ [(env.fly (ends r.ctx) r.pair t, a)] } }
  else { s with shared := s.shared.cachedFetch env (ends r.ctx) a }

/-- What has ended by a time. -/
def Shared.settle (t : ℕ) (c : Shared T) : Shared T :=
  (c.work.filter (·.flight.finish ≤ t)).foldl (Shared.complete t)
    { c with work := c.work.filter (t < ·.flight.finish) }

def Direct.settle (t : ℕ) (d : Direct T) : Direct T where
  work := d.work.filter (t < ·.1.finish)
  answers := (d.work.filter (·.1.finish ≤ t)).foldl
    (fun answers w => Function.update answers w.2.number (some ⟨w.2, t, w.1.pair, w.1.resolution.result⟩)) d.answers

/-- What happens at a tick: what has ended is taken up, and what is asked is looked up. -/
def tick (schedule : ℕ → List Request) (t : ℕ) (s : State T) : State T :=
  (schedule t).foldl (lookup cfg env ends t) { s with shared := s.shared.settle t, direct := s.direct.settle t }

/-- The state after each tick. -/
def run (schedule : ℕ → List Request) : ℕ → State T
  | 0 => tick cfg env ends schedule 0 .init
  | t + 1 => tick cfg env ends schedule (t + 1) (run schedule t)

/-! ### Answers to the question that was asked -/

@[simp] theorem fly_pair (ends : Option ℕ) (p : Pair) (t : ℕ) : (env.fly ends p t).pair = p := by
  unfold Env.fly
  split
  · rfl
  · split <;> rfl

/-- What is kept is kept under the key of its own question, and so will be what is under way. -/
structure Shared.Own (P : Pair → Prop) (c : Shared T) : Prop where
  entries : ∀ k e, c.entries k = some e → cacheKey e.resolved = k ∧ P e.resolved
  work : ∀ w ∈ c.work, P w.flight.pair ∧ ∀ a, w.waiting = some a → w.flight.pair = a.request.pair
  answers : ∀ n a, c.answers n = some a → a.resolved = a.asked.request.pair

section Own

variable {env : Env T} {P : Pair → Prop} {c : Shared T}

theorem Shared.Own.reply (h : c.Own P) {a : Answer T} (ha : a.resolved = a.asked.request.pair) : (c.reply a).Own P where
  entries := h.entries
  work := h.work
  answers n b hb := by
    by_cases hn : n = a.asked.number
    · subst hn
      obtain rfl : a = b := by simpa [Shared.reply] using hb
      exact ha
    · exact h.answers n b (by simpa [Shared.reply, Function.update_of_ne hn] using hb)

theorem Shared.Own.keep (h : c.Own P) {e : Entry T} (he : P e.resolved) :
    Shared.Own P { c with entries := Function.update c.entries (cacheKey e.resolved) (some e) } where
  entries k b hb := by
    by_cases hk : k = cacheKey e.resolved
    · subst hk
      obtain rfl : e = b := by simpa using hb
      exact ⟨rfl, he⟩
    · exact h.entries k b (by simpa [Function.update_of_ne hk] using hb)
  work := h.work
  answers := h.answers

theorem Shared.Own.complete (h : c.Own P) {t : ℕ} {w : Work T} (hw : P w.flight.pair)
    (ha : ∀ a, w.waiting = some a → w.flight.pair = a.request.pair) : (c.complete t w).Own P := by
  have hk := h.keep (e := ⟨w.flight.resolution.result, w.flight.resolution.ttl, t, w.flight.pair⟩) hw
  rw [Shared.complete]
  split
  · rename_i a haw
    exact hk.reply (ha a haw)
  · exact ⟨hk.entries, hk.work, hk.answers⟩

theorem Shared.Own.start (h : c.Own P) {w : Work T} (hw : P w.flight.pair)
    (ha : ∀ a, w.waiting = some a → w.flight.pair = a.request.pair) : Shared.Own P { c with work := c.work ++ [w] } where
  entries := h.entries
  work v hv := by
    rcases List.mem_append.mp hv with hv | hv
    · exact h.work v hv
    · obtain rfl := List.mem_singleton.mp hv
      exact ⟨hw, ha⟩
  answers := h.answers

theorem Shared.Own.refreshInBackground (h : c.Own P) {t : ℕ} {p : Pair} (hp : P p) :
    (c.refreshInBackground env t p).Own P := by
  rw [Shared.refreshInBackground]
  split
  · exact h
  · have hs := h.start (w := ⟨env.fly (some (t + lookupTimeout)) p t, none⟩) (by simpa using hp) (fun a ha => by cases ha)
    exact ⟨hs.entries, hs.work, hs.answers⟩

theorem Shared.Own.cachedFetch (h : c.Own P) (hinj : ∀ p q, P p → P q → cacheKey p = cacheKey q → p = q)
    {ends : Option ℕ} {a : Asked} (ha : P a.request.pair) : (c.cachedFetch env ends a).Own P := by
  have hfetch : (c.fetch env ends a).Own P := by
    apply h.start
    · simpa using ha
    · intro b hb
      cases hb
      exact fly_pair env ends _ _
  rw [Shared.cachedFetch]
  split
  · exact hfetch
  · rename_i e he
    obtain ⟨hk, hp⟩ := h.entries _ e he
    have hr := hinj _ _ hp ha hk
    split
    · exact hfetch
    · split
      · exact (h.refreshInBackground ha).reply hr
      · exact h.reply hr

theorem Shared.Own.settle (h : c.Own P) (t : ℕ) : (c.settle t).Own P := by
  rw [Shared.settle]
  refine List.foldlRecOn _ _ ?_ (fun b hb w hw => ?_)
  · exact ⟨h.entries, fun w hw => h.work w (List.mem_filter.mp hw).1, h.answers⟩
  · obtain ⟨hp, ha⟩ := h.work w (List.mem_filter.mp hw).1
    exact hb.complete hp ha

/-- What bypasses the cache answers its own question. -/
structure Direct.Own (d : Direct T) : Prop where
  work : ∀ w ∈ d.work, w.1.pair = w.2.request.pair
  answers : ∀ n a, d.answers n = some a → a.resolved = a.asked.request.pair

theorem Direct.Own.settle {d : Direct T} (h : d.Own) (t : ℕ) : (d.settle t).Own where
  work w hw := h.work w (List.mem_filter.mp hw).1
  answers := by
    refine List.foldlRecOn (motive := fun answers : ℕ → Option (Answer T) =>
      ∀ n a, answers n = some a → a.resolved = a.asked.request.pair) _ _ h.answers (fun answers ha w hw n a hn => ?_)
    by_cases hk : n = w.2.number
    · subst hk
      obtain rfl : Answer.mk _ _ _ _ = a := by simpa using hn
      exact h.work w (List.mem_filter.mp hw).1
    · exact ha n a (by simpa [Function.update_of_ne hk] using hn)

end Own

theorem own_init {P : Pair → Prop} : (State.init (T := T)).shared.Own P ∧ (State.init (T := T)).direct.Own := by
  refine ⟨⟨?_, ?_, ?_⟩, ⟨?_, ?_⟩⟩
  · intro _ _ h
    cases h
  · intro _ h
    cases h
  · intro _ _ h
    cases h
  · intro _ h
    cases h
  · intro _ _ h
    cases h

/-- The cache is used for the question. -/
def Cached (cfg : Config) (p : Pair) : Prop := isInternalClusterResolver cfg p.resolver = false

instance (cfg : Config) (p : Pair) : Decidable (Cached cfg p) := inferInstanceAs (Decidable (_ = false))

section

variable {cfg : Config} {env : Env T} {ends : ℕ → Option ℕ} {schedule : ℕ → List Request} {S : Set Pair}

theorem lookup_own {s : State T} {t : ℕ} {r : Request} (hinj : Set.InjOn cacheKey {p ∈ S | Cached cfg p}) (hr : r.pair ∈ S)
    (hs : s.shared.Own (fun p => p ∈ S ∧ Cached cfg p)) (hd : s.direct.Own) :
    (lookup cfg env ends t s r).shared.Own (fun p => p ∈ S ∧ Cached cfg p) ∧ (lookup cfg env ends t s r).direct.Own := by
  rw [lookup]
  split
  · refine ⟨hs, ⟨fun w hw => ?_, hd.answers⟩⟩
    rcases List.mem_append.mp hw with hw | hw
    · exact hd.work w hw
    · obtain rfl := List.mem_singleton.mp hw
      exact fly_pair env _ _ _
  · rename_i hc
    exact ⟨hs.cachedFetch (fun p q hp hq h => hinj hp hq h) ⟨hr, by simpa [Cached] using hc⟩, hd⟩

theorem tick_own {s : State T} (t : ℕ) (hinj : Set.InjOn cacheKey {p ∈ S | Cached cfg p})
    (hS : ∀ r ∈ schedule t, r.pair ∈ S) (hs : s.shared.Own (fun p => p ∈ S ∧ Cached cfg p)) (hd : s.direct.Own) :
    (tick cfg env ends schedule t s).shared.Own (fun p => p ∈ S ∧ Cached cfg p) ∧
      (tick cfg env ends schedule t s).direct.Own := by
  rw [tick]
  refine List.foldlRecOn (motive := fun s : State T => s.shared.Own (fun p => p ∈ S ∧ Cached cfg p) ∧ s.direct.Own)
    _ _ ⟨hs.settle t, hd.settle t⟩ (fun b hb r hr => ?_)
  exact lookup_own hinj (hS r hr) hb.1 hb.2

theorem run_own (hinj : Set.InjOn cacheKey {p ∈ S | Cached cfg p}) (hS : ∀ t, ∀ r ∈ schedule t, r.pair ∈ S) (t : ℕ) :
    (run cfg env ends schedule t).shared.Own (fun p => p ∈ S ∧ Cached cfg p) ∧
      (run cfg env ends schedule t).direct.Own := by
  induction t with
  | zero =>
    obtain ⟨hs, hd⟩ := own_init (T := T) (P := fun p => p ∈ S ∧ Cached cfg p)
    exact tick_own 0 hinj (hS 0) hs hd
  | succ t ih => exact tick_own (t + 1) hinj (hS (t + 1)) ih.1 ih.2

end

/-- Two questions, one after the other, that are resolved at once. -/
def inTurn (p q : Pair) (t : ℕ) : List Request :=
  if t = 0 then [⟨0, p⟩] else if t = 2 then [⟨0, q⟩] else []

/-- Whatever is resolved comes at once, and keeps. -/
def constant (r : T) : Env T where
  resolve _ _ := ⟨r, 10⟩
  latency _ _ := 0
  broken _ _ _ := ⟨r, 10⟩

/-- The second of two questions with one key is answered with what was resolved for the first. -/
theorem run_inTurn {cfg : Config} {p q : Pair} (r : T) (hp : Cached cfg p) (hq : Cached cfg q)
    (hk : cacheKey p = cacheKey q) :
    (run cfg (constant r) (fun _ => none) (inTurn p q) 2).answer 1 = some ⟨⟨1, 2, ⟨0, q⟩⟩, 2, p, r⟩ := by
  rw [Cached] at hp hq
  have h0 : run cfg (constant r) (fun _ => none) (inTurn p q) 0 =
      ⟨[⟨0, 0, ⟨0, p⟩⟩], ⟨fun _ => none, [], [⟨⟨p, 0, true, ⟨r, 10⟩⟩, some ⟨0, 0, ⟨0, p⟩⟩⟩], fun _ => none⟩,
        ⟨[], fun _ => none⟩⟩ := by
    simp [run, tick, inTurn, lookup, hp, Shared.cachedFetch, State.init, Shared.settle, Direct.settle, Shared.fetch, Env.fly, constant]
  have h1 : run cfg (constant r) (fun _ => none) (inTurn p q) 1 =
      ⟨[⟨0, 0, ⟨0, p⟩⟩], ⟨Function.update (fun _ => none) (cacheKey p) (some ⟨r, 10, 1, p⟩), [], [],
        Function.update (fun _ => none) 0 (some ⟨⟨0, 0, ⟨0, p⟩⟩, 1, p, r⟩)⟩, ⟨[], fun _ => none⟩⟩ := by
    rw [run, h0]
    simp [tick, inTurn, Shared.settle, Direct.settle, Shared.complete, Shared.reply]
  rw [run, h1]
  simp [tick, inTurn, lookup, hq, Shared.cachedFetch, ← hk, Shared.settle, Direct.settle, Shared.reply, State.answer, Entry.expired, Entry.stale]

/-- **When the cache answers the question that was asked**: for a set of questions that may be asked,
exactly if no two that are cached have the same key. -/
theorem answers_own_iff [Inhabited T] (cfg : Config) (S : Set Pair) :
    (∀ (env : Env T) (ends : ℕ → Option ℕ) (schedule : ℕ → List Request),
        (∀ t, ∀ r ∈ schedule t, r.pair ∈ S) → ∀ t n a, (run cfg env ends schedule t).answer n = some a →
          a.resolved = a.asked.request.pair) ↔
      Set.InjOn cacheKey {p ∈ S | Cached cfg p} := by
  constructor
  · intro h p hp q hq hk
    have hS : ∀ t, ∀ r ∈ inTurn p q t, r.pair ∈ S := by
      intro t r hr
      rw [inTurn] at hr
      split at hr
      · rw [List.mem_singleton.mp hr]
        exact hp.1
      · split at hr
        · rw [List.mem_singleton.mp hr]
          exact hq.1
        · cases hr
    exact h (constant default) _ _ hS 2 1 _ (run_inTurn default hp.2 hq.2 hk)
  · intro hinj env ends schedule hS t n a ha
    have hs := (run_own hinj hS t : (run cfg env ends schedule t).shared.Own _ ∧ _).1
    have hd := (run_own hinj hS t : _ ∧ (run cfg env ends schedule t).direct.Own).2
    rw [State.answer] at ha
    rcases h : (run cfg env ends schedule t).shared.answers n with _ | b
    · rw [h] at ha
      exact hd.answers n a ha
    · rw [h] at ha
      obtain rfl : b = a := by simpa using ha
      exact hs.answers n b h

/-- `EXTERNAL_DNS_RESOLVER` is not set. -/
def unconfigured : Config where
  defaultResolver := "1.1.1.1".toList
  internalResolverIPs := []
  toLower := Char.toLower

theorem accepted_get {cfg : Config} {r h : Text} (hr : resolverFromQuery cfg ⟨"GET".toList, [r], [h]⟩ = r)
    (hh : trimSpace h = h) (hne : h ≠ []) : Accepted cfg ⟨r, h⟩ := by
  refine .inr ⟨⟨"GET".toList, [r], [h]⟩, ?_⟩
  have hget : dnsSettingsHandler cfg ⟨"GET".toList, [r], [h]⟩ =
      if trimSpace h = [] then .error ⟨400, "hostname is required".toList⟩
      else .ok ⟨resolverFromQuery cfg ⟨"GET".toList, [r], [h]⟩, trimSpace h⟩ := if_neg (fun hn => hn rfl)
  rw [hget, hh, if_neg hne, hr]

/-- `r` is asked for `a|b`, and then `r|a` for `b`. -/
theorem answers_other :
    ¬ ∀ (cfg : Config) (env : Env Bool) (ends : ℕ → Option ℕ) (schedule : ℕ → List Request),
        (∀ t, ∀ r ∈ schedule t, Accepted cfg r.pair) → ∀ t n a, (run cfg env ends schedule t).answer n = some a →
          a.resolved = a.asked.request.pair := by
  intro h
  have hp : Accepted unconfigured ⟨"r".toList, "a|b".toList⟩ := accepted_get (by decide) (by decide) (by decide)
  have hq : Accepted unconfigured ⟨"r|a".toList, "b".toList⟩ := accepted_get (by decide) (by decide) (by decide)
  have hS : ∀ t, ∀ r ∈ inTurn ⟨"r".toList, "a|b".toList⟩ ⟨"r|a".toList, "b".toList⟩ t, Accepted unconfigured r.pair := by
    intro t r hr
    rw [inTurn] at hr
    split at hr
    · rwa [List.mem_singleton.mp hr]
    · split at hr
      · rwa [List.mem_singleton.mp hr]
      · cases hr
  have hne := h unconfigured (constant true) _ _ hS 2 1 _ (run_inTurn true (by decide) (by decide) (by decide))
  revert hne
  decide

/-! ### Contexts that end -/

/-- The context of the request lives until it is answered. -/
def LivesUntil (ends : ℕ → Option ℕ) (a : Answer T) : Prop :=
  ∀ d, ends a.asked.request.ctx = some d → a.answeredAt < d

/-- No context of a request ends under which something is resolved for the cache. -/
def Undisturbed (cfg : Config) (env : Env T) (ends : ℕ → Option ℕ) (schedule : ℕ → List Request) : Prop :=
  ∀ t, ∀ w ∈ (run cfg env ends schedule t).shared.work, w.waiting.isSome → w.flight.alive

/-- No request that waits does so under a context that ends. -/
def Shared.Alive (c : Shared T) : Prop := ∀ w ∈ c.work, w.waiting.isSome → w.flight.alive

section Contexts

variable {cfg : Config} {env : Env T} {schedule : ℕ → List Request} {ends ends₁ ends₂ : ℕ → Option ℕ}

theorem fly_of_alive {e : Option ℕ} {p : Pair} {t : ℕ} (h : (env.fly e p t).alive) :
    env.fly e p t = ⟨p, t + env.latency p t, true, env.resolve p t⟩ := by
  unfold Env.fly at h ⊢
  split at h
  · rfl
  · rename_i d
    split at h
    · rename_i hd
      simp only [if_pos hd]
    · cases h

theorem work_refreshInBackground (c : Shared T) (t : ℕ) (p : Pair) :
    c.work ⊆ (c.refreshInBackground env t p).work := by
  rw [Shared.refreshInBackground]
  split
  · exact fun w hw => hw
  · exact fun w hw => List.mem_append_left _ hw

theorem work_cachedFetch (c : Shared T) (e : Option ℕ) (a : Asked) : c.work ⊆ (c.cachedFetch env e a).work := by
  rw [Shared.cachedFetch]
  split
  · exact fun w hw => List.mem_append_left _ hw
  · split
    · exact fun w hw => List.mem_append_left _ hw
    · split
      · exact work_refreshInBackground c _ _
      · exact fun w hw => hw

theorem fetch_congr {c : Shared T} {a : Asked} {e₁ e₂ : Option ℕ} (h₁ : (c.fetch env e₁ a).Alive)
    (h₂ : (c.fetch env e₂ a).Alive) : c.fetch env e₁ a = c.fetch env e₂ a := by
  unfold Shared.fetch at *
  rw [fly_of_alive (h₁ _ (List.mem_append_right _ List.mem_cons_self) rfl),
    fly_of_alive (h₂ _ (List.mem_append_right _ List.mem_cons_self) rfl)]

theorem cachedFetch_congr {c : Shared T} {a : Asked} {e₁ e₂ : Option ℕ} (h₁ : (c.cachedFetch env e₁ a).Alive)
    (h₂ : (c.cachedFetch env e₂ a).Alive) : c.cachedFetch env e₁ a = c.cachedFetch env e₂ a := by
  unfold Shared.cachedFetch at *
  split at h₁ <;> rename_i he
  · rw [he] at h₂
    exact fetch_congr h₁ h₂
  · rename_i e
    simp only [he] at h₂ ⊢
    split at h₁
    · rename_i hexp
      simp only [if_pos hexp] at h₂ ⊢
      exact fetch_congr h₁ h₂
    · rename_i hexp
      simp only [if_neg hexp]

theorem work_lookup (t : ℕ) (s : State T) (r : Request) : s.shared.work ⊆ (lookup cfg env ends t s r).shared.work := by
  rw [lookup]
  split
  · exact fun w hw => hw
  · exact work_cachedFetch _ _ _

theorem work_lookups (t : ℕ) (s : State T) (rs : List Request) :
    s.shared.work ⊆ (rs.foldl (lookup cfg env ends t) s).shared.work := by
  induction rs generalizing s with
  | nil => exact fun w hw => hw
  | cons r rs ih => exact fun w hw => ih _ (work_lookup t s r hw)

/-- Two runs that have come to the same cache, if only contexts differ. -/
def Alike (s₁ s₂ : State T) : Prop := s₁.asked = s₂.asked ∧ s₁.shared = s₂.shared

theorem lookups_alike {t : ℕ} {s₁ s₂ : State T} (rs : List Request) (h : Alike s₁ s₂)
    (h₁ : (rs.foldl (lookup cfg env ends₁ t) s₁).shared.Alive) (h₂ : (rs.foldl (lookup cfg env ends₂ t) s₂).shared.Alive) :
    Alike (rs.foldl (lookup cfg env ends₁ t) s₁) (rs.foldl (lookup cfg env ends₂ t) s₂) := by
  induction rs generalizing s₁ s₂ with
  | nil => exact h
  | cons r rs ih =>
    refine ih ?_ h₁ h₂
    obtain ⟨ha, hs⟩ := h
    have hl₁ : (lookup cfg env ends₁ t s₁ r).shared.Alive := fun w hw => h₁ w (work_lookups t _ rs hw)
    have hl₂ : (lookup cfg env ends₂ t s₂ r).shared.Alive := fun w hw => h₂ w (work_lookups t _ rs hw)
    unfold lookup Alike at *
    rw [← ha, ← hs] at hl₂ ⊢
    split at hl₁
    · rename_i hc
      rw [if_pos hc, if_pos hc]
      exact ⟨rfl, rfl⟩
    · rename_i hc
      rw [if_neg hc] at hl₂
      rw [if_neg hc, if_neg hc]
      exact ⟨rfl, cachedFetch_congr hl₁ hl₂⟩

theorem run_alike (h₁ : Undisturbed cfg env ends₁ schedule) (h₂ : Undisturbed cfg env ends₂ schedule) (t : ℕ) :
    Alike (run cfg env ends₁ schedule t) (run cfg env ends₂ schedule t) := by
  induction t with
  | zero => exact lookups_alike _ ⟨rfl, rfl⟩ (h₁ 0) (h₂ 0)
  | succ t ih =>
    refine lookups_alike _ ⟨ih.1, ?_⟩ (h₁ (t + 1)) (h₂ (t + 1))
    rw [ih.2]

/-- What bypasses the cache is what comes of the question, if the context of the request lives. -/
structure Direct.Sound (env : Env T) (ends : ℕ → Option ℕ) (asked : List Asked) (d : Direct T) : Prop where
  work : ∀ w ∈ d.work, asked[w.2.number]? = some w.2 ∧ w.1 = env.fly (ends w.2.request.ctx) w.2.request.pair w.2.time
  answers : ∀ n a, d.answers n = some a → asked[n]? = some a.asked ∧
    (LivesUntil ends a → a.result = (env.resolve a.asked.request.pair a.asked.time).result)

theorem result_of_lives {a : Asked} {t : ℕ} (hf : (env.fly (ends a.request.ctx) a.request.pair a.time).finish ≤ t)
    (hl : ∀ d, ends a.request.ctx = some d → t < d) :
    (env.fly (ends a.request.ctx) a.request.pair a.time).resolution = env.resolve a.request.pair a.time := by
  unfold Env.fly at hf ⊢
  split at hf
  · rfl
  · rename_i d hd
    split at hf
    · rename_i hle
      simp only [if_pos hle]
    · exact absurd (hl d hd) (Nat.not_lt.mpr ((Nat.le_max_right _ _).trans hf))

theorem Direct.Sound.settle {asked : List Asked} {d : Direct T} (h : d.Sound env ends asked) (t : ℕ) :
    (d.settle t).Sound env ends asked where
  work w hw := h.work w (List.mem_filter.mp hw).1
  answers := by
    refine List.foldlRecOn (motive := fun answers : ℕ → Option (Answer T) => ∀ n a, answers n = some a →
      asked[n]? = some a.asked ∧ (LivesUntil ends a → a.result = (env.resolve a.asked.request.pair a.asked.time).result))
      _ _ h.answers (fun answers ha w hw n a hn => ?_)
    obtain ⟨hw, hf⟩ := List.mem_filter.mp hw
    obtain ⟨hask, hfly⟩ := h.work w hw
    by_cases hk : n = w.2.number
    · subst hk
      obtain rfl : Answer.mk _ _ _ _ = a := by simpa using hn
      refine ⟨hask, fun hl => ?_⟩
      rw [hfly] at hf ⊢
      rw [result_of_lives (by simpa using hf) hl]
    · exact ha n a (by simpa [Function.update_of_ne hk] using hn)

theorem Direct.Sound.lookup {s : State T} (h : s.direct.Sound env ends s.asked) (t : ℕ) (r : Request) :
    (lookup cfg env ends t s r).direct.Sound env ends (lookup cfg env ends t s r).asked := by
  have hold : ∀ {n : ℕ} {a b : Asked}, s.asked[n]? = some a → (s.asked ++ [b])[n]? = some a := by
    intro n a b hn
    rw [List.getElem?_append_left (List.getElem?_eq_some_iff.mp hn).1, hn]
  rw [Cache.lookup]
  split
  · refine ⟨fun w hw => ?_, fun n a hn => ⟨hold (h.answers n a hn).1, (h.answers n a hn).2⟩⟩
    rcases List.mem_append.mp hw with hw | hw
    · exact ⟨hold (h.work w hw).1, (h.work w hw).2⟩
    · obtain rfl := List.mem_singleton.mp hw
      exact ⟨by simp, rfl⟩
  · exact ⟨fun w hw => ⟨hold (h.work w hw).1, (h.work w hw).2⟩, fun n a hn => ⟨hold (h.answers n a hn).1, (h.answers n a hn).2⟩⟩

theorem tick_sound {s : State T} (h : s.direct.Sound env ends s.asked) (t : ℕ) :
    (tick cfg env ends schedule t s).direct.Sound env ends (tick cfg env ends schedule t s).asked := by
  rw [tick]
  refine List.foldlRecOn (motive := fun s : State T => s.direct.Sound env ends s.asked) _ _ (h.settle t) (fun b hb r _ => ?_)
  exact hb.lookup t r

theorem run_sound (t : ℕ) :
    (run cfg env ends schedule t).direct.Sound env ends (run cfg env ends schedule t).asked := by
  induction t with
  | zero =>
    refine tick_sound ⟨fun w hw => ?_, fun n a hn => ?_⟩ 0
    · cases hw
    · cases hn
  | succ t ih => exact tick_sound ih (t + 1)

/-- **When one caller's context does not show in another's answer**: if in two runs, with the same
requests at the same times, no context ends under which something is resolved for the cache, a request
whose context lives until it is answered gets the same result in both. -/
theorem same_answer (h₁ : Undisturbed cfg env ends₁ schedule) (h₂ : Undisturbed cfg env ends₂ schedule) {t n : ℕ}
    {a₁ a₂ : Answer T} (ha₁ : (run cfg env ends₁ schedule t).answer n = some a₁)
    (ha₂ : (run cfg env ends₂ schedule t).answer n = some a₂) (hl₁ : LivesUntil ends₁ a₁) (hl₂ : LivesUntil ends₂ a₂) :
    a₁.result = a₂.result := by
  obtain ⟨hasked, hshared⟩ := run_alike h₁ h₂ t
  rw [State.answer] at ha₁ ha₂
  rw [hshared] at ha₁
  rcases hs : (run cfg env ends₂ schedule t).shared.answers n with _ | a
  · rw [hs] at ha₁ ha₂
    obtain ⟨hn₁, hr₁⟩ := (run_sound t).answers n a₁ ha₁
    obtain ⟨hn₂, hr₂⟩ := (run_sound t).answers n a₂ ha₂
    rw [hasked] at hn₁
    obtain hq : a₁.asked = a₂.asked := Option.some_inj.mp (hn₁.symm.trans hn₂)
    rw [hr₁ hl₁, hr₂ hl₂, hq]
  · rw [hs] at ha₁ ha₂
    obtain rfl : a = a₁ := by simpa using ha₁
    obtain rfl : a = a₂ := by simpa using ha₂
    rfl

theorem alive_complete {c : Shared T} (h : c.Alive) (t : ℕ) (w : Work T) : (c.complete t w).Alive := by
  rw [Shared.complete]
  split <;> exact h

theorem alive_settle {c : Shared T} (h : c.Alive) (t : ℕ) : (c.settle t).Alive := by
  rw [Shared.settle]
  refine List.foldlRecOn (motive := Shared.Alive) _ _ (fun w hw => ?_) (fun b hb w _ => alive_complete hb t w)
  exact h w (List.mem_filter.mp hw).1

theorem alive_refreshInBackground {c : Shared T} (h : c.Alive) (t : ℕ) (p : Pair) :
    (c.refreshInBackground env t p).Alive := by
  rw [Shared.refreshInBackground]
  split
  · exact h
  · intro w hw hs
    rcases List.mem_append.mp hw with hw | hw
    · exact h w hw hs
    · obtain rfl := List.mem_singleton.mp hw
      cases hs

theorem alive_cachedFetch {c : Shared T} (h : c.Alive) {e : Option ℕ} {a : Asked}
    (he : ∀ d, e = some d → a.time + env.latency a.request.pair a.time ≤ d) : (c.cachedFetch env e a).Alive := by
  have hfetch : (c.fetch env e a).Alive := by
    intro w hw hs
    rcases List.mem_append.mp hw with hw | hw
    · exact h w hw hs
    · obtain rfl := List.mem_singleton.mp hw
      unfold Env.fly
      split
      · rfl
      · rw [if_pos (he _ rfl)]
  rw [Shared.cachedFetch]
  split
  · exact hfetch
  · split
    · exact hfetch
    · split
      · exact alive_refreshInBackground h _ _
      · exact h

/-- No context ends too early that lives as long as the question of its request takes. -/
theorem undisturbed_of_long
    (h : ∀ t, ∀ r ∈ schedule t, ∀ d, ends r.ctx = some d → t + env.latency r.pair t ≤ d) :
    Undisturbed cfg env ends schedule := by
  have htick (t : ℕ) (s : State T) (hs : s.shared.Alive) : (tick cfg env ends schedule t s).shared.Alive := by
    refine List.foldlRecOn (motive := fun s : State T => s.shared.Alive) _ _ (alive_settle hs t) (fun b hb r hr => ?_)
    rw [lookup]
    split
    · exact hb
    · exact alive_cachedFetch hb (h t r hr)
  intro t
  induction t with
  | zero => exact htick 0 .init (fun w hw => by cases hw)
  | succ t ih => exact htick (t + 1) _ ih

end Contexts

/-- A question takes five ticks; what comes of it is false if it is broken off. -/
def slow : Env Bool where
  resolve _ _ := ⟨true, 300⟩
  latency _ _ := 5
  broken _ _ _ := ⟨false, 300⟩

/-- A question, which the cache is used for. -/
def question : Pair := ⟨['r'], ['h']⟩

/-- The same question twice, by two callers. -/
def twoCallers (t : ℕ) : List Request := if t = 0 then [⟨1, question⟩] else if t = 10 then [⟨2, question⟩] else []

/-- A context of the first caller that ends. -/
def firstEnds (d : ℕ) : ℕ → Option ℕ := fun c => if c = 1 then some d else none

/-- What the second caller is answered. -/
def toSecond (result : Bool) : Answer Bool := ⟨⟨1, 10, ⟨2, question⟩⟩, 10, question, result⟩

/-- The first caller goes away when it has its answer. -/
theorem same_answer_twoCallers :
    (run unconfigured slow (fun _ => none) twoCallers 10).answer 1 = some (toSecond true) ∧
      (run unconfigured slow (firstEnds 7) twoCallers 10).answer 1 = some (toSecond true) ∧
        (toSecond true).result = (toSecond true).result := by
  have h₁ : Undisturbed unconfigured slow (fun _ => none) twoCallers := undisturbed_of_long (by simp)
  have h₂ : Undisturbed unconfigured slow (firstEnds 7) twoCallers := by
    apply undisturbed_of_long
    intro t r hr d hd
    rw [twoCallers] at hr
    split at hr
    · rename_i ht
      obtain rfl := List.mem_singleton.mp hr
      obtain rfl : 7 = d := by simpa [firstEnds] using hd
      simp [ht, slow]
    · split at hr
      · obtain rfl := List.mem_singleton.mp hr
        simp [firstEnds] at hd
      · cases hr
  have ha₁ : (run unconfigured slow (fun _ => none) twoCallers 10).answer 1 = some (toSecond true) := by decide
  have ha₂ : (run unconfigured slow (firstEnds 7) twoCallers 10).answer 1 = some (toSecond true) := by decide
  exact ⟨ha₁, ha₂, same_answer h₁ h₂ ha₁ ha₂ (by simp [LivesUntil]) (by simp [LivesUntil, firstEnds, toSecond])⟩

/-- The first of two callers goes away, and the other is told what came of that. -/
theorem first_caller_decides :
    ¬ ∀ (cfg : Config) (env : Env Bool) (schedule : ℕ → List Request) (ends₁ ends₂ : ℕ → Option ℕ),
        (∀ p t t', env.resolve p t = env.resolve p t') → ∀ t n a₁ a₂,
          (run cfg env ends₁ schedule t).answer n = some a₁ → (run cfg env ends₂ schedule t).answer n = some a₂ →
            LivesUntil ends₁ a₁ → LivesUntil ends₂ a₂ → a₁.result = a₂.result := by
  intro h
  have hne := h unconfigured slow twoCallers (fun _ => none) (firstEnds 2) (fun _ _ _ => rfl) 10 1 (toSecond true)
    (toSecond false) (by decide) (by decide) (by simp [LivesUntil]) (by simp [LivesUntil, firstEnds, toSecond])
  cases hne

end OpenshiftConsole.ExternalDns.Cache
