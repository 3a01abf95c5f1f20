import Mathlib.Tactic.Common

/-!
# Interactions

A computation that asks others, goes on with what they answer, and may fail. The answers may be anything. Its history
is what has been asked and answered so far: `Asks` says what comes next after a history, and `Ends` how it ends.

`Meets G P` says that each question has `G` and each end has `P`, both for the history up to there. It is computed
along the interaction, follows its binds (`meets_bind`), and says just this (`meets_iff`). With answers that are a
function of the question there is one end (`run`).
-/

namespace OpenshiftConsole.Library

inductive Interaction (Q R ε α : Type) where
  | done (a : α)
  | fail (e : ε)
  | ask (q : Q) (k : R → Interaction Q R ε α)

namespace Interaction

variable {Q R ε ε' α β : Type}

/-- One after the other, unless the first fails. -/
def andThen (t : Interaction Q R ε α) (f : α → Interaction Q R ε β) : Interaction Q R ε β :=
  match t with
  | done a => f a
  | fail e => fail e
  | ask q k => ask q fun r => (k r).andThen f

instance : Monad (Interaction Q R ε) where
  pure := done
  bind := andThen

/-- The errors are told in another way. -/
def mapError (g : ε → ε') : Interaction Q R ε α → Interaction Q R ε' α
  | done a => done a
  | fail e => fail (g e)
  | ask q k => ask q fun r => (k r).mapError g

/-- `try t finally f`: however the first ends, the second comes after it; its failure is the failure then. -/
def tryFinally (t : Interaction Q R ε α) (f : Interaction Q R ε Unit) : Interaction Q R ε α :=
  match t with
  | done a => f.andThen fun _ => done a
  | fail e => f.andThen fun _ => fail e
  | ask q k => ask q fun r => (k r).tryFinally f

def ofExcept : Except ε α → Interaction Q R ε α
  | .ok a => done a
  | .error e => fail e

/-- One question, and its answer. -/
def send (q : Q) : Interaction Q R ε R := ask q done

/-- What has been asked and answered, the oldest first. -/
abbrev History (Q R : Type) := List (Q × R)

/-- What it may ask after a history. -/
inductive Asks : Interaction Q R ε α → History Q R → Q → Prop where
  | here {q k} : Asks (ask q k) [] q
  | later {q k r h q'} (hk : Asks (k r) h q') : Asks (ask q k) ((q, r) :: h) q'

/-- How it may end, and with which history. -/
inductive Ends : Interaction Q R ε α → History Q R → Except ε α → Prop where
  | done {a} : Ends (done a) [] (.ok a)
  | fail {e} : Ends (fail e) [] (.error e)
  | ask {q k r h b} (hk : Ends (k r) h b) : Ends (ask q k) ((q, r) :: h) b

/-- What may be left of an interaction. -/
inductive Left (t : Interaction Q R ε α) : Interaction Q R ε α → Prop where
  | all : Left t t
  | after {q k} (h : Left t (ask q k)) (r : R) : Left t (k r)

/-- Each question has `G`, and each end `P`, when it begins after a history. -/
def Meets (G : History Q R → Q → Prop) (P : History Q R → Except ε α → Prop) :
    Interaction Q R ε α → History Q R → Prop
  | done a, h => P h (.ok a)
  | fail e, h => P h (.error e)
  | ask q k, h => G h q ∧ ∀ r, Meets G P (k r) (h ++ [(q, r)])

variable {G G' : History Q R → Q → Prop} {P P' : History Q R → Except ε α → Prop} {t : Interaction Q R ε α}
  {h past : History Q R} {q : Q}

/-- What is left asks nothing that the whole does not. -/
theorem Left.asks {u : Interaction Q R ε α} (hu : t.Left u) (hq : u.Asks h q) : ∃ h, t.Asks h q := by
  induction hu generalizing h with
  | all => exact ⟨h, hq⟩
  | after _ r ih => exact ih (.later hq)

theorem meets_send {P : History Q R → Except ε R → Prop} :
    (send q).Meets G P h ↔ G h q ∧ ∀ r, P (h ++ [(q, r)]) (.ok r) := Iff.rfl

theorem meets_ofExcept (x : Except ε α) : (ofExcept x).Meets G P h ↔ P h x := by
  cases x <;> rfl

/-- A bind meets `G` and `P` if its first part ends where the second meets them. -/
theorem meets_bind {f : α → Interaction Q R ε β} {P : History Q R → Except ε β → Prop} : (t >>= f).Meets G P h ↔
    t.Meets G (fun h r => match r with
      | .ok a => (f a).Meets G P h
      | .error e => P h (.error e)) h := by
  induction t generalizing h with
  | done a => rfl
  | fail e => rfl
  | ask q k ih => exact and_congr Iff.rfl (forall_congr' fun r => ih r)

theorem meets_mapError {g : ε → ε'} {P : History Q R → Except ε' α → Prop} :
    (t.mapError g).Meets G P h ↔ t.Meets G (fun h r => P h (r.mapError g)) h := by
  induction t generalizing h with
  | done a => rfl
  | fail e => rfl
  | ask q k ih => exact and_congr Iff.rfl (forall_congr' fun r => ih r)

theorem meets_tryFinally {f : Interaction Q R ε Unit} : (t.tryFinally f).Meets G P h ↔
    t.Meets G (fun h r => f.Meets G (fun h r' => match r' with
      | .ok _ => P h r
      | .error e => P h (.error e)) h) h := by
  induction t generalizing h with
  | done a =>
    have hlast : (f >>= fun _ => (done a : Interaction Q R ε α)).Meets G P h ↔ _ := meets_bind
    exact hlast.trans (iff_of_eq (congrArg (fun P => f.Meets G P h) (funext₂ fun h r => by cases r <;> rfl)))
  | fail e =>
    have hlast : (f >>= fun _ => (fail e : Interaction Q R ε α)).Meets G P h ↔ _ := meets_bind
    exact hlast.trans (iff_of_eq (congrArg (fun P => f.Meets G P h) (funext₂ fun h r => by cases r <;> rfl)))
  | ask q k ih => exact and_congr Iff.rfl (forall_congr' fun r => ih r)

theorem Meets.mono (ht : t.Meets G P h) (hG : ∀ h q, G h q → G' h q) (hP : ∀ h r, P h r → P' h r) :
    t.Meets G' P' h := by
  induction t generalizing h with
  | done a => exact hP h _ ht
  | fail e => exact hP h _ ht
  | ask q k ih => exact ⟨hG h q ht.1, fun r => ih r (ht.2 r)⟩

/-- What is met is what is asked, and how it ends. -/
theorem meets_iff : t.Meets G P past ↔
    (∀ h q, t.Asks h q → G (past ++ h) q) ∧ ∀ h r, t.Ends h r → P (past ++ h) r := by
  induction t generalizing past with
  | done a =>
    refine ⟨fun ht => ⟨fun h q hq => (by cases hq), fun h r hr => ?_⟩, fun ht => ?_⟩
    · cases hr
      rw [List.append_nil]
      exact ht
    · have hend := ht.2 [] _ .done
      rwa [List.append_nil] at hend
  | fail e =>
    refine ⟨fun ht => ⟨fun h q hq => (by cases hq), fun h r hr => ?_⟩, fun ht => ?_⟩
    · cases hr
      rw [List.append_nil]
      exact ht
    · have hend := ht.2 [] _ .fail
      rwa [List.append_nil] at hend
  | ask q k ih =>
    constructor
    · rintro ⟨hG, hk⟩
      constructor
      · intro h q' hq
        cases hq with
        | here => rwa [List.append_nil]
        | later hq => simpa using ((ih _).mp (hk _)).1 _ _ hq
      · intro h b hb
        cases hb with
        | ask hb => simpa using ((ih _).mp (hk _)).2 _ _ hb
    · rintro ⟨hasks, hends⟩
      refine ⟨by simpa using hasks [] q .here, fun r => (ih r).mpr ⟨fun h q' hq => ?_, fun h b hb => ?_⟩⟩
      · simpa using hasks _ _ (.later hq)
      · simpa using hends _ _ (.ask hb)

/-- What an interaction asks, when it meets `G` from the beginning. -/
theorem Meets.asks (ht : t.Meets G P []) (hq : t.Asks h q) : G h q := (meets_iff.mp ht).1 h q hq

theorem Meets.ends {r : Except ε α} (ht : t.Meets G P []) (hr : t.Ends h r) : P h r := (meets_iff.mp ht).2 h r hr

/-! ### Answers that are a function of the question -/

/-- How it ends with such answers. -/
def run (answer : Q → R) : Interaction Q R ε α → Except ε α
  | done a => .ok a
  | fail e => .error e
  | ask q k => run answer (k (answer q))

variable {answer : Q → R}

theorem run_bind (f : α → Interaction Q R ε β) : (t >>= f).run answer = t.run answer >>= fun a => (f a).run answer := by
  induction t with
  | done a => rfl
  | fail e => rfl
  | ask q k ih => exact ih _

theorem run_mapError (g : ε → ε') : (t.mapError g).run answer = (t.run answer).mapError g := by
  induction t with
  | done a => rfl
  | fail e => rfl
  | ask q k ih => exact ih _

theorem run_ofExcept (x : Except ε α) : (ofExcept x : Interaction Q R ε α).run answer = x := by
  cases x <;> rfl

/-- Such a run is one of those that may be. -/
theorem ends_run (answer : Q → R) (t : Interaction Q R ε α) :
    ∃ h, t.Ends h (t.run answer) ∧ ∀ p ∈ h, p.2 = answer p.1 := by
  induction t with
  | done a => exact ⟨[], .done, fun p hp => absurd hp List.not_mem_nil⟩
  | fail e => exact ⟨[], .fail, fun p hp => absurd hp List.not_mem_nil⟩
  | ask q k ih =>
    obtain ⟨h, hends, hanswers⟩ := ih (answer q)
    exact ⟨(q, answer q) :: h, .ask hends, List.forall_mem_cons.mpr ⟨rfl, hanswers⟩⟩

end Interaction

end OpenshiftConsole.Library
