import StateSpace.Proofs.Exploration.Loop

/-!
# Explorations step by step in two surroundings

The steps of an exploration are put together from a few: looking at the data and changing it,
looking at the stop flag, reports, and questions. A relation between steps in two surroundings that
holds of these and is kept by sequencing (`Explore.Congruence`) holds of all that is put together
from them. So what an exploration does in other surroundings is found out once for all such
relations, step by step.
-/

namespace StateSpace

namespace Explore

variable {σ σ' ω α β : Type} {env : Surroundings σ} {env' : Surroundings σ'}

/-- Both steps fail because of an open question, after some reports. -/
inductive Declines (env : Surroundings σ) (env' : Surroundings σ') :
    Explore σ ω α → Explore σ' ω α → Prop
  | throw (question : Question) :
      Declines env env' (throw (.undecided question)) (throw (.undecided question))
  | report {next : Unit → Explore σ ω α} {next' : Unit → Explore σ' ω α} (event : Event)
      (h : Declines env env' (next ()) (next' ())) :
      Declines env env' (Explore.report env event >>= next) (Explore.report env' event >>= next')

/-- Where reports go unnoticed, there are none. -/
theorem Declines.of_quietly {step : Explore σ ω α} {step' : Explore σ' ω α}
    (h : Declines env.quietly env'.quietly step step') : Declines env env' step step' := by
  induction h with
  | throw question => exact .throw question
  | report _ _ ih => exact ih

/-- A relation between steps in two surroundings that is kept by all steps are put together from.
What follows a question is related if it is for both answers, and declines if there is none. Apart
from open questions, the relation may hold of some failures only. -/
structure Congruence {σ σ' : Type} (env : Surroundings σ) (env' : Surroundings σ') where
  Rel {ω α : Type} : Explore σ ω α → Explore σ' ω α → Prop
  rel_pure {ω α : Type} (a : α) : Rel (pure a : Explore σ ω α) (pure a)
  Throws : Failure → Prop
  rel_throw {ω α : Type} {e : Failure} (h : Throws e) : Rel (throw e : Explore σ ω α) (throw e)
  rel_bind {ω α β : Type} {step : Explore σ ω α} {step' : Explore σ' ω α}
    {next : α → Explore σ ω β} {next' : α → Explore σ' ω β} :
    Rel step step' → (∀ a, Rel (next a) (next' a)) → Rel (step >>= next) (step' >>= next')
  rel_work {ω : Type} : Rel (work : Explore σ ω ω) work
  rel_modifyWork {ω : Type} (f : ω → ω) : Rel (modifyWork f : Explore σ ω Unit) (modifyWork f)
  rel_stopped {ω : Type} : Rel (stopped : Explore σ ω Bool) stopped
  rel_onPart {ω ω' α : Type} {step : Explore σ ω' α} {step' : Explore σ' ω' α} (part : ω → ω')
    (restore : ω' → ω → ω) :
    Rel step step' → Rel (onPart part restore step) (onPart part restore step')
  rel_report {ω : Type} (event : Event) :
    Rel (report env event : Explore σ ω Unit) (report env' event)
  rel_decide {ω α : Type} (e : Expr) {next : Verdict → Explore σ ω α}
    {next' : Verdict → Explore σ' ω α} :
    (∀ v, v ≠ .dontKnow → Rel (next v) (next' v)) →
    Declines env env' (next .dontKnow) (next' .dontKnow) →
    Rel (decide env e >>= next) (decide env' e >>= next')

namespace Congruence

variable (c : Congruence env env')

/-- The relation is kept by a search for values as well, if an open question makes both steps
fail. -/
def KeepsSolve : Prop :=
  ∀ {ω α : Type} (e : Expr) (next : Answer → Explore σ ω α) (next' : Answer → Explore σ' ω α),
    (∀ a, a.verdict ≠ .dontKnow → c.Rel (next a) (next' a)) →
    (∀ a, a.verdict = .dontKnow → Declines env env' (next a) (next' a)) →
    c.Rel (solve env e >>= next) (solve env' e >>= next')

/-- The same relation, where nothing is reported. -/
def quietly : Congruence env.quietly env'.quietly :=
  { c with
    rel_report _ := c.rel_pure ()
    rel_decide e _ _ hDecided hOpen := c.rel_decide e hDecided hOpen.of_quietly }

theorem rel_holds (question : Question) (e : Expr) :
    c.Rel (holds env question e : Explore σ ω Bool) (holds env' question e) := by
  refine c.rel_decide e (fun v hVerdict => ?_) (.throw question)
  cases v with
  | sat => exact c.rel_pure true
  | unsat => exact c.rel_pure false
  | dontKnow => exact absurd rfl hVerdict

/-- A question during a phase: its end is reported even if the question stays open. -/
theorem rel_holdsDuring (phase : Phase) (depth : Nat) (question : Question) (e : Expr) :
    c.Rel (holdsDuring env phase depth question e : Explore σ ω Bool)
      (holdsDuring env' phase depth question e) := by
  refine c.rel_bind (c.rel_report _) fun _ => c.rel_decide e (fun v hVerdict => ?_) ?_
  · refine c.rel_bind (c.rel_report _) fun _ => ?_
    cases v with
    | sat => exact c.rel_pure true
    | unsat => exact c.rel_pure false
    | dontKnow => exact absurd rfl hVerdict
  · exact .report _ (.throw question)

theorem rel_work_bind {next : ω → Explore σ ω β} {next' : ω → Explore σ' ω β}
    (h : ∀ w, c.Rel (next w) (next' w)) : c.Rel (work >>= next) (work >>= next') :=
  c.rel_bind c.rel_work h

theorem rel_ite {p : Prop} [Decidable p] {step other : Explore σ ω α}
    {step' other' : Explore σ' ω α} (h : c.Rel step step') (hOther : c.Rel other other') :
    c.Rel (if p then step else other) (if p then step' else other') := by
  split
  · exact h
  · exact hOther

theorem rel_forM {f : β → Explore σ ω Unit} {f' : β → Explore σ' ω Unit}
    (h : ∀ b, c.Rel (f b) (f' b)) (bs : List β) : c.Rel (bs.forM f) (bs.forM f') := by
  induction bs with
  | nil => exact c.rel_pure ()
  | cons b bs ih =>
    show c.Rel (f b >>= fun _ => bs.forM f) (f' b >>= fun _ => bs.forM f')
    exact c.rel_bind (h b) fun _ => ih

end Congruence

end Explore

namespace Exploration

open Explore

variable {σ σ' ω α β : Type} {env : Surroundings σ} {env' : Surroundings σ'}
  {c : Congruence env env'} {x : Exploration σ ω β α} {y : Exploration σ' ω β α}

/-- Explorations of which the first steps are related, and the turns. -/
structure Related (c : Congruence env env') (x : Exploration σ ω β α) (y : Exploration σ' ω β α) :
    Prop where
  first : c.Rel x.first y.first
  turn : ∀ b, c.Rel (x.turn b) (y.turn b)

/-- Related explorations take related turns, however many. -/
theorem Related.turns (h : Related c x y) (n : Nat) (b : β) :
    c.Rel (x.turns n b) (y.turns n b) := by
  induction n generalizing b with
  | zero => exact c.rel_pure _
  | succ n ih =>
    refine c.rel_bind (h.turn b) fun next => ?_
    cases next with
    | again b => exact ih b
    | done a => exact c.rel_pure _

/-- What relates all turns relates any number of them, from the first step on. -/
theorem Related.after (h : Related c x y) (n : Nat) : c.Rel (x.after n) (y.after n) :=
  c.rel_bind h.first fun b => h.turns n b

end Exploration

end StateSpace
