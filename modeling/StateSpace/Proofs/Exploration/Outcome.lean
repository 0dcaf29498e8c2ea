import StateSpace.Proofs.Exploration.Congruence

/-!
# Steps that the data determines

If the answers of the solver depend on the question alone and nobody raises the stop flag, then how
a step ends depends on the data alone: not on what the solver remembers, nor on what is reported to
whom. The `outcome` of a step is what it returns or how it fails, with the data that it leaves, and
`Explore.Alike` relates steps in different surroundings that have the same outcome. Explorations of
which each turn is alike have the same outcome, or none both (`Exploration.outcome_eq`).
-/

namespace StateSpace

/-- The answers depend on the question alone. -/
def Solver.Consistent {σ : Type} (solver : Solver σ) : Prop :=
  ∀ e memory memory', (solver.decide e memory).1 = (solver.decide e memory').1

/-- Surroundings that give the same answers, whatever is remembered, and do not raise the flag. -/
structure Surroundings.Peers {σ : Type} (env env' : Surroundings σ) : Prop where
  answers : ∀ e memory memory', (env.solver.decide e memory).1 = (env'.solver.decide e memory').1
  calm : env.Calm
  calm' : env'.Calm

theorem Surroundings.peers_of_consistent {σ : Type} {env env' : Surroundings σ}
    (hConsistent : env.solver.Consistent) (hSolver : env'.solver = env.solver) (hCalm : env.Calm)
    (hCalm' : env'.Calm) : env.Peers env' where
  answers e memory memory' := by
    rw [hSolver]
    exact hConsistent e memory memory'
  calm := hCalm
  calm' := hCalm'

namespace Explore

variable {σ ω α β : Type} {env env' : Surroundings σ} {s s' : Session σ ω}
  {step step' : Explore σ ω α}

/-- What a step returns or how it fails, with the data that it leaves. -/
def outcome : EStateM.Result Failure (Session σ ω) α → Except Failure α × ω
  | .ok a t => (.ok a, t.work)
  | .error e t => (.error e, t.work)

/-- Two results with the same outcome, in which the flag is down if they return. -/
inductive SameEnd : EStateM.Result Failure (Session σ ω) α →
    EStateM.Result Failure (Session σ ω) α → Prop
  | ok {a : α} {t t' : Session σ ω} (hWork : t'.work = t.work) (hStop : t.stop = false)
      (hStop' : t'.stop = false) : SameEnd (.ok a t) (.ok a t')
  | error {e : Failure} {t t' : Session σ ω} (hWork : t'.work = t.work) :
      SameEnd (.error e t) (.error e t')

/-- On the same data and with the flag down, both steps end the same way, with the flag down. -/
def Alike (step step' : Explore σ ω α) : Prop :=
  ∀ s s' : Session σ ω, s.stop = false → s'.stop = false → s'.work = s.work →
    SameEnd (step s) (step' s')

theorem SameEnd.outcome_eq {r r' : EStateM.Result Failure (Session σ ω) α} (h : SameEnd r r') :
    outcome r' = outcome r := by
  cases h with
  | ok hWork => simp only [outcome, hWork]
  | error hWork => simp only [outcome, hWork]

namespace Alike

/-- If one of the steps returns, then the other one does. -/
theorem exists_of_eq_ok (h : Alike step step') (hStop : s.stop = false) (hStop' : s'.stop = false)
    (hWork : s'.work = s.work) {a : α} {t : Session σ ω} (hRun : step s = .ok a t) :
    ∃ t', step' s' = .ok a t' ∧ t'.work = t.work ∧ t.stop = false ∧ t'.stop = false := by
  have hEnd := h s s' hStop hStop' hWork
  rw [hRun] at hEnd
  generalize step' s' = r' at hEnd
  cases hEnd with
  | ok hWork hStop hStop' => exact ⟨_, rfl, hWork, hStop, hStop'⟩

/-- The sequence rule of steps that are alike. -/
theorem bind {next next' : α → Explore σ ω β} (h : Alike step step')
    (hNext : ∀ a, Alike (next a) (next' a)) : Alike (step >>= next) (step' >>= next') := by
  intro s s' hStop hStop' hWork
  have hEnd := h s s' hStop hStop' hWork
  simp only [Bind.bind, EStateM.bind]
  generalize step s = r at hEnd
  generalize step' s' = r' at hEnd
  cases hEnd with
  | ok hWork hStop hStop' => exact hNext _ _ _ hStop hStop' hWork
  | error hWork => exact .error hWork

/-- The data and the flag tell both the same. -/
theorem of_reads {f : ω → Bool → α} :
    Alike (fun s => .ok (f s.work s.stop) s : Explore σ ω α) fun s => .ok (f s.work s.stop) s := by
  intro s s' hStop hStop' hWork
  show SameEnd (.ok (f s.work s.stop) s) (.ok (f s'.work s'.stop) s')
  rw [hWork, hStop, hStop']
  exact .ok hWork hStop hStop'

/-- Peers report alike. -/
theorem report (hEnv : env.Peers env') (event : Event) :
    Alike (report env event : Explore σ ω Unit) (report env' event) := by
  have hRun : ∀ (env : Surroundings σ) (s : Session σ ω), env.Calm → s.stop = false →
      ∃ t, Explore.report env event s = .ok () t ∧ t.work = s.work ∧ t.stop = false := by
    intro env s hCalm hStop
    obtain ⟨hWork, hFlag⟩ := (ensures_report_calm (R := fun _ => False) event).of_eq_ok rfl
    exact ⟨_, rfl, hWork, hFlag hCalm hStop⟩
  intro s s' hStop hStop' hWork
  obtain ⟨t, hReport, htWork, htStop⟩ := hRun env s hEnv.calm hStop
  obtain ⟨t', hReport', htWork', htStop'⟩ := hRun env' s' hEnv.calm' hStop'
  rw [hReport, hReport']
  exact .ok (by rw [htWork, htWork', hWork]) htStop htStop'

theorem decide (hEnv : env.Peers env') (e : Expr) :
    Alike (decide env e : Explore σ ω Verdict) (decide env' e) := by
  intro s s' hStop hStop' hWork
  show SameEnd (.ok (env.solver.decide e s.memory).1 _) (.ok (env'.solver.decide e s'.memory).1 _)
  rw [hEnv.answers e s.memory s'.memory]
  exact .ok hWork hStop hStop'

theorem of_declines (hEnv : env.Peers env') (h : Declines env env' step step') :
    Alike step step' := by
  induction h with
  | throw question => exact fun _ _ _ _ hWork => .error hWork
  | report event _ ih => exact (report hEnv event).bind fun _ => ih

/-- Steps on a part are alike if they are on their own. -/
theorem onPart {ω' : Type} {part : ω → ω'} {restore : ω' → ω → ω} {step step' : Explore σ ω' α}
    (h : Alike step step') :
    Alike (onPart part restore step) (Explore.onPart part restore step') := by
  intro s s' hStop hStop' hWork
  have hEnd := h { s with work := part s.work } { s' with work := part s'.work } hStop hStop'
    (congrArg part hWork)
  unfold Explore.onPart
  generalize step { s with work := part s.work } = r at hEnd ⊢
  generalize step' { s' with work := part s'.work } = r' at hEnd ⊢
  cases hEnd with
  | ok hRestored hStop hStop' => exact .ok (by rw [hRestored, hWork]) hStop hStop'
  | error hRestored => exact .error (by rw [hRestored, hWork])

/-- Between peers, all steps are alike. -/
def congruence (hEnv : env.Peers env') : Congruence env env' where
  Rel := Alike
  rel_pure a := of_reads (f := fun _ _ => a)
  Throws _ := True
  rel_throw _ _ _ _ _ hWork := .error hWork
  rel_bind := bind
  rel_work := of_reads (f := fun w _ => w)
  rel_modifyWork f _ _ hStop hStop' hWork := .ok (congrArg f hWork) hStop hStop'
  rel_stopped := of_reads (f := fun _ flag => flag)
  rel_onPart _ _ := onPart
  rel_report := report hEnv
  rel_decide e _ _ hDecided hOpen := (decide hEnv e).bind fun v =>
    if hVerdict : v = .dontKnow then hVerdict ▸ of_declines hEnv hOpen else hDecided v hVerdict

end Alike

end Explore

namespace Exploration

open Explore

variable {σ ω α β : Type} {x y : Exploration σ ω β α} {s s' : Session σ ω}

/-- What an exploration returns or how it fails, with the data that it leaves, if it ends. -/
def outcome (x : Exploration σ ω β α) (s : Session σ ω) : Option (Except Failure α × ω) :=
  (x.run s).map Explore.outcome

variable {env env' : Surroundings σ} {hEnv : env.Peers env'}
  (hRelated : Related (Alike.congruence hEnv) x y)
  (hStop : s.stop = false) (hStop' : s'.stop = false) (hWork : s'.work = s.work)

include hRelated hStop hStop' hWork

/-- On the same data and with the flag down, explorations that are alike turn by turn end the same
way, if they end. -/
theorem rel_run : Option.Rel SameEnd (x.run s) (y.run s') := by
  refine run_rel fun n => ?_
  have hAfter : Alike (x.after n) (y.after n) := hRelated.after n
  have hEnd := hAfter s s' hStop hStop' hWork
  generalize x.after n s = r at hEnd
  generalize y.after n s' = r' at hEnd
  cases hEnd with
  | @ok next t t' hWork hStop hStop' =>
    cases next with
    | again b => exact .again
    | done a =>
      have hSame : SameEnd (.ok a t) (.ok a t') := .ok hWork hStop hStop'
      exact .ended hSame
  | @error e t t' hWork =>
    have hSame : SameEnd (.error e t : EStateM.Result _ _ α) (.error e t') := .error hWork
    exact .ended hSame

/-- Explorations with steps that are alike have the same outcome. -/
theorem outcome_eq : y.outcome s' = x.outcome s := by
  have hRel := rel_run hRelated hStop hStop' hWork
  unfold outcome
  generalize x.run s = r at hRel
  generalize y.run s' = r' at hRel
  cases hRel with
  | some hEnd => exact congrArg some hEnd.outcome_eq
  | none => rfl

/-- If one of them returns, then the other one does. -/
theorem exists_of_run_eq_ok {a : α} {t : Session σ ω} (hRun : x.run s = some (.ok a t)) :
    ∃ t', y.run s' = some (.ok a t') ∧ t'.work = t.work ∧ t.stop = false ∧ t'.stop = false := by
  have hRel := rel_run hRelated hStop hStop' hWork
  rw [hRun] at hRel
  generalize y.run s' = r' at hRel
  cases hRel with
  | some hEnd =>
    cases hEnd with
    | ok hWork hStop hStop' => exact ⟨_, rfl, hWork, hStop, hStop'⟩

end Exploration

end StateSpace
