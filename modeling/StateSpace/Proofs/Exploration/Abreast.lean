import StateSpace.Proofs.Exploration.Loop

/-!
# Two explorations abreast

`Explore.Together s s' step step' Q` says what holds if two explorations both return. They stay
abreast if they have reported the same events and so see the same stop flag, whatever they ask in
between (`Explore.Abreast`). A solver with true answers tells both the same of two formulas, if one
of them can be satisfied exactly if the other one can (`Explore.together_holdsDuring`). Whole
explorations that both return belong together if their turns do (`Exploration.agree_of_together`).
-/

namespace StateSpace

namespace Explore

variable {σ ω α β : Type} {env : Surroundings σ} {s s' t t' : Session σ ω}
  {step step' : Explore σ ω α} {Q : α → Session σ ω → α → Session σ ω → Prop}
  {S : β → Session σ ω → β → Session σ ω → Prop}

/-- If a step from `s` and a step from `s'` both return, then they end with `Q` of what they
return. -/
def Together (s s' : Session σ ω) (step step' : Explore σ ω α)
    (Q : α → Session σ ω → α → Session σ ω → Prop) : Prop :=
  ∀ a t a' t', step s = .ok a t → step' s' = .ok a' t' → Q a t a' t'

/-- The same has been reported in both, and the stop flag is the same. -/
structure Abreast (s s' : Session σ ω) : Prop where
  stop : s'.stop = s.stop
  trace : s'.trace = s.trace

namespace Together

theorem pure {a a' : α} (h : Q a s a' s') : Together s s' (pure a) (pure a') Q := by
  rintro _ _ _ _ ⟨⟩ ⟨⟩
  exact h

theorem bind {next next' : α → Explore σ ω β} (h : Together s s' step step' Q)
    (hNext : ∀ a t a' t', Q a t a' t' → Together t t' (next a) (next' a') S) :
    Together s s' (step >>= next) (step' >>= next') S := by
  intro b r b' r' hRun hRun'
  obtain ⟨a, t, hStep, hThen⟩ := bind_eq_ok.mp hRun
  obtain ⟨a', t', hStep', hThen'⟩ := bind_eq_ok.mp hRun'
  exact hNext a t a' t' (h a t a' t' hStep hStep') b r b' r' hThen hThen'

/-- A step that only the first exploration takes. -/
theorem bind_left {Q : α → Session σ ω → Prop} {R : Session σ ω → Prop} {next : α → Explore σ ω β}
    {then' : Explore σ ω β} (h : Ensures s step Q R)
    (hNext : ∀ a t, Q a t → Together t s' (next a) then' S) :
    Together s s' (step >>= next) then' S := by
  intro b r b' r' hRun hRun'
  obtain ⟨a, t, hStep, hThen⟩ := bind_eq_ok.mp hRun
  exact hNext a t (h.of_eq_ok hStep) b r b' r' hThen hRun'

/-- Both explorations take the same step from the same session. -/
theorem bind_same {Q : α → Session σ ω → Prop} {R : Session σ ω → Prop}
    {next next' : α → Explore σ ω β} (h : Ensures s step Q R)
    (hNext : ∀ a t, Q a t → Together t t (next a) (next' a) S) :
    Together s s (step >>= next) (step >>= next') S := by
  intro b r b' r' hRun hRun'
  obtain ⟨a, t, hStep, hThen⟩ := bind_eq_ok.mp hRun
  obtain ⟨a', t', hStep', hThen'⟩ := bind_eq_ok.mp hRun'
  rw [hStep] at hStep'
  cases hStep'
  exact hNext a t (h.of_eq_ok hStep) b r b' r' hThen hThen'

theorem mono {Q' : α → Session σ ω → α → Session σ ω → Prop} (h : Together s s' step step' Q)
    (hQ : ∀ a t a' t', Q a t a' t' → Q' a t a' t') : Together s s' step step' Q' :=
  fun a t a' t' hRun hRun' => hQ a t a' t' (h a t a' t' hRun hRun')

theorem work_bind {next next' : ω → Explore σ ω β}
    (h : Together s s' (next s.work) (next' s'.work) S) :
    Together s s' (work >>= next) (work >>= next') S :=
  h

theorem modifyWork_bind {f f' : ω → ω} {next next' : Unit → Explore σ ω β}
    (h : Together { s with work := f s.work } { s' with work := f' s'.work } (next ()) (next' ())
      S) :
    Together s s' (modifyWork f >>= next) (modifyWork f' >>= next') S :=
  h

theorem stopped_bind {next next' : Bool → Explore σ ω β} (h : Abreast s s')
    (hNext : Together s s' (next s.stop) (next' s.stop) S) :
    Together s s' (stopped >>= next) (stopped >>= next') S := by
  intro b r b' r' hRun hRun'
  rw [stopped_bind_run] at hRun hRun'
  rw [h.stop] at hRun'
  exact hNext b r b' r' hRun hRun'

/-- The same report in both keeps them abreast. -/
theorem report (event : Event) (h : Abreast s s') :
    Together s s' (report env event) (report env event)
      (fun _ t _ t' => Abreast t t' ∧ t.work = s.work ∧ t'.work = s'.work) := by
  rintro _ _ _ _ ⟨⟩ ⟨⟩
  split
  · refine ⟨⟨?_, ?_⟩, rfl, rfl⟩
    · show env.react (event :: s'.trace) s'.stop = env.react (event :: s.trace) s.stop
      rw [h.trace, h.stop]
    · show event :: s'.trace = event :: s.trace
      rw [h.trace]
  · exact ⟨h, rfl, rfl⟩

theorem report_bind {event : Event} {next next' : Unit → Explore σ ω β} (h : Abreast s s')
    (hNext : ∀ t t', Abreast t t' → t.work = s.work → t'.work = s'.work →
      Together t t' (next ()) (next' ()) S) :
    Together s s' (Explore.report env event >>= next) (Explore.report env event >>= next') S :=
  (Together.report event h).bind fun _ t _ t' ⟨hAbreast, hWork, hWork'⟩ =>
    hNext t t' hAbreast hWork hWork'

end Together

/-! ## Questions -/

variable {e e' : Expr}

/-- Both questions have been answered in the same way, and nothing else has happened. -/
structure Answered [Reals] (e : Expr) (s s' : Session σ ω) (b : Bool) (t : Session σ ω) (b' : Bool)
    (t' : Session σ ω) : Prop where
  same : b' = b
  satisfiable : b = true → ∃ ρ, e.holds ρ = true
  abreast : Abreast t t'
  work : t.work = s.work
  work' : t'.work = s'.work

/-- Phased questions are reported in the same way, whatever the answers are. -/
theorem together_holdsDuring_abreast (h : Abreast s s') (phase : Phase) (depth : Nat)
    (question question' : Question) :
    Together s s' (holdsDuring env phase depth question e)
      (holdsDuring env phase depth question' e') (fun _ t _ t' => Abreast t t') := by
  refine .report_bind h fun r r' hr _ _ => ?_
  refine .bind (Q := fun _ o _ o' => Abreast o o') ?_ ?_
  · rintro _ _ _ _ ⟨⟩ ⟨⟩
    exact ⟨hr.stop, hr.trace⟩
  intro v o v' o' ho
  refine .report_bind ho fun u u' hu _ _ => ?_
  intro b t b' t' hRun hRun'
  -- an open question ends an exploration, so both have a verdict
  cases v <;> cases hRun <;> cases v' <;> cases hRun' <;> exact hu

section Truthful

variable [Reals]
variable (hTrue : env.solver.Truthful) (hSame : (∃ ρ, e.holds ρ = true) ↔ ∃ ρ, e'.holds ρ = true)

include hTrue hSame

theorem Answered.of_answers {b b' : Bool}
    (hAnswer : env.solver.Answers e (if b then .sat else .unsat))
    (hAnswer' : env.solver.Answers e' (if b' then .sat else .unsat)) (hAbreast : Abreast t t')
    (hWork : t.work = s.work) (hWork' : t'.work = s'.work) : Answered e s s' b t b' t' := by
  have hb := hTrue.answers_iff hAnswer
  have hb' := hTrue.answers_iff hAnswer'
  exact ⟨Bool.eq_iff_iff.mpr (hb'.trans (hSame.symm.trans hb.symm)), hb.mp, hAbreast, hWork, hWork'⟩

theorem together_holds (hAbreast : Abreast s s') (question question' : Question) :
    Together s s' (holds env question e) (holds env question' e') (Answered e s s') := by
  intro b t b' t' hRun hRun'
  obtain ⟨hAnswer, memory, rfl⟩ := (ensures_holds_memory question e).of_eq_ok hRun
  obtain ⟨hAnswer', memory', rfl⟩ := (ensures_holds_memory question' e').of_eq_ok hRun'
  exact .of_answers hTrue hSame hAnswer hAnswer' ⟨hAbreast.stop, hAbreast.trace⟩ rfl rfl

/-- A true solver answers two such questions in the same way during a phase. -/
theorem together_holdsDuring (hAbreast : Abreast s s') (phase : Phase) (depth : Nat)
    (question question' : Question) :
    Together s s' (holdsDuring env phase depth question e)
      (holdsDuring env phase depth question' e') (Answered e s s') := by
  intro b t b' t' hRun hRun'
  obtain ⟨hAnswer, hWork, -⟩ := (ensures_holdsDuring phase depth question e).of_eq_ok hRun
  obtain ⟨hAnswer', hWork', -⟩ := (ensures_holdsDuring phase depth question' e').of_eq_ok hRun'
  exact .of_answers hTrue hSame hAnswer hAnswer'
    (together_holdsDuring_abreast hAbreast phase depth question question' b t b' t' hRun hRun')
    hWork hWork'

end Truthful

end Explore

/-! ## Explorations -/

namespace Exploration

open Explore

variable {σ ω α β : Type} {x y : Exploration σ ω β α} {s s' t t' : Session σ ω} {a a' : α}
  {b b' : β} {Along : β → Session σ ω → β → Session σ ω → Prop} {Agree : α → α → Prop}
  (hTurn : ∀ b s b' s', Along b s b' s' →
    Together s s' (x.turn b) (y.turn b') (Turn.Meets Along (fun _ _ _ => False) Agree))

include hTurn

/-- Turns that end two explorations end them with results that agree. -/
theorem agree_of_turns {n n' : Nat} (hs : Along b s b' s') (hRun : x.turns n b s = .ok (.done a) t)
    (hRun' : y.turns n' b' s' = .ok (.done a') t') : Agree a a' := by
  induction n generalizing n' b s b' s' with
  | zero => cases hRun
  | succ n ih =>
    cases n' with
    | zero => cases hRun'
    | succ n' =>
      obtain ⟨next, r, hNext, hRest⟩ := bind_eq_ok.mp hRun
      obtain ⟨next', r', hNext', hRest'⟩ := bind_eq_ok.mp hRun'
      have hMeets := hTurn b s b' s' hs next r next' r' hNext hNext'
      cases next with
      | again c =>
        cases next' with
        | again c' => exact ih hMeets hRest hRest'
        | done => exact hMeets.elim
      | done =>
        cases next' with
        | again => exact hMeets.elim
        | done =>
          cases hRest
          cases hRest'
          exact hMeets

/-- Two explorations that both return end with results that agree. -/
theorem agree_of_together (hFirst : Together s s' x.first y.first Along)
    (hRun : x.run s = some (.ok a t)) (hRun' : y.run s' = some (.ok a' t')) : Agree a a' := by
  obtain ⟨n, hn⟩ := run_eq_ok_iff.mp hRun
  obtain ⟨n', hn'⟩ := run_eq_ok_iff.mp hRun'
  obtain ⟨b, r, hb, hTurns⟩ := bind_eq_ok.mp hn
  obtain ⟨b', r', hb', hTurns'⟩ := bind_eq_ok.mp hn'
  exact agree_of_turns hTurn (hFirst b r b' r' hb hb') hTurns hTurns'

end Exploration

end StateSpace
