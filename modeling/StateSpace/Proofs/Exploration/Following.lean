import StateSpace.Proofs.Exploration.Outcome

/-!
# An exploration that follows another one

`Explore.Follows s s' step step' Q` says that whenever the first step returns, so does the second
one, and that both then end with `Q`. The two may differ in their data and their flags, so one of
them can stop while the other one goes on. What the first one was told, the second one is told as
well, if the answers of the solver depend on the question alone (`Solver.Repeatable`).

Whole explorations follow each other if their turns do (`Exploration.exists_of_follows`): the second
one may end while the first one goes on.
-/

namespace StateSpace

variable {σ : Type}

/-- All answers depend on the question alone. -/
structure Solver.Repeatable (solver : Solver σ) : Prop where
  decide : solver.Consistent
  solve : ∀ e memory memory', (solver.solve e memory).1 = (solver.solve e memory').1

/-- What has been answered once is the answer ever after. -/
theorem Solver.Consistent.decide_eq {solver : Solver σ} (h : solver.Consistent) {e : Expr}
    {verdict : Verdict} (hAnswer : solver.Answers e verdict) (memory : σ) :
    (solver.decide e memory).1 = verdict := by
  obtain ⟨memory', rfl⟩ := hAnswer
  exact h e memory memory'

theorem Solver.Consistent.answers_unique {solver : Solver σ} (h : solver.Consistent) {e : Expr}
    {v v' : Verdict} (hv : solver.Answers e v) (hv' : solver.Answers e v') : v = v' := by
  obtain ⟨memory, rfl⟩ := hv
  exact h.decide_eq hv' memory

/-- Others leave the stop flag as it is. -/
def Surroundings.Aloof (env : Surroundings σ) : Prop :=
  ∀ trace flag, env.react trace flag = flag

theorem Surroundings.Aloof.calm {env : Surroundings σ} (h : env.Aloof) : env.Calm :=
  fun trace => h trace false

/-- Surroundings with answers that can be repeated are their own peers. -/
theorem Surroundings.Aloof.peers {env : Surroundings σ} (h : env.Aloof)
    (hSolver : env.solver.Repeatable) : env.Peers env :=
  peers_of_consistent hSolver.decide rfl h.calm h.calm

namespace Explore

variable {ω α β : Type} {env : Surroundings σ} {s s' t : Session σ ω} {step step' : Explore σ ω α}
  {Q : α → Session σ ω → α → Session σ ω → Prop} {S : β → Session σ ω → β → Session σ ω → Prop}

/-- What is found can be found again. -/
theorem Alike.keepsSolve (hSolver : env.solver.Repeatable) (hEnv : env.Peers env) :
    (Alike.congruence hEnv).KeepsSolve := by
  intro ω α e next next' hDecided hOpen
  have hNext : ∀ answer, Alike (next answer) (next' answer) := fun answer =>
    if hVerdict : answer.verdict = .dontKnow then .of_declines hEnv (hOpen answer hVerdict)
    else hDecided answer hVerdict
  refine Alike.bind ?_ hNext
  intro s s' hStop hStop' hWork
  show SameEnd (.ok (env.solver.solve e s.memory).1 _) (.ok (env.solver.solve e s'.memory).1 _)
  rw [hSolver.solve e s.memory s'.memory]
  exact .ok hWork hStop hStop'

/-! ## Steps that return -/

/-- A report to those who are aloof changes neither the data nor the flag. -/
theorem report_run (hEnv : env.Aloof) (event : Event) (s : Session σ ω) :
    ∃ t, report env event s = .ok () t ∧ t.work = s.work ∧ t.stop = s.stop := by
  let Q (t : Session σ ω) : Prop := t.work = s.work ∧ t.stop = s.stop
  suffices h : Q (if env.watched then _ else s) from ⟨_, rfl, h⟩
  split
  · exact ⟨rfl, hEnv _ _⟩
  · exact ⟨rfl, rfl⟩

/-- A question that was answered is answered again. -/
theorem holds_run (hSolver : env.solver.Consistent) {e : Expr} {b : Bool}
    (hAnswer : env.solver.Answers e (if b then .sat else .unsat)) (question : Question)
    (s : Session σ ω) : ∃ memory, holds env question e s = .ok b { s with memory := memory } := by
  have hDecide : decide env e s = .ok (if b then .sat else .unsat)
      { s with memory := (env.solver.decide e s.memory).2 } := by
    rw [← hSolver.decide_eq hAnswer s.memory]
    rfl
  refine ⟨(env.solver.decide e s.memory).2, ?_⟩
  unfold holds
  rw [bind_run_of_ok hDecide]
  cases b <;> rfl

/-! ## Steps that follow other ones -/

/-- If a step from `s` returns, then a step from `s'` returns as well, and they end with `Q`. -/
def Follows (s s' : Session σ ω) (step step' : Explore σ ω α)
    (Q : α → Session σ ω → α → Session σ ω → Prop) : Prop :=
  ∀ a t, step s = .ok a t → ∃ a' t', step' s' = .ok a' t' ∧ Q a t a' t'

namespace Follows

theorem of_alike (h : Alike step step') (hStop : s.stop = false) (hStop' : s'.stop = false)
    (hWork : s'.work = s.work)
    (hQ : ∀ a t t', step s = .ok a t → t'.work = t.work → t.stop = false → t'.stop = false →
      Q a t a t') : Follows s s' step step' Q := by
  intro a t hRun
  obtain ⟨t', hRun', hWork', hDown, hDown'⟩ := h.exists_of_eq_ok hStop hStop' hWork hRun
  exact ⟨a, t', hRun', hQ a t t' hRun hWork' hDown hDown'⟩

theorem pure {a a' : α} (h : Q a s a' s') : Follows s s' (pure a) (pure a') Q := by
  rintro _ _ ⟨⟩
  exact ⟨a', s', rfl, h⟩

/-- The sequence rule of steps that follow each other. -/
theorem bind {next next' : α → Explore σ ω β} (h : Follows s s' step step' Q)
    (hNext : ∀ a t a' t', Q a t a' t' → Follows t t' (next a) (next' a') S) :
    Follows s s' (step >>= next) (step' >>= next') S := by
  intro b r hRun
  obtain ⟨a, t, hStep, hThen⟩ := bind_eq_ok.mp hRun
  obtain ⟨a', t', hStep', hEnds⟩ := h a t hStep
  obtain ⟨b', r', hThen', hEnds'⟩ := hNext a t a' t' hEnds b r hThen
  exact ⟨b', r', bind_eq_ok.mpr ⟨a', t', hStep', hThen'⟩, hEnds'⟩

/-- A step that only the first exploration takes. -/
theorem bind_left {Q : α → Session σ ω → Prop} {R : Session σ ω → Prop} {next : α → Explore σ ω β}
    {then' : Explore σ ω β} (h : Ensures s step Q R)
    (hNext : ∀ a t, Q a t → Follows t s' (next a) then' S) :
    Follows s s' (step >>= next) then' S := by
  intro b r hRun
  obtain ⟨a, t, hStep, hThen⟩ := bind_eq_ok.mp hRun
  exact hNext a t (h.of_eq_ok hStep) b r hThen

/-- The second step returns anyhow. -/
theorem of_eq_ok {P : α → Session σ ω → Prop} {R : Session σ ω → Prop} {a' : α} {t' : Session σ ω}
    (h : Ensures s step P R) (hRun' : step' s' = .ok a' t') (hQ : ∀ a t, P a t → Q a t a' t') :
    Follows s s' step step' Q :=
  fun a t hRun => ⟨a', t', hRun', hQ a t (h.of_eq_ok hRun)⟩

theorem mono {Q' : α → Session σ ω → α → Session σ ω → Prop} (h : Follows s s' step step' Q)
    (hQ : ∀ a t a' t', Q a t a' t' → Q' a t a' t') : Follows s s' step step' Q' := by
  intro a t hRun
  obtain ⟨a', t', hRun', hEnds⟩ := h a t hRun
  exact ⟨a', t', hRun', hQ a t a' t' hEnds⟩

theorem work_bind {next next' : ω → Explore σ ω β}
    (h : Follows s s' (next s.work) (next' s'.work) S) :
    Follows s s' (work >>= next) (work >>= next') S :=
  h

theorem modifyWork_bind {f f' : ω → ω} {next next' : Unit → Explore σ ω β}
    (h : Follows { s with work := f s.work } { s' with work := f' s'.work } (next ()) (next' ())
      S) :
    Follows s s' (modifyWork f >>= next) (modifyWork f' >>= next') S :=
  h

theorem stopped_bind {next next' : Bool → Explore σ ω β}
    (h : Follows s s' (next s.stop) (next' s'.stop) S) :
    Follows s s' (stopped >>= next) (stopped >>= next') S :=
  h

/-- Both report something, and the flags stay as they are. -/
theorem report_bind (hEnv : env.Aloof) {event event' : Event} {next next' : Unit → Explore σ ω β}
    (h : ∀ t t' : Session σ ω, t.work = s.work → t'.work = s'.work → t.stop = s.stop →
      t'.stop = s'.stop → Follows t t' (next ()) (next' ()) S) :
    Follows s s' (report env event >>= next) (report env event' >>= next') S := by
  obtain ⟨t, hRun, hWork, hStop⟩ := report_run hEnv event s
  obtain ⟨t', hRun', hWork', hStop'⟩ := report_run hEnv event' s'
  intro b r hEnds
  rw [bind_run_of_ok hRun] at hEnds
  rw [bind_run_of_ok hRun']
  exact h t t' hWork hWork' hStop hStop' b r hEnds

end Follows

end Explore

namespace Exploration

open Explore

variable {ω α β : Type} {x y : Exploration σ ω β α} {s s' t : Session σ ω} {a : α} {b b' : β}
  {Along : β → Session σ ω → β → Session σ ω → Prop} {Apart : β → Session σ ω → α → Prop}
  {Agree : α → α → Prop} {R : Session σ ω → Prop}
  (hTurn : ∀ b s b' s', Along b s b' s' →
    Follows s s' (x.turn b) (y.turn b') (Turn.Meets Along Apart Agree))
  (hApart : ∀ b s a', Apart b s a' →
    Ensures s (x.turn b) (fun next t => next.Satisfies (Apart · t a') (Agree · a')) R)

include hTurn hApart

/-- If some turns of the first exploration end it, then so do some turns of the second one. -/
theorem exists_loop_of_follows (n : Nat) (hs : Along b s b' s')
    (hTurns : x.turns n b s = .ok (.done a) t) :
    ∃ a' t', y.loop b' s' = some (.ok a' t') ∧ Agree a a' := by
  induction n generalizing b s b' s' with
  | zero => cases hTurns
  | succ n ih =>
    obtain ⟨next, r, hNext, hRest⟩ := bind_eq_ok.mp hTurns
    obtain ⟨next', r', hNext', hMeets⟩ := hTurn b s b' s' hs next r hNext
    cases next' with
    | again c' =>
      cases next with
      | again c =>
        obtain ⟨a', t', hLoop, hAgree⟩ := ih hMeets hRest
        exact ⟨a', t', (loop_of_again hNext').trans hLoop, hAgree⟩
      | done => exact hMeets.elim
    | done a' =>
      refine ⟨a', r', loop_of_done hNext', ?_⟩
      cases next with
      | again c => exact (ensures_turns (fun b s h => hApart b s a' h) n hMeets).of_eq_ok hRest
      | done =>
        cases hRest
        exact hMeets

/-- If the first exploration returns, then so does the second one. -/
theorem exists_of_follows
    (hFirst : Follows s s' x.first y.first Along) (hRun : x.run s = some (.ok a t)) :
    ∃ a' t', y.run s' = some (.ok a' t') ∧ Agree a a' := by
  obtain ⟨n, hAfter⟩ := run_eq_ok_iff.mp hRun
  obtain ⟨b, r, hb, hTurns⟩ := bind_eq_ok.mp hAfter
  obtain ⟨b', r', hb', hr⟩ := hFirst b r hb
  rw [run_of_first hb']
  exact exists_loop_of_follows hTurn hApart n hr hTurns

end Exploration

end StateSpace
