import StateSpace.Proofs.Exploration.Congruence

/-!
# Loops that come to an end

An exploration comes to an end if each of its turns that goes on uses up some of a measure
(`Explore.endsWithin_of_turn`). Then it is some rounds and a last step (`Explore.EndsWithin`): the
number of rounds is bounded, and each of them that is followed by another one gains something.

A run does not fail for any reason of its own: it fails if a question stays open
(`Explore.FailsOnly`).
-/

namespace StateSpace

/-- Some question to the solver stays open. -/
def Solver.LeavesOpen {σ : Type} (solver : Solver σ) : Prop :=
  ∃ e memory, (solver.decide e memory).1 = .dontKnow ∨ (solver.solve e memory).1.verdict = .dontKnow

/-- A failure because a question stays open. -/
def Failure.IsOpen {σ : Type} (solver : Solver σ) (failure : Failure) : Prop :=
  (∃ question, failure = .undecided question) ∧ solver.LeavesOpen

namespace Explore

variable {σ ω α β γ : Type} {env : Surroundings σ} {s r t : Session σ ω} {step : Explore σ ω α}
  {Allowed : Failure → Prop}

/-! ## Failures -/

/-- Whenever the step fails, the failure is an allowed one. -/
def FailsOnly (Allowed : Failure → Prop) (step : Explore σ ω α) : Prop :=
  ∀ s failure t, step s = .error failure t → Allowed failure

namespace FailsOnly

theorem mono {Allowed' : Failure → Prop} (h : FailsOnly Allowed step)
    (hAllowed : ∀ failure, Allowed failure → Allowed' failure) : FailsOnly Allowed' step :=
  fun s failure t hRun => hAllowed failure (h s failure t hRun)

theorem pure (a : α) : FailsOnly Allowed (pure a : Explore σ ω α) := by
  intro s failure t h
  cases h

theorem throw {failure : Failure} (h : Allowed failure) :
    FailsOnly Allowed (throw failure : Explore σ ω α) := by
  rintro s _ t ⟨⟩
  exact h

/-- A sequence fails only as its steps do. -/
theorem bind {next : α → Explore σ ω β} (h : FailsOnly Allowed step)
    (hNext : ∀ a, FailsOnly Allowed (next a)) : FailsOnly Allowed (step >>= next) := by
  intro s failure t hRun
  cases hStep : step s with
  | ok a r =>
    rw [bind_run_of_ok hStep] at hRun
    exact hNext a r failure t hRun
  | error failure' r =>
    rw [bind_run_of_error hStep] at hRun
    cases hRun
    exact h s failure t hStep

theorem work : FailsOnly Allowed (work : Explore σ ω ω) := by
  intro s failure t h
  cases h

/-- What follows a look at the data knows them. -/
theorem of_work_bind {next : ω → Explore σ ω β} (h : FailsOnly Allowed (next s.work))
    {failure : Failure} (hRun : (Explore.work >>= next) s = .error failure t) : Allowed failure :=
  h s failure t hRun

theorem stopped : FailsOnly Allowed (stopped : Explore σ ω Bool) := by
  intro s failure t h
  cases h

theorem modifyWork (f : ω → ω) : FailsOnly Allowed (modifyWork f : Explore σ ω Unit) := by
  intro s failure t h
  cases h

theorem report (event : Event) : FailsOnly Allowed (report env event : Explore σ ω Unit) := by
  intro s failure t h
  cases h

/-- What follows a question knows what was answered. -/
theorem decide_bind {e : Expr} {next : Verdict → Explore σ ω β}
    (h : ∀ verdict, (verdict = .dontKnow → env.solver.LeavesOpen) →
      FailsOnly Allowed (next verdict)) :
    FailsOnly Allowed (decide env e >>= next) := by
  intro s failure t hRun
  exact h _ (fun hOpen => ⟨e, s.memory, .inl hOpen⟩) _ failure t hRun

theorem decide_bind_answers {e : Expr} {next : Verdict → Explore σ ω β}
    (h : ∀ verdict, env.solver.Answers e verdict → FailsOnly Allowed (next verdict)) :
    FailsOnly Allowed (decide env e >>= next) := by
  intro s failure t hRun
  exact h _ ⟨s.memory, rfl⟩ _ failure t hRun

theorem solve_bind {e : Expr} {next : Answer → Explore σ ω β}
    (h : ∀ answer, (answer.verdict = .dontKnow → env.solver.LeavesOpen) →
      FailsOnly Allowed (next answer)) : FailsOnly Allowed (solve env e >>= next) := by
  intro s failure t hRun
  exact h _ (fun hOpen => ⟨e, s.memory, .inr hOpen⟩) _ failure t hRun

/-- A question fails only by staying open itself. -/
theorem holdsDuring_open (phase : Phase) (depth : Nat) (question : Question) (e : Expr) :
    FailsOnly (fun failure => failure = .undecided question ∧ env.solver.Answers e .dontKnow)
      (Explore.holdsDuring env phase depth question e : Explore σ ω Bool) := by
  refine (report _).bind fun _ => decide_bind_answers fun verdict hAnswer =>
    (report _).bind fun _ => ?_
  cases verdict with
  | sat => exact .pure true
  | unsat => exact .pure false
  | dontKnow => exact .throw ⟨rfl, hAnswer⟩

theorem forM {f : β → Explore σ ω Unit} (h : ∀ b, FailsOnly Allowed (f b)) (bs : List β) :
    FailsOnly Allowed (bs.forM f) := by
  induction bs with
  | nil => exact .pure ()
  | cons b bs ih =>
    show FailsOnly Allowed (f b >>= fun _ => bs.forM f)
    exact (h b).bind fun _ => ih

/-- A step on a part fails only as it does on its own. -/
theorem onPart {ω' : Type} {step : Explore σ ω' α} (part : ω → ω') (restore : ω' → ω → ω)
    (h : FailsOnly Allowed step) : FailsOnly Allowed (onPart part restore step) := by
  intro s failure t hRun
  unfold Explore.onPart at hRun
  cases hPart : step { s with work := part s.work } with
  | ok a r =>
    rw [hPart] at hRun
    cases hRun
  | error e r =>
    rw [hPart] at hRun
    cases hRun
    exact h _ _ _ hPart

theorem of_declines {step' : Explore σ ω α} (hSolver : env.solver.LeavesOpen)
    (h : Declines env env step step') : FailsOnly (Failure.IsOpen env.solver) step := by
  induction h with
  | throw question => exact .throw ⟨⟨question, rfl⟩, hSolver⟩
  | report event _ ih => exact (FailsOnly.report event).bind fun _ => ih

/-- A step that fails only at open questions, beside any other one. -/
def congruence (env : Surroundings σ) : Congruence env env where
  Rel step _ := FailsOnly (Failure.IsOpen env.solver) step
  rel_pure := pure
  Throws _ := False
  rel_throw h := h.elim
  rel_bind := bind
  rel_work := work
  rel_modifyWork := modifyWork
  rel_stopped := stopped
  rel_onPart := onPart
  rel_report := report
  rel_decide _ _ _ hDecided hOpen := decide_bind fun v hLeft =>
    if hVerdict : v = .dontKnow then hVerdict ▸ of_declines (hLeft hVerdict) hOpen
    else hDecided v hVerdict

theorem keepsSolve (env : Surroundings σ) : (congruence env).KeepsSolve := by
  intro ω α e next next' hDecided hOpen
  refine solve_bind fun answer hSolver => ?_
  by_cases hVerdict : answer.verdict = .dontKnow
  · exact of_declines (hSolver hVerdict) (hOpen answer hVerdict)
  · exact hDecided answer hVerdict

end FailsOnly

/-- Whenever the step from `s` fails, the failure and the data that it leaves are as said. -/
def FailsFrom (s : Session σ ω) (P : Failure → ω → Prop) (step : Explore σ ω α) : Prop :=
  ∀ failure t, step s = .error failure t → P failure t.work

namespace FailsFrom

variable {P : Failure → ω → Prop}

theorem pure (a : α) : FailsFrom s P (pure a) := by
  intro failure t h
  cases h

theorem throw {failure : Failure} (h : P failure s.work) :
    FailsFrom s P (throw failure : Explore σ ω α) := by
  rintro _ t ⟨⟩
  exact h

/-- What follows a step knows that it returned. -/
theorem bind {next : α → Explore σ ω β} (h : FailsFrom s P step)
    (hNext : ∀ a t, step s = .ok a t → FailsFrom t P (next a)) : FailsFrom s P (step >>= next) := by
  intro failure t hRun
  cases hStep : step s with
  | ok a r =>
    rw [bind_run_of_ok hStep] at hRun
    exact hNext a r hStep failure t hRun
  | error failure' r =>
    rw [bind_run_of_error hStep] at hRun
    cases hRun
    exact h failure t hStep

theorem work_bind {next : ω → Explore σ ω β} (h : FailsFrom s P (next s.work)) :
    FailsFrom s P (Explore.work >>= next) :=
  h

theorem stopped_bind {next : Bool → Explore σ ω β} (h : FailsFrom s P (next s.stop)) :
    FailsFrom s P (Explore.stopped >>= next) :=
  h

theorem modifyWork (f : ω → ω) : FailsFrom s P (Explore.modifyWork f) := by
  intro failure t h
  cases h

theorem modifyWork_bind {f : ω → ω} {next : Unit → Explore σ ω β}
    (h : FailsFrom { s with work := f s.work } P (next ())) :
    FailsFrom s P (Explore.modifyWork f >>= next) :=
  h

theorem report (event : Event) : FailsFrom s P (Explore.report env event) := by
  intro failure t h
  cases h

theorem report_bind {event : Event} {next : Unit → Explore σ ω β}
    (h : ∀ t, t.work = s.work → FailsFrom t P (next ())) :
    FailsFrom s P (Explore.report env event >>= next) := by
  refine (report event).bind fun _ t hRun => h t ?_
  exact ((ensures_report_calm (R := fun _ => False) event).of_eq_ok hRun).1

end FailsFrom

/-! ## Rounds -/

/-- Of at most one round, it is that round that fails. -/
theorem error_of_rounds {round : β → Explore σ ω β} {n : Nat} {b : β} {failure : Failure}
    (hn : n ≤ 1) (h : rounds round n b s = .error failure t) : round b s = .error failure t := by
  obtain rfl | rfl : n = 0 ∨ n = 1 := by omega
  · cases h
  · cases hRound : round b s with
    | ok _ r =>
      rw [rounds, bind_run_of_ok hRound] at h
      cases h
    | error _ r =>
      rw [rounds, bind_run_of_error hRound] at h
      exact h

/-- A run from `s` comes to an end: it is at most `bound` rounds and a last step. Each round that is
followed by another one gains something, and the run fails only as allowed. -/
structure EndsWithin (bound : Nat) (Allowed : Failure → Prop)
    (Gains : Session σ ω → Session σ ω → Prop) (through : Nat → Explore σ ω β)
    (finish : γ → Explore σ ω α)
    (run : Session σ ω → Option (EStateM.Result Failure (Session σ ω) α)) (s : Session σ ω) :
    Prop where
  ends : ∃ n ≤ bound, (∃ c, run s = some ((do let _ ← through n; finish c) s)) ∧
    ∀ j, j + 1 < n → ∃ b t b' t', through j s = .ok b t ∧ through (j + 1) s = .ok b' t' ∧ Gains t t'
  fails : ∀ failure t, run s = some (.error failure t) → Allowed failure

section Loop

variable {Gains : Session σ ω → Session σ ω → Prop} {through : Nat → Explore σ ω β}
  {finish : γ → Explore σ ω α}
  {run : Session σ ω → Option (EStateM.Result Failure (Session σ ω) α)} {bound : Nat}

theorem EndsWithin.mono {bound' : Nat} (h : EndsWithin bound Allowed Gains through finish run s)
    (hBound : bound ≤ bound') : EndsWithin bound' Allowed Gains through finish run s := by
  obtain ⟨n, hn, hRest⟩ := h.ends
  exact ⟨⟨n, hn.trans hBound, hRest⟩, h.fails⟩

theorem EndsWithin.allow {Allowed' : Failure → Prop}
    (h : EndsWithin bound Allowed Gains through finish run s)
    (hAllowed : ∀ failure, Allowed failure → Allowed' failure) :
    EndsWithin bound Allowed' Gains through finish run s :=
  ⟨h.ends, fun failure t hRun => hAllowed failure (h.fails failure t hRun)⟩

/-- A run that comes to an end and has no way to fail returns. -/
theorem EndsWithin.exists_ok (h : EndsWithin bound Allowed Gains through finish run s)
    (hNone : ∀ failure, ¬Allowed failure) : ∃ a t, run s = some (.ok a t) := by
  obtain ⟨n, -, ⟨c, hRun⟩, -⟩ := h.ends
  generalize (do let _ ← through n; finish c : Explore σ ω α) s = result at hRun
  cases result with
  | ok a t => exact ⟨a, t, hRun⟩
  | error failure t => exact absurd (h.fails failure t hRun) (hNone failure)

/-- A run that fails before its first round. -/
theorem EndsWithin.of_error {failure : Failure} (c : γ) (hRun : run s = some (.error failure t))
    (hThrough : through 0 s = .error failure t) (hAllowed : Allowed failure) :
    EndsWithin bound Allowed Gains through finish run s := by
  refine ⟨⟨0, Nat.zero_le bound, ⟨c, ?_⟩, fun j hj => absurd hj (Nat.not_lt_zero _)⟩, ?_⟩
  · rw [hRun, bind_run_of_error hThrough]
  · intro failure' t' hRun'
    rw [hRun] at hRun'
    cases hRun'
    exact hAllowed

/-- Steps that come before the first round. -/
theorem EndsWithin.prepared {through' : Nat → Explore σ ω β}
    {run' : Session σ ω → Option (EStateM.Result Failure (Session σ ω) α)}
    (h : EndsWithin bound Allowed Gains through finish run r) (hRun : run' s = run r)
    (hThrough : ∀ n, through' n s = through n r) :
    EndsWithin bound Allowed Gains through' finish run' s := by
  obtain ⟨n, hn, ⟨c, hc⟩, hGains⟩ := h.ends
  refine ⟨⟨n, hn, ⟨c, ?_⟩, fun j hj => ?_⟩, fun failure t hFails => ?_⟩
  · rw [hRun, hc, bind_run_congr (hThrough n)]
  · obtain ⟨b, t, b', t', ht, ht', hGain⟩ := hGains j hj
    exact ⟨b, t, b', t', by rw [hThrough, ht], by rw [hThrough, ht'], hGain⟩
  · exact h.fails failure t (hRun ▸ hFails)

/-- A run of at most one round. -/
theorem EndsWithin.of_last {round : β → Explore σ ω β} {n : Nat} {b : β} {c : γ} (hn : n ≤ 1)
    (hRun : run s = some ((do let _ ← rounds round n b; finish c) s))
    (hFinish : FailsOnly Allowed (finish c))
    (hRound : ∀ failure t, round b s = .error failure t → Allowed failure) :
    EndsWithin (bound + 1) Allowed Gains (fun n => rounds round n b) finish run s := by
  refine ⟨⟨n, by omega, ⟨c, hRun⟩, fun j hj => by omega⟩, fun failure t hFails => ?_⟩
  rw [hRun, Option.some.injEq] at hFails
  cases hRounds : rounds round n b s with
  | ok _ r =>
    rw [bind_run_of_ok hRounds] at hFails
    exact hFinish r failure t hFails
  | error failure' r =>
    rw [bind_run_of_error hRounds] at hFails
    cases hFails
    exact hRound failure t (error_of_rounds hn hRounds)

/-- A round that gains something, and then a run that comes to an end. -/
theorem EndsWithin.of_first {round : β → Explore σ ω β}
    {run' : Session σ ω → Option (EStateM.Result Failure (Session σ ω) α)} {b b' : β}
    (hRound : round b s = .ok b' t) (hGain : Gains s t) (hRun : run' s = run t)
    (h : EndsWithin bound Allowed Gains (fun n => rounds round n b') finish run t) :
    EndsWithin (bound + 1) Allowed Gains (fun n => rounds round n b) finish run' s := by
  obtain ⟨n, hn, ⟨c, hc⟩, hGains⟩ := h.ends
  have hThrough : ∀ n, rounds round (n + 1) b s = rounds round n b' t := fun n =>
    bind_run_of_ok hRound
  refine ⟨⟨n + 1, by omega, ⟨c, ?_⟩, fun j hj => ?_⟩, fun failure r hFails => ?_⟩
  · rw [hRun, hc, bind_run_congr (hThrough n)]
  · cases j with
    | zero => exact ⟨b, s, b', t, rfl, hThrough 0, hGain⟩
    | succ j =>
      obtain ⟨b, r, b', r', hr, hr', hGain⟩ := hGains j (by omega)
      exact ⟨b, r, b', r', (hThrough j).trans hr, (hThrough (j + 1)).trans hr', hGain⟩
  · exact h.fails failure r (hRun ▸ hFails)

/-- A loop comes to an end if each of its turns ends it, before, in or after a round, or goes on
with less of a measure. -/
theorem endsWithin_of_turn
    (loop : β → Session σ ω → Option (EStateM.Result Failure (Session σ ω) α))
    {round : β → Explore σ ω β} (Inv : β → Session σ ω → Prop) (measure : Session σ ω → Nat)
    (hFinish : ∀ c, FailsOnly Allowed (finish c))
    (hRound : ∀ b s, Inv b s → ∀ failure t, round b s = .error failure t → Allowed failure)
    (hTurn : ∀ b s, Inv b s →
      (∃ n ≤ 1, ∃ c, loop b s = some ((do let _ ← rounds round n b; finish c) s)) ∨
      ∃ b' t, round b s = .ok b' t ∧ loop b s = loop b' t ∧ Inv b' t ∧ measure t < measure s ∧
        Gains s t)
    {b : β} (hs : Inv b s) :
    EndsWithin (measure s + 1) Allowed Gains (fun n => rounds round n b) finish (loop b) s := by
  -- each turn that goes on uses up some of the measure
  generalize hLess : measure s = m
  induction m using Nat.strongRecOn generalizing b s with
  | ind m ih =>
    rcases hTurn b s hs with ⟨n, hn, c, hEnds⟩ | ⟨b', t, ht, hGoes, hInv, hlt, hGain⟩
    · exact .of_last hn hEnds (hFinish c) (hRound b s hs)
    · have hRest := ih (measure t) (hLess ▸ hlt) hInv rfl
      exact (EndsWithin.of_first ht hGain hGoes hRest).mono (by omega)

end Loop

end Explore

end StateSpace
