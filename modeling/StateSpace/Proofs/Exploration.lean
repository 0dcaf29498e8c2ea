import StateSpace.Exploration
import StateSpace.Proofs.Expr.Truth

/-!
# What steps of an exploration ensure

`Explore.Ensures s step Q R` says what holds after a step from `s`: `Q` of what it returns, `R` if
it fails. Steps that ask, report or look leave the data alone, so an exploration is followed through
its changes of the data.

The stop flag is in the hands of others. `Surroundings.Steady` says that they do not raise it while
firings are under way, `Surroundings.Calm` that they do not raise it at all.
-/

namespace StateSpace

/-! ## Solvers and surroundings -/

/-- With some memory, the solver gives this verdict. -/
def Solver.Answers {σ : Type} (solver : Solver σ) (e : Expr) (verdict : Verdict) : Prop :=
  ∃ memory, (solver.decide e memory).1 = verdict

/-- What the memory of a solver tells of its answers: an answer is on record once it is given, and
stays there. -/
structure Solver.Records {σ : Type} (solver : Solver σ) (record : σ → Expr → Verdict → Prop) :
    Prop where
  noted : ∀ e memory, record (solver.decide e memory).2 e (solver.decide e memory).1
  kept : ∀ e memory e' verdict,
    record memory e' verdict → record (solver.decide e memory).2 e' verdict

/-- Of every solver it is known at least that it can give the answers it has given. -/
theorem Solver.records_answers {σ : Type} (solver : Solver σ) :
    solver.Records fun _ => solver.Answers where
  noted _ memory := ⟨memory, rfl⟩
  kept _ _ _ _ h := h

section Truth

variable [Reals]

/-- Whenever the solver answers, the answer is right, about reals as they are meant. -/
structure Solver.Truthful {σ : Type} (solver : Solver σ) : Prop where
  sat : ∀ e memory, (solver.decide e memory).1 = .sat → ∃ ρ, e.holds ρ = true
  unsat : ∀ e memory, (solver.decide e memory).1 = .unsat → ∀ ρ, e.holds ρ = false

/-- What a true answer says. -/
theorem Solver.Truthful.answers_iff {σ : Type} {solver : Solver σ} (hTrue : solver.Truthful)
    {e : Expr} {b : Bool} (h : solver.Answers e (if b then .sat else .unsat)) :
    b = true ↔ ∃ ρ, e.holds ρ = true := by
  obtain ⟨memory, hAnswer⟩ := h
  cases b with
  | true => exact iff_of_true rfl (hTrue.sat _ _ hAnswer)
  | false =>
    refine iff_of_false Bool.false_ne_true fun ⟨ρ, hρ⟩ => ?_
    rw [hTrue.unsat _ _ hAnswer ρ] at hρ
    cases hρ

/-- The solver that tries all values. -/
def Solver.exhaustive : Solver Unit where
  decide e memory := (if (e.projectOnto []).holds fun _ => 0 then .sat else .unsat, memory)
  solve e memory :=
    ({ verdict := if (e.projectOnto []).holds fun _ => 0 then .sat else .unsat }, memory)

/-- The solver that tries all values says the truth. -/
theorem Solver.exhaustive_truthful : exhaustive.Truthful := by
  have hSatisfiable : ∀ e : Expr, (e.projectOnto []).holds (fun _ => 0) = true ↔
      ∃ ρ, e.holds ρ = true := by
    intro e
    simp [Expr.holds_projectOnto, Environment.AgreeOn]
  refine ⟨fun e memory hSat => ?_, fun e memory hUnsat ρ => ?_⟩
  · refine (hSatisfiable e).mp ?_
    by_contra hNot
    simp [exhaustive, hNot] at hSat
  · by_contra hHolds
    have hSat := (hSatisfiable e).mpr ⟨ρ, by simpa using hHolds⟩
    simp [exhaustive, hSat] at hUnsat

end Truth

namespace Surroundings

variable {σ : Type}

/-- The flag is not raised except by what is reported at the end of an iteration. -/
def Steady (env : Surroundings σ) : Prop :=
  ∀ event trace, (∀ depth count, event ≠ .newStates depth count) →
    env.react (event :: trace) false = false

/-- The flag is not raised. -/
def Calm (env : Surroundings σ) : Prop :=
  ∀ trace, env.react trace false = false

theorem Calm.steady {env : Surroundings σ} (h : env.Calm) : env.Steady :=
  fun _ _ _ => h _

end Surroundings

/-! ## Steps -/

namespace Explore

variable {σ ω α β : Type} {env : Surroundings σ} {s t : Session σ ω} {step : Explore σ ω α}
  {Q Q' : α → Session σ ω → Prop} {R R' : Session σ ω → Prop} {S : β → Session σ ω → Prop}

theorem bind_run_of_ok {next : α → Explore σ ω β} {a : α} (h : step s = .ok a t) :
    (step >>= next) s = next a t := by
  simp only [Bind.bind, EStateM.bind, h]

theorem bind_run_of_error {next : α → Explore σ ω β} {e : Failure} (h : step s = .error e t) :
    (step >>= next) s = .error e t := by
  simp only [Bind.bind, EStateM.bind, h]

/-- What follows a step depends on the step's outcome alone. -/
theorem bind_run_congr {step' : Explore σ ω α} {next : α → Explore σ ω β} (h : step s = step' t) :
    (step >>= next) s = (step' >>= next) t := by
  simp only [Bind.bind, EStateM.bind, h]

/-- A step from `s` ends with `Q` of what it returns, or with `R` if it fails. -/
def Ensures (s : Session σ ω) (step : Explore σ ω α) (Q : α → Session σ ω → Prop)
    (R : Session σ ω → Prop) : Prop :=
  match step s with
  | .ok a t => Q a t
  | .error _ t => R t

namespace Ensures

theorem of_eq_ok {a : α} (h : Ensures s step Q R) (hRun : step s = .ok a t) : Q a t := by
  unfold Ensures at h
  rwa [hRun] at h

theorem of_eq_error {e : Failure} (h : Ensures s step Q R) (hRun : step s = .error e t) : R t := by
  unfold Ensures at h
  rwa [hRun] at h

/-- What holds of each outcome. -/
theorem of_run (hok : ∀ a t, step s = .ok a t → Q a t) (hError : ∀ e t, step s = .error e t → R t) :
    Ensures s step Q R := by
  unfold Ensures
  split
  · next a t hRun => exact hok a t hRun
  · next e t hRun => exact hError e t hRun

/-- Both postconditions may be weakened. -/
theorem mono (h : Ensures s step Q R) (hQ : ∀ a t, Q a t → Q' a t) (hR : ∀ t, R t → R' t) :
    Ensures s step Q' R' := by
  unfold Ensures at h ⊢
  cases hRun : step s with
  | ok a t =>
    rw [hRun] at h
    exact hQ a t h
  | error e t =>
    rw [hRun] at h
    exact hR t h

/-- Two postconditions of the results hold together. -/
theorem and (h : Ensures s step Q R) (h' : Ensures s step Q' R) :
    Ensures s step (fun a t => Q a t ∧ Q' a t) R := by
  unfold Ensures at h h' ⊢
  cases hRun : step s with
  | ok a t =>
    rw [hRun] at h h'
    exact ⟨h, h'⟩
  | error e t =>
    rw [hRun] at h
    exact h

theorem pure {a : α} (h : Q a s) : Ensures s (pure a) Q R :=
  h

theorem throw {e : Failure} (h : R s) : Ensures s (throw e) Q R :=
  h

/-- The sequence rule. -/
theorem bind {next : α → Explore σ ω β} (h : Ensures s step Q R)
    (hNext : ∀ a t, Q a t → Ensures t (next a) S R) : Ensures s (step >>= next) S R := by
  unfold Ensures at h ⊢
  cases hRun : step s with
  | ok a t =>
    rw [hRun] at h
    rw [bind_run_of_ok hRun]
    exact hNext a t h
  | error e t =>
    rw [hRun] at h
    rw [bind_run_of_error hRun]
    exact h

theorem work_bind {next : ω → Explore σ ω β} (h : Ensures s (next s.work) S R) :
    Ensures s (work >>= next) S R :=
  h

theorem stopped_bind {next : Bool → Explore σ ω β} (h : Ensures s (next s.stop) S R) :
    Ensures s (stopped >>= next) S R :=
  h

theorem modifyWork {f : ω → ω} {Q : Unit → Session σ ω → Prop}
    (h : Q () { s with work := f s.work }) : Ensures s (modifyWork f) Q R :=
  h

theorem modifyWork_bind {f : ω → ω} {next : Unit → Explore σ ω β}
    (h : Ensures { s with work := f s.work } (next ()) S R) :
    Ensures s (Explore.modifyWork f >>= next) S R :=
  h

/-- What one step keeps, steps one after the other keep. -/
theorem forM {f : β → Explore σ ω Unit} {bs : List β} (Inv : Session σ ω → Prop)
    (h : ∀ b ∈ bs, ∀ s, Inv s → Ensures s (f b) (fun _ t => Inv t) R) (hs : Inv s) :
    Ensures s (bs.forM f) (fun _ t => Inv t) R := by
  induction bs generalizing s with
  | nil => exact .pure hs
  | cons b bs ih =>
    obtain ⟨hb, hbs⟩ := List.forall_mem_cons.mp h
    show Ensures s (f b >>= fun _ => bs.forM f) _ _
    exact (hb s hs).bind fun _ t ht => ih hbs ht

/-- Steps on a part of the data, which is then put back. -/
theorem onPart {ω' : Type} {part : ω → ω'} {restore : ω' → ω → ω} {step : Explore σ ω' α}
    {Q : α → Session σ ω' → Prop} {R : Session σ ω' → Prop}
    (h : Ensures { s with work := part s.work } step Q R) :
    Ensures s (Explore.onPart part restore step)
      (fun a t => ∃ t', Q a t' ∧ t.work = restore t'.work s.work) (fun _ => True) := by
  unfold Ensures Explore.onPart at *
  cases hRun : step { s with work := part s.work } with
  | ok a t' =>
    rw [hRun] at h
    exact ⟨t', h, rfl⟩
  | error => trivial

end Ensures

theorem work_bind_run {next : ω → Explore σ ω β} : (work >>= next) s = next s.work s :=
  rfl

theorem stopped_bind_run {next : Bool → Explore σ ω β} : (stopped >>= next) s = next s.stop s :=
  rfl

theorem bind_eq_ok {next : α → Explore σ ω β} {b : β} :
    (step >>= next) s = .ok b t ↔ ∃ a s', step s = .ok a s' ∧ next a s' = .ok b t := by
  simp only [Bind.bind, EStateM.bind]
  cases step s with
  | ok a s' => simp
  | error e s' => simp

theorem bind_eq_error {next : α → Explore σ ω β} {e : Failure} :
    (step >>= next) s = .error e t ↔
      step s = .error e t ∨ ∃ a s', step s = .ok a s' ∧ next a s' = .error e t := by
  simp only [Bind.bind, EStateM.bind]
  cases step s with
  | ok a s' => simp
  | error e s' => simp

/-- Whether a step returns, with a check of what it returns; for runs that are evaluated. -/
def returns (step : Explore σ ω α) (s : Session σ ω) (check : α → Session σ ω → Bool) : Bool :=
  match step s with
  | .ok a t => check a t
  | .error _ _ => false

theorem exists_of_returns {check : α → Session σ ω → Bool} (h : returns step s check = true) :
    ∃ a t, step s = .ok a t ∧ check a t = true := by
  unfold returns at h
  split at h
  · next a t hRun => exact ⟨a, t, hRun, h⟩
  · cases h

/-- Whether a step fails, with a check of how it does; for runs that are evaluated. -/
def fails (step : Explore σ ω α) (s : Session σ ω) (check : Failure → Session σ ω → Bool) : Bool :=
  match step s with
  | .ok _ _ => false
  | .error e t => check e t

theorem exists_of_fails {check : Failure → Session σ ω → Bool} (h : fails step s check = true) :
    ∃ e t, step s = .error e t ∧ check e t = true := by
  unfold fails at h
  split at h
  · cases h
  · next e t hRun => exact ⟨e, t, hRun, h⟩

/-- The data is the same, and the flag has not been raised unless others raise it any time. -/
def Undisturbed (env : Surroundings σ) (s t : Session σ ω) : Prop :=
  t.work = s.work ∧ (env.Steady → s.stop = false → t.stop = false)

theorem Undisturbed.refl (env : Surroundings σ) (s : Session σ ω) : Undisturbed env s s :=
  ⟨rfl, fun _ h => h⟩

theorem Undisturbed.trans {r : Session σ ω} (h : Undisturbed env s t) (h' : Undisturbed env t r) :
    Undisturbed env s r :=
  ⟨h'.1.trans h.1, fun hSteady hs => h'.2 hSteady (h.2 hSteady hs)⟩

/-- A report leaves the work alone, and calm surroundings do not raise the flag on it. -/
theorem ensures_report_calm (event : Event) :
    Ensures s (report env event)
      (fun _ t => t.work = s.work ∧ (env.Calm → s.stop = false → t.stop = false)) R := by
  let Q (t : Session σ ω) : Prop := t.work = s.work ∧ (env.Calm → s.stop = false → t.stop = false)
  show Q (if env.watched then _ else s)
  split
  · refine ⟨rfl, fun hCalm hs => ?_⟩
    show env.react (event :: s.trace) s.stop = false
    rw [hs]
    exact hCalm _
  · exact ⟨rfl, fun _ hs => hs⟩

/-- A report leaves the data alone. -/
theorem Ensures.report_bind {event : Event} {next : Unit → Explore σ ω β}
    (h : ∀ t, t.work = s.work → Ensures t (next ()) S R) :
    Ensures s (report env event >>= next) S R :=
  (ensures_report_calm event).bind fun _ t ht => h t ht.1

/-- A report that counts no new states disturbs nothing else. -/
theorem ensures_report {event : Event} (env : Surroundings σ)
    (hEvent : ∀ depth count, event ≠ .newStates depth count) :
    Ensures s (report env event) (fun _ t => Undisturbed env s t) R := by
  show Undisturbed env s (if env.watched then _ else s)
  split
  · refine ⟨rfl, fun hSteady hs => ?_⟩
    show env.react (event :: s.trace) s.stop = false
    rw [hs]
    exact hSteady event s.trace hEvent
  · exact .refl env s

/-- A question is answered by the solver, and changes nothing but the memory of the solver. -/
theorem ensures_holds_memory (question : Question) (e : Expr) :
    Ensures s (holds env question e)
      (fun b t => env.solver.Answers e (if b then .sat else .unsat) ∧
        ∃ memory, t = { s with memory := memory })
      (fun t => t.work = s.work) := by
  refine Ensures.bind (Q := fun verdict t => env.solver.Answers e verdict ∧
    ∃ memory, t = { s with memory := memory }) ⟨⟨s.memory, rfl⟩, _, rfl⟩ ?_
  rintro verdict _ ⟨hAnswer, memory, rfl⟩
  cases verdict with
  | sat => exact ⟨hAnswer, memory, rfl⟩
  | unsat => exact ⟨hAnswer, memory, rfl⟩
  | dontKnow => rfl

theorem ensures_holds (question : Question) (e : Expr) :
    Ensures s (holds env question e)
      (fun b t => env.solver.Answers e (if b then .sat else .unsat) ∧ t.work = s.work)
      (fun t => t.work = s.work) := by
  refine (ensures_holds_memory question e).mono ?_ fun _ h => h
  rintro b _ ⟨hAnswer, memory, rfl⟩
  exact ⟨hAnswer, rfl⟩

section Record

variable {record : σ → Expr → Verdict → Prop}

/-- Nothing is struck off the record from one session to the other. -/
def Onward (record : σ → Expr → Verdict → Prop) (s t : Session σ ω) : Prop :=
  ∀ e verdict, record s.memory e verdict → record t.memory e verdict

theorem Onward.refl (s : Session σ ω) : Onward record s s :=
  fun _ _ h => h

theorem Onward.trans {r : Session σ ω} (h : Onward record s t) (h' : Onward record t r) :
    Onward record s r :=
  fun e verdict hs => h' e verdict (h e verdict hs)

theorem ensures_report_memory (env : Surroundings σ) (event : Event) :
    Ensures s (report env event) (fun _ t => t.memory = s.memory) R := by
  show (if env.watched then _ else s).memory = s.memory
  split <;> rfl

/-- A report leaves the data, the record and, unless the end of an iteration is reported, the
flag. -/
theorem ensures_report_onward {event : Event} (env : Surroundings σ)
    (record : σ → Expr → Verdict → Prop) (hEvent : ∀ depth count, event ≠ .newStates depth count) :
    Ensures s (report env event) (fun _ t => Onward record s t ∧ Undisturbed env s t) R := by
  refine ((ensures_report_memory env event).and (ensures_report env hEvent)).mono ?_ fun _ h => h
  rintro _ t ⟨hMemory, ht⟩
  refine ⟨fun e verdict h => ?_, ht⟩
  rwa [hMemory]

/-- A question is answered by the solver, and the answer is on record. -/
theorem ensures_holdsDuring_onward (hRecords : env.solver.Records record) (phase : Phase)
    (depth : Nat) (question : Question) (e : Expr) :
    Ensures s (holdsDuring env phase depth question e)
      (fun b t => record t.memory e (if b then .sat else .unsat) ∧ Onward record s t ∧
        Undisturbed env s t)
      (fun t => Onward record s t ∧ t.work = s.work) := by
  refine (ensures_report_onward env record (by simp)).bind fun _ t ⟨hst, ht⟩ => ?_
  refine Ensures.bind (Q := fun verdict r =>
    record r.memory e verdict ∧ Onward record t r ∧ Undisturbed env t r) ?_ fun verdict r h => ?_
  · exact ⟨hRecords.noted e t.memory, hRecords.kept e t.memory, rfl, fun _ h => h⟩
  obtain ⟨hAnswer, htr, hr⟩ := h
  refine (ensures_report_onward env record (by simp)).bind fun _ q ⟨hrq, hq⟩ => ?_
  have hOnward := (hst.trans htr).trans hrq
  have hAll := (ht.trans hr).trans hq
  have hAnswer' := hrq e verdict hAnswer
  cases verdict with
  | sat => exact ⟨hAnswer', hOnward, hAll⟩
  | unsat => exact ⟨hAnswer', hOnward, hAll⟩
  | dontKnow => exact ⟨hOnward, hAll.1⟩

end Record

theorem ensures_holdsDuring (phase : Phase) (depth : Nat) (question : Question) (e : Expr) :
    Ensures s (holdsDuring env phase depth question e)
      (fun b t => env.solver.Answers e (if b then .sat else .unsat) ∧ Undisturbed env s t)
      (fun t => t.work = s.work) :=
  (ensures_holdsDuring_onward env.solver.records_answers phase depth question e).mono
    (fun _ _ ⟨hAnswer, _, ht⟩ => ⟨hAnswer, ht⟩) fun _ h => h.2

end Explore

end StateSpace
