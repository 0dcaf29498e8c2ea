import StateSpace.Proofs.Exploration.Congruence

/-!
# Transcripts of explorations

A transcript holds every question that a solver is asked, with its verdict. A solver can keep one in
its memory without answering anything differently (`Solver.transcribed`). A step is candid if it
returns only when every question it asked was decided, and if the first open question ends it: it
fails because of that question and asks no other (`Explore.Candid`). What is built from candid steps
is candid, and so is an exploration whose first step and turns are
(`Exploration.candid_of_related`).
-/

namespace StateSpace

/-- A question to a solver, with the verdict on it. -/
structure Inquiry where
  formula : Expr
  verdict : Verdict

/-- What a solver was asked, the latest question first. -/
abbrev Transcript := List Inquiry

/-- No question stayed open. -/
def Transcript.Decided (asked : Transcript) : Prop :=
  ∀ inquiry ∈ asked, inquiry.verdict ≠ .dontKnow

theorem Transcript.decided_nil : Decided [] := by
  simp [Decided]

theorem Transcript.Decided.append {later earlier : Transcript} (h : later.Decided)
    (h' : earlier.Decided) : (later ++ earlier).Decided :=
  List.forall_mem_append.mpr ⟨h, h'⟩

/-- The solver with a transcript in its memory. -/
def Solver.transcribed {σ : Type} (solver : Solver σ) : Solver (σ × Transcript) where
  decide e := fun (memory, asked) =>
    let (verdict, memory) := solver.decide e memory
    (verdict, (memory, ⟨e, verdict⟩ :: asked))
  solve e := fun (memory, asked) =>
    let (answer, memory) := solver.solve e memory
    (answer, (memory, ⟨e, answer.verdict⟩ :: asked))

/-- A transcript is a record. -/
theorem Solver.records_transcript {σ : Type} (solver : Solver σ) :
    solver.transcribed.Records fun memory e verdict => ⟨e, verdict⟩ ∈ memory.2 where
  noted _ _ := List.mem_cons_self
  kept _ _ _ _ h := List.mem_cons_of_mem _ h

/-- The same surroundings, with a transcript of what the solver is asked. -/
def Surroundings.transcribed {σ : Type} (env : Surroundings σ) : Surroundings (σ × Transcript) where
  solver := env.solver.transcribed
  react := env.react
  clock memory := env.clock memory.1
  watched := env.watched

/-- The same session, with a transcript of what the solver was asked. -/
def Session.noting {σ ω : Type} (s : Session σ ω) (asked : Transcript) :
    Session (σ × Transcript) ω where
  memory := (s.memory, asked)
  stop := s.stop
  trace := s.trace
  profile := s.profile
  work := s.work

namespace Explore

variable {σ ω α β : Type} {env : Surroundings σ} {step : Explore σ ω α}
  {noted : Explore (σ × Transcript) ω α}

/-- How a step ends and how it ends with a transcript, where `asked` was asked before: in the same
way, with all questions decided if it returns. If it fails because of an open question, then that is
the last one, and the only one that is open. -/
inductive Noted (asked : Transcript) : EStateM.Result Failure (Session σ ω) α →
    EStateM.Result Failure (Session (σ × Transcript) ω) α → Prop
  | returned {a : α} {t : Session σ ω} {more : Transcript} (hDecided : more.Decided) :
      Noted asked (.ok a t) (.ok a (t.noting (more ++ asked)))
  | undecided {question : Question} {t : Session σ ω} {e : Expr} {more : Transcript}
      (hDecided : more.Decided) :
      Noted asked (.error (.undecided question) t)
        (.error (.undecided question) (t.noting (⟨e, .dontKnow⟩ :: more ++ asked)))
  | failed {failure : Failure} {t : Session σ ω} {more : Transcript}
      (hFailure : ∀ question, failure ≠ .undecided question) (hDecided : more.Decided) :
      Noted asked (.error failure t) (.error failure (t.noting (more ++ asked)))

/-- Questions that were decided earlier belong to the transcript of the whole. -/
theorem Noted.after {asked more : Transcript} {r : EStateM.Result Failure (Session σ ω) α}
    {r' : EStateM.Result Failure (Session (σ × Transcript) ω) α} (h : Noted (more ++ asked) r r')
    (hMore : more.Decided) : Noted asked r r' := by
  cases h with
  | returned hDecided =>
    rw [← List.append_assoc]
    exact .returned (hDecided.append hMore)
  | undecided hDecided =>
    rw [← List.append_assoc, List.cons_append]
    exact .undecided (hDecided.append hMore)
  | failed hFailure hDecided =>
    rw [← List.append_assoc]
    exact .failed hFailure (hDecided.append hMore)

/-- A step returns only if all its questions were decided, and ends with the first one that was not.
`noted` is the step with a transcript. -/
def Candid (step : Explore σ ω α) (noted : Explore (σ × Transcript) ω α) : Prop :=
  ∀ s asked, Noted asked (step s) (noted (s.noting asked))

theorem noting_report (env : Surroundings σ) (event : Event) (s : Session σ ω) :
    ∃ t, report env event s = .ok () t ∧
      ∀ asked, report env.transcribed event (s.noting asked) = .ok () (t.noting asked) := by
  refine ⟨_, rfl, fun asked => ?_⟩
  show EStateM.Result.ok () _ = EStateM.Result.ok () _
  by_cases hWatched : env.watched = true
  · simp [Surroundings.transcribed, Session.noting, hWatched]
  · simp [Surroundings.transcribed, Session.noting, hWatched]

/-- Steps that decline ask nothing. -/
theorem Declines.noting (h : Declines env env.transcribed step noted) (s : Session σ ω) :
    ∃ question t, step s = .error (.undecided question) t ∧
      ∀ asked, noted (s.noting asked) = .error (.undecided question) (t.noting asked) := by
  induction h generalizing s with
  | throw question => exact ⟨question, s, rfl, fun _ => rfl⟩
  | report event _ ih =>
    obtain ⟨t, hReport, hNoted⟩ := noting_report env event s
    obtain ⟨question, r, hNext, hNext'⟩ := ih t
    refine ⟨question, r, (bind_run_of_ok hReport).trans hNext, fun asked => ?_⟩
    exact (bind_run_of_ok (hNoted asked)).trans (hNext' asked)

namespace Candid

theorem pure (a : α) : Candid (pure a : Explore σ ω α) (pure a) :=
  fun _ _ => .returned Transcript.decided_nil

/-- The sequence rule of candid steps. -/
theorem bind {next : α → Explore σ ω β} {next' : α → Explore (σ × Transcript) ω β}
    (h : Candid step noted) (hNext : ∀ a, Candid (next a) (next' a)) :
    Candid (step >>= next) (noted >>= next') := by
  intro s asked
  have hStep := h s asked
  simp only [Bind.bind, EStateM.bind]
  generalize step s = r at hStep
  generalize noted (s.noting asked) = r' at hStep
  cases hStep with
  | returned hDecided => exact (hNext _ _ _).after hDecided
  | undecided hDecided => exact .undecided hDecided
  | failed hFailure hDecided => exact .failed hFailure hDecided

theorem report (event : Event) :
    Candid (report env event : Explore σ ω Unit) (report env.transcribed event) := by
  intro s asked
  obtain ⟨t, hReport, hNoted⟩ := noting_report env event s
  rw [hReport, hNoted]
  exact .returned Transcript.decided_nil

/-- A question is noted with its verdict. What follows declines if the question stayed open. -/
theorem of_inquiry {next : Explore σ ω β} {next' : Explore (σ × Transcript) ω β} {verdict : Verdict}
    (hDecided : verdict ≠ .dontKnow → Candid next next')
    (hOpen : verdict = .dontKnow → Declines env env.transcribed next next') (e : Expr)
    (s : Session σ ω) (asked : Transcript) :
    Noted asked (next s) (next' (s.noting (⟨e, verdict⟩ :: asked))) := by
  by_cases hVerdict : verdict = .dontKnow
  · obtain ⟨question, t, hNext, hNext'⟩ := (hOpen hVerdict).noting s
    rw [hNext, hNext', hVerdict]
    exact .undecided Transcript.decided_nil
  · have hOne : Transcript.Decided [⟨e, verdict⟩] := by simpa [Transcript.Decided] using hVerdict
    exact (hDecided hVerdict s ([⟨e, verdict⟩] ++ asked)).after hOne

/-- Steps on a part are candid if they are on their own. -/
theorem onPart {ω' : Type} {part : ω → ω'} {restore : ω' → ω → ω} {step : Explore σ ω' α}
    {noted : Explore (σ × Transcript) ω' α} (h : Candid step noted) :
    Candid (onPart part restore step) (Explore.onPart part restore noted) := by
  intro s asked
  have hStep : Noted asked (step { s with work := part s.work })
    (noted { s.noting asked with work := part (s.noting asked).work }) := h _ asked
  unfold Explore.onPart
  generalize step { s with work := part s.work } = r at hStep
  generalize noted { s.noting asked with work := part (s.noting asked).work } = r' at hStep
  cases hStep with
  | returned hDecided => exact .returned hDecided
  | undecided hDecided => exact .undecided hDecided
  | failed hFailure hDecided => exact .failed hFailure hDecided

/-- A step and the same step with a transcript. -/
def congruence (env : Surroundings σ) : Congruence env env.transcribed where
  Rel := Candid
  rel_pure := pure
  Throws e := ∀ question, e ≠ .undecided question
  rel_throw h _ _ := .failed h Transcript.decided_nil
  rel_bind := bind
  rel_work _ _ := .returned Transcript.decided_nil
  rel_modifyWork _ _ _ := .returned Transcript.decided_nil
  rel_stopped _ _ := .returned Transcript.decided_nil
  rel_onPart _ _ := onPart
  rel_report := report
  rel_decide e _ _ hDecided hOpen s asked :=
    of_inquiry (hDecided _) (fun hVerdict => hVerdict ▸ hOpen) e
      { s with memory := (env.solver.decide e s.memory).2 } asked

theorem keepsSolve (env : Surroundings σ) : (congruence env).KeepsSolve :=
  fun e _ _ hDecided hOpen s asked => of_inquiry (hDecided _) (hOpen _) e
    { s with memory := (env.solver.solve e s.memory).2 } asked

end Candid

end Explore

namespace Exploration

open Explore

variable {σ ω α β : Type} {x : Exploration σ ω β α} {noted : Exploration (σ × Transcript) ω β α}

/-- An exploration ends only in the ways of a candid step, and so do any number of its turns. -/
structure Candid (x : Exploration σ ω β α) (noted : Exploration (σ × Transcript) ω β α) : Prop where
  run : ∀ s asked, Option.Rel (Noted asked) (x.run s) (noted.run (s.noting asked))
  after : ∀ n, Explore.Candid (x.after n) (noted.after n)
  turns : ∀ n b, Explore.Candid (x.turns n b) (noted.turns n b)

/-- First turns that are noted go on or end in the same way. -/
theorem samePace_of_noted {asked : Transcript} {r : EStateM.Result Failure (Session σ ω) (Turn β α)}
    {r' : EStateM.Result Failure (Session (σ × Transcript) ω) (Turn β α)} (h : Noted asked r r') :
    SamePace (Noted asked) r r' := by
  cases h with
  | @returned next t more hDecided =>
    cases next with
    | again b => exact .again
    | done a => exact .ended (Noted.returned hDecided)
  | undecided hDecided => exact .ended (Noted.undecided hDecided)
  | failed hFailure hDecided => exact .ended (Noted.failed hFailure hDecided)

theorem candid_of_related {env : Surroundings σ} (h : Related (Candid.congruence env) x noted) :
    x.Candid noted where
  run s asked := run_rel fun n => samePace_of_noted (h.after n s asked)
  after := h.after
  turns := h.turns

end Exploration

end StateSpace
