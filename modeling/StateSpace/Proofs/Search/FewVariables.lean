import StateSpace.Proofs.Search.Transcript
import StateSpace.Proofs.Solver.Reliable

/-!
# Explorations with few variables in each question

Leaving questions of many variables open makes no difference to an exploration that asks none. A run
is told apart from others by its transcript: if no question on it has more than `count` variables,
then the exploration takes the same course with the solver that leaves larger ones open
(`Exploration.exists_transcript`). So a run by decision diagrams is a run with a reliable solver
(`Solver.byDiagram_atMost_reliable`), unless it asks about more variables than there are slots.
-/

namespace StateSpace

variable {σ : Type}

/-- No question has more than `count` variables. -/
def Transcript.AtMost (count : Nat) (asked : Transcript) : Prop :=
  ∀ inquiry ∈ asked, inquiry.formula.occurring.toFinset.card ≤ count

theorem Transcript.atMost_append {count : Nat} {later earlier : Transcript} :
    AtMost count (later ++ earlier) ↔ AtMost count later ∧ AtMost count earlier :=
  List.forall_mem_append

theorem Session.noting_inj {ω : Type} {s t : Session σ ω} {asked asked' : Transcript}
    (h : s.noting asked = t.noting asked') : s = t ∧ asked = asked' := by
  obtain ⟨⟩ := s
  obtain ⟨⟩ := t
  simp_all [Session.noting]

/-- The same surroundings, but questions of more than `count` variables are left open. -/
def Surroundings.atMost (env : Surroundings σ) (count : Nat) : Surroundings σ :=
  { env with solver := env.solver.atMost count }

namespace Explore

variable {ω α β : Type} {env : Surroundings σ} {count : Nat} {s t : Session σ ω}
  {noted : Explore (σ × Transcript) ω α} {step : Explore σ ω α}

/-- How a step ends, with a transcript of what the solver was asked. -/
def withTranscript (asked : Transcript) : EStateM.Result Failure (Session σ ω) α →
    EStateM.Result Failure (Session (σ × Transcript) ω) α
  | .ok a t => .ok a (t.noting asked)
  | .error e t => .error e (t.noting asked)

/-- The result and the transcript can be told from a result with a transcript. -/
theorem withTranscript_inj {r r' : EStateM.Result Failure (Session σ ω) α}
    {asked asked' : Transcript}
    (h : withTranscript asked r = withTranscript asked' r') : r = r' ∧ asked = asked' := by
  cases r with
  | ok a t =>
    cases r' with
    | ok a' t' =>
      injection h with hValue hEnd
      obtain ⟨rfl, rfl⟩ := Session.noting_inj hEnd
      exact ⟨by rw [hValue], rfl⟩
    | error => cases h
  | error e t =>
    cases r' with
    | ok => cases h
    | error e' t' =>
      injection h with hValue hEnd
      obtain ⟨rfl, rfl⟩ := Session.noting_inj hEnd
      exact ⟨by rw [hValue], rfl⟩

/-- The second step does what the first one notes, if the first one asks about few variables. -/
def SameIfFew (count : Nat) (noted : Explore (σ × Transcript) ω α) (step : Explore σ ω α) : Prop :=
  ∀ s asked, ∃ r more, noted (s.noting asked) = withTranscript (more ++ asked) r ∧
    (Transcript.AtMost count more → step s = r)

namespace SameIfFew

/-- A step that asks nothing. -/
theorem of_silent (h : ∀ s : Session σ ω, ∃ r, step s = r ∧
    ∀ asked, noted (s.noting asked) = withTranscript asked r) : SameIfFew count noted step := by
  intro s asked
  obtain ⟨r, hStep, hNoted⟩ := h s
  exact ⟨r, [], hNoted asked, fun _ => hStep⟩

theorem report (event : Event) :
    SameIfFew count (report env.transcribed event : Explore _ ω Unit)
      (report (env.atMost count) event) := by
  refine of_silent fun s => ?_
  obtain ⟨t, hReport, hNoted⟩ := noting_report env event s
  exact ⟨.ok () t, hReport, hNoted⟩

/-- The sequence rule: what both steps ask is few only if each of them asks few. -/
theorem bind {next : α → Explore (σ × Transcript) ω β} {next' : α → Explore σ ω β}
    (h : SameIfFew count noted step) (hNext : ∀ a, SameIfFew count (next a) (next' a)) :
    SameIfFew count (noted >>= next) (step >>= next') := by
  intro s asked
  obtain ⟨r, more, hNoted, hStep⟩ := h s asked
  cases r with
  | ok a t =>
    obtain ⟨r, further, hThen, hThen'⟩ := hNext a t (more ++ asked)
    refine ⟨r, further ++ more, ?_, fun hFew => ?_⟩
    · rw [bind_run_of_ok hNoted, hThen, List.append_assoc]
    · obtain ⟨hFurther, hMore⟩ := Transcript.atMost_append.mp hFew
      rw [bind_run_of_ok (hStep hMore), hThen' hFurther]
  | error e t =>
    refine ⟨.error e t, more, bind_run_of_error hNoted, fun hFew => ?_⟩
    exact bind_run_of_error (hStep hFew)

/-- Steps on a part are the same if they are on their own. -/
theorem onPart {ω' : Type} {noted : Explore (σ × Transcript) ω' α} {step : Explore σ ω' α}
    (part : ω → ω') (restore : ω' → ω → ω) (h : SameIfFew count noted step) :
    SameIfFew count (onPart part restore noted) (Explore.onPart part restore step) := by
  intro s asked
  obtain ⟨r, more, hNoted, hStep⟩ := h { s with work := part s.work } asked
  have hPart : noted { s.noting asked with work := part (s.noting asked).work } =
    withTranscript (more ++ asked) r := hNoted
  unfold Explore.onPart
  rw [hPart]
  cases r with
  | ok a t =>
    refine ⟨.ok a { t with work := restore t.work s.work }, more, rfl, fun hFew => ?_⟩
    rw [hStep hFew]
  | error e t =>
    refine ⟨.error e { t with work := restore t.work s.work }, more, rfl, fun hFew => ?_⟩
    rw [hStep hFew]

/-- A question of few variables has the same answer, and one of many is on the transcript. -/
theorem of_inquiry {e : Expr} {verdict : Verdict} {next : Explore (σ × Transcript) ω β}
    {next' then' : Explore σ ω β} {o : Session σ ω} (hNext : SameIfFew count next next')
    (hSame : e.occurring.toFinset.card ≤ count → then' s = next' o) (asked : Transcript) :
    ∃ r more, next (o.noting (⟨e, verdict⟩ :: asked)) = withTranscript (more ++ asked) r ∧
      (Transcript.AtMost count more → then' s = r) := by
  obtain ⟨r, further, hThen, hThen'⟩ := hNext o (⟨e, verdict⟩ :: asked)
  refine ⟨r, further ++ [⟨e, verdict⟩], ?_, fun hFew => ?_⟩
  · rw [hThen, List.append_assoc]
    rfl
  · obtain ⟨hFurther, hOne⟩ := Transcript.atMost_append.mp hFew
    rw [hSame (hOne _ List.mem_cons_self), hThen' hFurther]

/-- A question with few variables is answered by both solvers in the same way. -/
theorem decide_bind (e : Expr) {next : Verdict → Explore (σ × Transcript) ω β}
    {next' : Verdict → Explore σ ω β} (hNext : ∀ v, SameIfFew count (next v) (next' v)) :
    SameIfFew count (decide env.transcribed e >>= next)
      (decide (env.atMost count) e >>= next') := by
  intro s asked
  refine of_inquiry (o := { s with memory := (env.solver.decide e s.memory).2 }) (hNext _)
    (fun hFew => ?_) asked
  have hAnswer : (env.solver.atMost count).decide e s.memory = env.solver.decide e s.memory :=
    if_pos hFew
  show next' ((env.solver.atMost count).decide e s.memory).1
      { s with memory := ((env.solver.atMost count).decide e s.memory).2 } =
    next' (env.solver.decide e s.memory).1 { s with memory := (env.solver.decide e s.memory).2 }
  rw [hAnswer]

theorem of_declines (h : Declines env.transcribed (env.atMost count) noted step) :
    SameIfFew count noted step := by
  induction h with
  | throw question => exact of_silent fun s => ⟨.error _ s, rfl, fun _ => rfl⟩
  | report event _ ih => exact (report event).bind fun _ => ih

/-- A step with a transcript, and the step where questions of many variables are left open. -/
def congruence (env : Surroundings σ) (count : Nat) :
    Congruence env.transcribed (env.atMost count) where
  Rel := SameIfFew count
  rel_pure a := of_silent fun s => ⟨.ok a s, rfl, fun _ => rfl⟩
  Throws _ := True
  rel_throw {_ _ e} _ := of_silent fun s => ⟨.error e s, rfl, fun _ => rfl⟩
  rel_bind := bind
  rel_work := of_silent fun s => ⟨.ok s.work s, rfl, fun _ => rfl⟩
  rel_modifyWork f := of_silent fun s => ⟨.ok () { s with work := f s.work }, rfl, fun _ => rfl⟩
  rel_stopped := of_silent fun s => ⟨.ok s.stop s, rfl, fun _ => rfl⟩
  rel_onPart := onPart
  rel_report := report
  rel_decide e _ _ hDecided hOpen := decide_bind e fun v =>
    if hVerdict : v = .dontKnow then hVerdict ▸ of_declines hOpen else hDecided v hVerdict

/-- Asking for values with few variables is answered in the same way, too. -/
theorem keepsSolve (env : Surroundings σ) (count : Nat) : (congruence env count).KeepsSolve := by
  intro ω α e next next' hDecided hOpen s asked
  have hNext : ∀ answer, SameIfFew count (next answer) (next' answer) := fun answer =>
    if hVerdict : answer.verdict = .dontKnow then of_declines (hOpen answer hVerdict)
    else hDecided answer hVerdict
  refine of_inquiry (o := { s with memory := (env.solver.solve e s.memory).2 }) (hNext _)
    (fun hFew => ?_) asked
  have hAnswer : (env.solver.atMost count).solve e s.memory = env.solver.solve e s.memory :=
    if_pos hFew
  show next' ((env.solver.atMost count).solve e s.memory).1
      { s with memory := ((env.solver.atMost count).solve e s.memory).2 } =
    next' (env.solver.solve e s.memory).1 { s with memory := (env.solver.solve e s.memory).2 }
  rw [hAnswer]

end SameIfFew

end Explore

namespace Exploration

open Explore

variable {ω α β : Type} {env : Surroundings σ} {count : Nat} {x y : Exploration σ ω β α}
  {noted : Exploration (σ × Transcript) ω β α} {s : Session σ ω}
  {r : EStateM.Result Failure (Session σ ω) α}

theorem noted_eq_withTranscript {r' : EStateM.Result Failure (Session (σ × Transcript) ω) α}
    (h : Noted [] r r') : ∃ asked, r' = withTranscript asked r := by
  cases h with
  | returned => exact ⟨_, rfl⟩
  | undecided => exact ⟨_, rfl⟩
  | failed => exact ⟨_, rfl⟩

theorem ended_withTranscript (asked : Transcript) :
    (ended (withTranscript asked r) : EStateM.Result _ _ (Turn β α)) =
      withTranscript asked (ended r) := by
  cases r <;> rfl

/-- **A run that asks about few variables.** Whatever an exploration ends with, it has asked some
questions; if none of them has more than `count` variables, then it ends with the same where larger
ones are left open. -/
theorem exists_transcript (hCandid : x.Candid noted)
    (hRelated : Related (SameIfFew.congruence env count) noted y) (hRun : x.run s = some r) :
    ∃ asked, noted.run (s.noting []) = some (withTranscript asked r) ∧
      (Transcript.AtMost count asked → y.run s = some r) := by
  have hNoted := hCandid.run s []
  rw [hRun] at hNoted
  cases hEnd : noted.run (s.noting []) with
  | none =>
    rw [hEnd] at hNoted
    cases hNoted
  | some r' =>
    rw [hEnd] at hNoted
    cases hNoted with
    | some hNoted =>
      obtain ⟨asked, rfl⟩ := noted_eq_withTranscript hNoted
      refine ⟨asked, rfl, fun hFew => ?_⟩
      obtain ⟨n, hAfter⟩ := run_eq_some_iff.mp hEnd
      obtain ⟨q, more, hq, hSame⟩ := hRelated.after n s []
      rw [ended_withTranscript, hq, List.append_nil] at hAfter
      obtain ⟨rfl, hMore⟩ := withTranscript_inj hAfter
      exact run_eq_some_iff.mpr ⟨n, hSame (hMore ▸ hFew)⟩

end Exploration

/-! ## The explorations -/

section AtMost

open Explore

variable {env : Surroundings σ} (count : Nat) {maxDepth : Option Nat}

theorem Unrolling.unroll_atMost {s : Session σ Unrolling}
    {r : EStateM.Result Failure (Session σ Unrolling) Ending}
    (hRun : (unroll env maxDepth).run s = some r) :
    ∃ asked, (unroll env.transcribed maxDepth).run (s.noting []) = some (withTranscript asked r) ∧
      (Transcript.AtMost count asked → (unroll (env.atMost count) maxDepth).run s = some r) :=
  Exploration.exists_transcript (Search.candid_unroll env maxDepth)
    (related_unroll (SameIfFew.congruence env count) trivial maxDepth) hRun

namespace Search

/-- A symbolic search that asks with few variables only is one with the cautious solver. -/
theorem searchSymbolic_atMost (simplify : Bool) {s : Session σ (Work SymbolicState)}
    {r : EStateM.Result Failure (Session σ (Work SymbolicState)) (Image SymbolicState)}
    (hRun : (searchSymbolic env (symbolic env simplify) maxDepth).run s = some r) :
    ∃ asked, (searchSymbolic env.transcribed (symbolic env.transcribed simplify) maxDepth).run
        (s.noting []) = some (withTranscript asked r) ∧
      (Transcript.AtMost count asked →
        (searchSymbolic (env.atMost count) (symbolic (env.atMost count) simplify) maxDepth).run s =
          some r) := by
  have hSolve : (SameIfFew.congruence env count).KeepsSolve := SameIfFew.keepsSolve env count
  exact Exploration.exists_transcript (candid_searchSymbolic env maxDepth simplify)
    (related_searchSymbolic _ trivial (related_symbolic _ hSolve simplify) maxDepth) hRun

/-- So is a synchronised search. -/
theorem searchSynchronised_atMost (owner : FlagOwner) {s : Session σ (Work SymbolicState)}
    {r : EStateM.Result Failure (Session σ (Work SymbolicState)) (Image SymbolicState)}
    (hRun : (searchSymbolic env (synchronised env owner) maxDepth).run s = some r) :
    ∃ asked, (searchSymbolic env.transcribed (synchronised env.transcribed owner) maxDepth).run
        (s.noting []) = some (withTranscript asked r) ∧
      (Transcript.AtMost count asked →
        (searchSymbolic (env.atMost count) (synchronised (env.atMost count) owner) maxDepth).run s =
          some r) := by
  have hSolve : (SameIfFew.congruence env count).KeepsSolve := SameIfFew.keepsSolve env count
  have hRaise : SameIfFew count (raiseFlag owner : Step _ SymbolicState Unit)
      (raiseFlag owner : Step σ SymbolicState Unit) := by
    refine SameIfFew.of_silent fun s => ?_
    cases owner with
    | shared => exact ⟨.ok () { s with stop := true }, rfl, fun _ => rfl⟩
    | own => exact ⟨.ok () { s with work := { s.work with halted := true } }, rfl, fun _ => rfl⟩
  exact Exploration.exists_transcript (candid_searchSynchronised env maxDepth owner)
    (related_searchSymbolic _ trivial (related_synchronised _ hSolve hRaise) maxDepth) hRun

/-- So is an enumerative search. -/
theorem searchConcrete_atMost {s : Session σ (Work ConcreteState)}
    {r : EStateM.Result Failure (Session σ (Work ConcreteState)) (Image ConcreteState)}
    (hRun : (searchConcrete env (enumerative env) maxDepth).run s = some r) :
    ∃ asked, (searchConcrete env.transcribed (enumerative env.transcribed) maxDepth).run
        (s.noting []) = some (withTranscript asked r) ∧
      (Transcript.AtMost count asked →
        (searchConcrete (env.atMost count) (enumerative (env.atMost count)) maxDepth).run s =
          some r) :=
  Exploration.exists_transcript (candid_searchConcrete env maxDepth)
    (related_searchConcrete _ trivial (SameIfFew.keepsSolve env count) maxDepth) hRun

end Search

end AtMost

end StateSpace
