import StateSpace.Proofs.Exploration.Outcome
import StateSpace.Proofs.Unrolling.Congruence
import StateSpace.Proofs.Unrolling.Interruption

/-!
# Unrolling in several calls

Unrolling to a depth bound and then further ends as unrolling further at once does
(`Unrolling.unroll_resumed`). Each turn depends on the data alone, so it does not matter in which
call, by whom watched, it takes place; and where a run with a bound ends, a run with a larger one
passes.
-/

namespace StateSpace.Unrolling

open Explore

variable {σ : Type} {env env' : Surroundings σ} {system : System} {s s' r t : Session σ Unrolling}
  {depth : Nat}

/-! ## Turns with different bounds -/

/-- Turns that go on under a bound go on under a larger one, or under none. -/
theorem turns_of_bounded {first n last : Nat} {maxDepth : Option Nat}
    (hBound : ∀ d, maxDepth = some d → first ≤ d) (hle : depth ≤ first)
    (hRun : (unroll env (some first)).turns n depth s = .ok (.again last) r) :
    (unroll env maxDepth).turns n depth s = .ok (.again last) r := by
  induction n generalizing depth s with
  | zero => exact hRun
  | succ n ih =>
    obtain ⟨next, t, hTurn, hRest⟩ := Exploration.turns_succ_eq_again hRun
    obtain ⟨rfl, ⟨hNew, hStop, hDepth⟩, hIterate, hFlag⟩ := turn_eq_again hTurn
    have hlt : depth < first := by
      have : depth ≠ first := fun h => hDepth (by rw [h])
      omega
    have hGoes : maxDepth ≠ some depth := fun h => by
      have := hBound depth h
      omega
    have hTurn' : (unroll env maxDepth).turn depth s = .ok (.again (depth + 1)) t :=
      turn_of_ok hNew hStop hGoes hIterate hFlag
    exact (Exploration.turns_succ_of_again hTurn').trans (ih hlt hRest)

/-- A call with a bound that returns leaves what a call with a larger bound passes, at the depth
that it resumes from. Nobody raises the flag, so the turn that ends the first call does nothing. -/
theorem run_resumed (hCalm : env.Calm) {first : Nat} {maxDepth : Option Nat} {ending : Ending}
    (hs : Unstarted system s.work) (hRun : (unroll env (some first)).run s = some (.ok ending r))
    (hBound : ∀ d, maxDepth = some d → first ≤ d) :
    (unroll env maxDepth).run r = (unroll env maxDepth).run s := by
  obtain ⟨n, last, q, hAfter, hTurn⟩ := Exploration.exists_last_of_run hRun
  obtain ⟨depth, t, hFirst, hTurns⟩ := bind_eq_ok.mp hAfter
  have hRecords := env.solver.records_answers
  have ht : Settled env.solver.Answers system depth t.work :=
    settled_first (fun _ => env.solver.Answers) (.inl hs) hFirst
  have hq := settled_turns hRecords hCalm.steady ht hTurns
  obtain rfl : r = q := by
    rcases turn_eq_done hTurn with ⟨hSame, -⟩ | ⟨hFlag, hIterate, hRaised, -⟩
    · exact hSame
    · have hLowered := (settled_iterate hRecords hCalm.steady hq hFlag hIterate).2 hCalm
      exact absurd (hLowered.symm.trans hRaised) Bool.false_ne_true
  obtain ⟨_, p, hStart, hCurrent⟩ := bind_eq_ok.mp hFirst
  obtain ⟨rfl, rfl⟩ : p.work.currentDepth = depth ∧ p = t := by
    cases hCurrent
    exact ⟨rfl, rfl⟩
  have hp : Settled env.solver.Answers system 0 p.work :=
    (ensures_start.of_eq_ok hStart).1.settled hs
  have hZero := hp.currentDepth
  have hPasses := turns_of_bounded hBound (by omega) hTurns
  calc (unroll env maxDepth).run r
      = (unroll env maxDepth).loop r.work.currentDepth r :=
        Exploration.run_of_first (first_of_start (start_of_started hq.started) maxDepth)
    _ = (unroll env maxDepth).loop p.work.currentDepth p := by
        rw [hq.currentDepth, Exploration.loop_eq_of_again hPasses]
    _ = (unroll env maxDepth).run s :=
        (Exploration.run_of_first (first_of_start hStart maxDepth)).symm

/-- **Unrolling further is unrolling at once.** For every system, every solver whose answers depend
on the question alone, and sessions in which nobody raises the stop flag: if unrolling a fresh
system up to a depth returns, then unrolling further, to a larger depth or without a bound, has the
outcome that it has on the fresh system at once: it returns or fails with the same, and leaves the
same states, transitions, initial states and layers, or neither of the two ends. Who watches the
runs does not matter, nor what the solver remembers. -/
theorem unroll_resumed (hConsistent : env.solver.Consistent) (hSolver : env'.solver = env.solver)
    (hCalm : env.Calm) (hCalm' : env'.Calm)
    (hs : s.work = { system := system }) (hStop : s.stop = false)
    (hs' : s'.work = { system := system }) (hStop' : s'.stop = false)
    {first : Nat} {ending : Ending} (hRun : (unroll env (some first)).run s = some (.ok ending r))
    {maxDepth : Option Nat} (hBound : ∀ last, maxDepth = some last → first ≤ last) :
    (unroll env' maxDepth).outcome r = (unroll env' maxDepth).outcome s' := by
  have hEnv : env.Peers env' := Surroundings.peers_of_consistent hConsistent hSolver hCalm hCalm'
  have hEnv' : env'.Peers env' :=
    Surroundings.peers_of_consistent (hSolver ▸ hConsistent) rfl hCalm' hCalm'
  have hFresh : Unstarted system s'.work := hs' ▸ unstarted_fresh system
  let c := Alike.congruence hEnv
  let c' := Alike.congruence hEnv'
  -- the first run, in the second surroundings
  obtain ⟨r', hRun', hWork, hrStop, hrStop'⟩ := Exploration.exists_of_run_eq_ok
    (related_unroll c trivial (some first)) hStop hStop' (hs'.trans hs.symm) hRun
  calc (unroll env' maxDepth).outcome r
      = (unroll env' maxDepth).outcome r' :=
        Exploration.outcome_eq (related_unroll c' trivial maxDepth) hrStop' hrStop hWork.symm
    _ = (unroll env' maxDepth).outcome s' := by
        rw [Exploration.outcome, run_resumed hCalm' hFresh hRun' hBound, Exploration.outcome]

/-- Two variables that are set one after the other. -/
def relaySystem : System :=
  let x : Variable := ⟨"x", .bool⟩
  let y : Variable := ⟨"y", .bool⟩
  { stateVariables := [x, y]
    labels := [
      { name := "charge", stateVariables := [x, y], preconditions := [.not (.var x)],
        effects := [(x, .var x.primed)] },
      { name := "close", stateVariables := [x, y], preconditions := [.and (.var x) (.not (.var y))],
        effects := [(y, .var y.primed)] }] }

open scoped Reals

/-- Unrolling the relay to depth 1 and then to the end, or to depth 2, is unrolling it at once. -/
theorem unroll_resumed_relay :
    let fresh : Session Unit Unrolling := { memory := (), work := { system := relaySystem } }
    let unwatched : Surroundings Unit := { solver := .exhaustive, watched := false }
    let watched : Surroundings Unit := { solver := .exhaustive }
    ∃ r t, (unroll unwatched (some 1)).run fresh = some (.ok .bounded r) ∧
      (unroll watched (some 2)).outcome r = (unroll watched (some 2)).outcome fresh ∧
      (unroll watched none).outcome r = (unroll watched none).outcome fresh ∧
      (unroll watched none).outcome fresh = some (.ok (.fixpoint 2), t) := by
  intro fresh unwatched watched
  have hFirst : (unroll unwatched (some 1)).returns 3 fresh
      (fun ending _ => ending = .bounded) = true := by
    rw [unroll_eq]
    decide +kernel
  have hSingle : (unroll watched none).returns 4 fresh
      (fun ending _ => ending = .fixpoint 2) = true := by
    rw [unroll_eq]
    decide +kernel
  obtain ⟨_, r, hRun, hEnding⟩ := Exploration.exists_of_returns hFirst
  obtain rfl := of_decide_eq_true hEnding
  obtain ⟨_, t, hRun', hEnding'⟩ := Exploration.exists_of_returns hSingle
  obtain rfl := of_decide_eq_true hEnding'
  have hConsistent : unwatched.solver.Consistent := fun _ _ _ => rfl
  have hSolver : watched.solver = unwatched.solver := rfl
  have hWork : fresh.work = { system := relaySystem } := rfl
  have hStop : fresh.stop = false := rfl
  have hOutcome : (unroll watched none).outcome fresh = some (.ok (.fixpoint 2), t.work) := by
    rw [Exploration.outcome, hRun']
    rfl
  refine ⟨r, t.work, hRun, ?_, ?_, hOutcome⟩
  · refine unroll_resumed hConsistent hSolver (fun _ => rfl) (fun _ => rfl) hWork hStop hWork hStop
      hRun fun last hLast => ?_
    cases hLast
    decide
  · exact unroll_resumed hConsistent hSolver (fun _ => rfl) (fun _ => rfl) hWork hStop hWork hStop
      hRun fun last hLast => by cases hLast

end StateSpace.Unrolling
