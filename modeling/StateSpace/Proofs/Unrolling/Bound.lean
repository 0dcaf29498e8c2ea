import StateSpace.Proofs.Unrolling.Changes
import StateSpace.Proofs.Unrolling.Resumption
import StateSpace.Proofs.Unrolling.Termination

/-!
# Depth bounds

Unrolling looks for its depth bound at each depth that it comes to. So it stays within the bound if
the unrolling is not deeper yet, and it never meets the bound if the unrolling is: then it goes on
as if there were none (`Unrolling.unroll_bounded`).
-/

namespace StateSpace.Unrolling

open Explore

variable {σ : Type} {env : Surroundings σ} {given : Expr → Verdict → Prop} {system : System}
  {u v : Unrolling} {s t : Session σ Unrolling} {depth last : Nat}

/-! ## The depth to go on from -/

theorem currentDepth_mem (h : u.currentDepth ≠ 0) : u.currentDepth ∈ u.layers := by
  unfold currentDepth at h ⊢
  cases hMax : u.layers.maxKey? with
  | none =>
    rw [hMax] at h
    exact absurd rfl h
  | some last =>
    rw [Std.TreeMap.maxKey?_eq_some_iff_mem_and_forall] at hMax
    exact hMax.1

theorem currentDepth_le_of_layers (h : ∀ k ≠ 0, k ∈ v.layers → k ∈ u.layers) :
    v.currentDepth ≤ u.currentDepth := by
  by_cases hZero : v.currentDepth = 0
  · rw [hZero]
    exact Nat.zero_le _
  · exact le_currentDepth (h _ hZero (currentDepth_mem hZero))

/-- The start establishes depth 0, and no other. -/
theorem Starting.currentDepth_eq (h : Starting given u v) (hu : u.WellFormed) :
    v.currentDepth = u.currentDepth := by
  have hLayers : ∀ k ≠ 0, k ∈ v.layers ↔ k ∈ u.layers := by
    intro k hk
    cases h with
    | already => rfl
    | default =>
      simp only [startedByDefault, mem_layers_modifyLayer]
      exact or_iff_right hk
    | built _ _ _ hSweep =>
      have hZero : 0 ∈ (u.withDefault.modifyLayer 0 id).layers :=
        (mem_layers_modifyLayer _).mpr (.inl rfl)
      have hGrows := (hSweep.grows (hu.withDefault.modifyLayer_id 0)).1
      exact (hGrows.keys hZero k).trans ((mem_layers_modifyLayer _).trans (or_iff_right hk))
  exact Nat.le_antisymm (currentDepth_le_of_layers fun k hk => (hLayers k hk).mp)
    (currentDepth_le_of_layers fun k hk => (hLayers k hk).mpr)

/-! ## The loop -/

/-- Up to the bound, the loop is iterations up to the bound. -/
theorem loop_of_le (env : Surroundings σ) (s : Session σ Unrolling) (hle : depth ≤ last) :
    ∃ n ending, depth + n ≤ last ∧ (unroll env (some last)).loop depth s =
      some ((do let _ ← rounds (iteration env) n depth
                return ending) s) := by
  -- by induction on the depths that are left
  generalize hLeft : last - depth = left
  induction left generalizing depth s with
  | zero =>
    obtain rfl : depth = last := by omega
    obtain ⟨ending, hOver, -⟩ := turn_of_over (s := s) env
      fun h : _ ∧ _ ∧ some depth ≠ some depth => h.2.2 rfl
    exact ⟨0, ending, Nat.le_refl _, Exploration.loop_of_done hOver⟩
  | succ left ih =>
    obtain ⟨n, hn, ending, hEnds⟩ | ⟨-, t, hIterate, hGoes⟩ := turn_cases env (some last) depth s
    · exact ⟨n, ending, by omega, loop_of_turn_eq hEnds⟩
    · obtain ⟨n, ending, hn, hRest⟩ := ih t (show depth + 1 ≤ last by omega) (by omega)
      refine ⟨n + 1, ending, by omega, ?_⟩
      have hRounds : rounds (iteration env) (n + 1) depth s =
          rounds (iteration env) n (depth + 1) t := bind_run_of_ok (iteration_of_ok hIterate)
      rw [Exploration.loop_of_again hGoes, hRest, bind_run_congr hRounds]

/-- Behind the bound, a turn does not see it. -/
theorem turn_of_lt (hlt : last < depth) : turn env (some last) depth = turn env none depth := by
  have hne : some last ≠ some depth := fun h => Nat.ne_of_lt hlt (Option.some.inj h)
  unfold turn
  simp only [if_neg hne, if_neg (Option.some_ne_none depth).symm]

/-- A bound below the current depth never stops an unrolling. -/
theorem turns_of_lt (hlt : last < depth) (n : Nat) :
    (unroll env (some last)).turns n depth s = (unroll env none).turns n depth s := by
  induction n generalizing depth s with
  | zero => rfl
  | succ n ih =>
    have hTurn : (unroll env (some last)).turn depth s = turn env none depth s := by
      rw [← turn_of_lt hlt]
      rfl
    cases hNext : turn env none depth s with
    | error e t =>
      rw [Exploration.turns_succ_of_error (hTurn.trans hNext),
        Exploration.turns_succ_of_error hNext]
    | ok next t =>
      cases next with
      | done ending =>
        rw [Exploration.turns_succ_of_done (hTurn.trans hNext),
          Exploration.turns_succ_of_done hNext]
      | again next =>
        obtain ⟨rfl, -⟩ := turn_eq_again hNext
        rw [Exploration.turns_succ_of_again (hTurn.trans hNext),
          Exploration.turns_succ_of_again hNext, ih (by omega)]

/-! ## Calls -/

/-- Whatever calls have led to an unrolling: if it is not deeper than the bound, then unrolling
comes to an end, and makes no iteration deeper than the bound. If it is, then the bound has no
effect at all: unrolling is unrolling without a bound. -/
theorem unroll_bounded (h : Reached system s.work) (last : Nat) :
    (s.work.currentDepth ≤ last → ∃ n ending, s.work.currentDepth + n ≤ last ∧
      (unroll env (some last)).run s =
        some ((do let _ ← (unroll env (some last)).through (iteration env) n
                  return ending) s)) ∧
    (last < s.work.currentDepth → (unroll env (some last)).run s = (unroll env none).run s) := by
  cases hStart : start env s with
  | error failure t =>
    have hFirst : ∀ maxDepth, (unroll env maxDepth).first s = .error failure t :=
      fun _ => bind_run_of_error hStart
    have hThrough : (unroll env (some last)).through (iteration env) 0 s = .error failure t :=
      bind_run_of_error (hFirst (some last))
    refine ⟨fun hle => ⟨0, .bounded, hle, ?_⟩, fun _ => ?_⟩
    · rw [Exploration.run_of_first_error (hFirst (some last)), bind_run_of_error hThrough]
    · rw [Exploration.run_of_first_error (hFirst (some last)),
        Exploration.run_of_first_error (hFirst none)]
  | ok a t =>
    have hDepth := ((ensures_start.of_eq_ok hStart).1).currentDepth_eq h.wellFormed
    have hFirst : ∀ maxDepth, (unroll env maxDepth).first s = .ok s.work.currentDepth t :=
      fun maxDepth => hDepth ▸ first_of_start hStart maxDepth
    refine ⟨fun hle => ?_, fun hlt => ?_⟩
    · obtain ⟨n, ending, hn, hLoop⟩ := loop_of_le env t hle
      have hThrough : (unroll env (some last)).through (iteration env) n s =
          rounds (iteration env) n s.work.currentDepth t := bind_run_of_ok (hFirst (some last))
      refine ⟨n, ending, hn, ?_⟩
      rw [Exploration.run_of_first (hFirst (some last)), hLoop, bind_run_congr hThrough]
    · refine Exploration.run_congr fun n => ?_
      rw [Exploration.after_of_first (hFirst (some last)), Exploration.after_of_first (hFirst none),
        turns_of_lt hlt]

open scoped Reals

/-- Unrolled to depth 2, the relay is deeper than the bound 1, and unrolling goes on to depth 3;
before that, it stays within the bound. -/
theorem unroll_bounded_relay :
    let fresh : Session Unit Unrolling := { memory := (), work := { system := relaySystem } }
    let env : Surroundings Unit := { solver := .exhaustive }
    (∃ n ending, n ≤ 1 ∧ (unroll env (some 1)).run fresh =
      some ((do let _ ← (unroll env (some 1)).through (iteration env) n
                return ending) fresh)) ∧
    ∃ s t, unrollTo env 2 fresh = .ok 2 s ∧ s.work.currentDepth = 2 ∧
      (unroll env (some 1)).run s = some (.ok (.fixpoint 2) t) ∧
      (unroll env none).run s = some (.ok (.fixpoint 2) t) ∧ t.work.currentDepth = 3 := by
  intro fresh env
  have hCheck : returns (unrollTo env 2) fresh (fun depth s =>
      decide (depth = 2 ∧ s.work.currentDepth = 2) && (unroll env none).returns 2 s fun ending t =>
        ending = .fixpoint 2 ∧ t.work.currentDepth = 3) = true := by
    simp only [unroll_eq, unrollTo, currentDepth, Std.TreeMap.maxKey?_eq_getLast?_keys]
    decide +kernel
  obtain ⟨depth, s, hDeepened, hRest⟩ := exists_of_returns hCheck
  simp only [Bool.and_eq_true, decide_eq_true_eq] at hRest
  obtain ⟨⟨rfl, hDepth⟩, hUnrolled⟩ := hRest
  obtain ⟨ending, t, hRun, hEnd⟩ := Exploration.exists_of_returns hUnrolled
  obtain ⟨rfl, hDeeper⟩ := of_decide_eq_true hEnd
  have hFresh : Reached relaySystem fresh.work := .fresh
  have hCall : (Operation.unrollTo 2).run env fresh = some (.ok () s) := by
    simp only [Operation.run, hDeepened, Explore.discard]
  have hReached : Reached relaySystem s.work := .returned (.unrollTo 2) hFresh hCall
  have hZero : fresh.work.currentDepth = 0 := by simp [fresh, currentDepth]
  obtain ⟨n, ending, hn, hWithin⟩ := (unroll_bounded hFresh 1).1 (by omega)
  have hPassed : (unroll env (some 1)).run s = (unroll env none).run s :=
    (unroll_bounded hReached 1).2 (by omega)
  exact ⟨⟨n, ending, Nat.le_trans (Nat.le_add_left n _) hn, hWithin⟩, s, t, hDeepened, hDepth,
    hPassed.trans hRun, hRun, hDeeper⟩

end StateSpace.Unrolling
