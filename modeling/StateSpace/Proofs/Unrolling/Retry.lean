import StateSpace.Proofs.Unrolling.Changes
import StateSpace.Proofs.Unrolling.Completeness

/-!
# Starts that fail

A start is refused, before it does anything, if the system has both constructors and initial values.
Otherwise it can only fail at a constructor whose precondition stays undecided. Then the default
state and what the constructors before that one have built are left in the unrolling, and a later
start fires all constructors again: what was left comes first among its initial states
(`Unrolling.start_failed`).
-/

namespace StateSpace.Unrolling

open Explore

variable {σ : Type} {env : Surroundings σ} {given : Expr → Verdict → Prop} {system : System}
  {u v : Unrolling}
  {l : Label} {s t : Session σ Unrolling} {depth source k : Nat} {failure : Failure}

/-! ## What firings add -/

theorem Sweep.initial_eq {tasks : List (Nat × Label)} (h : Sweep given depth tasks u v) :
    v.initial = u.initial := by
  induction h with
  | nil => rfl
  | cons hFire _ ih => exact ih.trans hFire.initial_eq

/-- What is new is listed behind what was new before. -/
theorem Firing.fresh_prefix (h : Firing given depth source l u v) (k : Nat) :
    (u.layer k).fresh <+: (v.layer k).fresh := by
  cases h with
  | disabled => exact List.prefix_refl _
  | failed =>
    rw [layer_enterError]
    split
    · next heq =>
      rw [heq]
      dsimp only
      split
      · exact List.prefix_append _ _
      · exact List.prefix_refl _
    · exact List.prefix_refl _
  | succeeded new =>
    rw [layer_enterSuccessor]
    split
    · next heq =>
      rw [heq]
      dsimp only
      split
      · exact List.prefix_append _ _
      · exact List.prefix_refl _
    · exact List.prefix_refl _

theorem Sweep.fresh_prefix {tasks : List (Nat × Label)} (h : Sweep given depth tasks u v)
    (k : Nat) : (u.layer k).fresh <+: (v.layer k).fresh := by
  induction h with
  | nil => exact List.prefix_refl _
  | cons hFire _ ih => exact (hFire.fresh_prefix k).trans ih

/-! ## How a start fails -/

/-- How the start of an unrolling fails: at once, or at a constructor whose precondition stays
undecided, after the constructors before it have been fired on the default state. -/
inductive StartFailing (solver : Solver σ) (u : Unrolling) : Failure → Unrolling → Prop where
  | refused (hConstructors : u.system.constructors ≠ []) (hInit : u.system.initialValues ≠ []) :
      StartFailing solver u .constructorsWithInit u
  | undecided {fired rest : List Label} {c : Label} {v : Unrolling}
      (hConstructors : u.system.constructors = fired ++ c :: rest)
      (hOpen : solver.Answers (c.guardOn (u.system.defaultState u.states.size).toExpr) .dontKnow)
      (hSweep : Sweep solver.Answers 0 (fired.map fun l => (u.states.size, l))
        (u.withDefault.modifyLayer 0 id) v) :
      StartFailing solver u (.undecided (.guardOnState c.name u.states.size)) v

/-- Firing a constructor fails only at its precondition. -/
theorem fire_eq_error (hl : l.isConstructor = true)
    (hRun : fire env depth source l s = .error failure t) :
    t.work = s.work ∧ failure = .undecided (.guardOnState l.name (s.work.state source).id) ∧
      env.solver.Answers (l.guardOn (s.work.state source).toExpr) .dontKnow := by
  let Undecided (failure : Failure) : Prop :=
    failure = .undecided (.guardOnState l.name (s.work.state source).id) ∧
      env.solver.Answers (l.guardOn (s.work.state source).toExpr) .dontKnow
  suffices hFails : Undecided failure from ⟨ensures_fire.of_eq_error hRun, hFails⟩
  refine FailsOnly.of_work_bind ?_ hRun
  refine (FailsOnly.holdsDuring_open _ _ _ _).bind fun enabled => ?_
  split
  · split
    · exact .modifyWork _
    · refine (FailsOnly.report _).bind fun _ => .bind .work fun u => ?_
      refine (FailsOnly.report _).bind fun _ => ?_
      exact (FailsOnly.pure true).bind fun _ => .modifyWork _
  · exact .pure ()

/-- Constructors one after the other fail at one of them, after those before it have been fired. -/
theorem forM_fire_eq_error {labels : List Label} (hLabels : ∀ l ∈ labels, l.isConstructor = true)
    (hRun : labels.forM (fire env depth source) s = .error failure t) :
    ∃ fired c rest, labels = fired ++ c :: rest ∧
      failure = .undecided (.guardOnState c.name (t.work.state source).id) ∧
      env.solver.Answers (c.guardOn (t.work.state source).toExpr) .dontKnow ∧
      Sweep env.solver.Answers depth (fired.map fun l => (source, l)) s.work t.work := by
  induction labels generalizing s with
  | nil => cases hRun
  | cons l ls ih =>
    obtain ⟨hl, hls⟩ := List.forall_mem_cons.mp hLabels
    have hForM : (l :: ls).forM (fire env depth source) =
        fire env depth source l >>= fun _ => ls.forM (fire env depth source) := rfl
    rw [hForM] at hRun
    cases hFire : fire env depth source l s with
    | ok _ r =>
      rw [bind_run_of_ok hFire] at hRun
      obtain ⟨fired, c, rest, rfl, hFailure, hOpen, hSweep⟩ := ih hls hRun
      have hFirst := (ensures_fire.of_eq_ok hFire).1
      exact ⟨l :: fired, c, rest, rfl, hFailure, hOpen, .cons hFirst hSweep⟩
    | error failure' r =>
      rw [bind_run_of_error hFire] at hRun
      cases hRun
      obtain ⟨hWork, hFailure, hOpen⟩ := fire_eq_error hl hFire
      rw [hWork]
      exact ⟨[], l, ls, rfl, hFailure, hOpen, .nil⟩

/-- There is no other way for a start to fail. -/
theorem start_eq_error (hs : s.work.WellFormed) (hStarted : s.work.started = false)
    (hRun : start env s = .error failure t) : StartFailing env.solver s.work failure t.work := by
  rw [start, work_bind_run, if_neg (by simp [hStarted])] at hRun
  dsimp only at hRun
  split at hRun
  · next hRefused =>
    obtain ⟨hConstructors, hInit⟩ := Bool.and_eq_true_iff.mp hRefused
    cases hRun
    exact .refused (by simpa using hConstructors) (by simpa using hInit)
  · split at hRun
    · cases hRun
    · rw [id_defaultState] at hRun
      let opened : Session σ Unrolling := { s with work := s.work.withDefault.modifyLayer 0 id }
      let construct : Explore σ Unrolling Unit :=
        s.work.system.constructors.forM (fire env.quietly 0 s.work.states.size)
      have hFired : construct opened = .error failure t := by
        cases hForM : construct opened with
        | ok _ r =>
          have hGoes := (bind_run_of_ok hForM).symm.trans hRun
          cases hGoes
        | error failure' r => exact (bind_run_of_error hForM).symm.trans hRun
      obtain ⟨fired, c, rest, hConstructors, rfl, hOpen, hSweep⟩ :=
        forM_fire_eq_error (fun l hl => (List.mem_filter.mp hl).2) hFired
      -- the constructors before have left the default state as it was
      have hDefault : (t.work.state s.work.states.size).bare =
          (s.work.system.defaultState s.work.states.size).bare := by
        have hGrows := (hSweep.grows (hs.withDefault.modifyLayer_id 0)).1
        rw [hGrows.bare _ lt_size_withDefault (Nat.ne_of_gt hs.nonempty)]
        show (s.work.withDefault.state _).bare = _
        rw [state_withDefault, if_pos rfl]
      have hid : (t.work.state s.work.states.size).id = s.work.states.size :=
        (SymbolicState.id_of_bare hDefault).trans (id_defaultState _ _)
      rw [hid]
      rw [SymbolicState.toExpr, SymbolicState.formulas_of_bare hDefault] at hOpen
      exact .undecided hConstructors hOpen hSweep

/-- A failed start of an unrolling that calls have led to leaves the unrolling unstarted, and the
other depths and the initial states as they were. Nothing at all is changed exactly if the start was
refused. Otherwise the default state and what the constructors have built so far are left, and they
come first among the initial states of any later start. -/
theorem start_failed (h : Reached system s.work) (hStarted : s.work.started = false)
    (hRun : start env s = .error failure t) :
    StartFailing env.solver s.work failure t.work ∧
    (t.work = s.work ↔ failure = .constructorsWithInit) ∧
    (t.work.started = false ∧ t.work.initial = s.work.initial ∧
      ∀ k ≠ 0, t.work.layer k = s.work.layer k) ∧
    ∀ {σ' : Type} (env' : Surroundings σ') (r r' : Session σ' Unrolling), r.work = t.work →
      start env' r = .ok () r' → (t.work.layer 0).fresh <+: r'.work.initial := by
  have hs := h.wellFormed
  have hFailing := start_eq_error hs hStarted hRun
  -- a later start appends to what the layer holds already
  have hRetry : ∀ {σ' : Type} (env' : Surroundings σ') (r r' : Session σ' Unrolling),
      t.work.system.constructors ≠ [] → t.work.started = false → r.work = t.work →
      start env' r = .ok () r' → (t.work.layer 0).fresh <+: r'.work.initial := by
    intro σ' env' r r' hConstructors hStill hr hRun'
    have hStarting := (ensures_start.of_eq_ok hRun').1
    rw [hr] at hStarting
    generalize r'.work = w at hStarting ⊢
    cases hStarting with
    | already hDone => simp [hStill] at hDone
    | default _ hNone => exact absurd hNone hConstructors
    | built _ _ _ hSweep =>
      have hPrefix := hSweep.fresh_prefix 0
      rwa [layer_modifyLayer_id] at hPrefix
  generalize hWork : t.work = v at hFailing hRetry ⊢
  cases hFailing with
  | refused hConstructors hInit =>
    refine ⟨.refused hConstructors hInit, iff_of_true rfl rfl,
      ⟨hStarted, rfl, fun _ _ => rfl⟩, fun env' r r' => ?_⟩
    exact hRetry env' r r' hConstructors hStarted
  | undecided hConstructors hOpen hSweep =>
    have hGrows := (hSweep.grows (hs.withDefault.modifyLayer_id 0)).1
    have hStill : v.started = false := hGrows.started.trans hStarted
    have hSome : v.system.constructors ≠ [] := by
      rw [hGrows.system]
      show s.work.system.constructors ≠ []
      simp [hConstructors]
    refine ⟨.undecided hConstructors hOpen hSweep, iff_of_false ?_ (by simp),
      ⟨hStill, hSweep.initial_eq, ?_⟩, fun env' r r' => ?_⟩
    · -- the default state is one more
      intro hSame
      have hSize := Nat.lt_of_lt_of_le lt_size_withDefault hGrows.size
      rw [hSame] at hSize
      exact Nat.lt_irrefl _ hSize
    · intro k hk
      rw [hGrows.others k hk, layer_modifyLayer_id]
      rfl
    · exact hRetry env' r r' hSome hStill

/-- The constructor that clears the variable. -/
def clearLabel : Label :=
  { name := "clear", stateVariables := [switch], effects := [(switch, .not (.var switch.primed))],
    isConstructor := true }

/-- Two constructors. -/
def twoWaySystem : System where
  stateVariables := [switch]
  labels := [clearLabel, makeLabel]

open scoped Reals

/-- A start that fails at the second constructor leaves what the first one has built. The next start
builds it again, and there are three initial states instead of two. -/
theorem start_failed_twoWay :
    let hesitant : Surroundings (Nat × Unit) := { solver := Solver.exhaustive.withGaps [2] }
    let fresh : Session (Nat × Unit) Unrolling :=
      { memory := (0, ()), work := { system := twoWaySystem } }
    ∃ t r q, start hesitant fresh = .error (.undecided (.guardOnState "make" 1)) t ∧
      t.work ≠ fresh.work ∧ start hesitant t = .ok () r ∧
      (t.work.layer 0).fresh <+: r.work.initial ∧
      r.work.initialStates.map (·.history) = [["clear"], ["clear"], ["make"]] ∧
      start hesitant { fresh with memory := t.memory } = .ok () q ∧
      q.work.initialStates.map (·.history) = [["clear"], ["make"]] := by
  intro hesitant fresh
  have hCheck : fails (start hesitant) fresh (fun failure t =>
      decide (failure = .undecided (.guardOnState "make" 1)) &&
        (returns (start hesitant) t fun _ r =>
          r.work.initialStates.map (·.history) = [["clear"], ["clear"], ["make"]]) &&
        returns (start hesitant) { fresh with memory := t.memory } fun _ q =>
          q.work.initialStates.map (·.history) = [["clear"], ["make"]]) = true := by
    decide +kernel
  obtain ⟨failure, t, hRun, hRest⟩ := exists_of_fails hCheck
  simp only [Bool.and_eq_true, decide_eq_true_eq] at hRest
  obtain ⟨⟨rfl, hRetry⟩, hAgain⟩ := hRest
  obtain ⟨_, r, hRun', hInitial⟩ := exists_of_returns hRetry
  obtain ⟨_, q, hRun'', hInitial'⟩ := exists_of_returns hAgain
  have hReached : Reached twoWaySystem fresh.work := .fresh
  obtain ⟨-, hChanged, -, hLeft⟩ := start_failed hReached rfl hRun
  have hne : t.work ≠ fresh.work := fun hSame => by cases hChanged.mp hSame
  exact ⟨t, r, q, hRun, hne, hRun', hLeft hesitant t r rfl hRun', of_decide_eq_true hInitial,
    hRun'', of_decide_eq_true hInitial'⟩

end StateSpace.Unrolling
