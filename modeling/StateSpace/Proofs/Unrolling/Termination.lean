import StateSpace.Proofs.Counting
import StateSpace.Proofs.Unrolling.Congruence
import StateSpace.Proofs.Unrolling.Firing

/-!
# Unrolling comes to an end

Whatever makes an iteration bring new states, a successor with values that were not reached or the
first error, stays: the values reached never become fewer (`Unrolling.Grows.reached`). So an
iteration that is followed by another one enlarges what is reached (`Unrolling.Enlarges`), and there
are only so many values (`Unrolling.endsWithin_unroll`).
-/

namespace StateSpace.Unrolling

open Explore Environment

variable {σ : Type} {env : Surroundings σ} {solver : Solver σ} {system : System} {u v w : Unrolling}
  {l : Label} {s t : Session σ Unrolling} {depth source : Nat} {ν : Environment}

/-! ## What an iteration gains -/

/-- What is reached stays so while the unrolling grows. -/
theorem Grows.reached [Reals] (h : Grows depth u v) (hu : u.WellFormed)
    (hν : u.reached.holds ν = true) : v.reached.holds ν = true := by
  obtain ⟨q, hq, hnoError, hDescribes⟩ := holds_coverage.mp hν
  obtain ⟨k, id, hid, rfl⟩ := mem_derivedStates.mp hq
  have hlt := hu.listed k id hid
  have hne := hu.ne_errorId hnoError
  refine holds_coverage.mpr ⟨v.state id, mem_derivedStates.mpr ⟨k, id, h.all k hid, rfl⟩, ?_, ?_⟩
  · rw [SymbolicState.isError_of_bare (h.bare id hlt hne), hnoError]
  · rw [h.system]
    exact (h.describes hlt hne).mpr hDescribes

/-- Whatever is reached stays so, and either further values are reached or the first error is. -/
structure Enlarges [Reals] (u v : Unrolling) : Prop where
  kept : ∀ ν, u.reached.holds ν = true → v.reached.holds ν = true
  failed : u.errorState.incoming ≠ [] → v.errorState.incoming ≠ []
  gained : (∃ ν, u.reached.holds ν = false ∧ v.reached.holds ν = true) ∨
    u.errorState.incoming = [] ∧ v.errorState.incoming ≠ []

theorem Enlarges.grows [Reals] (h : Enlarges u v) (hGrows : Grows depth v w) (hv : v.WellFormed) :
    Enlarges u w where
  kept ν hν := hGrows.reached hv (h.kept ν hν)
  failed hu := hGrows.failed (h.failed hu)
  gained := by
    rcases h.gained with ⟨ν, hOld, hNew⟩ | ⟨hOld, hNew⟩
    · exact .inl ⟨ν, hOld, hGrows.reached hv hNew⟩
    · exact .inr ⟨hOld, hGrows.failed hNew⟩

/-- What a grown unrolling enlarges, the unrolling before does too. -/
theorem Grows.enlarges [Reals] (h : Grows depth u v) (hu : u.WellFormed)
    (hEnlarges : Enlarges v w) : Enlarges u w where
  kept ν hν := hEnlarges.kept ν (h.reached hu hν)
  failed hFailed := hEnlarges.failed (h.failed hFailed)
  gained := by
    rcases hEnlarges.gained with ⟨ν, hOld, hNew⟩ | ⟨hOld, hNew⟩
    · refine .inl ⟨ν, ?_, hNew⟩
      by_contra hReached
      rw [h.reached hu (by simpa using hReached)] at hOld
      cases hOld
    · refine .inr ⟨?_, hNew⟩
      by_contra hFailed
      exact h.failed hFailed hOld

/-- A firing that brings a new state enlarges what is reached. -/
theorem Firing.enlarges [Reals] (h : Firing solver.Answers depth source l u v)
    (hTrue : solver.Truthful) (hu : u.WellFormed) (hno : l.isConstructor = false) :
    (v.layer depth).fresh = (u.layer depth).fresh ∨ Enlarges u v := by
  have hGrows := h.grows hu
  cases h with
  | disabled => exact .inl rfl
  | failed =>
    by_cases hFirst : u.errorState.incoming = []
    · exact .inr ⟨fun ν hν => hGrows.reached hu hν, hGrows.failed,
        .inr ⟨hFirst, incoming_enterError hu.nonempty⟩⟩
    · left
      rw [layer_enterError, if_pos rfl, if_neg (by simpa using hFirst)]
  | succeeded new _ _ hNew =>
    cases new with
    | false =>
      left
      rw [layer_enterSuccessor, if_pos rfl, if_neg Bool.false_ne_true]
    | true =>
      rw [hno] at hNew
      obtain ⟨memory, hSat⟩ := hNew
      obtain ⟨ν, hDescribes, hOutside⟩ := exists_outside_iff.mp (hTrue.sat _ _ hSat)
      refine .inr ⟨fun ν hν => hGrows.reached hu hν, hGrows.failed, .inl ⟨ν, hOutside, ?_⟩⟩
      -- the successor is listed, and describes those values
      have hBare := bare_entered u l source depth true
      refine holds_coverage.mpr ⟨_, mem_derivedStates.mpr ⟨depth, u.states.size, ?_, rfl⟩, ?_, ?_⟩
      · rw [layer_enterSuccessor, if_pos rfl]
        exact List.mem_append_right _ (List.mem_singleton.mpr rfl)
      · exact SymbolicState.isError_of_bare hBare
      · exact (SymbolicState.describes_of_formulas_eq (SymbolicState.formulas_of_bare hBare)).mpr
          hDescribes

/-- A sweep lists nothing new, or it reaches more values. -/
theorem Sweep.enlarges [Reals] {tasks : List (Nat × Label)}
    (h : Sweep solver.Answers depth tasks u v)
    (hTrue : solver.Truthful) (hu : u.WellFormed)
    (hno : ∀ task ∈ tasks, task.2.isConstructor = false) :
    (v.layer depth).fresh = (u.layer depth).fresh ∨ Enlarges u v := by
  induction h with
  | nil => exact .inl rfl
  | cons hFire hRest ih =>
    obtain ⟨hl, hno⟩ := List.forall_mem_cons.mp hno
    have hv := hFire.wellFormed hu
    rcases hFire.enlarges hTrue hu hl with hSame | hEnlarges
    · exact (ih hv hno).imp (fun hFresh => hFresh.trans hSame)
        fun hEnlarges => (hFire.grows hu).enlarges hu hEnlarges
    · exact .inr (hEnlarges.grows (hRest.grows hv).1 hv)

/-! ## Iterations -/

/-- The unrolling is started, and no depth below the given one is open. -/
structure Advancing (system : System) (depth : Nat) (u : Unrolling) : Prop where
  wellFormed : u.WellFormed
  system_eq : u.system = system
  started : u.started = true
  keys : ∀ k ∈ u.layers, k ≤ depth

/-- An iteration that lists new states reaches more values. -/
theorem advancing_iterate [Reals] (hTrue : env.solver.Truthful) (hs : Advancing system depth s.work)
    {a : Unit} (hRun : iterate env (depth + 1) s = .ok a t) :
    Advancing system (depth + 1) t.work ∧
      (t.work.hasNew (depth + 1) = true → Enlarges s.work t.work) := by
  obtain ⟨⟨done, hDone, hSweep⟩, -⟩ := (ensures_iterate hs.started).of_eq_ok hRun
  have hEmpty : s.work.layer (depth + 1) = {} := by
    refine layer_eq_empty fun hMem => ?_
    have := hs.keys _ hMem
    omega
  have hOpened := grows_opened hEmpty
  have hwf := hs.wellFormed.opened (depth + 1)
  obtain ⟨hGrows, hv⟩ := hSweep.grows hwf
  refine ⟨⟨hv, (hOpened.trans hGrows).system.trans hs.system_eq,
    (hOpened.trans hGrows).started.trans hs.started, fun k hk => ?_⟩, fun hNew => ?_⟩
  · rw [hGrows.keys (by simp), mem_layers_modifyLayer] at hk
    rcases hk with rfl | hk
    · exact Nat.le_refl _
    · exact Nat.le_succ_of_le (hs.keys k hk)
  · have hno : ∀ task ∈ done, task.2.isConstructor = false := fun task hTask =>
      (mem_tasks.mp (hDone.subset hTask)).2.2
    rcases hSweep.enlarges hTrue hwf hno with hSame | hEnlarges
    · rw [layer_opened hEmpty, hEmpty] at hSame
      simp [hasNew, hSame] at hNew
    · exact hOpened.enlarges hs.wellFormed hEnlarges

/-- The values that can still be reached, and the first error, if it still can be. -/
noncomputable def prospects [Reals] (system : System) (u : Unrolling) : Nat :=
  room system.stateVariables (fun ν => u.reached.holds ν = true) +
    if u.errorState.incoming.isEmpty then 1 else 0

theorem prospects_le [Reals] (hSystem : ∀ x ∈ system.stateVariables, x.type.isReal = false)
    (u : Unrolling) : prospects system u ≤ 2 ^ system.bits + 1 := by
  have hRoom := room_le hSystem fun ν => u.reached.holds ν = true
  unfold prospects System.bits
  split <;> omega

/-- The more is reached, the less is left to be. -/
theorem Enlarges.prospects_lt [Reals] (h : Enlarges u v)
    (hDiscrete : ∀ x ∈ system.stateVariables, x.type.isReal = false) (hSystem : u.system = system) :
    prospects system v < prospects system u := by
  have hError : (if v.errorState.incoming.isEmpty then 1 else 0) ≤
      if u.errorState.incoming.isEmpty then 1 else 0 := by
    by_cases hu : u.errorState.incoming = []
    · simp only [hu, List.isEmpty_nil, if_true]
      split <;> omega
    · simp [h.failed hu]
  unfold prospects
  rcases h.gained with ⟨ν, hOld, hNew⟩ | ⟨hOld, hNew⟩
  · have hRoom := room_lt hDiscrete h.kept
      (fun ν ν' hν hAgree => coverage_congr hν (hSystem ▸ hAgree)) (by simpa using hOld) hNew
    omega
  · have hRoom := room_mono h.kept system.stateVariables
    simp only [hOld, List.isEmpty_nil, if_true]
    rw [if_neg (by simpa using hNew)]
    omega

/-! ## Failures -/

/-- How an exploration of a system can fail: a question stays open, or the system has both
constructors and initial values. -/
inductive Excusable (solver : Solver σ) (system : System) : Failure → Prop
  | undecided {failure : Failure} (h : failure.IsOpen solver) : Excusable solver system failure
  | constructorsWithInit (hConstructors : system.constructors ≠ [])
      (hInit : system.initialValues ≠ []) : Excusable solver system .constructorsWithInit

/-- A start fails only with an open question or where constructors meet initial values. -/
theorem excusable_start {failure : Failure} (hRun : start env s = .error failure t) :
    Excusable env.solver s.work.system failure := by
  refine FailsOnly.of_work_bind ?_ hRun
  split
  · exact .pure ()
  · dsimp only
    split
    · next hConflict =>
      simp only [Bool.and_eq_true, Bool.not_eq_true', List.isEmpty_eq_false_iff] at hConflict
      exact .throw (.constructorsWithInit hConflict.1 hConflict.2)
    · refine (FailsOnly.modifyWork _).bind fun _ => ?_
      split
      · exact (FailsOnly.modifyWork _).bind fun _ => .modifyWork _
      · have hOpen : ∀ source l,
          FailsOnly (Failure.IsOpen env.solver) (fire env.quietly 0 source l) :=
          rel_fire (FailsOnly.congruence env.quietly) 0
        have hFire : FailsOnly (Excusable env.solver s.work.system) (s.work.system.constructors.forM
            (fire env.quietly 0 (s.work.system.defaultState s.work.states.size).id)) :=
          .forM (fun l => (hOpen _ l).mono fun _ h => .undecided h) _
        refine (FailsOnly.modifyWork _).bind fun _ => hFire.bind fun _ => ?_
        exact (FailsOnly.modifyWork _).bind fun _ => .modifyWork _

/-- An iteration fails only with an open question. -/
theorem isOpen_iterate (hs : s.work.started = true) {failure : Failure}
    (hRun : iterate env (depth + 1) s = .error failure t) : failure.IsOpen env.solver := by
  unfold iterate at hRun
  rw [if_neg (Nat.succ_ne_zero depth)] at hRun
  dsimp only at hRun
  rw [bind_run_of_ok (start_of_started hs)] at hRun
  refine FailsOnly.bind (.report _) (fun _ => ?_) s failure t hRun
  refine (FailsOnly.modifyWork _).bind fun _ => FailsOnly.work.bind fun u => ?_
  have hFire := rel_fireFrontier (FailsOnly.congruence env) (depth + 1) u.system.labels
  refine FailsOnly.bind (hFire _) fun _ => (FailsOnly.report _).bind fun _ => ?_
  exact FailsOnly.work.bind fun v => .report _

/-! ## Runs -/

theorem le_currentDepth {k : Nat} (hk : k ∈ u.layers) : k ≤ u.currentDepth := by
  unfold currentDepth
  cases hMax : u.layers.maxKey? with
  | none =>
    rw [Std.TreeMap.maxKey?_eq_none_iff, Std.TreeMap.isEmpty_iff_forall_not_mem] at hMax
    exact absurd hk (hMax k)
  | some last =>
    rw [Std.TreeMap.maxKey?_eq_some_iff_mem_and_forall] at hMax
    exact Nat.isLE_compare.mp (hMax.2 k hk)

/-- A started unrolling is ready to advance. -/
theorem Starting.advancing (h : Starting solver.Answers u v) (hu : u.WellFormed)
    (hSystem : u.system = system) : Advancing system v.currentDepth v := by
  suffices hv : v.WellFormed ∧ v.system = system ∧ v.started = true from
    ⟨hv.1, hv.2.1, hv.2.2, fun _ => le_currentDepth⟩
  cases h with
  | already hStarted => exact ⟨hu, hSystem, hStarted⟩
  | default =>
    have hSize : u.states.size < u.withDefault.states.size := by
      rw [size_states_withDefault]
      omega
    have hListed := hu.withDefault.list 0 hSize
    exact ⟨hListed.congr rfl (fun _ => List.Subset.refl _) hListed.fresh, hSystem, rfl⟩
  | built _ _ _ hSweep =>
    obtain ⟨hGrows, hw⟩ := hSweep.grows (hu.withDefault.modifyLayer_id 0)
    exact ⟨hw.congr rfl (fun _ => List.Subset.refl _) hw.fresh, hGrows.system.trans hSystem, rfl⟩

/-- The loop over iterations comes to an end. -/
theorem endsWithin_loop [Reals] (hTrue : env.solver.Truthful)
    (hDiscrete : ∀ x ∈ system.stateVariables, x.type.isReal = false)
    (hs : Advancing system depth s.work) :
    EndsWithin (prospects system s.work + 1) (Failure.IsOpen env.solver)
      (fun t t' => Enlarges t.work t'.work) (fun n => rounds (iteration env) n depth)
      (pure : Ending → Explore σ Unrolling Ending) ((unroll env none).loop depth) s := by
  refine endsWithin_of_turn (unroll env none).loop (fun depth s => Advancing system depth s.work)
    (fun s => prospects system s.work) (fun ending => .pure ending)
    (fun depth s hs failure t hRun => ?_) ?_ hs
  · obtain hIterate | ⟨_, _, _, hPure⟩ := bind_eq_error.mp hRun
    · exact isOpen_iterate hs.started hIterate
    · cases hPure
  intro depth s hs
  rcases turn_cases env none depth s with ⟨n, hn, ending, hEnds⟩ | ⟨-, t, hIterate, hGoes⟩
  · exact .inl ⟨n, hn, ending, loop_of_turn_eq hEnds⟩
  · obtain ⟨ht, hEnlarges⟩ := advancing_iterate hTrue hs hIterate
    have hLoop : (unroll env none).loop depth s = (unroll env none).loop (depth + 1) t :=
      Exploration.loop_of_again hGoes
    by_cases hNew : t.work.hasNew (depth + 1) = true
    · have hEnlarges := hEnlarges hNew
      exact .inr ⟨depth + 1, t, iteration_of_ok hIterate, hLoop, ht,
        hEnlarges.prospects_lt hDiscrete hs.system_eq, hEnlarges⟩
    · -- the iteration brought nothing new, so the next turn ends the loop
      refine .inl ⟨1, Nat.le_refl 1, .fixpoint depth, ?_⟩
      have hRounds : rounds (iteration env) 1 depth s = .ok (depth + 1) t :=
        bind_run_of_ok (iteration_of_ok hIterate)
      have hLast : turn env none (depth + 1) t = .ok (.done (.fixpoint depth)) t := by
        rw [turn, work_bind_run, if_pos (by simpa using hNew)]
        rfl
      rw [hLoop, Exploration.loop_of_done hLast, bind_run_of_ok hRounds]
      rfl

/-- Unrolling comes to an end, and each iteration that is followed by another one enlarges what is
reached. -/
theorem endsWithin_unroll [Reals] (hTrue : env.solver.Truthful)
    (hSystem : ∀ x ∈ system.stateVariables, x.type.isReal = false) (hs : s.work.WellFormed)
    (hSame : s.work.system = system) :
    EndsWithin (2 ^ system.bits + 2) (Excusable env.solver system)
      (fun t t' => Enlarges t.work t'.work) ((unroll env none).through (iteration env))
      (pure : Ending → Explore σ Unrolling Ending) (unroll env none).run s := by
  cases hStart : start env s with
  | error failure t =>
    have hFirst : (unroll env none).first s = .error failure t := bind_run_of_error hStart
    refine .of_error .bounded (Exploration.run_of_first_error hFirst) (bind_run_of_error hFirst) ?_
    exact hSame ▸ excusable_start hStart
  | ok a r =>
    obtain ⟨hStarting, -⟩ := ensures_start.of_eq_ok hStart
    have hr := hStarting.advancing hs hSame
    have hProspects := prospects_le hSystem r.work
    have hFirst := first_of_start hStart none
    have hLoop : EndsWithin (2 ^ system.bits + 2) (Excusable env.solver system)
        (fun t t' => Enlarges t.work t'.work)
        (fun n => rounds (iteration env) n r.work.currentDepth)
        (pure : Ending → Explore σ Unrolling Ending)
        ((unroll env none).loop r.work.currentDepth) r :=
      ((endsWithin_loop hTrue hSystem hr).mono (by omega)).allow fun _ h => .undecided h
    exact hLoop.prepared (Exploration.run_of_first hFirst) fun n => bind_run_of_ok hFirst

end StateSpace.Unrolling
