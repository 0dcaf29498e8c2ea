import StateSpace.Proofs.Exploration.Transcript
import StateSpace.Proofs.Unrolling.Changes

/-!
# Unrolling that is interrupted and resumed

Unrolling resumes from the deepest depth it has opened, and takes every depth before as done. That
is right as long as no iteration is cut short: if the stop flag is only raised between iterations
and no question of an iteration stays open, then at a fixpoint every label has been tested on every
new state, whatever calls led there (`Unrolling.fixpoint_leaves_nothing_untested`). Tested means
that the solver has it on record that the label is not enabled, or that the label was fired.

An iteration that is cut short leaves its depth open but not done, and nothing takes it up again
(`Unrolling.interrupted_iteration_is_lost`).
-/

namespace StateSpace.Unrolling

open Explore

variable {σ : Type} {env : Surroundings σ} {solver : Solver σ} {given : Expr → Verdict → Prop}
  {record : σ → Expr → Verdict → Prop} {system : System} {u v : Unrolling} {l : Label}
  {s t : Session σ Unrolling} {depth source : Nat}

/-- A label has been tested on a state: the answer was given that its guard is not satisfiable, or
it was fired. -/
def Tested (given : Expr → Verdict → Prop) (u : Unrolling) (source : Nat) (l : Label) : Prop :=
  given (l.guardOn (u.state source).toExpr) .unsat ∨
    ∃ t ∈ u.transitions, t.start = source ∧ t.labels = [l.name]

/-- What has been tested stays so while the unrolling grows. -/
theorem Tested.grows (h : Tested given u source l) (hGrows : Grows depth u v)
    (hSource : source < u.states.size) (hne : source ≠ errorId) : Tested given v source l := by
  rcases h with hGuard | ⟨t, ht, hStart, hLabels⟩
  · left
    have hFormulas := SymbolicState.formulas_of_bare (hGrows.bare source hSource hne)
    rwa [SymbolicState.toExpr, hFormulas]
  · right
    have hKept := hGrows.transitions.subset (Array.mem_toList_iff.mpr ht)
    exact ⟨t, Array.mem_toList_iff.mp hKept, hStart, hLabels⟩

theorem Tested.mono {given' : Expr → Verdict → Prop} (h : Tested given u source l)
    (hGiven : ∀ e verdict, given e verdict → given' e verdict) : Tested given' u source l :=
  h.imp_left (hGiven _ _)

/-- A label that has been fired on a state has been tested there. -/
theorem Firing.tested (h : Firing given depth source l u v) : Tested given v source l := by
  cases h with
  | disabled hGuard => exact .inl hGuard
  | failed =>
    right
    rw [transitions_enterError]
    exact ⟨_, Array.mem_push_self, rfl, rfl⟩
  | succeeded =>
    right
    rw [transitions_enterSuccessor]
    exact ⟨_, Array.mem_push_self, rfl, rfl⟩

/-- A sweep tests what it fires, and what was tested before stays so. -/
theorem Sweep.tested {tasks : List (Nat × Label)} (h : Sweep given depth tasks u v)
    (hu : u.WellFormed) (hTasks : ∀ task ∈ tasks, task.1 < u.states.size ∧ task.1 ≠ errorId) :
    ∀ task ∈ tasks, Tested given v task.1 task.2 := by
  induction h with
  | nil => simp
  | @cons u v w source l rest hFire hRest ih =>
    have hGrows := hFire.grows hu
    have hv := hFire.wellFormed hu
    obtain ⟨⟨hSource, hne⟩, hRestTasks⟩ := List.forall_mem_cons.mp hTasks
    refine List.forall_mem_cons.mpr ⟨?_, ih hv fun task hTask => ?_⟩
    · exact hFire.tested.grows (hRest.grows hv).1 (Nat.lt_of_lt_of_le hSource hGrows.size) hne
    · obtain ⟨hlt, hne⟩ := hRestTasks task hTask
      exact ⟨Nat.lt_of_lt_of_le hlt hGrows.size, hne⟩

/-! ## Depths that are done -/

/-- Nothing but depth 0 has been opened, and the start is still to come. -/
structure Unstarted (system : System) (u : Unrolling) : Prop where
  wellFormed : u.WellFormed
  system_eq : u.system = system
  started : u.started = false
  keys : ∀ k ∈ u.layers, k = 0

/-- The labels have been tested on the new states of all depths before the deepest one. -/
structure Settled (given : Expr → Verdict → Prop) (system : System) (depth : Nat) (u : Unrolling) :
    Prop where
  wellFormed : u.WellFormed
  system_eq : u.system = system
  started : u.started = true
  keys : ∀ k, k ∈ u.layers ↔ k ≤ depth
  tested : ∀ k < depth, ∀ task ∈ tasks system.labels (u.layer k).fresh, Tested given u task.1 task.2

theorem unstarted_fresh (system : System) : Unstarted system { system := system } where
  wellFormed := (orderly_unstarted system).wellFormed
  system_eq := rfl
  started := rfl
  keys k hk := by simp at hk

theorem Settled.mono {given' : Expr → Verdict → Prop} (h : Settled given system depth u)
    (hGiven : ∀ e verdict, given e verdict → given' e verdict) : Settled given' system depth u :=
  ⟨h.wellFormed, h.system_eq, h.started, h.keys,
    fun k hk task hTask => (h.tested k hk task hTask).mono hGiven⟩

theorem Settled.layer_succ (h : Settled given system depth u) : u.layer (depth + 1) = {} := by
  refine layer_eq_empty fun hMem => ?_
  have := (h.keys _).mp hMem
  omega

theorem Settled.currentDepth (h : Settled given system depth u) : u.currentDepth = depth :=
  currentDepth_eq ((h.keys depth).mpr (Nat.le_refl depth)) fun k hk => (h.keys k).mp hk

/-- An iteration that is not cut short settles its depth. -/
theorem Settled.iterate (h : Settled given system depth u)
    (hSweep : Sweep given (depth + 1) (tasks u.system.labels (u.layer depth).fresh)
      (u.modifyLayer (depth + 1) fun _ => {}) v) : Settled given system (depth + 1) v := by
  have hOpen := grows_opened h.layer_succ
  have hwf := h.wellFormed.opened (depth + 1)
  obtain ⟨hGrows, hv⟩ := hSweep.grows hwf
  have hListed : ∀ k, ∀ task ∈ tasks system.labels (u.layer k).fresh,
      task.1 < u.states.size ∧ task.1 ≠ errorId := by
    intro k task hTask
    obtain ⟨⟨hid, hne⟩, -⟩ := mem_tasks.mp hTask
    exact ⟨h.wellFormed.listed k _ (h.wellFormed.fresh k hid), hne⟩
  rw [h.system_eq] at hSweep
  have hKept := hOpen.trans hGrows
  refine ⟨hv, hKept.system.trans h.system_eq, hKept.started.trans h.started, fun k => ?_,
    fun k hk task hTask => ?_⟩
  · rw [hGrows.keys (by simp), mem_layers_modifyLayer, h.keys]
    omega
  · rw [hKept.others k (by omega)] at hTask
    by_cases hLast : k = depth
    · subst hLast
      exact hSweep.tested hwf (hListed k) task hTask
    · obtain ⟨hlt, hne⟩ := hListed k task hTask
      exact (h.tested k (by omega) task hTask).grows hKept hlt hne

theorem Unstarted.opened (h : Unstarted system u) :
    (u.withDefault.modifyLayer 0 id).WellFormed ∧
      ∀ k, k ∈ (u.withDefault.modifyLayer 0 id).layers ↔ k = 0 := by
  refine ⟨h.wellFormed.withDefault.modifyLayer_id 0, fun k => ?_⟩
  rw [mem_layers_modifyLayer]
  have := h.keys k
  grind [withDefault]

/-- However an unrolling is started, depth 0 is the one that is open then, and no depth is before
it. -/
theorem Starting.settled {given' : Expr → Verdict → Prop} (hStarting : Starting given u v)
    (h : Unstarted system u) : Settled given' system 0 v := by
  cases hStarting with
  | already hStarted =>
    rw [h.started] at hStarted
    cases hStarted
  | default =>
    have hSize : u.states.size < u.withDefault.states.size := by
      rw [size_states_withDefault]
      omega
    have hListed := h.wellFormed.withDefault.list 0 hSize
    refine ⟨hListed.congr rfl (fun _ => List.Subset.refl _) hListed.fresh, h.system_eq, rfl,
      fun k => ?_, fun k hk => absurd hk (Nat.not_lt_zero k)⟩
    rw [startedByDefault, mem_layers_modifyLayer]
    have := h.keys k
    grind [withDefault]
  | @built _ _ _ w hSweep =>
    obtain ⟨hwf, hKeys⟩ := h.opened
    obtain ⟨hGrows, hw⟩ := hSweep.grows hwf
    refine ⟨hw.congr rfl (fun _ => List.Subset.refl _) hw.fresh, hGrows.system.trans h.system_eq,
      rfl, fun k => ?_, fun k hk => absurd hk (Nat.not_lt_zero k)⟩
    show k ∈ w.layers ↔ _
    rw [hGrows.keys ((hKeys 0).mpr rfl), hKeys]
    omega

/-! ## Runs -/

/-- The call cuts no iteration short. Unrolling looks at the flag between iterations, unrolling to a
depth does not, and a single iteration may be of any depth. -/
def Operation.Uncut (env : Surroundings σ) (s : Session σ Unrolling) : Operation → Prop
  | .start => True
  | .iterate _ => False
  | .unroll _ => env.Steady
  | .unrollTo _ => env.Calm ∧ s.stop = false

/-- The sessions of a system between calls, none of which cuts an iteration short. The stop flag is
raised and reset at will between them. A call may fail as long as it does so before the start is
over. -/
inductive Resumed (solver : Solver σ) (system : System) : Session σ Unrolling → Prop
  | fresh {s : Session σ Unrolling} (hWork : s.work = { system := system }) :
    Resumed solver system s
  | flag {s : Session σ Unrolling} (stop : Bool) (h : Resumed solver system s) :
      Resumed solver system { s with stop := stop }
  | returned {env : Surroundings σ} {s t : Session σ Unrolling} (operation : Operation)
      (h : Resumed solver system s) (hSolver : env.solver = solver) (hUncut : operation.Uncut env s)
      (hRun : operation.run env s = some (.ok () t)) : Resumed solver system t
  | failed {env : Surroundings σ} {s t : Session σ Unrolling} (operation : Operation)
      {failure : Failure} (h : Resumed solver system s) (hSolver : env.solver = solver)
      (hRun : operation.run env s = some (.error failure t)) (hStarting : t.work.started = false) :
      Resumed solver system t

/-- What holds between such calls. -/
def Settling (given : Expr → Verdict → Prop) (system : System) (u : Unrolling) : Prop :=
  Unstarted system u ∨ ∃ depth, Settled given system depth u

/-- A start that returns settles depth 0. -/
theorem settled_start (hs : Settling (record s.memory) system s.work) {a : Unit}
    (hRun : start env s = .ok a t) : (∃ depth, Settled (record t.memory) system depth t.work) ∧
      (env.Steady → s.stop = false → t.stop = false) := by
  obtain ⟨hStarting, hFlag⟩ := ensures_start.of_eq_ok hRun
  refine ⟨?_, hFlag⟩
  rcases hs with hs | ⟨depth, hs⟩
  · exact ⟨0, hStarting.settled hs⟩
  · rw [start_of_started hs.started] at hRun
    cases hRun
    exact ⟨depth, hs⟩

theorem settled_first (record : σ → Expr → Verdict → Prop) {maxDepth : Option Nat}
    (hs : Settling (record s.memory) system s.work)
    (hRun : (unroll env maxDepth).first s = .ok depth t) :
    Settled (record t.memory) system depth t.work := by
  obtain ⟨_, r, hStart, hCurrent⟩ := bind_eq_ok.mp hRun
  obtain ⟨⟨current, hr⟩, -⟩ := settled_start hs hStart
  cases hCurrent
  rwa [hr.currentDepth]

section Runs

variable (hRecords : env.solver.Records record)

include hRecords

theorem settled_iterate (hSteady : env.Steady) (hs : Settled (record s.memory) system depth s.work)
    (hStop : s.stop = false) {a : Unit} (hRun : iterate env (depth + 1) s = .ok a t) :
    Settled (record t.memory) system (depth + 1) t.work ∧ (env.Calm → t.stop = false) := by
  obtain ⟨⟨-, hOnward⟩, hSweep, hFlag⟩ := (ensures_iterate_onward hRecords hs.started).of_eq_ok hRun
  exact ⟨(hs.mono hOnward).iterate (hSweep hSteady hStop), fun hCalm => hFlag hCalm hStop⟩

/-- The depths that the turns of unrolling have gone through are settled. The flag was down when
each iteration began, so the iteration is not cut short. -/
theorem settled_turns (hSteady : env.Steady) {maxDepth : Option Nat} {n last : Nat}
    (hs : Settled (record s.memory) system depth s.work)
    (hRun : (unroll env maxDepth).turns n depth s = .ok (.again last) t) :
    Settled (record t.memory) system last t.work := by
  induction n generalizing depth s with
  | zero =>
    cases hRun
    exact hs
  | succ n ih =>
    obtain ⟨next, r, hTurn, hRest⟩ := Exploration.turns_succ_eq_again hRun
    obtain ⟨rfl, ⟨-, hStop, -⟩, hIterate, -⟩ := turn_eq_again hTurn
    exact ih (settled_iterate hRecords hSteady hs hStop hIterate).1 hRest

/-- An unrolling that returns has settled all depths up to its last. -/
theorem settled_unroll (hSteady : env.Steady) {maxDepth : Option Nat} {ending : Ending}
    (hs : Settling (record s.memory) system s.work)
    (hRun : (unroll env maxDepth).run s = some (.ok ending t)) :
    ∃ last, Settled (record t.memory) system last t.work ∧
      ∀ k, ending = .fixpoint k → t.work.hasNew last = false := by
  obtain ⟨n, last, r, hAfter, hTurn⟩ := Exploration.exists_last_of_run hRun
  obtain ⟨depth, q, hFirst, hTurns⟩ := bind_eq_ok.mp hAfter
  have hr := settled_turns hRecords hSteady (settled_first record hs hFirst) hTurns
  rcases turn_eq_done hTurn with ⟨rfl, hOver⟩ | ⟨hStop, hIterate, -, rfl⟩
  · refine ⟨last, hr, fun k hk => ?_⟩
    rcases hOver with ⟨hNone, -⟩ | ⟨-, rfl⟩ | ⟨-, rfl⟩
    · exact hNone
    · cases hk
    · cases hk
  · refine ⟨last + 1, (settled_iterate hRecords hSteady hr hStop hIterate).1, fun k hk => ?_⟩
    cases hk

/-- So has a number of iterations that return. -/
theorem settled_deepen (hCalm : env.Calm) {count reached : Nat}
    (hs : Settled (record s.memory) system depth s.work) (hStop : s.stop = false)
    (hRun : deepen env count depth s = .ok reached t) :
    ∃ last, Settled (record t.memory) system last t.work := by
  induction count generalizing depth s with
  | zero =>
    cases hRun
    exact ⟨_, hs⟩
  | succ count ih =>
    rw [deepen, work_bind_run] at hRun
    split at hRun
    · cases hRun
      exact ⟨_, hs⟩
    · obtain ⟨_, r, hIterate, hRest⟩ := bind_eq_ok.mp hRun
      obtain ⟨hr, hFlag⟩ := settled_iterate hRecords hCalm.steady hs hStop hIterate
      exact ih hr (hFlag hCalm) hRest

theorem settled_unrollTo (hCalm : env.Calm) {reached : Nat}
    (hs : Settling (record s.memory) system s.work) (hStop : s.stop = false)
    (hRun : unrollTo env depth s = .ok reached t) :
    ∃ last, Settled (record t.memory) system last t.work := by
  obtain ⟨_, r, hStart, hLoop⟩ := bind_eq_ok.mp hRun
  obtain ⟨⟨current, hr⟩, hFlag⟩ := settled_start hs hStart
  rw [work_bind_run, hr.currentDepth] at hLoop
  exact settled_deepen hRecords hCalm hr (hFlag hCalm.steady hStop) hLoop

/-- A call that cuts no iteration short and returns has settled what it went through. -/
theorem settled_of_run {operation : Operation} (hs : Settling (record s.memory) system s.work)
    (hUncut : operation.Uncut env s) (hRun : operation.run env s = some (.ok () t)) :
    ∃ last, Settled (record t.memory) system last t.work := by
  cases operation with
  | start => exact (settled_start hs (Option.some.inj hRun)).1
  | iterate depth => exact hUncut.elim
  | unroll maxDepth =>
    obtain ⟨result, hResult, hDiscard⟩ := Option.map_eq_some_iff.mp hRun
    cases result with
    | error failure r => cases hDiscard
    | ok ending r =>
      cases hDiscard
      obtain ⟨last, ht, -⟩ := settled_unroll hRecords hUncut hs hResult
      exact ⟨last, ht⟩
  | unrollTo depth =>
    have hDiscard := Option.some.inj hRun
    cases hResult : unrollTo env depth s with
    | error failure r =>
      rw [hResult] at hDiscard
      cases hDiscard
    | ok reached r =>
      rw [hResult] at hDiscard
      cases hDiscard
      exact settled_unrollTo hRecords hUncut.1 hs hUncut.2 hResult

end Runs

/-! ## Failures -/

/-- The start is over. -/
def Live (u : Unrolling) : Prop :=
  u.WellFormed ∧ u.started = true

theorem CutSweep.live {tasks : List (Nat × Label)} (h : CutSweep given depth tasks u v)
    (hu : Live u) : Live v := by
  obtain ⟨hGrows, hv⟩ := h.grows hu.1
  exact ⟨hv, hGrows.started.trans hu.2⟩

theorem ensures_iterate_live (depth : Nat) (s : Session σ Unrolling) (hs : Live s.work) :
    Ensures s (iterate env (depth + 1)) (fun _ t => Live t.work) (fun t => Live t.work) := by
  have hOpened : Live (s.work.modifyLayer (depth + 1) fun _ => {}) := ⟨hs.1.opened _, hs.2⟩
  refine (ensures_iterate hs.2).mono (fun _ t ⟨hCut, _⟩ => hCut.live hOpened) fun t ht => ?_
  rcases ht with hCut | hSame
  · exact hCut.live hOpened
  · rwa [hSame]

/-- The start fails before it is over, if at all. -/
theorem ensures_start_live (hs : Settling given system s.work) :
    Ensures s (start env) (fun _ t => Live t.work)
      (fun t => Live t.work ∨ Unstarted system t.work) := by
  have hUnstarted : ∀ v, Unstarted system s.work →
      CutSweep env.solver.Answers 0 s.work.constructorTasks (s.work.withDefault.modifyLayer 0 id)
        v →
      Unstarted system v := by
    intro v hs hCut
    obtain ⟨hwf, hKeys⟩ := hs.opened
    obtain ⟨hGrows, hv⟩ := hCut.grows hwf
    refine ⟨hv, hGrows.system.trans hs.system_eq, hGrows.started.trans hs.started, fun k hk => ?_⟩
    exact (hKeys k).mp ((hGrows.keys ((hKeys 0).mpr rfl) k).mp hk)
  rcases hs with hs | ⟨depth, hs⟩
  · refine ensures_start.mono (fun _ t ⟨hStarting, _⟩ => ?_) fun t ht => ?_
    · have ht : Settled given system 0 t.work := hStarting.settled hs
      exact ⟨ht.wellFormed, ht.started⟩
    · rcases ht with hSame | hCut
      · rw [hSame]
        exact .inr hs
      · exact .inr (hUnstarted t.work hs hCut)
  · refine .work_bind ?_
    rw [if_pos hs.started]
    exact .pure ⟨hs.wellFormed, hs.started⟩

/-- After an iteration that fails, the start is over or still to come. -/
theorem ensures_iterate_unstarted (hs : Settling given system s.work) (depth : Nat) :
    Ensures s (iterate env depth) (fun _ _ => True)
      (fun t => Live t.work ∨ Unstarted system t.work) := by
  cases depth with
  | zero =>
    refine .throw ?_
    rcases hs with hs | ⟨depth, hs⟩
    · exact .inr hs
    · exact .inl ⟨hs.wellFormed, hs.started⟩
  | succ depth =>
    unfold Ensures
    cases hRun : start env s with
    | ok a t =>
      have ht := (ensures_start_live hs).of_eq_ok hRun
      rw [iterate_of_start hRun ht.2]
      exact (ensures_iterate_live depth t ht).mono (fun _ _ _ => trivial) fun _ hr => .inl hr
    | error failure t =>
      rw [iterate_of_start_error hRun]
      exact (ensures_start_live hs).of_eq_error hRun

/-- A call fails before the start is over or leaves an unrolling that is started. -/
theorem ensures_steps_live (operation : Operation) (hs : Settling given system s.work) (n : Nat) :
    Ensures s (operation.steps env n) (fun _ _ => True)
      (fun t => Live t.work ∨ Unstarted system t.work) := by
  have hStart : Ensures s (start env) (fun _ t => Live t.work)
      (fun t => Live t.work ∨ Unstarted system t.work) := ensures_start_live hs
  cases operation with
  | start => exact hStart.mono (fun _ _ _ => trivial) fun _ h => h
  | iterate depth => exact ensures_iterate_unstarted hs depth
  | unroll maxDepth =>
    exact (ensures_unroll Live ensures_iterate_live hStart (fun _ => .inl) n).bind
      fun _ _ _ => .pure trivial
  | unrollTo depth =>
    refine Ensures.bind (Q := fun _ _ => True) ?_ fun _ _ _ => .pure trivial
    refine hStart.bind fun _ t ht => .work_bind ?_
    exact (ensures_deepen Live ensures_iterate_live _ ht).mono (fun _ _ _ => trivial) fun _ hr =>
      .inl hr

/-! ## Fixpoints -/

/-- Whatever calls came before, each depth is settled or still to be. -/
theorem Resumed.settling (h : Resumed solver system s) (hRecords : solver.Records record) :
    Settling (record s.memory) system s.work := by
  induction h with
  | fresh hWork =>
    rw [hWork]
    exact .inl (unstarted_fresh system)
  | flag _ _ ih => exact ih
  | returned operation _ hSolver hUncut hRun ih =>
    subst hSolver
    exact .inr (settled_of_run hRecords ih hUncut hRun)
  | failed operation _ hSolver hRun hStarting ih =>
    obtain ⟨n, hn⟩ := Operation.exists_steps hRun
    rcases (ensures_steps_live operation ih n).of_eq_error hn with hLive | hUnstarted
    · rw [hLive.2] at hStarting
      cases hStarting
    · exact .inl hUnstarted

/-- **Where interrupted unrolling loses nothing.** For every system, every solver and every sequence
of calls, with surroundings of their own, that cut no iteration short, the stop flag being raised
and reset at will between iterations and calls: whenever unrolling then returns a fixpoint, every
label but the constructors has been tested on every new state of every depth, the error state apart.
Whatever the solver keeps on record, be it a transcript of all it was asked, it is there that the
answer is found. -/
theorem fixpoint_leaves_nothing_untested (hRecords : env.solver.Records record)
    (hs : Resumed env.solver system s) (hSteady : env.Steady) {maxDepth : Option Nat} {k : Nat}
    (hRun : (unroll env maxDepth).run s = some (.ok (.fixpoint k) t)) :
    ∀ depth, ∀ id ∈ (t.work.layer depth).fresh, (t.work.state id).isError = false →
      ∀ l ∈ system.labels, l.isConstructor = false → Tested (record t.memory) t.work id l := by
  intro depth id hid hnoError l hl hnoConstructor
  obtain ⟨last, ht, hNone⟩ := settled_unroll hRecords hSteady (hs.settling hRecords) hRun
  have hne := ht.wellFormed.ne_errorId hnoError
  have hOpen : depth ≤ last := by
    by_contra hlt
    rw [layer_eq_empty fun hMem => hlt ((ht.keys depth).mp hMem)] at hid
    cases hid
  have hLast : depth ≠ last := by
    rintro rfl
    have hEmpty : (t.work.layer depth).fresh = [] := by simpa [hasNew] using hNone k rfl
    rw [hEmpty] at hid
    cases hid
  exact ht.tested depth (by omega) (id, l) (mem_tasks.mpr ⟨⟨hid, hne⟩, hl, hnoConstructor⟩)

open scoped Reals

/-- A variable that can be set, behind a label that is never enabled. -/
def idleSystem : System :=
  let x : Variable := ⟨"x", .bool⟩
  { stateVariables := [x]
    labels := [
      { name := "wait", stateVariables := [x], preconditions := [.const (.bool false)],
        effects := [(x, .var x.primed)] },
      { name := "set", stateVariables := [x], preconditions := [.not (.var x)],
        effects := [(x, .var x.primed)] }] }

/-- The flag is raised at the end of every iteration. -/
def stopBetween : Surroundings Unit where
  solver := .exhaustive
  react
    | .newStates _ _ :: _, _ => true
    | _, flag => flag

/-- The flag is raised as soon as two events have been reported, while the first label is tested. -/
def stopDuring : Surroundings Unit where
  solver := .exhaustive
  react trace flag := flag || trace.length = 2

theorem steady_stopBetween : stopBetween.Steady := by
  intro event trace hEvent
  cases event with
  | started => rfl
  | finished => rfl
  | newStates depth count => exact absurd rfl (hEvent depth count)

/-- Unrolling is stopped after the first iteration, and resumed to a fixpoint. A transcript shows
what has been tested. -/
theorem fixpoint_after_stop_between : ∃ r t : Session (Unit × Transcript) Unrolling,
    (unroll stopBetween.transcribed none).run
      { memory := ((), []), work := { system := idleSystem } } = some (.ok (.stopped 0) r) ∧
    (unroll (σ := Unit × Transcript) { solver := Solver.exhaustive.transcribed } none).run
      { r with stop := false } = some (.ok (.fixpoint 1) t) ∧
    ∀ depth, ∀ id ∈ (t.work.layer depth).fresh, (t.work.state id).isError = false →
      ∀ l ∈ idleSystem.labels, l.isConstructor = false →
        Tested (fun e verdict => ⟨e, verdict⟩ ∈ t.memory.2) t.work id l := by
  have hCheck : (unroll stopBetween.transcribed none).returns 2
      { memory := ((), []), work := { system := idleSystem } }
        (fun ending r => ending = .stopped 0 ∧
        (unroll (σ := Unit × Transcript) { solver := Solver.exhaustive.transcribed } none).returns 3
          { r with stop := false } (fun ending _ => ending = .fixpoint 1) = true) = true := by
    simp only [unroll_eq]
    decide +kernel
  obtain ⟨_, r, hStopped, hRest⟩ := Exploration.exists_of_returns hCheck
  obtain ⟨rfl, hResumed⟩ := of_decide_eq_true hRest
  obtain ⟨_, t, hFixpoint, hEnding⟩ := Exploration.exists_of_returns hResumed
  obtain rfl := of_decide_eq_true hEnding
  have hUncut : (Operation.unroll none).Uncut stopBetween.transcribed
      { memory := ((), []), work := { system := idleSystem } } := steady_stopBetween
  have hs : Resumed Solver.exhaustive.transcribed idleSystem { r with stop := false } :=
    .flag false (.returned (.unroll none) (.fresh rfl) rfl hUncut (Operation.run_unroll hStopped))
  exact ⟨r, t, hStopped, hFixpoint, fixpoint_leaves_nothing_untested
    Solver.exhaustive.records_transcript hs (fun _ _ _ => rfl) hFixpoint⟩

/-- Stopped while the first label is tested, the iteration never tests the second one: unrolling,
when resumed, takes the depth as done and tells a fixpoint. The guard of the second label is
satisfiable, so that no answer to the contrary can have been given. -/
theorem interrupted_iteration_is_lost : ∃ r t : Session Unit Unrolling,
    (unroll stopDuring none).run { memory := (), work := { system := idleSystem } } =
      some (.ok (.stopped 0) r) ∧
    (unroll { solver := .exhaustive } none).run { r with stop := false } =
      some (.ok (.fixpoint 0) t) ∧
    ∃ id ∈ (t.work.layer 0).fresh, (t.work.state id).isError = false ∧
      ∃ l ∈ idleSystem.labels, l.isConstructor = false ∧
        ¬Tested Solver.exhaustive.Answers t.work id l := by
  let lost (t : Session Unit Unrolling) : Prop :=
    1 ∈ (t.work.layer 0).fresh ∧ (t.work.state 1).isError = false ∧ t.work.transitions.toList = [] ∧
      ∃ l ∈ idleSystem.labels, l.isConstructor = false ∧
        (Solver.exhaustive.decide (l.guardOn (t.work.state 1).toExpr) ()).1 ≠ .unsat
  have hCheck : (unroll stopDuring none).returns 2
      { memory := (), work := { system := idleSystem } }
      (fun ending r => ending = .stopped 0 ∧
        (unroll { solver := .exhaustive } none).returns 3 { r with stop := false }
          (fun ending t => ending = .fixpoint 0 ∧ lost t) = true) = true := by
    simp only [unroll_eq]
    decide +kernel
  obtain ⟨_, r, hStopped, hRest⟩ := Exploration.exists_of_returns hCheck
  obtain ⟨rfl, hResumed⟩ := of_decide_eq_true hRest
  obtain ⟨_, t, hFixpoint, hEnding⟩ := Exploration.exists_of_returns hResumed
  obtain ⟨rfl, hid, hnoError, hNone, l, hl, hnoConstructor, hSat⟩ := of_decide_eq_true hEnding
  refine ⟨r, t, hStopped, hFixpoint, 1, hid, hnoError, l, hl, hnoConstructor, ?_⟩
  rintro (⟨memory, hUnsat⟩ | ⟨transition, hMem, -⟩)
  · exact hSat hUnsat
  · rw [← Array.mem_toList_iff, hNone] at hMem
    cases hMem

end StateSpace.Unrolling
