import StateSpace.Proofs.Description.Scope
import StateSpace.Proofs.Label.Successor
import StateSpace.Proofs.Unrolling.Firing

/-!
# Where unrolling is exact

A successor keeps of the precondition and of the state before only what the effects depend on. What
is left out may have tied variables together, so a state can describe values that no execution
reaches (`Unrolling.keep_then_bad_unreachable`).

If the effects of a label together read every state variable and frame every precondition
(`Label.FramesAll`), nothing is left out; if they read nothing at all (`Label.Resets`), what is left
out does not matter. Where every label that enters states is of one of these kinds, every state
describes only values that an execution with the labels of its history reaches, whatever the run
(`Unrolling.unroll_exact`).
-/

namespace StateSpace

open Explore Environment

variable {σ : Type} {env : Surroundings σ} {solver : Solver σ} {system : System}

/-- An execution whose last label is an error label that is enabled. -/
inductive System.Fails [Reals] (system : System) : List String → Prop where
  | build {c : Label} {ν : Environment} (hLabel : c ∈ system.constructors)
      (hError : c.isError = true)
      (hDefault : system.IsDefault ν) (hEnabled : system.Enables ν c) : Fails system [c.name]
  | fire {l : Label} {history : List String} {ν : Environment} (hBefore : system.Reaches history ν)
      (hLabel : l ∈ system.labels) (hNoConstructor : l.isConstructor = false)
      (hError : l.isError = true) (hEnabled : system.Enables ν l) :
      Fails system (history ++ [l.name])

namespace Unrolling

variable {u v : Unrolling} {l : Label} {depth source : Nat}

/-! ## Invariants -/

/-- A label may be fired on a state: a constructor on the default state, any other on a state whose
values are reached by its history. -/
def Launches [Reals] (system : System) (u : Unrolling) (source : Nat) (l : Label) : Prop :=
  if l.isConstructor then
    (u.state source).history = [] ∧
      ∀ ν, (u.state source).Describes system.stateVariables ν → system.IsDefault ν
  else
    ∀ ν, (u.state source).Describes system.stateVariables ν →
      system.Reaches (u.state source).history ν

/-- The values of the states listed are reached by their histories, and so is the error. -/
structure Exact [Reals] (system : System) (u : Unrolling) : Prop extends Orderly system u where
  functional : ∀ id < u.states.size, id ≠ errorId → (u.state id).Functional
  reaches : ∀ k, ∀ id ∈ (u.layer k).all, id ≠ errorId →
    ∀ ν, (u.state id).Describes system.stateVariables ν → system.Reaches (u.state id).history ν
  fails : u.errorState.incoming ≠ [] → system.Fails u.errorState.history

theorem Launches.grows [Reals] (h : Launches system u source l) (hGrows : Grows depth u v)
    (hSource : source < u.states.size) (hne : source ≠ errorId) : Launches system v source l := by
  have hBare := hGrows.bare source hSource hne
  unfold Launches SymbolicState.Describes at h ⊢
  rwa [SymbolicState.toExpr, SymbolicState.formulas_of_bare hBare,
    SymbolicState.history_of_bare hBare]

/-- Where nothing or everything is left out, a successor describes only what its label leads to. -/
theorem Launches.reaches_successor [Reals] (h : Launches system u source l) (hl : l ∈ system.labels)
    (hSystem : system.Hygienic) (hnoError : l.isError = false) (hKeeps : l.FramesAll ∨ l.Resets)
    (hTidy : (u.state source).Tidy system.stateVariables u.nextTransition)
    (hFunctional : (u.state source).Functional) {ρ ν' : Environment}
    (hGuard : (l.guardOn (u.state source).toExpr).holds ρ = true)
    (hν' : (u.successor l source).Describes system.stateVariables ν') :
    system.Reaches (u.successor l source).history ν' := by
  obtain ⟨τ, hτ, hHolds⟩ := hν'
  have hHyg := hSystem.label hl
  obtain ⟨ν, hState, hFires⟩ :=
    hHyg.exists_fires_of_holds_applyTo hTidy hFunctional hKeeps hGuard u.states.size hHolds
  have hν : (u.state source).Describes system.stateVariables ν := ⟨ν, .refl _ _, hState⟩
  have hLeads : system.Leads l ν ν' :=
    ⟨ν, .refl _ _, hHyg.fires_congr (.refl _ _) hτ hFires⟩
  unfold Launches at h
  split at h
  · next hConstructor =>
    show system.Reaches ((u.state source).history ++ [l.name]) ν'
    rw [h.1]
    exact .start (.built (List.mem_filter.mpr ⟨hl, hConstructor⟩) hnoError (h.2 ν hν) hLeads)
  · next hConstructor =>
    exact .fire (h ν hν) hl (by simpa using hConstructor) hnoError hLeads

/-- An error label whose guard can be satisfied ends an execution. -/
theorem Launches.fails [Reals] (h : Launches system u source l) (hl : l ∈ system.labels)
    (hError : l.isError = true) {ρ : Environment}
    (hGuard : (l.guardOn (u.state source).toExpr).holds ρ = true) :
    system.Fails ((u.state source).history ++ [l.name]) := by
  rw [Label.guardOn, Expr.holds_and, Bool.and_eq_true] at hGuard
  have hν : (u.state source).Describes system.stateVariables ρ := ⟨ρ, .refl _ _, hGuard.1⟩
  have hEnabled : system.Enables ρ l := ⟨ρ, .refl _ _, hGuard.2⟩
  unfold Launches at h
  split at h
  · next hConstructor =>
    rw [h.1]
    exact .build (List.mem_filter.mpr ⟨hl, hConstructor⟩) hError (h.2 ρ hν) hEnabled
  · next hConstructor => exact .fire (h ρ hν) hl (by simpa using hConstructor) hError hEnabled

/-- A firing that leaves out nothing or everything keeps an unrolling exact. -/
theorem Firing.exact [Reals] (h : Firing solver.Answers depth source l u v) (hu : Exact system u)
    (hSat : ∀ e memory, (solver.decide e memory).1 = .sat → ∃ ρ, e.holds ρ = true)
    (hSystem : system.Hygienic) (hl : l ∈ system.labels)
    (hKeeps : l.isError = false → l.FramesAll ∨ l.Resets) (hLaunches : Launches system u source l)
    (hSource : source < u.states.size) (hne : source ≠ errorId) : Exact system v := by
  have hGrows := h.grows hu.wellFormed
  have hOrderly := h.orderly hu.toOrderly (hSystem.label hl) hSource hne
  -- states that were there keep their formulas and histories
  have hFunctional : ∀ id < u.states.size, id ≠ errorId → (v.state id).Functional :=
    fun id hid hne => SymbolicState.functional_of_formulas_eq (hu.functional id hid hne)
      (SymbolicState.formulas_of_bare (hGrows.bare id hid hne))
  have hReaches : ∀ k, ∀ id ∈ (u.layer k).all, id ≠ errorId → ∀ ν,
      (v.state id).Describes system.stateVariables ν → system.Reaches (v.state id).history ν := by
    intro k id hid hne ν hν
    have hlt := hu.wellFormed.listed k id hid
    rw [SymbolicState.history_of_bare (hGrows.bare id hlt hne)]
    exact hu.reaches k id hid hne ν ((hGrows.describes hlt hne).mp hν)
  cases h with
  | disabled => exact hu
  | failed hGuard hError =>
    refine ⟨hOrderly, fun id hid => ?_, fun k id hid hid' => ?_, fun _ => ?_⟩
    · rw [size_states_enterError] at hid
      exact hFunctional id hid
    · have hOld : id ∈ (u.layer k).all := by
        rw [layer_enterError] at hid
        grind
      exact hReaches k id hOld hid'
    · have hBare := errorState_enterError l source depth hu.wellFormed.nonempty
      by_cases hFirst : u.errorState.incoming.isEmpty = true
      · obtain ⟨memory, hAnswer⟩ := hGuard
        obtain ⟨ρ, hρ⟩ := hSat _ _ hAnswer
        rw [if_pos hFirst] at hBare
        rw [SymbolicState.history_of_bare hBare]
        exact hLaunches.fails hl hError hρ
      · rw [if_neg hFirst] at hBare
        rw [SymbolicState.history_of_bare hBare]
        exact hu.fails (by simpa using hFirst)
  | succeeded new hGuard hnoError =>
    refine ⟨hOrderly, fun id hid hid' => ?_, fun k id hid hid' ν hν => ?_, fun hIncoming => ?_⟩
    · rw [size_states_enterSuccessor] at hid
      by_cases hOld : id < u.states.size
      · exact hFunctional id hOld hid'
      · obtain rfl : id = u.states.size := by omega
        exact SymbolicState.functional_of_formulas_eq
          (l.functional_applyTo (u.state source) u.nextTransition u.states.size)
          (formulas_entered u l source depth new)
    · by_cases hOld : id ∈ (u.layer k).all
      · exact hReaches k id hOld hid' ν hν
      · obtain rfl : id = u.states.size := by
          have hid_successor : (u.successor l source).id = u.states.size := rfl
          rw [layer_enterSuccessor] at hid
          grind
        have hBare := bare_entered u l source depth new
        rw [SymbolicState.history_of_bare hBare]
        rw [SymbolicState.describes_of_formulas_eq (SymbolicState.formulas_of_bare hBare)] at hν
        obtain ⟨memory, hAnswer⟩ := hGuard
        obtain ⟨ρ, hρ⟩ := hSat _ _ hAnswer
        exact hLaunches.reaches_successor hl hSystem hnoError (hKeeps hnoError)
          (hu.tidy source hSource hne) (hu.functional source hSource hne) hρ hν
    · have hlt := Nat.ne_of_lt hu.wellFormed.nonempty
      have hBare := bare_enterSuccessor u l source depth (u.successor l source) new errorId
      rw [if_neg hlt] at hBare
      rw [errorState, incoming_enterSuccessor rfl hlt] at hIncoming
      rw [errorState, SymbolicState.history_of_bare hBare]
      exact hu.fails hIncoming

/-! ## Sweeps -/

/-- The conditions on a system and a solver under which unrolling is exact. -/
structure Keeping [Reals] (system : System) (solver : Solver σ) : Prop where
  hygienic : system.Hygienic
  keeps : ∀ l ∈ system.labels, l.isError = false → l.FramesAll ∨ l.Resets
  sat : ∀ e memory, (solver.decide e memory).1 = .sat → ∃ ρ, e.holds ρ = true

/-- A task that may be done: a label of the system on an existing state that it may be fired on. -/
structure Feasible [Reals] (system : System) (u : Unrolling) (task : Nat × Label) : Prop where
  source_lt : task.1 < u.states.size
  source_ne : task.1 ≠ errorId
  label : task.2 ∈ system.labels
  launches : Launches system u task.1 task.2

theorem Feasible.grows [Reals] {task : Nat × Label} (h : Feasible system u task)
    (hGrows : Grows depth u v) : Feasible system v task :=
  ⟨Nat.lt_of_lt_of_le h.source_lt hGrows.size, h.source_ne, h.label,
    h.launches.grows hGrows h.source_lt h.source_ne⟩

/-- A sweep, cut short or not, keeps every state exact. -/
theorem CutSweep.exact [Reals] {tasks : List (Nat × Label)}
    (h : CutSweep solver.Answers depth tasks u v)
    (hKeeping : Keeping system solver) (hu : Exact system u)
    (hTasks : ∀ task ∈ tasks, Feasible system u task) : Exact system v := by
  obtain ⟨done, hDone, hSweep⟩ := h
  have hFeasible : ∀ task ∈ done, Feasible system u task :=
    fun task hTask => hTasks task (hDone.subset hTask)
  clear hDone hTasks
  induction hSweep with
  | nil => exact hu
  | @cons u v w source l rest hFire _ ih =>
    obtain ⟨hFirst, hRest⟩ := List.forall_mem_cons.mp hFeasible
    have hv := hFire.exact hu hKeeping.sat hKeeping.hygienic hFirst.label
      (hKeeping.keeps l hFirst.label) hFirst.launches hFirst.source_lt hFirst.source_ne
    exact ih hv fun task hTask => (hRest task hTask).grows (hFire.grows hu.wellFormed)

/-! ## Runs -/

/-- Only states, transitions and lists matter. -/
theorem Exact.congr [Reals] (h : Exact system u) (hSystem : v.system = u.system)
    (hStates : v.states = u.states) (hTransitions : v.transitions = u.transitions)
    (hAll : ∀ k, (v.layer k).all ⊆ (u.layer k).all)
    (hFresh : ∀ k, (v.layer k).fresh ⊆ (v.layer k).all) : Exact system v := by
  have hState : ∀ id, v.state id = u.state id := fun id => by rw [state, state, hStates]
  refine ⟨h.toOrderly.congr hSystem hStates hTransitions hAll hFresh, ?_, fun k id hid => ?_, ?_⟩
  · simpa only [hState, hStates] using h.functional
  · rw [hState]
    exact h.reaches k id (hAll k hid)
  · simpa only [errorState, hState] using h.fails

theorem exact_unstarted [Reals] (system : System) : Exact system { system := system } where
  toOrderly := orderly_unstarted system
  functional := fun id hid hne => absurd (Nat.lt_one_iff.mp hid) hne
  reaches k id hid := by cases hid
  fails h := absurd rfl h

/-- The default state is exact. -/
theorem Exact.withDefault [Reals] (h : Exact system u) (hSystem : system.WellScoped) :
    Exact system u.withDefault := by
  have hOld : ∀ id < u.states.size, u.withDefault.state id = u.state id :=
    fun id hid => by rw [state_withDefault, if_neg (Nat.ne_of_lt hid)]
  refine ⟨h.toOrderly.withDefault hSystem, fun id hid hne => ?_, fun k id hid => ?_, ?_⟩
  · by_cases hid' : id < u.states.size
    · rw [hOld id hid']
      exact h.functional id hid' hne
    · rw [size_states_withDefault] at hid
      rw [state_withDefault, if_pos (by omega), h.system_eq]
      exact hSystem.functional_defaultState _
  · rw [hOld id (h.wellFormed.listed k id hid)]
    exact h.reaches k id hid
  · rw [errorState, hOld errorId h.wellFormed.nonempty]
    exact h.fails

/-- A state that is reached may be listed. -/
theorem Exact.list [Reals] (h : Exact system u) (depth : Nat) {id : Nat} (hid : id < u.states.size)
    (hReaches : ∀ ν, (u.state id).Describes system.stateVariables ν →
      system.Reaches (u.state id).history ν) :
    Exact system (u.modifyLayer depth fun layer =>
      { layer with fresh := layer.fresh ++ [id], all := layer.all ++ [id] }) where
  toOrderly := h.toOrderly.list hid
  functional := h.functional
  reaches k id' hid' hne ν hν := by
    by_cases hOld : id' ∈ (u.layer k).all
    · exact h.reaches k id' hOld hne ν hν
    · obtain rfl : id' = id := by
        rw [layer_modifyLayer] at hid'
        grind
      exact hReaches ν hν
  fails := h.fails

section Run

variable [Reals]
variable {s : Session σ Unrolling} (hKeeping : Keeping system env.solver)

include hKeeping

/-- The start keeps every state exact. -/
theorem ensures_start_exact (hFresh : s.work = { system := system }) :
    Ensures s (start env) (fun _ t => Exact system t.work ∧ t.work.started = true)
      (fun t => Exact system t.work) := by
  have hScoped := hKeeping.hygienic.toWellScoped
  have hDefault := (exact_unstarted system).withDefault hScoped
  have hisDefault : ∀ ν, ((withDefault { system := system }).state 1).Describes
      system.stateVariables ν → system.IsDefault ν := fun ν hν => hScoped.isDefault_of_describes hν
  have hHistory : ((withDefault { system := system }).state 1).history = [] := by
    show (system.defaultState 1).history = []
    rw [System.defaultState_eq]
  have hOpened : Exact system ((withDefault { system := system }).modifyLayer 0 id) := by
    refine hDefault.congr rfl rfl rfl (fun k => ?_) fun k => ?_ <;> rw [layer_modifyLayer_id]
    · exact List.Subset.refl _
    · exact hDefault.wellFormed.fresh k
  -- constructors are fired on the default state, which has no history
  have hFeasible : ∀ task ∈ constructorTasks { system := system },
      Feasible system ((withDefault { system := system }).modifyLayer 0 id) task := by
    intro task hTask
    obtain ⟨c, hc, rfl⟩ := List.mem_map.mp hTask
    obtain ⟨hLabel, hConstructor⟩ := List.mem_filter.mp hc
    refine ⟨Nat.lt_succ_self 1, Nat.one_ne_zero, hLabel, ?_⟩
    rw [Launches, if_pos hConstructor]
    exact ⟨hHistory, hisDefault⟩
  refine ensures_start.mono (fun _ t ⟨hStarting, _⟩ => ?_) fun t ht => ?_
  · rw [hFresh] at hStarting
    generalize t.work = v at hStarting
    cases hStarting with
    -- a fresh unrolling has not been started
    | already hStarted => cases hStarted
    | default _ hNone =>
      have hListed := hDefault.list 0 (Nat.lt_succ_self 1) fun ν hν => by
        rw [hHistory]
        exact .start (.default hNone (hisDefault ν hν))
      exact ⟨hListed.congr rfl rfl rfl (fun _ => List.Subset.refl _) hListed.wellFormed.fresh, rfl⟩
    | built _ _ _ hSweep =>
      have hv := hSweep.cut.exact hKeeping hOpened hFeasible
      exact ⟨hv.congr rfl rfl rfl (fun _ => List.Subset.refl _) hv.wellFormed.fresh, rfl⟩
  · rw [hFresh] at ht
    rcases ht with ht | hCut
    · rw [ht]
      exact exact_unstarted system
    · exact hCut.exact hKeeping hOpened hFeasible

/-- An iteration keeps every state exact. -/
theorem ensures_iterate_exact (depth : Nat) (s : Session σ Unrolling)
    (hs : Exact system s.work ∧ s.work.started = true) :
    Ensures s (iterate env (depth + 1)) (fun _ t => Exact system t.work ∧ t.work.started = true)
      (fun t => Exact system t.work ∧ t.work.started = true) := by
  obtain ⟨hs, hStarted⟩ := hs
  have hEmptied : Exact system (s.work.modifyLayer (depth + 1) fun _ => {}) := by
    refine hs.congr rfl rfl rfl (fun k => ?_) fun k => ?_ <;> rw [layer_modifyLayer] <;> split
    · exact List.nil_subset _
    · exact List.Subset.refl _
    · exact List.nil_subset _
    · exact hs.wellFormed.fresh k
  have hFeasible : ∀ task ∈ tasks s.work.system.labels (s.work.layer depth).fresh,
      Feasible system (s.work.modifyLayer (depth + 1) fun _ => {}) task := by
    intro task hTask
    obtain ⟨⟨hid, hne⟩, hLabel, hnoConstructor⟩ := mem_tasks.mp hTask
    have hAll := hs.wellFormed.fresh _ hid
    refine ⟨hs.wellFormed.listed _ _ hAll, hne, hs.system_eq ▸ hLabel, ?_⟩
    rw [Launches, if_neg (by simp [hnoConstructor])]
    exact hs.reaches depth task.1 hAll hne
  have hSwept : ∀ v,
      CutSweep env.solver.Answers (depth + 1) _ (s.work.modifyLayer (depth + 1) fun _ => {}) v →
      Exact system v ∧ v.started = true := fun v hCut =>
    ⟨hCut.exact hKeeping hEmptied hFeasible,
      (hCut.grows hEmptied.wellFormed).1.started.trans hStarted⟩
  refine (ensures_iterate hStarted).mono (fun _ t ⟨hCut, _⟩ => hSwept t.work hCut) fun t ht => ?_
  rcases ht with hCut | ht
  · exact hSwept t.work hCut
  · rw [ht]
    exact ⟨hs, hStarted⟩

theorem ensures_unroll_exact (maxDepth : Option Nat) (hFresh : s.work = { system := system })
    (n : Nat) : Ensures s ((unroll env maxDepth).after n) (fun _ t => Exact system t.work)
      (fun t => Exact system t.work) := by
  let Inv (u : Unrolling) : Prop := Exact system u ∧ u.started = true
  exact (ensures_unroll Inv (ensures_iterate_exact hKeeping) (ensures_start_exact hKeeping hFresh)
    (fun _ h => h.1) n).mono (fun _ _ h => h.1) fun _ h => h

end Run

/-- **Where unrolling is exact.** For every system read from a description that declares its
variables first and uses no name that looks hidden, in which the effects of every label but the
error labels read every state variable and frame every precondition or read nothing at all, every
solver whose positive answers are true, and every run of unrolling a fresh system, whether it
returns or fails, and whatever happens to the stop flag: values described by a state listed at any
depth are reached by an execution that fires exactly the labels of the state's history, and if the
error state was entered, then its history is the labels of an execution whose last one is an error
label that is enabled. -/
theorem unroll_exact [Reals] {text : String} (hParse : Description.parseSystem text = .ok system)
    (hFirst : Description.DeclaresFirst text)
    (hVisible : ∀ x ∈ system.declared, Renaming.isHidden x.name = false)
    (hKeeps : ∀ l ∈ system.labels, l.isError = false → l.FramesAll ∨ l.Resets)
    (hSat : ∀ e memory, (env.solver.decide e memory).1 = .sat → ∃ ρ, e.holds ρ = true)
    {s t : Session σ Unrolling} (hFresh : s.work = { system := system }) {maxDepth : Option Nat}
    (hRun : (∃ ending, (unroll env maxDepth).run s = some (.ok ending t)) ∨
      ∃ failure, (unroll env maxDepth).run s = some (.error failure t)) :
    (∀ depth, ∀ id ∈ (t.work.layer depth).all, (t.work.state id).isError = false → ∀ ν,
      (t.work.state id).Describes system.stateVariables ν →
        system.Reaches (t.work.state id).history ν) ∧
    (t.work.errorState.incoming ≠ [] → system.Fails t.work.errorState.history) := by
  have hKeeping : Keeping system env.solver :=
    ⟨⟨Description.wellScoped_of_declaresFirst hParse hFirst, hVisible⟩, hKeeps, hSat⟩
  have hEnsures := ensures_unroll_exact hKeeping maxDepth hFresh
  have hExact : Exact system t.work := by
    rcases hRun with ⟨ending, hRun⟩ | ⟨failure, hRun⟩
    · obtain ⟨n, hn⟩ := Exploration.run_eq_ok_iff.mp hRun
      exact (hEnsures n).of_eq_ok hn
    · obtain ⟨n, hn⟩ := Exploration.run_eq_error_iff.mp hRun
      exact (hEnsures n).of_eq_error hn
  refine ⟨fun depth id hid hnoError => ?_, hExact.fails⟩
  exact hExact.reaches depth id hid (hExact.wellFormed.ne_errorId hnoError)

/-! ## An exact unrolling, and one that is not -/

open scoped Reals

/-- The variable that is set. -/
def lamp : Variable := ⟨"x", .bool⟩

/-- A variable that is set by an effect that reads it, and reset by one that does not. -/
def lampText : String :=
  "VARIABLES:\ndeclare x:bool\n\nTRANSITION set:\nPRECONDITION:\n!x\nEFFECT:\nx: x' != x\n\n" ++
    "TRANSITION reset:\nPRECONDITION:\nx\nEFFECT:\nx: !x'\n"

/-- The label that sets the variable. -/
def setLamp : Label where
  name := "set"
  stateVariables := [lamp]
  preconditions := [.not (.var lamp)]
  effects := [(lamp, .logical .xor (.var lamp.primed) (.var lamp))]

/-- The label that resets the variable. -/
def resetLamp : Label where
  name := "reset"
  stateVariables := [lamp]
  preconditions := [.var lamp]
  effects := [(lamp, .not (.var lamp.primed))]

/-- The system of `lampText`. -/
def lampSystem : System where
  stateVariables := [lamp]
  labels := [setLamp, resetLamp]

/-- The label reads its variable, and its effect takes the precondition along. -/
theorem framesAll_setLamp : setLamp.FramesAll where
  reads := by decide +kernel
  guards := by decide +kernel

/-- The unrolling of a lamp ends, and its second state is reached as its history tells. -/
theorem unroll_exact_lamp : ∃ t : Session Unit Unrolling,
    (unroll { solver := .exhaustive } none).run { memory := (), work := { system := lampSystem } } =
      some (.ok (.fixpoint 1) t) ∧
    (t.work.state 2).history = ["set"] ∧ (t.work.state 2).isError = false ∧
      2 ∈ (t.work.layer 1).all ∧
    ∀ ν, (t.work.state 2).Describes [lamp] ν → lampSystem.Reaches ["set"] ν := by
  have hCheck : (unroll { solver := .exhaustive } none).returns 4
      { memory := (), work := { system := lampSystem } } (fun ending t =>
        ending = .fixpoint 1 ∧ (t.work.state 2).history = ["set"] ∧
          (t.work.state 2).isError = false ∧ 2 ∈ (t.work.layer 1).all) = true := by
    rw [unroll_eq]
    decide +kernel
  obtain ⟨ending, t, hRun, hEnding⟩ := Exploration.exists_of_returns hCheck
  obtain ⟨rfl, hHistory, hnoError, hListed⟩ := of_decide_eq_true hEnding
  have hParse : Description.parseSystem lampText = .ok lampSystem := by decide +kernel
  have hFirst : Description.DeclaresFirst lampText := by decide +kernel
  have hResets : resetLamp.Resets := by
    unfold Label.Resets
    decide +kernel
  have hKeeps : ∀ l ∈ lampSystem.labels, l.isError = false → l.FramesAll ∨ l.Resets := by
    simp only [lampSystem, List.forall_mem_cons]
    exact ⟨fun _ => .inl framesAll_setLamp, fun _ => .inr hResets, by simp⟩
  have hExact := unroll_exact hParse hFirst (by decide +kernel) hKeeps
    Solver.exhaustive_truthful.sat rfl (.inl ⟨_, hRun⟩)
  refine ⟨t, hRun, hHistory, hnoError, hListed, fun ν hν => ?_⟩
  rw [← hHistory]
  exact hExact.1 1 2 hListed hnoError ν hν

/-- A variable that nothing changes, and one that is set only where the first is. -/
def latchText : String :=
  "VARIABLES:\ndeclare x:bool, y:bool\n\n" ++
    "TRANSITION keep:\nPRECONDITION:\nx\n!y\nEFFECT:\ny: y'\n\n" ++
    "TRANSITION bad:\nPRECONDITION:\ny\n!x\nEFFECT:\nERROR\n\nINIT:\nx: true\n"

/-- The variable that is set. -/
def latch : Variable := ⟨"y", .bool⟩

/-- Sets the second variable where the first is set. -/
def keepLabel : Label where
  name := "keep"
  stateVariables := [lamp, latch]
  preconditions := [.var lamp, .not (.var latch)]
  effects := [(latch, .var latch.primed)]

/-- An error where the second variable is set without the first. -/
def badLabel : Label where
  name := "bad"
  stateVariables := [lamp, latch]
  preconditions := [.var latch, .not (.var lamp)]
  isError := true

/-- The system of `latchText`. -/
def latchSystem : System where
  stateVariables := [lamp, latch]
  labels := [keepLabel, badLabel]
  initialValues := [(lamp, .truth true)]

theorem holds_lamp {ρ : Environment} : (Expr.var lamp).holds ρ = true ↔ ρ.get lamp ≠ 0 :=
  decide_eq_true_iff

/-- Firing the first label leaves its first variable set. -/
theorem keep_keeps_lamp {ν ν' : Environment} (h : latchSystem.Leads keepLabel ν ν') :
    ν'.get lamp ≠ 0 := by
  obtain ⟨before, -, hPre, hEffects⟩ := h
  have hSet : (Expr.var lamp).holds before = true :=
    Expr.holds_conj.mp hPre _ (List.mem_cons_self)
  have hStutter : ν'.get lamp = before.get lamp := hEffects lamp List.mem_cons_self
  rw [hStutter]
  exact holds_lamp.mp hSet

theorem not_enables_bad {ν : Environment} (h : ν.get lamp ≠ 0) :
    ¬latchSystem.Enables ν badLabel := by
  rintro ⟨before, hAgree, hPre⟩
  have hUnset : (Expr.not (.var lamp)).holds before = true :=
    Expr.holds_conj.mp hPre _ (List.mem_cons_of_mem _ List.mem_cons_self)
  have hSet : (Expr.var lamp).holds before = true :=
    holds_lamp.mpr (by rwa [hAgree lamp List.mem_cons_self])
  simp [hSet] at hUnset

theorem eq_of_mem_latchSystem (hl : l ∈ latchSystem.labels) : l = keepLabel ∨ l = badLabel := by
  simpa [latchSystem] using hl

theorem constructors_latchSystem : latchSystem.constructors = [] := by
  decide

/-- After a firing, the first variable is set. -/
theorem reaches_keep {history : List String} {ν : Environment} (h : latchSystem.Reaches history ν)
    (hne : history ≠ []) : ν.get lamp ≠ 0 := by
  cases h with
  | start hStart =>
    cases hStart with
    | default => exact absurd rfl hne
    | built hc => simp [constructors_latchSystem] at hc
  | fire _ hl _ hnoError hLeads =>
    rcases eq_of_mem_latchSystem hl with rfl | rfl
    · exact keep_keeps_lamp hLeads
    · cases hnoError

/-- The two labels of the history never lead to the error. -/
theorem not_fails_keep_bad : ¬latchSystem.Fails ["keep", "bad"] := by
  generalize hHistory : ["keep", "bad"] = history
  intro h
  cases h with
  | build hc => simp [constructors_latchSystem] at hc
  | fire hBefore hl _ hError hEnabled =>
    rcases eq_of_mem_latchSystem hl with rfl | rfl
    · cases hError
    · refine not_enables_bad (reaches_keep hBefore ?_) hEnabled
      rintro rfl
      simp at hHistory

/-- The effect of the first label depends on no precondition, so its successor forgets that the
first variable was set, and the error label looks enabled there. No execution ends that way. -/
theorem keep_then_bad_unreachable :
    Description.parseSystem latchText = .ok latchSystem ∧ Description.DeclaresFirst latchText ∧
    (∀ x ∈ latchSystem.declared, Renaming.isHidden x.name = false) ∧
    ∃ t : Session Unit Unrolling,
      (unroll { solver := .exhaustive } none).run
        { memory := (), work := { system := latchSystem } } = some (.ok (.fixpoint 2) t) ∧
      t.work.errorState.incoming ≠ [] ∧ ¬latchSystem.Fails t.work.errorState.history := by
  have hCheck : (unroll { solver := .exhaustive } none).returns 4
      { memory := (), work := { system := latchSystem } } (fun ending t =>
        ending = .fixpoint 2 ∧ t.work.errorState.incoming ≠ [] ∧
          t.work.errorState.history = ["keep", "bad"]) = true := by
    rw [unroll_eq]
    decide +kernel
  obtain ⟨ending, t, hRun, hEnding⟩ := Exploration.exists_of_returns hCheck
  obtain ⟨rfl, hError, hHistory⟩ := of_decide_eq_true hEnding
  refine ⟨by decide +kernel, by decide +kernel, by decide +kernel, t, hRun, hError, ?_⟩
  rw [hHistory]
  exact not_fails_keep_bad

end Unrolling

end StateSpace
