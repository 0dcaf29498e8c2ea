import StateSpace.Proofs.Description.Scope
import StateSpace.Proofs.Label.Successor
import StateSpace.Proofs.Unrolling.Firing

/-!
# Unrolling is complete

A label is only fired on states whose values were new. That loses nothing, because the values of
every state derived are described by a state that was new at the same depth or before
(`Unrolling.Covering`), and because a firing finds whatever the label leads to
(`Unrolling.Expanded`). Both are proved for one firing and carried through sweeps and iterations.

The main result, `Unrolling.unroll_complete`, is about every system read from a description that
declares its variables first, every solver with true answers, and every run during which the stop
flag is not raised.
-/

namespace StateSpace.Unrolling

open Explore Environment

variable {σ : Type} {env : Surroundings σ} {solver : Solver σ} {system : System}
  {u v : Unrolling} {l : Label} {depth source : Nat} {ν ν' : Environment}

/-! ## Invariants -/

/-- The values of every state derived are described by a state that was new at the same depth or
before; nothing is listed beyond `depth`. -/
structure Covering [Reals] (system : System) (depth : Nat) (u : Unrolling) : Prop
    extends Orderly system u where
  bounded : ∀ k, depth < k → u.layer k = {}
  covered : ∀ k, ∀ id ∈ (u.layer k).all, id ≠ errorId →
    ∀ ν, (u.state id).Describes system.stateVariables ν →
      ∃ k' ≤ k, ∃ id' ∈ (u.layer k').fresh,
        id' ≠ errorId ∧ (u.state id').Describes system.stateVariables ν

/-- A label has been fired on a state: whatever it leads to is described at the given depth, and if
it is an error label that is enabled, the error state was entered. -/
structure Expanded [Reals] (system : System) (depth : Nat) (u : Unrolling) (task : Nat × Label) :
    Prop where
  source_lt : task.1 < u.states.size
  source_ne : task.1 ≠ errorId
  leads : task.2.isError = false → ∀ ν ν', (u.state task.1).Describes system.stateVariables ν →
    system.Leads task.2 ν ν' →
      ∃ id ∈ (u.layer depth).all, id ≠ errorId ∧ (u.state id).Describes system.stateVariables ν'
  fails : task.2.isError = true → ∀ ν, (u.state task.1).Describes system.stateVariables ν →
    system.Enables ν task.2 → u.errorState.incoming ≠ []

/-- What has been expanded stays so while the unrolling grows. -/
theorem Expanded.grows [Reals] {depth' : Nat} {task : Nat × Label}
    (h : Expanded system depth u task)
    (hu : u.WellFormed) (hGrows : Grows depth' u v) : Expanded system depth v task where
  source_lt := Nat.lt_of_lt_of_le h.source_lt hGrows.size
  source_ne := h.source_ne
  leads hnoError ν ν' hν hLeads := by
    rw [hGrows.describes h.source_lt h.source_ne] at hν
    obtain ⟨id, hid, hne, hDescribes⟩ := h.leads hnoError ν ν' hν hLeads
    exact ⟨id, hGrows.all _ hid, hne, (hGrows.describes (hu.listed _ id hid) hne).mpr hDescribes⟩
  fails hError ν hν hEnabled := by
    rw [hGrows.describes h.source_lt h.source_ne] at hν
    exact hGrows.failed (h.fails hError ν hν hEnabled)

/-- Values that are reached are described by some state that was new. -/
theorem Covering.exists_fresh [Reals] (h : Covering system depth u)
    (hν : u.reached.holds ν = true) : ∃ k ≤ depth, ∃ id ∈ (u.layer k).fresh,
      id ≠ errorId ∧ (u.state id).Describes system.stateVariables ν := by
  rw [reached, h.system_eq] at hν
  obtain ⟨s, hs, hnoError, hDescribes⟩ := holds_coverage.mp hν
  obtain ⟨k, id, hid, rfl⟩ := mem_derivedStates.mp hs
  have hne := h.wellFormed.ne_errorId hnoError
  have hk : k ≤ depth := by
    by_contra hlt
    rw [h.bounded k (by omega)] at hid
    cases hid
  obtain ⟨k', hk', hFresh⟩ := h.covered k id hid hne ν hDescribes
  exact ⟨k', by omega, hFresh⟩

theorem Covering.reached_of_mem [Reals] (h : Covering system depth u) {k id : Nat}
    (hid : id ∈ (u.layer k).all)
    (hne : id ≠ errorId) (hν : (u.state id).Describes system.stateVariables ν) :
    u.reached.holds ν = true := by
  rw [reached, h.system_eq]
  exact holds_coverage.mpr ⟨u.state id, mem_derivedStates.mpr ⟨k, id, hid, rfl⟩,
    h.wellFormed.noError id (h.wellFormed.listed k id hid) hne, hν⟩

theorem Covering.congr [Reals] (h : Covering system depth u) (hSystem : v.system = u.system)
    (hStates : v.states = u.states) (hTransitions : v.transitions = u.transitions)
    (hLayer : ∀ k, v.layer k = u.layer k) : Covering system depth v := by
  have hState : ∀ id, v.state id = u.state id := fun id => by rw [state, state, hStates]
  refine ⟨h.toOrderly.congr hSystem hStates hTransitions (by simp [hLayer])
    (by simpa only [hLayer] using h.wellFormed.fresh), ?_, ?_⟩
  · simpa only [hLayer] using h.bounded
  · simpa only [hLayer, hState] using h.covered

/-! ## One firing -/

/-- A firing keeps the values of derived states covered: a successor that is not new has no values
outside of what is covered already. -/
theorem Firing.covering [Reals] (h : Firing solver.Answers depth source l u v)
    (hTrue : solver.Truthful) (hu : Covering system depth u) (hl : l.Hygienic system.stateVariables)
    (hSource : source < u.states.size) (hne : source ≠ errorId) : Covering system depth v := by
  have hGrows := h.grows hu.wellFormed
  refine ⟨h.orderly hu.toOrderly hl hSource hne, fun k hk => ?_, ?_⟩
  · rw [hGrows.others k (by omega)]
    exact hu.bounded k hk
  · -- what was covered before stays covered
    have hKept : ∀ k ν, (∃ k' ≤ k, ∃ id' ∈ (u.layer k').fresh,
        id' ≠ errorId ∧ (u.state id').Describes system.stateVariables ν) →
        ∃ k' ≤ k, ∃ id' ∈ (v.layer k').fresh,
          id' ≠ errorId ∧ (v.state id').Describes system.stateVariables ν := by
      rintro k ν ⟨k', hk', id', hid', hne', hν⟩
      have hlt := hu.wellFormed.listed k' id' (hu.wellFormed.fresh k' hid')
      exact ⟨k', hk', id', hGrows.fresh k' hid', hne', (hGrows.describes hlt hne').mpr hν⟩
    intro k id hid hid' ν hν
    by_cases hOld : id ∈ (u.layer k).all
    · have hlt := hu.wellFormed.listed k id hOld
      exact hKept k ν (hu.covered k id hOld hid' ν ((hGrows.describes hlt hid').mp hν))
    · -- a state that was not listed before is the successor that was just entered
      cases h with
      | disabled => exact absurd hid hOld
      | failed =>
        rw [layer_enterError] at hid
        grind
      | succeeded new hGuard hnoError hNew =>
        have hNewest : k = depth ∧ id = u.states.size := by
          rw [layer_enterSuccessor] at hid
          have hid_successor : (u.successor l source).id = u.states.size := rfl
          grind
        obtain ⟨rfl, rfl⟩ := hNewest
        cases new with
        | true =>
          refine ⟨k, Nat.le_refl k, u.states.size, ?_, hid', hν⟩
          rw [layer_enterSuccessor, if_pos rfl]
          exact List.mem_append_right _ (List.mem_singleton.mpr rfl)
        | false =>
          have hnoConstructor : ¬l.isConstructor = true := by
            intro hConstructor
            rw [if_pos hConstructor] at hNew
            cases hNew
          rw [if_neg hnoConstructor] at hNew
          obtain ⟨memory, hUnsat⟩ := hNew
          rw [SymbolicState.describes_of_formulas_eq (formulas_entered u l source k false)] at hν
          -- the solver found no values outside of what is reached
          have hReached : u.reached.holds ν = true := by
            have hNone := hTrue.unsat _ _ hUnsat
            rw [reached, hu.system_eq] at hNone ⊢
            exact covered_of_outside hNone hν
          exact hKept k ν (hu.exists_fresh hReached)

/-- A firing finds whatever the label leads to. -/
theorem Firing.expanded [Reals] (h : Firing solver.Answers depth source l u v)
    (hTrue : solver.Truthful) (hu : Covering system depth u) (hl : l.Hygienic system.stateVariables)
    (hSource : source < u.states.size) (hne : source ≠ errorId) :
    Expanded system depth v (source, l) := by
  have hGrows := h.grows hu.wellFormed
  have hTidy := hu.tidy source hSource hne
  refine ⟨Nat.lt_of_lt_of_le hSource hGrows.size, hne, ?_, ?_⟩
  · intro hnoError ν ν' hν ⟨before, hBefore, hFires⟩
    rw [hGrows.describes hSource hne] at hν
    cases h with
    | disabled hGuard =>
      obtain ⟨memory, hUnsat⟩ := hGuard
      obtain ⟨β, hβ⟩ := hl.exists_holds_guardOn hTidy hν hBefore hFires.1
      rw [hTrue.unsat _ _ hUnsat β] at hβ
      cases hβ
    | failed hGuard hError => simp [hError] at hnoError
    | succeeded new =>
      refine ⟨u.states.size, ?_, Nat.ne_of_gt hu.wellFormed.nonempty, ?_⟩
      · rw [layer_enterSuccessor, if_pos rfl]
        exact List.mem_append_right _ (List.mem_singleton.mpr rfl)
      · rw [SymbolicState.describes_of_formulas_eq (formulas_entered u l source depth new)]
        exact hl.describes_applyTo hTidy _ hν hBefore hFires
  · intro hError ν hν ⟨before, hBefore, hPre⟩
    rw [hGrows.describes hSource hne] at hν
    cases h with
    | disabled hGuard =>
      obtain ⟨memory, hUnsat⟩ := hGuard
      obtain ⟨β, hβ⟩ := hl.exists_holds_guardOn hTidy hν hBefore hPre
      rw [hTrue.unsat _ _ hUnsat β] at hβ
      cases hβ
    | failed => exact incoming_enterError hu.wellFormed.nonempty
    | succeeded new hGuard hnoError => simp [hnoError] at hError

/-- A sweep keeps values covered and expands all its tasks. -/
theorem Sweep.expands [Reals] {tasks : List (Nat × Label)}
    (h : Sweep solver.Answers depth tasks u v)
    (hTrue : solver.Truthful) (hSystem : system.Hygienic) (hu : Covering system depth u)
    (hTasks : ∀ task ∈ tasks, task.1 < u.states.size ∧ task.1 ≠ errorId ∧ task.2 ∈ system.labels) :
    Covering system depth v ∧ ∀ task ∈ tasks, Expanded system depth v task := by
  let Inv (w : Unrolling) : Prop := Covering system depth w ∧ u.states.size ≤ w.states.size
  have hKeeps := h.keeps Inv (Expanded system depth) ?_ ⟨hu, Nat.le_refl _⟩
  · exact ⟨hKeeps.1.1, hKeeps.2.1⟩
  · intro task hTask w w' ⟨hw, hSize⟩ hFire
    obtain ⟨hlt, hne, hLabel⟩ := hTasks task hTask
    have hl := hSystem.label hLabel
    have hGrows := hFire.grows hw.wellFormed
    have hSource : task.1 < w.states.size := by omega
    refine ⟨⟨hFire.covering hTrue hw hl hSource hne, hSize.trans hGrows.size⟩,
      hFire.expanded hTrue hw hl hSource hne, fun other hOther => ?_⟩
    exact hOther.grows hw.wellFormed hGrows

/-! ## Completed depths -/

/-- Everything up to a depth is there: what executions start with, and what the labels lead to from
the new states of every depth before. -/
structure Complete [Reals] (system : System) (depth : Nat) (u : Unrolling) : Prop where
  covering : Covering system depth u
  started : u.started = true
  keys : ∀ k, k ∈ u.layers ↔ k ≤ depth
  starts : ∀ history ν, system.Starts history ν → ∃ id ∈ (u.layer 0).fresh,
    id ≠ errorId ∧ (u.state id).Describes system.stateVariables ν
  expanded : ∀ k < depth, ∀ task ∈ tasks system.labels (u.layer k).fresh,
    Expanded system (k + 1) u task

/-- What a given number of firings reaches is described by a state that was new by then. -/
theorem Complete.exists_fresh [Reals] (h : Complete system depth u) {n : Nat}
    (hν : system.ReachesIn n ν) (hn : n ≤ depth) : ∃ k ≤ n, ∃ id ∈ (u.layer k).fresh,
      id ≠ errorId ∧ (u.state id).Describes system.stateVariables ν := by
  induction hν with
  | start hStart =>
    obtain ⟨id, hid⟩ := h.starts _ _ hStart
    exact ⟨0, Nat.le_refl 0, id, hid⟩
  | @fire n ν ν' l _ hLabel hnoConstructor hnoError hLeads ih =>
    obtain ⟨k, hk, id, hid, hne, hν⟩ := ih (by omega)
    have hTask : (id, l) ∈ tasks system.labels (u.layer k).fresh :=
      mem_tasks.mpr ⟨⟨hid, hne⟩, hLabel, hnoConstructor⟩
    obtain ⟨id', hid', hne', hν'⟩ := (h.expanded k (by omega) _ hTask).leads hnoError _ _ hν hLeads
    obtain ⟨k', hk', hFresh⟩ := h.covering.covered (k + 1) id' hid' hne' ν' hν'
    exact ⟨k', by omega, hFresh⟩

theorem Complete.reached [Reals] (h : Complete system depth u) {n : Nat} (hν : system.ReachesIn n ν)
    (hn : n ≤ depth) : u.reached.holds ν = true := by
  obtain ⟨k, -, id, hid, hne, hDescribes⟩ := h.exists_fresh hν hn
  exact h.covering.reached_of_mem (h.covering.wellFormed.fresh k hid) hne hDescribes

/-- Where a depth brought nothing new, all labels have been fired on a state with the values
reached. -/
theorem Complete.exists_expanded [Reals] (h : Complete system depth u)
    (hNone : u.hasNew depth = false)
    (hν : u.reached.holds ν = true) : ∃ k id, (u.state id).Describes system.stateVariables ν ∧
      ∀ l ∈ system.labels, l.isConstructor = false → Expanded system (k + 1) u (id, l) := by
  obtain ⟨k, hk, id, hid, hne, hν⟩ := h.covering.exists_fresh hν
  have hlt : k < depth := by
    refine Nat.lt_of_le_of_ne hk ?_
    rintro rfl
    have hEmpty : (u.layer k).fresh = [] := by simpa [hasNew] using hNone
    simp [hEmpty] at hid
  exact ⟨k, id, hν, fun l hl hnoConstructor =>
    h.expanded k hlt (id, l) (mem_tasks.mpr ⟨⟨hid, hne⟩, hl, hnoConstructor⟩)⟩

/-- At the end, every step from what is reached leads to what is reached. -/
theorem Complete.closed [Reals] (h : Complete system depth u) (hNone : u.hasNew depth = false)
    (hl : l ∈ system.labels) (hnoConstructor : l.isConstructor = false)
    (hnoError : l.isError = false)
    (hν : u.reached.holds ν = true) (hLeads : system.Leads l ν ν') : u.reached.holds ν' = true := by
  obtain ⟨k, id, hDescribes, hExpanded⟩ := h.exists_expanded hNone hν
  obtain ⟨id', hid', hne', hν'⟩ :=
    (hExpanded l hl hnoConstructor).leads hnoError ν ν' hDescribes hLeads
  exact h.covering.reached_of_mem hid' hne' hν'

theorem Complete.reaches [Reals] (h : Complete system depth u) (hNone : u.hasNew depth = false)
    {history : List String} (hν : system.Reaches history ν) : u.reached.holds ν = true := by
  induction hν with
  | start hStart => exact h.reached (.start hStart) (Nat.zero_le depth)
  | fire _ hl hnoConstructor hnoError hLeads ih =>
    exact h.closed hNone hl hnoConstructor hnoError ih hLeads

theorem Complete.currentDepth [Reals] (h : Complete system depth u) : u.currentDepth = depth :=
  currentDepth_eq ((h.keys depth).mpr (Nat.le_refl depth)) fun k hk => (h.keys k).mp hk

/-! ## The start -/

theorem covering_unstarted [Reals] (system : System) : Covering system 0 { system := system } where
  toOrderly := orderly_unstarted system
  bounded _ _ := rfl
  covered k id hid := by cases hid

/-- The default state is covered. -/
theorem Covering.withDefault [Reals] (h : Covering system depth u) (hSystem : system.WellScoped) :
    Covering system depth u.withDefault where
  toOrderly := h.toOrderly.withDefault hSystem
  bounded := h.bounded
  covered k id hid hne ν hν := by
    have hOld : ∀ id < u.states.size, u.withDefault.state id = u.state id :=
      fun id hid => by rw [state_withDefault, if_neg (Nat.ne_of_lt hid)]
    rw [hOld id (h.wellFormed.listed k id hid)] at hν
    obtain ⟨k', hk', id', hid', hne', hν'⟩ := h.covered k id hid hne ν hν
    refine ⟨k', hk', id', hid', hne', ?_⟩
    rwa [hOld id' (h.wellFormed.listed k' id' (h.wellFormed.fresh k' hid'))]

/-- A state becomes listed as new. -/
theorem Covering.list [Reals] (h : Covering system depth u) {id : Nat} (hid : id < u.states.size) :
    Covering system depth (u.modifyLayer depth fun layer =>
      { layer with fresh := layer.fresh ++ [id], all := layer.all ++ [id] }) where
  toOrderly := h.toOrderly.list hid
  bounded k hk := by
    rw [layer_modifyLayer, if_neg (by omega)]
    exact h.bounded k hk
  covered k id' hid' hne' ν hν := by
    simp only [layer_modifyLayer] at hid' ⊢
    by_cases hOld : id' ∈ (u.layer k).all
    · obtain ⟨k', hk', id'', hid'', hRest⟩ := h.covered k id' hOld hne' ν hν
      refine ⟨k', hk', id'', ?_, hRest⟩
      grind
    · refine ⟨k, Nat.le_refl k, id', ?_, hne', hν⟩
      grind

/-- Without constructors, the default state covers all initial values. -/
theorem complete_of_default [Reals] (hSystem : system.Hygienic) (hNone : system.constructors = []) :
    Complete system 0 (startedByDefault { system := system }) := by
  have hDefault := (covering_unstarted system).withDefault hSystem.toWellScoped
  have hListed := hDefault.list (Nat.lt_succ_self 1)
  refine ⟨hListed.congr rfl rfl rfl fun _ => rfl, rfl, fun k => ?_, fun history ν hStart => ?_,
    fun k hk => absurd hk (Nat.not_lt_zero k)⟩
  · rw [startedByDefault, mem_layers_modifyLayer]
    simp [withDefault]
  · refine ⟨1, List.mem_singleton.mpr rfl, Nat.one_ne_zero, ?_⟩
    cases hStart with
    | default _ hν => exact System.describes_defaultState 1 hν
    | built hMem => simp [hNone] at hMem

/-- The constructors cover all initial values. -/
theorem complete_of_constructors [Reals] (hTrue : solver.Truthful) (hSystem : system.Hygienic)
    (hSome : system.constructors ≠ [])
    (hSweep : Sweep solver.Answers 0 (constructorTasks { system := system })
      ((withDefault { system := system }).modifyLayer 0 id) v) :
    Complete system 0 { v with initial := (v.layer 0).fresh, started := true } := by
  have hDefault := (covering_unstarted system).withDefault hSystem.toWellScoped
  have hOpened : Covering system 0 ((withDefault { system := system }).modifyLayer 0 id) :=
    hDefault.congr rfl rfl rfl fun _ => layer_modifyLayer_id
  obtain ⟨hCovering, hExpanded⟩ := hSweep.expands hTrue hSystem hOpened fun task hTask => by
    obtain ⟨c, hc, rfl⟩ := List.mem_map.mp hTask
    exact ⟨Nat.lt_succ_self 1, Nat.one_ne_zero, (List.mem_filter.mp hc).1⟩
  have hGrows := (hSweep.grows hOpened.wellFormed).1
  refine ⟨hCovering.congr rfl rfl rfl fun _ => rfl, rfl, fun k => ?_, fun history ν' hStart => ?_,
    fun k hk => absurd hk (Nat.not_lt_zero k)⟩
  · show k ∈ v.layers ↔ _
    rw [hGrows.keys (by simp)]
    simp [withDefault]
  · cases hStart with
    | default hNone => exact absurd hNone hSome
    | @built c ν _ hMem hnoError hν hLeads =>
      have hTask : (1, c) ∈ constructorTasks { system := system } :=
        List.mem_map.mpr ⟨c, hMem, rfl⟩
      have hDescribes : (v.state 1).Describes system.stateVariables ν := by
        rw [hGrows.describes (Nat.lt_succ_self 1) Nat.one_ne_zero]
        exact System.describes_defaultState 1 hν
      obtain ⟨id, hid, hne, hν'⟩ := (hExpanded _ hTask).leads hnoError _ _ hDescribes hLeads
      obtain ⟨k, hk, hFresh⟩ := hCovering.covered 0 id hid hne ν' hν'
      obtain rfl : k = 0 := by omega
      exact hFresh

theorem Starting.complete [Reals] (h : Starting solver.Answers { system := system } v)
    (hTrue : solver.Truthful) (hSystem : system.Hygienic) : Complete system 0 v := by
  cases h with
  | already hStarted => cases hStarted
  | default _ hNone => exact complete_of_default hSystem hNone
  | built _ hSome _ hSweep => exact complete_of_constructors hTrue hSystem hSome hSweep

/-! ## Iterations -/

/-- An iteration covers what one more step reaches. -/
theorem Complete.iterate [Reals] (h : Complete system depth u) (hTrue : solver.Truthful)
    (hSystem : system.Hygienic)
    (hSweep : Sweep solver.Answers (depth + 1) (tasks system.labels (u.layer depth).fresh)
      (u.modifyLayer (depth + 1) fun _ => {}) v) :
    Complete system (depth + 1) v ∧ ∀ k ≤ depth, v.layer k = u.layer k := by
  have hEmpty := h.covering.bounded _ (Nat.lt_succ_self depth)
  have hSame := layer_opened hEmpty
  have hDeeper : Covering system (depth + 1) u :=
    ⟨h.covering.toOrderly, fun k hk => h.covering.bounded k (by omega), h.covering.covered⟩
  have hEmptied : Covering system (depth + 1) (u.modifyLayer (depth + 1) fun _ => {}) :=
    hDeeper.congr rfl rfl rfl hSame
  obtain ⟨hCovering, hExpanded⟩ := hSweep.expands hTrue hSystem hEmptied fun task hTask => by
    obtain ⟨⟨hid, hne⟩, hLabel, -⟩ := mem_tasks.mp hTask
    exact ⟨h.covering.wellFormed.listed _ _ (h.covering.wellFormed.fresh _ hid), hne, hLabel⟩
  have hOpen := grows_opened hEmpty
  have hGrows := (hSweep.grows hEmptied.wellFormed).1
  have hLayer : ∀ k ≤ depth, v.layer k = u.layer k := fun k hk => by
    rw [hGrows.others k (by omega), hSame]
  refine ⟨⟨hCovering, hGrows.started.trans h.started, fun k => ?_, ?_, fun k hk task hTask => ?_⟩,
    hLayer⟩
  · rw [hGrows.keys (by simp), mem_layers_modifyLayer, h.keys]
    omega
  · intro history ν hStart
    obtain ⟨id, hid, hne, hν⟩ := h.starts history ν hStart
    have hlt := h.covering.wellFormed.listed _ _ (h.covering.wellFormed.fresh _ hid)
    rw [hLayer 0 (Nat.zero_le depth)]
    exact ⟨id, hid, hne, ((hOpen.trans hGrows).describes hlt hne).mpr hν⟩
  · rw [hLayer k (by omega)] at hTask
    by_cases hLast : k = depth
    · subst hLast
      exact hExpanded task hTask
    · exact (h.expanded k (by omega) task hTask).grows h.covering.wellFormed (hOpen.trans hGrows)

/-! ## Runs -/

section Run

variable [Reals]
variable {s t : Session σ Unrolling} {maxDepth : Option Nat} {ending : Ending}
  (hTrue : env.solver.Truthful) (hCalm : env.Calm) (hSystem : system.Hygienic)

include hTrue hCalm hSystem

theorem complete_start (hFresh : s.work = { system := system }) (hStop : s.stop = false) {a : Unit}
    (hRun : start env s = .ok a t) : Complete system 0 t.work ∧ t.stop = false := by
  obtain ⟨hStarting, hFlag⟩ := ensures_start.of_eq_ok hRun
  rw [hFresh] at hStarting
  exact ⟨hStarting.complete hTrue hSystem, hFlag hCalm.steady hStop⟩

/-- An iteration that returns takes a complete unrolling one depth further. -/
theorem complete_iterate (hs : Complete system depth s.work) (hStop : s.stop = false) {a : Unit}
    (hRun : iterate env (depth + 1) s = .ok a t) :
    (Complete system (depth + 1) t.work ∧ ∀ k ≤ depth, t.work.layer k = s.work.layer k) ∧
      t.stop = false := by
  obtain ⟨-, hSweep, hFlag⟩ := (ensures_iterate hs.started).of_eq_ok hRun
  have hSweep := hSweep hCalm.steady hStop
  rw [hs.covering.system_eq] at hSweep
  exact ⟨hs.iterate hTrue hSystem hSweep, hFlag hCalm hStop⟩

/-- What holds after the turns that go on: the depths done are complete, and each has a new
state. -/
theorem complete_after (hFresh : s.work = { system := system }) (hStop : s.stop = false)
    (hRun : (unroll env maxDepth).after depth s = .ok (.again last) t) :
    last = depth ∧ Complete system depth t.work ∧ t.stop = false ∧
      ∀ k < depth, t.work.hasNew k = true := by
  induction depth generalizing last t with
  | zero =>
    obtain ⟨current, r, hFirst, hTurns⟩ := bind_eq_ok.mp hRun
    obtain ⟨_, q, hStart, hCurrent⟩ := bind_eq_ok.mp hFirst
    obtain ⟨hComplete, hFlag⟩ := complete_start hTrue hCalm hSystem hFresh hStop hStart
    cases hCurrent
    cases hTurns
    exact ⟨hComplete.currentDepth, hComplete, hFlag, fun k hk => absurd hk (Nat.not_lt_zero k)⟩
  | succ depth ih =>
    obtain ⟨current, r, hAfter, hTurn⟩ := Exploration.after_succ_eq_again hRun
    obtain ⟨rfl, hr, hFlag, hEarlier⟩ := ih hAfter
    obtain ⟨rfl, ⟨hNew, -, -⟩, hIterate, -⟩ := turn_eq_again hTurn
    obtain ⟨⟨hComplete, hLayer⟩, hFlag'⟩ := complete_iterate hTrue hCalm hSystem hr hFlag hIterate
    refine ⟨rfl, hComplete, hFlag', fun k hk => ?_⟩
    rw [hasNew, hLayer k (by omega)]
    show r.work.hasNew k = true
    by_cases hLast : k = current
    · rw [hLast, hNew]
    · exact hEarlier k (by omega)

/-- Unrolling ends at the first depth without new states, or at the bound: the turn that ends it
does nothing, since nobody raises the flag. -/
theorem after_of_run (hFresh : s.work = { system := system }) (hStop : s.stop = false)
    (hRun : (unroll env maxDepth).run s = some (.ok ending t)) :
    ∃ last, (unroll env maxDepth).after last s = .ok (.again last) t ∧
      (ending = .fixpoint (last - 1) ∧ t.work.hasNew last = false ∨
        ending = .bounded ∧ maxDepth = some last) := by
  obtain ⟨n, last, r, hAfter, hTurn⟩ := Exploration.exists_last_of_run hRun
  obtain ⟨rfl, hr, hFlag, -⟩ := complete_after hTrue hCalm hSystem hFresh hStop hAfter
  refine ⟨last, ?_⟩
  rcases turn_eq_done hTurn with ⟨rfl, hOver⟩ | ⟨-, hIterate, hRaised, -⟩
  · rcases hOver with ⟨hNone, hEnding⟩ | ⟨hRaised, -⟩ | ⟨hBound, hEnding⟩
    · exact ⟨hAfter, .inl ⟨hEnding, hNone⟩⟩
    · exact absurd (hFlag.symm.trans hRaised) Bool.false_ne_true
    · exact ⟨hAfter, .inr ⟨hEnding, hBound⟩⟩
  · have hFlag' := (complete_iterate hTrue hCalm hSystem hr hFlag hIterate).2
    exact absurd (hFlag'.symm.trans hRaised) Bool.false_ne_true

end Run

/-- **Unrolling is complete.** For every system read from a description that declares its variables
first and uses no name that looks hidden, every solver with true answers and a stop flag that is not
raised: unrolling a fresh system, if it returns, goes on for some number of turns, each to its
depth. After each of the depths completed, whatever that many firings reach satisfies the formula
for what is reached. If it returns a fixpoint, then the values reached are closed under all labels
that are neither constructors nor error labels, the error state was entered if any error label but a
constructor is enabled somewhere, and the depth told is the last one with new states, or 0 if there
is none. -/
theorem unroll_complete [Reals] {text : String} (hParse : Description.parseSystem text = .ok system)
    (hFirst : Description.DeclaresFirst text)
    (hVisible : ∀ x ∈ system.declared, Renaming.isHidden x.name = false)
    (hTrue : env.solver.Truthful) (hCalm : env.Calm) {s t : Session σ Unrolling}
    (hFresh : s.work = { system := system }) (hStop : s.stop = false) {maxDepth : Option Nat}
    {ending : Ending} (hRun : (unroll env maxDepth).run s = some (.ok ending t)) :
    ∃ last, (unroll env maxDepth).after last s = .ok (.again last) t ∧
      (∀ depth ≤ last, ∃ r, (unroll env maxDepth).after depth s = .ok (.again depth) r ∧
        ∀ n ≤ depth, ∀ ν, system.ReachesIn n ν → r.work.reached.holds ν = true) ∧
      ∀ k, ending = .fixpoint k →
        (∀ l ∈ system.labels, l.isConstructor = false → l.isError = false → ∀ ν ν',
          t.work.reached.holds ν = true → system.Leads l ν ν' → t.work.reached.holds ν' = true) ∧
        (∀ history ν, system.Reaches history ν → t.work.reached.holds ν = true) ∧
        (∀ l ∈ system.labels, l.isConstructor = false → l.isError = true → ∀ history ν,
          system.Reaches history ν → system.Enables ν l → t.work.errorState.incoming ≠ []) ∧
        (∀ depth, t.work.hasNew depth = true → depth ≤ k) ∧
        (t.work.hasNew k = true ∨ k = 0 ∧ ∀ depth, t.work.hasNew depth = false) := by
  have hSystem : system.Hygienic :=
    ⟨Description.wellScoped_of_declaresFirst hParse hFirst, hVisible⟩
  obtain ⟨last, hAfter, hEnds⟩ := after_of_run hTrue hCalm hSystem hFresh hStop hRun
  refine ⟨last, hAfter, fun depth hDepth => ?_, fun k hk => ?_⟩
  · obtain ⟨current, r, hr⟩ := Exploration.exists_after_of_le hAfter hDepth
    obtain ⟨rfl, hComplete, -⟩ := complete_after hTrue hCalm hSystem hFresh hStop hr
    exact ⟨r, hr, fun n hn ν hν => hComplete.reached hν hn⟩
  · obtain ⟨-, hComplete, -, hNew⟩ := complete_after hTrue hCalm hSystem hFresh hStop hAfter
    obtain ⟨rfl, hNone⟩ : k = last - 1 ∧ t.work.hasNew last = false := by
      rcases hEnds with ⟨hEnding, hNone⟩ | ⟨hEnding, -⟩
      · rw [hk] at hEnding
        exact ⟨Ending.fixpoint.inj hEnding, hNone⟩
      · rw [hk] at hEnding
        cases hEnding
    have hReached : ∀ history ν, system.Reaches history ν → t.work.reached.holds ν = true :=
      fun history ν hν => hComplete.reaches hNone hν
    -- no depth is opened beyond the last one, and the last one has nothing new
    have hLast : ∀ depth, t.work.hasNew depth = true → depth < last := by
      intro depth hDepth
      by_contra hge
      by_cases heq : depth = last
      · rw [heq, hNone] at hDepth
        cases hDepth
      · simp [hasNew, hComplete.covering.bounded depth (by omega)] at hDepth
    refine ⟨fun l hl hnoConstructor hnoError ν ν' hν hLeads =>
        hComplete.closed hNone hl hnoConstructor hnoError hν hLeads, hReached,
      fun l hl hnoConstructor hError history ν hν hEnabled => ?_,
      fun depth hDepth => Nat.le_sub_one_of_lt (hLast depth hDepth), ?_⟩
    · obtain ⟨_, id, hDescribes, hExpanded⟩ :=
        hComplete.exists_expanded hNone (hReached history ν hν)
      exact (hExpanded l hl hnoConstructor).fails hError ν hDescribes hEnabled
    · by_cases hZero : last = 0
      · refine .inr ⟨by omega, fun depth => ?_⟩
        by_contra hDepth
        have := hLast depth (by simpa using hDepth)
        omega
      · exact .inl (hNew (last - 1) (by omega))

/-! ## A fixpoint, and one with an error that goes unnoticed -/

open scoped Reals

/-- The variable of both systems. -/
def switch : Variable := ⟨"x", .bool⟩

/-- A variable that is set once. -/
def switchText : String :=
  "VARIABLES:\ndeclare x:bool\n\nTRANSITION set:\nPRECONDITION:\n!x\nEFFECT:\nx: x'\n"

/-- The system of `switchText`. -/
def switchSystem : System where
  stateVariables := [switch]
  labels := [{ name := "set", stateVariables := [switch], preconditions := [.not (.var switch)],
               effects := [(switch, .var switch.primed)] }]

/-- Unrolling the switch ends at depth 1, and covers whatever the switch reaches. -/
theorem unroll_complete_switch : ∃ t : Session Unit Unrolling,
    (unroll { solver := .exhaustive } none).run
      { memory := (), work := { system := switchSystem } } = some (.ok (.fixpoint 1) t) ∧
    ∀ history ν, switchSystem.Reaches history ν → t.work.reached.holds ν = true := by
  have hCheck : (unroll { solver := .exhaustive } none).returns 4
      { memory := (), work := { system := switchSystem } }
      (fun ending _ => ending = .fixpoint 1) = true := by
    rw [unroll_eq]
    decide +kernel
  obtain ⟨ending, t, hRun, hEnding⟩ := Exploration.exists_of_returns hCheck
  obtain rfl : ending = .fixpoint 1 := of_decide_eq_true hEnding
  have hParse : Description.parseSystem switchText = .ok switchSystem := by decide +kernel
  have hFirst : Description.DeclaresFirst switchText := by decide +kernel
  obtain ⟨_, -, -, hFixpoint⟩ := unroll_complete hParse hFirst (by decide +kernel)
    Solver.exhaustive_truthful (fun _ => rfl) rfl rfl hRun
  exact ⟨t, hRun, (hFixpoint 1 rfl).2.1⟩

/-- The constructor that sets the variable. -/
def makeLabel : Label :=
  { name := "make", stateVariables := [switch], effects := [(switch, .var switch.primed)],
    isConstructor := true }

/-- The constructor that is an error where the variable is set. -/
def refuseLabel : Label :=
  { name := "refuse", stateVariables := [switch], preconditions := [.var switch], isError := true,
    isConstructor := true }

/-- Two constructors, one of which is an error. -/
def refusalText : String :=
  "VARIABLES:\ndeclare x:bool\n\nCONSTRUCTOR make:\nEFFECT:\nx: x'\n\n" ++
    "CONSTRUCTOR refuse:\nPRECONDITION:\nx\nEFFECT:\nERROR\n"

/-- The system of `refusalText`. -/
def refusalSystem : System where
  stateVariables := [switch]
  labels := [makeLabel, refuseLabel]

/-- The constructor that is an error is enabled on what the other one builds. -/
theorem exists_enables_refuse :
    ∃ history ν, refusalSystem.Reaches history ν ∧ refusalSystem.Enables ν refuseLabel := by
  have hDefault : refusalSystem.IsDefault fun _ => 0 := by
    show Expr.holds _ _ = true
    decide +kernel
  have hLeads : refusalSystem.Leads makeLabel (fun _ => 0) (fun _ => 1) := by
    refine ⟨fun _ => 0, .refl _ _, by decide +kernel, fun x hx => ?_⟩
    obtain rfl := List.mem_singleton.mp hx
    show Expr.holds _ _ = true
    decide +kernel
  have hReaches : refusalSystem.Reaches ["make"] fun _ => 1 :=
    .start (.built (c := makeLabel) (.head _) rfl hDefault hLeads)
  exact ⟨_, _, hReaches, fun _ => 1, .refl _ _, by decide +kernel⟩

/-- Constructors fire on the default state only, so a constructor that is an error label may be
enabled at a reachable valuation without the error state being entered. -/
theorem constructor_error_unnoticed :
    Description.parseSystem refusalText = .ok refusalSystem ∧
      Description.DeclaresFirst refusalText ∧
    (∀ x ∈ refusalSystem.declared, Renaming.isHidden x.name = false) ∧
    (refuseLabel ∈ refusalSystem.labels ∧ refuseLabel.isError = true ∧
      ∃ history ν, refusalSystem.Reaches history ν ∧ refusalSystem.Enables ν refuseLabel) ∧
    ∃ t : Session Unit Unrolling,
      (unroll { solver := .exhaustive } none).run
        { memory := (), work := { system := refusalSystem } } =
          some (.ok (.fixpoint 0) t) ∧ t.work.errorState.incoming = [] := by
  refine ⟨by decide +kernel, by decide +kernel, by decide +kernel,
    ⟨.tail _ (.head _), rfl, exists_enables_refuse⟩, ?_⟩
  have hCheck : (unroll { solver := .exhaustive } none).returns 4
      { memory := (), work := { system := refusalSystem } }
      (fun ending t => ending = .fixpoint 0 ∧ t.work.errorState.incoming = []) = true := by
    rw [unroll_eq]
    decide +kernel
  obtain ⟨ending, t, hRun, hEnding⟩ := Exploration.exists_of_returns hCheck
  obtain ⟨rfl, hError⟩ := of_decide_eq_true hEnding
  exact ⟨t, hRun, hError⟩

end StateSpace.Unrolling
