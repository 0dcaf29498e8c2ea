import StateSpace.Proofs.Search.Congruence
import StateSpace.Proofs.Search.Enumeration
import StateSpace.Proofs.Unrolling.Termination

/-!
# Explorations come to an end

A depth of a region search adds states that have something new: values that were not covered, or a
list of values that no state had (`Search.Strategy.Grows`). Names are given once, so adding them
loses nothing that was reached (`Search.ensures_deepen_grows`). Since there are only so many values,
the search ends (`Search.endsWithin_searchFrom`), and so do all explorations
(`Search.explorations_terminate`).
-/

namespace StateSpace.Search

open Explore Environment

variable {σ S : Type} {env : Surroundings σ} {system : System} {P : S → Prop}
  {New : Region S → S → Prop} {base : Nat} {reached : Region S} {w : Work S}
  {s t : Session σ (Work S)} {strategy : Strategy σ S} {l : Label}

/-! ## What a depth adds -/

/-- A strategy adds only states with something new. -/
structure Strategy.Grows (env : Surroundings σ) (system : System) (P : S → Prop)
    (New : Region S → S → Prop) (strategy : Strategy σ S) : Prop where
  expand : ∀ l ∈ system.labels, ∀ {base : Nat} {reached : Region S} {s : Session σ (Work S)},
    Sprouting P system base reached s.work →
      Ensures s (strategy.expand l) (fun _ t => Sprouting P system base reached t.work)
        (fun _ => True)
  testError : ∀ l ∈ system.labels, ∀ {base : Nat} {reached : Region S} {s : Session σ (Work S)},
    Sprouting P system base reached s.work →
      Ensures s (strategy.testError l) (fun _ t => Sprouting P system base reached t.work)
        (fun _ => True)
  difference : ∀ (r reached : Region S) {s : Session σ (Work S)},
    Ensures s (strategy.difference r reached system.stateVariables)
      (fun added t => t.work = s.work ∧ ∀ (name : String) q, added[name]? = some q →
        r[name]? = some q ∧ New reached q) (fun _ => True)
  goesOn : strategy.goesOn = pure true
  fails : Strategy.Related (FailsOnly.congruence env) strategy strategy

section Depth

variable (hStrategy : strategy.Grows env system P New)

include hStrategy

/-- One depth keeps what was reached, and its frontier has something new. -/
theorem ensures_deepen_grows (hs : Resting system s.work) :
    Ensures s (deepen env strategy)
      (fun _ t => Resting system t.work ∧
        s.work.image.reachable.states ⊆ t.work.image.reachable.states ∧
        ∀ q ∈ t.work.image.frontier.states, q ∈ t.work.image.reachable.states ∧
          New s.work.image.reachable q ∧ ∃ p, P p ∧ q = strategy.toCurrent p)
      (fun _ => True) := by
  have hFire : ∀ r, r.work = deeper s.work →
      Ensures r (fireLabels strategy s.work.unrolling.system.labels)
        (fun _ t => Sprouting P system s.work.image.names s.work.image.reachable t.work)
        (fun _ => True) := by
    intro r hr
    rw [hs.system_eq]
    refine ensures_fireLabels_keeps
      (fun t => Sprouting P system s.work.image.names s.work.image.reachable t.work)
      (fun l hl _ _ t ht => hStrategy.expand l hl ht)
      (fun l hl _ _ t ht => hStrategy.testError l hl ht) ?_
    rw [hr]
    exact hs.sprouting
  refine (ensures_deepen (fun _ w => Sprouting P system s.work.image.names s.work.image.reachable w)
    (fun w added => ∀ (name : String) q, added[name]? = some q →
      (successors strategy w.image)[name]? = some q ∧ New w.image.reachable q) hFire
    fun w t => ?_).mono (fun _ t h => ?_) fun _ h => h
  · rw [hs.system_eq]
    exact hStrategy.difference _ _
  · obtain ⟨w, added, hw, hNew, ht⟩ := h
    have hAdded : ∀ (name : String) q, added[name]? = some q →
        (successors strategy w.image)[name]? = some q := fun name q hq => (hNew name q hq).1
    rw [ht]
    refine ⟨hs.advance hw hAdded, fun q hq => ?_, fun q hq => ?_⟩
    · -- what was reached stays
      exact (hs.mem_states_advance hw hAdded).mpr (.inr hq)
    · obtain ⟨name, hName⟩ := Region.mem_states.mp hq
      refine ⟨(hs.mem_states_advance hw hAdded).mpr (.inl hq), ?_, (hw.of_added hAdded hName).2⟩
      rw [← hw.reachable]
      exact (hNew name q hName).2

end Depth

/-! ## Depth after depth -/

/-- One depth of a search, whether it is interrupted or not. -/
def deepening (env : Surroundings σ) (strategy : Strategy σ S) (_ : Unit) : Step σ S Unit := do
  let _ ← deepen env strategy

theorem rounds_of_deepen {interrupted : Bool} (h : deepen env strategy s = .ok interrupted t) :
    rounds (deepening env strategy) 1 () s = .ok () t :=
  bind_run_of_ok (bind_run_of_ok h)

/-- The loop of a search comes to an end if whatever is added uses up some of a measure of what is
reached. -/
theorem endsWithin_loop (hStrategy : strategy.Grows env system P New) (measure : Region S → Nat)
    (Gains : Region S → Region S → Prop)
    (hGains : ∀ r r' : Region S, r.states ⊆ r'.states →
      (∃ q ∈ r'.states, New r q ∧ ∃ p, P p ∧ q = strategy.toCurrent p) →
      measure r' < measure r ∧ Gains r r')
    {x : Exploration σ (Work S) Unit (Image S)} (hx : ∀ b, x.turn b = turn env strategy none)
    (hs : Resting system s.work) :
    EndsWithin (measure s.work.image.reachable + 1) (Failure.IsOpen env.solver)
      (fun t t' => Gains t.work.image.reachable t'.work.image.reachable)
      (fun n => rounds (deepening env strategy) n ()) endAs (x.loop ()) s := by
  have hEnd : ∀ ending, FailsOnly (Failure.IsOpen env.solver) (endAs ending : Step σ S (Image S)) :=
    fun ending => (FailsOnly.modifyWork _).bind fun _ => FailsOnly.work.bind fun _ => .pure _
  have hRound : ∀ b, FailsOnly (Failure.IsOpen env.solver) (deepening env strategy b) :=
    fun _ => FailsOnly.bind hStrategy.fails.rel_deepen fun _ => .pure ()
  refine endsWithin_of_turn x.loop (fun _ s => Resting system s.work)
    (fun s => measure s.work.image.reachable) hEnd (fun b s _ => hRound b s) ?_ hs
  rintro ⟨⟩ s hs
  -- a turn ends at once, fails in its depth, ends after it, or goes on
  rcases turn_cases env hStrategy.goesOn s with ⟨ending, hTurn⟩ | ⟨failure, t, hDeepen, hTurn⟩ |
    ⟨interrupted, t, ending, hDeepen, hTurn⟩ | ⟨t, hDeepen, hTurn⟩ <;> rw [← hx ()] at hTurn
  · exact .inl ⟨0, Nat.zero_le 1, ending, Exploration.loop_of_done hTurn⟩
  · refine .inl ⟨1, Nat.le_refl 1, .bounded, ?_⟩
    have hRounds : rounds (deepening env strategy) 1 () s = .error failure t :=
      bind_run_of_error (bind_run_of_error hDeepen)
    rw [Exploration.loop_of_error hTurn, bind_run_of_error hRounds]
  · refine .inl ⟨1, Nat.le_refl 1, ending, ?_⟩
    rw [Exploration.loop_of_done hTurn, bind_run_of_ok (rounds_of_deepen hDeepen), endAs_run]
  · have hLoop : x.loop () s = x.loop () t := Exploration.loop_of_again hTurn
    obtain ⟨ht, hKept, hNew⟩ := (ensures_deepen_grows hStrategy hs).of_eq_ok hDeepen
    by_cases hEmpty : t.work.image.frontier.isEmpty = true
    · -- nothing was added, so the next turn ends the loop
      refine .inl ⟨1, Nat.le_refl 1, .fixpoint (t.work.image.depth - 1), ?_⟩
      have hLast : x.turn () t =
          .ok (.done (concluded (.fixpoint (t.work.image.depth - 1)) t).work.image)
          (concluded (.fixpoint (t.work.image.depth - 1)) t) := by
        rw [hx]
        exact turn_of_isEmpty hEmpty
      rw [hLoop, Exploration.loop_of_done hLast, bind_run_of_ok (rounds_of_deepen hDeepen),
        endAs_run]
    · obtain ⟨q, hq⟩ := Region.exists_mem_states (by simpa using hEmpty)
      obtain ⟨hMem, hq⟩ := hNew q hq
      obtain ⟨hLess, hGain⟩ := hGains _ _ hKept ⟨q, hMem, hq⟩
      exact .inr ⟨(), t, bind_run_of_ok hDeepen, hLoop, ht, hLess, hGain⟩

/-! ## Symbolic states -/

/-- A state has values that a region does not cover. -/
def Exceeds [Reals] (system : System) (r : Region SymbolicState) (q : SymbolicState) : Prop :=
  ∃ ν, q.Describes system.stateVariables ν ∧ ¬Covers system r ν

/-- Firing a label on a symbolic state adds no error states. -/
theorem ensures_expandSymbolic_grows [Reals] {reached : Region SymbolicState}
    {s : Session σ (Work SymbolicState)} (hTrue : env.solver.Truthful) (simplify : Bool)
    (q : SymbolicState) (hs : Sprouting (fun p => p.isError = false) system base reached s.work) :
    Ensures s (expandSymbolic env simplify l q)
      (fun _ t => Sprouting (fun p => p.isError = false) system base reached t.work)
      (fun _ => True) := by
  refine (ensures_expandSymbolic_cases (fun fs => ensures_simplifyFormulas hTrue fs) Simplified.refl
    simplify).mono (fun _ t hCases => ?_) fun _ h => h
  rcases hCases with ⟨-, ht⟩ | ⟨-, fs, -, ht⟩
  · rwa [ht]
  · rw [ht]
    exact hs.addPending _ rfl

/-- Symbolic search grows by states with values that are not covered. -/
theorem grows_symbolic [Reals] (hTrue : env.solver.Truthful) (system : System) (simplify : Bool) :
    (symbolic env simplify).Grows env system (fun p => p.isError = false) (Exceeds system) where
  expand l _ {base reached s} hs := by
    refine ensures_image_bind (Ensures.forM (fun t => Sprouting _ system base reached t.work) ?_ hs)
    exact fun q _ t ht => ensures_expandSymbolic_grows hTrue simplify q ht
  testError l _ {base reached s} hs :=
    ensures_testReachable_keeps (fun _ _ _ => hs.recordError _ _) hs
  difference r reached {s} := by
    refine (Region.ensures_difference env r reached system.stateVariables).mono ?_ fun _ h => h
    intro added t ⟨ht, hFrom, _⟩
    refine ⟨ht, fun name q hq => ?_⟩
    obtain ⟨hGet, memory, hSat⟩ := hFrom name q hq
    obtain ⟨ν, hDescribes, hOutside⟩ := exists_outside_iff.mp (hTrue.sat _ _ hSat)
    exact ⟨hGet, ν, hDescribes, fun hCovers => Bool.false_ne_true (hOutside.symm.trans hCovers)⟩
  goesOn := rfl
  fails := related_symbolic _ (FailsOnly.keepsSolve env) simplify

/-! ## Concrete states -/

/-- A list of values that no state of a region has. -/
def Differs (r : Region ConcreteState) (q : ConcreteState) : Prop :=
  ∀ c ∈ r.states, q.values ≠ c.values

/-- All lists of values that a successor can have. -/
def successorValues (system : System) : List (List (Variable × Value)) :=
  system.labels.flatMap fun l =>
    (ConcreteState.valueLists (l.stateVariables.map Variable.primed)).map
    fun values => values.map fun entry => (entry.1.unprimed, entry.2)

/-- There are no more lists of successor values than choices. -/
theorem length_successorValues_le (hSystem : system.Discrete) :
    (successorValues system).length ≤ system.choices := by
  rw [successorValues, List.length_flatMap]
  refine List.sum_le_sum fun l hl => ?_
  rw [List.length_map]
  have hDiscrete : ∀ y ∈ l.stateVariables.map Variable.primed, y.type.isReal = false := by
    intro y hy
    obtain ⟨x, hx, rfl⟩ := List.mem_map.mp hy
    exact hSystem.labels l hl x hx
  have hPrimed := ConcreteState.length_valueLists_le hDiscrete
  rwa [List.map_map] at hPrimed

section Concrete

variable {reached : Region ConcreteState} {s : Session σ (Work ConcreteState)}

/-- Firing a label on a concrete state adds values of its variables only. -/
theorem ensures_expandConcrete_grows (hTyped : env.solver.Typed) (hSystem : system.Discrete)
    (hl : l ∈ system.labels) (q : ConcreteState)
    (hs : Sprouting (fun p => p.unprimed.values ∈ successorValues system) system base reached
      s.work) :
    Ensures s (expandConcrete env l q)
      (fun _ t => Sprouting (fun p => p.unprimed.values ∈ successorValues system) system base
        reached t.work)
      (fun _ => True) := by
  refine ensures_expandConcrete_cases.mono (fun _ t hCases => ?_) fun _ h => h
  rcases hCases with ht | ⟨-, memory, hVerdict, ht⟩
  · rwa [ht]
  · rw [ht]
    refine hs.addPending _ (List.mem_flatMap.mpr ⟨l, hl, List.mem_map.mpr ⟨_, ?_, rfl⟩⟩)
    refine ConcreteState.values_ofModel_mem fun y hy v hv => ?_
    obtain ⟨x, hx, rfl⟩ := List.mem_map.mp hy
    exact hTyped _ memory hVerdict _ v hv (hSystem.labels l hl x hx)

/-- Enumerative search grows by values that are not there. -/
theorem grows_enumerative (hTyped : env.solver.Typed) (hSystem : system.Discrete) :
    (enumerative env).Grows env system (fun p => p.unprimed.values ∈ successorValues system)
      Differs where
  expand l hl {base reached s} hs := by
    refine ensures_image_bind (Ensures.forM (fun t => Sprouting _ system base reached t.work) ?_ hs)
    exact fun q _ t ht => ensures_expandConcrete_grows hTyped hSystem hl q ht
  testError l _ {base reached s} hs :=
    ensures_testReachable_keeps (fun _ _ _ => hs.recordError _ _) hs
  difference r reached {s} := ⟨rfl, fun name q hq => Region.getElem?_newValues hq⟩
  goesOn := rfl
  fails := related_enumerative _ (FailsOnly.keepsSolve env)

/-- Making the initial states concrete leaves the work alone. -/
theorem ensures_concretise_work {ω : Type} {s : Session σ ω} (xs : List Variable)
    (initial : List SymbolicState) :
    Ensures s (concretise env xs initial) (fun _ t => t.work = s.work) (fun _ => True) := by
  induction initial generalizing s with
  | nil => exact .pure rfl
  | cons q rest ih =>
    refine Ensures.bind (Q := fun _ t => t.work = s.work) rfl fun answer t ht => ?_
    split
    · exact ih.bind fun found r hr => .pure (hr.trans ht)
    · exact ih.mono (fun _ r hr => hr.trans ht) fun _ h => h
    · exact .throw trivial

end Concrete

/-! ## Runs -/

/-- The start can fail, what follows it only if a question stays open. -/
theorem excusable_prepare {next : Unit → Step σ S Unit} (hSame : s.work.unrolling.system = system)
    (hNext : FailsOnly (Failure.IsOpen env.solver) (next ())) {failure : Failure}
    (hRun : (start env >>= next) s = .error failure t) :
    Unrolling.Excusable env.solver system failure := by
  cases hStart : start env s with
  | ok a r =>
    rw [bind_run_of_ok hStart] at hRun
    exact .undecided (hNext r failure t hRun)
  | error e r =>
    rw [bind_run_of_error hStart] at hRun
    cases hRun
    unfold start onPart at hStart
    cases hPart : Unrolling.start env { s with work := s.work.unrolling } with
    | ok a r =>
      rw [hPart] at hStart
      cases hStart
    | error e r =>
      rw [hPart] at hStart
      cases hStart
      exact hSame ▸ Unrolling.excusable_start hPart

/-- A search comes to an end, if its first step prepares for it. -/
theorem endsWithin_search (hStrategy : strategy.Grows env system P New) (measure : Region S → Nat)
    (Gains : Region S → Region S → Prop)
    (hGains : ∀ r r' : Region S, r.states ⊆ r'.states →
      (∃ q ∈ r'.states, New r q ∧ ∃ p, P p ∧ q = strategy.toCurrent p) →
      measure r' < measure r ∧ Gains r r')
    {most : Nat} (hMost : ∀ r, measure r ≤ most)
    {x : Exploration σ (Work S) Unit (Image S)} (hx : ∀ b, x.turn b = turn env strategy none)
    (hFirst : Ensures s x.first (fun _ t => Resting system t.work) (fun _ => True))
    (hFails : ∀ failure t, x.first s = .error failure t →
      Unrolling.Excusable env.solver system failure) :
    EndsWithin (most + 1) (Unrolling.Excusable env.solver system)
      (fun t t' => Gains t.work.image.reachable t'.work.image.reachable)
      (x.through (deepening env strategy)) endAs x.run s := by
  cases hRun : x.first s with
  | error failure t =>
    exact .of_error .bounded (Exploration.run_of_first_error hRun) (bind_run_of_error hRun)
      (hFails failure t hRun)
  | ok a r =>
    have hr := hFirst.of_eq_ok hRun
    have hMeasure := hMost r.work.image.reachable
    have hLoop := endsWithin_loop hStrategy measure Gains hGains hx hr
    exact ((hLoop.mono (by omega)).allow fun _ h => .undecided h).prepared
      (Exploration.run_of_first hRun) fun n => bind_run_of_ok hRun

theorem system_of_start (hs : s.work.unrolling.WellFormed)
    (hSame : s.work.unrolling.system = system) :
    Ensures s (start env) (fun _ t => t.work.unrolling.system = system) (fun _ => True) := by
  refine ensures_start.mono (fun _ t ⟨u, hStarting, ht⟩ => ?_) fun _ h => h
  rw [ht]
  exact (hStarting.advancing hs hSame).system_eq

/-- The second region covers all values that the first one does, and more. -/
structure Widens [Reals] (system : System) (r r' : Region SymbolicState) : Prop where
  kept : ∀ ν, Covers system r ν → Covers system r' ν
  gained : ∃ ν, ¬Covers system r ν ∧ Covers system r' ν

/-- A state that exceeds what is covered takes some of the room that is left. -/
theorem widens_of_exceeds [Reals] (hSystem : system.Discrete) {r r' : Region SymbolicState}
    (hKept : r.states ⊆ r'.states)
    (hNew : ∃ q ∈ r'.states, Exceeds system r q ∧
      ∃ p : SymbolicState, p.isError = false ∧ q = current p) :
    room system.stateVariables (Covers system r') < room system.stateVariables (Covers system r) ∧
      Widens system r r' := by
  obtain ⟨q, hq, ⟨ν, hDescribes, hNot⟩, p, hnoError, hCurrent⟩ := hNew
  have hCovers : ∀ ν, Covers system r ν → Covers system r' ν := by
    intro ν hν
    obtain ⟨q, hq, hRest⟩ := covers_iff.mp hν
    exact covers_iff.mpr ⟨q, hKept hq, hRest⟩
  have hν : Covers system r' ν := covers_iff.mpr ⟨q, hq, hCurrent ▸ hnoError, hDescribes⟩
  refine ⟨room_lt hSystem.stateVariables hCovers ?_ hNot hν, hCovers, ν, hNot, hν⟩
  exact fun ν ν' hν hAgree => coverage_congr hν hAgree

/-- Each turn of a symbolic search covers more values, of which there are finitely many. -/
theorem endsWithin_searchSymbolic [Reals] {s : Session σ (Work SymbolicState)}
    (hTrue : env.solver.Truthful)
    (hSystem : system.Discrete) (simplify : Bool) (hs : s.work.unrolling.WellFormed)
    (hSame : s.work.unrolling.system = system) :
    EndsWithin (2 ^ system.bits + 1) (Unrolling.Excusable env.solver system)
      (fun t t' => Widens system t.work.image.reachable t'.work.image.reachable)
      ((searchSymbolic env (symbolic env simplify) none).through
        (deepening env (symbolic env simplify)))
      endAs (searchSymbolic env (symbolic env simplify) none).run s := by
  refine endsWithin_search (grows_symbolic hTrue system simplify)
    (fun r => room system.stateVariables (Covers system r)) (Widens system)
    (fun _ _ => widens_of_exceeds hSystem) (fun r => room_le hSystem.stateVariables _)
    (fun _ => rfl) ?_ ?_
  · refine (system_of_start hs hSame).bind fun _ t ht =>
      .work_bind (.modifyWork_bind (.modifyWork ?_))
    exact resting_ofInitial ht rfl
  · refine fun failure t => excusable_prepare hSame ?_
    exact FailsOnly.work.bind fun w => (FailsOnly.modifyWork _).bind fun _ => .modifyWork _

/-- The second region has all states of the first one, and a list of values that none of them
has. -/
structure AddsValues (r r' : Region ConcreteState) : Prop where
  kept : r.states ⊆ r'.states
  gained : ∃ q ∈ r'.states, ∀ c ∈ r.states, q.values ≠ c.values

/-- A list of values that no state has is one of those not seen. -/
theorem addsValues_of_differs {r r' : Region ConcreteState} (hKept : r.states ⊆ r'.states)
    (hNew : ∃ q ∈ r'.states, Differs r q ∧
      ∃ p : ConcreteState, p.unprimed.values ∈ successorValues system ∧ q = p.unprimed) :
    unseen (successorValues system) (fun values => ∃ c ∈ r'.states, c.values = values) <
        unseen (successorValues system) (fun values => ∃ c ∈ r.states, c.values = values) ∧
      AddsValues r r' := by
  obtain ⟨q, hq, hDiffers, p, hMem, rfl⟩ := hNew
  refine ⟨unseen_lt (fun values ⟨c, hc, hValues⟩ => ⟨c, hKept hc, hValues⟩) hMem ?_ ⟨_, hq, rfl⟩,
    hKept, _, hq, hDiffers⟩
  rintro ⟨c, hc, hValues⟩
  exact hDiffers c hc hValues.symm

/-- Each turn of an enumerative search adds values, of which there are finitely many. -/
theorem endsWithin_searchConcrete {s : Session σ (Work ConcreteState)} (hTyped : env.solver.Typed)
    (hSystem : system.Discrete) (hs : s.work.unrolling.WellFormed)
    (hSame : s.work.unrolling.system = system) :
    EndsWithin ((successorValues system).length + 1) (Unrolling.Excusable env.solver system)
      (fun t t' => AddsValues t.work.image.reachable t'.work.image.reachable)
      ((searchConcrete env (enumerative env) none).through (deepening env (enumerative env)))
      endAs (searchConcrete env (enumerative env) none).run s := by
  refine endsWithin_search (grows_enumerative hTyped hSystem)
    (fun r => unseen (successorValues system) fun values => ∃ c ∈ r.states, c.values = values)
    AddsValues (fun _ _ => addsValues_of_differs) (fun r => unseen_le _ _) (fun _ => rfl) ?_ ?_
  · refine (system_of_start hs hSame).bind fun _ t ht => .work_bind ?_
    refine (ensures_concretise_work _ _).bind fun initial r hr => .modifyWork ?_
    exact resting_ofInitial (by rwa [hr]) rfl
  · refine fun failure t => excusable_prepare hSame ?_
    refine FailsOnly.work.bind fun w => FailsOnly.bind ?_ fun _ => .modifyWork _
    exact rel_concretise (FailsOnly.congruence env) (FailsOnly.keepsSolve env) _ _

section Meaning

variable [Reals]

/-- **Explorations come to an end.** For every system whose state variables are integers or truth
values, of `system.bits` bits in all, every solver whose answers are true and whose values are of
the types of their variables, and whatever happens to the stop flag:

* unrolling without a depth bound is the start and at most `2 ^ system.bits + 2` iterations, and
  each iteration that is followed by another one reaches further values of the state variables, or
  the first error;
* a symbolic search without a depth bound, with or without simplification, is at most
  `2 ^ system.bits + 2` depths, and each depth that is followed by another one covers further
  values;
* an enumerative search without a depth bound is at most `system.choices + 1` depths, and each depth
  that is followed by another one adds a list of values that no state had.
They fail only if a question stays open, or at the start if the system has both constructors and
initial values. -/
theorem explorations_terminate (hSystem : system.Discrete) (hTrue : env.solver.Truthful)
    (hTyped : env.solver.Typed) :
    (∀ s : Session σ Unrolling, s.work.WellFormed → s.work.system = system →
      EndsWithin (2 ^ system.bits + 2) (Unrolling.Excusable env.solver system)
        (fun t t' => Unrolling.Enlarges t.work t'.work)
        ((Unrolling.unroll env none).through (Unrolling.iteration env))
        (pure : Ending → Explore σ Unrolling Ending) (Unrolling.unroll env none).run s) ∧
    (∀ simplify, ∀ s : Session σ (Work SymbolicState), s.work.unrolling.WellFormed →
      s.work.unrolling.system = system →
      EndsWithin (2 ^ system.bits + 2) (Unrolling.Excusable env.solver system)
        (fun t t' => Widens system t.work.image.reachable t'.work.image.reachable)
        ((searchSymbolic env (symbolic env simplify) none).through
          (deepening env (symbolic env simplify)))
        endAs (searchSymbolic env (symbolic env simplify) none).run s) ∧
    ∀ s : Session σ (Work ConcreteState), s.work.unrolling.WellFormed →
      s.work.unrolling.system = system →
      EndsWithin (system.choices + 1) (Unrolling.Excusable env.solver system)
        (fun t t' => AddsValues t.work.image.reachable t'.work.image.reachable)
        ((searchConcrete env (enumerative env) none).through (deepening env (enumerative env)))
        endAs (searchConcrete env (enumerative env) none).run s := by
  refine ⟨fun s hs hSame => ?_, fun simplify s hs hSame => ?_, fun s hs hSame => ?_⟩
  · exact Unrolling.endsWithin_unroll hTrue hSystem.stateVariables hs hSame
  · exact (endsWithin_searchSymbolic hTrue hSystem simplify hs hSame).mono (Nat.le_succ _)
  · refine (endsWithin_searchConcrete hTyped hSystem hs hSame).mono ?_
    exact Nat.succ_le_succ (length_successorValues_le hSystem)

/-- The solver that searches all values finds values of the types of their variables. -/
theorem searching_typed : Solver.searching.Typed := by
  intro e memory hSat x v hv hReal
  simp only [Solver.searching, Solver.searchAnswer] at hSat hv
  cases hSearch : Valuation.search e e.freeVariables {} with
  | none =>
    rw [hSearch] at hSat
    cases hSat
  | some found =>
    rw [hSearch, Std.TreeMap.get?_eq_getElem?] at hv
    rcases (Valuation.search_eq_some hSearch).2 x with ⟨hNone, -⟩ | ⟨-, n, hn⟩
    · rw [hv, Std.TreeMap.getElem?_emptyc] at hNone
      cases hNone
    · refine ⟨x.type.bits n, ?_⟩
      rw [← Value.ofNumber_of_isReal_eq_false hReal]
      exact Option.some.inj (hv.symm.trans hn)

theorem searching_leaves_nothing_open : ¬Solver.searching.LeavesOpen := by
  have hDecided : ∀ e, (Solver.searchAnswer e).verdict ≠ .dontKnow := by
    intro e
    unfold Solver.searchAnswer
    split <;> exact Verdict.noConfusion
  rintro ⟨e, memory, hOpen | hOpen⟩
  · exact hDecided e hOpen
  · exact hDecided e hOpen

end Meaning

open scoped Reals

/-- All explorations of the alarm return, if all values are searched. -/
theorem explorations_terminate_alarm :
    (∃ ending t, (Unrolling.unroll { solver := .searching } none).run
      { memory := (), work := { system := alarmSystem } } = some (.ok ending t)) ∧
    (∀ simplify, ∃ i t, (searchSymbolic { solver := .searching }
      (symbolic { solver := .searching } simplify) none).run
      { memory := (), work := { unrolling := { system := alarmSystem } } } = some (.ok i t)) ∧
    ∃ i t, (searchConcrete { solver := .searching } (enumerative { solver := .searching }) none).run
      { memory := (), work := { unrolling := { system := alarmSystem } } } = some (.ok i t) := by
  let env : Surroundings Unit := { solver := .searching }
  have hSystem : alarmSystem.Discrete := ⟨by decide, by decide⟩
  have hTrue : env.solver.Truthful := Solver.searching_reliable.toTruthful
  have hTyped : env.solver.Typed := searching_typed
  have hExcused : ∀ failure, ¬Unrolling.Excusable env.solver alarmSystem failure := by
    rintro failure (⟨-, hOpen⟩ | ⟨hConstructors, -⟩)
    · exact searching_leaves_nothing_open hOpen
    · exact hConstructors rfl
  have hwf := (Unrolling.orderly_unstarted alarmSystem).wellFormed
  obtain ⟨hUnroll, hSymbolic, hConcrete⟩ := explorations_terminate hSystem hTrue hTyped
  exact ⟨(hUnroll _ hwf rfl).exists_ok hExcused,
    fun simplify => (hSymbolic simplify _ hwf rfl).exists_ok hExcused,
    (hConcrete _ hwf rfl).exists_ok hExcused⟩

end StateSpace.Search
