import StateSpace.Proofs.Search.Enumeration
import StateSpace.Proofs.Unrolling.Origin

/-!
# What a search fires labels on

A search whose initial states have been reached without an error label fires and tests labels only
on states that have. This is said by comparison: the search is the same as the one that insists on
it before each label and raises an alarm otherwise (`Search.Strategy.insisting`), whatever the alarm
is. It is so unless the error state is an initial state, which takes an error label that is a
constructor (`Search.sources_errorFree`); then a search goes on from there
(`Search.search_from_error`).
-/

namespace StateSpace

/-! ## Steps that coincide -/

namespace Explore

variable {σ ω α β : Type} {env : Surroundings σ} {s : Session σ ω} {step step' : Explore σ ω α}
  {Q : α → Session σ ω → Prop} {S : β → Session σ ω → Prop}

/-- From `s`, both steps do the same, with `Q` of what they return. -/
def Coincide (s : Session σ ω) (step step' : Explore σ ω α) (Q : α → Session σ ω → Prop) : Prop :=
  step' s = step s ∧ Ensures s step Q fun _ => True

namespace Coincide

theorem same (h : Ensures s step Q fun _ => True) : Coincide s step step Q :=
  ⟨rfl, h⟩

/-- The sequence rule of steps that coincide. -/
theorem bind {next next' : α → Explore σ ω β} (h : Coincide s step step' Q)
    (hNext : ∀ a t, Q a t → Coincide t (next a) (next' a) S) :
    Coincide s (step >>= next) (step' >>= next') S := by
  obtain ⟨heq, hEnsures⟩ := h
  refine ⟨?_, hEnsures.bind fun a t hQ => (hNext a t hQ).2⟩
  cases hRun : step s with
  | ok a t =>
    rw [bind_run_of_ok (heq.trans hRun), bind_run_of_ok hRun]
    exact (hNext a t (hEnsures.of_eq_ok hRun)).1
  | error failure t => rw [bind_run_of_error (heq.trans hRun), bind_run_of_error hRun]

theorem work_bind {next next' : ω → Explore σ ω β}
    (h : Coincide s (next s.work) (next' s.work) S) :
    Coincide s (work >>= next) (work >>= next') S :=
  h

theorem stopped_bind {next next' : Bool → Explore σ ω β}
    (h : Coincide s (next s.stop) (next' s.stop) S) :
    Coincide s (stopped >>= next) (stopped >>= next') S :=
  h

theorem report_bind {event : Event} {next next' : Unit → Explore σ ω β}
    (h : ∀ t, t.work = s.work → Coincide t (next ()) (next' ()) S) :
    Coincide s (report env event >>= next) (report env event >>= next') S :=
  (same (ensures_report_calm event)).bind fun _ t ht => h t ht.1

end Coincide

end Explore

namespace Exploration

open Explore

variable {σ ω α β : Type} {x y : Exploration σ ω β α} {s : Session σ ω} {b : β}
  {Inv : β → Session σ ω → Prop}
  (hTurn : ∀ b s, Inv b s →
    Coincide s (x.turn b) (y.turn b) fun next t => next.Satisfies (Inv · t) fun _ => True)

include hTurn

theorem coincide_turns (n : Nat) (hs : Inv b s) :
    Coincide s (x.turns n b) (y.turns n b) fun _ _ => True := by
  induction n generalizing b s with
  | zero => exact .same trivial
  | succ n ih =>
    refine (hTurn b s hs).bind fun next t ht => ?_
    cases next with
    | again b => exact ih ht
    | done a => exact .same trivial

/-- Explorations whose first steps and turns coincide have the same result, if any. -/
theorem run_of_coincide (hFirst : Coincide s x.first y.first Inv) : y.run s = x.run s :=
  run_congr fun n => (hFirst.bind fun _ _ ht => coincide_turns hTurn n ht).1

end Exploration

namespace Search

open Explore

variable {σ S : Type} {env : Surroundings σ} {system : System} {P : S → Prop} {toCurrent : S → S}
  {w : Work S} {s t : Session σ (Work S)} {strategy : Strategy σ S} {l : Label} {alarm : Failure}

/-! ## Insisting -/

open Classical in
/-- Raises an alarm if some state of the search does not have a property. -/
noncomputable def insist (P : S → Prop) (alarm : Failure) : Step σ S Unit := do
  let i ← image
  if ∀ q ∈ i.reachable.states ++ i.frontier.states, P q then return
  throw alarm

/-- The strategy that insists on a property of the states before it fires or tests a label on some
of them. -/
noncomputable def Strategy.insisting (strategy : Strategy σ S) (P : S → Prop) (alarm : Failure) :
    Strategy σ S :=
  { strategy with
    expand := fun l => do
      insist P alarm
      strategy.expand l
    testError := fun l => do
      insist P alarm
      strategy.testError l }

/-- All states of a search have a property, the successors as states about current values. -/
structure Traced (system : System) (P : S → Prop) (toCurrent : S → S) (w : Work S) : Prop where
  system_eq : w.unrolling.system = system
  reachable : ∀ q ∈ w.image.reachable.states, P q
  frontier : ∀ q ∈ w.image.frontier.states, P q
  pending : ∀ q ∈ w.image.pending.states, P (toCurrent q)

/-- A successor with the property may be added. -/
theorem Traced.addPending (h : Traced system P toCurrent w) {p : S} (hp : P (toCurrent p)) :
    Traced system P toCurrent { w with image := w.image.addPending p } where
  system_eq := h.system_eq
  reachable := h.reachable
  frontier := h.frontier
  pending q hq := by
    obtain ⟨name, hName⟩ := Region.mem_states.mp hq
    have hGet : (w.image.pending.insert (Region.nameOf (w.image.names + 1)) p)[name]? = some q :=
      hName
    rw [Std.TreeMap.getElem?_insert] at hGet
    split at hGet
    · cases hGet
      exact hp
    · exact h.pending q (Region.mem_states.mpr ⟨name, hGet⟩)

theorem Traced.recordError (h : Traced system P toCurrent w) (label : String)
    (history : List String) :
    Traced system P toCurrent { w with image := w.image.recordError label history } := by
  unfold Image.recordError
  split
  · exact h
  · exact ⟨h.system_eq, h.reachable, h.frontier, h.pending⟩

theorem Traced.halt (h : Traced system P toCurrent w) :
    Traced system P toCurrent { w with halted := true } :=
  ⟨h.system_eq, h.reachable, h.frontier, h.pending⟩

/-- Insisting on what holds does nothing. -/
theorem insist_bind_run (h : Traced system P toCurrent s.work) {next : Unit → Step σ S Unit} :
    (insist P alarm >>= next) s = next () s := by
  have hAll : ∀ q ∈ s.work.image.reachable.states ++ s.work.image.frontier.states, P q :=
    fun q hq => (List.mem_append.mp hq).elim (h.reachable q) (h.frontier q)
  have hRun : (insist P alarm : Step σ S Unit) s = .ok () s := by
    unfold insist
    exact congrFun (if_pos hAll) s
  exact bind_run_of_ok hRun

section Steps

variable {α : Type} {Q : α → Session σ (Work S) → Prop}

theorem coincide_image_bind {next next' : Image S → Step σ S α}
    (h : Coincide s (next s.work.image) (next' s.work.image) Q) :
    Coincide s (image >>= next) (image >>= next') Q :=
  h

theorem coincide_modifyImage_bind {f : Image S → Image S} {next next' : Unit → Step σ S α}
    (h : Coincide { s with work := { s.work with image := f s.work.image } } (next ())
      (next' ()) Q) :
    Coincide s (modifyImage f >>= next) (modifyImage f >>= next') Q :=
  h

end Steps

/-- The strategy keeps the property. -/
structure Strategy.Traces (system : System) (P : S → Prop) (strategy : Strategy σ S) : Prop where
  expand : ∀ l ∈ system.labels, l.isError = false → ∀ {s : Session σ (Work S)},
    Traced system P strategy.toCurrent s.work → Ensures s (strategy.expand l)
      (fun _ t => Traced system P strategy.toCurrent t.work) fun _ => True
  testError : ∀ (l : Label) {s : Session σ (Work S)},
    Traced system P strategy.toCurrent s.work → Ensures s (strategy.testError l)
      (fun _ t => Traced system P strategy.toCurrent t.work) fun _ => True
  difference : ∀ (r reached : Region S) (xs : List Variable) {s : Session σ (Work S)},
    Ensures s (strategy.difference r reached xs)
      (fun added t => t.work = s.work ∧ added.states ⊆ r.states) fun _ => True
  goesOn : ∀ s, Ensures s strategy.goesOn (fun _ t => t = s) fun _ => True

section Loop

variable (hStrategy : strategy.Traces system P) (alarm : Failure)

include hStrategy

/-- Insisting on the property changes nothing while labels are fired. -/
theorem coincide_fireLabels (labels : List Label) (hLabels : labels ⊆ system.labels)
    (hs : Traced system P strategy.toCurrent s.work) :
    Coincide s (fireLabels strategy labels) (fireLabels (strategy.insisting P alarm) labels)
      fun _ t => Traced system P strategy.toCurrent t.work := by
  induction labels generalizing s with
  | nil => exact .same (.pure hs)
  | cons l ls ih =>
    obtain ⟨hl, hls⟩ := List.cons_subset.mp hLabels
    refine .stopped_bind ?_
    split
    · exact .same (.pure hs)
    · split
      · split
        · refine Coincide.bind ⟨insist_bind_run hs, hStrategy.testError l hs⟩ fun _ t ht => ?_
          exact ih hls ht
        · next hError =>
          have hnoError : l.isError = false := by simpa using hError
          refine Coincide.bind ⟨insist_bind_run hs, hStrategy.expand l hl hnoError hs⟩
            fun _ t ht => ?_
          exact ih hls ht
      · exact ih hls hs

/-- The end of a depth keeps the property. -/
theorem ensures_closeDepth_traced (xs : List Variable) (depth : Nat)
    (hs : Traced system P strategy.toCurrent s.work) :
    Ensures s (closeDepth env strategy xs depth)
      (fun _ t => Traced system P strategy.toCurrent t.work) fun _ => True := by
  refine (ensures_closeDepth (fun t => hStrategy.difference _ _ _) depth).mono
    (fun _ t ⟨added, hFrom, ht⟩ => ?_) fun _ h => h
  rw [ht]
  have hAdded : ∀ q ∈ added.states, P q := by
    intro q hq
    obtain ⟨name, hName⟩ := Region.mem_states.mp (hFrom hq)
    obtain ⟨p, hp, rfl⟩ := getElem?_successors.mp hName
    exact hs.pending p (Region.mem_states.mpr ⟨name, hp⟩)
  refine ⟨hs.system_eq, fun q hq => ?_, hAdded, fun q hq => ?_⟩
  · obtain ⟨name, hName⟩ := Region.mem_states.mp hq
    rcases Region.getElem?_union.mp hName with hNew | ⟨-, hOld⟩
    · exact hAdded q (Region.mem_states.mpr ⟨name, hNew⟩)
    · exact hs.reachable q (Region.mem_states.mpr ⟨name, hOld⟩)
  · obtain ⟨name, hName⟩ := Region.mem_states.mp hq
    simp [advance] at hName

theorem coincide_fireDepth (hs : Traced system P strategy.toCurrent s.work) :
    Coincide s (fireDepth env strategy) (fireDepth env (strategy.insisting P alarm))
      fun _ t => Traced system P strategy.toCurrent t.work := by
  refine .work_bind (coincide_modifyImage_bind (coincide_image_bind (.report_bind fun r hr => ?_)))
  rw [hs.system_eq]
  refine coincide_fireLabels hStrategy alarm _ (List.Subset.refl _) ?_
  rw [hr]
  exact ⟨hs.system_eq, hs.reachable, hs.frontier, hs.pending⟩

theorem coincide_deepen (hs : Traced system P strategy.toCurrent s.work) :
    Coincide s (deepen env strategy) (deepen env (strategy.insisting P alarm))
      fun _ t => Traced system P strategy.toCurrent t.work := by
  refine .work_bind ((coincide_fireDepth hStrategy alarm hs).bind fun interrupted r hr => ?_)
  -- from here on, both steps are literally the same
  refine .same ((ensures_closeDepth_traced hStrategy _ _ hr).bind fun _ t ht => .pure ht)

/-- Insisting on the property changes nothing in a turn. -/
theorem coincide_turn (maxDepth : Option Nat) (hs : Traced system P strategy.toCurrent s.work) :
    Coincide s (turn env strategy maxDepth) (turn env (strategy.insisting P alarm) maxDepth)
      fun next t => next.Satisfies (fun _ => Traced system P strategy.toCurrent t.work)
        fun _ => True := by
  refine coincide_image_bind ?_
  split
  · exact .same trivial
  · split
    · exact .same trivial
    · refine (coincide_deepen hStrategy alarm hs).bind fun interrupted t ht => .same ?_
      unfold afterDepth
      split
      · exact trivial
      · refine .stopped_bind ((hStrategy.goesOn t).bind fun goes r hr => ?_)
        split
        · exact trivial
        · exact .pure (hr ▸ ht)

omit hStrategy in
theorem traced_ofInitial {initial : List S} (hSystem : w.unrolling.system = system)
    (hInitial : ∀ q ∈ initial, P q) :
    Traced system P toCurrent { w with image := .ofInitial initial } := by
  have hMem : ∀ q ∈ (Image.ofInitial initial).reachable.states, P q :=
    fun q hq => hInitial q (mem_states_ofInitial.mp hq)
  refine ⟨hSystem, hMem, hMem, fun q hq => ?_⟩
  obtain ⟨name, hName⟩ := Region.mem_states.mp hq
  simp [Image.ofInitial] at hName

end Loop

/-! ## Strategies -/

section Symbolic

variable {s : Session σ (Work SymbolicState)} {q : SymbolicState}

/-- Simplification keeps the variables of the formulas, whatever the solver answers. -/
theorem ensures_simplifyFormulas_keys {ω : Type} {s : Session σ ω} (fs : Formulas) :
    Ensures s (simplifyFormulas env fs)
      (fun fs' t => t.work = s.work ∧ fs'.map Prod.fst = fs.map Prod.fst) fun _ => True := by
  induction fs generalizing s with
  | nil => exact .pure ⟨rfl, rfl⟩
  | cons entry rest ih =>
    have hFormula : Ensures s (simplifyFormula env entry.1 entry.2) (fun _ t => t.work = s.work)
        fun _ => True := by
      unfold simplifyFormula
      dsimp only
      split
      · exact .pure rfl
      · refine Ensures.bind (Q := fun _ t => t.work = s.work) rfl fun answer t ht => ?_
        split
        · exact .pure ht
        · exact .throw trivial
        · split
          · exact .pure ht
          · refine ((ensures_holds _ _).mono (fun _ _ h => h) fun _ _ => trivial).bind
              fun other r ⟨_, hr⟩ => ?_
            split <;> exact .pure (hr.trans ht)
    refine hFormula.bind fun e t ht => ih.bind fun rest' r ⟨hr, hKeys⟩ => .pure ⟨hr.trans ht, ?_⟩
    rw [List.map_cons, List.map_cons, hKeys]

/-- Firing a label on a symbolic state gives states of no error. -/
theorem ensures_expandSymbolic_traced (simplify : Bool) (hl : l ∈ system.labels)
    (hnoError : l.isError = false) (hq : q.ErrorFree system)
    (hs : Traced system (·.ErrorFree system) current s.work) :
    Ensures s (expandSymbolic env simplify l q)
      (fun _ t => Traced system (·.ErrorFree system) current t.work) fun _ => True := by
  refine (ensures_expandSymbolic_cases (K := fun fs fs' => fs'.map Prod.fst = fs.map Prod.fst)
    (fun fs => ensures_simplifyFormulas_keys fs) (fun _ => rfl) simplify).mono (fun _ t hCases =>
      ?_)
    fun _ h => h
  rcases hCases with ⟨-, ht⟩ | ⟨-, fs, hKeys, ht⟩
  · rwa [ht]
  · rw [ht]
    have hIssued : Traced system (·.ErrorFree system) current
        { s.work with issued := s.work.issued + 1 } :=
      ⟨hs.system_eq, hs.reachable, hs.frontier, hs.pending⟩
    refine hIssued.addPending (hq.fire hl hnoError rfl rfl ?_)
    exact (Formulas.keys_restoreCurrentNames fs).trans (hKeys.trans (l.keys_successorFormulas _ _))

/-- Symbolic search meets states of no error only. -/
theorem traces_symbolic (env : Surroundings σ) (system : System) (simplify : Bool) :
    (symbolic env simplify).Traces system (·.ErrorFree system) where
  expand l hl hnoError {s} hs := by
    refine ensures_image_bind (Ensures.forM (fun t => Traced system _ current t.work) ?_ hs)
    exact fun q hq t ht => ensures_expandSymbolic_traced simplify hl hnoError (hs.frontier q hq) ht
  testError l {s} hs := ensures_testReachable_keeps (fun _ _ _ => hs.recordError _ _) hs
  difference r reached xs {s} := by
    refine (Region.ensures_difference env r reached xs).mono ?_ fun _ h => h
    intro added t ⟨ht, hFrom, _⟩
    refine ⟨ht, fun q hq => ?_⟩
    obtain ⟨name, hName⟩ := Region.mem_states.mp hq
    exact Region.mem_states.mpr ⟨name, (hFrom name q hName).1⟩
  goesOn _ := .pure rfl

/-- So does synchronised search. -/
theorem traces_synchronised (env : Surroundings σ) (system : System) (owner : FlagOwner) :
    (synchronised env owner).Traces system (·.ErrorFree system) where
  expand := (traces_symbolic env system true).expand
  testError l {s} hs := ensures_testFrontier_keeps owner hs.halt
    (fun _ _ _ w hw => hw.recordError _ _) hs
  difference := (traces_symbolic env system true).difference
  goesOn s := by
    cases owner with
    | shared => exact .stopped_bind (.pure rfl)
    | own => exact .work_bind (.pure rfl)

end Symbolic

section Concrete

variable {s : Session σ (Work ConcreteState)} {q : ConcreteState}

/-- A concrete state that was reached without an error label. -/
def ErrorFreeValues (system : System) (q : ConcreteState) : Prop :=
  ∃ xs, system.ErrorFree q.history xs

/-- Firing a label on a concrete state gives states of no error. -/
theorem ensures_expandConcrete_traced (hl : l ∈ system.labels) (hnoError : l.isError = false)
    (hq : ErrorFreeValues system q)
    (hs : Traced system (ErrorFreeValues system) ConcreteState.unprimed s.work) :
    Ensures s (expandConcrete env l q)
      (fun _ t => Traced system (ErrorFreeValues system) ConcreteState.unprimed t.work)
      fun _ => True := by
  refine ensures_expandConcrete_cases.mono (fun _ t hCases => ?_) fun _ h => h
  rcases hCases with ht | ⟨-, memory, -, ht⟩
  · rwa [ht]
  · rw [ht]
    obtain ⟨xs, hxs⟩ := hq
    exact hs.addPending ⟨l.stateVariables, hxs.fire hl hnoError⟩

theorem traces_enumerative (env : Surroundings σ) (system : System) :
    (enumerative env).Traces system (ErrorFreeValues system) where
  expand l hl hnoError {s} hs := by
    refine ensures_image_bind
      (Ensures.forM (fun t => Traced system _ ConcreteState.unprimed t.work) ?_ hs)
    exact fun q hq t ht => ensures_expandConcrete_traced hl hnoError (hs.frontier q hq) ht
  testError l {s} hs := ensures_testReachable_keeps (fun _ _ _ => hs.recordError _ _) hs
  difference r reached xs {s} := .pure ⟨rfl, fun q hq => Region.mem_states_newValues hq⟩
  goesOn _ := .pure rfl

/-- Each concrete initial state has the history of a symbolic one. -/
theorem ensures_concretise_history {ω : Type} {s : Session σ ω} (xs : List Variable)
    (initial : List SymbolicState) :
    Ensures s (concretise env xs initial)
      (fun found t => t.work = s.work ∧ ∀ q ∈ found, ∃ p ∈ initial, q.history = p.history)
      fun _ => True := by
  induction initial generalizing s with
  | nil => exact .pure ⟨rfl, by simp⟩
  | cons p rest ih =>
    refine Ensures.bind (Q := fun _ t => t.work = s.work) rfl fun answer t ht => ?_
    have hLater : ∀ found : List ConcreteState, (∀ q ∈ found, ∃ p ∈ rest, q.history = p.history) →
        ∀ q ∈ found, ∃ p' ∈ p :: rest, q.history = p'.history := by
      intro found hFound q hq
      obtain ⟨p', hp', hHistory⟩ := hFound q hq
      exact ⟨p', List.mem_cons_of_mem _ hp', hHistory⟩
    split
    · refine ih.bind fun found r ⟨hr, hFound⟩ => .pure ⟨hr.trans ht, ?_⟩
      exact List.forall_mem_cons.mpr ⟨⟨p, List.mem_cons_self, rfl⟩, hLater found hFound⟩
    · exact ih.mono (fun found r ⟨hr, hFound⟩ => ⟨hr.trans ht, hLater found hFound⟩) fun _ h => h
    · exact .throw trivial

end Concrete

/-! ## Searches -/

theorem reached_start (h : Unrolling.Reached system s.work.unrolling) :
    Ensures s (start env) (fun _ t => Unrolling.Reached system t.work.unrolling) fun _ => True := by
  have hStart : Ensures { s with work := s.work.unrolling } (Unrolling.start env)
      (fun _ t => Unrolling.Reached system t.work) fun _ => True :=
    .of_run (fun _ t hRun => .returned .start h (congrArg some hRun)) fun _ _ _ => trivial
  refine hStart.onPart.mono (fun _ t ht => ?_) fun _ h => h
  obtain ⟨t', ht', heq⟩ := ht
  rw [heq]
  exact ht'

/-- The error state is not among the initial states that a search starts from. -/
def StartsClear (env : Surroundings σ) (s : Session σ (Work S)) : Prop :=
  ∀ t, start env s = .ok () t → Unrolling.errorId ∉ t.work.unrolling.initial

theorem startsClear_of_constructors (h : Unrolling.Reached system s.work.unrolling)
    (hConstructors : ∀ c ∈ system.constructors, c.isError = false) : StartsClear env s :=
  fun _ hRun => ((reached_start h).of_eq_ok hRun).errorId_notMem_initial hConstructors

/-- The initial states have been reached without an error label. -/
theorem ensures_start_clear (h : Unrolling.Reached system s.work.unrolling)
    (hClear : StartsClear env s) :
    Ensures s (start env)
      (fun _ t => t.work.unrolling.system = system ∧
        ∀ q ∈ t.work.unrolling.initialStates, q.ErrorFree system) fun _ => True := by
  refine .of_run (fun _ t hRun => ?_) fun _ _ _ => trivial
  have ht := (reached_start h).of_eq_ok hRun
  exact ⟨ht.system_eq, ht.initialStates (hClear t hRun)⟩

section Searches

variable {maxDepth : Option Nat}

/-- A symbolic search may insist on states of no error. -/
theorem searchSymbolic_insisting {strategy : Strategy σ SymbolicState}
    {s : Session σ (Work SymbolicState)} (hStrategy : strategy.Traces system (·.ErrorFree system))
    (h : Unrolling.Reached system s.work.unrolling) (hClear : StartsClear env s) :
    (searchSymbolic env (strategy.insisting (·.ErrorFree system) alarm) maxDepth).run s =
      (searchSymbolic env strategy maxDepth).run s := by
  have hSeed : Ensures s (seedSymbolic env)
      (fun _ t => Traced system (·.ErrorFree system) strategy.toCurrent t.work) fun _ => True := by
    refine (ensures_start_clear h hClear).bind fun _ t ⟨hSystem, hInitial⟩ => ?_
    exact .work_bind (.modifyWork_bind (.modifyWork (traced_ofInitial hSystem hInitial)))
  exact Exploration.run_of_coincide (fun _ r hr => coincide_turn hStrategy alarm maxDepth hr)
    (.same hSeed)

/-- So may an enumerative search. -/
theorem searchConcrete_insisting {s : Session σ (Work ConcreteState)}
    (h : Unrolling.Reached system s.work.unrolling) (hClear : StartsClear env s) :
    (searchConcrete env ((enumerative env).insisting (ErrorFreeValues system) alarm) maxDepth).run
      s = (searchConcrete env (enumerative env) maxDepth).run s := by
  have hSeed : Ensures s (seedConcrete env)
      (fun _ t => Traced system (ErrorFreeValues system) ConcreteState.unprimed t.work)
      fun _ => True := by
    refine (ensures_start_clear h hClear).bind fun _ t ⟨hSystem, hInitial⟩ => .work_bind ?_
    refine (ensures_concretise_history _ _).bind fun found r ⟨hr, hFound⟩ => .modifyWork ?_
    refine traced_ofInitial (hr ▸ hSystem) fun q hq => ?_
    obtain ⟨p, hp, hHistory⟩ := hFound q hq
    exact ⟨_, hHistory ▸ (hInitial p hp).2⟩
  exact Exploration.run_of_coincide
    (fun _ r hr => coincide_turn (traces_enumerative env system) alarm maxDepth hr) (.same hSeed)

end Searches

/-- **The error state is no source.** In whatever an unrolling goes through, labels are fired on
states other than the error state that have been reached without an error label, and whether a label
is enabled is asked on such states only, as the question that a call fails with shows. A search,
whatever its strategy, fires and tests labels on such states only unless the error state is an
initial state: it is the search that insists on this. The error state is not one if no constructor
is an error label. -/
theorem sources_errorFree (system : System) :
    (∀ u, Unrolling.Reached system u → ∀ t ∈ u.transitions, Unrolling.Source system u t.start) ∧
    (∀ {σ : Type} (env : Surroundings σ) (operation : Unrolling.Operation)
      (s t : Session σ Unrolling) (name : String) (id : Nat), Unrolling.Reached system s.work →
      operation.run env s = some (.error (.undecided (.guardOnState name id)) t) →
      Unrolling.Source system t.work id) ∧
    (∀ {σ : Type} (env : Surroundings σ) (maxDepth : Option Nat) (alarm : Failure),
      (∀ strategy, (∃ simplify, strategy = symbolic env simplify) ∨
          (∃ owner, strategy = synchronised env owner) →
        ∀ s, Unrolling.Reached system s.work.unrolling → StartsClear env s →
          (searchSymbolic env (strategy.insisting (·.ErrorFree system) alarm) maxDepth).run s =
            (searchSymbolic env strategy maxDepth).run s) ∧
      ∀ s, Unrolling.Reached system s.work.unrolling → StartsClear env s →
        (searchConcrete env ((enumerative env).insisting (ErrorFreeValues system) alarm)
            maxDepth).run
          s = (searchConcrete env (enumerative env) maxDepth).run s) ∧
    ((∀ c ∈ system.constructors, c.isError = false) → ∀ {σ S : Type} (env : Surroundings σ)
      (s : Session σ (Work S)), Unrolling.Reached system s.work.unrolling → StartsClear env s) := by
  refine ⟨fun u hu => hu.source_start, fun env operation s t name id hs hRun => hs.asked hRun, ?_,
    fun hConstructors _ _ env s hs => startsClear_of_constructors hs hConstructors⟩
  intro σ env maxDepth alarm
  refine ⟨fun strategy hStrategy s hs hClear => ?_,
    fun s hs hClear => searchConcrete_insisting hs hClear⟩
  rcases hStrategy with ⟨simplify, rfl⟩ | ⟨owner, rfl⟩
  · exact searchSymbolic_insisting (traces_symbolic env system simplify) hs hClear
  · exact searchSymbolic_insisting (traces_synchronised env system owner) hs hClear

open scoped Reals

/-- The alarm is no constructor, so the search for it is the one that insists, and whether it is
enabled is asked on the initial state. -/
theorem sources_errorFree_alarm :
    let env : Surroundings Unit := { solver := .exhaustive }
    let hesitant : Surroundings (Nat × Unit) := { solver := Solver.exhaustive.withGaps [3] }
    (∃ (i : Image SymbolicState) (t : Session Unit (Work SymbolicState)),
      (searchSymbolic env
        ((symbolic env true).insisting (·.ErrorFree alarmSystem) .constructorsWithInit) none).run
        { memory := (), work := { unrolling := { system := alarmSystem } } } = some (.ok i t) ∧
      i.ending = .fixpoint 1 ∧ "alarm" ∈ i.reachedErrors) ∧
    ∃ t, (Unrolling.Operation.iterate 1).run hesitant
        { memory := (0, ()), work := { system := alarmSystem } } =
          some (.error (.undecided (.guardOnState "alarm" 1)) t) ∧
      Unrolling.Source alarmSystem t.work 1 := by
  intro env hesitant
  have hSearch : (searchSymbolic env (symbolic env true) none).returns 4
      { memory := (), work := { unrolling := { system := alarmSystem } } }
      (fun i _ => i.ending = .fixpoint 1 ∧ "alarm" ∈ i.reachedErrors) = true := by
    decide +kernel
  have hIterate : fails (Unrolling.iterate hesitant 1)
      { memory := (0, ()), work := { system := alarmSystem } }
      (fun failure _ => failure = .undecided (.guardOnState "alarm" 1)) = true := by
    decide +kernel
  obtain ⟨-, hAsked, hInsisting, hClear⟩ := sources_errorFree alarmSystem
  constructor
  · obtain ⟨i, t, hRun, hFound⟩ := Exploration.exists_of_returns hSearch
    refine ⟨i, t, ?_, of_decide_eq_true hFound⟩
    rw [(hInsisting env none .constructorsWithInit).1 _ (.inl ⟨true, rfl⟩) _ .fresh
      (hClear (by decide) env _ .fresh)]
    exact hRun
  · obtain ⟨failure, t, hRun, hFailure⟩ := exists_of_fails hIterate
    obtain rfl := of_decide_eq_true hFailure
    have hCall : (Unrolling.Operation.iterate 1).run hesitant
        { memory := (0, ()), work := { system := alarmSystem } } =
          some (.error (.undecided (.guardOnState "alarm" 1)) t) := congrArg some hRun
    exact ⟨t, hCall, hAsked hesitant (.iterate 1) _ t "alarm" 1 .fresh hCall⟩

/-- An error label that is a constructor, and a label that sets the variable. -/
def misbuiltSystem : System where
  stateVariables := [Unrolling.switch]
  labels := [
    { name := "refuse", stateVariables := [Unrolling.switch], isError := true,
      isConstructor := true },
    { name := "set", stateVariables := [Unrolling.switch],
      effects := [(Unrolling.switch, .var Unrolling.switch.primed)] }]

/-- The only initial state is the error state, and a search fires the label on it: it reaches a
state whose history begins with the error label. Unrolling fires nothing. -/
theorem search_from_error :
    let env : Surroundings Unit := { solver := .exhaustive }
    (∃ (i : Image SymbolicState) (t : Session Unit (Work SymbolicState)),
      (searchSymbolic env (symbolic env false) none).run
        { memory := (), work := { unrolling := { system := misbuiltSystem } } } = some (.ok i t) ∧
      i.reachable.states.map (fun q => (q.isError, q.history)) =
        [(true, ["refuse"]), (false, ["refuse", "set"])]) ∧
    (∀ xs, ¬misbuiltSystem.ErrorFree ["refuse", "set"] xs) ∧
    ∃ t : Session Unit Unrolling,
      (Unrolling.unroll env none).run { memory := (), work := { system := misbuiltSystem } } =
        some (.ok (.fixpoint 0) t) ∧ t.work.transitions.map (·.labels) = #[["refuse"]] := by
  intro env
  have hSearch : (searchSymbolic env (symbolic env false) none).returns 4
      { memory := (), work := { unrolling := { system := misbuiltSystem } } }
      (fun i _ => i.reachable.states.map (fun q => (q.isError, q.history)) =
        [(true, ["refuse"]), (false, ["refuse", "set"])]) = true := by
    decide +kernel
  have hUnroll : (Unrolling.unroll env none).returns 4
      { memory := (), work := { system := misbuiltSystem } }
      (fun ending t => ending = .fixpoint 0 ∧ t.work.transitions.map (·.labels) = #[["refuse"]]) =
        true := by
    rw [Unrolling.unroll_eq]
    decide +kernel
  obtain ⟨i, t, hRun, hReached⟩ := Exploration.exists_of_returns hSearch
  obtain ⟨ending, r, hRun', hEnding⟩ := Exploration.exists_of_returns hUnroll
  obtain ⟨rfl, hTransitions⟩ := of_decide_eq_true hEnding
  refine ⟨⟨i, t, hRun, of_decide_eq_true hReached⟩, fun xs h => ?_, r, hRun', hTransitions⟩
  obtain ⟨l, hl, hnoError, hName⟩ := h.label_of_mem List.mem_cons_self
  revert l
  decide

end Search

end StateSpace
