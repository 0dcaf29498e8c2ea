import StateSpace.Proofs.Search.Completeness
import StateSpace.Proofs.Solver.Reliable
import StateSpace.Proofs.Unrolling.Start

/-!
# Enumeration reports only what is real

A concrete state may be partial: a variable that no formula mentions has no value in the model that
the state was taken from. Its values are completed by any values of the other variables, and a state
is genuine if every completion is reached by an execution with the labels of its history
(`Search.Genuine`). Successors of genuine states are genuine, since a model of the state and of a
label gives values from which the label fires to every completion of the next values
(`Search.Genuine.successor`); initial states are, since a constructor fires to whatever its
successor describes. The search keeps both, and the ways to the errors it reports
(`Search.searchConcrete_sound`).
-/

namespace StateSpace

open Environment

variable {xs : List Variable} {l : Label} {x y : Variable} {before after ρ ν : Environment}

/-! ## Names with a prime -/

/-- Dropping the prime undoes adding it, for a name of name characters. -/
theorem Variable.Named.unprimed_primed (h : x.Named) : x.primed.unprimed = x := by
  have hLast : ∀ c ∈ x.name.toList, (c == primeMark) = false := by
    intro c hc
    have hChar : Text.isNameChar c = true := by
      have hName : Text.isName x.name.toList = true := h
      rw [Text.isName, Bool.and_eq_true] at hName
      exact List.all_eq_true.mp hName.2 c hc
    have hPrime : Text.isNameChar primeMark = false := by decide
    rw [beq_eq_false_iff_ne]
    rintro rfl
    rw [hPrime] at hChar
    cases hChar
  -- the name does not end with a prime, so exactly the added one is dropped
  have hDrop : x.name.toList.reverse.dropWhile (· == primeMark) = x.name.toList.reverse := by
    cases hReverse : x.name.toList.reverse with
    | nil => rfl
    | cons c cs =>
      have hc : c ∈ x.name.toList := by
        rw [← List.mem_reverse, hReverse]
        exact List.mem_cons_self
      rw [List.dropWhile_cons, hLast c hc]
      rfl
  have hName : x.primed.name.toList.reverse = primeMark :: x.name.toList.reverse := by
    simp [primed]
  unfold unprimed
  rw [hName, List.dropWhile_cons_of_pos (by simp), hDrop, List.reverse_reverse,
    String.ofList_toList]
  rfl

/-! ## The formula of a transition -/

namespace Label

/-- What the precondition and the effects of a label mention: declared variables and next values. -/
theorem WellScoped.free_transitionExpr (hl : l.WellScoped xs) (hy : l.transitionExpr.Free y) :
    y ∈ xs ++ l.parameters ∨ ∃ x ∈ xs, y = x.primed := by
  obtain ⟨e, he, hy⟩ := Expr.free_conj.mp hy
  rcases List.mem_cons.mp he with rfl | he
  · obtain ⟨e, he, hy⟩ := Expr.free_conj.mp hy
    exact .inl ((hl.preconditions e he).inScope y hy)
  · obtain ⟨x, hx, rfl⟩ := List.mem_map.mp he
    rw [hl.ranges] at hx
    have hMem : y ∈ xs ++ l.parameters ++ [x.primed] := by
      cases hExplicit : l.explicitEffect? x with
      | some effect =>
        rw [hExplicit] at hy
        exact (hl.effects _ (Formulas.mem_of_lookup hExplicit)).2.inScope y hy
      | none =>
        rw [hExplicit] at hy
        have hStutter : (stutter x).Within (xs ++ l.parameters ++ [x.primed]) :=
          (Expr.within_var (by simp)).equal (Expr.within_var (by simp [hx]))
        exact hStutter.inScope y hy
    rcases List.mem_append.mp hMem with hMem | hMem
    · exact .inl hMem
    · exact .inr ⟨x, hx, List.mem_singleton.mp hMem⟩

/-- The formula of a transition is true where the label fires. -/
theorem WellScoped.holds_transitionExpr [Reals] (hl : l.WellScoped xs) :
    l.transitionExpr.holds (across xs before after) = true ↔ l.Fires before after := by
  have hPre : l.precondition.holds (across xs before after) = true ↔
      l.precondition.holds before = true :=
    Expr.holds_conj.trans (hl.holds_precondition after).symm
  rw [transitionExpr, Expr.holds_conj, List.forall_mem_cons, List.forall_mem_map, Fires, hPre,
    hl.ranges]
  refine and_congr_right fun _ => forall₂_congr fun x hx => ?_
  cases l.explicitEffect? x with
  | some effect => exact Iff.rfl
  | none =>
    show (stutter x).holds _ = true ↔ after.get x = before.get x
    rw [stutter, Expr.holds_equal_var (x := x.primed) (y := x) rfl, get_across_primed hx,
      get_across_of_ne fun z _ => hl.ne_primed (List.mem_append_left _ hx) z]

end Label

/-! ## Completions -/

namespace ConcreteState

/-- The values of the state are completed by an environment. -/
def CompletedBy [Reals] (s : ConcreteState) (ν : Environment) : Prop :=
  ∀ entry ∈ s.values, ν.get entry.1 = entry.2.number

/-- The values are values of the given variables, in the range of their types. -/
def Typed [Reals] (xs : List Variable) (s : ConcreteState) : Prop :=
  ∀ entry ∈ s.values,
    entry.1 ∈ xs ∧ entry.2.type = entry.1.type ∧
      entry.1.type.hold entry.2.number = entry.2.number

variable {s : ConcreteState}

theorem Typed.holds_toExpr [Reals] (hs : s.Typed xs) :
    s.toExpr.holds ρ = true ↔ s.CompletedBy ρ := by
  rw [toExpr, Expr.holds_conj, List.forall_mem_map]
  refine forall₂_congr fun entry hEntry => ?_
  obtain ⟨-, hType, hHeld⟩ := hs entry hEntry
  exact Expr.holds_equal_const hType hHeld

theorem Typed.free_toExpr [Reals] (hs : s.Typed xs) (hy : s.toExpr.Free y) : y ∈ xs := by
  obtain ⟨e, he, hy⟩ := Expr.free_conj.mp hy
  obtain ⟨entry, hEntry, rfl⟩ := List.mem_map.mp he
  have hWithin := (Expr.within_var (hs entry hEntry).1).equal (Expr.within_const entry.2)
  exact hWithin.inScope y hy

/-- The state of a model has the values that the model gives to the variables. -/
theorem mem_values_ofModel {model : Valuation} {entry : Variable × Value} :
    entry ∈ (ofModel model xs).values ↔ entry.1 ∈ xs ∧ model[entry.1]? = some entry.2 := by
  obtain ⟨x, v⟩ := entry
  simp only [ofModel, List.mem_filterMap, Option.map_eq_some_iff, Prod.mk.injEq,
    Std.TreeMap.get?_eq_getElem?]
  constructor
  · rintro ⟨z, hz, w, hw, rfl, rfl⟩
    exact ⟨hz, hw⟩
  · rintro ⟨hx, hv⟩
    exact ⟨x, hx, v, hv, rfl, rfl⟩

end ConcreteState

theorem Region.mem_states_newValues {r reached : Region ConcreteState} {q : ConcreteState}
    (h : q ∈ (r.newValues reached).states) : q ∈ r.states := by
  obtain ⟨name, hName⟩ := Region.mem_states.mp h
  exact Region.mem_states.mpr ⟨name, (Region.getElem?_newValues hName).1⟩

namespace Search

open Explore

variable {σ : Type} {env : Surroundings σ} {system : System} {q p : ConcreteState}
  {s t : Session σ (Work ConcreteState)} {w : Work ConcreteState} {maxDepth : Option Nat}

/-! ## Genuine states -/

/-- The state has completions, and each of them is reached by an execution with the labels of its
history. -/
structure Genuine [Reals] (system : System) (q : ConcreteState) : Prop where
  typed : q.Typed system.stateVariables
  completed : ∃ ν, q.CompletedBy ν
  reaches : ∀ ν, q.CompletedBy ν → system.Reaches q.history ν

/-- The values of a model of a state describe only what the state does. -/
theorem genuine_ofModel [Reals] {init : SymbolicState} {model : Valuation}
    (hModel : model.IsModel init.toExpr)
    (hReaches : ∀ ν, init.Describes system.stateVariables ν → system.Reaches init.history ν) :
    Genuine system
      { ConcreteState.ofModel model system.stateVariables with history := init.history } where
  typed entry hEntry := by
    obtain ⟨hMem, hv⟩ := ConcreteState.mem_values_ofModel.mp hEntry
    exact ⟨hMem, hModel.typed _ _ hv⟩
  completed := ⟨model.environment, fun entry hEntry =>
    hModel.get_environment (ConcreteState.mem_values_ofModel.mp hEntry).2⟩
  reaches ν hν := by
    -- hidden variables keep the values of the model
    refine hReaches ν ⟨patched (· ∈ system.stateVariables) ν fun _ => model.environment,
      fun y hy => get_patched_of hy, ?_⟩
    rw [← hModel.holds]
    refine Expr.holds_congr fun y hy => ?_
    by_cases hMem : y ∈ system.stateVariables
    · obtain ⟨v, hv⟩ := hModel.exists_value hy
      rw [hModel.get_environment hv, ← hν (y, v) (ConcreteState.mem_values_ofModel.mpr ⟨hMem, hv⟩)]
      exact get_patched_of hMem
    · exact get_patched_of_not hMem

/-- The next values that a model of a genuine state and of a label has are genuine. -/
theorem Genuine.successor [Reals] (hq : Genuine system q) (hSystem : system.WellScoped)
    (hl : l ∈ system.labels)
    (hnoConstructor : l.isConstructor = false) (hnoError : l.isError = false) {model : Valuation}
    (hModel : model.IsModel (q.toExpr.and l.transitionExpr)) :
    Genuine system ((ConcreteState.ofModel model (l.stateVariables.map Variable.primed)).withHistory
      q.history l.name).unprimed := by
  have hScoped := hSystem.labels l hl
  -- the next values of the model, under the plain names
  have hValues : ∀ entry, entry ∈ ((ConcreteState.ofModel model
      (l.stateVariables.map Variable.primed)).withHistory q.history l.name).unprimed.values ↔
      entry.1 ∈ system.stateVariables ∧ model[entry.1.primed]? = some entry.2 := by
    intro entry
    show entry ∈ List.map _ _ ↔ _
    rw [List.mem_map, hScoped.ranges]
    constructor
    · rintro ⟨⟨y, v⟩, hMem, rfl⟩
      obtain ⟨hy, hv⟩ := ConcreteState.mem_values_ofModel.mp hMem
      obtain ⟨x, hx, rfl⟩ := List.mem_map.mp hy
      show x.primed.unprimed ∈ _ ∧ model[x.primed.unprimed.primed]? = some v
      rw [(hSystem.named x hx).unprimed_primed]
      exact ⟨hx, hv⟩
    · rintro ⟨hx, hv⟩
      refine ⟨(entry.1.primed, entry.2), ?_, ?_⟩
      · exact ConcreteState.mem_values_ofModel.mpr ⟨List.mem_map_of_mem hx, hv⟩
      · show (entry.1.primed.unprimed, entry.2) = entry
        rw [(hSystem.named _ hx).unprimed_primed]
  refine ⟨fun entry hEntry => ?_, ?_, fun ν hν => ?_⟩
  · obtain ⟨hx, hv⟩ := (hValues entry).mp hEntry
    exact ⟨hx, hModel.typed entry.1.primed entry.2 hv⟩
  · refine ⟨fun x => model.environment x.primed, fun entry hEntry => ?_⟩
    exact hModel.get_environment ((hValues entry).mp hEntry).2
  · -- under the values of the model, with the completed values afterwards, the formula stays true
    have hHolds : (q.toExpr.and l.transitionExpr).holds
        (across system.stateVariables model.environment ν) = true := by
      rw [← hModel.holds]
      refine Expr.holds_congr fun y hy => ?_
      have hScope : y ∈ system.stateVariables ++ l.parameters ∨
          ∃ x ∈ system.stateVariables, y = x.primed := by
        rcases hy with hy | hy
        · exact .inl (List.mem_append_left _ (hq.typed.free_toExpr hy))
        · exact hScoped.free_transitionExpr hy
      rcases hScope with hMem | ⟨x, hx, rfl⟩
      · exact get_across_of_ne fun z _ => hScoped.ne_primed hMem z
      · obtain ⟨v, hv⟩ := hModel.exists_value hy
        rw [get_across_primed hx, hModel.get_environment hv]
        exact hν (x, v) ((hValues (x, v)).mpr ⟨hx, hv⟩)
    rw [Expr.holds_and, Bool.and_eq_true] at hHolds
    -- so the state is completed by the values of the model, and the label fires from them
    have hBefore : q.CompletedBy model.environment := by
      rw [← hq.typed.holds_toExpr, ← hHolds.1]
      refine Expr.holds_congr fun y hy => (get_across_of_ne fun z _ => ?_).symm
      exact hScoped.ne_primed (List.mem_append_left _ (hq.typed.free_toExpr hy)) z
    have hFires := hScoped.holds_transitionExpr.mp hHolds.2
    exact .fire (hq.reaches _ hBefore) hl hnoConstructor hnoError ⟨_, .refl _ _, hFires⟩

/-! ## Errors -/

/-- The way to an error that an image shows: an execution after which an error label of that name is
enabled. -/
def Shows [Reals] (system : System) (i : Image ConcreteState) (name : String) : Prop :=
  ∃ l ∈ system.labels, l.name = name ∧ l.isConstructor = false ∧ l.isError = true ∧
    ∃ history ν, i.counterexamples[name]? = some (history ++ [name]) ∧ system.Reaches history ν ∧
      system.Enables ν l

/-- Everything that a search has found is genuine. -/
structure Sound [Reals] (system : System) (w : Work ConcreteState) : Prop where
  system_eq : w.unrolling.system = system
  reachable : ∀ q ∈ w.image.reachable.states, Genuine system q
  frontier : ∀ q ∈ w.image.frontier.states, Genuine system q
  pending : ∀ q ∈ w.image.pending.states, Genuine system q.unprimed
  errors : ∀ name ∈ w.image.reachedErrors, Shows system w.image name

/-- A genuine successor may be added. -/
theorem Sound.addPending [Reals] (h : Sound system w) (hp : Genuine system p.unprimed) :
    Sound system { w with image := w.image.addPending p } := by
  refine ⟨h.system_eq, h.reachable, h.frontier, fun q hq => ?_, h.errors⟩
  obtain ⟨name, hName⟩ := Region.mem_states.mp hq
  have hGet : (w.image.pending.insert (Region.nameOf (w.image.names + 1)) p)[name]? = some q :=
    hName
  rw [Std.TreeMap.getElem?_insert] at hGet
  split at hGet
  · cases hGet
    exact hp
  · exact h.pending q (Region.mem_states.mpr ⟨name, hGet⟩)

/-- An error may be recorded if the label is enabled on values that are reached. -/
theorem Sound.recordError [Reals] (h : Sound system w) (hl : l ∈ system.labels)
    (hnoConstructor : l.isConstructor = false) (hError : l.isError = true) {history : List String}
    (hReaches : system.Reaches history ν) (hEnabled : system.Enables ν l) :
    Sound system { w with image := w.image.recordError l.name (history ++ [l.name]) } := by
  unfold Image.recordError
  split
  · exact h
  · next hNew =>
    have hNew : l.name ∉ w.image.reachedErrors := by simpa [Image.isReached] using hNew
    refine ⟨h.system_eq, h.reachable, h.frontier, h.pending, fun name hName => ?_⟩
    -- the ways to errors known before are not overwritten, as the label is a new one
    rcases List.mem_append.mp hName with hName | hName
    · obtain ⟨l', hl', hl'name, hRest, hError', before, ν', hGet, hWay⟩ := h.errors name hName
      refine ⟨l', hl', hl'name, hRest, hError', before, ν', ?_, hWay⟩
      show (w.image.counterexamples.insert _ _)[name]? = _
      rw [Std.TreeMap.getElem?_insert, if_neg, hGet]
      intro heq
      rw [Std.LawfulEqCmp.compare_eq_iff_eq] at heq
      exact hNew (heq ▸ hName)
    · obtain rfl := List.mem_singleton.mp hName
      refine ⟨l, hl, rfl, hnoConstructor, hError, history, ν, ?_, hReaches, hEnabled⟩
      show (w.image.counterexamples.insert _ _)[l.name]? = _
      rw [Std.TreeMap.getElem?_insert_self]

/-! ## Steps -/

section Run

variable [Reals]
variable (hSolver : env.solver.Reliable) (hSystem : system.Hygienic)

include hSolver

theorem ensures_solve {ω : Type} {s : Session σ ω} (e : Expr) :
    Ensures s (solve env e)
      (fun answer t => t.work = s.work ∧ (answer.verdict = .sat → answer.model.IsModel e))
      (fun _ => True) :=
  ⟨rfl, hSolver.solved e s.memory⟩

/-- The concrete states that a search starts from are genuine, if the symbolic ones are exact. -/
theorem ensures_concretise {ω : Type} {s : Session σ ω} (initial : List SymbolicState)
    (hInitial : ∀ q ∈ initial, ∀ ν,
      q.Describes system.stateVariables ν → system.Reaches q.history ν) :
    Ensures s (concretise env system.stateVariables initial)
      (fun found t => t.work = s.work ∧ ∀ q ∈ found, Genuine system q) (fun _ => True) := by
  induction initial generalizing s with
  | nil => exact .pure ⟨rfl, by simp⟩
  | cons q rest ih =>
    obtain ⟨hq, hRest⟩ := List.forall_mem_cons.mp hInitial
    refine (ensures_solve hSolver _).bind fun answer t ⟨ht, hModel⟩ => ?_
    cases hVerdict : answer.verdict with
    | sat =>
      refine (ih hRest).bind fun found r ⟨hr, hGenuine⟩ => .pure ⟨hr.trans ht, ?_⟩
      exact List.forall_mem_cons.mpr ⟨genuine_ofModel (hModel hVerdict) hq, hGenuine⟩
    | unsat =>
      exact (ih hRest).mono (fun found r ⟨hr, hGenuine⟩ => ⟨hr.trans ht, hGenuine⟩) fun _ h => h
    | dontKnow => exact .throw trivial

/-- An error label that is found enabled ends an execution. -/
theorem ensures_testReachable_concrete (hl : l ∈ system.labels)
    (hnoConstructor : l.isConstructor = false) (hError : l.isError = true)
    (hs : Sound system s.work) :
    Ensures s (testReachable env l) (fun _ t => Sound system t.work) (fun _ => True) := by
  refine ensures_testReachable_keeps (fun q hq ⟨memory, hAnswer⟩ => ?_) hs
  -- values that satisfy the guard complete the state, so an execution ends with them
  obtain ⟨ρ, hρ⟩ := hSolver.sat _ _ hAnswer
  rw [Label.guardOn, Expr.holds_and, Bool.and_eq_true] at hρ
  have hGenuine := hs.reachable q hq
  have hCompleted := hGenuine.typed.holds_toExpr.mp hρ.1
  exact hs.recordError hl hnoConstructor hError (hGenuine.reaches ρ hCompleted) ⟨ρ, .refl _ _, hρ.2⟩

include hSystem

/-- Firing a label on a genuine state. -/
theorem ensures_expandConcrete (hl : l ∈ system.labels) (hnoConstructor : l.isConstructor = false)
    (hnoError : l.isError = false) (hq : Genuine system q) (hs : Sound system s.work) :
    Ensures s (expandConcrete env l q) (fun _ t => Sound system t.work) (fun _ => True) := by
  refine ensures_expandConcrete_cases.mono (fun _ t hCases => ?_) fun _ h => h
  rcases hCases with ht | ⟨-, memory, hVerdict, ht⟩
  · rwa [ht]
  · rw [ht]
    exact hs.addPending (hq.successor hSystem.toWellScoped hl hnoConstructor hnoError
      (hSolver.solved _ memory hVerdict))

theorem ensures_fireLabels_concrete (hs : Sound system s.work) :
    Ensures s (fireLabels (enumerative env) system.labels) (fun _ t => Sound system t.work)
      (fun _ => True) := by
  refine ensures_fireLabels_keeps (fun t => Sound system t.work) ?_ ?_ hs
  · intro l hl hnoConstructor hnoError t ht
    refine ensures_image_bind (Ensures.forM (fun r => Sound system r.work) (fun q hq r hr => ?_) ht)
    exact ensures_expandConcrete hSolver hSystem hl hnoConstructor hnoError (ht.frontier q hq) hr
  · intro l hl hnoConstructor hError t ht
    exact ensures_testReachable_concrete hSolver hl hnoConstructor hError ht

/-- One depth of the search. -/
theorem ensures_deepen_concrete (hs : Sound system s.work) :
    Ensures s (deepen env (enumerative env)) (fun _ t => Sound system t.work) (fun _ => True) := by
  refine (ensures_deepen (fun _ w => Sound system w)
    (fun w added => ∀ q ∈ added.states, q ∈ (successors (enumerative env) w.image).states)
    (fun r hr => ?_) fun w t => .pure ⟨rfl, fun q hq => Region.mem_states_newValues hq⟩).mono
    (fun _ t h => ?_) fun _ h => h
  · rw [hs.system_eq]
    refine ensures_fireLabels_concrete hSolver hSystem ?_
    rw [hr]
    exact ⟨hs.system_eq, hs.reachable, hs.frontier, hs.pending, hs.errors⟩
  · obtain ⟨w, added, hw, hAdded, ht⟩ := h
    rw [ht]
    -- what the depth adds are successors, as states about current values
    have hGenuine : ∀ q ∈ added.states, Genuine system q := by
      intro q hq
      obtain ⟨name, hName⟩ := Region.mem_states.mp (hAdded q hq)
      obtain ⟨p, hp, rfl⟩ := getElem?_successors.mp hName
      exact hw.pending p (Region.mem_states.mpr ⟨name, hp⟩)
    refine ⟨hw.system_eq, fun q hq => ?_, hGenuine, fun q hq => ?_, hw.errors⟩
    · obtain ⟨name, hName⟩ := Region.mem_states.mp hq
      rcases Region.getElem?_union.mp hName with hName | ⟨-, hName⟩
      · exact hGenuine q (Region.mem_states.mpr ⟨name, hName⟩)
      · exact hw.reachable q (Region.mem_states.mpr ⟨name, hName⟩)
    · obtain ⟨name, hName⟩ := Region.mem_states.mp hq
      simp [advance] at hName

/-- One turn keeps everything genuine, and so is the image it ends with. -/
theorem ensures_turn_concrete (hs : Sound system s.work) :
    Ensures s (turn env (enumerative env) maxDepth)
      (fun next t => next.Satisfies (fun _ => Sound system t.work) fun i =>
        (∀ q ∈ i.reachable.states, Genuine system q) ∧ ∀ name ∈ i.reachedErrors,
          Shows system i name)
      (fun _ => True) := by
  refine ensures_turn (fun s => .pure rfl) (fun _ => ⟨hs.reachable, hs.errors⟩)
    (fun _ => ⟨hs.reachable, hs.errors⟩) fun _ => ?_
  exact (ensures_deepen_concrete hSolver hSystem hs).mono
    (fun _ t ht => ⟨⟨ht.reachable, ht.errors⟩, fun _ => ht⟩) fun _ h => h

end Run

/-- **Enumeration reports only what is real.** For every system read from a description that
declares its variables first and uses no name that looks hidden, in which no label is both a
constructor and an error label, every reliable solver, every depth bound and whatever happens to the
stop flag: if the search returns an image, then every state reached has completions, each completion
is reached by an execution with the labels of the state's history, and for every error reached the
counterexample is the labels of an execution after which an error label of that name is enabled, and
then that name. -/
theorem searchConcrete_sound [Reals] {text : String}
    (hParse : Description.parseSystem text = .ok system) (hFirst : Description.DeclaresFirst text)
    (hVisible : ∀ x ∈ system.declared, Renaming.isHidden x.name = false)
    (hApart : ∀ l ∈ system.labels, l.isConstructor = true → l.isError = false)
    (hSolver : env.solver.Reliable) (hFresh : s.work.unrolling = { system := system })
    {i : Image ConcreteState}
    (hRun : (searchConcrete env (enumerative env) maxDepth).run s = some (.ok i t)) :
    (∀ q ∈ i.reachable.states, (∃ ν, q.CompletedBy ν) ∧
      ∀ ν, q.CompletedBy ν → system.Reaches q.history ν) ∧
    ∀ name ∈ i.reachedErrors, ∃ l ∈ system.labels, l.name = name ∧ l.isError = true ∧
      ∃ history ν, i.counterexamples[name]? = some (history ++ [name]) ∧
        system.Reaches history ν ∧ system.Enables ν l := by
  have hSystem : system.Hygienic :=
    ⟨Description.wellScoped_of_declaresFirst hParse hFirst, hVisible⟩
  have hSeed : Ensures s (seedConcrete env) (fun _ r => Sound system r.work) (fun _ => True) := by
    -- the start is symbolic: the states searched from are models of its initial states
    refine ensures_start.bind fun _ r ⟨u, hStarting, hr⟩ => .work_bind ?_
    rw [hFresh] at hStarting
    have hSame := (initialStates_of_starting hSolver.toTruthful hSystem hStarting).1
    have hInitial := hStarting.initial fun c hc =>
      hApart c (List.mem_filter.mp hc).1 (List.mem_filter.mp hc).2
    rw [hr]
    show Ensures r (concretise env u.system.stateVariables u.initialStates >>= _) _ _
    rw [hSame]
    refine (ensures_concretise hSolver _ fun q hq ν hν => ?_).bind
      fun initial o ⟨ho, hGenuine⟩ => ?_
    · exact .start ((hInitial q hq).2.starts hSystem hSolver.sat hν)
    · refine .modifyWork ?_
      rw [ho, hr]
      refine ⟨hSame, fun q hq => hGenuine q (mem_states_ofInitial.mp hq),
        fun q hq => hGenuine q (mem_states_ofInitial.mp hq), fun q hq => ?_, fun name hName => ?_⟩
      · obtain ⟨name, hName⟩ := Region.mem_states.mp hq
        simp [Image.ofInitial] at hName
      · cases hName
  obtain ⟨hReachable, hErrors⟩ :=
    Exploration.of_run_eq_ok (fun _ r hr => ensures_turn_concrete hSolver hSystem hr) hSeed hRun
  refine ⟨fun q hq => ⟨(hReachable q hq).completed, (hReachable q hq).reaches⟩, fun name hName =>
    ?_⟩
  obtain ⟨l, hl, hl', -, hRest⟩ := hErrors name hName
  exact ⟨l, hl, hl', hRest⟩

/-! ## A system with a partial state -/

/-- A constructor with a parameter, and a label whose effect leaves the next value of its variable
open. -/
def noiseText : String :=
  "VARIABLES:\ndeclare ready:bool, noise:bool\n\nCONSTRUCTOR boot:\nPARAMETER: declare p:bool\n" ++
    "PRECONDITION:\np\nEFFECT:\nready: ready' == p\n\n" ++
    "TRANSITION disturb:\nPRECONDITION:\nready\n" ++
    "EFFECT:\nnoise: ready\n\nTRANSITION alarm:\nPRECONDITION:\nnoise\nEFFECT:\nERROR\n"

/-- The variable that the constructor sets. -/
def ready : Variable := ⟨"ready", .bool⟩

/-- The variable that is disturbed. -/
def noise : Variable := ⟨"noise", .bool⟩

/-- The parameter of the constructor. -/
def power : Variable := ⟨"p", .bool⟩

/-- The system of `noiseText`. -/
def noiseSystem : System where
  stateVariables := [ready, noise]
  labels := [
    { name := "boot", stateVariables := [ready, noise], parameters := [power], isConstructor := true
      preconditions := [.var power]
      effects := [(ready, .logical .equiv (.var ready.primed) (.var power))] },
    { name := "disturb", stateVariables := [ready, noise], preconditions := [.var ready]
      effects := [(noise, .var ready)] },
    { name := "alarm", stateVariables := [ready, noise], preconditions := [.var noise]
      isError := true }]

open scoped Reals

/-- The state after the disturbance has a value for one variable only; whatever the other is, it is
reached. The error found is real. -/
theorem searchConcrete_sound_noise :
    ∃ (i : Image ConcreteState) (t : Session Unit (Work ConcreteState)),
      (searchConcrete { solver := .searching } (enumerative { solver := .searching }) none).run
        { memory := (), work := { unrolling := { system := noiseSystem } } } = some (.ok i t) ∧
      i.reachedErrors = ["alarm"] ∧
      (∃ l ∈ noiseSystem.labels, l.name = "alarm" ∧ ∃ ν, noiseSystem.Reaches ["boot", "disturb"] ν ∧
        noiseSystem.Enables ν l) ∧
      ∀ ν : Environment, ν.get ready = 1 → noiseSystem.Reaches ["boot", "disturb"] ν := by
  have hCheck : Exploration.returns 4
      (searchConcrete { solver := .searching } (enumerative { solver := .searching }) none)
      { memory := (), work := { unrolling := { system := noiseSystem } } }
      (fun i _ => i.reachedErrors = ["alarm"] ∧
        i.counterexamples["alarm"]? = some ["boot", "disturb", "alarm"] ∧
        ⟨[(ready, .bool true)], ["boot", "disturb"]⟩ ∈ i.reachable.states) = true := by
    decide +kernel
  obtain ⟨i, t, hRun, hEnding⟩ := Exploration.exists_of_returns hCheck
  obtain ⟨hErrors, hWay, hState⟩ := of_decide_eq_true hEnding
  have hParse : Description.parseSystem noiseText = .ok noiseSystem := by decide +kernel
  have hFirst : Description.DeclaresFirst noiseText := by decide +kernel
  obtain ⟨hReal, hShown⟩ :=
    searchConcrete_sound hParse hFirst (by decide +kernel) (by decide +kernel)
    Solver.searching_reliable rfl hRun
  refine ⟨i, t, hRun, hErrors, ?_, fun ν hν => ?_⟩
  · obtain ⟨l, hl, hName, -, history, ν, hGet, hReaches, hEnabled⟩ :=
      hShown "alarm" (by rw [hErrors]; simp)
    have heq : history ++ ["alarm"] = ["boot", "disturb"] ++ ["alarm"] :=
      Option.some.inj (hGet.symm.trans hWay)
    obtain rfl := List.append_cancel_right heq
    exact ⟨l, hl, hName, ν, hReaches, hEnabled⟩
  · refine (hReal _ hState).2 ν fun entry hEntry => ?_
    rw [List.mem_singleton.mp hEntry]
    exact hν

end Search

end StateSpace
