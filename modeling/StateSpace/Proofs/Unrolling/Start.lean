import StateSpace.Proofs.Label.Frame
import StateSpace.Proofs.Unrolling.Firing

/-!
# Initial states

An initial state is the default state, or what a constructor makes of it (`Unrolling.Initial`).
Constructors go with no initial values, so the default state that they fire on leaves each variable
one value, and what an initial state describes are exactly values that executions start with
(`Unrolling.Initial.starts`).
-/

namespace StateSpace

open Environment

/-! ## The default state without initial values -/

theorem Label.formulas_applyTo_congr {l : Label} {s s' : SymbolicState}
    (h : s'.formulas = s.formulas) (n id id' : Nat) :
    (l.applyTo s' n id').formulas = (l.applyTo s n id).formulas := by
  have hGet : s'.get? = s.get? := by
    funext x
    rw [SymbolicState.get?, SymbolicState.get?, h]
  rw [formulas_applyTo, formulas_applyTo]
  unfold successorFormula
  rw [hGet]

/-- If no initial values are given, the default state leaves each variable one value. -/
theorem System.determined_defaultState [Reals] {system : System} (hInit : system.initialValues = [])
    (id : Nat) {y : Variable} (hy : y ∈ system.stateVariables) :
    ∃ e, (system.defaultState id).get? y = some e ∧
      ∀ ρ ρ', e.holds ρ = true → e.holds ρ' = true → ρ.get y = ρ'.get y := by
  have hFormulas : (system.defaultState id).formulas =
      system.stateVariables.map fun x => (x, .equal (.var x) (.const (.default x.type))) := by
    rw [formulas_defaultState, hInit]
    rfl
  have hMem : (y, Expr.equal (.var y) (.const (.default y.type))) ∈
      (system.defaultState id).formulas := by
    rw [hFormulas]
    exact List.mem_map.mpr ⟨y, hy, rfl⟩
  refine ⟨_, SymbolicState.functional_of_map hFormulas _ hMem, fun ρ ρ' h h' => ?_⟩
  exact Expr.get_eq_of_holds_equal_const h h'

namespace Unrolling

variable {σ : Type} {solver : Solver σ} {system : System} {u v : Unrolling} {q : SymbolicState}
  {t : Nat}

/-- What an initial state is: the default state, or what a constructor that is enabled makes of it
as a transition with a number below `t`. -/
inductive Initial (solver : Solver σ) (system : System) (t : Nat) (q : SymbolicState) : Prop where
  | default (hNone : system.constructors = [])
      (hFormulas : q.formulas = (system.defaultState 1).formulas) (hHistory : q.history = [])
  | built {c : Label} {n : Nat} (hc : c ∈ system.constructors) (hnoError : c.isError = false)
      (hInit : system.initialValues = [])
      (hGuard : solver.Answers (c.guardOn (system.defaultState 1).toExpr) .sat) (hn : n < t)
      (hFormulas : q.formulas = (c.applyTo (system.defaultState 1) n 0).formulas)
      (hHistory : q.history = [c.name])

/-- An initial state stays one, whatever links it gets. -/
theorem Initial.bare {q' : SymbolicState} {t' : Nat} (h : Initial solver system t q)
    (hBare : q'.bare = q.bare) (ht : t ≤ t') : Initial solver system t' q' := by
  have hSame := SymbolicState.formulas_of_bare hBare
  have hPath := SymbolicState.history_of_bare hBare
  cases h with
  | default hNone hFormulas hHistory =>
    exact .default hNone (hSame.trans hFormulas) (hPath.trans hHistory)
  | built hc hnoError hInit hGuard hn hFormulas hHistory =>
    exact .built hc hnoError hInit hGuard (by omega) (hSame.trans hFormulas) (hPath.trans hHistory)

/-! ## Sweeps of constructors -/

/-- While constructors are fired: the default state is there as it was, and what is new has been
made of it. -/
structure Building (solver : Solver σ) (system : System) (u : Unrolling) : Prop where
  wellFormed : u.WellFormed
  one_lt : 1 < u.states.size
  default : (u.state 1).bare = (system.defaultState 1).bare
  fresh : ∀ id ∈ (u.layer 0).fresh,
    id ≠ errorId ∧ Initial solver system u.nextTransition (u.state id)

/-- A constructor builds an initial state. -/
theorem Firing.building {c : Label} (h : Firing solver.Answers 0 1 c u v)
    (hu : Building solver system u) (hc : c ∈ system.constructors) (hnoError : c.isError = false)
    (hInit : system.initialValues = []) : Building solver system v := by
  have hGrows := h.grows hu.wellFormed
  have hKept : ∀ id ∈ (u.layer 0).fresh,
      id ≠ errorId ∧ Initial solver system v.nextTransition (v.state id) := by
    intro id hid
    obtain ⟨hne, hInitial⟩ := hu.fresh id hid
    have hlt := hu.wellFormed.listed 0 id (hu.wellFormed.fresh 0 hid)
    exact ⟨hne, hInitial.bare (hGrows.bare id hlt hne) hGrows.nextTransition_le⟩
  refine ⟨h.wellFormed hu.wellFormed, Nat.lt_of_lt_of_le hu.one_lt hGrows.size,
    (hGrows.bare 1 hu.one_lt Nat.one_ne_zero).trans hu.default, fun id hid => ?_⟩
  cases h with
  | disabled => exact hKept id hid
  | failed _ hError => simp [hnoError] at hError
  | succeeded new hGuard =>
    -- the only new state is the successor that the constructor has made
    by_cases hOld : id ∈ (u.layer 0).fresh
    · exact hKept id hOld
    · obtain rfl : id = u.states.size := by
        have hid_successor : (u.successor c 1).id = u.states.size := rfl
        rw [layer_enterSuccessor] at hid
        grind
      have hFormulas := SymbolicState.formulas_of_bare hu.default
      have hBare := bare_entered u c 1 0 new
      refine ⟨Nat.ne_of_gt hu.wellFormed.nonempty, .built hc hnoError hInit ?_
        (n := u.nextTransition) ?_ ?_ ?_⟩
      · rwa [SymbolicState.toExpr, hFormulas] at hGuard
      · simp [nextTransition, transitions_enterSuccessor]
      · rw [formulas_entered]
        exact Label.formulas_applyTo_congr hFormulas _ _ _
      · have hNil : (u.state 1).history = [] := by
          rw [SymbolicState.history_of_bare hu.default, System.defaultState_eq]
        rw [SymbolicState.history_of_bare hBare]
        show (u.state 1).history ++ [c.name] = [c.name]
        rw [hNil, List.nil_append]

/-- **Initial states.** Where no constructor is an error label, every initial state of an unrolling
that has been started is the default state or has been made of it by a constructor. -/
theorem Starting.initial (h : Starting solver.Answers { system := system } u)
    (hApart : ∀ c ∈ system.constructors, c.isError = false) :
    ∀ q ∈ u.initialStates, q.isError = false ∧ Initial solver system u.nextTransition q := by
  intro q hq
  obtain ⟨k, hk, rfl⟩ := List.mem_map.mp hq
  cases h with
  | already hStarted => cases hStarted
  | default _ hNone =>
    obtain rfl : k = 1 := List.mem_singleton.mp hk
    have hState : (startedByDefault { system := system }).state 1 = system.defaultState 1 := rfl
    rw [hState]
    refine ⟨?_, .default hNone rfl ?_⟩ <;> rw [System.defaultState_eq]
  | @built _ _ hInit v hSweep =>
    have hwf := (orderly_unstarted system).wellFormed.withDefault.modifyLayer_id 0
    have hOpened : Building solver system ((withDefault { system := system }).modifyLayer 0 id) :=
      ⟨hwf, Nat.lt_succ_self 1, rfl, fun _ hNone => by
        rw [layer_modifyLayer_id] at hNone
        cases hNone⟩
    -- the invariant holds before the first constructor, and each one keeps it
    have hBuilt := (hSweep.keeps (Building solver system) (fun _ _ => True)
      (fun task hTask u v hu hFire => ?_) hOpened).1
    · obtain ⟨hne, hInitial⟩ := hBuilt.fresh k hk
      have hlt := hBuilt.wellFormed.listed 0 k (hBuilt.wellFormed.fresh 0 hk)
      exact ⟨hBuilt.wellFormed.noError k hlt hne, hInitial⟩
    · obtain ⟨c, hc, rfl⟩ := List.mem_map.mp hTask
      exact ⟨hFire.building hu hc (hApart c hc) hInit, trivial, fun _ _ => trivial⟩

/-! ## What initial states describe -/

/-- An initial state describes only values that executions start with. -/
theorem Initial.starts [Reals] (h : Initial solver system t q) (hSystem : system.Hygienic)
    (hSat : ∀ e memory, (solver.decide e memory).1 = .sat → ∃ ρ, e.holds ρ = true) {ν : Environment}
    (hν : q.Describes system.stateVariables ν) : system.Starts q.history ν := by
  have hScoped := hSystem.toWellScoped
  cases h with
  | default hNone hFormulas hHistory =>
    rw [hHistory]
    rw [SymbolicState.describes_of_formulas_eq hFormulas] at hν
    exact .default hNone (hScoped.isDefault_of_describes hν)
  | @built c n hc hnoError hInit hGuard _ hFormulas hHistory =>
    rw [hHistory]
    rw [SymbolicState.describes_of_formulas_eq hFormulas] at hν
    obtain ⟨τ, hτ, hHolds⟩ := hν
    obtain ⟨memory, hAnswer⟩ := hGuard
    obtain ⟨ρ, hρ⟩ := hSat _ _ hAnswer
    have hl := hSystem.label (List.mem_filter.mp hc).1
    -- there are no initial values, so the default state has one value for each variable
    obtain ⟨before, hBefore, hFires⟩ := hl.exists_fires_of_determined
      (hScoped.tidy_defaultState 1 n) (fun y hy => System.determined_defaultState hInit 1 hy) hρ 0
      hHolds
    rw [Label.guardOn, Expr.holds_and, Bool.and_eq_true] at hρ
    refine .built hc hnoError (hScoped.isDefault_of_describes ⟨ρ, .refl _ _, hρ.1⟩) ?_
    exact ⟨before, hBefore, hl.fires_congr (.refl _ _) hτ hFires⟩

end Unrolling

end StateSpace
