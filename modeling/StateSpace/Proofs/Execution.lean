import StateSpace.Execution
import StateSpace.Proofs.Coverage
import StateSpace.Proofs.Label.Scope

/-!
# Executions and the default state

Executions counted by their firings, and what the state before anything fired says: it describes the
default values (`System.describes_defaultState`), and nothing in it is hidden.
-/

namespace StateSpace

/-! ## Formulas with distinct keys -/

namespace Formulas

/-- Giving a listed variable another formula keeps the list of variables. -/
theorem keys_set {x : Variable} {e : Expr} {fs : Formulas} (h : x ∈ fs.map Prod.fst) :
    (set x e fs).map Prod.fst = fs.map Prod.fst := by
  induction fs with
  | nil => cases h
  | cons head rest ih =>
    obtain ⟨y, old⟩ := head
    by_cases hy : y = x
    · simp [set, hy]
    · have hRest : x ∈ rest.map Prod.fst := by simpa [Ne.symm hy] using h
      simp [set, hy, ih hRest]

/-- With distinct variables, an entry is what the lookup of its variable finds. -/
theorem lookup_of_mem {fs : Formulas} (h : (fs.map Prod.fst).Nodup) {entry : Variable × Expr}
    (hEntry : entry ∈ fs) : fs.lookup entry.1 = some entry.2 := by
  induction fs with
  | nil => cases hEntry
  | cons head rest ih =>
    obtain ⟨hHead, hRest⟩ := List.nodup_cons.mp h
    rcases List.mem_cons.mp hEntry with rfl | hMem
    · exact List.lookup_cons_self
    · have hne : entry.1 ≠ head.1 := fun heq => hHead (heq ▸ List.mem_map_of_mem hMem)
      rw [List.lookup_cons, beq_false_of_ne hne]
      exact ih hRest hMem

end Formulas

namespace System

variable {s : System} {n : Nat} {ν : Environment}

/-- The values reached by a number of firings of labels, neither constructors nor error labels. -/
inductive ReachesIn [Reals] (s : System) : Nat → Environment → Prop where
  | start {history : List String} {ν : Environment} (hStart : s.Starts history ν) : ReachesIn s 0 ν
  | fire {n : Nat} {ν ν' : Environment} {l : Label} (hBefore : ReachesIn s n ν)
      (hLabel : l ∈ s.labels) (hNoConstructor : l.isConstructor = false)
      (hNoError : l.isError = false) (hLeads : s.Leads l ν ν') : ReachesIn s (n + 1) ν'

/-! ## The default state -/

/-- The formulas of the default state: default values, overridden by the initial values given. -/
theorem formulas_defaultState (s : System) (id : Nat) :
    (s.defaultState id).formulas =
      s.initialValues.foldl (fun fs entry => Formulas.set entry.1 entry.2 fs)
      (s.stateVariables.map fun x => (x, .equal (.var x) (.const (.default x.type)))) := by
  suffices h : ∀ (entries : Formulas) (state : SymbolicState),
      (entries.foldl (fun state entry => state.put entry.1 entry.2) state).formulas =
        entries.foldl (fun fs entry => Formulas.set entry.1 entry.2 fs) state.formulas from
    h s.initialValues (.initial id s.stateVariables)
  intro entries
  induction entries with
  | nil =>
    intro state
    rfl
  | cons entry entries ih =>
    intro state
    exact ih (state.put entry.1 entry.2)

/-- The default state is a state of the given identity without links and history. -/
theorem defaultState_eq (s : System) (id : Nat) :
    s.defaultState id = { id := id, formulas := (s.defaultState id).formulas } := by
  suffices h : ∀ (entries : Formulas) (state : SymbolicState),
      entries.foldl (fun state entry => state.put entry.1 entry.2) state =
        { state with
          formulas :=
            (entries.foldl (fun state entry => state.put entry.1 entry.2) state).formulas } from
    h s.initialValues (.initial id s.stateVariables)
  intro entries
  induction entries with
  | nil =>
    intro state
    rfl
  | cons entry entries ih =>
    intro state
    exact ih (state.put entry.1 entry.2)

theorem describes_defaultState [Reals] (id : Nat) (h : s.IsDefault ν) :
    (s.defaultState id).Describes s.stateVariables ν := by
  refine ⟨ν, .refl _ _, ?_⟩
  have hSame : (s.defaultState id).toExpr = (s.defaultState 0).toExpr := by
    rw [SymbolicState.toExpr, SymbolicState.toExpr, formulas_defaultState, formulas_defaultState]
  rw [hSame]
  exact h

/-- An entry of the default state is a default value or an initial value given. -/
theorem mem_formulas_defaultState {id : Nat} {entry : Variable × Expr}
    (h : entry ∈ (s.defaultState id).formulas) :
    (∃ x ∈ s.stateVariables, entry = (x, .equal (.var x) (.const (.default x.type)))) ∨
      entry ∈ s.initialValues := by
  rw [formulas_defaultState] at h
  suffices hFold : ∀ (entries fs : Formulas),
      entry ∈ entries.foldl (fun fs entry => Formulas.set entry.1 entry.2 fs) fs →
        entry ∈ fs ∨ entry ∈ entries by
    refine (hFold _ _ h).imp_left fun hMem => ?_
    obtain ⟨x, hx, heq⟩ := List.mem_map.mp hMem
    exact ⟨x, hx, heq.symm⟩
  intro entries
  induction entries with
  | nil =>
    intro fs hMem
    exact .inl hMem
  | cons head entries ih =>
    intro fs hMem
    rcases ih _ hMem with hSet | hLater
    · rcases Formulas.mem_set hSet with rfl | hOld
      · exact .inr List.mem_cons_self
      · exact .inl hOld
    · exact .inr (List.mem_cons_of_mem _ hLater)

theorem WellScoped.within_defaultState (hs : s.WellScoped) {id : Nat} {entry : Variable × Expr}
    (h : entry ∈ (s.defaultState id).formulas) :
    entry.1 ∈ s.stateVariables ∧ entry.2.Within s.stateVariables := by
  rcases mem_formulas_defaultState h with ⟨x, hx, rfl⟩ | hInit
  · exact ⟨hx, (Expr.within_var hx).equal (Expr.within_const _)⟩
  · exact hs.initialValues entry hInit

theorem WellScoped.tidy_defaultState (hs : s.WellScoped) (id t : Nat) :
    (s.defaultState id).Tidy s.stateVariables t where
  keys _ h := (hs.within_defaultState h).1
  quantifierFree _ h := (hs.within_defaultState h).2.quantifierFree
  known _ h y hy := .inl ((hs.within_defaultState h).2.inScope y hy)

/-- The default state has one formula for each state variable, in their order. -/
theorem WellScoped.keys_defaultState (hs : s.WellScoped) (id : Nat) :
    (s.defaultState id).formulas.map Prod.fst = s.stateVariables := by
  rw [formulas_defaultState]
  suffices h : ∀ (entries fs : Formulas), fs.map Prod.fst = s.stateVariables →
      (∀ entry ∈ entries, entry.1 ∈ s.stateVariables) →
      (entries.foldl (fun fs entry => Formulas.set entry.1 entry.2 fs) fs).map Prod.fst =
        s.stateVariables from
    h s.initialValues _ (by simp [Function.comp_def])
      fun entry hEntry => (hs.initialValues entry hEntry).1
  intro entries
  induction entries with
  | nil =>
    intro fs hfs _
    exact hfs
  | cons head entries ih =>
    intro fs hfs hEntries
    obtain ⟨hHead, hRest⟩ := List.forall_mem_cons.mp hEntries
    refine ih _ ?_ hRest
    rw [Formulas.keys_set (hfs ▸ hHead), hfs]

theorem WellScoped.functional_defaultState (hs : s.WellScoped) (id : Nat) :
    (s.defaultState id).Functional := fun _ hEntry =>
  Formulas.lookup_of_mem (hs.keys_defaultState id ▸ hs.nodup) hEntry

/-- What the default state describes are default values. -/
theorem WellScoped.isDefault_of_describes [Reals] (hs : s.WellScoped) {id : Nat}
    (h : (s.defaultState id).Describes s.stateVariables ν) : s.IsDefault ν := by
  obtain ⟨ρ, hρ, hHolds⟩ := h
  rw [IsDefault, SymbolicState.holds_toExpr]
  intro entry hEntry
  have hSame : entry ∈ (s.defaultState id).formulas := by
    rwa [formulas_defaultState] at hEntry ⊢
  rw [← SymbolicState.holds_toExpr.mp hHolds entry hSame]
  exact Expr.holds_congr fun y hy => (hρ y ((hs.within_defaultState hSame).2.inScope y hy)).symm

end System

end StateSpace
