import StateSpace.Proofs.Expr.Truth
import StateSpace.Region

/-!
# What states describe

A symbolic state describes the values of the state variables that can be completed, by values of the
hidden variables, to values that satisfy all its formulas. The coverage of some states is true
exactly for the values that one of them describes, error states apart (`holds_coverage`), and a
state has values outside a formula exactly if it describes values that do not satisfy it.
-/

namespace StateSpace

open Environment

namespace SymbolicState

variable {xs : List Variable} {s s' : SymbolicState} {ν ν' : Environment}

/-- The formula listed with a variable is the formula of the variable. -/
def Functional (s : SymbolicState) : Prop :=
  ∀ entry ∈ s.formulas, s.get? entry.1 = some entry.2

theorem functional_of_formulas_eq (hs : s.Functional) (h : s'.formulas = s.formulas) :
    s'.Functional := by
  unfold Functional get? at hs ⊢
  rwa [h]

/-- Formulas listed by variables give each variable one formula. -/
theorem functional_of_map {f : Variable → Expr} (h : s.formulas = xs.map fun x => (x, f x)) :
    s.Functional := by
  have hLookup : ∀ x ∈ xs, (xs.map fun x => (x, f x)).lookup x = some (f x) := by
    clear h
    induction xs with
    | nil => simp
    | cons y ys ih =>
      intro x hx
      by_cases hxy : x = y
      · simp [hxy]
      · rw [List.map_cons, List.lookup_cons, beq_false_of_ne hxy]
        exact ih x ((List.mem_cons.mp hx).resolve_left hxy)
  intro entry hEntry
  rw [h] at hEntry
  obtain ⟨x, hx, rfl⟩ := List.mem_map.mp hEntry
  rw [get?, h]
  exact hLookup x hx

variable [Reals]

/-- The state has the given values of the state variables among its values. -/
def Describes (xs : List Variable) (s : SymbolicState) (ν : Environment) : Prop :=
  ∃ ρ, AgreeOn xs ρ ν ∧ s.toExpr.holds ρ = true

theorem holds_toExpr {ρ : Environment} :
    s.toExpr.holds ρ = true ↔ ∀ entry ∈ s.formulas, entry.2.holds ρ = true := by
  rw [toExpr, Expr.holds_conj, List.forall_mem_map]

/-- What is described depends on the values of the state variables alone. -/
theorem Describes.congr (h : s.Describes xs ν) (hν : AgreeOn xs ν ν') : s.Describes xs ν' := by
  obtain ⟨ρ, hAgree, hs⟩ := h
  exact ⟨ρ, hAgree.trans hν, hs⟩

/-- What is described depends on the formulas alone. -/
theorem describes_of_formulas_eq (h : s'.formulas = s.formulas) :
    s'.Describes xs ν ↔ s.Describes xs ν := by
  rw [Describes, Describes, toExpr, toExpr, h]

end SymbolicState

variable [Reals]

/-- The coverage of some states is what they describe, error states apart. -/
theorem holds_coverage {states : List SymbolicState} {xs : List Variable} {ν : Environment} :
    (coverage states xs).holds ν = true ↔
      ∃ s ∈ states, s.isError = false ∧ s.Describes xs ν := by
  simp only [coverage, Expr.holds_disj, List.mem_map, List.mem_filter, Bool.not_eq_true']
  constructor
  · rintro ⟨e, ⟨s, ⟨hMem, hError⟩, rfl⟩, he⟩
    exact ⟨s, hMem, hError, Expr.holds_projectOnto.mp he⟩
  · rintro ⟨s, hMem, hError, hs⟩
    exact ⟨_, ⟨s, ⟨hMem, hError⟩, rfl⟩, Expr.holds_projectOnto.mpr hs⟩

/-- Where a coverage is true depends on the values of the variables it ranges over. -/
theorem coverage_congr {states : List SymbolicState} {xs : List Variable} {ν ν' : Environment}
    (h : (coverage states xs).holds ν = true) (hν : AgreeOn xs ν ν') :
    (coverage states xs).holds ν' = true := by
  obtain ⟨s, hMem, hError, hs⟩ := holds_coverage.mp h
  exact holds_coverage.mpr ⟨s, hMem, hError, hs.congr hν⟩

/-- A state has values outside a coverage if it describes values that are not covered. -/
theorem exists_outside_iff {states : List SymbolicState} {xs : List Variable} {s : SymbolicState} :
    (∃ ρ, (s.outside (coverage states xs)).holds ρ = true) ↔
      ∃ ν, s.Describes xs ν ∧ (coverage states xs).holds ν = false := by
  simp only [SymbolicState.outside, Expr.holds_and, Expr.holds_not, Bool.and_eq_true,
    Bool.not_eq_true']
  constructor
  · rintro ⟨ρ, hs, hOutside⟩
    exact ⟨ρ, ⟨ρ, .refl _ _, hs⟩, hOutside⟩
  · rintro ⟨ν, ⟨ρ, hAgree, hs⟩, hOutside⟩
    refine ⟨ρ, hs, ?_⟩
    by_contra hCovered
    rw [coverage_congr (by simpa using hCovered) hAgree] at hOutside
    cases hOutside

/-- If no values lie outside a coverage, then every value that the state describes is covered. -/
theorem covered_of_outside {states : List SymbolicState} {xs : List Variable} {s : SymbolicState}
    (h : ∀ ρ, (s.outside (coverage states xs)).holds ρ = false) {ν : Environment}
    (hν : s.Describes xs ν) : (coverage states xs).holds ν = true := by
  by_contra hNot
  obtain ⟨ρ, hρ⟩ := exists_outside_iff.mpr ⟨ν, hν, by simpa using hNot⟩
  rw [h ρ] at hρ
  cases hρ

end StateSpace
