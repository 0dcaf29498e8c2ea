import StateSpace.Proofs.Region
import StateSpace.Proofs.Solver.Settled

/-!
# The test for new values is exact

A state is tested against a coverage by asking for values of the state outside of it. The hidden
variables of the covering states are quantified, those of the tested state are free, so it does not
matter whether they have names in common: the state passes exactly if some of its values have a
visible part that none of the covering states describes (`isNew_of_settles`). Hence what a
difference of regions leaves out is described already (`Region.describes_difference_iff`).

The questions are settled if the formulas of all states involved have circuits over at most `2 ^ 20`
variables (`SymbolicState.Testable`), since the query is built from these formulas alone.
-/

namespace StateSpace

open Circuit Diagram Environment Explore

variable {σ ω : Type} {env : Surroundings σ} {xs : List Variable} {states : List SymbolicState}
  {c q : SymbolicState}

namespace SymbolicState

/-! ## New values -/

/-- Some values satisfy the formulas of the state, and none of the other states, error states apart,
describes their visible part. -/
def BringsNew [Reals] (xs : List Variable) (states : List SymbolicState) (c : SymbolicState) :
    Prop :=
  ∃ ρ, (∀ entry ∈ c.formulas, entry.2.holds ρ = true) ∧
    ∀ q ∈ states, q.isError = false → ¬q.Describes xs ρ

theorem exists_outside_coverage_iff [Reals] :
    (∃ ρ, (c.outside (coverage states xs)).holds ρ = true) ↔ c.BringsNew xs states := by
  refine exists_congr fun ρ => ?_
  rw [outside, Expr.holds_and, Expr.holds_not, Bool.and_eq_true,
    Bool.not_eq_true', ← Bool.not_eq_true, holds_toExpr, holds_coverage]
  simp only [not_exists, not_and]

theorem not_bringsNew_of_mem [Reals] (hq : q ∈ states) (hError : q.isError = false) :
    ¬q.BringsNew xs states := by
  rintro ⟨ρ, hρ, hNone⟩
  exact hNone q hq hError ⟨ρ, .refl xs ρ, holds_toExpr.mpr hρ⟩

/-- Whatever a state without new values describes, another state describes. -/
theorem exists_describes_of_not_bringsNew [Reals] (h : ¬c.BringsNew xs states) {ν : Environment}
    (hν : c.Describes xs ν) : ∃ q ∈ states, q.Describes xs ν := by
  obtain ⟨ρ, hAgree, hρ⟩ := hν
  by_contra hNone
  refine h ⟨ρ, holds_toExpr.mp hρ, fun q hq _ hDescribes => hNone ⟨q, hq, hDescribes.congr hAgree⟩⟩

/-! ## Testable states -/

/-- All formulas of the state have circuits over the given variables. -/
def HasCircuits (vs : Finset Variable) (s : SymbolicState) : Prop :=
  ∀ entry ∈ s.formulas, entry.2.HasCircuit vs

instance (vs : Finset Variable) (s : SymbolicState) : Decidable (s.HasCircuits vs) :=
  inferInstanceAs (Decidable (∀ entry ∈ s.formulas, entry.2.HasCircuit vs))

theorem HasCircuits.toExpr {vs : Finset Variable} (h : q.HasCircuits vs) : q.toExpr.HasCircuit vs :=
  .conj (List.forall_mem_map.mpr h)

/-- The formulas of the state, and of the others that are no error states, have circuits over at
most `2 ^ 20` variables. -/
def Testable (states : List SymbolicState) (c : SymbolicState) : Prop :=
  ∃ vs : Finset Variable, vs.card ≤ slotCount ∧ c.HasCircuits vs ∧
    ∀ q ∈ states, q.isError = false → q.HasCircuits vs

/-- The query of a test is settled. -/
theorem Testable.settles [Reals] {bits : Nat} (hBits : bits ≤ ComputedTable.maxBits)
    (h : c.Testable states)
    (xs : List Variable) : (Solver.byDiagram bits).Settles (c.outside (coverage states xs)) := by
  obtain ⟨vs, hvs, hc, hStates⟩ := h
  have hCoverage : (coverage states xs).HasCircuit vs := by
    refine .disj fun e he => ?_
    obtain ⟨q, hq, rfl⟩ := List.mem_map.mp he
    obtain ⟨hq, hError⟩ := List.mem_filter.mp hq
    exact (hStates q hq (by simpa using hError)).toExpr.projectOnto xs
  exact Solver.byDiagram_settles hBits hvs (hc.toExpr.and hCoverage.not)

end SymbolicState

/-! ## Tests and differences -/

section Meaning

variable [Reals]

/-- A settled test tells whether a state has new values. -/
theorem isNew_of_settles (h : env.solver.Settles (c.outside (coverage states xs)))
    (s : Session σ ω) :
    ∃ new memory, isNew env c (coverage states xs) s = .ok new { s with memory := memory } ∧
      (new = true ↔ c.BringsNew xs states) := by
  obtain ⟨new, memory, hRun, hNew⟩ := holds_of_settles h (.novelty c.id) s
  exact ⟨new, memory, hRun, hNew.trans SymbolicState.exists_outside_coverage_iff⟩

namespace Region

/-- Where all tests are settled, the states with new values are found, and nothing else happens. -/
theorem uncovered_eq_ok {entries : List (String × SymbolicState)}
    (h : ∀ entry ∈ entries, env.solver.Settles (entry.2.outside (coverage states xs)))
    (s : Session σ ω) :
    ∃ added memory, uncovered env (coverage states xs) entries s =
      .ok added { s with memory := memory } := by
  induction entries generalizing s with
  | nil => exact ⟨{}, s.memory, rfl⟩
  | cons entry rest ih =>
    obtain ⟨hEntry, hRest⟩ := List.forall_mem_cons.mp h
    obtain ⟨new, memory, hRun, -⟩ := isNew_of_settles hEntry s
    obtain ⟨added, memory', hAdded⟩ := ih hRest { s with memory := memory }
    rw [uncovered, bind_run_of_ok hRun]
    cases new with
    | true =>
      refine ⟨added.insert entry.1 entry.2, memory', ?_⟩
      rw [if_pos rfl, bind_run_of_ok hAdded]
      rfl
    | false => exact ⟨added, memory', hAdded⟩

variable {r reached : Region SymbolicState}

/-- Where all tests are settled, a difference holds exactly the states with new values. -/
theorem difference_of_settles
    (h : ∀ q ∈ r.states, env.solver.Settles (q.outside (reached.covered xs))) (s : Session σ ω) :
    ∃ added memory, difference env r reached xs s = .ok added { s with memory := memory } ∧
      ∀ (name : String) q, added[name]? = some q ↔
        r[name]? = some q ∧ q.BringsNew xs reached.states := by
  have hEntries : ∀ entry ∈ r.toList,
    env.solver.Settles (entry.2.outside (reached.covered xs)) := by
    intro entry hEntry
    exact h entry.2 (states_eq r ▸ List.mem_map_of_mem hEntry)
  obtain ⟨added, memory, hRun⟩ := uncovered_eq_ok hEntries s
  refine ⟨added, memory, hRun, fun name q => ?_⟩
  obtain ⟨-, hAdded, hAll⟩ := (ensures_difference env r reached xs).of_eq_ok hRun
  have hIff : (∃ ρ, (q.outside (reached.covered xs)).holds ρ = true) ↔
    q.BringsNew xs reached.states :=
    SymbolicState.exists_outside_coverage_iff
  rw [← hIff]
  constructor
  · intro hq
    obtain ⟨hr, hSat⟩ := hAdded name q hq
    exact ⟨hr, (h q (mem_states.mpr ⟨name, hr⟩)).exists_of_answers hSat⟩
  · rintro ⟨hr, hSome⟩
    refine (hAll name q hr).resolve_right fun hUnsat => ?_
    exact (h q (mem_states.mpr ⟨name, hr⟩)).not_exists_of_answers hUnsat hSome

/-- What a difference leaves out is described already. -/
theorem describes_difference_iff {added : Region SymbolicState}
    (h : ∀ (name : String) q, added[name]? = some q ↔
      r[name]? = some q ∧ q.BringsNew xs reached.states) {ν : Environment} :
    (∃ q ∈ reached.states ++ added.states, q.Describes xs ν) ↔
      ∃ q ∈ reached.states ++ r.states, q.Describes xs ν := by
  simp only [List.mem_append, or_and_right, exists_or]
  constructor
  · refine Or.imp_right ?_
    rintro ⟨q, hq, hν⟩
    obtain ⟨name, hName⟩ := mem_states.mp hq
    exact ⟨q, mem_states.mpr ⟨name, ((h name q).mp hName).1⟩, hν⟩
  · rintro (hReached | ⟨q, hq, hν⟩)
    · exact .inl hReached
    · by_cases hNew : q.BringsNew xs reached.states
      · obtain ⟨name, hName⟩ := mem_states.mp hq
        exact .inr ⟨q, mem_states.mpr ⟨name, (h name q).mpr ⟨hName, hNew⟩⟩, hν⟩
      · exact .inl (SymbolicState.exists_describes_of_not_bringsNew hNew hν)

end Region

/-- **The test for new values is exact.** With the solver by diagrams, and formulas that have
circuits over at most `2 ^ 20` variables: a state passes the test against some states exactly if
some values satisfy its formulas and none of the states, error states apart, describes their visible
part, whatever names the hidden variables have. So a state passes no test against states that it is
one of; and a difference returns just the states with new values, which together with the region
subtracted describe what both regions describe. -/
theorem novelty_exact {ω : Type} {bits : Nat} (hBits : bits ≤ ComputedTable.maxBits)
    {env : Surroundings Tally} (hEnv : env.solver = .byDiagram bits) (xs : List Variable)
    (s : Session Tally ω) :
    (∀ (states : List SymbolicState) (c : SymbolicState), c.Testable states →
      ∃ new memory, isNew env c (coverage states xs) s = .ok new { s with memory := memory } ∧
        (new = true ↔ ∃ ρ, (∀ entry ∈ c.formulas, entry.2.holds ρ = true) ∧
          ∀ q ∈ states, q.isError = false → ¬q.Describes xs ρ)) ∧
    (∀ (states : List SymbolicState), ∀ q ∈ states, q.isError = false → q.Testable states →
      ∃ memory, isNew env q (coverage states xs) s = .ok false { s with memory := memory }) ∧
    ∀ image reached : Region SymbolicState, (∀ q ∈ image.states, q.Testable reached.states) →
      ∃ added memory, Region.difference env image reached xs s =
          .ok added { s with memory := memory } ∧
        (∀ (name : String) q, added[name]? = some q ↔
          image[name]? = some q ∧ q.BringsNew xs reached.states) ∧
        ∀ ν, (∃ q ∈ reached.states ++ added.states, q.Describes xs ν) ↔
          ∃ q ∈ reached.states ++ image.states, q.Describes xs ν := by
  have hSettles : ∀ {states : List SymbolicState} {c : SymbolicState}, c.Testable states →
      env.solver.Settles (c.outside (coverage states xs)) :=
    fun h => hEnv ▸ h.settles hBits xs
  refine ⟨fun states c hc => isNew_of_settles (hSettles hc) s, fun states q hq hError hTestable =>
    ?_, fun image reached hTestable => ?_⟩
  · obtain ⟨new, memory, hRun, hNew⟩ := isNew_of_settles (hSettles hTestable) s
    obtain rfl : new = false := by
      rw [← Bool.not_eq_true, hNew]
      exact SymbolicState.not_bringsNew_of_mem hq hError
    exact ⟨memory, hRun⟩
  · obtain ⟨added, memory, hRun, hAdded⟩ :=
      Region.difference_of_settles (fun q hq => hSettles (hTestable q hq)) s
    exact ⟨added, memory, hRun, hAdded, fun ν => Region.describes_difference_iff hAdded⟩

/-- The visible and the hidden variable are both true. -/
def bothOn : SymbolicState where
  id := 1
  formulas := [(⟨"x", .bool⟩, .and (.var ⟨"x", .bool⟩) (.var ⟨"h", .bool⟩))]

/-- The visible variable is the opposite of the hidden one, which has the same name as before. -/
def flipped : SymbolicState where
  id := 2
  formulas := [(⟨"x", .bool⟩, .logical .xor (.var ⟨"x", .bool⟩) (.var ⟨"h", .bool⟩))]

end Meaning

open scoped Reals

/-- The second state is new to the first one and the first one is not, in tests and in a
difference. -/
theorem novelty_exact_flipped :
    let env : Surroundings Tally := { solver := .byDiagram 4 }
    let s : Session Tally Unit := { memory := {}, work := () }
    let xs : List Variable := [⟨"x", .bool⟩]
    let reached : Region SymbolicState := .ofList [("s_0", .error 0), ("s_1", bothOn)]
    let image : Region SymbolicState := .ofList [("s_2", flipped), ("s_3", bothOn)]
    (∀ q ∈ image.states, q.Testable reached.states) ∧
    (∃ memory, isNew env flipped (coverage reached.states xs) s =
      .ok true { s with memory := memory }) ∧
    (∃ memory, isNew env bothOn (coverage reached.states xs) s =
      .ok false { s with memory := memory }) ∧
    ∃ added memory, Region.difference env image reached xs s =
      .ok added { s with memory := memory } ∧
      added["s_2"]? = some flipped ∧ added["s_3"]? = none := by
  intro env s xs reached image
  have hReached : reached.states = [.error 0, bothOn] := by decide +kernel
  have hImage : image.states = [flipped, bothOn] := by decide +kernel
  have hTestable : ∀ q ∈ image.states, q.Testable reached.states := by
    intro q hq
    rw [hImage] at hq
    refine ⟨{⟨"x", .bool⟩, ⟨"h", .bool⟩}, by decide, ?_, ?_⟩
    · revert q
      decide
    · rw [hReached]
      decide
  -- with the hidden variable on, the visible one is off
  have hFlipped : flipped.BringsNew xs reached.states := by
    refine ⟨fun x => if x.name = "h" then 1 else 0, by decide, ?_⟩
    rw [hReached]
    rintro q hq hError ⟨ρ, hAgree, hHolds⟩
    rcases List.mem_pair.mp hq with rfl | rfl
    · cases hError
    · have hBoth : ((Expr.var ⟨"x", .bool⟩).and (.var ⟨"h", .bool⟩)).holds ρ = true := hHolds
      rw [Expr.holds_and, Bool.and_eq_true] at hBoth
      exact of_decide_eq_true hBoth.1 (hAgree _ List.mem_cons_self)
  have hBothOn : ¬bothOn.BringsNew xs reached.states :=
    SymbolicState.not_bringsNew_of_mem (by simp [hReached]) rfl
  obtain ⟨hNew, hKnown, hDifference⟩ := novelty_exact (by decide : 4 ≤ ComputedTable.maxBits)
    (rfl : env.solver = .byDiagram 4) xs s
  refine ⟨hTestable, ?_, ?_, ?_⟩
  · obtain ⟨new, memory, hRun, hIff⟩ := hNew _ flipped (hTestable _ (by simp [hImage]))
    rw [hIff.mpr hFlipped] at hRun
    exact ⟨memory, hRun⟩
  · exact hKnown _ bothOn (by simp [hReached]) rfl (hTestable _ (by simp [hImage]))
  · obtain ⟨added, memory, hRun, hAdded, -⟩ := hDifference image reached hTestable
    refine ⟨added, memory, hRun, (hAdded _ _).mpr ⟨by decide +kernel, hFlipped⟩, ?_⟩
    rw [Option.eq_none_iff_forall_not_mem]
    intro q hq
    obtain ⟨hGet, hq⟩ := (hAdded _ _).mp hq
    have hSame : image["s_3"]? = some bothOn := by decide +kernel
    rw [hGet] at hSame
    cases hSame
    exact hBothOn hq

end StateSpace
