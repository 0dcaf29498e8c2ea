import StateSpace.Proofs.Solver.Reliable

/-!
# Formulas that are settled

A solver settles a formula if, whatever it has been asked before, it says whether the formula can be
satisfied and finds a model if it can. Questions about such a formula do not end an exploration
(`Explore.holds_of_settles`). The solver by diagrams settles every formula that has a circuit and is
about no more variables than there are slots (`Solver.byDiagram_settles`).

The formulas with a circuit over some variables are closed under all that states and coverages are
built with (`Expr.HasCircuit`).
-/

namespace StateSpace

open Circuit Diagram

/-! ## Formulas with circuits -/

namespace Expr

/-- A formula that can be turned into a circuit, with all its variables among the given ones. -/
structure HasCircuit (vs : Finset Variable) (e : Expr) : Prop where
  bool : e.type = .bool
  encodable : e.Encodable
  occurring : ∀ x ∈ e.occurring, x ∈ vs

instance (vs : Finset Variable) (e : Expr) : Decidable (e.HasCircuit vs) :=
  decidable_of_iff (e.type = .bool ∧ e.Encodable ∧ ∀ x ∈ e.occurring, x ∈ vs)
    ⟨fun ⟨hBool, hEncodable, hOccurring⟩ => ⟨hBool, hEncodable, hOccurring⟩,
      fun h => ⟨h.bool, h.encodable, h.occurring⟩⟩

namespace HasCircuit

variable {vs : Finset Variable} {e l r : Expr} {es : List Expr}

theorem truth (b : Bool) : (truth b).HasCircuit vs :=
  ⟨rfl, (encodable_leaf _ rfl).mpr rfl, by simp [Expr.truth, Expr.occurring]⟩

theorem not (h : e.HasCircuit vs) : (not e).HasCircuit vs := by
  refine ⟨rfl, (encodable_unary _ rfl).mpr ⟨?_, h.encodable⟩, h.occurring⟩
  simp [isObstacle, h.bool, ValueType.isBool]

theorem logical (op : Connective) (hl : l.HasCircuit vs) (hr : r.HasCircuit vs) :
    (logical op l r).HasCircuit vs := by
  refine ⟨rfl, (encodable_binary _ rfl).mpr ⟨?_, hl.encodable, hr.encodable⟩, ?_⟩
  · simp [isObstacle, hl.bool, hr.bool, ValueType.isBool]
  · exact List.forall_mem_append.mpr ⟨hl.occurring, hr.occurring⟩

theorem and (hl : l.HasCircuit vs) (hr : r.HasCircuit vs) : (l.and r).HasCircuit vs :=
  hl.logical .and hr

theorem or (hl : l.HasCircuit vs) (hr : r.HasCircuit vs) : (l.or r).HasCircuit vs :=
  hl.logical .or hr

theorem foldl {f : Expr → Expr → Expr}
    (hf : ∀ {l r}, l.HasCircuit vs → r.HasCircuit vs → (f l r).HasCircuit vs) (he : e.HasCircuit vs)
    (hes : ∀ e ∈ es, e.HasCircuit vs) : (es.foldl f e).HasCircuit vs := by
  induction es generalizing e with
  | nil => exact he
  | cons e' es ih =>
    obtain ⟨he', hes⟩ := List.forall_mem_cons.mp hes
    exact ih (hf he he') hes

theorem conj (h : ∀ e ∈ es, e.HasCircuit vs) : (conj es).HasCircuit vs := by
  cases es with
  | nil => exact truth true
  | cons e es =>
    obtain ⟨he, hes⟩ := List.forall_mem_cons.mp h
    exact foldl and he hes

theorem disj (h : ∀ e ∈ es, e.HasCircuit vs) : (disj es).HasCircuit vs := by
  cases es with
  | nil => exact truth false
  | cons e es =>
    obtain ⟨he, hes⟩ := List.forall_mem_cons.mp h
    exact foldl or he hes

/-- The variables that a projection quantifies are variables of the formula. -/
theorem projectOnto (h : e.HasCircuit vs) (xs : List Variable) :
    (e.projectOnto xs).HasCircuit vs := by
  unfold Expr.projectOnto closeOver
  split
  · exact h
  · have hFree : ∀ x ∈ e.freeVariables.filter (fun x => !xs.contains x), e.Free x := by
      intro x hx
      exact mem_freeVariables.mp (List.mem_filter.mp hx).1
    refine ⟨rfl, (encodable_unary _ rfl).mpr ⟨?_, h.encodable⟩, ?_⟩
    · rw [isObstacle, Bool.or_eq_false_iff, List.any_eq_false]
      refine ⟨fun x hx => ?_, by simp [h.bool, ValueType.isBool]⟩
      rw [Bool.not_eq_true]
      exact h.encodable _ (var_mem_parts (hFree x hx))
    · refine List.forall_mem_append.mpr ⟨fun x hx => ?_, h.occurring⟩
      exact h.occurring x (mem_occurring (hFree x hx))

end HasCircuit

end Expr

/-! ## Models from bits -/

/-- Every value is what some bits spell at the type of the variable. -/
def Valuation.Spelled (model : Valuation) : Prop :=
  ∀ (x : Variable) v, model[x]? = some v → ∃ n, v = .ofBits n x.type

namespace ByDiagram

variable {e : Expr} {s s' : Encoder}

/-- Values read off bits are what the bits spell. -/
theorem spelled_readModel {trueBits : List Nat} {xs : List Variable} {model model' : Valuation}
    (hModel : model.Spelled) (h : readModel trueBits xs model s = .ok model' s') :
    model'.Spelled := by
  induction xs generalizing model s with
  | nil =>
    cases h
    exact hModel
  | cons y ys ih =>
    simp only [readModel, Bind.bind, EStateM.bind] at h
    split at h
    · refine ih (fun x v hv => ?_) h
      rw [Std.TreeMap.getElem?_insert] at hv
      split at hv
      · next hxy =>
        cases hv
        rw [Std.LawfulEqCmp.compare_eq_iff_eq.mp hxy]
        exact ⟨_, rfl⟩
      · exact hModel x v hv
    · cases h

/-- So are the values of an answer. -/
theorem spelled_answerOf {answer : Answer} (h : answerOf e s = .ok answer s') :
    answer.model.Spelled := by
  have hEmpty : Valuation.Spelled {} := by simp [Valuation.Spelled]
  cases hRun : functionOf e s with
  | error cause s₁ =>
    rw [answerOf_eq_error hRun] at h
    cases h
  | ok f s₁ =>
    rw [answerOf_eq hRun] at h
    generalize s₁.diagram.satisfyingPath? f = path at h
    cases path with
    | none =>
      cases h
      exact hEmpty
    | some path =>
      simp only [Bind.bind, EStateM.bind] at h
      split at h
      · next hRead =>
        cases h
        exact spelled_readModel hEmpty hRead
      · cases h

end ByDiagram

/-! ## Settled questions -/

variable [Reals]

/-- Whatever its memory, the solver says whether a formula can be satisfied, and finds a model that
bits spell if it can. -/
structure Solver.Settles {σ : Type} (solver : Solver σ) (e : Expr) : Prop where
  decided : ∀ memory, (solver.decide e memory).1 = .sat ∧ (∃ ρ, e.holds ρ = true) ∨
    (solver.decide e memory).1 = .unsat ∧ ∀ ρ, e.holds ρ = false
  solved : ∀ memory, (solver.solve e memory).1.verdict = .sat ∧
      (solver.solve e memory).1.model.IsModel e ∧ (solver.solve e memory).1.model.Spelled ∨
    (solver.solve e memory).1.verdict = .unsat ∧ ∀ ρ, e.holds ρ = false

theorem Solver.Settles.exists_of_answers {σ : Type} {solver : Solver σ} {e : Expr}
    (h : solver.Settles e) (hSat : solver.Answers e .sat) : ∃ ρ, e.holds ρ = true := by
  obtain ⟨memory, hAnswer⟩ := hSat
  rcases h.decided memory with ⟨-, hSome⟩ | ⟨hUnsat, -⟩
  · exact hSome
  · rw [hAnswer] at hUnsat
    cases hUnsat

theorem Solver.Settles.not_exists_of_answers {σ : Type} {solver : Solver σ} {e : Expr}
    (h : solver.Settles e) (hUnsat : solver.Answers e .unsat) : ¬∃ ρ, e.holds ρ = true := by
  obtain ⟨memory, hAnswer⟩ := hUnsat
  rcases h.decided memory with ⟨hSat, -⟩ | ⟨-, hNone⟩
  · rw [hAnswer] at hSat
    cases hSat
  · simp [hNone]

/-- A settled question is answered, and only the memory of the solver changes. -/
theorem Explore.holds_of_settles {σ ω : Type} {env : Surroundings σ} {e : Expr}
    (h : env.solver.Settles e) (question : Question) (s : Session σ ω) :
    ∃ b memory, holds env question e s = .ok b { s with memory := memory } ∧
      (b = true ↔ ∃ ρ, e.holds ρ = true) := by
  have hRun : ∀ {verdict}, (env.solver.decide e s.memory).1 = verdict → Explore.decide env e s =
      .ok verdict { s with memory := (env.solver.decide e s.memory).2 } := by
    rintro _ rfl
    rfl
  rcases h.decided s.memory with ⟨hSat, hSome⟩ | ⟨hUnsat, hNone⟩
  · refine ⟨true, (env.solver.decide e s.memory).2, ?_, iff_of_true rfl hSome⟩
    rw [holds, bind_run_of_ok (hRun hSat)]
    rfl
  · refine ⟨false, (env.solver.decide e s.memory).2, ?_, by simp [hNone]⟩
    rw [holds, bind_run_of_ok (hRun hUnsat)]
    rfl

/-- The solver by diagrams settles the formulas with a circuit over at most `2 ^ 20` variables. -/
theorem Solver.byDiagram_settles {bits : Nat} (hBits : bits ≤ ComputedTable.maxBits)
    {vs : Finset Variable} (hvs : vs.card ≤ slotCount) {e : Expr} (he : e.HasCircuit vs) :
    (byDiagram bits).Settles e := by
  have hSpec := functionOf_encodes hvs he.occurring (sound_ofManager (sound_empty bits))
  obtain ⟨f, s, hRun⟩ := hSpec.exists_ok_iff.mpr ⟨ValueType.isBool_iff.mpr he.bool, he.encodable⟩
  obtain ⟨-, hg, hf⟩ := hSpec.of_eq_ok hRun
  have hZero := ByDiagram.eq_zero_iff hf hg.new hvs
    (fun x hx => he.occurring x (Expr.mem_occurring hx)) he.encodable
  -- both questions end with the verdict on the function of the formula
  have hDecide : ∀ tally, ((byDiagram bits).decide e tally).1 = ByDiagram.verdict f := by
    intro tally
    rw [byDiagram_decide_eq hBits, ByDiagram.onFresh, ByDiagram.freshEncoder,
      ByDiagram.verdictOf_eq_ok hRun]
    rfl
  obtain ⟨answer, hAnswer, hSame, hModel⟩ := ByDiagram.answerOf_eq_ok hRun hf hg.new he.encodable
  have hSolve : ∀ tally, ((byDiagram bits).solve e tally).1 = answer := by
    intro tally
    rw [byDiagram_solve_eq hBits, ByDiagram.onFresh, ByDiagram.freshEncoder, hAnswer]
    rfl
  constructor <;> intro tally
  · rw [hDecide]
    by_cases hf : f = .zero
    · exact .inr ⟨ByDiagram.verdict_eq_unsat.mpr hf, hZero.mp hf⟩
    · exact .inl ⟨ByDiagram.verdict_eq_sat.mpr hf, by simpa [hZero] using hf⟩
  · rw [hSolve]
    by_cases hf : f = .zero
    · exact .inr ⟨hSame.trans (ByDiagram.verdict_eq_unsat.mpr hf), hZero.mp hf⟩
    · have hSat := hSame.trans (ByDiagram.verdict_eq_sat.mpr hf)
      exact .inl ⟨hSat, hModel hSat, ByDiagram.spelled_answerOf hAnswer⟩

end StateSpace
