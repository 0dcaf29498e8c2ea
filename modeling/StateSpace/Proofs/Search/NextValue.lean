import StateSpace.Proofs.Solver.Settled
import StateSpace.Search.Strategy

/-!
# Simplification keeps the next value

A formula is replaced by an equation of the next value with a constant exactly if it determines that
value: it can be satisfied, mentions the next value, and leaves it no other one
(`Search.Determines`). In every other case it is kept. Either way the next value can be what it
could be before (`Search.KeepsNextValue`), and with a solver that settles both questions the
simplification returns (`Search.simplifyFormula_of_settles`).

The constant is rendered from the bits of a model, so the equation speaks of the number that the
bits spell at the type of the variable, with its sign if it has one (`Expr.holds_equal_ofBits`).
-/

namespace StateSpace

open Circuit Diagram Environment Explore

/-! ## Equations with constants -/

theorem Value.ofBits_inj [Reals] {t : ValueType} {m n : Nat} :
    ofBits m t = ofBits n t ↔ (ofBits m t).number = (ofBits n t).number := by
  cases t with
  | bool =>
    cases hm : m % 2 == 1 <;> cases hn : n % 2 == 1 <;>
      simp [ofBits, number, truthValue, hm, hn]
  | signed w | unsigned w | real p => simp [ofBits, ofInt, number]

namespace Expr

variable {x : Variable} {ρ : Environment}

/-- An equation with a constant from bits is true for the number that the bits spell. -/
theorem holds_equal_ofBits [Reals] (hReal : x.type.isReal = false) (n : Nat) :
    (equal (var x) (const (.ofBits n x.type))).holds ρ = true ↔
      ρ.get x = (Value.ofBits n x.type).number := by
  refine holds_equal_const (Value.type_ofBits n x.type) ?_
  rw [Value.number_ofBits, ValueType.hold_eq_wrap hReal]
  exact x.type.fits_wrap n

/-- The equation of a variable with a constant of its type has a circuit. -/
theorem HasCircuit.equal_ofBits {vs : Finset Variable} (hx : x ∈ vs) (hReal : x.type.isReal = false)
    (n : Nat) : (equal (var x) (const (.ofBits n x.type))).HasCircuit vs := by
  have hType : (const (.ofBits n x.type)).type = x.type := Value.type_ofBits n x.type
  have hVar : (var x).Encodable := (encodable_leaf _ rfl).mpr hReal
  have hConst : (const (.ofBits n x.type)).Encodable := by
    refine (encodable_leaf _ rfl).mpr ?_
    cases hxt : x.type with
    | bool => rfl
    | signed w | unsigned w => rfl
    | real p => simp [hxt, ValueType.isReal] at hReal
  have hOccurring : ∀ y ∈ [x], y ∈ vs := List.forall_mem_singleton.mpr hx
  unfold equal
  split
  · next hBool =>
    exact .logical .equiv ⟨hBool, hVar, hOccurring⟩ ⟨hType.trans hBool, hConst,
      List.forall_mem_nil _⟩
  · refine ⟨rfl, (encodable_binary _ rfl).mpr ⟨?_, hVar, hConst⟩, hOccurring⟩
    rw [isObstacle, hType]
    simp [type]

end Expr

namespace Search

variable {x : Variable} {formula result : Expr} {k : Nat}

/-! ## Formulas that determine the next value -/

/-- The equation of the next value of a variable with the value that some bits spell. -/
def pin (x : Variable) (k : Nat) : Expr :=
  .equal (.var x.primed) (.const (.ofBits k x.type))

theorem mem_freeVariables_pin (x : Variable) (k : Nat) : x.primed ∈ (pin x k).freeVariables := by
  rw [Expr.mem_freeVariables]
  unfold pin Expr.equal
  split <;> exact .inl rfl

section NextValue

variable [Reals]

theorem holds_pin (hReal : x.type.isReal = false) {ρ : Environment} :
    (pin x k).holds ρ = true ↔ ρ.get x.primed = (Value.ofBits k x.type).number :=
  Expr.holds_equal_ofBits (x := x.primed) hReal k

/-- Some values make the equation true. -/
theorem exists_holds_pin (hReal : x.type.isReal = false) (k : Nat) :
    ∃ ρ, (pin x k).holds ρ = true := by
  refine ⟨fun _ => k, (holds_pin hReal).mpr ?_⟩
  rw [Value.number_ofBits]
  exact ValueType.hold_eq_wrap hReal k

/-- The formula can be satisfied, is about the next value, and leaves it the one that some bits
spell. -/
def Determines (x : Variable) (formula : Expr) (k : Nat) : Prop :=
  (∃ ρ, formula.holds ρ = true) ∧ x.primed ∈ formula.freeVariables ∧
    ∀ ρ, formula.holds ρ = true → ρ.get x.primed = (Value.ofBits k x.type).number

theorem determines_pin (hReal : x.type.isReal = false) (k : Nat) : Determines x (pin x k) k :=
  ⟨exists_holds_pin hReal k, mem_freeVariables_pin x k, fun _ hρ => (holds_pin hReal).mp hρ⟩

/-- The next value can be the same as before, the new formula follows from the old one, and it is an
equation exactly if the old one determines the next value. -/
structure KeepsNextValue (x : Variable) (formula result : Expr) : Prop where
  admits : ∀ c, (∃ ρ, ρ.get x.primed = c ∧ formula.holds ρ = true) ↔
    ∃ ρ, ρ.get x.primed = c ∧ result.holds ρ = true
  follows : ∀ ρ, formula.holds ρ = true → result.holds ρ = true
  pinned : ∀ k, result = pin x k ↔ Determines x formula k

/-- A formula that does not determine the next value may be kept. -/
theorem keepsNextValue_self (hReal : x.primed ∈ formula.freeVariables → x.type.isReal = false)
    (h : ∀ k, ¬Determines x formula k) : KeepsNextValue x formula formula where
  admits _ := Iff.rfl
  follows _ hρ := hρ
  pinned k := by
    refine iff_of_false (fun heq => h k ?_) (h k)
    have hFree := mem_freeVariables_pin x k
    rw [← heq] at hFree
    rw [heq]
    exact determines_pin (hReal hFree) k

/-- A formula that determines the next value may be replaced by the equation. -/
theorem Determines.keepsNextValue (hReal : x.type.isReal = false) (h : Determines x formula k) :
    KeepsNextValue x formula (pin x k) := by
  obtain ⟨⟨ρ, hρ⟩, hFree, hForces⟩ := h
  have hPin : ∀ ρ, formula.holds ρ = true → (pin x k).holds ρ = true := fun ρ hρ =>
    (holds_pin hReal).mpr (hForces ρ hρ)
  refine ⟨fun c => ?_, hPin, fun m => ?_⟩
  · -- the only value on either side is the one determined
    constructor
    · rintro ⟨ρ', rfl, hρ'⟩
      exact ⟨ρ', rfl, hPin ρ' hρ'⟩
    · rintro ⟨ρ', rfl, hρ'⟩
      exact ⟨ρ, (hForces ρ hρ).trans ((holds_pin hReal).mp hρ').symm, hρ⟩
  · constructor
    · intro heq
      refine ⟨⟨ρ, hρ⟩, hFree, fun ρ' hρ' => (holds_pin hReal).mp ?_⟩
      rw [← heq]
      exact hPin ρ' hρ'
    · rintro ⟨-, -, hForces'⟩
      rw [pin, pin, Value.ofBits_inj.mpr ((hForces ρ hρ).symm.trans (hForces' ρ hρ))]

/-! ## Simplification -/

variable {σ ω : Type} {env : Surroundings σ}

/-- With a solver that settles its questions, simplification returns and keeps the next value. -/
theorem simplifyFormula_of_settles (hFormula : env.solver.Settles formula)
    (hReal : x.primed ∈ formula.freeVariables → x.type.isReal = false)
    (hOther : x.primed ∈ formula.freeVariables → ∀ k,
      env.solver.Settles (formula.and (.not (pin x k))))
    (s : Session σ ω) :
    ∃ result memory, simplifyFormula env x formula s = .ok result { s with memory := memory } ∧
      KeepsNextValue x formula result := by
  by_cases hFree : x.primed ∈ formula.freeVariables
  swap
  · refine ⟨formula, s.memory, ?_, keepsNextValue_self hReal fun k hk => hFree hk.2.1⟩
    rw [simplifyFormula, if_pos (by simpa using hFree)]
    rfl
  let t : Session σ ω := { s with memory := (env.solver.solve formula s.memory).2 }
  have hSolve : solve env formula s = .ok (env.solver.solve formula s.memory).1 t := rfl
  rw [simplifyFormula, if_neg (by simpa using hFree), bind_run_of_ok hSolve]
  rcases hFormula.solved s.memory with ⟨hSat, hModel, hSpelled⟩ | ⟨hUnsat, hNone⟩
  · -- a value is found, and the second question is whether there is another one
    obtain ⟨v, hv⟩ := hModel.exists_value (Expr.mem_freeVariables.mp hFree)
    have hGet : (env.solver.solve formula s.memory).1.model.get? x.primed = some v := hv
    obtain ⟨k, rfl⟩ := hSpelled _ v hv
    have hFound := hModel.get_environment hv
    obtain ⟨other, memory, hRun, hIff⟩ :=
      holds_of_settles (hOther hFree k) (.uniquenessOf x.primed) t
    simp only [Expr.holds_and, Expr.holds_not, Bool.and_eq_true,
      Bool.not_eq_true', ← Bool.not_eq_true, holds_pin (hReal hFree)] at hIff
    simp only [hSat, hGet]
    cases other with
    | true =>
      obtain ⟨ρ, hρ, hne⟩ := hIff.mp rfl
      refine ⟨formula, memory, (bind_run_of_ok hRun).trans rfl, keepsNextValue_self hReal ?_⟩
      rintro m ⟨-, -, hForces⟩
      exact hne ((hForces ρ hρ).trans ((hForces _ hModel.holds).symm.trans hFound))
    | false =>
      -- no other value, so the one found is forced
      have hForces : ∀ ρ, formula.holds ρ = true →
          ρ.get x.primed = (Value.ofBits k x.type).number := by
        intro ρ hρ
        by_contra hne
        cases hIff.mpr ⟨ρ, hρ, hne⟩
      refine ⟨pin x k, memory, (bind_run_of_ok hRun).trans rfl, ?_⟩
      exact Determines.keepsNextValue (hReal hFree) ⟨⟨_, hModel.holds⟩, hFree, hForces⟩
  · refine ⟨formula, t.memory, ?_, keepsNextValue_self hReal fun k ⟨⟨ρ, hρ⟩, _⟩ => ?_⟩
    · simp only [hUnsat]
      rfl
    · rw [hNone ρ] at hρ
      cases hρ

/-- **Simplification keeps the next value.** With the solver by diagrams, for every variable and
every formula that has a circuit and at most `2 ^ 20` variables: simplification returns, the next
value can be the same before and after, the new formula follows from the old one, and it is an
equation of the next value with a constant exactly if the old one can be satisfied, mentions the
next value and leaves it that value only. -/
theorem simplifyFormula_keeps_next_value {ω : Type} {bits : Nat}
    (hBits : bits ≤ ComputedTable.maxBits)
    {env : Surroundings Tally} (hEnv : env.solver = .byDiagram bits) (x : Variable) {formula : Expr}
    (hBool : formula.type = .bool) (hEncodable : formula.Encodable)
    (hFew : formula.occurring.toFinset.card ≤ slotCount) (s : Session Tally ω) :
    ∃ result memory, simplifyFormula env x formula s = .ok result { s with memory := memory } ∧
      (∀ c, (∃ ρ, ρ.get x.primed = c ∧ formula.holds ρ = true) ↔
        ∃ ρ, ρ.get x.primed = c ∧ result.holds ρ = true) ∧
      (∀ ρ, formula.holds ρ = true → result.holds ρ = true) ∧
      ∀ k, result = .equal (.var x.primed) (.const (.ofBits k x.type)) ↔
        (∃ ρ, formula.holds ρ = true) ∧ x.primed ∈ formula.freeVariables ∧
          ∀ ρ, formula.holds ρ = true → ρ.get x.primed = (Value.ofBits k x.type).number := by
  have hCircuit : formula.HasCircuit formula.occurring.toFinset :=
    ⟨hBool, hEncodable, fun y hy => List.mem_toFinset.mpr hy⟩
  have hFormula : env.solver.Settles formula := hEnv ▸ Solver.byDiagram_settles hBits hFew hCircuit
  have hReal : x.primed ∈ formula.freeVariables → x.type.isReal = false := fun hFree =>
    hEncodable _ (Expr.var_mem_parts (Expr.mem_freeVariables.mp hFree))
  -- the second question is about the same variables
  have hOther : x.primed ∈ formula.freeVariables → ∀ k,
      env.solver.Settles (formula.and (.not (pin x k))) := by
    intro hFree k
    have hNext := Expr.mem_freeVariables.mp hFree
    have hPin : (pin x k).HasCircuit formula.occurring.toFinset :=
      .equal_ofBits (hCircuit.occurring _ (Expr.mem_occurring hNext)) (hReal hFree) k
    exact hEnv ▸ Solver.byDiagram_settles hBits hFew (hCircuit.and hPin.not)
  obtain ⟨result, memory, hRun, hKeeps⟩ := simplifyFormula_of_settles hFormula hReal hOther s
  exact ⟨result, memory, hRun, hKeeps.admits, hKeeps.follows, hKeeps.pinned⟩

end NextValue

open scoped Reals

/-- The next value is one above a hidden number that is the largest of its type. -/
def wrapsAround : Expr :=
  let hidden : Variable := ⟨"h", .signed .w8⟩
  .and (.compare .eq (.var (Variable.primed ⟨"x", .signed .w8⟩))
      (.arith .add (.var hidden) (.const (.int 1 (.signed .w8)))))
    (.compare .eq (.var hidden) (.const (.int 127 (.signed .w8))))

/-- The next value is pinned to the smallest number of the type. -/
theorem simplifyFormula_keeps_next_value_wrapsAround :
    let env : Surroundings Tally := { solver := .byDiagram 4 }
    let s : Session Tally Unit := { memory := {}, work := () }
    let x : Variable := ⟨"x", .signed .w8⟩
    (wrapsAround.type = .bool ∧ wrapsAround.Encodable ∧
      wrapsAround.occurring.toFinset.card ≤ slotCount) ∧
    ∃ memory, simplifyFormula env x wrapsAround s =
      .ok (.compare .eq (.var x.primed) (.const (.int (-128) (.signed .w8))))
        { s with memory := memory } := by
  intro env s x
  have hBool : wrapsAround.type = .bool := rfl
  have hEncodable : wrapsAround.Encodable := by decide
  have hFew : wrapsAround.occurring.toFinset.card ≤ slotCount := by decide
  obtain ⟨result, memory, hRun, -, -, hPinned⟩ :=
    simplifyFormula_keeps_next_value (by decide : 4 ≤ ComputedTable.maxBits)
      (rfl : env.solver = .byDiagram 4) x hBool hEncodable hFew s
  have hSome : ∃ ρ, wrapsAround.holds ρ = true :=
    ⟨fun y => if y.name = "h" then 127 else -128, by decide⟩
  have hForces : ∀ ρ, wrapsAround.holds ρ = true →
      ρ.get x.primed = (Value.ofBits 128 x.type).number := by
    intro ρ hρ
    simp only [wrapsAround, Expr.holds_and, Bool.and_eq_true, Expr.holds_compare, Comparison.eval,
      Expr.eval, Arithmetic.eval] at hρ
    have hNext := of_decide_eq_true hρ.1
    rw [of_decide_eq_true hρ.2] at hNext
    exact hNext.trans (by decide)
  have hValue : Value.ofBits 128 x.type = .int (-128) (.signed .w8) := by decide
  refine ⟨⟨hBool, hEncodable, hFew⟩, memory, ?_⟩
  rw [hRun, (hPinned 128).mpr ⟨hSome, by decide, hForces⟩, hValue]
  rfl

end Search

end StateSpace
