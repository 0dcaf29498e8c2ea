import StateSpace.Proofs.Expr.Eval

/-!
# Truth of formulas

What makes the formulas true that states, labels and regions are built from: conjunctions and
disjunctions of lists, equalities, and projections. A projection is true under some values exactly
if the formula is true under values that agree on the visible variables (`Expr.holds_projectOnto`).
-/

namespace StateSpace

@[simp] theorem truthValue_ne_zero {b : Bool} : truthValue b ≠ 0 ↔ b = true := by
  cases b <;> simp [truthValue]

namespace Expr

variable {e : Expr} {x : Variable}

theorem free_foldl_and (es : List Expr) :
    (es.foldl and e).Free x ↔ e.Free x ∨ ∃ e' ∈ es, e'.Free x := by
  induction es generalizing e with
  | nil => simp
  | cons e' es ih => simp [ih, and, Free, or_assoc]

theorem free_conj {es : List Expr} : (conj es).Free x ↔ ∃ e ∈ es, e.Free x := by
  cases es with
  | nil => simp [conj, truth, Free]
  | cons e es => simp [conj, free_foldl_and]

end Expr

variable [Reals]

namespace Environment

variable {xs : List Variable} {ρ ρ' ρ'' : Environment}

theorem AgreeOn.refl (xs : List Variable) (ρ : Environment) : AgreeOn xs ρ ρ :=
  fun _ _ => rfl

theorem AgreeOn.symm (h : AgreeOn xs ρ ρ') : AgreeOn xs ρ' ρ :=
  fun x hx => (h x hx).symm

theorem AgreeOn.trans (h : AgreeOn xs ρ ρ') (h' : AgreeOn xs ρ' ρ'') : AgreeOn xs ρ ρ'' :=
  fun x hx => (h x hx).trans (h' x hx)

/-- The value of a variable is in the range of its type already. -/
@[simp] theorem hold_get (ρ : Environment) (x : Variable) : x.type.hold (ρ.get x) = ρ.get x :=
  x.type.hold_hold _

/-- A truth value is told by whether it is zero. -/
theorem get_eq_iff_of_bool {x y : Variable} (hx : x.type = .bool) (hy : y.type = .bool) :
    ρ.get x = ρ'.get y ↔ (ρ.get x ≠ 0 ↔ ρ'.get y ≠ 0) := by
  have hRange : ∀ (σ : Environment) {z : Variable}, z.type = .bool → σ.get z = 0 ∨ σ.get z = 1 := by
    intro σ z hz
    have : σ.get z = σ z % 2 := by
      rw [get, ValueType.hold_eq_wrap (by rw [hz]; rfl)]
      simp [hz, ValueType.wrap, ValueType.isSigned, ValueType.modulus, ValueType.width?]
    omega
  rcases hRange ρ hx with h | h <;> rcases hRange ρ' hy with h' | h' <;> simp [h, h']

/-- Some variables have their values from one environment; every other variable has it from an
environment of its own. -/
def patched (R : Variable → Prop) [DecidablePred R] (ρ : Environment)
    (others : Variable → Environment) : Environment :=
  fun x => if R x then ρ x else others x x

section Patched

variable {R : Variable → Prop} [DecidablePred R] {others : Variable → Environment} {x : Variable}

theorem get_patched_of (h : R x) : (patched R ρ others).get x = ρ.get x := by
  simp only [get, patched, if_pos h]

theorem get_patched_of_not (h : ¬R x) : (patched R ρ others).get x = (others x).get x := by
  simp only [get, patched, if_neg h]

end Patched

end Environment

namespace Expr

open Environment

variable {e l r : Expr} {ρ ρ' : Environment} {x y : Variable}

theorem holds_congr (h : ∀ x, e.Free x → ρ.get x = ρ'.get x) : e.holds ρ = e.holds ρ' := by
  rw [holds, holds, e.eval_congr h]

/-! ## Connectives -/

@[simp] theorem holds_truth (b : Bool) (ρ : Environment) : (truth b).holds ρ = b := by
  cases b <;> simp [holds, truth, eval, truthValue]

@[simp] theorem holds_not : (not e).holds ρ = !e.holds ρ := by
  by_cases h : e.eval ρ = 0 <;> simp [holds, eval, truthValue, h]

theorem holds_logical (op : Connective) :
    (logical op l r).holds ρ = op.eval (l.holds ρ) (r.holds ρ) := by
  rw [Bool.eq_iff_iff, holds, decide_eq_true_eq, eval, truthValue_ne_zero]
  rfl

theorem holds_compare (op : Comparison) :
    (compare op l r).holds ρ =
      l.type.ifReal (Reals.compare · op (l.eval ρ) (l.type.convert r.type (r.eval ρ)))
        (op.eval (l.eval ρ) (l.type.convert r.type (r.eval ρ))) := by
  rw [Bool.eq_iff_iff, holds, decide_eq_true_eq, eval, truthValue_ne_zero]

/-- A variable that compares as equal is identical, also if it is a real. -/
theorem holds_compare_eq_var :
    (compare .eq (var x) r).holds ρ = true ↔ ρ.get x = x.type.convert r.type (r.eval ρ) := by
  have hRead : x.type.hold (x.type.convert r.type (r.eval ρ)) = x.type.convert r.type (r.eval ρ) :=
    x.type.hold_hold _
  rw [holds_compare]
  show x.type.ifReal (Reals.compare · .eq (ρ.get x) (x.type.convert _ _))
    (Comparison.eval .eq (ρ.get x) (x.type.convert _ _)) = true ↔ _
  cases hReal : x.type.isReal with
  | true =>
    obtain ⟨p, hp⟩ := ValueType.exists_of_isReal hReal
    have hGet := ρ.hold_get x
    rw [hp] at hRead hGet ⊢
    refine (Reals.compare_eq p _ _).trans ?_
    show (ValueType.real p).hold _ = (ValueType.real p).hold _ ↔ _
    rw [hRead, hGet]
  | false =>
    rw [ValueType.ifReal_of_isReal_eq_false hReal]
    exact decide_eq_true_iff

@[simp] theorem holds_and : (l.and r).holds ρ = (l.holds ρ && r.holds ρ) :=
  holds_logical .and

@[simp] theorem holds_or : (l.or r).holds ρ = (l.holds ρ || r.holds ρ) :=
  holds_logical .or

theorem holds_foldl_and (es : List Expr) :
    (es.foldl and e).holds ρ = true ↔ e.holds ρ = true ∧ ∀ e' ∈ es, e'.holds ρ = true := by
  induction es generalizing e with
  | nil => simp
  | cons e' es ih => simp [ih, and_assoc]

theorem holds_foldl_or (es : List Expr) :
    (es.foldl or e).holds ρ = true ↔ e.holds ρ = true ∨ ∃ e' ∈ es, e'.holds ρ = true := by
  induction es generalizing e with
  | nil => simp
  | cons e' es ih => simp [ih, or_assoc]

theorem holds_conj {es : List Expr} : (conj es).holds ρ = true ↔ ∀ e ∈ es, e.holds ρ = true := by
  cases es with
  | nil => simp [conj]
  | cons e es => simp [conj, holds_foldl_and]

theorem holds_disj {es : List Expr} : (disj es).holds ρ = true ↔ ∃ e ∈ es, e.holds ρ = true := by
  cases es with
  | nil => simp [disj]
  | cons e es => simp [disj, holds_foldl_or]

/-- Equality of variables of one type is equality of their values. -/
theorem holds_equal_var (h : x.type = y.type) :
    (equal (var x) (var y)).holds ρ = true ↔ ρ.get x = ρ.get y := by
  by_cases hBool : (var x).type = .bool
  · rw [equal, if_pos hBool, holds_logical, get_eq_iff_of_bool hBool (h ▸ hBool)]
    have hVar : ∀ z, (var z).holds ρ = true ↔ ρ.get z ≠ 0 := fun z => decide_eq_true_iff
    rw [← hVar x, ← hVar y, ← Bool.eq_iff_iff]
    exact beq_iff_eq
  · rw [equal, if_neg hBool, holds_compare_eq_var]
    show ρ.get x = x.type.convert y.type (ρ.get y) ↔ _
    rw [h, ValueType.convert_self, hold_get]

/-- A variable that equals a constant has one value. -/
theorem get_eq_of_holds_equal_const {v : Value} (h : (equal (var x) (const v)).holds ρ = true)
    (h' : (equal (var x) (const v)).holds ρ' = true) : ρ.get x = ρ'.get x := by
  have hConst : (const v).eval ρ = (const v).eval ρ' := (const v).eval_congr fun _ hy => hy.elim
  by_cases hBool : (var x).type = .bool
  · have hVar : ∀ ρ : Environment, (var x).holds ρ = true ↔ ρ.get x ≠ 0 :=
      fun _ => decide_eq_true_iff
    rw [equal, if_pos hBool, holds_logical] at h h'
    rw [get_eq_iff_of_bool hBool hBool, ← hVar, ← hVar, ← Bool.eq_iff_iff]
    have hSame : (const v).holds ρ = (const v).holds ρ' := by rw [holds, holds, hConst]
    exact (beq_iff_eq.mp h).trans (hSame.trans (beq_iff_eq.mp h').symm)
  · rw [equal, if_neg hBool, holds_compare_eq_var] at h h'
    rw [h, h', hConst]

/-! ## Projections -/

/-- Closing over variables leaves their values open. -/
theorem holds_closeOver {xs : List Variable} :
    (closeOver xs e).holds ρ = true ↔ ∃ ρ', AgreeOff xs ρ ρ' ∧ e.holds ρ' = true := by
  cases xs with
  | nil =>
    constructor
    · intro h
      exact ⟨ρ, fun _ _ => rfl, h⟩
    · rintro ⟨ρ', hAgree, h⟩
      rw [← h]
      exact holds_congr fun x _ => (hAgree x List.not_mem_nil).symm
  | cons x xs =>
    have hSome : someOver _ (x :: xs) ρ = true ↔ _ := someOver_eq_true e.respects_eval
    simpa [closeOver, holds, eval] using hSome

/-- A projection is true where the visible values can be completed to values that make the formula
true. -/
theorem holds_projectOnto {xs : List Variable} :
    (e.projectOnto xs).holds ρ = true ↔ ∃ ρ', AgreeOn xs ρ' ρ ∧ e.holds ρ' = true := by
  rw [projectOnto, holds_closeOver]
  constructor
  · rintro ⟨ρ', hAgree, h⟩
    exact ⟨ρ', fun x hx => hAgree x (by simp [hx]), h⟩
  · -- the hidden variables take the values of the completion, all others keep theirs
    rintro ⟨ρ', hAgree, h⟩
    let hidden := e.freeVariables.filter fun x => !xs.contains x
    refine ⟨fun x => if x ∈ hidden then ρ' x else ρ x, fun x hx => ?_, ?_⟩
    · have hOut : x ∉ hidden := hx
      simp [Environment.get, hOut]
    · rw [← h]
      refine holds_congr fun x hFree => ?_
      by_cases hx : x ∈ hidden
      · simp [Environment.get, hx]
      · have hVisible : x ∈ xs := by
          simpa [hidden, mem_freeVariables, hFree] using hx
        simpa [Environment.get, hx] using (hAgree x hVisible).symm

end Expr

end StateSpace
