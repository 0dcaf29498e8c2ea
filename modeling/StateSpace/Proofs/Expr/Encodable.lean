import StateSpace.Proofs.Expr.Eval

/-!
# Encodable expressions

An expression can be turned into bits unless something stands in the way somewhere inside it: a
real, two operands of different widths, an order between truth values, or an operand that should be
a truth value and is none. `Expr.isObstacle` looks at the outermost operator alone, and an
expression is encodable if none of its parts is an obstacle.
-/

namespace StateSpace.Expr

/-- An expression and everything inside it. -/
def parts : Expr → List Expr
  | const v => [const v]
  | var x => [var x]
  | not e => not e :: e.parts
  | logical op l r => logical op l r :: (l.parts ++ r.parts)
  | compare op l r => compare op l r :: (l.parts ++ r.parts)
  | arith op l r => arith op l r :: (l.parts ++ r.parts)
  | bitwise op l r => bitwise op l r :: (l.parts ++ r.parts)
  | negate e => negate e :: e.parts
  | complement e => complement e :: e.parts
  | cast t e => cast t e :: e.parts
  | quantified q xs body => quantified q xs body :: body.parts

/-- Whether the outermost operator of an expression has no circuit for its operands. -/
def isObstacle : Expr → Bool
  | const (.bool _) => false
  | const (.int _ t) => t.isReal
  | const (.real _ _) => true
  | var x => x.type.isReal
  | not e => !e.type.isBool
  | logical _ l r => !l.type.isBool || !r.type.isBool
  | compare op l r =>
    l.type.width? != r.type.width? ||
      [.lt, .le, .gt, .ge].contains op && l.type.isBool && r.type.isBool
  | arith _ l r => l.type.width? != r.type.width?
  | bitwise op l r => [.and, .or, .xor].contains op && l.type.width? != r.type.width?
  | negate _ => false
  | complement _ => false
  | cast t _ => t.isReal
  | quantified _ xs body => xs.any (·.type.isReal) || !body.type.isBool

/-- No part of the expression is an obstacle. -/
def Encodable (e : Expr) : Prop :=
  ∀ part ∈ e.parts, part.isObstacle = false

instance (e : Expr) : Decidable e.Encodable :=
  inferInstanceAs (Decidable (∀ part ∈ e.parts, part.isObstacle = false))

/-- The variables of an expression, free or bound. -/
def occurring : Expr → List Variable
  | const _ => []
  | var x => [x]
  | not e => e.occurring
  | logical _ l r => l.occurring ++ r.occurring
  | compare _ l r => l.occurring ++ r.occurring
  | arith _ l r => l.occurring ++ r.occurring
  | bitwise _ l r => l.occurring ++ r.occurring
  | negate e => e.occurring
  | complement e => e.occurring
  | cast _ e => e.occurring
  | quantified _ xs body => xs ++ body.occurring

section Unfolding

variable {l r e' : Expr} (e : Expr)

theorem encodable_leaf (h : e.parts = [e]) : e.Encodable ↔ e.isObstacle = false := by
  simp [Encodable, h]

theorem encodable_unary (h : e.parts = e :: e'.parts) :
    e.Encodable ↔ e.isObstacle = false ∧ e'.Encodable := by
  simp [Encodable, h]

theorem encodable_binary (h : e.parts = e :: (l.parts ++ r.parts)) :
    e.Encodable ↔ e.isObstacle = false ∧ l.Encodable ∧ r.Encodable := by
  simp [Encodable, h, or_imp, forall_and]

theorem encodable_arith (op : Arithmetic) :
    (arith op l r).Encodable ↔ l.type.width? = r.type.width? ∧ l.Encodable ∧ r.Encodable := by
  rw [encodable_binary (arith op l r) rfl]
  simp [isObstacle]

end Unfolding

/-- A variable that occurs free is a part. -/
theorem var_mem_parts {e : Expr} {x : Variable} (h : e.Free x) : var x ∈ e.parts := by
  induction e with
  | const c => exact h.elim
  | var y =>
    obtain rfl : x = y := h
    exact List.mem_singleton.mpr rfl
  | not e ih | negate e ih | complement e ih | cast t e ih => exact List.mem_cons_of_mem _ (ih h)
  | logical op l r ihl ihr | compare op l r ihl ihr | arith op l r ihl ihr
  | bitwise op l r ihl ihr =>
    exact List.mem_cons_of_mem _ (List.mem_append.mpr (h.imp ihl ihr))
  | quantified q xs body ih => exact List.mem_cons_of_mem _ (ih h.2)

/-- Free variables occur. -/
theorem mem_occurring {e : Expr} {x : Variable} (h : e.Free x) : x ∈ e.occurring := by
  induction e with
  | const c => exact h.elim
  | var y =>
    obtain rfl : x = y := h
    exact List.mem_singleton.mpr rfl
  | not e ih | negate e ih | complement e ih | cast t e ih => exact ih h
  | logical op l r ihl ihr | compare op l r ihl ihr | arith op l r ihl ihr
  | bitwise op l r ihl ihr => exact List.mem_append.mpr (h.imp ihl ihr)
  | quantified q xs body ih => exact List.mem_append_right xs (ih h.2)

end StateSpace.Expr

namespace StateSpace.ValueType

theorem isBool_iff {t : ValueType} : t.isBool = true ↔ t = .bool := by
  cases t <;> simp [isBool]

end StateSpace.ValueType
