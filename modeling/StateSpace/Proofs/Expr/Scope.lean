import StateSpace.Proofs.Expr.Renaming

/-!
# Expressions over a scope

What is read from a description has no quantifiers and mentions only the variables in scope
(`Expr.Within`). Such expressions can be renamed by any renaming, and they are closed under the
connectives that states and labels are built with.
-/

namespace StateSpace.Expr

variable {ρ : Renaming} {e l r : Expr} {scope scope' : List Variable}

/-- No quantifier occurs in the expression. -/
def QuantifierFree : Expr → Prop
  | const _ => True
  | var _ => True
  | not e => e.QuantifierFree
  | logical _ l r => l.QuantifierFree ∧ r.QuantifierFree
  | compare _ l r => l.QuantifierFree ∧ r.QuantifierFree
  | arith _ l r => l.QuantifierFree ∧ r.QuantifierFree
  | bitwise _ l r => l.QuantifierFree ∧ r.QuantifierFree
  | negate e => e.QuantifierFree
  | complement e => e.QuantifierFree
  | cast _ e => e.QuantifierFree
  | quantified _ _ _ => False

namespace QuantifierFree

theorem renamable (h : e.QuantifierFree) : e.Renamable ρ := by
  induction e with
  | const v | var x => trivial
  | not e ih | negate e ih | complement e ih | cast t e ih => exact ih h
  | logical op l r ihl ihr | compare op l r ihl ihr | arith op l r ihl ihr
  | bitwise op l r ihl ihr => exact ⟨ihl h.1, ihr h.2⟩
  | quantified q xs body => exact h.elim

theorem rename (h : e.QuantifierFree) : (e.rename ρ).QuantifierFree := by
  induction e with
  | const v | var x => trivial
  | not e ih | negate e ih | complement e ih | cast t e ih => exact ih h
  | logical op l r ihl ihr | compare op l r ihl ihr | arith op l r ihl ihr
  | bitwise op l r ihl ihr => exact ⟨ihl h.1, ihr h.2⟩
  | quantified q xs body => exact h.elim

theorem foldl_and {es : List Expr} (h : e.QuantifierFree) (hes : ∀ e ∈ es, e.QuantifierFree) :
    (es.foldl Expr.and e).QuantifierFree := by
  induction es generalizing e with
  | nil => exact h
  | cons e' es ih =>
    obtain ⟨he', hes⟩ := List.forall_mem_cons.mp hes
    exact ih ⟨h, he'⟩ hes

theorem conj {es : List Expr} (h : ∀ e ∈ es, e.QuantifierFree) : (Expr.conj es).QuantifierFree := by
  cases es with
  | nil => trivial
  | cons e es =>
    obtain ⟨he, hes⟩ := List.forall_mem_cons.mp h
    exact foldl_and he hes

end QuantifierFree

/-- No quantifier occurs in the expression, and every variable in it is in scope. -/
structure Within (scope : List Variable) (e : Expr) : Prop where
  quantifierFree : e.QuantifierFree
  inScope : ∀ x, e.Free x → x ∈ scope

theorem Within.mono (h : e.Within scope) (hScope : scope ⊆ scope') : e.Within scope' :=
  ⟨h.quantifierFree, fun x hx => hScope (h.inScope x hx)⟩

theorem within_const (v : Value) : (const v).Within scope :=
  ⟨trivial, fun _ hx => hx.elim⟩

theorem within_var {x : Variable} (h : x ∈ scope) : (var x).Within scope :=
  ⟨trivial, fun _ hy => hy ▸ h⟩

namespace Within

theorem not (h : e.Within scope) : (Expr.not e).Within scope :=
  ⟨h.quantifierFree, h.inScope⟩

theorem negate (h : e.Within scope) : (Expr.negate e).Within scope :=
  ⟨h.quantifierFree, h.inScope⟩

theorem complement (h : e.Within scope) : (Expr.complement e).Within scope :=
  ⟨h.quantifierFree, h.inScope⟩

theorem cast (t : ValueType) (h : e.Within scope) : (Expr.cast t e).Within scope :=
  ⟨h.quantifierFree, h.inScope⟩

theorem logical (op : Connective) (hl : l.Within scope) (hr : r.Within scope) :
    (Expr.logical op l r).Within scope :=
  ⟨⟨hl.quantifierFree, hr.quantifierFree⟩, fun x hx => hx.elim (hl.inScope x) (hr.inScope x)⟩

theorem compare (op : Comparison) (hl : l.Within scope) (hr : r.Within scope) :
    (Expr.compare op l r).Within scope :=
  ⟨⟨hl.quantifierFree, hr.quantifierFree⟩, fun x hx => hx.elim (hl.inScope x) (hr.inScope x)⟩

theorem arith (op : Arithmetic) (hl : l.Within scope) (hr : r.Within scope) :
    (Expr.arith op l r).Within scope :=
  ⟨⟨hl.quantifierFree, hr.quantifierFree⟩, fun x hx => hx.elim (hl.inScope x) (hr.inScope x)⟩

theorem bitwise (op : Bitwise) (hl : l.Within scope) (hr : r.Within scope) :
    (Expr.bitwise op l r).Within scope :=
  ⟨⟨hl.quantifierFree, hr.quantifierFree⟩, fun x hx => hx.elim (hl.inScope x) (hr.inScope x)⟩

theorem equal (hl : l.Within scope) (hr : r.Within scope) : (Expr.equal l r).Within scope := by
  unfold Expr.equal
  split
  · exact hl.logical .equiv hr
  · exact hl.compare .eq hr

end Within

end StateSpace.Expr
