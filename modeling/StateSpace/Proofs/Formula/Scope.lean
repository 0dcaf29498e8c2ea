import StateSpace.Proofs.Expr.Scope
import StateSpace.Proofs.Formula.Invariant

/-!
# Formulas stay within their scope

Whatever a text is read as has no quantifiers and mentions only variables of the scope that it is
read in (`Formula.within_parseFormula`).
-/

namespace StateSpace.Formula

variable {scope : List Variable}

/-- All operators keep expressions within their scope. -/
def Invariant.within (scope : List Variable) : Invariant scope where
  Numeral _ := True
  Admitted _ := True
  Formed := Expr.Within scope
  literal _ _ := trivial
  whole _ := trivial
  minus _ _ := trivial
  truth _ := Expr.within_const _
  int _ _ _ := Expr.within_const _
  real _ _ _ := Expr.within_const _
  var _ hx := Expr.within_var hx
  not _ he _ := he.not
  negate _ he := he.negate
  complement _ he := he.complement
  cast t _ he := he.cast t
  logical op _ _ hl hr _ _ := hl.logical op hr
  equality _ _ _ hl hr _ := hl.logical .equiv hr
  inequality _ _ _ hl hr _ := hl.logical .xor hr
  compare op _ _ hl hr := hl.compare op hr
  arith op _ _ hl hr := hl.arith op hr
  bitwise op _ _ hl hr := hl.bitwise op hr

/-- A formula is one over the scope that it is read in. -/
theorem within_parseFormula (text : String) :
    Yields (Expr.Within scope) (parseFormula text scope) :=
  (Invariant.within scope).parseFormula (fun _ => trivial) text

end StateSpace.Formula
