import StateSpace.Expr.Basic
import StateSpace.Expr.Renaming
import StateSpace.Transition

/-!
# Symbolic states

A symbolic state has one formula for each state variable, which constrains the variable's current
value. A formula may mention hidden variables of earlier transitions; only the plain name of a state
variable stands for its current value. The error state has no formulas at all.
-/

namespace StateSpace

/-- A state given by formulas, with its place in the unrolling. -/
structure SymbolicState where
  id : Nat
  formulas : Formulas
  isError : Bool := false
  /-- The transitions that end here, the oldest first. -/
  incoming : List Nat := []
  /-- The transitions that start here, the oldest first. -/
  outgoing : List Nat := []
  history : List String := []
  deriving DecidableEq, Repr, Inhabited

namespace SymbolicState

/-- The state in which every variable has the default value of its type. -/
def initial (id : Nat) (xs : List Variable) : SymbolicState where
  id := id
  formulas := xs.map fun x => (x, .equal (.var x) (.const (.default x.type)))

def error (id : Nat) : SymbolicState where
  id := id
  formulas := []
  isError := true

def get? (s : SymbolicState) (x : Variable) : Option Expr :=
  s.formulas.lookup x

/-- Sets the formula of a variable, in its place if it has one and at the end otherwise. -/
def put (s : SymbolicState) (x : Variable) (e : Expr) : SymbolicState :=
  { s with formulas := Formulas.set x e s.formulas }

def toExpr (s : SymbolicState) : Expr :=
  .conj (s.formulas.map Prod.snd)

def withHistory (s : SymbolicState) (before : List String) (label : String) : SymbolicState :=
  { s with history := before ++ [label] }

def text (s : SymbolicState) : String :=
  if s.isError then s!"{stateName s.id}: ERROR"
  else
    let entries := s.formulas.map fun (x, e) => s!"{x.name}: {e.text}"
    stateName s.id ++ ": [" ++ ", ".intercalate entries ++ "]"

end SymbolicState

end StateSpace
