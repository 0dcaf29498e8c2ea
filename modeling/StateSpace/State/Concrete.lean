import StateSpace.Expr.Basic
import StateSpace.Solver.Basic

/-!
# Concrete states

A concrete state gives values to some of the state variables, in their order. It is taken from a
model of a solver, so a variable that the model leaves out has no value.
-/

namespace StateSpace

/-- A state given by values, with the labels fired on the way to it. -/
structure ConcreteState where
  values : List (Variable × Value)
  history : List String := []
  deriving DecidableEq, Repr, Inhabited

namespace ConcreteState

/-- The values that a model has for the given variables, in the order of these. -/
def ofModel (model : Valuation) (xs : List Variable) : ConcreteState where
  values := xs.filterMap fun x => (model.get? x).map fun value => (x, value)

def get? (s : ConcreteState) (x : Variable) : Option Value :=
  s.values.lookup x

/-- The conjunction of the equations that the values satisfy. -/
def toExpr (s : ConcreteState) : Expr :=
  .conj (s.values.map fun (x, value) => .equal (.var x) (.const value))

def withHistory (s : ConcreteState) (before : List String) (label : String) : ConcreteState :=
  { s with history := before ++ [label] }

/-- The state with every prime dropped from its variables. -/
def unprimed (s : ConcreteState) : ConcreteState :=
  { s with values := s.values.map fun (x, value) => (x.unprimed, value) }

/-- Whether two states have the same values, however they were reached. -/
def sameValues (s t : ConcreteState) : Bool :=
  s.values = t.values

def text (s : ConcreteState) : String :=
  "[" ++ ", ".intercalate (s.values.map fun (x, value) => s!"{x.name}={value.text}") ++ "]"

end ConcreteState

end StateSpace
