import StateSpace.Expr.Basic
import StateSpace.Expr.Renaming

/-!
# Labels

A label is a guarded update of the state variables. Its preconditions are an ordered list of
conjuncts, its effects constrain the next values of some variables, and its parameters are inputs
chosen freely at each firing. A variable without an effect keeps its value. An error label leads to
the error state; a constructor builds initial states and fires only then.
-/

namespace StateSpace

/-- A guarded, parameterised update of state variables. -/
structure Label where
  name : String
  stateVariables : List Variable
  preconditions : List Expr := []
  effects : Formulas := []
  parameters : List Variable := []
  isError : Bool := false
  isConstructor : Bool := false
  deriving DecidableEq, Repr, Inhabited

namespace Label

def addPrecondition (l : Label) (e : Expr) : Label :=
  { l with preconditions := l.preconditions ++ [e] }

/-- Adds a parameter, unless it is there already. -/
def addParameter (l : Label) (x : Variable) : Label :=
  if l.parameters.contains x then l else { l with parameters := l.parameters ++ [x] }

/-- Sets the effect on a variable; none if the label does not range over the variable. -/
def addEffect? (l : Label) (x : Variable) (e : Expr) : Option Label :=
  if l.stateVariables.contains x then
    some { l with effects := Formulas.set x e l.effects }
  else none

def explicitEffect? (l : Label) (x : Variable) : Option Expr :=
  l.effects.lookup x

def precondition (l : Label) : Expr :=
  .conj l.preconditions

/-- The precondition and all effects given, as one conjunction. -/
def effect (l : Label) : Expr :=
  l.effects.foldl (fun acc (_, e) => acc.and e) l.precondition

/-- The next value of a variable is its current one. -/
def stutter (x : Variable) : Expr :=
  .equal (.var x.primed) (.var x)

/-- The precondition and the effect on every variable, given or not, as one conjunction. -/
def transitionExpr (l : Label) : Expr :=
  .conj (l.precondition :: l.stateVariables.map fun x => (l.explicitEffect? x).getD (stutter x))

/-- The text of a label, one line each for its header, parameters, preconditions and effects. -/
def text (l : Label) : String :=
  let parameters := ", ".intercalate (l.parameters.map Variable.declaration)
  let lines :=
    [(if l.isConstructor then "CONSTRUCTOR " else "TRANSITION ") ++ l.name] ++
    (if l.parameters.isEmpty then [] else ["  PARAMETER " ++ parameters]) ++
    l.preconditions.map (fun e => "  PRECONDITION " ++ e.text) ++
    (if l.isError then ["  EFFECT ERROR"] else []) ++
    l.effects.map (fun (x, e) => s!"  EFFECT {x.name}: {e.text}")
  String.join (lines.map (· ++ "\n"))

end Label

end StateSpace
