import StateSpace.Label.Basic
import StateSpace.State.Symbolic
import StateSpace.Text.Character

/-!
# Transition systems

A transition system declares state variables, labels, and formulas for the initial values of some of
the variables. Names of variables and labels are looked up in any letter case.
-/

namespace StateSpace

/-- A labelled transition system as declared. -/
structure System where
  stateVariables : List Variable := []
  labels : List Label := []
  initialValues : Formulas := []
  deriving DecidableEq, Repr, Inhabited

namespace System

/-- Declares a variable, unless it is declared already. -/
def addVariable (s : System) (x : Variable) : System :=
  if s.stateVariables.contains x then s else { s with stateVariables := s.stateVariables ++ [x] }

def addVariables (s : System) (xs : List Variable) : System :=
  xs.foldl addVariable s

/-- A label without content over the variables declared so far. -/
def newLabel (s : System) (name : String) : Label :=
  { name, stateVariables := s.stateVariables }

def addLabel (s : System) (l : Label) : System :=
  { s with labels := s.labels ++ [l] }

def findVariable? (s : System) (name : String) : Option Variable :=
  s.stateVariables.find? fun x => Text.sameIgnoringCase x.name name

def findLabel? (s : System) (name : String) : Option Label :=
  s.labels.find? fun l => Text.sameIgnoringCase l.name name

/-- The labels that build initial states. -/
def constructors (s : System) : List Label :=
  s.labels.filter Label.isConstructor

def setInitialValue (s : System) (x : Variable) (e : Expr) : System :=
  { s with initialValues := Formulas.set x e s.initialValues }

/-- The state before anything fired: default values, or the initial values given. -/
def defaultState (s : System) (id : Nat) : SymbolicState :=
  s.initialValues.foldl (fun state (x, e) => state.put x e) (.initial id s.stateVariables)

/-- The text of a system: variables, initial values and labels. -/
def text (s : System) : String :=
  "VARIABLES " ++ ", ".intercalate (s.stateVariables.map Variable.declaration) ++ "\n" ++
    String.join (s.initialValues.map fun (x, e) => s!"INIT {x.name}: {e.text}\n") ++
    String.join (s.labels.map Label.text)

end System

end StateSpace
