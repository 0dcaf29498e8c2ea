import StateSpace.Exploration
import StateSpace.Label.Frame
import StateSpace.State.Symbolic

/-!
# Guards and successors

A label is enabled where its precondition can hold together with what is known about the state, and
fires to the successor of the state. The formula of each variable is the effect on it
together with the current formulas of the state variables which that effect reads; old values and
parameters get names of their own for the transition.
-/

namespace StateSpace.Label

/-- That the precondition of a label holds where a formula about the state does. -/
def guardOn (l : Label) (context : Expr) : Expr :=
  context.and l.precondition

def isEnabledOn {σ ω : Type} (env : Surroundings σ) (l : Label) (s : SymbolicState) :
    Explore σ ω Bool :=
  Explore.holds env (.guardOnState l.name s.id) (l.guardOn s.toExpr)

/-- The effect on a variable with the current formulas of the variables that it reads. -/
def successorFormula (l : Label) (s : SymbolicState) (x : Variable) : Expr :=
  let effect := l.effectOn x
  let read := effect.freeVariables
  ((l.stateVariables.filter read.contains).filterMap s.get?).foldl .and effect

/-- The formulas of all variables after firing as the given transition, about primed names still. -/
def successorFormulas (l : Label) (s : SymbolicState) (transition : Nat) : Formulas :=
  Formulas.rename (.ofTransition l.stateVariables l.parameters transition)
    (l.stateVariables.map fun x => (x, l.successorFormula s x))

/-- The successor of a state through the label, fired as the given transition. -/
def applyTo (l : Label) (s : SymbolicState) (transition id : Nat) : SymbolicState where
  id := id
  formulas := (l.successorFormulas s transition).restoreCurrentNames

end StateSpace.Label
