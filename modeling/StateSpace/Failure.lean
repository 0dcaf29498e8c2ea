import StateSpace.Declaration
import StateSpace.Formula.Term
import StateSpace.Transition

/-!
# Failures

Everything that can end the reading of a system or an exploration. Reaching an error label is not a
failure: it is a result.
-/

namespace StateSpace

/-- What can be wrong with a line of a system description. -/
inductive Description.Fault where
  | outsideSection (line : String)
  | outsideLabel
  | invalidLabelName (token : String)
  | declaration (fault : Declaration.Fault)
  | formula (fault : Formula.Fault)
  | expectedEffect (line : String)
  | modifiesUnknown (name : String)
  | expectedInitialValue (line : String)
  | initialValueOfUnknown (name : String)
  deriving DecidableEq, Repr, Inhabited

def Description.Fault.message : Description.Fault → String
  | outsideSection line => s!"line outside of any section: {line}"
  | outsideLabel => "section outside of a transition"
  | invalidLabelName token => s!"invalid label name: {token}"
  | declaration fault => fault.message
  | formula fault => fault.message
  | expectedEffect line => s!"expected an effect of the form `var: expression`: {line}"
  | modifiesUnknown name => s!"modified variable {name} is not a state variable"
  | expectedInitialValue line =>
    s!"expected an initial value of the form `var: expression`: {line}"
  | initialValueOfUnknown name => s!"{name} is not a state variable"

/-- What can be wrong with a record of a persisted system. -/
inductive Record.Fault where
  | expectedTag (rest : String)
  | expected (token rest : String)
  | missing (mark : Char) (rest : String)
  | unknownRecord (tag : Char)
  | trailing (rest : String)
  | unknownOperator (name : String)
  | expectedVariable (tag : Char)
  | invalidConstant (type : ValueType) (text : String)
  | invalidCount (text : String)
  | unknownExpression (tag : Char)
  | unknownKind (kind : String)
  deriving DecidableEq, Repr, Inhabited

def Record.Fault.message : Record.Fault → String
  | expectedTag rest => s!"expected a tagged token at: {rest}"
  | expected token rest => s!"expected '{token}' at: {rest}"
  | missing mark rest => s!"missing '{mark}' after: {rest}"
  | unknownRecord tag => s!"unknown record tag '{tag}'"
  | trailing rest => s!"trailing input: {rest}"
  | unknownOperator name => s!"unknown operator {name}"
  | expectedVariable tag => s!"expected a variable, found tag '{tag}'"
  | invalidConstant type text => s!"invalid {type.name} constant {text}"
  | invalidCount text => s!"invalid variable count {text}"
  | unknownExpression tag => s!"unknown expression tag '{tag}'"
  | unknownKind kind => s!"unknown label kind {kind}"

/-- The questions that a solver may leave open. -/
inductive Question where
  | guardOnState (label : String) (state : Nat)
  | guardAtDepth (label : String) (depth : Nat)
  | novelty (state : Nat)
  | valueOf (x : Variable)
  | uniquenessOf (x : Variable)
  | successor (state label : String)
  | initialState (state : Nat)
  deriving DecidableEq, Repr, Inhabited

def Question.text : Question → String
  | guardOnState label state => s!"guard of {label} on {stateName state}"
  | guardAtDepth label depth => s!"guard of {label} at depth {depth}"
  | novelty state => s!"novelty of {stateName state}"
  | valueOf x => s!"a value of {x.name}"
  | uniquenessOf x => s!"uniqueness of {x.name}"
  | successor state label => s!"successor of {state} through {label}"
  | initialState state => s!"initial state {stateName state}"

/-- What ends the reading of a system or an exploration. -/
inductive Failure where
  | undecided (question : Question)
  | description (line : Nat) (fault : Description.Fault)
  | record (line : Nat) (fault : Record.Fault)
  | unknownType (token : String)
  | undeclared (name : String)
  | constructorsWithInit
  | iterationDepth (depth : Nat)
  deriving DecidableEq, Repr, Inhabited

def Failure.message : Failure → String
  | undecided question => s!"solver could not decide {question.text}"
  | description line fault => s!"parse error at line {line}: {fault.message}"
  | record line fault => s!"malformed encoded record at line {line}: {fault.message}"
  | unknownType token => s!"unknown type: {token}"
  | undeclared name => s!"'{name}' is not a declared state variable"
  | constructorsWithInit =>
    "constructor labels cannot be combined with explicit initial values"
  | iterationDepth depth => s!"cannot unroll depth {depth}, iterations start at depth 1"

def ValueType.read (text : String) : Except Failure ValueType :=
  match ValueType.ofName? text with
  | some t => .ok t
  | none => .error (.unknownType (Text.trimmed text))

end StateSpace
