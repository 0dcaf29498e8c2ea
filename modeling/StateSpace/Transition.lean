/-!
# Transitions

A transition is one firing of a label on a state. It may fire several labels at once, which are then
listed together.
-/

namespace StateSpace

def stateName (id : Nat) : String := s!"s_{id}"

def transitionName (id : Nat) : String := s!"t{id}"

/-- One execution of a label on a source state. -/
structure Transition where
  id : Nat
  start : Nat
  target : Option Nat := none
  labels : List String
  reachedNewValue : Bool := false
  reachedError : Bool := false
  deriving DecidableEq, Repr, Inhabited

namespace Transition

def addLabel (t : Transition) (label : String) : Transition :=
  { t with labels := t.labels ++ [label] }

def text (t : Transition) : String :=
  let target := (t.target.map stateName).getD "?"
  let mark := if t.reachedError then " (error)" else if t.reachedNewValue then " (new)" else ""
  let fired := ", ".intercalate t.labels
  s!"{transitionName t.id}: {stateName t.start} --[{fired}]--> {target}{mark}"

end Transition

end StateSpace
