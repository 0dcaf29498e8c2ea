import StateSpace.ValueType

/-!
# Variables

A variable is a name together with a type; two variables of one name and different types are
different. The value that a variable takes after a transition is written with a prime.
-/

namespace StateSpace

structure Variable where
  name : String
  type : ValueType
  deriving DecidableEq, Hashable, Repr, Inhabited

namespace Variable

/-- Variables are sorted by name, character by character, then by type. -/
instance : Ord Variable where
  compare a b := (compare a.name b.name).then (compare a.type b.type)

/-- The mark behind the name of a value after a transition. -/
def primeMark : Char := '\x27'

/-- The value of the variable after a transition. -/
def primed (x : Variable) : Variable :=
  { x with name := x.name.push primeMark }

def isPrimed (x : Variable) : Bool :=
  x.name.toList.getLast? == some primeMark

/-- The variable without any prime at the end of its name. -/
def unprimed (x : Variable) : Variable :=
  { x with name := String.ofList (x.name.toList.reverse.dropWhile (· == primeMark)).reverse }

/-- A variable with its type, as declarations write it. -/
def declaration (x : Variable) : String :=
  s!"{x.name}:{x.type.name}"

end Variable

end StateSpace
