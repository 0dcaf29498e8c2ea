import StateSpace.Text.Numeral
import StateSpace.ValueType

/-!
# Values

A value is a truth value, a whole number held at some type, or the text of a real. Whole numbers are
kept in the range of their type, so that equal values have equal texts.
-/

namespace StateSpace

inductive Value where
  | bool (b : Bool)
  | int (n : Int) (type : ValueType)
  | real (text : String) (type : ValueType)
  deriving DecidableEq, Repr, Inhabited

namespace Value

def type : Value → ValueType
  | bool _ => .bool
  | int _ t => t
  | real _ t => t

/-- A whole number brought into the range of a type. -/
def ofInt (n : Int) (t : ValueType) : Value :=
  int (t.wrap n) t

/-- The value whose bits are those of `n`: a truth value for booleans, a whole number otherwise. -/
def ofBits (n : Nat) : ValueType → Value
  | .bool => bool (n % 2 == 1)
  | t => ofInt n t

/-- The value that a variable of the type has before anything happened. -/
def default : ValueType → Value
  | .bool => bool false
  | .real p => real "0.0" (.real p)
  | t => int 0 t

/-- Reads a value of a type, with blanks around it. Truth values are read in any letter case, whole
numbers up to 128 bits are wrapped, and reals keep their text. -/
def parse? (text : String) (t : ValueType) : Option Value :=
  let cs := Text.trim text.toList
  match t with
  | .bool =>
    match String.ofList (cs.map Char.toLower) with
    | "true" => some (bool true)
    | "false" => some (bool false)
    | _ => none
  | .real p => if Text.isReal cs then some (real (String.ofList cs) (.real p)) else none
  | t => (Text.signed128? cs).map fun n => ofInt n t

def text : Value → String
  | bool true => "true"
  | bool false => "false"
  | int n _ => toString n
  | real s _ => s

end Value

end StateSpace
