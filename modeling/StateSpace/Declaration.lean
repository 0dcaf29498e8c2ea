import StateSpace.Text.Lines
import StateSpace.Variable

/-!
# Declarations

A declaration lists variables as `name:type`, separated by commas, behind an optional word
`declare`.
-/

namespace StateSpace.Declaration

/-- What can be wrong with a declaration. -/
inductive Fault where
  | expectedPair (item : String)
  | invalidName (name : String)
  | unknownType (token : String)
  deriving DecidableEq, Repr, Inhabited

def Fault.message : Fault → String
  | expectedPair item => s!"expected `name:type` in declaration: {item}"
  | invalidName name => s!"invalid variable name: {name}"
  | unknownType token => s!"unknown type: {token}"

def parseItem (item : List Char) : Except Fault Variable :=
  match Text.splitOnce ':' item with
  | none => .error (.expectedPair (String.ofList item))
  | some (name, type) =>
    let name := Text.trim name
    let type := Text.trim type
    if !Text.isName name then .error (.invalidName (String.ofList name))
    else
      match ValueType.ofName? (String.ofList type) with
      | none => .error (.unknownType (String.ofList type))
      | some type => .ok ⟨String.ofList name, type⟩

/-- The text behind the word `declare`, if it starts with it in any letter case. -/
def dropDeclare (cs : List Char) : List Char :=
  if Text.startsWithWord "DECLARE".toList cs then cs.drop 7 else cs

/-- Reads a declaration; items left empty are skipped. -/
def parse (text : List Char) : Except Fault (List Variable) :=
  let items := (Text.splitOn ',' (dropDeclare (Text.trim text))).map Text.trim
  (items.filter fun item => !item.isEmpty).mapM parseItem

end StateSpace.Declaration
