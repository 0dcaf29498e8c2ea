import StateSpace.System

/-!
# Writing systems as records

A persisted system has one record a line: the variables, then one record for each initial value and
each label. Expressions are written in prefix order; each token starts with a tag, so they need no
brackets.
-/

namespace StateSpace.Record

def ofVariable (x : Variable) : String :=
  "v:" ++ x.name ++ ":" ++ x.type.name ++ ";"

def ofVariables (xs : List Variable) : String :=
  String.join (xs.map ofVariable)

/-- The head of a node with an operator. -/
def operatorHead (tag name : String) : String :=
  tag ++ ":o:" ++ name ++ ";"

/-- An expression in prefix order. -/
def ofExpr : Expr → String
  | .const v => "c:" ++ v.text ++ ":" ++ v.type.name ++ ";"
  | .var x => ofVariable x
  | .not e => "n:" ++ ofExpr e
  | .logical op l r => operatorHead "p" op.name ++ ofExpr l ++ ofExpr r
  | .compare op l r => operatorHead "r" op.name ++ ofExpr l ++ ofExpr r
  | .arith op l r => operatorHead "a" op.name ++ ofExpr l ++ ofExpr r
  | .bitwise op l r => operatorHead "w" op.name ++ ofExpr l ++ ofExpr r
  | .negate e => "m:" ++ ofExpr e
  | .complement e => "~:" ++ ofExpr e
  | .cast t e => "k:" ++ t.name ++ ";" ++ ofExpr e
  | .quantified q xs body =>
    operatorHead "q" q.name ++ toString xs.length ++ ";" ++ ofVariables xs ++ ofExpr body

def kindName (isConstructor isError : Bool) : String :=
  match isConstructor, isError with
  | false, false => "ok"
  | false, true => "error"
  | true, false => "constructor"
  | true, true => "constructor_error"

def ofEffect (x : Variable) (e : Expr) : String :=
  "e:" ++ ofVariable x ++ ofExpr e ++ ";"

def ofLabel (l : Label) : String :=
  "L:" ++ l.name ++ ":" ++ kindName l.isConstructor l.isError ++
    ";P:" ++ ofVariables l.parameters ++
    ";G:" ++ String.join (l.preconditions.map ofExpr) ++
    ";F:" ++ String.join (l.effects.map fun (x, e) => ofEffect x e) ++ ";"

/-- A system, one record a line. -/
def ofSystem (s : System) : String :=
  "D:" ++ ofVariables s.stateVariables ++ "\n" ++
    String.join (s.initialValues.map fun (x, e) => "I:" ++ ofVariable x ++ ofExpr e ++ "\n") ++
    String.join (s.labels.map fun l => ofLabel l ++ "\n")

end StateSpace.Record
