import StateSpace.Expr.Basic
import StateSpace.Formula.Token

/-!
# Operands of formulas

A literal has no type of its own: it takes the type of the operand it meets, and is a `sint32` or a
`double` if it meets none. Until then it is kept as a number, so that arithmetic between whole
number literals is done exactly, on up to 128 bits, before any type is known.
-/

namespace StateSpace.Formula

inductive Fault where
  | token (fault : Token.Fault)
  | endOfExpression
  | unexpectedMark (m : Mark)
  | expectedClosing (found : Option Token)
  | leftover (t : Token) (text : String)
  | undeclared (name : String)
  | integerAsBoolean (n : Int)
  | realAs (text : String) (type : ValueType)
  | operandNotBoolean (e : Expr)
  | orderedBooleans (op : Comparison)
  | cannotEvaluate (op : Arithmetic) (a b : Int)
  | notBoolean (text : String)
  deriving DecidableEq, Repr, Inhabited

def Fault.message : Fault → String
  | token fault => fault.message
  | endOfExpression => "unexpected end of expression"
  | unexpectedMark m => s!"unexpected `{m.text}`"
  | expectedClosing (some t) => s!"expected `)`, found `{t.text}`"
  | expectedClosing none => "expected `)` at end of input"
  | leftover t text => s!"unexpected `{t.text}` in {text}"
  | undeclared name => s!"undeclared variable {name}"
  | integerAsBoolean n => s!"integer {n} used as a boolean"
  | realAs text t => s!"real {text} used as {t.name}"
  | operandNotBoolean e => s!"expected a boolean operand, found {e.text}"
  | orderedBooleans op => s!"cannot order booleans with {op.symbol}"
  | cannotEvaluate op a b => s!"cannot evaluate {a} {op.symbol} {b}"
  | notBoolean text => s!"expected a boolean expression: {text}"

/-- An operand: an expression, or a literal that has not met its type yet. -/
inductive Term where
  | expr (e : Expr)
  | int (n : Int)
  | real (text : String)
  deriving DecidableEq, Repr, Inhabited

namespace Term

/-- The type of an operand; literals have none. -/
def type? : Term → Option ValueType
  | expr e => some e.type
  | int _ => none
  | real _ => none

/-- The operand as an expression, a literal taking the type of the operand it meets. -/
def toExpr (hint : Option ValueType) : Term → Except Fault Expr
  | expr e => .ok e
  | int n =>
    match hint with
    | some .bool => .error (.integerAsBoolean n)
    | some (.real p) => .ok (.const (.real (toString n) (.real p)))
    | some t => .ok (.const (.ofInt n t))
    | none => .ok (.const (.ofInt n (.signed .w32)))
  | real text =>
    match hint with
    | some (.real p) => .ok (.const (.real text (.real p)))
    | some t => .error (.realAs text t)
    | none => .ok (.const (.real text (.real .double)))

def toBoolean (t : Term) : Except Fault Expr := do
  let e ← t.toExpr (some .bool)
  if e.type = .bool then pure e else throw (.operandNotBoolean e)

/-- Both operands as expressions, a literal taking the type of the other side. -/
def unify (l r : Term) : Except Fault (Expr × Expr) := do
  let left ← l.toExpr r.type?
  let right ← r.toExpr (l.type? <|> some left.type)
  pure (left, right)

/-- Exact arithmetic on literals. There is no result if it does not fit 128 bits or the divisor is
zero; division goes toward zero, and so does the remainder's quotient, which has to fit as well. -/
def literalArithmetic? (op : Arithmetic) (a b : Int) : Option Int :=
  match op with
  | .add => some (a + b) |>.filter Text.fits128
  | .sub => some (a - b) |>.filter Text.fits128
  | .mul => some (a * b) |>.filter Text.fits128
  | .div => if b = 0 then none else some (a.tdiv b) |>.filter Text.fits128
  | .rem => if b = 0 || !Text.fits128 (a.tdiv b) then none else some (a.tmod b)

/-! ## Combining operands -/

/-- A connective takes two boolean operands. -/
def connect (op : Connective) (l r : Term) : Except Fault Term := do
  let left ← l.toBoolean
  let right ← r.toBoolean
  pure (expr (.logical op left right))

/-- A comparison. Booleans have no order, and their (in)equality is a connective. -/
def compare (op : Comparison) (l r : Term) : Except Fault Term := do
  let (left, right) ← l.unify r
  if left.type = .bool then
    match op with
    | .eq => pure (expr (.logical .equiv left right))
    | .ne => pure (expr (.logical .xor left right))
    | _ => throw (.orderedBooleans op)
  else
    pure (expr (.compare op left right))

def combineBits (op : Bitwise) (l r : Term) : Except Fault Term := do
  let (left, right) ← l.unify r
  pure (expr (.bitwise op left right))

/-- Arithmetic; two whole number literals give a literal. -/
def calculate (op : Arithmetic) : Term → Term → Except Fault Term
  | int a, int b =>
    match literalArithmetic? op a b with
    | some n => .ok (int n)
    | none => .error (.cannotEvaluate op a b)
  | l, r => do
    let (left, right) ← l.unify r
    pure (expr (.arith op left right))

/-- Unary minus; the sign of a literal becomes part of it. The smallest number of 128 bits has no
opposite, and stays as it is. -/
def negate : Term → Term
  | expr e => expr (.negate e)
  | int n => int (Text.word128 (-n))
  | real text => real ("-" ++ text)

/-- A cast; a literal takes the type instead of being converted. -/
def castTo (t : ValueType) : Term → Except Fault Term
  | expr e => .ok (expr (.cast t e))
  | literal => do
    let e ← literal.toExpr (some t)
    pure (expr e)

end Term

end StateSpace.Formula
