import StateSpace.Expr.Operator
import StateSpace.Text.Character
import StateSpace.Text.Numeral
import StateSpace.Variable

/-!
# Tokens of formulas

A formula is read as a list of tokens: names, which may carry one prime, numbers, and marks. Marks
are the operator symbols, parentheses, comma and colon; where one mark starts another, the longer
one is taken.
-/

namespace StateSpace.Formula

/-- The marks of formulas. The mark of subtraction is also the unary minus. -/
inductive Mark where
  | connective (op : Connective)
  | comparison (op : Comparison)
  | arithmetic (op : Arithmetic)
  | bitwise (op : Bitwise)
  | bang
  | tilde
  | opening
  | closing
  | comma
  | colon
  deriving DecidableEq, Repr, Inhabited

namespace Mark

def text : Mark → String
  | connective op => op.symbol
  | comparison op => op.symbol
  | arithmetic op => op.symbol
  | bitwise op => op.symbol
  | bang => "!"
  | tilde => "~"
  | opening => "("
  | closing => ")"
  | comma => ","
  | colon => ":"

/-- Every mark, the longer ones first. -/
def all : List Mark :=
  [connective .equiv, bitwise .shiftRightZero, connective .implies, connective .and, connective .or,
    connective .xor, comparison .eq, comparison .ne, comparison .le, comparison .ge,
    bitwise .shiftLeft, bitwise .shiftRight, comparison .lt, comparison .gt, arithmetic .add,
    arithmetic .sub, arithmetic .mul, arithmetic .div, arithmetic .rem, bitwise .and, bitwise .or,
    bitwise .xor, bang, tilde, opening, closing, comma, colon]

/-- The first mark of `all` with which the characters start. -/
def at? (cs : List Char) : Option Mark :=
  all.find? fun m => m.text.toList.isPrefixOf cs

end Mark

inductive Token where
  | name (s : String)
  | int (n : Int)
  | real (text : String)
  | mark (m : Mark)
  deriving DecidableEq, Repr, Inhabited

namespace Token

/-- The text of a token as messages quote it. -/
def text : Token → String
  | name s => s
  | int n => toString n
  | real s => s
  | mark m => m.text

inductive Fault where
  | invalidNumber (literal : String)
  | unexpectedCharacter (c : Char)
  deriving DecidableEq, Repr, Inhabited

def Fault.message : Fault → String
  | invalidNumber literal => s!"invalid number: {literal}"
  | unexpectedCharacter c => s!"unexpected character '{c}'"

/-- A number is a run of digits and points; with a point it is a real, without one it has to fit 128
bits. -/
def ofLiteral (literal : List Char) : Except Fault Token :=
  if literal.contains '.' then
    if Text.isReal literal then .ok (real (String.ofList literal))
    else .error (.invalidNumber (String.ofList literal))
  else
    match Text.signed128? literal with
    | some n => .ok (int n)
    | none => .error (.invalidNumber (String.ofList literal))

def isNumberChar (c : Char) : Bool :=
  c.isDigit || c == '.'

def startsName (c : Char) : Bool :=
  c.isAlpha || c == '_' || c == '$'

/-- The name at the front: a run of name characters and at most one prime behind it. -/
def nameAt (cs : List Char) : List Char × List Char :=
  let run := cs.takeWhile Text.isNameChar
  match cs.dropWhile Text.isNameChar with
  | [] => (run, [])
  | c :: rest => if c == Variable.primeMark then (run ++ [c], rest) else (run, c :: rest)

/-- The token at the front of characters that start with `c`, and what follows it. -/
def next (c : Char) (cs : List Char) : Except Fault (Token × List Char) :=
  if c.isDigit then do
    let token ← ofLiteral ((c :: cs).takeWhile isNumberChar)
    pure (token, (c :: cs).dropWhile isNumberChar)
  else if startsName c then
    let (run, rest) := nameAt (c :: cs)
    .ok (name (String.ofList run), rest)
  else
    match Mark.at? (c :: cs) with
    | some m => .ok (mark m, (c :: cs).drop m.text.length)
    | none => .error (.unexpectedCharacter c)

/-- Reads at most `bound` tokens; every token takes at least one character, so the number of
characters is bound enough. -/
def scanUpTo : Nat → List Char → Except Fault (List Token)
  | 0, _ => .ok []
  | bound + 1, cs =>
    match Text.trimStart cs with
    | [] => .ok []
    | c :: rest => do
      let (token, rest) ← next c rest
      let tokens ← scanUpTo bound rest
      pure (token :: tokens)

def scan (text : String) : Except Fault (List Token) :=
  scanUpTo text.length text.toList

end Token

end StateSpace.Formula
