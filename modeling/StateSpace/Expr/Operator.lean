/-!
# Operators

The operator families of expressions. Each operator has the symbol by which formulas write it and
the upper-case name by which records of persisted systems write it; within a family both are
distinct.
-/

namespace StateSpace

inductive Connective where
  | and
  | or
  | equiv
  | implies
  | xor
  deriving DecidableEq, Repr, Inhabited

/-- Comparisons of two operands of one width. -/
inductive Comparison where
  | eq
  | ne
  | lt
  | le
  | gt
  | ge
  deriving DecidableEq, Repr, Inhabited

inductive Arithmetic where
  | add
  | sub
  | mul
  | div
  | rem
  deriving DecidableEq, Repr, Inhabited

inductive Bitwise where
  | and
  | or
  | xor
  | shiftLeft
  | shiftRight
  | shiftRightZero
  deriving DecidableEq, Repr, Inhabited

inductive Quantifier where
  | existential
  | universal
  deriving DecidableEq, Repr, Inhabited

namespace Connective

def all : List Connective := [and, or, equiv, implies, xor]

def symbol : Connective → String
  | and => "&&"
  | or => "||"
  | equiv => "<=>"
  | implies => "->"
  | xor => "^^"

def name : Connective → String
  | and => "AND"
  | or => "OR"
  | equiv => "EQUIV"
  | implies => "IMPLY"
  | xor => "XOR"

def ofName? (s : String) : Option Connective := all.find? fun op => op.name == s

end Connective

namespace Comparison

def all : List Comparison := [eq, ne, lt, le, gt, ge]

def symbol : Comparison → String
  | eq => "=="
  | ne => "!="
  | lt => "<"
  | le => "<="
  | gt => ">"
  | ge => ">="

def name : Comparison → String
  | eq => "EQ"
  | ne => "NE"
  | lt => "LT"
  | le => "LE"
  | gt => "GT"
  | ge => "GE"

def ofName? (s : String) : Option Comparison := all.find? fun op => op.name == s

end Comparison

namespace Arithmetic

def all : List Arithmetic := [add, sub, mul, div, rem]

def symbol : Arithmetic → String
  | add => "+"
  | sub => "-"
  | mul => "*"
  | div => "/"
  | rem => "%"

def name : Arithmetic → String
  | add => "PLUS"
  | sub => "MINUS"
  | mul => "MUL"
  | div => "DIV"
  | rem => "REM"

def ofName? (s : String) : Option Arithmetic := all.find? fun op => op.name == s

end Arithmetic

namespace Bitwise

def all : List Bitwise := [and, or, xor, shiftLeft, shiftRight, shiftRightZero]

def symbol : Bitwise → String
  | and => "&"
  | or => "|"
  | xor => "^"
  | shiftLeft => "<<"
  | shiftRight => ">>"
  | shiftRightZero => ">>>"

def name : Bitwise → String
  | and => "AND"
  | or => "OR"
  | xor => "XOR"
  | shiftLeft => "SHIFTL"
  | shiftRight => "SHIFTR"
  | shiftRightZero => "SHIFTUR"

def ofName? (s : String) : Option Bitwise := all.find? fun op => op.name == s

end Bitwise

namespace Quantifier

def all : List Quantifier := [existential, universal]

def symbol : Quantifier → String
  | existential => "exists"
  | universal => "forall"

def name : Quantifier → String
  | existential => "EXISTS"
  | universal => "FORALL"

def ofName? (s : String) : Option Quantifier := all.find? fun op => op.name == s

end Quantifier

end StateSpace
