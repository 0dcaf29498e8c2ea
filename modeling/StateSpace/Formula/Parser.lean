import StateSpace.Formula.Term

/-!
# Reading formulas

Binary operators stand on eleven levels of precedence, from equivalence and implication, which bind
least, to products. Operators of one level group to the left; a comparison has no comparison for an
operand without parentheses. Unary operators and casts bind more than any of them.

* `climb` builds the reader of all levels from the reader of operands;
* `formula` ties the knot: an operand may be a formula in parentheses;
* `parseExpression` and `parseFormula` read a whole text.
-/

namespace StateSpace.Formula

/-- A reader takes tokens from the front and returns the rest. -/
abbrev Reader (α : Type) := List Token → Except Fault (α × List Token)

/-- A level of precedence: the operators that group with each other. -/
inductive Level where
  | connectives (ops : List Connective)
  | comparisons
  | bitwise (ops : List Bitwise)
  | arithmetic (ops : List Arithmetic)
  deriving DecidableEq, Repr, Inhabited

namespace Level

/-- The levels, the one that binds least first. -/
def all : List Level :=
  [connectives [.equiv, .implies], connectives [.or], connectives [.xor], connectives [.and],
    comparisons,
    bitwise [.or], bitwise [.xor], bitwise [.and],
      bitwise [.shiftRightZero, .shiftLeft, .shiftRight],
    arithmetic [.add, .sub], arithmetic [.mul, .div, .rem]]

/-- How a mark combines two operands, if it is an operator of the level. -/
def combine? : Level → Mark → Option (Term → Term → Except Fault Term)
  | connectives ops, .connective op => if op ∈ ops then some (Term.connect op) else none
  | comparisons, .comparison op => some (Term.compare op)
  | bitwise ops, .bitwise op => if op ∈ ops then some (Term.combineBits op) else none
  | arithmetic ops, .arithmetic op => if op ∈ ops then some (Term.calculate op) else none
  | _, _ => none

/-- How many operators of the level may follow one another when `remaining` tokens are left. -/
def chainBound : Level → Nat → Nat
  | comparisons, _ => 1
  | _, remaining => remaining

end Level

/-- Reads at most `bound` operators of a level with their right operands, grouping to the left. -/
def chain (operand : Reader Term) (level : Level) : Nat → Term → Reader Term
  | 0, left, ts => .ok (left, ts)
  | bound + 1, left, .mark m :: ts =>
    match level.combine? m with
    | none => .ok (left, .mark m :: ts)
    | some combine => do
      let (right, rest) ← operand ts
      let both ← combine left right
      chain operand level bound both rest
  | _, left, ts => .ok (left, ts)

/-- The reader of the given levels over a reader of operands. -/
def climb (operand : Reader Term) : List Level → Reader Term
  | [] => operand
  | level :: levels => fun ts => do
    let next := climb operand levels
    let (left, rest) ← next ts
    chain next level (level.chainBound rest.length) left rest

/-- The variable of a name; the first one in the scope counts. -/
def lookUp (scope : List Variable) (name : String) : Except Fault Expr :=
  match scope.find? fun x => x.name == name with
  | some x => .ok (.var x)
  | none => .error (.undeclared name)

/-- Reads a literal, a truth value, a variable, or a formula in parentheses. -/
def primary (scope : List Variable) (inner : Reader Term) : Reader Term
  | [] => .error .endOfExpression
  | .int n :: ts => .ok (.int n, ts)
  | .real text :: ts => .ok (.real text, ts)
  | .name s :: ts =>
    if Text.sameIgnoringCase s "true" then .ok (.expr (.truth true), ts)
    else if Text.sameIgnoringCase s "false" then .ok (.expr (.truth false), ts)
    else do
      let e ← lookUp scope s
      pure (.expr e, ts)
  | .mark .opening :: ts => do
    let (t, rest) ← inner ts
    match rest with
    | .mark .closing :: rest => pure (t, rest)
    | found => throw (.expectedClosing found.head?)
  | .mark m :: _ => .error (.unexpectedMark m)

/-- Reads the unary operators and casts in front of a primary operand. A type name in parentheses is
a cast, whatever variables there are. -/
def unary (scope : List Variable) (inner : Reader Term) : Reader Term
  | .mark .bang :: ts => do
    let (t, rest) ← unary scope inner ts
    let e ← t.toBoolean
    pure (.expr (.not e), rest)
  | .mark .tilde :: ts => do
    let (t, rest) ← unary scope inner ts
    let e ← t.toExpr none
    pure (.expr (.complement e), rest)
  | .mark (.arithmetic .sub) :: ts => do
    let (t, rest) ← unary scope inner ts
    pure (t.negate, rest)
  | .mark .opening :: .name s :: .mark .closing :: ts =>
    match ValueType.ofName? s with
    | some type => do
      let (t, rest) ← unary scope inner ts
      let e ← t.castTo type
      pure (e, rest)
    | none => primary scope inner (.mark .opening :: .name s :: .mark .closing :: ts)
  | ts => primary scope inner ts

/-- Reads a formula whose parentheses are nested less than `depth` deep. -/
def formula (scope : List Variable) : Nat → Reader Term
  | 0 => fun _ => .error .endOfExpression
  | depth + 1 => climb (unary scope (formula scope depth)) Level.all

/-- Reads a text as an expression over the variables of a scope. There are fewer parentheses than
tokens, so the number of tokens is depth enough. -/
def parseExpression (text : String) (scope : List Variable) : Except Fault Expr := do
  let tokens ← (Token.scan text).mapError .token
  let (t, rest) ← formula scope (tokens.length + 1) tokens
  match rest with
  | [] => t.toExpr none
  | extra :: _ => throw (.leftover extra (Text.trimmed text))

/-- Reads a text as a boolean expression over the variables of a scope. -/
def parseFormula (text : String) (scope : List Variable) : Except Fault Expr := do
  let e ← parseExpression text scope
  if e.type = .bool then pure e else throw (.notBoolean (Text.trimmed text))

end StateSpace.Formula
