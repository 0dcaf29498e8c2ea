import StateSpace.Expr.Operator
import StateSpace.Value
import StateSpace.Variable

/-!
# Expressions

Expressions are trees over variables and constants. They are not typed by construction: `Expr.type`
reads a type off the tree, and what has no meaning is found out where an expression is used.

* `Expr.freeVariables` is the sorted list of the variables that occur free;
* `Expr.conj`, `Expr.disj` fold to the left, as the texts of states and regions show them;
* `Expr.closeOver` quantifies existentially, and leaves the expression alone if there is nothing to
  quantify.
-/

namespace StateSpace

inductive Expr where
  | const (value : Value)
  | var (x : Variable)
  | not (e : Expr)
  | logical (op : Connective) (l r : Expr)
  | compare (op : Comparison) (l r : Expr)
  | arith (op : Arithmetic) (l r : Expr)
  | bitwise (op : Bitwise) (l r : Expr)
  | negate (e : Expr)
  | complement (e : Expr)
  | cast (type : ValueType) (e : Expr)
  | quantified (q : Quantifier) (xs : List Variable) (body : Expr)
  deriving DecidableEq, Repr, Inhabited

namespace Expr

/-! ## Building -/

def truth (b : Bool) : Expr := const (.bool b)

def and (l r : Expr) : Expr := logical .and l r

def or (l r : Expr) : Expr := logical .or l r

/-- The type that an expression announces: comparisons and formulas are boolean, arithmetic takes
the type of its left operand. -/
def type : Expr → ValueType
  | const v => v.type
  | var x => x.type
  | not _ => .bool
  | logical _ _ _ => .bool
  | compare _ _ _ => .bool
  | arith _ l _ => l.type
  | bitwise _ l _ => l.type
  | negate e => e.type
  | complement e => e.type
  | cast t _ => t
  | quantified _ _ _ => .bool

/-- Equality of two terms: an equivalence if the left one is boolean, a comparison otherwise. -/
def equal (l r : Expr) : Expr :=
  if l.type = .bool then logical .equiv l r else compare .eq l r

/-- The conjunction of a list, folded to the left; true if the list is empty. -/
def conj : List Expr → Expr
  | [] => truth true
  | e :: es => es.foldl and e

/-- The disjunction of a list, folded to the left; false if the list is empty. -/
def disj : List Expr → Expr
  | [] => truth false
  | e :: es => es.foldl or e

/-- Existential quantification over a list of variables, left out if the list is empty. -/
def closeOver (xs : List Variable) (body : Expr) : Expr :=
  if xs.isEmpty then body else quantified .existential xs body

def isTrue : Expr → Bool
  | const (.bool true) => true
  | _ => false

/-! ## Free variables -/

/-- Inserts a variable into a sorted list of variables, unless it is there already. -/
def insertVariable (x : Variable) : List Variable → List Variable
  | [] => [x]
  | y :: ys =>
    match Ord.compare x y with
    | .lt => x :: y :: ys
    | .eq => y :: ys
    | .gt => y :: insertVariable x ys

/-- Adds the variables that occur free in an expression, outside the scopes of `bound`, to a sorted
list. -/
def addFree (bound : List Variable) : Expr → List Variable → List Variable
  | const _, acc => acc
  | var x, acc => if bound.contains x then acc else insertVariable x acc
  | not e, acc => addFree bound e acc
  | logical _ l r, acc => addFree bound r (addFree bound l acc)
  | compare _ l r, acc => addFree bound r (addFree bound l acc)
  | arith _ l r, acc => addFree bound r (addFree bound l acc)
  | bitwise _ l r, acc => addFree bound r (addFree bound l acc)
  | negate e, acc => addFree bound e acc
  | complement e, acc => addFree bound e acc
  | cast _ e, acc => addFree bound e acc
  | quantified _ xs body, acc => addFree (xs ++ bound) body acc

/-- The variables that occur free, sorted and without repetition. -/
def freeVariables (e : Expr) : List Variable :=
  addFree [] e []

def mentionsAny (e : Expr) (xs : List Variable) : Bool :=
  let free := e.freeVariables
  xs.any free.contains

/-- The expression with every free variable outside `visible` quantified existentially. -/
def projectOnto (visible : List Variable) (e : Expr) : Expr :=
  closeOver (e.freeVariables.filter fun x => !visible.contains x) e

/-! ## Texts -/

/-- The text of an expression. Every binary node is parenthesised, so that the text shows the tree;
quantifiers list the names of their variables without types. -/
def text : Expr → String
  | const v => v.text
  | var x => x.name
  | not e => "!" ++ e.text
  | logical op l r => "(" ++ l.text ++ " " ++ op.symbol ++ " " ++ r.text ++ ")"
  | compare op l r => "(" ++ l.text ++ " " ++ op.symbol ++ " " ++ r.text ++ ")"
  | arith op l r => "(" ++ l.text ++ " " ++ op.symbol ++ " " ++ r.text ++ ")"
  | bitwise op l r => "(" ++ l.text ++ " " ++ op.symbol ++ " " ++ r.text ++ ")"
  | negate e => "-" ++ e.text
  | complement e => "~" ++ e.text
  | cast t e => "((" ++ t.name ++ ") " ++ e.text ++ ")"
  | quantified q xs body =>
    "(" ++ q.symbol ++ " " ++ ", ".intercalate (xs.map Variable.name) ++ ": " ++ body.text ++ ")"

end Expr

end StateSpace
