import StateSpace.Expr.Basic

/-!
# The meaning of expressions

Expressions are evaluated in two's complement of the width of their type. A value is the whole
number that the bits spell at that type: signed types give negative numbers, and truth values are 0
and 1.

* An operation is signed if its left operand is; the right operand is read at the type of the left.
* Division truncates, and the remainder has the sign of the dividend. Dividing by zero leaves the
  dividend as the remainder; the quotient has all bits set, except that it is 1 if the dividend is
  negative.
* A shift takes its amount modulo the next power of two that is no less than the width, and at
  least 2.
* A cast to a boolean asks whether the value is not zero; other casts keep the value as far as the
  width allows.
* A quantifier ranges over all values of its variables.

What reals are is left open: evaluation is relative to a meaning of them, `Reals`.
-/

namespace StateSpace

/-- A meaning of the reals. Each of the three types has countably many values at most, so that whole
numbers can name them; nothing is asked of the operations, except that equality is identity. -/
class Reals where
  /-- The one name of the real that a number names. -/
  round : Precision → Int → Int
  /-- The real that a numeral spells. -/
  constant : Precision → String → Int
  compare : Precision → Comparison → Int → Int → Bool
  arith : Precision → Arithmetic → Int → Int → Int
  bitwise (left right : ValueType) : Bitwise → Int → Int → Int
  negate : Precision → Int → Int
  complement : Precision → Int → Int
  /-- The value at a type of a value at another one, if one of the two is a type of reals. -/
  convert (source target : ValueType) : Int → Int
  /-- Some real with a property, if there is one. -/
  find? : Precision → (Int → Bool) → Option Int
  round_round : ∀ p n, round p (round p n) = round p n
  compare_eq : ∀ p m n, compare p .eq m n = true ↔ round p m = round p n
  find?_eq_some : ∀ {p f n}, find? p f = some n → f n = true
  find?_eq_none : ∀ {p f}, find? p f = none → ∀ n, f (round p n) = false

/-- One thing for the types of reals, another one for all other types. -/
def ValueType.ifReal {α : Type} (t : ValueType) (real : Precision → α) (whole : α) : α :=
  match t with
  | .real p => real p
  | _ => whole

/-- Values for all variables; each is read at the variable's type. -/
abbrev Environment := Variable → Int

variable [Reals]

namespace ValueType

/-- A number as a value of a type: wrapped, or the name of a real. -/
def hold (t : ValueType) (n : Int) : Int :=
  t.ifReal (Reals.round · n) (t.wrap n)

/-- A value of another type, read at a type. -/
def convert (t source : ValueType) (n : Int) : Int :=
  t.hold (if t ≠ source ∧ (t.isReal || source.isReal) then Reals.convert source t n else n)

/-- Whether some number in the range of a type has a property. -/
def anyValue (t : ValueType) (f : Int → Bool) : Bool :=
  t.ifReal (fun p => (Reals.find? p f).isSome) ((List.range t.modulus).any fun n => f n)

end ValueType

namespace Environment

/-- The value of a variable, in the range of its type. -/
def get (ρ : Environment) (x : Variable) : Int :=
  x.type.hold (ρ x)

def set (ρ : Environment) (x : Variable) (n : Int) : Environment :=
  fun y => if y = x then n else ρ y

/-- Whether two environments give the same values to some variables. -/
def AgreeOn (xs : List Variable) (ρ ρ' : Environment) : Prop :=
  ∀ x ∈ xs, ρ.get x = ρ'.get x

/-- Whether a property holds for some values of the given variables. -/
def someOver (p : Environment → Bool) : List Variable → Environment → Bool
  | [], ρ => p ρ
  | x :: xs, ρ => x.type.anyValue fun n => someOver p xs (ρ.set x n)

/-- Whether a property holds for all values of the given variables. -/
def everyOver (p : Environment → Bool) (xs : List Variable) (ρ : Environment) : Bool :=
  !someOver (fun ρ => !p ρ) xs ρ

end Environment

def truthValue (b : Bool) : Int := if b then 1 else 0

def Connective.eval : Connective → Bool → Bool → Bool
  | and, a, b => a && b
  | or, a, b => a || b
  | equiv, a, b => a == b
  | implies, a, b => !a || b
  | xor, a, b => a != b

def Comparison.eval : Comparison → Int → Int → Bool
  | eq, a, b => a = b
  | ne, a, b => a ≠ b
  | lt, a, b => a < b
  | le, a, b => a ≤ b
  | gt, a, b => b < a
  | ge, a, b => b ≤ a

/-- Arithmetic on numbers in the range of a type. -/
def Arithmetic.eval (t : ValueType) : Arithmetic → Int → Int → Int
  | add, a, b => t.wrap (a + b)
  | sub, a, b => t.wrap (a - b)
  | mul, a, b => t.wrap (a * b)
  | div, a, b => if b = 0 then (if a < 0 then 1 else t.wrap (-1)) else t.wrap (a.tdiv b)
  | rem, a, b => if b = 0 then a else a.tmod b

/-- The range of shift amounts at a type: the next power of two that is no less than the width. -/
def shiftRange (t : ValueType) : Nat :=
  Nat.pow 2 (Nat.log2 (max (t.width?.getD 64) 2 - 1) + 1)

/-- An operation on the bits of a number in the range of a type, and the bits of another number. -/
def Bitwise.eval (t : ValueType) (op : Bitwise) (a : Int) (b : Nat) : Int :=
  let steps := b % shiftRange t
  match op with
  | .and => t.wrap (t.bits a &&& b : Nat)
  | .or => t.wrap (t.bits a ||| b : Nat)
  | .xor => t.wrap (t.bits a ^^^ b : Nat)
  | .shiftLeft => t.wrap (a * Nat.pow 2 steps)
  | .shiftRight => t.wrap (a / Nat.pow 2 steps)
  | .shiftRightZero => t.wrap (t.bits a / Nat.pow 2 steps : Nat)

namespace Expr

/-- The value of an expression, in the range of its type. -/
def eval : Expr → Environment → Int
  | const (.bool b), _ => truthValue b
  | const (.int n t), _ => t.hold n
  | const (.real text t), _ => t.ifReal (fun p => Reals.round p (Reals.constant p text)) 0
  | var x, ρ => ρ.get x
  | not e, ρ => truthValue (e.eval ρ = 0)
  | logical op l r, ρ => truthValue (op.eval (l.eval ρ ≠ 0) (r.eval ρ ≠ 0))
  | compare op l r, ρ =>
    let a := l.eval ρ
    let b := l.type.convert r.type (r.eval ρ)
    truthValue (l.type.ifReal (Reals.compare · op a b) (op.eval a b))
  | arith op l r, ρ =>
    let a := l.eval ρ
    let b := l.type.convert r.type (r.eval ρ)
    l.type.ifReal (Reals.arith · op a b) (op.eval l.type a b)
  | bitwise op l r, ρ =>
    let a := l.eval ρ
    let b := r.eval ρ
    if l.type.isReal || r.type.isReal then Reals.bitwise l.type r.type op a b
    else op.eval l.type a (r.type.bits b)
  | negate e, ρ => e.type.ifReal (Reals.negate · (e.eval ρ)) (e.type.wrap (-e.eval ρ))
  | complement e, ρ => e.type.ifReal (Reals.complement · (e.eval ρ)) (e.type.wrap (-e.eval ρ - 1))
  | cast t e, ρ =>
    if t.isBool && !e.type.isReal then truthValue (e.eval ρ ≠ 0) else t.convert e.type (e.eval ρ)
  | quantified .existential xs body, ρ =>
    truthValue (Environment.someOver (fun ρ => body.eval ρ ≠ 0) xs ρ)
  | quantified .universal xs body, ρ =>
    truthValue (Environment.everyOver (fun ρ => body.eval ρ ≠ 0) xs ρ)

def holds (e : Expr) (ρ : Environment) : Bool :=
  e.eval ρ ≠ 0

end Expr

end StateSpace
