import StateSpace.Circuit.Word
import StateSpace.Diagram.Quantifier
import StateSpace.Expr.Basic

/-!
# Expressions as circuits

Each variable of an expression gets a slot in the order in which it is met, and each of its bits a
decision variable. The bits of all variables are interleaved, all lowest bits first, which keeps
sums, equalities and comparisons small. An expression becomes a word; a formula is a boolean
expression and becomes a single function. Reals, operands of different widths and booleans under an
order have no circuit.
-/

namespace StateSpace.Circuit

open StateSpace.Diagram

/-- Why an expression has no circuit. -/
inductive Unsupported where
  | noBits (type : ValueType)
  | realConstant (text : String)
  | notBoolean (e : Expr)
  | comparisonWidths (op : Comparison) (l r : Expr)
  | orderedBooleans (op : Comparison) (l r : Expr)
  | operandWidths (e : Expr)
  deriving DecidableEq, Repr, Inhabited

def Unsupported.message : Unsupported → String
  | noBits t => s!"type {t.name} has no bit-vector encoding"
  | realConstant text => s!"real constant {text}"
  | notBoolean e => s!"not a boolean formula: {e.text}"
  | comparisonWidths op l r => s!"width mismatch in comparison: {l.text} {op.symbol} {r.text}"
  | orderedBooleans op l r => s!"ordering on booleans: {l.text} {op.symbol} {r.text}"
  | operandWidths e => s!"width mismatch in {e.text}"

/-- A diagram under construction, with the slots of the variables met so far. -/
structure Encoder where
  diagram : Manager
  slots : Std.HashMap Variable Nat

/-- The encoder that has met no variable. -/
def Encoder.ofManager (diagram : Manager) : Encoder := ⟨diagram, {}⟩

/-- Encoding steps. A step that fails keeps what it has built. -/
abbrev Encode := EStateM Unsupported Encoder

def Encode.ofBuild {α : Type} (step : Build α) : Encode α
  | ⟨diagram, slots⟩ =>
    match step diagram with
    | (a, diagram) => .ok a ⟨diagram, slots⟩

instance : MonadLift Build Encode where
  monadLift := Encode.ofBuild

/-! ## Variables -/

/-- The width of a type, if it has bits. -/
def widthOf (t : ValueType) : Encode Nat :=
  match t.width? with
  | some w => pure w
  | none => throw (.noBits t)

/-- The slot of a variable, the next free one if it is met for the first time. -/
def slotOf (x : Variable) : Encode Nat
  | ⟨diagram, slots⟩ =>
    match slots[x]? with
    | some slot => .ok slot ⟨diagram, slots⟩
    | none => .ok slots.size ⟨diagram, slots.insert x slots.size⟩

/-- The number of variables for which decision variables are set aside at each bit. -/
def slotCount : Nat := Nat.pow 2 20

/-- The decision variable of a bit of the variable at a slot. -/
def bitIndex (slot bit : Nat) : Nat :=
  bit * slotCount + slot + 1

/-- The decision variables of a variable, the one of its lowest bit first. -/
def indicesOf (x : Variable) : Encode (List Nat) := do
  let width ← widthOf x.type
  let slot ← slotOf x
  pure ((List.range width).map (bitIndex slot))

def variableWord (x : Variable) : Encode Word := do
  let indices ← indicesOf x
  let bits : Build Word := indices.mapM mkVariable
  bits

/-! ## Expressions -/

/-- The function of a boolean expression, given how to build its word. -/
def formulaOf (e : Expr) (word : Encode Word) : Encode Edge := do
  if e.type = .bool then
    let bits ← word
    pure (bits.headD .zero)
  else throw (.notBoolean e)

def connect (op : Connective) (f g : Edge) : Build Edge :=
  match op with
  | .and => and f g
  | .or => or f g
  | .equiv => iff f g
  | .implies => imply f g
  | .xor => xor f g

/-- Whether a comparison is an order, and not an (in)equality. -/
def isOrder (op : Comparison) : Bool :=
  op ≠ .eq && op ≠ .ne

/-- A comparison of two words of one length. -/
def compareWords (op : Comparison) (signed : Bool) (a b : Word) : Build Edge :=
  match op with
  | .eq => equal a b
  | .ne => do
    let e ← equal a b
    pure (-e)
  | .lt => lessThan signed a b
  | .gt => lessThan signed b a
  | .le => do
    let e ← lessThan signed b a
    pure (-e)
  | .ge => do
    let e ← lessThan signed a b
    pure (-e)

/-- Arithmetic on two words of one length. -/
def calculate (op : Arithmetic) (signed : Bool) (a b : Word) : Build Word :=
  match op with
  | .add => add a b .zero
  | .sub => sub a b
  | .mul => mul a b
  | .div => do
    let (quotient, _) ← divide signed a b
    pure quotient
  | .rem => do
    let (_, remainder) ← divide signed a b
    pure remainder

/-- The connective that an operation applies to each pair of bits; shifts have none. -/
def bitConnective? : Bitwise → Option (Edge → Edge → Build Edge)
  | .and => some and
  | .or => some or
  | .xor => some xor
  | _ => none

/-- How an operation shifts; arithmetically to the right if the left operand is signed. -/
def shiftKind (op : Bitwise) (signed : Bool) : Shift :=
  match op with
  | .shiftLeft => .left
  | .shiftRight => if signed then .arithmetic else .logical
  | _ => .logical

/-- The word of an expression; a boolean one has a single bit. -/
def wordOf : Expr → Encode Word
  | .const (.bool b) => pure [.constant b]
  | .const (.int n t) => do
    let width ← widthOf t
    pure (constant (t.bits n) width)
  | .const (.real text _) => throw (.realConstant text)
  | .var x => variableWord x
  | .not e => do
    let f ← formulaOf e (wordOf e)
    pure [-f]
  | .logical op l r => do
    let f ← formulaOf l (wordOf l)
    let g ← formulaOf r (wordOf r)
    let e ← connect op f g
    pure [e]
  | .compare op l r => do
    let a ← wordOf l
    let b ← wordOf r
    if a.length ≠ b.length then throw (.comparisonWidths op l r)
    if isOrder op && l.type.isBool then throw (.orderedBooleans op l r)
    let e ← compareWords op l.type.isSigned a b
    pure [e]
  | .arith op l r => do
    let a ← wordOf l
    let b ← wordOf r
    if a.length ≠ b.length then throw (.operandWidths (.arith op l r))
    calculate op l.type.isSigned a b
  | .bitwise op l r => do
    let a ← wordOf l
    let b ← wordOf r
    match bitConnective? op with
    | some connective =>
      if a.length ≠ b.length then throw (.operandWidths (.bitwise op l r))
      zipBits connective a b
    | none => shift (shiftKind op l.type.isSigned) a b
  | .negate e => do
    let a ← wordOf e
    negate a
  | .complement e => do
    let a ← wordOf e
    pure (complement a)
  | .cast .bool e => do
    let a ← wordOf e
    let isZero ← equal a (constant 0 a.length)
    pure [-isZero]
  | .cast t e => do
    let width ← widthOf t
    let a ← wordOf e
    pure (resize (if e.type.isSigned then sign a else .zero) width a)
  | .quantified q xs body => do
    let indices ← xs.flatMapM indicesOf
    let f ← formulaOf body (wordOf body)
    match q with
    | .existential => do
      let e ← existsOver indices f
      pure [e]
    | .universal => do
      let e ← forallOver indices f
      pure [e]

def functionOf (e : Expr) : Encode Edge :=
  formulaOf e (wordOf e)

end StateSpace.Circuit
