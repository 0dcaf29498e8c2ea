import StateSpace.Failure
import StateSpace.System
import StateSpace.Text.Lines

/-!
# Reading systems from records

The reader takes tokens from the front of a record. It accepts more than is ever written: records in
any order and any number, type names in any letter case, and blanks at the end of a line.
-/

namespace StateSpace.Record

/-- Reading steps take characters from the front of a record. -/
abbrev Scan := StateT (List Char) (Except Failure)

/-- Fails because of what is wrong with a record. -/
def fail {α : Type} (line : Nat) (fault : Fault) : Scan α :=
  throw (.record line fault)

/-- Fails because of what is wrong with the rest of a record. -/
def failAt {α : Type} (line : Nat) (fault : String → Fault) : Scan α := do
  fail line (fault (String.ofList (← get)))

/-! ## Tokens -/

/-- Reads a tag, which is one character with a colon behind it. -/
def tag (line : Nat) : Scan Char := do
  match ← get with
  | c :: ':' :: rest =>
    set rest
    return c
  | _ => failAt line .expectedTag

def expect (line : Nat) (token : String) : Scan Unit := do
  let rest ← get
  if token.toList.isPrefixOf rest then set (rest.drop token.length)
  else failAt line (.expected token)

/-- Reads up to a mark, which is dropped. -/
def upTo (line : Nat) (mark : Char) : Scan String := do
  match Text.splitOnce mark (← get) with
  | some (text, rest) =>
    set rest
    return String.ofList text
  | none => failAt line (.missing mark)

def type (line : Nat) : Scan ValueType := do
  let token ← upTo line ';'
  ValueType.read token

def operator {α : Type} (line : Nat) (ofName? : String → Option α) : Scan α := do
  expect line "o:"
  let name ← upTo line ';'
  match ofName? name with
  | some op => return op
  | none => fail line (.unknownOperator name)

/-! ## Variables and expressions -/

def variableBody (line : Nat) : Scan Variable := do
  let name ← upTo line ':'
  let t ← type line
  return ⟨name, t⟩

def variableToken (line : Nat) : Scan Variable := do
  let c ← tag line
  if c ≠ 'v' then fail line (.expectedVariable c)
  variableBody line

def variableTokens (line : Nat) : Nat → Scan (List Variable)
  | 0 => return []
  | count + 1 => do
    let x ← variableToken line
    let xs ← variableTokens line count
    return x :: xs

def constantBody (line : Nat) : Scan Expr := do
  let text ← upTo line ':'
  let t ← type line
  match Value.parse? text t with
  | some value => return .const value
  | none => fail line (.invalidConstant t text)

/-- Reads the variables of a quantifier, their number first. -/
def boundVariables (line : Nat) : Scan (List Variable) := do
  let text ← upTo line ';'
  match Text.unsigned64? text.toList with
  | some count => variableTokens line count
  | none => fail line (.invalidCount text)

/-- Reads an expression that is nested less than `depth` deep. -/
def exprUpTo (line : Nat) : Nat → Scan Expr
  | 0 => failAt line .expectedTag
  | depth + 1 => do
    let c ← tag line
    match c with
    | 'v' => return .var (← variableBody line)
    | 'c' => constantBody line
    | 'n' => return .not (← exprUpTo line depth)
    | 'm' => return .negate (← exprUpTo line depth)
    | '~' => return .complement (← exprUpTo line depth)
    | 'k' =>
      let t ← type line
      return .cast t (← exprUpTo line depth)
    | 'p' =>
      let op ← operator line Connective.ofName?
      let l ← exprUpTo line depth
      return .logical op l (← exprUpTo line depth)
    | 'r' =>
      let op ← operator line Comparison.ofName?
      let l ← exprUpTo line depth
      return .compare op l (← exprUpTo line depth)
    | 'a' =>
      let op ← operator line Arithmetic.ofName?
      let l ← exprUpTo line depth
      return .arith op l (← exprUpTo line depth)
    | 'w' =>
      let op ← operator line Bitwise.ofName?
      let l ← exprUpTo line depth
      return .bitwise op l (← exprUpTo line depth)
    | 'q' =>
      let q ← operator line Quantifier.ofName?
      let xs ← boundVariables line
      return .quantified q xs (← exprUpTo line depth)
    | _ => fail line (.unknownExpression c)

/-- Reads an expression. Each node takes characters, so their number is depth enough. -/
def expr (line : Nat) : Scan Expr := do
  exprUpTo line (← get).length

/-! ## Records -/

/-- Whether a semicolon, which ends a list of items, comes next. -/
def atSemicolon : Scan Bool := do
  return (← get).head? == some ';'

/-- Reads items up to a semicolon, but no more than `bound + 1`. Each item takes characters, so
their number is bound enough. -/
def items {α : Type} (item : α → Scan α) : Nat → α → Scan α
  | 0, acc => do
    if ← atSemicolon then return acc else item acc
  | bound + 1, acc => do
    if ← atSemicolon then return acc
    let acc ← item acc
    items item bound acc

def allItems {α : Type} (item : α → Scan α) (acc : α) : Scan α := do
  items item (← get).length acc

/-- The kind of a label by its word: whether it is a constructor, and whether it leads to an
error. -/
def kindOfName? : String → Option (Bool × Bool)
  | "ok" => some (false, false)
  | "error" => some (false, true)
  | "constructor" => some (true, false)
  | "constructor_error" => some (true, true)
  | _ => none

def parameter (line : Nat) (l : Label) : Scan Label := do
  return l.addParameter (← variableToken line)

def precondition (line : Nat) (l : Label) : Scan Label := do
  return l.addPrecondition (← expr line)

def effect (line : Nat) (l : Label) : Scan Label := do
  expect line "e:"
  let x ← variableToken line
  let e ← expr line
  expect line ";"
  match l.addEffect? x e with
  | some l => return l
  | none => throw (.undeclared x.name)

/-- Reads a label over the variables of a system, behind its tag. -/
def label (line : Nat) (s : System) : Scan Label := do
  let name ← upTo line ':'
  let kind ← upTo line ';'
  match kindOfName? kind with
  | none => fail line (.unknownKind kind)
  | some (isConstructor, isError) =>
    let l := { s.newLabel name with isConstructor, isError }
    expect line "P:"
    let l ← allItems (parameter line) l
    expect line ";G:"
    let l ← allItems (precondition line) l
    expect line ";F:"
    let l ← allItems (effect line) l
    expect line ";"
    return l

/-- Nothing may follow. -/
def finish (line : Nat) : Scan Unit := do
  if !(← get).isEmpty then failAt line .trailing

/-- Reads variables to the end of a record, but no more than `bound`. -/
def declarations (line : Nat) : Nat → Scan (List Variable)
  | 0 => return []
  | bound + 1 => do
    if (← get).isEmpty then return []
    let x ← variableToken line
    let xs ← declarations line bound
    return x :: xs

/-- Reads a record and adds what it declares to a system. -/
def record (line : Nat) (s : System) : Scan System := do
  let c ← tag line
  match c with
  | 'D' =>
    let xs ← declarations line (← get).length
    return s.addVariables xs
  | 'I' =>
    let x ← variableToken line
    let e ← expr line
    finish line
    match s.findVariable? x.name with
    | some x => return s.setInitialValue x e
    | none => throw (.undeclared x.name)
  | 'L' =>
    let l ← label line s
    finish line
    return s.addLabel l
  | _ => fail line (.unknownRecord c)

/-- Reads a line; empty ones are skipped. -/
def readLine (s : System) (line : Nat) (text : List Char) : Except Failure System :=
  match Text.trimEnd text with
  | [] => .ok s
  | cs => (record line s).run' cs

/-- Reads a persisted transition system. -/
def readSystem (text : String) : Except Failure System :=
  (Text.numberedLines text).foldlM (fun s (line, cs) => readLine s line cs) {}

end StateSpace.Record
