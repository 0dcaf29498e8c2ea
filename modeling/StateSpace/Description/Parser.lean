import StateSpace.Description.Header
import StateSpace.Failure
import StateSpace.Formula.Parser
import StateSpace.System

/-!
# Reading system descriptions

A description is read line by line. Headers open sections: variables, labels, and the parameters,
preconditions and effects of the label opened last, and initial values. Lines directly below the
header of a label are prose. Blank lines and lines that start with two slashes are skipped. What
stands behind a header is read as the first line of its section.

Within effects and initial values a line that assigns to a state variable is content, even if the
variable is named like a keyword.
-/

namespace StateSpace.Description

/-- The part of a description that a line belongs to. -/
inductive Part where
  | outside
  | declarations
  | prose
  | parameters
  | preconditions
  | effects
  | initialValues
  deriving DecidableEq, Repr, Inhabited

structure Draft where
  system : System := {}
  current : Option Label := none
  part : Part := .outside
  /-- The number of labels that were given no name. -/
  anonymous : Nat := 0
  deriving Inhabited

namespace Draft

/-- The draft with the label opened last closed. -/
def closeLabel (d : Draft) : Draft :=
  match d.current with
  | none => d
  | some l => { d with system := d.system.addLabel l, current := none }

def finish (d : Draft) : System :=
  d.closeLabel.system

/-- The variables that a precondition may mention. -/
def scope (d : Draft) : List Variable :=
  d.system.stateVariables ++ (d.current.map Label.parameters).getD []

/-- Whether a line assigns to a state variable where assignments are expected. -/
def isAssignment (d : Draft) (line : List Char) : Bool :=
  if d.part = .effects || d.part = .initialValues then
    match Text.splitOnce ':' line with
    | some (name, text) =>
      !(Text.trim text).isEmpty && (d.system.findVariable? (String.ofList (Text.trim name))).isSome
    | none => false
  else false

/-- The label opened last; there has to be one. -/
def currentLabel (d : Draft) (line : Nat) : Except Failure Label :=
  match d.current with
  | some l => .ok l
  | none => .error (.description line .outsideLabel)

/-! ## Headers -/

/-- The name behind the header of a label; labels without one are numbered. -/
def labelName (d : Draft) (line : Nat) (rest : List Char) : Except Failure (String × Nat) :=
  match Text.firstWord? rest with
  | none => .ok (s!"t_{d.anonymous}", d.anonymous + 1)
  | some token =>
    let name := (token.reverse.dropWhile (· == ':')).reverse
    if Text.isName name then .ok (String.ofList name, d.anonymous)
    else .error (.description line (.invalidLabelName (String.ofList token)))

/-- Opens a label over the variables declared so far. -/
def openLabel (d : Draft) (line : Nat) (isConstructor : Bool) (rest : List Char) :
    Except Failure Draft := do
  let d := d.closeLabel
  let (name, anonymous) ← d.labelName line rest
  pure { d with
    current := some { d.system.newLabel name with isConstructor }
    part := .prose
    anonymous }

def openLabelPart (d : Draft) (line : Nat) (part : Part) : Except Failure Draft := do
  let _ ← d.currentLabel line
  pure { d with part }

def openSection (d : Draft) (line : Nat) (keyword : Keyword) (rest : List Char) :
    Except Failure Draft :=
  match keyword with
  | .declarations => .ok { d with part := .declarations }
  | .init => .ok { d with part := .initialValues }
  | .transition => d.openLabel line false rest
  | .constructor => d.openLabel line true rest
  | .parameter => d.openLabelPart line .parameters
  | .precondition => d.openLabelPart line .preconditions
  | .effect => d.openLabelPart line .effects

/-! ## Content -/

def readDeclaration (line : Nat) (text : List Char) : Except Failure (List Variable) :=
  (Declaration.parse text).mapError fun fault => .description line (.declaration fault)

def readFormula (line : Nat) (text : List Char) (scope : List Variable) : Except Failure Expr :=
  (Formula.parseFormula (String.ofList text) scope).mapError fun fault =>
    .description line (.formula fault)

/-- A name in front of a colon, in which spaces do not count. -/
def assignedName (name : List Char) : String :=
  String.ofList (name.filter (· != ' '))

/-- Reads an effect: an assignment to a state variable, or the word for an error. -/
def readEffect (d : Draft) (line : Nat) (text : List Char) : Except Failure Draft := do
  match Text.splitOnce ':' text with
  | none =>
    if Text.startsWithWord "ERROR".toList text then
      let l ← d.currentLabel line
      pure { d with current := some { l with isError := true } }
    else throw (.description line (.expectedEffect (String.ofList text)))
  | some (name, body) =>
    let name := assignedName name
    match d.system.findVariable? name with
    | none => throw (.description line (.modifiesUnknown name))
    | some x =>
      let effect ← readFormula line body (d.scope ++ [x.primed])
      let l ← d.currentLabel line
      match l.addEffect? x effect with
      | some l => pure { d with current := some l }
      | none => throw (.undeclared x.name)

def readInitialValue (d : Draft) (line : Nat) (text : List Char) : Except Failure Draft := do
  match Text.splitOnce ':' text with
  | none => throw (.description line (.expectedInitialValue (String.ofList text)))
  | some (name, body) =>
    let name := assignedName name
    match d.system.findVariable? name with
    | none => throw (.description line (.initialValueOfUnknown name))
    | some x =>
      let value ← readFormula line body d.system.stateVariables
      pure { d with system := d.system.setInitialValue x value }

def readContent (d : Draft) (line : Nat) (text : List Char) : Except Failure Draft := do
  match d.part with
  | .outside => throw (.description line (.outsideSection (String.ofList text)))
  | .prose => pure d
  | .declarations =>
    let xs ← readDeclaration line text
    pure { d with system := d.system.addVariables xs }
  | .parameters =>
    let xs ← readDeclaration line text
    let l ← d.currentLabel line
    pure { d with current := some (xs.foldl Label.addParameter l) }
  | .preconditions =>
    let e ← readFormula line text d.scope
    let l ← d.currentLabel line
    pure { d with current := some (l.addPrecondition e) }
  | .effects => d.readEffect line text
  | .initialValues => d.readInitialValue line text

/-- Reads a line, which holds less than `bound` headers one behind the other. -/
def readLine (line : Nat) : Nat → List Char → Draft → Except Failure Draft
  | 0, _, d => .ok d
  | bound + 1, text, d => do
    let text := Text.trim text
    if text.isEmpty || "//".toList.isPrefixOf text then pure d
    else
      match if d.isAssignment text then none else Keyword.split? text with
      | none => d.readContent line text
      | some (keyword, rest) =>
        let d ← d.openSection line keyword rest
        if keyword.opensLabel || rest.isEmpty then pure d else readLine line bound rest d

/-- Reads some lines. Each header takes characters from its line, so there are fewer headers in a
line than characters. -/
def readLines (d : Draft) (lines : List (Nat × List Char)) : Except Failure Draft :=
  lines.foldlM (fun d (line, text) => readLine line (text.length + 1) text d) d

end Draft

/-- Reads the description of a transition system. -/
def parseSystem (text : String) : Except Failure System := do
  let d ← Draft.readLines {} (Text.numberedLines text)
  pure d.finish

end StateSpace.Description
