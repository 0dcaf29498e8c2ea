import StateSpace.Text.Character

/-!
# Headers of system descriptions

A header is a keyword on its own, a keyword with a colon behind it, or a keyword that opens a label
with the label's name behind it. Any other line that starts with a keyword is content.
-/

namespace StateSpace.Description

inductive Keyword where
  | declarations
  | transition
  | constructor
  | parameter
  | precondition
  | effect
  | init
  deriving DecidableEq, Repr, Inhabited

namespace Keyword

/-- The words for the keywords, in the order in which they are tried. -/
def words : List (String × Keyword) :=
  [("VARIABLES", declarations), ("TRANSITION", transition), ("CONSTRUCTOR", constructor),
    ("PARAMETER", parameter), ("PRECONDITION", precondition), ("EFFECTS", effect),
    ("EFFECT", effect), ("INIT", init)]

def opensLabel : Keyword → Bool
  | transition => true
  | constructor => true
  | _ => false

/-- The rest of a line behind a keyword, if the line is a header with it. -/
def rest? (keyword : Keyword) (after : List Char) : Option (List Char) :=
  match Text.trimStart after with
  | [] => some []
  | ':' :: tail => some (Text.trim tail)
  | c :: tail =>
    let spaced := (after.head?.map Text.isBlank).getD false
    if keyword.opensLabel && spaced && (c.isAlphanum || c == '_') then some (c :: tail) else none

/-- The keyword of a header and the rest of its line. -/
def split? (line : List Char) : Option (Keyword × List Char) :=
  words.findSome? fun (word, keyword) =>
    if Text.startsWithWord word.toList line then
      (keyword.rest? (line.drop word.length)).map fun rest => (keyword, rest)
    else none

end Keyword

end StateSpace.Description
