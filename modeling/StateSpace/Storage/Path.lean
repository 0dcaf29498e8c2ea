import StateSpace.Text.Lines

/-!
# Paths

A path is a way through folders, one step after the other: a single dot stays, two dots go up to the
folder around, and any other step is a name. Steps are divided by slashes, and doubled slashes count
once. A path starts at the root if its text starts with a slash, and in the working folder
otherwise.
-/

namespace StateSpace

/-- Why something cannot be done with files and folders. -/
inductive Obstacle where
  /-- A step of the path leads nowhere. -/
  | missing
  | notFolder
  | isFolder
  | occupied
  | tooLong
  | other (message : String)
  deriving DecidableEq, Repr, Inhabited

def Obstacle.message : Obstacle → String
  | missing => "No such file or directory"
  | notFolder => "Not a directory"
  | isFolder => "Is a directory"
  | occupied => "File exists"
  | tooLong => "File name too long"
  | other message => message

structure Path where
  fromRoot : Bool := false
  steps : List String
  /-- Whether a slash at the end says that the path leads to a folder. -/
  marksFolder : Bool := false
  deriving DecidableEq, Repr, Inhabited

namespace Path

def longest : Nat := 4095

def longestName : Nat := 255

/-- Reads a path. The empty text leads nowhere. -/
def ofText (text : String) : Except Obstacle Path :=
  if text.isEmpty then .error .missing
  else if longest < text.utf8ByteSize then .error .tooLong
  else
    let pieces := (Text.splitOn '/' text.toList).map String.ofList
    .ok
      { fromRoot := pieces.head? = some ""
        steps := pieces.filter (· ≠ "")
        marksFolder := pieces.getLast? = some "" }

def text (p : Path) : String :=
  (if p.fromRoot then "/" else "") ++ "/".intercalate p.steps ++
    (if p.marksFolder && !p.steps.isEmpty then "/" else "")

/-- The steps that do not stay. -/
def moves (p : Path) : List String :=
  p.steps.filter (· ≠ ".")

/-- The paths that stop one, two and more moves earlier, without those of no move at all. Steps that
stay are not counted, so a path that ends in one does not pass through the folder it stays in. -/
def ancestors (p : Path) : List Path :=
  ((List.range p.moves.length).drop 1).reverse.map fun count =>
    { fromRoot := p.fromRoot, steps := p.moves.take count }

end Path

end StateSpace
