import StateSpace.Text.Character

/-!
# Configurations

Which engines run, how deep, and what is written afterwards.
-/

namespace StateSpace

inductive Mode where
  /-- Unrolling by depth. -/
  | unroll
  /-- Region search on symbolic states. -/
  | symbolic
  /-- Region search on concrete states. -/
  | enumerative
  /-- Region search on symbolic states that halts at the first error. -/
  | synchronised
  deriving DecidableEq, Repr, Inhabited

namespace Mode

def all : List Mode := [unroll, symbolic, enumerative, synchronised]

def name : Mode → String
  | unroll => "unroll"
  | symbolic => "symbolic"
  | enumerative => "enumerative"
  | synchronised => "synchronised"

/-- Reads the name of an engine in any letter case, with blanks around it. -/
def ofName? (text : String) : Option Mode :=
  all.find? fun m => Text.sameIgnoringCase m.name (Text.trimmed text)

def unknownMessage (text : String) : String := s!"unknown search mode: {text}"

end Mode

/-- The name of the file that a persisted system is written to. -/
def systemFileName : String := "transition_system.enc"

structure Configuration where
  resultFolder : String := "result/default"
  enumerative : Bool := false
  symbolic : Bool := true
  unrolled : Bool := true
  /-- Whether the symbolic search halts at the first error. -/
  stopOnError : Bool := false
  maxDepth : Option Nat := none
  saveSystem : Bool := false
  profile : Bool := false
  deriving DecidableEq, Repr, Inhabited

namespace Configuration

def forMode (m : Mode) : Configuration where
  enumerative := m = .enumerative
  symbolic := m = .symbolic || m = .synchronised
  unrolled := m = .unroll
  stopOnError := m = .synchronised

/-- The engines that run, in their order. -/
def modes (c : Configuration) : List Mode :=
  (if c.unrolled then [.unroll] else []) ++
  (if c.symbolic then [if c.stopOnError then .synchronised else .symbolic] else []) ++
  (if c.enumerative then [.enumerative] else [])

def joinPath (folder file : String) : String :=
  if folder.isEmpty || folder.toList.getLast? == some '/' then folder ++ file
  else folder ++ "/" ++ file

def systemFile (c : Configuration) : String :=
  joinPath c.resultFolder systemFileName

end Configuration

end StateSpace
