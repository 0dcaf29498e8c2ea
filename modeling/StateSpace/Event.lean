/-!
# Events

An exploration reports what it does as a sequence of events: phases that start and finish at a
depth, and the number of states a depth brought.
-/

namespace StateSpace

/-- The phases of an exploration. -/
inductive Phase where
  | iteration
  | guard (label : String)
  | apply (label : String)
  | novelty
  | rename
  | difference
  deriving DecidableEq, Repr, Inhabited, Hashable

namespace Phase

/-- The kind of a phase, whatever its label. -/
def kind : Phase → String
  | iteration => "iteration"
  | guard _ => "guard"
  | apply _ => "apply"
  | novelty => "novelty"
  | rename => "rename"
  | difference => "difference"

/-- The label that a phase is about, if there is one. -/
def label? : Phase → Option String
  | guard label => some label
  | apply label => some label
  | _ => none

def text (p : Phase) : String :=
  match p.label? with
  | some label => s!"{p.kind}({label})"
  | none => p.kind

end Phase

/-- What an exploration reports. -/
inductive Event where
  | started (phase : Phase) (depth : Nat)
  | finished (phase : Phase) (depth : Nat)
  | newStates (depth count : Nat)
  deriving DecidableEq, Repr, Inhabited

namespace Event

def isStart : Event → Bool
  | started _ _ => true
  | _ => false

def text : Event → String
  | started phase depth => s!"start {phase.text} {depth}"
  | finished phase depth => s!"end {phase.text} {depth}"
  | newStates depth count => s!"new {depth} {count}"

end Event

end StateSpace
