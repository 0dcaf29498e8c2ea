import Std.Data.TreeMap
import StateSpace.Event

/-!
# Profiles

A profile follows the events of an exploration with a clock and adds up what the phases took: the
iterations by depth, the phases about a label by that label, and all phases by their kind. A phase
that finishes without having started is ignored. It also adds up the new states of each depth.
-/

namespace StateSpace

/-- What the phases of an exploration took. -/
structure Profile where
  /-- The phases under way, with the time at which they started. -/
  running : List ((Phase × Nat) × Nat) := []
  perDepth : Std.TreeMap Nat Nat := {}
  perLabel : Std.TreeMap String Nat := {}
  perKind : Std.TreeMap String Nat := {}
  newStates : Std.TreeMap Nat Nat := {}
  deriving Inhabited

namespace Profile

/-- Adds to an entry, which counts as zero if it is not there. -/
def addTo {κ : Type} [Ord κ] (entries : Std.TreeMap κ Nat) (key : κ) (amount : Nat) :
    Std.TreeMap κ Nat :=
  entries.insert key (entries.getD key 0 + amount)

/-- The phases under way, without one of them. -/
def without (p : Profile) (key : Phase × Nat) : List ((Phase × Nat) × Nat) :=
  p.running.filter fun entry => entry.1 != key

/-- A phase starts, anew if it was under way. -/
def start (p : Profile) (time : Nat) (phase : Phase) (depth : Nat) : Profile :=
  { p with running := ((phase, depth), time) :: p.without (phase, depth) }

def finish (p : Profile) (time : Nat) (phase : Phase) (depth : Nat) : Profile :=
  match p.running.lookup (phase, depth) with
  | none => p
  | some started =>
    let taken := time - started
    { p with
      running := p.without (phase, depth)
      perDepth := if phase = .iteration then addTo p.perDepth depth taken else p.perDepth
      perLabel :=
        match phase.label? with
        | some label => addTo p.perLabel label taken
        | none => p.perLabel
      perKind := addTo p.perKind phase.kind taken }

/-- Follows one event at the given time. -/
def observe (p : Profile) (time : Nat) : Event → Profile
  | .started phase depth => p.start time phase depth
  | .finished phase depth => p.finish time phase depth
  | .newStates depth count => { p with newStates := addTo p.newStates depth count }

def newStatesAt (p : Profile) (depth : Nat) : Nat :=
  p.newStates.getD depth 0

/-- What all iterations took. -/
def total (p : Profile) : Nat :=
  p.perDepth.values.foldl (· + ·) 0

def span (time : Nat) : String := s!"{time} steps"

/-- The lines of the report: the whole, then by depth, by kind and by label. -/
def reportLines (p : Profile) : List String :=
  [s!"complete result: {span p.total} in {p.perDepth.size} iterations"] ++
  p.perDepth.toList.map (fun (depth, time) =>
    s!"  depth {depth}: {span time}, {p.newStatesAt depth} new states") ++
  p.perKind.toList.map (fun (kind, time) => s!"  {kind}: {span time}") ++
  p.perLabel.toList.map (fun (label, time) => s!"  label {label}: {span time}")

end Profile

end StateSpace
