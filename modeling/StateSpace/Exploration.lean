import StateSpace.Failure
import StateSpace.Profile
import StateSpace.Solver.Basic

/-!
# Explorations

An exploration works on some data while it asks a solver, reports events, and looks at a stop flag
that others may raise. Its surroundings are a parameter: the solver, a clock, and how the stop flag
reacts to what has been reported so far. So a statement about all explorations quantifies over all
surroundings, with the flag raised or reset at any event.

An exploration is a first step and turns one after the other (`Exploration`). Nothing bounds the
number of turns, so it may go on forever; only if it does not, there is a result
(`Exploration.run`). An exploration that fails keeps what it has done up to then.
-/

namespace StateSpace

/-- The surroundings of an exploration. -/
structure Surroundings (σ : Type) where
  solver : Solver σ
  /-- The stop flag after an event, from all events so far, the latest first, and the flag
  before. -/
  react : List Event → Bool → Bool := fun _ flag => flag
  /-- The time, as far as the memory of the solver tells it. -/
  clock : σ → Nat := fun _ => 0
  watched : Bool := true

/-- The same surroundings, but nothing is reported to them. -/
def Surroundings.quietly {σ : Type} (env : Surroundings σ) : Surroundings σ :=
  { env with watched := false }

/-- An exploration under way. -/
structure Session (σ ω : Type) where
  memory : σ
  stop : Bool := false
  /-- The events so far, the latest first. -/
  trace : List Event := []
  /-- What the events so far took. -/
  profile : Profile := {}
  work : ω

abbrev Explore (σ ω : Type) := EStateM Failure (Session σ ω)

namespace Explore

variable {σ ω α : Type}

def work : Explore σ ω ω := do
  return (← get).work

def modifyWork (f : ω → ω) : Explore σ ω Unit :=
  modify fun s => { s with work := f s.work }

/-- Runs steps on a part of the data, given how to look at the part and how to put it back. -/
def onPart {ω' : Type} (part : ω → ω') (restore : ω' → ω → ω) (step : Explore σ ω' α) :
    Explore σ ω α := fun s =>
  match step { s with work := part s.work } with
  | .ok a t => .ok a { t with work := restore t.work s.work }
  | .error e t => .error e { t with work := restore t.work s.work }

/-- Asks the solver whether a formula can be satisfied. -/
def decide (env : Surroundings σ) (e : Expr) : Explore σ ω Verdict := fun s =>
  let (verdict, memory) := env.solver.decide e s.memory
  .ok verdict { s with memory }

/-- Asks the solver for values that satisfy a formula. -/
def solve (env : Surroundings σ) (e : Expr) : Explore σ ω Answer := fun s =>
  let (answer, memory) := env.solver.solve e s.memory
  .ok answer { s with memory }

/-- Asks the solver whether a formula can be satisfied; an open question ends the exploration. -/
def holds (env : Surroundings σ) (question : Question) (e : Expr) : Explore σ ω Bool := do
  match ← decide env e with
  | .sat => return true
  | .unsat => return false
  | .dontKnow => throw (.undecided question)

def report (env : Surroundings σ) (event : Event) : Explore σ ω Unit :=
  modify fun s =>
    if env.watched then
      let trace := event :: s.trace
      { s with
        trace
        profile := s.profile.observe (env.clock s.memory) event
        stop := env.react trace s.stop }
    else s

def stopped : Explore σ ω Bool := do
  return (← get).stop

def raiseStop : Explore σ ω Unit :=
  modify fun s => { s with stop := true }

/-- Asks whether a formula can be satisfied within a phase. The phase ends before an open question
ends the exploration. -/
def holdsDuring (env : Surroundings σ) (phase : Phase) (depth : Nat) (question : Question)
    (e : Expr) : Explore σ ω Bool := do
  report env (.started phase depth)
  let verdict ← decide env e
  report env (.finished phase depth)
  match verdict with
  | .sat => return true
  | .unsat => return false
  | .dontKnow => throw (.undecided question)

end Explore

/-! ## Whole explorations -/

/-- What a turn of an exploration leads to. -/
inductive Turn (β α : Type) where
  /-- Another turn, which goes on from here. -/
  | again (b : β)
  | done (a : α)

/-- An exploration: a first step, and turns one after the other until one of them is the last. -/
structure Exploration (σ ω β α : Type) where
  first : Explore σ ω β
  turn : β → Explore σ ω (Turn β α)

namespace Exploration

variable {σ ω α β : Type}

/-- Takes turns until one of them is the last or fails. There is no result if none of them is. -/
def loop (x : Exploration σ ω β α) (b : β) (s : Session σ ω) :
    Option (EStateM.Result Failure (Session σ ω) α) :=
  match x.turn b s with
  | .ok (.again b) t => x |>.loop b t
  | .ok (.done a) t => some (.ok a t)
  | .error e t => some (.error e t)
partial_fixpoint

/-- The result of an exploration, unless it goes on forever. -/
def run (x : Exploration σ ω β α) (s : Session σ ω) :
    Option (EStateM.Result Failure (Session σ ω) α) :=
  match x.first s with
  | .ok b t => x.loop b t
  | .error e t => some (.error e t)

end Exploration

inductive Ending where
  /-- Nothing new appeared after this depth. -/
  | fixpoint (depth : Nat)
  /-- The depth bound was reached while new states were still found. -/
  | bounded
  /-- The stop flag was raised after this depth was completed. -/
  | stopped (depth : Nat)
  deriving DecidableEq, Repr, Inhabited

def Ending.text : Ending → String
  | fixpoint depth => toString depth
  | bounded => "bounded"
  | stopped depth => s!"stopped at {depth}"

end StateSpace
