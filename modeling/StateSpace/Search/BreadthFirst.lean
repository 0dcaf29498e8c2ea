import StateSpace.Search.Strategy
import StateSpace.Unrolling.Unroll

/-!
# Breadth-first search

One loop serves all strategies: the labels are fired on the frontier, the successors become states
about current values, and what they add to the region reached is the next frontier. The search ends
when the frontier is empty, the depth bound is reached, or it is stopped.
-/

namespace StateSpace.Search

open StateSpace.Explore

variable {σ S : Type}

/-- Fires the labels one after the other, until the stop flag is raised; tells whether it was. -/
def fireLabels (strategy : Strategy σ S) : List Label → Step σ S Bool
  | [] => return false
  | l :: ls => do
    if ← stopped then return true
    if !l.isConstructor then
      if l.isError then strategy.testError l else strategy.expand l
    fireLabels strategy ls

/-- The first part of a depth: its labels are fired; tells whether that was interrupted. -/
def fireDepth (env : Surroundings σ) (strategy : Strategy σ S) : Step σ S Bool := do
  let system := (← work).unrolling.system
  modifyImage fun i => { i with depth := i.depth + 1 }
  report env (.started .iteration (← image).depth)
  fireLabels strategy system.labels

/-- The successors found so far, as states about current values. -/
def successors (strategy : Strategy σ S) (i : Image S) : Region S :=
  i.pending.map fun _ s => strategy.toCurrent s

/-- The second part of a depth: what its successors add to the region reached is the next
frontier. -/
def closeDepth (env : Surroundings σ) (strategy : Strategy σ S) (xs : List Variable) (depth : Nat) :
    Step σ S Unit := do
  report env (.finished .iteration depth)
  report env (.newStates depth (← image).pending.size)
  report env (.started .rename depth)
  let found := successors strategy (← image)
  modifyImage fun i => { i with pending := {} }
  report env (.finished .rename depth)
  report env (.started .difference depth)
  let added ← strategy.difference found (← image).reachable xs
  report env (.finished .difference depth)
  modifyImage fun i => { i with reachable := i.reachable.union added, frontier := added }

/-- One depth of the search; tells whether it was interrupted. -/
def deepen (env : Surroundings σ) (strategy : Strategy σ S) : Step σ S Bool := do
  let w ← work
  let interrupted ← fireDepth env strategy
  closeDepth env strategy w.unrolling.system.stateVariables (w.image.depth + 1)
  return interrupted

def endAs (ending : Ending) : Step σ S (Image S) := do
  modifyImage fun i => { i with ending }
  image

/-- What follows a depth: the search ends or goes on. -/
def afterDepth (strategy : Strategy σ S) (depth : Nat) (interrupted : Bool) :
    Step σ S (Turn Unit (Image S)) := do
  if interrupted then return .done (← endAs (.stopped depth))
  else if (← stopped) || !(← strategy.goesOn) then return .done (← endAs (.stopped (depth + 1)))
  else return .again ()

/-- A turn of the search: it ends, or the next depth is searched. -/
def turn (env : Surroundings σ) (strategy : Strategy σ S) (maxDepth : Option Nat) :
    Step σ S (Turn Unit (Image S)) := do
  let i ← image
  if i.frontier.isEmpty then return .done (← endAs (.fixpoint (i.depth - 1)))
  else if maxDepth = some i.depth then return .done (← endAs .bounded)
  else
    let interrupted ← deepen env strategy
    afterDepth strategy i.depth interrupted

/-- Begins with the image of the given states. -/
def seed (initial : List S) : Step σ S Unit :=
  modifyWork fun w => { w with image := .ofInitial initial }

def breadthFirst (env : Surroundings σ) (strategy : Strategy σ S) (maxDepth : Option Nat)
    (initial : List S) : Exploration σ (Work S) Unit (Image S) where
  first := seed initial
  turn _ := turn env strategy maxDepth

/-! ## From the initial states of a system -/

/-- Establishes the initial states of the system. -/
def start (env : Surroundings σ) : Step σ S Unit :=
  onPart Work.unrolling (fun unrolling w => { w with unrolling }) (Unrolling.start env)

/-- Makes every transition number of the search greater than the given one. -/
def skipTransitions (issued : Nat) : Step σ S Unit :=
  modifyWork fun w => { w with issued := max w.issued issued }

/-- Begins with the initial states of the system. Constructors may have used transition numbers
already. -/
def seedSymbolic (env : Surroundings σ) : Step σ SymbolicState Unit := do
  start env
  let u := (← work).unrolling
  skipTransitions u.transitions.size
  seed u.initialStates

/-- Searches from the initial states of the system. -/
def searchSymbolic (env : Surroundings σ) (strategy : Strategy σ SymbolicState)
    (maxDepth : Option Nat) : Exploration σ (Work SymbolicState) Unit (Image SymbolicState) where
  first := seedSymbolic env
  turn _ := turn env strategy maxDepth

/-- Finds one concrete state in each of some symbolic ones; states without any are left out. -/
def concretise {ω : Type} (env : Surroundings σ) (xs : List Variable) :
    List SymbolicState → Explore σ ω (List ConcreteState)
  | [] => return []
  | s :: rest => do
    let answer ← solve env s.toExpr
    match answer.verdict with
    | .sat =>
      let found := { ConcreteState.ofModel answer.model xs with history := s.history }
      let rest ← concretise env xs rest
      return found :: rest
    | .unsat => concretise env xs rest
    | .dontKnow => throw (.undecided (.initialState s.id))

/-- Begins with one concrete state in each initial state of the system. -/
def seedConcrete (env : Surroundings σ) : Step σ ConcreteState Unit := do
  start env
  let u := (← work).unrolling
  let initial ← concretise env u.system.stateVariables u.initialStates
  seed initial

/-- Searches from one concrete state in each initial state of the system. -/
def searchConcrete (env : Surroundings σ) (strategy : Strategy σ ConcreteState)
    (maxDepth : Option Nat) : Exploration σ (Work ConcreteState) Unit (Image ConcreteState) where
  first := seedConcrete env
  turn _ := turn env strategy maxDepth

end StateSpace.Search
