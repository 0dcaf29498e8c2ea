import StateSpace.Label.Successor
import StateSpace.Unrolling.Basic

/-!
# Unrolling

One iteration fires every label, constructors apart, on every state that was new at the depth
before. Unrolling iterates until a depth brings nothing new, the depth bound is reached, or the stop
flag is raised; it continues from the deepest depth so far.
-/

namespace StateSpace.Unrolling

open StateSpace.Explore

variable {σ : Type}

/-- Fires a label on a state, if its precondition can hold there. -/
def fire (env : Surroundings σ) (depth source : Nat) (l : Label) : Explore σ Unrolling Unit := do
  let s := (← work).state source
  let enabled ← holdsDuring env (.guard l.name) depth (.guardOnState l.name s.id)
    (l.guardOn s.toExpr)
  if enabled then
    if l.isError then
      modifyWork fun u => u.enterError l source depth
    else
      report env (.started (.apply l.name) depth)
      let u ← work
      let successor := (l.applyTo s u.nextTransition u.states.size).withHistory s.history l.name
      report env (.finished (.apply l.name) depth)
      let new ←
        if l.isConstructor then pure true
        else holdsDuring env .novelty depth (.novelty successor.id) (successor.outside u.reached)
      modifyWork fun u => u.enterSuccessor l source depth successor new

/-- Establishes depth 0, once. Without constructors the default state is the only initial state;
otherwise each constructor that is enabled on it builds one. -/
def start (env : Surroundings σ) : Explore σ Unrolling Unit := do
  let u ← work
  if u.started then return
  let constructors := u.system.constructors
  if !constructors.isEmpty && !u.system.initialValues.isEmpty then
    throw .constructorsWithInit
  let default := u.system.defaultState u.states.size
  modifyWork fun u => { u with states := u.states.push default }
  if constructors.isEmpty then
    modifyWork fun u =>
      let u := u.modifyLayer 0 fun layer =>
        { layer with fresh := layer.fresh ++ [default.id], all := layer.all ++ [default.id] }
      { u with initial := u.initial ++ [default.id] }
  else
    modifyWork fun u => u.modifyLayer 0 id
    constructors.forM (fire env.quietly 0 default.id)
    modifyWork fun u => { u with initial := (u.layer 0).fresh }
  modifyWork fun u => { u with started := true }

/-- Fires the labels on one state, until the stop flag is raised; tells whether it was not. -/
def fireLabels (env : Surroundings σ) (depth source : Nat) : List Label → Explore σ Unrolling Bool
  | [] => return true
  | l :: ls => do
    if ← stopped then return false
    if !l.isConstructor then fire env depth source l
    fireLabels env depth source ls

/-- Fires the labels on each of some states but the error state, until the stop flag is raised. -/
def fireFrontier (env : Surroundings σ) (depth : Nat) (labels : List Label) :
    List Nat → Explore σ Unrolling Unit
  | [] => return
  | source :: rest => do
    if source = errorId then fireFrontier env depth labels rest
    else if ← fireLabels env depth source labels then fireFrontier env depth labels rest

/-- One iteration: whatever the depth held before is dropped, and the labels are fired on the new
states of the depth before. -/
def iterate (env : Surroundings σ) (depth : Nat) : Explore σ Unrolling Unit := do
  if depth = 0 then throw (.iterationDepth depth)
  start env
  report env (.started .iteration depth)
  modifyWork fun u => u.modifyLayer depth fun _ => {}
  let u ← work
  fireFrontier env depth u.system.labels (u.layer (depth - 1)).fresh
  report env (.finished .iteration depth)
  report env (.newStates depth ((← work).layer depth).fresh.length)

/-- A turn of unrolling at a depth: it ends there, or the next iteration is made. -/
def turn (env : Surroundings σ) (maxDepth : Option Nat) (depth : Nat) :
    Explore σ Unrolling (Turn Nat Ending) := do
  if !(← work).hasNew depth then return .done (.fixpoint (depth - 1))
  if ← stopped then return .done (.stopped depth)
  if maxDepth = some depth then return .done .bounded
  iterate env (depth + 1)
  if ← stopped then return .done (.stopped depth)
  return .again (depth + 1)

/-- Unrolls until nothing new is found, the depth bound is reached, or the stop flag is raised. A
fixpoint is told by the last depth that brought new states. -/
def unroll (env : Surroundings σ) (maxDepth : Option Nat) : Exploration σ Unrolling Nat Ending where
  first := do
    start env
    return (← work).currentDepth
  turn := turn env maxDepth

/-- Unrolls at most `count` more depths, as long as the last one brought something new. -/
def deepen (env : Surroundings σ) : Nat → Nat → Explore σ Unrolling Nat
  | 0, depth => return depth
  | count + 1, depth => do
    if !(← work).hasNew depth then return depth
    iterate env (depth + 1)
    deepen env count (depth + 1)

/-- Unrolls up to a depth, or to the fixpoint if it comes first, and tells the depth. -/
def unrollTo (env : Surroundings σ) (depth : Nat) : Explore σ Unrolling Nat := do
  start env
  let current := (← work).currentDepth
  deepen env (depth - current) current

end StateSpace.Unrolling
