import Std.Data.TreeMap
import StateSpace.Label.Successor
import StateSpace.Region
import StateSpace.System

/-!
# Unrollings

The unrolling of a transition system keeps every state that was derived and every transition that
was fired. States are numbered in the order in which they appear, and so are transitions, from 1 on;
state 0 is the error state. A layer holds what belongs to one depth: the states first found there,
all states derived there, and the transitions fired.
-/

namespace StateSpace

/-- What belongs to one depth. -/
structure Layer where
  /-- The states whose values were new. -/
  fresh : List Nat := []
  /-- All states derived, new or not. -/
  all : List Nat := []
  transitions : List Nat := []
  deriving DecidableEq, Repr, Inhabited

/-- A transition system together with what has been unrolled of it. -/
structure Unrolling where
  system : System
  states : Array SymbolicState := #[.error 0]
  transitions : Array Transition := #[]
  /-- The states of depth 0 that the unrolling starts from. -/
  initial : List Nat := []
  layers : Std.TreeMap Nat Layer := {}
  started : Bool := false
  deriving Inhabited

namespace Unrolling

def errorId : Nat := 0

/-! ## Views -/

def state? (u : Unrolling) (id : Nat) : Option SymbolicState :=
  u.states[id]?

/-- The state of an identity that was handed out. -/
def state (u : Unrolling) (id : Nat) : SymbolicState :=
  u.states.getD id (.error id)

def errorState (u : Unrolling) : SymbolicState :=
  u.state errorId

def transition? (u : Unrolling) (id : Nat) : Option Transition :=
  if id = 0 then none else u.transitions[id - 1]?

def layer (u : Unrolling) (depth : Nat) : Layer :=
  u.layers.getD depth {}

def hasNew (u : Unrolling) (depth : Nat) : Bool :=
  !(u.layer depth).fresh.isEmpty

def currentDepth (u : Unrolling) : Nat :=
  u.layers.maxKey?.getD 0

def initialStates (u : Unrolling) : List SymbolicState :=
  u.initial.map u.state

def derivedStates (u : Unrolling) : List SymbolicState :=
  u.layers.toList.flatMap fun (_, layer) => layer.all.map u.state

/-- The values of the state variables reached so far. -/
def reached (u : Unrolling) : Expr :=
  coverage u.derivedStates u.system.stateVariables

def text (u : Unrolling) : String :=
  String.join (u.layers.toList.map fun (depth, layer) =>
    s!"depth {depth}: {layer.all.length} states, {layer.fresh.length} new\n" ++
      String.join (layer.all.map fun id => "  " ++ (u.state id).text ++ "\n"))

/-! ## Changes -/

def modifyLayer (u : Unrolling) (depth : Nat) (f : Layer → Layer) : Unrolling :=
  { u with layers := u.layers.insert depth (f (u.layer depth)) }

def modifyState (u : Unrolling) (id : Nat) (f : SymbolicState → SymbolicState) : Unrolling :=
  { u with states := u.states.modify id f }

/-- Enters a transition, with its links to the states at both ends. -/
def link (u : Unrolling) (t : Transition) (target depth : Nat) : Unrolling :=
  let u := u.modifyState target fun s => { s with incoming := s.incoming ++ [t.id] }
  let u := u.modifyState t.start fun s => { s with outgoing := s.outgoing ++ [t.id] }
  let u := { u with transitions := u.transitions.push { t with target := some target } }
  u.modifyLayer depth fun layer => { layer with transitions := layer.transitions ++ [t.id] }

def nextTransition (u : Unrolling) : Nat :=
  u.transitions.size + 1

/-- Enters the firing of an error label. The first one makes the error state new and gives it its
history; the error state is listed once at each depth. -/
def enterError (u : Unrolling) (l : Label) (source depth : Nat) : Unrolling :=
  let first := u.errorState.incoming.isEmpty
  let history := (u.state source).history
  let t : Transition :=
    { id := u.nextTransition, start := source, labels := [l.name], reachedNewValue := first,
      reachedError := true }
  let u :=
    if first then
      (u.modifyState errorId fun s => s.withHistory history l.name).modifyLayer depth
        fun layer => { layer with fresh := layer.fresh ++ [errorId] }
    else u
  let u := u.modifyLayer depth fun layer =>
    if layer.all.contains errorId then layer else { layer with all := layer.all ++ [errorId] }
  u.link t errorId depth

/-- Enters a successor, listed as new or not. -/
def enterSuccessor (u : Unrolling) (l : Label) (source depth : Nat) (successor : SymbolicState)
    (new : Bool) : Unrolling :=
  let t : Transition :=
    { id := u.nextTransition, start := source, labels := [l.name], reachedNewValue := new }
  let u := { u with states := u.states.push successor }
  let u := u.modifyLayer depth fun layer =>
    { layer with
      fresh := if new then layer.fresh ++ [successor.id] else layer.fresh
      all := layer.all ++ [successor.id] }
  u.link t successor.id depth

/-- Sets the formula for the initial value of the variable of a name. If depth 0 has been
established without constructors, the initial state changes with it. -/
def setInitialValue (u : Unrolling) (name : String) (e : Expr) : Except Failure Unrolling :=
  match u.system.findVariable? name with
  | none => .error (.undeclared name)
  | some x =>
    let v := { u with system := u.system.setInitialValue x e }
    match u.initial with
    | id :: _ =>
      if u.started && u.system.constructors.isEmpty then .ok (v.modifyState id fun s => s.put x e)
      else .ok v
    | [] => .ok v

end Unrolling

end StateSpace
