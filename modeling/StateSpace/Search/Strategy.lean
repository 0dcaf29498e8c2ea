import StateSpace.Label.Successor
import StateSpace.Search.Image
import StateSpace.Unrolling.Basic

/-!
# Search strategies

A strategy says what a state of a region search is and how labels fire on it.

* The symbolic strategy gives each successor by formulas. It may simplify them: where a formula
  leaves a variable only one next value, the formula is replaced by that value.
* The enumerative strategy gives each successor by the values of one model.
* The synchronised strategy is the symbolic one, but it looks for errors on the frontier only and
  halts at the first one.
-/

namespace StateSpace.Search

open StateSpace.Explore

variable {σ S : Type}

structure Work (S : Type) where
  /-- The system that is searched, with its initial states. -/
  unrolling : Unrolling
  image : Image S := .ofInitial []
  issued : Nat := 0
  /-- Whether a strategy with a stop flag of its own has raised it. -/
  halted : Bool := false
  deriving Inhabited

abbrev Step (σ S : Type) := Explore σ (Work S)

def image : Step σ S (Image S) := do
  return (← work).image

def modifyImage (f : Image S → Image S) : Step σ S Unit :=
  modifyWork fun w => { w with image := f w.image }

/-- How labels fire on the states of a region, and when the search halts. -/
structure Strategy (σ S : Type) where
  /-- Adds the successors of the frontier through a label to the image. -/
  expand : Label → Step σ S Unit
  testError : Label → Step σ S Unit
  /-- A successor as a state about current values. -/
  toCurrent : S → S
  /-- What a region adds to the region reached. -/
  difference : Region S → Region S → List Variable → Step σ S (Region S)
  goesOn : Step σ S Bool

/-! ## Guards and errors -/

/-- Whether the precondition of a label can hold on a state. -/
def satisfiesGuard [RegionState S] (env : Surroundings σ) (l : Label) (s : S) : Step σ S Bool := do
  let depth := (← image).depth
  holdsDuring env (.guard l.name) depth (.guardAtDepth l.name depth)
    (l.guardOn (RegionState.toExpr s))

/-- The first of some states on which the precondition of a label can hold. -/
def firstEnabled [RegionState S] (env : Surroundings σ) (l : Label) :
    List S → Step σ S (Option S)
  | [] => return none
  | s :: rest => do
    if ← satisfiesGuard env l s then return some s else firstEnabled env l rest

/-- Enters that an error label is reached from a state. -/
def recordFrom [RegionState S] (l : Label) (s : S) : Step σ S Unit :=
  modifyImage fun i => i.recordError l.name (RegionState.history s ++ [l.name])

/-- Tests an error label on everything reached, unless it has been reached before. -/
def testReachable [RegionState S] (env : Surroundings σ) (l : Label) : Step σ S Unit := do
  let i ← image
  if i.isReached l.name then return
  match ← firstEnabled env l i.reachable.states with
  | some s => recordFrom l s
  | none => return

/-! ## Symbolic states -/

/-- Replaces a formula about the next value of a variable by that value, if there is only one. -/
def simplifyFormula {ω : Type} (env : Surroundings σ) (x : Variable) (formula : Expr) :
    Explore σ ω Expr := do
  let next := x.primed
  if !formula.freeVariables.contains next then return formula
  let answer ← solve env formula
  match answer.verdict with
  | .unsat => return formula
  | .dontKnow => throw (.undecided (.valueOf next))
  | .sat =>
    match answer.model.get? next with
    | none => return formula
    | some value =>
      let pinned := Expr.equal (.var next) (.const value)
      if ← holds env (.uniquenessOf next) (formula.and (.not pinned)) then return formula
      else return pinned

/-- Simplifies the formulas of a state, one after the other. -/
def simplifyFormulas {ω : Type} (env : Surroundings σ) : Formulas → Explore σ ω Formulas
  | [] => return []
  | (x, e) :: rest => do
    let e ← simplifyFormula env x e
    let rest ← simplifyFormulas env rest
    return (x, e) :: rest

/-- Fires a label on a symbolic state, if it is enabled there. -/
def expandSymbolic (env : Surroundings σ) (simplify : Bool) (l : Label) (s : SymbolicState) :
    Step σ SymbolicState Unit := do
  if ← satisfiesGuard env l s then
    let depth := (← image).depth
    report env (.started (.apply l.name) depth)
    modifyWork fun w => { w with issued := w.issued + 1 }
    let formulas := l.successorFormulas s (← work).issued
    let formulas ← if simplify then simplifyFormulas env formulas else pure formulas
    modifyImage fun i =>
      i.addPending { id := i.names + 1, formulas, history := s.history ++ [l.name] }
    report env (.finished (.apply l.name) depth)

/-- Symbolic search, with or without simplification. -/
def symbolic (env : Surroundings σ) (simplify : Bool) : Strategy σ SymbolicState where
  expand l := do
    (← image).frontier.states.forM (expandSymbolic env simplify l)
  testError := testReachable env
  toCurrent s := { s with formulas := s.formulas.restoreCurrentNames }
  difference := Region.difference env
  goesOn := return true

/-! ## Synchronised search -/

/-- Whose stop flag a synchronised search raises. -/
inductive FlagOwner where
  /-- The flag of the exploration, which others may raise and see as well. -/
  | shared
  /-- A flag that only the search itself raises. -/
  | own
  deriving DecidableEq, Repr, Inhabited

def raiseFlag : FlagOwner → Step σ S Unit
  | .shared => raiseStop
  | .own => modifyWork fun w => { w with halted := true }

/-- Tests an error label on the frontier, and halts the search if it is reached. -/
def testFrontier [RegionState S] (env : Surroundings σ) (owner : FlagOwner) (l : Label) :
    Step σ S Unit := do
  match ← firstEnabled env l (← image).frontier.states with
  | some s =>
    raiseFlag owner
    recordFrom l s
  | none => return

/-- Symbolic search that halts at the first error. -/
def synchronised (env : Surroundings σ) (owner : FlagOwner) : Strategy σ SymbolicState :=
  { symbolic env true with
    testError := testFrontier env owner
    goesOn := do
      match owner with
      | .shared => return !(← stopped)
      | .own => return !(← work).halted }

/-! ## Concrete states -/

/-- Fires a label on a concrete state, if it is enabled there. Its effects may still leave no
successor. -/
def expandConcrete (env : Surroundings σ) (l : Label) (s : ConcreteState) :
    Step σ ConcreteState Unit := do
  if ← satisfiesGuard env l s then
    let depth := (← image).depth
    report env (.started (.apply l.name) depth)
    let answer ← solve env (s.toExpr.and l.transitionExpr)
    report env (.finished (.apply l.name) depth)
    match answer.verdict with
    | .sat =>
      let next := ConcreteState.ofModel answer.model (l.stateVariables.map Variable.primed)
      modifyImage fun i => i.addPending (next.withHistory s.history l.name)
    | .unsat => return
    | .dontKnow => throw (.undecided (.successor s.text l.name))

def enumerative (env : Surroundings σ) : Strategy σ ConcreteState where
  expand l := do
    (← image).frontier.states.forM (expandConcrete env l)
  testError := testReachable env
  toCurrent := ConcreteState.unprimed
  difference r reached _ := return r.newValues reached
  goesOn := return true

end StateSpace.Search
