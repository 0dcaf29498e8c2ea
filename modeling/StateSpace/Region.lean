import Std.Data.TreeMap
import StateSpace.Exploration
import StateSpace.State.Concrete
import StateSpace.State.Symbolic

/-!
# Regions

A region is a collection of states under names, ordered by name; names are compared character by
character, so `s_10` comes before `s_2`. Searches keep what they have reached and their frontier as
regions. What some states cover is a formula over the state variables: the disjunction of the
states, in each of which everything but the state variables is quantified away. The difference of
two regions is what the first one adds to the second: for symbolic states those with values that are
not covered, for concrete ones those whose values do not occur.
-/

namespace StateSpace

/-- The values that the states describe, error states apart. -/
def coverage (states : List SymbolicState) (xs : List Variable) : Expr :=
  .disj ((states.filter fun s => !s.isError).map fun s => s.toExpr.projectOnto xs)

/-- The values of a state that are not covered. -/
def SymbolicState.outside (s : SymbolicState) (covered : Expr) : Expr :=
  s.toExpr.and (.not covered)

/-- Whether a state has values that are not covered. -/
def isNew {σ ω : Type} (env : Surroundings σ) (s : SymbolicState) (covered : Expr) :
    Explore σ ω Bool :=
  Explore.holds env (.novelty s.id) (s.outside covered)

/-- What regions and searches need to know about their states. -/
class RegionState (S : Type) where
  toExpr : S → Expr
  history : S → List String
  text : S → String

instance : RegionState SymbolicState where
  toExpr := SymbolicState.toExpr
  history := SymbolicState.history
  text := SymbolicState.text

instance : RegionState ConcreteState where
  toExpr := ConcreteState.toExpr
  history := ConcreteState.history
  text := ConcreteState.text

/-- States under names. -/
abbrev Region (S : Type) := Std.TreeMap String S

namespace Region

variable {S : Type}

/-- The name of the `n`-th state that is given one. -/
def nameOf (n : Nat) : String := s!"s_{n}"

/-- The states in the order of their names. -/
def states (r : Region S) : List S := r.values

/-- All states of both regions; where a name occurs in both, the second one counts. -/
def union (a b : Region S) : Region S :=
  b.toList.foldl (fun r (name, s) => r.insert name s) a

/-- The disjunction of the states. -/
def toExpr [RegionState S] (r : Region S) : Expr :=
  .disj (r.states.map RegionState.toExpr)

/-- The text of a region, one state a line. -/
def text [RegionState S] (r : Region S) : String :=
  String.join (r.toList.map fun (name, s) => s!"{name} -> {RegionState.text s}\n")

/-- The values of the given variables that a region of symbolic states describes. -/
def covered (r : Region SymbolicState) (xs : List Variable) : Expr :=
  coverage r.states xs

/-- Of some states, those with values that are not covered. -/
def uncovered {σ ω : Type} (env : Surroundings σ) (covered : Expr) :
    List (String × SymbolicState) → Explore σ ω (Region SymbolicState)
  | [] => return {}
  | (name, s) :: rest => do
    if ← isNew env s covered then
      let r ← uncovered env covered rest
      return r.insert name s
    else uncovered env covered rest

/-- The states of a region with values that another one does not cover. -/
def difference {σ ω : Type} (env : Surroundings σ) (r reached : Region SymbolicState)
    (xs : List Variable) : Explore σ ω (Region SymbolicState) :=
  uncovered env (reached.covered xs) r.toList

/-- The states of a region whose values occur neither in another one nor earlier in this one. -/
def newValues (r reached : Region ConcreteState) : Region ConcreteState :=
  r.toList.foldl (fun result (name, s) =>
    if reached.states.any s.sameValues || result.states.any s.sameValues then result
    else result.insert name s) {}

end Region

end StateSpace
