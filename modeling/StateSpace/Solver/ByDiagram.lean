import StateSpace.Circuit.Encoder
import StateSpace.Diagram.Model
import StateSpace.Solver.Basic

/-!
# Solving by decision diagrams

Each question is encoded into a diagram of its own. A formula can be satisfied unless its function
is the constant false, and the values of its variables are read off one satisfying path; bits that
are not on the path are zero. A formula without a circuit is not decided. The memory of the solver
is a tally of the questions and of the diagrams they took.
-/

namespace StateSpace

open StateSpace.Circuit StateSpace.Diagram

structure Tally where
  queries : Nat := 0
  sat : Nat := 0
  unsat : Nat := 0
  dontKnow : Nat := 0
  totalNodes : Nat := 0
  peakNodes : Nat := 0
  /-- Whether a question came to nothing because the computed table would be too large. -/
  refused : Bool := false
  deriving DecidableEq, Repr, Inhabited

namespace Tally

/-- Counts a verdict and the nodes of the diagram it took. -/
def record (t : Tally) (verdict : Verdict) (nodes : Nat) : Tally :=
  { t with
    queries := t.queries + 1
    sat := t.sat + if verdict = .sat then 1 else 0
    unsat := t.unsat + if verdict = .unsat then 1 else 0
    dontKnow := t.dontKnow + if verdict = .dontKnow then 1 else 0
    totalNodes := t.totalNodes + nodes
    peakNodes := max t.peakNodes nodes }

def text (t : Tally) : String :=
  s!"SolverStats \x7b queries: {t.queries}, sat: {t.sat}, unsat: {t.unsat}, " ++
    s!"dont_know: {t.dontKnow}, total_nodes: {t.totalNodes}, peak_nodes: {t.peakNodes} \x7d"

end Tally

namespace ByDiagram

def freshEncoder (bits : Nat) : Encoder :=
  .ofManager (.empty bits)

/-- The number that the true ones among some bits spell, the lowest first. -/
def spell (trueBits : List Nat) (indices : List Nat) : Nat :=
  indices.foldr (fun v n => 2 * n + if trueBits.contains v then 1 else 0) 0

/-- The values of some variables under the decision variables that are true. -/
def readModel (trueBits : List Nat) : List Variable → Valuation → Encode Valuation
  | [], model => pure model
  | x :: xs, model => do
    let indices ← indicesOf x
    readModel trueBits xs (model.insert x (.ofBits (spell trueBits indices) x.type))

def verdictOf (e : Expr) : Encode Verdict := do
  let f ← functionOf e
  pure (if f = .zero then .unsat else .sat)

/-- Encodes a formula, decides it, and reads off values of its free variables. -/
def answerOf (e : Expr) : Encode Answer := do
  let f ← functionOf e
  let encoder ← get
  match encoder.diagram.satisfyingPath? f with
  | none => pure { verdict := .unsat }
  | some path =>
    let trueBits := (path.filter Prod.snd).map Prod.fst
    let model ← readModel trueBits e.freeVariables {}
    pure { verdict := .sat, model }

/-- The result of an encoding step on a fresh diagram, and the number of nodes it took. -/
def onFresh {α : Type} (bits : Nat) (step : Encode α) : Option α × Nat :=
  match step (freshEncoder bits) with
  | .ok a encoder => (some a, encoder.diagram.size)
  | .error _ encoder => (none, encoder.diagram.size)

/-- Keeps the decision variables of some variables, encodes a formula, projects it to what was kept
and counts. -/
def counting (e : Expr) (xs : List Variable) : Encode Nat := do
  let kept := (← xs.flatMapM indicesOf).eraseDups
  let f ← functionOf e
  let encoder ← get
  let others := (encoder.diagram.support f).filter fun v => !kept.contains v
  let projected ← existsOver others f
  let encoder ← get
  pure (encoder.diagram.modelCount projected kept.length)

/-- The number of valuations of the given variables that satisfy a formula for some values of its
other variables; none if the formula or one of the variables has no circuit. Nothing is counted if
the computed table would be too large. -/
def countModels? (bits : Nat) (e : Expr) (xs : List Variable) : Option (Option Nat) :=
  if ComputedTable.maxBits < bits then none else some (onFresh bits (counting e xs)).1

end ByDiagram

/-- The solver by decision diagrams whose computed tables have `2 ^ bits` slots. -/
def Solver.byDiagram (bits : Nat) : Solver Tally where
  decide e tally :=
    if ComputedTable.maxBits < bits then (.dontKnow, { tally with refused := true })
    else
      let (verdict?, nodes) := ByDiagram.onFresh bits (ByDiagram.verdictOf e)
      let verdict := verdict?.getD .dontKnow
      (verdict, tally.record verdict nodes)
  solve e tally :=
    if ComputedTable.maxBits < bits then ({ verdict := .dontKnow }, { tally with refused := true })
    else
      let (answer?, nodes) := ByDiagram.onFresh bits (ByDiagram.answerOf e)
      let answer := answer?.getD { verdict := .dontKnow }
      (answer, tally.record answer.verdict nodes)

end StateSpace
