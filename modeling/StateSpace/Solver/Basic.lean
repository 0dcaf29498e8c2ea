import Std.Data.TreeMap
import StateSpace.Expr.Basic

/-!
# Solvers

A search asks a solver two things about a formula: whether it can be satisfied, and by which values.
A solver may also not know. It has a memory of its own, which every question may change;
explorations take the solver as a parameter and thread its memory, so that statements about them can
speak of all solvers.
-/

namespace StateSpace

/-- The answer to the question whether a formula can be satisfied. -/
inductive Verdict where
  | sat
  | unsat
  | dontKnow
  deriving DecidableEq, Repr, Inhabited

def Verdict.text : Verdict → String
  | sat => "SAT"
  | unsat => "UNSAT"
  | dontKnow => "DONT_KNOW"

/-- Values of variables, in the order of variables. -/
abbrev Valuation := Std.TreeMap Variable Value

namespace Valuation

/-- The value of the first variable of a name. -/
def getByName? (v : Valuation) (name : String) : Option Value :=
  (v.toList.find? fun entry => entry.1.name == name).map Prod.snd

def text (v : Valuation) : String :=
  "\x7b" ++ ", ".intercalate (v.toList.map fun (x, value) => s!"{x.name}={value.text}") ++ "\x7d"

end Valuation

/-- A verdict, and values that satisfy the formula if it can be satisfied. -/
structure Answer where
  verdict : Verdict
  model : Valuation := {}
  deriving Inhabited

/-- A decision procedure with a memory. -/
structure Solver (σ : Type) where
  /-- Decides whether a formula can be satisfied. -/
  decide : Expr → σ → Verdict × σ
  /-- Decides a formula and finds values for its free variables. -/
  solve : Expr → σ → Answer × σ

namespace Solver

variable {σ : Type}

/-- A solver that does not know the answer to the questions with the given numbers, counted from
one. Its memory adds the number of questions asked. -/
def withGaps (solver : Solver σ) (gaps : List Nat) : Solver (Nat × σ) where
  decide e := fun (asked, memory) =>
    if gaps.contains (asked + 1) then (.dontKnow, (asked + 1, memory))
    else
      let (verdict, memory) := solver.decide e memory
      (verdict, (asked + 1, memory))
  solve e := fun (asked, memory) =>
    if gaps.contains (asked + 1) then ({ verdict := .dontKnow }, (asked + 1, memory))
    else
      let (answer, memory) := solver.solve e memory
      (answer, (asked + 1, memory))

end Solver

end StateSpace
