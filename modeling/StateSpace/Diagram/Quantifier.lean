import Std.Data.HashSet
import StateSpace.Diagram.Ite

/-!
# Quantification over variables

A quantified variable is replaced by the disjunction of its two cases, from the terminals up. Within
one quantification each function is treated once: its result is kept in a memo.
-/

namespace StateSpace.Diagram

/-- The results of one quantification so far. -/
abbrev QuantifierMemo := Std.HashMap Edge Edge

/-- Existential quantification by a recursion of depth less than `bound`. -/
def existsUpTo (vs : Std.HashSet Nat) : Nat → Edge → StateT QuantifierMemo Build Edge
  | 0, f => pure f
  | bound + 1, f => do
    if f.isTerminal then return f
    match (← get)[f]? with
    | some e => return e
    | none =>
      let m ← getThe Manager
      let v := m.topVar f
      let (low, high) := (m.low f, m.high f)
      let low ← existsUpTo vs bound low
      let high ← existsUpTo vs bound high
      let e ← if vs.contains v then or low high else mkNode v low high
      modify fun memo => memo.insert f e
      return e

/-- The disjunction of a function over all values of the given variables. Children are stored before
their parents, so the index of the function bounds the recursion. -/
def existsOver (vs : List Nat) (f : Edge) : Build Edge :=
  if vs.isEmpty then pure f else (existsUpTo (.ofList vs) (f.index + 1) f).run' {}

/-- The conjunction of a function over all values of the given variables. -/
def forallOver (vs : List Nat) (f : Edge) : Build Edge := do
  let e ← existsOver vs (-f)
  pure (-e)

end StateSpace.Diagram
