import Std.Data.HashSet
import StateSpace.Diagram.Manager

/-!
# Models of a function

Three questions about a stored function: on which variables it depends, one way to satisfy it, and
in how many ways it can be satisfied.
-/

namespace StateSpace.Diagram

namespace Manager

/-! ## Support -/

/-- Walks down the node table from index `i`, collecting the variables of the marked nodes. Children
are stored before their parents, so each node is reached after everything that could mark it. -/
def supportBelow (m : Manager) : Nat → Std.HashSet Nat → Std.HashSet Nat → Std.HashSet Nat
  | 0, _, vs => vs
  | i + 1, marked, vs =>
    if marked.contains (i + 1) && 1 ≤ i then
      let n := m.node (i + 1)
      supportBelow m i ((marked.insert n.low.index).insert n.high.index) (vs.insert n.var)
    else supportBelow m i marked vs

/-- The variables that a function depends on, in ascending order. -/
def support (m : Manager) (e : Edge) : List Nat :=
  (m.supportBelow e.index (.ofList [e.index]) {}).toList.mergeSort

/-! ## Satisfying paths -/

/-- Follows a satisfying path, the zero branch wherever it can be satisfied, for less than `bound`
decisions. -/
def pathUpTo (m : Manager) : Nat → Edge → List (Nat × Bool)
  | 0, _ => []
  | bound + 1, e =>
    if e = .one then []
    else if m.low e = .zero then (m.topVar e, true) :: pathUpTo m bound (m.high e)
    else (m.topVar e, false) :: pathUpTo m bound (m.low e)

/-- The values of the variables along one satisfying path; none for the constant false. Variables
that are not on the path are free. -/
def satisfyingPath? (m : Manager) (e : Edge) : Option (List (Nat × Bool)) :=
  if e = .zero then none else some (m.pathUpTo (e.index + 1) e)

/-! ## Counting -/

/-- The share of `total` assignments that an edge takes, given the shares of all nodes before. -/
def shareOf (total : Nat) (shares : Array Nat) (e : Edge) : Nat :=
  if e = .zero then 0
  else if e = .one then total
  else
    let share := shares.getD e.index 0
    if e.isNegated then total - share else share

/-- Appends the shares of the next `n` nodes. A decision takes half of each child's share. -/
def extendShares (m : Manager) (total : Nat) : Nat → Array Nat → Array Nat
  | 0, shares => shares
  | n + 1, shares =>
    let node := m.node shares.size
    extendShares m total n
      (shares.push ((shareOf total shares node.low + shareOf total shares node.high) / 2))

/-- The number of satisfying assignments of `count` variables, among which are all that the function
depends on. -/
def modelCount (m : Manager) (e : Edge) (count : Nat) : Nat :=
  let total := Nat.pow 2 count
  shareOf total (m.extendShares total (e.index + 1) #[]) e

end Manager

end StateSpace.Diagram
