import Std.Data.HashMap
import StateSpace.Diagram.ComputedTable

/-!
# Decision diagrams

Boolean functions of numbered variables are stored as reduced ordered decision diagrams with
complement edges. A function is an `Edge`: the index of a node, negated if the function is the
complement of the node's. All nodes live in one table, and no node is stored twice, so equal
functions are equal edges.

* Index 1 is the terminal, the constant true; index 0 belongs to no function.
* Variables count from 1; smaller ones stand closer to the root.
* The high edge of a stored node is never a complement, its two edges differ, and its children are
  stored before it.

`Manager` is the table together with its inverse and the computed table of `ite`; building steps are
actions of `Build`, which threads the manager.
-/

namespace StateSpace.Diagram

/-- A function of the manager: a node index, negative for the complement. Indices are unbounded, so
a table of nodes never runs out of them, as one with indices of 32 bits would. -/
structure Edge where
  code : Int
  deriving DecidableEq, Hashable, Repr, Inhabited

namespace Edge

def one : Edge := ⟨1⟩

def zero : Edge := ⟨-1⟩

/-- The edge to a node, not complemented. -/
def ofIndex (i : Nat) : Edge := ⟨i⟩

instance : Neg Edge where
  neg e := ⟨-e.code⟩

def index (e : Edge) : Nat := e.code.natAbs

def isNegated (e : Edge) : Bool := e.code < 0

def isTerminal (e : Edge) : Bool := e = zero || e = one

def constant (b : Bool) : Edge := if b then one else zero

/-- The edge itself, or its complement if `negated`. -/
def complementIf (negated : Bool) (e : Edge) : Edge := if negated then -e else e

/-- A number for each edge, by which computed results are hashed. -/
def literal (e : Edge) : UInt64 :=
  (2 * e.index + if e.isNegated then 1 else 0).toUInt64

def text (e : Edge) : String :=
  (if e.isNegated then "~@" else "@") ++ toString e.index

end Edge

/-- A stored decision: which variable is asked, and where a zero and a one lead. -/
structure Node where
  var : Nat
  low : Edge
  high : Edge
  deriving DecidableEq, Hashable, Repr, Inhabited

/-- What stands at the two indices that hold no decision. -/
def Node.sentinel : Node := ⟨0, ⟨0⟩, ⟨0⟩⟩

structure Triple where
  condition : Edge
  consequent : Edge
  alternative : Edge
  deriving DecidableEq, Repr, Inhabited

instance : SlotHash Triple where
  slotHash t := triple t.condition.literal t.consequent.literal t.alternative.literal

/-- The node table, its inverse, and the results of `ite` computed lately. -/
structure Manager where
  nodes : Array Node
  unique : Std.HashMap Node Nat
  computed : ComputedTable Triple Edge

/-- Building steps: they return a result and a manager that holds at least the nodes it held. -/
abbrev Build := StateM Manager

namespace Manager

/-- The manager without decisions, whose computed table has `2 ^ bits` slots. -/
def empty (bits : Nat) : Manager where
  nodes := #[.sentinel, .sentinel]
  unique := {}
  computed := .empty bits

/-- The manager without decisions, refused if its computed table would be too large. -/
def empty? (bits : Nat) : Option Manager :=
  if bits ≤ ComputedTable.maxBits then some (empty bits) else none

def size (m : Manager) : Nat := m.nodes.size - 2

def node (m : Manager) (i : Nat) : Node := m.nodes.getD i .sentinel

/-- The variable that a function asks first; zero for the constants. -/
def topVar (m : Manager) (e : Edge) : Nat := (m.node e.index).var

/-- The function if its first variable is false. -/
def low (m : Manager) (e : Edge) : Edge := (m.node e.index).low.complementIf e.isNegated

/-- The function if its first variable is true. -/
def high (m : Manager) (e : Edge) : Edge := (m.node e.index).high.complementIf e.isNegated

/-- The function if variable `v`, which stands no deeper than its first one, is false and if it is
true. -/
def cofactors (m : Manager) (e : Edge) (v : Nat) : Edge × Edge :=
  if e.isTerminal || v < m.topVar e then (e, e) else (m.low e, m.high e)

/-- The size and the counts of the computed table, as one text. -/
def summary (m : Manager) : String :=
  s!"Bdd \x7b size: {m.size}, cache_hits: {m.computed.hits}, cache_misses: {m.computed.misses} \x7d"

end Manager

/-! ## Storing nodes -/

/-- The edge to a node, which is stored unless it is there already. -/
def store (n : Node) : Build Edge := fun m =>
  match m.unique[n]? with
  | some i => (.ofIndex i, m)
  | none =>
    let i := m.nodes.size
    (.ofIndex i, { m with nodes := m.nodes.push n, unique := m.unique.insert n i })

/-- The decision between two functions, in normal form: a decision between equal functions is none,
and a complement on the high edge moves to the result. -/
def mkNode (v : Nat) (low high : Edge) : Build Edge :=
  if low = high then pure low
  else if high.isNegated then do
    let e ← store ⟨v, -low, -high⟩
    pure (-e)
  else store ⟨v, low, high⟩

/-- A decision on a variable that has to exist: there is no variable 0. -/
def mkNode? (v : Nat) (low high : Edge) : Build (Option Edge) :=
  if v = 0 then pure none else do
    let e ← mkNode v low high
    pure (some e)

def mkVariable (v : Nat) : Build Edge := mkNode v .zero .one

/-! ## The functions that edges stand for

An edge stands for the function that follows the decisions of an assignment down to a constant. The
children of a node are stored before it, so the index of an edge bounds the way down. -/

/-- Truth values for the decision variables. -/
abbrev Assignment := Nat → Bool

/-- Follows at most `bound` decisions; false if no constant is met by then. -/
def Manager.evalUpTo (m : Manager) (a : Assignment) : Nat → Edge → Bool
  | 0, _ => false
  | bound + 1, e =>
    if e = .one then true
    else if e = .zero then false
    else m.evalUpTo a bound (if a (m.topVar e) then m.high e else m.low e)

/-- The value of the function of an edge on an assignment. -/
def Manager.eval (m : Manager) (a : Assignment) (e : Edge) : Bool :=
  m.evalUpTo a (e.index + 1) e

end StateSpace.Diagram
