import StateSpace.Diagram.Manager

/-!
# If-then-else and the connectives

Every connective is an if-then-else. Before it is computed, a triple is brought into a normal form:
operands that repeat the condition become constants, the condition is not a complement, and neither
is the consequent. What remains is looked up, or computed by splitting on the smallest variable.

The sum of the three node indices goes down in every call: a constant replaces a larger index, and
children are stored before their parents. So that sum bounds the recursion.
-/

namespace StateSpace.Diagram

/-- The smallest variable of a triple whose condition is no constant. -/
def Manager.splitVar (m : Manager) (f g h : Edge) : Nat :=
  let least (v : Nat) (e : Edge) : Nat := if m.topVar e = 0 then v else min v (m.topVar e)
  least (least (m.topVar f) g) h

def findComputed (t : Triple) : Build (Option Edge) := fun m =>
  let (found, computed) := m.computed.find? t
  (found, { m with computed })

def keepComputed (t : Triple) (e : Edge) : Build Unit := fun m =>
  ((), { m with computed := m.computed.insert t e })

/-- If-then-else by a recursion of depth less than `bound`. -/
def iteUpTo : Nat → Edge → Edge → Edge → Build Edge
  | 0, _, _, _ => pure .zero
  | bound + 1, f, g, h =>
    if f = .one then pure g
    else if f = .zero then pure h
    else if g = h then pure g
    else if g = .one && h = .zero then pure f
    else if g = .zero && h = .one then pure (-f)
    else if g = f then iteUpTo bound f .one h
    else if h = f then iteUpTo bound f g .zero
    else if g = -f then iteUpTo bound f .zero h
    else if h = -f then iteUpTo bound f g .one
    else do
      -- A complemented condition swaps the branches.
      let (f, g, h) := if f.isNegated then (-f, h, g) else (f, g, h)
      -- A complemented consequent complements the result.
      let negated := g.isNegated
      let (g, h) := (g.complementIf negated, h.complementIf negated)
      match ← findComputed ⟨f, g, h⟩ with
      | some e => pure (e.complementIf negated)
      | none =>
        let m ← get
        let v := m.splitVar f g h
        let (f₀, f₁) := m.cofactors f v
        let (g₀, g₁) := m.cofactors g v
        let (h₀, h₁) := m.cofactors h v
        let low ← iteUpTo bound f₀ g₀ h₀
        let high ← iteUpTo bound f₁ g₁ h₁
        let e ← mkNode v low high
        keepComputed ⟨f, g, h⟩ e
        pure (e.complementIf negated)

def ite (f g h : Edge) : Build Edge :=
  iteUpTo (f.index + g.index + h.index + 1) f g h

def and (f g : Edge) : Build Edge := ite f g .zero

def or (f g : Edge) : Build Edge := ite f .one g

def xor (f g : Edge) : Build Edge := ite f (-g) g

def iff (f g : Edge) : Build Edge := ite f g (-g)

def imply (f g : Edge) : Build Edge := ite f g .one

end StateSpace.Diagram
