import StateSpace.Label.Basic

/-!
# Frames

The effect on a variable is not used alone: it takes along every conjunct of the precondition that
it depends on. A conjunct belongs to the frame if it mentions a variable of the effect, or of a
conjunct that belongs to it. The frame is found by scanning the conjuncts from the first on; after
each one that is taken in, the conjuncts before it are scanned again, since its variables may
connect them.
-/

namespace StateSpace

/-- The conjuncts taken in so far, in the order in which they were, and the variables by which more
are connected. -/
structure Frame where
  relevant : List Variable
  included : List Nat := []
  deriving DecidableEq, Repr, Inhabited

namespace Frame

/-- Takes in the conjunct at a position. -/
def takeIn (f : Frame) (i : Nat) (conjunct : Expr) : Frame where
  relevant := conjunct.freeVariables.foldl (fun xs x => Expr.insertVariable x xs) f.relevant
  included := f.included ++ [i]

/-- Scans the conjuncts at positions below `n`, from the first on. -/
def collect (conjuncts : List Expr) : Nat → Frame → Frame
  | 0, f => f
  | n + 1, f =>
    let f := collect conjuncts n f
    match conjuncts[n]? with
    | none => f
    | some conjunct =>
      if !f.included.contains n && conjunct.mentionsAny f.relevant then
        collect conjuncts n (f.takeIn n conjunct)
      else f

end Frame

namespace Label

/-- The positions of the preconditions that an effect depends on, in the order in which they are
found. -/
def frame (l : Label) (effect : Expr) : List Nat :=
  (Frame.collect l.preconditions l.preconditions.length
    { relevant := effect.freeVariables }).included

/-- The next value of a variable: its effect behind the preconditions of its frame, or a stutter. -/
def effectOn (l : Label) (x : Variable) : Expr :=
  match l.explicitEffect? x with
  | none => stutter x
  | some effect =>
    match l.frame effect with
    | [] => effect
    | positions =>
      (Expr.conj (positions.filterMap fun i => l.preconditions[i]?)).and effect

end Label

end StateSpace
