import StateSpace.Region

/-!
# Images of a search

What a region search knows at some point: the region reached, the frontier found at the depth
before, the states found at the current depth, and the error labels reached with a way to each of
them.
-/

namespace StateSpace.Search

structure Image (S : Type) where
  depth : Nat := 0
  reachable : Region S
  /-- What the depth before added. -/
  frontier : Region S
  /-- The successors found at the current depth. -/
  pending : Region S := {}
  /-- The messages about errors, by depth. -/
  errorsAtDepth : Std.TreeMap Nat (List String) := {}
  /-- The error labels reached, in the order in which they were. -/
  reachedErrors : List String := []
  /-- For each error label reached, the labels fired on a way to it. -/
  counterexamples : Std.TreeMap String (List String) := {}
  ending : Ending := .fixpoint 0
  names : Nat
  deriving Inhabited

namespace Image

variable {S : Type}

/-- The image before the search: the initial states are reached, and they are the frontier. -/
def ofInitial (initial : List S) : Image S :=
  let named := initial.zipIdx 1 |>.map fun (s, n) => (Region.nameOf n, s)
  let region : Region S := named.foldl (fun r (name, s) => r.insert name s) {}
  { reachable := region, frontier := region, names := initial.length }

/-- Adds a successor under the next name. -/
def addPending (i : Image S) (s : S) : Image S :=
  { i with names := i.names + 1, pending := i.pending.insert (Region.nameOf (i.names + 1)) s }

def isReached (i : Image S) (label : String) : Bool :=
  i.reachedErrors.contains label

/-- Enters that an error label is reached, unless it was reached before. -/
def recordError (i : Image S) (label : String) (history : List String) : Image S :=
  if i.isReached label then i
  else
    let messages := i.errorsAtDepth.getD i.depth []
    { i with
      errorsAtDepth :=
        i.errorsAtDepth.insert i.depth (messages ++ [s!"{label} reached at depth {i.depth}"])
      reachedErrors := i.reachedErrors ++ [label]
      counterexamples := i.counterexamples.insert label history }

/-- The messages about errors, each with its depth in front. -/
def errorLines (i : Image S) : List String :=
  i.errorsAtDepth.toList.flatMap fun (depth, messages) =>
    messages.map fun message => s!"depth {depth}: {message}"

/-- The ways to the error labels reached, by label. -/
def counterexampleLines (i : Image S) : List String :=
  i.counterexamples.toList.map fun (label, history) =>
    s!"counterexample for {label}: " ++ " -> ".intercalate history

def text [RegionState S] (i : Image S) : String :=
  s!"depth: {i.depth} ({i.ending.text})\nreachable states: {i.reachable.size}\n" ++
    i.reachable.text ++
    String.join ((i.errorLines ++ i.counterexampleLines).map (· ++ "\n"))

end Image

end StateSpace.Search
