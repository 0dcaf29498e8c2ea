import StateSpace.Expr.Basic

/-!
# Renaming

A renaming sends names to names and leaves types alone. Applied to an expression it touches only
free occurrences: a quantifier takes the names it binds out of the renaming within its body.

Each fired transition renames the old values of state variables and the parameters by names of its
own, `n_sv_t` and `n_p_t` for transition `t`, so that formulas gathered along different paths never
share a hidden variable by accident.
-/

namespace StateSpace

/-- A finite map of names, at most one entry a name. -/
structure Renaming where
  entries : List (String × String) := []
  deriving DecidableEq, Repr, Inhabited

namespace Renaming

def erase (ρ : Renaming) (name : String) : Renaming :=
  ⟨ρ.entries.filter fun entry => entry.1 != name⟩

/-- Sends `old` to `new`, whatever it was sent to before. -/
def insert (ρ : Renaming) (old new : String) : Renaming :=
  ⟨(ρ.erase old).entries ++ [(old, new)]⟩

def get? (ρ : Renaming) (name : String) : Option String :=
  ρ.entries.lookup name

/-- Where a name is sent; names without an entry stay. -/
def apply (ρ : Renaming) (name : String) : String :=
  (ρ.get? name).getD name

def size (ρ : Renaming) : Nat :=
  ρ.entries.length

/-- The renaming that the pairs describe; of two pairs for one name the later counts. -/
def ofList (pairs : List (String × String)) : Renaming :=
  pairs.foldl (fun ρ pair => ρ.insert pair.1 pair.2) {}

/-- Takes the names of some variables out of the renaming. -/
def shadow (ρ : Renaming) (xs : List Variable) : Renaming :=
  xs.foldl (fun ρ x => ρ.erase x.name) ρ

/-- The hidden name of a state variable's old value at a transition. -/
def stateVariableName (name : String) (transition : Nat) : String :=
  s!"{name}_sv_{transition}"

/-- The hidden name of a parameter's value at a transition. -/
def parameterName (name : String) (transition : Nat) : String :=
  s!"{name}_p_{transition}"

/-- The renaming of one fired transition. A parameter that shares the name of a state variable takes
its place. -/
def ofTransition (stateVariables parameters : List Variable) (transition : Nat) : Renaming :=
  ofList (stateVariables.map (fun x => (x.name, stateVariableName x.name transition)) ++
    parameters.map (fun x => (x.name, parameterName x.name transition)))

end Renaming

def Expr.rename (ρ : Renaming) : Expr → Expr
  | const v => const v
  | var x => var { x with name := ρ.apply x.name }
  | not e => not (e.rename ρ)
  | logical op l r => logical op (l.rename ρ) (r.rename ρ)
  | compare op l r => compare op (l.rename ρ) (r.rename ρ)
  | arith op l r => arith op (l.rename ρ) (r.rename ρ)
  | bitwise op l r => bitwise op (l.rename ρ) (r.rename ρ)
  | negate e => negate (e.rename ρ)
  | complement e => complement (e.rename ρ)
  | cast t e => cast t (e.rename ρ)
  | quantified q xs body => quantified q xs (body.rename (ρ.shadow xs))

/-- One formula for each of some variables. -/
abbrev Formulas := List (Variable × Expr)

namespace Formulas

/-- Sets the formula of a variable, in its place if it has one and at the end otherwise. -/
def set (x : Variable) (e : Expr) : Formulas → Formulas
  | [] => [(x, e)]
  | (y, old) :: rest => if y = x then (y, e) :: rest else (y, old) :: set x e rest

def rename (ρ : Renaming) (fs : Formulas) : Formulas :=
  fs.map fun (x, e) => (x, e.rename ρ)

/-- Turns formulas about next values into formulas about current ones: in the formula of `x`, and
only there, the primed name of `x` becomes its plain name. -/
def restoreCurrentNames (fs : Formulas) : Formulas :=
  fs.map fun (x, e) => (x, e.rename (Renaming.ofList [(x.primed.name, x.name)]))

end Formulas

end StateSpace
