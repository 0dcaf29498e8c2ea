import StateSpace.Expr.Eval
import StateSpace.System

/-!
# Concrete executions

What a transition system does, told without formulas about sets of states: an execution starts in
values that satisfy the initial formulas, or in what a constructor makes of them, and fires one
label after the other. A label fires if some values of its parameters satisfy its precondition and,
together with the values afterwards, its effects; variables without an effect keep their values.

* `Label.Fires` is one step, with the parameters among the values before;
* `System.Reaches` is the inductive relation between the labels fired and the values reached.
-/

namespace StateSpace

/-- The values before and after a step as one environment: primed variables have the values
after. -/
def Environment.across (xs : List Variable) (before after : Environment) : Environment := fun y =>
  match xs.find? fun x => x.primed = y with
  | some x => after x
  | none => before y

variable [Reals]

/-- A label fires between two environments, the first of which also holds the parameters. -/
def Label.Fires (l : Label) (before after : Environment) : Prop :=
  l.precondition.holds before = true ∧
    ∀ x ∈ l.stateVariables,
      match l.explicitEffect? x with
      | some effect => effect.holds (before.across l.stateVariables after) = true
      | none => after.get x = before.get x

namespace System

/-- Whether values satisfy the formulas of the state before anything fired. -/
def IsDefault (s : System) (ν : Environment) : Prop :=
  (s.defaultState 0).toExpr.holds ν = true

/-- A label is enabled on values if some values of its parameters satisfy its precondition. -/
def Enables (s : System) (ν : Environment) (l : Label) : Prop :=
  ∃ before, Environment.AgreeOn s.stateVariables before ν ∧ l.precondition.holds before = true

/-- A label leads from values to values, for some values of its parameters. -/
def Leads (s : System) (l : Label) (ν ν' : Environment) : Prop :=
  ∃ before, Environment.AgreeOn s.stateVariables before ν ∧ l.Fires before ν'

/-- The values that executions start in, with the constructors fired for them. -/
inductive Starts (s : System) : List String → Environment → Prop where
  | default {ν : Environment} (hNone : s.constructors = []) (hDefault : s.IsDefault ν) :
      Starts s [] ν
  | built {c : Label} {ν ν' : Environment} (hLabel : c ∈ s.constructors)
      (hNoError : c.isError = false) (hDefault : s.IsDefault ν) (hLeads : s.Leads c ν ν') :
      Starts s [c.name] ν'

/-- The values reached by firing labels, neither constructors nor error labels, after a start. -/
inductive Reaches (s : System) : List String → Environment → Prop where
  | start {history : List String} {ν : Environment} (hStart : s.Starts history ν) :
      Reaches s history ν
  | fire {history : List String} {ν ν' : Environment} {l : Label} (hBefore : Reaches s history ν)
      (hLabel : l ∈ s.labels) (hNoConstructor : l.isConstructor = false)
      (hNoError : l.isError = false) (hLeads : s.Leads l ν ν') :
      Reaches s (history ++ [l.name]) ν'

end System

end StateSpace
