import StateSpace.Proofs.Execution
import StateSpace.Proofs.Label.Successor

/-!
# Effects that do not restrict each other

The formulas of a state share what earlier transitions have hidden, so one formula may restrict what
another one leaves open. In a coherent state that does not happen (`SymbolicState.Coherent`). Then
the values that a successor describes depend on the values that the state describes, and not on how
its formulas are written (`Label.Hygienic.describes_applyTo_iff`), and the successor is coherent
again if the effects of the label do not hinder each other (`Label.Hygienic.coherent_applyTo`).

Effects do not hinder each other for one of two reasons:

* they share no variables but those that have one value only (`Label.Uncoupled`), and the values of
  different variables have nothing to do with each other (`IsBox`);
* each of them can be met from any values (`Label.Total`).
-/

namespace StateSpace

open Environment Renaming

variable {xs : List Variable} {before before' after after' ν ρ τ : Environment} {x y : Variable}

/-! ## Coherent states -/

namespace SymbolicState

variable {s : SymbolicState} {R : Variable → Prop}

variable [Reals]

/-- The formulas of some of the variables hold. -/
def HoldsOn (s : SymbolicState) (R : Variable → Prop) (ρ : Environment) : Prop :=
  ∀ entry ∈ s.formulas, R entry.1 → entry.2.holds ρ = true

/-- No formula restricts the variables of the others. If each formula can be satisfied, then all of
them can together, with whatever values some of them allow their variables. -/
def Coherent (xs : List Variable) (s : SymbolicState) : Prop :=
  (∀ entry ∈ s.formulas, ∃ ρ, entry.2.holds ρ = true) → ∀ R ρ, s.HoldsOn R ρ →
    ∃ ρ', (∀ x ∈ xs, R x → ρ'.get x = ρ.get x) ∧ s.toExpr.holds ρ' = true

theorem holdsOn_all : s.HoldsOn (fun _ => True) ρ ↔ s.toExpr.holds ρ = true := by
  rw [holds_toExpr]
  exact forall₂_congr fun entry _ => ⟨fun h => h trivial, fun h _ => h⟩

theorem Coherent.complete (h : s.Coherent xs) (hSome : s.Describes xs ν) (hρ : s.HoldsOn R ρ) :
    ∃ ρ', (∀ x ∈ xs, R x → ρ'.get x = ρ.get x) ∧ s.toExpr.holds ρ' = true := by
  obtain ⟨ρ₀, -, hρ₀⟩ := hSome
  exact h (fun entry hEntry => ⟨ρ₀, holds_toExpr.mp hρ₀ entry hEntry⟩) R ρ hρ

end SymbolicState

/-! ## Where some of the effects lead -/

namespace Label

variable {l : Label} {s : SymbolicState} {t : Nat} {R R' : Variable → Prop} {D : Environment → Prop}
  {fixed single : List Variable}

/-- The effects on some of the variables lead to values, from values that are among the given ones
as far as these effects read them. -/
def Moves [Reals] (l : Label) (D : Environment → Prop) (R : Variable → Prop) (after : Environment) :
    Prop :=
  ∃ before ν, D ν ∧ ∀ x ∈ l.stateVariables, R x →
    (∀ y ∈ l.stateVariables, (l.effectOn x).Free y → before.get y = ν.get y) ∧
      (l.effectOn x).holds (across l.stateVariables before after) = true

/-- Effects do not hinder each other on the given values: if each of them leads somewhere, then
wherever some of them lead, all of them together do. -/
def Unhindered [Reals] (l : Label) (D : Environment → Prop) : Prop :=
  (∀ x ∈ l.stateVariables, ∃ after, l.Moves D (· = x) after) → ∀ R after, l.Moves D R after →
    ∃ after', (∀ x ∈ l.stateVariables, R x → after'.get x = after.get x) ∧
      l.Moves D (fun _ => True) after'

/-- Fewer effects, and values that are the same as far as these effects set them. -/
theorem WellScoped.moves_of_moves [Reals] (hl : l.WellScoped xs) (h : l.Moves D R after)
    (hR : ∀ x ∈ xs, R' x → R x ∧ after.get x = after'.get x) : l.Moves D R' after' := by
  obtain ⟨before, ν, hν, hAll⟩ := h
  refine ⟨before, ν, hν, fun x hx hx' => ?_⟩
  rw [hl.ranges] at hx hAll ⊢
  obtain ⟨hRx, hSame⟩ := hR x hx hx'
  obtain ⟨hRead, hEffect⟩ := hAll x hx hRx
  refine ⟨hRead, ?_⟩
  rw [← hl.holds_across_congr hx (hl.effectOn hx) (fun _ _ _ => rfl) hSame]
  exact hEffect

/-! ## Successors of coherent states -/

/-- A successor has a formula for every state variable. -/
theorem exists_mem_applyTo (s : SymbolicState) (t id : Nat) (hx : x ∈ l.stateVariables) :
    ∃ e, (x, e) ∈ (l.applyTo s t id).formulas := by
  rw [formulas_applyTo]
  exact ⟨_, List.mem_map.mpr ⟨x, hx, rfl⟩⟩

theorem Hygienic.holdsOn_applyTo [Reals] (hl : l.Hygienic xs) (hs : s.Tidy xs t) {id : Nat} :
    (l.applyTo s t id).HoldsOn R τ ↔
      ∀ x ∈ xs, R x → (l.successorFormula s x).holds
        (across xs (τ.along (ofTransition xs l.parameters t)) τ) = true := by
  rw [SymbolicState.HoldsOn, formulas_applyTo, hl.ranges, List.forall_mem_map]
  exact forall₂_congr fun x hx => by rw [hl.holds_hidden hs hx]

/-- Wherever some effects lead from what a state describes, the formulas of the successor allow. -/
theorem Hygienic.exists_holdsOn_of_moves [Reals] (hl : l.Hygienic xs) (hs : s.Tidy xs t) (id : Nat)
    (h : l.Moves (s.Describes xs) R after) :
    ∃ τ, AgreeOn xs τ after ∧ (l.applyTo s t id).HoldsOn R τ := by
  obtain ⟨before, ν, ⟨ρ, hρ, hState⟩, hAll⟩ := h
  rw [hl.ranges] at hAll
  -- state variables have the values of the state, parameters those that the effects need
  let β := patched (· ∈ xs) ρ fun _ => before
  have hβ : AgreeOn xs ρ β := fun y hy => (get_patched_of hy).symm
  obtain ⟨γ, hγ, hState⟩ := hl.exists_joint hs hState hβ
  obtain ⟨τ, hτ, hSame⟩ := hl.exists_hidden hs γ after
  refine ⟨τ, hτ, (hl.holdsOn_applyTo hs).mpr fun x hx hRx => ?_⟩
  obtain ⟨hRead, hEffect⟩ := hAll x hx hRx
  rw [hSame x hx]
  refine hl.holds_successorFormula hs ?_ hState
  rw [← hEffect]
  refine hl.holds_across_congr hx (hl.effectOn hx) (fun y hy hFree => ?_) rfl
  rw [hγ y hy]
  by_cases hMem : y ∈ xs
  · rw [← hβ y hMem, hρ y hMem, hRead y hMem hFree]
  · exact get_patched_of_not hMem

section Successor

variable [Reals]
variable (hl : l.Hygienic xs) (hs : s.Tidy xs t) (hFunctional : s.Functional)
  (hCoherent : s.Coherent xs) (hSome : s.Describes xs ν) (id : Nat)

include hl hs hFunctional hCoherent hSome

/-- What some formulas of the successor of a coherent state allow, the effects on their variables
lead to from what the state describes. -/
theorem Hygienic.moves_of_holdsOn (h : (l.applyTo s t id).HoldsOn R τ) :
    l.Moves (s.Describes xs) R τ := by
  rw [hl.holdsOn_applyTo hs] at h
  generalize τ.along (ofTransition xs l.parameters t) = β at h
  -- the formulas of what is read hold under the hidden values, so the state has such values
  have hRead : s.HoldsOn (fun y => ∃ x ∈ xs, R x ∧ (l.effectOn x).Free y) β := by
    rintro entry hEntry ⟨x, hx, hRx, hFree⟩
    exact hl.holds_of_read hs (h x hx hRx) (hs.keys entry hEntry) hFree (hFunctional entry hEntry)
  obtain ⟨ρ, hρ, hState⟩ := hCoherent.complete hSome hRead
  refine ⟨β, ρ, ⟨ρ, .refl _ _, hState⟩, fun x hx hRx => ?_⟩
  rw [hl.ranges] at hx ⊢
  exact ⟨fun y hy hFree => (hρ y hy ⟨x, hx, hRx, hFree⟩).symm,
    holds_effectOn_of_successorFormula (h x hx hRx)⟩

/-- What a successor describes depends on what the state describes alone. -/
theorem Hygienic.describes_applyTo_iff :
    (l.applyTo s t id).Describes xs after ↔ l.Moves (s.Describes xs) (fun _ => True) after := by
  constructor
  · rintro ⟨τ, hτ, hHolds⟩
    have hMoves := hl.moves_of_holdsOn hs hFunctional hCoherent hSome id
      (SymbolicState.holdsOn_all.mpr hHolds)
    exact hl.moves_of_moves hMoves fun x hx _ => ⟨trivial, hτ x hx⟩
  · intro hMoves
    obtain ⟨τ, hτ, hHolds⟩ := hl.exists_holdsOn_of_moves hs id hMoves
    exact ⟨τ, hτ, SymbolicState.holdsOn_all.mp hHolds⟩

/-- **Coherence is kept** by effects that do not hinder each other on what the state describes. -/
theorem Hygienic.coherent_applyTo (hFree : l.Unhindered (s.Describes xs)) :
    (l.applyTo s t id).Coherent xs := by
  intro hSatisfiable R ρ hρ
  have hMoves := hl.moves_of_holdsOn hs hFunctional hCoherent hSome id hρ
  -- a formula of the successor that can be satisfied is an effect that leads somewhere
  have hEach : ∀ x ∈ l.stateVariables, ∃ after, l.Moves (s.Describes xs) (· = x) after := by
    intro x hx
    obtain ⟨e, hEntry⟩ := exists_mem_applyTo s t id hx
    obtain ⟨τ, hτ⟩ := hSatisfiable _ hEntry
    refine ⟨τ, hl.moves_of_holdsOn hs hFunctional hCoherent hSome id fun entry hMem heq => ?_⟩
    have hSame := functional_applyTo l s t id entry hMem
    rw [heq, functional_applyTo l s t id _ hEntry, Option.some.injEq] at hSame
    rw [← hSame]
    exact hτ
  obtain ⟨after, hAfter, hAll⟩ := hFree hEach R ρ hMoves
  obtain ⟨τ, hτ, hHolds⟩ := hl.exists_holdsOn_of_moves hs id hAll
  refine ⟨τ, fun x hx hRx => ?_, SymbolicState.holdsOn_all.mp hHolds⟩
  rw [hτ x hx, hAfter x (by rwa [hl.ranges]) hRx]

end Successor

/-! ## Effects that share nothing -/

/-- Different effects share no variables but fixed ones, and the effects on the variables in
`single` leave one value, given the values of the fixed ones. -/
structure Uncoupled [Reals] (l : Label) (fixed single : List Variable) : Prop where
  shared : ∀ x ∈ l.stateVariables, ∀ z ∈ l.stateVariables, x ≠ z → ∀ y,
    (l.effectOn x).Free y → (l.effectOn z).Free y → y ∈ fixed
  determined : ∀ x ∈ single, ∀ before before' after after',
    (∀ y ∈ fixed, (l.effectOn x).Free y → before.get y = before'.get y) →
    (l.effectOn x).holds (across l.stateVariables before after) = true →
    (l.effectOn x).holds (across l.stateVariables before' after') = true →
    after.get x = after'.get x

end Label

/-- Values of different variables can be combined at will, and some variables have one value
only. -/
structure IsBox [Reals] (xs single : List Variable) (D : Environment → Prop) : Prop where
  product : ∀ ν, (∀ x ∈ xs, ∃ ν', D ν' ∧ ν'.get x = ν.get x) → D ν
  single : ∀ x ∈ single, ∀ ν ν', D ν → D ν' → ν.get x = ν'.get x

namespace Label

variable {l : Label} {D : Environment → Prop} {fixed single : List Variable}

section Uncoupled

variable [Reals]
variable (h : l.Uncoupled fixed single) (hl : l.WellScoped xs) (hFixed : fixed ⊆ xs)
  (hD : IsBox xs fixed D)

include h hl hFixed hD

/-- Uncoupled effects lead wherever each of them leads. -/
theorem Uncoupled.moves_all (hSome : D ν) (hMoves : ∀ x ∈ xs, l.Moves D (· = x) after) :
    l.Moves D (fun _ => True) after := by
  classical
  have hSteps : ∀ x ∈ xs, ∃ before ν, D ν ∧
      (∀ y ∈ xs, (l.effectOn x).Free y → before.get y = ν.get y) ∧
      (l.effectOn x).holds (across xs before after) = true := by
    intro x hx
    obtain ⟨before, ν, hν, hAll⟩ := hMoves x hx
    rw [hl.ranges] at hAll
    exact ⟨before, ν, hν, hAll x hx rfl⟩
  choose! before ν' hν' hRead hEffect using hSteps
  -- a variable that is read has the value that one of the effects reads
  let joint : Environment := fun y =>
    if hEx : ∃ x ∈ xs, (l.effectOn x).Free y then before hEx.choose y else ν y
  have hJoint : ∀ x ∈ xs, ∀ y, (l.effectOn x).Free y → joint.get y = (before x).get y := by
    intro x hx y hy
    have hEx : ∃ x ∈ xs, (l.effectOn x).Free y := ⟨x, hx, hy⟩
    obtain ⟨hz, hzy⟩ := hEx.choose_spec
    have hChosen : joint.get y = (before hEx.choose).get y := by
      simp only [Environment.get, joint, dif_pos hEx]
    rw [hChosen]
    -- if it is not this effect, then both read the variable, so it is a fixed one
    by_cases heq : hEx.choose = x
    · rw [heq]
    · have hShared : y ∈ fixed :=
        h.shared _ (by rwa [hl.ranges]) x (by rwa [hl.ranges]) heq y hzy hy
      rw [hRead _ hz y (hFixed hShared) hzy, hRead x hx y (hFixed hShared) hy]
      exact hD.single y hShared _ _ (hν' _ hz) (hν' x hx)
  have hReached : D joint := hD.product joint fun y hy => by
    by_cases hEx : ∃ x ∈ xs, (l.effectOn x).Free y
    · obtain ⟨x, hx, hFree⟩ := hEx
      exact ⟨ν' x, hν' x hx, by rw [hJoint x hx y hFree, hRead x hx y hy hFree]⟩
    · exact ⟨ν, hSome, by simp only [Environment.get, joint, dif_neg hEx]⟩
  refine ⟨joint, joint, hReached, fun x hx _ => ⟨fun _ _ _ => rfl, ?_⟩⟩
  rw [hl.ranges] at hx ⊢
  rw [← hEffect x hx]
  exact hl.holds_across_congr hx (hl.effectOn hx) (fun y _ hFree => hJoint x hx y hFree) rfl

/-- Effects that share no variable but fixed ones do not hinder each other. -/
theorem Uncoupled.unhindered (hSome : D ν) : l.Unhindered D := by
  classical
  intro hEach R after hAfter
  rw [hl.ranges] at hEach ⊢
  choose! next hNext using hEach
  refine ⟨patched R after next, fun x _ hRx => get_patched_of hRx,
    h.moves_all hl hFixed hD hSome fun x hx => ?_⟩
  by_cases hRx : R x
  · refine hl.moves_of_moves hAfter fun z _ hz => ?_
    rw [hz]
    exact ⟨hRx, (get_patched_of hRx).symm⟩
  · refine hl.moves_of_moves (hNext x hx) fun z _ hz => ⟨hz, ?_⟩
    rw [hz]
    exact (get_patched_of_not hRx).symm

/-- What uncoupled effects lead to from a box is a box. -/
theorem Uncoupled.isBox_moves (hSome : D ν) (hSingle : single ⊆ xs) :
    IsBox xs single (l.Moves D fun _ => True) where
  product ν' hν' := by
    refine h.moves_all hl hFixed hD hSome fun x hx => ?_
    obtain ⟨after, hAfter, hSame⟩ := hν' x hx
    refine hl.moves_of_moves hAfter fun z _ hz => ⟨trivial, ?_⟩
    rw [hz]
    exact hSame
  single x hx after after' := by
    rintro ⟨before, ν, hν, hAll⟩ ⟨before', ν', hν', hAll'⟩
    have hMem : x ∈ l.stateVariables := hl.ranges ▸ hSingle hx
    obtain ⟨hRead, hEffect⟩ := hAll x hMem trivial
    obtain ⟨hRead', hEffect'⟩ := hAll' x hMem trivial
    refine h.determined x hx before before' after after' (fun y hy hFree => ?_) hEffect hEffect'
    have hy' : y ∈ l.stateVariables := hl.ranges ▸ hFixed hy
    rw [hRead y hy' hFree, hRead' y hy' hFree]
    exact hD.single y hy ν ν' hν hν'

end Uncoupled

/-! ## Effects that can always be met -/

/-- From any values, each effect can be met. -/
def Total [Reals] (l : Label) : Prop :=
  ∀ before, ∀ x ∈ l.stateVariables, ∃ after,
    (l.effectOn x).holds (across l.stateVariables before after) = true

/-- Effects that can always be met do not hinder each other. -/
theorem Total.unhindered [Reals] (h : l.Total) (hl : l.WellScoped xs)
    (hD : ∀ ν ν', D ν → AgreeOn xs ν ν' → D ν') : l.Unhindered D := by
  classical
  rintro - R after ⟨before, ν, hν, hAll⟩
  rw [hl.ranges] at hAll ⊢
  -- state variables keep the values described; the other effects are met from there
  let before' := patched (· ∈ xs) ν fun _ => before
  have hState : AgreeOn xs ν before' := fun y hy => (get_patched_of hy).symm
  have hMet := h before'
  rw [hl.ranges] at hMet
  choose! next hNext using hMet
  refine ⟨patched R after next, fun x _ hRx => get_patched_of hRx, before', before',
    hD ν _ hν hState, fun x hx _ => ?_⟩
  rw [hl.ranges] at hx ⊢
  refine ⟨fun _ _ _ => rfl, ?_⟩
  by_cases hRx : R x
  · obtain ⟨hRead, hEffect⟩ := hAll x hx hRx
    rw [← hEffect]
    refine hl.holds_across_congr hx (hl.effectOn hx) (fun y _ hFree => ?_) (get_patched_of hRx)
    by_cases hy : y ∈ xs
    · rw [← hState y hy, hRead y hy hFree]
    · exact get_patched_of_not hy
  · rw [← hNext x hx]
    exact hl.holds_across_congr hx (hl.effectOn hx) (fun _ _ _ => rfl) (get_patched_of_not hRx)

end Label

/-! ## Formulas about one variable each -/

namespace SymbolicState

variable {s : SymbolicState}

/-- Where each formula is about its own variable alone, none restricts another. -/
theorem coherent_of_within [Reals] (hWithin : ∀ entry ∈ s.formulas, entry.2.Within [entry.1])
    (hFunctional : s.Functional) : s.Coherent xs := by
  classical
  intro hSatisfiable R ρ hρ
  -- every variable without a value to keep takes one that satisfies its own formula
  have hModel : ∀ x, ∃ ρ : Environment, ∀ e, (x, e) ∈ s.formulas → e.holds ρ = true := by
    intro x
    by_cases hEx : ∃ e, (x, e) ∈ s.formulas
    · obtain ⟨e, he⟩ := hEx
      obtain ⟨ρ, hρ⟩ := hSatisfiable _ he
      refine ⟨ρ, fun e' he' => ?_⟩
      have hSame : some e = some e' :=
        (hFunctional (x, e) he).symm.trans (hFunctional (x, e') he')
      rw [← Option.some.inj hSame]
      exact hρ
    · exact ⟨ρ, fun e he => absurd ⟨e, he⟩ hEx⟩
  choose model hModel using hModel
  refine ⟨patched R ρ model, fun x _ hRx => get_patched_of hRx,
    holds_toExpr.mpr fun entry hEntry => ?_⟩
  have hOwn : ∀ {y}, entry.2.Free y → y = entry.1 := fun hy =>
    List.mem_singleton.mp ((hWithin entry hEntry).inScope _ hy)
  by_cases hRx : R entry.1
  · rw [← hρ entry hEntry hRx]
    refine Expr.holds_congr fun y hy => ?_
    rw [hOwn hy]
    exact get_patched_of hRx
  · rw [← hModel entry.1 entry.2 hEntry]
    refine Expr.holds_congr fun y hy => ?_
    rw [hOwn hy]
    exact get_patched_of_not hRx

/-- Where each formula is about its own variable alone, values can be combined at will. -/
theorem isBox_of_within [Reals] (hWithin : ∀ entry ∈ s.formulas, entry.2.Within [entry.1])
    (hKeys : ∀ entry ∈ s.formulas, entry.1 ∈ xs) {single : List Variable}
    (hSingle : ∀ x ∈ single, x ∈ xs ∧ ∃ e, (x, e) ∈ s.formulas ∧
      ∀ ρ ρ', e.holds ρ = true → e.holds ρ' = true → ρ.get x = ρ'.get x) :
    IsBox xs single (s.Describes xs) where
  product ν hν := by
    refine ⟨ν, .refl _ _, holds_toExpr.mpr fun entry hEntry => ?_⟩
    obtain ⟨ν', ⟨ρ, hρ, hHolds⟩, hSame⟩ := hν entry.1 (hKeys entry hEntry)
    rw [← holds_toExpr.mp hHolds entry hEntry]
    refine Expr.holds_congr fun y hy => ?_
    rw [List.mem_singleton.mp ((hWithin entry hEntry).inScope y hy), ← hSame,
      hρ entry.1 (hKeys entry hEntry)]
  single x hx ν ν' := by
    rintro ⟨ρ, hρ, hHolds⟩ ⟨ρ', hρ', hHolds'⟩
    obtain ⟨hMem, e, he, hOne⟩ := hSingle x hx
    rw [← hρ x hMem, ← hρ' x hMem]
    exact hOne ρ ρ' (holds_toExpr.mp hHolds _ he) (holds_toExpr.mp hHolds' _ he)

end SymbolicState

/-! ## Systems -/

namespace System

variable {system : System} {single : List Variable}

/-- The labels of a system do not hinder their own effects on the sets of values that have a
property, and lead to such sets again. -/
structure Stable [Reals] (system : System) (P : (Environment → Prop) → Prop) : Prop where
  default : system.constructors = [] →
    P ((system.defaultState 1).Describes system.stateVariables)
  build : ∀ c ∈ system.constructors, c.isError = false → system.initialValues = [] → ∀ ν,
    (system.defaultState 1).Describes system.stateVariables ν →
    c.Unhindered ((system.defaultState 1).Describes system.stateVariables) ∧
      P (c.Moves ((system.defaultState 1).Describes system.stateVariables) fun _ => True)
  step : ∀ l ∈ system.labels, l.isConstructor = false → l.isError = false → ∀ D ν, P D → D ν →
    l.Unhindered D ∧ P (l.Moves D fun _ => True)

/-- Different effects of a label share no variables but those in `single`, and these have one value
initially and after each label. Constructors start from one value of each variable, so their effects
may share any state variables. -/
structure Uncoupled [Reals] (system : System) (single : List Variable) : Prop where
  subset : single ⊆ system.stateVariables
  initialValues : ∀ entry ∈ system.initialValues, entry.1 ∈ single → ∀ ρ ρ',
    entry.2.holds ρ = true → entry.2.holds ρ' = true → ρ.get entry.1 = ρ'.get entry.1
  constructors : ∀ c ∈ system.constructors, c.isError = false →
    c.Uncoupled system.stateVariables single
  labels : ∀ l ∈ system.labels, l.isConstructor = false → l.isError = false →
    l.Uncoupled single single

/-- From any values, each effect of a label can be met. -/
def Total [Reals] (system : System) : Prop :=
  ∀ l ∈ system.labels, l.isError = false → l.Total

section Default

variable (hSystem : system.WellScoped)
  (hWithin : ∀ entry ∈ system.initialValues, entry.2.Within [entry.1])

theorem within_defaultState_of_within
    (hWithin : ∀ entry ∈ system.initialValues, entry.2.Within [entry.1]) {id : Nat}
    {entry : Variable × Expr} (h : entry ∈ (system.defaultState id).formulas) :
    entry.2.Within [entry.1] := by
  rcases mem_formulas_defaultState h with ⟨x, -, rfl⟩ | hInit
  · exact (Expr.within_var (List.mem_singleton.mpr rfl)).equal (Expr.within_const _)
  · exact hWithin entry hInit

include hSystem hWithin

variable [Reals]

theorem coherent_defaultState (id : Nat) :
    (system.defaultState id).Coherent system.stateVariables :=
  SymbolicState.coherent_of_within (fun _ => within_defaultState_of_within hWithin)
    (hSystem.functional_defaultState id)

/-- The default values form a box, with one value for the variables that have one initially. -/
theorem isBox_defaultState (id : Nat) (hSubset : single ⊆ system.stateVariables)
    (hSingle : ∀ entry ∈ system.initialValues, entry.1 ∈ single → ∀ ρ ρ',
      entry.2.holds ρ = true → entry.2.holds ρ' = true → ρ.get entry.1 = ρ'.get entry.1) :
    IsBox system.stateVariables single
      ((system.defaultState id).Describes system.stateVariables) := by
  refine SymbolicState.isBox_of_within (fun _ => within_defaultState_of_within hWithin)
    (fun entry h => (hSystem.within_defaultState h).1) fun x hx => ⟨hSubset hx, ?_⟩
  have hMem : x ∈ (system.defaultState id).formulas.map Prod.fst := by
    rw [hSystem.keys_defaultState]
    exact hSubset hx
  obtain ⟨⟨_, e⟩, hEntry, rfl⟩ := List.mem_map.mp hMem
  refine ⟨e, hEntry, fun ρ ρ' h h' => ?_⟩
  rcases mem_formulas_defaultState hEntry with ⟨y, -, heq⟩ | hInit
  · cases heq
    exact Expr.get_eq_of_holds_equal_const h h'
  · exact hSingle _ hInit hx ρ ρ' h h'

/-- Uncoupled systems go from boxes to boxes. -/
theorem Uncoupled.stable (h : system.Uncoupled single) :
    system.Stable (IsBox system.stateVariables single) where
  default _ := isBox_defaultState hSystem hWithin 1 h.subset h.initialValues
  build c hc hnoError hNone ν hν := by
    have hl := hSystem.labels c (List.mem_filter.mp hc).1
    -- without initial values, every variable has one default
    have hBox := isBox_defaultState hSystem hWithin 1 (List.Subset.refl _) (by simp [hNone])
    have hUncoupled := h.constructors c hc hnoError
    exact ⟨hUncoupled.unhindered hl (List.Subset.refl _) hBox hν,
      hUncoupled.isBox_moves hl (List.Subset.refl _) hBox hν h.subset⟩
  step l hl hnoConstructor hnoError D ν hD hν := by
    have hUncoupled := h.labels l hl hnoConstructor hnoError
    have hl := hSystem.labels l hl
    exact ⟨hUncoupled.unhindered hl h.subset hD hν,
      hUncoupled.isBox_moves hl h.subset hD hν h.subset⟩

omit hWithin in
/-- Effects that can always be met hinder nothing, whatever the values. -/
theorem Total.stable (h : system.Total) :
    system.Stable fun D => ∀ ν ν', D ν → AgreeOn system.stateVariables ν ν' → D ν' where
  default _ _ _ hν hAgree := hν.congr hAgree
  build c hc hnoError _ _ _ := by
    have hLabel := (List.mem_filter.mp hc).1
    have hl := hSystem.labels c hLabel
    refine ⟨(h c hLabel hnoError).unhindered hl fun _ _ hν hAgree => hν.congr hAgree, ?_⟩
    exact fun _ _ hν hAgree => hl.moves_of_moves hν fun x hx _ => ⟨trivial, hAgree x hx⟩
  step l hLabel _ hnoError D _ hD _ := by
    have hl := hSystem.labels l hLabel
    refine ⟨(h l hLabel hnoError).unhindered hl hD, ?_⟩
    exact fun _ _ hν hAgree => hl.moves_of_moves hν fun x hx _ => ⟨trivial, hAgree x hx⟩

end Default

end System

end StateSpace
