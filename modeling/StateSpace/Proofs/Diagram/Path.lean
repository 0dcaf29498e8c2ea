import Mathlib.Data.List.Nodup
import StateSpace.Diagram.Model
import StateSpace.Proofs.Diagram.Canonicity

/-!
# Satisfying paths

Every function but the constant false has a satisfying path. The variables along it ascend, so the
path contradicts itself nowhere, and every assignment that follows it makes the function true; in
particular the one that is true on the true variables of the path alone.
-/

namespace StateSpace.Diagram.Manager

variable {m : Manager} {e : Edge}

/-- An assignment gives the variables of a path the values they have there. -/
def Follows (a : Assignment) (path : List (Nat × Bool)) : Prop :=
  ∀ step ∈ path, a step.1 = step.2

/-- The assignment that is true on the true variables of a path alone. -/
def onPath (path : List (Nat × Bool)) : Assignment :=
  fun v => ((path.filter Prod.snd).map Prod.fst).contains v

/-- A path whose variables ascend is followed by the assignment read off it. -/
theorem follows_onPath {path : List (Nat × Bool)}
    (h : path.Pairwise fun step step' => step.1 < step'.1) : Follows (onPath path) path := by
  rintro ⟨v, c⟩ hMem
  have hIff : onPath path v = true ↔ (v, true) ∈ path := by
    simp [onPath]
  cases c with
  | true => exact hIff.mpr hMem
  | false =>
    rw [← Bool.not_eq_true, hIff]
    intro hMem'
    -- the variable would stand twice on the path
    have hNodup : (path.map Prod.fst).Nodup := List.pairwise_map.mpr (h.imp Nat.ne_of_lt)
    exact absurd (List.inj_on_of_nodup_map hNodup hMem hMem' rfl) (by simp)

/-- What a satisfying path from an edge owes. -/
structure IsPath (m : Manager) (e : Edge) (path : List (Nat × Bool)) : Prop where
  ascends : path.Pairwise fun step step' => step.1 < step'.1
  beyond : ∀ {v : Nat}, m.Above v e → ∀ step ∈ path, v < step.1
  satisfies : ∀ {a : Assignment}, Follows a path → m.eval a e = true

/-- A path through a child of a decision, continued from the decision. -/
theorem IsPath.cons (hw : m.WellFormed) (hd : m.IsDecision e.index) {path : List (Nat × Bool)}
    {c : Bool} (h : m.IsPath (if c then m.high e else m.low e) path) :
    m.IsPath e ((m.topVar e, c) :: path) := by
  have hAbove : m.Above (m.topVar e) (if c then m.high e else m.low e) := by
    cases c with
    | true => exact (hw.high_spec hd).2.2
    | false => exact (hw.low_spec hd).2.2
  have hBeyond := h.beyond hAbove
  refine ⟨List.pairwise_cons.mpr ⟨hBeyond, h.ascends⟩, ?_, ?_⟩
  · intro v hv step hMem
    have hlt : v < m.topVar e := hv.resolve_left (by have := hd.1; omega)
    rcases List.mem_cons.mp hMem with rfl | hMem
    · exact hlt
    · exact Nat.lt_trans hlt (hBeyond step hMem)
  · intro a ha
    have hHead : a (m.topVar e) = c := ha _ List.mem_cons_self
    have hTail := h.satisfies fun step hMem => ha step (List.mem_cons_of_mem _ hMem)
    rw [eval_node hw hd, hHead]
    cases c <;> exact hTail

/-- The walk that finds a path: from a decision it takes the low branch unless that one is the
constant false, and it stops at the constant true and nowhere else. -/
inductive Walk (m : Manager) : Edge → List (Nat × Bool) → Prop
  | done : Walk m .one []
  | low {e : Edge} {path : List (Nat × Bool)} (hOne : e ≠ .one) (hLow : m.low e ≠ .zero)
      (h : Walk m (m.low e) path) : Walk m e ((m.topVar e, false) :: path)
  | high {e : Edge} {path : List (Nat × Bool)} (hOne : e ≠ .one) (hLow : m.low e = .zero)
      (h : Walk m (m.high e) path) : Walk m e ((m.topVar e, true) :: path)

theorem Holds.isDecision (he : m.Holds e) (hZero : e ≠ .zero) (hOne : e ≠ .one) :
    m.IsDecision e.index := by
  refine he.cases.resolve_left fun h => ?_
  rcases Edge.eq_zero_or_one h with h | h
  · exact hZero h
  · exact hOne h

/-- A decision whose low branch is false can be satisfied on the high one. -/
theorem WellFormed.high_ne_zero (hw : m.WellFormed) (hd : m.IsDecision e.index)
    (hLow : m.low e = .zero) : m.high e ≠ .zero :=
  fun hHigh => hw.low_ne_high_edge hd (hLow.trans hHigh.symm)

/-- The walk from a function that is not the constant false comes to its end, and never meets the
constant false on its way. -/
theorem walk_pathUpTo (hw : m.WellFormed) (bound : Nat) :
    ∀ e, m.Holds e → e ≠ .zero → e.index < bound → m.Walk e (m.pathUpTo bound e) := by
  induction bound with
  | zero => exact fun e _ _ h => absurd h (Nat.not_lt_zero _)
  | succ bound ih =>
    intro e he hne hlt
    rw [pathUpTo]
    by_cases hOne : e = .one
    · subst hOne
      rw [if_pos rfl]
      exact .done
    rw [if_neg hOne]
    have hd := he.isDecision hne hOne
    by_cases hLow : m.low e = .zero
    · rw [if_pos hLow]
      obtain ⟨hHeld, hIndex, -⟩ := hw.high_spec hd
      exact .high hOne hLow (ih _ hHeld (hw.high_ne_zero hd hLow) (by omega))
    · rw [if_neg hLow]
      obtain ⟨hHeld, hIndex, -⟩ := hw.low_spec hd
      exact .low hOne hLow (ih _ hHeld hLow (by omega))

/-- A walk from a function that is not false is a path to true. -/
theorem Walk.isPath {path : List (Nat × Bool)} (hw : m.WellFormed) (h : m.Walk e path)
    (he : m.Holds e) (hne : e ≠ .zero) : m.IsPath e path := by
  induction h with
  | done => exact ⟨List.Pairwise.nil, by simp, by simp⟩
  | low hOne hLow _ ih =>
    have hd := he.isDecision hne hOne
    exact .cons (c := false) hw hd (ih (hw.low_spec hd).1 hLow)
  | high hOne hLow _ ih =>
    have hd := he.isDecision hne hOne
    exact .cons (c := true) hw hd (ih (hw.high_spec hd).1 (hw.high_ne_zero hd hLow))

theorem isPath_pathUpTo (hw : m.WellFormed) (bound : Nat) :
    ∀ e, m.Holds e → e ≠ .zero → e.index < bound → m.IsPath e (m.pathUpTo bound e) :=
  fun e he hne hlt => (walk_pathUpTo hw bound e he hne hlt).isPath hw he hne

theorem satisfyingPath?_eq_none_iff : m.satisfyingPath? e = none ↔ e = .zero := by
  unfold satisfyingPath?
  split <;> simp [*]

/-- The assignment read off a satisfying path makes the function true. -/
theorem eval_onPath {path : List (Nat × Bool)} (hw : m.WellFormed) (he : m.Holds e)
    (h : m.satisfyingPath? e = some path) : m.eval (onPath path) e = true := by
  unfold satisfyingPath? at h
  split at h
  · cases h
  · next hne =>
    cases h
    have hPath := isPath_pathUpTo hw (e.index + 1) e he hne (Nat.lt_succ_self _)
    exact hPath.satisfies (follows_onPath hPath.ascends)

end StateSpace.Diagram.Manager
