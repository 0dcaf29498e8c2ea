import Mathlib.Order.Bounds.Defs
import Mathlib.Order.PiLex
import StateSpace.Proofs.Diagram.Operations
import StateSpace.Proofs.Diagram.Path

/-!
# The least model

The walk that finds a satisfying path has one way to go and one place to stop, the constant true
(`Walk.unique`). It takes the high branch of a decision only where the low one is false, so an
assignment that satisfies the function and agrees with the path up to there has to take it as well
(`Walk.forced`). Variables ascend along the path: the assignment read off it is therefore the least
model, with the smallest variable the most significant and false before true (`isLeast_onPath`).
-/

namespace StateSpace.Diagram

namespace Manager

variable {m : Manager} {e : Edge} {path path' : List (Nat × Bool)}

/-- The path is determined by the edge it starts from. -/
theorem Walk.unique (h : m.Walk e path) (h' : m.Walk e path') : path = path' := by
  induction h generalizing path' with
  | done =>
    cases h' with
    | done => rfl
    | low hOne => exact absurd rfl hOne
    | high hOne => exact absurd rfl hOne
  | low hOne hLow _ ih =>
    cases h' with
    | done => exact absurd rfl hOne
    | low _ _ h' => rw [ih h']
    | high _ hZero => exact absurd hZero hLow
  | high hOne hLow _ ih =>
    cases h' with
    | done => exact absurd rfl hOne
    | low _ hne => exact absurd hLow hne
    | high _ _ h' => rw [ih h']

/-- The path that is found is the outcome of the walk. -/
theorem satisfyingPath?_eq_some_iff (hw : m.WellFormed) (he : m.Holds e) :
    m.satisfyingPath? e = some path ↔ e ≠ .zero ∧ m.Walk e path := by
  unfold satisfyingPath?
  by_cases hne : e = .zero
  · simp [hne]
  have hWalk := walk_pathUpTo hw (e.index + 1) e he hne (Nat.lt_succ_self _)
  rw [if_neg hne, Option.some_inj]
  refine ⟨?_, fun h => hWalk.unique h.2⟩
  rintro rfl
  exact ⟨hne, hWalk⟩

/-- Off the path the assignment read off it is false. -/
theorem onPath_of_notMem {v : Nat} (h : ∀ step ∈ path, step.1 ≠ v) : onPath path v = false := by
  rw [← Bool.not_eq_true]
  intro hTrue
  have hMem : (v, true) ∈ path := by simpa [onPath] using hTrue
  exact h _ hMem rfl

/-- A model that agrees with the path before a high step takes that step too. -/
theorem Walk.forced (hw : m.WellFormed) (h : m.Walk e path) (he : m.Holds e) (hne : e ≠ .zero)
    {b : Assignment} (hb : m.eval b e = true) {v : Nat} (hv : (v, true) ∈ path)
    (hBefore : ∀ step ∈ path, step.1 < v → b step.1 = step.2) : b v = true := by
  induction h with
  | done => exact absurd hv (List.not_mem_nil)
  | @low e path hOne hLow hWalk ih =>
    have hd := he.isDecision hne hOne
    have hAscends := ((hWalk.low hOne hLow).isPath hw he hne).ascends
    have hMem : (v, true) ∈ path := (List.mem_cons.mp hv).resolve_left (by simp)
    have hHead : b (m.topVar e) = false :=
      hBefore _ List.mem_cons_self (List.rel_of_pairwise_cons hAscends hMem)
    refine ih (hw.low_spec hd).1 hLow ?_ hMem fun step hStep =>
      hBefore step (List.mem_cons_of_mem _ hStep)
    rw [eval_node hw hd, hHead] at hb
    exact hb
  | @high e path hOne hLow hWalk ih =>
    have hd := he.isDecision hne hOne
    have hAscends := ((hWalk.high hOne hLow).isPath hw he hne).ascends
    -- on the low branch the function is false
    have hHead : b (m.topVar e) = true := by
      by_contra hFalse
      rw [eval_node hw hd, if_neg hFalse, hLow] at hb
      simp at hb
    rcases List.mem_cons.mp hv with heq | hMem
    · rw [(Prod.mk.inj heq).1]
      exact hHead
    · refine ih (hw.high_spec hd).1 (hw.high_ne_zero hd hLow) ?_ hMem fun step hStep =>
        hBefore step (List.mem_cons_of_mem _ hStep)
      rw [eval_node hw hd, if_pos hHead] at hb
      exact hb

/-- The assignment read off a path is the least of all models. -/
theorem isLeast_onPath (hw : m.WellFormed) (h : m.Walk e path) (he : m.Holds e) (hne : e ≠ .zero) :
    IsLeast {a : Lex Assignment | m.eval (ofLex a) e = true} (toLex (onPath path)) := by
  have hPath := h.isPath hw he hne
  have hFollows := follows_onPath hPath.ascends
  refine ⟨hPath.satisfies hFollows, fun b hb => ?_⟩
  by_contra hle
  -- at the first variable where a smaller model differs, the path goes high and the model low
  obtain ⟨v, hAgree, hlt⟩ := not_le.mp hle
  obtain ⟨hFalse, hTrue⟩ := Bool.lt_iff.mp hlt
  have hMem : (v, true) ∈ path := by simpa [onPath] using hTrue
  refine absurd (h.forced hw he hne hb hMem fun step hStep hBefore => ?_) (by simpa using hFalse)
  exact (hAgree step.1 hBefore).trans (hFollows step hStep)

end Manager

open Manager

/-- **The least model.** On a reached manager a path is found for every function but the constant
false, by the walk that stops at the constant true alone. Its variables ascend, every assignment
that follows it is a model, and the one that follows it and is false elsewhere is the least model,
where the smallest variable is the most significant and false comes before true. -/
theorem satisfyingPath_least {m : Manager} (hm : Reached m) {f : Edge} (hf : m.Holds f) :
    (m.satisfyingPath? f = none ↔ ∀ a, m.eval a f = false) ∧
    (∀ path, m.satisfyingPath? f = some path ↔ f ≠ .zero ∧ m.Walk f path) ∧
    ∀ path, m.satisfyingPath? f = some path →
      path.Pairwise (fun step step' => step.1 < step'.1) ∧
      (∀ a, Follows a path → m.eval a f = true) ∧
      Follows (onPath path) path ∧
      (∀ v, (∀ step ∈ path, step.1 ≠ v) → onPath path v = false) ∧
      IsLeast {a : Lex Assignment | m.eval (ofLex a) f = true} (toLex (onPath path)) := by
  have hs := hm.sound
  have hw := hs.toWellFormed
  refine ⟨?_, fun path => satisfyingPath?_eq_some_iff hw hf, fun path hPath => ?_⟩
  · rw [satisfyingPath?_eq_none_iff]
    constructor
    · rintro rfl a
      simp
    · intro hFalse
      exact eq_of_eval_eq hw hf (hs.holds_constant false) fun a => by simpa using hFalse a
  · obtain ⟨hne, hWalk⟩ := (satisfyingPath?_eq_some_iff hw hf).mp hPath
    have hp := hWalk.isPath hw hf hne
    exact ⟨hp.ascends, fun a => hp.satisfies, follows_onPath hp.ascends,
      fun v => onPath_of_notMem, isLeast_onPath hw hWalk hf hne⟩

/-- The least model of variable 2 without variable 1 is found below a complemented edge. -/
theorem satisfyingPath_least_implication :
    Reached implication ∧ implication.Holds (-.ofIndex 3) ∧
      implication.satisfyingPath? (-.ofIndex 3) = some [(1, false), (2, true)] ∧
      IsLeast {a : Lex Assignment | implication.eval (ofLex a) (-.ofIndex 3) = true}
        (toLex (onPath [(1, false), (2, true)])) := by
  have hHeld : implication.Holds (-.ofIndex 3) := holds_implication (by decide) (by decide)
  have hPath : ∀ m : Manager, m.nodes = implication.nodes →
      m.satisfyingPath? (-.ofIndex 3) = some [(1, false), (2, true)] := by
    rw [nodes_implication]
    rintro ⟨_, _, _⟩ rfl
    rfl
  have hFound := hPath implication rfl
  obtain ⟨-, -, -, -, hLeast⟩ :=
    (satisfyingPath_least reached_implication hHeld).2.2 _ hFound
  exact ⟨reached_implication, hHeld, hFound, hLeast⟩

end StateSpace.Diagram
