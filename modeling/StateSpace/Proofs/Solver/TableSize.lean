import StateSpace.Proofs.Circuit.Lockstep
import StateSpace.Solver.ByDiagram

/-!
# The computed table is invisible

How large the computed table is decides what is remembered, and so how often a result is computed
anew; it decides nothing else. On managers with tables of any two sizes every sequence of operations
gives the same edges and the same node tables, and the solvers by diagrams are the same function
from questions to answers and tallies (`byDiagram_tableSize`).
-/

namespace StateSpace

open StateSpace.Circuit StateSpace.Diagram Manager Encode

/-! ## Questions about a stored function -/

namespace Diagram.Manager

variable {m m' : Manager}

theorem SameTable.size_eq (h : m.SameTable m') : m'.size = m.size := by
  obtain ⟨c, rfl⟩ := h
  rfl

/-- The support depends on the nodes only. -/
theorem SameTable.supportBelow_eq (h : m.SameTable m') (i : Nat) (marked vs : Std.HashSet Nat) :
    m'.supportBelow i marked vs = m.supportBelow i marked vs := by
  obtain ⟨c, rfl⟩ := h
  induction i generalizing marked vs with
  | zero => rfl
  | succ i ih =>
    unfold supportBelow
    split
    · exact ih _ _
    · exact ih _ _

theorem SameTable.support_eq (h : m.SameTable m') (e : Edge) : m'.support e = m.support e := by
  rw [support, support, h.supportBelow_eq]

theorem SameTable.pathUpTo_eq (h : m.SameTable m') (bound : Nat) (e : Edge) :
    m'.pathUpTo bound e = m.pathUpTo bound e := by
  obtain ⟨c, rfl⟩ := h
  induction bound generalizing e with
  | zero => rfl
  | succ bound ih =>
    rw [pathUpTo, pathUpTo, ih, ih]
    rfl

theorem SameTable.satisfyingPath?_eq (h : m.SameTable m') (e : Edge) :
    m'.satisfyingPath? e = m.satisfyingPath? e := by
  rw [satisfyingPath?, satisfyingPath?, h.pathUpTo_eq]

theorem SameTable.extendShares_eq (h : m.SameTable m') (total n : Nat) (shares : Array Nat) :
    m'.extendShares total n shares = m.extendShares total n shares := by
  obtain ⟨c, rfl⟩ := h
  induction n generalizing shares with
  | zero => rfl
  | succ n ih => exact ih _

theorem SameTable.modelCount_eq (h : m.SameTable m') (e : Edge) (count : Nat) :
    m'.modelCount e count = m.modelCount e count := by
  rw [modelCount, modelCount, h.extendShares_eq]

end Diagram.Manager

/-! ## Questions to the solver -/

section Questions

variable {α : Type} {s s' : Encoder} {Q : Encoder → α → Prop}

theorem functionOf_abreast (e : Expr) (ht : s.Twins s') :
    Abreast s s' (functionOf e) fun n f => n.diagram.Holds f :=
  formulaOf_abreast ht (wordOf_abreast e)

/-- A step may look at its encoder, if it goes on alike whichever of the two it sees. -/
theorem abreast_get {k : Encoder → Encode α} (hk : k s' = k s) (h : Abreast s s' (k s) Q) :
    Abreast s s' (get >>= k) Q := by
  show Alike s.diagram Q (k s s) (k s' s')
  rw [hk]
  exact h

theorem readModel_abreast (trueBits : List Nat) (xs : List Variable) (model : Valuation)
    (ht : s.Twins s') : Abreast s s' (ByDiagram.readModel trueBits xs model) fun _ _ => True := by
  induction xs generalizing model s s' with
  | nil => exact .pure ht trivial
  | cons x xs ih => exact (indicesOf_abreast ht x).bind fun _ _ _ htn _ _ => ih _ htn

theorem verdictOf_abreast (e : Expr) (ht : s.Twins s') :
    Abreast s s' (ByDiagram.verdictOf e) fun _ _ => True :=
  (functionOf_abreast e ht).bind fun _ _ _ htn _ _ => .pure htn trivial

theorem answerOf_abreast (e : Expr) (ht : s.Twins s') :
    Abreast s s' (ByDiagram.answerOf e) fun _ _ => True := by
  refine (functionOf_abreast e ht).bind fun n n' f htn _ _ => abreast_get ?_ ?_
  · rw [htn.diagram.same.satisfyingPath?_eq]
  · cases n.diagram.satisfyingPath? f with
    | none => exact .pure htn trivial
    | some path => exact (readModel_abreast _ _ _ htn).bind fun _ _ _ htk _ _ => .pure htk trivial

/-- A step that ends alike on every pair of twins has one result on fresh diagrams, and takes one
number of nodes. -/
theorem onFresh_eq {step : Encode α} (bits bits' : Nat)
    (h : ∀ ⦃s s' : Encoder⦄, s.Twins s' → Abreast s s' step Q) :
    ByDiagram.onFresh bits' step = ByDiagram.onFresh bits step := by
  have hFresh : (ByDiagram.freshEncoder bits).Twins (ByDiagram.freshEncoder bits') :=
    ⟨twins_empty bits bits', rfl⟩
  have hAlike := h hFresh
  unfold ByDiagram.onFresh
  rw [Abreast] at hAlike
  generalize step (ByDiagram.freshEncoder bits) = r at hAlike ⊢
  generalize step (ByDiagram.freshEncoder bits') = r' at hAlike ⊢
  cases hAlike with
  | ok ht _ _ => simp only [ht.diagram.same.size_eq]
  | error ht => simp only [ht.diagram.same.size_eq]

theorem counting_abreast (e : Expr) (xs : List Variable) {s s' : Encoder} (ht : s.Twins s') :
    Abreast s s' (ByDiagram.counting e xs) fun _ _ => True := by
  refine (flatMapM_indicesOf_abreast ht xs).bind fun m m' kept htm _ _ => ?_
  refine (functionOf_abreast e htm).bind fun n n' f htn _ hf => abreast_get ?_ ?_
  · rw [htn.diagram.same.support_eq]
  · refine (abreast_ofBuild htn (existsOver_lockstep _ htn.diagram hf)).bind
      fun k k' projected htk _ _ => abreast_get ?_ (.pure htk trivial)
    rw [htk.diagram.same.modelCount_eq]

end Questions

/-- **The computed table is invisible.** With computed tables of any two sizes that are not refused,
a list of operations allowed on one new manager is allowed on the other, every operation gives the
same edge and leaves the same node table, the two solvers give the same verdicts, models and
tallies, and formulas have the same numbers of models. -/
theorem byDiagram_tableSize {bits bits' : Nat} (hBits : bits ≤ ComputedTable.maxBits)
    (hBits' : bits' ≤ ComputedTable.maxBits) :
    (∀ ops : List Operation, AllowedAll (.empty bits) ops →
      AllowedAll (.empty bits') ops ∧ trace (.empty bits') ops = trace (.empty bits) ops) ∧
    Solver.byDiagram bits' = Solver.byDiagram bits ∧
    ByDiagram.countModels? bits' = ByDiagram.countModels? bits := by
  refine ⟨fun ops hOps => trace_eq (twins_empty bits bits') hOps, ?_, ?_⟩
  · have hVerdict := fun e => onFresh_eq bits bits' fun _ _ ht => verdictOf_abreast e ht
    have hAnswer := fun e => onFresh_eq bits bits' fun _ _ ht => answerOf_abreast e ht
    unfold Solver.byDiagram
    simp only [if_neg (Nat.not_lt.mpr hBits), if_neg (Nat.not_lt.mpr hBits'), hVerdict, hAnswer]
  · funext e xs
    rw [ByDiagram.countModels?, ByDiagram.countModels?, if_neg (Nat.not_lt.mpr hBits),
      if_neg (Nat.not_lt.mpr hBits'), onFresh_eq bits bits' fun _ _ ht => counting_abreast e xs ht]

/-- A conjunction that is asked for twice, with enough in between for a table of one slot to forget
the first answer, and a quantification. -/
def repeatedConjunction : List Operation :=
  [.var 1, .var 2, .and ⟨2⟩ ⟨3⟩, .or ⟨2⟩ ⟨3⟩, .and ⟨2⟩ ⟨3⟩, .existsOver [1] ⟨3⟩]

/-- The operations of the example may be asked for. -/
theorem allowedAll_repeatedConjunction : AllowedAll (.empty 3) repeatedConjunction := by
  have h2 : twoVariables.Holds ⟨2⟩ := holds_twoVariables (by decide) (by decide)
  have h3 : twoVariables.Holds ⟨3⟩ := holds_twoVariables (by decide) (by decide)
  refine ⟨Nat.le_refl 1, Nat.le_succ 1, allowedAll_of_extends reached_twoVariables.sound ?_⟩
  intro op hop n hx
  have hBoth : n.Holds ⟨2⟩ ∧ n.Holds ⟨3⟩ := ⟨h2.extends hx, h3.extends hx⟩
  simp only [List.mem_cons, List.not_mem_nil, or_false] at hop
  rcases hop with rfl | rfl | rfl | rfl
  · exact hBoth
  · exact hBoth
  · exact hBoth
  · exact hBoth.2

/-- A table of one slot in place of one of eight. -/
theorem byDiagram_tableSize_repeatedConjunction :
    3 ≤ ComputedTable.maxBits ∧ 0 ≤ ComputedTable.maxBits ∧
    AllowedAll (.empty 3) repeatedConjunction ∧
    trace (.empty 0) repeatedConjunction = trace (.empty 3) repeatedConjunction ∧
    Solver.byDiagram 0 = Solver.byDiagram 3 := by
  have hBits : 3 ≤ ComputedTable.maxBits := by decide
  have hBits' : 0 ≤ ComputedTable.maxBits := Nat.zero_le _
  have hOps := allowedAll_repeatedConjunction
  obtain ⟨hTrace, hSolver, -⟩ := byDiagram_tableSize hBits hBits'
  exact ⟨hBits, hBits', hOps, (hTrace repeatedConjunction hOps).2, hSolver⟩

end StateSpace
