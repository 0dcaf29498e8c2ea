import StateSpace.Proofs.Diagram.Quantifier

/-!
# Managers that can be reached

A client starts from the manager without decisions and applies operations to edges that the manager
holds. Every operation keeps the manager sound (`Operation.run_builds`), so every manager that can
be reached this way is sound (`Reached.sound`), and with it reduced, ordered and canonical
(`reached_canonical`).

The children of a constant are no functions: `low` and `high` answer the edge of index 0 there,
which no manager holds.
-/

namespace StateSpace.Diagram

open Manager

/-! ## Operations -/

/-- What a client may ask of a manager. -/
inductive Operation where
  | constant (b : Bool)
  | var (v : Nat)
  | node (v : Nat) (low high : Edge)
  | ite (f g h : Edge)
  | and (f g : Edge)
  | or (f g : Edge)
  | xor (f g : Edge)
  | iff (f g : Edge)
  | imply (f g : Edge)
  | existsOver (vs : List Nat) (f : Edge)
  | forallOver (vs : List Nat) (f : Edge)
  | low (f : Edge)
  | high (f : Edge)
  deriving DecidableEq, Repr, Inhabited

namespace Operation

/-- The building step of an operation. -/
def run : Operation → Build Edge
  | constant b => pure (.constant b)
  | var v => mkVariable v
  | node v l h => mkNode v l h
  | ite f g h => Diagram.ite f g h
  | and f g => Diagram.and f g
  | or f g => Diagram.or f g
  | xor f g => Diagram.xor f g
  | iff f g => Diagram.iff f g
  | imply f g => Diagram.imply f g
  | existsOver vs f => Diagram.existsOver vs f
  | forallOver vs f => Diagram.forallOver vs f
  | low f => fun m => (m.low f, m)
  | high f => fun m => (m.high f, m)

/-- Whether an operation may be asked of a manager: its operands are held, variables count from one,
and the children of a decision are constants or ask later variables. -/
def Allowed (m : Manager) : Operation → Prop
  | constant _ => True
  | var v => 1 ≤ v
  | node v l h => 1 ≤ v ∧ m.Holds l ∧ m.Holds h ∧ m.Above v l ∧ m.Above v h
  | ite f g h => m.Holds f ∧ m.Holds g ∧ m.Holds h
  | and f g => m.Holds f ∧ m.Holds g
  | or f g => m.Holds f ∧ m.Holds g
  | xor f g => m.Holds f ∧ m.Holds g
  | iff f g => m.Holds f ∧ m.Holds g
  | imply f g => m.Holds f ∧ m.Holds g
  | existsOver _ f => m.Holds f
  | forallOver _ f => m.Holds f
  | low f => m.Holds f
  | high f => m.Holds f

end Operation

/-- The managers that a client can reach from a new one. -/
inductive Reached : Manager → Prop
  | new {bits : Nat} {m : Manager} (h : Manager.empty? bits = some m) : Reached m
  | step {m : Manager} {op : Operation} (hm : Reached m) (hop : op.Allowed m) :
      Reached (op.run m).2

/-! ## Every reached manager is sound -/

/-- The manager without decisions is sound. -/
theorem sound_empty (bits : Nat) : (Manager.empty bits).Sound := by
  have hNone : ∀ i, ¬ (Manager.empty bits).IsDecision i := by
    rintro i ⟨h2, hlt⟩
    change i < 2 at hlt
    omega
  refine ⟨⟨Nat.le_refl 2, rfl, ?_, ?_, ?_, ?_, ?_, ?_⟩, ?_⟩
  · exact fun i hi => absurd hi (hNone i)
  · exact fun i hi => absurd hi (hNone i)
  · exact fun i hi => absurd hi (hNone i)
  · exact fun i hi => absurd hi (hNone i)
  · exact fun i hi => absurd hi (hNone i)
  · intro n i
    refine ⟨fun h => ?_, fun h => absurd h.1 (hNone i)⟩
    simp [Manager.empty] at h
  · intro t e hMem
    have := (Array.mem_replicate.mp hMem).2
    cases this

section Children

variable {m : Manager} {f : Edge}

/-- The low child of a decision is held; that of a constant is no edge at all. -/
theorem holds_low_or (hw : m.WellFormed) (hf : m.Holds f) :
    m.Holds (m.low f) ∨ (m.low f).index = 0 := by
  rcases hf.cases with h1 | hd
  · refine .inr ?_
    rw [Manager.low, Edge.index_complementIf, h1, hw.terminal]
    rfl
  · exact .inl (hw.low_spec hd).1

/-- The high child of a decision is held; that of a constant is no edge at all. -/
theorem holds_high_or (hw : m.WellFormed) (hf : m.Holds f) :
    m.Holds (m.high f) ∨ (m.high f).index = 0 := by
  rcases hf.cases with h1 | hd
  · refine .inr ?_
    rw [Manager.high, Edge.index_complementIf, h1, hw.terminal]
    rfl
  · exact .inl (hw.high_spec hd).1

end Children

/-- Every allowed operation grows the manager soundly, and answers an edge that the manager holds
unless it asks for a child of a constant. -/
theorem Operation.run_builds {m : Manager} {op : Operation} (hs : m.Sound) (hop : op.Allowed m) :
    Builds m op.run fun m' e => m'.Holds e ∨ e.index = 0 := by
  have hMeans : ∀ {step : Build Edge} {F : Assignment → Bool},
      Builds m step (fun m' e => m'.Means e F) → Builds m step fun m' e =>
        m'.Holds e ∨ e.index = 0 :=
    fun h => h.mono fun _ _ _ he => .inl he.holds
  cases op with
  | constant b => exact .pure hs (.inl (hs.holds_constant b))
  | var v => exact hMeans (mkVariable_builds hs (Nat.ne_of_gt hop))
  | node v low high =>
    obtain ⟨hv, hl, hh, hal, hah⟩ := hop
    exact hMeans (mkNode_builds hs (Nat.ne_of_gt hv) hl.means hh.means hal hah)
  | ite f g h => exact hMeans (ite_builds hs hop.1.means hop.2.1.means hop.2.2.means)
  | and f g => exact hMeans (and_builds hs hop.1.means hop.2.means)
  | or f g => exact hMeans (or_builds hs hop.1.means hop.2.means)
  | xor f g => exact hMeans (xor_builds hs hop.1.means hop.2.means)
  | iff f g => exact hMeans (iff_builds hs hop.1.means hop.2.means)
  | imply f g => exact hMeans (imply_builds hs hop.1.means hop.2.means)
  | existsOver vs f => exact hMeans (existsOver_builds vs hs (Manager.Holds.means hop))
  | forallOver vs f => exact hMeans (forallOver_builds vs hs (Manager.Holds.means hop))
  | low f => exact ⟨.refl hs, holds_low_or hs.toWellFormed hop⟩
  | high f => exact ⟨.refl hs, holds_high_or hs.toWellFormed hop⟩

/-- Every manager that can be reached is sound. -/
theorem Reached.sound {m : Manager} (hm : Reached m) : m.Sound := by
  induction hm with
  | @new bits m h =>
    unfold Manager.empty? at h
    split at h
    · cases h
      exact sound_empty bits
    · cases h
  | step _ hop ih => exact (Operation.run_builds ih hop).grows.new

/-- The manager in which the variables 1 and 2 have been stored. -/
def twoVariables : Manager :=
  ((Operation.var 2).run ((Operation.var 1).run (.empty 3)).2).2

theorem reached_twoVariables : Reached twoVariables := by
  have hNew : Reached (.empty 3) := .new (show Manager.empty? 3 = some (.empty 3) from rfl)
  have hOne : Reached ((Operation.var 1).run (.empty 3)).2 := .step hNew (Nat.le_refl 1)
  exact .step hOne (show 1 ≤ 2 by decide)

theorem holds_twoVariables {e : Edge} (h1 : 1 ≤ e.index) (h4 : e.index < 4) :
    twoVariables.Holds e := by
  have hne : Edge.zero ≠ Edge.one := by decide
  have hRegular : Edge.one.isNegated = false := rfl
  have hSize : twoVariables.nodes.size = 4 := by
    simp [twoVariables, Operation.run, mkVariable, mkNode, store, Manager.empty, hne, hRegular]
  exact ⟨h1, by rw [hSize]; exact h4⟩

/-- The manager in which variable 2 has been stored, and then the function that it implies variable
1. -/
def implication : Manager :=
  ((Operation.node 1 (-.ofIndex 2) .one).run ((Operation.var 2).run (.empty 3)).2).2

theorem nodes_implication : implication.nodes =
    #[.sentinel, .sentinel, ⟨2, .zero, .one⟩, ⟨1, -.ofIndex 2, .one⟩] := by
  have hne : Edge.zero ≠ Edge.one := by decide
  have hne' : -Edge.ofIndex 2 ≠ Edge.one := by decide
  have hRegular : Edge.one.isNegated = false := rfl
  simp [implication, Operation.run, mkVariable, mkNode, store, Manager.empty, hne, hne', hRegular]

/-- The example is a manager that can be reached. -/
theorem reached_implication : Reached implication := by
  have hNew : Reached (.empty 3) := .new (show Manager.empty? 3 = some (.empty 3) from rfl)
  have hVar : Reached ((Operation.var 2).run (.empty 3)).2 := .step hNew (show 1 ≤ 2 by decide)
  have hNodes : ((Operation.var 2).run (.empty 3)).2.nodes =
      #[.sentinel, .sentinel, ⟨2, .zero, .one⟩] := by
    have hne : Edge.zero ≠ Edge.one := by decide
    have hRegular : Edge.one.isNegated = false := rfl
    simp [Operation.run, mkVariable, mkNode, store, Manager.empty, hne, hRegular]
  refine .step hVar ⟨Nat.le_refl 1, ⟨by decide, ?_⟩, ⟨by decide, ?_⟩, .inr ?_, .inl rfl⟩
  · rw [hNodes]
    decide
  · rw [hNodes]
    decide
  · rw [topVar, node, hNodes]
    decide

theorem holds_implication {e : Edge} (h1 : 1 ≤ e.index) (h4 : e.index < 4) : implication.Holds e :=
  ⟨h1, by rw [nodes_implication]; exact h4⟩

/-! ## Canonicity of reached managers -/

/-- **Canonicity.** Every stored decision of a reached manager asks a variable, has a regular high
edge and two different children, each of which is the terminal or was stored before with a greater
variable; the unique table is the inverse of the node table; operations answer held edges, but for
the children of constants; and two held edges have the same function exactly if they are equal. -/
theorem reached_canonical {m : Manager} (hm : Reached m) :
    (∀ i, m.IsDecision i →
      (m.node i).var ≠ 0 ∧ (m.node i).high.isNegated = false ∧ (m.node i).low ≠ (m.node i).high ∧
        m.IsChild i (m.node i).var (m.node i).low ∧ m.IsChild i (m.node i).var (m.node i).high) ∧
    (∀ n i, m.unique[n]? = some i ↔ m.IsDecision i ∧ m.node i = n) ∧
    (∀ op : Operation, op.Allowed m →
      (op.run m).2.Holds (op.run m).1 ∨ (op.run m).1.index = 0) ∧
    (∀ e e', m.Holds e → m.Holds e' → ((∀ a, m.eval a e = m.eval a e') ↔ e = e')) := by
  have hs := hm.sound
  have hw := hs.toWellFormed
  refine ⟨fun i hi => ?_, hw.unique_iff, fun op hop => ?_, fun e e' he he' => ?_⟩
  · exact ⟨hw.var_ne_zero i hi, hw.high_regular i hi, hw.low_ne_high i hi, hw.low_child i hi,
      hw.high_child i hi⟩
  · exact (Operation.run_builds hs hop).result
  · refine ⟨eq_of_eval_eq hw he he', ?_⟩
    rintro rfl a
    rfl

/-- The two stored variables are different functions, and different edges. -/
theorem reached_canonical_twoVariables :
    Reached twoVariables ∧ twoVariables.Holds (.ofIndex 2) ∧ twoVariables.Holds (.ofIndex 3) ∧
      ((∀ a, twoVariables.eval a (.ofIndex 2) = twoVariables.eval a (.ofIndex 3)) ↔
        Edge.ofIndex 2 = Edge.ofIndex 3) := by
  have h2 : twoVariables.Holds (.ofIndex 2) := holds_twoVariables (by decide) (by decide)
  have h3 : twoVariables.Holds (.ofIndex 3) := holds_twoVariables (by decide) (by decide)
  exact ⟨reached_twoVariables, h2, h3, (reached_canonical reached_twoVariables).2.2.2 _ _ h2 h3⟩

end StateSpace.Diagram
