import Mathlib.Algebra.Group.Basic
import Mathlib.Logic.Function.Basic
import StateSpace.Diagram.Manager

/-!
# Well-formed managers and the functions of their edges

A manager is **well-formed** when its node table is a reduced ordered diagram with complement edges
and its unique table is the inverse of the node table. On such managers following the decisions of
an assignment always ends at a constant, and the functions of edges can be computed with:

* `Manager.eval_node`: a decision chooses between the functions of its two children;
* `Manager.eval_neg`: a complemented edge stands for the complement;
* `Manager.eval_congr`: a function only looks at its first variable and at later ones;
* `Manager.eval_extends`: storing more nodes changes no function.
-/

namespace StateSpace.Diagram

/-! ## Edges -/

namespace Edge

instance : InvolutiveNeg Edge where
  neg_neg e := congrArg Edge.mk (Int.neg_neg e.code)

@[simp] theorem index_neg (e : Edge) : (-e).index = e.index :=
  Int.natAbs_neg e.code

@[simp] theorem index_one : one.index = 1 := rfl

@[simp] theorem index_zero : zero.index = 1 := rfl

@[simp] theorem neg_one : -one = zero := rfl

@[simp] theorem neg_zero : -zero = one := rfl

@[simp] theorem index_ofIndex (i : Nat) : (ofIndex i).index = i :=
  Int.natAbs_natCast i

@[simp] theorem isNegated_ofIndex (i : Nat) : (ofIndex i).isNegated = false :=
  decide_eq_false (Int.not_lt.mpr (Int.natCast_nonneg i))

@[simp] theorem complementIf_true (e : Edge) : complementIf true e = -e := rfl

@[simp] theorem complementIf_false (e : Edge) : complementIf false e = e := rfl

@[simp] theorem index_complementIf (b : Bool) (e : Edge) : (complementIf b e).index = e.index := by
  cases b <;> simp

/-- Complementing an edge that leads somewhere flips its mark. -/
theorem isNegated_neg {e : Edge} (he : 1 ≤ e.index) : (-e).isNegated = !e.isNegated := by
  have hne : e.code ≠ 0 := Int.natAbs_ne_zero.mp (by unfold index at he; omega)
  show decide (-e.code < 0) = !decide (e.code < 0)
  rw [← decide_not]
  exact decide_eq_decide.mpr (by omega)

/-- An edge is a node and a mark. -/
theorem eq_of_index_eq {e e' : Edge} (hi : e.index = e'.index)
    (hn : e.isNegated = e'.isNegated) : e = e' := by
  obtain ⟨c⟩ := e
  obtain ⟨c'⟩ := e'
  simp only [index, isNegated, decide_eq_decide] at hi hn
  congr 1
  omega

/-- The constants are the two edges to the terminal. -/
theorem isTerminal_iff {e : Edge} : e.isTerminal = true ↔ e.index = 1 := by
  constructor
  · intro h
    rcases Bool.or_eq_true _ _ ▸ h with h | h
    · rw [of_decide_eq_true h]; rfl
    · rw [of_decide_eq_true h]; rfl
  · intro h
    have hz : e = zero ∨ e = one := by
      cases hn : e.isNegated with
      | true => exact .inl (eq_of_index_eq h hn)
      | false => exact .inr (eq_of_index_eq h hn)
    simpa [isTerminal] using hz

/-- An edge to the terminal is one of the constants. -/
theorem eq_zero_or_one {e : Edge} (h : e.index = 1) : e = zero ∨ e = one := by
  simpa [isTerminal] using isTerminal_iff.mpr h

end Edge

/-! ## Well-formedness -/

namespace Manager

/-- The edges that stand for a function of the manager: those to the terminal and to stored
nodes. -/
def Holds (m : Manager) (e : Edge) : Prop :=
  1 ≤ e.index ∧ e.index < m.nodes.size

/-- The indices of the stored decisions. -/
def IsDecision (m : Manager) (i : Nat) : Prop :=
  2 ≤ i ∧ i < m.nodes.size

/-- Whether a function only asks variables beyond `v`: it is a constant, or asks a later one
first. -/
def Above (m : Manager) (v : Nat) (e : Edge) : Prop :=
  e.index = 1 ∨ v < m.topVar e

/-- What a child of a decision on `v` at index `i` may be: the terminal, or a node stored before it
with a greater variable. -/
def IsChild (m : Manager) (i v : Nat) (e : Edge) : Prop :=
  e.index = 1 ∨ (m.IsDecision e.index ∧ e.index < i ∧ v < m.topVar e)

/-- A reduced ordered diagram with complement edges whose unique table is the inverse of its
nodes. -/
structure WellFormed (m : Manager) : Prop where
  two_le_size : 2 ≤ m.nodes.size
  terminal : m.node 1 = .sentinel
  var_ne_zero : ∀ i, m.IsDecision i → (m.node i).var ≠ 0
  high_regular : ∀ i, m.IsDecision i → (m.node i).high.isNegated = false
  low_ne_high : ∀ i, m.IsDecision i → (m.node i).low ≠ (m.node i).high
  low_child : ∀ i, m.IsDecision i → m.IsChild i (m.node i).var (m.node i).low
  high_child : ∀ i, m.IsDecision i → m.IsChild i (m.node i).var (m.node i).high
  unique_iff : ∀ n i, m.unique[n]? = some i ↔ m.IsDecision i ∧ m.node i = n

/-- A manager that still has every node of another one, at its place. -/
structure Extends (m m' : Manager) : Prop where
  size_le : m.nodes.size ≤ m'.nodes.size
  node_eq : ∀ i < m.nodes.size, m'.node i = m.node i

theorem Extends.refl (m : Manager) : m.Extends m :=
  ⟨Nat.le_refl _, fun _ _ => rfl⟩

theorem Extends.trans {m m' m'' : Manager} (h : m.Extends m') (h' : m'.Extends m'') :
    m.Extends m'' := by
  refine ⟨Nat.le_trans h.size_le h'.size_le, fun i hi => ?_⟩
  rw [h'.node_eq i (Nat.lt_of_lt_of_le hi h.size_le), h.node_eq i hi]

/-! ## Held edges -/

variable {m m' : Manager} {e : Edge} {a b : Assignment} {v : Nat}

theorem Holds.neg (h : m.Holds e) : m.Holds (-e) := by
  simpa [Holds] using h

theorem Holds.complementIf (h : m.Holds e) (c : Bool) : m.Holds (e.complementIf c) := by
  simpa [Holds] using h

theorem Holds.extends (h : m.Holds e) (hx : m.Extends m') : m'.Holds e :=
  ⟨h.1, Nat.lt_of_lt_of_le h.2 hx.size_le⟩

/-- A held edge is a constant or leads to a stored decision. -/
theorem Holds.cases (h : m.Holds e) : e.index = 1 ∨ m.IsDecision e.index := by
  obtain ⟨h1, h2⟩ := h
  rcases Nat.lt_or_ge 1 e.index with hlt | hle
  · exact .inr ⟨hlt, h2⟩
  · exact .inl (by omega)

theorem IsDecision.holds (h : m.IsDecision e.index) : m.Holds e :=
  ⟨by have := h.1; omega, h.2⟩

theorem IsDecision.ne_one (h : m.IsDecision e.index) : e ≠ .one := by
  rintro rfl
  have := h.1
  simp at this

theorem IsDecision.ne_zero (h : m.IsDecision e.index) : e ≠ .zero := by
  rintro rfl
  have := h.1
  simp at this

theorem WellFormed.holds_one (hw : m.WellFormed) : m.Holds .one :=
  ⟨Nat.le_refl _, hw.two_le_size⟩

theorem WellFormed.holds_zero (hw : m.WellFormed) : m.Holds .zero :=
  ⟨Nat.le_refl _, hw.two_le_size⟩

theorem WellFormed.holds_constant (hw : m.WellFormed) (c : Bool) : m.Holds (.constant c) := by
  cases c
  · exact hw.holds_zero
  · exact hw.holds_one

@[simp] theorem topVar_neg : m.topVar (-e) = m.topVar e := by
  simp [topVar]

theorem topVar_extends (hx : m.Extends m') (h : m.Holds e) : m'.topVar e = m.topVar e := by
  rw [topVar, topVar, hx.node_eq _ h.2]

theorem low_extends (hx : m.Extends m') (h : m.Holds e) : m'.low e = m.low e := by
  rw [low, low, hx.node_eq _ h.2]

theorem high_extends (hx : m.Extends m') (h : m.Holds e) : m'.high e = m.high e := by
  rw [high, high, hx.node_eq _ h.2]

/-- The constants ask no variable. -/
theorem WellFormed.topVar_terminal (hw : m.WellFormed) (h : e.index = 1) : m.topVar e = 0 := by
  rw [topVar, h, hw.terminal]
  rfl

theorem low_neg (h : m.Holds e) : m.low (-e) = -m.low e := by
  rw [low, low, Edge.index_neg, Edge.isNegated_neg h.1]
  cases e.isNegated <;> simp

theorem high_neg (h : m.Holds e) : m.high (-e) = -m.high e := by
  rw [high, high, Edge.index_neg, Edge.isNegated_neg h.1]
  cases e.isNegated <;> simp

/-- A child of a decision, complemented or not, is held, stored before the decision, and asks later
variables. -/
private theorem IsChild.spec {i : Nat} (hw : m.WellFormed) (hd : m.IsDecision i)
    (h : m.IsChild i v e) (c : Bool) :
    m.Holds (e.complementIf c) ∧ (e.complementIf c).index < i ∧ m.Above v (e.complementIf c) := by
  unfold Holds Above topVar
  rw [Edge.index_complementIf]
  rcases h with h1 | ⟨hd', hlt, hv⟩
  · have := hw.two_le_size
    have := hd.1
    exact ⟨⟨by omega, by omega⟩, by omega, .inl h1⟩
  · exact ⟨hd'.holds, hlt, .inr hv⟩

theorem WellFormed.low_spec (hw : m.WellFormed) (hd : m.IsDecision e.index) :
    m.Holds (m.low e) ∧ (m.low e).index < e.index ∧ m.Above (m.topVar e) (m.low e) :=
  (hw.low_child _ hd).spec hw hd _

theorem WellFormed.high_spec (hw : m.WellFormed) (hd : m.IsDecision e.index) :
    m.Holds (m.high e) ∧ (m.high e).index < e.index ∧ m.Above (m.topVar e) (m.high e) :=
  (hw.high_child _ hd).spec hw hd _

/-- A decision really decides. -/
theorem WellFormed.low_ne_high_edge (hw : m.WellFormed) (hd : m.IsDecision e.index) :
    m.low e ≠ m.high e := by
  intro h
  apply hw.low_ne_high _ hd
  unfold low high at h
  cases hn : e.isNegated with
  | false => simpa [hn] using h
  | true => exact neg_injective (by simpa [hn] using h)

/-! ## The functions of edges -/

@[simp] theorem eval_one (m : Manager) (a : Assignment) : m.eval a .one = true := by
  simp [eval, evalUpTo]

@[simp] theorem eval_zero (m : Manager) (a : Assignment) : m.eval a .zero = false := by
  simp [eval, evalUpTo, show Edge.zero ≠ Edge.one by decide]

@[simp] theorem eval_constant (m : Manager) (a : Assignment) (c : Bool) :
    m.eval a (.constant c) = c := by
  cases c
  · exact m.eval_zero a
  · exact m.eval_one a

/-- Once the bound exceeds the index of an edge, it no longer matters. -/
private theorem evalUpTo_eq (hw : m.WellFormed) (a : Assignment) :
    ∀ (k l : Nat) (e : Edge), m.Holds e → e.index < k → e.index < l →
      m.evalUpTo a k e = m.evalUpTo a l e := by
  intro k
  induction k with
  | zero =>
    intro l e _ hk
    omega
  | succ k ih =>
    intro l e he hk hl
    obtain ⟨l, rfl⟩ : ∃ l', l = l' + 1 := ⟨l - 1, by omega⟩
    rw [evalUpTo, evalUpTo]
    rcases he.cases with h1 | hd
    · rcases Edge.eq_zero_or_one h1 with rfl | rfl <;> simp
    · rw [if_neg hd.ne_one, if_neg hd.ne_one, if_neg hd.ne_zero, if_neg hd.ne_zero]
      split
      · obtain ⟨hh, hlt, -⟩ := hw.high_spec hd
        exact ih l _ hh (by omega) (by omega)
      · obtain ⟨hh, hlt, -⟩ := hw.low_spec hd
        exact ih l _ hh (by omega) (by omega)

/-- A decision chooses between the functions of its children. -/
theorem eval_node (hw : m.WellFormed) (hd : m.IsDecision e.index) (a : Assignment) :
    m.eval a e = if a (m.topVar e) then m.eval a (m.high e) else m.eval a (m.low e) := by
  rw [eval, evalUpTo, if_neg hd.ne_one, if_neg hd.ne_zero]
  split
  · obtain ⟨hh, hlt, -⟩ := hw.high_spec hd
    exact evalUpTo_eq hw a _ _ _ hh hlt (Nat.lt_succ_self _)
  · obtain ⟨hh, hlt, -⟩ := hw.low_spec hd
    exact evalUpTo_eq hw a _ _ _ hh hlt (Nat.lt_succ_self _)

/-- Induction along the decisions of a held edge. -/
theorem WellFormed.edge_induction {P : Edge → Prop} (hw : m.WellFormed)
    (terminal : ∀ e, e.index = 1 → P e)
    (decision : ∀ e, m.IsDecision e.index → P (m.low e) → P (m.high e) → P e) :
    ∀ e, m.Holds e → P e := by
  intro e
  induction hk : e.index using Nat.strongRecOn generalizing e with
  | ind k ih =>
    intro he
    rcases he.cases with h1 | hd
    · exact terminal e h1
    · obtain ⟨hl, hlt, -⟩ := hw.low_spec hd
      obtain ⟨hh, hht, -⟩ := hw.high_spec hd
      exact decision e hd (ih _ (by omega) _ rfl hl) (ih _ (by omega) _ rfl hh)

/-- A complemented edge stands for the complement. -/
theorem eval_neg (hw : m.WellFormed) (he : m.Holds e) (a : Assignment) :
    m.eval a (-e) = !m.eval a e := by
  refine hw.edge_induction (P := fun e => m.eval a (-e) = !m.eval a e) ?_ ?_ e he
  · intro e h1
    rcases Edge.eq_zero_or_one h1 with rfl | rfl <;> simp
  · intro e hd hLow hHigh
    have hd' : m.IsDecision (-e).index := by simpa using hd
    rw [eval_node hw hd', eval_node hw hd, topVar_neg, low_neg hd.holds, high_neg hd.holds,
      hLow, hHigh]
    split <;> rfl

theorem eval_complementIf (hw : m.WellFormed) (he : m.Holds e) (a : Assignment) (c : Bool) :
    m.eval a (e.complementIf c) = (m.eval a e ^^ c) := by
  cases c
  · simp
  · simp [eval_neg hw he]

/-- A function that only asks variables beyond `v` does not look at the others. -/
theorem eval_congr (hw : m.WellFormed) (he : m.Holds e) (hv : m.Above v e)
    (hab : ∀ u, v < u → a u = b u) : m.eval a e = m.eval b e := by
  refine hw.edge_induction (P := fun e => ∀ v, m.Above v e → (∀ u, v < u → a u = b u) →
    m.eval a e = m.eval b e) ?_ ?_ e he v hv hab
  · intro e h1 v _ _
    rcases Edge.eq_zero_or_one h1 with rfl | rfl <;> simp
  · intro e hd hLow hHigh v hv hab
    have hlt : v < m.topVar e := by
      rcases hv with h1 | hlt
      · have := hd.1
        omega
      · exact hlt
    have hBeyond : ∀ u, m.topVar e < u → a u = b u := fun u hu => hab u (by omega)
    rw [eval_node hw hd, eval_node hw hd, hab _ hlt,
      hLow _ (hw.low_spec hd).2.2 hBeyond, hHigh _ (hw.high_spec hd).2.2 hBeyond]

/-- Changing a variable that stands before all variables of a function does not change its value. -/
theorem eval_update (hw : m.WellFormed) (he : m.Holds e) (hv : m.Above v e) (c : Bool) :
    m.eval (Function.update a v c) e = m.eval a e :=
  eval_congr hw he hv fun u hu => Function.update_of_ne (by omega) c a

/-- Storing more nodes changes no function. -/
theorem eval_extends (hw : m.WellFormed) (hw' : m'.WellFormed) (hx : m.Extends m')
    (he : m.Holds e) (a : Assignment) : m'.eval a e = m.eval a e := by
  refine hw.edge_induction (P := fun e => m'.eval a e = m.eval a e) ?_ ?_ e he
  · intro e h1
    rcases Edge.eq_zero_or_one h1 with rfl | rfl <;> simp
  · intro e hd hLow hHigh
    have hd' : m'.IsDecision e.index := ⟨hd.1, Nat.lt_of_lt_of_le hd.2 hx.size_le⟩
    rw [eval_node hw' hd', eval_node hw hd, topVar_extends hx hd.holds, low_extends hx hd.holds,
      high_extends hx hd.holds, hLow, hHigh]

end Manager

end StateSpace.Diagram
