import Mathlib.Data.Fintype.BigOperators
import Mathlib.Data.Fintype.Pi
import Mathlib.Data.Set.Finite.Basic
import StateSpace.Proofs.Diagram.Operations
import StateSpace.Proofs.Diagram.Support

/-!
# Counting models

The number of models over a set of variables is defined on functions, without a diagram: assignments
of the set are counted, and all other variables are false (`models`). Changing one variable pairs
the assignments up, so a decision has half as many models as its children have together, and never
an odd number of them (`two_mul_card_models`).

The count of a diagram is kept for each stored node, scaled to all the assignments. A node takes
half of what its children have (`modelCount_ofIndex`), a complemented edge what its node leaves
(`modelCount_neg`). By induction along the table this is the number of models
(`modelCount_eq_card`), so that no half is rounded.
-/

namespace StateSpace.Diagram

/-! ## Models over a set of variables -/

section Models

variable {V : Finset Nat} {F L H : Assignment → Bool} {v : Nat}

/-- An assignment of the variables in `V`, with false for all others. -/
def Assignment.spread (p : V → Bool) : Assignment :=
  fun v => if h : v ∈ V then p ⟨v, h⟩ else false

/-- The assignments of the variables in `V` that make a function true. -/
def models (V : Finset Nat) (F : Assignment → Bool) : Finset (V → Bool) :=
  {p | F (Assignment.spread p) = true}

theorem mem_models {p : V → Bool} : p ∈ models V F ↔ F (Assignment.spread p) = true := by
  simp [models]

/-- Changing a variable of the set changes that variable. -/
theorem Assignment.spread_update (p : V → Bool) (hv : v ∈ V) (c : Bool) :
    Assignment.spread (Function.update p ⟨v, hv⟩ c) =
      Function.update (Assignment.spread p) v c := by
  funext u
  by_cases huv : u = v
  · subst huv
    simp [Assignment.spread, hv]
  · by_cases hu : u ∈ V <;> simp [Assignment.spread, hu, huv]

theorem Assignment.spread_apply (p : V → Bool) (hv : v ∈ V) : Assignment.spread p v = p ⟨v, hv⟩ :=
  dif_pos hv

/-- A function and its complement share the assignments among them. -/
theorem card_models_not : (models V fun a => !F a).card = 2 ^ V.card - (models V F).card := by
  have hCompl : (models V fun a => !F a) = (models V F)ᶜ := by
    ext p
    simp [mem_models]
  rw [hCompl, Finset.card_compl, Fintype.card_fun, Fintype.card_bool, Fintype.card_coe]

theorem card_models_eq_sum :
    (models V F).card = ∑ p : V → Bool, (F (Assignment.spread p)).toNat := by
  rw [models, Finset.card_filter]
  refine Finset.sum_congr rfl fun p _ => ?_
  cases F (Assignment.spread p) <;> rfl

/-- Changing the value of one variable, which undoes itself. -/
def toggle (v : V) : Equiv.Perm (V → Bool) :=
  Function.Involutive.toPerm (fun p => Function.update p v (!p v)) fun p => by simp

theorem spread_toggle (hv : v ∈ V) (p : V → Bool) :
    Assignment.spread (toggle ⟨v, hv⟩ p) =
      Function.update (Assignment.spread p) v (!Assignment.spread p v) := by
  rw [Assignment.spread_apply p hv]
  exact Assignment.spread_update p hv _

/-- A decision on a variable of the set has half as many models as its two cases have together. -/
theorem two_mul_card_models (hv : v ∈ V) (hF : ∀ a, F a = if a v then H a else L a)
    (hL : ∀ a c, L (Function.update a v c) = L a) (hH : ∀ a c, H (Function.update a v c) = H a) :
    2 * (models V F).card = (models V L).card + (models V H).card := by
  have hPair : ∀ p : V → Bool,
      (F (Assignment.spread p)).toNat + (F (Assignment.spread (toggle ⟨v, hv⟩ p))).toNat =
        (L (Assignment.spread p)).toNat + (H (Assignment.spread p)).toNat := by
    intro p
    rw [spread_toggle, hF, hF, hL, hH, Function.update_self]
    cases Assignment.spread p v
    · rfl
    · exact Nat.add_comm _ _
  calc 2 * (models V F).card
      = ∑ p : V → Bool, (F (Assignment.spread p)).toNat +
          ∑ p : V → Bool, (F (Assignment.spread (toggle ⟨v, hv⟩ p))).toNat := by
        rw [Equiv.sum_comp (toggle ⟨v, hv⟩) fun p => (F (Assignment.spread p)).toNat,
          ← card_models_eq_sum, Nat.two_mul]
    _ = ∑ p : V → Bool, ((L (Assignment.spread p)).toNat + (H (Assignment.spread p)).toNat) := by
        rw [← Finset.sum_add_distrib]
        exact Finset.sum_congr rfl fun p _ => hPair p
    _ = (models V L).card + (models V H).card := by
        rw [Finset.sum_add_distrib, card_models_eq_sum, card_models_eq_sum]

end Models

namespace Manager

variable {m : Manager} {e : Edge} {n total : Nat}

/-! ## Shares -/

theorem size_extendShares (m : Manager) (total n : Nat) (shares : Array Nat) :
    (m.extendShares total n shares).size = shares.size + n := by
  induction n generalizing shares with
  | zero => rfl
  | succ n ih =>
    rw [extendShares, ih, Array.size_push]
    omega

/-- Shares are appended one by one. -/
theorem extendShares_add (m : Manager) (total n k : Nat) (shares : Array Nat) :
    m.extendShares total (n + k) shares =
      m.extendShares total k (m.extendShares total n shares) := by
  induction n generalizing shares with
  | zero => rw [Nat.zero_add]; rfl
  | succ n ih => rw [Nat.add_right_comm, extendShares, extendShares, ih]

/-- The shares that are there stay. -/
theorem getElem?_extendShares (m : Manager) (total n : Nat) (shares : Array Nat) {i : Nat}
    (hi : i < shares.size) : (m.extendShares total n shares)[i]? = shares[i]? := by
  induction n generalizing shares with
  | zero => rfl
  | succ n ih =>
    rw [extendShares, ih _ (by rw [Array.size_push]; omega), Array.getElem?_push_lt hi,
      Array.getElem?_eq_getElem hi]

/-- Once the shares reach beyond an edge, more of them do not matter. -/
theorem shareOf_extendShares {k k' : Nat} (hk : e.index < k) (hle : k ≤ k') :
    shareOf total (m.extendShares total k' #[]) e =
      shareOf total (m.extendShares total k #[]) e := by
  obtain ⟨d, rfl⟩ := Nat.exists_eq_add_of_le hle
  have hSize : e.index < (m.extendShares total k #[]).size := by
    rw [size_extendShares]
    exact Nat.lt_of_lt_of_le hk (Nat.le_add_left _ _)
  rw [shareOf, shareOf, extendShares_add, Array.getD_eq_getD_getElem?,
    getElem?_extendShares m total d _ hSize, ← Array.getD_eq_getD_getElem?]

/-- The share of a node is half of what its children take. -/
theorem getD_extendShares (m : Manager) (total i : Nat) :
    (m.extendShares total (i + 1) #[]).getD i 0 =
      (shareOf total (m.extendShares total i #[]) (m.node i).low +
        shareOf total (m.extendShares total i #[]) (m.node i).high) / 2 := by
  have hSize : (m.extendShares total i #[]).size = i := by
    rw [size_extendShares, Array.size_empty, Nat.zero_add]
  rw [extendShares_add, extendShares, extendShares, hSize, Array.getD_eq_getD_getElem?,
    Array.getElem?_push, if_pos hSize.symm, Option.getD_some]

/-! ## Counts -/

/-- Induction along the node table: a stored node follows its stored children, a complement its
node. -/
theorem WellFormed.node_induction {P : Edge → Prop} (hw : m.WellFormed) (zero : P .zero)
    (one : P .one)
    (node : ∀ i, m.IsDecision i → P (m.node i).low → P (m.node i).high → P (.ofIndex i))
    (neg : ∀ i, m.IsDecision i → P (.ofIndex i) → P (-.ofIndex i)) : ∀ e, m.Holds e → P e := by
  intro e
  induction hk : e.index using Nat.strongRecOn generalizing e with
  | ind k ih =>
    subst hk
    intro he
    rcases he.cases with h1 | hd
    · rcases Edge.eq_zero_or_one h1 with rfl | rfl
      · exact zero
      · exact one
    obtain ⟨hl, hlt, -⟩ := hw.node_low_spec hd
    obtain ⟨hh, hht, -⟩ := hw.node_high_spec hd
    have hNode := node e.index hd (ih _ hlt _ rfl hl) (ih _ hht _ rfl hh)
    rcases e.eq_ofIndex_or with h | h
    · exact h ▸ hNode
    · exact h ▸ neg e.index hd hNode

@[simp] theorem modelCount_zero (m : Manager) (n : Nat) : m.modelCount .zero n = 0 := by
  simp [modelCount, shareOf]

@[simp] theorem modelCount_one (m : Manager) (n : Nat) : m.modelCount .one n = 2 ^ n := by
  simp [modelCount, shareOf, show Edge.one ≠ Edge.zero by decide]

/-- The count of a stored node is half of its children's counts. -/
theorem modelCount_ofIndex {i : Nat} (hw : m.WellFormed) (hi : m.IsDecision i) (n : Nat) :
    m.modelCount (.ofIndex i) n =
      (m.modelCount (m.node i).low n + m.modelCount (m.node i).high n) / 2 := by
  obtain ⟨-, hLow, -⟩ := hw.node_low_spec hi
  obtain ⟨-, hHigh, -⟩ := hw.node_high_spec hi
  rw [modelCount, shareOf, if_neg hi.ofIndex.ne_zero, if_neg hi.ofIndex.ne_one]
  simp only [Edge.index_ofIndex, Edge.isNegated_ofIndex, Bool.false_eq_true, if_false]
  rw [getD_extendShares, modelCount, modelCount, shareOf_extendShares (Nat.lt_succ_self _) hLow,
    shareOf_extendShares (Nat.lt_succ_self _) hHigh]

/-- The complement of a stored node counts what the node leaves. -/
theorem modelCount_neg_ofIndex {i : Nat} (hi : m.IsDecision i) (n : Nat) :
    m.modelCount (-.ofIndex i) n = 2 ^ n - m.modelCount (.ofIndex i) n := by
  have hd := hi.ofIndex
  have hd' : m.IsDecision (-Edge.ofIndex i).index := by rwa [Edge.index_neg]
  have hNegated : (-Edge.ofIndex i).isNegated = true := by
    rw [Edge.isNegated_neg hd.holds.1, Edge.isNegated_ofIndex]
    rfl
  rw [modelCount, modelCount, shareOf, shareOf, if_neg hd.ne_zero, if_neg hd.ne_one,
    if_neg hd'.ne_zero, if_neg hd'.ne_one]
  simp [hNegated]

/-- There are at most as many models as assignments. -/
theorem modelCount_le (hw : m.WellFormed) (he : m.Holds e) (n : Nat) :
    m.modelCount e n ≤ 2 ^ n := by
  refine hw.node_induction (P := fun e => m.modelCount e n ≤ 2 ^ n) ?_ ?_ ?_ ?_ e he
  · simp
  · simp
  · intro i hi hLow hHigh
    rw [modelCount_ofIndex hw hi]
    omega
  · intro i hi _
    rw [modelCount_neg_ofIndex hi]
    exact Nat.sub_le _ _

/-- The complement of a function counts what the function leaves. -/
theorem modelCount_neg (hw : m.WellFormed) (he : m.Holds e) (n : Nat) :
    m.modelCount (-e) n = 2 ^ n - m.modelCount e n := by
  rcases he.cases with h1 | hd
  · rcases Edge.eq_zero_or_one h1 with rfl | rfl <;> simp
  · rcases e.eq_ofIndex_or with h | h
    · rw [h]
      exact modelCount_neg_ofIndex hd n
    · have hle := modelCount_le hw (e := .ofIndex e.index) (by simpa [Holds] using he) n
      rw [h, neg_neg, modelCount_neg_ofIndex hd]
      omega

/-- The models of a stored node, by those of its stored children. -/
theorem two_mul_card_models_node {i : Nat} (hw : m.WellFormed) (hi : m.IsDecision i)
    {V : Finset Nat} (hV : (m.node i).var ∈ V) :
    2 * (models V fun a => m.eval a (.ofIndex i)).card =
      (models V fun a => m.eval a (m.node i).low).card +
        (models V fun a => m.eval a (m.node i).high).card := by
  obtain ⟨hl, -, hal⟩ := hw.node_low_spec hi
  obtain ⟨hh, -, hah⟩ := hw.node_high_spec hi
  refine two_mul_card_models hV (fun a => ?_) (fun a c => eval_update hw hl hal c)
    fun a c => eval_update hw hh hah c
  rw [eval_node hw hi.ofIndex, topVar_ofIndex, low_ofIndex, high_ofIndex]

/-- What a stored child depends on is among what its parent depends on. -/
theorem DependsOn.of_child {i v : Nat} (hw : m.WellFormed) (hi : m.IsDecision i)
    (h : m.DependsOn (m.node i).low v ∨ m.DependsOn (m.node i).high v) :
    m.DependsOn (.ofIndex i) v := by
  rw [dependsOn_decision hw hi.ofIndex, low_ofIndex, high_ofIndex]
  exact .inr h

/-- The count over a set of variables that has all the function depends on is the number of
models. -/
theorem modelCount_eq_card (hw : m.WellFormed) (he : m.Holds e) {V : Finset Nat}
    (hV : ∀ v, m.DependsOn e v → v ∈ V) :
    m.modelCount e V.card = (models V fun a => m.eval a e).card := by
  refine hw.node_induction (P := fun e => (∀ v, m.DependsOn e v → v ∈ V) →
    m.modelCount e V.card = (models V fun a => m.eval a e).card) ?_ ?_ ?_ ?_ e he hV
  · intro _
    simp [models]
  · intro _
    simp [models]
  · intro i hi hLow hHigh hV
    have hl := hLow fun v hv => hV v (.of_child hw hi (.inl hv))
    have hh := hHigh fun v hv => hV v (.of_child hw hi (.inr hv))
    have hVar : (m.node i).var ∈ V := hV _ (topVar_ofIndex m i ▸ dependsOn_topVar hw hi.ofIndex)
    rw [modelCount_ofIndex hw hi, hl, hh, ← two_mul_card_models_node hw hi hVar,
      Nat.mul_div_cancel_left _ Nat.two_pos]
  · intro i hi hNode hV
    have hHeld := hi.ofIndex.holds
    rw [modelCount_neg_ofIndex hi, hNode fun v hv => hV v ((dependsOn_neg hw hHeld).mpr hv),
      ← card_models_not]
    simp only [eval_neg hw hHeld]

/-! ## No half is rounded -/

/-- The nodes that can be reached from an edge. -/
inductive Below (m : Manager) (e : Edge) : Nat → Prop
  | root : Below m e e.index
  | low {i : Nat} (hi : m.IsDecision i) (h : Below m e i) : Below m e (m.node i).low.index
  | high {i : Nat} (hi : m.IsDecision i) (h : Below m e i) : Below m e (m.node i).high.index

/-- What a node below an edge depends on is among what the edge depends on. -/
theorem Below.dependsOn {i v : Nat} (hw : m.WellFormed) (he : m.Holds e) (h : m.Below e i)
    (hv : m.DependsOn (.ofIndex i) v) : m.DependsOn e v := by
  induction h with
  | root => exact (dependsOn_ofIndex hw he).mp hv
  | low hi _ ih => exact ih ((dependsOn_node hw hi).mpr (.inr (.inl hv)))
  | high hi _ ih => exact ih ((dependsOn_node hw hi).mpr (.inr (.inr hv)))

/-- A stored node takes exactly half of what its children have, over every set of variables that has
all it depends on. -/
theorem two_mul_modelCount {i : Nat} (hw : m.WellFormed) (hi : m.IsDecision i) {V : Finset Nat}
    (hV : ∀ v, m.DependsOn (.ofIndex i) v → v ∈ V) :
    2 * m.modelCount (.ofIndex i) V.card =
      m.modelCount (m.node i).low V.card + m.modelCount (m.node i).high V.card := by
  have hl := (hw.node_low_spec hi).1
  have hh := (hw.node_high_spec hi).1
  have hVar : (m.node i).var ∈ V := hV _ (topVar_ofIndex m i ▸ dependsOn_topVar hw hi.ofIndex)
  rw [modelCount_eq_card hw hi.ofIndex.holds hV,
    modelCount_eq_card hw hl fun v hv => hV v (.of_child hw hi (.inl hv)),
    modelCount_eq_card hw hh fun v hv => hV v (.of_child hw hi (.inr hv)),
    two_mul_card_models_node hw hi hVar]

end Manager

open Manager

/-- **The count is the number of models.** For every function of a reached manager and every number
that is at least the size of its support, the count is the number of models over any set of so many
variables that contains the support. At no node below the function is a half rounded, and a function
and its complement have all the assignments together. -/
theorem reached_modelCount {m : Manager} (hm : Reached m) {f : Edge} (hf : m.Holds f) {n : Nat}
    (hn : (m.support f).length ≤ n) :
    (∀ V : Finset Nat, V.card = n → (∀ v ∈ m.support f, v ∈ V) →
      m.modelCount f n = (models V fun a => m.eval a f).card) ∧
    (∀ i, m.Below f i → m.IsDecision i →
      2 * m.modelCount (.ofIndex i) n =
        m.modelCount (m.node i).low n + m.modelCount (m.node i).high n) ∧
    m.modelCount f n + m.modelCount (-f) n = 2 ^ n := by
  have hw := hm.sound.toWellFormed
  refine ⟨?_, fun i hBelow hi => ?_, ?_⟩
  · rintro V rfl hV
    exact modelCount_eq_card hw hf fun v hv => hV v ((mem_support hw hf).mpr hv)
  · obtain ⟨V, hSub, rfl⟩ := Infinite.exists_superset_card_eq (m.support f).toFinset n
      ((List.toFinset_card_le _).trans hn)
    refine two_mul_modelCount hw hi fun v hv => hSub (List.mem_toFinset.mpr ?_)
    exact (mem_support hw hf).mpr (hBelow.dependsOn hw hf hv)
  · have hle := modelCount_le hw hf n
    rw [modelCount_neg hw hf]
    omega

/-- Of the eight assignments of the variables 1, 2 and 5, variable 2 implies variable 1 in six. -/
theorem reached_modelCount_implication :
    Reached implication ∧ implication.Holds (.ofIndex 3) ∧
      (implication.support (.ofIndex 3)).length ≤ 3 ∧
      (models {1, 2, 5} fun a => implication.eval a (.ofIndex 3)).card = 6 := by
  have hHeld : implication.Holds (.ofIndex 3) := holds_implication (by decide) (by decide)
  have hEval : ∀ m : Manager, m.nodes = implication.nodes →
      (m.support (.ofIndex 3)).length ≤ 3 ∧
      (∀ v ∈ m.support (.ofIndex 3), v ∈ ({1, 2, 5} : Finset Nat)) ∧
      m.modelCount (.ofIndex 3) 3 = 6 := by
    rw [nodes_implication]
    rintro ⟨_, _, _⟩ rfl
    refine ⟨?_, ?_, ?_⟩
    · simp [support, supportBelow, node, Std.HashSet.size_insert]
    · intro v hv
      have hCases : 2 = v ∨ 1 = v := by simpa [support, supportBelow, node] using hv
      rcases hCases with rfl | rfl <;> decide
    · with_unfolding_all rfl
  obtain ⟨hLength, hSub, hSix⟩ := hEval implication rfl
  have hCount := (reached_modelCount reached_implication hHeld hLength).1 {1, 2, 5} rfl hSub
  exact ⟨reached_implication, hHeld, hLength, hCount.symm.trans hSix⟩

end StateSpace.Diagram
