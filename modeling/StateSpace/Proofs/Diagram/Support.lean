import StateSpace.Diagram.Model
import StateSpace.Proofs.Diagram.Operations

/-!
# What a function depends on

A function **depends on** a variable if some assignment has another value after that variable alone
is changed. In a reduced table a decision depends on the variable it asks and on whatever one of its
children depends on (`dependsOn_decision`): the children are different functions, so the answer
matters somewhere.

The search for the support walks down the node table and keeps a set of marked nodes. What it still
has to find is what the marked nodes below it depend on (`mem_supportBelow`), so it ends with the
variables that the function depends on, no more and no less (`mem_support`). On every manager that
can be reached the support is the ascending list of the variables that can be flipped to change the
value somewhere (`support_lists_dependencies`).
-/

namespace StateSpace.Diagram

/-- Every edge leads to its node, regularly or complemented. -/
theorem Edge.eq_ofIndex_or (e : Edge) : e = .ofIndex e.index ∨ e = -.ofIndex e.index :=
  (Int.natAbs_eq e.code).imp (congrArg Edge.mk) (congrArg Edge.mk)

namespace Manager

variable {m : Manager} {e : Edge} {v : Nat}

@[simp] theorem topVar_ofIndex (m : Manager) (i : Nat) :
    m.topVar (.ofIndex i) = (m.node i).var := by
  simp [topVar]

@[simp] theorem low_ofIndex (m : Manager) (i : Nat) : m.low (.ofIndex i) = (m.node i).low := by
  simp [low]

@[simp] theorem high_ofIndex (m : Manager) (i : Nat) : m.high (.ofIndex i) = (m.node i).high := by
  simp [high]

theorem IsDecision.ofIndex {i : Nat} (hi : m.IsDecision i) :
    m.IsDecision (Edge.ofIndex i).index := by
  rwa [Edge.index_ofIndex]

/-- What is known of the stored low child. -/
theorem WellFormed.node_low_spec {i : Nat} (hw : m.WellFormed) (hi : m.IsDecision i) :
    m.Holds (m.node i).low ∧ (m.node i).low.index < i ∧ m.Above (m.node i).var (m.node i).low := by
  simpa using hw.low_spec hi.ofIndex

/-- What is known of the stored high child. -/
theorem WellFormed.node_high_spec {i : Nat} (hw : m.WellFormed) (hi : m.IsDecision i) :
    m.Holds (m.node i).high ∧ (m.node i).high.index < i ∧
      m.Above (m.node i).var (m.node i).high := by
  simpa using hw.high_spec hi.ofIndex

/-- A function depends on a variable if changing that variable alone changes the value somewhere. -/
def DependsOn (m : Manager) (e : Edge) (v : Nat) : Prop :=
  ∃ a : Assignment,
    m.eval (Function.update a v true) e ≠ m.eval (Function.update a v false) e

theorem dependsOn_neg (hw : m.WellFormed) (he : m.Holds e) :
    m.DependsOn (-e) v ↔ m.DependsOn e v := by
  unfold DependsOn
  simp only [eval_neg hw he, ne_eq, Bool.not_eq_eq_eq_not, Bool.not_not]

/-- The mark of an edge does not matter. -/
theorem dependsOn_ofIndex (hw : m.WellFormed) (he : m.Holds e) :
    m.DependsOn (.ofIndex e.index) v ↔ m.DependsOn e v := by
  rcases e.eq_ofIndex_or with h | h
  · rw [← h]
  · have hRegular : Edge.ofIndex e.index = -e := by
      rw [h, neg_neg, Edge.index_neg, Edge.index_ofIndex]
    rw [hRegular, dependsOn_neg hw he]

theorem not_dependsOn_terminal (h : e.index = 1) : ¬ m.DependsOn e v := by
  rintro ⟨a, ha⟩
  rcases Edge.eq_zero_or_one h with rfl | rfl <;> simp at ha

/-- A child of a decision does not depend on the variable that the decision asks. -/
theorem DependsOn.ne_of_above {u : Nat} (hw : m.WellFormed) (he : m.Holds e) (hu : m.Above u e)
    (h : m.DependsOn e v) : v ≠ u := by
  rintro rfl
  obtain ⟨a, ha⟩ := h
  rw [eval_update hw he hu, eval_update hw he hu] at ha
  exact ha rfl

/-- A decision depends on its variable: its children differ, so by canonicity their functions do. -/
theorem dependsOn_topVar (hw : m.WellFormed) (hd : m.IsDecision e.index) :
    m.DependsOn e (m.topVar e) := by
  by_contra h
  refine hw.low_ne_high_edge hd (eq_of_eval_eq hw (hw.low_spec hd).1 (hw.high_spec hd).1 fun a =>
    ?_)
  rw [← eval_low hw hd, ← eval_high hw hd]
  by_contra hne
  exact h ⟨a, fun heq => hne heq.symm⟩

theorem DependsOn.of_low (hw : m.WellFormed) (hd : m.IsDecision e.index)
    (h : m.DependsOn (m.low e) v) : m.DependsOn e v := by
  obtain ⟨hl, -, hAbove⟩ := hw.low_spec hd
  have hne := h.ne_of_above hw hl hAbove
  obtain ⟨a, ha⟩ := h
  refine ⟨Function.update a (m.topVar e) false, ?_⟩
  rwa [Function.update_comm hne.symm, Function.update_comm hne.symm, eval_low hw hd, eval_low hw hd]

theorem DependsOn.of_high (hw : m.WellFormed) (hd : m.IsDecision e.index)
    (h : m.DependsOn (m.high e) v) : m.DependsOn e v := by
  obtain ⟨hh, -, hAbove⟩ := hw.high_spec hd
  have hne := h.ne_of_above hw hh hAbove
  obtain ⟨a, ha⟩ := h
  refine ⟨Function.update a (m.topVar e) true, ?_⟩
  rwa [Function.update_comm hne.symm, Function.update_comm hne.symm, eval_high hw hd,
    eval_high hw hd]

/-- A decision depends on its variable and on what its children depend on. -/
theorem dependsOn_decision (hw : m.WellFormed) (hd : m.IsDecision e.index) :
    m.DependsOn e v ↔ v = m.topVar e ∨ m.DependsOn (m.low e) v ∨ m.DependsOn (m.high e) v := by
  constructor
  · rintro ⟨a, ha⟩
    refine or_iff_not_imp_left.mpr fun hne => ?_
    have hTop : ∀ c, Function.update a v c (m.topVar e) = a (m.topVar e) :=
      fun c => Function.update_of_ne (Ne.symm hne) c a
    rw [eval_node hw hd, eval_node hw hd, hTop, hTop] at ha
    cases hc : a (m.topVar e) with
    | true => exact .inr ⟨a, by simpa [hc] using ha⟩
    | false => exact .inl ⟨a, by simpa [hc] using ha⟩
  · rintro (rfl | h | h)
    · exact dependsOn_topVar hw hd
    · exact h.of_low hw hd
    · exact h.of_high hw hd

/-- Assignments that agree on everything a function depends on give it the same value. -/
theorem eval_eq_of_dependsOn (hw : m.WellFormed) (he : m.Holds e) {a b : Assignment}
    (hab : ∀ v, m.DependsOn e v → a v = b v) : m.eval a e = m.eval b e := by
  refine hw.edge_induction (P := fun e => (∀ v, m.DependsOn e v → a v = b v) →
    m.eval a e = m.eval b e) ?_ ?_ e he hab
  · intro e h1 _
    rcases Edge.eq_zero_or_one h1 with rfl | rfl <;> simp
  · intro e hd hLow hHigh hab
    rw [eval_node hw hd, eval_node hw hd, hab _ (dependsOn_topVar hw hd),
      hLow fun v hv => hab v (hv.of_low hw hd), hHigh fun v hv => hab v (hv.of_high hw hd)]

/-! ## The walk down the node table -/

/-- What a stored node depends on, by its stored children. -/
theorem dependsOn_node {i : Nat} (hw : m.WellFormed) (hi : m.IsDecision i) :
    m.DependsOn (.ofIndex i) v ↔
      v = (m.node i).var ∨ m.DependsOn (.ofIndex (m.node i).low.index) v ∨
        m.DependsOn (.ofIndex (m.node i).high.index) v := by
  rw [dependsOn_decision hw hi.ofIndex, low_ofIndex, high_ofIndex, topVar_ofIndex,
    dependsOn_ofIndex hw (hw.node_low_spec hi).1, dependsOn_ofIndex hw (hw.node_high_spec hi).1]

/-- A child that depends on something is a decision stored before its parent. -/
theorem IsChild.of_dependsOn {i u : Nat} (hc : m.IsChild i u e)
    (h : m.DependsOn (.ofIndex e.index) v) : 2 ≤ e.index ∧ e.index < i := by
  rcases hc with h1 | ⟨hd, hlt, -⟩
  · exact absurd h (not_dependsOn_terminal (by rw [Edge.index_ofIndex, h1]))
  · exact ⟨hd.1, hlt⟩

/-- The walk adds what the marked nodes depend on, from its place in the table downwards. -/
theorem mem_supportBelow (hw : m.WellFormed) (i : Nat) :
    ∀ marked vs : Std.HashSet Nat, i < m.nodes.size →
      (v ∈ m.supportBelow i marked vs ↔
        v ∈ vs ∨ ∃ k ∈ marked, 2 ≤ k ∧ k ≤ i ∧ m.DependsOn (.ofIndex k) v) := by
  induction i with
  | zero =>
    intro marked vs _
    rw [supportBelow]
    refine ⟨.inl, fun h => h.resolve_right ?_⟩
    rintro ⟨k, -, hk, hk', -⟩
    omega
  | succ i ih =>
    intro marked vs hi
    rw [supportBelow]
    split
    · next hMark =>
      obtain ⟨hMem, hle⟩ : i + 1 ∈ marked ∧ 1 ≤ i := by simpa using hMark
      have hd : m.IsDecision (i + 1) := ⟨by omega, hi⟩
      have hNode := dependsOn_node (v := v) hw hd
      rw [ih _ _ (by omega)]
      simp only [Std.HashSet.mem_insert, beq_iff_eq]
      constructor
      · rintro ((hVar | hMem') | ⟨k, (hk | hk | hk), h2, hki, hDep⟩)
        · exact .inr ⟨i + 1, hMem, hd.1, Nat.le_refl _, hNode.mpr (.inl hVar.symm)⟩
        · exact .inl hMem'
        · exact .inr ⟨i + 1, hMem, hd.1, Nat.le_refl _, hNode.mpr (.inr (.inr (hk ▸ hDep)))⟩
        · exact .inr ⟨i + 1, hMem, hd.1, Nat.le_refl _, hNode.mpr (.inr (.inl (hk ▸ hDep)))⟩
        · exact .inr ⟨k, hk, h2, by omega, hDep⟩
      · rintro (hMem' | ⟨k, hk, h2, hki, hDep⟩)
        · exact .inl (.inr hMem')
        · rcases Nat.lt_or_ge k (i + 1) with hlt | hge
          · exact .inr ⟨k, .inr (.inr hk), h2, by omega, hDep⟩
          -- the node at this place: its own variable, or something that a child depends on
          obtain rfl : k = i + 1 := Nat.le_antisymm hki hge
          rcases hNode.mp hDep with hVar | hLow | hHigh
          · exact .inl (.inl hVar.symm)
          · obtain ⟨h2, hlt⟩ := (hw.low_child _ hd).of_dependsOn hLow
            exact .inr ⟨_, .inr (.inl rfl), h2, by omega, hLow⟩
          · obtain ⟨h2, hlt⟩ := (hw.high_child _ hd).of_dependsOn hHigh
            exact .inr ⟨_, .inl rfl, h2, by omega, hHigh⟩
    · next hMark =>
      rw [ih _ _ (by omega)]
      refine or_congr_right (exists_congr fun k => and_congr_right fun hk =>
        and_congr_right fun h2 =>
        and_congr_left fun _ => ⟨fun hki => by omega, fun hki => ?_⟩)
      rcases Nat.lt_or_ge k (i + 1) with hlt | hge
      · omega
      · obtain rfl : k = i + 1 := Nat.le_antisymm hki hge
        exact absurd (by simpa using ⟨hk, by omega⟩) hMark

/-- The support of a function holds exactly the variables that it depends on. -/
theorem mem_support (hw : m.WellFormed) (he : m.Holds e) : v ∈ m.support e ↔ m.DependsOn e v := by
  rw [support, List.mem_mergeSort, Std.HashSet.mem_toList, mem_supportBelow hw _ _ _ he.2,
    ← dependsOn_ofIndex hw he]
  constructor
  · rintro (hMem | ⟨k, hk, -, -, hDep⟩)
    · simp at hMem
    · obtain rfl : e.index = k := by simpa using hk
      exact hDep
  · intro hDep
    rcases he.cases with h1 | hd
    · exact absurd hDep (not_dependsOn_terminal (by rw [Edge.index_ofIndex, h1]))
    · exact .inr ⟨e.index, by simp, hd.1, Nat.le_refl _, hDep⟩

/-- The support lists each variable once, the smallest first. -/
theorem support_ascends (m : Manager) (e : Edge) : (m.support e).Pairwise (· < ·) := by
  rw [support]
  generalize m.supportBelow e.index (.ofList [e.index]) {} = found
  have hSorted : found.toList.mergeSort.Pairwise (· ≤ ·) := by
    refine (List.pairwise_mergeSort (fun a b c => ?_) (fun a b => ?_) found.toList).imp
      of_decide_eq_true
    · simpa using Nat.le_trans
    · simpa using Nat.le_total a b
  have hDistinct : found.toList.mergeSort.Nodup :=
    (List.mergeSort_perm _ _).nodup_iff.mpr
      (Std.HashSet.distinct_toList.imp fun hne => ne_of_beq_false hne)
  exact (hSorted.and hDistinct).imp fun h => Nat.lt_of_le_of_ne h.1 h.2

/-! ## Dependencies -/

/-- A variable matters if flipping it changes the value of some assignment. -/
theorem dependsOn_iff_flip :
    m.DependsOn e v ↔ ∃ a : Assignment, m.eval (Function.update a v (!a v)) e ≠ m.eval a e := by
  constructor
  · rintro ⟨a, ha⟩
    refine ⟨Function.update a v false, ?_⟩
    rwa [Function.update_self, Bool.not_false, Function.update_idem]
  · rintro ⟨a, ha⟩
    refine ⟨a, ?_⟩
    -- one of the two values is the one that the assignment has already
    have hSame : Function.update a v (a v) = a := Function.update_eq_self v a
    cases hv : a v with
    | true =>
      rw [hv] at ha hSame
      rw [hSame]
      exact Ne.symm ha
    | false =>
      rw [hv] at ha hSame
      rwa [hSame]

end Manager

open Manager

/-- **The support is the set of dependencies.** For every function of a reached manager the support
lists each of its variables once, in ascending order, and a variable is among them exactly if there
is an assignment whose value changes when that variable alone is flipped. -/
theorem support_lists_dependencies {m : Manager} (hm : Reached m) {f : Edge} (hf : m.Holds f) :
    (m.support f).Pairwise (· < ·) ∧
    ∀ v, v ∈ m.support f ↔
      ∃ a : Assignment, m.eval (Function.update a v (!a v)) f ≠ m.eval a f :=
  ⟨support_ascends m f, fun _ => (mem_support hm.sound.toWellFormed hf).trans dependsOn_iff_flip⟩

/-- Whether variable 2 implies variable 1 can be changed by flipping variable 2, and not by flipping
variable 5; the complement of the function is no different. -/
theorem support_lists_dependencies_implication :
    Reached implication ∧ implication.Holds (-.ofIndex 3) ∧
      (∃ a : Assignment, implication.eval (Function.update a 2 (!a 2)) (-.ofIndex 3) ≠
        implication.eval a (-.ofIndex 3)) ∧
      ¬ ∃ a : Assignment, implication.eval (Function.update a 5 (!a 5)) (-.ofIndex 3) ≠
        implication.eval a (-.ofIndex 3) := by
  have hHeld : implication.Holds (-.ofIndex 3) := holds_implication (by decide) (by decide)
  have hMem : ∀ m : Manager, m.nodes = implication.nodes →
      2 ∈ m.support (-.ofIndex 3) ∧ 5 ∉ m.support (-.ofIndex 3) := by
    rw [nodes_implication]
    rintro ⟨_, _, _⟩ rfl
    simp [support, supportBelow, node]
  obtain ⟨hTwo, hFive⟩ := hMem implication rfl
  have hLists := (support_lists_dependencies reached_implication hHeld).2
  exact ⟨reached_implication, hHeld, (hLists 2).mp hTwo, fun hFlip => hFive ((hLists 5).mpr hFlip)⟩

end StateSpace.Diagram
