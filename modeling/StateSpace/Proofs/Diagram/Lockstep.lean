import StateSpace.Proofs.Diagram.Operations

/-!
# The computed table is invisible

Two managers with the same nodes may remember different results of `ite`, because their computed
tables differ in size or in what was evicted. Operations give the same edges on both and store the
same nodes, one by one (`Operation.run_matches`) and in sequence (`trace_eq`).

A hit skips work that a miss does, so this rests on one fact: computing a function that the table
already holds stores nothing (`iteUpTo_of_means`). By canonicity the recursion ends at the stored
edge, and its cofactors, which the recursive calls compute, are stored as well. If the function is
not stored yet, neither table can remember it, and both managers take the same recursive calls.
-/

namespace StateSpace.Diagram

open Manager

/-! ## Managers that differ in their computed tables -/

namespace Manager

/-- The managers have the same nodes and differ at most in what they remember. -/
def SameTable (m m' : Manager) : Prop :=
  ∃ c, m' = { m with computed := c }

variable {m m' m'' : Manager} {e r : Edge} {t : Triple} {v : Nat} {F : Assignment → Bool}

theorem SameTable.refl (m : Manager) : m.SameTable m :=
  ⟨m.computed, rfl⟩

theorem SameTable.symm (h : m.SameTable m') : m'.SameTable m := by
  obtain ⟨c, rfl⟩ := h
  exact ⟨m.computed, rfl⟩

theorem SameTable.trans (h : m.SameTable m') (h' : m'.SameTable m'') : m.SameTable m'' := by
  obtain ⟨c, rfl⟩ := h
  obtain ⟨c', rfl⟩ := h'
  exact ⟨c', rfl⟩

theorem SameTable.extends (h : m.SameTable m') : m.Extends m' := by
  obtain ⟨c, rfl⟩ := h
  exact m.extends_withComputed c

theorem SameTable.holds (h : m.SameTable m') (he : m.Holds e) : m'.Holds e :=
  he.extends h.extends

theorem SameTable.means (h : m.SameTable m') (hs : m.Sound) (hs' : m'.Sound) (he : m.Means e F) :
    m'.Means e F :=
  he.extends hs.toWellFormed hs'.toWellFormed h.extends

theorem Means.unique (hs : m.Sound) (he : m.Means e F) (hr : m.Means r F) : e = r :=
  eq_of_eval_eq hs.toWellFormed he.holds hr.holds fun a => (he.eval_eq a).trans (hr.eval_eq a).symm

/-! ## Storing a node that is there already -/

theorem sameTable_findComputed (m : Manager) (t : Triple) : m.SameTable (findComputed t m).2 :=
  ⟨_, rfl⟩

theorem sameTable_keepComputed (m : Manager) (t : Triple) (e : Edge) :
    m.SameTable (keepComputed t e m).2 :=
  ⟨_, rfl⟩

/-- The decision between the children of a stored decision is the stored decision. -/
theorem mkNode_children (hw : m.WellFormed) (hd : m.IsDecision e.index) :
    mkNode (m.topVar e) (m.low e) (m.high e) m = (e, m) := by
  have hStored : store (m.node e.index) m = (.ofIndex e.index, m) := by
    have hFound : m.unique[m.node e.index]? = some e.index := (hw.unique_iff _ _).mpr ⟨hd, rfl⟩
    simp [store, hFound]
  rw [mkNode, if_neg (hw.low_ne_high_edge hd), isNegated_high hw hd]
  cases hNeg : e.isNegated with
  | false =>
    have hNode : (⟨m.topVar e, m.low e, m.high e⟩ : Node) = m.node e.index := by
      simp [topVar, low, high, hNeg]
    have hEdge : Edge.ofIndex e.index = e :=
      Edge.eq_of_index_eq (by simp) (by simp [hNeg])
    rw [if_neg Bool.false_ne_true, hNode, hStored, hEdge]
  | true =>
    -- the children of a complemented edge are complemented, and so is the edge of the stored node
    have hNode : (⟨m.topVar e, -m.low e, -m.high e⟩ : Node) = m.node e.index := by
      simp [topVar, low, high, hNeg]
    have hEdge : -Edge.ofIndex e.index = e := by
      have hOne : 1 ≤ (Edge.ofIndex e.index).index := by
        have := hd.1
        simp only [Edge.index_ofIndex]
        omega
      exact Edge.eq_of_index_eq (by simp) (by rw [Edge.isNegated_neg hOne]; simp [hNeg])
    rw [if_pos rfl, hNode]
    show (-(store (m.node e.index) m).1, (store (m.node e.index) m).2) = _
    rw [hStored, hEdge]

/-- The decision between the cofactors of a held edge is the edge. -/
theorem mkNode_cofactors (hw : m.WellFormed) (he : m.Holds e)
    (hv : m.topVar e = 0 ∨ v ≤ m.topVar e) :
    mkNode v (m.cofactors e v).1 (m.cofactors e v).2 m = (e, m) := by
  unfold cofactors
  by_cases hSkip : (e.isTerminal || v < m.topVar e) = true
  · rw [if_pos hSkip, mkNode, if_pos rfl]
    rfl
  · rw [if_neg hSkip]
    simp only [Bool.or_eq_true, decide_eq_true_eq, not_or, Nat.not_lt] at hSkip
    have hd : m.IsDecision e.index :=
      he.cases.resolve_left fun h1 => hSkip.1 (Edge.isTerminal_iff.mpr h1)
    have hVar : v = m.topVar e := by
      have : m.topVar e ≠ 0 := hw.var_ne_zero _ hd
      omega
    rw [hVar]
    exact mkNode_children hw hd

/-! ## Cofactors of a stored if-then-else -/

variable {f f₀ f₁ g g₀ g₁ h h₀ h₁ e₀ e₁ : Edge}

theorem Splits.eval_low (hs : m.Splits v e e₀ e₁) (hw : m.WellFormed) (a : Assignment) :
    m.eval (Function.update a v false) e = m.eval a e₀ := by
  rw [hs.eval_eq, Function.update_self, if_neg Bool.false_ne_true,
    eval_update hw hs.holds_low hs.low_above]

theorem Splits.eval_high (hs : m.Splits v e e₀ e₁) (hw : m.WellFormed) (a : Assignment) :
    m.eval (Function.update a v true) e = m.eval a e₁ := by
  rw [hs.eval_eq, Function.update_self, if_pos rfl, eval_update hw hs.holds_high hs.high_above]

/-- An edge that can be split along a variable does not look at the variables before it. -/
theorem Splits.eval_congr (hs : m.Splits v e e₀ e₁) (hw : m.WellFormed) {a b : Assignment}
    (hab : ∀ u, v ≤ u → a u = b u) : m.eval a e = m.eval b e := by
  have hBeyond : ∀ u, v < u → a u = b u := fun u hu => hab u (Nat.le_of_lt hu)
  rw [hs.eval_eq, hs.eval_eq, hab v (Nat.le_refl v),
    Manager.eval_congr hw hs.holds_low hs.low_above hBeyond,
    Manager.eval_congr hw hs.holds_high hs.high_above hBeyond]

/-- If an if-then-else is stored, so are the if-then-elses that it is computed from: they are its
cofactors. -/
theorem Means.cofactors (hs : m.Sound) (hv0 : v ≠ 0) (hf : m.Splits v f f₀ f₁)
    (hg : m.Splits v g g₀ g₁) (hh : m.Splits v h h₀ h₁) (hr : m.Means r (m.choose f g h)) :
    (m.topVar r = 0 ∨ v ≤ m.topVar r) ∧ m.Means (m.cofactors r v).1 (m.choose f₀ g₀ h₀) ∧
      m.Means (m.cofactors r v).2 (m.choose f₁ g₁ h₁) := by
  have hw := hs.toWellFormed
  -- the choice does not look at variables before `v`, so the edge asks none of them
  have hTop : m.topVar r = 0 ∨ v ≤ m.topVar r := by
    have hAbove : m.Above (v - 1) r := hr.above hs fun a b hab => by
      have hFrom : ∀ u, v ≤ u → a u = b u := fun u hu => hab u (by omega)
      rw [choose, choose, hf.eval_congr hw hFrom, hg.eval_congr hw hFrom, hh.eval_congr hw hFrom]
    rcases hAbove with h1 | hlt
    · exact .inl (hw.topVar_terminal h1)
    · exact .inr (by omega)
  have hSplit := splits_cofactors hw hr.holds hv0 hTop
  refine ⟨hTop, ⟨hSplit.holds_low, fun a => ?_⟩, ⟨hSplit.holds_high, fun a => ?_⟩⟩
  · rw [← hSplit.eval_low hw, hr.eval_eq, choose, choose, hf.eval_low hw, hg.eval_low hw,
      hh.eval_low hw]
  · rw [← hSplit.eval_high hw, hr.eval_eq, choose, choose, hf.eval_high hw, hg.eval_high hw,
      hh.eval_high hw]

end Manager

/-! ## Computing a function that is stored already -/

/-- Calls of weight less than `bound` for a function that the manager holds answer its edge and
store nothing. -/
def CallsFind (call : Edge → Edge → Edge → Build Edge) (bound : Nat) : Prop :=
  ∀ (m : Manager) (f g h r : Edge), m.Sound → m.Holds f → m.Holds g → m.Holds h →
    weight f g h < bound → m.Means r (m.choose f g h) →
      (call f g h m).1 = r ∧ m.SameTable (call f g h m).2

section Recomputation

variable {call : Edge → Edge → Edge → Build Edge} {m : Manager} {t : Triple} {f g h r : Edge}

/-- What is not remembered is computed from the cofactors, and these are stored as well. -/
theorem expandWith_finds_of_miss (hs : m.Sound) (hf : m.IsDecision t.condition.index)
    (hg : m.Holds t.consequent) (hh : m.Holds t.alternative)
    (hBuild : CallsBuild call (weight t.condition t.consequent t.alternative))
    (hCall : CallsFind call (weight t.condition t.consequent t.alternative))
    (hr : m.Means r (m.choose t.condition t.consequent t.alternative))
    (hMiss : m.computed.peek t = none) :
    (expandWith call t m).1 = r ∧ m.SameTable (expandWith call t m).2 := by
  have hSame₁ := m.sameTable_findComputed t
  have hs₁ : (findComputed t m).2.Sound := (findComputed_builds hs t).grows.new
  rw [expandWith_of_miss call hMiss]
  generalize (findComputed t m).2 = m₁ at hSame₁ hs₁ ⊢
  have hChoose : ∀ a, m₁.choose t.condition t.consequent t.alternative a =
      m.choose t.condition t.consequent t.alternative a :=
    choose_extends hs.toWellFormed hs₁.toWellFormed hSame₁.extends hf.holds hg hh
  have hr₁ : m₁.Means r (m₁.choose t.condition t.consequent t.alternative) :=
    (hSame₁.means hs hs₁ hr).congr fun a => (hChoose a).symm
  have hf₁ : m₁.IsDecision t.condition.index :=
    ⟨hf.1, Nat.lt_of_lt_of_le hf.2 hSame₁.extends.size_le⟩
  obtain ⟨hv0, hsf, hsg, hsh, hVar⟩ :=
    splits_triple hs₁.toWellFormed hf₁ (hSame₁.holds hg) (hSame₁.holds hh)
  obtain ⟨hlt₀, hlt₁⟩ := weight_split_lt hsf hsg hsh hVar
  obtain ⟨hTop, hr₀, hr₁'⟩ := hr₁.cofactors hs₁ hv0 hsf hsg hsh
  dsimp only
  generalize m₁.tripleVar t = v at *
  generalize lowTriple m₁ t v = t₀ at *
  generalize highTriple m₁ t v = t₁ at *
  -- both calls find the cofactors of the stored edge
  obtain ⟨hLow, hSame₂⟩ :=
    hCall m₁ _ _ _ _ hs₁ hsf.holds_low hsg.holds_low hsh.holds_low hlt₀ hr₀
  have hs₂ := (hBuild m₁ _ _ _ hs₁ hsf.holds_low hsg.holds_low hsh.holds_low hlt₀).grows.new
  generalize call t₀.condition t₀.consequent t₀.alternative m₁ = low at *
  have hr₂ : low.2.Means (m₁.cofactors r v).2
      (low.2.choose t₁.condition t₁.consequent t₁.alternative) :=
    (hSame₂.means hs₁ hs₂ hr₁').congr fun a => (choose_extends hs₁.toWellFormed hs₂.toWellFormed
      hSame₂.extends hsf.holds_high hsg.holds_high hsh.holds_high a).symm
  have hf₂ := hSame₂.holds hsf.holds_high
  have hg₂ := hSame₂.holds hsg.holds_high
  have hh₂ := hSame₂.holds hsh.holds_high
  obtain ⟨hHigh, hSame₃⟩ := hCall low.2 _ _ _ _ hs₂ hf₂ hg₂ hh₂ hlt₁ hr₂
  have hs₃ := (hBuild low.2 _ _ _ hs₂ hf₂ hg₂ hh₂ hlt₁).grows.new
  generalize call t₁.condition t₁.consequent t₁.alternative low.2 = high at *
  -- the decision between them is the stored edge
  have hNode : mkNode v low.1 high.1 high.2 = (r, high.2) := by
    have hSame₁₃ := hSame₂.trans hSame₃
    have hCofactors : high.2.cofactors r v = m₁.cofactors r v := by
      obtain ⟨c, hc⟩ := hSame₁₃
      rw [hc]
      rfl
    have hTop₃ : high.2.topVar r = 0 ∨ v ≤ high.2.topVar r := by
      rwa [topVar_extends hSame₁₃.extends hr₁.holds]
    rw [hLow, hHigh, ← hCofactors]
    exact mkNode_cofactors hs₃.toWellFormed (hSame₁₃.holds hr₁.holds) hTop₃
  rw [hNode]
  exact ⟨rfl, ((hSame₁.trans hSame₂).trans hSame₃).trans (sameTable_keepComputed _ t r)⟩

/-- An expansion whose function is in the table adds nothing and returns it. -/
theorem expandWith_of_means (hs : m.Sound) (hf : m.IsDecision t.condition.index)
    (hg : m.Holds t.consequent) (hh : m.Holds t.alternative)
    (hBuild : CallsBuild call (weight t.condition t.consequent t.alternative))
    (hCall : CallsFind call (weight t.condition t.consequent t.alternative))
    (hr : m.Means r (m.choose t.condition t.consequent t.alternative)) :
    (expandWith call t m).1 = r ∧ m.SameTable (expandWith call t m).2 := by
  cases hPeek : m.computed.peek t with
  | some e =>
    have hIte := hs.computed t e (ComputedTable.mem_slots_of_peek hPeek)
    rw [expandWith_of_hit call hPeek]
    exact ⟨hIte.result.unique hs hr, m.sameTable_findComputed t⟩
  | none => exact expandWith_finds_of_miss hs hf hg hh hBuild hCall hr hPeek

/-- A step whose function is in the table adds nothing and returns it. -/
theorem iteStep_of_means (hs : m.Sound) (hf : m.Holds f) (hg : m.Holds g) (hh : m.Holds h)
    (hBuild : CallsBuild call (weight f g h)) (hCall : CallsFind call (weight f g h))
    (hr : m.Means r (m.choose f g h)) :
    (iteStep call f g h m).1 = r ∧ m.SameTable (iteStep call f g h m).2 := by
  have hFits := plan_fits hs hf hg hh
  unfold iteStep
  cases hPlan : plan f g h with
  | answer e =>
    rw [hPlan] at hFits
    exact ⟨Means.unique hs hFits hr, .refl m⟩
  | instead f' g' h' =>
    rw [hPlan] at hFits
    obtain ⟨hf', hg', hh', hlt, heq⟩ := hFits
    exact hCall m f' g' h' r hs hf' hg' hh' hlt (hr.congr fun a => (heq a).symm)
  | expand t negated =>
    rw [hPlan] at hFits
    obtain ⟨hft, hgt, hht, hWeight, heq⟩ := hFits
    -- the normal form computes the complement where the plan says so
    have hr' : m.Means (r.complementIf negated)
        (m.choose t.condition t.consequent t.alternative) :=
      (hr.complementIf hs negated).congr fun a => by rw [← heq a, Bool.xor_assoc, Bool.xor_self,
        Bool.xor_false]
    obtain ⟨hResult, hSame⟩ :=
      expandWith_of_means hs hft hgt hht (hWeight ▸ hBuild) (hWeight ▸ hCall) hr'
    refine ⟨?_, hSame⟩
    show (expandWith call t m).1.complementIf negated = r
    rw [hResult]
    cases negated <;> simp

/-- **Recomputation.** Computing an if-then-else that the manager holds answers its edge and stores
nothing, whatever the computed table remembers. -/
theorem iteUpTo_of_means (bound : Nat) : CallsFind (iteUpTo bound) bound := by
  induction bound with
  | zero =>
    intro m f g h r _ _ _ _ hlt
    omega
  | succ bound ih =>
    intro m f g h r hs hf hg hh hlt hr
    rw [iteUpTo_succ]
    refine iteStep_of_means hs hf hg hh ?_ ?_ hr
    · intro m' f' g' h' hs' hf' hg' hh' hlt'
      exact iteUpTo_builds bound m' f' g' h' hs' hf' hg' hh' (by omega)
    · intro m' f' g' h' r' hs' hf' hg' hh' hlt' hr'
      exact ih m' f' g' h' r' hs' hf' hg' hh' (by omega) hr'

end Recomputation

/-! ## Two managers side by side -/

/-- Sound managers that differ at most in what they remember. -/
structure Manager.Twins (m m' : Manager) : Prop where
  left : m.Sound
  right : m'.Sound
  same : m.SameTable m'

/-- Run on both of two managers, the step gives the same result and stores the same nodes. -/
def Matches {α : Type} (m m' : Manager) (step : Build α) : Prop :=
  (step m').1 = (step m).1 ∧ (step m).2.SameTable (step m').2

section Matching

variable {m m' : Manager} {n : Node} {v : Nat} {low high : Edge}

theorem store_matches (h : m.SameTable m') : Matches m m' (store n) := by
  obtain ⟨c, rfl⟩ := h
  unfold Matches store
  cases m.unique[n]? with
  | some i => exact ⟨rfl, ⟨c, rfl⟩⟩
  | none => exact ⟨rfl, ⟨c, rfl⟩⟩

/-- The same table gives the same node. -/
theorem mkNode_matches (h : m.SameTable m') : Matches m m' (mkNode v low high) := by
  unfold mkNode
  split
  · exact ⟨rfl, h⟩
  · split
    · obtain ⟨hResult, hSame⟩ := store_matches (n := ⟨v, -low, -high⟩) h
      refine ⟨?_, hSame⟩
      show -(store ⟨v, -low, -high⟩ m').1 = -(store ⟨v, -low, -high⟩ m).1
      rw [hResult]
    · exact store_matches h

end Matching

/-- Calls of weight less than `bound` match on managers that differ at most in what they
remember. -/
def CallsMatch (call : Edge → Edge → Edge → Build Edge) (bound : Nat) : Prop :=
  ∀ (m m' : Manager) (f g h : Edge), m.Twins m' → m.Holds f → m.Holds g → m.Holds h →
    weight f g h < bound → Matches m m' (call f g h)

section Lockstep

variable {call : Edge → Edge → Edge → Build Edge} {m m' : Manager} {t : Triple} {f g h r : Edge}

/-- A function that is not stored is not remembered. -/
theorem Manager.Sound.peek_eq_none (hs : m.Sound)
    (h : ¬∃ r, m.Means r (m.choose t.condition t.consequent t.alternative)) :
    m.computed.peek t = none := by
  cases hPeek : m.computed.peek t with
  | none => rfl
  | some e =>
    have hIte := hs.computed t e (ComputedTable.mem_slots_of_peek hPeek)
    exact absurd ⟨e, hIte.result⟩ h

/-- Expansions match where neither manager has an entry for the triple. -/
theorem expandWith_matches_of_miss (ht : m.Twins m') (hf : m.IsDecision t.condition.index)
    (hg : m.Holds t.consequent) (hh : m.Holds t.alternative)
    (hBuild : CallsBuild call (weight t.condition t.consequent t.alternative))
    (hCall : CallsMatch call (weight t.condition t.consequent t.alternative))
    (hMiss : m.computed.peek t = none) (hMiss' : m'.computed.peek t = none) :
    Matches m m' (expandWith call t) := by
  have hs₁ := (findComputed_builds ht.left t).grows.new
  have hs₁' := (findComputed_builds ht.right t).grows.new
  have hSame₁ : (findComputed t m).2.SameTable (findComputed t m').2 :=
    ((m.sameTable_findComputed t).symm.trans ht.same).trans (m'.sameTable_findComputed t)
  have hx₁ := (m.sameTable_findComputed t).extends
  rw [Matches, expandWith_of_miss call hMiss, expandWith_of_miss call hMiss']
  generalize (findComputed t m).2 = m₁ at *
  generalize (findComputed t m').2 = m₁' at *
  have hTriple : m₁'.tripleVar t = m₁.tripleVar t ∧
      lowTriple m₁' t (m₁.tripleVar t) = lowTriple m₁ t (m₁.tripleVar t) ∧
      highTriple m₁' t (m₁.tripleVar t) = highTriple m₁ t (m₁.tripleVar t) := by
    obtain ⟨c, rfl⟩ := hSame₁
    exact ⟨rfl, rfl, rfl⟩
  have hf₁ : m₁.IsDecision t.condition.index := ⟨hf.1, Nat.lt_of_lt_of_le hf.2 hx₁.size_le⟩
  obtain ⟨-, hsf, hsg, hsh, hVar⟩ :=
    splits_triple hs₁.toWellFormed hf₁ (hg.extends hx₁) (hh.extends hx₁)
  obtain ⟨hlt₀, hlt₁⟩ := weight_split_lt hsf hsg hsh hVar
  dsimp only
  rw [hTriple.1, hTriple.2.1, hTriple.2.2]
  generalize m₁.tripleVar t = v at *
  generalize lowTriple m₁ t v = t₀ at *
  generalize highTriple m₁ t v = t₁ at *
  -- the two calls and the decision between their results match, one after the other
  obtain ⟨hLow, hSame₂⟩ := hCall m₁ m₁' _ _ _ ⟨hs₁, hs₁', hSame₁⟩ hsf.holds_low hsg.holds_low
    hsh.holds_low hlt₀
  have hGrows₂ := (hBuild m₁ _ _ _ hs₁ hsf.holds_low hsg.holds_low hsh.holds_low hlt₀).grows
  have hs₂' := (hBuild m₁' _ _ _ hs₁' (hSame₁.holds hsf.holds_low) (hSame₁.holds hsg.holds_low)
    (hSame₁.holds hsh.holds_low) hlt₀).grows.new
  generalize call t₀.condition t₀.consequent t₀.alternative m₁ = low at *
  generalize call t₀.condition t₀.consequent t₀.alternative m₁' = low' at *
  obtain ⟨hHigh, hSame₃⟩ := hCall low.2 low'.2 t₁.condition t₁.consequent t₁.alternative
    ⟨hGrows₂.new, hs₂', hSame₂⟩ (hsf.holds_high.extends hGrows₂.toExtends)
    (hsg.holds_high.extends hGrows₂.toExtends) (hsh.holds_high.extends hGrows₂.toExtends) hlt₁
  generalize call t₁.condition t₁.consequent t₁.alternative low.2 = high at *
  generalize call t₁.condition t₁.consequent t₁.alternative low'.2 = high' at *
  have hMatch : Matches high.2 high'.2 (mkNode v low.1 high.1) := mkNode_matches hSame₃
  rw [hLow, hHigh]
  obtain ⟨hNode, hSame₄⟩ := hMatch
  refine ⟨hNode, ?_⟩
  rw [hNode]
  exact (((sameTable_keepComputed _ t _).symm).trans hSame₄).trans (sameTable_keepComputed _ t _)

/-- Expansions match, whichever of the computed tables has an entry. -/
theorem expandWith_matches (ht : m.Twins m') (hf : m.IsDecision t.condition.index)
    (hg : m.Holds t.consequent) (hh : m.Holds t.alternative)
    (hBuild : CallsBuild call (weight t.condition t.consequent t.alternative))
    (hFind : CallsFind call (weight t.condition t.consequent t.alternative))
    (hCall : CallsMatch call (weight t.condition t.consequent t.alternative)) :
    Matches m m' (expandWith call t) := by
  have hf' : m'.IsDecision t.condition.index :=
    ⟨hf.1, Nat.lt_of_lt_of_le hf.2 ht.same.extends.size_le⟩
  have hg' := ht.same.holds hg
  have hh' := ht.same.holds hh
  have hChoose : ∀ a, m'.choose t.condition t.consequent t.alternative a =
      m.choose t.condition t.consequent t.alternative a :=
    choose_extends ht.left.toWellFormed ht.right.toWellFormed ht.same.extends hf.holds hg hh
  by_cases hStored : ∃ r, m.Means r (m.choose t.condition t.consequent t.alternative)
  · -- the function is stored, so either manager finds it
    obtain ⟨r, hr⟩ := hStored
    have hr' : m'.Means r (m'.choose t.condition t.consequent t.alternative) :=
      (ht.same.means ht.left ht.right hr).congr fun a => (hChoose a).symm
    obtain ⟨hResult, hSame⟩ := expandWith_of_means ht.left hf hg hh hBuild hFind hr
    obtain ⟨hResult', hSame'⟩ := expandWith_of_means ht.right hf' hg' hh' hBuild hFind hr'
    exact ⟨hResult'.trans hResult.symm, (hSame.symm.trans ht.same).trans hSame'⟩
  · -- the function is not stored, so neither manager remembers it
    have hMiss' : m'.computed.peek t = none := ht.right.peek_eq_none fun ⟨e, he⟩ =>
      hStored ⟨e, (ht.same.symm.means ht.right ht.left he).congr hChoose⟩
    exact expandWith_matches_of_miss ht hf hg hh hBuild hCall (ht.left.peek_eq_none hStored) hMiss'

/-- Steps match. -/
theorem iteStep_matches (ht : m.Twins m') (hf : m.Holds f) (hg : m.Holds g) (hh : m.Holds h)
    (hBuild : CallsBuild call (weight f g h)) (hFind : CallsFind call (weight f g h))
    (hCall : CallsMatch call (weight f g h)) : Matches m m' (iteStep call f g h) := by
  have hFits := plan_fits ht.left hf hg hh
  unfold iteStep
  cases hPlan : plan f g h with
  | answer e => exact ⟨rfl, ht.same⟩
  | instead f' g' h' =>
    rw [hPlan] at hFits
    obtain ⟨hf', hg', hh', hlt, -⟩ := hFits
    exact hCall m m' f' g' h' ht hf' hg' hh' hlt
  | expand t negated =>
    rw [hPlan] at hFits
    obtain ⟨hft, hgt, hht, hWeight, -⟩ := hFits
    obtain ⟨hResult, hSame⟩ := expandWith_matches ht hft hgt hht (hWeight ▸ hBuild)
      (hWeight ▸ hFind) (hWeight ▸ hCall)
    refine ⟨?_, hSame⟩
    show (expandWith call t m').1.complementIf negated =
      (expandWith call t m).1.complementIf negated
    rw [hResult]

/-- The recursion matches, by induction on its depth. -/
theorem iteUpTo_matches (bound : Nat) : CallsMatch (iteUpTo bound) bound := by
  induction bound with
  | zero =>
    intro m m' f g h _ _ _ _ hlt
    omega
  | succ bound ih =>
    intro m m' f g h ht hf hg hh hlt
    rw [iteUpTo_succ]
    refine iteStep_matches ht hf hg hh ?_ ?_ ?_
    · intro m' f' g' h' hs' hf' hg' hh' hlt'
      exact iteUpTo_builds bound m' f' g' h' hs' hf' hg' hh' (by omega)
    · intro m' f' g' h' r' hs' hf' hg' hh' hlt' hr'
      exact iteUpTo_of_means bound m' f' g' h' r' hs' hf' hg' hh' (by omega) hr'
    · intro m m' f' g' h' ht' hf' hg' hh' hlt'
      exact ih m m' f' g' h' ht' hf' hg' hh' (by omega)

end Lockstep

/-! ## Chaining steps on two managers -/

/-- On two managers that differ at most in what they remember, the step matches and grows both of
them soundly; its result has the property `Q`. -/
structure Lockstep {α : Type} (m m' : Manager) (step : Build α) (Q : Manager → α → Prop) : Prop
    extends Builds m step Q where
  right : (step m').2.Sound
  agree : Matches m m' step

section Chaining

variable {α β : Type} {m m' : Manager} {Q : Manager → α → Prop} {R : Manager → β → Prop}

theorem Manager.Twins.grows (ht : m.Twins m') : m.Grows m' :=
  ⟨ht.same.extends, ht.left, ht.right⟩

theorem Lockstep.twins {step : Build α} (h : Lockstep m m' step Q) :
    (step m).2.Twins (step m').2 :=
  ⟨h.grows.new, h.right, h.agree.2⟩

theorem Lockstep.pure {x : α} (ht : m.Twins m') (hx : Q m x) : Lockstep m m' (pure x) Q :=
  ⟨.pure ht.left hx, ht.right, rfl, ht.same⟩

/-- The sequence rule of steps in lockstep. -/
theorem Lockstep.bind {step : Build α} {k : α → Build β} (h : Lockstep m m' step Q)
    (hk : ∀ n n' x, n.Twins n' → m.Grows n → Q n x → Lockstep n n' (k x) R) :
    Lockstep m m' (step >>= k) R := by
  have hNext := hk _ _ _ h.twins h.grows h.result
  have hRun : (step >>= k) m' = k (step m).1 (step m').2 := by
    show k (step m').1 (step m').2 = _
    rw [h.agree.1]
  refine ⟨⟨h.grows.trans hNext.grows, hNext.result⟩, ?_, ?_⟩
  · rw [hRun]
    exact hNext.right
  · rw [Matches, hRun]
    exact hNext.agree

/-- A step whose result is changed by a function. -/
theorem Lockstep.bind_pure {step : Build α} {f : α → β} (h : Lockstep m m' step Q)
    (hR : ∀ n x, m.Grows n → Q n x → R n (f x)) :
    Lockstep m m' (step >>= fun x => Pure.pure (f x)) R :=
  h.bind fun n _ x ht hg hQ => .pure ht (hR n x hg hQ)

end Chaining

section Operations

variable {m m' : Manager} {f g h low high : Edge} {v : Nat}

/-- Nodes are made in lockstep. -/
theorem mkNode_lockstep (ht : m.Twins m') (hv : v ≠ 0) (hl : m.Holds low) (hh : m.Holds high)
    (hal : m.Above v low) (hah : m.Above v high) :
    Lockstep m m' (mkNode v low high) Manager.Holds := by
  have hal' : m'.Above v low := by rwa [Above, topVar_extends ht.same.extends hl]
  have hah' : m'.Above v high := by rwa [Above, topVar_extends ht.same.extends hh]
  have hRight :=
    mkNode_builds ht.right hv (ht.same.holds hl).means (ht.same.holds hh).means hal' hah'
  refine ⟨?_, hRight.grows.new, mkNode_matches ht.same⟩
  exact (mkNode_builds ht.left hv hl.means hh.means hal hah).mono fun _ _ _ he => he.holds

theorem mkVariable_lockstep (ht : m.Twins m') (hv : v ≠ 0) :
    Lockstep m m' (mkVariable v) Manager.Holds :=
  mkNode_lockstep ht hv ht.left.holds_zero ht.left.holds_one (.inl rfl) (.inl rfl)

/-- **Lockstep of if-then-else.** -/
theorem ite_lockstep (ht : m.Twins m') (hf : m.Holds f) (hg : m.Holds g) (hh : m.Holds h) :
    Lockstep m m' (ite f g h) Manager.Holds := by
  have hRight := ite_builds ht.right (ht.same.holds hf).means (ht.same.holds hg).means
    (ht.same.holds hh).means
  refine ⟨?_, hRight.grows.new, iteUpTo_matches _ m m' f g h ht hf hg hh (Nat.lt_succ_self _)⟩
  exact (ite_builds ht.left hf.means hg.means hh.means).mono fun _ _ _ he => he.holds

theorem and_lockstep (ht : m.Twins m') (hf : m.Holds f) (hg : m.Holds g) :
    Lockstep m m' (and f g) Manager.Holds :=
  ite_lockstep ht hf hg ht.left.holds_zero

theorem or_lockstep (ht : m.Twins m') (hf : m.Holds f) (hg : m.Holds g) :
    Lockstep m m' (or f g) Manager.Holds :=
  ite_lockstep ht hf ht.left.holds_one hg

theorem xor_lockstep (ht : m.Twins m') (hf : m.Holds f) (hg : m.Holds g) :
    Lockstep m m' (xor f g) Manager.Holds :=
  ite_lockstep ht hf hg.neg hg

theorem iff_lockstep (ht : m.Twins m') (hf : m.Holds f) (hg : m.Holds g) :
    Lockstep m m' (iff f g) Manager.Holds :=
  ite_lockstep ht hf hg hg.neg

theorem imply_lockstep (ht : m.Twins m') (hf : m.Holds f) (hg : m.Holds g) :
    Lockstep m m' (imply f g) Manager.Holds :=
  ite_lockstep ht hf hg ht.left.holds_one

theorem joinCases_matches {vs : Std.HashSet Nat} (ht : m.Twins m') (hl : m.Holds low)
    (hh : m.Holds high) : Matches m m' (joinCases vs v low high) := by
  unfold joinCases
  split
  · exact (or_lockstep ht hl hh).agree
  · exact mkNode_matches ht.same

theorem Matches.twins {α : Type} {step : Build α} {Q Q' : Manager → α → Prop}
    (h : Matches m m' step) (hl : Builds m step Q) (hr : Builds m' step Q') :
    (step m).2.Twins (step m').2 :=
  ⟨hl.grows.new, hr.grows.new, h.2⟩

theorem Matches.bind {α β : Type} {step : Build α} {k : α → Build β} (h : Matches m m' step)
    (hk : Matches (step m).2 (step m').2 (k (step m).1)) : Matches m m' (step >>= k) := by
  have hRun : (step >>= k) m' = k (step m).1 (step m').2 := by
    show k (step m').1 (step m').2 = _
    rw [h.1]
  rw [Matches, hRun]
  exact hk

/-- The memo of a quantification is the same on both managers, so its hits are. -/
theorem existsUpTo_matches (vs : Std.HashSet Nat) (bound : Nat) {memo : QuantifierMemo}
    (ht : m.Twins m') (hf : m.Holds f) (hlt : f.index < bound)
    (hMemo : MemoSound (· ∈ vs) m memo) : Matches m m' (existsUpTo vs bound f memo) := by
  induction bound generalizing m m' f memo with
  | zero => omega
  | succ bound ih =>
    rw [existsUpTo_succ]
    by_cases hTerm : f.isTerminal = true
    · rw [if_pos hTerm]
      exact ⟨rfl, ht.same⟩
    · rw [if_neg hTerm]
      have hd : m.IsDecision f.index :=
        hf.cases.resolve_left fun h1 => hTerm (Edge.isTerminal_iff.mpr h1)
      obtain ⟨hl, hlLt, -⟩ := ht.left.low_spec hd
      obtain ⟨hh, hhLt, -⟩ := ht.left.high_spec hd
      cases memo[f]? with
      | some e => exact ⟨rfl, ht.same⟩
      | none =>
        -- both managers ask the same variable and have the same cases
        suffices hCases : Matches m m' (do
            let low ← existsUpTo vs bound (m.low f) memo
            let high ← existsUpTo vs bound (m.high f) low.2
            let e ← joinCases vs (m.topVar f) low.1 high.1
            pure (e, high.2.insert f e)) by
          obtain ⟨c, rfl⟩ := ht.same
          exact hCases
        -- the second case starts with the memo that the first one leaves
        have hLow := existsUpTo_builds vs bound ht.left hl (by omega) hMemo
        have hLow' := existsUpTo_builds vs bound ht.right (ht.same.holds hl) (by omega)
          (hMemo.grows ht.grows)
        have hMatch := ih ht hl (by omega) hMemo
        have ht₁ := hMatch.twins hLow hLow'
        have hh₁ := hh.extends hLow.grows.toExtends
        have hHigh := existsUpTo_builds vs bound ht₁.left hh₁ (by omega) hLow.result.2
        have hHigh' := existsUpTo_builds vs bound ht₁.right (ht₁.same.holds hh₁) (by omega)
          (hLow.result.2.grows ht₁.grows)
        have hMatch₁ := ih ht₁ hh₁ (by omega) hLow.result.2
        have ht₂ := hMatch₁.twins hHigh hHigh'
        refine hMatch.bind (hMatch₁.bind ?_)
        refine (joinCases_matches ht₂ (hLow.result.1.grows hHigh.grows).holds
          hHigh.result.1.holds).bind ?_
        exact ⟨rfl, (joinCases_matches ht₂ (hLow.result.1.grows hHigh.grows).holds
          hHigh.result.1.holds).2⟩

/-- Quantification in lockstep. -/
theorem existsOver_lockstep (vs : List Nat) (ht : m.Twins m') (hf : m.Holds f) :
    Lockstep m m' (existsOver vs f) Manager.Holds := by
  have hRight := existsOver_builds vs ht.right (ht.same.holds hf).means
  refine ⟨(existsOver_builds vs ht.left hf.means).mono fun _ _ _ he => he.holds, hRight.grows.new,
    ?_⟩
  unfold existsOver
  split
  · exact ⟨rfl, ht.same⟩
  · have hMemo : MemoSound (· ∈ Std.HashSet.ofList vs) m {} := by
      intro f e h
      simp at h
    obtain ⟨hResult, hSame⟩ := existsUpTo_matches (.ofList vs) (f.index + 1) ht hf
      (Nat.lt_succ_self _) hMemo
    refine ⟨?_, hSame⟩
    show (existsUpTo (.ofList vs) (f.index + 1) f {} m').1.1 =
      (existsUpTo (.ofList vs) (f.index + 1) f {} m).1.1
    rw [hResult]

theorem forallOver_lockstep (vs : List Nat) (ht : m.Twins m') (hf : m.Holds f) :
    Lockstep m m' (forallOver vs f) Manager.Holds :=
  (existsOver_lockstep vs ht hf.neg).bind_pure fun _ _ _ he => he.neg

end Operations

/-! ## Sequences of operations -/

theorem Operation.allowed_sameTable {m m' : Manager} {op : Operation} (h : m.SameTable m')
    (hop : op.Allowed m) : op.Allowed m' := by
  obtain ⟨c, rfl⟩ := h
  cases op <;> exact hop

/-- Every allowed operation gives the same edge on both managers, and stores the same nodes. -/
theorem Operation.run_matches {m m' : Manager} {op : Operation} (ht : m.Twins m')
    (hop : op.Allowed m) : Matches m m' op.run := by
  cases op with
  | constant b => exact ⟨rfl, ht.same⟩
  | var v => exact (mkVariable_lockstep ht (Nat.ne_of_gt hop)).agree
  | node v low high => exact mkNode_matches ht.same
  | ite f g h => exact (ite_lockstep ht hop.1 hop.2.1 hop.2.2).agree
  | and f g => exact (and_lockstep ht hop.1 hop.2).agree
  | or f g => exact (or_lockstep ht hop.1 hop.2).agree
  | xor f g => exact (xor_lockstep ht hop.1 hop.2).agree
  | iff f g => exact (iff_lockstep ht hop.1 hop.2).agree
  | imply f g => exact (imply_lockstep ht hop.1 hop.2).agree
  | existsOver vs f => exact (existsOver_lockstep vs ht hop).agree
  | forallOver vs f => exact (forallOver_lockstep vs ht hop).agree
  | low f =>
    obtain ⟨c, rfl⟩ := ht.same
    exact ⟨rfl, c, rfl⟩
  | high f =>
    obtain ⟨c, rfl⟩ := ht.same
    exact ⟨rfl, c, rfl⟩

/-- Every operation of the list may be asked of the manager that the operations before it leave. -/
def AllowedAll (m : Manager) : List Operation → Prop
  | [] => True
  | op :: ops => op.Allowed m ∧ AllowedAll (op.run m).2 ops

/-- Operations on edges that are held already may be asked in any order. -/
theorem allowedAll_of_extends {m : Manager} {ops : List Operation} (hs : m.Sound)
    (h : ∀ op ∈ ops, ∀ n, m.Extends n → op.Allowed n) : AllowedAll m ops := by
  induction ops generalizing m with
  | nil => exact trivial
  | cons op ops ih =>
    have hop := h op List.mem_cons_self m (.refl m)
    have hg := (Operation.run_builds hs hop).grows
    refine ⟨hop, ih hg.new fun op' hop' n hx => ?_⟩
    exact h op' (List.mem_cons_of_mem op hop') n (hg.toExtends.trans hx)

/-- The edge that each operation of a list gives, with the node table after it. -/
def trace (m : Manager) : List Operation → List (Edge × Array Node)
  | [] => []
  | op :: ops => ((op.run m).1, (op.run m).2.nodes) :: trace (op.run m).2 ops

/-- A list of operations runs alike on both managers. -/
theorem trace_eq {m m' : Manager} {ops : List Operation} (ht : m.Twins m')
    (hOps : AllowedAll m ops) : AllowedAll m' ops ∧ trace m' ops = trace m ops := by
  induction ops generalizing m m' with
  | nil => exact ⟨trivial, rfl⟩
  | cons op ops ih =>
    obtain ⟨hop, hRest⟩ := hOps
    have hop' := Operation.allowed_sameTable ht.same hop
    have hMatch := Operation.run_matches ht hop
    have hNodes : (op.run m').2.nodes = (op.run m).2.nodes := by
      obtain ⟨c, hc⟩ := hMatch.2
      rw [hc]
    obtain ⟨hRest', hTrace⟩ :=
      ih (hMatch.twins (Operation.run_builds ht.left hop) (Operation.run_builds ht.right hop'))
        hRest
    refine ⟨⟨hop', hRest'⟩, ?_⟩
    rw [trace, trace, hMatch.1, hNodes, hTrace]

/-- New managers are alike, whatever the sizes of their computed tables. -/
theorem twins_empty (bits bits' : Nat) : (Manager.empty bits).Twins (.empty bits') :=
  ⟨sound_empty bits, sound_empty bits', _, rfl⟩

end StateSpace.Diagram
