import StateSpace.Proofs.Diagram.Build

/-!
# If-then-else computes if-then-else

`ite` first plans: the answer may be known at once, a simpler triple may have the same function, or
the triple is brought into normal form and expanded along its smallest variable. `plan` and
`expandWith` name these two halves, `iteUpTo_succ` puts them together again.

* `ite_builds`: on every sound manager the result is the if-then-else of the three functions, and
  the connectives follow;
* `ite_eq_iteStep`: the bound of the recursion is never reached, so `ite` obeys the recursion
  without a bound.
-/

namespace StateSpace.Diagram

open Manager

/-! ## The two halves of a call -/

/-- How an if-then-else is going to be computed. -/
inductive Plan where
  /-- The answer is an edge at hand. -/
  | answer (e : Edge)
  /-- Another triple has the same function. -/
  | instead (f g h : Edge)
  /-- The triple is expanded, and its result complemented if `negated`. -/
  | expand (t : Triple) (negated : Bool)

/-- The triple in normal form: neither its condition nor its consequent is a complement. -/
def normalForm (f g h : Edge) : Plan :=
  let (f, g, h) := if f.isNegated then (-f, h, g) else (f, g, h)
  .expand ⟨f, g.complementIf g.isNegated, h.complementIf g.isNegated⟩ g.isNegated

/-- The plan for three edges. -/
def plan (f g h : Edge) : Plan :=
  if f = .one then .answer g
  else if f = .zero then .answer h
  else if g = h then .answer g
  else if g = .one && h = .zero then .answer f
  else if g = .zero && h = .one then .answer (-f)
  else if g = f then .instead f .one h
  else if h = f then .instead f g .zero
  else if g = -f then .instead f .zero h
  else if h = -f then .instead f g .one
  else normalForm f g h

/-- The split of a triple along a variable: its operands where the variable is false. -/
def lowTriple (m : Manager) (t : Triple) (v : Nat) : Triple :=
  ⟨(m.cofactors t.condition v).1, (m.cofactors t.consequent v).1, (m.cofactors t.alternative v).1⟩

/-- The operands of a triple where the variable is true. -/
def highTriple (m : Manager) (t : Triple) (v : Nat) : Triple :=
  ⟨(m.cofactors t.condition v).2, (m.cofactors t.consequent v).2, (m.cofactors t.alternative v).2⟩

/-- The variable along which a triple is split. -/
def Manager.tripleVar (m : Manager) (t : Triple) : Nat :=
  m.splitVar t.condition t.consequent t.alternative

/-- Looks a triple in normal form up, or computes it from the two smaller triples by `call`. -/
def expandWith (call : Edge → Edge → Edge → Build Edge) (t : Triple) : Build Edge := do
  match ← findComputed t with
  | some e => pure e
  | none =>
    let m ← get
    let v := m.tripleVar t
    let t₀ := lowTriple m t v
    let t₁ := highTriple m t v
    let low ← call t₀.condition t₀.consequent t₀.alternative
    let high ← call t₁.condition t₁.consequent t₁.alternative
    let e ← mkNode v low high
    keepComputed t e
    pure e

/-- One call of `ite`, with `call` for the calls it makes. -/
def iteStep (call : Edge → Edge → Edge → Build Edge) (f g h : Edge) : Build Edge :=
  match plan f g h with
  | .answer e => pure e
  | .instead f g h => call f g h
  | .expand t negated => do
    let e ← expandWith call t
    pure (e.complementIf negated)

/-- A bounded call is a step whose calls have a smaller bound. -/
theorem iteUpTo_succ (bound : Nat) (f g h : Edge) :
    iteUpTo (bound + 1) f g h = iteStep (iteUpTo bound) f g h := by
  rw [iteUpTo, iteStep, plan]
  by_cases h1 : f = .one
  · rw [if_pos h1, if_pos h1]
  rw [if_neg h1, if_neg h1]
  by_cases h2 : f = .zero
  · rw [if_pos h2, if_pos h2]
  rw [if_neg h2, if_neg h2]
  by_cases h3 : g = h
  · rw [if_pos h3, if_pos h3]
  rw [if_neg h3, if_neg h3]
  by_cases h4 : (g = .one && h = .zero) = true
  · rw [if_pos h4, if_pos h4]
  rw [if_neg h4, if_neg h4]
  by_cases h5 : (g = .zero && h = .one) = true
  · rw [if_pos h5, if_pos h5]
  rw [if_neg h5, if_neg h5]
  by_cases h6 : g = f
  · rw [if_pos h6, if_pos h6]
  rw [if_neg h6, if_neg h6]
  by_cases h7 : h = f
  · rw [if_pos h7, if_pos h7]
  rw [if_neg h7, if_neg h7]
  by_cases h8 : g = -f
  · rw [if_pos h8, if_pos h8]
  rw [if_neg h8, if_neg h8]
  by_cases h9 : h = -f
  · rw [if_pos h9, if_pos h9]
  rw [if_neg h9, if_neg h9, normalForm]
  cases f.isNegated <;>
  · simp only [expandWith, bind_assoc, Bool.false_eq_true, if_true, if_false]
    congr 1
    funext found
    cases found <;> rfl

/-! ## Planning -/

/-- The sum of the node indices of three edges. It bounds the recursion. -/
def weight (f g h : Edge) : Nat :=
  f.index + g.index + h.index

/-- What a plan for the if-then-else of three edges owes. -/
def Plan.Fits (m : Manager) (f g h : Edge) : Plan → Prop
  | .answer e => m.Means e (m.choose f g h)
  | .instead f' g' h' =>
    m.Holds f' ∧ m.Holds g' ∧ m.Holds h' ∧ weight f' g' h' < weight f g h ∧
      ∀ a, m.choose f' g' h' a = m.choose f g h a
  | .expand t negated =>
    m.IsDecision t.condition.index ∧ m.Holds t.consequent ∧ m.Holds t.alternative ∧
      weight t.condition t.consequent t.alternative = weight f g h ∧
      ∀ a, (m.choose t.condition t.consequent t.alternative a ^^ negated) = m.choose f g h a

section Planning

variable {m : Manager} {f g h : Edge}

/-- A complemented condition swaps the branches; a complemented consequent complements the
result. -/
theorem normalForm_fits (hw : m.WellFormed) (hf : m.IsDecision f.index) (hg : m.Holds g)
    (hh : m.Holds h) : (normalForm f g h).Fits m f g h := by
  unfold normalForm
  cases hNeg : f.isNegated with
  | false =>
    refine ⟨hf, hg.complementIf _, hh.complementIf _, by simp [weight], fun a => ?_⟩
    simp only [choose, eval_complementIf hw hg, eval_complementIf hw hh]
    cases m.eval a f <;> simp
  | true =>
    have hf' : m.IsDecision (-f).index := by simpa using hf
    refine ⟨hf', hh.complementIf _, hg.complementIf _, ?_, fun a => ?_⟩
    · simp only [weight, Edge.index_neg, Edge.index_complementIf]
      omega
    · simp only [choose, eval_complementIf hw hg, eval_complementIf hw hh, eval_neg hw hf.holds]
      cases m.eval a f <;> simp

/-- The plan for held edges is right. -/
theorem plan_fits (hs : m.Sound) (hf : m.Holds f) (hg : m.Holds g) (hh : m.Holds h) :
    (plan f g h).Fits m f g h := by
  have hw := hs.toWellFormed
  unfold plan
  by_cases h1 : f = .one
  · subst h1
    rw [if_pos rfl]
    exact hg.means.congr fun a => by simp [choose]
  rw [if_neg h1]
  by_cases h2 : f = .zero
  · subst h2
    rw [if_pos rfl]
    exact hh.means.congr fun a => by simp [choose]
  rw [if_neg h2]
  -- from here on the condition is a decision
  have hfd : m.IsDecision f.index := by
    rcases hf.cases with hOne | hd
    · rcases Edge.eq_zero_or_one hOne with rfl | rfl <;> contradiction
    · exact hd
  have hTwo := hfd.1
  by_cases h3 : g = h
  · subst h3
    rw [if_pos rfl]
    exact hg.means.congr fun a => (ite_self _).symm
  rw [if_neg h3]
  by_cases h4 : (g = .one && h = .zero) = true
  · rw [if_pos h4]
    obtain ⟨rfl, rfl⟩ : g = .one ∧ h = .zero := by simpa using h4
    exact hf.means.congr fun a => by simp [choose]
  rw [if_neg h4]
  by_cases h5 : (g = .zero && h = .one) = true
  · rw [if_pos h5]
    obtain ⟨rfl, rfl⟩ : g = .zero ∧ h = .one := by simpa using h5
    exact (hf.means.neg hs).congr fun a => by cases hfa : m.eval a f <;> simp [choose, hfa]
  rw [if_neg h5]
  by_cases h6 : g = f
  · subst h6
    rw [if_pos rfl]
    refine ⟨hg, hw.holds_one, hh, by simp only [weight, Edge.index_one]; omega, fun a => ?_⟩
    cases hga : m.eval a g <;> simp [choose, hga]
  rw [if_neg h6]
  by_cases h7 : h = f
  · subst h7
    rw [if_pos rfl]
    refine ⟨hh, hg, hw.holds_zero, by simp only [weight, Edge.index_zero]; omega, fun a => ?_⟩
    cases hha : m.eval a h <;> simp [choose, hha]
  rw [if_neg h7]
  by_cases h8 : g = -f
  · subst h8
    rw [if_pos rfl]
    refine ⟨hf, hw.holds_zero, hh, ?_, fun a => ?_⟩
    · simp only [weight, Edge.index_zero, Edge.index_neg]
      omega
    · cases hfa : m.eval a f <;> simp [choose, hfa, eval_neg hw hf]
  rw [if_neg h8]
  by_cases h9 : h = -f
  · subst h9
    rw [if_pos rfl]
    refine ⟨hf, hg, hw.holds_one, ?_, fun a => ?_⟩
    · simp only [weight, Edge.index_one, Edge.index_neg]
      omega
    · cases hfa : m.eval a f <;> simp [choose, hfa, eval_neg hw hf]
  rw [if_neg h9]
  exact normalForm_fits hw hfd hg hh

end Planning

/-! ## Splitting -/

namespace Manager

variable {m : Manager} {f g h e : Edge} {v : Nat}

/-- What the two cofactors of an edge along a variable owe. -/
structure Splits (m : Manager) (v : Nat) (e e₀ e₁ : Edge) : Prop where
  holds_low : m.Holds e₀
  holds_high : m.Holds e₁
  low_above : m.Above v e₀
  high_above : m.Above v e₁
  low_le : e₀.index ≤ e.index
  high_le : e₁.index ≤ e.index
  low_lt : m.topVar e = v → e₀.index < e.index
  high_lt : m.topVar e = v → e₁.index < e.index
  eval_eq : ∀ a, m.eval a e = if a v then m.eval a e₁ else m.eval a e₀

/-- The cofactors along a variable that stands no deeper than the edge. -/
theorem splits_cofactors (hw : m.WellFormed) (he : m.Holds e) (hv0 : v ≠ 0)
    (hv : m.topVar e = 0 ∨ v ≤ m.topVar e) :
    m.Splits v e (m.cofactors e v).1 (m.cofactors e v).2 := by
  unfold cofactors
  by_cases hSkip : (e.isTerminal || v < m.topVar e) = true
  · rw [if_pos hSkip]
    have hAbove : m.Above v e := by
      rcases Bool.or_eq_true _ _ ▸ hSkip with ht | hlt
      · exact .inl (Edge.isTerminal_iff.mp ht)
      · exact .inr (of_decide_eq_true hlt)
    have hne : m.topVar e ≠ v := by
      rcases hAbove with h1 | hlt
      · rw [hw.topVar_terminal h1]
        exact hv0.symm
      · omega
    exact ⟨he, he, hAbove, hAbove, Nat.le_refl _, Nat.le_refl _, fun h => absurd h hne,
      fun h => absurd h hne, fun a => (ite_self _).symm⟩
  · rw [if_neg hSkip]
    simp only [Bool.or_eq_true, decide_eq_true_eq, not_or, Nat.not_lt] at hSkip
    have hd : m.IsDecision e.index := by
      rcases he.cases with h1 | hd
      · exact absurd (Edge.isTerminal_iff.mpr h1) hSkip.1
      · exact hd
    have hVar : m.topVar e = v := by
      have := hw.var_ne_zero _ hd
      have : m.topVar e ≠ 0 := this
      omega
    obtain ⟨hl, hlt, hal⟩ := hw.low_spec hd
    obtain ⟨hh, hht, hah⟩ := hw.high_spec hd
    rw [hVar] at hal hah
    exact ⟨hl, hh, hal, hah, Nat.le_of_lt hlt, Nat.le_of_lt hht, fun _ => hlt, fun _ => hht,
      fun a => hVar ▸ eval_node hw hd a⟩

/-- The variable of a split is the first one of an operand, and none stands before it. -/
theorem splitVar_spec (hw : m.WellFormed) (hf : m.IsDecision f.index) :
    m.splitVar f g h ≠ 0 ∧
      m.splitVar f g h ≤ m.topVar f ∧
      (m.topVar g = 0 ∨ m.splitVar f g h ≤ m.topVar g) ∧
      (m.topVar h = 0 ∨ m.splitVar f g h ≤ m.topVar h) ∧
      (m.topVar f = m.splitVar f g h ∨ m.topVar g = m.splitVar f g h ∨
        m.topVar h = m.splitVar f g h) := by
  have hne : m.topVar f ≠ 0 := hw.var_ne_zero _ hf
  unfold splitVar
  dsimp only
  split <;> split <;> omega

/-- The two triples that a triple in normal form is split into. -/
theorem splits_triple {t : Triple} (hw : m.WellFormed) (hf : m.IsDecision t.condition.index)
    (hg : m.Holds t.consequent) (hh : m.Holds t.alternative) :
    let v := m.tripleVar t
    v ≠ 0 ∧
      m.Splits v t.condition (lowTriple m t v).condition (highTriple m t v).condition ∧
      m.Splits v t.consequent (lowTriple m t v).consequent (highTriple m t v).consequent ∧
      m.Splits v t.alternative (lowTriple m t v).alternative (highTriple m t v).alternative ∧
      (m.topVar t.condition = v ∨ m.topVar t.consequent = v ∨ m.topVar t.alternative = v) := by
  obtain ⟨hv0, hvf, hvg, hvh, hVar⟩ :=
    splitVar_spec (g := t.consequent) (h := t.alternative) hw hf
  exact ⟨hv0, splits_cofactors hw hf.holds hv0 (.inr hvf), splits_cofactors hw hg hv0 hvg,
    splits_cofactors hw hh hv0 hvh, hVar⟩

/-- One operand is really split, so both triples of a split are smaller. -/
theorem weight_split_lt {f₀ f₁ g₀ g₁ h₀ h₁ : Edge} (hf : m.Splits v f f₀ f₁)
    (hg : m.Splits v g g₀ g₁) (hh : m.Splits v h h₀ h₁)
    (hVar : m.topVar f = v ∨ m.topVar g = v ∨ m.topVar h = v) :
    weight f₀ g₀ h₀ < weight f g h ∧ weight f₁ g₁ h₁ < weight f g h := by
  have hle := And.intro hf.low_le (And.intro hg.low_le hh.low_le)
  have hle' := And.intro hf.high_le (And.intro hg.high_le hh.high_le)
  unfold weight
  rcases hVar with hv | hv | hv
  · have := hf.low_lt hv
    have := hf.high_lt hv
    omega
  · have := hg.low_lt hv
    have := hg.high_lt hv
    omega
  · have := hh.low_lt hv
    have := hh.high_lt hv
    omega

/-- A choice between functions of later variables is one itself. -/
theorem choose_congr (hw : m.WellFormed) (hf : m.Holds f) (hg : m.Holds g) (hh : m.Holds h)
    (haf : m.Above v f) (hag : m.Above v g) (hah : m.Above v h) {a b : Assignment}
    (hab : ∀ u, v < u → a u = b u) : m.choose f g h a = m.choose f g h b := by
  rw [choose, choose, eval_congr hw hf haf hab, eval_congr hw hg hag hab, eval_congr hw hh hah hab]

end Manager

/-! ## The result of if-then-else -/

/-- What is owed by the calls that a call of weight `bound` may make. -/
def CallsBuild (call : Edge → Edge → Edge → Build Edge) (bound : Nat) : Prop :=
  ∀ (m : Manager) (f g h : Edge), m.Sound → m.Holds f → m.Holds g → m.Holds h →
    weight f g h < bound → Builds m (call f g h) fun m' e => m'.Means e (m.choose f g h)

/-- A triple in normal form is computed right if the smaller triples are. -/
theorem expandWith_builds {call : Edge → Edge → Edge → Build Edge} {m : Manager} {t : Triple}
    (hs : m.Sound) (hf : m.IsDecision t.condition.index) (hg : m.Holds t.consequent)
    (hh : m.Holds t.alternative)
    (hCall : CallsBuild call (weight t.condition t.consequent t.alternative)) :
    Builds m (expandWith call t) fun m' e =>
      m'.Means e (m.choose t.condition t.consequent t.alternative) := by
  refine (findComputed_builds hs t).bind fun m₁ found hg₁ hFound => ?_
  have hChoose : ∀ a, m₁.choose t.condition t.consequent t.alternative a =
      m.choose t.condition t.consequent t.alternative a :=
    choose_extends hs.toWellFormed hg₁.new.toWellFormed hg₁.toExtends hf.holds hg hh
  cases found with
  | some e => exact .pure hg₁.new ((hFound e rfl).result.congr hChoose)
  | none =>
    have hw₁ := hg₁.new.toWellFormed
    have hf₁ : m₁.IsDecision t.condition.index :=
      ⟨hf.1, Nat.lt_of_lt_of_le hf.2 hg₁.size_le⟩
    -- all three edges are split at the least variable in any of them
    obtain ⟨hv0, hsf, hsg, hsh, hVar⟩ :=
      splits_triple hw₁ hf₁ (hg.extends hg₁.toExtends) (hh.extends hg₁.toExtends)
    refine .get_bind ?_
    dsimp only
    generalize m₁.tripleVar t = v at *
    generalize lowTriple m₁ t v = t₀ at *
    generalize highTriple m₁ t v = t₁ at *
    obtain ⟨hlt₀, hlt₁⟩ := weight_split_lt hsf hsg hsh hVar
    refine (hCall m₁ _ _ _ hg₁.new hsf.holds_low hsg.holds_low hsh.holds_low hlt₀).bind
      fun m₂ low hg₂ hLow => ?_
    have hx₂ := hg₂.toExtends
    refine (hCall m₂ _ _ _ hg₂.new (hsf.holds_high.extends hx₂) (hsg.holds_high.extends hx₂)
      (hsh.holds_high.extends hx₂) hlt₁).bind fun m₃ high hg₃ hHigh => ?_
    have hLow₃ := hLow.grows hg₃
    have hHigh₃ : m₃.Means high (m₁.choose t₁.condition t₁.consequent t₁.alternative) :=
      hHigh.congr (choose_extends hw₁ hg₂.new.toWellFormed hx₂ hsf.holds_high hsg.holds_high
        hsh.holds_high)
    -- what a branch means does not depend on the variable, so its edge is above it
    have hal : m₃.Above v low := hLow₃.above hg₃.new fun a b hab =>
      choose_congr hw₁ hsf.holds_low hsg.holds_low hsh.holds_low hsf.low_above hsg.low_above
        hsh.low_above hab
    have hah : m₃.Above v high := hHigh₃.above hg₃.new fun a b hab =>
      choose_congr hw₁ hsf.holds_high hsg.holds_high hsh.holds_high hsf.high_above hsg.high_above
        hsh.high_above hab
    refine (mkNode_builds hg₃.new hv0 hLow₃ hHigh₃ hal hah).bind fun m₄ e hg₄ he => ?_
    have hResult : m₄.Means e (m₁.choose t.condition t.consequent t.alternative) := by
      refine he.congr fun a => ?_
      simp only [choose]
      rw [hsf.eval_eq, hsg.eval_eq, hsh.eval_eq]
      cases a v <;> rfl
    have hg₁₄ : m₁.Grows m₄ := (hg₂.trans hg₃).trans hg₄
    have hg₀₄ : m.Grows m₄ := hg₁.trans hg₁₄
    -- the cache is sound only if the entry is right for the triple as it was asked
    have hIte : m₄.IsIte t e := by
      refine ⟨hf.holds.extends hg₀₄.toExtends, hg.extends hg₀₄.toExtends,
        hh.extends hg₀₄.toExtends, hResult.congr fun a => ?_⟩
      rw [hChoose, choose_extends hs.toWellFormed hg₀₄.new.toWellFormed hg₀₄.toExtends hf.holds hg
        hh]
    refine (keepComputed_builds hg₄.new hIte).bind_pure fun m₅ _ hg₅ _ => ?_
    exact (hResult.congr hChoose).grows hg₅

/-- A step is right if the calls it makes are. -/
theorem iteStep_builds {call : Edge → Edge → Edge → Build Edge} {m : Manager} {f g h : Edge}
    (hs : m.Sound) (hf : m.Holds f) (hg : m.Holds g) (hh : m.Holds h)
    (hCall : CallsBuild call (weight f g h)) :
    Builds m (iteStep call f g h) fun m' e => m'.Means e (m.choose f g h) := by
  have hFits := plan_fits hs hf hg hh
  unfold iteStep
  cases hPlan : plan f g h with
  | answer e =>
    rw [hPlan] at hFits
    exact .pure hs hFits
  | instead f' g' h' =>
    rw [hPlan] at hFits
    obtain ⟨hf', hg', hh', hlt, heq⟩ := hFits
    exact (hCall m f' g' h' hs hf' hg' hh' hlt).mono fun m' e _ he => he.congr heq
  | expand t negated =>
    rw [hPlan] at hFits
    obtain ⟨hft, hgt, hht, hWeight, heq⟩ := hFits
    refine (expandWith_builds hs hft hgt hht (hWeight ▸ hCall)).bind_pure fun m' e hg' he => ?_
    exact (he.complementIf hg'.new negated).congr heq

/-- Bounded if-then-else is right as soon as the bound exceeds the weight. -/
theorem iteUpTo_builds (bound : Nat) : CallsBuild (iteUpTo bound) bound := by
  induction bound with
  | zero =>
    intro m f g h _ _ _ _ hlt
    omega
  | succ bound ih =>
    intro m f g h hs hf hg hh hlt
    rw [iteUpTo_succ]
    refine iteStep_builds hs hf hg hh fun m' f' g' h' hs' hf' hg' hh' hlt' => ?_
    exact ih m' f' g' h' hs' hf' hg' hh' (by omega)

section Connectives

variable {m : Manager} {f g h : Edge} {F G H : Assignment → Bool}

/-- If-then-else of three functions. -/
theorem ite_builds (hs : m.Sound) (hf : m.Means f F) (hg : m.Means g G) (hh : m.Means h H) :
    Builds m (ite f g h) fun m' e => m'.Means e fun a => if F a then G a else H a := by
  refine (iteUpTo_builds _ m f g h hs hf.holds hg.holds hh.holds (Nat.lt_succ_self _)).mono ?_
  intro m' e _ he
  refine he.congr fun a => ?_
  rw [choose, hf.eval_eq, hg.eval_eq, hh.eval_eq]

theorem and_builds (hs : m.Sound) (hf : m.Means f F) (hg : m.Means g G) :
    Builds m (and f g) fun m' e => m'.Means e fun a => F a && G a :=
  (ite_builds hs hf hg hs.means_zero).mono fun _ _ _ he =>
    he.congr fun a => by cases F a <;> simp

theorem or_builds (hs : m.Sound) (hf : m.Means f F) (hg : m.Means g G) :
    Builds m (or f g) fun m' e => m'.Means e fun a => F a || G a :=
  (ite_builds hs hf hs.means_one hg).mono fun _ _ _ he =>
    he.congr fun a => by cases F a <;> simp

theorem xor_builds (hs : m.Sound) (hf : m.Means f F) (hg : m.Means g G) :
    Builds m (xor f g) fun m' e => m'.Means e fun a => F a ^^ G a :=
  (ite_builds hs hf (hg.neg hs) hg).mono fun _ _ _ he =>
    he.congr fun a => by cases F a <;> simp

theorem iff_builds (hs : m.Sound) (hf : m.Means f F) (hg : m.Means g G) :
    Builds m (iff f g) fun m' e => m'.Means e fun a => F a == G a :=
  (ite_builds hs hf hg (hg.neg hs)).mono fun _ _ _ he =>
    he.congr fun a => by cases F a <;> simp

theorem imply_builds (hs : m.Sound) (hf : m.Means f F) (hg : m.Means g G) :
    Builds m (imply f g) fun m' e => m'.Means e fun a => !F a || G a :=
  (ite_builds hs hf hg hs.means_one).mono fun _ _ _ he =>
    he.congr fun a => by cases F a <;> simp

end Connectives

/-! ## The bound is never reached -/

/-- Two ways to make the calls of a call of weight `bound` that do the same. -/
def CallsAgree (call call' : Edge → Edge → Edge → Build Edge) (bound : Nat) : Prop :=
  ∀ (m : Manager) (f g h : Edge), m.Sound → m.Holds f → m.Holds g → m.Holds h →
    weight f g h < bound → call f g h m = call' f g h m

/-- A triple that the computed table does not hold is computed from the two smaller ones. -/
theorem expandWith_of_miss (call : Edge → Edge → Edge → Build Edge) {m : Manager} {t : Triple}
    (hMiss : m.computed.peek t = none) :
    expandWith call t m =
      (let m₁ := (findComputed t m).2
      let v := m₁.tripleVar t
      let t₀ := lowTriple m₁ t v
      let t₁ := highTriple m₁ t v
      let r₀ := call t₀.condition t₀.consequent t₀.alternative m₁
      let r₁ := call t₁.condition t₁.consequent t₁.alternative r₀.2
      let r := mkNode v r₀.1 r₁.1 r₁.2
      (r.1, (keepComputed t r.1 r.2).2)) := by
  have hFind : (findComputed t m).1 = none := by rw [findComputed_run, hMiss]
  show (match (findComputed t m).1 with
    | some e => (pure e : Build Edge)
    | none => _) (findComputed t m).2 = _
  rw [hFind]
  rfl

/-- A triple that the computed table holds is read off it. -/
theorem expandWith_of_hit (call : Edge → Edge → Edge → Build Edge) {m : Manager} {t : Triple}
    {e : Edge} (hHit : m.computed.peek t = some e) :
    expandWith call t m = (e, (findComputed t m).2) := by
  have hFind : (findComputed t m).1 = some e := by rw [findComputed_run, hHit]
  show (match (findComputed t m).1 with
    | some e => (pure e : Build Edge)
    | none => _) (findComputed t m).2 = _
  rw [hFind]
  rfl

/-- A step only depends on what its calls do. -/
theorem iteStep_congr {call call' : Edge → Edge → Edge → Build Edge} {m : Manager}
    {f g h : Edge} (hs : m.Sound) (hf : m.Holds f) (hg : m.Holds g) (hh : m.Holds h)
    (hCall : CallsBuild call (weight f g h)) (hAgree : CallsAgree call call' (weight f g h)) :
    iteStep call f g h m = iteStep call' f g h m := by
  have hFits := plan_fits hs hf hg hh
  unfold iteStep
  cases hPlan : plan f g h with
  | answer e => rfl
  | instead f' g' h' =>
    rw [hPlan] at hFits
    obtain ⟨hf', hg', hh', hlt, -⟩ := hFits
    exact hAgree m f' g' h' hs hf' hg' hh' hlt
  | expand t negated =>
    rw [hPlan] at hFits
    obtain ⟨hft, hgt, hht, hWeight, -⟩ := hFits
    have hExpand : expandWith call t m = expandWith call' t m := by
      cases hPeek : m.computed.peek t with
      | some e => rw [expandWith_of_hit call hPeek, expandWith_of_hit call' hPeek]
      | none =>
        have hg₁ := (findComputed_builds hs t).grows
        have hft₁ : (findComputed t m).2.IsDecision t.condition.index :=
          ⟨hft.1, Nat.lt_of_lt_of_le hft.2 hg₁.size_le⟩
        obtain ⟨-, hsf, hsg, hsh, hVar⟩ := splits_triple hg₁.new.toWellFormed hft₁
          (hgt.extends hg₁.toExtends) (hht.extends hg₁.toExtends)
        obtain ⟨hlt₀, hlt₁⟩ := weight_split_lt hsf hsg hsh hVar
        rw [hWeight] at hlt₀ hlt₁
        rw [expandWith_of_miss call hPeek, expandWith_of_miss call' hPeek]
        -- the second call runs on the manager that the first one leaves
        have hg₂ := (hCall _ _ _ _ hg₁.new hsf.holds_low hsg.holds_low hsh.holds_low hlt₀).grows
        have hLow := hAgree _ _ _ _ hg₁.new hsf.holds_low hsg.holds_low hsh.holds_low hlt₀
        have hHigh := hAgree _ _ _ _ hg₂.new (hsf.holds_high.extends hg₂.toExtends)
          (hsg.holds_high.extends hg₂.toExtends) (hsh.holds_high.extends hg₂.toExtends) hlt₁
        dsimp only
        rw [hHigh, hLow]
    show ((expandWith call t m).1.complementIf negated, (expandWith call t m).2) =
      ((expandWith call' t m).1.complementIf negated, (expandWith call' t m).2)
    rw [hExpand]

/-- Every bound that exceeds the weight gives the same result and the same manager. -/
theorem iteUpTo_stable (k l : Nat) {m : Manager} {f g h : Edge} (hs : m.Sound) (hf : m.Holds f)
    (hg : m.Holds g) (hh : m.Holds h) (hk : weight f g h < k) (hl : weight f g h < l) :
    iteUpTo k f g h m = iteUpTo l f g h m := by
  induction k generalizing l m f g h with
  | zero => omega
  | succ k ih =>
    obtain ⟨l, rfl⟩ : ∃ l', l = l' + 1 := ⟨l - 1, by omega⟩
    rw [iteUpTo_succ, iteUpTo_succ]
    refine iteStep_congr hs hf hg hh (fun m' f' g' h' hs' hf' hg' hh' hlt => ?_)
      fun m' f' g' h' hs' hf' hg' hh' hlt => ?_
    · exact iteUpTo_builds k m' f' g' h' hs' hf' hg' hh' (by omega)
    · exact ih l hs' hf' hg' hh' (by omega) (by omega)

/-- On sound managers if-then-else obeys the recursion without a bound. -/
theorem ite_eq_iteStep {m : Manager} {f g h : Edge} (hs : m.Sound) (hf : m.Holds f)
    (hg : m.Holds g) (hh : m.Holds h) : ite f g h m = iteStep ite f g h m := by
  show iteUpTo (weight f g h + 1) f g h m = _
  rw [iteUpTo_succ]
  refine iteStep_congr hs hf hg hh (iteUpTo_builds _) fun m' f' g' h' hs' hf' hg' hh' hlt => ?_
  exact iteUpTo_stable _ _ hs' hf' hg' hh' hlt (Nat.lt_succ_self _)

end StateSpace.Diagram
