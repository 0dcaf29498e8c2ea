import StateSpace.Diagram.Ite
import StateSpace.Proofs.Diagram.Canonicity

/-!
# What building steps owe

A manager is **sound** when it is well-formed and every entry of its computed table is a correct
if-then-else. A building step started on a sound manager has to leave a sound manager that extends
the old one (`Manager.Grows`); what else it achieves is a property of its result. `Builds` puts both
together, and `Builds.bind` chains steps: a function that an edge had before a step
(`Manager.Means`) it has afterwards.

This module settles the steps below `ite`: storing a node, bringing it into normal form, and reading
and writing the computed table.
-/

namespace StateSpace.Diagram

/-! ## Computed tables -/

namespace ComputedTable

variable {κ ν : Type} [SlotHash κ] [DecidableEq κ] {t : ComputedTable κ ν} {key : κ} {value : ν}

/-- What a lookup returns is an entry. -/
theorem mem_slots_of_peek (h : t.peek key = some value) : some (key, value) ∈ t.slots := by
  unfold peek at h
  rw [Array.getD_eq_getD_getElem?] at h
  cases hSlot : t.slots[t.slotOf key]? with
  | none => simp [hSlot] at h
  | some entry =>
    have hMem : entry ∈ t.slots := Array.mem_of_getElem? hSlot
    cases entry with
    | none => simp [hSlot] at h
    | some entry =>
      obtain ⟨stored, kept⟩ := entry
      simp only [hSlot, Option.getD_some] at h
      split at h
      · next heq =>
        cases h
        exact heq ▸ hMem
      · cases h

/-- A lookup only changes the counts. -/
@[simp] theorem slots_find? : (t.find? key).2.slots = t.slots := by
  unfold find?
  cases t.peek key <;> rfl

@[simp] theorem find?_fst : (t.find? key).1 = t.peek key := by
  unfold find?
  cases t.peek key <;> rfl

omit [DecidableEq κ] in
/-- Insertion adds one entry; all others were there before. -/
theorem mem_slots_insert {entry : κ × ν} (h : some entry ∈ (t.insert key value).slots) :
    some entry ∈ t.slots ∨ entry = (key, value) :=
  (Array.mem_or_eq_of_mem_setIfInBounds h).imp id Option.some.inj

end ComputedTable

/-! ## Sound managers -/

namespace Manager

/-- An edge of the manager whose function is `F`. -/
structure Means (m : Manager) (e : Edge) (F : Assignment → Bool) : Prop where
  holds : m.Holds e
  eval_eq : ∀ a, m.eval a e = F a

/-- The function that follows `g` where `f` is true and `h` elsewhere. -/
def choose (m : Manager) (f g h : Edge) (a : Assignment) : Bool :=
  if m.eval a f then m.eval a g else m.eval a h

/-- The edge `e` is the if-then-else of the three edges of `t`. -/
structure IsIte (m : Manager) (t : Triple) (e : Edge) : Prop where
  condition : m.Holds t.condition
  consequent : m.Holds t.consequent
  alternative : m.Holds t.alternative
  result : m.Means e (m.choose t.condition t.consequent t.alternative)

/-- A well-formed manager whose computed table holds correct results only. -/
structure Sound (m : Manager) : Prop extends m.WellFormed where
  computed : ∀ t e, some (t, e) ∈ m.computed.slots → m.IsIte t e

/-- A sound manager has grown into a sound manager. -/
structure Grows (m m' : Manager) : Prop extends m.Extends m' where
  old : m.Sound
  new : m'.Sound

variable {m m' m'' : Manager} {e : Edge} {F G : Assignment → Bool}

theorem Grows.refl (hs : m.Sound) : m.Grows m :=
  ⟨.refl m, hs, hs⟩

theorem Grows.trans (h : m.Grows m') (h' : m'.Grows m'') : m.Grows m'' :=
  ⟨h.toExtends.trans h'.toExtends, h.old, h'.new⟩

theorem Holds.means (h : m.Holds e) : m.Means e fun a => m.eval a e :=
  ⟨h, fun _ => rfl⟩

theorem Means.congr (h : m.Means e F) (hFG : ∀ a, F a = G a) : m.Means e G :=
  ⟨h.holds, fun a => (h.eval_eq a).trans (hFG a)⟩

/-- An edge keeps its function when the manager is extended. -/
theorem Means.extends (h : m.Means e F) (hw : m.WellFormed) (hw' : m'.WellFormed)
    (hx : m.Extends m') : m'.Means e F :=
  ⟨h.holds.extends hx, fun a => (eval_extends hw hw' hx h.holds a).trans (h.eval_eq a)⟩

theorem Means.grows (h : m.Means e F) (hg : m.Grows m') : m'.Means e F :=
  h.extends hg.old.toWellFormed hg.new.toWellFormed hg.toExtends

theorem Means.neg (h : m.Means e F) (hs : m.Sound) : m.Means (-e) fun a => !F a :=
  ⟨h.holds.neg, fun a => by rw [eval_neg hs.toWellFormed h.holds, h.eval_eq]⟩

theorem Means.complementIf (h : m.Means e F) (hs : m.Sound) (c : Bool) :
    m.Means (e.complementIf c) fun a => F a ^^ c :=
  ⟨h.holds.complementIf c, fun a => by
    rw [eval_complementIf hs.toWellFormed h.holds, h.eval_eq]⟩

theorem Sound.means_one (hs : m.Sound) : m.Means .one fun _ => true :=
  ⟨hs.holds_one, m.eval_one⟩

theorem Sound.means_zero (hs : m.Sound) : m.Means .zero fun _ => false :=
  ⟨hs.holds_zero, m.eval_zero⟩

theorem Sound.means_constant (hs : m.Sound) (c : Bool) : m.Means (.constant c) fun _ => c :=
  ⟨hs.holds_constant c, fun a => m.eval_constant a c⟩

/-- Whether an edge stands beyond a variable is read off its function. -/
theorem Means.above {v : Nat} (h : m.Means e F) (hs : m.Sound)
    (hF : ∀ a b : Assignment, (∀ u, v < u → a u = b u) → F a = F b) : m.Above v e := by
  refine above_of_independent hs.toWellFormed h.holds fun a b hab => ?_
  rw [h.eval_eq, h.eval_eq, hF a b hab]

theorem choose_extends {f g h : Edge} (hw : m.WellFormed) (hw' : m'.WellFormed)
    (hx : m.Extends m') (hf : m.Holds f) (hg : m.Holds g) (hh : m.Holds h) (a : Assignment) :
    m'.choose f g h a = m.choose f g h a := by
  rw [choose, choose, eval_extends hw hw' hx hf, eval_extends hw hw' hx hg,
    eval_extends hw hw' hx hh]

/-- A correct if-then-else stays correct when the manager is extended. -/
theorem IsIte.extends {t : Triple} (h : m.IsIte t e) (hw : m.WellFormed) (hw' : m'.WellFormed)
    (hx : m.Extends m') : m'.IsIte t e := by
  refine ⟨h.condition.extends hx, h.consequent.extends hx, h.alternative.extends hx, ?_⟩
  refine (h.result.extends hw hw' hx).congr fun a => ?_
  rw [choose_extends hw hw' hx h.condition h.consequent h.alternative]

/-- A manager that grew in its nodes alone grew soundly. -/
theorem Sound.grows_of_computed_eq (hs : m.Sound) (hw' : m'.WellFormed) (hx : m.Extends m')
    (hc : m'.computed = m.computed) : m.Grows m' := by
  refine ⟨hx, hs, hw', fun t e hMem => ?_⟩
  rw [hc] at hMem
  exact (hs.computed t e hMem).extends hs.toWellFormed hw' hx

end Manager

/-! ## Steps and their chaining -/

/-- From the manager `m` a building step grows it soundly, and its result has the property `Q` in
the manager it leaves. -/
structure Builds {α : Type} (m : Manager) (step : Build α) (Q : Manager → α → Prop) : Prop where
  grows : m.Grows (step m).2
  result : Q (step m).2 (step m).1

section Chaining

variable {α β : Type} {m : Manager} {Q : Manager → α → Prop} {R : Manager → β → Prop}

theorem Builds.pure {x : α} (hs : m.Sound) (hx : Q m x) : Builds m (pure x) Q :=
  ⟨.refl hs, hx⟩

theorem Builds.bind {step : Build α} {k : α → Build β} (h : Builds m step Q)
    (hk : ∀ m' x, m.Grows m' → Q m' x → Builds m' (k x) R) : Builds m (step >>= k) R :=
  have hNext := hk _ _ h.grows h.result
  ⟨h.grows.trans hNext.grows, hNext.result⟩

theorem Builds.mono {step : Build α} {Q' : Manager → α → Prop} (h : Builds m step Q)
    (hQ : ∀ m' x, m.Grows m' → Q m' x → Q' m' x) : Builds m step Q' :=
  ⟨h.grows, hQ _ _ h.grows h.result⟩

/-- Reading the manager is no step. -/
theorem Builds.get_bind {k : Manager → Build β} (h : Builds m (k m) R) :
    Builds m (get >>= k) R :=
  ⟨h.grows, h.result⟩

/-- A step whose result is changed by a function. -/
theorem Builds.bind_pure {step : Build α} {f : α → β} (h : Builds m step Q)
    (hR : ∀ m' x, m.Grows m' → Q m' x → R m' (f x)) :
    Builds m (step >>= fun x => Pure.pure (f x)) R :=
  h.bind fun m' x hg hQ => .pure hg.new (hR m' x hg hQ)

end Chaining

/-! ## Storing nodes -/

namespace Manager

variable {m : Manager} {n : Node} {e : Edge} {v : Nat}

/-- The manager with one more node. -/
def push (m : Manager) (n : Node) : Manager :=
  { m with nodes := m.nodes.push n, unique := m.unique.insert n m.nodes.size }

theorem node_push (m : Manager) (n : Node) (i : Nat) :
    (m.push n).node i = if i = m.nodes.size then n else m.node i := by
  simp only [node, push, Array.getD_eq_getD_getElem?, Array.getElem?_push]
  split <;> rfl

theorem extends_push (m : Manager) (n : Node) : m.Extends (m.push n) := by
  refine ⟨by simp [push], fun i hi => ?_⟩
  rw [node_push, if_neg (by omega)]

theorem isDecision_push (hw : m.WellFormed) (i : Nat) :
    (m.push n).IsDecision i ↔ m.IsDecision i ∨ i = m.nodes.size := by
  have := hw.two_le_size
  simp only [IsDecision, push, Array.size_push]
  omega

/-- What a node has to satisfy to be stored. -/
structure Storable (m : Manager) (n : Node) : Prop where
  var_ne_zero : n.var ≠ 0
  high_regular : n.high.isNegated = false
  low_ne_high : n.low ≠ n.high
  holds_low : m.Holds n.low
  holds_high : m.Holds n.high
  low_above : m.Above n.var n.low
  high_above : m.Above n.var n.high

private theorem isChild_push {i : Nat} (hi : m.IsChild i v e) : (m.push n).IsChild i v e := by
  rcases hi with h1 | ⟨hd, hlt, hv⟩
  · exact .inl h1
  · have hx := extends_push m n
    exact .inr ⟨⟨hd.1, Nat.lt_of_lt_of_le hd.2 hx.size_le⟩, hlt,
      (topVar_extends hx hd.holds).symm ▸ hv⟩

private theorem isChild_of_above (he : m.Holds e) (hv : m.Above v e) :
    m.IsChild m.nodes.size v e := by
  rcases he.cases with h1 | hd
  · exact .inl h1
  · rcases hv with h1 | hv
    · exact .inl h1
    · exact .inr ⟨hd, hd.2, hv⟩

/-- The unique table gains exactly the new node. -/
private theorem unique_push (hw : m.WellFormed) (hNew : m.unique[n]? = none) (k : Node) (i : Nat) :
    (m.push n).unique[k]? = some i ↔ (m.push n).IsDecision i ∧ (m.push n).node i = k := by
  have hOld : ∀ j, m.IsDecision j → m.node j ≠ n := by
    rintro j hj rfl
    rw [(hw.unique_iff _ j).mpr ⟨hj, rfl⟩] at hNew
    cases hNew
  show (m.unique.insert n m.nodes.size)[k]? = some i ↔ _
  rw [Std.HashMap.getElem?_insert, isDecision_push hw, node_push]
  by_cases hnk : n = k
  · subst hnk
    simp only [beq_self_eq_true, if_true, Option.some.injEq]
    constructor
    · rintro rfl
      exact ⟨.inr rfl, by simp⟩
    · rintro ⟨hi | rfl, heq⟩
      · rw [if_neg (by have := hi.2; omega)] at heq
        exact absurd heq (hOld i hi)
      · rfl
  · rw [if_neg (by simpa using hnk), hw.unique_iff]
    constructor
    · rintro ⟨hi, heq⟩
      exact ⟨.inl hi, by rw [if_neg (by have := hi.2; omega)]; exact heq⟩
    · rintro ⟨hi | rfl, heq⟩
      · rw [if_neg (by have := hi.2; omega)] at heq
        exact ⟨hi, heq⟩
      · rw [if_pos rfl] at heq
        exact absurd heq hnk

/-- Storing a new node keeps the manager well-formed. -/
theorem WellFormed.push (hw : m.WellFormed) (hn : m.Storable n) (hNew : m.unique[n]? = none) :
    (m.push n).WellFormed := by
  have hSize := hw.two_le_size
  -- every node of the new table is an old one, or the new one
  have hCases : ∀ {P : Nat → Node → Prop}, (∀ i, m.IsDecision i → P i (m.node i)) →
      P m.nodes.size n → ∀ i, (m.push n).IsDecision i → P i ((m.push n).node i) := by
    intro P hOld hLast i hi
    rw [node_push]
    rcases (isDecision_push hw i).mp hi with hi | rfl
    · rw [if_neg (by have := hi.2; omega)]
      exact hOld i hi
    · rw [if_pos rfl]
      exact hLast
  refine ⟨?_, ?_, ?_, ?_, ?_, ?_, ?_, ?_⟩
  · simp only [Manager.push, Array.size_push]
    omega
  · rw [node_push, if_neg (by omega)]
    exact hw.terminal
  · exact hCases (P := fun _ n => n.var ≠ 0) hw.var_ne_zero hn.var_ne_zero
  · exact hCases (P := fun _ n => n.high.isNegated = false) hw.high_regular hn.high_regular
  · exact hCases (P := fun _ n => n.low ≠ n.high) hw.low_ne_high hn.low_ne_high
  · exact hCases (P := fun i k => (m.push n).IsChild i k.var k.low)
      (fun i hi => isChild_push (hw.low_child i hi))
      (isChild_push (isChild_of_above hn.holds_low hn.low_above))
  · exact hCases (P := fun i k => (m.push n).IsChild i k.var k.high)
      (fun i hi => isChild_push (hw.high_child i hi))
      (isChild_push (isChild_of_above hn.holds_high hn.high_above))
  · exact unique_push hw hNew

/-- The function of a regular edge to a stored decision. -/
theorem means_ofIndex {i : Nat} (hw : m.WellFormed) (hi : m.IsDecision i) :
    m.Means (.ofIndex i) fun a =>
      if a (m.node i).var then m.eval a (m.node i).high else m.eval a (m.node i).low := by
  have hd : m.IsDecision (Edge.ofIndex i).index := by simpa using hi
  refine ⟨hd.holds, fun a => ?_⟩
  rw [eval_node hw hd]
  simp [topVar, low, high]

end Manager

open Manager

variable {m : Manager} {n : Node} {v : Nat} {low high : Edge} {L H : Assignment → Bool}

/-- Storing a node yields the decision between its children. -/
theorem store_builds (hs : m.Sound) (hn : m.Storable n) (hLow : m.Means n.low L)
    (hHigh : m.Means n.high H) :
    Builds m (store n) fun m' e => m'.Means e fun a => if a n.var then H a else L a := by
  have hw := hs.toWellFormed
  cases hFound : m.unique[n]? with
  | some i =>
    obtain ⟨hi, hNode⟩ := (hw.unique_iff n i).mp hFound
    have hRun : store n m = (.ofIndex i, m) := by simp [store, hFound]
    refine ⟨hRun ▸ .refl hs, ?_⟩
    rw [hRun]
    refine (means_ofIndex hw hi).congr fun a => ?_
    rw [hNode, hLow.eval_eq, hHigh.eval_eq]
  | none =>
    have hRun : store n m = (.ofIndex m.nodes.size, m.push n) := by simp [store, hFound, push]
    have hw' := hw.push hn hFound
    have hx := extends_push m n
    have hg : m.Grows (m.push n) := hs.grows_of_computed_eq hw' hx rfl
    have hi : (m.push n).IsDecision m.nodes.size := (isDecision_push hw _).mpr (.inr rfl)
    refine ⟨hRun ▸ hg, ?_⟩
    rw [hRun]
    refine (means_ofIndex hw' hi).congr fun a => ?_
    rw [node_push, if_pos rfl, (hLow.grows hg).eval_eq, (hHigh.grows hg).eval_eq]

/-- The decision between two functions of later variables. -/
theorem mkNode_builds (hs : m.Sound) (hv : v ≠ 0) (hLow : m.Means low L) (hHigh : m.Means high H)
    (hal : m.Above v low) (hah : m.Above v high) :
    Builds m (mkNode v low high) fun m' e => m'.Means e fun a => if a v then H a else L a := by
  unfold mkNode
  split
  · next heq =>
    subst heq
    refine .pure hs (hLow.congr fun a => ?_)
    rw [← hLow.eval_eq, ← hHigh.eval_eq, ite_self]
  · next hne =>
    split
    · next hNeg =>
      -- the complement moves from the high edge to the result
      have hReg : (-high).isNegated = false := by
        rw [Edge.isNegated_neg hHigh.holds.1, hNeg]
        rfl
      have hn : m.Storable ⟨v, -low, -high⟩ :=
        ⟨hv, hReg, fun h => hne (neg_injective h), hLow.holds.neg, hHigh.holds.neg,
          by simpa [Above] using hal, by simpa [Above] using hah⟩
      refine (store_builds hs hn (hLow.neg hs) (hHigh.neg hs)).bind_pure fun m' e hg he => ?_
      refine (he.neg hg.new).congr fun a => ?_
      split <;> simp
    · next hReg =>
      have hn : m.Storable ⟨v, low, high⟩ :=
        ⟨hv, by simpa using hReg, hne, hLow.holds, hHigh.holds, hal, hah⟩
      exact store_builds hs hn hLow hHigh

/-- A variable as a function. -/
theorem mkVariable_builds (hs : m.Sound) (hv : v ≠ 0) :
    Builds m (mkVariable v) fun m' e => m'.Means e fun a => a v := by
  refine (mkNode_builds hs hv hs.means_zero hs.means_one (.inl rfl) (.inl rfl)).mono ?_
  intro m' e _ he
  exact he.congr fun a => by cases a v <;> rfl

/-! ## Reading and writing the computed table -/

/-- Another computed table leaves the diagram as it is. -/
theorem Manager.WellFormed.withComputed (hw : m.WellFormed) (c : ComputedTable Triple Edge) :
    ({ m with computed := c } : Manager).WellFormed :=
  ⟨hw.two_le_size, hw.terminal, hw.var_ne_zero, hw.high_regular, hw.low_ne_high, hw.low_child,
    hw.high_child, hw.unique_iff⟩

theorem Manager.extends_withComputed (m : Manager) (c : ComputedTable Triple Edge) :
    m.Extends { m with computed := c } :=
  ⟨Nat.le_refl _, fun _ _ => rfl⟩

/-- A manager that differs in its computed table alone grew soundly if its entries are correct. -/
theorem Manager.Sound.grows_withComputed (hs : m.Sound) {c : ComputedTable Triple Edge}
    (hc : ∀ t e, some (t, e) ∈ c.slots → m.IsIte t e) : m.Grows { m with computed := c } :=
  have hw' := hs.toWellFormed.withComputed c
  have hx := m.extends_withComputed c
  ⟨hx, hs, hw', fun t e hMem => (hc t e hMem).extends hs.toWellFormed hw' hx⟩

theorem findComputed_run (m : Manager) (t : Triple) :
    findComputed t m = (m.computed.peek t, { m with computed := (m.computed.find? t).2 }) := by
  rw [← ComputedTable.find?_fst]
  rfl

/-- A lookup finds correct results only. -/
theorem findComputed_builds (hs : m.Sound) (t : Triple) :
    Builds m (findComputed t) fun m' r => ∀ e, r = some e → m'.IsIte t e := by
  have hg : m.Grows { m with computed := (m.computed.find? t).2 } := by
    refine hs.grows_withComputed fun t' e hMem => hs.computed t' e ?_
    rwa [ComputedTable.slots_find?] at hMem
  refine ⟨by rw [findComputed_run]; exact hg, fun e he => ?_⟩
  rw [findComputed_run] at he ⊢
  exact (hs.computed t e (ComputedTable.mem_slots_of_peek he)).extends hs.toWellFormed
    hg.new.toWellFormed hg.toExtends

/-- Entering a correct result keeps the table correct, whatever it evicts. -/
theorem keepComputed_builds {t : Triple} {e : Edge} (hs : m.Sound) (ht : m.IsIte t e) :
    Builds m (keepComputed t e) fun _ _ => True := by
  refine ⟨hs.grows_withComputed fun t' e' hMem => ?_, trivial⟩
  rcases ComputedTable.mem_slots_insert hMem with hOld | hNew
  · exact hs.computed t' e' hOld
  · cases hNew
    exact ht

end StateSpace.Diagram
