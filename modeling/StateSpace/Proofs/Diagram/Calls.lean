import Mathlib.Logic.Relation
import StateSpace.Proofs.Diagram.Operations

/-!
# Calls of if-then-else

An operation calls `ite`, directly or from within a quantification, and every call makes further
calls, each on the manager that the work before it has left. `Operation.Makes` and `Call.Makes` say
which, without any bound on the recursion. All these calls start on sound managers (`Call.Valid`),
so

* the calls of a call become smaller and come to an end (`acc_of_valid`);
* whatever they read from the computed table is right, whatever was evicted before.

`reached_operations` collects what all operations do on a reached manager.
-/

namespace StateSpace.Diagram

open Manager

/-! ## Calls made by a call -/

/-- A call of `ite`: the manager it starts on, and its operands. -/
structure Call where
  manager : Manager
  condition : Edge
  consequent : Edge
  alternative : Edge

namespace Call

/-- The call for the operands of a triple. -/
def ofTriple (m : Manager) (t : Triple) : Call :=
  ⟨m, t.condition, t.consequent, t.alternative⟩

/-- The manager that a call leaves. -/
def after (c : Call) : Manager :=
  (ite c.condition c.consequent c.alternative c.manager).2

/-- The calls that a call makes itself: for a triple with the same function, or, if the computed
table does not know the triple in normal form, for its two halves one after the other. -/
inductive Makes : Call → Call → Prop
  | instead {c : Call} {f g h : Edge}
      (hPlan : plan c.condition c.consequent c.alternative = .instead f g h) :
      Makes c ⟨c.manager, f, g, h⟩
  | low {c : Call} {t : Triple} {negated : Bool} {m : Manager}
      (hPlan : plan c.condition c.consequent c.alternative = .expand t negated)
      (hMiss : findComputed t c.manager = (none, m)) :
      Makes c (ofTriple m (lowTriple m t (m.tripleVar t)))
  | high {c : Call} {t : Triple} {negated : Bool} {m : Manager}
      (hPlan : plan c.condition c.consequent c.alternative = .expand t negated)
      (hMiss : findComputed t c.manager = (none, m)) :
      Makes c (ofTriple (ofTriple m (lowTriple m t (m.tripleVar t))).after
        (highTriple m t (m.tripleVar t)))

/-- The weight of the operands of a call. -/
def size (c : Call) : Nat :=
  weight c.condition c.consequent c.alternative

/-- A call on a sound manager that holds the operands. -/
structure Valid (c : Call) : Prop where
  sound : c.manager.Sound
  condition : c.manager.Holds c.condition
  consequent : c.manager.Holds c.consequent
  alternative : c.manager.Holds c.alternative

/-- A valid call grows its manager soundly. -/
theorem Valid.grows {c : Call} (hc : c.Valid) : c.manager.Grows c.after :=
  (ite_builds hc.sound hc.condition.means hc.consequent.means hc.alternative.means).grows

/-- The calls of a valid call are valid and smaller. -/
theorem Valid.makes {c c' : Call} (hc : c.Valid) (h : c.Makes c') :
    c'.Valid ∧ c'.size < c.size := by
  have hFits := plan_fits hc.sound hc.condition hc.consequent hc.alternative
  -- what a split in the manager after a failed lookup gives
  have hSplit : ∀ {t : Triple} {negated : Bool} {m : Manager},
      plan c.condition c.consequent c.alternative = .expand t negated →
      findComputed t c.manager = (none, m) →
      m.Sound ∧ m.Splits (m.tripleVar t) t.condition (lowTriple m t (m.tripleVar t)).condition
          (highTriple m t (m.tripleVar t)).condition ∧
        m.Splits (m.tripleVar t) t.consequent (lowTriple m t (m.tripleVar t)).consequent
          (highTriple m t (m.tripleVar t)).consequent ∧
        m.Splits (m.tripleVar t) t.alternative (lowTriple m t (m.tripleVar t)).alternative
          (highTriple m t (m.tripleVar t)).alternative ∧
        (ofTriple m (lowTriple m t (m.tripleVar t))).size < c.size ∧
        (ofTriple m (highTriple m t (m.tripleVar t))).size < c.size := by
    intro t negated m hPlan hMiss
    rw [hPlan] at hFits
    obtain ⟨hft, hgt, hht, hWeight, -⟩ := hFits
    have hg := (findComputed_builds hc.sound t).grows
    rw [hMiss] at hg
    have hft' : m.IsDecision t.condition.index := ⟨hft.1, Nat.lt_of_lt_of_le hft.2 hg.size_le⟩
    obtain ⟨-, hsf, hsg, hsh, hVar⟩ := splits_triple hg.new.toWellFormed hft'
      (hgt.extends hg.toExtends) (hht.extends hg.toExtends)
    obtain ⟨hlt₀, hlt₁⟩ := weight_split_lt hsf hsg hsh hVar
    rw [hWeight] at hlt₀ hlt₁
    exact ⟨hg.new, hsf, hsg, hsh, hlt₀, hlt₁⟩
  cases h with
  | instead hPlan =>
    rw [hPlan] at hFits
    obtain ⟨hf, hg, hh, hlt, -⟩ := hFits
    exact ⟨⟨hc.sound, hf, hg, hh⟩, hlt⟩
  | low hPlan hMiss =>
    obtain ⟨hs, hsf, hsg, hsh, hlt, -⟩ := hSplit hPlan hMiss
    exact ⟨⟨hs, hsf.holds_low, hsg.holds_low, hsh.holds_low⟩, hlt⟩
  | @high t negated m hPlan hMiss =>
    obtain ⟨hs, hsf, hsg, hsh, -, hlt⟩ := hSplit hPlan hMiss
    -- the high half runs on the manager that the low half leaves
    have hLow : (ofTriple m (lowTriple m t (m.tripleVar t))).Valid :=
      ⟨hs, hsf.holds_low, hsg.holds_low, hsh.holds_low⟩
    have hg := hLow.grows
    exact ⟨⟨hg.new, hsf.holds_high.extends hg.toExtends, hsg.holds_high.extends hg.toExtends,
      hsh.holds_high.extends hg.toExtends⟩, hlt⟩

/-- All calls made below a valid call are valid. -/
theorem Valid.of_reflTransGen {c c' : Call} (hc : c.Valid) (h : Relation.ReflTransGen Makes c c') :
    c'.Valid := by
  induction h with
  | refl => exact hc
  | tail _ hMakes ih => exact (ih.makes hMakes).1

/-- The calls of a valid call come to an end. -/
theorem acc_of_valid {c : Call} (hc : c.Valid) : Acc (fun c' c => Makes c c') c := by
  induction hk : c.size using Nat.strongRecOn generalizing c with
  | ind k ih =>
    refine ⟨c, fun c' hMakes => ?_⟩
    obtain ⟨hc', hlt⟩ := hc.makes hMakes
    exact ih _ (hk ▸ hlt) hc' rfl

/-- An entry of the table of a valid call's manager is what `ite` answers there for its key. -/
theorem Valid.ite_eq {c : Call} {t : Triple} {e : Edge} (hc : c.Valid)
    (hMem : some (t, e) ∈ c.manager.computed.slots) :
    (ite t.condition t.consequent t.alternative c.manager).1 = e := by
  have ht := hc.sound.computed t e hMem
  have hb := ite_builds hc.sound ht.condition.means ht.consequent.means ht.alternative.means
  have he := ht.result.grows hb.grows
  refine eq_of_eval_eq hb.grows.new.toWellFormed hb.result.holds he.holds fun a => ?_
  rw [hb.result.eval_eq, he.eval_eq]
  rfl

end Call

/-! ## Calls made by an operation -/

/-- A quantification under way: the manager, the function, and the memo. -/
structure Quantifying where
  manager : Manager
  function : Edge
  memo : QuantifierMemo

namespace Quantifying

/-- The result of a quantification, the memo it leaves, and the manager. -/
def result (vs : Std.HashSet Nat) (q : Quantifying) : (Edge × QuantifierMemo) × Manager :=
  existsUpTo vs (q.function.index + 1) q.function q.memo q.manager

/-- The low child of the function, with which a quantification goes on. -/
def low (q : Quantifying) : Quantifying :=
  ⟨q.manager, q.manager.low q.function, q.memo⟩

/-- The high child of the function, after the low one has been treated. -/
def high (vs : Std.HashSet Nat) (q : Quantifying) : Quantifying :=
  ⟨(q.low.result vs).2, q.manager.high q.function, (q.low.result vs).1.2⟩

/-- The calls of `ite` that a quantification makes: those for its children, and a disjunction if the
variable of the function is quantified. -/
inductive Makes (vs : Std.HashSet Nat) : Quantifying → Call → Prop
  | low {q : Quantifying} {c : Call} (hTerm : q.function.isTerminal = false)
      (hMemo : q.memo[q.function]? = none) (h : Makes vs q.low c) : Makes vs q c
  | high {q : Quantifying} {c : Call} (hTerm : q.function.isTerminal = false)
      (hMemo : q.memo[q.function]? = none) (h : Makes vs (q.high vs) c) : Makes vs q c
  | join {q : Quantifying} (hTerm : q.function.isTerminal = false)
      (hMemo : q.memo[q.function]? = none)
      (hv : vs.contains (q.manager.topVar q.function) = true) :
      Makes vs q ⟨((q.high vs).result vs).2, (q.low.result vs).1.1, .one,
        ((q.high vs).result vs).1.1⟩

/-- A quantification on a sound manager with a right memo. -/
structure Valid (vs : Std.HashSet Nat) (q : Quantifying) : Prop where
  sound : q.manager.Sound
  holds : q.manager.Holds q.function
  memo : MemoSound (· ∈ vs) q.manager q.memo

theorem Valid.builds {vs : Std.HashSet Nat} {q : Quantifying} (hq : q.Valid vs) :
    Builds q.manager (existsUpTo vs (q.function.index + 1) q.function q.memo) fun m' r =>
      m'.Means r.1 (somewhere (· ∈ vs) fun a => q.manager.eval a q.function) ∧
        MemoSound (· ∈ vs) m' r.2 :=
  existsUpTo_builds vs _ hq.sound hq.holds (Nat.lt_succ_self _) hq.memo

/-- The two halves of a quantification are valid. -/
theorem Valid.halves {vs : Std.HashSet Nat} {q : Quantifying} (hq : q.Valid vs)
    (hTerm : q.function.isTerminal = false) : q.low.Valid vs ∧ (q.high vs).Valid vs := by
  have hd : q.manager.IsDecision q.function.index := by
    refine hq.holds.cases.resolve_left fun h1 => ?_
    rw [Edge.isTerminal_iff.mpr h1] at hTerm
    cases hTerm
  have hLow : q.low.Valid vs := ⟨hq.sound, (hq.sound.toWellFormed.low_spec hd).1, hq.memo⟩
  have hb := hLow.builds
  exact ⟨hLow, hb.grows.new, (hq.sound.toWellFormed.high_spec hd).1.extends hb.grows.toExtends,
    hb.result.2⟩

/-- The calls that a valid quantification makes are valid. -/
theorem Valid.makes {vs : Std.HashSet Nat} {q : Quantifying} {c : Call} (hq : q.Valid vs)
    (h : Makes vs q c) : c.Valid := by
  induction h with
  | low hTerm _ _ ih => exact ih (hq.halves hTerm).1
  | high hTerm _ _ ih => exact ih (hq.halves hTerm).2
  | join hTerm _ _ =>
    obtain ⟨hLow, hHigh⟩ := hq.halves hTerm
    have hbl := hLow.builds
    have hbh := hHigh.builds
    exact ⟨hbh.grows.new, hbl.result.1.holds.extends hbh.grows.toExtends,
      hbh.grows.new.holds_one, hbh.result.1.holds⟩

end Quantifying

/-- The calls of `ite` that an operation makes itself. -/
inductive Operation.Makes (m : Manager) : Operation → Call → Prop
  | ite (f g h : Edge) : Makes m (.ite f g h) ⟨m, f, g, h⟩
  | and (f g : Edge) : Makes m (.and f g) ⟨m, f, g, .zero⟩
  | or (f g : Edge) : Makes m (.or f g) ⟨m, f, .one, g⟩
  | xor (f g : Edge) : Makes m (.xor f g) ⟨m, f, -g, g⟩
  | iff (f g : Edge) : Makes m (.iff f g) ⟨m, f, g, -g⟩
  | imply (f g : Edge) : Makes m (.imply f g) ⟨m, f, g, .one⟩
  | existsOver {vs : List Nat} {f : Edge} {c : Call} (hne : vs ≠ [])
      (h : Quantifying.Makes (.ofList vs) ⟨m, f, {}⟩ c) : Makes m (.existsOver vs f) c
  | forallOver {vs : List Nat} {f : Edge} {c : Call} (hne : vs ≠ [])
      (h : Quantifying.Makes (.ofList vs) ⟨m, -f, {}⟩ c) : Makes m (.forallOver vs f) c

/-- The calls that an allowed operation makes on a sound manager are valid. -/
theorem Operation.valid_of_makes {m : Manager} {op : Operation} {c : Call} (hs : m.Sound)
    (hop : op.Allowed m) (h : op.Makes m c) : c.Valid := by
  have hEmpty : ∀ vs : Std.HashSet Nat, MemoSound (· ∈ vs) m {} := by
    intro vs f e hfe
    simp at hfe
  cases h with
  | ite => exact ⟨hs, hop.1, hop.2.1, hop.2.2⟩
  | and => exact ⟨hs, hop.1, hop.2, hs.holds_zero⟩
  | or => exact ⟨hs, hop.1, hs.holds_one, hop.2⟩
  | xor => exact ⟨hs, hop.1, hop.2.neg, hop.2⟩
  | iff => exact ⟨hs, hop.1, hop.2, hop.2.neg⟩
  | imply => exact ⟨hs, hop.1, hop.2, hs.holds_one⟩
  | @existsOver vs f _ _ h =>
    have hq : Quantifying.Valid (.ofList vs) ⟨m, f, {}⟩ := ⟨hs, hop, hEmpty _⟩
    exact hq.makes h
  | @forallOver vs f _ _ h =>
    have hq : Quantifying.Valid (.ofList vs) ⟨m, -f, {}⟩ :=
      ⟨hs, Manager.Holds.neg hop, hEmpty _⟩
    exact hq.makes h

/-! ## What operations do -/

/-- The function of the edge that a building step answers, in the manager that it leaves. -/
def resultOn (step : Build Edge) (m : Manager) (a : Assignment) : Bool :=
  (step m).2.eval a (step m).1

/-- **Operations compute what they name and disturb nothing.** On a reached manager the calls of an
if-then-else end, and its result obeys the recursion without a bound; every operation has the
function its name says; edges held before an operation are held after it, with the same function;
and every entry of the computed table that a call made by an operation, however deep, can read is
the if-then-else of its key. -/
theorem reached_operations {m : Manager} (hm : Reached m) {f g h : Edge} (hf : m.Holds f)
    (hg : m.Holds g) (hh : m.Holds h) (vs : List Nat) :
    (Acc (fun c' c => Call.Makes c c') ⟨m, f, g, h⟩ ∧ ite f g h m = iteStep ite f g h m) ∧
    (∀ a, resultOn (ite f g h) m a = if m.eval a f then m.eval a g else m.eval a h) ∧
    (∀ a, resultOn (and f g) m a = (m.eval a f && m.eval a g)) ∧
    (∀ a, resultOn (or f g) m a = (m.eval a f || m.eval a g)) ∧
    (∀ a, resultOn (xor f g) m a = (m.eval a f ^^ m.eval a g)) ∧
    (∀ a, resultOn (iff f g) m a = (m.eval a f == m.eval a g)) ∧
    (∀ a, resultOn (imply f g) m a = (!m.eval a f || m.eval a g)) ∧
    (∀ a, resultOn (existsOver vs f) m a = true ↔
      ∃ b : Assignment, (∀ v, v ∉ vs → b v = a v) ∧ m.eval b f = true) ∧
    (∀ a, resultOn (forallOver vs f) m a = true ↔
      ∀ b : Assignment, (∀ v, v ∉ vs → b v = a v) → m.eval b f = true) ∧
    (∀ op : Operation, op.Allowed m → ∀ e, m.Holds e →
      (op.run m).2.Holds e ∧ ∀ a, (op.run m).2.eval a e = m.eval a e) ∧
    (∀ op : Operation, op.Allowed m → ∀ c c', op.Makes m c →
      Relation.ReflTransGen Call.Makes c c' → ∀ t e, some (t, e) ∈ c'.manager.computed.slots →
        c'.manager.IsIte t e ∧ (ite t.condition t.consequent t.alternative c'.manager).1 = e) := by
  have hs := hm.sound
  have hCall : Call.Valid ⟨m, f, g, h⟩ := ⟨hs, hf, hg, hh⟩
  refine ⟨⟨Call.acc_of_valid hCall, ite_eq_iteStep hs hf hg hh⟩, ?_, ?_, ?_, ?_, ?_, ?_, ?_, ?_, ?_,
    ?_⟩
  · exact (ite_builds hs hf.means hg.means hh.means).result.eval_eq
  · exact (and_builds hs hf.means hg.means).result.eval_eq
  · exact (or_builds hs hf.means hg.means).result.eval_eq
  · exact (xor_builds hs hf.means hg.means).result.eval_eq
  · exact (iff_builds hs hf.means hg.means).result.eval_eq
  · exact (imply_builds hs hf.means hg.means).result.eval_eq
  · intro a
    rw [resultOn, (existsOver_builds vs hs hf.means).result.eval_eq]
    exact somewhere_eq_true
  · intro a
    rw [resultOn, (forallOver_builds vs hs hf.means).result.eval_eq]
    exact everywhere_eq_true
  · intro op hop e he
    have hGrows := (Operation.run_builds hs hop).grows
    exact ⟨he.extends hGrows.toExtends, eval_extends hGrows.old.toWellFormed
      hGrows.new.toWellFormed hGrows.toExtends he⟩
  · intro op hop c c' hMakes hBelow t e hMem
    have hc' := (Operation.valid_of_makes hs hop hMakes).of_reflTransGen hBelow
    exact ⟨hc'.sound.computed t e hMem, hc'.ite_eq hMem⟩

/-- The disjunction of two stored variables over the first one. -/
theorem reached_operations_twoVariables :
    Reached twoVariables ∧ twoVariables.Holds (.ofIndex 2) ∧ twoVariables.Holds (.ofIndex 3) ∧
      twoVariables.Holds .zero ∧
      (∀ a, resultOn (or (.ofIndex 2) (.ofIndex 3)) twoVariables a =
        (twoVariables.eval a (.ofIndex 2) || twoVariables.eval a (.ofIndex 3))) ∧
      (∀ a, resultOn (existsOver [1] (.ofIndex 2)) twoVariables a = true ↔
        ∃ b : Assignment, (∀ v, v ∉ [1] → b v = a v) ∧
          twoVariables.eval b (.ofIndex 2) = true) := by
  have h2 : twoVariables.Holds (.ofIndex 2) := holds_twoVariables (by decide) (by decide)
  have h3 : twoVariables.Holds (.ofIndex 3) := holds_twoVariables (by decide) (by decide)
  have h0 : twoVariables.Holds .zero := holds_twoVariables (by decide) (by decide)
  obtain ⟨-, -, -, hor, -, -, -, hExists, -⟩ :=
    reached_operations reached_twoVariables h2 h3 h0 [1]
  exact ⟨reached_twoVariables, h2, h3, h0, hor, hExists⟩

end StateSpace.Diagram
