import StateSpace.Proofs.Circuit.Meaning
import StateSpace.Proofs.Diagram.Path
import StateSpace.Solver.ByDiagram

/-!
# The solver by diagrams decides

The function of a formula is its truth, and equal functions are equal edges, so a formula can be
satisfied unless its function is the constant false. A satisfying path is an assignment of decision
variables, and the values that its bits spell make the formula true. What has no circuit is not
decided, and nothing else (`byDiagram_decides`).
-/

namespace StateSpace

open Circuit Diagram Environment

/-! ## Values and models -/

/-- The number that a value stands for; truth values are 0 and 1, and reals have names. -/
def Value.number [Reals] : Value → Int
  | .bool b => truthValue b
  | .int n _ => n
  | .real text t => t.ifReal (fun p => Reals.round p (Reals.constant p text)) 0

theorem Value.type_ofBits (n : Nat) (t : ValueType) : (ofBits n t).type = t := by
  cases t <;> rfl

/-- The bits of a value spell a number that is wrapped to its type. -/
theorem Value.number_ofBits [Reals] (n : Nat) (t : ValueType) : (ofBits n t).number = t.wrap n := by
  cases t with
  | bool =>
    have hMod : ((n % 2 : Nat) : Int) = (n : Int) % 2 := by omega
    rcases Nat.mod_two_eq_zero_or_one n with h | h <;>
      simp [ofBits, number, truthValue, ValueType.wrap, ValueType.isSigned, ValueType.modulus,
        ValueType.width?, h, ← hMod]
  | signed w | unsigned w => rfl
  | real p => rfl

/-- The environment of a valuation; variables without a value are zero. -/
def Valuation.environment [Reals] (model : Valuation) : Environment :=
  fun x =>
    match model[x]? with
    | some v => v.number
    | none => 0

/-- A valuation that binds exactly the free variables of a formula, each to a value in the range of
its own type, and makes the formula true. -/
structure Valuation.IsModel [Reals] (model : Valuation) (e : Expr) : Prop where
  mem_iff : ∀ x : Variable, x ∈ model ↔ x ∈ e.freeVariables
  typed : ∀ (x : Variable) (v : Value), model[x]? = some v →
    v.type = x.type ∧ x.type.hold v.number = v.number
  holds : e.holds model.environment = true

namespace ByDiagram

variable {vs : Finset Variable} {s s' : Encoder} {e : Expr} {f : Edge} {trueBits : List Nat}

theorem spell_eq (trueBits ixs : List Nat) :
    spell trueBits ixs = value (ixs.map fun v => trueBits.contains v) := by
  induction ixs with
  | nil => rfl
  | cons v ixs ih =>
    have hCons : spell trueBits (v :: ixs) =
        2 * spell trueBits ixs + if trueBits.contains v then 1 else 0 := rfl
    rw [hCons, ih, List.map_cons, value_cons, Nat.add_comm]
    cases trueBits.contains v <;> rfl

/-- Reading a model asks no new variables if all of them have slots. -/
theorem readModel_eq_ok {xs : List Variable} (trueBits : List Nat) (model : Valuation)
    (hKnown : ∀ x ∈ xs, ∃ n slot, x.type.width? = some n ∧ s.slots[x]? = some slot) :
    ∃ model', readModel trueBits xs model s = .ok model' s ∧ ∀ x, model'[x]? =
      if x ∈ xs then some (.ofBits (value (bitsOf s.slots (fun v => trueBits.contains v) x)) x.type)
      else model[x]? := by
  induction xs generalizing model with
  | nil => exact ⟨model, rfl, by simp⟩
  | cons y ys ih =>
    obtain ⟨n, slot, hn, hSlot⟩ := hKnown y List.mem_cons_self
    obtain ⟨model', hRun, hGet⟩ := ih
      (model.insert y (.ofBits (spell trueBits ((List.range n).map (bitIndex slot))) y.type))
      fun x hx => hKnown x (List.mem_cons_of_mem y hx)
    refine ⟨model', ?_, fun x => ?_⟩
    · simp only [readModel, Bind.bind, EStateM.bind, indicesOf_eq_ok hn hSlot]
      exact hRun
    · rw [hGet, Std.TreeMap.getElem?_insert]
      by_cases hx : x ∈ ys
      · simp [hx]
      · by_cases hxy : x = y
        · subst hxy
          simp [spell_eq, bitsOf_eq hn hSlot, Function.comp_def]
        · have hne : compare y x ≠ .eq := fun h => hxy (Std.LawfulEqOrd.eq_of_compare h).symm
          simp [hx, hxy, hne]

/-! ## Verdicts and models -/

/-- The constant false is the function of the formulas that cannot be satisfied. -/
theorem eq_zero_iff [Reals] (h : Decides s e f) (hs : s.Sound vs) (hvs : vs.card ≤ slotCount)
    (hMem : ∀ x, e.Free x → x ∈ vs) (hEnc : e.Encodable) :
    f = .zero ↔ ∀ ρ, e.holds ρ = false := by
  constructor
  · rintro rfl ρ
    obtain ⟨a, ha⟩ := exists_carries (hs.apart hvs) hEnc h.known ρ
    rw [← h.eval_eq hs hMem ha, Manager.eval_zero]
  · intro hNone
    refine Manager.eq_of_eval_eq hs.diagram.toWellFormed h.means.holds hs.diagram.holds_zero
      fun a => ?_
    rw [h.means.eval_eq, hNone, Manager.eval_zero]

/-- The values that a satisfying assignment of decision variables spells are a model. -/
theorem isModel_of_bits [Reals] {model : Valuation} (h : Decides s e f) (hEnc : e.Encodable)
    (hTrue : s.diagram.eval (fun v => trueBits.contains v) f = true)
    (hGet : ∀ x, model[x]? = if x ∈ e.freeVariables then
      some (.ofBits (value (bitsOf s.slots (fun v => trueBits.contains v) x)) x.type) else none) :
    model.IsModel e := by
  have hHeld : ∀ x, e.Free x → ∀ n, x.type.hold (x.type.wrap n) = x.type.wrap n := by
    intro x hx n
    rw [ValueType.hold_eq_wrap (hEnc _ (Expr.var_mem_parts hx))]
    exact x.type.fits_wrap n
  refine ⟨fun x => ?_, fun x v hv => ?_, ?_⟩
  · rw [Std.TreeMap.mem_iff_isSome_getElem?, hGet]
    split <;> simp [*]
  · rw [hGet] at hv
    split at hv
    · next hx =>
      cases hv
      rw [Value.type_ofBits, Value.number_ofBits]
      exact ⟨rfl, hHeld x (Expr.mem_freeVariables.mp hx) _⟩
    · cases hv
  · rw [h.means.eval_eq, Expr.holds] at hTrue
    rw [Expr.holds, ← hTrue, e.eval_congr fun x hx => ?_]
    have hx' := hGet x
    rw [if_pos (Expr.mem_freeVariables.mpr hx)] at hx'
    have hNumber : model.environment x =
        x.type.wrap (decode s.slots (fun v => trueBits.contains v) x) := by
      rw [Valuation.environment, hx']
      exact Value.number_ofBits _ _
    rw [Environment.get, hNumber, hHeld x hx, Environment.get,
      ValueType.hold_eq_wrap (hEnc _ (Expr.var_mem_parts hx))]

/-- The verdict on a formula, once its function is known. -/
def verdict (f : Edge) : Verdict :=
  if f = .zero then .unsat else .sat

theorem verdict_eq_unsat : verdict f = .unsat ↔ f = .zero := by
  unfold verdict
  split <;> simp [*]

theorem verdict_eq_sat : verdict f = .sat ↔ f ≠ .zero := by
  unfold verdict
  split <;> simp [*]

theorem verdict_ne_dontKnow : verdict f ≠ .dontKnow := by
  unfold verdict
  split <;> nofun

theorem verdictOf_eq_ok (hRun : functionOf e s = .ok f s') :
    verdictOf e s = .ok (verdict f) s' := by
  simp only [verdictOf, Bind.bind, EStateM.bind, hRun]
  rfl

/-- An answer is read off a satisfying path, if there is one. -/
theorem answerOf_eq (hRun : functionOf e s = .ok f s') :
    answerOf e s = (match s'.diagram.satisfyingPath? f with
      | none => pure { verdict := .unsat }
      | some path => do
        let model ← readModel ((path.filter Prod.snd).map Prod.fst) e.freeVariables {}
        pure { verdict := .sat, model } : Encode Answer) s' := by
  simp only [answerOf, Bind.bind, EStateM.bind, hRun]
  rfl

/-- The answer has the same verdict, and a model of the formula if there is one. -/
theorem answerOf_eq_ok [Reals] (hRun : functionOf e s = .ok f s') (h : Decides s' e f)
    (hs : s'.Sound vs) (hEnc : e.Encodable) :
    ∃ answer, answerOf e s = .ok answer s' ∧ answer.verdict = verdict f ∧
      (answer.verdict = .sat → answer.model.IsModel e) := by
  rw [answerOf_eq hRun]
  cases hPath : s'.diagram.satisfyingPath? f with
  | none =>
    have hZero := Manager.satisfyingPath?_eq_none_iff.mp hPath
    exact ⟨{ verdict := .unsat }, rfl, (verdict_eq_unsat.mpr hZero).symm, nofun⟩
  | some path =>
    have hne : f ≠ .zero := fun hZero => by
      rw [Manager.satisfyingPath?_eq_none_iff.mpr hZero] at hPath
      cases hPath
    have hTrue := Manager.eval_onPath hs.diagram.toWellFormed h.means.holds hPath
    obtain ⟨model, hRead, hGet⟩ :=
      readModel_eq_ok ((path.filter Prod.snd).map Prod.fst) {} (exists_width_slot hEnc h.known)
    refine ⟨{ verdict := .sat, model }, ?_, (verdict_eq_sat.mpr hne).symm, fun _ => ?_⟩
    · simp only [Bind.bind, EStateM.bind, hRead]
      rfl
    · refine isModel_of_bits h hEnc hTrue fun x => ?_
      rw [hGet, Std.TreeMap.getElem?_emptyc]

theorem verdictOf_eq_error {cause : Unsupported} (hRun : functionOf e s = .error cause s') :
    verdictOf e s = .error cause s' := by
  simp only [verdictOf, Bind.bind, EStateM.bind, hRun]

theorem answerOf_eq_error {cause : Unsupported} (hRun : functionOf e s = .error cause s') :
    answerOf e s = .error cause s' := by
  simp only [answerOf, Bind.bind, EStateM.bind, hRun]

end ByDiagram

/-! ## The solver -/

section Unfolding

variable {bits : Nat} (hBits : bits ≤ ComputedTable.maxBits) (e : Expr) (tally : Tally)

include hBits

theorem byDiagram_decide_eq : ((Solver.byDiagram bits).decide e tally).1 =
    (ByDiagram.onFresh bits (ByDiagram.verdictOf e)).1.getD .dontKnow := by
  simp only [Solver.byDiagram, if_neg (Nat.not_lt.mpr hBits)]

theorem byDiagram_solve_eq : ((Solver.byDiagram bits).solve e tally).1 =
    (ByDiagram.onFresh bits (ByDiagram.answerOf e)).1.getD { verdict := .dontKnow } := by
  simp only [Solver.byDiagram, if_neg (Nat.not_lt.mpr hBits)]

end Unfolding

/-- **The solver decides.** On a formula of at most `2 ^ 20` variables, with any table size that is
not refused: the verdict is `sat` if some values of the variables make the formula true, `unsat` if
none do, and `dontKnow` exactly if the formula is not encodable. The answer has the same verdict,
and a model of the formula if there is one. -/
theorem byDiagram_decides [Reals] {e : Expr} (he : e.occurring.toFinset.card ≤ slotCount)
    {bits : Nat} (hBits : bits ≤ ComputedTable.maxBits) (tally : Tally) :
    let verdict := ((Solver.byDiagram bits).decide e tally).1
    let answer := ((Solver.byDiagram bits).solve e tally).1
    (verdict = .sat ↔ (e.type = .bool ∧ e.Encodable) ∧ ∃ ρ, e.holds ρ = true) ∧
    (verdict = .unsat ↔ (e.type = .bool ∧ e.Encodable) ∧ ∀ ρ, e.holds ρ = false) ∧
    (verdict = .dontKnow ↔ ¬(e.type = .bool ∧ e.Encodable)) ∧
    answer.verdict = verdict ∧ (answer.verdict = .sat → answer.model.IsModel e) := by
  intro verdict answer
  have hMem : ∀ x ∈ e.occurring, x ∈ e.occurring.toFinset := fun x hx => List.mem_toFinset.mpr hx
  have hSpec := functionOf_encodes he hMem (sound_ofManager (sound_empty bits))
  have hVerdict := byDiagram_decide_eq hBits e tally
  have hAnswer := byDiagram_solve_eq hBits e tally
  rw [← ValueType.isBool_iff]
  cases hRun : functionOf e (ByDiagram.freshEncoder bits) with
  | error cause s =>
    obtain ⟨hNot, -⟩ := hSpec.of_eq_error hRun
    rw [ByDiagram.onFresh, ByDiagram.verdictOf_eq_error hRun] at hVerdict
    rw [ByDiagram.onFresh, ByDiagram.answerOf_eq_error hRun] at hAnswer
    simp [verdict, answer, hVerdict, hAnswer, hNot]
  | ok f s =>
    obtain ⟨hok, hg, hf⟩ := hSpec.of_eq_ok hRun
    obtain ⟨found, hFound, hSame, hModel⟩ := ByDiagram.answerOf_eq_ok hRun hf hg.new hok.2
    rw [ByDiagram.onFresh, ByDiagram.verdictOf_eq_ok hRun] at hVerdict
    rw [ByDiagram.onFresh, hFound] at hAnswer
    have hZero := ByDiagram.eq_zero_iff hf hg.new he
      (fun x hx => hMem x (Expr.mem_occurring hx)) hok.2
    have hSome : f ≠ .zero ↔ ∃ ρ, e.holds ρ = true := by
      simp [hZero]
    have hv : verdict = ByDiagram.verdict f := hVerdict
    have ha : answer = found := hAnswer
    rw [hv, ha, ByDiagram.verdict_eq_sat, ByDiagram.verdict_eq_unsat, hSome, hZero]
    exact ⟨(and_iff_right hok).symm, (and_iff_right hok).symm,
      iff_of_false ByDiagram.verdict_ne_dontKnow (not_not_intro hok), hSame, hModel⟩

open scoped Reals

/-- A free and a bound variable of one name: `x` is negative, and some `x` is above `y`. -/
def shadowExample : Expr :=
  .logical .and (.compare .lt (.var ⟨"x", .signed .w8⟩) (.const (.int 0 (.signed .w8))))
    (.quantified .existential [⟨"x", .signed .w8⟩]
      (.compare .lt (.var ⟨"y", .signed .w8⟩) (.var ⟨"x", .signed .w8⟩)))

/-- The formula is decided even with the smallest table, and the answer brings a model. -/
theorem byDiagram_decides_shadowExample :
    shadowExample.occurring.toFinset.card ≤ slotCount ∧ 0 ≤ ComputedTable.maxBits ∧
    ((Solver.byDiagram 0).decide shadowExample {}).1 = .sat ∧
    ((Solver.byDiagram 0).solve shadowExample {}).1.model.IsModel shadowExample := by
  have hCard : shadowExample.occurring.toFinset.card ≤ slotCount := by decide
  have hBits : 0 ≤ ComputedTable.maxBits := Nat.zero_le _
  obtain ⟨hSat, -, -, hSame, hModel⟩ := byDiagram_decides hCard hBits {}
  have hDecided := hSat.mpr ⟨by decide, fun x => if x.name = "x" then -1 else 0, by decide⟩
  exact ⟨hCard, hBits, hDecided, hModel (hSame.trans hDecided)⟩

end StateSpace
