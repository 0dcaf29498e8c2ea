import StateSpace.Proofs.Circuit.Encoder

/-!
# Encoding keeps the meaning

By induction over expressions: an expression is encoded exactly if it is encodable, and its word
renders its value in the environment of each assignment (`wordOf_encodes`).
-/

namespace StateSpace.Circuit

open StateSpace.Diagram Manager Environment

/-! ## Encoded expressions -/

/-- The word `w` renders the value of `e`, all of whose free variables have slots. -/
structure Encoded [Reals] (s : Encoder) (e : Expr) (w : Word) : Prop where
  known : ∀ x, e.Free x → x ∈ s.slots
  renders : Renders s.diagram w e.type fun a => e.eval (decode s.slots a)

/-- The edge `f` is the truth of `e`, all of whose free variables have slots. -/
structure Decides [Reals] (s : Encoder) (e : Expr) (f : Edge) : Prop where
  known : ∀ x, e.Free x → x ∈ s.slots
  means : s.diagram.Means f fun a => e.holds (decode s.slots a)

variable {vs : Finset Variable} {s s' : Encoder} {e l r : Expr} {w v : Word} {f g : Edge}

/-- New slots do not change the values of variables that had slots before. -/
theorem eval_decode_grows [Reals] (hg : s.Grows vs s') (hKnown : ∀ x, e.Free x → x ∈ s.slots)
    (a : Assignment) : e.eval (decode s'.slots a) = e.eval (decode s.slots a) := by
  refine e.eval_congr fun x hx => congrArg x.type.hold ?_
  have hSlot := Std.HashMap.getElem?_eq_some_getElem (hKnown x hx)
  unfold decode bitsOf
  rw [hSlot, hg.slots hSlot]

theorem Encoded.grows [Reals] (h : Encoded s e w) (hg : s.Grows vs s') : Encoded s' e w :=
  ⟨fun x hx => hg.mem (h.known x hx),
    (h.renders.grows hg.diagram).congr fun a => (eval_decode_grows hg h.known a).symm⟩

theorem Decides.grows [Reals] (h : Decides s e f) (hg : s.Grows vs s') : Decides s' e f :=
  ⟨fun x hx => hg.mem (h.known x hx),
    (h.means.grows hg.diagram).congr fun a => by
      rw [Expr.holds, Expr.holds, eval_decode_grows hg h.known]⟩

/-- A step that gives out no slots may speak of the environments as they were before it. -/
theorem encoded_of_slots_eq [Reals] (hSlots : s'.slots = s.slots)
    (hKnown : ∀ x, e.Free x → x ∈ s.slots)
    (h : Renders s'.diagram w e.type fun a => e.eval (decode s.slots a)) : Encoded s' e w := by
  rw [← hSlots] at hKnown h
  exact ⟨hKnown, h⟩

theorem Encoded.decides [Reals] (h : Encoded s e w) (he : e.type = .bool) :
    Decides s e (w.headD .zero) := by
  have hRenders := h.renders
  rw [he] at hRenders
  exact ⟨h.known, hRenders.truth⟩

theorem Encoded.isReal_eq_false [Reals] (h : Encoded s e w) : e.type.isReal = false :=
  ValueType.isReal_eq_false_iff.mpr ⟨_, h.renders.width⟩

/-! ## Operands -/

/-- Encoding an expression from any sound encoder succeeds exactly if it is encodable. -/
def EncodesExpr [Reals] (vs : Finset Variable) (e : Expr) : Prop :=
  ∀ ⦃s : Encoder⦄, s.Sound vs → Encodes vs s (wordOf e) e.Encodable fun s' w => Encoded s' e w

/-- A boolean expression with a word has a function that decides it. -/
theorem EncodesExpr.formula [Reals] (h : EncodesExpr vs e) (hs : s.Sound vs) :
    Encodes vs s (formulaOf e (wordOf e)) (e.type.isBool = true ∧ e.Encodable)
      fun s' f => Decides s' e f := by
  unfold formulaOf
  split
  · next he =>
    have hBool : e.type.isBool = true := ValueType.isBool_iff.mpr he
    suffices hStep : Encodes vs s (wordOf e >>= fun bits => pure (bits.headD .zero)) e.Encodable
        fun s' f => Decides s' e f from hStep.iff (and_iff_right hBool).symm
    exact (h hs).bind_total fun s' w hg hw => .pure hg.new (hw.decides he)
  · next he =>
    exact (Encodes.throw hs).iff (iff_of_false id fun h => he (ValueType.isBool_iff.mp h.1))

section Operands

variable {α : Type} {ok : Prop} {R : Encoder → α → Prop}

/-- The words of two operands, one after the other. -/
theorem EncodesExpr.pair [Reals] {next : Word → Word → Encode α} (hl : EncodesExpr vs l)
    (hr : EncodesExpr vs r) (hs : s.Sound vs)
    (hNext : ∀ s' a b, s.Grows vs s' → Encoded s' l a → Encoded s' r b →
      Encodes vs s' (next a b) ok R) :
    Encodes vs s (wordOf l >>= fun a => wordOf r >>= fun b => next a b)
      (ok ∧ l.Encodable ∧ r.Encodable) R := by
  suffices h : Encodes vs s (wordOf l >>= fun a => wordOf r >>= fun b => next a b)
      (l.Encodable ∧ r.Encodable ∧ ok) R from h.iff (by tauto)
  refine (hl hs).bind fun s₁ a hg ha => ?_
  refine (hr hg.new).bind fun s₂ b hg' hb => ?_
  exact hNext s₂ a b (hg.trans hg') (ha.grows hg') hb

/-- A step that is refused under a condition. -/
theorem guard_encodes {c : Prop} [Decidable c] {cause : Unsupported} {next : Unit → Encode α}
    (hs : s.Sound vs) (hNext : ¬ c → Encodes vs s (next ()) ok R) :
    Encodes vs s (if c then throw cause >>= next else next ()) (¬ c ∧ ok) R := by
  split
  · next hc =>
    have hThrow : Encodes vs s (throw cause : Encode Unit) False fun _ _ => False := .throw hs
    have hRest : Encodes vs s (throw cause >>= next) (False ∧ ok) R :=
      hThrow.bind fun _ _ _ h => h.elim
    exact hRest.iff (by simp [hc])
  · next hc => exact (hNext hc).iff (by simp [hc])

end Operands

theorem Encoded.length_ne_iff [Reals] (hl : Encoded s l w) (hr : Encoded s r v) :
    w.length ≠ v.length ↔ l.type.width? ≠ r.type.width? := by
  rw [hl.renders.width, hr.renders.width, ne_eq, ne_eq, Option.some.injEq]

/-- The right operand, read at the type of the left one. -/
theorem Encoded.retype [Reals] (hl : Encoded s l w) (hr : Encoded s r v)
    (hLen : ¬ w.length ≠ v.length) :
    Renders s.diagram v l.type fun a => l.type.wrap (r.eval (decode s.slots a)) :=
  hr.renders.retype (hl.renders.width.trans (congrArg some (not_not.mp hLen)))

theorem connect_builds {m : Manager} {F G : Assignment → Bool} (op : Connective) (hs : m.Sound)
    (hf : m.Means f F) (hg : m.Means g G) :
    Builds m (connect op f g) fun m' e => m'.Means e fun a => op.eval (F a) (G a) := by
  cases op with
  | and => exact and_builds hs hf hg
  | or => exact or_builds hs hf hg
  | equiv => exact iff_builds hs hf hg
  | implies => exact imply_builds hs hf hg
  | xor => exact xor_builds hs hf hg

/-! ## One case a constructor -/

-- The cases do not depend on each other, but each unfolds `wordOf`: its equations are made once,
-- before the cases ask for them side by side.
section

attribute [local simp] wordOf

end

/-- Constants have words, unless they are real. -/
theorem encodes_const [Reals] (c : Value) : EncodesExpr vs (.const c) := by
  intro s hs
  have hKnown : ∀ x, (Expr.const c).Free x → x ∈ s.slots := fun x hx => hx.elim
  have hIff := Expr.encodable_leaf (.const c) rfl
  cases c with
  | bool b =>
    rw [wordOf]
    refine (Encodes.pure hs ⟨hKnown, ?_⟩).iff (by simp [hIff, Expr.isObstacle])
    exact renders_truth (hs.diagram.means_constant b)
  | int n t =>
    rw [wordOf]
    suffices h : Encodes vs s (widthOf t >>= fun width => pure (constant (t.bits n) width))
        (t.isReal = false) fun s' w => Encoded s' (.const (.int n t)) w from h.iff hIff.symm
    refine (widthOf_encodes hs t).bind_total fun s' width hg hWidth => ?_
    refine .pure hg.new ⟨fun x hx => hx.elim, ?_⟩
    refine (renders_constant hg.new.diagram hWidth n).congr fun a => (Expr.eval_int ?_ n).symm
    exact ValueType.isReal_eq_false_iff.mpr ⟨width, hWidth⟩
  | real text t =>
    rw [wordOf]
    exact (Encodes.throw hs).iff (by simp [hIff, Expr.isObstacle])

theorem encodes_var [Reals] {x : Variable} (hx : x ∈ vs) : EncodesExpr vs (.var x) := by
  intro s hs
  rw [wordOf]
  refine ((variableWord_encodes hs hx).mono fun s' w _ hw => ?_).iff
    (Expr.encodable_leaf (.var x) rfl).symm
  exact ⟨fun y (hy : y = x) => hy ▸ hw.1, hw.2⟩

theorem encodes_not [Reals] (h : EncodesExpr vs e) : EncodesExpr vs (.not e) := by
  intro s hs
  rw [wordOf]
  suffices hStep : Encodes vs s (formulaOf e (wordOf e) >>= fun f => pure [-f])
      (e.type.isBool = true ∧ e.Encodable) fun s' w => Encoded s' (.not e) w from
    hStep.iff (by simp [Expr.encodable_unary (.not e) rfl, Expr.isObstacle])
  refine (h.formula hs).bind_total fun s' f hg hf => .pure hg.new ⟨hf.known, ?_⟩
  refine (renders_truth (hf.means.neg hg.new.diagram)).congr fun a => ?_
  simp [Expr.eval, Expr.holds]

/-- Connectives, from the functions of their operands. -/
theorem encodes_logical [Reals] (op : Connective) (hl : EncodesExpr vs l) (hr : EncodesExpr vs r) :
    EncodesExpr vs (.logical op l r) := by
  intro s hs
  rw [wordOf]
  suffices hStep : Encodes vs s _ ((l.type.isBool = true ∧ l.Encodable) ∧
      r.type.isBool = true ∧ r.Encodable) fun s' w => Encoded s' (.logical op l r) w from
    hStep.iff (by
      rw [Expr.encodable_binary (.logical op l r) rfl]
      simp [Expr.isObstacle]
      tauto)
  refine (hl.formula hs).bind fun s₁ f hg hf => ?_
  refine (hr.formula hg.new).bind_total fun s₂ g hg' hr => ?_
  have hf := hf.grows hg'
  refine (Encodes.lift hg'.new (connect_builds op hg'.new.diagram hf.means hr.means)).bind_total
    fun s₃ e hg'' he => .pure hg''.new ?_
  exact encoded_of_slots_eq he.1 (fun x hx => hx.elim (hf.known x) (hr.known x))
    (renders_truth he.2)

/-- A comparison is no obstacle if the widths agree and booleans are not put in order. -/
theorem isObstacle_compare_eq_false (op : Comparison) :
    (Expr.compare op l r).isObstacle = false ↔
      ¬ l.type.width? ≠ r.type.width? ∧ ¬ (isOrder op && l.type.isBool) = true := by
  have hOrder : [.lt, .le, .gt, .ge].contains op = isOrder op := by cases op <;> rfl
  simp only [Expr.isObstacle, hOrder, Bool.or_eq_false_iff, bne_eq_false_iff_eq, ne_eq, not_not]
  refine and_congr_right fun hWidth => ?_
  -- only truth values have a single bit
  have hBool : l.type.isBool = true → r.type.isBool = true := by
    intro hl
    rw [ValueType.isBool_iff.mp hl] at hWidth
    cases hr : r.type with
    | signed k | unsigned k => rw [hr] at hWidth; cases k <;> cases hWidth
    | bool => rfl
    | real p => rw [hr] at hWidth; cases hWidth
  cases hl : l.type.isBool <;> simp [hl] at hBool ⊢
  simp [hBool]

/-- Comparisons, from the words of their operands. -/
theorem encodes_compare [Reals] (op : Comparison) (hl : EncodesExpr vs l) (hr : EncodesExpr vs r) :
    EncodesExpr vs (.compare op l r) := by
  intro s hs
  rw [wordOf, Expr.encodable_binary (.compare op l r) rfl, isObstacle_compare_eq_false]
  refine hl.pair hr hs fun s₂ a b hg ha hb => ?_
  dsimp only
  rw [← ha.length_ne_iff hb]
  refine guard_encodes hg.new fun hLen => ?_
  suffices h : Encodes vs s₂ _ (¬ (isOrder op && l.type.isBool) = true ∧ True)
      fun s' w => Encoded s' (.compare op l r) w from h.iff (and_iff_left trivial)
  refine guard_encodes hg.new fun _ => ?_
  refine (Encodes.lift hg.new (compareWords_renders op hg.new.diagram ha.renders
    (ha.retype hb hLen))).bind_total fun s₃ e hg' he => .pure hg'.new ?_
  exact encoded_of_slots_eq he.1 (fun x hx => hx.elim (ha.known x) (hb.known x))
    ((renders_truth he.2).congr fun _ =>
      (Expr.eval_compare op ha.isReal_eq_false hb.isReal_eq_false).symm)

/-- Arithmetic, from the words of its operands. -/
theorem encodes_arith [Reals] (op : Arithmetic) (hl : EncodesExpr vs l) (hr : EncodesExpr vs r) :
    EncodesExpr vs (.arith op l r) := by
  intro s hs
  have hObstacle : (Expr.arith op l r).isObstacle = false ↔ ¬ l.type.width? ≠ r.type.width? := by
    simp [Expr.isObstacle]
  rw [wordOf, Expr.encodable_binary (.arith op l r) rfl, hObstacle]
  refine hl.pair hr hs fun s₂ a b hg ha hb => ?_
  dsimp only
  rw [← ha.length_ne_iff hb]
  suffices h : Encodes vs s₂ _ (¬ a.length ≠ b.length ∧ True)
      fun s' w => Encoded s' (.arith op l r) w from h.iff (and_iff_left trivial)
  refine guard_encodes hg.new fun hLen => ?_
  refine (Encodes.lift hg.new (calculate_renders op hg.new.diagram ha.renders
    (ha.retype hb hLen))).mono fun s₃ w _ hw => ?_
  exact encoded_of_slots_eq hw.1 (fun x hx => hx.elim (ha.known x) (hb.known x))
    (hw.2.congr fun _ => (Expr.eval_arith op ha.isReal_eq_false hb.isReal_eq_false).symm)

theorem isObstacle_bitwise_eq_false (op : Bitwise) :
    (Expr.bitwise op l r).isObstacle = false ↔
      bitConnective? op = none ∨ ¬ l.type.width? ≠ r.type.width? := by
  cases op <;> simp [Expr.isObstacle, bitConnective?]

variable [Reals]

/-- Operations on bits and shifts, from the words of their operands. -/
theorem encodes_bitwise (op : Bitwise) (hl : EncodesExpr vs l) (hr : EncodesExpr vs r) :
    EncodesExpr vs (.bitwise op l r) := by
  intro s hs
  rw [wordOf, Expr.encodable_binary (.bitwise op l r) rfl, isObstacle_bitwise_eq_false]
  refine hl.pair hr hs fun s₂ a b hg ha hb => ?_
  have hEncoded : ∀ s₃ w, s₂.Grows vs s₃ → s₃.slots = s₂.slots ∧
      Renders s₃.diagram w l.type (fun σ => op.eval l.type (l.eval (decode s₂.slots σ))
        (r.type.bits (r.eval (decode s₂.slots σ)))) → Encoded s₃ (.bitwise op l r) w :=
    fun s₃ w _ hw =>
      encoded_of_slots_eq hw.1 (fun x hx => hx.elim (ha.known x) (hb.known x))
        (hw.2.congr fun _ => (Expr.eval_bitwise op ha.isReal_eq_false hb.isReal_eq_false).symm)
  cases hop : bitConnective? op with
  | some connective =>
    dsimp only
    rw [← ha.length_ne_iff hb]
    suffices h : Encodes vs s₂ _ (¬ a.length ≠ b.length ∧ True)
        fun s' w => Encoded s' (.bitwise op l r) w from h.iff (by simp)
    refine guard_encodes hg.new fun hLen => ?_
    have hb' := hb.renders.spells
    rw [← not_not.mp hLen] at hb'
    exact (Encodes.lift hg.new (zipBits_renders hop hg.new.diagram ha.renders hb')).mono hEncoded
  | none =>
    dsimp only
    refine ((Encodes.lift hg.new (shift_renders hop hg.new.diagram ha.renders
      hb.renders.spells)).mono hEncoded).iff (by simp)

theorem encodes_negate (h : EncodesExpr vs e) : EncodesExpr vs (.negate e) := by
  intro s hs
  rw [wordOf, Expr.encodable_unary (.negate e) rfl]
  refine Encodes.iff ?_ (and_iff_right rfl).symm
  refine (h hs).bind_total fun s₁ a hg ha => ?_
  exact (Encodes.lift hg.new (negate_renders hg.new.diagram ha.renders)).mono
    fun s₂ w _ hw => encoded_of_slots_eq hw.1 ha.known
      (hw.2.congr fun _ => (Expr.eval_negate ha.isReal_eq_false).symm)

theorem encodes_complement (h : EncodesExpr vs e) : EncodesExpr vs (.complement e) := by
  intro s hs
  rw [wordOf, Expr.encodable_unary (.complement e) rfl]
  refine Encodes.iff ?_ (and_iff_right rfl).symm
  refine (h hs).bind_total fun s₁ a hg ha => ?_
  exact .pure hg.new ⟨ha.known, (ha.renders.complement hg.new.diagram).congr fun _ =>
    (Expr.eval_complement ha.isReal_eq_false).symm⟩

/-- Casts resize the word of their operand. -/
theorem encodes_cast (t : ValueType) (h : EncodesExpr vs e) : EncodesExpr vs (.cast t e) := by
  intro s hs
  rw [Expr.encodable_unary (.cast t e) rfl]
  by_cases ht : t = .bool
  · subst ht
    rw [wordOf]
    refine Encodes.iff ?_ (and_iff_right rfl).symm
    refine (h hs).bind_total fun s₁ a hg ha => ?_
    have hZero : Renders s₁.diagram (constant 0 a.length) e.type fun _ => 0 :=
      renders_of_spells ha.renders.width (fun _ => e.type.fits_zero)
        (spells_zero hg.new.diagram a.length) fun _ => by simp [ValueType.bits]
    refine (Encodes.lift hg.new (equal_renders hg.new.diagram ha.renders hZero)).bind_total
      fun s₂ f hg' hf => .pure hg'.new (encoded_of_slots_eq hf.1 ha.known ?_)
    refine (renders_truth (hf.2.neg hg'.new.diagram)).congr fun a => ?_
    simp [Expr.eval_cast (t := .bool) rfl ha.isReal_eq_false]
  · rw [wordOf]
    · refine (widthOf_encodes hs t).bind fun s₁ width hg hWidth => ?_
      refine (h hg.new).bind_total fun s₂ a hg' ha => .pure hg'.new ⟨ha.known, ?_⟩
      refine (ha.renders.resize hg'.new.diagram hWidth).congr fun a => ?_
      have hReal : t.isReal = false := ValueType.isReal_eq_false_iff.mpr ⟨width, hWidth⟩
      rw [Expr.eval_cast hReal ha.isReal_eq_false, if_neg ht]
    · exact ht

/-- Quantifiers run over the bits of their variables. -/
theorem encodes_quantified (hvs : vs.card ≤ slotCount) (q : Quantifier) {xs : List Variable}
    (hxs : ∀ x ∈ xs, x ∈ vs) (h : EncodesExpr vs e) : EncodesExpr vs (.quantified q xs e) := by
  intro s hs
  rw [wordOf, Expr.encodable_unary (.quantified q xs e) rfl]
  suffices hStep : Encodes vs s _ (xs.any (·.type.isReal) = false ∧ e.type.isBool = true ∧
      e.Encodable) fun s' w => Encoded s' (.quantified q xs e) w from
    hStep.iff (by simp [Expr.isObstacle, and_assoc])
  refine (flatMapM_indicesOf_encodes hs hxs).bind fun s₁ ixs hg hixs => ?_
  refine (h.formula hg.new).bind_total fun s₂ f hg' hf => ?_
  have hap := hg'.new.apart hvs
  have hixs := hixs.grows hg'
  have hBody := e.respects_eval
  have hDone : ∀ {F : Assignment → Bool} {step : Build Edge},
      (∀ a, truthValue (F a) = (Expr.quantified q xs e).eval (decode s₂.slots a)) →
      (Builds s₂.diagram step fun m' d => m'.Means d F) →
      Encodes vs s₂ (liftM step >>= fun d => pure [d]) True
        fun s' w => Encoded s' (.quantified q xs e) w := by
    intro F step hF hStep
    refine (Encodes.lift hg'.new hStep).bind_total fun s₃ d hg'' hd => .pure hg''.new ?_
    exact encoded_of_slots_eq hd.1 (fun x hx => hf.known x hx.2) ((renders_truth hd.2).congr hF)
  cases q with
  | existential =>
    refine hDone (fun a => ?_) (existsOver_builds ixs hg'.new.diagram hf.means)
    rw [Expr.eval, ← somewhere_decode hap hBody hixs]
    rfl
  | universal =>
    refine hDone (fun a => ?_) (forallOver_builds ixs hg'.new.diagram hf.means)
    rw [Expr.eval, ← everywhere_decode hap hBody hixs]
    rfl

/-- An expression is encoded exactly if it is encodable, and its word renders its value. -/
theorem wordOf_encodes (hvs : vs.card ≤ slotCount) (e : Expr) (he : ∀ x ∈ e.occurring, x ∈ vs) :
    EncodesExpr vs e := by
  induction e with
  | const c => exact encodes_const c
  | var x => exact encodes_var (he x List.mem_cons_self)
  | not e ih => exact encodes_not (ih he)
  | negate e ih => exact encodes_negate (ih he)
  | complement e ih => exact encodes_complement (ih he)
  | cast t e ih => exact encodes_cast t (ih he)
  | logical op l r ihl ihr =>
    have he := List.forall_mem_append.mp he
    exact encodes_logical op (ihl he.1) (ihr he.2)
  | compare op l r ihl ihr =>
    have he := List.forall_mem_append.mp he
    exact encodes_compare op (ihl he.1) (ihr he.2)
  | arith op l r ihl ihr =>
    have he := List.forall_mem_append.mp he
    exact encodes_arith op (ihl he.1) (ihr he.2)
  | bitwise op l r ihl ihr =>
    have he := List.forall_mem_append.mp he
    exact encodes_bitwise op (ihl he.1) (ihr he.2)
  | quantified q xs body ih =>
    have he := List.forall_mem_append.mp he
    exact encodes_quantified hvs q he.1 (ih he.2)

end StateSpace.Circuit
