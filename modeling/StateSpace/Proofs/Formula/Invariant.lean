import StateSpace.Formula.Parser

/-!
# What the readers of formulas keep

A text is read from its tokens up through the levels of precedence, and every step either makes an
operand from a token or combines operands. So a property of expressions that each way of combining
keeps is one of everything that is read (`Formula.Invariant.parseFormula`).

Real literals are kept as texts until they meet their type, and unary minus changes the text; so an
invariant also says what is known of these texts. Negation and connectives have boolean operands. An
equality or inequality whose left operand is boolean becomes a connective as well, but nothing is
known of the type of its right operand.
-/

namespace StateSpace

/-! ## Results of what may fail -/

/-- Whatever a computation returns, if it returns at all, has a property. -/
def Yields {ε α : Type} (P : α → Prop) (r : Except ε α) : Prop :=
  ∀ a, r = .ok a → P a

/-- A result that can be compared is one that was returned. -/
theorem eq_ok_of_toOption {ε α : Type} {r : Except ε α} {a : α} (h : r.toOption = some a) :
    r = .ok a := by
  cases r with
  | error e => cases h
  | ok b =>
    cases h
    rfl

namespace Yields

variable {ε ε' α β : Type} {P : α → Prop} {Q : β → Prop}

theorem ok {a : α} (h : P a) : Yields P (.ok a : Except ε α) := by
  intro b hb
  cases hb
  exact h

theorem error (e : ε) : Yields P (.error e : Except ε α) := by
  intro b hb
  cases hb

theorem bind {r : Except ε α} {f : α → Except ε β} (hr : Yields P r)
    (hf : ∀ a, P a → Yields Q (f a)) : Yields Q (r >>= f) := by
  cases r with
  | error e => exact error e
  | ok a => exact hf a (hr a rfl)

theorem mapError {r : Except ε α} (f : ε → ε') (hr : Yields P r) : Yields P (r.mapError f) := by
  cases r with
  | error e => exact error (f e)
  | ok a => exact ok (hr a rfl)

theorem mapM {f : α → Except ε β} (hf : ∀ a, Yields Q (f a)) (as : List α) :
    Yields (fun bs => ∀ b ∈ bs, Q b) (as.mapM f) := by
  induction as with
  | nil => exact ok (by simp)
  | cons a as ih =>
    rw [List.mapM_cons]
    refine (hf a).bind fun b hb => ih.bind fun bs hbs => ok ?_
    exact List.forall_mem_cons.mpr ⟨hb, hbs⟩

end Yields

namespace Formula

/-- A property of expressions that holds of variables in scope and of constants and is kept by all
operators, together with a property of the texts of real constants and one of the marks in the
text. -/
structure Invariant (scope : List Variable) where
  /-- The texts of real constants. -/
  Numeral : String → Prop
  /-- The marks that the text may hold. -/
  Admitted : Mark → Prop
  /-- The expressions. -/
  Formed : Expr → Prop
  literal : ∀ cs, Text.isReal cs = true → Numeral (String.ofList cs)
  whole : ∀ n : Int, Numeral (toString n)
  minus : ∀ text, Numeral text → Numeral ("-" ++ text)
  truth : ∀ b, Formed (.truth b)
  int : ∀ n t, t.isInteger = true → Formed (.const (.ofInt n t))
  real : ∀ text p, Numeral text → Formed (.const (.real text (.real p)))
  var : ∀ x ∈ scope, Formed (.var x)
  not : ∀ e, Formed e → e.type = .bool → Formed (.not e)
  negate : ∀ e, Formed e → Formed (.negate e)
  complement : ∀ e, Formed e → Formed (.complement e)
  cast : ∀ t e, Formed e → Formed (.cast t e)
  logical : ∀ op l r, Formed l → Formed r → l.type = .bool → r.type = .bool →
    Formed (.logical op l r)
  equality : Admitted (.comparison .eq) → ∀ l r, Formed l → Formed r → l.type = .bool →
    Formed (.logical .equiv l r)
  inequality : Admitted (.comparison .ne) → ∀ l r, Formed l → Formed r → l.type = .bool →
    Formed (.logical .xor l r)
  compare : ∀ op l r, Formed l → Formed r → Formed (.compare op l r)
  arith : ∀ op l r, Formed l → Formed r → Formed (.arith op l r)
  bitwise : ∀ op l r, Formed l → Formed r → Formed (.bitwise op l r)

namespace Invariant

variable {scope : List Variable} (I : Invariant scope)

/-! ## Operands -/

/-- What is known of an operand. -/
def Operand : Term → Prop
  | .expr e => I.Formed e
  | .int _ => True
  | .real text => I.Numeral text

variable {I} {l r t : Term}

/-- Operands become expressions that are formed as the invariant says. -/
theorem toExpr (h : I.Operand t) (hint : Option ValueType) : Yields I.Formed (t.toExpr hint) := by
  cases t with
  | expr e => exact .ok h
  | int n =>
    match hint with
    | some .bool => exact .error _
    | some (.real p) => exact .ok (I.real _ p (I.whole n))
    | some (.signed w) => exact .ok (I.int n (.signed w) rfl)
    | some (.unsigned w) => exact .ok (I.int n (.unsigned w) rfl)
    | none => exact .ok (I.int n (.signed .w32) rfl)
  | real text =>
    match hint with
    | some (.real p) => exact .ok (I.real text p h)
    | some (.signed _) | some (.unsigned _) | some .bool => exact .error _
    | none => exact .ok (I.real text .double h)

theorem toBoolean (h : I.Operand t) :
    Yields (fun e => I.Formed e ∧ e.type = .bool) t.toBoolean := by
  refine (toExpr h _).bind fun e he => ?_
  split
  · next hBool => exact .ok ⟨he, hBool⟩
  · exact .error _

theorem unify (hl : I.Operand l) (hr : I.Operand r) :
    Yields (fun pair : Expr × Expr => I.Formed pair.1 ∧ I.Formed pair.2) (l.unify r) := by
  refine (toExpr hl _).bind fun left hLeft => ?_
  refine (toExpr hr _).bind fun right hRight => ?_
  exact .ok ⟨hLeft, hRight⟩

theorem connect (op : Connective) (hl : I.Operand l) (hr : I.Operand r) :
    Yields I.Operand (l.connect op r) := by
  refine (toBoolean hl).bind fun left ⟨hLeft, hLeftBool⟩ => ?_
  refine (toBoolean hr).bind fun right ⟨hRight, hRightBool⟩ => ?_
  exact .ok (I.logical op left right hLeft hRight hLeftBool hRightBool)

/-- Comparisons keep the invariant. -/
theorem compareTerms {op : Comparison} (hop : I.Admitted (.comparison op)) (hl : I.Operand l)
    (hr : I.Operand r) : Yields I.Operand (l.compare op r) := by
  refine (unify hl hr).bind fun (left, right) ⟨hLeft, hRight⟩ => ?_
  show Yields _ (if left.type = .bool then _ else _)
  split
  · next hBool =>
    cases op with
    | eq => exact .ok (I.equality hop left right hLeft hRight hBool)
    | ne => exact .ok (I.inequality hop left right hLeft hRight hBool)
    | lt | le | gt | ge => exact .error _
  · exact .ok (I.compare op left right hLeft hRight)

theorem combineBits (op : Bitwise) (hl : I.Operand l) (hr : I.Operand r) :
    Yields I.Operand (l.combineBits op r) :=
  (unify hl hr).bind fun _ ⟨hLeft, hRight⟩ => .ok (I.bitwise op _ _ hLeft hRight)

theorem calculate (op : Arithmetic) (hl : I.Operand l) (hr : I.Operand r) :
    Yields I.Operand (l.calculate op r) := by
  unfold Term.calculate
  split
  · split
    · exact .ok trivial
    · exact .error _
  · exact (unify hl hr).bind fun _ ⟨hLeft, hRight⟩ => .ok (I.arith op _ _ hLeft hRight)

theorem negateTerm (h : I.Operand t) : I.Operand t.negate := by
  cases t with
  | expr e => exact I.negate e h
  | int n => trivial
  | real text => exact I.minus text h

theorem castTo (type : ValueType) (h : I.Operand t) : Yields I.Operand (t.castTo type) := by
  cases t with
  | expr e => exact .ok (I.cast type e h)
  | int n | real text => exact (toExpr h _).bind fun e he => .ok he

/-! ## Tokens -/

variable (I)

/-- What is known of a token. -/
def Literal : Token → Prop
  | .real text => I.Numeral text
  | .mark m => I.Admitted m
  | _ => True

theorem ofLiteral (literal : List Char) : Yields I.Literal (Token.ofLiteral literal) := by
  unfold Token.ofLiteral
  split
  · split
    · next hReal => exact .ok (I.literal literal hReal)
    · exact .error _
  · split
    · exact .ok trivial
    · exact .error _

/-- The next token of a text satisfies the invariant. -/
theorem next (hMarks : ∀ m, I.Admitted m) (c : Char) (cs : List Char) :
    Yields (fun r => I.Literal r.1) (Token.next c cs) := by
  unfold Token.next
  split
  · exact (I.ofLiteral _).bind fun token hToken => .ok hToken
  · split
    · exact .ok trivial
    · split
      · next m _ => exact .ok (hMarks m)
      · exact .error _

/-- All tokens of a text satisfy the invariant. -/
theorem scan (hMarks : ∀ m, I.Admitted m) (text : String) :
    Yields (fun ts => ∀ t ∈ ts, I.Literal t) (Token.scan text) := by
  have hupTo : ∀ bound cs, Yields (fun ts => ∀ t ∈ ts, I.Literal t) (Token.scanUpTo bound cs) := by
    intro bound
    induction bound with
    | zero => exact fun cs => .ok (by simp)
    | succ bound ih =>
      intro cs
      unfold Token.scanUpTo
      split
      · exact .ok (by simp)
      · refine (I.next hMarks _ _).bind fun (token, rest) hToken =>
          (ih rest).bind fun tokens hTokens => ?_
        exact .ok (List.forall_mem_cons.mpr ⟨hToken, hTokens⟩)
  exact hupTo text.length text.toList

/-! ## Readers -/

/-- What is known of an operand that was read and of the tokens behind it. -/
def Read (r : Term × List Token) : Prop :=
  I.Operand r.1 ∧ ∀ t ∈ r.2, I.Literal t

/-- From tokens of which the invariant holds, the reader gives an operand of which it holds. -/
def Keeps (read : Reader Term) : Prop :=
  ∀ ts, (∀ t ∈ ts, I.Literal t) → Yields I.Read (read ts)

variable {I} {operand inner : Reader Term}

/-- The operators of a level keep the invariant. -/
theorem combine {level : Level} {m : Mark} {combine : Term → Term → Except Fault Term}
    (h : level.combine? m = some combine) (hm : I.Admitted m) (hl : I.Operand l)
    (hr : I.Operand r) : Yields I.Operand (combine l r) := by
  unfold Level.combine? at h
  split at h
  · obtain ⟨-, hSome⟩ := Option.ite_none_right_eq_some.mp h
    cases hSome
    exact connect _ hl hr
  · cases h
    exact compareTerms hm hl hr
  · obtain ⟨-, hSome⟩ := Option.ite_none_right_eq_some.mp h
    cases hSome
    exact combineBits _ hl hr
  · obtain ⟨-, hSome⟩ := Option.ite_none_right_eq_some.mp h
    cases hSome
    exact calculate _ hl hr
  · cases h

/-- Chains keep the invariant. -/
theorem keeps_chain (hOperand : I.Keeps operand) (level : Level) (bound : Nat) {left : Term}
    (hLeft : I.Operand left) : I.Keeps (chain operand level bound left) := by
  intro ts hts
  induction bound generalizing left ts with
  | zero => exact .ok ⟨hLeft, hts⟩
  | succ bound ih =>
    rcases ts with _ | ⟨token, ts⟩
    · exact .ok ⟨hLeft, hts⟩
    · cases token with
      | mark m =>
        simp only [chain]
        split
        · exact .ok ⟨hLeft, hts⟩
        · next f hf =>
          obtain ⟨hm, hRest⟩ := List.forall_mem_cons.mp hts
          refine (hOperand ts hRest).bind fun (right, rest) hRight => ?_
          exact (combine hf hm hLeft hRight.1).bind fun both hBoth => ih hBoth rest hRight.2
      | name | int | real => exact .ok ⟨hLeft, hts⟩

theorem keeps_climb (hOperand : I.Keeps operand) (levels : List Level) :
    I.Keeps (climb operand levels) := by
  induction levels with
  | nil => exact hOperand
  | cons level levels ih =>
    intro ts hts
    exact (ih ts hts).bind fun (left, rest) hLeft => keeps_chain ih level _ hLeft.1 rest hLeft.2

theorem lookUp (name : String) : Yields I.Formed (lookUp scope name) := by
  unfold Formula.lookUp
  split
  · next x hx => exact .ok (I.var x (List.mem_of_find?_eq_some hx))
  · exact .error _

/-- Primaries keep the invariant. -/
theorem keeps_primary (hInner : I.Keeps inner) : I.Keeps (primary scope inner) := by
  intro ts hts
  unfold primary
  split
  · exact .error _
  · exact .ok ⟨trivial, (List.forall_mem_cons.mp hts).2⟩
  · obtain ⟨hText, hRest⟩ := List.forall_mem_cons.mp hts
    exact .ok ⟨hText, hRest⟩
  · have hRest := (List.forall_mem_cons.mp hts).2
    split
    · exact .ok ⟨I.truth true, hRest⟩
    · split
      · exact .ok ⟨I.truth false, hRest⟩
      · exact (lookUp _).bind fun e he => .ok ⟨he, hRest⟩
  · refine (hInner _ (List.forall_mem_cons.mp hts).2).bind fun (t, rest) hRead => ?_
    simp only
    split
    · exact .ok ⟨hRead.1, (List.forall_mem_cons.mp hRead.2).2⟩
    · exact .error _
  · exact .error _

/-- Unary operators keep the invariant. -/
theorem keeps_unary (hInner : I.Keeps inner) : I.Keeps (unary scope inner) := by
  intro ts hts
  fun_induction unary scope inner ts with
  | case1 ts ih =>
    refine (ih (List.forall_mem_cons.mp hts).2).bind fun (t, rest) hRead => ?_
    exact (toBoolean hRead.1).bind fun e ⟨he, hBool⟩ => .ok ⟨I.not e he hBool, hRead.2⟩
  | case2 ts ih =>
    refine (ih (List.forall_mem_cons.mp hts).2).bind fun (t, rest) hRead => ?_
    exact (toExpr hRead.1 _).bind fun e he => .ok ⟨I.complement e he, hRead.2⟩
  | case3 ts ih =>
    refine (ih (List.forall_mem_cons.mp hts).2).bind fun (t, rest) hRead => ?_
    exact .ok ⟨negateTerm hRead.1, hRead.2⟩
  | case4 s ts type hType ih =>
    have hRest : ∀ t ∈ ts, I.Literal t := fun t ht => hts t (by simp [ht])
    refine (ih hRest).bind fun (t, rest) hRead => ?_
    exact (castTo type hRead.1).bind fun e he => .ok ⟨he, hRead.2⟩
  | case5 s ts hType => exact keeps_primary hInner _ hts
  | case6 ts => exact keeps_primary hInner _ hts

theorem keeps_formula (depth : Nat) : I.Keeps (formula scope depth) := by
  induction depth with
  | zero => exact fun ts _ => .error _
  | succ depth ih => exact keeps_climb (keeps_unary ih) Level.all

variable (I)

/-- What is read from tokens of which the invariant holds has the property. -/
theorem parseExpression {text : String}
    (hTokens : Yields (fun ts => ∀ t ∈ ts, I.Literal t) (Token.scan text)) :
    Yields I.Formed (parseExpression text scope) := by
  refine (hTokens.mapError _).bind fun tokens hTokens => ?_
  refine (keeps_formula _ tokens hTokens).bind fun (t, rest) hRead => ?_
  simp only
  split
  · exact toExpr hRead.1 none
  · exact .error _

/-- What is read from a text has every property that all operators keep, whatever marks it holds. -/
theorem parseFormula (hMarks : ∀ m, I.Admitted m) (text : String) :
    Yields I.Formed (parseFormula text scope) := by
  refine (I.parseExpression (I.scan hMarks text)).bind fun e he => ?_
  split
  · exact .ok he
  · exact .error _

end Invariant

end Formula

end StateSpace
