import StateSpace.Proofs.Expr.Encodable
import StateSpace.Proofs.Formula.Grammar
import StateSpace.Proofs.Formula.Invariant

/-!
# The operands of connectives

Negations and connectives are about truth values. An operand of a connective that is written as one
is refused unless it is boolean. But `==` and `!=` become connectives as well if their left operand
is boolean, and the type of the right one is not looked at.

So all operands of negations and connectives in what is read are boolean, except that the right
operand of an equivalence may be something else if the text holds `==`, and that of an exclusive or
if it holds `!=` (`Formula.parseExpression_connects_booleans`). The exception is real: any boolean
variable can be compared with any variable of another type (`Formula.parseExpression_mixed`).
-/

namespace StateSpace

namespace Expr

/-- The operands of a negation or connective. -/
def connected : Expr → List Expr
  | not e => [e]
  | logical _ l r => [l, r]
  | _ => []

/-- If the outermost operator is a negation or connective, then its operands are boolean. -/
def ConnectsBooleans (e : Expr) : Prop :=
  ∀ operand ∈ e.connected, operand.type = .bool

instance (e : Expr) : Decidable e.ConnectsBooleans :=
  inferInstanceAs (Decidable (∀ operand ∈ e.connected, operand.type = .bool))

/-- The outermost operator is a connective between a boolean and something else. -/
def Mixes (op : Connective) (e : Expr) : Prop :=
  ∃ l r, e = logical op l r ∧ l.type = .bool ∧ r.type ≠ .bool

end Expr

namespace Formula

variable {scope : List Variable} {tokens : List Token} {e l r : Expr}

/-- Negations and connectives have boolean operands, unless they stand for an equality or inequality
among the tokens. -/
def Connected (tokens : List Token) (e : Expr) : Prop :=
  e.ConnectsBooleans ∨ e.Mixes .equiv ∧ .mark (.comparison .eq) ∈ tokens ∨
    e.Mixes .xor ∧ .mark (.comparison .ne) ∈ tokens

/-- Most operators are no connectives. -/
theorem Connected.of_connected_eq_nil (h : e.connected = []) : Connected tokens e := by
  refine .inl fun operand hOperand => ?_
  rw [h] at hOperand
  cases hOperand

theorem Connected.not (h : e.type = .bool) : Connected tokens (.not e) :=
  .inl (by simpa [Expr.ConnectsBooleans, Expr.connected] using h)

theorem Connected.logical (op : Connective) (hl : l.type = .bool) (hr : r.type = .bool) :
    Connected tokens (.logical op l r) :=
  .inl (by simp [Expr.ConnectsBooleans, Expr.connected, hl, hr])

theorem Connected.equality (hMark : .mark (.comparison .eq) ∈ tokens) (hl : l.type = .bool) :
    Connected tokens (.logical .equiv l r) := by
  by_cases hr : r.type = .bool
  · exact .logical .equiv hl hr
  · exact .inr (.inl ⟨⟨l, r, rfl, hl, hr⟩, hMark⟩)

theorem Connected.inequality (hMark : .mark (.comparison .ne) ∈ tokens) (hl : l.type = .bool) :
    Connected tokens (.logical .xor l r) := by
  by_cases hr : r.type = .bool
  · exact .logical .xor hl hr
  · exact .inr (.inr ⟨⟨l, r, rfl, hl, hr⟩, hMark⟩)

theorem forall_parts_unary {P : Expr → Prop} {part : Expr} (hParts : e.parts = e :: part.parts)
    (h : P e) (hPart : ∀ p ∈ part.parts, P p) : ∀ p ∈ e.parts, P p := by
  rw [hParts]
  exact List.forall_mem_cons.mpr ⟨h, hPart⟩

theorem forall_parts_binary {P : Expr → Prop} (hParts : e.parts = e :: (l.parts ++ r.parts))
    (h : P e) (hl : ∀ p ∈ l.parts, P p) (hr : ∀ p ∈ r.parts, P p) : ∀ p ∈ e.parts, P p := by
  rw [hParts]
  exact List.forall_mem_cons.mpr ⟨h, List.forall_mem_append.mpr ⟨hl, hr⟩⟩

/-- Every part of what is read from the tokens is connected. -/
def Invariant.connected (scope : List Variable) (tokens : List Token) : Invariant scope where
  Numeral _ := True
  Admitted m := .mark m ∈ tokens
  Formed e := ∀ part ∈ e.parts, Connected tokens part
  literal _ _ := trivial
  whole _ := trivial
  minus _ _ := trivial
  truth _ := List.forall_mem_singleton.mpr (.of_connected_eq_nil rfl)
  int _ _ _ := List.forall_mem_singleton.mpr (.of_connected_eq_nil rfl)
  real _ _ _ := List.forall_mem_singleton.mpr (.of_connected_eq_nil rfl)
  var _ _ := List.forall_mem_singleton.mpr (.of_connected_eq_nil rfl)
  not _ he hBool := forall_parts_unary rfl (.not hBool) he
  negate _ he := forall_parts_unary rfl (.of_connected_eq_nil rfl) he
  complement _ he := forall_parts_unary rfl (.of_connected_eq_nil rfl) he
  cast _ _ he := forall_parts_unary rfl (.of_connected_eq_nil rfl) he
  logical op _ _ hl hr hLeft hRight := forall_parts_binary rfl (.logical op hLeft hRight) hl hr
  equality hMark _ _ hl hr hLeft := forall_parts_binary rfl (.equality hMark hLeft) hl hr
  inequality hMark _ _ hl hr hLeft := forall_parts_binary rfl (.inequality hMark hLeft) hl hr
  compare _ _ _ hl hr := forall_parts_binary rfl (.of_connected_eq_nil rfl) hl hr
  arith _ _ _ hl hr := forall_parts_binary rfl (.of_connected_eq_nil rfl) hl hr
  bitwise _ _ _ hl hr := forall_parts_binary rfl (.of_connected_eq_nil rfl) hl hr

/-- Every negation and connective in what is read has boolean operands, or it is an equivalence
between a boolean and something else in a text that holds `==`, or an exclusive or between such
operands in a text that holds `!=`. -/
theorem parseExpression_connects_booleans {text : String} (h : parseExpression text scope = .ok e) :
    ∃ tokens, Token.scan text = .ok tokens ∧ ∀ part ∈ e.parts,
      part.ConnectsBooleans ∨
        part.Mixes .equiv ∧ .mark (.comparison .eq) ∈ tokens ∨
        part.Mixes .xor ∧ .mark (.comparison .ne) ∈ tokens := by
  cases hScan : Token.scan text with
  | error fault =>
    rw [parseExpression, hScan] at h
    cases h
  | ok tokens =>
    refine ⟨tokens, rfl, (Invariant.connected scope tokens).parseExpression ?_ e h⟩
    rw [hScan]
    refine .ok fun token hToken => ?_
    cases token with
    | mark m => exact hToken
    | name | int | real => trivial

/-- A boolean. -/
def flagVariable : Variable := ⟨"b", .bool⟩

/-- A number. -/
def countVariable : Variable := ⟨"x", .signed .w32⟩

/-- In `!b || b != x`, the negation and the disjunction have boolean operands, and the inequality
has not. -/
theorem parseExpression_connects_booleans_inequality :
    parseExpression "!b || b != x" [flagVariable, countVariable] =
        .ok (.logical .or (.not (.var flagVariable))
          (.logical .xor (.var flagVariable) (.var countVariable))) ∧
      ∃ tokens, Token.scan "!b || b != x" = .ok tokens ∧
        ∀ part ∈ (Expr.logical .or (.not (.var flagVariable))
          (.logical .xor (.var flagVariable) (.var countVariable))).parts,
          part.ConnectsBooleans ∨
            part.Mixes .equiv ∧ .mark (.comparison .eq) ∈ tokens ∨
            part.Mixes .xor ∧ .mark (.comparison .ne) ∈ tokens := by
  have hRead : parseExpression "!b || b != x" [flagVariable, countVariable] =
      .ok (.logical .or (.not (.var flagVariable))
        (.logical .xor (.var flagVariable) (.var countVariable))) := by
    decide +kernel
  exact ⟨hRead, parseExpression_connects_booleans hRead⟩

/-! ## Equalities of operands of different types -/

/-- A variable can be written in a formula by its name. -/
structure Writable (scope : List Variable) (x : Variable) : Prop where
  identifier : IsIdentifier x.name
  notTrue : Text.sameIgnoringCase x.name "true" = false
  notFalse : Text.sameIgnoringCase x.name "false" = false
  found : lookUp scope x.name = .ok (.var x)

theorem Writable.written {x : Variable} (h : Writable scope x) :
    Written scope Level.tightest x.name.toList [.name x.name] (.expr (.var x)) :=
  .var h.identifier h.notTrue h.notFalse h.found

/-- The equality of a boolean variable with a variable of any type is read as an equivalence. -/
theorem parseExpression_mixed {b x : Variable} (hb : Writable scope b) (hx : Writable scope x)
    (hBool : b.type = .bool) :
    parseExpression (b.name ++ " == " ++ x.name) scope =
      .ok (.logical .equiv (.var b) (.var x)) := by
  have hCompare : Term.compare .eq (.expr (.var b)) (.expr (.var x)) =
      .ok (.expr (.logical .equiv (.var b) (.var x))) := by
    have hType : (Expr.var b).type = .bool := hBool
    simp only [Term.compare, Term.unify, Term.toExpr, bind, Except.bind, pure, Except.pure, hType,
      if_true]
  have hWritten := Written.comparison (k := 4) rfl (hb.written.weaken (by decide))
    (hx.written.weaken (by decide)) hCompare
  have hText : (b.name ++ " == " ++ x.name).toList =
      b.name.toList ++ ' ' :: ((Mark.comparison .eq).text.toList ++ ' ' :: x.name.toList) := by
    simp [Mark.text, Comparison.symbol]
  exact (hText ▸ hWritten.weaken (Nat.zero_le 4)).parseExpression_eq

/-- `b == x` is read as an equivalence between a boolean and a number. -/
theorem equality_connects_number : ∃ e,
    parseExpression "b == x" [flagVariable, countVariable] = .ok e ∧
      ¬ ∀ part ∈ e.parts, part.ConnectsBooleans := by
  have hb : Writable [flagVariable, countVariable] flagVariable :=
    ⟨.of_toList rfl (by decide) (by decide), by decide, by decide, by decide⟩
  have hx : Writable [flagVariable, countVariable] countVariable :=
    ⟨.of_toList rfl (by decide) (by decide), by decide, by decide, by decide⟩
  have hText : flagVariable.name ++ " == " ++ countVariable.name = "b == x" := by decide
  refine ⟨.logical .equiv (.var flagVariable) (.var countVariable), ?_, by decide⟩
  rw [← hText]
  exact parseExpression_mixed hb hx rfl

end Formula

end StateSpace
