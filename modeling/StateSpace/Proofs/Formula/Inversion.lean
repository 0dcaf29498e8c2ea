import Mathlib.Data.List.Nodup
import StateSpace.Expr.Basic
import StateSpace.Proofs.Formula.Grammar

/-!
# Reading back the text of expressions

An expression has two texts: the one in which every binary node stands in parentheses, and the one
that has only the parentheses which precedence asks for (`Expr.briefText`). Both follow the grammar
of formulas if the expression is `Readable`, so both are read back as the expression
(`Formula.parseExpression_inverts_text`).

The text of a number does not show its type. It is read as an operand without a type, which takes
the type of the operand beside it; so a readable expression has such an operand beside every number.
-/

namespace StateSpace

/-! ## Texts with few parentheses -/

/-- Equivalence and implication bind least of all operators. -/
def Connective.precedence : Connective → Nat
  | equiv => 0
  | implies => 0
  | or => 1
  | xor => 2
  | and => 3

/-- Comparisons bind more than connectives, and have no comparison for an operand. -/
def Comparison.precedence (_ : Comparison) : Nat := 4

theorem Comparison.precedence_lt (op : Comparison) : op.precedence < 11 := by
  show 4 < 11
  decide

def Bitwise.precedence : Bitwise → Nat
  | or => 5
  | xor => 6
  | and => 7
  | shiftLeft => 8
  | shiftRight => 8
  | shiftRightZero => 8

def Arithmetic.precedence : Arithmetic → Nat
  | add => 9
  | sub => 9
  | mul => 10
  | div => 10
  | rem => 10

namespace Expr

/-- How tightly the outermost node binds; unary operators and casts bind more than any binary
one. -/
def precedence : Expr → Nat
  | logical op _ _ => op.precedence
  | compare op _ _ => op.precedence
  | bitwise op _ _ => op.precedence
  | arith op _ _ => op.precedence
  | _ => 11

/-- The text of an operand, in parentheses if it binds less than it has to. -/
def enclosed (least : Nat) (e : Expr) (text : String) : String :=
  if e.precedence < least then "(" ++ text ++ ")" else text

/-- The text of an expression with only the parentheses that precedence asks for. Binary operators
group to the left. -/
def briefText : Expr → String
  | const v => v.text
  | var x => x.name
  | not e => "!" ++ e.enclosed 11 e.briefText
  | logical op l r =>
    l.enclosed op.precedence l.briefText ++ " " ++ op.symbol ++ " " ++
      r.enclosed (op.precedence + 1) r.briefText
  | compare op l r =>
    l.enclosed (op.precedence + 1) l.briefText ++ " " ++ op.symbol ++ " " ++
      r.enclosed (op.precedence + 1) r.briefText
  | arith op l r =>
    l.enclosed op.precedence l.briefText ++ " " ++ op.symbol ++ " " ++
      r.enclosed (op.precedence + 1) r.briefText
  | bitwise op l r =>
    l.enclosed op.precedence l.briefText ++ " " ++ op.symbol ++ " " ++
      r.enclosed (op.precedence + 1) r.briefText
  | negate e => "-" ++ e.enclosed 11 e.briefText
  | complement e => "~" ++ e.enclosed 11 e.briefText
  | cast t e => "(" ++ t.name ++ ") " ++ e.enclosed 11 e.briefText
  | quantified q xs body =>
    "(" ++ q.symbol ++ " " ++ ", ".intercalate (xs.map Variable.name) ++ ": " ++ body.briefText ++
      ")"

end Expr

/-! ## Readable expressions -/

open Formula

/-- Digits with a point between or behind them, and a minus sign or none. -/
def IsDecimal (text : String) : Prop :=
  ∃ c run, c.isDigit = true ∧ (∀ d ∈ run, Token.isNumberChar d = true) ∧ '.' ∈ run ∧
    Text.isReal (c :: run) = true ∧ (text.toList = c :: run ∨ text.toList = '-' :: c :: run)

/-- Whole numbers are in the range of an integer type, and reals are decimals. -/
def Value.Readable : Value → Prop
  | .bool _ => True
  | .int n t => t.isInteger = true ∧ t.Fits n
  | .real text t => t.isReal = true ∧ IsDecimal text

/-- Integers are far smaller than the numbers that can be read. -/
theorem ValueType.Fits.natAbs_lt_of_isInteger {n : Int} {t : ValueType} (hn : t.Fits n)
    (ht : t.isInteger = true) : n.natAbs < Nat.pow 2 127 := by
  cases t with
  | signed w => cases w <;> exact (hn.natAbs_lt rfl).trans (by decide)
  | unsigned w => cases w <;> exact (hn.natAbs_lt rfl).trans (by decide)
  | bool => cases ht
  | real p => cases ht

namespace Expr

/-- The constants whose text does not show their type. -/
def isNumber : Expr → Bool
  | const (.int _ _) => true
  | const (.real _ _) => true
  | _ => false

def isConst : Expr → Bool
  | const _ => true
  | _ => false

/-- A number beside the expression takes its own type from it. -/
def Types (e number : Expr) : Prop :=
  number.isNumber = true → e.isConst = false ∧ e.type = number.type

/-- Expressions over a scope, without quantifiers, in which numbers stand only beside an operand of
their type, the operands of connectives are boolean and left operands of comparisons are not. -/
def Readable (scope : List Variable) : Expr → Prop
  | const v => v.Readable
  | var x => x ∈ scope
  | not e => e.Readable scope ∧ e.type = .bool
  | logical _ l r => (l.Readable scope ∧ r.Readable scope) ∧ l.type = .bool ∧ r.type = .bool
  | compare _ l r =>
    (l.Readable scope ∧ r.Readable scope) ∧ (l.Types r ∧ r.Types l) ∧ l.type ≠ .bool
  | arith _ l r => (l.Readable scope ∧ r.Readable scope) ∧ l.Types r ∧ r.Types l
  | bitwise _ l r => (l.Readable scope ∧ r.Readable scope) ∧ l.Types r ∧ r.Types l
  | negate e => e.Readable scope ∧ e.isNumber = false
  | complement e => e.Readable scope ∧ e.isNumber = false
  | cast _ e => e.Readable scope ∧ e.isNumber = false
  | quantified _ _ _ => False

end Expr

/-! ## Operands -/

variable {scope : List Variable} {e l r : Expr}

namespace Expr

/-- What an expression is read as, before it meets the other operand. -/
def operand : Expr → Term
  | const (.int n _) => .int n
  | const (.real text _) => .real text
  | e => .expr e

theorem operand_eq (h : e.isNumber = false) : e.operand = .expr e := by
  cases e with
  | const v =>
    cases v with
    | bool b => rfl
    | int n t => cases h
    | real text t => cases h
  | _ => rfl

theorem isNumber_of_isConst (h : e.isConst = false) : e.isNumber = false := by
  cases e with
  | const v => cases h
  | _ => rfl

/-- Readable booleans are not numbers. -/
theorem Readable.isNumber_eq_false (he : e.Readable scope) (ht : e.type = .bool) :
    e.isNumber = false := by
  cases e with
  | const v =>
    cases v with
    | bool b => rfl
    | int n t =>
      obtain rfl : t = .bool := ht
      cases he.1
    | real text t =>
      obtain rfl : t = .bool := ht
      cases he.1
  | _ => rfl

/-- A number becomes itself at its own type. -/
theorem Readable.toExpr_operand (he : e.Readable scope) {hint : Option ValueType}
    (h : e.isNumber = true → hint = some e.type) : e.operand.toExpr hint = .ok e := by
  cases e with
  | const v =>
    cases v with
    | bool b => rfl
    | int n t =>
      obtain ⟨hInteger, hFits⟩ := he
      have hValue : Value.ofInt n t = .int n t := congrArg (Value.int · t) hFits
      rw [h rfl]
      show Term.toExpr (some t) (.int n) = .ok (.const (.int n t))
      rw [← hValue]
      cases t with
      | signed w => rfl
      | unsigned w => rfl
      | bool => cases hInteger
      | real p => cases hInteger
    | real text t =>
      obtain ⟨hReal, -⟩ := he
      rw [h rfl]
      cases t with
      | real p => rfl
      | _ => cases hReal
  | _ => rfl

theorem Types.type?_operand (h : e.Types r) (hNumber : r.isNumber = true) :
    e.operand.type? = some r.type := by
  obtain ⟨hConst, hType⟩ := h hNumber
  rw [operand_eq (isNumber_of_isConst hConst), ← hType]
  rfl

section Combine

variable (hl : l.Readable scope) (hr : r.Readable scope)

include hl hr

theorem unify_operands (hlr : l.Types r) (hrl : r.Types l) :
    l.operand.unify r.operand = .ok (l, r) := by
  have hLeft : l.operand.toExpr r.operand.type? = .ok l :=
    hl.toExpr_operand fun hNumber => hrl.type?_operand hNumber
  have hRight : r.operand.toExpr (l.operand.type? <|> some l.type) = .ok r :=
    hr.toExpr_operand fun hNumber => by rw [hlr.type?_operand hNumber]; rfl
  simp only [Term.unify, hLeft, hRight, bind, Except.bind]
  rfl

/-- Operands whose types fit are calculated with as they are. -/
theorem calculate_operands (op : Arithmetic) (hlr : l.Types r) (hrl : r.Types l) :
    Term.calculate op l.operand r.operand = .ok (.expr (.arith op l r)) := by
  have hUnify := unify_operands hl hr hlr hrl
  cases hNumber : l.isNumber with
  | false =>
    rw [operand_eq hNumber] at hUnify ⊢
    simp only [Term.calculate, hUnify, bind, Except.bind, pure, Except.pure]
  | true =>
    -- a number has no number beside it, so they are not calculated with
    have hr : r.operand = .expr r := operand_eq (isNumber_of_isConst (hrl hNumber).1)
    rw [hr] at hUnify ⊢
    cases hLeft : l.operand <;> rw [hLeft] at hUnify <;>
      simp only [Term.calculate, hUnify, bind, Except.bind, pure, Except.pure]

theorem combineBits_operands (op : Bitwise) (hlr : l.Types r) (hrl : r.Types l) :
    Term.combineBits op l.operand r.operand = .ok (.expr (.bitwise op l r)) := by
  simp only [Term.combineBits, unify_operands hl hr hlr hrl, bind, Except.bind, pure, Except.pure]

theorem compare_operands (op : Comparison) (hlr : l.Types r) (hrl : r.Types l)
    (ht : l.type ≠ .bool) :
    Term.compare op l.operand r.operand = .ok (.expr (.compare op l r)) := by
  simp only [Term.compare, unify_operands hl hr hlr hrl, bind, Except.bind, pure, Except.pure,
    if_neg ht]

end Combine

theorem Readable.toBoolean_operand (he : e.Readable scope) (ht : e.type = .bool) :
    e.operand.toBoolean = .ok e := by
  rw [operand_eq (he.isNumber_eq_false ht)]
  exact if_pos ht

theorem connect_operands (op : Connective) (he : (logical op l r).Readable scope) :
    Term.connect op l.operand r.operand = .ok (.expr (.logical op l r)) := by
  obtain ⟨⟨hl, hr⟩, htl, htr⟩ := he
  simp only [Term.connect, hl.toBoolean_operand htl, hr.toBoolean_operand htr, bind, Except.bind,
    pure, Except.pure]

end Expr

/-! ## Texts that follow the grammar -/

namespace Formula

/-- The text writes the expression as an operand at level `k`. -/
def WrittenAs (scope : List Variable) (k : Nat) (e : Expr) (text : String) : Prop :=
  ∃ ts, Written scope k text.toList ts e.operand

/-- The operator stands at level `k`, on which operators group to the left. -/
def Groups (k : Nat) (m : Mark) (combine : Term → Term → Except Fault Term) : Prop :=
  ∃ level, Level.all[k]? = some level ∧ level ≠ .comparisons ∧ level.combine? m = some combine

theorem Groups.lt {k : Nat} {m : Mark} {combine : Term → Term → Except Fault Term}
    (h : Groups k m combine) : k < 11 := by
  obtain ⟨level, hLevel, -⟩ := h
  exact (List.getElem?_eq_some_iff.mp hLevel).1

theorem groups_connective (op : Connective) :
    Groups op.precedence (.connective op) (Term.connect op) := by
  cases op <;> exact ⟨_, rfl, by decide, rfl⟩

theorem groups_bitwise (op : Bitwise) :
    Groups op.precedence (.bitwise op) (Term.combineBits op) := by
  cases op <;> exact ⟨_, rfl, by decide, rfl⟩

theorem groups_arithmetic (op : Arithmetic) :
    Groups op.precedence (.arithmetic op) (Term.calculate op) := by
  cases op <;> exact ⟨_, rfl, by decide, rfl⟩

/-- Only truth values and variables are written as a lone name. -/
theorem Written.of_name {k : Nat} {cs : List Char} {s : String} {t : Term}
    (h : Written scope k cs [.name s] t) :
    (∃ b, t = .expr (.truth b)) ∨ ∃ x, t = .expr (.var x) := by
  have hMark : ∀ {tsl tsr : List Token} {m : Mark}, tsl ++ .mark m :: tsr ≠ [.name s] := by
    intro tsl tsr m heq
    have hMem : Token.mark m ∈ [Token.name s] := heq ▸ List.mem_append_right tsl List.mem_cons_self
    cases List.mem_singleton.mp hMem
  generalize hts : [Token.name s] = ts at h
  induction h with
  | looser _ ih => exact ih hts
  | binary => exact absurd hts.symm hMark
  | comparison => exact absurd hts.symm hMark
  | truth b => exact .inl ⟨b, rfl⟩
  | @var x _ _ _ _ => exact .inr ⟨x, rfl⟩
  | _ => cases hts

namespace WrittenAs

variable {k : Nat} {text textl textr : String}

theorem of_written {cs : List Char} {ts : List Token} (h : Written scope k cs ts e.operand)
    (hText : text.toList = cs) : WrittenAs scope k e text :=
  ⟨ts, hText ▸ h⟩

theorem weaken {j : Nat} (hle : j ≤ k) (h : WrittenAs scope k e text) :
    WrittenAs scope j e text := by
  obtain ⟨ts, hts⟩ := h
  exact ⟨ts, hts.weaken hle⟩

/-- Operators that group to the left. -/
theorem binary {m : Mark} {combine : Term → Term → Except Fault Term} (hm : Groups k m combine)
    (hl : WrittenAs scope k l textl) (hr : WrittenAs scope (k + 1) r textr)
    (h : combine l.operand r.operand = .ok e.operand) :
    WrittenAs scope k e (textl ++ " " ++ m.text ++ " " ++ textr) := by
  obtain ⟨level, hLevel, hChain, hCombine⟩ := hm
  obtain ⟨tsl, hl⟩ := hl
  obtain ⟨tsr, hr⟩ := hr
  exact of_written (.binary hLevel hChain hCombine hl hr h) (by simp)

theorem logical {op : Connective} (hl : WrittenAs scope op.precedence l textl)
    (hr : WrittenAs scope (op.precedence + 1) r textr) (he : (Expr.logical op l r).Readable scope) :
    WrittenAs scope op.precedence (.logical op l r)
      (textl ++ " " ++ op.symbol ++ " " ++ textr) := by
  have hWritten := binary (e := .logical op l r) (groups_connective op) hl hr
    (Expr.connect_operands op he)
  exact hWritten

theorem arith {op : Arithmetic} (hl : WrittenAs scope op.precedence l textl)
    (hr : WrittenAs scope (op.precedence + 1) r textr) (he : (Expr.arith op l r).Readable scope) :
    WrittenAs scope op.precedence (.arith op l r) (textl ++ " " ++ op.symbol ++ " " ++ textr) := by
  have hWritten := binary (e := .arith op l r) (groups_arithmetic op) hl hr
    (Expr.calculate_operands he.1.1 he.1.2 op he.2.1 he.2.2)
  exact hWritten

theorem bitwise {op : Bitwise} (hl : WrittenAs scope op.precedence l textl)
    (hr : WrittenAs scope (op.precedence + 1) r textr) (he : (Expr.bitwise op l r).Readable scope) :
    WrittenAs scope op.precedence (.bitwise op l r)
      (textl ++ " " ++ op.symbol ++ " " ++ textr) := by
  have hWritten := binary (e := .bitwise op l r) (groups_bitwise op) hl hr
    (Expr.combineBits_operands he.1.1 he.1.2 op he.2.1 he.2.2)
  exact hWritten

theorem compare {op : Comparison} (hl : WrittenAs scope (op.precedence + 1) l textl)
    (hr : WrittenAs scope (op.precedence + 1) r textr) (he : (Expr.compare op l r).Readable scope) :
    WrittenAs scope op.precedence (.compare op l r)
      (textl ++ " " ++ op.symbol ++ " " ++ textr) := by
  obtain ⟨⟨hReadl, hReadr⟩, ⟨hlr, hrl⟩, ht⟩ := he
  obtain ⟨tsl, hl⟩ := hl
  obtain ⟨tsr, hr⟩ := hr
  have hCompare := Expr.compare_operands hReadl hReadr op hlr hrl ht
  exact of_written (.comparison rfl hl hr hCompare) (by simp [Mark.text])

/-- Parentheses around anything but a constant or a variable. -/
theorem parentheses (h : WrittenAs scope 0 e text) (hConst : ∀ v, e ≠ .const v)
    (hVar : ∀ x, e ≠ .var x) : WrittenAs scope 11 e ("(" ++ text ++ ")") := by
  obtain ⟨ts, hts⟩ := h
  have hOperand : e.operand = .expr e := by
    cases e with
    | const v => exact absurd rfl (hConst v)
    | _ => rfl
  refine of_written (.parentheses hts ?_) (by simp)
  rintro s rfl
  rw [hOperand] at hts
  obtain ⟨b, hb⟩ | ⟨x, hx⟩ := hts.of_name
  · exact hConst (.bool b) (Term.expr.inj hb)
  · exact hVar x (Term.expr.inj hx)

/-- A binary node in parentheses. -/
theorem node {symbol : String} (h : WrittenAs scope k e (textl ++ " " ++ symbol ++ " " ++ textr))
    (hConst : ∀ v, e ≠ .const v) (hVar : ∀ x, e ≠ .var x) :
    WrittenAs scope 11 e ("(" ++ textl ++ " " ++ symbol ++ " " ++ textr ++ ")") := by
  have hNode := (h.weaken (Nat.zero_le k)).parentheses hConst hVar
  simpa only [String.append_assoc] using hNode

/-- Parentheses let an operand stand where it binds too little. -/
theorem enclosed {least : Nat} (hLeast : least ≤ 11) (h : WrittenAs scope e.precedence e text) :
    WrittenAs scope least e (e.enclosed least text) := by
  unfold Expr.enclosed
  split
  next hlt =>
    have hBinary : e.precedence ≠ 11 := by omega
    refine ((h.weaken (Nat.zero_le _)).parentheses ?_ ?_).weaken hLeast
    · rintro v rfl
      exact hBinary rfl
    · rintro x rfl
      exact hBinary rfl
  next hge => exact h.weaken (Nat.le_of_not_lt hge)

theorem not (h : WrittenAs scope 11 e text) (he : (Expr.not e).Readable scope) :
    WrittenAs scope 11 (.not e) ("!" ++ text) := by
  obtain ⟨ts, hts⟩ := h
  exact of_written (.not hts (he.1.toBoolean_operand he.2)) (by simp)

theorem negate (h : WrittenAs scope 11 e text) (hNumber : e.isNumber = false) :
    WrittenAs scope 11 (.negate e) ("-" ++ text) := by
  obtain ⟨ts, hts⟩ := h
  rw [Expr.operand_eq hNumber] at hts
  exact of_written (.negate hts) (by simp)

theorem complement (h : WrittenAs scope 11 e text) (hNumber : e.isNumber = false) :
    WrittenAs scope 11 (.complement e) ("~" ++ text) := by
  obtain ⟨ts, hts⟩ := h
  rw [Expr.operand_eq hNumber] at hts
  exact of_written (.complement hts rfl) (by simp)

theorem cast {t : ValueType} (h : WrittenAs scope 11 e text) (hNumber : e.isNumber = false) :
    WrittenAs scope 11 (.cast t e) ("(" ++ t.name ++ ") " ++ text) := by
  obtain ⟨ts, hts⟩ := h
  rw [Expr.operand_eq hNumber] at hts
  exact of_written (.cast hts rfl) (by simp)

/-- Constants are written as their own texts. -/
theorem const {v : Value} (hv : v.Readable) : WrittenAs scope 11 (.const v) v.text := by
  cases v with
  | bool b => exact of_written (.truth b) rfl
  | int n t =>
    have hSmall := hv.2.natAbs_lt_of_isInteger hv.1
    cases n with
    | ofNat n => exact of_written (.whole hSmall) rfl
    | negSucc n =>
      have hText : (toString (Int.negSucc n)).toList = '-' :: (toString (n + 1)).toList := by
        show ("-" ++ toString (n + 1)).toList = '-' :: (toString (n + 1)).toList
        simp
      have hWhole : Written scope 11 _ _ (Term.int ↑(n + 1)).negate := .negate (.whole hSmall)
      have hSigned : Text.word128 (-↑(n + 1)) = Int.negSucc n := by
        have hLarge : n + 1 < 2 ^ 127 := hSmall
        exact Int.bmod_eq_of_le (by simp; omega) (by simp; omega)
      rw [Term.negate, hSigned] at hWhole
      exact of_written hWhole hText
  | real text t =>
    obtain ⟨-, c, run, hc, hRun, hPoint, hReal, hPlain | hMinus⟩ := hv
    · have hText : text = String.ofList (c :: run) := by rw [← hPlain, String.ofList_toList]
      subst hText
      exact of_written (.decimal hc hRun hPoint hReal) hPlain
    · have hText : text = "-" ++ String.ofList (c :: run) := by
        rw [← String.toList_inj, hMinus]
        simp
      subst hText
      exact of_written (.negate (.decimal hc hRun hPoint hReal)) hMinus

theorem parseExpression_eq (h : WrittenAs scope k e text) (hNumber : e.isNumber = false) :
    parseExpression text scope = .ok e := by
  obtain ⟨ts, hts⟩ := h.weaken (Nat.zero_le k)
  rw [hts.parseExpression_eq, Expr.operand_eq hNumber]
  rfl

end WrittenAs

/-! ## Both texts -/

/-- The names that are read as variables: identifiers other than the truth values in any letter
case. -/
structure IsVariableName (name : String) : Prop where
  identifier : IsIdentifier name
  ne_true : Text.sameIgnoringCase name "true" = false
  ne_false : Text.sameIgnoringCase name "false" = false

section Texts

variable {x : Variable} (hScope : (scope.map Variable.name).Nodup)

include hScope

/-- With distinct names, a variable is found by its name. -/
theorem lookUp_eq (hx : x ∈ scope) : lookUp scope x.name = .ok (.var x) := by
  unfold lookUp
  cases hFind : scope.find? fun y => y.name == x.name with
  | none =>
    have hne := List.find?_eq_none.mp hFind x hx
    exact absurd (beq_self_eq_true x.name) hne
  | some y =>
    have hName := List.find?_some hFind
    have hMem : y ∈ scope := List.mem_of_find?_eq_some hFind
    rw [List.inj_on_of_nodup_map hScope hMem hx (eq_of_beq hName)]

variable (hNames : ∀ x ∈ scope, IsVariableName x.name)

include hNames

theorem writtenAs_var (hx : x ∈ scope) : WrittenAs scope 11 (.var x) x.name := by
  obtain ⟨hName, hTrue, hFalse⟩ := hNames x hx
  exact .of_written (.var hName hTrue hFalse (lookUp_eq hScope hx)) rfl

/-- Every node of the full text stands where any operand may stand. -/
theorem writtenAs_text (he : e.Readable scope) : WrittenAs scope 11 e e.text := by
  induction e with
  | const v => exact .const he
  | var x => exact writtenAs_var hScope hNames he
  | not e ih => exact (ih he.1).not he
  | logical op l r ihl ihr =>
    have hlt := (groups_connective op).lt
    have hBinary := ((ihl he.1.1).weaken hlt.le).logical ((ihr he.1.2).weaken hlt) he
    exact hBinary.node (by rintro v ⟨⟩) (by rintro x ⟨⟩)
  | compare op l r ihl ihr =>
    have hlt := op.precedence_lt
    have hBinary := ((ihl he.1.1).weaken hlt).compare ((ihr he.1.2).weaken hlt) he
    exact hBinary.node (by rintro v ⟨⟩) (by rintro x ⟨⟩)
  | arith op l r ihl ihr =>
    have hlt := (groups_arithmetic op).lt
    have hBinary := ((ihl he.1.1).weaken hlt.le).arith ((ihr he.1.2).weaken hlt) he
    exact hBinary.node (by rintro v ⟨⟩) (by rintro x ⟨⟩)
  | bitwise op l r ihl ihr =>
    have hlt := (groups_bitwise op).lt
    have hBinary := ((ihl he.1.1).weaken hlt.le).bitwise ((ihr he.1.2).weaken hlt) he
    exact hBinary.node (by rintro v ⟨⟩) (by rintro x ⟨⟩)
  | negate e ih => exact (ih he.1).negate he.2
  | complement e ih => exact (ih he.1).complement he.2
  | cast t e ih =>
    have hCast := ((ih he.1).cast (t := t) he.2).weaken (Nat.zero_le 11)
    have hNode := hCast.parentheses (by rintro v ⟨⟩) (by rintro x ⟨⟩)
    have hOpen : "((" = "(" ++ "(" := rfl
    simpa only [Expr.text, hOpen, String.append_assoc] using hNode
  | quantified => exact he.elim

/-- Every operand of the brief text stands at the level that its node asks for. -/
theorem writtenAs_briefText (he : e.Readable scope) :
    WrittenAs scope e.precedence e e.briefText := by
  induction e with
  | const v => exact .const he
  | var x => exact writtenAs_var hScope hNames he
  | not e ih => exact ((ih he.1).enclosed (Nat.le_refl 11)).not he
  | logical op l r ihl ihr =>
    have hlt := (groups_connective op).lt
    exact ((ihl he.1.1).enclosed hlt.le).logical ((ihr he.1.2).enclosed hlt) he
  | compare op l r ihl ihr =>
    have hlt := op.precedence_lt
    exact ((ihl he.1.1).enclosed hlt).compare ((ihr he.1.2).enclosed hlt) he
  | arith op l r ihl ihr =>
    have hlt := (groups_arithmetic op).lt
    exact ((ihl he.1.1).enclosed hlt.le).arith ((ihr he.1.2).enclosed hlt) he
  | bitwise op l r ihl ihr =>
    have hlt := (groups_bitwise op).lt
    exact ((ihl he.1.1).enclosed hlt.le).bitwise ((ihr he.1.2).enclosed hlt) he
  | negate e ih => exact ((ih he.1).enclosed (Nat.le_refl 11)).negate he.2
  | complement e ih => exact ((ih he.1).enclosed (Nat.le_refl 11)).complement he.2
  | cast t e ih => exact ((ih he.1).enclosed (Nat.le_refl 11)).cast he.2
  | quantified => exact he.elim

end Texts

/-- A readable expression that is not a number on its own is read back from both of its texts. -/
theorem parseExpression_inverts_text {scope : List Variable} {e : Expr}
    (hScope : (scope.map Variable.name).Nodup) (hNames : ∀ x ∈ scope, IsVariableName x.name)
    (he : e.Readable scope) (hNumber : e.isNumber = false) :
    parseExpression e.text scope = .ok e ∧ parseExpression e.briefText scope = .ok e :=
  ⟨(writtenAs_text hScope hNames he).parseExpression_eq hNumber,
    (writtenAs_briefText hScope hNames he).parseExpression_eq hNumber⟩

/-- A flag, two bytes of which one is primed, and a signed word. -/
def guardScope : List Variable :=
  [⟨"flag", .bool⟩, ⟨"x", .unsigned .w8⟩, ⟨"y\x27", .unsigned .w8⟩, ⟨"n", .signed .w16⟩]

/-- A negation, an implication, a comparison, nested differences, numbers on either side and a
cast. -/
def guardExpr : Expr :=
  let x : Expr := .var ⟨"x", .unsigned .w8⟩
  let y : Expr := .var ⟨"y\x27", .unsigned .w8⟩
  let n : Expr := .var ⟨"n", .signed .w16⟩
  .logical .implies (.not (.var ⟨"flag", .bool⟩))
    (.compare .lt
      (.arith .mul (.arith .sub x (.arith .sub y (.const (.int 3 (.unsigned .w8)))))
        (.const (.int 2 (.unsigned .w8))))
      (.cast (.unsigned .w8) (.negate (.arith .add (.const (.int (-5) (.signed .w16))) n))))

/-- Both texts of a guard are read back as the guard. -/
theorem parseExpression_inverts_guard :
    (guardExpr.text = "(!flag -> (((x - (y\x27 - 3)) * 2) < ((uint8) -(-5 + n))))" ∧
      guardExpr.briefText = "!flag -> (x - (y\x27 - 3)) * 2 < (uint8) -(-5 + n)") ∧
    parseExpression guardExpr.text guardScope = .ok guardExpr ∧
      parseExpression guardExpr.briefText guardScope = .ok guardExpr := by
  refine ⟨⟨by decide +kernel, by decide +kernel⟩, parseExpression_inverts_text ?_ ?_ ?_ rfl⟩
  · decide +kernel
  · have hFlag : IsVariableName "flag" :=
      ⟨.of_toList rfl (by decide) (by decide), by decide, by decide⟩
    have hx : IsVariableName "x" := ⟨.of_toList rfl (by decide) (by decide), by decide, by decide⟩
    have hy : IsVariableName "y\x27" :=
      ⟨⟨'y', [], by decide, by simp, .inr rfl⟩, by decide, by decide⟩
    have hn : IsVariableName "n" := ⟨.of_toList rfl (by decide) (by decide), by decide, by decide⟩
    simp only [guardScope, List.forall_mem_cons]
    exact ⟨hFlag, hx, hy, hn, List.forall_mem_nil _⟩
  · have hBytes : (ValueType.unsigned .w8).Fits 3 ∧ (ValueType.unsigned .w8).Fits 2 := by
      decide +kernel
    have hWord : (ValueType.signed .w16).Fits (-5) := by decide +kernel
    simp [guardExpr, guardScope, Expr.Readable, Expr.Types, Expr.isNumber, Expr.isConst, Expr.type,
      Value.Readable, Value.type, ValueType.isInteger, hBytes, hWord]

end Formula

end StateSpace
