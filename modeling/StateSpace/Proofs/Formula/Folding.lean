import Mathlib.Data.Int.ModEq
import StateSpace.Proofs.Expr.Eval
import StateSpace.Proofs.Formula.Grammar
import StateSpace.Proofs.Formula.Invariant

/-!
# Folding of literals

Sums, differences and products of whole number literals are calculated while they are read, in exact
arithmetic, before any type is known; the result is wrapped once, when it meets its type. Bit-vector
arithmetic wraps at every step. Both give the same, since wrapping keeps numbers apart only up to a
multiple of the modulus (`Calculation.eval_unfolded`).

`Calculation.Spelled` says which tokens spell a calculation, with the usual precedence and grouping
to the left. Tokens that spell a calculation are read as its exact value or not at all, since a step
may not fit 128 bits (`Calculation.Spelled.readsOnly`). So the right operand of `x == L` is the
value that the unfolded calculation has at the type of `x`
(`Formula.parseExpression_folds_literals`).
-/

namespace StateSpace

/-! ## Wrapping once or at every step -/

theorem ValueType.wrap_modEq (t : ValueType) (n : Int) : t.wrap n ≡ n [ZMOD t.modulus] :=
  t.wrap_emod n

theorem ValueType.wrap_eq_of_modEq {t : ValueType} {m n : Int} (h : m ≡ n [ZMOD t.modulus]) :
    t.wrap m = t.wrap n := by
  refine wrap_congr ?_
  rw [bits, h, bits]

namespace Formula

/-- Whole numbers, and what is calculated from them without division. -/
inductive Calculation where
  | number (n : Nat)
  | negate (c : Calculation)
  | add (l r : Calculation)
  | sub (l r : Calculation)
  | mul (l r : Calculation)
  deriving DecidableEq, Repr

namespace Calculation

/-- The value in exact arithmetic. -/
def exact : Calculation → Int
  | number n => n
  | negate c => -c.exact
  | add l r => l.exact + r.exact
  | sub l r => l.exact - r.exact
  | mul l r => l.exact * r.exact

/-- What is left of the calculation when it is done in words of 128 bits, as far as they suffice:
only the opposite of the smallest number wraps around. -/
def folded : Calculation → Int
  | number n => n
  | negate c => Text.word128 (-c.folded)
  | add l r => l.folded + r.folded
  | sub l r => l.folded - r.folded
  | mul l r => l.folded * r.folded

/-- The calculation as an expression, with every number as a constant of the type. -/
def unfolded (t : ValueType) : Calculation → Expr
  | number n => .const (.ofInt n t)
  | negate c => .negate (c.unfolded t)
  | add l r => .arith .add (l.unfolded t) (r.unfolded t)
  | sub l r => .arith .sub (l.unfolded t) (r.unfolded t)
  | mul l r => .arith .mul (l.unfolded t) (r.unfolded t)

theorem type_unfolded (t : ValueType) (c : Calculation) : (c.unfolded t).type = t := by
  induction c with
  | number n => rfl
  | negate c ih => exact ih
  | add l r ihl _ | sub l r ihl _ | mul l r ihl _ => exact ihl

/-- Every modulus divides that of words of 128 bits, so that wrapping around there does no harm. -/
theorem folded_modEq (t : ValueType) (c : Calculation) : c.folded ≡ c.exact [ZMOD t.modulus] := by
  have hModulus : (t.modulus : Int) ∣ ((2 ^ 128 : Nat) : Int) := by
    rw [Int.natCast_dvd_natCast]
    refine Nat.pow_dvd_pow 2 ?_
    cases t with
    | signed w | unsigned w => cases w <;> decide
    | bool => decide
    | real p => exact Nat.le_add_left 64 64
  have hWord : ∀ n, Text.word128 n ≡ n [ZMOD t.modulus] := fun n =>
    Int.ModEq.of_dvd hModulus Int.bmod_emod
  induction c with
  | number n => exact .refl _
  | negate c ih => exact (hWord _).trans ih.neg
  | add l r ihl ihr => exact ihl.add ihr
  | sub l r ihl ihr => exact ihl.sub ihr
  | mul l r ihl ihr => exact ihl.mul ihr

/-- Wrapping at every step gives what wrapping once gives. -/
theorem eval_unfolded [Reals] {t : ValueType} (ht : t.isReal = false) (ρ : Environment)
    (c : Calculation) : (c.unfolded t).eval ρ = t.wrap c.exact := by
  have hRight : ∀ r : Calculation, t.wrap (t.wrap r.exact) ≡ r.exact [ZMOD t.modulus] :=
    fun r => (t.wrap_modEq _).trans (t.wrap_modEq _)
  have hArith : ∀ (op : Arithmetic) (l r : Calculation),
      (Expr.arith op (l.unfolded t) (r.unfolded t)).eval ρ =
        op.eval t ((l.unfolded t).eval ρ) (t.wrap ((r.unfolded t).eval ρ)) := by
    intro op l r
    rw [Expr.eval_arith op (by rwa [type_unfolded]) (by rwa [type_unfolded]), type_unfolded]
  induction c with
  | number n => exact (Expr.eval_int ht _).trans (t.fits_wrap n)
  | negate c ih =>
    rw [unfolded, Expr.eval_negate (by rwa [type_unfolded]), type_unfolded, ih]
    exact ValueType.wrap_eq_of_modEq (t.wrap_modEq _).neg
  | add l r ihl ihr =>
    rw [unfolded, hArith, ihl, ihr]
    exact ValueType.wrap_eq_of_modEq ((t.wrap_modEq _).add (hRight r))
  | sub l r ihl ihr =>
    rw [unfolded, hArith, ihl, ihr]
    exact ValueType.wrap_eq_of_modEq ((t.wrap_modEq _).sub (hRight r))
  | mul l r ihl ihr =>
    rw [unfolded, hArith, ihl, ihr]
    exact ValueType.wrap_eq_of_modEq ((t.wrap_modEq _).mul (hRight r))

/-! ## How calculations are spelled -/

/-- A sum is made of products, and a product of factors. -/
inductive Rank where
  | sum
  | product
  | factor

/-- The tokens of a calculation. Sums, differences and products group to the left; factors are
literals, negated factors, and calculations in parentheses. -/
inductive Spelled : Rank → List Token → Calculation → Prop
  | product {ts : List Token} {c : Calculation} (h : Spelled .product ts c) : Spelled .sum ts c
  | factor {ts : List Token} {c : Calculation} (h : Spelled .factor ts c) : Spelled .product ts c
  | add {tsl tsr : List Token} {l r : Calculation} (hl : Spelled .sum tsl l)
      (hr : Spelled .product tsr r) :
      Spelled .sum (tsl ++ .mark (.arithmetic .add) :: tsr) (.add l r)
  | sub {tsl tsr : List Token} {l r : Calculation} (hl : Spelled .sum tsl l)
      (hr : Spelled .product tsr r) :
      Spelled .sum (tsl ++ .mark (.arithmetic .sub) :: tsr) (.sub l r)
  | mul {tsl tsr : List Token} {l r : Calculation} (hl : Spelled .product tsl l)
      (hr : Spelled .factor tsr r) :
      Spelled .product (tsl ++ .mark (.arithmetic .mul) :: tsr) (.mul l r)
  | negate {ts : List Token} {c : Calculation} (h : Spelled .factor ts c) :
      Spelled .factor (.mark (.arithmetic .sub) :: ts) (.negate c)
  | parentheses {ts : List Token} {c : Calculation} (h : Spelled .sum ts c) :
      Spelled .factor (.mark .opening :: (ts ++ [.mark .closing])) c
  | number (n : Nat) : Spelled .factor [.int n] (.number n)

/-- A calculation does not start with a name. -/
theorem Spelled.head_ne_name {rank : Rank} {ts : List Token} {c : Calculation}
    (h : Spelled rank ts c) : ∃ token ts', ts = token :: ts' ∧ ∀ s, token ≠ .name s := by
  induction h with
  | product _ ih | factor _ ih => exact ih
  | add _ _ ih _ | sub _ _ ih _ | mul _ _ ih _ =>
    obtain ⟨token, ts', rfl, hToken⟩ := ih
    exact ⟨token, _, rfl, hToken⟩
  | negate | parentheses | number => exact ⟨_, _, rfl, by simp⟩

end Calculation

/-! ## What can only be read in one way -/

section ReadsOnly

variable {scope : List Variable} {k : Nat} {level : Level} {m : Mark}
  {combine : Term → Term → Except Fault Term} {ts tsl tsr : List Token} {l r t : Term}

/-- In front of anything that is no operator of the levels, the tokens are read as the operand or
not at all. -/
def ReadsOnly (scope : List Variable) (k : Nat) (ts : List Token) (t : Term) : Prop :=
  ∀ depth rest, Stops k rest →
    Yields (fun result => result = (t, rest)) (reader scope depth k (ts ++ rest))

/-- In front of an operator of the level, the tokens are the left operand of a chain, or they are
not read at all: what all chains from the operand yield is what is read. -/
def ChainsOnly (scope : List Variable) (k : Nat) (ts : List Token) (t : Term) : Prop :=
  ∀ level, Level.all[k]? = some level → level ≠ .comparisons → ∀ depth rest, Stops (k + 1) rest →
    ∀ P : Term × List Token → Prop,
      (∀ bound, rest.length ≤ bound →
        Yields P (chain (reader scope depth (k + 1)) level bound t rest)) →
      Yields P (reader scope depth k (ts ++ rest))

theorem reader_eq_bind (hLevel : Level.all[k]? = some level) (depth : Nat) (ts : List Token) :
    reader scope depth k ts = reader scope depth (k + 1) ts >>= fun result =>
      chain (reader scope depth (k + 1)) level (level.chainBound result.2.length) result.1
        result.2 := by
  unfold reader
  rw [drop_levels hLevel]
  rfl

theorem chain_eq_bind {operand : Reader Term} (hCombine : level.combine? m = some combine)
    (bound : Nat) (ts : List Token) :
    chain operand level (bound + 1) l (.mark m :: ts) = operand ts >>= fun result =>
      combine l result.1 >>= fun both => chain operand level bound both result.2 := by
  simp only [chain, hCombine]

theorem ReadsOnly.looser (h : ReadsOnly scope (k + 1) ts t) (hLevel : Level.all[k]? = some level) :
    ReadsOnly scope k ts t := by
  intro depth rest hStops
  rw [reader_eq_bind hLevel]
  refine (h depth rest hStops.succ).bind ?_
  rintro _ rfl
  rw [chain_stops hLevel hStops]
  exact .ok rfl

theorem ReadsOnly.weaken {j : Nat} (h : ReadsOnly scope k ts t) (hk : k ≤ Level.all.length)
    (hj : j ≤ k) : ReadsOnly scope j ts t := by
  induction hj with
  | refl => exact h
  | step _ ih => exact ih (h.looser (List.getElem?_eq_getElem hk)) (Nat.le_of_succ_le hk)

theorem ReadsOnly.chainsOnly (h : ReadsOnly scope (k + 1) ts t) : ChainsOnly scope k ts t := by
  intro level hLevel hChain depth rest hStops P hP
  rw [reader_eq_bind hLevel]
  refine (h depth rest hStops).bind ?_
  rintro _ rfl
  refine hP _ ?_
  cases level with
  | comparisons => exact absurd rfl hChain
  | _ => exact Nat.le_refl _

theorem ChainsOnly.tightest : ChainsOnly scope Level.tightest ts t := by
  intro level hLevel
  rw [List.getElem?_eq_none (Nat.le_refl _)] at hLevel
  cases hLevel

theorem ChainsOnly.readsOnly (h : ChainsOnly scope k ts t) (hLevel : Level.all[k]? = some level)
    (hChain : level ≠ .comparisons) : ReadsOnly scope k ts t := by
  intro depth rest hStops
  refine h level hLevel hChain depth rest hStops.succ _ fun bound _ => ?_
  rw [chain_stops hLevel hStops]
  exact .ok rfl

/-- A chain is read as its one result or not at all. -/
theorem ChainsOnly.binary (hLevel : Level.all[k]? = some level)
    (hCombine : level.combine? m = some combine) (hl : ChainsOnly scope k tsl l)
    (hr : ReadsOnly scope (k + 1) tsr r) (h : Yields (fun both => both = t) (combine l r)) :
    ChainsOnly scope k (tsl ++ .mark m :: tsr) t := by
  intro level' hLevel' hChain depth rest hStops P hP
  obtain rfl : level = level' := Option.some.inj (hLevel.symm.trans hLevel')
  have hm : (level.combine? m).isSome = true := by rw [hCombine]; rfl
  rw [List.append_assoc, List.cons_append]
  refine hl level hLevel hChain depth _ (.operator hLevel hm _) P fun bound hBound => ?_
  rw [List.length_cons, List.length_append] at hBound
  obtain ⟨bound, rfl⟩ : ∃ n, bound = n + 1 := ⟨bound - 1, by omega⟩
  rw [chain_eq_bind hCombine]
  refine (hr depth rest hStops).bind ?_
  rintro _ rfl
  refine h.bind ?_
  rintro _ rfl
  exact hP bound (by omega)

/-- A comparison is the only one of its level. -/
theorem ReadsOnly.comparison {op : Comparison} (hLevel : Level.all[k]? = some .comparisons)
    (hl : ReadsOnly scope (k + 1) tsl l) (hr : ReadsOnly scope (k + 1) tsr r)
    (h : Yields (fun both => both = t) (Term.compare op l r)) :
    ReadsOnly scope k (tsl ++ .mark (.comparison op) :: tsr) t := by
  intro depth rest hStops
  rw [List.append_assoc, List.cons_append, reader_eq_bind hLevel]
  refine (hl depth _ (.operator hLevel rfl _)).bind ?_
  rintro _ rfl
  show Yields _ (chain _ _ 1 _ _)
  rw [chain_eq_bind rfl]
  refine (hr depth rest hStops.succ).bind ?_
  rintro _ rfl
  refine h.bind ?_
  rintro _ rfl
  exact .ok rfl

/-- What unary operators and operands have to show. -/
theorem ReadsOnly.of_unary
    (h : ∀ depth rest, Yields (fun result => result = (t, rest))
      (unary scope (formula scope depth) (ts ++ rest))) :
    ReadsOnly scope Level.tightest ts t :=
  fun depth rest _ => h depth rest

theorem ReadsOnly.negate (h : ReadsOnly scope Level.tightest ts t) :
    ReadsOnly scope Level.tightest (.mark (.arithmetic .sub) :: ts) t.negate := by
  refine .of_unary fun depth rest => ?_
  rw [List.cons_append, unary]
  refine Yields.bind (h depth rest (.tightest rest)) ?_
  rintro _ rfl
  exact .ok rfl

/-- Parentheses that start with no name are read as what they hold or not at all. -/
theorem ReadsOnly.parentheses (h : ReadsOnly scope 0 ts t)
    (hHead : ∃ token ts', ts = token :: ts' ∧ ∀ s, token ≠ .name s) :
    ReadsOnly scope Level.tightest (.mark .opening :: (ts ++ [.mark .closing])) t := by
  refine .of_unary fun depth rest => ?_
  have hCast : NoCast (ts ++ .mark .closing :: rest) := by
    obtain ⟨token, ts', rfl, hToken⟩ := hHead
    intro s ts'' heq
    exact hToken s (List.cons.inj heq).1
  rw [List.cons_append, List.append_assoc, List.singleton_append, unary_opening hCast]
  simp only [primary]
  cases depth with
  | zero => exact .error _
  | succ depth =>
    rw [formula_succ]
    refine (h depth _ (.closing rest)).bind ?_
    rintro _ rfl
    exact .ok rfl

end ReadsOnly

/-! ## Calculations -/

namespace Calculation

variable {scope : List Variable} {rank : Rank} {ts : List Token} {c : Calculation}

/-- The level of precedence of a rank. -/
def Rank.level : Rank → Nat
  | sum => 9
  | product => 10
  | factor => Level.tightest

/-- Literals are calculated exactly, or not at all. -/
theorem yields_calculate {op : Arithmetic} {a b n : Int}
    (h : Term.literalArithmetic? op a b = (some n).filter Text.fits128) :
    Yields (fun both => both = .int n) (Term.calculate op (.int a) (.int b)) := by
  simp only [Term.calculate, h]
  split
  · next m hm =>
    have hExact : some n = some m := Option.eq_some_of_filter_eq_some hm
    exact .ok (congrArg Term.int (Option.some.inj hExact).symm)
  · exact .error _

/-- What is read of a calculation is what it folds to. -/
theorem Spelled.readsOnly (h : Spelled rank ts c) :
    ReadsOnly scope rank.level ts (.int c.folded) ∧
      ChainsOnly scope rank.level ts (.int c.folded) := by
  induction h with
  | product _ ih => exact ⟨ih.1.looser (k := 9) rfl, ih.1.chainsOnly⟩
  | factor _ ih => exact ⟨ih.1.looser (k := 10) rfl, ih.1.chainsOnly⟩
  | add _ _ ihl ihr =>
    have hChains := ChainsOnly.binary (k := 9) (m := .arithmetic .add) rfl rfl ihl.2 ihr.1
      (yields_calculate rfl)
    exact ⟨hChains.readsOnly rfl (by simp), hChains⟩
  | sub _ _ ihl ihr =>
    have hChains := ChainsOnly.binary (k := 9) (m := .arithmetic .sub) rfl rfl ihl.2 ihr.1
      (yields_calculate rfl)
    exact ⟨hChains.readsOnly rfl (by simp), hChains⟩
  | mul _ _ ihl ihr =>
    have hChains := ChainsOnly.binary (k := 10) (m := .arithmetic .mul) rfl rfl ihl.2 ihr.1
      (yields_calculate rfl)
    exact ⟨hChains.readsOnly rfl (by simp), hChains⟩
  | negate _ ih => exact ⟨ih.1.negate, .tightest⟩
  | parentheses h ih =>
    exact ⟨(ih.1.weaken (by decide) (Nat.zero_le _)).parentheses h.head_ne_name, .tightest⟩
  | number n => exact ⟨.of_unary fun _ _ => .ok rfl, .tightest⟩

end Calculation

/-! ## Comparisons with a calculation -/

/-- A name is a truth value or the variable of the name. -/
theorem readsOnly_name {scope : List Variable} {x : Variable}
    (h : lookUp scope x.name = .ok (.var x)) :
    ReadsOnly scope Level.tightest [.name x.name] (.expr (.truth true)) ∨
      ReadsOnly scope Level.tightest [.name x.name] (.expr (.truth false)) ∨
      ReadsOnly scope Level.tightest [.name x.name] (.expr (.var x)) := by
  have hUnary : ∀ depth rest, unary scope (formula scope depth) ([.name x.name] ++ rest) =
      primary scope (formula scope depth) (.name x.name :: rest) := fun _ _ => rfl
  by_cases hTrue : Text.sameIgnoringCase x.name "true" = true
  · refine .inl (.of_unary fun depth rest => ?_)
    rw [hUnary, primary, if_pos hTrue]
    exact .ok rfl
  · by_cases hFalse : Text.sameIgnoringCase x.name "false" = true
    · refine .inr (.inl (.of_unary fun depth rest => ?_))
      rw [hUnary, primary, if_neg hTrue, if_pos hFalse]
      exact .ok rfl
    · refine .inr (.inr (.of_unary fun depth rest => ?_))
      rw [hUnary, primary, if_neg hTrue, if_neg hFalse, h]
      exact .ok rfl

/-- A literal takes the type of the variable that it is compared with. -/
theorem compare_literal {x : Variable} (hx : x.type.isInteger = true) (n : Int) :
    Term.compare .eq (.expr (.var x)) (.int n) =
      .ok (.expr (.compare .eq (.var x) (.const (.ofInt n x.type)))) := by
  obtain ⟨name, type⟩ := x
  cases type with
  | signed w => rfl
  | unsigned w => rfl
  | bool => cases hx
  | real p => cases hx

/-- The comparison of a variable with a calculation is read as one with the value of the
calculation. A truth value cannot be compared with it. -/
theorem readsOnly_equality {scope : List Variable} {x : Variable}
    (hInteger : x.type.isInteger = true)
    (hScope : lookUp scope x.name = .ok (.var x)) {ts : List Token} {c : Calculation}
    (hSpelled : Calculation.Spelled .sum ts c) :
    ReadsOnly scope 0 ([.name x.name] ++ .mark (.comparison .eq) :: ts)
      (.expr (.compare .eq (.var x) (.const (.ofInt c.folded x.type)))) := by
  have hRight : ReadsOnly scope 5 ts (.int c.folded) :=
    hSpelled.readsOnly.1.weaken (by decide) (by decide)
  have hComparison : ∀ {l : Term}, ReadsOnly scope Level.tightest [.name x.name] l →
      Yields (fun both => both = .expr (.compare .eq (.var x) (.const (.ofInt c.folded x.type))))
        (Term.compare .eq l (.int c.folded)) →
      ReadsOnly scope 0 ([.name x.name] ++ .mark (.comparison .eq) :: ts)
        (.expr (.compare .eq (.var x) (.const (.ofInt c.folded x.type)))) := by
    intro l hl hCompare
    have hLeft : ReadsOnly scope 5 [.name x.name] l := hl.weaken (Nat.le_refl _) (by decide)
    exact (ReadsOnly.comparison (k := 4) rfl hLeft hRight hCompare).weaken (by decide)
      (Nat.zero_le _)
  rcases readsOnly_name hScope with hTrue | hFalse | hVar
  · exact hComparison hTrue (.error _)
  · exact hComparison hFalse (.error _)
  · refine hComparison hVar ?_
    rw [compare_literal hInteger]
    exact .ok rfl

/-- Where `x == L` is accepted, with an integer variable `x` and a calculation `L` from literals,
the right operand is a constant of the type of `x`. Its value is that of the calculation, evaluated
step by step in two's complement at that type. -/
theorem parseExpression_folds_literals [Reals] {scope : List Variable} {x : Variable}
    (hInteger : x.type.isInteger = true) (hScope : lookUp scope x.name = .ok (.var x))
    {text : String}
    {ts : List Token}
    (hTokens : Token.scan text = .ok (.name x.name :: .mark (.comparison .eq) :: ts))
    {c : Calculation} (hSpelled : Calculation.Spelled .sum ts c) {e : Expr}
    (hAccepted : parseExpression text scope = .ok e) :
    ∃ n, e = .compare .eq (.var x) (.const (.int n x.type)) ∧ x.type.Fits n ∧
      ∀ ρ, (c.unfolded x.type).eval ρ = n := by
  have hReal : x.type.isReal = false := by
    cases h : x.type <;> first | rfl | simp [h, ValueType.isInteger] at hInteger
  have hSame : x.type.wrap c.exact = x.type.wrap c.folded :=
    ValueType.wrap_eq_of_modEq (c.folded_modEq x.type).symm
  refine ⟨x.type.wrap c.folded, ?_, x.type.fits_wrap _, fun ρ => hSame ▸ c.eval_unfolded hReal ρ⟩
  have hYields : Yields (fun e => e = .compare .eq (.var x) (.const (.ofInt c.folded x.type)))
      (parseExpression text scope) := by
    have hRead := readsOnly_equality hInteger hScope hSpelled (ts.length + 2) [] .nil
    rw [List.append_nil] at hRead
    rw [parseExpression, hTokens]
    refine hRead.bind ?_
    rintro _ rfl
    exact .ok rfl
  exact hYields e hAccepted

open scoped Reals

/-- An unsigned number of 64 bits. -/
def wordVariable : Variable := ⟨"x", .unsigned .w64⟩

/-- The calculation `2 - 3*(4 + -(-5))`. -/
def belowZero : Calculation :=
  .sub (.number 2) (.mul (.number 3) (.add (.number 4) (.negate (.negate (.number 5)))))

/-- The tokens of `2 - 3*(4 + -(-5))`. -/
def belowZeroTokens : List Token :=
  [.int 2, .mark (.arithmetic .sub), .int 3, .mark (.arithmetic .mul), .mark .opening, .int 4,
    .mark (.arithmetic .add), .mark (.arithmetic .sub), .mark .opening, .mark (.arithmetic .sub),
      .int 5,
    .mark .closing, .mark .closing]

theorem spelled_belowZero : Calculation.Spelled .sum belowZeroTokens belowZero := by
  have hFive := (Calculation.Spelled.number 5).negate.factor.product.parentheses.negate
  have hNine := ((Calculation.Spelled.number 4).factor.product.add hFive.factor).parentheses
  exact (Calculation.Spelled.number 2).factor.product.sub
    ((Calculation.Spelled.number 3).factor.mul hNine)

/-- At 64 unsigned bits the calculation wraps around below zero. -/
theorem parseExpression_folds_literals_belowZero :
    wordVariable.type.isInteger = true ∧ lookUp [wordVariable] "x" = .ok (.var wordVariable) ∧
      Token.scan "x == 2 - 3*(4 + -(-5))" =
        .ok (.name "x" :: .mark (.comparison .eq) :: belowZeroTokens) ∧
      Calculation.Spelled .sum belowZeroTokens belowZero ∧
      ∃ e, parseExpression "x == 2 - 3*(4 + -(-5))" [wordVariable] = .ok e ∧
        ∃ n, e = .compare .eq (.var wordVariable) (.const (.int n (.unsigned .w64))) ∧
          ValueType.Fits (.unsigned .w64) n ∧ ∀ ρ,
            (belowZero.unfolded (.unsigned .w64)).eval ρ = n := by
  have hScope : lookUp [wordVariable] "x" = .ok (.var wordVariable) := by decide
  have hTokens : Token.scan "x == 2 - 3*(4 + -(-5))" =
      .ok (.name "x" :: .mark (.comparison .eq) :: belowZeroTokens) := by decide +kernel
  have hAccepted : parseExpression "x == 2 - 3*(4 + -(-5))" [wordVariable] =
      .ok (.compare .eq (.var wordVariable)
        (.const (.int 18446744073709551591 (.unsigned .w64)))) := by
    decide +kernel
  exact ⟨rfl, hScope, hTokens, spelled_belowZero, _, hAccepted,
    parseExpression_folds_literals (x := wordVariable) rfl hScope hTokens spelled_belowZero
      hAccepted⟩

end Formula

end StateSpace
