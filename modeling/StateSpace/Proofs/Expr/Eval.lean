import StateSpace.Expr.Eval
import StateSpace.Proofs.ValueType

/-!
# Values of expressions and their free variables

The value of an expression depends on the values of its free variables alone (`Expr.eval_congr`).
Quantifiers range over environments: some values of the variables satisfy a property exactly if some
environment that agrees on all other variables does (`Environment.someOver_eq_true`), however often
a variable is listed.
-/

namespace StateSpace

/-! ## The order of variables -/

instance : Std.TransOrd ValueType :=
  inferInstanceAs (Std.TransCmp (compareOn ValueType.rank))

instance : Std.TransOrd Variable :=
  inferInstanceAs (Std.TransCmp (compareLex (compareOn Variable.name) (compareOn Variable.type)))

theorem ValueType.getElem?_all_rank (t : ValueType) : all[t.rank]? = some t := by
  cases t with
  | signed w | unsigned w => cases w <;> rfl
  | bool => rfl
  | real p => cases p <;> rfl

theorem ValueType.rank_injective {t t' : ValueType} (h : t.rank = t'.rank) : t = t' := by
  have hAll := t.getElem?_all_rank
  rw [h, t'.getElem?_all_rank] at hAll
  exact (Option.some.inj hAll).symm

instance : Std.LawfulEqOrd Variable where
  eq_of_compare {x y} h := by
    obtain ⟨hName, hType⟩ := Ordering.then_eq_eq.mp h
    obtain ⟨x, t⟩ := x
    obtain ⟨y, t'⟩ := y
    have hRank : compare t.rank t'.rank = .eq := hType
    rw [Variable.mk.injEq]
    exact ⟨Std.LawfulEqOrd.eq_of_compare hName,
      ValueType.rank_injective (Std.LawfulEqOrd.eq_of_compare hRank)⟩

/-! ## Free variables -/

namespace Expr

/-- A variable occurs outside the scopes of the quantifiers that bind it. -/
def Free (x : Variable) : Expr → Prop
  | const _ => False
  | var y => x = y
  | not e => Free x e
  | logical _ l r => Free x l ∨ Free x r
  | compare _ l r => Free x l ∨ Free x r
  | arith _ l r => Free x l ∨ Free x r
  | bitwise _ l r => Free x l ∨ Free x r
  | negate e => Free x e
  | complement e => Free x e
  | cast _ e => Free x e
  | quantified _ xs body => x ∉ xs ∧ Free x body

/-- Inserting a variable adds it and nothing else. -/
theorem mem_insertVariable {x y : Variable} {xs : List Variable} :
    y ∈ insertVariable x xs ↔ y = x ∨ y ∈ xs := by
  induction xs with
  | nil => simp [insertVariable]
  | cons z zs ih =>
    unfold insertVariable
    split
    · simp
    · next heq =>
      obtain rfl : x = z := Std.LawfulEqOrd.eq_of_compare heq
      simp
    · simp [ih, or_left_comm]

/-- The free variables are collected on top of what is there. -/
theorem mem_addFree {x : Variable} {bound acc : List Variable} (e : Expr) :
    x ∈ addFree bound e acc ↔ x ∈ acc ∨ x ∉ bound ∧ e.Free x := by
  induction e generalizing bound acc with
  | const v => simp [addFree, Free]
  | var y =>
    unfold addFree Free
    by_cases hy : y ∈ bound
    · rw [if_pos (by simpa using hy)]
      constructor
      · exact .inl
      · rintro (h | ⟨hx, rfl⟩)
        · exact h
        · exact absurd hy hx
    · rw [if_neg (by simpa using hy), mem_insertVariable]
      constructor
      · rintro (rfl | h)
        · exact .inr ⟨hy, rfl⟩
        · exact .inl h
      · rintro (h | ⟨-, rfl⟩)
        · exact .inr h
        · exact .inl rfl
  | not e ih | negate e ih | complement e ih | cast t e ih => exact ih
  | logical op l r ihl ihr | compare op l r ihl ihr | arith op l r ihl ihr
  | bitwise op l r ihl ihr =>
    simp only [addFree, Free, ihr, ihl, and_or_left, or_assoc]
  | quantified q xs body ih =>
    simp only [addFree, Free, ih, List.mem_append, not_or, and_assoc, and_left_comm]

theorem mem_freeVariables {x : Variable} {e : Expr} : x ∈ e.freeVariables ↔ e.Free x := by
  simp [freeVariables, mem_addFree]

end Expr

/-! ## Values at a type -/

namespace ValueType

variable {t source : ValueType} {n : Int}

theorem exists_of_isReal (ht : t.isReal = true) : ∃ p, t = .real p := by
  cases t <;> first | exact ⟨_, rfl⟩ | cases ht

theorem ifReal_of_isReal_eq_false {α : Type} {real : Precision → α} {whole : α}
    (ht : t.isReal = false) : t.ifReal real whole = whole := by
  cases t <;> first | rfl | cases ht

variable [Reals]

theorem hold_eq_wrap (ht : t.isReal = false) (n : Int) : t.hold n = t.wrap n :=
  ifReal_of_isReal_eq_false ht

theorem convert_eq_wrap (ht : t.isReal = false) (hSource : source.isReal = false) (n : Int) :
    t.convert source n = t.wrap n := by
  simp [convert, ht, hSource, hold_eq_wrap]

theorem convert_self (t : ValueType) (n : Int) : t.convert t n = t.hold n := by
  simp [convert]

@[simp] theorem hold_hold (t : ValueType) (n : Int) : t.hold (t.hold n) = t.hold n := by
  cases hReal : t.isReal with
  | true =>
    obtain ⟨p, rfl⟩ := exists_of_isReal hReal
    exact Reals.round_round p n
  | false =>
    rw [hold_eq_wrap hReal, hold_eq_wrap hReal]
    exact t.fits_wrap n

/-- Some value has a property that only looks at values if some number has it. -/
theorem anyValue_eq_true {f : Int → Bool} (hf : ∀ m n, t.hold m = t.hold n → f m = f n) :
    t.anyValue f = true ↔ ∃ n, f n = true := by
  cases hReal : t.isReal with
  | true =>
    obtain ⟨p, rfl⟩ := exists_of_isReal hReal
    show (Reals.find? p f).isSome = true ↔ _
    cases hFind : Reals.find? p f with
    | some n => exact iff_of_true rfl ⟨n, Reals.find?_eq_some hFind⟩
    | none =>
      refine iff_of_false Bool.false_ne_true fun ⟨n, hn⟩ => ?_
      rw [← hf _ _ (hold_hold _ n)] at hn
      exact Bool.false_ne_true ((Reals.find?_eq_none hFind n).symm.trans hn)
  | false =>
    rw [anyValue, ifReal_of_isReal_eq_false hReal, List.any_eq_true]
    constructor
    · rintro ⟨n, -, hn⟩
      exact ⟨n, hn⟩
    · rintro ⟨n, hn⟩
      refine ⟨t.bits n, List.mem_range.mpr (t.bits_lt_modulus n), hn ▸ hf _ _ ?_⟩
      rw [hold_eq_wrap hReal, hold_eq_wrap hReal, wrap_bits]

end ValueType

namespace Reals

theorem find?_wrap_eq_none (t : ValueType) {f : Int → Bool}
    (h : ((List.range t.modulus).map fun n : Nat => t.wrap n).find? f = none) (n : Int) :
    f (t.wrap n) = false := by
  have hMem : t.bits n ∈ List.range t.modulus := List.mem_range.mpr (t.bits_lt_modulus n)
  have hNot := List.find?_eq_none.mp h _ (List.mem_map_of_mem hMem)
  rw [ValueType.wrap_bits] at hNot
  exact Bool.eq_false_of_not_eq_true hNot

/-- The reals that are whole numbers of 64 bits, where a numeral spells its whole part. -/
scoped instance wholes : Reals where
  round _ n := (ValueType.signed .w64).wrap n
  constant _ text := (Text.signed128? (text.toList.takeWhile (· ≠ '.'))).getD 0
  compare _ op m n := op.eval ((ValueType.signed .w64).wrap m) ((ValueType.signed .w64).wrap n)
  arith _ op m n := op.eval (.signed .w64) m n
  bitwise _ _ op m n := op.eval (.signed .w64) m ((ValueType.signed .w64).bits n)
  negate _ n := -n
  complement _ n := -n - 1
  convert _ _ n := n
  find? _ f := ((List.range (ValueType.signed .w64).modulus).map
    fun n : Nat => (ValueType.signed .w64).wrap n).find? f
  round_round _ n := ValueType.fits_wrap _ n
  compare_eq _ _ _ := decide_eq_true_iff
  find?_eq_some := List.find?_some
  find?_eq_none := find?_wrap_eq_none _

end Reals

variable [Reals]

/-! ## Quantifiers over environments -/

namespace Environment

variable {ρ ρ' : Environment} {p : Environment → Bool} {xs : List Variable}

/-- A property that only looks at the values in the range of the variables' types. -/
def Respects (p : Environment → Bool) : Prop :=
  ∀ ⦃ρ ρ' : Environment⦄, (∀ x, ρ.get x = ρ'.get x) → p ρ = p ρ'

/-- Two environments that may differ in the values of some variables. -/
def AgreeOff (xs : List Variable) (ρ ρ' : Environment) : Prop :=
  ∀ x, x ∉ xs → ρ'.get x = ρ.get x

theorem get_set (ρ : Environment) (x y : Variable) (n : Int) :
    (ρ.set x n).get y = if y = x then y.type.hold n else ρ.get y := by
  unfold get set
  split <;> rfl

/-- Another value of one variable is the same environment, if it is the same value. -/
theorem Respects.set_congr (hp : Respects p) {x : Variable} {m n : Int}
    (h : x.type.hold m = x.type.hold n) (ρ : Environment) : p (ρ.set x m) = p (ρ.set x n) := by
  refine hp fun y => ?_
  rw [get_set, get_set]
  split
  · next hy => rw [hy, h]
  · rfl

/-- Quantifying keeps to the ranges of the types. -/
theorem Respects.someOver (hp : Respects p) (xs : List Variable) : Respects (someOver p xs) := by
  induction xs with
  | nil => exact hp
  | cons x xs ih =>
    intro ρ ρ' h
    have hSet : ∀ n, Environment.someOver p xs (ρ.set x n) =
        Environment.someOver p xs (ρ'.set x n) := by
      intro n
      refine ih fun y => ?_
      rw [get_set, get_set, h]
    simp only [Environment.someOver, hSet]

/-- A quantifier over variables finds any environment that differs there only. -/
theorem someOver_eq_true (hp : Respects p) :
    someOver p xs ρ = true ↔ ∃ ρ', AgreeOff xs ρ ρ' ∧ p ρ' = true := by
  induction xs generalizing ρ with
  | nil =>
    constructor
    · intro h
      exact ⟨ρ, fun _ _ => rfl, h⟩
    · rintro ⟨ρ', hAgree, h⟩
      rw [← h]
      exact hp fun x => (hAgree x List.not_mem_nil).symm
  | cons x xs ih =>
    rw [someOver, ValueType.anyValue_eq_true fun m n h => (hp.someOver xs).set_congr h ρ]
    simp only [ih]
    constructor
    · rintro ⟨n, ρ', hAgree, h⟩
      refine ⟨ρ', fun y hy => ?_, h⟩
      obtain ⟨hne, hy⟩ := not_or.mp (mt List.mem_cons.mpr hy)
      rw [hAgree y hy, get_set, if_neg hne]
    · -- the value that the environment gives to the first variable
      rintro ⟨ρ', hAgree, h⟩
      refine ⟨ρ' x, ρ', fun y hy => ?_, h⟩
      rw [get_set]
      split
      · next heq =>
        subst heq
        rfl
      · next hne => exact hAgree y fun hMem => (List.mem_cons.mp hMem).elim hne hy

theorem everyOver_eq_true (hp : Respects p) :
    everyOver p xs ρ = true ↔ ∀ ρ', AgreeOff xs ρ ρ' → p ρ' = true := by
  have hNot : Respects fun ρ => !p ρ := fun ρ ρ' h => congrArg _ (hp h)
  rw [everyOver, Bool.not_eq_true', ← Bool.not_eq_true, someOver_eq_true hNot]
  simp

end Environment

/-! ## Evaluation -/

namespace Expr

open Environment

-- All that follows unfolds `eval`: its equations are made once, before they are asked for side by
-- side.
section

attribute [local simp] eval

end

/-- The value of an expression depends on the values of its free variables alone. -/
theorem eval_congr {ρ ρ' : Environment} (e : Expr) (h : ∀ x, e.Free x → ρ.get x = ρ'.get x) :
    e.eval ρ = e.eval ρ' := by
  induction e generalizing ρ ρ' with
  | const v => cases v <;> rfl
  | var x => exact h x rfl
  | not e ih | negate e ih | complement e ih | cast t e ih =>
    simp only [eval, ih h]
  | logical op l r ihl ihr | compare op l r ihl ihr | arith op l r ihl ihr
  | bitwise op l r ihl ihr =>
    simp only [eval, ihl fun x hx => h x (.inl hx), ihr fun x hx => h x (.inr hx)]
  | quantified q xs body ih =>
    have hp : Respects fun ρ => decide (body.eval ρ ≠ 0) := by
      intro ρ ρ' h
      simp only [ih fun x _ => h x]
    -- what one environment can be changed into, so can the other
    have hMove : ∀ {ρ ρ' : Environment}, (∀ x, (quantified q xs body).Free x → ρ.get x = ρ'.get x) →
        ∀ σ, AgreeOff xs ρ σ → ∃ σ', AgreeOff xs ρ' σ' ∧ body.eval σ = body.eval σ' := by
      intro ρ ρ' h σ hσ
      refine ⟨fun x => if x ∈ xs then σ x else ρ' x, fun x hx => ?_, ih fun x hFree => ?_⟩
      · simp [Environment.get, hx]
      · by_cases hx : x ∈ xs
        · simp [Environment.get, hx]
        · rw [hσ x hx, h x ⟨hx, hFree⟩]
          simp [Environment.get, hx]
    have hSymm := fun x hx => (h x hx).symm
    cases q with
    | existential =>
      simp only [eval]
      congr 1
      rw [Bool.eq_iff_iff, someOver_eq_true hp, someOver_eq_true hp]
      constructor
      · rintro ⟨σ, hσ, hBody⟩
        obtain ⟨σ', hσ', heq⟩ := hMove h σ hσ
        exact ⟨σ', hσ', heq ▸ hBody⟩
      · rintro ⟨σ, hσ, hBody⟩
        obtain ⟨σ', hσ', heq⟩ := hMove hSymm σ hσ
        exact ⟨σ', hσ', heq ▸ hBody⟩
    | universal =>
      simp only [eval]
      congr 1
      rw [Bool.eq_iff_iff, everyOver_eq_true hp, everyOver_eq_true hp]
      constructor
      · intro hAll σ hσ
        obtain ⟨σ', hσ', heq⟩ := hMove hSymm σ hσ
        exact heq ▸ hAll σ' hσ'
      · intro hAll σ hσ
        obtain ⟨σ', hσ', heq⟩ := hMove h σ hσ
        exact heq ▸ hAll σ' hσ'

section Wholes

/-! Without reals, operations are those of the integers. -/

variable {ρ : Environment} {e l r : Expr}

theorem eval_int {t : ValueType} (ht : t.isReal = false) (n : Int) :
    (const (.int n t)).eval ρ = t.wrap n :=
  ValueType.hold_eq_wrap ht n

theorem eval_compare (op : Comparison) (hl : l.type.isReal = false) (hr : r.type.isReal = false) :
    (compare op l r).eval ρ = truthValue (op.eval (l.eval ρ) (l.type.wrap (r.eval ρ))) := by
  simp only [eval, ValueType.ifReal_of_isReal_eq_false hl, ValueType.convert_eq_wrap hl hr]

theorem eval_arith (op : Arithmetic) (hl : l.type.isReal = false) (hr : r.type.isReal = false) :
    (arith op l r).eval ρ = op.eval l.type (l.eval ρ) (l.type.wrap (r.eval ρ)) := by
  simp only [eval, ValueType.ifReal_of_isReal_eq_false hl, ValueType.convert_eq_wrap hl hr]

theorem eval_bitwise (op : Bitwise) (hl : l.type.isReal = false) (hr : r.type.isReal = false) :
    (bitwise op l r).eval ρ = op.eval l.type (l.eval ρ) (r.type.bits (r.eval ρ)) := by
  simp [eval, hl, hr]

theorem eval_negate (he : e.type.isReal = false) :
    (negate e).eval ρ = e.type.wrap (-e.eval ρ) := by
  rw [eval, ValueType.ifReal_of_isReal_eq_false he]

theorem eval_complement (he : e.type.isReal = false) :
    (complement e).eval ρ = e.type.wrap (-e.eval ρ - 1) := by
  rw [eval, ValueType.ifReal_of_isReal_eq_false he]

theorem eval_cast {t : ValueType} (ht : t.isReal = false) (he : e.type.isReal = false) :
    (cast t e).eval ρ = if t = .bool then truthValue (e.eval ρ ≠ 0) else t.wrap (e.eval ρ) := by
  cases t <;> simp [eval, he, ht, ValueType.isBool, ValueType.convert_eq_wrap]

end Wholes

theorem respects_eval (e : Expr) : Respects fun ρ => decide (e.eval ρ ≠ 0) := by
  intro ρ ρ' h
  simp only [e.eval_congr fun x _ => h x]

end Expr

end StateSpace
