import StateSpace.Formula.Parser
import StateSpace.Proofs.Formula.Lexing
import StateSpace.Proofs.ValueType

/-!
# The grammar of formulas

`Written scope k cs ts t` says that the characters `cs`, which have the tokens `ts`, write the
operand `t` where operators of level `k` and of tighter levels may stand without parentheses. The
rules follow the levels of precedence: the left operand of an operator is written at the operator's
own level, since operators group to the left, and the right operand at the next one; both operands
of a comparison are written at the next one.

* `Written.spells` scans the characters, whatever follows;
* `Written.reads` reads the tokens, whatever follows that is no operator of the levels;
* `Written.parseExpression_eq` puts the two together for a whole text.
-/

namespace StateSpace.Formula

/-- The level behind all levels of binary operators, on which unary operators and casts stand. -/
abbrev Level.tightest : Nat := Level.all.length

/-- A way to write an operand, as characters and as tokens. -/
inductive Written (scope : List Variable) : Nat → List Char → List Token → Term → Prop
  /-- What may stand at a level may stand at the levels before it. -/
  | looser {k : Nat} {cs : List Char} {ts : List Token} {t : Term}
      (h : Written scope (k + 1) cs ts t) : Written scope k cs ts t
  | binary {k : Nat} {level : Level} {m : Mark} {combine : Term → Term → Except Fault Term}
      {csl csr : List Char} {tsl tsr : List Token} {l r t : Term}
      (hLevel : Level.all[k]? = some level) (hChain : level ≠ .comparisons)
      (hCombine : level.combine? m = some combine) (hl : Written scope k csl tsl l)
      (hr : Written scope (k + 1) csr tsr r) (h : combine l r = .ok t) :
      Written scope k (csl ++ ' ' :: (m.text.toList ++ ' ' :: csr)) (tsl ++ .mark m :: tsr) t
  | comparison {k : Nat} {op : Comparison} {csl csr : List Char} {tsl tsr : List Token}
      {l r t : Term}
      (hLevel : Level.all[k]? = some .comparisons) (hl : Written scope (k + 1) csl tsl l)
      (hr : Written scope (k + 1) csr tsr r) (h : Term.compare op l r = .ok t) :
      Written scope k (csl ++ ' ' :: ((Mark.comparison op).text.toList ++ ' ' :: csr))
        (tsl ++ .mark (.comparison op) :: tsr) t
  | not {cs : List Char} {ts : List Token} {t : Term} {e : Expr}
      (h : Written scope Level.tightest cs ts t) (he : t.toBoolean = .ok e) :
      Written scope Level.tightest ('!' :: cs) (.mark .bang :: ts) (.expr (.not e))
  | complement {cs : List Char} {ts : List Token} {t : Term} {e : Expr}
      (h : Written scope Level.tightest cs ts t) (he : t.toExpr none = .ok e) :
      Written scope Level.tightest ('~' :: cs) (.mark .tilde :: ts) (.expr (.complement e))
  | negate {cs : List Char} {ts : List Token} {t : Term}
      (h : Written scope Level.tightest cs ts t) :
      Written scope Level.tightest ('-' :: cs) (.mark (.arithmetic .sub) :: ts) t.negate
  | cast {cs : List Char} {ts : List Token} {t u : Term} {type : ValueType}
      (h : Written scope Level.tightest cs ts t) (hCast : t.castTo type = .ok u) :
      Written scope Level.tightest ('(' :: (type.name.toList ++ ')' :: ' ' :: cs))
        (.mark .opening :: .name type.name :: .mark .closing :: ts) u
  /-- A lone name in parentheses might be taken for a cast. -/
  | parentheses {cs : List Char} {ts : List Token} {t : Term} (h : Written scope 0 cs ts t)
      (hName : ∀ s, ts ≠ [.name s]) :
      Written scope Level.tightest ('(' :: (cs ++ [')']))
        (.mark .opening :: (ts ++ [.mark .closing])) t
  | whole {n : Nat} (hn : n < Nat.pow 2 127) :
      Written scope Level.tightest (toString n).toList [.int n] (.int n)
  | decimal {c : Char} {run : List Char} (hc : c.isDigit = true)
      (hRun : ∀ d ∈ run, Token.isNumberChar d = true) (hPoint : '.' ∈ run)
      (hReal : Text.isReal (c :: run) = true) :
      Written scope Level.tightest (c :: run) [.real (String.ofList (c :: run))]
        (.real (String.ofList (c :: run)))
  | truth (b : Bool) :
      Written scope Level.tightest (Value.bool b).text.toList [.name (Value.bool b).text]
        (.expr (.truth b))
  | var {x : Variable} (hName : IsIdentifier x.name)
      (hTrue : Text.sameIgnoringCase x.name "true" = false)
      (hFalse : Text.sameIgnoringCase x.name "false" = false)
      (hLookUp : lookUp scope x.name = .ok (.var x)) :
      Written scope Level.tightest x.name.toList [.name x.name] (.expr (.var x))

variable {scope : List Variable} {k : Nat} {level : Level} {m : Mark} {t : Term}
  {cs : List Char} {ts rest : List Token}

theorem Written.weaken {j : Nat} (hle : j ≤ k) (h : Written scope k cs ts t) :
    Written scope j cs ts t := by
  induction hle with
  | refl => exact h
  | step _ ih => exact ih h.looser

/-! ## Scanning -/

/-- A name without a prime. -/
theorem IsIdentifier.of_toList {name : String} {c : Char} {run : List Char}
    (hName : name.toList = c :: run) (hc : Token.startsName c = true)
    (hRun : run.all Text.isNameChar = true) : IsIdentifier name :=
  ⟨c, run, hc, List.all_eq_true.mp hRun, .inl hName⟩

theorem isIdentifier_typeName (type : ValueType) : IsIdentifier type.name := by
  cases type with
  | signed width => cases width <;> exact .of_toList rfl (by decide) (by decide)
  | unsigned width => cases width <;> exact .of_toList rfl (by decide) (by decide)
  | bool => exact .of_toList rfl (by decide) (by decide)
  | real precision => cases precision <;> exact .of_toList rfl (by decide) (by decide)

theorem isIdentifier_truth (b : Bool) : IsIdentifier (Value.bool b).text := by
  cases b <;> exact .of_toList rfl (by decide) (by decide)

/-- What is written as a term is spelled by tokens. -/
theorem Written.spells (h : Written scope k cs ts t) : Spells cs ts := by
  induction h with
  | looser _ ih => exact ih
  | binary _ _ _ _ _ _ ihl ihr => exact ihl.spaced _ ihr
  | comparison _ _ _ _ ihl ihr => exact ihl.spaced _ ihr
  | not _ _ ih => exact ih.bang
  | complement _ _ ih => exact ih.tilde
  | negate _ ih => exact ih.minus
  | cast _ _ ih => exact ih.cast (isIdentifier_typeName _)
  | parentheses _ _ ih => exact ih.enclosed
  | whole hn => exact .whole hn
  | decimal hc hRun hPoint hReal => exact .decimal hc hRun hPoint hReal
  | truth b => exact .identifier (isIdentifier_truth b)
  | var hName _ _ _ => exact .identifier hName

/-! ## Reading -/

/-- The reader of the levels from `k` on, in which parentheses are nested at most `depth` deep. -/
def reader (scope : List Variable) (depth k : Nat) : Reader Term :=
  climb (unary scope (formula scope depth)) (Level.all.drop k)

theorem formula_succ (depth : Nat) : formula scope (depth + 1) = reader scope depth 0 := rfl

theorem drop_levels (hLevel : Level.all[k]? = some level) :
    Level.all.drop k = level :: Level.all.drop (k + 1) := by
  obtain ⟨hlt, rfl⟩ := List.getElem?_eq_some_iff.mp hLevel
  exact List.drop_eq_getElem_cons hlt

/-! ## Where a reader stops -/

theorem Mark.mem_all (m : Mark) : m ∈ Mark.all := by
  cases m with
  | connective op => cases op <;> decide
  | comparison op => cases op <;> decide
  | arithmetic op => cases op <;> decide
  | bitwise op => cases op <;> decide
  | _ => decide

/-- No operator stands on two levels. -/
theorem levels_apart : Level.all.Pairwise fun level level' =>
    ∀ m ∈ Mark.all, (level.combine? m).isSome = true → (level'.combine? m).isNone = true := by
  decide +kernel

/-- The tokens do not start with an operator of level `k` or a tighter one. -/
def Stops (k : Nat) (ts : List Token) : Prop :=
  ∀ m ts', ts = .mark m :: ts' → ∀ level ∈ Level.all.drop k, level.combine? m = none

namespace Stops

theorem nil : Stops k [] := by
  rintro m ts' ⟨⟩

theorem closing (ts : List Token) : Stops k (.mark .closing :: ts) := by
  rintro m ts' ⟨⟩ level -
  cases level <;> rfl

theorem tightest (ts : List Token) : Stops Level.tightest ts := by
  intro m ts' _ level hLevel
  rw [List.drop_length] at hLevel
  exact absurd hLevel List.not_mem_nil

theorem succ (h : Stops k rest) : Stops (k + 1) rest := by
  intro m ts' hRest level hLevel
  rw [← List.drop_drop] at hLevel
  exact h m ts' hRest level (List.mem_of_mem_drop hLevel)

/-- An operator is none of a tighter level. -/
theorem operator (hLevel : Level.all[k]? = some level) (hm : (level.combine? m).isSome = true)
    (ts : List Token) : Stops (k + 1) (.mark m :: ts) := by
  rintro _ _ ⟨⟩ level' hLevel'
  have hApart := levels_apart.drop (i := k)
  rw [drop_levels hLevel, List.pairwise_cons] at hApart
  exact Option.isNone_iff_eq_none.mp (hApart.1 level' hLevel' m m.mem_all hm)

end Stops

/-! ## Binary operators -/

section Binary

variable {operand : Reader Term} {combine : Term → Term → Except Fault Term} {l r : Term}
  {bound : Nat}

/-- A chain stops where no operator of its level follows. -/
theorem chain_stops (hLevel : Level.all[k]? = some level) (h : Stops k rest) (bound : Nat)
    (t : Term) : chain operand level bound t rest = .ok (t, rest) := by
  have hMem : level ∈ Level.all.drop k := drop_levels hLevel ▸ List.mem_cons_self
  cases bound with
  | zero => rfl
  | succ bound =>
    cases rest with
    | nil => rfl
    | cons token rest =>
      cases token with
      | mark m => rw [chain, h m rest rfl level hMem]
      | _ => rfl

theorem chain_operator (hCombine : level.combine? m = some combine)
    (hr : operand ts = .ok (r, rest)) (h : combine l r = .ok t) :
    chain operand level (bound + 1) l (.mark m :: ts) = chain operand level bound t rest := by
  simp only [chain, hCombine, hr, h, bind, Except.bind]

/-- A level reads an operand of the next level, and then its operators. -/
theorem reader_of_operand {depth : Nat} (hLevel : Level.all[k]? = some level)
    (h : reader scope depth (k + 1) ts = .ok (t, rest)) :
    reader scope depth k ts =
      chain (reader scope depth (k + 1)) level (level.chainBound rest.length) t rest := by
  unfold reader at h ⊢
  rw [drop_levels hLevel]
  simp only [climb, h, bind, Except.bind]

/-- Whatever follows that is no operator of the levels, the tokens are read as the operand.
Parentheses are not nested deeper than there are tokens. -/
def Reads (scope : List Variable) (k : Nat) (ts : List Token) (t : Term) : Prop :=
  ∀ depth rest, ts.length ≤ depth → Stops k rest → reader scope depth k (ts ++ rest) = .ok (t, rest)

/-- In front of an operator of the level, the tokens are the left operand of a chain that has bound
enough for all operators that are left. -/
def Chains (scope : List Variable) (k : Nat) (ts : List Token) (t : Term) : Prop :=
  ∀ level, Level.all[k]? = some level → level ≠ .comparisons →
    ∀ depth rest, ts.length ≤ depth → Stops (k + 1) rest → ∃ bound, rest.length ≤ bound ∧
      reader scope depth k (ts ++ rest) = chain (reader scope depth (k + 1)) level bound t rest

theorem Chains.tightest : Chains scope Level.tightest ts t := by
  intro level hLevel
  rw [List.getElem?_eq_none (Nat.le_refl _)] at hLevel
  cases hLevel

theorem Reads.chains (h : Reads scope (k + 1) ts t) : Chains scope k ts t := by
  intro level hLevel hChain depth rest hDepth hStops
  refine ⟨level.chainBound rest.length, ?_, reader_of_operand hLevel (h depth rest hDepth hStops)⟩
  cases level with
  | comparisons => exact absurd rfl hChain
  | _ => exact Nat.le_refl _

/-- What a level reads is read by the looser level above it. -/
theorem Reads.looser (h : Reads scope (k + 1) ts t) : Reads scope k ts t := by
  intro depth rest hDepth hStops
  have hRead := h depth rest hDepth hStops.succ
  cases hLevel : Level.all[k]? with
  | some level => rw [reader_of_operand hLevel hRead, chain_stops hLevel hStops]
  | none =>
    -- behind the last level there is only the tightest one
    have hk : Level.all.length ≤ k := List.getElem?_eq_none_iff.mp hLevel
    unfold reader at hRead ⊢
    rwa [List.drop_eq_nil_of_le hk, ← List.drop_eq_nil_of_le (Nat.le_succ_of_le hk)]

theorem Chains.reads (h : Chains scope k ts t) (hLevel : Level.all[k]? = some level)
    (hChain : level ≠ .comparisons) : Reads scope k ts t := by
  intro depth rest hDepth hStops
  obtain ⟨bound, -, hRead⟩ := h level hLevel hChain depth rest hDepth hStops.succ
  rw [hRead, chain_stops hLevel hStops]

variable {tsl tsr : List Token}

/-- A chain goes on with an operator of its level and an operand of the next. -/
theorem Chains.binary (hLevel : Level.all[k]? = some level)
    (hCombine : level.combine? m = some combine)
    (hl : Chains scope k tsl l) (hr : Reads scope (k + 1) tsr r) (h : combine l r = .ok t) :
    Chains scope k (tsl ++ .mark m :: tsr) t := by
  intro level' hLevel' hChain depth rest hDepth hStops
  obtain rfl : level = level' := Option.some.inj (hLevel.symm.trans hLevel')
  rw [List.length_append, List.length_cons] at hDepth
  have hm : (level.combine? m).isSome = true := by rw [hCombine]; rfl
  obtain ⟨bound, hBound, hRead⟩ :=
    hl level hLevel hChain depth (.mark m :: (tsr ++ rest)) (by omega) (.operator hLevel hm _)
  rw [List.length_cons, List.length_append] at hBound
  obtain ⟨bound, rfl⟩ : ∃ n, bound = n + 1 := ⟨bound - 1, by omega⟩
  refine ⟨bound, by omega, ?_⟩
  rw [List.append_assoc, List.cons_append, hRead]
  exact chain_operator hCombine (hr depth rest (by omega) hStops) h

/-- A comparison takes two operands of the next level. -/
theorem Reads.comparison {op : Comparison} (hLevel : Level.all[k]? = some .comparisons)
    (hl : Reads scope (k + 1) tsl l) (hr : Reads scope (k + 1) tsr r)
    (h : Term.compare op l r = .ok t) : Reads scope k (tsl ++ .mark (.comparison op) :: tsr) t := by
  intro depth rest hDepth hStops
  rw [List.length_append, List.length_cons] at hDepth
  have hLeft := hl depth (.mark (.comparison op) :: (tsr ++ rest)) (by omega)
    (.operator hLevel rfl _)
  have hRight := hr depth rest (by omega) hStops.succ
  -- one comparison is the bound of its level, so nothing more is read
  calc reader scope depth k ((tsl ++ .mark (.comparison op) :: tsr) ++ rest)
      = chain (reader scope depth (k + 1)) .comparisons 1 l
        (.mark (.comparison op) :: (tsr ++ rest)) := by
        rw [List.append_assoc, List.cons_append]
        exact reader_of_operand hLevel hLeft
    _ = chain (reader scope depth (k + 1)) .comparisons 0 t rest := chain_operator rfl hRight h
    _ = .ok (t, rest) := rfl

end Binary

/-! ## Unary operators and operands -/

/-- The tokens do not start with a name in front of a closing parenthesis. -/
def NoCast (ts : List Token) : Prop :=
  ∀ s ts', ts ≠ .name s :: .mark .closing :: ts'

/-- A mark behind the tokens makes no cast of them, unless it closes a name. -/
theorem NoCast.mark_append (h : NoCast ts) (hm : m ≠ .closing ∨ ∀ s, ts ≠ [.name s])
    (rest : List Token) : NoCast (ts ++ .mark m :: rest) := by
  intro s ts' heq
  cases ts with
  | nil => cases heq
  | cons token ts =>
    obtain ⟨rfl, hTail⟩ := List.cons.inj heq
    cases ts with
    | nil =>
      obtain ⟨hMark, -⟩ := List.cons.inj hTail
      rcases hm with hm | hm
      · exact hm (Token.mark.inj hMark)
      · exact hm s rfl
    | cons token' ts =>
      obtain ⟨rfl, -⟩ := List.cons.inj hTail
      exact h s ts rfl

/-- An opening parenthesis that starts no cast is read as a primary. -/
theorem unary_opening {inner : Reader Term} (h : NoCast ts) :
    unary scope inner (.mark .opening :: ts) = primary scope inner (.mark .opening :: ts) := by
  cases ts with
  | nil => rfl
  | cons token ts =>
    cases token with
    | name s =>
      cases ts with
      | nil => rfl
      | cons token ts =>
        cases token with
        | mark m =>
          cases m with
          | closing => exact absurd rfl (h s ts)
          | _ => rfl
        | _ => rfl
    | _ => rfl

/-- No operand starts like a cast that it is not. -/
theorem Written.noCast (h : Written scope k cs ts t) : NoCast ts := by
  induction h with
  | looser _ ih => exact ih
  | binary hLevel _ hCombine _ _ _ ihl _ =>
    refine ihl.mark_append (.inl ?_) _
    rintro rfl
    cases ‹Level› <;> cases hCombine
  | comparison _ _ _ _ ihl _ => exact ihl.mark_append (.inl (by rintro ⟨⟩)) _
  | _ => rintro s ts' ⟨⟩

namespace Reads

variable {e : Expr} {u : Term}

/-- What unary operators and operands have to show. -/
theorem of_unary (h : ∀ depth rest, ts.length ≤ depth →
    unary scope (formula scope depth) (ts ++ rest) = .ok (t, rest)) :
    Reads scope Level.tightest ts t :=
  fun depth rest hDepth _ => h depth rest hDepth

theorem unary_eq (h : Reads scope Level.tightest ts t) {depth : Nat} (hDepth : ts.length < depth)
    (rest : List Token) : unary scope (formula scope depth) (ts ++ rest) = .ok (t, rest) :=
  h depth rest (Nat.le_of_lt hDepth) (.tightest rest)

theorem not (h : Reads scope Level.tightest ts t) (he : t.toBoolean = .ok e) :
    Reads scope Level.tightest (.mark .bang :: ts) (.expr (.not e)) := by
  refine of_unary fun depth rest hDepth => ?_
  rw [List.cons_append, unary, h.unary_eq hDepth rest]
  simp only [he, bind, Except.bind, pure, Except.pure]

theorem complement (h : Reads scope Level.tightest ts t) (he : t.toExpr none = .ok e) :
    Reads scope Level.tightest (.mark .tilde :: ts) (.expr (.complement e)) := by
  refine of_unary fun depth rest hDepth => ?_
  rw [List.cons_append, unary, h.unary_eq hDepth rest]
  simp only [he, bind, Except.bind, pure, Except.pure]

theorem negate (h : Reads scope Level.tightest ts t) :
    Reads scope Level.tightest (.mark (.arithmetic .sub) :: ts) t.negate := by
  refine of_unary fun depth rest hDepth => ?_
  rw [List.cons_append, unary, h.unary_eq hDepth rest]
  rfl

theorem cast {type : ValueType} (h : Reads scope Level.tightest ts t)
    (hCast : t.castTo type = .ok u) :
    Reads scope Level.tightest (.mark .opening :: .name type.name :: .mark .closing :: ts) u := by
  refine of_unary fun depth rest hDepth => ?_
  simp only [List.length_cons] at hDepth
  rw [List.cons_append, List.cons_append, List.cons_append, unary, ValueType.ofName?_name]
  simp only [h.unary_eq (by omega : ts.length < depth) rest, hCast, bind, Except.bind, pure,
    Except.pure]

/-- Parentheses around anything but a name. -/
theorem parentheses (h : Reads scope 0 ts t) (hCast : NoCast ts) (hName : ∀ s, ts ≠ [.name s]) :
    Reads scope Level.tightest (.mark .opening :: (ts ++ [.mark .closing])) t := by
  refine of_unary fun depth rest hDepth => ?_
  rw [List.length_cons, List.length_append] at hDepth
  obtain ⟨depth, rfl⟩ : ∃ n, depth = n + 1 := ⟨depth - 1, by omega⟩
  have hInner : formula scope (depth + 1) (ts ++ .mark .closing :: rest) =
      .ok (t, .mark .closing :: rest) := by
    rw [formula_succ]
    exact h depth _ (by omega) (.closing rest)
  rw [List.cons_append, List.append_assoc, List.singleton_append,
    unary_opening (hCast.mark_append (.inr hName) rest)]
  simp only [primary, hInner, bind, Except.bind, pure, Except.pure]

theorem truth (b : Bool) :
    Reads scope Level.tightest [.name (Value.bool b).text] (.expr (.truth b)) := by
  refine of_unary fun depth rest _ => ?_
  cases b <;> rfl

theorem var {x : Variable} (hTrue : Text.sameIgnoringCase x.name "true" = false)
    (hFalse : Text.sameIgnoringCase x.name "false" = false)
    (hLookUp : lookUp scope x.name = .ok (.var x)) :
    Reads scope Level.tightest [.name x.name] (.expr (.var x)) := by
  refine of_unary fun depth rest _ => ?_
  show primary scope (formula scope depth) (.name x.name :: rest) = .ok (.expr (.var x), rest)
  rw [primary, if_neg (by simp [hTrue]), if_neg (by simp [hFalse]), hLookUp]
  rfl

end Reads

/-- The levels are read from the tightest on; in a chain the left operand is what was read so
far. -/
theorem Written.reads (h : Written scope k cs ts t) : Reads scope k ts t ∧ Chains scope k ts t := by
  induction h with
  | looser _ ih => exact ⟨ih.1.looser, ih.1.chains⟩
  | binary hLevel hChain hCombine _ _ h ihl ihr =>
    have hChains := Chains.binary hLevel hCombine ihl.2 ihr.1 h
    exact ⟨hChains.reads hLevel hChain, hChains⟩
  | comparison hLevel _ _ h ihl ihr =>
    refine ⟨.comparison hLevel ihl.1 ihr.1 h, fun level hLevel' hChain => ?_⟩
    exact absurd (Option.some.inj (hLevel'.symm.trans hLevel)) hChain
  | not _ he ih => exact ⟨ih.1.not he, .tightest⟩
  | complement _ he ih => exact ⟨ih.1.complement he, .tightest⟩
  | negate _ ih => exact ⟨ih.1.negate, .tightest⟩
  | cast _ hCast ih => exact ⟨ih.1.cast hCast, .tightest⟩
  | parentheses h hName ih => exact ⟨ih.1.parentheses h.noCast hName, .tightest⟩
  | whole _ => exact ⟨.of_unary fun _ _ _ => rfl, .tightest⟩
  | decimal _ _ _ _ => exact ⟨.of_unary fun _ _ _ => rfl, .tightest⟩
  | truth b => exact ⟨.truth b, .tightest⟩
  | var _ hTrue hFalse hLookUp => exact ⟨.var hTrue hFalse hLookUp, .tightest⟩

/-- A text that follows the grammar is read as what it was written for. -/
theorem Written.parseExpression_eq {text : String} (h : Written scope 0 text.toList ts t) :
    parseExpression text scope = t.toExpr none := by
  have hRead : formula scope (ts.length + 1) ts = .ok (t, []) := by
    have hReads := h.reads.1 ts.length [] (Nat.le_refl _) .nil
    rwa [List.append_nil] at hReads
  simp only [parseExpression, h.spells.scan, Except.mapError, hRead, bind, Except.bind]

end StateSpace.Formula
