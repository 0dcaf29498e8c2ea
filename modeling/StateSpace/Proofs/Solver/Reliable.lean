import StateSpace.Proofs.Exploration
import StateSpace.Proofs.Solver.ByDiagram

/-!
# Solvers with models

A solver is reliable if its answers are true and the values it finds are a model of the formula. The
solver that searches all values of the free variables, one after the other, is one; it answers every
question (`Solver.searching_reliable`). The solver by diagrams is one as long as all variables of a
formula have slots of their own, so larger formulas are left open
(`Solver.byDiagram_atMost_reliable`). An exploration that asks it is one by diagrams, unless it asks
about such a formula (`Search.searchConcrete_atMost` and its like).
-/

namespace StateSpace

open Circuit Diagram Environment

variable [Reals]

/-- Whenever the solver answers a question, the answer is right, and the values that it finds are a
model. As truth is, this is relative to the meaning of the reals. -/
structure Solver.Reliable {σ : Type} (solver : Solver σ) : Prop extends solver.Truthful where
  solved : ∀ e memory, (solver.solve e memory).1.verdict = .sat →
    (solver.solve e memory).1.model.IsModel e

/-- A variable equals a constant of its type where it has the number of the constant. -/
theorem Expr.holds_equal_const {x : Variable} {v : Value} {ρ : Environment}
    (hType : v.type = x.type) (hHeld : x.type.hold v.number = v.number) :
    (equal (var x) (const v)).holds ρ = true ↔ ρ.get x = v.number := by
  have hNumber : ∀ ρ, (const v).eval ρ = v.number := by
    intro ρ
    cases v with
    | bool b => rfl
    | int n t =>
      obtain rfl : t = x.type := hType
      exact hHeld
    | real text t => rfl
  have hSame : ∀ ρ : Environment, ρ.get x = v.number →
      (equal (var x) (const v)).holds ρ = true := by
    intro ρ heq
    by_cases hBool : (var x).type = .bool
    · have hVar : (var x).eval ρ = (const v).eval ρ := heq.trans (hNumber ρ).symm
      rw [equal, if_pos hBool, holds_logical, holds, holds, hVar]
      exact beq_self_eq_true _
    · rw [equal, if_neg hBool, holds_compare_eq_var, hNumber]
      show ρ.get x = x.type.convert v.type v.number
      rw [hType, ValueType.convert_self, hHeld, heq]
  refine ⟨fun h => ?_, hSame ρ⟩
  -- values equal to one constant are equal, and the number of the constant is such a value
  have hConstant : Environment.get (fun _ => v.number) x = v.number := hHeld
  exact (get_eq_of_holds_equal_const h (hSame _ hConstant)).trans hConstant

/-! ## The values of a type -/

namespace Value

variable {t : ValueType} {m n : Int}

/-- The value that a number is at a type. -/
def ofNumber (t : ValueType) (n : Int) : Value :=
  t.ifReal (fun p => .int (Reals.round p n) t) (.ofBits (t.bits n) t)

theorem ofNumber_of_isReal_eq_false (ht : t.isReal = false) (n : Int) :
    ofNumber t n = .ofBits (t.bits n) t :=
  ValueType.ifReal_of_isReal_eq_false ht

theorem type_ofNumber (t : ValueType) (n : Int) : (ofNumber t n).type = t := by
  cases t <;> rfl

theorem number_ofNumber (t : ValueType) (n : Int) : (ofNumber t n).number = t.hold n := by
  cases ht : t.isReal with
  | true =>
    obtain ⟨p, rfl⟩ := ValueType.exists_of_isReal ht
    rfl
  | false =>
    rw [ofNumber_of_isReal_eq_false ht, number_ofBits, ValueType.wrap_bits,
      ValueType.hold_eq_wrap ht]

theorem ofNumber_congr (h : t.hold m = t.hold n) : ofNumber t m = ofNumber t n := by
  cases ht : t.isReal with
  | true =>
    obtain ⟨p, rfl⟩ := ValueType.exists_of_isReal ht
    exact congrArg (Value.int · (.real p)) h
  | false =>
    rw [ValueType.hold_eq_wrap ht, ValueType.hold_eq_wrap ht] at h
    rw [ofNumber_of_isReal_eq_false ht, ofNumber_of_isReal_eq_false ht, ← t.bits_wrap m, h,
      t.bits_wrap]

end Value

namespace ValueType

variable {α : Type} {t : ValueType} {f : Int → Option α} {a : α}

/-- The first result that there is for the values of a type. -/
def findSome? (t : ValueType) (f : Int → Option α) : Option α :=
  t.ifReal (fun p => (Reals.find? p fun n => (f n).isSome).bind f)
    ((List.range t.modulus).findSome? fun n : Nat => f n)

/-- What a search over a range finds is found at some number. -/
theorem findSome?_eq_some (h : t.findSome? f = some a) : ∃ n, f n = some a := by
  cases ht : t.isReal with
  | true =>
    obtain ⟨p, rfl⟩ := exists_of_isReal ht
    obtain ⟨n, -, hn⟩ := Option.bind_eq_some_iff.mp h
    exact ⟨n, hn⟩
  | false =>
    rw [findSome?, ifReal_of_isReal_eq_false ht] at h
    obtain ⟨n, -, hn⟩ := List.exists_of_findSome?_eq_some h
    exact ⟨n, hn⟩

/-- Where results depend on values alone, none for the values of a type is none for any number. -/
theorem findSome?_eq_none (hf : ∀ m n, t.hold m = t.hold n → f m = f n) (h : t.findSome? f = none)
    (n : Int) : f n = none := by
  cases ht : t.isReal with
  | true =>
    obtain ⟨p, rfl⟩ := exists_of_isReal ht
    have hBind : (Reals.find? p fun n => (f n).isSome).bind f = none := h
    cases hFind : Reals.find? p fun n => (f n).isSome with
    | some m =>
      rw [hFind] at hBind
      have hSome : (f m).isSome = true := Reals.find?_eq_some hFind
      rw [show f m = none from hBind] at hSome
      cases hSome
    | none =>
      have hNone := Reals.find?_eq_none hFind n
      rw [← hf _ _ (hold_hold _ n)]
      exact Option.isNone_iff_eq_none.mp (Option.isSome_eq_false_iff.mp hNone)
  | false =>
    rw [findSome?, ifReal_of_isReal_eq_false ht] at h
    have hMem : t.bits n ∈ List.range t.modulus := List.mem_range.mpr (t.bits_lt_modulus n)
    rw [← List.findSome?_eq_none_iff.mp h _ hMem]
    refine hf _ _ ?_
    rw [hold_eq_wrap ht, hold_eq_wrap ht, wrap_bits]

end ValueType

namespace Valuation

variable {e : Expr} {model found : Valuation} {x : Variable} {v : Value} {xs : List Variable}

theorem IsModel.get_environment (h : model.IsModel e) (hv : model[x]? = some v) :
    model.environment.get x = v.number := by
  simp only [environment, Environment.get, hv, (h.typed x v hv).2]

theorem IsModel.exists_value (h : model.IsModel e) (hx : e.Free x) : ∃ v, model[x]? = some v := by
  have hMem := (h.mem_iff x).mpr (Expr.mem_freeVariables.mpr hx)
  rwa [Std.TreeMap.mem_iff_isSome_getElem?, Option.isSome_iff_exists] at hMem

/-! ## Searching all values -/

/-- The first values of the given variables, in the order of their bits, that satisfy a formula
together with the values already chosen. -/
def search (e : Expr) : List Variable → Valuation → Option Valuation
  | [], model => if e.holds model.environment then some model else none
  | x :: xs, model => x.type.findSome? fun n => search e xs (model.insert x (.ofNumber x.type n))

theorem getElem?_insert_ofNumber (model : Valuation) (x y : Variable) (n : Int) :
    (model.insert x (.ofNumber x.type n))[y]? =
      if y = x then some (.ofNumber x.type n) else model[y]? := by
  rw [Std.TreeMap.getElem?_insert]
  simp only [Std.LawfulEqCmp.compare_eq_iff_eq, eq_comm (a := x)]

/-- Values that are found satisfy the formula, and are values of the variables asked for. -/
theorem search_eq_some (h : search e xs model = some found) :
    e.holds found.environment = true ∧ ∀ x, found[x]? = model[x]? ∧ x ∉ xs ∨
      x ∈ xs ∧ ∃ n, found[x]? = some (.ofNumber x.type n) := by
  induction xs generalizing model with
  | nil =>
    simp only [search] at h
    split at h
    · next hHolds =>
      cases h
      exact ⟨hHolds, fun x => .inl ⟨rfl, List.not_mem_nil⟩⟩
    · cases h
  | cons y ys ih =>
    -- the variables that come later may be the same one again, and then have the last word
    obtain ⟨n, hn⟩ := ValueType.findSome?_eq_some h
    obtain ⟨hHolds, hGet⟩ := ih hn
    refine ⟨hHolds, fun x => ?_⟩
    rcases hGet x with ⟨hx, hNot⟩ | ⟨hMem, hx⟩
    · rw [getElem?_insert_ofNumber] at hx
      by_cases hxy : x = y
      · subst hxy
        rw [if_pos rfl] at hx
        exact .inr ⟨List.mem_cons_self, n, hx⟩
      · rw [if_neg hxy] at hx
        exact .inl ⟨hx, by simp [hxy, hNot]⟩
    · exact .inr ⟨List.mem_cons_of_mem y hMem, hx⟩

/-- Where nothing is found, no values of the variables asked for satisfy the formula. -/
theorem search_eq_none {ρ : Environment} (h : search e xs model = none)
    (hρ : ∀ x, e.Free x → x ∈ xs ∨ model.environment.get x = ρ.get x) : e.holds ρ = false := by
  induction xs generalizing model with
  | nil =>
    simp only [search] at h
    split at h
    · cases h
    · next hHolds =>
      rw [← Bool.not_eq_true, ← Expr.holds_congr fun x hx =>
        (hρ x hx).resolve_left List.not_mem_nil]
      exact hHolds
  | cons y ys ih =>
    have hRest := ValueType.findSome?_eq_none (fun m n hmn => by rw [Value.ofNumber_congr hmn]) h
    refine ih (hRest (ρ y)) fun x hx => ?_
    by_cases hxy : x = y
    · subst hxy
      right
      simp only [environment, Environment.get, getElem?_insert_ofNumber, if_pos,
        Value.number_ofNumber, ValueType.hold_hold]
    · refine (hρ x hx).imp (fun hMem => (List.mem_cons.mp hMem).resolve_left hxy) fun heq => ?_
      rw [← heq]
      simp only [environment, Environment.get, getElem?_insert_ofNumber, if_neg hxy]

/-- The values that the search finds satisfy the formula. -/
theorem isModel_of_search (h : search e e.freeVariables {} = some found) : found.IsModel e := by
  obtain ⟨hHolds, hGet⟩ := search_eq_some h
  have hFree : ∀ x, x ∈ e.freeVariables → ∃ n, found[x]? = some (.ofNumber x.type n) := by
    intro x hx
    rcases hGet x with ⟨-, hNot⟩ | ⟨-, hn⟩
    · exact absurd hx hNot
    · exact hn
  have hOther : ∀ x, x ∉ e.freeVariables → found[x]? = none := by
    intro x hx
    rcases hGet x with ⟨hNone, -⟩ | ⟨hMem, -⟩
    · rw [hNone, Std.TreeMap.getElem?_emptyc]
    · exact absurd hMem hx
  refine ⟨fun x => ?_, fun x v hv => ?_, hHolds⟩
  · rw [Std.TreeMap.mem_iff_isSome_getElem?]
    by_cases hx : x ∈ e.freeVariables
    · obtain ⟨n, hn⟩ := hFree x hx
      simp [hx, hn]
    · simp [hx, hOther x hx]
  · by_cases hx : x ∈ e.freeVariables
    · obtain ⟨n, hn⟩ := hFree x hx
      rw [hn] at hv
      cases hv
      rw [Value.number_ofNumber]
      exact ⟨Value.type_ofNumber _ n, ValueType.hold_hold _ n⟩
    · rw [hOther x hx] at hv
      cases hv

end Valuation

/-- The answer of a search of all values. -/
def Solver.searchAnswer (e : Expr) : Answer :=
  match Valuation.search e e.freeVariables {} with
  | some model => { verdict := .sat, model }
  | none => { verdict := .unsat }

/-- The solver that searches all values of the free variables. -/
def Solver.searching : Solver Unit where
  decide e memory := ((searchAnswer e).verdict, memory)
  solve e memory := (searchAnswer e, memory)

/-- The solver that tries all values finds values, too. -/
theorem Solver.searching_reliable : searching.Reliable := by
  have hSat : ∀ e, (searchAnswer e).verdict = .sat → (searchAnswer e).model.IsModel e := by
    intro e
    unfold searchAnswer
    cases hSearch : Valuation.search e e.freeVariables {} with
    | some model => exact fun _ => Valuation.isModel_of_search hSearch
    | none => exact nofun
  have hUnsat : ∀ e, (searchAnswer e).verdict = .unsat → ∀ ρ, e.holds ρ = false := by
    intro e
    unfold searchAnswer
    cases hSearch : Valuation.search e e.freeVariables {} with
    | some model => exact nofun
    | none =>
      exact fun _ ρ => Valuation.search_eq_none hSearch fun x hx =>
        .inl (Expr.mem_freeVariables.mpr hx)
  exact ⟨⟨fun e _ h => ⟨_, (hSat e h).holds⟩, fun e _ h => hUnsat e h⟩, fun e _ h => hSat e h⟩

/-! ## The solver by diagrams -/

/-- The solver that leaves formulas of more than `count` variables open. -/
def Solver.atMost {σ : Type} (solver : Solver σ) (count : Nat) : Solver σ where
  decide e memory :=
    if e.occurring.toFinset.card ≤ count then solver.decide e memory else (.dontKnow, memory)
  solve e memory :=
    if e.occurring.toFinset.card ≤ count then solver.solve e memory
    else ({ verdict := .dontKnow }, memory)

section ByDiagram

variable (bits : Nat) {e : Expr} (he : e.occurring.toFinset.card ≤ slotCount) (tally : Tally)

include he

/-- A function that is found for a formula answers it. -/
theorem ByDiagram.functionOf_eq_ok {f : Edge} {s : Encoder}
    (hRun : functionOf e (freshEncoder bits) = .ok f s) :
    (f = .zero ↔ ∀ ρ, e.holds ρ = false) ∧
    ∃ answer, answerOf e (freshEncoder bits) = .ok answer s ∧
      (answer.verdict = .sat → answer.model.IsModel e) := by
  have hMem : ∀ x ∈ e.occurring, x ∈ e.occurring.toFinset := fun x hx => List.mem_toFinset.mpr hx
  have hSpec := functionOf_encodes he hMem (sound_ofManager (sound_empty bits))
  obtain ⟨hok, hg, hf⟩ := hSpec.of_eq_ok hRun
  obtain ⟨answer, hAnswer, -, hModel⟩ := answerOf_eq_ok hRun hf hg.new hok.2
  exact ⟨eq_zero_iff hf hg.new he (fun x hx => hMem x (Expr.mem_occurring hx)) hok.2, answer,
    hAnswer, hModel⟩

/-- A verdict by diagrams is right, unless it is open. -/
theorem byDiagram_verdict : ((Solver.byDiagram bits).decide e tally).1 = .dontKnow ∨
    ∃ f, ((Solver.byDiagram bits).decide e tally).1 = ByDiagram.verdict f ∧
      (f = .zero ↔ ∀ ρ, e.holds ρ = false) := by
  by_cases hBits : bits ≤ ComputedTable.maxBits
  · rw [byDiagram_decide_eq hBits, ByDiagram.onFresh]
    cases hRun : functionOf e (ByDiagram.freshEncoder bits) with
    | error cause s =>
      rw [ByDiagram.verdictOf_eq_error hRun]
      exact .inl rfl
    | ok f s =>
      rw [ByDiagram.verdictOf_eq_ok hRun]
      exact .inr ⟨f, rfl, (ByDiagram.functionOf_eq_ok bits he hRun).1⟩
  · simp [Solver.byDiagram, Nat.lt_of_not_le hBits]

/-- The values read off a diagram satisfy the formula. -/
theorem byDiagram_model (hSat : ((Solver.byDiagram bits).solve e tally).1.verdict = .sat) :
    ((Solver.byDiagram bits).solve e tally).1.model.IsModel e := by
  by_cases hBits : bits ≤ ComputedTable.maxBits
  · rw [byDiagram_solve_eq hBits, ByDiagram.onFresh] at hSat ⊢
    cases hRun : functionOf e (ByDiagram.freshEncoder bits) with
    | error cause s =>
      rw [ByDiagram.answerOf_eq_error hRun] at hSat
      cases hSat
    | ok f s =>
      obtain ⟨-, answer, hAnswer, hModel⟩ := ByDiagram.functionOf_eq_ok bits he hRun
      rw [hAnswer] at hSat ⊢
      exact hModel hSat
  · simp [Solver.byDiagram, Nat.lt_of_not_le hBits] at hSat

end ByDiagram

/-- With computed tables of any size, even one that is refused. -/
theorem Solver.byDiagram_atMost_reliable (bits : Nat) :
    ((byDiagram bits).atMost slotCount).Reliable := by
  have hDecided : ∀ {e tally}, (((byDiagram bits).atMost slotCount).decide e tally).1 ≠ .dontKnow →
      ∃ f, (((byDiagram bits).atMost slotCount).decide e tally).1 = ByDiagram.verdict f ∧
        (f = .zero ↔ ∀ ρ, e.holds ρ = false) := by
    intro e tally h
    by_cases he : e.occurring.toFinset.card ≤ slotCount
    · simp only [atMost, if_pos he] at h ⊢
      exact (byDiagram_verdict bits he tally).resolve_left h
    · simp [atMost, he] at h
  refine ⟨⟨fun e tally h => ?_, fun e tally h => ?_⟩, fun e tally h => ?_⟩
  · obtain ⟨f, hf, hZero⟩ := hDecided (by rw [h]; nofun)
    have hne := ByDiagram.verdict_eq_sat.mp (hf.symm.trans h)
    simpa [hZero] using hne
  · obtain ⟨f, hf, hZero⟩ := hDecided (by rw [h]; nofun)
    exact hZero.mp (ByDiagram.verdict_eq_unsat.mp (hf.symm.trans h))
  · by_cases he : e.occurring.toFinset.card ≤ slotCount
    · simp only [atMost, if_pos he] at h ⊢
      exact byDiagram_model bits he tally h
    · simp [atMost, he] at h

end StateSpace
